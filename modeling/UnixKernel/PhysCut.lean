import UnixKernel.PhysAdd

/-! `alloc` and `free` up to their last insertion. Both take blocks out of the table, put the
remainders on the two sides back, and then add the range itself with its new tag. The remainders never
have neighbours on both sides, because their inner side borders on the range that is out of the table;
so with a vacant slot they are inserted without growing or shrinking the table. Disjointness enters
only at the two end addresses of the range. -/

namespace UnixKernel

open Slots Segments

namespace PhysAlloc

/-- At most one block of the table holds `x`. -/
def Sole (s : PhysAlloc) (x : Nat) : Prop := (s.den x).card ≤ 1

theorem Sole.eq_of_holds {s : PhysAlloc} {x : Nat} {b c : RAMBlock} (h : s.Sole x) (hb : b ∈ s.blocks)
    (hc : c ∈ s.blocks) (hbx : Holds b x) (hcx : Holds c x) : b = c :=
  Segments.Sole.eq_of_holds (m := (s.blocks : Multiset RAMBlock)) h (Multiset.mem_coe.mpr hb)
    (Multiset.mem_coe.mpr hc) hbx hcx

theorem Sole.den_eq {s : PhysAlloc} {x : Nat} {t : Tag} (h : s.Sole x) (ht : t ∈ s.den x) :
    s.den x = {t} :=
  Segments.Sole.den_eq (m := (s.blocks : Multiset RAMBlock)) h ht

/-- Two states with the same table storage and the same number of slots. -/
structure SameTable (s s' : PhysAlloc) : Prop where
  ptr_eq : s'.ptr = s.ptr
  max_eq : s'.max = s.max
  isInit_eq : s'.isInit = s.isInit

theorem SameTable.trans {s s' s'' : PhysAlloc} (h : SameTable s s') (h' : SameTable s' s'') :
    SameTable s s'' :=
  ⟨h'.ptr_eq.trans h.ptr_eq, h'.max_eq.trans h.max_eq, h'.isInit_eq.trans h.isInit_eq⟩

theorem Inserted.same {s s' : PhysAlloc} {nb : RAMBlock} (h : Inserted s s' nb) : SameTable s s' :=
  ⟨h.ptr_eq, h.max_eq, h.isInit_eq⟩

theorem sameTable_setSlot (s : PhysAlloc) (i : Nat) (b : RAMBlock) : SameTable s (s.setSlot i b) :=
  ⟨rfl, setSlot_max s i b, rfl⟩

theorem count_le_max (s : PhysAlloc) : s.count ≤ s.max := List.countP_le_length

theorem find_eq_some {s : PhysAlloc} {f : RAMBlock → Bool} {i : Nat} {b : RAMBlock}
    (h : s.find f = some (i, b)) : s.blocks[i]? = some b ∧ 0 < b.size ∧ f b = true := by
  rw [find, Option.bind_eq_some_iff] at h
  obtain ⟨k, hk, hget⟩ := h
  rw [Option.map_eq_some_iff] at hget
  obtain ⟨c, hc, heq⟩ := hget
  cases heq
  have hp := List.findIdx?_eq_some_iff_getElem.mp hk
  obtain ⟨hlt, hpred, -⟩ := hp
  obtain ⟨_, hget⟩ := List.getElem?_eq_some_iff.mp hc
  rw [hget, Bool.and_eq_true, RAMBlock.valid_iff] at hpred
  exact ⟨hc, hpred⟩

theorem find_eq_none {s : PhysAlloc} {f : RAMBlock → Bool} (h : s.find f = none) :
    ∀ b ∈ s.blocks, 0 < b.size → f b = false := by
  rw [find, Option.bind_eq_none_iff] at h
  intro b hb hsize
  by_contra hf
  have hnone : s.blocks.findIdx? (fun b => b.valid && f b) = none := by
    cases hidx : s.blocks.findIdx? (fun b => b.valid && f b) with
    | none => rfl
    | some i =>
        have hget := h i hidx
        obtain ⟨hlt, -, -⟩ := List.findIdx?_eq_some_iff_getElem.mp hidx
        rw [List.getElem?_eq_getElem hlt] at hget
        cases hget
  have hp := List.findIdx?_eq_none_iff.mp hnone b hb
  rw [RAMBlock.valid_iff.mpr hsize, Bool.true_and] at hp
  exact hf hp

theorem den_eq_zero_of_sole {s s' : PhysAlloc} {b : RAMBlock} {x : Nat} (hsole : s.Sole x)
    (hden : s'.den x + part b x = s.den x) (hx : Holds b x) : s'.den x = 0 := by
  rw [Sole, ← hden, part_pos hx, Multiset.card_add, Multiset.card_singleton] at hsole
  exact Multiset.card_eq_zero.mp (by omega)

/-! ### `alloc` -/

/-- The range `ptr` is cut out of free memory of type `ty`. -/
structure Carved (s s₃ : PhysAlloc) (ptr : OwnedPtr) (ty : RAMType) : Prop where
  den_eq : ∀ x, s₃.den x + part (⟨ptr.addr, ptr.size, ty, false⟩ : RAMBlock) x = s.den x
  same : SameTable s s₃
  count_le : s₃.count ≤ s.count + 1
  le_count : s.count ≤ s₃.count + 1
  covers : ∀ t q, 0 < q.size → t ≠ (ty, false) → s.Covers t q → s₃.Covers t q

/-- `alloc` cuts the range out of the block that was found, before it adds it with its new tag. -/
theorem carve_eq {s : PhysAlloc} {args : AllocParams} {ptr : OwnedPtr} {i : Nat}
    {block : RAMBlock} (hfind : (s.find fun block => block.notUsed && args.fromType = block.ty &&
      (block.addr ≤ ptr.addr && ptr.fin ≤ block.fin)) = some (i, block))
    (hpurpose : ¬(block.ty = args.asType ∧ args.used = false)) (hptr : 0 < ptr.size)
    (hfirst : s.Sole ptr.addr) (hlast : s.Sole (ptr.fin - 1)) (hroom : s.count + 1 ≤ s.max) :
    ∃ s₃, Carved s s₃ ptr args.fromType ∧ ∀ o, carve o s args ptr = (do
        let s' ← add o s₃ ⟨ptr.addr, ptr.size, args.asType, args.used⟩
        .ok (some ptr, s')) := by
  obtain ⟨hget, hsize, hf⟩ := find_eq_some hfind
  simp only [RAMBlock.notUsed, Bool.and_eq_true, Bool.not_eq_true', decide_eq_true_eq] at hf
  obtain ⟨⟨hunused, hty⟩, hlo, hhi⟩ := hf
  simp only [RAMBlock.fin, OwnedPtr.fin] at hhi hlast
  -- the block falls into the part before the range, the range and the part behind it
  have hsplit : ∀ x, part block x = part (⟨block.addr, ptr.addr - block.addr, block.ty, false⟩ : RAMBlock) x +
      (part (⟨ptr.addr, ptr.size, args.fromType, false⟩ : RAMBlock) x +
        part (⟨ptr.fin, block.fin - ptr.fin, block.ty, false⟩ : RAMBlock) x) := by
    intro x
    have h₁ : part block x = part (⟨block.addr, ptr.addr - block.addr, block.ty, false⟩ : RAMBlock) x +
        part (⟨ptr.addr, block.fin - ptr.addr, block.ty, false⟩ : RAMBlock) x := by
      apply RAMBlock.part_eq_add
      exacts [rfl, by simp only [RAMBlock.fin]; omega, by simp only [RAMBlock.fin]; omega,
        by rw [hunused], by rw [hunused]]
    have h₂ : part (⟨ptr.addr, block.fin - ptr.addr, block.ty, false⟩ : RAMBlock) x =
        part (⟨ptr.addr, ptr.size, args.fromType, false⟩ : RAMBlock) x +
        part (⟨ptr.fin, block.fin - ptr.fin, block.ty, false⟩ : RAMBlock) x := by
      apply RAMBlock.part_eq_add
      exacts [rfl, rfl, by simp only [RAMBlock.fin, OwnedPtr.fin]; omega, by rw [hty], rfl]
    rw [h₁, h₂]
  have hden₁ : ∀ x, (s.setSlot i block.invalidate).den x + part block x = s.den x := by
    intro x
    rw [setSlot_den hget, RAMBlock.part_invalidate, add_zero]
  have hcount₁ := setSlot_count hget block.invalidate
  rw [if_pos (RAMBlock.valid_iff.mpr hsize), if_neg (by rw [RAMBlock.valid_iff]; exact lt_irrefl 0)] at hcount₁
  have hzero_first : (s.setSlot i block.invalidate).den ptr.addr = 0 :=
    den_eq_zero_of_sole hfirst (hden₁ _) (RAMBlock.holds_iff.mpr (by omega))
  have hzero_last : (s.setSlot i block.invalidate).den (ptr.addr + ptr.size - 1) = 0 :=
    den_eq_zero_of_sole hlast (hden₁ _) (RAMBlock.holds_iff.mpr (by omega))
  have hnot₁ : ¬((s.setSlot i block.invalidate).HasBefore
        ⟨block.addr, ptr.addr - block.addr, block.ty, false⟩ ∧
      (s.setSlot i block.invalidate).HasAfter ⟨block.addr, ptr.addr - block.addr, block.ty, false⟩) := by
    rintro ⟨-, hafter⟩
    have hmem := hafter.mem_den
    rw [show RAMBlock.fin ⟨block.addr, ptr.addr - block.addr, block.ty, false⟩ = ptr.addr by
      simp only [RAMBlock.fin]; omega, hzero_first] at hmem
    exact Multiset.notMem_zero _ hmem
  obtain ⟨s₂, hins₂, hle₂, hadd₂⟩ := add_ok (fun _ => hnot₁) (fits_of_lt (by rw [setSlot_max]; omega))
  have hnot₂ : ¬(s₂.HasBefore ⟨ptr.fin, block.fin - ptr.fin, block.ty, false⟩ ∧
      s₂.HasAfter ⟨ptr.fin, block.fin - ptr.fin, block.ty, false⟩) := by
    rintro ⟨hbefore, -⟩
    have hmem := hbefore.mem_den.2
    rw [show (⟨ptr.fin, block.fin - ptr.fin, block.ty, false⟩ : RAMBlock).addr - 1 =
        ptr.addr + ptr.size - 1 from rfl, hins₂.den_eq, hzero_last, part_neg, add_zero] at hmem
    · exact Multiset.notMem_zero _ hmem
    · rw [RAMBlock.holds_iff]
      dsimp only
      omega
  have hmax₂ : s₂.max = s.max := hins₂.max_eq.trans (setSlot_max s i block.invalidate)
  have hup₂ := hins₂.count_le
  obtain ⟨s₃, hins₃, hle₃, hadd₃⟩ := add_ok (fun _ => hnot₂) (fits_of_lt (by omega))
  have hup₃ := hins₃.count_le
  refine ⟨s₃, ⟨fun x => ?_, ?_, by omega, by omega, fun t q hq ht hcov => ?_⟩, fun o => ?_⟩
  · rw [hins₃.den_eq, hins₂.den_eq, ← hden₁ x, hsplit x]
    abel
  · exact ((sameTable_setSlot s i block.invalidate).trans hins₂.same).trans hins₃.same
  · obtain ⟨c, hc, hct, hclo, hchi⟩ := hcov
    have hne : c ≠ block := by
      rintro rfl
      exact ht (hct.symm.trans (by rw [hty, hunused]))
    exact hins₃.covers t q hq (hins₂.covers t q hq
      ⟨c, (swap_set block.invalidate hget).mem_of_ne hc hne, hct, hclo, hchi⟩)
  · rw [carve, hfind]
    have hif : (decide (block.ty = args.asType) && !args.used) = false := by
      by_contra h
      simp only [Bool.not_eq_false, Bool.and_eq_true, decide_eq_true_eq, Bool.not_eq_true'] at h
      exact hpurpose h
    simp only [hif, Bool.false_eq_true, if_false]
    rw [hadd₂ o]
    change (do
      let s ← add o s₂ _
      let s ← add o s _
      .ok (some ptr, s)) = _
    rw [hadd₃ o]
    rfl

theorem Carved.den_le {s s₃ : PhysAlloc} {ptr : OwnedPtr} {ty : RAMType} (h : Carved s s₃ ptr ty)
    (x : Nat) : s₃.den x ≤ s.den x := by
  rw [← h.den_eq]
  exact Multiset.le_add_right _ _

/-- When no block has the new tag yet, the range is added without joining two blocks. -/
theorem carve_quiet {s : PhysAlloc} (args : AllocParams) {ptr : OwnedPtr} (hptr : 0 < ptr.size)
    (hfirst : s.Sole ptr.addr) (hlast : s.Sole (ptr.fin - 1)) (hroom : s.count + 2 ≤ s.max)
    (hno : (args.asType, args.used) ∉ s.den ptr.fin) :
    (∀ o, carve o s args ptr = .ok (none, s)) ∨
    ∃ s₃ s', Carved s s₃ ptr args.fromType ∧ Inserted s₃ s' ⟨ptr.addr, ptr.size, args.asType, args.used⟩ ∧
      ∀ o, carve o s args ptr = .ok (some ptr, s') := by
  cases hfind : s.find fun block => block.notUsed && args.fromType = block.ty &&
      (block.addr ≤ ptr.addr && ptr.fin ≤ block.fin) with
  | none =>
      refine Or.inl fun o => ?_
      rw [carve, hfind]
      rfl
  | some r =>
      obtain ⟨i, block⟩ := r
      by_cases hpurpose : block.ty = args.asType ∧ args.used = false
      · refine Or.inl fun o => ?_
        rw [carve, hfind]
        simp only [hpurpose.1, hpurpose.2, decide_true, Bool.not_false, Bool.and_self, if_true]
        rfl
      obtain ⟨s₃, hcarved, hcarve⟩ := carve_eq hfind hpurpose hptr hfirst hlast (by omega)
      have hmax₃ := hcarved.same.max_eq
      have hup₃ := hcarved.count_le
      obtain ⟨s', hins, -, hadd⟩ := @add_ok s₃ ⟨ptr.addr, ptr.size, args.asType, args.used⟩
        (fun _ h => hno (Multiset.mem_of_le (hcarved.den_le _) h.2.mem_den)) (fits_of_lt (by omega))
      refine Or.inr ⟨s₃, s', hcarved, hins, fun o => ?_⟩
      rw [hcarve o, hadd o]
      rfl

/-- Types that are not memory, and requests for which there is no range, are turned down at once. -/
theorem alloc_eq_none (pg : BPage) (o : TableOps) {s : PhysAlloc} {args : AllocParams}
    (h : (nonRam.contains args.fromType = false ∧ nonRam.contains args.asType = false) →
      s.requested pg (args.build pg) = none) : alloc pg o s args = .ok (none, s) := by
  rw [alloc]
  by_cases hif : (nonRam.contains (args.build pg).fromType || nonRam.contains (args.build pg).asType) = true
  · simp only [hif, if_true]
    rfl
  · rw [Bool.not_eq_true] at hif
    simp only [hif, Bool.false_eq_true, if_false, h (Bool.or_eq_false_iff.mp hif)]
    rfl

theorem alloc_of_requested (pg : BPage) (o : TableOps) {s : PhysAlloc} {args : AllocParams} {ptr : OwnedPtr}
    (hram : nonRam.contains args.fromType = false ∧ nonRam.contains args.asType = false)
    (hptr : s.requested pg (args.build pg) = some ptr) :
    alloc pg o s args = if s.count + minReq > s.max then (do
        let (r, s) ← o.expand s s.grownMax ptr
        match r with
        | none => pure (none, s)
        | some () => carve o s (args.build pg) ptr)
      else carve o s (args.build pg) ptr := by
  have hif : ¬(nonRam.contains (args.build pg).fromType || nonRam.contains (args.build pg).asType) = true := by
    rw [Bool.not_eq_true, Bool.or_eq_false_iff]
    exact hram
  apply (if_neg hif).trans
  generalize s.requested pg (args.build pg) = r at hptr ⊢
  subst hptr
  rfl

/-! ### `free` -/

theorem overlaps_iff {p : OwnedPtr} {b : RAMBlock} :
    overlaps p b = true ↔ 0 < b.size ∧ b.addr < p.fin ∧ p.addr < b.fin := by
  simp [overlaps, RAMBlock.valid_iff]

/-- The entry of a block after the loop of `free`. -/
def cleared (p : OwnedPtr) (b : RAMBlock) : RAMBlock := if overlaps p b then b.invalidate else b

theorem part_cleared_of_not {p : OwnedPtr} {b : RAMBlock} (h : ¬overlaps p b = true) (x : Nat) :
    part (cleared p b) x = part b x := by
  rw [cleared, if_neg h]

theorem part_cleared {p : OwnedPtr} {b : RAMBlock} (h : overlaps p b = true) (x : Nat) :
    part (cleared p b) x = 0 := by
  rw [cleared, if_pos h, RAMBlock.part_invalidate]

theorem clearRange_den (s : PhysAlloc) (p : OwnedPtr) (x : Nat) :
    (s.clearRange p).den x = Segments.den ((s.blocks : Multiset RAMBlock).map (cleared p)) x := by
  rw [Multiset.map_coe]
  rfl

theorem clearRange_den_of_holds {s : PhysAlloc} {p : OwnedPtr} {x : Nat} (hx : Holds p x) :
    (s.clearRange p).den x = 0 := by
  rw [clearRange_den, den_eq_zero_iff]
  intro c hc hcx
  obtain ⟨b, -, rfl⟩ := Multiset.mem_map.mp hc
  by_cases hb : overlaps p b = true
  · exact absurd hcx (part_eq_zero_iff.mp (part_cleared hb x))
  · rw [cleared, if_neg hb, RAMBlock.holds_iff] at hcx
    rw [OwnedPtr.holds_iff] at hx
    rw [overlaps_iff] at hb
    simp only [RAMBlock.fin, OwnedPtr.fin] at hb
    omega

theorem clearRange_den_of_forall {s : PhysAlloc} {p : OwnedPtr} {x : Nat}
    (h : ∀ b ∈ s.blocks, overlaps p b = true → ¬Holds b x) : (s.clearRange p).den x = s.den x := by
  rw [clearRange_den]
  apply den_map_congr
  intro b hb
  by_cases hover : overlaps p b = true
  · rw [part_cleared hover, part_neg (h b (Multiset.mem_coe.mp hb) hover)]
  · exact part_cleared_of_not hover x

/-- The one block that holds the end address `e` of the range accounts for the difference. -/
theorem clearRange_den_of_mem {s : PhysAlloc} {p : OwnedPtr} {b : RAMBlock} {e x : Nat}
    (hb : b ∈ s.blocks) (hover : overlaps p b = true) (hsole : s.Sole e) (hbe : Holds b e)
    (h : ∀ c ∈ s.blocks, overlaps p c = true → Holds c x → Holds c e) :
    (s.clearRange p).den x + part b x = s.den x := by
  obtain ⟨rest, hrest⟩ := Multiset.exists_cons_of_mem (Multiset.mem_coe.mpr hb)
  have hsole' : Segments.Sole (b ::ₘ rest) e := by rw [← hrest]; exact hsole
  have hzero := den_eq_zero_iff.mp (hsole'.rest_eq_zero hbe)
  rw [clearRange_den, den, hrest, Multiset.map_cons, den_cons, den_cons, part_cleared hover, zero_add,
    add_comm (part b x)]
  congr 1
  apply den_map_congr
  intro c hc
  by_cases hcover : overlaps p c = true
  · rw [part_cleared hcover, part_neg]
    intro hcx
    refine hzero c hc (h c ?_ hcover hcx)
    rw [← Multiset.mem_coe, hrest]
    exact Multiset.mem_cons_of_mem hc
  · exact part_cleared_of_not hcover x

theorem sameTable_clearRange (s : PhysAlloc) (p : OwnedPtr) : SameTable s (s.clearRange p) :=
  ⟨rfl, List.length_map _, rfl⟩

theorem clearRange_count (s : PhysAlloc) (p : OwnedPtr) :
    (s.clearRange p).count + s.blocks.countP (overlaps p) = s.count := by
  simp only [clearRange, count, List.countP_map]
  induction s.blocks with
  | nil => rfl
  | cons b l ih =>
      simp only [List.countP_cons, Function.comp_apply]
      by_cases hover : overlaps p b = true
      · have hsize := (overlaps_iff.mp hover).1
        simp only [hover, if_true, RAMBlock.valid_iff.mpr hsize]
        have hinv : b.invalidate.valid = false := by simp [RAMBlock.valid, RAMBlock.invalidate]
        rw [hinv]
        simp only [Bool.false_eq_true, if_false]
        omega
      · simp only [hover, Bool.false_eq_true, if_false]
        omega

/-- The remainder on one side of the range that `free` puts back, of size zero when there is none. A block sticks out
on this side if it holds the last address `e` of the range there and an address outside; `cut` is what it has there. -/
theorem scan_side {s : PhysAlloc} {ptr : OwnedPtr} {e : Nat} {sticks : RAMBlock → Bool} {cut : RAMBlock → RAMBlock}
    {outside : Nat → Prop} (blank : RAMBlock) (hsole : s.Sole e) (hblank : blank.size = 0)
    (hedge : ∀ b, overlaps ptr b = true → sticks b = true → Holds b e)
    (hsticks : ∀ b x, overlaps ptr b = true → outside x → Holds b x → sticks b = true)
    (hcut : ∀ b x, overlaps ptr b = true → sticks b = true → outside x → part (cut b) x = part b x) :
    ∃ B : RAMBlock, (B = blank ∨ ∃ b ∈ s.blocks, overlaps ptr b = true ∧ sticks b = true ∧ B = cut b) ∧
      (∀ x, outside x → (s.clearRange ptr).den x + part B x = s.den x) ∧
      (∀ b ∈ s.blocks, overlaps ptr b = true → sticks b = true → B = cut b) ∧
      ∀ o s', addSome o s' ((last? (fun b => overlaps ptr b && sticks b) s.blocks).map fun b => cut b.2) =
        add o s' B := by
  rcases @last?_cases _ (fun b => overlaps ptr b && sticks b) _ s.blocks fun b => Bool.and_eq_true_iff with
    ⟨i, b, hscan, hget, hover, hout⟩ | ⟨hscan, hno⟩
  · have hb := List.mem_of_getElem? hget
    rw [hscan]
    refine ⟨cut b, Or.inr ⟨b, hb, hover, hout, rfl⟩, fun x hx => ?_, fun c hc hcover hcout => ?_, fun o s' => rfl⟩
    · rw [hcut b x hover hout hx]
      refine clearRange_den_of_mem hb hover hsole (hedge b hover hout) fun c _ hcover hcx => ?_
      exact hedge c hcover (hsticks c x hcover hx hcx)
    · rw [hsole.eq_of_holds hc hb (hedge c hcover hcout) (hedge b hover hout)]
  · rw [hscan]
    refine ⟨blank, Or.inl rfl, fun x hx => ?_, fun b hb hover hout => absurd ⟨b, hb, hover, hout⟩ hno,
      fun o s' => (add_of_size_eq_zero o hblank).symm⟩
    rw [RAMBlock.part_of_size_eq_zero hblank, add_zero]
    apply clearRange_den_of_forall
    intro b hb hover hbx
    exact hno ⟨b, hb, hover, hsticks b x hover hx hbx⟩

/-- The remainder in front of the range that `free` puts back, of size zero when there is none. -/
theorem scan_left {s : PhysAlloc} {ptr : OwnedPtr}
    (hfirst : s.Sole ptr.addr) :
    ∃ B : RAMBlock, B.fin = ptr.addr ∧
      (∀ x, x < ptr.addr → (s.clearRange ptr).den x + part B x = s.den x) ∧
      (0 < B.size → ∃ b ∈ s.blocks, overlaps ptr b = true ∧ b.addr = B.addr ∧
        (b.ty, b.used) = (B.ty, B.used)) ∧
      (∀ b ∈ s.blocks, overlaps ptr b = true → b.addr < ptr.addr → b.addr = B.addr ∧
        (b.ty, b.used) = (B.ty, B.used)) ∧
      ∀ o s', addSome o s' ((last? (fun b => overlaps ptr b && b.addr < ptr.addr) s.blocks).map
        fun b => ⟨b.2.addr, ptr.addr - b.2.addr, b.2.ty, b.2.used⟩) = add o s' B := by
  have hedge : ∀ b, overlaps ptr b = true → b.addr < ptr.addr → Holds b ptr.addr := fun b hover hlt =>
    RAMBlock.holds_iff.mpr ⟨hlt.le, (overlaps_iff.mp hover).2.2⟩
  have hcut : ∀ (b : RAMBlock) x, overlaps ptr b = true → b.addr < ptr.addr → x < ptr.addr →
      part (⟨b.addr, ptr.addr - b.addr, b.ty, b.used⟩ : RAMBlock) x = part b x := by
    intro b x hover hlt hx
    have hov := overlaps_iff.mp hover
    refine if_congr ?_ rfl rfl
    rw [RAMBlock.holds_iff, RAMBlock.holds_iff]
    simp only [RAMBlock.fin] at hov
    dsimp only
    omega
  obtain ⟨B, hB, hden, hall, hadd⟩ := @scan_side s ptr ptr.addr (fun b => b.addr < ptr.addr)
    (fun b => ⟨b.addr, ptr.addr - b.addr, b.ty, b.used⟩) (· < ptr.addr) ⟨ptr.addr, 0, .reserved, false⟩ hfirst rfl
    (fun b hover hlt => hedge b hover (of_decide_eq_true hlt))
    (fun b x _ hx hbx => decide_eq_true ((RAMBlock.holds_iff.mp hbx).1.trans_lt hx))
    (fun b x hover hlt => hcut b x hover (of_decide_eq_true hlt))
  refine ⟨B, ?_, hden, fun hsize => ?_, fun b hb hover hlt => ?_, hadd⟩
  · rcases hB with rfl | ⟨b, -, -, hlt, rfl⟩
    · rfl
    · exact Nat.add_sub_cancel' (of_decide_eq_true hlt).le
  · rcases hB with rfl | ⟨b, hb, hover, -, rfl⟩
    · exact absurd hsize (lt_irrefl 0)
    · exact ⟨b, hb, hover, rfl, rfl⟩
  · rw [hall b hb hover (decide_eq_true hlt)]
    exact ⟨rfl, rfl⟩

/-- The remainder behind the range that `free` puts back, of size zero when there is none. -/
theorem scan_right {s : PhysAlloc} {ptr : OwnedPtr} (hptr : 0 < ptr.size)
    (hlast : s.Sole (ptr.fin - 1)) :
    ∃ A : RAMBlock, A.addr = ptr.fin ∧
      (∀ x, ptr.fin ≤ x → (s.clearRange ptr).den x + part A x = s.den x) ∧
      (0 < A.size → ∃ b ∈ s.blocks, overlaps ptr b = true ∧ b.fin = A.fin ∧
        (b.ty, b.used) = (A.ty, A.used)) ∧
      (∀ b ∈ s.blocks, overlaps ptr b = true → ptr.fin < b.fin → b.fin = A.fin ∧
        (b.ty, b.used) = (A.ty, A.used)) ∧
      ∀ o s', addSome o s' ((last? (fun b => overlaps ptr b && ptr.fin < b.fin) s.blocks).map
        fun a => ⟨ptr.fin, a.2.fin - ptr.fin, a.2.ty, a.2.used⟩) = add o s' A := by
  have hfin : ∀ b : RAMBlock, ptr.fin < b.fin →
      b.fin = (⟨ptr.fin, b.fin - ptr.fin, b.ty, b.used⟩ : RAMBlock).fin :=
    fun b hlt => (Nat.add_sub_cancel' hlt.le).symm
  have hedge : ∀ b, overlaps ptr b = true → ptr.fin < b.fin → Holds b (ptr.fin - 1) := by
    intro b hover hlt
    have hov := overlaps_iff.mp hover
    rw [RAMBlock.holds_iff]
    simp only [RAMBlock.fin, OwnedPtr.fin] at hov hlt ⊢
    omega
  have hcut : ∀ (b : RAMBlock) x, overlaps ptr b = true → ptr.fin < b.fin → ptr.fin ≤ x →
      part (⟨ptr.fin, b.fin - ptr.fin, b.ty, b.used⟩ : RAMBlock) x = part b x := by
    intro b x hover hlt hx
    have hov := overlaps_iff.mp hover
    refine if_congr ?_ rfl rfl
    rw [RAMBlock.holds_iff, RAMBlock.holds_iff]
    simp only [RAMBlock.fin, OwnedPtr.fin] at hov hlt hx ⊢
    omega
  obtain ⟨A, hA, hden, hall, hadd⟩ := @scan_side s ptr (ptr.fin - 1) (fun b => ptr.fin < b.fin)
    (fun b => ⟨ptr.fin, b.fin - ptr.fin, b.ty, b.used⟩) (ptr.fin ≤ ·) ⟨ptr.fin, 0, .reserved, false⟩ hlast rfl
    (fun b hover hlt => hedge b hover (of_decide_eq_true hlt))
    (fun b x _ hx hbx => decide_eq_true (hx.trans_lt (RAMBlock.holds_iff.mp hbx).2))
    (fun b x hover hlt => hcut b x hover (of_decide_eq_true hlt))
  refine ⟨A, ?_, hden, fun hsize => ?_, fun b hb hover hlt => ?_, hadd⟩
  · rcases hA with rfl | ⟨b, -, -, -, rfl⟩ <;> rfl
  · rcases hA with rfl | ⟨b, hb, hover, hlt, rfl⟩
    · exact absurd hsize (lt_irrefl 0)
    · exact ⟨b, hb, hover, hfin b (of_decide_eq_true hlt), rfl⟩
  · rw [hall b hb hover (decide_eq_true hlt)]
    exact ⟨hfin b hlt, rfl⟩

theorem mem_clearRange {s : PhysAlloc} {p : OwnedPtr} {b : RAMBlock} (hb : b ∈ s.blocks)
    (h : ¬overlaps p b = true) : b ∈ (s.clearRange p).blocks := by
  refine List.mem_map.mpr ⟨b, hb, ?_⟩
  rw [if_neg h]

/-- `free` puts the remainder `A` behind the range back while the range, and `A` itself, are out of the
table. Growing the table at this point needs a full table and a single block that sticks out on both
sides of the range and has no neighbour to be joined with. -/
structure Cut (s s₂ : PhysAlloc) (ptr : OwnedPtr) (A : RAMBlock) : Prop where
  addr_eq : A.addr = ptr.fin
  den_eq : ∀ x, s₂.den x + part A x = if Holds ptr x then 0 else s.den x
  same : SameTable s s₂
  count_le : s₂.count ≤ s.count
  le_count : s.count ≤ s₂.count + s.blocks.countP (overlaps ptr)
  covers : ∀ t q, 0 < q.size → (∀ x, Holds q x → ¬Holds ptr x) → s.Covers t q → s₂.Covers t q ∨
    t = (A.ty, A.used) ∧ A.addr ≤ q.addr ∧ q.fin ≤ A.fin
  full : 0 < A.size → s.max ≤ s₂.count → s.count = s.max ∧
    ∃ b ∈ s.blocks, b.addr < ptr.addr ∧ ptr.fin < b.fin ∧ A.fin = b.fin ∧
      (A.ty, A.used) = (b.ty, b.used) ∧ ¬s.HasBefore b ∧ (s.HasAfter b → s₂.HasAfter A)

theorem free_eq {s : PhysAlloc} {ptr : OwnedPtr} (hptr : 0 < ptr.size)
    (hfirst : s.Sole ptr.addr) (hlast : s.Sole (ptr.fin - 1)) :
    ∃ s₂ A, Cut s s₂ ptr A ∧ ∀ o, free o s ptr = (do
      let s₃ ← add o s₂ A
      add o s₃ ⟨ptr.addr, ptr.size, .conv, false⟩) := by
  obtain ⟨B, hBfin, hBden, hBsrc, hBall, hBeq⟩ := scan_left hfirst
  obtain ⟨A, hAaddr, hAden, hAsrc, hAall, hAeq⟩ := scan_right hptr hlast
  have hcount₁ := clearRange_count s ptr
  have hmax := s.count_le_max
  have hmax₁ := (sameTable_clearRange s ptr).max_eq
  have hnot : ¬((s.clearRange ptr).HasBefore B ∧ (s.clearRange ptr).HasAfter B) := by
    rintro ⟨-, hafter⟩
    have hmem := hafter.mem_den
    rw [hBfin, clearRange_den_of_holds (OwnedPtr.holds_iff.mpr (by omega))] at hmem
    exact Multiset.notMem_zero _ hmem
  -- the block behind `B` makes room for it
  have hinsB : ∃ s₂, Inserted (s.clearRange ptr) s₂ B ∧ (s.clearRange ptr).count ≤ s₂.count ∧
      ((s.clearRange ptr).count < s₂.count → 0 < B.size ∧ ¬(s.clearRange ptr).HasBefore B ∧
        ∀ b ∈ (s.clearRange ptr).blocks, 0 < b.size → b ∈ s₂.blocks) ∧
      ∀ o, add o (s.clearRange ptr) B = .ok s₂ := by
    rcases Nat.eq_zero_or_pos B.size with hzero | hpos
    · exact ⟨s.clearRange ptr, inserted_of_size_eq_zero _ hzero, le_refl _,
        fun h => absurd h (lt_irrefl _), fun o => add_of_size_eq_zero o hzero⟩
    · obtain ⟨b, hb, hover, -, -⟩ := hBsrc hpos
      have hk : 0 < s.blocks.countP (overlaps ptr) := List.countP_pos_iff.mpr ⟨b, hb, hover⟩
      by_cases hor : (s.clearRange ptr).HasBefore B ∨ (s.clearRange ptr).HasAfter B
      · obtain ⟨s₂, hins, hcount, hadd⟩ := add_of_one hpos hnot hor
        exact ⟨s₂, hins, hcount.ge, fun h => absurd h (by omega), hadd⟩
      · rw [not_or] at hor
        obtain ⟨s₂, hins, hcount, hmem, hadd⟩ := add_of_none_room hpos hor.1 hor.2 (by omega)
        exact ⟨s₂, hins, by omega, fun _ => ⟨hpos, hor.1, hmem⟩, hadd⟩
  obtain ⟨s₂, hins₂, hle₂, hfull₂, hadd₂⟩ := hinsB
  refine ⟨s₂, A, ⟨hAaddr, fun x => ?_, (sameTable_clearRange s ptr).trans hins₂.same, ?_, by omega,
    fun t q hq hqp hcov => ?_, ?_⟩, fun o => ?_⟩
  · rw [hins₂.den_eq]
    rcases Nat.lt_or_ge x ptr.addr with hx | hx
    · rw [if_neg (by rw [OwnedPtr.holds_iff]; omega), part_neg (b := A)
        (by rw [RAMBlock.holds_iff, hAaddr, OwnedPtr.fin]; omega), add_zero, ← hBden x hx, add_comm]
    · have hB : part B x = 0 :=
        part_neg (by rw [RAMBlock.holds_iff]; simp only [RAMBlock.fin] at hBfin; omega)
      rw [hB, zero_add]
      rcases Nat.lt_or_ge x ptr.fin with hx' | hx'
      · have hin : Holds ptr x := ⟨hx, hx'⟩
        rw [if_pos hin, clearRange_den_of_holds hin, zero_add,
          part_neg (by rw [RAMBlock.holds_iff, hAaddr]; omega)]
      · rw [if_neg (fun h : Holds ptr x => absurd h.2 (Nat.not_lt.mpr hx')), hAden x hx']
  · have hup := hins₂.count_le
    by_cases hlt : (s.clearRange ptr).count < s₂.count
    · obtain ⟨b, hb, hover, -, -⟩ := hBsrc (hfull₂ hlt).1
      have hk : 0 < s.blocks.countP (overlaps ptr) := List.countP_pos_iff.mpr ⟨b, hb, hover⟩
      omega
    · omega
  · obtain ⟨b, hb, hbt, hblo, hbhi⟩ := hcov
    by_cases hover : overlaps ptr b = true
    · -- the range lies on one side of `ptr`, in the remainder of `b` there
      have hov := overlaps_iff.mp hover
      have hlo := hqp q.addr
      have hhi := hqp ptr.addr
      simp only [OwnedPtr.holds_iff, RAMBlock.fin, OwnedPtr.fin] at hov hlo hhi hbhi
      rcases Nat.lt_or_ge q.addr ptr.addr with hleft | hright
      · obtain ⟨hBaddr, hBtag⟩ := hBall b hb hover (by omega)
        simp only [RAMBlock.fin] at hBfin
        obtain ⟨c, hc, hct, hclo, hchi⟩ := hins₂.covers_new (by omega)
        simp only [RAMBlock.intoOwnedPtr, RAMBlock.fin, OwnedPtr.fin] at hclo hchi
        refine Or.inl ⟨c, hc, hct.trans (hBtag.symm.trans hbt), by omega, ?_⟩
        simp only [RAMBlock.fin, OwnedPtr.fin]
        omega
      · obtain ⟨hAfin, hAtag⟩ := hAall b hb hover (by simp only [RAMBlock.fin, OwnedPtr.fin]; omega)
        simp only [RAMBlock.fin, OwnedPtr.fin] at hAfin hAaddr
        refine Or.inr ⟨hbt.symm.trans hAtag, by omega, ?_⟩
        simp only [RAMBlock.fin, OwnedPtr.fin]
        omega
    · exact Or.inl (hins₂.covers t q hq ⟨b, mem_clearRange hb hover, hbt, hblo, hbhi⟩)
  · intro hApos hge
    obtain ⟨a, ha, haover, hafin, hatag⟩ := hAsrc hApos
    have hk : 0 < s.blocks.countP (overlaps ptr) := List.countP_pos_iff.mpr ⟨a, ha, haover⟩
    have hup := hins₂.count_le
    obtain ⟨hBpos, hnobefore, hmem⟩ := hfull₂ (by omega)
    obtain ⟨b, hb, hbover, hbaddr, hbtag⟩ := hBsrc hBpos
    have hab : b = a := eq_of_countP_le_one (by omega) hb ha hbover haover
    subst hab
    simp only [RAMBlock.fin, OwnedPtr.fin] at hBfin hafin hAaddr
    refine ⟨by omega, b, hb, by omega, by simp only [RAMBlock.fin, OwnedPtr.fin]; omega, hafin.symm,
      hatag.symm, ?_, ?_⟩
    · rintro ⟨c, hc, hcsize, hctag, hcfin⟩
      refine hnobefore ⟨c, mem_clearRange hc ?_, hcsize, hctag.trans hbtag, hcfin.trans hbaddr⟩
      rw [overlaps_iff]
      omega
    · rintro ⟨c, hc, hcsize, hctag, hcfin⟩
      simp only [RAMBlock.fin] at hcfin
      refine ⟨c, hmem c (mem_clearRange hc ?_) hcsize, hcsize, hctag.trans hatag, ?_⟩
      · rw [overlaps_iff]
        simp only [RAMBlock.fin, OwnedPtr.fin]
        omega
      · simp only [RAMBlock.fin]
        omega
  · simp only [free, hBeq, hAeq, hadd₂]
    rfl

theorem Cut.den_eq_zero {s s₂ : PhysAlloc} {ptr : OwnedPtr} {A : RAMBlock} (h : Cut s s₂ ptr A)
    {x : Nat} (hx : Holds ptr x) : s₂.den x = 0 := by
  have hden := h.den_eq x
  rw [if_pos hx] at hden
  exact Multiset.le_zero.mp (hden ▸ Multiset.le_add_right (s₂.den x) (part A x))

theorem Cut.not_hasBefore {s s₂ : PhysAlloc} {ptr : OwnedPtr} {A : RAMBlock} (h : Cut s s₂ ptr A)
    (hptr : 0 < ptr.size) : ¬s₂.HasBefore A := by
  intro hbefore
  have hmem := hbefore.mem_den.2
  rw [h.addr_eq, h.den_eq_zero (OwnedPtr.holds_iff.mpr (by simp only [OwnedPtr.fin]; omega))] at hmem
  exact Multiset.notMem_zero _ hmem

/-- The range `ptr` is out of the table, and nothing else has changed. -/
structure Cleared (s s₃ : PhysAlloc) (ptr : OwnedPtr) : Prop where
  den_eq : ∀ x, s₃.den x = if Holds ptr x then 0 else s.den x
  same : SameTable s s₃
  count_le : s₃.count ≤ s.count + 1
  le_count : s.count ≤ s₃.count + s.blocks.countP (overlaps ptr)
  covers : ∀ t q, 0 < q.size → (∀ x, Holds q x → ¬Holds ptr x) → s.Covers t q → s₃.Covers t q

theorem Cut.cleared {s s₂ s₃ : PhysAlloc} {ptr : OwnedPtr} {A : RAMBlock} (h : Cut s s₂ ptr A)
    (hins : Inserted s₂ s₃ A) (hle : s₂.count ≤ s₃.count) : Cleared s s₃ ptr := by
  have hup := hins.count_le
  have hup₂ := h.count_le
  have hlow₂ := h.le_count
  refine ⟨fun x => ?_, h.same.trans hins.same, by omega, by omega, fun t q hq hqp hcov => ?_⟩
  · rw [hins.den_eq, add_comm, h.den_eq]
  · rcases h.covers t q hq hqp hcov with hcov₂ | ⟨rfl, hlo, hhi⟩
    · exact hins.covers t q hq hcov₂
    · simp only [RAMBlock.fin, OwnedPtr.fin] at hhi
      obtain ⟨c, hc, hct, hclo, hchi⟩ := hins.covers_new (by omega)
      exact ⟨c, hc, hct, le_trans hclo hlo, le_trans hhi hchi⟩

/-- With a vacant slot, `free` reaches its last insertion without growing or shrinking the table. -/
theorem free_eq_add {s : PhysAlloc} {ptr : OwnedPtr} (hptr : 0 < ptr.size) (hfirst : s.Sole ptr.addr)
    (hlast : s.Sole (ptr.fin - 1)) (hroom : s.count < s.max) :
    ∃ s₃, Cleared s s₃ ptr ∧ ∀ o, free o s ptr = add o s₃ ⟨ptr.addr, ptr.size, .conv, false⟩ := by
  obtain ⟨s₂, A, hcut, hfree⟩ := free_eq hptr hfirst hlast
  have hmax := hcut.same.max_eq
  have hle := hcut.count_le
  obtain ⟨s₃, hins, hcount, hadd⟩ := @add_ok s₂ A
    (fun _ h => hcut.not_hasBefore hptr h.1) (fits_of_lt (by omega))
  refine ⟨s₃, hcut.cleared hins hcount, fun o => ?_⟩
  rw [hfree o, hadd o]
  rfl

end PhysAlloc
end UnixKernel
