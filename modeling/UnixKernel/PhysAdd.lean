import UnixKernel.PhysAlloc
import UnixKernel.SegmentMap

/-! What the block table says about every address, and what `add` does to it. Whether the new block is
joined with a neighbour on either side or takes a slot of its own, the table afterwards puts the
block's tag on the block's addresses and nothing else changes (`Inserted`). The only differences are in
the number of entries, and those decide whether the table is grown or shrunk on the way. -/

namespace UnixKernel

open Slots Segments

/-- What the table records about an address: the type and the used flag. -/
abbrev Tag := RAMType × Bool

instance : Ranged RAMBlock Tag := ⟨RAMBlock.addr, RAMBlock.fin, fun b => (b.ty, b.used)⟩

instance : Ranged OwnedPtr Unit := ⟨OwnedPtr.addr, OwnedPtr.fin, fun _ => ()⟩

theorem RAMBlock.holds_iff {b : RAMBlock} {x : Nat} : Holds b x ↔ b.addr ≤ x ∧ x < b.addr + b.size :=
  Iff.rfl

theorem OwnedPtr.holds_iff {p : OwnedPtr} {x : Nat} : Holds p x ↔ p.addr ≤ x ∧ x < p.addr + p.size :=
  Iff.rfl

theorem RAMBlock.valid_iff {b : RAMBlock} : b.valid = true ↔ 0 < b.size := by
  simp [RAMBlock.valid]

theorem RAMBlock.invalid_iff {b : RAMBlock} : b.invalid = true ↔ b.size = 0 := by
  simp [RAMBlock.invalid]

theorem RAMBlock.invalid_eq_not_valid (b : RAMBlock) : b.invalid = !b.valid := by
  rw [Bool.eq_iff_iff]
  simp [RAMBlock.invalid, RAMBlock.valid]

theorem RAMBlock.part_of_size_eq_zero {b : RAMBlock} (h : b.size = 0) (x : Nat) : part b x = 0 := by
  rw [part_eq_zero_iff, RAMBlock.holds_iff, h]
  omega

@[simp]
theorem RAMBlock.part_invalidate (b : RAMBlock) (x : Nat) : part b.invalidate x = 0 :=
  RAMBlock.part_of_size_eq_zero rfl x

theorem RAMBlock.part_eq_add {b c d : RAMBlock} (haddr : d.addr = b.addr) (hmid : b.fin = c.addr)
    (hsize : d.size = b.size + c.size) (hb : (d.ty, d.used) = (b.ty, b.used))
    (hc : (d.ty, d.used) = (c.ty, c.used)) (x : Nat) : part d x = part b x + part c x := by
  refine part_join (b := b) (c := c) (d := d) haddr hmid ?_ hb hc (Nat.le_add_right b.addr b.size)
    (Nat.le_add_right c.addr c.size) x
  simp only [RAMBlock.fin] at hmid
  simp only [Ranged.hi, RAMBlock.fin]
  omega

theorem RAMBlock.exists_vacant {l : List RAMBlock} (hroom : l.countP RAMBlock.valid < l.length) :
    ∃ b ∈ l, b.invalid = true := by
  by_contra hnone
  have hall : ∀ b ∈ l, b.valid = true := by
    intro b hb
    by_contra hinv
    exact hnone ⟨b, hb, by rw [RAMBlock.invalid_eq_not_valid]; simpa using hinv⟩
  exact absurd (List.countP_eq_length.mpr hall) (Nat.ne_of_lt hroom)

theorem RAMBlock.den_filter_valid (l : List RAMBlock) (x : Nat) :
    Segments.den (l.filter RAMBlock.valid : Multiset RAMBlock) x = Segments.den (l : Multiset RAMBlock) x := by
  induction l with
  | nil => rfl
  | cons b l ih =>
      by_cases hb : b.valid = true
      · rw [List.filter_cons_of_pos hb, ← Multiset.cons_coe, ← Multiset.cons_coe, den_cons, den_cons, ih]
      · have hsize : b.size = 0 := by
          rw [RAMBlock.valid_iff] at hb
          omega
        rw [List.filter_cons_of_neg hb, ih, ← Multiset.cons_coe, den_cons, RAMBlock.part_of_size_eq_zero hsize,
          zero_add]

namespace PhysAlloc

/-- The tags the table puts on an address. -/
def den (s : PhysAlloc) (x : Nat) : Multiset Tag := Segments.den (s.blocks : Multiset RAMBlock) x

/-- The valid blocks, without their slots. -/
def valids (s : PhysAlloc) : Multiset RAMBlock := (s.blocks.filter RAMBlock.valid : List RAMBlock)

theorem mem_valids {s : PhysAlloc} {b : RAMBlock} : b ∈ s.valids ↔ b ∈ s.blocks ∧ 0 < b.size := by
  rw [valids, Multiset.mem_coe, List.mem_filter, RAMBlock.valid_iff]

theorem card_valids (s : PhysAlloc) : s.valids.card = s.count := by
  rw [valids, Multiset.coe_card, count, List.countP_eq_length_filter]

theorem den_valids (s : PhysAlloc) (x : Nat) : Segments.den s.valids x = s.den x :=
  RAMBlock.den_filter_valid s.blocks x

theorem den_congr {s s' : PhysAlloc} (h : s'.valids = s.valids) (x : Nat) : s'.den x = s.den x := by
  rw [← den_valids, h, den_valids]

theorem count_congr {s s' : PhysAlloc} (h : s'.valids = s.valids) : s'.count = s.count := by
  rw [← card_valids, h, card_valids]

/-- A block with the tag of `nb` ends where `nb` starts. -/
def HasBefore (s : PhysAlloc) (nb : RAMBlock) : Prop :=
  ∃ b ∈ s.blocks, 0 < b.size ∧ (b.ty, b.used) = (nb.ty, nb.used) ∧ b.fin = nb.addr

/-- A block with the tag of `nb` starts where `nb` ends. -/
def HasAfter (s : PhysAlloc) (nb : RAMBlock) : Prop :=
  ∃ b ∈ s.blocks, 0 < b.size ∧ (b.ty, b.used) = (nb.ty, nb.used) ∧ nb.fin = b.addr

/-- One block of the table, with the tag `t`, holds the whole range `q`. -/
def Covers (s : PhysAlloc) (t : Tag) (q : OwnedPtr) : Prop :=
  ∃ b ∈ s.blocks, (b.ty, b.used) = t ∧ b.addr ≤ q.addr ∧ q.fin ≤ b.fin

/-- The table `s'` is `s` with the block `nb` put in, joined with its neighbours or not. -/
structure Inserted (s s' : PhysAlloc) (nb : RAMBlock) : Prop where
  den_eq : ∀ x, s'.den x = part nb x + s.den x
  ptr_eq : s'.ptr = s.ptr
  max_eq : s'.max = s.max
  isInit_eq : s'.isInit = s.isInit
  count_le : s'.count ≤ s.count + 1
  le_count : s.count ≤ s'.count + 1
  covers : ∀ t q, 0 < q.size → s.Covers t q → s'.Covers t q
  covers_new : 0 < nb.size → s'.Covers (nb.ty, nb.used) nb.intoOwnedPtr

/-- Only a valid block with the same tag can be joined with `nb`, and the ends decide the side. -/
theorem isMergable_eq {nb : RAMBlock} (hnb : 0 < nb.size) (b : RAMBlock) :
    nb.isMergable b = if 0 < b.size ∧ (b.ty, b.used) = (nb.ty, nb.used) then
      (if nb.fin = b.addr then -1 else if b.fin = nb.addr then 1 else 0) else 0 := by
  have hinv : (nb.invalid || b.invalid) = true ↔ ¬0 < b.size := by
    rw [Bool.or_eq_true, RAMBlock.invalid_iff, RAMBlock.invalid_iff]
    omega
  have htag : ({ nb with addr := 0, size := 0 } : RAMBlock) ≠ { b with addr := 0, size := 0 } ↔
      ¬(b.ty, b.used) = (nb.ty, nb.used) := by
    simp only [ne_eq, RAMBlock.mk.injEq, Prod.mk.injEq, true_and, eq_comm]
  simp only [RAMBlock.isMergable, hinv, htag]
  by_cases hb : 0 < b.size <;> by_cases ht : (b.ty, b.used) = (nb.ty, nb.used) <;> simp [hb, ht]

theorem isMergable_eq_one_iff {nb b : RAMBlock} (hnb : 0 < nb.size) :
    nb.isMergable b = 1 ↔ 0 < b.size ∧ (b.ty, b.used) = (nb.ty, nb.used) ∧ b.fin = nb.addr := by
  rw [isMergable_eq hnb, ← and_assoc]
  split_ifs with hb hend hend'
  · have : b.fin ≠ nb.addr := by simp only [RAMBlock.fin] at hend ⊢; omega
    simp [this]
  · simp [hb, hend']
  · simp [hend']
  · exact iff_of_false (by decide) fun h => hb h.1

theorem isMergable_eq_neg_one_iff {nb b : RAMBlock} (hnb : 0 < nb.size) :
    nb.isMergable b = -1 ↔ 0 < b.size ∧ (b.ty, b.used) = (nb.ty, nb.used) ∧ nb.fin = b.addr := by
  rw [isMergable_eq hnb, ← and_assoc]
  split_ifs with hb hend hend'
  · simp [hb, hend]
  · simp [hend]
  · simp [hend]
  · exact iff_of_false (by decide) fun h => hb h.1

@[simp]
theorem setSlot_ptr (s : PhysAlloc) (i : Nat) (b : RAMBlock) : (s.setSlot i b).ptr = s.ptr := rfl

@[simp]
theorem setSlot_isInit (s : PhysAlloc) (i : Nat) (b : RAMBlock) :
    (s.setSlot i b).isInit = s.isInit := rfl

@[simp]
theorem setSlot_max (s : PhysAlloc) (i : Nat) (b : RAMBlock) : (s.setSlot i b).max = s.max :=
  List.length_set

theorem setSlot_den {s : PhysAlloc} {i : Nat} {b : RAMBlock} (h : s.blocks[i]? = some b)
    (b' : RAMBlock) (x : Nat) : (s.setSlot i b').den x + part b x = s.den x + part b' x :=
  den_swap (swap_set _ h) x

theorem setSlot_count {s : PhysAlloc} {i : Nat} {b : RAMBlock} (h : s.blocks[i]? = some b)
    (b' : RAMBlock) : (s.setSlot i b').count + (if b.valid then 1 else 0) =
      s.count + (if b'.valid then 1 else 0) :=
  (swap_set _ h).countP_add RAMBlock.valid

theorem inserted_of_size_eq_zero (s : PhysAlloc) {nb : RAMBlock} (hnb : nb.size = 0) : Inserted s s nb :=
  ⟨fun x => by rw [RAMBlock.part_of_size_eq_zero hnb, zero_add], rfl, rfl, rfl, by omega, by omega,
    fun _ _ _ h => h, fun h => absurd h (by omega)⟩

theorem Covers.of_swap {s s' : PhysAlloc} {b b' : RAMBlock} (hswap : Swap b b' s.blocks s'.blocks)
    (hkeep : 0 < b.size → s'.Covers (b.ty, b.used) b.intoOwnedPtr) {t : Tag} {q : OwnedPtr}
    (hq : 0 < q.size) (h : s.Covers t q) : s'.Covers t q := by
  obtain ⟨c, hc, hct, hlo, hhi⟩ := h
  by_cases hcb : c = b
  · subst hcb
    simp only [RAMBlock.fin, OwnedPtr.fin] at hhi
    obtain ⟨d, hd, hdt, hdlo, hdhi⟩ := hkeep (by omega)
    exact ⟨d, hd, hdt.trans hct, le_trans hdlo hlo, le_trans hhi hdhi⟩
  · exact ⟨c, hswap.mem_of_ne hc hcb, hct, hlo, hhi⟩

theorem inserted_joined {s : PhysAlloc} {nb b c : RAMBlock} {i : Nat} (hi : s.blocks[i]? = some b) (hb : 0 < b.size)
    (hc : 0 < c.size) (hold : (c.ty, c.used) = (b.ty, b.used)) (htag : (c.ty, c.used) = (nb.ty, nb.used))
    (hlo : c.addr ≤ b.addr ∧ c.addr ≤ nb.addr) (hhi : b.fin ≤ c.fin ∧ nb.fin ≤ c.fin)
    (hjoin : ∀ x, part c x = part nb x + part b x) :
    Inserted s (s.setSlot i c) nb ∧ (s.setSlot i c).count = s.count := by
  have hcount := setSlot_count hi c
  rw [if_pos (RAMBlock.valid_iff.mpr hb), if_pos (RAMBlock.valid_iff.mpr hc)] at hcount
  have hswap := swap_set c hi
  have hkeep : (s.setSlot i c).Covers (b.ty, b.used) b.intoOwnedPtr := ⟨c, hswap.mem_new, hold, hlo.1, hhi.1⟩
  refine ⟨⟨fun x => ?_, rfl, setSlot_max _ _ _, rfl, by omega, by omega,
    fun t q hq h => h.of_swap hswap (fun _ => hkeep) hq, fun _ => ⟨c, hswap.mem_new, htag, hlo.2, hhi.2⟩⟩, by omega⟩
  have hden := setSlot_den hi c x
  rw [hjoin, ← add_assoc] at hden
  rw [add_right_cancel hden, add_comm]

theorem inserted_before {s : PhysAlloc} {nb before : RAMBlock} {i : Nat} (hnb : 0 < nb.size)
    (hi : s.blocks[i]? = some before) (hsize : 0 < before.size)
    (htag : (before.ty, before.used) = (nb.ty, nb.used)) (hfin : before.fin = nb.addr) :
    Inserted s (s.setSlot i { before with size := before.size + nb.size }) nb ∧
      (s.setSlot i { before with size := before.size + nb.size }).count = s.count := by
  simp only [RAMBlock.fin] at hfin
  apply inserted_joined hi hsize
  · exact Nat.add_pos_left hsize _
  · rfl
  · exact htag
  · exact ⟨le_refl _, by dsimp only; omega⟩
  · simp only [RAMBlock.fin]
    omega
  · intro x
    rw [add_comm (part nb x)]
    apply RAMBlock.part_eq_add
    exacts [rfl, hfin, rfl, rfl, htag]

theorem inserted_after {s : PhysAlloc} {nb after : RAMBlock} {j : Nat} (hnb : 0 < nb.size)
    (hj : s.blocks[j]? = some after) (hsize : 0 < after.size)
    (htag : (after.ty, after.used) = (nb.ty, nb.used)) (hfin : nb.fin = after.addr) :
    Inserted s (s.setSlot j { after with addr := nb.addr, size := after.size + nb.size }) nb ∧
      (s.setSlot j { after with addr := nb.addr, size := after.size + nb.size }).count = s.count := by
  simp only [RAMBlock.fin] at hfin
  apply inserted_joined hj hsize
  · exact Nat.add_pos_left hsize _
  · rfl
  · exact htag
  · exact ⟨by dsimp only; omega, le_refl _⟩
  · simp only [RAMBlock.fin]
    omega
  · intro x
    apply RAMBlock.part_eq_add
    exacts [rfl, hfin, Nat.add_comm _ _, htag, rfl]

theorem inserted_both {s : PhysAlloc} {nb before after : RAMBlock} {i j : Nat} (hnb : 0 < nb.size)
    (hi : s.blocks[i]? = some before) (hbsize : 0 < before.size)
    (hbtag : (before.ty, before.used) = (nb.ty, nb.used)) (hbfin : before.fin = nb.addr)
    (hj : s.blocks[j]? = some after) (hasize : 0 < after.size)
    (hatag : (after.ty, after.used) = (nb.ty, nb.used)) (hafin : nb.fin = after.addr) :
    Inserted s ((s.setSlot i { before with size := before.size + nb.size + after.size }).setSlot j
        after.invalidate) nb ∧
      ((s.setSlot i { before with size := before.size + nb.size + after.size }).setSlot j
        after.invalidate).count + 1 = s.count := by
  have hij : i ≠ j := by
    rintro rfl
    rw [hi] at hj
    cases hj
    simp only [RAMBlock.fin] at hbfin hafin
    omega
  have hj' : (s.setSlot i { before with size := before.size + nb.size + after.size }).blocks[j]? =
      some after := by
    rw [setSlot, List.getElem?_set_ne hij, hj]
  have hcount₁ := setSlot_count hi { before with size := before.size + nb.size + after.size }
  have hcount₂ := setSlot_count hj' after.invalidate
  rw [if_pos (RAMBlock.valid_iff.mpr hbsize), if_pos (RAMBlock.valid_iff.mpr (by simp; omega))] at hcount₁
  rw [if_pos (RAMBlock.valid_iff.mpr hasize),
    if_neg (by rw [RAMBlock.valid_iff]; exact lt_irrefl 0)] at hcount₂
  have hswap₁ := swap_set { before with size := before.size + nb.size + after.size } hi
  have hswap₂ := swap_set after.invalidate hj'
  have hnew := hswap₂.mem_of_ne hswap₁.mem_new (by
    intro heq
    have haddr := congrArg RAMBlock.addr heq
    simp only [RAMBlock.fin] at haddr hbfin hafin
    omega)
  simp only [RAMBlock.fin] at hbfin hafin
  refine ⟨⟨fun x => ?_, rfl, by simp, rfl, by omega, by omega, fun t q hq h => ?_,
    fun _ => ⟨_, hnew, hbtag, ?_, ?_⟩⟩, by omega⟩
  rotate_left
  · have hkeep₁ : (s.setSlot i { before with size := before.size + nb.size + after.size }).Covers
        (before.ty, before.used) before.intoOwnedPtr := by
      refine ⟨_, hswap₁.mem_new, rfl, le_refl _, ?_⟩
      simp only [RAMBlock.intoOwnedPtr, RAMBlock.fin, OwnedPtr.fin]
      omega
    have hkeep₂ : ((s.setSlot i { before with size := before.size + nb.size + after.size }).setSlot j
        after.invalidate).Covers (after.ty, after.used) after.intoOwnedPtr := by
      refine ⟨_, hnew, hbtag.trans hatag.symm, ?_, ?_⟩
      · simp only [RAMBlock.intoOwnedPtr]
        omega
      · simp only [RAMBlock.intoOwnedPtr, RAMBlock.fin, OwnedPtr.fin]
        omega
    exact Covers.of_swap hswap₂ (fun _ => hkeep₂) hq (h.of_swap hswap₁ (fun _ => hkeep₁) hq)
  · simp only [RAMBlock.intoOwnedPtr]
    omega
  · simp only [RAMBlock.intoOwnedPtr, RAMBlock.fin, OwnedPtr.fin]
    omega
  have hjoin₁ : part ({ before with size := before.size + nb.size } : RAMBlock) x =
      part before x + part nb x := by
    apply RAMBlock.part_eq_add
    exacts [rfl, hbfin, rfl, rfl, hbtag]
  have hjoin₂ : part ({ before with size := before.size + nb.size + after.size } : RAMBlock) x =
      part ({ before with size := before.size + nb.size } : RAMBlock) x + part after x := by
    have hmid : before.addr + (before.size + nb.size) = after.addr := by omega
    apply RAMBlock.part_eq_add
    exacts [rfl, hmid, rfl, rfl, hbtag.trans hatag.symm]
  have hden₁ := setSlot_den hi { before with size := before.size + nb.size + after.size } x
  have hden₂ := setSlot_den hj' after.invalidate x
  rw [hjoin₂, hjoin₁] at hden₁
  rw [RAMBlock.part_invalidate, add_zero] at hden₂
  apply add_right_cancel (b := part after x + part before x)
  rw [← add_assoc, hden₂, hden₁]
  abel

theorem inserted_place {s : PhysAlloc} {nb : RAMBlock} (hnb : 0 < nb.size) (hroom : s.count < s.max) :
    Inserted s { s with blocks := fill RAMBlock.invalid nb s.blocks } nb ∧
      ({ s with blocks := fill RAMBlock.invalid nb s.blocks } : PhysAlloc).count = s.count + 1 ∧
      ∀ b ∈ s.blocks, 0 < b.size → b ∈ fill RAMBlock.invalid nb s.blocks := by
  obtain ⟨b, hb, hswap⟩ := swap_fill (b := nb) (RAMBlock.exists_vacant hroom)
  have hcount := hswap.countP_add RAMBlock.valid
  rw [RAMBlock.invalid_iff] at hb
  rw [if_neg (by rw [RAMBlock.valid_iff]; omega), if_pos (RAMBlock.valid_iff.mpr hnb)] at hcount
  have hcount' : ({ s with blocks := fill RAMBlock.invalid nb s.blocks } : PhysAlloc).count =
      s.count + 1 := hcount
  refine ⟨⟨fun x => ?_, rfl, hswap.length_eq, rfl, by omega, by omega,
    fun t q hq h => h.of_swap hswap (fun hpos => absurd hpos (by omega)) hq,
    fun _ => ⟨nb, hswap.mem_new, rfl, le_refl _, le_refl _⟩⟩, hcount', ?_⟩
  · have hden := den_swap hswap x
    rw [RAMBlock.part_of_size_eq_zero hb, add_zero, add_comm] at hden
    exact hden
  · intro c hc hsize
    refine hswap.mem_of_ne hc ?_
    rintro rfl
    omega

/-! ### The two scans of `add` -/

theorem scan_before {s : PhysAlloc} {nb : RAMBlock} (hnb : 0 < nb.size) :
    (∃ i b, last? (fun b => b.valid && nb.isMergable b = 1) s.blocks = some (i, b) ∧
      s.blocks[i]? = some b ∧ 0 < b.size ∧ (b.ty, b.used) = (nb.ty, nb.used) ∧ b.fin = nb.addr) ∨
    (last? (fun b => b.valid && nb.isMergable b = 1) s.blocks = none ∧ ¬s.HasBefore nb) := by
  apply last?_cases
  intro b
  rw [Bool.and_eq_true, decide_eq_true_eq, isMergable_eq_one_iff hnb, RAMBlock.valid_iff]
  exact and_iff_right_of_imp And.left

theorem scan_after {s : PhysAlloc} {nb : RAMBlock} (hnb : 0 < nb.size) :
    (∃ i b, last? (fun b => b.valid && nb.isMergable b = -1) s.blocks = some (i, b) ∧
      s.blocks[i]? = some b ∧ 0 < b.size ∧ (b.ty, b.used) = (nb.ty, nb.used) ∧ nb.fin = b.addr) ∨
    (last? (fun b => b.valid && nb.isMergable b = -1) s.blocks = none ∧ ¬s.HasAfter nb) := by
  apply last?_cases
  intro b
  rw [Bool.and_eq_true, decide_eq_true_eq, isMergable_eq_neg_one_iff hnb, RAMBlock.valid_iff]
  exact and_iff_right_of_imp And.left

theorem add_of_size_eq_zero (o : TableOps) {s : PhysAlloc} {nb : RAMBlock} (hnb : nb.size = 0) :
    add o s nb = .ok s := by
  rw [add, if_pos (RAMBlock.invalid_iff.mpr hnb)]
  rfl

/-- Neighbours on both sides: one entry less, and a table that has become sparse is shrunk. -/
theorem add_of_both {s : PhysAlloc} {nb : RAMBlock} (hnb : 0 < nb.size) (hbefore : s.HasBefore nb)
    (hafter : s.HasAfter nb) :
    ∃ s', Inserted s s' nb ∧ s'.count + 1 = s.count ∧ ∀ o,
      add o s nb = if s'.count ≤ s'.max >>> 2 then o.shrink s' (Nat.max (s'.max >>> 1) baseRbSize)
        else .ok s' := by
  rcases scan_before (s := s) hnb with ⟨i, b, hlast, hi, hbsize, hbtag, hbfin⟩ | ⟨-, hno⟩
  swap
  · exact absurd hbefore hno
  rcases scan_after (s := s) hnb with ⟨j, a, hlast', hj, hasize, hatag, hafin⟩ | ⟨-, hno⟩
  swap
  · exact absurd hafter hno
  obtain ⟨hins, hcount⟩ := inserted_both hnb hi hbsize hbtag hbfin hj hasize hatag hafin
  refine ⟨_, hins, hcount, fun o => ?_⟩
  rw [add, if_neg (by rw [RAMBlock.invalid_iff]; omega), hlast, hlast']
  rfl

/-- A neighbour on exactly one side: the entry grows in place. -/
theorem add_of_one {s : PhysAlloc} {nb : RAMBlock} (hnb : 0 < nb.size)
    (hnot : ¬(s.HasBefore nb ∧ s.HasAfter nb)) (hor : s.HasBefore nb ∨ s.HasAfter nb) :
    ∃ s', Inserted s s' nb ∧ s'.count = s.count ∧ ∀ o, add o s nb = .ok s' := by
  rcases scan_before (s := s) hnb with ⟨i, b, hlast, hi, hbsize, hbtag, hbfin⟩ | ⟨hlast, hno⟩
  · rcases scan_after (s := s) hnb with ⟨j, a, -, hj, hasize, hatag, hafin⟩ | ⟨hlast', -⟩
    · exact absurd ⟨⟨b, List.mem_of_getElem? hi, hbsize, hbtag, hbfin⟩,
        ⟨a, List.mem_of_getElem? hj, hasize, hatag, hafin⟩⟩ hnot
    obtain ⟨hins, hcount⟩ := inserted_before hnb hi hbsize hbtag hbfin
    refine ⟨_, hins, hcount, fun o => ?_⟩
    rw [add, if_neg (by rw [RAMBlock.invalid_iff]; omega), hlast, hlast']
    rfl
  · rcases scan_after (s := s) hnb with ⟨j, a, hlast', hj, hasize, hatag, hafin⟩ | ⟨-, hno'⟩
    · obtain ⟨hins, hcount⟩ := inserted_after hnb hj hasize hatag hafin
      refine ⟨_, hins, hcount, fun o => ?_⟩
      rw [add, if_neg (by rw [RAMBlock.invalid_iff]; omega), hlast, hlast']
      rfl
    · exact absurd hor (not_or.mpr ⟨hno, hno'⟩)

theorem add_of_none_room {s : PhysAlloc} {nb : RAMBlock} (hnb : 0 < nb.size)
    (hbefore : ¬s.HasBefore nb) (hafter : ¬s.HasAfter nb) (hroom : s.count < s.max) :
    ∃ s', Inserted s s' nb ∧ s'.count = s.count + 1 ∧ (∀ b ∈ s.blocks, 0 < b.size → b ∈ s'.blocks) ∧
      ∀ o, add o s nb = .ok s' := by
  rcases scan_before (s := s) hnb with ⟨i, b, -, hi, hbsize, hbtag, hbfin⟩ | ⟨hlast, -⟩
  · exact absurd ⟨b, List.mem_of_getElem? hi, hbsize, hbtag, hbfin⟩ hbefore
  rcases scan_after (s := s) hnb with ⟨j, a, -, hj, hasize, hatag, hafin⟩ | ⟨hlast', -⟩
  · exact absurd ⟨a, List.mem_of_getElem? hj, hasize, hatag, hafin⟩ hafter
  obtain ⟨hins, hcount, hmem⟩ := inserted_place hnb hroom
  refine ⟨_, hins, hcount, hmem, fun o => ?_⟩
  rw [add, if_neg (by rw [RAMBlock.invalid_iff]; omega), hlast, hlast']
  simp only [ge_iff_le, Nat.not_le.mpr hroom, if_false]
  rfl

/-- No neighbour and no vacant slot: the table is grown first, or the kernel panics. -/
theorem add_of_none_full (o : TableOps) {s : PhysAlloc} {nb : RAMBlock} (hnb : 0 < nb.size)
    (hbefore : ¬s.HasBefore nb) (hafter : ¬s.HasAfter nb) (hfull : s.max ≤ s.count) :
    add o s nb = (do
      let (r, s') ← o.expand s s.grownMax nb.intoOwnedPtr
      match r with
      | some () => .ok { s' with blocks := fill RAMBlock.invalid nb s'.blocks }
      | none => .error .panic) := by
  rcases scan_before (s := s) hnb with ⟨i, b, -, hi, hbsize, hbtag, hbfin⟩ | ⟨hlast, -⟩
  · exact absurd ⟨b, List.mem_of_getElem? hi, hbsize, hbtag, hbfin⟩ hbefore
  rcases scan_after (s := s) hnb with ⟨j, a, -, hj, hasize, hatag, hafin⟩ | ⟨hlast', -⟩
  · exact absurd ⟨a, List.mem_of_getElem? hj, hasize, hatag, hafin⟩ hafter
  rw [add, if_neg (by rw [RAMBlock.invalid_iff]; omega), hlast, hlast']
  simp only [ge_iff_le, hfull, if_true]
  cases o.expand s s.grownMax nb.intoOwnedPtr with
  | error e => rfl
  | ok r =>
      obtain ⟨r, s'⟩ := r
      cases r <;> rfl

/-- The table has a vacant slot for `nb`, or `nb` needs none. -/
def Fits (s : PhysAlloc) (nb : RAMBlock) : Prop :=
  0 < nb.size → ¬s.HasBefore nb → ¬s.HasAfter nb → s.count < s.max

theorem fits_of_lt {s : PhysAlloc} {nb : RAMBlock} (h : s.count < s.max) : s.Fits nb := fun _ _ _ => h

theorem not_fits {s : PhysAlloc} {nb : RAMBlock} (h : ¬s.Fits nb) :
    0 < nb.size ∧ ¬s.HasBefore nb ∧ ¬s.HasAfter nb ∧ s.max ≤ s.count := by
  unfold Fits at h
  push Not at h
  exact h

/-- Where it fits and with at most one neighbour, `add` inserts the block and calls nothing. -/
theorem add_ok {s : PhysAlloc} {nb : RAMBlock} (hnot : 0 < nb.size → ¬(s.HasBefore nb ∧ s.HasAfter nb))
    (hfits : s.Fits nb) :
    ∃ s', Inserted s s' nb ∧ s.count ≤ s'.count ∧ ∀ o, add o s nb = .ok s' := by
  rcases Nat.eq_zero_or_pos nb.size with hzero | hnb
  · exact ⟨s, inserted_of_size_eq_zero s hzero, le_refl _, fun o => add_of_size_eq_zero o hzero⟩
  by_cases hor : s.HasBefore nb ∨ s.HasAfter nb
  · obtain ⟨s', hins, hcount, hadd⟩ := add_of_one hnb (hnot hnb) hor
    exact ⟨s', hins, hcount.ge, hadd⟩
  · rw [not_or] at hor
    obtain ⟨s', hins, hcount, -, hadd⟩ := add_of_none_room hnb hor.1 hor.2 (hfits hnb hor.1 hor.2)
    exact ⟨s', hins, by omega, hadd⟩

/-! ### Neighbours, read off the table's map -/

theorem HasBefore.mem_den {s : PhysAlloc} {nb : RAMBlock} (h : s.HasBefore nb) :
    0 < nb.addr ∧ (nb.ty, nb.used) ∈ s.den (nb.addr - 1) := by
  obtain ⟨b, hb, hsize, htag, hfin⟩ := h
  simp only [RAMBlock.fin] at hfin
  refine ⟨by omega, ?_⟩
  rw [← htag]
  exact tag_mem_den (b := b) (Multiset.mem_coe.mpr hb) (RAMBlock.holds_iff.mpr (by omega))

theorem HasAfter.mem_den {s : PhysAlloc} {nb : RAMBlock} (h : s.HasAfter nb) :
    (nb.ty, nb.used) ∈ s.den nb.fin := by
  obtain ⟨b, hb, hsize, htag, hfin⟩ := h
  rw [← htag]
  exact tag_mem_den (b := b) (Multiset.mem_coe.mpr hb) (RAMBlock.holds_iff.mpr (by omega))

end PhysAlloc
end UnixKernel
