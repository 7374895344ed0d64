import UnixKernel.Overflow
import UnixKernel.PhysExpand

/-! What one call of `alloc` or `free` does to a well-formed allocator with 4 KiB pages. The address map
`alpha` gives the type and the used flag of the block that holds an address. Both calls are exact: they
set the range they are about and leave the map alone elsewhere, up to the storage of the table, which a
call may move (`alloc`) or cut short (both). -/

namespace UnixKernel

open Slots Segments

namespace PhysAlloc

/-- The address map of the table: the tag of the valid block that holds an address. -/
def alpha (s : PhysAlloc) (x : Nat) : Option Tag := lookup s.blocks x

/-- A well-formed initialised allocator. -/
structure WellFormed (pg : BPage) (s : PhysAlloc) : Prop extends Storage pg s where
  disjoint : s.blocks.Pairwise fun b c => b.valid → c.valid → b.fin ≤ c.addr ∨ c.fin ≤ b.addr
  storage_used : ∀ x, Holds s.ptr x → s.alpha x = some (.conv, true)
  initialised : s.isInit = true

theorem disjoint_iff {s : PhysAlloc} :
    (s.blocks.Pairwise fun b c => b.valid → c.valid → b.fin ≤ c.addr ∨ c.fin ≤ b.addr) ↔
      ∀ x, s.Sole x := by
  refine Iff.trans ?_ (pairwise_apart_iff (l := s.blocks))
  have hvalid : ∀ b : RAMBlock, b.valid = true ↔ Ranged.lo b < Ranged.hi b := by
    intro b
    rw [RAMBlock.valid_iff]
    simp only [Ranged.lo, Ranged.hi, RAMBlock.fin]
    omega
  simp only [hvalid]
  exact Iff.rfl

theorem alpha_eq_none_iff {s : PhysAlloc} {x : Nat} : s.alpha x = none ↔ s.den x = 0 :=
  lookup_eq_none_iff

theorem alpha_eq_some_iff {s : PhysAlloc} {x : Nat} {t : Tag} (h : s.Sole x) :
    s.alpha x = some t ↔ s.den x = {t} :=
  lookup_eq_some_iff h

theorem alpha_congr {s s' : PhysAlloc} {x : Nat} (h : s.Sole x) (hden : s'.den x = s.den x) :
    s'.alpha x = s.alpha x := by
  have h' : s'.Sole x := by rw [Sole, hden]; exact h
  cases halpha : s.alpha x with
  | none => rw [alpha_eq_none_iff, hden, ← alpha_eq_none_iff, halpha]
  | some t => rw [alpha_eq_some_iff h', hden, ← alpha_eq_some_iff h, halpha]

theorem alpha_congr_of_view {s s' : PhysAlloc} {x : Nat} (h : s.Sole x) (hview : s'.view x = s.view x)
    (hx : ¬Holds s.ptr x) (hx' : ¬Holds s'.ptr x) : s'.alpha x = s.alpha x := by
  rw [view_of_not_holds hx, view_of_not_holds hx'] at hview
  exact alpha_congr h hview

theorem TableOk.sole_iff {pg : BPage} {s : PhysAlloc} (h : TableOk pg s) {x : Nat} :
    s.Sole x ↔ (s.view x).card ≤ 1 := by
  by_cases hx : Holds s.ptr x
  · rw [view_of_holds hx, Sole, h.used x hx]
    exact Iff.rfl
  · rw [view_of_not_holds hx]
    exact Iff.rfl

theorem WellFormed.sole {pg : BPage} {s : PhysAlloc} (h : WellFormed pg s) (x : Nat) : s.Sole x :=
  disjoint_iff.mp h.disjoint x

theorem WellFormed.tableOk {pg : BPage} {s : PhysAlloc} (h : WellFormed pg s) : TableOk pg s :=
  ⟨h.toStorage, fun x hx => (alpha_eq_some_iff (h.sole x)).mp (h.storage_used x hx)⟩

theorem TableOk.wellFormed {pg : BPage} {s : PhysAlloc} (h : TableOk pg s)
    (hview : ∀ x, (s.view x).card ≤ 1) (hinit : s.isInit = true) : WellFormed pg s := by
  have hsole : ∀ x, s.Sole x := fun x => h.sole_iff.mpr (hview x)
  exact ⟨h.toStorage, disjoint_iff.mpr hsole,
    fun x hx => (alpha_eq_some_iff (hsole x)).mpr (h.used x hx), hinit⟩

theorem wellFormed_of_mem {pg : BPage} {s : PhysAlloc} {b : RAMBlock} (hstorage : Storage pg s)
    (hdisjoint : s.blocks.Pairwise fun b c => b.valid → c.valid → b.fin ≤ c.addr ∨ c.fin ≤ b.addr)
    (hb : b ∈ s.blocks) (htag : (b.ty, b.used) = (.conv, true)) (hlo : b.addr ≤ s.ptr.addr)
    (hhi : s.ptr.fin ≤ b.fin) (hinit : s.isInit = true) : WellFormed pg s := by
  have hsole := disjoint_iff.mp hdisjoint
  refine ⟨hstorage, hdisjoint, fun x hx => ?_, hinit⟩
  rw [alpha_eq_some_iff (hsole x), ← htag]
  exact (hsole x).den_eq (tag_mem_den (Multiset.mem_coe.mpr hb)
    ⟨le_trans hlo hx.1, lt_of_lt_of_le hx.2 hhi⟩)

theorem WellFormed.replaced {pg : BPage} {s s' : PhysAlloc} (hwf : WellFormed pg s) (hok : TableOk pg s')
    {q : OwnedPtr} {t : Tag} (hview : ∀ x, s'.view x = if Holds q x then {t} else s.view x)
    (hinit : s'.isInit = s.isInit) : WellFormed pg s' := by
  refine hok.wellFormed (fun x => ?_) (hinit.trans hwf.initialised)
  rw [hview]
  split_ifs
  · exact le_refl 1
  · exact hwf.tableOk.sole_iff.mp (hwf.sole x)

/-! ### `free` -/

/-- A small allocator: the table, three used pages of another type and 1 MiB of free memory. -/
def sample : PhysAlloc where
  ptr := ⟨0x102000, 0x1000⟩
  blocks := [⟨0x102000, 0x1000, .conv, true⟩, ⟨0x200000, 0x3000, .kernelData, true⟩,
    ⟨0x300000, 0x100000, .conv, false⟩] ++ List.replicate 125 RAMBlock.newInvalid
  isInit := true

theorem sample_wellFormed : WellFormed .size4kiB sample :=
  wellFormed_of_mem (b := ⟨0x102000, 0x1000, .conv, true⟩)
    ⟨⟨0, by decide +kernel⟩, by decide, by decide +kernel⟩ (by decide +kernel) (by decide +kernel) rfl
    (by decide) (by decide) rfl

/-- The range `p` goes from free memory of type `args.fromType` to the type and flag asked for. -/
structure Taken (pg : BPage) (s s' : PhysAlloc) (args : AllocParams) (p : OwnedPtr) : Prop where
  tableOk : TableOk pg s'
  whole : Whole pg s'
  was_free : ∀ x, Holds p x → s.den x = {(args.fromType, false)}
  view_eq : ∀ x, s'.view x = if Holds p x then {(args.asType, args.used)} else s.view x
  isInit_eq : s'.isInit = s.isInit
  addr_eq : s'.ptr.addr = s.ptr.addr
  size_le : s'.ptr.size ≤ s.ptr.size
  room : s'.count + 2 ≤ s'.max

/-- The range that is handed out will not join two blocks, or it does not matter: with 4 KiB pages the
table may be shrunk. -/
def Quiet (pg : BPage) (s : PhysAlloc) (args : AllocParams) : Prop :=
  pg = .size4kiB ∨ args.asType ≠ .conv ∧ ∀ x, (args.asType, args.used) ∉ s.view x

theorem Quiet.not_mem_den {pg : BPage} {s : PhysAlloc} {args : AllocParams} (hok : TableOk pg s)
    (h : args.asType ≠ .conv ∧ ∀ x, (args.asType, args.used) ∉ s.view x) (x : Nat) :
    (args.asType, args.used) ∉ s.den x := by
  by_cases hx : Holds s.ptr x
  · rw [hok.used x hx, Multiset.mem_singleton, Prod.mk.injEq]
    exact fun heq => h.1 heq.1
  · rw [← view_of_not_holds hx]
    exact h.2 x

theorem carve_spec {pg : BPage} {s : PhysAlloc} (args : AllocParams) {ptr : OwnedPtr}
    (hok : TableOk pg s) (hwhole : Whole pg s) (hquiet : Quiet pg s args) (hsole : ∀ x, s.Sole x)
    (hptr : 0 < ptr.size) (hroom : s.count + minReq ≤ s.max) :
    (∀ o, carve o s args ptr = .ok (none, s)) ∨
    ∃ s', Taken pg s s' args ptr ∧ ∀ o o', o.shrink = shrink pg o' →
      carve o s args ptr = .ok (some ptr, s') := by
  have hmin : minReq = 4 := rfl
  cases hfind : s.find fun block => block.notUsed && args.fromType = block.ty &&
      (block.addr ≤ ptr.addr && ptr.fin ≤ block.fin) with
  | none =>
      refine Or.inl fun o => ?_
      rw [carve, hfind]
      rfl
  | some r =>
      obtain ⟨i, block⟩ := r
      by_cases hpurpose : block.ty = args.asType ∧ args.used = false
      · refine Or.inl fun o => ?_
        rw [carve, hfind]
        simp only [hpurpose.1, hpurpose.2, decide_true, Bool.not_false, Bool.and_self, if_true]
        rfl
      obtain ⟨hget, -, hf⟩ := find_eq_some hfind
      simp only [RAMBlock.notUsed, Bool.and_eq_true, Bool.not_eq_true', decide_eq_true_eq] at hf
      obtain ⟨⟨hunused, hty⟩, hlo, hhi⟩ := hf
      have hwas : ∀ x, Holds ptr x → s.den x = {(args.fromType, false)} := by
        intro x hx
        refine (hsole x).den_eq ?_
        rw [hty, ← hunused]
        exact tag_mem_den (Multiset.mem_coe.mpr (List.mem_of_getElem? hget))
          ⟨le_trans hlo hx.1, lt_of_lt_of_le hx.2 hhi⟩
      have hapart : ∀ x, Holds ptr x → ¬Holds s.ptr x := by
        intro x hx hxt
        have hused := hok.used x hxt
        rw [hwas x hx] at hused
        simp at hused
      obtain ⟨s₃, hcarved, hcarve⟩ := carve_eq hfind hpurpose hptr (hsole _) (hsole _) (by omega)
      have hden₃ := hcarved.den_eq
      have hsame₃ := hcarved.same
      have hup₃ := hcarved.count_le
      have hcov₃ := hcarved.covers
      have hcleared : ∀ x, s₃.den x = if Holds ptr x then 0 else s.den x := by
        intro x
        have hden := hden₃ x
        by_cases hx : Holds ptr x
        · rw [if_pos hx, den_eq_zero_of_sole (hsole x) hden hx]
        · rw [if_neg hx, ← hden, part_neg (show ¬Holds (⟨ptr.addr, ptr.size, _, _⟩ : RAMBlock) x from hx),
            add_zero]
      have hok₃ : TableOk pg s₃ := hok.of_den hsame₃ fun x hx => by
        rw [hcleared, if_neg fun h => hapart x h hx]
      have hwhole₃ : Whole pg s₃ := by
        rcases hwhole with hpg | hcov
        · exact Or.inl hpg
        · refine Or.inr ?_
          rw [hsame₃.ptr_eq]
          exact hcov₃ _ _ hok.ptr_size_pos (by simp) hcov
      have hquiet₃ : pg = .size4kiB ∨ (0 < ptr.size →
          ¬(s₃.HasBefore ⟨ptr.addr, ptr.size, args.asType, args.used⟩ ∧
            s₃.HasAfter ⟨ptr.addr, ptr.size, args.asType, args.used⟩)) := by
        rcases hquiet with hpg | hno
        · exact Or.inl hpg
        · exact Or.inr fun _ h => Quiet.not_mem_den hok hno _
            (Multiset.mem_of_le (hcarved.den_le _) h.2.mem_den)
      have hmax₃ := hsame₃.max_eq
      obtain ⟨s', hok', hwhole', hview, hinit, haddr, hsize, hcount, hadd⟩ := @add_fits pg s₃
        ⟨ptr.addr, ptr.size, args.asType, args.used⟩ hok₃ hwhole₃ (fits_of_lt (by omega))
        (fun x hx => by rw [hsame₃.ptr_eq]; exact hapart x hx) hquiet₃
      refine Or.inr ⟨s', ⟨hok', hwhole', hwas,
        view_eq_of_replaced (view_eq_of_cleared hcleared hsame₃ hapart) hview,
        hinit.trans hsame₃.isInit_eq, by rw [haddr, hsame₃.ptr_eq],
        by rw [← hsame₃.ptr_eq]; exact hsize, by omega⟩, fun o o' ho => ?_⟩
      rw [hcarve o, hadd o o' ho]
      rfl

theorem Taken.not_holds {pg : BPage} {s s' : PhysAlloc} {args : AllocParams} {p : OwnedPtr}
    (h : Taken pg s s' args p) (hok : TableOk pg s) {x : Nat} (hx : Holds p x) : ¬Holds s.ptr x := by
  intro hxt
  have hused := hok.used x hxt
  rw [h.was_free x hx] at hused
  simp at hused

/-! The range that is asked for -/

section Requested

variable {pg : BPage} {s : PhysAlloc} {args : AllocParams} {p : OwnedPtr}

theorem requested_size (h : s.requested pg (args.build pg) = some p) :
    p.size = sizeAlign pg args.size := by
  rw [requested] at h
  cases haddr : args.addr with
  | some addr =>
      simp only [AllocParams.build, haddr, Option.map_some, Option.some.injEq] at h
      rw [← h]
  | none =>
      simp only [AllocParams.build, haddr, Option.map_none, findFreeRam, Option.map_eq_some_iff] at h
      obtain ⟨r, -, rfl⟩ := h
      exact sizeAlign_idem pg args.size

/-- A call of `alloc` is turned down at once, or there is a range to look at. -/
theorem alloc_cases (pg : BPage) (s : PhysAlloc) (args : AllocParams) :
    (∀ o, alloc pg o s args = .ok (none, s)) ∨
    (nonRam.contains args.fromType = false ∧ nonRam.contains args.asType = false) ∧
      ∃ ptr, s.requested pg (args.build pg) = some ptr := by
  by_cases hram : nonRam.contains args.fromType = false ∧ nonRam.contains args.asType = false
  · cases hreq : s.requested pg (args.build pg) with
    | none => exact Or.inl fun o => alloc_eq_none pg o fun _ => hreq
    | some ptr => exact Or.inr ⟨hram, ptr, rfl⟩
  · exact Or.inl fun o => alloc_eq_none pg o fun h => absurd h hram

/-- The calls of `add` that make up `carve`: a free block makes way for its remainders and the range. -/
theorem carve_eq_ok {o : TableOps} {s' : PhysAlloc} {r : Option OwnedPtr} (h : carve o s args p = .ok (r, s')) :
    r = none ∧ s' = s ∨ ∃ i block s₁ s₂, s.blocks[i]? = some block ∧ 0 < block.size ∧ block.used = false ∧
      block.ty = args.fromType ∧ block.addr ≤ p.addr ∧ p.fin ≤ block.fin ∧
      add o (s.setSlot i block.invalidate) ⟨block.addr, p.addr - block.addr, block.ty, false⟩ = .ok s₁ ∧
      add o s₁ ⟨p.fin, block.fin - p.fin, block.ty, false⟩ = .ok s₂ ∧
      add o s₂ ⟨p.addr, p.size, args.asType, args.used⟩ = .ok s' ∧ r = some p := by
  rw [carve] at h
  split at h
  · cases h
    exact Or.inl ⟨rfl, rfl⟩
  rename_i i block hfind
  obtain ⟨hget, hsize, hf⟩ := find_eq_some hfind
  simp only [RAMBlock.notUsed, Bool.and_eq_true, Bool.not_eq_true', decide_eq_true_eq] at hf
  obtain ⟨⟨hunused, hty⟩, hlo, hhi⟩ := hf
  split_ifs at h
  · cases h
    exact Or.inl ⟨rfl, rfl⟩
  obtain ⟨s₁, hbefore, h⟩ := bind_eq_ok.mp h
  obtain ⟨s₂, hafter, h⟩ := bind_eq_ok.mp h
  obtain ⟨s₃, hnew, h⟩ := bind_eq_ok.mp h
  cases h
  exact Or.inr ⟨i, block, s₁, s₂, hget, hsize, hunused, hty.symm, hlo, hhi, hbefore, hafter, hnew, rfl⟩

theorem carve_some {o : TableOps} {s' : PhysAlloc} {q : OwnedPtr} (h : carve o s args p = .ok (some q, s')) :
    q = p := by
  rcases carve_eq_ok h with ⟨hr, -⟩ | ⟨_, _, _, _, -, -, -, -, -, -, -, -, -, hr⟩
  · cases hr
  · exact Option.some.inj hr

/-- The calls that make up `alloc`: the table is grown when it has to be, and the range is taken out. -/
theorem alloc_eq_ok {o : TableOps} {s' : PhysAlloc} {r : Option OwnedPtr} (h : alloc pg o s args = .ok (r, s')) :
    r = none ∧ s' = s ∨
    (nonRam.contains args.fromType = false ∧ nonRam.contains args.asType = false) ∧
      ∃ ptr, s.requested pg (args.build pg) = some ptr ∧
        (s.count + minReq ≤ s.max ∧ carve o s (args.build pg) ptr = .ok (r, s') ∨
          s.max < s.count + minReq ∧ (r = none ∧ o.expand s s.grownMax ptr = .ok (none, s') ∨
            ∃ s₁, o.expand s s.grownMax ptr = .ok (some (), s₁) ∧ carve o s₁ (args.build pg) ptr = .ok (r, s'))) := by
  rcases alloc_cases pg s args with hnone | ⟨hram, ptr, hreq⟩
  · rw [hnone] at h
    cases h
    exact Or.inl ⟨rfl, rfl⟩
  refine Or.inr ⟨hram, ptr, hreq, ?_⟩
  rw [alloc_of_requested pg o hram hreq] at h
  split_ifs at h with hfull
  · obtain ⟨⟨r₁, s₁⟩, hexpand, h⟩ := bind_eq_ok.mp h
    cases r₁ with
    | none =>
        cases h
        exact Or.inr ⟨hfull, Or.inl ⟨rfl, hexpand⟩⟩
    | some => exact Or.inr ⟨hfull, Or.inr ⟨s₁, hexpand, h⟩⟩
  · exact Or.inl ⟨Nat.le_of_not_lt hfull, h⟩

theorem alloc_size {o : TableOps} {s' : PhysAlloc} (h : alloc pg o s args = .ok (some p, s')) :
    p.size = sizeAlign pg args.size := by
  rcases alloc_eq_ok h with ⟨hr, -⟩ | ⟨-, q, hreq, ⟨-, hcarve⟩ | ⟨-, ⟨hr, -⟩ | ⟨_, -, hcarve⟩⟩⟩
  · cases hr
  · rw [carve_some hcarve, requested_size hreq]
  · cases hr
  · rw [carve_some hcarve, requested_size hreq]

theorem requested_aligned (h : s.requested pg (args.build pg) = some p) : args.align ∣ p.addr := by
  rw [requested] at h
  cases haddr : args.addr with
  | some addr =>
      simp only [AllocParams.build, haddr, Option.map_some, Option.some.injEq] at h
      rw [← h]
      exact dvd_alignUp addr args.align_pos
  | none =>
      simp only [AllocParams.build, haddr, Option.map_none, findFreeRam, Option.map_eq_some_iff] at h
      obtain ⟨r, -, rfl⟩ := h
      exact dvd_alignUp r.2.addr args.align_pos

theorem requested_addr {addr : Nat} (haddr : args.addr = some addr)
    (h : s.requested pg (args.build pg) = some p) : p.addr = alignUp addr args.align := by
  simp only [requested, AllocParams.build, haddr, Option.map_some, Option.some.injEq] at h
  rw [← h]

/-- Without a fixed address the range is free memory of the type asked for. -/
theorem requested_free (haddr : args.addr = none) (h : s.requested pg (args.build pg) = some p) {x : Nat}
    (hx : Holds p x) : (args.fromType, false) ∈ s.den x := by
  simp only [requested, AllocParams.build, haddr, Option.map_none, findFreeRam,
    Option.map_eq_some_iff] at h
  obtain ⟨⟨i, b⟩, hfind, rfl⟩ := h
  obtain ⟨hget, -, hf⟩ := find_eq_some hfind
  simp only [RAMBlock.notUsed, Bool.and_eq_true, Bool.not_eq_true', decide_eq_true_eq] at hf
  obtain ⟨⟨hunused, hroom⟩, hty⟩ := hf
  rw [← hty, ← hunused]
  refine tag_mem_den (Multiset.mem_coe.mpr (List.mem_of_getElem? hget)) ?_
  have hle := le_alignUp b.addr args.align
  rw [OwnedPtr.holds_iff] at hx
  dsimp only at hx
  simp only [RAMBlock.fin] at hroom
  rw [RAMBlock.holds_iff]
  omega

end Requested

/-- The allocator when `alloc` looks for the block to cut: as it was, or with a grown table. -/
inductive Prepared (pg : BPage) (s : PhysAlloc) (p : OwnedPtr) : PhysAlloc → Prop where
  | same : s.count + minReq ≤ s.max → Prepared pg s p s
  | grown {s₁ : PhysAlloc} : s.max < s.count + minReq → Grown pg s s₁ p → Prepared pg s p s₁

section Prepared

variable {pg : BPage} {s s₁ : PhysAlloc} {p : OwnedPtr}

theorem Prepared.tableOk (h : Prepared pg s p s₁) (hok : TableOk pg s) : TableOk pg s₁ := by
  cases h with
  | same => exact hok
  | grown _ hgrown => exact hgrown.tableOk

theorem Prepared.whole (h : Prepared pg s p s₁) (hwhole : Whole pg s) : Whole pg s₁ := by
  cases h with
  | same => exact hwhole
  | grown _ hgrown => exact hgrown.whole

theorem Prepared.view_eq (h : Prepared pg s p s₁) (x : Nat) : s₁.view x = s.view x := by
  cases h with
  | same => rfl
  | grown _ hgrown => exact hgrown.view_eq x

theorem Prepared.isInit_eq (h : Prepared pg s p s₁) : s₁.isInit = s.isInit := by
  cases h with
  | same => rfl
  | grown _ hgrown => exact hgrown.isInit_eq

theorem Prepared.room (h : Prepared pg s p s₁) : s₁.count + minReq ≤ s₁.max := by
  cases h with
  | same hroom => exact hroom
  | grown _ hgrown => exact hgrown.room

theorem Prepared.sole (h : Prepared pg s p s₁) (hok : TableOk pg s) (hsole : ∀ x, s.Sole x) (x : Nat) :
    s₁.Sole x := by
  rw [(h.tableOk hok).sole_iff, h.view_eq, ← hok.sole_iff]
  exact hsole x

theorem Prepared.quiet (h : Prepared pg s p s₁) {args : AllocParams} (hquiet : Quiet pg s args) :
    Quiet pg s₁ args := by
  rcases hquiet with hpg | hno
  · exact Or.inl hpg
  · exact Or.inr ⟨hno.1, fun x => by rw [h.view_eq]; exact hno.2 x⟩

end Prepared

/-- What a call of `alloc` can come to: nothing is handed out, with the table grown or not, or the
requested range is taken. -/
inductive Outcome (pg : BPage) (s : PhysAlloc) (args : AllocParams) : Option OwnedPtr → PhysAlloc → Prop where
  | refused : Outcome pg s args none s
  | grown {p : OwnedPtr} {s₁ : PhysAlloc} : s.requested pg (args.build pg) = some p →
      Prepared pg s p s₁ → Outcome pg s args none s₁
  | taken {p : OwnedPtr} {s₁ s' : PhysAlloc} : s.requested pg (args.build pg) = some p →
      Prepared pg s p s₁ → Taken pg s₁ s' args p → Outcome pg s args (some p) s'

theorem carve_outcome {pg : BPage} {s s₁ : PhysAlloc} {args : AllocParams} {p : OwnedPtr}
    (hok : TableOk pg s) (hwhole : Whole pg s) (hquiet : Quiet pg s args) (hsole : ∀ x, s.Sole x)
    (hreq : s.requested pg (args.build pg) = some p) (hprep : Prepared pg s p s₁) :
    ∃ r s', Outcome pg s args r s' ∧
      ∀ n, carve (tableOps pg (n + 1)) s₁ (args.build pg) p = .ok (r, s') := by
  have hpos : 0 < p.size := by rw [requested_size hreq]; exact sizeAlign_pos _ _
  rcases carve_spec (args.build pg) (hprep.tableOk hok) (hprep.whole hwhole)
    (hprep.quiet hquiet) (hprep.sole hok hsole) hpos hprep.room with
    hnone | ⟨s', ⟨hok', hwhole', hwas, hview, hinit, haddr, hsize, hroom⟩, hcarve⟩
  · exact ⟨none, s₁, .grown hreq hprep, fun n => hnone _⟩
  · exact ⟨some p, s', .taken hreq hprep ⟨hok', hwhole', hwas, hview, hinit, haddr, hsize, hroom⟩,
      fun n => hcarve _ _ rfl⟩

/-- `alloc` always returns, with one of the outcomes. -/
theorem alloc_spec {pg : BPage} {s : PhysAlloc} (args : AllocParams) (hok : TableOk pg s)
    (hwhole : Whole pg s) (hquiet : Quiet pg s args) (hsole : ∀ x, s.Sole x) :
    ∃ r s', Outcome pg s args r s' ∧ ∀ n, alloc pg (tableOps pg (n + 2)) s args = .ok (r, s') := by
  rcases alloc_cases pg s args with hnone | ⟨hram, p, hreq⟩
  · exact ⟨none, s, .refused, fun n => hnone _⟩
  by_cases hfull : s.count + minReq > s.max
  · rcases expand_spec (p := p) hok hwhole (fun _ _ _ _ x _ => hsole x) hfull with
      hfail | ⟨s₁, hgrown, hexpand⟩
    · refine ⟨none, s, .refused, fun n => ?_⟩
      rw [alloc_of_requested _ _ hram hreq, if_pos hfull]
      change (expand pg (tableOps pg (n + 1)) s s.grownMax p >>= _) = _
      rw [hfail]
      rfl
    · obtain ⟨r, s', hout, hcarve⟩ := carve_outcome hok hwhole hquiet hsole hreq (.grown hfull hgrown)
      refine ⟨r, s', hout, fun n => ?_⟩
      rw [alloc_of_requested _ _ hram hreq, if_pos hfull]
      change (expand pg (tableOps pg (n + 1)) s s.grownMax p >>= _) = _
      rw [hexpand _ _ rfl]
      exact hcarve (n + 1)
  · obtain ⟨r, s', hout, hcarve⟩ := carve_outcome hok hwhole hquiet hsole hreq
      (.same (Nat.le_of_not_lt hfull))
    refine ⟨r, s', hout, fun n => ?_⟩
    rw [alloc_of_requested _ _ hram hreq, if_neg hfull]
    exact hcarve (n + 1)

section Outcome

variable {pg : BPage} {s s₁ s' : PhysAlloc} {args : AllocParams} {p : OwnedPtr}

theorem Prepared.wellFormed (h : Prepared pg s p s₁) (hwf : WellFormed pg s) : WellFormed pg s₁ := by
  refine (h.tableOk hwf.tableOk).wellFormed (fun x => ?_) (by rw [h.isInit_eq, hwf.initialised])
  rw [h.view_eq]
  exact hwf.tableOk.sole_iff.mp (hwf.sole x)

theorem Taken.wellFormed (h : Taken pg s₁ s' args p) (hwf : WellFormed pg s₁) : WellFormed pg s' :=
  hwf.replaced h.tableOk h.view_eq h.isInit_eq

theorem Outcome.wellFormed {r : Option OwnedPtr} (h : Outcome pg s args r s') (hwf : WellFormed pg s) :
    WellFormed pg s' := by
  cases h with
  | refused => exact hwf
  | grown hreq hprep => exact hprep.wellFormed hwf
  | taken hreq hprep htaken => exact htaken.wellFormed (hprep.wellFormed hwf)

theorem Taken.holds_of_holds (h : Taken pg s₁ s' args p) {x : Nat} (hx : Holds s'.ptr x) :
    Holds s₁.ptr x := by
  have haddr := h.addr_eq
  have hsize := h.size_le
  rw [OwnedPtr.holds_iff] at hx ⊢
  omega

theorem Taken.view_was_free (h : Taken pg s₁ s' args p) (hok : TableOk pg s)
    (hprep : Prepared pg s p s₁) {x : Nat} (hx : Holds p x) : s.view x = {(args.fromType, false)} := by
  rw [← hprep.view_eq, view_of_not_holds (h.not_holds (hprep.tableOk hok) hx), h.was_free x hx]

/-- The bytes handed out were free, or they were the table's storage until this call moved it. -/
theorem Taken.was_free_or_storage (h : Taken pg s₁ s' args p) (hwf : WellFormed pg s)
    (hreq : s.requested pg (args.build pg) = some p) (hprep : Prepared pg s p s₁) {x : Nat} (hx : Holds p x) :
    s.alpha x = some (args.fromType, false) ∨
      Holds s.ptr x ∧ args.fromType = .conv ∧ args.addr ≠ none ∧ s.max < s.count + minReq := by
  have hnot := h.not_holds (hprep.tableOk hwf.tableOk) hx
  have hview := h.view_was_free hwf.tableOk hprep hx
  by_cases hxt : Holds s.ptr x
  · rw [view_of_holds hxt, Multiset.singleton_inj, Prod.mk.injEq] at hview
    refine Or.inr ⟨hxt, hview.1.symm, fun hnone => ?_, ?_⟩
    · have hmem := requested_free hnone hreq hx
      rw [hwf.tableOk.used x hxt] at hmem
      simp at hmem
    · cases hprep with
      | same => exact absurd hxt hnot
      | grown hfull _ => exact hfull
  · rw [view_of_not_holds hxt] at hview
    exact Or.inl ((alpha_eq_some_iff (hwf.sole x)).mpr hview)

end Outcome

/-- An allocator whose table has three vacant slots left, so that the next `alloc` grows it. -/
def crowded : PhysAlloc where
  ptr := ⟨0x102000, 0x1000⟩
  blocks := [⟨0x102000, 0x1000, .conv, true⟩, ⟨0x300000, 0x100000, .conv, false⟩] ++
    ((List.range 123).map fun i => ⟨0x10000000 + i * 0x2000, 0x1000, .reserved, false⟩) ++
    List.replicate 3 RAMBlock.newInvalid
  isInit := true

theorem crowded_wellFormed : WellFormed .size4kiB crowded :=
  wellFormed_of_mem (b := ⟨0x102000, 0x1000, .conv, true⟩)
    ⟨⟨0, by decide +kernel⟩, by decide, by decide +kernel⟩ (by decide +kernel) (by decide +kernel) rfl
    (by decide) (by decide) rfl

end PhysAlloc
end UnixKernel
