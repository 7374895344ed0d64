import UnixKernel.PhysTable

/-! Growing the block table. `expand` looks for a free range that stays clear of the range its caller is
about to use, makes it the table's storage, allocates it from itself and frees the old storage. The old
storage need not be part of the table: all that matters is that it is not free memory. -/

namespace UnixKernel

open Slots Segments

namespace PhysAlloc

theorem add_dense {s : PhysAlloc} (nb : RAMBlock) (hroom : s.count < s.max)
    (hdense : (s.max >>> 2) + 1 < s.count) :
    ∃ s', Inserted s s' nb ∧ ∀ o, add o s nb = .ok s' := by
  by_cases hboth : 0 < nb.size ∧ s.HasBefore nb ∧ s.HasAfter nb
  · obtain ⟨s', hins, hcount, hadd⟩ := add_of_both hboth.1 hboth.2.1 hboth.2.2
    refine ⟨s', hins, fun o => ?_⟩
    rw [hadd o, if_neg]
    rw [hins.max_eq]
    omega
  · rcases Nat.eq_zero_or_pos nb.size with hzero | hpos
    · exact ⟨s, inserted_of_size_eq_zero s hzero, fun o => add_of_size_eq_zero o hzero⟩
    · obtain ⟨s', hins, -, hadd⟩ := add_ok (fun _ h => hboth ⟨hpos, h⟩) (fits_of_lt hroom)
      exact ⟨s', hins, hadd⟩

/-! ### The choice of the new storage -/

theorem fitsClear_iff {p : OwnedPtr} {align size : Nat} {block : RAMBlock} :
    fitsClear p align size block = true ↔
      alignUp block.addr align + size ≤ block.fin ∧ clearOf p align size block = true ∨
        block.addr ≤ alignUp p.fin align ∧ size ≤ block.fin - alignUp p.fin align := by
  simp [fitsClear]

theorem newStorage_size (p : OwnedPtr) (align size : Nat) (block : RAMBlock) :
    (newStorage p align size block).size = size := by
  rw [newStorage]
  split_ifs <;> rfl

theorem dvd_newStorage {align : Nat} (halign : 0 < align) (p : OwnedPtr) (size : Nat)
    (block : RAMBlock) : align ∣ (newStorage p align size block).addr := by
  rw [newStorage]
  split_ifs <;> exact dvd_alignUp _ halign

/-- The chosen range lies in the block and does not meet the pending range. -/
theorem newStorage_spec {p : OwnedPtr} {align size : Nat} {block : RAMBlock} (halign : 0 < align)
    (hsize : 0 < size) (hfits : fitsClear p align size block = true) :
    block.addr ≤ (newStorage p align size block).addr ∧
      (newStorage p align size block).fin ≤ block.fin ∧
      ∀ x, Holds (newStorage p align size block) x → ¬Holds p x := by
  rw [fitsClear_iff] at hfits
  have hle := le_alignUp block.addr align
  have hle' := le_alignUp p.fin align
  by_cases hclear : clearOf p align size block = true
  · rw [newStorage, if_pos hclear]
    have hroom : alignUp block.addr align + size ≤ block.fin := by
      rcases hfits with h | ⟨hstart, hend⟩
      · exact h.1
      · have hmin : block.addr ≤ alignUp p.fin align →
            alignUp block.addr align ≤ alignUp p.fin align :=
          fun h => alignUp_le_of_dvd halign (dvd_alignUp _ halign) h
        have := hmin hstart
        omega
    simp only [clearOf, Bool.or_eq_true, decide_eq_true_eq] at hclear
    refine ⟨hle, hroom, fun x hx hpx => ?_⟩
    rw [OwnedPtr.holds_iff] at hx hpx
    simp only [OwnedPtr.fin] at hclear
    dsimp only at hx
    omega
  · rw [newStorage, if_neg hclear]
    have hend : block.addr ≤ alignUp p.fin align ∧ size ≤ block.fin - alignUp p.fin align :=
      hfits.resolve_left fun h => hclear h.2
    refine ⟨hend.1, ?_, fun x hx hpx => ?_⟩
    · simp only [OwnedPtr.fin]
      simp only [OwnedPtr.fin] at hend
      omega
    · rw [OwnedPtr.holds_iff] at hx hpx
      simp only [OwnedPtr.fin] at hx hle'
      omega

theorem extended_den (s : PhysAlloc) (ptr : OwnedPtr) (newMax x : Nat) :
    (s.extended ptr newMax).den x = s.den x := by
  have hzero : Segments.den ((List.replicate (newMax - s.max) RAMBlock.newInvalid : List RAMBlock) :
      Multiset RAMBlock) x = 0 := by
    rw [den_eq_zero_iff]
    intro b hb hx
    rw [Multiset.mem_coe] at hb
    rw [List.eq_of_mem_replicate hb, RAMBlock.holds_iff] at hx
    simp only [RAMBlock.newInvalid] at hx
    omega
  change Segments.den ((s.blocks ++ _ : List RAMBlock) : Multiset RAMBlock) x = _
  rw [← Multiset.coe_add, den_add, hzero, add_zero]
  rfl

theorem extended_count (s : PhysAlloc) (ptr : OwnedPtr) (newMax : Nat) :
    (s.extended ptr newMax).count = s.count := by
  simp [extended, count, List.countP_append, List.countP_replicate, RAMBlock.newInvalid,
    RAMBlock.valid]

theorem extended_max {s : PhysAlloc} (ptr : OwnedPtr) {newMax : Nat} (h : s.max ≤ newMax) :
    (s.extended ptr newMax).max = newMax := by
  simp only [extended, max, List.length_append, List.length_replicate] at h ⊢
  omega

/-! ### Up to the release of the old storage -/

@[simp]
theorem tableParams_fromType (pg : BPage) (newMax : Nat) : (tableParams pg newMax).fromType = .conv := rfl

@[simp]
theorem tableParams_align (pg : BPage) (newMax : Nat) : (tableParams pg newMax).align = pg.size := rfl

@[simp]
theorem tableParams_size (pg : BPage) (newMax : Nat) :
    (tableParams pg newMax).size = tableBytes pg newMax := rfl

theorem build_tableParams {pg : BPage} (newMax : Nat) {addr : Nat} (h : pg.size ∣ addr) :
    ((tableParams pg newMax).atAddr addr).build pg = (tableParams pg newMax).atAddr addr := by
  simp only [tableParams, AllocParams.new, AllocParams.build, AllocParams.atAddr, Option.map_some,
    alignUp_of_dvd h, sizeAlign_idem]

/-- The table has been moved to free memory, and its old storage is not yet released. -/
structure Moved (pg : BPage) (s s₄ : PhysAlloc) (p : OwnedPtr) : Prop where
  aligned : pg.size ∣ s₄.ptr.addr
  size_eq : s₄.ptr.size = tableBytes pg s₄.max
  max_eq : s₄.max = 2 * s.max
  isInit_eq : s₄.isInit = s.isInit
  apart : ∀ x, Holds s₄.ptr x → ¬Holds p x
  free_before : ∀ x, Holds s₄.ptr x → s.den x = {(.conv, false)}
  used_after : ∀ x, Holds s₄.ptr x → s₄.den x = {(.conv, true)}
  den_eq : ∀ x, ¬Holds s₄.ptr x → s₄.den x = s.den x
  count_le : s₄.count ≤ s.count + 2
  le_count : s.count ≤ s₄.count + 2
  covers_storage : s₄.Covers (.conv, true) s₄.ptr
  covers : ∀ r, 0 < r.size → s.Covers (.conv, true) r → s₄.Covers (.conv, true) r

theorem grownMax_eq {s : PhysAlloc} (h : minReq ≤ s.max) : s.grownMax = 2 * s.max := by
  rw [grownMax, Nat.shiftLeft_eq, Nat.pow_one, Nat.mul_comm]
  exact Nat.max_eq_left (by omega)

/-- The allocation inside `expand`: the range is cut out of the free block that was found, and the
table, of which at most half is used, is neither grown nor shrunk on the way. -/
theorem alloc_storage (pg : BPage) {s : PhysAlloc} {q : OwnedPtr} {newMax : Nat} {block : RAMBlock}
    (haligned : pg.size ∣ q.addr) (hsize : q.size = tableBytes pg newMax)
    (hblock : block ∈ s.blocks) (hunused : block.used = false) (hty : block.ty = .conv)
    (hlo : block.addr ≤ q.addr) (hhi : q.fin ≤ block.fin) (hsole : ∀ x, Holds q x → s.Sole x)
    (hroom : s.count + minReq ≤ s.max) (hdense : (s.max >>> 2) + 2 < s.count) :
    ∃ s', (∀ x, s'.den x = if Holds q x then {(.conv, true)} else s.den x) ∧ SameTable s s' ∧
      s'.count ≤ s.count + 2 ∧ s.count ≤ s'.count + 2 ∧
      (∀ x, Holds q x → s.den x = {(.conv, false)}) ∧ s'.Covers (.conv, true) q ∧
      (∀ r, 0 < r.size → s.Covers (.conv, true) r → s'.Covers (.conv, true) r) ∧
      ∀ o, alloc pg o s ((tableParams pg newMax).atAddr q.addr) = .ok (some q, s') := by
  have hpos : 0 < q.size := by rw [hsize]; exact tableBytes_pos pg newMax
  have hmin : minReq = 4 := rfl
  have hfirst : Holds q q.addr := OwnedPtr.holds_iff.mpr (by omega)
  have hlast : Holds q (q.fin - 1) := OwnedPtr.holds_iff.mpr (by simp only [OwnedPtr.fin]; omega)
  have hfreed : ∀ x, Holds q x → s.den x = {(.conv, false)} := by
    intro x hx
    refine (hsole x hx).den_eq ?_
    have hbx : Holds block x := ⟨le_trans hlo hx.1, lt_of_lt_of_le hx.2 hhi⟩
    have hmem := tag_mem_den (Multiset.mem_coe.mpr hblock) hbx
    rwa [show Ranged.tag block = (RAMType.conv, false) by rw [← hty, ← hunused]; rfl] at hmem
  cases hfind : s.find fun b => b.notUsed && ((tableParams pg newMax).atAddr q.addr).fromType = b.ty &&
      (b.addr ≤ q.addr && q.fin ≤ b.fin) with
  | none =>
      have hno := find_eq_none hfind block hblock (by simp only [RAMBlock.fin, OwnedPtr.fin] at hhi; omega)
      simp [RAMBlock.notUsed, hunused, hty, hlo, hhi, tableParams, AllocParams.new, AllocParams.build,
        AllocParams.atAddr] at hno
  | some r =>
      obtain ⟨i, b⟩ := r
      obtain ⟨s₃, ⟨hden₃, hsame₃, hup₃, hlow₃, hcov₃⟩, hcarve⟩ := carve_eq hfind (by
        simp [tableParams, AllocParams.new, AllocParams.build, AllocParams.atAddr]) hpos
        (hsole _ hfirst) (hsole _ hlast) (by omega)
      have hmax₃ := hsame₃.max_eq
      obtain ⟨s', hins, hadd⟩ := add_dense (s := s₃) ⟨q.addr, q.size, .conv, true⟩ (by omega)
        (by rw [hmax₃]; omega)
      have hup := hins.count_le
      have hlow := hins.le_count
      refine ⟨s', fun x => ?_, hsame₃.trans hins.same, by omega, by omega, hfreed, hins.covers_new hpos,
        fun r hr hcov => hins.covers _ r hr (hcov₃ _ r hr (by simp) hcov), fun o => ?_⟩
      · have hden := hden₃ x
        rw [hins.den_eq]
        by_cases hx : Holds q x
        · have hzero : s₃.den x = 0 := den_eq_zero_of_sole (hsole x hx) hden hx
          rw [if_pos hx, part_pos (show Holds (⟨q.addr, q.size, .conv, true⟩ : RAMBlock) x from hx),
            hzero, add_zero]
          rfl
        · rw [part_neg (show ¬Holds (⟨q.addr, q.size, _, false⟩ : RAMBlock) x from hx), add_zero] at hden
          rw [if_neg hx, part_neg (show ¬Holds (⟨q.addr, q.size, .conv, true⟩ : RAMBlock) x from hx),
            zero_add, hden]
      · have hbuild := build_tableParams newMax haligned
        have hrequest : s.requested pg (((tableParams pg newMax).atAddr q.addr).build pg) = some q := by
          rw [hbuild]
          exact congrArg (fun n => some (OwnedPtr.mk q.addr n)) hsize.symm
        rw [alloc_of_requested pg o ⟨rfl, rfl⟩ hrequest, if_neg (by omega), hbuild, hcarve o]
        exact congrArg (fun r => r >>= fun s' => Except.ok (some q, s')) (hadd o)

theorem Covers.mem_den {s : PhysAlloc} {t : Tag} {q : OwnedPtr} (h : s.Covers t q) {x : Nat} (hx : Holds q x) :
    t ∈ s.den x := by
  obtain ⟨b, hb, rfl, hlo, hhi⟩ := h
  exact tag_mem_den (Multiset.mem_coe.mpr hb) ⟨le_trans hlo hx.1, lt_of_lt_of_le hx.2 hhi⟩

/-- The storage that `expand` chooses for a table of `newMax` entries. -/
def pick (pg : BPage) (s : PhysAlloc) (newMax : Nat) (p : OwnedPtr) : Option OwnedPtr :=
  let param := tableParams pg newMax
  (s.find fun block => !block.used && (block.ty = param.fromType &&
    fitsClear p param.align param.size block)).map fun r => newStorage p param.align param.size r.2

theorem expand_of_pick_none (pg : BPage) (o : TableOps) {s : PhysAlloc} {newMax : Nat} {p : OwnedPtr}
    (hlt : s.max < newMax) (h : s.pick pg newMax p = none) : expand pg o s newMax p = .ok (none, s) := by
  have hfind := Option.map_eq_none_iff.mp h
  simp only [expand, if_neg (Nat.not_le.mpr hlt), hfind]
  rfl

theorem expand_of_pick_some (pg : BPage) (o : TableOps) {s : PhysAlloc} {newMax : Nat} {p q : OwnedPtr}
    (hlt : s.max < newMax) (h : s.pick pg newMax p = some q) :
    expand pg o s newMax p = (do
      let (r, s₃) ← alloc pg o (s.extended q newMax) ((tableParams pg newMax).atAddr q.addr)
      match r with
      | none => .error .panic
      | some ptr => do
          let s' ← free o { s₃ with ptr := ptr } s.ptr
          .ok (some (), s')) := by
  obtain ⟨⟨i, block⟩, hfind, rfl⟩ := Option.map_eq_some_iff.mp h
  simp only [expand, if_neg (Nat.not_le.mpr hlt), hfind]
  rfl

theorem pick_spec {pg : BPage} {s : PhysAlloc} {newMax : Nat} {p q : OwnedPtr} (h : s.pick pg newMax p = some q) :
    pg.size ∣ q.addr ∧ q.size = tableBytes pg newMax ∧ s.Covers (.conv, false) q ∧ ∀ x, Holds q x → ¬Holds p x := by
  obtain ⟨⟨i, block⟩, hfind, rfl⟩ := Option.map_eq_some_iff.mp h
  obtain ⟨hget, -, hf⟩ := find_eq_some hfind
  simp only [Bool.and_eq_true, Bool.not_eq_true', decide_eq_true_eq] at hf
  obtain ⟨hunused, hty, hfits⟩ := hf
  obtain ⟨hlo, hhi, hclear⟩ := newStorage_spec pg.size_pos (tableBytes_pos pg _) hfits
  exact ⟨dvd_newStorage pg.size_pos p _ block, newStorage_size p pg.size _ block,
    ⟨block, List.mem_of_getElem? hget, by rw [hty, hunused, tableParams_fromType], hlo, hhi⟩, hclear⟩

/-- The allocation of the chosen storage succeeds and moves the table. -/
theorem moved_of_pick (pg : BPage) {s : PhysAlloc} {p q : OwnedPtr} (hbase : baseRbSize ≤ s.max)
    (hfull : s.max < s.count + minReq) (hpick : s.pick pg s.grownMax p = some q)
    (hsole : ∀ x, Holds q x → s.Sole x) :
    ∃ s₃, Moved pg s { s₃ with ptr := q } p ∧
      ∀ o, alloc pg o (s.extended q s.grownMax) ((tableParams pg s.grownMax).atAddr q.addr) = .ok (some q, s₃) := by
  have hbase' : 128 ≤ s.max := hbase
  have hmin : minReq = 4 := rfl
  have hgrown : s.grownMax = 2 * s.max := grownMax_eq (le_trans (by decide) hbase)
  obtain ⟨haligned, hq, ⟨block, hblock, htag, hlo, hhi⟩, hclear⟩ := pick_spec hpick
  obtain ⟨hty, hunused⟩ := Prod.mk.inj htag
  have hext := extended_max q (by omega : s.max ≤ s.grownMax)
  obtain ⟨s₃, hden, hsame, hup, hlow, hfreed, hcovq, hcov, halloc⟩ := alloc_storage pg (s := s.extended q s.grownMax)
    haligned hq (List.mem_append_left _ hblock) hunused hty hlo hhi
    (fun x hx => by rw [Sole, extended_den]; exact hsole x hx)
    (by rw [hext, extended_count]; have := s.count_le_max; omega)
    (by rw [hext, extended_count, hgrown, Nat.shiftRight_eq_div_pow]; omega)
  rw [extended_count] at hup hlow
  refine ⟨s₃, ⟨haligned, ?_, ?_, hsame.isInit_eq, hclear, fun x hx => ?_, fun x hx => ?_, fun x hx => ?_, hup, hlow,
    hcovq, ?_⟩, halloc⟩
  · rw [hq]
    exact congrArg (tableBytes pg) (hext.symm.trans hsame.max_eq.symm)
  · exact (hsame.max_eq.trans hext).trans hgrown
  · rw [← extended_den s q s.grownMax x]
    exact hfreed x hx
  · exact (hden x).trans (if_pos hx)
  · exact ((hden x).trans (if_neg hx)).trans (extended_den s q s.grownMax x)
  · rintro r hr ⟨b, hb, hbr⟩
    exact hcov r hr ⟨b, List.mem_append_left _ hb, hbr⟩

/-- `expand` either finds no room and leaves everything as it is, or moves the table to free memory
clear of `p` and goes on to free the old storage. -/
theorem expand_eq (pg : BPage) {s : PhysAlloc} {p : OwnedPtr} (hbase : baseRbSize ≤ s.max)
    (hfull : s.max < s.count + minReq)
    (hsole : ∀ q : OwnedPtr, pg.size ∣ q.addr → q.size = tableBytes pg (2 * s.max) →
      (∀ x, Holds q x → (RAMType.conv, false) ∈ s.den x) → ∀ x, Holds q x → s.Sole x) :
    (∀ o, expand pg o s s.grownMax p = .ok (none, s)) ∨
    ∃ s₄, Moved pg s s₄ p ∧ ∀ o, expand pg o s s.grownMax p = (do
      let s' ← free o s₄ s.ptr
      .ok (some (), s')) := by
  have hbase' : 128 ≤ s.max := hbase
  have hgrown : s.grownMax = 2 * s.max := grownMax_eq (le_trans (by decide) hbase)
  have hlt : s.max < s.grownMax := by omega
  cases hpick : s.pick pg s.grownMax p with
  | none => exact Or.inl fun o => expand_of_pick_none pg o hlt hpick
  | some q =>
      obtain ⟨haligned, hq, hcov, -⟩ := pick_spec hpick
      obtain ⟨s₃, hmoved, halloc⟩ := moved_of_pick pg hbase hfull hpick
        (hsole q haligned (by rw [hq, hgrown]) fun x hx => hcov.mem_den hx)
      refine Or.inr ⟨_, hmoved, fun o => ?_⟩
      rw [expand_of_pick_some pg o hlt hpick, halloc o]
      rfl

/-! ### The release of the old storage -/

theorem countP_overlaps_eq_zero {s : PhysAlloc} {p : OwnedPtr} (hp : 0 < p.size)
    (h : ∀ x, Holds p x → s.den x = 0) : s.blocks.countP (overlaps p) = 0 := by
  rw [List.countP_eq_zero]
  intro b hb hover
  obtain ⟨hsize, hlo, hhi⟩ := overlaps_iff.mp hover
  simp only [RAMBlock.fin, OwnedPtr.fin] at hlo hhi
  rcases Nat.lt_or_ge b.addr p.addr with hlt | hge
  · exact den_eq_zero_iff.mp (h p.addr (OwnedPtr.holds_iff.mpr (by omega))) b (Multiset.mem_coe.mpr hb)
      (RAMBlock.holds_iff.mpr (by omega))
  · exact den_eq_zero_iff.mp (h b.addr (OwnedPtr.holds_iff.mpr (by omega))) b (Multiset.mem_coe.mpr hb)
      (RAMBlock.holds_iff.mpr (by omega))

theorem Covers.countP_overlaps_le_one {s : PhysAlloc} {t : Tag} {p : OwnedPtr} (h : s.Covers t p)
    (hp : 0 < p.size) (hsole : ∀ x, Holds p x → s.Sole x) : s.blocks.countP (overlaps p) ≤ 1 := by
  obtain ⟨b, hb, -, hlo, hhi⟩ := h
  obtain ⟨i, hi⟩ := List.getElem?_of_mem hb
  obtain ⟨rest, hperm, -⟩ := swap_set b hi
  have hrest : rest.countP (overlaps p) = 0 := by
    refine countP_overlaps_eq_zero (s := { s with blocks := rest }) hp fun x hx => ?_
    have hx' := hsole x hx
    rw [Sole, den, Multiset.coe_eq_coe.mpr hperm, ← Multiset.cons_coe] at hx'
    exact Segments.Sole.rest_eq_zero hx' ⟨le_trans hlo hx.1, lt_of_lt_of_le hx.2 hhi⟩
  rw [hperm.countP_eq, List.countP_cons, hrest]
  split_ifs <;> omega

/-- Freeing a range that meets at most one block of a well filled table: the table is not shrunk. -/
theorem free_dense {pg : BPage} {s : PhysAlloc} {p : OwnedPtr} (hok : TableOk pg s) (hp : 0 < p.size)
    (hapart : ∀ x, Holds p x → ¬Holds s.ptr x) (hfirst : s.Sole p.addr) (hlast : s.Sole (p.fin - 1))
    (hroom : s.count + 2 ≤ s.max) (hone : s.blocks.countP (overlaps p) ≤ 1)
    (hdense : (s.max >>> 2) + 2 < s.count) :
    ∃ s', TableOk pg s' ∧ (∀ x, s'.view x = if Holds p x then {(.conv, false)} else s.view x) ∧
      SameTable s s' ∧ s'.count ≤ s.count + 2 ∧ s.count ≤ s'.count + 2 ∧
      (∀ t r, 0 < r.size → (∀ x, Holds r x → ¬Holds p x) → s.Covers t r → s'.Covers t r) ∧
      ∀ o, free o s p = .ok s' := by
  obtain ⟨s₃, ⟨hden₃, hsame₃, hup₃, hlow₃, hcov₃⟩, hfree⟩ := free_eq_add hp hfirst hlast (by omega)
  have hmax₃ := hsame₃.max_eq
  have hok₃ : TableOk pg s₃ := hok.of_den hsame₃ fun x hx => by
    rw [hden₃, if_neg (fun h => hapart x h hx)]
  have hclear : ∀ x, Holds (⟨p.addr, p.size, .conv, false⟩ : RAMBlock) x → ¬Holds s₃.ptr x :=
    fun x hx => by rw [hsame₃.ptr_eq]; exact hapart x hx
  obtain ⟨s', hins, hadd⟩ := add_dense (s := s₃) ⟨p.addr, p.size, .conv, false⟩ (by omega)
    (by rw [hmax₃]; omega)
  have hup := hins.count_le
  have hlow := hins.le_count
  refine ⟨s', hins.tableOk hok₃ hclear,
    view_eq_of_replaced (view_eq_of_cleared hden₃ hsame₃ hapart) (hins.view_eq hclear),
    hsame₃.trans hins.same, by omega, by omega,
    fun t r hr hrp hcov => hins.covers t r hr (hcov₃ t r hr hrp hcov), fun o => ?_⟩
  rw [hfree o, hadd o]

/-- What keeps `shrink` from giving back the wrong memory: with 4 KiB pages it never does; with larger
pages the table is not shrunk as long as its storage is part of one block. -/
def Whole (pg : BPage) (s : PhysAlloc) : Prop := pg = .size4kiB ∨ s.Covers (.conv, true) s.ptr

/-- A grown table: its storage is new memory, the old storage is free, and nothing else changed. -/
structure Grown (pg : BPage) (s s' : PhysAlloc) (p : OwnedPtr) : Prop where
  tableOk : TableOk pg s'
  whole : Whole pg s'
  view_eq : ∀ x, s'.view x = s.view x
  isInit_eq : s'.isInit = s.isInit
  apart : ∀ x, Holds s'.ptr x → ¬Holds p x
  apart_old : ∀ x, Holds s'.ptr x → ¬Holds s.ptr x
  room : s'.count + minReq ≤ s'.max

/-- A table that records its own storage is grown, or there is no memory for a larger one. -/
theorem expand_spec {pg : BPage} {s : PhysAlloc} {p : OwnedPtr} (hok : TableOk pg s)
    (hwhole : Whole pg s)
    (hsole : ∀ q : OwnedPtr, pg.size ∣ q.addr → q.size = tableBytes pg (2 * s.max) →
      (∀ x, Holds q x → (RAMType.conv, false) ∈ s.den x) → ∀ x, Holds q x → s.Sole x)
    (hfull : s.max < s.count + minReq) :
    (∀ o, expand pg o s s.grownMax p = .ok (none, s)) ∨
    ∃ s', Grown pg s s' p ∧ ∀ o o', o.shrink = shrink pg o' →
      expand pg o s s.grownMax p = .ok (some (), s') := by
  have hbase := hok.base_le_max
  have hbase' : 128 ≤ s.max := hbase
  have hmin : minReq = 4 := rfl
  have hmax := s.count_le_max
  rcases expand_eq pg (p := p) hbase hfull hsole with hnone | ⟨s₄, hmoved, hexpand⟩
  · exact Or.inl hnone
  have hold : ∀ x, Holds s.ptr x → ¬Holds s₄.ptr x := by
    intro x hx hx'
    have hfree := hmoved.free_before x hx'
    rw [hok.used x hx] at hfree
    simp at hfree
  have hsole₄ : ∀ x, Holds s.ptr x → s₄.Sole x := fun x hx => by
    rw [Sole, hmoved.den_eq x (hold x hx), hok.used x hx]
    exact le_refl 1
  obtain ⟨k, hk⟩ := hok.max_pow
  have hok₄ : TableOk pg s₄ := ⟨⟨⟨k + 1, by
    rw [hmoved.max_eq, hk, Nat.mul_comm, Nat.mul_assoc, Nat.pow_succ]⟩, hmoved.aligned,
    hmoved.size_eq⟩, hmoved.used_after⟩
  have hpos := hok.ptr_size_pos
  have hup := hmoved.count_le
  have hlow := hmoved.le_count
  have hmax₄ := hmoved.max_eq
  have hview₄ : ∀ x, ¬Holds s.ptr x → s₄.view x = s.view x := by
    intro x hx
    rw [view_of_not_holds hx]
    by_cases hx₄ : Holds s₄.ptr x
    · rw [view_of_holds hx₄, hmoved.free_before x hx₄]
    · rw [view_of_not_holds hx₄, hmoved.den_eq x hx₄]
  -- with the old storage free the view is the one before
  have hview : ∀ s' : PhysAlloc,
      (∀ x, s'.view x = if Holds s.ptr x then {(.conv, false)} else s₄.view x) →
      ∀ x, s'.view x = s.view x := by
    intro s' hs' x
    rw [hs']
    by_cases hx : Holds s.ptr x
    · rw [if_pos hx, view_of_holds hx]
    · rw [if_neg hx, hview₄ x hx]
  have hfirst := hsole₄ _ (OwnedPtr.holds_iff.mpr (by omega) : Holds s.ptr s.ptr.addr)
  have hlast := hsole₄ _ (OwnedPtr.holds_iff.mpr (by simp only [OwnedPtr.fin]; omega) :
    Holds s.ptr (s.ptr.fin - 1))
  rcases hwhole with rfl | hcov
  · obtain ⟨s', hok', hview', hinit, haddr, hsize, hcount, hfree⟩ := free_spec hok₄ hpos hold hfirst hlast
      (by omega)
    have hsub : ∀ x, Holds s'.ptr x → Holds s₄.ptr x := by
      intro x hx
      rw [OwnedPtr.holds_iff] at hx ⊢
      omega
    refine Or.inr ⟨s', ⟨hok', Or.inl rfl, hview s' hview', by rw [hinit, hmoved.isInit_eq],
      fun x hx => hmoved.apart x (hsub x hx), fun x hx hx' => hold x hx' (hsub x hx), by omega⟩,
      fun o o' ho => ?_⟩
    rw [hexpand o, hfree o o' ho]
    rfl
  · have hone := (hmoved.covers s.ptr hpos hcov).countP_overlaps_le_one hpos hsole₄
    obtain ⟨s', hok', hview', hsame, hcount, -, hcov', hfree⟩ := free_dense hok₄ hpos hold hfirst hlast
      (by omega) hone (by rw [hmax₄, Nat.shiftRight_eq_div_pow]; omega)
    have hptr := hsame.ptr_eq
    have hmax' := hsame.max_eq
    refine Or.inr ⟨s', ⟨hok', Or.inr ?_, hview s' hview', by rw [hsame.isInit_eq, hmoved.isInit_eq],
      fun x hx => hmoved.apart x (hptr ▸ hx), fun x hx hx' => hold x hx' (hptr ▸ hx), by omega⟩,
      fun o o' ho => ?_⟩
    · rw [hptr]
      exact hcov' _ _ hok₄.ptr_size_pos (fun x hx hx' => hold x hx' hx) hmoved.covers_storage
    · rw [hexpand o, hfree o]
      rfl

/-! ### `add`, with the table grown or shrunk on the way -/

/-- `add` where the block fits. With larger pages it must not join two blocks, which could shrink the
table. -/
theorem add_fits {pg : BPage} {s : PhysAlloc} {nb : RAMBlock} (hok : TableOk pg s) (hwhole : Whole pg s)
    (hfits : s.Fits nb) (hclear : ∀ x, Holds nb x → ¬Holds s.ptr x)
    (hquiet : pg = .size4kiB ∨ (0 < nb.size → ¬(s.HasBefore nb ∧ s.HasAfter nb))) :
    ∃ s', TableOk pg s' ∧ Whole pg s' ∧ (∀ x, s'.view x = part nb x + s.view x) ∧
      s'.isInit = s.isInit ∧ s'.ptr.addr = s.ptr.addr ∧ s'.ptr.size ≤ s.ptr.size ∧
      (s'.max = s.max ∧ s'.count ≤ s.count + 1 ∨ s'.count + minReq ≤ s'.max) ∧
      ∀ o o', o.shrink = shrink pg o' → add o s nb = .ok s' := by
  rcases hquiet with rfl | hnot
  · obtain ⟨s', hok', hview, hinit, haddr, hsize, hcount, hadd⟩ := add_spec hok hfits hclear
    exact ⟨s', hok', Or.inl rfl, hview, hinit, haddr, hsize, hcount, hadd⟩
  · obtain ⟨s', hins, -, hadd⟩ := add_ok hnot hfits
    refine ⟨s', hins.tableOk hok hclear, ?_, hins.view_eq hclear, hins.isInit_eq, by rw [hins.ptr_eq],
      by rw [hins.ptr_eq], Or.inl ⟨hins.max_eq, hins.count_le⟩, fun o _ _ => hadd o⟩
    rcases hwhole with hpg | hcov
    · exact Or.inl hpg
    · refine Or.inr ?_
      rw [hins.ptr_eq]
      exact hins.covers _ _ hok.ptr_size_pos hcov

/-- `add` when the table records its own storage: the block is inserted, whether the table has to be
grown, may be shrunk, or stays; the kernel panics when it has to be grown and there is no room. -/
theorem add_full {pg : BPage} {s : PhysAlloc} {nb : RAMBlock} (hok : TableOk pg s)
    (hwhole : Whole pg s)
    (hsole : ∀ q : OwnedPtr, pg.size ∣ q.addr → q.size = tableBytes pg (2 * s.max) →
      (∀ x, Holds q x → (RAMType.conv, false) ∈ s.den x) → ∀ x, Holds q x → s.Sole x)
    (hclear : ∀ x, Holds nb x → ¬Holds s.ptr x)
    (hquiet : pg = .size4kiB ∨ (0 < nb.size → ¬(s.HasBefore nb ∧ s.HasAfter nb))) :
    (∀ n, add (tableOps pg (n + 2)) s nb = .error .panic) ∨
    ∃ s', TableOk pg s' ∧ Whole pg s' ∧ (∀ x, s'.view x = part nb x + s.view x) ∧
      s'.isInit = s.isInit ∧ ∀ n, add (tableOps pg (n + 2)) s nb = .ok s' := by
  have hmin : minReq = 4 := rfl
  by_cases hfits : s.Fits nb
  · obtain ⟨s', hok', hwhole', hview, hinit, -, -, -, hadd⟩ := add_fits hok hwhole hfits hclear hquiet
    exact Or.inr ⟨s', hok', hwhole', hview, hinit, fun n => hadd _ _ rfl⟩
  obtain ⟨hpos, hbefore, hafter, hfull⟩ := not_fits hfits
  rcases expand_spec (p := nb.intoOwnedPtr) hok hwhole hsole (by omega) with hfail | ⟨s₁, hgrown, hexpand⟩
  · refine Or.inl fun n => ?_
    rw [add_of_none_full _ hpos hbefore hafter hfull]
    change (expand pg (tableOps pg (n + 1)) s s.grownMax nb.intoOwnedPtr >>= _) = _
    rw [hfail]
    rfl
  · have hroom := hgrown.room
    obtain ⟨hins, -, -⟩ := inserted_place (s := s₁) hpos (by omega)
    have hclear₁ : ∀ x, Holds nb x → ¬Holds s₁.ptr x := fun x hx hx' => hgrown.apart x hx' hx
    refine Or.inr ⟨_, hins.tableOk hgrown.tableOk hclear₁, ?_, fun x => ?_,
      hins.isInit_eq.trans hgrown.isInit_eq, fun n => ?_⟩
    · rcases hgrown.whole with hpg | hcov
      · exact Or.inl hpg
      · exact Or.inr (hins.covers _ _ hgrown.tableOk.ptr_size_pos hcov)
    · rw [hins.view_eq hclear₁, hgrown.view_eq]
    · rw [add_of_none_full _ hpos hbefore hafter hfull]
      change (expand pg (tableOps pg (n + 1)) s s.grownMax nb.intoOwnedPtr >>= _) = _
      rw [hexpand _ _ rfl]
      rfl

end PhysAlloc
end UnixKernel
