import UnixKernel.PhysCoalesced

/-! Growing the table around a pending range. `expand` finds storage exactly when a free block has a page-aligned
range of the size that is clear of the pending range, and the allocation it unwraps succeeds. What it does not look
at is whether the pending range meets the old storage, which it frees at the end: then bytes of the pending range
are free memory of the table afterwards. That happens to a block that `add` is about to put in while it holds the
storage of the table. The new table is written before it is allocated, which a development build refuses at address
zero. -/

namespace UnixKernel

open Slots Segments

namespace PhysAlloc

variable {pg : BPage} {s s' : PhysAlloc} {nb : RAMBlock} {p q r : OwnedPtr} {t : Tag}

theorem le_or_le_of_apart (hp : 0 < p.size) (hq : 0 < q.size) (h : ∀ x, Holds q x → ¬Holds p x) :
    q.fin ≤ p.addr ∨ p.fin ≤ q.addr := by
  simp only [OwnedPtr.holds_iff] at h
  simp only [OwnedPtr.fin]
  rcases Nat.le_total p.addr q.addr with hle | hle
  · have := h q.addr
    omega
  · have := h p.addr
    omega

/-! ### The search -/

/-- Storage for the grown table: pages of a free block that are clear of the pending range. -/
structure Room (pg : BPage) (s : PhysAlloc) (p q : OwnedPtr) : Prop where
  aligned : pg.size ∣ q.addr
  size_eq : q.size = tableBytes pg s.grownMax
  covers : s.Covers (.conv, false) q
  apart : ∀ x, Holds q x → ¬Holds p x

/-- The test on a block passes when the block has room. -/
theorem fitsClear_of_room {align size : Nat} {block : RAMBlock} (halign : 0 < align) (hp : 0 < p.size)
    (hsize : 0 < size) (hq : q.size = size) (hdvd : align ∣ q.addr) (hlo : block.addr ≤ q.addr)
    (hhi : q.fin ≤ block.fin) (hapart : ∀ x, Holds q x → ¬Holds p x) :
    fitsClear p align size block = true := by
  rw [fitsClear_iff, clearOf, Bool.or_eq_true, Bool.or_eq_true, decide_eq_true_eq, decide_eq_true_eq,
    decide_eq_true_eq]
  have hstart : alignUp block.addr align ≤ q.addr := alignUp_le_of_dvd halign hdvd hlo
  have hfin : q.fin = q.addr + size := by rw [OwnedPtr.fin, hq]
  rcases le_or_le_of_apart hp (by omega) hapart with hbefore | hbehind
  · -- the room in front of `p` begins at the first page of the block
    exact Or.inl ⟨by omega, Or.inr (by omega)⟩
  · have hend : alignUp p.fin align ≤ q.addr := alignUp_le_of_dvd halign hdvd hbehind
    rcases Nat.lt_or_ge (alignUp p.fin align) block.addr with hlt | hge
    · have := le_alignUp p.fin align
      exact Or.inl ⟨by omega, Or.inl (Or.inr (by omega))⟩
    · exact Or.inr ⟨hge, by omega⟩

theorem room_of_pick (h : s.pick pg s.grownMax p = some q) : Room pg s p q := by
  obtain ⟨haligned, hsize, hcov, hclear⟩ := pick_spec h
  exact ⟨haligned, hsize, hcov, hclear⟩

theorem pick_eq_none_iff (hp : 0 < p.size) : s.pick pg s.grownMax p = none ↔ ¬∃ q, Room pg s p q := by
  constructor
  · rintro hnone ⟨q, haligned, hsize, ⟨block, hblock, htag, hlo, hhi⟩, hapart⟩
    have hpos := tableBytes_pos pg s.grownMax
    obtain ⟨hty, hunused⟩ := Prod.mk.inj htag
    have hvalid : 0 < block.size := by
      simp only [RAMBlock.fin, OwnedPtr.fin] at hhi
      omega
    have hfalse := find_eq_none (Option.map_eq_none_iff.mp hnone) block hblock hvalid
    have hfits := fitsClear_of_room pg.size_pos hp hpos hsize haligned hlo hhi hapart
    simp [hunused, hty, hfits] at hfalse
  · intro hno
    rw [Option.eq_none_iff_forall_ne_some]
    exact fun q hq => hno ⟨q, room_of_pick hq⟩

/-! ### Ranges that stay inside one block -/

theorem inserted_of_add_still (h : add still s nb = .ok s') : Inserted s s' nb := by
  by_cases hfits : s.Fits nb
  · obtain ⟨s₁, hstill, hins, -⟩ := add_cases hfits
    rw [hstill] at h
    cases h
    exact hins
  · obtain ⟨hnb, hbefore, hafter, hfull⟩ := not_fits hfits
    rw [add_of_none_full still hnb hbefore hafter hfull] at h
    cases h

theorem Covers.sub (h : s.Covers t q) (hlo : q.addr ≤ r.addr) (hhi : r.fin ≤ q.fin) : s.Covers t r := by
  obtain ⟨b, hb, htag, hblo, hbhi⟩ := h
  exact ⟨b, hb, htag, le_trans hblo hlo, le_trans hhi hbhi⟩

theorem covers_of_valids (hvalids : s'.valids = s.valids) (hr : 0 < r.size) (h : s.Covers t r) : s'.Covers t r := by
  obtain ⟨b, hb, htag, hlo, hhi⟩ := h
  have hpos : 0 < b.size := by
    simp only [RAMBlock.fin, OwnedPtr.fin] at hhi
    omega
  have hmem := mem_valids.mpr ⟨hb, hpos⟩
  rw [← hvalids] at hmem
  exact ⟨b, (mem_valids.mp hmem).1, htag, hlo, hhi⟩

/-- A range clear of the one that is cut out stays inside one block: the block it was in, or what remains of it. -/
theorem Covers.carve (h : s.Covers t r) (hr : 0 < r.size) (hp : 0 < p.size)
    (hapart : ∀ x, Holds r x → ¬Holds p x) {args : AllocParams}
    (hrun : PhysAlloc.carve still s args p = .ok (some p, s')) : s'.Covers t r := by
  rcases carve_eq_ok hrun with ⟨hr, -⟩ | ⟨i, block, s₁, s₂, hget, hsize, hunused, -, -, -, hbefore, hafter, hlast, -⟩
  · cases hr
  have hins₁ := inserted_of_add_still hbefore
  have hins₂ := inserted_of_add_still hafter
  have hins₃ := inserted_of_add_still hlast
  obtain ⟨b, hb, htag, hlo, hhi⟩ := h
  have hbpos : 0 < b.size := by
    simp only [RAMBlock.fin, OwnedPtr.fin] at hhi
    omega
  have hmem := mem_valids.mpr ⟨hb, hbpos⟩
  rw [valids_invalidate hget hsize, Multiset.mem_cons] at hmem
  rcases hmem with rfl | hmem
  · rw [hunused] at htag
    subst htag
    rcases le_or_le_of_apart hp hr hapart with hle | hle
    · have hnew := hins₁.covers_new (by simp only [OwnedPtr.fin] at hle ⊢; omega)
      refine hins₃.covers _ r hr (hins₂.covers _ r hr (hnew.sub hlo ?_))
      simp only [RAMBlock.intoOwnedPtr, OwnedPtr.fin] at hle ⊢
      omega
    · have hnew := hins₂.covers_new (by simp only [RAMBlock.fin, OwnedPtr.fin] at hle hhi ⊢; omega)
      refine hins₃.covers _ r hr (hnew.sub hle ?_)
      simp only [RAMBlock.intoOwnedPtr, RAMBlock.fin, OwnedPtr.fin] at hle hhi ⊢
      omega
  · exact hins₃.covers _ r hr (hins₂.covers _ r hr (hins₁.covers _ r hr ⟨b, (mem_valids.mp hmem).1, htag, hlo, hhi⟩))

theorem Covers.alloc (h : s.Covers t r) (hr : 0 < r.size) (hapart : ∀ x, Holds r x → ¬Holds p x)
    (hroom : s.count + minReq ≤ s.max) {args : AllocParams}
    (hrun : PhysAlloc.alloc pg still s args = .ok (some p, s')) : s'.Covers t r := by
  rcases alloc_cases pg s args with hnone | ⟨hram, q, hreq⟩
  · rw [hnone] at hrun
    cases hrun
  rw [alloc_of_requested pg _ hram hreq, if_neg (by omega)] at hrun
  have hpos : 0 < q.size := by
    rw [requested_size hreq]
    exact sizeAlign_pos _ _
  obtain rfl := carve_some hrun
  exact h.carve hr hpos hapart hrun

/-! ### The release of the old storage -/

/-- From `s` to `s'` the range `p` becomes free memory, and outside `p` and the storage of the table nothing
changes. -/
structure Released (s s' : PhysAlloc) (p : OwnedPtr) : Prop where
  den_eq : ∀ x, ¬Holds s.ptr x → s'.den x = if Holds p x then {(.conv, false)} else s.den x
  addr_eq : s'.ptr.addr = s.ptr.addr
  covers : ∀ t r, 0 < r.size → (∀ x, Holds r x → ¬Holds p x ∧ ¬Holds s.ptr x) → s.Covers t r → s'.Covers t r

/-- With 4 KiB pages, halving a table only gives back the rear part of its storage. -/
theorem shrink_tail (hbase : 2 * baseRbSize ≤ s.max) (haligned : 4096 ∣ s.ptr.addr)
    (hsize : s.ptr.size = tableBytes .size4kiB s.max) (hused : ∀ x, Holds s.ptr x → s.den x = {(.conv, true)})
    (hsole : ∀ x, s.Sole x) (hsparse : s.count ≤ s.max >>> 2) :
    ∃ s', (∀ x, ¬Holds s.ptr x → s'.den x = s.den x) ∧ s'.ptr.addr = s.ptr.addr ∧
      (∀ t r, 0 < r.size → (∀ x, Holds r x → ¬Holds s.ptr x) → s.Covers t r → s'.Covers t r) ∧
      ∀ o, shrink .size4kiB o s (Nat.max (s.max >>> 1) baseRbSize) = .ok s' := by
  have hbase' : 256 ≤ s.max := hbase
  rw [Nat.shiftRight_eq_div_pow] at hsparse
  have hhalf : Nat.max (s.max >>> 1) baseRbSize = s.max / 2 := by
    rw [Nat.shiftRight_eq_div_pow]
    exact Nat.max_eq_left (by rw [baseRbSize]; omega)
  rw [hhalf]
  generalize hnew : s.max / 2 = newMax
  have hmono : tableBytes .size4kiB newMax ≤ tableBytes .size4kiB s.max :=
    sizeAlign_mono _ (Nat.mul_le_mul_right _ (by omega))
  have hkept : 4096 ∣ tableBytes .size4kiB newMax := dvd_tableBytes (by rw [baseRbSize]; omega)
  have hkeptpos := tableBytes_pos .size4kiB newMax
  have hlt : newMax < s.max := by omega
  obtain ⟨cut, whole, hcut, hwhole, hcutmax, hcutptr, -, hsame, hto⟩ :=
    shrinkTo_of_accepted .size4kiB hlt (by omega) (by rw [minReq]; omega)
  rw [if_neg (by omega), BPage.size_size4kiB, alignUp_of_dvd ((Nat.dvd_add_right haligned).mpr hkept)] at hto
  by_cases htail : s.ptr.size - tableBytes .size4kiB newMax = 0
  · rw [if_pos htail] at hto
    refine ⟨whole, fun x _ => den_congr hwhole x, by rw [hsame.ptr_eq], fun t r hr _ h => covers_of_valids hwhole hr h,
      fun o => ?_⟩
    rw [shrink_eq_shrinkTo, hto]
    rfl
  rw [if_neg htail] at hto
  have hinside : ∀ x, Holds (⟨s.ptr.addr + tableBytes .size4kiB newMax,
      s.ptr.size - tableBytes .size4kiB newMax⟩ : OwnedPtr) x → Holds s.ptr x := by
    intro x hx
    rw [OwnedPtr.holds_iff] at hx ⊢
    dsimp only at hx
    omega
  have hcutsole : ∀ x, cut.Sole x := fun x => by
    rw [Sole, den_congr hcut]
    exact hsole x
  have hcount : cut.count = s.count := count_congr hcut
  obtain ⟨s₃, hcleared, hfree⟩ := free_eq_add (Nat.pos_of_ne_zero htail : 0 < (⟨s.ptr.addr +
    tableBytes .size4kiB newMax, s.ptr.size - tableBytes .size4kiB newMax⟩ : OwnedPtr).size) (hcutsole _) (hcutsole _)
    (by omega)
  have hmax₃ := hcleared.same.max_eq
  have hcount₃ := hcleared.count_le
  -- the byte in front of what is freed is the table's own
  obtain ⟨s', hins, -, hadd⟩ := @add_ok s₃ ⟨s.ptr.addr + tableBytes .size4kiB newMax,
    s.ptr.size - tableBytes .size4kiB newMax, .conv, false⟩ (fun _ hboth => by
      obtain ⟨-, hmem⟩ := hboth.1.mem_den
      have hx : Holds s.ptr (s.ptr.addr + tableBytes .size4kiB newMax - 1) := by
        rw [OwnedPtr.holds_iff]
        omega
      rw [hcleared.den_eq, if_neg (by rw [OwnedPtr.holds_iff]; dsimp only; omega), den_congr hcut,
        hused _ hx] at hmem
      simp at hmem) (fits_of_lt (by omega))
  refine ⟨s', fun x hx => ?_, by rw [hins.ptr_eq, hcleared.same.ptr_eq, hcutptr], fun t r hr hapart h => ?_,
    fun o => ?_⟩
  · have hout := fun h => hx (hinside x h)
    rw [hins.den_eq, hcleared.den_eq, if_neg hout, part_range ⟨_, _⟩, if_neg hout, zero_add, den_congr hcut]
  · exact hins.covers t r hr (hcleared.covers t r hr (fun x hx hx' => hapart x hx (hinside x hx'))
      (covers_of_valids hcut hr h))
  · rw [shrink_eq_shrinkTo, hto]
    exact (hfree o).trans (hadd o)

/-- The operations shrink the table as the code does. With larger pages nothing is asked of them. -/
def Halves (pg : BPage) (o : TableOps) : Prop := pg = .size4kiB → ∃ o', o.shrink = shrink pg o'

/-- Freeing the old storage of a table that has just been moved. -/
theorem free_released (hbase : 2 * baseRbSize ≤ s.max) (haligned : pg.size ∣ s.ptr.addr)
    (hsize : s.ptr.size = tableBytes pg s.max) (hused : ∀ x, Holds s.ptr x → s.den x = {(.conv, true)})
    (hsole : ∀ x, s.Sole x) (hp : 0 < p.size) (hapart : ∀ x, Holds p x → ¬Holds s.ptr x)
    (hroom : s.count + 2 ≤ s.max) (hdense : (s.max >>> 2) + 2 < s.count)
    (hfew : pg = .size4kiB ∨ s.blocks.countP (overlaps p) ≤ 1) :
    ∃ s', Released s s' p ∧ ∀ o, Halves pg o → PhysAlloc.free o s p = .ok s' := by
  obtain ⟨s₃, hcleared, hfree⟩ := free_eq_add hp (hsole _) (hsole _) (by omega)
  have hmax₃ := hcleared.same.max_eq
  have hcount₃ := hcleared.count_le
  obtain ⟨s₁, -, hins, hcases⟩ := @add_cases s₃ ⟨p.addr, p.size, .conv, false⟩ (fits_of_lt (by omega))
  have hden₁ : ∀ x, s₁.den x = if Holds p x then {(.conv, false)} else s.den x := fun x => by
    rw [hins.den_eq, hcleared.den_eq, part_range]
    split_ifs
    · rw [add_zero]
    · rw [zero_add]
  have hcov₁ : ∀ t r, 0 < r.size → (∀ x, Holds r x → ¬Holds p x) → s.Covers t r → s₁.Covers t r :=
    fun t r hr hrp h => hins.covers t r hr (hcleared.covers t r hr hrp h)
  have hmax₁ : s₁.max = s.max := hins.max_eq.trans hmax₃
  have hptr₁ : s₁.ptr = s.ptr := hins.ptr_eq.trans hcleared.same.ptr_eq
  rcases hcases with hok | ⟨hsparse, hshrink⟩
  · exact ⟨s₁, ⟨fun x _ => hden₁ x, by rw [hptr₁], fun t r hr hrp => hcov₁ t r hr fun x hx => (hrp x hx).1⟩,
      fun o _ => (hfree o).trans (hok o)⟩
  rcases hfew with rfl | hone
  · obtain ⟨s', hden, haddr, hcov, hrun⟩ := @shrink_tail s₁ (by omega) (hptr₁ ▸ haligned) (by rw [hptr₁, hmax₁, hsize])
      (fun x hx => by
        rw [hptr₁] at hx
        rw [hden₁, if_neg fun h => hapart x h hx, hused x hx])
      (fun x => by
        rw [Sole, hins.den_eq]
        exact hcleared.card_le hsole x) hsparse
    rw [hptr₁] at hden hcov
    refine ⟨s', ⟨fun x hx => (hden x hx).trans (hden₁ x), by rw [haddr, hptr₁], fun t r hr hrp h => ?_⟩,
      fun o ho => ?_⟩
    · exact hcov t r hr (fun x hx => (hrp x hx).2) (hcov₁ t r hr (fun x hx => (hrp x hx).1) h)
    · obtain ⟨o', ho'⟩ := ho rfl
      rw [hfree, hshrink, ho']
      exact hrun o'
  · -- a well filled table is not halved
    have hlow := hcleared.le_count
    have hlow₁ := hins.le_count
    rw [hmax₁] at hsparse
    omega

/-! ### `expand` -/

/-- The pending range is recorded afterwards as it was before, inside one free block if it was. -/
def AsAvailable (s s' : PhysAlloc) (p : OwnedPtr) : Prop :=
  (∀ ty, s.Covers (ty, false) p → s'.Covers (ty, false) p) ∧ ∀ x, Holds p x → s'.den x = s.den x

section Expand

variable (hsole : ∀ x, s.Sole x) (hbase : baseRbSize ≤ s.max) (hfull : s.max < s.count + minReq)
  (hp : 0 < p.size) (hptr : 0 < s.ptr.size) (hold : ∀ x, Holds s.ptr x → ∀ ty, (ty, false) ∉ s.den x)
  (hwhole : pg = .size4kiB ∨ s.Covers (.conv, true) s.ptr ∨ ∀ x, Holds s.ptr x → s.den x = 0)

include hsole hbase hfull hp hptr hold hwhole

/-- The exact `expand` with room to be found. -/
theorem expand_room (hroom : ∃ q, Room pg s p q) :
    ∃ q s₃ s', s.pick pg s.grownMax p = some q ∧ Room pg s p q ∧
      (∀ o, PhysAlloc.alloc pg o (s.extended q s.grownMax) ((tableParams pg s.grownMax).atAddr q.addr) =
        .ok (some q, s₃)) ∧
      (∀ o, Halves pg o → expand pg o s s.grownMax p = .ok (some (), s')) ∧ s'.ptr.addr = q.addr ∧
      (∀ ty, s.Covers (ty, false) p → s'.Covers (ty, false) p) ∧
      (AsAvailable s s' p ↔ ∀ x, Holds p x → ¬Holds s.ptr x) := by
  have hbase' : 128 ≤ s.max := hbase
  have hmin : minReq = 4 := rfl
  have hcount := s.count_le_max
  have hgrown : s.grownMax = 2 * s.max := grownMax_eq (le_trans (by decide) hbase)
  have hlt : s.max < s.grownMax := by omega
  obtain ⟨q, hpick⟩ := Option.ne_none_iff_exists'.mp fun hnone => (pick_eq_none_iff hp).mp hnone hroom
  have hroom := room_of_pick hpick
  obtain ⟨s₃, hmoved, halloc⟩ := moved_of_pick pg hbase hfull hpick fun x _ => hsole x
  have hmax₄ := hmoved.max_eq
  have hup := hmoved.count_le
  have hlow := hmoved.le_count
  have hexpand : ∀ o, expand pg o s s.grownMax p = (do
      let s' ← PhysAlloc.free o { s₃ with ptr := q } s.ptr
      .ok (some (), s')) := fun o => by
    rw [expand_of_pick_some pg o hlt hpick, halloc o]
    rfl
  have hclear : ∀ x, Holds s.ptr x → ¬Holds q x := fun x hx hx' => hold x hx _ (hroom.covers.mem_den hx')
  have hsole₄ : ∀ x, ({ s₃ with ptr := q } : PhysAlloc).Sole x := fun x => by
    by_cases hx : Holds q x
    · rw [Sole, hmoved.used_after x hx, Multiset.card_singleton]
    · rw [Sole, hmoved.den_eq x hx]
      exact hsole x
  have hfew : pg = .size4kiB ∨ ({ s₃ with ptr := q } : PhysAlloc).blocks.countP (overlaps s.ptr) ≤ 1 := by
    rcases hwhole with hpg | hcov | hout
    · exact Or.inl hpg
    · exact Or.inr ((hmoved.covers _ hptr hcov).countP_overlaps_le_one hptr fun x _ => hsole₄ x)
    · refine Or.inr ((countP_overlaps_eq_zero hptr fun x hx => ?_).le.trans (Nat.zero_le 1))
      rw [hmoved.den_eq x (hclear x hx), hout x hx]
  obtain ⟨s', hreleased, hfree⟩ := free_released (by rw [hmax₄, baseRbSize]; omega) hmoved.aligned hmoved.size_eq
    hmoved.used_after hsole₄ hptr hclear (by omega) (by rw [hmax₄, Nat.shiftRight_eq_div_pow]; omega) hfew
  have hden : ∀ x, Holds p x → s'.den x = if Holds s.ptr x then {(.conv, false)} else s.den x := by
    intro x hx
    have hq : ¬Holds q x := fun h => hroom.apart x h hx
    rw [hreleased.den_eq x hq, hmoved.den_eq x hq]
  have hcovers : ∀ ty, s.Covers (ty, false) p → s'.Covers (ty, false) p := by
    intro ty hcov
    have hout : ∀ x, Holds p x → ¬Holds s.ptr x ∧ ¬Holds q x := fun x hx =>
      ⟨fun h => hold x h ty (hcov.mem_den hx), fun h => hroom.apart x h hx⟩
    have hcov' : (s.extended q s.grownMax).Covers (ty, false) p := by
      obtain ⟨b, hb, hbp⟩ := hcov
      exact ⟨b, List.mem_append_left _ hb, hbp⟩
    have hcov₃ : s₃.Covers (ty, false) p := hcov'.alloc hp (fun x hx => (hout x hx).2)
      (by rw [extended_count, extended_max q hlt.le]; omega) (halloc still)
    exact hreleased.covers _ p hp hout hcov₃
  refine ⟨q, s₃, s', hpick, hroom, halloc, fun o ho => ?_, hreleased.addr_eq, hcovers, fun h x hx hx' => ?_,
    fun h => ⟨hcovers, ?_⟩⟩
  · rw [hexpand o, hfree o ho]
    rfl
  · have heq := (h.2 x hx).symm.trans (hden x hx)
    rw [if_pos hx'] at heq
    exact hold x hx' _ (heq ▸ Multiset.mem_singleton_self _)
  · intro x hx
    rw [hden x hx, if_neg (h x hx)]

omit hsole hptr hold hwhole hfull in
theorem expand_no_room (hroom : ¬∃ q, Room pg s p q) (o : TableOps) : expand pg o s s.grownMax p = .ok (none, s) := by
  have hbase' : 128 ≤ s.max := hbase
  have hgrown : s.grownMax = 2 * s.max := grownMax_eq (le_trans (by decide) hbase)
  exact expand_of_pick_none pg o (by omega) ((pick_eq_none_iff hp).mpr hroom)

end Expand

section Words

variable {π : Profile}

theorem keeps_stop (σ : Seal) : Keeps σ PhysWord.stop :=
  ⟨fun _ _ hrun => (by cases hrun), fun _ hrun => (by cases hrun)⟩

theorem word_expand (hs : PhysWord.Ready π s) (hfull : s.max < s.count + minReq) (hpend : p.fin + 2 ^ 16 ≤ 2 ^ 64)
    {r : Option Unit × PhysAlloc} (hexpand : ∀ o, Halves pg o → expand pg o s s.grownMax p = .ok r) (n : Nat) :
    PhysWord.expand π (PhysWord.tableOps π pg (n + 1)) pg s s.grownMax p = .ok r := by
  by_cases hpg : pg = .size4kiB
  · subst hpg
    rw [← hexpand (tableOps .size4kiB (n + 1)) fun _ => ⟨_, rfl⟩]
    exact (PhysWord.expand_follows False.elim (PhysWord.tableOps_follow False.elim _) (fun _ => keeps_tableOps _ _)
      (fun _ => hs) hfull fun _ => hpend).eq id
  · have hstop : PhysWord.expand π PhysWord.stop pg s s.grownMax p = expand pg PhysWord.stop s s.grownMax p :=
      (PhysWord.expand_follows False.elim (.refl π False PhysWord.stop) (fun _ => keeps_stop _) (fun _ => hs) hfull
        fun _ => hpend).eq id
    exact (PhysWord.expand_below (PhysWord.stop_below _) s s.grownMax p).ok
      (hstop.trans (hexpand _ fun h => absurd h hpg))

theorem word_alloc {args : AllocParams} (hs : Sealed (PhysWord.inWord π) s) (hfits : PhysWord.Fits pg args)
    {r : Option OwnedPtr × PhysAlloc} (halloc : ∀ o, PhysAlloc.alloc pg o s args = .ok r) (w : TableOps) :
    PhysWord.alloc π w pg s args = .ok r := by
  have hstop := (PhysWord.alloc_follows False.elim (.refl π False PhysWord.stop) (fun _ => keeps_stop _)
    (fun _ => hs) fun _ => hfits).eq id
  exact (PhysWord.alloc_below (PhysWord.stop_below w) s args).ok (hstop.trans (halloc _))

end Words

/-- A full table while `add` is about to put in the block that holds its storage. -/
def adrift : PhysAlloc where
  ptr := ⟨0x102000, 0x1000⟩
  blocks := [⟨0x100000, 0x1000, .conv, true⟩, ⟨0x300000, 0x100000, .conv, false⟩] ++
    ((List.range 126).map fun i => ⟨0x10000000 + i * 0x2000, 0x1000, .reserved, false⟩)
  isInit := true

/-- A full table with free memory from address zero on. -/
def grounded : PhysAlloc where
  ptr := ⟨0x102000, 0x1000⟩
  blocks := [⟨0, 0x100000, .conv, false⟩, ⟨0x102000, 0x1000, .conv, true⟩] ++
    ((List.range 126).map fun i => ⟨0x10000000 + i * 0x2000, 0x1000, .reserved, false⟩)
  isInit := true

end PhysAlloc

end UnixKernel
