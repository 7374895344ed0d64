import UnixKernel.PhysBlocks

/-! `reclaim`. Every round takes one boot-time block out of the table and adds its range as free memory. The block's
own slot is vacant at that moment, so the table never has to grow; it may shrink, which moves the other blocks
around but takes nothing of boot-time memory away. So the number of boot-time blocks falls by one in each round,
and the loop ends with the memory map in which every boot-time address is free. -/

namespace UnixKernel

open Slots Segments

namespace PhysAlloc

variable {s s' : PhysAlloc} {nb : RAMBlock}

/-- The number of blocks that are left to reclaim. -/
def reclaimables (s : PhysAlloc) : Nat := s.valids.countP fun b => b.ty = .reclaimable

theorem reclaimables_le (s : PhysAlloc) : s.reclaimables ≤ s.max :=
  (Multiset.countP_le_card _ _).trans ((card_valids s).le.trans (count_le_max s))

theorem Joined.reclaimables_eq {m : RAMBlock} {near rest : Multiset RAMBlock} (h : Joined s s' nb m near rest)
    (hty : nb.ty ≠ .reclaimable) : s'.reclaimables = s.reclaimables := by
  have hm : m.ty ≠ .reclaimable := by
    rw [(Prod.mk.inj h.tag_eq).1]
    exact hty
  have hnear : near.countP (fun b => b.ty = .reclaimable) = 0 := by
    refine Multiset.countP_eq_zero.mpr fun b hb => ?_
    rw [(Prod.mk.inj (h.near_tag b hb)).1]
    exact hty
  rw [reclaimables, reclaimables, h.before, h.after, Multiset.countP_add, hnear, zero_add]
  exact Multiset.countP_cons_of_neg rest hm

theorem add_reclaimables (hty : 0 < nb.size → nb.ty ≠ .reclaimable) (h : add still s nb = .ok s') :
    s'.reclaimables = s.reclaimables := by
  rcases Nat.eq_zero_or_pos nb.size with hzero | hnb
  · rw [add_of_size_eq_zero still hzero] at h
    cases h
    rfl
  · obtain ⟨m, near, rest, hjoined⟩ := joined_of_add hnb h
    exact hjoined.reclaimables_eq (hty hnb)

/-- `free` of a range that meets no boot-time block. -/
theorem free_reclaimables {p : OwnedPtr} (hty : ∀ b ∈ s.blocks, overlaps p b = true → b.ty ≠ .reclaimable)
    (h : free still s p = .ok s') : s'.reclaimables = s.reclaimables := by
  have hclear : (s.clearRange p).reclaimables = s.reclaimables := by
    rw [reclaimables, reclaimables, valids_clearRange, Multiset.countP_filter]
    refine Multiset.countP_congr rfl fun b hb => ?_
    rw [eq_iff_iff]
    exact and_iff_left_of_imp fun hrec hover => hty b (mem_valids.mp hb).1 hover hrec
  obtain ⟨before, after, s₁, s₂, hbefore, hafter, h, hparts⟩ := free_eq_ok h
  have hpiece : ∀ {c : Option RAMBlock} {s₁ s₂ : PhysAlloc}, (∀ d ∈ c, d ∈ before ∨ d ∈ after) →
      addSome still s₁ c = .ok s₂ → s₂.reclaimables = s₁.reclaimables := by
    intro c s₁ s₂ hc hadd
    cases c with
    | none =>
        cases hadd
        rfl
    | some d =>
        obtain ⟨b, hb, hover, htag, -⟩ := hparts d (hc d rfl)
        refine add_reclaimables (fun _ => ?_) hadd
        rw [(Prod.mk.inj htag).1]
        exact hty b hb hover
  calc s'.reclaimables = s₂.reclaimables := add_reclaimables (fun _ => by simp) h
    _ = s₁.reclaimables := hpiece (fun _ => Or.inr) hafter
    _ = (s.clearRange p).reclaimables := hpiece (fun _ => Or.inl) hbefore
    _ = s.reclaimables := hclear

/-- The memory that a table gives back is not boot-time memory. -/
theorem shrink_reclaimables (hok : TableOk .size4kiB s) {newMax : Nat} (hbase : baseRbSize ≤ newMax)
    (h : shrink .size4kiB still s newMax = .ok s') : s'.reclaimables = s.reclaimables := by
  rw [shrink_eq_shrinkTo] at h
  by_cases hskip : s.max ≤ newMax ∨ newMax < s.count ∨ newMax < minReq
  · rw [shrinkTo_of_refused hskip] at h
    cases h
    rfl
  simp only [not_or, not_le, not_lt] at hskip
  obtain ⟨cut, whole, hcut, hwhole, -, -, -, -, hto⟩ :=
    shrinkTo_of_accepted .size4kiB hskip.1 hskip.2.1 hskip.2.2
  rw [alignUp_of_dvd (Nat.dvd_add hok.aligned (dvd_tableBytes hbase))] at hto
  rw [hto] at h
  split_ifs at h with hshort hnothing
  · cases h
  · cases h
    rw [reclaimables, hwhole, reclaimables]
  · rw [free_reclaimables (s := cut) (fun b hb hover hty => ?_) h, reclaimables, hcut, reclaimables]
    -- an address of the block in the tail is used by the table
    obtain ⟨hsize, hlo, hhi⟩ := overlaps_iff.mp hover
    simp only [OwnedPtr.fin] at hlo
    have hmem : b ∈ s.valids := hcut ▸ mem_valids.mpr ⟨hb, hsize⟩
    obtain ⟨x, hx, hxptr⟩ : ∃ x, Holds b x ∧ Holds s.ptr x := by
      simp only [RAMBlock.holds_iff, OwnedPtr.holds_iff]
      simp only [RAMBlock.fin] at hhi
      rcases Nat.le_total b.addr (s.ptr.addr + tableBytes .size4kiB newMax) with hle | hle
      · exact ⟨s.ptr.addr + tableBytes .size4kiB newMax, by omega, by omega⟩
      · exact ⟨b.addr, by omega, by omega⟩
    have htag := tag_mem_den hmem hx
    rw [den_valids, hok.used x hxptr, Multiset.mem_singleton] at htag
    rw [show b.ty = .conv from congrArg Prod.fst htag] at hty
    cases hty

/-! ### One round -/

/-- What becomes of the type and the flag of an address. -/
def reclaimed (t : Tag) : Tag := if t.1 = .reclaimable then (.conv, false) else t

/-- The loop's invariant between `s` and a later state: the memory map, once the rest is reclaimed, is the same. -/
structure Reclaims (s s' : PhysAlloc) : Prop where
  tableOk : TableOk .size4kiB s'
  view_eq : ∀ x, (s'.view x).map reclaimed = (s.view x).map reclaimed
  isInit_eq : s'.isInit = s.isInit
  addr_eq : s'.ptr.addr = s.ptr.addr
  size_le : s'.ptr.size ≤ s.ptr.size

theorem Reclaims.trans {s'' : PhysAlloc} (h : Reclaims s s') (h' : Reclaims s' s'') : Reclaims s s'' where
  tableOk := h'.tableOk
  view_eq x := (h'.view_eq x).trans (h.view_eq x)
  isInit_eq := h'.isInit_eq.trans h.isInit_eq
  addr_eq := h'.addr_eq.trans h.addr_eq
  size_le := h'.size_le.trans h.size_le

/-- `add` under real operations that cannot grow the table, for the blocks left to reclaim. -/
theorem add_spec_reclaimables (hok : TableOk .size4kiB s) (hfits : s.Fits nb)
    (hclear : ∀ x, Holds nb x → ¬Holds s.ptr x) (hty : 0 < nb.size → nb.ty ≠ .reclaimable)
    (h : add ⟨fun _ _ _ => throw .panic, shrink .size4kiB still⟩ s nb = .ok s') :
    s'.reclaimables = s.reclaimables := by
  obtain ⟨s₁, hstill, hins, hadd⟩ := add_cases hfits
  have heq := add_reclaimables hty hstill
  rcases hadd with hok' | ⟨-, hshrink⟩
  · rw [hok'] at h
    cases h
    exact heq
  · rw [hshrink] at h
    exact (shrink_reclaimables (hins.tableOk hok hclear) (Nat.le_max_right _ _) h).trans heq

/-- One round: the block that was found becomes free memory. -/
theorem reclaim_round (hok : TableOk .size4kiB s) {i : Nat} {b : RAMBlock}
    (hfind : (s.find fun blk => blk.ty = .reclaimable) = some (i, b)) :
    ∃ s', Reclaims s s' ∧ s'.reclaimables + 1 = s.reclaimables ∧ ∀ expand o,
      add ⟨expand, shrink .size4kiB o⟩ (s.setSlot i b.invalidate) ⟨b.addr, b.size, .conv, false⟩ = .ok s' := by
  obtain ⟨hget, hsize, hty⟩ := find_eq_some hfind
  rw [decide_eq_true_eq] at hty
  have hvalids := valids_invalidate hget hsize
  have hden : ∀ x, (s.setSlot i b.invalidate).den x + part b x = s.den x := fun x => by
    rw [setSlot_den hget, RAMBlock.part_invalidate, add_zero]
  have hclear : ∀ x, Holds b x → ¬Holds s.ptr x := by
    intro x hx hptr
    have hmem := tag_mem_den (mem_valids.mpr ⟨List.mem_of_getElem? hget, hsize⟩) hx
    rw [den_valids, hok.used x hptr, Multiset.mem_singleton] at hmem
    rw [show b.ty = .conv from congrArg Prod.fst hmem] at hty
    cases hty
  have hok₀ : TableOk .size4kiB (s.setSlot i b.invalidate) := by
    refine hok.of_den (sameTable_setSlot _ _ _) fun x hx => ?_
    rw [← hden x, part_neg fun hb => hclear x hb hx, add_zero]
  have hcount : (s.setSlot i b.invalidate).count + 1 = s.count := by
    rw [← card_valids, ← card_valids, hvalids, Multiset.card_cons]
  have hroom : (s.setSlot i b.invalidate).count < (s.setSlot i b.invalidate).max := by
    rw [setSlot_max]
    have := count_le_max s
    omega
  obtain ⟨s', hok', hview, hinit, haddr, hle, -, hadd⟩ :=
    @add_spec _ ⟨b.addr, b.size, .conv, false⟩ hok₀ (fits_of_lt hroom) hclear
  refine ⟨s', ⟨hok', fun x => ?_, hinit, haddr, hle⟩, ?_, fun expand o => hadd _ o rfl⟩
  · have hview₀ : (s.setSlot i b.invalidate).view x + part b x = s.view x := by
      by_cases hx : Holds s.ptr x
      · rw [view_of_holds hx, view_of_holds (s := s.setSlot i b.invalidate) hx, part_neg fun hb => hclear x hb hx,
          add_zero]
      · rw [view_of_not_holds hx, view_of_not_holds (s := s.setSlot i b.invalidate) hx, hden x]
    have hpart : (part (⟨b.addr, b.size, .conv, false⟩ : RAMBlock) x).map reclaimed = (part b x).map reclaimed := by
      by_cases hx : Holds b x
      · have hx' : Holds (⟨b.addr, b.size, .conv, false⟩ : RAMBlock) x := hx
        rw [part_pos hx, part_pos hx', Multiset.map_singleton, Multiset.map_singleton]
        exact congrArg _ (if_pos hty).symm
      · have hx' : ¬Holds (⟨b.addr, b.size, .conv, false⟩ : RAMBlock) x := hx
        rw [part_neg hx, part_neg hx']
    rw [hview x, ← hview₀, Multiset.map_add, Multiset.map_add, hpart, add_comm]
  · have heq := @add_spec_reclaimables _ s' ⟨b.addr, b.size, .conv, false⟩ hok₀ (fits_of_lt hroom) hclear
      (fun _ => by simp) (hadd _ still rfl)
    rw [heq, reclaimables, reclaimables, hvalids]
    exact (@Multiset.countP_cons_of_pos _ (fun c : RAMBlock => c.ty = .reclaimable) _ b _ hty).symm

/-! ### The loop -/

theorem reclaimLoop_spec (fuel : Nat) : ∀ s : PhysAlloc, TableOk .size4kiB s → s.reclaimables < fuel →
    ∃ s', Reclaims s s' ∧ (∀ b ∈ s'.blocks, 0 < b.size → b.ty ≠ .reclaimable) ∧ ∀ expand o,
      reclaimLoop ⟨expand, shrink .size4kiB o⟩ fuel s = .ok s' := by
  induction fuel with
  | zero => exact fun s _ hlt => absurd hlt (Nat.not_lt_zero _)
  | succ fuel ih =>
      intro s hok hlt
      cases hfind : s.find fun blk => blk.ty = .reclaimable with
      | none =>
          refine ⟨s, ⟨hok, fun _ => rfl, rfl, rfl, le_refl _⟩, fun b hb hsize => ?_, fun expand o => ?_⟩
          · exact of_decide_eq_false (find_eq_none hfind b hb hsize)
          · rw [reclaimLoop, hfind]
            rfl
      | some r =>
          obtain ⟨i, b⟩ := r
          obtain ⟨s₁, hround, hless, hadd⟩ := reclaim_round hok hfind
          obtain ⟨s', hrest, hnone, hloop⟩ := ih s₁ hround.tableOk (by omega)
          refine ⟨s', hround.trans hrest, hnone, fun expand o => ?_⟩
          rw [reclaimLoop, hfind]
          exact bind_eq_ok.mpr ⟨s₁, hadd expand o, hloop expand o⟩

/-- A table with two boot-time blocks that border on free memory. -/
def booting : PhysAlloc where
  ptr := ⟨0x102000, 0x1000⟩
  blocks := [⟨0x102000, 0x1000, .conv, true⟩, ⟨0x200000, 0x3000, .reclaimable, false⟩,
    ⟨0x203000, 0x100000, .conv, false⟩, ⟨0x303000, 0x1000, .reclaimable, true⟩] ++
    List.replicate 124 RAMBlock.newInvalid
  isInit := true

theorem booting_wellFormed : WellFormed .size4kiB booting :=
  wellFormed_of_mem (b := ⟨0x102000, 0x1000, .conv, true⟩)
    ⟨⟨0, by decide +kernel⟩, by decide, by decide +kernel⟩ (by decide +kernel) (by decide +kernel) rfl
    (by decide) (by decide) rfl

end PhysAlloc

end UnixKernel
