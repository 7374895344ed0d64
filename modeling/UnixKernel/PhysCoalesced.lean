import UnixKernel.PhysBlocks
import UnixKernel.PhysDepth
import UnixKernel.PhysRun
import UnixKernel.Runs

/-! Tables without adjacent twins. In a coalesced table no two valid blocks with one tag touch each other, so a
stretch of addresses with one tag lies in a single block, and the table's map determines its blocks. Every
insertion into a table with a vacant slot keeps the table coalesced, and taking blocks out or putting them in
order does so anyway; what does not is an insertion that first grows the table (`add` with no vacant slot), which
the calls below do not come to. So `alloc` and `free` keep it, `alloc` never overlooks a free range, and `free`
undoes `alloc`. -/

namespace UnixKernel

open Slots Segments

namespace PhysAlloc

variable {pg : BPage} {s s' : PhysAlloc} {nb : RAMBlock} {o : TableOps}

/-- No two valid blocks with one type and one flag are adjacent. -/
def Coalesced (s : PhysAlloc) : Prop :=
  ∀ b ∈ s.blocks, ∀ c ∈ s.blocks, b.valid → c.valid → (b.ty, b.used) = (c.ty, c.used) → b.fin ≠ c.addr

instance (s : PhysAlloc) : Decidable s.Coalesced :=
  inferInstanceAs (Decidable (∀ b ∈ s.blocks, ∀ c ∈ s.blocks, _))

theorem coalesced_iff : s.Coalesced ↔ Segments.Coalesced s.valids := by
  constructor
  · intro h b hb c hc _ _ htag
    rw [mem_valids] at hb hc
    exact h b hb.1 c hc.1 (RAMBlock.valid_iff.mpr hb.2) (RAMBlock.valid_iff.mpr hc.2) htag
  · intro h b hb c hc hbv hcv htag
    rw [RAMBlock.valid_iff] at hbv hcv
    exact h b (mem_valids.mpr ⟨hb, hbv⟩) c (mem_valids.mpr ⟨hc, hcv⟩) (Nat.lt_add_of_pos_right hbv)
      (Nat.lt_add_of_pos_right hcv) htag

theorem Coalesced.of_valids (h : s.Coalesced) (hsub : ∀ b ∈ s'.valids, b ∈ s.valids) : s'.Coalesced := by
  rw [coalesced_iff] at h ⊢
  exact fun b hb c hc => h b (hsub b hb) c (hsub c hc)

/-! ### Insertion -/

theorem Joined.coalesced {m : RAMBlock} {near rest : Multiset RAMBlock} (h : Joined s s' nb m near rest)
    (hco : s.Coalesced) : s'.Coalesced := by
  rw [coalesced_iff] at hco ⊢
  have hnear : ∀ b ∈ near, b ∈ s.valids := fun b hb => h.before ▸ Multiset.mem_add.mpr (Or.inl hb)
  have hrest : ∀ b ∈ rest, b ∈ s.valids := fun b hb => h.before ▸ Multiset.mem_add.mpr (Or.inr hb)
  -- a block in front of the joined one would touch `nb` itself or a block that it was joined with
  have hleft : ∀ c ∈ rest, (c.ty, c.used) = (m.ty, m.used) → c.fin ≠ m.addr := by
    intro c hc htag hfin
    have hcm := hrest c hc
    have hsize := (mem_valids.mp hcm).2
    rcases h.left with ⟨haddr, hno⟩ | ⟨b, hb, haddr⟩
    · exact hno ⟨c, (mem_valids.mp hcm).1, hsize, htag.trans h.tag_eq, hfin.trans haddr⟩
    · have hbm := hnear b hb
      exact hco c hcm b hbm (Nat.lt_add_of_pos_right hsize) (Nat.lt_add_of_pos_right (mem_valids.mp hbm).2)
        ((htag.trans h.tag_eq).trans (h.near_tag b hb).symm) (hfin.trans haddr.symm)
  have hright : ∀ c ∈ rest, (m.ty, m.used) = (c.ty, c.used) → m.fin ≠ c.addr := by
    intro c hc htag hfin
    have hcm := hrest c hc
    have hsize := (mem_valids.mp hcm).2
    rcases h.right with ⟨hend, hno⟩ | ⟨b, hb, hend⟩
    · exact hno ⟨c, (mem_valids.mp hcm).1, hsize, htag.symm.trans h.tag_eq, hend.symm.trans hfin⟩
    · have hbm := hnear b hb
      exact hco b hbm c hcm (Nat.lt_add_of_pos_right (mem_valids.mp hbm).2) (Nat.lt_add_of_pos_right hsize)
        ((h.near_tag b hb).trans (h.tag_eq.symm.trans htag)) (hend.trans hfin)
  intro b hb c hc hbsize hcsize htag
  rw [h.after, Multiset.mem_cons] at hb hc
  rcases hb with rfl | hb <;> rcases hc with rfl | hc
  · exact fun heq => absurd heq (Nat.ne_of_gt hbsize)
  · exact hright c hc htag
  · exact hleft b hb htag
  · exact hco b (hrest b hb) c (hrest c hc) hbsize hcsize htag

/-- Operations that cannot grow a table and that keep it coalesced when they shrink it. -/
structure Stays (o : TableOps) : Prop where
  expand : ∀ s newMax p, o.expand s newMax p = .error .panic
  shrink : ∀ {s s' : PhysAlloc} {newMax : Nat}, s.Coalesced → o.shrink s newMax = .ok s' → s'.Coalesced

theorem stays_still : Stays still :=
  ⟨fun _ _ _ => rfl, fun h hrun => by cases hrun; exact h⟩

theorem Coalesced.add_still (h : s.Coalesced) (hadd : add still s nb = .ok s') : s'.Coalesced := by
  rcases Nat.eq_zero_or_pos nb.size with hzero | hnb
  · rw [add_of_size_eq_zero still hzero] at hadd
    cases hadd
    exact h
  · obtain ⟨m, near, rest, hjoined⟩ := joined_of_add hnb hadd
    exact hjoined.coalesced h

theorem Coalesced.add (h : s.Coalesced) (ho : Stays o) (hadd : add o s nb = .ok s') : s'.Coalesced := by
  by_cases hfits : s.Fits nb
  · obtain ⟨s₁, hstill, -, hcases⟩ := add_cases hfits
    have h₁ := h.add_still hstill
    rcases hcases with hok | ⟨-, hshrink⟩
    · rw [hok] at hadd
      cases hadd
      exact h₁
    · rw [hshrink] at hadd
      exact ho.shrink h₁ hadd
  · obtain ⟨hnb, hbefore, hafter, hfull⟩ := not_fits hfits
    rw [add_of_none_full o hnb hbefore hafter hfull, ho.expand] at hadd
    cases hadd

/-! ### The operations -/

theorem Coalesced.addSome (h : s.Coalesced) (ho : Stays o) {b : Option RAMBlock}
    (hrun : addSome o s b = .ok s') : s'.Coalesced := by
  cases b with
  | none =>
      cases hrun
      exact h
  | some b => exact h.add ho hrun

theorem Coalesced.free (h : s.Coalesced) (ho : Stays o) {p : OwnedPtr} (hrun : free o s p = .ok s') :
    s'.Coalesced := by
  obtain ⟨before, after, s₁, s₂, hbefore, hafter, hrun, -⟩ := free_eq_ok hrun
  have h₀ : (s.clearRange p).Coalesced := h.of_valids fun b hb => by
    rw [valids_clearRange] at hb
    exact Multiset.mem_of_mem_filter hb
  exact ((h₀.addSome ho hbefore).addSome ho hafter).add ho hrun

theorem Coalesced.carve (h : s.Coalesced) (ho : Stays o) {args : AllocParams} {ptr : OwnedPtr}
    {r : Option OwnedPtr} (hrun : carve o s args ptr = .ok (r, s')) : s'.Coalesced := by
  rcases carve_eq_ok hrun with ⟨-, rfl⟩ | ⟨i, block, s₁, s₂, hget, hsize, -, -, -, -, hbefore, hafter, hnew, -⟩
  · exact h
  have h₀ : (s.setSlot i block.invalidate).Coalesced := h.of_valids fun b hb => by
    rw [valids_invalidate hget hsize]
    exact Multiset.mem_cons_of_mem hb
  exact ((h₀.add ho hbefore).add ho hafter).add ho hnew

theorem Coalesced.alloc (h : s.Coalesced) (ho : Stays o) {args : AllocParams} {r : Option OwnedPtr}
    (hrun : alloc pg o s args = .ok (r, s')) : s'.Coalesced := by
  rcases alloc_cases pg s args with hnone | ⟨hram, ptr, hreq⟩
  · rw [hnone o] at hrun
    cases hrun
    exact h
  · rw [alloc_of_requested pg o hram hreq, ho.expand] at hrun
    split_ifs at hrun
    · cases hrun
    · exact h.carve ho hrun

theorem Coalesced.shrink (h : s.Coalesced) (ho : Stays o) {newMax : Nat}
    (hrun : shrink pg o s newMax = .ok s') : s'.Coalesced := by
  rw [shrink_eq_shrinkTo] at hrun
  by_cases hskip : s.max ≤ newMax ∨ newMax < s.count ∨ newMax < minReq
  · rw [shrinkTo_of_refused hskip] at hrun
    cases hrun
    exact h
  simp only [not_or, not_le, not_lt] at hskip
  obtain ⟨cut, whole, hcut, hwhole, -, -, -, -, hto⟩ := shrinkTo_of_accepted pg hskip.1 hskip.2.1 hskip.2.2
  rw [hto] at hrun
  split_ifs at hrun with hshort hnothing
  · cases hrun
  · cases hrun
    exact h.of_valids fun b hb => hwhole ▸ hb
  · exact (h.of_valids fun b hb => hcut ▸ hb).free ho hrun

theorem valids_extended (s : PhysAlloc) (ptr : OwnedPtr) (newMax : Nat) :
    (s.extended ptr newMax).valids = s.valids := by
  have hvacant : (List.replicate (newMax - s.max) RAMBlock.newInvalid).filter RAMBlock.valid = [] := by
    refine List.filter_eq_nil_iff.mpr fun b hb => ?_
    rw [List.eq_of_mem_replicate hb]
    decide
  rw [valids, extended, List.filter_append, hvacant, List.append_nil, valids]

theorem Coalesced.expand (h : s.Coalesced) (ho : Stays o) {newMax : Nat} {p : OwnedPtr} {r : Option Unit}
    (hrun : expand pg o s newMax p = .ok (r, s')) : s'.Coalesced := by
  rw [PhysAlloc.expand] at hrun
  split_ifs at hrun with hle
  · cases hrun
    exact h
  simp only at hrun
  split at hrun
  · cases hrun
    exact h
  · obtain ⟨⟨q, s₁⟩, halloc, hrun⟩ := bind_eq_ok.mp hrun
    have h₁ : s₁.Coalesced := (h.of_valids fun b hb => valids_extended s _ _ ▸ hb).alloc ho halloc
    cases q with
    | none => cases hrun
    | some q =>
        obtain ⟨s₂, hfree, hrun⟩ := bind_eq_ok.mp hrun
        cases hrun
        exact Coalesced.free (s := { s₁ with ptr := q }) h₁ ho hfree

variable (pg) in
/-- A table that may shrink, but not twice in a call. -/
def once : TableOps := ⟨fun _ _ _ => .error .panic, PhysAlloc.shrink pg still⟩

variable (pg) in
theorem stays_once : Stays (once pg) := ⟨fun _ _ _ => rfl, fun h hrun => h.shrink stays_still hrun⟩

/-! ### Calls on a table with 4 KiB pages -/

/-- `alloc` keeps a table coalesced, also when it grows or shrinks it on the way. -/
theorem Coalesced.alloc_real (h : s.Coalesced) (hwf : WellFormed .size4kiB s) {n : Nat} {args : AllocParams}
    {r : Option OwnedPtr} (hrun : PhysAlloc.alloc .size4kiB (tableOps .size4kiB (n + 2)) s args = .ok (r, s')) :
    s'.Coalesced := by
  have hok := hwf.tableOk
  have hsole := hwf.sole
  have hsize : ∀ {p}, s.requested .size4kiB (args.build .size4kiB) = some p → 0 < p.size := fun hreq => by
    rw [requested_size hreq]
    exact sizeAlign_pos _ _
  -- the range is cut under operations that cannot grow the table
  have hcarve : ∀ {s₁ : PhysAlloc} {p : OwnedPtr}, s₁.Coalesced → Prepared .size4kiB s p s₁ →
      s.requested .size4kiB (args.build .size4kiB) = some p →
      PhysAlloc.carve (tableOps .size4kiB (n + 2)) s₁ (args.build .size4kiB) p = .ok (r, s') → s'.Coalesced := by
    intro s₁ p h₁ hprep hreq hrun
    rcases carve_spec (args.build .size4kiB) (hprep.tableOk hok) (Or.inl rfl) (Or.inl rfl)
      (hprep.sole hok hsole) (hsize hreq) hprep.room with hnone | ⟨s₂, -, hsome⟩
    · rw [hnone] at hrun
      cases hrun
      exact h₁
    · rw [hsome _ (tableOps .size4kiB (n + 1)) rfl] at hrun
      cases hrun
      exact h₁.carve (stays_once .size4kiB) (hsome _ still rfl)
  rcases alloc_cases .size4kiB s args with hnone | ⟨hram, p, hreq⟩
  · rw [hnone] at hrun
    cases hrun
    exact h
  rw [alloc_of_requested .size4kiB _ hram hreq] at hrun
  split_ifs at hrun with hfull
  · rcases @expand_spec .size4kiB s p hok (Or.inl rfl) (fun _ _ _ _ x _ => hsole x) hfull with
      hnone | ⟨s₁, hgrown, hexpand⟩
    · have heq : (tableOps .size4kiB (n + 2)).expand s s.grownMax p = .ok (none, s) := hnone _
      rw [heq] at hrun
      cases hrun
      exact h
    · have heq : (tableOps .size4kiB (n + 2)).expand s s.grownMax p = .ok (some (), s₁) :=
        hexpand (tableOps .size4kiB (n + 1)) (tableOps .size4kiB n) rfl
      rw [heq] at hrun
      exact hcarve (h.expand (stays_once .size4kiB) (hexpand _ still rfl)) (.grown hfull hgrown) hreq hrun
  · exact hcarve h (.same (by omega)) hreq hrun

theorem Coalesced.not_hasBefore (h : s.Coalesced) {p : OwnedPtr} {b : RAMBlock} (hb : b ∈ s.blocks) (hsize : 0 < b.size)
    (size : Nat) : ¬(s.clearRange p).HasBefore ⟨b.addr, size, b.ty, b.used⟩ := by
  rintro ⟨c, hc, hcsize, htag, hcfin⟩
  have hmem := mem_valids.mpr ⟨hc, hcsize⟩
  rw [valids_clearRange] at hmem
  exact h c (mem_valids.mp (Multiset.mem_of_mem_filter hmem)).1 b hb (RAMBlock.valid_iff.mpr hcsize)
    (RAMBlock.valid_iff.mpr hsize) htag hcfin

/-- The tag of a block does not go on behind it. -/
theorem Coalesced.tag_notMem_fin (h : s.Coalesced) (hsole : ∀ x, s.Sole x) {b : RAMBlock} (hb : b ∈ s.blocks)
    (hsize : 0 < b.size) : (b.ty, b.used) ∉ s.den b.fin := by
  intro hmem
  obtain ⟨c, hc, ⟨hclo, hchi⟩, htag⟩ := mem_den.mp hmem
  have hcs := Multiset.mem_coe.mp hc
  have hcsize : 0 < c.size := by
    simp only [Ranged.lo, Ranged.hi, RAMBlock.fin] at hclo hchi
    omega
  refine h b hb c hcs (RAMBlock.valid_iff.mpr hsize) (RAMBlock.valid_iff.mpr hcsize) htag.symm (le_antisymm ?_ hclo)
  by_contra hlt
  have heq := (hsole (b.fin - 1)).eq_of_holds hb hcs
    (by rw [RAMBlock.holds_iff]; simp only [RAMBlock.fin]; omega)
    (by rw [RAMBlock.holds_iff]; simp only [Ranged.lo, Ranged.hi, RAMBlock.fin] at *; omega)
  subst heq
  exact absurd hchi (lt_irrefl _)

theorem free_empty_between {p : OwnedPtr} (hp : p.size = 0) (hnone : ∀ b ∈ s.blocks, overlaps p b = false)
    (o : TableOps) :
    PhysAlloc.free o s p = .ok s := by
  have hclear : s.clearRange p = s := by
    have hid : s.blocks.map (fun b => if overlaps p b then b.invalidate else b) = s.blocks :=
      (List.map_congr_left fun b hb => if_neg (by simp [hnone b hb])).trans (List.map_id' _)
    rw [clearRange, hid]
  have hlast : ∀ f : RAMBlock → Bool, last? (fun b => overlaps p b && f b) s.blocks = none := fun f =>
    last?_eq_none.mpr fun b hb => by rw [hnone b hb, Bool.false_and]
  rw [PhysAlloc.free, hlast, hlast, hclear]
  exact add_of_size_eq_zero o hp

/-- An empty range in a block cuts it, and the two parts are joined again. -/
theorem free_empty_inside (h : s.Coalesced) (hsole : ∀ x, s.Sole x) (hroom : s.count < s.max) {p : OwnedPtr}
    (hp : p.size = 0) {b : RAMBlock} (hb : b ∈ s.blocks) (hover : overlaps p b = true) :
    ∃ s', SameTable s s' ∧ (∀ x, s'.den x = s.den x) ∧ ∀ o, PhysAlloc.free o s p = .ok s' := by
  have hfin : p.fin = p.addr := by rw [OwnedPtr.fin, hp, Nat.add_zero]
  obtain ⟨hsize, hlo, hhi⟩ := overlaps_iff.mp hover
  rw [hfin] at hlo
  have hbx : Holds b p.addr := ⟨Nat.le_of_lt hlo, hhi⟩
  have honly : ∀ c ∈ s.blocks, overlaps p c = true → c = b := fun c hc hcover => by
    obtain ⟨-, hclo, hchi⟩ := overlaps_iff.mp hcover
    rw [hfin] at hclo
    exact (hsole p.addr).eq_of_holds hc hb ⟨Nat.le_of_lt hclo, hchi⟩ hbx
  have hlast : ∀ f : RAMBlock → Bool, f b = true → ∃ i, last? (fun c => overlaps p c && f c) s.blocks = some (i, b) :=
    fun f hf => last?_of_sole hb (by rw [hover, hf]; rfl) fun c hc hboth =>
      honly c hc ((Bool.and_eq_true _ _).mp hboth).1
  obtain ⟨i, hbefore⟩ := hlast (fun c => c.addr < p.addr) (by simpa using hlo)
  obtain ⟨j, hafter⟩ := hlast (fun c => p.fin < c.fin) (by rw [hfin]; simpa using hhi)
  have hden₀ : ∀ x, (s.clearRange p).den x + part b x = s.den x := fun x =>
    clearRange_den_of_mem hb hover (hsole p.addr) hbx fun c hc hcover _ => by
      rw [honly c hc hcover]
      exact hbx
  have hcount₀ := clearRange_count s p
  have hpos : 0 < s.blocks.countP (overlaps p) := List.countP_pos_iff.mpr ⟨b, hb, hover⟩
  obtain ⟨s₁, hins₁, -, hadd₁⟩ := @add_ok (s.clearRange p) ⟨b.addr, p.addr - b.addr, b.ty, b.used⟩
    (fun _ hboth => h.not_hasBefore hb hsize _ hboth.1)
    (fits_of_lt (by rw [(sameTable_clearRange s p).max_eq]; omega))
  obtain ⟨s₂, hins₂, -, hadd₂⟩ := @add_ok s₁ ⟨p.fin, b.fin - p.fin, b.ty, b.used⟩
    (fun _ hboth => by
      have hmem := hboth.2.mem_den
      have hend : (⟨p.fin, b.fin - p.fin, b.ty, b.used⟩ : RAMBlock).fin = b.fin := by
        simp only [RAMBlock.fin] at hhi ⊢
        omega
      rw [hend, hins₁.den_eq, part_neg (by rw [RAMBlock.holds_iff]; dsimp only; omega), zero_add] at hmem
      exact h.tag_notMem_fin hsole hb hsize (hden₀ b.fin ▸ Multiset.mem_add.mpr (Or.inl hmem)))
    (fits_of_lt (by
      rw [hins₁.max_eq, (sameTable_clearRange s p).max_eq]
      have := hins₁.count_le
      omega))
  refine ⟨s₂, ((sameTable_clearRange s p).trans hins₁.same).trans hins₂.same, fun x => ?_, fun o => ?_⟩
  · have hjoin : part b x = part (⟨b.addr, p.addr - b.addr, b.ty, b.used⟩ : RAMBlock) x +
        part (⟨p.fin, b.fin - p.fin, b.ty, b.used⟩ : RAMBlock) x := by
      simp only [RAMBlock.fin] at hhi
      apply RAMBlock.part_eq_add
      · rfl
      · simp only [RAMBlock.fin]
        omega
      · simp only [RAMBlock.fin]
        omega
      · rfl
      · rfl
    rw [hins₂.den_eq, hins₁.den_eq, ← hden₀ x, hjoin]
    abel
  · rw [PhysAlloc.free, hbefore, hafter]
    have hsum : PhysAlloc.addSome o (s.clearRange p) (some ⟨b.addr, p.addr - b.addr, b.ty, b.used⟩) = .ok s₁ := hadd₁ o
    have hsum' : PhysAlloc.addSome o s₁ (some ⟨p.fin, b.fin - p.fin, b.ty, b.used⟩) = .ok s₂ := hadd₂ o
    simp only [Option.map_some, hsum, hsum', ok_bind]
    exact add_of_size_eq_zero o hp

theorem free_empty (h : s.Coalesced) (hsole : ∀ x, s.Sole x) (hroom : s.count < s.max) {p : OwnedPtr}
    (hp : p.size = 0) : ∃ s', SameTable s s' ∧ (∀ x, s'.den x = s.den x) ∧ ∀ o, PhysAlloc.free o s p = .ok s' := by
  by_cases hnone : ∀ b ∈ s.blocks, overlaps p b = false
  · exact ⟨s, ⟨rfl, rfl, rfl⟩, fun _ => rfl, free_empty_between hp hnone⟩
  · simp only [not_forall, Bool.not_eq_false] at hnone
    obtain ⟨b, hb, hover⟩ := hnone
    exact free_empty_inside h hsole hroom hp hb hover

/-- `free` of a range apart from the storage of the table, with two slots to spare. -/
theorem Coalesced.free_real (h : s.Coalesced) (hwf : WellFormed .size4kiB s) (hroom : s.count + 2 ≤ s.max)
    {p : OwnedPtr} (hapart : ∀ x, Holds p x → ¬Holds s.ptr x) :
    ∃ s', (∀ n, PhysAlloc.free (tableOps .size4kiB (n + 1)) s p = .ok s') ∧ WellFormed .size4kiB s' ∧
      s'.Coalesced := by
  rcases Nat.eq_zero_or_pos p.size with hp | hp
  · obtain ⟨s', hsame, hden, hfree⟩ := free_empty h hwf.sole (by omega) hp
    have hok' := hwf.tableOk.of_den hsame fun x _ => hden x
    have hsole' : ∀ x, s'.Sole x := fun x => by
      rw [Sole, hden]
      exact hwf.sole x
    exact ⟨s', fun _ => hfree _, hok'.wellFormed (fun x => hok'.sole_iff.mp (hsole' x))
      (hsame.isInit_eq.trans hwf.initialised), h.free stays_still (hfree still)⟩
  · obtain ⟨s', hok', hview, hinit, -, -, -, hfree⟩ :=
      free_spec hwf.tableOk hp hapart (hwf.sole _) (hwf.sole _) hroom
    exact ⟨s', fun n => hfree _ (tableOps .size4kiB n) rfl, hwf.replaced hok' hview hinit,
      h.free (stays_once .size4kiB) (hfree _ still rfl)⟩

/-! ### No free range is overlooked -/

/-- The search of `alloc` finds a block when there is an aligned free range of the size. -/
theorem Coalesced.exists_found (h : s.Coalesced) (hsole : ∀ x, s.Sole x) {args : AllocParams} {a : Nat}
    (ha : args.align ∣ a) (hfree : ∀ x, a ≤ x → x < a + sizeAlign pg args.size →
      s.alpha x = some (args.fromType, false)) :
    ∃ r, s.find (fun block => block.notUsed
      && alignUp block.addr args.align + sizeAlign pg args.size ≤ block.fin
      && block.ty = args.fromType) = some r := by
  have hpos := sizeAlign_pos pg args.size
  obtain ⟨b, hb, htag, hlo, hhi⟩ := (coalesced_iff.mp h).exists_range (t := (args.fromType, false))
    (fun x => by
      rw [Segments.Sole, den_valids]
      exact hsole x) (show a < a + sizeAlign pg args.size by omega) fun x hx hxe => by
        rw [den_valids, (alpha_eq_some_iff (hsole x)).mp (hfree x hx hxe)]
        exact Multiset.mem_singleton_self _
  obtain ⟨hmem, hsize⟩ := mem_valids.mp hb
  obtain ⟨hty, hused⟩ := Prod.mk.inj htag
  rw [← Option.ne_none_iff_exists']
  intro hnone
  -- the first multiple of `align` in the block is not behind `a`
  have hup : alignUp b.addr args.align ≤ a := alignUp_le_of_dvd args.align_pos ha hlo
  have hend : alignUp b.addr args.align + sizeAlign pg args.size ≤ b.fin :=
    le_trans (Nat.add_le_add_right hup _) hhi
  have hfalse := find_eq_none hnone b hmem hsize
  simp [RAMBlock.notUsed, hused, hty, hend] at hfalse

/-- `alloc` with a free range of the size to find, and room in the table, does not refuse. -/
theorem Coalesced.alloc_ne_none (h : s.Coalesced) (hsole : ∀ x, s.Sole x) {args : AllocParams}
    (haddr : args.addr = none) (hram : nonRam.contains args.fromType = false ∧ nonRam.contains args.asType = false)
    (hused : args.used = true) (hroom : s.count + minReq ≤ s.max) {a : Nat} (ha : args.align ∣ a)
    (hfree : ∀ x, a ≤ x → x < a + sizeAlign pg args.size → s.alpha x = some (args.fromType, false)) :
    PhysAlloc.alloc pg o s args ≠ .ok (none, s') := by
  obtain ⟨⟨i, b⟩, hfind⟩ := h.exists_found hsole ha hfree
  have hreq : s.requested pg (args.build pg) =
      some ⟨alignUp b.addr args.align, sizeAlign pg args.size⟩ := by
    simp only [requested, AllocParams.build, haddr, Option.map_none, findFreeRam, sizeAlign_idem, hfind,
      Option.map_some]
  rw [alloc_of_requested pg o hram hreq, if_neg (by omega)]
  intro hrun
  rw [PhysAlloc.carve] at hrun
  split at hrun
  · -- the block that was found holds the range
    rename_i hnone
    obtain ⟨hget, hsize, hf⟩ := find_eq_some hfind
    have hfalse := find_eq_none hnone b (List.mem_of_getElem? hget) hsize
    simp only [Bool.and_eq_true, decide_eq_true_eq] at hf
    obtain ⟨⟨hnot, hend⟩, hty⟩ := hf
    simp [AllocParams.build, OwnedPtr.fin, hnot, hty, hend, le_alignUp] at hfalse
  · rw [if_neg (by simp [AllocParams.build, hused])] at hrun
    obtain ⟨s₁, -, hrun⟩ := bind_eq_ok.mp hrun
    obtain ⟨s₂, -, hrun⟩ := bind_eq_ok.mp hrun
    obtain ⟨s₃, -, hrun⟩ := bind_eq_ok.mp hrun
    cases hrun

/-! ### Runs -/

/-- One call on the allocator. -/
def exec (p : Profile) (depth : Nat) (s : PhysAlloc) : Call → Except Halt PhysAlloc
  | .alloc args => (PhysWord.alloc p (PhysWord.tableOps p .size4kiB depth) .size4kiB s args).map Prod.snd
  | .free q => PhysWord.free p (PhysWord.tableOps p .size4kiB depth) s q

/-- The state after a call; a call that does not return would leave the run where it is. -/
def after (p : Profile) (depth : Nat) (s : PhysAlloc) (c : Call) : PhysAlloc :=
  match exec p depth s c with
  | .ok s' => s'
  | .error _ => s

/-- A range is freed apart from the storage of the table, with two slots to spare. Unless `N` allows a panic, no sum
of the call leaves the word. -/
def Spare (p : Profile) (N : Prop) (s : PhysAlloc) : Call → Prop
  | .alloc args => ¬N → PhysWord.Fits .size4kiB args
  | .free q => (∀ x, Holds q x → ¬Holds s.ptr x) ∧ s.count + 2 ≤ s.max ∧
      (¬N → q.fin ≤ 2 ^ 60 ∧ (p = .dev → q.addr ≠ 0))

/-- The invariant of the runs. -/
structure Steady (p : Profile) (N : Prop) (s : PhysAlloc) : Prop where
  wellFormed : WellFormed .size4kiB s
  coalesced : s.Coalesced
  inWord : ¬N → Sealed (PhysWord.inWord p) s

theorem Steady.exec {p : Profile} {N : Prop} (hN : N → p = .dev) (n : Nat) (h : Steady p N s) {c : Call}
    (hc : Spare p N s c) :
    (∃ s', exec p (n + 2) s c = .ok s' ∧ Steady p N s') ∨ N ∧ exec p (n + 2) s c = .error .panic := by
  have hwf := h.wellFormed
  have how := PhysWord.tableOps_follow hN (n + 2)
  have ho : ¬N → Keeps (PhysWord.inWord p) (tableOps .size4kiB (n + 2)) := fun _ => keeps_tableOps _ _
  cases c with
  | alloc args =>
      obtain ⟨r, s', hout, halloc⟩ := alloc_spec args hwf.tableOk (Or.inl rfl) (Or.inl rfl) hwf.sole
      have hsteady : Steady p N s' := ⟨hout.wellFormed hwf, h.coalesced.alloc_real hwf (halloc n),
        fun hnot => ((h.inWord hnot).alloc (ho hnot) (halloc n)).1⟩
      rw [PhysAlloc.exec]
      rcases (PhysWord.alloc_follows hN how ho h.inWord hc).ok_or (halloc n) with hok | ⟨hmay, hstop⟩
      · exact Or.inl ⟨s', by rw [hok]; rfl, hsteady⟩
      · exact Or.inr ⟨hmay, by rw [hstop]; rfl⟩
  | free q =>
      obtain ⟨hapart, hroom, hq⟩ := hc
      obtain ⟨s', hfree, hwf', h'⟩ := h.coalesced.free_real hwf hroom hapart
      have hopen : ¬N → (PhysWord.inWord p).Open q := fun hnot x hx _ => by
        obtain ⟨hfin, haddr⟩ := hq hnot
        rw [OwnedPtr.holds_iff] at hx
        refine ⟨?_, fun hdev => ?_⟩
        · simp only [OwnedPtr.fin] at hfin
          omega
        · have := haddr hdev
          omega
      have hsteady : Steady p N s' :=
        ⟨hwf', h', fun hnot => (h.inWord hnot).free (ho hnot) (hopen hnot) (hfree (n + 1))⟩
      rcases (PhysWord.free_follows hN how ho h.inWord hopen fun hnot => (hq hnot).1.trans_lt (by decide)).ok_or
        (hfree (n + 1)) with hok | hstop
      · exact Or.inl ⟨s', hok, hsteady⟩
      · exact Or.inr hstop

/-- Whatever calls were made, the table is coalesced, the next call keeps it so, and `alloc` refuses used
memory only where no aligned range of the size is free. `N` allows a development build to panic; where it is false,
memory and requests have to be such that no sum leaves the word, and every call returns. -/
theorem run_coalesced {p : Profile} {N : Prop} (hN : N → p = .dev) (n : Nat) (hwf : WellFormed .size4kiB s)
    (h : s.Coalesced) (hword : ¬N → PhysWord.Bounded s ∧ (p = .dev → PhysWord.NonNull s)) {calls : List Call}
    (hcalls : Runs.Admits (after p (n + 2)) (Spare p N) s calls) (hreached : s' = Runs.run (after p (n + 2)) s calls) :
    (WellFormed .size4kiB s' ∧ s'.Coalesced) ∧
    (∀ c, Spare p N s' c → (∃ s'', exec p (n + 2) s' c = .ok s'' ∧ WellFormed .size4kiB s'' ∧ s''.Coalesced) ∨
      N ∧ exec p (n + 2) s' c = .error .panic) ∧
    ∀ args : AllocParams, (¬N → PhysWord.Fits .size4kiB args) → args.addr = none →
      nonRam.contains args.fromType = false → nonRam.contains args.asType = false → args.used = true →
      s'.count + minReq ≤ s'.max → ∀ s'',
      PhysWord.alloc p (PhysWord.tableOps p .size4kiB (n + 2)) .size4kiB s' args = .ok (none, s'') →
      ¬∃ a, args.align ∣ a ∧ ∀ x, a ≤ x → x < a + sizeAlign .size4kiB args.size →
        s'.alpha x = some (args.fromType, false) := by
  have hsteady : Steady p N s' := by
    rw [hreached]
    refine Runs.run_induction (P := Steady p N) ?_ ⟨hwf, h, fun hnot => ?_⟩ hcalls
    · intro t c ht hc
      rw [after]
      rcases ht.exec hN n hc with ⟨t', hexec, ht'⟩ | ⟨-, hstop⟩
      · rw [hexec]
        exact ht'
      · rw [hstop]
        exact ht
    · exact PhysWord.sealed_of_wellFormed hwf (hword hnot).1 (hword hnot).2
  refine ⟨⟨hsteady.wellFormed, hsteady.coalesced⟩, fun c hc => ?_, ?_⟩
  · rcases hsteady.exec hN n hc with ⟨s'', hexec, h''⟩ | hstop
    · exact Or.inl ⟨s'', hexec, h''.wellFormed, h''.coalesced⟩
    · exact Or.inr hstop
  · rintro args hfits haddr hfrom has hused hroom s'' hnone ⟨a, ha, hfree⟩
    have hexact := (PhysWord.alloc_follows hN (PhysWord.tableOps_follow hN (n + 2)) (fun _ => keeps_tableOps _ _)
      hsteady.inWord hfits).ok hnone
    exact hsteady.coalesced.alloc_ne_none hsteady.wellFormed.sole haddr ⟨hfrom, has⟩ hused hroom ha hfree hexact

theorem run_coalesced_sample : ∃ t, t = Runs.run (after .release 2) sample
      [.free ⟨0x201000, 0x1000⟩, .alloc (AllocParams.new .size4kiB 0x1800)] ∧ t.Coalesced ∧
    ¬∃ a, 0x1000 ∣ a ∧ ∀ x, a ≤ x → x < a + 0x200000 → t.alpha x = some (.conv, false) := by
  refine ⟨_, rfl, ?_⟩
  have hapart : ∀ x, Holds (⟨0x201000, 0x1000⟩ : OwnedPtr) x → ¬Holds sample.ptr x := fun x hx => by
    rw [OwnedPtr.holds_iff] at hx ⊢
    simp only [sample] at hx ⊢
    omega
  have hfits : ∀ size ≤ 0x200000, PhysWord.Fits .size4kiB (AllocParams.new .size4kiB size) := fun size hsize => by
    refine ⟨?_, fun _ haddr => by cases haddr⟩
    have := sizeAlign_mono .size4kiB hsize
    have hmax : sizeAlign .size4kiB 0x200000 = 0x200000 := by decide
    simp only [AllocParams.new, BPage.size_size4kiB]
    omega
  have hcalls : Runs.Admits (after .release 2) (Spare .release False) sample
      [.free ⟨0x201000, 0x1000⟩, .alloc (AllocParams.new .size4kiB 0x1800)] :=
    ⟨⟨hapart, by decide +kernel, fun _ => ⟨by decide, fun hdev => by cases hdev⟩⟩, fun _ => hfits _ (by decide),
      trivial⟩
  obtain ⟨⟨-, hco⟩, -, hcomplete⟩ := run_coalesced False.elim 0 sample_wellFormed (by decide +kernel)
    (fun _ => ⟨by decide +kernel, fun hdev => by cases hdev⟩) hcalls rfl
  refine ⟨hco, ?_⟩
  have hrefused : (PhysWord.alloc .release (PhysWord.tableOps .release .size4kiB 2) .size4kiB
      (Runs.run (after .release 2) sample [.free ⟨0x201000, 0x1000⟩, .alloc (AllocParams.new .size4kiB 0x1800)])
      (AllocParams.new .size4kiB 0x200000)).map Prod.fst = .ok none := by decide +kernel
  obtain ⟨⟨r, t'⟩, hrun, hr⟩ := map_eq_ok.mp hrefused
  cases hr
  exact hcomplete (AllocParams.new .size4kiB 0x200000) (fun _ => hfits _ (le_refl _)) rfl rfl rfl rfl
    (by decide +kernel)
    t' hrun

/-- An allocator with two free pages in the upper half of the address space. -/
def high : PhysAlloc where
  ptr := ⟨0x102000, 0x1000⟩
  blocks := [⟨0x102000, 0x1000, .conv, true⟩, ⟨2 ^ 63 + 0x2000, 0x1000, .conv, false⟩,
    ⟨2 ^ 63, 0x1000, .conv, false⟩] ++
    List.replicate 125 RAMBlock.newInvalid
  isInit := true

/-- In a release build the first of the two pages, rounded up, seems to start at zero. It is chosen, then no block is
found around the range, and the request is refused, although the second page is free and aligned as asked. -/
theorem alloc_overlooks_high : WellFormed .size4kiB high ∧ high.Coalesced ∧ high.count + minReq ≤ high.max ∧
    (PhysWord.alloc .release (PhysWord.tableOps .release .size4kiB 2) .size4kiB high
      ((AllocParams.new .size4kiB 0x1000).alignTo (2 ^ 63))).map Prod.fst = .ok none ∧
    ∃ a, 2 ^ 63 ∣ a ∧ ∀ x, a ≤ x → x < a + sizeAlign .size4kiB 0x1000 → high.alpha x = some (.conv, false) := by
  have hwf : WellFormed .size4kiB high :=
    wellFormed_of_mem (b := ⟨0x102000, 0x1000, .conv, true⟩) ⟨⟨0, by decide +kernel⟩, by decide, by decide +kernel⟩
      (by decide +kernel) (by decide +kernel) rfl (by decide) (by decide) rfl
  refine ⟨hwf, by decide +kernel, by decide +kernel, by decide +kernel, 2 ^ 63, Nat.dvd_refl _, fun x hlo hhi => ?_⟩
  have hsize : sizeAlign .size4kiB 0x1000 = 0x1000 := by decide
  have hmem : (⟨2 ^ 63, 0x1000, .conv, false⟩ : RAMBlock) ∈ high.blocks := by decide +kernel
  rw [alpha_eq_some_iff (hwf.sole x)]
  exact (hwf.sole x).den_eq (tag_mem_den (Multiset.mem_coe.mpr hmem) (RAMBlock.holds_iff.mpr (by dsimp only; omega)))

/-! ### `free` undoes `alloc` -/

theorem part_range (p : OwnedPtr) (ty : RAMType) (used : Bool) (x : Nat) :
    part (⟨p.addr, p.size, ty, used⟩ : RAMBlock) x = if Holds p x then {(ty, used)} else 0 := rfl

theorem Cleared.card_le {p : OwnedPtr} (h : Cleared s s' p) (hsole : ∀ x, s.Sole x) (x : Nat) :
    (part (⟨p.addr, p.size, .conv, false⟩ : RAMBlock) x + s'.den x).card ≤ 1 := by
  rw [h.den_eq, part_range]
  split_ifs
  · rw [add_zero, Multiset.card_singleton]
  · rw [zero_add]
    exact hsole x

theorem Carved.card_le {p : OwnedPtr} {ty : RAMType} (h : Carved s s' p ty) (hsole : ∀ x, s.Sole x) (ty' : RAMType)
    (used : Bool) (x : Nat) : (part (⟨p.addr, p.size, ty', used⟩ : RAMBlock) x + s'.den x).card ≤ 1 := by
  have hcard := hsole x
  rw [Sole, ← h.den_eq, Multiset.card_add, part_range] at hcard
  rw [Multiset.card_add, part_range]
  split_ifs at hcard ⊢ <;> simp only [Multiset.card_singleton, Multiset.card_zero] at hcard ⊢ <;> omega

/-- An insertion gives the blocks that it has in a table without resizing, or leaves the table with fewer slots. -/
def Settles (o : TableOps) : Prop :=
  ∀ {s s' : PhysAlloc} {nb : RAMBlock}, s.Fits nb → (∀ x, (part nb x + s.den x).card ≤ 1) →
    PhysAlloc.add o s nb = .ok s' → ∃ s₁, PhysAlloc.add still s nb = .ok s₁ ∧ Inserted s s₁ nb ∧
      (s'.valids = s₁.valids ∧ s'.max = s.max ∨ s'.max < s.max)

theorem settles_fixed : Settles PhysWord.fixed := by
  intro s s' nb hfits _ hadd
  obtain ⟨s₁, hstill, hins, hcases⟩ := add_cases hfits
  refine ⟨s₁, hstill, hins, Or.inl ?_⟩
  rcases hcases with hreal | ⟨-, hreal⟩
  · rw [hreal] at hadd
    cases hadd
    exact ⟨rfl, hins.max_eq⟩
  · rw [hreal, PhysWord.fixed] at hadd
    dsimp only at hadd
    split_ifs at hadd
    cases hadd
    exact ⟨rfl, hins.max_eq⟩

theorem settles_tableOps (pg : BPage) (n : Nat) : Settles (tableOps pg n) := by
  intro s s' nb hfits hsole hadd
  induction n generalizing s nb s' with
  | zero =>
      obtain ⟨s₁, hstill, hins, hcases⟩ := add_cases hfits
      refine ⟨s₁, hstill, hins, Or.inl ?_⟩
      rcases hcases with hreal | ⟨-, hreal⟩ <;> rw [hreal] at hadd <;> cases hadd
      exact ⟨rfl, hins.max_eq⟩
  | succ n ih =>
      obtain ⟨s₁, hstill, hins, hcases⟩ := add_cases hfits
      refine ⟨s₁, hstill, hins, ?_⟩
      have hmax₁ := hins.max_eq
      rcases hcases with hreal | ⟨hsparse, hreal⟩
      · rw [hreal] at hadd
        cases hadd
        exact Or.inl ⟨rfl, hmax₁⟩
      rw [hreal] at hadd
      change PhysAlloc.shrink pg (tableOps pg n) s₁ _ = _ at hadd
      rw [shrink_eq_shrinkTo] at hadd
      have hhalf : s₁.max >>> 1 ≤ Nat.max (s₁.max >>> 1) baseRbSize := Nat.le_max_left _ _
      have hbase : baseRbSize ≤ Nat.max (s₁.max >>> 1) baseRbSize := Nat.le_max_right _ _
      simp only [Nat.shiftRight_eq_div_pow, baseRbSize] at hsparse hhalf hbase
      generalize hnew : Nat.max (s₁.max >>> 1) baseRbSize = newMax at hadd
      simp only [Nat.shiftRight_eq_div_pow, baseRbSize] at hnew
      rw [hnew] at hhalf hbase
      rcases Nat.lt_or_ge newMax s₁.max with hlt | hge
      · obtain ⟨cut, whole, hcut, hwhole, hcutmax, -, -, hsame, hto⟩ :=
          shrinkTo_of_accepted pg hlt (by omega) (by rw [minReq]; omega)
        rw [hto] at hadd
        split_ifs at hadd with hshort htail
        · cases hadd
        · -- the storage has no whole tail to give back: the blocks are only put in order
          cases hadd
          exact Or.inl ⟨hwhole, hsame.max_eq.trans hmax₁⟩
        · -- the tail is freed in the smaller table, which cannot grow on the way
          have hcount : cut.count = s₁.count := count_congr hcut
          have hcutsole : ∀ x, cut.Sole x := fun x => by
            rw [Sole, den_congr hcut, hins.den_eq]
            exact hsole x
          have hpos : 0 < (⟨alignUp (s₁.ptr.addr + tableBytes pg newMax) pg.size,
              s₁.ptr.size - tableBytes pg newMax⟩ : OwnedPtr).size := Nat.pos_of_ne_zero htail
          obtain ⟨s₃, hcleared, hfree⟩ := free_eq_add hpos (hcutsole _) (hcutsole _) (by omega)
          have hmax₃ := hcleared.same.max_eq
          have hcount₃ := hcleared.count_le
          change PhysAlloc.free _ cut _ = _ at hadd
          rw [hfree] at hadd
          obtain ⟨_, -, -, hend⟩ := ih (fits_of_lt (by omega)) (hcleared.card_le hcutsole) hadd
          refine Or.inr ?_
          rcases hend with ⟨-, hend⟩ | hend <;> omega
      · rw [shrinkTo_of_refused (Or.inl hge)] at hadd
        cases hadd
        exact Or.inl ⟨rfl, hmax₁⟩

theorem Coalesced.valids_eq (h : s.Coalesced) (h' : s'.Coalesced) (hsole : ∀ x, s.Sole x)
    (hden : ∀ x, s'.den x = s.den x) : s'.valids = s.valids := by
  refine ((coalesced_iff.mp h).eq_of_den_eq ?_ (coalesced_iff.mp h') ?_ ?_ (fun x => ?_) fun x => ?_).symm
  · rintro ⟨a, n, ty, used⟩ ⟨a', n', ty', used'⟩ hlo hhi htag
    cases htag
    simp only [Ranged.lo, Ranged.hi, RAMBlock.fin] at hlo hhi
    subst hlo
    rw [Nat.add_left_cancel hhi]
  · exact fun b hb => Nat.lt_add_of_pos_right (mem_valids.mp hb).2
  · exact fun b hb => Nat.lt_add_of_pos_right (mem_valids.mp hb).2
  · rw [Segments.Sole, den_valids]
    exact hsole x
  · rw [den_valids, den_valids, hden]

/-- Freeing what `alloc` cut out of conventional memory gives the old blocks again. -/
theorem restores {o o' : TableOps} (ho : Settles o) (ho' : Settles o') (hwf : WellFormed pg s) (h : s.Coalesced)
    (hroom : s.count + minReq ≤ s.max) {args : AllocParams} (hfrom : args.fromType = .conv) (hused : args.used = true)
    {q : OwnedPtr} {s₁ : PhysAlloc} (halloc : PhysAlloc.alloc pg o s args = .ok (some q, s₁)) (hmax : s₁.max = s.max) :
    q.size = sizeAlign pg args.size ∧ (∃ s₂, PhysAlloc.free still s₁ q = .ok s₂ ∧ s₂.valids = s.valids) ∧
    ∀ s₂, PhysAlloc.free o' s₁ q = .ok s₂ → s₂.max = s₁.max → s₂.valids = s.valids := by
  have hsole := hwf.sole
  rw [minReq] at hroom
  rcases alloc_cases pg s args with hnone | ⟨hram, q', hreq⟩
  · rw [hnone] at halloc
    cases halloc
  rw [alloc_of_requested pg _ hram hreq, if_neg (by rw [minReq]; omega)] at halloc
  have hsize := requested_size hreq
  have hpos : 0 < q'.size := hsize ▸ sizeAlign_pos pg args.size
  cases hfind : s.find fun block => block.notUsed && (args.build pg).fromType = block.ty &&
      (block.addr ≤ q'.addr && q'.fin ≤ block.fin) with
  | none =>
      rw [PhysAlloc.carve, hfind] at halloc
      cases halloc
  | some r =>
  obtain ⟨s₃, hcarved, hcarve⟩ := carve_eq hfind (fun hp => by simp [AllocParams.build, hused] at hp) hpos (hsole _)
    (hsole _) (by omega)
  have hcount₃ := hcarved.count_le
  have hmax₃ := hcarved.same.max_eq
  rw [hcarve] at halloc
  obtain ⟨t, hadd, ht⟩ := bind_eq_ok.mp halloc
  cases ht
  -- `alloc` has the blocks it would have in a table that may not be resized
  obtain ⟨t₁, hstill, hins, hend⟩ := ho (fits_of_lt (by omega)) (hcarved.card_le hsole _ _) hadd
  obtain ⟨hvalids, -⟩ := hend.resolve_right (by omega)
  have hco₁ : s₁.Coalesced := by
    refine Coalesced.of_valids (s := t₁) ?_ (by rw [hvalids]; exact fun _ hb => hb)
    have hrun : PhysAlloc.carve still s (args.build pg) q = .ok (some q, t₁) := by
      rw [hcarve, hstill]
      rfl
    exact h.carve stays_still hrun
  have hsole₁ : ∀ x, s₁.Sole x := fun x => by
    rw [Sole, den_congr hvalids, hins.den_eq]
    exact hcarved.card_le hsole _ _ x
  have hcount₁ := hins.count_le
  rw [← count_congr hvalids] at hcount₁
  -- and so has `free`
  obtain ⟨s₄, hcleared, hfree⟩ := free_eq_add hpos (hsole₁ _) (hsole₁ _) (by omega)
  have hcount₄ := hcleared.count_le
  have hmax₄ := hcleared.same.max_eq
  have hden : ∀ {t₂ : PhysAlloc}, Inserted s₄ t₂ ⟨q.addr, q.size, .conv, false⟩ → ∀ x, t₂.den x = s.den x := by
    intro t₂ hins₂ x
    have hthree := hcarved.den_eq x
    rw [show (args.build pg).fromType = .conv from hfrom] at hthree
    have hcard := hcarved.card_le hsole .conv false x
    rw [hins₂.den_eq, hcleared.den_eq, ← hthree, den_congr hvalids, hins.den_eq]
    rw [Multiset.card_add] at hcard
    simp only [part_range] at hcard ⊢
    split_ifs at hcard ⊢ with hx
    · rw [Multiset.card_singleton] at hcard
      rw [Multiset.card_eq_zero.mp (show (s₃.den x).card = 0 by omega), add_comm]
    · rw [zero_add, zero_add, add_zero]
  have hback : ∀ {t₂ : PhysAlloc}, PhysAlloc.add still s₄ ⟨q.addr, q.size, .conv, false⟩ = .ok t₂ →
      Inserted s₄ t₂ ⟨q.addr, q.size, .conv, false⟩ → t₂.valids = s.valids := by
    intro t₂ hstill₂ hins₂
    exact h.valids_eq (hco₁.free stays_still ((hfree still).trans hstill₂)) hsole (hden hins₂)
  refine ⟨hsize, ?_, fun s₂ hrun hmax₂ => ?_⟩
  · obtain ⟨t₂, hstill₂, hins₂, -⟩ := @add_cases s₄ ⟨q.addr, q.size, .conv, false⟩ (fits_of_lt (by omega))
    exact ⟨t₂, (hfree still).trans hstill₂, hback hstill₂ hins₂⟩
  · rw [hfree] at hrun
    obtain ⟨t₂, hstill₂, hins₂, hend₂⟩ := ho' (fits_of_lt (by omega)) (hcleared.card_le hsole₁) hrun
    rw [(hend₂.resolve_right (by omega)).1]
    exact hback hstill₂ hins₂

section Words

variable {p : Profile} {N : Prop} {args : AllocParams} {q : OwnedPtr} {s₁ s₂ : PhysAlloc} {n : Nat}

theorem keeps_fixed (σ : Seal) : Keeps σ PhysWord.fixed := by
  refine ⟨fun _ _ hrun => (by cases hrun), fun h hrun => ?_⟩
  rw [PhysWord.fixed] at hrun
  dsimp only at hrun
  split_ifs at hrun
  cases hrun
  exact h

/-- A call of `alloc` on words that does not resize the table is an exact one. With larger pages, that no `shrink` gets
past its first test. -/
theorem exact_alloc (hN : N → p = .dev) (hs : ¬N → Sealed (PhysWord.inWord p) s) (hfits : ¬N → PhysWord.Fits pg args)
    (halloc : PhysWord.alloc p (PhysWord.tableOps p pg (n + 1)) pg s args = .ok (some q, s₁))
    (hcalm : pg ≠ .size4kiB → PhysWord.alloc p PhysWord.fixed pg s args ≠ .error .depth) :
    ∃ o, Settles o ∧ Keeps (PhysWord.inWord p) o ∧ PhysAlloc.alloc pg o s args = .ok (some q, s₁) := by
  by_cases hpg : pg = .size4kiB
  · subst hpg
    have ho := keeps_tableOps (PhysWord.inWord p) (n + 1)
    exact ⟨_, settles_tableOps _ _, ho,
      (PhysWord.alloc_follows hN (PhysWord.tableOps_follow hN (n + 1)) (fun _ => ho) hs hfits).ok halloc⟩
  · have ho := keeps_fixed (PhysWord.inWord p)
    have hfixed := (PhysWord.alloc_below (PhysWord.fixed_below p pg n) s args).resolve_right fun h => hcalm hpg h.2
    exact ⟨_, settles_fixed, ho,
      (PhysWord.alloc_follows hN (.refl p N _) (fun _ => ho) hs hfits).ok (hfixed.trans halloc)⟩

theorem exact_free (hN : N → p = .dev) (hs : ¬N → Sealed (PhysWord.inWord p) s)
    (hopen : ¬N → (PhysWord.inWord p).Open q) (hfin : ¬N → q.fin < 2 ^ 64)
    (hfree : PhysWord.free p (PhysWord.tableOps p pg (n + 1)) s q = .ok s₁)
    (hcalm : pg ≠ .size4kiB → PhysWord.free p PhysWord.fixed s q ≠ .error .depth) :
    ∃ o, Settles o ∧ PhysAlloc.free o s q = .ok s₁ := by
  by_cases hpg : pg = .size4kiB
  · subst hpg
    exact ⟨_, settles_tableOps _ _, (PhysWord.free_follows hN (PhysWord.tableOps_follow hN (n + 1))
      (fun _ => keeps_tableOps _ _) hs hopen hfin).ok hfree⟩
  · have hfixed := (PhysWord.free_below (PhysWord.fixed_below p pg n) s q).resolve_right fun h => hcalm hpg h.2
    exact ⟨_, settles_fixed, (PhysWord.free_follows hN (.refl p N _) (fun _ => keeps_fixed _) hs hopen hfin).ok
      (hfixed.trans hfree)⟩

end Words

end PhysAlloc

end UnixKernel
