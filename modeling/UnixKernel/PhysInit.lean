import UnixKernel.PhysCoalesced

/-! The steps of `init`. The conventional memory goes into the embedded table first; whether that table is
outgrown, and how much of it is left, can be read off the regions that the memory makes. With slots to
spare the table moves into free memory once. When it is outgrown in the first pass, growing frees the
embedded array, which is not conventional memory. When it is outgrown inside the request for its own new
storage, that storage is half as large as the table. -/

namespace UnixKernel

open Slots Segments PhysAlloc

namespace Platform

theorem addAll_cons_eq_ok {o : TableOps} {s s' : PhysAlloc} {b : RAMBlock} {bs : List RAMBlock} :
    addAll o s (b :: bs) = .ok s' ↔ ∃ s₁, add o s b = .ok s₁ ∧ addAll o s₁ bs = .ok s' := by
  rw [addAll, List.foldlM_cons]
  exact bind_eq_ok

/-! ### Adding blocks to a table that records its own storage -/

/-- Free memory fit to hold a table is in no second block: the table can be moved there. -/
def Roomy (pg : BPage) (W : Nat → Multiset Tag) : Prop :=
  ∀ q : OwnedPtr, pg.size ∣ q.addr → (∃ k, q.size = tableBytes pg (baseRbSize * 2 ^ k)) →
    (∀ x, Holds q x → (RAMType.conv, false) ∈ W x) → ∀ x, Holds q x → (W x).card ≤ 1

theorem roomy_of_card_le_one {pg : BPage} {W : Nat → Multiset Tag} (h : ∀ x, (W x).card ≤ 1) : Roomy pg W :=
  fun _ _ _ _ x _ => h x

/-- Added one after the other to memory with the map `V`, none of the blocks joins two others. -/
def Quiet (V : Nat → Multiset Tag) : List RAMBlock → Prop
  | [] => True
  | b :: bs => (0 < b.size → b.used = false ∧
      ¬(0 < b.addr ∧ (b.ty, b.used) ∈ V (b.addr - 1) ∧ (b.ty, b.used) ∈ V b.fin)) ∧
    Quiet (fun x => part b x + V x) bs

/-- Blocks in address order, each of a type that does not occur behind it yet. -/
theorem quiet_of_ascending {bs : List RAMBlock} : ∀ {V : Nat → Multiset Tag},
    (bs.Pairwise fun b c => 0 < b.size → 0 < c.size → b.fin ≤ c.addr) →
    (∀ b ∈ bs, 0 < b.size → b.used = false ∧ ∀ x, b.fin ≤ x → (b.ty, b.used) ∉ V x) → Quiet V bs := by
  induction bs with
  | nil => exact fun _ _ => trivial
  | cons b bs ih =>
      intro V hsorted hfresh
      obtain ⟨hfirst, hrest⟩ := List.pairwise_cons.mp hsorted
      refine ⟨fun hpos => ?_, ih hrest fun c hc hcpos => ?_⟩
      · obtain ⟨hunused, hno⟩ := hfresh b List.mem_cons_self hpos
        exact ⟨hunused, fun h => hno _ (le_refl _) h.2.2⟩
      obtain ⟨hunused, hno⟩ := hfresh c (List.mem_cons_of_mem b hc) hcpos
      refine ⟨hunused, fun x hx hmem => ?_⟩
      rcases Multiset.mem_add.mp hmem with hpart | hmem
      · -- the block in front ends before this one starts
        have hbx : Holds b x := by
          by_contra hbx
          rw [part_neg hbx] at hpart
          cases hpart
        rw [RAMBlock.holds_iff] at hbx
        have hle := hfirst c hc (by omega) hcpos
        simp only [RAMBlock.fin] at hle hx
        omega
      · exact hno x hx hmem

/-- Blocks that could not join two others in the map that they end up in. -/
theorem quiet_of_final {W : Nat → Multiset Tag} {bs : List RAMBlock} : ∀ {V : Nat → Multiset Tag},
    (∀ x, V x + Segments.den (bs : Multiset RAMBlock) x ≤ W x) →
    (∀ b ∈ bs, 0 < b.size → b.used = false ∧
      ¬(0 < b.addr ∧ (b.ty, b.used) ∈ W (b.addr - 1) ∧ (b.ty, b.used) ∈ W b.fin)) → Quiet V bs := by
  induction bs with
  | nil => exact fun _ _ => trivial
  | cons b bs ih =>
      intro V hle hno
      have hV : ∀ {x t}, t ∈ V x → t ∈ W x := fun ht =>
        Multiset.mem_of_le (hle _) (Multiset.mem_add.mpr (Or.inl ht))
      refine ⟨fun hpos => ?_, ih (fun x => ?_) fun c hc => hno c (List.mem_cons_of_mem b hc)⟩
      · obtain ⟨hunused, hnot⟩ := hno b List.mem_cons_self hpos
        exact ⟨hunused, fun h => hnot ⟨h.1, hV h.2.1, hV h.2.2⟩⟩
      · have hx := hle x
        rw [← Multiset.cons_coe, den_cons] at hx
        rwa [add_comm (part b x), add_assoc]

theorem Quiet.not_both {pg : BPage} {s : PhysAlloc} {b : RAMBlock} {bs : List RAMBlock}
    (h : Quiet s.view (b :: bs)) (hok : TableOk pg s) (hpos : 0 < b.size) : ¬(s.HasBefore b ∧ s.HasAfter b) := by
  rintro ⟨hbefore, hafter⟩
  obtain ⟨hunused, hno⟩ := h.1 hpos
  have hview : ∀ {x}, (b.ty, b.used) ∈ s.den x → (b.ty, b.used) ∈ s.view x := by
    intro x hmem
    by_cases hx : Holds s.ptr x
    · rw [hok.used _ hx, Multiset.mem_singleton, hunused] at hmem
      simp at hmem
    · rwa [view_of_not_holds hx]
  exact hno ⟨hbefore.mem_den.1, hview hbefore.mem_den.2, hview hafter.mem_den⟩

/-- Adding block after block: the table stays sound wherever it is moved to on the way, and its map is
what was there with the blocks on top. -/
theorem addAll_full {pg : BPage} {n : Nat} {W : Nat → Multiset Tag} (hroomy : Roomy pg W)
    {bs : List RAMBlock} : ∀ {s s' : PhysAlloc}, TableOk pg s → Whole pg s →
    (∀ x, s.view x + Segments.den (bs : Multiset RAMBlock) x = W x) →
    (pg = .size4kiB ∨ Quiet s.view bs) → addAll (tableOps pg (n + 2)) s bs = .ok s' →
    TableOk pg s' ∧ Whole pg s' ∧ (∀ x, s'.view x = W x) ∧ s'.isInit = s.isInit := by
  induction bs with
  | nil =>
      intro s s' hok hwhole hview _ hrun
      cases hrun
      refine ⟨hok, hwhole, fun x => ?_, rfl⟩
      rw [← hview x]
      simp
  | cons b bs ih =>
      intro s s' hok hwhole hview hquiet hrun
      obtain ⟨s₁, hadd, hrest⟩ := addAll_cons_eq_ok.mp hrun
      have hsplit : ∀ x, s.view x + part b x + Segments.den (bs : Multiset RAMBlock) x = W x := by
        intro x
        rw [← hview x, ← Multiset.cons_coe, den_cons, add_assoc]
      have hle : ∀ x, s.view x ≤ W x := fun x => by
        rw [← hview x]
        exact Multiset.le_add_right _ _
      obtain ⟨k, hk⟩ := hok.max_pow
      have hsole : ∀ q : OwnedPtr, pg.size ∣ q.addr → q.size = tableBytes pg (2 * s.max) →
          (∀ x, Holds q x → (RAMType.conv, false) ∈ s.den x) → ∀ x, Holds q x → s.Sole x := by
        intro q haligned hsize hfree
        have hout : ∀ x, Holds q x → ¬Holds s.ptr x := by
          intro x hx hxt
          have hmem := hfree x hx
          rw [hok.used x hxt] at hmem
          simp at hmem
        intro x hx
        have hcard := hroomy q haligned ⟨k + 1, by
          rw [hsize, hk, Nat.mul_comm 2, Nat.mul_assoc, Nat.pow_succ]⟩ (fun y hy => by
          have hmem := hfree y hy
          rw [← view_of_not_holds (hout y hy)] at hmem
          exact Multiset.mem_of_le (hle y) hmem) x hx
        rw [PhysAlloc.Sole, ← view_of_not_holds (hout x hx)]
        exact le_trans (Multiset.card_le_card (hle x)) hcard
      have hclear : ∀ x, Holds b x → ¬Holds s.ptr x := by
        intro x hbx hx
        have hcard := hroomy s.ptr hok.aligned ⟨k, by rw [hok.size_eq, hk]⟩ (fun y hy => by
          refine Multiset.mem_of_le (hle y) ?_
          rw [view_of_holds hy]
          exact Multiset.mem_singleton_self _) x hx
        rw [← hsplit x, view_of_holds hx, part_pos hbx] at hcard
        simp only [Multiset.card_add, Multiset.card_singleton] at hcard
        omega
      have hquiet' : pg = .size4kiB ∨ (0 < b.size → ¬(s.HasBefore b ∧ s.HasAfter b)) :=
        hquiet.imp_right fun h => h.not_both hok
      rcases add_full hok hwhole hsole hclear hquiet' with hpanic | ⟨s₂, hok₂, hwhole₂, hview₂, hinit₂, hadd₂⟩
      · rw [hpanic n] at hadd
        cases hadd
      · rw [hadd₂ n] at hadd
        cases hadd
        obtain ⟨hok', hwhole', hview', hinit'⟩ := ih hok₂ hwhole₂ (fun x => by
          rw [hview₂, add_comm (part b x), hsplit]) (hquiet.imp_right fun h => funext hview₂ ▸ h.2) hrest
        exact ⟨hok', hwhole', hview', hinit'.trans hinit₂⟩

/-! ### The embedded table -/

theorem shrink_embedded (pg : BPage) (o : TableOps) {s : PhysAlloc} (hmax : s.max = baseRbSize) :
    shrink pg o s (Nat.max (s.max >>> 1) baseRbSize) = .ok s := by
  rw [shrink, if_pos]
  · rfl
  · rw [hmax]
    simp [baseRbSize]

theorem add_embedded (pg : BPage) {s : PhysAlloc} {nb : RAMBlock} (hmax : s.max = baseRbSize)
    (hfits : s.Fits nb) :
    ∃ s', Inserted s s' nb ∧ add still s nb = .ok s' ∧
      ∀ o o', o.shrink = shrink pg o' → add o s nb = .ok s' := by
  obtain ⟨s', hstill, hins, hreal⟩ := add_cases hfits
  refine ⟨s', hins, hstill, fun o o' ho => ?_⟩
  rcases hreal with hreal | ⟨-, hreal⟩
  · exact hreal o
  · rw [hreal o, ho, shrink_embedded pg o' (hins.max_eq.trans hmax)]

theorem add_still_of_not_fits {s : PhysAlloc} {nb : RAMBlock} (hfits : ¬s.Fits nb) :
    add still s nb = .error .panic := by
  obtain ⟨hpos, hbefore, hafter, hfull⟩ := not_fits hfits
  rw [add_of_none_full _ hpos hbefore hafter hfull]
  rfl

/-- As long as the embedded table is not outgrown, its map is the sum of the blocks. -/
theorem addAll_still (pg : BPage) {bs : List RAMBlock} : ∀ {s s' : PhysAlloc}, s.max = baseRbSize →
    addAll still s bs = .ok s' → SameTable s s' ∧
      (∀ x, s'.den x = s.den x + Segments.den (bs : Multiset RAMBlock) x) ∧ (s.Coalesced → s'.Coalesced) ∧
      ∀ n, addAll (tableOps pg (n + 1)) s bs = .ok s' := by
  induction bs with
  | nil =>
      intro s s' _ hrun
      cases hrun
      exact ⟨⟨rfl, rfl, rfl⟩, fun x => by simp, id, fun n => rfl⟩
  | cons b bs ih =>
      intro s s' hmax hrun
      obtain ⟨s₁, hadd, hrest⟩ := addAll_cons_eq_ok.mp hrun
      by_cases hfits : s.Fits b
      · obtain ⟨s₂, hins, hstill, hreal⟩ := add_embedded pg hmax hfits
        rw [hstill] at hadd
        cases hadd
        obtain ⟨hsame, hden, hco, hall⟩ := ih (hins.max_eq.trans hmax) hrest
        refine ⟨hins.same.trans hsame, fun x => ?_, fun h => hco (h.add_still hstill), fun n => ?_⟩
        · rw [hden, hins.den_eq, ← Multiset.cons_coe, den_cons, add_comm (part b x), add_assoc]
        · exact addAll_cons_eq_ok.mpr ⟨s₁, hreal _ _ rfl, hall n⟩
      · rw [add_still_of_not_fits hfits] at hadd
        cases hadd

/-- The regions that blocks make when those that touch and have one tag are taken together. -/
def regions (bs : List RAMBlock) : Nat := (starts (bs : Multiset RAMBlock)).card

theorem regions_le_length (bs : List RAMBlock) : regions bs ≤ bs.length :=
  Multiset.card_le_card (Multiset.filter_le _ _)

theorem regions_eq_count {s : PhysAlloc} {bs : List RAMBlock} (hco : s.Coalesced) (hsole : ∀ x, s.Sole x)
    (hden : ∀ x, Segments.den (bs : Multiset RAMBlock) x = s.den x) : regions bs = s.count := by
  rw [← card_valids]
  refine (coalesced_iff.mp hco).card_starts (fun b hb => Nat.lt_add_of_pos_right (mem_valids.mp hb).2)
    (fun x => ?_) fun x => ?_
  · rw [Segments.Sole, den_valids]
    exact hsole x
  · rw [hden, den_valids]

/-- A block that touches none with its tag makes one more region. -/
theorem regions_of_not_fits {s : PhysAlloc} {b : RAMBlock} {bs : List RAMBlock} (hco : s.Coalesced)
    (hsole : ∀ x, (part b x + s.den x).card ≤ 1)
    (hden : ∀ x, Segments.den (bs : Multiset RAMBlock) x = part b x + s.den x) (hfits : ¬s.Fits b) :
    regions bs = s.count + 1 := by
  obtain ⟨hpos, hbefore, hafter, -⟩ := not_fits hfits
  rw [← card_valids, ← Multiset.card_cons b]
  refine Segments.Coalesced.card_starts ?_ (fun c hc => ?_) (fun x => ?_) fun x => ?_
  · intro c hc d hd hcpos hdpos htag
    rw [Multiset.mem_cons] at hc hd
    rcases hc with rfl | hc <;> rcases hd with rfl | hd
    · exact Nat.ne_of_gt hcpos
    · exact fun h => hafter ⟨d, (mem_valids.mp hd).1, (mem_valids.mp hd).2, htag.symm, h⟩
    · exact fun h => hbefore ⟨c, (mem_valids.mp hc).1, (mem_valids.mp hc).2, htag, h⟩
    · exact coalesced_iff.mp hco c hc d hd hcpos hdpos htag
  · rcases Multiset.mem_cons.mp hc with rfl | hc
    · exact Nat.lt_add_of_pos_right hpos
    · exact Nat.lt_add_of_pos_right (mem_valids.mp hc).2
  · rw [Segments.Sole, den_cons, den_valids]
    exact hsole x
  · rw [hden, den_cons, den_valids]

/-- The table is not outgrown exactly if at no time the blocks make more regions than it has slots. -/
theorem addAll_still_iff {bs : List RAMBlock} : ∀ {s : PhysAlloc} {pre : List RAMBlock}, s.Coalesced →
    (∀ x, Segments.den (pre : Multiset RAMBlock) x = s.den x) →
    (∀ x, Segments.Sole ((pre ++ bs : List RAMBlock) : Multiset RAMBlock) x) →
    ((∃ s', addAll still s bs = .ok s') ↔ ∀ k ≤ bs.length, regions (pre ++ bs.take k) ≤ s.max) := by
  induction bs with
  | nil =>
      intro s pre hco hden hsole
      refine ⟨fun _ k _ => ?_, fun _ => ⟨s, rfl⟩⟩
      rw [List.take_nil, List.append_nil, regions_eq_count hco (fun x => ?_) hden]
      · exact s.count_le_max
      · have hx := hsole x
        rwa [List.append_nil, Segments.Sole, hden] at hx
  | cons b bs ih =>
      intro s pre hco hden hsole
      have hsum : ∀ x, Segments.den ((pre ++ [b] : List RAMBlock) : Multiset RAMBlock) x = part b x + s.den x := by
        intro x
        rw [Multiset.coe_eq_coe.mpr (List.perm_append_singleton b pre), ← Multiset.cons_coe, den_cons, hden]
      have hsole₁ : ∀ x, (part b x + s.den x).card ≤ 1 := by
        intro x
        have hx := hsole x
        rw [List.append_cons, Segments.Sole, ← Multiset.coe_add, den_add, hsum] at hx
        exact (Multiset.card_le_card (Multiset.le_add_right _ _)).trans hx
      have hsole₀ : ∀ x, s.Sole x := fun x =>
        (Multiset.card_le_card (Multiset.le_add_left _ _)).trans (hsole₁ x)
      by_cases hfits : s.Fits b
      · obtain ⟨s₁, hstill, hins, -⟩ := add_cases hfits
        have hstep := @ih s₁ (pre ++ [b]) (hco.add_still hstill)
          (fun x => by rw [hsum, hins.den_eq]) (fun x => by rw [← List.append_cons]; exact hsole x)
        rw [hins.max_eq] at hstep
        constructor
        · rintro ⟨s', hrun⟩ k hk
          obtain ⟨s₂, hadd, hrest⟩ := addAll_cons_eq_ok.mp hrun
          cases hstill.symm.trans hadd
          cases k with
          | zero =>
              rw [List.take_zero, List.append_nil, regions_eq_count hco hsole₀ hden]
              exact s.count_le_max
          | succ k =>
              rw [List.take_succ_cons, List.append_cons]
              exact hstep.mp ⟨s', hrest⟩ k (Nat.le_of_succ_le_succ hk)
        · intro hall
          obtain ⟨s', hrest⟩ := hstep.mpr fun k hk => by
            have hle := hall (k + 1) (Nat.succ_le_succ hk)
            rwa [List.take_succ_cons, List.append_cons] at hle
          exact ⟨s', addAll_cons_eq_ok.mpr ⟨s₁, hstill, hrest⟩⟩
      · constructor
        · rintro ⟨s', hrun⟩
          obtain ⟨s₂, hadd, -⟩ := addAll_cons_eq_ok.mp hrun
          rw [add_still_of_not_fits hfits] at hadd
          cases hadd
        · intro hall
          have hle := hall 1 (Nat.succ_le_succ (Nat.zero_le _))
          rw [List.take_succ_cons, List.take_zero, regions_of_not_fits hco hsole₁ hsum hfits] at hle
          have hfull := (not_fits hfits).2.2.2
          omega

variable (p : Platform)

theorem embedded_max : p.embedded.max = baseRbSize := List.length_replicate

theorem embedded_valids : p.embedded.valids = 0 := by
  rw [valids, List.filter_eq_nil_iff.mpr fun b hb => ?_]
  · rfl
  · rw [List.eq_of_mem_replicate hb]
    decide

theorem embedded_den (x : Nat) : p.embedded.den x = 0 := by
  rw [← den_valids, p.embedded_valids]
  rfl

theorem embedded_coalesced : p.embedded.Coalesced := by
  rw [coalesced_iff, p.embedded_valids]
  exact fun b hb => absurd hb (Multiset.notMem_zero b)

/-! ### The embedded table is outgrown -/

/-- The embedded array as the block that growing the embedded table frees. -/
def embeddedBlock : RAMBlock := ⟨p.rbEmbedded, baseRbSize * ramBlockSize, .conv, false⟩

/-- The table has moved out of the embedded array, which is in no block and becomes free memory. -/
structure Outgrown (pg : BPage) (s s' : PhysAlloc) (q : OwnedPtr) : Prop where
  tableOk : TableOk pg s'
  whole : Whole pg s'
  view_eq : ∀ x, s'.view x = s.den x + part p.embeddedBlock x
  isInit_eq : s'.isInit = s.isInit
  apart : ∀ x, Holds s'.ptr x → ¬Holds q x
  max_eq : s'.max = 2 * baseRbSize
  count_le : s'.count ≤ s.count + 4
  le_count : s.count ≤ s'.count + 4

variable {p} {pg : BPage} {n : Nat} {s s' : PhysAlloc}

/-- The first growth. -/
theorem expand_outgrown {q : OwnedPtr} (hptr : s.ptr = p.embeddedPtr)
    (hmax : s.max = baseRbSize) (hcard : ∀ x, (s.den x + part p.embeddedBlock x).card ≤ 1)
    (hfull : s.max < s.count + minReq) :
    (∀ o, expand pg o s s.grownMax q = .ok (none, s)) ∨
    ∃ s', Outgrown p pg s s' q ∧ ∀ o, expand pg o s s.grownMax q = .ok (some (), s') := by
  have hmin : minReq = 4 := rfl
  have hmax' : s.max = 128 := hmax
  have hcountmax := s.count_le_max
  have hsole : ∀ x, s.Sole x := fun x => le_trans (Multiset.card_le_card (Multiset.le_add_right _ _)) (hcard x)
  have hzero : ∀ x, Holds s.ptr x → s.den x = 0 := by
    intro x hx
    rw [hptr] at hx
    have hx' := hcard x
    rw [part_pos (show Holds p.embeddedBlock x from hx), Multiset.card_add, Multiset.card_singleton] at hx'
    exact Multiset.card_eq_zero.mp (by omega)
  rcases expand_eq pg (p := q) hmax.ge hfull (fun _ _ _ _ x _ => hsole x) with hfail | ⟨s₄, hmoved, hexpand⟩
  · exact Or.inl hfail
  have hup := hmoved.count_le
  have hlow := hmoved.le_count
  have hmax₄ := hmoved.max_eq
  have hok₄ : TableOk pg s₄ := ⟨⟨⟨1, by rw [hmax₄, hmax]; rfl⟩, hmoved.aligned, hmoved.size_eq⟩,
    hmoved.used_after⟩
  have hold : ∀ x, Holds s.ptr x → ¬Holds s₄.ptr x := by
    intro x hx hx'
    have hfree := hmoved.free_before x hx'
    rw [hzero x hx] at hfree
    exact Multiset.singleton_ne_zero _ hfree.symm
  have hzero₄ : ∀ x, Holds s.ptr x → s₄.den x = 0 := fun x hx => by
    rw [hmoved.den_eq x (hold x hx), hzero x hx]
  have hsole₄ : ∀ x, Holds s.ptr x → s₄.Sole x := fun x hx => by
    rw [PhysAlloc.Sole, hzero₄ x hx]
    exact Nat.zero_le 1
  have hsize : 0 < s.ptr.size := by
    rw [hptr]
    exact (by decide : 0 < baseRbSize * ramBlockSize)
  obtain ⟨s₅, hok₅, hview₅, hsame₅, hup₅, hlow₅, hcov₅, hfree⟩ := free_dense hok₄ hsize hold
    (hsole₄ _ (OwnedPtr.holds_iff.mpr (by omega)))
    (hsole₄ _ (OwnedPtr.holds_iff.mpr (by simp only [OwnedPtr.fin]; omega))) (by omega)
    (by rw [countP_overlaps_eq_zero hsize hzero₄]; omega)
    (by rw [hmax₄, hmax', Nat.shiftRight_eq_div_pow]; omega)
  refine Or.inr ⟨s₅, ⟨hok₅, Or.inr ?_, fun x => ?_, hsame₅.isInit_eq.trans hmoved.isInit_eq, fun x hx => ?_,
    by rw [hsame₅.max_eq, hmax₄, hmax], by omega, by omega⟩, fun o => by rw [hexpand, hfree]; rfl⟩
  · rw [hsame₅.ptr_eq]
    exact hcov₅ _ _ hok₄.ptr_size_pos (fun x hx hx' => hold x hx' hx) hmoved.covers_storage
  · rw [hview₅]
    by_cases hx : Holds s.ptr x
    · rw [if_pos hx, hzero x hx, zero_add, part_pos (by rw [hptr] at hx; exact hx)]
      rfl
    · rw [if_neg hx, part_neg (by rw [hptr] at hx; exact hx), add_zero]
      by_cases hx₄ : Holds s₄.ptr x
      · rw [view_of_holds hx₄, hmoved.free_before x hx₄]
      · rw [view_of_not_holds hx₄, hmoved.den_eq x hx₄]
  · exact hmoved.apart x (hsame₅.ptr_eq ▸ hx)

theorem add_outgrown {nb : RAMBlock} (hptr : s.ptr = p.embeddedPtr) (hmax : s.max = baseRbSize)
    (hcard : ∀ x, (s.den x + part p.embeddedBlock x).card ≤ 1) (hfits : ¬s.Fits nb)
    (hadd : add (tableOps pg (n + 2)) s nb = .ok s') :
    TableOk pg s' ∧ Whole pg s' ∧ (∀ x, s'.view x = part nb x + (s.den x + part p.embeddedBlock x)) ∧
      s'.isInit = s.isInit := by
  obtain ⟨hpos, hbefore, hafter, hfull⟩ := not_fits hfits
  have hmin : minReq = 4 := rfl
  have hcountmax := s.count_le_max
  have hmax' : s.max = 128 := hmax
  rw [add_of_none_full _ hpos hbefore hafter hfull] at hadd
  change (expand pg (tableOps pg (n + 1)) s s.grownMax nb.intoOwnedPtr >>= _) = _ at hadd
  rcases @expand_outgrown p pg s nb.intoOwnedPtr hptr hmax hcard (by omega) with
    hfail | ⟨s₁, hout, hexpand⟩
  · rw [hfail] at hadd
    cases hadd
  have hmax₁ : s₁.max = 256 := hout.max_eq
  have hcount₁ := hout.count_le
  obtain ⟨hins, -, -⟩ := inserted_place (s := s₁) hpos (by omega)
  have hclear : ∀ x, Holds nb x → ¬Holds s₁.ptr x := fun x hx hx' => hout.apart x hx' hx
  rw [hexpand] at hadd
  cases hadd
  refine ⟨hins.tableOk hout.tableOk hclear, ?_, fun x => ?_, hins.isInit_eq.trans hout.isInit_eq⟩
  · exact hout.whole.imp_right (hins.covers _ _ hout.tableOk.ptr_size_pos)
  · rw [hins.view_eq hclear, hout.view_eq]

/-- The first pass: the embedded table is enough, or the table is sound and the embedded array has become
free memory. -/
theorem addAll_embedded {W : Nat → Multiset Tag} (hcard : ∀ x, (W x).card ≤ 1) {bs : List RAMBlock} :
    ∀ {s s' : PhysAlloc}, s.ptr = p.embeddedPtr → s.max = baseRbSize →
    (∀ x, s.den x + part p.embeddedBlock x + Segments.den (bs : Multiset RAMBlock) x = W x) →
    (pg = .size4kiB ∨ ∀ b ∈ bs, 0 < b.size → b.used = false ∧
      ¬(0 < b.addr ∧ (b.ty, b.used) ∈ W (b.addr - 1) ∧ (b.ty, b.used) ∈ W b.fin)) →
    addAll (tableOps pg (n + 2)) s bs = .ok s' →
    addAll still s bs = .ok s' ∨ TableOk pg s' ∧ Whole pg s' ∧ (∀ x, s'.view x = W x) ∧ s'.isInit = s.isInit := by
  induction bs with
  | nil =>
      intro s s' _ _ _ _ hrun
      exact Or.inl hrun
  | cons b bs ih =>
      intro s s' hptr hmax hW hquiet hrun
      obtain ⟨s₁, hadd, hrest⟩ := addAll_cons_eq_ok.mp hrun
      have hcons : ∀ x, Segments.den ((b :: bs : List RAMBlock) : Multiset RAMBlock) x =
          part b x + Segments.den (bs : Multiset RAMBlock) x := fun x => by
        rw [← Multiset.cons_coe, den_cons]
      have hquiet' := hquiet.imp_right fun h c hc => h c (List.mem_cons_of_mem b hc)
      by_cases hfits : s.Fits b
      · obtain ⟨s₂, hins, hstill, hreal⟩ := add_embedded pg hmax hfits
        rw [hreal _ _ rfl] at hadd
        cases hadd
        have hsum : ∀ x, s₁.den x + part p.embeddedBlock x + Segments.den (bs : Multiset RAMBlock) x = W x := by
          intro x
          rw [← hW, hins.den_eq, hcons]
          abel
        rw [← hins.isInit_eq]
        refine (ih (hins.ptr_eq.trans hptr) (hins.max_eq.trans hmax) hsum hquiet' hrest).imp_left fun hall => ?_
        exact addAll_cons_eq_ok.mpr ⟨s₁, hstill, hall⟩
      · obtain ⟨hok₁, hwhole₁, hview₁, hinit₁⟩ := add_outgrown hptr hmax (fun x =>
          le_trans (Multiset.card_le_card (hW x ▸ Multiset.le_add_right _ _)) (hcard x)) hfits hadd
        have hview : ∀ x, s₁.view x + Segments.den (bs : Multiset RAMBlock) x = W x := fun x => by
          rw [← hW, hview₁, hcons]
          abel
        obtain ⟨hok, hwhole, hview, hinit⟩ := addAll_full (roomy_of_card_le_one hcard) hok₁ hwhole₁ hview
          (hquiet'.imp_right (quiet_of_final fun x => (hview x).le)) hrest
        exact Or.inr ⟨hok, hwhole, hview, hinit.trans hinit₁⟩

/-! ### The table moves, and the two copies are made -/

/-- The move out of the embedded table, with four slots to spare: the new storage is cut out of free
memory and nothing else changes. -/
theorem relocate_embedded {o : TableOps} (hptr : s.ptr = p.embeddedPtr)
    (hmax : s.max = baseRbSize) (hroom : s.count + minReq ≤ s.max) (hsole : ∀ x, s.Sole x)
    (hunused : ∀ x, (RAMType.conv, true) ∉ s.den x) (hrun : p.relocate o s = .ok s') :
    TableOk p.pg s' ∧ Whole p.pg s' ∧ (∀ x, s'.view x = s.den x) ∧ s'.isInit = s.isInit := by
  have hmin : minReq = 4 := rfl
  rw [relocate, if_pos hptr] at hrun
  obtain ⟨⟨r, s₄⟩, halloc, hrun⟩ := bind_eq_ok.mp hrun
  cases r with
  | none => cases hrun
  | some q =>
      cases hrun
      have hram : nonRam.contains (AllocParams.new p.pg (ramBlockSize * s.max)).fromType = false ∧
          nonRam.contains (AllocParams.new p.pg (ramBlockSize * s.max)).asType = false := ⟨rfl, rfl⟩
      cases hreq : s.requested p.pg ((AllocParams.new p.pg (ramBlockSize * s.max)).build p.pg) with
      | none =>
          rw [alloc_eq_none p.pg o fun _ => hreq] at halloc
          cases halloc
      | some ptr =>
          rw [alloc_of_requested p.pg o hram hreq, if_neg (by omega)] at halloc
          have hpos : 0 < ptr.size := by rw [requested_size hreq]; exact sizeAlign_pos _ _
          rcases carve_quiet ((AllocParams.new p.pg (ramBlockSize * s.max)).build p.pg) hpos
            (hsole _) (hsole _) (by omega) (hunused _) with hnone | ⟨s₃, s₅, hcarved, hins, hcarve⟩
          · rw [hnone o] at halloc
            cases halloc
          rw [hcarve o] at halloc
          cases halloc
          have hmax₄ : s₄.max = baseRbSize := (hins.max_eq.trans hcarved.same.max_eq).trans hmax
          have hzero : ∀ x, Holds q x → s₃.den x = 0 := fun x hx =>
            den_eq_zero_of_sole (hsole x) (hcarved.den_eq x) hx
          have hused : ∀ x, Holds q x → s₄.den x = {(.conv, true)} := by
            intro x hx
            rw [hins.den_eq, hzero x hx, add_zero, part_block, if_pos hx]
            rfl
          refine ⟨⟨⟨⟨0, hmax₄⟩, requested_aligned hreq, ?_⟩, hused⟩, Or.inr (hins.covers_new hpos),
            fun x => ?_, hins.isInit_eq.trans hcarved.same.isInit_eq⟩
          · change q.size = tableBytes p.pg s₄.max
            rw [requested_size hreq, hmax₄, ← hmax, tableBytes, Nat.mul_comm]
            rfl
          · have hden := hcarved.den_eq x
            by_cases hx : Holds q x
            · rw [view_of_holds (show Holds ({ s₄ with ptr := q } : PhysAlloc).ptr x from hx), ← hden,
                hzero x hx, zero_add, part_block, if_pos hx]
              rfl
            · rw [view_of_not_holds (show ¬Holds ({ s₄ with ptr := q } : PhysAlloc).ptr x from hx)]
              change s₄.den x = s.den x
              rw [hins.den_eq, part_block, if_neg hx, zero_add, ← hden, part_block, if_neg hx, add_zero]

/-- A copy of `init` is taken from free memory. -/
theorem allocCopy_spec {size : Nat} {ty : RAMType} {q : OwnedPtr}
    (hok : TableOk p.pg s) (hwhole : Whole p.pg s) (hview : ∀ x, (s.view x).card ≤ 1) (hty : ty ≠ .conv)
    (hfresh : ∀ x, (ty, true) ∉ s.view x)
    (hrun : p.allocCopy (tableOps p.pg (n + 2)) s size ty = .ok (q, s')) :
    TableOk p.pg s' ∧ Whole p.pg s' ∧ (∀ x, Holds q x → s.view x = {(.conv, false)}) ∧
      (∀ x, s'.view x = if Holds q x then {(ty, true)} else s.view x) ∧ s'.isInit = s.isInit := by
  obtain ⟨⟨r, s₁⟩, halloc, hrun⟩ := bind_eq_ok.mp hrun
  obtain ⟨r', s₂, hout, halloc'⟩ := alloc_spec ((AllocParams.new p.pg size).asTy ty) hok hwhole
    (Or.inr ⟨hty, hfresh⟩) (fun x => hok.sole_iff.mpr (hview x))
  rw [halloc' n] at halloc
  cases halloc
  cases r with
  | none => cases hrun
  | some ptr =>
      cases hrun
      cases hout with
      | taken hreq hprep htaken =>
          refine ⟨htaken.tableOk, htaken.whole, fun x hx => htaken.view_was_free hok hprep hx,
            fun x => ?_, htaken.isInit_eq.trans hprep.isInit_eq⟩
          rw [htaken.view_eq, hprep.view_eq]
          rfl

/-! ### The table outgrows its storage while it moves -/

/-- A table of twice the embedded size in the storage of an embedded one. -/
structure Short (pg : BPage) (k : Nat) (s : PhysAlloc) : Prop where
  max_eq : s.max = 2 * baseRbSize
  size_eq : s.ptr.size = tableBytes pg baseRbSize
  count_le : s.count ≤ k

variable {k : Nat}

theorem Short.of_same (h : Short pg k s) (hsame : SameTable s s') {j : Nat} (hcount : s'.count ≤ j) :
    Short pg j s' :=
  ⟨hsame.max_eq.trans h.max_eq, by rw [hsame.ptr_eq, h.size_eq], hcount⟩

/-- Shrinking would have nothing to give back, so it only puts the table in order. -/
theorem Short.shrink (h : Short pg k s) {o : TableOps} (hsparse : s.count ≤ s.max >>> 2)
    (hrun : shrink pg o s (Nat.max (s.max >>> 1) baseRbSize) = .ok s') : Short pg k s' := by
  have hmax := h.max_eq
  have hnew : Nat.max (s.max >>> 1) baseRbSize = baseRbSize := by rw [hmax]; rfl
  have hbase : baseRbSize = 128 := rfl
  rw [hmax, Nat.shiftRight_eq_div_pow] at hsparse
  obtain ⟨cut, whole, -, hvalids, -, -, -, hsame, hto⟩ := @shrinkTo_of_accepted pg s baseRbSize
    (by omega) (by omega) (by decide)
  rw [shrink_eq_shrinkTo, hnew, hto, if_neg (by rw [h.size_eq]; exact lt_irrefl _),
    if_pos (by rw [h.size_eq]; exact Nat.sub_self _)] at hrun
  cases hrun
  exact h.of_same hsame ((count_congr hvalids).trans_le h.count_le)

theorem Short.add (h : Short pg k s) (hk : k < 2 * baseRbSize) {nb : RAMBlock}
    (hadd : add (tableOps pg (n + 1)) s nb = .ok s') : Short pg (k + 1) s' := by
  have hcount := h.count_le
  obtain ⟨s₁, -, hins, hreal⟩ := add_cases (fits_of_lt (by rw [h.max_eq]; omega) : s.Fits nb)
  have h₁ : Short pg (k + 1) s₁ := h.of_same hins.same (hins.count_le.trans (Nat.succ_le_succ hcount))
  rcases hreal with hreal | ⟨hsparse, hreal⟩
  · rw [hreal] at hadd
    cases hadd
    exact h₁
  · rw [hreal] at hadd
    exact h₁.shrink hsparse hadd

theorem Short.addAll {bs : List RAMBlock} : ∀ {s s' : PhysAlloc} {k : Nat}, Short pg k s →
    k + bs.length ≤ 2 * baseRbSize → addAll (tableOps pg (n + 1)) s bs = .ok s' → Short pg (k + bs.length) s' := by
  induction bs with
  | nil =>
      intro s s' k h _ hrun
      cases hrun
      exact h
  | cons b bs ih =>
      intro s s' k h hk hrun
      obtain ⟨s₁, hadd, hrest⟩ := addAll_cons_eq_ok.mp hrun
      rw [List.length_cons] at hk ⊢
      have h₁ := ih (h.add (by omega) hadd) (by omega) hrest
      rwa [Nat.add_assoc, Nat.add_comm 1] at h₁

theorem Short.allocCopy (h : Short p.pg k s) (hk : k + minReq ≤ 2 * baseRbSize) {size : Nat} {ty : RAMType}
    {q : OwnedPtr} (hrun : p.allocCopy (tableOps p.pg (n + 1)) s size ty = .ok (q, s')) : Short p.pg (k + 2) s' := by
  have hmin : minReq = 4 := rfl
  have hcount := h.count_le
  have hmax := h.max_eq
  obtain ⟨⟨r, s₄⟩, halloc, hrun⟩ := bind_eq_ok.mp hrun
  cases r with
  | none => cases hrun
  | some ptr =>
      cases hrun
      rcases alloc_eq_ok halloc with ⟨hr, -⟩ | ⟨-, _, -, ⟨-, hcarve⟩ | ⟨hfull, -⟩⟩
      · cases hr
      · rcases carve_eq_ok hcarve with ⟨hr, -⟩ | ⟨i, b, s₁, s₂, hget, hsize, -, -, -, -, hbefore, hafter, hnew, -⟩
        · cases hr
        have hless := invalidate_count hget hsize
        have h₀ : Short p.pg (s.count - 1) (s.setSlot i b.invalidate) :=
          h.of_same (sameTable_setSlot s i _) (by omega)
        have h₃ := ((h₀.add (by omega) hbefore).add (by omega) hafter).add (by omega) hnew
        exact ⟨h₃.max_eq, h₃.size_eq, h₃.count_le.trans (by omega)⟩
      · omega

/-- The move out of the embedded table with less than four slots to spare: the table grows inside the request
for storage of its old size. -/
theorem relocate_crowded (hptr : s.ptr = p.embeddedPtr) (hmax : s.max = baseRbSize)
    (hfull : s.max < s.count + minReq) (hcard : ∀ x, (s.den x + part p.embeddedBlock x).card ≤ 1)
    (hrun : p.relocate (tableOps p.pg (n + 2)) s = .ok s') : Short p.pg (baseRbSize + 6) s' := by
  have hmin : minReq = 4 := rfl
  have hmax' : s.max = 128 := hmax
  have hcountmax := s.count_le_max
  rw [relocate, if_pos hptr] at hrun
  obtain ⟨⟨r, s₄⟩, halloc, hrun⟩ := bind_eq_ok.mp hrun
  cases r with
  | none => cases hrun
  | some q =>
      cases hrun
      have hsize := alloc_size halloc
      rcases alloc_eq_ok halloc with ⟨hr, -⟩ | ⟨-, ptr, -, ⟨hroom, -⟩ | ⟨-, ⟨hr, -⟩ | ⟨s₁, hexpand, hcarve⟩⟩⟩
      · cases hr
      · omega
      · cases hr
      rcases @expand_outgrown p p.pg s ptr hptr hmax hcard hfull with hfail | ⟨s₁, hout, hreal⟩
      · cases (hfail _).symm.trans hexpand
      cases (hreal _).symm.trans hexpand
      have hmax₁ : s₁.max = 256 := hout.max_eq
      have hup := hout.count_le
      have hlow := hout.le_count
      obtain ⟨hsame, hcount⟩ := carve_dense (by omega) (by rw [hmax₁, Nat.shiftRight_eq_div_pow]; omega) hcarve
      refine ⟨hsame.max_eq.trans hout.max_eq, ?_, ?_⟩
      · change q.size = _
        rw [hsize, hmax, tableBytes, Nat.mul_comm]
        rfl
      · change s₄.count ≤ _
        rw [show baseRbSize = 128 from rfl]
        omega

end Platform

end UnixKernel
