import UnixKernel.GlacierRange

/-! `map_range` and `unmap_range` on one tree, and the tables they ask for. A page is mapped exactly if the allocator
serves as many requests in a row as there are tables missing on the path to it; a range stops at the first page
for which it does not. -/

namespace UnixKernel

open Radix

namespace Glacier

variable (cfg : RvmCfg)

/-- The allocator hands out pages for tables that the tree does not use. -/
def FreshTables (g : Glacier) (alloc : TableAlloc) : Prop := ∀ r, Fresh cfg (tables cfg r.mem g.rootTable) (alloc r)

/-- An allocator that keeps back pages in use. -/
def unusedTables (g : Glacier) (alloc : TableAlloc) : TableAlloc := fun r =>
  if Fresh cfg (tables cfg r.mem g.rootTable) (alloc r) then alloc r else []

theorem freshTables_unused (g : Glacier) (alloc : TableAlloc) : FreshTables cfg g (unusedTables cfg g alloc) := by
  intro r
  unfold unusedTables
  split_ifs with hfresh
  · exact hfresh
  · exact fresh_nil _

/-- No two of the addresses take the same path through the tables. -/
def Apart (addrs : List Nat) : Prop :=
  ∀ a ∈ addrs, ∀ b ∈ addrs, Agree cfg cfg.depth (BitVec.ofNat 64 a) (BitVec.ofNat 64 b) → a = b

instance (addrs : List Nat) : Decidable (Apart cfg addrs) :=
  inferInstanceAs (Decidable (∀ a ∈ addrs, ∀ b ∈ addrs, _))

/-- The tables that are missing on the path of an address, from a table with `d` levels below it. -/
def missing (m : Mem) (va : Word) : Nat → Word → Nat
  | 0, _ => 0
  | d + 1, t =>
    match edge cfg m t (cfg.index (d + 1) va) with
    | some c => missing m va d c
    | none => d + 1

/-- How many requests in a row are served. -/
def supply (answers : List (Option Word)) : Nat := (answers.takeWhile Option.isSome).length

/-- There is a page for every table that is missing. -/
def Served (g : Glacier) (m : Mem) (va : Word) (answers : List (Option Word)) : Prop :=
  missing cfg m va cfg.depth g.rootTable ≤ supply answers

variable {cfg} {arch : Arch} {p : Profile} {g : Glacier} {alloc : TableAlloc}

theorem Apart.subset {addrs addrs' : List Nat} (h : Apart cfg addrs) (hsub : addrs' ⊆ addrs) : Apart cfg addrs' :=
  fun a ha b hb => h a (hsub ha) b (hsub hb)

theorem Apart.not_agree {start off : Nat} {offs : List Nat} (h : Apart cfg ((off :: offs).map (start + ·)))
    (hoff : off ∉ offs) : ∀ off' ∈ offs,
      ¬Agree cfg cfg.depth (BitVec.ofNat 64 (start + off')) (BitVec.ofNat 64 (start + off)) := by
  intro off' hoff' hagree
  have heq := h _ (List.mem_map_of_mem (List.mem_cons_of_mem off hoff')) _ (List.mem_map_of_mem List.mem_cons_self)
    hagree
  exact hoff (Nat.add_left_cancel heq ▸ hoff')

/-! ### One page -/

section Page

variable {va va' word t : Word} {d : Nat} {m : Mem} {answers : List (Option Word)} {r : Ram}

theorem missing_of_some {c : Word} (hc : edge cfg m t (cfg.index (d + 1) va) = some c) :
    missing cfg m va (d + 1) t = missing cfg m va d c := by
  simp only [missing, hc]

theorem missing_of_none (hc : edge cfg m t (cfg.index (d + 1) va) = none) :
    missing cfg m va (d + 1) t = d + 1 := by
  simp only [missing, hc]

theorem missing_agree (h : Agree cfg d va va') : missing cfg m va d t = missing cfg m va' d t := by
  induction d generalizing t with
  | zero => rfl
  | succ d ih =>
    have hindex := h (d + 1) (le_refl _)
    cases hc : edge cfg m t (cfg.index (d + 1) va) with
    | some c =>
      rw [missing_of_some hc, missing_of_some (hindex ▸ hc)]
      exact ih fun k hk => h k (Nat.le_succ_of_le hk)
    | none => rw [missing_of_none hc, missing_of_none (hindex ▸ hc)]

theorem missing_blank (hva : InWidth cfg cfg.width d va) (h : ∀ i < pageEntries cfg, m (slot t i) = 0) :
    missing cfg m va d t = d := by
  cases d with
  | zero => rfl
  | succ d =>
    apply missing_of_none
    have hzero := h _ ((hva (d + 1) (le_refl _)).trans_le (width_le_page _))
    rw [edge, hzero]
    exact if_pos (BitVec.zero_and)

theorem missing_eq_zero
    (hindex : ∀ i, 1 ≤ i → i ≤ d → cfg.index i va = cfg.index i va')
    (hwalk : (walkFrom cfg m va' d t).isSome) : missing cfg m va d t = 0 := by
  induction d generalizing t with
  | zero => rfl
  | succ d ih =>
    cases hc : edge cfg m t (cfg.index (d + 1) va) with
    | some c =>
      rw [missing_of_some hc]
      rw [walkFrom, ← hindex (d + 1) (Nat.succ_pos d) (le_refl _), hc] at hwalk
      exact ih (fun i hpos hi => hindex i hpos (Nat.le_succ_of_le hi)) hwalk
    | none =>
      rw [walkFrom, ← hindex (d + 1) (Nat.succ_pos d) (le_refl _), hc] at hwalk
      exact absurd hwalk Bool.false_ne_true

theorem mapFrom_of_missing (h : missing cfg r.mem va d t = 0) (answers : List (Option Word)) :
    mapFrom cfg arch va word d t answers r = mapFrom cfg arch va word d t [] r := by
  induction d generalizing t with
  | zero => rfl
  | succ d ih =>
    cases hc : edge cfg r.mem t (cfg.index (d + 1) va) with
    | some c =>
      rw [missing_of_some hc] at h
      rw [mapFrom_of_some hc, mapFrom_of_some hc, ih h]
    | none =>
      rw [missing_of_none hc] at h
      exact absurd h (Nat.succ_ne_zero d)

theorem mapFrom_ok_iff (hva : InWidth cfg cfg.width d va) (ht : Aligned cfg t)
    (hfresh : Fresh cfg (tablesFrom cfg cfg.width r.mem d t) answers) :
    (mapFrom cfg arch va word d t answers r).1 = .ok () ↔ missing cfg r.mem va d t ≤ supply answers := by
  induction d generalizing t answers r with
  | zero => exact iff_of_true rfl (Nat.zero_le _)
  | succ d ih =>
    have hi := hva (d + 1) (le_refl _)
    have hva' : InWidth cfg cfg.width d va := fun k hk => hva k (Nat.le_succ_of_le hk)
    cases hc : edge cfg r.mem t (cfg.index (d + 1) va) with
    | some c =>
      rw [mapFrom_of_some hc, missing_of_some hc]
      exact ih hva' (aligned_of_edge hc) (hfresh.mono fun n hn => mem_nodes_of_child hi hc hn)
    | none =>
      rw [missing_of_none hc]
      have hentry : r.mem (slot t (cfg.index (d + 1) va)) &&& flagValid = 0 := by
        rw [edge] at hc
        split_ifs at hc with hvalid
        exact hvalid
      rcases answers with - | ⟨- | q, rest⟩
      · exact iff_of_false (by simp [mapFrom, hentry]) (Nat.not_succ_le_zero d)
      · exact iff_of_false (by simp [mapFrom, hentry]) (Nat.not_succ_le_zero d)
      · obtain ⟨hq, hunused, hrest⟩ := hfresh.tail
        have hqt : q ≠ t := by
          rintro rfl
          exact hunused (mem_nodes_self _ q)
        have hblank : ∀ j < pageEntries cfg, linked cfg arch r.mem t (cfg.index (d + 1) va) q (slot q j) = 0 :=
          fun j hj => linked_blank ht hq hqt (hi.trans_le (width_le_page _)) hj
        have htables : tablesFrom cfg cfg.width (linked cfg arch r.mem t (cfg.index (d + 1) va) q) d q = [q] :=
          tablesFrom_blank fun j hj => hblank j (hj.trans_le (width_le_page d))
        have hstep : mapFrom cfg arch va word (d + 1) t (some q :: rest) r = mapFrom cfg arch va word d q rest
            ⟨linked cfg arch r.mem t (cfg.index (d + 1) va) q, r.taken ++ [q], r.freed⟩ := if_pos hentry
        rw [hstep, ih hva' hq (by rw [htables]; exact hrest), missing_blank hva' hblank]
        exact (Nat.succ_le_succ_iff).symm

theorem mapPage_ok_iff {pa flags : Word} (hwf : WellFormed cfg r.mem g.rootTable)
    (hfresh : Fresh cfg (tables cfg r.mem g.rootTable) answers) :
    (mapPage cfg arch g va pa flags answers r).1 = .ok () ↔ Served cfg g r.mem va answers := by
  rw [Served, ← missing_agree (agree_and_addrMask (le_refl _) va)]
  exact mapFrom_ok_iff (inWidth_width _) hwf.aligned hfresh

/-- A call that fails has first taken every page of the answers up to the refusal. -/
theorem mapFrom_taken_of_error (hfail : (mapFrom cfg arch va word d t answers r).1 = .error .failed2Alloc) :
    (mapFrom cfg arch va word d t answers r).2.taken.length = r.taken.length + supply answers := by
  induction d generalizing t answers r with
  | zero => cases hfail
  | succ d ih =>
    by_cases hentry : r.mem (slot t (cfg.index (d + 1) va)) &&& flagValid = 0
    · match answers with
      | [] => simp [mapFrom, hentry, supply]
      | none :: rest => simp [mapFrom, hentry, supply]
      | some q :: rest =>
        have hstep : mapFrom cfg arch va word (d + 1) t (some q :: rest) r = mapFrom cfg arch va word d q rest
            ⟨linked cfg arch r.mem t (cfg.index (d + 1) va) q, r.taken ++ [q], r.freed⟩ := if_pos hentry
        have hsupply : supply (some q :: rest) = supply rest + 1 := by simp [supply]
        rw [hstep] at hfail ⊢
        rw [ih hfail, hsupply, List.length_append, List.length_singleton]
        omega
    · have hstep : mapFrom cfg arch va word (d + 1) t answers r =
          mapFrom cfg arch va word d (r.mem (slot t (cfg.index (d + 1) va)) &&& cfg.psz.addrMask) answers r :=
        if_neg hentry
      rw [hstep] at hfail ⊢
      exact ih hfail

/-- A `map_page` that fails changes no translation. The tables it has linked in stay in the tree, so the tables
are those from before exactly if the first request was already refused. -/
theorem mapPage_failed {pa flags : Word} {r' : Ram} (hwf : WellFormed cfg r.mem g.rootTable)
    (hfresh : Fresh cfg (tables cfg r.mem g.rootTable) answers)
    (hfail : mapPage cfg arch g va pa flags answers r = (.error .failed2Alloc, r')) :
    ((∀ va', cfg.Canonical va' → walk cfg r'.mem g.rootTable va' = walk cfg r.mem g.rootTable va') ∧
      ∀ n, n ∈ tables cfg r'.mem g.rootTable ↔ n ∈ tables cfg r.mem g.rootTable) ↔
    supply answers = 0 := by
  obtain ⟨added, hsub, htaken, -, heffect⟩ := @mapPage_effect cfg arch cfg.width va answers r g pa flags
    width_le_page (inWidth_width va) hwf.aligned hwf.nodup hfresh
  have hlength := @mapFrom_taken_of_error cfg arch (va &&& cfg.psz.addrMask) (pa &&& cfg.psz.addrMask ||| flags)
    g.rootTable cfg.depth answers r (congrArg Prod.fst hfail)
  change (mapPage cfg arch g va pa flags answers r).2.taken.length = _ at hlength
  rw [htaken, List.length_append, Nat.add_left_cancel_iff] at hlength
  rw [hfail] at heffect
  have hwalk : ∀ va', cfg.Canonical va' → walk cfg r'.mem g.rootTable va' = walk cfg r.mem g.rootTable va' :=
    fun va' _ => heffect.miss va' (inWidth_width va') nofun
  have hmem : ∀ n, n ∈ tables cfg r'.mem g.rootTable ↔ n ∈ added ∨ n ∈ tables cfg r.mem g.rootTable :=
    fun n => (heffect.tables.mem_iff).trans List.mem_append
  rw [← hlength, List.length_eq_zero_iff]
  constructor
  · rintro ⟨-, htables⟩
    -- a page that was linked in would have been in use before
    refine List.eq_nil_iff_forall_not_mem.mpr fun n hn => ?_
    exact hfresh.unused n (hsub.subset hn) ((htables n).mp ((hmem n).mpr (.inl hn)))
  · rintro rfl
    exact ⟨hwalk, fun n => (hmem n).trans (or_iff_right List.not_mem_nil)⟩

/-- Three levels of 4 KiB tables, the root with four entries. -/
def threeLevels : RvmCfg := ⟨.size4kiB, 32, 32, by decide, by decide⟩

theorem mapPage_failed_threeLevels :
    ((∀ va', threeLevels.Canonical va' →
        walk threeLevels (mapPage threeLevels .amd64 ⟨0x1000, true⟩ 0x3000 0x5000 0b11 [none] blankRoot).2.mem
          0x1000 va' = walk threeLevels blankRoot.mem 0x1000 va') ∧
      ∀ n, n ∈ tables threeLevels
        (mapPage threeLevels .amd64 ⟨0x1000, true⟩ 0x3000 0x5000 0b11 [none] blankRoot).2.mem 0x1000 ↔
        n ∈ tables threeLevels blankRoot.mem 0x1000) :=
  (@mapPage_failed threeLevels .amd64 ⟨0x1000, true⟩ 0x3000 [none] blankRoot 0x5000 0b11 _ (by decide)
    (by decide) rfl).mpr rfl

/-- The second table is refused, and the first one stays in the tree. -/
theorem mapPage_keeps_table :
    WellFormed threeLevels blankRoot.mem 0x1000 ∧ threeLevels.Canonical 0x3000 ∧
    Fresh threeLevels (tables threeLevels blankRoot.mem 0x1000) [some 0x2000, none] ∧
    (mapPage threeLevels .amd64 ⟨0x1000, true⟩ 0x3000 0x5000 0b11 [some 0x2000, none] blankRoot).1 =
      .error .failed2Alloc ∧
    0x2000 ∉ tables threeLevels blankRoot.mem 0x1000 ∧
    0x2000 ∈ tables threeLevels (mapPage threeLevels .amd64 ⟨0x1000, true⟩ 0x3000 0x5000 0b11
      [some 0x2000, none] blankRoot).2.mem 0x1000 :=
  ⟨by decide, by decide, by decide, rfl, by decide, mem_nodes_of_child (i := 0) (by decide) rfl (mem_nodes_self _ _)⟩

end Page

/-! ### A range -/

theorem ite_exists_mem_cons {α β : Type} {P : α → Prop} {a : α} {l : List α} {x y : β} [Decidable (P a)]
    [Decidable (∃ b ∈ l, P b)] [Decidable (∃ b ∈ a :: l, P b)] :
    (if ∃ b ∈ l, P b then x else if P a then x else y) = if ∃ b ∈ a :: l, P b then x else y := by
  by_cases hlater : ∃ b ∈ l, P b
  · obtain ⟨b, hb, hP⟩ := hlater
    rw [if_pos ⟨b, hb, hP⟩, if_pos ⟨b, List.mem_cons_of_mem a hb, hP⟩]
  · rw [if_neg hlater]
    refine if_congr ?_ rfl rfl
    rw [List.exists_mem_cons_iff]
    exact (or_iff_left hlater).symm

section Range

variable (cfg arch g alloc) in
/-- There are pages for the missing tables in every round of `map_range`. -/
def ServedPages (vaStart paStart : Nat) (flags : Word) : List Nat → Ram → Prop
  | [], _ => True
  | off :: offs, r => Served cfg g r.mem (BitVec.ofNat 64 (vaStart + off)) (alloc r) ∧
      ServedPages vaStart paStart flags offs (mapAt cfg arch g alloc (vaStart + off) (paStart + off) flags r).2

instance decidableServedPages (vaStart paStart : Nat) (flags : Word) :
    (offs : List Nat) → (r : Ram) → Decidable (ServedPages cfg arch g alloc vaStart paStart flags offs r)
  | [], _ => isTrue trivial
  | off :: offs, r =>
    have := decidableServedPages vaStart paStart flags offs
      (mapAt cfg arch g alloc (vaStart + off) (paStart + off) flags r).2
    inferInstanceAs (Decidable (_ ≤ _ ∧ ServedPages cfg arch g alloc vaStart paStart flags offs _))

variable {vaStart paStart : Nat} {flags : Word} {offs : List Nat} {r r' : Ram}

/-- One round, however it ends. -/
theorem mapAt_agree {va pa : Nat} {x : Except RangeStop Unit} (hwf : WellFormed cfg r.mem g.rootTable)
    (halloc : FreshTables cfg g alloc) (hmap : mapAt cfg arch g alloc va pa flags r = (x, r')) :
    WellFormed cfg r'.mem g.rootTable ∧
    (x = .ok () ↔ Served cfg g r.mem (BitVec.ofNat 64 va) (alloc r)) ∧
    (x = .ok () → walk cfg r'.mem g.rootTable (BitVec.ofNat 64 va) =
      present (BitVec.ofNat 64 pa &&& cfg.psz.addrMask ||| flags)) ∧
    ∀ va', (x = .ok () → ¬Agree cfg cfg.depth (BitVec.ofNat 64 va) va') →
      walk cfg r'.mem g.rootTable va' = walk cfg r.mem g.rootTable va' := by
  have hserved := @mapPage_ok_iff cfg arch g (BitVec.ofNat 64 va) (alloc r) r (BitVec.ofNat 64 pa) flags hwf (halloc r)
  unfold mapAt at hmap
  split at hmap <;> rename_i r₁ hpage <;> cases hmap <;>
    obtain ⟨hwf', hhit, hmiss⟩ := mapPage_agree hwf (halloc r) hpage <;> rw [hpage] at hserved
  · have hone : Served cfg g r.mem (BitVec.ofNat 64 va) (alloc r) := hserved.mp rfl
    refine ⟨hwf', iff_of_true rfl hone, fun _ => hhit rfl _ fun _ _ => rfl, fun va' hva' => ?_⟩
    exact hmiss va' fun _ => hva' rfl
  · refine ⟨hwf', ?_, fun h => absurd h (by simp), fun va' _ => hmiss va' fun h => absurd h (by simp)⟩
    exact iff_of_false (by simp) fun h => absurd (hserved.mpr h) (by simp)

/-- The pages of a range before and after the loop of `map_range`. -/
structure MapsRange (cfg : RvmCfg) (g : Glacier) (vaStart paStart : Nat) (flags : Word) (offs : List Nat)
    (served : Prop) (r r' : Ram) : Prop where
  wellFormed : WellFormed cfg r'.mem g.rootTable
  other : ∀ va, (∀ off ∈ offs, ¬Agree cfg cfg.depth (BitVec.ofNat 64 (vaStart + off)) va) →
    walk cfg r'.mem g.rootTable va = walk cfg r.mem g.rootTable va
  mapped : served → ∀ off ∈ offs, walk cfg r'.mem g.rootTable (BitVec.ofNat 64 (vaStart + off)) =
    present (BitVec.ofNat 64 (paStart + off) &&& cfg.psz.addrMask ||| flags)
  hole : ¬served → ∃ off ∈ offs, walk cfg r'.mem g.rootTable (BitVec.ofNat 64 (vaStart + off)) =
    walk cfg r.mem g.rootTable (BitVec.ofNat 64 (vaStart + off))

/-- The loop of `map_range` succeeds exactly if its requests are served, and else leaves a page as it was. -/
theorem mapPages_maps (hwf : WellFormed cfg r.mem g.rootTable) (halloc : FreshTables cfg g alloc)
    (hpa : ∀ off ∈ offs, paStart + off < 2 ^ 64) (hnodup : offs.Nodup) (hapart : Apart cfg (offs.map (vaStart + ·)))
    {x : Except RangeStop Unit} (hmap : mapPages cfg arch p g alloc vaStart paStart flags offs r = (x, r')) :
    x ≠ .error .panic ∧
    MapsRange cfg g vaStart paStart flags offs (ServedPages cfg arch g alloc vaStart paStart flags offs r) r r' := by
  induction offs generalizing r with
  | nil =>
    cases hmap
    exact ⟨by simp, hwf, fun _ _ => rfl, fun _ _ h => absurd h List.not_mem_nil, fun h => absurd trivial h⟩
  | cons off offs ih =>
    rw [List.forall_mem_cons] at hpa
    rw [List.nodup_cons] at hnodup
    have hlater := hapart.not_agree hnodup.1
    rw [mapPages, Profile.fit_of_lt hpa.1, Eff.lift_ok_bind] at hmap
    rcases hfirst : mapAt cfg arch g alloc (vaStart + off) (paStart + off) flags r with ⟨e | _, r₁⟩
    all_goals
      obtain ⟨hwf₁, hserved, hhit, hmiss⟩ := mapAt_agree hwf halloc hfirst
    · rw [Eff.bind_of_error hfirst] at hmap
      cases hmap
      have hnot : ¬Served cfg g r.mem (BitVec.ofNat 64 (vaStart + off)) (alloc r) :=
        fun h => absurd (hserved.mpr h) (by simp)
      refine ⟨?_, hwf₁, fun va _ => hmiss va (by simp), fun h => absurd h.1 hnot, fun _ => ?_⟩
      · unfold mapAt at hfirst
        split at hfirst <;> cases hfirst
        simp
      · exact ⟨off, List.mem_cons_self, hmiss _ (by simp)⟩
    · rw [Eff.bind_of_ok hfirst] at hmap
      obtain ⟨hpanic, hrest⟩ := ih hwf₁ hpa.2 hnodup.2
        (hapart.subset (List.map_subset _ (List.subset_cons_self off offs))) hmap
      have hone : Served cfg g r.mem (BitVec.ofNat 64 (vaStart + off)) (alloc r) := hserved.mp rfl
      have hpages : ServedPages cfg arch g alloc vaStart paStart flags (off :: offs) r ↔
          ServedPages cfg arch g alloc vaStart paStart flags offs r₁ := by
        rw [ServedPages, hfirst]
        exact and_iff_right hone
      refine ⟨hpanic, hrest.wellFormed, fun va hva => ?_, fun h => ?_, fun h => ?_⟩
      · rw [List.forall_mem_cons] at hva
        exact (hrest.other va hva.2).trans (hmiss va fun _ => hva.1)
      · exact List.forall_mem_cons.mpr ⟨(hrest.other _ hlater).trans (hhit rfl), hrest.mapped (hpages.mp h)⟩
      · obtain ⟨off', hoff', hsame⟩ := hrest.hole fun hs => h (hpages.mpr hs)
        refine ⟨off', List.mem_cons_of_mem off hoff', hsame.trans (hmiss _ fun _ hagree => ?_)⟩
        exact hlater off' hoff' hagree.symm

theorem unmapPages_walk (hwf : WellFormed cfg r.mem g.rootTable) :
    WellFormed cfg (unmapPages cfg g vaStart offs r).2.mem g.rootTable ∧
    ∀ va, walk cfg (unmapPages cfg g vaStart offs r).2.mem g.rootTable va =
      if ∃ off ∈ offs, Agree cfg cfg.depth (BitVec.ofNat 64 (vaStart + off)) va then none
      else walk cfg r.mem g.rootTable va := by
  induction offs generalizing r with
  | nil => exact ⟨hwf, fun va => (if_neg (by simp)).symm⟩
  | cons off offs ih =>
    obtain ⟨hwf₁, hwalk⟩ := unmapPage_agree hwf (BitVec.ofNat 64 (vaStart + off))
    obtain ⟨hwf₂, hrest⟩ := ih hwf₁
    refine ⟨hwf₂, fun va => (hrest va).trans ?_⟩
    rw [hwalk va]
    exact ite_exists_mem_cons

end Range

end Glacier

end UnixKernel
