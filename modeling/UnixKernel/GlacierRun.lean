import UnixKernel.GlacierUnmap
import UnixKernel.Runs

/-! Runs of `map_page` and `unmap_page` on one `Glacier`. As long as the maps succeed with valid flags, the
tree stays dense: every entry is zero or valid, and every table but the root holds something. So a table
is there exactly when a mapped page needs it, and the pages taken from the allocator and not given back
are the tables of the tree. -/

namespace UnixKernel

open Radix Runs

/-- A call on the page tables, with the answers of the allocator during it. -/
inductive PageCall where
  | map (va pa flags : Word) (answers : List (Option Word))
  | unmap (va : Word)

namespace Glacier

variable (cfg : RvmCfg) (arch : Arch) (g : Glacier)

def exec (r : Ram) : PageCall → Except GlacierErr Unit × Ram
  | .map va pa flags answers => mapPage cfg arch g va pa flags answers r
  | .unmap va => (.ok (), unmapPage cfg g va r)

/-- A call for its effect on memory. -/
def step (r : Ram) (c : PageCall) : Ram := (exec cfg arch g r c).2

variable {cfg arch g}

/-! ### The pages that are out -/

/-- The pages taken and not given back are those of `held`. -/
def Ledger (r : Ram) (held : List Word) : Prop := r.taken.Perm (r.freed.map Prod.fst ++ held)

theorem Ledger.take {r r' : Ram} {held held' added : List Word} (h : Ledger r held)
    (htaken : r'.taken = r.taken ++ added) (hfreed : r'.freed = r.freed)
    (hheld : held'.Perm (added ++ held)) : Ledger r' held' := by
  have hout : (held ++ added).Perm held' := List.perm_append_comm.trans hheld.symm
  rw [Ledger, htaken, hfreed]
  refine (h.append_right added).trans ?_
  rw [List.append_assoc]
  exact hout.append_left _

theorem Ledger.free {r r' : Ram} {held held' : List Word} {freed : List (Word × Mem)} (h : Ledger r held)
    (htaken : r'.taken = r.taken) (hfreed : r'.freed = r.freed ++ freed)
    (hheld : held.Perm (freed.map Prod.fst ++ held')) : Ledger r' held' := by
  rw [Ledger, htaken, hfreed, List.map_append, List.append_assoc]
  exact h.trans (hheld.append_left _)

/-! ### The invariant -/

variable (cfg arch g) in
/-- A map that succeeds with a valid flag and gets pages that are not in use, or any unmap. -/
def Regular (r : Ram) : PageCall → Prop
  | .map va pa flags answers => Fresh cfg (tables cfg r.mem g.rootTable) answers ∧
      flags &&& flagValid ≠ 0 ∧ (mapPage cfg arch g va pa flags answers r).1 = .ok ()
  | .unmap _ => True

variable (cfg g) in
/-- A tree without sharing and without empty tables, made of the pages that are out. -/
structure Tidy (r : Ram) : Prop where
  wellFormed : WellFormed cfg r.mem g.rootTable
  dense : Dense cfg cfg.width r.mem cfg.depth g.rootTable
  ledger : Ledger r (tables cfg r.mem g.rootTable)

theorem Tidy.step {r : Ram} {c : PageCall} (h : Tidy cfg g r) (hc : Regular cfg arch g r c) :
    Tidy cfg g (step cfg arch g r c) := by
  obtain ⟨hroot, hnodup⟩ := h.wellFormed
  cases c with
  | map va pa flags answers =>
      obtain ⟨hfresh, hflags, hok⟩ := hc
      obtain ⟨added, hsub, htaken, hfreed, heffect⟩ := @mapPage_effect cfg arch cfg.width va answers r g pa
        flags width_le_page (inWidth_width va) hroot hnodup hfresh
      exact ⟨⟨hroot, heffect.nodup hnodup hfresh hsub⟩, (heffect.dense hok (valid_or hflags) h.dense).1,
        h.ledger.take htaken hfreed heffect.tables⟩
  | unmap va =>
      obtain ⟨htaken, freed, null, hfreed, heffect⟩ := unmapPage_effect (fun k => le_refl (cfg.width k))
        (inWidth_width va) hroot hnodup
      exact ⟨⟨hroot, (List.nodup_append.mp (heffect.tables.nodup_iff.mp hnodup)).2.1⟩,
        (heffect.dense rfl h.dense).1, h.ledger.free htaken hfreed heffect.tables⟩

theorem tidy_init {root : Word} {m : Mem} {r : Ram} (hroot : Aligned cfg root)
    (hinit : init cfg (some root) ⟨m, [], []⟩ = .ok (g, r)) : Tidy cfg g r := by
  cases hinit
  have hblank : ∀ i < cfg.width cfg.depth, m.zero root (pageEntries cfg) (slot root i) = 0 :=
    fun i hi => zero_slot m root (Nat.lt_of_lt_of_le hi (width_le_page _))
  have htables : tables cfg (m.zero root (pageEntries cfg)) root = [root] := tablesFrom_blank hblank
  refine ⟨⟨hroot, ?_⟩, dense_blank hblank, ?_⟩
  · rw [Ram.take, htables]
    exact List.nodup_singleton root
  · rw [Ledger, Ram.take, htables]
    exact List.Perm.refl _

/-! ### Which tables there are -/

variable (cfg) in
/-- The tables with the indices that lead to them. -/
def tablePaths (m : Mem) (root : Word) : List (List Nat × Word) := paths (edge cfg m) cfg.width cfg.depth root

variable (cfg) in
/-- The indices of an address, from the root on. -/
def indices (va : Word) : List Nat := (List.range cfg.levels).map fun level => cfg.getIndex level va

variable (cfg) in
/-- The indices of an address from a table with `d` levels below it. -/
def pathFrom (va : Word) : Nat → List Nat
  | 0 => [cfg.index 0 va]
  | d + 1 => cfg.index (d + 1) va :: pathFrom va d

theorem pathFrom_eq (va : Word) (d : Nat) :
    pathFrom cfg va d = (List.range (d + 1)).map fun j => cfg.index (d - j) va := by
  induction d with
  | zero => rfl
  | succ d ih =>
      conv_rhs => rw [List.range_succ_eq_map, List.map_cons, List.map_map]
      rw [pathFrom, ih]
      congr 1
      refine List.map_congr_left fun j _ => ?_
      rw [Function.comp_apply, Nat.succ_sub_succ]

theorem indices_eq (va : Word) : indices cfg va = pathFrom cfg va cfg.depth := by
  rw [indices, pathFrom_eq, cfg.levels_eq]
  refine List.map_congr_left fun j hj => ?_
  rw [RvmCfg.index, Nat.sub_sub_self (Nat.lt_succ_iff.mp (List.mem_range.mp hj))]

section Paths

variable {w : Nat → Nat} {m : Mem} {d : Nat} {t : Word}

/-- A mapped address has a table for each proper prefix of its indices. -/
theorem mem_paths_of_walk {va : Word} (hva : InWidth cfg w d va)
    (hwalk : (walkFrom cfg m va d t).isSome) {p : List Nat} (hp : p <+: pathFrom cfg va d)
    (hlen : p.length ≤ d) : p ∈ (paths (edge cfg m) w d t).map Prod.fst := by
  induction d generalizing t p with
  | zero =>
      rw [List.length_eq_zero_iff.mp (Nat.le_zero.mp hlen)]
      exact List.mem_map_of_mem (mem_paths_self 0 t)
  | succ d ih =>
      cases p with
      | nil => exact List.mem_map_of_mem (mem_paths_self _ t)
      | cons i q =>
          obtain ⟨hi, hq⟩ := List.cons_prefix_cons.mp hp
          rw [walkFrom] at hwalk
          cases hc : edge cfg m t (cfg.index (d + 1) va) with
          | none =>
              rw [hc] at hwalk
              cases hwalk
          | some c =>
              rw [hc] at hwalk
              have hmem := ih (fun k hk => hva k (Nat.le_succ_of_le hk)) hwalk hq
                (Nat.le_of_succ_le_succ hlen)
              obtain ⟨n, hn, rfl⟩ := List.mem_map.mp hmem
              have hpath := mem_paths_succ.mpr (Or.inr ⟨_, hva (d + 1) (le_refl _), c, hc, n, hn, rfl⟩)
              rw [hi]
              exact List.mem_map.mpr ⟨_, hpath, rfl⟩

/-- In a dense tree every path to a table can be followed further to a mapped page. -/
theorem exists_walk_of_mem_paths (hdense : Dense cfg w m d t) (hocc : Occupied w m d t)
    {q : List Nat × Word} (hq : q ∈ paths (edge cfg m) w d t) :
    ∃ digit : Nat → Nat, (∀ k ≤ d, digit k < w k) ∧ ∀ va, (∀ k ≤ d, cfg.index k va = digit k) →
      (walkFrom cfg m va d t).isSome ∧ q.1 <+: pathFrom cfg va d := by
  induction d generalizing t q with
  | zero =>
      obtain ⟨i, hi, hne⟩ := hocc
      refine ⟨fun _ => i, fun k hk => ?_, fun va hva => ?_⟩
      · rw [Nat.le_zero.mp hk]
        exact hi
      · rw [walkFrom, hva 0 (le_refl 0), present, if_neg (hdense i hi hne), List.mem_singleton.mp hq]
        exact ⟨rfl, List.nil_prefix⟩
  | succ d ih =>
      -- the slot that the path takes, or any slot in use when it ends here
      obtain ⟨i, hi, c, hc, n, hn, hpre⟩ : ∃ i < w (d + 1), ∃ c, edge cfg m t i = some c ∧
          ∃ n ∈ paths (edge cfg m) w d c, q.1 <+: i :: n.1 := by
        rcases mem_paths_succ.mp hq with rfl | ⟨i, hi, c, hc, n, hn, rfl⟩
        · obtain ⟨i, hi, hne⟩ := hocc
          obtain ⟨c, hc, -⟩ := hdense i hi hne
          exact ⟨i, hi, c, hc, _, mem_paths_self d c, List.nil_prefix⟩
        · exact ⟨i, hi, c, hc, n, hn, List.prefix_refl _⟩
      obtain ⟨hdc, hoc⟩ := hdense.child hi hc
      obtain ⟨digit, hdigit, hwalk⟩ := ih hdc hoc hn
      refine ⟨fun k => if k = d + 1 then i else digit k, fun k hk => ?_, fun va hva => ?_⟩
      · change (if k = d + 1 then i else digit k) < w k
        split_ifs with heq
        · rwa [heq]
        · exact hdigit k (by omega)
      · have hindex : cfg.index (d + 1) va = i := (hva (d + 1) (le_refl _)).trans (if_pos rfl)
        obtain ⟨hsome, hpre'⟩ := hwalk va fun k hk =>
          (hva k (Nat.le_succ_of_le hk)).trans (if_neg (by omega))
        rw [walkFrom, pathFrom, hindex, hc]
        exact ⟨hsome, hpre.trans (List.cons_prefix_cons.mpr ⟨rfl, hpre'⟩)⟩

/-- In a dense tree every table below the first one holds something. -/
theorem occupied_of_mem_paths (hdense : Dense cfg w m d t) {q : List Nat × Word}
    (hq : q ∈ paths (edge cfg m) w d t) (hne : q.1 ≠ []) : Occupied w m (d - q.1.length) q.2 := by
  induction d generalizing t q with
  | zero =>
      rw [List.mem_singleton.mp hq] at hne
      exact absurd rfl hne
  | succ d ih =>
      rcases mem_paths_succ.mp hq with rfl | ⟨i, hi, c, hc, n, hn, rfl⟩
      · exact absurd rfl hne
      · obtain ⟨hdc, hoc⟩ := hdense.child hi hc
        rw [List.length_cons, Nat.succ_sub_succ]
        by_cases hnil : n.1 = []
        · have hnc : n.2 = c := by
            cases d with
            | zero => rw [List.mem_singleton.mp hn]
            | succ d =>
                rcases mem_paths_succ.mp hn with rfl | ⟨j, -, b, -, n', -, rfl⟩
                · rfl
                · cases hnil
          rw [hnil, hnc]
          exact hoc
        · exact ih hdc hn hnil

theorem occupied_of_path {q : List Nat × Word} (hq : q ∈ paths (edge cfg m) w d t) (hne : q.1 ≠ []) :
    Occupied w m d t := by
  cases d with
  | zero =>
      rw [List.mem_singleton.mp hq] at hne
      exact absurd rfl hne
  | succ d =>
      rcases mem_paths_succ.mp hq with rfl | ⟨i, hi, c, hc, -⟩
      · exact absurd rfl hne
      · exact ⟨i, hi, ne_zero_of_edge hc⟩

end Paths

variable (cfg) in
/-- The tables are the root and one for each proper prefix of the indices of a mapped page, and they are
the pages that are out. -/
structure PrefixTables (root : Word) (r : Ram) : Prop where
  held : r.taken.Perm (r.freed.map Prod.fst ++ (tablePaths cfg r.mem root).map Prod.snd)
  tables_nodup : ((tablePaths cfg r.mem root).map Prod.snd).Nodup
  paths_nodup : ((tablePaths cfg r.mem root).map Prod.fst).Nodup
  mem_iff : ∀ p, p ∈ (tablePaths cfg r.mem root).map Prod.fst ↔ p = [] ∨ p.length < cfg.levels ∧
    ∃ va, cfg.Canonical va ∧ (walk cfg r.mem root va).isSome ∧ p <+: indices cfg va
  not_empty : ∀ q ∈ tablePaths cfg r.mem root, q.1 ≠ [] →
    ∃ i < cfg.entCnt q.1.length, r.mem (slot q.2 i) ≠ 0
  root_only : (∀ va, cfg.Canonical va → walk cfg r.mem root va = none) →
    r.taken.Perm (r.freed.map Prod.fst ++ [root])

section Tidy

variable {r : Ram} (h : Tidy cfg g r)

include h

theorem Tidy.exists_mapped (hocc : Occupied cfg.width r.mem cfg.depth g.rootTable) {q : List Nat × Word}
    (hq : q ∈ tablePaths cfg r.mem g.rootTable) :
    ∃ va, cfg.Canonical va ∧ (walk cfg r.mem g.rootTable va).isSome ∧ q.1 <+: indices cfg va := by
  obtain ⟨digit, hdigit, hwalk⟩ := exists_walk_of_mem_paths h.dense hocc hq
  obtain ⟨va, hva, hindex⟩ := cfg.exists_canonical digit hdigit
  refine ⟨va, hva, ?_⟩
  rw [indices_eq]
  exact hwalk va hindex

theorem Tidy.mem_tablePaths_iff (p : List Nat) :
    p ∈ (tablePaths cfg r.mem g.rootTable).map Prod.fst ↔ p = [] ∨ p.length < cfg.levels ∧
      ∃ va, cfg.Canonical va ∧ (walk cfg r.mem g.rootTable va).isSome ∧ p <+: indices cfg va := by
  rw [cfg.levels_eq]
  constructor
  · intro hp
    obtain ⟨q, hq, rfl⟩ := List.mem_map.mp hp
    by_cases hnil : q.1 = []
    · exact Or.inl hnil
    · exact Or.inr ⟨Nat.lt_succ_of_le (length_le_of_mem_paths hq),
        h.exists_mapped (occupied_of_path hq hnil) hq⟩
  · rintro (rfl | ⟨hlen, va, -, hwalk, hp⟩)
    · exact List.mem_map_of_mem (mem_paths_self _ _)
    · rw [indices_eq] at hp
      exact mem_paths_of_walk (inWidth_width va) hwalk hp (Nat.le_of_lt_succ hlen)

theorem Tidy.prefixTables : PrefixTables cfg g.rootTable r where
  held := by
    rw [tablePaths, map_snd_paths]
    exact h.ledger
  tables_nodup := by
    rw [tablePaths, map_snd_paths]
    exact h.wellFormed.nodup
  paths_nodup := nodup_map_fst_paths _ _
  mem_iff := h.mem_tablePaths_iff
  not_empty q hq hne := by
    have hocc := occupied_of_mem_paths h.dense hq hne
    rw [Occupied, RvmCfg.width, Nat.sub_sub_self (length_le_of_mem_paths hq)] at hocc
    exact hocc
  root_only hnone := by
    have hempty : ¬Occupied cfg.width r.mem cfg.depth g.rootTable := by
      intro hocc
      obtain ⟨va, hva, hsome, -⟩ := h.exists_mapped hocc (mem_paths_self _ _)
      rw [hnone va hva] at hsome
      cases hsome
    have htables : tables cfg r.mem g.rootTable = [g.rootTable] :=
      tablesFrom_blank (not_occupied_iff.mp hempty)
    rw [← htables]
    exact h.ledger

end Tidy

/-- Runs of successful maps with a valid flag and of unmaps, in any order, from an empty root on. -/
theorem run_tables {cfg : RvmCfg} {arch : Arch} {g : Glacier} {root : Word} {m : Mem} {r : Ram}
    {calls : List PageCall} (hroot : Aligned cfg root)
    (hinit : init cfg (some root) ⟨m, [], []⟩ = .ok (g, r))
    (hcalls : Admits (step cfg arch g) (Regular cfg arch g) r calls) :
    PrefixTables cfg g.rootTable (run (step cfg arch g) r calls) :=
  (run_induction (fun _ _ => Tidy.step) (tidy_init hroot hinit) hcalls).prefixTables

/-- Two pages mapped into memory full of other data, and one of them unmapped. -/
def mapMapUnmap : Ram :=
  run (step twoLevels .aarch64 ⟨0x1000, true⟩) (Ram.take ⟨fun _ => 7, [], []⟩ 0x1000 (pageEntries twoLevels))
    [.map 0x3000 0x5000 0b11 [some 0x2000], .map 0x4000 0x6000 0b11 [], .unmap 0x3000]

theorem run_tables_twoLevels : mapMapUnmap.taken = [0x1000, 0x2000] ∧ PrefixTables twoLevels 0x1000 mapMapUnmap := by
  have htables := @run_tables twoLevels .aarch64 ⟨0x1000, true⟩ 0x1000 (fun _ => 7) _
    [.map 0x3000 0x5000 0b11 [some 0x2000], .map 0x4000 0x6000 0b11 [], .unmap 0x3000] (by decide) rfl
    ⟨⟨by decide +kernel, by decide, rfl⟩, ⟨by decide +kernel, by decide, rfl⟩, trivial, trivial⟩
  exact ⟨by decide +kernel, htables⟩

end Glacier

end UnixKernel
