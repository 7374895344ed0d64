import Mathlib.Data.List.Nodup
import Mathlib.Data.List.Pairwise
import Mathlib.Data.List.Perm.Basic
import Mathlib.Tactic.Common

/-! Trees of fixed depth whose nodes lie in a store. The store is known by its edges: `edge t i` is the
node that slot `i` of node `t` points to, if it points to one. A node with `d` levels below it has
`width d` slots, and the nodes on the last level have no children, whatever their slots hold. The list
`nodes` has one entry for every path, so it has no duplicates exactly when every node is reached by one
path only. -/

namespace UnixKernel.Radix

variable {α : Type}

/-- The nodes of the tree under `t`, one for each path. -/
def nodes (edge : α → Nat → Option α) (width : Nat → Nat) : Nat → α → List α
  | 0, t => [t]
  | d + 1, t => t :: (List.range (width (d + 1))).flatMap fun i => (edge t i).elim [] (nodes edge width d)

variable {edge edge' : α → Nat → Option α} {width : Nat → Nat}

theorem mem_nodes_self (d : Nat) (t : α) : t ∈ nodes edge width d t := by
  cases d with
  | zero => exact List.mem_singleton_self t
  | succ d => exact List.mem_cons_self

theorem mem_nodes_succ {d : Nat} {t n : α} : n ∈ nodes edge width (d + 1) t ↔
    n = t ∨ ∃ i < width (d + 1), ∃ c, edge t i = some c ∧ n ∈ nodes edge width d c := by
  rw [nodes, List.mem_cons, List.mem_flatMap]
  refine or_congr Iff.rfl ⟨?_, ?_⟩
  · rintro ⟨i, hi, hn⟩
    cases hc : edge t i with
    | none =>
        rw [hc] at hn
        cases hn
    | some c =>
        rw [hc] at hn
        exact ⟨i, List.mem_range.mp hi, c, hc, hn⟩
  · rintro ⟨i, hi, c, hc, hn⟩
    refine ⟨i, List.mem_range.mpr hi, ?_⟩
    rw [hc]
    exact hn

theorem mem_nodes_of_child {d i : Nat} {t c n : α} (hi : i < width (d + 1)) (hc : edge t i = some c)
    (hn : n ∈ nodes edge width d c) : n ∈ nodes edge width (d + 1) t :=
  mem_nodes_succ.mpr (Or.inr ⟨i, hi, c, hc, hn⟩)

theorem nodes_of_bare {d : Nat} {t : α} (h : ∀ i < width d, edge t i = none) :
    nodes edge width d t = [t] := by
  cases d with
  | zero => rfl
  | succ d =>
      rw [nodes]
      congr 1
      refine List.flatMap_eq_nil_iff.mpr fun i hi => ?_
      rw [h i (List.mem_range.mp hi)]
      rfl

/-! ### Trees in which every node has one path -/

section Nodup

variable {d : Nat} {t : α} (h : (nodes edge width (d + 1) t).Nodup)

include h

theorem nodup_child {i : Nat} {c : α} (hi : i < width (d + 1)) (hc : edge t i = some c) :
    (nodes edge width d c).Nodup := by
  have := (List.nodup_flatMap.mp (List.nodup_cons.mp h).2).1 i (List.mem_range.mpr hi)
  rwa [hc] at this

theorem not_mem_child {i : Nat} {c : α} (hi : i < width (d + 1)) (hc : edge t i = some c) :
    t ∉ nodes edge width d c := by
  intro ht
  refine (List.nodup_cons.mp h).1 (List.mem_flatMap.mpr ⟨i, List.mem_range.mpr hi, ?_⟩)
  rw [hc]
  exact ht

theorem disjoint_children {i j : Nat} {b c : α} (hi : i < width (d + 1)) (hj : j < width (d + 1))
    (hij : i ≠ j) (hb : edge t i = some b) (hc : edge t j = some c) {n : α}
    (hn : n ∈ nodes edge width d b) : n ∉ nodes edge width d c := by
  have hpair := (List.nodup_flatMap.mp (List.nodup_cons.mp h).2).2
  have : Std.Symm (Function.onFun List.Disjoint fun i => (edge t i).elim [] (nodes edge width d)) :=
    ⟨fun _ _ hxy _ hx hy => hxy hy hx⟩
  have hdisj : List.Disjoint ((edge t i).elim [] (nodes edge width d)) ((edge t j).elim [] (nodes edge width d)) :=
    hpair.forall (List.mem_range.mpr hi) (List.mem_range.mpr hj) hij
  intro hn'
  rw [hb, hc] at hdisj
  exact hdisj hn hn'

end Nodup

/-- The edges out of the tree's nodes decide the tree. -/
theorem nodes_congr {d : Nat} {t : α}
    (h : ∀ n ∈ nodes edge width d t, ∀ k ≤ d, ∀ i < width k, edge' n i = edge n i) :
    nodes edge' width d t = nodes edge width d t := by
  induction d generalizing t with
  | zero => rfl
  | succ d ih =>
      rw [nodes, nodes]
      congr 1
      refine List.flatMap_congr fun i hi => ?_
      rw [List.mem_range] at hi
      rw [h t (mem_nodes_self _ t) (d + 1) (Nat.le_refl _) i hi]
      cases hc : edge t i with
      | none => rfl
      | some c =>
          exact ih fun n hn k hk => h n (mem_nodes_of_child hi hc hn) k (Nat.le_succ_of_le hk)

/-- A change below one slot: what is added there is added to the tree. -/
theorem nodes_replace {d i : Nat} {t : α} {added : List α} (hi : i < width (d + 1))
    (hother : ∀ j < width (d + 1), j ≠ i →
      (edge' t j).elim [] (nodes edge' width d) = (edge t j).elim [] (nodes edge width d))
    (hnew : ((edge' t i).elim [] (nodes edge' width d)).Perm
      (added ++ (edge t i).elim [] (nodes edge width d))) :
    (nodes edge' width (d + 1) t).Perm (added ++ nodes edge width (d + 1) t) := by
  have hrange := List.perm_cons_erase (List.mem_range.mpr hi)
  have hrest : ∀ j ∈ (List.range (width (d + 1))).erase i, j < width (d + 1) ∧ j ≠ i := by
    intro j hj
    rw [List.nodup_range.mem_erase_iff] at hj
    exact ⟨List.mem_range.mp hj.2, hj.1⟩
  have hflat : ((List.range (width (d + 1))).flatMap fun i => (edge' t i).elim [] (nodes edge' width d)).Perm
      (added ++ (List.range (width (d + 1))).flatMap fun i => (edge t i).elim [] (nodes edge width d)) := by
    refine (hrange.flatMap_right _).trans ?_
    refine List.Perm.trans ?_ ((hrange.flatMap_right _).symm.append_left added)
    rw [List.flatMap_cons, List.flatMap_cons, ← List.append_assoc]
    refine List.Perm.append hnew (List.Perm.of_eq (List.flatMap_congr fun j hj => ?_))
    exact hother j (hrest j hj).1 (hrest j hj).2
  rw [nodes, nodes]
  exact (hflat.cons t).trans List.perm_middle.symm

/-! ### Paths -/

/-- The nodes with the slots that lead to them. -/
def paths (edge : α → Nat → Option α) (width : Nat → Nat) : Nat → α → List (List Nat × α)
  | 0, t => [([], t)]
  | d + 1, t => ([], t) :: (List.range (width (d + 1))).flatMap fun i =>
      (edge t i).elim [] fun c => (paths edge width d c).map fun q => (i :: q.1, q.2)

theorem map_snd_paths (d : Nat) (t : α) :
    (paths edge width d t).map Prod.snd = nodes edge width d t := by
  induction d generalizing t with
  | zero => rfl
  | succ d ih =>
      rw [paths, nodes, List.map_cons, List.map_flatMap]
      congr 1
      refine List.flatMap_congr fun i _ => ?_
      cases edge t i with
      | none => rfl
      | some c =>
          rw [Option.elim_some, Option.elim_some, List.map_map, ← ih c]
          rfl

theorem mem_paths_succ {d : Nat} {t : α} {q : List Nat × α} : q ∈ paths edge width (d + 1) t ↔
    q = ([], t) ∨ ∃ i < width (d + 1), ∃ c, edge t i = some c ∧
      ∃ p ∈ paths edge width d c, q = (i :: p.1, p.2) := by
  rw [paths, List.mem_cons, List.mem_flatMap]
  refine or_congr Iff.rfl ⟨?_, ?_⟩
  · rintro ⟨i, hi, hq⟩
    cases hc : edge t i with
    | none =>
        rw [hc] at hq
        cases hq
    | some c =>
        rw [hc] at hq
        obtain ⟨p, hp, rfl⟩ := List.mem_map.mp hq
        exact ⟨i, List.mem_range.mp hi, c, hc, p, hp, rfl⟩
  · rintro ⟨i, hi, c, hc, p, hp, rfl⟩
    refine ⟨i, List.mem_range.mpr hi, ?_⟩
    rw [hc]
    exact List.mem_map_of_mem hp

/-- What a slot of an inner node refers to is a node. -/
theorem mem_nodes_of_edge {d i : Nat} {t c : α} {q : List Nat × α} (hq : q ∈ paths edge width d t)
    (hlen : q.1.length < d) (hi : i < width (d - q.1.length)) (hc : edge q.2 i = some c) :
    c ∈ nodes edge width d t := by
  induction d generalizing t q with
  | zero => exact absurd hlen (Nat.not_lt_zero _)
  | succ d ih =>
      rcases mem_paths_succ.mp hq with rfl | ⟨j, hj, b, hb, p, hp, rfl⟩
      · exact mem_nodes_of_child hi hc (mem_nodes_self d c)
      · rw [List.length_cons] at hlen hi
        rw [Nat.succ_sub_succ] at hi
        exact mem_nodes_of_child hj hb (ih hp (Nat.lt_of_succ_lt_succ hlen) hi hc)

theorem mem_paths_self (d : Nat) (t : α) : ([], t) ∈ paths edge width d t := by
  cases d with
  | zero => exact List.mem_singleton_self _
  | succ d => exact List.mem_cons_self

theorem length_le_of_mem_paths {d : Nat} {t : α} {q : List Nat × α} (hq : q ∈ paths edge width d t) :
    q.1.length ≤ d := by
  induction d generalizing t q with
  | zero =>
      rw [List.mem_singleton.mp hq]
      exact Nat.le_refl 0
  | succ d ih =>
      rcases mem_paths_succ.mp hq with rfl | ⟨i, -, c, -, p, hp, rfl⟩
      · exact Nat.zero_le _
      · exact Nat.succ_le_succ (ih hp)

/-- Different nodes of the list have different paths. -/
theorem nodup_map_fst_paths (d : Nat) (t : α) : ((paths edge width d t).map Prod.fst).Nodup := by
  induction d generalizing t with
  | zero => exact List.nodup_singleton _
  | succ d ih =>
      have hhead : ∀ i, ∀ p ∈ ((edge t i).elim [] fun c => (paths edge width d c).map fun q =>
          (i :: q.1, q.2)).map Prod.fst, p.head? = some i := by
        intro i p hp
        obtain ⟨q, hq, rfl⟩ := List.mem_map.mp hp
        cases hc : edge t i with
        | none =>
            rw [hc] at hq
            cases hq
        | some c =>
            rw [hc] at hq
            obtain ⟨q, -, rfl⟩ := List.mem_map.mp hq
            rfl
      rw [paths, List.map_cons, List.map_flatMap, List.nodup_cons, List.nodup_flatMap]
      refine ⟨fun hmem => ?_, fun i _ => ?_, ?_⟩
      · obtain ⟨i, -, hp⟩ := List.mem_flatMap.mp hmem
        cases hhead i _ hp
      · cases edge t i with
        | none => exact List.nodup_nil
        | some c =>
            have hmap : ((paths edge width d c).map fun q => (i :: q.1, q.2)).map Prod.fst =
                ((paths edge width d c).map Prod.fst).map (List.cons i) := by
              rw [List.map_map, List.map_map]
              rfl
            rw [Option.elim_some, hmap]
            exact (ih c).map (List.cons_injective)
      · refine List.nodup_range.imp fun hij p hpi hpj => hij ?_
        have heq := (hhead _ p hpi).symm.trans (hhead _ p hpj)
        exact Option.some.inj heq

end UnixKernel.Radix
