import Mathlib.Data.List.Nodup
import Mathlib.Logic.Function.Basic
import Mathlib.Tactic.Common

/-! Tables of reference counts: for each element, how many of its holders are left, and no entry for an element that
nobody holds. -/

namespace UnixKernel.RefCounts

variable {α β : Type} [DecidableEq α] {table : α → Option Nat} {held : List α} {a : α}

/-- The table says for each element how often it is held. -/
def Counts (table : α → Option Nat) (held : List α) : Prop :=
  ∀ a, table a = if a ∈ held then some (held.count a) else none

theorem counts_nil : Counts (fun _ : α => none) [] := fun _ => (if_neg List.not_mem_nil).symm

theorem Counts.perm {held' : List α} (h : Counts table held) (hperm : held.Perm held') : Counts table held' := by
  intro a
  rw [h a, hperm.count_eq]
  exact if_congr hperm.mem_iff rfl rfl

theorem Counts.of_some {n : Nat} (h : Counts table held) (ha : table a = some n) : a ∈ held ∧ n = held.count a := by
  rw [h a] at ha
  split_ifs at ha with hmem
  exact ⟨hmem, (Option.some.inj ha).symm⟩

theorem Counts.of_none (h : Counts table held) (ha : table a = none) : a ∉ held := by
  intro hmem
  rw [h a, if_pos hmem] at ha
  cases ha

/-- One more holder. -/
theorem Counts.retain (h : Counts table held) (a : α) :
    Counts (Function.update table a (some (held.count a + 1))) (a :: held) := by
  intro b
  by_cases hb : b = a
  · rw [hb, Function.update_self, if_pos List.mem_cons_self, List.count_cons_self]
  · rw [Function.update_of_ne hb, h b, List.count_cons_of_ne (Ne.symm hb)]
    exact if_congr (List.mem_cons.trans (or_iff_right hb)).symm rfl rfl

/-- One holder less; the last one takes the entry with it. -/
theorem Counts.release (h : Counts table (a :: held)) :
    Counts (Function.update table a (if a ∈ held then some (held.count a) else none)) held := by
  intro b
  by_cases hb : b = a
  · rw [hb, Function.update_self]
  · rw [Function.update_of_ne hb, h b, List.count_cons_of_ne (Ne.symm hb)]
    exact if_congr (List.mem_cons.trans (or_iff_right hb)) rfl rfl

/-- Groups that hold each element at most once hold it as often as there are groups with it. -/
theorem count_flatMap_of_nodup {groups : List β} {f : β → List α} (h : ∀ x ∈ groups, (f x).Nodup) (a : α) :
    (groups.flatMap f).count a = groups.countP (a ∈ f ·) := by
  induction groups with
  | nil => rfl
  | cons x groups ih =>
    rw [List.forall_mem_cons] at h
    rw [List.flatMap_cons, List.count_append, List.countP_cons, ih h.2, Nat.add_comm]
    congr 1
    split_ifs with hmem
    · exact List.count_eq_one_of_mem h.1 (of_decide_eq_true hmem)
    · exact List.count_eq_zero.2 fun ha => hmem (decide_eq_true ha)

end UnixKernel.RefCounts
