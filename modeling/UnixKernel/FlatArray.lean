import Mathlib.Data.List.Basic
import Mathlib.Tactic.Common

/-! Unbounded arrays as functions on the naturals. A window is the list of the values in a range, and a
splice overwrites a range with a list. Writing is determined by where it writes: windows that already hold
what is there change nothing, and adjacent splices are one splice. -/

namespace UnixKernel.FlatArray

variable {α : Type}

/-- The `n` values from `a` on. -/
def window (f : Nat → α) (a n : Nat) : List α := (List.range n).map fun i => f (a + i)

/-- The array with the values from `a` on replaced by those of a list. -/
def splice (f : Nat → α) (a : Nat) (xs : List α) : Nat → α := fun k =>
  if a ≤ k then (xs[k - a]?).getD (f k) else f k

variable {f g : Nat → α} {a n m : Nat} {xs ys : List α}

@[simp] theorem length_window : (window f a n).length = n := by simp [window]

@[simp] theorem window_zero : window f a 0 = [] := rfl

theorem getElem?_window {i : Nat} (hi : i < n) : (window f a n)[i]? = some (f (a + i)) := by
  simp [window, hi]

theorem window_add : window f a (n + m) = window f a n ++ window f (a + n) m := by
  unfold window
  rw [List.range_add, List.map_append, List.map_map]
  congr 1
  apply List.map_congr_left
  intro i _
  rw [Function.comp_apply, Nat.add_assoc]

/-- A window in a window. -/
theorem take_drop_window {i : Nat} (h : i + m ≤ n) : ((window f a n).drop i).take m = window f (a + i) m := by
  obtain ⟨k, rfl⟩ := Nat.exists_eq_add_of_le h
  rw [window_add, window_add, List.append_assoc, List.drop_left' length_window, List.take_left' length_window]

theorem take_window (h : m ≤ n) : (window f a n).take m = window f a m := by
  simpa using take_drop_window (f := f) (a := a) (i := 0) (by omega : 0 + m ≤ n)

theorem drop_window {i : Nat} (h : i ≤ n) : (window f a n).drop i = window f (a + i) (n - i) := by
  obtain ⟨k, rfl⟩ := Nat.exists_eq_add_of_le h
  rw [window_add, List.drop_left' length_window, Nat.add_sub_cancel_left]

/-- A window as its first `n` values and what is left behind them. -/
theorem window_chunk : window f a (min m n) ++ window f (a + n) (m - n) = window f a m := by
  rcases Nat.le_total m n with hle | hge
  · rw [Nat.min_eq_left hle, Nat.sub_eq_zero_of_le hle, window_zero, List.append_nil]
  · rw [Nat.min_eq_right hge, ← window_add, Nat.add_sub_cancel' hge]

/-! ### Splices -/

theorem splice_inside {k : Nat} (hle : a ≤ k) (hlt : k < a + xs.length) :
    some (splice f a xs k) = xs[k - a]? := by
  have hin : k - a < xs.length := by omega
  rw [splice, if_pos hle, List.getElem?_eq_getElem hin, Option.getD_some]

theorem splice_outside {k : Nat} (h : k < a ∨ a + xs.length ≤ k) : splice f a xs k = f k := by
  unfold splice
  split_ifs with hle
  · rw [List.getElem?_eq_none (by omega), Option.getD_none]
  · rfl

@[simp] theorem splice_nil : splice f a [] = f := by
  funext k
  exact splice_outside (by simp; omega)

/-- Two arrays are the same splice when the second agrees with the list inside and with the first outside. -/
theorem splice_eq (hin : ∀ i < xs.length, xs[i]? = some (g (a + i)))
    (hout : ∀ k, k < a ∨ a + xs.length ≤ k → f k = g k) : splice f a xs = g := by
  funext k
  by_cases hk : a ≤ k ∧ k < a + xs.length
  · have h := hin (k - a) (by omega)
    rw [Nat.add_sub_cancel' hk.1] at h
    exact Option.some.inj ((splice_inside hk.1 hk.2).trans h)
  · rw [splice_outside (by omega)]
    exact hout k (by omega)

/-- Writing back what is there. -/
theorem splice_window (h : ∀ i < n, f (a + i) = g (a + i)) : splice f a (window g a n) = f := by
  refine splice_eq ?_ fun _ _ => rfl
  intro i hi
  rw [length_window] at hi
  rw [getElem?_window hi, h i hi]

theorem splice_append : splice f a (xs ++ ys) = splice (splice f a xs) (a + xs.length) ys := by
  refine splice_eq ?_ ?_
  · intro i hi
    rw [List.length_append] at hi
    by_cases hlt : i < xs.length
    · rw [List.getElem?_append_left hlt, splice_outside (by omega), splice_inside (by omega) (by omega),
        Nat.add_sub_cancel_left]
    · rw [List.getElem?_append_right (by omega), splice_inside (by omega) (by omega)]
      congr 1
      omega
  · intro k hk
    rw [List.length_append] at hk
    rw [splice_outside (by omega), splice_outside (by omega)]

/-- A list written as its first `n` values and what is left behind them. -/
theorem splice_chunk : splice (splice f a (xs.take n)) (a + n) (xs.drop n) = splice f a xs := by
  conv_rhs => rw [← List.take_append_drop n xs, splice_append]
  rcases Nat.le_total xs.length n with hle | hge
  · rw [List.drop_eq_nil_of_le hle, splice_nil, splice_nil]
  · rw [List.length_take_of_le hge]

/-- A short list, completed with the values behind it. -/
theorem splice_completed (h : xs.length ≤ n) : splice f a (xs ++ (window f a n).drop xs.length) = splice f a xs := by
  rw [splice_append, drop_window h]
  exact splice_window fun i _ => splice_outside (by omega)

/-- What was written is read back. -/
theorem window_splice : window (splice f a xs) a xs.length = xs := by
  apply List.ext_getElem?
  intro i
  by_cases hi : i < xs.length
  · rw [getElem?_window hi, splice_inside (by omega) (by omega), Nat.add_sub_cancel_left]
  · rw [List.getElem?_eq_none (by simpa using hi), List.getElem?_eq_none (by omega)]

/-- A list between two windows of the array is written as if it were alone. -/
theorem splice_between : splice f a (window f a n ++ xs ++ window f (a + n + xs.length) m) = splice f (a + n) xs := by
  rw [splice_append, splice_append, length_window, List.length_append, length_window, ← Nat.add_assoc,
    splice_window fun _ _ => rfl]
  refine splice_window fun i _ => ?_
  exact splice_outside (by omega)

end UnixKernel.FlatArray
