import Mathlib.Data.BitVec
import Mathlib.Tactic.Common

/-! Bitmaps as lists of words: number `v` is bit `v % w` of word `v / w`. -/

namespace UnixKernel.Bitmap

variable {w : Nat} {bm : List (BitVec w)} {x : BitVec w} {v : Nat}

/-- Whether the bit is set; beyond the last word it is not. -/
def marked (bm : List (BitVec w)) (v : Nat) : Bool := (bm.getD (v / w) 0).getLsbD (v % w)

theorem marked_of_length_le (h : bm.length ≤ v / w) : marked bm v = false := by
  rw [marked, List.getD_eq_getElem?_getD, List.getElem?_eq_none h]
  exact BitVec.getLsbD_zero

theorem marked_cons (hw : 0 < w) :
    marked (x :: bm) v = if v < w then x.getLsbD v else marked bm (v - w) := by
  unfold marked
  split_ifs with h
  · rw [Nat.div_eq_of_lt h, Nat.mod_eq_of_lt h, List.getD_cons_zero]
  · have hv : v / w = (v - w) / w + 1 := by
      rw [Nat.div_eq v w, if_pos ⟨hw, by omega⟩]
    rw [hv, List.getD_cons_succ, Nat.mod_eq_sub_mod (by omega)]

theorem marked_concat :
    marked (bm ++ [x]) v = if v / w = bm.length then x.getLsbD (v % w) else marked bm v := by
  unfold marked
  simp only [List.getD_eq_getElem?_getD, List.getElem?_append]
  split_ifs with hlt heq heq
  · omega
  · rfl
  · simp [heq]
  · rw [List.getElem?_eq_none (by simp; omega), List.getElem?_eq_none (by omega)]

theorem marked_modify {f : BitVec w → BitVec w} {i : Nat} (hi : i < bm.length) :
    marked (bm.modify i f) v = if v / w = i then (f (bm.getD i 0)).getLsbD (v % w) else marked bm v := by
  unfold marked
  simp only [List.getD_eq_getElem?_getD, List.getElem?_modify]
  split_ifs with heq hne hne
  · rw [← heq, List.getElem?_eq_getElem hi]
    rfl
  · exact absurd heq.symm hne
  · exact absurd hne.symm heq
  · simp

/-- A last word that is zero holds nothing. -/
theorem marked_dropLast (h : bm.getLast? = some 0) : marked bm.dropLast v = marked bm v := by
  obtain ⟨front, rfl⟩ := List.getLast?_eq_some_iff.1 h
  rw [List.dropLast_concat, marked_concat]
  split_ifs with heq
  · rw [marked_of_length_le (by omega)]
    exact BitVec.getLsbD_zero.symm
  · rfl

/-- The first number of the bitmap that is free. -/
structure LowestClear (bm : List (BitVec w)) (n : Nat) : Prop where
  lt : n / w < bm.length
  clear : marked bm n = false
  below : ∀ v, v < n → marked bm v = true

theorem LowestClear.unique {n n' : Nat} (h : LowestClear bm n) (h' : LowestClear bm n') : n = n' := by
  apply Nat.le_antisymm
  · by_contra hlt
    have := h.below n' (by omega)
    simp [h'.clear] at this
  · by_contra hlt
    have := h'.below n (by omega)
    simp [h.clear] at this

end UnixKernel.Bitmap
