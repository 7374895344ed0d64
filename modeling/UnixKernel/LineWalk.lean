import Mathlib.Algebra.Order.Ring.Int
import Mathlib.Tactic.Common
import Mathlib.Tactic.Linarith
import Mathlib.Tactic.Ring

/-! A line of whole steps over a grid, `m` steps along one axis and `n` along the other, led by an error term
that each step on the first axis lowers by `n` and each step on the second raises by `m`. The two axes can be
exchanged, so it is enough to follow the line along its longer one: there it steps every time, the error term
stays within a band, and the band leaves no choice for the place where the line ends. -/

namespace UnixKernel.LineWalk

/-- The steps taken along each axis, and the error term. -/
@[ext] structure Progress where
  a : Nat
  b : Nat
  err : Int

variable (m n : Nat)

def start : Progress := ⟨0, 0, m - n⟩

/-- One round: a step on the first axis, on the second, or on both. -/
def advance (w : Progress) : Progress where
  a := if -(n : Int) ≤ 2 * w.err then w.a + 1 else w.a
  b := if 2 * w.err ≤ m then w.b + 1 else w.b
  err := w.err + (if -(n : Int) ≤ 2 * w.err then -(n : Int) else 0) + (if 2 * w.err ≤ m then (m : Int) else 0)

/-- The line after `k` rounds. -/
def path : Nat → Progress
  | 0 => start m n
  | k + 1 => advance m n (path k)

/-- The axes exchanged. -/
def Progress.swap (w : Progress) : Progress := ⟨w.b, w.a, -w.err⟩

variable {m n}

theorem advance_a (w : Progress) : w.a ≤ (advance m n w).a ∧ (advance m n w).a ≤ w.a + 1 := by
  unfold advance
  dsimp only
  split_ifs <;> omega

theorem advance_b (w : Progress) : w.b ≤ (advance m n w).b ∧ (advance m n w).b ≤ w.b + 1 := by
  unfold advance
  dsimp only
  split_ifs <;> omega

theorem advance_swap (w : Progress) : advance n m w.swap = (advance m n w).swap := by
  have hfirst : -(m : Int) ≤ 2 * -w.err ↔ 2 * w.err ≤ m := by omega
  have hsecond : 2 * -w.err ≤ (n : Int) ↔ -(n : Int) ≤ 2 * w.err := by omega
  unfold advance Progress.swap
  simp only [hfirst, hsecond, Progress.mk.injEq, true_and]
  split_ifs <;> omega

theorem path_swap (k : Nat) : path n m k = (path m n k).swap := by
  induction k with
  | zero => simp [path, start, Progress.swap]
  | succ k ih => rw [path, path, ih, advance_swap]

/-! ### Along the longer axis -/

/-- What holds on the way along the longer axis. -/
structure Along (m n : Nat) (w : Progress) : Prop where
  a_le : w.a ≤ m
  b_le : w.b ≤ n
  err_eq : w.err = m * (w.b + 1) - n * (w.a + 1)
  low : -(n : Int) ≤ 2 * w.err
  high : 2 * w.err ≤ 3 * m - 2 * n

theorem along_start (hle : n ≤ m) : Along m n (start m n) where
  a_le := Nat.zero_le m
  b_le := Nat.zero_le n
  err_eq := by simp [start]
  low := by simp only [start]; omega
  high := by simp only [start]; omega

/-- The band of the error term keeps the line from going too far on the shorter axis. -/
theorem b_le_of_band {a b : Nat} {err : Int} (hpos : 0 < m) (ha : a ≤ m) (herr : err = m * (b + 1) - n * (a + 1))
    (hhigh : 2 * err ≤ 3 * m - 2 * n) : b ≤ n := by
  by_contra hlt
  have hb : (n : Int) + 2 ≤ b + 1 := by omega
  have hupper : (n : Int) * a ≤ n * m := by gcongr
  have hlower : (m : Int) * (n + 2) ≤ m * (b + 1) := by gcongr
  have hm : (0 : Int) < m := by exact_mod_cast hpos
  nlinarith

/-- A round along the longer axis steps on it, and on the shorter one where the error term is low. -/
theorem Along.advance {w : Progress} (h : Along m n w) (hle : n ≤ m) (hlt : w.a < m) :
    (advance m n w).a = w.a + 1 ∧ Along m n (advance m n w) := by
  obtain ⟨-, -, herr, hlow, hhigh⟩ := h
  have hpos : 0 < m := Nat.zero_lt_of_lt hlt
  have hstep : LineWalk.advance m n w = if 2 * w.err ≤ m then ⟨w.a + 1, w.b + 1, w.err - n + m⟩
      else ⟨w.a + 1, w.b, w.err - n⟩ := by
    unfold LineWalk.advance
    rw [if_pos hlow, if_pos hlow]
    split_ifs
    · rw [Int.sub_eq_add_neg]
    · rw [Int.sub_eq_add_neg, Int.add_zero]
  rw [hstep]
  split_ifs with hboth
  · have herr' : w.err - n + m = m * ((w.b + 1 : Nat) + 1) - n * ((w.a + 1 : Nat) + 1) := by
      rw [herr]
      push_cast
      ring
    have hlow' : -(n : Int) ≤ 2 * (w.err - n + m) := by omega
    have hhigh' : 2 * (w.err - n + m) ≤ 3 * (m : Int) - 2 * n := by omega
    exact ⟨rfl, hlt, b_le_of_band hpos hlt herr' hhigh', herr', hlow', hhigh'⟩
  · have herr' : w.err - n = m * (w.b + 1) - n * ((w.a + 1 : Nat) + 1) := by
      rw [herr]
      push_cast
      ring
    have hlow' : -(n : Int) ≤ 2 * (w.err - n) := by omega
    have hhigh' : 2 * (w.err - n) ≤ 3 * (m : Int) - 2 * n := by omega
    exact ⟨rfl, hlt, b_le_of_band hpos hlt herr' hhigh', herr', hlow', hhigh'⟩

theorem along_path (hle : n ≤ m) {k : Nat} (hk : k ≤ m) : (path m n k).a = k ∧ Along m n (path m n k) := by
  induction k with
  | zero => exact ⟨rfl, along_start hle⟩
  | succ k ih =>
      obtain ⟨ha, halong⟩ := ih (Nat.le_of_succ_le hk)
      obtain ⟨hnext, halong'⟩ := halong.advance hle (by omega)
      exact ⟨hnext.trans (congrArg (· + 1) ha), halong'⟩

/-- At the end of the longer axis the band leaves only the end of the shorter one. -/
theorem Along.b_eq {w : Progress} (h : Along m n w) (hend : w.a = m) : w.b = n := by
  obtain ⟨-, hb, herr, hlow, -⟩ := h
  by_contra hne
  have hb' : (w.b : Int) + 1 ≤ n := by omega
  have hprod : (m : Int) * (w.b + 1) ≤ m * n := by gcongr
  rw [hend] at herr
  have hn : (0 : Int) < n := by omega
  nlinarith

/-! ### In any direction -/

/-- What holds after `k` rounds, whichever axis is the longer one. -/
structure Onto (m n k : Nat) (w : Progress) : Prop where
  a_le : w.a ≤ m
  b_le : w.b ≤ n
  first : n ≤ m → w.a = k
  second : m ≤ n → w.b = k
  low : -(3 * max m n : Int) ≤ 2 * w.err
  high : 2 * w.err ≤ 3 * max m n
  ends : k = max m n → w.a = m ∧ w.b = n

/-- On a diagonal both axes step together. -/
theorem Along.b_eq_a {w : Progress} (h : Along m m w) : w.b = w.a := by
  obtain ⟨ha, hb, herr, hlow, hhigh⟩ := h
  have hdiff : w.err = m * ((w.b : Int) - w.a) := by
    rw [herr]
    ring
  rcases Nat.lt_trichotomy w.b w.a with hlt | heq | hgt
  · have hless : (m : Int) * (w.b - w.a) ≤ m * (-1) := by gcongr; omega
    omega
  · exact heq
  · have hmore : (m : Int) * 1 ≤ m * (w.b - w.a) := by gcongr; omega
    omega

theorem Along.onto {k : Nat} {w : Progress} (h : Along m n w) (hle : n ≤ m) (ha : w.a = k) : Onto m n k w where
  a_le := h.a_le
  b_le := h.b_le
  first _ := ha
  second hge := by
    obtain rfl := le_antisymm hle hge
    exact h.b_eq_a.trans ha
  low := by
    have hlow := h.low
    omega
  high := by
    have hhigh := h.high
    omega
  ends hk := by
    have hend : w.a = m := by omega
    exact ⟨hend, h.b_eq hend⟩

theorem Onto.swap {k : Nat} {w : Progress} (h : Onto m n k w) : Onto n m k w.swap where
  a_le := h.b_le
  b_le := h.a_le
  first := h.second
  second := h.first
  low := by
    have hhigh := h.high
    rw [max_comm] at hhigh
    show _ ≤ 2 * -w.err
    omega
  high := by
    have hlow := h.low
    rw [max_comm] at hlow
    show 2 * -w.err ≤ _
    omega
  ends hk := (h.ends (hk.trans (max_comm n m))).symm

theorem onto_path {k : Nat} (hk : k ≤ max m n) : Onto m n k (path m n k) := by
  rcases Nat.le_total n m with hle | hle
  · obtain ⟨ha, halong⟩ := along_path hle (k := k) (by omega)
    exact halong.onto hle ha
  · obtain ⟨ha, halong⟩ := along_path hle (k := k) (by omega)
    rw [path_swap]
    exact (halong.onto hle ha).swap

end UnixKernel.LineWalk
