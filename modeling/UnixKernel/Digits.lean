import Mathlib.Algebra.BigOperators.Intervals
import Mathlib.Algebra.Order.Ring.Nat
import Mathlib.Tactic.Common

/-! The digits of a natural number in a fixed base, lowest first: `a / B ^ k % B` is digit `k` of `a`. A
number below `B ^ n` is the sum of its first `n` digits at their places, so it is known by them, and every
choice of digits is taken. -/

namespace UnixKernel.Digits

theorem mod_pow_eq_of_digits {B a b : Nat} : ∀ {n : Nat}, (∀ k < n, a / B ^ k % B = b / B ^ k % B) →
    a % B ^ n = b % B ^ n := by
  intro n
  induction n with
  | zero =>
      intro _
      rw [Nat.pow_zero, Nat.mod_one, Nat.mod_one]
  | succ n ih =>
      intro h
      rw [Nat.mod_pow_succ, Nat.mod_pow_succ, ih fun k hk => h k (Nat.lt_succ_of_lt hk), h n (Nat.lt_succ_self n)]

theorem sum_digits (B a n : Nat) : ∑ k ∈ Finset.range n, a / B ^ k % B * B ^ k = a % B ^ n := by
  induction n with
  | zero => rw [Finset.sum_range_zero, Nat.pow_zero, Nat.mod_one]
  | succ n ih => rw [Finset.sum_range_succ, ih, Nat.mod_pow_succ, Nat.mul_comm (B ^ n)]

theorem exists_of_digits {B : Nat} (digit : Nat → Nat) : ∀ {n : Nat}, (∀ k < n, digit k < B) →
    ∃ a < B ^ n, ∀ k < n, a / B ^ k % B = digit k := by
  intro n
  induction n with
  | zero => exact fun _ => ⟨0, Nat.one_pos, fun k hk => absurd hk (Nat.not_lt_zero k)⟩
  | succ n ih =>
      intro hdigit
      obtain ⟨a, ha, hak⟩ := ih fun k hk => hdigit k (Nat.lt_succ_of_lt hk)
      have hn := hdigit n (Nat.lt_succ_self n)
      have hB : 0 < B := Nat.lt_of_le_of_lt (Nat.zero_le _) hn
      refine ⟨a + B ^ n * digit n, ?_, fun k hk => ?_⟩
      · calc a + B ^ n * digit n < B ^ n + B ^ n * digit n := Nat.add_lt_add_right ha _
          _ = B ^ n * (digit n + 1) := by rw [Nat.mul_succ, Nat.add_comm]
          _ ≤ B ^ (n + 1) := by rw [Nat.pow_succ]; exact Nat.mul_le_mul_left _ hn
      · rcases Nat.lt_succ_iff_lt_or_eq.mp hk with hlt | rfl
        · -- the new digit is a multiple of `B` above digit `k`
          have hsplit : B ^ n = B ^ k * (B * B ^ (n - k - 1)) := by
            rw [← Nat.pow_succ', ← Nat.pow_add]
            congr 1
            omega
          rw [hsplit, Nat.mul_assoc, Nat.add_mul_div_left _ _ (Nat.pow_pos hB), Nat.mul_assoc,
            Nat.add_mul_mod_self_left, hak k hlt]
        · rw [Nat.add_mul_div_left _ _ (Nat.pow_pos hB), Nat.div_eq_of_lt ha, Nat.zero_add,
            Nat.mod_eq_of_lt hn]

end UnixKernel.Digits
