import Mathlib.Data.Fintype.Pigeonhole
import Mathlib.Data.Set.Finite.Basic

/-! Following links: a partial function iterated from a point. Among finitely many points the walk comes to
an end exactly when it visits no point twice. -/

namespace UnixKernel.Orbits

variable {α : Type} (f : α → Option α)

/-- The point after `n` links from `a`, unless the links end before. -/
def orbit (a : α) : Nat → Option α
  | 0 => some a
  | n + 1 => (orbit a n).bind f

variable {f} {a : α}

theorem orbit_add (m k : Nat) : orbit f a (m + k) = (orbit f a m).bind fun b => orbit f b k := by
  induction k with
  | zero => exact (Option.bind_fun_some (orbit f a m)).symm
  | succ k ih =>
    rw [Nat.add_succ, orbit, ih, Option.bind_assoc]
    rfl

theorem orbit_succ (n : Nat) : orbit f a (n + 1) = (f a).bind fun b => orbit f b n := by
  rw [Nat.add_comm, orbit_add]
  rfl

theorem orbit_eq_none_of_le {m n : Nat} (hle : m ≤ n) (h : orbit f a m = none) : orbit f a n = none := by
  obtain ⟨k, rfl⟩ := Nat.exists_eq_add_of_le hle
  rw [orbit_add, h]
  rfl

/-- From a point visited twice the walk goes round for ever. -/
theorem orbit_ne_none_of_repeat {m n : Nat} {c : α} (hlt : m < n) (hn : orbit f a n = some c)
    (hm : orbit f a m = some c) (j : Nat) : orbit f a j ≠ none := by
  induction j using Nat.strong_induction_on with
  | _ j ih =>
    intro hj
    by_cases hle : j ≤ n
    · rw [orbit_eq_none_of_le hle hj] at hn
      contradiction
    · obtain ⟨k, rfl⟩ := Nat.exists_eq_add_of_le (Nat.le_of_not_le hle)
      apply ih (m + k) (by omega)
      rw [orbit_add, hm, ← hn, ← orbit_add]
      exact hj

theorem exists_orbit_eq_none_iff {s : Set α} (hs : s.Finite) (hmem : ∀ n c, orbit f a n = some c → c ∈ s) :
    (∃ n, orbit f a n = none) ↔ ∀ m n c, m < n → orbit f a n = some c → orbit f a m ≠ some c := by
  constructor
  · rintro ⟨j, hj⟩ m n c hlt hn hm
    exact orbit_ne_none_of_repeat hlt hn hm j hj
  · intro hdistinct
    by_contra hnone
    have hsome : ∀ n, ∃ c, orbit f a n = some c := fun n =>
      Option.ne_none_iff_exists'.1 fun h => hnone ⟨n, h⟩
    choose g hg using hsome
    have := hs.to_subtype
    obtain ⟨m, n, hne, heq⟩ := Finite.exists_ne_map_eq_of_infinite fun n => (⟨g n, hmem n _ (hg n)⟩ : s)
    have hgmn : g m = g n := congrArg Subtype.val heq
    obtain hlt | hlt := Nat.lt_or_gt_of_ne hne
    · exact hdistinct m n (g n) hlt (hg n) (hgmn ▸ hg m)
    · exact hdistinct n m (g m) hlt (hg m) (hgmn ▸ hg n)

end UnixKernel.Orbits
