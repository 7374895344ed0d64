import Mathlib.Algebra.Order.Ring.Int
import Mathlib.Tactic.Common

/-! Computations that can stop, and machine arithmetic under the two build profiles: a result
that leaves the word stops a development build and wraps around in a release build. -/

namespace UnixKernel

abbrev Byte := BitVec 8

section Sequence

variable {ε α β : Type}

@[simp] theorem ok_bind (a : α) (f : α → Except ε β) : ((.ok a : Except ε α) >>= f) = f a := rfl

@[simp] theorem error_bind (e : ε) (f : α → Except ε β) : ((.error e : Except ε α) >>= f) = .error e := rfl

theorem bind_eq_ok {x : Except ε α} {f : α → Except ε β} {r : β} :
    (x >>= f) = .ok r ↔ ∃ a, x = .ok a ∧ f a = .ok r := by
  cases x with
  | error e => exact ⟨fun h => (by cases h), fun ⟨_, h, _⟩ => (by cases h)⟩
  | ok a => exact ⟨fun h => ⟨a, rfl, h⟩, fun ⟨_, h, h'⟩ => (by cases h; exact h')⟩

theorem bind_eq_error {x : Except ε α} {f : α → Except ε β} {e : ε} :
    (x >>= f) = .error e ↔ x = .error e ∨ ∃ a, x = .ok a ∧ f a = .error e := by
  cases x with
  | error e' =>
      constructor
      · intro h
        cases h
        exact Or.inl rfl
      · rintro (h | ⟨a, h, -⟩)
        · cases h
          rfl
        · cases h
  | ok a =>
      constructor
      · intro h
        exact Or.inr ⟨a, rfl, h⟩
      · rintro (h | ⟨b, h, hb⟩)
        · cases h
        · cases h
          exact hb

theorem map_eq_ok {x : Except ε α} {f : α → β} {r : β} :
    x.map f = .ok r ↔ ∃ a, x = .ok a ∧ f a = r := by
  cases x with
  | error e => exact ⟨fun h => (by cases h), fun ⟨_, h, _⟩ => (by cases h)⟩
  | ok a => exact ⟨fun h => ⟨a, rfl, Except.ok.inj h⟩, fun ⟨_, h, h'⟩ => (by cases h; exact congrArg _ h')⟩

theorem mapM_eq_ok {f : α → Except ε β} {f' : α → β} {xs : List α} (h : ∀ x ∈ xs, f x = .ok (f' x)) :
    xs.mapM f = .ok (xs.map f') := by
  induction xs with
  | nil => rfl
  | cons x xs ih =>
      rw [List.mapM_cons, h x List.mem_cons_self, ok_bind, ih fun y hy => h y (List.mem_cons_of_mem x hy), ok_bind]
      rfl

theorem mapM_ok_mem {f : α → Except ε β} {xs : List α} {ys : List β} {x : α} (h : xs.mapM f = .ok ys) (hx : x ∈ xs) :
    ∃ y, f x = .ok y := by
  induction xs generalizing ys with
  | nil => exact absurd hx List.not_mem_nil
  | cons first xs ih =>
      rw [List.mapM_cons] at h
      obtain ⟨y, hy, hmore⟩ := bind_eq_ok.mp h
      obtain ⟨zs, hzs, -⟩ := bind_eq_ok.mp hmore
      rcases List.mem_cons.mp hx with rfl | hx
      · exact ⟨y, hy⟩
      · exact ih hzs hx

/-- The results stand in a relation to their arguments when each call has one that does. -/
theorem exists_mapM_forall₂ {f : α → Except ε β} {R : α → β → Prop} {xs : List α} :
    (∃ ys, xs.mapM f = .ok ys ∧ List.Forall₂ R xs ys) ↔ ∀ x ∈ xs, ∃ y, f x = .ok y ∧ R x y := by
  induction xs with
  | nil => exact iff_of_true ⟨[], rfl, .nil⟩ fun x hx => absurd hx List.not_mem_nil
  | cons x xs ih =>
      rw [List.forall_mem_cons, ← ih]
      constructor
      · rintro ⟨ys, hys, hrel⟩
        rw [List.mapM_cons] at hys
        obtain ⟨z, hz, hmore⟩ := bind_eq_ok.mp hys
        obtain ⟨zs, hzs, hpure⟩ := bind_eq_ok.mp hmore
        obtain rfl := Except.ok.inj hpure
        cases hrel with
        | cons hhead htail => exact ⟨⟨z, hz, hhead⟩, zs, hzs, htail⟩
      · rintro ⟨⟨y, hy, hhead⟩, ys, hys, htail⟩
        refine ⟨y :: ys, ?_, .cons hhead htail⟩
        rw [List.mapM_cons, hy, ok_bind, hys, ok_bind]
        rfl

theorem mapM_error {f : α → Except ε β} {xs : List α} {e : ε} (h : xs.mapM f = .error e) :
    ∃ x ∈ xs, f x = .error e := by
  induction xs with
  | nil => cases h
  | cons x xs ih =>
      rw [List.mapM_cons] at h
      rcases bind_eq_error.mp h with hstop | ⟨y, -, hmore⟩
      · exact ⟨x, List.mem_cons_self, hstop⟩
      · rcases bind_eq_error.mp hmore with hstop | ⟨ys, -, hpure⟩
        · obtain ⟨z, hz, hfail⟩ := ih hstop
          exact ⟨z, List.mem_cons_of_mem x hz, hfail⟩
        · cases hpure

theorem forM_error {f : α → Except ε Unit} {xs : List α} {e : ε} (h : xs.forM f = .error e) :
    ∃ x ∈ xs, f x = .error e := by
  induction xs with
  | nil => cases h
  | cons x xs ih =>
      rcases bind_eq_error.mp h with hstop | ⟨_, -, hrest⟩
      · exact ⟨x, List.mem_cons_self, hstop⟩
      · obtain ⟨y, hy, hfail⟩ := ih hrest
        exact ⟨y, List.mem_cons_of_mem x hy, hfail⟩

/-- A condition that is checked at run time. -/
def ensure (c : Prop) [Decidable c] (e : ε) : Except ε Unit := if c then .ok () else .error e

theorem ensure_eq_ok {c : Prop} [Decidable c] {e : ε} : ensure c e = .ok () ↔ c := by
  unfold ensure
  split_ifs with h
  · exact iff_of_true rfl h
  · exact iff_of_false (fun hfalse => nomatch hfalse) h

/-- The first computation does what the second one does, or else it stops, where `N` allows it. -/
def Follows (stop : ε) (N : Prop) (x y : Except ε α) : Prop := x = y ∨ N ∧ x = .error stop

section Follows

variable {stop : ε} {N : Prop} {x y : Except ε α}

theorem Follows.refl (x : Except ε α) : Follows stop N x x := Or.inl rfl

theorem Follows.eq (h : Follows stop N x y) (hN : ¬N) : x = y := h.resolve_right fun hstop => hN hstop.1

theorem Follows.ok (h : Follows stop N x y) {a : α} (hx : x = .ok a) : y = .ok a := by
  rcases h with rfl | ⟨-, hstop⟩
  · exact hx
  · cases hstop.symm.trans hx

theorem Follows.ok_or (h : Follows stop N x y) {a : α} (hy : y = .ok a) : x = .ok a ∨ N ∧ x = .error stop :=
  h.imp_left fun heq => heq.trans hy

theorem Follows.trans {z : Except ε α} (h : Follows stop N x y) (h' : Follows stop N y z) : Follows stop N x z := by
  rcases h with rfl | hstop
  · exact h'
  · exact Or.inr hstop

theorem Follows.bind {f g : α → Except ε β} (h : Follows stop N x y)
    (hf : ∀ a, x = .ok a → y = .ok a → Follows stop N (f a) (g a)) : Follows stop N (x >>= f) (y >>= g) := by
  rcases h with rfl | ⟨hN, rfl⟩
  · cases x with
    | error e => exact Or.inl rfl
    | ok a => exact hf a rfl rfl
  · exact Or.inr ⟨hN, rfl⟩

/-- A step that has no counterpart, such as a sum that is exact already. -/
theorem Follows.step {z : Except ε β} {f : α → Except ε β} {a : α} (h : Follows stop N x (.ok a))
    (hf : x = .ok a → Follows stop N (f a) z) : Follows stop N (x >>= f) z := by
  rcases h with rfl | ⟨hN, rfl⟩
  · exact hf rfl
  · exact Or.inr ⟨hN, rfl⟩

theorem Follows.ite {c : Prop} [Decidable c] {x' y' : Except ε α} (h : c → Follows stop N x y)
    (h' : ¬c → Follows stop N x' y') : Follows stop N (if c then x else x') (if c then y else y') := by
  split_ifs with hc
  · exact h hc
  · exact h' hc

theorem Follows.ensure {c : Prop} [Decidable c] (hc : ¬N → c) : Follows stop N (ensure c stop) (.ok ()) := by
  unfold UnixKernel.ensure
  split_ifs with h
  · exact Or.inl rfl
  · exact Or.inr ⟨not_not.mp fun hN => h (hc hN), rfl⟩

end Follows

end Sequence

inductive Profile where
  | dev
  | release
  deriving DecidableEq, Repr

namespace Profile

variable {ε : Type}

/-- An operation on words of `w` bits whose exact result is `x`; `stop` is how the program stops. -/
def fit (p : Profile) (stop : ε) (w : Nat) (x : Int) : Except ε Nat :=
  if 0 ≤ x ∧ x.toNat < 2 ^ w then .ok x.toNat
  else match p with
    | .dev => .error stop
    | .release => .ok (x % (2 ^ w : Nat)).toNat

/-- The same on signed words. -/
def fitSigned (p : Profile) (stop : ε) (w : Nat) (x : Int) : Except ε Int :=
  if -2 ^ (w - 1) ≤ x ∧ x < 2 ^ (w - 1) then .ok x
  else match p with
    | .dev => .error stop
    | .release => .ok (x.bmod (2 ^ w))

variable {p : Profile} {stop : ε} {w : Nat}

theorem fitSigned_of_lt {x : Int} (hlow : -2 ^ (w - 1) ≤ x) (hhigh : x < 2 ^ (w - 1)) :
    p.fitSigned stop w x = .ok x := if_pos ⟨hlow, hhigh⟩

theorem fit_of_lt {n : Nat} (h : n < 2 ^ w) : p.fit stop w n = .ok n := if_pos ⟨Int.natCast_nonneg n, h⟩

theorem fit_sub {a b : Nat} (hle : b ≤ a) (h : a < 2 ^ w) : p.fit stop w ((a : Int) - b) = .ok (a - b) := by
  rw [← Int.ofNat_sub hle]
  exact fit_of_lt (Nat.lt_of_le_of_lt (Nat.sub_le a b) h)

theorem fit_sub_one {a : Nat} (hpos : 0 < a) (h : a < 2 ^ w) : p.fit stop w ((a : Int) - 1) = .ok (a - 1) :=
  fit_sub hpos h

theorem fit_dev_of_le {n : Nat} (h : 2 ^ w ≤ n) : dev.fit stop w n = .error stop :=
  if_neg fun hfits => Nat.not_lt.mpr h hfits.2

theorem fit_dev_sub_of_lt {a b : Nat} (h : a < b) : dev.fit stop w ((a : Int) - b) = .error stop :=
  if_neg fun hfits => by omega

/-- A release build computes modulo the size of the word. -/
theorem fit_release (x : Int) : release.fit stop w x = .ok (x % (2 ^ w : Nat)).toNat := by
  unfold fit
  split_ifs with h
  · have hlt : x < (2 ^ w : Nat) := by
      rw [← Int.toNat_of_nonneg h.1]
      exact Int.ofNat_lt.mpr h.2
    rw [Int.emod_eq_of_lt h.1 hlt]
  · rfl

theorem fit_release_natCast (n : Nat) : release.fit stop w n = .ok (n % 2 ^ w) := by
  rw [fit_release, ← Int.natCast_emod]
  rfl

/-- Where a build goes on, it computes modulo the size of the word. -/
theorem ofNat_of_fit {x : Int} {n : Nat} (h : p.fit stop w x = .ok n) : BitVec.ofNat w n = BitVec.ofInt w x := by
  unfold fit at h
  split_ifs at h with hfits
  · rw [← Except.ok.inj h, ← BitVec.ofInt_natCast, Int.toNat_of_nonneg hfits.1]
  · cases p with
    | dev => cases h
    | release =>
      have hpos : (0 : Int) < (2 ^ w : Nat) := Int.natCast_pos.mpr (Nat.two_pow_pos w)
      rw [← Except.ok.inj h, ← BitVec.ofInt_natCast, Int.toNat_of_nonneg (Int.emod_nonneg x hpos.ne')]
      apply BitVec.eq_of_toInt_eq
      rw [BitVec.toInt_ofInt, BitVec.toInt_ofInt, Int.emod_bmod]

theorem eq_of_fit_error {x : Int} {e : ε} (h : p.fit stop w x = .error e) : e = stop := by
  unfold fit at h
  split_ifs at h
  cases p <;> cases h
  rfl

theorem lt_of_fit {x : Int} {n : Nat} (h : p.fit stop w x = .ok n) : n < 2 ^ w := by
  cases p with
  | dev =>
      unfold fit at h
      split_ifs at h with hfits
      exact Except.ok.inj h ▸ hfits.2
  | release =>
      rw [fit_release] at h
      have hpos : (0 : Int) < (2 ^ w : Nat) := Int.natCast_pos.mpr (Nat.two_pow_pos w)
      rw [← Except.ok.inj h, Int.toNat_lt (Int.emod_nonneg x hpos.ne')]
      exact Int.emod_lt_of_pos x hpos

theorem eq_of_fit_dev {n m : Nat} (h : dev.fit stop w n = .ok m) : m = n ∧ n < 2 ^ w := by
  unfold fit at h
  split_ifs at h with hfits
  exact ⟨(Except.ok.inj h).symm, hfits.2⟩

theorem le_of_fit_dev_sub {a b n : Nat} (h : dev.fit stop w ((a : Int) - b) = .ok n) : b ≤ a := by
  by_contra hlt
  unfold fit at h
  rw [if_neg (by omega)] at h
  cases h

/-- A sum that is not below its first part has not wrapped. -/
theorem eq_add_of_fit {a b n : Nat} (hb : b < 2 ^ w) (h : p.fit stop w (a + b : Nat) = .ok n) (hle : a ≤ n) :
    n = a + b := by
  by_cases hlt : a + b < 2 ^ w
  · rw [fit_of_lt hlt] at h
    exact (Except.ok.inj h).symm
  · cases p with
    | dev =>
        rw [fit_dev_of_le (Nat.le_of_not_lt hlt)] at h
        cases h
    | release =>
        rw [fit_release_natCast] at h
        have hmod : (a + b) % 2 ^ w ≤ a + b - 2 ^ w := by
          rw [Nat.mod_eq_sub_mod (Nat.le_of_not_lt hlt)]
          exact Nat.mod_le _ _
        have hn := Except.ok.inj h
        omega

theorem eq_mod_of_fit {n m : Nat} (h : p.fit stop w n = .ok m) : m = n % 2 ^ w := by
  cases p with
  | dev =>
      obtain ⟨rfl, hlt⟩ := eq_of_fit_dev h
      exact (Nat.mod_eq_of_lt hlt).symm
  | release =>
      rw [fit_release_natCast] at h
      exact (Except.ok.inj h).symm

/-- A sum that fits where nothing may stop. -/
theorem fit_follows {N : Prop} (hN : N → p = .dev) {n : Nat} (h : ¬N → n < 2 ^ w) :
    Follows stop N (p.fit stop w n) (.ok n) := by
  by_cases hlt : n < 2 ^ w
  · exact Or.inl (fit_of_lt hlt)
  · have hstop : N := not_not.mp fun hnot => hlt (h hnot)
    refine Or.inr ⟨hstop, ?_⟩
    rw [hN hstop, fit_dev_of_le (Nat.le_of_not_lt hlt)]

theorem fit_sub_follows {N : Prop} (hN : N → p = .dev) {a b : Nat} (h : ¬N → b ≤ a ∧ a < 2 ^ w) :
    Follows stop N (p.fit stop w ((a : Int) - b)) (.ok (a - b)) := by
  by_cases hstop : N
  · rw [hN hstop]
    unfold fit
    split_ifs with hfits
    · exact Or.inl (congrArg Except.ok (by omega))
    · exact Or.inr ⟨hstop, rfl⟩
  · obtain ⟨hle, hlt⟩ := h hstop
    exact Or.inl (fit_sub hle hlt)

/-- Where a development build goes on, both builds compute modulo the size of the word. -/
theorem fit_natCast {n : Nat} (h : ¬(p = .dev ∧ 2 ^ w ≤ n)) : p.fit stop w n = .ok (n % 2 ^ w) := by
  cases p with
  | dev =>
      have hlt : n < 2 ^ w := Nat.lt_of_not_le fun hle => h ⟨rfl, hle⟩
      rw [fit_of_lt hlt, Nat.mod_eq_of_lt hlt]
  | release => exact fit_release_natCast n

end Profile

end UnixKernel
