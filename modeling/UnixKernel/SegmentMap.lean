import Mathlib.Algebra.BigOperators.Group.Multiset.Basic
import Mathlib.Tactic.Abel
import UnixKernel.SlotList

/-! Collections of tagged address ranges, read as a map from addresses to tags. The map is kept
with multiplicity: `den m x` is the multiset of the tags that the ranges of `m` put on `x`. Adding a
range, dropping one, cutting one in two and joining two neighbours are then exact equations that hold
for every collection, and disjointness is the statement that no address carries two tags. -/

namespace UnixKernel.Segments

open Slots

/-- A half-open range of addresses that carries a tag. -/
class Ranged (β : Type) (τ : outParam Type) where
  lo : β → Nat
  hi : β → Nat
  tag : β → τ

open Ranged

variable {β τ : Type} [Ranged β τ]

/-- The address `x` lies in the range `b`. -/
def Holds (b : β) (x : Nat) : Prop := lo b ≤ x ∧ x < hi b

instance (b : β) (x : Nat) : Decidable (Holds b x) := inferInstanceAs (Decidable (_ ∧ _))

/-- What the range `b` alone puts on the address `x`. -/
def part (b : β) (x : Nat) : Multiset τ := if Holds b x then {tag b} else 0

/-- The tags that the ranges of `m` put on the address `x`. -/
def den (m : Multiset β) (x : Nat) : Multiset τ := (m.map fun b => part b x).sum

theorem part_pos {b : β} {x : Nat} (h : Holds b x) : part b x = {tag b} := if_pos h

theorem part_neg {b : β} {x : Nat} (h : ¬Holds b x) : part b x = 0 := if_neg h

theorem part_eq_zero_iff {b : β} {x : Nat} : part b x = 0 ↔ ¬Holds b x := by
  unfold part
  split_ifs with h <;> simp [h]

@[simp]
theorem den_zero (x : Nat) : den (0 : Multiset β) x = 0 := by simp [den]

@[simp]
theorem den_cons (b : β) (m : Multiset β) (x : Nat) : den (b ::ₘ m) x = part b x + den m x := by
  simp [den]

@[simp]
theorem den_add (m n : Multiset β) (x : Nat) : den (m + n) x = den m x + den n x := by
  simp [den]

theorem mem_den {m : Multiset β} {x : Nat} {t : τ} :
    t ∈ den m x ↔ ∃ b ∈ m, Holds b x ∧ tag b = t := by
  induction m using Multiset.induction_on with
  | empty => simp
  | cons b m ih =>
      rw [den_cons, Multiset.mem_add, ih]
      by_cases hb : Holds b x
      · simp [part_pos hb, hb, eq_comm]
      · simp [part_neg hb, hb]

theorem tag_mem_den {m : Multiset β} {b : β} {x : Nat} (hb : b ∈ m) (hx : Holds b x) :
    tag b ∈ den m x :=
  mem_den.mpr ⟨b, hb, hx, rfl⟩

theorem den_eq_zero_iff {m : Multiset β} {x : Nat} : den m x = 0 ↔ ∀ b ∈ m, ¬Holds b x := by
  rw [Multiset.eq_zero_iff_forall_notMem]
  constructor
  · intro h b hb hx
    exact h _ (tag_mem_den hb hx)
  · intro h t ht
    obtain ⟨b, hb, hx, -⟩ := mem_den.mp ht
    exact h b hb hx

theorem den_map_congr {f : β → β} {m : Multiset β} {x : Nat}
    (h : ∀ b ∈ m, part (f b) x = part b x) : den (m.map f) x = den m x := by
  rw [den, den, Multiset.map_map]
  exact congrArg Multiset.sum (Multiset.map_congr rfl h)

/-- A map that keeps the ranges keeps the number of tags on every address. -/
theorem card_den_map {β' τ' : Type} [Ranged β' τ'] {f : β → β'} (hf : ∀ b x, Holds (f b) x ↔ Holds b x)
    (m : Multiset β) (x : Nat) : (den (m.map f) x).card = (den m x).card := by
  induction m using Multiset.induction_on with
  | empty => rfl
  | cons b m ih =>
      rw [Multiset.map_cons, den_cons, den_cons, Multiset.card_add, Multiset.card_add, ih]
      by_cases hx : Holds b x
      · rw [part_pos hx, part_pos ((hf b x).mpr hx)]
        rfl
      · rw [part_neg hx, part_neg fun h => hx ((hf b x).mp h)]
        rfl

/-- Two adjacent ranges with one tag are one range. -/
theorem part_join {b c d : β} (hlo : lo d = lo b) (hmid : hi b = lo c) (hhi : hi d = hi c)
    (hb : tag d = tag b) (hc : tag d = tag c) (hbc : lo b ≤ hi b) (hcd : lo c ≤ hi c) (x : Nat) :
    part d x = part b x + part c x := by
  by_cases hx : x < lo c
  · have hnot : ¬Holds c x := by unfold Holds; omega
    rw [part_neg hnot, add_zero]
    by_cases hxb : lo b ≤ x
    · rw [part_pos (show Holds d x by unfold Holds; omega),
        part_pos (show Holds b x by unfold Holds; omega), hb]
    · rw [part_neg (show ¬Holds d x by unfold Holds; omega),
        part_neg (show ¬Holds b x by unfold Holds; omega)]
  · have hnot : ¬Holds b x := by unfold Holds; omega
    rw [part_neg hnot, zero_add]
    by_cases hxc : x < hi c
    · rw [part_pos (show Holds d x by unfold Holds; omega),
        part_pos (show Holds c x by unfold Holds; omega), hc]
    · rw [part_neg (show ¬Holds d x by unfold Holds; omega),
        part_neg (show ¬Holds c x by unfold Holds; omega)]

/-- At most one range of `m` holds `x`. -/
def Sole (m : Multiset β) (x : Nat) : Prop := (den m x).card ≤ 1

theorem Sole.rest_eq_zero {b : β} {m : Multiset β} {x : Nat} (h : Sole (b ::ₘ m) x)
    (hx : Holds b x) : den m x = 0 := by
  rw [Sole, den_cons, part_pos hx, Multiset.card_add, Multiset.card_singleton] at h
  exact Multiset.card_eq_zero.mp (by omega)

theorem Sole.den_eq {m : Multiset β} {x : Nat} {t : τ} (h : Sole m x) (ht : t ∈ den m x) :
    den m x = {t} := by
  obtain ⟨rest, hrest⟩ := Multiset.exists_cons_of_mem ht
  rw [Sole, hrest, Multiset.card_cons] at h
  rw [hrest, Multiset.card_eq_zero.mp (show rest.card = 0 by omega)]
  rfl

theorem Sole.eq_of_holds {m : Multiset β} {b c : β} {x : Nat} (h : Sole m x) (hb : b ∈ m)
    (hc : c ∈ m) (hbx : Holds b x) (hcx : Holds c x) : b = c := by
  obtain ⟨rest, rfl⟩ := Multiset.exists_cons_of_mem hb
  rcases Multiset.mem_cons.mp hc with hcb | hcr
  · exact hcb.symm
  · exact absurd hcx (den_eq_zero_iff.mp (h.rest_eq_zero hbx) c hcr)

/-- Exchanging one range for another exchanges their contributions. -/
theorem den_swap {b b' : β} {l l' : List β} (h : Swap b b' l l') (x : Nat) :
    den (l' : Multiset β) x + part b x = den (l : Multiset β) x + part b' x := by
  obtain ⟨rest, hl, hl'⟩ := h
  rw [Multiset.coe_eq_coe.mpr hl, Multiset.coe_eq_coe.mpr hl', ← Multiset.cons_coe,
    ← Multiset.cons_coe, den_cons, den_cons, add_comm (part b x), add_comm (part b' x),
    add_right_comm]

/-! ### Lists of disjoint ranges -/

/-- Two ranges one of which ends before the other starts. -/
def Apart (b c : β) : Prop := hi b ≤ lo c ∨ hi c ≤ lo b

/-- Nonempty ranges are apart when they have no address in common. -/
theorem apart_iff {b c : β} :
    (lo b < hi b → lo c < hi c → Apart b c) ↔ ∀ x, Holds b x → ¬Holds c x := by
  unfold Apart Holds
  constructor
  · intro h x hb hc
    have := h (by omega) (by omega)
    omega
  · intro h hb hc
    have h₁ := h (lo b)
    have h₂ := h (lo c)
    omega

instance (b c : β) : Decidable (∀ x, Holds b x → ¬Holds c x) :=
  decidable_of_iff (lo b < hi b → lo c < hi c → hi b ≤ lo c ∨ hi c ≤ lo b) apart_iff

/-- In a list no two ranges have an address in common exactly when no address lies in two of them. -/
theorem pairwise_disjoint_iff {l : List β} :
    l.Pairwise (fun b c => ∀ x, Holds b x → ¬Holds c x) ↔ ∀ x, Sole (l : Multiset β) x := by
  induction l with
  | nil => simp [Sole]
  | cons b l ih =>
      rw [List.pairwise_cons, ih]
      constructor
      · rintro ⟨hb, hl⟩ x
        rw [Sole, ← Multiset.cons_coe, den_cons, Multiset.card_add]
        by_cases hx : Holds b x
        · have hzero : den (l : Multiset β) x = 0 :=
            den_eq_zero_iff.mpr fun c hc => hb c (Multiset.mem_coe.mp hc) x hx
          rw [hzero, part_pos hx]
          rfl
        · rw [part_neg hx, Multiset.card_zero, zero_add]
          exact hl x
      · intro h
        refine ⟨fun c hc x hbx hcx => ?_, fun x => ?_⟩
        · have hx := h x
          rw [← Multiset.cons_coe] at hx
          exact den_eq_zero_iff.mp (hx.rest_eq_zero hbx) c (Multiset.mem_coe.mpr hc) hcx
        · have hx := h x
          rw [Sole, ← Multiset.cons_coe, den_cons, Multiset.card_add] at hx
          rw [Sole]
          omega

theorem pairwise_apart_iff {l : List β} :
    l.Pairwise (fun b c => lo b < hi b → lo c < hi c → Apart b c) ↔ ∀ x, Sole (l : Multiset β) x := by
  simp only [apart_iff]
  exact pairwise_disjoint_iff

/-- The tag of the first range that holds `x`. -/
def lookup (l : List β) (x : Nat) : Option τ := (l.find? fun b => Holds b x).map tag

theorem lookup_eq_none_iff {l : List β} {x : Nat} :
    lookup l x = none ↔ den (l : Multiset β) x = 0 := by
  rw [lookup, Option.map_eq_none_iff, List.find?_eq_none, den_eq_zero_iff]
  simp

/-- Where ranges do not overlap, the first range that holds `x` is the only one. -/
theorem lookup_eq_some_iff {l : List β} {x : Nat} {t : τ} (h : Sole (l : Multiset β) x) :
    lookup l x = some t ↔ den (l : Multiset β) x = {t} := by
  constructor
  · intro hl
    rw [lookup, Option.map_eq_some_iff] at hl
    obtain ⟨b, hb, rfl⟩ := hl
    have hx := List.find?_some hb
    rw [decide_eq_true_eq] at hx
    exact h.den_eq (tag_mem_den (Multiset.mem_coe.mpr (List.mem_of_find?_eq_some hb)) hx)
  · intro hden
    cases hl : lookup l x with
    | none =>
        rw [lookup_eq_none_iff.mp hl] at hden
        exact absurd hden.symm (Multiset.singleton_ne_zero t)
    | some u =>
        rw [lookup, Option.map_eq_some_iff] at hl
        obtain ⟨b, hb, rfl⟩ := hl
        have hx := List.find?_some hb
        rw [decide_eq_true_eq] at hx
        have hmem := tag_mem_den (Multiset.mem_coe.mpr (List.mem_of_find?_eq_some hb)) hx
        rw [hden, Multiset.mem_singleton] at hmem
        rw [hmem]

/-! ### Collections without neighbours to join -/

/-- No two ranges with one tag are adjacent. -/
def Coalesced (m : Multiset β) : Prop :=
  ∀ b ∈ m, ∀ c ∈ m, lo b < hi b → lo c < hi c → tag b = tag c → hi b ≠ lo c

/-- Addresses in a row with one tag lie in one range. -/
theorem Coalesced.exists_range {m : Multiset β} (h : Coalesced m) (hsole : ∀ x, Sole m x) {t : τ} {a e : Nat}
    (hlt : a < e) (htag : ∀ x, a ≤ x → x < e → t ∈ den m x) :
    ∃ b ∈ m, tag b = t ∧ lo b ≤ a ∧ e ≤ hi b := by
  induction e, hlt using Nat.le_induction with
  | base =>
      obtain ⟨b, hb, hx, htb⟩ := mem_den.mp (htag a (le_refl a) (Nat.lt_succ_self a))
      exact ⟨b, hb, htb, hx.1, hx.2⟩
  | succ e hle ih =>
      obtain ⟨b, hb, htb, hlo, hhi⟩ := ih fun x hx hxe => htag x hx (Nat.lt_succ_of_lt hxe)
      obtain ⟨c, hc, ⟨hclo, hchi⟩, htc⟩ := mem_den.mp (htag e (by omega) (Nat.lt_succ_self e))
      rcases Nat.lt_or_ge e (hi b) with hin | hend
      · exact ⟨b, hb, htb, hlo, hin⟩
      -- `b` ends at `e`, so the range that holds `e` is another one and starts there
      have hstart : lo c = e := by
        by_contra hne
        have heq := (hsole (e - 1)).eq_of_holds hb hc ⟨by omega, by omega⟩ ⟨by omega, by omega⟩
        subst heq
        omega
      exact absurd (show hi b = lo c by omega) (h b hb c hc (by omega) (by omega) (htb.trans htc.symm))

/-- Nonempty ranges that do not overlap are all different. -/
theorem nodup_of_sole {m : Multiset β} (hne : ∀ b ∈ m, lo b < hi b) (hsole : ∀ x, Sole m x) : m.Nodup := by
  rw [Multiset.nodup_iff_ne_cons_cons]
  rintro b rest rfl
  have hb : Holds b (lo b) := ⟨le_refl _, hne b (Multiset.mem_cons_self _ _)⟩
  have hzero := (hsole (lo b)).rest_eq_zero hb
  exact den_eq_zero_iff.mp hzero b (Multiset.mem_cons_self _ _) hb

/-- A range of one collection is a range of every other one with the same map. -/
theorem Coalesced.exists_eq {m m' : Multiset β} (h : Coalesced m) (h' : Coalesced m') (hsole : ∀ x, Sole m x)
    (hsole' : ∀ x, Sole m' x) (hden : ∀ x, den m x = den m' x) {b : β} (hb : b ∈ m) (hne : lo b < hi b) :
    ∃ c ∈ m', lo c = lo b ∧ hi c = hi b ∧ tag c = tag b := by
  obtain ⟨c, hc, htc, hclo, hchi⟩ := h'.exists_range hsole' hne fun x hx hxe =>
    hden x ▸ tag_mem_den hb ⟨hx, hxe⟩
  -- the range of `m` that holds all of `c` is `b` again
  obtain ⟨d, hd, htd, hdlo, hdhi⟩ := h.exists_range hsole (show lo c < hi c by omega) fun x hx hxe =>
    (hden x).symm ▸ tag_mem_den hc ⟨hx, hxe⟩
  have heq := (hsole (lo b)).eq_of_holds hb hd ⟨le_refl _, hne⟩ ⟨by omega, by omega⟩
  subst heq
  exact ⟨c, hc, by omega, by omega, htc⟩

/-- The map determines the ranges. -/
theorem Coalesced.eq_of_den_eq {m m' : Multiset β}
    (hext : ∀ b c : β, lo b = lo c → hi b = hi c → tag b = tag c → b = c) (h : Coalesced m)
    (h' : Coalesced m') (hne : ∀ b ∈ m, lo b < hi b) (hne' : ∀ b ∈ m', lo b < hi b)
    (hsole : ∀ x, Sole m x) (hden : ∀ x, den m x = den m' x) : m = m' := by
  have hsole' : ∀ x, Sole m' x := fun x => by
    rw [Sole, ← hden x]
    exact hsole x
  refine (Multiset.Nodup.ext (nodup_of_sole hne hsole) (nodup_of_sole hne' hsole')).mpr fun b =>
    ⟨fun hb => ?_, fun hb => ?_⟩
  · obtain ⟨c, hc, hlo, hhi, ht⟩ := h.exists_eq h' hsole hsole' hden hb (hne b hb)
    rwa [← hext c b hlo hhi ht]
  · obtain ⟨c, hc, hlo, hhi, ht⟩ := h'.exists_eq h hsole' hsole (fun x => (hden x).symm) hb (hne' b hb)
    rwa [← hext c b hlo hhi ht]

/-- The ranges that no range with the same tag runs into: where the rows of ranges with one tag begin. -/
def starts [DecidableEq τ] (m : Multiset β) : Multiset β :=
  m.filter fun b => lo b < hi b ∧ ∀ c ∈ m, lo c < hi c → tag c = tag b → hi c ≠ lo b

theorem nodup_map_lo {m : Multiset β} (hne : ∀ b ∈ m, lo b < hi b) (hsole : ∀ x, Sole m x) : (m.map lo).Nodup := by
  refine Multiset.Nodup.map_on (fun b hb c hc heq => ?_) (nodup_of_sole hne hsole)
  exact (hsole (lo b)).eq_of_holds hb hc ⟨le_refl _, hne b hb⟩ ⟨heq.ge, heq ▸ hne c hc⟩

/-- A coalesced collection has one range for every row of any collection with the same map. -/
theorem Coalesced.card_starts [DecidableEq τ] {m m' : Multiset β} (h : Coalesced m) (hne : ∀ b ∈ m, lo b < hi b)
    (hsole : ∀ x, Sole m x) (hden : ∀ x, den m' x = den m x) : (starts m').card = m.card := by
  have hsole' : ∀ x, Sole m' x := fun x => by
    rw [Sole, hden x]
    exact hsole x
  have htag : ∀ {c : β} {x : Nat}, c ∈ m' → lo c ≤ x → x < hi c → tag c ∈ den m x := fun hc hlo hhi =>
    hden _ ▸ tag_mem_den hc ⟨hlo, hhi⟩
  rw [← Multiset.card_map lo, ← Multiset.card_map lo m]
  refine congrArg _ ((Multiset.Nodup.ext (nodup_map_lo (fun b hb => (Multiset.mem_filter.mp hb).2.1) fun x => ?_)
    (nodup_map_lo hne hsole)).mpr fun x => ?_)
  · have hle := hsole' x
    rw [Sole, ← Multiset.filter_add_not (fun b => lo b < hi b ∧ ∀ c ∈ m', lo c < hi c → tag c = tag b → hi c ≠ lo b) m',
      den_add, Multiset.card_add] at hle
    exact (Nat.le_add_right _ _).trans hle
  simp only [Multiset.mem_map]
  constructor
  · rintro ⟨c, hc, rfl⟩
    obtain ⟨hc, hlt, hfirst⟩ := Multiset.mem_filter.mp hc
    obtain ⟨b, hb, htb, hlo, hhi⟩ := h.exists_range hsole hlt fun x => htag hc
    refine ⟨b, hb, hlo.antisymm (not_lt.mp fun hbefore => ?_)⟩
    -- the byte in front of `c` has its tag: another range ends there
    obtain ⟨c', hc', ⟨hlo', hhi'⟩, ht'⟩ := mem_den.mp (hden (lo c - 1) ▸ tag_mem_den hb ⟨by omega, by omega⟩ :
      tag b ∈ den m' (lo c - 1))
    have hend := hfirst c' hc' (by omega) (ht'.trans htb)
    have heq := (hsole' (lo c)).eq_of_holds hc hc' ⟨le_refl _, hlt⟩ ⟨by omega, by omega⟩
    subst heq
    omega
  · rintro ⟨b, hb, rfl⟩
    obtain ⟨c, hc, ⟨hlo, hhi⟩, ht⟩ := mem_den.mp (hden (lo b) ▸ tag_mem_den hb ⟨le_refl _, hne b hb⟩ :
      tag b ∈ den m' (lo b))
    -- every row that meets `b` lies in it
    have hrow : ∀ {a : Nat}, a ≤ lo b → (∀ x, a ≤ x → x < hi c → tag c ∈ den m x) → lo b ≤ a := by
      intro a ha hall
      obtain ⟨d, hd, -, hdlo, hdhi⟩ := h.exists_range hsole (by omega) hall
      have heq := (hsole (lo b)).eq_of_holds hb hd ⟨le_refl _, hne b hb⟩ ⟨by omega, by omega⟩
      subst heq
      exact hdlo
    have hstart : lo c = lo b := hlo.antisymm (hrow hlo fun x => htag hc)
    refine ⟨c, Multiset.mem_filter.mpr ⟨hc, by omega, fun c' hc' hlt' ht' hend' => ?_⟩, hstart⟩
    have := hrow (a := lo c') (by omega) fun x hx hx' => by
      rcases Nat.lt_or_ge x (lo c) with hin | hout
      · exact ht' ▸ htag hc' hx (by omega)
      · exact htag hc hout hx'
    omega

end UnixKernel.Segments
