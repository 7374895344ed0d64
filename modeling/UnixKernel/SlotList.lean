import Mathlib.Data.List.Perm.Basic
import Mathlib.Tactic.Common

/-! Fixed-size tables of slots kept as lists. A slot is overwritten in place, a scan that keeps
overwriting its result remembers the last match, and a new entry goes to the first slot that is
marked vacant. Each update exchanges one entry for another and leaves the rest of the table alone;
`Swap` records exactly that, up to the order of the slots. -/

namespace UnixKernel.Slots

variable {α : Type}

/-- The table `l'` is `l` with one occurrence of `a` exchanged for `a'`. -/
def Swap (a a' : α) (l l' : List α) : Prop :=
  ∃ rest : List α, l.Perm (a :: rest) ∧ l'.Perm (a' :: rest)

theorem Swap.mem_new {a a' : α} {l l' : List α} (h : Swap a a' l l') : a' ∈ l' := by
  obtain ⟨rest, -, hl'⟩ := h
  exact hl'.mem_iff.mpr List.mem_cons_self

theorem Swap.mem_of_ne {a a' c : α} {l l' : List α} (h : Swap a a' l l') (hc : c ∈ l) (hne : c ≠ a) :
    c ∈ l' := by
  obtain ⟨rest, hl, hl'⟩ := h
  rw [hl.mem_iff, List.mem_cons] at hc
  exact hl'.mem_iff.mpr (List.mem_cons_of_mem _ (hc.resolve_left hne))

theorem Swap.length_eq {a a' : α} {l l' : List α} (h : Swap a a' l l') : l'.length = l.length := by
  obtain ⟨rest, hl, hl'⟩ := h
  rw [hl.length_eq, hl'.length_eq, List.length_cons, List.length_cons]

theorem Swap.countP_add (p : α → Bool) {a a' : α} {l l' : List α} (h : Swap a a' l l') :
    l'.countP p + (if p a then 1 else 0) = l.countP p + (if p a' then 1 else 0) := by
  obtain ⟨rest, hl, hl'⟩ := h
  rw [hl.countP_eq, hl'.countP_eq, List.countP_cons, List.countP_cons]
  omega

theorem Swap.symm {a a' : α} {l l' : List α} (h : Swap a a' l l') : Swap a' a l' l := by
  obtain ⟨rest, hl, hl'⟩ := h
  exact ⟨rest, hl', hl⟩

/-- Among the entries satisfying `p`, one that does not satisfy it counts for nothing. -/
theorem Swap.filter_of_new {p : α → Bool} {a a' : α} {l l' : List α} (h : Swap a a' l l')
    (ha : p a = false) (ha' : p a' = true) : (l'.filter p).Perm (a' :: l.filter p) := by
  obtain ⟨rest, hl, hl'⟩ := h
  have hold := hl.filter p
  have hnew := hl'.filter p
  rw [List.filter_cons_of_neg (by simp [ha])] at hold
  rw [List.filter_cons_of_pos ha'] at hnew
  exact hnew.trans (hold.symm.cons a')

theorem Swap.filter {p : α → Bool} {a a' : α} {l l' : List α} (h : Swap a a' l l') (ha : p a = true)
    (ha' : p a' = true) : Swap a a' (l.filter p) (l'.filter p) := by
  obtain ⟨rest, hl, hl'⟩ := h
  have hold := hl.filter p
  have hnew := hl'.filter p
  rw [List.filter_cons_of_pos ha] at hold
  rw [List.filter_cons_of_pos ha'] at hnew
  exact ⟨rest.filter p, hold, hnew⟩

theorem swap_set {a : α} (a' : α) {l : List α} {i : Nat} (h : l[i]? = some a) :
    Swap a a' l (l.set i a') := by
  obtain ⟨hi, hget⟩ := List.getElem?_eq_some_iff.mp h
  exact ⟨l.eraseIdx i, hget ▸ (List.getElem_cons_eraseIdx_perm hi).symm,
    List.set_perm_cons_eraseIdx hi a'⟩

theorem eq_of_countP_le_one {p : α → Bool} {l : List α} {a b : α} (h : l.countP p ≤ 1) (ha : a ∈ l)
    (hb : b ∈ l) (hpa : p a = true) (hpb : p b = true) : a = b := by
  obtain ⟨i, hi⟩ := List.getElem?_of_mem ha
  obtain ⟨rest, hl, -⟩ := swap_set a hi
  rw [hl.countP_eq, List.countP_cons_of_pos hpa] at h
  rcases List.mem_cons.mp (hl.mem_iff.mp hb) with heq | hrest
  · exact heq.symm
  · have := List.countP_pos_iff.mpr ⟨b, hrest, hpb⟩
    omega

/-! ### The last match of a scan -/

/-- The last entry satisfying `p`, with its position: what a loop that overwrites its result on
every match ends with. -/
def last? (p : α → Bool) : List α → Option (Nat × α)
  | [] => none
  | a :: l =>
      match last? p l with
      | some (i, b) => some (i + 1, b)
      | none => if p a then some (0, a) else none

theorem last?_eq_some {p : α → Bool} {l : List α} {i : Nat} {b : α}
    (h : last? p l = some (i, b)) : l[i]? = some b ∧ p b = true := by
  induction l generalizing i with
  | nil => simp [last?] at h
  | cons a l ih =>
      rw [last?] at h
      split at h
      · rename_i j c hc
        simp only [Option.some.injEq, Prod.mk.injEq] at h
        obtain ⟨rfl, rfl⟩ := h
        simpa using ih hc
      · split at h
        · simp only [Option.some.injEq, Prod.mk.injEq] at h
          obtain ⟨rfl, rfl⟩ := h
          exact ⟨rfl, by assumption⟩
        · cases h

theorem last?_eq_none {p : α → Bool} {l : List α} :
    last? p l = none ↔ ∀ b ∈ l, p b = false := by
  induction l with
  | nil => simp [last?]
  | cons a l ih =>
      rw [last?, List.forall_mem_cons, ← ih]
      cases hl : last? p l with
      | some r => simp
      | none => cases p a <;> simp

/-- A scan for a property ends with an entry that has it, or there is none. -/
theorem last?_cases {p : α → Bool} {P : α → Prop} {l : List α} (h : ∀ b, p b = true ↔ P b) :
    (∃ i b, last? p l = some (i, b) ∧ l[i]? = some b ∧ P b) ∨ (last? p l = none ∧ ¬∃ b ∈ l, P b) := by
  cases hlast : last? p l with
  | some r =>
      obtain ⟨hget, hp⟩ := last?_eq_some hlast
      exact Or.inl ⟨r.1, r.2, rfl, hget, (h r.2).mp hp⟩
  | none =>
      refine Or.inr ⟨rfl, ?_⟩
      rintro ⟨b, hb, hP⟩
      have hfalse := last?_eq_none.mp hlast b hb
      rw [(h b).mpr hP] at hfalse
      cases hfalse

/-- The last entry of its kind, where there is only one. -/
theorem last?_of_sole {p : α → Bool} {l : List α} {b : α} (hb : b ∈ l) (hp : p b = true)
    (hsole : ∀ c ∈ l, p c = true → c = b) : ∃ i, last? p l = some (i, b) := by
  cases hlast : last? p l with
  | none =>
      have hfalse := last?_eq_none.mp hlast b hb
      rw [hp] at hfalse
      cases hfalse
  | some r =>
      obtain ⟨hget, hr⟩ := last?_eq_some hlast
      exact ⟨r.1, by rw [← hsole r.2 (List.mem_of_getElem? hget) hr]⟩

/-- A scan remembers what it has found before, unless it finds something else. -/
theorem last?_cons_or (f : α → Bool) (a : α) (l : List α) (i : Nat) (near : Option (Nat × α)) :
    ((last? f (a :: l)).map fun r => (i + r.1, r.2)).or near =
      ((last? f l).map fun r => (i + 1 + r.1, r.2)).or (if f a then some (i, a) else near) := by
  rw [last?]
  cases hl : last? f l with
  | some r => simp [Nat.add_assoc, Nat.add_comm 1]
  | none => cases f a <;> simp

theorem last?_cons_snd_or (f : α → Bool) (a : α) (l : List α) (near : Option α) :
    ((last? f (a :: l)).map Prod.snd).or near = ((last? f l).map Prod.snd).or (if f a then some a else near) := by
  rw [last?]
  cases last? f l with
  | some r => rfl
  | none => cases f a <;> rfl

/-! ### Filling the first vacant slot -/

/-- Writes `b` over the first entry satisfying `vacant`; a table without one stays as it is. -/
def fill (vacant : α → Bool) (b : α) : List α → List α
  | [] => []
  | a :: l => if vacant a then b :: l else a :: fill vacant b l

theorem swap_fill {vacant : α → Bool} {b : α} {l : List α} (h : ∃ a ∈ l, vacant a = true) :
    ∃ a, vacant a = true ∧ Swap a b l (fill vacant b l) := by
  induction l with
  | nil => simp at h
  | cons a l ih =>
      by_cases ha : vacant a = true
      · exact ⟨a, ha, l, List.Perm.refl _, by simp [fill, ha]⟩
      · obtain ⟨c, hc, rest, hl, hl'⟩ := ih (by simpa [ha] using h)
        refine ⟨c, hc, a :: rest, (hl.cons a).trans (List.Perm.swap c a rest), ?_⟩
        rw [fill, if_neg ha]
        exact (hl'.cons a).trans (List.Perm.swap b a rest)

theorem mem_of_mem_fill {vacant : α → Bool} {b c : α} {l : List α} (h : c ∈ fill vacant b l) :
    c = b ∨ c ∈ l := by
  induction l with
  | nil => cases h
  | cons a l ih =>
      rw [fill] at h
      split_ifs at h
      · exact (List.mem_cons.mp h).imp_right (List.mem_cons_of_mem a)
      · rcases List.mem_cons.mp h with rfl | h
        · exact Or.inr List.mem_cons_self
        · exact (ih h).imp_right (List.mem_cons_of_mem a)

theorem length_fill (vacant : α → Bool) (b : α) (l : List α) : (fill vacant b l).length = l.length := by
  induction l with
  | nil => rfl
  | cons a l ih =>
      rw [fill]
      split_ifs
      · rfl
      · rw [List.length_cons, ih, List.length_cons]

end UnixKernel.Slots
