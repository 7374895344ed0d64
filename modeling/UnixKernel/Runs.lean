/-! Runs of a machine: a state, calls that change it, and a guard that says which calls may be made. -/

namespace UnixKernel.Runs

variable {σ α : Type} (step : σ → α → σ) (guard : σ → α → Prop)

/-- The calls one after the other. -/
def run (s : σ) (calls : List α) : σ := calls.foldl step s

/-- Every call of the run is made where the guard allows it. -/
def Admits : σ → List α → Prop
  | _, [] => True
  | s, c :: calls => guard s c ∧ Admits (step s c) calls

instance decidableAdmits [∀ s c, Decidable (guard s c)] :
    (s : σ) → (calls : List α) → Decidable (Admits step guard s calls)
  | _, [] => isTrue trivial
  | s, c :: calls =>
    have := decidableAdmits (step s c) calls
    inferInstanceAs (Decidable (guard s c ∧ Admits step guard (step s c) calls))

/-- What holds in every state that the run goes through, the first and the last one included. -/
def Always (P : σ → Prop) (s : σ) (calls : List α) : Prop :=
  ∀ done, done <+: calls → P (run step s done)

variable {step guard}

/-- What every allowed call keeps, the run keeps. -/
theorem run_induction {P : σ → Prop} (hstep : ∀ s c, P s → guard s c → P (step s c)) {s : σ}
    {calls : List α} (h : P s) (hadmits : Admits step guard s calls) : P (run step s calls) := by
  induction calls generalizing s with
  | nil => exact h
  | cons c calls ih => exact ih (hstep s c h hadmits.1) hadmits.2

theorem run_concat (s : σ) (calls : List α) (c : α) : run step s (calls ++ [c]) = step (run step s calls) c :=
  List.foldl_append

/-- A call more is allowed if it is allowed at the end. -/
theorem Admits.concat {s : σ} {calls : List α} {c : α} (h : Admits step guard s calls)
    (hc : guard (run step s calls) c) : Admits step guard s (calls ++ [c]) := by
  induction calls generalizing s with
  | nil => exact ⟨hc, trivial⟩
  | cons c' calls ih => exact ⟨h.1, ih h.2 hc⟩

theorem always_nil {P : σ → Prop} {s : σ} : Always step P s ([] : List α) ↔ P s := by
  constructor
  · intro h
    exact h [] List.nil_prefix
  · intro h done hdone
    rw [List.prefix_nil.1 hdone]
    exact h

theorem always_cons {P : σ → Prop} {s : σ} {c : α} {calls : List α} :
    Always step P s (c :: calls) ↔ P s ∧ Always step P (step s c) calls := by
  constructor
  · intro h
    exact ⟨h [] List.nil_prefix, fun done hdone =>
      h (c :: done) (List.cons_prefix_cons.2 ⟨rfl, hdone⟩)⟩
  · rintro ⟨hs, h⟩ done hdone
    cases done with
    | nil => exact hs
    | cons d done =>
      obtain ⟨rfl, hrest⟩ := List.cons_prefix_cons.1 hdone
      exact h done hrest

/-- The exact condition for a safety property. Under an invariant that implies the property, a
guard that keeps the invariant and that no call can break without breaking the property says
which runs are safe throughout. -/
theorem always_iff_admits {P I : σ → Prop} {allowed : σ → α → Prop}
    (hsafe : ∀ s, I s → P s)
    (hkeep : ∀ s c, I s → allowed s c → guard s c → I (step s c))
    (hneeds : ∀ s c, I s → allowed s c → P (step s c) → guard s c) {s : σ} {calls : List α}
    (h : I s) (hallowed : Admits step allowed s calls) :
    Always step P s calls ↔ Admits step guard s calls := by
  induction calls generalizing s with
  | nil => exact ⟨fun _ => trivial, fun _ => always_nil.2 (hsafe s h)⟩
  | cons c calls ih =>
    rw [always_cons]
    constructor
    · rintro ⟨-, hrest⟩
      have hguard := hneeds s c h hallowed.1 (hrest [] List.nil_prefix)
      exact ⟨hguard, (ih (hkeep s c h hallowed.1 hguard) hallowed.2).1 hrest⟩
    · rintro ⟨hguard, hrest⟩
      exact ⟨hsafe s h, (ih (hkeep s c h hallowed.1 hguard) hallowed.2).2 hrest⟩

/-- A guard that always holds admits every run. -/
theorem admits_of_forall (h : ∀ s c, guard s c) (s : σ) (calls : List α) :
    Admits step guard s calls := by
  induction calls generalizing s with
  | nil => trivial
  | cons c calls ih => exact ⟨h s c, ih (step s c)⟩

theorem Admits.and_forall {Q : α → Prop} {s : σ} {calls : List α} (h : Admits step guard s calls)
    (hQ : ∀ c ∈ calls, Q c) : Admits step (fun s c => guard s c ∧ Q c) s calls := by
  induction calls generalizing s with
  | nil => trivial
  | cons c calls ih =>
    rw [List.forall_mem_cons] at hQ
    exact ⟨⟨h.1, hQ.1⟩, ih h.2 hQ.2⟩

end UnixKernel.Runs
