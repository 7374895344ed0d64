import UnixKernel.Overflow

/-! Computations that change a state and can stop. What was done before the stop stays done. -/

namespace UnixKernel

/-- A computation from a state to a value, or a reason for stopping, and the state it leaves. -/
def Eff (σ ε α : Type) : Type := σ → Except ε α × σ

namespace Eff

variable {σ ε α β : Type}

instance : Monad (Eff σ ε) where
  pure a := fun s => (.ok a, s)
  bind m f := fun s =>
    match m s with
    | (.ok a, s') => f a s'
    | (.error e, s') => (.error e, s')

/-- A computation that leaves the state alone. -/
def lift (e : Except ε α) : Eff σ ε α := fun s => (e, s)

theorem bind_of_ok {m : Eff σ ε α} {f : α → Eff σ ε β} {s s' : σ} {a : α} (h : m s = (.ok a, s')) :
    (m >>= f) s = f a s' := by
  show (match m s with | (.ok a, s') => f a s' | (.error e, s') => (.error e, s')) = _
  rw [h]

theorem bind_of_error {m : Eff σ ε α} {f : α → Eff σ ε β} {s s' : σ} {e : ε} (h : m s = (.error e, s')) :
    (m >>= f) s = (.error e, s') := by
  show (match m s with | (.ok a, s') => f a s' | (.error e, s') => (.error e, s')) = _
  rw [h]

theorem bind_eq_ok {m : Eff σ ε α} {f : α → Eff σ ε β} {s s' : σ} {b : β} :
    (m >>= f) s = (.ok b, s') ↔ ∃ a s₁, m s = (.ok a, s₁) ∧ f a s₁ = (.ok b, s') := by
  constructor
  · intro h
    rcases hmid : m s with ⟨e | a, s₁⟩
    · rw [bind_of_error hmid] at h
      cases h
    · rw [bind_of_ok hmid] at h
      exact ⟨a, s₁, rfl, h⟩
  · rintro ⟨a, s₁, hmid, h⟩
    rw [bind_of_ok hmid, h]

/-- A composite that stops has stopped in one of its parts. -/
theorem bind_eq_error {m : Eff σ ε α} {f : α → Eff σ ε β} {s s' : σ} {e : ε} (h : (m >>= f) s = (.error e, s')) :
    m s = (.error e, s') ∨ ∃ a s₁, m s = (.ok a, s₁) ∧ f a s₁ = (.error e, s') := by
  rcases hm : m s with ⟨e' | a, s₁⟩
  · rw [bind_of_error hm] at h
    cases h
    exact Or.inl rfl
  · rw [bind_of_ok hm] at h
    exact Or.inr ⟨a, s₁, rfl, h⟩

theorem bind_assoc {γ : Type} (m : Eff σ ε α) (f : α → Eff σ ε β) (g : β → Eff σ ε γ) :
    (m >>= f) >>= g = m >>= fun a => f a >>= g := by
  funext s
  rcases hmid : m s with ⟨e | a, s'⟩
  · rw [bind_of_error (bind_of_error hmid), bind_of_error hmid]
  · rw [bind_of_ok hmid]
    show (match (m >>= f) s with | (.ok b, s') => g b s' | (.error e, s') => (.error e, s')) = _
    rw [bind_of_ok hmid]
    rfl

/-- A second part that leaves the state alone. -/
theorem bind_snd {m : Eff σ ε α} {f : α → Eff σ ε β} (hf : ∀ a s, (f a s).2 = s) (s : σ) :
    ((m >>= f) s).2 = (m s).2 := by
  rcases hmid : m s with ⟨e | a, s'⟩
  · rw [bind_of_error hmid]
  · rw [bind_of_ok hmid, hf]

theorem lift_eq_ok {e : Except ε α} {s s' : σ} {a : α} (h : lift e s = (.ok a, s')) : e = .ok a ∧ s' = s :=
  ⟨congrArg Prod.fst h, (congrArg Prod.snd h).symm⟩

theorem lift_ok_bind (a : α) (f : α → Eff σ ε β) : (lift (.ok a) >>= f) = f a := rfl

theorem lift_error_bind (e : ε) (f : α → Eff σ ε β) : (lift (.error e) >>= f) = lift (.error e) := rfl

/-- The computation keeps a property of the state, however it ends. -/
def Keeps (P : σ → Prop) (m : Eff σ ε α) : Prop := ∀ s, P s → P (m s).2

variable {P : σ → Prop}

theorem keeps_lift (e : Except ε α) : Keeps P (lift e : Eff σ ε α) := fun _ h => h

theorem Keeps.after {m : Eff σ ε α} {s s' : σ} {x : Except ε α} (hm : Keeps P m) (h : m s = (x, s')) (hs : P s) :
    P s' := by
  have hend := hm s hs
  rwa [h] at hend

/-- What holds after the first part, and is kept by the second, holds at the end. -/
theorem after_bind {m : Eff σ ε α} {f : α → Eff σ ε β} {s : σ} (h : P (m s).2) (hf : ∀ a, Keeps P (f a)) :
    P ((m >>= f) s).2 := by
  rcases hmid : m s with ⟨e | a, s'⟩
  · rw [bind_of_error hmid]
    rwa [hmid] at h
  · rw [bind_of_ok hmid]
    rw [hmid] at h
    exact hf a s' h

theorem Keeps.bind {m : Eff σ ε α} {f : α → Eff σ ε β} (hm : Keeps P m)
    (hf : ∀ s a s', m s = (.ok a, s') → Keeps P (f a)) : Keeps P (m >>= f) := by
  intro s hs
  have hs' := hm s hs
  rcases hmid : m s with ⟨e | a, s'⟩
  · rw [bind_of_error hmid]
    rwa [hmid] at hs'
  · rw [bind_of_ok hmid]
    rw [hmid] at hs'
    exact hf s a s' hmid s' hs'

/-- A pure computation in front leaves its value. -/
theorem Keeps.lift_bind {e : Except ε α} {f : α → Eff σ ε β} (hf : ∀ a, e = .ok a → Keeps P (f a)) :
    Keeps P (lift e >>= f) :=
  (keeps_lift e).bind fun _ a _ h => hf a (Prod.ext_iff.mp h).1

/-- The computation stops with errors of one kind only. -/
def Raises (E : ε → Prop) (m : Eff σ ε α) : Prop := ∀ s e s', m s = (.error e, s') → E e

variable {E : ε → Prop}

theorem raises_pure (a : α) : Raises E (pure a : Eff σ ε α) := fun _ _ _ h => nomatch h

theorem Raises.bind {m : Eff σ ε α} {f : α → Eff σ ε β} (hm : Raises E m)
    (hf : ∀ s a s', m s = (.ok a, s') → Raises E (f a)) : Raises E (m >>= f) := by
  intro s e s' h
  rcases bind_eq_error h with hstop | ⟨a, s₁, hmid, hrest⟩
  · exact hm s e s' hstop
  · exact hf s a s₁ hmid s₁ e s' hrest

/-- From the state `s` the computation returns as `Q` says or stops as `E` says. -/
def Ends (Q : α → σ → Prop) (E : ε → Prop) (m : Eff σ ε α) (s : σ) : Prop :=
  match m s with
  | (.ok a, s') => Q a s'
  | (.error e, _) => E e

theorem Ends.ok {Q : α → σ → Prop} {m : Eff σ ε α} {s s' : σ} {a : α} (h : Ends Q E m s) (hm : m s = (.ok a, s')) :
    Q a s' := by
  unfold Ends at h
  rwa [hm] at h

/-- Where no error is left, the computation returns. -/
theorem Ends.returns {Q : α → σ → Prop} {m : Eff σ ε α} {s : σ} (h : Ends Q E m s) (hE : ∀ e, ¬E e) :
    ∃ a s', m s = (.ok a, s') ∧ Q a s' := by
  unfold Ends at h
  rcases hm : m s with ⟨e | a, s'⟩
  · rw [hm] at h
    exact absurd h (hE e)
  · rw [hm] at h
    exact ⟨a, s', rfl, h⟩

theorem Ends.mono {Q Q' : α → σ → Prop} {E' : ε → Prop} {m : Eff σ ε α} {s : σ} (h : Ends Q E m s)
    (hQ : ∀ a s', Q a s' → Q' a s') (hE : ∀ e, E e → E' e) : Ends Q' E' m s := by
  unfold Ends at h ⊢
  rcases hm : m s with ⟨e | a, s'⟩
  · rw [hm] at h
    exact hE e h
  · rw [hm] at h
    exact hQ a s' h

theorem Ends.bind {Q : α → σ → Prop} {Q' : β → σ → Prop} {m : Eff σ ε α} {f : α → Eff σ ε β} {s : σ}
    (h : Ends Q E m s) (hf : ∀ a s', Q a s' → Ends Q' E (f a) s') : Ends Q' E (m >>= f) s := by
  unfold Ends at h
  rcases hm : m s with ⟨e | a, s'⟩
  · rw [hm] at h
    unfold Ends
    rw [bind_of_error hm]
    exact h
  · rw [hm] at h
    have hrest := hf a s' h
    unfold Ends at hrest ⊢
    rwa [bind_of_ok hm]

/-- A computation with more state does what another one does on the part of it that `π` keeps. -/
def Erases {τ : Type} (π : τ → σ) (m' : Eff τ ε α) (m : Eff σ ε α) : Prop := ∀ t, m (π t) = ((m' t).1, π (m' t).2)

section Ghost

variable {τ : Type} {π : τ → σ}

theorem erases_lift (e : Except ε α) : Erases π (lift e) (lift e) := fun _ => rfl

theorem Erases.bind {m' : Eff τ ε α} {m : Eff σ ε α} {f' : α → Eff τ ε β} {f : α → Eff σ ε β} (hm : Erases π m' m)
    (hf : ∀ a, Erases π (f' a) (f a)) : Erases π (m' >>= f') (m >>= f) := by
  intro t
  have hmid := hm t
  rcases ht : m' t with ⟨e | a, t'⟩
  · rw [ht] at hmid
    rw [bind_of_error ht, bind_of_error hmid]
  · rw [ht] at hmid
    rw [bind_of_ok ht, bind_of_ok hmid]
    exact hf a t'

end Ghost

end Eff

end UnixKernel
