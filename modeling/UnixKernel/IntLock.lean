import Mathlib.Data.BitVec
import Mathlib.Tactic.Common
import UnixKernel.Runs

/-! `IntLock` and `IntRwLock` (`ram/mutex.rs`) on one CPU. An acquisition saves whether interrupts are
enabled in its guard and disables them; the drop of the guard restores what was saved. Each guard does
this on its own, so the oldest guard is the only one that can hold an enabled flag, and the order in
which guards are dropped decides whether it comes back too early. -/

namespace UnixKernel

open Runs

/-- The register with the interrupt mask: `rflags` on amd64, `daif` on aarch64. -/
inductive Exc where
  | amd64 (rflags : BitVec 64)
  | aarch64 (daif : BitVec 64)
  deriving DecidableEq

namespace Exc

/-- The interrupt flag IF. -/
def flagIf : BitVec 64 := 1#64 <<< 9

/-- The four mask bits of `daif`. -/
def maskDaif : BitVec 64 := 0b1111#64 <<< 6

/-- `exc::get`: whether interrupts are enabled. -/
def get : Exc → Bool
  | amd64 rflags => rflags &&& flagIf != 0
  | aarch64 daif => daif &&& maskDaif == 0

/-- `exc::set`: `sti` and `cli`, `daifclr` and `daifset`. -/
def set : Exc → Bool → Exc
  | amd64 rflags, true => amd64 (rflags ||| flagIf)
  | amd64 rflags, false => amd64 (rflags &&& ~~~flagIf)
  | aarch64 daif, true => aarch64 (daif &&& ~~~maskDaif)
  | aarch64 daif, false => aarch64 (daif ||| maskDaif)

/-- The mask bits alone: IF, or the four bits of `daif`. -/
def mask : Exc → Exc
  | amd64 rflags => amd64 (rflags &&& flagIf)
  | aarch64 daif => aarch64 (daif &&& maskDaif)

/-- No interrupt is taken: IF is clear, or every kind is masked. -/
def Masked : Exc → Prop
  | amd64 rflags => rflags &&& flagIf = 0
  | aarch64 daif => daif &&& maskDaif = maskDaif

theorem or_and_self (x m : BitVec 64) : (x ||| m) &&& m = m := by
  ext i hi
  simp only [BitVec.getElem_and, BitVec.getElem_or]
  cases m[i] <;> simp

theorem and_not_and_self (x m : BitVec 64) : (x &&& ~~~m) &&& m = 0 := by
  ext i hi
  simp only [BitVec.getElem_and, BitVec.getElem_not]
  cases m[i] <;> simp

@[simp] theorem get_set (e : Exc) (b : Bool) : (e.set b).get = b := by
  cases e <;> cases b <;> simp only [set, get, or_and_self, and_not_and_self] <;> decide

@[simp] theorem mask_set_set (e : Exc) (b c : Bool) : ((e.set b).set c).mask = (e.set c).mask := by
  cases e <;> cases b <;> cases c <;> simp only [set, mask, or_and_self, and_not_and_self]

theorem mask_set_false {e : Exc} (h : e.Masked) : (e.set false).mask = e.mask := by
  cases e with
  | amd64 rflags => exact congrArg amd64 ((and_not_and_self rflags flagIf).trans (Eq.symm h))
  | aarch64 daif => exact congrArg aarch64 ((or_and_self daif maskDaif).trans (Eq.symm h))

theorem masked_set_false (e : Exc) : (e.set false).Masked := by
  cases e with
  | amd64 rflags => exact and_not_and_self rflags flagIf
  | aarch64 daif => exact or_and_self daif maskDaif

instance : (e : Exc) → Decidable e.Masked
  | amd64 rflags => inferInstanceAs (Decidable (rflags &&& flagIf = 0))
  | aarch64 daif => inferInstanceAs (Decidable (daif &&& maskDaif = maskDaif))

theorem and_flagIf (x : BitVec 64) : x &&& flagIf = 0 ∨ x &&& flagIf = flagIf := by
  have hflag : flagIf = BitVec.twoPow 64 9 := rfl
  rw [hflag, BitVec.and_twoPow]
  split
  · exact .inr rfl
  · exact .inl rfl

theorem mask_set_true {e : Exc} (h : e.get = true) : (e.set true).mask = e.mask := by
  cases e with
  | amd64 rflags =>
    have hne : rflags &&& flagIf ≠ 0 := bne_iff_ne.1 h
    have hset := (and_flagIf rflags).resolve_left hne
    exact congrArg amd64 ((or_and_self rflags flagIf).trans hset.symm)
  | aarch64 daif =>
    have hclear : daif &&& maskDaif = 0 := beq_iff_eq.1 h
    exact congrArg aarch64 ((and_not_and_self daif maskDaif).trans hclear.symm)

theorem masked_of_mask_eq {e e' : Exc} (h : e.mask = e'.mask) (hmasked : e.Masked) : e'.Masked := by
  cases e <;> cases e' <;> simp only [mask, amd64.injEq, aarch64.injEq, reduceCtorEq] at h
  · exact h.symm.trans hmasked
  · exact h.symm.trans hmasked

/-- A masked register reads as disabled. On aarch64 the converse fails: `get` also reads disabled
when only some of the four kinds are masked. -/
theorem get_of_masked {e : Exc} (h : e.Masked) : e.get = false := by
  cases e with
  | amd64 rflags =>
    rw [get, h]
    decide
  | aarch64 daif =>
    rw [get, h]
    decide

end Exc

namespace IntLock

/-- The three ways to acquire: `IntLock::lock`, `IntRwLock::read` and `IntRwLock::write`. -/
inductive Mode where
  | lock
  | read
  | write
  deriving DecidableEq

/-- A guard that is alive: the lock it holds, how, and the flag saved when it was made. -/
structure Guard (ι : Type) where
  lock : ι
  mode : Mode
  excFlag : Bool
  deriving DecidableEq

/-- A CPU with its live guards, the oldest first. -/
structure Cpu (ι : Type) where
  exc : Exc
  guards : List (Guard ι)
  deriving DecidableEq

/-- A CPU that holds no lock. -/
def Cpu.idle {ι : Type} (exc : Exc) : Cpu ι := ⟨exc, []⟩

inductive Event (ι : Type) where
  | lock (l : ι)
  | read (l : ι)
  | write (l : ι)
  | drop (i : Nat)
  deriving DecidableEq

variable {ι : Type}

/-- The body the three acquisitions share. -/
def acquire (mode : Mode) (s : Cpu ι) (l : ι) : Cpu ι :=
  let excFlag := s.exc.get
  { exc := s.exc.set false, guards := s.guards ++ [⟨l, mode, excFlag⟩] }

def lock (s : Cpu ι) (l : ι) : Cpu ι := acquire .lock s l
def read (s : Cpu ι) (l : ι) : Cpu ι := acquire .read s l
def write (s : Cpu ι) (l : ι) : Cpu ι := acquire .write s l

/-- `Drop` of the guard at position `i`: the lock is released, then the saved flag is restored. -/
def drop (s : Cpu ι) (i : Nat) : Cpu ι :=
  match s.guards[i]? with
  | none => s
  | some g => { exc := s.exc.set g.excFlag, guards := s.guards.eraseIdx i }

def step (s : Cpu ι) : Event ι → Cpu ι
  | .lock l => lock s l
  | .read l => read s l
  | .write l => write s l
  | .drop i => drop s i

/-- The lock can be taken next to the guards this CPU holds. Otherwise the acquisition waits for
itself and the run ends there. -/
def Free (mode : Mode) (s : Cpu ι) (l : ι) : Prop :=
  ∀ g ∈ s.guards, g.lock = l → mode = .read ∧ g.mode = .read

/-- Acquisitions that do not block, and drops of guards that exist. -/
def Possible (s : Cpu ι) : Event ι → Prop
  | .lock l => Free .lock s l
  | .read l => Free .read s l
  | .write l => Free .write s l
  | .drop i => i < s.guards.length

instance [DecidableEq ι] (mode : Mode) (s : Cpu ι) (l : ι) : Decidable (Free mode s l) :=
  inferInstanceAs (Decidable (∀ g ∈ s.guards, g.lock = l → mode = .read ∧ g.mode = .read))

instance [DecidableEq ι] (s : Cpu ι) : (e : Event ι) → Decidable (Possible s e)
  | .lock l => inferInstanceAs (Decidable (Free .lock s l))
  | .read l => inferInstanceAs (Decidable (Free .read s l))
  | .write l => inferInstanceAs (Decidable (Free .write s l))
  | .drop i => inferInstanceAs (Decidable (i < s.guards.length))

/-- Interrupts are off while a guard lives, and the mask bits are those of `before` when none does. -/
def Guarded (before : Exc) (s : Cpu ι) : Prop :=
  (s.guards ≠ [] → s.exc.Masked) ∧ (s.guards = [] → s.exc.mask = before.mask)

/-- The oldest guard is dropped only as the last one. -/
def OldestLast (s : Cpu ι) (e : Event ι) : Prop := e = .drop 0 → s.guards.length ≤ 1

/-- The last guard is not dropped. -/
def KeepsOne (s : Cpu ι) (e : Event ι) : Prop := e = .drop 0 → s.guards.length ≠ 1

/-- What a step does: a guard that saves the current flag joins at the end, or a guard goes and its
flag comes back, or there was no guard to drop. -/
theorem step_cases (s : Cpu ι) (e : Event ι) :
    (∃ l mode, step s e = ⟨s.exc.set false, s.guards ++ [⟨l, mode, s.exc.get⟩]⟩ ∧ ∀ i, e ≠ .drop i) ∨
      (∃ i g, e = .drop i ∧ s.guards[i]? = some g ∧
        step s e = ⟨s.exc.set g.excFlag, s.guards.eraseIdx i⟩) ∨
      ∃ i, e = .drop i ∧ s.guards.length ≤ i ∧ step s e = s := by
  cases e with
  | lock l => exact .inl ⟨l, .lock, rfl, by simp⟩
  | read l => exact .inl ⟨l, .read, rfl, by simp⟩
  | write l => exact .inl ⟨l, .write, rfl, by simp⟩
  | drop i =>
    cases hg : s.guards[i]? with
    | none => exact .inr (.inr ⟨i, rfl, List.getElem?_eq_none_iff.1 hg, by simp [step, drop, hg]⟩)
    | some g => exact .inr (.inl ⟨i, g, rfl, hg, by simp [step, drop, hg]⟩)

/-- Started with every kind masked: every saved flag is disabled, and the mask bits never change,
whatever the order of the drops. -/
structure Quiet (before : Exc) (s : Cpu ι) : Prop where
  saved : ∀ g ∈ s.guards, g.excFlag = false
  masked : s.exc.Masked
  mask : s.exc.mask = before.mask

theorem Quiet.step {before : Exc} {s : Cpu ι} (h : Quiet before s) (e : Event ι) :
    Quiet before (step s e) := by
  have hmask : (s.exc.set false).mask = before.mask := (Exc.mask_set_false h.masked).trans h.mask
  obtain ⟨l, mode, hstep, -⟩ | ⟨i, g, -, hg, hstep⟩ | ⟨i, -, -, hstep⟩ := step_cases s e <;> rw [hstep]
  · refine ⟨?_, Exc.masked_set_false _, hmask⟩
    simp only [List.mem_append, List.mem_singleton]
    rintro g (hg | rfl)
    · exact h.saved g hg
    · exact Exc.get_of_masked h.masked
  · have hflag : g.excFlag = false := h.saved g (List.mem_of_getElem? hg)
    rw [hflag]
    exact ⟨fun g' hg' => h.saved g' (List.mem_of_mem_eraseIdx hg'), Exc.masked_set_false _, hmask⟩
  · exact h

/-- Started enabled: the oldest guard alone holds the enabled flag. -/
structure Nested (before : Exc) (s : Cpu ι) : Prop where
  idle : s.guards = [] → s.exc.get = true
  restores : (s.exc.set true).mask = before.mask
  oldest : ∀ g gs, s.guards = g :: gs →
    s.exc.Masked ∧ g.excFlag = true ∧ ∀ g' ∈ gs, g'.excFlag = false

theorem Nested.guarded {before : Exc} {s : Cpu ι} (h : Nested before s) : Guarded before s := by
  refine ⟨fun hne => ?_, fun hnil => (Exc.mask_set_true (h.idle hnil)).symm.trans h.restores⟩
  obtain ⟨g, gs, hguards⟩ := List.exists_cons_of_ne_nil hne
  exact (h.oldest g gs hguards).1

theorem Nested.acquire {before : Exc} {s : Cpu ι} (h : Nested before s) (l : ι) (mode : Mode) :
    Nested before ⟨s.exc.set false, s.guards ++ [⟨l, mode, s.exc.get⟩]⟩ := by
  refine ⟨by simp, (Exc.mask_set_set _ _ _).trans h.restores,
    fun g gs hguards => ⟨Exc.masked_set_false _, ?_⟩⟩
  cases hs : s.guards with
  | nil =>
    simp only [hs, List.nil_append, List.cons.injEq] at hguards
    obtain ⟨rfl, rfl⟩ := hguards
    exact ⟨h.idle hs, by simp⟩
  | cons g₀ gs₀ =>
    simp only [hs, List.cons_append, List.cons.injEq] at hguards
    obtain ⟨rfl, rfl⟩ := hguards
    obtain ⟨hmasked, hflag, hyounger⟩ := h.oldest _ _ hs
    refine ⟨hflag, fun g' hg' => ?_⟩
    simp only [List.mem_append, List.mem_singleton] at hg'
    obtain hg' | rfl := hg'
    · exact hyounger g' hg'
    · exact Exc.get_of_masked hmasked

theorem Nested.dropYounger {before : Exc} {s : Cpu ι} (h : Nested before s) {i : Nat} {g : Guard ι}
    (hg : s.guards[i + 1]? = some g) :
    Nested before ⟨s.exc.set g.excFlag, s.guards.eraseIdx (i + 1)⟩ := by
  cases hs : s.guards with
  | nil => simp [hs] at hg
  | cons g₀ gs₀ =>
    obtain ⟨-, hflag, hyounger⟩ := h.oldest _ _ hs
    rw [hs, List.getElem?_cons_succ] at hg
    refine ⟨by simp, (Exc.mask_set_set _ _ _).trans h.restores, fun g' gs' hguards => ?_⟩
    simp only [List.eraseIdx_cons_succ, List.cons.injEq] at hguards
    obtain ⟨rfl, rfl⟩ := hguards
    rw [hyounger g (List.mem_of_getElem? hg)]
    exact ⟨Exc.masked_set_false _, hflag, fun g' hg' => hyounger g' (List.mem_of_mem_eraseIdx hg')⟩

/-- The drop of the oldest guard enables interrupts, so it is safe exactly when no other lives. -/
theorem Nested.dropOldest {before : Exc} {s : Cpu ι} (h : Nested before s) {g : Guard ι}
    (hg : s.guards[0]? = some g) :
    (s.guards.length ≤ 1 → Nested before ⟨s.exc.set g.excFlag, s.guards.eraseIdx 0⟩) ∧
      (Guarded before ⟨s.exc.set g.excFlag, s.guards.eraseIdx 0⟩ → s.guards.length ≤ 1) := by
  cases hs : s.guards with
  | nil => simp [hs] at hg
  | cons g₀ gs₀ =>
    obtain ⟨-, hflag, -⟩ := h.oldest _ _ hs
    simp only [hs, List.getElem?_cons_zero, Option.some.injEq] at hg
    subst hg
    simp only [hflag, List.eraseIdx_cons_zero, List.length_cons]
    constructor
    · intro hlen
      obtain rfl : gs₀ = [] := List.length_eq_zero_iff.1 (by omega)
      exact ⟨by simp, (Exc.mask_set_set _ _ _).trans h.restores, by simp⟩
    · intro hguarded
      by_contra hlen
      have hne : gs₀ ≠ [] := by
        rintro rfl
        simp at hlen
      simpa using Exc.get_of_masked (hguarded.1 hne)

theorem Nested.step {before : Exc} {s : Cpu ι} (h : Nested before s) {e : Event ι}
    (hlast : OldestLast s e) : Nested before (step s e) := by
  obtain ⟨l, mode, hstep, -⟩ | ⟨i, g, rfl, hg, hstep⟩ | ⟨i, -, -, hstep⟩ := step_cases s e <;> rw [hstep]
  · exact h.acquire l mode
  · cases i with
    | zero => exact (h.dropOldest hg).1 (hlast rfl)
    | succ i => exact h.dropYounger hg
  · exact h

theorem Nested.oldestLast {before : Exc} {s : Cpu ι} (h : Nested before s) {e : Event ι}
    (hguarded : Guarded before (IntLock.step s e)) : OldestLast s e := by
  rintro rfl
  obtain ⟨l, mode, -, hne⟩ | ⟨i, g, hi, hg, hstep⟩ | ⟨i, hi, hlen, -⟩ := step_cases s (.drop 0)
  · exact absurd rfl (hne 0)
  · obtain rfl := Event.drop.inj hi
    rw [hstep] at hguarded
    exact (h.dropOldest hg).2 hguarded
  · obtain rfl := Event.drop.inj hi
    omega

/-- Started with some kinds masked and others not: `get` reads disabled, so every guard saves
disabled and no drop opens the kinds that were open. -/
structure Closing (before : Exc) (s : Cpu ι) : Prop where
  saved : ∀ g ∈ s.guards, g.excFlag = false
  now : s.exc.get = false
  guarded : Guarded before s

/-- With one guard left to drop, the drop leaves every kind masked and no guard. -/
theorem Closing.step {before : Exc} (hopen : ¬before.Masked) {s : Cpu ι} (h : Closing before s)
    (e : Event ι) : (KeepsOne s e → Closing before (step s e)) ∧
      (Guarded before (step s e) → KeepsOne s e) := by
  obtain ⟨l, mode, hstep, hne⟩ | ⟨i, g, rfl, hg, hstep⟩ | ⟨i, rfl, hlen, hstep⟩ := step_cases s e <;>
    rw [hstep]
  · refine ⟨fun _ => ⟨?_, Exc.get_set _ _, fun _ => Exc.masked_set_false _, by simp⟩,
      fun _ he => absurd he (hne 0)⟩
    simp only [List.mem_append, List.mem_singleton]
    rintro g (hg | rfl)
    · exact h.saved g hg
    · exact h.now
  · have hi : i < s.guards.length := (List.getElem?_eq_some_iff.1 hg).1
    have hlen : (s.guards.eraseIdx i).length = s.guards.length - 1 := List.length_eraseIdx_of_lt hi
    rw [h.saved g (List.mem_of_getElem? hg)]
    constructor
    · intro hkeeps
      have hmore : s.guards.eraseIdx i ≠ [] := by
        intro hnil
        rw [hnil, List.length_nil] at hlen
        obtain rfl : i = 0 := by omega
        exact hkeeps rfl (by omega)
      exact ⟨fun g' hg' => h.saved g' (List.mem_of_mem_eraseIdx hg'), Exc.get_set _ _,
        fun _ => Exc.masked_set_false _, fun hnil => absurd hnil hmore⟩
    · intro hguarded _ hone
      have hnil : s.guards.eraseIdx i = [] := List.length_eq_zero_iff.1 (by omega)
      exact hopen (Exc.masked_of_mask_eq (hguarded.2 hnil) (Exc.masked_set_false _))
  · refine ⟨fun _ => h, fun _ he hone => ?_⟩
    obtain rfl := Event.drop.inj he
    omega

theorem quiet_idle {exc : Exc} (h : exc.Masked) : Quiet exc (Cpu.idle exc : Cpu ι) :=
  ⟨by simp [Cpu.idle], h, rfl⟩

theorem nested_idle {exc : Exc} (h : exc.get = true) : Nested exc (Cpu.idle exc : Cpu ι) :=
  ⟨fun _ => h, Exc.mask_set_true h, by simp [Cpu.idle]⟩

theorem closing_idle {exc : Exc} (h : exc.get = false) : Closing exc (Cpu.idle exc : Cpu ι) :=
  ⟨by simp [Cpu.idle], h, by simp [Cpu.idle], fun _ => rfl⟩

/-- Interrupts stay off while a guard lives and the mask bits come back to what they were afterwards,
exactly in three cases: every kind was masked at the start; or interrupts were enabled and the oldest
guard is never dropped before another one; or only some kinds were masked and a guard is always left. -/
theorem always_guarded_iff (exc : Exc) (events : List (Event ι)) :
    Always step (Guarded exc) (Cpu.idle exc) events ↔
      exc.Masked ∨ exc.get = true ∧ Admits step OldestLast (Cpu.idle exc) events ∨
        exc.get = false ∧ Admits step KeepsOne (Cpu.idle exc) events := by
  have hany : ∀ es, Admits step (fun _ _ => True) (Cpu.idle exc : Cpu ι) es :=
    admits_of_forall (fun _ _ => trivial) _
  by_cases hmasked : exc.Masked
  · refine iff_of_true (fun done _ => ?_) (.inl hmasked)
    have hkeep : ∀ (s : Cpu ι) e, Quiet exc s → True → Quiet exc (step s e) := fun _ e h _ => h.step e
    have hquiet := run_induction hkeep (quiet_idle hmasked) (hany done)
    exact ⟨fun _ => hquiet.masked, fun _ => hquiet.mask⟩
  cases hflag : exc.get with
  | false =>
    have hsafe : ∀ s : Cpu ι, Closing exc s → Guarded exc s := fun _ h => h.guarded
    have hkeep : ∀ (s : Cpu ι) e, Closing exc s → True → KeepsOne s e → Closing exc (step s e) :=
      fun _ e h _ => (h.step hmasked e).1
    have hneeds : ∀ (s : Cpu ι) e, Closing exc s → True → Guarded exc (step s e) → KeepsOne s e :=
      fun _ e h _ => (h.step hmasked e).2
    simpa [hmasked] using always_iff_admits hsafe hkeep hneeds (closing_idle hflag) (hany events)
  | true =>
    have hsafe : ∀ s : Cpu ι, Nested exc s → Guarded exc s := fun _ => Nested.guarded
    have hkeep : ∀ (s : Cpu ι) e, Nested exc s → True → OldestLast s e → Nested exc (step s e) :=
      fun _ _ h _ => h.step
    have hneeds : ∀ (s : Cpu ι) e, Nested exc s → True → Guarded exc (step s e) → OldestLast s e :=
      fun _ _ h _ => h.oldestLast
    simpa [hmasked] using always_iff_admits hsafe hkeep hneeds (nested_idle hflag) (hany events)

/-- Two locks taken with interrupts enabled and dropped in the order they were taken: interrupts are
enabled while the second lock is held, and disabled once both are free. -/
theorem guarded_fails_crossed :
    let start : Cpu Bool := .idle (.amd64 0x202)
    let crossed := run step start [.lock false, .lock true, .drop 0]
    let done := run step start [.lock false, .lock true, .drop 0, .drop 0]
    Admits step Possible start [.lock false, .lock true, .drop 0, .drop 0] ∧ start.exc.get = true ∧
      crossed.guards = [⟨true, .lock, false⟩] ∧ crossed.exc.get = true ∧ ¬crossed.exc.Masked ∧
      done.guards = [] ∧ done.exc.get = false := by
  decide

-- With only debug exceptions masked, one lock and its drop leave all four kinds masked.
example : (run step (.idle (.aarch64 0x200) : Cpu Bool) [.lock false, .drop 0]).exc.mask =
    .aarch64 0x3c0 := by
  decide

end IntLock

end UnixKernel
