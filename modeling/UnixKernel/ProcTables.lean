import Mathlib.Algebra.Order.Ring.Nat
import Mathlib.Data.Finset.Card
import Mathlib.Data.Finset.Range
import Mathlib.Data.Nat.Find
import Mathlib.Logic.Function.Basic
import Mathlib.Tactic.Common
import UnixKernel.Runs

/-! `PROCS`, `RQ` and `PID_RR` of `proc/mod.rs`. Every section under a lock is one step: `ProcTables::exec`
and the block of `exec_proc` hold `PROCS` throughout, `exit_proc` takes its pid out of `RQ` first and
removes the process in a section of its own. A process stays `Ready` when it starts, so nothing keeps a
second CPU from starting it again, before or during its exit. -/

namespace UnixKernel

open Runs

inductive ProcState where
  | ready
  | blocked
  | sleeping
  deriving DecidableEq

namespace ProcTables

/-- What the tables read of a `ProcCtrlBlk`; `kstack` names the `KernelStack` object it owns. -/
structure Proc where
  state : ProcState
  kstack : Nat
  deriving DecidableEq

/-- `PID_RR`, `PROCS` and `RQ`: processes by pid, pids by CPU. -/
structure Tables where
  pidRr : Nat
  procs : Nat → Option Proc
  rq : Nat → Option Nat

def Tables.new : Tables := ⟨1, fun _ => none, fun _ => none⟩

/-- The loop of `exec`, which leaves `PID_RR` at the pid it finds. The fuel counts numbers to try;
`none` stands for a loop that never ends. -/
def findPid (procs : Nat → Option Proc) : Nat → Nat → Option Nat
  | 0, _ => none
  | fuel + 1, pid =>
    if procs pid = none ∧ pid ≠ 0 then some pid else findPid procs fuel ((pid + 1) % 2 ^ 64)

/-- `ProcTables::exec` with the process that `ProcCtrlBlk::new` built. -/
def exec (t : Tables) (proc : Proc) : Option (Nat × Tables) :=
  (findPid t.procs (2 ^ 64) t.pidRr).map fun pid =>
    (pid, { t with pidRr := pid, procs := Function.update t.procs pid (some proc) })

/-- The locked block of `exec_proc`: its error, or the tables with the top of stack to go on with. -/
def execProc (t : Tables) (cpu pid : Nat) : Except String (Nat × Tables) :=
  match t.procs pid with
  | none => .error "No such process"
  | some proc =>
    if proc.state ≠ .ready then .error "Process not in ready state"
    else .ok (proc.kstack, { t with rq := Function.update t.rq cpu (some pid) })

/-- The first section of `exit_proc`: the pid that ran here, or 0. -/
def exitTake (t : Tables) (cpu : Nat) : Nat × Tables :=
  ((t.rq cpu).getD 0, { t with rq := Function.update t.rq cpu none })

/-- The second section of `exit_proc`. The control block is dropped, and its `KernelStack` with it. -/
def exitRemove (t : Tables) (pid : Nat) : Tables :=
  { t with procs := Function.update t.procs pid none }

theorem findPid_eq_some {procs : Nat → Option Proc} {fuel pid q : Nat}
    (h : findPid procs fuel pid = some q) : procs q = none ∧ q ≠ 0 := by
  induction fuel generalizing pid with
  | zero => simp [findPid] at h
  | succ fuel ih =>
    simp only [findPid] at h
    split at h
    · rename_i hfree
      obtain rfl := Option.some.inj h
      exact hfree
    · exact ih h

/-- The loop stops at the first free number of the round, with any fuel that takes it there. -/
theorem findPid_of_first {procs : Nat → Option Proc} {fuel pid k : Nat} (hpid : pid < 2 ^ 64)
    (htaken : ∀ j < k, ¬(procs ((pid + j) % 2 ^ 64) = none ∧ (pid + j) % 2 ^ 64 ≠ 0))
    (hfree : procs ((pid + k) % 2 ^ 64) = none ∧ (pid + k) % 2 ^ 64 ≠ 0) (hfuel : k < fuel) :
    findPid procs fuel pid = some ((pid + k) % 2 ^ 64) := by
  induction k generalizing pid fuel with
  | zero =>
    obtain ⟨fuel, rfl⟩ := Nat.exists_eq_succ_of_ne_zero (Nat.ne_of_gt hfuel)
    rw [Nat.add_zero, Nat.mod_eq_of_lt hpid] at hfree ⊢
    exact if_pos hfree
  | succ k ih =>
    obtain ⟨fuel, rfl⟩ := Nat.exists_eq_succ_of_ne_zero (Nat.ne_zero_of_lt hfuel)
    have hhere := htaken 0 (Nat.succ_pos k)
    rw [Nat.add_zero, Nat.mod_eq_of_lt hpid] at hhere
    -- the round goes on one number further
    have hshift : ∀ j, ((pid + 1) % 2 ^ 64 + j) % 2 ^ 64 = (pid + (j + 1)) % 2 ^ 64 := by
      intro j
      rw [Nat.mod_add_mod, Nat.add_right_comm, Nat.add_assoc]
    have hnext : findPid procs fuel ((pid + 1) % 2 ^ 64) = some (((pid + 1) % 2 ^ 64 + k) % 2 ^ 64) := by
      apply ih (Nat.mod_lt _ (by decide))
      · intro j hj
        rw [hshift]
        exact htaken (j + 1) (Nat.succ_lt_succ hj)
      · rw [hshift]
        exact hfree
      · exact Nat.lt_of_succ_lt_succ hfuel
    rw [hshift] at hnext
    exact (if_neg hhere).trans hnext

theorem exists_first {procs : Nat → Option Proc} {pid q : Nat} (hpid : pid < 2 ^ 64) (hq : q < 2 ^ 64)
    (hzero : q ≠ 0) (hfree : procs q = none) :
    ∃ k < 2 ^ 64, ∀ fuel, k < fuel → findPid procs fuel pid = some ((pid + k) % 2 ^ 64) := by
  have hround : (pid + (q + (2 ^ 64 - pid)) % 2 ^ 64) % 2 ^ 64 = q := by omega
  have hmet : ∃ k, procs ((pid + k) % 2 ^ 64) = none ∧ (pid + k) % 2 ^ 64 ≠ 0 := by
    refine ⟨(q + (2 ^ 64 - pid)) % 2 ^ 64, ?_⟩
    rw [hround]
    exact ⟨hfree, hzero⟩
  refine ⟨Nat.find hmet, ?_, fun fuel hfuel => ?_⟩
  · refine Nat.lt_of_le_of_lt (Nat.find_min' hmet ?_) (Nat.mod_lt (q + (2 ^ 64 - pid)) (by decide))
    rw [hround]
    exact ⟨hfree, hzero⟩
  · exact findPid_of_first hpid (fun j hj => Nat.find_min hmet hj) (Nat.find_spec hmet) hfuel

theorem exec_eq_some {t t' : Tables} {proc : Proc} {pid : Nat} (h : exec t proc = some (pid, t')) :
    t.procs pid = none ∧ t' = ⟨pid, Function.update t.procs pid (some proc), t.rq⟩ := by
  obtain ⟨q, hq, heq⟩ := Option.map_eq_some_iff.1 h
  obtain ⟨rfl, rfl⟩ := Prod.mk.inj heq
  exact ⟨(findPid_eq_some hq).1, rfl⟩

/-- The pids in the table. -/
def Tables.live (t : Tables) : Finset Nat := (Finset.range (2 ^ 64)).filter fun pid => t.procs pid ≠ none

theorem exists_free {t : Tables} (hroom : t.live.card < 2 ^ 64 - 1) :
    ∃ q < 2 ^ 64, q ≠ 0 ∧ t.procs q = none := by
  have hcard : t.live.card < ((Finset.range (2 ^ 64)).erase 0).card := by
    rw [Finset.card_erase_of_mem (Finset.mem_range.mpr (by decide)), Finset.card_range]
    exact hroom
  obtain ⟨q, hq, hnot⟩ := Finset.exists_mem_notMem_of_card_lt_card hcard
  obtain ⟨hzero, hlt⟩ := Finset.mem_erase.mp hq
  refine ⟨q, Finset.mem_range.mp hlt, hzero, ?_⟩
  by_contra htaken
  exact hnot (Finset.mem_filter.mpr ⟨hlt, htaken⟩)

/-- With a pid left the loop of `exec` ends within one round, at a pid that is not 0 and not in the table, and
the new process replaces nobody. -/
theorem exec_takes_free_pid {t : Tables} (hrr : t.pidRr < 2 ^ 64) (hroom : t.live.card < 2 ^ 64 - 1) (proc : Proc) :
    ∃ k < 2 ^ 64, ∃ pid t', pid = (t.pidRr + k) % 2 ^ 64 ∧
      (∀ fuel, k < fuel → findPid t.procs fuel t.pidRr = some pid) ∧ exec t proc = some (pid, t') ∧
      pid ≠ 0 ∧ t.procs pid = none ∧ t'.procs pid = some proc ∧ t'.pidRr = pid ∧
      ∀ q old, t.procs q = some old → t'.procs q = some old := by
  obtain ⟨q, hq, hzero, hfree⟩ := exists_free hroom
  obtain ⟨k, hk, hfind⟩ := exists_first hrr hq hzero hfree
  obtain ⟨hnone, hne⟩ := findPid_eq_some (hfind _ (Nat.lt_succ_self k))
  refine ⟨k, hk, (t.pidRr + k) % 2 ^ 64,
    ⟨(t.pidRr + k) % 2 ^ 64, Function.update t.procs ((t.pidRr + k) % 2 ^ 64) (some proc), t.rq⟩,
    rfl, hfind, ?_, hne, hnone, Function.update_self _ _ _, rfl, ?_⟩
  · rw [exec, hfind _ hk]
    rfl
  · intro q old hold
    have hother : q ≠ (t.pidRr + k) % 2 ^ 64 := by
      rintro rfl
      rw [hnone] at hold
      cases hold
    exact (Function.update_of_ne hother _ _).trans hold

/-- The counter at the last pid, which is taken like the first one. -/
def wrapping : Tables :=
  ⟨2 ^ 64 - 1, fun pid => if pid = 2 ^ 64 - 1 ∨ pid = 1 then some ⟨.ready, pid⟩ else none, fun _ => none⟩

theorem exec_takes_free_pid_wrapping : wrapping.live.card < 2 ^ 64 - 1 ∧
    ∃ t', exec wrapping ⟨.ready, 0⟩ = some (2, t') ∧ t'.procs 2 = some ⟨.ready, 0⟩ ∧
      t'.procs 1 = some ⟨.ready, 1⟩ := by
  have hlive : wrapping.live ⊆ {2 ^ 64 - 1, 1} := by
    intro pid hpid
    have htaken := (Finset.mem_filter.mp hpid).2
    by_contra hnot
    simp only [Finset.mem_insert, Finset.mem_singleton] at hnot
    exact htaken (if_neg hnot)
  have hroom : wrapping.live.card < 2 ^ 64 - 1 :=
    Nat.lt_of_le_of_lt ((Finset.card_le_card hlive).trans (Finset.card_insert_le _ _)) (by decide)
  obtain ⟨k, -, pid, t', -, hfind, hexec, -, -, hproc, -, hkept⟩ :=
    exec_takes_free_pid (t := wrapping) (by decide) hroom ⟨.ready, 0⟩
  have hpid : pid = 2 := by
    have hexec' : (exec wrapping ⟨.ready, 0⟩).map Prod.fst = some 2 := by decide +kernel
    rw [hexec] at hexec'
    exact Option.some.inj hexec'
  subst hpid
  exact ⟨hroom, t', hexec, hproc, hkept 1 _ rfl⟩

theorem execProc_eq_ok {t t' : Tables} {cpu pid kstk : Nat} :
    execProc t cpu pid = .ok (kstk, t') ↔
      t.procs pid = some ⟨.ready, kstk⟩ ∧ t' = { t with rq := Function.update t.rq cpu (some pid) } := by
  unfold execProc
  cases hproc : t.procs pid with
  | none => simp
  | some proc =>
    obtain ⟨state, kstack⟩ := proc
    by_cases hready : state = .ready
    · simp [hready, eq_comm]
    · simp [hready]

/-- The tables, and for each CPU inside `exit_proc` the pid it took out of `RQ`. -/
structure Machine where
  tables : Tables
  leaving : Nat → Option Nat

def Machine.boot : Machine := ⟨.new, fun _ => none⟩

inductive Call where
  | exec (kstack : Nat)
  | execProc (cpu pid : Nat)
  | exitTake (cpu : Nat)
  | exitRemove (cpu : Nat)

def step (m : Machine) : Call → Machine
  | .exec kstack => { m with tables := (exec m.tables ⟨.ready, kstack⟩).elim m.tables Prod.snd }
  | .execProc cpu pid =>
    match execProc m.tables cpu pid with
    | .error _ => m
    | .ok (_, t) => { m with tables := t }
  | .exitTake cpu =>
    let (pid, t) := exitTake m.tables cpu
    ⟨t, Function.update m.leaving cpu (some pid)⟩
  | .exitRemove cpu =>
    match m.leaving cpu with
    | none => m
    | some pid => ⟨exitRemove m.tables pid, Function.update m.leaving cpu none⟩

/-- A CPU inside `exit_proc` does its second section next. -/
def Possible (m : Machine) : Call → Prop
  | .exec _ => True
  | .execProc cpu _ => m.leaving cpu = none
  | .exitTake cpu => m.leaving cpu = none
  | .exitRemove cpu => m.leaving cpu ≠ none

instance (m : Machine) : (c : Call) → Decidable (Possible m c)
  | .exec _ => isTrue trivial
  | .execProc cpu _ => inferInstanceAs (Decidable (m.leaving cpu = none))
  | .exitTake cpu => inferInstanceAs (Decidable (m.leaving cpu = none))
  | .exitRemove cpu => inferInstanceAs (Decidable (m.leaving cpu ≠ none))

/-- Who runs exists, and runs once. -/
structure Consistent (t : Tables) : Prop where
  present : ∀ cpu pid, t.rq cpu = some pid → t.procs pid ≠ none
  once : ∀ cpu cpu' pid, t.rq cpu = some pid → t.rq cpu' = some pid → cpu = cpu'

/-- A ready process is started only where no other CPU runs it, and removed only when none does. -/
def Exclusive (m : Machine) : Call → Prop
  | .exec _ => True
  | .execProc cpu pid =>
    ∀ proc, m.tables.procs pid = some proc → proc.state = .ready →
      ∀ other, m.tables.rq other = some pid → other = cpu
  | .exitTake _ => True
  | .exitRemove cpu => ∀ pid, m.leaving cpu = some pid → ∀ other, m.tables.rq other ≠ some pid

theorem Consistent.exec {t t' : Tables} {proc : Proc} {pid : Nat} (h : Consistent t)
    (hexec : exec t proc = some (pid, t')) : Consistent t' := by
  obtain ⟨-, rfl⟩ := exec_eq_some hexec
  refine ⟨fun cpu q hq => ?_, h.once⟩
  by_cases heq : q = pid
  · simp [heq]
  · simp only [Function.update_of_ne heq]
    exact h.present cpu q hq

theorem Consistent.execProc {t : Tables} {cpu pid : Nat} (h : Consistent t)
    (hpid : t.procs pid ≠ none) (halone : ∀ other, t.rq other = some pid → other = cpu) :
    Consistent { t with rq := Function.update t.rq cpu (some pid) } := by
  -- an entry of the new queue is the one just written or an old one
  have hcases : ∀ c q, Function.update t.rq cpu (some pid) c = some q →
      c = cpu ∧ q = pid ∨ c ≠ cpu ∧ t.rq c = some q := by
    intro c q hq
    by_cases hc : c = cpu
    · subst hc
      rw [Function.update_self] at hq
      exact .inl ⟨rfl, (Option.some.inj hq).symm⟩
    · rw [Function.update_of_ne hc] at hq
      exact .inr ⟨hc, hq⟩
  constructor
  · intro c q hq
    obtain ⟨-, rfl⟩ | ⟨-, hold⟩ := hcases c q hq
    · exact hpid
    · exact h.present c q hold
  · intro c c' q hq hq'
    obtain ⟨rfl, rfl⟩ | ⟨hne, hold⟩ := hcases c q hq <;>
      obtain ⟨rfl, heq⟩ | ⟨hne', hold'⟩ := hcases c' q hq'
    · rfl
    · exact (halone c' hold').symm
    · subst heq
      exact halone c hold
    · exact h.once c c' q hold hold'

theorem Consistent.exitTake {t : Tables} (h : Consistent t) (cpu : Nat) :
    Consistent (exitTake t cpu).2 := by
  have hold : ∀ c q, Function.update t.rq cpu none c = some q → t.rq c = some q := by
    intro c q hq
    by_cases hc : c = cpu
    · simp [hc] at hq
    · rwa [Function.update_of_ne hc] at hq
  exact ⟨fun c q hq => h.present c q (hold c q hq),
    fun c c' q hq hq' => h.once c c' q (hold c q hq) (hold c' q hq')⟩

/-- A removal is harmless exactly when nobody runs the process. -/
theorem Consistent.exitRemove_iff {t : Tables} (h : Consistent t) (pid : Nat) :
    Consistent (exitRemove t pid) ↔ ∀ cpu, t.rq cpu ≠ some pid := by
  constructor
  · intro h' cpu hcpu
    exact h'.present cpu pid hcpu (by simp [exitRemove])
  · intro hnobody
    refine ⟨fun cpu q hq => ?_, h.once⟩
    have hne : q ≠ pid := by
      rintro rfl
      exact hnobody cpu hq
    simp only [exitRemove, Function.update_of_ne hne]
    exact h.present cpu q hq

theorem consistent_step {m : Machine} {c : Call} (h : Consistent m.tables) (hc : Exclusive m c) :
    Consistent (step m c).tables := by
  cases c with
  | exec kstack =>
    cases hexec : exec m.tables ⟨.ready, kstack⟩ with
    | none => simpa [step, hexec] using h
    | some r => simpa [step, hexec] using h.exec hexec
  | execProc cpu pid =>
    cases hexec : execProc m.tables cpu pid with
    | error e => simpa [step, hexec] using h
    | ok r =>
      obtain ⟨hproc, ht⟩ := execProc_eq_ok.1 hexec
      simp only [step, hexec, ht]
      exact h.execProc (by simp [hproc]) (hc _ hproc rfl)
  | exitTake cpu => exact h.exitTake cpu
  | exitRemove cpu =>
    cases hpid : m.leaving cpu with
    | none => simpa [step, hpid] using h
    | some pid =>
      simp only [step, hpid]
      exact (h.exitRemove_iff pid).2 (hc pid hpid)

theorem exclusive_of_consistent {m : Machine} {c : Call} (h : Consistent m.tables)
    (h' : Consistent (step m c).tables) : Exclusive m c := by
  cases c with
  | exec kstack => trivial
  | execProc cpu pid =>
    intro proc hproc hready other hother
    obtain ⟨state, kstk⟩ := proc
    obtain rfl : state = .ready := hready
    have hexec := @execProc_eq_ok m.tables _ cpu pid kstk |>.2 ⟨hproc, rfl⟩
    simp only [step, hexec] at h'
    by_contra hne
    have hother' : Function.update m.tables.rq cpu (some pid) other = some pid := by
      rwa [Function.update_of_ne hne]
    exact hne (h'.once other cpu pid hother' (Function.update_self ..))
  | exitTake cpu => trivial
  | exitRemove cpu =>
    intro pid hpid
    simp only [step, hpid] at h'
    exact (h.exitRemove_iff pid).1 h'

/-- Over every interleaving the tables agree throughout exactly when no ready process is started on a
CPU while another runs it, and none is removed while some CPU runs it. -/
theorem always_consistent_iff (calls : List Call) :
    Always step (fun m => Consistent m.tables) .boot calls ↔ Admits step Exclusive .boot calls := by
  have hboot : Consistent Machine.boot.tables :=
    ⟨by simp [Machine.boot, Tables.new], by simp [Machine.boot, Tables.new]⟩
  have hkeep : ∀ m c, Consistent m.tables → True → Exclusive m c → Consistent (step m c).tables :=
    fun _ _ h _ => consistent_step h
  have hneeds : ∀ m c, Consistent m.tables → True → Consistent (step m c).tables → Exclusive m c :=
    fun _ _ h _ => exclusive_of_consistent h
  exact always_iff_admits (fun _ => id) hkeep hneeds hboot (admits_of_forall (fun _ _ => trivial) _ _)

/-- Two CPUs start the one process, which is `Ready` both times. And a CPU starts it while another is
between the two sections of its exit, which then removes it from under the first. -/
theorem consistent_fails_twice :
    let twice := [Call.exec 0, .execProc 0 1, .execProc 1 1]
    let late := [Call.exec 0, .execProc 0 1, .exitTake 0, .execProc 1 1, .exitRemove 0]
    Admits step Possible .boot twice ∧ (run step .boot twice).tables.rq 0 = some 1 ∧
      (run step .boot twice).tables.rq 1 = some 1 ∧
      Admits step Possible .boot late ∧ (run step .boot late).tables.rq 1 = some 1 ∧
      (run step .boot late).tables.procs 1 = none := by
  decide +kernel

end ProcTables

end UnixKernel
