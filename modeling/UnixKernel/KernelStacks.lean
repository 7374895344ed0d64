import UnixKernel.PhysBoot
import UnixKernel.ProcTables

/-! The kernel stacks the CPUs execute on while processes start, make system calls and exit (`exec_proc` and
`exit_proc` of `proc/mod.rs`, `rstr_ctxt`, `set_kstk`, `move_stack` and the exception entries of `arch`). On
aarch64 a system call runs on the stack that `rstr_ctxt` left in `tpidr_el1`, the `KernelStack` of the
process. On amd64 it runs on the CPU's own stack, because nothing but `exit_proc` calls `set_kstk`; only
the last instructions of `rstr_ctxt` use the process's. -/

namespace UnixKernel.KernelStacks

open Runs ProcTables

/-- The stack a CPU booted on, or the `KernelStack` object of that number. -/
inductive Stack where
  | boot
  | kernel (k : Nat)
  deriving DecidableEq

/-- Where a CPU is. -/
inductive Pc where
  /-- Kernel code outside of any process: the boot path and `schedule`. -/
  | kernel
  /-- `exec_proc` past its block, with `kstk_top` in hand. -/
  | starting (kstk : Nat)
  /-- `rstr_ctxt` with the stack registers loaded, up to its `iretq` or `eret`. -/
  | returning
  | user
  /-- A system call. -/
  | handling
  /-- `exit_proc` between its two sections, with `pid` in hand. -/
  | exiting (pid : Nat)
  /-- `exit_proc` past its sections. -/
  | exited
  deriving DecidableEq

/-- A CPU: the stack its kernel code runs on, and the one the next entry from user mode takes
(`kernel_rsp`, `tpidr_el1`). -/
structure Cpu where
  pc : Pc
  sp : Stack
  entrySp : Stack
  deriving DecidableEq

def Cpu.setKstk (c : Cpu) (s : Stack) : Cpu := { c with entrySp := s }

def Cpu.moveStack (c : Cpu) (s : Stack) : Cpu := { c with sp := s }

/-- `rstr_ctxt` up to its last instruction. amd64 moves onto the new stack to push its frame;
aarch64 stores it for the next exception and leaves on the CPU's own stack. -/
def Cpu.rstrCtxt (c : Cpu) (kstk : Nat) : Arch → Cpu
  | .amd64 => { c.moveStack (.kernel kstk) with pc := .returning }
  | .aarch64 => { (c.setKstk (.kernel kstk)).moveStack .boot with pc := .returning }

structure Machine where
  tables : Tables
  /-- How many `KernelStack`s were made so far, which numbers the next one. -/
  made : Nat
  cpus : Nat → Cpu

def Machine.boot : Machine := ⟨.new, 0, fun _ => ⟨.kernel, .boot, .boot⟩⟩

inductive Action where
  | exec
  | execProc (pid : Nat)
  | restore
  | enterUser
  | syscall
  | sysret
  | exitTake
  | exitRemove
  | leave
  deriving DecidableEq

/-- What the CPU does to the tables and to itself. Where it cannot do the action, nothing. -/
def act (arch : Arch) (cpu : Nat) (t : Tables) (made : Nat) (c : Cpu) : Action → Tables × Nat × Cpu
  | .exec =>
    match c.pc, exec t ⟨.ready, made⟩ with
    | .kernel, some (_, t') => (t', made + 1, c)
    | _, _ => (t, made, c)
  | .execProc pid =>
    match c.pc, execProc t cpu pid with
    | .kernel, .ok (kstk, t') => (t', made, { c with pc := .starting kstk })
    | _, _ => (t, made, c)
  | .restore =>
    match c.pc with
    | .starting kstk => (t, made, c.rstrCtxt kstk arch)
    | _ => (t, made, c)
  | .enterUser =>
    match c.pc with
    | .returning => (t, made, { c with pc := .user })
    | _ => (t, made, c)
  | .syscall =>
    match c.pc with
    | .user => (t, made, { c.moveStack c.entrySp with pc := .handling })
    | _ => (t, made, c)
  | .sysret =>
    match c.pc with
    | .handling => (t, made, { c with pc := .user })
    | _ => (t, made, c)
  | .exitTake =>
    match c.pc with
    | .handling => ((exitTake t cpu).2, made, { c with pc := .exiting (exitTake t cpu).1 })
    | _ => (t, made, c)
  | .exitRemove =>
    match c.pc with
    | .exiting pid => (exitRemove t pid, made, { c with pc := .exited })
    | _ => (t, made, c)
  | .leave =>
    match c.pc with
    | .exited => (t, made, { (c.setKstk .boot).moveStack .boot with pc := .kernel })
    | _ => (t, made, c)

structure Call where
  cpu : Nat
  action : Action
  deriving DecidableEq

def step (arch : Arch) (m : Machine) (call : Call) : Machine :=
  let r := act arch call.cpu m.tables m.made (m.cpus call.cpu) call.action
  ⟨r.1, r.2.1, Function.update m.cpus call.cpu r.2.2⟩

/-- The process with this pid owns the stack. -/
def Owns (t : Tables) (pid k : Nat) : Prop := ∃ proc, t.procs pid = some proc ∧ proc.kstack = k

/-- Some process in `PROCS` owns the stack. -/
def Live (t : Tables) (k : Nat) : Prop := ∃ pid, Owns t pid k

/-- The `KernelStack` the CPU executes on, if it executes kernel code on one. -/
def Cpu.executesOn (c : Cpu) (k : Nat) : Prop := c.pc ≠ .user ∧ c.sp = .kernel k

/-- Every `KernelStack` a CPU executes on is owned by a process in `PROCS`. -/
def Owned (m : Machine) : Prop := ∀ cpu k, (m.cpus cpu).executesOn k → Live m.tables k

/-- The calls that keep it so. On aarch64, every call but the removal in `exit_proc`. On amd64, a
return to a process that is still there, and a removal of a process no CPU is just returning to. -/
def Safe : Arch → Machine → Call → Prop
  | .aarch64, m, call => call.action = .exitRemove → ∀ pid, (m.cpus call.cpu).pc ≠ .exiting pid
  | .amd64, m, call =>
    (call.action = .restore → ∀ kstk, (m.cpus call.cpu).pc = .starting kstk → Live m.tables kstk) ∧
    (call.action = .exitRemove → ∀ pid, (m.cpus call.cpu).pc = .exiting pid →
      ∀ other k, (m.cpus other).executesOn k → ¬Owns m.tables pid k)

/-! ### What the calls do to ownership -/

/-- Every stack has one owner at most, and the numbers still to come none. -/
structure Numbered (t : Tables) (made : Nat) : Prop where
  lt : ∀ pid k, Owns t pid k → k < made
  unique : ∀ pid pid' k, Owns t pid k → Owns t pid' k → pid = pid'

theorem owns_exec {t t' : Tables} {made pid : Nat} (h : exec t ⟨.ready, made⟩ = some (pid, t'))
    {q k : Nat} : Owns t' q k ↔ q = pid ∧ k = made ∨ Owns t q k := by
  obtain ⟨hfree, rfl⟩ := exec_eq_some h
  unfold Owns
  by_cases hq : q = pid
  · subst hq
    simp [hfree, eq_comm]
  · simp [hq]

theorem Numbered.exec {t t' : Tables} {made pid : Nat} (hnum : Numbered t made)
    (h : exec t ⟨.ready, made⟩ = some (pid, t')) : Numbered t' (made + 1) := by
  constructor
  · intro q k hq
    obtain ⟨-, rfl⟩ | hold := (owns_exec h).1 hq
    · omega
    · have := hnum.lt q k hold
      omega
  · intro q q' k hq hq'
    obtain ⟨rfl, hk⟩ | hold := (owns_exec h).1 hq <;> obtain ⟨rfl, hk'⟩ | hold' := (owns_exec h).1 hq'
    · rfl
    · have := hnum.lt _ _ hold'
      omega
    · have := hnum.lt _ _ hold
      omega
    · exact hnum.unique _ _ _ hold hold'

theorem owns_exitRemove {t : Tables} {pid q k : Nat} :
    Owns (exitRemove t pid) q k ↔ q ≠ pid ∧ Owns t q k := by
  unfold Owns exitRemove
  by_cases hq : q = pid
  · simp [hq]
  · simp [hq]

theorem Numbered.not_live_exitRemove {t : Tables} {made pid k : Nat} (hnum : Numbered t made)
    (hown : Owns t pid k) : ¬Live (exitRemove t pid) k := by
  rintro ⟨q, hq⟩
  obtain ⟨hne, hold⟩ := owns_exitRemove.1 hq
  exact hne (hnum.unique q pid k hold hown)

theorem Numbered.exitRemove {t : Tables} {made : Nat} (hnum : Numbered t made) (pid : Nat) :
    Numbered (exitRemove t pid) made :=
  ⟨fun q k hq => hnum.lt q k (owns_exitRemove.1 hq).2,
    fun q q' k hq hq' => hnum.unique q q' k (owns_exitRemove.1 hq).2 (owns_exitRemove.1 hq').2⟩

theorem owns_execProc {t t' : Tables} {cpu pid kstk : Nat} (h : execProc t cpu pid = .ok (kstk, t')) :
    Owns t pid kstk ∧ t'.rq cpu = some pid ∧ t'.procs = t.procs ∧
      ∀ other, other ≠ cpu → t'.rq other = t.rq other := by
  obtain ⟨hproc, rfl⟩ := execProc_eq_ok.1 h
  exact ⟨⟨_, hproc, rfl⟩, by simp, rfl, fun other hne => by simp [Function.update_of_ne hne]⟩

theorem owns_congr {t t' : Tables} (h : t'.procs = t.procs) (pid k : Nat) :
    Owns t' pid k ↔ Owns t pid k := by
  unfold Owns
  rw [h]

theorem Numbered.congr {t t' : Tables} {made : Nat} (hnum : Numbered t made) (h : t'.procs = t.procs) :
    Numbered t' made :=
  ⟨fun q k hq => hnum.lt q k ((owns_congr h q k).1 hq), fun q q' k hq hq' =>
    hnum.unique q q' k ((owns_congr h q k).1 hq) ((owns_congr h q' k).1 hq')⟩

/-- What an action comes to: nothing, or its effect at the one place of the CPU's code where it can be done. -/
inductive Acts (arch : Arch) (cpu : Nat) (t : Tables) (made : Nat) (c : Cpu) : Action → Tables → Nat → Cpu → Prop
  | idle (a : Action) : Acts arch cpu t made c a t made c
  | exec {pid : Nat} {t' : Tables} (hpc : c.pc = .kernel) (hexec : exec t ⟨.ready, made⟩ = some (pid, t')) :
      Acts arch cpu t made c .exec t' (made + 1) c
  | execProc {pid kstk : Nat} {t' : Tables} (hpc : c.pc = .kernel) (hexec : execProc t cpu pid = .ok (kstk, t')) :
      Acts arch cpu t made c (.execProc pid) t' made { c with pc := .starting kstk }
  | restore {kstk : Nat} (hpc : c.pc = .starting kstk) :
      Acts arch cpu t made c .restore t made (c.rstrCtxt kstk arch)
  | enterUser (hpc : c.pc = .returning) : Acts arch cpu t made c .enterUser t made { c with pc := .user }
  | syscall (hpc : c.pc = .user) :
      Acts arch cpu t made c .syscall t made { c.moveStack c.entrySp with pc := .handling }
  | sysret (hpc : c.pc = .handling) : Acts arch cpu t made c .sysret t made { c with pc := .user }
  | exitTake (hpc : c.pc = .handling) : Acts arch cpu t made c .exitTake (exitTake t cpu).2 made
      { c with pc := .exiting (exitTake t cpu).1 }
  | exitRemove {pid : Nat} (hpc : c.pc = .exiting pid) :
      Acts arch cpu t made c .exitRemove (exitRemove t pid) made { c with pc := .exited }
  | leave (hpc : c.pc = .exited) :
      Acts arch cpu t made c .leave t made { (c.setKstk .boot).moveStack .boot with pc := .kernel }

theorem acts_act (arch : Arch) (cpu : Nat) (t : Tables) (made : Nat) (c : Cpu) (a : Action) :
    Acts arch cpu t made c a (act arch cpu t made c a).1 (act arch cpu t made c a).2.1
      (act arch cpu t made c a).2.2 := by
  cases a <;> simp only [act] <;> split <;> first | exact .idle _ | (constructor <;> assumption)

/-- The action for its effect on the tables: a process comes, or a CPU's entry in `RQ` changes, or a
process goes. -/
theorem Acts.tables {arch : Arch} {cpu made made' : Nat} {t t' : Tables} {c c' : Cpu} {a : Action}
    (h : Acts arch cpu t made c a t' made' c') (hnum : Numbered t made) :
    Numbered t' made' ∧ (∀ other, other ≠ cpu → t'.rq other = t.rq other) ∧
      ((∀ pid k, Owns t pid k → Owns t' pid k) ∨
        a = .exitRemove ∧ ∃ pid, c.pc = .exiting pid ∧ t' = ProcTables.exitRemove t pid) := by
  cases h with
  | exec _ hexec =>
      obtain ⟨-, hrq⟩ := exec_eq_some hexec
      exact ⟨hnum.exec hexec, fun other _ => by rw [hrq], .inl fun q k hq => (owns_exec hexec).2 (.inr hq)⟩
  | execProc _ hexec =>
      obtain ⟨-, -, hprocs, hrq⟩ := owns_execProc hexec
      exact ⟨hnum.congr hprocs, hrq, .inl fun q k => (owns_congr hprocs q k).2⟩
  | exitTake => exact ⟨hnum.congr rfl, fun other hne => Function.update_of_ne hne _ _, .inl fun q k => id⟩
  | @exitRemove pid hpc => exact ⟨hnum.exitRemove pid, fun _ _ => rfl, .inr ⟨rfl, pid, hpc, rfl⟩⟩
  | idle | restore | enterUser | syscall | sysret | leave => exact ⟨hnum, fun _ _ => rfl, .inl fun _ _ => id⟩

/-! ### aarch64: system calls on the stack of the process -/

/-- The CPU's process owns the stack its next exception goes to. -/
def Runs (t : Tables) (cpu : Nat) (c : Cpu) : Prop :=
  ∃ pid k, t.rq cpu = some pid ∧ c.entrySp = .kernel k ∧ Owns t pid k

/-- A CPU as long as no process was removed. -/
def Fits (t : Tables) (cpu : Nat) (c : Cpu) : Prop :=
  match c.pc with
  | .kernel => c.sp = .boot
  | .starting kstk => c.sp = .boot ∧ ∃ pid, t.rq cpu = some pid ∧ Owns t pid kstk
  | .returning => c.sp = .boot ∧ Runs t cpu c
  | .user => Runs t cpu c
  | .handling => c.sp = c.entrySp ∧ Runs t cpu c
  | .exiting pid => ∃ k, c.sp = .kernel k ∧ Owns t pid k
  | .exited => False

theorem Fits.mono {t t' : Tables} {cpu : Nat} {c : Cpu} (h : Fits t cpu c)
    (howns : ∀ pid k, Owns t pid k → Owns t' pid k) (hrq : t'.rq cpu = t.rq cpu) : Fits t' cpu c := by
  have hruns : Runs t cpu c → Runs t' cpu c := by
    rintro ⟨pid, k, hpid, hsp, hown⟩
    exact ⟨pid, k, hrq.trans hpid, hsp, howns pid k hown⟩
  unfold Fits at h ⊢
  split at h
  · exact h
  · obtain ⟨hsp, pid, hpid, hown⟩ := h
    exact ⟨hsp, pid, hrq.trans hpid, howns _ _ hown⟩
  · exact ⟨h.1, hruns h.2⟩
  · exact hruns h
  · exact ⟨h.1, hruns h.2⟩
  · obtain ⟨k, hsp, hown⟩ := h
    exact ⟨k, hsp, howns _ _ hown⟩
  · exact h

theorem Fits.live {t : Tables} {cpu : Nat} {c : Cpu} (h : Fits t cpu c) {k : Nat}
    (hk : c.executesOn k) : Live t k := by
  obtain ⟨hpc, hsp⟩ := hk
  unfold Fits at h
  split at h
  · simp [h] at hsp
  · simp [h.1] at hsp
  · simp [h.1] at hsp
  · contradiction
  · obtain ⟨heq, pid, k', -, hentry, hown⟩ := h
    rw [heq, hentry, Stack.kernel.injEq] at hsp
    exact ⟨pid, hsp ▸ hown⟩
  · obtain ⟨k', heq, hown⟩ := h
    rw [heq, Stack.kernel.injEq] at hsp
    exact ⟨_, hsp ▸ hown⟩
  · contradiction

/-- An action other than a removal keeps the CPU that does it in order. -/
theorem Fits.acts {t t' : Tables} {cpu made made' : Nat} {c c' : Cpu} {a : Action} (h : Fits t cpu c)
    (hacts : Acts .aarch64 cpu t made c a t' made' c') (ha : a = .exitRemove → ∀ pid, c.pc ≠ .exiting pid) :
    Fits t' cpu c' := by
  cases hacts with
  | idle => exact h
  | exec _ hexec =>
      apply h.mono
      · exact fun q k hq => (owns_exec hexec).2 (.inr hq)
      · rw [(exec_eq_some hexec).2]
  | @execProc pid kstk _ hpc hexec =>
      obtain ⟨hown, hrq, hprocs, -⟩ := owns_execProc hexec
      simp only [Fits, hpc] at h
      exact ⟨h, pid, hrq, (owns_congr hprocs _ _).2 hown⟩
  | @restore kstk hpc =>
      simp only [Fits, hpc] at h
      obtain ⟨-, pid, hrq, hown⟩ := h
      exact ⟨rfl, pid, kstk, hrq, rfl, hown⟩
  | enterUser hpc =>
      simp only [Fits, hpc] at h
      exact h.2
  | syscall hpc =>
      simp only [Fits, hpc] at h
      exact ⟨rfl, h⟩
  | sysret hpc =>
      simp only [Fits, hpc] at h
      exact h.2
  | exitTake hpc =>
      simp only [Fits, hpc] at h
      obtain ⟨hsp, pid, k, hrq, hentry, hown⟩ := h
      refine ⟨k, hsp.trans hentry, ?_⟩
      simpa [exitTake, hrq, Owns] using hown
  | @exitRemove pid hpc => exact absurd hpc (ha rfl pid)
  | leave hpc => simp [Fits, hpc] at h

/-- The state of an aarch64 machine as long as no process was removed. -/
structure Whole (m : Machine) : Prop where
  numbered : Numbered m.tables m.made
  fits : ∀ cpu, Fits m.tables cpu (m.cpus cpu)

theorem Whole.step {m : Machine} (h : Whole m) {call : Call} (hsafe : Safe .aarch64 m call) :
    Whole (step .aarch64 m call) := by
  have hacts := acts_act .aarch64 call.cpu m.tables m.made (m.cpus call.cpu) call.action
  obtain ⟨hnum, hrq, hkeep⟩ := hacts.tables h.numbered
  refine ⟨hnum, fun cpu => ?_⟩
  by_cases hcpu : cpu = call.cpu
  · subst hcpu
    simp only [KernelStacks.step, Function.update_self]
    exact (h.fits _).acts hacts hsafe
  · simp only [KernelStacks.step, Function.update_of_ne hcpu]
    apply (h.fits cpu).mono _ (hrq cpu hcpu)
    obtain hkeep | ⟨haction, pid, hpc, -⟩ := hkeep
    · exact hkeep
    · exact absurd hpc (hsafe haction pid)

/-- A removal takes the stack from under the CPU that does it. -/
theorem Whole.safe {m : Machine} (h : Whole m) {call : Call}
    (howned : Owned (KernelStacks.step .aarch64 m call)) : Safe .aarch64 m call := by
  intro haction pid hpc
  have hfits := h.fits call.cpu
  simp only [Fits, hpc] at hfits
  obtain ⟨k, hsp, hown⟩ := hfits
  apply h.numbered.not_live_exitRemove hown
  have hlive := howned call.cpu k
  simp only [KernelStacks.step, Function.update_self, haction, act, hpc] at hlive
  exact hlive ⟨by simp, hsp⟩

/-! ### amd64: system calls on the CPU's own stack -/

/-- A CPU of an amd64 machine that is safe so far: it is on a process's stack only at the end of
`rstr_ctxt`. -/
structure Transient (t : Tables) (c : Cpu) : Prop where
  entry : c.entrySp = .boot
  boot : c.pc ≠ .returning → c.pc ≠ .user → c.sp = .boot
  live : ∀ k, c.executesOn k → Live t k

theorem transient_boot {c : Cpu} (hentry : c.entrySp = .boot) (hsp : c.sp = .boot) (t : Tables) :
    Transient t c := by
  refine ⟨hentry, fun _ _ => hsp, ?_⟩
  rintro k ⟨-, hk⟩
  simp [hsp] at hk

theorem transient_user {c : Cpu} (hentry : c.entrySp = .boot) (hpc : c.pc = .user) (t : Tables) :
    Transient t c :=
  ⟨hentry, fun _ h => absurd hpc h, fun _ hk => absurd hpc hk.1⟩

theorem Transient.mono {t t' : Tables} {c : Cpu} (h : Transient t c)
    (hlive : ∀ k, c.executesOn k → Live t k → Live t' k) : Transient t' c :=
  ⟨h.entry, h.boot, fun k hk => hlive k hk (h.live k hk)⟩

theorem Transient.acts {t t' : Tables} {cpu made made' : Nat} {c c' : Cpu} {a : Action} (h : Transient t c)
    (hacts : Acts .amd64 cpu t made c a t' made' c')
    (ha : a = .restore → ∀ kstk, c.pc = .starting kstk → Live t kstk) : Transient t' c' := by
  cases hacts with
  | idle => exact h
  | exec _ hexec => exact h.mono fun k _ ⟨q, hq⟩ => ⟨q, (owns_exec hexec).2 (.inr hq)⟩
  | @restore kstk hpc =>
      refine ⟨h.entry, fun hne => absurd rfl hne, ?_⟩
      rintro k ⟨-, hk⟩
      obtain rfl := Stack.kernel.inj hk
      exact ha rfl _ hpc
  | syscall =>
      apply transient_boot
      · exact h.entry
      · exact h.entry
  | leave =>
      apply transient_boot
      · rfl
      · rfl
  | enterUser | sysret =>
      apply transient_user
      · exact h.entry
      · rfl
  | execProc hpc | exitTake hpc | exitRemove hpc =>
      apply transient_boot
      · exact h.entry
      · exact h.boot (by simp [hpc]) (by simp [hpc])

/-- The state of an amd64 machine that is safe so far. -/
structure Passing (m : Machine) : Prop where
  numbered : Numbered m.tables m.made
  transient : ∀ cpu, Transient m.tables (m.cpus cpu)

theorem Passing.step {m : Machine} (h : Passing m) {call : Call} (hsafe : Safe .amd64 m call) :
    Passing (step .amd64 m call) := by
  have hacts := acts_act .amd64 call.cpu m.tables m.made (m.cpus call.cpu) call.action
  obtain ⟨hnum, -, hkeep⟩ := hacts.tables h.numbered
  refine ⟨hnum, fun cpu => ?_⟩
  by_cases hcpu : cpu = call.cpu
  · subst hcpu
    simp only [KernelStacks.step, Function.update_self]
    exact (h.transient _).acts hacts hsafe.1
  · simp only [KernelStacks.step, Function.update_of_ne hcpu]
    apply (h.transient cpu).mono
    rintro k hk ⟨q, hq⟩
    obtain hkeep | ⟨haction, pid, hpc, heq⟩ := hkeep
    · exact ⟨q, hkeep q k hq⟩
    · -- the removed process is not the owner of a stack in use
      have hne : q ≠ pid := by
        rintro rfl
        exact hsafe.2 haction q hpc cpu k hk hq
      exact ⟨q, heq ▸ owns_exitRemove.2 ⟨hne, hq⟩⟩

theorem Passing.safe {m : Machine} (h : Passing m) {call : Call}
    (howned : Owned (KernelStacks.step .amd64 m call)) : Safe .amd64 m call := by
  constructor
  · intro haction kstk hpc
    have hlive := howned call.cpu kstk
    simp only [KernelStacks.step, Function.update_self, haction, act, hpc] at hlive
    exact hlive ⟨by simp [Cpu.rstrCtxt], rfl⟩
  · intro haction pid hpc other k hk hown
    apply h.numbered.not_live_exitRemove hown
    have hne : other ≠ call.cpu := by
      rintro rfl
      have hboot := (h.transient call.cpu).boot (by simp [hpc]) (by simp [hpc])
      simp [hk.2] at hboot
    have hlive := howned other k
    simp only [KernelStacks.step, Function.update_of_ne hne, haction, act, hpc] at hlive
    exact hlive hk

/-! ### Whole runs -/

theorem numbered_new : Numbered Tables.new 0 :=
  ⟨by simp [Owns, Tables.new], by simp [Owns, Tables.new]⟩

/-- Every stack in use is owned throughout exactly when, on aarch64, no `exit_proc` comes to its
removal, and, on amd64, no process is removed before or while a CPU returns to it on its stack. -/
theorem always_owned_iff (arch : Arch) (calls : List Call) :
    Always (step arch) Owned .boot calls ↔ Admits (step arch) (Safe arch) .boot calls := by
  cases arch with
  | amd64 =>
    have hboot : Passing .boot := ⟨numbered_new, fun _ => transient_boot rfl rfl _⟩
    have howned : ∀ m, Passing m → Owned m := fun _ h cpu => (h.transient cpu).live
    have hkeep : ∀ m c, Passing m → True → Safe .amd64 m c → Passing (step .amd64 m c) :=
      fun _ _ h _ => h.step
    have hneeds : ∀ m c, Passing m → True → Owned (step .amd64 m c) → Safe .amd64 m c :=
      fun _ _ h _ => h.safe
    exact always_iff_admits howned hkeep hneeds hboot (admits_of_forall (fun _ _ => trivial) _ _)
  | aarch64 =>
    have hboot : Whole .boot := ⟨numbered_new, fun _ => rfl⟩
    have howned : ∀ m, Whole m → Owned m := fun _ h cpu _ => (h.fits cpu).live
    have hkeep : ∀ m c, Whole m → True → Safe .aarch64 m c → Whole (step .aarch64 m c) :=
      fun _ _ h _ => h.step
    have hneeds : ∀ m c, Whole m → True → Owned (step .aarch64 m c) → Safe .aarch64 m c :=
      fun _ _ h _ => h.safe
    exact always_iff_admits howned hkeep hneeds hboot (admits_of_forall (fun _ _ => trivial) _ _)

theorem not_owned_of_empty {m : Machine} {cpu k : Nat} (hexec : (m.cpus cpu).executesOn k)
    (hprocs : ∀ pid, m.tables.procs pid = none) : ¬Owned m := by
  intro howned
  obtain ⟨pid, proc, hproc, -⟩ := howned cpu k hexec
  simp [hprocs] at hproc

/-- One process that starts, makes the system call `exit` and is removed. -/
def exitAlone : List Call :=
  [⟨0, .exec⟩, ⟨0, .execProc 1⟩, ⟨0, .restore⟩, ⟨0, .enterUser⟩, ⟨0, .syscall⟩, ⟨0, .exitTake⟩,
    ⟨0, .exitRemove⟩]

/-- Two CPUs start the one process, and it exits on the first while the second returns to it. -/
def exitShared : List Call :=
  [⟨0, .exec⟩, ⟨0, .execProc 1⟩, ⟨1, .execProc 1⟩, ⟨1, .restore⟩, ⟨0, .restore⟩, ⟨0, .enterUser⟩,
    ⟨0, .syscall⟩, ⟨0, .exitTake⟩, ⟨0, .exitRemove⟩]

/-- On aarch64 the CPU goes on in `exit_proc` on the stack that was dropped with the process. On amd64
the second CPU is left on a stack that is gone. -/
theorem owned_fails_exit :
    (run (step .aarch64) .boot exitAlone).cpus 0 = ⟨.exited, .kernel 0, .kernel 0⟩ ∧
      ¬Owned (run (step .aarch64) .boot exitAlone) ∧
      (run (step .amd64) .boot exitShared).cpus 1 = ⟨.returning, .kernel 0, .boot⟩ ∧
      ¬Owned (run (step .amd64) .boot exitShared) := by
  have halone : (run (step .aarch64) .boot exitAlone).cpus 0 = ⟨.exited, .kernel 0, .kernel 0⟩ := by
    decide +kernel
  have hshared : (run (step .amd64) .boot exitShared).cpus 1 = ⟨.returning, .kernel 0, .boot⟩ := by
    decide +kernel
  have hempty : Function.update (Function.update (fun _ => none) 1 (some ⟨.ready, 0⟩)) 1 none =
      fun _ : Nat => (none : Option Proc) := by
    rw [Function.update_idem, Function.update_eq_self_iff]
  have hon : ((run (step .aarch64) .boot exitAlone).cpus 0).executesOn 0 := by
    rw [halone]
    exact ⟨by decide, rfl⟩
  have hon' : ((run (step .amd64) .boot exitShared).cpus 1).executesOn 0 := by
    rw [hshared]
    exact ⟨by decide, rfl⟩
  exact ⟨halone, not_owned_of_empty hon (congrFun hempty), hshared,
    not_owned_of_empty hon' (congrFun hempty)⟩

end UnixKernel.KernelStacks
