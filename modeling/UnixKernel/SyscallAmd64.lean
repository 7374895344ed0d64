import UnixKernel.TrapAmd64

/-! System calls on `amd64` from the instruction of the process to the return behind it, and the start of a process from
a frame. -/

namespace UnixKernel

namespace TrapAmd64

open ByteWords WordSlots AsmAmd64
open Kreq (ExcFrameAmd64)

/-! ### System calls -/

/-- `PerCpuData` behind the base that `swapgs` brings in: a word for the stack pointer of the process and the end of the
kernel's stack, where the frame has room. -/
structure PerCpu (s : Cpu) (base : Nat) : Prop where
  fits : s.kernelGsBase.toNat + 16 ≤ 2 ^ 64
  kernelRsp : readWord s.mem (s.kernelGsBase.toNat + 8) = BitVec.ofNat 64 (base + 8 * 56)
  align : base % 16 = 0
  lt : base + 8 * 56 < 2 ^ 64
  apart : s.kernelGsBase.toNat + 16 ≤ base ∨ base + 8 * 56 ≤ s.kernelGsBase.toNat

/-- The `STAR` register that `exc::init` writes. -/
def star : Word := (0x10 <<< 48) ||| (0x08 <<< 32)

/-- The words of the frame that the entry of a system call pushes; the processor has put the return address and the
flags into registers. -/
def syscallWords (s : Cpu) : List Word := [0x1b, s.gpr .rsp, s.gpr .r11, 0x23, s.gpr .rcx, 0, 0x80]

/-- The processor on the kernel's stack, with the bases exchanged and the stack pointer of the process put away. -/
def swapped (s : Cpu) (base : Nat) : Cpu :=
  { s.setGpr .rsp (BitVec.ofNat 64 (base + 8 * 56)) with
    gsBase := s.kernelGsBase
    kernelGsBase := s.gsBase
    mem := writeWord s.mem s.kernelGsBase.toNat (s.gpr .rsp) }

theorem swapped_rsp (s : Cpu) (base : Nat) : (swapped s base).gpr .rsp = BitVec.ofNat 64 (base + 8 * 56) := by
  show (s.setGpr .rsp _).gpr .rsp = _
  exact Cpu.setGpr_self

theorem swapped_of_ne {r : Gpr} (h : r ≠ .rsp) (s : Cpu) (base : Nat) : (swapped s base).gpr r = s.gpr r := by
  show (s.setGpr .rsp _).gpr r = _
  exact Cpu.setGpr_of_ne h

theorem run_swap {s : Cpu} {base : Nat} (h : PerCpu s base) :
    run [.swapgs, .storeGs 0 .rsp, .loadGs .rsp 8] s = some (swapped s base) := by
  have hzero : (s.kernelGsBase + BitVec.ofNat 64 0).toNat = s.kernelGsBase.toNat := by rw [BitVec.add_zero]
  have height : (s.kernelGsBase + BitVec.ofNat 64 8).toNat = s.kernelGsBase.toNat + 8 := by
    have := h.fits
    rw [BitVec.toNat_add, BitVec.toNat_ofNat, Nat.mod_eq_of_lt (by omega)]
  have hrsp : readWord (writeWord s.mem s.kernelGsBase.toNat (s.gpr .rsp)) (s.kernelGsBase.toNat + 8) =
      BitVec.ofNat 64 (base + 8 * 56) := by
    rw [readWord_writeWord_of_clear (Or.inr (Nat.le_refl _)), h.kernelRsp]
  simp only [run_cons, exec, Option.bind_some, run_nil, Cpu.gs, Cpu.word, Cpu.setWord, Cpu.setMem, hzero, height, hrsp]
  rfl

/-- The entry of a system call up to `call_handler!`. -/
theorem run_syscallEntry {s : Cpu} {base : Nat} (h : PerCpu s base) :
    run syscallEntry s = some ((syscallWords s).foldl Cpu.pushWord (swapped s base)) := by
  obtain ⟨u, hu⟩ : ∃ u, u = swapped s base := ⟨_, rfl⟩
  have hword : (u.pushWord 0x1b).word (u.gs 0) = s.gpr .rsp := by
    have hgs : u.gs 0 = s.kernelGsBase.toNat := by rw [hu, Cpu.gs, BitVec.add_zero]; rfl
    have hclear : Clear s.kernelGsBase.toNat (base + 8 * 55) := by
      have hapart := h.apart
      unfold Clear
      omega
    rw [hgs, hu, pushWord_slot (n := 55) (swapped_rsp s base) h.lt]
    exact (readWord_writeWord_of_clear hclear).trans readWord_writeWord
  have hcode : syscallEntry = [.swapgs, .storeGs 0 .rsp, .loadGs .rsp 8] ++
      [.pushImm 0x1b, .pushGs 0, .push .r11, .pushImm 0x23, .push .rcx, .pushImm 0, .pushImm 0x80] := rfl
  rw [hcode, run_append_of_run (run_swap h), ← hu]
  simp only [run_cons, exec, Option.bind_some, run_nil, syscallWords, List.foldl_cons, List.foldl_nil,
    Cpu.gs_pushWord, hword]
  have hne : Gpr.r11 ≠ .rsp ∧ Gpr.rcx ≠ .rsp := by decide
  rw [Cpu.gpr_pushWord_of_ne hne.1, Cpu.gpr_pushWord_of_ne hne.1, Cpu.gpr_pushWord_of_ne hne.2,
    Cpu.gpr_pushWord_of_ne hne.2, Cpu.gpr_pushWord_of_ne hne.2, Cpu.gpr_pushWord_of_ne hne.2, hu,
    swapped_of_ne hne.1, swapped_of_ne hne.2]

/-- What a system call returns to: the frame, with its return address and flags in the two registers that the
instruction takes them from. -/
theorem run_syscallExit {s : Cpu} {base : Nat} (hrsp : s.gpr .rsp = BitVec.ofNat 64 base) (halign : base % 16 = 0)
    (hlt : base + 8 * 56 < 2 ^ 64) (hok : MxcsrOk (frameAt s.mem base)) :
    run (restoreRegs ++ syscallExit) s = some
      { ((withRegs s (frameAt s.mem base)).setGpr .rcx (frameAt s.mem base).rip).setGpr
          .r11 (frameAt s.mem base).rflags with
        gsBase := s.kernelGsBase
        kernelGsBase := s.gsBase } := by
  have hadd : ∀ {t : Cpu} {n k : Nat}, t.gpr .rsp = BitVec.ofNat 64 (base + 8 * n) →
      exec t (.addImm .rsp (8 * k)) = some (t.setGpr .rsp (BitVec.ofNat 64 (base + 8 * (n + k)))) := by
    intro t n k ht
    rw [exec, ht, ← BitVec.ofNat_add, Nat.mul_add, Nat.add_assoc]
  have hne : Gpr.rsp ≠ .rcx ∧ Gpr.rsp ≠ .r11 := by decide
  rw [run_append_of_run (run_restoreRegs hrsp halign (by omega) hok), syscallExit,
    run_cons_of_exec (hadd (k := 2) Cpu.setGpr_self), Cpu.setGpr_setGpr,
    run_cons_of_exec (exec_pop (n := 51) Cpu.setGpr_self (by omega)), Cpu.setGpr_setGpr, Cpu.setGpr_comm hne.1,
    run_cons_of_exec (hadd (n := 52) (k := 1) Cpu.setGpr_self), Cpu.setGpr_setGpr,
    run_cons_of_exec (exec_pop (n := 53) Cpu.setGpr_self (by omega)), Cpu.setGpr_setGpr, Cpu.setGpr_comm hne.2,
    run_cons_of_exec (exec_pop (n := 54) Cpu.setGpr_self (by omega)), Cpu.setGpr_setGpr, Cpu.setGpr_setGpr]
  have hrip : slots s.mem base 51 = (frameAt s.mem base).rip := rfl
  have hrflags : slots s.mem base 53 = (frameAt s.mem base).rflags := rfl
  have hself : (((withRegs s (frameAt s.mem base)).setGpr .rcx (frameAt s.mem base).rip).setGpr .r11
      (frameAt s.mem base).rflags).gpr .rsp = slots s.mem base 54 := by
    rw [Cpu.setGpr_of_ne hne.2, Cpu.setGpr_of_ne hne.1]
    rfl
  simp only [Cpu.mem_setGpr, mem_withRegs, hrip, hrflags]
  rw [Cpu.setGpr_eq_self hself, run_cons_of_exec rfl, run_nil]
  generalize frameAt s.mem base = f
  rfl

/-- The way out of a system call resumes the context of the frame, except for the two registers, and for the flags that
it does not set. -/
theorem sysretq_restoreRegs {s : Cpu} {base : Nat} (hrsp : s.gpr .rsp = BitVec.ofNat 64 base) (halign : base % 16 = 0)
    (hlt : base + 8 * 56 < 2 ^ 64) (hok : MxcsrOk (frameAt s.mem base)) :
    ∃ s', run (restoreRegs ++ syscallExit) s = some s' ∧
      ctxtOfCpu (sysretq star s') =
        { ctxtOf (frameAt s.mem base) with
          gpr := Function.update (Function.update (gprOf (frameAt s.mem base)) .rcx (frameAt s.mem base).rip)
            .r11 (frameAt s.mem base).rflags
          cs := 0x23
          rflags := ((frameAt s.mem base).rflags &&& flagMask) ||| 2
          ss := 0x1b } ∧
      (sysretq star s').gsBase = s.kernelGsBase ∧ (sysretq star s').kernelGsBase = s.gsBase ∧
      (sysretq star s').mem = s.mem := by
  have hrun := run_syscallExit hrsp halign hlt hok
  obtain ⟨f, hf⟩ : ∃ f, f = frameAt s.mem base := ⟨_, rfl⟩
  rw [← hf] at hrun ⊢
  refine ⟨_, hrun, ?_, rfl, rfl, rfl⟩
  apply Ctxt.ext <;> rfl

theorem gprOf_rax (f : ExcFrameAmd64) (v : Word) : gprOf { f with rax := v } = Function.update (gprOf f) .rax v := by
  funext r
  cases r <;> rfl

/-- A system call of a process, from its `syscall` instruction to the return behind it: the handler is called with the
vector of system calls and the frame of the process; when the request returns `v` and the handler has left its frame in
place, the process goes on with `v` in `rax`, and of its other registers only the two that the instruction takes have
changed. -/
theorem syscall_round_trip (p : Profile) (cfg : RvmCfg) (m : Kreq.Space) (s : Cpu) (lstar : Word) {base : Nat}
    (h : PerCpu s base) : ∃ s₁, run (syscallEntry ++ saveRegs) (syscall star lstar 0x200 s) = some s₁ ∧
      s₁.gpr .rsi = BitVec.ofNat 64 base ∧
      ∀ v seen seen', Kreq.kernelRequestee p cfg m (s.gpr .rax) (s.gpr .rdi) (s.gpr .rsi) (s.gpr .rdx) (s.gpr .r10)
          (s.gpr .r8) (s.gpr .r9) seen = (.ok v, seen') →
        ∃ f, Kreq.excHandlerAmd64 p cfg m (s₁.gpr .rdi) (frameAt s₁.mem base) seen = (.ok f, seen') ∧
          ∀ s₂, s₂.gpr .rsp = s₁.gpr .rsp → s₂.gsBase = s₁.gsBase → s₂.kernelGsBase = s₁.kernelGsBase →
            frameAt s₂.mem base = f → ∃ s₃, run (restoreRegs ++ syscallExit) s₂ = some s₃ ∧
              ctxtOfCpu (sysretq star s₃) =
                ⟨Function.update (Function.update (Function.update s.gpr .rax v) .rcx s.rip) .r11 s.rflags,
                  s.xmm, s.mxcsr, s.rip, 0x23, (s.rflags &&& flagMask) ||| 2, 0x1b⟩ ∧
              (sysretq star s₃).gsBase = s.gsBase ∧ (sysretq star s₃).kernelGsBase = s.kernelGsBase ∧
              (sysretq star s₃).mem = s₂.mem := by
  obtain ⟨u, hu⟩ : ∃ u, u = syscall star lstar 0x200 s := ⟨_, rfl⟩
  have hpc : PerCpu u base := hu ▸ ⟨h.fits, h.kernelRsp, h.align, h.lt, h.apart⟩
  obtain ⟨t, ht⟩ : ∃ t : Cpu, t = ((swapped u base).setGpr .rsp (BitVec.ofNat 64 (base + 8 * 49))).setMem
    (put (swapped u base).mem base (pushed 49 (syscallWords u))) := ⟨_, rfl⟩
  have hrsp : t.gpr .rsp = BitVec.ofNat 64 (base + 8 * 49) := by rw [ht, Cpu.gpr_setMem, Cpu.setGpr_self]
  obtain ⟨s₁, hrun, hcalled⟩ := called_saveRegs hrsp h.align (by have := h.lt; omega)
  rw [ht, ← foldl_pushWord (n := 49) (swapped_rsp u base) h.lt, ← run_append_of_run (run_syscallEntry hpc), hu] at hrun
  have hslots : slots t.mem base = store (slots (swapped u base).mem base) (pushed 49 (syscallWords u)) := by
    rw [ht, Cpu.mem_setMem, slots_put]
  refine ⟨s₁, hrun, hcalled.rsi, fun v seen seen' hreq => ?_⟩
  have hrdi : s₁.gpr .rdi = 128 := by
    rw [hcalled.rdi, hslots]
    rfl
  have hgpr : ∀ {r : Gpr}, r ≠ .rsp → r ≠ .rcx → r ≠ .r11 → t.gpr r = s.gpr r := by
    intro r hrsp hrcx hr11
    rw [ht, Cpu.gpr_setMem, Cpu.setGpr_of_ne hrsp, swapped_of_ne hrsp, hu]
    exact (Function.update_of_ne hr11 _ _).trans (Function.update_of_ne hrcx _ _)
  refine ⟨{ frameAt s₁.mem base with rax := v }, ?_, fun s₂ hs₂ hgs hkgs hf => ?_⟩
  · have hreq' : Kreq.kernelRequestee p cfg m (frameAt s₁.mem base).rax (frameAt s₁.mem base).rdi
        (frameAt s₁.mem base).rsi (frameAt s₁.mem base).rdx (frameAt s₁.mem base).r10 (frameAt s₁.mem base).r8
        (frameAt s₁.mem base).r9 seen = (.ok v, seen') := by
      rw [hcalled.frame]
      simp only [trapFrame]
      rw [hgpr (by decide) (by decide) (by decide), hgpr (by decide) (by decide) (by decide),
        hgpr (by decide) (by decide) (by decide), hgpr (by decide) (by decide) (by decide),
        hgpr (by decide) (by decide) (by decide), hgpr (by decide) (by decide) (by decide),
        hgpr (by decide) (by decide) (by decide), hreq]
    rw [hrdi, Kreq.excHandlerAmd64, if_neg (by decide), if_pos rfl, Eff.bind_of_ok hreq']
    rfl
  · have hok : MxcsrOk (frameAt s₂.mem base) := by
      rw [hf, hcalled.frame]
      exact mxcsrOk_trapFrame t (slots t.mem base)
    obtain ⟨s₃, hrun₃, hctxt, hgsBase, hkernelGsBase, hmem⟩ :=
      sysretq_restoreRegs (hs₂.trans hcalled.rsp) h.align h.lt hok
    refine ⟨s₃, hrun₃, ?_, ?_, ?_, hmem⟩
    · have hframe := ctxtOf_trapFrame t (slots t.mem base)
      have hrip : slots t.mem base 51 = s.rip := by
        rw [hslots, hu]
        rfl
      have hrflags : slots t.mem base 53 = s.rflags := by
        rw [hslots, hu]
        rfl
      have hregs : Function.update t.gpr .rsp (slots t.mem base 54) =
          Function.update (Function.update s.gpr .rcx s.rip) .r11 s.rflags := by
        rw [hslots, ht, hu]
        funext r
        cases r <;> rfl
      have hgprs : gprOf (trapFrame t (slots t.mem base)) =
          Function.update (Function.update s.gpr .rcx s.rip) .r11 s.rflags := (congrArg Ctxt.gpr hframe).trans hregs
      rw [hctxt, hf, gprOf_rax, hcalled.frame, hgprs]
      apply Ctxt.ext
      · show Function.update (Function.update (Function.update (Function.update (Function.update s.gpr .rcx s.rip) .r11
          s.rflags) .rax v) .rcx (slots t.mem base 51)) .r11 (slots t.mem base 53) = _
        rw [hrip, hrflags]
        funext r
        cases r <;> rfl
      · exact (congrArg Ctxt.xmm hframe).trans (by rw [ht, hu]; rfl)
      · exact (congrArg Ctxt.mxcsr hframe).trans (by rw [ht, hu]; rfl)
      · exact hrip
      · rfl
      · exact congrArg (fun x => (x &&& flagMask) ||| 2) hrflags
      · rfl
    · rw [hgsBase, hkgs, hcalled.kernelGsBase, ht, hu]
      rfl
    · rw [hkernelGsBase, hgs, hcalled.gsBase, ht, hu]
      rfl

/-- A process that asks for the request `open` with an empty path. -/
def openingCpu : Cpu :=
  { faultingCpu with
    gpr := fun r => if r = .rax then 0x1000 else if r = .rdi then 0x2000 else 7
    mem := writeWord (fun _ => 0) 0x3008 0x8000 }

theorem syscall_round_trip_open : PerCpu openingCpu 0x7e40 ∧ ∃ s₁ s₂ s₃,
    run (syscallEntry ++ saveRegs) (syscall star 0xffff 0x200 openingCpu) = some s₁ ∧
    run (restoreRegs ++ syscallExit) s₂ = some s₃ ∧
    (ctxtOfCpu (sysretq star s₃)).gpr .rax = 0 ∧ (ctxtOfCpu (sysretq star s₃)).gpr .rbx = 7 ∧
    (ctxtOfCpu (sysretq star s₃)).rip = 0x400000 := by
  have hpc : PerCpu openingCpu 0x7e40 := ⟨by decide, readWord_writeWord, by decide, by decide, by decide⟩
  have hreq : Kreq.kernelRequestee .dev Glacier.amd64Cfg Kreq.opening (openingCpu.gpr .rax) (openingCpu.gpr .rdi)
      (openingCpu.gpr .rsi) (openingCpu.gpr .rdx) (openingCpu.gpr .r10) (openingCpu.gpr .r8) (openingCpu.gpr .r9)
      ⟨[], []⟩ = (.ok 0, ⟨[0x1000, 0x1001, 0x1002, 0x1003, 0x1004, 0x2000], []⟩) := by decide +kernel
  obtain ⟨s₁, hrun, -, hcall⟩ := syscall_round_trip .dev Glacier.amd64Cfg Kreq.opening openingCpu 0xffff hpc
  obtain ⟨f, -, hback⟩ := hcall 0 _ _ hreq
  obtain ⟨s₃, hrun₃, hctxt, -⟩ := hback (s₁.setMem (putFrame s₁.mem 0x7e40 f)) rfl rfl rfl (frameAt_putFrame _ _ f)
  refine ⟨hpc, s₁, _, s₃, hrun, hrun₃, ?_, ?_, ?_⟩
  all_goals
    rw [hctxt]
    rfl

/-! ### The start of a process -/

/-- `ExcFrame::new`. -/
def newFrame : ExcFrameAmd64 where
  xmm := Vector.replicate 16 0
  mxcsr := 0x1f80
  _0 := 0
  r15 := 0
  r14 := 0
  r13 := 0
  r12 := 0
  r11 := 0
  r10 := 0
  r9 := 0
  r8 := 0
  rbp := 0
  rdi := 0
  rsi := 0
  rdx := 0
  rcx := 0
  rbx := 0
  rax := 0
  vec := 0
  err := 0
  rip := 0
  cs := 0x23
  rflags := 0x202
  rsp := 0
  ss := 0x1b

def setPc (f : ExcFrameAmd64) (pc : Word) : ExcFrameAmd64 := { f with rip := pc }

def setSp (f : ExcFrameAmd64) (sp : Word) : ExcFrameAmd64 := { f with rsp := sp }

/-- The registers that `rstr_ctxt` loads in front of its pushes, with their slots. -/
def loadOrder : List (Gpr × Nat) :=
  [(.rax, 48), (.rbx, 47), (.rcx, 46), (.rdx, 45), (.rsi, 44), (.rdi, 43), (.rbp, 42), (.r8, 41),
   (.r9, 40), (.r10, 39), (.r11, 38), (.r12, 37), (.r13, 36)]

theorem rstrCtxt_eq (ctxt ksp : Gpr) : rstrCtxt ctxt ksp = .mov .r14 ksp :: .mov .r15 ctxt :: (loadVectors .r15 ++
    (loadOrder.map (fun t => .load t.1 ⟨.r15, 8 * t.2⟩) ++ .mov .rsp .r14 ::
      ([55, 54, 53, 52, 51].map (fun k => .pushMem ⟨.r15, 8 * k⟩) ++
        [.load .r14 ⟨.r15, 8 * 35⟩, .load .r15 ⟨.r15, 8 * 34⟩]))) := rfl

theorem setGprs_loadOrder (s : Cpu) (w : Nat → Word) (v : Word) :
    (((s.setGprs (loadOrder.map fun t => (t.1, w t.2))).setGpr .rsp v).setGpr .r14 (w 35)).setGpr .r15 (w 34) =
      { s with gpr := Function.update (gprOf (frameOf w)) .rsp v } := by
  have hgpr : Function.update (Function.update (Function.update
      (store s.gpr (loadOrder.map fun t => (t.1, w t.2))) .rsp v) .r14 (w 35)) .r15 (w 34) =
        Function.update (gprOf (frameOf w)) .rsp v := by
    funext r
    cases r <;> rfl
  unfold Cpu.setGprs Cpu.setGpr
  rw [hgpr]

/-- What `rstr_ctxt` does up to its `iretq`. The first instruction overwrites `r14`, so the operand for the frame must
not have been put there. -/
theorem run_rstrCtxt {s : Cpu} {ctxt ksp : Gpr} {a kbase : Nat} (hne : ctxt ≠ .r14)
    (hctxt : s.gpr ctxt = BitVec.ofNat 64 a) (hksp : s.gpr ksp = BitVec.ofNat 64 (kbase + 8 * 5))
    (halign : a % 16 = 0) (hlt : a + 8 * 56 < 2 ^ 64) (hklt : kbase + 8 * 5 < 2 ^ 64)
    (hapart : a + 8 * 56 ≤ kbase ∨ kbase + 8 * 5 ≤ a) (hok : MxcsrOk (frameAt s.mem a)) :
    run (rstrCtxt ctxt ksp) s = some (((withRegs s (frameAt s.mem a)).setGpr .rsp (BitVec.ofNat 64 kbase)).setMem
      (put s.mem kbase (pushed 0 ([55, 54, 53, 52, 51].map (slots s.mem a))))) := by
  obtain ⟨s₀, hs₀⟩ : ∃ s₀, s₀ = (s.setGpr .r14 (BitVec.ofNat 64 (kbase + 8 * 5))).setGpr .r15 (BitVec.ofNat 64 a) :=
    ⟨_, rfl⟩
  have hmovs : (s.setGpr .r14 (s.gpr ksp)).setGpr .r15 ((s.setGpr .r14 (s.gpr ksp)).gpr ctxt) = s₀ := by
    rw [Cpu.setGpr_of_ne hne, hctxt, hksp, hs₀]
  have hmem : s₀.mem = s.mem := by rw [hs₀, Cpu.mem_setGpr, Cpu.mem_setGpr]
  have h15 : s₀.gpr .r15 = BitVec.ofNat 64 a := by rw [hs₀, Cpu.setGpr_self]
  have hloads : ∀ t ∈ loadOrder, t.2 < 56 := by decide
  have hpushes : ∀ k ∈ [55, 54, 53, 52, 51], k < 56 := by decide
  obtain ⟨f, hf⟩ : ∃ f, f = frameAt s.mem a := ⟨_, rfl⟩
  obtain ⟨t, ht⟩ : ∃ t : Cpu, t = (withVectors s₀ f).setGprs (loadOrder.map fun t => (t.1, slots s.mem a t.2)) :=
      ⟨_, rfl⟩
  have ht14 : t.gpr .r14 = BitVec.ofNat 64 (kbase + 8 * 5) := by
    rw [ht, hs₀]
    rfl
  have ht15 : ∀ v m, ((t.setGpr .rsp v).setMem m).gpr .r15 = BitVec.ofNat 64 a := by
    intro v m
    rw [Cpu.gpr_setMem, Cpu.setGpr_of_ne (by decide), ht, hs₀]
    rfl
  have htmem : t.mem = s.mem := by
    rw [ht]
    exact hmem
  have hstack : run ([55, 54, 53, 52, 51].map fun k => .pushMem ⟨.r15, 8 * k⟩)
      (t.setGpr .rsp (BitVec.ofNat 64 (kbase + 8 * 5))) =
        some ((t.setGpr .rsp (BitVec.ofNat 64 kbase)).setMem
          (put s.mem kbase (pushed 0 ([55, 54, 53, 52, 51].map (slots s.mem a))))) := by
    have hrsp : (t.setGpr .rsp (BitVec.ofNat 64 (kbase + 8 * 5))).gpr .rsp =
        BitVec.ofNat 64 (kbase + 8 * (0 + [55, 54, 53, 52, 51].length)) := Cpu.setGpr_self
    rw [run_pushMems (by exact ht15 _ t.mem) (by decide) hrsp hklt
      (fun k hk => by have := hpushes k hk; omega)
      (fun k hk => by have := hpushes k hk; dsimp only [List.length]; omega),
      Cpu.setGpr_setGpr, Cpu.mem_setGpr, htmem]
    rfl
  have hword : ∀ k < 51, slots (put s.mem kbase (pushed 0 ([55, 54, 53, 52, 51].map (slots s.mem a)))) a k =
      slots s.mem a k := by
    intro k hk
    exact slots_put_apart (n := 5) (by simp [pushed]) (by omega)
  rw [rstrCtxt_eq, run_cons_of_exec rfl, run_cons_of_exec rfl, hmovs,
    run_append_of_run (run_loadVectors h15 halign (by omega) (by rwa [hmem])),
    run_append_of_run (run_loads (by exact h15) (by decide) fun t ht => by have := hloads t ht; omega),
    run_cons_of_exec rfl, mem_withVectors, hmem, ← hf, ← ht, ht14, run_append_of_run hstack]
  rw [run_cons_of_exec (exec_load (ht15 _ _) (by omega)), Cpu.mem_setMem, hword 35 (by decide),
    run_cons_of_exec (exec_load ((Cpu.setGpr_of_ne (by decide)).trans (ht15 _ _)) (by omega)), Cpu.mem_setGpr,
    Cpu.mem_setMem, hword 34 (by decide), run_nil, Cpu.setGpr_setMem, Cpu.setGpr_setMem, ht, setGprs_loadOrder]
  rw [hf, hs₀]
  unfold frameAt
  generalize frameOf (slots s.mem a) = f
  rfl

/-- The start of a process from a frame at `a`, through a kernel stack that ends at `kbase + 40`: the processor leaves
the kernel with the context of the frame, and has written only the five words of the stack that `iretq` takes. -/
theorem rstrCtxt_resumes {s : Cpu} {ctxt ksp : Gpr} {a kbase : Nat} (hne : ctxt ≠ .r14)
    (hctxt : s.gpr ctxt = BitVec.ofNat 64 a) (hksp : s.gpr ksp = BitVec.ofNat 64 (kbase + 8 * 5))
    (halign : a % 16 = 0) (hlt : a + 8 * 56 < 2 ^ 64) (hklt : kbase + 8 * 5 < 2 ^ 64)
    (hapart : a + 8 * 56 ≤ kbase ∨ kbase + 8 * 5 ≤ a) (hok : MxcsrOk (frameAt s.mem a)) :
    ∃ s', run (rstrCtxt ctxt ksp) s = some s' ∧ ctxtOfCpu (iretq s') = ctxtOf (frameAt s.mem a) ∧
      ∀ x, x < kbase ∨ kbase + 8 * 5 ≤ x → (iretq s').mem x = s.mem x := by
  refine ⟨_, run_rstrCtxt hne hctxt hksp halign hlt hklt hapart hok, ?_, ?_⟩
  · rw [ctxtOfCpu_iretq (n := 0) (by rw [Cpu.gpr_setMem, Cpu.setGpr_self]; rfl) (by omega), ctxtOf, ← update_gprOf_rsp,
      Cpu.mem_setMem, slots_put]
    rfl
  · intro x hx
    rw [mem_iretq, Cpu.mem_setMem]
    exact put_other (by simp [pushed]) hx

/-- The kernel about to start a process at `0x400000`. -/
def startingCpu : Cpu :=
  { faultingCpu with
    gpr := fun r => if r = .rdi then 0x1000 else 0x8000
    mem := putFrame (fun _ => 0) 0x1000 (setSp (setPc newFrame 0x400000) 0x7000) }

theorem rstrCtxt_resumes_start : ∃ s', run (rstrCtxt .rdi .rsi) startingCpu = some s' ∧
    ctxtOfCpu (iretq s') = ctxtOf (setSp (setPc newFrame 0x400000) 0x7000) := by
  have hframe : frameAt startingCpu.mem 0x1000 = setSp (setPc newFrame 0x400000) 0x7000 := frameAt_putFrame _ _ _
  obtain ⟨s', hrun, hctxt, -⟩ := @rstrCtxt_resumes startingCpu .rdi .rsi 0x1000 0x7fd8 (by decide) rfl rfl (by decide)
    (by decide) (by decide) (by decide) (by rw [hframe]; decide)
  exact ⟨s', hrun, hctxt.trans (congrArg ctxtOf hframe)⟩

end TrapAmd64

end UnixKernel
