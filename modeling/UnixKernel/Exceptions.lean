import UnixKernel.KernelRequest

/-! The two exception handlers. An exception saves the registers in a frame on the kernel's stack, the handler works
on the frame, and the registers are restored from it. A system call takes the request and its arguments from the
frame and is to leave the answer there. On `amd64` the handler has the frame by reference. On `aarch64` it names it by
the macro `ref_frame!`, a block with the frame as its value: every use makes a copy, so the answer is written to a
copy and the process gets its request pointer back. -/

namespace UnixKernel

namespace Kreq

/-- `ExcFrame` of `amd64`. -/
structure ExcFrameAmd64 where
  xmm : Vector (BitVec 128) 16
  mxcsr : Word
  _0 : Word
  r15 : Word
  r14 : Word
  r13 : Word
  r12 : Word
  r11 : Word
  r10 : Word
  r9 : Word
  r8 : Word
  rbp : Word
  rdi : Word
  rsi : Word
  rdx : Word
  rcx : Word
  rbx : Word
  rax : Word
  vec : Word
  err : Word
  rip : Word
  cs : Word
  rflags : Word
  rsp : Word
  ss : Word
  deriving DecidableEq

/-- `ExcFrame` of `aarch64`. -/
structure ExcFrameAarch64 where
  x : Vector Word 32
  elr : Word
  spsr : Word
  esr : Word
  far : Word
  q : Vector (BitVec 128) 32
  fpcr : Word
  fpsr : Word
  deriving DecidableEq

variable (p : Profile) (cfg : RvmCfg) (m : Space)

/-- `exc_handler` of `amd64`: the frame as it is restored. -/
def excHandlerAmd64 (excType : Word) (frame : ExcFrameAmd64) : Eff Seen Stop ExcFrameAmd64 :=
  if excType = 32 then pure frame
  else if excType = 128 then do
    let rax ← kernelRequestee p cfg m frame.rax frame.rdi frame.rsi frame.rdx frame.r10 frame.r8 frame.r9
    pure { frame with rax := rax }
  else Eff.lift (.error .panic)

/-- The test of the `aarch64` handler for a supervisor call. -/
def ExcFrameAarch64.isSvc (frame : ExcFrameAarch64) : Bool := (frame.esr >>> 26) &&& 0x3f == 0x15

/-- `exc_handler` of `aarch64`: the frame as it is restored. -/
def excHandlerAarch64 (excType : Word) (frame : ExcFrameAarch64) : Eff Seen Stop ExcFrameAarch64 :=
  if excType = 1 || excType = 9 || excType = 13 then pure frame
  else if excType = 8 || excType = 12 then
    if frame.isSvc then do
      let x0 ← kernelRequestee p cfg m frame.x[0] frame.x[1] frame.x[2] frame.x[3] frame.x[4] frame.x[5] frame.x[6]
      -- the assignment goes to the copy that `ref_frame!()` makes, which is dropped
      let _copy := { frame with x := frame.x.set 0 x0 }
      pure frame
    else Eff.lift (.error .panic)
  else Eff.lift (.error .panic)

/-! ### Both handlers -/

/-- A saved frame. -/
inductive ExcFrame where
  | amd64 (frame : ExcFrameAmd64)
  | aarch64 (frame : ExcFrameAarch64)
  deriving DecidableEq

namespace ExcFrame

def excHandler (excType : Word) : ExcFrame → Eff Seen Stop ExcFrame
  | amd64 frame => do
      let frame ← excHandlerAmd64 p cfg m excType frame
      pure (amd64 frame)
  | aarch64 frame => do
      let frame ← excHandlerAarch64 p cfg m excType frame
      pure (aarch64 frame)

/-- The exception is a system call. -/
def AtSyscall (excType : Word) : ExcFrame → Prop
  | amd64 _ => excType = 128
  | aarch64 frame => (excType = 8 ∨ excType = 12) ∧ frame.isSvc

/-- The request that the registers of the frame make. -/
def request : ExcFrame → Eff Seen Stop Word
  | amd64 f => kernelRequestee p cfg m f.rax f.rdi f.rsi f.rdx f.r10 f.r8 f.r9
  | aarch64 f => kernelRequestee p cfg m f.x[0] f.x[1] f.x[2] f.x[3] f.x[4] f.x[5] f.x[6]

/-- The frame with the answer in the register for it. -/
def withResult (v : Word) : ExcFrame → ExcFrame
  | amd64 frame => amd64 { frame with rax := v }
  | aarch64 frame => aarch64 { frame with x := frame.x.set 0 v }

variable {p cfg m}

theorem request_eq_zero {f : ExcFrame} {v : Word} {s s' : Seen} (h : f.request p cfg m s = (.ok v, s')) : v = 0 := by
  cases f <;> rw [request] at h <;> exact eq_zero_of_kernelRequestee h

/-- What is restored after an answer `v`. -/
def restored (v : Word) : ExcFrame → ExcFrame
  | amd64 frame => (amd64 frame).withResult v
  | aarch64 frame => aarch64 frame

/-- At a system call the handler is the request, followed by what becomes of the answer. -/
theorem excHandler_of_atSyscall {t : Word} {f : ExcFrame} (h : f.AtSyscall t) :
    f.excHandler p cfg m t = (do
      let v ← f.request p cfg m
      pure (f.restored v)) := by
  cases f with
  | amd64 f =>
      obtain rfl : t = 128 := h
      rw [excHandler, excHandlerAmd64, if_neg (by decide), if_pos rfl, Eff.bind_assoc]
      rfl
  | aarch64 f =>
      obtain ⟨ht, hsvc⟩ := h
      have hirq : ¬(decide (t = 1) || decide (t = 9) || decide (t = 13)) = true := by
        rcases ht with rfl | rfl <;> decide
      have hsync : (decide (t = 8) || decide (t = 12)) = true := by
        rcases ht with rfl | rfl <;> decide
      rw [excHandler, excHandlerAarch64, if_neg hirq, if_pos hsync, if_pos hsvc, Eff.bind_assoc]
      rfl

theorem withResult_eq_self {f : ExcFrameAarch64} {v : Word} :
    (aarch64 f).withResult v = aarch64 f ↔ f.x[0] = v := by
  constructor
  · intro h
    rw [withResult, aarch64.injEq] at h
    have hx := congrArg (fun g : ExcFrameAarch64 => g.x[0]) h
    simp only [Vector.getElem_set_self] at hx
    exact hx.symm
  · rintro rfl
    rw [withResult, Vector.set_getElem_self]

/-- After a system call that returns, the restored frame is the saved one with the answer in its register exactly if
the processor is an `amd64`, or the register held zero, the only answer there is. A request that does not return
keeps the handler from returning. -/
theorem excHandler_result {t : Word} {f : ExcFrame} (h : f.AtSyscall t) (s : Seen) :
    (∀ v s', f.request p cfg m s = (.ok v, s') →
      (f.excHandler p cfg m t s = (.ok (f.withResult v), s') ↔ ∀ g, f = aarch64 g → g.x[0] = 0)) ∧
    ∀ e s', f.request p cfg m s = (.error e, s') → f.excHandler p cfg m t s = (.error e, s') := by
  rw [excHandler_of_atSyscall h]
  refine ⟨fun v s' hreq => ?_, fun e s' hreq => Eff.bind_of_error hreq⟩
  rw [Eff.bind_of_ok hreq, request_eq_zero hreq]
  cases f with
  | amd64 f => exact iff_of_true rfl nofun
  | aarch64 f =>
      have hsame : ((Except.ok (aarch64 f), s') : Except Stop ExcFrame × Seen) = (.ok ((aarch64 f).withResult 0), s') ↔
          (aarch64 f).withResult 0 = aarch64 f := by
        rw [Prod.mk.injEq, Except.ok.injEq, and_iff_left rfl, eq_comm]
      refine hsame.trans (withResult_eq_self.trans ⟨fun h g hg => ?_, fun h => h f rfl⟩)
      cases hg
      exact h

/-- A process on an `amd64` that asks for the request `open` with an empty path. -/
def openAmd64 : ExcFrameAmd64 where
  xmm := Vector.replicate 16 0
  mxcsr := 0x1f80
  _0 := 0
  r15 := 0
  r14 := 0
  r13 := 0
  r12 := 0
  r11 := 0
  r10 := 0
  r9 := 0
  r8 := 0
  rbp := 0
  rdi := 0x2000
  rsi := 0
  rdx := 0
  rcx := 0
  rbx := 0
  rax := 0x1000
  vec := 128
  err := 0
  rip := 0x400000
  cs := 0x23
  rflags := 0x202
  rsp := 0x7000
  ss := 0x1b

theorem excHandler_result_openAmd64 : (amd64 openAmd64).excHandler .dev Glacier.amd64Cfg opening 128 ⟨[], []⟩ =
    (.ok (amd64 { openAmd64 with rax := 0 }), ⟨[0x1000, 0x1001, 0x1002, 0x1003, 0x1004, 0x2000], []⟩) := by
  have hreq : (amd64 openAmd64).request .dev Glacier.amd64Cfg opening ⟨[], []⟩ =
      (.ok 0, ⟨[0x1000, 0x1001, 0x1002, 0x1003, 0x1004, 0x2000], []⟩) := by decide +kernel
  exact ((excHandler_result (f := amd64 openAmd64) rfl ⟨[], []⟩).1 0 _ hreq).mpr nofun

/-- The same process on an `aarch64`. -/
def openAarch64 : ExcFrameAarch64 where
  x := ((Vector.replicate 32 0).set 0 0x1000).set 1 0x2000
  elr := 0x400000
  spsr := 0
  esr := 0x56000000
  far := 0
  q := Vector.replicate 32 0
  fpcr := 0
  fpsr := 0

/-- The request returns zero, and the process finds its request pointer in the register. -/
theorem excHandler_drops_result : (aarch64 openAarch64).AtSyscall 8 ∧
    (aarch64 openAarch64).request .dev Glacier.amd64Cfg opening ⟨[], []⟩ =
      (.ok 0, ⟨[0x1000, 0x1001, 0x1002, 0x1003, 0x1004, 0x2000], []⟩) ∧
    (aarch64 openAarch64).excHandler .dev Glacier.amd64Cfg opening 8 ⟨[], []⟩ =
      (.ok (aarch64 openAarch64), ⟨[0x1000, 0x1001, 0x1002, 0x1003, 0x1004, 0x2000], []⟩) ∧
    openAarch64.x[0] = 0x1000 :=
  ⟨⟨Or.inl rfl, by decide⟩, by decide +kernel, by decide +kernel, by decide⟩

end ExcFrame

end Kreq

end UnixKernel
