import UnixKernel.AsmAmd64
import UnixKernel.Exceptions

/-! The assembly around the exception handler of `amd64`: the stubs of the interrupt vectors, the entry of a system
call, the macro `call_handler!` that both share, and `rstr_ctxt`, which starts a process from a saved frame. The
handler works on an `ExcFrame` in memory; the code builds it from the registers and restores the registers from it. -/

namespace UnixKernel

namespace TrapAmd64

open ByteWords WordSlots AsmAmd64
open Kreq (ExcFrameAmd64)

/-! ### The code -/

/-- `isr_nonerr!`, which pushes the error code that the processor does not. -/
def isrNonerr (n : Nat) : List Instr := [.pushImm 0, .pushImm (BitVec.ofNat 64 n)]

/-- `isr_err!`. -/
def isrErr (n : Nat) : List Instr := [.pushImm (BitVec.ofNat 64 n)]

/-- The stub of a vector. -/
def isrStub (n : Nat) : List Instr :=
  if n ∈ [8, 10, 11, 12, 13, 14, 17, 21, 29, 30] then isrErr n else isrNonerr n

/-- `call_handler!` up to the call. -/
def saveRegs : List Instr :=
  [.push .rax, .push .rbx, .push .rcx, .push .rdx,
   .push .rsi, .push .rdi, .push .rbp,
   .push .r8, .push .r9, .push .r10, .push .r11,
   .push .r12, .push .r13, .push .r14, .push .r15,
   .subImm .rsp 272,
   .storeXmm ⟨.rsp, 0x00⟩ 0, .storeXmm ⟨.rsp, 0x10⟩ 1, .storeXmm ⟨.rsp, 0x20⟩ 2, .storeXmm ⟨.rsp, 0x30⟩ 3,
   .storeXmm ⟨.rsp, 0x40⟩ 4, .storeXmm ⟨.rsp, 0x50⟩ 5, .storeXmm ⟨.rsp, 0x60⟩ 6, .storeXmm ⟨.rsp, 0x70⟩ 7,
   .storeXmm ⟨.rsp, 0x80⟩ 8, .storeXmm ⟨.rsp, 0x90⟩ 9, .storeXmm ⟨.rsp, 0xa0⟩ 10, .storeXmm ⟨.rsp, 0xb0⟩ 11,
   .storeXmm ⟨.rsp, 0xc0⟩ 12, .storeXmm ⟨.rsp, 0xd0⟩ 13, .storeXmm ⟨.rsp, 0xe0⟩ 14, .storeXmm ⟨.rsp, 0xf0⟩ 15,
   .stmxcsr ⟨.rsp, 0x100⟩,
   .load .rdi ⟨.rsp, 392⟩,
   .lea .rsi ⟨.rsp, 0⟩]

/-- `call_handler!` from the call on. -/
def restoreRegs : List Instr :=
  [.ldmxcsr ⟨.rsp, 0x100⟩,
   .loadXmm 0 ⟨.rsp, 0x00⟩, .loadXmm 1 ⟨.rsp, 0x10⟩, .loadXmm 2 ⟨.rsp, 0x20⟩, .loadXmm 3 ⟨.rsp, 0x30⟩,
   .loadXmm 4 ⟨.rsp, 0x40⟩, .loadXmm 5 ⟨.rsp, 0x50⟩, .loadXmm 6 ⟨.rsp, 0x60⟩, .loadXmm 7 ⟨.rsp, 0x70⟩,
   .loadXmm 8 ⟨.rsp, 0x80⟩, .loadXmm 9 ⟨.rsp, 0x90⟩, .loadXmm 10 ⟨.rsp, 0xa0⟩, .loadXmm 11 ⟨.rsp, 0xb0⟩,
   .loadXmm 12 ⟨.rsp, 0xc0⟩, .loadXmm 13 ⟨.rsp, 0xd0⟩, .loadXmm 14 ⟨.rsp, 0xe0⟩, .loadXmm 15 ⟨.rsp, 0xf0⟩,
   .addImm .rsp 272,
   .pop .r15, .pop .r14, .pop .r13, .pop .r12,
   .pop .r11, .pop .r10, .pop .r9, .pop .r8,
   .pop .rbp, .pop .rdi, .pop .rsi, .pop .rdx,
   .pop .rcx, .pop .rbx, .pop .rax]

/-- `isr_cmm` behind `call_handler!`; an `iretq` follows. -/
def isrExit : List Instr := [.addImm .rsp 16]

/-- `syscall` in front of `call_handler!`. -/
def syscallEntry : List Instr :=
  [.swapgs,
   .storeGs 0 .rsp,
   .loadGs .rsp 8,
   .pushImm 0x1b,
   .pushGs 0,
   .push .r11,
   .pushImm 0x23,
   .push .rcx,
   .pushImm 0,
   .pushImm 0x80]

/-- `syscall` behind `call_handler!`; a `sysretq` follows. -/
def syscallExit : List Instr :=
  [.addImm .rsp 16,
   .pop .rcx,
   .addImm .rsp 8,
   .pop .r11,
   .pop .rsp,
   .swapgs]

/-- `rstr_ctxt`, with the registers that the compiler has chosen for its operands; an `iretq` follows. -/
def rstrCtxt (ctxt ksp : Gpr) : List Instr :=
  [.mov .r14 ksp,
   .mov .r15 ctxt,
   .ldmxcsr ⟨.r15, 256⟩,
   .loadXmm 0 ⟨.r15, 0⟩, .loadXmm 1 ⟨.r15, 16⟩, .loadXmm 2 ⟨.r15, 32⟩, .loadXmm 3 ⟨.r15, 48⟩,
   .loadXmm 4 ⟨.r15, 64⟩, .loadXmm 5 ⟨.r15, 80⟩, .loadXmm 6 ⟨.r15, 96⟩, .loadXmm 7 ⟨.r15, 112⟩,
   .loadXmm 8 ⟨.r15, 128⟩, .loadXmm 9 ⟨.r15, 144⟩, .loadXmm 10 ⟨.r15, 160⟩, .loadXmm 11 ⟨.r15, 176⟩,
   .loadXmm 12 ⟨.r15, 192⟩, .loadXmm 13 ⟨.r15, 208⟩, .loadXmm 14 ⟨.r15, 224⟩, .loadXmm 15 ⟨.r15, 240⟩,
   .load .rax ⟨.r15, 384⟩, .load .rbx ⟨.r15, 376⟩, .load .rcx ⟨.r15, 368⟩, .load .rdx ⟨.r15, 360⟩,
   .load .rsi ⟨.r15, 352⟩, .load .rdi ⟨.r15, 344⟩, .load .rbp ⟨.r15, 336⟩, .load .r8 ⟨.r15, 328⟩,
   .load .r9 ⟨.r15, 320⟩, .load .r10 ⟨.r15, 312⟩, .load .r11 ⟨.r15, 304⟩, .load .r12 ⟨.r15, 296⟩,
   .load .r13 ⟨.r15, 288⟩,
   .mov .rsp .r14,
   .pushMem ⟨.r15, 440⟩, .pushMem ⟨.r15, 432⟩, .pushMem ⟨.r15, 424⟩, .pushMem ⟨.r15, 416⟩, .pushMem ⟨.r15, 408⟩,
   .load .r14 ⟨.r15, 280⟩,
   .load .r15 ⟨.r15, 272⟩]

/-! ### The frame in memory -/

/-- The frame that the words from its address on make, in the order of its fields. -/
def frameOf (w : Nat → Word) : ExcFrameAmd64 where
  xmm := Vector.ofFn fun i => join (w (2 * i)) (w (2 * i + 1))
  mxcsr := w 32
  _0 := w 33
  r15 := w 34
  r14 := w 35
  r13 := w 36
  r12 := w 37
  r11 := w 38
  r10 := w 39
  r9 := w 40
  r8 := w 41
  rbp := w 42
  rdi := w 43
  rsi := w 44
  rdx := w 45
  rcx := w 46
  rbx := w 47
  rax := w 48
  vec := w 49
  err := w 50
  rip := w 51
  cs := w 52
  rflags := w 53
  rsp := w 54
  ss := w 55

def frameAt (m : Nat → Byte) (a : Nat) : ExcFrameAmd64 := frameOf (slots m a)

/-- What a process sees of the processor. -/
@[ext] structure Ctxt where
  gpr : Gpr → Word
  xmm : Fin 16 → BitVec 128
  mxcsr : BitVec 16
  rip : Word
  cs : Word
  rflags : Word
  ss : Word

def ctxtOfCpu (s : Cpu) : Ctxt := ⟨s.gpr, s.xmm, s.mxcsr, s.rip, s.cs, s.rflags, s.ss⟩

def gprOf (f : ExcFrameAmd64) : Gpr → Word
  | .rax => f.rax | .rbx => f.rbx | .rcx => f.rcx | .rdx => f.rdx
  | .rsi => f.rsi | .rdi => f.rdi | .rbp => f.rbp | .rsp => f.rsp
  | .r8 => f.r8 | .r9 => f.r9 | .r10 => f.r10 | .r11 => f.r11
  | .r12 => f.r12 | .r13 => f.r13 | .r14 => f.r14 | .r15 => f.r15

def ctxtOf (f : ExcFrameAmd64) : Ctxt :=
  ⟨gprOf f, fun i => f.xmm[i], f.mxcsr.setWidth 16, f.rip, f.cs, f.rflags, f.ss⟩

/-- The reserved bits of the vector control word are zero in the frame. -/
def MxcsrOk (f : ExcFrameAmd64) : Prop := f.mxcsr.extractLsb' 16 16 = 0

instance (f : ExcFrameAmd64) : Decidable (MxcsrOk f) := inferInstanceAs (Decidable (_ = _))

/-- The frame that is built from the registers above words that are on the stack already. -/
def trapFrame (s : Cpu) (w : Nat → Word) : ExcFrameAmd64 where
  xmm := Vector.ofFn s.xmm
  mxcsr := (w 32).extractLsb' 32 32 ++ s.mxcsr.setWidth 32
  _0 := w 33
  r15 := s.gpr .r15
  r14 := s.gpr .r14
  r13 := s.gpr .r13
  r12 := s.gpr .r12
  r11 := s.gpr .r11
  r10 := s.gpr .r10
  r9 := s.gpr .r9
  r8 := s.gpr .r8
  rbp := s.gpr .rbp
  rdi := s.gpr .rdi
  rsi := s.gpr .rsi
  rdx := s.gpr .rdx
  rcx := s.gpr .rcx
  rbx := s.gpr .rbx
  rax := s.gpr .rax
  vec := w 49
  err := w 50
  rip := w 51
  cs := w 52
  rflags := w 53
  rsp := w 54
  ss := w 55

/-- The vector registers with the slots of the frame that they have. -/
def xmmSlots : List (Fin 16 × Nat) := (List.finRange 16).map fun i => (i, 2 * i.val)

/-- Vector registers in the slots that they have. -/
def xmmWords (x : Fin 16 → BitVec 128) : List (Nat × Word) :=
  xmmSlots.flatMap fun t => [(t.2, low (x t.1)), (t.2 + 1, high (x t.1))]

theorem mem_xmmWords (x : Fin 16 → BitVec 128) (i : Fin 16) :
    (2 * i.val, low (x i)) ∈ xmmWords x ∧ (2 * i.val + 1, high (x i)) ∈ xmmWords x := by
  have hi : (i, 2 * i.val) ∈ xmmSlots := List.mem_map_of_mem (List.mem_finRange i)
  constructor
  all_goals
    refine List.mem_flatMap.mpr ⟨_, hi, ?_⟩
    simp

/-- The words of a frame. -/
def frameWords (f : ExcFrameAmd64) : List (Nat × Word) :=
  xmmWords (fun i => f.xmm[i]) ++
    [(32, f.mxcsr), (33, f._0), (34, f.r15), (35, f.r14), (36, f.r13), (37, f.r12), (38, f.r11), (39, f.r10),
     (40, f.r9), (41, f.r8), (42, f.rbp), (43, f.rdi), (44, f.rsi), (45, f.rdx), (46, f.rcx), (47, f.rbx),
     (48, f.rax), (49, f.vec), (50, f.err), (51, f.rip), (52, f.cs), (53, f.rflags), (54, f.rsp), (55, f.ss)]

theorem frameOf_frameWords (w : Nat → Word) (f : ExcFrameAmd64) : frameOf (store w (frameWords f)) = f := by
  have hnodup : ((frameWords f).map Prod.fst).Nodup := by
    have hfst : (frameWords f).map Prod.fst = List.range 56 := rfl
    rw [hfst]
    exact List.nodup_range
  have hxmm : (Vector.ofFn fun i : Fin 16 =>
      join (store w (frameWords f) (2 * i)) (store w (frameWords f) (2 * i + 1))) = f.xmm := by
    ext i hi
    obtain ⟨hlow, hhigh⟩ := mem_xmmWords (fun i => f.xmm[i]) ⟨i, hi⟩
    rw [Vector.getElem_ofFn, store_of_mem hnodup (List.mem_append_left _ hlow),
      store_of_mem hnodup (List.mem_append_left _ hhigh), join_low_high]
    rfl
  unfold frameOf
  rw [hxmm]
  rfl

/-- A frame that is copied to an address. -/
def putFrame (m : Nat → Byte) (a : Nat) (f : ExcFrameAmd64) : Nat → Byte := put m a (frameWords f)

theorem frameAt_putFrame (m : Nat → Byte) (a : Nat) (f : ExcFrameAmd64) : frameAt (putFrame m a f) a = f := by
  unfold frameAt putFrame
  rw [slots_put, frameOf_frameWords]

/-! ### Saving the registers -/

/-- The registers in the order of the pushes. -/
def pushOrder : List Gpr :=
  [.rax, .rbx, .rcx, .rdx, .rsi, .rdi, .rbp, .r8, .r9, .r10, .r11, .r12, .r13, .r14, .r15]

theorem saveRegs_eq : saveRegs = pushOrder.map .push ++ .subImm .rsp (8 * 34) ::
    (xmmSlots.map (fun t => .storeXmm ⟨.rsp, 8 * t.2⟩ t.1) ++
      [.stmxcsr ⟨.rsp, 8 * 32⟩, .load .rdi ⟨.rsp, 8 * 49⟩, .lea .rsi ⟨.rsp, 0⟩]) := rfl

/-- What the code writes into the slots of the frame. -/
def savedSlots (s : Cpu) (w : Nat → Word) : List (Nat × Word) :=
  pushed 34 (pushOrder.map s.gpr) ++ (xmmWords s.xmm ++ [(32, (w 32).extractLsb' 32 32 ++ s.mxcsr.setWidth 32)])

theorem map_fst_savedSlots (s : Cpu) (w : Nat → Word) :
    (savedSlots s w).map Prod.fst = (List.range' 34 15).reverse ++ List.range 33 := rfl

theorem frameOf_savedSlots (s : Cpu) (w : Nat → Word) : frameOf (store w (savedSlots s w)) = trapFrame s w := by
  have hnodup : ((savedSlots s w).map Prod.fst).Nodup := by
    rw [map_fst_savedSlots]
    decide
  have hxmm : ∀ i : Fin 16, join (store w (savedSlots s w) (2 * i)) (store w (savedSlots s w) (2 * i + 1)) =
      s.xmm i := by
    intro i
    obtain ⟨hlow, hhigh⟩ := mem_xmmWords s.xmm i
    have hmem : ∀ t ∈ xmmWords s.xmm, t ∈ savedSlots s w := fun t ht =>
      List.mem_append_right _ (List.mem_append_left _ ht)
    rw [store_of_mem hnodup (hmem _ hlow), store_of_mem hnodup (hmem _ hhigh), join_low_high]
  unfold frameOf trapFrame
  rw [funext hxmm]
  rfl

/-- The frame that `call_handler!` builds at `base`, where the handler is called. -/
theorem run_saveRegs {s : Cpu} {base : Nat} (hrsp : s.gpr .rsp = BitVec.ofNat 64 (base + 8 * 49))
    (halign : base % 16 = 0) (hlt : base + 8 * 49 < 2 ^ 64) :
    run saveRegs s = some ((((s.setGpr .rsp (BitVec.ofNat 64 base)).setGpr .rdi (slots s.mem base 49)).setGpr
      .rsi (BitVec.ofNat 64 base)).setMem (put s.mem base (savedSlots s (slots s.mem base)))) := by
  have hsub : BitVec.ofNat 64 (base + 8 * 34) - BitVec.ofNat 64 (8 * 34) = BitVec.ofNat 64 base := by
    rw [BitVec.ofNat_add]
    exact BitVec.add_sub_cancel _ _
  have hslots : ∀ t ∈ xmmSlots, t.2 < 32 := by decide
  have hlow : ∀ t ∈ xmmSlots, base + 8 * t.2 < 2 ^ 64 := fun t ht => by have := hslots t ht; omega
  have hbase : ∀ m, ((s.setGpr .rsp (BitVec.ofNat 64 base)).setMem m).gpr .rsp = BitVec.ofNat 64 base :=
    fun _ => by rw [Cpu.gpr_setMem, Cpu.setGpr_self]
  rw [saveRegs_eq, run_append_of_run (run_pushes (by decide) hrsp hlt), run_cons_of_exec rfl]
  simp only [Cpu.setGpr_setMem, Cpu.gpr_setMem, Cpu.setGpr_setGpr, Cpu.setGpr_self, hsub]
  rw [run_append_of_run (run_storeXmms (hbase _) halign (by decide) hlow), Cpu.setMem_setMem,
    run_cons_of_exec (exec_stmxcsr (hbase _) (by omega)), Cpu.setMem_setMem,
    run_cons_of_exec (exec_load (hbase _) hlt), run_cons_of_exec rfl]
  have hrsi : ∀ v, ((s.setGpr .rsp (BitVec.ofNat 64 base)).setGpr .rdi v).gpr .rsp + BitVec.ofNat 64 0 =
      BitVec.ofNat 64 base := by
    intro v
    rw [Cpu.setGpr_of_ne (by decide), Cpu.setGpr_self]
    exact BitVec.add_zero _
  simp only [Cpu.setGpr_setMem, Cpu.gpr_setMem, Cpu.mem_setMem, Cpu.xmm_setMem, Cpu.xmm_setGpr, Cpu.mxcsr_setMem,
    Cpu.mxcsr_setGpr, ← put_append, slots_put, hrsi, run_nil]
  rfl

/-- The state in which the handler is called, with its frame at `base`. -/
structure Called (s : Cpu) (base : Nat) (s₁ : Cpu) : Prop where
  rsp : s₁.gpr .rsp = BitVec.ofNat 64 base
  rdi : s₁.gpr .rdi = slots s.mem base 49
  rsi : s₁.gpr .rsi = BitVec.ofNat 64 base
  frame : frameAt s₁.mem base = trapFrame s (slots s.mem base)
  gsBase : s₁.gsBase = s.gsBase
  kernelGsBase : s₁.kernelGsBase = s.kernelGsBase
  other : ∀ x, x < base ∨ base + 8 * 49 ≤ x → s₁.mem x = s.mem x

theorem called_saveRegs {s : Cpu} {base : Nat} (hrsp : s.gpr .rsp = BitVec.ofNat 64 (base + 8 * 49))
    (halign : base % 16 = 0) (hlt : base + 8 * 49 < 2 ^ 64) : ∃ s₁, run saveRegs s = some s₁ ∧ Called s base s₁ := by
  refine ⟨_, run_saveRegs hrsp halign hlt, ?_⟩
  constructor
  · simp [Cpu.setGpr_of_ne]
  · simp [Cpu.setGpr_of_ne]
  · simp
  · unfold frameAt
    rw [Cpu.mem_setMem, slots_put, frameOf_savedSlots]
  · rfl
  · rfl
  · intro x hx
    refine put_other ?_ hx
    rw [map_fst_savedSlots]
    decide

/-! ### Restoring them -/

theorem store_xmmSlots (x : Fin 16 → BitVec 128) (w : Nat → Word) :
    store x (xmmSlots.map fun t => (t.1, join (w t.2) (w (t.2 + 1)))) = fun i => (frameOf w).xmm[i] := by
  funext i
  have hnodup : ((xmmSlots.map fun t => (t.1, join (w t.2) (w (t.2 + 1)))).map Prod.fst).Nodup := by
    rw [List.map_map, xmmSlots, List.map_map]
    exact (List.nodup_finRange 16).map fun _ _ h => h
  have hi : (i, 2 * i.val) ∈ xmmSlots := List.mem_map_of_mem (List.mem_finRange i)
  rw [store_of_mem hnodup (List.mem_map_of_mem hi)]
  show _ = (Vector.ofFn _)[i.val]
  rw [Vector.getElem_ofFn]

/-- The processor with the vector state of a frame. -/
def withVectors (s : Cpu) (f : ExcFrameAmd64) : Cpu :=
  { s with xmm := fun i => f.xmm[i], mxcsr := f.mxcsr.setWidth 16 }

@[simp] theorem mem_withVectors (s : Cpu) (f : ExcFrameAmd64) : (withVectors s f).mem = s.mem := rfl

/-- The loads of the vector state that both ways out of the kernel begin with. -/
def loadVectors (b : Gpr) : List Instr :=
  .ldmxcsr ⟨b, 8 * 32⟩ :: xmmSlots.map fun t => .loadXmm t.1 ⟨b, 8 * t.2⟩

theorem run_loadVectors {s : Cpu} {b : Gpr} {base : Nat} (hb : s.gpr b = BitVec.ofNat 64 base) (halign : base % 16 = 0)
    (hlt : base + 8 * 32 < 2 ^ 64) (hok : MxcsrOk (frameAt s.mem base)) :
    run (loadVectors b) s = some (withVectors s (frameAt s.mem base)) := by
  have hslots : ∀ t ∈ xmmSlots, t.2 < 32 := by decide
  have hlow : ∀ t ∈ xmmSlots, base + 8 * t.2 < 2 ^ 64 := fun t ht => by have := hslots t ht; omega
  have hld : exec s (.ldmxcsr ⟨b, 8 * 32⟩) = some { s with mxcsr := (frameAt s.mem base).mxcsr.setWidth 16 } :=
    exec_ldmxcsr hb hlt hok
  rw [loadVectors, run_cons_of_exec hld, run_loadXmms (by exact hb) halign (by decide) hlow, store_xmmSlots]
  rfl

/-- The processor with the registers of a frame. -/
def withRegs (s : Cpu) (f : ExcFrameAmd64) : Cpu := { withVectors s f with gpr := gprOf f }

@[simp] theorem mem_withRegs (s : Cpu) (f : ExcFrameAmd64) : (withRegs s f).mem = s.mem := rfl

theorem setGprs_popped (s : Cpu) (w : Nat → Word) (v : Word) :
    (s.setGprs (popped w 34 pushOrder.reverse)).setGpr .rsp v =
      { s with gpr := Function.update (gprOf (frameOf w)) .rsp v } := by
  have hgpr : Function.update (store s.gpr (popped w 34 pushOrder.reverse)) .rsp v =
      Function.update (gprOf (frameOf w)) .rsp v := by
    funext r
    cases r <;> rfl
  unfold Cpu.setGprs Cpu.setGpr
  rw [hgpr]

theorem restoreRegs_eq : restoreRegs = loadVectors .rsp ++ .addImm .rsp (8 * 34) :: pushOrder.reverse.map .pop := rfl

theorem run_restoreRegs {s : Cpu} {base : Nat} (hrsp : s.gpr .rsp = BitVec.ofNat 64 base) (halign : base % 16 = 0)
    (hlt : base + 8 * 49 < 2 ^ 64) (hok : MxcsrOk (frameAt s.mem base)) :
    run restoreRegs s = some ((withRegs s (frameAt s.mem base)).setGpr .rsp (BitVec.ofNat 64 (base + 8 * 49))) := by
  have hadd : exec (withVectors s (frameAt s.mem base)) (.addImm .rsp (8 * 34)) =
      some ((withVectors s (frameAt s.mem base)).setGpr .rsp (BitVec.ofNat 64 (base + 8 * 34))) := by
    rw [BitVec.ofNat_add, ← hrsp]
    rfl
  rw [restoreRegs_eq, run_append_of_run (run_loadVectors hrsp halign (by omega) hok), run_cons_of_exec hadd,
    run_pops (n := 34) (by decide) Cpu.setGpr_self hlt, setGprs_popped, Cpu.mem_setGpr, mem_withVectors]
  unfold frameAt
  generalize frameOf (slots s.mem base) = f
  rfl

theorem ctxtOfCpu_iretq {s : Cpu} {base n : Nat} (hrsp : s.gpr .rsp = BitVec.ofNat 64 (base + 8 * n))
    (hlt : base + 8 * n < 2 ^ 64) : ctxtOfCpu (iretq s) =
      ⟨Function.update s.gpr .rsp (slots s.mem base (n + 3)), s.xmm, s.mxcsr, slots s.mem base n,
        slots s.mem base (n + 1), slots s.mem base (n + 2), slots s.mem base (n + 4)⟩ := by
  have hword : ∀ k, s.word ((s.gpr .rsp).toNat + 8 * k) = slots s.mem base (n + k) := by
    intro k
    rw [hrsp, BitVec.toNat_ofNat, Nat.mod_eq_of_lt hlt, Nat.add_assoc, ← Nat.mul_add]
    rfl
  unfold ctxtOfCpu iretq
  simp only [hword, Nat.add_zero]

theorem update_gprOf_rsp (m : Nat → Byte) (a : Nat) (v : Word) :
    Function.update (Function.update (gprOf (frameAt m a)) .rsp v) .rsp (slots m a 54) = gprOf (frameAt m a) := by
  rw [Function.update_idem]
  exact Function.update_eq_self Gpr.rsp (gprOf (frameAt m a))

/-- The way out of an interrupt resumes the context of the frame. -/
theorem iretq_restoreRegs {s : Cpu} {base : Nat} (hrsp : s.gpr .rsp = BitVec.ofNat 64 base) (halign : base % 16 = 0)
    (hlt : base + 8 * 56 < 2 ^ 64) (hok : MxcsrOk (frameAt s.mem base)) :
    ∃ s', run (restoreRegs ++ isrExit) s = some s' ∧ ctxtOfCpu (iretq s') = ctxtOf (frameAt s.mem base) ∧
      (iretq s').mem = s.mem := by
  have hadd : BitVec.ofNat 64 (base + 8 * 49) + BitVec.ofNat 64 16 = BitVec.ofNat 64 (base + 8 * 51) := by
    rw [← BitVec.ofNat_add]
  have hexit : run isrExit ((withRegs s (frameAt s.mem base)).setGpr .rsp (BitVec.ofNat 64 (base + 8 * 49))) =
      some ((withRegs s (frameAt s.mem base)).setGpr .rsp (BitVec.ofNat 64 (base + 8 * 51))) := by
    rw [isrExit, run_cons_of_exec rfl, Cpu.setGpr_self, hadd, Cpu.setGpr_setGpr]
    rfl
  refine ⟨(withRegs s (frameAt s.mem base)).setGpr .rsp (BitVec.ofNat 64 (base + 8 * 51)), ?_, ?_, ?_⟩
  · rw [run_append_of_run (run_restoreRegs hrsp halign (by omega) hok), hexit]
  · rw [ctxtOfCpu_iretq Cpu.setGpr_self (by omega), ctxtOf, ← update_gprOf_rsp, Cpu.mem_setGpr, mem_withRegs]
    rfl
  · rw [mem_iretq, Cpu.mem_setGpr, mem_withRegs]

theorem getLsbD_mxcsr (h : BitVec 32) (v : BitVec 16) {i : Nat} (hi : i < 32) :
    (show Word from h ++ v.setWidth 32).getLsbD i = v.getLsbD i := by
  refine BitVec.getLsbD_append.trans ?_
  rw [if_pos hi, BitVec.getLsbD_setWidth, decide_eq_true hi, Bool.true_and]

/-- The context that a frame built from the registers stands for. -/
theorem ctxtOf_trapFrame (s : Cpu) (w : Nat → Word) : ctxtOf (trapFrame s w) =
    ⟨Function.update s.gpr .rsp (w 54), s.xmm, s.mxcsr, w 51, w 52, w 53, w 55⟩ := by
  have hgpr : gprOf (trapFrame s w) = Function.update s.gpr .rsp (w 54) := by
    funext r
    cases r <;> rfl
  have hxmm : (fun i : Fin 16 => (trapFrame s w).xmm[i]) = s.xmm := by
    funext i
    show (Vector.ofFn s.xmm)[i.val] = s.xmm i
    rw [Vector.getElem_ofFn]
  unfold ctxtOf
  rw [hgpr, hxmm]
  congr 1
  apply BitVec.eq_of_getLsbD_eq
  intro i hi
  rw [BitVec.getLsbD_setWidth, decide_eq_true hi, Bool.true_and]
  exact getLsbD_mxcsr _ _ (by omega)

theorem mxcsrOk_trapFrame (s : Cpu) (w : Nat → Word) : MxcsrOk (trapFrame s w) := by
  apply BitVec.eq_of_getLsbD_eq
  intro i hi
  have hbit : (trapFrame s w).mxcsr.getLsbD (16 + i) = s.mxcsr.getLsbD (16 + i) := getLsbD_mxcsr _ _ (by omega)
  rw [BitVec.getLsbD_extractLsb', hbit, BitVec.getLsbD_of_ge _ _ (Nat.le_add_right 16 i), Bool.and_false]
  exact BitVec.getLsbD_zero.symm

/-! ### Interrupts -/

theorem and_not_fifteen_mod (top : Word) : (top &&& ~~~15).toNat % 16 = 0 := by
  rw [BitVec.toNat_and]
  exact (Nat.and_mod_two_pow (n := 4)).trans (Nat.and_zero _)

/-- The words of the frame that are on the stack before the registers: where the process has been, the error code and
the vector. -/
def trapWords (s : Cpu) (n : Nat) (e : Word) : List Word :=
  [s.ss, s.gpr .rsp, s.rflags, s.cs, s.rip, if n ∈ errorVectors then e else 0, BitVec.ofNat 64 n]

theorem isrStub_eq (n : Nat) : isrStub n = if n ∈ errorVectors then isrErr n else isrNonerr n := rfl

/-- The stub of a vector levels the two ways in which the processor delivers an interrupt. -/
theorem run_isrStub (n : Nat) (s : Cpu) (top handler cs e : Word) :
    run (isrStub n) (deliver n top handler cs e s) =
      some ((trapWords s n e).foldl Cpu.pushWord (s.onStack top handler cs)) := by
  unfold deliver trapWords
  rw [isrStub_eq]
  by_cases hn : n ∈ errorVectors
  · have herr : ∀ t, run (isrErr n) t = some (t.pushWord (BitVec.ofNat 64 n)) := fun _ => rfl
    rw [if_pos hn, if_pos hn, if_pos hn, herr]
    simp only [List.cons_append, List.nil_append, List.foldl_cons, List.foldl_nil]
  · have hnonerr : ∀ t, run (isrNonerr n) t = some ((t.pushWord 0).pushWord (BitVec.ofNat 64 n)) := fun _ => rfl
    rw [if_neg hn, if_neg hn, if_neg hn, hnonerr]
    simp only [List.append_nil, List.foldl_cons, List.foldl_nil]

/-- An interrupt of whatever vector, from the processor's delivery to the return: the handler is called with the vector
and with a frame that stands for the interrupted context; whatever frame it leaves there is resumed, and nothing but the
kernel's stack has been written to. -/
theorem interrupt_round_trip (n : Nat) (s : Cpu) (top handler cs e : Word) {base : Nat}
    (hbase : (top &&& ~~~15).toNat = base + 8 * 56) :
    ∃ s₁, run (isrStub n ++ saveRegs) (deliver n top handler cs e s) = some s₁ ∧
      s₁.gpr .rdi = BitVec.ofNat 64 n ∧ s₁.gpr .rsi = BitVec.ofNat 64 base ∧
      (frameAt s₁.mem base).vec = BitVec.ofNat 64 n ∧
      (frameAt s₁.mem base).err = (if n ∈ errorVectors then e else 0) ∧
      ctxtOf (frameAt s₁.mem base) = ctxtOfCpu s ∧ MxcsrOk (frameAt s₁.mem base) ∧
      (∀ x, x < base ∨ base + 8 * 56 ≤ x → s₁.mem x = s.mem x) ∧
      ∀ s₂, s₂.gpr .rsp = s₁.gpr .rsp → MxcsrOk (frameAt s₂.mem base) →
        ∃ s₃, run (restoreRegs ++ isrExit) s₂ = some s₃ ∧
          ctxtOfCpu (iretq s₃) = ctxtOf (frameAt s₂.mem base) ∧ (iretq s₃).mem = s₂.mem := by
  have htop : (top &&& ~~~15) = BitVec.ofNat 64 (base + 8 * 56) := by
    rw [← hbase, BitVec.ofNat_toNat, BitVec.setWidth_eq]
  have hlt : base + 8 * 56 < 2 ^ 64 := by
    rw [← hbase]
    exact BitVec.isLt _
  have halign : base % 16 = 0 := by
    have := and_not_fifteen_mod top
    omega
  have hstart : (s.onStack top handler cs).gpr .rsp = BitVec.ofNat 64 (base + 8 * 56) := by rw [Cpu.onStack_rsp, htop]
  obtain ⟨t, ht⟩ : ∃ t : Cpu, t = ((s.onStack top handler cs).setGpr .rsp (BitVec.ofNat 64 (base + 8 * 49))).setMem
    (put (s.onStack top handler cs).mem base (pushed 49 (trapWords s n e))) := ⟨_, rfl⟩
  have hrsp : t.gpr .rsp = BitVec.ofNat 64 (base + 8 * 49) := by rw [ht, Cpu.gpr_setMem, Cpu.setGpr_self]
  obtain ⟨s₁, hrun, hcalled⟩ := called_saveRegs hrsp halign (by omega)
  have hslots : slots t.mem base = store (slots s.mem base) (pushed 49 (trapWords s n e)) := by
    rw [ht, Cpu.mem_setMem, slots_put]
    rfl
  rw [ht, ← foldl_pushWord (n := 49) hstart hlt, ← run_append_of_run (run_isrStub n s top handler cs e)] at hrun
  refine ⟨s₁, hrun, ?_, hcalled.rsi, ?_, ?_, ?_, ?_, ?_, fun s₂ hs₂ hok => ?_⟩
  · rw [hcalled.rdi, hslots]
    rfl
  · rw [hcalled.frame, hslots]
    rfl
  · rw [hcalled.frame, hslots]
    rfl
  · have hgpr : Function.update t.gpr .rsp (s.gpr .rsp) = s.gpr := by
      funext r
      by_cases hr : r = .rsp
      · rw [hr, Function.update_self]
      · rw [Function.update_of_ne hr, ht, Cpu.gpr_setMem, Cpu.setGpr_of_ne hr, Cpu.onStack_of_ne hr]
    rw [hcalled.frame, ctxtOf_trapFrame, hslots]
    have hrspWord : store (slots s.mem base) (pushed 49 (trapWords s n e)) 54 = s.gpr .rsp := rfl
    rw [hrspWord, hgpr, ht]
    rfl
  · rw [hcalled.frame]
    exact mxcsrOk_trapFrame t _
  · intro x hx
    rw [hcalled.other x (by omega), ht, Cpu.mem_setMem]
    exact put_other (by simp [pushed, trapWords]) hx
  · exact iretq_restoreRegs (hs₂.trans hcalled.rsp) halign hlt hok

/-- A process in front of a page that is not there. -/
def faultingCpu : Cpu := ⟨fun _ => 7, fun _ => 1, 0x1f80, 0x400000, 0x23, 0x202, 0x1b, 0, 0x3000, fun _ => 0⟩

theorem interrupt_round_trip_pageFault : ∃ s₁ s₃,
    run (isrStub 14 ++ saveRegs) (deliver 14 0x8008 0xffff 8 4 faultingCpu) = some s₁ ∧ s₁.gpr .rdi = 14 ∧
      (frameAt s₁.mem 0x7e40).err = 4 ∧ run (restoreRegs ++ isrExit) s₁ = some s₃ ∧
      ctxtOfCpu (iretq s₃) = ctxtOfCpu faultingCpu := by
  obtain ⟨s₁, hrun, hrdi, -, -, herr, hctxt, hok, -, hback⟩ :=
    interrupt_round_trip 14 faultingCpu 0x8008 0xffff 8 4 (show _ = 0x7e40 + 8 * 56 by decide)
  obtain ⟨s₃, hrun₃, hresumed, -⟩ := hback s₁ rfl hok
  exact ⟨s₁, s₃, hrun, hrdi, herr, hrun₃, hresumed.trans hctxt⟩

end TrapAmd64

end UnixKernel
