import UnixKernel.AsmAarch64
import UnixKernel.Exceptions

/-! The assembly around the exception handler of `aarch64`: the stubs of the vectors, `exc_entry`, which they branch to,
and `rstr_ctxt`, which starts a process from a saved frame. An exception of the kernel puts its frame on the stack of
`sp_el1`, one of a process at the end of the kernel stack that `tpidr_el1` names; the handler runs on `sp_el0`, right
below the frame. -/

namespace UnixKernel

namespace TrapAarch64

open ByteWords WordSlots AsmAarch64
open Kreq (ExcFrameAarch64)

/-! ### The code -/

/-- `exc_stub_el1t!`. -/
def excStubEl1t (n : Nat) : List Instr :=
  [.subImm .sp 816,
   .stp 0 1 ⟨.sp, 0⟩,
   .stp 2 3 ⟨.sp, 16⟩,
   .mrs 0 .spEl0,
   .str 0 ⟨.sp, 248⟩,
   .mov 1 .sp,
   .movImm 0 (BitVec.ofNat 64 n)]

/-- `exc_stub_el0!`. -/
def excStubEl0 (n : Nat) : List Instr :=
  [.stpPush 0 1 32,
   .stp 2 3 ⟨.sp, 16⟩,
   .mrs 0 .spEl0,
   .mrs 1 .tpidr,
   .subImm (.x 1) 816,
   .str 0 ⟨.x 1, 248⟩,
   .ldp 2 3 ⟨.sp, 0⟩,
   .stp 2 3 ⟨.x 1, 0⟩,
   .ldp 2 3 ⟨.sp, 16⟩,
   .stp 2 3 ⟨.x 1, 16⟩,
   .addImm .sp 32,
   .movImm 0 (BitVec.ofNat 64 n)]

/-- `exc_vts`: the stub of a vector; four of them end in `double_fault_panic`. -/
def excVts (n : Nat) : Option (List Instr) :=
  if n < 4 then some (excStubEl1t n)
  else if n < 8 then none
  else if n < 16 then some (excStubEl0 n)
  else none

/-- `exc_entry` up to the call. -/
def excEntry : List Instr :=
  [.stp 4 5 ⟨.x 1, 32⟩, .stp 6 7 ⟨.x 1, 48⟩, .stp 8 9 ⟨.x 1, 64⟩, .stp 10 11 ⟨.x 1, 80⟩,
   .stp 12 13 ⟨.x 1, 96⟩, .stp 14 15 ⟨.x 1, 112⟩, .stp 16 17 ⟨.x 1, 128⟩, .stp 18 19 ⟨.x 1, 144⟩,
   .stp 20 21 ⟨.x 1, 160⟩, .stp 22 23 ⟨.x 1, 176⟩, .stp 24 25 ⟨.x 1, 192⟩, .stp 26 27 ⟨.x 1, 208⟩,
   .stp 28 29 ⟨.x 1, 224⟩, .str 30 ⟨.x 1, 240⟩,
   .mrs 2 .elr, .mrs 3 .spsr, .stp 2 3 ⟨.x 1, 256⟩,
   .mrs 2 .esr, .mrs 3 .far, .stp 2 3 ⟨.x 1, 272⟩,
   .stpq 0 1 ⟨.x 1, 288⟩, .stpq 2 3 ⟨.x 1, 320⟩, .stpq 4 5 ⟨.x 1, 352⟩, .stpq 6 7 ⟨.x 1, 384⟩,
   .stpq 8 9 ⟨.x 1, 416⟩, .stpq 10 11 ⟨.x 1, 448⟩, .stpq 12 13 ⟨.x 1, 480⟩, .stpq 14 15 ⟨.x 1, 512⟩,
   .stpq 16 17 ⟨.x 1, 544⟩, .stpq 18 19 ⟨.x 1, 576⟩, .stpq 20 21 ⟨.x 1, 608⟩, .stpq 22 23 ⟨.x 1, 640⟩,
   .stpq 24 25 ⟨.x 1, 672⟩, .stpq 26 27 ⟨.x 1, 704⟩, .stpq 28 29 ⟨.x 1, 736⟩, .stpq 30 31 ⟨.x 1, 768⟩,
   .mrs 2 .fpcr, .str 2 ⟨.x 1, 800⟩, .mrs 2 .fpsr, .str 2 ⟨.x 1, 808⟩,
   .msr .spEl0 1, .spsel false, .mov 1 .sp]

/-- The loads of the general registers that both ways out of the kernel end with. -/
def loadRegs : List Instr :=
  [.spsel true, .ldr 10 ⟨.x 9, 248⟩, .msr .spEl0 10,
   .ldp 0 1 ⟨.x 9, 0⟩, .ldp 2 3 ⟨.x 9, 16⟩, .ldp 4 5 ⟨.x 9, 32⟩, .ldp 6 7 ⟨.x 9, 48⟩, .ldr 8 ⟨.x 9, 64⟩,
   .ldp 10 11 ⟨.x 9, 80⟩, .ldp 12 13 ⟨.x 9, 96⟩, .ldp 14 15 ⟨.x 9, 112⟩, .ldp 16 17 ⟨.x 9, 128⟩,
   .ldp 18 19 ⟨.x 9, 144⟩, .ldp 20 21 ⟨.x 9, 160⟩, .ldp 22 23 ⟨.x 9, 176⟩, .ldp 24 25 ⟨.x 9, 192⟩,
   .ldp 26 27 ⟨.x 9, 208⟩, .ldp 28 29 ⟨.x 9, 224⟩, .ldr 30 ⟨.x 9, 240⟩, .ldr 9 ⟨.x 9, 72⟩]

/-- The loads of the vector registers. -/
def loadVecs (b : Base) : List Instr :=
  [.ldpq 0 1 ⟨b, 288⟩, .ldpq 2 3 ⟨b, 320⟩, .ldpq 4 5 ⟨b, 352⟩, .ldpq 6 7 ⟨b, 384⟩,
   .ldpq 8 9 ⟨b, 416⟩, .ldpq 10 11 ⟨b, 448⟩, .ldpq 12 13 ⟨b, 480⟩, .ldpq 14 15 ⟨b, 512⟩,
   .ldpq 16 17 ⟨b, 544⟩, .ldpq 18 19 ⟨b, 576⟩, .ldpq 20 21 ⟨b, 608⟩, .ldpq 22 23 ⟨b, 640⟩,
   .ldpq 24 25 ⟨b, 672⟩, .ldpq 26 27 ⟨b, 704⟩, .ldpq 28 29 ⟨b, 736⟩, .ldpq 30 31 ⟨b, 768⟩]

/-- `exc_entry` from the call on, up to the branch. -/
def excBack : List Instr :=
  [.ldp 2 3 ⟨.sp, 256⟩, .msr .elr 2, .msr .spsr 3,
   .ldr 2 ⟨.sp, 800⟩, .msr .fpcr 2, .ldr 2 ⟨.sp, 808⟩, .msr .fpsr 2] ++
  loadVecs .sp ++
  [.ldr 2 ⟨.sp, 264⟩, .tst 2 0b1100, .mov 9 .sp] ++
  loadRegs

/-- The end of `exc_entry`: the frame of a kernel exception is taken off the stack. -/
def excReturn (s : Cpu) : Option Cpu :=
  if s.ne then (run [.addImm .sp 816] s).map eret else some (eret s)

/-- `rstr_ctxt`, with the registers that the compiler has chosen for its operands; an `eret` follows. -/
def rstrCtxt (ctxt ksp : Fin 31) : List Instr :=
  [.mov 9 (.x ctxt), .msr .tpidr ksp,
   .ldr 10 ⟨.x 9, 256⟩, .msr .elr 10, .ldr 10 ⟨.x 9, 264⟩, .msr .spsr 10,
   .ldr 10 ⟨.x 9, 800⟩, .msr .fpcr 10, .ldr 10 ⟨.x 9, 808⟩, .msr .fpsr 10] ++
  loadVecs (.x 9) ++
  loadRegs

/-! ### The frame in memory -/

/-- The frame that the words from its address on make, in the order of its fields. -/
def frameOf (w : Nat → Word) : ExcFrameAarch64 where
  x := Vector.ofFn fun i => w i
  elr := w 32
  spsr := w 33
  esr := w 34
  far := w 35
  q := Vector.ofFn fun i => join (w (36 + 2 * i)) (w (36 + 2 * i + 1))
  fpcr := w 100
  fpsr := w 101

/-- `ExcFrame::new`. -/
def newFrame : ExcFrameAarch64 where
  x := Vector.replicate 32 0
  elr := 0
  spsr := 0
  esr := 0
  far := 0
  q := Vector.replicate 32 0
  fpcr := 0
  fpsr := 0

def setPc (f : ExcFrameAarch64) (pc : Word) : ExcFrameAarch64 := { f with elr := pc }

def setSp (f : ExcFrameAarch64) (sp : Word) : ExcFrameAarch64 := { f with x := f.x.set 31 sp }

def frameAt (m : Nat → Byte) (a : Nat) : ExcFrameAarch64 := frameOf (slots m a)

theorem frameOf_congr {w w' : Nat → Word} (h : ∀ k < 102, w k = w' k) : frameOf w = frameOf w' := by
  have hx : (fun i : Fin 32 => w i) = fun i : Fin 32 => w' i := funext fun i => h i (by omega)
  have hq : (fun i : Fin 32 => join (w (36 + 2 * i)) (w (36 + 2 * i + 1))) =
      fun i : Fin 32 => join (w' (36 + 2 * i)) (w' (36 + 2 * i + 1)) :=
    funext fun i => by rw [h _ (by omega), h _ (by omega)]
  unfold frameOf
  rw [hx, hq, h 32 (by decide), h 33 (by decide), h 34 (by decide), h 35 (by decide), h 100 (by decide),
    h 101 (by decide)]

/-- What a process sees of the processor. -/
@[ext] structure Ctxt where
  x : Fin 31 → Word
  sp : Word
  q : Fin 32 → BitVec 128
  fpcr : Word
  fpsr : Word
  pc : Word
  pstate : Word

def ctxtOfCpu (s : Cpu) : Ctxt := ⟨s.x, s.sys .spEl0, s.q, s.sys .fpcr, s.sys .fpsr, s.pc, s.pstate⟩

def ctxtOf (f : ExcFrameAarch64) : Ctxt :=
  ⟨fun i => f.x[i.castSucc], f.x[31], fun i => f.q[i], f.fpcr, f.fpsr, f.elr, f.spsr⟩

theorem getElem_x_frameOf (w : Nat → Word) {i : Nat} (hi : i < 32) : (frameOf w).x[i] = w i := by
  unfold frameOf
  exact Vector.getElem_ofFn _

theorem getElem_q_frameOf (w : Nat → Word) {i : Nat} (hi : i < 32) :
    (frameOf w).q[i] = join (w (36 + 2 * i)) (w (36 + 2 * i + 1)) := by
  unfold frameOf
  exact Vector.getElem_ofFn _

theorem ctxtOf_frameOf (w : Nat → Word) : ctxtOf (frameOf w) =
    ⟨fun i => w i, w 31, fun i => join (w (36 + 2 * i)) (w (36 + 2 * i + 1)), w 100, w 101, w 32, w 33⟩ := by
  have hx : (fun i : Fin 31 => (frameOf w).x[i.castSucc]) = fun i : Fin 31 => w i :=
    funext fun i => getElem_x_frameOf w (by omega)
  have hq : (fun i : Fin 32 => (frameOf w).q[i]) = fun i : Fin 32 => join (w (36 + 2 * i)) (w (36 + 2 * i + 1)) :=
    funext fun i => getElem_q_frameOf w i.isLt
  unfold ctxtOf
  rw [hx, hq, getElem_x_frameOf w (by decide)]
  rfl

/-- The words of the frame of an exception. -/
def savedWord (s : Cpu) (esr far : Word) (k : Nat) : Word :=
  if h : k < 31 then s.x ⟨k, h⟩
  else if k = 31 then s.sys .spEl0
  else if k = 32 then s.pc
  else if k = 33 then s.pstate
  else if k = 34 then esr
  else if k = 35 then far
  else if h : k < 100 then
    let v := s.q ⟨(k - 36) / 2, by omega⟩
    if k % 2 = 0 then low v else high v
  else if k = 100 then s.sys .fpcr
  else s.sys .fpsr

theorem savedWord_x (s : Cpu) (esr far : Word) (i : Fin 31) : savedWord s esr far i = s.x i := by
  rw [savedWord, dif_pos i.isLt]

theorem savedWord_q (s : Cpu) (esr far : Word) (i : Fin 32) :
    savedWord s esr far (36 + 2 * i) = low (s.q i) ∧ savedWord s esr far (36 + 2 * i + 1) = high (s.q i) := by
  have hi := i.isLt
  have heven : (⟨(36 + 2 * i.val - 36) / 2, by omega⟩ : Fin 32) = i := Fin.ext (by dsimp only; omega)
  have hodd : (⟨(36 + 2 * i.val + 1 - 36) / 2, by omega⟩ : Fin 32) = i := Fin.ext (by dsimp only; omega)
  unfold savedWord
  constructor
  · rw [dif_neg (by omega), if_neg (by omega), if_neg (by omega), if_neg (by omega), if_neg (by omega),
      if_neg (by omega), dif_pos (by omega), heven]
    exact if_pos (by omega)
  · rw [dif_neg (by omega), if_neg (by omega), if_neg (by omega), if_neg (by omega), if_neg (by omega),
      if_neg (by omega), dif_pos (by omega), hodd]
    exact if_neg (by omega)

theorem ctxtOf_savedWord (s : Cpu) (esr far : Word) : ctxtOf (frameOf (savedWord s esr far)) = ctxtOfCpu s := by
  have hx : (fun i : Fin 31 => savedWord s esr far i) = s.x := funext (savedWord_x s esr far)
  have hq : (fun i : Fin 32 => join (savedWord s esr far (36 + 2 * i)) (savedWord s esr far (36 + 2 * i + 1))) =
      s.q := by
    funext i
    rw [(savedWord_q s esr far i).1, (savedWord_q s esr far i).2, join_low_high]
  rw [ctxtOf_frameOf, hx, hq]
  rfl

theorem frameAt_put {m : Nat → Byte} {base : Nat} {ts : List (Nat × Word)} {g : Nat → Word} (h : ∀ t ∈ ts, t.2 = g t.1)
    (hall : ∀ k < 102, k ∈ ts.map Prod.fst) : frameAt (put m base ts) base = frameOf g := by
  unfold frameAt
  rw [slots_put]
  exact frameOf_congr fun k hk => store_of_forall h (hall k hk)

/-! ### Saving the registers -/

/-- The pairs of registers that `exc_entry` stores. -/
def entryPairs : Pairs 31 :=
  [(4, 5, 4), (6, 7, 6), (8, 9, 8), (10, 11, 10), (12, 13, 12), (14, 15, 14), (16, 17, 16), (18, 19, 18), (20, 21, 20),
   (22, 23, 22), (24, 25, 24), (26, 27, 26), (28, 29, 28)]

def vecPairs : Pairs 32 :=
  [(0, 1, 36), (2, 3, 40), (4, 5, 44), (6, 7, 48), (8, 9, 52), (10, 11, 56), (12, 13, 60), (14, 15, 64), (16, 17, 68),
   (18, 19, 72), (20, 21, 76), (22, 23, 80), (24, 25, 84), (26, 27, 88), (28, 29, 92), (30, 31, 96)]

/-- The pairs of registers that are loaded, below and above the one that holds the address of the frame. -/
def lowPairs : Pairs 31 := [(0, 1, 0), (2, 3, 2), (4, 5, 4), (6, 7, 6)]

def highPairs : Pairs 31 :=
  [(10, 11, 10), (12, 13, 12), (14, 15, 14), (16, 17, 16), (18, 19, 18), (20, 21, 20), (22, 23, 22), (24, 25, 24),
   (26, 27, 26), (28, 29, 28)]

/-- The registers that are loaded, in the order of the code. -/
def loadedRegs (w : Nat → Word) : List (Fin 31 × Word) :=
  pairRegs w lowPairs ++ ([(8, w 8)] ++ (pairRegs w highPairs ++ ([(30, w 30)] ++ [(9, w 9)])))

theorem excEntry_eq : excEntry = entryPairs.map (fun t => .stp t.1 t.2.1 ⟨.x 1, 8 * t.2.2⟩) ++
    .str 30 ⟨.x 1, 8 * 30⟩ :: .mrs 2 .elr :: .mrs 3 .spsr :: .stp 2 3 ⟨.x 1, 8 * 32⟩ ::
    .mrs 2 .esr :: .mrs 3 .far :: .stp 2 3 ⟨.x 1, 8 * 34⟩ ::
    (vecPairs.map (fun t => .stpq t.1 t.2.1 ⟨.x 1, 8 * t.2.2⟩) ++
      [.mrs 2 .fpcr, .str 2 ⟨.x 1, 8 * 100⟩, .mrs 2 .fpsr, .str 2 ⟨.x 1, 8 * 101⟩, .msr .spEl0 1, .spsel false,
       .mov 1 .sp]) := rfl

/-- What `exc_entry` writes into the slots of the frame. -/
def entryWords (s : Cpu) : List (Nat × Word) :=
  pairWords s.x entryPairs ++ ([(30, s.x 30)] ++ ([(32, s.sys .elr), (33, s.sys .spsr)] ++
    ([(34, s.sys .esr), (35, s.sys .far)] ++ (vecWords s.q vecPairs ++
      ([(100, s.sys .fpcr)] ++ [(101, s.sys .fpsr)])))))

/-- The processor in `exc_entry`, which works with two registers that the stub has saved. -/
def scratch (s : Cpu) (v v' : Word) (m : Nat → Byte) : Cpu := ((s.setX 2 v).setX 3 v').setMem m

theorem scratch_self (s : Cpu) : scratch s (s.x 2) (s.x 3) s.mem = s := by
  unfold scratch Cpu.setX Cpu.setMem
  simp only [Function.update_eq_self]

/-- The state in which the handler is called, from that in front of `exc_entry`. -/
structure Called (s : Cpu) (base : Nat) (s₁ : Cpu) : Prop where
  x0 : s₁.x 0 = s.x 0
  x1 : s₁.x 1 = BitVec.ofNat 64 base
  spSel : s₁.pstate.getLsbD 0 = false
  spEl0 : s₁.sys .spEl0 = BitVec.ofNat 64 base
  spEl1 : s₁.sys .spEl1 = s.sys .spEl1
  tpidr : s₁.sys .tpidr = s.sys .tpidr
  mem : s₁.mem = put s.mem base (entryWords s)

section Entry

variable {s : Cpu} {v v' : Word} {m : Nat → Byte} {base k : Nat} {r : SysReg}

theorem x_scratch {i : Fin 31} (h2 : i ≠ 2) (h3 : i ≠ 3) : (scratch s v v' m).x i = s.x i := by
  unfold scratch
  rw [Cpu.x_setMem, Cpu.setX_of_ne h3, Cpu.setX_of_ne h2]

theorem exec_mrs_two (hr : r ≠ .spEl0) : exec (scratch s v v' m) (.mrs 2 r) = some (scratch s (s.sys r) v' m) := by
  rw [exec, if_neg fun h => hr h.1]
  unfold scratch Cpu.setX Cpu.setMem
  simp only
  rw [Function.update_comm (by decide), Function.update_idem]

theorem exec_mrs_three (hr : r ≠ .spEl0) : exec (scratch s v v' m) (.mrs 3 r) = some (scratch s v (s.sys r) m) := by
  rw [exec, if_neg fun h => hr h.1]
  unfold scratch Cpu.setX Cpu.setMem
  simp only
  rw [Function.update_idem]

variable (hx1 : s.x 1 = BitVec.ofNat 64 base) (hlt : base + 8 * 102 < 2 ^ 64)

include hx1 hlt

theorem points_scratch : (scratch s v v' m).Points (.x 1) base :=
  ⟨(x_scratch (by decide) (by decide)).trans hx1, nofun, by omega⟩

theorem exec_scratch_stp (hk : k < 102) : exec (scratch s v v' m) (.stp 2 3 ⟨.x 1, 8 * k⟩) =
    some (scratch s v v' (put m base [(k, v), (k + 1, v')])) :=
  exec_stp (points_scratch hx1 hlt) (by omega)

theorem exec_scratch_str (hk : k < 102) : exec (scratch s v v' m) (.str 2 ⟨.x 1, 8 * k⟩) =
    some (scratch s v v' (put m base [(k, v)])) :=
  exec_str (points_scratch hx1 hlt) (by omega)

theorem exec_scratch_str_thirty : exec (scratch s v v' m) (.str 30 ⟨.x 1, 8 * 30⟩) =
    some (scratch s v v' (put m base [(30, s.x 30)])) := by
  rw [exec_str (points_scratch hx1 hlt) (by omega), x_scratch (by decide) (by decide)]
  rfl

theorem run_scratch_stps : run (entryPairs.map fun t => .stp t.1 t.2.1 ⟨.x 1, 8 * t.2.2⟩) (scratch s v v' m) =
    some (scratch s v v' (put m base (pairWords s.x entryPairs))) := by
  have hpairs : ∀ t ∈ entryPairs, t.2.2 < 102 ∧ t.1 ≠ 2 ∧ t.1 ≠ 3 ∧ t.2.1 ≠ 2 ∧ t.2.1 ≠ 3 := by decide
  have hwords : pairWords (scratch s v v' m).x entryPairs = pairWords s.x entryPairs := by
    unfold pairWords
    refine List.flatMap_congr fun t ht => ?_
    obtain ⟨-, h1, h2, h3, h4⟩ := hpairs t ht
    rw [x_scratch h1 h2, x_scratch h3 h4]
  rw [run_stps (points_scratch hx1 hlt) (fun t ht => by have := hpairs t ht; omega), hwords]
  rfl

theorem run_scratch_stpqs : run (vecPairs.map fun t => .stpq t.1 t.2.1 ⟨.x 1, 8 * t.2.2⟩) (scratch s v v' m) =
    some (scratch s v v' (put m base (vecWords s.q vecPairs))) := by
  have hvecs : ∀ t ∈ vecPairs, t.2.2 < 102 := by decide
  rw [run_stpqs (points_scratch hx1 hlt) (fun t ht => by have := hvecs t ht; omega)]
  rfl

theorem run_excEntry : run excEntry s = run [.msr .spEl0 1, .spsel false, .mov 1 .sp]
    (scratch s (s.sys .fpsr) (s.sys .far) (put s.mem base (entryWords s))) := by
  have hstart : run excEntry s = run excEntry (scratch s (s.x 2) (s.x 3) s.mem) := by rw [scratch_self]
  rw [hstart, excEntry_eq, run_append_of_run (run_scratch_stps hx1 hlt),
    run_cons_of_exec (exec_scratch_str_thirty hx1 hlt),
    run_cons_of_exec (exec_mrs_two (by decide)), run_cons_of_exec (exec_mrs_three (by decide)),
    run_cons_of_exec (exec_scratch_stp hx1 hlt (by decide)),
    run_cons_of_exec (exec_mrs_two (by decide)), run_cons_of_exec (exec_mrs_three (by decide)),
    run_cons_of_exec (exec_scratch_stp hx1 hlt (by decide)), run_append_of_run (run_scratch_stpqs hx1 hlt),
    run_cons_of_exec (exec_mrs_two (by decide)), run_cons_of_exec (exec_scratch_str hx1 hlt (by decide)),
    run_cons_of_exec (exec_mrs_two (by decide)), run_cons_of_exec (exec_scratch_str hx1 hlt (by decide))]
  simp only [entryWords, put_append]

/-- The handler is called on the stack right below the frame. -/
theorem called_excEntry (hsel : s.pstate.getLsbD 0 = true) : ∃ s₁, run excEntry s = some s₁ ∧ Called s base s₁ := by
  obtain ⟨t, ht⟩ : ∃ t, t = scratch s (s.sys .fpsr) (s.sys .far) (put s.mem base (entryWords s)) := ⟨_, rfl⟩
  have hbit : (withBit t.pstate 0 false).getLsbD 0 = false := by
    rw [getLsbD_withBit (by decide), if_pos rfl]
  have hmsr : exec t (.msr .spEl0 1) = some (t.setSys .spEl0 (BitVec.ofNat 64 base)) := by
    have ht1 : t.x 1 = BitVec.ofNat 64 base := by rw [ht, x_scratch (by decide) (by decide), hx1]
    have htsel : t.pstate.getLsbD 0 = true := by rw [ht]; exact hsel
    rw [exec, if_neg fun h => by rw [htsel] at h; exact absurd h.2 (by decide), ht1]
  have hsp : ((t.setSys .spEl0 (BitVec.ofNat 64 base)).setPstate (withBit t.pstate 0 false)).sp =
      BitVec.ofNat 64 base := by
    rw [Cpu.sp_eq_spEl0 hbit, Cpu.sys_setPstate, Cpu.setSys_self]
  rw [run_excEntry hx1 hlt, ← ht, run_cons_of_exec hmsr, run_cons_of_exec rfl, run_cons_of_exec rfl, run_nil]
  refine ⟨_, rfl, ?_⟩
  constructor
  · rw [Cpu.setX_of_ne (by decide), Cpu.x_setPstate, Cpu.x_setSys, ht, x_scratch (by decide) (by decide)]
  · rw [Cpu.setX_self]
    exact hsp
  · exact hbit
  · rw [Cpu.sys_setX, Cpu.sys_setPstate, Cpu.setSys_self]
  · rw [Cpu.sys_setX, Cpu.sys_setPstate, Cpu.setSys_of_ne (by decide), ht]
    rfl
  · rw [Cpu.sys_setX, Cpu.sys_setPstate, Cpu.setSys_of_ne (by decide), ht]
    rfl
  · rw [Cpu.mem_setX, Cpu.mem_setPstate, Cpu.mem_setSys, ht]
    rfl

end Entry

/-- Taken from the state in front of it, the words that `exc_entry` writes are those of the interrupted state. -/
theorem entryWords_saved {s t : Cpu} {esr far : Word} (hx : ∀ i : Fin 31, 4 ≤ i.val → t.x i = s.x i) (hq : t.q = s.q)
    (helr : t.sys .elr = s.pc) (hspsr : t.sys .spsr = s.pstate) (hesr : t.sys .esr = esr) (hfar : t.sys .far = far)
    (hfpcr : t.sys .fpcr = s.sys .fpcr) (hfpsr : t.sys .fpsr = s.sys .fpsr) :
    ∀ u ∈ entryWords t, u.2 = savedWord s esr far u.1 := by
  have hpairs : ∀ u ∈ entryPairs, 4 ≤ u.1.val ∧ u.2.2 = u.1.val ∧ u.2.1.val = u.1.val + 1 := by decide
  have hvecs : ∀ u ∈ vecPairs, u.2.2 = 36 + 2 * u.1.val ∧ u.2.1.val = u.1.val + 1 := by decide
  have hpairWords : ∀ u ∈ pairWords t.x entryPairs, u.2 = savedWord s esr far u.1 := by
    intro u hu
    obtain ⟨r, hr, hu⟩ := List.mem_flatMap.mp hu
    obtain ⟨hge, hslot, hnext⟩ := hpairs r hr
    rcases List.mem_cons.mp hu with rfl | hu
    · rw [hx r.1 hge, ← savedWord_x s esr far r.1, hslot]
    · obtain rfl := List.mem_singleton.mp hu
      rw [hx r.2.1 (by omega), ← savedWord_x s esr far r.2.1, hnext, hslot]
  have hvecWords : ∀ u ∈ vecWords t.q vecPairs, u.2 = savedWord s esr far u.1 := by
    intro u hu
    obtain ⟨r, hr, hu⟩ := List.mem_flatMap.mp hu
    obtain ⟨hslot, hnext⟩ := hvecs r hr
    have hfirst := savedWord_q s esr far r.1
    have hsecond := savedWord_q s esr far r.2.1
    have hodd : 36 + 2 * r.2.1.val = r.2.2 + 2 := by omega
    rw [← hslot, ← hq] at hfirst
    rw [hodd, ← hq] at hsecond
    simp only [List.mem_cons, List.not_mem_nil, or_false] at hu
    rcases hu with rfl | rfl | rfl | rfl
    · exact hfirst.1.symm
    · exact hfirst.2.symm
    · exact hsecond.1.symm
    · exact hsecond.2.symm
  have h30 : t.x 30 = savedWord s esr far 30 := (hx 30 (by decide)).trans (savedWord_x s esr far 30).symm
  simp only [entryWords, List.forall_mem_append, List.forall_mem_cons, List.not_mem_nil, false_imp_iff,
    implies_true, and_true]
  exact ⟨hpairWords, h30, ⟨helr, hspsr⟩, ⟨hesr, hfar⟩, hvecWords, hfpcr, hfpsr⟩

theorem mem_map_fst_entryWords (s : Cpu) (k : Nat) :
    k ∈ (entryWords s).map Prod.fst ↔ 4 ≤ k ∧ k < 102 ∧ k ≠ 31 := by
  have hfst : (entryWords s).map Prod.fst = List.range' 4 27 ++ List.range' 32 70 := rfl
  rw [hfst, List.mem_append, List.mem_range'_1, List.mem_range'_1]
  omega

/-! ### The stubs -/

/-- What the stubs write into the slots of the frame. -/
def stubWords (s : Cpu) : List (Nat × Word) :=
  [(0, s.x 0), (1, s.x 1)] ++ ([(2, s.x 2), (3, s.x 3)] ++ [(31, s.sys .spEl0)])

theorem ofNat_add_sub (a n : Nat) : BitVec.ofNat 64 (a + n) - BitVec.ofNat 64 n = BitVec.ofNat 64 a := by
  rw [BitVec.ofNat_add]
  exact BitVec.add_sub_cancel _ _

section Stubs

variable {s : Cpu} {base n : Nat}

theorem exec_mrs_spEl0 {i : Fin 31} (hsel : s.pstate.getLsbD 0 = true) :
    exec s (.mrs i .spEl0) = some (s.setX i (s.sys .spEl0)) := by
  rw [exec, if_neg fun h => by rw [hsel] at h; exact absurd h.2 (by decide)]

theorem run_excStubEl1t (hsel : s.pstate.getLsbD 0 = true) (hsp : s.sys .spEl1 = BitVec.ofNat 64 (base + 8 * 102))
    (halign : base % 16 = 0) (hlt : base + 8 * 102 < 2 ^ 64) :
    run (excStubEl1t n) s = some ((((s.setSys .spEl1 (BitVec.ofNat 64 base)).setX 0 (BitVec.ofNat 64 n)).setX 1
      (BitVec.ofNat 64 base)).setMem (put s.mem base (stubWords s))) := by
  obtain ⟨t, ht⟩ : ∃ t, t = s.setSys .spEl1 (BitVec.ofNat 64 base) := ⟨_, rfl⟩
  have hsub : exec s (.subImm .sp 816) = some t := by
    show some (s.setSys s.spReg (s.sys s.spReg - BitVec.ofNat 64 (8 * 102))) = _
    rw [Cpu.spReg_eq_spEl1 hsel, hsp, ofNat_add_sub, ht]
  have htsp : t.sp = BitVec.ofNat 64 base := by
    rw [Cpu.sp, Cpu.spReg_eq_spEl1 (ht ▸ hsel), ht, Cpu.setSys_self]
  have hp : t.Points .sp base := ⟨htsp, fun _ => halign, by omega⟩
  have hpm : ∀ m, (t.setMem m).Points .sp base := fun m => ⟨htsp, fun _ => halign, by omega⟩
  have hpx : ∀ v m, ((t.setX 0 v).setMem m).Points .sp base := fun v m => ⟨htsp, fun _ => halign, by omega⟩
  have htsel : ∀ m, (t.setMem m).pstate.getLsbD 0 = true := fun m => ht ▸ hsel
  have hcode : excStubEl1t n = [.subImm .sp 816, .stp 0 1 ⟨.sp, 8 * 0⟩, .stp 2 3 ⟨.sp, 8 * 2⟩, .mrs 0 .spEl0,
    .str 0 ⟨.sp, 8 * 31⟩, .mov 1 .sp, .movImm 0 (BitVec.ofNat 64 n)] := rfl
  have hx : t.x = s.x ∧ t.mem = s.mem ∧ t.sys .spEl0 = s.sys .spEl0 := by
    rw [ht]
    exact ⟨rfl, rfl, Cpu.setSys_of_ne (by decide)⟩
  rw [hcode, run_cons_of_exec hsub, run_cons_of_exec (exec_stp hp (by omega)),
    run_cons_of_exec (exec_stp (hpm _) (by omega)), Cpu.setMem_setMem, run_cons_of_exec (exec_mrs_spEl0 (htsel _)),
    Cpu.setX_setMem, run_cons_of_exec (exec_str (hpx _ _) (by omega)), Cpu.setMem_setMem, run_cons_of_exec rfl,
    run_cons_of_exec rfl, run_nil]
  have hval : ∀ v m, ((t.setX 0 v).setMem m).val .sp = BitVec.ofNat 64 base := fun v m => (hpx v m).val
  simp only [hval, Cpu.mem_setMem, Cpu.x_setMem, Cpu.sys_setMem, Cpu.setX_self, hx.1, hx.2.1, hx.2.2, stubWords,
    put_append, Cpu.setX_setMem]
  rw [Cpu.setX_comm (by decide), Cpu.setX_setX, ht]

/-- Where the frame of an exception of a process goes, at `base`, and where its stub puts registers away, at `tramp`. -/
structure Room (s : Cpu) (base tramp : Nat) : Prop where
  tpidr : s.sys .tpidr = BitVec.ofNat 64 (base + 8 * 102)
  spEl1 : s.sys .spEl1 = BitVec.ofNat 64 (tramp + 8 * 4)
  align : base % 16 = 0
  alignTramp : tramp % 16 = 0
  lt : base + 8 * 102 < 2 ^ 64
  ltTramp : tramp + 8 * 4 < 2 ^ 64
  apart : tramp + 8 * 4 ≤ base ∨ base + 8 * 102 ≤ tramp

/-- The words that the stub of a process puts away. -/
def trampWords (s : Cpu) : List (Nat × Word) := [(0, s.x 0), (1, s.x 1)] ++ [(2, s.x 2), (3, s.x 3)]

theorem exec_scratch_ldp {v v' : Word} {m : Nat → Byte} {b : Base} {k : Nat} (h : (scratch s v v' m).Points b base)
    (hk : base + 8 * k < 2 ^ 64) : exec (scratch s v v' m) (.ldp 2 3 ⟨b, 8 * k⟩) =
      some (scratch s (slots m base k) (slots m base (k + 1)) m) := by
  have hset : ∀ w w', ((scratch s v v' m).setX 2 w).setX 3 w' = scratch s w w' m := by
    intro w w'
    unfold scratch Cpu.setX Cpu.setMem
    simp only
    rw [Function.update_comm (by decide), Function.update_idem, Function.update_comm (by decide), Function.update_idem,
      Function.update_comm (by decide)]
  rw [exec_ldp h hk, hset]
  rfl

variable {tramp : Nat}

/-- The stub of a process up to the address of its frame. -/
theorem run_stubPush (h : Room s base tramp) (hsel : s.pstate.getLsbD 0 = true) :
    run [.stpPush 0 1 32, .stp 2 3 ⟨.sp, 8 * 2⟩, .mrs 0 .spEl0, .mrs 1 .tpidr, .subImm (.x 1) 816] s =
      some ((((s.setSys .spEl1 (BitVec.ofNat 64 tramp)).setX 0 (s.sys .spEl0)).setX 1 (BitVec.ofNat 64 base)).setMem
        (put s.mem tramp (trampWords s))) := by
  have hltTramp := h.ltTramp
  obtain ⟨t, ht⟩ : ∃ t, t = s.setSys .spEl1 (BitVec.ofNat 64 tramp) := ⟨_, rfl⟩
  have hsp : s.sp = BitVec.ofNat 64 (tramp + 8 * 4) := by rw [Cpu.sp, Cpu.spReg_eq_spEl1 hsel, h.spEl1]
  have hpush : exec s (.stpPush 0 1 32) = some (t.setMem (put s.mem tramp [(0, s.x 0), (1, s.x 1)])) := by
    have halign : s.sp.toNat % 16 = 0 := by
      have := h.alignTramp
      rw [hsp, BitVec.toNat_ofNat, Nat.mod_eq_of_lt hltTramp]
      omega
    have hset : s.set .sp (BitVec.ofNat 64 tramp) = t := by
      show s.setSys s.spReg _ = t
      rw [Cpu.spReg_eq_spEl1 hsel, ht]
    have htmem : t.mem = s.mem := by rw [ht, Cpu.mem_setSys]
    rw [exec, if_pos halign, hsp, ofNat_add_sub _ 32]
    dsimp only
    rw [hset, BitVec.toNat_ofNat, Nat.mod_eq_of_lt (by omega), ← htmem]
    rfl
  have htsp : t.sp = BitVec.ofNat 64 tramp := by
    rw [Cpu.sp, Cpu.spReg_eq_spEl1 (ht ▸ hsel), ht, Cpu.setSys_self]
  have hp : ∀ m, (t.setMem m).Points .sp tramp := fun m => ⟨htsp, fun _ => h.alignTramp, by omega⟩
  have htsys : t.x = s.x ∧ t.sys .spEl0 = s.sys .spEl0 ∧ t.sys .tpidr = BitVec.ofNat 64 (base + 8 * 102) := by
    rw [ht, ← h.tpidr]
    exact ⟨rfl, Cpu.setSys_of_ne (by decide), Cpu.setSys_of_ne (by decide)⟩
  have hsub : ∀ v m, exec (((t.setX 0 v).setX 1 (BitVec.ofNat 64 (base + 8 * 102))).setMem m) (.subImm (.x 1) 816) =
      some (((t.setX 0 v).setX 1 (BitVec.ofNat 64 base)).setMem m) := by
    intro v m
    show some (Cpu.setX _ 1 (Cpu.x _ 1 - BitVec.ofNat 64 (8 * 102))) = _
    rw [Cpu.x_setMem, Cpu.setX_self, ofNat_add_sub, Cpu.setX_setMem, Cpu.setX_setX]
  rw [run_cons_of_exec hpush, run_cons_of_exec (exec_stp (hp _) (by omega)), Cpu.setMem_setMem,
    run_cons_of_exec (exec_mrs_spEl0 (by rw [ht]; exact hsel)), Cpu.setX_setMem, run_cons_of_exec rfl, Cpu.setX_setMem,
    Cpu.sys_setMem, Cpu.sys_setMem, Cpu.sys_setX, htsys.2.1, htsys.2.2, run_cons_of_exec (hsub _ _), run_nil, ht]
  rfl

theorem run_excStubEl0 (h : Room s base tramp) (hsel : s.pstate.getLsbD 0 = true) :
    run (excStubEl0 n) s = some (((s.setX 0 (BitVec.ofNat 64 n)).setX 1 (BitVec.ofNat 64 base)).setMem
      (put (put s.mem tramp (trampWords s)) base ([(31, s.sys .spEl0)] ++ ([(0, s.x 0), (1, s.x 1)] ++
        [(2, s.x 2), (3, s.x 3)])))) := by
  have hapart := h.apart
  have hlt := h.lt
  have hltTramp := h.ltTramp
  obtain ⟨u, hu⟩ : ∃ u, u = ((s.setSys .spEl1 (BitVec.ofNat 64 tramp)).setX 0 (s.sys .spEl0)).setX 1
    (BitVec.ofNat 64 base) := ⟨_, rfl⟩
  have hu1 : u.x 1 = BitVec.ofNat 64 base := by rw [hu, Cpu.setX_self]
  have husp : u.sp = BitVec.ofNat 64 tramp := by
    rw [hu, Cpu.sp_setX, Cpu.sp_setX, Cpu.sp, Cpu.spReg_eq_spEl1 (by exact hsel), Cpu.setSys_self]
  have hp : ∀ {v v' m}, (scratch u v v' m).Points .sp tramp := ⟨husp, fun _ => h.alignTramp, by omega⟩
  have hcode : excStubEl0 n =
    [.stpPush 0 1 32, .stp 2 3 ⟨.sp, 8 * 2⟩, .mrs 0 .spEl0, .mrs 1 .tpidr, .subImm (.x 1) 816] ++
    [.str 0 ⟨.x 1, 8 * 31⟩, .ldp 2 3 ⟨.sp, 8 * 0⟩, .stp 2 3 ⟨.x 1, 8 * 0⟩, .ldp 2 3 ⟨.sp, 8 * 2⟩,
      .stp 2 3 ⟨.x 1, 8 * 2⟩, .addImm .sp 32, .movImm 0 (BitVec.ofNat 64 n)] := rfl
  have hstart : ∀ m, scratch u (s.x 2) (s.x 3) m = u.setMem m := by
    intro m
    have hu23 : u.x 2 = s.x 2 ∧ u.x 3 = s.x 3 := by
      rw [hu, Cpu.setX_of_ne (by decide), Cpu.setX_of_ne (by decide), Cpu.setX_of_ne (by decide),
        Cpu.setX_of_ne (by decide)]
      exact ⟨rfl, rfl⟩
    rw [scratch, Cpu.setX_eq_self hu23.1, Cpu.setX_eq_self hu23.2]
  have hstr : ∀ {v v' m}, exec (scratch u v v' m) (.str 0 ⟨.x 1, 8 * 31⟩) =
      some (scratch u v v' (put m base [(31, s.sys .spEl0)])) := by
    intro v v' m
    rw [exec_str (points_scratch hu1 hlt) (by omega), x_scratch (by decide) (by decide), hu,
      Cpu.setX_of_ne (by decide), Cpu.setX_self]
    rfl
  have hslot : ∀ ts k, (∀ j ∈ ts.map Prod.fst, j < 102) → k < 4 →
      slots (put (put s.mem tramp (trampWords s)) base ts) tramp k = store (slots s.mem tramp) (trampWords s) k := by
    intro ts k hts hk
    rw [slots_put_apart hts (by omega), slots_put]
  rw [hcode, run_append_of_run (run_stubPush h hsel), ← hu, ← hstart, run_cons_of_exec hstr,
    run_cons_of_exec (exec_scratch_ldp hp (by omega)), run_cons_of_exec (exec_scratch_stp hu1 hlt (by decide)),
    run_cons_of_exec (exec_scratch_ldp hp (by omega)), run_cons_of_exec (exec_scratch_stp hu1 hlt (by decide))]
  rw [hslot _ 0 (by simp) (by decide), hslot _ 1 (by simp) (by decide), ← put_append, hslot _ 2 (by simp) (by decide),
    hslot _ 3 (by simp) (by decide), ← put_append]
  have hword : store (slots s.mem tramp) (trampWords s) 0 = s.x 0 ∧ store (slots s.mem tramp) (trampWords s) 1 = s.x 1 ∧
      store (slots s.mem tramp) (trampWords s) 2 = s.x 2 ∧ store (slots s.mem tramp) (trampWords s) 3 = s.x 3 :=
    ⟨rfl, rfl, rfl, rfl⟩
  have hadd : ∀ m, exec (u.setMem m) (.addImm .sp 32) =
      some (((s.setX 0 (s.sys .spEl0)).setX 1 (BitVec.ofNat 64 base)).setMem m) := by
    intro m
    show some (Cpu.setSys _ (Cpu.spReg _) (Cpu.sp _ + BitVec.ofNat 64 32)) = _
    rw [Cpu.spReg_eq_spEl1 (by rw [hu]; exact hsel), Cpu.sp_setMem, husp, ← BitVec.ofNat_add, ← h.spEl1, hu,
      Cpu.setSys_setMem, Cpu.setSys_setX, Cpu.setSys_setX, Cpu.setSys_setSys, Cpu.setSys_eq_self rfl]
  rw [hword.1, hword.2.1, hword.2.2.1, hword.2.2.2, hstart, run_cons_of_exec (hadd _), run_cons_of_exec rfl, run_nil,
    Cpu.setX_setMem, Cpu.setX_comm (by decide), Cpu.setX_setX, List.append_assoc]

end Stubs

/-! ### Exceptions up to the call -/

/-- The state in which the handler is called for exception `n` of the state `s`. -/
structure Handling (s : Cpu) (n : Nat) (esr far : Word) (base : Nat) (s₁ : Cpu) : Prop where
  x0 : s₁.x 0 = BitVec.ofNat 64 n
  x1 : s₁.x 1 = BitVec.ofNat 64 base
  spSel : s₁.pstate.getLsbD 0 = false
  spEl0 : s₁.sys .spEl0 = BitVec.ofNat 64 base
  tpidr : s₁.sys .tpidr = s.sys .tpidr
  frame : frameAt s₁.mem base = frameOf (savedWord s esr far)

section Taken

variable (s : Cpu) (n : Nat) (vector esr far : Word) {base tramp : Nat}

/-- The state behind the stub of exception `n`, with the memory `m` outside of the frame. -/
structure Stubbed (base : Nat) (m : Nat → Byte) (t : Cpu) : Prop where
  x0 : t.x 0 = BitVec.ofNat 64 n
  x1 : t.x 1 = BitVec.ofNat 64 base
  x : ∀ i : Fin 31, 4 ≤ i.val → t.x i = s.x i
  q : t.q = s.q
  spSel : t.pstate.getLsbD 0 = true
  sys : ∀ r, r ≠ .spEl1 → t.sys r = (takeException vector esr far s).sys r
  mem : ∃ ts, t.mem = put m base ts ∧ (∀ u ∈ ts, u.2 = savedWord s esr far u.1) ∧
    ∀ k, k ∈ ts.map Prod.fst ↔ k < 4 ∨ k = 31

variable {s n vector esr far}

theorem Stubbed.handling {m : Nat → Byte} {t : Cpu} (h : Stubbed s n vector esr far base m t)
    (hlt : base + 8 * 102 < 2 ^ 64) : ∃ s₁, run excEntry t = some s₁ ∧ Handling s n esr far base s₁ ∧
      s₁.sys .spEl1 = t.sys .spEl1 ∧ ∀ x, x < base ∨ base + 8 * 102 ≤ x → s₁.mem x = m x := by
  obtain ⟨s₁, hrun, hcalled⟩ := called_excEntry h.x1 hlt h.spSel
  obtain ⟨ts, hts, hsaved, hkeys⟩ := h.mem
  have hmem : s₁.mem = put m base (ts ++ entryWords t) := by rw [hcalled.mem, put_append, hts]
  have hentry : ∀ u ∈ entryWords t, u.2 = savedWord s esr far u.1 :=
    entryWords_saved h.x h.q (h.sys .elr (by decide)) (h.sys .spsr (by decide)) (h.sys .esr (by decide))
      (h.sys .far (by decide)) (h.sys .fpcr (by decide)) (h.sys .fpsr (by decide))
  have hall : ∀ k, k ∈ (ts ++ entryWords t).map Prod.fst ↔ k < 102 := by
    intro k
    rw [List.map_append, List.mem_append, hkeys, mem_map_fst_entryWords]
    omega
  refine ⟨s₁, hrun, ⟨hcalled.x0.trans h.x0, hcalled.x1, hcalled.spSel, hcalled.spEl0, ?_, ?_⟩, hcalled.spEl1, ?_⟩
  · rw [hcalled.tpidr, h.sys .tpidr (by decide)]
    rfl
  · rw [hmem]
    exact frameAt_put (List.forall_mem_append.mpr ⟨hsaved, hentry⟩) fun k hk => (hall k).mpr hk
  · intro x hx
    rw [hmem]
    exact put_other (fun k hk => (hall k).mp hk) hx

variable (s n vector esr far)

/-- An exception of the kernel up to the call of the handler. -/
theorem handling_el1t (hsp : s.sys .spEl1 = BitVec.ofNat 64 (base + 8 * 102)) (halign : base % 16 = 0)
    (hlt : base + 8 * 102 < 2 ^ 64) : ∃ s₁, run (excStubEl1t n ++ excEntry) (takeException vector esr far s) = some s₁ ∧
      Handling s n esr far base s₁ ∧ s₁.sys .spEl1 = BitVec.ofNat 64 base ∧
      ∀ x, x < base ∨ base + 8 * 102 ≤ x → s₁.mem x = s.mem x := by
  obtain ⟨t, ht⟩ : ∃ t, t = ((((takeException vector esr far s).setSys .spEl1 (BitVec.ofNat 64 base)).setX 0
    (BitVec.ofNat 64 n)).setX 1 (BitVec.ofNat 64 base)).setMem
      (put s.mem base (stubWords (takeException vector esr far s))) := ⟨_, rfl⟩
  have hstub : run (excStubEl1t n) (takeException vector esr far s) = some t := by
    rw [ht]
    exact run_excStubEl1t (spSel_takeException vector esr far s) hsp halign hlt
  have hstubbed : Stubbed s n vector esr far base s.mem t := by
    constructor
    · rw [ht, Cpu.x_setMem, Cpu.setX_of_ne (by decide), Cpu.setX_self]
    · rw [ht, Cpu.x_setMem, Cpu.setX_self]
    · intro i hi
      rw [ht, Cpu.x_setMem, Cpu.setX_of_ne (by omega), Cpu.setX_of_ne (by omega)]
      rfl
    · rw [ht]
      rfl
    · rw [ht]
      exact spSel_takeException vector esr far s
    · intro r hr
      rw [ht, Cpu.sys_setMem, Cpu.sys_setX, Cpu.sys_setX, Cpu.setSys_of_ne hr]
    · refine ⟨_, by rw [ht, Cpu.mem_setMem], ?_, ?_⟩
      · simp only [stubWords, List.forall_mem_append, List.forall_mem_cons, List.not_mem_nil, false_imp_iff,
          implies_true, and_true]
        exact ⟨⟨rfl, rfl⟩, ⟨rfl, rfl⟩, rfl⟩
      · intro k
        simp [stubWords]
        omega
  obtain ⟨s₁, hrun, hhandling, hspEl1, hother⟩ := hstubbed.handling hlt
  refine ⟨s₁, (run_append_of_run hstub).trans hrun, hhandling, ?_, hother⟩
  rw [hspEl1, ht, Cpu.sys_setMem, Cpu.sys_setX, Cpu.sys_setX, Cpu.setSys_self]

/-- An exception of a process up to the call of the handler. -/
theorem handling_el0 (h : Room s base tramp) :
    ∃ s₁, run (excStubEl0 n ++ excEntry) (takeException vector esr far s) = some s₁ ∧
      Handling s n esr far base s₁ ∧ s₁.sys .spEl1 = s.sys .spEl1 ∧
      ∀ x, x < base ∨ base + 8 * 102 ≤ x → x < tramp ∨ tramp + 8 * 4 ≤ x → s₁.mem x = s.mem x := by
  obtain ⟨e, he⟩ : ∃ e, e = takeException vector esr far s := ⟨_, rfl⟩
  obtain ⟨t, ht⟩ : ∃ t, t = ((e.setX 0 (BitVec.ofNat 64 n)).setX 1 (BitVec.ofNat 64 base)).setMem
    (put (put s.mem tramp (trampWords e)) base ([(31, e.sys .spEl0)] ++ ([(0, e.x 0), (1, e.x 1)] ++
      [(2, e.x 2), (3, e.x 3)]))) := ⟨_, rfl⟩
  have hsel : e.pstate.getLsbD 0 = true := he ▸ spSel_takeException vector esr far s
  have hstub : run (excStubEl0 n) e = some t := by
    have hroom : Room e base tramp := he ▸ ⟨h.tpidr, h.spEl1, h.align, h.alignTramp, h.lt, h.ltTramp, h.apart⟩
    have hmem : e.mem = s.mem := by rw [he]; rfl
    rw [run_excStubEl0 hroom hsel, ht, hmem]
  have hstubbed : Stubbed s n vector esr far base (put s.mem tramp (trampWords e)) t := by
    constructor
    · rw [ht, Cpu.x_setMem, Cpu.setX_of_ne (by decide), Cpu.setX_self]
    · rw [ht, Cpu.x_setMem, Cpu.setX_self]
    · intro i hi
      rw [ht, Cpu.x_setMem, Cpu.setX_of_ne (by omega), Cpu.setX_of_ne (by omega), he]
      rfl
    · rw [ht, he]
      rfl
    · rw [ht]
      exact hsel
    · intro r _
      rw [ht, Cpu.sys_setMem, Cpu.sys_setX, Cpu.sys_setX, he]
    · refine ⟨_, by rw [ht, Cpu.mem_setMem], ?_, ?_⟩
      · rw [he]
        simp only [List.forall_mem_append, List.forall_mem_cons, List.not_mem_nil, false_imp_iff, implies_true,
          and_true]
        exact ⟨rfl, ⟨rfl, rfl⟩, rfl, rfl⟩
      · intro k
        simp
        omega
  obtain ⟨s₁, hrun, hhandling, hspEl1, hother⟩ := hstubbed.handling h.lt
  refine ⟨s₁, he ▸ (run_append_of_run hstub).trans hrun, hhandling, ?_, fun x hx hxt => ?_⟩
  · rw [hspEl1, ht, he]
    rfl
  · rw [hother x hx]
    exact put_other (by simp [trampWords]) hxt

end Taken

end TrapAarch64

end UnixKernel
