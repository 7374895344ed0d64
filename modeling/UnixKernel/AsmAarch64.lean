import Mathlib.Algebra.Order.Ring.Nat
import UnixKernel.WordSlots

/-! The part of the `AArch64` instruction set that code at the edge of an exception uses: pairs of registers that are
stored and loaded, the system registers, the choice of the stack pointer, and the ways in and out of an exception
level. An instruction either changes the state or faults. Runs of stores and of loads have one rule each. -/

namespace UnixKernel.AsmAarch64

open ByteWords WordSlots

inductive SysReg where
  | spEl0 | spEl1 | elr | spsr | esr | far | tpidr | fpcr | fpsr
  deriving DecidableEq, Repr

/-- The state of a processor and of the memory as its code sees it. -/
structure Cpu where
  x : Fin 31 → BitVec 64
  q : Fin 32 → BitVec 128
  pc : BitVec 64
  pstate : BitVec 64
  sys : SysReg → BitVec 64
  mem : Nat → BitVec 8

inductive Base where
  | x (i : Fin 31)
  | sp
  deriving DecidableEq, Repr

/-- `[base, #off]`. -/
structure Operand where
  base : Base
  off : Nat

inductive Instr where
  | stp (i j : Fin 31) (a : Operand)
  /-- `stp i, j, [sp, #-n]!`. -/
  | stpPush (i j : Fin 31) (n : Nat)
  | str (i : Fin 31) (a : Operand)
  | ldp (i j : Fin 31) (a : Operand)
  | ldr (i : Fin 31) (a : Operand)
  | stpq (i j : Fin 32) (a : Operand)
  | ldpq (i j : Fin 32) (a : Operand)
  | addImm (b : Base) (n : Nat)
  | subImm (b : Base) (n : Nat)
  | mov (i : Fin 31) (b : Base)
  | movImm (i : Fin 31) (v : BitVec 64)
  | mrs (i : Fin 31) (r : SysReg)
  | msr (r : SysReg) (i : Fin 31)
  /-- `msr spsel, #n`. -/
  | spsel (b : Bool)
  | tst (i : Fin 31) (v : BitVec 64)

/-- A word with one bit replaced. -/
def withBit (w : BitVec 64) (i : Nat) (b : Bool) : BitVec 64 :=
  if b then w ||| BitVec.twoPow 64 i else w &&& ~~~BitVec.twoPow 64 i

theorem getLsbD_withBit {i j : Nat} (hj : j < 64) (w : BitVec 64) (b : Bool) :
    (withBit w i b).getLsbD j = if j = i then b else w.getLsbD j := by
  unfold withBit
  by_cases hij : j = i
  · subst hij
    cases b <;> simp [hj]
  · cases b <;> simp [hij, hj]

namespace Cpu

variable (s : Cpu)

def setX (i : Fin 31) (v : BitVec 64) : Cpu := { s with x := Function.update s.x i v }

def setXs (ts : List (Fin 31 × BitVec 64)) : Cpu := { s with x := store s.x ts }

def setQ (q : Fin 32 → BitVec 128) : Cpu := { s with q := q }

def setSys (r : SysReg) (v : BitVec 64) : Cpu := { s with sys := Function.update s.sys r v }

def setMem (m : Nat → BitVec 8) : Cpu := { s with mem := m }

def setPstate (v : BitVec 64) : Cpu := { s with pstate := v }

/-- The stack pointer that `sp` names. -/
def spReg : SysReg := if s.pstate.getLsbD 0 then .spEl1 else .spEl0

def sp : BitVec 64 := s.sys s.spReg

def val : Base → BitVec 64
  | .x i => s.x i
  | .sp => s.sp

def set : Base → BitVec 64 → Cpu
  | .x i, v => s.setX i v
  | .sp, v => s.setSys s.spReg v

/-- The address of an operand; an access through a stack pointer that is not aligned faults. -/
def addr (a : Operand) : Option Nat :=
  if a.base = .sp ∧ s.sp.toNat % 16 ≠ 0 then none else some (s.val a.base + BitVec.ofNat 64 a.off).toNat

def word (a : Nat) : BitVec 64 := readWord s.mem a

def setWord (a : Nat) (v : BitVec 64) : Cpu := s.setMem (writeWord s.mem a v)

variable {s} {i j : Fin 31} {v w : BitVec 64} {m m' : Nat → BitVec 8} {r r' : SysReg}

@[simp] theorem setX_self : (s.setX i v).x i = v := by
  unfold setX
  exact Function.update_self ..

theorem setX_of_ne (h : j ≠ i) : (s.setX i v).x j = s.x j := by
  unfold setX
  exact Function.update_of_ne h ..

@[simp] theorem setSys_self : (s.setSys r v).sys r = v := by
  unfold setSys
  exact Function.update_self ..

theorem setSys_of_ne (h : r' ≠ r) : (s.setSys r v).sys r' = s.sys r' := by
  unfold setSys
  exact Function.update_of_ne h ..

theorem sp_eq_spEl0 (h : s.pstate.getLsbD 0 = false) : s.sp = s.sys .spEl0 := by
  unfold sp spReg
  rw [h]
  rfl

theorem spReg_eq_spEl1 (h : s.pstate.getLsbD 0 = true) : s.spReg = .spEl1 := by
  unfold spReg
  rw [h]
  rfl

theorem sp_setSys (h : r ≠ .spEl0) (h' : r ≠ .spEl1) : (s.setSys r v).sp = s.sp := by
  have hne : s.spReg ≠ r := by
    unfold spReg
    split
    · exact h'.symm
    · exact h.symm
  exact setSys_of_ne hne

@[simp] theorem mem_setX : (s.setX i v).mem = s.mem := rfl
@[simp] theorem q_setX : (s.setX i v).q = s.q := rfl
@[simp] theorem sys_setX : (s.setX i v).sys = s.sys := rfl
@[simp] theorem sp_setX : (s.setX i v).sp = s.sp := rfl
@[simp] theorem mem_setXs (ts : List (Fin 31 × BitVec 64)) : (s.setXs ts).mem = s.mem := rfl
@[simp] theorem mem_setMem : (s.setMem m).mem = m := rfl
@[simp] theorem x_setMem : (s.setMem m).x = s.x := rfl
@[simp] theorem q_setMem : (s.setMem m).q = s.q := rfl
@[simp] theorem sys_setMem : (s.setMem m).sys = s.sys := rfl
@[simp] theorem sp_setMem : (s.setMem m).sp = s.sp := rfl
@[simp] theorem mem_setSys : (s.setSys r v).mem = s.mem := rfl
@[simp] theorem x_setSys : (s.setSys r v).x = s.x := rfl
@[simp] theorem q_setSys : (s.setSys r v).q = s.q := rfl
@[simp] theorem mem_setPstate : (s.setPstate v).mem = s.mem := rfl
@[simp] theorem x_setPstate : (s.setPstate v).x = s.x := rfl
@[simp] theorem sys_setPstate : (s.setPstate v).sys = s.sys := rfl
@[simp] theorem setMem_setMem : (s.setMem m).setMem m' = s.setMem m' := rfl
@[simp] theorem setX_setMem : (s.setMem m).setX i v = (s.setX i v).setMem m := rfl
@[simp] theorem setSys_setMem : (s.setMem m).setSys r v = (s.setSys r v).setMem m := rfl
@[simp] theorem setSys_setX : (s.setX i v).setSys r w = (s.setSys r w).setX i v := rfl

@[simp] theorem setX_setX : (s.setX i v).setX i w = s.setX i w := by
  unfold setX
  rw [Function.update_idem]

theorem setX_comm (h : i ≠ j) : (s.setX i v).setX j w = (s.setX j w).setX i v := by
  unfold setX
  rw [Function.update_comm h]

theorem setX_eq_self (h : s.x i = v) : s.setX i v = s := by
  unfold setX
  rw [← h, Function.update_eq_self]

theorem setSys_eq_self (h : s.sys r = v) : s.setSys r v = s := by
  unfold setSys
  rw [← h, Function.update_eq_self]

@[simp] theorem setSys_setSys : (s.setSys r v).setSys r w = s.setSys r w := by
  unfold setSys
  rw [Function.update_idem]

theorem setX_eq_setXs : s.setX i v = s.setXs [(i, v)] := rfl

theorem setXs_setXs (ts us : List (Fin 31 × BitVec 64)) : (s.setXs ts).setXs us = s.setXs (ts ++ us) := by
  unfold setXs
  rw [store_append]

end Cpu

/-- What an instruction does at the exception level of the kernel; `none` is a fault. The stack pointer of the processes
can be accessed by its name only while it is not in use. -/
def exec (s : Cpu) : Instr → Option Cpu
  | .stp i j a => (s.addr a).map fun d => (s.setWord d (s.x i)).setWord (d + 8) (s.x j)
  | .stpPush i j n =>
      if s.sp.toNat % 16 = 0 then
        let d := s.sp - BitVec.ofNat 64 n
        some (((s.set .sp d).setWord d.toNat (s.x i)).setWord (d.toNat + 8) (s.x j))
      else none
  | .str i a => (s.addr a).map fun d => s.setWord d (s.x i)
  | .ldp i j a => (s.addr a).map fun d => (s.setX i (s.word d)).setX j (s.word (d + 8))
  | .ldr i a => (s.addr a).map fun d => s.setX i (s.word d)
  | .stpq i j a => (s.addr a).map fun d =>
      (((s.setWord d (low (s.q i))).setWord (d + 8) (high (s.q i))).setWord (d + 16) (low (s.q j))).setWord (d + 24)
        (high (s.q j))
  | .ldpq i j a => (s.addr a).map fun d =>
      s.setQ (Function.update (Function.update s.q i (join (s.word d) (s.word (d + 8)))) j
        (join (s.word (d + 16)) (s.word (d + 24))))
  | .addImm b n => some (s.set b (s.val b + BitVec.ofNat 64 n))
  | .subImm b n => some (s.set b (s.val b - BitVec.ofNat 64 n))
  | .mov i b => some (s.setX i (s.val b))
  | .movImm i v => some (s.setX i v)
  | .mrs i r => if r = .spEl0 ∧ s.pstate.getLsbD 0 = false then none else some (s.setX i (s.sys r))
  | .msr r i => if r = .spEl0 ∧ s.pstate.getLsbD 0 = false then none else some (s.setSys r (s.x i))
  | .spsel b => some (s.setPstate (withBit s.pstate 0 b))
  | .tst i v =>
      -- the flags N, Z, C and V
      some (s.setPstate (withBit (withBit (withBit (withBit s.pstate 31 (s.x i &&& v).msb) 30 (s.x i &&& v == 0))
        29 false) 28 false))

def run (code : List Instr) (s : Cpu) : Option Cpu := code.foldlM exec s

/-- The condition of `b.ne`. -/
def Cpu.ne (s : Cpu) : Bool := !s.pstate.getLsbD 30

/-- An exception that the kernel takes: its exceptions are masked and it is on its own stack pointer. -/
def takeException (vector esr far : BitVec 64) (s : Cpu) : Cpu :=
  { s with
    sys := Function.update (Function.update (Function.update (Function.update s.sys .elr s.pc) .spsr s.pstate) .esr esr)
      .far far
    pc := vector
    pstate := 0x3c5 }

theorem spSel_takeException (vector esr far : BitVec 64) (s : Cpu) :
    (takeException vector esr far s).pstate.getLsbD 0 = true := by
  show (0x3c5 : BitVec 64).getLsbD 0 = true
  decide

/-- The return from an exception. -/
def eret (s : Cpu) : Cpu := { s with pc := s.sys .elr, pstate := s.sys .spsr }

@[simp] theorem mem_eret (s : Cpu) : (eret s).mem = s.mem := rfl

/-! ### Rules -/

variable {s s' : Cpu} {base : Nat} {b : Base}

@[simp] theorem run_nil (s : Cpu) : run [] s = some s := rfl

theorem run_cons (i : Instr) (code : List Instr) (s : Cpu) : run (i :: code) s = (exec s i).bind (run code) := rfl

theorem run_append (code code' : List Instr) (s : Cpu) : run (code ++ code') s = (run code s).bind (run code') :=
  List.foldlM_append

theorem run_cons_of_exec {i : Instr} {code : List Instr} (h : exec s i = some s') :
    run (i :: code) s = run code s' := by
  rw [run_cons, h]
  rfl

theorem run_append_of_run {code code' : List Instr} (h : run code s = some s') :
    run (code ++ code') s = run code' s' := by
  rw [run_append, h]
  rfl

/-- A base register holds an address that can be accessed through it. -/
structure Cpu.Points (s : Cpu) (b : Base) (base : Nat) : Prop where
  val : s.val b = BitVec.ofNat 64 base
  align : b = .sp → base % 16 = 0
  lt : base < 2 ^ 64

theorem Cpu.Points.addr {k : Nat} (h : s.Points b base) (hk : base + 8 * k < 2 ^ 64) :
    s.addr ⟨b, 8 * k⟩ = some (base + 8 * k) := by
  have hsp : ¬(b = .sp ∧ s.sp.toNat % 16 ≠ 0) := by
    rintro ⟨rfl, hodd⟩
    have hval : s.sp = BitVec.ofNat 64 base := h.val
    rw [hval, BitVec.toNat_ofNat, Nat.mod_eq_of_lt h.lt] at hodd
    exact hodd (h.align rfl)
  unfold Cpu.addr
  rw [if_neg hsp, h.val, ← BitVec.ofNat_add, BitVec.toNat_ofNat, Nat.mod_eq_of_lt hk]

theorem exec_str {i : Fin 31} {k : Nat} (h : s.Points b base) (hk : base + 8 * k < 2 ^ 64) :
    exec s (.str i ⟨b, 8 * k⟩) = some (s.setMem (put s.mem base [(k, s.x i)])) := by
  rw [exec, h.addr hk]
  rfl

theorem exec_ldr {i : Fin 31} {k : Nat} (h : s.Points b base) (hk : base + 8 * k < 2 ^ 64) :
    exec s (.ldr i ⟨b, 8 * k⟩) = some (s.setX i (slots s.mem base k)) := by
  rw [exec, h.addr hk]
  rfl

theorem exec_stp {i j : Fin 31} {k : Nat} (h : s.Points b base) (hk : base + 8 * k < 2 ^ 64) :
    exec s (.stp i j ⟨b, 8 * k⟩) = some (s.setMem (put s.mem base [(k, s.x i), (k + 1, s.x j)])) := by
  rw [exec, h.addr hk]
  rfl

theorem exec_ldp {i j : Fin 31} {k : Nat} (h : s.Points b base) (hk : base + 8 * k < 2 ^ 64) :
    exec s (.ldp i j ⟨b, 8 * k⟩) = some ((s.setX i (slots s.mem base k)).setX j (slots s.mem base (k + 1))) := by
  rw [exec, h.addr hk]
  rfl

/-- Pairs of registers with the slots that they have. -/
abbrev Pairs (n : Nat) := List (Fin n × Fin n × Nat)

/-- What pairs that are stored leave in their slots. -/
def pairWords (x : Fin 31 → BitVec 64) (ps : Pairs 31) : List (Nat × BitVec 64) :=
  ps.flatMap fun t => [(t.2.2, x t.1), (t.2.2 + 1, x t.2.1)]

theorem run_stps {ps : Pairs 31} (h : s.Points b base) (hlt : ∀ t ∈ ps, base + 8 * t.2.2 < 2 ^ 64) :
    run (ps.map fun t => .stp t.1 t.2.1 ⟨b, 8 * t.2.2⟩) s = some (s.setMem (put s.mem base (pairWords s.x ps))) := by
  induction ps generalizing s with
  | nil => rfl
  | cons t ps ih =>
      rw [List.forall_mem_cons] at hlt
      rw [List.map_cons, run_cons_of_exec (exec_stp h hlt.1), pairWords, List.flatMap_cons, put_append]
      exact ih ⟨h.val, h.align, h.lt⟩ hlt.2

/-- What pairs that are loaded leave in the registers. -/
def pairRegs (w : Nat → BitVec 64) (ps : Pairs 31) : List (Fin 31 × BitVec 64) :=
  ps.flatMap fun t => [(t.1, w t.2.2), (t.2.1, w (t.2.2 + 1))]

theorem run_ldps {i : Fin 31} {ps : Pairs 31} (h : s.Points (.x i) base) (hi : ∀ t ∈ ps, i ≠ t.1 ∧ i ≠ t.2.1)
    (hlt : ∀ t ∈ ps, base + 8 * t.2.2 < 2 ^ 64) :
    run (ps.map fun t => .ldp t.1 t.2.1 ⟨.x i, 8 * t.2.2⟩) s = some (s.setXs (pairRegs (slots s.mem base) ps)) := by
  induction ps generalizing s with
  | nil => rfl
  | cons t ps ih =>
      rw [List.forall_mem_cons] at hlt hi
      have hval : ∀ v v', ((s.setX t.1 v).setX t.2.1 v').x i = BitVec.ofNat 64 base := by
        intro v v'
        rw [Cpu.setX_of_ne hi.1.2, Cpu.setX_of_ne hi.1.1]
        exact h.val
      rw [List.map_cons, run_cons_of_exec (exec_ldp h hlt.1), ih ⟨hval _ _, h.align, h.lt⟩ hi.2 hlt.2]
      rfl

/-- What pairs of vector registers that are stored leave in their slots. -/
def vecWords (q : Fin 32 → BitVec 128) (ps : Pairs 32) : List (Nat × BitVec 64) :=
  ps.flatMap fun t => [(t.2.2, low (q t.1)), (t.2.2 + 1, high (q t.1)), (t.2.2 + 2, low (q t.2.1)),
    (t.2.2 + 3, high (q t.2.1))]

theorem run_stpqs {ps : Pairs 32} (h : s.Points b base) (hlt : ∀ t ∈ ps, base + 8 * t.2.2 < 2 ^ 64) :
    run (ps.map fun t => .stpq t.1 t.2.1 ⟨b, 8 * t.2.2⟩) s = some (s.setMem (put s.mem base (vecWords s.q ps))) := by
  induction ps generalizing s with
  | nil => rfl
  | cons t ps ih =>
      rw [List.forall_mem_cons] at hlt
      have hstep : exec s (.stpq t.1 t.2.1 ⟨b, 8 * t.2.2⟩) = some (s.setMem (put s.mem base
          [(t.2.2, low (s.q t.1)), (t.2.2 + 1, high (s.q t.1)), (t.2.2 + 2, low (s.q t.2.1)),
            (t.2.2 + 3, high (s.q t.2.1))])) := by
        rw [exec, h.addr hlt.1]
        rfl
      rw [List.map_cons, run_cons_of_exec hstep, vecWords, List.flatMap_cons, put_append]
      exact ih ⟨h.val, h.align, h.lt⟩ hlt.2

/-- What pairs of vector registers that are loaded leave in the registers. -/
def vecRegs (w : Nat → BitVec 64) (ps : Pairs 32) : List (Fin 32 × BitVec 128) :=
  ps.flatMap fun t => [(t.1, join (w t.2.2) (w (t.2.2 + 1))), (t.2.1, join (w (t.2.2 + 2)) (w (t.2.2 + 3)))]

theorem run_ldpqs {ps : Pairs 32} (h : s.Points b base) (hlt : ∀ t ∈ ps, base + 8 * t.2.2 < 2 ^ 64) :
    run (ps.map fun t => .ldpq t.1 t.2.1 ⟨b, 8 * t.2.2⟩) s =
      some (s.setQ (store s.q (vecRegs (slots s.mem base) ps))) := by
  induction ps generalizing s with
  | nil => rfl
  | cons t ps ih =>
      rw [List.forall_mem_cons] at hlt
      have hstep : exec s (.ldpq t.1 t.2.1 ⟨b, 8 * t.2.2⟩) = some (s.setQ (store s.q
          [(t.1, join (slots s.mem base t.2.2) (slots s.mem base (t.2.2 + 1))),
            (t.2.1, join (slots s.mem base (t.2.2 + 2)) (slots s.mem base (t.2.2 + 3)))])) := by
        rw [exec, h.addr hlt.1]
        rfl
      rw [List.map_cons, run_cons_of_exec hstep, vecRegs, List.flatMap_cons, store_append]
      exact ih ⟨h.val, h.align, h.lt⟩ hlt.2

end UnixKernel.AsmAarch64
