import Mathlib.Algebra.Order.Ring.Nat
import UnixKernel.WordSlots

/-! The part of the `x86-64` instruction set that code at the edge of an exception uses: pushes and pops, loads, the
vector registers and their control word, the two `gs` bases, and the ways in and out of a privilege level. An
instruction either changes the state or faults. Runs of pushes, pops, loads and vector moves have one rule each. -/

namespace UnixKernel.AsmAmd64

open ByteWords WordSlots

inductive Gpr where
  | rax | rbx | rcx | rdx | rsi | rdi | rbp | rsp
  | r8 | r9 | r10 | r11 | r12 | r13 | r14 | r15
  deriving DecidableEq, Repr

/-- The state of a processor and of the memory as its code sees it. The upper half of the vector control word is
reserved and always zero. -/
structure Cpu where
  gpr : Gpr → BitVec 64
  xmm : Fin 16 → BitVec 128
  mxcsr : BitVec 16
  rip : BitVec 64
  cs : BitVec 64
  rflags : BitVec 64
  ss : BitVec 64
  gsBase : BitVec 64
  kernelGsBase : BitVec 64
  mem : Nat → BitVec 8

/-- `[base + off]`. -/
structure Operand where
  base : Gpr
  off : Nat

inductive Instr where
  | push (r : Gpr)
  | pushImm (v : BitVec 64)
  | pushMem (a : Operand)
  | pushGs (off : Nat)
  | pop (r : Gpr)
  | addImm (r : Gpr) (n : Nat)
  | subImm (r : Gpr) (n : Nat)
  | mov (dst src : Gpr)
  | load (dst : Gpr) (a : Operand)
  | lea (dst : Gpr) (a : Operand)
  | storeGs (off : Nat) (src : Gpr)
  | loadGs (dst : Gpr) (off : Nat)
  | storeXmm (a : Operand) (x : Fin 16)
  | loadXmm (x : Fin 16) (a : Operand)
  | stmxcsr (a : Operand)
  | ldmxcsr (a : Operand)
  | swapgs

namespace Cpu

variable (s : Cpu)

def setGpr (r : Gpr) (v : BitVec 64) : Cpu := { s with gpr := Function.update s.gpr r v }

def setMem (m : Nat → BitVec 8) : Cpu := { s with mem := m }

def setXmm (x : Fin 16 → BitVec 128) : Cpu := { s with xmm := x }

def addr (a : Operand) : Nat := (s.gpr a.base + BitVec.ofNat 64 a.off).toNat

def gs (off : Nat) : Nat := (s.gsBase + BitVec.ofNat 64 off).toNat

def word (a : Nat) : BitVec 64 := readWord s.mem a

def setWord (a : Nat) (v : BitVec 64) : Cpu := s.setMem (writeWord s.mem a v)

def pushWord (v : BitVec 64) : Cpu := (s.setGpr .rsp (s.gpr .rsp - 8)).setWord (s.gpr .rsp - 8).toNat v

variable {s} {r q : Gpr} {v w : BitVec 64} {m m' : Nat → BitVec 8}

@[simp] theorem setGpr_self : (s.setGpr r v).gpr r = v := by
  unfold setGpr
  exact Function.update_self ..

theorem setGpr_of_ne (h : q ≠ r) : (s.setGpr r v).gpr q = s.gpr q := by
  unfold setGpr
  exact Function.update_of_ne h ..

@[simp] theorem mem_setGpr : (s.setGpr r v).mem = s.mem := rfl
@[simp] theorem xmm_setGpr : (s.setGpr r v).xmm = s.xmm := rfl
@[simp] theorem mxcsr_setGpr : (s.setGpr r v).mxcsr = s.mxcsr := rfl
@[simp] theorem mem_setMem : (s.setMem m).mem = m := rfl
@[simp] theorem gpr_setMem : (s.setMem m).gpr = s.gpr := rfl
@[simp] theorem xmm_setMem : (s.setMem m).xmm = s.xmm := rfl
@[simp] theorem mxcsr_setMem : (s.setMem m).mxcsr = s.mxcsr := rfl
@[simp] theorem setMem_setMem : (s.setMem m).setMem m' = s.setMem m' := rfl
@[simp] theorem setGpr_setMem : (s.setMem m).setGpr r v = (s.setGpr r v).setMem m := rfl

@[simp] theorem setGpr_setGpr : (s.setGpr r v).setGpr r w = s.setGpr r w := by
  unfold setGpr
  rw [Function.update_idem]

theorem setGpr_comm (h : q ≠ r) : (s.setGpr q v).setGpr r w = (s.setGpr r w).setGpr q v := by
  unfold setGpr
  rw [Function.update_comm h]

theorem setGpr_eq_self (h : s.gpr r = v) : s.setGpr r v = s := by
  unfold setGpr
  rw [← h, Function.update_eq_self]

theorem gpr_pushWord_of_ne (h : q ≠ .rsp) : (s.pushWord v).gpr q = s.gpr q := setGpr_of_ne h

@[simp] theorem gs_pushWord (off : Nat) : (s.pushWord v).gs off = s.gs off := rfl

end Cpu

/-- What an instruction does; `none` is a general protection fault. -/
def exec (s : Cpu) : Instr → Option Cpu
  | .push r => some (s.pushWord (s.gpr r))
  | .pushImm v => some (s.pushWord v)
  | .pushMem a => some (s.pushWord (s.word (s.addr a)))
  | .pushGs off => some (s.pushWord (s.word (s.gs off)))
  | .pop r => some ((s.setGpr .rsp (s.gpr .rsp + 8)).setGpr r (s.word (s.gpr .rsp).toNat))
  | .addImm r n => some (s.setGpr r (s.gpr r + BitVec.ofNat 64 n))
  | .subImm r n => some (s.setGpr r (s.gpr r - BitVec.ofNat 64 n))
  | .mov dst src => some (s.setGpr dst (s.gpr src))
  | .load dst a => some (s.setGpr dst (s.word (s.addr a)))
  | .lea dst a => some (s.setGpr dst (s.gpr a.base + BitVec.ofNat 64 a.off))
  | .storeGs off src => some (s.setWord (s.gs off) (s.gpr src))
  | .loadGs dst off => some (s.setGpr dst (s.word (s.gs off)))
  | .storeXmm a x =>
      if s.addr a % 16 = 0 then some ((s.setWord (s.addr a) (low (s.xmm x))).setWord (s.addr a + 8) (high (s.xmm x)))
      else none
  | .loadXmm x a =>
      if s.addr a % 16 = 0 then
        some (s.setXmm (Function.update s.xmm x (join (s.word (s.addr a)) (s.word (s.addr a + 8)))))
      else none
  | .stmxcsr a =>
      -- four bytes are written, the upper half of the word stays
      some (s.setWord (s.addr a) ((s.word (s.addr a)).extractLsb' 32 32 ++ s.mxcsr.setWidth 32))
  | .ldmxcsr a =>
      if (s.word (s.addr a)).extractLsb' 16 16 = 0 then some { s with mxcsr := (s.word (s.addr a)).setWidth 16 }
      else none
  | .swapgs => some { s with gsBase := s.kernelGsBase, kernelGsBase := s.gsBase }

def run (code : List Instr) (s : Cpu) : Option Cpu := code.foldlM exec s

/-- The return from an interrupt, without its faults: the flags and the selectors are those on the stack, unmasked. -/
def iretq (s : Cpu) : Cpu :=
  let w (k : Nat) := s.word ((s.gpr .rsp).toNat + 8 * k)
  { s with rip := w 0, cs := w 1, rflags := w 2, gpr := Function.update s.gpr .rsp (w 3), ss := w 4 }

@[simp] theorem mem_iretq (s : Cpu) : (iretq s).mem = s.mem := rfl

/-- The flags that the return from a system call can set. -/
def flagMask : BitVec 64 := 0x3c7fd7

/-- The return from a system call. -/
def sysretq (star : BitVec 64) (s : Cpu) : Cpu :=
  { s with
    rip := s.gpr .rcx
    rflags := (s.gpr .r11 &&& flagMask) ||| 2
    cs := ((star >>> 48) + 16) ||| 3
    ss := ((star >>> 48) + 8) ||| 3 }

/-- A system call. -/
def syscall (star lstar fmask : BitVec 64) (s : Cpu) : Cpu :=
  { s with
    gpr := Function.update (Function.update s.gpr .rcx s.rip) .r11 s.rflags
    rip := lstar
    rflags := s.rflags &&& ~~~fmask
    cs := (star >>> 32) &&& 0xfffc
    ss := ((star >>> 32) &&& 0xffff) + 8 }

/-- The exceptions for which the processor pushes an error code. -/
def errorVectors : List Nat := [8, 10, 11, 12, 13, 14, 17, 21, 29, 30]

/-- The processor on another stack, which it aligns. -/
def Cpu.onStack (top handler cs : BitVec 64) (s : Cpu) : Cpu :=
  { s.setGpr .rsp (top &&& ~~~15) with rip := handler, cs := cs, ss := 0 }

@[simp] theorem Cpu.onStack_rsp (top handler cs : BitVec 64) (s : Cpu) :
    (s.onStack top handler cs).gpr .rsp = top &&& ~~~15 := by
  show (s.setGpr .rsp (top &&& ~~~15)).gpr .rsp = _
  exact Cpu.setGpr_self

theorem Cpu.onStack_of_ne {r : Gpr} (h : r ≠ .rsp) (top handler cs : BitVec 64) (s : Cpu) :
    (s.onStack top handler cs).gpr r = s.gpr r := by
  show (s.setGpr .rsp (top &&& ~~~15)).gpr r = _
  exact Cpu.setGpr_of_ne h

/-- The delivery of interrupt `n` on the stack that ends at `top`: the processor pushes where it has been and, for some
exceptions, the error code `e`. -/
def deliver (n : Nat) (top handler cs e : BitVec 64) (s : Cpu) : Cpu :=
  ([s.ss, s.gpr .rsp, s.rflags, s.cs, s.rip] ++ if n ∈ errorVectors then [e] else []).foldl Cpu.pushWord
    (s.onStack top handler cs)

/-! ### Rules -/

variable {s s' : Cpu} {base n : Nat}

@[simp] theorem run_nil (s : Cpu) : run [] s = some s := rfl

theorem run_cons (i : Instr) (code : List Instr) (s : Cpu) : run (i :: code) s = (exec s i).bind (run code) := rfl

theorem run_append (code code' : List Instr) (s : Cpu) : run (code ++ code') s = (run code s).bind (run code') :=
  List.foldlM_append

theorem run_cons_of_exec {i : Instr} {code : List Instr} (h : exec s i = some s') :
    run (i :: code) s = run code s' := by
  rw [run_cons, h]
  rfl

theorem run_append_of_run {code code' : List Instr} (h : run code s = some s') :
    run (code ++ code') s = run code' s' := by
  rw [run_append, h]
  rfl

theorem toNat_slot {k : Nat} (h : base + 8 * k < 2 ^ 64) :
    (BitVec.ofNat 64 base + BitVec.ofNat 64 (8 * k)).toNat = base + 8 * k := by
  rw [← BitVec.ofNat_add, BitVec.toNat_ofNat, Nat.mod_eq_of_lt h]

theorem addr_slot {r : Gpr} {k : Nat} (hr : s.gpr r = BitVec.ofNat 64 base) (h : base + 8 * k < 2 ^ 64) :
    s.addr ⟨r, 8 * k⟩ = base + 8 * k := by
  unfold Cpu.addr
  rw [hr, toNat_slot h]

theorem ofNat_sub_eight (n : Nat) : BitVec.ofNat 64 (base + 8 * (n + 1)) - 8 = BitVec.ofNat 64 (base + 8 * n) := by
  rw [Nat.mul_add, ← Nat.add_assoc, BitVec.ofNat_add]
  exact BitVec.add_sub_cancel _ _

theorem pushWord_slot {v : BitVec 64} (hrsp : s.gpr .rsp = BitVec.ofNat 64 (base + 8 * (n + 1)))
    (hlt : base + 8 * (n + 1) < 2 ^ 64) :
    s.pushWord v = (s.setGpr .rsp (BitVec.ofNat 64 (base + 8 * n))).setMem (put s.mem base [(n, v)]) := by
  unfold Cpu.pushWord Cpu.setWord
  rw [hrsp, ofNat_sub_eight, BitVec.toNat_ofNat, Nat.mod_eq_of_lt (by omega)]
  rfl

/-- The slots that pushes down to slot `n` fill. -/
def pushed (n : Nat) : List (BitVec 64) → List (Nat × BitVec 64)
  | [] => []
  | v :: vs => (n + vs.length, v) :: pushed n vs

theorem foldl_pushWord {vs : List (BitVec 64)} (hrsp : s.gpr .rsp = BitVec.ofNat 64 (base + 8 * (n + vs.length)))
    (hlt : base + 8 * (n + vs.length) < 2 ^ 64) : vs.foldl Cpu.pushWord s =
      (s.setGpr .rsp (BitVec.ofNat 64 (base + 8 * n))).setMem (put s.mem base (pushed n vs)) := by
  induction vs generalizing s with
  | nil =>
      rw [List.length_nil, Nat.add_zero] at hrsp
      rw [Cpu.setGpr_eq_self hrsp]
      rfl
  | cons v vs ih =>
      rw [List.length_cons, ← Nat.add_assoc] at hrsp hlt
      rw [List.foldl_cons, pushWord_slot hrsp hlt, ih (by simp) (by omega)]
      simp [pushed, put_cons]

/-- A run of pushes of registers. -/
theorem run_pushes {regs : List Gpr} (hregs : Gpr.rsp ∉ regs)
    (hrsp : s.gpr .rsp = BitVec.ofNat 64 (base + 8 * (n + regs.length))) (hlt : base + 8 * (n + regs.length) < 2 ^ 64) :
    run (regs.map .push) s = some ((s.setGpr .rsp (BitVec.ofNat 64 (base + 8 * n))).setMem
      (put s.mem base (pushed n (regs.map s.gpr)))) := by
  have hfold : run (regs.map .push) s = some ((regs.map s.gpr).foldl Cpu.pushWord s) := by
    clear hrsp hlt
    induction regs generalizing s with
    | nil => rfl
    | cons r regs ih =>
        rw [List.mem_cons, not_or] at hregs
        have hsame : regs.map (s.pushWord (s.gpr r)).gpr = regs.map s.gpr := by
          apply List.map_congr_left
          intro q hq
          have hne : q ≠ .rsp := fun h => hregs.2 (h ▸ hq)
          exact Cpu.setGpr_of_ne hne
        calc run ((r :: regs).map .push) s = run (regs.map .push) (s.pushWord (s.gpr r)) := rfl
          _ = some ((regs.map s.gpr).foldl Cpu.pushWord (s.pushWord (s.gpr r))) := by rw [ih hregs.2, hsame]
          _ = some (((r :: regs).map s.gpr).foldl Cpu.pushWord s) := rfl
  rw [hfold, foldl_pushWord (by rwa [List.length_map]) (by rwa [List.length_map])]

/-- What pops from slot `n` on put into the registers. -/
def popped (w : Nat → BitVec 64) : Nat → List Gpr → List (Gpr × BitVec 64)
  | _, [] => []
  | n, r :: regs => (r, w n) :: popped w (n + 1) regs

theorem map_fst_popped (w : Nat → BitVec 64) (n : Nat) (regs : List Gpr) : (popped w n regs).map Prod.fst = regs := by
  induction regs generalizing n with
  | nil => rfl
  | cons r regs ih => rw [popped, List.map_cons, ih]

/-- Registers set one after the other. -/
def Cpu.setGprs (s : Cpu) (ts : List (Gpr × BitVec 64)) : Cpu := { s with gpr := store s.gpr ts }

theorem Cpu.setGprs_setGpr {r : Gpr} {v : BitVec 64} {ts : List (Gpr × BitVec 64)} (h : r ∉ ts.map Prod.fst) :
    (s.setGpr r v).setGprs ts = (s.setGprs ts).setGpr r v := by
  unfold Cpu.setGprs Cpu.setGpr
  rw [store_update_comm h]

theorem exec_pop {r : Gpr} (hrsp : s.gpr .rsp = BitVec.ofNat 64 (base + 8 * n)) (hlt : base + 8 * n < 2 ^ 64) :
    exec s (.pop r) = some ((s.setGpr .rsp (BitVec.ofNat 64 (base + 8 * (n + 1)))).setGpr r (slots s.mem base n)) := by
  have hnext : BitVec.ofNat 64 (base + 8 * n) + 8 = BitVec.ofNat 64 (base + 8 * (n + 1)) := by
    rw [Nat.mul_add, ← Nat.add_assoc]
    exact (BitVec.ofNat_add _ _).symm
  have hword : s.word (s.gpr .rsp).toNat = slots s.mem base n := by
    rw [hrsp, BitVec.toNat_ofNat, Nat.mod_eq_of_lt hlt]
    rfl
  rw [exec, hword, hrsp, hnext]

/-- A run of pops. -/
theorem run_pops {regs : List Gpr} (hregs : Gpr.rsp ∉ regs) (hrsp : s.gpr .rsp = BitVec.ofNat 64 (base + 8 * n))
    (hlt : base + 8 * (n + regs.length) < 2 ^ 64) :
    run (regs.map .pop) s = some ((s.setGprs (popped (slots s.mem base) n regs)).setGpr .rsp
      (BitVec.ofNat 64 (base + 8 * (n + regs.length)))) := by
  induction regs generalizing s n with
  | nil => exact congrArg some (Cpu.setGpr_eq_self hrsp).symm
  | cons r regs ih =>
      rw [List.mem_cons, not_or] at hregs
      rw [List.length_cons] at hlt ⊢
      have hself : ((s.setGpr .rsp (BitVec.ofNat 64 (base + 8 * (n + 1)))).setGpr r (slots s.mem base n)).gpr .rsp =
          BitVec.ofNat 64 (base + 8 * (n + 1)) := by
        rw [Cpu.setGpr_of_ne hregs.1, Cpu.setGpr_self]
      have hfst : Gpr.rsp ∉ (popped (slots s.mem base) (n + 1) regs).map Prod.fst := by
        rw [map_fst_popped]
        exact hregs.2
      have hlen : n + 1 + regs.length = n + (regs.length + 1) := by omega
      rw [List.map_cons, run_cons_of_exec (exec_pop hrsp (by omega)), ih hregs.2 hself (by omega), hlen,
        Cpu.setGpr_comm hregs.1]
      simp only [Cpu.mem_setGpr]
      rw [Cpu.setGprs_setGpr hfst, Cpu.setGpr_setGpr]
      rfl

theorem exec_load {r b : Gpr} {k : Nat} (hb : s.gpr b = BitVec.ofNat 64 base) (hlt : base + 8 * k < 2 ^ 64) :
    exec s (.load r ⟨b, 8 * k⟩) = some (s.setGpr r (slots s.mem base k)) := by
  rw [exec, addr_slot hb hlt]
  rfl

theorem exec_stmxcsr {b : Gpr} {k : Nat} (hb : s.gpr b = BitVec.ofNat 64 base) (hlt : base + 8 * k < 2 ^ 64) :
    exec s (.stmxcsr ⟨b, 8 * k⟩) = some (s.setMem
      (put s.mem base [(k, (slots s.mem base k).extractLsb' 32 32 ++ s.mxcsr.setWidth 32)])) := by
  rw [exec, addr_slot hb hlt]
  rfl

theorem exec_ldmxcsr {b : Gpr} {k : Nat} (hb : s.gpr b = BitVec.ofNat 64 base) (hlt : base + 8 * k < 2 ^ 64)
    (hok : (slots s.mem base k).extractLsb' 16 16 = 0) :
    exec s (.ldmxcsr ⟨b, 8 * k⟩) = some { s with mxcsr := (slots s.mem base k).setWidth 16 } := by
  rw [exec, addr_slot hb hlt]
  exact if_pos hok

theorem run_loads {b : Gpr} {regs : List (Gpr × Nat)} (hb : s.gpr b = BitVec.ofNat 64 base)
    (hregs : b ∉ regs.map Prod.fst) (hlt : ∀ t ∈ regs, base + 8 * t.2 < 2 ^ 64) :
    run (regs.map fun t => .load t.1 ⟨b, 8 * t.2⟩) s =
      some (s.setGprs (regs.map fun t => (t.1, slots s.mem base t.2))) := by
  induction regs generalizing s with
  | nil => rfl
  | cons t regs ih =>
      rw [List.map_cons, List.mem_cons, not_or] at hregs
      rw [List.forall_mem_cons] at hlt
      rw [List.map_cons, run_cons_of_exec (exec_load hb hlt.1), ih ((Cpu.setGpr_of_ne hregs.1).trans hb) hregs.2 hlt.2]
      rfl

/-- A run of pushes of words that lie apart from the stack. -/
theorem run_pushMems {b : Gpr} {a : Nat} {ks : List Nat} (hb : s.gpr b = BitVec.ofNat 64 a) (hne : b ≠ .rsp)
    (hrsp : s.gpr .rsp = BitVec.ofNat 64 (base + 8 * (n + ks.length))) (hlt : base + 8 * (n + ks.length) < 2 ^ 64)
    (hlow : ∀ k ∈ ks, a + 8 * k < 2 ^ 64)
    (hapart : ∀ k ∈ ks, a + 8 * k + 8 ≤ base ∨ base + 8 * (n + ks.length) ≤ a + 8 * k) :
    run (ks.map fun k => .pushMem ⟨b, 8 * k⟩) s = some ((s.setGpr .rsp (BitVec.ofNat 64 (base + 8 * n))).setMem
      (put s.mem base (pushed n (ks.map (slots s.mem a))))) := by
  have hfold : run (ks.map fun k => .pushMem ⟨b, 8 * k⟩) s = some ((ks.map (slots s.mem a)).foldl Cpu.pushWord s) := by
    induction ks generalizing s with
    | nil => rfl
    | cons k ks ih =>
        rw [List.length_cons, ← Nat.add_assoc] at hrsp hlt hapart
        rw [List.forall_mem_cons] at hlow hapart
        have hpush := pushWord_slot (v := slots s.mem a k) hrsp hlt
        have hsame : ks.map (slots (s.pushWord (slots s.mem a k)).mem a) = ks.map (slots s.mem a) := by
          apply List.map_congr_left
          intro j hj
          have hj := hapart.2 j hj
          rw [hpush]
          apply readWord_writeWord_of_clear
          unfold Clear
          dsimp only
          omega
        have hstep : exec s (.pushMem ⟨b, 8 * k⟩) = some (s.pushWord (slots s.mem a k)) := by
          rw [exec, addr_slot hb hlow.1]
          rfl
        rw [List.map_cons, run_cons_of_exec hstep, ih ((Cpu.gpr_pushWord_of_ne hne).trans hb) ?_ (by omega) hlow.2
          (fun j hj => by have := hapart.2 j hj; omega), hsame]
        · rfl
        · rw [hpush, Cpu.gpr_setMem, Cpu.setGpr_self]
  rw [hfold, foldl_pushWord (by rwa [List.length_map]) (by rwa [List.length_map])]

theorem run_storeXmms {b : Gpr} {xs : List (Fin 16 × Nat)} (hb : s.gpr b = BitVec.ofNat 64 base)
    (halign : base % 16 = 0) (heven : ∀ t ∈ xs, t.2 % 2 = 0) (hlt : ∀ t ∈ xs, base + 8 * t.2 < 2 ^ 64) :
    run (xs.map fun t => .storeXmm ⟨b, 8 * t.2⟩ t.1) s = some (s.setMem
      (put s.mem base (xs.flatMap fun t => [(t.2, low (s.xmm t.1)), (t.2 + 1, high (s.xmm t.1))]))) := by
  induction xs generalizing s with
  | nil => rfl
  | cons t xs ih =>
      rw [List.forall_mem_cons] at hlt heven
      have hstep : exec s (.storeXmm ⟨b, 8 * t.2⟩ t.1) = some (s.setMem
          (put s.mem base [(t.2, low (s.xmm t.1)), (t.2 + 1, high (s.xmm t.1))])) := by
        rw [exec, addr_slot hb hlt.1, if_pos (by omega)]
        rfl
      rw [List.map_cons, run_cons_of_exec hstep, List.flatMap_cons, put_append]
      exact ih hb heven.2 hlt.2

theorem run_loadXmms {b : Gpr} {xs : List (Fin 16 × Nat)} (hb : s.gpr b = BitVec.ofNat 64 base)
    (halign : base % 16 = 0) (heven : ∀ t ∈ xs, t.2 % 2 = 0) (hlt : ∀ t ∈ xs, base + 8 * t.2 < 2 ^ 64) :
    run (xs.map fun t => .loadXmm t.1 ⟨b, 8 * t.2⟩) s = some (s.setXmm
      (store s.xmm (xs.map fun t => (t.1, join (slots s.mem base t.2) (slots s.mem base (t.2 + 1)))))) := by
  induction xs generalizing s with
  | nil => rfl
  | cons t xs ih =>
      rw [List.forall_mem_cons] at hlt heven
      have hstep : exec s (.loadXmm t.1 ⟨b, 8 * t.2⟩) = some (s.setXmm (Function.update s.xmm t.1
          (join (slots s.mem base t.2) (slots s.mem base (t.2 + 1))))) := by
        rw [exec, addr_slot hb hlt.1, if_pos (by omega)]
        rfl
      rw [List.map_cons, run_cons_of_exec hstep]
      exact ih hb heven.2 hlt.2

end UnixKernel.AsmAmd64
