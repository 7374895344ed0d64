import Mathlib.Logic.Relation
import UnixKernel.TrapAarch64

/-! Exceptions on `aarch64` from the interrupted instruction to the return to it: the way out of the kernel,
exceptions of the kernel and of processes, supervisor calls, and the start of a process from a frame. -/

namespace UnixKernel

namespace TrapAarch64

open ByteWords WordSlots AsmAarch64
open Kreq (ExcFrameAarch64)

/-! ### Loading the registers -/

section Loads

variable {s : Cpu} {b : Base} {base : Nat}

theorem loadVecs_eq (b : Base) : loadVecs b = vecPairs.map fun t => .ldpq t.1 t.2.1 ⟨b, 8 * t.2.2⟩ := rfl

theorem vecPairs_slot : ∀ u ∈ vecPairs, u.2.2 < 102 ∧ u.2.2 = 36 + 2 * u.1.val ∧ u.2.1.val = u.1.val + 1 := by decide

theorem store_vecRegs (q : Fin 32 → BitVec 128) (w : Nat → Word) :
    store q (vecRegs w vecPairs) = fun i : Fin 32 => join (w (36 + 2 * i)) (w (36 + 2 * i + 1)) := by
  have hfst : (vecRegs w vecPairs).map Prod.fst = List.finRange 32 := rfl
  have hregs : ∀ t ∈ vecRegs w vecPairs,
      t.2 = (fun i : Fin 32 => join (w (36 + 2 * i)) (w (36 + 2 * i + 1))) t.1 := by
    intro t ht
    obtain ⟨u, hu, ht⟩ := List.mem_flatMap.mp ht
    obtain ⟨-, hslot, hnext⟩ := vecPairs_slot u hu
    rcases List.mem_cons.mp ht with rfl | ht
    · dsimp only
      rw [hslot]
    · obtain rfl := List.mem_singleton.mp ht
      have hodd : 36 + 2 * u.2.1.val = u.2.2 + 2 := by omega
      dsimp only
      rw [hodd]
  funext i
  apply store_of_forall (g := fun i : Fin 32 => join (w (36 + 2 * i)) (w (36 + 2 * i + 1))) hregs
  rw [hfst]
  exact List.mem_finRange i

theorem run_loadVecs (h : s.Points b base) (hlt : base + 8 * 102 < 2 ^ 64) : run (loadVecs b) s =
    some (s.setQ fun i => join (slots s.mem base (36 + 2 * i)) (slots s.mem base (36 + 2 * i + 1))) := by
  rw [loadVecs_eq, run_ldpqs h fun t ht => by have := vecPairs_slot t ht; omega, store_vecRegs]

theorem loadRegs_eq : loadRegs = .spsel true :: .ldr 10 ⟨.x 9, 8 * 31⟩ :: .msr .spEl0 10 ::
    (lowPairs.map (fun t => .ldp t.1 t.2.1 ⟨.x 9, 8 * t.2.2⟩) ++ .ldr 8 ⟨.x 9, 8 * 8⟩ ::
      (highPairs.map (fun t => .ldp t.1 t.2.1 ⟨.x 9, 8 * t.2.2⟩) ++
        [.ldr 30 ⟨.x 9, 8 * 30⟩, .ldr 9 ⟨.x 9, 8 * 9⟩])) := rfl

theorem store_loadedRegs (x : Fin 31 → Word) (w : Nat → Word) : store x (loadedRegs w) = fun i : Fin 31 => w i := by
  have hpairs : ∀ u ∈ lowPairs ++ highPairs, u.2.2 = u.1.val ∧ u.2.1.val = u.1.val + 1 := by decide
  have hregs : ∀ ps : Pairs 31, (∀ u ∈ ps, u ∈ lowPairs ++ highPairs) → ∀ t ∈ pairRegs w ps, t.2 = w t.1 := by
    intro ps hps t ht
    obtain ⟨u, hu, ht⟩ := List.mem_flatMap.mp ht
    obtain ⟨hslot, hnext⟩ := hpairs u (hps u hu)
    rcases List.mem_cons.mp ht with rfl | ht
    · rw [hslot]
    · obtain rfl := List.mem_singleton.mp ht
      rw [hnext, hslot]
  have hall : ∀ t ∈ loadedRegs w, t.2 = (fun i : Fin 31 => w i) t.1 := by
    simp only [loadedRegs, List.forall_mem_append, List.forall_mem_cons, List.not_mem_nil, false_imp_iff, implies_true,
      and_true]
    exact ⟨hregs _ fun u hu => List.mem_append_left _ hu, rfl, hregs _ fun u hu => List.mem_append_right _ hu, rfl, rfl⟩
  have hfst : (loadedRegs w).map Prod.fst = [0, 1, 2, 3, 4, 5, 6, 7, 8, 10, 11, 12, 13, 14, 15, 16, 17, 18, 19, 20,
      21, 22, 23, 24, 25, 26, 27, 28, 29, 30, 9] := rfl
  have hmem : ∀ i : Fin 31, i ∈ (loadedRegs w).map Prod.fst := by
    rw [hfst]
    decide
  funext i
  exact store_of_forall (g := fun i : Fin 31 => w i) hall (hmem i)

theorem run_loadRegs (h9 : s.x 9 = BitVec.ofNat 64 base) (hlt : base + 8 * 102 < 2 ^ 64) :
    run loadRegs s = some
      { (s.setPstate (withBit s.pstate 0 true)).setSys .spEl0 (slots s.mem base 31) with
        x := fun i => slots s.mem base i } := by
  obtain ⟨t, ht⟩ : ∃ t, t = ((s.setPstate (withBit s.pstate 0 true)).setX 10 (slots s.mem base 31)).setSys .spEl0
    (slots s.mem base 31) := ⟨_, rfl⟩
  have hmem : t.mem = s.mem := by rw [ht]; rfl
  have hpoints : ∀ {u : Cpu}, u.x 9 = BitVec.ofNat 64 base → u.Points (.x 9) base := fun hu => ⟨hu, nofun, by omega⟩
  have ht9 : t.x 9 = BitVec.ofNat 64 base := by
    rw [ht, Cpu.x_setSys, Cpu.setX_of_ne (by decide), Cpu.x_setPstate, h9]
  have hmsr : exec ((s.setPstate (withBit s.pstate 0 true)).setX 10 (slots s.mem base 31)) (.msr .spEl0 10) =
      some t := by
    have hsel : (withBit s.pstate 0 true).getLsbD 0 = true := by rw [getLsbD_withBit (by decide), if_pos rfl]
    rw [exec, if_neg fun h => absurd (h.2.symm.trans hsel) (by decide), Cpu.setX_self, ht]
  have hlow : ∀ u ∈ lowPairs, u.2.2 < 102 ∧ 9 ≠ u.1 ∧ 9 ≠ u.2.1 := by decide
  have hhigh : ∀ u ∈ highPairs, u.2.2 < 102 ∧ 9 ≠ u.1 ∧ 9 ≠ u.2.1 := by decide
  have hlow9 : ∀ {u : Cpu} (w : Nat → Word), u.x 9 = BitVec.ofNat 64 base →
      (u.setXs (pairRegs w lowPairs)).x 9 = BitVec.ofNat 64 base := fun _ h => h
  have hhigh9 : ∀ {u : Cpu} (w : Nat → Word), u.x 9 = BitVec.ofNat 64 base →
      (u.setXs (pairRegs w highPairs)).x 9 = BitVec.ofNat 64 base := fun _ h => h
  rw [loadRegs_eq, run_cons_of_exec rfl,
    run_cons_of_exec (exec_ldr (hpoints (by exact h9)) (by omega)), Cpu.mem_setPstate, run_cons_of_exec hmsr,
    run_append_of_run (run_ldps (hpoints ht9) (fun u hu => (hlow u hu).2) fun u hu => by have := hlow u hu; omega),
    run_cons_of_exec (exec_ldr (hpoints (hlow9 _ ht9)) (by omega)),
    run_append_of_run (run_ldps (hpoints ((Cpu.setX_of_ne (by decide)).trans (hlow9 _ ht9)))
      (fun u hu => (hhigh u hu).2) fun u hu => by have := hhigh u hu; omega)]
  rw [run_cons_of_exec (exec_ldr (hpoints (hhigh9 _ ((Cpu.setX_of_ne (by decide)).trans (hlow9 _ ht9)))) (by omega)),
    run_cons_of_exec (exec_ldr (hpoints ((Cpu.setX_of_ne (by decide)).trans
      (hhigh9 _ ((Cpu.setX_of_ne (by decide)).trans (hlow9 _ ht9))))) (by omega)), run_nil]
  simp only [Cpu.mem_setXs, hmem, Cpu.setX_eq_setXs, Cpu.setXs_setXs, List.append_assoc]
  rw [← loadedRegs, Cpu.setXs, store_loadedRegs, ht]
  rfl

/-- The system registers that are loaded from a frame. -/
def setSysRegs (s : Cpu) (w : Nat → Word) : Cpu :=
  (((s.setSys .elr (w 32)).setSys .spsr (w 33)).setSys .fpcr (w 100)).setSys .fpsr (w 101)

theorem sp_setSysRegs (s : Cpu) (w : Nat → Word) : (setSysRegs s w).sp = s.sp := by
  unfold setSysRegs
  rw [Cpu.sp_setSys (by decide) (by decide), Cpu.sp_setSys (by decide) (by decide),
    Cpu.sp_setSys (by decide) (by decide), Cpu.sp_setSys (by decide) (by decide)]

theorem excBack_eq : excBack = [.ldp 2 3 ⟨.sp, 8 * 32⟩, .msr .elr 2, .msr .spsr 3, .ldr 2 ⟨.sp, 8 * 100⟩, .msr .fpcr 2,
    .ldr 2 ⟨.sp, 8 * 101⟩, .msr .fpsr 2] ++ (loadVecs .sp ++
      .ldr 2 ⟨.sp, 8 * 33⟩ :: .tst 2 0b1100 :: .mov 9 .sp :: loadRegs) := rfl

theorem exec_msr {r : SysReg} {i : Fin 31} (hr : r ≠ .spEl0) : exec s (.msr r i) = some (s.setSys r (s.x i)) :=
  if_neg fun h => hr h.1

theorem run_backSys (hsp : s.sp = BitVec.ofNat 64 base) (halign : base % 16 = 0) (hlt : base + 8 * 102 < 2 ^ 64) :
    run [.ldp 2 3 ⟨.sp, 8 * 32⟩, .msr .elr 2, .msr .spsr 3, .ldr 2 ⟨.sp, 8 * 100⟩, .msr .fpcr 2, .ldr 2 ⟨.sp, 8 * 101⟩,
      .msr .fpsr 2] s = some (((setSysRegs s (slots s.mem base)).setX 3 (slots s.mem base 33)).setX 2
        (slots s.mem base 101)) := by
  have hpoints : ∀ {u : Cpu}, u.sp = s.sp → u.Points .sp base := fun hu => ⟨hu.trans hsp, fun _ => halign, by omega⟩
  have hx3 : ∀ {u : Cpu} {v v' : Word}, ((u.setX 3 v).setX 2 v').x 3 = v := by
    intro u v v'
    rw [Cpu.setX_of_ne (by decide), Cpu.setX_self]
  have hsys : ∀ {u : Cpu} {r : SysReg} {v : Word}, r ≠ .spEl0 → r ≠ .spEl1 → u.sp = s.sp → (u.setSys r v).sp = s.sp :=
    fun h h' hu => (Cpu.sp_setSys h h').trans hu
  rw [run_cons_of_exec (exec_ldp (hpoints rfl) (by omega)), Cpu.setX_comm (by decide),
    run_cons_of_exec (exec_msr (by decide)), Cpu.setX_self, Cpu.setSys_setX, Cpu.setSys_setX,
    run_cons_of_exec (exec_msr (by decide)), hx3, Cpu.setSys_setX, Cpu.setSys_setX]
  have hsp₁ : ∀ {v v' : Word}, ((s.setSys .elr v).setSys .spsr v').sp = s.sp :=
    hsys (by decide) (by decide) (hsys (by decide) (by decide) rfl)
  rw [run_cons_of_exec (exec_ldr (hpoints (by exact hsp₁)) (by omega)), Cpu.setX_setX,
    run_cons_of_exec (exec_msr (by decide)), Cpu.setX_self, Cpu.setSys_setX, Cpu.setSys_setX,
    run_cons_of_exec (exec_ldr (hpoints (by exact hsys (by decide) (by decide) hsp₁)) (by omega)), Cpu.setX_setX,
    run_cons_of_exec (exec_msr (by decide)), Cpu.setX_self, Cpu.setSys_setX, Cpu.setSys_setX, run_nil]
  rfl

/-- What `exc_entry` loads from the frame behind the call. -/
structure BackFrom (s : Cpu) (w : Nat → Word) (u : Cpu) : Prop where
  ctxt : ctxtOfCpu (eret u) = ctxtOf (frameOf w)
  ne : u.ne = !(w 33 &&& 0b1100 == 0)
  spSel : u.pstate.getLsbD 0 = true
  spEl1 : u.sys .spEl1 = s.sys .spEl1
  tpidr : u.sys .tpidr = s.sys .tpidr
  mem : u.mem = s.mem

/-- The flags behind a test. -/
def flags (p : Word) (v : Word) : Word :=
  withBit (withBit (withBit (withBit p 31 v.msb) 30 (v == 0)) 29 false) 28 false

theorem getLsbD_flags (p v : Word) : (flags p v).getLsbD 30 = (v == 0) ∧ (flags p v).getLsbD 0 = p.getLsbD 0 := by
  unfold flags
  constructor
  · rw [getLsbD_withBit (by decide), if_neg (by decide), getLsbD_withBit (by decide), if_neg (by decide),
      getLsbD_withBit (by decide), if_pos rfl]
  · rw [getLsbD_withBit (by decide), if_neg (by decide), getLsbD_withBit (by decide), if_neg (by decide),
      getLsbD_withBit (by decide), if_neg (by decide), getLsbD_withBit (by decide), if_neg (by decide)]

theorem backFrom_excBack (hsel : s.pstate.getLsbD 0 = false) (hsp : s.sys .spEl0 = BitVec.ofNat 64 base)
    (halign : base % 16 = 0) (hlt : base + 8 * 102 < 2 ^ 64) :
    ∃ u, run excBack s = some u ∧ BackFrom s (slots s.mem base) u := by
  have hbase : s.sp = BitVec.ofNat 64 base := (Cpu.sp_eq_spEl0 hsel).trans hsp
  obtain ⟨t, ht⟩ : ∃ t, t = ((setSysRegs s (slots s.mem base)).setX 3 (slots s.mem base 33)).setX 2
    (slots s.mem base 101) := ⟨_, rfl⟩
  have htsp : t.sp = BitVec.ofNat 64 base := by rw [ht, Cpu.sp_setX, Cpu.sp_setX, sp_setSysRegs, hbase]
  have htmem : t.mem = s.mem := by rw [ht]; rfl
  have htspEl0 : t.sys .spEl0 = BitVec.ofNat 64 base := by
    rw [← hsp, ht, Cpu.sys_setX, Cpu.sys_setX, setSysRegs, Cpu.setSys_of_ne (by decide), Cpu.setSys_of_ne (by decide),
      Cpu.setSys_of_ne (by decide), Cpu.setSys_of_ne (by decide)]
  have hpoints : t.Points .sp base := ⟨htsp, fun _ => halign, by omega⟩
  have hpointsQ : ∀ q, (t.setQ q).Points .sp base := fun _ => ⟨htsp, fun _ => halign, by omega⟩
  obtain ⟨y, hy⟩ : ∃ y, y = ((((t.setQ fun i => join (slots s.mem base (36 + 2 * i))
      (slots s.mem base (36 + 2 * i + 1))).setX 2 (slots s.mem base 33)).setPstate
      (flags s.pstate (slots s.mem base 33 &&& 0b1100))).setX 9 (BitVec.ofNat 64 base)) := ⟨_, rfl⟩
  have hmov : ∀ u : Cpu, u.pstate.getLsbD 0 = false → u.sys .spEl0 = BitVec.ofNat 64 base →
      exec u (.mov 9 .sp) = some (u.setX 9 (BitVec.ofNat 64 base)) := by
    intro u husel husp
    show some (u.setX 9 u.sp) = _
    rw [Cpu.sp_eq_spEl0 husel, husp]
  have htst : ∀ {u : Cpu} {v : Word}, u.pstate = s.pstate →
      exec (u.setX 2 v) (.tst 2 0b1100) = some ((u.setX 2 v).setPstate (flags s.pstate (v &&& 0b1100))) := by
    intro u v hu
    rw [exec, Cpu.setX_self, ← hu]
    rfl
  have hrun : run excBack s = run loadRegs y := by
    rw [excBack_eq, run_append_of_run (run_backSys hbase halign hlt), ← ht,
      run_append_of_run (run_loadVecs hpoints hlt), run_cons_of_exec (exec_ldr (hpointsQ _) (by omega)), htmem]
    rw [run_cons_of_exec (htst (by rw [ht]; rfl)),
      run_cons_of_exec (hmov _ ((getLsbD_flags _ _).2.trans hsel) (by exact htspEl0)), hy, ← htmem]
    rfl
  have hy9 : y.x 9 = BitVec.ofNat 64 base := by rw [hy, Cpu.setX_self]
  have hymem : y.mem = s.mem := by rw [hy]; exact htmem
  rw [hrun, run_loadRegs hy9 hlt, hymem]
  have hpstate : y.pstate = flags s.pstate (slots s.mem base 33 &&& 0b1100) := by rw [hy]; rfl
  refine ⟨_, rfl, ?_⟩
  constructor
  · rw [ctxtOf_frameOf, hy, ht]
    rfl
  · show (!(withBit y.pstate 0 true).getLsbD 30) = _
    rw [getLsbD_withBit (by decide), if_neg (by decide), hpstate, (getLsbD_flags _ _).1]
  · show (withBit y.pstate 0 true).getLsbD 0 = true
    rw [getLsbD_withBit (by decide), if_pos rfl]
  · rw [hy, ht]
    rfl
  · rw [hy, ht]
    rfl
  · exact hymem

end Loads

/-! ### The way out -/

section Back

variable {s u : Cpu} {w : Nat → Word} {base : Nat}

/-- The way out of an exception resumes the context of the frame, and takes the frame of a kernel exception off. -/
theorem BackFrom.excReturn (h : BackFrom s w u) : ∃ s', excReturn u = some s' ∧ ctxtOfCpu s' = ctxtOf (frameOf w) ∧
    s'.mem = s.mem ∧ s'.sys .tpidr = s.sys .tpidr ∧
    s'.sys .spEl1 = if w 33 &&& 0b1100 = 0 then s.sys .spEl1 else s.sys .spEl1 + BitVec.ofNat 64 816 := by
  unfold TrapAarch64.excReturn
  by_cases hel : w 33 &&& 0b1100 = 0
  · have hne : u.ne = false := by rw [h.ne, hel]; rfl
    rw [hne, if_neg (by decide), if_pos hel]
    exact ⟨_, rfl, h.ctxt, h.mem, h.tpidr, h.spEl1⟩
  · have hne : u.ne = true := by rw [h.ne, beq_eq_false_iff_ne.mpr hel]; rfl
    have hadd : run [.addImm .sp 816] u = some (u.setSys .spEl1 (s.sys .spEl1 + BitVec.ofNat 64 816)) := by
      show some (u.setSys u.spReg (u.sys u.spReg + BitVec.ofNat 64 816)) = _
      rw [Cpu.spReg_eq_spEl1 h.spSel, h.spEl1]
    rw [hne, if_pos rfl, if_neg hel, hadd]
    refine ⟨eret (u.setSys .spEl1 (s.sys .spEl1 + BitVec.ofNat 64 816)), rfl, ?_, h.mem, h.tpidr, ?_⟩
    · rw [← h.ctxt]
      rfl
    · show (u.setSys .spEl1 (s.sys .spEl1 + BitVec.ofNat 64 816)).sys .spEl1 = s.sys .spEl1 + BitVec.ofNat 64 816
      exact Cpu.setSys_self

end Back

/-! ### Exceptions -/

/-- Where the frame of an exception goes: that of the kernel's own onto the stack of `sp_el1`, that of a process onto
the kernel stack of `tpidr_el1`. -/
inductive Place (s : Cpu) (base : Nat) : Nat → Prop where
  | el1t {n : Nat} (hn : n < 4) (hel : s.pstate &&& 0b1100 ≠ 0)
      (hsp : s.sys .spEl1 = BitVec.ofNat 64 (base + 8 * 102)) (halign : base % 16 = 0) (hlt : base + 8 * 102 < 2 ^ 64) :
      Place s base n
  | el0 {n tramp : Nat} (hn : 8 ≤ n ∧ n < 16) (hel : s.pstate &&& 0b1100 = 0) (room : Room s base tramp) :
      Place s base n

section RoundTrip

variable {s : Cpu} {n base : Nat}

theorem Place.bounds (h : Place s base n) : base % 16 = 0 ∧ base + 8 * 102 < 2 ^ 64 := by
  cases h with
  | el1t hn hel hsp halign hlt => exact ⟨halign, hlt⟩
  | el0 hn hel room => exact ⟨room.align, room.lt⟩

/-- An exception up to the call of the handler; the stack pointer of the kernel is below the frame only if the exception
is its own. -/
theorem Place.handling (h : Place s base n) (vector esr far : Word) :
    ∃ stub s₁, excVts n = some stub ∧ run (stub ++ excEntry) (takeException vector esr far s) = some s₁ ∧
      Handling s n esr far base s₁ ∧
      s.sys .spEl1 = (if s.pstate &&& 0b1100 = 0 then s₁.sys .spEl1 else s₁.sys .spEl1 + BitVec.ofNat 64 816) ∧
      ∀ x, x < base ∨ base + 8 * 102 ≤ x → x + 32 < (s.sys .spEl1).toNat ∨ (s.sys .spEl1).toNat ≤ x →
        s₁.mem x = s.mem x := by
  cases h with
  | el1t hn hel hsp halign hlt =>
      obtain ⟨s₁, hrun, hhandling, hspEl1, hother⟩ := handling_el1t s n vector esr far hsp halign hlt
      refine ⟨_, s₁, if_pos hn, hrun, hhandling, ?_, fun x hx _ => hother x hx⟩
      rw [if_neg hel, hspEl1, hsp, ← BitVec.ofNat_add]
  | el0 hn hel room =>
      obtain ⟨s₁, hrun, hhandling, hspEl1, hother⟩ := handling_el0 s n vector esr far room
      have hvts : excVts n = some (excStubEl0 n) := by
        unfold excVts
        rw [if_neg (by omega), if_neg (by omega), if_pos hn.2]
      refine ⟨_, s₁, hvts, hrun, hhandling, ?_, fun x hx hsp => hother x hx ?_⟩
      · rw [if_pos hel, hspEl1]
      · rw [room.spEl1, BitVec.toNat_ofNat, Nat.mod_eq_of_lt room.ltTramp] at hsp
        omega

theorem resumes {s₂ : Cpu} (hsel : s₂.pstate.getLsbD 0 = false) (hsp : s₂.sys .spEl0 = BitVec.ofNat 64 base)
    (halign : base % 16 = 0) (hlt : base + 8 * 102 < 2 ^ 64) :
    ∃ s₃, (run excBack s₂).bind excReturn = some s₃ ∧ ctxtOfCpu s₃ = ctxtOf (frameAt s₂.mem base) ∧
      s₃.mem = s₂.mem ∧ s₃.sys .tpidr = s₂.sys .tpidr ∧
      s₃.sys .spEl1 = if (frameAt s₂.mem base).spsr &&& 0b1100 = 0 then s₂.sys .spEl1
        else s₂.sys .spEl1 + BitVec.ofNat 64 816 := by
  obtain ⟨u, hrun, hback⟩ := backFrom_excBack hsel hsp halign hlt
  obtain ⟨s₃, hreturn, hrest⟩ := hback.excReturn
  refine ⟨s₃, ?_, hrest⟩
  rw [hrun]
  exact hreturn

/-- An exception of the kernel or of a process, from the vector to the return: the handler is called on the stack right
below a frame that stands for the interrupted context; whatever frame it leaves there is resumed, with the stack pointer
of the kernel where it was, and nothing but the frame and the four words of the stub has been written to. -/
theorem exception_round_trip (h : Place s base n) (vector esr far : Word) :
    ∃ stub s₁, excVts n = some stub ∧ run (stub ++ excEntry) (takeException vector esr far s) = some s₁ ∧
      s₁.x 0 = BitVec.ofNat 64 n ∧ s₁.x 1 = BitVec.ofNat 64 base ∧ s₁.sp = BitVec.ofNat 64 base ∧
      (frameAt s₁.mem base).esr = esr ∧ (frameAt s₁.mem base).far = far ∧
      ctxtOf (frameAt s₁.mem base) = ctxtOfCpu s ∧
      (∀ x, x < base ∨ base + 8 * 102 ≤ x → x + 32 < (s.sys .spEl1).toNat ∨ (s.sys .spEl1).toNat ≤ x →
        s₁.mem x = s.mem x) ∧
      ∀ s₂, s₂.pstate.getLsbD 0 = false → s₂.sys .spEl0 = s₁.sys .spEl0 → s₂.sys .spEl1 = s₁.sys .spEl1 →
        (frameAt s₂.mem base).spsr &&& 0b1100 = s.pstate &&& 0b1100 →
        ∃ s₃, (run excBack s₂).bind excReturn = some s₃ ∧ ctxtOfCpu s₃ = ctxtOf (frameAt s₂.mem base) ∧
          s₃.sys .spEl1 = s.sys .spEl1 ∧ s₃.sys .tpidr = s₂.sys .tpidr ∧ s₃.mem = s₂.mem := by
  obtain ⟨halign, hlt⟩ := h.bounds
  obtain ⟨stub, s₁, hvts, hrun, hhandling, hspEl1, hother⟩ := h.handling vector esr far
  refine ⟨stub, s₁, hvts, hrun, hhandling.x0, hhandling.x1, ?_, ?_, ?_, ?_, hother, fun s₂ hsel hsp hsp₁ hel => ?_⟩
  · rw [Cpu.sp_eq_spEl0 hhandling.spSel, hhandling.spEl0]
  · rw [hhandling.frame]
    rfl
  · rw [hhandling.frame]
    rfl
  · rw [hhandling.frame, ctxtOf_savedWord]
  · obtain ⟨s₃, hrun₃, hctxt, hmem, htpidr, hback⟩ := resumes hsel (hsp.trans hhandling.spEl0) halign hlt
    refine ⟨s₃, hrun₃, hctxt, ?_, htpidr, hmem⟩
    rw [hback, hel, hsp₁, ← hspEl1]

end RoundTrip

/-- The kernel on the stack pointer of the processes, with its own one at `0x8000`. -/
def kernelCpu : Cpu where
  x := fun _ => 7
  q := fun _ => 1
  pc := 0x1000
  pstate := 0x4
  sys := fun r => if r = .spEl1 then 0x8000 else 0x6000
  mem := fun _ => 0

theorem exception_round_trip_irq : ∃ stub s₁ s₃, excVts 1 = some stub ∧
    run (stub ++ excEntry) (takeException 0xffff 0 0 kernelCpu) = some s₁ ∧ s₁.sp = 0x7cd0 ∧
    (run excBack (s₁.setPstate 0x3c4)).bind excReturn = some s₃ ∧ ctxtOfCpu s₃ = ctxtOfCpu kernelCpu ∧
    s₃.sys .spEl1 = 0x8000 := by
  have hplace : Place kernelCpu 0x7cd0 1 := .el1t (by decide) (by decide) rfl (by decide) (by decide)
  obtain ⟨stub, s₁, hvts, hrun, -, -, hsp, -, -, hctxt, -, hback⟩ := exception_round_trip hplace 0xffff 0 0
  have hspsr : (frameAt s₁.mem 0x7cd0).spsr = kernelCpu.pstate := congrArg Ctxt.pstate hctxt
  obtain ⟨s₃, hrun₃, hctxt₃, hspEl1, -⟩ := hback (s₁.setPstate 0x3c4) (show (0x3c4 : Word).getLsbD 0 = false by decide)
    rfl rfl (congrArg (· &&& 0b1100) hspsr)
  exact ⟨stub, s₁, s₃, hvts, hrun, hsp, hrun₃, hctxt₃.trans hctxt, hspEl1⟩

/-! ### Supervisor calls -/

/-- A supervisor call of a process, from the instruction to the return behind it: the handler is called with the frame
of the process and makes the request of its registers, but the answer goes to a copy of the frame; the process goes on
with exactly the context that it had, the request pointer in `x0` included. -/
theorem svc_round_trip (p : Profile) (cfg : RvmCfg) (m : Kreq.Space) {s : Cpu} (vector esr far : Word)
    {base tramp : Nat} (room : Room s base tramp) (hel : s.pstate &&& 0b1100 = 0)
    (hsvc : (esr >>> 26) &&& 0x3f = 0x15) :
    ∃ s₁, run (excStubEl0 8 ++ excEntry) (takeException vector esr far s) = some s₁ ∧
      ∀ v seen seen', Kreq.kernelRequestee p cfg m (s.x 0) (s.x 1) (s.x 2) (s.x 3) (s.x 4) (s.x 5) (s.x 6) seen =
          (.ok v, seen') →
        Kreq.excHandlerAarch64 p cfg m (s₁.x 0) (frameAt s₁.mem base) seen = (.ok (frameAt s₁.mem base), seen') ∧
        ∀ s₂, s₂.pstate.getLsbD 0 = false → s₂.sys .spEl0 = s₁.sys .spEl0 → s₂.sys .spEl1 = s₁.sys .spEl1 →
          frameAt s₂.mem base = frameAt s₁.mem base → ∃ s₃, (run excBack s₂).bind excReturn = some s₃ ∧
            ctxtOfCpu s₃ = ctxtOfCpu s ∧ s₃.sys .spEl1 = s.sys .spEl1 ∧ s₃.sys .tpidr = s₂.sys .tpidr ∧
            s₃.mem = s₂.mem := by
  obtain ⟨s₁, hrun, hhandling, hspEl1, -⟩ := handling_el0 s 8 vector esr far room
  refine ⟨s₁, hrun, fun v seen seen' hreq => ⟨?_, fun s₂ hsel hsp hsp₁ hframe => ?_⟩⟩
  · have hframe := hhandling.frame
    generalize frameAt s₁.mem base = f at hframe
    have hx : ∀ {i : Nat} (hi : i < 31), f.x[i] = s.x ⟨i, hi⟩ := by
      intro i hi
      rw [hframe, getElem_x_frameOf _ (by omega), ← savedWord_x s esr far ⟨i, hi⟩]
    have hesr : f.isSvc = true := by
      have hfesr : f.esr = esr := by rw [hframe]; rfl
      rw [Kreq.ExcFrameAarch64.isSvc, hfesr, hsvc]
      rfl
    have hreq' : Kreq.kernelRequestee p cfg m f.x[0] f.x[1] f.x[2] f.x[3] f.x[4] f.x[5] f.x[6] seen =
        (.ok v, seen') := by
      rw [hx (by decide), hx (by decide), hx (by decide), hx (by decide), hx (by decide), hx (by decide),
        hx (by decide)]
      exact hreq
    rw [hhandling.x0, Kreq.excHandlerAarch64, if_neg (by decide), if_pos (by decide), if_pos hesr, Eff.bind_of_ok hreq']
    rfl
  · obtain ⟨s₃, hrun₃, hctxt, hmem, htpidr, hback⟩ := resumes hsel (hsp.trans hhandling.spEl0) room.align room.lt
    refine ⟨s₃, hrun₃, ?_, ?_, htpidr, hmem⟩
    · rw [hctxt, hframe, hhandling.frame, ctxtOf_savedWord]
    · have hspsr : (frameAt s₂.mem base).spsr = s.pstate := by
        rw [hframe, hhandling.frame]
        rfl
      rw [hback, hspsr, if_pos hel, hsp₁, hspEl1]

/-- A process that asks for the request `open` with an empty path. -/
def openingCpu : Cpu :=
  { kernelCpu with
    x := fun i => if i.val = 0 then 0x1000 else if i.val = 1 then 0x2000 else 7
    pstate := 0
    sys := fun r => if r = .spEl1 then 0x8000 else if r = .tpidr then 0xa000 else 0x6000 }

/-- The request returns zero, and the process finds its request pointer in the register. -/
theorem svc_round_trip_open : ∃ s₁ s₃, run (excStubEl0 8 ++ excEntry) (takeException 0xffff 0x56000000 0 openingCpu) =
      some s₁ ∧ Kreq.excHandlerAarch64 .dev Glacier.amd64Cfg Kreq.opening (s₁.x 0) (frameAt s₁.mem 0x9cd0) ⟨[], []⟩ =
        (.ok (frameAt s₁.mem 0x9cd0), ⟨[0x1000, 0x1001, 0x1002, 0x1003, 0x1004, 0x2000], []⟩) ∧
    (run excBack (s₁.setPstate 0x3c4)).bind excReturn = some s₃ ∧ (ctxtOfCpu s₃).x 0 = 0x1000 := by
  have hroom : Room openingCpu 0x9cd0 0x7fe0 := ⟨rfl, rfl, by decide, by decide, by decide, by decide, by decide⟩
  have hreq : Kreq.kernelRequestee .dev Glacier.amd64Cfg Kreq.opening (openingCpu.x 0) (openingCpu.x 1) (openingCpu.x 2)
      (openingCpu.x 3) (openingCpu.x 4) (openingCpu.x 5) (openingCpu.x 6) ⟨[], []⟩ =
        (.ok 0, ⟨[0x1000, 0x1001, 0x1002, 0x1003, 0x1004, 0x2000], []⟩) := by decide +kernel
  obtain ⟨s₁, hrun, hcall⟩ := svc_round_trip .dev Glacier.amd64Cfg Kreq.opening 0xffff 0x56000000 0 hroom (by decide)
    (by decide)
  obtain ⟨hhandler, hback⟩ := hcall 0 _ _ hreq
  obtain ⟨s₃, hrun₃, hctxt, -⟩ := hback (s₁.setPstate 0x3c4) (show (0x3c4 : Word).getLsbD 0 = false by decide) rfl
    rfl rfl
  refine ⟨s₁, s₃, hrun, hhandler, hrun₃, ?_⟩
  rw [hctxt]
  rfl

/-! ### The run of a process -/

section Start

variable {s : Cpu} {ctxt ksp : Fin 31} {a base tramp : Nat}

/-- `rstr_ctxt` up to the vector registers. -/
theorem run_startSys (hksp : ksp ≠ 9) (hctxt : s.x ctxt = BitVec.ofNat 64 a) (hlt : a + 8 * 102 < 2 ^ 64) :
    run [.mov 9 (.x ctxt), .msr .tpidr ksp, .ldr 10 ⟨.x 9, 8 * 32⟩, .msr .elr 10, .ldr 10 ⟨.x 9, 8 * 33⟩, .msr .spsr 10,
      .ldr 10 ⟨.x 9, 8 * 100⟩, .msr .fpcr 10, .ldr 10 ⟨.x 9, 8 * 101⟩, .msr .fpsr 10] s =
        some (((setSysRegs (s.setSys .tpidr (s.x ksp)) (slots s.mem a)).setX 9 (BitVec.ofNat 64 a)).setX 10
          (slots s.mem a 101)) := by
  have hpoints : ∀ {u : Cpu}, u.x 9 = BitVec.ofNat 64 a → u.Points (.x 9) a := fun hu => ⟨hu, nofun, by omega⟩
  have hx9 : ∀ {u : Cpu} {v : Word}, ((u.setX 9 (BitVec.ofNat 64 a)).setX 10 v).x 9 = BitVec.ofNat 64 a := by
    intro u v
    rw [Cpu.setX_of_ne (by decide), Cpu.setX_self]
  have hmov : exec s (.mov 9 (.x ctxt)) = some (s.setX 9 (BitVec.ofNat 64 a)) := by rw [← hctxt]; rfl
  rw [run_cons_of_exec hmov, run_cons_of_exec (exec_msr (by decide)), Cpu.setX_of_ne hksp, Cpu.setSys_setX,
    run_cons_of_exec (exec_ldr (hpoints Cpu.setX_self) (by omega)), run_cons_of_exec (exec_msr (by decide)),
    Cpu.setX_self, Cpu.setSys_setX, Cpu.setSys_setX,
    run_cons_of_exec (exec_ldr (hpoints hx9) (by omega)), Cpu.setX_setX, run_cons_of_exec (exec_msr (by decide)),
    Cpu.setX_self, Cpu.setSys_setX, Cpu.setSys_setX,
    run_cons_of_exec (exec_ldr (hpoints hx9) (by omega)), Cpu.setX_setX, run_cons_of_exec (exec_msr (by decide)),
    Cpu.setX_self, Cpu.setSys_setX, Cpu.setSys_setX,
    run_cons_of_exec (exec_ldr (hpoints hx9) (by omega)), Cpu.setX_setX, run_cons_of_exec (exec_msr (by decide)),
    Cpu.setX_self, Cpu.setSys_setX, Cpu.setSys_setX, run_nil]
  rfl

theorem rstrCtxt_eq (ctxt ksp : Fin 31) : rstrCtxt ctxt ksp =
    [.mov 9 (.x ctxt), .msr .tpidr ksp, .ldr 10 ⟨.x 9, 8 * 32⟩, .msr .elr 10, .ldr 10 ⟨.x 9, 8 * 33⟩, .msr .spsr 10,
      .ldr 10 ⟨.x 9, 8 * 100⟩, .msr .fpcr 10, .ldr 10 ⟨.x 9, 8 * 101⟩, .msr .fpsr 10] ++
    (loadVecs (.x 9) ++ loadRegs) := rfl

/-- The processor leaves the kernel with the context of the frame at `a` and with the kernel stack that it was given.
The first instruction overwrites `x9`, so the operand for the stack must not have been put there. -/
theorem run_rstrCtxt (hksp : ksp ≠ 9) (hctxt : s.x ctxt = BitVec.ofNat 64 a) (hlt : a + 8 * 102 < 2 ^ 64) :
    ∃ u, run (rstrCtxt ctxt ksp) s = some u ∧ ctxtOfCpu (eret u) = ctxtOf (frameAt s.mem a) ∧
      u.sys .tpidr = s.x ksp ∧ u.sys .spEl1 = s.sys .spEl1 ∧ u.mem = s.mem := by
  obtain ⟨t, ht⟩ : ∃ t, t = ((setSysRegs (s.setSys .tpidr (s.x ksp)) (slots s.mem a)).setX 9
    (BitVec.ofNat 64 a)).setX 10 (slots s.mem a 101) := ⟨_, rfl⟩
  have ht9 : t.x 9 = BitVec.ofNat 64 a := by rw [ht, Cpu.setX_of_ne (by decide), Cpu.setX_self]
  have htmem : t.mem = s.mem := by rw [ht]; rfl
  have hpoints : t.Points (.x 9) a := ⟨ht9, nofun, by omega⟩
  rw [rstrCtxt_eq, run_append_of_run (run_startSys hksp hctxt hlt), ← ht, run_append_of_run (run_loadVecs hpoints hlt),
    run_loadRegs (by exact ht9) hlt]
  refine ⟨_, rfl, ?_, ?_, ?_, htmem⟩
  · unfold frameAt
    rw [ctxtOf_frameOf, ← htmem, ht]
    rfl
  · rw [ht]
    rfl
  · rw [ht]
    rfl

end Start

/-- What a process does by itself: it stays at its exception level, where it can not write the two registers that tell
where its exceptions go. -/
structure UserStep (s s' : Cpu) : Prop where
  el : s'.pstate &&& 0b1100 = 0
  spEl1 : s'.sys .spEl1 = s.sys .spEl1
  tpidr : s'.sys .tpidr = s.sys .tpidr

/-- A step of a process, or an exception with whatever the handler does above its own stack frame, as long as it leaves
the exception level in the frame. -/
inductive ProcStep (base : Nat) : Cpu → Cpu → Prop where
  | user {s s' : Cpu} (h : UserStep s s') : ProcStep base s s'
  | exception {s s₁ s₂ s₃ : Cpu} {stub : List Instr} {n : Nat} {vector esr far : Word} (hn : 8 ≤ n ∧ n < 16)
      (hvts : excVts n = some stub) (hrun : run (stub ++ excEntry) (takeException vector esr far s) = some s₁)
      (hsel : s₂.pstate.getLsbD 0 = false) (hsp : s₂.sys .spEl0 = s₁.sys .spEl0)
      (hspEl1 : s₂.sys .spEl1 = s₁.sys .spEl1) (htpidr : s₂.sys .tpidr = s₁.sys .tpidr)
      (hel : (frameAt s₂.mem base).spsr &&& 0b1100 = 0) (hback : (run excBack s₂).bind excReturn = some s₃) :
      ProcStep base s s₃

/-- A process whose exceptions have room. -/
structure Ready (base tramp : Nat) (s : Cpu) : Prop where
  room : Room s base tramp
  el : s.pstate &&& 0b1100 = 0

theorem Ready.step {base tramp : Nat} {s s' : Cpu} (h : Ready base tramp s) (hstep : ProcStep base s s') :
    Ready base tramp s' := by
  have hroom : ∀ {t : Cpu}, t.sys .tpidr = s.sys .tpidr → t.sys .spEl1 = s.sys .spEl1 → Room t base tramp :=
    fun htpidr hspEl1 => ⟨htpidr.trans h.room.tpidr, hspEl1.trans h.room.spEl1, h.room.align, h.room.alignTramp,
      h.room.lt, h.room.ltTramp, h.room.apart⟩
  cases hstep with
  | user hu => exact ⟨hroom hu.tpidr hu.spEl1, hu.el⟩
  | @exception s₁ s₂ s₃ stub n vector esr far hn hvts hrun hsel hsp hspEl1 htpidr hel hback =>
      obtain ⟨stub', t, hvts', hrun', hhandling, hsp₁, -⟩ := (Place.el0 hn h.el h.room).handling vector esr far
      obtain rfl : stub = stub' := Option.some.inj (hvts.symm.trans hvts')
      obtain rfl : s₁ = t := Option.some.inj (hrun.symm.trans hrun')
      obtain ⟨u, hback', hctxt, -, htpidr', hspEl1'⟩ :=
        resumes hsel (hsp.trans hhandling.spEl0) h.room.align h.room.lt
      obtain rfl : s' = u := Option.some.inj (hback.symm.trans hback')
      rw [if_pos h.el] at hsp₁
      rw [if_pos hel, hspEl1, ← hsp₁] at hspEl1'
      refine ⟨hroom (htpidr'.trans (htpidr.trans hhandling.tpidr)) hspEl1', ?_⟩
      have hpstate : s'.pstate = (frameAt s₂.mem base).spsr := congrArg Ctxt.pstate hctxt
      rw [hpstate, hel]

theorem Ready.run {base tramp : Nat} {s t : Cpu} (h : Ready base tramp s)
    (hreach : Relation.ReflTransGen (ProcStep base) s t) : Ready base tramp t := by
  induction hreach with
  | refl => exact h
  | tail _ hstep ih => exact ih.step hstep

theorem ready_rstrCtxt {s : Cpu} {ctxt ksp : Fin 31} {a base tramp : Nat} (hksp : ksp ≠ 9)
    (hctxt : s.x ctxt = BitVec.ofNat 64 a) (hlt : a + 8 * 102 < 2 ^ 64) (hel : (frameAt s.mem a).spsr &&& 0b1100 = 0)
    (room : Room (s.setSys .tpidr (s.x ksp)) base tramp) :
    ∃ u, run (rstrCtxt ctxt ksp) s = some u ∧ ctxtOfCpu (eret u) = ctxtOf (frameAt s.mem a) ∧
      Ready base tramp (eret u) := by
  obtain ⟨u, hrun, hresumed, htpidr, hspEl1, -⟩ := run_rstrCtxt hksp hctxt hlt
  refine ⟨u, hrun, hresumed, ⟨?_, ?_, room.align, room.alignTramp, room.lt, room.ltTramp, room.apart⟩, ?_⟩
  · rw [← room.tpidr, Cpu.setSys_self, ← htpidr]
    rfl
  · rw [← room.spEl1, Cpu.setSys_of_ne (by decide), ← hspEl1]
    rfl
  · have hpstate : (eret u).pstate = (frameAt s.mem a).spsr := congrArg Ctxt.pstate hresumed
    rw [hpstate, hel]

/-- A process from its start on, over any run of its own steps and of exceptions: wherever it is interrupted, its whole
context is saved at the end of the kernel stack that `rstr_ctxt` was given. -/
theorem process_always_saved {s : Cpu} {ctxt ksp : Fin 31} {a base tramp : Nat} (hksp : ksp ≠ 9)
    (hctxt : s.x ctxt = BitVec.ofNat 64 a) (hlt : a + 8 * 102 < 2 ^ 64) (hel : (frameAt s.mem a).spsr &&& 0b1100 = 0)
    (room : Room (s.setSys .tpidr (s.x ksp)) base tramp) :
    ∃ u, run (rstrCtxt ctxt ksp) s = some u ∧ ctxtOfCpu (eret u) = ctxtOf (frameAt s.mem a) ∧
      ∀ t, Relation.ReflTransGen (ProcStep base) (eret u) t → ∀ n vector esr far, 8 ≤ n → n < 16 →
        ∃ stub s₁, excVts n = some stub ∧ run (stub ++ excEntry) (takeException vector esr far t) = some s₁ ∧
          s₁.sp = BitVec.ofNat 64 base ∧ s₁.x 1 = BitVec.ofNat 64 base ∧
          ctxtOf (frameAt s₁.mem base) = ctxtOfCpu t := by
  obtain ⟨u, hrun, hresumed, hstart⟩ := ready_rstrCtxt hksp hctxt hlt hel room
  refine ⟨u, hrun, hresumed, fun t hreach n vector esr far hlow hhigh => ?_⟩
  have hready := hstart.run hreach
  obtain ⟨stub, s₁, hvts, hrun₁, hhandling, -⟩ :=
    (Place.el0 ⟨hlow, hhigh⟩ hready.el hready.room).handling vector esr far
  refine ⟨stub, s₁, hvts, hrun₁, ?_, hhandling.x1, ?_⟩
  · rw [Cpu.sp_eq_spEl0 hhandling.spSel, hhandling.spEl0]
  · rw [hhandling.frame, ctxtOf_savedWord]

/-- The kernel about to start a process at `0x400000`. -/
def startingCpu : Cpu :=
  { kernelCpu with
    x := fun i => if i.val = 0 then 0x1000 else 0xa000
    mem := put (fun _ => 0) 0x1000 [(31, 0x7000), (32, 0x400000)] }

/-- A process that has loaded a register and gone on to the next instruction. -/
def loaded (s : Cpu) : Cpu := { s with x := fun i => if i.val = 0 then 7 else s.x i, pc := s.pc + 4 }

/-- The process starts, takes a step, is interrupted and resumed, and calls the kernel. -/
theorem process_always_saved_start : ∃ u s₁ s₂ s₃, run (rstrCtxt 0 1) startingCpu = some u ∧
    ctxtOfCpu (eret u) = ctxtOf (setSp (setPc newFrame 0x400000) 0x7000) ∧
    run (excStubEl0 9 ++ excEntry) (takeException 0xffff 0 0 (loaded (eret u))) = some s₁ ∧
    (run excBack s₁).bind excReturn = some s₂ ∧ ctxtOfCpu s₂ = ctxtOfCpu (loaded (eret u)) ∧
    run (excStubEl0 8 ++ excEntry) (takeException 0xffff 0x56000000 0 s₂) = some s₃ ∧
    ctxtOf (frameAt s₃.mem 0x9cd0) = ctxtOfCpu s₂ := by
  have hframe : frameAt startingCpu.mem 0x1000 = setSp (setPc newFrame 0x400000) 0x7000 := by decide +kernel
  have hel : (frameAt startingCpu.mem 0x1000).spsr &&& 0b1100 = 0 := by
    rw [hframe]
    decide
  have hroom : Room (startingCpu.setSys .tpidr (startingCpu.x 1)) 0x9cd0 0x7fe0 :=
    ⟨rfl, rfl, by decide, by decide, by decide, by decide, by decide⟩
  obtain ⟨u, hrun, hctxt, hall⟩ :=
    @process_always_saved startingCpu 0 1 0x1000 _ _ (by decide) rfl (by decide) hel hroom
  obtain ⟨v, hrun', -, hstart⟩ := @ready_rstrCtxt startingCpu 0 1 0x1000 _ _ (by decide) rfl (by decide) hel hroom
  obtain rfl : u = v := Option.some.inj (hrun.symm.trans hrun')
  -- its own step
  have huser : UserStep (eret u) (loaded (eret u)) := ⟨hstart.el, rfl, rfl⟩
  have hready := hstart.step (.user huser)
  -- the interrupt, with a handler that leaves everything as it is
  obtain ⟨stub, s₁, hvts, hrun₁, hhandling, -⟩ :=
    (Place.el0 (by decide) hready.el hready.room : Place _ _ 9).handling 0xffff 0 0
  obtain rfl : excStubEl0 9 = stub := Option.some.inj hvts
  obtain ⟨s₂, hback, hctxt₂, -⟩ := resumes hhandling.spSel hhandling.spEl0 hroom.align hroom.lt
  have hsaved₁ : ctxtOf (frameAt s₁.mem 0x9cd0) = ctxtOfCpu (loaded (eret u)) := by
    rw [hhandling.frame, ctxtOf_savedWord]
  have hel₁ : (frameAt s₁.mem 0x9cd0).spsr &&& 0b1100 = 0 := by
    have hspsr : (frameAt s₁.mem 0x9cd0).spsr = (loaded (eret u)).pstate := congrArg Ctxt.pstate hsaved₁
    rw [hspsr, hready.el]
  have hreach : Relation.ReflTransGen (ProcStep 0x9cd0) (eret u) s₂ :=
    (Relation.ReflTransGen.single (.user huser)).tail
      (.exception (by decide) hvts hrun₁ hhandling.spSel rfl rfl rfl hel₁ hback)
  obtain ⟨stub, s₃, hvts₃, hrun₃, -, -, hsaved⟩ := hall s₂ hreach 8 0xffff 0x56000000 0 (by decide) (by decide)
  obtain rfl : excStubEl0 8 = stub := Option.some.inj hvts₃
  exact ⟨u, s₁, s₂, s₃, hrun, hctxt.trans (congrArg ctxtOf hframe), hrun₁, hback, hctxt₂.trans hsaved₁, hrun₃, hsaved⟩

end TrapAarch64

end UnixKernel
