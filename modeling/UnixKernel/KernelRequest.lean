import UnixKernel.Effects
import UnixKernel.GlacierFlags
import UnixKernel.GlacierShare

/-! The kernel side of a request. A process hands over the address of the request's name and six arguments, and
`kernel_requestee` reads the name, and for some requests further memory, through these addresses. What it reads is
kept as a trace. The name is read before anything is checked, and so is the path of `open`; only `_print` checks its
range first. So the kernel stays below the upper half exactly if the name and the path end there by themselves. -/

namespace UnixKernel

namespace Kreq

open Glacier

/-- The memory as the processor sees it under the tables of the process; an address without a mapping faults. -/
abbrev Space := Word → Option Byte

/-- What the kernel has done: the addresses it has read through, and what it has printed. -/
structure Seen where
  reads : List Word
  printed : List Byte
  deriving DecidableEq

/-- Why a request does not return. -/
inductive Stop where
  /-- The deliberate read of `INVALID_VA`. -/
  | fault
  | pageFault
  /-- The length of the path leaves the word; an unchecked build goes round for ever. -/
  | overflow
  | exit (code : BitVec 32)
  /-- A panic: of the exception handler, or of a checked build at a pointer it refuses. -/
  | panic
  deriving DecidableEq

/-- A byte read through an address of the process. -/
def load (m : Space) (a : Word) : Eff Seen Stop Byte := fun s =>
  ((m a).elim (.error .pageFault) .ok, { s with reads := s.reads ++ [a] })

/-- `serial_putchar`. -/
def serialPutchar (b : Byte) : Eff Seen Stop Unit := fun s => (.ok (), { s with printed := s.printed ++ [b] })

/-- A checked build refuses the byte `i` behind `ptr`: the pointer is null, or `add` leaves the word or
goes further than an `isize` counts. -/
def Refused (p : Profile) (ptr : Word) (i : Nat) : Prop :=
  p = .dev ∧ (ptr.toNat + i = 0 ∨ 2 ^ 64 ≤ ptr.toNat + i ∨ 2 ^ 63 ≤ i)

instance (p : Profile) (ptr : Word) (i : Nat) : Decidable (Refused p ptr i) :=
  inferInstanceAs (Decidable (_ ∧ _))

/-- `*ptr.add(i)`. -/
def deref (p : Profile) (m : Space) (ptr : Word) (i : Nat) : Eff Seen Stop Byte :=
  if Refused p ptr i then Eff.lift (.error .panic) else load m (ptr + BitVec.ofNat 64 i)

/-- The bytes from the `i`-th behind `ptr` up to the first zero byte, or `n` of them. -/
def scan (p : Profile) (m : Space) (ptr : Word) : Nat → Nat → Eff Seen Stop (List Byte)
  | 0, _ => pure []
  | n + 1, i => do
      let b ← deref p m ptr i
      if b = 0 then pure []
      else do
        let rest ← scan p m ptr n (i + 1)
        pure (b :: rest)

/-- The loop of `_print`, with `n` bytes to go. -/
def printFrom (p : Profile) (m : Space) (ptr : Word) : Nat → Nat → Eff Seen Stop Unit
  | 0, _ => pure ()
  | n + 1, i => do
      let b ← deref p m ptr i
      serialPutchar b
      printFrom p m ptr n (i + 1)

/-- `usize::saturating_add` and `usize::saturating_mul`, given the exact result. -/
def saturating (x : Nat) : Nat := min x (2 ^ 64 - 1)

/-- The macro `check_fault`. -/
def checkFault (cfg : RvmCfg) (ptr ctr size : Nat) : Eff Seen Stop Unit :=
  let ctrEnd := saturating (ptr + saturating (ctr * size))
  Eff.lift (if ctrEnd ≥ hihalf cfg then .error .fault else .ok ())

/-- A byte string of the source. -/
def name (cs : List Char) : List Byte := cs.map fun c => BitVec.ofNat 8 c.toNat

def kernelRequestee (p : Profile) (cfg : RvmCfg) (m : Space)
    (req arg1 arg2 _arg3 _arg4 _arg5 _arg6 : Word) : Eff Seen Stop Word := do
  let req ← scan p m req 16 0
  if req = name ['e', 'x', 'i', 't'] then Eff.lift (.error (.exit (arg1.setWidth 32)))
  else if req = name ['o', 'p', 'e', 'n'] then do
    let path ← scan p m arg1 (2 ^ 64) 0
    if path.length = 2 ^ 64 then Eff.lift (.error .overflow)
    else do
      let ctr ← Eff.lift (p.fit .overflow 64 (path.length + 1 : Nat))
      checkFault cfg arg1.toNat ctr 1
      pure 0
  else if req = name ['_', 'p', 'r', 'i', 'n', 't'] then do
    checkFault cfg arg1.toNat arg2.toNat 1
    printFrom p m arg1 arg2.toNat 0
    pure 0
  else pure 0

/-! ### The trace -/

variable {m : Space} {p : Profile} {cfg : RvmCfg} {hi : Nat}

/-- Every address read so far lies below `hi`. -/
def Below (hi : Nat) (s : Seen) : Prop := ∀ a ∈ s.reads, a.toNat < hi

instance (hi : Nat) (s : Seen) : Decidable (Below hi s) := inferInstanceAs (Decidable (∀ a ∈ s.reads, _))

theorem below_load {a : Word} {s : Seen} : Below hi (load m a s).2 ↔ Below hi s ∧ a.toNat < hi := by
  simp only [Below, load, List.mem_append, List.mem_singleton, or_imp, forall_and, forall_eq]

theorem load_of_none {a : Word} (h : m a = none) (s : Seen) :
    load m a s = (.error .pageFault, (load m a s).2) := by
  simp only [load, h, Option.elim]

theorem load_of_some {a : Word} {b : Byte} (h : m a = some b) (s : Seen) :
    load m a s = (.ok b, (load m a s).2) := by
  simp only [load, h, Option.elim]

theorem toNat_succ {a : Word} (h : a.toNat + 1 < 2 ^ 64) : (a + 1).toNat = a.toNat + 1 := by
  rw [BitVec.toNat_add, show (1 : Word).toNat = 1 from rfl, Nat.mod_eq_of_lt h]

/-- From `a` on there is a byte below `hi` that ends a string: a zero byte, or one that is not mapped. -/
def Ends (m : Space) (hi : Nat) (a : Word) : Prop :=
  ∃ x : Word, a.toNat ≤ x.toNat ∧ x.toNat < hi ∧ (m x = none ∨ m x = some 0)

theorem Ends.lt {a : Word} (h : Ends m hi a) : a.toNat < hi := by
  obtain ⟨x, hle, hlt, -⟩ := h
  omega

theorem ends_succ {a : Word} {b : Byte} (hb : m a = some b) (hne : b ≠ 0) (ha : a.toNat + 1 < 2 ^ 64) :
    Ends m hi (a + 1) ↔ Ends m hi a := by
  have hsucc := toNat_succ ha
  constructor
  · rintro ⟨x, hle, hx⟩
    exact ⟨x, by omega, hx⟩
  · rintro ⟨x, hle, hlt, hstop⟩
    refine ⟨x, ?_, hlt, hstop⟩
    rcases Nat.eq_or_lt_of_le hle with heq | hgt
    · obtain rfl : a = x := BitVec.eq_of_toNat_eq heq
      rcases hstop with hstop | hstop <;> rw [hb] at hstop <;> cases hstop
      exact absurd rfl hne
    · omega

theorem deref_of_refused {ptr : Word} {i : Nat} (h : Refused p ptr i) (s : Seen) :
    deref p m ptr i s = (.error .panic, s) := by
  rw [deref, if_pos h]
  rfl

theorem deref_of_not_refused {ptr : Word} {i : Nat} (h : ¬Refused p ptr i) :
    deref p m ptr i = load m (ptr + BitVec.ofNat 64 i) := if_neg h

theorem toNat_add_ofNat {ptr : Word} {i : Nat} (h : ptr.toNat + i < 2 ^ 64) :
    (ptr + BitVec.ofNat 64 i).toNat = ptr.toNat + i := by
  rw [BitVec.toNat_add, BitVec.toNat_ofNat, Nat.mod_eq_of_lt (by omega : i < 2 ^ 64), Nat.mod_eq_of_lt h]

theorem add_ofNat_succ (ptr : Word) (i : Nat) :
    ptr + BitVec.ofNat 64 (i + 1) = ptr + BitVec.ofNat 64 i + 1 := by
  rw [BitVec.ofNat_add, ← BitVec.add_assoc]
  rfl

theorem add_ofNat_zero (ptr : Word) : ptr + BitVec.ofNat 64 0 = ptr := BitVec.add_zero ptr

theorem scan_of_refused {ptr : Word} {n i : Nat} (hn : 0 < n) (h : Refused p ptr i) (s : Seen) :
    scan p m ptr n i s = (.error .panic, s) := by
  obtain ⟨k, rfl⟩ := Nat.exists_eq_add_of_lt hn
  exact Eff.bind_of_error (deref_of_refused h s)

theorem refused_null {ptr : Word} (h : p = .dev ∧ ptr = 0) : Refused p ptr 0 := ⟨h.1, Or.inl (by rw [h.2]; rfl)⟩

/-- What has been read stays in the trace. -/
theorem below_of_scan {ptr : Word} {n i : Nat} {s : Seen} (h : Below hi (scan p m ptr n i s).2) : Below hi s := by
  induction n generalizing i s with
  | zero => exact h
  | succ n ih =>
      rw [scan] at h
      by_cases hrefused : Refused p ptr i
      · rwa [Eff.bind_of_error (deref_of_refused hrefused s)] at h
      rw [deref_of_not_refused hrefused] at h
      have hload := @below_load m hi (ptr + BitVec.ofNat 64 i) s
      cases hm : m (ptr + BitVec.ofNat 64 i) with
      | none =>
          rw [Eff.bind_of_error (load_of_none hm s)] at h
          exact (hload.mp h).1
      | some b =>
          rw [Eff.bind_of_ok (load_of_some hm s)] at h
          by_cases hb : b = 0
          · rw [if_pos hb] at h
            exact (hload.mp h).1
          · rw [if_neg hb, Eff.bind_snd fun _ _ => rfl] at h
            exact (hload.mp (ih h)).1

/-- How many bytes a scan for `n` bytes may read from the `i`-th on. -/
def reach (p : Profile) (n i : Nat) : Nat := if p = .dev then min n (2 ^ 63 - i) else n

/-- A scan stays below `hi` exactly if it has no room to leave or the string ends before. -/
theorem below_scan (hhi : hi < 2 ^ 64) {ptr : Word} (hptr : ¬(p = .dev ∧ ptr = 0)) (n i : Nat)
    (hi64 : ptr.toNat + i < 2 ^ 64) (s : Seen) :
    Below hi (scan p m ptr n i s).2 ↔ Below hi s ∧
      (reach p n i = 0 ∨ ptr.toNat + i + reach p n i ≤ hi ∨ Ends m hi (ptr + BitVec.ofNat 64 i)) := by
  induction n generalizing i s with
  | zero =>
      have hreach : reach p 0 i = 0 := by
        rw [reach]
        split <;> omega
      exact ⟨fun h => ⟨h, Or.inl hreach⟩, fun h => h.1⟩
  | succ n ih =>
      rw [scan]
      by_cases hrefused : Refused p ptr i
      · have hreach : reach p (n + 1) i = 0 := by
          obtain ⟨hdev, hzero | hwrap | hfar⟩ := hrefused
          · refine absurd ⟨hdev, ?_⟩ hptr
            exact BitVec.eq_of_toNat_eq (by rw [Nat.eq_zero_of_add_eq_zero_right hzero]; rfl)
          · omega
          · rw [reach, if_pos hdev]
            omega
        rw [Eff.bind_of_error (deref_of_refused hrefused s)]
        exact ⟨fun h => ⟨h, Or.inl hreach⟩, fun h => h.1⟩
      have hreach : reach p (n + 1) i = reach p n (i + 1) + 1 := by
        rw [reach, reach]
        split_ifs with hdev
        · have hnear : i < 2 ^ 63 := by
            by_contra hfar
            exact hrefused ⟨hdev, Or.inr (Or.inr (Nat.le_of_not_lt hfar))⟩
          omega
        · rfl
      rw [deref_of_not_refused hrefused, hreach]
      have haddr := toNat_add_ofNat hi64
      have hsucc := add_ofNat_succ ptr i
      generalize ptr + BitVec.ofNat 64 i = a at haddr hsucc ⊢
      have hload := @below_load m hi a s
      have hstop : m a = none ∨ m a = some 0 → (Below hi (load m a s).2 ↔ Below hi s ∧
          (reach p n (i + 1) + 1 = 0 ∨ ptr.toNat + i + (reach p n (i + 1) + 1) ≤ hi ∨ Ends m hi a)) := by
        intro hstop
        rw [hload, and_congr_right_iff]
        refine fun _ => ⟨fun hlt => Or.inr (Or.inr ⟨a, le_refl _, hlt, hstop⟩), ?_⟩
        rintro (hzero | hroom | hends)
        · cases hzero
        · omega
        · exact hends.lt
      cases hm : m a with
      | none =>
          rw [Eff.bind_of_error (load_of_none hm s)]
          exact hstop (Or.inl hm)
      | some b =>
          rw [Eff.bind_of_ok (load_of_some hm s)]
          by_cases hb : b = 0
          · rw [if_pos hb]
            exact hstop (Or.inr (hb ▸ hm))
          rw [if_neg hb, Eff.bind_snd fun _ _ => rfl]
          -- past `hi` the trace is spoilt already; before it the next address does not wrap
          by_cases hlt : a.toNat < hi
          · rw [ih (i + 1) (by omega), hload, hsucc, ends_succ hm hb (by omega), and_iff_left hlt]
            refine and_congr_right fun _ => ?_
            constructor
            · rintro (hzero | hroom | hends)
              · exact Or.inr (Or.inl (by omega))
              · exact Or.inr (Or.inl (by omega))
              · exact Or.inr (Or.inr hends)
            · rintro (hzero | hroom | hends)
              · cases hzero
              · exact Or.inr (Or.inl (by omega))
              · exact Or.inr (Or.inr hends)
          · refine iff_of_false (fun h => hlt (hload.mp (below_of_scan h)).2) ?_
            rintro ⟨-, hzero | hroom | hends⟩
            · cases hzero
            · omega
            · exact hlt hends.lt

/-- The string `l`, ended by a zero byte, stands at `a`. -/
def Spells (m : Space) : List Byte → Word → Prop
  | [], a => m a = some 0
  | b :: l, a => m a = some b ∧ Spells m l (a + 1)

/-- A scan that returns a string shorter than its bound has found it. -/
theorem spells_of_scan {l : List Byte} {ptr : Word} {n i : Nat} (hn : l.length < n) {s : Seen}
    (h : (scan p m ptr n i s).1 = .ok l) : Spells m l (ptr + BitVec.ofNat 64 i) := by
  induction n generalizing l i s with
  | zero => exact absurd hn (Nat.not_lt_zero _)
  | succ n ih =>
      rw [scan] at h
      by_cases hrefused : Refused p ptr i
      · rw [Eff.bind_of_error (deref_of_refused hrefused s)] at h
        cases h
      rw [deref_of_not_refused hrefused] at h
      cases hm : m (ptr + BitVec.ofNat 64 i) with
      | none =>
          rw [Eff.bind_of_error (load_of_none hm s)] at h
          cases h
      | some b =>
          rw [Eff.bind_of_ok (load_of_some hm s)] at h
          by_cases hb : b = 0
          · rw [if_pos hb] at h
            cases h
            rw [Spells, hm, hb]
          rw [if_neg hb] at h
          rcases hscan : scan p m ptr n (i + 1) (load m (ptr + BitVec.ofNat 64 i) s).2 with ⟨e | r, s'⟩
          · rw [Eff.bind_of_error hscan] at h
            cases h
          · rw [Eff.bind_of_ok hscan] at h
            cases h
            rw [List.length_cons] at hn
            have hrest := ih (Nat.lt_of_succ_lt_succ hn) (congrArg Prod.fst hscan)
            rw [add_ofNat_succ] at hrest
            exact ⟨hm, hrest⟩

/-- A string that stands where the pointer may go is returned. -/
theorem scan_of_spells {l : List Byte} (hl : (0 : Byte) ∉ l) {ptr : Word} {n i : Nat} (hn : l.length < n)
    (hmay : ∀ j ≤ l.length, ¬Refused p ptr (i + j)) (h : Spells m l (ptr + BitVec.ofNat 64 i)) (s : Seen) :
    (scan p m ptr n i s).1 = .ok l := by
  induction n generalizing l i s with
  | zero => exact absurd hn (Nat.not_lt_zero _)
  | succ n ih =>
      rw [scan, deref_of_not_refused (i := i) (hmay 0 (Nat.zero_le _))]
      cases l with
      | nil => rw [Eff.bind_of_ok (load_of_some h s), if_pos rfl]; rfl
      | cons b l =>
          rw [List.mem_cons, not_or] at hl
          rw [List.length_cons] at hn hmay
          have hrest : Spells m l (ptr + BitVec.ofNat 64 (i + 1)) := by
            rw [add_ofNat_succ]
            exact h.2
          have hmay' : ∀ j ≤ l.length, ¬Refused p ptr (i + 1 + j) := by
            intro j hj
            rw [Nat.add_assoc, Nat.add_comm 1]
            exact hmay (j + 1) (by omega)
          have hscan := ih hl.2 (Nat.lt_of_succ_lt_succ hn) hmay' hrest (load m (ptr + BitVec.ofNat 64 i) s).2
          rw [Eff.bind_of_ok (load_of_some h.1 s), if_neg (Ne.symm hl.1)]
          exact congrArg Prod.fst (Eff.bind_of_ok (Prod.ext hscan rfl))

theorem Spells.lt_of_ends {l : List Byte} (hl : (0 : Byte) ∉ l) (hhi : hi < 2 ^ 64) {a : Word}
    (h : Spells m l a) (hends : Ends m hi a) : a.toNat + l.length < hi := by
  induction l generalizing a with
  | nil => exact hends.lt
  | cons b l ih =>
      rw [List.mem_cons, not_or] at hl
      have hlt := hends.lt
      have hnext := ih hl.2 h.2 ((ends_succ h.1 (Ne.symm hl.1) (by omega)).mpr hends)
      rw [toNat_succ (by omega)] at hnext
      rw [List.length_cons]
      omega

/-! ### The requests -/

/-- A request that returns, returns zero. -/
theorem eq_zero_of_kernelRequestee {req arg1 arg2 arg3 arg4 arg5 arg6 v : Word} {s s' : Seen}
    (h : kernelRequestee p cfg m req arg1 arg2 arg3 arg4 arg5 arg6 s = (.ok v, s')) : v = 0 := by
  obtain ⟨l, s₁, -, h⟩ := Eff.bind_eq_ok.mp h
  split_ifs at h
  · cases h
  · obtain ⟨path, s₂, -, h⟩ := Eff.bind_eq_ok.mp h
    split_ifs at h
    · cases h
    · obtain ⟨ctr, s₃, -, h⟩ := Eff.bind_eq_ok.mp h
      obtain ⟨u, s₄, -, h⟩ := Eff.bind_eq_ok.mp h
      cases h
      rfl
  · obtain ⟨u, s₂, -, h⟩ := Eff.bind_eq_ok.mp h
    obtain ⟨u', s₃, -, h⟩ := Eff.bind_eq_ok.mp h
    cases h
    rfl
  · cases h
    rfl

theorem hihalf_lt (cfg : RvmCfg) : hihalf cfg < 2 ^ 64 :=
  Nat.sub_lt (Nat.two_pow_pos 64) (Nat.two_pow_pos _)

theorem lt_of_checkFault {a n : Word} {s s' : Seen} (h : checkFault cfg a.toNat n.toNat 1 s = (.ok (), s')) :
    a.toNat + n.toNat < hihalf cfg ∧ s' = s := by
  obtain ⟨hcheck, hs⟩ := Eff.lift_eq_ok h
  refine ⟨?_, hs⟩
  split_ifs at hcheck with hend
  have ha := a.isLt
  have hn := n.isLt
  have hhi := hihalf_lt cfg
  rw [saturating, saturating] at hend
  omega

theorem below_printFrom (hhi : hi < 2 ^ 64) {ptr : Word} {n i : Nat} (h : ptr.toNat + i + n ≤ hi) (s : Seen) :
    Below hi (printFrom p m ptr n i s).2 ↔ Below hi s := by
  induction n generalizing i s with
  | zero => exact Iff.rfl
  | succ n ih =>
      rw [printFrom]
      by_cases hrefused : Refused p ptr i
      · rw [Eff.bind_of_error (deref_of_refused hrefused s)]
      have haddr := @toNat_add_ofNat ptr i (by omega)
      have hload : Below hi (load m (ptr + BitVec.ofNat 64 i) s).2 ↔ Below hi s := by
        rw [below_load, and_iff_left (by omega)]
      rw [deref_of_not_refused hrefused]
      cases hm : m (ptr + BitVec.ofNat 64 i) with
      | none =>
          rw [Eff.bind_of_error (load_of_none hm s)]
          exact hload
      | some b =>
          rw [Eff.bind_of_ok (load_of_some hm s)]
          exact (ih (by omega) _).trans hload

/-- The path of `open` is read below `hi` only: no byte of it is read, or the scan has no room to leave, or the
path ends there. -/
def PathBelow (p : Profile) (m : Space) (hi : Nat) (a : Word) : Prop :=
  p = .dev ∧ (a = 0 ∨ a.toNat + 2 ^ 63 ≤ hi) ∨ Ends m hi a

theorem below_path (hhi : hi < 2 ^ 64) (a : Word) {s : Seen} (hs : Below hi s) :
    Below hi (scan p m a (2 ^ 64) 0 s).2 ↔ PathBelow p m hi a := by
  by_cases hnull : p = .dev ∧ a = 0
  · refine iff_of_true ?_ (Or.inl ⟨hnull.1, Or.inl hnull.2⟩)
    rw [scan_of_refused (Nat.two_pow_pos 64) (refused_null hnull)]
    exact hs
  have hscan := below_scan (m := m) hhi hnull (2 ^ 64) 0 (by omega) s
  rw [Nat.add_zero, add_ofNat_zero, and_iff_right hs] at hscan
  rw [hscan, PathBelow]
  cases p with
  | dev =>
      have hne : ¬a = 0 := fun h => hnull ⟨rfl, h⟩
      have hreach : reach .dev (2 ^ 64) 0 = 2 ^ 63 := rfl
      rw [hreach, and_iff_right rfl, or_iff_right hne, or_iff_right (Nat.two_pow_pos 63).ne']
  | release =>
      have hbig : ¬a.toNat + 2 ^ 64 ≤ hi := by omega
      simp only [reach, reduceCtorEq, if_false, Nat.pow_eq_zero, OfNat.ofNat_ne_zero, false_and, false_or, hbig]

theorem below_name (hhi : hi < 2 ^ 64) {req : Word} (hreq : ¬(p = .dev ∧ req = 0)) :
    Below hi (scan p m req 16 0 ⟨[], []⟩).2 ↔ req.toNat + 16 ≤ hi ∨ Ends m hi req := by
  have hscan := below_scan (m := m) hhi hreq 16 0 (by omega) ⟨[], []⟩
  have hstart : Below hi ⟨[], []⟩ := fun a ha => absurd ha List.not_mem_nil
  have hreach : reach p 16 0 = 16 := by cases p <;> rfl
  rw [Nat.add_zero, add_ofNat_zero, and_iff_right hstart, hreach] at hscan
  rw [hscan]
  simp

/-- A name that is read below `hi` is the one that stands there. -/
theorem scan_name_iff (hhi : hi < 2 ^ 64) {req : Word} (hreq : ¬(p = .dev ∧ req = 0)) {l : List Byte}
    (hl : (0 : Byte) ∉ l) (hlen : l.length < 16) (h : req.toNat + 16 ≤ hi ∨ Ends m hi req) (s : Seen) :
    (scan p m req 16 0 s).1 = .ok l ↔ Spells m l req := by
  constructor
  · intro hscan
    have hspells := spells_of_scan hlen hscan
    rwa [add_ofNat_zero] at hspells
  · intro hspells
    have hroom : req.toNat + l.length < hi := by
      rcases h with hroom | hends
      · omega
      · exact hspells.lt_of_ends hl hhi hends
    refine scan_of_spells hl hlen (fun j hj hrefused => ?_) (by rwa [add_ofNat_zero]) s
    obtain ⟨hdev, hnull | hwrap | hfar⟩ := hrefused
    · refine hreq ⟨hdev, BitVec.eq_of_toNat_eq ?_⟩
      rw [Nat.eq_zero_of_add_eq_zero_right hnull]
      rfl
    · omega
    · omega

/-- The addresses that a request reads lie below the upper half exactly if a checked build refuses a null name, or
the name of the request ends there or has room for sixteen bytes, and, for `open`, the path is read there only. -/
theorem kernelRequestee_below (p : Profile) (cfg : RvmCfg) (m : Space)
    (req arg1 arg2 arg3 arg4 arg5 arg6 : Word) :
    Below (hihalf cfg) (kernelRequestee p cfg m req arg1 arg2 arg3 arg4 arg5 arg6 ⟨[], []⟩).2 ↔
      p = .dev ∧ req = 0 ∨
        (req.toNat + 16 ≤ hihalf cfg ∨ Ends m (hihalf cfg) req) ∧
          (Spells m (name ['o', 'p', 'e', 'n']) req → PathBelow p m (hihalf cfg) arg1) := by
  have hhi := hihalf_lt cfg
  by_cases hnull : p = .dev ∧ req = 0
  · rw [kernelRequestee, Eff.bind_of_error (scan_of_refused (by decide) (refused_null hnull) _)]
    exact iff_of_true (fun a ha => absurd ha List.not_mem_nil) (Or.inl hnull)
  rw [or_iff_right hnull, ← below_name hhi hnull]
  have hopen := fun hread => @scan_name_iff m p (hihalf cfg) hhi req hnull (name ['o', 'p', 'e', 'n']) (by decide)
    (by decide) ((below_name hhi hnull).mp hread) ⟨[], []⟩
  rw [kernelRequestee]
  rcases hscan : scan p m req 16 0 ⟨[], []⟩ with ⟨e | l, s⟩ <;> rw [hscan] at hopen
  · rw [Eff.bind_of_error hscan]
    exact ⟨fun h => ⟨h, fun hspells => nomatch (hopen h).mpr hspells⟩, fun h => h.1⟩
  rw [Eff.bind_of_ok hscan]
  dsimp only at hopen ⊢
  -- a request that is not `open` leaves only the name to look at
  have hother (hne : l ≠ name ['o', 'p', 'e', 'n']) : (Below (hihalf cfg) s ∧
      (Spells m (name ['o', 'p', 'e', 'n']) req → PathBelow p m (hihalf cfg) arg1)) ↔ Below (hihalf cfg) s :=
    and_iff_left_of_imp fun hread hspells => absurd (Except.ok.inj ((hopen hread).mpr hspells)) hne
  split_ifs with hexit hopen' hprint
  · exact (hother (by rw [hexit]; decide)).symm
  · have hread {path : List Byte} (t : Seen) : (((if path.length = 2 ^ 64 then Eff.lift (.error .overflow)
        else do
          let ctr ← Eff.lift (p.fit .overflow 64 (path.length + 1 : Nat))
          checkFault cfg arg1.toNat ctr 1
          pure 0 : Eff Seen Stop Word)) t).2 = t := by
      split_ifs
      · rfl
      · cases p.fit Stop.overflow 64 (path.length + 1 : Nat) with
        | error e => rfl
        | ok ctr =>
            rw [Eff.lift_ok_bind]
            exact Eff.bind_snd (fun _ _ => rfl) t
    -- nothing is read after the path
    rw [Eff.bind_snd fun path t => hread t]
    constructor
    · intro h
      have hs := below_of_scan h
      exact ⟨hs, fun _ => (below_path hhi arg1 hs).mp h⟩
    · rintro ⟨hs, hpath⟩
      exact (below_path hhi arg1 hs).mpr (hpath ((hopen hs).mp (congrArg _ hopen')))
  · rw [hother hopen']
    rcases hcheck : checkFault cfg arg1.toNat arg2.toNat 1 s with ⟨e | u, t⟩
    · rw [Eff.bind_of_error hcheck]
      exact iff_of_eq (congrArg _ (congrArg Prod.snd hcheck).symm)
    · obtain ⟨hlt, rfl⟩ := lt_of_checkFault hcheck
      rw [Eff.bind_of_ok hcheck, Eff.bind_snd fun _ _ => rfl]
      exact below_printFrom hhi (by omega) t
  · exact (hother hopen').symm

/-- A process with the name `open` at 0x1000; every other byte is zero. -/
def opening : Space := fun a =>
  some (if a < 0x1000 then 0 else (name ['o', 'p', 'e', 'n']).getD (a.toNat - 0x1000) 0)

/-- The path of `open` is read in the upper half, and the fault comes afterwards. -/
theorem open_reads_high : (kernelRequestee .dev amd64Cfg opening 0x1000 0xffff800000001000 0 0 0 0 0 ⟨[], []⟩) =
    (.error .fault, ⟨[0x1000, 0x1001, 0x1002, 0x1003, 0x1004, 0xffff800000001000], []⟩) ∧
    hihalf amd64Cfg = 0xffff800000000000 := by
  decide +kernel

end Kreq

end UnixKernel
