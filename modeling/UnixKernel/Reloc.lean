import UnixKernel.ByteWords
import UnixKernel.GlacierFlags
import UnixKernel.GlacierShare
import UnixKernel.Overflow
import UnixKernel.PhysBoot

/-! The two relocations of the kernel image. `flint` (`efi/src/main.rs`) loads the image at `kbase` and writes
each word that a relocation names. `reloc` (`ram/reloc.rs`) copies the running image and adds to each of
these words the distance to the upper half. Both find the words through the dynamic section of the image,
so the second sees the same list only if no word that is written lies in a table; then the copy is the
image relocated for the upper half, apart from the two statics that `reloc` stores before it copies. -/

namespace UnixKernel

open ByteWords Glacier

namespace Arch

/-- `R_REL`. -/
def rRel : Arch → Nat
  | amd64 => 8
  | aarch64 => 1027

/-- `R_SYM`. -/
def rSym : Arch → List Nat
  | amd64 => [1, 6, 7]
  | aarch64 => [257, 1025, 1026]

end Arch

namespace Reloc

/-- The bytes of physical memory. -/
abbrev Bytes := Nat → Byte

structure DynEntry where
  tag : Nat
  val : Nat
  deriving DecidableEq, Repr

structure RelaEntry where
  offset : Nat
  info : Nat
  addend : Word
  deriving DecidableEq, Repr

def dynEntry (m : Bytes) (a : Nat) : DynEntry := ⟨(readWord m a).toNat, (readWord m (a + 8)).toNat⟩

def relaEntry (m : Bytes) (a : Nat) : RelaEntry :=
  ⟨(readWord m a).toNat, (readWord m (a + 8)).toNat, readWord m (a + 16)⟩

/-- The field `value` of the `SymEntry` at an address. -/
def symValue (m : Bytes) (a : Nat) : Nat := (readWord m (a + 8)).toNat

def dtNull : Nat := 0
def dtStrtab : Nat := 5
def dtSymtab : Nat := 6
def dtRela : Nat := 7
def dtRelasz : Nat := 8

namespace RelaEntry

def ty (e : RelaEntry) : Nat := e.info &&& 0xffffffff

def symIdx (e : RelaEntry) : Nat := e.info >>> 32

/-- The entry is of one of the kinds that are carried out. -/
def Named (arch : Arch) (e : RelaEntry) : Prop := e.ty = arch.rRel ∨ e.ty ∈ arch.rSym

instance (arch : Arch) (e : RelaEntry) : Decidable (e.Named arch) := inferInstanceAs (Decidable (_ ∨ _))

end RelaEntry

/-! ### The dynamic section -/

inductive PhType where
  | load | dynamic | other
  deriving DecidableEq, Repr

structure ProgramHeader where
  ty : PhType
  virtualAddr : Nat
  memSize : Nat
  deriving DecidableEq, Repr

/-- `KernelInfo`, as far as `reloc` reads it. -/
structure KernelInfo where
  size : Nat
  dynPtr : Nat
  dynLen : Nat
  deriving DecidableEq, Repr

/-- `dyn_ptr` and `dyn_len` of the first dynamic segment. -/
def dynSegment (phs : List ProgramHeader) : Nat × Nat :=
  match phs.find? (·.ty = .dynamic) with
  | some ph => (ph.virtualAddr, ph.memSize / 16)
  | none => (0, 0)

def kernelInfo (size : Nat) (phs : List ProgramHeader) : KernelInfo := ⟨size, (dynSegment phs).1, (dynSegment phs).2⟩

/-- The loop over the dynamic section: `put` stores the value of an entry in a variable. -/
def dynLoop {τ : Type} (put : DynEntry → τ → τ) (m : Bytes) : Nat → Nat → τ → τ
  | 0, _, t => t
  | n + 1, a, t =>
    if (dynEntry m a).tag = dtNull then t else dynLoop put m n (a + 16) (put (dynEntry m a) t)

/-- The variables of the loop in `flint`. -/
structure DynTable where
  relaPtr : Nat := 0
  relaSz : Nat := 0
  symtab : Nat := 0
  strtab : Nat := 0
  deriving DecidableEq, Repr

def DynTable.put (e : DynEntry) (t : DynTable) : DynTable :=
  if e.tag = dtRela then { t with relaPtr := e.val }
  else if e.tag = dtRelasz then { t with relaSz := e.val }
  else if e.tag = dtSymtab then { t with symtab := e.val }
  else if e.tag = dtStrtab then { t with strtab := e.val }
  else t

/-- The variables of the loop in `reloc`. -/
structure RelaTable where
  relaPtr : Nat := 0
  relaSz : Nat := 0
  deriving DecidableEq, Repr

def RelaTable.put (e : DynEntry) (t : RelaTable) : RelaTable :=
  if e.tag = dtRela then { t with relaPtr := e.val }
  else if e.tag = dtRelasz then { t with relaSz := e.val }
  else t

def DynTable.rela (t : DynTable) : RelaTable := ⟨t.relaPtr, t.relaSz⟩

theorem DynTable.rela_put (e : DynEntry) (t : DynTable) : (t.put e).rela = t.rela.put e := by
  unfold DynTable.put RelaTable.put
  split_ifs <;> rfl

theorem dynLoop_rela {m : Bytes} {n a : Nat} {t : DynTable} :
    dynLoop RelaTable.put m n a t.rela = (dynLoop DynTable.put m n a t).rela := by
  induction n generalizing a t with
  | zero => rfl
  | succ n ih =>
    unfold dynLoop
    split_ifs
    · rfl
    · rw [← DynTable.rela_put, ih]

variable {m m' : Bytes}

theorem dynLoop_congr {τ : Type} {put : DynEntry → τ → τ} {n a b : Nat} {t : τ} (h : Same m a m' b (16 * n)) :
    dynLoop put m n a t = dynLoop put m' n b t := by
  induction n generalizing a b t with
  | zero => rfl
  | succ n ih =>
    have hentry : dynEntry m a = dynEntry m' b := by
      unfold dynEntry
      rw [readWord_congr (h.mono (by omega)), h.readWord (by omega)]
    unfold dynLoop
    rw [hentry, ih (h.sub (by omega))]

/-! ### The checks of a build with debug assertions -/

/-- A pointer to words that may be followed: not null, and aligned to eight bytes. -/
def PtrOk (a : Nat) : Prop := a ≠ 0 ∧ 8 ∣ a

instance (a : Nat) : Decidable (PtrOk a) := inferInstanceAs (Decidable (_ ∧ _))

/-- A pointer to words is followed. -/
def follow (p : Profile) (a : Nat) : Except Unit Unit := ensure (p = .dev → PtrOk a) ()

/-- `slice::from_raw_parts` on words. -/
def rawParts (p : Profile) (a bytes : Nat) : Except Unit Unit := ensure (p = .dev → PtrOk a ∧ bytes < 2 ^ 63) ()

/-! ### The relocations of the loader -/

/-- One entry in the loop of `flint`. -/
def flintEntry (p : Profile) (arch : Arch) (kbase symbols : Nat) (m : Bytes) (e : RelaEntry) : Except Unit Bytes := do
  let relocAddr ← p.fit () 64 (kbase + e.offset : Nat)
  if e.ty = arch.rRel then do
    follow p relocAddr
    .ok (writeWord m relocAddr (BitVec.ofNat 64 kbase + e.addend))
  else if e.ty ∈ arch.rSym then do
    follow p (symbols + 24 * e.symIdx)
    let symAddr ← p.fit () 64 (kbase + symValue m (symbols + 24 * e.symIdx) : Nat)
    follow p relocAddr
    .ok (writeWord m relocAddr (BitVec.ofNat 64 symAddr + e.addend))
  else .ok m

/-- The loop of `flint` over the entries at an address, each read when its turn comes. -/
def flintLoop (p : Profile) (arch : Arch) (kbase symbols : Nat) : Nat → Nat → Bytes → Except Unit Bytes
  | 0, _, m => .ok m
  | n + 1, a, m => do
    let m ← flintEntry p arch kbase symbols m (relaEntry m a)
    flintLoop p arch kbase symbols n (a + 24) m

/-- `flint` after the segments are loaded, up to the last relocation. -/
def flint (p : Profile) (arch : Arch) (phs : List ProgramHeader) (kbase : Nat) (m : Bytes) : Except Unit Bytes := do
  let dynPtr := (dynSegment phs).1
  let dynLen := (dynSegment phs).2
  let dynamic ← p.fit () 64 (dynPtr + kbase : Nat)
  rawParts p dynamic (16 * dynLen)
  let t := dynLoop DynTable.put m dynLen dynamic {}
  let relaLen := t.relaSz / 24
  let rela ← p.fit () 64 (t.relaPtr + kbase : Nat)
  rawParts p rela (24 * relaLen)
  let symbols ← p.fit () 64 (t.symtab + kbase : Nat)
  flintLoop p arch kbase symbols relaLen rela m

/-! ### The move to the upper half -/

/-- `copy_to` on `size` bytes. -/
def copyTo (m : Bytes) (src dst size : Nat) : Bytes := fun x =>
  if dst ≤ x ∧ x < dst + size then m (src + (x - dst)) else m x

/-- One entry in the loop of `reloc`. -/
def relocEntry (p : Profile) (arch : Arch) (newKbase delta : Nat) (m : Bytes) (e : RelaEntry) : Except Unit Bytes :=
  if e.Named arch then do
    let addr ← p.fit () 64 (newKbase + e.offset : Nat)
    follow p addr
    let word ← p.fit () 64 ((readWord m addr).toNat + delta : Nat)
    .ok (writeWord m addr (BitVec.ofNat 64 word))
  else .ok m

/-- The loop of `reloc` over the entries at an address. -/
def relocLoop (p : Profile) (arch : Arch) (newKbase delta : Nat) : Nat → Nat → Bytes → Except Unit Bytes
  | 0, _, m => .ok m
  | n + 1, a, m => do
    let m ← relocEntry p arch newKbase delta m (relaEntry m a)
    relocLoop p arch newKbase delta n (a + 24) m

/-- `reloc` from the update of `KBASE` to the last relocation. The statics `KBASE` and `SPARK_PTR` lie at the
two addresses, `spark` is the address of the function in the running image, and `newKbase` is where
`PHYS_ALLOC` put the copy. -/
def reloc (p : Profile) (arch : Arch) (cfg : RvmCfg) (kinfo : KernelInfo) (kbaseVar sparkVar spark newKbase : Nat)
    (m : Bytes) : Except Unit Bytes := do
  let jumpTarget := hihalf cfg
  let oldKbase := (readWord m kbaseVar).toNat
  let m := writeWord m kbaseVar (BitVec.ofNat 64 newKbase)
  let delta ← p.fit () 64 ((jumpTarget : Int) - oldKbase)
  let sparkPtr ← p.fit () 64 (spark + delta : Nat)
  let m := writeWord m sparkVar (BitVec.ofNat 64 sparkPtr)
  -- `copy_to` is on bytes, which need no alignment
  ensure (p = .dev → oldKbase ≠ 0 ∧ newKbase ≠ 0) ()
  let m := copyTo m oldKbase newKbase kinfo.size
  let dynamic ← p.fit () 64 (kinfo.dynPtr + oldKbase : Nat)
  rawParts p dynamic (16 * kinfo.dynLen)
  let t := dynLoop RelaTable.put m kinfo.dynLen dynamic {}
  let rela ← p.fit () 64 (t.relaPtr + oldKbase : Nat)
  rawParts p rela (24 * (t.relaSz / 24))
  relocLoop p arch newKbase delta (t.relaSz / 24) rela m

/-! ### The image relocated for a base -/

def relaList (m : Bytes) : Nat → Nat → List RelaEntry
  | 0, _ => []
  | n + 1, a => relaEntry m a :: relaList m n (a + 24)

theorem relaList_congr {n a b : Nat} (h : Same m a m' b (24 * n)) : relaList m n a = relaList m' n b := by
  induction n generalizing a b with
  | zero => rfl
  | succ n ih =>
    have hentry : relaEntry m a = relaEntry m' b := by
      unfold relaEntry
      rw [readWord_congr (h.mono (by omega)), h.readWord (by omega), h.readWord (by omega)]
    unfold relaList
    rw [hentry, ih (h.sub (by omega))]

/-- The word a relocation asks for when the image is meant for `base`. -/
def RelaEntry.word (arch : Arch) (base : Word) (sym : Nat → Nat) (e : RelaEntry) : Word :=
  if e.ty = arch.rRel then base + e.addend else base + BitVec.ofNat 64 (sym e.symIdx) + e.addend

/-- The entries that are carried out. -/
def carried (arch : Arch) (es : List RelaEntry) : List RelaEntry := es.filter fun e => e.Named arch

section Carried

variable {arch : Arch} {e : RelaEntry} {es : List RelaEntry}

theorem carried_cons_of_named (h : e.Named arch) : carried arch (e :: es) = e :: carried arch es :=
  List.filter_cons_of_pos (by simpa using h)

theorem carried_cons_of_not (h : ¬e.Named arch) : carried arch (e :: es) = carried arch es :=
  List.filter_cons_of_neg (by simpa using h)

theorem mem_carried : e ∈ carried arch es ↔ e ∈ es ∧ e.Named arch := by
  unfold carried
  rw [List.mem_filter, decide_eq_true_iff]

end Carried

section Image

variable (arch : Arch) (kinfo : KernelInfo) (img : Bytes)

def dynTable : DynTable := dynLoop DynTable.put img kinfo.dynLen kinfo.dynPtr {}

def relaLen : Nat := (dynTable kinfo img).relaSz / 24

def entries : List RelaEntry := relaList img (relaLen kinfo img) (dynTable kinfo img).relaPtr

def named : List RelaEntry := carried arch (entries kinfo img)

def symOf (i : Nat) : Nat := symValue img ((dynTable kinfo img).symtab + 24 * i)

/-- The words of the image that relocations name, with what they hold for `base`. -/
def targets (base : Nat) : List (Nat × Word) :=
  (named arch kinfo img).map fun e => (e.offset, e.word arch (BitVec.ofNat 64 base) (symOf kinfo img))

/-- The image relocated directly for `base`. -/
def relocatedFor (base : Nat) : Bytes := patch img (targets arch kinfo img base)

/-- The dynamic section, the list of relocations and the values of the symbols they use. -/
def tables : List (Nat × Nat) :=
  (kinfo.dynPtr, 16 * kinfo.dynLen) :: ((dynTable kinfo img).relaPtr, 24 * relaLen kinfo img) ::
    ((entries kinfo img).filter fun e => e.ty ∈ arch.rSym).map fun e =>
      ((dynTable kinfo img).symtab + 24 * e.symIdx + 8, 8)

/-- Where the statics that `reloc` stores lie in the image. -/
structure Vars where
  kbase : Nat
  sparkPtr : Nat
  deriving DecidableEq, Repr

variable (vars : Vars)

/-- The words of the image that one of the two programs writes. -/
def written : List Nat := vars.kbase :: vars.sparkPtr :: (named arch kinfo img).map RelaEntry.offset

/-- The tables and the written words are in the image, and the written words are apart from each other and from
the tables. -/
structure WellFormed : Prop where
  starts : kinfo.dynPtr < kinfo.size ∧ (dynTable kinfo img).relaPtr < kinfo.size ∧
    (dynTable kinfo img).symtab < kinfo.size
  tables_le : ∀ s ∈ tables arch kinfo img, s.1 + s.2 ≤ kinfo.size
  written_le : ∀ a ∈ written arch kinfo img vars, a + 8 ≤ kinfo.size
  written_clear : (written arch kinfo img vars).Pairwise Clear
  written_misses : ∀ a ∈ written arch kinfo img vars, ∀ s ∈ tables arch kinfo img, Misses a s

/-- What the checks of a build with debug assertions ask for. No addition of the two programs leaves the word: the
addresses and symbols of `flint`, and the distance to the upper half and what `reloc` adds it to. The image and its
copy are not at null and are aligned to eight bytes, and in the image the tables and the relocated words are. -/
structure Checked (cfg : RvmCfg) (spark kbase newKbase : Nat) : Prop where
  offsets : ∀ e ∈ entries kinfo img, kbase + e.offset < 2 ^ 64
  symbols : ∀ e ∈ entries kinfo img, e.ty ∈ arch.rSym → kbase + symOf kinfo img e.symIdx < 2 ^ 64
  base : kbase ≤ hihalf cfg
  spark : spark + (hihalf cfg - kbase) < 2 ^ 64
  sums : ∀ t ∈ targets arch kinfo img kbase, t.2.toNat + (hihalf cfg - kbase) < 2 ^ 64
  image : PtrOk kbase ∧ PtrOk newKbase ∧ kinfo.size < 2 ^ 63
  starts_aligned : 8 ∣ kinfo.dynPtr ∧ 8 ∣ (dynTable kinfo img).relaPtr ∧ 8 ∣ (dynTable kinfo img).symtab
  words_aligned : ∀ e ∈ named arch kinfo img, 8 ∣ e.offset

end Image

/-! ### The loops -/

variable {p : Profile} {arch : Arch} {kbase symbols newKbase delta : Nat}

theorem fit_of_dev {n : Nat} (h : p = .dev → n < 2 ^ 64) : p.fit () 64 n = .ok (n % 2 ^ 64) :=
  Profile.fit_natCast fun ⟨hdev, hle⟩ => Nat.not_lt.mpr hle (h hdev)

theorem PtrOk.add {a b : Nat} (h : PtrOk a) (hb : 8 ∣ b) : PtrOk (a + b) :=
  ⟨by have := h.1; omega, Nat.dvd_add h.2 hb⟩

theorem follow_eq {a : Nat} (h : p = .dev → PtrOk a) : follow p a = .ok () := ensure_eq_ok.mpr h

theorem rawParts_eq {a bytes : Nat} (h : p = .dev → PtrOk a ∧ bytes < 2 ^ 63) : rawParts p a bytes = .ok () :=
  ensure_eq_ok.mpr h

theorem ofNat_mod (n : Nat) : BitVec.ofNat 64 (n % 2 ^ 64) = BitVec.ofNat 64 n := by
  apply BitVec.eq_of_toNat_eq
  rw [BitVec.toNat_ofNat, BitVec.toNat_ofNat, Nat.mod_mod]

theorem flintEntry_eq {sym : Nat → Nat} {e : RelaEntry} (hoff : e.Named arch → kbase + e.offset < 2 ^ 64)
    (hdev : p = .dev → kbase + e.offset < 2 ^ 64 ∧ (e.ty ∈ arch.rSym → kbase + sym e.symIdx < 2 ^ 64))
    (hptr : p = .dev → PtrOk symbols ∧ (e.Named arch → PtrOk (kbase + e.offset)))
    (hsym : e.ty ∈ arch.rSym → symValue m (symbols + 24 * e.symIdx) = sym e.symIdx) :
    flintEntry p arch kbase symbols m e = .ok (if e.Named arch then
      writeWord m (kbase + e.offset) (e.word arch (BitVec.ofNat 64 kbase) sym) else m) := by
  unfold flintEntry RelaEntry.word
  rw [fit_of_dev fun h => (hdev h).1, ok_bind]
  by_cases hrel : e.ty = arch.rRel
  · have hn : e.Named arch := .inl hrel
    rw [if_pos hrel, if_pos hrel, if_pos hn, Nat.mod_eq_of_lt (hoff hn), follow_eq fun h => (hptr h).2 hn, ok_bind]
  by_cases hmem : e.ty ∈ arch.rSym
  · have hn : e.Named arch := .inr hmem
    have hentry : p = .dev → PtrOk (symbols + 24 * e.symIdx) := fun h => (hptr h).1.add (by omega)
    rw [if_neg hrel, if_neg hrel, if_pos hmem, if_pos hn, Nat.mod_eq_of_lt (hoff hn), follow_eq hentry, ok_bind,
      hsym hmem, fit_of_dev fun h => (hdev h).2 hmem, ok_bind, follow_eq fun h => (hptr h).2 hn, ok_bind, ofNat_mod,
      BitVec.ofNat_add]
  · have hn : ¬e.Named arch := not_or.mpr ⟨hrel, hmem⟩
    rw [if_neg hrel, if_neg hmem, if_neg hn]

/-- The loop of `flint` writes the words of a list of entries that it does not write into. -/
theorem flintLoop_eq {sym : Nat → Nat} {es : List RelaEntry} {a : Nat} (hes : relaList m es.length a = es)
    (hoff : ∀ e ∈ es, e.Named arch → kbase + e.offset < 2 ^ 64)
    (hdev : p = .dev → ∀ e ∈ es, kbase + e.offset < 2 ^ 64 ∧ (e.ty ∈ arch.rSym → kbase + sym e.symIdx < 2 ^ 64))
    (hptr : p = .dev → PtrOk symbols ∧ ∀ e ∈ es, e.Named arch → PtrOk (kbase + e.offset))
    (hsym : ∀ e ∈ es, e.ty ∈ arch.rSym → symValue m (symbols + 24 * e.symIdx) = sym e.symIdx)
    (hlist : ∀ e ∈ es, e.Named arch → Misses (kbase + e.offset) (a, 24 * es.length))
    (hsyms : ∀ e ∈ es, e.Named arch → ∀ e' ∈ es, e'.ty ∈ arch.rSym →
      Clear (symbols + 24 * e'.symIdx + 8) (kbase + e.offset)) :
    flintLoop p arch kbase symbols es.length a m = .ok (patch m ((carried arch es).map fun e =>
      (kbase + e.offset, e.word arch (BitVec.ofNat 64 kbase) sym))) := by
  induction es generalizing a m with
  | nil => rfl
  | cons e es ih =>
    rw [List.length_cons, relaList, List.cons.injEq] at hes
    have hhead := flintEntry_eq (m := m) (hoff e List.mem_cons_self) (fun h => hdev h e List.mem_cons_self)
      (fun h => ⟨(hptr h).1, (hptr h).2 e List.mem_cons_self⟩) (hsym e List.mem_cons_self)
    rw [List.length_cons, flintLoop, hes.1, hhead, ok_bind]
    have hlen : 24 + 24 * es.length ≤ 24 * (e :: es).length := by rw [List.length_cons]; omega
    have hoff' := fun e he => hoff e (List.mem_cons_of_mem _ he)
    have hdev' := fun h e he => hdev h e (List.mem_cons_of_mem _ he)
    have hptr' : p = .dev → PtrOk symbols ∧ ∀ e ∈ es, e.Named arch → PtrOk (kbase + e.offset) :=
      fun h => ⟨(hptr h).1, fun e he => (hptr h).2 e (List.mem_cons_of_mem _ he)⟩
    have hlist' : ∀ e ∈ es, e.Named arch → Misses (kbase + e.offset) (a + 24, 24 * es.length) :=
      fun e he hn => (hlist e (List.mem_cons_of_mem _ he) hn).sub hlen
    by_cases hn : e.Named arch
    · have hmiss := hlist e List.mem_cons_self hn
      rw [if_pos hn, carried_cons_of_named hn]
      apply ih _ hoff' hdev' hptr' _ hlist' fun e he hn e' he' => hsyms e (List.mem_cons_of_mem _ he) hn e'
        (List.mem_cons_of_mem _ he')
      · -- the rest of the list is read behind the written word
        rw [relaList_congr (same_writeWord (hmiss.sub hlen))]
        exact hes.2
      · intro e' he' hmem
        unfold symValue
        rw [readWord_writeWord_of_clear (hsyms e List.mem_cons_self hn e' (List.mem_cons_of_mem _ he') hmem)]
        exact hsym e' (List.mem_cons_of_mem _ he') hmem
    · rw [if_neg hn, carried_cons_of_not hn]
      exact ih hes.2 hoff' hdev' hptr' (fun e he => hsym e (List.mem_cons_of_mem _ he)) hlist'
        fun e he hn e' he' => hsyms e (List.mem_cons_of_mem _ he) hn e' (List.mem_cons_of_mem _ he')

/-- The loop of `reloc` increases the words of a list of entries that it does not write into. -/
theorem relocLoop_eq {es : List RelaEntry} {a : Nat} (hes : relaList m es.length a = es)
    (hoff : ∀ e ∈ es, e.Named arch → newKbase + e.offset < 2 ^ 64)
    (hdev : p = .dev → ∀ e ∈ es, e.Named arch → PtrOk (newKbase + e.offset) ∧
      (readWord m (newKbase + e.offset)).toNat + delta < 2 ^ 64)
    (hlist : ∀ e ∈ es, e.Named arch → Misses (newKbase + e.offset) (a, 24 * es.length))
    (hclear : ((carried arch es).map fun e => newKbase + e.offset).Pairwise Clear) :
    relocLoop p arch newKbase delta es.length a m = .ok (bump m (BitVec.ofNat 64 delta)
      ((carried arch es).map fun e => newKbase + e.offset)) := by
  induction es generalizing a m with
  | nil => rfl
  | cons e es ih =>
    rw [List.length_cons, relaList, List.cons.injEq] at hes
    rw [List.length_cons, relocLoop, hes.1, relocEntry]
    have hlen : 24 + 24 * es.length ≤ 24 * (e :: es).length := by rw [List.length_cons]; omega
    have hoff' := fun e he => hoff e (List.mem_cons_of_mem _ he)
    have hlist' : ∀ e ∈ es, e.Named arch → Misses (newKbase + e.offset) (a + 24, 24 * es.length) :=
      fun e he hn => (hlist e (List.mem_cons_of_mem _ he) hn).sub hlen
    by_cases hn : e.Named arch
    · have hmiss := hlist e List.mem_cons_self hn
      rw [carried_cons_of_named hn, List.map_cons, List.pairwise_cons] at hclear
      rw [if_pos hn, Profile.fit_of_lt (hoff e List.mem_cons_self hn), ok_bind,
        follow_eq fun h => (hdev h e List.mem_cons_self hn).1, ok_bind,
        fit_of_dev fun h => (hdev h e List.mem_cons_self hn).2, ok_bind, ok_bind, ofNat_mod, BitVec.ofNat_add,
        BitVec.ofNat_toNat, BitVec.setWidth_eq, carried_cons_of_named hn]
      apply ih _ hoff' _ hlist' hclear.2
      · rw [relaList_congr (same_writeWord (hmiss.sub hlen))]
        exact hes.2
      · intro h e' he' hn'
        have hapart := hclear.1 _ (List.mem_map_of_mem (mem_carried.mpr ⟨he', hn'⟩))
        rw [readWord_writeWord_of_clear hapart.symm]
        exact hdev h e' (List.mem_cons_of_mem _ he') hn'
    · rw [carried_cons_of_not hn] at hclear ⊢
      rw [if_neg hn, ok_bind]
      exact ih hes.2 hoff' (fun h e he => hdev h e (List.mem_cons_of_mem _ he)) hlist' hclear

/-! ### The loader -/

theorem length_relaList {n a : Nat} : (relaList m n a).length = n := by
  induction n generalizing a with
  | zero => rfl
  | succ n ih => exact congrArg (· + 1) ih

variable {kinfo : KernelInfo} {img : Bytes} {vars : Vars} {cfg : RvmCfg} {spark : Nat}

theorem length_entries : (entries kinfo img).length = relaLen kinfo img := length_relaList

theorem dyn_mem_tables : (kinfo.dynPtr, 16 * kinfo.dynLen) ∈ tables arch kinfo img := List.mem_cons_self

theorem rela_mem_tables : ((dynTable kinfo img).relaPtr, 24 * relaLen kinfo img) ∈ tables arch kinfo img :=
  List.mem_cons_of_mem _ List.mem_cons_self

theorem sym_mem_tables {e : RelaEntry} (he : e ∈ entries kinfo img) (hmem : e.ty ∈ arch.rSym) :
    ((dynTable kinfo img).symtab + 24 * e.symIdx + 8, 8) ∈ tables arch kinfo img := by
  apply List.mem_cons_of_mem
  apply List.mem_cons_of_mem
  exact List.mem_map.mpr ⟨e, List.mem_filter.mpr ⟨he, decide_eq_true hmem⟩, rfl⟩

theorem offset_mem_written {e : RelaEntry} (he : e ∈ named arch kinfo img) : e.offset ∈ written arch kinfo img vars :=
  List.mem_cons_of_mem _ (List.mem_cons_of_mem _ (List.mem_map_of_mem he))

theorem entry_mem_written {e : RelaEntry} (he : e ∈ entries kinfo img) (hn : e.Named arch) :
    e.offset ∈ written arch kinfo img vars := offset_mem_written (mem_carried.mpr ⟨he, hn⟩)

theorem fit_start {size x : Nat} (hold : kbase + size ≤ 2 ^ 64) (hx : x < size) :
    p.fit () 64 (x + kbase : Nat) = .ok (kbase + x) := by
  rw [Nat.add_comm x kbase]
  exact Profile.fit_of_lt (by omega)

/-- The dynamic section and the list of relocations pass the checks of `from_raw_parts`. -/
theorem rawParts_tables (hwf : WellFormed arch kinfo img vars)
    (hdev : p = .dev → Checked arch kinfo img cfg spark kbase newKbase) :
    rawParts p (kbase + kinfo.dynPtr) (16 * kinfo.dynLen) = .ok () ∧
    rawParts p (kbase + (dynTable kinfo img).relaPtr) (24 * relaLen kinfo img) = .ok () := by
  have hdyn := hwf.tables_le _ dyn_mem_tables
  have hrela := hwf.tables_le _ rela_mem_tables
  constructor
  · apply rawParts_eq
    intro h
    obtain ⟨hkbase, -, hsize⟩ := (hdev h).image
    exact ⟨hkbase.add (hdev h).starts_aligned.1, by dsimp only at hdyn; omega⟩
  · apply rawParts_eq
    intro h
    obtain ⟨hkbase, -, hsize⟩ := (hdev h).image
    exact ⟨hkbase.add (hdev h).starts_aligned.2.1, by dsimp only at hrela; omega⟩

theorem flint_eq {phs : List ProgramHeader} {size : Nat}
    (hwf : WellFormed arch (kernelInfo size phs) (view kbase m) vars) (hold : kbase + size ≤ 2 ^ 64)
    (hdev : p = .dev → Checked arch (kernelInfo size phs) (view kbase m) cfg spark kbase newKbase) :
    flint p arch phs kbase m = .ok (patch m
      ((targets arch (kernelInfo size phs) (view kbase m) kbase).map fun t => (kbase + t.1, t.2))) := by
  have hdyn : (dynSegment phs).1 < size := hwf.starts.1
  have hstarts := hwf.starts.2
  have htable : dynLoop DynTable.put m (dynSegment phs).2 (kbase + (dynSegment phs).1) {}
      = dynTable (kernelInfo size phs) (view kbase m) := dynLoop_congr same_view.symm
  obtain ⟨hdynOk, hrelaOk⟩ := rawParts_tables hwf hdev
  have hdynOk : rawParts p (kbase + (dynSegment phs).1) (16 * (dynSegment phs).2) = .ok () := hdynOk
  unfold relaLen at hrelaOk
  unfold flint
  simp only [fit_start hold hdyn, ok_bind, htable, hdynOk]
  rw [fit_start hold hstarts.1, ok_bind, hrelaOk, ok_bind, fit_start hold hstarts.2, ok_bind]
  unfold targets
  rw [List.map_map]
  show flintLoop p arch kbase _ (relaLen (kernelInfo size phs) (view kbase m)) _ m = _
  rw [← length_entries]
  apply flintLoop_eq
  · rw [length_entries]
    exact relaList_congr same_view.symm
  · intro e he hn
    have hle := hwf.written_le _ (entry_mem_written he hn)
    simp only [kernelInfo] at hle
    omega
  · exact fun h e he => ⟨(hdev h).offsets e he, (hdev h).symbols e he⟩
  · intro h
    refine ⟨(hdev h).image.1.add (hdev h).starts_aligned.2.2, fun e he hn => (hdev h).image.1.add ?_⟩
    exact (hdev h).words_aligned e (mem_carried.mpr ⟨he, hn⟩)
  · intro e he hmem
    unfold symOf symValue
    rw [readWord_view, ← Nat.add_assoc, ← Nat.add_assoc]
  · intro e he hn
    have hmiss := hwf.written_misses _ (entry_mem_written he hn) _ rela_mem_tables
    rw [length_entries]
    exact hmiss.shift kbase
  · intro e he hn e' he' hmem
    have hmiss := hwf.written_misses _ (entry_mem_written he hn) _ (sym_mem_tables he' hmem)
    simp only [Misses, Clear] at hmiss ⊢
    omega

/-- The loader leaves at `kbase` the image relocated for `kbase`. -/
theorem flint_relocates {phs : List ProgramHeader} {size : Nat}
    (hwf : WellFormed arch (kernelInfo size phs) (view kbase m) vars) (hold : kbase + size ≤ 2 ^ 64)
    (hdev : p = .dev → Checked arch (kernelInfo size phs) (view kbase m) cfg spark kbase newKbase) :
    ∃ m₁, flint p arch phs kbase m = .ok m₁ ∧
      view kbase m₁ = relocatedFor arch (kernelInfo size phs) (view kbase m) kbase :=
  ⟨_, flint_eq hwf hold hdev, view_patch⟩

/-! ### The move -/

theorem view_copyTo {src dst size i : Nat} (hi : i < size) : view dst (copyTo m src dst size) i = view src m i := by
  unfold view copyTo
  rw [if_pos (by omega), Nat.add_sub_cancel_left]

theorem copyTo_other {src dst size x : Nat} (h : x < dst ∨ dst + size ≤ x) : copyTo m src dst size x = m x :=
  if_neg (by omega)

theorem RelaEntry.word_add {base d : Word} {sym : Nat → Nat} {e : RelaEntry} :
    e.word arch base sym + d = e.word arch (base + d) sym := by
  unfold RelaEntry.word
  split_ifs <;> ac_rfl

/-- The image with the two statics as `reloc` stores them. -/
def stored (vars : Vars) (newKbase : Nat) (sparkPtr : Word) (img : Bytes) : Bytes :=
  writeWord (writeWord img vars.kbase (BitVec.ofNat 64 newKbase)) vars.sparkPtr sparkPtr

theorem exists_delta (hkbase : p = .dev → kbase ≤ hihalf cfg) : ∃ delta,
    p.fit () 64 ((hihalf cfg : Int) - kbase) = .ok delta ∧ (p = .dev → delta = hihalf cfg - kbase) ∧
    BitVec.ofNat 64 kbase + BitVec.ofNat 64 delta = BitVec.ofNat 64 (hihalf cfg) := by
  have hlt : hihalf cfg < 2 ^ 64 := Nat.sub_lt (by decide) (Nat.two_pow_pos _)
  have hfit : ∃ delta, p.fit () 64 ((hihalf cfg : Int) - kbase) = .ok delta ∧
      (p = .dev → delta = hihalf cfg - kbase) := by
    cases p with
    | dev => exact ⟨_, Profile.fit_sub (hkbase rfl) hlt, fun _ => rfl⟩
    | release => exact ⟨_, Profile.fit_release _, nofun⟩
  obtain ⟨delta, hdelta, hdev⟩ := hfit
  refine ⟨delta, hdelta, hdev, ?_⟩
  rw [Profile.ofNat_of_fit hdelta, ← BitVec.ofInt_natCast, ← BitVec.ofInt_add, add_sub_cancel, BitVec.ofInt_natCast]

/-- Memory after the copy. -/
def cloned (vars : Vars) (kbase newKbase size : Nat) (sparkPtr : Word) (m : Bytes) : Bytes :=
  copyTo (writeWord (writeWord m (kbase + vars.kbase) (BitVec.ofNat 64 newKbase)) (kbase + vars.sparkPtr) sparkPtr)
    kbase newKbase size

section Move

variable {sparkPtr : Word}

theorem view_cloned {size i : Nat} (hi : i < size) :
    view newKbase (cloned vars kbase newKbase size sparkPtr m) i = stored vars newKbase sparkPtr (view kbase m) i := by
  unfold cloned
  rw [view_copyTo hi, view_writeWord, view_writeWord]
  rfl

variable (hwf : WellFormed arch kinfo img vars)

include hwf

theorem cloned_tables (hapart : kbase + kinfo.size ≤ newKbase ∨ newKbase + kinfo.size ≤ kbase) {s : Nat × Nat}
    (hs : s ∈ tables arch kinfo img) :
    Same (cloned vars kbase newKbase kinfo.size sparkPtr m) (kbase + s.1) m (kbase + s.1) s.2 := by
  have hle := hwf.tables_le s hs
  have hkbase := hwf.written_misses vars.kbase List.mem_cons_self s hs
  have hspark := hwf.written_misses vars.sparkPtr (List.mem_cons_of_mem _ List.mem_cons_self) s hs
  have hcopy : Same (cloned vars kbase newKbase kinfo.size sparkPtr m) (kbase + s.1) _ (kbase + s.1) s.2 :=
    fun i hi => copyTo_other (by omega)
  exact hcopy.trans ((same_writeWord (hspark.shift kbase)).trans (same_writeWord (hkbase.shift kbase)))

/-- A relocated word is copied as it is. -/
theorem cloned_word {e : RelaEntry} (he : e ∈ named arch kinfo img) :
    readWord (cloned vars kbase newKbase kinfo.size sparkPtr m) (newKbase + e.offset) =
      readWord m (kbase + e.offset) := by
  have hle := hwf.written_le _ (offset_mem_written he)
  have hclear := hwf.written_clear
  unfold written at hclear
  rw [List.pairwise_cons, List.pairwise_cons] at hclear
  have hmem : e.offset ∈ (named arch kinfo img).map RelaEntry.offset := List.mem_map_of_mem he
  calc readWord (cloned vars kbase newKbase kinfo.size sparkPtr m) (newKbase + e.offset)
      = readWord (view newKbase (cloned vars kbase newKbase kinfo.size sparkPtr m)) e.offset := readWord_view.symm
    _ = readWord (stored vars newKbase sparkPtr (view kbase m)) e.offset :=
        readWord_congr fun i hi => view_cloned (by omega)
    _ = readWord (view kbase m) e.offset := by
        unfold stored
        rw [readWord_writeWord_of_clear (hclear.2.1 _ hmem).symm,
          readWord_writeWord_of_clear (hclear.1 _ (List.mem_cons_of_mem _ hmem)).symm]
    _ = readWord m (kbase + e.offset) := readWord_view

theorem pairwise_named : ((named arch kinfo img).map RelaEntry.offset).Pairwise Clear :=
  (List.pairwise_cons.mp (List.pairwise_cons.mp hwf.written_clear).2).2

variable (sparkPtr) in
/-- The loop of `reloc` on the copy. -/
theorem relocLoop_cloned (hnew : newKbase + kinfo.size ≤ 2 ^ 64)
    (hapart : kbase + kinfo.size ≤ newKbase ∨ newKbase + kinfo.size ≤ kbase)
    (htables : ∀ s ∈ tables arch kinfo img, Same m (kbase + s.1) img s.1 s.2)
    (hsums : p = .dev → ∀ e ∈ named arch kinfo img, PtrOk (newKbase + e.offset) ∧
      (readWord m (kbase + e.offset)).toNat + delta < 2 ^ 64) :
    relocLoop p arch newKbase delta (relaLen kinfo img) (kbase + (dynTable kinfo img).relaPtr)
      (cloned vars kbase newKbase kinfo.size sparkPtr m) =
    .ok (bump (cloned vars kbase newKbase kinfo.size sparkPtr m) (BitVec.ofNat 64 delta)
      (((named arch kinfo img).map RelaEntry.offset).map (newKbase + ·))) := by
  rw [← length_entries, List.map_map]
  apply relocLoop_eq
  · rw [length_entries]
    exact relaList_congr ((cloned_tables hwf hapart rela_mem_tables).trans (htables _ rela_mem_tables))
  · intro e he hn
    have hle := hwf.written_le _ (entry_mem_written he hn)
    omega
  · intro h e he hn
    have hmem : e ∈ named arch kinfo img := mem_carried.mpr ⟨he, hn⟩
    rw [cloned_word hwf hmem]
    exact hsums h e hmem
  · -- the words are in the copy, the list is in the running image
    intro e he hn
    have hle := hwf.written_le _ (entry_mem_written he hn)
    have hlist := hwf.tables_le _ rela_mem_tables
    rw [length_entries]
    simp only [Misses] at hlist ⊢
    omega
  · have hpairs := pairwise_named hwf
    rw [List.pairwise_map] at hpairs ⊢
    exact hpairs.imp fun h => h.shift newKbase

/-- The increased words are those of the image for the upper half. -/
theorem bump_cloned {base i : Nat} (hdist : BitVec.ofNat 64 kbase + BitVec.ofNat 64 delta = BitVec.ofNat 64 base)
    (hwords : ∀ t ∈ targets arch kinfo img kbase, readWord m (kbase + t.1) = t.2) (hi : i < kinfo.size) :
    bump (cloned vars kbase newKbase kinfo.size sparkPtr m) (BitVec.ofNat 64 delta)
      (((named arch kinfo img).map RelaEntry.offset).map (newKbase + ·)) (newKbase + i) =
    patch (stored vars newKbase sparkPtr (view kbase m)) (targets arch kinfo img base) i := by
  have hlist : ((named arch kinfo img).map RelaEntry.offset).map (fun a =>
      (a, readWord (view newKbase (cloned vars kbase newKbase kinfo.size sparkPtr m)) a + BitVec.ofNat 64 delta)) =
      targets arch kinfo img base := by
    unfold targets
    rw [List.map_map]
    apply List.map_congr_left
    intro e he
    have hword := hwords _ (List.mem_map_of_mem he)
    show (e.offset, _) = _
    rw [readWord_view, cloned_word hwf he, hword, RelaEntry.word_add, hdist]
  calc bump (cloned vars kbase newKbase kinfo.size sparkPtr m) (BitVec.ofNat 64 delta)
        (((named arch kinfo img).map RelaEntry.offset).map (newKbase + ·)) (newKbase + i)
      = bump (view newKbase (cloned vars kbase newKbase kinfo.size sparkPtr m)) (BitVec.ofNat 64 delta)
          ((named arch kinfo img).map RelaEntry.offset) i := congrFun view_bump i
    _ = patch (view newKbase (cloned vars kbase newKbase kinfo.size sparkPtr m)) (targets arch kinfo img base) i := by
        rw [bump_eq_patch (pairwise_named hwf), hlist]
    _ = patch (stored vars newKbase sparkPtr (view kbase m)) (targets arch kinfo img base) i :=
        patch_congr (view_cloned hi)

/-- What the copy holds when the running image has the tables and the relocated words of `flint`. -/
theorem reloc_eq (hold : kbase + kinfo.size ≤ 2 ^ 64) (hnew : newKbase + kinfo.size ≤ 2 ^ 64)
    (hapart : kbase + kinfo.size ≤ newKbase ∨ newKbase + kinfo.size ≤ kbase)
    (hdev : p = .dev → Checked arch kinfo img cfg spark kbase newKbase)
    (hvar : readWord m (kbase + vars.kbase) = BitVec.ofNat 64 kbase)
    (htables : ∀ s ∈ tables arch kinfo img, Same m (kbase + s.1) img s.1 s.2)
    (hwords : ∀ t ∈ targets arch kinfo img kbase, readWord m (kbase + t.1) = t.2) :
    ∃ m', reloc p arch cfg kinfo (kbase + vars.kbase) (kbase + vars.sparkPtr) spark newKbase m = .ok m' ∧
      ∀ i < kinfo.size, m' (newKbase + i) = patch (stored vars newKbase
        (BitVec.ofNat 64 spark + (BitVec.ofNat 64 (hihalf cfg) - BitVec.ofNat 64 kbase)) (view kbase m))
        (targets arch kinfo img (hihalf cfg)) i := by
  obtain ⟨delta, hdelta, hdelta_dev, hdist⟩ := exists_delta fun h => (hdev h).base
  have hspark : p.fit () 64 (spark + delta : Nat) = .ok ((spark + delta) % 2 ^ 64) := by
    apply fit_of_dev
    intro h
    rw [hdelta_dev h]
    exact (hdev h).spark
  have hkbase : (readWord m (kbase + vars.kbase)).toNat = kbase := by
    rw [hvar, BitVec.toNat_ofNat]
    exact Nat.mod_eq_of_lt (by have := hwf.starts.1; omega)
  have hsums : p = .dev → ∀ e ∈ named arch kinfo img, PtrOk (newKbase + e.offset) ∧
      (readWord m (kbase + e.offset)).toNat + delta < 2 ^ 64 := by
    intro h e he
    have ht := List.mem_map_of_mem (f := fun e : RelaEntry =>
      (e.offset, e.word arch (BitVec.ofNat 64 kbase) (symOf kinfo img))) he
    rw [hwords _ ht, hdelta_dev h]
    exact ⟨(hdev h).image.2.1.add ((hdev h).words_aligned e he), (hdev h).sums _ ht⟩
  have hsparkWord : BitVec.ofNat 64 ((spark + delta) % 2 ^ 64) =
      BitVec.ofNat 64 spark + (BitVec.ofNat 64 (hihalf cfg) - BitVec.ofNat 64 kbase) := by
    rw [ofNat_mod, BitVec.ofNat_add, ← hdist, add_sub_cancel_left]
  have htable : dynLoop RelaTable.put (cloned vars kbase newKbase kinfo.size
      (BitVec.ofNat 64 ((spark + delta) % 2 ^ 64)) m) kinfo.dynLen (kbase + kinfo.dynPtr) {} =
      (dynTable kinfo img).rela := by
    rw [dynLoop_congr ((cloned_tables hwf hapart dyn_mem_tables).trans (htables _ dyn_mem_tables))]
    exact dynLoop_rela (t := {})
  have hloop := relocLoop_cloned (BitVec.ofNat 64 ((spark + delta) % 2 ^ 64)) hwf hnew hapart htables hsums
  rw [← hsparkWord]
  refine ⟨_, ?_, fun i hi => bump_cloned hwf hdist hwords hi⟩
  have hcopied : ensure (p = .dev → kbase ≠ 0 ∧ newKbase ≠ 0) () = .ok () :=
    ensure_eq_ok.mpr fun h => ⟨(hdev h).image.1.1, (hdev h).image.2.1.1⟩
  have hslices := rawParts_tables hwf hdev
  unfold relaLen at hslices hloop
  unfold reloc
  unfold cloned at htable hloop ⊢
  simp only [hkbase, hdelta, hspark, ok_bind, fit_start hold hwf.starts.1, htable, DynTable.rela,
    fit_start hold hwf.starts.2.1, hcopied, hslices.1, hslices.2]
  exact hloop

end Move

/-! ### Both programs -/

/-- The byte is not one of the word at `a`. -/
def Outside (a i : Nat) : Prop := i < a ∨ a + 8 ≤ i

instance (a i : Nat) : Decidable (Outside a i) := inferInstanceAs (Decidable (_ ∨ _))

theorem targets_outside {base i : Nat} (h : ∀ e ∈ named arch kinfo img, Outside e.offset i) :
    ∀ t ∈ targets arch kinfo img base, i < t.1 ∨ t.1 + 8 ≤ i := by
  intro t ht
  obtain ⟨e, he, rfl⟩ := List.mem_map.mp ht
  exact h e he

theorem targets_fst (base : Nat) :
    (targets arch kinfo img base).map Prod.fst = (named arch kinfo img).map RelaEntry.offset := by
  unfold targets
  rw [List.map_map]
  rfl

theorem stored_outside {sparkPtr : Word} {i : Nat} (hkbase : Outside vars.kbase i) (hspark : Outside vars.sparkPtr i) :
    stored vars newKbase sparkPtr img i = img i :=
  (writeWord_other hspark).trans (writeWord_other hkbase)

theorem relocatedFor_tables (hwf : WellFormed arch kinfo img vars) {base : Nat} {s : Nat × Nat}
    (hs : s ∈ tables arch kinfo img) : Same (relocatedFor arch kinfo img base) s.1 img s.1 s.2 := by
  intro i hi
  apply patch_other
  apply targets_outside
  intro e he
  have hmiss := hwf.written_misses _ (offset_mem_written he) s hs
  unfold Misses at hmiss
  unfold Outside
  omega

theorem relocatedFor_word (hwf : WellFormed arch kinfo img vars) {base : Nat} {t : Nat × Word}
    (ht : t ∈ targets arch kinfo img base) : readWord (relocatedFor arch kinfo img base) t.1 = t.2 := by
  have hpairs := pairwise_named hwf
  rw [← targets_fst base] at hpairs
  exact readWord_patch hpairs ht

theorem patch_stored {sparkPtr : Word} {base base' i : Nat} {cur : Bytes} (hkbase : Outside vars.kbase i)
    (hspark : Outside vars.sparkPtr i) (hcur : cur i = relocatedFor arch kinfo img base i) :
    patch (stored vars newKbase sparkPtr cur) (targets arch kinfo img base') i =
      relocatedFor arch kinfo img base' i := by
  by_cases hout : ∀ e ∈ named arch kinfo img, Outside e.offset i
  · calc patch (stored vars newKbase sparkPtr cur) (targets arch kinfo img base') i
        = stored vars newKbase sparkPtr cur i := patch_other (targets_outside hout)
      _ = relocatedFor arch kinfo img base i := (stored_outside hkbase hspark).trans hcur
      _ = img i := patch_other (targets_outside hout)
      _ = relocatedFor arch kinfo img base' i := (patch_other (targets_outside hout)).symm
  · -- the byte is in a relocated word, which is written whatever was there
    simp only [not_forall, Outside, not_or] at hout
    obtain ⟨e, hmem, hin⟩ := hout
    exact patch_congr_of_mem (List.mem_map_of_mem hmem) (by simp only; omega) (by simp only; omega)

/-- The statics of the copy. -/
theorem readWord_patch_stored (hwf : WellFormed arch kinfo img vars) {sparkPtr : Word} {base : Nat} {cur : Bytes} :
    readWord (patch (stored vars newKbase sparkPtr cur) (targets arch kinfo img base)) vars.kbase =
        BitVec.ofNat 64 newKbase ∧
      readWord (patch (stored vars newKbase sparkPtr cur) (targets arch kinfo img base)) vars.sparkPtr = sparkPtr := by
  obtain ⟨hkbase, hrest⟩ := List.pairwise_cons.mp hwf.written_clear
  obtain ⟨hspark, -⟩ := List.pairwise_cons.mp hrest
  have hmem : ∀ t ∈ targets arch kinfo img base, t.1 ∈ (named arch kinfo img).map RelaEntry.offset := by
    intro t ht
    rw [← targets_fst base]
    exact List.mem_map_of_mem ht
  constructor
  · rw [readWord_patch_of_clear fun t ht => hkbase _ (List.mem_cons_of_mem _ (hmem t ht))]
    unfold stored
    rw [readWord_writeWord_of_clear (hkbase _ List.mem_cons_self), readWord_writeWord]
  · rw [readWord_patch_of_clear fun t ht => hspark _ (hmem t ht)]
    exact readWord_writeWord

/-- `flint` at `kbase` and `reloc` after it leave in the copy the image relocated for the upper half, where
nothing was stored in between, and `KBASE` and `SPARK_PTR` as `reloc` stores them. What no relocation names is
what it was before each of the two. -/
theorem reloc_flint {phs : List ProgramHeader} {size : Nat}
    (hwf : WellFormed arch (kernelInfo size phs) (view kbase m) vars)
    (hold : kbase + size ≤ 2 ^ 64) (hnew : newKbase + size ≤ 2 ^ 64)
    (hapart : kbase + size ≤ newKbase ∨ newKbase + size ≤ kbase)
    (hdev : p = .dev → Checked arch (kernelInfo size phs) (view kbase m) cfg spark kbase newKbase) :
    ∃ m₁, flint p arch phs kbase m = .ok m₁ ∧
      (∀ i, (∀ e ∈ named arch (kernelInfo size phs) (view kbase m), Outside e.offset i) →
        m₁ (kbase + i) = m (kbase + i)) ∧
      ∀ m₂, readWord m₂ (kbase + vars.kbase) = BitVec.ofNat 64 kbase →
        (∀ s ∈ tables arch (kernelInfo size phs) (view kbase m), Same m₂ (kbase + s.1) m₁ (kbase + s.1) s.2) →
        (∀ e ∈ named arch (kernelInfo size phs) (view kbase m),
          readWord m₂ (kbase + e.offset) = readWord m₁ (kbase + e.offset)) →
        ∃ m₃, reloc p arch cfg (kernelInfo size phs) (kbase + vars.kbase) (kbase + vars.sparkPtr) spark newKbase m₂ =
            .ok m₃ ∧
          (∀ i < size, Outside vars.kbase i → Outside vars.sparkPtr i → m₂ (kbase + i) = m₁ (kbase + i) →
            m₃ (newKbase + i) = relocatedFor arch (kernelInfo size phs) (view kbase m) (hihalf cfg) i) ∧
          (∀ i < size, Outside vars.kbase i → Outside vars.sparkPtr i →
            (∀ e ∈ named arch (kernelInfo size phs) (view kbase m), Outside e.offset i) →
            m₃ (newKbase + i) = m₂ (kbase + i)) ∧
          readWord m₃ (newKbase + vars.kbase) = BitVec.ofNat 64 newKbase ∧
          readWord m₃ (newKbase + vars.sparkPtr) =
            BitVec.ofNat 64 spark + (BitVec.ofNat 64 (hihalf cfg) - BitVec.ofNat 64 kbase) := by
  obtain ⟨m₁, hm₁, hview⟩ := flint_relocates hwf hold hdev
  refine ⟨m₁, hm₁, fun i hout => (congrFun hview i).trans (patch_other (targets_outside hout)), ?_⟩
  intro m₂ hvar hsame hwords
  have hloaded : ∀ s ∈ tables arch (kernelInfo size phs) (view kbase m),
      Same m₂ (kbase + s.1) (view kbase m) s.1 s.2 := by
    intro s hs
    apply (hsame s hs).trans
    apply same_view.symm.trans
    rw [hview]
    exact relocatedFor_tables hwf hs
  have hrelocated : ∀ t ∈ targets arch (kernelInfo size phs) (view kbase m) kbase, readWord m₂ (kbase + t.1) = t.2 := by
    intro t ht
    have hword : readWord m₂ (kbase + t.1) = readWord m₁ (kbase + t.1) := by
      obtain ⟨e, he, rfl⟩ := List.mem_map.mp ht
      exact hwords e he
    rw [hword, ← readWord_view, hview]
    exact relocatedFor_word hwf ht
  obtain ⟨m₃, hm₃, hcopy⟩ := reloc_eq hwf hold hnew hapart hdev hvar hloaded hrelocated
  have hstatic : ∀ {a : Nat}, a + 8 ≤ size → readWord m₃ (newKbase + a) = readWord (patch (stored vars newKbase
      (BitVec.ofNat 64 spark + (BitVec.ofNat 64 (hihalf cfg) - BitVec.ofNat 64 kbase)) (view kbase m₂))
      (targets arch (kernelInfo size phs) (view kbase m) (hihalf cfg))) a := by
    intro a ha
    rw [← readWord_view]
    exact readWord_congr fun i hi => hcopy (a + i) (by simp only [kernelInfo]; omega)
  refine ⟨m₃, hm₃, ?_, ?_, ?_, ?_⟩
  · intro i hi hkbase hspark huntouched
    exact (hcopy i hi).trans (patch_stored hkbase hspark (huntouched.trans (congrFun hview i)))
  · intro i hi hkbase hspark hout
    rw [hcopy i hi, patch_other (targets_outside hout)]
    exact stored_outside hkbase hspark
  · rw [hstatic (hwf.written_le _ List.mem_cons_self)]
    exact (readWord_patch_stored hwf).1
  · rw [hstatic (hwf.written_le _ (List.mem_cons_of_mem _ List.mem_cons_self))]
    exact (readWord_patch_stored hwf).2

/-- An image loaded at an address, given by its words that are not zero. -/
def loaded (kbase : Nat) (ws : List (Nat × Word)) : Bytes := patch (fun _ => 0) (ws.map fun t => (kbase + t.1, t.2))

/-- A dynamic section that names a list of relocations at `0x40` and symbols at `0x70`. -/
def sampleDyn (relaSz : Word) : List (Nat × Word) := [(0, 7), (8, 0x40), (16, 8), (24, relaSz), (32, 6), (40, 0x70)]

def samplePhs : List ProgramHeader := [⟨.load, 0, 0xb0⟩, ⟨.dynamic, 0, 64⟩]

def sampleVars : Vars := ⟨0xa0, 0xa8⟩

/-- A relative relocation and one with a symbol. -/
def sampleMem : Bytes := loaded 0x100000 (sampleDyn 48 ++
  [(0x40, 0x90), (0x48, 8), (0x50, 0x20), (0x58, 0x98), (0x60, 1), (0x68, 4), (0x78, 0x30)])

theorem wellFormed_sample : WellFormed .amd64 (kernelInfo 0xb0 samplePhs) (view 0x100000 sampleMem) sampleVars :=
  ⟨by decide +kernel, by decide +kernel, by decide +kernel, by decide +kernel, by decide +kernel⟩

theorem checked_sample :
    Checked .amd64 (kernelInfo 0xb0 samplePhs) (view 0x100000 sampleMem) amd64Cfg 0x100010 0x100000 0x200000 :=
  ⟨by decide +kernel, by decide +kernel, by decide +kernel, by decide +kernel, by decide +kernel, by decide,
    by decide +kernel, by decide +kernel⟩

theorem reloc_flint_sample : ∃ m₁ m₃, flint .dev .amd64 samplePhs 0x100000 sampleMem = .ok m₁ ∧
    reloc .dev .amd64 amd64Cfg (kernelInfo 0xb0 samplePhs) 0x1000a0 0x1000a8 0x100010 0x200000
      (writeWord m₁ 0x1000a0 0x100000) = .ok m₃ ∧
    (∀ i < 0xa0, m₃ (0x200000 + i) =
      relocatedFor .amd64 (kernelInfo 0xb0 samplePhs) (view 0x100000 sampleMem) (hihalf amd64Cfg) i) ∧
    readWord m₃ 0x2000a0 = 0x200000 := by
  obtain ⟨m₁, hm₁, -, hreloc⟩ := @reloc_flint sampleMem .dev .amd64 0x100000 0x200000 sampleVars amd64Cfg 0x100010
    samplePhs 0xb0 wellFormed_sample (by decide) (by decide) (by decide) fun _ => checked_sample
  have htables : ∀ s ∈ tables .amd64 (kernelInfo 0xb0 samplePhs) (view 0x100000 sampleMem),
      Misses 0x1000a0 (0x100000 + s.1, s.2) := by decide +kernel
  have hwords : ∀ e ∈ named .amd64 (kernelInfo 0xb0 samplePhs) (view 0x100000 sampleMem),
      Clear (0x100000 + e.offset) 0x1000a0 := by decide +kernel
  obtain ⟨m₃, hm₃, hcopy, -, hkbase, -⟩ := hreloc (writeWord m₁ 0x1000a0 0x100000) readWord_writeWord
    (fun s hs => same_writeWord (htables s hs)) fun e he => readWord_writeWord_of_clear (hwords e he)
  refine ⟨m₁, m₃, hm₁, hm₃, fun i hi => ?_, hkbase⟩
  have hout : Outside 0xa0 i ∧ Outside 0xa8 i := by
    unfold Outside
    omega
  exact hcopy i (by omega) hout.1 hout.2 (writeWord_other (.inl (by omega)))

/-- The two programs on the sample's layout, with only `KBASE` set in between. -/
def sampleRun (p : Profile) (m : Bytes) : Except Unit Bytes := do
  let m₁ ← flint p .amd64 samplePhs 0x100000 m
  reloc p .amd64 amd64Cfg (kernelInfo 0xb0 samplePhs) 0x1000a0 0x1000a8 0x100010 0x200000
    (writeWord m₁ 0x1000a0 0x100000)

/-- The first relocation is for the addend of the second. -/
def overlapMem : Bytes := loaded 0x100000 (sampleDyn 48 ++
  [(0x40, 0x68), (0x48, 8), (0x50, 0x20), (0x58, 0x98), (0x60, 8), (0x68, 4)])

/-- A relocation for an address below the image that is itself below zero. -/
def belowMem : Bytes := loaded 0x100000 (sampleDyn 24 ++ [(0x40, 0x90), (0x48, 8), (0x50, -0x100001)])

/-- The statics are not as in the image that was loaded; a relocation in the list of relocations changes what is
relocated after it; and in a development build the addition of the distance can stop. -/
theorem relocatedFor_fails :
    ((∀ e ∈ named .amd64 (kernelInfo 0xb0 samplePhs) (view 0x100000 sampleMem), Clear e.offset 0xa0) ∧
      (sampleRun .release sampleMem).map (readWord · 0x2000a0) = .ok 0x200000 ∧ readWord sampleMem 0x1000a0 = 0) ∧
    (((named .amd64 (kernelInfo 0xb0 samplePhs) (view 0x100000 overlapMem)).map RelaEntry.offset).Pairwise Clear ∧
      (sampleRun .release overlapMem).map (readWord · 0x200098) = .ok 0xffff800000100020 ∧
      readWord (relocatedFor .amd64 (kernelInfo 0xb0 samplePhs) (view 0x100000 overlapMem) (hihalf amd64Cfg)) 0x98 =
        0xffff800000000004) ∧
    (sampleRun .dev belowMem).map (readWord · 0x200090) = .error () := by
  decide +kernel

end Reloc

end UnixKernel
