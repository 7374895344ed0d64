import Mathlib.Data.List.GetD
import Mathlib.Data.Nat.Digits.Defs
import UnixKernel.Overflow
import UnixKernel.PhysAlloc

/-! The allocation table of `filesys/parts/fat.rs`: the boot sector, `fat_sz`, `clust_cnt`, `fat_type` and
`next_clust`. The partition is known by the bytes of its blocks; a request for blocks it does not have
fails. -/

namespace UnixKernel

/-- The number a little-endian field holds. -/
def leNat (bytes : List Byte) : Nat := Nat.ofDigits 256 (bytes.map BitVec.toNat)

/-- The field of `len` bytes at `off`. -/
def field (buf : List Byte) (off len : Nat) : Nat := leNat ((buf.drop off).take len)

/-- `&buf[start..start + len]`, read as a little-endian number. -/
def slice (buf : List Byte) (start len : Nat) : Except Halt Nat :=
  if start + len ≤ buf.length then .ok (field buf start len) else .error .panic

/-- A division of the source, which stops at a divisor of zero. -/
def quot (a b : Nat) : Except Halt Nat := if b = 0 then .error .panic else .ok (a / b)

/-- A block device as its readers see it. -/
structure Volume where
  blockSize : Nat
  blockCount : Nat
  block : Nat → List Byte
  length_block : ∀ lba, (block lba).length = blockSize

namespace Volume

/-- `read_block` into a buffer of `len` bytes. -/
def readBlock (v : Volume) (len lba : Nat) : Option (List Byte) :=
  let blocks := (len + v.blockSize - 1) / v.blockSize
  if lba + blocks ≤ v.blockCount then
    some (((List.range blocks).flatMap fun i => v.block (lba + i)).take len)
  else none

/-- Equal up to what lies behind the first block. -/
structure SameBoot (v w : Volume) : Prop where
  blockSize : w.blockSize = v.blockSize
  blockCount : w.blockCount = v.blockCount
  boot : w.block 0 = v.block 0

/-- Every byte behind the first block replaced by `b`. -/
def fill (v : Volume) (b : Byte) : Volume where
  blockSize := v.blockSize
  blockCount := v.blockCount
  block lba := if lba = 0 then v.block 0 else List.replicate v.blockSize b
  length_block lba := by
    split_ifs
    · exact v.length_block 0
    · exact List.length_replicate

theorem sameBoot_fill (v : Volume) (b : Byte) : v.SameBoot (v.fill b) := ⟨rfl, rfl, rfl⟩

theorem readBlock_of_le {v : Volume} {len lba : Nat} (hpos : 0 < len) (hlen : len ≤ v.blockSize)
    (hlba : lba < v.blockCount) : v.readBlock len lba = some ((v.block lba).take len) := by
  have hone : (len + v.blockSize - 1) / v.blockSize = 1 := Nat.div_eq_of_lt_le (by omega) (by omega)
  simp [readBlock, hone, Nat.succ_le_of_lt hlba]

theorem readBlock_block {v : Volume} {lba : Nat} (hpos : 0 < v.blockSize) (hlba : lba < v.blockCount) :
    v.readBlock v.blockSize lba = some (v.block lba) := by
  rw [readBlock_of_le hpos (Nat.le_refl _) hlba, List.take_of_length_le (Nat.le_of_eq (v.length_block lba))]

theorem eq_block_of_readBlock {v : Volume} {lba : Nat} {buf : List Byte} (hpos : 0 < v.blockSize)
    (h : v.readBlock v.blockSize lba = some buf) : buf = v.block lba := by
  rcases Nat.lt_or_ge lba v.blockCount with hlt | hge
  · exact (Option.some.inj ((readBlock_block hpos hlt).symm.trans h)).symm
  · have hone : (v.blockSize + v.blockSize - 1) / v.blockSize = 1 :=
      Nat.div_eq_of_lt_le (by omega) (by omega)
    unfold readBlock at h
    rw [hone, if_neg (by omega)] at h
    cases h

end Volume

theorem field_lt (buf : List Byte) (off len : Nat) : field buf off len < 256 ^ len := by
  have hdigits : ∀ d ∈ ((buf.drop off).take len).map BitVec.toNat, d < 256 := by
    intro d hd
    obtain ⟨b, -, rfl⟩ := List.mem_map.mp hd
    exact b.isLt
  refine Nat.lt_of_lt_of_le (Nat.ofDigits_lt_base_pow_length (by decide) hdigits) ?_
  rw [List.length_map]
  exact Nat.pow_le_pow_right (by decide) (List.length_take_le len _)

theorem field_succ {buf : List Byte} {off : Nat} (len : Nat) (h : off < buf.length) :
    field buf off (len + 1) = (buf.getD off 0).toNat + 256 * field buf (off + 1) len := by
  unfold field leNat
  rw [List.drop_eq_getElem_cons h, List.take_succ_cons, List.map_cons, Nat.ofDigits_cons,
    List.getD_eq_getElem buf 0 h]

@[simp] theorem field_zero (buf : List Byte) (off : Nat) : field buf off 0 = 0 := rfl

/-- The size of a `FatDirEnt`. -/
def dirEntSize : Nat := 32

/-- The fields of `BootParamBlock` that are read. -/
structure BootParamBlock where
  bytsPerSec : Nat
  secPerClus : Nat
  rsvdSecCnt : Nat
  numFats : Nat
  rootEntCnt : Nat
  totSec16 : Nat
  fatSz16 : Nat
  totSec32 : Nat
  deriving DecidableEq, Repr

def BootParamBlock.read (buf : List Byte) : BootParamBlock where
  bytsPerSec := field buf 11 2
  secPerClus := field buf 13 1
  rsvdSecCnt := field buf 14 2
  numFats := field buf 16 1
  rootEntCnt := field buf 17 2
  totSec16 := field buf 19 2
  fatSz16 := field buf 22 2
  totSec32 := field buf 32 4

/-- The fields of `Fat32BpbExt` that are read. -/
structure Fat32BpbExt where
  fatSz32 : Nat
  rootClus : Nat
  deriving DecidableEq, Repr

/-- The extension stands right behind the 36 bytes of the `BootParamBlock`. -/
def Fat32BpbExt.read (buf : List Byte) : Fat32BpbExt where
  fatSz32 := field buf 36 4
  rootClus := field buf 44 4

structure FileAllocTable where
  part : Volume
  bpb : BootParamBlock
  ext32 : Option Fat32BpbExt

/-- The widths of entries the format has. -/
inductive FatWidth where
  | bits12
  | bits16
  | bits28
  deriving DecidableEq, Repr

namespace FatWidth

/-- The entry of a table whose bytes are all `0x11`. -/
def ones : FatWidth → Nat
  | .bits12 => 0x111
  | .bits16 => 0x1111
  | .bits28 => 0x1111111

theorem ones_inj {v w : FatWidth} (h : v.ones = w.ones) : v = w := by
  cases v <;> cases w <;> first | rfl | contradiction

end FatWidth

inductive FatType where
  | fat12
  | fat16
  | fat32 (ext32 : Fat32BpbExt)
  deriving DecidableEq, Repr

namespace FatType

def width : FatType → FatWidth
  | .fat12 => .bits12
  | .fat16 => .bits16
  | .fat32 _ => .bits28

/-- Where `next_clust` looks for the entry of a cluster. -/
def fatOff (clust : Nat) : FatType → Nat
  | .fat12 => clust + (clust >>> 1)
  | .fat16 => clust * 2
  | .fat32 _ => clust * 4

/-- The entry `next_clust` takes out of a sector. -/
def entry (clust : Nat) (buf : List Byte) (entOff : Nat) : FatType → Except Halt Nat
  | .fat12 => do
      let raw ← slice buf entOff 2
      pure (if clust &&& 1 = 0 then raw &&& 0x0fff else raw >>> 4)
  | .fat16 => slice buf entOff 2
  | .fat32 _ => do
      let raw ← slice buf entOff 4
      pure (raw &&& 0x0fffffff)

/-- The least entry that ends a chain. -/
def eoc : FatType → Nat
  | .fat12 => 0x0ff8
  | .fat16 => 0xfff8
  | .fat32 _ => 0x0ffffff8

end FatType

namespace FileAllocTable

def new (part : Volume) : Option FileAllocTable := do
  let buf ← part.readBlock 512 0
  let bpb := BootParamBlock.read buf
  let is32bit := bpb.fatSz16 = 0
  pure ⟨part, bpb, if is32bit then some (Fat32BpbExt.read buf) else none⟩

variable (p : Profile) (fs : FileAllocTable)

def fatSz : Nat :=
  match fs.ext32 with
  | some ext32 => ext32.fatSz32
  | none => fs.bpb.fatSz16

/-- The `root_dir_sct` of `clust_cnt`, in `u16`. -/
def rootDirSct : Except Halt Nat := do
  let bytes ← p.fit .panic 16 (fs.bpb.rootEntCnt * dirEntSize)
  let round ← p.fit .panic 16 (fs.bpb.bytsPerSec - 1)
  let sum ← p.fit .panic 16 (bytes + round)
  quot sum fs.bpb.bytsPerSec

def clustCnt : Except Halt Nat := do
  let totSct := max fs.bpb.totSec32 fs.bpb.totSec16
  let rootDirSct ← rootDirSct p fs
  let fats ← p.fit .panic 32 (fs.bpb.numFats * fs.fatSz)
  let front ← p.fit .panic 32 (fs.bpb.rsvdSecCnt + fats)
  let front ← p.fit .panic 32 (front + rootDirSct)
  let dataSec ← p.fit .panic 32 (totSct - front)
  quot dataSec fs.bpb.secPerClus

def fatType : Except Halt FatType :=
  match fs.ext32 with
  | some ext32 => .ok (.fat32 ext32)
  | none => do
      let cnt ← clustCnt p fs
      pure (if cnt ≤ 4084 then .fat12 else .fat16)

/-- `next_clust`. The source asks for `fat_type` again at each use, with the same answer. -/
def nextClust (clust : Nat) : Except Halt (Option Nat) := do
  let fatType ← fatType p fs
  let fatOff := fatType.fatOff clust
  let fatSct := fs.bpb.rsvdSecCnt + (← quot fatOff fs.bpb.bytsPerSec)
  let entOff := fatOff % fs.bpb.bytsPerSec
  match fs.part.readBlock fs.part.blockSize fatSct with
  | none => pure none
  | some buf =>
      let entry ← fatType.entry clust buf entOff
      pure (if fatType.eoc ≤ entry then none else some entry)

/-! What the format says, in exact numbers. -/

def totalSectors : Nat := if fs.bpb.totSec16 = 0 then fs.bpb.totSec32 else fs.bpb.totSec16

def rootDirSectors : Nat := (fs.bpb.rootEntCnt * dirEntSize + (fs.bpb.bytsPerSec - 1)) / fs.bpb.bytsPerSec

/-- The clusters of a volume with a root directory of `root` sectors. -/
def clustersWith (root : Nat) : Nat :=
  (fs.totalSectors - (fs.bpb.rsvdSecCnt + fs.bpb.numFats * fs.fatSz + root)) / fs.bpb.secPerClus

def clusters : Nat := fs.clustersWith fs.rootDirSectors

/-- The width of the entries, by the number of clusters. -/
def width : FatWidth :=
  if fs.clusters < 4085 then .bits12 else if fs.clusters < 65525 then .bits16 else .bits28

/-- Byte `k` of the first allocation table. -/
def fatByte (k : Nat) : Nat :=
  ((fs.part.block (fs.bpb.rsvdSecCnt + k / fs.bpb.bytsPerSec)).getD (k % fs.bpb.bytsPerSec) 0).toNat

/-- The number in bytes `k` and `k + 1` of the table. -/
def fatPair (k : Nat) : Nat := fs.fatByte k + 256 * fs.fatByte (k + 1)

/-- Entry `c` of the first allocation table. -/
def tableEntry (c : Nat) : Nat :=
  match fs.width with
  | .bits12 => if c % 2 = 0 then fs.fatPair (c + c / 2) % 2 ^ 12 else fs.fatPair (c + c / 2) / 2 ^ 4
  | .bits16 => fs.fatPair (2 * c)
  | .bits28 => (fs.fatPair (4 * c) + 2 ^ 16 * fs.fatPair (4 * c + 2)) % 2 ^ 28

/-- The least mark of the end of a chain. -/
def endMark : Nat :=
  match fs.width with
  | .bits12 => 0xff8
  | .bits16 => 0xfff8
  | .bits28 => 0xffffff8

/-- The successor of cluster `c`. -/
def successor (c : Nat) : Option Nat := if fs.endMark ≤ fs.tableEntry c then none else some (fs.tableEntry c)

/-- The bytes of a table for `n` entries. -/
def tableBytes (n : Nat) : Nat :=
  match fs.width with
  | .bits12 => n + (n + 1) / 2
  | .bits16 => 2 * n
  | .bits28 => 4 * n

/-- A boot sector as the format asks for it, on a device with blocks of the size of a sector. -/
structure WellFormed : Prop where
  sector : fs.bpb.bytsPerSec ∈ [512, 1024, 2048, 4096]
  cluster : fs.bpb.secPerClus ∈ [1, 2, 4, 8, 16, 32, 64, 128]
  reserved : 0 < fs.bpb.rsvdSecCnt
  fats : 0 < fs.bpb.numFats
  total : fs.bpb.totSec16 = 0 ∨ fs.bpb.totSec32 = 0
  front : fs.bpb.rsvdSecCnt + fs.bpb.numFats * fs.fatSz + fs.rootDirSectors ≤ fs.totalSectors
  table : fs.tableBytes (fs.clusters + 2) ≤ fs.fatSz * fs.bpb.bytsPerSec
  kind : fs.ext32.isSome ↔ fs.width = .bits28
  blocks : fs.part.blockSize = fs.bpb.bytsPerSec
  fits : fs.totalSectors ≤ fs.part.blockCount

variable {p fs}

/-- The `u16` sum of `root_dir_sct` stays in range, or comes out on the same side of the bound between the
12-bit and the 16-bit entries. -/
def RootFits (p : Profile) (fs : FileAllocTable) : Prop :=
  let sum := fs.bpb.rootEntCnt * dirEntSize + (fs.bpb.bytsPerSec - 1)
  match p with
  | .dev => sum < 2 ^ 16
  | .release => fs.clustersWith (sum % 2 ^ 16 / fs.bpb.bytsPerSec) < 4085 ↔ fs.clusters < 4085

/-- The entry of a cluster lies in two sectors. -/
def Straddles (fs : FileAllocTable) (c : Nat) : Prop :=
  fs.width = .bits12 ∧ (c + c / 2) % fs.bpb.bytsPerSec + 1 = fs.bpb.bytsPerSec

section Boot

variable {part w : Volume}

theorem new_eq (h : new part = some fs) : ∃ buf, part.readBlock 512 0 = some buf ∧
    fs = ⟨part, .read buf, if (BootParamBlock.read buf).fatSz16 = 0 then some (.read buf) else none⟩ := by
  obtain ⟨buf, hbuf, hfs⟩ := Option.bind_eq_some_iff.mp h
  exact ⟨buf, hbuf, (Option.some.inj hfs).symm⟩

theorem bytsPerSec_lt (h : new part = some fs) : fs.bpb.bytsPerSec < 2 ^ 16 := by
  obtain ⟨buf, -, rfl⟩ := new_eq h
  exact field_lt buf 11 2

theorem totalSectors_lt (h : new part = some fs) : fs.totalSectors < 2 ^ 32 := by
  obtain ⟨buf, -, rfl⟩ := new_eq h
  have h16 : field buf 19 2 < 256 ^ 2 := field_lt buf 19 2
  have h32 : field buf 32 4 < 256 ^ 4 := field_lt buf 32 4
  show (if field buf 19 2 = 0 then field buf 32 4 else field buf 19 2) < 2 ^ 32
  split_ifs
  · exact h32
  · exact Nat.lt_trans h16 (by decide)

theorem new_sameBoot (h : new part = some fs) (hsize : 512 ≤ part.blockSize) (hw : part.SameBoot w) :
    new w = some { fs with part := w } := by
  have hread : w.readBlock 512 0 = part.readBlock 512 0 := by
    have hone : (512 + part.blockSize - 1) / part.blockSize = 1 := Nat.div_eq_of_lt_le (by omega) (by omega)
    unfold Volume.readBlock
    rw [hw.blockSize, hw.blockCount, hone]
    simp [hw.boot]
  obtain ⟨buf, hbuf, rfl⟩ := new_eq h
  unfold new
  rw [hread, hbuf]
  rfl

end Boot

namespace WellFormed

variable (hwf : fs.WellFormed)
include hwf

theorem le_bytsPerSec : 512 ≤ fs.bpb.bytsPerSec := by
  have h := hwf.sector
  simp only [List.mem_cons, List.not_mem_nil, or_false] at h
  omega

theorem secPerClus_pos : 0 < fs.bpb.secPerClus := by
  have h := hwf.cluster
  simp only [List.mem_cons, List.not_mem_nil, or_false] at h
  omega

theorem four_dvd_bytsPerSec : 4 ∣ fs.bpb.bytsPerSec := by
  have h := hwf.sector
  simp only [List.mem_cons, List.not_mem_nil, or_false] at h
  omega

theorem max_total : max fs.bpb.totSec32 fs.bpb.totSec16 = fs.totalSectors := by
  unfold totalSectors
  have h := hwf.total
  split_ifs <;> omega

theorem width_of_none (hext : fs.ext32 = none) :
    fs.width = if fs.clusters ≤ 4084 then .bits12 else .bits16 := by
  have hkind := hwf.kind
  rw [hext] at hkind
  unfold width at hkind ⊢
  split_ifs at hkind ⊢ <;> first | rfl | omega | exact absurd (hkind.mpr rfl) (by decide)

end WellFormed

/-! The type of the table. -/


section Kind

variable {part : Volume} (hpos : 0 < fs.bpb.bytsPerSec) (hlt : fs.bpb.bytsPerSec < 2 ^ 16)
include hpos hlt

theorem fit_round : p.fit Halt.panic 16 ((fs.bpb.bytsPerSec : Int) - 1) = .ok (fs.bpb.bytsPerSec - 1) :=
  Profile.fit_sub (b := 1) hpos hlt

theorem rootDirSct_of_lt (h : fs.bpb.rootEntCnt * dirEntSize + (fs.bpb.bytsPerSec - 1) < 2 ^ 16) :
    rootDirSct p fs = .ok fs.rootDirSectors := by
  have hbytes : fs.bpb.rootEntCnt * dirEntSize < 2 ^ 16 := Nat.lt_of_le_of_lt (Nat.le_add_right _ _) h
  unfold rootDirSct
  rw [← Nat.cast_mul, Profile.fit_of_lt hbytes, fit_round hpos hlt, ok_bind, ok_bind, ← Nat.cast_add,
    Profile.fit_of_lt h, ok_bind]
  exact if_neg hpos.ne'

theorem rootDirSct_dev (h : 2 ^ 16 ≤ fs.bpb.rootEntCnt * dirEntSize + (fs.bpb.bytsPerSec - 1)) :
    rootDirSct .dev fs = .error .panic := by
  unfold rootDirSct
  rw [← Nat.cast_mul, fit_round hpos hlt]
  rcases Nat.lt_or_ge (fs.bpb.rootEntCnt * dirEntSize) (2 ^ 16) with hbytes | hbytes
  · rw [Profile.fit_of_lt hbytes, ok_bind, ok_bind, ← Nat.cast_add, Profile.fit_dev_of_le h]
    rfl
  · rw [Profile.fit_dev_of_le hbytes]
    rfl

theorem rootDirSct_release : rootDirSct .release fs =
    .ok ((fs.bpb.rootEntCnt * dirEntSize + (fs.bpb.bytsPerSec - 1)) % 2 ^ 16 / fs.bpb.bytsPerSec) := by
  unfold rootDirSct
  rw [← Nat.cast_mul, Profile.fit_release_natCast, fit_round hpos hlt, ok_bind, ok_bind, ← Nat.cast_add,
    Profile.fit_release_natCast, ok_bind, Nat.mod_add_mod]
  exact if_neg hpos.ne'

end Kind

section Kind

variable {part : Volume} (hnew : new part = some fs) (hwf : fs.WellFormed)
include hnew hwf

theorem clustCnt_of_rootDirSct {root : Nat} (hroot : rootDirSct p fs = .ok root)
    (hle : root ≤ fs.rootDirSectors) : clustCnt p fs = .ok (fs.clustersWith root) := by
  have htotal := totalSectors_lt hnew
  have hfront := hwf.front
  unfold clustCnt
  rw [hroot, hwf.max_total, ok_bind, ← Nat.cast_mul, Profile.fit_of_lt (by omega), ok_bind, ← Nat.cast_add,
    Profile.fit_of_lt (by omega), ok_bind, ← Nat.cast_add, Profile.fit_of_lt (by omega), ok_bind,
    Profile.fit_sub (by omega) htotal, ok_bind]
  exact if_neg hwf.secPerClus_pos.ne'

/-- `fat_type` finds the width of the entries exactly when the sum in `u16` does no harm. -/
theorem fatType_width_iff : (fatType p fs).map FatType.width = .ok fs.width ↔
    fs.ext32.isSome ∨ RootFits p fs := by
  have hpos : 0 < fs.bpb.bytsPerSec := Nat.lt_of_lt_of_le (by decide) hwf.le_bytsPerSec
  have hlt := bytsPerSec_lt hnew
  have hdecide {n : Nat} (hcnt : clustCnt p fs = .ok n) (hext : fs.ext32 = none) :
      (fatType p fs).map FatType.width = .ok fs.width ↔ (n < 4085 ↔ fs.clusters < 4085) := by
    rw [hwf.width_of_none hext]
    unfold fatType
    rw [hext, hcnt]
    show Except.ok (FatType.width (if n ≤ 4084 then .fat12 else .fat16)) = Except.ok _ ↔ _
    rw [Except.ok.injEq]
    split_ifs <;> simp only [FatType.width, reduceCtorEq, true_iff, false_iff] <;> omega
  rcases hext : fs.ext32 with _ | ext32
  · simp only [Option.isSome_none, Bool.false_eq_true, false_or]
    cases p with
    | dev =>
        rcases Nat.lt_or_ge (fs.bpb.rootEntCnt * dirEntSize + (fs.bpb.bytsPerSec - 1)) (2 ^ 16) with h | h
        · rw [hdecide (clustCnt_of_rootDirSct hnew hwf (rootDirSct_of_lt hpos hlt h) (Nat.le_refl _)) hext]
          exact iff_of_true Iff.rfl h
        · refine iff_of_false ?_ (Nat.not_lt.mpr h)
          unfold fatType clustCnt
          rw [hext, rootDirSct_dev hpos hlt h]
          exact fun hfalse => nomatch hfalse
    | release =>
        have hle := Nat.div_le_div_right (c := fs.bpb.bytsPerSec)
          (Nat.mod_le (fs.bpb.rootEntCnt * dirEntSize + (fs.bpb.bytsPerSec - 1)) (2 ^ 16))
        exact hdecide (clustCnt_of_rootDirSct hnew hwf (rootDirSct_release hpos hlt) hle) hext
  · refine iff_of_true ?_ (.inl rfl)
    have hwidth : fs.width = .bits28 := hwf.kind.mp (hext ▸ rfl)
    unfold fatType
    rw [hext, hwidth]
    rfl

end Kind

/-! The entries of the table. -/

section Entries

variable (hwf : fs.WellFormed)
include hwf

theorem fatByte_add {k j : Nat} (h : k % fs.bpb.bytsPerSec + j < fs.bpb.bytsPerSec) :
    fs.fatByte (k + j) = ((fs.part.block (fs.bpb.rsvdSecCnt + k / fs.bpb.bytsPerSec)).getD
      (k % fs.bpb.bytsPerSec + j) 0).toNat := by
  have hsplit : k + j = (k % fs.bpb.bytsPerSec + j) + fs.bpb.bytsPerSec * (k / fs.bpb.bytsPerSec) := by
    have := Nat.mod_add_div k fs.bpb.bytsPerSec
    omega
  have hpos : 0 < fs.bpb.bytsPerSec := Nat.lt_of_lt_of_le (by decide) hwf.le_bytsPerSec
  unfold fatByte
  rw [hsplit, Nat.add_mul_mod_self_left, Nat.mod_eq_of_lt h, Nat.add_mul_div_left _ _ hpos,
    Nat.div_eq_of_lt h, Nat.zero_add]

theorem field_block_succ (k j len : Nat) (h : k % fs.bpb.bytsPerSec + j < fs.bpb.bytsPerSec) :
    field (fs.part.block (fs.bpb.rsvdSecCnt + k / fs.bpb.bytsPerSec)) (k % fs.bpb.bytsPerSec + j) (len + 1) =
      fs.fatByte (k + j) + 256 *
        field (fs.part.block (fs.bpb.rsvdSecCnt + k / fs.bpb.bytsPerSec)) (k % fs.bpb.bytsPerSec + (j + 1)) len := by
  rw [fatByte_add hwf h, field_succ len (by rw [fs.part.length_block, hwf.blocks]; exact h), Nat.add_assoc]

theorem slice_pair {k : Nat} (h : k % fs.bpb.bytsPerSec + 2 ≤ fs.bpb.bytsPerSec) :
    slice (fs.part.block (fs.bpb.rsvdSecCnt + k / fs.bpb.bytsPerSec)) (k % fs.bpb.bytsPerSec) 2 =
      .ok (fs.fatPair k) := by
  unfold slice fatPair
  rw [if_pos (by rw [fs.part.length_block, hwf.blocks]; exact h)]
  have h₀ := field_block_succ hwf k 0 1 (by omega)
  have h₁ := field_block_succ hwf k 1 0 (by omega)
  rw [field_zero] at h₁
  rw [Nat.zero_add, h₁] at h₀
  exact congrArg Except.ok h₀

theorem slice_quad {k : Nat} (h : k % fs.bpb.bytsPerSec + 4 ≤ fs.bpb.bytsPerSec) :
    slice (fs.part.block (fs.bpb.rsvdSecCnt + k / fs.bpb.bytsPerSec)) (k % fs.bpb.bytsPerSec) 4 =
      .ok (fs.fatPair k + 2 ^ 16 * fs.fatPair (k + 2)) := by
  unfold slice fatPair
  rw [if_pos (by rw [fs.part.length_block, hwf.blocks]; exact h)]
  have h₀ := field_block_succ hwf k 0 3 (by omega)
  have h₁ := field_block_succ hwf k 1 2 (by omega)
  have h₂ := field_block_succ hwf k 2 1 (by omega)
  have h₃ := field_block_succ hwf k 3 0 (by omega)
  rw [field_zero] at h₃
  apply congrArg Except.ok
  show field _ (k % fs.bpb.bytsPerSec + 0) 4 = _
  rw [h₀, h₁, h₂, h₃]
  show fs.fatByte k + 256 * (_ + 256 * (_ + 256 * (fs.fatByte (k + 3) + _))) =
    fs.fatByte k + _ + 2 ^ 16 * (_ + 256 * fs.fatByte (k + 3))
  omega

/-- An entry in one sector is decoded as the format says. -/
theorem entry_eq {ty : FatType} {c : Nat} (hty : ty.width = fs.width) (hone : ¬fs.Straddles c) :
    ty.entry c (fs.part.block (fs.bpb.rsvdSecCnt + ty.fatOff c / fs.bpb.bytsPerSec))
      (ty.fatOff c % fs.bpb.bytsPerSec) = .ok (fs.tableEntry c) := by
  have hfour := hwf.four_dvd_bytsPerSec
  have hpos : 0 < fs.bpb.bytsPerSec := Nat.lt_of_lt_of_le (by decide) hwf.le_bytsPerSec
  unfold FatType.entry tableEntry
  rw [← hty]
  cases ty with
  | fat12 =>
      have hin : (c + c / 2) % fs.bpb.bytsPerSec + 2 ≤ fs.bpb.bytsPerSec := by
        have hne : (c + c / 2) % fs.bpb.bytsPerSec + 1 ≠ fs.bpb.bytsPerSec := fun h => hone ⟨hty.symm, h⟩
        have hlt := Nat.mod_lt (c + c / 2) hpos
        omega
      have hoff : FatType.fat12.fatOff c = c + c / 2 := by
        rw [FatType.fatOff, Nat.shiftRight_eq_div_pow, Nat.pow_one]
      rw [hoff]
      simp only [slice_pair hwf hin, ok_bind, Nat.and_one_is_mod, Nat.shiftRight_eq_div_pow, FatType.width]
      rw [show 0x0fff = 2 ^ 12 - 1 from rfl, Nat.and_two_pow_sub_one_eq_mod]
      rfl
  | fat16 =>
      have hin : c * 2 % fs.bpb.bytsPerSec + 2 ≤ fs.bpb.bytsPerSec := by
        have hlt := Nat.mod_lt (c * 2) hpos
        have heven : 2 ∣ c * 2 % fs.bpb.bytsPerSec :=
          (Nat.dvd_mod_iff (Nat.dvd_trans (by decide) hfour)).mpr (Nat.dvd_mul_left 2 c)
        omega
      simp only [FatType.fatOff, slice_pair hwf hin, FatType.width, Nat.mul_comm]
  | fat32 ext32 =>
      have hin : c * 4 % fs.bpb.bytsPerSec + 4 ≤ fs.bpb.bytsPerSec := by
        have hlt := Nat.mod_lt (c * 4) hpos
        have hdvd : 4 ∣ c * 4 % fs.bpb.bytsPerSec := (Nat.dvd_mod_iff hfour).mpr (Nat.dvd_mul_left 4 c)
        omega
      simp only [FatType.fatOff, slice_quad hwf hin, ok_bind, FatType.width]
      rw [show 0x0fffffff = 2 ^ 28 - 1 from rfl, Nat.and_two_pow_sub_one_eq_mod, Nat.mul_comm c 4]
      rfl

theorem entry_sector {ty : FatType} {c : Nat} (hty : ty.width = fs.width) (hc : c ≤ fs.clusters + 1) :
    fs.bpb.rsvdSecCnt + ty.fatOff c / fs.bpb.bytsPerSec < fs.part.blockCount := by
  have htable := hwf.table
  have hoff : ty.fatOff c < fs.fatSz * fs.bpb.bytsPerSec := by
    refine Nat.lt_of_lt_of_le ?_ htable
    unfold tableBytes
    rw [← hty]
    cases ty <;> simp only [FatType.fatOff, FatType.width, Nat.shiftRight_eq_div_pow] <;> omega
  have hsector := Nat.div_lt_of_lt_mul (Nat.mul_comm _ _ ▸ hoff)
  have hfats := Nat.le_mul_of_pos_left fs.fatSz hwf.fats
  have hfront := hwf.front
  have hfits := hwf.fits
  omega

end Entries

theorem endMark_eq {ty : FatType} (hty : ty.width = fs.width) : fs.endMark = ty.eoc := by
  unfold endMark
  rw [← hty]
  cases ty <;> rfl

theorem nextClust_of_fatType {ty : FatType} {c : Nat} (hpos : 0 < fs.bpb.bytsPerSec)
    (hkind : fatType p fs = .ok ty) : nextClust p fs c =
      match fs.part.readBlock fs.part.blockSize (fs.bpb.rsvdSecCnt + ty.fatOff c / fs.bpb.bytsPerSec) with
      | none => .ok none
      | some buf => ty.entry c buf (ty.fatOff c % fs.bpb.bytsPerSec) >>= fun entry =>
          .ok (if ty.eoc ≤ entry then none else some entry) := by
  unfold nextClust quot
  rw [hkind, ok_bind]
  dsimp only
  rw [if_neg hpos.ne', ok_bind]
  rfl

theorem nextClust_eq {ty : FatType} {c : Nat} (hwf : fs.WellFormed) (hkind : fatType p fs = .ok ty)
    (hty : ty.width = fs.width) (hc : c ≤ fs.clusters + 1) (hone : ¬fs.Straddles c) :
    nextClust p fs c = .ok (fs.successor c) := by
  have hpos : 0 < fs.bpb.bytsPerSec := Nat.lt_of_lt_of_le (by decide) hwf.le_bytsPerSec
  have hread := Volume.readBlock_block (hwf.blocks ▸ hpos) (entry_sector hwf hty hc)
  rw [nextClust_of_fatType hpos hkind, hread]
  dsimp only
  rw [entry_eq hwf hty hone, ok_bind, ← endMark_eq hty]
  rfl

/-! A table of equal bytes shows each width by its entries. -/

section Ones

theorem field_replicate {n off len : Nat} (b : Byte) (h : off + len ≤ n) :
    field (List.replicate n b) off len = leNat (List.replicate len b) := by
  unfold field
  rw [List.drop_replicate, List.take_replicate, Nat.min_eq_left (by omega)]

theorem slice_replicate {n off len v : Nat} {b : Byte} (h : slice (List.replicate n b) off len = .ok v) :
    off + len ≤ n ∧ v = leNat (List.replicate len b) := by
  unfold slice at h
  split_ifs at h with hle
  rw [List.length_replicate] at hle
  exact ⟨hle, (Except.ok.inj h).symm.trans (field_replicate b hle)⟩

theorem entry_ones {ty : FatType} {c n off v : Nat}
    (h : ty.entry c (List.replicate n 0x11) off = .ok v) :
    v = ty.width.ones ∧ (ty = .fat12 → off + 2 ≤ n) := by
  cases ty with
  | fat12 =>
      obtain ⟨raw, hraw, hv⟩ := bind_eq_ok.mp h
      obtain ⟨hle, rfl⟩ := slice_replicate hraw
      refine ⟨?_, fun _ => hle⟩
      rw [← Except.ok.inj hv]
      split_ifs <;> decide
  | fat16 =>
      obtain ⟨-, rfl⟩ := slice_replicate h
      exact ⟨by decide, fun hfalse => nomatch hfalse⟩
  | fat32 ext32 =>
      obtain ⟨raw, hraw, hv⟩ := bind_eq_ok.mp h
      obtain ⟨-, rfl⟩ := slice_replicate hraw
      rw [← Except.ok.inj hv]
      exact ⟨rfl, fun hfalse => nomatch hfalse⟩

variable (hwf : fs.WellFormed)
  (hones : ∀ lba, lba ≠ 0 → fs.part.block lba = List.replicate fs.bpb.bytsPerSec 0x11)
include hwf hones

theorem fatPair_ones (k : Nat) : fs.fatPair k = 0x1111 := by
  have hpos : 0 < fs.bpb.bytsPerSec := Nat.lt_of_lt_of_le (by decide) hwf.le_bytsPerSec
  have hbyte (k : Nat) : fs.fatByte k = 0x11 := by
    unfold fatByte
    rw [hones _ (Nat.add_pos_left hwf.reserved _).ne',
      List.getD_eq_getElem _ _ (by rw [List.length_replicate]; exact Nat.mod_lt k hpos), List.getElem_replicate]
    rfl
  unfold fatPair
  rw [hbyte, hbyte]

theorem successor_ones (c : Nat) : fs.successor c = some fs.width.ones := by
  unfold successor endMark tableEntry
  simp only [fatPair_ones hwf hones]
  cases fs.width with
  | bits12 => split_ifs <;> first | rfl | contradiction
  | bits16 => rfl
  | bits28 => rfl

/-- The entries show that the width was right and that the entry was in one sector. -/
theorem of_nextClust_ones {c : Nat} (h : nextClust p fs c = .ok (fs.successor c)) :
    (fatType p fs).map FatType.width = .ok fs.width ∧ ¬fs.Straddles c := by
  have hpos : 0 < fs.bpb.bytsPerSec := Nat.lt_of_lt_of_le (by decide) hwf.le_bytsPerSec
  rw [successor_ones hwf hones] at h
  obtain ⟨ty, hkind, -⟩ := bind_eq_ok.mp h
  rw [nextClust_of_fatType hpos hkind] at h
  rcases hread : fs.part.readBlock fs.part.blockSize
      (fs.bpb.rsvdSecCnt + ty.fatOff c / fs.bpb.bytsPerSec) with _ | buf
  · rw [hread] at h
    cases h
  · obtain rfl := Volume.eq_block_of_readBlock (hwf.blocks ▸ hpos) hread
    rw [hread, hones _ (Nat.add_pos_left hwf.reserved _).ne'] at h
    obtain ⟨entry, hentry, hv⟩ := bind_eq_ok.mp h
    obtain ⟨rfl, hin⟩ := entry_ones hentry
    have hwidth : ty.width = fs.width := by
      have hv := Except.ok.inj hv
      split_ifs at hv
      exact FatWidth.ones_inj (Option.some.inj hv)
    refine ⟨by rw [hkind, ← hwidth]; rfl, fun hstraddle => ?_⟩
    obtain ⟨hbits, hlast⟩ := hstraddle
    rw [← hwidth] at hbits
    cases ty with
    | fat12 =>
        have hin := hin rfl
        rw [FatType.fatOff, Nat.shiftRight_eq_div_pow, Nat.pow_one] at hin
        omega
    | fat16 => cases hbits
    | fat32 ext32 => cases hbits

end Ones

/-- On every volume with a given boot sector `next_clust` gives the successor of a cluster, if and only if
the size of the root directory fits the arithmetic of `clust_cnt` and the entry does not lie in two
sectors. -/
theorem nextClust_iff {part : Volume} {c : Nat} (hnew : new part = some fs) (hwf : fs.WellFormed)
    (hc : c ≤ fs.clusters + 1) :
    (∀ w fs', part.SameBoot w → new w = some fs' → nextClust p fs' c = .ok (fs'.successor c)) ↔
      (fs.ext32.isSome ∨ RootFits p fs) ∧ ¬fs.Straddles c := by
  have hpart : fs.part = part := by
    obtain ⟨buf, -, rfl⟩ := new_eq hnew
    rfl
  have hsize : 512 ≤ part.blockSize := by
    rw [← hpart, hwf.blocks]
    exact hwf.le_bytsPerSec
  have hwf' {w : Volume} (hw : part.SameBoot w) : WellFormed { fs with part := w } :=
    ⟨hwf.sector, hwf.cluster, hwf.reserved, hwf.fats, hwf.total, hwf.front, hwf.table, hwf.kind,
      by rw [← hwf.blocks, hpart]; exact hw.blockSize, by rw [hw.blockCount, ← hpart]; exact hwf.fits⟩
  constructor
  · intro hall
    have hfill := part.sameBoot_fill 0x11
    have hone (lba : Nat) (hlba : lba ≠ 0) :
        (part.fill 0x11).block lba = List.replicate fs.bpb.bytsPerSec 0x11 := by
      rw [← hwf.blocks, hpart]
      exact if_neg hlba
    obtain ⟨hkind, hstraddle⟩ := of_nextClust_ones (hwf' hfill) hone
      (hall _ _ hfill (new_sameBoot hnew hsize hfill))
    exact ⟨(fatType_width_iff hnew hwf).mp hkind, hstraddle⟩
  · intro hcond w fs' hw hnew'
    obtain ⟨hfits, hone⟩ := hcond
    obtain rfl := Option.some.inj ((new_sameBoot hnew hsize hw).symm.trans hnew')
    obtain ⟨ty, hkind, hty⟩ := map_eq_ok.mp ((fatType_width_iff hnew hwf).mpr hfits)
    exact nextClust_eq (hwf' hw) hkind hty hc hone

/-- The boot sector of a small volume: one reserved sector, a table of two, a root directory of one and 345
clusters of one sector. -/
def floppyBoot : List Byte :=
  List.replicate 12 0 ++ [2, 1, 1, 0, 1, 16, 0, 0x5d, 1, 0xf8, 2] ++ List.replicate 489 0

theorem length_floppyBoot : floppyBoot.length = 512 := by decide +kernel

def floppy : Volume where
  blockSize := 512
  blockCount := 349
  block lba := if lba = 0 then floppyBoot else List.replicate 512 0
  length_block lba := by
    split_ifs
    · exact length_floppyBoot
    · exact List.length_replicate

def floppyTable : FileAllocTable := ⟨floppy, ⟨512, 1, 1, 1, 16, 349, 2, 0⟩, none⟩

theorem new_floppy : new floppy = some floppyTable := by
  have hread : floppy.readBlock 512 0 = some floppyBoot := by decide +kernel
  have hbpb : BootParamBlock.read floppyBoot = floppyTable.bpb := by decide +kernel
  unfold new
  rw [hread]
  show some (FileAllocTable.mk floppy (BootParamBlock.read floppyBoot)
    (if (BootParamBlock.read floppyBoot).fatSz16 = 0 then _ else none)) = _
  rw [hbpb]
  rfl

theorem wellFormed_floppy : floppyTable.WellFormed :=
  ⟨by decide, by decide, by decide, by decide, by decide, by decide, by decide, by decide, rfl, by decide⟩

theorem nextClust_iff_floppy : nextClust .dev floppyTable 4 = .ok (floppyTable.successor 4) :=
  (nextClust_iff new_floppy wellFormed_floppy (by decide)).mpr
    ⟨.inr (by unfold RootFits; decide), by unfold Straddles; decide⟩ floppy floppyTable ⟨rfl, rfl, rfl⟩ new_floppy

/-- Entry 341 of a table of 12-bit entries starts in the last byte of a sector. -/
theorem nextClust_straddling : new floppy = some floppyTable ∧ floppyTable.WellFormed ∧
    2 ≤ 341 ∧ 341 ≤ floppyTable.clusters + 1 ∧ floppyTable.successor 341 = some 0 ∧
    nextClust .dev floppyTable 341 = .error .panic ∧ nextClust .release floppyTable 341 = .error .panic :=
  ⟨new_floppy, wellFormed_floppy, by decide, by decide, by decide +kernel, by decide +kernel, by decide +kernel⟩

end FileAllocTable

end UnixKernel
