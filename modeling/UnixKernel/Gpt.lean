import UnixKernel.FlatDevice
import UnixKernel.Slice

/-! The partition table of `filesys/gpt.rs`. `UEFIPartition::new` reads the header at block 1 and then the array of
entries that it describes; `get_parts` makes a partition of each entry that is kept. The header says how long the
slot of an entry is, while the decoder takes 128 bytes and no others. -/

namespace UnixKernel

open FlatArray

/-- `len` bytes of a structure, at an offset. -/
def bytesAt (bytes : List Byte) (off len : Nat) : List Byte := (bytes.drop off).take len

/-- The fields of `UUIDPartitionTable` that are read. -/
structure UUIDPartitionTable where
  sign : List Byte
  diskUuid : List Byte
  partentryLba : Nat
  partentryNum : Nat
  partentryLen : Nat
  num_lt : partentryNum < 2 ^ 32
  len_lt : partentryLen < 2 ^ 32

structure UUIDPartitionEntry where
  typeUuid : List Byte
  uniqueUuid : List Byte
  firstLba : Nat
  lastLba : Nat
  attr : Nat
  name : List Nat
  first_lt : firstLba < 2 ^ 64
  last_lt : lastLba < 2 ^ 64

structure UEFIPartition where
  dev : BlockDevice
  head : UUIDPartitionTable
  entries : List UUIDPartitionEntry

namespace UUIDPartitionTable

/-- `size_of::<UUIDPartitionTable>()`. -/
def size : Nat := 92

/-- `"EFI PART"`. -/
def efiPart : List Byte := [0x45, 0x46, 0x49, 0x20, 0x50, 0x41, 0x52, 0x54]

def decode (bytes : List Byte) : UUIDPartitionTable where
  sign := bytesAt bytes 0 8
  diskUuid := bytesAt bytes 56 16
  partentryLba := field bytes 72 8
  partentryNum := field bytes 80 4
  partentryLen := field bytes 84 4
  num_lt := field_lt bytes 80 4
  len_lt := field_lt bytes 84 4

/-- `FromBytes::read_from_bytes`, for bytes of exactly the size. -/
def readFromBytes (bytes : List Byte) : Option UUIDPartitionTable :=
  if bytes.length = size then some (decode bytes) else none

end UUIDPartitionTable

namespace UUIDPartitionEntry

/-- `size_of::<UUIDPartitionEntry>()`. -/
def size : Nat := 128

def decode (bytes : List Byte) : UUIDPartitionEntry where
  typeUuid := bytesAt bytes 0 16
  uniqueUuid := bytesAt bytes 16 16
  firstLba := field bytes 32 8
  lastLba := field bytes 40 8
  attr := field bytes 48 8
  name := (List.range 36).map fun i => field bytes (56 + 2 * i) 2
  first_lt := field_lt bytes 32 8
  last_lt := field_lt bytes 40 8

def readFromBytes (bytes : List Byte) : Option UUIDPartitionEntry :=
  if bytes.length = size then some (decode bytes) else none

/-- Neither of the two identifiers is zero. -/
def Used (e : UUIDPartitionEntry) : Prop := e.typeUuid ≠ List.replicate 16 0 ∧ e.uniqueUuid ≠ List.replicate 16 0

instance (e : UUIDPartitionEntry) : Decidable e.Used := inferInstanceAs (Decidable (_ ∧ _))

end UUIDPartitionEntry

/-- `PartDev::new`, which computes the size of the partition in bytes. -/
def PartDev.new (p : Profile) (dev : BlockDevice) (startLba blockCount : Nat) : Except Stop PartDev := do
  let part : PartDev := ⟨dev, startLba, blockCount⟩
  let _ ← (part.toBlockDevice p).totalSize p
  pure part

namespace UEFIPartition

variable (p : Profile)

/-- `alloc::vec![0u8; len]`. -/
def zeroed (len : Nat) : Except Stop Unit := ensure (len ≤ PartDev.isizeMax) .panic

/-- `map_err` with a text. -/
def orErr {α : Type} (x : Option α) (msg : String) : Except Stop α := x.elim (.error (.err msg)) .ok

/-- The loop over the entries, from slot `i` on. -/
def parseEntries (entBuf : List Byte) (entSize : Nat) : Nat → Nat → Except Stop (List UUIDPartitionEntry)
  | 0, _ => .ok []
  | rounds + 1, i => do
      let start ← p.fit .panic 64 ((i * entSize : Nat) : Int)
      let stop ← p.fit .panic 64 ((start + entSize : Nat) : Int)
      let slot ← Slice.range .panic entBuf start stop
      let entry ← orErr (UUIDPartitionEntry.readFromBytes slot) ("Failed to parse GPT entry " ++ toString i)
      let rest ← parseEntries entBuf entSize rounds (i + 1)
      pure (if entry.Used then entry :: rest else rest)

def new (dev : BlockDevice) : DiskM UEFIPartition := do
  Eff.lift (zeroed dev.blockSize)
  let buf ← dev.readBlock dev.blockSize 1
  let bytes ← Eff.lift (Slice.range .panic buf 0 UUIDPartitionTable.size)
  let head ← Eff.lift (orErr (UUIDPartitionTable.readFromBytes bytes) "Failed to parse GPT header")
  Eff.lift (ensure (head.sign = UUIDPartitionTable.efiPart) (.err "Invalid GPT signature"))
  let len ← Eff.lift (p.fit .panic 64 ((head.partentryLen * head.partentryNum : Nat) : Int))
  Eff.lift (zeroed len)
  let entBuf ← dev.readBlock len head.partentryLba
  let entries ← Eff.lift (parseEntries p entBuf head.partentryLen head.partentryNum 0)
  pure ⟨dev, head, entries⟩

/-- The partition of one entry. -/
def partOf (dev : BlockDevice) (e : UUIDPartitionEntry) : Except Stop PartDev := do
  let blocks ← p.fit .panic 64 ((e.lastLba : Int) - e.firstLba)
  let count ← p.fit .panic 64 ((blocks + 1 : Nat) : Int)
  PartDev.new p dev e.firstLba count

def getParts (t : UEFIPartition) : Except Stop (List PartDev) := t.entries.mapM (partOf p t.dev)

/-! ### The slots -/

/-- The entries of the slots that are in use, in the order of the slots. -/
def usedSlots (entBuf : List Byte) (entSize n : Nat) : List UUIDPartitionEntry :=
  ((List.range n).map fun i => .decode (bytesAt entBuf (i * entSize) UUIDPartitionEntry.size)).filter (·.Used)

section Slots

variable {p} {entBuf : List Byte} {entSize n i : Nat}

theorem slot_end (hi : i < n) : i * entSize + entSize ≤ entSize * n := by
  rw [← Nat.succ_mul, Nat.mul_comm]
  exact Nat.mul_le_mul_left entSize hi

theorem length_slot (hlength : entBuf.length = entSize * n) (hi : i < n) :
    (bytesAt entBuf (i * entSize) entSize).length = entSize := by
  have hend : i * entSize + entSize ≤ entSize * n := slot_end hi
  rw [bytesAt, List.length_take, List.length_drop]
  omega

variable (hlength : entBuf.length = entSize * n) (hlt : entSize * n < 2 ^ 64)

include hlength hlt

theorem parseEntries_succ (hi : i < n) (rounds : Nat) : parseEntries p entBuf entSize (rounds + 1) i =
    (do
      let entry ← orErr (UUIDPartitionEntry.readFromBytes (bytesAt entBuf (i * entSize) entSize))
        ("Failed to parse GPT entry " ++ toString i)
      let rest ← parseEntries p entBuf entSize rounds (i + 1)
      pure (if entry.Used then entry :: rest else rest)) := by
  have hend : i * entSize + entSize ≤ entSize * n := slot_end hi
  rw [parseEntries, Profile.fit_of_lt (by omega), ok_bind, Profile.fit_of_lt (by omega), ok_bind,
    Slice.range_eq (by omega), ok_bind]
  rfl

theorem parseEntries_of_size (hsize : entSize = UUIDPartitionEntry.size) {rounds : Nat} (hi : i + rounds ≤ n) :
    parseEntries p entBuf entSize rounds i =
      .ok (((List.range' i rounds).map fun j => .decode (bytesAt entBuf (j * entSize) entSize)).filter (·.Used)) := by
  induction rounds generalizing i with
  | zero => rfl
  | succ rounds ih =>
      have hread : UUIDPartitionEntry.readFromBytes (bytesAt entBuf (i * entSize) entSize) =
          some (.decode (bytesAt entBuf (i * entSize) entSize)) :=
        if_pos ((length_slot hlength (by omega)).trans hsize)
      rw [parseEntries_succ hlength hlt (by omega), hread, orErr, Option.elim_some, ok_bind, ih (by omega), ok_bind,
        List.range'_succ, List.map_cons, List.filter_cons]
      simp only [decide_eq_true_eq]
      rfl

theorem parseEntries_eq_usedSlots (hcond : entSize = UUIDPartitionEntry.size ∨ n = 0) :
    parseEntries p entBuf entSize n 0 = .ok (usedSlots entBuf entSize n) := by
  rcases hcond with hsize | rfl
  · rw [parseEntries_of_size hlength hlt hsize (Nat.zero_add n).le, usedSlots, List.range_eq_range', hsize]
  · rfl

theorem parseEntries_of_other_size (hsize : entSize ≠ UUIDPartitionEntry.size) (hi : i < n) (rounds : Nat) :
    parseEntries p entBuf entSize (rounds + 1) i =
      .error (.err ("Failed to parse GPT entry " ++ toString i)) := by
  have hread : UUIDPartitionEntry.readFromBytes (bytesAt entBuf (i * entSize) entSize) = none :=
    if_neg fun h => hsize ((length_slot hlength hi).symm.trans h)
  rw [parseEntries_succ hlength hlt hi, hread]
  rfl

end Slots

/-! ### Reading a table -/

/-- A device with a table: the header at block 1 has the signature, and the array of entries it describes can
be read. -/
structure TableOnDisk (dev : BlockDevice) (d : Disk) where
  buf : List Byte
  between : Disk
  entBuf : List Byte
  after : Disk
  table : UUIDPartitionTable
  header : dev.readBlock dev.blockSize 1 d = (.ok buf, between)
  length_buf : buf.length = dev.blockSize
  room : UUIDPartitionTable.size ≤ dev.blockSize
  table_eq : table = .decode (buf.take UUIDPartitionTable.size)
  sign_eq : table.sign = UUIDPartitionTable.efiPart
  entries : dev.readBlock (table.partentryLen * table.partentryNum) table.partentryLba between = (.ok entBuf, after)
  length_entBuf : entBuf.length = table.partentryLen * table.partentryNum
  memory : dev.blockSize ≤ PartDev.isizeMax ∧ entBuf.length ≤ PartDev.isizeMax

section Read

variable {p} {dev : BlockDevice} {d : Disk} (disk : TableOnDisk dev d)

theorem TableOnDisk.entBuf_lt : disk.table.partentryLen * disk.table.partentryNum < 2 ^ 64 := by
  have hmax := disk.memory.2
  rw [disk.length_entBuf] at hmax
  exact Nat.lt_of_le_of_lt hmax (by decide)

/-- `new` comes as far as the loop over the entries. -/
theorem new_eq : new p dev d =
    ((parseEntries p disk.entBuf disk.table.partentryLen disk.table.partentryNum 0).map fun entries =>
      ⟨dev, disk.table, entries⟩, disk.after) := by
  have hbytes : Slice.range Stop.panic disk.buf 0 UUIDPartitionTable.size =
      .ok (disk.buf.take UUIDPartitionTable.size) := Slice.range_zero (disk.room.trans_eq disk.length_buf.symm)
  have hlength : (disk.buf.take UUIDPartitionTable.size).length = UUIDPartitionTable.size := by
    rw [List.length_take, disk.length_buf]
    exact Nat.min_eq_left disk.room
  have hhead : UUIDPartitionTable.readFromBytes (disk.buf.take UUIDPartitionTable.size) = some disk.table := by
    rw [UUIDPartitionTable.readFromBytes, if_pos hlength, disk.table_eq]
  have hzeroed : zeroed (disk.table.partentryLen * disk.table.partentryNum) = .ok () :=
    ensure_eq_ok.mpr (disk.length_entBuf ▸ disk.memory.2)
  rw [new, show zeroed dev.blockSize = .ok () from ensure_eq_ok.mpr disk.memory.1, Eff.lift_ok_bind,
    Eff.bind_of_ok disk.header, hbytes, Eff.lift_ok_bind, hhead, orErr, Option.elim_some, Eff.lift_ok_bind,
    ensure_eq_ok.mpr disk.sign_eq, Eff.lift_ok_bind, Profile.fit_of_lt disk.entBuf_lt, Eff.lift_ok_bind, hzeroed,
    Eff.lift_ok_bind, Eff.bind_of_ok disk.entries]
  cases parseEntries p disk.entBuf disk.table.partentryLen disk.table.partentryNum 0 with
  | error e => rfl
  | ok entries => rfl

/-- Of the sizes that the format allows for a slot only the smallest is read, unless the table has no slots. -/
theorem new_reads_slots_iff {k : Nat} (hsize : disk.table.partentryLen = 128 * 2 ^ k) :
    (∃ t d', new p dev d = (.ok t, d') ∧
      t.entries = usedSlots disk.entBuf disk.table.partentryLen disk.table.partentryNum) ↔
      k = 0 ∨ disk.table.partentryNum = 0 := by
  rw [new_eq disk]
  constructor
  · rintro ⟨t, d', hnew, -⟩
    by_contra hcond
    obtain ⟨hk, hnum⟩ := not_or.mp hcond
    have hother : disk.table.partentryLen ≠ UUIDPartitionEntry.size := by
      have hpow : 2 ^ 1 ≤ 2 ^ k := Nat.pow_le_pow_right (by decide) (by omega)
      unfold UUIDPartitionEntry.size
      omega
    obtain ⟨rounds, hrounds⟩ := Nat.exists_eq_succ_of_ne_zero hnum
    have hfail := parseEntries_of_other_size (p := p) disk.length_entBuf disk.entBuf_lt hother
      (Nat.pos_of_ne_zero hnum) rounds
    rw [hrounds, Nat.succ_eq_add_one, hfail] at hnew
    cases hnew
  · intro hcond
    have hslots : disk.table.partentryLen = UUIDPartitionEntry.size ∨ disk.table.partentryNum = 0 := by
      refine hcond.imp_left ?_
      rintro rfl
      exact hsize
    rw [parseEntries_eq_usedSlots disk.length_entBuf disk.entBuf_lt hslots]
    exact ⟨_, _, rfl, rfl⟩

end Read

/-- A device of 64 blocks that is the disk itself. -/
def sampleDev : BlockDevice where
  blockSize := 512
  blockCount := 64
  readBlock len lba := fun d => (.ok (window (d.flat 512) (lba * 512) len), d)
  writeBlock buf lba := fun d =>
    (.ok (), ⟨fun block i => splice (d.flat 512) (lba * 512) buf (block * 512 + i), d.log⟩)

/-- A header for entries at block 2, with slots of 128 or of 256 bytes. -/
def sampleHeader (wide : Bool) (num : Byte) : List Byte :=
  UUIDPartitionTable.efiPart ++ List.replicate 64 0 ++ [2, 0, 0, 0, 0, 0, 0, 0] ++ [num, 0, 0, 0] ++
    (if wide then [0, 1, 0, 0] else [128, 0, 0, 0])

/-- An entry with the first and the last of its blocks. -/
def sampleEntry (first last : Byte) : List Byte :=
  List.replicate 16 1 ++ List.replicate 16 2 ++ [first, 0, 0, 0, 0, 0, 0, 0] ++ [last, 0, 0, 0, 0, 0, 0, 0]

def diskOf (header slots : List Byte) : Disk where
  byte block i := if block = 1 then header.getD i 0 else if block = 2 then slots.getD i 0 else 0
  log := []

/-- A table with one slot. -/
def sampleDisk (wide : Bool) (first last : Byte) : Disk := diskOf (sampleHeader wide 1) (sampleEntry first last)

/-- A table with three slots, the second of which is not in use. -/
def threeSlots : Disk := diskOf (sampleHeader false 3) (sampleEntry 34 40 ++ List.replicate 208 0 ++ sampleEntry 50 60)

def sampleTable (d : Disk) : UUIDPartitionTable :=
  .decode ((window (d.flat 512) 512 512).take UUIDPartitionTable.size)

/-- What `new` reads from a disk with the signature. -/
def sampleOnDisk (d : Disk) (hsign : (sampleTable d).sign = UUIDPartitionTable.efiPart)
    (hmemory : (sampleTable d).partentryLen * (sampleTable d).partentryNum ≤ PartDev.isizeMax) :
    TableOnDisk sampleDev d where
  buf := window (d.flat 512) 512 512
  between := d
  entBuf := window (d.flat 512) ((sampleTable d).partentryLba * 512)
    ((sampleTable d).partentryLen * (sampleTable d).partentryNum)
  after := d
  table := sampleTable d
  header := rfl
  length_buf := length_window
  room := by decide
  table_eq := rfl
  sign_eq := hsign
  entries := rfl
  length_entBuf := length_window
  memory := ⟨by decide, length_window.symm ▸ hmemory⟩

def threeOnDisk : TableOnDisk sampleDev threeSlots := sampleOnDisk threeSlots (by decide +kernel) (by decide +kernel)

def wideOnDisk : TableOnDisk sampleDev (sampleDisk true 34 40) :=
  sampleOnDisk (sampleDisk true 34 40) (by decide +kernel) (by decide +kernel)

/-- Of three slots of 128 bytes the two that are in use are read. -/
theorem new_reads_slots_narrow : threeOnDisk.table.partentryLen = 128 * 2 ^ 0 ∧
    (usedSlots threeOnDisk.entBuf threeOnDisk.table.partentryLen threeOnDisk.table.partentryNum).map
      (fun e => (e.firstLba, e.lastLba)) = [(34, 40), (50, 60)] ∧
    ∃ t d', new .dev sampleDev threeSlots = (.ok t, d') ∧
      t.entries = usedSlots threeOnDisk.entBuf threeOnDisk.table.partentryLen threeOnDisk.table.partentryNum := by
  have hlen : threeOnDisk.table.partentryLen = 128 * 2 ^ 0 := by decide +kernel
  exact ⟨hlen, by decide +kernel, (new_reads_slots_iff threeOnDisk hlen).mpr (.inl rfl)⟩

/-- A table with one slot of 256 bytes, which is in use. -/
theorem new_rejects_wide_slot : wideOnDisk.table.partentryLen = 128 * 2 ^ 1 ∧
    (usedSlots wideOnDisk.entBuf wideOnDisk.table.partentryLen wideOnDisk.table.partentryNum).length = 1 ∧
    (new .dev sampleDev (sampleDisk true 34 40)).1.map (·.entries.length) =
      .error (.err "Failed to parse GPT entry 0") ∧
    (new .release sampleDev (sampleDisk true 34 40)).1.map (·.entries.length) =
      .error (.err "Failed to parse GPT entry 0") := by
  decide +kernel

/-! ### The partitions -/

/-- The partition has the blocks of its entry, counted without wrapping around, and ends inside the device. -/
structure Covers (dev : BlockDevice) (e : UUIDPartitionEntry) (part : PartDev) : Prop where
  start_eq : part.startLba = e.firstLba
  ordered : e.firstLba ≤ e.lastLba
  count_eq : part.blockCount = e.lastLba - e.firstLba + 1
  inside : part.startLba + part.blockCount ≤ dev.blockCount

/-- An entry that `get_parts` can use as it is. -/
def InDevice (dev : BlockDevice) (e : UUIDPartitionEntry) : Prop :=
  e.firstLba ≤ e.lastLba ∧ e.lastLba < dev.blockCount ∧
    (p = .dev → dev.blockSize * (e.lastLba - e.firstLba + 1) < 2 ^ 64)

instance (dev : BlockDevice) (e : UUIDPartitionEntry) : Decidable (InDevice p dev e) :=
  inferInstanceAs (Decidable (_ ∧ _ ∧ (_ → _)))

section Parts

variable {p} {dev : BlockDevice} {e : UUIDPartitionEntry}

theorem partOf_eq (hle : e.firstLba ≤ e.lastLba) (hcount : e.lastLba - e.firstLba + 1 < 2 ^ 64) :
    partOf p dev e = PartDev.new p dev e.firstLba (e.lastLba - e.firstLba + 1) := by
  rw [partOf, Profile.fit_sub hle e.last_lt, ok_bind, Profile.fit_of_lt hcount, ok_bind]

/-- `PartDev::new` returns the partition unless a development build finds its size too large. -/
theorem new_eq_ok_iff {startLba blockCount : Nat} {part : PartDev} :
    PartDev.new p dev startLba blockCount = .ok part ↔
      (p = .dev → dev.blockSize * blockCount < 2 ^ 64) ∧ ⟨dev, startLba, blockCount⟩ = part := by
  unfold PartDev.new BlockDevice.totalSize PartDev.toBlockDevice
  dsimp only
  by_cases hwide : p = .dev ∧ 2 ^ 64 ≤ dev.blockSize * blockCount
  · obtain ⟨rfl, hle⟩ := hwide
    rw [Profile.fit_dev_of_le hle, error_bind]
    exact iff_of_false (by intro h; cases h) fun h => Nat.not_lt.mpr hle (h.1 rfl)
  · rw [Profile.fit_natCast hwide, ok_bind]
    constructor
    · intro h
      exact ⟨fun hp => Nat.lt_of_not_le fun hle => hwide ⟨hp, hle⟩, Except.ok.inj h⟩
    · rintro ⟨-, rfl⟩
      rfl

theorem partOf_covers_iff (hblocks : dev.blockCount < 2 ^ 64) :
    (∃ part, partOf p dev e = .ok part ∧ Covers dev e part) ↔ InDevice p dev e := by
  constructor
  · rintro ⟨part, hpart, hcovers⟩
    have hcount := hcovers.count_eq
    have hinside := hcovers.inside
    have hstart := hcovers.start_eq
    have hle := hcovers.ordered
    have hlast : e.lastLba < dev.blockCount := by omega
    rw [partOf_eq hle (by omega), new_eq_ok_iff] at hpart
    exact ⟨hle, hlast, hpart.1⟩
  · rintro ⟨hle, hlast, hbytes⟩
    refine ⟨⟨dev, e.firstLba, e.lastLba - e.firstLba + 1⟩, ?_, rfl, hle, rfl, ?_⟩
    · rw [partOf_eq hle (by omega), new_eq_ok_iff]
      exact ⟨hbytes, rfl⟩
    · show e.firstLba + (e.lastLba - e.firstLba + 1) ≤ dev.blockCount
      omega

/-- The partitions are those of the entries exactly when every entry stays inside the device. -/
theorem getParts_covers_iff {t : UEFIPartition} (hblocks : t.dev.blockCount < 2 ^ 64) :
    (∃ parts, getParts p t = .ok parts ∧ List.Forall₂ (Covers t.dev) t.entries parts) ↔
      ∀ e ∈ t.entries, InDevice p t.dev e := by
  rw [getParts, exists_mapM_forall₂]
  exact forall₂_congr fun e _ => partOf_covers_iff hblocks

end Parts

/-- The first block and the number of blocks of the partitions on a device. -/
def partsOn (dev : BlockDevice) (d : Disk) : Except Stop (List (Nat × Nat)) := do
  let t ← (new p dev d).1
  let parts ← getParts p t
  pure (parts.map fun part => (part.startLba, part.blockCount))

theorem getParts_covers_sample : sampleDev.blockCount < 2 ^ 64 ∧
    ∃ t d' parts, new .dev sampleDev threeSlots = (.ok t, d') ∧ t.entries.length = 2 ∧
      getParts .dev t = .ok parts ∧ List.Forall₂ (Covers t.dev) t.entries parts := by
  have hall : (new .dev sampleDev threeSlots).1.map (fun t => decide (t.dev.blockCount < 2 ^ 64 ∧ t.entries.length = 2 ∧
      ∀ e ∈ t.entries, InDevice .dev t.dev e)) = .ok true := by decide +kernel
  rcases hnew : new .dev sampleDev threeSlots with ⟨e | t, d'⟩
  · rw [hnew] at hall
    cases hall
  rw [hnew] at hall
  obtain ⟨hblocks, hlength, hin⟩ := of_decide_eq_true (Except.ok.inj hall)
  obtain ⟨parts, hparts, hcovers⟩ := (getParts_covers_iff hblocks).mpr hin
  exact ⟨by decide, t, d', parts, rfl, hlength, hparts, hcovers⟩

/-- On a device of 64 blocks, an entry that ends at block 100, and one that ends before it begins. -/
theorem parts_leave_device : sampleDev.blockCount = 64 ∧
    partsOn .dev sampleDev (sampleDisk false 34 100) = .ok [(34, 67)] ∧
    partsOn .release sampleDev (sampleDisk false 34 100) = .ok [(34, 67)] ∧
    partsOn .release sampleDev (sampleDisk false 40 34) = .ok [(40, 2 ^ 64 - 5)] ∧
    partsOn .dev sampleDev (sampleDisk false 40 34) = .error .panic := by
  decide +kernel

end UEFIPartition

end UnixKernel
