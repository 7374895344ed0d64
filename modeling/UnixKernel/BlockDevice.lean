import UnixKernel.Effects
import UnixKernel.Fat
import UnixKernel.FlatArray
import UnixKernel.PhysSpec
import UnixKernel.Slice

/-! Block devices: the trait of `device/block.rs` and the device of `device/nvme.rs`. The state is the bytes
of the disk and the blocks it was told to read or write. Numbers of blocks and bytes are `u64`.

A call of `read_block` or `write_block` takes one `PhysPageBuf` from the physical allocator and uses it for all
its chunks; what it holds is what the chunk before left, or what the memory held. A command moves as many bytes
as the buffer has. The buffer goes back to the allocator at the end of the call. -/

namespace UnixKernel

open FlatArray

inductive Access where
  | read (lba : Nat)
  | write (lba : Nat)
  deriving DecidableEq, Repr

def Access.lba : Access → Nat
  | .read lba => lba
  | .write lba => lba

/-- The bytes of each block, and the commands it got. -/
structure Disk where
  byte : Nat → Nat → Byte
  log : List Access

/-- The bytes of the disk, block after block. -/
def Disk.flat (bs : Nat) (d : Disk) (k : Nat) : Byte := d.byte (k / bs) (k % bs)

/-- An `Err` of the call, or a stop of the kernel. -/
inductive Stop where
  | err (msg : String)
  | panic
  deriving DecidableEq, Repr

abbrev DiskM := Eff Disk Stop

/-- The blocks that `len` bytes take. -/
def blocksOf (bs len : Nat) : Nat := (len + bs - 1) / bs

/-- `BlockDevice`. A read is given the length of its buffer and returns what it put there. -/
structure BlockDevice where
  blockSize : Nat
  blockCount : Nat
  readBlock : Nat → Nat → DiskM (List Byte)
  writeBlock : List Byte → Nat → DiskM Unit

/-- The new commands went to the `k` blocks from `lba` on. -/
def Within (p : Profile) (old : List Access) (lba k : Nat) (log : List Access) : Prop :=
  ∀ a ∈ log, a ∈ old ∨ ∃ i < k, p.fit Stop.panic 64 (lba + i) = .ok a.lba

/-- What is asked of a block device: a call commands the blocks of its range only, and fills the buffer. -/
structure BlockDevice.Lawful (p : Profile) (dev : BlockDevice) : Prop where
  pos : 0 < dev.blockSize
  read : ∀ len lba d, Within p d.log lba (blocksOf dev.blockSize len) (dev.readBlock len lba d).2.log
  write : ∀ buf lba d,
    Within p d.log lba (blocksOf dev.blockSize buf.length) (dev.writeBlock buf lba d).2.log
  length : ∀ len lba d buf d', dev.readBlock len lba d = (.ok buf, d') → buf.length = len

/-- A namespace of an NVMe controller, by the error of a command after the commands it had. -/
structure NvmeNs where
  blkSz : Nat
  blkCnt : Nat
  error : List Access → Access → Option String

/-- A command, and the error it ends with. -/
def NvmeNs.command (ns : NvmeNs) (a : Access) : DiskM Unit := fun d =>
  let d' := { d with log := d.log ++ [a] }
  match ns.error d.log a with
  | some e => (.error (.err e), d')
  | none => (.ok (), d')

/-- The memory of the kernel after the commands so far: the page size, the allocator and the bytes. -/
structure HostMemory where
  pg : BPage
  ops : TableOps
  phys : List Access → PhysAlloc
  ram : List Access → Nat → Byte

/-- `PhysPageBuf::new`. -/
def PhysPageBuf.new (pg : BPage) (o : TableOps) (s : PhysAlloc) (size : Nat) :
    Except Halt (Option OwnedPtr × PhysAlloc) :=
  s.alloc pg o (((AllocParams.new pg size).alignTo pg.size).asTy .kernelData)

namespace BlockDeviceNVMe

variable (p : Profile) (host : HostMemory) (ns : NvmeNs)

/-- The bytes of a new buffer. -/
def pageBuf (size : Nat) : DiskM (List Byte) := fun d =>
  match PhysPageBuf.new host.pg host.ops (host.phys d.log) size with
  | .error _ => (.error .panic, d)
  | .ok (none, _) => (.error (.err "Failed to allocate DMA buffer"), d)
  | .ok (some ptr, _) => (.ok (window (host.ram d.log) ptr.addr ptr.size), d)

/-- The bytes from the start of a block on, over as many blocks as it takes. -/
def fetched (lba len : Nat) : DiskM (List Byte) := fun d => (.ok (window (d.flat ns.blkSz) (lba * ns.blkSz) len), d)

def stored (lba : Nat) (pabuf : List Byte) : DiskM Unit := fun d =>
  (.ok (), { d with byte := fun block i => splice (d.flat ns.blkSz) (lba * ns.blkSz) pabuf (block * ns.blkSz + i) })

/-- `Ns::read`, which fills the buffer. -/
def nsRead (lba : Nat) (pabuf : List Byte) : DiskM (List Byte) := do
  ns.command (.read lba)
  fetched ns lba pabuf.length

/-- `Ns::write`, which stores the buffer. -/
def nsWrite (lba : Nat) (pabuf : List Byte) : DiskM Unit := do
  ns.command (.write lba)
  stored ns lba pabuf

/-- The chunks of `read_block` from chunk `i` on, with `len` bytes left to read. -/
def readChunks (lba : Nat) : Nat → Nat → Nat → List Byte → DiskM (List Byte)
  | 0, _, _, _ => pure []
  | chunks + 1, i, len, pabuf => do
      let block ← Eff.lift (p.fit .panic 64 ((lba + i : Nat) : Int))
      let pabuf ← nsRead ns block pabuf
      let ck ← Eff.lift (Slice.range .panic pabuf 0 (min len ns.blkSz))
      let rest ← readChunks lba chunks (i + 1) (len - ns.blkSz) pabuf
      pure (ck ++ rest)

/-- `buf.chunks(bs)`, which stops for chunks of no bytes. -/
def chunkCount (len : Nat) : Except Stop Nat := do
  ensure (ns.blkSz ≠ 0) .panic
  pure (blocksOf ns.blkSz len)

def readBlock (len lba : Nat) : DiskM (List Byte) := do
  let pabuf ← pageBuf host ns.blkSz
  let chunks ← Eff.lift (chunkCount ns len)
  readChunks p ns lba chunks 0 len pabuf

/-- A short chunk is preceded by a read of its block. -/
def refresh (lba i : Nat) (ck pabuf : List Byte) : DiskM (List Byte) :=
  if ck.length < ns.blkSz then do
    let block ← Eff.lift (p.fit .panic 64 ((lba + i : Nat) : Int))
    nsRead ns block pabuf
  else pure pabuf

def writeChunk (lba i : Nat) (ck pabuf : List Byte) : DiskM (List Byte) := do
  let pabuf ← refresh p ns lba i ck pabuf
  let pabuf ← Eff.lift (Slice.copyFrom .panic pabuf 0 ck.length ck)
  let block ← Eff.lift (p.fit .panic 64 ((lba + i : Nat) : Int))
  nsWrite ns block pabuf
  pure pabuf

/-- The chunks of `write_block` from chunk `i` on. -/
def writeChunks (lba : Nat) : Nat → Nat → List Byte → List Byte → DiskM Unit
  | 0, _, _, _ => pure ()
  | chunks + 1, i, buf, pabuf => do
      let pabuf ← writeChunk p ns lba i (buf.take ns.blkSz) pabuf
      writeChunks lba chunks (i + 1) (buf.drop ns.blkSz) pabuf

def writeBlock (buf : List Byte) (lba : Nat) : DiskM Unit := do
  let pabuf ← pageBuf host ns.blkSz
  let chunks ← Eff.lift (chunkCount ns buf.length)
  writeChunks p ns lba chunks 0 buf pabuf

/-- `BlockDeviceNVMe` as a device. -/
def toBlockDevice : BlockDevice := ⟨ns.blkSz, ns.blkCnt, readBlock p host ns, writeBlock p host ns⟩

end BlockDeviceNVMe

theorem PhysPageBuf.new_size {pg : BPage} {o : TableOps} {s s' : PhysAlloc} {size : Nat} {ptr : OwnedPtr}
    (h : PhysPageBuf.new pg o s size = .ok (some ptr, s')) : ptr.size = sizeAlign pg size :=
  PhysAlloc.alloc_size h

theorem le_blocksOf_mul {bs len : Nat} (hpos : 0 < bs) : len ≤ blocksOf bs len * bs := by
  have hmod := Nat.div_add_mod (len + bs - 1) bs
  have hlt := Nat.mod_lt (len + bs - 1) hpos
  unfold blocksOf
  rw [Nat.mul_comm]
  omega

theorem blocksOf_self {bs : Nat} (hpos : 0 < bs) : blocksOf bs bs = 1 :=
  Nat.div_eq_of_lt_le (by omega) (by omega)

/-! ### The commands of a call -/

namespace BlockDeviceNVMe

variable {p : Profile} {host : HostMemory} {ns : NvmeNs} {P : List Access → Prop} {lba : Nat}

theorem keeps_command {a : Access} (h : ∀ log, P log → P (log ++ [a])) :
    Eff.Keeps (fun d => P d.log) (ns.command a) := by
  intro d hd
  unfold NvmeNs.command
  cases ns.error d.log a with
  | none => exact h d.log hd
  | some e => exact h d.log hd

theorem keeps_nsRead {pabuf : List Byte} (h : ∀ log, P log → P (log ++ [.read lba])) :
    Eff.Keeps (fun d => P d.log) (nsRead ns lba pabuf) :=
  (keeps_command h).bind fun _ _ _ _ _ hd => hd

theorem keeps_nsWrite {pabuf : List Byte} (h : ∀ log, P log → P (log ++ [.write lba])) :
    Eff.Keeps (fun d => P d.log) (nsWrite ns lba pabuf) :=
  (keeps_command h).bind fun _ _ _ _ _ hd => hd

theorem keeps_pageBuf {size : Nat} : Eff.Keeps (fun d => P d.log) (pageBuf host size) := by
  intro d hd
  unfold pageBuf
  split <;> exact hd

theorem keeps_readChunks : ∀ {chunks i len : Nat} {pabuf : List Byte}, (∀ j < chunks, ∀ log a,
      p.fit Stop.panic 64 ((lba + (i + j) : Nat) : Int) = .ok a.lba → P log → P (log ++ [a])) →
    Eff.Keeps (fun d => P d.log) (readChunks p ns lba chunks i len pabuf) := by
  intro chunks
  induction chunks with
  | zero => exact fun _ _ hd => hd
  | succ chunks ih =>
      intro i len pabuf h
      unfold readChunks
      refine Eff.Keeps.lift_bind fun block hblock => ?_
      refine (keeps_nsRead fun log => h 0 (Nat.succ_pos chunks) log (.read block) hblock).bind fun _ _ _ _ => ?_
      refine Eff.Keeps.lift_bind fun ck _ => (ih fun j hj => ?_).bind fun _ _ _ _ _ hd => hd
      rw [Nat.add_right_comm, Nat.add_assoc i]
      exact h (j + 1) (Nat.succ_lt_succ hj)

theorem keeps_writeChunk {i : Nat} {ck pabuf : List Byte}
    (h : ∀ log a, p.fit Stop.panic 64 ((lba + i : Nat) : Int) = .ok a.lba → P log → P (log ++ [a])) :
    Eff.Keeps (fun d => P d.log) (writeChunk p ns lba i ck pabuf) := by
  have hrefresh : Eff.Keeps (fun d => P d.log) (refresh p ns lba i ck pabuf) := by
    unfold refresh
    split_ifs
    · exact Eff.Keeps.lift_bind fun block hblock => keeps_nsRead fun log => h log (.read block) hblock
    · exact fun _ hd => hd
  refine hrefresh.bind fun _ _ _ _ => Eff.Keeps.lift_bind fun _ _ => Eff.Keeps.lift_bind fun block hblock => ?_
  exact (keeps_nsWrite fun log => h log (.write block) hblock).bind fun _ _ _ _ _ hd => hd

theorem keeps_writeChunks : ∀ {chunks i : Nat} {buf pabuf : List Byte}, (∀ j < chunks, ∀ log a,
      p.fit Stop.panic 64 ((lba + (i + j) : Nat) : Int) = .ok a.lba → P log → P (log ++ [a])) →
    Eff.Keeps (fun d => P d.log) (writeChunks p ns lba chunks i buf pabuf) := by
  intro chunks
  induction chunks with
  | zero => exact fun _ _ hd => hd
  | succ chunks ih =>
      intro i buf pabuf h
      refine (keeps_writeChunk (h 0 (Nat.succ_pos chunks))).bind fun _ _ _ _ => ih fun j hj => ?_
      rw [Nat.add_right_comm, Nat.add_assoc i]
      exact h (j + 1) (Nat.succ_lt_succ hj)

/-- A read that comes back has filled its buffer. -/
theorem length_readChunks : ∀ {chunks i len : Nat} {pabuf buf : List Byte} {d d' : Disk},
    readChunks p ns lba chunks i len pabuf d = (.ok buf, d') → len ≤ chunks * ns.blkSz → buf.length = len := by
  intro chunks
  induction chunks with
  | zero =>
      intro i len pabuf buf d d' h hlen
      rw [← Except.ok.inj (Prod.ext_iff.mp h).1]
      exact (Nat.eq_zero_of_le_zero (Nat.zero_mul ns.blkSz ▸ hlen)).symm
  | succ chunks ih =>
      intro i len pabuf buf d d' h hlen
      unfold readChunks at h
      obtain ⟨block, d₁, -, h⟩ := Eff.bind_eq_ok.mp h
      obtain ⟨pabuf', d₂, -, h⟩ := Eff.bind_eq_ok.mp h
      obtain ⟨ck, d₃, hck, h⟩ := Eff.bind_eq_ok.mp h
      obtain ⟨rest, d₄, hrest, h⟩ := Eff.bind_eq_ok.mp h
      have hlen' := ih hrest (by rw [Nat.succ_mul] at hlen; omega)
      rw [← Except.ok.inj (Prod.ext_iff.mp h).1, List.length_append, Slice.length_of_range (Eff.lift_eq_ok hck).1,
        hlen']
      omega

theorem within_append {old log : List Access} {k j : Nat} {a : Access} (hj : j < k)
    (ha : p.fit Stop.panic 64 ((lba + (0 + j) : Nat) : Int) = .ok a.lba) (hlog : Within p old lba k log) :
    Within p old lba k (log ++ [a]) := by
  intro b hb
  rcases List.mem_append.mp hb with hb | hb
  · exact hlog b hb
  · rw [Nat.zero_add, Nat.cast_add] at ha
    exact .inr ⟨j, hj, List.mem_singleton.mp hb ▸ ha⟩

theorem eq_of_chunkCount {len chunks : Nat} (h : chunkCount ns len = .ok chunks) : chunks = blocksOf ns.blkSz len := by
  obtain ⟨-, -, h⟩ := UnixKernel.bind_eq_ok.mp h
  exact (Except.ok.inj h).symm

theorem lawful (hpos : 0 < ns.blkSz) : (toBlockDevice p host ns).Lawful p where
  pos := hpos
  read len lba d := (keeps_pageBuf.bind fun _ _ _ _ => Eff.Keeps.lift_bind fun _ hchunks => by
    rw [eq_of_chunkCount hchunks]
    exact keeps_readChunks fun _ hj _ _ ha => within_append hj ha) d fun _ ha => .inl ha
  write buf lba d := (keeps_pageBuf.bind fun _ _ _ _ => Eff.Keeps.lift_bind fun _ hchunks => by
    rw [eq_of_chunkCount hchunks]
    exact keeps_writeChunks fun _ hj _ _ ha => within_append hj ha) d fun _ ha => .inl ha
  length len lba d buf d' h := by
    obtain ⟨_, _, -, h⟩ := Eff.bind_eq_ok.mp h
    obtain ⟨_, _, hchunks, h⟩ := Eff.bind_eq_ok.mp h
    rw [eq_of_chunkCount (Eff.lift_eq_ok hchunks).1] at h
    exact length_readChunks h (le_blocksOf_mul hpos)

/-- A kernel with free memory, which holds something else. -/
def sampleHost : HostMemory where
  pg := .size4kiB
  ops := PhysAlloc.tableOps .size4kiB 1
  phys _ := PhysAlloc.sample
  ram _ _ := 0xff

end BlockDeviceNVMe

end UnixKernel
