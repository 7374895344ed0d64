import UnixKernel.PhysAlloc

/-! Start-up of the physical allocator: `PhysAlloc::init` and `PhysAlloc::reclaim`. `init` fills the
embedded table `RB_EMBEDDED` with the conventional memory of the UEFI map, largest regions first, moves
the table into that memory, copies the map and the list of ELF segments, and adds the remaining regions
in address order. `reclaim` later turns the boot-time regions into free memory. -/

namespace UnixKernel

/-- The architectures the kernel is built for; `amd64` is `target_arch = "x86_64"`. -/
inductive Arch where
  | amd64 | aarch64
  deriving DecidableEq, Repr

/-- `sort_noheap_by_key` on the memory map. -/
structure HeaplessSort where
  sortByKey : (RAMDescriptor → Nat) → List RAMDescriptor → List RAMDescriptor
  perm : ∀ key l, (sortByKey key l).Perm l
  sorted : ∀ key l, (sortByKey key l).Pairwise fun a b => key a ≤ key b

/-- What start-up takes from the machine and from the linked image. -/
structure Platform where
  pg : BPage
  arch : Arch
  rbEmbedded : Nat
  segLen : Nat
  sort : HeaplessSort
  /-- `RvmCfg::detect` on this architecture. -/
  pg_of_amd64 : arch = .amd64 → pg = .size4kiB

/-- `size_of::<RAMDescriptor>()`. -/
def ramDescriptorSize : Nat := 48

/-- `size_of::<Segment>()`. -/
def segmentSize : Nat := 24

/-- The end of the memory that the first megabyte rule is about. -/
def lowMemory : Nat := 0x100000

/-- The bytes of a descriptor. -/
def RAMDescriptor.size (d : RAMDescriptor) : Nat := d.pageCount * page4kiB

/-- The allocator together with what start-up reads and writes around it: the memory map behind
`efi_ram_layout` and the two copies recorded in `SYSINFO` and `KINFO`. -/
structure Globals where
  phys : PhysAlloc
  layout : List RAMDescriptor
  layoutPtr : OwnedPtr
  segPtr : OwnedPtr

/-- Before start-up. -/
def Globals.fresh (layout : List RAMDescriptor) : Globals := ⟨PhysAlloc.empty, layout, ⟨0, 0⟩, ⟨0, 0⟩⟩

namespace Platform

open PhysAlloc

variable (p : Platform)

/-- The type under which a conventional descriptor enters the table. -/
def convType (d : RAMDescriptor) : RAMType :=
  if p.arch = .amd64 then if d.physStart < lowMemory then .reserved else d.ty else d.ty

/-- The type under which any other descriptor enters the table. -/
def otherType (d : RAMDescriptor) : RAMType :=
  let ty := if p.arch = .amd64 then if d.physStart < lowMemory then .reserved else d.ty else d.ty
  if reclamable.contains d.ty then .reclaimable else ty

def convBlock (d : RAMDescriptor) : RAMBlock := ⟨d.physStart, d.size, p.convType d, false⟩

def otherBlock (d : RAMDescriptor) : RAMBlock := ⟨d.physStart, d.size, p.otherType d, false⟩

/-- The storage of `RB_EMBEDDED`. -/
def embeddedPtr : OwnedPtr := ⟨p.rbEmbedded, baseRbSize * ramBlockSize⟩

/-- The allocator on the embedded table, with nothing in it. -/
def embedded : PhysAlloc := ⟨p.embeddedPtr, List.replicate baseRbSize RAMBlock.newInvalid, false⟩

/-- The blocks of the first pass: conventional memory, by falling size. -/
def convBlocks (layout : List RAMDescriptor) : List RAMBlock :=
  ((p.sort.sortByKey (·.pageCount) layout).reverse.filter fun d => d.ty = .conv).map p.convBlock

/-- The blocks of the second pass: everything else, by address. -/
def otherBlocks (layout : List RAMDescriptor) : List RAMBlock :=
  ((p.sort.sortByKey (·.physStart) (p.sort.sortByKey (·.pageCount) layout)).filter
    fun d => d.ty ≠ .conv).map p.otherBlock

variable (o : TableOps)

/-- A loop that adds block after block. -/
def addAll (s : PhysAlloc) (bs : List RAMBlock) : Except Halt PhysAlloc := bs.foldlM (add o) s

/-- `init` moves the table out of the embedded array, unless it has been outgrown already. -/
def relocate (s : PhysAlloc) : Except Halt PhysAlloc :=
  if s.ptr = p.embeddedPtr then do
    let (r, s) ← alloc p.pg o s (AllocParams.new p.pg (ramBlockSize * s.max))
    match r with
    | some newRb => pure { s with ptr := newRb }
    | none => throw .panic
  else pure s

/-- The allocation of a copy, `unwrap`ped. -/
def allocCopy (s : PhysAlloc) (size : Nat) (ty : RAMType) : Except Halt (OwnedPtr × PhysAlloc) := do
  let (r, s) ← alloc p.pg o s ((AllocParams.new p.pg size).asTy ty)
  match r with
  | some ptr => pure (ptr, s)
  | none => throw .panic

/-- `PhysAlloc::init`. -/
def init (g : Globals) : Except Halt Globals :=
  if g.phys.isInit then pure g
  else do
    let s ← addAll o p.embedded (p.convBlocks g.layout)
    let s ← p.relocate o s
    let (efiPtr, s) ← p.allocCopy o s (g.layout.length * ramDescriptorSize) .efiRamLayout
    let (elfPtr, s) ← p.allocCopy o s (p.segLen * segmentSize) .elfSegments
    let s ← addAll o s (p.otherBlocks g.layout)
    pure ⟨{ s with isInit := true },
      p.sort.sortByKey (·.physStart) (p.sort.sortByKey (·.pageCount) g.layout), efiPtr, elfPtr⟩

end Platform

namespace PhysAlloc

/-- The loop of `reclaim`, with a bound on its iterations. -/
def reclaimLoop (o : TableOps) : Nat → PhysAlloc → Except Halt PhysAlloc
  | 0, _ => throw .depth
  | fuel + 1, s =>
      match s.find fun blk => blk.ty = .reclaimable with
      | some (idx, blk) => do
          let s ← add o (s.setSlot idx blk.invalidate) ⟨blk.addr, blk.size, .conv, false⟩
          reclaimLoop o fuel s
      | none => pure s

/-- `PhysAlloc::reclaim`. Every iteration removes one reclaimable block, so the table's size bounds
their number. -/
def reclaim (o : TableOps) (s : PhysAlloc) : Except Halt PhysAlloc := reclaimLoop o (s.max + 1) s

end PhysAlloc

end UnixKernel
