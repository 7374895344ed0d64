import UnixKernel.Overflow
import UnixKernel.PhysBoot

/-! The physical allocator as it is compiled: every sum, difference and product of `ram/physalloc.rs` is one of
`usize`, which a development build checks and a release build wraps around, in the order in which the source computes
them, and a development build also checks the pointer to the block table where it is dereferenced, filled or copied
to. `PhysAlloc` is the same code with exact sums; `PhysFollow` shows where the two agree. -/

namespace UnixKernel

open Slots

namespace PhysWord

variable (p : Profile)

/-- The result of an operation on `usize`. -/
def usize (x : Int) : Except Halt Nat := p.fit .panic 64 x

/-- `align_up`. -/
def alignUp (val align : Nat) : Except Halt Nat :=
  if align = 0 then pure val else usize p ((val + (align - 1)) / align * align : Nat)

/-- `size_align`. -/
def sizeAlign (pg : BPage) (val : Nat) : Except Halt Nat :=
  if val < pg.size then pure (nextPowerOfTwo val) else alignUp p val pg.size

/-- `RAMBlock::end`. -/
def blockEnd (b : RAMBlock) : Except Halt Nat := usize p (b.addr + b.size : Nat)

/-- `OwnedPtr::end`. -/
def ptrEnd (q : OwnedPtr) : Except Halt Nat := usize p (q.addr + q.size : Nat)

/-- `RAMBlock::is_mergable`. -/
def isMergable (self other : RAMBlock) : Except Halt Int :=
  if self.invalid || other.invalid then pure 0
  else if ({ self with addr := 0, size := 0 } : RAMBlock) ≠ { other with addr := 0, size := 0 } then pure 0
  else do
    let selfEnd ← blockEnd p self
    if selfEnd = other.addr then pure (-1)
    else do
      let otherEnd ← blockEnd p other
      pure (if otherEnd = self.addr then 1 else 0)

/-- `AllocParams::build`. -/
def build (pg : BPage) (a : AllocParams) : Except Halt AllocParams := do
  let addr ←
    match a.addr with
    | some addr => do
        let aligned ← alignUp p addr a.align
        pure (some aligned)
    | none => pure none
  let size ← sizeAlign p pg a.size
  pure { a with addr, size }

/-! ### The table -/

/-- What a development build checks of a pointer to blocks: it is neither null nor misaligned. -/
def Checked (addr : Nat) : Prop := p = .dev → addr ≠ 0 ∧ 8 ∣ addr

instance (addr : Nat) : Decidable (Checked p addr) := inferInstanceAs (Decidable (_ → _))

/-- `blocks_raw` and `blocks_raw_mut`. A development build also checks the size of the slice. -/
def blocksRaw (s : PhysAlloc) : Except Halt (List RAMBlock) := do
  ensure (Checked p s.ptr.addr ∧ (p = .dev → s.max * ramBlockSize < 2 ^ 63)) .panic
  pure s.blocks

def count (s : PhysAlloc) : Except Halt Nat := do
  let blocks ← blocksRaw p s
  pure (blocks.countP RAMBlock.valid)

/-- The first valid block from slot `i` on for which `f` answers with true. -/
def findFrom (f : RAMBlock → Except Halt Bool) : Nat → List RAMBlock → Except Halt (Option (Nat × RAMBlock))
  | _, [] => pure none
  | i, b :: bs =>
      if b.valid then do
        let found ← f b
        if found then pure (some (i, b)) else findFrom f (i + 1) bs
      else findFrom f (i + 1) bs

/-- `find`. -/
def find (s : PhysAlloc) (f : RAMBlock → Except Halt Bool) : Except Halt (Option (Nat × RAMBlock)) := do
  let blocks ← blocksRaw p s
  findFrom f 0 blocks

/-- `find_free_ram`. -/
def findFreeRam (pg : BPage) (s : PhysAlloc) (args : AllocParams) : Except Halt (Option OwnedPtr) := do
  let args ← build p pg args
  let found ← find p s fun block => do
    let aligned ← alignUp p block.addr args.align
    if block.notUsed then do
      let stop ← usize p (aligned + args.size : Nat)
      let last ← blockEnd p block
      pure (decide (stop ≤ last) && decide (block.ty = args.fromType))
    else pure false
  match found with
  | some (_, block) => do
      let addr ← alignUp p block.addr args.align
      pure (some ⟨addr, args.size⟩)
  | none => pure none

/-- `(self.max << 1).max(self.max + MIN_REQ)`. -/
def grownMax (s : PhysAlloc) : Except Halt Nat := do
  let more ← usize p (s.max + minReq : Nat)
  pure (Nat.max ((s.max <<< 1) % 2 ^ 64) more)

/-- The loop of `add`: the last block in front of the new one and the last one behind it. -/
def neighbours (newBlock : RAMBlock) : Nat → List RAMBlock → Option (Nat × RAMBlock) × Option (Nat × RAMBlock) →
    Except Halt (Option (Nat × RAMBlock) × Option (Nat × RAMBlock))
  | _, [], near => pure near
  | i, b :: bs, near =>
      if b.valid then do
        let side ← isMergable p newBlock b
        neighbours newBlock (i + 1) bs
          (if side = 1 then some (i, b) else near.1, if side = -1 then some (i, b) else near.2)
      else neighbours newBlock (i + 1) bs near

variable (o : TableOps)

/-- `add`. -/
def add (s : PhysAlloc) (newBlock : RAMBlock) : Except Halt PhysAlloc :=
  if newBlock.invalid then pure s
  else do
    let blocks ← blocksRaw p s
    let near ← neighbours p newBlock 0 blocks (none, none)
    match near.1, near.2 with
    | some (i, before), some (j, after) => do
        let sum ← usize p (before.size + newBlock.size : Nat)
        let size ← usize p (sum + after.size : Nat)
        let s := (s.setSlot i { before with size }).setSlot j after.invalidate
        let left ← count p s
        if left ≤ s.max >>> 2 then o.shrink s (Nat.max (s.max >>> 1) baseRbSize) else pure s
    | some (i, before), none => do
        let size ← usize p (before.size + newBlock.size : Nat)
        pure (s.setSlot i { before with size })
    | none, some (j, after) => do
        let size ← usize p (after.size + newBlock.size : Nat)
        pure (s.setSlot j { after with addr := newBlock.addr, size })
    | none, none => do
        let left ← count p s
        let s ←
          if left ≥ s.max then do
            let newSize ← grownMax p s
            let (r, s) ← o.expand s newSize newBlock.intoOwnedPtr
            match r with
            | some () => pure s
            | none => throw .panic
          else pure s
        let blocks ← blocksRaw p s
        pure { s with blocks := fill RAMBlock.invalid newBlock blocks }

/-- The part of `alloc` after the range and, where needed, the larger table have been found. -/
def carve (s : PhysAlloc) (args : AllocParams) (ptr : OwnedPtr) : Except Halt (Option OwnedPtr × PhysAlloc) := do
  let found ← find p s fun block =>
    if block.notUsed && args.fromType = block.ty && block.addr ≤ ptr.addr then do
      let stop ← ptrEnd p ptr
      let last ← blockEnd p block
      pure (decide (stop ≤ last))
    else pure false
  match found with
  | none => pure (none, s)
  | some (i, block) =>
      if block.ty = args.asType && !args.used then pure (none, s)
      else do
        let s := s.setSlot i block.invalidate
        let front ← usize p ((ptr.addr : Int) - block.addr)
        let stop ← ptrEnd p ptr
        let last ← blockEnd p block
        let back ← usize p ((last : Int) - stop)
        let s ← add p o s ⟨block.addr, front, block.ty, false⟩
        let s ← add p o s ⟨stop, back, block.ty, false⟩
        let s ← add p o s ⟨ptr.addr, ptr.size, args.asType, args.used⟩
        pure (some ptr, s)

/-- The range that `alloc` tries to hand out, for built parameters. -/
def requested (pg : BPage) (s : PhysAlloc) (args : AllocParams) : Except Halt (Option OwnedPtr) :=
  match args.addr with
  | some addr => pure (some ⟨addr, args.size⟩)
  | none => findFreeRam p pg s args

/-- `alloc`. -/
def alloc (pg : BPage) (s : PhysAlloc) (args : AllocParams) : Except Halt (Option OwnedPtr × PhysAlloc) := do
  let args ← build p pg args
  if nonRam.contains args.fromType || nonRam.contains args.asType then pure (none, s)
  else do
    let request ← requested p pg s args
    match request with
    | none => pure (none, s)
    | some ptr => do
        let left ← count p s
        if left + minReq > s.max then do
          let newSize ← grownMax p s
          let (r, s) ← o.expand s newSize ptr
          match r with
          | none => pure (none, s)
          | some () => carve p o s args ptr
        else carve p o s args ptr

/-- The loop of `free`: the table without the blocks that meet the range, with the last one that sticks out in front
of it and the last one that sticks out behind it. -/
def clearRange (ptr : OwnedPtr) : List RAMBlock → Option RAMBlock → Option RAMBlock →
    Except Halt (List RAMBlock × Option RAMBlock × Option RAMBlock)
  | [], before, after => pure ([], before, after)
  | b :: bs, before, after =>
      if b.valid then do
        let stop ← ptrEnd p ptr
        if b.addr < stop then do
          let last ← blockEnd p b
          if ptr.addr < last then do
            let (rest, before, after) ← clearRange ptr bs (if b.addr < ptr.addr then some b else before)
              (if stop < last then some b else after)
            pure (b.invalidate :: rest, before, after)
          else do
            let (rest, before, after) ← clearRange ptr bs before after
            pure (b :: rest, before, after)
        else do
          let (rest, before, after) ← clearRange ptr bs before after
          pure (b :: rest, before, after)
      else do
        let (rest, before, after) ← clearRange ptr bs before after
        pure (b :: rest, before, after)

/-- `before.map(|b| self.add(..))`. -/
def addBefore (s : PhysAlloc) (ptr : OwnedPtr) : Option RAMBlock → Except Halt PhysAlloc
  | some b => do
      let size ← usize p ((ptr.addr : Int) - b.addr)
      add p o s ⟨b.addr, size, b.ty, b.used⟩
  | none => pure s

/-- `after.map(|a| self.add(..))`. -/
def addAfter (s : PhysAlloc) (ptr : OwnedPtr) : Option RAMBlock → Except Halt PhysAlloc
  | some a => do
      let stop ← ptrEnd p ptr
      let last ← blockEnd p a
      let size ← usize p ((last : Int) - stop)
      add p o s ⟨stop, size, a.ty, a.used⟩
  | none => pure s

/-- `free`. -/
def free (s : PhysAlloc) (ptr : OwnedPtr) : Except Halt PhysAlloc := do
  let blocks ← blocksRaw p s
  let (blocks, before, after) ← clearRange p ptr blocks none none
  let s ← addBefore p o { s with blocks } ptr before
  let s ← addAfter p o s ptr after
  add p o s ⟨ptr.addr, ptr.size, .conv, false⟩

/-- The first and the second alternative of the search in `expand`, for a block with the given aligned start and end
and a pending range with the given end: room at its start, or behind the range. -/
def clearOf (q : OwnedPtr) (stop aligned last size : Nat) (block : RAMBlock) : Bool :=
  last ≤ q.addr || stop ≤ block.addr || size ≤ q.addr - aligned

/-- `expand`. -/
def expand (pg : BPage) (s : PhysAlloc) (newMax : Nat) (prereq : OwnedPtr) : Except Halt (Option Unit × PhysAlloc) :=
  if newMax ≤ s.max then pure (some (), s)
  else do
    let bytes ← usize p (newMax * ramBlockSize : Nat)
    let param ← build p pg (AllocParams.new pg bytes)
    let oldBlocks := s.ptr
    let stop ← ptrEnd p prereq
    let behind ← alignUp p stop param.align
    let found ← find p s fun block => do
      let aligned ← alignUp p block.addr param.align
      let sum ← usize p (aligned + param.size : Nat)
      let last ← blockEnd p block
      pure (!block.used && (decide (block.ty = param.fromType) &&
        ((decide (sum ≤ last) && clearOf prereq stop aligned last param.size block) ||
          (decide (block.addr ≤ behind) && decide (param.size ≤ last - behind)))))
    match found with
    | none => pure (none, s)
    | some (_, block) => do
        let aligned ← alignUp p block.addr param.align
        let last ← blockEnd p block
        let storage : OwnedPtr :=
          if clearOf prereq stop aligned last param.size block then ⟨aligned, param.size⟩ else ⟨behind, param.size⟩
        -- `write_bytes` and `copy_to`
        ensure (Checked p storage.addr) .panic
        let s := s.extended storage newMax
        let (r, s) ← alloc p o pg s (param.atAddr s.ptr.addr)
        match r with
        | none => throw .panic
        | some ptr => do
            let s ← free p o { s with ptr := ptr } oldBlocks
            pure (some (), s)

/-- `shrink`. -/
def shrink (pg : BPage) (s : PhysAlloc) (newMax : Nat) : Except Halt PhysAlloc :=
  if newMax ≥ s.max then pure s
  else do
    let left ← count p s
    if newMax < left || newMax < minReq then pure s
    else
      let (kept, freedRev, done) := PhysAlloc.compact (s.blocks.take newMax) (s.blocks.drop newMax).reverse
      let s := { s with blocks := kept ++ freedRev.reverse }
      if !done then pure s
      else do
        let bytes ← usize p (newMax * ramBlockSize : Nat)
        let keptSize ← sizeAlign p pg bytes
        let sum ← usize p (s.ptr.addr + keptSize : Nat)
        let freedAddr ← alignUp p sum pg.size
        let freedSize ← usize p ((s.ptr.size : Int) - keptSize)
        if freedSize = 0 then pure s
        else free p o { s with ptr := ⟨s.ptr.addr, keptSize⟩, blocks := kept } ⟨freedAddr, freedSize⟩

/-- `expand` and `shrink` with at most `depth` nested calls of each other. -/
def tableOps (pg : BPage) : Nat → TableOps
  | 0 => ⟨fun _ _ _ => throw .depth, fun _ _ => throw .depth⟩
  | depth + 1 => ⟨expand p (tableOps pg depth) pg, shrink p (tableOps pg depth) pg⟩

/-- `Dma::free` of the NVMe and of the USB driver, through `PhysAllocGlob::free_raw`. -/
def dmaFree (pg : BPage) (s : PhysAlloc) (addr size : Nat) : Except Halt PhysAlloc := do
  let bytes ← sizeAlign p pg size
  free p o s ⟨addr, bytes⟩

/-- The loop of `reclaim`, with a bound on its iterations. -/
def reclaimLoop : Nat → PhysAlloc → Except Halt PhysAlloc
  | 0, _ => throw .depth
  | fuel + 1, s => do
      let found ← find p s fun blk => pure (decide (blk.ty = .reclaimable))
      match found with
      | some (idx, blk) => do
          let s ← add p o (s.setSlot idx blk.invalidate) ⟨blk.addr, blk.size, .conv, false⟩
          reclaimLoop fuel s
      | none => pure s

/-- `reclaim`. -/
def reclaim (s : PhysAlloc) : Except Halt PhysAlloc := reclaimLoop p o (s.max + 1) s

/-! ### Start-up -/

section Init

variable (m : Platform)

/-- The loops of `init`: the descriptors one after the other, as blocks of the type that `ty` gives them. -/
def addDescs (ty : RAMDescriptor → RAMType) : PhysAlloc → List RAMDescriptor → Except Halt PhysAlloc
  | s, [] => pure s
  | s, d :: ds => do
      let size ← usize p (d.pageCount * page4kiB : Nat)
      let s ← add p o s ⟨d.physStart, size, ty d, false⟩
      addDescs ty s ds

/-- The table is moved out of the embedded array, unless it has been outgrown already. -/
def relocate (s : PhysAlloc) : Except Halt PhysAlloc :=
  if s.ptr = m.embeddedPtr then do
    let bytes ← usize p (ramBlockSize * s.max : Nat)
    let (r, s) ← alloc p o m.pg s (AllocParams.new m.pg bytes)
    match r with
    | some newRb => do
        -- `copy_to`
        ensure (Checked p s.ptr.addr ∧ Checked p newRb.addr) .panic
        pure { s with ptr := newRb }
    | none => throw .panic
  else pure s

/-- The allocation of a copy of `len` entries, `unwrap`ped. -/
def allocCopy (s : PhysAlloc) (len entry : Nat) (ty : RAMType) : Except Halt (OwnedPtr × PhysAlloc) := do
  let bytes ← usize p (len * entry : Nat)
  let (r, s) ← alloc p o m.pg s ((AllocParams.new m.pg bytes).asTy ty)
  match r with
  | some ptr => pure (ptr, s)
  | none => throw .panic

/-- `init`. -/
def init (g : Globals) : Except Halt Globals :=
  if g.phys.isInit then pure g
  else do
    let sorted := m.sort.sortByKey (·.pageCount) g.layout
    let s ← addDescs p o m.convType m.embedded (sorted.reverse.filter fun d => d.ty = .conv)
    let s ← relocate p o m s
    let (efiPtr, s) ← allocCopy p o m s g.layout.length ramDescriptorSize .efiRamLayout
    let (elfPtr, s) ← allocCopy p o m s m.segLen segmentSize .elfSegments
    -- the two calls of `copy`
    ensure (Checked p efiPtr.addr ∧ Checked p elfPtr.addr) .panic
    let layout := m.sort.sortByKey (·.physStart) sorted
    let s ← addDescs p o m.otherType s (layout.filter fun d => d.ty ≠ .conv)
    pure ⟨{ s with isInit := true }, layout, efiPtr, elfPtr⟩

end Init

end PhysWord

end UnixKernel
