import UnixKernel.RamLayout
import UnixKernel.SlotList

/-! The physical allocator of `ram/physalloc.rs` with exact sums (`PhysWord` is the code as it is compiled): a
table of memory blocks that lives in the memory it manages. The table's storage is `ptr`, its `max` entries are
the list `blocks`, and every function passes the allocator's state explicitly. `alloc`, `free`, `add`, `expand`
and `shrink` call each other recursively; the two calls that close the cycle, `expand` and `shrink`, are taken from
a record of operations, and `tableOps` ties the knot up to a call depth. -/

namespace UnixKernel

open Slots

/-- `RAMBlock`. A slot of size zero is invalid, that is, vacant. -/
structure RAMBlock where
  addr : Nat
  size : Nat
  ty : RAMType
  used : Bool
  deriving DecidableEq, Repr

/-- `size_of::<RAMBlock>()`: two words, a `u32` and a `bool`, padded to the word. -/
def ramBlockSize : Nat := 24

namespace RAMBlock

def newInvalid : RAMBlock := ⟨0, 0, .reserved, false⟩

/-- `RAMBlock::end`. -/
def fin (b : RAMBlock) : Nat := b.addr + b.size

def valid (b : RAMBlock) : Bool := 0 < b.size

def invalid (b : RAMBlock) : Bool := b.size = 0

def notUsed (b : RAMBlock) : Bool := !b.used

def invalidate (b : RAMBlock) : RAMBlock := { b with size := 0 }

/-- `is_mergable`: `-1` when `self` ends where `other` starts, `1` the other way around. -/
def isMergable (self other : RAMBlock) : Int :=
  if self.invalid || other.invalid then 0
  else if ({ self with addr := 0, size := 0 } : RAMBlock) ≠ { other with addr := 0, size := 0 } then 0
  else if self.fin = other.addr then -1
  else if other.fin = self.addr then 1
  else 0

end RAMBlock

/-- `OwnedPtr`, a range of physical memory. -/
structure OwnedPtr where
  addr : Nat
  size : Nat
  deriving DecidableEq, Repr

/-- `OwnedPtr::end`. -/
def OwnedPtr.fin (p : OwnedPtr) : Nat := p.addr + p.size

def RAMBlock.intoOwnedPtr (b : RAMBlock) : OwnedPtr := ⟨b.addr, b.size⟩

/-- `AllocParams`. Its builder keeps the alignment at one or more. -/
structure AllocParams where
  addr : Option Nat
  size : Nat
  align : Nat
  fromType : RAMType
  asType : RAMType
  used : Bool
  align_pos : 0 < align
  deriving DecidableEq

namespace AllocParams

/-- `AllocParams::new`. -/
def new (pg : BPage) (size : Nat) : AllocParams :=
  ⟨none, size, pg.size, .conv, .conv, true, pg.size_pos⟩

/-- `AllocParams::at`. -/
def atAddr (a : AllocParams) (addr : Nat) : AllocParams := { a with addr := some addr }

def alignTo (a : AllocParams) (align : Nat) : AllocParams :=
  { a with align := Nat.max align 1, align_pos := Nat.le_max_right align 1 }

def asTy (a : AllocParams) (ty : RAMType) : AllocParams := { a with asType := ty }

def build (pg : BPage) (a : AllocParams) : AllocParams :=
  { a with addr := a.addr.map fun addr => alignUp addr a.align, size := sizeAlign pg a.size }

end AllocParams

/-- `BASE_RB_SIZE`. -/
def baseRbSize : Nat := 128

/-- `MIN_REQ`. -/
def minReq : Nat := 4

/-- Why a call does not return: a failed `unwrap` or `expect`, an overflow, or the depth of the model's nested
calls. -/
inductive Halt where
  | panic
  | depth
  deriving DecidableEq, Repr

/-- `PhysAlloc`: the storage of the block table and its entries. -/
structure PhysAlloc where
  ptr : OwnedPtr
  blocks : List RAMBlock
  isInit : Bool
  deriving DecidableEq, Repr

/-- The calls through which the operations of the table reenter each other. -/
structure TableOps where
  expand : PhysAlloc → Nat → OwnedPtr → Except Halt (Option Unit × PhysAlloc)
  shrink : PhysAlloc → Nat → Except Halt PhysAlloc

namespace PhysAlloc

def empty : PhysAlloc := ⟨⟨0, 0⟩, [], false⟩

/-- `self.max`, the number of entries of the table. -/
def max (s : PhysAlloc) : Nat := s.blocks.length

def count (s : PhysAlloc) : Nat := s.blocks.countP RAMBlock.valid

/-- `find`: the first valid block satisfying `f`, with its slot. -/
def find (s : PhysAlloc) (f : RAMBlock → Bool) : Option (Nat × RAMBlock) :=
  (s.blocks.findIdx? fun b => b.valid && f b).bind fun i => s.blocks[i]?.map fun b => (i, b)

/-- Overwrites one slot of the table. -/
def setSlot (s : PhysAlloc) (i : Nat) (b : RAMBlock) : PhysAlloc :=
  { s with blocks := s.blocks.set i b }

def findFreeRam (pg : BPage) (s : PhysAlloc) (args : AllocParams) : Option OwnedPtr :=
  let args := args.build pg
  (s.find fun block => block.notUsed
    && alignUp block.addr args.align + args.size ≤ block.fin
    && block.ty = args.fromType).map fun r => ⟨alignUp r.2.addr args.align, args.size⟩

/-- The new size of a table that is grown. -/
def grownMax (s : PhysAlloc) : Nat := Nat.max (s.max <<< 1) (s.max + minReq)

variable (pg : BPage) (o : TableOps)

def add (s : PhysAlloc) (newBlock : RAMBlock) : Except Halt PhysAlloc :=
  if newBlock.invalid then pure s
  else
    match last? (fun b => b.valid && newBlock.isMergable b = 1) s.blocks,
      last? (fun b => b.valid && newBlock.isMergable b = -1) s.blocks with
    | some (i, before), some (j, after) => do
        let s := (s.setSlot i { before with size := before.size + newBlock.size + after.size }).setSlot
          j after.invalidate
        if s.count ≤ s.max >>> 2 then o.shrink s (Nat.max (s.max >>> 1) baseRbSize) else pure s
    | some (i, before), none =>
        pure (s.setSlot i { before with size := before.size + newBlock.size })
    | none, some (j, after) =>
        pure (s.setSlot j { after with addr := newBlock.addr, size := after.size + newBlock.size })
    | none, none => do
        let s ←
          if s.count ≥ s.max then do
            let (r, s) ← o.expand s s.grownMax newBlock.intoOwnedPtr
            match r with
            | some () => pure s
            | none => throw .panic
          else pure s
        pure { s with blocks := fill RAMBlock.invalid newBlock s.blocks }

/-- The part of `alloc` after the range and, where needed, the larger table have been found. -/
def carve (s : PhysAlloc) (args : AllocParams) (ptr : OwnedPtr) :
    Except Halt (Option OwnedPtr × PhysAlloc) :=
  match s.find fun block => block.notUsed && args.fromType = block.ty &&
      (block.addr ≤ ptr.addr && ptr.fin ≤ block.fin) with
  | none => pure (none, s)
  | some (i, block) =>
      if block.ty = args.asType && !args.used then pure (none, s)
      else do
        let s := s.setSlot i block.invalidate
        let s ← add o s ⟨block.addr, ptr.addr - block.addr, block.ty, false⟩
        let s ← add o s ⟨ptr.fin, block.fin - ptr.fin, block.ty, false⟩
        let s ← add o s ⟨ptr.addr, ptr.size, args.asType, args.used⟩
        pure (some ptr, s)

/-- The range that `alloc` tries to hand out, for built parameters. -/
def requested (s : PhysAlloc) (args : AllocParams) : Option OwnedPtr :=
  match args.addr with
  | some addr => some ⟨addr, args.size⟩
  | none => s.findFreeRam pg args

def alloc (s : PhysAlloc) (args : AllocParams) : Except Halt (Option OwnedPtr × PhysAlloc) :=
  let args := args.build pg
  if nonRam.contains args.fromType || nonRam.contains args.asType then pure (none, s)
  else
    match s.requested pg args with
    | none => pure (none, s)
    | some ptr =>
        if s.count + minReq > s.max then do
          let (r, s) ← o.expand s s.grownMax ptr
          match r with
          | none => pure (none, s)
          | some () => carve o s args ptr
        else carve o s args ptr

/-- A block of the table that shares an address with the range `p`. -/
def overlaps (p : OwnedPtr) (b : RAMBlock) : Bool := b.valid && (b.addr < p.fin && p.addr < b.fin)

/-- The effect of the loop of `free` on the table: every block that meets `p` is invalidated. -/
def clearRange (s : PhysAlloc) (p : OwnedPtr) : PhysAlloc :=
  { s with blocks := s.blocks.map fun b => if overlaps p b then b.invalidate else b }

/-- `block.map(|b| self.add(b))`. -/
def addSome (s : PhysAlloc) : Option RAMBlock → Except Halt PhysAlloc
  | some b => add o s b
  | none => pure s

def free (s : PhysAlloc) (ptr : OwnedPtr) : Except Halt PhysAlloc := do
  let before := last? (fun b => overlaps ptr b && b.addr < ptr.addr) s.blocks
  let after := last? (fun b => overlaps ptr b && ptr.fin < b.fin) s.blocks
  let s := s.clearRange ptr
  let s ← addSome o s (before.map fun b => ⟨b.2.addr, ptr.addr - b.2.addr, b.2.ty, b.2.used⟩)
  let s ← addSome o s (after.map fun a => ⟨ptr.fin, a.2.fin - ptr.fin, a.2.ty, a.2.used⟩)
  add o s ⟨ptr.addr, ptr.size, .conv, false⟩

/-- The block, from its aligned start, offers `size` bytes that stay clear of the pending range `p`
when it fits at all: the block lies before `p`, behind it, or has enough room in front of it. -/
def clearOf (p : OwnedPtr) (align size : Nat) (block : RAMBlock) : Bool :=
  block.fin ≤ p.addr || p.fin ≤ block.addr || size ≤ p.addr - alignUp block.addr align

/-- The test of `expand` on the extent of a block: room at its start, or behind `p`. -/
def fitsClear (p : OwnedPtr) (align size : Nat) (block : RAMBlock) : Bool :=
  (alignUp block.addr align + size ≤ block.fin && clearOf p align size block) ||
    (block.addr ≤ alignUp p.fin align && size ≤ block.fin - alignUp p.fin align)

/-- The range that `expand` takes from a block that passed the test. -/
def newStorage (p : OwnedPtr) (align size : Nat) (block : RAMBlock) : OwnedPtr :=
  if clearOf p align size block then ⟨alignUp block.addr align, size⟩ else ⟨alignUp p.fin align, size⟩

/-- The table after `write_bytes` and `copy_to`: the old entries, followed by zeroed ones. -/
def extended (s : PhysAlloc) (ptr : OwnedPtr) (newMax : Nat) : PhysAlloc :=
  { s with ptr := ptr, blocks := s.blocks ++ List.replicate (newMax - s.max) RAMBlock.newInvalid }

/-- The request that `expand` makes for a table of `newMax` entries. -/
def tableParams (newMax : Nat) : AllocParams := (AllocParams.new pg (newMax * ramBlockSize)).build pg

def expand (s : PhysAlloc) (newMax : Nat) (prereq : OwnedPtr) :
    Except Halt (Option Unit × PhysAlloc) :=
  if newMax ≤ s.max then pure (some (), s)
  else
    let param := tableParams pg newMax
    let oldBlocks := s.ptr
    match s.find fun block => !block.used && (block.ty = param.fromType &&
        fitsClear prereq param.align param.size block) with
    | none => pure (none, s)
    | some (_, block) => do
        let s := s.extended (newStorage prereq param.align param.size block) newMax
        let (r, s) ← alloc pg o s (param.atAddr s.ptr.addr)
        match r with
        | none => throw .panic
        | some ptr => do
            let s ← free o { s with ptr := ptr } oldBlocks
            pure (some (), s)

/-- The loop of `shrink`: the valid entries of the dropped tail, last one first, move into the vacant
slots of the kept part. The flag is `false` when the slots run out. -/
def compact : List RAMBlock → List RAMBlock → List RAMBlock × List RAMBlock × Bool
  | kept, [] => (kept, [], true)
  | kept, b :: rest =>
      if b.valid then
        if kept.any RAMBlock.invalid then
          let (kept, rest, done) := compact (fill RAMBlock.invalid b kept) rest
          (kept, b.invalidate :: rest, done)
        else (kept, b :: rest, false)
      else
        let (kept, rest, done) := compact kept rest
        (kept, b :: rest, done)

def shrink (s : PhysAlloc) (newMax : Nat) : Except Halt PhysAlloc :=
  if newMax ≥ s.max || newMax < s.count || newMax < minReq then pure s
  else
    let (kept, freedRev, done) := compact (s.blocks.take newMax) (s.blocks.drop newMax).reverse
    let s := { s with blocks := kept ++ freedRev.reverse }
    if !done then pure s
    else
      let keptSize := sizeAlign pg (newMax * ramBlockSize)
      let freedAddr := alignUp (s.ptr.addr + keptSize) pg.size
      let freedSize := s.ptr.size - keptSize
      -- the subtraction of the source would overflow
      if s.ptr.size < keptSize then throw .panic
      else if freedSize = 0 then pure s
      else free o { s with ptr := ⟨s.ptr.addr, keptSize⟩, blocks := kept } ⟨freedAddr, freedSize⟩

/-- `expand` and `shrink` with at most `depth` nested calls of each other. -/
def tableOps : Nat → TableOps
  | 0 => ⟨fun _ _ _ => throw .depth, fun _ _ => throw .depth⟩
  | depth + 1 => ⟨expand pg (tableOps depth), shrink pg (tableOps depth)⟩

end PhysAlloc

end UnixKernel
