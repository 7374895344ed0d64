import Mathlib.Logic.Function.Basic
import UnixKernel.PhysBoot
import UnixKernel.RvmCfg

/-! The page tables of `ram/glacier.rs`: `init`, `new`, `map_page`, `unmap_page`, `get_pa` and `drop`. The
tables lie in raw memory, a page of entries each. The loops of the source count levels from the root; here
a table is met with the number `d` of levels below it, so that its level is `depth - d` and the leaves
have `d = 0`. What `PHYS_ALLOC.alloc` answers is given with each call, and what `free_raw` is given is
recorded. Flushing the translation buffer changes no memory and is left out. -/

namespace UnixKernel

/-- `flags::VALID`, the same on both architectures. -/
def flagValid : Word := 0b1

/-- `flags::NEXT`. -/
def Arch.flagNext : Arch → Word
  | .amd64 => 0b111
  | .aarch64 => 0b10000000011

/-- The words of physical memory, by the byte address they are read at. -/
abbrev Mem := Nat → Word

/-- `(table as *mut usize).add(index)`. -/
def slot (table : Word) (index : Nat) : Nat := table.toNat + 8 * index

namespace Mem

/-- `write_bytes(0, ..)` over the first entries of a table. -/
def zero (m : Mem) (table : Word) (entries : Nat) : Mem := fun a =>
  if table.toNat ≤ a ∧ a < slot table entries then 0 else m a

/-- `copy_from` of the first entries of a table. -/
def copy (m : Mem) (dst src : Word) (entries : Nat) : Mem := fun a =>
  if dst.toNat ≤ a ∧ a < slot dst entries then m (src.toNat + (a - dst.toNat)) else m a

end Mem

/-- Physical memory with the dealings with `PHYS_ALLOC`: the pages it handed out, and the pages given back
with the memory as it was at that moment. -/
structure Ram where
  mem : Mem
  taken : List Word
  freed : List (Word × Mem)

namespace Ram

def write (r : Ram) (a : Nat) (v : Word) : Ram := { r with mem := Function.update r.mem a v }

/-- A page from `PHYS_ALLOC.alloc`, cleared with `write_bytes`. -/
def take (r : Ram) (page : Word) (entries : Nat) : Ram :=
  { r with mem := r.mem.zero page entries, taken := r.taken ++ [page] }

/-- `PHYS_ALLOC.free_raw`. -/
def free (r : Ram) (page : Word) : Ram := { r with freed := r.freed ++ [(page, r.mem)] }

end Ram

inductive GlacierErr where
  | failed2Alloc
  deriving DecidableEq, Repr

structure Glacier where
  rootTable : Word
  isInit : Bool
  deriving DecidableEq, Repr

namespace Glacier

variable (cfg : RvmCfg) (arch : Arch)

/-- The entries of a whole page. -/
def pageEntries : Nat := 2 ^ cfg.psz.indexBits

/-- `init`, with the answer to its allocation. -/
def init (answer : Option Word) (r : Ram) : Except Halt (Glacier × Ram) :=
  match answer with
  | some root => .ok (⟨root, true⟩, r.take root (pageEntries cfg))
  | none => .error .panic

/-- `new`; `krvm` is the kernel's `GLACIER`. -/
def new (krvm : Glacier) (answer : Option Word) (r : Ram) : Except Halt (Glacier × Ram) := do
  let (g, r) ← init cfg answer r
  let hihalfIdx := cfg.entCnt 0 >>> 1
  let mem := r.mem.copy g.rootTable krvm.rootTable (pageEntries cfg)
  pure (g, { r with mem := mem.zero g.rootTable hihalfIdx })

/-- The loop of `map_page` from a table with `d` levels below it; `word` goes into the leaf. -/
def mapFrom (va word : Word) : Nat → Word → List (Option Word) → Ram → Except GlacierErr Unit × Ram
  | 0, table, _, r => (.ok (), r.write (slot table (cfg.index 0 va)) word)
  | d + 1, table, answers, r =>
      let entry := slot table (cfg.index (d + 1) va)
      if r.mem entry &&& flagValid = 0 then
        match answers with
        | some nextTable :: answers =>
            mapFrom va word d nextTable answers
              ((r.take nextTable (pageEntries cfg)).write entry (nextTable ||| arch.flagNext))
        | _ => (.error .failed2Alloc, r)
      else mapFrom va word d (r.mem entry &&& cfg.psz.addrMask) answers r

/-- `map_page`; `answers` are those of `PHYS_ALLOC.alloc` during the call, and no answer is a failure. -/
def mapPage (g : Glacier) (va pa flags : Word) (answers : List (Option Word)) (r : Ram) :
    Except GlacierErr Unit × Ram :=
  let va := va &&& cfg.psz.addrMask
  let pa := pa &&& cfg.psz.addrMask
  mapFrom cfg arch va (pa ||| flags) cfg.depth g.rootTable answers r

/-- The closure `is_tbl_null` of `unmap_rec`. -/
def isTblNull (m : Mem) (table : Word) (entries : Nat) : Bool :=
  (List.range entries).all fun i => m (slot table i) == 0

/-- `unmap_rec` at a table with `d` levels below it. -/
def unmapRec (va : Word) : Nat → Word → Ram → Bool × Ram
  | 0, table, r =>
      let r := r.write (slot table (cfg.index 0 va)) 0
      (isTblNull r.mem table (cfg.width 0), r)
  | d + 1, table, r =>
      let entry := slot table (cfg.index (d + 1) va)
      if r.mem entry &&& flagValid = 0 then (false, r)
      else
        let child := r.mem entry &&& cfg.psz.addrMask
        match unmapRec va d child r with
        | (true, r) =>
            let r := (r.write entry 0).free child
            (isTblNull r.mem table (cfg.width (d + 1)), r)
        | (false, r) => (false, r)

def unmapPage (g : Glacier) (va : Word) (r : Ram) : Ram :=
  let va := va &&& cfg.psz.addrMask
  (unmapRec cfg va cfg.depth g.rootTable r).2

/-- The loop of `get_pa` from a table with `d` levels below it. -/
def paFrom (m : Mem) (va : Word) : Nat → Word → Option Word
  | 0, table =>
      let entry := m (slot table (cfg.index 0 va))
      if entry &&& flagValid = 0 then none else some (entry &&& cfg.psz.addrMask)
  | d + 1, table =>
      let entry := m (slot table (cfg.index (d + 1) va))
      if entry &&& flagValid = 0 then none else paFrom m va d (entry &&& cfg.psz.addrMask)

def getPa (g : Glacier) (va : Word) (r : Ram) : Option Word :=
  paFrom cfg r.mem (va &&& cfg.psz.addrMask) cfg.depth g.rootTable

/-- The entries `_drop` looks at: half of the root's, all of another table's. -/
def dropWidth (d : Nat) : Nat := if d = cfg.depth then cfg.width d >>> 1 else cfg.width d

/-- `_drop` at a table with `d` levels below it. -/
def dropRec : Nat → Word → Ram → Ram
  | 0, table, r => r.free table
  | d + 1, table, r =>
      let r := (List.range (dropWidth cfg (d + 1))).foldl (fun r i =>
        let entry := r.mem (slot table i)
        if entry &&& flagValid ≠ 0 then dropRec d (entry &&& cfg.psz.addrMask) r else r) r
      r.free table

def drop (g : Glacier) (r : Ram) : Ram :=
  if g.isInit then dropRec cfg cfg.depth g.rootTable r else r

end Glacier

end UnixKernel
