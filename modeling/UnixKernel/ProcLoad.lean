import UnixKernel.ProcSpace
import Mathlib.Data.List.Pairwise
import Mathlib.Data.Nat.ModEq

/-! The bytes of a process. They are written relative to the lowest address of the segments and read through page
tables that were filled with addresses rounded down to pages. The two agree where the lowest address is at a page
boundary; otherwise an address lands away from the place its byte was written to, by the offset of the lowest
address in its page or by that less a page. -/

namespace UnixKernel

open Glacier

namespace ProcCtrlBlk

/-- The physical address for a virtual one. -/
def translate (cfg : RvmCfg) (m : Mem) (g : Glacier) (va : Word) : Option Nat :=
  (walk cfg m g.rootTable va).map fun w => pageAddr cfg w + va.toNat % cfg.psz.size

/-- What belongs at a byte of a segment. -/
def wanted (fileBin : List Byte) (ph : ProgramHeader) (i : Nat) : Byte :=
  if i < ph.fileSize.toNat then fileBin.getD (ph.offset.toNat + i) 0 else 0

/-- Every byte of every segment is found at its address. -/
def Loaded (cfg : RvmCfg) (elf : ElfFile) (fileBin : List Byte) (pcb : ProcCtrlBlk) (s : ProcRam) : Prop :=
  ∀ ph ∈ elf.loads, ∀ i < ph.memSize.toNat, ∃ a,
    translate cfg s.ram.mem pcb.glacier (BitVec.ofNat 64 (ph.virtualAddr.toNat + i)) = some a ∧
    s.bytes a = wanted fileBin ph i

/-- The segments share no address. -/
def Apart (ph q : ProgramHeader) : Prop :=
  ph.virtualAddr.toNat + ph.memSize.toNat ≤ q.virtualAddr.toNat ∨
    q.virtualAddr.toNat + q.memSize.toNat ≤ ph.virtualAddr.toNat

instance (ph q : ProgramHeader) : Decidable (Apart ph q) := inferInstanceAs (Decidable (_ ∨ _))

instance : Std.Symm Apart := ⟨fun _ _ h => h.symm⟩

/-! ### What is written -/

section Image

variable (fileBin : List Byte) (procAddr base : Nat)

/-- Where a segment is written. -/
def place (ph : ProgramHeader) : Nat := procAddr + (ph.virtualAddr.toNat - base)

/-- The segment is written over the address. -/
def Covers (a : Nat) (ph : ProgramHeader) : Prop :=
  place procAddr base ph ≤ a ∧ a < place procAddr base ph + ph.memSize.toNat

instance (a : Nat) (ph : ProgramHeader) : Decidable (Covers procAddr base a ph) := inferInstanceAs (Decidable (_ ∧ _))

/-- The byte at an address after all segments: that of the last one written there, or the one from before. -/
def byteAt (phs : List ProgramHeader) (bytes : Nat → Byte) (a : Nat) : Byte :=
  ((phs.filter fun ph => Covers procAddr base a ph).getLast?).elim (bytes a) fun ph =>
    wanted fileBin ph (a - place procAddr base ph)

variable {fileBin procAddr base}

theorem segmentBytes_eq {ph : ProgramHeader} (hsize : ph.fileSize.toNat ≤ ph.memSize.toNat) (bytes : Nat → Byte)
    (a : Nat) : segmentBytes fileBin (place procAddr base ph) ph bytes a =
      if Covers procAddr base a ph then wanted fileBin ph (a - place procAddr base ph) else bytes a := by
  by_cases hcovers : Covers procAddr base a ph
  · obtain ⟨hle, hlt⟩ := hcovers
    rw [if_pos ⟨hle, hlt⟩, wanted, segmentBytes]
    by_cases hfile : a - place procAddr base ph < ph.fileSize.toNat
    · rw [if_pos ⟨hle, by omega⟩, if_pos hfile]
    · rw [if_neg (by omega), if_pos ⟨hle, hlt⟩, if_neg hfile]
  · rw [if_neg hcovers, segmentBytes, if_neg fun hfile => hcovers ⟨hfile.1, by omega⟩]
    exact if_neg hcovers

theorem imageBytes_eq {arch : Arch} {phs : List ProgramHeader}
    (hsizes : ∀ ph ∈ phs, ph.fileSize.toNat ≤ ph.memSize.toNat) (bytes : Nat → Byte) (a : Nat) :
    imageBytes arch fileBin procAddr base phs bytes a = byteAt fileBin procAddr base phs bytes a := by
  induction phs using List.reverseRecOn with
  | nil => rfl
  | append_singleton phs ph ih =>
      have hph := hsizes ph (List.mem_append_right _ (List.mem_singleton_self ph))
      have hrest := ih fun q hq => hsizes q (List.mem_append_left _ hq)
      have hfold : imageBytes arch fileBin procAddr base (phs ++ [ph]) bytes =
          segmentBytes fileBin (place procAddr base ph) ph (imageBytes arch fileBin procAddr base phs bytes) :=
        List.foldl_append
      rw [hfold, segmentBytes_eq hph, hrest, byteAt, byteAt, List.filter_append]
      by_cases hcovers : Covers procAddr base a ph
      · simp [hcovers]
      · simp [hcovers]

/-- Segments that share no address are written apart. -/
theorem byteAt_place {phs : List ProgramHeader} (hbase : ∀ ph ∈ phs, base ≤ ph.virtualAddr.toNat)
    (hapart : phs.Pairwise Apart) (bytes : Nat → Byte) {ph : ProgramHeader} (hph : ph ∈ phs) {i : Nat}
    (hi : i < ph.memSize.toNat) :
    byteAt fileBin procAddr base phs bytes (place procAddr base ph + i) = wanted fileBin ph i := by
  have hmem : ph ∈ phs.filter fun q => Covers procAddr base (place procAddr base ph + i) q :=
    List.mem_filter.mpr ⟨hph, decide_eq_true ⟨Nat.le_add_right _ _, by omega⟩⟩
  cases hlast : (phs.filter fun q => Covers procAddr base (place procAddr base ph + i) q).getLast? with
  | none =>
      rw [List.getLast?_eq_none_iff] at hlast
      rw [hlast] at hmem
      exact absurd hmem List.not_mem_nil
  | some q =>
      have hq := List.mem_of_getLast? hlast
      rw [List.mem_filter, decide_eq_true_eq] at hq
      obtain ⟨hqmem, hle, hlt⟩ := hq
      have hqph : q = ph := by
        by_contra hne
        have hdisjoint := hapart.forall hqmem hph hne
        have hqbase := hbase q hqmem
        have hphbase := hbase ph hph
        unfold place at hle hlt
        unfold Apart at hdisjoint
        omega
      rw [byteAt, hlast, Option.elim_some, hqph, Nat.add_sub_cancel_left]

end Image

/-! ### Where an address lands -/

variable {cfg : RvmCfg} {arch : Arch}

/-- Where the translation of an address of a segment ends. -/
def landing (cfg : RvmCfg) (elf : ElfFile) (procAddr stackAddr va : Nat) : Nat :=
  if stackVa cfg ≤ va then stackAddr + (va - stackVa cfg)
  else procAddr + (va - vaBase elf + vaBase elf % cfg.psz.size -
    (segmentAt cfg elf.loads (va / cfg.psz.size)).elim 0 fun ph =>
      if ph.virtualAddr.toNat % cfg.psz.size < vaBase elf % cfg.psz.size then cfg.psz.size else 0)

/-- The page of a segment, at the distance of the lowest address in its page or at that less a page. -/
theorem pageOffset_add {base va : Nat} {ph : ProgramHeader} (hbase : base ≤ ph.virtualAddr.toNat) (hva : base ≤ va)
    (hon : OnPage cfg (va / cfg.psz.size) ph) :
    pageOffset cfg base ph (va / cfg.psz.size) + va % cfg.psz.size = va - base + base % cfg.psz.size -
      if ph.virtualAddr.toNat % cfg.psz.size < base % cfg.psz.size then cfg.psz.size else 0 := by
  have hpos := cfg.psz.size_pos
  have hrestMod := Nat.mod_lt (ph.virtualAddr.toNat - base) hpos
  have hbaseEq := Nat.div_add_mod' base cfg.psz.size
  have hrestEq := Nat.div_add_mod' (ph.virtualAddr.toNat - base) cfg.psz.size
  have hvaEq := Nat.div_add_mod' va cfg.psz.size
  have hsub : (va / cfg.psz.size - ph.virtualAddr.toNat / cfg.psz.size) * cfg.psz.size +
      ph.virtualAddr.toNat / cfg.psz.size * cfg.psz.size = va / cfg.psz.size * cfg.psz.size := by
    rw [← Nat.add_mul]
    exact congrArg (· * cfg.psz.size) (Nat.sub_add_cancel hon.1)
  -- the two offsets in a page add up to one in the next page, or they do not
  have hmod := Nat.add_mod_add_ite base (ph.virtualAddr.toNat - base) cfg.psz.size
  have hphEq := Nat.div_add_mod' ph.virtualAddr.toNat cfg.psz.size
  rw [Nat.add_sub_cancel' hbase] at hmod
  unfold pageOffset firstPage
  rw [Nat.add_mul]
  split_ifs at hmod ⊢ <;> omega

theorem onPage_of_lt {ph : ProgramHeader} {i : Nat} (hi : i < ph.memSize.toNat) :
    OnPage cfg ((ph.virtualAddr.toNat + i) / cfg.psz.size) ph := by
  have hpos := cfg.psz.size_pos
  refine ⟨Nat.div_le_div_right (Nat.le_add_right _ _), ?_⟩
  rw [endPage, Nat.lt_iff_add_one_le, ← Nat.add_div_right _ hpos]
  exact Nat.div_le_div_right (by omega)

theorem exists_segmentAt {phs : List ProgramHeader} {ph : ProgramHeader} {page : Nat} (hph : ph ∈ phs)
    (hon : OnPage cfg page ph) : ∃ q, segmentAt cfg phs page = some q := by
  have hmem : ph ∈ phs.filter fun q => OnPage cfg page q := List.mem_filter.mpr ⟨hph, decide_eq_true hon⟩
  exact ⟨_, List.getLast?_eq_some_getLast (List.ne_nil_of_mem hmem)⟩

section Built

variable {krvm : Glacier} {elf : ElfFile} {fileBin : List Byte} {pcb : ProcCtrlBlk} {s s' : ProcRam}
  {procPtr stackPtr : OwnedPtr}

theorem Built.translate_eq (h : Built cfg arch krvm elf fileBin pcb s s' procPtr stackPtr) (hbits : 21 ≤ cfg.vaBits)
    (hlow : LowSegments cfg elf) {ph : ProgramHeader} (hph : ph ∈ elf.loads) {i : Nat} (hi : i < ph.memSize.toNat) :
    translate cfg s'.ram.mem pcb.glacier (BitVec.ofNat 64 (ph.virtualAddr.toNat + i)) =
      some (landing cfg elf procPtr.addr stackPtr.addr (ph.virtualAddr.toNat + i)) := by
  obtain ⟨hdouble, -, htop⟩ := cfg.half_pages
  obtain ⟨first, count, hfirst, -, -⟩ := stack_pages hbits
  have hseg := hlow ph hph
  have hnat : (BitVec.ofNat 64 (ph.virtualAddr.toNat + i)).toNat = ph.virtualAddr.toNat + i :=
    toNat_ofNat_lt (by omega)
  have hva : LowHalf cfg (BitVec.ofNat 64 (ph.virtualAddr.toNat + i)) := by
    rw [LowHalf, hnat]
    omega
  have hsplit := Nat.div_add_mod' (ph.virtualAddr.toNat + i) cfg.psz.size
  unfold translate landing
  by_cases hstack : stackVa cfg ≤ ph.virtualAddr.toNat + i
  · have hpage : stackVa cfg ≤ (ph.virtualAddr.toNat + i) / cfg.psz.size * cfg.psz.size := by
      rw [hfirst] at hstack ⊢
      exact Nat.mul_le_mul_right _ ((Nat.le_div_iff_mul_le cfg.psz.size_pos).mpr hstack)
    obtain ⟨w, hw, haddr, -⟩ := h.stack_page hbits hva (by rwa [hnat])
    rw [hw, Option.map_some, haddr, hnat, if_pos hstack]
    congr 1
    omega
  · have hpage : (ph.virtualAddr.toNat + i) / cfg.psz.size * cfg.psz.size < stackVa cfg :=
      (Nat.div_mul_le_self _ _).trans_lt (Nat.lt_of_not_le hstack)
    obtain ⟨q, hq⟩ := exists_segmentAt hph (@onPage_of_lt cfg ph i hi)
    obtain ⟨hqmem, hqon⟩ := mem_of_segmentAt hq
    obtain ⟨w, hw, -, haddr⟩ := h.segment_page hbits hva (by rwa [hnat]) (by rwa [hnat])
    have hle := (vaBase_le hph).trans (Nat.le_add_right _ i)
    have hland := pageOffset_add (vaBase_le hqmem) hle hqon
    rw [hw, Option.map_some, haddr, hnat, if_neg hstack, hq, Option.elim_some, Nat.add_assoc, hland]

end Built

/-- The lowest address is at a page boundary and the segments end below the stack. A segment without a byte counts for
the lowest address only. -/
def Layout (cfg : RvmCfg) (elf : ElfFile) : Prop :=
  ∀ ph ∈ elf.loads, 0 < ph.memSize.toNat →
    cfg.psz.size ∣ vaBase elf ∧ ph.virtualAddr.toNat + ph.memSize.toNat ≤ stackVa cfg

/-- Every address of a segment is translated to the place where its byte was written. -/
def Placed (cfg : RvmCfg) (elf : ElfFile) (procAddr : Nat) (pcb : ProcCtrlBlk) (s : ProcRam) : Prop :=
  ∀ ph ∈ elf.loads, ∀ i < ph.memSize.toNat,
    translate cfg s.ram.mem pcb.glacier (BitVec.ofNat 64 (ph.virtualAddr.toNat + i)) =
      some (place procAddr (vaBase elf) ph + i)

section Exact

variable {elf : ElfFile} {procAddr stackAddr : Nat} {ph : ProgramHeader} {i : Nat}

theorem landing_of_layout (h : Layout cfg elf) (hph : ph ∈ elf.loads) (hi : i < ph.memSize.toNat) :
    landing cfg elf procAddr stackAddr (ph.virtualAddr.toNat + i) = place procAddr (vaBase elf) ph + i := by
  obtain ⟨hbase, hstack⟩ := h ph hph (by omega)
  have hle := vaBase_le hph
  have hmod : vaBase elf % cfg.psz.size = 0 := Nat.mod_eq_zero_of_dvd hbase
  rw [landing, if_neg (by omega), hmod]
  unfold place
  cases segmentAt cfg elf.loads ((ph.virtualAddr.toNat + i) / cfg.psz.size) with
  | none =>
      rw [Option.elim_none]
      omega
  | some q =>
      rw [Option.elim_some, if_neg (Nat.not_lt_zero _)]
      omega

/-- Below the stack an address lands at its place only if the lowest address is at a page boundary. -/
theorem dvd_of_landing (hph : ph ∈ elf.loads) (hi : i < ph.memSize.toNat)
    (hstack : ph.virtualAddr.toNat + i < stackVa cfg)
    (h : landing cfg elf procAddr stackAddr (ph.virtualAddr.toNat + i) = place procAddr (vaBase elf) ph + i) :
    cfg.psz.size ∣ vaBase elf := by
  obtain ⟨q, hq⟩ := exists_segmentAt hph (@onPage_of_lt cfg ph i hi)
  obtain ⟨hqmem, hqon⟩ := mem_of_segmentAt hq
  have hle := vaBase_le hph
  have hoffset := pageOffset_add (vaBase_le hqmem) (hle.trans (Nat.le_add_right _ i)) hqon
  have hmod := Nat.mod_lt (vaBase elf) cfg.psz.size_pos
  have hsame : vaBase elf = ph.virtualAddr.toNat + i →
      vaBase elf % cfg.psz.size = (ph.virtualAddr.toNat + i) % cfg.psz.size := fun heq => heq ▸ rfl
  rw [landing, if_neg (by omega), hq, Option.elim_some] at h
  unfold place at h
  apply Nat.dvd_of_mod_eq_zero
  -- a distance of less than a page is not made up for by a page
  split_ifs at h hoffset <;> omega

end Exact

theorem Built.placed_iff {krvm : Glacier} {elf : ElfFile} {fileBin : List Byte} {pcb : ProcCtrlBlk} {s s' : ProcRam}
    {procPtr stackPtr : OwnedPtr} (h : Built cfg arch krvm elf fileBin pcb s s' procPtr stackPtr)
    (hbits : 21 ≤ cfg.vaBits) (hlow : LowSegments cfg elf)
    (hmemory : procPtr.fin ≤ stackPtr.addr ∨ stackPtr.fin ≤ procPtr.addr) :
    Placed cfg elf procPtr.addr pcb s' ↔ Layout cfg elf := by
  constructor
  · intro hplaced
    have hland : ∀ ph ∈ elf.loads, ∀ i < ph.memSize.toNat, ph.virtualAddr.toNat + i < stackVa cfg ∧
        landing cfg elf procPtr.addr stackPtr.addr (ph.virtualAddr.toNat + i) =
          place procPtr.addr (vaBase elf) ph + i := by
      intro ph hph i hi
      have heq := Option.some.inj ((h.translate_eq hbits hlow hph hi).symm.trans (hplaced ph hph i hi))
      refine ⟨?_, heq⟩
      by_contra hstack
      -- the stack's memory is not that of the segments
      have hsize := le_sizeAlign cfg.psz (vaTop elf - vaBase elf)
      have htop := le_vaTop hph
      have hle := vaBase_le hph
      have hseg := hlow ph hph
      rw [← h.procSize] at hsize
      rw [landing, if_pos (Nat.le_of_not_lt hstack)] at heq
      unfold OwnedPtr.fin at hmemory
      rw [h.stackBytes] at hmemory
      unfold place at heq
      unfold stackVa at heq hstack
      omega
    intro ph hph hpos
    obtain ⟨hstack, heq⟩ := hland ph hph 0 hpos
    have hlast := (hland ph hph (ph.memSize.toNat - 1) (by omega)).1
    exact ⟨dvd_of_landing hph hpos hstack heq, by omega⟩
  · intro hlayout ph hph i hi
    rw [h.translate_eq hbits hlow hph hi, landing_of_layout hlayout hph hi]

/-- A new process whose layout is right finds the bytes of its segments, and the layout is right exactly if every
address is translated to the place where its byte was written. -/
theorem new_loaded {cfg : RvmCfg} {arch : Arch} {p : Profile} {krvm : Glacier} {env : ProcEnv} {elf : ElfFile}
    {fileBin : List Byte} {pcb : ProcCtrlBlk} {s s' : ProcRam}
    (hkernel : WellFormed cfg s.ram.mem krvm.rootTable) (hbits : 21 ≤ cfg.vaBits) (henv : Honest cfg krvm env s)
    (hhigh : hihalf cfg ≤ s.heapEnd) (hpage : cfg.psz.size ∣ s.heapEnd) (hlow : LowSegments cfg elf)
    (hapart : elf.loads.Pairwise Apart) (hsizes : ∀ ph ∈ elf.loads, ph.fileSize.toNat ≤ ph.memSize.toNat)
    (h : new cfg arch p krvm env elf fileBin s = (.ok pcb, s')) :
    (Layout cfg elf → Loaded cfg elf fileBin pcb s') ∧
    ∃ procPtr stackPtr, pcb.physAlloc = [procPtr, stackPtr] ∧
      ((procPtr.fin ≤ stackPtr.addr ∨ stackPtr.fin ≤ procPtr.addr) →
        (Placed cfg elf procPtr.addr pcb s' ↔ Layout cfg elf)) := by
  obtain ⟨procPtr, stackPtr, hbuilt⟩ := new_built hkernel hbits henv hhigh hpage hlow h
  refine ⟨fun hlayout ph hph i hi => ?_, procPtr, stackPtr, hbuilt.owned, hbuilt.placed_iff hbits hlow⟩
  refine ⟨_, hbuilt.translate_eq hbits hlow hph hi, ?_⟩
  rw [landing_of_layout hlayout hph hi, hbuilt.bytes, imageBytes_eq hsizes]
  exact byteAt_place (fun q hq => vaBase_le hq) hapart s.bytes hph hi

theorem new_loaded_narrow : Loaded narrowCfg plainElf [1, 2, 3, 4] narrowPcb narrowRun.2 ∧
    Placed narrowCfg plainElf 0x20000000 narrowPcb narrowRun.2 := by
  have hlayout : Layout narrowCfg plainElf := by
    unfold Layout
    decide +kernel
  obtain ⟨hloaded, procPtr, stackPtr, howned, hplaced⟩ := @new_loaded narrowCfg _ _ bootGlacier narrowEnv plainElf _ _
    (bootRam narrowCfg) _ (by decide +kernel) (by decide) honest_narrowEnv (by decide) (by decide) (by decide)
    (by decide) (by decide) narrowRun_eq
  cases howned
  exact ⟨hloaded hlayout, (hplaced (by decide)).mpr hlayout⟩

/-- One segment that does not begin at a page boundary. -/
def skewElf : ElfFile := ⟨0x400100, [⟨true, 0, 0x400100, 4, 0x10, 0b101⟩]⟩

def skewPcb : ProcCtrlBlk where
  glacier := ⟨0x40000, true⟩
  kstack := ⟨0xffff800000100000, 0x0060000005000000⟩
  physAlloc := [⟨0x20000000, 0x10⟩, ⟨0x40000000, 0x100000⟩]
  vramMap := [⟨0x400100, 0x20000000, 0x10, Arch.aarch64.mapFlag .uRox⟩,
    ⟨0x7ffffff00000, 0x40000000, 0x100000, Arch.aarch64.mapFlag .uRwo⟩]
  pc := 0x400100
  sp := 0x800000000000

/-- The first byte of the file is written to the begin of the memory, and looked for 0x100 bytes behind. -/
theorem new_loaded_skew : LowSegments wideCfg skewElf ∧ skewElf.loads.Pairwise Apart ∧
    (∀ ph ∈ skewElf.loads, ph.fileSize.toNat ≤ ph.memSize.toNat ∧ ph.offset.toNat + ph.fileSize.toNat ≤ 4) ∧
    (boot wideCfg (fun _ => []) skewElf).1 = .ok skewPcb ∧
    translate wideCfg (boot wideCfg (fun _ => []) skewElf).2.ram.mem skewPcb.glacier 0x400100 = some 0x20000100 ∧
    (boot wideCfg (fun _ => []) skewElf).2.bytes 0x20000000 = 1 ∧
    (boot wideCfg (fun _ => []) skewElf).2.bytes 0x20000100 = 0 ∧
    ¬Loaded wideCfg skewElf [1, 2, 3, 4] skewPcb (boot wideCfg (fun _ => []) skewElf).2 := by
  have htranslate : translate wideCfg (boot wideCfg (fun _ => []) skewElf).2.ram.mem skewPcb.glacier 0x400100 =
      some 0x20000100 := by decide +kernel
  have hbyte : (boot wideCfg (fun _ => []) skewElf).2.bytes 0x20000100 = 0 := by decide +kernel
  refine ⟨by decide, by decide, by decide, by decide +kernel, htranslate, by decide +kernel, hbyte, fun hloaded => ?_⟩
  obtain ⟨a, ha, hwanted⟩ := hloaded ⟨true, 0, 0x400100, 4, 0x10, 0b101⟩ (by decide) 0 (by decide)
  obtain rfl := Option.some.inj (ha.symm.trans htranslate)
  rw [hbyte] at hwanted
  exact absurd hwanted (by decide)

end ProcCtrlBlk

end UnixKernel
