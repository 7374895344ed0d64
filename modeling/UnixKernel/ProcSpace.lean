import UnixKernel.ProcCtrlBlk

/-! Where the pages of a process lie. A segment is mapped by whole pages, its addresses and its place in the
memory of the process rounded down each for itself, and the memory is as long as `size_align` makes it, so a page
can reach out of it. -/

namespace UnixKernel

open Glacier

/-! ### Leaf words -/

/-- The bit that tells the `U_` flags from the others. -/
def Arch.flagUser : Arch → Word
  | .amd64 => 0b100
  | .aarch64 => 0b100_0000

namespace Glacier

variable {cfg : RvmCfg} {arch : Arch}

theorem leafWord_user {frame : Nat} {flags : Word} (h : flags &&& arch.flagUser ≠ 0) :
    leafWord cfg (frame, flags) &&& arch.flagUser ≠ 0 := by
  intro hzero
  rw [leafWord, BitVec.and_or_distrib_right] at hzero
  exact h (BitVec.or_eq_zero_iff.mp hzero).2

theorem segFlag_user (arch : Arch) (flags : BitVec 32) : arch.mapFlag (segFlag flags) &&& arch.flagUser ≠ 0 := by
  unfold segFlag
  split_ifs <;> cases arch <;> decide

end Glacier

namespace ProcCtrlBlk

variable {cfg : RvmCfg} {arch : Arch}

/-! ### The segments on a page -/

/-- The segment is mapped on the page. -/
def OnPage (cfg : RvmCfg) (page : Nat) (ph : ProgramHeader) : Prop :=
  firstPage cfg ph.virtualAddr.toNat ≤ page ∧ page < endPage cfg ph.virtualAddr.toNat ph.memSize.toNat

instance (page : Nat) (ph : ProgramHeader) : Decidable (OnPage cfg page ph) := inferInstanceAs (Decidable (_ ∧ _))

/-- The segment that a page belongs to in the end: the last one that was mapped there. -/
def segmentAt (cfg : RvmCfg) (phs : List ProgramHeader) (page : Nat) : Option ProgramHeader :=
  (phs.filter fun ph => OnPage cfg page ph).getLast?

/-- Where in the memory of the process the page of a segment begins. -/
def pageOffset (cfg : RvmCfg) (base : Nat) (ph : ProgramHeader) (page : Nat) : Nat :=
  ((ph.virtualAddr.toNat - base) / cfg.psz.size + (page - firstPage cfg ph.virtualAddr.toNat)) * cfg.psz.size

theorem mapSpace_segmentMap (procAddr base : Nat) (ph : ProgramHeader) (page : Nat) :
    mapSpace cfg (segmentMap arch procAddr base ph) page =
      if OnPage cfg page ph then
        some ((procAddr + (ph.virtualAddr.toNat - base)) / cfg.psz.size + (page - firstPage cfg ph.virtualAddr.toNat),
          arch.mapFlag (segFlag ph.flags))
      else none := rfl

theorem spaceOf_segments (procAddr base : Nat) (phs : List ProgramHeader) (page : Nat) :
    spaceOf cfg (phs.map (segmentMap arch procAddr base)) page = (segmentAt cfg phs page).map fun ph =>
      ((procAddr + (ph.virtualAddr.toNat - base)) / cfg.psz.size + (page - firstPage cfg ph.virtualAddr.toNat),
        arch.mapFlag (segFlag ph.flags)) := by
  induction phs using List.reverseRecOn with
  | nil => rfl
  | append_singleton phs ph ih =>
      rw [List.map_append, List.map_singleton, spaceOf_concat, mapSpace_segmentMap, ih, segmentAt, segmentAt,
        List.filter_append]
      by_cases hon : OnPage cfg page ph
      · simp [hon]
      · simp [hon]

theorem mem_of_segmentAt {phs : List ProgramHeader} {page : Nat} {ph : ProgramHeader}
    (h : segmentAt cfg phs page = some ph) : ph ∈ phs ∧ OnPage cfg page ph := by
  have hmem := List.mem_of_getLast? h
  rw [List.mem_filter, decide_eq_true_eq] at hmem
  exact hmem

theorem pageOffset_lt {base page : Nat} {ph : ProgramHeader} (hbase : base ≤ ph.virtualAddr.toNat)
    (hon : OnPage cfg page ph) :
    pageOffset cfg base ph page < ph.virtualAddr.toNat + ph.memSize.toNat - base + cfg.psz.size := by
  obtain ⟨hfirst, hend⟩ := hon
  have hpos := cfg.psz.size_pos
  have hlast : (page + 1) * cfg.psz.size ≤ ph.virtualAddr.toNat + ph.memSize.toNat + cfg.psz.size - 1 :=
    (Nat.mul_le_mul_right _ hend).trans (Nat.div_mul_le_self _ _)
  have hstart := Nat.lt_div_mul_add (a := ph.virtualAddr.toNat) hpos
  have hplace := Nat.div_mul_le_self (ph.virtualAddr.toNat - base) cfg.psz.size
  have hsub : (page - firstPage cfg ph.virtualAddr.toNat) * cfg.psz.size + firstPage cfg ph.virtualAddr.toNat *
      cfg.psz.size = page * cfg.psz.size := by
    rw [← Nat.add_mul, Nat.sub_add_cancel hfirst]
  unfold pageOffset
  unfold firstPage at hsub ⊢
  rw [Nat.add_mul] at hlast ⊢
  omega

/-! ### The pages of a process -/

/-- Where the user stack begins. -/
def stackVa (cfg : RvmCfg) : Nat := 2 ^ (cfg.vaBits - 1) - stackSize

theorem size_dvd_stackSize (pg : BPage) : pg.size ∣ stackSize := by
  unfold stackSize
  cases pg <;> decide

theorem stack_pages (hbits : 21 ≤ cfg.vaBits) : ∃ first count, stackVa cfg = first * cfg.psz.size ∧
    stackSize = count * cfg.psz.size ∧ 2 ^ (cfg.vaBits - 1) = (first + count) * cfg.psz.size := by
  obtain ⟨-, hhalf, -⟩ := cfg.half_pages
  obtain ⟨count, hcount⟩ := size_dvd_stackSize cfg.psz
  have hle := stackSize_le hbits
  rw [hcount, hhalf] at hle
  have hcountLe := Nat.le_of_mul_le_mul_left hle cfg.psz.size_pos
  refine ⟨2 ^ (cfg.vaBits - 1 - cfg.psz.shift) - count, count, ?_, by rw [hcount, Nat.mul_comm], ?_⟩
  · rw [stackVa, hhalf, hcount, ← Nat.mul_sub, Nat.mul_comm]
  · rw [hhalf, Nat.sub_add_cancel hcountLe, Nat.mul_comm]

theorem mapSpace_stackMap (hbits : 21 ≤ cfg.vaBits) (addr : Nat) {page : Nat}
    (hpage : page * cfg.psz.size < 2 ^ (cfg.vaBits - 1)) :
    mapSpace cfg (stackMap cfg arch addr) page = if stackVa cfg ≤ page * cfg.psz.size then
      some (addr / cfg.psz.size + (page - stackVa cfg / cfg.psz.size), arch.mapFlag .uRwo) else none := by
  obtain ⟨first, count, hfirst, hcount, hhalf⟩ := stack_pages hbits
  have hpos := cfg.psz.size_pos
  have hmap : mapSpace cfg (stackMap cfg arch addr) page =
      rangeSpace cfg (stackVa cfg) addr stackSize (arch.mapFlag .uRwo) page := rfl
  rw [hhalf] at hpage
  rw [hmap, rangeSpace, hfirst, hcount, endPage_mul, firstPage, Nat.mul_div_cancel _ hpos]
  apply if_congr _ rfl rfl
  rw [Nat.mul_le_mul_right_iff hpos]
  exact and_iff_left (Nat.lt_of_mul_lt_mul_right hpage)

section Built

variable {krvm : Glacier} {elf : ElfFile} {fileBin : List Byte} {pcb : ProcCtrlBlk} {s s' : ProcRam}
  {procPtr stackPtr : OwnedPtr} {va : Word}

theorem Built.walk_eq (h : Built cfg arch krvm elf fileBin pcb s s' procPtr stackPtr) (hbits : 21 ≤ cfg.vaBits)
    (hva : LowHalf cfg va) : walk cfg s'.ram.mem pcb.glacier.rootTable va =
      if stackVa cfg ≤ va.toNat / cfg.psz.size * cfg.psz.size then
        some (leafWord cfg (stackPtr.addr / cfg.psz.size + (va.toNat / cfg.psz.size - stackVa cfg / cfg.psz.size),
          arch.mapFlag .uRwo))
      else (segmentAt cfg elf.loads (va.toNat / cfg.psz.size)).map fun ph =>
        leafWord cfg ((procPtr.addr + (ph.virtualAddr.toNat - vaBase elf)) / cfg.psz.size +
          (va.toNat / cfg.psz.size - firstPage cfg ph.virtualAddr.toNat), arch.mapFlag (segFlag ph.flags)) := by
  have hpage : va.toNat / cfg.psz.size * cfg.psz.size < 2 ^ (cfg.vaBits - 1) :=
    (Nat.div_mul_le_self _ _).trans_lt hva
  rw [h.low va hva, h.maps, spaceOf_concat, mapSpace_stackMap hbits _ hpage, spaceOf_segments]
  split_ifs
  · rfl
  · rw [Option.none_or, Option.map_map]
    rfl

/-- A page of the stack. -/
theorem Built.stack_page (h : Built cfg arch krvm elf fileBin pcb s s' procPtr stackPtr) (hbits : 21 ≤ cfg.vaBits)
    (hva : LowHalf cfg va) (hstack : stackVa cfg ≤ va.toNat / cfg.psz.size * cfg.psz.size) :
    ∃ w, walk cfg s'.ram.mem pcb.glacier.rootTable va = some w ∧
      pageAddr cfg w = stackPtr.addr + (va.toNat / cfg.psz.size * cfg.psz.size - stackVa cfg) ∧
      pageAddr cfg w + cfg.psz.size ≤ stackPtr.fin := by
  obtain ⟨first, count, hfirst, hcount, hhalf⟩ := stack_pages hbits
  obtain ⟨frame, hframe⟩ := h.stackPage
  have hpos := cfg.psz.size_pos
  have hlt : va.toNat / cfg.psz.size < first + count := by
    apply Nat.lt_of_mul_lt_mul_right (a := cfg.psz.size)
    rw [← hhalf]
    exact (Nat.div_mul_le_self _ _).trans_lt hva
  rw [hfirst] at hstack
  have hle := Nat.le_of_mul_le_mul_right hstack hpos
  have hend := h.stackEnd
  rw [OwnedPtr.fin, h.stackBytes, hframe, hcount, Nat.mul_comm, ← Nat.add_mul, ← Nat.succ_mul] at hend
  have haddr : (stackPtr.addr / cfg.psz.size + (va.toNat / cfg.psz.size - stackVa cfg / cfg.psz.size)) *
      cfg.psz.size = stackPtr.addr + (va.toNat / cfg.psz.size * cfg.psz.size - stackVa cfg) := by
    rw [hframe, hfirst, Nat.mul_div_cancel_left _ hpos, Nat.mul_div_cancel _ hpos, ← Nat.sub_mul, Nat.add_mul,
      Nat.mul_comm frame]
  refine ⟨_, (h.walk_eq hbits hva).trans (if_pos (hfirst ▸ hstack)), ?_⟩
  rw [pageAddr_leafWord]
  · refine ⟨haddr, ?_⟩
    rw [OwnedPtr.fin, h.stackBytes, hframe, hfirst, hcount, Nat.mul_div_cancel_left _ hpos,
      Nat.mul_div_cancel _ hpos, Nat.mul_comm _ frame, ← Nat.add_mul, ← Nat.succ_mul]
    exact Nat.mul_le_mul_right _ (by omega)
  · rw [hframe, hfirst, Nat.mul_div_cancel_left _ hpos, Nat.mul_div_cancel _ hpos]
    exact (Nat.mul_lt_mul_of_pos_right (by omega) hpos).trans_le hend

/-- A page of a segment. -/
theorem Built.segment_page (h : Built cfg arch krvm elf fileBin pcb s s' procPtr stackPtr) (hbits : 21 ≤ cfg.vaBits)
    (hva : LowHalf cfg va) (hstack : va.toNat / cfg.psz.size * cfg.psz.size < stackVa cfg) {ph : ProgramHeader}
    (hph : segmentAt cfg elf.loads (va.toNat / cfg.psz.size) = some ph) :
    ∃ w, walk cfg s'.ram.mem pcb.glacier.rootTable va = some w ∧ w &&& arch.flagUser ≠ 0 ∧
      pageAddr cfg w = procPtr.addr + pageOffset cfg (vaBase elf) ph (va.toNat / cfg.psz.size) := by
  obtain ⟨hmem, hon⟩ := mem_of_segmentAt hph
  have htop := le_vaTop hmem
  obtain ⟨frame, hframe⟩ := h.procPage
  have hpos := cfg.psz.size_pos
  have haddr : ((procPtr.addr + (ph.virtualAddr.toNat - vaBase elf)) / cfg.psz.size +
      (va.toNat / cfg.psz.size - firstPage cfg ph.virtualAddr.toNat)) * cfg.psz.size =
      procPtr.addr + pageOffset cfg (vaBase elf) ph (va.toNat / cfg.psz.size) := by
    rw [hframe, Nat.mul_add_div hpos, Nat.add_assoc, Nat.add_mul, Nat.mul_comm frame]
    rfl
  have hwalk := h.walk_eq hbits hva
  rw [if_neg (Nat.not_le_of_lt hstack), hph, Option.map_some] at hwalk
  refine ⟨_, hwalk, leafWord_user (segFlag_user arch ph.flags), ?_⟩
  rw [pageAddr_leafWord, haddr]
  have hoff := pageOffset_lt (vaBase_le hmem) hon
  have hround := le_sizeAlign cfg.psz (vaTop elf - vaBase elf)
  have hend := h.procEnd
  rw [OwnedPtr.fin, h.procSize] at hend
  rw [haddr]
  omega

end Built

/-! ### Owned pages -/

/-- Every page mapped with a `U_` flag lies in memory that the process owns. -/
def UserPagesOwned (cfg : RvmCfg) (arch : Arch) (pcb : ProcCtrlBlk) (m : Mem) : Prop :=
  ∀ va, LowHalf cfg va → ∀ w, walk cfg m pcb.glacier.rootTable va = some w → w &&& arch.flagUser ≠ 0 →
    ∃ ptr ∈ pcb.physAlloc, ptr.addr ≤ pageAddr cfg w ∧ pageAddr cfg w + cfg.psz.size ≤ ptr.fin

/-- Every page of a segment below the stack ends in the memory for the segments, of which `procAddr` is the
address, or happens to lie in the memory of the stack. -/
def PagesFit (cfg : RvmCfg) (elf : ElfFile) (procAddr stackAddr : Nat) : Prop :=
  ∀ page ph, page * cfg.psz.size < stackVa cfg → segmentAt cfg elf.loads page = some ph →
    pageOffset cfg (vaBase elf) ph page + cfg.psz.size ≤ sizeAlign cfg.psz (vaTop elf - vaBase elf) ∨
    stackAddr ≤ procAddr + pageOffset cfg (vaBase elf) ph page ∧
      procAddr + pageOffset cfg (vaBase elf) ph page + cfg.psz.size ≤ stackAddr + stackSize

theorem le_firstPage {base first va : Nat} (haligned : base = first * cfg.psz.size) (hbase : base ≤ va) :
    first ≤ firstPage cfg va := by
  rw [firstPage, Nat.le_div_iff_mul_le cfg.psz.size_pos, ← haligned]
  exact hbase

theorem pageOffset_of_aligned {base first page : Nat} {ph : ProgramHeader} (haligned : base = first * cfg.psz.size)
    (hbase : base ≤ ph.virtualAddr.toNat) (hon : OnPage cfg page ph) :
    pageOffset cfg base ph page = (page - first) * cfg.psz.size := by
  have hfirst := le_firstPage haligned hbase
  have hdiv : (ph.virtualAddr.toNat - base) / cfg.psz.size = firstPage cfg ph.virtualAddr.toNat - first := by
    rw [haligned, Nat.mul_comm, Nat.sub_mul_div]
    rfl
  rw [pageOffset, hdiv, ← Nat.sub_add_comm hfirst, Nat.add_sub_cancel' hon.1]

/-- A lowest address at a page boundary and more than half a page of addresses are enough. -/
theorem pagesFit_of_aligned {elf : ElfFile} (hbase : cfg.psz.size ∣ vaBase elf)
    (hhalf : cfg.psz.size < 2 * (vaTop elf - vaBase elf)) (procAddr stackAddr : Nat) :
    PagesFit cfg elf procAddr stackAddr := by
  intro page ph _ hph
  obtain ⟨hmem, hon⟩ := mem_of_segmentAt hph
  obtain ⟨first, hfirst⟩ := hbase
  rw [Nat.mul_comm] at hfirst
  obtain ⟨count, hcount⟩ := dvd_alignUp (vaTop elf - vaBase elf) cfg.psz.size_pos
  rw [Nat.mul_comm] at hcount
  have htop := le_vaTop hmem
  have hup := le_alignUp (vaTop elf - vaBase elf) cfg.psz.size
  have hlast : (page + 1) * cfg.psz.size ≤ ph.virtualAddr.toNat + ph.memSize.toNat + cfg.psz.size - 1 :=
    (Nat.mul_le_mul_right _ hon.2).trans (Nat.div_mul_le_self _ _)
  have hlt : (page + 1) * cfg.psz.size < (first + count + 1) * cfg.psz.size := by
    rw [Nat.add_mul (first + count), Nat.add_mul first, ← hfirst, ← hcount]
    omega
  have hle : page + 1 < first + count + 1 := Nat.lt_of_mul_lt_mul_right hlt
  have hge : first ≤ page := (le_firstPage hfirst (vaBase_le hmem)).trans hon.1
  left
  rw [pageOffset_of_aligned hfirst (vaBase_le hmem) hon, sizeAlign_of_half cfg.psz hhalf, hcount, ← Nat.succ_mul]
  exact Nat.mul_le_mul_right _ (by omega)

/-- The user pages of a new process lie in its own memory exactly when the pages of the segments fit. -/
theorem new_userPages {cfg : RvmCfg} {arch : Arch} {p : Profile} {krvm : Glacier} {env : ProcEnv} {elf : ElfFile}
    {fileBin : List Byte} {pcb : ProcCtrlBlk} {s s' : ProcRam}
    (hkernel : WellFormed cfg s.ram.mem krvm.rootTable) (hbits : 21 ≤ cfg.vaBits) (henv : Honest cfg krvm env s)
    (hhigh : hihalf cfg ≤ s.heapEnd) (hpage : cfg.psz.size ∣ s.heapEnd) (hlow : LowSegments cfg elf)
    (h : new cfg arch p krvm env elf fileBin s = (.ok pcb, s')) :
    ∃ procPtr stackPtr, pcb.physAlloc = [procPtr, stackPtr] ∧
      (UserPagesOwned cfg arch pcb s'.ram.mem ↔ PagesFit cfg elf procPtr.addr stackPtr.addr) := by
  obtain ⟨procPtr, stackPtr, hbuilt⟩ := new_built hkernel hbits henv hhigh hpage hlow h
  refine ⟨procPtr, stackPtr, hbuilt.owned, ?_, ?_⟩
  · intro howned page ph hstack hph
    have hlt : page * cfg.psz.size < 2 ^ (cfg.vaBits - 1) := hstack.trans_le (Nat.sub_le _ _)
    obtain ⟨hdouble, -, htop⟩ := cfg.half_pages
    have hnat : (BitVec.ofNat 64 (page * cfg.psz.size)).toNat = page * cfg.psz.size := toNat_ofNat_lt (by omega)
    have hdiv : (BitVec.ofNat 64 (page * cfg.psz.size)).toNat / cfg.psz.size = page := by
      rw [hnat, Nat.mul_div_cancel _ cfg.psz.size_pos]
    have hva : LowHalf cfg (BitVec.ofNat 64 (page * cfg.psz.size)) := by rwa [LowHalf, hnat]
    obtain ⟨w, hw, huser, haddr⟩ := hbuilt.segment_page hbits hva (by rwa [hdiv]) (by rwa [hdiv])
    obtain ⟨ptr, hptr, hle, hfin⟩ := howned _ hva w hw huser
    rw [haddr, hdiv] at hle hfin
    rw [hbuilt.owned] at hptr
    rcases List.mem_cons.mp hptr with rfl | hptr
    · rw [OwnedPtr.fin, hbuilt.procSize] at hfin
      left
      omega
    · obtain rfl := List.mem_singleton.mp hptr
      rw [OwnedPtr.fin, hbuilt.stackBytes] at hfin
      exact Or.inr ⟨hle, hfin⟩
  · intro hfit va hva w hw _
    rw [hbuilt.owned]
    by_cases hstack : stackVa cfg ≤ va.toNat / cfg.psz.size * cfg.psz.size
    · obtain ⟨w', hw', haddr, hfin⟩ := hbuilt.stack_page hbits hva hstack
      obtain rfl := Option.some.inj (hw.symm.trans hw')
      exact ⟨stackPtr, List.mem_cons_of_mem _ List.mem_cons_self, haddr ▸ Nat.le_add_right _ _, hfin⟩
    · have hlt := Nat.lt_of_not_le hstack
      cases hph : segmentAt cfg elf.loads (va.toNat / cfg.psz.size) with
      | none =>
          rw [hbuilt.walk_eq hbits hva, if_neg hstack, hph] at hw
          cases hw
      | some ph =>
          obtain ⟨w', hw', -, haddr⟩ := hbuilt.segment_page hbits hva hlt hph
          obtain rfl := Option.some.inj (hw.symm.trans hw')
          rw [haddr]
          rcases hfit _ ph hlt hph with hin | ⟨hle, hin⟩
          · refine ⟨procPtr, List.mem_cons_self, Nat.le_add_right _ _, ?_⟩
            rw [OwnedPtr.fin, hbuilt.procSize]
            omega
          · refine ⟨stackPtr, List.mem_cons_of_mem _ List.mem_cons_self, hle, ?_⟩
            rw [OwnedPtr.fin, hbuilt.stackBytes]
            exact hin

theorem new_userPages_narrow : UserPagesOwned narrowCfg .aarch64 narrowPcb narrowRun.2.ram.mem := by
  obtain ⟨procPtr, stackPtr, -, hiff⟩ := @new_userPages narrowCfg _ _ bootGlacier narrowEnv plainElf _ _
    (bootRam narrowCfg) _ (by decide +kernel) (by decide) honest_narrowEnv (by decide) (by decide) (by decide)
    narrowRun_eq
  exact hiff.mpr (pagesFit_of_aligned (by decide) (by decide) _ _)

/-- One segment of sixteen bytes. -/
def smallElf : ElfFile := ⟨0x400000, [⟨true, 0, 0x400000, 4, 0x10, 0b101⟩]⟩

def smallPcb : ProcCtrlBlk where
  glacier := ⟨0x40000, true⟩
  kstack := ⟨0xffff800000100000, 0x0060000005000000⟩
  physAlloc := [⟨0x20000000, 0x10⟩, ⟨0x40000000, 0x100000⟩]
  vramMap := [⟨0x400000, 0x20000000, 0x10, Arch.aarch64.mapFlag .uRox⟩,
    ⟨0x7ffffff00000, 0x40000000, 0x100000, Arch.aarch64.mapFlag .uRwo⟩]
  pc := 0x400000
  sp := 0x800000000000

/-- Sixteen bytes are allocated for it, and the whole page around them is mapped. -/
theorem new_userPages_small : LowSegments wideCfg smallElf ∧
    (boot wideCfg (fun _ => []) smallElf).1 = .ok smallPcb ∧
    walk wideCfg (boot wideCfg (fun _ => []) smallElf).2.ram.mem smallPcb.glacier.rootTable 0x400000 =
      some (0x20000000 ||| Arch.aarch64.mapFlag .uRox) ∧
    ¬UserPagesOwned wideCfg .aarch64 smallPcb (boot wideCfg (fun _ => []) smallElf).2.ram.mem := by
  have hwalk : walk wideCfg (boot wideCfg (fun _ => []) smallElf).2.ram.mem smallPcb.glacier.rootTable 0x400000 =
      some (0x20000000 ||| Arch.aarch64.mapFlag .uRox) := by decide +kernel
  refine ⟨by decide, by decide +kernel, hwalk, fun howned => ?_⟩
  have hout : ¬∃ ptr ∈ smallPcb.physAlloc, ptr.addr ≤ 0x20000000 ∧ 0x20000000 + 0x10000 ≤ ptr.fin := by decide
  exact hout (howned 0x400000 (by decide) _ hwalk (by decide))

end ProcCtrlBlk

end UnixKernel
