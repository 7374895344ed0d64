import UnixKernel.GlacierRange

/-! `ProcCtrlBlk::new` of `proc/ctrlblk.rs`, with `KernelStack::new` of `proc/kstack.rs` and the growing of the
kernel heap in `ram/mod.rs`. The buffer with the file and the headers that `xmas_elf` finds in it are given.
Physical memory is kept in two parts, the entries of the page tables and the bytes of the pages handed out for
data; the allocator never hands out one page for both. -/

namespace UnixKernel

open Glacier Radix

/-- The fields of a program header; `isLoad` is `get_type() == Ok(Type::Load)`. -/
structure ProgramHeader where
  isLoad : Bool
  offset : Word
  virtualAddr : Word
  fileSize : Word
  memSize : Word
  flags : BitVec 32
  deriving DecidableEq, Repr

structure ElfFile where
  entryPoint : Word
  programs : List ProgramHeader
  deriving DecidableEq, Repr

structure VRamMap where
  va : Nat
  pa : Nat
  size : Nat
  flags : Word
  deriving DecidableEq, Repr

/-- `KernelStack`: where its buffer starts, and the page it took out of the kernel's tables there. -/
structure KernelStack where
  buf : Word
  pa : Word
  deriving DecidableEq, Repr

/-- `ProcCtrlBlk`, with the two registers of `ctxt` that are set. -/
structure ProcCtrlBlk where
  glacier : Glacier
  kstack : KernelStack
  physAlloc : List OwnedPtr
  vramMap : List VRamMap
  pc : Nat
  sp : Nat
  deriving DecidableEq, Repr

/-- An `Err`, a panic, a wait for a lock that the waiting code holds itself, or null given back to the heap. -/
inductive BuildStop where
  | err (msg : String)
  | panic
  | deadlock
  | freesNull
  deriving DecidableEq, Repr

/-- The tables, the bytes, and `khh.base() + khh.size()`, the end of the kernel heap. -/
structure ProcRam where
  ram : Ram
  bytes : Nat → Byte
  heapEnd : Nat

abbrev BuildM := Eff ProcRam BuildStop

/-- What `alloc_zeroed` does for the buffer of a kernel stack: there is a block for it, or the heap has to be enlarged,
or there is no memory to enlarge it with. -/
inductive StackBuf where
  | block (va : Word)
  | grows
  | null

/-- The answers of the allocators: the root table and the other tables of a process, memory for data, what the
heap has to be enlarged by before its next allocation, and the buffer of a kernel stack. -/
structure ProcEnv where
  root : Option Word
  tablePages : TableAlloc
  alloc : ProcRam → AllocParams → Option OwnedPtr
  grow : ProcRam → List OwnedPtr
  stackBuf : ProcRam → StackBuf

/-- The LOAD headers. -/
def ElfFile.loads (elf : ElfFile) : List ProgramHeader := elf.programs.filter (·.isLoad)

/-- The flags of a segment. -/
def segFlag (flags : BitVec 32) : MapFlag :=
  if flags = 0b100 then .uRoo
  else if flags = 0b101 then .uRox
  else if flags = 0b110 then .uRwo
  else if flags = 0b111 then .uRwx
  else .uRwo

/-- `stack_size` of a user stack. -/
@[irreducible]
def stackSize : Nat := 0x100000

namespace ProcCtrlBlk

variable (cfg : RvmCfg) (arch : Arch) (p : Profile) (krvm : Glacier) (env : ProcEnv)

/-- `Option::unwrap`. -/
def unwrap {α : Type} (x : Option α) : Except BuildStop α := x.elim (.error .panic) .ok

/-- `get_proc_vaset`. -/
def getProcVaset (elf : ElfFile) : Except BuildStop (Nat × Nat) := do
  let vaBase ← unwrap (elf.loads.map (·.virtualAddr.toNat)).min?
  let ends ← elf.loads.mapM fun ph => p.fit .panic 64 (ph.virtualAddr.toNat + ph.memSize.toNat : Nat)
  let vaTop ← unwrap ends.max?
  pure (vaBase, vaTop)

/-- A call on the page tables; `failed` is what becomes of its error. -/
def onRam (m : Eff Ram RangeStop Unit) (failed : Except BuildStop Unit) : BuildM Unit := fun s =>
  match m s.ram with
  | (.ok (), r) => (.ok (), { s with ram := r })
  | (.error (.failed _), r) => (failed, { s with ram := r })
  | (.error .panic, r) => (.error .panic, { s with ram := r })

/-- `PHYS_ALLOC.alloc(..).ok_or(msg)`. -/
def allocOr (args : AllocParams) (msg : String) : BuildM OwnedPtr := fun s =>
  match env.alloc s args with
  | some ptr => (.ok ptr, s)
  | none => (.error (.err msg), s)

/-- The part of `handle_oom` for one chunk that `PHYS_ALLOC` gave; the result of `map_range` is not looked at. -/
def growBy (chunk : OwnedPtr) : BuildM Unit := fun s =>
  (do
    onRam (mapRange cfg arch p krvm env.tablePages s.heapEnd chunk.addr chunk.size (arch.mapFlag .kRwo)) (.ok ())
    onRam (unmapRange cfg p krvm chunk.addr chunk.size) (.ok ())
    fun s => (.ok (), { s with heapEnd := s.heapEnd + chunk.size }) : BuildM Unit) s

def growAll : List OwnedPtr → BuildM Unit
  | [] => pure ()
  | chunk :: chunks => do
      growBy cfg arch p krvm env chunk
      growAll chunks

/-- An allocation on the kernel heap, for its effect on the page tables. -/
def heapAlloc : BuildM Unit := fun s => growAll cfg arch p krvm env (env.grow s) s

def newGlacier : BuildM Glacier := fun s =>
  match Glacier.new cfg krvm env.root s.ram with
  | .ok (g, r) => (.ok g, { s with ram := r })
  | .error _ => (.error .panic, s)

/-- `phys_ptr.write_bytes(0, size)`. -/
def clearBytes (addr size : Nat) : BuildM Unit := fun s =>
  (.ok (), { s with bytes := fun a => if addr ≤ a ∧ a < addr + size then 0 else s.bytes a })

/-- `copy_to(phys_ptr, size)` from the buffer. -/
def copyBytes (fileBin : List Byte) (offset addr size : Nat) : BuildM Unit := fun s =>
  (.ok (), { s with bytes := fun a =>
    if addr ≤ a ∧ a < addr + size then fileBin.getD (offset + (a - addr)) 0 else s.bytes a })

/-- One round of the loop over the headers. -/
def loadSegment (glacier : Glacier) (fileBin : List Byte) (procAddr vaBase : Nat) (ph : ProgramHeader) :
    BuildM VRamMap := do
  let offset := ph.offset.toNat
  let fileSize := ph.fileSize.toNat
  let memSize := ph.memSize.toNat
  let virtAddr := ph.virtualAddr.toNat
  let fromBase ← Eff.lift (p.fit .panic 64 ((virtAddr : Int) - vaBase))
  let physAddr ← Eff.lift (p.fit .panic 64 (procAddr + fromBase : Nat))
  let flags := arch.mapFlag (segFlag ph.flags)
  onRam (mapRange cfg arch p glacier env.tablePages virtAddr physAddr memSize flags)
    (.error (.err "Failed to map process"))
  heapAlloc cfg arch p krvm env
  clearBytes physAddr memSize
  let fileEnd ← Eff.lift (p.fit .panic 64 (offset + fileSize : Nat))
  Eff.lift (ensure (offset ≤ fileEnd ∧ fileEnd ≤ fileBin.length) .panic)
  copyBytes fileBin offset physAddr fileSize
  pure ⟨virtAddr, physAddr, memSize, flags⟩

def loadSegments (glacier : Glacier) (fileBin : List Byte) (procAddr vaBase : Nat) :
    List ProgramHeader → BuildM (List VRamMap)
  | [] => pure []
  | ph :: phs => do
      let map ← loadSegment cfg arch p krvm env glacier fileBin procAddr vaBase ph
      let maps ← loadSegments glacier fileBin procAddr vaBase phs
      pure (map :: maps)

/-- The first page of the buffer is taken out of the kernel's tables; `missing` is what becomes of one that is not in
them. -/
def takeGuard (va : Word) (missing : BuildStop) : BuildM KernelStack := fun s =>
  match getPa cfg krvm va s.ram with
  | some pa => (.ok ⟨va, pa⟩, { s with ram := unmapPage cfg krvm va s.ram })
  | none => (.error missing, s)

/-- `KernelStack::new`. It holds the lock of `GLACIER`, which a growing heap would wait for. Null is taken for a
buffer, but a build with debug assertions refuses the slice that `as_ptr` is called on. -/
def newKernelStack : BuildM KernelStack := fun s =>
  match env.stackBuf s with
  | .block va => takeGuard cfg krvm va (.err "Failed to create kernel stack") s
  | .grows => (.error .deadlock, s)
  | .null =>
    match p with
    | .dev => (.error .panic, s)
    | .release => takeGuard cfg krvm 0 .freesNull s

/-- `0usize.wrapping_sub(hihalf())`. -/
def lohalfTop : Nat := (2 ^ 64 - hihalf cfg) % 2 ^ 64

/-- The part of `new` that makes the user stack. -/
def mapStack (glacier : Glacier) : BuildM (OwnedPtr × VRamMap) := do
  let stackPtr ← allocOr env (.new cfg.psz stackSize) "Failed to allocate user stack"
  let stackVa ← Eff.lift (p.fit .panic 64 ((lohalfTop cfg : Int) - stackSize))
  onRam (mapRange cfg arch p glacier env.tablePages stackVa stackPtr.addr stackSize (arch.mapFlag .uRwo))
    (.error (.err "Failed to map user stack"))
  pure (stackPtr, ⟨stackVa, stackPtr.addr, stackSize, arch.mapFlag .uRwo⟩)

/-- `new`, from the read and parsed file on. -/
def new (elf : ElfFile) (fileBin : List Byte) : BuildM ProcCtrlBlk := do
  let glacier ← newGlacier cfg krvm env
  let (vaBase, vaTop) ← Eff.lift (getProcVaset p elf)
  let procSize ← Eff.lift (p.fit .panic 64 ((vaTop : Int) - vaBase))
  let procPtr ← allocOr env (.new cfg.psz procSize) "Failed to allocate process memory"
  heapAlloc cfg arch p krvm env
  let maps ← loadSegments cfg arch p krvm env glacier fileBin procPtr.addr vaBase elf.loads
  let (stackPtr, stackMap) ← mapStack cfg arch p env glacier
  heapAlloc cfg arch p krvm env
  heapAlloc cfg arch p krvm env
  let kstack ← newKernelStack cfg p krvm env
  heapAlloc cfg arch p krvm env
  pure
    { glacier
      kstack
      physAlloc := [procPtr, stackPtr]
      vramMap := maps ++ [stackMap]
      pc := elf.entryPoint.toNat
      sp := lohalfTop cfg }

/-! ### What is asked of the allocators -/

/-- Tables are aligned pages that are not in use; memory is aligned as requested, rounded up in size and short of
the last page that 52 bits can name; chunks for the heap are whole pages that lie where the kernel maps physical
memory, and the heap does not reach the end of the address space; a pointer into the heap is an address. -/
structure Honest (s : ProcRam) : Prop where
  root : ∀ root, env.root = some root → Aligned cfg root ∧ root ∉ tables cfg s.ram.mem krvm.rootTable
  tablePages : ∀ root, env.root = some root → HonestTables cfg krvm root env.tablePages
  alloc : ∀ s args ptr, env.alloc s args = some ptr → ptr.size = sizeAlign cfg.psz args.size ∧
    args.align ∣ ptr.addr ∧ ptr.fin + cfg.psz.size ≤ 2 ^ 52
  chunks : ∀ s, ∀ chunk ∈ env.grow s, cfg.psz.size ∣ chunk.addr ∧ cfg.psz.size ∣ chunk.size ∧
    chunk.fin ≤ 2 ^ (cfg.vaBits - 1)
  room : ∀ s, env.grow s ≠ [] → s.heapEnd + ((env.grow s).map (·.size)).sum + cfg.psz.size < 2 ^ 64
  stackBuf : ∀ s va, env.stackBuf s = .block va → cfg.Canonical va

/-- The segments lie in the lower half. -/
def LowSegments (elf : ElfFile) : Prop :=
  ∀ ph ∈ elf.loads, ph.virtualAddr.toNat + ph.memSize.toNat ≤ 2 ^ (cfg.vaBits - 1)

instance (elf : ElfFile) : Decidable (LowSegments cfg elf) := List.decidableBAll _ _

section Steps

variable {cfg arch p krvm env} {g : Glacier} {e₀ : Nat → Word}

/-! ### The kernel's side -/

theorem onRam_state {m : Eff Ram RangeStop Unit} {failed x : Except BuildStop Unit} {s s' : ProcRam}
    (h : onRam m failed s = (x, s')) :
    (m s.ram).2 = s'.ram ∧ s'.bytes = s.bytes ∧ s'.heapEnd = s.heapEnd := by
  unfold onRam at h
  split at h <;> rename_i hm <;> cases h <;> exact ⟨congrArg Prod.snd hm, rfl, rfl⟩

theorem onRam_eq_ok {m : Eff Ram RangeStop Unit} {e : BuildStop} {s s' : ProcRam}
    (h : onRam m (.error e) s = (.ok (), s')) : ∃ r, m s.ram = (.ok (), r) ∧ s' = { s with ram := r } := by
  unfold onRam at h
  split at h
  · rename_i r hm
    cases h
    exact ⟨r, hm, rfl⟩
  · cases h
  · cases h

variable (cfg krvm g e₀) in
/-- The trees are apart, and the heap ends with a page of the upper half. -/
structure Steady (s : ProcRam) : Prop where
  shared : Shared cfg krvm g e₀ s.ram.mem
  high : hihalf cfg ≤ s.heapEnd
  page : cfg.psz.size ∣ s.heapEnd

variable (cfg) in
/-- A page of the heap between two of its ends, or of the lower half. -/
def Gained (lo hi page : Nat) : Prop :=
  lo ≤ page * cfg.psz.size ∧ page * cfg.psz.size < hi ∨ (page + 1) * cfg.psz.size ≤ 2 ^ (cfg.vaBits - 1)

variable (cfg krvm g e₀) in
/-- What the kernel does for itself: its tables change where the heap grows, and in the lower half. -/
structure HeapStep (s s' : ProcRam) : Prop where
  steady : Steady cfg krvm g e₀ s'
  grown : s.heapEnd ≤ s'.heapEnd
  effect : KernelEffect cfg krvm g (Gained cfg s.heapEnd s'.heapEnd) s.ram.mem s'.ram.mem
  bytes : s'.bytes = s.bytes

theorem HeapStep.refl {s : ProcRam} (h : Steady cfg krvm g e₀ s) : HeapStep cfg krvm g e₀ s s :=
  ⟨h, le_refl _, .refl _ _, rfl⟩

theorem HeapStep.trans {s s₁ s' : ProcRam} (h : HeapStep cfg krvm g e₀ s s₁) (h' : HeapStep cfg krvm g e₀ s₁ s') :
    HeapStep cfg krvm g e₀ s s' := by
  refine ⟨h'.steady, h.grown.trans h'.grown, ?_, h'.bytes.trans h.bytes⟩
  apply KernelEffect.trans
  · exact h.effect.mono fun page hpage => hpage.imp_left fun hin => ⟨hin.1, hin.2.trans_le h'.grown⟩
  · exact h'.effect.mono fun page hpage => hpage.imp_left fun hin => ⟨h.grown.trans hin.1, hin.2⟩

theorem growBy_step {chunk : OwnedPtr} {s s' : ProcRam} (halloc : HonestTables cfg krvm g.rootTable env.tablePages)
    (haddr : cfg.psz.size ∣ chunk.addr) (hsize : cfg.psz.size ∣ chunk.size) (hlow : chunk.fin ≤ 2 ^ (cfg.vaBits - 1))
    (hroom : s.heapEnd + chunk.size + cfg.psz.size < 2 ^ 64) (hs : Steady cfg krvm g e₀ s)
    (h : growBy cfg arch p krvm env chunk s = (.ok (), s')) :
    HeapStep cfg krvm g e₀ s s' ∧ s'.heapEnd = s.heapEnd + chunk.size := by
  obtain ⟨first, hfirst⟩ := hs.page
  obtain ⟨frame, hframe⟩ := haddr
  obtain ⟨count, hcount⟩ := hsize
  rw [Nat.mul_comm] at hfirst hframe hcount
  unfold OwnedPtr.fin at hlow
  obtain ⟨_, s₁, h₁, h⟩ := Eff.bind_eq_ok.mp h
  obtain ⟨_, s₂, h₂, h⟩ := Eff.bind_eq_ok.mp h
  obtain ⟨hram₁, hbytes₁, hend₁⟩ := onRam_state h₁
  obtain ⟨hram₂, hbytes₂, hend₂⟩ := onRam_state h₂
  have htop : (first + count + 1) * cfg.psz.size < 2 ^ 64 := by
    rw [Nat.add_mul, Nat.add_mul, ← hfirst, ← hcount, Nat.one_mul]
    exact hroom
  have hlow' : (frame + count) * cfg.psz.size ≤ 2 ^ (cfg.vaBits - 1) := by
    rw [Nat.add_mul, ← hframe, ← hcount]
    exact hlow
  obtain ⟨hshared₁, heffect₁⟩ := @Shared.mapRange_kernel cfg arch p krvm g e₀ env.tablePages first count chunk.addr
    (arch.mapFlag .kRwo) halloc (hfirst ▸ hs.high) htop s.ram hs.shared
  rw [← hfirst, ← hcount, hram₁] at hshared₁ heffect₁
  obtain ⟨hshared₂, heffect₂⟩ := @Shared.unmapRange_kernel cfg p krvm g e₀ frame count hlow' s₁.ram hshared₁
  rw [← hframe, ← hcount, hram₂] at hshared₂ heffect₂
  have hend : s₂.heapEnd = s.heapEnd := hend₂.trans hend₁
  cases h
  refine ⟨⟨⟨hshared₂, ?_, ?_⟩, ?_, ?_, hbytes₂.trans hbytes₁⟩, ?_⟩
  · exact hs.high.trans (hend ▸ Nat.le_add_right _ _)
  · exact (Nat.dvd_add_right (hend ▸ hs.page)).mpr ⟨count, by rw [hcount, Nat.mul_comm]⟩
  · exact hend ▸ Nat.le_add_right _ _
  · apply KernelEffect.trans
    · apply heffect₁.mono
      rintro page ⟨hlo, hhi⟩
      left
      show s.heapEnd ≤ _ ∧ _ < s₂.heapEnd + chunk.size
      rw [hend, hfirst, hcount, ← Nat.add_mul]
      exact ⟨Nat.mul_le_mul_right _ hlo, Nat.mul_lt_mul_of_pos_right hhi cfg.psz.size_pos⟩
    · exact heffect₂.mono fun page hpage => Or.inr hpage
  · show s₂.heapEnd + chunk.size = _
    rw [hend]

theorem growAll_step {chunks : List OwnedPtr} {s s' : ProcRam}
    (halloc : HonestTables cfg krvm g.rootTable env.tablePages)
    (hchunks : ∀ chunk ∈ chunks, cfg.psz.size ∣ chunk.addr ∧ cfg.psz.size ∣ chunk.size ∧
      chunk.fin ≤ 2 ^ (cfg.vaBits - 1))
    (hroom : chunks ≠ [] → s.heapEnd + (chunks.map (·.size)).sum + cfg.psz.size < 2 ^ 64)
    (hs : Steady cfg krvm g e₀ s) (h : growAll cfg arch p krvm env chunks s = (.ok (), s')) :
    HeapStep cfg krvm g e₀ s s' := by
  induction chunks generalizing s with
  | nil =>
      cases h
      exact .refl hs
  | cons chunk chunks ih =>
      have hroom := hroom (List.cons_ne_nil chunk chunks)
      rw [List.map_cons, List.sum_cons] at hroom
      obtain ⟨_, s₁, h₁, h⟩ := Eff.bind_eq_ok.mp h
      obtain ⟨haddr, hsize, hlow⟩ := hchunks chunk List.mem_cons_self
      obtain ⟨hstep, hend⟩ := growBy_step halloc haddr hsize hlow (by omega) hs h₁
      refine hstep.trans (ih (fun c hc => hchunks c (List.mem_cons_of_mem chunk hc)) ?_ hstep.steady h)
      intro _
      omega

theorem heapAlloc_step {s₀ s s' : ProcRam} (henv : Honest cfg krvm env s₀)
    (halloc : HonestTables cfg krvm g.rootTable env.tablePages) (hs : Steady cfg krvm g e₀ s)
    (h : heapAlloc cfg arch p krvm env s = (.ok (), s')) : HeapStep cfg krvm g e₀ s s' :=
  growAll_step halloc (henv.chunks s) (henv.room s) hs h

/-! ### The building of a process -/

variable (cfg krvm g e₀) in
/-- From one state to a later one: the kernel's upper translations stay except where the heap grew, and the
process has mapped `space` in the lower half. -/
structure Progress (s s' : ProcRam) (space : Space) : Prop where
  steady : Steady cfg krvm g e₀ s'
  grown : s.heapEnd ≤ s'.heapEnd
  kernel : ∀ va : Word, hihalf cfg ≤ va.toNat → ¬(s.heapEnd ≤ va.toNat ∧ va.toNat < s'.heapEnd) →
    walk cfg s'.ram.mem krvm.rootTable va = walk cfg s.ram.mem krvm.rootTable va
  low : ∀ va, LowHalf cfg va → walk cfg s'.ram.mem g.rootTable va =
    ((space (va.toNat / cfg.psz.size)).map (leafWord cfg)).or (walk cfg s.ram.mem g.rootTable va)

theorem not_gained {lo hi : Nat} {va : Word} (hhi : cfg.psz.size ∣ hi)
    (hva : hihalf cfg ≤ va.toNat) (hout : ¬(lo ≤ va.toNat ∧ va.toNat < hi)) :
    ¬Gained cfg lo hi (va.toNat / cfg.psz.size) := by
  have hpos := cfg.psz.size_pos
  have hle := Nat.div_mul_le_self va.toNat cfg.psz.size
  have hlt := Nat.lt_div_mul_add (a := va.toNat) hpos
  rintro (⟨hfrom, hto⟩ | hlow)
  · refine hout ⟨hfrom.trans hle, hlt.trans_le ?_⟩
    -- the heap ends with a page
    obtain ⟨last, rfl⟩ := hhi
    rw [Nat.mul_comm cfg.psz.size] at hto ⊢
    rw [← Nat.succ_mul]
    exact Nat.mul_le_mul_right _ (Nat.succ_le_of_lt (Nat.lt_of_mul_lt_mul_right hto))
  · obtain ⟨hdouble, -, htop⟩ := cfg.half_pages
    rw [Nat.succ_mul] at hlow
    unfold hihalf at hva
    omega

theorem HeapStep.progress {s s' : ProcRam} (h : HeapStep cfg krvm g e₀ s s') :
    Progress cfg krvm g e₀ s s' fun _ => none where
  steady := h.steady
  grown := h.grown
  kernel va hva hout := h.effect.other va (.inr hva) (not_gained h.steady.page hva hout)
  low va hva := h.effect.low va hva

/-- One space over another. -/
def overlay (late early : Space) : Space := fun page => (late page).or (early page)

theorem Progress.trans {s s₁ s' : ProcRam} {early late : Space} (h : Progress cfg krvm g e₀ s s₁ early)
    (h' : Progress cfg krvm g e₀ s₁ s' late) : Progress cfg krvm g e₀ s s' (overlay late early) where
  steady := h'.steady
  grown := h.grown.trans h'.grown
  kernel va hva hout := by
    rw [h'.kernel va hva fun hin => hout ⟨h.grown.trans hin.1, hin.2⟩,
      h.kernel va hva fun hin => hout ⟨hin.1, hin.2.trans_le h'.grown⟩]
  low va hva := by
    rw [h'.low va hva, h.low va hva, ← Option.or_assoc, overlay, Option.map_or]

theorem Steady.mapRange {s : ProcRam} {va pa size : Nat} {flags : Word} {r : Ram}
    (halloc : HonestTables cfg krvm g.rootTable env.tablePages) (hflags : flags &&& flagValid ≠ 0)
    (hlow : va + size ≤ 2 ^ (cfg.vaBits - 1)) (hpa : pa + size < 2 ^ 63) (hs : Steady cfg krvm g e₀ s)
    (h : Glacier.mapRange cfg arch p g env.tablePages va pa size flags s.ram = (.ok (), r)) :
    Progress cfg krvm g e₀ s { s with ram := r } (rangeSpace cfg va pa size flags) := by
  obtain ⟨hshared, hkernel, hwalk⟩ := hs.shared.mapRange_low halloc hflags hlow hpa h
  exact ⟨⟨hshared, hs.high, hs.page⟩, le_refl _, fun va _ _ => hkernel va, hwalk rfl⟩

/-- The bytes of a segment, written at its place. -/
def segmentBytes (fileBin : List Byte) (addr : Nat) (ph : ProgramHeader) (bytes : Nat → Byte) : Nat → Byte :=
  fun a =>
    if addr ≤ a ∧ a < addr + ph.fileSize.toNat then fileBin.getD (ph.offset.toNat + (a - addr)) 0
    else if addr ≤ a ∧ a < addr + ph.memSize.toNat then 0
    else bytes a

/-- The map of a segment. -/
def segmentMap (arch : Arch) (procAddr vaBase : Nat) (ph : ProgramHeader) : VRamMap :=
  ⟨ph.virtualAddr.toNat, procAddr + (ph.virtualAddr.toNat - vaBase), ph.memSize.toNat,
    arch.mapFlag (segFlag ph.flags)⟩

/-- What a map in the list maps. -/
def mapSpace (cfg : RvmCfg) (m : VRamMap) : Space := rangeSpace cfg m.va m.pa m.size m.flags

/-- A segment that has its place in the memory of the process. -/
structure InPlace (cfg : RvmCfg) (procAddr vaBase : Nat) (ph : ProgramHeader) : Prop where
  base : vaBase ≤ ph.virtualAddr.toNat
  low : ph.virtualAddr.toNat + ph.memSize.toNat ≤ 2 ^ (cfg.vaBits - 1)
  place : procAddr + (ph.virtualAddr.toNat - vaBase) + ph.memSize.toNat ≤ 2 ^ 52

theorem loadSegment_progress {s₀ s s' : ProcRam} {fileBin : List Byte} {procAddr vaBase : Nat} {ph : ProgramHeader}
    {m : VRamMap} (henv : Honest cfg krvm env s₀) (halloc : HonestTables cfg krvm g.rootTable env.tablePages)
    (hph : InPlace cfg procAddr vaBase ph) (hs : Steady cfg krvm g e₀ s)
    (h : loadSegment cfg arch p krvm env g fileBin procAddr vaBase ph s = (.ok m, s')) :
    m = segmentMap arch procAddr vaBase ph ∧ Progress cfg krvm g e₀ s s' (mapSpace cfg m) ∧
    s'.bytes = segmentBytes fileBin m.pa ph s.bytes ∧
    ph.offset.toNat + ph.fileSize.toNat ≤ fileBin.length := by
  obtain ⟨hbase, hlow, hplace⟩ := hph
  have hfrom : p.fit BuildStop.panic 64 ((ph.virtualAddr.toNat : Int) - vaBase) =
      .ok (ph.virtualAddr.toNat - vaBase) := Profile.fit_sub hbase ph.virtualAddr.isLt
  have hphys : p.fit BuildStop.panic 64 (procAddr + (ph.virtualAddr.toNat - vaBase) : Nat) =
      .ok (procAddr + (ph.virtualAddr.toNat - vaBase)) := Profile.fit_of_lt (by omega)
  unfold loadSegment at h
  rw [hfrom, Eff.lift_ok_bind, hphys, Eff.lift_ok_bind] at h
  obtain ⟨_, s₁, hmap, h⟩ := Eff.bind_eq_ok.mp h
  obtain ⟨_, s₂, hheap, h⟩ := Eff.bind_eq_ok.mp h
  obtain ⟨_, s₃, hclear, h⟩ := Eff.bind_eq_ok.mp h
  obtain ⟨fileEnd, s₄, hend, h⟩ := Eff.bind_eq_ok.mp h
  obtain ⟨_, s₅, hensure, h⟩ := Eff.bind_eq_ok.mp h
  obtain ⟨_, s₆, hcopy, h⟩ := Eff.bind_eq_ok.mp h
  obtain ⟨r, hrange, rfl⟩ := onRam_eq_ok hmap
  obtain ⟨hfit, rfl⟩ := Eff.lift_eq_ok hend
  obtain ⟨hinside, rfl⟩ := Eff.lift_eq_ok hensure
  obtain ⟨hstart, hstop⟩ := ensure_eq_ok.mp hinside
  cases hclear
  cases hcopy
  cases h
  have hmapped := hs.mapRange halloc (mapFlag_valid arch _) hlow (by omega) hrange
  have hstep := heapAlloc_step henv halloc hmapped.steady hheap
  obtain ⟨⟨hshared, hhigh, hpage⟩, hgrown, hkernel, hwalk⟩ := hmapped.trans hstep.progress
  refine ⟨rfl, ⟨⟨hshared, hhigh, hpage⟩, hgrown, hkernel, hwalk⟩, ?_, ?_⟩
  · funext a
    exact congrArg (fun bytes => segmentBytes fileBin _ ph bytes a) hstep.bytes
  · exact Profile.eq_add_of_fit ph.fileSize.isLt hfit hstart ▸ hstop

/-- What a list of maps maps; a later map lies over the earlier ones. -/
def spaceOf (cfg : RvmCfg) : List VRamMap → Space
  | [] => fun _ => none
  | m :: maps => overlay (spaceOf cfg maps) (mapSpace cfg m)

/-- The bytes after all segments. -/
def imageBytes (arch : Arch) (fileBin : List Byte) (procAddr vaBase : Nat) (phs : List ProgramHeader)
    (bytes : Nat → Byte) : Nat → Byte :=
  phs.foldl (fun bytes ph => segmentBytes fileBin (segmentMap arch procAddr vaBase ph).pa ph bytes) bytes

theorem loadSegments_progress {s₀ s s' : ProcRam} {fileBin : List Byte} {procAddr vaBase : Nat}
    {phs : List ProgramHeader} {maps : List VRamMap} (henv : Honest cfg krvm env s₀)
    (halloc : HonestTables cfg krvm g.rootTable env.tablePages) (hphs : ∀ ph ∈ phs, InPlace cfg procAddr vaBase ph)
    (hs : Steady cfg krvm g e₀ s)
    (h : loadSegments cfg arch p krvm env g fileBin procAddr vaBase phs s = (.ok maps, s')) :
    maps = phs.map (segmentMap arch procAddr vaBase) ∧ Progress cfg krvm g e₀ s s' (spaceOf cfg maps) ∧
    s'.bytes = imageBytes arch fileBin procAddr vaBase phs s.bytes ∧
    ∀ ph ∈ phs, ph.offset.toNat + ph.fileSize.toNat ≤ fileBin.length := by
  induction phs generalizing s maps with
  | nil =>
      cases h
      exact ⟨rfl, (HeapStep.refl hs).progress, rfl, fun ph hph => absurd hph List.not_mem_nil⟩
  | cons ph phs ih =>
      obtain ⟨m, s₁, hload, h⟩ := Eff.bind_eq_ok.mp h
      obtain ⟨ms, s₂, hloads, h⟩ := Eff.bind_eq_ok.mp h
      cases h
      obtain ⟨rfl, hprogress, hbytes, hfile⟩ :=
        loadSegment_progress henv halloc (hphs ph List.mem_cons_self) hs hload
      obtain ⟨rfl, hprogress', hbytes', hfiles⟩ :=
        ih (fun q hq => hphs q (List.mem_cons_of_mem ph hq)) hprogress.steady hloads
      refine ⟨rfl, hprogress.trans hprogress', ?_, ?_⟩
      · rw [hbytes', hbytes]
        rfl
      · intro q hq
        rcases List.mem_cons.mp hq with rfl | hq
        · exact hfile
        · exact hfiles q hq

/-! ### The addresses of a process -/

/-- The lowest address of a segment. -/
def vaBase (elf : ElfFile) : Nat := (elf.loads.map (·.virtualAddr.toNat)).min?.getD 0

/-- The highest end of a segment. -/
def vaTop (elf : ElfFile) : Nat := (elf.loads.map fun ph => ph.virtualAddr.toNat + ph.memSize.toNat).max?.getD 0

theorem vaBase_le {elf : ElfFile} {ph : ProgramHeader} (hph : ph ∈ elf.loads) : vaBase elf ≤ ph.virtualAddr.toNat := by
  have hmem : ph.virtualAddr.toNat ∈ elf.loads.map (·.virtualAddr.toNat) := List.mem_map_of_mem hph
  obtain ⟨lo, hlo⟩ := Option.isSome_iff_exists.mp (List.isSome_min?_of_mem hmem)
  rw [vaBase, hlo, Option.getD_some]
  exact (List.min?_eq_some_iff.mp hlo).2 _ hmem

theorem le_vaTop {elf : ElfFile} {ph : ProgramHeader} (hph : ph ∈ elf.loads) :
    ph.virtualAddr.toNat + ph.memSize.toNat ≤ vaTop elf := by
  have hmem : ph.virtualAddr.toNat + ph.memSize.toNat ∈
      elf.loads.map fun ph => ph.virtualAddr.toNat + ph.memSize.toNat := List.mem_map.mpr ⟨ph, hph, rfl⟩
  obtain ⟨hi, hhi⟩ := Option.isSome_iff_exists.mp (List.isSome_max?_of_mem hmem)
  rw [vaTop, hhi, Option.getD_some]
  exact (List.max?_eq_some_iff.mp hhi).2 _ hmem

theorem vaTop_le {elf : ElfFile} {bound : Nat}
    (h : ∀ ph ∈ elf.loads, ph.virtualAddr.toNat + ph.memSize.toNat ≤ bound) : vaTop elf ≤ bound := by
  unfold vaTop
  cases hmax : (elf.loads.map fun ph => ph.virtualAddr.toNat + ph.memSize.toNat).max? with
  | none => exact Nat.zero_le bound
  | some hi =>
      obtain ⟨ph, hph, rfl⟩ := List.mem_map.mp (List.max?_eq_some_iff.mp hmax).1
      exact h ph hph

/-- Where no end of a segment overflows, the bounds are found if there is a segment. -/
theorem getProcVaset_eq_ok_iff {elf : ElfFile} {lo hi : Nat}
    (hfits : ∀ ph ∈ elf.loads, ph.virtualAddr.toNat + ph.memSize.toNat < 2 ^ 64) :
    getProcVaset p elf = .ok (lo, hi) ↔ elf.loads ≠ [] ∧ lo = vaBase elf ∧ hi = vaTop elf := by
  by_cases hnil : elf.loads = []
  · have hstop : getProcVaset p elf = .error .panic := by
      unfold getProcVaset
      rw [hnil]
      rfl
    rw [hstop]
    exact iff_of_false nofun fun h => h.1 hnil
  obtain ⟨ph, hph⟩ := List.exists_mem_of_ne_nil _ hnil
  have hends : (elf.loads.mapM fun ph => p.fit BuildStop.panic 64 (ph.virtualAddr.toNat + ph.memSize.toNat : Nat)) =
      .ok (elf.loads.map fun ph => ph.virtualAddr.toNat + ph.memSize.toNat) :=
    mapM_eq_ok fun ph hph => Profile.fit_of_lt (hfits ph hph)
  have hbase : ph.virtualAddr.toNat ∈ elf.loads.map (·.virtualAddr.toNat) := List.mem_map_of_mem hph
  have htop : ph.virtualAddr.toNat + ph.memSize.toNat ∈
      elf.loads.map fun ph => ph.virtualAddr.toNat + ph.memSize.toNat := List.mem_map.mpr ⟨ph, hph, rfl⟩
  obtain ⟨base, hmin⟩ := Option.isSome_iff_exists.mp (List.isSome_min?_of_mem hbase)
  obtain ⟨top, hmax⟩ := Option.isSome_iff_exists.mp (List.isSome_max?_of_mem htop)
  have hvaset : getProcVaset p elf = .ok (base, top) := by
    unfold getProcVaset
    rw [hends, hmin]
    show (unwrap (List.max? _) >>= fun top => pure (base, top)) = _
    rw [hmax]
    rfl
  rw [hvaset, vaBase, vaTop, hmin, hmax, Option.getD_some, Option.getD_some]
  constructor
  · intro h
    cases h
    exact ⟨hnil, rfl, rfl⟩
  · rintro ⟨-, rfl, rfl⟩
    rfl

theorem getProcVaset_eq_ok {elf : ElfFile} {lo hi : Nat} (hlow : LowSegments cfg elf)
    (h : getProcVaset p elf = .ok (lo, hi)) :
    lo = vaBase elf ∧ hi = vaTop elf ∧ lo ≤ hi ∧ hi ≤ 2 ^ (cfg.vaBits - 1) := by
  obtain ⟨hdouble, -, htop⟩ := cfg.half_pages
  obtain ⟨hnil, rfl, rfl⟩ := (getProcVaset_eq_ok_iff fun ph hph => (hlow ph hph).trans_lt (by omega)).mp h
  obtain ⟨ph, hph⟩ := List.exists_mem_of_ne_nil _ hnil
  refine ⟨rfl, rfl, ?_, vaTop_le fun ph hph => hlow ph hph⟩
  exact (vaBase_le hph).trans ((Nat.le_add_right _ _).trans (le_vaTop hph))

/-! ### The whole call -/

theorem lohalfTop_eq : lohalfTop cfg = 2 ^ (cfg.vaBits - 1) := by
  obtain ⟨hdouble, -, htop⟩ := cfg.half_pages
  have hpos := Nat.two_pow_pos (cfg.vaBits - 1)
  unfold lohalfTop hihalf
  rw [Nat.sub_sub_self (by omega), Nat.mod_eq_of_lt (by omega)]

/-- The map of the user stack. -/
def stackMap (cfg : RvmCfg) (arch : Arch) (addr : Nat) : VRamMap :=
  ⟨2 ^ (cfg.vaBits - 1) - stackSize, addr, stackSize, arch.mapFlag .uRwo⟩

theorem allocOr_eq_ok {args : AllocParams} {msg : String} {ptr : OwnedPtr} {s s' : ProcRam}
    (h : allocOr env args msg s = (.ok ptr, s')) : env.alloc s args = some ptr ∧ s' = s := by
  unfold allocOr at h
  split at h
  · rename_i hptr
    cases h
    exact ⟨hptr, rfl⟩
  · cases h

theorem mapStack_eq_ok {s s' : ProcRam} {ptr : OwnedPtr} {m : VRamMap} (hstack : stackSize ≤ 2 ^ (cfg.vaBits - 1))
    (h : mapStack cfg arch p env g s = (.ok (ptr, m), s')) :
    env.alloc s (.new cfg.psz stackSize) = some ptr ∧ m = stackMap cfg arch ptr.addr ∧
    ∃ r, Glacier.mapRange cfg arch p g env.tablePages m.va m.pa m.size m.flags s.ram = (.ok (), r) ∧
      s' = { s with ram := r } := by
  obtain ⟨hdouble, -, htop64⟩ := cfg.half_pages
  have hstackVa : p.fit BuildStop.panic 64 ((lohalfTop cfg : Int) - stackSize) =
      .ok (2 ^ (cfg.vaBits - 1) - stackSize) := by
    rw [lohalfTop_eq]
    exact Profile.fit_sub hstack (by omega)
  obtain ⟨stackPtr, s₁, halloc, h₁⟩ := Eff.bind_eq_ok.mp h
  obtain ⟨hptr, rfl⟩ := allocOr_eq_ok halloc
  obtain ⟨stackVa, s₂, hva, h₂⟩ := Eff.bind_eq_ok.mp h₁
  obtain ⟨hfit, rfl⟩ := Eff.lift_eq_ok hva
  have hfitVa : stackVa = 2 ^ (cfg.vaBits - 1) - stackSize := Except.ok.inj (hfit.symm.trans hstackVa)
  obtain ⟨_, s₃, hmap, h₃⟩ := Eff.bind_eq_ok.mp h₂
  obtain ⟨r, hrange, rfl⟩ := onRam_eq_ok hmap
  cases h₃
  exact ⟨hptr, by rw [hfitVa]; rfl, r, hrange, rfl⟩

/-- The tables of the process just after `Glacier::new`. -/
theorem newGlacier_steady {s s' : ProcRam} {g : Glacier} (hkernel : WellFormed cfg s.ram.mem krvm.rootTable)
    (henv : Honest cfg krvm env s) (hhigh : hihalf cfg ≤ s.heapEnd) (hpage : cfg.psz.size ∣ s.heapEnd)
    (h : newGlacier cfg krvm env s = (.ok g, s')) :
    (∃ e₀, Steady cfg krvm g e₀ s') ∧ HonestTables cfg krvm g.rootTable env.tablePages ∧
    (∀ va, LowHalf cfg va → walk cfg s'.ram.mem g.rootTable va = none) ∧
    (∀ va, walk cfg s'.ram.mem krvm.rootTable va = walk cfg s.ram.mem krvm.rootTable va) ∧
    s'.heapEnd = s.heapEnd ∧ s'.bytes = s.bytes := by
  unfold newGlacier at h
  split at h
  · rename_i g' r hnew
    cases h
    cases hroot : env.root with
    | none =>
        rw [hroot] at hnew
        cases hnew
    | some root =>
        rw [hroot] at hnew
        obtain ⟨haligned, hunused⟩ := henv.root root hroot
        obtain ⟨hshared, -, hblank, -, -⟩ := shared_new hkernel haligned hunused hnew
        have hne : krvm.rootTable ≠ root := fun heq => hunused (heq ▸ mem_nodes_self _ _)
        obtain ⟨rfl, -, -, -, -, hsame⟩ := new_spec haligned hkernel.aligned hne hnew
        refine ⟨⟨_, hshared, hhigh, hpage⟩, henv.tablePages root hroot, hblank, fun va => ?_, rfl, rfl⟩
        apply walkFrom_congr width_le_page _ (inWidth_width va)
        intro n hn
        apply hsame n (aligned_of_mem hkernel.aligned hn)
        rintro rfl
        exact hunused hn
  · cases h

theorem canonical_zero (cfg : RvmCfg) : cfg.Canonical 0 := Or.inl (Nat.two_pow_pos _)

theorem takeGuard_spec {s s' : ProcRam} {k : KernelStack} {va : Word} {missing : BuildStop}
    (hcanon : cfg.Canonical va) (hs : Steady cfg krvm g e₀ s) (h : takeGuard cfg krvm va missing s = (.ok k, s')) :
    Steady cfg krvm g e₀ s' ∧ s'.heapEnd = s.heapEnd ∧ s'.bytes = s.bytes ∧
    (∀ va, LowHalf cfg va → walk cfg s'.ram.mem g.rootTable va = walk cfg s.ram.mem g.rootTable va) ∧
    ∀ va, cfg.Canonical va → ¬cfg.SamePage k.buf va →
      walk cfg s'.ram.mem krvm.rootTable va = walk cfg s.ram.mem krvm.rootTable va := by
  unfold takeGuard at h
  split at h
  · cases h
    have hnone : Unshared cfg krvm g s.ram (.unmap va) := fresh_nil _
    obtain ⟨hshared, hother, hlow⟩ := @Shared.kernel_page cfg .amd64 krvm g e₀ s.ram hs.shared (.unmap va) hnone hcanon
    exact ⟨⟨hshared, hs.high, hs.page⟩, rfl, rfl, hlow, hother⟩
  · cases h

/-- `KernelStack::new` takes one page out of the kernel's tables. -/
theorem newKernelStack_spec {s₀ s s' : ProcRam} {k : KernelStack} (henv : Honest cfg krvm env s₀)
    (hs : Steady cfg krvm g e₀ s) (h : newKernelStack cfg p krvm env s = (.ok k, s')) :
    Steady cfg krvm g e₀ s' ∧ s'.heapEnd = s.heapEnd ∧ s'.bytes = s.bytes ∧
    (∀ va, LowHalf cfg va → walk cfg s'.ram.mem g.rootTable va = walk cfg s.ram.mem g.rootTable va) ∧
    ∀ va, cfg.Canonical va → ¬cfg.SamePage k.buf va →
      walk cfg s'.ram.mem krvm.rootTable va = walk cfg s.ram.mem krvm.rootTable va := by
  unfold newKernelStack at h
  cases hbuf : env.stackBuf s with
  | block va =>
      rw [hbuf] at h
      exact takeGuard_spec (henv.stackBuf s va hbuf) hs h
  | grows =>
      rw [hbuf] at h
      cases h
  | null =>
      rw [hbuf] at h
      cases p with
      | dev => cases h
      | release => exact takeGuard_spec (canonical_zero cfg) hs h

/-- What `new` has done when it returns a process. -/
structure Built (cfg : RvmCfg) (arch : Arch) (krvm : Glacier) (elf : ElfFile) (fileBin : List Byte)
    (pcb : ProcCtrlBlk) (s s' : ProcRam) (procPtr stackPtr : OwnedPtr) : Prop where
  owned : pcb.physAlloc = [procPtr, stackPtr]
  procSize : procPtr.size = sizeAlign cfg.psz (vaTop elf - vaBase elf)
  procPage : cfg.psz.size ∣ procPtr.addr
  procEnd : procPtr.fin + cfg.psz.size ≤ 2 ^ 52
  stackBytes : stackPtr.size = stackSize
  stackPage : cfg.psz.size ∣ stackPtr.addr
  stackEnd : stackPtr.fin + cfg.psz.size ≤ 2 ^ 52
  files : ∀ ph ∈ elf.loads, ph.offset.toNat + ph.fileSize.toNat ≤ fileBin.length
  maps : pcb.vramMap = elf.loads.map (segmentMap arch procPtr.addr (vaBase elf)) ++ [stackMap cfg arch stackPtr.addr]
  kernel : ∀ va : Word, hihalf cfg ≤ va.toNat → ¬cfg.SamePage pcb.kstack.buf va →
    ¬(s.heapEnd ≤ va.toNat ∧ va.toNat < s'.heapEnd) →
    walk cfg s'.ram.mem krvm.rootTable va = walk cfg s.ram.mem krvm.rootTable va
  low : ∀ va, LowHalf cfg va → walk cfg s'.ram.mem pcb.glacier.rootTable va =
    (spaceOf cfg pcb.vramMap (va.toNat / cfg.psz.size)).map (leafWord cfg)
  bytes : s'.bytes = imageBytes arch fileBin procPtr.addr (vaBase elf) elf.loads s.bytes

theorem spaceOf_append (maps more : List VRamMap) :
    spaceOf cfg (maps ++ more) = overlay (spaceOf cfg more) (spaceOf cfg maps) := by
  induction maps with
  | nil =>
      funext page
      exact Option.or_none.symm
  | cons m maps ih =>
      funext page
      rw [List.cons_append, spaceOf, ih, spaceOf]
      exact Option.or_assoc

theorem spaceOf_concat (maps : List VRamMap) (m : VRamMap) (page : Nat) :
    spaceOf cfg (maps ++ [m]) page = (mapSpace cfg m page).or (spaceOf cfg maps page) := by
  rw [spaceOf_append]
  rfl

theorem sizeAlign_stackSize (pg : BPage) : sizeAlign pg stackSize = stackSize := by
  unfold stackSize
  cases pg <;> decide

theorem stackSize_le (hbits : 21 ≤ cfg.vaBits) : stackSize ≤ 2 ^ (cfg.vaBits - 1) := by
  unfold stackSize
  calc 0x100000 = 2 ^ 20 := rfl
    _ ≤ 2 ^ (cfg.vaBits - 1) := Nat.pow_le_pow_right Nat.two_pos (by omega)

theorem new_built {elf : ElfFile} {fileBin : List Byte} {pcb : ProcCtrlBlk} {s s' : ProcRam}
    (hkernel : WellFormed cfg s.ram.mem krvm.rootTable) (hbits : 21 ≤ cfg.vaBits) (henv : Honest cfg krvm env s)
    (hhigh : hihalf cfg ≤ s.heapEnd) (hpage : cfg.psz.size ∣ s.heapEnd) (hlow : LowSegments cfg elf)
    (h : new cfg arch p krvm env elf fileBin s = (.ok pcb, s')) :
    ∃ procPtr stackPtr, Built cfg arch krvm elf fileBin pcb s s' procPtr stackPtr := by
  have hstack := stackSize_le hbits
  obtain ⟨hdouble, -, htop64⟩ := cfg.half_pages
  obtain ⟨g, s₁, hnew, h₁⟩ := Eff.bind_eq_ok.mp h
  obtain ⟨⟨lo, hi⟩, s₂, hvaset, h₂⟩ := Eff.bind_eq_ok.mp h₁
  obtain ⟨hbounds, rfl⟩ := Eff.lift_eq_ok hvaset
  obtain ⟨procSize, s₃, hsize, h₃⟩ := Eff.bind_eq_ok.mp h₂
  obtain ⟨hspan, rfl⟩ := Eff.lift_eq_ok hsize
  obtain ⟨procPtr, s₄, hproc, h₄⟩ := Eff.bind_eq_ok.mp h₃
  obtain ⟨hprocPtr, rfl⟩ := allocOr_eq_ok hproc
  obtain ⟨_, s₅, hheap₁, h₅⟩ := Eff.bind_eq_ok.mp h₄
  obtain ⟨maps, s₆, hload, h₆⟩ := Eff.bind_eq_ok.mp h₅
  obtain ⟨⟨stackPtr, m⟩, s₇, hstk, h₇⟩ := Eff.bind_eq_ok.mp h₆
  obtain ⟨hstackPtr, hm, r, hrange, rfl⟩ := mapStack_eq_ok hstack hstk
  obtain ⟨_, s₉, hheap₂, h₉⟩ := Eff.bind_eq_ok.mp h₇
  obtain ⟨_, s₁₀, hheap₃, h₁₀⟩ := Eff.bind_eq_ok.mp h₉
  obtain ⟨k, s₁₁, hkstack, h₁₁⟩ := Eff.bind_eq_ok.mp h₁₀
  obtain ⟨_, s₁₂, hheap₄, h₁₂⟩ := Eff.bind_eq_ok.mp h₁₁
  cases h₁₂
  obtain ⟨⟨e₀, hsteady₁⟩, halloc, hblank, hkernel₁, hend₁, hbytes₁⟩ :=
    newGlacier_steady hkernel henv hhigh hpage hnew
  obtain ⟨rfl, rfl, hle, hhi⟩ := getProcVaset_eq_ok hlow hbounds
  have hprocSize : procSize = vaTop elf - vaBase elf := by
    have hfit : p.fit BuildStop.panic 64 ((vaTop elf : Int) - vaBase elf) = .ok (vaTop elf - vaBase elf) :=
      Profile.fit_sub hle (by omega)
    exact Except.ok.inj (hspan.symm.trans hfit)
  obtain ⟨hpsize, hpalign, hpend⟩ := henv.alloc _ _ _ hprocPtr
  obtain ⟨hssize, hsalign, hsend⟩ := henv.alloc _ _ _ hstackPtr
  change procPtr.size = sizeAlign cfg.psz procSize at hpsize
  change stackPtr.size = sizeAlign cfg.psz stackSize at hssize
  rw [hprocSize] at hpsize
  rw [sizeAlign_stackSize] at hssize
  have hplaces : ∀ ph ∈ elf.loads, InPlace cfg procPtr.addr (vaBase elf) ph := by
    intro ph hph
    have hbase := vaBase_le hph
    have htop := le_vaTop hph
    have hround := le_sizeAlign cfg.psz (vaTop elf - vaBase elf)
    unfold OwnedPtr.fin at hpend
    exact ⟨hbase, hlow ph hph, by omega⟩
  have hstep₁ := heapAlloc_step henv halloc hsteady₁ hheap₁
  obtain ⟨hmaps, hloaded, hbytes₂, hfiles⟩ := loadSegments_progress henv halloc hplaces hstep₁.steady hload
  have hmapped : Progress cfg krvm g e₀ s₆ { s₆ with ram := r } (mapSpace cfg m) := by
    have hva : m.va + m.size ≤ 2 ^ (cfg.vaBits - 1) := by
      rw [hm]
      exact (Nat.sub_add_cancel hstack).le
    have hpa : m.pa + m.size < 2 ^ 63 := by
      rw [hm]
      show stackPtr.addr + stackSize < 2 ^ 63
      unfold OwnedPtr.fin at hsend
      omega
    exact hloaded.steady.mapRange halloc (by rw [hm]; exact mapFlag_valid arch .uRwo) hva hpa hrange
  have hstep₂ := heapAlloc_step henv halloc hmapped.steady hheap₂
  have hstep₃ := heapAlloc_step henv halloc hstep₂.steady hheap₃
  obtain ⟨hsteady₄, hend₄, hbytes₄, hlow₄, hother₄⟩ := newKernelStack_spec henv hstep₃.steady hkstack
  have hstep₄ := heapAlloc_step henv halloc hsteady₄ hheap₄
  have hbefore := (((hstep₁.progress.trans hloaded).trans hmapped).trans hstep₂.progress).trans hstep₃.progress
  refine ⟨procPtr, stackPtr, rfl, hpsize, hpalign, hpend, hssize, hsalign, hsend, hfiles, ?_, ?_, ?_, ?_⟩
  · rw [hmaps, hm]
  · intro va hva hguard hout
    have hgrown := hbefore.grown
    have hgrown₄ := hstep₄.grown
    rw [hstep₄.progress.kernel va hva fun hin => hout ⟨by omega, hin.2⟩, hother₄ va (.inr hva) hguard,
      hbefore.kernel va hva fun hin => hout ⟨by omega, by omega⟩, hkernel₁ va]
  · intro va hva
    show walk cfg s'.ram.mem g.rootTable va = _
    rw [hstep₄.effect.low va hva, hlow₄ va hva, hbefore.low va hva, hblank va hva, Option.or_none]
    refine congrArg (Option.map (leafWord cfg)) (Eq.trans ?_ (spaceOf_concat maps _ _).symm)
    -- the growing of the heap has added nothing
    simp [overlay]
  · rw [hstep₄.bytes, hbytes₄, hstep₃.bytes, hstep₂.bytes, hbytes₂, hstep₁.bytes, hbytes₁]

end Steps

/-! ### Runs -/

/-- 64 KiB pages and addresses of 48 bits, as `detect` may find them on aarch64. -/
def wideCfg : RvmCfg := ⟨.size64kiB, 48, 48, by decide, amd64Cfg.vaBits_le⟩

/-- The same pages with two levels of tables, the root with two entries. -/
def narrowCfg : RvmCfg := ⟨.size64kiB, 30, 48, by decide, by decide⟩

def bootGlacier : Glacier := ⟨0x10000, true⟩

/-- The kernel has mapped the first page of its half and a page of its heap. -/
def bootRam (cfg : RvmCfg) : ProcRam where
  ram := step cfg .aarch64 bootGlacier
    (step cfg .aarch64 bootGlacier ⟨fun _ => 0, [0x10000], []⟩ (.map (BitVec.ofNat 64 (hihalf cfg)) 0x4000000
      (Arch.aarch64.mapFlag .kRwx) [some 0x20000, some 0x30000]))
    (.map (BitVec.ofNat 64 (hihalf cfg + 0x100000)) 0x5000000 (Arch.aarch64.mapFlag .kRwo) [])
  bytes := fun _ => 0
  heapEnd := hihalf cfg + 0x200000

/-- Tables are handed out one page after the other. -/
def nextTables (cfg : RvmCfg) : TableAlloc := fun r =>
  (List.range cfg.depth).map fun i => some (BitVec.ofNat 64 ((r.taken.length + 4 + i) * 0x10000))

def bootEnv (cfg : RvmCfg) (tablePages : TableAlloc) (grow : ProcRam → List OwnedPtr) : ProcEnv where
  root := some 0x40000
  tablePages
  alloc _ args :=
    let ptr : OwnedPtr := ⟨if args.size = stackSize then 0x40000000 else 0x20000000, sizeAlign cfg.psz args.size⟩
    if args.align ∣ ptr.addr ∧ ptr.fin + cfg.psz.size ≤ 2 ^ 52 then some ptr else none
  grow
  stackBuf _ := .block (BitVec.ofNat 64 (hihalf cfg + 0x100000))

/-- One more page for the heap. -/
def onePage (cfg : RvmCfg) (s : ProcRam) : List OwnedPtr :=
  if s.heapEnd = hihalf cfg + 0x200000 then [⟨0x10000000, 0x10000⟩] else []

def boot (cfg : RvmCfg) (grow : ProcRam → List OwnedPtr) (elf : ElfFile) :
    Except BuildStop ProcCtrlBlk × ProcRam :=
  new cfg .aarch64 .release bootGlacier (bootEnv cfg (nextTables cfg) grow) elf [1, 2, 3, 4] (bootRam cfg)

/-- The page tables of the kernel in a state. -/
def kernelWalk (cfg : RvmCfg) (s : ProcRam) (va : Nat) : Option Word :=
  walk cfg s.ram.mem bootGlacier.rootTable (BitVec.ofNat 64 va)

/-- One segment of one page. -/
def plainElf : ElfFile := ⟨0x400000, [⟨true, 0, 0x400000, 4, 0x10000, 0b101⟩]⟩

/-- A segment where the kernel is. -/
def highElf : ElfFile := ⟨0x400000, [⟨true, 0, 0xffff800000000000, 4, 0x10, 0b111⟩]⟩

/-- An allocator that keeps back pages in use. -/
def checkedTables (cfg : RvmCfg) (krvm : Glacier) (root : Word) (alloc : TableAlloc) : TableAlloc := fun r =>
  if Fresh cfg (tables cfg r.mem krvm.rootTable ++ lowTables cfg r.mem root) (alloc r) then alloc r else []

theorem honestTables_checked (cfg : RvmCfg) (krvm : Glacier) (root : Word) (alloc : TableAlloc) :
    HonestTables cfg krvm root (checkedTables cfg krvm root alloc) := by
  intro r
  unfold checkedTables
  split_ifs with hfresh
  · exact hfresh
  · exact fresh_nil _

def narrowEnv : ProcEnv :=
  bootEnv narrowCfg (checkedTables narrowCfg bootGlacier 0x40000 (nextTables narrowCfg)) (onePage narrowCfg)

theorem honest_narrowEnv : Honest narrowCfg bootGlacier narrowEnv (bootRam narrowCfg) where
  root root hroot := by
    obtain rfl := Option.some.inj hroot
    decide +kernel
  tablePages root hroot := by
    obtain rfl := Option.some.inj hroot
    exact honestTables_checked _ _ _ _
  alloc s args ptr hptr := by
    simp only [narrowEnv, bootEnv, Option.ite_none_right_eq_some, Option.some.injEq] at hptr
    obtain ⟨⟨halign, hfin⟩, rfl⟩ := hptr
    exact ⟨rfl, halign, hfin⟩
  chunks s chunk hchunk := by
    simp only [narrowEnv, bootEnv, onePage] at hchunk
    split_ifs at hchunk
    · obtain rfl := List.mem_singleton.mp hchunk
      decide
    · exact absurd hchunk List.not_mem_nil
  room s hgrow := by
    simp only [narrowEnv, bootEnv, onePage] at hgrow ⊢
    split_ifs at hgrow ⊢ with hend
    · rw [hend]
      decide
    · exact absurd rfl hgrow
  stackBuf s va hbuf := by
    obtain rfl : BitVec.ofNat 64 (hihalf narrowCfg + 0x100000) = va := StackBuf.block.inj hbuf
    decide

def narrowRun : Except BuildStop ProcCtrlBlk × ProcRam :=
  new narrowCfg .aarch64 .release bootGlacier narrowEnv plainElf [1, 2, 3, 4] (bootRam narrowCfg)

def narrowPcb : ProcCtrlBlk where
  glacier := ⟨0x40000, true⟩
  kstack := ⟨0xffffffffe0100000, 0x0060000005000000⟩
  physAlloc := [⟨0x20000000, 0x10000⟩, ⟨0x40000000, 0x100000⟩]
  vramMap := [⟨0x400000, 0x20000000, 0x10000, Arch.aarch64.mapFlag .uRox⟩,
    ⟨0x1ff00000, 0x40000000, 0x100000, Arch.aarch64.mapFlag .uRwo⟩]
  pc := 0x400000
  sp := 0x20000000

theorem narrowRun_eq : narrowRun = (.ok narrowPcb, narrowRun.2) := by
  have hok : narrowRun.1 = .ok narrowPcb := by decide +kernel
  rw [← hok]

/-- Building a process from segments of the lower half leaves the kernel's upper translations as they were,
except for the guard page of the new kernel stack and the pages by which the kernel heap grew. -/
theorem new_kernel {cfg : RvmCfg} {arch : Arch} {p : Profile} {krvm : Glacier} {env : ProcEnv} {elf : ElfFile}
    {fileBin : List Byte} {pcb : ProcCtrlBlk} {s s' : ProcRam}
    (hkernel : WellFormed cfg s.ram.mem krvm.rootTable) (hbits : 21 ≤ cfg.vaBits) (henv : Honest cfg krvm env s)
    (hhigh : hihalf cfg ≤ s.heapEnd) (hpage : cfg.psz.size ∣ s.heapEnd) (hlow : LowSegments cfg elf)
    (h : new cfg arch p krvm env elf fileBin s = (.ok pcb, s')) :
    ∀ va : Word, hihalf cfg ≤ va.toNat → ¬cfg.SamePage pcb.kstack.buf va →
      ¬(s.heapEnd ≤ va.toNat ∧ va.toNat < s'.heapEnd) →
      walk cfg s'.ram.mem krvm.rootTable va = walk cfg s.ram.mem krvm.rootTable va := by
  obtain ⟨procPtr, stackPtr, hbuilt⟩ := new_built hkernel hbits henv hhigh hpage hlow h
  exact hbuilt.kernel

theorem new_kernel_narrow : narrowRun.1 = .ok narrowPcb ∧
    kernelWalk narrowCfg narrowRun.2 0xffffffffe0000000 = some (0x4000000 ||| Arch.aarch64.mapFlag .kRwx) := by
  have hsame := @new_kernel narrowCfg _ _ bootGlacier narrowEnv plainElf _ _ (bootRam narrowCfg) _
    (by decide +kernel) (by decide) honest_narrowEnv (by decide) (by decide) (by decide) narrowRun_eq
    0xffffffffe0000000 (by decide) (by decide) (by decide +kernel)
  exact ⟨congrArg Prod.fst narrowRun_eq, hsame.trans (by decide +kernel)⟩

/-- The guard page loses its translation, the heap gains one, and a segment in the upper half takes the place of
a page of the kernel. -/
theorem new_kernel_changes :
    ((boot wideCfg (onePage wideCfg) plainElf).1.toBool ∧
      (kernelWalk wideCfg (bootRam wideCfg) 0xffff800000100000).isSome ∧
      kernelWalk wideCfg (boot wideCfg (onePage wideCfg) plainElf).2 0xffff800000100000 = none ∧
      kernelWalk wideCfg (bootRam wideCfg) 0xffff800000200000 = none ∧
      (kernelWalk wideCfg (boot wideCfg (onePage wideCfg) plainElf).2 0xffff800000200000).isSome) ∧
    (boot wideCfg (fun _ => []) highElf).1.toBool ∧
      kernelWalk wideCfg (bootRam wideCfg) 0xffff800000000000 = some (0x4000000 ||| Arch.aarch64.mapFlag .kRwx) ∧
      kernelWalk wideCfg (boot wideCfg (fun _ => []) highElf).2 0xffff800000000000 =
        some (0x20000000 ||| Arch.aarch64.mapFlag .uRwx) := by
  decide +kernel

end ProcCtrlBlk

end UnixKernel
