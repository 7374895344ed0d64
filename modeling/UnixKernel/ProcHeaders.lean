import UnixKernel.ProcCreate

/-! What `ProcCtrlBlk::new` needs of the headers of a file so that it neither panics nor writes outside the memory it
has allocated. Nothing is checked in the code: there has to be a segment, the end of every segment has to leave room
for a page, its part of the file has to lie in the buffer and must not reach over the end of the process memory, and
the sizes that `PHYS_ALLOC` is asked for must not wrap around when they are added to an address. A header that is not
right does no harm in a file for which there is never enough memory. -/

namespace UnixKernel

open Glacier

/-! ### Ranges -/

namespace Glacier

variable {cfg : RvmCfg} {arch : Arch} {p : Profile} {g : Glacier}

theorem mapPages_raises {alloc : TableAlloc} {vaStart paStart : Nat} {flags : Word} {offs : List Nat}
    (h : ∀ off ∈ offs, paStart + off < 2 ^ 64) :
    Eff.Raises (· ≠ .panic) (mapPages cfg arch p g alloc vaStart paStart flags offs) := by
  induction offs with
  | nil => exact Eff.raises_pure ()
  | cons off offs ih =>
      unfold mapPages
      rw [Profile.fit_of_lt (h off List.mem_cons_self), Eff.lift_ok_bind]
      refine Eff.Raises.bind ?_ fun _ _ _ _ => ih fun o ho => h o (List.mem_cons_of_mem off ho)
      intro r e r' hstop
      unfold mapAt at hstop
      split at hstop <;> cases hstop
      intro heq
      cases heq

theorem off_le {va size off : Nat}
    (h : off ∈ rangeOffsets cfg (va / cfg.psz.size * cfg.psz.size)
      ((va + size + cfg.psz.size - 1) / cfg.psz.size * cfg.psz.size)) :
    off < size + cfg.psz.size := by
  rw [rangeOffsets_eq] at h
  obtain ⟨i, hi, rfl⟩ := List.mem_map.mp h
  have hnext : (i + 1 + va / cfg.psz.size) * cfg.psz.size ≤
      (va + size + cfg.psz.size - 1) / cfg.psz.size * cfg.psz.size := by
    have := List.mem_range.mp hi
    exact Nat.mul_le_mul_right _ (by omega)
  have hend := Nat.div_mul_le_self (va + size + cfg.psz.size - 1) cfg.psz.size
  have hstart := Nat.lt_div_mul_add (a := va) cfg.psz.size_pos
  rw [Nat.add_mul, Nat.add_mul, Nat.one_mul] at hnext
  omega

/-- `map_range` panics only for want of room behind its addresses. -/
theorem mapRange_raises {alloc : TableAlloc} {va pa size : Nat} {flags : Word}
    (hva : va + size + cfg.psz.size < 2 ^ 64) (hpa : pa + size + cfg.psz.size < 2 ^ 64) :
    Eff.Raises (· ≠ .panic) (mapRange cfg arch p g alloc va pa size flags) := by
  unfold mapRange
  dsimp only
  rw [rangeEnd_eq hva, Eff.lift_ok_bind]
  apply mapPages_raises
  intro off hoff
  have hlt := off_le hoff
  have hle := Nat.div_mul_le_self pa cfg.psz.size
  omega

theorem unmapRange_raises {va size : Nat} (hva : va + size + cfg.psz.size < 2 ^ 64) :
    Eff.Raises (· ≠ .panic) (unmapRange cfg p g va size) := by
  unfold unmapRange
  dsimp only
  rw [rangeEnd_eq hva, Eff.lift_ok_bind]
  intro r e r' hstop
  cases hstop

end Glacier

namespace ProcCtrlBlk

variable {cfg : RvmCfg} {arch : Arch} {p : Profile} {krvm : Glacier} {env : ProcEnv} {places : Places}
  {α : Type}

/-! ### Errors -/

/-- The call returns with an `Err`. -/
def IsErr : BuildStop → Prop
  | .err _ => True
  | .panic | .deadlock | .freesNull => False

theorem onRam_raises {m : Eff Ram RangeStop Unit} (hm : Eff.Raises (· ≠ .panic) m) (msg : String) :
    Eff.Raises IsErr (onRam m (.error (.err msg))) := by
  intro s e s' h
  unfold onRam at h
  split at h
  · cases h
  · cases h
    trivial
  · rename_i hstop
    exact absurd rfl (hm _ _ _ hstop)

theorem onRam_ignored {m : Eff Ram RangeStop Unit} (hm : Eff.Raises (· ≠ .panic) m) (s : ProcRam) :
    ∃ r, onRam m (.ok ()) s = (.ok (), { s with ram := r }) := by
  unfold onRam
  split
  · exact ⟨_, rfl⟩
  · exact ⟨_, rfl⟩
  · rename_i hstop
    exact absurd rfl (hm _ _ _ hstop)

theorem growBy_ok {chunk : OwnedPtr} {s : ProcRam} (hlow : chunk.fin + cfg.psz.size < 2 ^ 64)
    (hroom : s.heapEnd + chunk.size + cfg.psz.size < 2 ^ 64) :
    ∃ s', growBy cfg arch p krvm env chunk s = (.ok (), s') ∧ s'.heapEnd = s.heapEnd + chunk.size := by
  obtain ⟨r, hmap⟩ := onRam_ignored (mapRange_raises hroom hlow) s
  obtain ⟨r', hunmap⟩ := onRam_ignored (unmapRange_raises hlow) { s with ram := r }
  exact ⟨_, (Eff.bind_of_ok hmap).trans (Eff.bind_of_ok hunmap), rfl⟩

theorem growAll_ok {chunks : List OwnedPtr} {s : ProcRam} (hlow : ∀ c ∈ chunks, c.fin + cfg.psz.size < 2 ^ 64)
    (hroom : chunks ≠ [] → s.heapEnd + (chunks.map (·.size)).sum + cfg.psz.size < 2 ^ 64) :
    ∃ s', growAll cfg arch p krvm env chunks s = (.ok (), s') := by
  induction chunks generalizing s with
  | nil => exact ⟨s, rfl⟩
  | cons chunk chunks ih =>
      have hroom := hroom (List.cons_ne_nil chunk chunks)
      rw [List.map_cons, List.sum_cons] at hroom
      obtain ⟨s₁, hgrow, hend⟩ := @growBy_ok cfg arch p krvm env chunk s (hlow chunk List.mem_cons_self) (by omega)
      obtain ⟨s', hrest⟩ := @ih s₁ (fun c hc => hlow c (List.mem_cons_of_mem chunk hc)) fun _ => by omega
      exact ⟨s', (Eff.bind_of_ok hgrow).trans hrest⟩

theorem heapAlloc_ok {s₀ : ProcRam} (henv : Honest cfg krvm env s₀) (s : ProcRam) :
    ∃ s', heapAlloc cfg arch p krvm env s = (.ok (), s') := by
  obtain ⟨hdouble, -, htop⟩ := cfg.half_pages
  have hpage := cfg.psz.size_le
  apply growAll_ok
  · intro c hc
    have := (henv.chunks s c hc).2.2
    omega
  · exact henv.room s

section Raised

variable {s₀ : ProcRam}

theorem onState_raises {m : BuildM α} (hm : Eff.Raises IsErr m) : Eff.Raises IsErr (onState m) :=
  fun s e s' h => hm s.state e s'.state (onState_eq h).1

theorem heapAlloc_raises (henv : Honest cfg krvm env s₀) :
    Eff.Raises IsErr (onState (heapAlloc cfg arch p krvm env)) := by
  apply onState_raises
  intro s e s' h
  obtain ⟨t, hok⟩ := @heapAlloc_ok cfg arch p krvm env s₀ henv s
  cases hok.symm.trans h

theorem clear_raises (addr size : Nat) : Eff.Raises IsErr (writing addr size (clearBytes addr size)) := by
  intro s e s' h
  cases h

theorem copy_raises {fileBin : List Byte} (offset addr size : Nat) :
    Eff.Raises IsErr (writing addr size (copyBytes fileBin offset addr size)) := by
  intro s e s' h
  cases h

/-- Where the last page of a physical memory of 52 bits begins, rounded up as `find_free_ram` does. -/
def lastPlace (cfg : RvmCfg) : Nat := alignUp (2 ^ 52 - page4kiB) cfg.psz.size

/-- A size can be added to every place for it. -/
def Placeable (cfg : RvmCfg) (size : Nat) : Prop := sizeAlign cfg.psz size + lastPlace cfg < 2 ^ 64

theorem allocHeld_raises {args : AllocParams} {msg : String} (hsize : Placeable cfg args.size)
    (hplaces : ∀ s args, ∀ start ∈ places s args, start ≤ lastPlace cfg) :
    Eff.Raises IsErr (allocHeld cfg p env places args msg) := by
  intro s e s' h
  unfold Placeable at hsize
  rcases @allocHeld_cases cfg p env places args msg s with ⟨e', hprobe, hrun⟩ | ⟨-, hrun⟩ | ⟨ptr, -, hrun⟩
  · rcases (probe_error hprobe).2 with hround | ⟨start, hstart, hsum⟩
    · omega
    · have := hplaces _ _ start hstart
      omega
  · cases hrun.symm.trans h
    trivial
  · cases hrun.symm.trans h

theorem newKernelStack_raises (hstack : ∀ s, ∃ va, env.stackBuf s = .block va) :
    Eff.Raises IsErr (newKernelStack cfg p krvm env) := by
  intro s e s' h
  obtain ⟨va, hva⟩ := hstack s
  unfold newKernelStack at h
  rw [hva] at h
  dsimp only [takeGuard] at h
  split at h
  · cases h
  · cases h
    trivial

end Raised

/-! ### Headers -/

/-- What `new` relies on with one header, for a buffer of `len` bytes. -/
structure HeaderOk (cfg : RvmCfg) (elf : ElfFile) (len : Nat) (ph : ProgramHeader) : Prop where
  room : ph.virtualAddr.toNat + ph.memSize.toNat + cfg.psz.size < 2 ^ 64
  file : ph.offset.toNat + ph.fileSize.toNat ≤ len
  inside : ph.virtualAddr.toNat - vaBase elf + ph.fileSize.toNat ≤ sizeAlign cfg.psz (vaTop elf - vaBase elf)

/-- The buffer and the process memory have room beside each other, with a few pages left. -/
def BothFit (cfg : RvmCfg) (len size : Nat) : Prop := len + sizeAlign cfg.psz size + 4 * cfg.psz.size ≤ 2 ^ 52

instance (len size : Nat) : Decidable (BothFit cfg len size) := inferInstanceAs (Decidable (_ ≤ _))

/-- What `new` relies on with a file. The headers are gone through one by one if there is memory for the process. -/
structure HeadersOk (cfg : RvmCfg) (elf : ElfFile) (len : Nat) : Prop where
  loads : elf.loads ≠ []
  ends : ∀ ph ∈ elf.loads, ph.virtualAddr.toNat + ph.memSize.toNat < 2 ^ 64
  span : Placeable cfg (vaTop elf - vaBase elf)
  each : BothFit cfg len (vaTop elf - vaBase elf) → ∀ ph ∈ elf.loads, HeaderOk cfg elf len ph

/-- The memory that an allocator hands out for the process. -/
structure ProcMemory (cfg : RvmCfg) (elf : ElfFile) (ptr : OwnedPtr) : Prop where
  size : ptr.size = sizeAlign cfg.psz (vaTop elf - vaBase elf)
  fin : ptr.fin + cfg.psz.size ≤ 2 ^ 52

theorem procMemory_of_alloc {s₀ s : ProcRam} {elf : ElfFile} {ptr : OwnedPtr} (henv : Honest cfg krvm env s₀)
    (h : env.alloc s (.new cfg.psz (vaTop elf - vaBase elf)) = some ptr) : ProcMemory cfg elf ptr := by
  obtain ⟨hsize, -, hfin⟩ := henv.alloc _ _ _ h
  exact ⟨hsize, hfin⟩

section Segments

variable {s₀ : ProcRam} {elf : ElfFile} {fileBin : List Byte} {procPtr : OwnedPtr} {ph : ProgramHeader}

theorem ProcMemory.place (h : ProcMemory cfg elf procPtr) (hph : ph ∈ elf.loads) :
    vaBase elf ≤ ph.virtualAddr.toNat ∧
      ph.virtualAddr.toNat - vaBase elf + ph.memSize.toNat ≤ procPtr.size := by
  have hbase := vaBase_le hph
  have htop := le_vaTop hph
  have hround := le_sizeAlign cfg.psz (vaTop elf - vaBase elf)
  rw [h.size]
  exact ⟨hbase, by omega⟩

theorem ProcMemory.fit_place (h : ProcMemory cfg elf procPtr) (hph : ph ∈ elf.loads) :
    p.fit BuildStop.panic 64 ((ph.virtualAddr.toNat : Int) - vaBase elf) = .ok (ph.virtualAddr.toNat - vaBase elf) ∧
    p.fit BuildStop.panic 64 (procPtr.addr + (ph.virtualAddr.toNat - vaBase elf) : Nat) =
      .ok (procPtr.addr + (ph.virtualAddr.toNat - vaBase elf)) := by
  obtain ⟨hbase, hplace⟩ := h.place hph
  have hfin := h.fin
  unfold OwnedPtr.fin at hfin
  exact ⟨Profile.fit_sub hbase ph.virtualAddr.isLt, Profile.fit_of_lt (by omega)⟩

theorem createSegment_raises {g : Glacier} (henv : Honest cfg krvm env s₀) (hptr : ProcMemory cfg elf procPtr)
    (hlen : fileBin.length < 2 ^ 64) (hph : ph ∈ elf.loads) (hok : HeaderOk cfg elf fileBin.length ph) :
    Eff.Raises IsErr (createSegment cfg arch p krvm env g fileBin procPtr.addr (vaBase elf) ph) := by
  obtain ⟨hfrom, haddr⟩ := @ProcMemory.fit_place cfg p elf procPtr ph hptr hph
  obtain ⟨-, hplace⟩ := hptr.place hph
  have hfin := hptr.fin
  have hfile := hok.file
  unfold OwnedPtr.fin at hfin
  unfold createSegment
  dsimp only
  rw [hfrom, Eff.lift_ok_bind, haddr, Eff.lift_ok_bind]
  refine (onState_raises (onRam_raises (mapRange_raises hok.room (by omega)) _)).bind fun _ _ _ _ => ?_
  refine (heapAlloc_raises henv).bind fun _ _ _ _ => ?_
  refine (clear_raises _ _).bind fun _ _ _ _ => ?_
  rw [Profile.fit_of_lt (by omega), Eff.lift_ok_bind, ensure_eq_ok.mpr ⟨by omega, hfile⟩, Eff.lift_ok_bind]
  exact (copy_raises _ _ _).bind fun _ _ _ _ => Eff.raises_pure _

theorem createSegments_raises {g : Glacier} {phs : List ProgramHeader} (henv : Honest cfg krvm env s₀)
    (hptr : ProcMemory cfg elf procPtr) (hlen : fileBin.length < 2 ^ 64) (hphs : ∀ ph ∈ phs, ph ∈ elf.loads)
    (hok : ∀ ph ∈ phs, HeaderOk cfg elf fileBin.length ph) :
    Eff.Raises IsErr (createSegments cfg arch p krvm env g fileBin procPtr.addr (vaBase elf) phs) := by
  induction phs with
  | nil => exact Eff.raises_pure _
  | cons ph phs ih =>
      have hfirst := @createSegment_raises cfg arch p krvm env s₀ elf fileBin procPtr ph g henv hptr hlen
        (hphs ph List.mem_cons_self) (hok ph List.mem_cons_self)
      have hrest := ih (fun q hq => hphs q (List.mem_cons_of_mem ph hq)) fun q hq => hok q (List.mem_cons_of_mem ph hq)
      exact hfirst.bind fun _ _ _ _ => hrest.bind fun _ _ _ _ => Eff.raises_pure _

theorem createStack_raises {g : Glacier} (hbits : 21 ≤ cfg.vaBits) (henv : Honest cfg krvm env s₀)
    (hplaces : ∀ s args, ∀ start ∈ places s args, start ≤ lastPlace cfg) :
    Eff.Raises IsErr (createStack cfg arch p env places g) := by
  have hstack := stackSize_le hbits
  obtain ⟨hdouble, -, htop⟩ := cfg.half_pages
  have hpage := cfg.psz.size_le
  have hplaceable : Placeable cfg stackSize := by
    unfold Placeable lastPlace
    rw [sizeAlign_stackSize]
    unfold stackSize
    cases cfg.psz <;> decide
  refine (allocHeld_raises hplaceable hplaces).bind fun s ptr s' hptr => ?_
  obtain ⟨hsize, -, hfin⟩ := henv.alloc _ _ _ (allocHeld_eq_ok hptr).1
  change ptr.size = sizeAlign cfg.psz stackSize at hsize
  rw [sizeAlign_stackSize] at hsize
  unfold OwnedPtr.fin at hfin
  rw [lohalfTop_eq, Profile.fit_sub hstack (by omega), Eff.lift_ok_bind]
  refine (onState_raises (onRam_raises (mapRange_raises (by omega) (by omega)) _)).bind fun _ _ _ _ => ?_
  exact Eff.raises_pure _

theorem createRest_raises {g : Glacier} {maps : List VRamMap} (hbits : 21 ≤ cfg.vaBits)
    (henv : Honest cfg krvm env s₀) (hplaces : ∀ s args, ∀ start ∈ places s args, start ≤ lastPlace cfg)
    (hstack : ∀ s, ∃ va, env.stackBuf s = .block va) :
    Eff.Raises IsErr (createRest cfg arch p krvm env places g elf procPtr maps) := by
  refine (createStack_raises hbits henv hplaces).bind fun _ _ _ _ => ?_
  refine (heapAlloc_raises henv).bind fun _ _ _ _ => (heapAlloc_raises henv).bind fun _ _ _ _ => ?_
  refine (onState_raises (newKernelStack_raises hstack)).bind fun _ _ _ _ => ?_
  exact (heapAlloc_raises henv).bind fun _ _ _ _ => Eff.raises_pure _

end Segments

theorem span_fits {elf : ElfFile} (hloads : elf.loads ≠ [])
    (hfits : ∀ ph ∈ elf.loads, ph.virtualAddr.toNat + ph.memSize.toNat < 2 ^ 64) :
    p.fit BuildStop.panic 64 ((vaTop elf : Int) - vaBase elf) = .ok (vaTop elf - vaBase elf) := by
  obtain ⟨ph, hph⟩ := List.exists_mem_of_ne_nil _ hloads
  have htop : vaTop elf ≤ 2 ^ 64 - 1 := vaTop_le fun ph hph => Nat.le_pred_of_lt (hfits ph hph)
  refine Profile.fit_sub ?_ (by omega)
  exact (vaBase_le hph).trans ((Nat.le_add_right _ _).trans (le_vaTop hph))

theorem HeadersOk.bounds {elf : ElfFile} {len : Nat} (h : HeadersOk cfg elf len) :
    getProcVaset p elf = .ok (vaBase elf, vaTop elf) ∧
    p.fit BuildStop.panic 64 ((vaTop elf : Int) - vaBase elf) = .ok (vaTop elf - vaBase elf) :=
  ⟨(getProcVaset_eq_ok_iff h.ends).mpr ⟨h.loads, rfl, rfl⟩, span_fits h.loads h.ends⟩

/-- The machines on which the call is made: the allocators are honest, with a page for the root table and a block for
the kernel stack; blocks of memory begin below 52 bits; and memory is not given at address zero, twice, or so much of
it that nothing is left. -/
structure Machine (cfg : RvmCfg) (krvm : Glacier) (env : ProcEnv) (places : Places) (s : ProcRam) : Prop where
  honest : Honest cfg krvm env s
  root : env.root ≠ none
  stackBuf : ∀ t, ∃ va, env.stackBuf t = .block va
  places : ∀ t args, ∀ start ∈ places t args, start ≤ lastPlace cfg
  notNull : ∀ t args ptr, env.alloc t args = some ptr → ptr.addr ≠ 0
  apart : ∀ t t' args args' ptr ptr', env.alloc t args = some ptr → env.alloc t' args' = some ptr' →
    args.asType ≠ args'.asType →
    (ptr.fin ≤ ptr'.addr ∨ ptr'.fin ≤ ptr.addr) ∧ ptr.size + ptr'.size + 4 * cfg.psz.size ≤ 2 ^ 52
  tables : ∀ t args ptr r table, env.alloc t args = some ptr → some table ∈ env.tablePages r →
    ptr.fin ≤ table.toNat ∨ table.toNat + cfg.psz.size ≤ ptr.addr

/-- With headers that are right the build returns. -/
theorem createFrom_raises {s₀ : ProcRam} {elf : ElfFile} {fileBin : List Byte} {g : Glacier} (hbits : 21 ≤ cfg.vaBits)
    (henv : Machine cfg krvm env places s₀) (hlen : fileBin.length < 2 ^ 64)
    (hboth : ∀ t ptr, env.alloc t (.new cfg.psz (vaTop elf - vaBase elf)) = some ptr →
      BothFit cfg fileBin.length (vaTop elf - vaBase elf))
    (hok : HeadersOk cfg elf fileBin.length) :
    Eff.Raises IsErr (createFrom cfg arch p krvm env places g elf fileBin) := by
  obtain ⟨hvaset, hspan⟩ := @HeadersOk.bounds cfg p elf fileBin.length hok
  unfold createFrom
  rw [hvaset, Eff.lift_ok_bind]
  dsimp only
  rw [hspan, Eff.lift_ok_bind]
  refine (allocHeld_raises hok.span henv.places).bind fun s ptr s' hptr => ?_
  have hgranted := (allocHeld_eq_ok hptr).1
  have hmemory := procMemory_of_alloc henv.honest hgranted
  have heach := hok.each (hboth _ _ hgranted)
  refine (heapAlloc_raises henv.honest).bind fun _ _ _ _ => ?_
  refine (createSegments_raises henv.honest hmemory hlen (fun _ hph => hph) heach).bind fun _ _ _ _ => ?_
  exact createRest_raises hbits henv.honest henv.places henv.stackBuf

/-! ### Writes -/

/-- Every byte of the range lay in memory that was out. -/
def Covered (w : OwnedPtr × Multiset OwnedPtr) : Prop :=
  ∀ a, w.1.addr ≤ a → a < w.1.fin → ∃ q ∈ w.2, q.addr ≤ a ∧ a < q.fin

/-- No write went outside the memory that was out at the time. -/
def InBounds (s : Dealings) : Prop := ∀ w ∈ s.written, Covered w

theorem covered_of_inside {addr size : Nat} {held : Multiset OwnedPtr} {q : OwnedPtr} (hq : q ∈ held)
    (hlo : q.addr ≤ addr) (hhi : addr + size ≤ q.fin) : Covered (⟨addr, size⟩, held) :=
  fun _ hfrom hto => ⟨q, hq, hlo.trans hfrom, Nat.lt_of_lt_of_le hto hhi⟩

/-- With the memory of the process out, and headers that are right, every write is in bounds. -/
theorem keeps_inBounds {g : Glacier} {elf : ElfFile} {fileBin : List Byte} {procPtr : OwnedPtr} {len : Nat}
    (hptr : ProcMemory cfg elf procPtr) (hok : ∀ ph ∈ elf.loads, HeaderOk cfg elf len ph) :
    Eff.Keeps (fun s => procPtr ∈ s.held ∧ InBounds s)
      (createWith cfg arch p krvm env places g elf fileBin (vaBase elf) procPtr) := by
  show Eff.Keeps (onLedger fun held written => procPtr ∈ held ∧ ∀ w ∈ written, Covered w) _
  refine (keeps_onState _).bind fun _ _ _ _ => Eff.Keeps.bind (keeps_createSegments g fileBin ?_) fun _ _ _ _ => ?_
  · intro ph hph fromBase addr hfrom haddr size hsize held written ⟨hheld, hin⟩
    obtain ⟨hfrom', haddr'⟩ := @ProcMemory.fit_place cfg p elf procPtr ph hptr hph
    cases hfrom.symm.trans hfrom'
    cases haddr.symm.trans haddr'
    obtain ⟨-, hplace⟩ := hptr.place hph
    have hinside := (hok ph hph).inside
    rw [← hptr.size] at hinside
    refine ⟨hheld, fun w hw => ?_⟩
    rcases List.mem_append.mp hw with hw | hw
    · exact hin w hw
    · obtain rfl := List.mem_singleton.mp hw
      apply covered_of_inside hheld (Nat.le_add_right _ _)
      unfold OwnedPtr.fin
      rcases hsize with rfl | rfl <;> omega
  · exact keeps_createRest g elf procPtr _ fun q held written h => ⟨Multiset.mem_cons_of_mem h.1, h.2⟩

theorem createFrom_inBounds {s₀ : ProcRam} {elf : ElfFile} {fileBin : List Byte} {g : Glacier}
    (henv : Honest cfg krvm env s₀)
    (hboth : ∀ t ptr, env.alloc t (.new cfg.psz (vaTop elf - vaBase elf)) = some ptr →
      BothFit cfg fileBin.length (vaTop elf - vaBase elf))
    (hok : HeadersOk cfg elf fileBin.length) :
    Eff.Keeps InBounds (createFrom cfg arch p krvm env places g elf fileBin) := by
  obtain ⟨hvaset, hspan⟩ := @HeadersOk.bounds cfg p elf fileBin.length hok
  unfold createFrom
  rw [hvaset, Eff.lift_ok_bind]
  dsimp only
  rw [hspan, Eff.lift_ok_bind]
  intro s hs
  rcases @allocHeld_cases cfg p env places (.new cfg.psz (vaTop elf - vaBase elf)) "Failed to allocate process memory" s
    with ⟨e, -, hrun⟩ | ⟨-, hrun⟩ | ⟨ptr, hptr, hrun⟩
  · rw [Eff.bind_of_error hrun]
    exact hs
  · rw [Eff.bind_of_error hrun]
    exact hs
  · rw [Eff.bind_of_ok hrun]
    exact (keeps_inBounds (procMemory_of_alloc henv hptr) (hok.each (hboth _ _ hptr)) { s with held := ptr ::ₘ s.held }
      ⟨Multiset.mem_cons_self ptr s.held, hs⟩).2

/-! ### The whole call -/

/-- The buffer after the file was read into it. -/
def fileBytes (cfg : RvmCfg) (node : FileNode) (content : Nat → Byte) : List Byte :=
  (List.range (sizeAlign cfg.psz node.size.toNat)).map content

/-- What `new` relies on: a size of the file that can be placed, and right headers once the file is parsed, if there is
memory for the buffer at all. -/
structure FileOk (cfg : RvmCfg) (parse : List Byte → Except String ElfFile) (node : FileNode) : Prop where
  size : Placeable cfg node.size.toNat
  headers : ∀ content elf, sizeAlign cfg.psz node.size.toNat + 2 * cfg.psz.size ≤ 2 ^ 52 → node.read = .ok content →
    parse (fileBytes cfg node content) = .ok elf → HeadersOk cfg elf (sizeAlign cfg.psz node.size.toNat)

/-- The call returns with `Ok` or `Err`, and has written to memory of its own only. -/
structure Safe (run : Except BuildStop ProcCtrlBlk × Dealings) : Prop where
  returns : ∀ e, run.1 = .error e → IsErr e
  inBounds : InBounds run.2

theorem dropAtEnd_safe {drop : Dealings → Dealings} {m : CreateM ProcCtrlBlk} {s : Dealings}
    (hdrop : ∀ s, InBounds s → InBounds (drop s)) (h : Safe (m s)) : Safe (dropAtEnd drop m s) := by
  unfold dropAtEnd
  split <;> rename_i hrun <;> rw [hrun] at h
  · exact ⟨nofun, hdrop _ h.inBounds⟩
  · exact ⟨h.returns, hdrop _ h.inBounds⟩
  · exact h

theorem dropOnErr_safe {drop : Dealings → Dealings} {m : CreateM ProcCtrlBlk} {s : Dealings}
    (hdrop : ∀ s, InBounds s → InBounds (drop s)) (h : Safe (m s)) : Safe (dropOnErr drop m s) := by
  unfold dropOnErr
  split
  · rename_i hrun
    rw [hrun] at h
    exact ⟨h.returns, hdrop _ h.inBounds⟩
  · exact h

theorem newGlacier_ok {s : ProcRam} (hroot : env.root ≠ none) : ∃ g s', newGlacier cfg krvm env s = (.ok g, s') := by
  obtain ⟨root, hsome⟩ := Option.ne_none_iff_exists'.mp hroot
  unfold newGlacier
  rw [hsome]
  exact ⟨_, _, rfl⟩

section Whole

variable {parse : List Byte → Except String ElfFile} {node : FileNode} {s : ProcRam}

theorem Machine.buffer {buf : OwnedPtr} {t : ProcRam} (henv : Machine cfg krvm env places s)
    (hbuf : env.alloc t (bufParams cfg node.size.toNat) = some buf) :
    buf.size = sizeAlign cfg.psz node.size.toNat ∧ cfg.psz.size ≤ buf.addr ∧ buf.fin + cfg.psz.size ≤ 2 ^ 52 := by
  obtain ⟨hsize, halign, hfin⟩ := henv.honest.alloc _ _ _ hbuf
  have hdvd : cfg.psz.size ∣ buf.addr := (Nat.max_eq_left cfg.psz.size_pos) ▸ halign
  exact ⟨hsize, Nat.le_of_dvd (Nat.pos_of_ne_zero (henv.notNull _ _ _ hbuf)) hdvd, hfin⟩

theorem safe_of_fileOk (hbits : 21 ≤ cfg.vaBits) (henv : Machine cfg krvm env places s)
    (hok : FileOk cfg parse node) : Safe (create cfg arch p krvm env places parse node ⟨s, 0, []⟩) := by
  have hempty : ∀ held, InBounds ⟨s, held, []⟩ := fun held w hw => absurd hw List.not_mem_nil
  rcases @create_cases cfg arch p krvm env places parse node ⟨s, 0, []⟩ with
    ⟨e, hbuf, hrun⟩ | ⟨buf, hbuf, ⟨-, msg, hrun⟩ | ⟨content, elf, hread, hparse, hrun⟩⟩ <;> rw [hrun]
  · refine ⟨fun e' he => ?_, hempty 0⟩
    cases he
    exact allocHeld_raises hok.size henv.places _ _ _ hbuf
  · refine ⟨fun e' he => ?_, hempty 0⟩
    cases he
    trivial
  · obtain ⟨hsize, haddr, hfin⟩ := henv.buffer hbuf
    unfold OwnedPtr.fin at hfin
    have hbytes : (List.range buf.size).map content = fileBytes cfg node content := by rw [hsize, fileBytes]
    have hlength : (fileBytes cfg node content).length = buf.size := by
      rw [← hbytes, List.length_map, List.length_range]
    rw [hbytes] at hparse ⊢
    have hheaders : HeadersOk cfg elf (fileBytes cfg node content).length := by
      rw [hlength, hsize]
      exact hok.headers content elf (by omega) hread hparse
    have hboth : ∀ t ptr, env.alloc t (.new cfg.psz (vaTop elf - vaBase elf)) = some ptr →
        BothFit cfg (fileBytes cfg node content).length (vaTop elf - vaBase elf) := by
      intro t ptr hptr
      have hfits := (henv.apart _ _ _ _ _ _ hbuf hptr (by simp [bufParams, AllocParams.asTy, AllocParams.new])).2
      rw [(henv.honest.alloc _ _ _ hptr).1] at hfits
      rw [hlength]
      exact hfits
    obtain ⟨g, s₁, hnew⟩ := @newGlacier_ok cfg krvm env s henv.root
    have hstart : onState (newGlacier cfg krvm env) ⟨s, buf ::ₘ 0, []⟩ = (.ok g, ⟨s₁, buf ::ₘ 0, []⟩) := by
      unfold onState
      rw [hnew]
    refine dropAtEnd_safe ?_ ?_
    · exact fun _ hin => hin
    rw [Eff.bind_of_ok hstart]
    refine dropOnErr_safe ?_ ?_
    · exact fun _ hin => hin
    refine ⟨fun e he => ?_, createFrom_inBounds henv.honest hboth hheaders _ fun w hw => absurd hw List.not_mem_nil⟩
    exact createFrom_raises hbits henv (by omega) hboth hheaders _ e _ (Prod.ext he rfl)

end Whole

end ProcCtrlBlk

end UnixKernel
