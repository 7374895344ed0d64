import Mathlib.Data.Multiset.AddSub
import UnixKernel.ProcCtrlBlk

/-! The whole of `ProcCtrlBlk::new`, with the buffer for the file and with what is dropped on the way out. Beside the
memory a ledger is kept: the memory that `PHYS_ALLOC` has handed out for data and that has not been given back, and
the ranges that were written through a physical pointer, each with the memory that was out then. Memory that the
kernel heap takes stays with the heap and is not part of it. An `OwnedPtr` frees nothing when it is dropped, so from
the allocation of the process memory on an `Err` loses it. -/

namespace UnixKernel

open Glacier

namespace ProcCtrlBlk

/-- The memory and the ledger. -/
structure Dealings where
  state : ProcRam
  held : Multiset OwnedPtr
  written : List (OwnedPtr × Multiset OwnedPtr)

abbrev CreateM := Eff Dealings BuildStop

/-- What `new` uses of the node: its size, and what its `read` fills a buffer with. -/
structure FileNode where
  size : Word
  read : Except String (Nat → Byte)

/-- Where `find_free_ram` tries to place a request: the aligned starts of the unused blocks, up to the one it takes. -/
abbrev Places := ProcRam → AllocParams → List Nat

section Model

variable (cfg : RvmCfg) (arch : Arch) (p : Profile) (krvm : Glacier) (env : ProcEnv) (places : Places)

/-- A step that leaves the ledger alone. -/
def onState {α : Type} (m : BuildM α) : CreateM α := fun s => ((m s.state).1, { s with state := (m s.state).2 })

/-- The sums in `build` and `find_free_ram`: the size is rounded up, and added to every place that is tried. -/
def probe (args : AllocParams) (starts : List Nat) : Except BuildStop Unit := do
  let size ← p.fit .panic 64 (sizeAlign cfg.psz args.size : Nat)
  starts.forM fun start => do
    let _ ← p.fit .panic 64 (start + size : Nat)
    pure ()

/-- `PHYS_ALLOC.alloc(..).ok_or(msg)`. -/
def allocHeld (args : AllocParams) (msg : String) : CreateM OwnedPtr := fun s =>
  match probe cfg p args (places s.state args), env.alloc s.state args with
  | .error e, _ => (.error e, s)
  | .ok _, some ptr => (.ok ptr, { s with held := ptr ::ₘ s.held })
  | .ok _, none => (.error (.err msg), s)

/-- A write to a range of physical memory. -/
def writing (addr size : Nat) (m : BuildM Unit) : CreateM Unit := fun s =>
  onState m { s with written := s.written ++ [(⟨addr, size⟩, s.held)] }

/-- A local that is dropped at the end, with `Ok` as with `Err`; a panic stops the kernel where it is. -/
def dropAtEnd {α : Type} (drop : Dealings → Dealings) (m : CreateM α) : CreateM α := fun s =>
  match m s with
  | (.ok a, s') => (.ok a, drop s')
  | (.error (.err msg), s') => (.error (.err msg), drop s')
  | (.error e, s') => (.error e, s')

/-- A local that is dropped with an `Err` and becomes part of the result otherwise. -/
def dropOnErr {α : Type} (drop : Dealings → Dealings) (m : CreateM α) : CreateM α := fun s =>
  match m s with
  | (.error (.err msg), s') => (.error (.err msg), drop s')
  | r => r

/-- `Drop` of `PhysPageBuf`. -/
def dropBuf (buf : OwnedPtr) (s : Dealings) : Dealings := { s with held := s.held.erase buf }

/-- `Drop` of `Glacier`. -/
def dropGlacier (g : Glacier) (s : Dealings) : Dealings :=
  { s with state := { s.state with ram := Glacier.drop cfg g s.state.ram } }

/-- One round of the loop over the headers. -/
def createSegment (glacier : Glacier) (fileBin : List Byte) (procAddr vaBase : Nat) (ph : ProgramHeader) :
    CreateM VRamMap := do
  let offset := ph.offset.toNat
  let fileSize := ph.fileSize.toNat
  let memSize := ph.memSize.toNat
  let virtAddr := ph.virtualAddr.toNat
  let fromBase ← Eff.lift (p.fit .panic 64 ((virtAddr : Int) - vaBase))
  let physAddr ← Eff.lift (p.fit .panic 64 (procAddr + fromBase : Nat))
  let flags := arch.mapFlag (segFlag ph.flags)
  onState (onRam (mapRange cfg arch p glacier env.tablePages virtAddr physAddr memSize flags)
    (.error (.err "Failed to map process")))
  onState (heapAlloc cfg arch p krvm env)
  writing physAddr memSize (clearBytes physAddr memSize)
  let fileEnd ← Eff.lift (p.fit .panic 64 (offset + fileSize : Nat))
  Eff.lift (ensure (offset ≤ fileEnd ∧ fileEnd ≤ fileBin.length) .panic)
  writing physAddr fileSize (copyBytes fileBin offset physAddr fileSize)
  pure ⟨virtAddr, physAddr, memSize, flags⟩

def createSegments (glacier : Glacier) (fileBin : List Byte) (procAddr vaBase : Nat) :
    List ProgramHeader → CreateM (List VRamMap)
  | [] => pure []
  | ph :: phs => do
      let map ← createSegment cfg arch p krvm env glacier fileBin procAddr vaBase ph
      let maps ← createSegments glacier fileBin procAddr vaBase phs
      pure (map :: maps)

def createStack (glacier : Glacier) : CreateM (OwnedPtr × VRamMap) := do
  let stackPtr ← allocHeld cfg p env places (.new cfg.psz stackSize) "Failed to allocate user stack"
  let stackVa ← Eff.lift (p.fit .panic 64 ((lohalfTop cfg : Int) - stackSize))
  onState (onRam (mapRange cfg arch p glacier env.tablePages stackVa stackPtr.addr stackSize (arch.mapFlag .uRwo))
    (.error (.err "Failed to map user stack")))
  pure (stackPtr, ⟨stackVa, stackPtr.addr, stackSize, arch.mapFlag .uRwo⟩)

/-- From the user stack on. -/
def createRest (glacier : Glacier) (elf : ElfFile) (procPtr : OwnedPtr) (maps : List VRamMap) :
    CreateM ProcCtrlBlk := do
  let (stackPtr, stackMap) ← createStack cfg arch p env places glacier
  onState (heapAlloc cfg arch p krvm env)
  onState (heapAlloc cfg arch p krvm env)
  let kstack ← onState (newKernelStack cfg p krvm env)
  onState (heapAlloc cfg arch p krvm env)
  pure
    { glacier
      kstack
      physAlloc := [procPtr, stackPtr]
      vramMap := maps ++ [stackMap]
      pc := elf.entryPoint.toNat
      sp := lohalfTop cfg }

/-- From the process memory on. -/
def createWith (glacier : Glacier) (elf : ElfFile) (fileBin : List Byte) (vaBase : Nat) (procPtr : OwnedPtr) :
    CreateM ProcCtrlBlk := do
  onState (heapAlloc cfg arch p krvm env)
  let maps ← createSegments cfg arch p krvm env glacier fileBin procPtr.addr vaBase elf.loads
  createRest cfg arch p krvm env places glacier elf procPtr maps

/-- From the tables of the process on. -/
def createFrom (glacier : Glacier) (elf : ElfFile) (fileBin : List Byte) : CreateM ProcCtrlBlk := do
  let (vaBase, vaTop) ← Eff.lift (getProcVaset p elf)
  let procSize ← Eff.lift (p.fit .panic 64 ((vaTop : Int) - vaBase))
  let procPtr ← allocHeld cfg p env places (.new cfg.psz procSize) "Failed to allocate process memory"
  createWith cfg arch p krvm env places glacier elf fileBin vaBase procPtr

/-- The request for the buffer: `PhysPageBuf::new`. -/
def bufParams (size : Nat) : AllocParams :=
  ((AllocParams.new cfg.psz size).alignTo cfg.psz.size).asTy .kernelData

/-- `new`; `parse` is `ElfFile::new` of `xmas_elf`. -/
def create (parse : List Byte → Except String ElfFile) (node : FileNode) : CreateM ProcCtrlBlk := do
  let buf ← allocHeld cfg p env places (bufParams cfg node.size.toNat) "Failed to allocate buffer"
  dropAtEnd (dropBuf buf) do
    let content ← Eff.lift (node.read.mapError .err)
    let fileBin := (List.range buf.size).map content
    let elf ← Eff.lift ((parse fileBin).mapError .err)
    let glacier ← onState (newGlacier cfg krvm env)
    dropOnErr (dropGlacier cfg glacier) (createFrom cfg arch p krvm env places glacier elf fileBin)

end Model

/-! ### Without the ledger -/

variable {cfg : RvmCfg} {arch : Arch} {p : Profile} {krvm : Glacier} {env : ProcEnv} {places : Places}
  {α β : Type}

/-- A computation with the ledger that returns does to the memory what another does without it. -/
def Projects (m : CreateM α) (m' : BuildM α) : Prop :=
  ∀ s a s', m s = (.ok a, s') → m' s.state = (.ok a, s'.state)

theorem projects_lift (e : Except BuildStop α) : Projects (Eff.lift e) (Eff.lift e) := by
  intro s a s' h
  obtain ⟨rfl, rfl⟩ := Eff.lift_eq_ok h
  rfl

theorem onState_eq {m : BuildM α} {x : Except BuildStop α} {s s' : Dealings} (h : onState m s = (x, s')) :
    m s.state = (x, s'.state) ∧ s'.held = s.held ∧ s'.written = s.written := by
  cases h
  exact ⟨rfl, rfl, rfl⟩

theorem projects_onState (m : BuildM α) : Projects (onState m) m := fun _ _ _ h => (onState_eq h).1

theorem projects_writing (addr size : Nat) (m : BuildM Unit) : Projects (writing addr size m) m :=
  fun _ _ _ h => (onState_eq h).1

theorem projects_pure (a : α) : Projects (pure a) (pure a) := projects_lift (.ok a)

/-- A sum that does not fit: the rounded size, or the end of a place for it. -/
theorem probe_error {args : AllocParams} {starts : List Nat} {e : BuildStop} (h : probe cfg p args starts = .error e) :
    e = .panic ∧ (2 ^ 64 ≤ sizeAlign cfg.psz args.size ∨
      ∃ start ∈ starts, 2 ^ 64 ≤ start + sizeAlign cfg.psz args.size) := by
  rcases bind_eq_error.mp h with hstop | ⟨size, hsize, hrest⟩
  · refine ⟨Profile.eq_of_fit_error hstop, Or.inl ?_⟩
    by_contra hlt
    cases hstop.symm.trans (Profile.fit_of_lt (Nat.lt_of_not_le hlt))
  · obtain ⟨start, hstart, hfail⟩ := forM_error hrest
    rcases bind_eq_error.mp hfail with hstop | ⟨_, -, hpure⟩
    · refine ⟨Profile.eq_of_fit_error hstop, ?_⟩
      by_contra hlt
      obtain ⟨hlt, hnone⟩ := not_or.mp hlt
      cases hsize.symm.trans (Profile.fit_of_lt (Nat.lt_of_not_le hlt))
      cases hstop.symm.trans (Profile.fit_of_lt (Nat.lt_of_not_le fun hle => hnone ⟨start, hstart, hle⟩))
    · cases hpure

theorem allocHeld_cases (args : AllocParams) (msg : String) (s : Dealings) :
    (∃ e, probe cfg p args (places s.state args) = .error e ∧
      allocHeld cfg p env places args msg s = (.error e, s)) ∨
    env.alloc s.state args = none ∧ allocHeld cfg p env places args msg s = (.error (.err msg), s) ∨
    ∃ ptr, env.alloc s.state args = some ptr ∧
      allocHeld cfg p env places args msg s = (.ok ptr, { s with held := ptr ::ₘ s.held }) := by
  unfold allocHeld
  cases probe cfg p args (places s.state args) with
  | error e => exact Or.inl ⟨e, rfl, rfl⟩
  | ok _ =>
      cases env.alloc s.state args with
      | none => exact Or.inr (Or.inl ⟨rfl, rfl⟩)
      | some ptr => exact Or.inr (Or.inr ⟨ptr, rfl, rfl⟩)

theorem allocHeld_eq_ok {args : AllocParams} {msg : String} {ptr : OwnedPtr} {s s' : Dealings}
    (h : allocHeld cfg p env places args msg s = (.ok ptr, s')) :
    env.alloc s.state args = some ptr ∧ s' = { s with held := ptr ::ₘ s.held } := by
  rcases @allocHeld_cases cfg p env places args msg s with ⟨e, -, hrun⟩ | ⟨-, hrun⟩ | ⟨q, hq, hrun⟩
  · cases hrun.symm.trans h
  · cases hrun.symm.trans h
  · cases hrun.symm.trans h
    exact ⟨hq, rfl⟩

theorem allocHeld_eq_err {args : AllocParams} {msg msg' : String} {s s' : Dealings}
    (h : allocHeld cfg p env places args msg s = (.error (.err msg'), s')) :
    env.alloc s.state args = none ∧ s' = s := by
  rcases @allocHeld_cases cfg p env places args msg s with ⟨e, hprobe, hrun⟩ | ⟨hnone, hrun⟩ | ⟨q, hq, hrun⟩
  · cases hrun.symm.trans h
    cases (probe_error hprobe).1
  · cases hrun.symm.trans h
    exact ⟨hnone, rfl⟩
  · cases hrun.symm.trans h

theorem projects_allocHeld (args : AllocParams) (msg : String) :
    Projects (allocHeld cfg p env places args msg) (allocOr env args msg) := by
  intro s ptr s' h
  obtain ⟨hptr, rfl⟩ := allocHeld_eq_ok h
  unfold allocOr
  rw [hptr]

theorem Projects.bind {m : CreateM α} {m' : BuildM α} {f : α → CreateM β} {f' : α → BuildM β} (hm : Projects m m')
    (hf : ∀ a, Projects (f a) (f' a)) : Projects (m >>= f) (m' >>= f') := by
  intro s b s' h
  obtain ⟨a, s₁, hfirst, hrest⟩ := Eff.bind_eq_ok.mp h
  rw [Eff.bind_of_ok (hm s a s₁ hfirst)]
  exact hf a s₁ b s' hrest

theorem projects_createSegment (g : Glacier) (fileBin : List Byte) (procAddr vaBase : Nat) (ph : ProgramHeader) :
    Projects (createSegment cfg arch p krvm env g fileBin procAddr vaBase ph)
      (loadSegment cfg arch p krvm env g fileBin procAddr vaBase ph) := by
  refine (projects_lift _).bind fun fromBase => (projects_lift _).bind fun physAddr => ?_
  refine (projects_onState _).bind fun _ => (projects_onState _).bind fun _ => ?_
  refine (projects_writing _ _ _).bind fun _ => (projects_lift _).bind fun fileEnd => ?_
  exact (projects_lift _).bind fun _ => (projects_writing _ _ _).bind fun _ => projects_pure _

theorem projects_createSegments (g : Glacier) (fileBin : List Byte) (procAddr vaBase : Nat)
    (phs : List ProgramHeader) :
    Projects (createSegments cfg arch p krvm env g fileBin procAddr vaBase phs)
      (loadSegments cfg arch p krvm env g fileBin procAddr vaBase phs) := by
  induction phs with
  | nil => exact projects_pure _
  | cons ph phs ih =>
      exact (projects_createSegment g fileBin procAddr vaBase ph).bind fun _ => ih.bind fun _ => projects_pure _

theorem projects_createStack (g : Glacier) :
    Projects (createStack cfg arch p env places g) (mapStack cfg arch p env g) := by
  refine (projects_allocHeld _ _).bind fun _ => (projects_lift _).bind fun _ => ?_
  exact (projects_onState _).bind fun _ => projects_pure _

/-- From the tables on, `create` is `new`. -/
theorem projects_create (elf : ElfFile) (fileBin : List Byte) :
    Projects (onState (newGlacier cfg krvm env) >>= fun g => createFrom cfg arch p krvm env places g elf fileBin)
      (new cfg arch p krvm env elf fileBin) := by
  refine (projects_onState _).bind fun g => (projects_lift _).bind fun bounds => (projects_lift _).bind fun size => ?_
  refine (projects_allocHeld _ _).bind fun procPtr => (projects_onState _).bind fun _ => ?_
  refine (projects_createSegments g fileBin _ _ _).bind fun maps => (projects_createStack g).bind fun stack => ?_
  refine (projects_onState _).bind fun _ => (projects_onState _).bind fun _ => ?_
  refine (projects_onState _).bind fun kstack => ?_
  exact (projects_onState _).bind fun _ => projects_pure _

/-- The ways through `create` up to the tables of the process: there is no buffer; the file cannot be read or
parsed, and the buffer is given back; or the process is built. -/
theorem create_cases (parse : List Byte → Except String ElfFile) (node : FileNode) (s : Dealings) :
    (∃ e, allocHeld cfg p env places (bufParams cfg node.size.toNat) "Failed to allocate buffer" s = (.error e, s) ∧
      create cfg arch p krvm env places parse node s = (.error e, s)) ∨
    ∃ buf, env.alloc s.state (bufParams cfg node.size.toNat) = some buf ∧
      ((∀ content elf, node.read = .ok content → parse ((List.range buf.size).map content) ≠ .ok elf) ∧
          (∃ msg, create cfg arch p krvm env places parse node s = (.error (.err msg), s)) ∨
        ∃ content elf, node.read = .ok content ∧ parse ((List.range buf.size).map content) = .ok elf ∧
          create cfg arch p krvm env places parse node s = dropAtEnd (dropBuf buf) (do
            let g ← onState (newGlacier cfg krvm env)
            dropOnErr (dropGlacier cfg g)
              (createFrom cfg arch p krvm env places g elf ((List.range buf.size).map content)))
            { s with held := buf ::ₘ s.held }) := by
  unfold create
  rcases @allocHeld_cases cfg p env places (bufParams cfg node.size.toNat) "Failed to allocate buffer" s with
    ⟨e, -, hrun⟩ | ⟨-, hrun⟩ | ⟨buf, hbuf, hrun⟩
  · exact Or.inl ⟨e, hrun, Eff.bind_of_error hrun⟩
  · exact Or.inl ⟨_, hrun, Eff.bind_of_error hrun⟩
  refine Or.inr ⟨buf, hbuf, ?_⟩
  rw [Eff.bind_of_ok hrun]
  have hback : dropBuf buf { s with held := buf ::ₘ s.held } = s := by
    rw [dropBuf, Multiset.erase_cons_head]
  cases hread : node.read with
  | error msg =>
      refine Or.inl ⟨nofun, msg, ?_⟩
      exact congrArg (Prod.mk _) hback
  | ok content =>
      cases hparse : parse ((List.range buf.size).map content) with
      | error msg =>
          refine Or.inl ⟨fun c elf hc hok => ?_, msg, ?_⟩
          · cases hc
            rw [hparse] at hok
            cases hok
          · show dropAtEnd (dropBuf buf) (Eff.lift (Except.mapError _ (parse _)) >>= _) _ = _
            rw [hparse]
            exact congrArg (Prod.mk _) hback
      | ok elf =>
          refine Or.inr ⟨content, elf, rfl, hparse, ?_⟩
          show dropAtEnd (dropBuf buf) (Eff.lift (Except.mapError _ (parse _)) >>= _) _ = _
          rw [hparse]
          rfl

theorem dropAtEnd_eq_ok {drop : Dealings → Dealings} {m : CreateM α} {s s' : Dealings} {a : α}
    (h : dropAtEnd drop m s = (.ok a, s')) : ∃ t, m s = (.ok a, t) ∧ s' = drop t := by
  unfold dropAtEnd at h
  split at h
  · rename_i t hrun
    cases h
    exact ⟨t, hrun, rfl⟩
  · cases h
  · cases h

theorem dropAtEnd_eq_err {drop : Dealings → Dealings} {m : CreateM α} {s s' : Dealings} {msg : String}
    (h : dropAtEnd drop m s = (.error (.err msg), s')) : ∃ t, m s = (.error (.err msg), t) ∧ s' = drop t := by
  unfold dropAtEnd at h
  split at h
  · cases h
  · rename_i t hrun
    cases h
    exact ⟨t, hrun, rfl⟩
  · rename_i e t hne hrun
    cases h
    exact absurd rfl (hne msg)

theorem dropOnErr_eq_ok {drop : Dealings → Dealings} {m : CreateM α} {s s' : Dealings} {a : α}
    (h : dropOnErr drop m s = (.ok a, s')) : m s = (.ok a, s') := by
  unfold dropOnErr at h
  split at h
  · cases h
  · exact h

theorem dropOnErr_eq_err {drop : Dealings → Dealings} {m : CreateM α} {s s' : Dealings} {msg : String}
    (h : dropOnErr drop m s = (.error (.err msg), s')) : ∃ t, m s = (.error (.err msg), t) ∧ s' = drop t := by
  unfold dropOnErr at h
  split at h
  · rename_i t hrun
    cases h
    exact ⟨t, hrun, rfl⟩
  · rename_i hne
    exact absurd h (hne msg s')

/-- A process that is returned is the one that `new` builds from the file in the buffer. -/
theorem new_of_create {parse : List Byte → Except String ElfFile} {node : FileNode} {s s' : Dealings}
    {pcb : ProcCtrlBlk} (h : create cfg arch p krvm env places parse node s = (.ok pcb, s')) :
    ∃ buf content elf, env.alloc s.state (bufParams cfg node.size.toNat) = some buf ∧ node.read = .ok content ∧
      parse ((List.range buf.size).map content) = .ok elf ∧
      new cfg arch p krvm env elf ((List.range buf.size).map content) s.state = (.ok pcb, s'.state) := by
  rcases @create_cases cfg arch p krvm env places parse node s with
    ⟨e, -, hrun⟩ | ⟨buf, hbuf, ⟨-, msg, hrun⟩ | ⟨content, elf, hread, hparse, hrun⟩⟩
  · rw [hrun] at h
    cases h
  · rw [hrun] at h
    cases h
  rw [hrun] at h
  obtain ⟨t, hinner, rfl⟩ := dropAtEnd_eq_ok h
  obtain ⟨g, s₁, hg, hrest⟩ := Eff.bind_eq_ok.mp hinner
  have hboth : (onState (newGlacier cfg krvm env) >>= fun g =>
      createFrom cfg arch p krvm env places g elf ((List.range buf.size).map content))
      { s with held := buf ::ₘ s.held } = (.ok pcb, t) := by
    rw [Eff.bind_of_ok hg]
    exact dropOnErr_eq_ok hrest
  refine ⟨buf, content, elf, hbuf, hread, hparse, ?_⟩
  exact projects_create elf _ { s with held := buf ::ₘ s.held } pcb t hboth

/-! ### What an `Err` gives back -/

/-- The memory that is out is the same: the data in the ledger, and the tables that were taken and not freed. -/
def Restored (s s' : Dealings) : Prop :=
  s'.held = s.held ∧ (s'.state.ram.taken : Multiset Word) + (s.state.ram.freed.map Prod.fst : List Word) =
    (s.state.ram.taken : Multiset Word) + (s'.state.ram.freed.map Prod.fst : List Word)

/-- A glacier that has mapped nothing gives back its root. -/
theorem drop_new {g : Glacier} {r r' : Ram} {answer : Option Word} (h : Glacier.new cfg krvm answer r = .ok (g, r')) :
    r'.taken = r.taken ++ [g.rootTable] ∧ (Glacier.drop cfg g r').taken = r'.taken ∧
      (Glacier.drop cfg g r').freed.map Prod.fst = r.freed.map Prod.fst ++ [g.rootTable] := by
  cases answer with
  | none => cases h
  | some root =>
      cases h
      have hhalf : cfg.entCnt 0 >>> 1 = dropWidth cfg cfg.depth := by
        rw [dropWidth, if_pos rfl, RvmCfg.width, Nat.sub_self]
      rw [Glacier.drop, if_pos rfl]
      obtain ⟨-, htaken, freed, hfreed, hperm⟩ := @dropRec_spec cfg cfg.depth root _
      refine ⟨rfl, htaken, ?_⟩
      rw [tablesFrom_blank fun i hi => zero_slot _ root (hhalf ▸ hi), List.perm_singleton] at hperm
      rw [hfreed, List.map_append, hperm]
      rfl

theorem unwrap_error {x : Option α} {e : BuildStop} (h : unwrap x = .error e) : e = .panic := by
  cases x <;> cases h
  rfl

/-- The bounds of a process are found, or the kernel panics. -/
theorem getProcVaset_error {elf : ElfFile} {e : BuildStop} (h : getProcVaset p elf = .error e) : e = .panic := by
  rcases bind_eq_error.mp h with h | ⟨lo, -, h⟩
  · exact unwrap_error h
  rcases bind_eq_error.mp h with h | ⟨ends, -, h⟩
  · obtain ⟨ph, -, hfail⟩ := mapM_error h
    exact Profile.eq_of_fit_error hfail
  rcases bind_eq_error.mp h with h | ⟨hi, -, h⟩
  · exact unwrap_error h
  · cases h

section Kept

/-- A property of the ledger. -/
def onLedger (I : Multiset OwnedPtr → List (OwnedPtr × Multiset OwnedPtr) → Prop) (s : Dealings) : Prop :=
  I s.held s.written

variable {I : Multiset OwnedPtr → List (OwnedPtr × Multiset OwnedPtr) → Prop}

theorem keeps_onState (m : BuildM α) : Eff.Keeps (onLedger I) (onState m) := fun _ h => h

theorem keeps_writing {addr size : Nat} (m : BuildM Unit)
    (hI : ∀ held written, I held written → I held (written ++ [(⟨addr, size⟩, held)])) :
    Eff.Keeps (onLedger I) (writing addr size m) :=
  fun s h => hI s.held s.written h

theorem keeps_allocHeld (args : AllocParams) (msg : String)
    (hI : ∀ ptr held written, I held written → I (ptr ::ₘ held) written) :
    Eff.Keeps (onLedger I) (allocHeld cfg p env places args msg) := by
  intro s h
  rcases @allocHeld_cases cfg p env places args msg s with ⟨e, -, hrun⟩ | ⟨-, hrun⟩ | ⟨ptr, -, hrun⟩ <;> rw [hrun]
  · exact h
  · exact h
  · exact hI ptr _ _ h

theorem keeps_createSegment (g : Glacier) (fileBin : List Byte) {procAddr vaBase : Nat} {ph : ProgramHeader}
    (hI : ∀ fromBase addr, p.fit BuildStop.panic 64 ((ph.virtualAddr.toNat : Int) - vaBase) = .ok fromBase →
      p.fit BuildStop.panic 64 (procAddr + fromBase : Nat) = .ok addr →
      ∀ size, size = ph.memSize.toNat ∨ size = ph.fileSize.toNat →
      ∀ held written, I held written → I held (written ++ [(⟨addr, size⟩, held)])) :
    Eff.Keeps (onLedger I) (createSegment cfg arch p krvm env g fileBin procAddr vaBase ph) := by
  refine Eff.Keeps.lift_bind fun fromBase hfrom => Eff.Keeps.lift_bind fun addr haddr => ?_
  have hwrite := hI fromBase addr hfrom haddr
  refine (keeps_onState _).bind fun _ _ _ _ => (keeps_onState _).bind fun _ _ _ _ => ?_
  refine (keeps_writing _ (hwrite _ (Or.inl rfl))).bind fun _ _ _ _ => Eff.Keeps.lift_bind fun _ _ => ?_
  refine Eff.Keeps.lift_bind fun _ _ => (keeps_writing _ (hwrite _ (Or.inr rfl))).bind fun _ _ _ _ => ?_
  exact fun _ h => h

theorem keeps_createSegments (g : Glacier) (fileBin : List Byte) {procAddr vaBase : Nat} {phs : List ProgramHeader}
    (hI : ∀ ph ∈ phs, ∀ fromBase addr, p.fit BuildStop.panic 64 ((ph.virtualAddr.toNat : Int) - vaBase) = .ok fromBase →
      p.fit BuildStop.panic 64 (procAddr + fromBase : Nat) = .ok addr →
      ∀ size, size = ph.memSize.toNat ∨ size = ph.fileSize.toNat →
      ∀ held written, I held written → I held (written ++ [(⟨addr, size⟩, held)])) :
    Eff.Keeps (onLedger I) (createSegments cfg arch p krvm env g fileBin procAddr vaBase phs) := by
  induction phs with
  | nil => exact fun _ h => h
  | cons ph phs ih =>
      refine (keeps_createSegment g fileBin (hI ph List.mem_cons_self)).bind fun _ _ _ _ => ?_
      exact (ih fun q hq => hI q (List.mem_cons_of_mem ph hq)).bind fun _ _ _ _ _ h => h

theorem keeps_createStack (g : Glacier) (hI : ∀ ptr held written, I held written → I (ptr ::ₘ held) written) :
    Eff.Keeps (onLedger I) (createStack cfg arch p env places g) := by
  refine (keeps_allocHeld _ _ hI).bind fun _ _ _ _ => (Eff.keeps_lift _).bind fun _ _ _ _ => ?_
  exact (keeps_onState _).bind fun _ _ _ _ _ h => h

theorem keeps_createRest (g : Glacier) (elf : ElfFile) (procPtr : OwnedPtr) (maps : List VRamMap)
    (hI : ∀ ptr held written, I held written → I (ptr ::ₘ held) written) :
    Eff.Keeps (onLedger I) (createRest cfg arch p krvm env places g elf procPtr maps) := by
  refine (keeps_createStack g hI).bind fun _ _ _ _ => ?_
  refine (keeps_onState _).bind fun _ _ _ _ => (keeps_onState _).bind fun _ _ _ _ => ?_
  exact (keeps_onState _).bind fun _ _ _ _ => (keeps_onState _).bind fun _ _ _ _ _ h => h

end Kept

theorem keeps_held (g : Glacier) (elf : ElfFile) (fileBin : List Byte) (lo : Nat) (procPtr : OwnedPtr)
    (least : Multiset OwnedPtr) :
    Eff.Keeps (fun s => least ≤ s.held) (createWith cfg arch p krvm env places g elf fileBin lo procPtr) := by
  show Eff.Keeps (onLedger fun held _ => least ≤ held) _
  refine (keeps_onState _).bind fun _ _ _ _ => ?_
  refine (keeps_createSegments g fileBin fun _ _ _ _ _ _ _ _ _ _ hle => hle).bind fun _ _ _ _ => ?_
  exact keeps_createRest g elf procPtr _ fun q held _ hle => le_trans hle (Multiset.le_cons_self held q)

/-- The memory for the process is granted: the buffer before it is, the file is read and parsed, and the bounds of
the process are found. -/
def Granted (cfg : RvmCfg) (p : Profile) (krvm : Glacier) (env : ProcEnv) (parse : List Byte → Except String ElfFile)
    (node : FileNode) (s : ProcRam) : Prop :=
  ∃ buf content elf g s₁ lo hi size ptr, env.alloc s (bufParams cfg node.size.toNat) = some buf ∧
    node.read = .ok content ∧ parse ((List.range buf.size).map content) = .ok elf ∧
    newGlacier cfg krvm env s = (.ok g, s₁) ∧ getProcVaset p elf = .ok (lo, hi) ∧
    p.fit BuildStop.panic 64 ((hi : Int) - lo) = .ok size ∧ env.alloc s₁ (.new cfg.psz size) = some ptr

theorem newGlacier_eq_ok {g : Glacier} {s s' : ProcRam} (h : newGlacier cfg krvm env s = (.ok g, s')) :
    ∃ r, Glacier.new cfg krvm env.root s.ram = .ok (g, r) ∧ s' = { s with ram := r } := by
  unfold newGlacier at h
  split at h
  · rename_i g' r hnew
    cases h
    exact ⟨r, hnew, rfl⟩
  · cases h

theorem newGlacier_error {e : BuildStop} {s s' : ProcRam} (h : newGlacier cfg krvm env s = (.error e, s')) :
    e = .panic := by
  unfold newGlacier at h
  split at h
  · cases h
  · cases h
    rfl

/-- An `Err` after the tables were made: there is no memory for the process, or it stays out. -/
theorem createFrom_eq_err {g : Glacier} {elf : ElfFile} {fileBin : List Byte} {s s' : Dealings} {msg : String}
    (h : createFrom cfg arch p krvm env places g elf fileBin s = (.error (.err msg), s')) :
    ∃ lo hi size, getProcVaset p elf = .ok (lo, hi) ∧ p.fit BuildStop.panic 64 ((hi : Int) - lo) = .ok size ∧
      (env.alloc s.state (.new cfg.psz size) = none ∧ s' = s ∨
        ∃ ptr, env.alloc s.state (.new cfg.psz size) = some ptr ∧ ptr ::ₘ s.held ≤ s'.held) := by
  rcases Eff.bind_eq_error h with hstop | ⟨⟨lo, hi⟩, s₁, hbounds, hrest⟩
  · cases getProcVaset_error (congrArg Prod.fst hstop)
  obtain ⟨hvaset, rfl⟩ := Eff.lift_eq_ok hbounds
  rcases Eff.bind_eq_error hrest with hstop | ⟨size, s₂, hsize, hlast⟩
  · cases Profile.eq_of_fit_error (congrArg Prod.fst hstop)
  obtain ⟨hfit, rfl⟩ := Eff.lift_eq_ok hsize
  refine ⟨lo, hi, size, hvaset, hfit, ?_⟩
  rcases Eff.bind_eq_error hlast with hstop | ⟨ptr, s₃, hptr, hwith⟩
  · exact Or.inl (allocHeld_eq_err hstop)
  · obtain ⟨hgranted, rfl⟩ := allocHeld_eq_ok hptr
    exact Or.inr ⟨ptr, hgranted, (keeps_held g elf fileBin lo ptr (ptr ::ₘ s₂.held)).after hwith (le_refl _)⟩

/-- Glacier and buffer, dropped when nothing was mapped, leave what there was before. -/
theorem restored_dropGlacier {g : Glacier} {buf : OwnedPtr} {s s₁ : Dealings}
    (hnew : newGlacier cfg krvm env s.state = (.ok g, s₁.state)) (hheld : s₁.held = buf ::ₘ s.held) :
    Restored s (dropBuf buf (dropGlacier cfg g s₁)) := by
  obtain ⟨r, hglacier, hstate⟩ := newGlacier_eq_ok hnew
  obtain ⟨htaken, hkept, hfreed⟩ := drop_new hglacier
  constructor
  · show s₁.held.erase buf = s.held
    rw [hheld, Multiset.erase_cons_head]
  · show ((Glacier.drop cfg g s₁.state.ram).taken : Multiset Word) + _ =
      _ + ((Glacier.drop cfg g s₁.state.ram).freed.map Prod.fst : List Word)
    rw [hstate, hkept, htaken, hfreed, ← Multiset.coe_add, ← Multiset.coe_add, Multiset.add_assoc,
      Multiset.add_comm (↑[g.rootTable] : Multiset Word)]

/-- An `Err` gives back all that was taken exactly if the memory for the process was not granted. -/
theorem create_err_restored {parse : List Byte → Except String ElfFile} {node : FileNode} {s s' : Dealings}
    {msg : String} (h : create cfg arch p krvm env places parse node s = (.error (.err msg), s')) :
    Restored s s' ↔ ¬Granted cfg p krvm env parse node s.state := by
  rcases @create_cases cfg arch p krvm env places parse node s with
    ⟨e, hbuf, hrun⟩ | ⟨buf, hbuf, ⟨hno, msg', hrun⟩ | ⟨content, elf, hread, hparse, hrun⟩⟩
  · cases hrun.symm.trans h
    refine iff_of_true ⟨rfl, rfl⟩ ?_
    rintro ⟨buf, -, -, -, -, -, -, -, -, hgranted, -⟩
    cases (allocHeld_eq_err hbuf).1.symm.trans hgranted
  · cases hrun.symm.trans h
    refine iff_of_true ⟨rfl, rfl⟩ ?_
    rintro ⟨buf', content, elf, -, -, -, -, -, -, hbuf', hread, hparse, -⟩
    cases hbuf.symm.trans hbuf'
    exact hno content elf hread hparse
  obtain ⟨t, hinner, rfl⟩ := dropAtEnd_eq_err (hrun.symm.trans h)
  rcases Eff.bind_eq_error hinner with hg | ⟨g, s₁, hg, hrest⟩
  · cases newGlacier_error (onState_eq hg).1
  obtain ⟨hnew, hs₁⟩ := onState_eq hg
  obtain ⟨t', hfrom, rfl⟩ := dropOnErr_eq_err hrest
  obtain ⟨lo, hi, size, hvaset, hsize, ⟨hptr, rfl⟩ | ⟨ptr, hptr, hout⟩⟩ := createFrom_eq_err hfrom
  · refine iff_of_true (restored_dropGlacier hnew hs₁.1) ?_
    rintro ⟨buf', content', elf', g', s₂, lo', hi', size', ptr, hbuf', hread', hparse', hnew', hvaset', hsize', hptr'⟩
    cases hbuf.symm.trans hbuf'
    cases hread.symm.trans hread'
    cases hparse.symm.trans hparse'
    cases hnew.symm.trans hnew'
    cases hvaset.symm.trans hvaset'
    cases hsize.symm.trans hsize'
    cases hptr.symm.trans hptr'
  · refine iff_of_false ?_ (not_not.mpr ⟨buf, content, elf, g, s₁.state, lo, hi, size, ptr, hbuf, hread, hparse, hnew,
      hvaset, hsize, hptr⟩)
    rintro ⟨hheld, -⟩
    rw [hs₁.1] at hout
    -- the buffer goes back, the memory of the process does not
    have hleft : ptr ::ₘ s.held ≤ s.held :=
      calc ptr ::ₘ s.held = (ptr ::ₘ buf ::ₘ s.held).erase buf := by
            rw [Multiset.cons_swap, Multiset.erase_cons_head]
        _ ≤ t'.held.erase buf := Multiset.erase_le_erase buf hout
        _ = s.held := hheld
    exact absurd (Multiset.card_le_card hleft) (by rw [Multiset.card_cons]; exact Nat.not_succ_le_self _)

/-- The allocator of `narrowEnv`, with a place of its own for the buffer, where it grants a request at all. -/
def fileEnv (grants : AllocParams → Bool) : ProcEnv :=
  { narrowEnv with
    alloc := fun s args =>
      if grants args then
        if args.asType = .kernelData ∧ args.align ∣ 0x30000000 ∧ args.size ≤ 0x1000000 then
          some ⟨0x30000000, sizeAlign narrowCfg.psz args.size⟩
        else narrowEnv.alloc s args
      else none }

/-- A file of four bytes. -/
def plainNode : FileNode := ⟨4, .ok fun i => if i < 4 then BitVec.ofNat 8 (i + 1) else 0⟩

/-- Before the call. -/
def atBoot : Dealings := ⟨bootRam narrowCfg, 0, []⟩

/-- The call, for a file in which `xmas_elf` finds the given headers. -/
def createRun (grants : AllocParams → Bool) (elf : ElfFile) : Except BuildStop ProcCtrlBlk × Dealings :=
  create narrowCfg .aarch64 .dev bootGlacier (fileEnv grants) (fun _ _ => [0x20000000]) (fun _ => .ok elf) plainNode
    atBoot

theorem create_err_restored_onlyBuffer :
    (createRun (fun args => args.asType = .kernelData) plainElf).1 =
      .error (.err "Failed to allocate process memory") ∧
    Restored atBoot (createRun (fun args => args.asType = .kernelData) plainElf).2 := by
  have hstop : (createRun (fun args => args.asType = .kernelData) plainElf).1 =
      .error (.err "Failed to allocate process memory") := by decide +kernel
  refine ⟨hstop, (create_err_restored (Prod.ext hstop rfl)).mpr ?_⟩
  rintro ⟨_, _, _, _, _, _, _, _, _, -, -, -, -, -, -, hptr⟩
  cases hptr

/-- Without a user stack the memory of the process stays out. -/
theorem create_loses_procMemory :
    (createRun (fun args => args.size ≠ stackSize) plainElf).1 = .error (.err "Failed to allocate user stack") ∧
    ¬Restored atBoot (createRun (fun args => args.size ≠ stackSize) plainElf).2 := by
  refine ⟨by decide +kernel, fun h => ?_⟩
  have hheld : (createRun (fun args => args.size ≠ stackSize) plainElf).2.held = {⟨0x20000000, 0x10000⟩} := by
    decide +kernel
  have hnone := h.1
  rw [hheld] at hnone
  exact absurd hnone (by decide)

end ProcCtrlBlk

end UnixKernel
