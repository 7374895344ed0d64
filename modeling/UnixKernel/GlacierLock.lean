import UnixKernel.Acpi
import UnixKernel.KernelHeap
import UnixKernel.ProcCtrlBlk

/-! The write lock of `GLACIER` and the global allocator. `KernelStack::new` and `map_physical_region` allocate on the
kernel heap while they hold the lock, the one for its buffer and the other for the nodes of `ACPI_MAP`; a heap without
room for them calls `handle_oom`, which takes the lock to map the memory it gets. -/

namespace UnixKernel

/-- Memory, `ACPI_MAP`, the blocks on the heap, and whether the running CPU holds `GLACIER`. -/
structure LockState where
  heap : HeapState
  acpiMap : Nat → Option Nat
  made : List Layout
  held : Bool

inductive LockStop where
  | deadlock
  | oom (e : OomStop)
  | panic
  /-- Null is given back to `talc`. -/
  | freesNull
  deriving DecidableEq, Repr

abbrev LockM := Eff LockState LockStop

/-- The allocators, and for the heap: whether a block fits into it as it is, and where the block lies. `nodes` are the
blocks that `BTreeMap::insert` of a new key allocates. -/
structure LockEnv extends HeapEnv where
  fits : LockState → Layout → Bool
  place : LockState → Layout → Nat
  nodes : (Nat → Option Nat) → Nat → List Layout

/-- `stack_size` of a kernel stack. -/
def kernelStackSize (pg : BPage) : Nat := max pg.size 0x4000

/-- The layout of `VirtPageBuf::new(stack_size() + page_size())`. -/
def stackLayout (pg : BPage) : Layout where
  size := kernelStackSize pg + pg.size
  align := pg.size
  size_lt := by cases pg <;> decide

namespace GlacierLock

open Glacier KheapHandler

section Model

variable (cfg : RvmCfg) (arch : Arch) (p : Profile) (g : Glacier) (base : Nat) (env : LockEnv) (retries : Nat)

/-- What is done with a guard of `GLACIER.write()`, dropped at the end. A second acquisition by the holder never
succeeds. -/
def withLock {α : Type} (m : LockM α) : LockM α := fun s =>
  if s.held then (.error .deadlock, s)
  else ((m { s with held := true }).1, { (m { s with held := true }).2 with held := false })

def onHeap {α : Type} (m : HeapM α) : LockM α := fun s =>
  match m s.heap with
  | (.ok a, heap) => (.ok a, { s with heap })
  | (.error e, heap) => (.error (.oom e), { s with heap })

/-- The loop of `handle_oom`. A round takes the lock for `map_range` and once more for `unmap_range`, which is the
same as to hold it in between. -/
def growLoop : Nat → Nat → LockM Unit
  | 0, _ => Eff.lift (.error (.oom .fuel))
  | fuel + 1, rem =>
    if rem = 0 then pure ()
    else do
      let ptr ← onHeap (tryAlloc cfg env.toHeapEnv rem rem)
      withLock (onHeap (growBy cfg arch p g base env.toHeapEnv ptr))
      growLoop fuel (rem - ptr.size)

def handleOom (layout : Layout) : LockM Unit := do
  let size ← onHeap (Eff.lift (request cfg p layout))
  growLoop cfg arch p g base env (size + 1) size

/-- `malloc` of `talc`: as long as the block does not fit, `handle_oom` is called; if that fails there is none. -/
def malloc (layout : Layout) : Nat → LockM (Option Nat)
  | 0 => Eff.lift (.error (.oom .fuel))
  | retries + 1 => fun s =>
    if env.fits s layout then (.ok (some (env.place s layout)), { s with made := s.made ++ [layout] })
    else
      match handleOom cfg arch p g base env layout s with
      | (.ok (), s) => malloc layout retries s
      | (.error (.oom .err), s) => (.ok none, s)
      | (.error e, s) => (.error e, s)

/-- The first page of the buffer is taken out of the tables. -/
def takeGuardPage (va : Word) : LockM (Option KernelStack) := fun s =>
  match getPa cfg g va s.heap.ram with
  | some pa => (.ok (some ⟨va, pa⟩), { s with heap := { s.heap with ram := unmapPage cfg g va s.heap.ram } })
  | none => (.ok none, s)

/-- `drop` of the buffer, the last block that was allocated. -/
def dropBuf : LockM Unit := fun s => (.ok (), { s with made := s.made.dropLast })

/-- `KernelStack::new` with the null that `alloc_zeroed` returns without memory, and that `VirtPageBuf::new` does not
look at. A build with debug assertions refuses the slice that `as_ptr` is called on. -/
def nullKernelStack : LockM (Option KernelStack) :=
  match p with
  | .dev => Eff.lift (.error .panic)
  | .release => do
      let stack ← takeGuardPage cfg g 0
      Eff.lift (stack.elim (.error .freesNull) fun stack => .ok (some stack))

/-- `KernelStack::new`. -/
def newKernelStack : LockM (Option KernelStack) := withLock do
  let ptr ← malloc cfg arch p g base env (stackLayout cfg.psz) (retries + 1)
  match ptr with
  | none => nullKernelStack cfg p g
  | some addr => do
      let stack ← takeGuardPage cfg g (BitVec.ofNat 64 addr)
      if stack.isNone then dropBuf
      pure stack

/-- The allocations of `acpi_map.insert`; a failed one stops the kernel. -/
def allocNodes : List Layout → LockM Unit
  | [] => pure ()
  | layout :: layouts => do
      let ptr ← malloc cfg arch p g base env layout (retries + 1)
      Eff.lift (ptr.elim (.error .panic) fun _ => .ok ())
      allocNodes layouts

def onAcpi {α : Type} (m : Eff AcpiState RangeStop α) : LockM α := fun s =>
  match m ⟨s.heap.ram, s.acpiMap⟩ with
  | (.ok a, t) => (.ok a, { s with heap := { s.heap with ram := t.ram }, acpiMap := t.acpiMap })
  | (.error _, t) => (.error .panic, { s with heap := { s.heap with ram := t.ram }, acpiMap := t.acpiMap })

/-- One round of the loop of `map_physical_region`. -/
def mapAddr (addr : Nat) : LockM Unit := fun s =>
  match s.acpiMap addr with
  | some _ => onAcpi (Acpi.mapAddr cfg arch g env.tables addr) s
  | none =>
    (do
      allocNodes cfg arch p g base env retries (env.nodes s.acpiMap addr)
      onAcpi (Acpi.mapAddr cfg arch g env.tables addr) : LockM Unit) s

def mapAddrs : List Nat → LockM Unit
  | [] => pure ()
  | addr :: addrs => do
      mapAddr cfg arch p g base env retries addr
      mapAddrs addrs

def mapPhysicalRegion (physAddr size : Nat) : LockM PhysicalMapping := withLock do
  let addrs ← onAcpi (Eff.lift (Acpi.pageSpan cfg p physAddr size))
  mapAddrs cfg arch p g base env retries addrs
  let virtualStart ← onAcpi (Eff.lift (Acpi.nonNull p physAddr))
  pure ⟨physAddr, virtualStart, size, size⟩

/-! ### When the heap grows under the lock -/

/-- The block does not fit into the heap, and `PHYS_ALLOC` has memory to enlarge it. -/
def Refills (s : LockState) (layout : Layout) : Prop :=
  env.fits s layout = false ∧ ∃ size, request cfg p layout = .ok size ∧ 0 < size ∧
    (tryAlloc cfg env.toHeapEnv size size s.heap).1.isOk = true

/-- The block does not fit into the heap, and `PHYS_ALLOC` refuses every request of `handle_oom`. -/
def Starves (s : LockState) (layout : Layout) : Prop :=
  env.fits s layout = false ∧ ∃ size, request cfg p layout = .ok size ∧ 0 < size ∧
    (tryAlloc cfg env.toHeapEnv size size s.heap).1 = .error .err

/-- Every block fits into the heap, one after the other. -/
def RoomNodes : List Layout → LockState → Prop
  | [], _ => True
  | layout :: layouts, s => env.fits s layout = true ∧ RoomNodes layouts { s with made := s.made ++ [layout] }

/-- In every round the nodes of `ACPI_MAP` fit into the heap. -/
def RoomAddrs : List Nat → LockState → Prop
  | [], _ => True
  | addr :: addrs, s =>
      (s.acpiMap addr = none → RoomNodes env (env.nodes s.acpiMap addr) s) ∧
      RoomAddrs addrs (mapAddr cfg arch p g base env retries addr s).2

/-- None of the blocks enlarges the heap. -/
def QuietNodes : List Layout → LockState → Prop
  | [], _ => True
  | layout :: layouts, s => ¬Refills cfg p env s layout ∧
      ∀ ptr s', malloc cfg arch p g base env layout (retries + 1) s = (.ok (some ptr), s') → QuietNodes layouts s'

end Model

variable {cfg : RvmCfg} {arch : Arch} {p : Profile} {g : Glacier} {base : Nat} {env : LockEnv} {retries : Nat}
  {s : LockState}

/-! ### The lock is free -/

theorem onHeap_bind {α β : Type} (m : HeapM α) (f : α → HeapM β) :
    onHeap (m >>= f) = onHeap m >>= fun a => onHeap (f a) := by
  funext s
  rcases hm : m s.heap with ⟨e | a, heap⟩
  · have hbind : (m >>= f) s.heap = (.error e, heap) := Eff.bind_of_error hm
    have hfirst : onHeap m s = (.error (.oom e), { s with heap }) := by simp only [onHeap, hm]
    rw [Eff.bind_of_error hfirst]
    simp only [onHeap, hbind]
  · have hbind : (m >>= f) s.heap = f a heap := Eff.bind_of_ok hm
    have hfirst : onHeap m s = (.ok a, { s with heap }) := by simp only [onHeap, hm]
    rw [Eff.bind_of_ok hfirst]
    simp only [onHeap, hbind]

theorem held_onHeap {α : Type} (m : HeapM α) (s : LockState) : (onHeap m s).2.held = s.held := by
  unfold onHeap
  split <;> rfl

theorem withLock_free {α : Type} (hfree : s.held = false) (m : HeapM α) : withLock (onHeap m) s = onHeap m s := by
  obtain ⟨heap, acpiMap, made, held⟩ := s
  cases hfree
  rcases hm : m heap with ⟨e | a, heap'⟩ <;> simp [withLock, onHeap, hm]

/-- Whoever does not hold the lock can enlarge the heap. -/
theorem growLoop_free (hfree : s.held = false) (fuel rem : Nat) : growLoop cfg arch p g base env fuel rem s =
    onHeap (KheapHandler.growLoop cfg arch p g base env.toHeapEnv fuel rem) s := by
  induction fuel generalizing s rem with
  | zero => rfl
  | succ fuel ih =>
    unfold growLoop KheapHandler.growLoop
    by_cases hrem : rem = 0
    · rw [if_pos hrem, if_pos hrem]
      rfl
    · rw [if_neg hrem, if_neg hrem, onHeap_bind]
      have hheld := held_onHeap (tryAlloc cfg env.toHeapEnv rem rem) s
      rcases htry : onHeap (tryAlloc cfg env.toHeapEnv rem rem) s with ⟨e | ptr, s₁⟩
      · rw [Eff.bind_of_error htry, Eff.bind_of_error htry]
      · rw [htry] at hheld
        rw [Eff.bind_of_ok htry, Eff.bind_of_ok htry, onHeap_bind]
        have hlock := withLock_free (hheld.trans hfree) (growBy cfg arch p g base env.toHeapEnv ptr)
        have hheld₂ := held_onHeap (growBy cfg arch p g base env.toHeapEnv ptr) s₁
        rcases hgrow : onHeap (growBy cfg arch p g base env.toHeapEnv ptr) s₁ with ⟨e | _, s₂⟩
        · rw [Eff.bind_of_error hgrow, Eff.bind_of_error (hlock.trans hgrow)]
        · rw [hgrow] at hheld₂
          rw [Eff.bind_of_ok hgrow, Eff.bind_of_ok (hlock.trans hgrow)]
          exact ih (hheld₂.trans (hheld.trans hfree)) _

/-- `handle_oom` with the lock free, as it was modelled without one. -/
theorem handleOom_free (hfree : s.held = false) (layout : Layout) : handleOom cfg arch p g base env layout s =
    onHeap (KheapHandler.handleOom cfg arch p g base env.toHeapEnv layout) s := by
  unfold handleOom KheapHandler.handleOom
  rw [onHeap_bind]
  have hheld := held_onHeap (Eff.lift (request cfg p layout)) s
  rcases hsize : onHeap (Eff.lift (request cfg p layout)) s with ⟨e | size, s₁⟩
  · rw [Eff.bind_of_error hsize, Eff.bind_of_error hsize]
  · rw [hsize] at hheld
    rw [Eff.bind_of_ok hsize, Eff.bind_of_ok hsize, growLoop_free (hheld.trans hfree)]

/-! ### The lock is held -/

theorem onAcpi_held {α : Type} (m : Eff AcpiState RangeStop α) (s : LockState) :
    (onAcpi m s).1 ≠ .error .deadlock ∧ (onAcpi m s).2.held = s.held := by
  unfold onAcpi
  split <;> simp

theorem tryAlloc_ram (henv : HeapEnv) (fuel trySz : Nat) (heap : HeapState) :
    (tryAlloc cfg henv fuel trySz heap).2.ram = heap.ram := by
  induction fuel generalizing trySz heap with
  | zero => rfl
  | succ fuel ih =>
    unfold tryAlloc
    split
    · rfl
    · split_ifs
      · exact ih ..
      · rfl

/-- How an allocation by the holder ends where the block does not fit: it waits for good where a chunk is given. -/
def fullResult (cfg : RvmCfg) (p : Profile) (env : LockEnv) (layout : Layout) (s : LockState) :
    Except LockStop (Option Nat) :=
  match request cfg p layout with
  | .error e => .error (.oom e)
  | .ok 0 => .error (.oom .fuel)
  | .ok size =>
    match (tryAlloc cfg env.toHeapEnv size size s.heap).1 with
    | .ok _ => .error .deadlock
    | .error .err => .ok none
    | .error e => .error (.oom e)

/-- `handle_oom` for the holder: it stops for good where a chunk is given, and else returns with an error. -/
theorem handleOom_held (hheld : s.held = true) {layout : Layout} {size : Nat} (hsize : request cfg p layout = .ok size)
    (hpos : 0 < size) : ∃ heap, heap.ram = s.heap.ram ∧ handleOom cfg arch p g base env layout s =
      ((match (tryAlloc cfg env.toHeapEnv size size s.heap).1 with
        | .ok _ => .error .deadlock
        | .error e => .error (.oom e)), { s with heap }) := by
  have hreq : onHeap (Eff.lift (request cfg p layout)) s = (.ok size, s) := by
    simp only [onHeap, Eff.lift, hsize]
  have hram := @tryAlloc_ram cfg env.toHeapEnv size size s.heap
  unfold handleOom
  rw [Eff.bind_of_ok hreq, growLoop, if_neg hpos.ne']
  rcases htry : tryAlloc cfg env.toHeapEnv size size s.heap with ⟨e | ptr, heap⟩
  · have hfirst : onHeap (tryAlloc cfg env.toHeapEnv size size) s = (.error (.oom e), { s with heap }) := by
      simp only [onHeap, htry]
    rw [htry] at hram
    exact ⟨heap, hram, Eff.bind_of_error hfirst⟩
  · have hfirst : onHeap (tryAlloc cfg env.toHeapEnv size size) s = (.ok ptr, { s with heap }) := by
      simp only [onHeap, htry]
    have hlock : withLock (onHeap (growBy cfg arch p g base env.toHeapEnv ptr)) { s with heap } =
        (.error .deadlock, { s with heap }) := if_pos hheld
    rw [htry] at hram
    exact ⟨heap, hram, (Eff.bind_of_ok hfirst).trans (Eff.bind_of_error hlock)⟩

theorem malloc_of_fits {layout : Layout} (hfits : env.fits s layout = true) :
    malloc cfg arch p g base env layout (retries + 1) s =
      (.ok (some (env.place s layout)), { s with made := s.made ++ [layout] }) := if_pos hfits

/-- An allocation by the holder where the block does not fit. -/
theorem malloc_full (hheld : s.held = true) {layout : Layout} (hfull : env.fits s layout = false) :
    ∃ heap, heap.ram = s.heap.ram ∧ malloc cfg arch p g base env layout (retries + 1) s =
      (fullResult cfg p env layout s, { s with heap }) := by
  unfold fullResult
  cases hsize : request cfg p layout with
  | error e =>
    have hoom : handleOom cfg arch p g base env layout s = (.error (.oom e), s) :=
      Eff.bind_of_error (by simp only [onHeap, Eff.lift, hsize])
    obtain rfl := request_error hsize
    exact ⟨s.heap, rfl, by simp [malloc, hfull, hoom]⟩
  | ok size =>
    cases size with
    | zero =>
      -- nothing is asked for, and nothing changes from one attempt to the next
      have hreq : onHeap (Eff.lift (request cfg p layout)) s = (.ok 0, s) := by
        simp only [onHeap, Eff.lift, hsize]
      have hoom : handleOom cfg arch p g base env layout s = (.ok (), s) := Eff.bind_of_ok hreq
      have hall : ∀ n, malloc cfg arch p g base env layout n s = (.error (.oom .fuel), s) := by
        intro n
        induction n with
        | zero => rfl
        | succ n ih => simp [malloc, hfull, hoom, ih]
      exact ⟨s.heap, rfl, hall _⟩
    | succ size =>
      obtain ⟨heap, hram, hoom⟩ := @handleOom_held cfg arch p g base env s hheld layout _ hsize (Nat.succ_pos size)
      refine ⟨heap, hram, ?_⟩
      rcases htry : (tryAlloc cfg env.toHeapEnv (size + 1) (size + 1) s.heap).1 with (_ | _ | _) | ptr <;>
        rw [htry] at hoom <;> simp [malloc, hfull, hoom, htry]

theorem fullResult_ne_some (layout : Layout) (addr : Nat) : fullResult cfg p env layout s ≠ .ok (some addr) := by
  unfold fullResult
  repeat' split
  all_goals simp

theorem fullResult_eq_none_iff {layout : Layout} (hfull : env.fits s layout = false) :
    fullResult cfg p env layout s = .ok none ↔ Starves cfg p env s layout := by
  unfold fullResult Starves
  rcases request cfg p layout with e | _ | size
  · simp
  · simp
  · simp only [hfull, Except.ok.injEq, exists_eq_left', Nat.succ_pos, true_and]
    rcases (tryAlloc cfg env.toHeapEnv (size + 1) (size + 1) s.heap).1 with (_ | _ | _) | ptr <;> simp

theorem fullResult_eq_deadlock_iff {layout : Layout} (hfull : env.fits s layout = false) :
    fullResult cfg p env layout s = .error .deadlock ↔ Refills cfg p env s layout := by
  unfold fullResult Refills
  rcases request cfg p layout with e | _ | size
  · simp
  · simp
  · simp only [hfull, Except.ok.injEq, exists_eq_left', Nat.succ_pos, true_and]
    rcases (tryAlloc cfg env.toHeapEnv (size + 1) (size + 1) s.heap).1 with (_ | _ | _) | ptr <;>
      simp [Except.isOk, Except.toBool]

/-- An allocation by the holder stops for good exactly if it enlarges the heap. -/
theorem malloc_held (hheld : s.held = true) (layout : Layout) (retries : Nat) :
    (malloc cfg arch p g base env layout (retries + 1) s).2.held = true ∧
    ((malloc cfg arch p g base env layout (retries + 1) s).1 = .error .deadlock ↔ Refills cfg p env s layout) := by
  cases hfits : env.fits s layout with
  | true =>
    have hnot : ¬Refills cfg p env s layout := fun h => by simp [h.1] at hfits
    rw [malloc_of_fits hfits]
    exact ⟨hheld, iff_of_false (by simp) hnot⟩
  | false =>
    obtain ⟨heap, -, hmalloc⟩ := @malloc_full cfg arch p g base env retries s hheld layout hfits
    rw [hmalloc]
    exact ⟨hheld, fullResult_eq_deadlock_iff hfits⟩

theorem held_malloc (hheld : s.held = true) {layout : Layout} {x : Except LockStop (Option Nat)} {s' : LockState}
    (h : malloc cfg arch p g base env layout (retries + 1) s = (x, s')) : s'.held = true := by
  have hheld' := (@malloc_held cfg arch p g base env s hheld layout retries).1
  rwa [h] at hheld'

theorem allocNodes_held (hheld : s.held = true) (layouts : List Layout) :
    (allocNodes cfg arch p g base env retries layouts s).2.held = true ∧
    ((allocNodes cfg arch p g base env retries layouts s).1 ≠ .error .deadlock ↔
      QuietNodes cfg arch p g base env retries layouts s) := by
  induction layouts generalizing s with
  | nil => exact ⟨hheld, iff_of_true (by simp [allocNodes, pure]) trivial⟩
  | cons layout layouts ih =>
    obtain ⟨-, hstop⟩ := @malloc_held cfg arch p g base env s hheld layout retries
    rw [allocNodes, QuietNodes, ← hstop]
    rcases hmalloc : malloc cfg arch p g base env layout (retries + 1) s with ⟨e | ptr, s₁⟩
    all_goals have hheld₁ : s₁.held = true := held_malloc hheld hmalloc
    · rw [Eff.bind_of_error hmalloc]
      simp [hheld₁]
    · rw [Eff.bind_of_ok hmalloc]
      cases ptr with
      | none =>
        rw [Option.elim_none, Eff.lift_error_bind]
        simp [Eff.lift, hheld₁]
      | some ptr =>
        rw [Option.elim_some, Eff.lift_ok_bind]
        refine ⟨(ih hheld₁).1, (ih hheld₁).2.trans ?_⟩
        simp

theorem mapAddr_held (hheld : s.held = true) (addr : Nat) :
    (mapAddr cfg arch p g base env retries addr s).2.held = true ∧
    ((mapAddr cfg arch p g base env retries addr s).1 ≠ .error .deadlock ↔
      (s.acpiMap addr = none → QuietNodes cfg arch p g base env retries (env.nodes s.acpiMap addr) s)) := by
  unfold mapAddr
  cases haddr : s.acpiMap addr with
  | some rcnt =>
    obtain ⟨hne, hsame⟩ := onAcpi_held (Acpi.mapAddr cfg arch g env.tables addr) s
    exact ⟨hsame.trans hheld, iff_of_true hne (by simp)⟩
  | none =>
    obtain ⟨hheld₁, hquiet⟩ := @allocNodes_held cfg arch p g base env retries s hheld (env.nodes s.acpiMap addr)
    simp only [true_imp_iff]
    rw [← hquiet]
    rcases hnodes : allocNodes cfg arch p g base env retries (env.nodes s.acpiMap addr) s with ⟨e | _, s₁⟩
    all_goals rw [hnodes] at hheld₁
    · rw [Eff.bind_of_error hnodes]
      exact ⟨hheld₁, Iff.rfl⟩
    · rw [Eff.bind_of_ok hnodes]
      obtain ⟨hne, hsame⟩ := onAcpi_held (Acpi.mapAddr cfg arch g env.tables addr) s₁
      exact ⟨hsame.trans hheld₁, iff_of_true hne (by simp)⟩

/-- The state in which the lock has been taken. -/
def locked (s : LockState) : LockState := { s with held := true }

theorem withLock_fst {α : Type} (hfree : s.held = false) (m : LockM α) : (withLock m s).1 = (m (locked s)).1 := by
  unfold withLock
  rw [hfree]
  rfl

theorem takeGuardPage_fst (va : Word) (s : LockState) :
    (takeGuardPage cfg g va s).1 = .ok ((getPa cfg g va s.heap.ram).map fun pa => ⟨va, pa⟩) := by
  unfold takeGuardPage
  cases getPa cfg g va s.heap.ram <;> rfl

theorem nullKernelStack_fst (s : LockState) : (nullKernelStack cfg p g s).1 =
    match p with
    | .dev => .error .panic
    | .release =>
      match getPa cfg g 0 s.heap.ram with
      | some pa => .ok (some ⟨0, pa⟩)
      | none => .error .freesNull := by
  cases p with
  | dev => rfl
  | release =>
    have hguard := @takeGuardPage_fst cfg g 0 s
    dsimp only [nullKernelStack]
    rcases hstack : takeGuardPage cfg g 0 s with ⟨x, s₁⟩
    rw [hstack] at hguard
    dsimp only at hguard
    subst hguard
    rw [Eff.bind_of_ok hstack]
    cases getPa cfg g 0 s.heap.ram <;> rfl

theorem guarded_isOk (va : Word) (s : LockState) : ∃ stack s', (do
    let stack ← takeGuardPage cfg g va
    if stack.isNone then dropBuf
    pure stack : LockM (Option KernelStack)) s = (.ok stack, s') := by
  have hguard := @takeGuardPage_fst cfg g va s
  rcases hstack : takeGuardPage cfg g va s with ⟨x, s₁⟩
  rw [hstack] at hguard
  dsimp only at hguard
  subst hguard
  rw [Eff.bind_of_ok hstack]
  cases getPa cfg g va s.heap.ram <;> exact ⟨_, _, rfl⟩

/-- The result of `KernelStack::new`. -/
theorem newKernelStack_fst (hfree : s.held = false) :
    (∃ stack, env.fits (locked s) (stackLayout cfg.psz) = true ∧
      (newKernelStack cfg arch p g base env retries s).1 = .ok stack) ∨
    (env.fits (locked s) (stackLayout cfg.psz) = false ∧ (newKernelStack cfg arch p g base env retries s).1 =
      match fullResult cfg p env (stackLayout cfg.psz) (locked s) with
      | .error e => .error e
      | .ok _ => (nullKernelStack cfg p g s).1) := by
  rw [newKernelStack, withLock_fst hfree]
  cases hfits : env.fits (locked s) (stackLayout cfg.psz) with
  | true =>
    left
    rw [Eff.bind_of_ok (malloc_of_fits hfits)]
    obtain ⟨stack, s', hstack⟩ := @guarded_isOk cfg g (BitVec.ofNat 64 (env.place (locked s) (stackLayout cfg.psz)))
      { locked s with made := (locked s).made ++ [stackLayout cfg.psz] }
    exact ⟨stack, rfl, congrArg Prod.fst hstack⟩
  | false =>
    right
    obtain ⟨heap, hram, hmalloc⟩ := @malloc_full cfg arch p g base env retries (locked s) rfl _ hfits
    refine ⟨rfl, ?_⟩
    rcases hresult : fullResult cfg p env (stackLayout cfg.psz) (locked s) with e | _ | addr
    · rw [hresult] at hmalloc
      rw [Eff.bind_of_error hmalloc]
    · rw [hresult] at hmalloc
      rw [Eff.bind_of_ok hmalloc]
      dsimp only
      rw [nullKernelStack_fst, nullKernelStack_fst, hram]
      rfl
    · exact absurd hresult (fullResult_ne_some _ _)

theorem nullKernelStack_isOk_iff (s : LockState) : (nullKernelStack cfg p g s).1.isOk = true ↔
    p = .release ∧ (getPa cfg g 0 s.heap.ram).isSome = true := by
  rw [nullKernelStack_fst]
  cases p with
  | dev => simp [Except.isOk, Except.toBool]
  | release => cases getPa cfg g 0 s.heap.ram <;> simp [Except.isOk, Except.toBool]

/-- The result of `map_physical_region`. -/
theorem mapPhysicalRegion_fst (hfree : s.held = false) (physAddr size : Nat) :
    (mapPhysicalRegion cfg arch p g base env retries physAddr size s).1 =
      match Acpi.pageSpan cfg p physAddr size with
      | .error _ => .error .panic
      | .ok addrs =>
        match (mapAddrs cfg arch p g base env retries addrs (locked s)).1 with
        | .error e => .error e
        | .ok () => if p = .dev ∧ physAddr = 0 then .error .panic else .ok ⟨physAddr, physAddr, size, size⟩ := by
  rw [mapPhysicalRegion, withLock_fst hfree]
  cases hspan : Acpi.pageSpan cfg p physAddr size with
  | error e =>
    have hfirst : onAcpi (Eff.lift (.error e) : Eff AcpiState RangeStop (List Nat)) (locked s) =
        (.error .panic, locked s) := rfl
    rw [Eff.bind_of_error hfirst]
  | ok addrs =>
    have hfirst : onAcpi (Eff.lift (.ok addrs) : Eff AcpiState RangeStop (List Nat)) (locked s) =
        (.ok addrs, locked s) := rfl
    rw [Eff.bind_of_ok hfirst]
    dsimp only
    rcases hloop : mapAddrs cfg arch p g base env retries addrs (locked s) with ⟨e | _, s₁⟩
    · rw [Eff.bind_of_error hloop]
    · rw [Eff.bind_of_ok hloop]
      dsimp only
      by_cases hnull : p = .dev ∧ physAddr = 0
      · have hrefused : onAcpi (Eff.lift (Acpi.nonNull p physAddr)) s₁ = (.error .panic, s₁) := by
          rw [Acpi.nonNull, if_pos hnull]
          rfl
        rw [Eff.bind_of_error hrefused, if_pos hnull]
      · have hgiven : onAcpi (Eff.lift (Acpi.nonNull p physAddr)) s₁ = (.ok physAddr, s₁) := by
          rw [Acpi.nonNull, if_neg hnull]
          rfl
        rw [Eff.bind_of_ok hgiven, if_neg hnull]
        rfl

/-! ### When the calls return -/

/-- The nodes of a key are allocated exactly if they fit. -/
theorem allocNodes_room (hheld : s.held = true) (layouts : List Layout) :
    (RoomNodes env layouts s → allocNodes cfg arch p g base env retries layouts s =
      (.ok (), { s with made := s.made ++ layouts })) ∧
    (¬RoomNodes env layouts s → (allocNodes cfg arch p g base env retries layouts s).1.isOk = false) := by
  induction layouts generalizing s with
  | nil => simp [RoomNodes, allocNodes, pure]
  | cons layout layouts ih =>
    rw [allocNodes, RoomNodes]
    cases hfits : env.fits s layout with
    | true =>
      rw [Eff.bind_of_ok (malloc_of_fits hfits), Option.elim_some, Eff.lift_ok_bind]
      have hrest := @ih { s with made := s.made ++ [layout] } hheld
      simp only [List.append_assoc, List.singleton_append] at hrest
      simpa using hrest
    | false =>
      obtain ⟨heap, -, hmalloc⟩ := @malloc_full cfg arch p g base env retries s hheld layout hfits
      refine ⟨fun hroom => absurd hroom.1 Bool.false_ne_true, fun _ => ?_⟩
      rcases hresult : fullResult cfg p env layout s with e | _ | addr
      · rw [hresult] at hmalloc
        rw [Eff.bind_of_error hmalloc]
        rfl
      · rw [hresult] at hmalloc
        rw [Eff.bind_of_ok hmalloc]
        rfl
      · exact absurd hresult (fullResult_ne_some _ _)

/-- The tables and `ACPI_MAP` of a state. -/
def acpi (s : LockState) : AcpiState := ⟨s.heap.ram, s.acpiMap⟩

/-- A round ends exactly if the nodes fit and the round without a lock ends, and does the same to the tables. -/
theorem mapAddr_room (hheld : s.held = true) (addr : Nat) :
    (mapAddr cfg arch p g base env retries addr s).2.held = true ∧
    ((mapAddr cfg arch p g base env retries addr s).1.isOk = true ↔
      (s.acpiMap addr = none → RoomNodes env (env.nodes s.acpiMap addr) s) ∧
      (Acpi.mapAddr cfg arch g env.tables addr (acpi s)).1.isOk = true) ∧
    ((mapAddr cfg arch p g base env retries addr s).1.isOk = true →
      acpi (mapAddr cfg arch p g base env retries addr s).2 =
        (Acpi.mapAddr cfg arch g env.tables addr (acpi s)).2) := by
  have hon : ∀ s' : LockState, acpi s' = acpi s →
      ((onAcpi (Acpi.mapAddr cfg arch g env.tables addr) s').1.isOk =
        (Acpi.mapAddr cfg arch g env.tables addr (acpi s)).1.isOk ∧
      acpi (onAcpi (Acpi.mapAddr cfg arch g env.tables addr) s').2 =
        (Acpi.mapAddr cfg arch g env.tables addr (acpi s)).2) := by
    intro s' hs'
    have hstate : (⟨s'.heap.ram, s'.acpiMap⟩ : AcpiState) = acpi s := hs'
    unfold onAcpi
    rw [hstate]
    rcases Acpi.mapAddr cfg arch g env.tables addr (acpi s) with ⟨e | _, t⟩ <;> exact ⟨rfl, rfl⟩
  refine ⟨(@mapAddr_held cfg arch p g base env retries s hheld addr).1, ?_⟩
  unfold mapAddr
  cases haddr : s.acpiMap addr with
  | some rcnt =>
    obtain ⟨hok, hstate⟩ := hon s rfl
    exact ⟨by simp [hok], fun _ => hstate⟩
  | none =>
    obtain ⟨hroom, hfull⟩ := @allocNodes_room cfg arch p g base env retries s hheld (env.nodes s.acpiMap addr)
    simp only [true_imp_iff]
    by_cases hnodes : RoomNodes env (env.nodes s.acpiMap addr) s
    · rw [Eff.bind_of_ok (hroom hnodes)]
      obtain ⟨hok, hstate⟩ := hon { s with made := s.made ++ env.nodes s.acpiMap addr } rfl
      exact ⟨by simp [hok, hnodes], fun _ => hstate⟩
    · have hstop := hfull hnodes
      rcases halloc : allocNodes cfg arch p g base env retries (env.nodes s.acpiMap addr) s with ⟨e | _, s₁⟩
      · rw [Eff.bind_of_error halloc]
        simp [hnodes, Except.isOk, Except.toBool]
      · rw [halloc] at hstop
        cases hstop

theorem mapAddrs_room (hheld : s.held = true) (addrs : List Nat) :
    (mapAddrs cfg arch p g base env retries addrs s).1.isOk = true ↔
      RoomAddrs cfg arch p g base env retries addrs s ∧
      (Acpi.mapAddrs cfg arch g env.tables addrs (acpi s)).1.isOk = true := by
  induction addrs generalizing s with
  | nil => simp [mapAddrs, RoomAddrs, Acpi.mapAddrs, pure, Except.isOk, Except.toBool]
  | cons addr addrs ih =>
    obtain ⟨hheld₁, hround, hstate⟩ := @mapAddr_room cfg arch p g base env retries s hheld addr
    rw [mapAddrs, RoomAddrs, Acpi.mapAddrs]
    rcases hmap : mapAddr cfg arch p g base env retries addr s with ⟨e | _, s₁⟩ <;>
      rw [hmap] at hheld₁ hround hstate
    · rw [Eff.bind_of_error hmap]
      rcases hacpi : Acpi.mapAddr cfg arch g env.tables addr (acpi s) with ⟨e' | _, t⟩ <;> rw [hacpi] at hround
      · rw [Eff.bind_of_error hacpi]
        simp [Except.isOk, Except.toBool]
      · have hnot : ¬(s.acpiMap addr = none → RoomNodes env (env.nodes s.acpiMap addr) s) := fun hroom =>
          absurd (hround.mpr ⟨hroom, rfl⟩) Bool.false_ne_true
        exact iff_of_false Bool.false_ne_true fun h => hnot h.1.1
    · obtain ⟨hroom, hok⟩ := hround.mp rfl
      rw [Eff.bind_of_ok hmap, ih hheld₁, hstate rfl]
      rcases hacpi : Acpi.mapAddr cfg arch g env.tables addr (acpi s) with ⟨e | _, t⟩ <;> rw [hacpi] at hok
      · cases hok
      · rw [Eff.bind_of_ok hacpi]
        exact and_congr_left' (and_iff_right hroom).symm

/-- Both functions return, and leave the lock free, exactly if the heap has room for what they allocate under it:
`KernelStack::new` for its buffer, and `map_physical_region` for each node of `ACPI_MAP`, if the region is one that can
be mapped. A build without debug assertions can also go on with null instead of a buffer. -/
theorem completes_iff (hfree : s.held = false) (physAddr size : Nat) :
    ((newKernelStack cfg arch p g base env retries s).1.isOk = true ↔
      env.fits (locked s) (stackLayout cfg.psz) = true ∨
      p = .release ∧ Starves cfg p env (locked s) (stackLayout cfg.psz) ∧
        (getPa cfg g 0 s.heap.ram).isSome = true) ∧
    ((mapPhysicalRegion cfg arch p g base env retries physAddr size s).1.isOk = true ↔
      ∃ addrs, Acpi.pageSpan cfg p physAddr size = .ok addrs ∧ ¬(p = .dev ∧ physAddr = 0) ∧
        RoomAddrs cfg arch p g base env retries addrs (locked s) ∧
        (Acpi.mapAddrs cfg arch g env.tables addrs (acpi s)).1.isOk = true) ∧
    (newKernelStack cfg arch p g base env retries s).2.held = false ∧
    (mapPhysicalRegion cfg arch p g base env retries physAddr size s).2.held = false := by
  refine ⟨?_, ?_, by simp [newKernelStack, withLock, hfree], by simp [mapPhysicalRegion, withLock, hfree]⟩
  · rcases @newKernelStack_fst cfg arch p g base env retries s hfree with ⟨stack, hfits, hnew⟩ | ⟨hfull, hnew⟩
    · rw [hnew]
      exact iff_of_true rfl (Or.inl hfits)
    · rw [hnew, ← fullResult_eq_none_iff hfull]
      rcases hresult : fullResult cfg p env (stackLayout cfg.psz) (locked s) with e | _ | addr
      · simp [hfull, Except.isOk, Except.toBool]
      · dsimp only
        rw [nullKernelStack_isOk_iff]
        simp [hfull]
      · exact absurd hresult (fullResult_ne_some _ _)
  · rw [mapPhysicalRegion_fst hfree]
    cases hspan : Acpi.pageSpan cfg p physAddr size with
    | error e => simp [Except.isOk, Except.toBool]
    | ok addrs =>
      have hroom := @mapAddrs_room cfg arch p g base env retries (locked s) rfl addrs
      simp only [Except.ok.injEq, exists_eq_left']
      rw [show acpi s = acpi (locked s) from rfl, ← hroom]
      cases (mapAddrs cfg arch p g base env retries addrs (locked s)).1 with
      | error e => simp [Except.isOk, Except.toBool]
      | ok _ => by_cases hnull : p = .dev ∧ physAddr = 0 <;> simp [hnull, Except.isOk, Except.toBool]

/-! ### A heap with room and one without -/

theorem roomNodes_of_fits (hfits : ∀ s layout, env.fits s layout = true) (layouts : List Layout) (s : LockState) :
    RoomNodes env layouts s := by
  induction layouts generalizing s with
  | nil => trivial
  | cons layout layouts ih => exact ⟨hfits s layout, ih _⟩

theorem roomAddrs_of_fits (hfits : ∀ s layout, env.fits s layout = true) (addrs : List Nat) (s : LockState) :
    RoomAddrs cfg arch p g base env retries addrs s := by
  induction addrs generalizing s with
  | nil => trivial
  | cons addr addrs ih => exact ⟨fun _ => roomNodes_of_fits hfits _ s, ih _⟩

/-- The first key takes a node of the map. -/
def sampleLock (fits : Bool) : LockEnv where
  toHeapEnv := sampleEnv [some 0x2000, some 0x3000, some 0x4000]
  fits _ _ := fits
  place _ _ := sampleBase
  nodes _ _ := [⟨192, 8, by decide⟩]

def sampleState : LockState := ⟨(Machine.boot blankRoot).heap, fun _ => none, [], false⟩

theorem completes_room :
    (newKernelStack amd64Cfg .amd64 .dev ⟨0x1000, true⟩ sampleBase (sampleLock true) 0 sampleState).1.isOk = true ∧
    (mapPhysicalRegion amd64Cfg .amd64 .dev ⟨0x1000, true⟩ sampleBase (sampleLock true) 0 0x3ffc 8
      sampleState).1.isOk = true := by
  obtain ⟨hnew, hmap, -⟩ := @completes_iff amd64Cfg .amd64 .dev ⟨0x1000, true⟩ sampleBase (sampleLock true) 0
    sampleState rfl 0x3ffc 8
  refine ⟨hnew.mpr (Or.inl rfl), hmap.mpr ⟨[0x3000, 0x4000], by decide, by decide,
    roomAddrs_of_fits (fun _ _ => rfl) _ _, ?_⟩⟩
  decide +kernel

/-- The heap is full and there is memory to enlarge it: neither function returns. -/
theorem deadlock_full :
    sampleState.held = false ∧
    (newKernelStack amd64Cfg .amd64 .dev ⟨0x1000, true⟩ sampleBase (sampleLock false) 0 sampleState).1 =
      .error .deadlock ∧
    (mapPhysicalRegion amd64Cfg .amd64 .dev ⟨0x1000, true⟩ sampleBase (sampleLock false) 0 0x3ffc 8 sampleState).1 =
      .error .deadlock :=
  ⟨rfl, by decide +kernel, by decide +kernel⟩

end GlacierLock

end UnixKernel
