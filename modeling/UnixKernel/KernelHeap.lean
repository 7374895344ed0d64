import UnixKernel.GlacierSpan

/-! The kernel heap. When `talc` has no room left it calls `handle_oom`, which asks for physical memory in ever smaller
chunks, maps each one behind the end of the heap, takes away the mapping of the chunk to itself and moves the end of
the heap. Whether the chunk could be mapped is not looked at. -/

namespace UnixKernel

open Runs

/-- `core::alloc::Layout`; a size is at most `isize::MAX`. -/
structure Layout where
  size : Nat
  align : Nat
  size_lt : size < 2 ^ 63

/-- How `handle_oom` ends early: with `Err(())`, by a panic, or by the bound on its loops. -/
inductive OomStop where
  | err
  | panic
  | fuel
  deriving DecidableEq, Repr

/-- The memory that the tables of `GLACIER` lie in, the size of the heap, the chunks that `PHYS_ALLOC` has given for it
and the number of requests for one. -/
structure HeapState where
  ram : Ram
  size : Nat
  chunks : List OwnedPtr
  asked : Nat

abbrev HeapM := Eff HeapState OomStop

/-- The answers of `PHYS_ALLOC` to requests for memory and for tables, and of `talc` to the first chunk. -/
structure HeapEnv where
  alloc : HeapState → Nat → Option OwnedPtr
  tables : Glacier.TableAlloc
  claim : HeapState → Bool

namespace KheapHandler

open Glacier

/-- If there is a value, it has the property. -/
def IfOk {ε α : Type} (x : Except ε α) (P : α → Prop) : Prop :=
  match x with
  | .ok a => P a
  | .error _ => True

instance {ε α : Type} (x : Except ε α) (P : α → Prop) [∀ a, Decidable (P a)] : Decidable (IfOk x P) :=
  match x with
  | .ok a => inferInstanceAs (Decidable (P a))
  | .error _ => isTrue trivial

section Model

variable (cfg : RvmCfg) (arch : Arch) (p : Profile) (g : Glacier) (base : Nat) (env : HeapEnv)

/-- The inner loop: after a failure a request for about half as much, down to one page. -/
def tryAlloc : Nat → Nat → HeapM OwnedPtr
  | 0, _ => Eff.lift (.error .fuel)
  | fuel + 1, trySz => fun s =>
    match env.alloc s trySz with
    | some ptr => (.ok ptr, { s with chunks := s.chunks ++ [ptr], asked := s.asked + 1 })
    | none =>
      if cfg.psz.size < trySz then
        tryAlloc fuel (trySz / (cfg.psz.size <<< 1) * cfg.psz.size) { s with asked := s.asked + 1 }
      else (.error .err, { s with asked := s.asked + 1 })

/-- A call on the page tables whose result is dropped. -/
def onRam (m : Eff Ram RangeStop Unit) : HeapM Unit := fun s =>
  match m s.ram with
  | (.error .panic, r) => (.error .panic, { s with ram := r })
  | (_, r) => (.ok (), { s with ram := r })

/-- `set_heap` with a span that begins at the base. -/
def setHeap (size : Nat) : HeapM Unit := fun s => (.ok (), { s with size })

/-- The rest of a round, with the chunk that was given. -/
def growBy (ptr : OwnedPtr) : HeapM Unit := fun s =>
  (do
    let top ← Eff.lift (p.fit .panic 64 (base + s.size : Nat))
    onRam (mapRange cfg arch p g env.tables top ptr.addr ptr.size (arch.mapFlag .kRwo))
    onRam (unmapRange cfg p g ptr.addr ptr.size)
    if s.size = 0 then do
      setHeap ptr.size
      Eff.lift (if env.claim s then .ok () else .error .err)
    else setHeap (s.size + ptr.size) : HeapM Unit) s

/-- The outer loop. -/
def growLoop : Nat → Nat → HeapM Unit
  | 0, _ => Eff.lift (.error .fuel)
  | fuel + 1, rem =>
    if rem = 0 then pure ()
    else do
      let ptr ← tryAlloc cfg env rem rem
      growBy cfg arch p g base env ptr
      growLoop fuel (rem - ptr.size)

/-- `align_up(layout.size() * 2, page_size())`. -/
def request (layout : Layout) : Except OomStop Nat := do
  let twice ← p.fit .panic 64 (layout.size * 2 : Nat)
  p.fit .panic 64 (alignUp twice cfg.psz.size : Nat)

def handleOom (layout : Layout) : HeapM Unit := do
  let size ← Eff.lift (request cfg p layout)
  growLoop cfg arch p g base env (size + 1) size

/-! ### What is asked of the allocators, and what for -/

/-- `PHYS_ALLOC` gives whole pages that it has not given before, and tables that are not in use. -/
structure Honest : Prop where
  alloc : ∀ s trySz ptr, env.alloc s trySz = some ptr → ptr.size = sizeAlign cfg.psz trySz ∧
    cfg.psz.size ∣ ptr.addr ∧ ptr.fin ≤ 2 ^ 52 ∧ ∀ c ∈ s.chunks, c.fin ≤ ptr.addr ∨ ptr.fin ≤ c.addr
  tables : FreshTables cfg g env.tables

/-- A leaf word for memory that `PHYS_ALLOC` does not give to the heap, since others have it. -/
def Foreign (w : Word) : Prop := ∀ s trySz ptr, env.alloc s trySz = some ptr →
  pageAddr cfg w + cfg.psz.size ≤ ptr.addr ∨ ptr.fin ≤ pageAddr cfg w

/-- The kernel with its heap; after a panic it is stopped. -/
structure Machine where
  heap : HeapState
  stopped : Bool

def step (m : Machine) (layout : Layout) : Machine :=
  if m.stopped then m
  else
    match handleOom cfg arch p g base env layout m.heap with
    | (.ok (), s) | (.error .err, s) => ⟨s, false⟩
    | (.error _, s) => ⟨s, true⟩

/-- The address is one of the heap. -/
def InHeap (s : HeapState) (va : Word) : Prop := base ≤ va.toNat ∧ va.toNat < base + s.size

/-- Every byte of the heap is mapped to a page of a chunk, and no two pages of the heap to the same one. -/
structure Backed (m : Machine) : Prop where
  running : m.stopped = false
  inside : base + m.heap.size < 2 ^ 64
  mapped : ∀ va, InHeap base m.heap va → ∃ w, walk cfg m.heap.ram.mem g.rootTable va = some w ∧
    ∃ c ∈ m.heap.chunks, c.addr ≤ pageAddr cfg w ∧ pageAddr cfg w + cfg.psz.size ≤ c.fin
  distinct : ∀ va va' w w', InHeap base m.heap va → InHeap base m.heap va' →
    walk cfg m.heap.ram.mem g.rootTable va = some w → walk cfg m.heap.ram.mem g.rootTable va' = some w' →
    pageAddr cfg w = pageAddr cfg w' → cfg.SamePage va va'

/-- A heap that ends here ends inside of the address space, and so do the sums on the way. -/
def Room (top : Nat) : Prop :=
  match p with
  | .dev => top + cfg.psz.size < 2 ^ 64
  | .release => top < 2 ^ 64

instance (top : Nat) : Decidable (Room cfg p top) := by
  unfold Room
  cases p <;> infer_instance

/-- The conditions under which a chunk becomes part of the heap: there is room behind the heap, there are pages for the
tables that are missing on the way there, and no page of the chunk itself takes the path of a page of the heap. -/
structure Grows (s : HeapState) (ptr : OwnedPtr) : Prop where
  room : Room cfg p (base + s.size + ptr.size)
  served : ServedPages cfg arch g env.tables (base + s.size) ptr.addr (arch.mapFlag .kRwo)
    (rangeOffsets cfg 0 ptr.size) s.ram
  clear : ∀ i < ptr.size / cfg.psz.size, ∀ j < (s.size + ptr.size) / cfg.psz.size,
    ¬Agree cfg cfg.depth (BitVec.ofNat 64 (ptr.addr + i * cfg.psz.size)) (BitVec.ofNat 64 (base + j * cfg.psz.size))

instance (s : HeapState) (ptr : OwnedPtr) : Decidable (Grows cfg arch p g base env s ptr) :=
  decidable_of_iff (Room cfg p (base + s.size + ptr.size) ∧
    ServedPages cfg arch g env.tables (base + s.size) ptr.addr (arch.mapFlag .kRwo) (rangeOffsets cfg 0 ptr.size)
      s.ram ∧
    ∀ i < ptr.size / cfg.psz.size, ∀ j < (s.size + ptr.size) / cfg.psz.size, ¬Agree cfg cfg.depth
      (BitVec.ofNat 64 (ptr.addr + i * cfg.psz.size)) (BitVec.ofNat 64 (base + j * cfg.psz.size)))
    ⟨fun h => ⟨h.1, h.2.1, h.2.2⟩, fun h => ⟨h.1, h.2, h.3⟩⟩

/-- The conditions in every round of the outer loop. -/
def LoopGrows : Nat → Nat → HeapState → Prop
  | 0, _, _ => True
  | fuel + 1, rem, s =>
    rem = 0 ∨
      IfOk (tryAlloc cfg env rem rem s).1 fun ptr =>
        Grows cfg arch p g base env (tryAlloc cfg env rem rem s).2 ptr ∧
          IfOk (growBy cfg arch p g base env ptr (tryAlloc cfg env rem rem s).2).1 fun _ =>
            LoopGrows fuel (rem - ptr.size) (growBy cfg arch p g base env ptr (tryAlloc cfg env rem rem s).2).2

instance decidableLoopGrows :
    (fuel rem : Nat) → (s : HeapState) → Decidable (LoopGrows cfg arch p g base env fuel rem s)
  | 0, _, _ => isTrue trivial
  | fuel + 1, rem, _ =>
    have := decidableLoopGrows fuel
    inferInstanceAs (Decidable (rem = 0 ∨ IfOk _ fun _ => _ ∧ IfOk _ fun _ => LoopGrows cfg arch p g base env fuel _ _))

/-- The conditions during a call. -/
def CallGrows (m : Machine) (layout : Layout) : Prop :=
  ∃ size, request cfg p layout = .ok size ∧ LoopGrows cfg arch p g base env (size + 1) size m.heap

end Model

/-! ### Addresses of the heap -/

section Addresses

variable {cfg : RvmCfg} {p : Profile} {base : Nat}

theorem Room.lt {top : Nat} (h : Room cfg p top) : top < 2 ^ 64 := by
  cases p with
  | dev => exact (Nat.le_add_right _ _).trans_lt h
  | release => exact h

theorem agree_high {x : Nat} {va : Word} (hx : hihalf cfg ≤ x) (hlt : x < 2 ^ 64) (hva : hihalf cfg ≤ va.toNat) :
    Agree cfg cfg.depth (BitVec.ofNat 64 x) va ↔ x / cfg.psz.size = va.toNat / cfg.psz.size := by
  have htoNat := toNat_ofNat_lt hlt
  have hcanon : cfg.Canonical (BitVec.ofNat 64 x) := Or.inr (htoNat.symm ▸ hx)
  rw [← samePage_iff_agree hcanon (Or.inr hva), RvmCfg.samePage_iff_div, htoNat]

theorem apart_high {first : Nat} (hfirst : hihalf cfg ≤ first * cfg.psz.size) {count : Nat}
    (hlast : (first + count) * cfg.psz.size ≤ 2 ^ 64) :
    Apart cfg (((List.range count).map (· * cfg.psz.size)).map (first * cfg.psz.size + ·)) := by
  rcases Nat.eq_zero_or_pos count with rfl | hcount
  · exact fun a ha => absurd ha List.not_mem_nil
  · have hhalf : InHalf cfg (first * cfg.psz.size) (count * cfg.psz.size) := Or.inr ⟨hfirst, by rwa [← Nat.add_mul]⟩
    have h := apart_span hhalf (Nat.mul_pos hcount cfg.psz.size_pos)
    rwa [Nat.mul_div_cancel _ cfg.psz.size_pos, endPage_mul, rangeOffsets_eq, Nat.add_sub_cancel_left] at h

theorem roundUp_mul (k : Nat) :
    (k * cfg.psz.size + cfg.psz.size - 1) / cfg.psz.size * cfg.psz.size = k * cfg.psz.size := by
  have hpos := cfg.psz.size_pos
  have hdiv : (k * cfg.psz.size + cfg.psz.size - 1) / cfg.psz.size = k := by
    apply Nat.div_eq_of_lt_le
    · omega
    · rw [Nat.add_mul, Nat.one_mul]
      omega
  rw [hdiv]

theorem rangeEnd_room {first count : Nat} (h : Room cfg p ((first + count) * cfg.psz.size)) :
    rangeEnd cfg p (first * cfg.psz.size) (count * cfg.psz.size) = .ok ((first + count) * cfg.psz.size) := by
  rw [← @endPage_mul cfg first count]
  cases p with
  | dev => exact rangeEnd_eq (by rwa [← Nat.add_mul])
  | release =>
    apply rangeEnd_release
    rw [← Nat.add_mul]
    have hlt : (first + count) * cfg.psz.size < 2 ^ 64 := h
    have hleft := Nat.le_of_dvd (Nat.sub_pos_of_lt hlt) (Nat.dvd_sub cfg.psz.size_dvd_word (Nat.dvd_mul_left _ _))
    omega

/-- Without room the range is empty, or its end is not computed. -/
theorem rangeEnd_no_room {first count : Nat} (hfirst : first * cfg.psz.size < 2 ^ 64)
    (hcount : count * cfg.psz.size ≤ 2 ^ 52) (h : ¬Room cfg p ((first + count) * cfg.psz.size)) :
    rangeEnd cfg p (first * cfg.psz.size) (count * cfg.psz.size) = .error .panic ∨
    2 ^ 64 ≤ (first + count) * cfg.psz.size ∧ ∃ last ≤ first * cfg.psz.size,
      rangeEnd cfg p (first * cfg.psz.size) (count * cfg.psz.size) = .ok last := by
  have hsum : first * cfg.psz.size + count * cfg.psz.size = (first + count) * cfg.psz.size := (Nat.add_mul _ _ _).symm
  have hsize := cfg.psz.size_le
  have hpos := cfg.psz.size_pos
  cases p with
  | dev =>
    left
    rw [Room, Nat.not_lt] at h
    unfold rangeEnd
    rw [hsum]
    by_cases hover : 2 ^ 64 ≤ (first + count) * cfg.psz.size
    · rw [Profile.fit_dev_of_le hover, error_bind]
    · rw [Profile.fit_of_lt (Nat.lt_of_not_le hover), ok_bind, Profile.fit_dev_of_le h, error_bind]
  | release =>
    right
    rw [Room, Nat.not_lt] at h
    refine ⟨h, ?_⟩
    set rest := (first + count) * cfg.psz.size - 2 ^ 64 with hrest
    have hmod : (first + count) * cfg.psz.size % 2 ^ 64 = rest := by
      rw [Nat.mod_eq_sub_mod h, Nat.mod_eq_of_lt (by omega)]
    have hone : ((rest + cfg.psz.size : Nat) : Int) - 1 = ((rest + cfg.psz.size - 1 : Nat) : Int) := by omega
    refine ⟨(rest + cfg.psz.size - 1) / cfg.psz.size * cfg.psz.size, ?_, ?_⟩
    · obtain ⟨k, hk⟩ : cfg.psz.size ∣ rest := Nat.dvd_sub (Nat.dvd_mul_left _ _) cfg.psz.size_dvd_word
      rw [hk, Nat.mul_comm cfg.psz.size k, roundUp_mul, Nat.mul_comm k, ← hk]
      omega
    · unfold rangeEnd
      rw [hsum, Profile.fit_release_natCast, ok_bind, hmod, Profile.fit_of_lt (by omega), ok_bind, hone,
        Profile.fit_of_lt (by omega), ok_bind]
      rfl

/-- The base that `init_heap` sets: a page of the upper half. -/
structure Base (cfg : RvmCfg) (base : Nat) : Prop where
  aligned : cfg.psz.size ∣ base
  high : hihalf cfg ≤ base
  inside : base < 2 ^ 64

/-- A chunk of whole pages, as far down as a leaf word reaches. -/
structure Whole (cfg : RvmCfg) (c : OwnedPtr) : Prop where
  addr : cfg.psz.size ∣ c.addr
  size : cfg.psz.size ∣ c.size
  pos : 0 < c.size
  below : c.fin ≤ 2 ^ 52

end Addresses

/-! ### A round of the outer loop -/

section Round

variable {cfg : RvmCfg} {arch : Arch} {p : Profile} {g : Glacier} {base : Nat} {env : HeapEnv} {s s' : HeapState}
  {ptr : OwnedPtr}

theorem rangeOffsets_zero (count : Nat) :
    rangeOffsets cfg 0 (count * cfg.psz.size) = (List.range count).map (· * cfg.psz.size) := by
  have h := @rangeOffsets_eq cfg 0 count
  rwa [Nat.zero_mul, Nat.sub_zero] at h

/-- `map_range` behind the heap, when there is room. -/
theorem mapRange_room (hbase : Base cfg base) (hsize : cfg.psz.size ∣ s.size) (hptr : Whole cfg ptr)
    (htables : FreshTables cfg g env.tables) (hwf : WellFormed cfg s.ram.mem g.rootTable)
    (hroom : Room cfg p (base + s.size + ptr.size)) :
    ∃ x r₁, mapRange cfg arch p g env.tables (base + s.size) ptr.addr ptr.size (arch.mapFlag .kRwo) s.ram = (x, r₁) ∧
      x ≠ .error .panic ∧ MapsRange cfg g (base + s.size) ptr.addr (arch.mapFlag .kRwo) (rangeOffsets cfg 0 ptr.size)
        (ServedPages cfg arch g env.tables (base + s.size) ptr.addr (arch.mapFlag .kRwo)
          (rangeOffsets cfg 0 ptr.size) s.ram) s.ram r₁ := by
  obtain ⟨first, hfirst⟩ := Nat.dvd_add hbase.aligned hsize
  obtain ⟨count, hcount⟩ := hptr.size
  obtain ⟨frame, hframe⟩ := hptr.addr
  have hhigh : hihalf cfg ≤ first * cfg.psz.size := by
    rw [Nat.mul_comm, ← hfirst]
    exact hbase.high.trans (Nat.le_add_right _ _)
  have hbelow := hptr.below
  rw [OwnedPtr.fin, hframe, hcount, Nat.mul_comm _ frame, Nat.mul_comm _ count] at hbelow
  rw [hfirst, hcount, Nat.mul_comm _ first, Nat.mul_comm _ count, ← Nat.add_mul] at hroom
  rw [hfirst, hcount, hframe, Nat.mul_comm _ first, Nat.mul_comm _ count, Nat.mul_comm _ frame]
  have heq : mapRange cfg arch p g env.tables (first * cfg.psz.size) (frame * cfg.psz.size) (count * cfg.psz.size)
      (arch.mapFlag .kRwo) = mapPages cfg arch p g env.tables (first * cfg.psz.size) (frame * cfg.psz.size)
        (arch.mapFlag .kRwo) (rangeOffsets cfg 0 (count * cfg.psz.size)) := by
    unfold mapRange
    rw [rangeEnd_room hroom, Eff.lift_ok_bind, Nat.mul_div_cancel _ cfg.psz.size_pos,
      Nat.mul_div_cancel _ cfg.psz.size_pos, rangeOffsets_eq, rangeOffsets_zero, Nat.add_sub_cancel_left]
  rw [heq]
  refine ⟨_, _, rfl, mapPages_maps hwf htables (fun off hoff => ?_) ?_ ?_ rfl⟩
  · rw [rangeOffsets_zero] at hoff
    obtain ⟨i, hi, rfl⟩ := List.mem_map.mp hoff
    have hle : i * cfg.psz.size ≤ count * cfg.psz.size := Nat.mul_le_mul_right _ (List.mem_range.mp hi).le
    omega
  · exact nodup_rangeOffsets _ _
  · rw [rangeOffsets_zero]
    exact apart_high hhigh hroom.lt.le

/-- `map_range` behind the heap, when there is no room: nothing is mapped. -/
theorem mapRange_no_room (hbase : Base cfg base) (hsize : cfg.psz.size ∣ s.size) (htop : base + s.size < 2 ^ 64)
    (hptr : Whole cfg ptr) (hroom : ¬Room cfg p (base + s.size + ptr.size)) :
    (∃ r₁, mapRange cfg arch p g env.tables (base + s.size) ptr.addr ptr.size (arch.mapFlag .kRwo) s.ram =
      (.error .panic, r₁)) ∨
    2 ^ 64 ≤ base + s.size + ptr.size ∧
      mapRange cfg arch p g env.tables (base + s.size) ptr.addr ptr.size (arch.mapFlag .kRwo) s.ram =
        (.ok (), s.ram) := by
  obtain ⟨first, hfirst⟩ := Nat.dvd_add hbase.aligned hsize
  obtain ⟨count, hcount⟩ := hptr.size
  have hbelow : ptr.size ≤ 2 ^ 52 := (Nat.le_add_left _ _).trans hptr.below
  rw [hfirst, Nat.mul_comm _ first] at htop hroom ⊢
  rw [hcount, Nat.mul_comm _ count] at hbelow hroom ⊢
  rw [← Nat.add_mul] at hroom ⊢
  unfold mapRange
  rcases rangeEnd_no_room htop hbelow hroom with hend | ⟨hover, last, hlast, hend⟩
  · left
    rw [hend, Eff.lift_error_bind]
    exact ⟨_, rfl⟩
  · right
    refine ⟨hover, ?_⟩
    rw [hend, Eff.lift_ok_bind, Nat.mul_div_cancel _ cfg.psz.size_pos, rangeOffsets, Nat.sub_eq_zero_of_le hlast,
      Nat.zero_div]
    rfl

theorem unmapRange_chunk (hptr : Whole cfg ptr) (r : Ram) : unmapRange cfg p g ptr.addr ptr.size r =
    (.ok (), (unmapPages cfg g ptr.addr (rangeOffsets cfg 0 ptr.size) r).2) := by
  obtain ⟨count, hcount⟩ := hptr.size
  obtain ⟨frame, hframe⟩ := hptr.addr
  have hbelow := hptr.below
  have hsize := cfg.psz.size_le
  rw [OwnedPtr.fin, hframe, hcount, Nat.mul_comm _ frame, Nat.mul_comm _ count] at hbelow
  rw [hframe, hcount, Nat.mul_comm _ frame, Nat.mul_comm _ count]
  unfold unmapRange
  rw [rangeEnd_eq (by omega), Eff.lift_ok_bind, ← Nat.add_mul, roundUp_mul, Nat.mul_div_cancel _ cfg.psz.size_pos,
    rangeOffsets_eq, rangeOffsets_zero, Nat.add_sub_cancel_left]
  rfl

/-- A round in which nothing panics: the heap is longer by the chunk, however the mapping went. -/
theorem growBy_eq {x : Except RangeStop Unit} {r₁ : Ram} (hptr : Whole cfg ptr) (htop : base + s.size < 2 ^ 64)
    (hmap : mapRange cfg arch p g env.tables (base + s.size) ptr.addr ptr.size (arch.mapFlag .kRwo) s.ram = (x, r₁))
    (hx : x ≠ .error .panic) :
    ∃ y, (y = .ok () ∨ y = .error .err) ∧ growBy cfg arch p g base env ptr s =
      (y, ⟨(unmapPages cfg g ptr.addr (rangeOffsets cfg 0 ptr.size) r₁).2, s.size + ptr.size, s.chunks, s.asked⟩) := by
  have hfirst : onRam (mapRange cfg arch p g env.tables (base + s.size) ptr.addr ptr.size (arch.mapFlag .kRwo)) s =
      (.ok (), { s with ram := r₁ }) := by
    unfold onRam
    rw [hmap]
    match x, hx with
    | .ok (), _ => rfl
    | .error (.failed e), _ => rfl
  have hsecond : onRam (unmapRange cfg p g ptr.addr ptr.size) { s with ram := r₁ } =
      (.ok (), { s with ram := (unmapPages cfg g ptr.addr (rangeOffsets cfg 0 ptr.size) r₁).2 }) := by
    unfold onRam
    rw [unmapRange_chunk hptr]
  unfold growBy
  rw [Profile.fit_of_lt htop, Eff.lift_ok_bind, Eff.bind_of_ok hfirst, Eff.bind_of_ok hsecond]
  split_ifs with hzero hclaim
  · refine ⟨.ok (), Or.inl rfl, ?_⟩
    rw [hzero, Nat.zero_add]
    rfl
  · refine ⟨.error .err, Or.inr rfl, ?_⟩
    rw [hzero, Nat.zero_add]
    rfl
  · exact ⟨.ok (), Or.inl rfl, rfl⟩

theorem growBy_panic {r₁ : Ram} (htop : base + s.size < 2 ^ 64)
    (hmap : mapRange cfg arch p g env.tables (base + s.size) ptr.addr ptr.size (arch.mapFlag .kRwo) s.ram =
      (.error .panic, r₁)) : (growBy cfg arch p g base env ptr s).1 = .error .panic := by
  have hfirst : onRam (mapRange cfg arch p g env.tables (base + s.size) ptr.addr ptr.size (arch.mapFlag .kRwo)) s =
      (.error .panic, { s with ram := r₁ }) := by
    unfold onRam
    rw [hmap]
  unfold growBy
  rw [Profile.fit_of_lt htop, Eff.lift_ok_bind, Eff.bind_of_error hfirst]

theorem onRam_same (m : Eff Ram RangeStop Unit) (s : HeapState) :
    (onRam m s).2.size = s.size ∧ (onRam m s).2.chunks = s.chunks := by
  unfold onRam
  split <;> exact ⟨rfl, rfl⟩

/-- The heap never gets shorter, and a round gives no chunk back. -/
theorem growBy_grows : s.size ≤ (growBy cfg arch p g base env ptr s).2.size ∧
    (growBy cfg arch p g base env ptr s).2.chunks = s.chunks := by
  have hram : ∀ m, Eff.Keeps (fun s' => s.size ≤ s'.size ∧ s'.chunks = s.chunks) (onRam m) := by
    intro m s' hs'
    obtain ⟨hsize, hchunks⟩ := onRam_same m s'
    exact ⟨hs'.1.trans hsize.ge, hchunks.trans hs'.2⟩
  have hset : ∀ size, s.size ≤ size →
      Eff.Keeps (fun s' => s.size ≤ s'.size ∧ s'.chunks = s.chunks) (setHeap size) :=
    fun size hsize _ hs' => ⟨hsize, hs'.2⟩
  unfold growBy
  refine @Eff.Keeps.lift_bind HeapState OomStop Nat Unit (fun s' => s.size ≤ s'.size ∧ s'.chunks = s.chunks) _ _
    (fun top _ => ?_) s ⟨le_refl _, rfl⟩
  apply (hram _).bind
  intro _ _ _ _
  apply (hram _).bind
  intro _ _ _ _
  split_ifs with hzero
  · exact (hset _ (hzero.trans_le (Nat.zero_le _))).bind fun _ _ _ _ => Eff.keeps_lift _
  · exact (hset _ (hzero.trans_le (Nat.zero_le _))).bind fun _ _ _ _ => Eff.keeps_lift _
  · exact hset _ (Nat.le_add_right _ _)

/-! ### Heaps with a hole -/

variable (cfg g base env) in
/-- The heap reaches over the end of the address space, or a page of it has no translation or that of others. -/
def Broken (s : HeapState) : Prop :=
  2 ^ 64 ≤ base + s.size ∨ WellFormed cfg s.ram.mem g.rootTable ∧ cfg.psz.size ∣ s.size ∧
    ∃ k, k * cfg.psz.size < s.size ∧
      ∀ w, walk cfg s.ram.mem g.rootTable (BitVec.ofNat 64 (base + k * cfg.psz.size)) = some w → Foreign cfg env w

theorem Broken.not_backed {m : Machine} (h : Broken cfg g base env m.heap)
    (hchunks : ∀ c ∈ m.heap.chunks, ∃ s trySz, env.alloc s trySz = some c) : ¬Backed cfg g base m := by
  intro hbacked
  have hinside := hbacked.inside
  rcases h with hover | ⟨-, -, k, hk, hhole⟩
  · omega
  · have htoNat := toNat_ofNat_lt (show base + k * cfg.psz.size < 2 ^ 64 by omega)
    obtain ⟨w, hw, c, hc, hlo, hhi⟩ := hbacked.mapped (BitVec.ofNat 64 (base + k * cfg.psz.size)) (by
      rw [InHeap, htoNat]
      omega)
    obtain ⟨s, trySz, halloc⟩ := hchunks c hc
    have hforeign := hhole w hw s trySz c halloc
    have hpos := cfg.psz.size_pos
    omega

/-- An address below the end of the heap takes no path of a page behind it. -/
theorem not_agree_behind (hbase : Base cfg base) (hsize : cfg.psz.size ∣ s.size) {off k : Nat}
    (htop : base + s.size + off < 2 ^ 64) (hk : k * cfg.psz.size < s.size) :
    ¬Agree cfg cfg.depth (BitVec.ofNat 64 (base + s.size + off)) (BitVec.ofNat 64 (base + k * cfg.psz.size)) := by
  have hpos := cfg.psz.size_pos
  have htoNat := toNat_ofNat_lt (show base + k * cfg.psz.size < 2 ^ 64 by omega)
  have hhigh := hbase.high
  obtain ⟨b, hb⟩ := hbase.aligned
  obtain ⟨c, hc⟩ := hsize
  rw [agree_high (by omega) htop (by omega), htoNat]
  have hbelow : (base + k * cfg.psz.size) / cfg.psz.size = b + k := by
    rw [hb, Nat.mul_comm k, ← Nat.mul_add, Nat.mul_div_cancel_left _ hpos]
  have habove : b + c ≤ (base + s.size + off) / cfg.psz.size := by
    rw [Nat.le_div_iff_mul_le hpos, Nat.mul_comm, Nat.mul_add, ← hb, ← hc]
    exact Nat.le_add_right _ _
  rw [hc, Nat.mul_comm] at hk
  have hkc := Nat.lt_of_mul_lt_mul_left hk
  omega

theorem mem_offsets_lt (hptr : Whole cfg ptr) {off : Nat} (hoff : off ∈ rangeOffsets cfg 0 ptr.size) :
    off + cfg.psz.size ≤ ptr.size ∧ cfg.psz.size ∣ off := by
  obtain ⟨count, hcount⟩ := hptr.size
  rw [hcount, Nat.mul_comm, rangeOffsets_zero] at hoff
  obtain ⟨i, hi, rfl⟩ := List.mem_map.mp hoff
  have hle : (i + 1) * cfg.psz.size ≤ count * cfg.psz.size := Nat.mul_le_mul_right _ (List.mem_range.mp hi)
  rw [Nat.add_mul, Nat.one_mul] at hle
  rw [hcount, Nat.mul_comm _ count]
  exact ⟨hle, Nat.dvd_mul_left _ _⟩

/-- A hole is never filled. -/
theorem Broken.growBy (h : Broken cfg g base env s) (hbase : Base cfg base) (htables : FreshTables cfg g env.tables)
    (hptr : Whole cfg ptr) : (growBy cfg arch p g base env ptr s).1 = .error .panic ∨
      Broken cfg g base env (growBy cfg arch p g base env ptr s).2 := by
  by_cases htop : base + s.size < 2 ^ 64
  · rcases h with hover | ⟨hwf, hsize, k, hk, hhole⟩
    · omega
    · by_cases hroom : Room cfg p (base + s.size + ptr.size)
      · right
        obtain ⟨x, r₁, hmap, hx, heffect⟩ :=
          @mapRange_room cfg arch p g base env s ptr hbase hsize hptr htables hwf hroom
        obtain ⟨y, -, hgrow⟩ := growBy_eq hptr htop hmap hx
        obtain ⟨hwf', hwalk⟩ := @unmapPages_walk cfg g ptr.addr (rangeOffsets cfg 0 ptr.size) r₁ heffect.wellFormed
        rw [hgrow]
        refine Or.inr ⟨hwf', Nat.dvd_add hsize hptr.size, k, Nat.lt_add_right _ hk, fun w hw => hhole w ?_⟩
        rw [hwalk] at hw
        split_ifs at hw
        rw [← hw]
        refine (heffect.other _ fun off hoff => ?_).symm
        have hoff' := (mem_offsets_lt hptr hoff).1
        have hpos := cfg.psz.size_pos
        exact not_agree_behind hbase hsize (by have := hroom.lt; omega) hk
      · rcases @mapRange_no_room cfg arch p g base env s ptr hbase hsize htop hptr hroom with ⟨r₁, hmap⟩ | ⟨hover, hmap⟩
        · exact Or.inl (growBy_panic htop hmap)
        · obtain ⟨y, -, hgrow⟩ := growBy_eq hptr htop hmap (by simp)
          rw [hgrow]
          exact Or.inr (Or.inl (by simpa only [Nat.add_assoc] using hover))
  · have hle := (@growBy_grows cfg arch p g base env s ptr).1
    exact Or.inr (Or.inl (by omega))

/-! ### Heaps without one -/

variable (cfg) in
/-- The physical pages of chunks, in the order of the chunks. -/
def frames (chunks : List OwnedPtr) : List Nat :=
  chunks.flatMap fun c => (List.range (c.size / cfg.psz.size)).map (c.addr / cfg.psz.size + ·)

variable (cfg arch g base env) in
/-- The heap is made of the chunks of `mapped`, one behind the other, and what is mapped behind it is that of others. -/
structure Inv (s : HeapState) (mapped : List OwnedPtr) : Prop where
  wellFormed : WellFormed cfg s.ram.mem g.rootTable
  top : base + s.size < 2 ^ 64
  size : s.size = (frames cfg mapped).length * cfg.psz.size
  maps : ∀ k f, (frames cfg mapped)[k]? = some f →
    walk cfg s.ram.mem g.rootTable (BitVec.ofNat 64 (base + k * cfg.psz.size)) =
      some (leafWord cfg (f, arch.mapFlag .kRwo))
  behind : ∀ va w, base + s.size ≤ va.toNat → walk cfg s.ram.mem g.rootTable va = some w → Foreign cfg env w

variable {mapped : List OwnedPtr}

theorem Inv.dvd_size (h : Inv cfg arch g base env s mapped) : cfg.psz.size ∣ s.size := h.size ▸ Nat.dvd_mul_left _ _

theorem frames_concat (hptr : Whole cfg ptr) : ∃ count frame, ptr.size = count * cfg.psz.size ∧
    ptr.addr = frame * cfg.psz.size ∧
    ∀ mapped, frames cfg (mapped ++ [ptr]) = frames cfg mapped ++ (List.range count).map (frame + ·) := by
  have hpos := cfg.psz.size_pos
  obtain ⟨count, hcount⟩ := hptr.size
  obtain ⟨frame, hframe⟩ := hptr.addr
  refine ⟨count, frame, hcount.trans (Nat.mul_comm _ _), hframe.trans (Nat.mul_comm _ _), fun mapped => ?_⟩
  rw [frames, List.flatMap_append, List.flatMap_singleton, hcount, hframe, Nat.mul_div_cancel_left _ hpos,
    Nat.mul_div_cancel_left _ hpos]
  rfl

theorem Grows.not_hit (h : Grows cfg arch p g base env s ptr) (hptr : Whole cfg ptr) {k : Nat}
    (hk : k * cfg.psz.size < s.size + ptr.size) (hsize : cfg.psz.size ∣ s.size) :
    ¬∃ off ∈ rangeOffsets cfg 0 ptr.size,
      Agree cfg cfg.depth (BitVec.ofNat 64 (ptr.addr + off)) (BitVec.ofNat 64 (base + k * cfg.psz.size)) := by
  rintro ⟨off, hoff, hagree⟩
  obtain ⟨hlt, i, rfl⟩ := mem_offsets_lt hptr hoff
  have hpos := cfg.psz.size_pos
  rw [Nat.mul_comm] at hagree hlt
  refine h.clear i ?_ k ?_ hagree
  · rw [Nat.lt_iff_add_one_le, Nat.le_div_iff_mul_le hpos, Nat.add_mul, Nat.one_mul]
    exact hlt
  · rwa [Nat.lt_div_iff_mul_lt_of_dvd hpos.ne' (Nat.dvd_add hsize hptr.size)]

/-- A chunk that meets the conditions becomes part of the heap. -/
theorem Inv.growBy (h : Inv cfg arch g base env s mapped) (hbase : Base cfg base)
    (htables : FreshTables cfg g env.tables) (hptr : Whole cfg ptr) (hgrows : Grows cfg arch p g base env s ptr) :
    ∃ y s', (y = .ok () ∨ y = .error .err) ∧ growBy cfg arch p g base env ptr s = (y, s') ∧
      s'.chunks = s.chunks ∧ Inv cfg arch g base env s' (mapped ++ [ptr]) := by
  have hpos := cfg.psz.size_pos
  obtain ⟨x, r₁, hmap, hx, heffect⟩ := @mapRange_room cfg arch p g base env s ptr hbase h.dvd_size hptr htables
    h.wellFormed hgrows.room
  obtain ⟨y, hy, hgrow⟩ := growBy_eq hptr h.top hmap hx
  obtain ⟨hwf, hwalk⟩ := @unmapPages_walk cfg g ptr.addr (rangeOffsets cfg 0 ptr.size) r₁ heffect.wellFormed
  obtain ⟨count, frame, hcount, hframe, hconcat⟩ := frames_concat hptr
  have htop := hgrows.room.lt
  have hlen : (frames cfg (mapped ++ [ptr])).length * cfg.psz.size = s.size + ptr.size := by
    rw [hconcat, List.length_append, List.length_map, List.length_range, Nat.add_mul, ← h.size, ← hcount]
  refine ⟨y, _, hy, hgrow, rfl, hwf, by simpa only [Nat.add_assoc] using htop, hlen.symm, fun k f hk => ?_, ?_⟩
  · have hlt : k * cfg.psz.size < s.size + ptr.size := by
      rw [← hlen]
      exact (Nat.mul_lt_mul_right hpos).mpr (List.getElem?_eq_some_iff.mp hk).1
    refine (hwalk _).trans ((if_neg (hgrows.not_hit hptr hlt h.dvd_size)).trans ?_)
    rw [hconcat] at hk
    by_cases hold : k < (frames cfg mapped).length
    · -- a page that was there before
      rw [List.getElem?_append_left hold] at hk
      have hbelow : k * cfg.psz.size < s.size := by
        rw [h.size]
        exact (Nat.mul_lt_mul_right hpos).mpr hold
      refine (heffect.other _ fun off hoff => ?_).trans (h.maps k f hk)
      have hoff' := (mem_offsets_lt hptr hoff).1
      exact not_agree_behind hbase h.dvd_size (by omega) hbelow
    · -- a page of the chunk
      rw [Nat.not_lt] at hold
      rw [List.getElem?_append_right hold, List.getElem?_map, Option.map_eq_some_iff] at hk
      obtain ⟨i, hi, rfl⟩ := hk
      obtain ⟨hilt, hi⟩ := List.getElem?_eq_some_iff.mp hi
      rw [List.getElem_range] at hi
      rw [List.length_range] at hilt
      have haddr : base + k * cfg.psz.size = base + s.size + i * cfg.psz.size := by
        rw [h.size, Nat.add_assoc, ← Nat.add_mul, ← hi, Nat.add_sub_cancel' hold]
      have hoff : i * cfg.psz.size ∈ rangeOffsets cfg 0 ptr.size := by
        rw [hcount, rangeOffsets_zero]
        exact List.mem_map_of_mem (List.mem_range.mpr (hi ▸ hilt))
      have hleaf : (frame + i) * cfg.psz.size < 2 ^ 64 := by
        have hbelow := hptr.below
        have hoff' := (mem_offsets_lt hptr hoff).1
        rw [OwnedPtr.fin, hframe] at hbelow
        rw [Nat.add_mul]
        omega
      rw [haddr, heffect.mapped hgrows.served _ hoff, hframe, ← Nat.add_mul, ofNat_and_addrMask hleaf, present,
        if_neg (valid_or (mapFlag_valid arch .kRwo))]
      rfl
  · intro va w (hva : base + (s.size + ptr.size) ≤ va.toNat) hw
    have hw := (hwalk va).symm.trans hw
    split_ifs at hw
    refine h.behind va w (by omega) ((heffect.other va fun off hoff => ?_).symm.trans hw)
    obtain ⟨hlt, i, rfl⟩ := mem_offsets_lt hptr hoff
    have hhigh := hbase.high
    rw [agree_high (by omega) (by omega) (by omega)]
    intro hpage
    have hnext : base + s.size + cfg.psz.size * i + cfg.psz.size ≤ va.toNat := by omega
    have hdiv := Nat.div_le_div_right (c := cfg.psz.size) hnext
    rw [Nat.add_div_right _ hpos] at hdiv
    omega

/-- A chunk that does not meet them leaves a hole. -/
theorem Inv.growBy_breaks (h : Inv cfg arch g base env s mapped) (hbase : Base cfg base)
    (htables : FreshTables cfg g env.tables) (hptr : Whole cfg ptr) (hgrows : ¬Grows cfg arch p g base env s ptr) :
    (KheapHandler.growBy cfg arch p g base env ptr s).1 = .error .panic ∨
      Broken cfg g base env (KheapHandler.growBy cfg arch p g base env ptr s).2 := by
  have hpos := cfg.psz.size_pos
  have hsize := h.dvd_size
  by_cases hroom : Room cfg p (base + s.size + ptr.size)
  · right
    obtain ⟨x, r₁, hmap, hx, heffect⟩ := @mapRange_room cfg arch p g base env s ptr hbase hsize hptr htables
      h.wellFormed hroom
    obtain ⟨y, -, hgrow⟩ := growBy_eq hptr h.top hmap hx
    obtain ⟨hwf, hwalk⟩ := @unmapPages_walk cfg g ptr.addr (rangeOffsets cfg 0 ptr.size) r₁ heffect.wellFormed
    rw [hgrow]
    refine Or.inr ⟨hwf, Nat.dvd_add hsize hptr.size, ?_⟩
    by_cases hserved : ServedPages cfg arch g env.tables (base + s.size) ptr.addr (arch.mapFlag .kRwo)
        (rangeOffsets cfg 0 ptr.size) s.ram
    · -- the chunk is mapped, and a page of the heap goes with its mapping to itself
      obtain ⟨i, hi, k, hk, hagree⟩ : ∃ i < ptr.size / cfg.psz.size, ∃ k < (s.size + ptr.size) / cfg.psz.size,
          Agree cfg cfg.depth (BitVec.ofNat 64 (ptr.addr + i * cfg.psz.size))
            (BitVec.ofNat 64 (base + k * cfg.psz.size)) := by
        by_contra hclear
        simp only [not_exists, not_and] at hclear
        exact hgrows ⟨hroom, hserved, fun i hi k hk => hclear i hi k hk⟩
      refine ⟨k, (Nat.lt_div_iff_mul_lt_of_dvd hpos.ne' (Nat.dvd_add hsize hptr.size)).mp hk, fun w hw => ?_⟩
      rw [hwalk, if_pos ⟨_, List.mem_map_of_mem (List.mem_range.mpr hi), hagree⟩] at hw
      cases hw
    · obtain ⟨off, hoff, hsame⟩ := heffect.hole hserved
      obtain ⟨hlt, i, rfl⟩ := mem_offsets_lt hptr hoff
      obtain ⟨c, hc⟩ := hsize
      have htop := hroom.lt
      have haddr : base + s.size + cfg.psz.size * i = base + (c + i) * cfg.psz.size := by
        rw [hc, Nat.add_assoc, ← Nat.mul_add, Nat.mul_comm]
      refine ⟨c + i, ?_, ?_⟩
      · rw [Nat.add_mul, Nat.mul_comm c, ← hc, Nat.mul_comm i]
        show _ < s.size + ptr.size
        omega
      · intro w hw
        rw [hwalk] at hw
        split_ifs at hw
        rw [← haddr, hsame] at hw
        refine h.behind _ w ?_ hw
        rw [toNat_ofNat_lt (by omega)]
        omega
  · rcases @mapRange_no_room cfg arch p g base env s ptr hbase hsize h.top hptr hroom with ⟨r₁, hmap⟩ | ⟨hover, hmap⟩
    · exact Or.inl (growBy_panic h.top hmap)
    · obtain ⟨y, -, hgrow⟩ := growBy_eq hptr h.top hmap (by simp)
      rw [hgrow]
      exact Or.inr (Or.inl (by simpa only [Nat.add_assoc] using hover))

end Round

/-! ### The loops -/

section Loops

variable {cfg : RvmCfg} {arch : Arch} {p : Profile} {g : Glacier} {base : Nat} {env : HeapEnv} {s : HeapState}

variable (cfg env) in
/-- The chunks come from `PHYS_ALLOC` in whole pages, and no two of them overlap. -/
structure Given (chunks : List OwnedPtr) : Prop where
  given : ∀ c ∈ chunks, ∃ s trySz, env.alloc s trySz = some c
  whole : ∀ c ∈ chunks, Whole cfg c
  apart : chunks.Pairwise fun c d => c.fin ≤ d.addr ∨ d.fin ≤ c.addr

theorem half_pages_lt {trySz : Nat} (hlt : cfg.psz.size < trySz) (hdvd : cfg.psz.size ∣ trySz) :
    0 < trySz / (cfg.psz.size <<< 1) * cfg.psz.size ∧ trySz / (cfg.psz.size <<< 1) * cfg.psz.size < trySz := by
  have hpos := cfg.psz.size_pos
  obtain ⟨k, rfl⟩ := hdvd
  have hk : 2 ≤ k := by
    by_contra hk
    have : cfg.psz.size * k ≤ cfg.psz.size * 1 := Nat.mul_le_mul_left _ (by omega)
    omega
  have hhalf : cfg.psz.size * k / (cfg.psz.size <<< 1) = k / 2 := by
    rw [Nat.shiftLeft_eq, Nat.pow_one, Nat.mul_div_mul_left _ _ hpos]
  rw [hhalf]
  refine ⟨Nat.mul_pos (by omega) hpos, ?_⟩
  rw [Nat.mul_comm]
  exact (Nat.mul_lt_mul_left hpos).mpr (by omega)

/-- The inner loop ends with a chunk that is apart from the earlier ones, or with `Err(())`. -/
theorem tryAlloc_spec (henv : Honest cfg g env) (hgiven : Given cfg env s.chunks) {fuel trySz : Nat}
    (hpos : 0 < trySz) (hfuel : trySz ≤ fuel) (hdvd : cfg.psz.size ∣ trySz) :
    (∃ ptr asked, tryAlloc cfg env fuel trySz s = (.ok ptr, ⟨s.ram, s.size, s.chunks ++ [ptr], asked⟩) ∧
      Given cfg env (s.chunks ++ [ptr])) ∨
    ∃ asked, tryAlloc cfg env fuel trySz s = (.error .err, ⟨s.ram, s.size, s.chunks, asked⟩) := by
  induction fuel generalizing s trySz with
  | zero => omega
  | succ fuel ih =>
    cases halloc : env.alloc s trySz with
    | some ptr =>
      left
      obtain ⟨hsize, haddr, hfin, hapart⟩ := henv.alloc s trySz ptr halloc
      have hle := Nat.le_of_dvd hpos hdvd
      rw [sizeAlign, if_neg (Nat.not_lt.mpr hle), alignUp_of_dvd hdvd] at hsize
      refine ⟨ptr, s.asked + 1, by simp only [tryAlloc, halloc], ?_, ?_, ?_⟩
      · exact List.forall_mem_append.mpr ⟨hgiven.given, List.forall_mem_singleton.mpr ⟨s, trySz, halloc⟩⟩
      · exact List.forall_mem_append.mpr
          ⟨hgiven.whole, List.forall_mem_singleton.mpr ⟨haddr, hsize ▸ hdvd, hsize ▸ hpos, hfin⟩⟩
      · rw [List.pairwise_append]
        refine ⟨hgiven.apart, List.pairwise_singleton _ _, fun c hc d hd => ?_⟩
        rw [List.mem_singleton.mp hd]
        exact hapart c hc
    | none =>
      by_cases hlt : cfg.psz.size < trySz
      · obtain ⟨hpos', hlt'⟩ := half_pages_lt hlt hdvd
        have hrest := @ih { s with asked := s.asked + 1 } hgiven _ hpos' (by omega) (Nat.dvd_mul_left _ _)
        simp only [tryAlloc, halloc, if_pos hlt]
        exact hrest
      · right
        exact ⟨s.asked + 1, by simp only [tryAlloc, halloc, if_neg hlt]⟩

variable (cfg arch p g base env) in
/-- How a round of the outer loop goes: there is nothing left to ask for, no chunk is given, or there is one and the
rest of the round stops or the loop goes on. -/
inductive LoopRound (fuel rem : Nat) (s : HeapState) : Prop
  | done (hrem : rem = 0) (h : growLoop cfg arch p g base env (fuel + 1) rem s = (.ok (), s))
  | refused (asked : Nat) (htry : tryAlloc cfg env rem rem s = (.error .err, ⟨s.ram, s.size, s.chunks, asked⟩))
      (h : growLoop cfg arch p g base env (fuel + 1) rem s = (.error .err, ⟨s.ram, s.size, s.chunks, asked⟩))
  | stopped (ptr : OwnedPtr) (asked : Nat) (e : OomStop) (s₂ : HeapState) (hrem : rem ≠ 0)
      (htry : tryAlloc cfg env rem rem s = (.ok ptr, ⟨s.ram, s.size, s.chunks ++ [ptr], asked⟩))
      (hptr : Whole cfg ptr) (hgiven : Given cfg env s₂.chunks)
      (hgrow : growBy cfg arch p g base env ptr ⟨s.ram, s.size, s.chunks ++ [ptr], asked⟩ = (.error e, s₂))
      (h : growLoop cfg arch p g base env (fuel + 1) rem s = (.error e, s₂))
  | grown (ptr : OwnedPtr) (asked : Nat) (s₂ : HeapState) (hrem : rem ≠ 0)
      (htry : tryAlloc cfg env rem rem s = (.ok ptr, ⟨s.ram, s.size, s.chunks ++ [ptr], asked⟩))
      (hptr : Whole cfg ptr) (hgiven : Given cfg env s₂.chunks)
      (hgrow : growBy cfg arch p g base env ptr ⟨s.ram, s.size, s.chunks ++ [ptr], asked⟩ = (.ok (), s₂))
      (h : growLoop cfg arch p g base env (fuel + 1) rem s = growLoop cfg arch p g base env fuel (rem - ptr.size) s₂)

theorem loopRound (henv : Honest cfg g env) (fuel : Nat) {rem : Nat} (hgiven : Given cfg env s.chunks)
    (hdvd : cfg.psz.size ∣ rem) : LoopRound cfg arch p g base env fuel rem s := by
  by_cases hrem : rem = 0
  · apply LoopRound.done hrem
    rw [growLoop, if_pos hrem]
    rfl
  rcases tryAlloc_spec henv hgiven (Nat.pos_of_ne_zero hrem) (le_refl rem) hdvd with
    ⟨ptr, asked, htry, hgiven₁⟩ | ⟨asked, htry⟩
  · have hptr := hgiven₁.whole ptr (List.mem_append_right _ List.mem_cons_self)
    have hchunks := (@growBy_grows cfg arch p g base env ⟨s.ram, s.size, s.chunks ++ [ptr], asked⟩ ptr).2
    rcases hgrow : growBy cfg arch p g base env ptr ⟨s.ram, s.size, s.chunks ++ [ptr], asked⟩ with ⟨e | _, s₂⟩
    · rw [hgrow] at hchunks
      apply LoopRound.stopped ptr asked e s₂ hrem htry hptr (hchunks.symm ▸ hgiven₁) hgrow
      rw [growLoop, if_neg hrem, Eff.bind_of_ok htry, Eff.bind_of_error hgrow]
    · rw [hgrow] at hchunks
      apply LoopRound.grown ptr asked s₂ hrem htry hptr (hchunks.symm ▸ hgiven₁) hgrow
      rw [growLoop, if_neg hrem, Eff.bind_of_ok htry, Eff.bind_of_ok hgrow]
  · apply LoopRound.refused asked htry
    rw [growLoop, if_neg hrem, Eff.bind_of_error htry]

theorem Inv.given {mapped chunks : List OwnedPtr} {asked : Nat} (h : Inv cfg arch g base env s mapped) :
    Inv cfg arch g base env ⟨s.ram, s.size, chunks, asked⟩ mapped :=
  ⟨h.wellFormed, h.top, h.size, h.maps, h.behind⟩

/-- As long as the conditions hold, the outer loop ends with a heap without a hole. -/
theorem growLoop_inv (henv : Honest cfg g env) (hbase : Base cfg base) {fuel rem : Nat}
    (h : Inv cfg arch g base env s s.chunks) (hgiven : Given cfg env s.chunks) (hdvd : cfg.psz.size ∣ rem)
    (hfuel : rem < fuel)
    (hgrows : LoopGrows cfg arch p g base env fuel rem s) :
    ∃ y s', (y = .ok () ∨ y = .error .err) ∧ growLoop cfg arch p g base env fuel rem s = (y, s') ∧
      Inv cfg arch g base env s' s'.chunks ∧ Given cfg env s'.chunks := by
  induction fuel generalizing s rem with
  | zero => omega
  | succ fuel ih =>
    cases @loopRound cfg arch p g base env s henv fuel rem hgiven hdvd with
    | done _ hloop => exact ⟨_, _, Or.inl rfl, hloop, h, hgiven⟩
    | refused asked _ hloop => exact ⟨_, _, Or.inr rfl, hloop, h.given, hgiven⟩
    | stopped ptr asked e s₂ hrem htry hptr hgiven₂ hgrow hloop =>
      have hround := hgrows.resolve_left hrem
      simp only [htry, IfOk] at hround
      obtain ⟨y, s', hy, hgrow', hchunks, hinv₂⟩ := h.given.growBy hbase henv.tables hptr hround.1
      cases hgrow.symm.trans hgrow'
      exact ⟨_, _, hy, hloop, hchunks.symm ▸ hinv₂, hgiven₂⟩
    | grown ptr asked s₂ hrem htry hptr hgiven₂ hgrow hloop =>
      have hround := hgrows.resolve_left hrem
      simp only [htry, IfOk, hgrow] at hround
      obtain ⟨y, s', hy, hgrow', hchunks, hinv₂⟩ := h.given.growBy hbase henv.tables hptr hround.1
      cases hgrow.symm.trans hgrow'
      have hpos := hptr.pos
      rw [hloop]
      exact ih (hchunks.symm ▸ hinv₂) hgiven₂ (Nat.dvd_sub hdvd hptr.size) (by omega) hround.2

theorem growLoop_given (henv : Honest cfg g env) {fuel rem : Nat} (hgiven : Given cfg env s.chunks)
    (hdvd : cfg.psz.size ∣ rem) : Given cfg env (growLoop cfg arch p g base env fuel rem s).2.chunks := by
  induction fuel generalizing s rem with
  | zero => exact hgiven
  | succ fuel ih =>
    cases @loopRound cfg arch p g base env s henv fuel rem hgiven hdvd with
    | done _ hloop => rwa [hloop]
    | refused asked _ hloop => rwa [hloop]
    | stopped ptr asked e s₂ _ _ _ hgiven₂ _ hloop => rwa [hloop]
    | grown ptr asked s₂ _ _ hptr hgiven₂ _ hloop =>
      rw [hloop]
      exact ih hgiven₂ (Nat.dvd_sub hdvd hptr.size)

/-- From a heap with a hole the outer loop comes to one with a hole. -/
theorem growLoop_broken (henv : Honest cfg g env) (hbase : Base cfg base) {fuel rem : Nat}
    (h : Broken cfg g base env s) (hgiven : Given cfg env s.chunks) (hdvd : cfg.psz.size ∣ rem) :
    (growLoop cfg arch p g base env fuel rem s).1 = .error .panic ∨
      Broken cfg g base env (growLoop cfg arch p g base env fuel rem s).2 := by
  induction fuel generalizing s rem with
  | zero => exact Or.inr h
  | succ fuel ih =>
    cases @loopRound cfg arch p g base env s henv fuel rem hgiven hdvd with
    | done _ hloop =>
      rw [hloop]
      exact Or.inr h
    | refused asked _ hloop =>
      rw [hloop]
      exact Or.inr h
    | stopped ptr asked e s₂ _ _ hptr _ hgrow hloop =>
      have hround := @Broken.growBy cfg arch p g base env ⟨s.ram, s.size, s.chunks ++ [ptr], asked⟩ ptr h hbase
        henv.tables hptr
      rw [hgrow] at hround
      rw [hloop]
      exact hround.imp (fun he => by rw [Except.error.inj he]) id
    | grown ptr asked s₂ _ _ hptr hgiven₂ hgrow hloop =>
      have hround := @Broken.growBy cfg arch p g base env ⟨s.ram, s.size, s.chunks ++ [ptr], asked⟩ ptr h hbase
        henv.tables hptr
      rw [hgrow] at hround
      rw [hloop]
      exact ih (hround.resolve_left (by simp)) hgiven₂ (Nat.dvd_sub hdvd hptr.size)

/-- Once a condition fails, the outer loop leaves a hole. -/
theorem growLoop_breaks (henv : Honest cfg g env) (hbase : Base cfg base) {fuel rem : Nat}
    (h : Inv cfg arch g base env s s.chunks) (hgiven : Given cfg env s.chunks) (hdvd : cfg.psz.size ∣ rem)
    (hgrows : ¬LoopGrows cfg arch p g base env fuel rem s) :
    (growLoop cfg arch p g base env fuel rem s).1 = .error .panic ∨
      Broken cfg g base env (growLoop cfg arch p g base env fuel rem s).2 := by
  induction fuel generalizing s rem with
  | zero => exact absurd trivial hgrows
  | succ fuel ih =>
    rw [LoopGrows, not_or] at hgrows
    cases @loopRound cfg arch p g base env s henv fuel rem hgiven hdvd with
    | done hrem _ => exact absurd hrem hgrows.1
    | refused asked htry _ =>
      have hround := hgrows.2
      simp only [htry, IfOk, not_true] at hround
    | stopped ptr asked e s₂ _ htry hptr _ hgrow hloop =>
      -- only a chunk that does not meet the conditions is left
      have hround := hgrows.2
      simp only [htry, IfOk, hgrow, and_true] at hround
      have hbroken := h.given.growBy_breaks hbase henv.tables hptr hround
      rw [hgrow] at hbroken
      rw [hloop]
      exact hbroken.imp (fun he => by rw [Except.error.inj he]) id
    | grown ptr asked s₂ _ htry hptr hgiven₂ hgrow hloop =>
      have hround := hgrows.2
      simp only [htry, IfOk, hgrow] at hround
      rw [hloop]
      by_cases hone : Grows cfg arch p g base env ⟨s.ram, s.size, s.chunks ++ [ptr], asked⟩ ptr
      · obtain ⟨y, s', hy, hgrow', hchunks, hinv₂⟩ := h.given.growBy hbase henv.tables hptr hone
        cases hgrow.symm.trans hgrow'
        exact ih (hchunks.symm ▸ hinv₂) hgiven₂ (Nat.dvd_sub hdvd hptr.size) fun hrest => hround ⟨hone, hrest⟩
      · have hbroken := h.given.growBy_breaks hbase henv.tables hptr hone
        rw [hgrow] at hbroken
        exact growLoop_broken henv hbase (hbroken.resolve_left (by simp)) hgiven₂ (Nat.dvd_sub hdvd hptr.size)

end Loops

/-! ### Calls -/

section Calls

variable {cfg : RvmCfg} {arch : Arch} {p : Profile} {g : Glacier} {base : Nat} {env : HeapEnv}

theorem mem_frames {chunks : List OwnedPtr} (hchunks : ∀ c ∈ chunks, Whole cfg c) {f : Nat}
    (hf : f ∈ frames cfg chunks) :
    ∃ c ∈ chunks, c.addr ≤ f * cfg.psz.size ∧ f * cfg.psz.size + cfg.psz.size ≤ c.fin := by
  obtain ⟨c, hc, hf⟩ := List.mem_flatMap.mp hf
  obtain ⟨i, hi, rfl⟩ := List.mem_map.mp hf
  have hwhole := hchunks c hc
  have hle : (i + 1) * cfg.psz.size ≤ c.size :=
    (Nat.mul_le_mul_right _ (List.mem_range.mp hi)).trans (Nat.div_mul_le_self _ _)
  refine ⟨c, hc, ?_⟩
  rw [Nat.add_mul, Nat.one_mul] at hle
  rw [Nat.add_mul, Nat.div_mul_cancel hwhole.addr, OwnedPtr.fin]
  omega

theorem nodup_frames {chunks : List OwnedPtr} (hgiven : Given cfg env chunks) : (frames cfg chunks).Nodup := by
  rw [frames, List.nodup_flatMap]
  refine ⟨fun c _ => List.nodup_range.map fun i j hij => Nat.add_left_cancel hij, ?_⟩
  have hpages : ∀ c ∈ chunks, ∀ f ∈ (List.range (c.size / cfg.psz.size)).map (c.addr / cfg.psz.size + ·),
      c.addr ≤ f * cfg.psz.size ∧ f * cfg.psz.size + cfg.psz.size ≤ c.fin := by
    intro c hc f hf
    have hmem : f ∈ frames cfg [c] := by rwa [frames, List.flatMap_singleton]
    obtain ⟨d, hd, hrange⟩ := mem_frames (List.forall_mem_singleton.mpr (hgiven.whole c hc)) hmem
    rwa [List.mem_singleton.mp hd] at hrange
  refine hgiven.apart.imp_of_mem fun {c d} hc hd happart f hfc hfd => ?_
  have hc' := hpages c hc f hfc
  have hd' := hpages d hd f hfd
  have hpos := cfg.psz.size_pos
  omega

/-- The page of the heap that an address lies in. -/
theorem Inv.page {s : HeapState} {mapped : List OwnedPtr} (h : Inv cfg arch g base env s mapped) (hbase : Base cfg base)
    {va : Word} (hva : InHeap base s va) : ∃ k f, (frames cfg mapped)[k]? = some f ∧
      walk cfg s.ram.mem g.rootTable va = some (leafWord cfg (f, arch.mapFlag .kRwo)) ∧
      va.toNat / cfg.psz.size = base / cfg.psz.size + k := by
  have hpos := cfg.psz.size_pos
  obtain ⟨hlo, hhi⟩ := hva
  obtain ⟨b, hb⟩ := hbase.aligned
  have hadd : ∀ x, (base + x) / cfg.psz.size = base / cfg.psz.size + x / cfg.psz.size := by
    intro x
    rw [hb, Nat.mul_add_div hpos, Nat.mul_div_cancel_left _ hpos]
  have hdiv : va.toNat / cfg.psz.size = base / cfg.psz.size + (va.toNat - base) / cfg.psz.size := by
    rw [← hadd, Nat.add_sub_cancel' hlo]
  have hk : (va.toNat - base) / cfg.psz.size < (frames cfg mapped).length := by
    rw [Nat.div_lt_iff_lt_mul hpos, ← h.size]
    omega
  refine ⟨(va.toNat - base) / cfg.psz.size, _, List.getElem?_eq_getElem hk, ?_, hdiv⟩
  have hle := Nat.div_mul_le_self (va.toNat - base) cfg.psz.size
  have hhigh := hbase.high
  have htop := h.top
  rw [← h.maps _ _ (List.getElem?_eq_getElem hk)]
  refine (walkFrom_agree ?_).symm
  rw [agree_high (by omega) (by omega) (by omega), hdiv, hadd, Nat.mul_div_cancel _ hpos]

theorem Inv.backed {m : Machine} (h : Inv cfg arch g base env m.heap m.heap.chunks)
    (hgiven : Given cfg env m.heap.chunks) (hbase : Base cfg base) (hrunning : m.stopped = false) :
    Backed cfg g base m := by
  have haddr : ∀ k f : Nat, (frames cfg m.heap.chunks)[k]? = some f →
      pageAddr cfg (leafWord cfg (f, arch.mapFlag .kRwo)) = f * cfg.psz.size ∧
      ∃ c ∈ m.heap.chunks, c.addr ≤ f * cfg.psz.size ∧ f * cfg.psz.size + cfg.psz.size ≤ c.fin := by
    intro k f hf
    obtain ⟨c, hc, hlo, hhi⟩ := mem_frames hgiven.whole (List.mem_of_getElem? hf)
    have hbelow := (hgiven.whole c hc).below
    have hpos := cfg.psz.size_pos
    exact ⟨pageAddr_leafWord .kRwo (by omega), c, hc, hlo, hhi⟩
  refine ⟨hrunning, h.top, fun va hva => ?_, fun va va' w w' hva hva' hw hw' heq => ?_⟩
  · obtain ⟨k, f, hf, hwalk, -⟩ := h.page hbase hva
    obtain ⟨hpage, hchunk⟩ := haddr k f hf
    exact ⟨_, hwalk, hpage.symm ▸ hchunk⟩
  · obtain ⟨k, f, hf, hwalk, hpage⟩ := h.page hbase hva
    obtain ⟨k', f', hf', hwalk', hpage'⟩ := h.page hbase hva'
    rw [hw, Option.some.injEq] at hwalk
    rw [hw', Option.some.injEq] at hwalk'
    rw [hwalk, hwalk', (haddr k f hf).1, (haddr k' f' hf').1] at heq
    have hff' := Nat.eq_of_mul_eq_mul_right cfg.psz.size_pos heq
    have hkk' : k = k' := by
      obtain ⟨hk, hget⟩ := List.getElem?_eq_some_iff.mp hf
      exact (List.getElem?_inj hk (nodup_frames hgiven)).mp (hf.trans (hff' ▸ hf'.symm))
    rw [RvmCfg.samePage_iff_div, hpage, hpage', hkk']

theorem dvd_request {layout : Layout} {size : Nat} (h : request cfg p layout = .ok size) : cfg.psz.size ∣ size := by
  obtain ⟨twice, -, h⟩ := bind_eq_ok.mp h
  have hdvd := dvd_alignUp twice cfg.psz.size_pos
  cases p with
  | dev => exact (Profile.eq_of_fit_dev h).1 ▸ hdvd
  | release =>
    rw [Profile.fit_release_natCast] at h
    cases h
    exact (Nat.dvd_mod_iff cfg.psz.size_dvd_word).mpr hdvd

theorem request_error {layout : Layout} {e : OomStop} (h : request cfg p layout = .error e) : e = .panic := by
  unfold request at h
  cases hfit : p.fit OomStop.panic 64 ((layout.size * 2 : Nat) : Int) with
  | error e' =>
    rw [hfit, error_bind] at h
    cases h
    exact Profile.eq_of_fit_error hfit
  | ok twice =>
    rw [hfit, ok_bind] at h
    exact Profile.eq_of_fit_error h

theorem step_returns {m : Machine} {layout : Layout} {y : Except OomStop Unit} {s : HeapState}
    (hrunning : m.stopped = false) (hy : y = .ok () ∨ y = .error .err)
    (h : handleOom cfg arch p g base env layout m.heap = (y, s)) :
    step cfg arch p g base env m layout = ⟨s, false⟩ := by
  unfold step
  rw [hrunning, h]
  rcases hy with rfl | rfl <;> rfl

theorem step_heap {m : Machine} {layout : Layout} (hrunning : m.stopped = false) :
    (step cfg arch p g base env m layout).heap = (handleOom cfg arch p g base env layout m.heap).2 ∧
    ((handleOom cfg arch p g base env layout m.heap).1 = .error .panic →
      (step cfg arch p g base env m layout).stopped = true) := by
  unfold step
  rw [hrunning]
  rcases handleOom cfg arch p g base env layout m.heap with ⟨(_ | _ | _) | _, s⟩ <;> simp

/-- The heap at boot. -/
def Machine.boot (ram : Ram) : Machine := ⟨⟨ram, 0, [], 0⟩, false⟩

/-- After every call the heap is backed by its own memory, exactly if in every round of every call there was room
behind the heap, memory for the tables, and no page of the heap at the place of the chunk. -/
theorem always_backed_iff {ram : Ram} {layouts : List Layout} (henv : Honest cfg g env) (hbase : Base cfg base)
    (hwf : WellFormed cfg ram.mem g.rootTable)
    (hbehind : ∀ va w, base ≤ va.toNat → walk cfg ram.mem g.rootTable va = some w → Foreign cfg env w) :
    Always (step cfg arch p g base env) (Backed cfg g base) (Machine.boot ram) layouts ↔
      Admits (step cfg arch p g base env) (CallGrows cfg arch p g base env) (Machine.boot ram) layouts := by
  have hsafe : ∀ m : Machine, m.stopped = false ∧ Inv cfg arch g base env m.heap m.heap.chunks ∧
      Given cfg env m.heap.chunks → Backed cfg g base m := fun m h => h.2.1.backed h.2.2 hbase h.1
  have hkeep : ∀ (m : Machine) (layout : Layout), m.stopped = false ∧ Inv cfg arch g base env m.heap m.heap.chunks ∧
      Given cfg env m.heap.chunks → True → CallGrows cfg arch p g base env m layout →
      (step cfg arch p g base env m layout).stopped = false ∧
        Inv cfg arch g base env (step cfg arch p g base env m layout).heap
          (step cfg arch p g base env m layout).heap.chunks ∧
        Given cfg env (step cfg arch p g base env m layout).heap.chunks := by
    rintro m layout ⟨hrunning, hinv, hgiven⟩ - ⟨size, hsize, hgrows⟩
    obtain ⟨y, s, hy, hloop, hinv', hgiven'⟩ := growLoop_inv henv hbase hinv hgiven (dvd_request hsize)
      (Nat.lt_succ_self size) hgrows
    have hcall : handleOom cfg arch p g base env layout m.heap = (y, s) := by
      unfold handleOom
      rw [hsize, Eff.lift_ok_bind, hloop]
    rw [step_returns hrunning hy hcall]
    exact ⟨rfl, hinv', hgiven'⟩
  have hneeds : ∀ (m : Machine) (layout : Layout), m.stopped = false ∧ Inv cfg arch g base env m.heap m.heap.chunks ∧
      Given cfg env m.heap.chunks → True → Backed cfg g base (step cfg arch p g base env m layout) →
      CallGrows cfg arch p g base env m layout := by
    rintro m layout ⟨hrunning, hinv, hgiven⟩ - hbacked
    obtain ⟨hheap, hpanic⟩ := @step_heap cfg arch p g base env m layout hrunning
    have hnot : (handleOom cfg arch p g base env layout m.heap).1 ≠ .error .panic := by
      intro h
      have hrunning' := hbacked.running
      rw [hpanic h] at hrunning'
      cases hrunning'
    unfold handleOom at hheap hnot
    cases hsize : request cfg p layout with
    | error e =>
      rw [hsize, Eff.lift_error_bind, request_error hsize] at hnot
      exact absurd rfl hnot
    | ok size =>
      rw [hsize, Eff.lift_ok_bind] at hheap hnot
      refine ⟨size, hsize, ?_⟩
      by_contra hgrows
      have hbroken := (growLoop_breaks henv hbase hinv hgiven (dvd_request hsize) hgrows).resolve_left hnot
      have hgiven' := @growLoop_given cfg arch p g base env m.heap henv (size + 1) size hgiven (dvd_request hsize)
      rw [← hheap] at hbroken hgiven'
      exact hbroken.not_backed hgiven'.given hbacked
  have hboot : Inv cfg arch g base env (Machine.boot ram).heap [] :=
    ⟨hwf, hbase.inside, (Nat.zero_mul _).symm, fun k f hf => by simp [frames] at hf, hbehind⟩
  have hnone : Given cfg env [] :=
    ⟨fun c hc => absurd hc List.not_mem_nil, fun c hc => absurd hc List.not_mem_nil, List.Pairwise.nil⟩
  exact always_iff_admits hsafe hkeep hneeds ⟨rfl, hboot, hnone⟩ (admits_of_forall (fun _ _ => trivial) _ _)

end Calls

/-! ### Runs -/

/-- Behind a kernel of 2 MiB. -/
def sampleBase : Nat := 0xffff800000200000

theorem base_sampleBase : Base amd64Cfg sampleBase := ⟨by decide, by decide, by decide⟩

/-- Memory from 1 MiB on, one chunk after the other; `tables` are the pages for tables. -/
def sampleEnv (tables : List (Option Word)) : HeapEnv where
  alloc s trySz :=
    let ptr : OwnedPtr := ⟨(s.chunks.map OwnedPtr.fin).foldl max 0x100000, sizeAlign .size4kiB trySz⟩
    if 4096 ∣ ptr.addr ∧ ptr.fin ≤ 2 ^ 52 then some ptr else none
  tables := unusedTables amd64Cfg ⟨0x1000, true⟩ fun _ => tables
  claim _ := true

theorem le_foldl_max (l : List Nat) (x : Nat) : x ≤ l.foldl max x ∧ ∀ y ∈ l, y ≤ l.foldl max x := by
  induction l generalizing x with
  | nil => exact ⟨le_refl x, fun y hy => absurd hy List.not_mem_nil⟩
  | cons z l ih =>
    obtain ⟨hmax, hrest⟩ := ih (max x z)
    exact ⟨(le_max_left x z).trans hmax, List.forall_mem_cons.mpr ⟨(le_max_right x z).trans hmax, hrest⟩⟩

theorem honest_sampleEnv (tables : List (Option Word)) : Honest amd64Cfg ⟨0x1000, true⟩ (sampleEnv tables) where
  alloc s trySz ptr h := by
    simp only [sampleEnv, Option.ite_none_right_eq_some, Option.some.injEq] at h
    obtain ⟨⟨haddr, hfin⟩, rfl⟩ := h
    refine ⟨rfl, haddr, hfin, fun c hc => Or.inl ?_⟩
    exact (le_foldl_max _ _).2 c.fin (List.mem_map_of_mem hc)
  tables := freshTables_unused _ _ _

theorem walk_zero {cfg : RvmCfg} (root va : Word) : walk cfg (fun _ => 0) root va = none := by
  unfold walk
  cases cfg.depth with
  | zero => exact if_pos BitVec.zero_and
  | succ d =>
    have hedge : edge cfg (fun _ => 0) root (cfg.index (d + 1) va) = none := if_pos BitVec.zero_and
    rw [walkFrom, hedge, Option.bind_none]

/-- A small block and a larger one, for which the memory comes in two chunks. -/
def sampleLayouts : List Layout := [⟨16, 8, by decide⟩, ⟨3000, 8, by decide⟩]

theorem always_backed_sample :
    (run (step amd64Cfg .amd64 .dev ⟨0x1000, true⟩ sampleBase
      (sampleEnv [some 0x2000, some 0x3000, some 0x4000])) (Machine.boot blankRoot) sampleLayouts).heap.size = 0x3000 ∧
    Backed amd64Cfg ⟨0x1000, true⟩ sampleBase (run (step amd64Cfg .amd64 .dev ⟨0x1000, true⟩ sampleBase
      (sampleEnv [some 0x2000, some 0x3000, some 0x4000])) (Machine.boot blankRoot) sampleLayouts) := by
  refine ⟨by decide +kernel, ?_⟩
  apply (@always_backed_iff amd64Cfg .amd64 .dev ⟨0x1000, true⟩ sampleBase
    (sampleEnv [some 0x2000, some 0x3000, some 0x4000]) blankRoot sampleLayouts (honest_sampleEnv _) base_sampleBase
    blankRoot_wellFormed fun va w _ hw => absurd ((walk_zero _ va).symm.trans hw) (by simp)).mpr
  · exact ⟨⟨0x1000, by decide +kernel, by decide +kernel⟩, ⟨0x2000, by decide +kernel, by decide +kernel⟩, trivial⟩
  · exact List.prefix_rfl

/-- There is memory for the heap and none for the tables: the heap grows, and the page is not mapped. -/
theorem backed_fails_no_tables :
    Honest amd64Cfg ⟨0x1000, true⟩ (sampleEnv []) ∧ Base amd64Cfg sampleBase ∧
    WellFormed amd64Cfg blankRoot.mem 0x1000 ∧
    (handleOom amd64Cfg .amd64 .dev ⟨0x1000, true⟩ sampleBase (sampleEnv []) ⟨16, 8, by decide⟩
      (Machine.boot blankRoot).heap).1 = .ok () ∧
    (handleOom amd64Cfg .amd64 .dev ⟨0x1000, true⟩ sampleBase (sampleEnv []) ⟨16, 8, by decide⟩
      (Machine.boot blankRoot).heap).2.size = 0x1000 ∧
    walk amd64Cfg (handleOom amd64Cfg .amd64 .dev ⟨0x1000, true⟩ sampleBase (sampleEnv []) ⟨16, 8, by decide⟩
      (Machine.boot blankRoot).heap).2.ram.mem 0x1000 (BitVec.ofNat 64 sampleBase) = none ∧
    ¬Backed amd64Cfg ⟨0x1000, true⟩ sampleBase
      (step amd64Cfg .amd64 .dev ⟨0x1000, true⟩ sampleBase (sampleEnv []) (Machine.boot blankRoot)
        ⟨16, 8, by decide⟩) := by
  refine ⟨honest_sampleEnv _, base_sampleBase, blankRoot_wellFormed, by decide +kernel, by decide +kernel,
    by decide +kernel, fun hbacked => ?_⟩
  obtain ⟨w, hw, -⟩ := hbacked.mapped (BitVec.ofNat 64 sampleBase) (by unfold InHeap; decide +kernel)
  have hnone : walk amd64Cfg (step amd64Cfg .amd64 .dev ⟨0x1000, true⟩ sampleBase (sampleEnv [])
      (Machine.boot blankRoot) ⟨16, 8, by decide⟩).heap.ram.mem 0x1000 (BitVec.ofNat 64 sampleBase) = none := by
    decide +kernel
  rw [hnone] at hw
  cases hw

end KheapHandler

end UnixKernel
