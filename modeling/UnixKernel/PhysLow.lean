import UnixKernel.PhysBooted
import UnixKernel.PhysFollow

/-! Low memory stays out of the free pool. On a PC, `init` enters the first megabyte as reserved memory, except for
boot-time regions, and no call ever hands it out after that: that is a seal, which `init`, `reclaim`, `alloc` and `free`
keep. A release build has to be kept from computing with sums that leave the word. -/

namespace UnixKernel

open Slots Segments

namespace PhysAlloc

variable {σ : Seal} {o : TableOps}

/-! ### `reclaim` -/

theorem Sealed.reclaimLoop (ho : Keeps σ o) {fuel : Nat} : ∀ {s s' : PhysAlloc}, Sealed σ s →
    reclaimLoop o fuel s = .ok s' → Sealed σ s' := by
  induction fuel with
  | zero =>
      intro s s' _ hrun
      cases hrun
  | succ fuel ih =>
      intro s s' h hrun
      rw [PhysAlloc.reclaimLoop] at hrun
      split at hrun
      · rename_i idx blk hfind
        obtain ⟨hget, -, hty⟩ := find_eq_some hfind
        rw [decide_eq_true_eq] at hty
        obtain ⟨s₁, hadd, hrun⟩ := bind_eq_ok.mp hrun
        have hopen : σ.Open blk.intoOwnedPtr :=
          (h.allows (List.mem_of_getElem? hget)).isOpen (by rw [hty]; decide) (le_refl _) (le_refl _)
        exact ih ((h.invalidate hget).add ho (hopen.allows _ _) hadd) hrun
      · cases hrun
        exact h

end PhysAlloc

/-! ### Start-up -/

namespace Platform

open PhysAlloc

variable {m : Platform} {layout : List RAMDescriptor} {σ : Seal} {o : TableOps} {s s' : PhysAlloc}

theorem addAll_sealed (ho : Keeps σ o) {bs : List RAMBlock} : ∀ {s s' : PhysAlloc}, Sealed σ s →
    (∀ b ∈ bs, σ.Allows b) → addAll o s bs = .ok s' → Sealed σ s' := by
  induction bs with
  | nil =>
      intro s s' h _ hrun
      cases hrun
      exact h
  | cons b bs ih =>
      intro s s' h hbs hrun
      obtain ⟨s₁, hadd, hrest⟩ := addAll_cons_eq_ok.mp hrun
      obtain ⟨hb, hbs⟩ := List.forall_mem_cons.mp hbs
      exact ih (h.add ho hb hadd) hbs hrest

theorem sealed_embedded (hopen : σ.Open m.embeddedPtr) (hshape : σ.shape m.embeddedPtr baseRbSize) :
    Sealed σ m.embedded := by
  have hempty : ∀ x t, t ∉ m.embedded.den x := fun x t => by
    rw [embedded_den]
    exact Multiset.notMem_zero t
  have hshape' : σ.shape m.embedded.ptr m.embedded.max := by
    rw [m.embedded_max]
    exact hshape
  exact ⟨fun x t => (hempty x t).elim, hopen, hshape'⟩

/-- The table that `init` moves has at most doubled, so that its new storage is large enough for half of it. -/
theorem relocate_sealed (ho : Keeps σ o) (hcalm : Calm o) (h : Sealed σ s) (hrun : m.relocate o s = .ok s') :
    Sealed σ s' := by
  rw [relocate] at hrun
  split_ifs at hrun with hptr
  · obtain ⟨⟨r, s₁⟩, halloc, hrun⟩ := bind_eq_ok.mp hrun
    obtain ⟨h₁, hq⟩ := h.alloc ho halloc
    cases r with
    | none => cases hrun
    | some q =>
        cases hrun
        obtain ⟨hopen, hsize, haligned⟩ := hq q rfl
        have hsmall : s.ptr.size < 4096 := by
          rw [hptr]
          exact (by decide : baseRbSize * ramBlockSize < 4096)
        have hbase : s.max = baseRbSize := le_antisymm (σ.le_base h.shape hsmall) (σ.base_le h.shape)
        have hdoubled : s₁.max ≤ 256 := alloc_max_le hcalm hbase halloc
        have hhalf : Nat.max (s₁.max >>> 1) baseRbSize = Nat.max (baseRbSize >>> 1) baseRbSize := by
          rw [Nat.shiftRight_eq_div_pow]
          exact Nat.max_eq_right (by rw [baseRbSize]; omega)
        refine h₁.moved hopen ((page_dvd_size m.pg).trans haligned) ?_
        rw [hhalf, hsize]
        simp only [AllocParams.new, hbase, Nat.mul_comm ramBlockSize]
        exact tableBytes_half_le (le_refl _)
  · cases hrun
    exact h

theorem allocCopy_sealed (ho : Keeps σ o) {size : Nat} {ty : RAMType} {q : OwnedPtr} (h : Sealed σ s)
    (hrun : m.allocCopy o s size ty = .ok (q, s')) : Sealed σ s' := by
  obtain ⟨⟨r, s₁⟩, halloc, hrun⟩ := bind_eq_ok.mp hrun
  have h₁ := (h.alloc ho halloc).1
  cases r with
  | none => cases hrun
  | some q =>
      cases hrun
      exact h₁

/-- `init` keeps a seal that its descriptors and the embedded table respect. -/
theorem init_sealed (ho : Keeps σ o) (hcalm : Calm o) (hembedded : Sealed σ m.embedded) {g g' : Globals}
    (hconv : ∀ b ∈ m.convBlocks g.layout, σ.Allows b) (hother : ∀ b ∈ m.otherBlocks g.layout, σ.Allows b)
    (h : g.phys.isInit = true → Sealed σ g.phys) (hrun : m.init o g = .ok g') : Sealed σ g'.phys := by
  rw [init] at hrun
  split_ifs at hrun with hinit
  · cases hrun
    exact h hinit
  obtain ⟨s₁, h₁, hrun⟩ := bind_eq_ok.mp hrun
  obtain ⟨s₂, h₂, hrun⟩ := bind_eq_ok.mp hrun
  obtain ⟨⟨efiPtr, s₃⟩, h₃, hrun⟩ := bind_eq_ok.mp hrun
  obtain ⟨⟨elfPtr, s₄⟩, h₄, hrun⟩ := bind_eq_ok.mp hrun
  obtain ⟨s₅, h₅, hrun⟩ := bind_eq_ok.mp hrun
  cases hrun
  have hs₂ := relocate_sealed ho hcalm (addAll_sealed ho hembedded hconv h₁) h₂
  have hs₄ := allocCopy_sealed ho (allocCopy_sealed ho hs₂ h₃) h₄
  have hs₅ := addAll_sealed ho hs₄ hother h₅
  exact ⟨hs₅.within, hs₅.storage, hs₅.shape⟩

theorem init_layout_perm {g g' : Globals} (hrun : m.init o g = .ok g') : g'.layout.Perm g.layout := by
  rw [init] at hrun
  split_ifs at hrun
  · cases hrun
    exact List.Perm.refl _
  obtain ⟨s₁, -, hrun⟩ := bind_eq_ok.mp hrun
  obtain ⟨s₂, -, hrun⟩ := bind_eq_ok.mp hrun
  obtain ⟨⟨efiPtr, s₃⟩, -, hrun⟩ := bind_eq_ok.mp hrun
  obtain ⟨⟨elfPtr, s₄⟩, -, hrun⟩ := bind_eq_ok.mp hrun
  obtain ⟨s₅, -, hrun⟩ := bind_eq_ok.mp hrun
  cases hrun
  exact (m.sort.perm _ _).trans (m.sort.perm _ _)

/-! ### Start-up on words -/

/-- The memory map, the copies that are made and the embedded table are small enough for the sums of start-up. -/
structure Small (m : Platform) (layout : List RAMDescriptor) : Prop where
  descs : ∀ d ∈ layout, d.physStart + d.size ≤ 2 ^ 60
  length : layout.length * ramDescriptorSize ≤ 2 ^ 60
  segments : m.segLen * segmentSize ≤ 2 ^ 60
  embedded : m.rbEmbedded + baseRbSize * ramBlockSize ≤ 2 ^ 60

theorem Small.of_perm {layout' : List RAMDescriptor} (h : Small m layout) (hperm : layout'.Perm layout) :
    Small m layout' :=
  ⟨fun d hd => h.descs d (hperm.mem_iff.mp hd), by rw [hperm.length_eq]; exact h.length, h.segments, h.embedded⟩

section Words

open PhysWord

variable {p : Profile} {w : TableOps}

theorem allows_of_le (hrel : p ≠ .dev) {b : RAMBlock} (h : b.fin ≤ 2 ^ 60) : (inWord p).Allows b := by
  intro x hx
  rw [RAMBlock.holds_iff] at hx
  simp only [RAMBlock.fin] at h
  exact ⟨by omega, fun hdev => absurd hdev hrel⟩

theorem Small.sealed_embedded (h : Small m layout) (hrel : p ≠ .dev) : Sealed (inWord p) m.embedded := by
  refine Platform.sealed_embedded (fun x hx ty => ?_) ⟨le_refl _, Or.inl (le_refl _), fun hdev => absurd hdev hrel, ?_,
    Or.inl (le_refl _)⟩
  · exact allows_of_le hrel (b := ⟨m.rbEmbedded, baseRbSize * ramBlockSize, ty, false⟩) h.embedded x hx
  · exact (by decide : 0 < baseRbSize * ramBlockSize)

theorem Small.allows_conv (h : Small m layout) (hrel : p ≠ .dev) : ∀ b ∈ m.convBlocks layout, (inWord p).Allows b := by
  intro b hb
  obtain ⟨d, ⟨hd, -⟩, rfl⟩ := mem_convBlocks.mp hb
  exact allows_of_le hrel (h.descs d hd)

theorem Small.allows_other (h : Small m layout) (hrel : p ≠ .dev) :
    ∀ b ∈ m.otherBlocks layout, (inWord p).Allows b := by
  intro b hb
  obtain ⟨d, ⟨hd, -⟩, rfl⟩ := mem_otherBlocks.mp hb
  exact allows_of_le hrel (h.descs d hd)

theorem fits_new {size : Nat} (h : size ≤ 2 ^ 60) : Fits m.pg (AllocParams.new m.pg size) := by
  have hpage := m.pg.size_le
  refine ⟨?_, fun addr haddr => (by cases haddr)⟩
  have hsize : UnixKernel.sizeAlign m.pg size ≤ 2 ^ 60 + 2 ^ 16 := by
    rw [UnixKernel.sizeAlign]
    split_ifs with hlt
    · exact (nextPowerOfTwo_le h).trans (by omega)
    · have := alignUp_lt size m.pg.size_pos
      omega
  simp only [AllocParams.new]
  omega

variable (how : OpsFollow p (p = .dev) w o) (ho : p ≠ .dev → Keeps (inWord p) o)

include how ho

theorem addDescs_follows {ty : RAMDescriptor → RAMType} {ds : List RAMDescriptor}
    (hs : p ≠ .dev → Sealed (inWord p) s) (hds : p ≠ .dev → ∀ d ∈ ds, d.physStart + d.size ≤ 2 ^ 60) :
    Follows .panic (p = .dev) (addDescs p w ty s ds)
      (addAll o s (ds.map fun d => ⟨d.physStart, d.size, ty d, false⟩)) := by
  induction ds generalizing s with
  | nil => exact .refl _
  | cons d ds ih =>
      have hd := fun hrel => hds hrel d List.mem_cons_self
      have hallows : p ≠ .dev → (inWord p).Allows ⟨d.physStart, d.size, ty d, false⟩ :=
        fun hrel => allows_of_le hrel (hd hrel)
      refine (usize_follows id fun hrel => ?_).step fun _ => ?_
      · have := hd hrel
        change d.size < _
        omega
      refine (add_follows id how ho hs hallows).bind fun s₁ _ hadd => ?_
      exact ih (fun hrel => (hs hrel).add (ho hrel) (hallows hrel) hadd)
        fun hrel d' hd' => hds hrel d' (List.mem_cons_of_mem d hd')

theorem relocate_follows (hs : p ≠ .dev → Sealed (inWord p) s) :
    Follows .panic (p = .dev) (PhysWord.relocate p w m s) (m.relocate o s) := by
  rw [PhysWord.relocate, relocate]
  refine Follows.ite (fun hptr => ?_) fun _ => .refl _
  have hbytes : p ≠ .dev → ramBlockSize * s.max ≤ 2 ^ 60 := fun hrel => by
    have hle := (inWord p).le_base (hs hrel).shape
      (by rw [hptr]; exact (by decide : baseRbSize * ramBlockSize < 4096))
    exact (Nat.mul_le_mul_left ramBlockSize hle).trans (by decide)
  refine (usize_follows id fun hrel => (hbytes hrel).trans_lt (by decide)).step fun _ => ?_
  refine (alloc_follows id how ho hs fun hrel => fits_new (hbytes hrel)).bind fun r _ _ => ?_
  obtain ⟨r, s₁⟩ := r
  cases r with
  | none => exact .refl _
  | some newRb =>
      exact (Follows.ensure fun hrel => ⟨fun hdev => absurd hdev hrel, fun hdev => absurd hdev hrel⟩).step
        fun _ => .refl _

theorem allocCopy_follows {len entry : Nat} {ty : RAMType} (hs : p ≠ .dev → Sealed (inWord p) s)
    (hlen : p ≠ .dev → len * entry ≤ 2 ^ 60) :
    Follows .panic (p = .dev) (PhysWord.allocCopy p w m s len entry ty) (m.allocCopy o s (len * entry) ty) := by
  refine (usize_follows id fun hrel => (hlen hrel).trans_lt (by decide)).step fun _ => ?_
  have hfits : p ≠ .dev → Fits m.pg ((AllocParams.new m.pg (len * entry)).asTy ty) := fun hrel =>
    ⟨(fits_new (m := m) (hlen hrel)).size, fun addr haddr => (by cases haddr)⟩
  refine (alloc_follows id how ho hs hfits).bind fun r _ _ => ?_
  obtain ⟨r, s₁⟩ := r
  cases r <;> exact .refl _

theorem init_follows (hcalm : Calm o) {g : Globals} (hsmall : p ≠ .dev → Small m g.layout) :
    Follows .panic (p = .dev) (PhysWord.init p w m g) (m.init o g) := by
  rw [PhysWord.init, init]
  refine Follows.ite (fun _ => .refl _) fun _ => ?_
  have hperm := m.sort.perm (·.pageCount) g.layout
  have hsort := (m.sort.perm (·.physStart) (m.sort.sortByKey (·.pageCount) g.layout)).trans hperm
  have h₀ := fun hrel => (hsmall hrel).sealed_embedded hrel
  refine (addDescs_follows how ho h₀ fun hrel d hd => ?_).bind fun s₁ _ h₁ => ?_
  · exact (hsmall hrel).descs d (hperm.mem_iff.mp (List.mem_reverse.mp (List.mem_of_mem_filter hd)))
  have hs₁ := fun hrel => addAll_sealed (ho hrel) (h₀ hrel) ((hsmall hrel).allows_conv hrel) h₁
  refine (relocate_follows how ho hs₁).bind fun s₂ _ h₂ => ?_
  have hs₂ := fun hrel => relocate_sealed (ho hrel) hcalm (hs₁ hrel) h₂
  refine (allocCopy_follows how ho hs₂ fun hrel => (hsmall hrel).length).bind fun r₃ _ h₃ => ?_
  obtain ⟨efiPtr, s₃⟩ := r₃
  have hs₃ := fun hrel => allocCopy_sealed (ho hrel) (hs₂ hrel) h₃
  refine (allocCopy_follows how ho hs₃ fun hrel => (hsmall hrel).segments).bind fun r₄ _ h₄ => ?_
  obtain ⟨elfPtr, s₄⟩ := r₄
  have hs₄ := fun hrel => allocCopy_sealed (ho hrel) (hs₃ hrel) h₄
  refine (Follows.ensure fun hrel => ⟨fun hdev => absurd hdev hrel, fun hdev => absurd hdev hrel⟩).step fun _ => ?_
  refine (addDescs_follows how ho hs₄ fun hrel d hd => ?_).bind fun s₅ _ _ => .refl _
  exact (hsmall hrel).descs d (hsort.mem_iff.mp (List.mem_of_mem_filter hd))

end Words

/-! ### Low memory -/

/-- The memory of the descriptors that begin in the first megabyte. -/
def LowRam (layout : List RAMDescriptor) (x : Nat) : Prop :=
  ∃ d ∈ layout, d.physStart < lowMemory ∧ Holds d x

/-- Low memory is reserved. -/
def lowSeal (layout : List RAMDescriptor) : Seal where
  may x ty := LowRam layout x → ty = .reserved
  shape q n := baseRbSize ≤ n ∧ (n ≤ baseRbSize ∨ 4096 ∣ q.addr ∧ 4096 ≤ q.size)
  may_of_ram h hty _ hx := absurd (h hx) hty
  base_le h := h.1
  le_base h hsmall := h.2.resolve_right fun hpage => Nat.not_lt.mpr hpage.2 hsmall
  aligned h hlt := (h.2.resolve_left (Nat.not_le.mpr hlt)).1
  shape_of_table hbase haligned hsize _ :=
    ⟨hbase, Or.inr ⟨haligned, (page_le_tableBytes (Nat.le_max_right _ _)).trans hsize⟩⟩

theorem eq_of_holds (hdisj : DisjointLayout layout) {d e : RAMDescriptor} (hd : d ∈ layout) (he : e ∈ layout)
    {x : Nat} (hdx : Holds d x) (hex : Holds e x) : d = e :=
  (pairwise_disjoint_iff.mp hdisj x).eq_of_holds (Multiset.mem_coe.mpr hd) (Multiset.mem_coe.mpr he) hdx hex

theorem misses_embedded (hdisj : DisjointLayout layout) {d : RAMDescriptor} (hd : d ∈ layout)
    (hhigh : lowMemory ≤ d.physStart) (hlo : d.physStart ≤ m.rbEmbedded)
    (hhi : m.rbEmbedded + baseRbSize * ramBlockSize ≤ d.physStart + d.size) :
    ∀ x, Holds m.embeddedPtr x → ¬LowRam layout x := by
  rintro x hx ⟨e, he, hlow, hex⟩
  have hx' : m.rbEmbedded ≤ x ∧ x < m.rbEmbedded + baseRbSize * ramBlockSize := hx
  obtain rfl := eq_of_holds hdisj hd he (RAMDescriptor.holds_iff.mpr (by omega)) hex
  omega

theorem low_embedded (hrb : ∀ x, Holds m.embeddedPtr x → ¬LowRam layout x) : Sealed (lowSeal layout) m.embedded :=
  sealed_embedded (fun x hx _ hlow => absurd hlow (hrb x hx)) ⟨le_refl _, Or.inl (le_refl _)⟩

theorem low_convBlocks (harch : m.arch = .amd64) (hdisj : DisjointLayout layout) :
    ∀ b ∈ m.convBlocks layout, (lowSeal layout).Allows b := by
  intro b hb
  obtain ⟨d, ⟨hd, -⟩, rfl⟩ := mem_convBlocks.mp hb
  rintro x hdx ⟨e, he, hlow, hex⟩
  obtain rfl := eq_of_holds hdisj hd he hdx hex
  change m.convType d = .reserved
  rw [convType, if_pos harch, if_pos hlow]

theorem low_otherBlocks (harch : m.arch = .amd64) (hdisj : DisjointLayout layout)
    (hboot : ∀ d ∈ layout, d.physStart < lowMemory → reclamable.contains d.ty = false) :
    ∀ b ∈ m.otherBlocks layout, (lowSeal layout).Allows b := by
  intro b hb
  obtain ⟨d, ⟨hd, -⟩, rfl⟩ := mem_otherBlocks.mp hb
  rintro x hdx ⟨e, he, hlow, hex⟩
  obtain rfl := eq_of_holds hdisj hd he hdx hex
  change m.otherType d = .reserved
  rw [otherType, hboot d he hlow, if_pos harch, if_pos hlow]
  rfl

/-- `init` leaves the memory map in another order, which makes no difference. -/
theorem Allows.of_perm {layout' : List RAMDescriptor} (hperm : layout'.Perm layout) {b : RAMBlock}
    (h : (lowSeal layout').Allows b) : (lowSeal layout).Allows b := by
  rintro x hx ⟨d, hd, hlow⟩
  exact h x hx ⟨d, hperm.mem_iff.mpr hd, hlow⟩

end Platform

/-! ### Before start-up -/

namespace PhysWord

variable {p : Profile} {pg : BPage} {args : AllocParams}

theorem find_empty {f : RAMBlock → Except Halt Bool} {r : Option (Nat × RAMBlock)} (h : find p .empty f = .ok r) :
    r = none := by
  obtain ⟨bs, hraw, hfind⟩ := bind_eq_ok.mp h
  obtain ⟨_, -, hbs⟩ := bind_eq_ok.mp hraw
  cases hbs
  cases hfind
  rfl

theorem expand_empty {w : TableOps} {q : OwnedPtr} {r : Option Unit} {s : PhysAlloc}
    (h : expand p w pg .empty 4 q = .ok (r, s)) : r = none ∧ s = .empty := by
  rw [expand, if_neg (by decide)] at h
  obtain ⟨bytes, -, h⟩ := bind_eq_ok.mp h
  obtain ⟨param, -, h⟩ := bind_eq_ok.mp h
  obtain ⟨stop, -, h⟩ := bind_eq_ok.mp h
  obtain ⟨behind, -, h⟩ := bind_eq_ok.mp h
  obtain ⟨found, hfind, h⟩ := bind_eq_ok.mp h
  cases find_empty hfind
  cases h
  exact ⟨rfl, rfl⟩

/-- An allocator that has not been initialised has nothing to hand out. -/
theorem alloc_empty {depth : Nat} {r : Option OwnedPtr} {s : PhysAlloc}
    (h : alloc p (tableOps p pg depth) pg .empty args = .ok (r, s)) : r = none ∧ s = .empty := by
  obtain ⟨built, -, h⟩ := bind_eq_ok.mp h
  split_ifs at h
  · cases h
    exact ⟨rfl, rfl⟩
  obtain ⟨request, -, h⟩ := bind_eq_ok.mp h
  cases request with
  | none =>
      cases h
      exact ⟨rfl, rfl⟩
  | some ptr =>
      obtain ⟨left, hleft, h⟩ := bind_eq_ok.mp h
      obtain ⟨bs, hraw, hbs⟩ := bind_eq_ok.mp hleft
      obtain ⟨_, -, hempty⟩ := bind_eq_ok.mp hraw
      cases hempty
      cases hbs
      rw [if_pos (by decide)] at h
      obtain ⟨newSize, hgrown, h⟩ := bind_eq_ok.mp h
      obtain ⟨⟨r₁, s₁⟩, hexpand, h⟩ := bind_eq_ok.mp h
      have hsize : newSize = 4 := by
        have hfour : grownMax p .empty = .ok 4 := by cases p <;> rfl
        exact Except.ok.inj (hgrown.symm.trans hfour)
      subst hsize
      cases depth with
      | zero => cases hexpand
      | succ depth =>
          obtain ⟨rfl, rfl⟩ := expand_empty hexpand
          cases h
          exact ⟨rfl, rfl⟩

theorem reclaim_empty {w : TableOps} {s : PhysAlloc} (h : reclaim p w .empty = .ok s) : s = .empty := by
  obtain ⟨found, hfind, h⟩ := bind_eq_ok.mp h
  cases find_empty hfind
  cases h
  rfl

end PhysWord

/-! ### Runs -/

open PhysAlloc Platform

/-- A call on the allocator, start-up included. -/
inductive BootCall where
  | init
  | reclaim
  | alloc (args : AllocParams)
  | free (q : OwnedPtr)

/-- The allocator and its surroundings, with every pointer it has handed out so far. -/
structure Machine where
  globals : Globals
  returned : List OwnedPtr

namespace Machine

/-- One call. Only pointers that were handed out are freed; a panic ends the run. -/
def step (p : Profile) (m : Platform) (depth : Nat) (c : Machine) : BootCall → Option Machine
  | .init =>
      match PhysWord.init p (PhysWord.tableOps p m.pg depth) m c.globals with
      | .ok g => some { c with globals := g }
      | .error _ => none
  | .reclaim =>
      match PhysWord.reclaim p (PhysWord.tableOps p m.pg depth) c.globals.phys with
      | .ok s => some { c with globals := { c.globals with phys := s } }
      | .error _ => none
  | .alloc args =>
      match PhysWord.alloc p (PhysWord.tableOps p m.pg depth) m.pg c.globals.phys args with
      | .ok (r, s) => some ⟨{ c.globals with phys := s }, r.toList ++ c.returned⟩
      | .error _ => none
  | .free q =>
      if q ∈ c.returned then
        match PhysWord.free p (PhysWord.tableOps p m.pg depth) c.globals.phys q with
        | .ok s => some { c with globals := { c.globals with phys := s } }
        | .error _ => none
      else none

/-- The calls one after the other; `none` when one of them may not be made or does not return. -/
def run (p : Profile) (m : Platform) (depth : Nat) : Machine → List BootCall → Option Machine
  | c, [] => some c
  | c, call :: calls => (c.step p m depth call).bind fun c' => run p m depth c' calls

/-- Before the first call. -/
def start (layout : List RAMDescriptor) : Machine := ⟨Globals.fresh layout, []⟩

/-- What a release build is spared: sums that leave the word, in start-up and in the requests. -/
structure Fits (m : Platform) (layout : List RAMDescriptor) (calls : List BootCall) : Prop where
  small : Small m layout
  requests : ∀ args, .alloc args ∈ calls → PhysWord.Fits m.pg args

/-- Once there is a table, low memory is reserved, and nothing of it has been handed out. -/
structure KeepsLow (p : Profile) (layout : List RAMDescriptor) (c : Machine) : Prop where
  closed : c.globals.phys = .empty ∧ c.returned = [] ∨
    Sealed (lowSeal layout) c.globals.phys ∧ (p ≠ .dev → Sealed (PhysWord.inWord p) c.globals.phys)
  layout_perm : c.globals.layout.Perm layout
  returned : ∀ q ∈ c.returned, 0 < q.size ∧ (lowSeal layout).Open q ∧ (p ≠ .dev → (PhysWord.inWord p).Open q)

variable {p : Profile} {m : Platform} {layout : List RAMDescriptor} {depth : Nat}

section

variable (harch : m.arch = .amd64) (hdisj : DisjointLayout layout)
  (hboot : ∀ d ∈ layout, d.physStart < lowMemory → reclamable.contains d.ty = false)
  (hrb : ∀ x, Holds m.embeddedPtr x → ¬LowRam layout x)

include harch hdisj hboot hrb

theorem KeepsLow.init {c : Machine} (h : KeepsLow p layout c) (hsmall : p ≠ .dev → Small m layout) {g : Globals}
    (hrun : PhysWord.init p (PhysWord.tableOps p m.pg depth) m c.globals = .ok g) :
    KeepsLow p layout { c with globals := g } := by
  have hpg := m.pg_of_amd64 harch
  have ho : ∀ σ, Keeps σ (tableOps m.pg depth) := fun σ => by
    rw [hpg]
    exact keeps_tableOps σ depth
  have how : PhysWord.OpsFollow p (p = .dev) (PhysWord.tableOps p m.pg depth) (tableOps m.pg depth) := by
    rw [hpg]
    exact PhysWord.tableOps_follow id depth
  have hcalm := calm_tableOps m.pg depth
  have hsmall' := fun hrel => (hsmall hrel).of_perm h.layout_perm
  have hexact := (init_follows how (fun _ => ho _) hcalm hsmall').ok hrun
  have hdisj' : DisjointLayout c.globals.layout := (h.layout_perm.pairwise_iff fun hde x he hd => hde x hd he).mpr hdisj
  have hboot' := fun d (hd : d ∈ c.globals.layout) => hboot d (h.layout_perm.mem_iff.mp hd)
  have hclosed : c.globals.phys.isInit = true → Sealed (lowSeal layout) c.globals.phys ∧
      (p ≠ .dev → Sealed (PhysWord.inWord p) c.globals.phys) := fun hinit => by
    refine h.closed.resolve_left fun hempty => ?_
    rw [hempty.1] at hinit
    cases hinit
  refine ⟨Or.inr ⟨?_, fun hrel => ?_⟩, (init_layout_perm hexact).trans h.layout_perm, h.returned⟩
  · exact init_sealed (ho _) hcalm (low_embedded hrb)
      (fun b hb => Allows.of_perm h.layout_perm (low_convBlocks harch hdisj' b hb))
      (fun b hb => Allows.of_perm h.layout_perm (low_otherBlocks harch hdisj' hboot' b hb))
      (fun hinit => (hclosed hinit).1) hexact
  · exact init_sealed (ho _) hcalm ((hsmall hrel).sealed_embedded hrel) ((hsmall' hrel).allows_conv hrel)
      ((hsmall' hrel).allows_other hrel) (fun hinit => (hclosed hinit).2 hrel) hexact

omit hdisj hboot hrb in
theorem KeepsLow.reclaim {c : Machine} (h : KeepsLow p layout c) {s : PhysAlloc}
    (hrun : PhysWord.reclaim p (PhysWord.tableOps p m.pg depth) c.globals.phys = .ok s) :
    KeepsLow p layout { c with globals := { c.globals with phys := s } } := by
  rw [m.pg_of_amd64 harch] at hrun
  refine ⟨?_, h.layout_perm, h.returned⟩
  rcases h.closed with ⟨hempty, hnone⟩ | ⟨hlow, hword⟩
  · rw [hempty] at hrun
    exact Or.inl ⟨PhysWord.reclaim_empty hrun, hnone⟩
  · have hexact := (PhysWord.reclaim_follows id (PhysWord.tableOps_follow id depth)
      (fun _ => keeps_tableOps _ depth) hword).ok hrun
    exact Or.inr ⟨hlow.reclaimLoop (keeps_tableOps _ depth) hexact,
      fun hrel => (hword hrel).reclaimLoop (keeps_tableOps _ depth) hexact⟩

omit hdisj hboot hrb in
theorem KeepsLow.alloc {c : Machine} (h : KeepsLow p layout c) {args : AllocParams}
    (hargs : p ≠ .dev → PhysWord.Fits m.pg args) {r : Option OwnedPtr} {s : PhysAlloc}
    (hrun : PhysWord.alloc p (PhysWord.tableOps p m.pg depth) m.pg c.globals.phys args = .ok (r, s)) :
    KeepsLow p layout ⟨{ c.globals with phys := s }, r.toList ++ c.returned⟩ := by
  rw [m.pg_of_amd64 harch] at hrun hargs
  rcases h.closed with ⟨hempty, hnone⟩ | ⟨hlow, hword⟩
  · rw [hempty] at hrun
    obtain ⟨rfl, rfl⟩ := PhysWord.alloc_empty hrun
    exact ⟨Or.inl ⟨rfl, hnone⟩, h.layout_perm, h.returned⟩
  · have hexact := (PhysWord.alloc_follows id (PhysWord.tableOps_follow id depth)
      (fun _ => keeps_tableOps _ depth) hword hargs).ok hrun
    obtain ⟨hlow', hq⟩ := hlow.alloc (keeps_tableOps _ depth) hexact
    have hword' := fun hrel => (hword hrel).alloc (keeps_tableOps _ depth) hexact
    refine ⟨Or.inr ⟨hlow', fun hrel => (hword' hrel).1⟩, h.layout_perm, fun q hmem => ?_⟩
    rcases List.mem_append.mp hmem with hnew | hold
    · have hr := Option.mem_toList.mp hnew
      obtain ⟨hopen, hsize, -⟩ := hq q hr
      exact ⟨hsize ▸ sizeAlign_pos _ _, hopen, fun hrel => ((hword' hrel).2 q hr).1⟩
    · exact h.returned q hold

omit hdisj hboot hrb in
theorem KeepsLow.free {c : Machine} (h : KeepsLow p layout c) {q : OwnedPtr} (hmem : q ∈ c.returned) {s : PhysAlloc}
    (hrun : PhysWord.free p (PhysWord.tableOps p m.pg depth) c.globals.phys q = .ok s) :
    KeepsLow p layout { c with globals := { c.globals with phys := s } } := by
  rw [m.pg_of_amd64 harch] at hrun
  obtain ⟨hpos, hopen, hopen'⟩ := h.returned q hmem
  refine ⟨?_, h.layout_perm, h.returned⟩
  rcases h.closed with ⟨-, hnone⟩ | ⟨hlow, hword⟩
  · rw [hnone] at hmem
    cases hmem
  · have hfin := fun hrel => (PhysWord.fin_le_of_open (hopen' hrel) hpos).trans_lt (by decide : 2 ^ 60 < 2 ^ 64)
    have hexact := (PhysWord.free_follows id (PhysWord.tableOps_follow id depth)
      (fun _ => keeps_tableOps _ depth) hword hopen' hfin).ok hrun
    exact Or.inr ⟨hlow.free (keeps_tableOps _ depth) hopen hexact,
      fun hrel => (hword hrel).free (keeps_tableOps _ depth) (hopen' hrel) hexact⟩

theorem KeepsLow.step {c c' : Machine} {call : BootCall} (h : KeepsLow p layout c)
    (hfits : p ≠ .dev → Fits m layout [call]) (hstep : c.step p m depth call = some c') : KeepsLow p layout c' := by
  cases call with
  | init =>
      rw [Machine.step] at hstep
      split at hstep
      · cases hstep
        exact h.init harch hdisj hboot hrb (fun hrel => (hfits hrel).small) (by assumption)
      · cases hstep
  | reclaim =>
      rw [Machine.step] at hstep
      split at hstep
      · cases hstep
        exact h.reclaim harch (by assumption)
      · cases hstep
  | alloc args =>
      rw [Machine.step] at hstep
      split at hstep
      · cases hstep
        exact h.alloc harch (fun hrel => (hfits hrel).requests args List.mem_cons_self) (by assumption)
      · cases hstep
  | free q =>
      rw [Machine.step] at hstep
      split_ifs at hstep with hmem
      split at hstep
      · cases hstep
        exact h.free harch hmem (by assumption)
      · cases hstep

theorem KeepsLow.run {calls : List BootCall} {c c' : Machine} (h : KeepsLow p layout c)
    (hfits : p ≠ .dev → Fits m layout calls) (hrun : c.run p m depth calls = some c') : KeepsLow p layout c' := by
  induction calls generalizing c with
  | nil =>
      cases hrun
      exact h
  | cons call calls ih =>
      rw [Machine.run, Option.bind_eq_some_iff] at hrun
      obtain ⟨c₁, hstep, hrest⟩ := hrun
      refine ih (h.step harch hdisj hboot hrb (fun hrel => ⟨(hfits hrel).small, fun args hargs => ?_⟩) hstep)
        (fun hrel => ⟨(hfits hrel).small, fun args hargs => ?_⟩) hrest
      · exact (hfits hrel).requests args (List.mem_cons.mpr (Or.inl (List.mem_singleton.mp hargs)))
      · exact (hfits hrel).requests args (List.mem_cons_of_mem call hargs)

end

theorem keepsLow_start (p : Profile) (layout : List RAMDescriptor) : KeepsLow p layout (start layout) :=
  ⟨Or.inl ⟨rfl, rfl⟩, List.Perm.refl _, fun q hq => (by cases hq)⟩

/-- On a PC whose memory map has no boot-time region in the first megabyte, no run of calls ever hands
out memory of a descriptor that begins there. -/
theorem run_low {calls : List BootCall} {c : Machine} (harch : m.arch = .amd64) (hdisj : DisjointLayout layout)
    (hboot : ∀ d ∈ layout, d.physStart < lowMemory → reclamable.contains d.ty = false)
    (hrb : ∀ x, Holds m.embeddedPtr x → ¬LowRam layout x) (hfits : p = .release → Fits m layout calls)
    (hrun : run p m depth (start layout) calls = some c) :
    ∀ q ∈ c.returned, ¬LowRam layout q.addr ∧ ∀ x, Holds q x → ¬LowRam layout x := by
  intro q hq
  have hrel : p ≠ .dev → p = .release := by cases p <;> simp
  obtain ⟨hpos, hopen, -⟩ :=
    ((keepsLow_start p layout).run harch hdisj hboot hrb (fun hnot => hfits (hrel hnot)) hrun).returned q hq
  have hmiss : ∀ x, Holds q x → ¬LowRam layout x := fun x hx hlow => RAMType.noConfusion (hopen x hx .conv hlow)
  exact ⟨hmiss _ (OwnedPtr.holds_iff.mpr (by omega)), hmiss⟩

/-- A memory map with a region `ty` in the first megabyte. -/
def lowRegion (ty : RAMType) : List RAMDescriptor :=
  [⟨ty, 0x1000, 16⟩, ⟨.conv, 0x100000, 8⟩, ⟨.loaderCode, 0x800000, 2⟩]

/-- The memory that ACPI tables occupy in the first megabyte stays out of the pool. -/
theorem run_low_acpi : ∃ c, run .release pc 2 (start (lowRegion .acpiReclaim))
      [.init, .reclaim, .alloc (AllocParams.new .size4kiB 0x2000)] = some c ∧
    c.returned = [⟨0x103000, 0x2000⟩] ∧ ¬LowRam (lowRegion .acpiReclaim) 0x103000 := by
  have hreturned : ((run .release pc 2 (start (lowRegion .acpiReclaim))
      [.init, .reclaim, .alloc (AllocParams.new .size4kiB 0x2000)]).map returned) =
        some [⟨0x103000, 0x2000⟩] := by decide +kernel
  obtain ⟨c, hrun, hreturned⟩ := Option.map_eq_some_iff.mp hreturned
  have hrb : ∀ x, Holds pc.embeddedPtr x → ¬LowRam (lowRegion .acpiReclaim) x :=
    misses_embedded (by decide) (d := ⟨.loaderCode, 0x800000, 2⟩) (by decide) (by decide) (by decide) (by decide)
  have hfits : Fits pc (lowRegion .acpiReclaim)
      [.init, .reclaim, .alloc (AllocParams.new .size4kiB 0x2000)] := by
    refine ⟨⟨by decide, by decide, by decide, by decide⟩, fun args hargs => ?_⟩
    simp only [List.mem_cons, List.not_mem_nil, or_false, reduceCtorEq, false_or, BootCall.alloc.injEq] at hargs
    subst hargs
    exact fits_new (by decide)
  exact ⟨c, hrun, hreturned, (run_low rfl (by decide) (by decide) hrb (fun _ => hfits) hrun ⟨0x103000, 0x2000⟩
    (by rw [hreturned]; exact List.mem_singleton_self _)).1⟩

/-- A boot-time region in the first megabyte is entered as reclaimable, `reclaim` makes it free memory,
and the next request is served from it. A request for almost the whole address space, whose end wraps around in a
release build, does the same without such a region: what is left behind the range that is handed out starts where the
sum has wrapped to. -/
theorem run_low_reclaimed : DisjointLayout (lowRegion .loaderData) ∧
    (∀ p, ∃ c, run p pc 2 (start (lowRegion .loaderData))
        [.init, .reclaim, .alloc (AllocParams.new .size4kiB 0x8000)] = some c ∧
      ∃ q ∈ c.returned, LowRam (lowRegion .loaderData) q.addr) ∧
    ∃ c, run .release pc 2 (start (lowRegion .acpiReclaim)) [.init, .reclaim,
        .alloc (AllocParams.new .size4kiB (2 ^ 64 - 0x101000)), .alloc (AllocParams.new .size4kiB 0x8000)] = some c ∧
      ∃ q ∈ c.returned, LowRam (lowRegion .acpiReclaim) q.addr := by
  have hlow : ∀ ty, LowRam (lowRegion ty) 0x1000 := fun ty =>
    ⟨⟨ty, 0x1000, 16⟩, List.mem_cons_self, (by decide : 0x1000 < lowMemory),
      (by decide : 0x1000 ≤ 0x1000 ∧ 0x1000 < 0x1000 + 16 * page4kiB)⟩
  refine ⟨by decide, fun p => ?_, ?_⟩
  · have hreturned : ((run p pc 2 (start (lowRegion .loaderData))
        [.init, .reclaim, .alloc (AllocParams.new .size4kiB 0x8000)]).map returned) =
          some [⟨0x1000, 0x8000⟩] := by cases p <;> decide +kernel
    obtain ⟨c, hrun, hreturned⟩ := Option.map_eq_some_iff.mp hreturned
    exact ⟨c, hrun, ⟨0x1000, 0x8000⟩, by rw [hreturned]; exact List.mem_singleton_self _, hlow _⟩
  · have hreturned : ((run .release pc 2 (start (lowRegion .acpiReclaim)) [.init, .reclaim,
        .alloc (AllocParams.new .size4kiB (2 ^ 64 - 0x101000)),
        .alloc (AllocParams.new .size4kiB 0x8000)]).map returned) =
          some [⟨0x1000, 0x8000⟩, ⟨0x102000, 2 ^ 64 - 0x101000⟩] := by decide +kernel
    obtain ⟨c, hrun, hreturned⟩ := Option.map_eq_some_iff.mp hreturned
    exact ⟨c, hrun, ⟨0x1000, 0x8000⟩, by rw [hreturned]; exact List.mem_cons_self, hlow _⟩

end Machine

end UnixKernel
