import Mathlib.Data.List.Sort
import UnixKernel.PhysInit

/-! What `init` leaves behind, in terms of the memory map of the firmware: the storage of the table is
allocated and large enough, and the address map of the allocator is the memory map, except for the table
and the two copies. -/

namespace UnixKernel

open Slots Segments PhysAlloc

/-! ### The memory map of the firmware -/

instance : Ranged RAMDescriptor RAMType := ⟨RAMDescriptor.physStart, fun d => d.physStart + d.size, RAMDescriptor.ty⟩

theorem RAMDescriptor.holds_iff {d : RAMDescriptor} {x : Nat} :
    Holds d x ↔ d.physStart ≤ x ∧ x < d.physStart + d.size := Iff.rfl

/-- The descriptors of a memory map do not overlap. -/
def DisjointLayout (layout : List RAMDescriptor) : Prop :=
  layout.Pairwise fun d e => ∀ x, Holds d x → ¬Holds e x

instance (layout : List RAMDescriptor) : Decidable (DisjointLayout layout) :=
  inferInstanceAs (Decidable (layout.Pairwise _))

namespace Platform

variable (p : Platform)

theorem convBlocks_coe (layout : List RAMDescriptor) : (p.convBlocks layout : Multiset RAMBlock) =
    ((layout : Multiset RAMDescriptor).filter fun d => d.ty = .conv).map p.convBlock := by
  rw [convBlocks, ← Multiset.map_coe, ← Multiset.filter_coe,
    Multiset.coe_eq_coe.mpr ((List.reverse_perm _).trans (p.sort.perm _ _))]

theorem otherBlocks_coe (layout : List RAMDescriptor) : (p.otherBlocks layout : Multiset RAMBlock) =
    ((layout : Multiset RAMDescriptor).filter fun d => ¬d.ty = .conv).map p.otherBlock := by
  rw [otherBlocks, ← Multiset.map_coe, ← Multiset.filter_coe,
    Multiset.coe_eq_coe.mpr ((p.sort.perm _ _).trans (p.sort.perm _ _))]

/-- The tags of the first pass. -/
def convDen (layout : List RAMDescriptor) (x : Nat) : Multiset Tag :=
  Segments.den (p.convBlocks layout : Multiset RAMBlock) x

/-- The tags of the second pass. -/
def otherDen (layout : List RAMDescriptor) (x : Nat) : Multiset Tag :=
  Segments.den (p.otherBlocks layout : Multiset RAMBlock) x

variable {p} {layout : List RAMDescriptor} {x : Nat} {b : RAMBlock}

theorem mem_convBlocks : b ∈ p.convBlocks layout ↔ ∃ d, (d ∈ layout ∧ d.ty = .conv) ∧ p.convBlock d = b := by
  rw [← Multiset.mem_coe, convBlocks_coe]
  simp only [Multiset.mem_map, Multiset.mem_filter, Multiset.mem_coe]

theorem mem_otherBlocks : b ∈ p.otherBlocks layout ↔ ∃ d, (d ∈ layout ∧ ¬d.ty = .conv) ∧ p.otherBlock d = b := by
  rw [← Multiset.mem_coe, otherBlocks_coe]
  simp only [Multiset.mem_map, Multiset.mem_filter, Multiset.mem_coe]

theorem mem_den_map {P : RAMDescriptor → Prop} [DecidablePred P] {f : RAMDescriptor → RAMBlock} {t : Tag} :
    t ∈ Segments.den (((layout : Multiset RAMDescriptor).filter P).map f) x ↔
      ∃ d ∈ layout, P d ∧ Holds (f d) x ∧ t = ((f d).ty, (f d).used) := by
  simp only [mem_den, Multiset.mem_map, Multiset.mem_filter, Multiset.mem_coe]
  constructor
  · rintro ⟨b, ⟨d, ⟨hd, hP⟩, rfl⟩, hx, rfl⟩
    exact ⟨d, hd, hP, hx, rfl⟩
  · rintro ⟨d, hd, hP, hx, rfl⟩
    exact ⟨f d, ⟨d, ⟨hd, hP⟩, rfl⟩, hx, rfl⟩

theorem mem_convDen {t : Tag} : t ∈ p.convDen layout x ↔
    ∃ d ∈ layout, d.ty = .conv ∧ Holds d x ∧ t = (p.convType d, false) := by
  rw [convDen, convBlocks_coe]
  exact mem_den_map (P := fun d => d.ty = .conv)

theorem mem_otherDen {t : Tag} : t ∈ p.otherDen layout x ↔
    ∃ d ∈ layout, d.ty ≠ .conv ∧ Holds d x ∧ t = (p.otherType d, false) := by
  rw [otherDen, otherBlocks_coe]
  exact mem_den_map (P := fun d => ¬d.ty = .conv)

theorem card_convDen_add_otherDen (h : DisjointLayout layout) (x : Nat) :
    (p.convDen layout x).card + (p.otherDen layout x).card ≤ 1 := by
  have hsole := pairwise_disjoint_iff.mp h x
  rw [Segments.Sole, ← Multiset.filter_add_not (fun d : RAMDescriptor => d.ty = .conv)
    (layout : Multiset RAMDescriptor), den_add, Multiset.card_add] at hsole
  rw [convDen, otherDen, convBlocks_coe, otherBlocks_coe, card_den_map (f := p.convBlock) (fun _ _ => Iff.rfl),
    card_den_map (f := p.otherBlock) (fun _ _ => Iff.rfl)]
  exact hsole

theorem convType_eq {d : RAMDescriptor} (hty : d.ty = .conv) :
    p.convType d = .conv ∨ p.arch = .amd64 ∧ p.convType d = .reserved := by
  rw [convType]
  split_ifs with harch hlow
  · exact Or.inr ⟨harch, rfl⟩
  · exact Or.inl hty
  · exact Or.inl hty

theorem otherType_ne {d : RAMDescriptor} (hty : d.ty ≠ .conv) : p.otherType d ≠ .conv := by
  simp only [otherType]
  split_ifs
  · decide
  · decide
  · exact hty
  · exact hty

theorem convDen_snd {t : Tag} (h : t ∈ p.convDen layout x) : t.2 = false := by
  obtain ⟨d, -, -, -, rfl⟩ := mem_convDen.mp h
  rfl

theorem otherDen_ne_conv {t : Tag} (h : t ∈ p.otherDen layout x) : t.1 ≠ .conv := by
  obtain ⟨d, -, hty, -, rfl⟩ := mem_otherDen.mp h
  exact otherType_ne hty

theorem eq_singleton_of_mem {m m' : Multiset Tag} {t : Tag} (ht : t ∈ m) (h : m.card + m'.card ≤ 1) :
    m = {t} ∧ m' = 0 := by
  have hpos := Multiset.card_pos_iff_exists_mem.mpr ⟨t, ht⟩
  obtain ⟨t', rfl⟩ := Multiset.card_eq_one.mp (by omega : m.card = 1)
  obtain rfl := Multiset.mem_singleton.mp ht
  exact ⟨rfl, Multiset.card_eq_zero.mp (by omega)⟩

theorem passes_other {d : RAMDescriptor} (hdisj : DisjointLayout layout) (hd : d ∈ layout)
    (hty : d.ty ≠ .conv) (hx : Holds d x) :
    p.convDen layout x = 0 ∧ p.otherDen layout x = {(p.otherType d, false)} := by
  have hcard := card_convDen_add_otherDen (p := p) hdisj x
  rw [add_comm] at hcard
  exact (eq_singleton_of_mem (mem_otherDen.mpr ⟨d, hd, hty, hx, rfl⟩) hcard).symm

theorem passes_conv {d : RAMDescriptor} (hdisj : DisjointLayout layout) (hd : d ∈ layout)
    (hty : d.ty = .conv) (hx : Holds d x) :
    p.convDen layout x = {(p.convType d, false)} ∧ p.otherDen layout x = 0 := by
  exact eq_singleton_of_mem (mem_convDen.mpr ⟨d, hd, hty, hx, rfl⟩) (card_convDen_add_otherDen hdisj x)

theorem length_convBlocks (layout : List RAMDescriptor) :
    (p.convBlocks layout).length = layout.countP fun d => d.ty = .conv := by
  rw [convBlocks, List.length_map, ← List.countP_eq_length_filter]
  exact ((List.reverse_perm _).trans (p.sort.perm _ _)).countP_eq _

theorem length_otherBlocks (layout : List RAMDescriptor) :
    (p.otherBlocks layout).length = layout.countP fun d => d.ty ≠ .conv := by
  rw [otherBlocks, List.length_map, ← List.countP_eq_length_filter]
  exact ((p.sort.perm _ _).trans (p.sort.perm _ _)).countP_eq _

/-- The blocks of the second pass come in address order and join nothing in front of them. -/
theorem quiet_otherBlocks (h : DisjointLayout layout) {V : Nat → Multiset Tag}
    (hview : ∀ x, ∀ t ∈ V x, t.1 = .conv ∨ t.2 = true) : Quiet V (p.otherBlocks layout) := by
  refine quiet_of_ascending ?_ fun b hb _ => ?_
  · have hperm : (p.sort.sortByKey (·.physStart) (p.sort.sortByKey (·.pageCount) layout)).Perm layout :=
      (p.sort.perm _ _).trans (p.sort.perm _ _)
    have hdisj := (hperm.pairwise_iff fun hde x he hd => hde x hd he).mpr h
    refine List.pairwise_map.mpr (List.Pairwise.filter _ ?_)
    refine ((p.sort.sorted (·.physStart) _).and hdisj).imp ?_
    rintro d e ⟨hle, hde⟩ hd he
    change 0 < d.size at hd
    change 0 < e.size at he
    change d.physStart + d.size ≤ e.physStart
    by_contra hlt
    exact hde e.physStart (RAMDescriptor.holds_iff.mpr (by omega)) (RAMDescriptor.holds_iff.mpr (by omega))
  · obtain ⟨d, hd, rfl⟩ := List.mem_map.mp hb
    have hty : d.ty ≠ .conv := by simpa using (List.mem_filter.mp hd).2
    refine ⟨rfl, fun x _ hmem => ?_⟩
    rcases hview x _ hmem with hconv | hused
    · exact otherType_ne hty hconv
    · cases hused

/-! ### The result of `init` -/

/-- The map `base` with the two copies that `init` makes. -/
def withCopies (g : Globals) (base : Nat → Multiset Tag) (x : Nat) : Multiset Tag :=
  if Holds g.segPtr x then {(.elfSegments, true)}
  else if Holds g.layoutPtr x then {(.efiRamLayout, true)} else base x

/-- The state after `init`, when `base` is the map of the memory that the first pass has freed. -/
structure Booted (p : Platform) (layout : List RAMDescriptor) (base : Nat → Multiset Tag) (g : Globals) :
    Prop where
  tableOk : TableOk p.pg g.phys
  isInit_eq : g.phys.isInit = true
  layout_free : ∀ x, Holds g.layoutPtr x → base x = {(.conv, false)}
  seg_free : ∀ x, Holds g.segPtr x → base x = {(.conv, false)} ∧ ¬Holds g.layoutPtr x
  view_eq : ∀ x, g.phys.view x = withCopies g base x + p.otherDen layout x

theorem init_eq_ok {o : TableOps} {g : Globals} (h : p.init o (Globals.fresh layout) = .ok g) :
    ∃ s₁ s₂ s₃ s₄ s₅, addAll o p.embedded (p.convBlocks layout) = .ok s₁ ∧ p.relocate o s₁ = .ok s₂ ∧
      p.allocCopy o s₂ (layout.length * ramDescriptorSize) .efiRamLayout = .ok (g.layoutPtr, s₃) ∧
      p.allocCopy o s₃ (p.segLen * segmentSize) .elfSegments = .ok (g.segPtr, s₄) ∧
      addAll o s₄ (p.otherBlocks layout) = .ok s₅ ∧ g.phys = { s₅ with isInit := true } := by
  rw [init, if_neg (by simp [Globals.fresh, PhysAlloc.empty])] at h
  obtain ⟨s₁, h₁, h⟩ := bind_eq_ok.mp h
  obtain ⟨s₂, h₂, h⟩ := bind_eq_ok.mp h
  obtain ⟨⟨efiPtr, s₃⟩, h₃, h⟩ := bind_eq_ok.mp h
  obtain ⟨⟨elfPtr, s₄⟩, h₄, h⟩ := bind_eq_ok.mp h
  obtain ⟨s₅, h₅, h⟩ := bind_eq_ok.mp h
  cases h
  exact ⟨s₁, s₂, s₃, s₄, s₅, h₁, h₂, h₃, h₄, h₅, rfl⟩

theorem card_withCopies {g : Globals} {base : Nat → Multiset Tag}
    (hlayout : ∀ x, Holds g.layoutPtr x → base x = {(.conv, false)})
    (hseg : ∀ x, Holds g.segPtr x → base x = {(.conv, false)}) (x : Nat) :
    (withCopies g base x).card = (base x).card := by
  rw [withCopies]
  split_ifs with hs hl
  · rw [hseg x hs, Multiset.card_singleton, Multiset.card_singleton]
  · rw [hlayout x hl, Multiset.card_singleton, Multiset.card_singleton]
  · rfl

theorem roomy_withCopies {g : Globals} {base rest : Nat → Multiset Tag} {pg : BPage}
    (hlayout : ∀ x, Holds g.layoutPtr x → base x = {(.conv, false)})
    (hseg : ∀ x, Holds g.segPtr x → base x = {(.conv, false)})
    (h : Roomy pg fun x => base x + rest x) : Roomy pg fun x => withCopies g base x + rest x := by
  have hmem : ∀ x, (RAMType.conv, false) ∈ withCopies g base x → (RAMType.conv, false) ∈ base x := by
    intro x hx
    rw [withCopies] at hx
    split_ifs at hx
    · simp at hx
    · simp at hx
    · exact hx
  intro q haligned hsize hfree x hx
  have hle := h q haligned hsize (fun y hy => by
    have := hfree y hy
    rw [Multiset.mem_add] at this ⊢
    exact this.imp_left (hmem y)) x hx
  rw [Multiset.card_add] at hle ⊢
  rw [card_withCopies hlayout hseg]
  exact hle

/-- From the moved table on: the copies, the second pass and the flag. -/
theorem booted_of_relocated {n : Nat} {base : Nat → Multiset Tag} {g : Globals} {s₂ s₃ s₄ s₅ : PhysAlloc}
    {layoutSize segSize : Nat} (hdisj : DisjointLayout layout) (hbase : ∀ x, (base x).card ≤ 1)
    (hunused : ∀ x, ∀ t ∈ base x, t.2 = false)
    (hquiet : p.pg = .size4kiB ∨ ∀ x, ∀ t ∈ base x, t.1 = .conv)
    (hroomy : Roomy p.pg fun x => base x + p.otherDen layout x) (hok : TableOk p.pg s₂)
    (hwhole : Whole p.pg s₂) (hview : ∀ x, s₂.view x = base x)
    (hefi : p.allocCopy (tableOps p.pg (n + 2)) s₂ layoutSize .efiRamLayout = .ok (g.layoutPtr, s₃))
    (helf : p.allocCopy (tableOps p.pg (n + 2)) s₃ segSize .elfSegments = .ok (g.segPtr, s₄))
    (hothers : addAll (tableOps p.pg (n + 2)) s₄ (p.otherBlocks layout) = .ok s₅)
    (hphys : g.phys = { s₅ with isInit := true }) : Booted p layout base g := by
  have hnot : ∀ {ty : RAMType} (x : Nat), (ty, true) ∉ base x := fun x h => (by cases hunused x _ h)
  obtain ⟨hok₃, hwhole₃, hfree₃, hview₃, -⟩ := p.allocCopy_spec hok hwhole (fun x => by
    rw [hview]; exact hbase x) (by decide) (fun x => by rw [hview]; exact hnot x) hefi
  simp only [hview] at hfree₃ hview₃
  obtain ⟨hok₄, hwhole₄, hfree₄, hview₄, -⟩ := p.allocCopy_spec hok₃ hwhole₃ (fun x => by
    rw [hview₃]
    split_ifs
    · exact (Multiset.card_singleton _).le
    · exact hbase x) (by decide) (fun x => by
    rw [hview₃]
    split_ifs
    · simp
    · exact hnot x) helf
  have hcopies : ∀ x, s₄.view x = withCopies g base x := fun x => by rw [hview₄, hview₃]; rfl
  have hseg : ∀ x, Holds g.segPtr x → base x = {(.conv, false)} ∧ ¬Holds g.layoutPtr x := by
    intro x hx
    have hconv := hfree₄ x hx
    rw [hview₃] at hconv
    split_ifs at hconv with hl
    · simp at hconv
    · exact ⟨hconv, hl⟩
  have hquiet₄ : p.pg = .size4kiB ∨ Quiet s₄.view (p.otherBlocks layout) := by
    refine hquiet.imp_right fun hconv => quiet_otherBlocks hdisj fun x t ht => ?_
    rw [hcopies, withCopies] at ht
    split_ifs at ht
    · rw [Multiset.mem_singleton.mp ht]
      exact Or.inr rfl
    · rw [Multiset.mem_singleton.mp ht]
      exact Or.inr rfl
    · exact Or.inl (hconv x t ht)
  obtain ⟨hok₅, -, hview₅, -⟩ := addAll_full (roomy_withCopies hfree₃ (fun x hx => (hseg x hx).1) hroomy) hok₄
    hwhole₄ (fun x => by rw [hcopies]; rfl) hquiet₄ hothers
  refine ⟨?_, ?_, hfree₃, hseg, fun x => ?_⟩
  · rw [hphys]
    exact ⟨⟨hok₅.max_pow, hok₅.aligned, hok₅.size_eq⟩, hok₅.used⟩
  · rw [hphys]
  · rw [hphys]
    exact hview₅ x

/-- Entered by falling page count, the conventional memory at no time makes more regions than the embedded
table has slots. -/
def EmbeddedFits (p : Platform) (layout : List RAMDescriptor) : Prop :=
  ∀ k ≤ (p.convBlocks layout).length, regions ((p.convBlocks layout).take k) ≤ baseRbSize

/-- The embedded table is enough for the first pass, with four slots to spare. -/
def EmbeddedSpare (p : Platform) (layout : List RAMDescriptor) : Prop :=
  p.EmbeddedFits layout ∧ regions (p.convBlocks layout) + minReq ≤ baseRbSize

/-- The embedded table is enough for the first pass, but less than four slots are left. -/
def Crowded (p : Platform) (layout : List RAMDescriptor) : Prop :=
  p.EmbeddedFits layout ∧ baseRbSize < regions (p.convBlocks layout) + minReq

/-- Up to 124 conventional descriptors leave four slots, whatever they are like. -/
theorem embeddedSpare_of_few (p : Platform) (h : (layout.countP fun d => d.ty = .conv) + minReq ≤ baseRbSize) :
    p.EmbeddedSpare layout := by
  rw [← length_convBlocks (p := p)] at h
  refine ⟨fun k _ => ?_, (Nat.add_le_add_right (regions_le_length _) _).trans h⟩
  exact ((regions_le_length _).trans (List.length_take_le' k _)).trans (Nat.le_of_add_right_le h)

theorem convDen_quiet : p.pg = .size4kiB ∨ ∀ x, ∀ t ∈ p.convDen layout x, t.1 = .conv := by
  cases harch : p.arch with
  | amd64 => exact Or.inl (p.pg_of_amd64 harch)
  | aarch64 =>
      refine Or.inr fun x t ht => ?_
      obtain ⟨d, -, hty, -, rfl⟩ := mem_convDen.mp ht
      rcases convType_eq (p := p) hty with hconv | ⟨hamd, -⟩
      · exact hconv
      · rw [harch] at hamd
        cases hamd

theorem card_convDen (h : DisjointLayout layout) (x : Nat) : (p.convDen layout x).card ≤ 1 := by
  have := card_convDen_add_otherDen (p := p) h x
  omega

theorem embeddedFits_iff (hdisj : DisjointLayout layout) :
    p.EmbeddedFits layout ↔ ∃ s, addAll still p.embedded (p.convBlocks layout) = .ok s := by
  have hiff := @addAll_still_iff (p.convBlocks layout) _ [] p.embedded_coalesced
    (fun x => (p.embedded_den x).symm) (card_convDen (p := p) hdisj)
  rw [p.embedded_max] at hiff
  exact hiff.symm

theorem addAll_convBlocks (hdisj : DisjointLayout layout) (hfits : p.EmbeddedFits layout) :
    ∃ s, s.ptr = p.embeddedPtr ∧ s.max = baseRbSize ∧ s.count = regions (p.convBlocks layout) ∧
      (∀ x, s.den x = p.convDen layout x) ∧
      ∀ n, addAll (tableOps p.pg (n + 1)) p.embedded (p.convBlocks layout) = .ok s := by
  obtain ⟨s, hrun⟩ := (embeddedFits_iff hdisj).mp hfits
  obtain ⟨hsame, hden, hco, hreal⟩ := addAll_still p.pg p.embedded_max hrun
  have hden' : ∀ x, s.den x = p.convDen layout x := fun x => by
    rw [hden, p.embedded_den, zero_add]
    rfl
  refine ⟨s, hsame.ptr_eq, hsame.max_eq.trans p.embedded_max, ?_, hden', hreal⟩
  refine (regions_eq_count (hco p.embedded_coalesced) (fun x => ?_) fun x => (hden' x).symm).symm
  rw [PhysAlloc.Sole, hden']
  exact card_convDen hdisj x

/-- `init` when the embedded table is not outgrown: the table moves once. -/
theorem booted_of_spare {n : Nat} {g : Globals} (hdisj : DisjointLayout layout)
    (hspare : p.EmbeddedSpare layout)
    (hinit : p.init (tableOps p.pg (n + 2)) (Globals.fresh layout) = .ok g) :
    Booted p layout (p.convDen layout) g := by
  obtain ⟨s₁, s₂, s₃, s₄, s₅, hconv, hmove, hefi, helf, hothers, hphys⟩ := init_eq_ok hinit
  obtain ⟨s, hptr, hmax, hcount, hden, hreal⟩ := addAll_convBlocks hdisj hspare.1
  rw [hreal (n + 1)] at hconv
  cases hconv
  obtain ⟨hok, hwhole, hview, -⟩ := p.relocate_embedded hptr hmax (by rw [hcount, hmax]; exact hspare.2)
    (fun x => by rw [PhysAlloc.Sole, hden]; exact card_convDen hdisj x)
    (fun x h => by rw [hden] at h; cases convDen_snd h) hmove
  refine booted_of_relocated hdisj (card_convDen hdisj) (fun x t => convDen_snd) convDen_quiet
    (roomy_of_card_le_one fun x => ?_) hok hwhole (fun x => by rw [hview, hden]) hefi helf hothers hphys
  rw [Multiset.card_add]
  exact card_convDen_add_otherDen hdisj x

/-- The embedded array lies in a descriptor that is not conventional memory. -/
def Hosted (p : Platform) (layout : List RAMDescriptor) : Prop :=
  ∃ d ∈ layout, d.ty ≠ .conv ∧ d.physStart ≤ p.rbEmbedded ∧
    p.rbEmbedded + baseRbSize * ramBlockSize ≤ d.physStart + d.size

/-- The array is smaller than a page, and what surrounds it in its page is not conventional memory: no
table fits over it. -/
theorem roomy_hosted (hdisj : DisjointLayout layout) (haligned : ∀ d ∈ layout, page4kiB ∣ d.physStart)
    (hhost : p.Hosted layout) :
    Roomy p.pg fun x => part p.embeddedBlock x + p.convDen layout x + p.otherDen layout x := by
  obtain ⟨d, hd, hty, hlo, hhi⟩ := hhost
  rintro q hq ⟨k, hk⟩ hfree x hx
  have hsum := card_convDen_add_otherDen (p := p) hdisj x
  by_cases hrb : Holds p.embeddedBlock x
  · exfalso
    obtain ⟨a, ha⟩ := (page_dvd_size p.pg).trans hq
    obtain ⟨b, hb⟩ : 4096 ∣ tableBytes p.pg (baseRbSize * 2 ^ k) := dvd_tableBytes (base_le_mul_pow k)
    obtain ⟨c, hc⟩ := haligned d hd
    have hbytes : baseRbSize * ramBlockSize = 3072 := rfl
    have hsize : d.size = d.pageCount * 4096 := rfl
    replace hc : d.physStart = 4096 * c := hc
    rw [OwnedPtr.holds_iff] at hx
    have hrb' : p.rbEmbedded ≤ x ∧ x < p.rbEmbedded + 3072 := hrb
    -- every byte of the page of `x` is in `q` and in `d`, hence in the array
    have hall : ∀ y, x / 4096 * 4096 ≤ y → y < x / 4096 * 4096 + 4096 → Holds p.embeddedBlock y := by
      intro y hy hy'
      have hyd : Holds d y := RAMDescriptor.holds_iff.mpr (by omega)
      have hyq : Holds q y := OwnedPtr.holds_iff.mpr (by omega)
      have hmem : _ ∈ part p.embeddedBlock y + p.convDen layout y + p.otherDen layout y := hfree y hyq
      rw [(passes_other hdisj hd hty hyd).1, add_zero, Multiset.mem_add] at hmem
      rcases hmem with hpart | hother
      · by_contra hno
        rw [part_neg hno] at hpart
        cases hpart
      · exact absurd rfl (otherDen_ne_conv hother)
    have hfirst : p.rbEmbedded ≤ x / 4096 * 4096 := (hall _ (le_refl _) (by omega)).1
    have hlast : x / 4096 * 4096 + 4095 < p.rbEmbedded + 3072 := (hall _ (by omega) (by omega)).2
    omega
  · change (part p.embeddedBlock x + p.convDen layout x + p.otherDen layout x).card ≤ 1
    rw [part_neg hrb, zero_add, Multiset.card_add]
    exact hsum

theorem card_hosted (hdisj : DisjointLayout layout) (hhost : p.Hosted layout) (x : Nat) :
    (part p.embeddedBlock x + p.convDen layout x).card ≤ 1 := by
  by_cases hx : Holds p.embeddedBlock x
  · obtain ⟨d, hd, hty, hlo, hhi⟩ := hhost
    have hx' : p.rbEmbedded ≤ x ∧ x < p.rbEmbedded + baseRbSize * ramBlockSize := hx
    rw [(passes_other hdisj hd hty (RAMDescriptor.holds_iff.mpr (by omega))).1, add_zero, part_pos hx]
    rfl
  · rw [part_neg hx, zero_add]
    exact card_convDen hdisj x

/-- No conventional descriptor starts where another one ends. -/
def Untouched (layout : List RAMDescriptor) : Prop :=
  ∀ d ∈ layout, ∀ e ∈ layout, d.ty = .conv → e.ty = .conv → 0 < d.size → 0 < e.size →
    d.physStart + d.size ≠ e.physStart

theorem eq_embeddedBlock_or {t : Tag} (h : t ∈ part p.embeddedBlock x + p.convDen layout x) :
    Holds p.embeddedBlock x ∧ t = (.conv, false) ∨ t ∈ p.convDen layout x := by
  rcases Multiset.mem_add.mp h with hpart | hmem
  · by_cases hx : Holds p.embeddedBlock x
    · rw [part_pos hx, Multiset.mem_singleton] at hpart
      exact Or.inl ⟨hx, hpart⟩
    · rw [part_neg hx] at hpart
      cases hpart
  · exact Or.inr hmem

/-- The array is smaller than any descriptor, so it cannot be on both sides of one. -/
theorem not_between (hdisj : DisjointLayout layout) (h : Untouched layout) {b : RAMBlock}
    (hb : b ∈ p.convBlocks layout) (hpos : 0 < b.size) :
    b.used = false ∧ ¬(0 < b.addr ∧
      (b.ty, b.used) ∈ part p.embeddedBlock (b.addr - 1) + p.convDen layout (b.addr - 1) ∧
      (b.ty, b.used) ∈ part p.embeddedBlock b.fin + p.convDen layout b.fin) := by
  obtain ⟨d, ⟨hd, hty⟩, rfl⟩ := mem_convBlocks.mp hb
  refine ⟨rfl, fun ⟨hfirst, hleft, hright⟩ => ?_⟩
  replace hpos : 0 < d.size := hpos
  replace hfirst : 0 < d.physStart := hfirst
  -- another conventional descriptor next to `d` would touch it
  have hnone : ∀ {e : RAMDescriptor} {y : Nat}, e ∈ layout → e.ty = .conv → Holds e y →
      y = d.physStart - 1 ∨ y = d.physStart + d.size → False := by
    intro e y he hety hy hcase
    rw [RAMDescriptor.holds_iff] at hy
    have hsame : ∀ z, Holds d z → Holds e z → d = e := fun z hdz hez =>
      (pairwise_disjoint_iff.mp hdisj z).eq_of_holds hd he hdz hez
    rcases hcase with rfl | rfl
    · have hend := h e he d hd hety hty (by omega) hpos
      cases hsame d.physStart (RAMDescriptor.holds_iff.mpr (by omega)) (RAMDescriptor.holds_iff.mpr (by omega))
      omega
    · have hend := h d hd e he hty hety hpos (by omega)
      cases hsame (d.physStart + d.size - 1) (RAMDescriptor.holds_iff.mpr (by omega))
        (RAMDescriptor.holds_iff.mpr (by omega))
      omega
  have hrb : ∀ {y t}, t ∈ part p.embeddedBlock y + p.convDen layout y →
      y = d.physStart - 1 ∨ y = d.physStart + d.size → Holds p.embeddedBlock y := by
    intro y t ht hcase
    rcases eq_embeddedBlock_or ht with hy | hconv
    · exact hy.1
    · obtain ⟨e, he, hety, hy, -⟩ := mem_convDen.mp hconv
      exact (hnone he hety hy hcase).elim
  have hlo : p.rbEmbedded ≤ d.physStart - 1 := (hrb hleft (Or.inl rfl)).1
  have hhi : d.physStart + d.size < p.rbEmbedded + 3072 := (hrb hright (Or.inr rfl)).2
  have hsize : d.size = d.pageCount * 4096 := rfl
  omega

/-- `init` when the embedded table is outgrown in the first pass: the table has moved by then, and the
embedded array is free memory. -/
theorem booted_of_outgrown {n : Nat} {g : Globals} (hdisj : DisjointLayout layout)
    (haligned : ∀ d ∈ layout, page4kiB ∣ d.physStart) (hhost : p.Hosted layout)
    (hpages : p.pg = .size4kiB ∨ Untouched layout) (hnot : ¬p.EmbeddedFits layout)
    (hinit : p.init (tableOps p.pg (n + 2)) (Globals.fresh layout) = .ok g) :
    Booted p layout (fun x => part p.embeddedBlock x + p.convDen layout x) g := by
  obtain ⟨s₁, s₂, s₃, s₄, s₅, hconv, hmove, hefi, helf, hothers, hphys⟩ := init_eq_ok hinit
  rcases addAll_embedded (card_hosted hdisj hhost) (s := p.embedded) rfl p.embedded_max
    (fun x => by rw [p.embedded_den, zero_add]; rfl)
    (hpages.imp_right fun h b hb => not_between hdisj h hb) hconv with hno | ⟨hok, hwhole, hview, -⟩
  · exact absurd ((embeddedFits_iff hdisj).mpr ⟨s₁, hno⟩) hnot
  have hmoved : s₁.ptr ≠ p.embeddedPtr := by
    intro hptr
    have hdvd : 4096 ∣ tableBytes p.pg s₁.max := dvd_tableBytes hok.base_le_max
    rw [← hok.size_eq, hptr] at hdvd
    exact absurd hdvd (by decide : ¬4096 ∣ baseRbSize * ramBlockSize)
  rw [relocate, if_neg hmoved] at hmove
  cases hmove
  refine booted_of_relocated hdisj (card_hosted hdisj hhost) (fun x t ht => ?_) ?_
    (roomy_hosted hdisj haligned hhost) hok hwhole hview hefi helf hothers hphys
  · rcases eq_embeddedBlock_or ht with ⟨-, rfl⟩ | hconv
    · rfl
    · exact convDen_snd hconv
  · refine (@convDen_quiet p layout).imp_right fun hconv x t ht => ?_
    rcases eq_embeddedBlock_or ht with ⟨-, rfl⟩ | hmem
    · rfl
    · exact hconv x t hmem

/-- `init` when the embedded table is outgrown inside the request for its new storage. -/
theorem short_of_crowded {n : Nat} {g : Globals} (hdisj : DisjointLayout layout) (hhost : p.Hosted layout)
    (hcrowded : p.Crowded layout) (hfew : (layout.countP fun d => d.ty ≠ .conv) ≤ 118)
    (hinit : p.init (tableOps p.pg (n + 2)) (Globals.fresh layout) = .ok g) :
    Short p.pg (2 * baseRbSize) g.phys := by
  obtain ⟨s₁, s₂, s₃, s₄, s₅, hconv, hmove, hefi, helf, hothers, hphys⟩ := init_eq_ok hinit
  obtain ⟨s, hptr, hmax, hcount, hden, hreal⟩ := addAll_convBlocks hdisj hcrowded.1
  rw [hreal (n + 1)] at hconv
  cases hconv
  have hbase : baseRbSize = 128 := rfl
  have h₂ := relocate_crowded hptr hmax (by rw [hcount, hmax]; exact hcrowded.2) (fun x => by
    rw [hden, add_comm]; exact card_hosted hdisj hhost x) hmove
  have h₄ := (h₂.allocCopy (by decide) hefi).allocCopy (by decide) helf
  rw [← length_otherBlocks (p := p)] at hfew
  have h₅ := h₄.addAll (by omega) hothers
  rw [hphys]
  exact ⟨h₅.max_eq, h₅.size_eq, h₅.count_le.trans (by omega)⟩

/-! ### The storage of the table -/

theorem Booted.storage {base : Nat → Multiset Tag} {g : Globals} (h : Booted p layout base g)
    (hx : Holds g.phys.ptr x) :
    g.phys.den x = {(.conv, true)} ∧ ¬Holds g.layoutPtr x ∧ ¬Holds g.segPtr x := by
  have hview := h.view_eq x
  rw [view_of_holds hx, withCopies] at hview
  have hall : ∀ t ∈ withCopies g base x, t = (RAMType.conv, false) := by
    intro t ht
    rw [← Multiset.mem_singleton, hview]
    exact Multiset.mem_add.mpr (Or.inl ht)
  rw [withCopies] at hall
  refine ⟨h.tableOk.used x hx, fun hl => ?_, fun hs => ?_⟩
  · have hs : ¬Holds g.segPtr x := fun hs => (h.seg_free x hs).2 hl
    rw [if_neg hs, if_pos hl] at hall
    exact absurd (hall _ (Multiset.mem_singleton_self _)) (by decide)
  · rw [if_pos hs] at hall
    exact absurd (hall _ (Multiset.mem_singleton_self _)) (by decide)

/-- The storage of the table holds all its entries and is allocated for the table alone. -/
def Stored (g : Globals) : Prop :=
  g.phys.max * ramBlockSize ≤ g.phys.ptr.size ∧
    ∀ x, g.phys.ptr.addr ≤ x → x < g.phys.ptr.addr + g.phys.max * ramBlockSize →
      (∃ b ∈ g.phys.blocks, Holds b x) ∧ (∀ b ∈ g.phys.blocks, Holds b x → b.used = true) ∧
        ¬Holds g.layoutPtr x ∧ ¬Holds g.segPtr x

theorem Booted.stored {base : Nat → Multiset Tag} {g : Globals} (h : Booted p layout base g) : Stored g := by
  have hsize : g.phys.max * ramBlockSize ≤ g.phys.ptr.size := by
    rw [h.tableOk.size_eq]
    exact le_sizeAlign _ _
  refine ⟨hsize, fun x hlo hhi => ?_⟩
  obtain ⟨hden, hapart⟩ := h.storage (OwnedPtr.holds_iff.mpr (by omega) : Holds g.phys.ptr x)
  refine ⟨?_, fun b hb hx => ?_, hapart⟩
  · have hmem : (RAMType.conv, true) ∈ g.phys.den x := by
      rw [hden]
      exact Multiset.mem_singleton_self _
    obtain ⟨b, hb, hx, -⟩ := mem_den.mp hmem
    exact ⟨b, Multiset.mem_coe.mp hb, hx⟩
  · have hmem := tag_mem_den (Multiset.mem_coe.mpr hb) hx
    change _ ∈ g.phys.den x at hmem
    rw [hden, Multiset.mem_singleton] at hmem
    exact congrArg Prod.snd hmem

theorem Short.not_stored {g : Globals} {k : Nat} (h : Short p.pg k g.phys) : ¬Stored g := by
  intro hstored
  have hle := hstored.1
  rw [h.max_eq, h.size_eq] at hle
  revert hle
  cases p.pg <;> decide

/-- After `init` the table has its storage, unless the conventional memory fills the embedded table up to
its last four slots. Then it has not, as long as the rest of the memory map does not make it grow again. -/
theorem init_storage {n : Nat} {g : Globals} (hdisj : DisjointLayout layout)
    (haligned : ∀ d ∈ layout, page4kiB ∣ d.physStart)
    (hgrow : p.EmbeddedFits layout ∨ p.Hosted layout ∧ (p.pg = .size4kiB ∨ Untouched layout))
    (hinit : p.init (tableOps p.pg (n + 2)) (Globals.fresh layout) = .ok g) :
    (¬p.Crowded layout → Stored g) ∧
      (p.Hosted layout → (layout.countP fun d => d.ty ≠ .conv) ≤ 118 → (Stored g ↔ ¬p.Crowded layout)) := by
  have hstored : ¬p.Crowded layout → Stored g := by
    intro hnot
    by_cases hfits : p.EmbeddedFits layout
    · have hspare : p.EmbeddedSpare layout := ⟨hfits, Nat.le_of_not_lt fun h => hnot ⟨hfits, h⟩⟩
      exact (booted_of_spare hdisj hspare hinit).stored
    · obtain ⟨hhost, hpages⟩ := hgrow.resolve_left hfits
      exact (booted_of_outgrown hdisj haligned hhost hpages hfits hinit).stored
  exact ⟨hstored, fun hhost hfew => ⟨fun h hcrowded =>
    (short_of_crowded hdisj hhost hcrowded hfew hinit).not_stored h, hstored⟩⟩

/-- A sorter to evaluate `init` with. -/
def insertionSort : HeaplessSort where
  sortByKey key l := l.insertionSort fun a b => key a ≤ key b
  perm key l := List.perm_insertionSort _ l
  sorted key l := by
    have : Std.Total fun a b : RAMDescriptor => key a ≤ key b := ⟨fun a b => le_total _ _⟩
    have : IsTrans RAMDescriptor fun a b => key a ≤ key b := ⟨fun a b c => le_trans⟩
    exact List.pairwise_insertionSort _ l

/-- A machine with 4 KiB pages and the kernel image at 8 MiB. -/
def board : Platform where
  pg := .size4kiB
  arch := .aarch64
  rbEmbedded := 0x800000
  segLen := 4
  sort := insertionSort
  pg_of_amd64 h := by cases h

/-- The same machine with pages of 16 KiB. -/
def board16 : Platform := { board with pg := .size16kiB, pg_of_amd64 := fun h => by cases h }

/-- A memory map with the kernel image, one large free region and `k` free pages that do not touch. -/
def scattered (k : Nat) : List RAMDescriptor :=
  ⟨.loaderCode, 0x800000, 16⟩ :: ⟨.conv, 0x10000000, 256⟩ ::
    (List.range k).map fun i => ⟨.conv, 0x20000000 + i * 0x2000, 1⟩

theorem scattered_hosted (h : p.rbEmbedded = 0x800000) (k : Nat) : p.Hosted (scattered k) :=
  ⟨⟨.loaderCode, 0x800000, 16⟩, List.mem_cons_self, by decide, h.ge, by rw [h]; decide⟩

theorem not_holds_of_le {d e : RAMDescriptor} (h : d.physStart + d.size ≤ e.physStart) (x : Nat) :
    Holds d x → ¬Holds e x :=
  fun hd he => Nat.not_lt.mpr (h.trans he.1) hd.2

theorem scattered_disjoint (k : Nat) : DisjointLayout (scattered k) := by
  have hpages : ∀ d ∈ (List.range k).map fun i => (⟨.conv, 0x20000000 + i * 0x2000, 1⟩ : RAMDescriptor),
      0x20000000 ≤ d.physStart := by
    intro d hd
    obtain ⟨i, -, rfl⟩ := List.mem_map.mp hd
    exact Nat.le_add_right _ _
  apply List.Pairwise.cons
  · intro d hd
    apply not_holds_of_le
    rcases List.mem_cons.mp hd with rfl | hd
    · decide
    · exact le_trans (by decide) (hpages d hd)
  apply List.Pairwise.cons
  · intro d hd
    exact not_holds_of_le (le_trans (by decide) (hpages d hd))
  · rw [List.pairwise_map]
    refine List.pairwise_lt_range.imp fun {i j} hlt => not_holds_of_le ?_
    show 0x20000000 + i * 0x2000 + 1 * 4096 ≤ 0x20000000 + j * 0x2000
    omega

theorem scattered_untouched (k : Nat) : Untouched (scattered k) := by
  have hconv : ∀ d ∈ scattered k, d.ty = .conv → d.physStart = 0x10000000 ∧ d.size = 0x100000 ∨
      ∃ i, d.physStart = 0x20000000 + i * 0x2000 ∧ d.size = 0x1000 := by
    intro d hd hty
    rcases List.mem_cons.mp hd with rfl | hd
    · cases hty
    rcases List.mem_cons.mp hd with rfl | hd
    · exact Or.inl ⟨rfl, by decide⟩
    · obtain ⟨i, -, rfl⟩ := List.mem_map.mp hd
      exact Or.inr ⟨i, rfl, Nat.one_mul _⟩
  intro d hd e he hdty hety _ _
  rcases hconv d hd hdty with h | ⟨i, h⟩ <;> rcases hconv e he hety with h' | ⟨j, h'⟩ <;> omega

theorem init_storage_scattered :
    (∃ g, board.init (tableOps .size4kiB 2) (Globals.fresh (scattered 3)) = .ok g ∧
      g.phys.ptr = ⟨0x10000000, 0x1000⟩ ∧ Stored g) ∧
    ∃ g, board16.init (tableOps .size16kiB 2) (Globals.fresh (scattered 130)) = .ok g ∧
      g.phys.ptr = ⟨0x10000000, 0x2000⟩ ∧ Stored g := by
  have hfew : ((board.init (tableOps .size4kiB 2) (Globals.fresh (scattered 3))).map fun g => g.phys.ptr) =
      .ok ⟨0x10000000, 0x1000⟩ := by decide +kernel
  have hmany : ((board16.init (tableOps .size16kiB 2) (Globals.fresh (scattered 130))).map fun g => g.phys.ptr) =
      .ok ⟨0x10000000, 0x2000⟩ := by decide +kernel
  obtain ⟨g, hinit, hptr⟩ := map_eq_ok.mp hfew
  obtain ⟨g', hinit', hptr'⟩ := map_eq_ok.mp hmany
  have hspare : board.EmbeddedSpare (scattered 3) := embeddedSpare_of_few board (by decide)
  have hgrown : ¬board16.EmbeddedFits (scattered 130) := fun h => absurd (h 129) (by decide +kernel)
  refine ⟨⟨g, hinit, hptr, ?_⟩, g', hinit', hptr', ?_⟩
  · exact (init_storage (p := board) (n := 0) (by decide) (by decide) (Or.inl hspare.1) hinit).1
      fun hcrowded => Nat.not_lt.mpr hspare.2 hcrowded.2
  · exact (init_storage (p := board16) (n := 0) (scattered_disjoint 130) (by decide +kernel)
      (Or.inr ⟨scattered_hosted rfl 130, Or.inr (scattered_untouched 130)⟩) hinit').1 fun hcrowded => hgrown hcrowded.1

/-- With 125 free regions the table grows inside the request for its new storage: the storage it is moved
to is that of 128 entries. -/
theorem init_storage_short : DisjointLayout (scattered 124) ∧
    (∀ d ∈ scattered 124, page4kiB ∣ d.physStart) ∧ board.Hosted (scattered 124) ∧
    ∃ g, board.init (tableOps .size4kiB 2) (Globals.fresh (scattered 124)) = .ok g ∧
      g.phys.ptr.size < g.phys.max * ramBlockSize := by
  have hshort : ((board.init (tableOps .size4kiB 2) (Globals.fresh (scattered 124))).map fun g =>
      decide (g.phys.ptr.size < g.phys.max * ramBlockSize)) = .ok true := by decide +kernel
  obtain ⟨g, hinit, hshort⟩ := map_eq_ok.mp hshort
  exact ⟨scattered_disjoint 124, by decide +kernel, scattered_hosted rfl 124, g, hinit,
    of_decide_eq_true hshort⟩

/-! ### The address map -/

section AddressMap

variable {g : Globals} (h : Booted p layout (p.convDen layout) g) (hdisj : DisjointLayout layout)

include h

/-- Nothing is covered that is in no descriptor. -/
theorem Booted.covered {b : RAMBlock} (hb : b ∈ g.phys.blocks) (hx : Holds b x) : ∃ d ∈ layout, Holds d x := by
  have hview : 0 < (g.phys.view x).card := by
    by_cases hptr : Holds g.phys.ptr x
    · rw [view_of_holds hptr, Multiset.card_singleton]
      exact Nat.one_pos
    · rw [view_of_not_holds hptr]
      exact Multiset.card_pos_iff_exists_mem.mpr ⟨_, tag_mem_den (Multiset.mem_coe.mpr hb) hx⟩
  rw [h.view_eq, Multiset.card_add, card_withCopies h.layout_free (fun x hx => (h.seg_free x hx).1)] at hview
  rcases Nat.eq_zero_or_pos (p.convDen layout x).card with hzero | hpos
  · obtain ⟨t, ht⟩ := Multiset.card_pos_iff_exists_mem.mp (by omega : 0 < (p.otherDen layout x).card)
    obtain ⟨d, hd, -, hx, -⟩ := mem_otherDen.mp ht
    exact ⟨d, hd, hx⟩
  · obtain ⟨t, ht⟩ := Multiset.card_pos_iff_exists_mem.mp hpos
    obtain ⟨d, hd, -, hx, -⟩ := mem_convDen.mp ht
    exact ⟨d, hd, hx⟩

include hdisj

theorem Booted.card_view (x : Nat) : (g.phys.view x).card ≤ 1 := by
  rw [h.view_eq, Multiset.card_add, card_withCopies h.layout_free (fun x hx => (h.seg_free x hx).1)]
  exact card_convDen_add_otherDen hdisj x

theorem Booted.wellFormed : WellFormed p.pg g.phys :=
  h.tableOk.wellFormed (h.card_view hdisj) h.isInit_eq

/-- Memory of another type keeps its descriptor's tag. -/
theorem Booted.alpha_other {d : RAMDescriptor} (hd : d ∈ layout) (hty : d.ty ≠ .conv) (hx : Holds d x) :
    g.phys.alpha x = some (p.otherType d, false) := by
  obtain ⟨hconv, hother⟩ := passes_other (p := p) hdisj hd hty hx
  have hfree : p.convDen layout x ≠ {(.conv, false)} := by
    rw [hconv]
    exact (Multiset.singleton_ne_zero _).symm
  have hview := h.view_eq x
  rw [withCopies, if_neg fun hs => hfree (h.seg_free x hs).1, if_neg fun hl => hfree (h.layout_free x hl),
    hconv, hother, zero_add] at hview
  have hx' : ¬Holds g.phys.ptr x := by
    intro hptr
    rw [view_of_holds hptr, Multiset.singleton_inj, Prod.mk.injEq] at hview
    exact otherType_ne hty hview.1.symm
  rw [view_of_not_holds hx'] at hview
  exact (alpha_eq_some_iff ((h.wellFormed hdisj).sole x)).mpr hview

theorem Booted.alpha_conv {d : RAMDescriptor} (hd : d ∈ layout) (hty : d.ty = .conv) (hx : Holds d x) :
    g.phys.alpha x = some (if Holds g.phys.ptr x then (.conv, true)
      else if Holds g.segPtr x then (.elfSegments, true)
      else if Holds g.layoutPtr x then (.efiRamLayout, true) else (p.convType d, false)) := by
  obtain ⟨hconv, hother⟩ := passes_conv (p := p) hdisj hd hty hx
  rw [alpha_eq_some_iff ((h.wellFormed hdisj).sole x)]
  by_cases hptr : Holds g.phys.ptr x
  · rw [if_pos hptr]
    exact h.tableOk.used x hptr
  · rw [if_neg hptr, ← view_of_not_holds hptr, h.view_eq, withCopies, hconv, hother, add_zero]
    split_ifs <;> rfl

end AddressMap

/-- After `init` without growth in the first pass, the address map is the memory map of the firmware
under the types of the two passes, except for what `init` has allocated itself. -/
theorem init_exact {n : Nat} {g : Globals} (hdisj : DisjointLayout layout) (hspare : p.EmbeddedSpare layout)
    (hinit : p.init (tableOps p.pg (n + 2)) (Globals.fresh layout) = .ok g) :
    (g.phys.blocks.Pairwise fun b c => b.valid → c.valid → b.fin ≤ c.addr ∨ c.fin ≤ b.addr) ∧
    (∀ x, (∃ b ∈ g.phys.blocks, Holds b x) ↔ ∃ d ∈ layout, Holds d x) ∧
    (∀ d ∈ layout, d.ty ≠ .conv → ∀ x, Holds d x → g.phys.alpha x = some (p.otherType d, false)) ∧
    ∀ d ∈ layout, d.ty = .conv → ∀ x, Holds d x →
      g.phys.alpha x = some (if Holds g.phys.ptr x then (.conv, true)
        else if Holds g.segPtr x then (.elfSegments, true)
        else if Holds g.layoutPtr x then (.efiRamLayout, true) else (p.convType d, false)) := by
  have h := booted_of_spare hdisj hspare hinit
  refine ⟨(h.wellFormed hdisj).disjoint, fun x => ⟨fun ⟨b, hb, hx⟩ => h.covered hb hx, ?_⟩,
    fun d hd hty x hx => h.alpha_other hdisj hd hty hx, fun d hd hty x hx => h.alpha_conv hdisj hd hty hx⟩
  rintro ⟨d, hd, hx⟩
  have hsome : ∃ t, g.phys.alpha x = some t := by
    by_cases hty : d.ty = .conv
    · exact ⟨_, h.alpha_conv hdisj hd hty hx⟩
    · exact ⟨_, h.alpha_other hdisj hd hty hx⟩
  obtain ⟨t, ht⟩ := hsome
  rw [alpha_eq_some_iff ((h.wellFormed hdisj).sole x)] at ht
  obtain ⟨b, hb, hx, -⟩ := mem_den.mp (ht ▸ Multiset.mem_singleton_self t : t ∈ g.phys.den x)
  exact ⟨b, Multiset.mem_coe.mp hb, hx⟩

theorem init_exact_scattered : ∃ g, board.init (tableOps .size4kiB 2) (Globals.fresh (scattered 3)) = .ok g ∧
    g.phys.alpha 0x800000 = some (.reclaimable, false) := by
  have hptr : ((board.init (tableOps .size4kiB 2) (Globals.fresh (scattered 3))).map fun g => g.phys.ptr) =
      .ok ⟨0x10000000, 0x1000⟩ := by decide +kernel
  obtain ⟨g, hinit, -⟩ := map_eq_ok.mp hptr
  have hspare : board.EmbeddedSpare (scattered 3) := embeddedSpare_of_few board (by decide)
  obtain ⟨-, -, hother, -⟩ := init_exact (p := board) (n := 0) (by decide) hspare hinit
  exact ⟨g, hinit, hother ⟨.loaderCode, 0x800000, 16⟩ List.mem_cons_self (by decide) 0x800000
    (RAMDescriptor.holds_iff.mpr (by decide))⟩

/-- A PC. -/
def pc : Platform := { board with arch := .amd64, pg_of_amd64 := fun _ => rfl }

/-- A memory map with conventional memory in the first megabyte. -/
def lowConv : List RAMDescriptor :=
  [⟨.conv, 0x1000, 16⟩, ⟨.conv, 0x100000, 256⟩, ⟨.loaderCode, 0x800000, 16⟩]

/-- The low memory of a PC is entered as reserved. -/
theorem init_low_reserved : DisjointLayout lowConv ∧ (∀ d ∈ lowConv, page4kiB ∣ d.physStart) ∧
    pc.Hosted lowConv ∧
    ∃ g, pc.init (tableOps .size4kiB 2) (Globals.fresh lowConv) = .ok g ∧
      g.phys.alpha 0x1000 = some (.reserved, false) := by
  have hlow : ((pc.init (tableOps .size4kiB 2) (Globals.fresh lowConv)).map fun g => g.phys.alpha 0x1000) =
      .ok (some (.reserved, false)) := by decide +kernel
  obtain ⟨g, hinit, hlow⟩ := map_eq_ok.mp hlow
  exact ⟨by decide, by decide, ⟨⟨.loaderCode, 0x800000, 16⟩, by decide, by decide, by decide, by decide⟩, g,
    hinit, hlow⟩

end Platform

end UnixKernel
