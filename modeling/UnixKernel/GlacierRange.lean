import UnixKernel.Effects
import UnixKernel.GlacierFlags
import UnixKernel.GlacierShare

/-! `map_range` and `unmap_range`, as calls on one of two trees that share their upper half. A range is rounded
to whole pages, its addresses and the physical ones each for themselves. The pages that the allocator hands out
for tables are given by the state it is asked in. -/

namespace UnixKernel

open Radix

/-- How a range call ends early. -/
inductive RangeStop where
  | failed (e : GlacierErr)
  | panic
  deriving DecidableEq, Repr

namespace Glacier

/-- What `PHYS_ALLOC.alloc` answers to the requests for tables from a state on. -/
abbrev TableAlloc := Ram → List (Option Word)

section Model

variable (cfg : RvmCfg) (arch : Arch) (p : Profile)

/-- `(va + size + page_size - 1) & page_mask`. -/
def rangeEnd (va size : Nat) : Except RangeStop Nat := do
  let sum ← p.fit .panic 64 (va + size : Nat)
  let sum ← p.fit .panic 64 (sum + cfg.psz.size : Nat)
  let sum ← p.fit .panic 64 ((sum : Int) - 1)
  pure (sum / cfg.psz.size * cfg.psz.size)

/-- `(start..stop).step_by(page_size)`, counted from `start`; both are multiples of the page size. -/
def rangeOffsets (start stop : Nat) : List Nat :=
  (List.range ((stop - start) / cfg.psz.size)).map (· * cfg.psz.size)

/-- One round of the loop of `map_range`. -/
def mapAt (g : Glacier) (alloc : TableAlloc) (va pa : Nat) (flags : Word) : Eff Ram RangeStop Unit := fun r =>
  match mapPage cfg arch g (BitVec.ofNat 64 va) (BitVec.ofNat 64 pa) flags (alloc r) r with
  | (.ok (), r) => (.ok (), r)
  | (.error e, r) => (.error (.failed e), r)

/-- The loop of `map_range`. -/
def mapPages (g : Glacier) (alloc : TableAlloc) (vaStart paStart : Nat) (flags : Word) :
    List Nat → Eff Ram RangeStop Unit
  | [] => pure ()
  | off :: offs => do
      let pa ← Eff.lift (p.fit .panic 64 (paStart + off : Nat))
      mapAt cfg arch g alloc (vaStart + off) pa flags
      mapPages g alloc vaStart paStart flags offs

def mapRange (g : Glacier) (alloc : TableAlloc) (va pa size : Nat) (flags : Word) : Eff Ram RangeStop Unit := do
  let paStart := pa / cfg.psz.size * cfg.psz.size
  let vaStart := va / cfg.psz.size * cfg.psz.size
  let vaEnd ← Eff.lift (rangeEnd cfg p va size)
  mapPages cfg arch p g alloc vaStart paStart flags (rangeOffsets cfg vaStart vaEnd)

/-- The loop of `unmap_range`. -/
def unmapPages (g : Glacier) (vaStart : Nat) (offs : List Nat) : Eff Ram RangeStop Unit := fun r =>
  (.ok (), offs.foldl (fun r off => unmapPage cfg g (BitVec.ofNat 64 (vaStart + off)) r) r)

def unmapRange (g : Glacier) (va size : Nat) : Eff Ram RangeStop Unit := do
  let vaStart := va / cfg.psz.size * cfg.psz.size
  let vaEnd ← Eff.lift (rangeEnd cfg p va size)
  unmapPages cfg g vaStart (rangeOffsets cfg vaStart vaEnd)

/-- The flags that `glacier::init` maps memory of a type with, if it maps it. -/
def initFlag : RAMType → Option MapFlag
  | .mmio | .mmioPortSpace => some .dRw
  | .reserved => none
  | _ => some .kRwx

/-- The flags of `glacier::remap`. -/
def remapFlag (ty : RAMType) : Option MapFlag := if ty ∈ nonRam then none else some .kRwo

/-- The loop of `glacier::init` and `remap` over the layout of the firmware: all of the memory is mapped to itself. -/
def mapLayout (g : Glacier) (alloc : TableAlloc) (flag : RAMType → Option MapFlag) :
    List RAMDescriptor → Eff Ram RangeStop Unit
  | [] => pure ()
  | desc :: layout => do
      let size ← Eff.lift (p.fit .panic 64 (desc.pageCount * page4kiB : Nat))
      match flag desc.ty with
      | some f => mapRange cfg arch p g alloc desc.physStart desc.physStart size (arch.mapFlag f)
      | none => pure ()
      mapLayout g alloc flag layout

end Model

/-! ### Pages of a range -/

section Pages

/-- The pages that a range takes: its first one, and the one behind its last. -/
def firstPage (cfg : RvmCfg) (va : Nat) : Nat := va / cfg.psz.size

def endPage (cfg : RvmCfg) (va size : Nat) : Nat := (va + size + cfg.psz.size - 1) / cfg.psz.size

/-- What is mapped where: for the number of a page, the frame and the flags. -/
abbrev Space := Nat → Option (Nat × Word)

/-- What a range maps. -/
def rangeSpace (cfg : RvmCfg) (va pa size : Nat) (flags : Word) : Space := fun page =>
  if firstPage cfg va ≤ page ∧ page < endPage cfg va size then
    some (pa / cfg.psz.size + (page - firstPage cfg va), flags)
  else none

variable {cfg : RvmCfg} {p : Profile}

theorem rangeEnd_eq {va size : Nat} (h : va + size + cfg.psz.size < 2 ^ 64) :
    rangeEnd cfg p va size = .ok ((va + size + cfg.psz.size - 1) / cfg.psz.size * cfg.psz.size) := by
  have hpos := cfg.psz.size_pos
  have hone : ((va + size + cfg.psz.size : Nat) : Int) - 1 = ((va + size + cfg.psz.size - 1 : Nat) : Int) := by
    omega
  unfold rangeEnd
  rw [Profile.fit_of_lt (by omega), ok_bind, Profile.fit_of_lt h, ok_bind, hone, Profile.fit_of_lt (by omega),
    ok_bind]
  rfl

theorem rangeOffsets_eq (first last : Nat) : rangeOffsets cfg (first * cfg.psz.size) (last * cfg.psz.size) =
    (List.range (last - first)).map (· * cfg.psz.size) := by
  unfold rangeOffsets
  rw [← Nat.sub_mul, Nat.mul_div_cancel _ cfg.psz.size_pos]

theorem nodup_rangeOffsets (start stop : Nat) : (rangeOffsets cfg start stop).Nodup :=
  List.nodup_range.map fun _ _ hij => Nat.eq_of_mul_eq_mul_right cfg.psz.size_pos hij

/-- A release build gets to the end also with one page left, where the sum is zero for a moment. -/
theorem rangeEnd_release {va size : Nat} (h : va + size + cfg.psz.size ≤ 2 ^ 64) :
    rangeEnd cfg .release va size = .ok (endPage cfg va size * cfg.psz.size) := by
  rcases Nat.lt_or_eq_of_le h with hlt | htop
  · exact rangeEnd_eq hlt
  · have hpos := cfg.psz.size_pos
    unfold rangeEnd endPage
    rw [Profile.fit_of_lt (by omega), ok_bind, htop, Profile.fit_release_natCast, ok_bind, Profile.fit_release, ok_bind]
    rfl

/-- A development build stops unless the range ends more than a page below the end of the address space. -/
theorem lt_of_rangeEnd {va size last : Nat} (h : rangeEnd cfg .dev va size = .ok last) :
    va + size + cfg.psz.size < 2 ^ 64 := by
  obtain ⟨sum, hsum, hrest⟩ := bind_eq_ok.mp h
  obtain ⟨sum', hsum', -⟩ := bind_eq_ok.mp hrest
  obtain ⟨rfl, -⟩ := Profile.eq_of_fit_dev hsum
  exact (Profile.eq_of_fit_dev hsum').2

theorem lt_of_mapRange {arch : Arch} {g : Glacier} {alloc : TableAlloc} {va pa size : Nat} {flags : Word} {r r' : Ram}
    (h : mapRange cfg arch .dev g alloc va pa size flags r = (.ok (), r')) : va + size + cfg.psz.size < 2 ^ 64 := by
  obtain ⟨vaEnd, r₁, hlift, -⟩ := Eff.bind_eq_ok.mp h
  exact lt_of_rangeEnd (Eff.lift_eq_ok hlift).1

theorem pages_low {va size : Nat} (h : va + size ≤ 2 ^ (cfg.vaBits - 1)) :
    va + size + cfg.psz.size < 2 ^ 64 ∧ endPage cfg va size * cfg.psz.size ≤ 2 ^ (cfg.vaBits - 1) := by
  obtain ⟨hdouble, hhalf, htop⟩ := cfg.half_pages
  have hsize := cfg.psz.size_le
  refine ⟨by omega, ?_⟩
  have hlt : va + size + cfg.psz.size - 1 < (2 ^ (cfg.vaBits - 1 - cfg.psz.shift) + 1) * cfg.psz.size := by
    have hpos := cfg.psz.size_pos
    rw [Nat.add_mul, Nat.mul_comm, ← hhalf]
    omega
  have hle : endPage cfg va size ≤ 2 ^ (cfg.vaBits - 1 - cfg.psz.shift) :=
    Nat.lt_succ_iff.mp ((Nat.div_lt_iff_lt_mul cfg.psz.size_pos).mpr hlt)
  rw [hhalf, Nat.mul_comm]
  exact Nat.mul_le_mul_left _ hle

theorem toNat_ofNat_lt {x : Nat} (h : x < 2 ^ 64) : (BitVec.ofNat 64 x).toNat = x := by
  rw [BitVec.toNat_ofNat, Nat.mod_eq_of_lt h]

theorem ofNat_and_addrMask {page : Nat} (h : page * cfg.psz.size < 2 ^ 64) :
    BitVec.ofNat 64 (page * cfg.psz.size) &&& cfg.psz.addrMask = BitVec.ofNat 64 (page * cfg.psz.size) := by
  apply BitVec.eq_of_toNat_eq
  rw [BPage.toNat_and_addrMask, toNat_ofNat_lt h, Nat.mul_div_cancel _ cfg.psz.size_pos]

theorem samePage_ofNat {page : Nat} {va : Word} (h : page * cfg.psz.size < 2 ^ 64) :
    cfg.SamePage (BitVec.ofNat 64 (page * cfg.psz.size)) va ↔ page = va.toNat / cfg.psz.size := by
  rw [RvmCfg.samePage_iff_div, toNat_ofNat_lt h, Nat.mul_div_cancel _ cfg.psz.size_pos]

end Pages

/-! ### Calls on either tree -/

section Calls

variable {cfg : RvmCfg} {arch : Arch} {krvm g : Glacier} {e₀ : Nat → Word} {r : Ram}

variable (cfg) in
/-- The allocator hands out pages for tables that neither tree uses. -/
def HonestTables (krvm : Glacier) (root : Word) (alloc : TableAlloc) : Prop :=
  ∀ r, Fresh cfg (tables cfg r.mem krvm.rootTable ++ lowTables cfg r.mem root) (alloc r)

/-- The leaf word for a frame with flags. -/
def leafWord (cfg : RvmCfg) (leaf : Nat × Word) : Word := BitVec.ofNat 64 (leaf.1 * cfg.psz.size) ||| leaf.2

/-- The address of the page in a leaf word. -/
def pageAddr (cfg : RvmCfg) (w : Word) : Nat := w.toNat % 2 ^ 52 / cfg.psz.size * cfg.psz.size

theorem mapFlag_mod_lt (arch : Arch) (f : MapFlag) (pg : BPage) : (arch.mapFlag f).toNat % 2 ^ 52 < pg.size := by
  cases arch <;> cases f <;> cases pg <;> decide

theorem pageAddr_leafWord {frame : Nat} (f : MapFlag) (h : frame * cfg.psz.size < 2 ^ 52) :
    pageAddr cfg (leafWord cfg (frame, arch.mapFlag f)) = frame * cfg.psz.size := by
  have hflags := mapFlag_mod_lt arch f cfg.psz
  have hlt : frame * cfg.psz.size < 2 ^ 64 := h.trans (by decide)
  unfold pageAddr leafWord
  rw [BitVec.toNat_or, toNat_ofNat_lt hlt, Nat.or_mod_two_pow, Nat.mod_eq_of_lt h]
  rw [BPage.size_eq_two_pow] at *
  rw [Nat.or_div_two_pow, Nat.mul_div_cancel _ (Nat.two_pow_pos _), Nat.div_eq_of_lt hflags, Nat.or_zero]

/-- A process call on a low page: the kernel's translations stay, and so do those of the other low pages. -/
theorem Shared.map_low (h : Shared cfg krvm g e₀ r.mem) {va pa flags : Word} {answers : List (Option Word)}
    (hfresh : Fresh cfg (tables cfg r.mem krvm.rootTable ++ lowTables cfg r.mem g.rootTable) answers)
    (hva : LowHalf cfg va) (hflags : flags &&& flagValid ≠ 0) {x : Except GlacierErr Unit} {r' : Ram}
    (hmap : mapPage cfg arch g va pa flags answers r = (x, r')) :
    Shared cfg krvm g e₀ r'.mem ∧
    (∀ va', walk cfg r'.mem krvm.rootTable va' = walk cfg r.mem krvm.rootTable va') ∧
    (x = .ok () → ∀ va', LowHalf cfg va' → walk cfg r'.mem g.rootTable va' =
      if cfg.SamePage va va' then some (pa &&& cfg.psz.addrMask ||| flags)
      else walk cfg r.mem g.rootTable va') := by
  have hr' : r' = step cfg arch g r (.map va pa flags answers) := (congrArg Prod.snd hmap).symm
  obtain ⟨hshared, hsame, -⟩ := @Shared.process cfg arch krvm g e₀ r (.map va pa flags answers) h ⟨hva, hfresh⟩
  rw [← hr'] at hshared hsame
  refine ⟨hshared, fun va' => walkFrom_congr width_le_page hsame (inWidth_width va'), fun hx va' hva' => ?_⟩
  obtain ⟨added, -, -, -, heffect⟩ := @mapPage_effect cfg arch (dropWidth cfg) va answers r g pa flags
    dropWidth_le_page (inWidth_low hva) h.aligned h.nodup (hfresh.mono fun q hq => List.mem_append_right _ hq)
  rw [hmap] at heffect
  have hagree : cfg.SamePage va va' ↔ Agree cfg cfg.depth va va' := samePage_iff_agree (.inl hva) (.inl hva')
  split_ifs with hpage
  · exact (heffect.hit hx va' (hagree.mp hpage)).trans (if_neg (valid_or hflags))
  · exact heffect.miss va' (inWidth_low hva') fun _ hag => hpage (hagree.mpr hag)

/-- A kernel call on a page: the kernel's other translations stay, and so do all low ones of the process. -/
theorem Shared.kernel_page (h : Shared cfg krvm g e₀ r.mem) {c : PageCall} (hc : Unshared cfg krvm g r c)
    (hva : cfg.Canonical c.va) :
    Shared cfg krvm g e₀ (step cfg arch krvm r c).mem ∧
    (∀ va', cfg.Canonical va' → ¬cfg.SamePage c.va va' →
      walk cfg (step cfg arch krvm r c).mem krvm.rootTable va' = walk cfg r.mem krvm.rootTable va') ∧
    ∀ va', LowHalf cfg va' →
      walk cfg (step cfg arch krvm r c).mem g.rootTable va' = walk cfg r.mem g.rootTable va' := by
  refine ⟨h.kernelCall hc, fun va' hva' hpage => ?_, fun va' hva' => ?_⟩
  · refine (@step_other cfg krvm va' arch r c _ hva' ⟨h.kernel, rfl⟩ ?_).2
    have hother : ¬cfg.SamePage va' c.va := fun heq => hpage (Eq.symm heq)
    cases c with
    | map va pa flags answers => exact ⟨hva, hother, hc.mono fun q hq => List.mem_append_left _ hq⟩
    | unmap va => exact ⟨hva, hother⟩
  · obtain ⟨added, hadded, hconf⟩ := @step_confined cfg arch krvm r c cfg.width (fun _ => le_refl _)
      (inWidth_width _) h.kernel.aligned h.kernel.nodup (hc.mono fun q hq => List.mem_append_left _ hq)
    apply walkFrom_congr dropWidth_le_page _ (inWidth_low hva')
    intro n hn
    refine hconf.same n (aligned_of_mem h.aligned hn) (fun hmem => ?_) (h.apart n hn)
    exact hc.unused n (hadded n hmem) (List.mem_append_right _ hn)

end Calls

/-! ### Ranges -/

section Ranges

variable {cfg : RvmCfg} {arch : Arch} {p : Profile} {krvm g : Glacier} {e₀ : Nat → Word} {alloc : TableAlloc}

/-- A round of the loop on a low page. -/
theorem Shared.mapAt_low {page frame : Nat} {flags : Word} (halloc : HonestTables cfg krvm g.rootTable alloc)
    (hflags : flags &&& flagValid ≠ 0) (hpage : (page + 1) * cfg.psz.size ≤ 2 ^ (cfg.vaBits - 1))
    (hframe : frame * cfg.psz.size < 2 ^ 64) {r r' : Ram} {x : Except RangeStop Unit}
    (h : Shared cfg krvm g e₀ r.mem)
    (hmap : mapAt cfg arch g alloc (page * cfg.psz.size) (frame * cfg.psz.size) flags r = (x, r')) :
    Shared cfg krvm g e₀ r'.mem ∧
    (∀ va, walk cfg r'.mem krvm.rootTable va = walk cfg r.mem krvm.rootTable va) ∧
    (x = .ok () → ∀ va, LowHalf cfg va → walk cfg r'.mem g.rootTable va =
      if page = va.toNat / cfg.psz.size then some (leafWord cfg (frame, flags))
      else walk cfg r.mem g.rootTable va) := by
  obtain ⟨hdouble, -, htop⟩ := cfg.half_pages
  have hlt : page * cfg.psz.size < 2 ^ (cfg.vaBits - 1) := by
    have hpos := cfg.psz.size_pos
    rw [Nat.succ_mul] at hpage
    omega
  have hlt64 : page * cfg.psz.size < 2 ^ 64 := by omega
  have hlow : LowHalf cfg (BitVec.ofNat 64 (page * cfg.psz.size)) := by
    unfold LowHalf
    rw [toNat_ofNat_lt hlt64]
    exact hlt
  unfold mapAt at hmap
  rcases hpg : mapPage cfg arch g (BitVec.ofNat 64 (page * cfg.psz.size)) (BitVec.ofNat 64 (frame * cfg.psz.size))
    flags (alloc r) r with ⟨e | _, r₁⟩
  · rw [hpg] at hmap
    cases hmap
    obtain ⟨hshared, hkernel, -⟩ := h.map_low (halloc r) hlow hflags hpg
    exact ⟨hshared, hkernel, fun hx => by cases hx⟩
  · rw [hpg] at hmap
    cases hmap
    obtain ⟨hshared, hkernel, hwalk⟩ := h.map_low (halloc r) hlow hflags hpg
    refine ⟨hshared, hkernel, fun _ va hva => ?_⟩
    rw [hwalk rfl va hva, ofNat_and_addrMask hframe]
    exact if_congr (samePage_ofNat hlt64) rfl rfl

/-- The loop on low pages, `k` pages from the first for each `k` of a list. -/
theorem Shared.mapPages_low {first frame : Nat} {flags : Word} (halloc : HonestTables cfg krvm g.rootTable alloc)
    (hflags : flags &&& flagValid ≠ 0) {ks : List Nat}
    (hks : ∀ k ∈ ks, (first + k + 1) * cfg.psz.size ≤ 2 ^ (cfg.vaBits - 1) ∧
      (frame + k) * cfg.psz.size < 2 ^ 64) {r r' : Ram} {x : Except RangeStop Unit}
    (h : Shared cfg krvm g e₀ r.mem)
    (hmap : mapPages cfg arch p g alloc (first * cfg.psz.size) (frame * cfg.psz.size) flags
      (ks.map (· * cfg.psz.size)) r = (x, r')) :
    Shared cfg krvm g e₀ r'.mem ∧
    (∀ va, walk cfg r'.mem krvm.rootTable va = walk cfg r.mem krvm.rootTable va) ∧
    (x = .ok () → ∀ va, LowHalf cfg va → walk cfg r'.mem g.rootTable va =
      if first ≤ va.toNat / cfg.psz.size ∧ va.toNat / cfg.psz.size - first ∈ ks then
        some (leafWord cfg (frame + (va.toNat / cfg.psz.size - first), flags))
      else walk cfg r.mem g.rootTable va) := by
  induction ks generalizing r with
  | nil =>
      cases hmap
      refine ⟨h, fun _ => rfl, fun _ va _ => (if_neg ?_).symm⟩
      exact fun hmem => absurd hmem.2 List.not_mem_nil
  | cons k ks ih =>
      obtain ⟨hpage, hframe⟩ := hks k List.mem_cons_self
      have hrest := fun j hj => hks j (List.mem_cons_of_mem k hj)
      rw [List.map_cons, mapPages, ← Nat.add_mul, Profile.fit_of_lt hframe, Eff.lift_ok_bind, ← Nat.add_mul] at hmap
      rcases hat : mapAt cfg arch g alloc ((first + k) * cfg.psz.size) ((frame + k) * cfg.psz.size) flags r with
        ⟨e | _, r₁⟩
      · obtain ⟨hshared, hkernel, -⟩ := h.mapAt_low halloc hflags hpage hframe hat
        rw [Eff.bind_of_error hat] at hmap
        cases hmap
        exact ⟨hshared, hkernel, fun hx => by cases hx⟩
      · obtain ⟨hshared, hkernel, hwalk⟩ := h.mapAt_low halloc hflags hpage hframe hat
        rw [Eff.bind_of_ok hat] at hmap
        obtain ⟨hshared', hkernel', hwalk'⟩ := ih hrest hshared hmap
        refine ⟨hshared', fun va => (hkernel' va).trans (hkernel va), fun hx va hva => ?_⟩
        rw [hwalk' hx va hva, hwalk rfl va hva]
        by_cases hle : first ≤ va.toNat / cfg.psz.size
        · by_cases hmem : va.toNat / cfg.psz.size - first ∈ ks
          · rw [if_pos ⟨hle, hmem⟩, if_pos ⟨hle, List.mem_cons_of_mem k hmem⟩]
          · rw [if_neg fun hc => hmem hc.2]
            by_cases heq : first + k = va.toNat / cfg.psz.size
            · have hk : va.toNat / cfg.psz.size - first = k := by omega
              rw [if_pos heq, hk, if_pos ⟨hle, List.mem_cons_self⟩]
            · rw [if_neg heq, if_neg]
              rintro ⟨-, hmem'⟩
              rcases List.mem_cons.mp hmem' with hk | hk
              · exact heq (by omega)
              · exact hmem hk
        · rw [if_neg fun hc => hle hc.1, if_neg (by omega), if_neg fun hc => hle hc.1]

/-- `map_range` of a process on a range of the lower half. -/
theorem Shared.mapRange_low {va pa size : Nat} {flags : Word} (halloc : HonestTables cfg krvm g.rootTable alloc)
    (hflags : flags &&& flagValid ≠ 0) (hlow : va + size ≤ 2 ^ (cfg.vaBits - 1)) (hpa : pa + size < 2 ^ 63)
    {r r' : Ram} {x : Except RangeStop Unit} (h : Shared cfg krvm g e₀ r.mem)
    (hmap : mapRange cfg arch p g alloc va pa size flags r = (x, r')) :
    Shared cfg krvm g e₀ r'.mem ∧
    (∀ va', walk cfg r'.mem krvm.rootTable va' = walk cfg r.mem krvm.rootTable va') ∧
    (x = .ok () → ∀ va', LowHalf cfg va' → walk cfg r'.mem g.rootTable va' =
      ((rangeSpace cfg va pa size flags (va'.toNat / cfg.psz.size)).map (leafWord cfg)).or
        (walk cfg r.mem g.rootTable va')) := by
  have hpages := @pages_low cfg va size hlow
  unfold mapRange at hmap
  rw [rangeEnd_eq hpages.1, Eff.lift_ok_bind, rangeOffsets_eq] at hmap
  have hks : ∀ k ∈ List.range (endPage cfg va size - firstPage cfg va),
      (firstPage cfg va + k + 1) * cfg.psz.size ≤ 2 ^ (cfg.vaBits - 1) ∧
      (pa / cfg.psz.size + k) * cfg.psz.size < 2 ^ 64 := by
    intro k hk
    rw [List.mem_range] at hk
    have hend : (firstPage cfg va + k + 1) * cfg.psz.size ≤ endPage cfg va size * cfg.psz.size :=
      Nat.mul_le_mul_right _ (by omega)
    refine ⟨hend.trans hpages.2, ?_⟩
    have hpa' := Nat.div_mul_le_self pa cfg.psz.size
    have hlast := Nat.div_mul_le_self (va + size + cfg.psz.size - 1) cfg.psz.size
    have hfirst := Nat.lt_div_mul_add (a := va) cfg.psz.size_pos
    rw [Nat.add_mul, Nat.add_mul] at hend
    rw [Nat.add_mul]
    unfold endPage firstPage at hend
    omega
  obtain ⟨hshared, hkernel, hwalk⟩ := h.mapPages_low halloc hflags hks hmap
  refine ⟨hshared, hkernel, fun hx va' hva' => ?_⟩
  rw [hwalk hx va' hva', rangeSpace]
  by_cases hle : firstPage cfg va ≤ va'.toNat / cfg.psz.size
  · by_cases hlt : va'.toNat / cfg.psz.size < endPage cfg va size
    · rw [if_pos ⟨hle, List.mem_range.mpr (by omega)⟩, if_pos ⟨hle, hlt⟩]
      rfl
    · rw [if_neg fun hc => hlt (by have := List.mem_range.mp hc.2; omega), if_neg fun hc => hlt hc.2]
      rfl
  · rw [if_neg fun hc => hle hc.1, if_neg fun hc => hle hc.1]
    rfl

/-- From `m` to `m'` the kernel's translations changed at pages of `X` at most, and no low translation of the
process did. -/
structure KernelEffect (cfg : RvmCfg) (krvm g : Glacier) (X : Nat → Prop) (m m' : Mem) : Prop where
  other : ∀ va, cfg.Canonical va → ¬X (va.toNat / cfg.psz.size) →
    walk cfg m' krvm.rootTable va = walk cfg m krvm.rootTable va
  low : ∀ va, LowHalf cfg va → walk cfg m' g.rootTable va = walk cfg m g.rootTable va

namespace KernelEffect

variable {X Y : Nat → Prop} {m m₁ m' : Mem}

theorem refl (X : Nat → Prop) (m : Mem) : KernelEffect cfg krvm g X m m := ⟨fun _ _ _ => rfl, fun _ _ => rfl⟩

theorem trans (h : KernelEffect cfg krvm g X m m₁) (h' : KernelEffect cfg krvm g X m₁ m') :
    KernelEffect cfg krvm g X m m' where
  other va hva hX := (h'.other va hva hX).trans (h.other va hva hX)
  low va hva := (h'.low va hva).trans (h.low va hva)

theorem mono (h : KernelEffect cfg krvm g X m m') (hXY : ∀ page, X page → Y page) :
    KernelEffect cfg krvm g Y m m' := ⟨fun va hva hY => h.other va hva fun hX => hY (hXY _ hX), h.low⟩

end KernelEffect

theorem Shared.kernel_at {r : Ram} {page : Nat} {c : PageCall} {X : Nat → Prop} (h : Shared cfg krvm g e₀ r.mem)
    (hc : Unshared cfg krvm g r c) (hva : c.va = BitVec.ofNat 64 (page * cfg.psz.size))
    (hpage : page * cfg.psz.size < 2 ^ 64) (hcanon : cfg.Canonical (BitVec.ofNat 64 (page * cfg.psz.size)))
    (hX : X page) : Shared cfg krvm g e₀ (step cfg arch krvm r c).mem ∧
      KernelEffect cfg krvm g X r.mem (step cfg arch krvm r c).mem := by
  rw [← hva] at hcanon
  obtain ⟨hshared, hother, hlow⟩ := @Shared.kernel_page cfg arch krvm g e₀ r h c hc hcanon
  refine ⟨hshared, ⟨fun va hva' hnot => hother va hva' fun hsame => hnot ?_, hlow⟩⟩
  rw [hva] at hsame
  exact (samePage_ofNat hpage).mp hsame ▸ hX

/-- The kernel's loop of `map_range`, however it ends. -/
theorem Shared.mapPages_kernel {first paStart : Nat} {flags : Word} {X : Nat → Prop}
    (halloc : HonestTables cfg krvm g.rootTable alloc) {ks : List Nat}
    (hks : ∀ k ∈ ks, (first + k) * cfg.psz.size < 2 ^ 64 ∧
      cfg.Canonical (BitVec.ofNat 64 ((first + k) * cfg.psz.size)) ∧ X (first + k))
    {r : Ram} (h : Shared cfg krvm g e₀ r.mem) :
    Shared cfg krvm g e₀ (mapPages cfg arch p krvm alloc (first * cfg.psz.size) paStart flags
      (ks.map (· * cfg.psz.size)) r).2.mem ∧
    KernelEffect cfg krvm g X r.mem (mapPages cfg arch p krvm alloc (first * cfg.psz.size) paStart flags
      (ks.map (· * cfg.psz.size)) r).2.mem := by
  induction ks generalizing r with
  | nil => exact ⟨h, .refl X r.mem⟩
  | cons k ks ih =>
      obtain ⟨hpage, hcanon, hX⟩ := hks k List.mem_cons_self
      have hrest := fun j hj => hks j (List.mem_cons_of_mem k hj)
      rw [List.map_cons, mapPages, ← Nat.add_mul]
      rcases hpa : p.fit RangeStop.panic 64 (paStart + k * cfg.psz.size : Nat) with e | pa
      · rw [Eff.lift_error_bind]
        exact ⟨h, .refl X r.mem⟩
      · rw [Eff.lift_ok_bind]
        obtain ⟨hshared, heffect⟩ := @Shared.kernel_at cfg arch krvm g e₀ r (first + k)
          (.map (BitVec.ofNat 64 ((first + k) * cfg.psz.size)) (BitVec.ofNat 64 pa) flags (alloc r)) X h (halloc r)
          rfl hpage hcanon hX
        have hat : (mapAt cfg arch krvm alloc ((first + k) * cfg.psz.size) pa flags r).2 = step cfg arch krvm r
            (.map (BitVec.ofNat 64 ((first + k) * cfg.psz.size)) (BitVec.ofNat 64 pa) flags (alloc r)) := by
          unfold mapAt step exec
          dsimp only
          split <;> rename_i hpg <;> rw [hpg]
        rw [← hat] at hshared heffect
        rcases hmid : mapAt cfg arch krvm alloc ((first + k) * cfg.psz.size) pa flags r with ⟨e | _, r₁⟩
        · rw [hmid] at hshared heffect
          rw [Eff.bind_of_error hmid]
          exact ⟨hshared, heffect⟩
        · rw [hmid] at hshared heffect
          rw [Eff.bind_of_ok hmid]
          obtain ⟨hshared', heffect'⟩ := ih hrest hshared
          exact ⟨hshared', heffect.trans heffect'⟩

/-- The kernel's loop of `unmap_range`. -/
theorem Shared.unmapPages_kernel {first : Nat} {X : Nat → Prop} {ks : List Nat}
    (hks : ∀ k ∈ ks, (first + k) * cfg.psz.size < 2 ^ 64 ∧
      cfg.Canonical (BitVec.ofNat 64 ((first + k) * cfg.psz.size)) ∧ X (first + k))
    {r r' : Ram} (h : Shared cfg krvm g e₀ r.mem)
    (hr' : r' = (unmapPages cfg krvm (first * cfg.psz.size) (ks.map (· * cfg.psz.size)) r).2) :
    Shared cfg krvm g e₀ r'.mem ∧ KernelEffect cfg krvm g X r.mem r'.mem := by
  induction ks generalizing r with
  | nil =>
      rw [hr']
      exact ⟨h, .refl X r.mem⟩
  | cons k ks ih =>
      obtain ⟨hpage, hcanon, hX⟩ := hks k List.mem_cons_self
      unfold unmapPages at hr'
      rw [List.map_cons, List.foldl_cons, ← Nat.add_mul] at hr'
      have hnone : Unshared cfg krvm g r (.unmap (BitVec.ofNat 64 ((first + k) * cfg.psz.size))) :=
        fresh_nil _
      obtain ⟨hshared, heffect⟩ := @Shared.kernel_at cfg .amd64 krvm g e₀ r (first + k)
        (.unmap (BitVec.ofNat 64 ((first + k) * cfg.psz.size))) X h hnone rfl hpage hcanon hX
      obtain ⟨hshared', heffect'⟩ := ih (fun j hj => hks j (List.mem_cons_of_mem k hj)) hshared hr'
      exact ⟨hshared', heffect.trans heffect'⟩

theorem endPage_mul (first count : Nat) :
    endPage cfg (first * cfg.psz.size) (count * cfg.psz.size) = first + count := by
  have hpos := cfg.psz.size_pos
  unfold endPage
  rw [← Nat.add_mul, Nat.add_sub_assoc hpos, Nat.mul_comm, Nat.mul_add_div hpos,
    Nat.div_eq_of_lt (Nat.sub_lt hpos Nat.one_pos), Nat.add_zero]

/-- The kernel's `map_range` on whole pages of the upper half. -/
theorem Shared.mapRange_kernel {first count pa : Nat} {flags : Word}
    (halloc : HonestTables cfg krvm g.rootTable alloc) (hhigh : hihalf cfg ≤ first * cfg.psz.size)
    (htop : (first + count + 1) * cfg.psz.size < 2 ^ 64) {r : Ram} (h : Shared cfg krvm g e₀ r.mem) :
    Shared cfg krvm g e₀
      (mapRange cfg arch p krvm alloc (first * cfg.psz.size) pa (count * cfg.psz.size) flags r).2.mem ∧
    KernelEffect cfg krvm g (fun page => first ≤ page ∧ page < first + count) r.mem
      (mapRange cfg arch p krvm alloc (first * cfg.psz.size) pa (count * cfg.psz.size) flags r).2.mem := by
  have hend : first * cfg.psz.size + count * cfg.psz.size + cfg.psz.size < 2 ^ 64 := by
    rw [← Nat.add_mul, ← Nat.succ_mul]
    exact htop
  have hfirst : first * cfg.psz.size / cfg.psz.size = first := Nat.mul_div_cancel _ cfg.psz.size_pos
  have hlast : (first * cfg.psz.size + count * cfg.psz.size + cfg.psz.size - 1) / cfg.psz.size = first + count :=
    endPage_mul first count
  unfold mapRange
  rw [rangeEnd_eq hend, Eff.lift_ok_bind, hfirst, hlast, rangeOffsets_eq, Nat.add_sub_cancel_left]
  apply h.mapPages_kernel halloc
  intro k hk
  rw [List.mem_range] at hk
  have hlt : (first + k) * cfg.psz.size < 2 ^ 64 := by
    have hle : (first + k) * cfg.psz.size ≤ (first + count + 1) * cfg.psz.size := Nat.mul_le_mul_right _ (by omega)
    omega
  refine ⟨hlt, Or.inr ?_, Nat.le_add_right _ _, by omega⟩
  rw [toNat_ofNat_lt hlt, Nat.add_mul]
  unfold hihalf at hhigh
  omega

/-- The kernel's `unmap_range` on whole pages of the lower half. -/
theorem Shared.unmapRange_kernel {first count : Nat} (hlow : (first + count) * cfg.psz.size ≤ 2 ^ (cfg.vaBits - 1))
    {r : Ram} (h : Shared cfg krvm g e₀ r.mem) :
    Shared cfg krvm g e₀ (unmapRange cfg p krvm (first * cfg.psz.size) (count * cfg.psz.size) r).2.mem ∧
    KernelEffect cfg krvm g (fun page => (page + 1) * cfg.psz.size ≤ 2 ^ (cfg.vaBits - 1)) r.mem
      (unmapRange cfg p krvm (first * cfg.psz.size) (count * cfg.psz.size) r).2.mem := by
  have hsum : first * cfg.psz.size + count * cfg.psz.size ≤ 2 ^ (cfg.vaBits - 1) := by
    rw [← Nat.add_mul]
    exact hlow
  have hfirst : first * cfg.psz.size / cfg.psz.size = first := Nat.mul_div_cancel _ cfg.psz.size_pos
  have hlast : (first * cfg.psz.size + count * cfg.psz.size + cfg.psz.size - 1) / cfg.psz.size = first + count :=
    endPage_mul first count
  unfold unmapRange
  rw [rangeEnd_eq (pages_low hsum).1, Eff.lift_ok_bind, hfirst, hlast, rangeOffsets_eq, Nat.add_sub_cancel_left]
  apply h.unmapPages_kernel _ rfl
  intro k hk
  rw [List.mem_range] at hk
  have hle : (first + k + 1) * cfg.psz.size ≤ 2 ^ (cfg.vaBits - 1) :=
    (Nat.mul_le_mul_right _ (by omega)).trans hlow
  obtain ⟨hdouble, -, htop⟩ := cfg.half_pages
  have hlt : (first + k) * cfg.psz.size < 2 ^ (cfg.vaBits - 1) := by
    have hpos := cfg.psz.size_pos
    rw [Nat.succ_mul] at hle
    omega
  have hlt64 : (first + k) * cfg.psz.size < 2 ^ 64 := by omega
  refine ⟨hlt64, Or.inl ?_, hle⟩
  rw [toNat_ofNat_lt hlt64]
  exact hlt

end Ranges

end Glacier

end UnixKernel
