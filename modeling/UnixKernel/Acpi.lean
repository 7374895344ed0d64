import UnixKernel.GlacierSupply
import UnixKernel.RefCounts

/-! The pages through which ACPI memory is read. A region is mapped by whole pages, each to itself, and `ACPI_MAP`
counts for every page the regions that hold it: the first one maps the page and the last one unmaps it. What was
mapped there before the first one is not recorded. -/

namespace UnixKernel

open Runs

/-- `align_down`. -/
def alignDown (val align : Nat) : Nat := if align = 0 then val else val / align * align

/-- `PhysicalMapping`, without the handler. -/
structure PhysicalMapping where
  physicalStart : Nat
  virtualStart : Nat
  regionLength : Nat
  mappedLength : Nat
  deriving DecidableEq, Repr

/-- The memory that the tables of `GLACIER` lie in, and `ACPI_MAP`. -/
structure AcpiState where
  ram : Ram
  acpiMap : Nat → Option Nat

namespace Acpi

open Glacier RefCounts

section Model

variable (cfg : RvmCfg) (arch : Arch) (p : Profile) (g : Glacier) (alloc : TableAlloc)

/-- `(start_page..end_page).step_by(page_size())`. -/
def pageSpan (physAddr size : Nat) : Except RangeStop (List Nat) := do
  let startPage := alignDown physAddr cfg.psz.size
  let sum ← p.fit .panic 64 (physAddr + size : Nat)
  let endPage ← p.fit .panic 64 (alignUp sum cfg.psz.size : Nat)
  pure ((rangeOffsets cfg startPage endPage).map (startPage + ·))

/-- One round of the loop of `map_physical_region`; the entry is made before the page is mapped. -/
def mapAddr (addr : Nat) : Eff AcpiState RangeStop Unit := fun s =>
  match s.acpiMap addr with
  | some rcnt => (.ok (), { s with acpiMap := Function.update s.acpiMap addr (some (rcnt + 1)) })
  | none =>
    match mapPage cfg arch g (BitVec.ofNat 64 addr) (BitVec.ofNat 64 addr) (arch.mapFlag .kRwo) (alloc s.ram) s.ram with
    | (.ok (), ram) => (.ok (), ⟨ram, Function.update s.acpiMap addr (some 1)⟩)
    | (.error _, ram) => (.error .panic, ⟨ram, Function.update s.acpiMap addr (some 1)⟩)

def mapAddrs : List Nat → Eff AcpiState RangeStop Unit
  | [] => pure ()
  | addr :: addrs => do
      mapAddr cfg arch g alloc addr
      mapAddrs addrs

/-- `NonNull::new_unchecked`, which a build with debug assertions refuses to call on null. -/
def nonNull (addr : Nat) : Except RangeStop Nat :=
  if p = .dev ∧ addr = 0 then .error .panic else .ok addr

def mapPhysicalRegion (physAddr size : Nat) : Eff AcpiState RangeStop PhysicalMapping := do
  let addrs ← Eff.lift (pageSpan cfg p physAddr size)
  mapAddrs cfg arch g alloc addrs
  -- the pages are mapped and counted by now
  let virtualStart ← Eff.lift (nonNull p physAddr)
  pure ⟨physAddr, virtualStart, size, size⟩

/-- `*rcnt -= 1`. The counts are natural numbers, so it is only at zero that they do not fit. -/
def decrement : Nat → Except RangeStop Nat
  | 0 => p.fit .panic 64 (-1)
  | rcnt + 1 => .ok rcnt

/-- One round of the loop of `unmap_physical_region`. -/
def unmapAddr (addr : Nat) : Eff AcpiState RangeStop Unit := fun s =>
  match s.acpiMap addr with
  | none => (.ok (), s)
  | some rcnt =>
    match decrement p rcnt with
    | .error e => (.error e, s)
    | .ok 0 => (.ok (), ⟨unmapPage cfg g (BitVec.ofNat 64 addr) s.ram, Function.update s.acpiMap addr none⟩)
    | .ok rcnt => (.ok (), { s with acpiMap := Function.update s.acpiMap addr (some rcnt) })

def unmapAddrs : List Nat → Eff AcpiState RangeStop Unit
  | [] => pure ()
  | addr :: addrs => do
      unmapAddr cfg p g addr
      unmapAddrs addrs

def unmapPhysicalRegion (region : PhysicalMapping) : Eff AcpiState RangeStop Unit := do
  let addrs ← Eff.lift (pageSpan cfg p region.physicalStart region.regionLength)
  unmapAddrs cfg p g addrs

end Model

/-! ### The pages of a region -/

/-- The page span of a region: from the page of its first byte to the end of the page of its last one. -/
def regionPages (cfg : RvmCfg) (physAddr size : Nat) : List Nat :=
  (List.range (endPage cfg physAddr size - firstPage cfg physAddr)).map
    fun k => (firstPage cfg physAddr + k) * cfg.psz.size

section Span

variable {cfg : RvmCfg} {p : Profile} {physAddr size : Nat}

theorem alignDown_eq (val : Nat) : alignDown val cfg.psz.size = firstPage cfg val * cfg.psz.size :=
  if_neg cfg.psz.size_pos.ne'

theorem alignUp_eq (physAddr size : Nat) :
    alignUp (physAddr + size) cfg.psz.size = endPage cfg physAddr size * cfg.psz.size := by
  have hpos := cfg.psz.size_pos
  rw [alignUp, if_neg hpos.ne', endPage, Nat.add_sub_assoc hpos]

theorem alignUp_le (h : physAddr + size ≤ 2 ^ 52) : alignUp (physAddr + size) cfg.psz.size ≤ 2 ^ 52 := by
  apply alignUp_le_of_dvd cfg.psz.size_pos _ h
  cases cfg.psz <;> decide

theorem pageSpan_eq (h : physAddr + size ≤ 2 ^ 52) :
    pageSpan cfg p physAddr size = .ok (regionPages cfg physAddr size) := by
  have hup := @alignUp_le cfg physAddr size h
  unfold pageSpan
  rw [Profile.fit_of_lt (h.trans_lt (by decide)), ok_bind, Profile.fit_of_lt (hup.trans_lt (by decide)), ok_bind,
    alignDown_eq, alignUp_eq, rangeOffsets_eq, List.map_map]
  refine congrArg _ (List.map_congr_left fun k _ => ?_)
  exact (Nat.add_mul _ _ _).symm

theorem nodup_regionPages (cfg : RvmCfg) (physAddr size : Nat) : (regionPages cfg physAddr size).Nodup := by
  apply List.Nodup.map _ List.nodup_range
  intro j k hjk
  exact Nat.add_left_cancel (Nat.eq_of_mul_eq_mul_right cfg.psz.size_pos hjk)

theorem exists_page_of_mem (h : physAddr + size ≤ 2 ^ 52) {a : Nat} (ha : a ∈ regionPages cfg physAddr size) :
    ∃ page, a = page * cfg.psz.size ∧ a < 2 ^ 52 := by
  obtain ⟨k, hk, rfl⟩ := List.mem_map.mp ha
  have hup := @alignUp_le cfg physAddr size h
  rw [alignUp_eq] at hup
  have hlt : firstPage cfg physAddr + k < endPage cfg physAddr size := by
    have := List.mem_range.mp hk
    omega
  exact ⟨_, rfl, ((Nat.mul_lt_mul_right cfg.psz.size_pos).mpr hlt).trans_le hup⟩

end Span

/-! ### Pages that are held -/

section Held

variable (cfg : RvmCfg) (g : Glacier)

/-- The address is mapped to the page that begins there. -/
def MapsToSelf (r : Ram) (a : Nat) : Prop :=
  (walk cfg r.mem g.rootTable (BitVec.ofNat 64 a)).map (pageAddr cfg) = some a

/-- The state after the pages of `held` have been mapped, those of several regions several times. -/
structure Tracks (s : AcpiState) (held : List Nat) : Prop where
  wellFormed : WellFormed cfg s.ram.mem g.rootTable
  counts : Counts s.acpiMap held
  maps : ∀ a ∈ held, MapsToSelf cfg g s.ram a
  apart : Apart cfg held

variable {cfg g} {arch : Arch} {p : Profile} {alloc : TableAlloc} {s s' : AcpiState} {held : List Nat} {a : Nat}

theorem Tracks.perm {held' : List Nat} (h : Tracks cfg g s held) (hperm : held.Perm held') : Tracks cfg g s held' where
  wellFormed := h.wellFormed
  counts := h.counts.perm hperm
  maps a ha := h.maps a (hperm.symm.subset ha)
  apart := h.apart.subset hperm.symm.subset

theorem pageAddr_self {page : Nat} (h : page * cfg.psz.size < 2 ^ 52) (f : MapFlag) :
    pageAddr cfg (BitVec.ofNat 64 (page * cfg.psz.size) &&& cfg.psz.addrMask ||| arch.mapFlag f) =
      page * cfg.psz.size := by
  rw [ofNat_and_addrMask (h.trans (by decide))]
  exact pageAddr_leafWord f h

/-- A round of the first loop. -/
theorem Tracks.mapAddr (h : Tracks cfg g s held) (halloc : FreshTables cfg g alloc)
    (ha : ∃ page, a = page * cfg.psz.size ∧ a < 2 ^ 52) (hapart : Apart cfg (a :: held))
    (hok : mapAddr cfg arch g alloc a s = (.ok (), s')) : Tracks cfg g s' (a :: held) := by
  unfold Acpi.mapAddr at hok
  split at hok
  · rename_i rcnt hrcnt
    obtain ⟨hmem, hcount⟩ := h.counts.of_some hrcnt
    cases hok
    refine ⟨h.wellFormed, ?_, List.forall_mem_cons.mpr ⟨h.maps a hmem, h.maps⟩, hapart⟩
    rw [hcount]
    exact h.counts.retain a
  · rename_i hnone
    have hmem := h.counts.of_none hnone
    split at hok
    · rename_i ram hmap
      cases hok
      obtain ⟨hwf, hhit, hmiss⟩ := mapPage_agree h.wellFormed (halloc s.ram) hmap
      refine ⟨hwf, ?_, List.forall_mem_cons.mpr ⟨?_, fun b hb => ?_⟩, hapart⟩
      · have hcounts := h.counts.retain a
        rwa [List.count_eq_zero.mpr hmem] at hcounts
      · obtain ⟨page, rfl, hlt⟩ := ha
        rw [MapsToSelf, hhit rfl _ fun _ _ => rfl, present, if_neg (valid_or (mapFlag_valid arch .kRwo)),
          Option.map_some, pageAddr_self hlt]
      · rw [MapsToSelf, hmiss]
        · exact h.maps b hb
        · intro _ hagree
          have hab := hapart a List.mem_cons_self b (List.mem_cons_of_mem a hb) hagree
          exact hmem (hab ▸ hb)
    · cases hok

/-- A round of the second loop: the page has a count, so it does not wrap. -/
theorem Tracks.unmapAddr (h : Tracks cfg g s (a :: held)) :
    ∃ s', unmapAddr cfg p g a s = (.ok (), s') ∧ Tracks cfg g s' held := by
  have hrcnt : s.acpiMap a = some (held.count a + 1) := by
    rw [h.counts a, if_pos List.mem_cons_self, List.count_cons_self]
  have hcounts := h.counts.release
  have hmaps := (List.forall_mem_cons.mp h.maps).2
  have hapart := h.apart.subset (List.subset_cons_self a held)
  unfold Acpi.unmapAddr decrement
  rw [hrcnt]
  rcases hcount : held.count a with _ | n
  · -- the last region with the page
    have hmem := List.count_eq_zero.mp hcount
    obtain ⟨hwf, hwalk⟩ := unmapPage_agree h.wellFormed (BitVec.ofNat 64 a)
    rw [if_neg hmem] at hcounts
    refine ⟨_, rfl, hwf, hcounts, fun b hb => ?_, hapart⟩
    rw [MapsToSelf, hwalk, if_neg]
    · exact hmaps b hb
    · intro hagree
      have hab := h.apart a List.mem_cons_self b (List.mem_cons_of_mem a hb) hagree
      exact hmem (hab ▸ hb)
  · have hmem : a ∈ held := List.count_pos_iff.mp (by omega)
    rw [if_pos hmem, hcount] at hcounts
    exact ⟨_, rfl, h.wellFormed, hcounts, hmaps, hapart⟩

theorem Tracks.mapAddrs {addrs : List Nat} (h : Tracks cfg g s held) (halloc : FreshTables cfg g alloc)
    (haddrs : ∀ a ∈ addrs, ∃ page, a = page * cfg.psz.size ∧ a < 2 ^ 52) (hapart : Apart cfg (addrs ++ held))
    (hok : mapAddrs cfg arch g alloc addrs s = (.ok (), s')) : Tracks cfg g s' (addrs ++ held) := by
  induction addrs generalizing s held with
  | nil =>
    cases hok
    exact h
  | cons a addrs ih =>
    rw [List.forall_mem_cons] at haddrs
    obtain ⟨_, s₁, hfirst, hrest⟩ := Eff.bind_eq_ok.mp hok
    have hperm : (addrs ++ a :: held).Perm (a :: addrs ++ held) := List.perm_middle
    have hhead : a :: held ⊆ a :: addrs ++ held :=
      List.cons_subset_cons a (List.subset_append_right addrs held)
    have h₁ := h.mapAddr halloc haddrs.1 (hapart.subset hhead) hfirst
    exact (ih h₁ haddrs.2 (hapart.subset hperm.subset) hrest).perm hperm

theorem Tracks.unmapAddrs {addrs : List Nat} (h : Tracks cfg g s (addrs ++ held)) :
    ∃ s', unmapAddrs cfg p g addrs s = (.ok (), s') ∧ Tracks cfg g s' held := by
  induction addrs generalizing s with
  | nil => exact ⟨s, rfl, h⟩
  | cons a addrs ih =>
    obtain ⟨s₁, hfirst, h₁⟩ := @Tracks.unmapAddr cfg g p s (addrs ++ held) a h
    obtain ⟨s₂, hrest, h₂⟩ := ih h₁
    refine ⟨s₂, ?_, h₂⟩
    rw [Acpi.unmapAddrs, Eff.bind_of_ok hfirst, hrest]

variable (cfg g) in
/-- A call of anyone else on the tables, that unmaps none of the pages and maps none to another place. -/
def Harmless (held : List Nat) (r : Ram) : PageCall → Prop
  | .map va pa flags answers => Fresh cfg (tables cfg r.mem g.rootTable) answers ∧
      ∀ a ∈ held, Agree cfg cfg.depth va (BitVec.ofNat 64 a) →
        flags &&& flagValid ≠ 0 ∧ pageAddr cfg (pa &&& cfg.psz.addrMask ||| flags) = a
  | .unmap va => ∀ a ∈ held, ¬Agree cfg cfg.depth va (BitVec.ofNat 64 a)

theorem Tracks.other {c : PageCall} (h : Tracks cfg g s held) (hc : Harmless cfg g held s.ram c) :
    Tracks cfg g { s with ram := Glacier.step cfg arch g s.ram c } held := by
  cases c with
  | map va pa flags answers =>
    obtain ⟨hfresh, hself⟩ := hc
    obtain ⟨hwf, hhit, hmiss⟩ := @mapPage_agree cfg arch g va pa flags answers s.ram _ _ h.wellFormed hfresh rfl
    refine ⟨hwf, h.counts, fun a ha => ?_, h.apart⟩
    by_cases hagree : (mapPage cfg arch g va pa flags answers s.ram).1 = .ok () ∧
        Agree cfg cfg.depth va (BitVec.ofNat 64 a)
    · obtain ⟨hvalid, haddr⟩ := hself a ha hagree.2
      rw [MapsToSelf]
      refine (congrArg _ (hhit hagree.1 _ hagree.2)).trans ?_
      rw [present, if_neg (valid_or hvalid), Option.map_some, haddr]
    · have hkept := hmiss _ (not_and.mp hagree)
      exact (congrArg _ hkept).trans (h.maps a ha)
  | unmap va =>
    obtain ⟨hwf, hwalk⟩ := unmapPage_agree h.wellFormed va
    refine ⟨hwf, h.counts, fun a ha => ?_, h.apart⟩
    have hkept := (hwalk (BitVec.ofNat 64 a)).trans (if_neg (hc a ha))
    exact (congrArg _ hkept).trans (h.maps a ha)

end Held

/-! ### Regions -/

/-- The kernel with the regions that are mapped and not yet unmapped. -/
structure Machine where
  state : AcpiState
  live : List PhysicalMapping
  stopped : Bool

inductive Call where
  | map (physAddr size : Nat)
  | unmap (region : PhysicalMapping)
  | other (call : PageCall)

section Regions

variable (cfg : RvmCfg) (arch : Arch) (p : Profile) (g : Glacier) (alloc : TableAlloc)

/-- Both calls hold `GLACIER` from their first line to their last, so nothing comes between their rounds. -/
def step (m : Machine) : Call → Machine
  | .map physAddr size =>
    match mapPhysicalRegion cfg arch p g alloc physAddr size m.state with
    | (.ok region, s) => { m with state := s, live := region :: m.live }
    | (.error _, s) => { m with state := s, stopped := true }
  | .unmap region =>
    match unmapPhysicalRegion cfg p g region m.state with
    | (.ok (), s) => { m with state := s, live := m.live.erase region }
    | (.error _, s) => { m with state := s, stopped := true }
  | .other c => { m with state := { m.state with ram := Glacier.step cfg arch g m.state.ram c } }

/-- The pages of a live region. -/
def pagesOf (region : PhysicalMapping) : List Nat :=
  regionPages cfg region.physicalStart region.regionLength

/-- The pages of the live regions. -/
def heldBy (live : List PhysicalMapping) : List Nat := live.flatMap (pagesOf cfg)

/-- A region is mapped below the end of what a leaf word can hold, onto pages that share their path with no other page
of a live region, there is memory for its tables, and a build with debug assertions does not map address 0; one is
unmapped that is live. -/
def Allowed (m : Machine) : Call → Prop
  | .map physAddr size => physAddr + size ≤ 2 ^ 52 ∧
      Apart cfg (regionPages cfg physAddr size ++ heldBy cfg m.live) ∧
      (mapAddrs cfg arch g alloc (regionPages cfg physAddr size) m.state).1.isOk = true ∧
      ¬(p = .dev ∧ physAddr = 0)
  | .unmap region => region ∈ m.live
  | .other c => Harmless cfg g (heldBy cfg m.live) m.state.ram c

/-- Every page is counted once for each live region it belongs to, the pages of the live regions are mapped to
themselves, and no call has stopped the kernel. -/
structure Coherent (m : Machine) : Prop where
  counts : ∀ a, m.state.acpiMap a =
    if ∃ region ∈ m.live, a ∈ pagesOf cfg region then some (m.live.countP (a ∈ pagesOf cfg ·)) else none
  maps : ∀ region ∈ m.live, ∀ a ∈ pagesOf cfg region, MapsToSelf cfg g m.state.ram a
  running : m.stopped = false

/-- What every call keeps. -/
structure Inv (m : Machine) : Prop where
  tracks : Tracks cfg g m.state (heldBy cfg m.live)
  below : ∀ region ∈ m.live, region.physicalStart + region.regionLength ≤ 2 ^ 52
  running : m.stopped = false

variable {cfg arch p g alloc} {m : Machine}

/-- Only the null address makes the kernel panic after the pages are mapped. -/
theorem nonNull_eq_ok {addr : Nat} (h : ¬(p = .dev ∧ addr = 0)) : nonNull p addr = .ok addr := if_neg h

theorem eq_of_nonNull {addr v : Nat} (h : nonNull p addr = .ok v) : v = addr := by
  unfold nonNull at h
  split_ifs at h
  cases h
  rfl

theorem Inv.coherent (h : Inv cfg g m) : Coherent cfg g m where
  counts a := by
    have hcount := count_flatMap_of_nodup (fun region (_ : region ∈ m.live) =>
      nodup_regionPages cfg region.physicalStart region.regionLength) a
    rw [h.tracks.counts a, heldBy]
    exact if_congr List.mem_flatMap (congrArg some hcount) rfl
  maps region hregion a ha := h.tracks.maps a (List.mem_flatMap.mpr ⟨region, hregion, ha⟩)
  running := h.running

theorem step_map {physAddr size : Nat} {region : PhysicalMapping} {s : AcpiState}
    (h : mapPhysicalRegion cfg arch p g alloc physAddr size m.state = (.ok region, s)) :
    step cfg arch p g alloc m (.map physAddr size) = ⟨s, region :: m.live, m.stopped⟩ := by
  simp only [step, h]

theorem step_unmap {region : PhysicalMapping} {s : AcpiState}
    (h : unmapPhysicalRegion cfg p g region m.state = (.ok (), s)) :
    step cfg arch p g alloc m (.unmap region) = ⟨s, m.live.erase region, m.stopped⟩ := by
  simp only [step, h]

theorem Inv.map {physAddr size : Nat} (h : Inv cfg g m) (halloc : FreshTables cfg g alloc)
    (hc : Allowed cfg arch p g alloc m (.map physAddr size)) :
    Inv cfg g (step cfg arch p g alloc m (.map physAddr size)) := by
  obtain ⟨hbelow, hapart, hok, hnull⟩ := hc
  rcases hloop : mapAddrs cfg arch g alloc (regionPages cfg physAddr size) m.state with ⟨e | u, s⟩
  · rw [hloop] at hok
    cases hok
  · have hmap : mapPhysicalRegion cfg arch p g alloc physAddr size m.state =
        (.ok ⟨physAddr, physAddr, size, size⟩, s) := by
      unfold mapPhysicalRegion
      rw [pageSpan_eq hbelow, Eff.lift_ok_bind, Eff.bind_of_ok hloop, nonNull_eq_ok hnull]
      rfl
    rw [step_map hmap]
    refine ⟨h.tracks.mapAddrs halloc (fun a => exists_page_of_mem hbelow) hapart hloop, ?_, h.running⟩
    exact List.forall_mem_cons.mpr ⟨hbelow, h.below⟩

theorem Inv.unmap {region : PhysicalMapping} (h : Inv cfg g m) (hc : region ∈ m.live) :
    Inv cfg g (step cfg arch p g alloc m (.unmap region)) := by
  have hperm : (heldBy cfg m.live).Perm (pagesOf cfg region ++ heldBy cfg (m.live.erase region)) :=
    (List.perm_cons_erase hc).flatMap_right (pagesOf cfg)
  obtain ⟨s, hloop, htracks⟩ := @Tracks.unmapAddrs cfg g p _ _ _ (h.tracks.perm hperm)
  have hunmap : unmapPhysicalRegion cfg p g region m.state = (.ok (), s) := by
    unfold unmapPhysicalRegion
    rw [pageSpan_eq (h.below region hc), Eff.lift_ok_bind]
    exact hloop
  rw [step_unmap hunmap]
  exact ⟨htracks, fun r hr => h.below r (List.mem_of_mem_erase hr), h.running⟩

theorem Inv.step {c : Call} (h : Inv cfg g m) (halloc : FreshTables cfg g alloc)
    (hc : Allowed cfg arch p g alloc m c) : Inv cfg g (step cfg arch p g alloc m c) := by
  cases c with
  | map physAddr size => exact h.map halloc hc
  | unmap region => exact h.unmap hc
  | other c => exact ⟨h.tracks.other hc, h.below, h.running⟩

/-- `ACPI_MAP` before the first region. -/
def Machine.idle (ram : Ram) : Machine := ⟨⟨ram, fun _ => none⟩, [], false⟩

theorem inv_idle {ram : Ram} (hwf : WellFormed cfg ram.mem g.rootTable) : Inv cfg g (Machine.idle ram) where
  tracks := ⟨hwf, counts_nil, fun _ ha => absurd ha List.not_mem_nil, fun _ ha => absurd ha List.not_mem_nil⟩
  below _ hregion := absurd hregion List.not_mem_nil
  running := rfl

/-- In any order of the calls the counts are right, the pages of the live regions are mapped to themselves, and no
count wraps. -/
theorem always_coherent {ram : Ram} {calls : List Call} (hwf : WellFormed cfg ram.mem g.rootTable)
    (halloc : FreshTables cfg g alloc)
    (hcalls : Admits (Acpi.step cfg arch p g alloc) (Allowed cfg arch p g alloc) (Machine.idle ram) calls) :
    Always (Acpi.step cfg arch p g alloc) (Coherent cfg g) (Machine.idle ram) calls := by
  have hkeep : ∀ m c, Inv cfg g m → Allowed cfg arch p g alloc m c → Inv cfg g (Acpi.step cfg arch p g alloc m c) :=
    fun m c h hc => h.step halloc hc
  apply (always_iff_admits (fun m => Inv.coherent) (fun m c h hc _ => hkeep m c h hc) (fun m c _ hc _ => hc)
    (inv_idle hwf) hcalls).2
  exact hcalls

end Regions

def sampleTables : TableAlloc := unusedTables amd64Cfg ⟨0x1000, true⟩ fun _ => [some 0x2000, some 0x7000, some 0x8000]

/-- Two regions share a page, and the first one is given back. -/
def sharedPage : List Call := [.map 0x3ffc 8, .map 0x4010 4, .unmap ⟨0x3ffc, 0x3ffc, 8, 8⟩]

theorem always_coherent_sharedPage :
    (run (step amd64Cfg .amd64 .dev ⟨0x1000, true⟩ sampleTables) (Machine.idle blankRoot) sharedPage).live =
      [⟨0x4010, 0x4010, 4, 4⟩] ∧
    Coherent amd64Cfg ⟨0x1000, true⟩
      (run (step amd64Cfg .amd64 .dev ⟨0x1000, true⟩ sampleTables) (Machine.idle blankRoot) sharedPage) := by
  refine ⟨by decide +kernel, ?_⟩
  apply @always_coherent amd64Cfg .amd64 .dev ⟨0x1000, true⟩ sampleTables blankRoot sharedPage
  · exact blankRoot_wellFormed
  · exact freshTables_unused _ _ _
  · exact ⟨⟨by decide, by decide +kernel, by decide +kernel, by decide⟩,
      ⟨by decide, by decide +kernel, by decide +kernel, by decide⟩,
      by show _ ∈ Machine.live _; decide +kernel, trivial⟩
  · exact List.prefix_rfl

/-- Two regions as far apart as the tables reach: the second one is mapped in the place of the first. -/
def farApart : List Call := [.map 0x3000 4, .map (2 ^ 48 + 0x3000) 4]

theorem maps_fail_farApart :
    WellFormed amd64Cfg blankRoot.mem 0x1000 ∧ FreshTables amd64Cfg ⟨0x1000, true⟩ sampleTables ∧
    (run (step amd64Cfg .amd64 .dev ⟨0x1000, true⟩ sampleTables) (Machine.idle blankRoot) farApart).live =
      [⟨2 ^ 48 + 0x3000, 2 ^ 48 + 0x3000, 4, 4⟩, ⟨0x3000, 0x3000, 4, 4⟩] ∧
    (run (step amd64Cfg .amd64 .dev ⟨0x1000, true⟩ sampleTables) (Machine.idle blankRoot) farApart).stopped = false ∧
    ¬Coherent amd64Cfg ⟨0x1000, true⟩
      (run (step amd64Cfg .amd64 .dev ⟨0x1000, true⟩ sampleTables) (Machine.idle blankRoot) farApart) := by
  refine ⟨blankRoot_wellFormed, freshTables_unused _ _ _, by decide +kernel, by decide +kernel, fun h => ?_⟩
  have hmaps := h.maps ⟨0x3000, 0x3000, 4, 4⟩ (by decide +kernel) 0x3000 (by decide +kernel)
  exact absurd hmaps (by unfold MapsToSelf; decide +kernel)

/-! ### One region mapped and unmapped -/

section RoundTrip

variable {cfg : RvmCfg} {arch : Arch} {p : Profile} {g : Glacier} {alloc : TableAlloc} {s s' : AcpiState}
  {addrs : List Nat}

theorem nodup_pageSpan {physAddr size : Nat} (h : pageSpan cfg p physAddr size = .ok addrs) : addrs.Nodup := by
  obtain ⟨sum, -, h⟩ := bind_eq_ok.mp h
  obtain ⟨endPage, -, h⟩ := bind_eq_ok.mp h
  cases h
  apply (List.nodup_range.map _).map
  · exact fun j k hjk => Nat.add_left_cancel hjk
  · exact fun j k hjk => Nat.eq_of_mul_eq_mul_right cfg.psz.size_pos hjk

/-- On pages that nobody holds the first loop maps every one of them, and writes over what was there. -/
theorem mapAddrs_fresh (hwf : WellFormed cfg s.ram.mem g.rootTable) (halloc : FreshTables cfg g alloc)
    (hnodup : addrs.Nodup) (hnone : ∀ a ∈ addrs, s.acpiMap a = none)
    (hok : mapAddrs cfg arch g alloc addrs s = (.ok (), s')) :
    WellFormed cfg s'.ram.mem g.rootTable ∧ (∀ a ∈ addrs, s'.acpiMap a = some 1) ∧
    (∀ a, a ∉ addrs → s'.acpiMap a = s.acpiMap a) ∧
    ∀ va, (∀ a ∈ addrs, ¬Agree cfg cfg.depth (BitVec.ofNat 64 a) va) →
      walk cfg s'.ram.mem g.rootTable va = walk cfg s.ram.mem g.rootTable va := by
  induction addrs generalizing s with
  | nil =>
    cases hok
    exact ⟨hwf, fun a ha => absurd ha List.not_mem_nil, fun _ _ => rfl, fun _ _ => rfl⟩
  | cons a addrs ih =>
    rw [List.nodup_cons] at hnodup
    obtain ⟨_, s₁, hfirst, hrest⟩ := Eff.bind_eq_ok.mp hok
    unfold mapAddr at hfirst
    rw [hnone a List.mem_cons_self] at hfirst
    dsimp only at hfirst
    split at hfirst
    · rename_i ram hmap
      cases hfirst
      obtain ⟨hwf₁, -, hmiss⟩ := mapPage_agree hwf (halloc s.ram) hmap
      have hother : ∀ b ≠ a, Function.update s.acpiMap a (some 1) b = s.acpiMap b :=
        fun b hb => Function.update_of_ne hb _ _
      obtain ⟨hwf₂, hcount, hkept, hwalk⟩ := ih hwf₁ hnodup.2 (fun b hb =>
        (hother b (ne_of_mem_of_not_mem hb hnodup.1)).trans (hnone b (List.mem_cons_of_mem a hb))) hrest
      refine ⟨hwf₂, List.forall_mem_cons.mpr ⟨?_, hcount⟩, fun b hb => ?_, fun va hva => ?_⟩
      · exact (hkept a hnodup.1).trans (Function.update_self _ _ _)
      · rw [List.mem_cons, not_or] at hb
        exact (hkept b hb.2).trans (hother b hb.1)
      · rw [List.forall_mem_cons] at hva
        exact (hwalk va hva.2).trans (hmiss va fun _ => hva.1)
    · cases hfirst

/-- On pages that one region holds the second loop unmaps every one of them. -/
theorem unmapAddrs_last (hwf : WellFormed cfg s.ram.mem g.rootTable) (hnodup : addrs.Nodup)
    (hone : ∀ a ∈ addrs, s.acpiMap a = some 1) :
    (unmapAddrs cfg p g addrs s).1 = .ok () ∧
    ∀ va, walk cfg (unmapAddrs cfg p g addrs s).2.ram.mem g.rootTable va =
      if ∃ a ∈ addrs, Agree cfg cfg.depth (BitVec.ofNat 64 a) va then none
      else walk cfg s.ram.mem g.rootTable va := by
  induction addrs generalizing s with
  | nil =>
    refine ⟨rfl, fun va => ?_⟩
    rw [if_neg (by simp)]
    rfl
  | cons a addrs ih =>
    rw [List.nodup_cons] at hnodup
    rw [List.forall_mem_cons] at hone
    have hfirst : unmapAddr cfg p g a s =
        (.ok (), ⟨unmapPage cfg g (BitVec.ofNat 64 a) s.ram, Function.update s.acpiMap a none⟩) := by
      unfold unmapAddr
      rw [hone.1]
      rfl
    obtain ⟨hwf₁, hwalk⟩ := unmapPage_agree hwf (BitVec.ofNat 64 a)
    obtain ⟨hok, hrest⟩ := @ih ⟨unmapPage cfg g (BitVec.ofNat 64 a) s.ram, Function.update s.acpiMap a none⟩ hwf₁
      hnodup.2 fun b hb => by
        rw [← hone.2 b hb]
        exact Function.update_of_ne (ne_of_mem_of_not_mem hb hnodup.1) _ _
    rw [unmapAddrs, Eff.bind_of_ok hfirst]
    refine ⟨hok, fun va => ?_⟩
    rw [hrest va, hwalk va]
    exact ite_exists_mem_cons

/-- The translations are as before exactly if none of the pages had one. -/
theorem roundTrip_walk_iff {physAddr size : Nat} {region : PhysicalMapping}
    (hwf : WellFormed cfg s.ram.mem g.rootTable) (halloc : FreshTables cfg g alloc)
    (hidle : ∀ a, s.acpiMap a = none)
    (hmap : mapPhysicalRegion cfg arch p g alloc physAddr size s = (.ok region, s')) :
    (unmapPhysicalRegion cfg p g region s').1 = .ok () ∧
    ((∀ va, walk cfg (unmapPhysicalRegion cfg p g region s').2.ram.mem g.rootTable va =
        walk cfg s.ram.mem g.rootTable va) ↔
      ∀ addrs, pageSpan cfg p physAddr size = .ok addrs →
        ∀ a ∈ addrs, walk cfg s.ram.mem g.rootTable (BitVec.ofNat 64 a) = none) := by
  obtain ⟨addrs, s₁, hlift, hrest⟩ := Eff.bind_eq_ok.mp hmap
  obtain ⟨hspan, rfl⟩ := Eff.lift_eq_ok hlift
  obtain ⟨_, s₂, hloop, htail⟩ := Eff.bind_eq_ok.mp hrest
  obtain ⟨v, s₃, hstart, hret⟩ := Eff.bind_eq_ok.mp htail
  cases hret
  obtain ⟨hv, rfl⟩ := Eff.lift_eq_ok hstart
  rw [eq_of_nonNull hv]
  have hnodup := nodup_pageSpan hspan
  obtain ⟨hwf', hone, -, hkept⟩ := mapAddrs_fresh hwf halloc hnodup (fun a _ => hidle a) hloop
  obtain ⟨hok, hwalk⟩ := @unmapAddrs_last cfg p g s' addrs hwf' hnodup hone
  have hunmap : unmapPhysicalRegion cfg p g ⟨physAddr, physAddr, size, size⟩ s' = unmapAddrs cfg p g addrs s' := by
    unfold unmapPhysicalRegion
    rw [hspan, Eff.lift_ok_bind]
  rw [hunmap]
  refine ⟨hok, ?_, ?_⟩
  · intro hsame addrs' haddrs' a ha
    rw [hspan] at haddrs'
    cases haddrs'
    rw [← hsame, hwalk, if_pos ⟨a, ha, fun _ _ => rfl⟩]
  · intro hbefore va
    rw [hwalk]
    split_ifs with hhit
    · obtain ⟨a, ha, hagree⟩ := hhit
      exact (hbefore addrs hspan a ha).symm.trans (walkFrom_agree hagree)
    · exact hkept va fun a ha hagree => hhit ⟨a, ha, hagree⟩

end RoundTrip

/-- A region on two pages without a translation. -/
def blankMapped : AcpiState :=
  (mapPhysicalRegion amd64Cfg .amd64 .dev ⟨0x1000, true⟩ sampleTables 0x3ffc 8 ⟨blankRoot, fun _ => none⟩).2

theorem roundTrip_walk_blank :
    walk amd64Cfg (unmapPhysicalRegion amd64Cfg .dev ⟨0x1000, true⟩ ⟨0x3ffc, 0x3ffc, 8, 8⟩
      blankMapped).2.ram.mem 0x1000 0x4000 = walk amd64Cfg blankRoot.mem 0x1000 0x4000 := by
  have hok : (mapPhysicalRegion amd64Cfg .amd64 .dev ⟨0x1000, true⟩ sampleTables 0x3ffc 8
      ⟨blankRoot, fun _ => none⟩).1 = .ok ⟨0x3ffc, 0x3ffc, 8, 8⟩ := by decide +kernel
  have hround := @roundTrip_walk_iff amd64Cfg .amd64 .dev ⟨0x1000, true⟩ sampleTables ⟨blankRoot, fun _ => none⟩
    blankMapped 0x3ffc 8 ⟨0x3ffc, 0x3ffc, 8, 8⟩ blankRoot_wellFormed (freshTables_unused _ _ _) (fun _ => rfl)
    (by rw [← hok, blankMapped])
  refine hround.2.mpr (fun addrs haddrs => ?_) 0x4000
  have hspan : pageSpan amd64Cfg .dev 0x3ffc 8 = .ok [0x3000, 0x4000] := by decide +kernel
  cases hspan.symm.trans haddrs
  decide +kernel

/-- A page of memory, and behind it one with the tables of the firmware. -/
def tablesLayout : List RAMDescriptor := [⟨.conv, 0x3000, 1⟩, ⟨.acpiReclaim, 0x4000, 1⟩]

/-- What `glacier::init` and `remap` make of the layout. -/
def bootMaps : Except RangeStop Unit × Ram :=
  (do
    mapLayout amd64Cfg .amd64 .dev ⟨0x1000, true⟩ sampleTables initFlag tablesLayout
    mapLayout amd64Cfg .amd64 .dev ⟨0x1000, true⟩ sampleTables remapFlag tablesLayout : Eff Ram RangeStop Unit)
    blankRoot

/-- A table is read and let go, and its page is no longer mapped. -/
theorem roundTrip_walk_fails_booted :
    WellFormed amd64Cfg bootMaps.2.mem 0x1000 ∧ FreshTables amd64Cfg ⟨0x1000, true⟩ sampleTables ∧
    bootMaps.1 = .ok () ∧
    (mapPhysicalRegion amd64Cfg .amd64 .dev ⟨0x1000, true⟩ sampleTables 0x4010 36
      ⟨bootMaps.2, fun _ => none⟩).1 = .ok ⟨0x4010, 0x4010, 36, 36⟩ ∧
    walk amd64Cfg bootMaps.2.mem 0x1000 0x4000 = some (0x4000 ||| Arch.amd64.mapFlag .kRwo) ∧
    walk amd64Cfg (unmapPhysicalRegion amd64Cfg .dev ⟨0x1000, true⟩ ⟨0x4010, 0x4010, 36, 36⟩
      (mapPhysicalRegion amd64Cfg .amd64 .dev ⟨0x1000, true⟩ sampleTables 0x4010 36
        ⟨bootMaps.2, fun _ => none⟩).2).2.ram.mem 0x1000 0x4000 = none :=
  ⟨by decide +kernel, freshTables_unused _ _ _, by decide +kernel, by decide +kernel, by decide +kernel,
    by decide +kernel⟩

end Acpi

end UnixKernel
