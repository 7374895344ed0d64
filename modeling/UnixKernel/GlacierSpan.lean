import UnixKernel.GlacierSupply

/-! `map_range` on a range of one half of the address space, byte for byte. The end of a range that reaches into the
last page of the address space is no word any more: a development build stops there, and in a release build the end is
zero and the range has no pages. -/

namespace UnixKernel

open Radix

namespace Glacier

variable (cfg : RvmCfg)

/-- The range lies in one half of the address space. -/
def InHalf (va size : Nat) : Prop := va + size ≤ 2 ^ (cfg.vaBits - 1) ∨ hihalf cfg ≤ va ∧ va + size ≤ 2 ^ 64

/-- Every byte of the range at `va` has the leaf word for the byte of the range at `pa`. -/
def Translates (g : Glacier) (va pa size : Nat) (flags : Word) (m : Mem) : Prop :=
  ∀ i < size, walk cfg m g.rootTable (BitVec.ofNat 64 (va + i)) =
    some (BitVec.ofNat 64 (pa + i) &&& cfg.psz.addrMask ||| flags)

/-- The range is mapped, and every page that it does not meet is as before. -/
structure SpanMapped (g : Glacier) (va pa size : Nat) (flags : Word) (m m' : Mem) : Prop where
  inside : Translates cfg g va pa size flags m'
  outside : ∀ va', cfg.Canonical va' → (∀ i < size, ¬cfg.SamePage (BitVec.ofNat 64 (va + i)) va') →
    walk cfg m' g.rootTable va' = walk cfg m g.rootTable va'

variable {cfg} {arch : Arch} {p : Profile} {g : Glacier} {alloc : TableAlloc} {va pa size : Nat} {flags : Word}
  {r r' : Ram}

/-! ### Bytes and pages -/

theorem InHalf.le (h : InHalf cfg va size) : va + size ≤ 2 ^ 64 := by
  rcases h with hlow | hhigh
  · exact hlow.trans (by obtain ⟨hdouble, -, htop⟩ := cfg.half_pages; omega)
  · exact hhigh.2

theorem InHalf.canonical (h : InHalf cfg va size) {i : Nat} (hi : i < size) :
    cfg.Canonical (BitVec.ofNat 64 (va + i)) := by
  have hle := h.le
  rw [RvmCfg.Canonical, toNat_ofNat_lt (by omega)]
  rcases h with hlow | hhigh
  · exact Or.inl (by omega)
  · exact Or.inr (hhigh.1.trans (Nat.le_add_right _ _))

theorem ofNat_page_and_addrMask (x : Nat) : BitVec.ofNat 64 (x / cfg.psz.size * cfg.psz.size) &&& cfg.psz.addrMask =
    BitVec.ofNat 64 x &&& cfg.psz.addrMask := by
  obtain ⟨q, hq⟩ := cfg.psz.size_dvd_word
  apply BitVec.eq_of_toNat_eq
  rw [BPage.toNat_and_addrMask, BPage.toNat_and_addrMask, BitVec.toNat_ofNat, BitVec.toNat_ofNat, hq,
    Nat.mod_mul_right_div_self, Nat.mod_mul_right_div_self, Nat.mul_div_cancel _ cfg.psz.size_pos]

theorem agree_page (x : Nat) :
    Agree cfg cfg.depth (BitVec.ofNat 64 (x / cfg.psz.size * cfg.psz.size)) (BitVec.ofNat 64 x) := by
  intro k hk
  rw [← cfg.index_and_addrMask hk, ofNat_page_and_addrMask, cfg.index_and_addrMask hk]

/-- The pages that a range meets. -/
theorem exists_byte_iff (hpos : 0 < size) {n : Nat} :
    (∃ i < size, (va + i) / cfg.psz.size = n) ↔ firstPage cfg va ≤ n ∧ n < endPage cfg va size := by
  have hpage := cfg.psz.size_pos
  unfold firstPage endPage
  constructor
  · rintro ⟨i, hi, rfl⟩
    refine ⟨Nat.div_le_div_right (Nat.le_add_right _ _), ?_⟩
    calc (va + i) / cfg.psz.size < (va + i + cfg.psz.size) / cfg.psz.size := by
          rw [Nat.add_div_right _ hpage]
          exact Nat.lt_succ_self _
      _ ≤ (va + size + cfg.psz.size - 1) / cfg.psz.size := Nat.div_le_div_right (by omega)
  · rintro ⟨hfirst, hend⟩
    rcases Nat.eq_or_lt_of_le hfirst with rfl | hlt
    · exact ⟨0, hpos, rfl⟩
    · -- a later page is met at its first byte
      have hva : va < n * cfg.psz.size := (Nat.div_lt_iff_lt_mul hpage).mp hlt
      have hsize : (n + 1) * cfg.psz.size ≤ va + size + cfg.psz.size - 1 := (Nat.le_div_iff_mul_le hpage).mp hend
      rw [Nat.add_mul, Nat.one_mul] at hsize
      refine ⟨n * cfg.psz.size - va, by omega, ?_⟩
      rw [Nat.add_sub_cancel' hva.le, Nat.mul_div_cancel _ hpage]

theorem mem_rangeOffsets (hpos : 0 < size) {off : Nat} :
    off ∈ rangeOffsets cfg (va / cfg.psz.size * cfg.psz.size) (endPage cfg va size * cfg.psz.size) ↔
      ∃ i < size, va / cfg.psz.size * cfg.psz.size + off = (va + i) / cfg.psz.size * cfg.psz.size := by
  rw [rangeOffsets_eq, List.mem_map]
  constructor
  · rintro ⟨k, hk, rfl⟩
    have hlt := Nat.lt_sub_iff_add_lt'.mp (List.mem_range.mp hk)
    obtain ⟨i, hi, heq⟩ := (@exists_byte_iff cfg va size hpos _).mpr ⟨Nat.le_add_right (va / cfg.psz.size) k, hlt⟩
    exact ⟨i, hi, by rw [heq, Nat.add_mul]⟩
  · rintro ⟨i, hi, heq⟩
    obtain ⟨hfirst, hend⟩ := exists_byte_iff hpos |>.mp ⟨i, hi, rfl⟩
    refine ⟨(va + i) / cfg.psz.size - va / cfg.psz.size, List.mem_range.mpr (Nat.sub_lt_sub_right hfirst hend), ?_⟩
    rw [Nat.sub_mul, ← heq, Nat.add_sub_cancel_left]

theorem page_congr (hmod : va % cfg.psz.size = pa % cfg.psz.size) {i off : Nat}
    (h : va / cfg.psz.size * cfg.psz.size + off = (va + i) / cfg.psz.size * cfg.psz.size) :
    pa / cfg.psz.size * cfg.psz.size + off = (pa + i) / cfg.psz.size * cfg.psz.size := by
  have hsplit : ∀ x, (x + i) / cfg.psz.size * cfg.psz.size =
      x / cfg.psz.size * cfg.psz.size + (x % cfg.psz.size + i) / cfg.psz.size * cfg.psz.size := by
    intro x
    conv_lhs => rw [← Nat.div_add_mod x cfg.psz.size, Nat.add_assoc, Nat.mul_add_div cfg.psz.size_pos]
    rw [Nat.add_mul]
  rw [hsplit] at h ⊢
  rw [Nat.add_left_cancel h, hmod]

/-- The pages of a range of one half take different paths. -/
theorem apart_span (h : InHalf cfg va size) (hpos : 0 < size) : Apart cfg
    ((rangeOffsets cfg (va / cfg.psz.size * cfg.psz.size) (endPage cfg va size * cfg.psz.size)).map
      (va / cfg.psz.size * cfg.psz.size + ·)) := by
  have hle := h.le
  intro a ha b hb hagree
  obtain ⟨off, hoff, rfl⟩ := List.mem_map.mp ha
  obtain ⟨off', hoff', rfl⟩ := List.mem_map.mp hb
  obtain ⟨i, hi, heq⟩ := (mem_rangeOffsets hpos).mp hoff
  obtain ⟨j, hj, heq'⟩ := (mem_rangeOffsets hpos).mp hoff'
  rw [heq, heq'] at hagree ⊢
  have hbytes : Agree cfg cfg.depth (BitVec.ofNat 64 (va + i)) (BitVec.ofNat 64 (va + j)) := fun k hk =>
    ((agree_page (va + i) k hk).symm.trans (hagree k hk)).trans (agree_page (va + j) k hk)
  rw [← samePage_iff_agree (h.canonical hi) (h.canonical hj), RvmCfg.samePage_iff_div, toNat_ofNat_lt (by omega),
    toNat_ofNat_lt (by omega)] at hbytes
  rw [hbytes]

/-! ### The end of a range -/

theorem rangeEnd_of_le {last : Nat} (h : va + size + cfg.psz.size ≤ 2 ^ 64) (hend : rangeEnd cfg p va size = .ok last) :
    last = endPage cfg va size * cfg.psz.size := by
  cases p with
  | dev => exact Except.ok.inj (hend.symm.trans (rangeEnd_eq (lt_of_rangeEnd hend)))
  | release => exact Except.ok.inj (hend.symm.trans (rangeEnd_release h))

theorem rangeEnd_of_lt (hle : va + size ≤ 2 ^ 64) (h : 2 ^ 64 < va + size + cfg.psz.size) :
    rangeEnd cfg .release va size = .ok 0 := by
  have hpos := cfg.psz.size_pos
  have hsize := cfg.psz.size_le
  unfold rangeEnd
  rw [Profile.fit_release_natCast, ok_bind, Profile.fit_release_natCast, ok_bind]
  have hsum : ((va + size) % 2 ^ 64 + cfg.psz.size) % 2 ^ 64 = va + size + cfg.psz.size - 2 ^ 64 := by
    rw [Nat.mod_add_mod, Nat.mod_eq_sub_mod h.le, Nat.mod_eq_of_lt (by omega)]
  have hone : ((va + size + cfg.psz.size - 2 ^ 64 : Nat) : Int) - 1 =
      ((va + size + cfg.psz.size - 2 ^ 64 - 1 : Nat) : Int) := by omega
  rw [hsum, hone, Profile.fit_of_lt (by omega), ok_bind, Nat.div_eq_of_lt (by omega), Nat.zero_mul]
  rfl

/-! ### The loop -/

theorem mapPages_cons_ok {vaStart paStart off : Nat} {offs : List Nat}
    (h : mapPages cfg arch p g alloc vaStart paStart flags (off :: offs) r = (.ok (), r')) :
    ∃ pa' r₁, BitVec.ofNat 64 pa' = BitVec.ofNat 64 (paStart + off) ∧
      mapAt cfg arch g alloc (vaStart + off) pa' flags r = (.ok (), r₁) ∧
      mapPages cfg arch p g alloc vaStart paStart flags offs r₁ = (.ok (), r') := by
  obtain ⟨pa', r₀, hlift, hround⟩ := Eff.bind_eq_ok.mp h
  obtain ⟨hfit, rfl⟩ := Eff.lift_eq_ok hlift
  obtain ⟨_, r₁, hfirst, hrest⟩ := Eff.bind_eq_ok.mp hround
  have hword := Profile.ofNat_of_fit hfit
  rw [BitVec.ofInt_natCast] at hword
  exact ⟨pa', r₁, hword, hfirst, hrest⟩

theorem mapPages_ok {vaStart paStart : Nat} {offs : List Nat} (hwf : WellFormed cfg r.mem g.rootTable)
    (halloc : FreshTables cfg g alloc) (hnodup : offs.Nodup) (hapart : Apart cfg (offs.map (vaStart + ·)))
    (hmap : mapPages cfg arch p g alloc vaStart paStart flags offs r = (.ok (), r')) :
    (∀ va, (∀ off ∈ offs, ¬Agree cfg cfg.depth (BitVec.ofNat 64 (vaStart + off)) va) →
      walk cfg r'.mem g.rootTable va = walk cfg r.mem g.rootTable va) ∧
    ∀ off ∈ offs, walk cfg r'.mem g.rootTable (BitVec.ofNat 64 (vaStart + off)) =
      present (BitVec.ofNat 64 (paStart + off) &&& cfg.psz.addrMask ||| flags) := by
  induction offs generalizing r with
  | nil =>
      cases hmap
      exact ⟨fun _ _ => rfl, fun _ h => absurd h List.not_mem_nil⟩
  | cons off offs ih =>
      rw [List.nodup_cons] at hnodup
      obtain ⟨pa', r₁, hword, hfirst, hrest⟩ := mapPages_cons_ok hmap
      obtain ⟨hwf₁, -, hhit, hmiss⟩ := mapAt_agree hwf halloc hfirst
      obtain ⟨hother, hmapped⟩ := ih hwf₁ hnodup.2
        (hapart.subset (List.map_subset _ (List.subset_cons_self off offs))) hrest
      constructor
      · intro va hva
        rw [List.forall_mem_cons] at hva
        exact (hother va hva.2).trans (hmiss va fun _ => hva.1)
      · refine List.forall_mem_cons.mpr ⟨?_, hmapped⟩
        rw [← hword, ← hhit rfl]
        exact hother _ (hapart.not_agree hnodup.1)

/-! ### The whole range -/

/-- A range that ends before the last page is mapped, if the call succeeds. -/
theorem mapRange_spans (hwf : WellFormed cfg r.mem g.rootTable) (halloc : FreshTables cfg g alloc)
    (hflags : flags &&& flagValid ≠ 0) (hpos : 0 < size) (hmod : va % cfg.psz.size = pa % cfg.psz.size)
    (hhalf : InHalf cfg va size) (hroom : va + size + cfg.psz.size ≤ 2 ^ 64)
    (hmap : mapRange cfg arch p g alloc va pa size flags r = (.ok (), r')) :
    SpanMapped cfg g va pa size flags r.mem r'.mem := by
  obtain ⟨last, r₀, hlift, hpages⟩ := Eff.bind_eq_ok.mp hmap
  obtain ⟨hend, rfl⟩ := Eff.lift_eq_ok hlift
  obtain rfl := rangeEnd_of_le hroom hend
  obtain ⟨hother, hmapped⟩ := mapPages_ok hwf halloc (nodup_rangeOffsets _ _) (apart_span hhalf hpos) hpages
  constructor
  · intro i hi
    have hle : va / cfg.psz.size * cfg.psz.size ≤ (va + i) / cfg.psz.size * cfg.psz.size :=
      Nat.mul_le_mul_right _ (Nat.div_le_div_right (Nat.le_add_right _ _))
    obtain ⟨off, hoff⟩ := Nat.exists_eq_add_of_le hle
    have hword := hmapped off ((mem_rangeOffsets hpos).mpr ⟨i, hi, hoff.symm⟩)
    rw [← hoff, page_congr hmod hoff.symm, ofNat_page_and_addrMask, present, if_neg (valid_or hflags)] at hword
    exact (walkFrom_agree (agree_page (va + i))).symm.trans hword
  · intro va' hva' hnot
    apply hother
    intro off hoff hagree
    obtain ⟨i, hi, heq⟩ := (mem_rangeOffsets hpos).mp hoff
    rw [heq] at hagree
    apply hnot i hi
    rw [samePage_iff_agree (hhalf.canonical hi) hva']
    exact fun k hk => (agree_page (va + i) k hk).symm.trans (hagree k hk)

/-- In a release build nothing is done for a range that reaches into the last page. -/
theorem mapRange_wraps (hle : va + size ≤ 2 ^ 64) (h : 2 ^ 64 < va + size + cfg.psz.size) (r : Ram) :
    mapRange cfg arch .release g alloc va pa size flags r = (.ok (), r) := by
  unfold mapRange
  rw [rangeEnd_of_lt hle h, Eff.lift_ok_bind, rangeOffsets, Nat.zero_sub, Nat.zero_div]
  rfl

/-- `map_range` does what it says it did, exactly if the build stops at an overflow, the range ends before the last
page, or it was mapped before. -/
theorem mapRange_maps_iff (hwf : WellFormed cfg r.mem g.rootTable) (halloc : FreshTables cfg g alloc)
    (hflags : flags &&& flagValid ≠ 0) (hpos : 0 < size) (hmod : va % cfg.psz.size = pa % cfg.psz.size)
    (hhalf : InHalf cfg va size) :
    (∀ r', mapRange cfg arch p g alloc va pa size flags r = (.ok (), r') →
      SpanMapped cfg g va pa size flags r.mem r'.mem) ↔
    p = .dev ∨ va + size + cfg.psz.size ≤ 2 ^ 64 ∨ Translates cfg g va pa size flags r.mem := by
  by_cases hroom : va + size + cfg.psz.size ≤ 2 ^ 64
  · exact iff_of_true (fun r' hmap => mapRange_spans hwf halloc hflags hpos hmod hhalf hroom hmap)
      (Or.inr (Or.inl hroom))
  cases p with
  | dev =>
      refine iff_of_true (fun r' hmap => ?_) (Or.inl rfl)
      exact absurd (lt_of_mapRange hmap).le hroom
  | release =>
      have hwraps := @mapRange_wraps cfg arch g alloc va pa size flags hhalf.le (Nat.lt_of_not_le hroom) r
      constructor
      · intro h
        exact Or.inr (Or.inr (h r hwraps).inside)
      · rintro (hdev | hle | hbefore)
        · cases hdev
        · exact absurd hle hroom
        · intro r' hmap
          obtain rfl : r = r' := congrArg Prod.snd (hwraps.symm.trans hmap)
          exact ⟨hbefore, fun _ _ _ => rfl⟩

/-- Pages for tables from `0x2000` on. -/
def spanTables : TableAlloc := unusedTables amd64Cfg ⟨0x1000, true⟩ fun _ => [some 0x2000, some 0x3000, some 0x4000]

/-- A range of two pages that begins and ends inside of a page, below the last page of the address space. -/
theorem mapRange_maps_below :
    (mapRange amd64Cfg .amd64 .release ⟨0x1000, true⟩ spanTables 0xffffffffffffd010 0x9000010 0x1000
      (Arch.amd64.mapFlag .dRw) blankRoot).1 = .ok () ∧
    SpanMapped amd64Cfg ⟨0x1000, true⟩ 0xffffffffffffd010 0x9000010 0x1000 (Arch.amd64.mapFlag .dRw) blankRoot.mem
      (mapRange amd64Cfg .amd64 .release ⟨0x1000, true⟩ spanTables 0xffffffffffffd010 0x9000010 0x1000
        (Arch.amd64.mapFlag .dRw) blankRoot).2.mem := by
  have hok : (mapRange amd64Cfg .amd64 .release ⟨0x1000, true⟩ spanTables 0xffffffffffffd010 0x9000010 0x1000
      (Arch.amd64.mapFlag .dRw) blankRoot).1 = .ok () := by decide +kernel
  have hmaps := (@mapRange_maps_iff amd64Cfg .amd64 .release ⟨0x1000, true⟩ spanTables 0xffffffffffffd010 0x9000010
    0x1000 (Arch.amd64.mapFlag .dRw) blankRoot blankRoot_wellFormed (freshTables_unused _ _ _) (by decide) (by decide)
    (by decide) (Or.inr ⟨by decide, by decide⟩)).mpr (Or.inr (Or.inl (by decide)))
  rcases hrun : mapRange amd64Cfg .amd64 .release ⟨0x1000, true⟩ spanTables 0xffffffffffffd010 0x9000010 0x1000
    (Arch.amd64.mapFlag .dRw) blankRoot with ⟨x, r'⟩
  rw [hrun] at hok
  obtain rfl : x = .ok () := hok
  exact ⟨rfl, hmaps r' hrun⟩

/-- The last page of the address space is not mapped, and the call says that it was. -/
theorem mapRange_skips_last_page :
    WellFormed amd64Cfg blankRoot.mem 0x1000 ∧ FreshTables amd64Cfg ⟨0x1000, true⟩ spanTables ∧
    InHalf amd64Cfg 0xfffffffffffff000 0x1000 ∧
    (mapRange amd64Cfg .amd64 .release ⟨0x1000, true⟩ spanTables 0xfffffffffffff000 0x9000000 0x1000
      (Arch.amd64.mapFlag .dRw) blankRoot).1 = .ok () ∧
    walk amd64Cfg (mapRange amd64Cfg .amd64 .release ⟨0x1000, true⟩ spanTables 0xfffffffffffff000 0x9000000 0x1000
      (Arch.amd64.mapFlag .dRw) blankRoot).2.mem 0x1000 0xfffffffffffff000 = none ∧
    (mapRange amd64Cfg .amd64 .dev ⟨0x1000, true⟩ spanTables 0xfffffffffffff000 0x9000000 0x1000
      (Arch.amd64.mapFlag .dRw) blankRoot).1 = .error .panic :=
  ⟨blankRoot_wellFormed, freshTables_unused _ _ _, Or.inr ⟨by decide, by decide⟩, by decide +kernel, by decide +kernel,
    by decide +kernel⟩

end Glacier

end UnixKernel
