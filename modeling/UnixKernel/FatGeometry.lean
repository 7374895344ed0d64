import UnixKernel.FatDir

/-! The layout of a FAT volume: where the clusters lie and which arithmetic finds them. `clust_cnt` takes the
size of the root directory in `u16`, `clust2sct` in `usize`, and `new` checks no field of the boot sector. -/

namespace UnixKernel

/-- The fields are numbers of the types of the source. -/
structure BootParamBlock.Typed (bpb : BootParamBlock) : Prop where
  bytsPerSec : bpb.bytsPerSec < 2 ^ 16
  secPerClus : bpb.secPerClus < 2 ^ 8
  rsvdSecCnt : bpb.rsvdSecCnt < 2 ^ 16
  numFats : bpb.numFats < 2 ^ 8
  rootEntCnt : bpb.rootEntCnt < 2 ^ 16
  totSec16 : bpb.totSec16 < 2 ^ 16
  fatSz16 : bpb.fatSz16 < 2 ^ 16
  totSec32 : bpb.totSec32 < 2 ^ 32

namespace FileAllocTable

variable (p : Profile) (fs : FileAllocTable)

/-- `root`. The entry has a name no path can have, and number 0. -/
def root : Except Halt FatFile := do
  let clust := match (← fatType p fs) with
    | .fat32 ext32 => ext32.rootClus
    | _ => 0
  pure ⟨⟨[0x2f, 0x20, 0x20, 0x20, 0x20, 0x20, 0x20, 0x20], [0x20, 0x20, 0x20], 0x10,
    clust >>> 16, clust &&& 0xffff, 0⟩, fs, 0⟩

/-- The arithmetic of `next_clust`: the kind of the table, the sector of the entry and its place there. -/
def entryPlace (clust : Nat) : Except Halt (FatType × Nat × Nat) := do
  let fatType ← fatType p fs
  let fatOff := fatType.fatOff clust
  let fatSct := fs.bpb.rsvdSecCnt + (← quot fatOff fs.bpb.bytsPerSec)
  pure (fatType, fatSct, fatOff % fs.bpb.bytsPerSec)

/-- What `next_clust` does behind its arithmetic: a read of a block, and a slice of it. -/
theorem nextClust_eq_entryPlace (clust : Nat) : nextClust p fs clust = (do
    let (fatType, fatSct, entOff) ← entryPlace p fs clust
    match fs.part.readBlock fs.part.blockSize fatSct with
    | none => pure none
    | some buf =>
        let entry ← fatType.entry clust buf entOff
        pure (if fatType.eoc ≤ entry then none else some entry)) := by
  unfold nextClust entryPlace
  cases fatType p fs with
  | error e => rfl
  | ok ty =>
      rw [ok_bind, ok_bind]
      dsimp only
      cases quot (ty.fatOff clust) fs.bpb.bytsPerSec <;> rfl

/-- The sectors of the volume, from the one of its two counts that is set. -/
def sectorCount : Nat := max fs.bpb.totSec32 fs.bpb.totSec16

/-- The sectors in front of the data area: reserved ones, tables and root directory. -/
def frontSectors : Nat := fs.bpb.rsvdSecCnt + fs.bpb.numFats * fs.fatSz + fs.rootDirSectors

/-- The bytes of the root directory, made up to whole sectors by the division that follows. -/
def rootBytes : Nat := fs.bpb.rootEntCnt * dirEntSize + (fs.bpb.bytsPerSec - 1)

/-- The clusters behind a root directory of `root` sectors. -/
def countWith (root : Nat) : Nat :=
  (fs.sectorCount - (fs.bpb.rsvdSecCnt + fs.bpb.numFats * fs.fatSz + root)) / fs.bpb.secPerClus

/-- The areas of the volume lie one behind the other and inside it. -/
structure Fits : Prop where
  typed : fs.bpb.Typed
  sector : 0 < fs.bpb.bytsPerSec
  cluster : 0 < fs.bpb.secPerClus
  front : fs.frontSectors ≤ fs.sectorCount

/-- The root directory of `clust_cnt` leaves room for as many clusters as the real one. -/
def SameCount : Profile → Prop
  | .dev => fs.rootBytes < 2 ^ 16
  | .release => fs.countWith (fs.rootBytes % 2 ^ 16 / fs.bpb.bytsPerSec) = fs.countWith fs.rootDirSectors

/-- Every cluster that `clust_cnt` counts has its sectors behind the front, inside the volume and apart from
those of every other one. -/
def LaidOut : Prop :=
  ∃ n, clustCnt p fs = .ok n ∧ ∀ c, 2 ≤ c → c ≤ n + 1 → ∃ s, clust2sct p fs c = .ok s ∧
    fs.frontSectors ≤ s ∧ s + fs.bpb.secPerClus ≤ fs.sectorCount ∧
    ∀ c' s', 2 ≤ c' → c' ≤ n + 1 → c' ≠ c → clust2sct p fs c' = .ok s' →
      s + fs.bpb.secPerClus ≤ s' ∨ s' + fs.bpb.secPerClus ≤ s

variable {p fs}

theorem typed_of_new {part : Volume} (h : new part = some fs) : fs.bpb.Typed := by
  obtain ⟨buf, -, rfl⟩ := new_eq h
  exact ⟨field_lt buf 11 2, field_lt buf 13 1, field_lt buf 14 2, field_lt buf 16 1, field_lt buf 17 2,
    field_lt buf 19 2, field_lt buf 22 2, field_lt buf 32 4⟩

theorem sectorCount_lt (h : fs.bpb.Typed) : fs.sectorCount < 2 ^ 32 := by
  have h16 := h.totSec16
  have h32 := h.totSec32
  unfold sectorCount
  omega

/-! ### `clust2sct` -/

theorem clust2sct_eq {c : Nat} (hpos : 0 < fs.bpb.bytsPerSec) (hlt : fs.bpb.bytsPerSec < 2 ^ 16) (hc : 2 ≤ c)
    (hc32 : c - 2 < 2 ^ 32) : clust2sct p fs c = .ok (fs.frontSectors + (c - 2) * fs.bpb.secPerClus) := by
  have hround : p.fit Halt.panic 16 ((fs.bpb.bytsPerSec : Int) - 1) = .ok (fs.bpb.bytsPerSec - 1) := fit_round hpos hlt
  have hrel : p.fit Halt.panic 32 ((c : Int) - 2) = .ok (c - 2) := by
    rw [show (c : Int) - 2 = (c - 2 : Nat) by omega, Profile.fit_of_lt hc32]
  unfold clust2sct
  rw [hround, ok_bind, quot, if_neg hpos.ne', ok_bind, hrel, ok_bind]
  rfl

theorem sector_le {base spc c c' : Nat} (hc : 2 ≤ c) (hlt : c < c') :
    base + (c - 2) * spc + spc ≤ base + (c' - 2) * spc := by
  have hstep : (c - 2 + 1) * spc ≤ (c' - 2) * spc := Nat.mul_le_mul_right spc (by omega)
  rw [Nat.succ_mul] at hstep
  omega

/-! ### `clust_cnt` -/

theorem clustCnt_eq {root : Nat} (hfits : fs.Fits) (hroot : rootDirSct p fs = .ok root)
    (hle : root ≤ fs.rootDirSectors) : clustCnt p fs = .ok (fs.countWith root) := by
  have htotal := sectorCount_lt hfits.typed
  have hfront := hfits.front
  unfold frontSectors at hfront
  unfold clustCnt
  rw [hroot, ← sectorCount, ok_bind, ← Nat.cast_mul, Profile.fit_of_lt (by omega), ok_bind, ← Nat.cast_add,
    Profile.fit_of_lt (by omega), ok_bind, ← Nat.cast_add, Profile.fit_of_lt (by omega), ok_bind,
    Profile.fit_sub (by omega) htotal, ok_bind]
  exact if_neg hfits.cluster.ne'

theorem rootDirSct_release_le : fs.rootBytes % 2 ^ 16 / fs.bpb.bytsPerSec ≤ fs.rootDirSectors :=
  Nat.div_le_div_right (Nat.mod_le _ _)

theorem countWith_anti {root root' : Nat} (hle : root ≤ root') : fs.countWith root' ≤ fs.countWith root :=
  Nat.div_le_div_right (by omega)

theorem clustCnt_of_fits (hfits : fs.Fits) :
    clustCnt .release fs = .ok (fs.countWith (fs.rootBytes % 2 ^ 16 / fs.bpb.bytsPerSec)) ∧
      (fs.rootBytes < 2 ^ 16 → clustCnt .dev fs = .ok (fs.countWith fs.rootDirSectors)) ∧
      (2 ^ 16 ≤ fs.rootBytes → clustCnt .dev fs = .error .panic) := by
  have hlt := hfits.typed.bytsPerSec
  refine ⟨?_, fun hsum => ?_, fun hsum => ?_⟩
  · exact clustCnt_eq hfits (rootDirSct_release hfits.sector hlt) rootDirSct_release_le
  · exact clustCnt_eq hfits (rootDirSct_of_lt hfits.sector hlt hsum) (Nat.le_refl _)
  · unfold clustCnt
    rw [rootDirSct_dev hfits.sector hlt hsum]
    rfl

/-- The clusters of a volume with `n` of them lie in it if and only if there is room for `n`. -/
theorem laidOut_iff_of_count {n : Nat} (hfits : fs.Fits) (hn : clustCnt p fs = .ok n) (hle : n ≤ fs.sectorCount) :
    LaidOut p fs ↔ n ≤ fs.countWith fs.rootDirSectors := by
  have htotal := sectorCount_lt hfits.typed
  have hfront := hfits.front
  have hroom : ∀ k, k ≤ fs.countWith fs.rootDirSectors ↔ fs.frontSectors + k * fs.bpb.secPerClus ≤ fs.sectorCount := by
    intro k
    rw [countWith, ← frontSectors, Nat.le_div_iff_mul_le hfits.cluster]
    omega
  have hsct : ∀ c, 2 ≤ c → c ≤ n + 1 →
      clust2sct p fs c = .ok (fs.frontSectors + (c - 2) * fs.bpb.secPerClus) := fun c hc hcn =>
    clust2sct_eq hfits.sector hfits.typed.bytsPerSec hc (by omega)
  constructor
  · rintro ⟨m, hm, hall⟩
    obtain rfl : n = m := Except.ok.inj (hn.symm.trans hm)
    rcases Nat.eq_zero_or_pos n with rfl | hpos
    · exact Nat.zero_le _
    · -- the last cluster that is counted ends inside the volume
      obtain ⟨s, hs, -, hend, -⟩ := hall (n + 1) (by omega) (Nat.le_refl _)
      obtain rfl := Except.ok.inj ((hsct (n + 1) (by omega) (Nat.le_refl _)).symm.trans hs)
      rw [hroom, show n = n + 1 - 2 + 1 by omega, Nat.succ_mul]
      omega
  · intro hcount
    refine ⟨n, hn, fun c hc hcn => ⟨_, hsct c hc hcn, Nat.le_add_right _ _, ?_, ?_⟩⟩
    · have hlast := (hroom (c - 2 + 1)).mp (by omega)
      rw [Nat.succ_mul] at hlast
      omega
    · intro c' s' hc' hcn' hne hs'
      obtain rfl := Except.ok.inj ((hsct c' hc' hcn').symm.trans hs')
      rcases Nat.lt_or_gt_of_ne hne with hlt | hgt
      · exact Or.inr (sector_le hc' hlt)
      · exact Or.inl (sector_le hc hgt)

/-- The clusters that `clust_cnt` counts lie in the volume exactly when its sum in `u16` costs no cluster. -/
theorem laidOut_iff (hfits : fs.Fits) : LaidOut p fs ↔ fs.SameCount p := by
  obtain ⟨hrelease, hdev, hpanic⟩ := clustCnt_of_fits hfits
  have hbound : ∀ root, fs.countWith root ≤ fs.sectorCount := fun root =>
    Nat.le_trans (Nat.div_le_self _ _) (Nat.sub_le _ _)
  cases p with
  | dev =>
      rcases Nat.lt_or_ge fs.rootBytes (2 ^ 16) with hsum | hsum
      · rw [laidOut_iff_of_count hfits (hdev hsum) (hbound _)]
        exact iff_of_true (Nat.le_refl _) hsum
      · refine iff_of_false ?_ (Nat.not_lt.mpr hsum)
        rintro ⟨n, hn, -⟩
        rw [hpanic hsum] at hn
        cases hn
  | release =>
      rw [laidOut_iff_of_count hfits hrelease (hbound _)]
      exact ⟨fun hle => Nat.le_antisymm hle (countWith_anti rootDirSct_release_le), Nat.le_of_eq⟩

/-- A root directory of 2048 entries behind one reserved sector and a table of two, in a volume of 349. -/
def wideRoot : FileAllocTable := ⟨floppy, ⟨512, 1, 1, 1, 2048, 349, 2, 0⟩, none⟩

theorem fits_wideRoot : wideRoot.Fits := ⟨by constructor <;> decide, by decide, by decide, by decide⟩

theorem fits_floppy : floppyTable.Fits := ⟨by constructor <;> decide, by decide, by decide, by decide⟩

theorem laidOut_floppy : LaidOut .dev floppyTable ∧ LaidOut .release floppyTable :=
  ⟨(laidOut_iff fits_floppy).mpr (by decide : _ < _), (laidOut_iff fits_floppy).mpr (by decide : _ = _)⟩

/-- In `u16` the 2048 entries take no room: a development build stops, and a release build counts clusters up to
number 347, whose sector is 476 of 349. -/
theorem laidOut_wideRoot : wideRoot.Fits ∧ clustCnt .dev wideRoot = .error .panic ∧
    clustCnt .release wideRoot = .ok 346 ∧ clust2sct .release wideRoot 347 = .ok 476 ∧
    wideRoot.sectorCount = 349 ∧ ¬LaidOut .dev wideRoot ∧ ¬LaidOut .release wideRoot := by
  have hdev : clustCnt .dev wideRoot = .error .panic := by decide
  have hcount : clustCnt .release wideRoot = .ok 346 := by decide
  have hsct : clust2sct .release wideRoot 347 = .ok 476 := by decide
  refine ⟨fits_wideRoot, hdev, hcount, hsct, by decide, ?_, ?_⟩
  · rintro ⟨n, hn, -⟩
    rw [hdev] at hn
    cases hn
  · rintro ⟨n, hn, hall⟩
    obtain rfl : 346 = n := Except.ok.inj (hcount.symm.trans hn)
    obtain ⟨s, hs, -, hend, -⟩ := hall 347 (by decide) (by decide)
    obtain rfl : 476 = s := Except.ok.inj (hsct.symm.trans hs)
    exact absurd hend (by decide)

/-! ### Arithmetic on every boot sector -/

/-- No operation on the volume divides by zero, and none leaves its word: a build that checks for overflow goes
through all of their arithmetic. -/
def ArithSafe (fs : FileAllocTable) : Prop :=
  (∃ file, root .dev fs = .ok file) ∧ (∃ ty, fatType .dev fs = .ok ty) ∧ (∃ n, clustCnt .dev fs = .ok n) ∧
    (∀ c, 2 ≤ c → c < 2 ^ 32 → ∃ s, clust2sct .dev fs c = .ok s) ∧
    ∀ c, c < 2 ^ 32 → ∃ place, entryPlace .dev fs c = .ok place

theorem ne_zero_of_quot {a b n : Nat} (h : quot a b = .ok n) : b ≠ 0 := by
  rintro rfl
  cases h

/-- What a checked `clust_cnt` has shown about the boot sector. -/
theorem fits_of_clustCnt {n : Nat} (htyped : fs.bpb.Typed) (h : clustCnt .dev fs = .ok n) :
    fs.Fits ∧ fs.rootBytes < 2 ^ 16 := by
  obtain ⟨root, hroot, h₁⟩ := bind_eq_ok.mp h
  obtain ⟨fats, hfats, h₂⟩ := bind_eq_ok.mp h₁
  obtain ⟨front, hfront, h₃⟩ := bind_eq_ok.mp h₂
  obtain ⟨front', hfront', h₄⟩ := bind_eq_ok.mp h₃
  obtain ⟨dataSec, hdata, hquot⟩ := bind_eq_ok.mp h₄
  have hpos : 0 < fs.bpb.bytsPerSec := by
    obtain ⟨_, _, hrest⟩ := bind_eq_ok.mp hroot
    obtain ⟨round, _, hrest'⟩ := bind_eq_ok.mp hrest
    obtain ⟨sum, _, hdiv⟩ := bind_eq_ok.mp hrest'
    exact Nat.pos_of_ne_zero (ne_zero_of_quot hdiv)
  have hsum : fs.rootBytes < 2 ^ 16 := by
    by_contra hge
    rw [rootDirSct_dev hpos htyped.bytsPerSec (Nat.le_of_not_lt hge)] at hroot
    cases hroot
  rw [rootDirSct_of_lt hpos htyped.bytsPerSec hsum] at hroot
  obtain rfl := Except.ok.inj hroot
  rw [← Nat.cast_mul] at hfats
  obtain ⟨rfl, -⟩ := Profile.eq_of_fit_dev hfats
  rw [← Nat.cast_add] at hfront
  obtain ⟨rfl, -⟩ := Profile.eq_of_fit_dev hfront
  rw [← Nat.cast_add] at hfront'
  obtain ⟨rfl, -⟩ := Profile.eq_of_fit_dev hfront'
  exact ⟨⟨htyped, hpos, Nat.pos_of_ne_zero (ne_zero_of_quot hquot), Profile.le_of_fit_dev_sub hdata⟩, hsum⟩

/-- The arithmetic on a volume is safe exactly for a boot sector with sectors and clusters of some size, areas
that fit, and a root directory whose bytes are a `u16`. -/
theorem arithSafe_iff {part : Volume} (hnew : new part = some fs) :
    ArithSafe fs ↔ fs.Fits ∧ fs.rootBytes < 2 ^ 16 := by
  have htyped := typed_of_new hnew
  constructor
  · rintro ⟨-, -, ⟨n, hn⟩, -⟩
    exact fits_of_clustCnt htyped hn
  · rintro ⟨hfits, hsum⟩
    have hcnt := (clustCnt_of_fits hfits).2.1 hsum
    have hty : ∃ ty, fatType .dev fs = .ok ty := by
      unfold fatType
      cases fs.ext32 with
      | some ext32 => exact ⟨_, rfl⟩
      | none => rw [hcnt]; exact ⟨_, rfl⟩
    obtain ⟨ty, hty'⟩ := hty
    refine ⟨?_, ⟨ty, hty'⟩, ⟨_, hcnt⟩, fun c hc hc32 => ?_, fun c _ => ?_⟩
    · unfold root
      rw [hty']
      exact ⟨_, rfl⟩
    · exact ⟨_, clust2sct_eq hfits.sector htyped.bytsPerSec hc (by omega)⟩
    · have hquot : quot (ty.fatOff c) fs.bpb.bytsPerSec = .ok (ty.fatOff c / fs.bpb.bytsPerSec) :=
        if_neg hfits.sector.ne'
      unfold entryPlace
      rw [hty', ok_bind]
      dsimp only
      rw [hquot]
      exact ⟨_, rfl⟩

theorem arithSafe_floppy : ArithSafe floppyTable := (arithSafe_iff new_floppy).mpr ⟨fits_floppy, by decide⟩

/-- Four sectors of zeros. -/
def zeroVolume : Volume where
  blockSize := 512
  blockCount := 4
  block _ := List.replicate 512 0
  length_block _ := List.length_replicate

/-- What is found in its first sector. -/
def zeroTable : FileAllocTable := ⟨zeroVolume, ⟨0, 0, 0, 0, 0, 0, 0, 0⟩, some ⟨0, 0⟩⟩

/-- A partition of zeros is taken for a FAT32 volume, and divides by zero in both builds. -/
theorem arithUnsafe_zeroVolume : new zeroVolume = some zeroTable ∧
    nextClust .release zeroTable 2 = .error .panic ∧ clustCnt .release zeroTable = .error .panic ∧
    clust2sct .release zeroTable 2 = .error .panic ∧ ¬ArithSafe zeroTable := by
  have hread : zeroVolume.readBlock 512 0 = some (List.replicate 512 0) := by decide +kernel
  have hbpb : BootParamBlock.read (List.replicate 512 0) = zeroTable.bpb := by decide +kernel
  have hext : Fat32BpbExt.read (List.replicate 512 0) = ⟨0, 0⟩ := by decide +kernel
  refine ⟨?_, rfl, by decide, by decide, ?_⟩
  · unfold new
    rw [hread]
    show some (FileAllocTable.mk zeroVolume (BootParamBlock.read (List.replicate 512 0))
      (if (BootParamBlock.read (List.replicate 512 0)).fatSz16 = 0 then some (Fat32BpbExt.read _) else none)) = _
    rw [hbpb, hext]
    rfl
  · rintro ⟨-, -, ⟨n, hn⟩, -⟩
    cases hn

end FileAllocTable

end UnixKernel
