import Mathlib.Order.Interval.Finset.Nat
import UnixKernel.Fat
import UnixKernel.Orbits
import UnixKernel.Vfs

/-! Directories of a FAT volume: `FatFile::for_each_ent`, `list` and `walk` of `filesys/parts/fat.rs`. The loop over
the clusters follows the links of the allocation table and has no bound of its own, so it ends where the
links do. -/

namespace UnixKernel

open Orbits

/-- The fields of `FatDirEnt` that are read. -/
structure FatDirEnt where
  name : List Byte
  ext : List Byte
  attr : Byte
  fstClusHi : Nat
  fstClusLo : Nat
  fileSize : Nat
  deriving DecidableEq, Repr

namespace FatDirEnt

def read (buf : List Byte) (off : Nat) : FatDirEnt where
  name := (buf.drop off).take 8
  ext := (buf.drop (off + 8)).take 3
  attr := buf.getD (off + 11) 0
  fstClusHi := field buf (off + 20) 2
  fstClusLo := field buf (off + 26) 2
  fileSize := field buf (off + 28) 4

/-- The entries in a buffer. -/
def all (buf : List Byte) : List FatDirEnt :=
  (List.range (buf.length / dirEntSize)).map fun i => read buf (i * dirEntSize)

/-- `White_Space` of Unicode, which `trim_end` removes. -/
def isWhiteSpace (c : Char) : Bool :=
  let n := c.toNat
  9 ≤ n && n ≤ 13 || n == 0x20 || n == 0x85 || n == 0xa0 || n == 0x1680 || 0x2000 ≤ n && n ≤ 0x200a ||
    n == 0x2028 || n == 0x2029 || n == 0x202f || n == 0x205f || n == 0x3000

def trimEnd (s : String) : String := .ofList (s.toList.reverse.dropWhile isWhiteSpace).reverse

def fromUtf8 (bytes : List Byte) : Option String :=
  String.fromUTF8? ⟨(bytes.map fun b => UInt8.ofBitVec b).toArray⟩

def filename (ent : FatDirEnt) : Option String := do
  let name := trimEnd (← fromUtf8 ent.name)
  let ext := trimEnd (← fromUtf8 ent.ext)
  if ext.isEmpty then pure name else pure (name ++ "." ++ ext)

def ftype (ent : FatDirEnt) : FType := if ent.attr &&& 0x10 ≠ 0 then .directory else .regular

/-- The first cluster, from its two halves. -/
def clust (ent : FatDirEnt) : Nat := (ent.fstClusHi <<< 16) ||| ent.fstClusLo

/-- The mark behind the last entry of a directory. -/
def isEnd (ent : FatDirEnt) : Prop := ent.name.getD 0 0 = 0x00

instance (ent : FatDirEnt) : Decidable ent.isEnd := inferInstanceAs (Decidable (_ = _))

/-- The entries `for_each_ent` passes over: deleted ones, parts of long names and volume labels. -/
def isSkipped (ent : FatDirEnt) : Prop :=
  ent.name.getD 0 0 = 0xe5 ∨ ent.attr = 0x0f ∨ ent.attr &&& 0x08 ≠ 0

instance (ent : FatDirEnt) : Decidable ent.isSkipped := inferInstanceAs (Decidable (_ ∨ _))

end FatDirEnt

namespace FileAllocTable

/-- `clust2sct`. The subtraction from the cluster number is in `u32`. -/
def clust2sct (p : Profile) (fs : FileAllocTable) (clust : Nat) : Except Halt Nat := do
  let round ← p.fit .panic 16 (fs.bpb.bytsPerSec - 1)
  let rootDirSct ← quot (fs.bpb.rootEntCnt * dirEntSize + round) fs.bpb.bytsPerSec
  let dataSctBase := fs.bpb.rsvdSecCnt + fs.bpb.numFats * fs.fatSz + rootDirSct
  let rel ← p.fit .panic 32 ((clust : Int) - 2)
  pure (dataSctBase + rel * fs.bpb.secPerClus)

end FileAllocTable

/-- `FatFile`, up to the number of its device. -/
structure FatFile where
  dirent : FatDirEnt
  fs : FileAllocTable
  fid : Nat

namespace FatFile

open FileAllocTable

variable {σ τ : Type}

/-- What the entries of one buffer come to. -/
inductive Verdict (τ : Type) where
  | ended
  | found (res : τ)
  | more

/-- The inner loop of `for_each_ent` from entry `i` on, with a closure that keeps a state. -/
def scan (f : σ → FatDirEnt → Nat → σ × Option τ) (clust : Nat) :
    Nat → List FatDirEnt → σ → σ × Verdict τ
  | _, [], acc => (acc, .more)
  | i, ent :: ents, acc =>
    if ent.isEnd then (acc, .ended)
    else if ent.isSkipped then scan f clust (i + 1) ents acc
    else match f acc ent ((clust <<< 32) ||| i) with
      | (acc, some res) => (acc, .found res)
      | (acc, none) => scan f clust (i + 1) ents acc

/-- The result of `for_each_ent`, its errors apart from a panic. -/
abbrev Result (τ : Type) := Except Halt (Except String τ)

/-- One round of the outer loop: it returns, or goes on with the next cluster. -/
inductive Round (σ τ : Type) where
  | stop (acc : σ) (res : Result (Option τ))
  | next (clust : Nat) (acc : σ)

variable (p : Profile) (fs : FileAllocTable) (readErr : String)

/-- The sector of a round, and the bytes read there. -/
def place (isChained : Bool) (clust : Nat) : Except Halt (Nat × Nat) :=
  if isChained then do
    let sct ← clust2sct p fs clust
    pure (sct, fs.bpb.bytsPerSec * fs.bpb.secPerClus)
  else pure (fs.bpb.rsvdSecCnt + fs.bpb.numFats * fs.fatSz, fs.bpb.rootEntCnt * dirEntSize)

/-- A round of the outer loop. `readErr` is the text of the device's error. -/
def round (f : σ → FatDirEnt → Nat → σ × Option τ) (isChained : Bool) (clust : Nat) (acc : σ) :
    Round σ τ :=
  match place p fs isChained clust with
  | .error e => .stop acc (.error e)
  | .ok (sct, bufSize) =>
    match fs.part.readBlock bufSize sct with
    | none => .stop acc (.ok (.error ("FAT32 read error: " ++ readErr)))
    | some buf =>
      match scan f clust 0 (FatDirEnt.all buf) acc with
      | (acc, .ended) => .stop acc (.ok (.ok none))
      | (acc, .found res) => .stop acc (.ok (.ok (some res)))
      | (acc, .more) =>
        if isChained then
          match nextClust p fs clust with
          | .error e => .stop acc (.error e)
          | .ok none => .stop acc (.ok (.ok none))
          | .ok (some nc) => .next nc acc
        else .stop acc (.ok (.ok none))

/-- The outer loop; `none` when the fuel does not last. -/
def loop (f : σ → FatDirEnt → Nat → σ × Option τ) (isChained : Bool) :
    Nat → Nat → σ → Option (σ × Result (Option τ))
  | 0, _, _ => none
  | fuel + 1, clust, acc =>
    match round p fs readErr f isChained clust acc with
    | .stop acc res => some (acc, res)
    | .next clust acc => loop f isChained fuel clust acc

/-- The clusters that the first rounds turn into sectors. -/
def visits (f : σ → FatDirEnt → Nat → σ × Option τ) (isChained : Bool) : Nat → Nat → σ → List Nat
  | 0, _, _ => []
  | fuel + 1, clust, acc =>
    (if isChained then [clust] else []) ++
      match round p fs readErr f isChained clust acc with
      | .stop _ _ => []
      | .next clust acc => visits f isChained fuel clust acc

def forEachEnt (fuel : Nat) (file : FatFile) (f : σ → FatDirEnt → Nat → σ × Option τ) (acc : σ) :
    Option (σ × Result (Option τ)) :=
  if file.dirent.ftype ≠ .directory then some (acc, .ok (.error "This is not a directory"))
  else loop p file.fs readErr f (file.dirent.clust ≠ 0) fuel file.dirent.clust acc

/-- The closure of `list`. -/
def listEnt (entries : List String) (ent : FatDirEnt) (_fid : Nat) : List String × Option Unit :=
  match ent.filename with
  | some name => (entries ++ [name], none)
  | none => (entries, none)

def list (fuel : Nat) (file : FatFile) : Option (Result (List String)) :=
  (forEachEnt p readErr fuel file listEnt []).map fun r => r.2.map fun res => res.map fun _ => r.1

def eqIgnoreAsciiCase (s t : String) : Bool := s.toLower == t.toLower

/-- The closure of `walk`. -/
def walkEnt (name : String) (_ : Unit) (ent : FatDirEnt) (fid : Nat) : Unit × Option FatFile :=
  match ent.filename with
  | some fname => ((), if eqIgnoreAsciiCase fname name then some ⟨ent, fs, fid⟩ else none)
  | none => ((), none)

def walk (fuel : Nat) (file : FatFile) (name : String) : Option (Result FatFile) :=
  (forEachEnt p readErr fuel file (walkEnt file.fs name) ()).map fun r => r.2.map fun res =>
    res.bind fun file => match file with
      | some file => .ok file
      | none => .error "File not found"

/-- The clusters `for_each_ent` turns into sectors within the fuel. -/
def forEachVisits (fuel : Nat) (file : FatFile) (f : σ → FatDirEnt → Nat → σ × Option τ) (acc : σ) :
    List Nat :=
  if file.dirent.ftype ≠ .directory then []
  else visits p file.fs readErr f (file.dirent.clust ≠ 0) fuel file.dirent.clust acc

/-! The links a directory's clusters form on the disk. -/

/-- The cluster behind `clust`, if `clust` can be read, has no end mark among its entries and has a
successor in the allocation table. -/
def link (clust : Nat) : Option Nat :=
  match clust2sct p fs clust with
  | .error _ => none
  | .ok sct =>
    match fs.part.readBlock (fs.bpb.bytsPerSec * fs.bpb.secPerClus) sct with
    | none => none
    | some buf =>
      if ∃ ent ∈ FatDirEnt.all buf, ent.isEnd then none
      else match nextClust p fs clust with
        | .error _ => none
        | .ok nc => nc

/-- The clusters of a chained directory are data clusters, and no two of them are the same. -/
def Sane (file : FatFile) : Prop :=
  file.dirent.ftype = .directory → file.dirent.clust ≠ 0 →
    ∀ n c, orbit (link p file.fs) file.dirent.clust n = some c →
      2 ≤ c ∧ ∀ m, m < n → orbit (link p file.fs) file.dirent.clust m ≠ some c

/-- `for_each_ent` returns, and no cluster below 2 becomes a sector. -/
def Returns (file : FatFile) (f : σ → FatDirEnt → Nat → σ × Option τ) (acc : σ) : Prop :=
  (∃ fuel, (forEachEnt p readErr fuel file f acc).isSome) ∧
    ∀ fuel, ∀ c ∈ forEachVisits p readErr fuel file f acc, 2 ≤ c

variable {p fs readErr} {f : σ → FatDirEnt → Nat → σ × Option τ} {c n : Nat} {acc acc' : σ}

/-! ### A round and a link -/

theorem not_isEnd_of_scan {clust i : Nat} {ents : List FatDirEnt}
    (h : scan f clust i ents acc = (acc', .more)) : ¬∃ ent ∈ ents, ent.isEnd := by
  induction ents generalizing i acc with
  | nil => simp
  | cons ent ents ih =>
    simp only [scan] at h
    split_ifs at h with hend hskip
    · simp at h
    · simpa [hend] using ih h
    · split at h
      · simp at h
      · simpa [hend] using ih h

theorem scan_listEnt (clust i : Nat) {ents : List FatDirEnt} (entries : List String)
    (h : ¬∃ ent ∈ ents, ent.isEnd) : ∃ entries', scan listEnt clust i ents entries = (entries', .more) := by
  induction ents generalizing i entries with
  | nil => exact ⟨entries, rfl⟩
  | cons ent ents ih =>
    have hrest : ¬∃ ent ∈ ents, ent.isEnd := fun ⟨e, he, hend⟩ => h ⟨e, List.mem_cons_of_mem _ he, hend⟩
    have hend : ¬ent.isEnd := fun hend => h ⟨ent, List.mem_cons_self, hend⟩
    simp only [scan, if_neg hend, listEnt]
    split_ifs
    · exact ih _ _ hrest
    · cases ent.filename with
      | none => exact ih _ _ hrest
      | some name => exact ih _ _ hrest

theorem place_chained : place p fs true c =
    (clust2sct p fs c).map fun sct => (sct, fs.bpb.bytsPerSec * fs.bpb.secPerClus) := by
  cases h : clust2sct p fs c <;> simp [place, h] <;> rfl

theorem link_of_round (h : round p fs readErr f true c acc = .next n acc') : link p fs c = some n := by
  unfold round at h
  unfold link
  rw [place_chained] at h
  cases hsct : clust2sct p fs c with
  | error e => simp [hsct, Except.map] at h
  | ok sct =>
    simp only [hsct, Except.map] at h ⊢
    cases hbuf : fs.part.readBlock (fs.bpb.bytsPerSec * fs.bpb.secPerClus) sct with
    | none => simp [hbuf] at h
    | some buf =>
      simp only [hbuf] at h ⊢
      split at h
      · simp at h
      · simp at h
      · rename_i acc'' hscan
        rw [if_neg (not_isEnd_of_scan hscan)]
        rw [if_pos trivial] at h
        split at h
        · simp at h
        · simp at h
        · rename_i nc hnext
          rw [hnext, (Round.next.inj h).1]

theorem round_of_link (readErr : String) (entries : List String) (h : link p fs c = some n) :
    ∃ entries', round p fs readErr listEnt true c entries = .next n entries' := by
  unfold link at h
  unfold round
  rw [place_chained]
  cases hsct : clust2sct p fs c with
  | error e => simp [hsct] at h
  | ok sct =>
    simp only [hsct, Except.map] at h ⊢
    cases hbuf : fs.part.readBlock (fs.bpb.bytsPerSec * fs.bpb.secPerClus) sct with
    | none => simp [hbuf] at h
    | some buf =>
      simp only [hbuf] at h ⊢
      split_ifs at h with hend
      obtain ⟨entries', hscan⟩ := scan_listEnt c 0 entries hend
      cases hnext : nextClust p fs c with
      | error e => simp [hnext] at h
      | ok nc =>
        simp only [hnext] at h
        subst h
        exact ⟨entries', by simp [hscan]⟩

theorem round_unchained : ∃ acc' res, round p fs readErr f false c acc = .stop acc' res := by
  unfold round
  split
  · exact ⟨_, _, rfl⟩
  · split
    · exact ⟨_, _, rfl⟩
    · split
      · exact ⟨_, _, rfl⟩
      · exact ⟨_, _, rfl⟩
      · exact ⟨_, _, rfl⟩

theorem nextClust_lt (h : nextClust p fs c = .ok (some n)) : n < 2 ^ 28 := by
  obtain ⟨ty, -, h⟩ := bind_eq_ok.1 h
  obtain ⟨q, -, h⟩ := bind_eq_ok.1 h
  dsimp only at h
  split at h
  · cases h
  · obtain ⟨entry, -, h⟩ := bind_eq_ok.1 h
    have h := Except.ok.inj h
    split_ifs at h with heoc
    obtain rfl := Option.some.inj h
    have heoc' : ty.eoc ≤ 0x0ffffff8 := by cases ty <;> simp [FatType.eoc]
    omega

theorem link_lt (h : link p fs c = some n) : n < 2 ^ 28 := by
  unfold link at h
  split at h
  · cases h
  · split at h
    · cases h
    · split_ifs at h
      split at h
      · cases h
      · rename_i nc hnext
        exact nextClust_lt (h ▸ hnext)

/-! ### The loop and the chain of links -/

theorem loop_isSome {fuel : Nat} (h : orbit (link p fs) c fuel = none) :
    (loop p fs readErr f true fuel c acc).isSome := by
  induction fuel generalizing c acc with
  | zero => simp [orbit] at h
  | succ fuel ih =>
    unfold loop
    split
    · rfl
    · rename_i n acc' hround
      rw [orbit_succ, link_of_round hround] at h
      exact ih h

theorem orbit_eq_none_of_list {fuel : Nat} {entries : List String}
    (h : (loop p fs readErr listEnt true fuel c entries).isSome) : orbit (link p fs) c fuel = none := by
  induction fuel generalizing c entries with
  | zero => simp [loop] at h
  | succ fuel ih =>
    rw [orbit_succ]
    cases hlink : link p fs c with
    | none => rfl
    | some n =>
      obtain ⟨entries', hround⟩ := round_of_link readErr entries hlink
      rw [loop, hround] at h
      exact ih h

theorem orbit_of_mem_visits {fuel v : Nat} (h : v ∈ visits p fs readErr f true fuel c acc) :
    ∃ k, orbit (link p fs) c k = some v := by
  induction fuel generalizing c acc with
  | zero => simp [visits] at h
  | succ fuel ih =>
    rw [visits, if_pos rfl, List.singleton_append, List.mem_cons] at h
    obtain rfl | h := h
    · exact ⟨0, rfl⟩
    · split at h
      · simp at h
      · rename_i n acc' hround
        obtain ⟨k, hk⟩ := ih h
        exact ⟨k + 1, by rw [orbit_succ, link_of_round hround]; exact hk⟩

theorem mem_visits_of_orbit {k v : Nat} {entries : List String} (h : orbit (link p fs) c k = some v) :
    v ∈ visits p fs readErr listEnt true (k + 1) c entries := by
  induction k generalizing c entries with
  | zero =>
    obtain rfl := Option.some.inj h
    simp [visits]
  | succ k ih =>
    rw [orbit_succ] at h
    obtain ⟨n, hlink, h⟩ := Option.bind_eq_some_iff.1 h
    obtain ⟨entries', hround⟩ := round_of_link readErr entries hlink
    rw [visits, hround]
    exact List.mem_append_right _ (ih h)

/-! ### Directories -/

section Directory

variable {file : FatFile}

theorem returns_of_not_directory (hdir : file.dirent.ftype ≠ .directory) :
    Returns p readErr file f acc := by
  refine ⟨⟨0, ?_⟩, fun fuel => ?_⟩
  · rw [forEachEnt, if_pos hdir]
    rfl
  · rw [forEachVisits, if_pos hdir]
    simp

theorem returns_of_unchained (hdir : file.dirent.ftype = .directory) (hroot : file.dirent.clust = 0) :
    Returns p readErr file f acc := by
  obtain ⟨acc', res, hround⟩ := @round_unchained _ _ p file.fs readErr f 0 acc
  refine ⟨⟨1, ?_⟩, fun fuel => ?_⟩
  · simp [forEachEnt, hdir, hroot, loop, hround]
  · cases fuel with
    | zero => simp [forEachVisits, hdir, visits]
    | succ fuel => simp [forEachVisits, hdir, hroot, visits, hround]

theorem forEachEnt_chained (hdir : file.dirent.ftype = .directory) (hroot : file.dirent.clust ≠ 0)
    (fuel : Nat) : forEachEnt p readErr fuel file f acc =
      loop p file.fs readErr f true fuel file.dirent.clust acc := by
  rw [forEachEnt, if_neg (not_not.2 hdir), decide_eq_true hroot]

theorem forEachVisits_chained (hdir : file.dirent.ftype = .directory) (hroot : file.dirent.clust ≠ 0)
    (fuel : Nat) : forEachVisits p readErr fuel file f acc =
      visits p file.fs readErr f true fuel file.dirent.clust acc := by
  rw [forEachVisits, if_neg (not_not.2 hdir), decide_eq_true hroot]

theorem orbit_bound {k v : Nat} (h : orbit (link p fs) c k = some v) :
    v ∈ insert c (Set.Iio (2 ^ 28)) := by
  cases k with
  | zero => exact .inl (Option.some.inj h).symm
  | succ k =>
    obtain ⟨u, -, hlink⟩ := Option.bind_eq_some_iff.1 h
    exact .inr (link_lt hlink)

theorem orbit_ends_iff : (∃ k, orbit (link p fs) c k = none) ↔
    ∀ m k v, m < k → orbit (link p fs) c k = some v → orbit (link p fs) c m ≠ some v :=
  exists_orbit_eq_none_iff ((Set.finite_Iio _).insert c) fun _ _ => orbit_bound

theorem returns_of_sane (hsane : Sane p file) : Returns p readErr file f acc := by
  by_cases hdir : file.dirent.ftype = .directory
  swap
  · exact returns_of_not_directory hdir
  by_cases hroot : file.dirent.clust = 0
  · exact returns_of_unchained hdir hroot
  have hchain := hsane hdir hroot
  refine ⟨?_, fun fuel v hv => ?_⟩
  · obtain ⟨k, hk⟩ := orbit_ends_iff.2 fun m k v hlt hk => (hchain k v hk).2 m hlt
    refine ⟨k, ?_⟩
    rw [forEachEnt_chained hdir hroot]
    exact loop_isSome hk
  · rw [forEachVisits_chained hdir hroot] at hv
    obtain ⟨k, hk⟩ := orbit_of_mem_visits hv
    exact (hchain k v hk).1

theorem sane_of_list (h : Returns p readErr file listEnt []) : Sane p file := by
  intro hdir hroot
  obtain ⟨⟨fuel, hends⟩, hvisits⟩ := h
  simp only [forEachEnt_chained hdir hroot, forEachVisits_chained hdir hroot] at hends hvisits
  have hdistinct := orbit_ends_iff.1 ⟨fuel, orbit_eq_none_of_list hends⟩
  intro k v hk
  exact ⟨hvisits (k + 1) v (mem_visits_of_orbit hk), fun m hlt => hdistinct m k v hlt hk⟩

theorem isSome_list (fuel : Nat) :
    (list p readErr fuel file).isSome = (forEachEnt p readErr fuel file listEnt []).isSome :=
  Option.isSome_map

theorem isSome_walk (fuel : Nat) (name : String) : (walk p readErr fuel file name).isSome =
    (forEachEnt p readErr fuel file (walkEnt file.fs name) ()).isSome :=
  Option.isSome_map

/-- `list` and every `walk` on a directory return, and turn no cluster below 2 into a sector, exactly when
the clusters of the directory are data clusters that do not repeat. -/
theorem list_walk_return_iff :
    ((∃ fuel, (list p readErr fuel file).isSome) ∧ (∀ name, ∃ fuel, (walk p readErr fuel file name).isSome) ∧
      (∀ fuel, ∀ c ∈ forEachVisits p readErr fuel file listEnt [], 2 ≤ c) ∧
      ∀ name fuel, ∀ c ∈ forEachVisits p readErr fuel file (walkEnt file.fs name) (), 2 ≤ c) ↔
      Sane p file := by
  simp only [isSome_list, isSome_walk]
  constructor
  · rintro ⟨hlist, -, hvisits, -⟩
    exact sane_of_list ⟨hlist, hvisits⟩
  · intro hsane
    have hlist : Returns p readErr file listEnt [] := returns_of_sane hsane
    have hwalk (name : String) : Returns p readErr file (walkEnt file.fs name) () := returns_of_sane hsane
    exact ⟨hlist.1, fun name => (hwalk name).1, hlist.2, fun name => (hwalk name).2⟩

end Directory

/-- A directory that starts at the given cluster. -/
def dirAt (clust : Nat) : FatDirEnt :=
  ⟨[0x44, 0x20, 0x20, 0x20, 0x20, 0x20, 0x20, 0x20], [0x20, 0x20, 0x20], 0x10, 0, clust, 0⟩

/-- Every byte behind the boot sector is `0x11`: cluster `0x111` links to itself. -/
def roundDir : FatFile := ⟨dirAt 0x111, { floppyTable with part := floppy.fill 0x11 }, 0⟩

/-- An empty table, and deleted entries in every cluster. -/
def freedFloppy : Volume where
  blockSize := 512
  blockCount := 349
  block lba := if lba = 0 then floppyBoot else List.replicate 512 (if lba < 3 then 0 else 0xe5)
  length_block lba := by
    split
    · exact length_floppyBoot
    · exact List.length_replicate

def freedDir : FatFile := ⟨dirAt 2, { floppyTable with part := freedFloppy }, 0⟩

/-- A cluster that is its own successor keeps `list` going for ever. A free cluster in a chain sends
cluster 0 to `clust2sct`, whose subtraction stops a development build and wraps in a release build. -/
theorem list_walk_fail_damaged :
    (new (floppy.fill 0x11) = some roundDir.fs ∧ roundDir.dirent.ftype = .directory ∧
      ¬∃ fuel, (list .release "" fuel roundDir).isSome) ∧
    new freedFloppy = some freedDir.fs ∧ freedDir.dirent.ftype = .directory ∧
      forEachVisits .dev "" 2 freedDir listEnt [] = [2, 0] ∧
      list .dev "" 2 freedDir = some (.error .panic) ∧
      clust2sct .release freedDir.fs 0 = .ok (4 + 0xfffffffe) := by
  have hround : new (floppy.fill 0x11) = some roundDir.fs :=
    new_sameBoot new_floppy (Nat.le_refl 512) (floppy.sameBoot_fill 0x11)
  have hfreed : new freedFloppy = some freedDir.fs :=
    new_sameBoot new_floppy (Nat.le_refl 512) ⟨rfl, rfl, rfl⟩
  have hdir : roundDir.dirent.ftype = .directory := by decide
  have hroot : roundDir.dirent.clust ≠ 0 := by decide
  have hlink : orbit (link .release roundDir.fs) roundDir.dirent.clust 1 = some roundDir.dirent.clust := by
    decide +kernel
  refine ⟨⟨hround, hdir, ?_⟩, hfreed, by decide, by decide +kernel, by decide +kernel, by decide +kernel⟩
  rintro ⟨fuel, hfuel⟩
  rw [isSome_list, forEachEnt_chained hdir hroot] at hfuel
  exact orbit_ne_none_of_repeat Nat.zero_lt_one hlink rfl fuel (orbit_eq_none_of_list hfuel)

end FatFile

end UnixKernel
