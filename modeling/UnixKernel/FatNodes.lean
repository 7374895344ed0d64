import Mathlib.Data.List.TakeWhile
import UnixKernel.FatRead

/-! The entries of a FAT directory in the order in which they are on the disk. `for_each_ent` visits the ones in
front of the end mark that are in use, so `list` gives their names and `walk` the first one with a name. The
number of a node is that of its cluster and of its entry there, which is 0 for the root node too. -/

namespace UnixKernel

/-- An entry with its place: the sector its buffer was read from, the cluster and the index in the buffer. -/
structure DirSlot where
  sct : Nat
  clust : Nat
  index : Nat
  ent : FatDirEnt

namespace DirSlot

/-- The `fid` of `for_each_ent`. -/
def fid (slot : DirSlot) : Nat := (slot.clust <<< 32) ||| slot.index

/-- The entries of a buffer, from entry `i` on. -/
def inBuf (sct clust : Nat) : Nat → List FatDirEnt → List DirSlot
  | _, [] => []
  | i, ent :: ents => ⟨sct, clust, i, ent⟩ :: inBuf sct clust (i + 1) ents

/-- The entries in front of the first end mark that are not deleted, parts of long names or labels. -/
def visible (slots : List DirSlot) : List DirSlot :=
  (slots.takeWhile fun slot => ¬slot.ent.isEnd).filter fun slot => ¬slot.ent.isSkipped

def filename (slot : DirSlot) : Option String := slot.ent.filename

/-- The entry has the name, up to the case of letters. -/
def named (name : String) (slot : DirSlot) : Bool :=
  match slot.filename with
  | some fname => FatFile.eqIgnoreAsciiCase fname name
  | none => false

def node (fs : FileAllocTable) (slot : DirSlot) : FatFile := ⟨slot.ent, fs, slot.fid⟩

/-- A closure on one entry after the other, up to the first answer. -/
def visit {σ τ : Type} (f : σ → FatDirEnt → Nat → σ × Option τ) : List DirSlot → σ → σ × Option τ
  | [], acc => (acc, none)
  | slot :: slots, acc =>
    match f acc slot.ent slot.fid with
    | (acc, some res) => (acc, some res)
    | (acc, none) => visit f slots acc

variable {σ τ : Type} {f : σ → FatDirEnt → Nat → σ × Option τ} {clust : Nat}

theorem visit_append (slots slots' : List DirSlot) (acc : σ) : visit f (slots ++ slots') acc =
    match visit f slots acc with
    | (acc, some res) => (acc, some res)
    | (acc, none) => visit f slots' acc := by
  induction slots generalizing acc with
  | nil => rfl
  | cons slot slots ih =>
      simp only [List.cons_append, visit]
      rcases f acc slot.ent slot.fid with ⟨acc', _ | res⟩
      · exact ih acc'
      · rfl

theorem exists_isEnd_inBuf {sct i : Nat} {ents : List FatDirEnt} :
    (∃ slot ∈ inBuf sct clust i ents, slot.ent.isEnd) ↔ ∃ ent ∈ ents, ent.isEnd := by
  induction ents generalizing i with
  | nil => simp [inBuf]
  | cons ent ents ih => simp only [inBuf, List.exists_mem_cons_iff, ih]

theorem visible_append {slots slots' : List DirSlot} (h : ¬∃ slot ∈ slots, slot.ent.isEnd) :
    visible (slots ++ slots') = visible slots ++ visible slots' := by
  have hall : ∀ slot ∈ slots, (decide ¬slot.ent.isEnd) = true := fun slot hslot =>
    decide_eq_true fun hend => h ⟨slot, hslot, hend⟩
  unfold visible
  rw [List.takeWhile_append_of_pos hall, List.takeWhile_eq_self_iff.mpr hall, List.filter_append]

/-- `scan` is a visit of the entries of the buffer. -/
theorem scan_eq (sct i : Nat) (ents : List FatDirEnt) (acc : σ) : FatFile.scan f clust i ents acc =
    match visit f (visible (inBuf sct clust i ents)) acc with
    | (acc, some res) => (acc, .found res)
    | (acc, none) => (acc, if ∃ ent ∈ ents, ent.isEnd then .ended else .more) := by
  induction ents generalizing i acc with
  | nil => simp [FatFile.scan, inBuf, visible, visit]
  | cons ent ents ih =>
      unfold FatFile.scan
      by_cases hend : ent.isEnd
      · rw [if_pos hend]
        simp [inBuf, visible, visit, hend]
      · rw [if_neg hend]
        by_cases hskip : ent.isSkipped
        · rw [if_pos hskip, ih]
          simp [inBuf, visible, hend, hskip]
        · rw [if_neg hskip]
          have hcons : visible (inBuf sct clust i (ent :: ents)) =
              ⟨sct, clust, i, ent⟩ :: visible (inBuf sct clust (i + 1) ents) := by
            simp [inBuf, visible, hend, hskip]
          rw [hcons, visit]
          simp only [List.exists_mem_cons_iff, hend, false_or]
          rcases hf : f acc ent ((clust <<< 32) ||| i) with ⟨acc', _ | res⟩
          · rw [show f acc ent (fid ⟨sct, clust, i, ent⟩) = (acc', none) from hf]
            exact ih (i + 1) acc'
          · rw [show f acc ent (fid ⟨sct, clust, i, ent⟩) = (acc', some res) from hf]

theorem visit_listEnt (slots : List DirSlot) (entries : List String) :
    visit FatFile.listEnt slots entries = (entries ++ slots.filterMap filename, none) := by
  induction slots generalizing entries with
  | nil => rw [visit, List.filterMap_nil, List.append_nil]
  | cons slot slots ih =>
      rw [visit, FatFile.listEnt, ← filename]
      cases hname : slot.filename with
      | none => rw [List.filterMap_cons_none hname, ← ih]
      | some name => rw [List.filterMap_cons_some hname, List.append_cons, ← ih]

/-- `walk` stops at the first entry with the name. -/
theorem visit_walkEnt (fs : FileAllocTable) (name : String) (slots : List DirSlot) :
    visit (FatFile.walkEnt fs name) slots () = ((), (slots.find? (named name)).map (node fs)) := by
  induction slots with
  | nil => rfl
  | cons slot slots ih =>
      rw [visit, FatFile.walkEnt, ← filename]
      cases hname : slot.filename with
      | none =>
          rw [List.find?_cons_of_neg (by simp [named, hname])]
          exact ih
      | some fname =>
          by_cases heq : FatFile.eqIgnoreAsciiCase fname name
          · rw [List.find?_cons_of_pos (by simpa [named, hname] using heq)]
            simp only [heq, if_true]
            rfl
          · rw [List.find?_cons_of_neg (by simpa [named, hname] using heq)]
            simp only [heq]
            exact ih

/-- Some entry has the name if and only if some name is that one. -/
theorem find?_named_isSome (slots : List DirSlot) (name : String) : (slots.find? (named name)).isSome ↔
    ∃ fname ∈ slots.filterMap filename, FatFile.eqIgnoreAsciiCase fname name := by
  rw [List.find?_isSome]
  constructor
  · rintro ⟨slot, hslot, hnamed⟩
    unfold named at hnamed
    cases hname : slot.filename with
    | none => rw [hname] at hnamed; cases hnamed
    | some fname =>
        rw [hname] at hnamed
        exact ⟨fname, List.mem_filterMap.mpr ⟨slot, hslot, hname⟩, hnamed⟩
  · rintro ⟨fname, hfname, heq⟩
    obtain ⟨slot, hslot, hname⟩ := List.mem_filterMap.mp hfname
    refine ⟨slot, hslot, ?_⟩
    unfold named
    rw [hname]
    exact heq

end DirSlot

namespace FatFile

open FileAllocTable DirSlot

variable (p : Profile) (fs : FileAllocTable) (readErr : String)

/-- The cluster behind the one of a buffer: none behind an end mark, and none behind the fixed root region. -/
def clustAfter (isChained : Bool) (c : Nat) (buf : List Byte) : Except Halt (Option Nat) :=
  if ∃ ent ∈ FatDirEnt.all buf, ent.isEnd then .ok none
  else if isChained then nextClust p fs c
  else .ok none

/-- The entries of a directory from cluster `c` on, in the order of the disk: cluster after cluster up to one with
an end mark or without a successor. -/
inductive OnDisk (isChained : Bool) : Nat → List DirSlot → Prop where
  | last {c sct size : Nat} {buf : List Byte} (hplace : place p fs isChained c = .ok (sct, size))
      (hbuf : fs.part.readBlock size sct = some buf) (hafter : clustAfter p fs isChained c buf = .ok none) :
      OnDisk isChained c (inBuf sct c 0 (FatDirEnt.all buf))
  | more {c nc sct size : Nat} {buf : List Byte} {slots : List DirSlot}
      (hplace : place p fs isChained c = .ok (sct, size)) (hbuf : fs.part.readBlock size sct = some buf)
      (hafter : clustAfter p fs isChained c buf = .ok (some nc)) (hrest : OnDisk isChained nc slots) :
      OnDisk isChained c (inBuf sct c 0 (FatDirEnt.all buf) ++ slots)

/-- The entries of a directory. -/
def Entries (file : FatFile) (slots : List DirSlot) : Prop :=
  OnDisk p file.fs (file.dirent.clust ≠ 0) file.dirent.clust slots

variable {p fs readErr} {σ τ : Type}

theorem not_isEnd_of_clustAfter {isChained : Bool} {c nc : Nat} {buf : List Byte}
    (h : clustAfter p fs isChained c buf = .ok (some nc)) : ¬∃ ent ∈ FatDirEnt.all buf, ent.isEnd := by
  intro hend
  rw [clustAfter, if_pos hend] at h
  cases h

/-- A round on a buffer that can be read: a visit of its entries, and then the next cluster. -/
theorem round_of_buf {isChained : Bool} {c sct size : Nat} {buf : List Byte}
    (hplace : place p fs isChained c = .ok (sct, size)) (hbuf : fs.part.readBlock size sct = some buf)
    (readErr : String) (f : σ → FatDirEnt → Nat → σ × Option τ) (acc : σ) :
    round p fs readErr f isChained c acc =
      match visit f (visible (inBuf sct c 0 (FatDirEnt.all buf))) acc with
      | (acc, some res) => .stop acc (.ok (.ok (some res)))
      | (acc, none) =>
        match clustAfter p fs isChained c buf with
        | .error e => .stop acc (.error e)
        | .ok none => .stop acc (.ok (.ok none))
        | .ok (some nc) => .next nc acc := by
  unfold round clustAfter
  rw [hplace]
  dsimp only
  rw [hbuf]
  dsimp only
  rw [scan_eq sct]
  rcases visit f (visible (inBuf sct c 0 (FatDirEnt.all buf))) acc with ⟨acc', _ | res⟩
  · dsimp only
    split_ifs <;> rfl
  · rfl

/-- Where the names of a directory are found, its entries are, and every visit of them ends as soon. -/
theorem onDisk_of_loop {isChained : Bool} {res : Option Unit} : ∀ {fuel c : Nat} {entries entries' : List String},
    loop p fs readErr listEnt isChained fuel c entries = some (entries', .ok (.ok res)) →
    ∃ slots, OnDisk p fs isChained c slots ∧
      ∀ {σ τ : Type} (f : σ → FatDirEnt → Nat → σ × Option τ) (acc : σ),
        loop p fs readErr f isChained fuel c acc =
          some ((visit f (visible slots) acc).1, .ok (.ok (visit f (visible slots) acc).2)) := by
  intro fuel
  induction fuel with
  | zero => intro c entries entries' h; cases h
  | succ fuel ih =>
      intro c entries entries' h
      unfold loop at h
      rcases hplace : place p fs isChained c with e | ⟨sct, size⟩
      · simp [round, hplace] at h
      rcases hbuf : fs.part.readBlock size sct with _ | buf
      · simp [round, hplace, hbuf] at h
      rw [round_of_buf hplace hbuf, visit_listEnt] at h
      dsimp only at h
      rcases hafter : clustAfter p fs isChained c buf with e | _ | nc
      · rw [hafter] at h
        cases h
      · refine ⟨_, .last hplace hbuf hafter, fun f acc => ?_⟩
        unfold loop
        rw [round_of_buf hplace hbuf, hafter]
        rcases visit f (visible (inBuf sct c 0 (FatDirEnt.all buf))) acc with ⟨acc', _ | res⟩ <;> rfl
      · rw [hafter] at h
        obtain ⟨slots, hslots, hloop⟩ := ih h
        have hmore : ¬∃ slot ∈ inBuf sct c 0 (FatDirEnt.all buf), slot.ent.isEnd := by
          rw [exists_isEnd_inBuf]
          exact not_isEnd_of_clustAfter hafter
        refine ⟨_, .more hplace hbuf hafter hslots, fun f acc => ?_⟩
        unfold loop
        rw [round_of_buf hplace hbuf, hafter, visible_append hmore, visit_append]
        rcases visit f (visible (inBuf sct c 0 (FatDirEnt.all buf))) acc with ⟨acc', _ | res⟩
        · exact hloop f acc'
        · rfl

/-- A directory that can be listed: its names are those of its visible entries, in their order, and a name leads
to the first entry that has it up to the case of letters. -/
theorem list_walk_entries {file : FatFile} {fuel : Nat} {names : List String}
    (h : list p readErr fuel file = some (.ok (.ok names))) :
    ∃ slots, Entries p file slots ∧ names = (visible slots).filterMap filename ∧
      ∀ name,
        ((∃ node, walk p readErr fuel file name = some (.ok (.ok node))) ↔
          ∃ fname ∈ names, eqIgnoreAsciiCase fname name) ∧
        walk p readErr fuel file name = some (.ok (match (visible slots).find? (named name) with
          | some slot => .ok (slot.node file.fs)
          | none => .error "File not found")) := by
  have hdir : file.dirent.ftype = .directory := by
    by_contra hdir
    rw [list, forEachEnt, if_pos hdir] at h
    cases h
  obtain ⟨⟨entries, res⟩, hloop, hres⟩ := Option.map_eq_some_iff.mp h
  rw [forEachEnt, if_neg (not_not.mpr hdir)] at hloop
  obtain ⟨res', hres', hnames⟩ := map_eq_ok.mp hres
  obtain ⟨found, rfl⟩ : ∃ found, res' = .ok found := by
    cases res' with
    | error e => cases hnames
    | ok found => exact ⟨found, rfl⟩
  obtain rfl : entries = names := Except.ok.inj hnames
  dsimp only at hres'
  subst hres'
  obtain ⟨slots, hslots, hvisit⟩ := onDisk_of_loop hloop
  have hwalk : ∀ name, walk p readErr fuel file name = some (.ok (match (visible slots).find? (named name) with
      | some slot => .ok (slot.node file.fs)
      | none => .error "File not found")) := by
    intro name
    rw [walk, forEachEnt, if_neg (not_not.mpr hdir), hvisit, visit_walkEnt]
    cases (visible slots).find? (named name) <;> rfl
  have hlist := hvisit listEnt []
  rw [hloop, visit_listEnt, List.nil_append] at hlist
  obtain rfl : entries = _ := (Prod.mk.inj (Option.some.inj hlist)).1
  refine ⟨slots, hslots, rfl, fun name => ⟨?_, hwalk name⟩⟩
  rw [← find?_named_isSome, hwalk]
  cases (visible slots).find? (named name) with
  | some slot => exact iff_of_true ⟨_, rfl⟩ rfl
  | none =>
      refine iff_of_false ?_ (by decide)
      rintro ⟨node, hnode⟩
      cases hnode

/-- The node of the directory `SUB`. -/
def subDir : FatFile :=
  ⟨⟨[0x53, 0x55, 0x42, 0x20, 0x20, 0x20, 0x20, 0x20], [0x20, 0x20, 0x20], 0x10, 0, 3, 0⟩, treeTable, 2⟩

theorem list_subDir : list .dev "" 2 subDir = some (.ok (.ok [".", "..", "NOTE.TXT", "note.TXT"])) := by
  decide +kernel

/-- The deleted entries are passed over and the second cluster is read; `Note.Txt` leads to an entry. -/
theorem list_walk_entries_subDir :
    (∃ slots, Entries .dev subDir slots ∧
      (visible slots).filterMap filename = [".", "..", "NOTE.TXT", "note.TXT"]) ∧
    ∃ node, walk .dev "" 2 subDir "Note.Txt" = some (.ok (.ok node)) := by
  obtain ⟨slots, hslots, hnames, hwalk⟩ := list_walk_entries list_subDir
  refine ⟨⟨slots, hslots, hnames.symm⟩, (hwalk "Note.Txt").1.mpr ⟨"NOTE.TXT", by decide, ?_⟩⟩
  show (String.map Char.toLower _ == String.map Char.toLower _) = true
  simp [← String.toList_inj]

/-! ### The numbers of the nodes -/

variable (p fs readErr)

/-- A directory has the entry in one of its clusters. -/
inductive HasSlot (isChained : Bool) (slot : DirSlot) : Nat → Prop where
  | here {c sct size : Nat} {buf : List Byte} (hplace : place p fs isChained c = .ok (sct, size))
      (hbuf : fs.part.readBlock size sct = some buf) (hmem : slot ∈ inBuf sct c 0 (FatDirEnt.all buf)) :
      HasSlot isChained slot c
  | later {c nc : Nat} (hchained : isChained = true) (hnext : nextClust p fs c = .ok (some nc))
      (hrest : HasSlot isChained slot nc) : HasSlot isChained slot c

/-- The byte of the volume at which the entry stands. -/
def address (slot : DirSlot) : Nat := slot.sct * fs.bpb.bytsPerSec + slot.index * dirEntSize

/-- The nodes found by walking from the root, with the byte at which their entry stands; the root has none. -/
inductive Reach : FatFile → Option Nat → Prop where
  | root {file : FatFile} (hroot : root p fs = .ok file) : Reach file none
  | walk {dir : FatFile} {loc : Option Nat} {fuel : Nat} {name : String} {slot : DirSlot} (hdir : Reach dir loc)
      (hwalk : walk p readErr fuel dir name = some (.ok (.ok (slot.node fs))))
      (hslot : HasSlot p fs (dir.dirent.clust ≠ 0) slot dir.dirent.clust) :
      Reach (slot.node fs) (some (address fs slot))

/-- The directories that can be reached are on chains of data clusters. -/
def SoundDirs : Prop :=
  ∀ dir loc slot, Reach p fs readErr dir loc → dir.dirent.clust ≠ 0 →
    HasSlot p fs true slot dir.dirent.clust → 2 ≤ slot.clust

/-- The root and the nodes of different entries have different numbers. -/
def UniqueFids : Prop :=
  ∀ n loc m loc', Reach p fs readErr n loc → Reach p fs readErr m loc' → loc ≠ loc' → n.fmeta.fid ≠ m.fmeta.fid

/-- The fixed root region starts with an entry that `list` gives the name of. -/
def RootSlotListed : Prop :=
  ∃ buf ent name, fs.part.readBlock (fs.bpb.rootEntCnt * dirEntSize)
      (fs.bpb.rsvdSecCnt + fs.bpb.numFats * fs.fatSz) = some buf ∧
    (FatDirEnt.all buf)[0]? = some ent ∧ ¬ent.isEnd ∧ ¬ent.isSkipped ∧ ent.filename = some name

variable {p fs readErr}

theorem mem_inBuf {sct c i : Nat} {ents : List FatDirEnt} {slot : DirSlot} (h : slot ∈ inBuf sct c i ents) :
    slot.sct = sct ∧ slot.clust = c ∧ i ≤ slot.index ∧ ents[slot.index - i]? = some slot.ent := by
  induction ents generalizing i with
  | nil => cases h
  | cons ent ents ih =>
      rcases List.mem_cons.mp h with rfl | hrest
      · exact ⟨rfl, rfl, Nat.le_refl i, by simp⟩
      · obtain ⟨hsct, hclust, hle, hent⟩ := ih hrest
        refine ⟨hsct, hclust, by omega, ?_⟩
        rw [show slot.index - i = slot.index - (i + 1) + 1 by omega, List.getElem?_cons_succ, hent]

theorem mem_of_visible {slots : List DirSlot} {slot : DirSlot} (h : slot ∈ visible slots) :
    slot ∈ slots ∧ ¬slot.ent.isEnd ∧ ¬slot.ent.isSkipped := by
  obtain ⟨htake, hskip⟩ := List.mem_filter.mp h
  have hend := List.mem_takeWhile_imp htake
  exact ⟨(List.takeWhile_sublist _).mem htake, of_decide_eq_true hend, of_decide_eq_true hskip⟩

/-- What `walk` finds is an entry of the directory that is in use and has a name. -/
theorem slot_of_loop {isChained : Bool} {name : String} {node : FatFile} : ∀ {fuel c : Nat},
    loop p fs readErr (walkEnt fs name) isChained fuel c () = some ((), .ok (.ok (some node))) →
    ∃ slot, HasSlot p fs isChained slot c ∧ node = slot.node fs ∧ ¬slot.ent.isEnd ∧ ¬slot.ent.isSkipped ∧
      slot.ent.filename.isSome := by
  intro fuel
  induction fuel with
  | zero => intro c h; cases h
  | succ fuel ih =>
      intro c h
      unfold loop at h
      rcases hplace : place p fs isChained c with e | ⟨sct, size⟩
      · simp [round, hplace] at h
      rcases hbuf : fs.part.readBlock size sct with _ | buf
      · simp [round, hplace, hbuf] at h
      rw [round_of_buf hplace hbuf, visit_walkEnt] at h
      rcases hfind : (visible (inBuf sct c 0 (FatDirEnt.all buf))).find? (named name) with _ | slot
      · rw [hfind] at h
        dsimp only [Option.map_none] at h
        rcases hafter : clustAfter p fs isChained c buf with e | _ | nc
        · rw [hafter] at h
          cases h
        · rw [hafter] at h
          cases h
        · rw [hafter] at h
          obtain ⟨slot, hslot, hrest⟩ := ih h
          have hnext : isChained = true ∧ nextClust p fs c = .ok (some nc) := by
            rw [clustAfter, if_neg (not_isEnd_of_clustAfter hafter)] at hafter
            split_ifs at hafter with hchained
            · exact ⟨hchained, hafter⟩
            · cases hafter
          exact ⟨slot, .later hnext.1 hnext.2 hslot, hrest⟩
      · rw [hfind] at h
        dsimp only [Option.map_some] at h
        cases h
        obtain ⟨hmem, hend, hskip⟩ := mem_of_visible (List.mem_of_find?_eq_some hfind)
        refine ⟨slot, .here hplace hbuf hmem, rfl, hend, hskip, ?_⟩
        have hnamed := List.find?_some hfind
        unfold named filename at hnamed
        cases hname : slot.ent.filename with
        | none => rw [hname] at hnamed; cases hnamed
        | some fname => rfl

theorem slot_of_walk {dir node : FatFile} {fuel : Nat} {name : String}
    (h : walk p readErr fuel dir name = some (.ok (.ok node))) :
    ∃ slot, HasSlot p dir.fs (dir.dirent.clust ≠ 0) slot dir.dirent.clust ∧ node = slot.node dir.fs ∧
      ¬slot.ent.isEnd ∧ ¬slot.ent.isSkipped ∧ slot.ent.filename.isSome := by
  obtain ⟨⟨acc, res⟩, hloop, hres⟩ := Option.map_eq_some_iff.mp h
  obtain ⟨res', rfl, hnode⟩ := map_eq_ok.mp hres
  rcases res' with e | _ | found
  · cases hnode
  · cases hnode
  · obtain rfl : found = node := Except.ok.inj hnode
    rw [forEachEnt] at hloop
    split_ifs at hloop
    · cases hloop
    · exact slot_of_loop hloop

section Fids

variable (htyped : fs.bpb.Typed)

theorem HasSlot.place_eq {isChained : Bool} {slot : DirSlot} {c : Nat} (h : HasSlot p fs isChained slot c) :
    ∃ size, place p fs isChained slot.clust = .ok (slot.sct, size) ∧ slot.index < size / dirEntSize := by
  induction h with
  | @here c sct size buf hplace hbuf hmem =>
      obtain ⟨rfl, rfl, -, hent⟩ := mem_inBuf hmem
      refine ⟨size, hplace, ?_⟩
      have hlt := (List.getElem?_eq_some_iff.mp hent).1
      have hlen : buf.length ≤ size := by
        rw [Volume.eq_bytesAt hbuf]
        exact List.length_take_le _ _
      rw [FatDirEnt.all, List.length_map, List.length_range] at hlt
      exact Nat.lt_of_lt_of_le hlt (Nat.div_le_div_right hlen)
  | later _ _ _ ih => exact ih

include htyped in
theorem HasSlot.index_lt {isChained : Bool} {slot : DirSlot} {c : Nat} (h : HasSlot p fs isChained slot c) :
    slot.index < 2 ^ 32 := by
  obtain ⟨size, hplace, hindex⟩ := h.place_eq
  have hsize : size < 2 ^ 32 := by
    cases isChained with
    | false =>
        obtain ⟨-, rfl⟩ := Prod.mk.inj (Except.ok.inj hplace)
        have hroot := htyped.rootEntCnt
        unfold dirEntSize
        omega
    | true =>
        rw [place_chained] at hplace
        obtain ⟨sct, -, heq⟩ := map_eq_ok.mp hplace
        obtain ⟨-, rfl⟩ := Prod.mk.inj heq
        calc fs.bpb.bytsPerSec * fs.bpb.secPerClus
            < 2 ^ 16 * 2 ^ 8 := Nat.mul_lt_mul'' htyped.bytsPerSec htyped.secPerClus
          _ ≤ 2 ^ 32 := by decide
  exact Nat.lt_trans (Nat.lt_of_lt_of_le hindex (Nat.div_le_self _ _)) hsize

theorem HasSlot.clust_eq {slot : DirSlot} {c : Nat} (h : HasSlot p fs false slot c) : slot.clust = c := by
  cases h with
  | here hplace hbuf hmem => exact (mem_inBuf hmem).2.1
  | later hchained _ _ => cases hchained

theorem fid_eq {slot : DirSlot} (hlt : slot.index < 2 ^ 32) : slot.fid = slot.clust * 2 ^ 32 + slot.index := by
  unfold DirSlot.fid
  rw [← Nat.shiftLeft_add_eq_or_of_lt hlt, Nat.shiftLeft_eq]

theorem fid_inj {slot slot' : DirSlot} (hlt : slot.index < 2 ^ 32) (hlt' : slot'.index < 2 ^ 32)
    (h : slot.fid = slot'.fid) : slot.clust = slot'.clust ∧ slot.index = slot'.index := by
  rw [fid_eq hlt, fid_eq hlt'] at h
  omega

theorem Reach.fs_eq {n : FatFile} {loc : Option Nat} (h : Reach p fs readErr n loc) : n.fs = fs := by
  cases h with
  | root hroot =>
      obtain ⟨ty, -, hfile⟩ := bind_eq_ok.mp hroot
      exact (congrArg FatFile.fs (Except.ok.inj hfile)).symm
  | walk _ _ _ => rfl

theorem fid_of_root {file : FatFile} (hroot : root p fs = .ok file) : file.fid = 0 := by
  obtain ⟨ty, -, hfile⟩ := bind_eq_ok.mp hroot
  exact (congrArg FatFile.fid (Except.ok.inj hfile)).symm

theorem Reach.cases_slot {n : FatFile} {loc : Option Nat} (h : Reach p fs readErr n loc) :
    (loc = none ∧ n.fid = 0) ∨ ∃ slot dir dirLoc, Reach p fs readErr dir dirLoc ∧
      HasSlot p fs (dir.dirent.clust ≠ 0) slot dir.dirent.clust ∧ n = slot.node fs ∧
      loc = some (address fs slot) ∧ ¬slot.ent.isEnd ∧ ¬slot.ent.isSkipped ∧ slot.ent.filename.isSome := by
  cases h with
  | root hroot => exact Or.inl ⟨rfl, fid_of_root hroot⟩
  | @walk dir dirLoc fuel name slot hdir hwalk hslot =>
      obtain ⟨slot', -, hnode, hend, hskip, hname⟩ := slot_of_walk hwalk
      have hent : slot.ent = slot'.ent := congrArg FatFile.dirent hnode
      rw [← hent] at hend hskip hname
      exact Or.inr ⟨slot, dir, dirLoc, hdir, hslot, rfl, rfl, hend, hskip, hname⟩

theorem chained_iff_clust {slot : DirSlot} {dir : FatFile} {loc : Option Nat} (hsound : SoundDirs p fs readErr)
    (hdir : Reach p fs readErr dir loc) (hslot : HasSlot p fs (dir.dirent.clust ≠ 0) slot dir.dirent.clust) :
    (decide (dir.dirent.clust ≠ 0)) = decide (slot.clust ≠ 0) := by
  by_cases hclust : dir.dirent.clust = 0
  · rw [decide_eq_false (not_not.mpr hclust)] at hslot ⊢
    rw [hslot.clust_eq, hclust]
    rfl
  · rw [decide_eq_true hclust] at hslot ⊢
    have htwo := hsound dir loc slot hdir hclust hslot
    exact (decide_eq_true (by omega)).symm

include htyped in
/-- Entries with one number are one entry. -/
theorem address_eq_of_fid {slot slot' : DirSlot} {dir dir' : FatFile} {loc loc' : Option Nat}
    (hsound : SoundDirs p fs readErr) (hdir : Reach p fs readErr dir loc) (hdir' : Reach p fs readErr dir' loc')
    (hslot : HasSlot p fs (dir.dirent.clust ≠ 0) slot dir.dirent.clust)
    (hslot' : HasSlot p fs (dir'.dirent.clust ≠ 0) slot' dir'.dirent.clust) (h : slot.fid = slot'.fid) :
    address fs slot = address fs slot' := by
  obtain ⟨hclust, hindex⟩ := fid_inj (hslot.index_lt htyped) (hslot'.index_lt htyped) h
  have hchained := chained_iff_clust hsound hdir hslot
  have hchained' := chained_iff_clust hsound hdir' hslot'
  obtain ⟨size, hplace, -⟩ := hslot.place_eq
  obtain ⟨size', hplace', -⟩ := hslot'.place_eq
  rw [hchained, hclust] at hplace
  rw [hchained', hplace] at hplace'
  obtain ⟨hsct, -⟩ := Prod.mk.inj (Except.ok.inj hplace')
  unfold address
  rw [hsct, hindex]

include htyped in
/-- An entry with the number of the root is the first of the fixed root region. -/
theorem rootSlotListed_of_fid {slot : DirSlot} {dir : FatFile} {loc : Option Nat} (hsound : SoundDirs p fs readErr)
    (hdir : Reach p fs readErr dir loc) (hslot : HasSlot p fs (dir.dirent.clust ≠ 0) slot dir.dirent.clust)
    (hend : ¬slot.ent.isEnd) (hskip : ¬slot.ent.isSkipped) (hname : slot.ent.filename.isSome) (h : slot.fid = 0) :
    RootSlotListed fs := by
  have hzero : slot.clust = 0 ∧ slot.index = 0 := by
    rw [fid_eq (hslot.index_lt htyped)] at h
    omega
  have hchained := chained_iff_clust hsound hdir hslot
  rw [hchained, hzero.1] at hslot
  obtain ⟨name, hname⟩ := Option.isSome_iff_exists.mp hname
  cases hslot with
  | @here _ sct size buf hplace hbuf hmem =>
      obtain ⟨rfl, rfl⟩ := Prod.mk.inj (Except.ok.inj hplace)
      obtain ⟨-, -, -, hent⟩ := mem_inBuf hmem
      rw [hzero.2] at hent
      exact ⟨buf, slot.ent, name, hbuf, hent, hend, hskip, hname⟩
  | later hchained' _ _ => cases hchained'

theorem root_fixed {file : FatFile} (hroot : root p fs = .ok file) (hext : fs.ext32 = none) :
    file.dirent.ftype = .directory ∧ file.dirent.clust = 0 ∧ file.fs = fs := by
  obtain ⟨ty, hty, hfile⟩ := bind_eq_ok.mp hroot
  have hkind : ty = .fat12 ∨ ty = .fat16 := by
    rw [fatType, hext] at hty
    obtain ⟨cnt, -, hcnt⟩ := bind_eq_ok.mp hty
    rw [← Except.ok.inj hcnt]
    split_ifs
    · exact Or.inl rfl
    · exact Or.inr rfl
  rcases hkind with rfl | rfl
  all_goals
    rw [← Except.ok.inj hfile]
    exact ⟨if_pos (show (0x10 : Byte) &&& 0x10 ≠ 0 by decide), by simp [FatDirEnt.clust], rfl⟩

theorem ext32_of_rootSlotListed (h32 : fs.ext32.isSome → fs.bpb.rootEntCnt = 0) (h : RootSlotListed fs) :
    fs.ext32 = none := by
  obtain ⟨buf, ent, name, hbuf, hent, -⟩ := h
  cases hext : fs.ext32 with
  | none => rfl
  | some ext32 =>
      have hempty : buf = [] := by
        rw [Volume.eq_bytesAt hbuf, h32 (by rw [hext]; rfl), Nat.zero_mul]
        exact List.take_zero
      rw [hempty] at hent
      cases hent

/-- The first entry of the fixed root region is found by its name, and has the number of the root. -/
theorem walk_rootSlot (readErr : String) {file : FatFile} {buf : List Byte} {ent : FatDirEnt} {name : String}
    (hroot : root p fs = .ok file) (hext : fs.ext32 = none)
    (hbuf : fs.part.readBlock (fs.bpb.rootEntCnt * dirEntSize)
      (fs.bpb.rsvdSecCnt + fs.bpb.numFats * fs.fatSz) = some buf)
    (hent : (FatDirEnt.all buf)[0]? = some ent) (hend : ¬ent.isEnd) (hskip : ¬ent.isSkipped)
    (hname : ent.filename = some name) : walk p readErr 1 file name = some (.ok (.ok ⟨ent, fs, 0⟩)) := by
  obtain ⟨ents, hall⟩ : ∃ ents, FatDirEnt.all buf = ent :: ents := by
    cases hall : FatDirEnt.all buf with
    | nil => rw [hall] at hent; cases hent
    | cons ent' ents => rw [hall] at hent; exact ⟨ents, by rw [Option.some.inj hent]⟩
  obtain ⟨hdir, hclust, hfs⟩ := root_fixed hroot hext
  have hplace : place p fs false 0 = .ok (fs.bpb.rsvdSecCnt + fs.bpb.numFats * fs.fatSz,
      fs.bpb.rootEntCnt * dirEntSize) := rfl
  have hvisible : ∀ sct, visible (inBuf sct 0 0 (FatDirEnt.all buf)) =
      ⟨sct, 0, 0, ent⟩ :: visible (inBuf sct 0 1 ents) := by
    intro sct
    rw [hall]
    simp [inBuf, visible, hend, hskip]
  have hnamed : ∀ sct, named name ⟨sct, 0, 0, ent⟩ = true := by
    intro sct
    simp [named, DirSlot.filename, hname, eqIgnoreAsciiCase]
  have hnode : ∀ sct, DirSlot.node fs ⟨sct, 0, 0, ent⟩ = ⟨ent, fs, 0⟩ := by
    intro sct
    simp [DirSlot.node, DirSlot.fid]
  rw [walk, forEachEnt, if_neg (not_not.mpr hdir), hclust, hfs]
  simp only [ne_eq, not_true_eq_false, decide_false, loop]
  rw [round_of_buf hplace hbuf, visit_walkEnt, hvisible, List.find?_cons_of_pos (hnamed _), Option.map_some, hnode]
  rfl

include htyped in
/-- The numbers are unique exactly when no entry that can be listed stands first in the fixed root region. -/
theorem uniqueFids_iff {file : FatFile} (hroot : root p fs = .ok file)
    (h32 : fs.ext32.isSome → fs.bpb.rootEntCnt = 0) (hsound : SoundDirs p fs readErr) :
    UniqueFids p fs readErr ↔ ¬RootSlotListed fs := by
  constructor
  · intro hunique hlisted
    have hext := ext32_of_rootSlotListed h32 hlisted
    obtain ⟨buf, ent, name, hbuf, hent, hend, hskip, hname⟩ := hlisted
    have hwalk := walk_rootSlot readErr hroot hext hbuf hent hend hskip hname
    have hreach : Reach p fs readErr file none := .root hroot
    obtain ⟨slot, hslot, hnode, -⟩ := slot_of_walk hwalk
    rw [hreach.fs_eq] at hslot hnode
    have hfid : (slot.node fs).fmeta.fid = 0 := by rw [← hnode]; rfl
    rw [hnode] at hwalk
    refine hunique file none _ _ hreach (.walk hreach hwalk hslot) nofun ?_
    exact (fid_of_root hroot).trans hfid.symm
  · intro hfirst n loc m loc' hn hm hne heq
    rcases hn.cases_slot with ⟨rfl, hzero⟩ | ⟨slot, dir, dirLoc, hdir, hslot, rfl, rfl, hend, hskip, hname⟩
    · rcases hm.cases_slot with ⟨rfl, -⟩ | ⟨slot, dir, dirLoc, hdir, hslot, rfl, rfl, hend, hskip, hname⟩
      · exact hne rfl
      · exact hfirst (rootSlotListed_of_fid htyped hsound hdir hslot hend hskip hname (heq.symm.trans hzero))
    · rcases hm.cases_slot with ⟨rfl, hzero⟩ | ⟨slot', dir', dirLoc', hdir', hslot', rfl, rfl, -⟩
      · exact hfirst (rootSlotListed_of_fid htyped hsound hdir hslot hend hskip hname (heq.trans hzero))
      · exact hne (congrArg some (address_eq_of_fid htyped hsound hdir hdir' hslot hslot' heq))

end Fids

theorem directory_of_walk {dir node : FatFile} {fuel : Nat} {name : String}
    (h : walk p readErr fuel dir name = some (.ok (.ok node))) : dir.dirent.ftype = .directory := by
  by_contra hdir
  rw [walk, forEachEnt, if_pos hdir] at h
  cases h

/-- The entries of the tree: the directories among them are `SUB` and the root. -/
def InTree (ent : FatDirEnt) : Prop :=
  ent.clust ∈ [0, 2, 3, 6, 7] ∧ (ent.ftype = .directory → ent.clust = 0 ∨ ent.clust = 3)

instance (ent : FatDirEnt) : Decidable (InTree ent) := inferInstanceAs (Decidable (_ ∧ (_ → _)))

/-- A slot in a cluster of the tree. -/
theorem clust_of_hasSlot_tree {slot : DirSlot} {c : Nat} (h : HasSlot .dev treeTable true slot c)
    (hc : c ∈ [2, 3, 4, 5, 6, 7]) : slot.clust ∈ [2, 3, 4, 5, 6, 7] := by
  induction h with
  | here hplace hbuf hmem =>
      rw [(mem_inBuf hmem).2.1]
      exact hc
  | @later c nc _ hnext _ ih =>
      have hall : ∀ c ∈ [2, 3, 4, 5, 6, 7], nextClust .dev treeTable c ∈
          [.ok none, .ok (some 4), .ok (some 5)] := by decide +kernel
      have hnc := hall c hc
      rw [hnext] at hnc
      apply ih
      simp only [List.mem_cons, Except.ok.injEq, Option.some.injEq, reduceCtorEq, List.not_mem_nil, or_false,
        false_or] at hnc
      rcases hnc with rfl | rfl <;> decide

/-- An entry in use of one of the two directories. -/
theorem inTree_of_hasSlot {slot : DirSlot} {dir : FatDirEnt} (hdir : dir.clust = 0 ∨ dir.clust = 3)
    (h : HasSlot .dev treeTable (dir.clust ≠ 0) slot dir.clust) (hend : ¬slot.ent.isEnd) : InTree slot.ent := by
  have hroot : ∀ ent ∈ FatDirEnt.all treeRoot, ¬ent.isEnd → InTree ent := by decide +kernel
  have hsub : ∀ ent ∈ FatDirEnt.all treeSub, ¬ent.isEnd → InTree ent := by decide +kernel
  have hsub2 : ∀ ent ∈ FatDirEnt.all treeSub2, ¬ent.isEnd → InTree ent := by decide +kernel
  have hread3 : treeFloppy.readBlock 512 3 = some treeRoot := by decide +kernel
  have hread5 : treeFloppy.readBlock 512 5 = some treeSub := by decide +kernel
  have hread7 : treeFloppy.readBlock 512 7 = some treeSub2 := by decide +kernel
  rcases hdir with hdir | hdir <;> rw [hdir] at h
  · cases h with
    | here hplace hbuf hmem =>
        obtain ⟨rfl, rfl⟩ := Prod.mk.inj (Except.ok.inj hplace)
        obtain rfl := Option.some.inj (hread3.symm.trans hbuf)
        exact hroot _ (List.mem_of_getElem? (mem_inBuf hmem).2.2.2) hend
    | later hchained _ _ => cases hchained
  · have hplace3 : place .dev treeTable true 3 = .ok (5, 512) := by decide +kernel
    have hplace5 : place .dev treeTable true 5 = .ok (7, 512) := by decide +kernel
    have hnext3 : nextClust .dev treeTable 3 = .ok (some 5) := by decide +kernel
    have hnext5 : nextClust .dev treeTable 5 = .ok none := by decide +kernel
    cases h with
    | here hplace hbuf hmem =>
        obtain ⟨rfl, rfl⟩ := Prod.mk.inj (Except.ok.inj (hplace3.symm.trans hplace))
        obtain rfl := Option.some.inj (hread5.symm.trans hbuf)
        exact hsub _ (List.mem_of_getElem? (mem_inBuf hmem).2.2.2) hend
    | later _ hnext hrest =>
        obtain rfl := Option.some.inj (Except.ok.inj (hnext3.symm.trans hnext))
        cases hrest with
        | here hplace hbuf hmem =>
            obtain ⟨rfl, rfl⟩ := Prod.mk.inj (Except.ok.inj (hplace5.symm.trans hplace))
            obtain rfl := Option.some.inj (hread7.symm.trans hbuf)
            exact hsub2 _ (List.mem_of_getElem? (mem_inBuf hmem).2.2.2) hend
        | later _ hnext _ => cases hnext5.symm.trans hnext

theorem inTree_of_reach {n : FatFile} {loc : Option Nat} (h : Reach .dev treeTable "" n loc) : InTree n.dirent := by
  induction h with
  | root hroot =>
      obtain ⟨hdir, hclust, -⟩ := root_fixed hroot rfl
      exact ⟨by rw [hclust]; decide, fun _ => Or.inl hclust⟩
  | @walk dir loc fuel name slot hdir hwalk hslot ih =>
      obtain ⟨slot', -, hnode, hend, -⟩ := slot_of_walk hwalk
      rw [← show slot.ent = slot'.ent from congrArg FatFile.dirent hnode] at hend
      exact inTree_of_hasSlot (ih.2 (directory_of_walk hwalk)) hslot hend

/-- Three files and a directory on two clusters; the root region starts with a deleted entry. -/
theorem uniqueFids_treeTable : UniqueFids .dev treeTable "" := by
  have hroot : root .dev treeTable = .ok ⟨⟨0x2f :: List.replicate 7 0x20, List.replicate 3 0x20, 0x10, 0, 0, 0⟩,
      treeTable, 0⟩ := rfl
  have hsound : SoundDirs .dev treeTable "" := by
    intro dir loc slot hdir hclust hslot
    have hmem : dir.dirent.clust ∈ [2, 3, 4, 5, 6, 7] := by
      have hmem := (inTree_of_reach hdir).1
      simp only [List.mem_cons, List.not_mem_nil, or_false] at hmem ⊢
      omega
    have htwo : ∀ c ∈ [2, 3, 4, 5, 6, 7], 2 ≤ c := by decide
    exact htwo _ (clust_of_hasSlot_tree hslot hmem)
  refine (uniqueFids_iff (typed_of_new new_treeFloppy) hroot nofun hsound).mpr ?_
  rintro ⟨buf, ent, name, hbuf, hent, -, hskip, -⟩
  have hread : treeFloppy.readBlock 512 3 = some treeRoot := by decide +kernel
  obtain rfl := Option.some.inj (hread.symm.trans hbuf)
  have hfirst : ∀ ent, (FatDirEnt.all treeRoot)[0]? = some ent → ent.isSkipped := by
    intro ent hent
    have hgap : (FatDirEnt.all treeRoot)[0]? = some (FatDirEnt.read gapBytes 0) := by decide +kernel
    cases hgap.symm.trans hent
    decide
  exact hskip (hfirst ent hent)

/-- A floppy with an entry for the file in its root region. -/
def namedFloppy : Volume where
  blockSize := 512
  blockCount := 349
  block lba :=
    if lba = 3 then [0x53, 0x48, 0x4f, 0x52, 0x54, 0x20, 0x20, 0x20, 0x54, 0x58, 0x54, 0x20] ++
      List.replicate 14 0 ++ [2, 0, 5, 0, 0, 0] ++ List.replicate 480 0
    else storedFloppy.block lba
  length_block lba := by
    split_ifs
    · decide +kernel
    · exact storedFloppy.length_block lba

def namedTable : FileAllocTable := { floppyTable with part := namedFloppy }

/-- The node of its root. -/
def namedRoot : FatFile :=
  ⟨⟨[0x2f, 0x20, 0x20, 0x20, 0x20, 0x20, 0x20, 0x20], [0x20, 0x20, 0x20], 0x10, 0, 0, 0⟩, namedTable, 0⟩

theorem root_namedTable : root p namedTable = .ok namedRoot := by
  have hty : fatType p namedTable = .ok .fat12 := by cases p <;> decide +kernel
  rw [root, hty]
  rfl

/-- The first entry of the root region. -/
def namedEnt : FatDirEnt :=
  ⟨[0x53, 0x48, 0x4f, 0x52, 0x54, 0x20, 0x20, 0x20], [0x54, 0x58, 0x54], 0x20, 0, 2, 5⟩

theorem walk_namedRoot : walk p "" 1 namedRoot "SHORT.TXT" = some (.ok (.ok ⟨namedEnt, namedTable, 0⟩)) := by
  have hread : namedFloppy.readBlock 512 3 = some (namedFloppy.block 3) :=
    Volume.readBlock_block (by decide) (by decide)
  exact walk_rootSlot "" root_namedTable rfl hread (by decide +kernel) (by decide) (by decide) (by decide +kernel)

/-- The root of a floppy and the first file in it have one number. -/
theorem fid_collides : new namedFloppy = some namedTable ∧ namedTable.WellFormed ∧
    root .dev namedTable = .ok namedRoot ∧ root .release namedTable = .ok namedRoot ∧
    walk .dev "" 1 namedRoot "SHORT.TXT" = some (.ok (.ok ⟨namedEnt, namedTable, 0⟩)) ∧
    walk .release "" 1 namedRoot "SHORT.TXT" = some (.ok (.ok ⟨namedEnt, namedTable, 0⟩)) ∧
    namedRoot.fmeta.fid = (FatFile.mk namedEnt namedTable 0).fmeta.fid :=
  ⟨new_sameBoot new_floppy (by decide) ⟨rfl, rfl, rfl⟩,
    ⟨by decide, by decide, by decide, by decide, by decide, by decide, by decide, by decide, rfl, by decide⟩,
    root_namedTable, root_namedTable, walk_namedRoot, walk_namedRoot, rfl⟩

end FatFile

end UnixKernel
