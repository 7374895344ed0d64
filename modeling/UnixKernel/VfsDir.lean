import Mathlib.Data.List.AList
import UnixKernel.Vfs

/-! The files and directories that `filesys/mod.rs` keeps in memory, and `create`, `link` and `unlink`. An
`Arc` to one of them is its number in the list of all that were made; nodes of other kinds (devices, files of
a FAT partition) only say what they are and what they have under a name. -/

namespace UnixKernel

open Paths

inductive VirtFNode (φ : Type) where
  | virt (id : Nat)
  | other (node : φ)
  deriving DecidableEq, Repr

/-- `VirtDir::files`. -/
abbrev Files (φ : Type) := AList fun _ : Text => VirtFNode φ

inductive VirtObj (φ : Type) where
  | virtFile
  | virtDir (files : Files φ)

/-- The nodes of other kinds. They have the `create`, `link` and `remove` of the trait. -/
structure OtherNodes (φ : Type) where
  ftype : φ → FType
  walk : φ → Text → Except String φ

variable {φ : Type}

/-- A node that is there when `n` objects have been made. -/
def VirtFNode.Below (n : Nat) : VirtFNode φ → Prop
  | .virt id => id < n
  | .other _ => True

def VirtObj.files : VirtObj φ → Option (Files φ)
  | .virtFile => none
  | .virtDir files => some files

/-- What an in-memory directory holds. -/
def entries (objs : List (VirtObj φ)) : VirtFNode φ → Option (Files φ)
  | .virt id => objs[id]?.bind VirtObj.files
  | .other _ => none

/-- Directories only hold nodes that are there. -/
def Closed (objs : List (VirtObj φ)) : Prop :=
  ∀ dir files, entries objs dir = some files →
    ∀ name node, files.lookup name = some node → node.Below objs.length

/-- The file system; a partition is given by its root. -/
structure VirtualFileSystem (φ : Type) where
  objs : List (VirtObj φ)
  parts : Parts (VirtFNode φ)
  closed : Closed objs
  roots : ∀ entry ∈ parts, entry.2.Below objs.length

namespace VirtFNode

theorem Below.mono {n m : Nat} {node : VirtFNode φ} (h : node.Below n) (hle : n ≤ m) : node.Below m := by
  cases node with
  | virt id => exact Nat.lt_of_lt_of_le h hle
  | other x => trivial

end VirtFNode

section Entries

variable {objs : List (VirtObj φ)}

theorem below_of_entries {dir : VirtFNode φ} {files : Files φ} (h : entries objs dir = some files) :
    dir.Below objs.length := by
  cases dir with
  | other x => trivial
  | virt id =>
      obtain ⟨obj, hobj, -⟩ := Option.bind_eq_some_iff.mp h
      exact (List.getElem?_eq_some_iff.mp hobj).1

/-- Another list of files in a directory. -/
def setDir (objs : List (VirtObj φ)) (files : Files φ) : VirtFNode φ → List (VirtObj φ)
  | .virt id => objs.set id (.virtDir files)
  | .other _ => objs

theorem length_setDir (files : Files φ) (dir : VirtFNode φ) : (setDir objs files dir).length = objs.length := by
  cases dir with
  | virt id => exact List.length_set
  | other x => rfl

theorem entries_setDir_self {dir : VirtFNode φ} {old : Files φ} (files : Files φ)
    (h : entries objs dir = some old) : entries (setDir objs files dir) dir = some files := by
  cases dir with
  | other x => cases h
  | virt id =>
      show Option.bind (objs.set id (.virtDir files))[id]? VirtObj.files = some files
      rw [List.getElem?_set_self (below_of_entries h)]
      rfl

theorem entries_setDir_of_ne {dir node : VirtFNode φ} (files : Files φ) (h : node ≠ dir) :
    entries (setDir objs files dir) node = entries objs node := by
  cases dir with
  | other x => rfl
  | virt id =>
      cases node with
      | other x => rfl
      | virt j =>
          have hne : id ≠ j := by
            rintro rfl
            exact h rfl
          show Option.bind (objs.set id (.virtDir files))[j]? VirtObj.files = _
          rw [List.getElem?_set_ne hne]
          rfl

theorem entries_concat_of_below {node : VirtFNode φ} (obj : VirtObj φ) (h : node.Below objs.length) :
    entries (objs ++ [obj]) node = entries objs node := by
  cases node with
  | other x => rfl
  | virt id => exact congrArg (Option.bind · VirtObj.files) (List.getElem?_append_left h)

theorem entries_concat_new (obj : VirtObj φ) : entries (objs ++ [obj]) (.virt objs.length) = obj.files :=
  congrArg (Option.bind · VirtObj.files) List.getElem?_concat_length

theorem Closed.setDir {dir : VirtFNode φ} {old files : Files φ} (h : Closed objs)
    (hdir : entries objs dir = some old)
    (hfiles : ∀ name node, files.lookup name = some node → node.Below objs.length) :
    Closed (setDir objs files dir) := by
  intro node files' hnode name child hchild
  rw [length_setDir]
  by_cases heq : node = dir
  · rw [heq, entries_setDir_self files hdir] at hnode
    exact hfiles name child (Option.some.inj hnode ▸ hchild)
  · rw [entries_setDir_of_ne files heq] at hnode
    exact h node files' hnode name child hchild

theorem Closed.concat {obj : VirtObj φ} (h : Closed objs) (hobj : ∀ files, obj.files = some files → files = ∅) :
    Closed (objs ++ [obj]) := by
  intro dir files hdir name node hnode
  by_cases hbelow : dir.Below objs.length
  · rw [entries_concat_of_below obj hbelow] at hdir
    rw [List.length_append]
    exact (h dir files hdir name node hnode).mono (Nat.le_add_right _ _)
  · -- the only other directory is the new one, which is empty
    have hnew : dir = .virt objs.length := by
      have hlt := below_of_entries hdir
      rw [List.length_append] at hlt
      cases dir with
      | other x => exact absurd trivial hbelow
      | virt id => exact congrArg _ (Nat.le_antisymm (Nat.le_of_lt_succ hlt) (Nat.le_of_not_lt hbelow))
    rw [hnew, entries_concat_new] at hdir
    rw [hobj files hdir, AList.lookup_empty] at hnode
    cases hnode

end Entries

/-! ### Changes to a directory -/

/-- `VirtFile::new` and `VirtDir::new`. -/
def blank : FType → Except String (VirtObj φ)
  | .regular => .ok .virtFile
  | .directory => .ok (.virtDir ∅)
  | _ => .error "Unsupported file type for creation"

/-- `link` of a node. -/
def linkObjs (objs : List (VirtObj φ)) (dir : VirtFNode φ) (name : Text) (node : VirtFNode φ) :
    Except String (List (VirtObj φ)) :=
  match entries objs dir with
  | none => .error "This is not a directory"
  | some files =>
      if (files.lookup name).isSome then .error "File already exists"
      else .ok (setDir objs (files.insert name node) dir)

/-- `create` of a node. -/
def createObjs (objs : List (VirtObj φ)) (dir : VirtFNode φ) (name : Text) (t : FType) :
    Except String (List (VirtObj φ)) :=
  match entries objs dir with
  | none => .error "This is not a directory"
  | some _ => do
      let obj ← blank t
      linkObjs (objs ++ [obj]) dir name (.virt objs.length)

/-- `remove` of a node. -/
def removeObjs (objs : List (VirtObj φ)) (dir : VirtFNode φ) (name : Text) : Except String (List (VirtObj φ)) :=
  match entries objs dir with
  | none => .error "This is not a directory"
  | some files =>
      if (files.lookup name).isSome then .ok (setDir objs (files.erase name) dir)
      else .error "No such file"

section Changes

variable {objs objs' : List (VirtObj φ)} {dir node : VirtFNode φ} {name : Text} {t : FType}

theorem blank_eq_ok {obj : VirtObj φ} (h : blank t = .ok obj) :
    t = .regular ∧ obj.files = none ∨ t = .directory ∧ obj.files = some ∅ := by
  cases t <;> cases h
  · exact .inr ⟨rfl, rfl⟩
  · exact .inl ⟨rfl, rfl⟩

theorem linkObjs_eq_ok (h : linkObjs objs dir name node = .ok objs') :
    ∃ files, entries objs dir = some files ∧ files.lookup name = none ∧
      objs' = setDir objs (files.insert name node) dir := by
  unfold linkObjs at h
  rcases hfiles : entries objs dir with _ | files
  · rw [hfiles] at h
    cases h
  · rw [hfiles] at h
    dsimp only at h
    split_ifs at h with hname
    exact ⟨files, rfl, Option.not_isSome_iff_eq_none.mp hname, (Except.ok.inj h).symm⟩

theorem createObjs_eq_ok (h : createObjs objs dir name t = .ok objs') :
    ∃ files obj, entries objs dir = some files ∧ files.lookup name = none ∧ blank t = .ok obj ∧
      objs' = setDir (objs ++ [obj]) (files.insert name (.virt objs.length)) dir := by
  unfold createObjs at h
  rcases hfiles : entries objs dir with _ | files
  · rw [hfiles] at h
    cases h
  · rw [hfiles] at h
    obtain ⟨obj, hobj, hlink⟩ := bind_eq_ok.mp h
    obtain ⟨files', hfiles', hname, hobjs⟩ := linkObjs_eq_ok hlink
    rw [entries_concat_of_below obj (below_of_entries hfiles), hfiles] at hfiles'
    obtain rfl := Option.some.inj hfiles'
    exact ⟨files, obj, rfl, hname, hobj, hobjs⟩

theorem removeObjs_eq_ok (h : removeObjs objs dir name = .ok objs') :
    ∃ files, entries objs dir = some files ∧ objs' = setDir objs (files.erase name) dir := by
  unfold removeObjs at h
  rcases hfiles : entries objs dir with _ | files
  · rw [hfiles] at h
    cases h
  · rw [hfiles] at h
    dsimp only at h
    split_ifs at h with hname
    exact ⟨files, rfl, (Except.ok.inj h).symm⟩

/-- What a change leaves: directories with nodes that are there, and every object. -/
def Grown (objs objs' : List (VirtObj φ)) : Prop := Closed objs' ∧ objs.length ≤ objs'.length

theorem grown_insert {files : Files φ} (hobjs : Closed objs) (hfiles : entries objs dir = some files)
    (hnode : node.Below objs.length) : Grown objs (setDir objs (files.insert name node) dir) := by
  refine ⟨hobjs.setDir hfiles ?_, (length_setDir _ dir).ge⟩
  intro n child hchild
  by_cases hn : n = name
  · rw [hn, AList.lookup_insert] at hchild
    exact Option.some.inj hchild ▸ hnode
  · rw [AList.lookup_insert_ne hn] at hchild
    exact hobjs dir files hfiles n child hchild

theorem grown_linkObjs (hobjs : Closed objs) (hnode : node.Below objs.length)
    (h : linkObjs objs dir name node = .ok objs') : Grown objs objs' := by
  obtain ⟨files, hfiles, -, rfl⟩ := linkObjs_eq_ok h
  exact grown_insert hobjs hfiles hnode

theorem grown_createObjs (hobjs : Closed objs) (h : createObjs objs dir name t = .ok objs') :
    Grown objs objs' := by
  obtain ⟨files, obj, hfiles, -, hobj, rfl⟩ := createObjs_eq_ok h
  have hempty : ∀ files, obj.files = some files → files = ∅ := by
    intro files hsome
    rcases blank_eq_ok hobj with ⟨-, hnone⟩ | ⟨-, hdir⟩
    · exact absurd (hnone.symm.trans hsome) (Option.some_ne_none files).symm
    · exact Option.some.inj (hsome.symm.trans hdir)
  have hlen : (objs ++ [obj]).length = objs.length + 1 := List.length_append
  have hnew : (VirtFNode.virt objs.length : VirtFNode φ).Below (objs ++ [obj]).length := by
    rw [hlen]
    exact Nat.lt_succ_self _
  have hgrown : Grown (objs ++ [obj]) (setDir (objs ++ [obj]) (files.insert name (.virt objs.length)) dir) :=
    grown_insert (hobjs.concat hempty) ((entries_concat_of_below obj (below_of_entries hfiles)).trans hfiles) hnew
  exact ⟨hgrown.1, (Nat.le_of_lt (hlen ▸ Nat.lt_succ_self _)).trans hgrown.2⟩

theorem grown_removeObjs (hobjs : Closed objs) (h : removeObjs objs dir name = .ok objs') : Grown objs objs' := by
  obtain ⟨files, hfiles, rfl⟩ := removeObjs_eq_ok h
  refine ⟨hobjs.setDir hfiles ?_, (length_setDir _ dir).ge⟩
  intro n child hchild
  by_cases hn : n = name
  · rw [hn, AList.lookup_erase] at hchild
    cases hchild
  · rw [AList.lookup_erase_ne hn] at hchild
    exact hobjs dir files hfiles n child hchild

end Changes

/-! ### The file system -/

/-- `Option::ok_or`. -/
def okOr {α : Type} (x : Option α) (e : String) : Except String α := x.elim (.error e) .ok

theorem okOr_eq_ok {α : Type} {x : Option α} {e : String} {a : α} : okOr x e = .ok a ↔ x = some a := by
  cases x with
  | none => exact iff_of_false (by intro h; cases h) (Option.some_ne_none a).symm
  | some b => exact (Except.ok.injEq b a ▸ Option.some.injEq b a ▸ Iff.rfl)

/-- `get_file_name`. -/
def getFileName (path : Text) : Option Text :=
  match (split path).getLast? with
  | some name => if IsName name then some name else none
  | none => none

theorem getFileName_eq_some {path name : Text} (h : getFileName path = some name) :
    ∃ cs, split path = cs ++ [name] ∧ IsName name := by
  unfold getFileName at h
  rcases List.eq_nil_or_concat (split path) with hnil | ⟨cs, c, hconcat⟩
  · exact absurd hnil (split_ne_nil path)
  · rw [List.concat_eq_append] at hconcat
    rw [hconcat, List.getLast?_concat] at h
    dsimp only at h
    split_ifs at h with hname
    obtain rfl := Option.some.inj h
    exact ⟨cs, hconcat, hname⟩

namespace VirtualFileSystem

variable (others : OtherNodes φ) (s : VirtualFileSystem φ)

def init : VirtualFileSystem φ where
  objs := [.virtDir ∅]
  parts := [(['/'], .virt 0)]
  closed := by
    intro dir files hfiles name node hnode
    cases dir with
    | other x => cases hfiles
    | virt id =>
        cases id with
        | zero =>
            cases hfiles
            rw [AList.lookup_empty] at hnode
            cases hnode
        | succ id => cases hfiles
  roots := by
    intro entry hentry
    obtain rfl := List.mem_singleton.mp hentry
    exact Nat.zero_lt_one

/-- What the nodes answer. -/
def nodes : Nodes (VirtFNode φ) (VirtFNode φ) where
  ftype
    | .virt id => if (entries s.objs (.virt id)).isSome then .directory else .regular
    | .other x => others.ftype x
  walk node name :=
    match node with
    | .virt id =>
        match entries s.objs (.virt id) with
        | some files => okOr (files.lookup name) "No such file"
        | none => .error "This is not a directory"
    | .other x => (others.walk x name).map .other
  root part := part

/-- The file system with the objects of a change. -/
def update (change : Except String (List (VirtObj φ))) (h : ∀ objs, change = .ok objs → Grown s.objs objs) :
    Except String (VirtualFileSystem φ) :=
  match change, h with
  | .error e, _ => .error e
  | .ok objs, h => .ok
      { objs
        parts := s.parts
        closed := (h objs rfl).1
        roots := fun entry hentry => (s.roots entry hentry).mono (h objs rfl).2 }

def walk (path : Text) : Except String (VirtFNode φ) := Vfs.walk (s.nodes others) s.parts path

def create (path : Text) (t : FType) : Except String (VirtualFileSystem φ) := do
  let dir ← Vfs.walkParent (s.nodes others) s.parts path
  let filename ← okOr (getFileName path) "Invalid path"
  s.update (createObjs s.objs dir filename t) fun _ => grown_createObjs s.closed

def link (path : Text) (node : VirtFNode φ) (hnode : node.Below s.objs.length) :
    Except String (VirtualFileSystem φ) := do
  let dir ← Vfs.walkParent (s.nodes others) s.parts path
  let filename ← okOr (getFileName path) "Invalid path"
  s.update (linkObjs s.objs dir filename node) fun _ => grown_linkObjs s.closed hnode

def unlink (path : Text) : Except String (VirtualFileSystem φ) := do
  let dir ← Vfs.walkParent (s.nodes others) s.parts path
  let filename ← okOr (getFileName path) "Invalid path"
  s.update (removeObjs s.objs dir filename) fun _ => grown_removeObjs s.closed

/-- `VirtPart::new`, whose root is the last object. -/
def newPart : VirtualFileSystem φ where
  objs := s.objs ++ [.virtDir ∅]
  parts := s.parts
  closed := by
    apply s.closed.concat
    intro files h
    exact (Option.some.inj h).symm
  roots entry hentry := (s.roots entry hentry).mono (List.length_append ▸ Nat.le_add_right _ _)

def mount (path : Text) (part : VirtFNode φ) (hpart : part.Below s.objs.length) :
    Except String (VirtualFileSystem φ) :=
  match h : Vfs.mount (s.nodes others) s.parts path part with
  | .error e => .error e
  | .ok parts => .ok
      { objs := s.objs
        parts
        closed := s.closed
        roots := by
          intro entry hentry
          obtain ⟨-, -, rfl⟩ := Vfs.mount_eq_ok.mp h
          rcases List.mem_cons.mp hentry with rfl | hentry
          · exact hpart
          · exact s.roots entry hentry }

def unmount (path : Text) : Except String (VirtualFileSystem φ) :=
  match h : Vfs.unmount s.parts path with
  | .error e => .error e
  | .ok parts => .ok
      { objs := s.objs
        parts
        closed := s.closed
        roots := by
          intro entry hentry
          unfold Vfs.unmount at h
          split_ifs at h
          obtain rfl := Except.ok.inj h
          exact s.roots entry (List.mem_of_mem_filter hentry) }

variable {others s} {s' : VirtualFileSystem φ}

theorem update_eq_ok {change : Except String (List (VirtObj φ))} {h : ∀ objs, change = .ok objs → Grown s.objs objs}
    (hok : s.update change h = .ok s') : change = .ok s'.objs ∧ s'.parts = s.parts := by
  cases change with
  | error e => cases hok
  | ok objs =>
      obtain rfl := Except.ok.inj hok
      exact ⟨rfl, rfl⟩

theorem create_eq_ok {path : Text} {t : FType} (h : s.create others path t = .ok s') :
    ∃ dir name, Vfs.walkParent (s.nodes others) s.parts path = .ok dir ∧ getFileName path = some name ∧
      createObjs s.objs dir name t = .ok s'.objs ∧ s'.parts = s.parts := by
  obtain ⟨dir, hdir, h⟩ := bind_eq_ok.mp h
  obtain ⟨name, hname, h⟩ := bind_eq_ok.mp h
  exact ⟨dir, name, hdir, okOr_eq_ok.mp hname, update_eq_ok h⟩

theorem unlink_eq_ok {path : Text} (h : s.unlink others path = .ok s') :
    ∃ dir name, Vfs.walkParent (s.nodes others) s.parts path = .ok dir ∧ getFileName path = some name ∧
      removeObjs s.objs dir name = .ok s'.objs ∧ s'.parts = s.parts := by
  obtain ⟨dir, hdir, h⟩ := bind_eq_ok.mp h
  obtain ⟨name, hname, h⟩ := bind_eq_ok.mp h
  exact ⟨dir, name, hdir, okOr_eq_ok.mp hname, update_eq_ok h⟩

/-! ### What the nodes answer before and after -/

theorem walk_entries {node : VirtFNode φ} {files : Files φ} (h : entries s.objs node = some files) (name : Text) :
    (s.nodes others).walk node name = okOr (files.lookup name) "No such file" := by
  cases node with
  | other x => cases h
  | virt id =>
      unfold nodes
      dsimp only
      rw [h]

theorem walk_none {id : Nat} {name : Text} (h : entries s.objs (.virt id) = none) :
    (s.nodes others).walk (.virt id) name = .error "This is not a directory" := by
  unfold nodes
  dsimp only
  rw [h]

theorem ftype_virt (id : Nat) : (s.nodes others).ftype (.virt id) =
    if (entries s.objs (.virt id)).isSome then .directory else .regular := rfl

theorem ftype_entries {node : VirtFNode φ} {files : Files φ} (h : entries s.objs node = some files) :
    (s.nodes others).ftype node = .directory := by
  cases node with
  | other x => cases h
  | virt id => rw [ftype_virt, h, Option.isSome_some, if_pos rfl]

/-- Every directory of the first is one of the second. -/
def DirsIn (s s' : VirtualFileSystem φ) : Prop :=
  ∀ node files, entries s.objs node = some files → ∃ files', entries s'.objs node = some files'

theorem DirsIn.ftype (h : DirsIn s s') {node : VirtFNode φ} (hdir : (s.nodes others).ftype node = .directory) :
    (s'.nodes others).ftype node = .directory := by
  cases node with
  | other x => exact hdir
  | virt id =>
      rw [ftype_virt] at hdir
      split_ifs at hdir with hsome
      obtain ⟨files, hfiles⟩ := Option.isSome_iff_exists.mp hsome
      obtain ⟨files', hfiles'⟩ := h _ _ hfiles
      exact ftype_entries hfiles'

/-- The second has an entry of the first. -/
def Has (s s' : VirtualFileSystem φ) (node : VirtFNode φ) (name : Text) : Prop :=
  ∀ files child, entries s.objs node = some files → files.lookup name = some child →
    ∃ files', entries s'.objs node = some files' ∧ files'.lookup name = some child

theorem Has.walk {node child : VirtFNode φ} {name : Text} (h : Has s s' node name)
    (hwalk : (s.nodes others).walk node name = .ok child) : (s'.nodes others).walk node name = .ok child := by
  cases node with
  | other x => exact hwalk
  | virt id =>
      rcases hfiles : entries s.objs (.virt id) with _ | files
      · rw [walk_none hfiles] at hwalk
        cases hwalk
      · rw [walk_entries hfiles, okOr_eq_ok] at hwalk
        obtain ⟨files', hfiles', hlookup⟩ := h files child hfiles hwalk
        rw [walk_entries hfiles', okOr_eq_ok]
        exact hlookup

section Removed

variable {dir : VirtFNode φ} {name : Text} (h : removeObjs s.objs dir name = .ok s'.objs)

include h

theorem entries_removed_of_ne {node : VirtFNode φ} (hne : node ≠ dir) :
    entries s'.objs node = entries s.objs node := by
  obtain ⟨files, -, hobjs⟩ := removeObjs_eq_ok h
  rw [hobjs, entries_setDir_of_ne _ hne]

theorem entries_removed : ∃ files, entries s.objs dir = some files ∧
    entries s'.objs dir = some (files.erase name) := by
  obtain ⟨files, hfiles, hobjs⟩ := removeObjs_eq_ok h
  exact ⟨files, hfiles, by rw [hobjs, entries_setDir_self _ hfiles]⟩

theorem dirsIn_removed : DirsIn s s' ∧ DirsIn s' s := by
  obtain ⟨files, hfiles, hfiles'⟩ := entries_removed h
  constructor <;> intro node found hfound <;> by_cases hne : node = dir
  · exact ⟨_, hne ▸ hfiles'⟩
  · exact ⟨found, (entries_removed_of_ne h hne).trans hfound⟩
  · exact ⟨_, hne ▸ hfiles⟩
  · exact ⟨found, (entries_removed_of_ne h hne).symm.trans hfound⟩

theorem has_removed {node : VirtFNode φ} {c : Text} (hne : ¬(node = dir ∧ c = name)) : Has s s' node c := by
  intro found child hfound hchild
  by_cases hnode : node = dir
  · obtain ⟨files, hfiles, hfiles'⟩ := entries_removed h
    rw [hnode, hfiles] at hfound
    obtain rfl := Option.some.inj hfound
    refine ⟨_, hnode ▸ hfiles', ?_⟩
    rw [AList.lookup_erase_ne fun hc => hne ⟨hnode, hc⟩]
    exact hchild
  · exact ⟨found, (entries_removed_of_ne h hnode).trans hfound, hchild⟩

theorem has_of_removed {node : VirtFNode φ} {c : Text} : Has s' s node c := by
  intro found child hfound hchild
  by_cases hnode : node = dir
  · obtain ⟨files, hfiles, hfiles'⟩ := entries_removed h
    rw [hnode, hfiles'] at hfound
    obtain rfl := Option.some.inj hfound
    refine ⟨files, hnode ▸ hfiles, ?_⟩
    have hc : c ≠ name := by
      rintro rfl
      rw [AList.lookup_erase] at hchild
      cases hchild
    rw [AList.lookup_erase_ne hc] at hchild
    exact hchild
  · exact ⟨found, (entries_removed_of_ne h hnode).symm.trans hfound, hchild⟩

theorem walk_removed : (s'.nodes others).walk dir name = .error "No such file" := by
  obtain ⟨files, -, hfiles'⟩ := entries_removed h
  rw [walk_entries hfiles', AList.lookup_erase]
  rfl

end Removed

section Created

variable {dir : VirtFNode φ} {name : Text} {t : FType} (h : createObjs s.objs dir name t = .ok s'.objs)

include h

theorem entries_created : ∃ files, entries s.objs dir = some files ∧ files.lookup name = none ∧
    entries s'.objs dir = some (files.insert name (.virt s.objs.length)) := by
  obtain ⟨files, obj, hfiles, hname, -, hobjs⟩ := createObjs_eq_ok h
  have hconcat := (entries_concat_of_below obj (below_of_entries hfiles)).trans hfiles
  exact ⟨files, hfiles, hname, by rw [hobjs, entries_setDir_self _ hconcat]⟩

theorem entries_created_of_ne {node : VirtFNode φ} {files : Files φ} (hne : node ≠ dir)
    (hfiles : entries s.objs node = some files) : entries s'.objs node = some files := by
  obtain ⟨_, obj, -, -, -, hobjs⟩ := createObjs_eq_ok h
  rw [hobjs, entries_setDir_of_ne _ hne, entries_concat_of_below obj (below_of_entries hfiles), hfiles]

theorem dirsIn_created : DirsIn s s' := by
  intro node found hfound
  by_cases hne : node = dir
  · obtain ⟨_, -, -, hfiles'⟩ := entries_created h
    exact ⟨_, hne ▸ hfiles'⟩
  · exact ⟨found, entries_created_of_ne h hne hfound⟩

theorem has_created {node : VirtFNode φ} {c : Text} : Has s s' node c := by
  intro found child hfound hchild
  by_cases hnode : node = dir
  · obtain ⟨files, hfiles, hname, hfiles'⟩ := entries_created h
    rw [hnode, hfiles] at hfound
    obtain rfl := Option.some.inj hfound
    refine ⟨_, hnode ▸ hfiles', ?_⟩
    have hc : c ≠ name := by
      rintro rfl
      exact absurd (hname.symm.trans hchild) (Option.some_ne_none child).symm
    rw [AList.lookup_insert_ne hc]
    exact hchild
  · exact ⟨found, entries_created_of_ne h hnode hfound, hchild⟩

theorem walk_created : (s'.nodes others).walk dir name = .ok (.virt s.objs.length) := by
  obtain ⟨files, -, -, hfiles'⟩ := entries_created h
  rw [walk_entries hfiles', AList.lookup_insert]
  rfl

theorem ftype_created : (s'.nodes others).ftype (.virt s.objs.length) = t := by
  obtain ⟨files, obj, hfiles, -, hobj, hobjs⟩ := createObjs_eq_ok h
  have hne : (.virt s.objs.length : VirtFNode φ) ≠ dir := by
    rintro rfl
    exact absurd (below_of_entries hfiles) (Nat.lt_irrefl _)
  rw [ftype_virt, hobjs, entries_setDir_of_ne _ hne, entries_concat_new]
  rcases blank_eq_ok hobj with ⟨rfl, hnone⟩ | ⟨rfl, hdir⟩
  · rw [hnone]
    rfl
  · rw [hdir]
    rfl

end Created

/-! ### Walks before and after -/

variable (others s)

/-- The walk of a path finds the last name of the path, in the directory that the path leads to and with
nothing mounted there, before it comes to the end. -/
def Crosses (path : Text) : Prop :=
  ∃ part dir name ds es mid, s.parts.lookup ['/'] = some part ∧
    Vfs.walkParent (s.nodes others) s.parts path = .ok dir ∧ getFileName path = some name ∧
    split path = ds ++ name :: (es ++ [name]) ∧ Vfs.run (s.nodes others) s.parts part Vfs.start ds = .ok mid ∧
    Vfs.last part mid = dir ∧ s.parts.lookup (pathOf (canon (ds ++ [name]))) = none

variable {others s}

theorem walk_create {path : Text} {t : FType} (h : s.create others path t = .ok s') :
    s'.walk others path = .ok ((s.parts.lookup (Vfs.canonPath path)).getD (.virt s.objs.length)) ∧
      (s'.nodes others).ftype (.virt s.objs.length) = t := by
  obtain ⟨dir, name, hparent, hname, hobjs, hparts⟩ := create_eq_ok h
  obtain ⟨cs, hsplit, hisName⟩ := getFileName_eq_some hname
  obtain ⟨part, st, hroot, hrun, rfl, hdir⟩ := (Vfs.walkParent_eq_ok hsplit hisName).mp hparent
  refine ⟨?_, ftype_created hobjs⟩
  have hslash : ∀ c ∈ cs, '/' ∉ c := fun c hc =>
    slash_not_mem_of_mem_split (hsplit ▸ List.mem_append_left _ hc)
  have hrun' : Vfs.run (s'.nodes others) s.parts part Vfs.start cs = .ok st := by
    apply Vfs.run_transfer (fun _ => (dirsIn_created hobjs).ftype) _ rfl hrun
    intro ds c mid node _ _ _ _ hwalk
    exact (has_created hobjs).walk hwalk
  have htext : push st.pathNow name = Vfs.canonPath path := by
    rw [Vfs.push_eq_pathOf hslash hisName hrun, ← hsplit]
    rfl
  unfold walk
  rw [hparts]
  refine Vfs.walk_eq_ok.mpr ⟨part, ⟨_ :: st.stack, push st.pathNow name⟩, hroot, ?_, rfl⟩
  rw [hsplit, Vfs.run_concat]
  refine (congrArg (· >>= _) hrun').trans ?_
  refine Vfs.step_eq_ok.mpr ⟨(dirsIn_created hobjs).ftype hdir, ?_⟩
  rw [if_pos hisName]
  refine ⟨_, ?_, rfl⟩
  unfold Vfs.child
  rw [htext]
  rcases s.parts.lookup (Vfs.canonPath path) with _ | mounted
  · exact walk_created hobjs
  · rfl

/-- Where a walk finds the entry that was removed, it stops. -/
theorem run_removed_ne_ok {dir part : VirtFNode φ} {name : Text} {ds : List Text} {mid st : Walk (VirtFNode φ)}
    (h : removeObjs s.objs dir name = .ok s'.objs) (hds : ∀ c ∈ ds, '/' ∉ c) (hname : IsName name)
    (hrun : Vfs.run (s.nodes others) s.parts part Vfs.start ds = .ok mid) (hdir : Vfs.last part mid = dir)
    (hfree : s.parts.lookup (pathOf (canon (ds ++ [name]))) = none) :
    Vfs.run (s'.nodes others) s.parts part Vfs.start (ds ++ [name]) ≠ .ok st := by
  intro hrun'
  rw [Vfs.run_concat] at hrun'
  obtain ⟨mid', hmid', hstep⟩ := bind_eq_ok.mp hrun'
  have hmid : Vfs.run (s.nodes others) s.parts part Vfs.start ds = .ok mid' := by
    apply Vfs.run_transfer (fun _ => (dirsIn_removed h).2.ftype) _ rfl hmid'
    intro es c st node _ _ _ _ hwalk
    exact (has_of_removed h).walk hwalk
  obtain rfl := Except.ok.inj (hmid.symm.trans hrun)
  obtain ⟨-, hdone⟩ := Vfs.step_eq_ok.mp hstep
  rw [if_pos hname] at hdone
  obtain ⟨node, hchild, -⟩ := hdone
  have htext : push mid'.pathNow name = pathOf (canon (ds ++ [name])) :=
    Vfs.push_eq_pathOf hds hname hmid
  unfold Vfs.child at hchild
  rw [htext, hfree, hdir, walk_removed h] at hchild
  cases hchild

theorem walk_unlink_of_mounted {path : Text} {mounted : VirtFNode φ} (h : s.unlink others path = .ok s')
    (hmounted : s.parts.lookup (Vfs.canonPath path) = some mounted) (hcross : ¬s.Crosses others path) :
    s'.walk others path = .ok mounted := by
  obtain ⟨dir, name, hparent, hname, hobjs, hparts⟩ := unlink_eq_ok h
  obtain ⟨cs, hsplit, hisName⟩ := getFileName_eq_some hname
  obtain ⟨part, st, hroot, hrun, hlast, hdir⟩ := (Vfs.walkParent_eq_ok hsplit hisName).mp hparent
  have hcs : ∀ c ∈ cs, '/' ∉ c := fun c hc =>
    slash_not_mem_of_mem_split (hsplit ▸ List.mem_append_left _ hc)
  -- no entry on the way is the one that was removed
  have hrun' : Vfs.run (s'.nodes others) s.parts part Vfs.start cs = .ok st := by
    apply Vfs.run_transfer (fun _ => (dirsIn_removed hobjs).1.ftype) _ rfl hrun
    intro ds c mid node hds hmid hc hfree hwalk
    apply (has_removed hobjs _).walk hwalk
    rintro ⟨hmidlast, rfl⟩
    obtain ⟨es, hes⟩ := hds
    have hdsSlash : ∀ d ∈ ds, '/' ∉ d := fun d hd =>
      hcs d (hes ▸ List.mem_append_left _ (List.mem_append_left _ hd))
    refine hcross ⟨part, dir, c, ds, es, mid, hroot, hparent, hname, ?_, hmid, hmidlast, ?_⟩
    · rw [hsplit, ← hes, List.append_assoc, List.append_assoc]
      rfl
    · rw [← Vfs.push_eq_pathOf hdsSlash hc hmid]
      exact hfree
  have htext : push st.pathNow name = Vfs.canonPath path := by
    rw [Vfs.push_eq_pathOf hcs hisName hrun, ← hsplit]
    rfl
  unfold walk
  rw [hparts]
  refine Vfs.walk_eq_ok.mpr ⟨part, ⟨mounted :: st.stack, push st.pathNow name⟩, hroot, ?_, rfl⟩
  rw [hsplit, Vfs.run_concat]
  refine (congrArg (· >>= _) hrun').trans ?_
  refine Vfs.step_eq_ok.mpr ⟨(dirsIn_removed hobjs).1.ftype (hlast ▸ hdir), ?_⟩
  rw [if_pos hisName]
  refine ⟨mounted, ?_, rfl⟩
  unfold Vfs.child
  rw [htext, hmounted]
  rfl

theorem walk_unlink_ne_ok {path : Text} {node : VirtFNode φ} (h : s.unlink others path = .ok s')
    (hcond : s.parts.lookup (Vfs.canonPath path) = none ∨ s.Crosses others path) :
    s'.walk others path ≠ .ok node := by
  intro hwalk
  obtain ⟨dir, name, hparent, hname, hobjs, hparts⟩ := unlink_eq_ok h
  obtain ⟨cs, hsplit, hisName⟩ := getFileName_eq_some hname
  obtain ⟨part, st, hroot, hrun, hlast, hdir⟩ := (Vfs.walkParent_eq_ok hsplit hisName).mp hparent
  have hslash : ∀ c ∈ split path, '/' ∉ c := fun c hc => slash_not_mem_of_mem_split hc
  unfold walk at hwalk
  rw [hparts] at hwalk
  obtain ⟨part', st', hroot', hrun', -⟩ := Vfs.walk_eq_ok.mp hwalk
  obtain rfl := Option.some.inj (hroot.symm.trans hroot')
  rcases hcond with hfree | ⟨part', dir', name', ds, es, mid, hroot', hparent', hname', hds, hmid, hlast', hfree⟩
  · have hcs : ∀ c ∈ cs, '/' ∉ c := fun c hc => hslash c (hsplit ▸ List.mem_append_left _ hc)
    unfold Vfs.canonPath at hfree
    rw [hsplit] at hrun' hfree
    exact run_removed_ne_ok hobjs hcs hisName hrun hlast hfree hrun'
  · obtain rfl := Option.some.inj (hroot.symm.trans hroot')
    obtain rfl := Except.ok.inj (hparent.symm.trans hparent')
    obtain rfl := Option.some.inj (hname.symm.trans hname')
    have hdsSlash : ∀ d ∈ ds, '/' ∉ d := fun d hd => hslash d (hds ▸ List.mem_append_left _ hd)
    have hcut : split path = (ds ++ [name]) ++ (es ++ [name]) := by
      rw [hds, List.append_assoc]
      rfl
    rw [hcut, Vfs.run_append] at hrun'
    obtain ⟨upto, hupto, -⟩ := bind_eq_ok.mp hrun'
    exact run_removed_ne_ok hobjs hdsSlash hisName hmid hlast' hfree hupto

/-- After `create` the path leads to a new node of the type exactly if nothing is mounted at the canonical
path; after `unlink` it leads nowhere exactly if nothing is mounted there, or it needs the entry on its way. -/
theorem create_unlink_walk (others : OtherNodes φ) (s : VirtualFileSystem φ) (path : Text) :
    (∀ t s', s.create others path t = .ok s' →
      ((∃ node, s'.walk others path = .ok node ∧ (s'.nodes others).ftype node = t ∧ ¬node.Below s.objs.length) ↔
        s.parts.lookup (Vfs.canonPath path) = none)) ∧
    ∀ s', s.unlink others path = .ok s' →
      ((∃ e, s'.walk others path = .error e) ↔
        s.parts.lookup (Vfs.canonPath path) = none ∨ s.Crosses others path) := by
  constructor
  · intro t s' h
    obtain ⟨hwalk, htype⟩ := walk_create h
    rw [hwalk]
    rcases hmounted : s.parts.lookup (Vfs.canonPath path) with _ | mounted
    · exact iff_of_true ⟨_, rfl, htype, Nat.lt_irrefl _⟩ rfl
    · refine iff_of_false ?_ (Option.some_ne_none mounted)
      rintro ⟨node, hnode, -, hnew⟩
      obtain rfl := Except.ok.inj hnode
      obtain ⟨front, back, hparts, -⟩ := List.lookup_eq_some_iff.mp hmounted
      exact hnew (s.roots (_, mounted) (hparts ▸ List.mem_append_right front List.mem_cons_self))
  · intro s' h
    constructor
    · rintro ⟨e, herror⟩
      by_contra hcond
      obtain ⟨hmounted, hcross⟩ := not_or.mp hcond
      obtain ⟨mounted, hmounted⟩ := Option.ne_none_iff_exists'.mp hmounted
      rw [walk_unlink_of_mounted h hmounted hcross] at herror
      cases herror
    · intro hcond
      rcases hwalk : s'.walk others path with e | node
      · exact ⟨e, rfl⟩
      · exact absurd hwalk (walk_unlink_ne_ok h hcond)

def noOthers : OtherNodes Empty where
  ftype x := x.elim
  walk x := x.elim

example : (init.create noOthers "/a".toList .directory >>= fun s => s.unlink noOthers "/a/../a".toList >>= fun s =>
    s.walk noOthers "/a/../a".toList) = .error "No such file" := by
  decide +kernel

/-- A directory `/mnt` with a partition mounted on it. -/
def mounted : Except String (VirtualFileSystem Empty) := do
  let s ← init.create noOthers "/mnt".toList .directory
  s.newPart.mount noOthers "/mnt".toList (.virt s.objs.length) (List.length_append ▸ Nat.lt_succ_self _)

/-- The name of a mount point can be taken away and given again, and its path still leads to the partition. -/
theorem unlink_create_mounted :
    (mounted >>= fun s => s.unlink noOthers "/mnt".toList >>= fun s => s.walk noOthers "/mnt".toList) =
      .ok (.virt 2) ∧
    (mounted >>= fun s => s.unlink noOthers "/mnt".toList >>= fun s =>
      s.create noOthers "/mnt".toList .regular >>= fun s =>
        (s.walk noOthers "/mnt".toList).map (s.nodes noOthers).ftype) = .ok .directory ∧
    (mounted >>= fun s => s.walk noOthers "/mnt".toList) = .ok (.virt 2) := by
  decide +kernel

end VirtualFileSystem

end UnixKernel
