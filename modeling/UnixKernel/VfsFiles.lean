import Mathlib.Data.Char
import Mathlib.Data.List.Lex
import UnixKernel.Runs
import UnixKernel.VfsDir
import UnixKernel.VirtFile

/-! The file system of `filesys/mod.rs` with what is in the files. `read`, `write`, `truncate` and `list` take a
path, or a node that an earlier `walk` gave; two names of one file share what is in it, and a node can be used after
its last name is gone. -/

namespace UnixKernel

open Paths

/-- The nodes of other kinds, with what they do with their data. They work on what they share, the disks. -/
structure OtherFiles (φ σ : Type) extends OtherNodes φ where
  read : φ → List Byte → Nat → Eff σ Stop (List Byte)
  write : φ → List Byte → Nat → Eff σ Stop Unit
  truncate : φ → Nat → Eff σ Stop Unit
  list : φ → Eff σ Stop (List Text)

/-- The file system, the `vfd` of every regular file that was made, and the disks. -/
structure FileSys (φ σ : Type) where
  vfs : VirtualFileSystem φ
  vfd : Nat → VFileData
  disks : σ

variable {φ σ : Type}

instance (node : VirtFNode φ) (n : Nat) : Decidable (node.Below n) :=
  match node with
  | .virt id => inferInstanceAs (Decidable (id < n))
  | .other _ => .isTrue trivial

/-- Every node on the way of a walk comes from the mount table or from a directory. -/
theorem Vfs.run_forall {ν π : Type} {nodes : Nodes ν π} {parts : Parts π} {root : ν} {P : ν → Prop} (hroot : P root)
    (hmounted : ∀ key mounted, parts.lookup key = some mounted → P (nodes.root mounted))
    (hwalk : ∀ dir name node, nodes.walk dir name = .ok node → P node) {cs : List Text} {st : Walk ν}
    (h : Vfs.run nodes parts root Vfs.start cs = .ok st) : P (Vfs.last root st) := by
  suffices hall : ∀ node ∈ st.stack, P node by
    unfold Vfs.last
    cases hstack : st.stack with
    | nil => exact hroot
    | cons node stack => exact hall node (hstack ▸ List.mem_cons_self)
  induction cs using List.reverseRecOn generalizing st with
  | nil =>
      rw [← Except.ok.inj h]
      exact List.forall_mem_nil _
  | append_singleton cs c ih =>
      rw [Vfs.run_concat] at h
      obtain ⟨mid, hmid, hstep⟩ := bind_eq_ok.mp h
      have hall := ih hmid
      obtain ⟨-, hdone⟩ := Vfs.step_eq_ok.mp hstep
      split_ifs at hdone
      · obtain ⟨node, hchild, rfl⟩ := hdone
        refine List.forall_mem_cons.mpr ⟨?_, hall⟩
        unfold Vfs.child at hchild
        rcases hkey : parts.lookup (push mid.pathNow c) with _ | mounted
        · rw [hkey] at hchild
          exact hwalk _ c node hchild
        · rw [hkey] at hchild
          exact Except.ok.inj hchild ▸ hmounted _ mounted hkey
      · rw [hdone]
        exact fun node hnode => hall node (List.mem_of_mem_tail hnode)
      · rw [hdone]
        exact hall

namespace VirtualFileSystem

/-- `VirtFile::new`, as the last object. -/
def newFile (s : VirtualFileSystem φ) : VirtualFileSystem φ where
  objs := s.objs ++ [.virtFile]
  parts := s.parts
  closed := by
    apply s.closed.concat
    intro files h
    cases h
  roots entry hentry := (s.roots entry hentry).mono (List.length_append ▸ Nat.le_add_right _ _)

variable {others : OtherNodes φ} {s s' : VirtualFileSystem φ} {path : Text} {node : VirtFNode φ}

theorem link_eq_ok {hnode : node.Below s.objs.length} (h : s.link others path node hnode = .ok s') :
    ∃ dir name, Vfs.walkParent (s.nodes others) s.parts path = .ok dir ∧ getFileName path = some name ∧
      linkObjs s.objs dir name node = .ok s'.objs ∧ s'.parts = s.parts := by
  obtain ⟨dir, hdir, h⟩ := bind_eq_ok.mp h
  obtain ⟨name, hname, h⟩ := bind_eq_ok.mp h
  exact ⟨dir, name, hdir, okOr_eq_ok.mp hname, update_eq_ok h⟩

theorem mount_eq_ok {hnode : node.Below s.objs.length} (h : s.mount others path node hnode = .ok s') :
    Vfs.mount (s.nodes others) s.parts path node = .ok s'.parts ∧ s'.objs = s.objs := by
  unfold mount at h
  split at h
  · cases h
  · rename_i parts hparts
    obtain rfl := Except.ok.inj h
    exact ⟨hparts, rfl⟩

theorem unmount_eq_ok (h : s.unmount path = .ok s') : Vfs.unmount s.parts path = .ok s'.parts ∧ s'.objs = s.objs := by
  unfold unmount at h
  split at h
  · cases h
  · rename_i parts hparts
    obtain rfl := Except.ok.inj h
    exact ⟨hparts, rfl⟩

/-- A walk ends at a node that is there. -/
theorem walk_below (h : s.walk others path = .ok node) : node.Below s.objs.length := by
  obtain ⟨part, st, hroot, hrun, rfl⟩ := Vfs.walk_eq_ok.mp h
  have hmounted : ∀ {key mounted}, s.parts.lookup key = some mounted → mounted.Below s.objs.length := by
    intro key mounted hkey
    obtain ⟨front, back, hparts, -⟩ := List.lookup_eq_some_iff.mp hkey
    exact s.roots (key, mounted) (hparts ▸ List.mem_append_right front List.mem_cons_self)
  refine Vfs.run_forall (P := fun node => node.Below s.objs.length) (hmounted hroot) (fun _ _ => hmounted) ?_ hrun
  intro dir name child hchild
  cases dir with
  | other x =>
      obtain ⟨y, -, rfl⟩ := map_eq_ok.mp hchild
      trivial
  | virt id =>
      rcases hfiles : entries s.objs (.virt id) with _ | files
      · rw [walk_none hfiles] at hchild
        cases hchild
      · rw [walk_entries hfiles, okOr_eq_ok] at hchild
        exact s.closed _ files hfiles name child hchild

end VirtualFileSystem

namespace VirtFile

/-- The size after a call, from the size before it. -/
def Op.resized (n : Nat) : Op → Nat
  | .write buf offset => max (offset + buf.length) n
  | .truncate size => size

/-- The size after the calls. -/
def sizeAfter (ops : List Op) : Nat := ops.foldl Op.resized 0

theorem sizeAfter_concat (ops : List Op) (op : Op) : sizeAfter (ops ++ [op]) = op.resized (sizeAfter ops) :=
  List.foldl_append

theorem length_apply {p : Profile} {f f' : VFileData} {op : Op} (hfits : op.Fits) (h : apply p f op = .ok f') :
    f'.data.length = op.resized f.data.length := by
  cases op with
  | write buf offset =>
      obtain ⟨data, hwrite, hlength, -⟩ := write_spec (p := p) (f := f) hfits
      obtain rfl := Except.ok.inj (hwrite.symm.trans h)
      exact hlength
  | truncate size =>
      obtain rfl := Except.ok.inj h
      exact length_resize size

/-- What a read of a file with a history shows. -/
theorem Reflects.read (p : Profile) {ops : List Op} {f : VFileData} (h : Reflects ops f) (buf : List Byte)
    {offset : Nat} (hin : offset < f.size) :
    ∃ out, VirtFile.read p f buf offset = .ok out ∧
      (∀ i < min buf.length (f.size - offset),
        (∀ b, LastWrite ops (offset + i) b → out[i]? = some b) ∧
        ((¬∃ b, LastWrite ops (offset + i) b) → out[i]? = some 0)) ∧
      ∀ i, min buf.length (f.size - offset) ≤ i → out[i]? = buf[i]? := by
  rw [h.size_eq] at hin ⊢
  refine ⟨_, read_eq h.length_lt hin, ?_⟩
  generalize hn : min buf.length (f.data.length - offset) = n
  have hlength : ((f.data.drop offset).take n).length = n := by
    rw [List.length_take, List.length_drop]
    omega
  constructor
  · intro i hi
    rw [List.getElem?_append_left (by omega), List.getElem?_take_of_lt hi, List.getElem?_drop]
    exact ⟨h.written (offset + i), h.zero (offset + i) (by omega)⟩
  · intro i hi
    rw [List.getElem?_append_right (by omega), hlength, List.getElem?_drop, Nat.add_sub_cancel' hi]

end VirtFile

namespace FileSys

variable (p : Profile) (others : OtherFiles φ σ)

def init (disks : σ) : FileSys φ σ := ⟨.init, fun _ => VirtFile.new, disks⟩

/-- A call that works on the disks. -/
def onDisks {α : Type} (m : Eff σ Stop α) : Eff (FileSys φ σ) Stop α := fun s =>
  ((m s.disks).1, { s with disks := (m s.disks).2 })

/-- A call that changes the directories or the mount table. -/
def onVfs (change : VirtualFileSystem φ → Except String (VirtualFileSystem φ)) : Eff (FileSys φ σ) Stop Unit := fun s =>
  match change s.vfs with
  | .error e => (.error (.err e), s)
  | .ok vfs => (.ok (), { s with vfs })

/-! ### Nodes -/

/-- `write` or `truncate` of an object. A directory has those of the trait. -/
def change (id : Nat) (op : VirtFile.Op) : Eff (FileSys φ σ) Stop Unit := fun s =>
  if (entries s.vfs.objs (.virt id)).isSome then (.error (.err "This file is not IOable"), s)
  else
    match VirtFile.apply p (s.vfd id) op with
    | .error e => (.error e, s)
    | .ok f => (.ok (), { s with vfd := Function.update s.vfd id f })

def nodeRead (node : VirtFNode φ) (buf : List Byte) (offset : Nat) : Eff (FileSys φ σ) Stop (List Byte) :=
  match node with
  | .virt id => fun s =>
      if (entries s.vfs.objs (.virt id)).isSome then (.error (.err "This file is not IOable"), s)
      else (VirtFile.read p (s.vfd id) buf offset, s)
  | .other x => onDisks (others.read x buf offset)

def nodeWrite (node : VirtFNode φ) (buf : List Byte) (offset : Nat) : Eff (FileSys φ σ) Stop Unit :=
  match node with
  | .virt id => change p id (.write buf offset)
  | .other x => onDisks (others.write x buf offset)

def nodeTruncate (node : VirtFNode φ) (size : Nat) : Eff (FileSys φ σ) Stop Unit :=
  match node with
  | .virt id => change p id (.truncate size)
  | .other x => onDisks (others.truncate x size)

/-- The names come in the order of a `BTreeMap`. -/
def nodeList (node : VirtFNode φ) : Eff (FileSys φ σ) Stop (List Text) :=
  match node with
  | .virt id => fun s =>
      match entries s.vfs.objs (.virt id) with
      | some files => (.ok (files.keys.mergeSort fun a b => decide (a ≤ b)), s)
      | none => (.error (.err "This is not a directory"), s)
  | .other x => onDisks (others.list x)

/-! ### Paths and nodes that are held -/

/-- How a caller names a file: by a path, or by a node that it got before. -/
inductive Handle (φ : Type) where
  | path (path : Text)
  | node (node : VirtFNode φ)

/-- The node that is meant. An `Arc` always leads to an object that is there. -/
def find (h : Handle φ) : Eff (FileSys φ σ) Stop (VirtFNode φ) := fun s =>
  match h with
  | .path path => ((s.vfs.walk others.toOtherNodes path).mapError .err, s)
  | .node node => if node.Below s.vfs.objs.length then (.ok node, s) else (.error .panic, s)

def read (h : Handle φ) (buf : List Byte) (offset : Nat) : Eff (FileSys φ σ) Stop (List Byte) := do
  let file ← find others h
  nodeRead p others file buf offset

def write (h : Handle φ) (buf : List Byte) (offset : Nat) : Eff (FileSys φ σ) Stop Unit := do
  let file ← find others h
  nodeWrite p others file buf offset

def truncate (h : Handle φ) (size : Nat) : Eff (FileSys φ σ) Stop Unit := do
  let file ← find others h
  nodeTruncate p others file size

def list (h : Handle φ) : Eff (FileSys φ σ) Stop (List Text) := do
  let node ← find others h
  nodeList others node

/-- The object that `create` makes begins empty. -/
def create (path : Text) (t : FType) : Eff (FileSys φ σ) Stop Unit := fun s =>
  match s.vfs.create others.toOtherNodes path t with
  | .error e => (.error (.err e), s)
  | .ok vfs => (.ok (), { s with vfs, vfd := Function.update s.vfd s.vfs.objs.length VirtFile.new })

def newFile : Eff (FileSys φ σ) Stop (VirtFNode φ) := fun s =>
  (.ok (.virt s.vfs.objs.length),
    { s with vfs := s.vfs.newFile, vfd := Function.update s.vfd s.vfs.objs.length VirtFile.new })

/-- `VirtDir::new`. -/
def newDir : Eff (FileSys φ σ) Stop (VirtFNode φ) := fun s =>
  (.ok (.virt s.vfs.objs.length), { s with vfs := s.vfs.newPart })

def link (path : Text) (node : VirtFNode φ) : Eff (FileSys φ σ) Stop Unit := fun s =>
  if h : node.Below s.vfs.objs.length then onVfs (fun _ => s.vfs.link others.toOtherNodes path node h) s
  else (.error .panic, s)

def unlink (path : Text) : Eff (FileSys φ σ) Stop Unit := onVfs fun vfs => vfs.unlink others.toOtherNodes path

def mount (path : Text) (part : VirtFNode φ) : Eff (FileSys φ σ) Stop Unit := fun s =>
  if h : part.Below s.vfs.objs.length then onVfs (fun _ => s.vfs.mount others.toOtherNodes path part h) s
  else (.error .panic, s)

def unmount (path : Text) : Eff (FileSys φ σ) Stop Unit := onVfs fun vfs => vfs.unmount path

/-! ### Calls -/

inductive Call (φ : Type) where
  | create (path : Text) (t : FType)
  | newFile
  | newDir
  | link (path : Text) (node : VirtFNode φ)
  | unlink (path : Text)
  | mount (path : Text) (part : VirtFNode φ)
  | unmount (path : Text)
  | read (h : Handle φ) (buf : List Byte) (offset : Nat)
  | write (h : Handle φ) (buf : List Byte) (offset : Nat)
  | truncate (h : Handle φ) (size : Nat)
  | list (h : Handle φ)

/-- The state that a call leaves, whether it succeeds or not. -/
def step (s : FileSys φ σ) : Call φ → FileSys φ σ
  | .create path t => (create others path t s).2
  | .newFile => (newFile s).2
  | .newDir => (newDir s).2
  | .link path node => (link others path node s).2
  | .unlink path => (unlink others path s).2
  | .mount path part => (mount others path part s).2
  | .unmount path => (unmount path s).2
  | .read h buf offset => (read p others h buf offset s).2
  | .write h buf offset => (write p others h buf offset s).2
  | .truncate h size => (truncate p others h size s).2
  | .list h => (list others h s).2

/-- What a call does to the file that it is made for. -/
def Call.op : Call φ → Option (Handle φ × VirtFile.Op)
  | .write h buf offset => some (h, .write buf offset)
  | .truncate h size => some (h, .truncate size)
  | _ => none

/-- Offsets and sizes are `u64`, and so is the end of a write. -/
def Call.Fits (c : Call φ) : Prop := ∀ x ∈ c.op, x.2.Fits

/-- What a call in the state `s` does to the object `id`. -/
def opOn (id : Nat) (s : FileSys φ σ) (c : Call φ) : List VirtFile.Op :=
  match c.op with
  | none => []
  | some (h, op) =>
      match (find others h s).1 with
      | .ok (.virt i) => if i = id ∧ ¬(entries s.vfs.objs (.virt i)).isSome then [op] else []
      | _ => []

/-- What a run of calls does to the object `id`: the writes and truncations that were made for it, by whatever path
led to it at the time. -/
def history (id : Nat) : FileSys φ σ → List (Call φ) → List VirtFile.Op
  | _, [] => []
  | s, c :: calls => opOn others id s c ++ history id (step p others s c) calls

/-! ### One call -/

variable {p others} {s s' : FileSys φ σ}

/-- A change that leaves the files that are there as they are. -/
structure Quiet (s s' : FileSys φ σ) : Prop where
  length_le : s.vfs.objs.length ≤ s'.vfs.objs.length
  vfd : ∀ id, s'.vfd id = s.vfd id ∨ s.vfs.objs.length ≤ id ∧ s'.vfd id = VirtFile.new

theorem Quiet.refl (s : FileSys φ σ) : Quiet s s := ⟨Nat.le_refl _, fun _ => Or.inl rfl⟩

theorem quiet_onDisks {α : Type} (m : Eff σ Stop α) (s : FileSys φ σ) : Quiet s (onDisks m s).2 :=
  ⟨Nat.le_refl _, fun _ => Or.inl rfl⟩

theorem quiet_onVfs {change : VirtualFileSystem φ → Except String (VirtualFileSystem φ)}
    (h : ∀ vfs, change s.vfs = .ok vfs → s.vfs.objs.length ≤ vfs.objs.length) : Quiet s (onVfs change s).2 := by
  unfold onVfs
  cases hchange : change s.vfs with
  | error e => exact .refl s
  | ok vfs => exact ⟨h vfs hchange, fun _ => Or.inl rfl⟩

theorem quiet_new {vfs : VirtualFileSystem φ} (h : s.vfs.objs.length ≤ vfs.objs.length) :
    Quiet s { s with vfs, vfd := Function.update s.vfd s.vfs.objs.length VirtFile.new } := by
  refine ⟨h, fun id => ?_⟩
  by_cases hid : id = s.vfs.objs.length
  · exact Or.inr ⟨hid.ge, by rw [hid]; exact Function.update_self ..⟩
  · exact Or.inl (Function.update_of_ne hid ..)

theorem find_snd (h : Handle φ) (s : FileSys φ σ) : (find others h s).2 = s := by
  cases h with
  | path path => rfl
  | node node =>
      unfold find
      dsimp only
      split_ifs <;> rfl

theorem find_below {h : Handle φ} {node : VirtFNode φ} (hfind : (find others h s).1 = .ok node) :
    node.Below s.vfs.objs.length := by
  cases h with
  | path path =>
      rcases hwalk : s.vfs.walk others.toOtherNodes path with e | found
      · rw [find, hwalk] at hfind
        cases hfind
      · rw [find, hwalk] at hfind
        obtain rfl := Except.ok.inj hfind
        exact VirtualFileSystem.walk_below hwalk
  | node held =>
      unfold find at hfind
      dsimp only at hfind
      split_ifs at hfind with hbelow
      obtain rfl := Except.ok.inj hfind
      exact hbelow

theorem find_bind {α : Type} (h : Handle φ) (f : VirtFNode φ → Eff (FileSys φ σ) Stop α) (s : FileSys φ σ) :
    (find others h >>= f) s =
      match (find others h s).1 with
      | .error e => (.error e, s)
      | .ok node => f node s := by
  have hstate : (find others h s).2 = s := find_snd h s
  rcases hfind : find others h s with ⟨e | node, s'⟩
  · rw [hfind] at hstate
    obtain rfl : s' = s := hstate
    exact Eff.bind_of_error hfind
  · rw [hfind] at hstate
    obtain rfl : s' = s := hstate
    exact Eff.bind_of_ok hfind

theorem quiet_find_bind {α : Type} (h : Handle φ) {f : VirtFNode φ → Eff (FileSys φ σ) Stop α}
    (hf : ∀ node, Quiet s (f node s).2) : Quiet s ((find others h >>= f) s).2 := by
  rw [find_bind]
  split
  · exact .refl s
  · exact hf _

theorem quiet_nodeRead (node : VirtFNode φ) (buf : List Byte) (offset : Nat) :
    Quiet s (nodeRead p others node buf offset s).2 := by
  cases node with
  | other x => exact quiet_onDisks _ s
  | virt id =>
      unfold nodeRead
      dsimp only
      split_ifs <;> exact .refl s

theorem quiet_nodeList (node : VirtFNode φ) : Quiet s (nodeList others node s).2 := by
  cases node with
  | other x => exact quiet_onDisks _ s
  | virt id =>
      unfold nodeList
      dsimp only
      split <;> exact .refl s

/-- The calls that are made for no file's data. -/
theorem quiet_step {c : Call φ} (h : c.op = none) : Quiet s (step p others s c) := by
  cases c with
  | create path t =>
      show Quiet s (create others path t s).2
      unfold create
      cases hcreate : s.vfs.create others.toOtherNodes path t with
      | error e => exact .refl s
      | ok vfs =>
          obtain ⟨dir, name, -, -, hobjs, -⟩ := VirtualFileSystem.create_eq_ok hcreate
          exact quiet_new (grown_createObjs s.vfs.closed hobjs).2
  | newFile => exact quiet_new (List.length_append ▸ Nat.le_add_right _ _)
  | newDir => exact ⟨List.length_append ▸ Nat.le_add_right _ _, fun _ => Or.inl rfl⟩
  | link path node =>
      show Quiet s (link others path node s).2
      unfold link
      split_ifs with hnode
      · apply quiet_onVfs
        intro vfs hlink
        obtain ⟨dir, name, -, -, hobjs, -⟩ := VirtualFileSystem.link_eq_ok hlink
        exact (grown_linkObjs s.vfs.closed hnode hobjs).2
      · exact .refl s
  | unlink path =>
      apply quiet_onVfs
      intro vfs hunlink
      obtain ⟨dir, name, -, -, hobjs, -⟩ := VirtualFileSystem.unlink_eq_ok hunlink
      exact (grown_removeObjs s.vfs.closed hobjs).2
  | mount path part =>
      show Quiet s (mount others path part s).2
      unfold mount
      split_ifs with hpart
      · apply quiet_onVfs
        intro vfs hmount
        exact (congrArg List.length (VirtualFileSystem.mount_eq_ok hmount).2).ge
      · exact .refl s
  | unmount path =>
      apply quiet_onVfs
      intro vfs hunmount
      exact (congrArg List.length (VirtualFileSystem.unmount_eq_ok hunmount).2).ge
  | read file buf offset => exact quiet_find_bind file fun node => quiet_nodeRead node buf offset
  | list file => exact quiet_find_bind file quiet_nodeList
  | write file buf offset => cases h
  | truncate file size => cases h

/-! ### Whole runs -/

/-- The files hold what their histories say, and objects that are not there yet have none. -/
structure Holds (hist : Nat → List VirtFile.Op) (s : FileSys φ σ) : Prop where
  reflects : ∀ id, VirtFile.Reflects (hist id) (s.vfd id)
  length_eq : ∀ id, (s.vfd id).data.length = VirtFile.sizeAfter (hist id)
  fresh : ∀ id, s.vfs.objs.length ≤ id → hist id = []

variable {hist : Nat → List VirtFile.Op}

theorem Quiet.holds (h : Quiet s s') (hs : Holds hist s) : Holds hist s' where
  reflects id := by
    rcases h.vfd id with hvfd | ⟨hle, hvfd⟩
    · exact hvfd ▸ hs.reflects id
    · rw [hvfd, hs.fresh id hle]
      exact VirtFile.reflects_new
  length_eq id := by
    rcases h.vfd id with hvfd | ⟨hle, hvfd⟩
    · rw [hvfd, hs.length_eq id]
    · rw [hvfd, hs.fresh id hle]
      rfl
  fresh id hle := hs.fresh id (h.length_le.trans hle)

theorem holds_change {i : Nat} {op : VirtFile.Op} (hs : Holds hist s) (hfits : op.Fits) (hi : i < s.vfs.objs.length) :
    Holds (fun id => hist id ++ if i = id ∧ ¬(entries s.vfs.objs (.virt i)).isSome then [op] else [])
      (change p i op s).2 := by
  unfold change
  by_cases hdir : (entries s.vfs.objs (.virt i)).isSome
  · simpa [hdir] using hs
  · obtain ⟨f, happly, hf⟩ := VirtFile.reflects_apply p (hs.reflects i) hfits
    rw [if_neg hdir, happly]
    refine ⟨fun id => ?_, fun id => ?_, fun id hle => ?_⟩
    · show VirtFile.Reflects _ (Function.update s.vfd i f id)
      by_cases hid : i = id
      · subst hid
        rw [if_pos ⟨rfl, hdir⟩, Function.update_self]
        exact hf
      · rw [if_neg fun h => hid h.1, List.append_nil, Function.update_of_ne (Ne.symm hid)]
        exact hs.reflects id
    · show (Function.update s.vfd i f id).data.length = _
      by_cases hid : i = id
      · subst hid
        rw [if_pos ⟨rfl, hdir⟩, Function.update_self, VirtFile.sizeAfter_concat, ← hs.length_eq i]
        exact VirtFile.length_apply hfits happly
      · rw [if_neg fun h => hid h.1, List.append_nil, Function.update_of_ne (Ne.symm hid)]
        exact hs.length_eq id
    · have hid : i ≠ id := (Nat.lt_of_lt_of_le hi hle).ne
      rw [if_neg fun h => hid h.1, List.append_nil]
      exact hs.fresh id hle

theorem holds_find_bind {c : Call φ} {h : Handle φ} {op : VirtFile.Op} {f : VirtFNode φ → Eff (FileSys φ σ) Stop Unit}
    (hs : Holds hist s) (hop : c.op = some (h, op)) (hfits : op.Fits) (hvirt : ∀ id, f (.virt id) = change p id op)
    (hother : ∀ x, Quiet s (f (.other x) s).2) :
    Holds (fun id => hist id ++ opOn others id s c) ((find others h >>= f) s).2 := by
  rw [find_bind]
  unfold opOn
  rw [hop]
  dsimp only
  rcases hfind : (find others h s).1 with e | i | x
  · simpa using hs
  · dsimp only
    rw [hvirt]
    exact holds_change hs hfits (find_below hfind)
  · simpa using (hother x).holds hs

variable (p others) in
theorem holds_step {c : Call φ} (hs : Holds hist s) (hfits : c.Fits) :
    Holds (fun id => hist id ++ opOn others id s c) (step p others s c) := by
  rcases hop : c.op with _ | ⟨h, op⟩
  · simpa [opOn, hop] using (quiet_step hop).holds hs
  · cases c with
    | write file buf offset =>
        obtain ⟨rfl, rfl⟩ := Prod.mk.inj (Option.some.inj hop)
        exact holds_find_bind (p := p) hs hop (hfits _ hop) (fun _ => rfl) fun x => quiet_onDisks _ s
    | truncate file size =>
        obtain ⟨rfl, rfl⟩ := Prod.mk.inj (Option.some.inj hop)
        exact holds_find_bind (p := p) hs hop (hfits _ hop) (fun _ => rfl) fun x => quiet_onDisks _ s
    | _ => cases hop

variable (p others) in
theorem holds_run {calls : List (Call φ)} (hs : Holds hist s) (hfits : ∀ c ∈ calls, c.Fits) :
    Holds (fun id => hist id ++ history p others id s calls) (Runs.run (step p others) s calls) := by
  -- on the first call, with the histories up to it
  induction calls generalizing s hist with
  | nil => simpa [history, Runs.run] using hs
  | cons c calls ih =>
      obtain ⟨hc, hcalls⟩ := List.forall_mem_cons.mp hfits
      have hrest := ih (holds_step p others hs hc) hcalls
      simp only [List.append_assoc] at hrest
      exact hrest

theorem holds_init (disks : σ) : Holds (fun _ => []) (init disks : FileSys φ σ) where
  reflects _ := VirtFile.reflects_new
  length_eq _ := rfl
  fresh _ _ := rfl

theorem read_virt {file : Handle φ} {id : Nat} (hfind : (find others file s).1 = .ok (.virt id))
    (hfile : entries s.vfs.objs (.virt id) = none) (buf : List Byte) (offset : Nat) :
    read p others file buf offset s = (VirtFile.read p (s.vfd id) buf offset, s) := by
  unfold read
  rw [find_bind, hfind]
  unfold nodeRead
  dsimp only
  rw [hfile, Option.isSome_none, if_neg Bool.false_ne_true]

/-- After any calls, by whatever path or node a regular file is reached, it has the size that the writes and
truncations made for it have left, by whatever names they reached it. A read below that size finds the last byte
written at each position and not cut off since, or zero; a read from there on fails. -/
theorem read_after_calls (p : Profile) (others : OtherFiles φ σ) (disks : σ) {calls : List (Call φ)}
    (hfits : ∀ c ∈ calls, c.Fits) {file : Handle φ} {id : Nat}
    (hfind : (find others file (Runs.run (step p others) (init disks) calls)).1 = .ok (.virt id))
    (hfile : entries (Runs.run (step p others) (init disks) calls).vfs.objs (.virt id) = none) :
    ∀ buf offset,
      if offset < VirtFile.sizeAfter (history p others id (init disks) calls) then
        ∃ out, read p others file buf offset (Runs.run (step p others) (init disks) calls) =
            (.ok out, Runs.run (step p others) (init disks) calls) ∧
          (∀ i < min buf.length (VirtFile.sizeAfter (history p others id (init disks) calls) - offset),
            (∀ b, VirtFile.LastWrite (history p others id (init disks) calls) (offset + i) b → out[i]? = some b) ∧
            ((¬∃ b, VirtFile.LastWrite (history p others id (init disks) calls) (offset + i) b) → out[i]? = some 0)) ∧
          ∀ i, min buf.length (VirtFile.sizeAfter (history p others id (init disks) calls) - offset) ≤ i →
            out[i]? = buf[i]?
      else read p others file buf offset (Runs.run (step p others) (init disks) calls) =
        (.error (.err "Offset out of bounds"), Runs.run (step p others) (init disks) calls) := by
  intro buf offset
  have hs := holds_run p others (holds_init disks) hfits
  have hread := read_virt (p := p) hfind hfile buf offset
  have hreflects := hs.reflects id
  have hlength := hs.length_eq id
  rw [List.nil_append] at hreflects hlength
  rw [hread, ← hlength, ← hreflects.size_eq]
  split_ifs with hin
  · obtain ⟨out, hout, hbytes⟩ := hreflects.read p buf hin
    exact ⟨out, by rw [hout], hbytes⟩
  · rw [VirtFile.read, if_pos (hreflects.size_eq ▸ Nat.le_of_not_lt hin)]

/-- No nodes of other kinds. -/
def noOtherFiles : OtherFiles Empty Unit where
  toOtherNodes := VirtualFileSystem.noOthers
  read x := x.elim
  write x := x.elim
  truncate x := x.elim
  list x := x.elim

/-- A file gets a second name, loses the first, and is written to by both and by its node. -/
def renamed : List (Call Empty) :=
  [.newFile, .link "/a".toList (.virt 1), .write (.path "/a".toList) [1, 2, 3] 0, .link "/b".toList (.virt 1),
    .unlink "/a".toList, .write (.path "/b".toList) [9] 1, .write (.node (.virt 1)) [7] 4]

theorem read_after_calls_renamed :
    (∀ c ∈ renamed, c.Fits) ∧
    history .dev noOtherFiles 1 (init ()) renamed = [.write [1, 2, 3] 0, .write [9] 1, .write [7] 4] ∧
    ∃ out, read .dev noOtherFiles (.path "/b".toList) [5, 5] 1 (Runs.run (step .dev noOtherFiles) (init ()) renamed) =
      (.ok out, Runs.run (step .dev noOtherFiles) (init ()) renamed) ∧ out[0]? = some 9 := by
  have hfits : ∀ c ∈ renamed, c.Fits := by
    simp [renamed, Call.Fits, Call.op, VirtFile.Op.Fits]
  have hhist : history .dev noOtherFiles 1 (init ()) renamed = [.write [1, 2, 3] 0, .write [9] 1, .write [7] 4] :=
    rfl
  have hfind : (find noOtherFiles (.path "/b".toList) (Runs.run (step .dev noOtherFiles) (init ()) renamed)).1 =
      .ok (.virt 1) := by decide +kernel
  have hread := read_after_calls .dev noOtherFiles () hfits hfind (by decide +kernel) [5, 5] 1
  rw [hhist, if_pos (by decide)] at hread
  obtain ⟨out, hout, hbytes, -⟩ := hread
  refine ⟨hfits, hhist, out, hout, (hbytes 0 (by decide)).1 9 ?_⟩
  exact ⟨[.write [1, 2, 3] 0], .write [9] 1, [.write [7] 4], rfl, ⟨by decide, rfl⟩, by
    simp [VirtFile.Op.Writes, VirtFile.Op.Cuts]⟩

end FileSys

end UnixKernel
