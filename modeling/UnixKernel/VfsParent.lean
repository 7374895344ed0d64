import UnixKernel.VfsDir

/-! Where `create`, `link` and `unlink` of `filesys/mod.rs` work. They walk with `isparent` set and take the name
with `get_file_name`; both look at the last component of the path, each in its own way. -/

namespace UnixKernel

open Paths

namespace Paths

/-- The path without its last component. -/
def parent (path : Text) : Text :=
  match rfind '/' path with
  | some pos => path.take pos
  | none => []

theorem exists_last_slash (path : Text) : '/' ∉ path ∨ ∃ front name, path = front ++ '/' :: name ∧ '/' ∉ name := by
  induction path with
  | nil => exact Or.inl List.not_mem_nil
  | cons x path ih =>
      rcases ih with hnone | ⟨front, name, rfl, hname⟩
      · by_cases hx : '/' = x
        · exact Or.inr ⟨[], path, by rw [hx]; rfl, hnone⟩
        · exact Or.inl fun hmem => (List.mem_cons.mp hmem).elim hx hnone
      · exact Or.inr ⟨x :: front, name, rfl, hname⟩

theorem split_of_not_mem {name : Text} (h : '/' ∉ name) : split name = [name] := by
  have hsplit : split (name ++ spell []) = [name] := split_name_spell h (by simp)
  rwa [spell, List.flatMap_nil, List.append_nil] at hsplit

theorem split_parent {path name : Text} {cs : List Text} (h : split path = cs ++ [name]) :
    cs = [] ∧ parent path = [] ∨ split (parent path) = cs := by
  rcases exists_last_slash path with hnone | ⟨front, last, rfl, hlast⟩
  · rw [split_of_not_mem hnone] at h
    have hlast : cs ++ [name] = [] ++ [path] := h.symm
    obtain ⟨hcs, -⟩ := List.append_inj' hlast rfl
    exact Or.inl ⟨hcs, by rw [parent, rfind_of_not_mem hnone]⟩
  · rw [split_append_slash, split_of_not_mem hlast] at h
    obtain ⟨hcs, -⟩ := List.append_inj' h rfl
    have hparent : parent (front ++ '/' :: last) = front := by
      rw [parent, rfind_append hlast]
      exact List.take_left
    exact Or.inr (by rw [hparent, hcs])

end Paths

namespace Vfs

variable {ν π : Type} {nodes : Nodes ν π} {parts : Parts π}

theorem run_empty {root : ν} {st : Walk ν} : run nodes parts root start [[]] = .ok st ↔
    nodes.ftype root = .directory ∧ start = st := by
  have hrun : run nodes parts root start [[]] = step nodes parts root start [] := bind_pure _
  have hname : ¬IsName [] := by decide
  have hdots : ¬(([] : Text) = ['.', '.'] ∧ (start : Walk ν).stack ≠ []) := fun h => h.2 rfl
  rw [hrun, step_eq_ok, if_neg hname, if_neg hdots, eq_comm (a := start)]
  rfl

/-- The walk to the parent is the walk along the parent's path, with a look at what it finds. -/
theorem walkParent_eq_ok_iff_walk {path name : Text} {cs : List Text} {dir : ν} (hsplit : split path = cs ++ [name])
    (hname : IsName name) : walkParent nodes parts path = .ok dir ↔
      walk nodes parts (parent path) = .ok dir ∧ nodes.ftype dir = .directory := by
  rw [walkParent_eq_ok hsplit hname, walk_eq_ok]
  rcases split_parent hsplit with ⟨rfl, hparent⟩ | hparent
  · rw [hparent]
    constructor
    · rintro ⟨part, st, hroot, hrun, rfl, hdir⟩
      obtain rfl := Except.ok.inj hrun
      exact ⟨⟨part, start, hroot, run_empty.mpr ⟨hdir, rfl⟩, rfl⟩, hdir⟩
    · rintro ⟨⟨part, st, hroot, hrun, rfl⟩, hdir⟩
      obtain ⟨-, rfl⟩ := run_empty.mp hrun
      exact ⟨part, start, hroot, rfl, rfl, hdir⟩
  · rw [hparent]
    constructor
    · rintro ⟨part, st, hroot, hrun, hlast, hdir⟩
      exact ⟨⟨part, st, hroot, hrun, hlast⟩, hdir⟩
    · rintro ⟨⟨part, st, hroot, hrun, hlast⟩, hdir⟩
      exact ⟨part, st, hroot, hrun, hlast, hdir⟩

end Vfs

namespace VirtualFileSystem

variable {φ : Type} {others : OtherNodes φ} {s : VirtualFileSystem φ} {path name : Text} {cs : List Text}

/-- What `create`, `link` and `unlink` have in common. -/
def inParent (others : OtherNodes φ) (s : VirtualFileSystem φ) (path : Text)
    (act : VirtFNode φ → Text → Except String (VirtualFileSystem φ)) : Except String (VirtualFileSystem φ) := do
  let dir ← Vfs.walkParent (s.nodes others) s.parts path
  let filename ← okOr (getFileName path) "Invalid path"
  act dir filename

variable {act : VirtFNode φ → Text → Except String (VirtualFileSystem φ)}

theorem getFileName_eq (hsplit : split path = cs ++ [name]) :
    getFileName path = if IsName name then some name else none := by
  rw [getFileName, hsplit, List.getLast?_concat]

theorem inParent_of_walk (hsplit : split path = cs ++ [name]) (hname : IsName name) {dir : VirtFNode φ}
    (hwalk : s.walk others (parent path) = .ok dir) (hdir : (s.nodes others).ftype dir = .directory) :
    inParent others s path act = act dir name := by
  rw [inParent, (Vfs.walkParent_eq_ok_iff_walk hsplit hname).mpr ⟨hwalk, hdir⟩, ok_bind, getFileName_eq hsplit,
    if_pos hname]
  rfl

theorem inParent_of_no_dir (hsplit : split path = cs ++ [name]) (hname : IsName name)
    (hnone : ¬∃ dir, s.walk others (parent path) = .ok dir ∧ (s.nodes others).ftype dir = .directory) :
    ∃ e, inParent others s path act = .error e := by
  unfold inParent
  rcases hparent : Vfs.walkParent (s.nodes others) s.parts path with e | dir
  · exact ⟨e, rfl⟩
  · exact absurd ⟨dir, (Vfs.walkParent_eq_ok_iff_walk hsplit hname).mp hparent⟩ hnone

theorem inParent_of_no_name (hsplit : split path = cs ++ [name]) (hname : ¬IsName name) :
    ∃ e, inParent others s path act = .error e := by
  unfold inParent
  rw [getFileName_eq hsplit, if_neg hname]
  rcases Vfs.walkParent (s.nodes others) s.parts path with e | dir
  · exact ⟨e, rfl⟩
  · exact ⟨"Invalid path", rfl⟩

variable (others s path)

/-- The calls with this path are calls on a directory with a name. -/
structure ActsOn (dir : VirtFNode φ) (name : Text) : Prop where
  create : ∀ t,
    s.create others path t = s.update (createObjs s.objs dir name t) fun _ => grown_createObjs s.closed
  link : ∀ node hnode, s.link others path node hnode =
    s.update (linkObjs s.objs dir name node) fun _ => grown_linkObjs s.closed hnode
  unlink : s.unlink others path = s.update (removeObjs s.objs dir name) fun _ => grown_removeObjs s.closed

/-- The calls with this path fail, and there is no new state. -/
structure Refuses : Prop where
  create : ∀ t, ∃ e, s.create others path t = .error e
  link : ∀ node hnode, ∃ e, s.link others path node hnode = .error e
  unlink : ∃ e, s.unlink others path = .error e

/-- With a name as its last component, a path stands for that name in the directory that the rest of the path
leads to. With another last component, or when the rest does not lead to a directory, it stands for nothing. -/
theorem acts_on_parent : ∃ name, (split path).getLast? = some name ∧
    (IsName name →
      (∀ dir, s.walk others (parent path) = .ok dir → (s.nodes others).ftype dir = .directory →
        ActsOn others s path dir name) ∧
      ((¬∃ dir, s.walk others (parent path) = .ok dir ∧ (s.nodes others).ftype dir = .directory) →
        Refuses others s path)) ∧
    (¬IsName name → Refuses others s path) := by
  rcases List.eq_nil_or_concat (split path) with hnil | ⟨cs, name, hsplit⟩
  · exact absurd hnil (split_ne_nil path)
  · rw [List.concat_eq_append] at hsplit
    refine ⟨name, by rw [hsplit, List.getLast?_concat], fun hname => ⟨fun dir hwalk hdir => ?_, fun hnone => ?_⟩,
      fun hname => ?_⟩
    · exact ⟨fun t => inParent_of_walk hsplit hname hwalk hdir,
        fun node hnode => inParent_of_walk hsplit hname hwalk hdir, inParent_of_walk hsplit hname hwalk hdir⟩
    · exact ⟨fun t => inParent_of_no_dir hsplit hname hnone,
        fun node hnode => inParent_of_no_dir hsplit hname hnone, inParent_of_no_dir hsplit hname hnone⟩
    · exact ⟨fun t => inParent_of_no_name hsplit hname, fun node hnode => inParent_of_no_name hsplit hname,
        inParent_of_no_name hsplit hname⟩

/-- The directories `/usr` and `/usr/bin`. -/
def nested : Except String (VirtualFileSystem Empty) := do
  let s ← init.create noOthers "/usr".toList .directory
  s.create noOthers "/usr/bin".toList .directory

theorem acts_on_parent_nested : ∃ s, nested = .ok s ∧
    s.walk noOthers (parent "/usr/bin/../lib".toList) = .ok (.virt 1) ∧
    ActsOn noOthers s "/usr/bin/../lib".toList (.virt 1) "lib".toList := by
  have hnested : nested.map (fun s => decide (s.walk noOthers (parent "/usr/bin/../lib".toList) = .ok (.virt 1) ∧
      (s.nodes noOthers).ftype (.virt 1) = .directory)) = .ok true := by
    decide +kernel
  rcases hs : nested with e | s
  · rw [hs] at hnested
    exact absurd hnested (by simp [Except.map])
  · rw [hs] at hnested
    obtain ⟨hwalk, hdir⟩ := of_decide_eq_true (Except.ok.inj hnested)
    obtain ⟨name, hlast, hname, -⟩ := acts_on_parent noOthers s "/usr/bin/../lib".toList
    obtain rfl : "lib".toList = name := Option.some.inj hlast
    exact ⟨s, rfl, hwalk, (hname (by decide)).1 _ hwalk hdir⟩

end VirtualFileSystem

end UnixKernel
