import UnixKernel.VfsFiles

/-! A file that gets another name as in `init_filesys`: its node is linked under the new path, and the old one is
unlinked. No call does both, so what is in between must not disturb any walk. -/

namespace UnixKernel

open Paths

namespace Vfs

variable {ν π : Type} {nodes : Nodes ν π} {parts : Parts π}

/-- Where nothing is mounted, a walk is the walk to the parent and a look into it. -/
theorem walk_eq_ok_iff_walkParent {path name : Text} {cs : List Text} {node : ν} (hsplit : split path = cs ++ [name])
    (hname : IsName name) (hfree : parts.lookup (canonPath path) = none) :
    walk nodes parts path = .ok node ↔ ∃ dir, walkParent nodes parts path = .ok dir ∧
      nodes.walk dir name = .ok node := by
  have hcs : ∀ c ∈ cs, '/' ∉ c := fun c hc => slash_not_mem_of_mem_split (hsplit ▸ List.mem_append_left _ hc)
  -- the last name is looked up under the canonical path
  have hchild : ∀ {part st}, run nodes parts (nodes.root part) start cs = .ok st →
      child nodes parts (last (nodes.root part) st) (push st.pathNow name) name =
        nodes.walk (last (nodes.root part) st) name := by
    intro part st hrun
    have htext : push st.pathNow name = canonPath path := by
      rw [push_eq_pathOf hcs hname hrun, ← hsplit]
      rfl
    unfold child
    rw [htext, hfree]
  rw [walk_eq_ok]
  constructor
  · rintro ⟨part, st', hroot, hrun, rfl⟩
    rw [hsplit, run_concat] at hrun
    obtain ⟨st, hst, hstep⟩ := bind_eq_ok.mp hrun
    obtain ⟨hdir, hdone⟩ := step_eq_ok.mp hstep
    rw [if_pos hname, hchild hst] at hdone
    obtain ⟨found, hfound, rfl⟩ := hdone
    exact ⟨_, (walkParent_eq_ok hsplit hname).mpr ⟨part, st, hroot, hst, rfl, hdir⟩, hfound⟩
  · rintro ⟨dir, hparent, hwalk⟩
    obtain ⟨part, st, hroot, hst, rfl, hdir⟩ := (walkParent_eq_ok hsplit hname).mp hparent
    refine ⟨part, ⟨node :: st.stack, push st.pathNow name⟩, hroot, ?_, rfl⟩
    rw [hsplit, run_concat, hst, ok_bind]
    refine step_eq_ok.mpr ⟨hdir, ?_⟩
    rw [if_pos hname, hchild hst]
    exact ⟨node, hwalk, rfl⟩

theorem ftype_root {root : ν} {cs : List Text} {st : Walk ν} (h : run nodes parts root start cs = .ok st)
    (hdir : nodes.ftype (last root st) = .directory) : nodes.ftype root = .directory := by
  cases cs with
  | nil =>
      obtain rfl := Except.ok.inj h
      exact hdir
  | cons c cs =>
      obtain ⟨mid, hstep, -⟩ := bind_eq_ok.mp h
      exact (step_eq_ok.mp hstep).1

/-- Below the top of the stack there are directories only. -/
theorem run_tail_dirs {root : ν} {cs : List Text} {st : Walk ν} (h : run nodes parts root start cs = .ok st) :
    ∀ node ∈ st.stack.tail, nodes.ftype node = .directory := by
  induction cs using List.reverseRecOn generalizing st with
  | nil =>
      rw [← Except.ok.inj h]
      exact List.forall_mem_nil _
  | append_singleton cs c ih =>
      rw [run_concat] at h
      obtain ⟨mid, hmid, hstep⟩ := bind_eq_ok.mp h
      have htail := ih hmid
      obtain ⟨hdir, hdone⟩ := step_eq_ok.mp hstep
      split_ifs at hdone
      · obtain ⟨node, -, rfl⟩ := hdone
        intro below hbelow
        -- what was on the top has just been looked at
        rcases hstack : mid.stack with _ | ⟨top, stack⟩
        · rw [List.tail_cons, hstack] at hbelow
          cases hbelow
        · rw [List.tail_cons, hstack] at hbelow
          rw [last, hstack, List.headD_cons] at hdir
          rcases List.mem_cons.mp hbelow with rfl | hbelow
          · exact hdir
          · exact htail below (by rw [hstack]; exact hbelow)
      · rw [hdone]
        exact fun node hnode => htail node (List.mem_of_mem_tail hnode)
      · rw [hdone]
        exact htail

/-- A path to something that is no directory ends in a name. -/
theorem exists_name_of_walk {path : Text} {node : ν} (h : walk nodes parts path = .ok node)
    (hnode : nodes.ftype node ≠ .directory) : ∃ cs name, split path = cs ++ [name] ∧ IsName name := by
  obtain ⟨part, st, -, hrun, rfl⟩ := walk_eq_ok.mp h
  rcases List.eq_nil_or_concat (split path) with hnil | ⟨cs, c, hconcat⟩
  · exact absurd hnil (split_ne_nil path)
  · rw [List.concat_eq_append] at hconcat
    refine ⟨cs, c, hconcat, ?_⟩
    by_contra hname
    rw [hconcat, run_concat] at hrun
    obtain ⟨mid, hmid, hstep⟩ := bind_eq_ok.mp hrun
    have htail := run_tail_dirs hmid
    obtain ⟨hdir, hdone⟩ := step_eq_ok.mp hstep
    rw [if_neg hname] at hdone
    split_ifs at hdone with hpop
    · -- one directory back, or at the root
      apply hnode
      rcases hstack : mid.stack.tail with _ | ⟨below, stack⟩
      · rw [hdone, last, hstack]
        exact ftype_root hmid hdir
      · rw [hdone, last, hstack]
        exact htail below (by rw [hstack]; exact List.mem_cons_self)
    · exact hnode (hdone ▸ hdir)

end Vfs

namespace VirtualFileSystem

variable {φ : Type} {others : OtherNodes φ} {s s' : VirtualFileSystem φ} {path : Text}

/-! ### Walks after a change -/

theorem walk_of_has {node : VirtFNode φ} (hdirs : DirsIn s s') (hhas : ∀ dir name, Has s s' dir name)
    (hparts : s'.parts = s.parts) (h : s.walk others path = .ok node) : s'.walk others path = .ok node := by
  unfold walk
  rw [hparts]
  obtain ⟨part, st, hroot, hrun, hlast⟩ := Vfs.walk_eq_ok.mp h
  refine Vfs.walk_eq_ok.mpr ⟨part, st, hroot, ?_, hlast⟩
  apply Vfs.run_transfer (fun _ => hdirs.ftype) _ rfl hrun
  intro ds c mid child _ _ _ _ hwalk
  exact (hhas _ c).walk hwalk

section Linked

variable {dir node : VirtFNode φ} {name : Text} (h : linkObjs s.objs dir name node = .ok s'.objs)

include h

theorem entries_linked : ∃ files, entries s.objs dir = some files ∧ files.lookup name = none ∧
    entries s'.objs dir = some (files.insert name node) := by
  obtain ⟨files, hfiles, hname, hobjs⟩ := linkObjs_eq_ok h
  exact ⟨files, hfiles, hname, by rw [hobjs, entries_setDir_self _ hfiles]⟩

theorem entries_linked_of_ne {other : VirtFNode φ} (hne : other ≠ dir) :
    entries s'.objs other = entries s.objs other := by
  obtain ⟨files, -, -, hobjs⟩ := linkObjs_eq_ok h
  rw [hobjs, entries_setDir_of_ne _ hne]

theorem dirsIn_linked : DirsIn s s' ∧ DirsIn s' s := by
  obtain ⟨files, hfiles, -, hfiles'⟩ := entries_linked h
  constructor <;> intro other found hfound <;> by_cases hne : other = dir
  · exact ⟨_, hne ▸ hfiles'⟩
  · exact ⟨found, (entries_linked_of_ne h hne).trans hfound⟩
  · exact ⟨_, hne ▸ hfiles⟩
  · exact ⟨found, (entries_linked_of_ne h hne).symm.trans hfound⟩

theorem has_linked (other : VirtFNode φ) (c : Text) : Has s s' other c := by
  intro found child hfound hchild
  by_cases hother : other = dir
  · obtain ⟨files, hfiles, hname, hfiles'⟩ := entries_linked h
    rw [hother, hfiles] at hfound
    obtain rfl := Option.some.inj hfound
    refine ⟨_, hother ▸ hfiles', ?_⟩
    have hc : c ≠ name := by
      rintro rfl
      exact absurd (hname.symm.trans hchild) (Option.some_ne_none child).symm
    rw [AList.lookup_insert_ne hc]
    exact hchild
  · exact ⟨found, (entries_linked_of_ne h hother).trans hfound, hchild⟩

theorem walk_linked : (s'.nodes others).walk dir name = .ok node := by
  obtain ⟨files, -, -, hfiles'⟩ := entries_linked h
  rw [walk_entries hfiles', AList.lookup_insert]
  rfl

theorem walk_before_linked : (s.nodes others).walk dir name = .error "No such file" := by
  obtain ⟨files, hfiles, hname, -⟩ := entries_linked h
  rw [walk_entries hfiles, hname]
  rfl

end Linked

variable (others) in
theorem ftype_ne_directory_iff {id : Nat} : (s.nodes others).ftype (.virt id) ≠ .directory ↔
    entries s.objs (.virt id) = none := by
  rw [ftype_virt]
  cases entries s.objs (.virt id) <;> simp

theorem ftype_eq_of_dirsIn (h : DirsIn s s' ∧ DirsIn s' s) (node : VirtFNode φ) :
    (s'.nodes others).ftype node = (s.nodes others).ftype node := by
  cases node with
  | other x => rfl
  | virt id =>
      have hiff : (entries s'.objs (.virt id)).isSome = (entries s.objs (.virt id)).isSome := by
        rw [Bool.eq_iff_iff, Option.isSome_iff_exists, Option.isSome_iff_exists]
        exact ⟨fun ⟨files, hfiles⟩ => h.2 _ files hfiles, fun ⟨files, hfiles⟩ => h.1 _ files hfiles⟩
      rw [ftype_virt, ftype_virt, hiff]

/-- An entry for something that is no directory can only be the end of a walk. -/
theorem run_removed_of_file {dir node part : VirtFNode φ} {name : Text} {cs : List Text} {st : Walk (VirtFNode φ)}
    (h : removeObjs s.objs dir name = .ok s'.objs) (hentry : (s.nodes others).walk dir name = .ok node)
    (hnode : (s.nodes others).ftype node ≠ .directory)
    (hrun : Vfs.run (s.nodes others) s.parts part Vfs.start cs = .ok st) (hlast : Vfs.last part st ≠ node) :
    Vfs.run (s'.nodes others) s.parts part Vfs.start cs = .ok st := by
  apply Vfs.run_transfer (fun _ => (dirsIn_removed h).1.ftype) _ rfl hrun
  intro ds c mid child hprefix hmid hc hfree hwalk
  apply (has_removed h _).walk hwalk
  rintro ⟨hdir, rfl⟩
  obtain rfl : node = child := by
    rw [hdir] at hwalk
    exact Except.ok.inj (hentry.symm.trans hwalk)
  -- the run up to here ends at the file
  obtain ⟨es, rfl⟩ := hprefix
  rw [Vfs.run_append] at hrun
  obtain ⟨upto, hupto, hrest⟩ := bind_eq_ok.mp hrun
  have hend : Vfs.last part upto = node := by
    rw [Vfs.run_concat, hmid, ok_bind] at hupto
    obtain ⟨-, hdone⟩ := Vfs.step_eq_ok.mp hupto
    rw [if_pos hc] at hdone
    obtain ⟨found, hfound, rfl⟩ := hdone
    unfold Vfs.child at hfound
    rw [hfree] at hfound
    exact Except.ok.inj (hfound.symm.trans hwalk)
  cases es with
  | nil =>
      obtain rfl := Except.ok.inj hrest
      exact hlast hend
  | cons e es =>
      obtain ⟨next, hnext, -⟩ := bind_eq_ok.mp hrest
      exact hnode (hend ▸ (Vfs.step_eq_ok.mp hnext).1)

/-! ### A link and an unlink -/

theorem getFileName_of_split {name : Text} {cs : List Text} (h : split path = cs ++ [name]) (hname : IsName name) :
    getFileName path = some name := by
  unfold getFileName
  rw [h, List.getLast?_concat]
  exact if_pos hname

theorem update_of_eq_ok {change : Except String (List (VirtObj φ))}
    {h : ∀ objs, change = .ok objs → Grown s.objs objs} {objs : List (VirtObj φ)} (hok : change = .ok objs) :
    ∃ s', s.update change h = .ok s' ∧ s'.objs = objs ∧ s'.parts = s.parts := by
  subst hok
  exact ⟨_, rfl, rfl, rfl⟩

section Moved

variable {s₁ s₂ : VirtualFileSystem φ} {old new : Text} {id : Nat}

/-- An entry with an object of its own is in a directory that is kept in memory. -/
theorem entries_of_walk_virt {dir : VirtFNode φ} {name : Text} (h : (s.nodes others).walk dir name = .ok (.virt id)) :
    ∃ files, entries s.objs dir = some files ∧ files.lookup name = some (.virt id) := by
  cases dir with
  | other x =>
      obtain ⟨y, -, hy⟩ := map_eq_ok.mp h
      cases hy
  | virt i =>
      rcases hfiles : entries s.objs (.virt i) with _ | files
      · rw [walk_none hfiles] at h
        cases h
      · rw [walk_entries hfiles, okOr_eq_ok] at h
        exact ⟨files, rfl, h⟩

/-- A file that can be walked to can be unlinked, where nothing is mounted over it. -/
theorem unlink_of_walk (hwalk : s.walk others path = .ok (.virt id))
    (hfile : (s.nodes others).ftype (.virt id) ≠ .directory) (hfree : s.parts.lookup (Vfs.canonPath path) = none) :
    ∃ s', s.unlink others path = .ok s' := by
  obtain ⟨cs, name, hsplit, hname⟩ := Vfs.exists_name_of_walk hwalk hfile
  obtain ⟨dir, hparent, hentry⟩ := (Vfs.walk_eq_ok_iff_walkParent hsplit hname hfree).mp hwalk
  obtain ⟨files, hfiles, hlookup⟩ := entries_of_walk_virt hentry
  have hremove : removeObjs s.objs dir name = .ok (setDir s.objs (files.erase name) dir) := by
    unfold removeObjs
    rw [hfiles]
    dsimp only
    rw [hlookup, Option.isSome_some, if_pos rfl]
  obtain ⟨s', hs', -⟩ := update_of_eq_ok (h := fun _ => grown_removeObjs s.closed) hremove
  refine ⟨s', ?_⟩
  unfold unlink
  rw [hparent, ok_bind, getFileName_of_split hsplit hname]
  exact hs'

variable {hnode : (VirtFNode.virt id : VirtFNode φ).Below s.objs.length}
  (hold : s.walk others old = .ok (.virt id)) (hfile : (s.nodes others).ftype (.virt id) ≠ .directory)
  (hfree : s.parts.lookup (Vfs.canonPath old) = none)
  (hlink : s.link others new (.virt id) hnode = .ok s₁) (hunlink : s₁.unlink others old = .ok s₂)

include hlink in
theorem walk_link {node : VirtFNode φ} (h : s.walk others path = .ok node) : s₁.walk others path = .ok node := by
  obtain ⟨dir, name, -, -, hobjs, hparts⟩ := link_eq_ok hlink
  exact walk_of_has (dirsIn_linked hobjs).1 (has_linked hobjs) hparts h

include hlink in
theorem ftype_link (node : VirtFNode φ) : (s₁.nodes others).ftype node = (s.nodes others).ftype node := by
  obtain ⟨dir, name, -, -, hobjs, -⟩ := link_eq_ok hlink
  exact ftype_eq_of_dirsIn (dirsIn_linked hobjs) node

include hfree hlink hunlink in
theorem walk_moved_old {node : VirtFNode φ} : s₂.walk others old ≠ .ok node := by
  obtain ⟨_, _, -, -, -, hparts₁⟩ := link_eq_ok hlink
  exact walk_unlink_ne_ok hunlink (Or.inl (hparts₁ ▸ hfree))

include hold hfile hfree hlink hunlink

/-- The entry that the unlink takes away is the one that the walk had found before the link. -/
theorem exists_entry_moved : ∃ dir name cs, split old = cs ++ [name] ∧ IsName name ∧
    (s.nodes others).walk dir name = .ok (.virt id) ∧ (s₁.nodes others).walk dir name = .ok (.virt id) ∧
    removeObjs s₁.objs dir name = .ok s₂.objs ∧ s₂.parts = s.parts := by
  obtain ⟨cs, name, hsplit, hname⟩ := Vfs.exists_name_of_walk hold hfile
  obtain ⟨_, _, -, -, hobjs₁, hparts₁⟩ := link_eq_ok hlink
  obtain ⟨dir, name', hparent, hname', hobjs₂, hparts₂⟩ := unlink_eq_ok hunlink
  obtain rfl := Option.some.inj ((getFileName_of_split hsplit hname).symm.trans hname')
  obtain ⟨before, hbefore, hentry⟩ := (Vfs.walk_eq_ok_iff_walkParent hsplit hname hfree).mp hold
  have hentry₁ := (has_linked hobjs₁ before name).walk hentry
  obtain ⟨after, hafter, hfound⟩ := (Vfs.walk_eq_ok_iff_walkParent hsplit hname (hparts₁ ▸ hfree)).mp
    (walk_link hlink hold)
  obtain rfl := Except.ok.inj (hafter.symm.trans hparent)
  -- the directory is the same before and after the link
  have hsame : after = before := by
    obtain ⟨part, st, hroot, hrun, rfl, hdir⟩ := (Vfs.walkParent_eq_ok hsplit hname).mp hbefore
    obtain ⟨part', st', hroot', hrun', rfl, -⟩ := (Vfs.walkParent_eq_ok hsplit hname).mp hafter
    rw [hparts₁] at hroot' hrun'
    obtain rfl := Option.some.inj (hroot.symm.trans hroot')
    have htransfer : Vfs.run (s₁.nodes others) s.parts ((s₁.nodes others).root part) Vfs.start cs = .ok st := by
      apply Vfs.run_transfer (fun _ => (dirsIn_linked hobjs₁).1.ftype) _ rfl hrun
      intro ds c mid child _ _ _ _ hwalk
      exact (has_linked hobjs₁ _ c).walk hwalk
    exact congrArg _ (Except.ok.inj (hrun'.symm.trans htransfer))
  exact ⟨after, name, cs, hsplit, hname, hsame ▸ hentry, hfound, hobjs₂, hparts₂.trans hparts₁⟩

theorem run_moved {cs : List Text} {part : VirtFNode φ} {st : Walk (VirtFNode φ)}
    (hrun : Vfs.run (s.nodes others) s.parts part Vfs.start cs = .ok st) (hlast : Vfs.last part st ≠ .virt id) :
    Vfs.run (s₂.nodes others) s.parts part Vfs.start cs = .ok st := by
  obtain ⟨dir, name, -, -, -, -, hentry, hobjs, -⟩ := exists_entry_moved hold hfile hfree hlink hunlink
  obtain ⟨_, _, -, -, hobjs₁, hparts₁⟩ := link_eq_ok hlink
  rw [← hparts₁]
  refine run_removed_of_file hobjs hentry (ftype_link hlink (.virt id) ▸ hfile) ?_ hlast
  rw [hparts₁]
  apply Vfs.run_transfer (fun _ => (dirsIn_linked hobjs₁).1.ftype) _ rfl hrun
  intro ds c mid child _ _ _ _ hwalk
  exact (has_linked hobjs₁ _ c).walk hwalk

theorem walk_moved_other {node : VirtFNode φ} (h : s.walk others path = .ok node) (hne : node ≠ .virt id) :
    s₂.walk others path = .ok node := by
  obtain ⟨_, _, _, -, -, -, -, -, hparts⟩ := exists_entry_moved hold hfile hfree hlink hunlink
  obtain ⟨part, st, hroot, hrun, rfl⟩ := Vfs.walk_eq_ok.mp h
  unfold walk
  rw [hparts]
  exact Vfs.walk_eq_ok.mpr ⟨part, st, hroot, run_moved hold hfile hfree hlink hunlink hrun hne, rfl⟩

theorem ftype_moved (node : VirtFNode φ) : (s₂.nodes others).ftype node = (s.nodes others).ftype node := by
  obtain ⟨_, _, _, -, -, -, -, hobjs, -⟩ := exists_entry_moved hold hfile hfree hlink hunlink
  exact (ftype_eq_of_dirsIn (dirsIn_removed hobjs) node).trans (ftype_link hlink node)

theorem walk_moved_new (hnew : s.parts.lookup (Vfs.canonPath new) = none) : s₂.walk others new = .ok (.virt id) := by
  obtain ⟨dirOld, nameOld, -, -, -, hentry, -, hobjs₂, hparts⟩ := exists_entry_moved hold hfile hfree hlink hunlink
  obtain ⟨dir, name, hparent, hname, hobjs₁, -⟩ := link_eq_ok hlink
  obtain ⟨cs, hsplit, hisName⟩ := getFileName_eq_some hname
  unfold walk
  rw [hparts]
  refine (Vfs.walk_eq_ok_iff_walkParent hsplit hisName hnew).mpr ⟨dir, ?_, ?_⟩
  · obtain ⟨part, st, hroot, hrun, rfl, hdir⟩ := (Vfs.walkParent_eq_ok hsplit hisName).mp hparent
    have hne : Vfs.last ((s.nodes others).root part) st ≠ .virt id := fun heq => hfile (heq ▸ hdir)
    refine (Vfs.walkParent_eq_ok hsplit hisName).mpr
      ⟨part, st, hroot, run_moved hold hfile hfree hlink hunlink hrun hne, rfl, ?_⟩
    rw [← hdir]
    exact ftype_moved hold hfile hfree hlink hunlink _
  · apply (has_removed hobjs₂ _).walk (walk_linked hobjs₁)
    -- the new name was free, the old one was not
    rintro ⟨rfl, rfl⟩
    rw [walk_before_linked hobjs₁] at hentry
    cases hentry

end Moved

end VirtualFileSystem

namespace FileSys

variable {φ σ : Type} (others : OtherFiles φ σ)

/-- `mv` of `init_filesys`. -/
def mv (old new : Text) : Eff (FileSys φ σ) Stop Unit := do
  let file ← find others (.path old)
  link others new file
  unlink others old

variable {others} {s : FileSys φ σ} {old new : Text} {id : Nat}

theorem find_path (path : Text) (s : FileSys φ σ) :
    (find others (.path path) s).1 = (s.vfs.walk others.toOtherNodes path).mapError .err := rfl

/-- `mv` of a regular file that is kept in memory, where nothing is mounted over its name. Either it fails as the link
does and leaves everything as it was; or the old path leads nowhere, every path to another node leads to the same
node as before, nothing is written, and the new path, if nothing is mounted there, leads to the file and reads what the
old one did. -/
theorem mv_file (p : Profile) (others : OtherFiles φ σ) (s : FileSys φ σ) (old new : Text) (id : Nat)
    (hold : s.vfs.walk others.toOtherNodes old = .ok (.virt id)) (hfile : entries s.vfs.objs (.virt id) = none)
    (hfree : s.vfs.parts.lookup (Vfs.canonPath old) = none) :
    (∃ e, link others new (.virt id) s = (.error e, s) ∧ mv others old new s = (.error e, s)) ∨
    ∃ s', mv others old new s = (.ok (), s') ∧
      (∃ e, s'.vfs.walk others.toOtherNodes old = .error e) ∧
      (∀ path node, s.vfs.walk others.toOtherNodes path = .ok node → node ≠ .virt id →
        s'.vfs.walk others.toOtherNodes path = .ok node) ∧
      s'.vfd = s.vfd ∧ s'.disks = s.disks ∧
      (s.vfs.parts.lookup (Vfs.canonPath new) = none →
        s'.vfs.walk others.toOtherNodes new = .ok (.virt id) ∧
        ∀ buf offset, (read p others (.path new) buf offset s').1 = (read p others (.path old) buf offset s).1) := by
  have hfind : (find others (.path old) s).1 = .ok (.virt id) := by
    rw [find_path, hold]
    rfl
  have htype := (VirtualFileSystem.ftype_ne_directory_iff others.toOtherNodes).mpr hfile
  have hbelow : (VirtFNode.virt id : VirtFNode φ).Below s.vfs.objs.length := VirtualFileSystem.walk_below hold
  have hmv : mv others old new s = (link others new (.virt id) >>= fun _ => unlink others old) s := by
    unfold mv
    rw [find_bind, hfind]
  have hlinkEq : link others new (.virt id) s =
      onVfs (fun _ => s.vfs.link others.toOtherNodes new (.virt id) hbelow) s := dif_pos hbelow
  rcases hlink : s.vfs.link others.toOtherNodes new (.virt id) hbelow with e | vfs₁
  · have herror : link others new (.virt id) s = (.error (.err e), s) := by
      rw [hlinkEq, onVfs, hlink]
    exact Or.inl ⟨_, herror, by rw [hmv, Eff.bind_of_error herror]⟩
  · have hok : link others new (.virt id) s = (.ok (), { s with vfs := vfs₁ }) := by
      rw [hlinkEq, onVfs, hlink]
    obtain ⟨_, _, -, -, -, hparts₁⟩ := VirtualFileSystem.link_eq_ok hlink
    have htype₁ := (VirtualFileSystem.ftype_link hlink (.virt id)).trans_ne htype
    obtain ⟨vfs₂, hunlink⟩ := VirtualFileSystem.unlink_of_walk (VirtualFileSystem.walk_link hlink hold) htype₁
      (hparts₁ ▸ hfree)
    refine Or.inr ⟨{ s with vfs := vfs₂ }, ?_, ?_, ?_, rfl, rfl, fun hnew => ?_⟩
    · rw [hmv, Eff.bind_of_ok hok, unlink, onVfs]
      dsimp only
      rw [hunlink]
    · rcases hwalk : vfs₂.walk others.toOtherNodes old with e | node
      · exact ⟨e, rfl⟩
      · exact absurd hwalk (VirtualFileSystem.walk_moved_old hfree hlink hunlink)
    · intro path node
      exact VirtualFileSystem.walk_moved_other hold htype hfree hlink hunlink
    · have hwalk := VirtualFileSystem.walk_moved_new hold htype hfree hlink hunlink hnew
      have htype₂ := (VirtualFileSystem.ftype_moved hold htype hfree hlink hunlink (.virt id)).trans_ne htype
      have hfile₂ : entries vfs₂.objs (.virt id) = none := (VirtualFileSystem.ftype_ne_directory_iff _).mp htype₂
      have hfind₂ : (find others (.path new) { s with vfs := vfs₂ }).1 = .ok (.virt id) := by
        rw [find_path, hwalk]
        rfl
      refine ⟨hwalk, fun buf offset => ?_⟩
      rw [read_virt hfind hfile, read_virt hfind₂ hfile₂]

/-- A directory `/src`, and a file `/main.rs` with three bytes. -/
def written : FileSys Empty Unit :=
  Runs.run (step .dev noOtherFiles) (init ()) [.create "/src".toList .directory, .newFile,
    .link "/main.rs".toList (.virt 2), .write (.path "/main.rs".toList) [1, 2, 3] 0]

theorem mv_file_written :
    written.vfs.walk VirtualFileSystem.noOthers "/main.rs".toList = .ok (.virt 2) ∧
    ∃ s', mv noOtherFiles "/main.rs".toList "/src/main.rs".toList written = (.ok (), s') ∧
      (∃ e, s'.vfs.walk VirtualFileSystem.noOthers "/main.rs".toList = .error e) ∧
      s'.vfs.walk VirtualFileSystem.noOthers "/src".toList = .ok (.virt 1) ∧
      (read .dev noOtherFiles (.path "/src/main.rs".toList) [0, 0] 1 s').1 = .ok [2, 3] := by
  have hold : written.vfs.walk VirtualFileSystem.noOthers "/main.rs".toList = .ok (.virt 2) := by decide +kernel
  have hlink : (link noOtherFiles "/src/main.rs".toList (.virt 2) written).1 = .ok () := by decide +kernel
  rcases mv_file .dev noOtherFiles written "/main.rs".toList "/src/main.rs".toList 2 hold (by decide +kernel)
    (by decide +kernel) with ⟨e, herror, -⟩ | ⟨s', hmv, hgone, hother, -, -, hnew⟩
  · rw [herror] at hlink
    cases hlink
  · refine ⟨hold, s', hmv, hgone, hother _ _ (by decide +kernel) (by decide), ?_⟩
    rw [(hnew (by decide +kernel)).2]
    decide +kernel

end FileSys

end UnixKernel
