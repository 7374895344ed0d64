import Mathlib.Algebra.Order.BigOperators.Group.List
import Mathlib.Algebra.Order.Group.Nat
import UnixKernel.Overflow
import UnixKernel.Paths

/-! The walks and the mounts of `filesys/mod.rs`. A walk goes over the components of a path with a stack of
nodes and the text `path_now`; the mount table is looked up by that text. Which node a directory holds under
a name, and which node is the root of a partition, is given with the nodes. -/

namespace UnixKernel

open Paths

inductive FType where
  | fifo
  | charDev
  | directory
  | blockDev
  | regular
  | symLink
  | socket
  deriving DecidableEq, Repr

/-- The nodes of a moment: what `meta`, `walk` and `Partition::root` say. -/
structure Nodes (ν π : Type) where
  ftype : ν → FType
  walk : ν → Text → Except String ν
  root : π → ν

/-- The mount table. -/
abbrev Parts (π : Type) := List (Text × π)

/-- The state of the loop of `walk_inner`, the top of the stack first. -/
structure Walk (ν : Type) where
  stack : List ν
  pathNow : Text
  deriving DecidableEq, Repr

namespace Vfs

variable {ν π : Type} (nodes : Nodes ν π) (parts : Parts π) (root : ν)

def start : Walk ν := ⟨[], []⟩

/-- `stack.last().unwrap_or(&root)`. -/
def last (st : Walk ν) : ν := st.stack.headD root

/-- The node under a name: what is mounted at the text, else what the directory has. -/
def child (dir : ν) (pathNow part : Text) : Except String ν :=
  match parts.lookup pathNow with
  | some mounted => .ok (nodes.root mounted)
  | none => nodes.walk dir part

/-- The check every component begins with. -/
def checkDir (st : Walk ν) : Except String Unit :=
  ensure (nodes.ftype (last root st) = .directory) "Directory walk error"

/-- One component of a path. -/
def step (st : Walk ν) (part : Text) : Except String (Walk ν) := do
  checkDir nodes root st
  if IsName part then do
    let node ← child nodes parts (last root st) (push st.pathNow part) part
    pure ⟨node :: st.stack, push st.pathNow part⟩
  else if part = ['.', '.'] ∧ st.stack ≠ [] then pure ⟨st.stack.tail, pop st.pathNow⟩
  else pure st

/-- The loop of `walk_inner`. The walk to the parent stops in front of a name that is the last component. -/
def walkFrom (isparent : Bool) : Walk ν → List Text → Except String (Walk ν)
  | st, [] => .ok st
  | st, part :: rest =>
      if isparent ∧ rest = [] ∧ IsName part then do
        checkDir nodes root st
        pure st
      else do
        let st ← step nodes parts root st part
        walkFrom isparent st rest

def walkInner (path : Text) (isparent : Bool) : Except String ν :=
  match parts.lookup ['/'] with
  | none => .error "VFS not initialised"
  | some part => (walkFrom nodes parts (nodes.root part) isparent start (split path)).map (last (nodes.root part))

def walk (path : Text) : Except String ν := walkInner nodes parts path false

def walkParent (path : Text) : Except String ν := walkInner nodes parts path true

/-- `mount`, with the table it leaves. -/
def mount (path : Text) (part : π) : Except String (Parts π) :=
  if (parts.lookup path).isSome then .error "Mount point already exists"
  else match walkInner nodes parts path false with
    | .error _ => .error "Mount point does not exist"
    | .ok dir =>
        if nodes.ftype dir ≠ .directory then .error "Mount point is not a directory"
        else .ok ((path, part) :: parts)

/-- `unmount`. -/
def unmount (path : Text) : Except String (Parts π) :=
  if path = ['/'] then .error "Cannot unmount root"
  else if (parts.lookup path).isSome then .ok (parts.filter fun entry => entry.1 ≠ path)
  else .error "No such mount point"

/-! ### The run of a walk -/

/-- The steps for a list of components. -/
def run (st : Walk ν) (cs : List Text) : Except String (Walk ν) := cs.foldlM (step nodes parts root) st

variable {nodes parts root}

theorem run_append (st : Walk ν) (cs ds : List Text) : run nodes parts root st (cs ++ ds) =
    run nodes parts root st cs >>= fun st => run nodes parts root st ds := List.foldlM_append

theorem run_concat (st : Walk ν) (cs : List Text) (c : Text) : run nodes parts root st (cs ++ [c]) =
    run nodes parts root st cs >>= fun st => step nodes parts root st c := by
  rw [run_append]
  congr 1
  funext st
  exact bind_pure _

theorem walkFrom_false (st : Walk ν) (cs : List Text) :
    walkFrom nodes parts root false st cs = run nodes parts root st cs := by
  induction cs generalizing st with
  | nil => rfl
  | cons c cs ih =>
      unfold walkFrom
      rw [if_neg fun h => Bool.false_ne_true h.1]
      exact congrArg (step nodes parts root st c >>= ·) (funext ih)

theorem checkDir_eq_ok {st : Walk ν} : checkDir nodes root st = .ok () ↔
    nodes.ftype (last root st) = .directory := ensure_eq_ok

/-- A step that succeeds, with what it does. -/
theorem step_eq_ok {st st' : Walk ν} {c : Text} : step nodes parts root st c = .ok st' ↔
    nodes.ftype (last root st) = .directory ∧
      if IsName c then ∃ node, child nodes parts (last root st) (push st.pathNow c) c = .ok node ∧
        st' = ⟨node :: st.stack, push st.pathNow c⟩
      else if c = ['.', '.'] ∧ st.stack ≠ [] then st' = ⟨st.stack.tail, pop st.pathNow⟩ else st' = st := by
  unfold step
  rw [bind_eq_ok]
  constructor
  · rintro ⟨_, hdir, h⟩
    refine ⟨checkDir_eq_ok.mp hdir, ?_⟩
    split_ifs at h ⊢
    · obtain ⟨node, hnode, h⟩ := bind_eq_ok.mp h
      exact ⟨node, hnode, (Except.ok.inj h).symm⟩
    · exact (Except.ok.inj h).symm
    · exact (Except.ok.inj h).symm
  · rintro ⟨hdir, h⟩
    refine ⟨(), checkDir_eq_ok.mpr hdir, ?_⟩
    split_ifs at h ⊢
    · obtain ⟨node, hnode, rfl⟩ := h
      rw [hnode]
      rfl
    · rw [h]
      rfl
    · rw [h]
      rfl

/-! ### The walk along the names -/

/-- A walk along names has the text of the names and one node for each. -/
theorem run_names {names : List Text} {st : Walk ν} (hplain : Plain names)
    (h : run nodes parts root start names = .ok st) :
    st.pathNow = spell names ∧ st.stack.length = names.length := by
  induction names using List.reverseRecOn generalizing st with
  | nil =>
      rw [← Except.ok.inj h]
      exact ⟨rfl, rfl⟩
  | append_singleton names n ih =>
      rw [run_concat] at h
      obtain ⟨mid, hmid, hstep⟩ := bind_eq_ok.mp h
      have hnames : Plain names := fun m hm => hplain m (List.mem_append_left _ hm)
      have hn : IsName n := (hplain n (List.mem_append_right _ (List.mem_singleton.mpr rfl))).1
      obtain ⟨htext, hlen⟩ := ih hnames hmid
      obtain ⟨-, hdone⟩ := step_eq_ok.mp hstep
      rw [if_pos hn] at hdone
      obtain ⟨node, -, rfl⟩ := hdone
      rw [htext, push_spell hnames, List.length_append, ← hlen]
      exact ⟨rfl, rfl⟩

theorem run_names_pop {names : List Text} {n : Text} {st : Walk ν} (hplain : Plain (names ++ [n]))
    (h : run nodes parts root start (names ++ [n]) = .ok st) :
    st.stack ≠ [] ∧ run nodes parts root start names = .ok ⟨st.stack.tail, spell names⟩ := by
  rw [run_concat] at h
  obtain ⟨before, hbefore, hlast⟩ := bind_eq_ok.mp h
  have hnames : Plain names := fun m hm => hplain m (List.mem_append_left _ hm)
  have hn : IsName n := (hplain n (List.mem_append_right _ (List.mem_singleton.mpr rfl))).1
  obtain ⟨-, hpushed⟩ := step_eq_ok.mp hlast
  rw [if_pos hn] at hpushed
  obtain ⟨node, -, rfl⟩ := hpushed
  refine ⟨List.cons_ne_nil _ _, ?_⟩
  rw [hbefore, ← (run_names hnames hbefore).1]
  rfl

/-- The text and the stack of a walk are those of the walk along the canonical names. -/
theorem run_canon {cs : List Text} {st : Walk ν} (hcs : ∀ c ∈ cs, '/' ∉ c)
    (h : run nodes parts root start cs = .ok st) :
    Spells st.pathNow (canon cs) ∧
      run nodes parts root start (canon cs) = .ok ⟨st.stack, spell (canon cs)⟩ := by
  induction cs using List.reverseRecOn generalizing st with
  | nil =>
      rw [← Except.ok.inj h]
      exact ⟨.inl rfl, rfl⟩
  | append_singleton cs c ih =>
      have hcs' : ∀ c ∈ cs, '/' ∉ c := fun d hd => hcs d (List.mem_append_left _ hd)
      have hplain := plain_canon hcs'
      rw [run_concat] at h
      obtain ⟨mid, hmid, hstep⟩ := bind_eq_ok.mp h
      obtain ⟨hspells, hrun⟩ := ih hcs' hmid
      obtain ⟨hdir, hdone⟩ := step_eq_ok.mp hstep
      rw [canon_concat]
      unfold resolve
      split_ifs at hdone ⊢ with hname hdots hpop hpop
      · -- the new node is looked up under the same text in both walks
        obtain ⟨node, hchild, rfl⟩ := hdone
        rw [hspells.push hplain] at hchild ⊢
        refine ⟨.inl rfl, ?_⟩
        rw [run_concat, hrun, ok_bind]
        refine step_eq_ok.mpr ⟨hdir, ?_⟩
        rw [if_pos hname, push_spell hplain]
        exact ⟨node, hchild, rfl⟩
      · -- the last name goes with the last node
        rcases List.eq_nil_or_concat (canon cs) with hnil | ⟨names, n, hconcat⟩
        · obtain ⟨-, hlen⟩ := run_names hplain hrun
          rw [hnil] at hlen
          exact absurd (List.length_eq_zero_iff.mp hlen) hpop.2
        · rw [List.concat_eq_append] at hconcat
          rw [hconcat] at hspells hrun hplain ⊢
          have hslash := (hplain n (List.mem_append_right _ (List.mem_singleton.mpr rfl))).2
          have hne : names ++ [n] ≠ [] := List.append_ne_nil_of_right_ne_nil names (List.cons_ne_nil n [])
          have htext : mid.pathNow = spell (names ++ [n]) := hspells.resolve_right fun hroot => hne hroot.1
          rw [hdone, List.dropLast_concat, htext, pop_spell hslash]
          exact ⟨spells_pathOf names, (run_names_pop hplain hrun).2⟩
      · -- at the root there is nothing to go back from
        rcases List.eq_nil_or_concat (canon cs) with hnil | ⟨names, n, hconcat⟩
        · rw [hnil] at hspells hrun ⊢
          rw [hdone]
          exact ⟨hspells, hrun⟩
        · rw [List.concat_eq_append] at hconcat
          rw [hconcat] at hrun hplain
          exact absurd ⟨hdots, (run_names_pop hplain hrun).1⟩ hpop
      · exact absurd hpop.1 hdots
      · rw [hdone]
        exact ⟨hspells, hrun⟩

/-- The canonical form of a path. -/
def canonPath (path : Text) : Text := pathOf (canon (split path))

/-- A walk along any components ends where the walk along their canonical path ends. -/
theorem walk_pathOf_canon {part : π} {cs : List Text} {st : Walk ν} (hroot : parts.lookup ['/'] = some part)
    (hcs : ∀ c ∈ cs, '/' ∉ c) (hne : cs ≠ []) (h : run nodes parts (nodes.root part) start cs = .ok st) :
    walk nodes parts (pathOf (canon cs)) = .ok (last (nodes.root part) st) := by
  obtain ⟨-, hrun⟩ := run_canon hcs h
  -- the first component has found the root to be a directory
  have hdir : nodes.ftype (nodes.root part) = .directory := by
    cases cs with
    | nil => exact absurd rfl hne
    | cons c cs =>
        obtain ⟨mid, hstep, -⟩ := bind_eq_ok.mp h
        exact (step_eq_ok.mp hstep).1
  have hempty : step nodes parts (nodes.root part) start [] = .ok start := step_eq_ok.mpr ⟨hdir, rfl⟩
  have hpath : run nodes parts (nodes.root part) start (split (pathOf (canon cs))) =
      .ok ⟨st.stack, spell (canon cs)⟩ := by
    rw [split_pathOf (plain_canon hcs)]
    refine (congrArg (· >>= fun st => run nodes parts (nodes.root part) st _) hempty).trans ?_
    rw [ok_bind]
    split_ifs with hnil
    · rw [hnil] at hrun ⊢
      refine (congrArg (· >>= fun st => run nodes parts (nodes.root part) st []) hempty).trans ?_
      exact hrun
    · exact hrun
  unfold walk walkInner
  rw [hroot]
  dsimp only
  rw [walkFrom_false, hpath]
  rfl

theorem walk_eq_ok {path : Text} {node : ν} : walk nodes parts path = .ok node ↔
    ∃ part st, parts.lookup ['/'] = some part ∧
      run nodes parts (nodes.root part) start (split path) = .ok st ∧ last (nodes.root part) st = node := by
  unfold walk walkInner
  rcases hroot : parts.lookup ['/'] with _ | part
  · exact iff_of_false (by intro h; cases h) (by rintro ⟨_, _, h, _⟩; cases h)
  · dsimp only
    rw [walkFrom_false, map_eq_ok]
    constructor
    · rintro ⟨st, hrun, hlast⟩
      exact ⟨part, st, rfl, hrun, hlast⟩
    · rintro ⟨_, st, hpart, hrun, hlast⟩
      obtain rfl := Option.some.inj hpart
      exact ⟨st, hrun, hlast⟩

theorem push_eq_pathOf {part : π} {cs : List Text} {name : Text} {st : Walk ν} (hcs : ∀ c ∈ cs, '/' ∉ c)
    (hname : IsName name) (h : run nodes parts (nodes.root part) start cs = .ok st) :
    push st.pathNow name = pathOf (canon (cs ++ [name])) := by
  rw [(run_canon hcs h).1.push (plain_canon hcs), canon_concat, resolve, if_pos hname, pathOf, if_neg]
  exact List.append_ne_nil_of_right_ne_nil _ (List.cons_ne_nil name [])

/-- A walk that succeeds gives the node of the canonical path; and in every walk a name is looked up in the
mount table under the canonical path of the node that it puts on the stack. -/
theorem walk_canonPath (nodes : Nodes ν π) (parts : Parts π) (path : Text) :
    (∀ node, walk nodes parts path = .ok node → walk nodes parts (canonPath path) = .ok node) ∧
    ∀ part cs name rest st, parts.lookup ['/'] = some part → split path = cs ++ name :: rest → IsName name →
      run nodes parts (nodes.root part) start cs = .ok st →
      push st.pathNow name = pathOf (canon (cs ++ [name])) ∧
      ∀ st', step nodes parts (nodes.root part) st name = .ok st' →
        st'.pathNow = pathOf (canon (cs ++ [name])) ∧
        walk nodes parts st'.pathNow = .ok (last (nodes.root part) st') := by
  have hslash : ∀ c ∈ split path, '/' ∉ c := fun c hc => slash_not_mem_of_mem_split hc
  constructor
  · intro node h
    obtain ⟨part, st, hroot, hrun, rfl⟩ := walk_eq_ok.mp h
    exact walk_pathOf_canon hroot hslash (split_ne_nil path) hrun
  · intro part cs name rest mid hroot hsplit hname hmid
    have hcs : ∀ c ∈ cs ++ [name], '/' ∉ c := by
      intro c hc
      apply hslash
      rw [hsplit, ← List.singleton_append, ← List.append_assoc]
      exact List.mem_append_left _ hc
    have htext := push_eq_pathOf (fun c hc => hcs c (List.mem_append_left _ hc)) hname hmid
    refine ⟨htext, fun st' hstep => ?_⟩
    have hrun : run nodes parts (nodes.root part) start (cs ++ [name]) = .ok st' := by
      rw [run_concat, hmid, ok_bind, hstep]
    have htext' : st'.pathNow = pathOf (canon (cs ++ [name])) := by
      obtain ⟨-, hdone⟩ := step_eq_ok.mp hstep
      rw [if_pos hname] at hdone
      obtain ⟨node, -, rfl⟩ := hdone
      exact htext
    have hne : cs ++ [name] ≠ [] := List.append_ne_nil_of_right_ne_nil cs (List.cons_ne_nil name [])
    rw [htext']
    exact ⟨rfl, walk_pathOf_canon hroot hcs hne hrun⟩

/-- Three directories; the first holds the second under `mnt`, and the third is the root of a partition. -/
def sample : Nodes (Fin 3) (Fin 3) where
  ftype _ := .directory
  walk node name := if node = 0 ∧ name = "mnt".toList then .ok 1 else .error "No such file"
  root part := part

theorem walk_canonPath_sample :
    walk sample [("/".toList, 0)] "mnt/../.././/mnt/".toList = .ok 1 ∧
    walk sample [("/".toList, 0)] (canonPath "mnt/../.././/mnt/".toList) = .ok 1 ∧
    canonPath "mnt/../.././/mnt/".toList = "/mnt".toList :=
  have h : walk sample [("/".toList, 0)] "mnt/../.././/mnt/".toList = .ok 1 := by decide
  ⟨h, (walk_canonPath sample [("/".toList, 0)] _).1 1 h, by decide⟩

/-! ### The walk to the parent -/

theorem walkFrom_true {st : Walk ν} {cs : List Text} {name : Text} (hname : IsName name) :
    walkFrom nodes parts root true st (cs ++ [name]) =
      run nodes parts root st cs >>= fun st => checkDir nodes root st >>= fun _ => pure st := by
  induction cs generalizing st with
  | nil => exact if_pos ⟨rfl, rfl, hname⟩
  | cons c cs ih =>
      have hrest : ¬(true = true ∧ cs ++ [name] = [] ∧ IsName c) := fun h =>
        List.append_ne_nil_of_right_ne_nil cs (List.cons_ne_nil name []) h.2.1
      calc walkFrom nodes parts root true st (c :: (cs ++ [name]))
          = step nodes parts root st c >>= fun st => walkFrom nodes parts root true st (cs ++ [name]) := if_neg hrest
        _ = step nodes parts root st c >>= fun st => run nodes parts root st cs >>= fun st =>
              checkDir nodes root st >>= fun _ => pure st := congrArg _ (funext fun _ => ih)
        _ = run nodes parts root st (c :: cs) >>= fun st => checkDir nodes root st >>= fun _ => pure st :=
              (bind_assoc _ _ _).symm

theorem walkParent_eq_ok {path name : Text} {cs : List Text} {dir : ν} (hsplit : split path = cs ++ [name])
    (hname : IsName name) : walkParent nodes parts path = .ok dir ↔
    ∃ part st, parts.lookup ['/'] = some part ∧ run nodes parts (nodes.root part) start cs = .ok st ∧
      last (nodes.root part) st = dir ∧ nodes.ftype dir = .directory := by
  unfold walkParent walkInner
  rcases hroot : parts.lookup ['/'] with _ | part
  · exact iff_of_false (by intro h; cases h) (by rintro ⟨_, _, h, -⟩; cases h)
  · dsimp only
    rw [hsplit, walkFrom_true hname, map_eq_ok]
    constructor
    · rintro ⟨st, h, rfl⟩
      obtain ⟨mid, hrun, h⟩ := bind_eq_ok.mp h
      obtain ⟨_, hdir, h⟩ := bind_eq_ok.mp h
      obtain rfl := Except.ok.inj h
      exact ⟨part, mid, rfl, hrun, rfl, checkDir_eq_ok.mp hdir⟩
    · rintro ⟨_, st, hpart, hrun, rfl, hdir⟩
      obtain rfl := Option.some.inj hpart
      refine ⟨st, ?_, rfl⟩
      rw [hrun, ok_bind, checkDir_eq_ok.mpr hdir]
      rfl

/-- A walk goes the same way over other nodes that have what it looks up. -/
theorem run_transfer {nodes nodes' : Nodes ν π} {cs : List Text} {st : Walk ν}
    (hdir : ∀ node, nodes.ftype node = .directory → nodes'.ftype node = .directory)
    (hwalk : ∀ ds c mid node, ds ++ [c] <+: cs → run nodes parts root start ds = .ok mid →
      IsName c → parts.lookup (push mid.pathNow c) = none → nodes.walk (last root mid) c = .ok node →
      nodes'.walk (last root mid) c = .ok node)
    (hroot : nodes'.root = nodes.root)
    (h : run nodes parts root start cs = .ok st) : run nodes' parts root start cs = .ok st := by
  induction cs using List.reverseRecOn generalizing st with
  | nil => exact h
  | append_singleton cs c ih =>
      rw [run_concat] at h ⊢
      obtain ⟨mid, hmid, hstep⟩ := bind_eq_ok.mp h
      have hmid' := ih (fun ds d st node hds => hwalk ds d st node (hds.trans (List.prefix_append cs [c]))) hmid
      rw [hmid', ok_bind]
      obtain ⟨hlast, hdone⟩ := step_eq_ok.mp hstep
      refine step_eq_ok.mpr ⟨hdir _ hlast, ?_⟩
      split_ifs at hdone ⊢ with hname
      · obtain ⟨node, hchild, rfl⟩ := hdone
        refine ⟨node, ?_, rfl⟩
        unfold child at hchild ⊢
        rcases hkey : parts.lookup (push mid.pathNow c) with _ | mounted
        · rw [hkey] at hchild
          exact hwalk cs c mid node (List.prefix_refl _) hmid hname hkey hchild
        · rw [hkey] at hchild
          dsimp only at hchild ⊢
          rw [hroot]
          exact hchild
      · exact hdone
      · exact hdone

/-! ### Mounts -/

theorem mount_eq_ok {path : Text} {part : π} {parts' : Parts π} : mount nodes parts path part = .ok parts' ↔
    parts.lookup path = none ∧ (∃ dir, walk nodes parts path = .ok dir ∧ nodes.ftype dir = .directory) ∧
      (path, part) :: parts = parts' := by
  unfold mount walk
  rcases hkey : parts.lookup path with _ | old
  · rw [if_neg (by exact Bool.false_ne_true)]
    rcases hwalk : walkInner nodes parts path false with e | dir
    · exact iff_of_false (by intro h; cases h) (by rintro ⟨-, ⟨_, h, _⟩, -⟩; cases h)
    · dsimp only
      split_ifs with hdir
      · refine iff_of_false (by intro h; cases h) ?_
        rintro ⟨-, ⟨dir', hdir', htype⟩, -⟩
        exact hdir (Except.ok.inj hdir' ▸ htype)
      · rw [Except.ok.injEq]
        exact ⟨fun h => ⟨rfl, ⟨dir, rfl, not_not.mp hdir⟩, h⟩, fun h => h.2.2⟩
  · exact iff_of_false (by intro h; cases h) (by rintro ⟨h, -⟩; cases h)

theorem lookup_cons_of_ne {path text : Text} (part : π) (h : text ≠ path) :
    List.lookup text ((path, part) :: parts) = parts.lookup text := by
  rw [List.lookup_cons, beq_false_of_ne h]

theorem step_mount_of_ne {path c : Text} {part : π} {st : Walk ν} (h : IsName c → push st.pathNow c ≠ path) :
    step nodes ((path, part) :: parts) root st c = step nodes parts root st c := by
  unfold step
  by_cases hc : IsName c
  · unfold child
    rw [lookup_cons_of_ne part (h hc)]
  · rw [if_neg hc, if_neg hc]

/-- A walk does not see a mount at a text that none of its components has. -/
theorem run_mount_of_ne {path : Text} {part rootPart : π} {cs : List Text} (hcs : ∀ c ∈ cs, '/' ∉ c)
    (h : ∀ ds, ds <+: cs → pathOf (canon ds) ≠ path) :
    run nodes ((path, part) :: parts) (nodes.root rootPart) start cs =
      run nodes parts (nodes.root rootPart) start cs := by
  induction cs using List.reverseRecOn with
  | nil => rfl
  | append_singleton cs c ih =>
      have hcs' : ∀ c ∈ cs, '/' ∉ c := fun d hd => hcs d (List.mem_append_left _ hd)
      rw [run_concat, run_concat, ih hcs' fun ds hds => h ds (hds.trans (List.prefix_append cs [c]))]
      rcases hrun : run nodes parts (nodes.root rootPart) start cs with e | st
      · rfl
      · apply step_mount_of_ne
        intro hname
        rw [push_eq_pathOf hcs' hname hrun]
        exact h _ (List.prefix_refl _)

/-- A path that is not canonical is never looked up. -/
theorem walk_mount_of_ne_canonPath {path q : Text} {part : π} (hpath : path ≠ canonPath path) :
    walk nodes ((path, part) :: parts) q = walk nodes parts q := by
  have hne : ∀ cs, (∀ c ∈ cs, '/' ∉ c) → pathOf (canon cs) ≠ path := by
    rintro cs hcs rfl
    apply hpath
    unfold canonPath
    rw [canon_split_pathOf (plain_canon hcs)]
  have hslash : ∀ c ∈ split q, '/' ∉ c := fun c hc => slash_not_mem_of_mem_split hc
  have hroot : ['/'] ≠ path := hne [] fun c hc => absurd hc List.not_mem_nil
  unfold walk walkInner
  rw [lookup_cons_of_ne part hroot]
  rcases parts.lookup ['/'] with _ | rootPart
  · rfl
  · dsimp only
    rw [walkFrom_false, walkFrom_false, run_mount_of_ne hslash]
    exact fun ds hds => hne ds fun c hc => hslash c (hds.subset hc)

/-- A mount at a canonical path is found there. -/
theorem walk_mount_of_eq_canonPath {path : Text} {part : π} {dir : ν} (hkey : parts.lookup path = none)
    (hdir : walk nodes parts path = .ok dir) (hpath : path = canonPath path) :
    walk nodes ((path, part) :: parts) path = .ok (nodes.root part) := by
  obtain ⟨rootPart, st, hroot, hrun, -⟩ := walk_eq_ok.mp hdir
  have hplain : Plain (canon (split path)) := plain_canon fun c hc => slash_not_mem_of_mem_split hc
  generalize hnames : canon (split path) = names at hplain
  have hpathOf : path = pathOf names := hnames ▸ hpath
  rcases List.eq_nil_or_concat names with rfl | ⟨before, n, rfl⟩
  · rw [hpathOf] at hkey
    exact absurd (hkey.symm.trans hroot) (Option.some_ne_none _).symm
  · rw [List.concat_eq_append] at hnames hpathOf hplain
    have hsplit : split path = ([] :: before) ++ [n] := by
      rw [hpathOf, split_pathOf hplain, if_neg (List.append_ne_nil_of_right_ne_nil _ (List.cons_ne_nil n []))]
      rfl
    have hn : IsName n := (hplain n (List.mem_append_right _ (List.mem_singleton.mpr rfl))).1
    have hslash : ∀ c ∈ [] :: before, '/' ∉ c := fun c hc =>
      slash_not_mem_of_mem_split (hsplit ▸ List.mem_append_left _ hc)
    rw [hsplit, run_concat] at hrun
    obtain ⟨mid, hmid, hstep⟩ := bind_eq_ok.mp hrun
    -- the names in front of the last have shorter texts
    have hshort : ∀ ds, ds <+: [] :: before → pathOf (canon ds) ≠ path := by
      rintro ds hds heq
      have hds' : ∀ c ∈ ds, '/' ∉ c := fun c hc => hslash c (hds.subset hc)
      have hcanon : canon ds = before ++ [n] := by
        rw [← hnames, ← heq, canon_split_pathOf (plain_canon hds')]
      cases ds with
      | nil => exact List.append_ne_nil_of_right_ne_nil _ (List.cons_ne_nil n []) hcanon.symm
      | cons c ds =>
          obtain ⟨rfl, hrest⟩ := List.cons_prefix_cons.mp hds
          have hplain' : Plain ds := fun m hm => hplain m (List.mem_append_left _ (hrest.subset hm))
          have hds_eq : ds = before ++ [n] := (foldl_resolve_names hplain').symm.trans hcanon
          have hle := hrest.length_le
          rw [hds_eq, List.length_append] at hle
          exact absurd hle (Nat.not_succ_le_self _)
    have htext : push mid.pathNow n = path := by
      rw [push_eq_pathOf hslash hn hmid, ← hsplit, hnames, ← hpathOf]
    refine walk_eq_ok.mpr ⟨rootPart, ⟨nodes.root part :: mid.stack, path⟩, ?_, ?_, rfl⟩
    · rw [lookup_cons_of_ne part, hroot]
      rintro rfl
      exact absurd (hkey.symm.trans hroot) (Option.some_ne_none _).symm
    · rw [hsplit, run_concat, run_mount_of_ne hslash hshort, hmid, ok_bind]
      refine step_eq_ok.mpr ⟨(step_eq_ok.mp hstep).1, ?_⟩
      rw [if_pos hn, htext]
      refine ⟨nodes.root part, ?_, rfl⟩
      unfold child
      rw [List.lookup_cons, beq_self_eq_true]

/-- The path with slashes behind it. -/
def slashed (path : Text) (k : Nat) : Text := path ++ List.replicate k '/'

theorem split_slashed (path : Text) (k : Nat) : split (slashed path k) = split path ++ List.replicate k [] := by
  induction k with
  | zero => exact congrArg split (List.append_nil path) |>.trans (List.append_nil _).symm
  | succ k ih =>
      have hsnoc : slashed path (k + 1) = slashed path k ++ '/' :: [] := by
        unfold slashed
        rw [List.replicate_succ', List.append_assoc]
      rw [hsnoc, split_append_slash, ih, List.replicate_succ', List.append_assoc]
      rfl

theorem canon_split_slashed (path : Text) (k : Nat) : canon (split (slashed path k)) = canon (split path) := by
  rw [split_slashed, canon_append]
  induction k with
  | zero => rfl
  | succ k ih => exact ih

theorem length_slashed (path : Text) (k : Nat) : (slashed path k).length = path.length + k := by
  rw [slashed, List.length_append, List.length_replicate]

theorem exists_slashed_not_mem (parts : Parts π) (path : Text) :
    ∃ k, parts.lookup (slashed path (k + 1)) = none := by
  refine ⟨(parts.map fun entry => entry.1.length).sum, ?_⟩
  rw [List.lookup_eq_none_iff]
  intro entry hentry
  have hle : entry.1.length ≤ (parts.map fun entry => entry.1.length).sum :=
    List.le_sum_of_mem (List.mem_map.mpr ⟨entry, hentry, rfl⟩)
  apply bne_iff_ne.mpr
  intro heq
  have hlen := congrArg List.length heq
  rw [length_slashed] at hlen
  omega

theorem directory_of_walk_slashed {path : Text} {k : Nat} {node : ν}
    (h : walk nodes parts (slashed path (k + 1)) = .ok node) : nodes.ftype node = .directory := by
  obtain ⟨part, st, -, hrun, rfl⟩ := walk_eq_ok.mp h
  rw [split_slashed, List.replicate_succ', ← List.append_assoc, run_concat] at hrun
  obtain ⟨mid, -, hstep⟩ := bind_eq_ok.mp hrun
  obtain ⟨hdir, rfl⟩ := step_eq_ok.mp hstep
  exact hdir

/-- After a mount its path leads to the partition only if the path is canonical; and it never holds that all
spellings of the path lead to the partition and that no other spelling can be mounted on. -/
theorem mount_spellings {path : Text} {part : π} {parts' : Parts π}
    (h : mount nodes parts path part = .ok parts') :
    walk nodes parts' path =
      (if path = canonPath path then .ok (nodes.root part) else walk nodes parts path) ∧
    ¬((∀ q, canon (split q) = canon (split path) → walk nodes parts' q = .ok (nodes.root part)) ∧
      ∀ q second, canon (split q) = canon (split path) → q ≠ path →
        ∃ e, mount nodes parts' q second = .error e) := by
  constructor
  · obtain ⟨hkey, ⟨dir, hdir, -⟩, rfl⟩ := mount_eq_ok.mp h
    split_ifs with hpath
    · exact walk_mount_of_eq_canonPath hkey hdir hpath
    · exact walk_mount_of_ne_canonPath hpath
  rintro ⟨hwalk, hrefused⟩
  obtain ⟨k, hkey⟩ := exists_slashed_not_mem parts' path
  have hcanon := canon_split_slashed path (k + 1)
  have hnode := hwalk _ hcanon
  have hne : slashed path (k + 1) ≠ path := by
    intro heq
    have hlen := congrArg List.length heq
    rw [length_slashed] at hlen
    omega
  obtain ⟨e, herror⟩ := hrefused _ part hcanon hne
  rw [mount_eq_ok.mpr ⟨hkey, ⟨_, hnode, directory_of_walk_slashed hnode⟩, rfl⟩] at herror
  cases herror

theorem mount_spellings_sample :
    mount sample [("/".toList, 0)] "/mnt".toList 2 = .ok [("/mnt".toList, 2), ("/".toList, 0)] ∧
    walk sample [("/mnt".toList, 2), ("/".toList, 0)] "/mnt".toList =
      (if "/mnt".toList = canonPath "/mnt".toList then .ok 2 else walk sample [("/".toList, 0)] "/mnt".toList) ∧
    ¬((∀ q, canon (split q) = canon (split "/mnt".toList) →
        walk sample [("/mnt".toList, 2), ("/".toList, 0)] q = .ok 2) ∧
      ∀ q second, canon (split q) = canon (split "/mnt".toList) → q ≠ "/mnt".toList →
        ∃ e, mount sample [("/mnt".toList, 2), ("/".toList, 0)] q second = .error e) :=
  have h : mount sample [("/".toList, 0)] "/mnt".toList 2 = .ok [("/mnt".toList, 2), ("/".toList, 0)] := by decide
  ⟨h, mount_spellings h⟩

/-- A mount under a path with a slash behind it is never found, and a mount under the path without it does
not keep a second partition away. -/
theorem mount_raw_key :
    mount sample [("/".toList, 0)] "/mnt/".toList 2 = .ok [("/mnt/".toList, 2), ("/".toList, 0)] ∧
    walk sample [("/mnt/".toList, 2), ("/".toList, 0)] "/mnt/".toList = .ok 1 ∧
    mount sample [("/".toList, 0)] "/mnt".toList 2 = .ok [("/mnt".toList, 2), ("/".toList, 0)] ∧
    mount sample [("/mnt".toList, 2), ("/".toList, 0)] "/mnt/".toList 1 =
      .ok [("/mnt/".toList, 1), ("/mnt".toList, 2), ("/".toList, 0)] ∧
    canon (split "/mnt/".toList) = canon (split "/mnt".toList) := by
  decide

end Vfs

end UnixKernel
