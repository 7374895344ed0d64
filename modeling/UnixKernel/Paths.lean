import Mathlib.Data.List.Induction
import Mathlib.Tactic.Common

/-! Paths as texts. A path is cut into components at its slashes; the components stand for a list of names,
where an empty component and `.` stand for nothing and `..` takes back the name before it. A list of names
has one spelling in which only its names are components. -/

namespace UnixKernel.Paths

abbrev Text := List Char

/-- The components of a path. -/
def split (path : Text) : List Text := path.splitOn '/'

/-- A component that is a name. -/
def IsName (c : Text) : Prop := c ∉ [[], ['.'], ['.', '.']]

instance (c : Text) : Decidable (IsName c) := inferInstanceAs (Decidable (¬_))

/-- The names after one more component. -/
def resolve (names : List Text) (c : Text) : List Text :=
  if IsName c then names ++ [c] else if c = ['.', '.'] then names.dropLast else names

/-- The names that components stand for. -/
def canon (cs : List Text) : List Text := cs.foldl resolve []

/-- Each name behind a slash. -/
def spell (names : List Text) : Text := names.flatMap ('/' :: ·)

/-- The canonical spelling; no name at all is the root. -/
def pathOf (names : List Text) : Text := if names = [] then ['/'] else spell names

/-- Names that can be components. -/
def Plain (names : List Text) : Prop := ∀ n ∈ names, IsName n ∧ '/' ∉ n

/-- The position of the last `c`. -/
def rfind (c : Char) : Text → Option Nat
  | [] => none
  | x :: xs =>
      match rfind c xs with
      | some i => some (i + 1)
      | none => if x = c then some 0 else none

/-- A name added to a path. -/
def push (path name : Text) : Text := (if path.getLast? = some '/' then path else path ++ ['/']) ++ name

/-- A path cut at its last slash, except that the first slash stays. -/
def pop (path : Text) : Text :=
  match rfind '/' path with
  | some pos => path.take (max pos 1)
  | none => path

/-! ### Components -/

theorem split_append_slash (p q : Text) : split (p ++ '/' :: q) = split p ++ split q :=
  List.splitOn_append_cons_self p q

theorem slash_not_mem_of_mem_split {path c : Text} (h : c ∈ split path) : '/' ∉ c := by
  induction path generalizing c with
  | nil =>
      obtain rfl := List.mem_singleton.mp h
      exact List.not_mem_nil
  | cons x xs ih =>
      unfold split at h ih
      rw [List.splitOn_cons_eq_if_modifyHead] at h
      split_ifs at h with hx
      · rcases List.mem_cons.mp h with rfl | h
        · exact List.not_mem_nil
        · exact ih h
      · cases hsplit : xs.splitOn '/' with
        | nil => exact absurd hsplit (List.splitOn_ne_nil _ _)
        | cons d ds =>
            rw [hsplit] at h ih
            rcases List.mem_cons.mp h with rfl | h
            · intro hmem
              rcases List.mem_cons.mp hmem with rfl | hmem
              · exact hx rfl
              · exact ih List.mem_cons_self hmem
            · exact ih (List.mem_cons_of_mem d h)

theorem split_ne_nil (path : Text) : split path ≠ [] := List.splitOn_ne_nil _ _

theorem spell_append (names more : List Text) : spell (names ++ more) = spell names ++ spell more :=
  List.flatMap_append

theorem spell_singleton (n : Text) : spell [n] = '/' :: n := List.append_nil _

theorem split_name_spell {n : Text} {names : List Text} (hn : '/' ∉ n) (h : ∀ m ∈ names, '/' ∉ m) :
    split (n ++ spell names) = n :: names := by
  induction names generalizing n with
  | nil => exact (congrArg split (List.append_nil n)).trans (List.splitOn_eq_singleton hn)
  | cons m names ih =>
      have hm := h m List.mem_cons_self
      calc split (n ++ spell (m :: names)) = split (n ++ '/' :: (m ++ spell names)) := rfl
        _ = n :: split (m ++ spell names) := List.splitOn_append_cons_self_of_not_mem hn _
        _ = n :: m :: names := by rw [ih hm fun m' hm' => h m' (List.mem_cons_of_mem m hm')]

theorem split_pathOf {names : List Text} (h : Plain names) :
    split (pathOf names) = [] :: if names = [] then [[]] else names := by
  cases names with
  | nil => rfl
  | cons n names =>
      have hrest : ∀ m ∈ names, '/' ∉ m := fun m hm => (h m (List.mem_cons_of_mem n hm)).2
      calc split (pathOf (n :: names)) = split ([] ++ '/' :: (n ++ spell names)) := rfl
        _ = [] :: split (n ++ spell names) := split_append_slash [] _
        _ = [] :: n :: names := by rw [split_name_spell (h n List.mem_cons_self).2 hrest]

/-! ### Names -/

theorem canon_append (cs ds : List Text) : canon (cs ++ ds) = ds.foldl resolve (canon cs) := List.foldl_append

theorem canon_concat (cs : List Text) (c : Text) : canon (cs ++ [c]) = resolve (canon cs) c := canon_append cs [c]

theorem plain_resolve {names : List Text} {c : Text} (h : Plain names) (hc : '/' ∉ c) :
    Plain (resolve names c) := by
  unfold resolve
  split_ifs with hname hdots
  · intro n hn
    rcases List.mem_append.mp hn with hn | hn
    · exact h n hn
    · rw [List.mem_singleton.mp hn]
      exact ⟨hname, hc⟩
  · exact fun n hn => h n (List.dropLast_subset names hn)
  · exact h

theorem plain_canon {cs : List Text} (h : ∀ c ∈ cs, '/' ∉ c) : Plain (canon cs) := by
  induction cs using List.reverseRecOn with
  | nil => exact fun n hn => absurd hn List.not_mem_nil
  | append_singleton cs c ih =>
      rw [canon_concat]
      apply plain_resolve
      · exact ih fun d hd => h d (List.mem_append_left _ hd)
      · exact h c (List.mem_append_right _ (List.mem_singleton.mpr rfl))

theorem foldl_resolve_names {names more : List Text} (h : Plain more) :
    more.foldl resolve names = names ++ more := by
  induction more generalizing names with
  | nil => exact (List.append_nil names).symm
  | cons n more ih =>
      have hn : resolve names n = names ++ [n] := if_pos (h n List.mem_cons_self).1
      rw [List.foldl_cons, hn, ih fun m hm => h m (List.mem_cons_of_mem n hm), List.append_assoc]
      rfl

theorem canon_split_pathOf {names : List Text} (h : Plain names) : canon (split (pathOf names)) = names := by
  rw [split_pathOf h]
  cases names with
  | nil => rfl
  | cons n names => exact (foldl_resolve_names h).trans (List.nil_append _)

/-! ### The text kept along a walk -/

theorem rfind_of_not_mem {c : Char} {s : Text} (h : c ∉ s) : rfind c s = none := by
  induction s with
  | nil => rfl
  | cons x s ih =>
      obtain ⟨hx, hs⟩ := not_or.mp (List.mem_cons.not.mp h)
      unfold rfind
      rw [ih hs]
      exact if_neg (Ne.symm hx)

theorem rfind_append {c : Char} {s t : Text} (h : c ∉ t) : rfind c (s ++ c :: t) = some s.length := by
  induction s with
  | nil =>
      show rfind c (c :: t) = some 0
      unfold rfind
      rw [rfind_of_not_mem h]
      exact if_pos rfl
  | cons x s ih =>
      show rfind c (x :: (s ++ c :: t)) = _
      unfold rfind
      rw [ih]
      rfl

theorem pop_spell {names : List Text} {n : Text} (hn : '/' ∉ n) : pop (spell (names ++ [n])) = pathOf names := by
  have hspell : spell (names ++ [n]) = spell names ++ '/' :: n := by rw [spell_append, spell_singleton]
  unfold pop pathOf
  rw [hspell, rfind_append hn]
  cases names with
  | nil => rfl
  | cons m names =>
      have hlen : max (spell (m :: names)).length 1 = (spell (m :: names)).length :=
        Nat.max_eq_left (Nat.succ_le_of_lt (Nat.succ_pos _))
      dsimp only
      rw [hlen, List.take_left, if_neg (List.cons_ne_nil m names)]

theorem getLast?_spell {names : List Text} (h : Plain names) : (spell names).getLast? ≠ some '/' := by
  rcases List.eq_nil_or_concat names with rfl | ⟨names, n, rfl⟩
  · exact fun hlast => nomatch hlast
  · rw [List.concat_eq_append] at h ⊢
    obtain ⟨hname, hslash⟩ := h n (List.mem_append_right _ (List.mem_singleton.mpr rfl))
    have hne : n ≠ [] := by
      rintro rfl
      exact hname List.mem_cons_self
    rw [spell_append, spell_singleton]
    intro hlast
    rw [List.getLast?_append, List.getLast?_cons, List.getLast?_eq_some_getLast hne] at hlast
    exact hslash (Option.some.inj hlast ▸ List.getLast_mem hne)

theorem push_spell {names : List Text} (h : Plain names) (n : Text) : push (spell names) n = spell (names ++ [n]) := by
  unfold push
  rw [if_neg (getLast?_spell h), spell_append, spell_singleton, List.append_assoc]
  rfl

theorem push_slash (n : Text) : push ['/'] n = spell [n] := (spell_singleton n).symm

/-- The text kept along a walk is that of the names, but for the slash that stays of the root. -/
def Spells (path : Text) (names : List Text) : Prop := path = spell names ∨ names = [] ∧ path = ['/']

theorem Spells.push {path : Text} {names : List Text} (h : Spells path names) (hplain : Plain names) (n : Text) :
    Paths.push path n = spell (names ++ [n]) := by
  rcases h with rfl | ⟨rfl, rfl⟩
  · exact push_spell hplain n
  · exact push_slash n

theorem spells_pathOf (names : List Text) : Spells (pathOf names) names := by
  unfold pathOf
  split_ifs with h
  · exact .inr ⟨h, rfl⟩
  · exact .inl rfl

end UnixKernel.Paths
