import Mathlib.Data.List.Infix
import UnixKernel.Glacier
import UnixKernel.RadixTree

/-! The tree that the tables in memory form. A valid entry of an inner table is an edge, the tables are the
nodes, and translating an address is a walk along its indices. A tree is well formed when its root is page
aligned and each table is reached by one path only; then a write into one table shows in no other, and a
change below one entry leaves the rest of the tree as it was (`OffPath`). The facts are stated for tables
of any widths up to a page, since half of a root is a tree as well. -/

namespace UnixKernel

open Radix

namespace Glacier

variable (cfg : RvmCfg)

/-! ### Tables in memory -/

/-- A page-aligned address. -/
def Aligned (t : Word) : Prop := t &&& cfg.psz.addrMask = t

instance (t : Word) : Decidable (Aligned cfg t) := inferInstanceAs (Decidable (_ = _))

/-- The entries of the table at `n` are the same in both memories. -/
def Same (m m' : Mem) (n : Word) : Prop := ∀ i < pageEntries cfg, m' (slot n i) = m (slot n i)

/-- The table that an inner entry refers to. -/
def edge (m : Mem) (t : Word) (i : Nat) : Option Word :=
  if m (slot t i) &&& flagValid = 0 then none else some (m (slot t i) &&& cfg.psz.addrMask)

section Memory

variable {cfg}

theorem aligned_and (x : Word) : Aligned cfg (x &&& cfg.psz.addrMask) := by
  rw [Aligned, BitVec.and_assoc, BitVec.and_self]

theorem Aligned.toNat_eq {t : Word} (h : Aligned cfg t) :
    t.toNat = 8 * (pageEntries cfg * (t.toNat / cfg.psz.size)) := by
  have hdiv := cfg.psz.toNat_and_addrMask t
  have hsize : cfg.psz.size = 8 * pageEntries cfg := cfg.psz.size_eq_entries
  rw [h] at hdiv
  rw [← Nat.mul_assoc, ← hsize, Nat.mul_comm]
  exact hdiv

theorem slot_inj {t t' : Word} {i j : Nat} (ht : Aligned cfg t) (ht' : Aligned cfg t')
    (hi : i < pageEntries cfg) (hj : j < pageEntries cfg) (h : slot t i = slot t' j) : t = t' ∧ i = j := by
  have hslot : i + pageEntries cfg * (t.toNat / cfg.psz.size) =
      j + pageEntries cfg * (t'.toNat / cfg.psz.size) := by
    have heq := ht.toNat_eq
    have heq' := ht'.toNat_eq
    rw [slot, slot] at h
    omega
  have hij : i = j := by
    have hmod := congrArg (· % pageEntries cfg) hslot
    simpa only [Nat.add_mul_mod_self_left, Nat.mod_eq_of_lt hi, Nat.mod_eq_of_lt hj] using hmod
  refine ⟨BitVec.eq_of_toNat_eq ?_, hij⟩
  rw [slot, slot, hij] at h
  omega

theorem eq_of_slot_mem {t n : Word} {j k : Nat} (ht : Aligned cfg t) (hn : Aligned cfg n)
    (hj : j < pageEntries cfg) (hk : k ≤ pageEntries cfg) (hlo : t.toNat ≤ slot n j)
    (hhi : slot n j < slot t k) : n = t := by
  have heq := ht.toNat_eq
  have heq' := hn.toNat_eq
  have hslot : slot n j = slot t ((slot n j - t.toNat) / 8) := by
    rw [slot] at hlo ⊢
    rw [slot]
    omega
  refine (slot_inj hn ht hj (Nat.lt_of_lt_of_le ?_ hk) hslot).1
  rw [slot] at hhi hlo ⊢
  rw [slot] at hhi
  omega

theorem same_update {m : Mem} {t n : Word} {i : Nat} (v : Word) (ht : Aligned cfg t) (hn : Aligned cfg n)
    (hi : i < pageEntries cfg) (hne : n ≠ t) : Same cfg m (Function.update m (slot t i) v) n := by
  intro j hj
  exact Function.update_of_ne (fun h => hne (slot_inj hn ht hj hi h).1) v m

theorem update_other (m : Mem) (t v : Word) {i j : Nat} (hij : j ≠ i) :
    Function.update m (slot t i) v (slot t j) = m (slot t j) := by
  refine Function.update_of_ne (fun h => hij ?_) _ _
  rw [slot, slot] at h
  omega

theorem zero_slot (m : Mem) (t : Word) {i k : Nat} (hi : i < k) : m.zero t k (slot t i) = 0 := by
  refine if_pos ⟨Nat.le_add_right _ _, ?_⟩
  rw [slot, slot]
  omega

theorem same_zero (m : Mem) {t n : Word} {k : Nat} (ht : Aligned cfg t) (hn : Aligned cfg n)
    (hk : k ≤ pageEntries cfg) (hne : n ≠ t) : Same cfg m (m.zero t k) n := by
  intro j hj
  exact if_neg fun h => hne (eq_of_slot_mem ht hn hj hk h.1 h.2)

theorem Same.trans {m m' m'' : Mem} {n : Word} (h : Same cfg m m' n) (h' : Same cfg m' m'' n) :
    Same cfg m m'' n :=
  fun i hi => (h' i hi).trans (h i hi)

theorem edge_congr {m m' : Mem} {t : Word} {i : Nat} (h : m' (slot t i) = m (slot t i)) :
    edge cfg m' t i = edge cfg m t i := by
  rw [edge, edge, h]

theorem edge_of_zero {m : Mem} {t : Word} {i : Nat} (h : m (slot t i) = 0) : edge cfg m t i = none := by
  rw [edge, h]
  exact if_pos BitVec.zero_and

theorem ne_zero_of_edge {m : Mem} {t c : Word} {i : Nat} (h : edge cfg m t i = some c) :
    m (slot t i) ≠ 0 := by
  intro hzero
  rw [edge_of_zero hzero] at h
  cases h

theorem aligned_of_edge {m : Mem} {t c : Word} {i : Nat} (h : edge cfg m t i = some c) : Aligned cfg c := by
  rw [edge] at h
  split_ifs at h
  rw [← Option.some.inj h]
  exact aligned_and _

theorem valid_or {x y : Word} (h : y &&& flagValid ≠ 0) : (x ||| y) &&& flagValid ≠ 0 := by
  intro hzero
  rw [BitVec.and_or_distrib_right] at hzero
  exact h (BitVec.or_eq_zero_iff.mp hzero).2

theorem edge_of_next (arch : Arch) {m : Mem} {t p : Word} {i : Nat} (hp : Aligned cfg p)
    (h : m (slot t i) = p ||| arch.flagNext) : edge cfg m t i = some p := by
  have hvalid : arch.flagNext &&& flagValid ≠ 0 := by cases arch <;> decide
  have hlow : ∀ pg : BPage, arch.flagNext &&& pg.addrMask = 0#64 := by
    intro pg
    cases pg <;> cases arch <;> decide
  rw [edge, h, if_neg (valid_or hvalid), BitVec.and_or_distrib_right, hlow, BitVec.or_zero, hp]

end Memory

/-! ### The tree -/

/-- The tables from `t` on, `d` levels down, when the tables with `k` levels below have `w k` entries. -/
abbrev tablesFrom (w : Nat → Nat) (m : Mem) (d : Nat) (t : Word) : List Word := nodes (edge cfg m) w d t

/-- All tables. -/
def tables (m : Mem) (root : Word) : List Word := tablesFrom cfg cfg.width m cfg.depth root

/-- What a leaf entry says. -/
def present (entry : Word) : Option Word := if entry &&& flagValid = 0 then none else some entry

/-- The leaf word for an address, from a table with `d` levels below it. -/
def walkFrom (m : Mem) (va : Word) : Nat → Word → Option Word
  | 0, t => present (m (slot t (cfg.index 0 va)))
  | d + 1, t => (edge cfg m t (cfg.index (d + 1) va)).bind (walkFrom m va d)

/-- The leaf word for an address. -/
def walk (m : Mem) (root va : Word) : Option Word := walkFrom cfg m va cfg.depth root

/-- Two addresses take the same path from a table with `d` levels below it. -/
def Agree (d : Nat) (va va' : Word) : Prop := ∀ k ≤ d, cfg.index k va = cfg.index k va'

instance (d : Nat) (va va' : Word) : Decidable (Agree cfg d va va') :=
  inferInstanceAs (Decidable (∀ k ≤ d, _))

/-- The path of an address stays within the widths `w`. -/
def InWidth (w : Nat → Nat) (d : Nat) (va : Word) : Prop := ∀ k ≤ d, cfg.index k va < w k

/-- A table that holds anything. -/
def Occupied (w : Nat → Nat) (m : Mem) (d : Nat) (t : Word) : Prop := ∃ i < w d, m (slot t i) ≠ 0

/-- Every entry is zero or valid, and every table below `t` holds something. -/
def Dense (w : Nat → Nat) (m : Mem) : Nat → Word → Prop
  | 0, t => ∀ i < w 0, m (slot t i) ≠ 0 → m (slot t i) &&& flagValid ≠ 0
  | d + 1, t => ∀ i < w (d + 1), m (slot t i) ≠ 0 →
      ∃ c, edge cfg m t i = some c ∧ Dense w m d c ∧ Occupied w m d c

/-- A well-formed tree: tables at page boundaries, each reached by one path. -/
structure WellFormed (m : Mem) (root : Word) : Prop where
  aligned : Aligned cfg root
  nodup : (tables cfg m root).Nodup

instance (m : Mem) (root : Word) : Decidable (WellFormed cfg m root) :=
  decidable_of_iff (Aligned cfg root ∧ (tables cfg m root).Nodup) ⟨fun h => ⟨h.1, h.2⟩, fun h => ⟨h.1, h.2⟩⟩

/-- The pages among the answers of the allocator. -/
def pages (answers : List (Option Word)) : List Word := answers.filterMap id

/-- Answers of the allocator that are page aligned, not in use and all different. -/
structure Fresh (used : List Word) (answers : List (Option Word)) : Prop where
  aligned : ∀ p ∈ pages answers, Aligned cfg p
  unused : ∀ p ∈ pages answers, p ∉ used
  nodup : (pages answers).Nodup

-- the instances are named because the search would run through all words
instance (used : List Word) (answers : List (Option Word)) : Decidable (Fresh cfg used answers) :=
  have : Decidable (∀ p ∈ pages answers, Aligned cfg p) := List.decidableBAll _ _
  have : Decidable (∀ p ∈ pages answers, p ∉ used) := List.decidableBAll _ _
  decidable_of_iff ((∀ p ∈ pages answers, Aligned cfg p) ∧ (∀ p ∈ pages answers, p ∉ used) ∧
    (pages answers).Nodup) ⟨fun h => ⟨h.1, h.2.1, h.2.2⟩, fun h => ⟨h.1, h.2, h.3⟩⟩

section Answers

variable {cfg} {used : List Word} {answers : List (Option Word)}

theorem Fresh.mono (h : Fresh cfg used answers) {used' : List Word} (hsub : ∀ p ∈ used', p ∈ used) :
    Fresh cfg used' answers :=
  ⟨h.aligned, fun p hp hmem => h.unused p hp (hsub p hmem), h.nodup⟩

theorem fresh_nil (used : List Word) : Fresh cfg used [] :=
  ⟨fun _ hp => absurd hp List.not_mem_nil, fun _ hp => absurd hp List.not_mem_nil, List.nodup_nil⟩

theorem Fresh.tail {p : Word} (h : Fresh cfg used (some p :: answers)) :
    Aligned cfg p ∧ p ∉ used ∧ Fresh cfg [p] answers := by
  have hnodup := List.nodup_cons.mp h.nodup
  refine ⟨h.aligned p List.mem_cons_self, h.unused p List.mem_cons_self,
    fun q hq => h.aligned q (List.mem_cons_of_mem p hq), fun q hq hmem => ?_, hnodup.2⟩
  rw [List.mem_singleton.mp hmem] at hq
  exact hnodup.1 hq

end Answers

section Tree

variable {cfg} {w : Nat → Nat} {m m' : Mem} {d : Nat} {t : Word}

theorem aligned_of_mem (ht : Aligned cfg t) {n : Word} (hn : n ∈ tablesFrom cfg w m d t) :
    Aligned cfg n := by
  induction d generalizing t with
  | zero =>
      rw [List.mem_singleton.mp hn]
      exact ht
  | succ d ih =>
      rcases mem_nodes_succ.mp hn with rfl | ⟨i, -, c, hc, hn⟩
      · exact ht
      · exact ih (aligned_of_edge hc) hn

theorem walkFrom_agree {va va' : Word} (h : Agree cfg d va va') :
    walkFrom cfg m va d t = walkFrom cfg m va' d t := by
  induction d generalizing t with
  | zero => rw [walkFrom, walkFrom, h 0 (le_refl 0)]
  | succ d ih =>
      rw [walkFrom, walkFrom, h (d + 1) (le_refl _)]
      congr 1
      funext c
      exact ih fun k hk => h k (Nat.le_succ_of_le hk)

theorem Agree.symm {va va' : Word} (h : Agree cfg d va va') : Agree cfg d va' va :=
  fun k hk => (h k hk).symm

theorem Agree.trans {va va' va'' : Word} (h : Agree cfg d va va') (h' : Agree cfg d va' va'') :
    Agree cfg d va va'' :=
  fun k hk => (h k hk).trans (h' k hk)

theorem Agree.succ {va va' : Word} (h : Agree cfg d va va')
    (hindex : cfg.index (d + 1) va = cfg.index (d + 1) va') : Agree cfg (d + 1) va va' := by
  intro k hk
  rcases Nat.le_succ_iff.mp hk with hk | rfl
  · exact h k hk
  · exact hindex

theorem agree_and_addrMask (hd : d ≤ cfg.depth) (va : Word) :
    Agree cfg d (va &&& cfg.psz.addrMask) va :=
  fun _ hk => cfg.index_and_addrMask (le_trans hk hd) va

theorem Dense.child (h : Dense cfg w m (d + 1) t) {i : Nat} {c : Word} (hi : i < w (d + 1))
    (hc : edge cfg m t i = some c) : Dense cfg w m d c ∧ Occupied w m d c := by
  obtain ⟨b, hb, hdense⟩ := h i hi (ne_zero_of_edge hc)
  rw [hc] at hb
  cases hb
  exact hdense

/-! ### Memories that agree on the tree -/

section Congr

variable (hw : ∀ k, w k ≤ pageEntries cfg) (h : ∀ n ∈ tablesFrom cfg w m d t, Same cfg m m' n)

include hw h

theorem tablesFrom_congr : tablesFrom cfg w m' d t = tablesFrom cfg w m d t :=
  nodes_congr fun n hn k _ i hi => edge_congr (h n hn i (Nat.lt_of_lt_of_le hi (hw k)))

theorem walkFrom_congr {va : Word} (hva : InWidth cfg w d va) :
    walkFrom cfg m' va d t = walkFrom cfg m va d t := by
  induction d generalizing t with
  | zero =>
      rw [walkFrom, walkFrom, h t (mem_nodes_self 0 t) _ (Nat.lt_of_lt_of_le (hva 0 (le_refl 0)) (hw 0))]
  | succ d ih =>
      have hi := hva (d + 1) (le_refl _)
      rw [walkFrom, walkFrom, edge_congr (h t (mem_nodes_self _ t) _ (Nat.lt_of_lt_of_le hi (hw _)))]
      cases hc : edge cfg m t (cfg.index (d + 1) va) with
      | none => rfl
      | some c =>
          exact ih (fun n hn => h n (mem_nodes_of_child hi hc hn)) fun k hk => hva k (Nat.le_succ_of_le hk)

theorem Occupied.congr (hocc : Occupied w m d t) : Occupied w m' d t := by
  obtain ⟨i, hi, hne⟩ := hocc
  refine ⟨i, hi, ?_⟩
  rwa [h t (mem_nodes_self d t) i (Nat.lt_of_lt_of_le hi (hw d))]

theorem Dense.congr (hdense : Dense cfg w m d t) : Dense cfg w m' d t := by
  induction d generalizing t with
  | zero =>
      intro i hi
      rw [h t (mem_nodes_self 0 t) i (Nat.lt_of_lt_of_le hi (hw 0))]
      exact hdense i hi
  | succ d ih =>
      intro i hi
      have hslot := h t (mem_nodes_self _ t) i (Nat.lt_of_lt_of_le hi (hw _))
      rw [hslot, edge_congr hslot]
      intro hne
      obtain ⟨c, hc, hdc, hoc⟩ := hdense i hi hne
      have hsame : ∀ n ∈ tablesFrom cfg w m d c, Same cfg m m' n :=
        fun n hn => h n (mem_nodes_of_child hi hc hn)
      exact ⟨c, hc, ih hsame hdc, hoc.congr hw hsame⟩

end Congr

/-! ### Empty tables -/

section Blank

variable (hblank : ∀ i < w d, m (slot t i) = 0)

include hblank

theorem tablesFrom_blank : tablesFrom cfg w m d t = [t] :=
  nodes_of_bare fun i hi => edge_of_zero (hblank i hi)

theorem walkFrom_blank {va : Word} (hva : InWidth cfg w d va) : walkFrom cfg m va d t = none := by
  have hi := hblank _ (hva d (le_refl d))
  cases d with
  | zero =>
      rw [walkFrom, present, hi]
      exact if_pos BitVec.zero_and
  | succ d =>
      rw [walkFrom, edge_of_zero hi]
      rfl

theorem dense_blank : Dense cfg w m d t := by
  cases d with
  | zero => exact fun i hi hne => absurd (hblank i hi) hne
  | succ d => exact fun i hi hne => absurd (hblank i hi) hne

end Blank

/-! ### A change below one entry -/

variable (cfg w m m' d t) in
/-- From `m` to `m'` a table and its subtrees change at slot `i` only. -/
structure OffPath (i : Nat) : Prop where
  slot_eq : ∀ j < w (d + 1), j ≠ i → m' (slot t j) = m (slot t j)
  same : ∀ j < w (d + 1), j ≠ i → ∀ c, edge cfg m t j = some c → ∀ n ∈ tablesFrom cfg w m d c, Same cfg m m' n

variable {i : Nat}

/-- In a tree without sharing it is enough that the tables below slot `i` are the only ones changed. -/
theorem offPath_of_same (hnodup : (tablesFrom cfg w m (d + 1) t).Nodup) (hi : i < w (d + 1))
    (hslot : ∀ j < w (d + 1), j ≠ i → m' (slot t j) = m (slot t j))
    (hsame : ∀ n ∈ tablesFrom cfg w m (d + 1) t, n ≠ t →
      n ∉ (edge cfg m t i).elim [] (tablesFrom cfg w m d) → Same cfg m m' n) :
    OffPath cfg w m m' d t i := by
  refine ⟨hslot, fun j hj hne c hc n hn => hsame n (mem_nodes_of_child hj hc hn) ?_ ?_⟩
  · rintro rfl
    exact not_mem_child hnodup hj hc hn
  · cases hb : edge cfg m t i with
    | none => exact List.not_mem_nil
    | some b => exact disjoint_children hnodup hj hi hne hc hb hn

namespace OffPath

variable (hoff : OffPath cfg w m m' d t i)

include hoff

theorem edge_eq {j : Nat} (hj : j < w (d + 1)) (hne : j ≠ i) : edge cfg m' t j = edge cfg m t j :=
  edge_congr (hoff.slot_eq j hj hne)

variable (hw : ∀ k, w k ≤ pageEntries cfg)

include hw

theorem elim_eq {j : Nat} (hj : j < w (d + 1)) (hne : j ≠ i) :
    (edge cfg m' t j).elim [] (tablesFrom cfg w m' d) = (edge cfg m t j).elim [] (tablesFrom cfg w m d) := by
  rw [hoff.edge_eq hj hne]
  cases hc : edge cfg m t j with
  | none => rfl
  | some c => exact tablesFrom_congr hw (hoff.same j hj hne c hc)

theorem walkFrom_eq {va : Word} (hva : InWidth cfg w (d + 1) va) (hne : cfg.index (d + 1) va ≠ i) :
    walkFrom cfg m' va (d + 1) t = walkFrom cfg m va (d + 1) t := by
  have hj := hva (d + 1) (le_refl _)
  rw [walkFrom, walkFrom, hoff.edge_eq hj hne]
  cases hc : edge cfg m t (cfg.index (d + 1) va) with
  | none => rfl
  | some c =>
      exact walkFrom_congr hw (hoff.same _ hj hne c hc) fun k hk => hva k (Nat.le_succ_of_le hk)

theorem dense (hdense : Dense cfg w m (d + 1) t) (hnew : m' (slot t i) ≠ 0 →
    ∃ c, edge cfg m' t i = some c ∧ Dense cfg w m' d c ∧ Occupied w m' d c) :
    Dense cfg w m' (d + 1) t := by
  intro j hj hne
  by_cases hji : j = i
  · subst hji
    exact hnew hne
  · rw [hoff.slot_eq j hj hji] at hne
    obtain ⟨c, hc, hdc, hoc⟩ := hdense j hj hne
    have hsame := hoff.same j hj hji c hc
    exact ⟨c, (hoff.edge_eq hj hji).trans hc, hdc.congr hw hsame, hoc.congr hw hsame⟩

end OffPath

end Tree

/-! ### Whole trees -/

section Whole

variable {cfg}

theorem width_le_page (k : Nat) : cfg.width k ≤ pageEntries cfg := cfg.width_le k

theorem inWidth_width (va : Word) : InWidth cfg cfg.width cfg.depth va := fun _ hk => cfg.index_lt hk va

theorem samePage_iff_agree {va va' : Word} (h : cfg.Canonical va) (h' : cfg.Canonical va') :
    cfg.SamePage va va' ↔ Agree cfg cfg.depth va va' :=
  cfg.samePage_iff h h'

theorem paFrom_eq (m : Mem) (va : Word) (d : Nat) (t : Word) :
    paFrom cfg m va d t = (walkFrom cfg m va d t).map (· &&& cfg.psz.addrMask) := by
  induction d generalizing t with
  | zero =>
      rw [paFrom, walkFrom, present]
      split_ifs <;> rfl
  | succ d ih =>
      rw [paFrom, walkFrom, edge]
      split_ifs
      · rfl
      · exact ih _

theorem getPa_eq (g : Glacier) (va : Word) (r : Ram) :
    getPa cfg g va r = (walk cfg r.mem g.rootTable va).map (· &&& cfg.psz.addrMask) := by
  rw [getPa, paFrom_eq, walk, walkFrom_agree (agree_and_addrMask (le_refl _) va)]

end Whole

end Glacier

end UnixKernel
