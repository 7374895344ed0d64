import UnixKernel.GlacierMap

/-! `unmap_page` on a tree without sharing. The walk back from the leaf takes out every table that has
become empty: its entry is cleared first, then its page is given back. The tables from before are those
that were given back and those of the tree afterwards; the page is unmapped and every other translation is
as before. -/

namespace UnixKernel

open Radix

namespace Glacier

/-- What `unmap_rec` does to the tree under `t`, from memory `m` to `m'`: `freed` are the tables it gives
back, with the memory at that moment, and `null` is its result. -/
structure UnmapEffect (cfg : RvmCfg) (w : Nat → Nat) (va : Word) (d : Nat) (t : Word) (m m' : Mem)
    (freed : List (Word × Mem)) (null : Prop) : Prop where
  same : ∀ n, Aligned cfg n → n ∉ tablesFrom cfg w m d t → Same cfg m m' n
  slots : ∀ j < pageEntries cfg, j ≠ cfg.index d va → m' (slot t j) = m (slot t j)
  tables : (tablesFrom cfg w m d t).Perm (freed.map Prod.fst ++ tablesFrom cfg w m' d t)
  hit : ∀ va', InWidth cfg w d va' → Agree cfg d va va' → walkFrom cfg m' va' d t = none
  miss : ∀ va', InWidth cfg w d va' → ¬Agree cfg d va va' →
    walkFrom cfg m' va' d t = walkFrom cfg m va' d t
  cleared : null → ∀ i < cfg.width d, m' (slot t i) = 0
  blank : ∀ f ∈ freed, ∀ i < pageEntries cfg, f.2 (slot f.1 i) = 0
  gone : ∀ f ∈ freed, f.1 ∉ tablesFrom cfg w f.2 d t
  same_freed : ∀ f ∈ freed, ∀ n, Aligned cfg n → n ∉ tablesFrom cfg w m d t → Same cfg m f.2 n
  dense : w = cfg.width → Dense cfg w m d t →
    Dense cfg w m' d t ∧ (¬null → Occupied w m d t → Occupied w m' d t)

theorem isTblNull_iff {m : Mem} {t : Word} {n : Nat} :
    isTblNull m t n = true ↔ ∀ i < n, m (slot t i) = 0 := by
  rw [isTblNull, List.all_eq_true]
  refine forall_congr' fun i => ?_
  rw [List.mem_range, beq_iff_eq]

section Effect

variable {cfg : RvmCfg} {w : Nat → Nat} {va : Word} {d : Nat} {t : Word} {m m' : Mem}
  {freed : List (Word × Mem)} {null : Prop}

theorem not_occupied_iff : ¬Occupied w m d t ↔ ∀ i < w d, m (slot t i) = 0 := by
  rw [Occupied]
  push Not
  rfl

theorem UnmapEffect.skip (hnone : edge cfg m t (cfg.index (d + 1) va) = none) (hnull : ¬null) :
    UnmapEffect cfg w va (d + 1) t m m [] null where
  same _ _ _ _ _ := rfl
  slots _ _ _ := rfl
  tables := List.Perm.refl _
  hit va' _ hagree := by
    rw [walkFrom, ← hagree (d + 1) (le_refl _), hnone]
    rfl
  miss _ _ _ := rfl
  cleared h := absurd h hnull
  blank _ hf := absurd hf List.not_mem_nil
  gone _ hf := absurd hf List.not_mem_nil
  same_freed _ hf := absurd hf List.not_mem_nil
  dense _ hdense := ⟨hdense, fun _ hocc => hocc⟩

/-- The leaf is cleared. -/
theorem UnmapEffect.leaf (hw : ∀ k, w k ≤ pageEntries cfg) (ht : Aligned cfg t) (hva : InWidth cfg w 0 va)
    (hm' : m' = Function.update m (slot t (cfg.index 0 va)) 0)
    (hnull : null ↔ isTblNull m' t (cfg.width 0) = true) : UnmapEffect cfg w va 0 t m m' [] null where
  same n hn hmem := by
    subst hm'
    refine same_update 0 ht hn (Nat.lt_of_lt_of_le (hva 0 (le_refl 0)) (hw 0)) ?_
    rintro rfl
    exact hmem (mem_nodes_self 0 n)
  slots j _ hne := by
    rw [hm']
    exact update_other _ _ _ hne
  tables := List.Perm.refl _
  hit va' _ hagree := by
    rw [walkFrom, ← hagree 0 (le_refl 0), hm', Function.update_self]
    rfl
  miss va' _ hne := by
    have hindex : cfg.index 0 va' ≠ cfg.index 0 va := by
      intro heq
      refine hne fun k hk => ?_
      rw [Nat.le_zero.mp hk]
      exact heq.symm
    rw [walkFrom, walkFrom, hm', update_other _ _ _ hindex]
  cleared h := isTblNull_iff.mp (hnull.mp h)
  blank _ hf := absurd hf List.not_mem_nil
  gone _ hf := absurd hf List.not_mem_nil
  same_freed _ hf := absurd hf List.not_mem_nil
  dense hwidth hdense := by
    refine ⟨fun i hi hne => ?_, fun h _ => ?_⟩
    · have heq : i ≠ cfg.index 0 va := by
        rintro rfl
        rw [hm', Function.update_self] at hne
        exact hne rfl
      rw [hm', update_other _ _ _ heq] at hne ⊢
      exact hdense i hi hne
    · by_contra hocc
      rw [not_occupied_iff, hwidth] at hocc
      exact h (hnull.mpr (isTblNull_iff.mpr hocc))

/-! ### From a child to its table -/

section Child

variable {c : Word} {m₁ : Mem} {nullc : Prop} (hw : ∀ k, w k ≤ pageEntries cfg)
  (hva : InWidth cfg w (d + 1) va) (ht : Aligned cfg t) (hnodup : (tablesFrom cfg w m (d + 1) t).Nodup)
  (hc : edge cfg m t (cfg.index (d + 1) va) = some c) (h : UnmapEffect cfg w va d c m m₁ freed nullc)

include hva hc h

theorem UnmapEffect.same_above {n : Word} (hn : Aligned cfg n) (hmem : n ∉ tablesFrom cfg w m (d + 1) t) :
    Same cfg m m₁ n :=
  h.same n hn fun hmem' => hmem (mem_nodes_of_child (hva (d + 1) (le_refl _)) hc hmem')

include ht hnodup

theorem UnmapEffect.same_table : Same cfg m m₁ t :=
  h.same t ht (not_mem_child hnodup (hva (d + 1) (le_refl _)) hc)

include hw

theorem UnmapEffect.offPath (hslot : ∀ j, j ≠ cfg.index (d + 1) va → m' (slot t j) = m₁ (slot t j))
    (hsame : ∀ n, Aligned cfg n → n ≠ t → Same cfg m₁ m' n) :
    OffPath cfg w m m' d t (cfg.index (d + 1) va) := by
  refine offPath_of_same hnodup (hva (d + 1) (le_refl _)) (fun j hj hne => ?_) fun n hn hnt hnot => ?_
  · exact (hslot j hne).trans (h.same_table hva ht hnodup hc j (Nat.lt_of_lt_of_le hj (hw _)))
  · rw [hc] at hnot
    have hn' := aligned_of_mem ht hn
    exact (h.same n hn' hnot).trans (hsame n hn' hnt)

/-- A page freed below the child is gone from the whole tree when it is given back. -/
theorem UnmapEffect.gone_above {f : Word × Mem} (hf : f ∈ freed) : f.1 ∉ tablesFrom cfg w f.2 (d + 1) t := by
  have hi := hva (d + 1) (le_refl _)
  have hmem : f.1 ∈ tablesFrom cfg w m d c :=
    h.tables.symm.subset (List.mem_append_left _ (List.mem_map_of_mem hf))
  have hroot := h.same_freed f hf t ht (not_mem_child hnodup hi hc)
  intro hn
  rcases mem_nodes_succ.mp hn with heq | ⟨j, hj, b, hb, hn⟩
  · exact not_mem_child hnodup hi hc (heq ▸ hmem)
  · rw [edge_congr (hroot j (Nat.lt_of_lt_of_le hj (hw _)))] at hb
    by_cases hji : j = cfg.index (d + 1) va
    · rw [hji, hc] at hb
      cases hb
      exact h.gone f hf hn
    · have hother : tablesFrom cfg w f.2 d b = tablesFrom cfg w m d b :=
        tablesFrom_congr hw fun n hn => h.same_freed f hf n (aligned_of_mem (aligned_of_edge hb) hn)
          (disjoint_children hnodup hj hi hji hb hc hn)
      have hn' : f.1 ∈ tablesFrom cfg w m d b := hother ▸ hn
      exact disjoint_children hnodup hj hi hji hb hc hn' hmem

/-- The child still holds something and stays. -/
theorem UnmapEffect.keep (hnullc : ¬nullc) (hnull : ¬null) :
    UnmapEffect cfg w va (d + 1) t m m₁ freed null := by
  have hi := hva (d + 1) (le_refl _)
  have hoff := h.offPath hw hva ht hnodup hc (fun _ _ => rfl) fun _ _ _ _ _ => rfl
  have hc₁ : edge cfg m₁ t (cfg.index (d + 1) va) = some c :=
    (edge_congr (h.same_table hva ht hnodup hc _ (Nat.lt_of_lt_of_le hi (hw _)))).trans hc
  refine ⟨fun n => h.same_above hva hc, fun j hj _ => h.same_table hva ht hnodup hc j hj, ?_,
    fun va' hva' hagree => ?_, fun va' hva' hne => ?_,
    fun hnull' => absurd hnull' hnull, h.blank, fun f hf => h.gone_above hw hva ht hnodup hc hf,
    fun f hf n hn hmem => h.same_freed f hf n hn fun hmem' => hmem (mem_nodes_of_child hi hc hmem'),
    fun hwidth hdense => ?_⟩
  · refine nodes_replace hi (fun j hj hne => (hoff.elim_eq hw hj hne).symm) ?_
    rw [hc, hc₁]
    exact h.tables
  · rw [walkFrom, ← hagree (d + 1) (le_refl _), hc₁]
    exact h.hit va' (fun k hk => hva' k (Nat.le_succ_of_le hk)) fun k hk => hagree k (Nat.le_succ_of_le hk)
  · by_cases hindex : cfg.index (d + 1) va' = cfg.index (d + 1) va
    · rw [walkFrom, walkFrom, hindex, hc, hc₁]
      refine h.miss va' (fun k hk => hva' k (Nat.le_succ_of_le hk)) fun hagree => hne ?_
      exact hagree.succ hindex.symm
    · exact hoff.walkFrom_eq hw hva' hindex
  · obtain ⟨hdc, hoc⟩ := hdense.child hi hc
    obtain ⟨hdc₁, hoc₁⟩ := h.dense hwidth hdc
    exact ⟨hoff.dense hw hdense fun _ => ⟨c, hc₁, hdc₁, hoc₁ hnullc hoc⟩,
      fun _ _ => ⟨_, hi, ne_zero_of_edge hc₁⟩⟩

/-- The child has become empty: its entry is cleared and its page given back. -/
theorem UnmapEffect.prune (hww : ∀ k, w k ≤ cfg.width k) (hd : d < cfg.depth) (hnullc : nullc)
    (hm' : m' = Function.update m₁ (slot t (cfg.index (d + 1) va)) 0)
    (hnull : null ↔ isTblNull m' t (cfg.width (d + 1)) = true) :
    UnmapEffect cfg w va (d + 1) t m m' (freed ++ [(c, m')]) null := by
  have hi := hva (d + 1) (le_refl _)
  have hi' := Nat.lt_of_lt_of_le hi (hw _)
  have hcleared := h.cleared hnullc
  have hblank : ∀ i < w d, m₁ (slot c i) = 0 := fun i hi => hcleared i (Nat.lt_of_lt_of_le hi (hww d))
  have hct : c ≠ t := by
    rintro rfl
    exact not_mem_child hnodup hi hc (mem_nodes_self d c)
  have hslot : ∀ j, j ≠ cfg.index (d + 1) va → m' (slot t j) = m₁ (slot t j) := by
    intro j hne
    rw [hm']
    exact update_other _ _ _ hne
  have hsame : ∀ n, Aligned cfg n → n ≠ t → Same cfg m₁ m' n := by
    intro n hn hnt
    rw [hm']
    exact same_update 0 ht hn hi' hnt
  have hoff := h.offPath hw hva ht hnodup hc hslot hsame
  have hzero : m' (slot t (cfg.index (d + 1) va)) = 0 := by
    rw [hm', Function.update_self]
  have hnone : edge cfg m' t (cfg.index (d + 1) va) = none := edge_of_zero hzero
  have htables : (tablesFrom cfg w m (d + 1) t).Perm
      ((freed ++ [(c, m')]).map Prod.fst ++ tablesFrom cfg w m' (d + 1) t) := by
    refine nodes_replace hi (fun j hj hne => (hoff.elim_eq hw hj hne).symm) ?_
    have hchild : (tablesFrom cfg w m d c).Perm (freed.map Prod.fst ++ [c]) := by
      have hperm := h.tables
      rwa [tablesFrom_blank hblank] at hperm
    rw [hc, hnone, List.map_append]
    exact hchild.trans (List.Perm.of_eq (List.append_nil _).symm)
  refine ⟨fun n hn hmem => ?_, fun j hj hne => (hslot j hne).trans (h.same_table hva ht hnodup hc j hj),
    htables, fun va' hva' hagree => ?_, fun va' hva' hne => ?_,
    fun hnull' => isTblNull_iff.mp (hnull.mp hnull'), fun f hf => ?_, fun f hf => ?_, fun f hf n hn hmem => ?_,
    fun hwidth hdense => ⟨hoff.dense hw hdense fun hne => absurd hzero hne, fun hnot _ => ?_⟩⟩
  · refine (h.same_above hva hc hn hmem).trans (hsame n hn ?_)
    rintro rfl
    exact hmem (mem_nodes_self _ n)
  · rw [walkFrom, ← hagree (d + 1) (le_refl _), hnone]
    rfl
  · by_cases hindex : cfg.index (d + 1) va' = cfg.index (d + 1) va
    · have hva'' : InWidth cfg w d va' := fun k hk => hva' k (Nat.le_succ_of_le hk)
      have hmiss := h.miss va' hva'' fun hagree => hne (hagree.succ hindex.symm)
      rw [walkFrom_blank hblank hva''] at hmiss
      rw [walkFrom, walkFrom, hindex, hc, hnone]
      exact hmiss
    · exact hoff.walkFrom_eq hw hva' hindex
  · rcases List.mem_append.mp hf with hf | hf
    · exact h.blank f hf
    · rw [List.mem_singleton.mp hf]
      intro i hi
      exact (hsame c (aligned_of_edge hc) hct i hi).trans (hcleared i (by rwa [cfg.width_of_lt hd]))
  · rcases List.mem_append.mp hf with hf' | hf'
    · exact h.gone_above hw hva ht hnodup hc hf'
    · have hdisj := (List.nodup_append.mp (htables.nodup_iff.mp hnodup)).2.2
      rw [List.mem_singleton.mp hf']
      exact fun hmem => hdisj c (List.mem_map.mpr ⟨_, List.mem_append_right _ (List.mem_singleton_self _), rfl⟩) c
        hmem rfl
  · rcases List.mem_append.mp hf with hf | hf
    · exact h.same_freed f hf n hn fun hmem' => hmem (mem_nodes_of_child hi hc hmem')
    · rw [List.mem_singleton.mp hf]
      refine (h.same_above hva hc hn hmem).trans (hsame n hn ?_)
      rintro rfl
      exact hmem (mem_nodes_self _ n)
  · by_contra hocc
    rw [not_occupied_iff, hwidth] at hocc
    exact hnot (hnull.mpr (isTblNull_iff.mpr hocc))

end Child

theorem UnmapEffect.of_agree {va₀ : Word} (hagree : Agree cfg d va₀ va)
    (h : UnmapEffect cfg w va₀ d t m m' freed null) : UnmapEffect cfg w va d t m m' freed null :=
  { h with
    slots := fun j hj hne => h.slots j hj fun heq => hne (heq.trans (hagree d (le_refl d)))
    hit := fun va' hva' hva => h.hit va' hva' (hagree.trans hva)
    miss := fun va' hva' hne => h.miss va' hva' fun hva₀ => hne (hagree.symm.trans hva₀) }

end Effect

/-! ### The recursion -/

section Recursion

variable {cfg : RvmCfg} {w : Nat → Nat} {va : Word} {d : Nat} {t : Word} {r : Ram}

theorem unmapRec_of_none (hnone : edge cfg r.mem t (cfg.index (d + 1) va) = none) :
    unmapRec cfg va (d + 1) t r = (false, r) := by
  rw [edge] at hnone
  split_ifs at hnone with hvalid
  exact if_pos hvalid

theorem unmapRec_of_some {c : Word} (hc : edge cfg r.mem t (cfg.index (d + 1) va) = some c) :
    unmapRec cfg va (d + 1) t r =
      if (unmapRec cfg va d c r).1 then
        (isTblNull (Function.update (unmapRec cfg va d c r).2.mem (slot t (cfg.index (d + 1) va)) 0) t
          (cfg.width (d + 1)), ((unmapRec cfg va d c r).2.write (slot t (cfg.index (d + 1) va)) 0).free c)
      else (false, (unmapRec cfg va d c r).2) := by
  rw [edge] at hc
  split_ifs at hc with hvalid
  rw [unmapRec, if_neg hvalid, Option.some.inj hc]
  dsimp only
  rcases unmapRec cfg va d c r with ⟨b, r⟩
  cases b <;> rfl

/-- `unmap_rec` on a tree without sharing. -/
theorem unmapRec_effect (hww : ∀ k, w k ≤ cfg.width k) (hd : d ≤ cfg.depth) (hva : InWidth cfg w d va)
    (ht : Aligned cfg t) (hnodup : (tablesFrom cfg w r.mem d t).Nodup) :
    (unmapRec cfg va d t r).2.taken = r.taken ∧
    ∃ freed, (unmapRec cfg va d t r).2.freed = r.freed ++ freed ∧
      UnmapEffect cfg w va d t r.mem (unmapRec cfg va d t r).2.mem freed
        ((unmapRec cfg va d t r).1 = true) := by
  have hw : ∀ k, w k ≤ pageEntries cfg := fun k => le_trans (hww k) (width_le_page k)
  induction d generalizing t with
  | zero => exact ⟨rfl, [], (List.append_nil _).symm, UnmapEffect.leaf hw ht hva rfl Iff.rfl⟩
  | succ d ih =>
      have hi := hva (d + 1) (le_refl _)
      cases hc : edge cfg r.mem t (cfg.index (d + 1) va) with
      | none =>
          rw [unmapRec_of_none hc]
          exact ⟨rfl, [], (List.append_nil _).symm, UnmapEffect.skip hc Bool.false_ne_true⟩
      | some c =>
          obtain ⟨htaken, freed, hfreed, heffect⟩ := ih (Nat.le_of_succ_le hd)
            (fun k hk => hva k (Nat.le_succ_of_le hk)) (aligned_of_edge hc) (nodup_child hnodup hi hc)
          rw [unmapRec_of_some hc]
          split_ifs with hnull
          · refine ⟨htaken, freed ++ [(c, _)], ?_,
              heffect.prune hw hva ht hnodup hc hww hd hnull rfl Iff.rfl⟩
            rw [← List.append_assoc, ← hfreed]
            rfl
          · exact ⟨htaken, freed, hfreed, heffect.keep hw hva ht hnodup hc hnull (by simp)⟩

theorem unmapPage_effect {g : Glacier} (hww : ∀ k, w k ≤ cfg.width k) (hva : InWidth cfg w cfg.depth va)
    (hroot : Aligned cfg g.rootTable) (hnodup : (tablesFrom cfg w r.mem cfg.depth g.rootTable).Nodup) :
    (unmapPage cfg g va r).taken = r.taken ∧
    ∃ freed null, (unmapPage cfg g va r).freed = r.freed ++ freed ∧
      UnmapEffect cfg w va cfg.depth g.rootTable r.mem (unmapPage cfg g va r).mem freed null := by
  have hagree : Agree cfg cfg.depth (va &&& cfg.psz.addrMask) va := agree_and_addrMask (le_refl _) va
  obtain ⟨htaken, freed, hfreed, heffect⟩ := unmapRec_effect hww (le_refl _)
    (fun k hk => (hagree k hk).symm ▸ hva k hk) hroot hnodup
  exact ⟨htaken, freed, _, hfreed, heffect.of_agree hagree⟩

end Recursion

theorem unmapPage_agree {cfg : RvmCfg} {g : Glacier} {r : Ram} (hwf : WellFormed cfg r.mem g.rootTable)
    (va : Word) : WellFormed cfg (unmapPage cfg g va r).mem g.rootTable ∧
    ∀ va', walk cfg (unmapPage cfg g va r).mem g.rootTable va' =
      if Agree cfg cfg.depth va va' then none else walk cfg r.mem g.rootTable va' := by
  obtain ⟨-, freed, null, -, heffect⟩ := unmapPage_effect (fun k => le_refl (cfg.width k))
    (inWidth_width va) hwf.aligned hwf.nodup
  have hnodup := (List.nodup_append.mp (heffect.tables.nodup_iff.mp hwf.nodup)).2.1
  refine ⟨⟨hwf.aligned, hnodup⟩, fun va' => ?_⟩
  split_ifs with hagree
  · exact heffect.hit va' (inWidth_width va') hagree
  · exact heffect.miss va' (inWidth_width va') hagree

/-- `unmap_page` unmaps the page and leaves every other translation as it was. The pages it gives back
are tables other than the root, each given back once, empty and taken out of the tree before that. -/
theorem unmapPage_walk {cfg : RvmCfg} {g : Glacier} {va : Word} {r : Ram}
    (hwf : WellFormed cfg r.mem g.rootTable) (hva : cfg.Canonical va) :
    (∀ va', cfg.Canonical va' → walk cfg (unmapPage cfg g va r).mem g.rootTable va' =
      if cfg.SamePage va va' then none else walk cfg r.mem g.rootTable va') ∧
    WellFormed cfg (unmapPage cfg g va r).mem g.rootTable ∧
    ∃ freed, (unmapPage cfg g va r).freed = r.freed ++ freed ∧ (freed.map Prod.fst).Nodup ∧
      g.rootTable ∉ freed.map Prod.fst ∧
      ∀ f ∈ freed, f.1 ∈ tables cfg r.mem g.rootTable ∧
        (∀ i < pageEntries cfg, f.2 (slot f.1 i) = 0) ∧
        ∀ m, m = f.2 ∨ m = (unmapPage cfg g va r).mem → f.1 ∉ tables cfg m g.rootTable ∧
          ∀ q ∈ paths (edge cfg m) cfg.width cfg.depth g.rootTable, q.1.length < cfg.depth →
            ∀ i < cfg.width (cfg.depth - q.1.length), edge cfg m q.2 i ≠ some f.1 := by
  obtain ⟨-, freed, null, hfreed, heffect⟩ := unmapPage_effect (fun k => le_refl (cfg.width k))
    (inWidth_width va) hwf.aligned hwf.nodup
  have hsplit := List.nodup_append.mp (heffect.tables.nodup_iff.mp hwf.nodup)
  obtain ⟨hnodup, hnodup', hdisj⟩ := hsplit
  refine ⟨fun va' hva' => ?_, ⟨hwf.aligned, hnodup'⟩, freed, hfreed, hnodup, ?_, fun f hf => ?_⟩
  · split_ifs with hpage
    · exact heffect.hit va' (inWidth_width va') ((samePage_iff_agree hva hva').mp hpage)
    · exact heffect.miss va' (inWidth_width va') fun hagree => hpage ((samePage_iff_agree hva hva').mpr hagree)
  · exact fun hmem => hdisj _ hmem _ (mem_nodes_self _ _) rfl
  · have hmem : f.1 ∈ freed.map Prod.fst := List.mem_map_of_mem hf
    refine ⟨heffect.tables.symm.subset (List.mem_append_left _ hmem), heffect.blank f hf, fun m hm => ?_⟩
    have hgone : f.1 ∉ tables cfg m g.rootTable := by
      rcases hm with rfl | rfl
      · exact heffect.gone f hf
      · exact fun hmem' => hdisj _ hmem _ hmem' rfl
    exact ⟨hgone, fun q hq hlen i hi hedge => hgone (mem_nodes_of_edge hq hlen hi hedge)⟩

/-- `blankRoot` after two pages with a common leaf table have been mapped. -/
def twoPages : Ram :=
  (mapPage twoLevels .amd64 ⟨0x1000, true⟩ 0x4000 0x6000 0b11 []
    (mapPage twoLevels .amd64 ⟨0x1000, true⟩ 0x3000 0x5000 0b11 [some 0x2000] blankRoot).2).2

/-- Unmapping one page keeps the other; unmapping both gives the leaf table back. -/
theorem unmapPage_walk_twoPages :
    walk twoLevels (unmapPage twoLevels ⟨0x1000, true⟩ 0x3000 twoPages).mem 0x1000 0x4000 = some 0x6003 ∧
    (unmapPage twoLevels ⟨0x1000, true⟩ 0x4000
      (unmapPage twoLevels ⟨0x1000, true⟩ 0x3000 twoPages)).freed.map Prod.fst = [0x2000] := by
  have hunmap := @unmapPage_walk twoLevels ⟨0x1000, true⟩ 0x3000 twoPages (by decide +kernel) (by decide)
  exact ⟨(hunmap.1 0x4000 (by decide)).trans (by decide +kernel), by decide +kernel⟩

end Glacier

end UnixKernel
