import UnixKernel.GlacierTree

/-! `map_page` on a tree without sharing. Whatever the allocator answers, as long as its pages are not in
use, the tables of the tree afterwards are those from before and the pages that were linked in; the leaf
word of the mapped page is the new one, if the call succeeded, and every other translation is as before. -/

namespace UnixKernel

open Radix

namespace Glacier

/-- What `map_page` does to the tree under `t`, from memory `m` to `m'`: `added` are the tables it links
in, and `ok` says whether it got to the leaf. -/
structure MapEffect (cfg : RvmCfg) (w : Nat → Nat) (va word : Word) (d : Nat) (t : Word) (m m' : Mem)
    (added : List Word) (ok : Prop) : Prop where
  same : ∀ n, Aligned cfg n → n ∉ added → n ∉ tablesFrom cfg w m d t → Same cfg m m' n
  slots : ∀ j < pageEntries cfg, j ≠ cfg.index d va → m' (slot t j) = m (slot t j)
  tables : (tablesFrom cfg w m' d t).Perm (added ++ tablesFrom cfg w m d t)
  hit : ok → ∀ va', Agree cfg d va va' → walkFrom cfg m' va' d t = present word
  miss : ∀ va', InWidth cfg w d va' → (ok → ¬Agree cfg d va va') →
    walkFrom cfg m' va' d t = walkFrom cfg m va' d t
  dense : ok → word &&& flagValid ≠ 0 → Dense cfg w m d t → Dense cfg w m' d t ∧ Occupied w m' d t

section Effect

variable {cfg : RvmCfg} {w : Nat → Nat} {va word : Word} {d : Nat} {t : Word} {m m' : Mem}
  {added : List Word} {ok : Prop}

theorem MapEffect.refl (h : ¬ok) : MapEffect cfg w va word d t m m [] ok where
  same _ _ _ _ _ _ := rfl
  slots _ _ _ := rfl
  tables := List.Perm.refl _
  hit hok := absurd hok h
  miss _ _ _ := rfl
  dense hok := absurd hok h

/-- The write into the leaf. -/
theorem MapEffect.leaf (hw : ∀ k, w k ≤ pageEntries cfg) (ht : Aligned cfg t) (hva : InWidth cfg w 0 va)
    (hok : ok) : MapEffect cfg w va word 0 t m (Function.update m (slot t (cfg.index 0 va)) word) [] ok where
  same n hn _ hmem := by
    have hi := Nat.lt_of_lt_of_le (hva 0 (le_refl 0)) (hw 0)
    refine same_update word ht hn hi ?_
    rintro rfl
    exact hmem (mem_nodes_self 0 n)
  slots _ _ hne := update_other _ _ _ hne
  tables := List.Perm.refl _
  hit _ va' hagree := by
    rw [walkFrom, ← hagree 0 (le_refl 0), Function.update_self]
  miss va' _ hne := by
    have hindex : cfg.index 0 va' ≠ cfg.index 0 va := by
      intro heq
      refine hne hok fun k hk => ?_
      rw [Nat.le_zero.mp hk]
      exact heq.symm
    rw [walkFrom, walkFrom, update_other _ _ _ hindex]
  dense _ hvalid hdense := by
    refine ⟨fun i hi hne => ?_, cfg.index 0 va, hva 0 (le_refl 0), ?_⟩
    · by_cases heq : i = cfg.index 0 va
      · rw [heq, Function.update_self]
        exact hvalid
      · rw [update_other _ _ _ heq] at hne ⊢
        exact hdense i hi hne
    · rw [Function.update_self]
      intro hzero
      rw [hzero] at hvalid
      exact hvalid BitVec.zero_and

/-- The effect on a child is the effect on its table, when the rest of the tree stays as it was. -/
theorem MapEffect.of_child {c : Word} (hw : ∀ k, w k ≤ pageEntries cfg) (hva : InWidth cfg w (d + 1) va)
    (hoff : OffPath cfg w m m' d t (cfg.index (d + 1) va))
    (hc : edge cfg m' t (cfg.index (d + 1) va) = some c)
    (htables : (tablesFrom cfg w m' d c).Perm
      (added ++ (edge cfg m t (cfg.index (d + 1) va)).elim [] (tablesFrom cfg w m d)))
    (hhit : ok → ∀ va', Agree cfg d va va' → walkFrom cfg m' va' d c = present word)
    (hmiss : ∀ va', InWidth cfg w d va' → (ok → ¬Agree cfg d va va') →
      walkFrom cfg m' va' d c = (edge cfg m t (cfg.index (d + 1) va)).bind (walkFrom cfg m va' d))
    (hdense : ok → word &&& flagValid ≠ 0 → (∀ b, edge cfg m t (cfg.index (d + 1) va) = some b →
      Dense cfg w m d b) → Dense cfg w m' d c ∧ Occupied w m' d c)
    (hsame : ∀ n, Aligned cfg n → n ∉ added → n ∉ tablesFrom cfg w m (d + 1) t → Same cfg m m' n)
    (hslots : ∀ j < pageEntries cfg, j ≠ cfg.index (d + 1) va → m' (slot t j) = m (slot t j)) :
    MapEffect cfg w va word (d + 1) t m m' added ok where
  same := hsame
  slots := hslots
  tables := by
    refine nodes_replace (hva (d + 1) (le_refl _)) (fun j hj hne => hoff.elim_eq hw hj hne) ?_
    rw [hc]
    exact htables
  hit hok va' hagree := by
    rw [walkFrom, ← hagree (d + 1) (le_refl _), hc]
    exact hhit hok va' fun k hk => hagree k (Nat.le_succ_of_le hk)
  miss va' hva' hne := by
    by_cases hindex : cfg.index (d + 1) va' = cfg.index (d + 1) va
    · rw [walkFrom, walkFrom, hindex, hc]
      exact hmiss va' (fun k hk => hva' k (Nat.le_succ_of_le hk)) fun hok hagree =>
        hne hok (hagree.succ hindex.symm)
    · exact hoff.walkFrom_eq hw hva' hindex
  dense hok hvalid hdense' := by
    have hi := hva (d + 1) (le_refl _)
    have hchild := hdense hok hvalid fun b hb => (hdense'.child hi hb).1
    exact ⟨hoff.dense hw hdense' fun _ => ⟨c, hc, hchild⟩, _, hi, ne_zero_of_edge hc⟩

/-- The entry is valid: the walk goes on in the table it refers to. -/
theorem MapEffect.descend {c : Word} (hw : ∀ k, w k ≤ pageEntries cfg) (hva : InWidth cfg w (d + 1) va)
    (ht : Aligned cfg t) (hnodup : (tablesFrom cfg w m (d + 1) t).Nodup)
    (hadded : ∀ n ∈ added, n ∉ tablesFrom cfg w m (d + 1) t)
    (hc : edge cfg m t (cfg.index (d + 1) va) = some c)
    (h : MapEffect cfg w va word d c m m' added ok) :
    MapEffect cfg w va word (d + 1) t m m' added ok := by
  have hi := hva (d + 1) (le_refl _)
  have hroot : Same cfg m m' t :=
    h.same t ht (fun hmem => hadded t hmem (mem_nodes_self _ t)) (not_mem_child hnodup hi hc)
  have hslot : ∀ j < w (d + 1), m' (slot t j) = m (slot t j) :=
    fun j hj => hroot j (Nat.lt_of_lt_of_le hj (hw _))
  refine MapEffect.of_child (c := c) hw hva (offPath_of_same hnodup hi (fun j hj _ => hslot j hj) ?_)
    ((edge_congr (hslot _ hi)).trans hc) ?_ h.hit ?_ ?_ ?_ fun j hj _ => hroot j hj
  · intro n hn _ hnot
    rw [hc] at hnot
    exact h.same n (aligned_of_mem ht hn) (fun hmem => hadded n hmem hn) hnot
  · rw [hc]
    exact h.tables
  · rw [hc]
    exact h.miss
  · exact fun hok hvalid hdense => h.dense hok hvalid (hdense c hc)
  · exact fun n hn hnot hmem => h.same n hn hnot fun hmem' => hmem (mem_nodes_of_child hi hc hmem')

/-- Memory after the page `p` is cleared and linked in at entry `i` of `t`. -/
def linked (cfg : RvmCfg) (arch : Arch) (m : Mem) (t : Word) (i : Nat) (p : Word) : Mem :=
  Function.update (m.zero p (pageEntries cfg)) (slot t i) (p ||| arch.flagNext)

theorem linked_blank {arch : Arch} {i j : Nat} {p : Word} (ht : Aligned cfg t) (hp : Aligned cfg p)
    (hne : p ≠ t) (hi : i < pageEntries cfg) (hj : j < pageEntries cfg) :
    linked cfg arch m t i p (slot p j) = 0 :=
  (same_update _ ht hp hi hne j hj).trans (zero_slot m p hj)

theorem linked_same {arch : Arch} {i : Nat} {n p : Word} (ht : Aligned cfg t) (hp : Aligned cfg p)
    (hi : i < pageEntries cfg) (hn : Aligned cfg n) (hnp : n ≠ p) (hnt : n ≠ t) :
    Same cfg m (linked cfg arch m t i p) n :=
  (same_zero m hp hn (le_refl _) hnp).trans (same_update _ ht hn hi hnt)

theorem linked_other {arch : Arch} {i j : Nat} {p : Word} (ht : Aligned cfg t) (hp : Aligned cfg p)
    (hne : p ≠ t) (hj : j < pageEntries cfg) (hji : j ≠ i) :
    linked cfg arch m t i p (slot t j) = m (slot t j) :=
  (update_other _ t _ hji).trans (same_zero m hp ht (le_refl _) (Ne.symm hne) j hj)

/-- The entry is not valid: a fresh page is linked in and the walk goes on there. -/
theorem MapEffect.link {arch : Arch} {p : Word} (hw : ∀ k, w k ≤ pageEntries cfg)
    (hva : InWidth cfg w (d + 1) va) (ht : Aligned cfg t) (hp : Aligned cfg p)
    (hnodup : (tablesFrom cfg w m (d + 1) t).Nodup)
    (hadded : ∀ n ∈ p :: added, n ∉ tablesFrom cfg w m (d + 1) t)
    (hnone : edge cfg m t (cfg.index (d + 1) va) = none)
    (h : MapEffect cfg w va word d p (linked cfg arch m t (cfg.index (d + 1) va) p) m' added ok) :
    MapEffect cfg w va word (d + 1) t m m' (p :: added) ok := by
  have hi := hva (d + 1) (le_refl _)
  have hi' := Nat.lt_of_lt_of_le hi (hw _)
  have hself : t ∈ tablesFrom cfg w m (d + 1) t := mem_nodes_self _ t
  have hpt : p ≠ t := fun heq => hadded p List.mem_cons_self (heq ▸ hself)
  have hblank : ∀ j < w d, linked cfg arch m t (cfg.index (d + 1) va) p (slot p j) = 0 :=
    fun j hj => linked_blank ht hp hpt hi' (Nat.lt_of_lt_of_le hj (hw d))
  have htables : tablesFrom cfg w (linked cfg arch m t (cfg.index (d + 1) va) p) d p = [p] :=
    tablesFrom_blank hblank
  -- what lies neither in the new page nor in one that is linked in below it
  have hrest : ∀ n, Aligned cfg n → n ∉ p :: added →
      Same cfg (linked cfg arch m t (cfg.index (d + 1) va) p) m' n := by
    intro n hn hnot
    rw [List.mem_cons, not_or] at hnot
    refine h.same n hn hnot.2 ?_
    rw [htables, List.mem_singleton]
    exact hnot.1
  have hroot := hrest t ht fun hmem => hadded t hmem hself
  have hsame : ∀ n, Aligned cfg n → n ∉ p :: added → n ≠ t → Same cfg m m' n := by
    intro n hn hnot hnt
    exact (linked_same ht hp hi' hn (fun heq => hnot (heq ▸ List.mem_cons_self)) hnt).trans
      (hrest n hn hnot)
  have hslots : ∀ j < pageEntries cfg, j ≠ cfg.index (d + 1) va → m' (slot t j) = m (slot t j) :=
    fun j hj hne => (hroot j hj).trans (linked_other ht hp hpt hj hne)
  refine MapEffect.of_child (c := p) hw hva (offPath_of_same hnodup hi ?_ ?_)
    (edge_of_next arch hp ?_) ?_ h.hit ?_ ?_ ?_ hslots
  · exact fun j hj hne => hslots j (Nat.lt_of_lt_of_le hj (hw _)) hne
  · exact fun n hn hnt _ => hsame n (aligned_of_mem ht hn) (fun hmem => hadded n hmem hn) hnt
  · exact (hroot _ hi').trans (Function.update_self _ _ _)
  · have hperm := h.tables
    rw [htables] at hperm
    rw [hnone, Option.elim_none, List.append_nil]
    exact hperm.trans (List.perm_append_singleton p added)
  · intro va' hva' hne
    rw [h.miss va' hva' hne, walkFrom_blank hblank hva', hnone]
    rfl
  · exact fun hok hvalid _ => h.dense hok hvalid (dense_blank hblank)
  · refine fun n hn hnot hmem => hsame n hn hnot ?_
    rintro rfl
    exact hmem (mem_nodes_self _ n)

theorem MapEffect.of_agree {va₀ : Word} (hagree : Agree cfg d va₀ va)
    (h : MapEffect cfg w va₀ word d t m m' added ok) : MapEffect cfg w va word d t m m' added ok where
  same := h.same
  slots j hj hne := h.slots j hj fun heq => hne (heq.trans (hagree d (le_refl d)))
  tables := h.tables
  hit hok va' hva' := h.hit hok va' (hagree.trans hva')
  miss va' hva' hne := h.miss va' hva' fun hok hva₀ => hne hok (hagree.symm.trans hva₀)
  dense := h.dense

theorem MapEffect.nodup {answers : List (Option Word)} (h : MapEffect cfg w va word d t m m' added ok)
    (hnodup : (tablesFrom cfg w m d t).Nodup) (hfresh : Fresh cfg (tablesFrom cfg w m d t) answers)
    (hsub : added.Sublist (pages answers)) : (tablesFrom cfg w m' d t).Nodup := by
  refine h.tables.nodup_iff.mpr (List.nodup_append.mpr ⟨hfresh.nodup.sublist hsub, hnodup, ?_⟩)
  rintro p hp n hn rfl
  exact hfresh.unused p (hsub.subset hp) hn

end Effect

/-! ### The loop -/

section Loop

variable {cfg : RvmCfg} {arch : Arch} {w : Nat → Nat} {va word : Word} {d : Nat} {t : Word}
  {answers : List (Option Word)} {r : Ram}

theorem mapFrom_of_some {c : Word} (hc : edge cfg r.mem t (cfg.index (d + 1) va) = some c) :
    mapFrom cfg arch va word (d + 1) t answers r = mapFrom cfg arch va word d c answers r := by
  rw [edge] at hc
  split_ifs at hc with hvalid
  exact (if_neg hvalid).trans (congrArg (fun c => mapFrom cfg arch va word d c answers r) (Option.some.inj hc))

theorem mapFrom_of_none (hnone : edge cfg r.mem t (cfg.index (d + 1) va) = none) :
    (∃ p rest, answers = some p :: rest ∧ mapFrom cfg arch va word (d + 1) t answers r =
      mapFrom cfg arch va word d p rest
        ⟨linked cfg arch r.mem t (cfg.index (d + 1) va) p, r.taken ++ [p], r.freed⟩) ∨
    mapFrom cfg arch va word (d + 1) t answers r = (.error .failed2Alloc, r) := by
  rw [edge] at hnone
  split_ifs at hnone with hvalid
  rcases answers with - | ⟨- | p, rest⟩
  · exact Or.inr (if_pos hvalid)
  · exact Or.inr (if_pos hvalid)
  · exact Or.inl ⟨p, rest, rfl, if_pos hvalid⟩

/-- `map_page` on a tree without sharing, with an allocator whose pages are not in use. -/
theorem mapFrom_effect (hw : ∀ k, w k ≤ pageEntries cfg) (hva : InWidth cfg w d va) (ht : Aligned cfg t)
    (hnodup : (tablesFrom cfg w r.mem d t).Nodup) (hfresh : Fresh cfg (tablesFrom cfg w r.mem d t) answers) :
    ∃ added, added.Sublist (pages answers) ∧
      (mapFrom cfg arch va word d t answers r).2.taken = r.taken ++ added ∧
      (mapFrom cfg arch va word d t answers r).2.freed = r.freed ∧
      MapEffect cfg w va word d t r.mem (mapFrom cfg arch va word d t answers r).2.mem added
        ((mapFrom cfg arch va word d t answers r).1 = .ok ()) := by
  induction d generalizing t answers r with
  | zero =>
      exact ⟨[], List.nil_sublist _, (List.append_nil _).symm, rfl, MapEffect.leaf hw ht hva rfl⟩
  | succ d ih =>
      have hi := hva (d + 1) (le_refl _)
      have hva' : InWidth cfg w d va := fun k hk => hva k (Nat.le_succ_of_le hk)
      cases hc : edge cfg r.mem t (cfg.index (d + 1) va) with
      | some c =>
          obtain ⟨added, hsub, htaken, hfreed, heffect⟩ := ih hva' (aligned_of_edge hc)
            (nodup_child hnodup hi hc) (hfresh.mono fun n hn => mem_nodes_of_child hi hc hn)
          rw [mapFrom_of_some hc]
          exact ⟨added, hsub, htaken, hfreed, heffect.descend hw hva ht hnodup
            (fun n hn => hfresh.unused n (hsub.subset hn)) hc⟩
      | none =>
          rcases @mapFrom_of_none cfg arch va word d t answers r hc with ⟨p, rest, rfl, heq⟩ | heq
          · obtain ⟨hp, hunused, hrest⟩ := hfresh.tail
            have hpt : p ≠ t := by
              rintro rfl
              exact hunused (mem_nodes_self _ p)
            have htables : tablesFrom cfg w (linked cfg arch r.mem t (cfg.index (d + 1) va) p) d p = [p] :=
              tablesFrom_blank fun j hj => linked_blank ht hp hpt (Nat.lt_of_lt_of_le hi (hw _))
                (Nat.lt_of_lt_of_le hj (hw d))
            obtain ⟨added, hsub, htaken, hfreed, heffect⟩ := @ih p rest
              ⟨linked cfg arch r.mem t (cfg.index (d + 1) va) p, r.taken ++ [p], r.freed⟩ hva' hp
              (by rw [htables]; exact List.nodup_singleton p) (by rw [htables]; exact hrest)
            rw [heq]
            refine ⟨p :: added, hsub.cons_cons p, ?_, hfreed, heffect.link hw hva ht hp hnodup ?_ hc⟩
            · rw [htaken, List.append_assoc, List.singleton_append]
            · exact fun n hn => hfresh.unused n ((hsub.cons_cons p).subset hn)
          · rw [heq]
            exact ⟨[], List.nil_sublist _, (List.append_nil _).symm, rfl, MapEffect.refl (by simp)⟩

variable {g : Glacier} {pa flags : Word}

/-- The whole call; `w` may be narrower than the tables are, as long as the address stays inside. -/
theorem mapPage_effect (hw : ∀ k, w k ≤ pageEntries cfg) (hva : InWidth cfg w cfg.depth va)
    (hroot : Aligned cfg g.rootTable) (hnodup : (tablesFrom cfg w r.mem cfg.depth g.rootTable).Nodup)
    (hfresh : Fresh cfg (tablesFrom cfg w r.mem cfg.depth g.rootTable) answers) :
    ∃ added, added.Sublist (pages answers) ∧
      (mapPage cfg arch g va pa flags answers r).2.taken = r.taken ++ added ∧
      (mapPage cfg arch g va pa flags answers r).2.freed = r.freed ∧
      MapEffect cfg w va (pa &&& cfg.psz.addrMask ||| flags) cfg.depth g.rootTable r.mem
        (mapPage cfg arch g va pa flags answers r).2.mem added
        ((mapPage cfg arch g va pa flags answers r).1 = .ok ()) := by
  have hagree : Agree cfg cfg.depth (va &&& cfg.psz.addrMask) va := agree_and_addrMask (le_refl _) va
  obtain ⟨added, hsub, htaken, hfreed, heffect⟩ :=
    @mapFrom_effect cfg arch w (va &&& cfg.psz.addrMask) (pa &&& cfg.psz.addrMask ||| flags) cfg.depth
      g.rootTable answers r hw (fun k hk => (hagree k hk).symm ▸ hva k hk) hroot hnodup hfresh
  exact ⟨added, hsub, htaken, hfreed, heffect.of_agree hagree⟩

end Loop

/-- `map_page`, however it ends: a success sets the leaf word of every address that takes the same path. -/
theorem mapPage_agree {cfg : RvmCfg} {arch : Arch} {g : Glacier} {va pa flags : Word}
    {answers : List (Option Word)} {r r' : Ram} {x : Except GlacierErr Unit}
    (hwf : WellFormed cfg r.mem g.rootTable) (hfresh : Fresh cfg (tables cfg r.mem g.rootTable) answers)
    (hmap : mapPage cfg arch g va pa flags answers r = (x, r')) :
    WellFormed cfg r'.mem g.rootTable ∧
    (x = .ok () → ∀ va', Agree cfg cfg.depth va va' →
      walk cfg r'.mem g.rootTable va' = present (pa &&& cfg.psz.addrMask ||| flags)) ∧
    ∀ va', (x = .ok () → ¬Agree cfg cfg.depth va va') →
      walk cfg r'.mem g.rootTable va' = walk cfg r.mem g.rootTable va' := by
  obtain ⟨added, hsub, -, -, heffect⟩ := @mapPage_effect cfg arch cfg.width va answers r g pa flags
    width_le_page (inWidth_width va) hwf.aligned hwf.nodup hfresh
  rw [hmap] at heffect
  exact ⟨⟨hwf.aligned, heffect.nodup hwf.nodup hfresh hsub⟩, heffect.hit,
    fun va' => heffect.miss va' (inWidth_width va')⟩

/-- A successful `map_page` sets the leaf word of its page, leaves every other translation as it was and
keeps the tree well formed. -/
theorem mapPage_walk {cfg : RvmCfg} {arch : Arch} {g : Glacier} {va pa flags : Word}
    {answers : List (Option Word)} {r r' : Ram} (hwf : WellFormed cfg r.mem g.rootTable)
    (hva : cfg.Canonical va) (hflags : flags &&& flagValid ≠ 0)
    (hfresh : Fresh cfg (tables cfg r.mem g.rootTable) answers)
    (hok : mapPage cfg arch g va pa flags answers r = (.ok (), r')) :
    (∀ va', cfg.Canonical va' → walk cfg r'.mem g.rootTable va' =
      if cfg.SamePage va va' then some (pa &&& cfg.psz.addrMask ||| flags)
      else walk cfg r.mem g.rootTable va') ∧
    WellFormed cfg r'.mem g.rootTable := by
  obtain ⟨added, hsub, -, -, heffect⟩ := @mapPage_effect cfg arch cfg.width va answers r g pa flags
    width_le_page (inWidth_width va) hwf.aligned hwf.nodup hfresh
  rw [hok] at heffect
  refine ⟨fun va' hva' => ?_, hwf.aligned, heffect.nodup hwf.nodup hfresh hsub⟩
  split_ifs with hpage
  · rw [samePage_iff_agree hva hva'] at hpage
    exact (heffect.hit rfl va' hpage).trans (if_neg (valid_or hflags))
  · rw [samePage_iff_agree hva hva'] at hpage
    exact heffect.miss va' (inWidth_width va') fun _ => hpage

/-- Two levels of 4 KiB tables, the root with four entries. -/
def twoLevels : RvmCfg := ⟨.size4kiB, 23, 32, by decide, by decide⟩

/-- Memory with an empty root at `0x1000`. -/
def blankRoot : Ram := ⟨fun _ => 0, [0x1000], []⟩

theorem mapPage_walk_twoLevels :
    (mapPage twoLevels .amd64 ⟨0x1000, true⟩ 0x3004 0x5008 0b11 [some 0x2000] blankRoot).1 = .ok () ∧
    walk twoLevels (mapPage twoLevels .amd64 ⟨0x1000, true⟩ 0x3004 0x5008 0b11 [some 0x2000] blankRoot).2.mem
      0x1000 0x3000 = some 0x5003 := by
  have hmap := @mapPage_walk twoLevels .amd64 ⟨0x1000, true⟩ 0x3004 0x5008 0b11 [some 0x2000] blankRoot _
    (by decide) (by decide) (by decide) (by decide) rfl
  exact ⟨rfl, (hmap.1 0x3000 (by decide)).trans (by decide)⟩

end Glacier

end UnixKernel
