import UnixKernel.GlacierRun

/-! A process `Glacier` beside the kernel's. `new` copies the kernel's root and clears its lower half, so the
upper halves of the two roots lead to the same tables. Calls on low addresses stay in the tables below the
lower half of the process root, which the kernel's tree never meets: they change no translation of the
kernel, and `drop`, which goes down the lower half only, gives back exactly the pages that are out. An
upper entry of the process root is never written again; as long as the kernel's is the same, so is the
translation. -/

namespace UnixKernel

open Radix Runs

def PageCall.va : PageCall → Word
  | .map va _ _ _ => va
  | .unmap va => va

/-- The answers of the allocator during a call; an unmap asks for nothing. -/
def PageCall.answers : PageCall → List (Option Word)
  | .map _ _ _ answers => answers
  | .unmap _ => []

namespace Glacier

variable (cfg : RvmCfg)

/-- The lower half of the address space. -/
def LowHalf (va : Word) : Prop := va.toNat < 2 ^ (cfg.vaBits - 1)

instance (va : Word) : Decidable (LowHalf cfg va) := inferInstanceAs (Decidable (_ < _))

/-- `hihalf`, the first address of the upper half. -/
def hihalf : Nat := 2 ^ 64 - 2 ^ (cfg.vaBits - 1)

/-- The tables below the lower half of a root. -/
def lowTables (m : Mem) (root : Word) : List Word := tablesFrom cfg (dropWidth cfg) m cfg.depth root

/-! ### The halves of the root -/

section Halves

variable {cfg}

theorem dropWidth_le (k : Nat) : dropWidth cfg k ≤ cfg.width k := by
  rw [dropWidth]
  split_ifs
  · exact Nat.shiftRight_le _ _
  · exact le_refl _

theorem dropWidth_le_page (k : Nat) : dropWidth cfg k ≤ pageEntries cfg :=
  le_trans (dropWidth_le k) (width_le_page k)

theorem root_bits (cfg : RvmCfg) : cfg.psz.shift + cfg.depth * cfg.psz.indexBits < cfg.vaBits ∧
    dropWidth cfg cfg.depth = 2 ^ (cfg.vaBits - 1 - (cfg.psz.shift + cfg.depth * cfg.psz.indexBits)) := by
  obtain ⟨hlow, -⟩ := cfg.depth_bits
  have hbits : cfg.psz.shift + cfg.depth * cfg.psz.indexBits < cfg.vaBits := by omega
  refine ⟨hbits, ?_⟩
  rw [dropWidth, if_pos rfl, cfg.width_eq, if_pos (le_refl _), Nat.shiftRight_eq_div_pow,
    Nat.pow_div (by omega) (by decide)]
  congr 1
  omega

theorem index_root (va : Word) : cfg.index cfg.depth va =
    va.toNat % 2 ^ cfg.vaBits / 2 ^ (cfg.psz.shift + cfg.depth * cfg.psz.indexBits) := by
  obtain ⟨hbits, -⟩ := root_bits cfg
  have hsplit : 2 ^ cfg.vaBits = 2 ^ (cfg.psz.shift + cfg.depth * cfg.psz.indexBits) *
      cfg.width cfg.depth := by
    rw [cfg.width_eq, if_pos (le_refl _), ← Nat.pow_add, Nat.add_sub_cancel' (Nat.le_of_lt hbits)]
  rw [cfg.index_eq (le_refl _), hsplit, Nat.mod_mul_right_div_self]

theorem half_eq : 2 ^ (cfg.vaBits - 1) = dropWidth cfg cfg.depth *
    2 ^ (cfg.psz.shift + cfg.depth * cfg.psz.indexBits) := by
  obtain ⟨hbits, hdrop⟩ := root_bits cfg
  rw [hdrop, ← Nat.pow_add]
  congr 1
  omega

theorem inWidth_low {va : Word} (h : LowHalf cfg va) : InWidth cfg (dropWidth cfg) cfg.depth va := by
  intro k hk
  by_cases hroot : k = cfg.depth
  · rw [hroot, index_root, Nat.div_lt_iff_lt_mul (Nat.two_pow_pos _), ← half_eq]
    exact Nat.lt_of_le_of_lt (Nat.mod_le _ _) h
  · rw [dropWidth, if_neg hroot]
    exact cfg.index_lt hk va

theorem le_index_high {va : Word} (h : hihalf cfg ≤ va.toNat) :
    dropWidth cfg cfg.depth ≤ cfg.index cfg.depth va := by
  obtain ⟨hdouble, -, htop⟩ := cfg.half_pages
  have hva := va.isLt
  rw [index_root, Nat.le_div_iff_mul_le (Nat.two_pow_pos _), ← half_eq]
  rw [hihalf] at h
  obtain ⟨x, hx⟩ := Nat.exists_eq_add_of_le' (show cfg.psz.size * cfg.gap ≤ va.toNat by omega)
  rw [hx, cfg.add_gap_mod (by omega)]
  omega

end Halves

/-! ### `new` -/

section New

variable {cfg}

theorem copy_slot (m : Mem) (dst src : Word) {i k : Nat} (hi : i < k) :
    m.copy dst src k (slot dst i) = m (slot src i) := by
  have hin : dst.toNat ≤ slot dst i ∧ slot dst i < slot dst k := by
    rw [slot, slot]
    omega
  rw [Mem.copy, if_pos hin, slot, Nat.add_sub_cancel_left, slot]

theorem same_copy (m : Mem) {dst src n : Word} {k : Nat} (hdst : Aligned cfg dst) (hn : Aligned cfg n)
    (hk : k ≤ pageEntries cfg) (hne : n ≠ dst) : Same cfg m (m.copy dst src k) n := by
  intro j hj
  exact if_neg fun h => hne (eq_of_slot_mem hdst hn hj hk h.1 h.2)

/-- A process `Glacier` as `new` leaves it: the lower half of its root is empty, the upper half is the
kernel's, and no other table has changed. -/
theorem new_spec {krvm g : Glacier} {root : Word} {r₀ r : Ram} (hroot : Aligned cfg root)
    (hkernel : Aligned cfg krvm.rootTable) (hne : krvm.rootTable ≠ root)
    (hnew : new cfg krvm (some root) r₀ = .ok (g, r)) :
    g = ⟨root, true⟩ ∧ r.taken = r₀.taken ++ [root] ∧ r.freed = r₀.freed ∧
    (∀ i < dropWidth cfg cfg.depth, r.mem (slot root i) = 0) ∧
    (∀ i, dropWidth cfg cfg.depth ≤ i → i < pageEntries cfg →
      r.mem (slot root i) = r₀.mem (slot krvm.rootTable i)) ∧
    ∀ n, Aligned cfg n → n ≠ root → Same cfg r₀.mem r.mem n := by
  have hhalf : cfg.entCnt 0 >>> 1 = dropWidth cfg cfg.depth := by
    rw [dropWidth, if_pos rfl, RvmCfg.width, Nat.sub_self]
  have hle : dropWidth cfg cfg.depth ≤ pageEntries cfg := dropWidth_le_page _
  cases hnew
  refine ⟨rfl, rfl, rfl, fun i hi => ?_, fun i hlo hi => ?_, fun n hn hnr => ?_⟩
  · exact zero_slot _ root (hhalf ▸ hi)
  · change Mem.zero _ root (cfg.entCnt 0 >>> 1) (slot root i) = _
    rw [hhalf, Mem.zero, if_neg, copy_slot _ _ _ hi]
    · exact same_zero r₀.mem hroot hkernel (le_refl _) hne i hi
    · rw [slot, slot]
      omega
  · refine ((same_zero r₀.mem hroot hn (le_refl _) hnr).trans
      (same_copy _ hroot hn (le_refl _) hnr)).trans (same_zero _ hroot hn ?_ hnr)
    rw [hhalf]
    exact hle

end New

/-! ### Two trees side by side -/

/-- The process tables and the kernel's do not meet, and the upper half of the process root holds the
entries `e₀`. -/
structure Shared (krvm g : Glacier) (e₀ : Nat → Word) (m : Mem) : Prop where
  kernel : WellFormed cfg m krvm.rootTable
  aligned : Aligned cfg g.rootTable
  nodup : (lowTables cfg m g.rootTable).Nodup
  apart : ∀ n ∈ lowTables cfg m g.rootTable, n ∉ tables cfg m krvm.rootTable
  high : ∀ i, dropWidth cfg cfg.depth ≤ i → i < pageEntries cfg → m (slot g.rootTable i) = e₀ i

/-- The pages that the allocator hands out during a call are in use by neither. -/
def Unshared (krvm g : Glacier) (r : Ram) (c : PageCall) : Prop :=
  Fresh cfg (tables cfg r.mem krvm.rootTable ++ lowTables cfg r.mem g.rootTable) c.answers

instance (krvm g : Glacier) (r : Ram) (c : PageCall) : Decidable (Unshared cfg krvm g r c) :=
  inferInstanceAs (Decidable (Fresh cfg _ _))

/-- A call on the process `Glacier`. -/
def LowCall (krvm g : Glacier) (r : Ram) (c : PageCall) : Prop :=
  LowHalf cfg c.va ∧ Unshared cfg krvm g r c

/-- What a call on a tree of widths `w` can reach: the tree's own tables and the pages `added`. -/
structure Confined (w : Nat → Nat) (g : Glacier) (r r' : Ram) (added : List Word) : Prop where
  same : ∀ n, Aligned cfg n → n ∉ added → n ∉ tablesFrom cfg w r.mem cfg.depth g.rootTable →
    Same cfg r.mem r'.mem n
  nodup : (tablesFrom cfg w r'.mem cfg.depth g.rootTable).Nodup
  grown : ∀ n ∈ tablesFrom cfg w r'.mem cfg.depth g.rootTable,
    n ∈ added ∨ n ∈ tablesFrom cfg w r.mem cfg.depth g.rootTable
  slots : ∀ j, w cfg.depth ≤ j → j < pageEntries cfg →
    r'.mem (slot g.rootTable j) = r.mem (slot g.rootTable j)
  ledger : Ledger r (tablesFrom cfg w r.mem cfg.depth g.rootTable) →
    Ledger r' (tablesFrom cfg w r'.mem cfg.depth g.rootTable)

section Shared

variable {cfg} {arch : Arch} {krvm g : Glacier} {e₀ : Nat → Word} {r : Ram} {c : PageCall}

/-- Any call, successful or not, stays in its tree. -/
theorem step_confined {w : Nat → Nat} (hww : ∀ k, w k ≤ cfg.width k) (hva : InWidth cfg w cfg.depth c.va)
    (hroot : Aligned cfg g.rootTable) (hnodup : (tablesFrom cfg w r.mem cfg.depth g.rootTable).Nodup)
    (hfresh : Fresh cfg (tablesFrom cfg w r.mem cfg.depth g.rootTable) c.answers) :
    ∃ added, (∀ p ∈ added, p ∈ pages c.answers) ∧ Confined cfg w g r (step cfg arch g r c) added := by
  have hbeyond : ∀ j, w cfg.depth ≤ j → j ≠ cfg.index cfg.depth c.va := fun j hj heq =>
    absurd (hva _ (le_refl _)) (Nat.not_lt_of_le (heq ▸ hj))
  cases c with
  | map va pa flags answers =>
      obtain ⟨added, hsub, htaken, hfreed, heffect⟩ := @mapPage_effect cfg arch w va answers r g pa flags
        (fun k => le_trans (hww k) (width_le_page k)) hva hroot hnodup hfresh
      exact ⟨added, hsub.subset, heffect.same, heffect.nodup hnodup hfresh hsub,
        fun n hn => List.mem_append.mp (heffect.tables.subset hn),
        fun j hj hpage => heffect.slots j hpage (hbeyond j hj),
        fun hledger => hledger.take htaken hfreed heffect.tables⟩
  | unmap va =>
      obtain ⟨htaken, freed, null, hfreed, heffect⟩ := unmapPage_effect hww hva hroot hnodup
      exact ⟨[], fun p hp => absurd hp List.not_mem_nil, fun n hn _ => heffect.same n hn,
        (List.nodup_append.mp (heffect.tables.nodup_iff.mp hnodup)).2.1,
        fun n hn => Or.inr (heffect.tables.symm.subset (List.mem_append_right _ hn)),
        fun j hj hpage => heffect.slots j hpage (hbeyond j hj),
        fun hledger => hledger.free htaken hfreed heffect.tables⟩

/-- A process call keeps the two trees apart and leaves every table of the kernel as it is. -/
theorem Shared.process (h : Shared cfg krvm g e₀ r.mem) (hc : LowCall cfg krvm g r c) :
    Shared cfg krvm g e₀ (step cfg arch g r c).mem ∧
    (∀ n ∈ tables cfg r.mem krvm.rootTable, Same cfg r.mem (step cfg arch g r c).mem n) ∧
    (Ledger r (lowTables cfg r.mem g.rootTable) →
      Ledger (step cfg arch g r c) (lowTables cfg (step cfg arch g r c).mem g.rootTable)) := by
  obtain ⟨hlow, hfresh⟩ := hc
  obtain ⟨added, hadded, hconf⟩ := @step_confined cfg arch g r c (dropWidth cfg) dropWidth_le (inWidth_low hlow)
    h.aligned h.nodup (hfresh.mono fun p hp => List.mem_append_right _ hp)
  have hout : ∀ n ∈ added, n ∉ tables cfg r.mem krvm.rootTable := fun n hn hmem =>
    hfresh.unused n (hadded n hn) (List.mem_append_left _ hmem)
  have hsame : ∀ n ∈ tables cfg r.mem krvm.rootTable, Same cfg r.mem (step cfg arch g r c).mem n :=
    fun n hn => hconf.same n (aligned_of_mem h.kernel.aligned hn) (fun hmem => hout n hmem hn)
      fun hmem => h.apart n hmem hn
  have htables : tables cfg (step cfg arch g r c).mem krvm.rootTable = tables cfg r.mem krvm.rootTable :=
    tablesFrom_congr width_le_page hsame
  refine ⟨⟨⟨h.kernel.aligned, ?_⟩, h.aligned, hconf.nodup, fun n hn => ?_, fun i hlo hi => ?_⟩, hsame,
    hconf.ledger⟩
  · rw [htables]
    exact h.kernel.nodup
  · rw [htables]
    rcases hconf.grown n hn with hn | hn
    · exact hout n hn
    · exact h.apart n hn
  · rw [hconf.slots i hlo hi]
    exact h.high i hlo hi

/-- A kernel call keeps the two trees apart. -/
theorem Shared.kernelCall (h : Shared cfg krvm g e₀ r.mem) (hc : Unshared cfg krvm g r c) :
    Shared cfg krvm g e₀ (step cfg arch krvm r c).mem := by
  obtain ⟨added, hadded, hconf⟩ := @step_confined cfg arch krvm r c cfg.width (fun _ => le_refl _)
    (inWidth_width _) h.kernel.aligned h.kernel.nodup (hc.mono fun p hp => List.mem_append_left _ hp)
  have hout : ∀ n ∈ added, n ∉ lowTables cfg r.mem g.rootTable := fun n hn hmem =>
    hc.unused n (hadded n hn) (List.mem_append_right _ hmem)
  have hsame : ∀ n ∈ lowTables cfg r.mem g.rootTable, Same cfg r.mem (step cfg arch krvm r c).mem n :=
    fun n hn => hconf.same n (aligned_of_mem h.aligned hn) (fun hmem => hout n hmem hn) (h.apart n hn)
  have htables : lowTables cfg (step cfg arch krvm r c).mem g.rootTable = lowTables cfg r.mem g.rootTable :=
    tablesFrom_congr dropWidth_le_page hsame
  refine ⟨⟨h.kernel.aligned, hconf.nodup⟩, h.aligned, ?_, fun n hn hmem => ?_, fun i hlo hi => ?_⟩
  · rw [htables]
    exact h.nodup
  · rw [htables] at hn
    rcases hconf.grown n hmem with hmem | hmem
    · exact hout n hmem hn
    · exact h.apart n hn hmem
  · rw [hsame _ (mem_nodes_self _ _) i hi]
    exact h.high i hlo hi

/-- The two trees just after `new`. -/
theorem shared_new {root : Word} {r₀ : Ram} (hkernel : WellFormed cfg r₀.mem krvm.rootTable)
    (hroot : Aligned cfg root) (hunused : root ∉ tables cfg r₀.mem krvm.rootTable)
    (hnew : new cfg krvm (some root) r₀ = .ok (g, r)) :
    Shared cfg krvm g (fun i => r.mem (slot krvm.rootTable i)) r.mem ∧
    lowTables cfg r.mem g.rootTable = [g.rootTable] ∧
    (∀ va, LowHalf cfg va → walk cfg r.mem g.rootTable va = none) ∧
    r.taken = r₀.taken ++ [g.rootTable] ∧ r.freed = r₀.freed := by
  have hne : krvm.rootTable ≠ root := fun heq => hunused (heq ▸ mem_nodes_self _ _)
  obtain ⟨rfl, htaken, hfreed, hzero, hhigh, hsame⟩ := new_spec hroot hkernel.aligned hne hnew
  have hlow : lowTables cfg r.mem root = [root] := tablesFrom_blank hzero
  have hsameK : ∀ n ∈ tables cfg r₀.mem krvm.rootTable, Same cfg r₀.mem r.mem n := by
    intro n hn
    refine hsame n (aligned_of_mem hkernel.aligned hn) ?_
    rintro rfl
    exact hunused hn
  have htables : tables cfg r.mem krvm.rootTable = tables cfg r₀.mem krvm.rootTable :=
    tablesFrom_congr width_le_page hsameK
  refine ⟨⟨⟨hkernel.aligned, ?_⟩, hroot, ?_, fun n hn => ?_, fun i hlo hi => ?_⟩, hlow,
    fun va hva => walkFrom_blank hzero (inWidth_low hva), htaken, hfreed⟩
  · rw [htables]
    exact hkernel.nodup
  · rw [hlow]
    exact List.nodup_singleton root
  · rw [hlow, List.mem_singleton] at hn
    rw [htables, hn]
    exact hunused
  · rw [hhigh i hlo hi]
    exact (hsameK _ (mem_nodes_self _ _) i hi).symm

end Shared

/-! ### `drop` -/

section Drop

variable {cfg} {d : Nat} {t : Word} {r : Ram}

/-- The loop of `_drop` over some of the entries, when a child is dropped as a whole. -/
theorem drop_loop (hchild : ∀ c (r : Ram), (dropRec cfg d c r).mem = r.mem ∧
      (dropRec cfg d c r).taken = r.taken ∧ ∃ freed, (dropRec cfg d c r).freed = r.freed ++ freed ∧
        (freed.map Prod.fst).Perm (tablesFrom cfg (dropWidth cfg) r.mem d c)) (slots : List Nat) :
    ∀ r' : Ram, r' = slots.foldl (fun r i =>
        let entry := r.mem (slot t i)
        if entry &&& flagValid ≠ 0 then dropRec cfg d (entry &&& cfg.psz.addrMask) r else r) r →
      r'.mem = r.mem ∧ r'.taken = r.taken ∧ ∃ freed, r'.freed = r.freed ++ freed ∧
        (freed.map Prod.fst).Perm (slots.flatMap fun i =>
          (edge cfg r.mem t i).elim [] (tablesFrom cfg (dropWidth cfg) r.mem d)) := by
  induction slots generalizing r with
  | nil =>
      rintro r' rfl
      exact ⟨rfl, rfl, [], (List.append_nil _).symm, List.Perm.refl _⟩
  | cons i slots ih =>
      intro r' hr'
      rw [List.foldl_cons] at hr'
      rw [List.flatMap_cons, edge]
      dsimp only at hr'
      by_cases hvalid : r.mem (slot t i) &&& flagValid = 0
      · rw [if_neg (not_not.mpr hvalid)] at hr'
        rw [if_pos hvalid]
        exact ih r' hr'
      · obtain ⟨hmem, htaken, freed, hfreed, hperm⟩ := hchild (r.mem (slot t i) &&& cfg.psz.addrMask) r
        rw [if_pos hvalid] at hr'
        obtain ⟨hmem', htaken', freed', hfreed', hperm'⟩ := ih r' hr'
        rw [if_neg hvalid]
        refine ⟨hmem'.trans hmem, htaken'.trans htaken, freed ++ freed', ?_, ?_⟩
        · rw [hfreed', hfreed, List.append_assoc]
        · rw [hmem] at hperm'
          rw [List.map_append]
          exact hperm.append hperm'

theorem dropRec_spec (d : Nat) (t : Word) (r : Ram) : (dropRec cfg d t r).mem = r.mem ∧
    (dropRec cfg d t r).taken = r.taken ∧ ∃ freed, (dropRec cfg d t r).freed = r.freed ++ freed ∧
      (freed.map Prod.fst).Perm (tablesFrom cfg (dropWidth cfg) r.mem d t) := by
  induction d generalizing t r with
  | zero => exact ⟨rfl, rfl, [(t, r.mem)], rfl, List.Perm.refl _⟩
  | succ d ih =>
      obtain ⟨hmem, htaken, freed, hfreed, hperm⟩ :=
        drop_loop ih (List.range (dropWidth cfg (d + 1))) (t := t) (r := r) _ rfl
      rw [dropRec]
      refine ⟨hmem, htaken, freed ++ [(t, r.mem)], ?_, ?_⟩
      · rw [Ram.free, hfreed, hmem, List.append_assoc]
      · rw [List.map_append]
        exact (List.perm_append_singleton t _).trans (hperm.cons t)

end Drop

/-- Dropping a process `Glacier` after any calls on low addresses gives back its root and every page those
calls took and did not give back, each once, and no table of the kernel. -/
theorem drop_exact {cfg : RvmCfg} {arch : Arch} {krvm g : Glacier} {root : Word} {m : Mem} {r : Ram}
    {calls : List PageCall} (hkernel : WellFormed cfg m krvm.rootTable) (hroot : Aligned cfg root)
    (hunused : root ∉ tables cfg m krvm.rootTable)
    (hnew : new cfg krvm (some root) ⟨m, [], []⟩ = .ok (g, r))
    (hcalls : Admits (step cfg arch g) (LowCall cfg krvm g) r calls) :
    ∀ r', r' = run (step cfg arch g) r calls →
      ∃ freed, (drop cfg g r').freed = r'.freed ++ freed ∧ (freed.map Prod.fst).Nodup ∧
        g.rootTable ∈ freed.map Prod.fst ∧
        r'.taken.Perm (r'.freed.map Prod.fst ++ freed.map Prod.fst) ∧
        ∀ f ∈ freed, f.1 ∉ tables cfg r'.mem krvm.rootTable := by
  rintro r' rfl
  obtain ⟨hshared, hlow, -, htaken, hfreed⟩ := shared_new hkernel hroot hunused hnew
  have hledger : Ledger r (lowTables cfg r.mem g.rootTable) := by
    rw [Ledger, htaken, hfreed, hlow]
    exact List.Perm.refl _
  obtain ⟨hshared', hledger'⟩ := run_induction
    (P := fun r' => Shared cfg krvm g (fun i => r.mem (slot krvm.rootTable i)) r'.mem ∧
      Ledger r' (lowTables cfg r'.mem g.rootTable))
    (fun s c h hc => ⟨(h.1.process hc).1, (h.1.process hc).2.2 h.2⟩) ⟨hshared, hledger⟩ hcalls
  obtain ⟨-, -, freed, hdrop, hperm⟩ := dropRec_spec cfg.depth g.rootTable (run (step cfg arch g) r calls)
  have hinit : g.isInit = true := by
    cases hnew
    rfl
  refine ⟨freed, ?_, hperm.nodup_iff.mpr hshared'.nodup, hperm.symm.subset (mem_nodes_self _ _),
    hledger'.trans (hperm.symm.append_left _), fun f hf => ?_⟩
  · rw [drop, if_pos hinit]
    exact hdrop
  · exact hshared'.apart _ (hperm.subset (List.mem_map_of_mem hf))

/-- A kernel tree with the last page but one of the upper half mapped. -/
def kernelRam : Ram :=
  (mapPage twoLevels .amd64 ⟨0x1000, true⟩ 0xffffffffffffe000 0x5000 0b11 [some 0x2000] blankRoot).2

/-- That tree and a process root at `0x8000`. -/
def processRam : Ram where
  mem := ((kernelRam.mem.zero 0x8000 (pageEntries twoLevels)).copy 0x8000 0x1000 (pageEntries twoLevels)).zero
    0x8000 (twoLevels.entCnt 0 >>> 1)
  taken := [0x8000]
  freed := []

/-- A map that gets its table, one that gets none, and an unmap of a page that is not mapped. -/
def processCalls : List PageCall :=
  [.map 0x3000 0x5000 0b11 [some 0x9000], .map 0x200000 0x5000 0b11 [none], .unmap 0x7000]

theorem drop_exact_twoLevels :
    (drop twoLevels ⟨0x8000, true⟩ (run (step twoLevels .amd64 ⟨0x8000, true⟩) processRam processCalls)).freed.map
      Prod.fst = [0x9000, 0x8000] ∧
    ∃ freed, (drop twoLevels ⟨0x8000, true⟩
        (run (step twoLevels .amd64 ⟨0x8000, true⟩) processRam processCalls)).freed =
      (run (step twoLevels .amd64 ⟨0x8000, true⟩) processRam processCalls).freed ++ freed ∧
      (freed.map Prod.fst).Nodup := by
  obtain ⟨freed, hfreed, hnodup, -⟩ := @drop_exact twoLevels .amd64 ⟨0x1000, true⟩ ⟨0x8000, true⟩ 0x8000
    kernelRam.mem processRam processCalls (by decide +kernel) (by decide) (by decide +kernel) rfl
    ⟨⟨by decide, by decide +kernel⟩, ⟨by decide, by decide +kernel⟩, ⟨by decide, by decide +kernel⟩, trivial⟩ _ rfl
  exact ⟨by decide +kernel, freed, hfreed, hnodup⟩

/-! ### Interleavings -/

/-- On whose `Glacier` a call is made. -/
inductive Party where
  | kernel
  | process
  deriving DecidableEq, Repr

section Interleaving

variable (cfg : RvmCfg) (arch : Arch) (krvm g : Glacier)

/-- A call by either party. -/
def partyStep (r : Ram) : Party × PageCall → Ram
  | (.kernel, c) => step cfg arch krvm r c
  | (.process, c) => step cfg arch g r c

/-- The allocator hands out pages that are not in use, and the process keeps to low addresses. -/
def PartyCall (r : Ram) (c : Party × PageCall) : Prop :=
  Unshared cfg krvm g r c.2 ∧ (c.1 = .process → LowHalf cfg c.2.va)

variable {cfg arch krvm g}

theorem Shared.partyStep {e₀ : Nat → Word} {r : Ram} {c : Party × PageCall}
    (h : Shared cfg krvm g e₀ r.mem) (hc : PartyCall cfg krvm g r c) :
    Shared cfg krvm g e₀ (partyStep cfg arch krvm g r c).mem := by
  obtain ⟨party, c⟩ := c
  cases party with
  | kernel => exact h.kernelCall hc.1
  | process => exact (h.process ⟨hc.2 rfl, hc.1⟩).1

end Interleaving

theorem walk_of_root_eq {cfg : RvmCfg} {m : Mem} {root root' va : Word}
    (h : m (slot root (cfg.index cfg.depth va)) = m (slot root' (cfg.index cfg.depth va))) :
    walk cfg m root va = walk cfg m root' va := by
  rw [walk, walk]
  cases hd : cfg.depth with
  | zero =>
      rw [hd] at h
      rw [walkFrom, walkFrom, h]
  | succ d =>
      rw [hd] at h
      rw [walkFrom, walkFrom, edge, edge, h]

/-- Whatever the kernel and the process do in turn, a process call changes no translation of the kernel,
and an upper address whose entry in the kernel's root is the one it had when the process was made has
the same translation in both. At first the process has no low address mapped. -/
theorem shared_translation {cfg : RvmCfg} {arch : Arch} {krvm g : Glacier} {root : Word} {r₀ r : Ram}
    (hkernel : WellFormed cfg r₀.mem krvm.rootTable) (hroot : Aligned cfg root)
    (hunused : root ∉ tables cfg r₀.mem krvm.rootTable)
    (hnew : new cfg krvm (some root) r₀ = .ok (g, r)) :
    (∀ va, LowHalf cfg va → walk cfg r.mem g.rootTable va = none) ∧
    ∀ calls, Admits (partyStep cfg arch krvm g) (PartyCall cfg krvm g) r calls →
      ∀ r', r' = run (partyStep cfg arch krvm g) r calls →
        (∀ c, PartyCall cfg krvm g r' (.process, c) → ∀ va,
          walk cfg (partyStep cfg arch krvm g r' (.process, c)).mem krvm.rootTable va =
            walk cfg r'.mem krvm.rootTable va) ∧
        ∀ va, hihalf cfg ≤ va.toNat →
          r'.mem (slot krvm.rootTable (cfg.index cfg.depth va)) =
            r.mem (slot krvm.rootTable (cfg.index cfg.depth va)) →
          walk cfg r'.mem g.rootTable va = walk cfg r'.mem krvm.rootTable va := by
  obtain ⟨hshared, -, hlow, -, -⟩ := shared_new hkernel hroot hunused hnew
  refine ⟨hlow, fun calls hcalls => ?_⟩
  rintro r' rfl
  have hshared' := run_induction
    (P := fun r' => Shared cfg krvm g (fun i => r.mem (slot krvm.rootTable i)) r'.mem)
    (fun _ _ => Shared.partyStep) hshared hcalls
  refine ⟨fun c hc va => ?_, fun va hva hentry => ?_⟩
  · exact walkFrom_congr width_le_page (hshared'.process ⟨hc.2 rfl, hc.1⟩).2.1 (inWidth_width va)
  · have hi := Nat.lt_of_lt_of_le (cfg.index_lt (le_refl _) va) (width_le_page _)
    exact walk_of_root_eq ((hshared'.high _ (le_index_high hva) hi).trans hentry.symm)

/-- The kernel maps one more page below the shared entry; the process sees it. -/
theorem shared_translation_twoLevels :
    walk twoLevels (run (partyStep twoLevels .amd64 ⟨0x1000, true⟩ ⟨0x8000, true⟩) processRam
      [(.process, .map 0x3000 0x5000 0b11 [some 0x9000]),
        (.kernel, .map 0xffffffffffffd000 0x6000 0b11 [])]).mem 0x8000 0xffffffffffffd000 = some 0x6003 := by
  have htrans := (@shared_translation twoLevels .amd64 ⟨0x1000, true⟩ ⟨0x8000, true⟩ 0x8000
    ⟨kernelRam.mem, [], []⟩ processRam (by decide +kernel) (by decide) (by decide +kernel) rfl).2
    [(.process, .map 0x3000 0x5000 0b11 [some 0x9000]), (.kernel, .map 0xffffffffffffd000 0x6000 0b11 [])]
    ⟨⟨by decide +kernel, fun _ => by decide⟩, ⟨by decide +kernel, fun h => by cases h⟩, trivial⟩ _ rfl
  exact (htrans.2 0xffffffffffffd000 (by decide) (by decide +kernel)).trans (by decide +kernel)

end Glacier

end UnixKernel
