import Mathlib.Data.Finset.Card
import UnixKernel.Bitmap
import UnixKernel.Overflow
import UnixKernel.RamLayout
import UnixKernel.Runs

/-! `ApList` of `kargs.rs`, the virtual ids of the CPUs, and `stack_top` of `ram/mod.rs`, the stack that goes
with an id. `assign` takes the first clear bit of the bitmap; on an empty bitmap it takes the physical id
instead, whose own bit it does not set. It appends a word with bit 0 set each time, so at least as many
words as CPUs are there, the bitmap is never full, and the physical id is taken only where nobody holds
an id. That one id is the only one that can be given out twice. -/

namespace UnixKernel

open Bitmap Runs

/-- The bitmap, and the virtual ids by physical id. -/
structure ApList where
  bitmap : List (BitVec 64)
  phys2virt : List (Nat × Nat)
  deriving DecidableEq

namespace ApList

def new : ApList := ⟨[], []⟩

/-- The loop of `assign` from word `i` on: the first clear bit is set and numbered. -/
def scan : Nat → List (BitVec 64) → Option (Nat × List (BitVec 64))
  | _, [] => none
  | i, word :: rest =>
    if word ≠ BitVec.allOnes 64 then
      let bit := (~~~word).ctz.toNat
      some (i * 64 + bit, (word ||| 1#64 <<< bit) :: rest)
    else (scan (i + 1) rest).map fun r => (r.1, word :: r.2)

/-- `BTreeMap::insert`. -/
def insert (m : List (Nat × Nat)) (key val : Nat) : List (Nat × Nat) :=
  (key, val) :: m.filter (·.1 ≠ key)

/-- `ApList::assign` on the CPU with this physical id. -/
def assign (s : ApList) (physid : Nat) : Nat × ApList :=
  let r := (scan 0 s.bitmap).getD (physid, s.bitmap)
  (r.1, ⟨r.2 ++ [1#64], insert s.phys2virt physid r.1⟩)

def clearBit (bm : List (BitVec 64)) (vid : Nat) : List (BitVec 64) :=
  if vid / 64 < bm.length then bm.modify (vid / 64) (· &&& ~~~(1#64 <<< (vid % 64))) else bm

def popZero (bm : List (BitVec 64)) : List (BitVec 64) :=
  if bm.getLast? = some 0 then bm.dropLast else bm

/-- `ApList::release`. -/
def release (s : ApList) (vid : Nat) : ApList :=
  ⟨popZero (clearBit s.bitmap vid), s.phys2virt.filter (·.2 ≠ vid)⟩

/-- `ApList::virtid_self` on the CPU with this physical id. -/
def virtidSelf (s : ApList) (physid : Nat) : Nat := (s.phys2virt.lookup physid).getD 0

def perCpuData (page : BPage) : Nat := max (page.size <<< 4) 0x40000

def gleamBase (page : BPage) : Nat := (2 ^ 64 - perCpuData page) % 2 ^ 64

/-- `stack_top` on the CPU with this physical id. -/
def stackTop (profile : Profile) (page : BPage) (s : ApList) (physid : Nat) : Except Unit Nat := do
  let off ← profile.fit () 64 ((virtidSelf s physid * perCpuData page : Nat) : Int)
  profile.fit () 64 ((gleamBase page : Int) - off)

inductive Call where
  | assign (physid : Nat)
  | release (vid : Nat)
  deriving DecidableEq

def step (s : ApList) : Call → ApList
  | .assign physid => (assign s physid).2
  | .release vid => release s vid

/-- Some CPU holds the id. -/
def Held (s : ApList) (v : Nat) : Prop := ∃ physid, (physid, v) ∈ s.phys2virt

/-- CPUs that hold no id ask for one, and ids that are held are released. -/
def Possible (s : ApList) : Call → Prop
  | .assign physid => ∀ e ∈ s.phys2virt, e.1 ≠ physid
  | .release vid => ∃ e ∈ s.phys2virt, e.2 = vid

instance (s : ApList) : (c : Call) → Decidable (Possible s c)
  | .assign physid => inferInstanceAs (Decidable (∀ e ∈ s.phys2virt, e.1 ≠ physid))
  | .release vid => inferInstanceAs (Decidable (∃ e ∈ s.phys2virt, e.2 = vid))

/-- No id is held by two CPUs. -/
def Distinct (s : ApList) : Prop :=
  ∀ c c' v, (c, v) ∈ s.phys2virt → (c', v) ∈ s.phys2virt → c = c'

/-- Every CPU with an id has a stack, and the regions of two CPUs do not overlap. -/
def Separate (profile : Profile) (page : BPage) (s : ApList) : Prop :=
  ∀ c c' v v', (c, v) ∈ s.phys2virt → (c', v') ∈ s.phys2virt → c ≠ c' →
    ∃ top top', stackTop profile page s c = .ok top ∧ stackTop profile page s c' = .ok top' ∧
      (top + perCpuData page ≤ top' ∨ top' + perCpuData page ≤ top)

/-- Below a held id without a bit of its own, unless it is the first of a word, some id that is not
the first of a word is free. -/
def Roomy (s : ApList) : Call → Prop
  | .assign _ => ∀ p, Held s p → marked s.bitmap p = false → p % 64 ≠ 0 →
      ∃ v, v < p ∧ v % 64 ≠ 0 ∧ ¬Held s v
  | .release _ => True

/-! ### The bitmap -/

theorem getLsbD_one_shiftLeft {bit j : Nat} (hj : j < 64) :
    (1#64 <<< bit).getLsbD j = decide (j = bit) := by
  rw [BitVec.getLsbD_shiftLeft, BitVec.getLsbD_one]
  by_cases h : j = bit
  · simp [h]
    omega
  · simp [h]
    omega

/-- A word that is not full has its first clear bit where the source finds it. -/
theorem ctz_not {word : BitVec 64} (h : word ≠ BitVec.allOnes 64) :
    (~~~word).ctz.toNat < 64 ∧ word.getLsbD (~~~word).ctz.toNat = false ∧
      ∀ j, j < (~~~word).ctz.toNat → word.getLsbD j = true := by
  have hne : ~~~word ≠ 0#64 := by
    intro hzero
    apply h
    rw [← BitVec.not_not (b := word), hzero]
    rfl
  have hset := BitVec.getLsbD_true_ctz_of_ne_zero hne
  have hlt : (~~~word).ctz.toNat < 64 := BitVec.lt_of_getLsbD hset
  refine ⟨hlt, ?_, fun j hj => ?_⟩
  · simpa [hlt] using hset
  · have hclear := BitVec.getLsbD_false_of_lt_ctz hj
    have hj' : j < 64 := hj.trans hlt
    simpa [hj'] using hclear

theorem scan_eq_some {i n : Nat} {bm bm' : List (BitVec 64)} (h : scan i bm = some (n, bm')) :
    ∃ m, n = i * 64 + m ∧ LowestClear bm m ∧ bm'.length = bm.length ∧
      ∀ v, marked bm' v = (marked bm v || decide (v = m)) := by
  induction bm generalizing i n bm' with
  | nil => simp [scan] at h
  | cons word rest ih =>
    simp only [scan] at h
    split_ifs at h with hfull
    · obtain ⟨rfl, rfl⟩ := Prod.mk.inj (Option.some.inj h)
      obtain ⟨hlt, hclear, hbelow⟩ := ctz_not hfull
      refine ⟨_, rfl, ⟨?_, ?_, fun v hv => ?_⟩, by simp, fun v => ?_⟩
      · simp only [List.length_cons]
        omega
      · rwa [marked_cons (by decide), if_pos hlt]
      · rw [marked_cons (by decide), if_pos (by omega)]
        exact hbelow v hv
      · rw [marked_cons (by decide), marked_cons (by decide)]
        split_ifs with hv
        · rw [BitVec.getLsbD_or, getLsbD_one_shiftLeft hv]
        · simp [show v ≠ (~~~word).ctz.toNat by omega]
    · -- every bit of a full word is set, so the rest decides
      obtain ⟨⟨n', rest'⟩, hrest, heq⟩ := Option.map_eq_some_iff.1 h
      obtain ⟨rfl, rfl⟩ := Prod.mk.inj heq
      obtain ⟨m, rfl, hlow, hlen, hmarked⟩ := ih hrest
      simp only [ne_eq, not_not] at hfull
      refine ⟨m + 64, by omega, ⟨?_, ?_, fun v hv => ?_⟩, by simp [hlen], fun v => ?_⟩
      · have := hlow.lt
        simp only [List.length_cons]
        omega
      · rw [marked_cons (by decide), if_neg (by omega), Nat.add_sub_cancel]
        exact hlow.clear
      · rw [marked_cons (by decide)]
        split_ifs with hlt
        · rw [hfull, BitVec.getLsbD_allOnes, decide_eq_true hlt]
        · exact hlow.below _ (by omega)
      · rw [marked_cons (by decide), marked_cons (by decide)]
        split_ifs with hlt
        · simp [show v ≠ m + 64 by omega]
        · rw [hmarked]
          congr 1
          rw [decide_eq_decide]
          omega

theorem scan_eq_none {i : Nat} {bm : List (BitVec 64)} (h : scan i bm = none) {v : Nat}
    (hv : v / 64 < bm.length) : marked bm v = true := by
  induction bm generalizing i v with
  | nil => simp at hv
  | cons word rest ih =>
    simp only [scan] at h
    split_ifs at h with hfull
    simp only [ne_eq, not_not] at hfull
    rw [marked_cons (by decide)]
    split_ifs with hlt
    · rw [hfull, BitVec.getLsbD_allOnes, decide_eq_true hlt]
    · simp only [List.length_cons] at hv
      exact ih (Option.map_eq_none_iff.1 h) (by omega)

theorem marked_push (bm : List (BitVec 64)) (v : Nat) :
    marked (bm ++ [1#64]) v = (marked bm v || decide (v = 64 * bm.length)) := by
  rw [marked_concat]
  split_ifs with h
  · rw [marked_of_length_le (by omega), Bool.false_or, BitVec.getLsbD_one]
    simp only [Nat.zero_lt_succ, decide_true, Bool.true_and, decide_eq_decide]
    omega
  · simp [show v ≠ 64 * bm.length by omega]

theorem marked_clearBit (bm : List (BitVec 64)) (vid v : Nat) :
    marked (clearBit bm vid) v = (marked bm v && decide (v ≠ vid)) := by
  unfold clearBit
  split_ifs with hlt
  · rw [marked_modify hlt]
    split_ifs with h
    · rw [BitVec.getLsbD_and, BitVec.getLsbD_not, getLsbD_one_shiftLeft (Nat.mod_lt _ (by decide)), marked, h]
      have hmod : v % 64 = vid % 64 ↔ v = vid := by omega
      simp [hmod, Nat.mod_lt]
    · simp [show v ≠ vid by rintro rfl; exact h rfl]
  · by_cases heq : v = vid
    · subst heq
      simp [marked_of_length_le (show bm.length ≤ v / 64 by omega)]
    · simp [heq]

theorem marked_popZero (bm : List (BitVec 64)) (v : Nat) : marked (popZero bm) v = marked bm v := by
  unfold popZero
  split_ifs with h
  · exact marked_dropLast h
  · rfl

theorem marked_release (s : ApList) (vid v : Nat) :
    marked (release s vid).bitmap v = (marked s.bitmap v && decide (v ≠ vid)) :=
  (marked_popZero _ v).trans (marked_clearBit _ vid v)

theorem length_le_popZero (bm : List (BitVec 64)) : bm.length ≤ (popZero bm).length + 1 := by
  unfold popZero
  split_ifs
  · rw [List.length_dropLast]
    omega
  · omega

theorem popZero_length_le (bm : List (BitVec 64)) : (popZero bm).length ≤ bm.length := by
  unfold popZero
  split_ifs
  · rw [List.length_dropLast]
    omega
  · exact le_rfl

theorem length_clearBit (bm : List (BitVec 64)) (vid : Nat) : (clearBit bm vid).length = bm.length := by
  unfold clearBit
  split_ifs <;> simp

/-! ### Ids -/

theorem insert_eq {m : List (Nat × Nat)} {key : Nat} (hfresh : ∀ e ∈ m, e.1 ≠ key) (val : Nat) :
    insert m key val = (key, val) :: m := by
  rw [insert, List.filter_eq_self.2 fun e he => by simpa using hfresh e he]

theorem mem_release {s : ApList} {vid c v : Nat} :
    (c, v) ∈ (release s vid).phys2virt ↔ (c, v) ∈ s.phys2virt ∧ v ≠ vid := by
  simp [release]

theorem le_length_of_held {s : ApList} {n : Nat} {f : Nat → Nat} (hf : Function.Injective f)
    (h : ∀ i, i < n → Held s (f i)) : n ≤ s.phys2virt.length := by
  have hsub : (Finset.range n).image f ⊆ (s.phys2virt.map Prod.snd).toFinset := by
    intro v hv
    obtain ⟨i, hi, rfl⟩ := Finset.mem_image.1 hv
    obtain ⟨c, hc⟩ := h i (Finset.mem_range.1 hi)
    rw [List.mem_toFinset, List.mem_map]
    exact ⟨(c, f i), hc, rfl⟩
  calc n = ((Finset.range n).image f).card := by
        rw [Finset.card_image_of_injective _ hf, Finset.card_range]
    _ ≤ (s.phys2virt.map Prod.snd).toFinset.card := Finset.card_le_card hsub
    _ ≤ (s.phys2virt.map Prod.snd).length := List.toFinset_card_le _
    _ = s.phys2virt.length := List.length_map _

/-- All ids have their bits, or all but that of one CPU, which has the id `p` without a bit; then the
other ids are not the first ones of a word, whose bits are all set. -/
inductive Bits (s : ApList) : Prop where
  | all (h : ∀ c v, (c, v) ∈ s.phys2virt → marked s.bitmap v = true)
  | but (c p : Nat) (hc : (c, p) ∈ s.phys2virt) (hp : marked s.bitmap p = false)
      (hothers : ∀ c' v, (c', v) ∈ s.phys2virt → c' ≠ c → marked s.bitmap v = true ∧ v % 64 ≠ 0)
      (hfirst : ∀ i, i < s.bitmap.length → marked s.bitmap (64 * i) = true)

structure Sound (s : ApList) : Prop where
  keys : (s.phys2virt.map Prod.fst).Nodup
  distinct : Distinct s
  count : s.phys2virt.length ≤ s.bitmap.length
  held : ∀ v, marked s.bitmap v = true → v % 64 ≠ 0 → Held s v
  bits : Bits s

theorem Sound.scan_ne_none {s : ApList} (h : Sound s) (hscan : scan 0 s.bitmap = none) :
    s.bitmap = [] ∧ s.phys2virt = [] := by
  have hinj : Function.Injective fun j => 64 * (j / 2) + 1 + j % 2 := by
    intro j j' hj
    simp only at hj
    omega
  have hle : 2 * s.bitmap.length ≤ s.phys2virt.length := by
    refine le_length_of_held hinj fun j hj => h.held _ ?_ ?_
    · exact scan_eq_none hscan (by omega)
    · omega
  have hcount := h.count
  have hlen : s.bitmap.length = 0 := by omega
  exact ⟨List.length_eq_zero_iff.1 hlen, List.length_eq_zero_iff.1 (by omega)⟩

/-- A held id whose bit is clear is the first clear bit exactly when all ids below it that are not the
first ones of a word are held. -/
theorem Sound.lowestClear_iff {s : ApList} (h : Sound s) {p : Nat} (hheld : Held s p)
    (hclear : marked s.bitmap p = false) :
    LowestClear s.bitmap p ↔ p % 64 ≠ 0 ∧ ∀ v, v < p → v % 64 ≠ 0 → Held s v := by
  obtain ⟨c, hc⟩ := hheld
  cases h.bits with
  | all hall => simp [hall c p hc] at hclear
  | but c₀ p₀ hc₀ hp₀ hothers hfirst =>
    have hcc : c = c₀ := by
      by_contra hne
      simp [(hothers c p hc hne).1] at hclear
    constructor
    · intro hlow
      refine ⟨fun hmod => ?_, fun v hv hmod => h.held v (hlow.below v hv) hmod⟩
      have := hfirst (p / 64) hlow.lt
      rw [show 64 * (p / 64) = p by omega] at this
      simp [hclear] at this
    · rintro ⟨hmod, hall⟩
      -- as many other ids as words would be held if the word of `p` did not exist
      have hlt : p / 64 < s.bitmap.length := by
        by_contra hge
        let f := fun i => if i < s.bitmap.length then 64 * i + 1 else p + (i - s.bitmap.length)
        have hinj : Function.Injective f := by
          intro i i' hi
          simp only [f] at hi
          split_ifs at hi <;> omega
        have hle : s.bitmap.length + 1 ≤ s.phys2virt.length := by
          refine le_length_of_held hinj fun i hi => ?_
          by_cases hlast : i < s.bitmap.length
          · simp only [f, if_pos hlast]
            exact hall _ (by omega) (by omega)
          · simp only [f, if_neg hlast]
            exact ⟨c, by rwa [show p + (i - s.bitmap.length) = p by omega]⟩
        have := h.count
        omega
      refine ⟨hlt, hclear, fun v hv => ?_⟩
      by_cases hmod' : v % 64 = 0
      · have := hfirst (v / 64) (by omega)
        rwa [show 64 * (v / 64) = v by omega] at this
      · obtain ⟨c', hc'⟩ := hall v hv hmod'
        apply (hothers c' v hc' _).1
        rintro rfl
        obtain rfl : c = c' := hcc
        have := List.inj_on_of_nodup_map h.keys hc hc' rfl
        simp only [Prod.mk.injEq] at this
        omega

theorem Sound.virtid_unique {s : ApList} (h : Sound s) {c v v' : Nat} (hv : (c, v) ∈ s.phys2virt)
    (hv' : (c, v') ∈ s.phys2virt) : v = v' :=
  congrArg Prod.snd (List.inj_on_of_nodup_map h.keys hv hv' rfl)

/-- What `assign` does: on an empty list it gives out the physical id, otherwise the first clear bit. -/
theorem Sound.assign_cases {s : ApList} (h : Sound s) {physid : Nat}
    (hfresh : Possible s (.assign physid)) :
    s = new ∧ assign s physid = (physid, ⟨[1#64], [(physid, physid)]⟩) ∨
      ∃ n bm, LowestClear s.bitmap n ∧ assign s physid = (n, ⟨bm, (physid, n) :: s.phys2virt⟩) ∧
        bm.length = s.bitmap.length + 1 ∧
        ∀ v, marked bm v = (marked s.bitmap v || decide (v = n) || decide (v = 64 * s.bitmap.length)) := by
  cases hscan : scan 0 s.bitmap with
  | none =>
    obtain ⟨hbm, hmap⟩ := h.scan_ne_none hscan
    obtain ⟨bitmap, phys2virt⟩ := s
    subst hbm hmap
    exact .inl ⟨rfl, rfl⟩
  | some r =>
    obtain ⟨n, bm⟩ := r
    obtain ⟨m, rfl, hlow, hlen, hmarked⟩ := scan_eq_some hscan
    rw [Nat.zero_mul, Nat.zero_add] at hscan
    refine .inr ⟨m, bm ++ [1#64], hlow, ?_, by simp [hlen], fun v => ?_⟩
    · simp [assign, hscan, insert_eq hfresh]
    · rw [marked_push, hmarked, hlen]

theorem Sound.not_held {s : ApList} (h : Sound s) {physid n : Nat} (hroomy : Roomy s (.assign physid))
    (hlow : LowestClear s.bitmap n) : ¬Held s n := by
  intro hheld
  obtain ⟨hmod, hall⟩ := (h.lowestClear_iff hheld hlow.clear).1 hlow
  obtain ⟨v, hv, hmod', hfree⟩ := hroomy n hheld hlow.clear hmod
  exact hfree (hall v hv hmod')

theorem sound_first (physid : Nat) : Sound ⟨[1#64], [(physid, physid)]⟩ := by
  have hmarked : ∀ v, marked [1#64] v = decide (v = 0) := fun v => by
    simpa [marked] using marked_push [] v
  refine ⟨by simp, ?_, by simp, ?_, ?_⟩
  · simp only [Distinct, List.mem_singleton, Prod.mk.injEq]
    omega
  · intro v hv hmod
    rw [hmarked, decide_eq_true_eq] at hv
    simp [hv] at hmod
  · by_cases hzero : physid = 0
    · apply Bits.all
      simp [hmarked, hzero]
    · apply Bits.but physid physid (by simp)
      · simp [hmarked, hzero]
      · simp only [List.mem_singleton, Prod.mk.injEq]
        omega
      · simp [hmarked]

/-- A free number joins, with its bit. -/
theorem Sound.extend {s : ApList} (h : Sound s) {physid n : Nat} {bm : List (BitVec 64)}
    (hfresh : Possible s (.assign physid)) (hlow : LowestClear s.bitmap n) (hnot : ¬Held s n)
    (hlen : bm.length = s.bitmap.length + 1)
    (hmarked : ∀ v, marked bm v =
      (marked s.bitmap v || decide (v = n) || decide (v = 64 * s.bitmap.length))) :
    Sound ⟨bm, (physid, n) :: s.phys2virt⟩ := by
  have hold : ∀ v, marked s.bitmap v = true → marked bm v = true := fun v hv => by simp [hmarked, hv]
  have hnew : marked bm n = true := by simp [hmarked]
  constructor
  · rw [List.map_cons, List.nodup_cons, List.mem_map]
    exact ⟨fun ⟨e, he, hkey⟩ => hfresh e he hkey, h.keys⟩
  · intro c c' v hc hc'
    simp only [List.mem_cons, Prod.mk.injEq] at hc hc'
    obtain ⟨rfl, rfl⟩ | hc := hc <;> obtain ⟨rfl, heq⟩ | hc' := hc'
    · rfl
    · exact absurd ⟨c', hc'⟩ hnot
    · exact absurd ⟨c, heq ▸ hc⟩ hnot
    · exact h.distinct c c' v hc hc'
  · have := h.count
    simp only [List.length_cons, hlen]
    omega
  · intro v hv hmod
    rw [hmarked, Bool.or_eq_true, Bool.or_eq_true, decide_eq_true_eq, decide_eq_true_eq] at hv
    obtain (hv | rfl) | rfl := hv
    · obtain ⟨c, hc⟩ := h.held v hv hmod
      exact ⟨c, List.mem_cons_of_mem _ hc⟩
    · exact ⟨physid, List.mem_cons_self⟩
    · simp at hmod
  · cases h.bits with
    | all hall =>
      apply Bits.all
      intro c v hc
      simp only [List.mem_cons, Prod.mk.injEq] at hc
      obtain ⟨-, rfl⟩ | hc := hc
      · exact hnew
      · exact hold v (hall c v hc)
    | but c p hc hp hothers hfirst =>
      have hpn : p ≠ n := by
        rintro rfl
        exact hnot ⟨c, hc⟩
      by_cases hlast : p = 64 * s.bitmap.length
      · -- the word just appended marks `p`
        apply Bits.all
        intro c' v hc'
        simp only [List.mem_cons, Prod.mk.injEq] at hc'
        obtain ⟨-, rfl⟩ | hc' := hc'
        · exact hnew
        · by_cases hcc : c' = c
          · subst hcc
            simp [h.virtid_unique hc' hc, hmarked, hlast]
          · exact hold v (hothers c' v hc' hcc).1
      · apply Bits.but c p (List.mem_cons_of_mem _ hc)
        · simp [hmarked, hp, hpn, hlast]
        · intro c' v hc' hne
          simp only [List.mem_cons, Prod.mk.injEq] at hc'
          obtain ⟨-, rfl⟩ | hc' := hc'
          · refine ⟨hnew, fun hmod => ?_⟩
            have := hfirst (v / 64) hlow.lt
            rw [show 64 * (v / 64) = v by omega, hlow.clear] at this
            contradiction
          · exact ⟨hold v (hothers c' v hc' hne).1, (hothers c' v hc' hne).2⟩
        · intro i hi
          by_cases hi' : i = s.bitmap.length
          · simp [hmarked, hi']
          · exact hold _ (hfirst i (by simp only [hlen] at hi; omega))

theorem Sound.assign {s : ApList} (h : Sound s) {physid : Nat} (hfresh : Possible s (.assign physid))
    (hroomy : Roomy s (.assign physid)) : Sound (assign s physid).2 := by
  obtain ⟨-, heq⟩ | ⟨n, bm, hlow, heq, hlen, hmarked⟩ := h.assign_cases hfresh <;> rw [heq]
  · exact sound_first physid
  · exact h.extend hfresh hlow (h.not_held hroomy hlow) hlen hmarked

theorem Sound.release {s : ApList} (h : Sound s) {vid : Nat} (hheld : Possible s (.release vid)) :
    Sound (release s vid) := by
  obtain ⟨⟨c₀, v₀⟩, hc₀, hv₀⟩ := hheld
  obtain rfl : vid = v₀ := hv₀.symm
  have hmarked := marked_release s vid
  have hkeep : ∀ v, v ≠ vid → marked s.bitmap v = true → marked (ApList.release s vid).bitmap v = true :=
    fun v hne hv => by simp [hmarked, hne, hv]
  have hlen : (ApList.release s vid).bitmap.length ≤ s.bitmap.length :=
    (popZero_length_le _).trans_eq (length_clearBit _ _)
  constructor
  · exact h.keys.sublist (List.filter_sublist.map _)
  · intro c c' v hc hc'
    exact h.distinct c c' v (mem_release.1 hc).1 (mem_release.1 hc').1
  · have hlt : (ApList.release s vid).phys2virt.length < s.phys2virt.length := by
      apply List.length_filter_lt_length_iff_exists.2
      exact ⟨(c₀, vid), hc₀, by simp⟩
    have hpop := length_le_popZero (clearBit s.bitmap vid)
    rw [length_clearBit] at hpop
    have := h.count
    change _ ≤ (popZero (clearBit s.bitmap vid)).length
    omega
  · intro v hv hmod
    simp only [hmarked, Bool.and_eq_true, decide_eq_true_eq] at hv
    obtain ⟨c, hc⟩ := h.held v hv.1 hmod
    exact ⟨c, mem_release.2 ⟨hc, hv.2⟩⟩
  · cases h.bits with
    | all hall =>
      apply Bits.all
      intro c v hc
      obtain ⟨hc, hne⟩ := mem_release.1 hc
      exact hkeep v hne (hall c v hc)
    | but c p hc hp hothers hfirst =>
      by_cases hvp : vid = p
      · -- the id without a bit is the one that goes
        apply Bits.all
        intro c' v hc'
        obtain ⟨hc', hne⟩ := mem_release.1 hc'
        apply hkeep v hne
        apply (hothers c' v hc' _).1
        rintro rfl
        exact hne ((h.virtid_unique hc' hc).trans hvp.symm)
      · have hmod : vid % 64 ≠ 0 := by
          apply (hothers c₀ vid hc₀ _).2
          rintro rfl
          exact hvp (h.virtid_unique hc₀ hc)
        apply Bits.but c p (mem_release.2 ⟨hc, Ne.symm hvp⟩)
        · simp [hmarked, hp]
        · intro c' v hc' hne
          obtain ⟨hc', hnev⟩ := mem_release.1 hc'
          exact ⟨hkeep v hnev (hothers c' v hc' hne).1, (hothers c' v hc' hne).2⟩
        · intro i hi
          apply hkeep _ _ (hfirst i (by omega))
          rintro rfl
          simp at hmod

theorem Sound.step {s : ApList} (h : Sound s) {c : Call} (hc : Possible s c) (hroomy : Roomy s c) :
    Sound (step s c) := by
  cases c with
  | assign physid => exact h.assign hc hroomy
  | release vid => exact h.release hc

/-- Without room, `assign` gives out an id that is held. -/
theorem Sound.roomy {s : ApList} (h : Sound s) {c : Call} (hc : Possible s c)
    (hclash : ∀ physid v, c = .assign physid → Held s v → (ApList.assign s physid).1 ≠ v) : Roomy s c := by
  cases c with
  | release vid => trivial
  | assign physid =>
    intro p hheld hclear hmod
    by_contra hnone
    have hlow : LowestClear s.bitmap p := by
      refine (h.lowestClear_iff hheld hclear).2 ⟨hmod, fun v hv hv' => ?_⟩
      by_contra hfree
      exact hnone ⟨v, hv, hv', hfree⟩
    obtain ⟨rfl, -⟩ | ⟨n, bm, hlow', heq, -, -⟩ := h.assign_cases hc
    · have := hlow.lt
      simp [new] at this
    · apply hclash physid p rfl hheld
      rw [heq]
      exact hlow'.unique hlow

theorem assign_phys2virt {s : ApList} {physid : Nat} (hfresh : Possible s (.assign physid)) :
    (assign s physid).2.phys2virt = (physid, (assign s physid).1) :: s.phys2virt :=
  insert_eq hfresh _

theorem Sound.roomy_of_distinct {s : ApList} (h : Sound s) {c : Call} (hc : Possible s c)
    (hdistinct : Distinct (ApList.step s c)) : Roomy s c := by
  apply h.roomy hc
  rintro physid v rfl ⟨other, hother⟩ heq
  have hmem := assign_phys2virt hc
  rw [heq] at hmem
  have hsame : physid = other := hdistinct physid other v (by simp [ApList.step, hmem])
    (by simp [ApList.step, hmem, hother])
  exact hc _ hother hsame.symm

/-! ### Stacks -/

/-- Physical ids as `phys_id` gives them, 16 bits on aarch64 and 8 on amd64, and small virtual ids. -/
def Small (s : ApList) : Prop := ∀ c v, (c, v) ∈ s.phys2virt → c < 2 ^ 16 ∧ v < 2 ^ 23

def InRange (c : Call) : Prop := ∀ physid, c = .assign physid → physid < 2 ^ 16

theorem Sound.length_le {s : ApList} (h : Sound s) (hsmall : Small s) : s.phys2virt.length ≤ 2 ^ 16 := by
  calc s.phys2virt.length = (s.phys2virt.map Prod.fst).length := (List.length_map _).symm
    _ = (s.phys2virt.map Prod.fst).toFinset.card := (List.toFinset_card_of_nodup h.keys).symm
    _ ≤ (Finset.range (2 ^ 16)).card := by
      apply Finset.card_le_card
      intro c hc
      obtain ⟨⟨c', v⟩, hmem, rfl⟩ := List.mem_map.1 (List.mem_toFinset.1 hc)
      exact Finset.mem_range.2 (hsmall c' v hmem).1
    _ = 2 ^ 16 := Finset.card_range _

theorem Sound.lowestClear_le {s : ApList} (h : Sound s) {n : Nat} (hlow : LowestClear s.bitmap n) :
    n / 64 ≤ s.phys2virt.length := by
  have hinj : Function.Injective fun i => 64 * i + 1 := by
    intro i i' hi
    simp only at hi
    omega
  refine le_length_of_held hinj fun i hi => h.held _ ?_ ?_
  · exact hlow.below _ (by omega)
  · omega

theorem Small.step {s : ApList} (hsmall : Small s) (h : Sound s) {c : Call} (hc : Possible s c)
    (hrange : InRange c) : Small (step s c) := by
  cases c with
  | release vid => exact fun c v hmem => hsmall c v (mem_release.1 hmem).1
  | assign physid =>
    have hphys := hrange physid rfl
    intro c v hmem
    rw [ApList.step, assign_phys2virt hc, List.mem_cons, Prod.mk.injEq] at hmem
    obtain ⟨rfl, rfl⟩ | hmem := hmem
    · refine ⟨hphys, ?_⟩
      obtain ⟨-, heq⟩ | ⟨n, bm, hlow, heq, -, -⟩ := h.assign_cases hc <;> rw [heq]
      · simp only
        omega
      · have := h.lowestClear_le hlow
        have := h.length_le hsmall
        simp only
        omega
    · exact hsmall c v hmem

theorem perCpuData_bounds (page : BPage) : 0 < perCpuData page ∧ perCpuData page ≤ 2 ^ 20 := by
  cases page <;> decide

theorem virtidSelf_of_mem {s : ApList} (hkeys : (s.phys2virt.map Prod.fst).Nodup) {c v : Nat}
    (h : (c, v) ∈ s.phys2virt) : virtidSelf s c = v := by
  obtain ⟨bitmap, m⟩ := s
  simp only [virtidSelf] at hkeys h ⊢
  induction m with
  | nil => simp at h
  | cons e m ih =>
    rw [List.map_cons, List.nodup_cons] at hkeys
    obtain rfl | h := List.mem_cons.1 h
    · rw [List.lookup_cons_self, Option.getD_some]
    · have hne : c ≠ e.1 := by
        rintro rfl
        exact hkeys.1 (List.mem_map.2 ⟨_, h, rfl⟩)
      rw [List.lookup_cons, beq_false_of_ne hne]
      exact ih hkeys.2 h

theorem stackTop_eq (profile : Profile) (page : BPage) {s : ApList} {c : Nat}
    (hv : virtidSelf s c < 2 ^ 23) :
    stackTop profile page s c = .ok (2 ^ 64 - (virtidSelf s c + 1) * perCpuData page) := by
  obtain ⟨hpos, hle⟩ := perCpuData_bounds page
  have hoff : virtidSelf s c * perCpuData page ≤ 2 ^ 43 := by
    calc virtidSelf s c * perCpuData page ≤ 2 ^ 23 * 2 ^ 20 := Nat.mul_le_mul hv.le hle
      _ = 2 ^ 43 := by decide
  have hgleam : gleamBase page = 2 ^ 64 - perCpuData page := Nat.mod_eq_of_lt (by omega)
  have hmul : (virtidSelf s c + 1) * perCpuData page = virtidSelf s c * perCpuData page + perCpuData page :=
    Nat.succ_mul _ _
  rw [stackTop, Profile.fit_of_lt (by omega), ok_bind, ← Int.ofNat_sub (by omega),
    Profile.fit_of_lt (by omega), hgleam, hmul]
  congr 1
  omega

theorem Sound.separate {s : ApList} (h : Sound s) (hsmall : Small s) (profile : Profile) (page : BPage) :
    Separate profile page s := by
  intro c c' v v' hc hc' hne
  have hself := virtidSelf_of_mem h.keys hc
  have hself' := virtidSelf_of_mem h.keys hc'
  have hv := (hsmall c v hc).2
  have hv' := (hsmall c' v' hc').2
  refine ⟨_, _, stackTop_eq profile page (hself ▸ hv), stackTop_eq profile page (hself' ▸ hv'), ?_⟩
  rw [hself, hself']
  obtain ⟨hpos, hle⟩ := perCpuData_bounds page
  have hbound : ∀ n, n < 2 ^ 23 → (n + 1) * perCpuData page ≤ 2 ^ 43 := fun n hn =>
    (Nat.mul_le_mul hn hle).trans_eq (by decide)
  have := hbound v hv
  have := hbound v' hv'
  have hvv : v ≠ v' := by
    rintro rfl
    exact hne (h.distinct c c' v hc hc')
  obtain hlt | hlt := Nat.lt_or_gt_of_ne hvv
  · have := Nat.mul_le_mul_right (perCpuData page) (show v + 1 + 1 ≤ v' + 1 by omega)
    rw [Nat.add_mul, Nat.one_mul] at this
    omega
  · have := Nat.mul_le_mul_right (perCpuData page) (show v' + 1 + 1 ≤ v + 1 by omega)
    rw [Nat.add_mul, Nat.one_mul] at this
    omega

theorem Sound.roomy_of_separate {s : ApList} (h : Sound s) {c : Call} (hc : Possible s c)
    {profile : Profile} {page : BPage} (hsep : Separate profile page (ApList.step s c)) : Roomy s c := by
  apply h.roomy hc
  rintro physid v rfl ⟨other, hother⟩ heq
  have hmem := assign_phys2virt hc
  rw [heq] at hmem
  have hne : physid ≠ other := (hc _ hother).symm
  have hkeys : ((ApList.step s (.assign physid)).phys2virt.map Prod.fst).Nodup := by
    rw [ApList.step, hmem, List.map_cons, List.nodup_cons, List.mem_map]
    exact ⟨fun ⟨e, he, hkey⟩ => hc e he hkey, h.keys⟩
  have hphys : (physid, v) ∈ (ApList.step s (.assign physid)).phys2virt := by
    rw [ApList.step, hmem]
    exact List.mem_cons_self
  have hother' : (other, v) ∈ (ApList.step s (.assign physid)).phys2virt := by
    rw [ApList.step, hmem]
    exact List.mem_cons_of_mem _ hother
  obtain ⟨top, top', htop, htop', hapart⟩ := hsep physid other v v hphys hother' hne
  have hself := (virtidSelf_of_mem hkeys hphys).trans (virtidSelf_of_mem hkeys hother').symm
  rw [stackTop, hself, ← stackTop, htop', Except.ok.injEq] at htop
  have := (perCpuData_bounds page).1
  omega

/-! ### Whole runs -/

theorem sound_new : Sound new :=
  ⟨by simp [new], by simp [Distinct, new], by simp [new], by simp [marked, new], .all (by simp [new])⟩

/-- The ids held stay distinct exactly when there is room below the one id without a bit at every
`assign`; and with physical ids as `phys_id` gives them, so do the stacks of the CPUs. -/
theorem always_distinct_iff {calls : List Call} (hcalls : Admits step Possible new calls) :
    (Always step Distinct new calls ↔ Admits step Roomy new calls) ∧
      ((∀ c ∈ calls, InRange c) → ∀ profile page,
        Always step (Separate profile page) new calls ↔ Admits step Roomy new calls) := by
  constructor
  · have hkeep : ∀ s c, Sound s → Possible s c → Roomy s c → Sound (step s c) := fun _ _ h => h.step
    have hneeds : ∀ s c, Sound s → Possible s c → Distinct (step s c) → Roomy s c :=
      fun _ _ h => h.roomy_of_distinct
    exact always_iff_admits (fun _ => Sound.distinct) hkeep hneeds sound_new hcalls
  · intro hrange profile page
    have hsafe : ∀ s, Sound s ∧ Small s → Separate profile page s := fun _ h => h.1.separate h.2 _ _
    have hkeep : ∀ s c, Sound s ∧ Small s → Possible s c ∧ InRange c → Roomy s c →
        Sound (step s c) ∧ Small (step s c) :=
      fun _ _ h hc hroomy => ⟨h.1.step hc.1 hroomy, h.2.step h.1 hc.1 hc.2⟩
    have hneeds : ∀ s c, Sound s ∧ Small s → Possible s c ∧ InRange c → Separate profile page (step s c) →
        Roomy s c := fun _ _ h hc => h.1.roomy_of_separate hc.1
    have hstart : Sound new ∧ Small new := ⟨sound_new, by simp [Small, new]⟩
    exact always_iff_admits hsafe hkeep hneeds hstart (hcalls.and_forall hrange)

/-- Four CPUs that come and go with the boot CPU as number 0. -/
theorem always_distinct_four :
    let calls : List Call := [.assign 0, .assign 8, .assign 1, .release 1, .assign 5]
    Admits step Possible new calls ∧
      (Always step Distinct new calls ↔ Admits step Roomy new calls) ∧
        ∀ profile page, Always step (Separate profile page) new calls ↔ Admits step Roomy new calls := by
  have hcalls : Admits step Possible new [.assign 0, .assign 8, .assign 1, .release 1, .assign 5] := by
    decide +kernel
  obtain ⟨hids, hstacks⟩ := always_distinct_iff hcalls
  exact ⟨hcalls, hids, hstacks (by simp [InRange])⟩

/-- The first CPU has physical id 1 and keeps it; the second gets bit 1 of the first word. -/
theorem distinct_fails_boot_one :
    let calls : List Call := [.assign 1, .assign 0]
    let s := run step new calls
    Admits step Possible new calls ∧ s.phys2virt = [(0, 1), (1, 1)] ∧
      stackTop .dev .size4kiB s 0 = .ok 0xfffffffffff80000 ∧
      stackTop .dev .size4kiB s 1 = .ok 0xfffffffffff80000 := by
  decide +kernel

/-! ### CPUs that come and go -/

/-- A CPU gets an id and gives it back. -/
def visit (s : ApList) (physid : Nat) : ApList := release (assign s physid).2 (assign s physid).1

/-- On a full bitmap the CPU clears the bit of its physical id, and the first bit of the new word stays. -/
theorem marked_visit_of_full {s : ApList} (hfull : scan 0 s.bitmap = none) (physid v : Nat) :
    marked (visit s physid).bitmap v =
      ((marked s.bitmap v || decide (v = 64 * s.bitmap.length)) && decide (v ≠ physid)) := by
  have hassign : assign s physid = (physid, ⟨s.bitmap ++ [1#64], insert s.phys2virt physid physid⟩) := by
    simp [assign, hfull]
  rw [visit, hassign, marked_release, marked_push]

/-- With a free id the bit of the id is set and cleared again, and the first bit of the new word stays. -/
theorem marked_visit_of_free {s : ApList} {n : Nat} {bm : List (BitVec 64)} (hfree : scan 0 s.bitmap = some (n, bm))
    (physid v : Nat) : n < 64 * s.bitmap.length ∧ marked s.bitmap n = false ∧
      marked (visit s physid).bitmap v =
        ((marked s.bitmap v || decide (v = n) || decide (v = 64 * s.bitmap.length)) && decide (v ≠ n)) := by
  obtain ⟨m, rfl, hlow, hlen, hmarked⟩ := scan_eq_some hfree
  rw [Nat.zero_mul, Nat.zero_add] at hfree ⊢
  have hassign : assign s physid = (m, ⟨bm ++ [1#64], insert s.phys2virt physid m⟩) := by
    simp [assign, hfree]
  refine ⟨?_, hlow.clear, ?_⟩
  · have hlt := hlow.lt
    omega
  · rw [visit, hassign, marked_release, marked_push, hmarked, hlen]

/-- A CPU that gets an id and gives it back leaves the ids as they were exactly when every id of the bitmap is
taken and its physical id is the next one. -/
theorem visit_restores_iff (calls : List Call) (physid : Nat) :
    (∀ v, marked (visit (run step new calls) physid).bitmap v = marked (run step new calls).bitmap v) ↔
      (∀ v < 64 * (run step new calls).bitmap.length, marked (run step new calls).bitmap v = true) ∧
        physid = 64 * (run step new calls).bitmap.length := by
  generalize run step new calls = s
  have hbeyond : marked s.bitmap (64 * s.bitmap.length) = false := marked_of_length_le (by omega)
  cases hscan : scan 0 s.bitmap with
  | none =>
    have hfull : ∀ v < 64 * s.bitmap.length, marked s.bitmap v = true :=
      fun v hv => scan_eq_none hscan (by omega)
    constructor
    · intro h
      have hlast := h (64 * s.bitmap.length)
      rw [marked_visit_of_full hscan, hbeyond, decide_eq_true rfl, Bool.or_true, Bool.true_and,
        decide_eq_false_iff_not, not_not] at hlast
      exact ⟨hfull, hlast.symm⟩
    · rintro ⟨-, rfl⟩ v
      rw [marked_visit_of_full hscan]
      by_cases hv : v = 64 * s.bitmap.length
      · simp [hv, hbeyond]
      · simp [hv]
  | some r =>
    obtain ⟨n, bm⟩ := r
    obtain ⟨hlt, hclear, -⟩ := marked_visit_of_free hscan physid 0
    refine iff_of_false (fun h => ?_) fun h => ?_
    · -- the word that `assign` appends is never taken back
      have hlast := h (64 * s.bitmap.length)
      rw [(marked_visit_of_free hscan physid _).2.2, hbeyond, decide_eq_true rfl, Bool.or_true, Bool.true_and,
        decide_eq_false_iff_not] at hlast
      omega
    · rw [h.1 n hlt] at hclear
      contradiction

/-- CPU 1 comes twice while CPU 0 is there. Each time it gets id 1 and gives it back, and each time one more id
that nobody holds stays taken. -/
theorem visit_leaks :
    let s := run step new [.assign 0]
    Possible s (.assign 1) ∧ (assign s 1).1 = 1 ∧ marked s.bitmap 64 = false ∧
      marked (visit s 1).bitmap 64 = true ∧ (visit s 1).phys2virt = [(0, 0)] ∧
      marked (visit (visit s 1) 1).bitmap 128 = true ∧ (visit (visit s 1) 1).phys2virt = [(0, 0)] := by
  decide +kernel

end ApList

end UnixKernel
