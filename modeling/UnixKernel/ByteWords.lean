import Mathlib.Data.BitVec
import Mathlib.Data.List.Basic
import Mathlib.Tactic.IntervalCases

/-! Words of 64 bits in a memory of bytes, the lowest byte first, and lists of words that are put into it or
increased in place. -/

namespace UnixKernel.ByteWords

/-- A byte of a word. -/
def byteOf (w : BitVec 64) (i : Nat) : BitVec 8 := w.extractLsb' (8 * i) 8

def readWord (m : Nat → BitVec 8) (a : Nat) : BitVec 64 :=
  m (a + 7) ++ m (a + 6) ++ m (a + 5) ++ m (a + 4) ++ m (a + 3) ++ m (a + 2) ++ m (a + 1) ++ m a

def writeWord (m : Nat → BitVec 8) (a : Nat) (w : BitVec 64) : Nat → BitVec 8 := fun x =>
  if a ≤ x ∧ x < a + 8 then byteOf w (x - a) else m x

/-- The words at the two addresses do not overlap. -/
def Clear (a b : Nat) : Prop := a + 8 ≤ b ∨ b + 8 ≤ a

instance (a b : Nat) : Decidable (Clear a b) := inferInstanceAs (Decidable (_ ∨ _))

variable {m m' : Nat → BitVec 8} {a b x : Nat} {v w : BitVec 64}

theorem Clear.symm (h : Clear a b) : Clear b a := Or.symm h

theorem byteOf_readWord (m : Nat → BitVec 8) (a : Nat) {i : Nat} (hi : i < 8) :
    byteOf (readWord m a) i = m (a + i) := by
  unfold byteOf readWord
  -- one case for each byte, found behind the lower bytes
  interval_cases i <;>
    simp (disch := decide) only [BitVec.extractLsb'_append_eq_of_le, BitVec.extractLsb'_append_eq_of_add_le,
      Nat.add_zero] <;>
    exact BitVec.extractLsb'_eq_self

theorem eq_of_byteOf_eq (h : ∀ i < 8, byteOf v i = byteOf w i) : v = w := by
  apply BitVec.eq_of_getLsbD_eq
  intro j hj
  have hbyte := congrArg (fun b => b.getLsbD (j % 8)) (h (j / 8) (by omega))
  simp only [byteOf, BitVec.getLsbD_extractLsb'] at hbyte
  have hmod : j % 8 < 8 := Nat.mod_lt _ (by decide)
  rwa [Nat.div_add_mod, decide_eq_true hmod, Bool.true_and, Bool.true_and] at hbyte

theorem readWord_congr (h : ∀ i < 8, m (a + i) = m' (b + i)) : readWord m a = readWord m' b := by
  apply eq_of_byteOf_eq
  intro i hi
  rw [byteOf_readWord m a hi, byteOf_readWord m' b hi, h i hi]

theorem writeWord_other (h : x < a ∨ a + 8 ≤ x) : writeWord m a w x = m x := if_neg (by omega)

@[simp] theorem readWord_writeWord : readWord (writeWord m a w) a = w := by
  apply eq_of_byteOf_eq
  intro i hi
  rw [byteOf_readWord _ _ hi, writeWord, if_pos (by omega), Nat.add_sub_cancel_left]

theorem readWord_writeWord_of_clear (h : Clear a b) : readWord (writeWord m b w) a = readWord m a := by
  apply readWord_congr
  intro i hi
  unfold Clear at h
  exact writeWord_other (by omega)

/-! ### Spans of bytes -/

/-- The word at `a` does not reach into the span of `s.2` bytes at `s.1`. -/
def Misses (a : Nat) (s : Nat × Nat) : Prop := a + 8 ≤ s.1 ∨ s.1 + s.2 ≤ a

instance (a : Nat) (s : Nat × Nat) : Decidable (Misses a s) := inferInstanceAs (Decidable (_ ∨ _))

theorem Misses.sub {n k l : Nat} (h : Misses a (b, n)) (hl : k + l ≤ n) : Misses a (b + k, l) := by
  simp only [Misses] at h ⊢
  omega

theorem Misses.shift {s : Nat × Nat} (h : Misses a s) (base : Nat) : Misses (base + a) (base + s.1, s.2) := by
  simp only [Misses] at h ⊢
  omega

/-- The `n` bytes at `a` in the first memory are those at `b` in the second. -/
def Same (m : Nat → BitVec 8) (a : Nat) (m' : Nat → BitVec 8) (b n : Nat) : Prop := ∀ i < n, m (a + i) = m' (b + i)

namespace Same

variable {n k : Nat}

theorem symm (h : Same m a m' b n) : Same m' b m a n := fun i hi => (h i hi).symm

theorem trans {m'' : Nat → BitVec 8} {c : Nat} (h : Same m a m' b n) (h' : Same m' b m'' c n) : Same m a m'' c n :=
  fun i hi => (h i hi).trans (h' i hi)

theorem mono (h : Same m a m' b n) (hk : k ≤ n) : Same m a m' b k := fun i hi => h i (Nat.lt_of_lt_of_le hi hk)

theorem sub (h : Same m a m' b n) {l : Nat} (hl : k + l ≤ n) : Same m (a + k) m' (b + k) l := by
  intro i hi
  rw [Nat.add_assoc, Nat.add_assoc]
  exact h (k + i) (by omega)

theorem readWord (h : Same m a m' b n) (hk : k + 8 ≤ n) : readWord m (a + k) = readWord m' (b + k) :=
  readWord_congr (h.sub hk)

end Same

theorem same_writeWord {n : Nat} (h : Misses a (b, n)) : Same (writeWord m a w) b m b n := by
  intro i hi
  unfold Misses at h
  exact writeWord_other (by omega)

/-! ### A part of memory, counted from its first byte -/

def view (base : Nat) (m : Nat → BitVec 8) : Nat → BitVec 8 := fun i => m (base + i)

variable {base : Nat}

theorem same_view {n : Nat} : Same (view base m) a m (base + a) n := fun i _ => congrArg m (Nat.add_assoc base a i).symm

theorem Clear.shift (h : Clear a b) (base : Nat) : Clear (base + a) (base + b) := by
  unfold Clear at h ⊢
  omega

theorem readWord_view : readWord (view base m) a = readWord m (base + a) := readWord_congr same_view

theorem view_writeWord : view base (writeWord m (base + a) w) = writeWord (view base m) a w := by
  funext x
  have hsub : base + x - (base + a) = x - a := Nat.add_sub_add_left base x a
  have hiff : (base + a ≤ base + x ∧ base + x < base + a + 8) ↔ (a ≤ x ∧ x < a + 8) := by omega
  simp only [view, writeWord, hsub, hiff]

/-! ### Lists of words -/

/-- Words put into memory one after the other. -/
def patch (m : Nat → BitVec 8) (ts : List (Nat × BitVec 64)) : Nat → BitVec 8 :=
  ts.foldl (fun m t => writeWord m t.1 t.2) m

/-- Words increased in place one after the other. -/
def bump (m : Nat → BitVec 8) (delta : BitVec 64) (addrs : List Nat) : Nat → BitVec 8 :=
  addrs.foldl (fun m a => writeWord m a (readWord m a + delta)) m

variable {ts : List (Nat × BitVec 64)}

theorem patch_other (h : ∀ t ∈ ts, x < t.1 ∨ t.1 + 8 ≤ x) : patch m ts x = m x := by
  induction ts generalizing m with
  | nil => rfl
  | cons t ts ih =>
    rw [List.forall_mem_cons] at h
    exact (ih h.2).trans (writeWord_other h.1)

theorem patch_congr (h : m x = m' x) : patch m ts x = patch m' ts x := by
  induction ts generalizing m m' with
  | nil => exact h
  | cons t ts ih =>
    apply ih
    show writeWord m t.1 t.2 x = writeWord m' t.1 t.2 x
    unfold writeWord
    rw [h]

/-- A byte of one of the words does not depend on what was there. -/
theorem patch_congr_of_mem {t : Nat × BitVec 64} (ht : t ∈ ts) (hle : t.1 ≤ x) (hlt : x < t.1 + 8) :
    patch m ts x = patch m' ts x := by
  induction ts generalizing m m' with
  | nil => exact absurd ht List.not_mem_nil
  | cons u ts ih =>
    rcases List.mem_cons.mp ht with rfl | ht
    · have hhead : writeWord m t.1 t.2 x = writeWord m' t.1 t.2 x := by
        unfold writeWord
        rw [if_pos ⟨hle, hlt⟩, if_pos ⟨hle, hlt⟩]
      show patch (writeWord m t.1 t.2) ts x = patch (writeWord m' t.1 t.2) ts x
      exact patch_congr hhead
    · exact ih ht

theorem view_patch : view base (patch m (ts.map fun t => (base + t.1, t.2))) = patch (view base m) ts := by
  induction ts generalizing m with
  | nil => rfl
  | cons t ts ih =>
    calc view base (patch m ((t :: ts).map fun t => (base + t.1, t.2)))
        = patch (view base (writeWord m (base + t.1) t.2)) ts := ih
      _ = patch (view base m) (t :: ts) := by rw [view_writeWord]; rfl

theorem view_bump {delta : BitVec 64} {addrs : List Nat} :
    view base (bump m delta (addrs.map (base + ·))) = bump (view base m) delta addrs := by
  induction addrs generalizing m with
  | nil => rfl
  | cons a addrs ih =>
    calc view base (bump m delta ((a :: addrs).map (base + ·)))
        = bump (view base (writeWord m (base + a) (readWord m (base + a) + delta))) delta addrs := ih
      _ = bump (view base m) delta (a :: addrs) := by rw [view_writeWord, ← readWord_view]; rfl

theorem readWord_patch_of_clear (h : ∀ t ∈ ts, Clear a t.1) : readWord (patch m ts) a = readWord m a := by
  apply readWord_congr
  intro i hi
  apply patch_other
  intro t ht
  have hclear := h t ht
  unfold Clear at hclear
  omega

theorem readWord_patch (hts : (ts.map Prod.fst).Pairwise Clear) {t : Nat × BitVec 64} (ht : t ∈ ts) :
    readWord (patch m ts) t.1 = t.2 := by
  induction ts generalizing m with
  | nil => exact absurd ht List.not_mem_nil
  | cons u ts ih =>
    rw [List.map_cons, List.pairwise_cons] at hts
    rcases List.mem_cons.mp ht with rfl | ht
    · have hclear : ∀ u ∈ ts, Clear t.1 u.1 := fun u hu => hts.1 u.1 (List.mem_map_of_mem hu)
      exact (readWord_patch_of_clear hclear).trans readWord_writeWord
    · exact ih hts.2 ht

/-- Words that are apart are increased as if all had been read before. -/
theorem bump_eq_patch {delta : BitVec 64} {addrs : List Nat} (h : addrs.Pairwise Clear) :
    bump m delta addrs = patch m (addrs.map fun a => (a, readWord m a + delta)) := by
  induction addrs generalizing m with
  | nil => rfl
  | cons a addrs ih =>
    rw [List.pairwise_cons] at h
    have hsame : ∀ b ∈ addrs, readWord (writeWord m a (readWord m a + delta)) b = readWord m b :=
      fun b hb => readWord_writeWord_of_clear (h.1 b hb).symm
    calc bump m delta (a :: addrs)
        = patch (writeWord m a (readWord m a + delta))
            (addrs.map fun b => (b, readWord (writeWord m a (readWord m a + delta)) b + delta)) := ih h.2
      _ = patch (writeWord m a (readWord m a + delta)) (addrs.map fun b => (b, readWord m b + delta)) := by
          rw [List.map_congr_left fun b hb => by rw [hsame b hb]]
      _ = patch m ((a :: addrs).map fun b => (b, readWord m b + delta)) := rfl

end UnixKernel.ByteWords
