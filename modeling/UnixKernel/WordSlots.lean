import Mathlib.Logic.Function.Basic
import UnixKernel.ByteWords

/-! Memory read as words from one base address, and tables of values that are filled in key by key. A piece of code
that saves registers fills in such a table, the code that restores them reads it. -/

namespace UnixKernel.WordSlots

open ByteWords

/-! ### Tables -/

section Tables

variable {κ α : Type} [DecidableEq κ]

/-- Values put under keys, one after the other. -/
def store (f : κ → α) (ts : List (κ × α)) : κ → α := ts.foldl (fun f t => Function.update f t.1 t.2) f

variable {f : κ → α} {ts us : List (κ × α)} {k : κ} {v : α}

@[simp] theorem store_nil (f : κ → α) : store f [] = f := rfl

theorem store_cons (f : κ → α) (t : κ × α) (ts : List (κ × α)) :
    store f (t :: ts) = store (Function.update f t.1 t.2) ts := rfl

theorem store_append (f : κ → α) (ts us : List (κ × α)) : store f (ts ++ us) = store (store f ts) us :=
  List.foldl_append

theorem store_of_not_mem (h : k ∉ ts.map Prod.fst) : store f ts k = f k := by
  induction ts generalizing f with
  | nil => rfl
  | cons t ts ih =>
      rw [List.map_cons, List.mem_cons, not_or] at h
      rw [store_cons, ih h.2, Function.update_of_ne h.1]

theorem store_of_mem (hnodup : (ts.map Prod.fst).Nodup) (h : (k, v) ∈ ts) : store f ts k = v := by
  induction ts generalizing f with
  | nil => exact absurd h List.not_mem_nil
  | cons t ts ih =>
      rw [List.map_cons, List.nodup_cons] at hnodup
      rcases List.mem_cons.mp h with rfl | h
      · rw [store_cons, store_of_not_mem hnodup.1, Function.update_self]
      · exact ih hnodup.2 h

/-- Keys that are all filled in as `g` has them, in whatever order. -/
theorem store_of_forall {g : κ → α} (h : ∀ t ∈ ts, t.2 = g t.1) (hk : k ∈ ts.map Prod.fst) : store f ts k = g k := by
  induction ts generalizing f with
  | nil => exact absurd hk List.not_mem_nil
  | cons t ts ih =>
      rw [List.forall_mem_cons] at h
      rw [store_cons]
      by_cases hmem : k ∈ ts.map Prod.fst
      · exact ih h.2 hmem
      · obtain rfl : k = t.1 := (List.mem_cons.mp hk).resolve_right hmem
        rw [store_of_not_mem hmem, Function.update_self, h.1]

/-- A key that is not filled in can be set before or after. -/
theorem store_update_comm (h : k ∉ ts.map Prod.fst) :
    store (Function.update f k v) ts = Function.update (store f ts) k v := by
  induction ts generalizing f with
  | nil => rfl
  | cons t ts ih =>
      rw [List.map_cons, List.mem_cons, not_or] at h
      rw [store_cons, store_cons, ← ih h.2, Function.update_comm h.1]

end Tables

/-! ### Words from a base -/

/-- The words from `base` on. -/
def slots (m : Nat → BitVec 8) (base : Nat) : Nat → BitVec 64 := fun k => readWord m (base + 8 * k)

/-- Words put into the slots from `base` on. -/
def put (m : Nat → BitVec 8) (base : Nat) (ts : List (Nat × BitVec 64)) : Nat → BitVec 8 :=
  patch m (ts.map fun t => (base + 8 * t.1, t.2))

variable {m : Nat → BitVec 8} {base : Nat}

@[simp] theorem put_nil (m : Nat → BitVec 8) (base : Nat) : put m base [] = m := rfl

theorem put_cons (m : Nat → BitVec 8) (base : Nat) (t : Nat × BitVec 64) (ts : List (Nat × BitVec 64)) :
    put m base (t :: ts) = put (writeWord m (base + 8 * t.1) t.2) base ts := rfl

theorem put_append (m : Nat → BitVec 8) (base : Nat) (ts us : List (Nat × BitVec 64)) :
    put m base (ts ++ us) = put (put m base ts) base us := by
  unfold put patch
  rw [List.map_append, List.foldl_append]

theorem slots_writeWord (m : Nat → BitVec 8) (base k : Nat) (w : BitVec 64) :
    slots (writeWord m (base + 8 * k) w) base = Function.update (slots m base) k w := by
  funext j
  by_cases hj : j = k
  · rw [hj, Function.update_self]
    exact readWord_writeWord
  · rw [Function.update_of_ne hj]
    apply readWord_writeWord_of_clear
    unfold Clear
    omega

theorem slots_put (m : Nat → BitVec 8) (base : Nat) (ts : List (Nat × BitVec 64)) :
    slots (put m base ts) base = store (slots m base) ts := by
  induction ts generalizing m with
  | nil => rfl
  | cons t ts ih => rw [put_cons, ih, slots_writeWord, store_cons]

theorem put_other {ts : List (Nat × BitVec 64)} {n x : Nat} (hts : ∀ k ∈ ts.map Prod.fst, k < n)
    (hx : x < base ∨ base + 8 * n ≤ x) : put m base ts x = m x := by
  apply patch_other
  intro u hu
  obtain ⟨t, ht, rfl⟩ := List.mem_map.mp hu
  have hlt := hts t.1 (List.mem_map_of_mem ht)
  dsimp only
  omega

/-- A slot from another base, apart from the slots that are filled in. -/
theorem slots_put_apart {ts : List (Nat × BitVec 64)} {n a k : Nat} (hts : ∀ j ∈ ts.map Prod.fst, j < n)
    (h : a + 8 * k + 8 ≤ base ∨ base + 8 * n ≤ a + 8 * k) : slots (put m base ts) a k = slots m a k :=
  readWord_congr fun _ _ => put_other hts (by omega)

/-! ### Double words -/

/-- The lower word. -/
def low (v : BitVec 128) : BitVec 64 := v.extractLsb' 0 64

/-- The upper word. -/
def high (v : BitVec 128) : BitVec 64 := v.extractLsb' 64 64

/-- A double word of memory, its lower word first. -/
def join (w w' : BitVec 64) : BitVec 128 := w' ++ w

@[simp] theorem join_low_high (v : BitVec 128) : join (low v) (high v) = v := by
  apply BitVec.eq_of_getLsbD_eq
  intro i hi
  unfold join low high
  rw [BitVec.getLsbD_append]
  by_cases hlow : i < 64
  · simp [hlow]
  · have hsub : i - 64 < 64 := by omega
    have hadd : 64 + (i - 64) = i := by omega
    simp [hlow, hsub, hadd]

end UnixKernel.WordSlots
