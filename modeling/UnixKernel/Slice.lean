import UnixKernel.Overflow

/-! Ranges of a buffer, checked as an index operator checks them: a range that ends before it starts or behind
the buffer stops the program, and so does a copy between ranges of two lengths. -/

namespace UnixKernel.Slice

variable {ε α : Type} (stop : ε)

/-- `&buf[a..b]`. -/
def range (buf : List α) (a b : Nat) : Except ε (List α) :=
  if a ≤ b ∧ b ≤ buf.length then .ok ((buf.drop a).take (b - a)) else .error stop

/-- `buf[a..b].copy_from_slice(src)`. -/
def copyFrom (buf : List α) (a b : Nat) (src : List α) : Except ε (List α) := do
  let dst ← range stop buf a b
  if dst.length = src.length then pure (buf.take a ++ src ++ buf.drop b) else .error stop

variable {stop} {buf src : List α} {a n : Nat}

theorem range_eq (h : a + n ≤ buf.length) : range stop buf a (a + n) = .ok ((buf.drop a).take n) := by
  rw [range, if_pos ⟨Nat.le_add_right a n, h⟩, Nat.add_sub_cancel_left]

/-- A range from the start of the buffer. -/
theorem range_zero (h : n ≤ buf.length) : range stop buf 0 n = .ok (buf.take n) := by
  rw [range, if_pos ⟨Nat.zero_le n, h⟩, List.drop_zero, Nat.sub_zero]

theorem length_of_range {b : Nat} {out : List α} (h : range stop buf a b = .ok out) : out.length = b - a := by
  unfold range at h
  split_ifs at h with hin
  cases h
  rw [List.length_take, List.length_drop]
  omega

theorem copyFrom_eq (h : a + src.length ≤ buf.length) :
    copyFrom stop buf a (a + src.length) src = .ok (buf.take a ++ src ++ buf.drop (a + src.length)) := by
  have hlength : ((buf.drop a).take src.length).length = src.length := by
    rw [List.length_take, List.length_drop]
    omega
  rw [copyFrom, range_eq h, ok_bind, if_pos hlength]
  rfl

/-- A copy to the start of the buffer. -/
theorem copyFrom_zero (hn : src.length = n) (h : n ≤ buf.length) :
    copyFrom stop buf 0 n src = .ok (src ++ buf.drop n) := by
  have hcopy : copyFrom stop buf 0 (0 + src.length) src = _ := copyFrom_eq (by omega)
  rwa [Nat.zero_add, List.take_zero, List.nil_append, hn] at hcopy

/-- A value of the buffer after a copy into it. -/
theorem getElem?_copied (h : a + src.length ≤ buf.length) (i : Nat) :
    (buf.take a ++ src ++ buf.drop (a + src.length))[i]? =
      if a ≤ i ∧ i < a + src.length then src[i - a]? else buf[i]? := by
  have htake : (buf.take a).length = a := by
    rw [List.length_take]
    omega
  rw [List.append_assoc]
  by_cases hfront : i < a
  · rw [List.getElem?_append_left (by omega), List.getElem?_take_of_lt hfront, if_neg (by omega)]
  · rw [List.getElem?_append_right (by omega), htake]
    split_ifs with hin
    · rw [List.getElem?_append_left (by omega)]
    · rw [List.getElem?_append_right (by omega), List.getElem?_drop]
      congr 1
      omega

end UnixKernel.Slice
