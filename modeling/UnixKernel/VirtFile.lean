import Mathlib.Data.List.Induction
import UnixKernel.BlockDevice
import UnixKernel.Slice

/-! `VirtFile` of `filesys/mod.rs`: a regular file kept in memory, as a vector and a size of its own. Writes
beyond the end leave a hole of zeros, and so does a truncation that makes the file longer. Whatever came before,
a read finds the last byte that was written and not cut off again. -/

namespace UnixKernel

/-- `VFileData`. Of the `FMeta` only the size changes. -/
structure VFileData where
  size : Nat
  data : List Byte

namespace VirtFile

/-- `Vec::resize` with a zero. -/
def resize (data : List Byte) (n : Nat) : List Byte := data.take n ++ List.replicate (n - data.length) 0

def new : VFileData := ⟨0, []⟩

variable (p : Profile)

/-- Returns the buffer. -/
def read (f : VFileData) (buf : List Byte) (offset : Nat) : Except Stop (List Byte) :=
  if f.data.length ≤ offset then .error (.err "Offset out of bounds")
  else do
    let readLen := min buf.length (f.data.length - offset)
    let stop ← p.fit .panic 64 ((offset + readLen : Nat) : Int)
    let src ← Slice.range .panic f.data offset stop
    Slice.copyFrom .panic buf 0 readLen src

def write (f : VFileData) (buf : List Byte) (offset : Nat) : Except Stop VFileData := do
  let writeEnd ← p.fit .panic 64 ((buf.length + offset : Nat) : Int)
  let newSize := max writeEnd f.data.length
  let data ← Slice.copyFrom .panic (resize f.data newSize) offset writeEnd buf
  pure ⟨newSize, data⟩

def truncate (f : VFileData) (size : Nat) : VFileData := ⟨size, resize f.data size⟩

/-! ### One call -/

variable {p} {data : List Byte} {f : VFileData}

theorem getElem?_resize (n i : Nat) : (resize data n)[i]? = if i < n then some ((data[i]?).getD 0) else none := by
  unfold resize
  by_cases hdata : i < data.length
  · rw [List.getElem?_eq_getElem hdata, Option.getD_some]
    split_ifs with hi
    · rw [List.getElem?_append_left (by rw [List.length_take]; omega), List.getElem?_take_of_lt hi,
        List.getElem?_eq_getElem hdata]
    · rw [List.getElem?_eq_none]
      rw [List.length_append, List.length_take, List.length_replicate]
      omega
  · rw [List.getElem?_append_right (by rw [List.length_take]; omega), List.getElem?_replicate, List.length_take,
      List.getElem?_eq_none (by omega), Option.getD_none]
    split_ifs
    all_goals first | rfl | omega

@[simp] theorem length_resize (n : Nat) : (resize data n).length = n := by
  rw [resize, List.length_append, List.length_take, List.length_replicate]
  omega

/-- A write puts its bytes at the offset, and zeros between the old end and its own. -/
theorem write_spec {buf : List Byte} {offset : Nat} (h : offset + buf.length < 2 ^ 64) :
    ∃ data, write p f buf offset = .ok ⟨max (offset + buf.length) f.data.length, data⟩ ∧
      data.length = max (offset + buf.length) f.data.length ∧
      ∀ i < data.length, data[i]? =
        if offset ≤ i ∧ i < offset + buf.length then buf[i - offset]? else some ((f.data[i]?).getD 0) := by
  rw [write, Nat.add_comm buf.length, Profile.fit_of_lt (by omega), ok_bind]
  dsimp only
  have hle : offset + buf.length ≤ max (offset + buf.length) f.data.length := le_max_left _ _
  generalize max (offset + buf.length) f.data.length = size at hle ⊢
  have hroom : offset + buf.length ≤ (resize f.data size).length := by rwa [length_resize]
  have hlength : ((resize f.data size).take offset ++ buf ++
      (resize f.data size).drop (offset + buf.length)).length = size := by
    simp only [List.length_append, List.length_take, List.length_drop, length_resize]
    omega
  refine ⟨_, by rw [Slice.copyFrom_eq hroom]; rfl, hlength, fun i hi => ?_⟩
  have hin : i < size := hlength ▸ hi
  rw [Slice.getElem?_copied hroom, getElem?_resize, if_pos hin]

theorem read_eq {buf : List Byte} {offset : Nat} (hlt : f.data.length < 2 ^ 64) (hin : offset < f.data.length) :
    read p f buf offset = .ok ((f.data.drop offset).take (min buf.length (f.data.length - offset)) ++
      buf.drop (min buf.length (f.data.length - offset))) := by
  rw [read, if_neg (by omega)]
  dsimp only
  generalize hn : min buf.length (f.data.length - offset) = n
  have hlength : ((f.data.drop offset).take n).length = n := by
    rw [List.length_take, List.length_drop]
    omega
  rw [Profile.fit_of_lt (by omega), ok_bind, Slice.range_eq (by omega), ok_bind,
    Slice.copyFrom_zero hlength (by omega)]

variable (p)

/-! ### Histories -/

/-- A call that changes the file. -/
inductive Op where
  | write (buf : List Byte) (offset : Nat)
  | truncate (size : Nat)

/-- The end of a write is a `usize`, and the size of a truncation is a `u64`. -/
def Op.Fits : Op → Prop
  | .write buf offset => offset + buf.length < 2 ^ 64
  | .truncate size => size < 2 ^ 64

/-- The call writes the byte `b` at `pos`. -/
def Op.Writes (pos : Nat) (b : Byte) : Op → Prop
  | .write buf offset => offset ≤ pos ∧ buf[pos - offset]? = some b
  | .truncate _ => False

/-- The call cuts the file off at `pos` or before. -/
def Op.Cuts (pos : Nat) : Op → Prop
  | .write _ _ => False
  | .truncate size => size ≤ pos

def apply (f : VFileData) : Op → Except Stop VFileData
  | .write buf offset => write p f buf offset
  | .truncate size => .ok (truncate f size)

/-- The calls one after the other, up to the first that fails. -/
def run (ops : List Op) : Except Stop VFileData := ops.foldlM (apply p) new

/-- The last write that covers `pos` wrote `b` there, and no later call cut it off. -/
def LastWrite (ops : List Op) (pos : Nat) (b : Byte) : Prop :=
  ∃ before op after, ops = before ++ op :: after ∧ op.Writes pos b ∧
    ∀ later ∈ after, (∀ b', ¬later.Writes pos b') ∧ ¬later.Cuts pos

theorem not_lastWrite_nil (pos : Nat) (b : Byte) : ¬LastWrite [] pos b := by
  rintro ⟨before, op, after, heq, -⟩
  exact absurd heq (by simp)

theorem lastWrite_concat {ops : List Op} {op : Op} {pos : Nat} {b : Byte} :
    LastWrite (ops ++ [op]) pos b ↔
      op.Writes pos b ∨ LastWrite ops pos b ∧ (∀ b', ¬op.Writes pos b') ∧ ¬op.Cuts pos := by
  constructor
  · rintro ⟨before, first, after, heq, hwrites, hlater⟩
    rcases List.eq_nil_or_concat after with rfl | ⟨after, last, rfl⟩
    · obtain ⟨-, hlast⟩ := List.append_inj' heq rfl
      obtain rfl := List.singleton_injective hlast
      exact Or.inl hwrites
    · rw [List.concat_eq_append, ← List.cons_append, ← List.append_assoc] at heq
      obtain ⟨rfl, hlast⟩ := List.append_inj' heq rfl
      obtain rfl := List.singleton_injective hlast
      refine Or.inr ⟨⟨before, first, after, rfl, hwrites, fun later hmem => hlater later ?_⟩, hlater op ?_⟩
      · simp [hmem]
      · simp
  · rintro (hwrites | ⟨⟨before, first, after, rfl, hwrites, hlater⟩, hop⟩)
    · exact ⟨ops, op, [], rfl, hwrites, fun later hmem => absurd hmem List.not_mem_nil⟩
    · refine ⟨before, first, after ++ [op], by simp, hwrites, fun later hmem => ?_⟩
      rcases List.mem_append.mp hmem with hmem | hmem
      · exact hlater later hmem
      · rw [List.mem_singleton.mp hmem]
        exact hop

/-! ### Whole runs -/

/-- What the file holds after the calls. -/
structure Reflects (ops : List Op) (f : VFileData) : Prop where
  size_eq : f.size = f.data.length
  length_lt : f.data.length < 2 ^ 64
  written : ∀ pos b, LastWrite ops pos b → f.data[pos]? = some b
  zero : ∀ pos < f.data.length, (¬∃ b, LastWrite ops pos b) → f.data[pos]? = some 0

theorem reflects_new : Reflects [] new where
  size_eq := rfl
  length_lt := by decide
  written pos b h := absurd h (not_lastWrite_nil pos b)
  zero pos h := absurd h (Nat.not_lt_zero pos)

theorem Reflects.getD_zero {ops : List Op} {f : VFileData} (h : Reflects ops f) {pos : Nat}
    (hnone : ¬∃ b, LastWrite ops pos b) : (f.data[pos]?).getD 0 = 0 := by
  by_cases hin : pos < f.data.length
  · rw [h.zero pos hin hnone, Option.getD_some]
  · rw [List.getElem?_eq_none (by omega), Option.getD_none]

theorem reflects_truncate {ops : List Op} {f : VFileData} (h : Reflects ops f) {size : Nat} (hsize : size < 2 ^ 64) :
    Reflects (ops ++ [.truncate size]) (truncate f size) where
  size_eq := (length_resize size).symm
  length_lt := (length_resize size).trans_lt hsize
  written pos b hlast := by
    rcases lastWrite_concat.mp hlast with hwrites | ⟨hbefore, -, hcuts⟩
    · exact hwrites.elim
    · have hpos : pos < size := Nat.lt_of_not_le hcuts
      rw [truncate, getElem?_resize, if_pos hpos, h.written pos b hbefore, Option.getD_some]
  zero pos hpos hnone := by
    have hpos : pos < size := (length_resize size).symm ▸ hpos
    have hbefore : ¬∃ b, LastWrite ops pos b := by
      rintro ⟨b, hb⟩
      exact hnone ⟨b, lastWrite_concat.mpr (Or.inr ⟨hb, fun _ h => h.elim, Nat.not_le_of_lt hpos⟩)⟩
    rw [truncate, getElem?_resize, if_pos hpos, h.getD_zero hbefore]

theorem not_writes_iff {buf : List Byte} {offset pos : Nat} :
    (∀ b, ¬(Op.write buf offset).Writes pos b) ↔ ¬(offset ≤ pos ∧ pos < offset + buf.length) := by
  constructor
  · rintro hnone ⟨hle, hlt⟩
    exact hnone (buf.get ⟨pos - offset, by omega⟩) ⟨hle, List.getElem?_eq_getElem _⟩
  · rintro hout b ⟨hle, hb⟩
    obtain ⟨hlt, -⟩ := List.getElem?_eq_some_iff.mp hb
    exact hout ⟨hle, by omega⟩

theorem reflects_write {ops : List Op} {f : VFileData} (h : Reflects ops f) {buf : List Byte} {offset : Nat}
    (hfits : offset + buf.length < 2 ^ 64) :
    ∃ f', write p f buf offset = .ok f' ∧ Reflects (ops ++ [.write buf offset]) f' := by
  obtain ⟨data, hwrite, hlength, hbyte⟩ := write_spec (p := p) (f := f) hfits
  have hlt := h.length_lt
  refine ⟨_, hwrite, hlength.symm, by rw [hlength]; omega, fun pos b hlast => ?_, fun pos hpos hnone => ?_⟩
  · rcases lastWrite_concat.mp hlast with ⟨hle, hb⟩ | ⟨hbefore, hout, -⟩
    · obtain ⟨hin, -⟩ := List.getElem?_eq_some_iff.mp hb
      rw [hbyte pos (by omega), if_pos ⟨hle, by omega⟩, hb]
    · obtain ⟨hin, -⟩ := List.getElem?_eq_some_iff.mp (h.written pos b hbefore)
      rw [hbyte pos (by omega), if_neg (not_writes_iff.mp hout), h.written pos b hbefore, Option.getD_some]
  · have hout : ∀ b, ¬(Op.write buf offset).Writes pos b :=
      fun b hb => hnone ⟨b, lastWrite_concat.mpr (Or.inl hb)⟩
    have hbefore : ¬∃ b, LastWrite ops pos b := by
      rintro ⟨b, hb⟩
      exact hnone ⟨b, lastWrite_concat.mpr (Or.inr ⟨hb, hout, id⟩)⟩
    rw [hbyte pos hpos, if_neg (not_writes_iff.mp hout), h.getD_zero hbefore]

theorem reflects_apply {ops : List Op} {f : VFileData} (h : Reflects ops f) {op : Op} (hfits : op.Fits) :
    ∃ f', apply p f op = .ok f' ∧ Reflects (ops ++ [op]) f' := by
  cases op with
  | write buf offset => exact reflects_write p h hfits
  | truncate size => exact ⟨_, rfl, reflects_truncate h hfits⟩

theorem reflects_run {ops : List Op} (hfits : ∀ op ∈ ops, op.Fits) : ∃ f, run p ops = .ok f ∧ Reflects ops f := by
  -- on the last call
  induction ops using List.reverseRecOn with
  | nil => exact ⟨new, rfl, reflects_new⟩
  | append_singleton ops op ih =>
      obtain ⟨f, hrun, hf⟩ := ih fun earlier hmem => hfits earlier (List.mem_append_left [op] hmem)
      obtain ⟨f', happly, hf'⟩ := reflects_apply p hf (hfits op (by simp))
      refine ⟨f', ?_, hf'⟩
      rw [run, List.foldlM_append, ← run, hrun, ok_bind, List.foldlM_cons, happly, ok_bind]
      rfl

/-- Two bytes at 2, the file cut off behind the first of them, and made longer again. -/
def regrown : List Op := [.write [7, 8] 2, .truncate 3, .truncate 5]

example : run .dev regrown = .ok ⟨5, [0, 0, 7, 0, 0]⟩ := rfl

end VirtFile

end UnixKernel
