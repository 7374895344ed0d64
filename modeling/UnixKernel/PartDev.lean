import UnixKernel.BlockDevice

/-! The partition of `filesys/dev.rs`: a block device that is a range of blocks of another one. Which
blocks of the device below a call can reach, and for which calls they are all in the range. -/

namespace UnixKernel

/-- `PartDev`. -/
structure PartDev where
  dev : BlockDevice
  startLba : Nat
  blockCount : Nat

namespace PartDev

variable (p : Profile) (part : PartDev)

def readBlock (len lba : Nat) : DiskM (List Byte) := do
  let lba ← Eff.lift (p.fit .panic 64 (lba + part.startLba))
  part.dev.readBlock len lba

def writeBlock (buf : List Byte) (lba : Nat) : DiskM Unit := do
  let lba ← Eff.lift (p.fit .panic 64 (lba + part.startLba))
  part.dev.writeBlock buf lba

def toBlockDevice : BlockDevice := ⟨part.dev.blockSize, part.blockCount, readBlock p part, writeBlock p part⟩

/-- The largest buffer there can be. -/
def isizeMax : Nat := 2 ^ 63 - 1

/-- The blocks `start..end` under `len` bytes at `offset`, and the length of the buffer for them. -/
def span (bs len offset : Nat) : Except Stop (Nat × Nat × Nat) := do
  let start := offset / bs
  let last ← p.fit .panic 64 (offset + len)
  let stop := blocksOf bs last
  let blocks ← p.fit .panic 64 (stop - start)
  let bytes ← p.fit .panic 64 (blocks * bs)
  ensure (bytes ≤ isizeMax) .panic
  pure (start, stop, bytes)

/-- `read` of `len` bytes. -/
def read (len offset : Nat) : DiskM (List Byte) := do
  let bs := part.dev.blockSize
  let (start, _, bytes) ← Eff.lift (span p bs len offset)
  let vec ← readBlock p part bytes start
  Eff.lift (ensure (offset % bs + len ≤ vec.length) .panic)
  pure ((vec.drop (offset % bs)).take len)

def write (buf : List Byte) (offset : Nat) : DiskM Unit := do
  let bs := part.dev.blockSize
  let (start, stop, len) ← Eff.lift (span p bs buf.length offset)
  let vec : List Byte := List.replicate len 0
  Eff.lift (ensure (bs ≤ len) .panic)
  let head ← readBlock p part bs start
  let vec := head ++ vec.drop bs
  let final ← Eff.lift (p.fit .panic 64 (stop - 1))
  let tail ← readBlock p part bs final
  let vec := vec.take (len - bs) ++ tail
  Eff.lift (ensure (offset % bs + buf.length ≤ len) .panic)
  let vec := vec.take (offset % bs) ++ buf ++ vec.drop (offset % bs + buf.length)
  writeBlock p part vec (offset / bs)

end PartDev

namespace BlockDevice

open PartDev

variable (p : Profile) (dev : BlockDevice)

/-- `read` of the two nodes, by their `read_block`. -/
def readAt (len offset : Nat) : DiskM (List Byte) := do
  let bs := dev.blockSize
  let (start, _, bytes) ← Eff.lift (span p bs len offset)
  let vec ← dev.readBlock bytes start
  Eff.lift (ensure (offset % bs + len ≤ vec.length) .panic)
  pure ((vec.drop (offset % bs)).take len)

/-- `write` of the two nodes, by their `read_block` and `write_block`. -/
def writeAt (buf : List Byte) (offset : Nat) : DiskM Unit := do
  let bs := dev.blockSize
  let (start, stop, len) ← Eff.lift (span p bs buf.length offset)
  let vec : List Byte := List.replicate len 0
  Eff.lift (ensure (bs ≤ len) .panic)
  let head ← dev.readBlock bs start
  let vec := head ++ vec.drop bs
  let final ← Eff.lift (p.fit .panic 64 (stop - 1))
  let tail ← dev.readBlock bs final
  let vec := vec.take (len - bs) ++ tail
  Eff.lift (ensure (offset % bs + buf.length ≤ len) .panic)
  let vec := vec.take (offset % bs) ++ buf ++ vec.drop (offset % bs + buf.length)
  dev.writeBlock vec (offset / bs)

end BlockDevice

namespace PartDev

theorem read_eq (p : Profile) (part : PartDev) : read p part = (part.toBlockDevice p).readAt p := rfl

theorem write_eq (p : Profile) (part : PartDev) : write p part = (part.toBlockDevice p).writeAt p := rfl

/-! ### The range of bytes -/

/-- The end of the range, modulo the word. -/
def finish (len offset : Nat) : Nat := (offset + len) % 2 ^ 64

/-- The length of the buffer: the range with the rest of its first and of its last block. -/
def padded (bs len offset : Nat) : Nat :=
  offset % bs + len + (blocksOf bs (finish len offset) * bs - finish len offset)

section Span

variable {p : Profile} {bs len offset : Nat}

theorem blocksOf_mul_lt (hpos : 0 < bs) (n : Nat) : blocksOf bs n * bs < n + bs := by
  have h := Nat.div_mul_le_self (n + bs - 1) bs
  unfold blocksOf
  omega

theorem blocksOf_le (hpos : 0 < bs) (n : Nat) : blocksOf bs n ≤ n := by
  unfold blocksOf
  cases n with
  | zero => exact Nat.le_of_eq (Nat.div_eq_of_lt (by omega))
  | succ m =>
      refine Nat.div_le_of_le_mul ?_
      have h := Nat.le_mul_of_pos_left m hpos
      rw [Nat.mul_succ]
      omega

theorem padded_lt (hpos : 0 < bs) (hbs : bs < 2 ^ 32) (hlen : len ≤ isizeMax) : padded bs len offset < 2 ^ 64 := by
  have hpad := blocksOf_mul_lt hpos (finish len offset)
  have hmod := Nat.mod_lt offset hpos
  unfold isizeMax at hlen
  unfold padded
  omega

/-- The blocks of the span, in bytes. -/
theorem span_bytes (hpos : 0 < bs) (hbs : bs < 2 ^ 32) (hlen : len ≤ isizeMax) (hoff : offset < 2 ^ 64)
    (h : ¬(p = .dev ∧ 2 ^ 64 ≤ offset + len)) :
    (p.fit Stop.panic 64 ((blocksOf bs (finish len offset) : Int) - (offset / bs : Nat)) >>= fun blocks =>
      p.fit Stop.panic 64 (blocks * bs)) = .ok (padded bs len offset) := by
  have hle : finish len offset ≤ blocksOf bs (finish len offset) * bs := le_blocksOf_mul hpos
  have hdiv : offset / bs * bs + offset % bs = offset := Nat.div_add_mod' offset bs
  have hpadded : padded bs len offset < 2 ^ 64 := padded_lt hpos hbs hlen
  rcases Nat.lt_or_ge (offset + len) (2 ^ 64) with hlt | hge
  · have hfinish : finish len offset = offset + len := Nat.mod_eq_of_lt hlt
    have hstart : offset / bs ≤ blocksOf bs (finish len offset) :=
      Nat.le_of_mul_le_mul_right (c := bs) (by omega) hpos
    have hbytes : (blocksOf bs (finish len offset) - offset / bs) * bs = padded bs len offset := by
      unfold padded
      rw [Nat.sub_mul]
      omega
    have hstop := blocksOf_le hpos (finish len offset)
    rw [Profile.fit_sub hstart (by omega), ok_bind, ← Nat.cast_mul, hbytes, Profile.fit_of_lt hpadded]
  · cases p with
    | dev => exact absurd ⟨rfl, hge⟩ h
    | release =>
        have hfinish : finish len offset + 2 ^ 64 = offset + len := by
          unfold finish isizeMax at *
          omega
        -- the span is off by a whole word, which the product does not see
        have hprod : ((blocksOf bs (finish len offset) : Int) - (offset / bs : Nat)) * bs =
            padded bs len offset + (2 ^ 64 : Nat) * (-1) := by
          have hint : ((blocksOf bs (finish len offset) * bs : Nat) : Int) - (offset / bs * bs : Nat) =
              padded bs len offset - (2 ^ 64 : Nat) := by
            unfold padded
            omega
          rw [Int.sub_mul, ← Nat.cast_mul, ← Nat.cast_mul, hint]
          omega
        have hmod : 0 ≤ ((blocksOf bs (finish len offset) : Int) - (offset / bs : Nat)) % (2 ^ 64 : Nat) :=
          Int.emod_nonneg _ (by decide)
        rw [Profile.fit_release, ok_bind, Profile.fit_release, Int.toNat_of_nonneg hmod, Int.mul_emod,
          Int.emod_emod, ← Int.mul_emod, hprod, Int.add_mul_emod_self_left,
          Int.emod_eq_of_lt (Int.natCast_nonneg _) (Int.ofNat_lt.mpr hpadded)]
        rfl

theorem span_eq (hpos : 0 < bs) (hbs : bs < 2 ^ 32) (hlen : len ≤ isizeMax) (hoff : offset < 2 ^ 64)
    (h : ¬(p = .dev ∧ 2 ^ 64 ≤ offset + len)) : span p bs len offset =
      (ensure (padded bs len offset ≤ isizeMax) .panic).map fun _ =>
        (offset / bs, blocksOf bs (finish len offset), padded bs len offset) := by
  have hbytes := span_bytes hpos hbs hlen hoff h
  obtain ⟨blocks, hblocks, hpadded⟩ := bind_eq_ok.mp hbytes
  unfold span
  rw [← Nat.cast_add, Profile.fit_natCast h, ok_bind]
  dsimp only
  rw [show (offset + len) % 2 ^ 64 = finish len offset from rfl, hblocks, ok_bind, hpadded, ok_bind]
  cases ensure (padded bs len offset ≤ isizeMax) Stop.panic <;> rfl

theorem eq_of_span {start stop bytes : Nat} (hpos : 0 < bs) (hbs : bs < 2 ^ 32) (hlen : len ≤ isizeMax)
    (hoff : offset < 2 ^ 64) (h : span p bs len offset = .ok (start, stop, bytes)) :
    ¬(p = .dev ∧ 2 ^ 64 ≤ offset + len) ∧ padded bs len offset ≤ isizeMax ∧
      start = offset / bs ∧ stop = blocksOf bs (finish len offset) ∧ bytes = padded bs len offset := by
  have hover : ¬(p = .dev ∧ 2 ^ 64 ≤ offset + len) := by
    rintro ⟨rfl, hge⟩
    unfold span at h
    rw [← Nat.cast_add, Profile.fit_dev_of_le hge] at h
    cases h
  rw [span_eq hpos hbs hlen hoff hover] at h
  obtain ⟨_, hcheck, heq⟩ := map_eq_ok.mp h
  cases heq
  exact ⟨hover, ensure_eq_ok.mp hcheck, rfl, rfl, rfl⟩

theorem stop_le (hpos : 0 < bs) (len offset : Nat) : blocksOf bs (finish len offset) ≤
    offset / bs + blocksOf bs (padded bs len offset) := by
  have hstop := blocksOf_mul_lt hpos (finish len offset)
  have hfinish : finish len offset ≤ offset + len := Nat.mod_le _ _
  have hdiv : offset / bs * bs + offset % bs = offset := Nat.div_add_mod' offset bs
  have hbytes : padded bs len offset ≤ blocksOf bs (padded bs len offset) * bs := le_blocksOf_mul hpos
  have hrange : offset + len ≤ offset / bs * bs + padded bs len offset := by
    unfold padded
    omega
  refine Nat.le_of_lt_succ (Nat.lt_of_mul_lt_mul_right (a := bs) ?_)
  rw [Nat.succ_mul, Nat.add_mul]
  omega

theorem finish_pos (hlen : len ≤ isizeMax) (hoff : offset < 2 ^ 64) (hpos : 0 < bs)
    (hbytes : bs ≤ padded bs len offset) (hne : offset + len ≠ 2 ^ 64) : 0 < finish len offset := by
  unfold finish isizeMax at *
  by_contra hzero
  have h0 : offset + len = 0 := by omega
  have hoff0 : offset = 0 := by omega
  have hlen0 : len = 0 := by omega
  subst hoff0 hlen0
  unfold padded finish at hbytes
  rw [Nat.zero_mod, Nat.add_zero, Nat.zero_mod] at hbytes
  have hnone : blocksOf bs 0 = 0 := Nat.le_zero.mp (blocksOf_le hpos 0)
  rw [hnone] at hbytes
  omega

theorem blocksOf_pos (hpos : 0 < bs) {n : Nat} (hn : bs ≤ n) : 0 < blocksOf bs n :=
  Nat.div_pos (by omega) hpos

end Span

/-! ### The steps of `write` -/

/-- The buffer of `write`: zeros, the two blocks that were read, and then the bytes to write. -/
def patch (bs offset len : Nat) (buf head tail : List Byte) : List Byte :=
  let vec := (head ++ (List.replicate len 0).drop bs).take (len - bs) ++ tail
  vec.take (offset % bs) ++ buf ++ vec.drop (offset % bs + buf.length)

theorem length_patch {bs offset len : Nat} {buf head tail : List Byte} (hhead : head.length = bs)
    (htail : tail.length = bs) (hle : bs ≤ len) (hfits : offset % bs + buf.length ≤ len) :
    (patch bs offset len buf head tail).length = len := by
  simp only [patch, List.length_append, List.length_take, List.length_drop, List.length_replicate]
  omega

end PartDev

theorem BlockDevice.writeAt_of_span {p : Profile} (dev : BlockDevice) {buf : List Byte} {offset start stop bytes : Nat}
    (hspan : PartDev.span p dev.blockSize buf.length offset = .ok (start, stop, bytes))
    (hle : dev.blockSize ≤ bytes) (hfits : offset % dev.blockSize + buf.length ≤ bytes) :
    dev.writeAt p buf offset =
      dev.readBlock dev.blockSize start >>= fun head =>
      Eff.lift (p.fit .panic 64 (stop - 1)) >>= fun final =>
      dev.readBlock dev.blockSize final >>= fun tail =>
      dev.writeBlock (PartDev.patch dev.blockSize offset bytes buf head tail) (offset / dev.blockSize) := by
  unfold writeAt
  dsimp only
  rw [hspan, Eff.lift_ok_bind]
  dsimp only
  rw [ensure_eq_ok.mpr hle, Eff.lift_ok_bind, ensure_eq_ok.mpr hfits]
  rfl

namespace PartDev

variable (p : Profile) (part : PartDev)

/-! ### Calls that stay in the partition -/

/-- A call on a partition. -/
inductive Call where
  | readBlock (len lba : Nat)
  | writeBlock (buf : List Byte) (lba : Nat)
  | read (len offset : Nat)
  | write (buf : List Byte) (offset : Nat)

/-- The arguments are those of the source: `u64` numbers, and buffers no larger than a buffer can be. -/
def Call.InRange : Call → Prop
  | .readBlock len lba => len ≤ isizeMax ∧ lba < 2 ^ 64
  | .writeBlock buf lba => buf.length ≤ isizeMax ∧ lba < 2 ^ 64
  | .read len offset => len ≤ isizeMax ∧ offset < 2 ^ 64
  | .write buf offset => buf.length ≤ isizeMax ∧ offset < 2 ^ 64

/-- The disk after a call, whatever its outcome. -/
def exec (call : Call) (d : Disk) : Disk :=
  match call with
  | .readBlock len lba => (readBlock p part len lba d).2
  | .writeBlock buf lba => (writeBlock p part buf lba d).2
  | .read len offset => (read p part len offset d).2
  | .write buf offset => (write p part buf offset d).2

/-- Every block commanded is one of the partition. -/
def Inside (start count : Nat) (d : Disk) : Prop := ∀ a ∈ d.log, start ≤ a.lba ∧ a.lba < start + count

/-- The `k` blocks from `lba` on are blocks of the partition, or there are none. A development build stops
at a block without a number, and reaches nothing behind a partition that ends there. -/
def BlocksIn (p : Profile) (start count lba k : Nat) : Prop :=
  k = 0 ∨ lba + k ≤ count ∧ start + lba + k ≤ 2 ^ 64 ∨
    p = .dev ∧ (2 ^ 64 ≤ lba + start ∨ 2 ^ 64 ≤ start + count)

/-- When a call stays in the partition. -/
def Call.Stays (p : Profile) (bs start count : Nat) : Call → Prop
  | .readBlock len lba => BlocksIn p start count lba (blocksOf bs len)
  | .writeBlock buf lba => BlocksIn p start count lba (blocksOf bs buf.length)
  | .read len offset => p = .dev ∧ 2 ^ 64 ≤ offset + len ∨ isizeMax < padded bs len offset ∨
      BlocksIn p start count (offset / bs) (blocksOf bs (padded bs len offset))
  | .write buf offset => p = .dev ∧ 2 ^ 64 ≤ offset + buf.length ∨ isizeMax < padded bs buf.length offset ∨
      padded bs buf.length offset < bs ∨
      BlocksIn p start count (offset / bs) (blocksOf bs (padded bs buf.length offset)) ∧
        offset + buf.length ≠ 2 ^ 64 ∨
      p = .dev ∧ offset / bs < count ∧ 2 ^ 64 ≤ blocksOf bs (offset + buf.length) - 1 + start

section Sufficient

variable {p : Profile} {part : PartDev} {lba : Nat} (hdev : part.dev.Lawful p)

/-- What a device below does with a request that the partition passes on. -/
theorem inside_of_within {start count : Nat} {d : Disk} {log : List Access} {k lba' : Nat}
    (hin : BlocksIn p start count lba k) (hlba : p.fit Stop.panic 64 (lba + start) = .ok lba')
    (hlog : Within p d.log lba' k log) (hd : Inside start count d) :
    ∀ a ∈ log, start ≤ a.lba ∧ a.lba < start + count := by
  intro a ha
  rcases hlog a ha with hold | ⟨i, hi, hnew⟩
  · exact hd a hold
  · rw [← Nat.cast_add] at hlba hnew
    rcases hin with rfl | ⟨hle, hfits⟩ | ⟨rfl, hend⟩
    · exact absurd hi (Nat.not_lt_zero i)
    · rw [Profile.fit_of_lt (by omega)] at hlba
      obtain rfl := Except.ok.inj hlba
      rw [Profile.fit_of_lt (by omega)] at hnew
      have := Except.ok.inj hnew
      omega
    · obtain ⟨rfl, hlt⟩ := Profile.eq_of_fit_dev hlba
      obtain ⟨hblock, hlt'⟩ := Profile.eq_of_fit_dev hnew
      omega

include hdev

theorem of_readBlock_ok {len : Nat} {buf : List Byte} {d d' : Disk} (h : readBlock p part len lba d = (.ok buf, d')) :
    buf.length = len ∧ ¬(p = .dev ∧ 2 ^ 64 ≤ lba + part.startLba) := by
  obtain ⟨lba', d₁, hlba, h⟩ := Eff.bind_eq_ok.mp h
  refine ⟨hdev.length len lba' d₁ buf d' h, ?_⟩
  rintro ⟨rfl, hge⟩
  rw [← Nat.cast_add, Profile.fit_dev_of_le hge] at hlba
  cases hlba

theorem keeps_readBlock {len : Nat}
    (hin : BlocksIn p part.startLba part.blockCount lba (blocksOf part.dev.blockSize len)) :
    Eff.Keeps (Inside part.startLba part.blockCount) (readBlock p part len lba) :=
  Eff.Keeps.lift_bind fun lba' hlba d hd => inside_of_within hin hlba (hdev.read len lba' d) hd

theorem keeps_writeBlock {buf : List Byte}
    (hin : BlocksIn p part.startLba part.blockCount lba (blocksOf part.dev.blockSize buf.length)) :
    Eff.Keeps (Inside part.startLba part.blockCount) (writeBlock p part buf lba) :=
  Eff.Keeps.lift_bind fun lba' hlba d hd => inside_of_within hin hlba (hdev.write buf lba' d) hd

/-- The reads and the write of `write`, where a read that stops the kernel makes the rest harmless. -/
theorem keeps_rewrite {first stop len offset : Nat} {buf : List Byte}
    (hle : part.dev.blockSize ≤ len) (hfits : offset % part.dev.blockSize + buf.length ≤ len)
    (hstop : 0 < stop) (hlt : stop < 2 ^ 64)
    (hhead : BlocksIn p part.startLba part.blockCount first 1)
    (htail : ¬(p = .dev ∧ 2 ^ 64 ≤ first + part.startLba) →
      BlocksIn p part.startLba part.blockCount (stop - 1) 1)
    (hall : ¬(p = .dev ∧ 2 ^ 64 ≤ first + part.startLba) → ¬(p = .dev ∧ 2 ^ 64 ≤ stop - 1 + part.startLba) →
      BlocksIn p part.startLba part.blockCount (offset / part.dev.blockSize)
        (blocksOf part.dev.blockSize len)) :
    Eff.Keeps (Inside part.startLba part.blockCount)
      (readBlock p part part.dev.blockSize first >>= fun head =>
        Eff.lift (p.fit .panic 64 (stop - 1)) >>= fun final =>
        readBlock p part part.dev.blockSize final >>= fun tail =>
        writeBlock p part (patch part.dev.blockSize offset len buf head tail)
          (offset / part.dev.blockSize)) := by
  have hone := blocksOf_self hdev.pos
  refine (keeps_readBlock hdev (hone.symm ▸ hhead)).bind fun _ head _ hread => ?_
  obtain ⟨hheadlen, hheadok⟩ := of_readBlock_ok hdev hread
  rw [← Nat.cast_one, Profile.fit_sub hstop hlt, Eff.lift_ok_bind]
  refine (keeps_readBlock hdev (hone.symm ▸ htail hheadok)).bind fun _ tail _ hread => ?_
  obtain ⟨htaillen, htailok⟩ := of_readBlock_ok hdev hread
  apply keeps_writeBlock hdev
  rw [length_patch hheadlen htaillen hle hfits]
  exact hall hheadok htailok

variable {offset : Nat} (hbs : part.dev.blockSize < 2 ^ 32) (hoff : offset < 2 ^ 64)
include hbs hoff

theorem keeps_read {len : Nat} (hlen : len ≤ isizeMax)
    (hstays : (Call.read len offset).Stays p part.dev.blockSize part.startLba part.blockCount) :
    Eff.Keeps (Inside part.startLba part.blockCount) (read p part len offset) := by
  unfold read
  refine Eff.Keeps.lift_bind fun ⟨first, stop, bytes⟩ hspan => ?_
  obtain ⟨hover, hmax, rfl, rfl, rfl⟩ := eq_of_span hdev.pos hbs hlen hoff hspan
  have hin := (hstays.resolve_left hover).resolve_left (Nat.not_lt.mpr hmax)
  refine (keeps_readBlock hdev hin).bind fun _ vec _ _ => ?_
  exact Eff.Keeps.lift_bind fun _ _ _ hd => hd

theorem keeps_write {buf : List Byte} (hlen : buf.length ≤ isizeMax)
    (hstays : (Call.write buf offset).Stays p part.dev.blockSize part.startLba part.blockCount) :
    Eff.Keeps (Inside part.startLba part.blockCount) (write p part buf offset) := by
  rcases hspan : span p part.dev.blockSize buf.length offset with e | ⟨first, stop, len⟩
  · unfold write
    dsimp only
    rw [hspan, Eff.lift_error_bind]
    exact Eff.keeps_lift _
  obtain ⟨hover, hmax, rfl, rfl, rfl⟩ := eq_of_span hdev.pos hbs hlen hoff hspan
  by_cases hblock : part.dev.blockSize ≤ padded part.dev.blockSize buf.length offset
  swap
  · unfold write
    dsimp only
    rw [hspan, Eff.lift_ok_bind]
    exact Eff.Keeps.lift_bind fun _ hcheck => absurd (ensure_eq_ok.mp hcheck) hblock
  have hcases := ((hstays.resolve_left hover).resolve_left (Nat.not_lt.mpr hmax)).resolve_left
    (Nat.not_lt.mpr hblock)
  have hk := blocksOf_pos hdev.pos hblock
  have hfits : offset % part.dev.blockSize + buf.length ≤ padded part.dev.blockSize buf.length offset :=
    Nat.le_add_right _ _
  -- in a development build the range ends below the word
  have hne : offset + buf.length ≠ 2 ^ 64 := by
    rcases hcases with ⟨-, hne⟩ | ⟨rfl, -⟩
    · exact hne
    · exact fun heq => hover ⟨rfl, Nat.le_of_eq heq.symm⟩
  have hstop : 0 < blocksOf part.dev.blockSize (finish buf.length offset) :=
    Nat.div_pos (by have := finish_pos hlen hoff hdev.pos hblock hne; omega) hdev.pos
  have hlt : blocksOf part.dev.blockSize (finish buf.length offset) < 2 ^ 64 :=
    Nat.lt_of_le_of_lt (blocksOf_le hdev.pos _) (Nat.mod_lt _ (Nat.two_pow_pos 64))
  have hle := stop_le hdev.pos buf.length offset
  rw [write_eq, BlockDevice.writeAt_of_span (part.toBlockDevice p) hspan hblock hfits]
  rcases hcases with ⟨hin, -⟩ | ⟨rfl, hfirst, hend⟩
  · refine keeps_rewrite hdev hblock hfits hstop hlt ?_ ?_ fun _ _ => hin
    · rcases hin with hzero | hall | hend
      · omega
      · exact .inr (.inl (by omega))
      · exact .inr (.inr hend)
    · intro hok
      rcases hin with hzero | hall | ⟨hp, hend⟩
      · omega
      · exact .inr (.inl (by omega))
      · exact .inr (.inr ⟨hp, .inr (hend.resolve_left fun hstart => hok ⟨hp, hstart⟩)⟩)
  · have hfinish : finish buf.length offset = offset + buf.length :=
      Nat.mod_eq_of_lt (Nat.lt_of_not_le fun hge => hover ⟨rfl, hge⟩)
    rw [← hfinish] at hend
    refine keeps_rewrite hdev hblock hfits hstop hlt ?_ (fun _ => .inr (.inr ⟨rfl, .inl hend⟩))
      fun _ hok => absurd ⟨rfl, hend⟩ hok
    by_cases hword : 2 ^ 64 ≤ offset / part.dev.blockSize + part.startLba
    · exact .inr (.inr ⟨rfl, .inl hword⟩)
    · exact .inr (.inl (by omega))

end Sufficient

section Necessary

variable {p : Profile} {bs start count lba : Nat} (hstart : start < 2 ^ 64) (hcount : count < 2 ^ 64)

/-- The `k` blocks from `lba` on, up to where a development build stops. -/
def blocksFrom (p : Profile) (lba k : Nat) : List Nat :=
  (List.range k).filterMap fun i : Nat => (p.fit Stop.panic 64 (lba + i)).toOption

theorem mem_blocksFrom {k a : Nat} :
    a ∈ blocksFrom p lba k ↔ ∃ i < k, p.fit Stop.panic 64 (lba + i) = .ok a := by
  simp only [blocksFrom, List.mem_filterMap, List.mem_range]
  refine exists_congr fun i => and_congr_right fun _ => ?_
  cases p.fit Stop.panic 64 (lba + i) <;> simp [Except.toOption]

/-- A device that only notes what it is told to read and write. -/
def noted (p : Profile) (bs : Nat) : BlockDevice where
  blockSize := bs
  blockCount := 2 ^ 64 - 1
  readBlock len lba d :=
    (.ok (List.replicate len 0), { d with log := d.log ++ (blocksFrom p lba (blocksOf bs len)).map .read })
  writeBlock buf lba d :=
    (.ok (), { d with log := d.log ++ (blocksFrom p lba (blocksOf bs buf.length)).map .write })

theorem noted_lawful (hpos : 0 < bs) : (noted p bs).Lawful p where
  pos := hpos
  read len lba d a ha := (List.mem_append.mp ha).imp_right fun ha => by
    obtain ⟨b, hb, rfl⟩ := List.mem_map.mp ha
    exact mem_blocksFrom.mp hb
  write buf lba d a ha := (List.mem_append.mp ha).imp_right fun ha => by
    obtain ⟨b, hb, rfl⟩ := List.mem_map.mp ha
    exact mem_blocksFrom.mp hb
  length len lba d buf d' h := by
    cases h
    exact List.length_replicate

def onNoted (p : Profile) (bs start count : Nat) : PartDev := ⟨noted p bs, start, count⟩

include hstart hcount

/-- A block that the partition does not have, in every range that leaves it. -/
theorem exists_outside {k : Nat} (hlba : lba < 2 ^ 64) (h : ¬BlocksIn p start count lba k) :
    ∃ lba' n, p.fit Stop.panic 64 (lba + start) = .ok lba' ∧ n ∈ blocksFrom p lba' k ∧
      ¬(start ≤ n ∧ n < start + count) := by
  suffices hj : ∃ lba' j, p.fit Stop.panic 64 (lba + start) = .ok lba' ∧ j < k ∧ ¬(p = .dev ∧ 2 ^ 64 ≤ lba' + j) ∧
      ¬(start ≤ (lba' + j) % 2 ^ 64 ∧ (lba' + j) % 2 ^ 64 < start + count) by
    obtain ⟨lba', j, hfit, hj, hgo, hout⟩ := hj
    exact ⟨lba', _, hfit, mem_blocksFrom.mpr ⟨j, hj, by rw [← Nat.cast_add, Profile.fit_natCast hgo]⟩, hout⟩
  unfold BlocksIn at h
  have hover : ¬(p = .dev ∧ 2 ^ 64 ≤ lba + start) := fun hover => h (.inr (.inr ⟨hover.1, .inl hover.2⟩))
  have hfit : p.fit Stop.panic 64 (lba + start) = .ok ((lba + start) % 2 ^ 64) := by
    rw [← Nat.cast_add]
    exact Profile.fit_natCast hover
  cases p with
  | dev =>
      simp only [true_and] at h hover
      refine ⟨_, max lba count - lba, hfit, ?_, fun hge => ?_, ?_⟩ <;> omega
  | release =>
      simp only [reduceCtorEq, false_and, or_false] at h
      have hgo (n : Nat) : ¬(Profile.release = .dev ∧ 2 ^ 64 ≤ n) := fun hge => nomatch hge.1
      rcases Nat.lt_or_ge (lba + start) (2 ^ 64) with hlt | hge
      · rcases Nat.lt_or_ge count (lba + k) with hlong | hshort
        · exact ⟨_, max lba count - lba, hfit, by omega, hgo _, by omega⟩
        · -- the range goes over the last number there is
          exact ⟨_, 2 ^ 64 - start - lba, hfit, by omega, hgo _, by omega⟩
      · exact ⟨_, 0, hfit, by omega, hgo _, by omega⟩

theorem readBlock_leaves {len : Nat} (hlba : lba < 2 ^ 64) (h : ¬BlocksIn p start count lba (blocksOf bs len)) :
    ∃ a : Access, ¬(start ≤ a.lba ∧ a.lba < start + count) ∧
      ∀ d, a ∈ (readBlock p (onNoted p bs start count) len lba d).2.log := by
  obtain ⟨lba', n, hfit, hn, hout⟩ := exists_outside hstart hcount hlba h
  refine ⟨.read n, hout, fun d => ?_⟩
  unfold readBlock
  rw [show (onNoted p bs start count).startLba = start from rfl, hfit, Eff.lift_ok_bind]
  exact List.mem_append_right _ (List.mem_map_of_mem hn)

theorem writeBlock_leaves {buf : List Byte} (hlba : lba < 2 ^ 64)
    (h : ¬BlocksIn p start count lba (blocksOf bs buf.length)) :
    ∃ a : Access, ¬(start ≤ a.lba ∧ a.lba < start + count) ∧
      ∀ d, a ∈ (writeBlock p (onNoted p bs start count) buf lba d).2.log := by
  obtain ⟨lba', n, hfit, hn, hout⟩ := exists_outside hstart hcount hlba h
  refine ⟨.write n, hout, fun d => ?_⟩
  unfold writeBlock
  rw [show (onNoted p bs start count).startLba = start from rfl, hfit, Eff.lift_ok_bind]
  exact List.mem_append_right _ (List.mem_map_of_mem hn)

omit hstart hcount

theorem keeps_mem_readBlock (a : Access) (len lba : Nat) :
    Eff.Keeps (fun d : Disk => a ∈ d.log) (readBlock p (onNoted p bs start count) len lba) :=
  Eff.Keeps.lift_bind fun _ _ _ h => List.mem_append_left _ h

theorem keeps_mem_writeBlock (a : Access) (buf : List Byte) (lba : Nat) :
    Eff.Keeps (fun d : Disk => a ∈ d.log) (writeBlock p (onNoted p bs start count) buf lba) :=
  Eff.Keeps.lift_bind fun _ _ _ h => List.mem_append_left _ h

theorem readBlock_ok (count : Nat) (h : ¬(p = .dev ∧ 2 ^ 64 ≤ lba + start)) (d : Disk) :
    ∃ buf d', readBlock p (onNoted p bs start count) bs lba d = (.ok buf, d') := by
  have hfit : p.fit Stop.panic 64 (lba + start) = .ok ((lba + start) % 2 ^ 64) := by
    rw [← Nat.cast_add]
    exact Profile.fit_natCast h
  unfold readBlock
  rw [show (onNoted p bs start count).startLba = start from rfl, hfit, Eff.lift_ok_bind]
  exact ⟨_, _, rfl⟩

/-- The reads and the write of `write`, one of them outside. -/
theorem rewrite_leaves {first stop final len offset : Nat} {buf : List Byte} (hstart : start < 2 ^ 64)
    (hcount : count < 2 ^ 64) (hpos : 0 < bs) (hle : bs ≤ len) (hfits : offset % bs + buf.length ≤ len)
    (hoff : offset < 2 ^ 64) (hfirst : first < 2 ^ 64) (hfinal : p.fit Stop.panic 64 ((stop : Int) - 1) = .ok final)
    (hhead : ¬(p = .dev ∧ 2 ^ 64 ≤ first + start))
    (htail : BlocksIn p start count first 1 → ¬(p = .dev ∧ 2 ^ 64 ≤ final + start))
    (hout : BlocksIn p start count first 1 → BlocksIn p start count final 1 →
      ¬BlocksIn p start count (offset / bs) (blocksOf bs len)) (d : Disk) :
    ∃ a : Access, ¬(start ≤ a.lba ∧ a.lba < start + count) ∧
      a ∈ ((readBlock p (onNoted p bs start count) bs first >>= fun head =>
        Eff.lift (p.fit .panic 64 (stop - 1)) >>= fun final =>
        readBlock p (onNoted p bs start count) bs final >>= fun tail =>
        writeBlock p (onNoted p bs start count) (patch bs offset len buf head tail) (offset / bs)) d).2.log := by
  have hone := blocksOf_self hpos
  have hdev : (onNoted p bs start count).dev.Lawful p := noted_lawful hpos
  by_cases hin : BlocksIn p start count first 1
  swap
  · obtain ⟨a, hleaves, ha⟩ := readBlock_leaves hstart hcount hfirst (hone.symm ▸ hin)
    refine ⟨a, hleaves, Eff.after_bind (P := fun d : Disk => a ∈ d.log) (ha d) fun head => ?_⟩
    refine Eff.Keeps.lift_bind fun _ _ => (keeps_mem_readBlock a _ _).bind fun _ _ _ _ => ?_
    exact keeps_mem_writeBlock a _ _
  obtain ⟨head, d₁, hread⟩ := readBlock_ok count hhead d
  obtain ⟨hheadlen, -⟩ := of_readBlock_ok hdev hread
  rw [Eff.bind_of_ok hread, hfinal, Eff.lift_ok_bind]
  by_cases hin' : BlocksIn p start count final 1
  swap
  · obtain ⟨a, hleaves, ha⟩ := readBlock_leaves hstart hcount (Profile.lt_of_fit hfinal) (hone.symm ▸ hin')
    exact ⟨a, hleaves, Eff.after_bind (P := fun d : Disk => a ∈ d.log) (ha d₁) fun tail =>
      keeps_mem_writeBlock a _ _⟩
  obtain ⟨tail, d₂, hread⟩ := readBlock_ok count (htail hin) d₁
  obtain ⟨htaillen, -⟩ := of_readBlock_ok hdev hread
  rw [Eff.bind_of_ok hread]
  have hout : ¬BlocksIn p start count (offset / bs) (blocksOf bs (patch bs offset len buf head tail).length) := by
    rw [length_patch hheadlen htaillen hle hfits]
    exact hout hin hin'
  obtain ⟨a, hleaves, ha⟩ :=
    writeBlock_leaves hstart hcount (Nat.lt_of_le_of_lt (Nat.div_le_self offset bs) hoff) hout
  exact ⟨a, hleaves, ha d₂⟩

variable {offset : Nat} (hpos : 0 < bs) (hbs : bs < 2 ^ 32) (hoff : offset < 2 ^ 64)
include hstart hcount hpos hbs hoff

theorem read_leaves {len : Nat} (hlen : len ≤ isizeMax) (h : ¬(Call.read len offset).Stays p bs start count) :
    ∃ a : Access, ¬(start ≤ a.lba ∧ a.lba < start + count) ∧
      ∀ d, a ∈ (read p (onNoted p bs start count) len offset d).2.log := by
  obtain ⟨hover, hmax, hin⟩ : ¬(p = .dev ∧ 2 ^ 64 ≤ offset + len) ∧ padded bs len offset ≤ isizeMax ∧
      ¬BlocksIn p start count (offset / bs) (blocksOf bs (padded bs len offset)) := by
    simp only [Call.Stays, not_or] at h
    exact ⟨h.1, Nat.le_of_not_lt h.2.1, h.2.2⟩
  obtain ⟨a, hout, ha⟩ := readBlock_leaves hstart hcount (Nat.lt_of_le_of_lt (Nat.div_le_self offset bs) hoff) hin
  refine ⟨a, hout, fun d => ?_⟩
  have hspan : span p bs len offset = .ok (offset / bs, blocksOf bs (finish len offset), padded bs len offset) := by
    rw [span_eq hpos hbs hlen hoff hover, ensure_eq_ok.mpr hmax]
    rfl
  unfold read
  rw [show (onNoted p bs start count).dev.blockSize = bs from rfl, hspan, Eff.lift_ok_bind]
  apply Eff.after_bind (P := fun d : Disk => a ∈ d.log) (ha d)
  exact fun vec => Eff.Keeps.lift_bind fun _ _ _ hd => hd

theorem write_leaves {buf : List Byte} (hlen : buf.length ≤ isizeMax)
    (h : ¬(Call.write buf offset).Stays p bs start count) (d : Disk) :
    ∃ a : Access, ¬(start ≤ a.lba ∧ a.lba < start + count) ∧
      a ∈ (write p (onNoted p bs start count) buf offset d).2.log := by
  simp only [Call.Stays, not_or] at h
  obtain ⟨hover, hmax, hblock, hall, hend⟩ := h
  have hmax := Nat.le_of_not_lt hmax
  have hblock := Nat.le_of_not_lt hblock
  have hfits : offset % bs + buf.length ≤ padded bs buf.length offset := Nat.le_add_right _ _
  have hfirst : offset / bs < 2 ^ 64 := Nat.lt_of_le_of_lt (Nat.div_le_self offset bs) hoff
  have hspan : span p bs buf.length offset =
      .ok (offset / bs, blocksOf bs (finish buf.length offset), padded bs buf.length offset) := by
    rw [span_eq hpos hbs hlen hoff hover, ensure_eq_ok.mpr hmax]
    rfl
  -- a development build does not stop for the numbers of the blocks
  have hword : p = .dev → ¬(2 ^ 64 ≤ offset / bs + start ∨ 2 ^ 64 ≤ start + count) := fun hp hword =>
    hall ⟨.inr (.inr ⟨hp, hword⟩), fun heq => hover ⟨hp, Nat.le_of_eq heq.symm⟩⟩
  have hhead : ¬(p = .dev ∧ 2 ^ 64 ≤ offset / bs + start) := fun hge => hword hge.1 (.inl hge.2)
  rw [write_eq, BlockDevice.writeAt_of_span ((onNoted p bs start count).toBlockDevice p) hspan hblock hfits]
  by_cases hne : offset + buf.length = 2 ^ 64
  · -- the end of the range is taken for block zero, and the block before it is read
    cases p with
    | dev => exact absurd ⟨rfl, Nat.le_of_eq hne.symm⟩ hover
    | release =>
        have hzero : blocksOf bs (finish buf.length offset) = 0 := by
          have hfinish : finish buf.length offset = 0 := by rw [finish, hne, Nat.mod_self]
          rw [hfinish]
          exact Nat.le_zero.mp (blocksOf_le hpos 0)
        have hfinal : Profile.release.fit Stop.panic 64 (((0 : Nat) : Int) - 1) = .ok (2 ^ 64 - 1) := by
          rw [Profile.fit_release]
          rfl
        rw [hzero]
        refine rewrite_leaves hstart hcount hpos hblock hfits hoff hfirst hfinal hhead
          (fun _ hge => nomatch hge.1) (fun _ hin => ?_) d
        rcases hin with h | h | ⟨h, -⟩
        · omega
        · omega
        · cases h
  · have hstop : 0 < blocksOf bs (finish buf.length offset) :=
      Nat.div_pos (by have := finish_pos hlen hoff hpos hblock hne; omega) hpos
    have hlt : blocksOf bs (finish buf.length offset) < 2 ^ 64 :=
      Nat.lt_of_le_of_lt (blocksOf_le hpos _) (Nat.mod_lt _ (Nat.two_pow_pos 64))
    refine rewrite_leaves hstart hcount hpos hblock hfits hoff hfirst
      (by rw [← Nat.cast_one]; exact Profile.fit_sub hstop hlt) hhead (fun hin => ?_)
      (fun _ _ hin => hall ⟨hin, hne⟩) d
    rintro ⟨rfl, hge⟩
    have hfinish : finish buf.length offset = offset + buf.length :=
      Nat.mod_eq_of_lt (Nat.lt_of_not_le fun hge => hover ⟨rfl, hge⟩)
    rw [hfinish] at hge
    rcases hin with hzero | hin | ⟨-, hin⟩
    · omega
    · exact hend ⟨rfl, by omega, hge⟩
    · exact hword rfl hin

end Necessary

/-- A call on a partition commands no block outside of it, on any device below, if and only if it `Stays`. -/
theorem inside_iff_stays {p : Profile} {bs start count : Nat} {call : Call} (hpos : 0 < bs) (hbs : bs < 2 ^ 32)
    (hstart : start < 2 ^ 64) (hcount : count < 2 ^ 64) (hcall : call.InRange) :
    (∀ dev : BlockDevice, dev.Lawful p → dev.blockSize = bs → ∀ byte,
      Inside start count (exec p ⟨dev, start, count⟩ call ⟨byte, []⟩)) ↔ call.Stays p bs start count := by
  constructor
  · intro hall
    have hinside := hall (noted p bs) (noted_lawful hpos) rfl fun _ _ => 0
    by_contra hstays
    obtain ⟨a, hout, ha⟩ : ∃ a : Access, ¬(start ≤ a.lba ∧ a.lba < start + count) ∧
        a ∈ (exec p (onNoted p bs start count) call ⟨fun _ _ => 0, []⟩).log := by
      cases call with
      | readBlock len lba =>
          obtain ⟨a, hout, ha⟩ := readBlock_leaves hstart hcount hcall.2 hstays
          exact ⟨a, hout, ha _⟩
      | writeBlock buf lba =>
          obtain ⟨a, hout, ha⟩ := writeBlock_leaves hstart hcount hcall.2 hstays
          exact ⟨a, hout, ha _⟩
      | read len offset =>
          obtain ⟨a, hout, ha⟩ := read_leaves hstart hcount hpos hbs hcall.2 hcall.1 hstays
          exact ⟨a, hout, ha _⟩
      | write buf offset => exact write_leaves hstart hcount hpos hbs hcall.2 hcall.1 hstays _
    exact hout (hinside a ha)
  · rintro hstays dev hdev rfl byte
    have hempty : Inside start count ⟨byte, []⟩ := fun a ha => absurd ha List.not_mem_nil
    cases call with
    | readBlock len lba => exact @keeps_readBlock p ⟨dev, start, count⟩ lba hdev len hstays _ hempty
    | writeBlock buf lba => exact @keeps_writeBlock p ⟨dev, start, count⟩ lba hdev buf hstays _ hempty
    | read len offset =>
        exact @keeps_read p ⟨dev, start, count⟩ hdev offset hbs hcall.2 len hcall.1 hstays _ hempty
    | write buf offset =>
        exact @keeps_write p ⟨dev, start, count⟩ hdev offset hbs hcall.2 buf hcall.1 hstays _ hempty

/-- A partition of an NVMe device where every command succeeds. -/
def onQuiet (p : Profile) (bs start count : Nat) : PartDev :=
  ⟨BlockDeviceNVMe.toBlockDevice p BlockDeviceNVMe.sampleHost ⟨bs, 2 ^ 64 - 1, fun _ _ => none⟩, start, count⟩

theorem inside_iff_stays_disk :
    Inside 2048 100 (exec .dev (onQuiet .dev 512 2048 100) (.read 700 1024) ⟨fun _ _ => 0, []⟩) := by
  have hstays : (Call.read 700 1024).Stays .dev 512 2048 100 := by
    unfold Call.Stays BlocksIn
    decide
  exact (inside_iff_stays (by decide) (by decide) (by decide) (by decide) (by unfold Call.InRange; decide)).mpr hstays _
    (BlockDeviceNVMe.lawful (by decide)) rfl _

/-- One byte behind the last of a partition of 100 blocks: the block that follows is read and written. -/
theorem exec_leaves :
    (exec .dev (onQuiet .dev 512 2048 100) (.write [7] 51200) ⟨fun _ _ => 0, []⟩).log =
      [.read 2148, .read 2148, .write 2148] ∧
    (exec .release (onQuiet .release 512 2048 100) (.write [7] 51200) ⟨fun _ _ => 0, []⟩).log =
      [.read 2148, .read 2148, .write 2148] ∧
    ¬Inside 2048 100 (exec .dev (onQuiet .dev 512 2048 100) (.write [7] 51200) ⟨fun _ _ => 0, []⟩) ∧
    ¬Inside 2048 100 (exec .release (onQuiet .release 512 2048 100) (.write [7] 51200) ⟨fun _ _ => 0, []⟩) := by
  have hout {d : Disk} (hlog : d.log = [.read 2148, .read 2148, .write 2148]) : ¬Inside 2048 100 d :=
    fun h => absurd (h (.write 2148) (by rw [hlog]; decide)).2 (by decide)
  have hdev : (exec .dev (onQuiet .dev 512 2048 100) (.write [7] 51200) ⟨fun _ _ => 0, []⟩).log =
      [.read 2148, .read 2148, .write 2148] := by decide +kernel
  have hrelease : (exec .release (onQuiet .release 512 2048 100) (.write [7] 51200) ⟨fun _ _ => 0, []⟩).log =
      [.read 2148, .read 2148, .write 2148] := by decide +kernel
  exact ⟨hdev, hrelease, hout hdev, hout hrelease⟩

end PartDev

end UnixKernel
