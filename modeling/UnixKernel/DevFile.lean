import UnixKernel.NvmeBounce

/-! The nodes of `filesys/dev.rs` as files: `read` and `write` at any byte of a device or of a partition. On a
device that is a flat array of blocks a write splices its buffer into the array and a read is a window of it.
A write of nothing at a block boundary has no block to read and takes a slice out of range. -/

namespace UnixKernel

open FlatArray

/-- `DevFile`. -/
structure DevFile where
  dev : BlockDevice

namespace DevFile

variable (p : Profile)

def read (f : DevFile) (len offset : Nat) : DiskM (List Byte) := f.dev.readAt p len offset

def write (f : DevFile) (buf : List Byte) (offset : Nat) : DiskM Unit := f.dev.writeAt p buf offset

end DevFile

/-! ### The blocks of a range -/

namespace BlockDevice

section Range

variable {p : Profile} {bs len offset count : Nat}

theorem start_le_stop (hpos : 0 < bs) : offset / bs ≤ blocksOf bs (offset + len) := by
  refine Nat.le_of_mul_le_mul_right (c := bs) ?_ hpos
  have hstart := Nat.div_mul_le_self offset bs
  have hstop : offset + len ≤ blocksOf bs (offset + len) * bs := le_blocksOf_mul hpos
  omega

theorem stop_le_count (hpos : 0 < bs) (hin : offset + len ≤ bs * count) : blocksOf bs (offset + len) ≤ count := by
  refine Nat.le_of_lt_succ ((Nat.div_lt_iff_lt_mul hpos).mpr ?_)
  rw [Nat.succ_mul, Nat.mul_comm count]
  omega

theorem blocksOf_mul (hpos : 0 < bs) (k : Nat) : blocksOf bs (k * bs) = k := by
  unfold blocksOf
  rw [Nat.add_sub_assoc hpos, Nat.add_comm, Nat.add_mul_div_right _ _ hpos, Nat.div_eq_of_lt (by omega), Nat.zero_add]

theorem padded_eq (hpos : 0 < bs) (hlt : offset + len < 2 ^ 64) :
    PartDev.padded bs len offset = (blocksOf bs (offset + len) - offset / bs) * bs := by
  have hstop : offset + len ≤ blocksOf bs (offset + len) * bs := le_blocksOf_mul hpos
  have hdiv : offset / bs * bs + offset % bs = offset := Nat.div_add_mod' offset bs
  unfold PartDev.padded PartDev.finish
  rw [Nat.mod_eq_of_lt hlt, Nat.sub_mul]
  omega

theorem span_of_room (hpos : 0 < bs) (hlt : offset + len < 2 ^ 64)
    (hroom : PartDev.padded bs len offset ≤ PartDev.isizeMax) : PartDev.span p bs len offset =
      .ok (offset / bs, blocksOf bs (offset + len), PartDev.padded bs len offset) := by
  have hstop := PartDev.blocksOf_le hpos (offset + len)
  have hbytes : PartDev.padded bs len offset < 2 ^ 64 := by
    unfold PartDev.isizeMax at hroom
    omega
  unfold PartDev.span
  rw [← Nat.cast_add, Profile.fit_of_lt hlt, ok_bind]
  dsimp only
  rw [Profile.fit_sub (start_le_stop hpos) (by omega), ok_bind, ← Nat.cast_mul, ← padded_eq hpos hlt,
    Profile.fit_of_lt hbytes, ok_bind, ensure_eq_ok.mpr hroom]
  rfl

theorem fits_padded : offset % bs + len ≤ PartDev.padded bs len offset := by
  unfold PartDev.padded
  omega

theorem le_padded (hpos : 0 < bs) (hlt : offset + len < 2 ^ 64) (hmeets : 0 < offset % bs + len) :
    bs ≤ PartDev.padded bs len offset := by
  have hfits : offset % bs + len ≤ PartDev.padded bs len offset := fits_padded
  rw [padded_eq hpos hlt] at hfits ⊢
  refine Nat.le_mul_of_pos_left bs (Nat.pos_of_ne_zero fun hzero => ?_)
  rw [hzero] at hfits
  omega

theorem start_lt_stop (hpos : 0 < bs) (hlt : offset + len < 2 ^ 64) (hmeets : 0 < offset % bs + len) :
    offset / bs < blocksOf bs (offset + len) := by
  have hle := le_padded hpos hlt hmeets
  by_contra hge
  rw [padded_eq hpos hlt, Nat.sub_eq_zero_of_le (Nat.le_of_not_lt hge)] at hle
  omega

theorem blocks_le_count (hpos : 0 < bs) (hlt : offset + len < 2 ^ 64) (hin : offset + len ≤ bs * count) :
    offset / bs + blocksOf bs (PartDev.padded bs len offset) ≤ count := by
  rw [padded_eq hpos hlt, blocksOf_mul hpos, Nat.add_sub_cancel' (start_le_stop hpos)]
  exact stop_le_count hpos hin

theorem padded_eq_zero (hlt : offset < 2 ^ 64) (hpos : 0 < bs) (halign : offset % bs = 0) :
    PartDev.padded bs 0 offset = 0 := by
  have hdiv : offset / bs * bs = offset := Nat.div_mul_cancel (Nat.dvd_of_mod_eq_zero halign)
  have hstop : blocksOf bs offset = offset / bs := by
    conv_lhs => rw [← hdiv, blocksOf_mul hpos]
  rw [padded_eq hpos hlt, Nat.add_zero, hstop, Nat.sub_self, Nat.zero_mul]

end Range

/-! ### A flat device -/

section Flat

variable {p : Profile} {dev : BlockDevice} {first len offset : Nat}

/-- The blocks of the range, read and cut to it. -/
theorem readAt_of_flat (hflat : dev.Flat first) (hlt : offset + len < 2 ^ 64)
    (hin : offset + len ≤ dev.blockSize * dev.blockCount)
    (hroom : PartDev.padded dev.blockSize len offset ≤ PartDev.isizeMax) (d : Disk) :
    ∃ d', dev.readAt p len offset d =
        (.ok (window (d.flat dev.blockSize) (first * dev.blockSize + offset) len), d') ∧
      d'.flat dev.blockSize = d.flat dev.blockSize := by
  have hpos := hflat.pos
  obtain ⟨d', hread, hd'⟩ := hflat.read _ _ d (blocks_le_count hpos hlt hin)
  have hfirst : (first + offset / dev.blockSize) * dev.blockSize + offset % dev.blockSize =
      first * dev.blockSize + offset := by
    rw [Nat.add_mul, Nat.add_assoc, Nat.div_add_mod']
  refine ⟨d', ?_, hd'⟩
  unfold readAt
  dsimp only
  rw [span_of_room hpos hlt hroom, Eff.lift_ok_bind, Eff.bind_of_ok hread,
    ensure_eq_ok.mpr (by rw [length_window]; exact fits_padded), Eff.lift_ok_bind,
    take_drop_window fits_padded, hfirst]
  rfl

/-- The buffer of a write is the bytes to write between what the two blocks held: what the zeros left in the
middle is all overwritten. -/
theorem patch_eq {f : Nat → Byte} {a bs : Nat} {buf : List Byte} (hpos : 0 < bs) (hle : bs ≤ len)
    (hfits : offset % bs + buf.length ≤ len) (hend : len ≤ offset % bs + buf.length + bs) :
    PartDev.patch bs offset len buf (window f a bs) (window f (a + (len - bs)) bs) =
      window f a (offset % bs) ++ buf ++
        window f (a + offset % bs + buf.length) (len - (offset % bs + buf.length)) := by
  have hmod : offset % bs < bs := Nat.mod_lt offset hpos
  unfold PartDev.patch
  dsimp only
  rcases Nat.le_total (len - bs) bs with hone | hmany
  · have hall : ((window f a bs ++ (List.replicate len 0).drop bs).take (len - bs) ++
        window f (a + (len - bs)) bs) = window f a len := by
      rw [List.take_append_of_le_length (by rw [length_window]; exact hone), take_window hone, ← window_add,
        Nat.sub_add_cancel hle]
    rw [hall, take_window (by omega), drop_window hfits, Nat.add_assoc]
  · have hlen : ((window f a bs ++ (List.replicate len 0).drop bs).take (len - bs)).length = len - bs := by
      rw [List.length_take, List.length_append, length_window, List.length_drop, List.length_replicate]
      omega
    have hhead : ((window f a bs ++ (List.replicate len 0).drop bs).take (len - bs) ++
        window f (a + (len - bs)) bs).take (offset % bs) = window f a (offset % bs) := by
      rw [List.take_append_of_le_length (by omega), List.take_take, Nat.min_eq_left (by omega),
        List.take_append_of_le_length (by rw [length_window]; omega), take_window (by omega)]
    have htail : ((window f a bs ++ (List.replicate len 0).drop bs).take (len - bs) ++
        window f (a + (len - bs)) bs).drop (offset % bs + buf.length) =
        window f (a + offset % bs + buf.length) (len - (offset % bs + buf.length)) := by
      rw [List.drop_append, List.drop_eq_nil_of_le (by omega), List.nil_append, hlen, drop_window (by omega)]
      congr 1 <;> omega
    rw [hhead, htail]

theorem last_start {bs start stop bytes : Nat} (hbytes : bytes = (stop - start) * bs) (hlt : start < stop) :
    (first + (stop - 1)) * bs = (first + start) * bs + (bytes - bs) := by
  obtain ⟨k, rfl⟩ := Nat.exists_eq_add_of_lt hlt
  rw [hbytes, show start + k + 1 - start = k + 1 by omega, show start + k + 1 - 1 = start + k by omega,
    Nat.succ_mul, Nat.add_sub_cancel, ← Nat.add_mul, Nat.add_assoc]

/-- A write splices its buffer into the flat array. -/
theorem writeAt_of_flat {buf : List Byte} (hflat : dev.Flat first) (hlt : offset + buf.length < 2 ^ 64)
    (hin : offset + buf.length ≤ dev.blockSize * dev.blockCount)
    (hroom : PartDev.padded dev.blockSize buf.length offset ≤ PartDev.isizeMax)
    (hmeets : 0 < offset % dev.blockSize + buf.length) (d : Disk) :
    ∃ d', dev.writeAt p buf offset d = (.ok (), d') ∧ d'.flat dev.blockSize =
      splice (d.flat dev.blockSize) (first * dev.blockSize + offset) buf := by
  have hpos := hflat.pos
  have hbytes := padded_eq hpos hlt
  have hle := le_padded hpos hlt hmeets
  have hfits : offset % dev.blockSize + buf.length ≤ PartDev.padded dev.blockSize buf.length offset := fits_padded
  have hcount := stop_le_count hpos hin
  have hcount64 := hflat.count_lt
  have hstart := start_lt_stop hpos hlt hmeets
  have hstop : 0 < blocksOf dev.blockSize (offset + buf.length) := Nat.zero_lt_of_lt hstart
  have hone : blocksOf dev.blockSize dev.blockSize = 1 := blocksOf_self hpos
  have hfirst : (first + offset / dev.blockSize) * dev.blockSize + offset % dev.blockSize =
      first * dev.blockSize + offset := by
    rw [Nat.add_mul, Nat.add_assoc, Nat.div_add_mod']
  obtain ⟨d₁, hhead, hd₁⟩ := hflat.read dev.blockSize (offset / dev.blockSize) d (by omega)
  obtain ⟨d₂, htail, hd₂⟩ := hflat.read dev.blockSize (blocksOf dev.blockSize (offset + buf.length) - 1) d₁ (by omega)
  rw [hd₁, last_start hbytes hstart] at htail
  have hend : PartDev.padded dev.blockSize buf.length offset ≤ offset % dev.blockSize + buf.length + dev.blockSize := by
    have hstop := PartDev.blocksOf_mul_lt hpos (PartDev.finish buf.length offset)
    unfold PartDev.padded
    omega
  have hpatch := patch_eq (f := d.flat dev.blockSize) (a := (first + offset / dev.blockSize) * dev.blockSize)
    hpos hle hfits hend
  have hlength : (PartDev.patch dev.blockSize offset (PartDev.padded dev.blockSize buf.length offset) buf
      (window (d.flat dev.blockSize) ((first + offset / dev.blockSize) * dev.blockSize) dev.blockSize)
      (window (d.flat dev.blockSize) ((first + offset / dev.blockSize) * dev.blockSize +
        (PartDev.padded dev.blockSize buf.length offset - dev.blockSize)) dev.blockSize)).length =
        PartDev.padded dev.blockSize buf.length offset :=
    PartDev.length_patch length_window length_window hle hfits
  obtain ⟨d', hwrite, hd'⟩ := hflat.write _ (offset / dev.blockSize) d₂ (by
    rw [hlength]
    exact blocks_le_count hpos hlt hin)
  refine ⟨d', ?_, ?_⟩
  · rw [writeAt_of_span dev (span_of_room hpos hlt hroom) hle hfits, Eff.bind_of_ok hhead, ← Nat.cast_one,
      Profile.fit_sub (by omega) (by omega), Eff.lift_ok_bind, Eff.bind_of_ok htail, hwrite]
  · rw [hd', hd₂, hd₁, hpatch, splice_between, hfirst]

end Flat

/-! ### A device that answers -/

section Calm

variable {p : Profile} {dev : BlockDevice} {len offset : Nat} (hcalm : dev.Calm)

include hcalm

theorem readAt_raises (hlt : offset + len < 2 ^ 64) (hin : offset + len ≤ dev.blockSize * dev.blockCount)
    (hroom : PartDev.padded dev.blockSize len offset ≤ PartDev.isizeMax) :
    Eff.Raises (· ≠ .panic) (dev.readAt p len offset) := by
  unfold readAt
  dsimp only
  rw [span_of_room hcalm.pos hlt hroom, Eff.lift_ok_bind]
  refine Eff.Raises.bind (hcalm.read _ _ (blocks_le_count hcalm.pos hlt hin)) fun d vec d' hread => ?_
  rw [ensure_eq_ok.mpr (by rw [hcalm.length _ _ _ _ _ hread]; exact fits_padded), Eff.lift_ok_bind]
  exact Eff.raises_pure _

/-- A write that meets a block has a buffer of whole blocks to take the first and the last one of. -/
theorem writeAt_raises {buf : List Byte} (hlt : offset + buf.length < 2 ^ 64)
    (hin : offset + buf.length ≤ dev.blockSize * dev.blockCount)
    (hroom : PartDev.padded dev.blockSize buf.length offset ≤ PartDev.isizeMax)
    (hmeets : 0 < offset % dev.blockSize + buf.length) : Eff.Raises (· ≠ .panic) (dev.writeAt p buf offset) := by
  have hpos := hcalm.pos
  have hle := le_padded hpos hlt hmeets
  have hfits : offset % dev.blockSize + buf.length ≤ PartDev.padded dev.blockSize buf.length offset := fits_padded
  have hstart := start_lt_stop hpos hlt hmeets
  have hstop : 0 < blocksOf dev.blockSize (offset + buf.length) := Nat.zero_lt_of_lt hstart
  have hcount := stop_le_count hpos hin
  have hcount64 := hcalm.count_lt
  have hone : blocksOf dev.blockSize dev.blockSize = 1 := blocksOf_self hpos
  rw [writeAt_of_span dev (span_of_room hpos hlt hroom) hle hfits]
  refine Eff.Raises.bind (hcalm.read _ _ (by omega)) fun _ head _ hhead => ?_
  rw [← Nat.cast_one, Profile.fit_sub hstop (by omega), Eff.lift_ok_bind]
  refine Eff.Raises.bind (hcalm.read _ _ (by omega)) fun _ tail _ htail => ?_
  refine hcalm.write _ _ ?_
  rw [PartDev.length_patch (hcalm.length _ _ _ _ _ hhead) (hcalm.length _ _ _ _ _ htail) hle hfits]
  exact blocks_le_count hpos hlt hin

/-- A write of nothing at a block boundary has no block, and slices one. -/
theorem writeAt_nil (hlt : offset < 2 ^ 64) (halign : offset % dev.blockSize = 0) (d : Disk) :
    dev.writeAt p [] offset d = (.error .panic, d) := by
  have hpos := hcalm.pos
  have hzero := padded_eq_zero hlt hpos halign
  have hnone : ensure (dev.blockSize ≤ 0) Stop.panic = .error .panic := if_neg (by omega)
  unfold writeAt
  dsimp only
  rw [List.length_nil, span_of_room hpos hlt (by rw [hzero]; exact Nat.zero_le _), Eff.lift_ok_bind]
  dsimp only
  rw [hzero, hnone, Eff.lift_error_bind]
  rfl

end Calm

end BlockDevice

/-! ### The two nodes -/

/-- A node over a block device. -/
inductive DevNode where
  | devFile (f : DevFile)
  | partDev (part : PartDev)

namespace DevNode

variable (p : Profile)

/-- The node as a block device. -/
def blockDevice : DevNode → BlockDevice
  | .devFile f => f.dev
  | .partDev part => part.toBlockDevice p

def read : DevNode → Nat → Nat → DiskM (List Byte)
  | .devFile f => DevFile.read p f
  | .partDev part => PartDev.read p part

def write : DevNode → List Byte → Nat → DiskM Unit
  | .devFile f => DevFile.write p f
  | .partDev part => PartDev.write p part

theorem read_eq (node : DevNode) : node.read p = (node.blockDevice p).readAt p := by
  cases node with
  | devFile f => rfl
  | partDev part => exact PartDev.read_eq p part

theorem write_eq (node : DevNode) : node.write p = (node.blockDevice p).writeAt p := by
  cases node with
  | devFile f => rfl
  | partDev part => exact PartDev.write_eq p part

def blockSize : DevNode → Nat
  | .devFile f => f.dev.blockSize
  | .partDev part => part.dev.blockSize

@[simp] theorem blockSize_blockDevice (node : DevNode) : (node.blockDevice p).blockSize = node.blockSize := by
  cases node <;> rfl

/-- The first block of the node on the disk. -/
def firstBlock : DevNode → Nat
  | .devFile _ => 0
  | .partDev part => part.startLba

/-- The device below is a flat array, and a partition ends inside it. -/
def OnFlat : DevNode → Prop
  | .devFile f => f.dev.Flat 0
  | .partDev part => part.dev.Flat 0 ∧ part.startLba + part.blockCount ≤ part.dev.blockCount

variable {p}

theorem flat {node : DevNode} (h : node.OnFlat) : (node.blockDevice p).Flat node.firstBlock := by
  cases node with
  | devFile f => exact h
  | partDev part =>
      have hflat := PartDev.flat_of_flat (p := p) h.1 h.2
      rwa [Nat.zero_add] at hflat

theorem within_size {dev : BlockDevice} {size n : Nat} (hsize : dev.totalSize p = .ok size) (hn : n ≤ size) :
    n < 2 ^ 64 ∧ n ≤ dev.blockSize * dev.blockCount := by
  refine ⟨Nat.lt_of_le_of_lt hn (Profile.lt_of_fit hsize), Nat.le_trans hn ?_⟩
  unfold BlockDevice.totalSize at hsize
  cases p with
  | dev => exact Nat.le_of_eq (Profile.eq_of_fit_dev hsize).1
  | release =>
      rw [Profile.fit_release_natCast] at hsize
      exact Except.ok.inj hsize ▸ Nat.mod_le _ _

/-- A write changes the bytes at its offset to those of the buffer and no others, and a read after it returns
the bytes that are then there. -/
theorem write_then_read {node : DevNode} {size offset : Nat} {buf : List Byte} (hflat : node.OnFlat)
    (hsize : (node.blockDevice p).totalSize p = .ok size) (hne : buf ≠ []) (hin : offset + buf.length ≤ size)
    (hroom : PartDev.padded node.blockSize buf.length offset ≤ PartDev.isizeMax) (d : Disk) :
    ∃ d', node.write p buf offset d = (.ok (), d') ∧
      window (d'.flat node.blockSize) (node.firstBlock * node.blockSize + offset) buf.length = buf ∧
      (∀ k, k < node.firstBlock * node.blockSize + offset ∨
          node.firstBlock * node.blockSize + offset + buf.length ≤ k →
        d'.flat node.blockSize k = d.flat node.blockSize k) ∧
      ∀ len off, off + len ≤ size → PartDev.padded node.blockSize len off ≤ PartDev.isizeMax →
        ∃ d'', node.read p len off d' =
            (.ok (window (d'.flat node.blockSize) (node.firstBlock * node.blockSize + off) len), d'') ∧
          d''.flat node.blockSize = d'.flat node.blockSize := by
  have hbuf : 0 < buf.length := List.length_pos_iff.mpr hne
  have hbs := node.blockSize_blockDevice p
  obtain ⟨hlt, hcount⟩ := within_size hsize hin
  obtain ⟨d', hwrite, hd'⟩ := BlockDevice.writeAt_of_flat (p := p) (flat hflat) hlt hcount (by rwa [hbs])
    (by omega) d
  rw [hbs] at hd'
  refine ⟨d', ?_, ?_, ?_, ?_⟩
  · rw [write_eq, hwrite]
  · rw [hd', window_splice]
  · intro k hk
    rw [hd', splice_outside hk]
  · intro len off hend hroom'
    obtain ⟨hlt', hcount'⟩ := within_size hsize hend
    have hread := BlockDevice.readAt_of_flat (p := p) (flat hflat) hlt' hcount' (by rwa [hbs]) d'
    rwa [hbs, ← read_eq] at hread

/-- Eight blocks, with a partition of four in the middle. -/
def sampleDev (p : Profile) : BlockDevice :=
  BlockDeviceNVMe.toBlockDevice p BlockDeviceNVMe.sampleHost BlockDeviceNVMe.sampleNs

def samplePart (p : Profile) : DevNode := .partDev ⟨sampleDev p, 2, 4⟩

def blankDisk : Disk := ⟨fun _ _ => 0, []⟩

/-- Two bytes on both sides of a block boundary of a partition. -/
theorem write_then_read_across :
    window (((samplePart .dev).write .dev [1, 2] 511 blankDisk).2.flat 512) (2 * 512 + 511) 2 = [1, 2] := by
  have hflat : (samplePart .dev).OnFlat :=
    ⟨BlockDeviceNVMe.flat_of_gives (k := 9) rfl BlockDeviceNVMe.sampleNs_bounded BlockDeviceNVMe.sampleHost_gives
      fun _ _ hlt => if_pos hlt, by decide⟩
  have hsize : ((samplePart .dev).blockDevice .dev).totalSize .dev = .ok 2048 := rfl
  have hin : 511 + ([1, 2] : List Byte).length ≤ 2048 := by decide
  obtain ⟨d', hwrite, hbuf, -, -⟩ := write_then_read hflat hsize (by decide) hin (by decide) blankDisk
  rw [hwrite]
  exact hbuf

/-- A call on a node. -/
inductive Request where
  | read (len offset : Nat)
  | write (buf : List Byte) (offset : Nat)

namespace Request

def len : Request → Nat
  | .read len _ => len
  | .write buf _ => buf.length

def offset : Request → Nat
  | .read _ offset => offset
  | .write _ offset => offset

/-- A write has a block to work on: it has bytes to write, or starts inside a block. -/
def Meets (bs : Nat) : Request → Prop
  | .read _ _ => True
  | .write buf offset => buf ≠ [] ∨ offset % bs ≠ 0

end Request

def exec (p : Profile) (node : DevNode) : Request → DiskM Unit
  | .read len offset => do let _ ← node.read p len offset; pure ()
  | .write buf offset => node.write p buf offset

/-- The device below answers, and a partition ends inside it. -/
def OnCalm : DevNode → Prop
  | .devFile f => f.dev.Calm
  | .partDev part => part.dev.Calm ∧ part.startLba + part.blockCount ≤ part.dev.blockCount

theorem calm {node : DevNode} (h : node.OnCalm) : (node.blockDevice p).Calm := by
  cases node with
  | devFile f => exact h
  | partDev part => exact PartDev.calm_of_calm h.1 h.2

/-- A call on a range of the node stops the kernel only where it is a write without a block. -/
theorem exec_safe_iff {node : DevNode} {size : Nat} {req : Request} (hcalm : node.OnCalm)
    (hsize : (node.blockDevice p).totalSize p = .ok size) (hin : req.offset + req.len ≤ size)
    (hroom : PartDev.padded node.blockSize req.len req.offset ≤ PartDev.isizeMax) :
    (∀ d, (node.exec p req d).1 ≠ .error .panic) ↔ req.Meets node.blockSize := by
  have hdev : (node.blockDevice p).Calm := calm hcalm
  obtain ⟨hlt, hcount⟩ := within_size hsize hin
  rw [← node.blockSize_blockDevice p] at hroom ⊢
  have of_raises : Eff.Raises (· ≠ .panic) (node.exec p req) → ∀ d, (node.exec p req d).1 ≠ .error .panic :=
    fun hraises d hpanic => hraises d .panic _ (Prod.ext hpanic rfl) rfl
  cases req with
  | read len offset =>
      refine iff_of_true (of_raises ?_) trivial
      show Eff.Raises _ (node.read p len offset >>= fun _ => pure ())
      rw [read_eq]
      exact (BlockDevice.readAt_raises hdev hlt hcount hroom).bind fun _ _ _ _ => Eff.raises_pure _
  | write buf offset =>
      constructor
      · intro hsafe
        by_contra hnone
        obtain ⟨hnil, halign⟩ := not_or.mp hnone
        obtain rfl : buf = [] := not_not.mp hnil
        have hexec : node.exec p (.write [] offset) = (node.blockDevice p).writeAt p [] offset :=
          congrFun (congrFun (write_eq p node) []) offset
        have hstop := BlockDevice.writeAt_nil (p := p) hdev hlt (not_not.mp halign) ⟨fun _ _ => 0, []⟩
        refine hsafe ⟨fun _ _ => 0, []⟩ ?_
        rw [hexec]
        exact congrArg Prod.fst hstop
      · intro hmeets
        refine of_raises ?_
        show Eff.Raises _ (node.write p buf offset)
        rw [write_eq]
        refine BlockDevice.writeAt_raises hdev hlt hcount hroom ?_
        rcases hmeets with hne | hoff
        · exact Nat.add_pos_right _ (List.length_pos_iff.mpr hne)
        · exact Nat.add_pos_left (Nat.pos_of_ne_zero hoff) _

/-- A read of nothing, and a write of a byte, in a partition. -/
theorem exec_safe_iff_byte : ((samplePart .dev).exec .dev (.read 0 512) blankDisk).1 ≠ .error .panic ∧
    ((samplePart .dev).exec .dev (.write [7] 512) blankDisk).1 ≠ .error .panic := by
  have hcalm : (samplePart .dev).OnCalm := ⟨BlockDeviceNVMe.calm_of_gives (k := 9) rfl BlockDeviceNVMe.sampleNs_bounded
    BlockDeviceNVMe.sampleHost_gives, by decide⟩
  have hsize : ((samplePart .dev).blockDevice .dev).totalSize .dev = .ok 2048 := rfl
  have hread : (Request.read 0 512).offset + (Request.read 0 512).len ≤ 2048 := by decide
  have hwrite : (Request.write [7] 512).offset + (Request.write [7] 512).len ≤ 2048 := by decide
  constructor
  · exact (exec_safe_iff hcalm hsize hread (by decide)).mpr trivial blankDisk
  · exact (exec_safe_iff hcalm hsize hwrite (by decide)).mpr (Or.inl (by decide)) blankDisk

/-- A write of nothing at the start of the second block, of the device and of a partition. -/
theorem exec_stops_for_nothing :
    ((devFile ⟨sampleDev .dev⟩).exec .dev (.write [] 512) blankDisk).1 = .error .panic ∧
    ((devFile ⟨sampleDev .release⟩).exec .release (.write [] 512) blankDisk).1 = .error .panic ∧
    ((samplePart .dev).exec .dev (.write [] 0) blankDisk).1 = .error .panic ∧
    ((samplePart .release).exec .release (.write [] 0) blankDisk).1 = .error .panic :=
  ⟨rfl, rfl, rfl, rfl⟩

end DevNode

end UnixKernel
