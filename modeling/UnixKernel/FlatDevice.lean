import UnixKernel.PartDev

/-! Devices that are flat arrays of blocks, and devices that answer every request they have the blocks for. A
partition is of the kind of the device it lies in. -/

namespace UnixKernel

open FlatArray

theorem Disk.flat_congr {bs : Nat} {d d' : Disk} (h : d'.byte = d.byte) : d'.flat bs = d.flat bs := by
  funext k
  rw [Disk.flat, Disk.flat, h]

theorem block_succ (lba i bs : Nat) : (lba + (i + 1)) * bs = (lba + i) * bs + bs := by
  rw [← Nat.add_assoc, Nat.succ_mul]

namespace BlockDevice

/-- The device is a flat array: its blocks are those of the disk from `first` on. -/
structure Flat (dev : BlockDevice) (first : Nat) : Prop where
  pos : 0 < dev.blockSize
  count_lt : dev.blockCount < 2 ^ 64
  read : ∀ (len lba : Nat) (d : Disk), lba + blocksOf dev.blockSize len ≤ dev.blockCount →
    ∃ d', dev.readBlock len lba d =
        (.ok (window (d.flat dev.blockSize) ((first + lba) * dev.blockSize) len), d') ∧
      d'.flat dev.blockSize = d.flat dev.blockSize
  write : ∀ (buf : List Byte) (lba : Nat) (d : Disk),
    lba + blocksOf dev.blockSize buf.length ≤ dev.blockCount →
    ∃ d', dev.writeBlock buf lba d = (.ok (), d') ∧
      d'.flat dev.blockSize = splice (d.flat dev.blockSize) ((first + lba) * dev.blockSize) buf

/-- The device answers every request for blocks it has, with the buffer filled or with an error. -/
structure Calm (dev : BlockDevice) : Prop where
  pos : 0 < dev.blockSize
  count_lt : dev.blockCount < 2 ^ 64
  read : ∀ len lba, lba + blocksOf dev.blockSize len ≤ dev.blockCount →
    Eff.Raises (· ≠ .panic) (dev.readBlock len lba)
  write : ∀ buf lba, lba + blocksOf dev.blockSize buf.length ≤ dev.blockCount →
    Eff.Raises (· ≠ .panic) (dev.writeBlock buf lba)
  length : ∀ len lba d buf d', dev.readBlock len lba d = (.ok buf, d') → buf.length = len

/-- `total_size` of the two nodes, the size in their `meta`. -/
def totalSize (p : Profile) (dev : BlockDevice) : Except Stop Nat :=
  p.fit .panic 64 (dev.blockSize * dev.blockCount : Nat)

end BlockDevice

/-- A partition of a flat device, when it ends inside it. -/
theorem PartDev.flat_of_flat {p : Profile} {part : PartDev} {first : Nat} (hflat : part.dev.Flat first)
    (hin : part.startLba + part.blockCount ≤ part.dev.blockCount) :
    (part.toBlockDevice p).Flat (first + part.startLba) where
  pos := hflat.pos
  count_lt := by
    have hcount := hflat.count_lt
    show part.blockCount < 2 ^ 64
    omega
  read := by
    intro len lba d hlba
    have hcount := hflat.count_lt
    have hlba' : lba + blocksOf part.dev.blockSize len ≤ part.blockCount := hlba
    obtain ⟨d', hread, hd'⟩ := hflat.read len (lba + part.startLba) d (by omega)
    refine ⟨d', ?_, hd'⟩
    rw [show first + part.startLba + lba = first + (lba + part.startLba) by omega]
    show PartDev.readBlock p part len lba d = _
    rw [PartDev.readBlock, ← Nat.cast_add, Profile.fit_of_lt (by omega), Eff.lift_ok_bind]
    exact hread
  write := by
    intro buf lba d hlba
    have hcount := hflat.count_lt
    have hlba' : lba + blocksOf part.dev.blockSize buf.length ≤ part.blockCount := hlba
    obtain ⟨d', hwrite, hd'⟩ := hflat.write buf (lba + part.startLba) d (by omega)
    refine ⟨d', ?_, ?_⟩
    · show PartDev.writeBlock p part buf lba d = _
      rw [PartDev.writeBlock, ← Nat.cast_add, Profile.fit_of_lt (by omega), Eff.lift_ok_bind]
      exact hwrite
    · rw [show first + part.startLba + lba = first + (lba + part.startLba) by omega]
      exact hd'

theorem PartDev.calm_of_calm {p : Profile} {part : PartDev} (hcalm : part.dev.Calm)
    (hin : part.startLba + part.blockCount ≤ part.dev.blockCount) : (part.toBlockDevice p).Calm where
  pos := hcalm.pos
  count_lt := Nat.lt_of_le_of_lt (Nat.le_trans (Nat.le_add_left _ _) hin) hcalm.count_lt
  read := by
    intro len lba hlba
    have hcount := hcalm.count_lt
    have hlba' : lba + blocksOf part.dev.blockSize len ≤ part.blockCount := hlba
    show Eff.Raises _ (PartDev.readBlock p part len lba)
    rw [PartDev.readBlock, ← Nat.cast_add, Profile.fit_of_lt (by omega), Eff.lift_ok_bind]
    exact hcalm.read _ _ (by omega)
  write := by
    intro buf lba hlba
    have hcount := hcalm.count_lt
    have hlba' : lba + blocksOf part.dev.blockSize buf.length ≤ part.blockCount := hlba
    show Eff.Raises _ (PartDev.writeBlock p part buf lba)
    rw [PartDev.writeBlock, ← Nat.cast_add, Profile.fit_of_lt (by omega), Eff.lift_ok_bind]
    exact hcalm.write _ _ (by omega)
  length := by
    intro len lba d buf d' h
    obtain ⟨lba', d₁, _, hread⟩ := Eff.bind_eq_ok.mp h
    exact hcalm.length len lba' d₁ buf d' hread

end UnixKernel
