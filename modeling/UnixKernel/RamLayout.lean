import Mathlib.Algebra.Order.Ring.Nat
import Mathlib.Data.Nat.Log
import Mathlib.Tactic.Common

/-! The memory types, the firmware descriptors and the size arithmetic shared by the physical
allocator and the page tables (`kargs.rs`, `ram/mod.rs`, the page sizes of `ram/glacier.rs`).
Addresses and sizes (`usize`) are natural numbers and sums are exact; those of `PhysWord` are the compiled ones. -/

namespace UnixKernel

/-- `RAMType`: the UEFI memory types and the types the kernel adds. -/
inductive RAMType where
  | reserved | loaderCode | loaderData | bootSvcCode | bootSvcData | rtSvcCode | rtSvcData | conv
  | unusable | acpiReclaim | acpiNonVolatile | mmio | mmioPortSpace | palCode | persistentRAM
  | unaccepted | max
  | kernelData | efiRamLayout | elfSegments | kernelPTable | reclaimable | userPTable | kernel
  deriving DecidableEq, Repr

/-- `RECLAMABLE`: the boot types that become free memory after start-up. -/
def reclamable : List RAMType := [.loaderCode, .loaderData, .bootSvcCode, .bootSvcData]

/-- `NON_RAM`: the types that can be neither allocated from nor allocated as. -/
def nonRam : List RAMType := [.reserved, .mmio, .mmioPortSpace]

/-- `RAMDescriptor`, one line of the UEFI memory map. Its other fields are not read. -/
structure RAMDescriptor where
  ty : RAMType
  physStart : Nat
  pageCount : Nat
  deriving DecidableEq, Repr

/-- `PAGE_4KIB`, the unit of the descriptors on every architecture. -/
def page4kiB : Nat := 0x1000

/-- `BPage`, the base page size of the running kernel. -/
inductive BPage where
  | size4kiB | size16kiB | size64kiB
  deriving DecidableEq, Repr

namespace BPage

def shift : BPage → Nat
  | size4kiB => 12
  | size16kiB => 14
  | size64kiB => 16

def size (p : BPage) : Nat := 1 <<< p.shift

theorem size_eq_two_pow (p : BPage) : p.size = 2 ^ p.shift := by
  rw [size, Nat.one_shiftLeft]

theorem size_pos (p : BPage) : 0 < p.size := by cases p <;> decide

theorem size_le (p : BPage) : p.size ≤ 2 ^ 16 := by cases p <;> decide

theorem size_dvd_word (p : BPage) : p.size ∣ 2 ^ 64 := by cases p <;> decide

@[simp]
theorem size_size4kiB : size4kiB.size = 4096 := rfl

end BPage

/-- `align_up`. -/
def alignUp (val align : Nat) : Nat :=
  if align = 0 then val else (val + (align - 1)) / align * align

/-- `usize::next_power_of_two`: the least power of two that is at least `val`. -/
def nextPowerOfTwo (val : Nat) : Nat := if val ≤ 1 then 1 else 2 ^ (Nat.log2 (val - 1) + 1)

/-- `size_align`: a power of two below a page, whole pages from there on. -/
def sizeAlign (pg : BPage) (val : Nat) : Nat :=
  if val < pg.size then nextPowerOfTwo val else alignUp val pg.size

theorem dvd_alignUp {align : Nat} (val : Nat) (h : 0 < align) : align ∣ alignUp val align := by
  rw [alignUp, if_neg (Nat.ne_of_gt h)]
  exact Nat.dvd_mul_left _ _

theorem le_alignUp (val align : Nat) : val ≤ alignUp val align := by
  rw [alignUp]
  split_ifs with h
  · exact le_refl val
  · have hdiv := Nat.div_add_mod (val + (align - 1)) align
    have hmod := Nat.mod_lt (val + (align - 1)) (Nat.pos_of_ne_zero h)
    rw [Nat.mul_comm] at hdiv
    omega

theorem alignUp_lt {align : Nat} (val : Nat) (h : 0 < align) : alignUp val align < val + align := by
  rw [alignUp, if_neg (Nat.ne_of_gt h)]
  have := Nat.div_mul_le_self (val + (align - 1)) align
  omega

theorem alignUp_le_of_dvd {val align m : Nat} (h : 0 < align) (hm : align ∣ m) (hle : val ≤ m) :
    alignUp val align ≤ m := by
  obtain ⟨q, rfl⟩ := hm
  obtain ⟨r, hr⟩ := dvd_alignUp val h
  have hlt := alignUp_lt val h
  rw [hr] at hlt ⊢
  apply Nat.mul_le_mul_left
  by_contra hnot
  have : align * (q + 1) ≤ align * r := Nat.mul_le_mul_left align (by omega)
  rw [Nat.mul_add] at this
  omega

theorem alignUp_of_dvd {val align : Nat} (h : align ∣ val) : alignUp val align = val := by
  rcases Nat.eq_zero_or_pos align with rfl | hpos
  · rw [alignUp, if_pos rfl]
  · exact le_antisymm (alignUp_le_of_dvd hpos h (le_refl val)) (le_alignUp val align)

theorem nextPowerOfTwo_pos (val : Nat) : 0 < nextPowerOfTwo val := by
  rw [nextPowerOfTwo]
  split_ifs
  · decide
  · exact Nat.two_pow_pos _

theorem le_nextPowerOfTwo (val : Nat) : val ≤ nextPowerOfTwo val := by
  rw [nextPowerOfTwo]
  split_ifs with h
  · exact h
  · have := @Nat.lt_log2_self (val - 1)
    omega

theorem nextPowerOfTwo_le {val k : Nat} (h : val ≤ 2 ^ k) : nextPowerOfTwo val ≤ 2 ^ k := by
  rw [nextPowerOfTwo]
  split_ifs with h1
  · exact Nat.one_le_two_pow
  · apply Nat.pow_le_pow_right (by decide)
    have hlog : Nat.log2 (val - 1) < k := (Nat.log2_lt (by omega)).mpr (by omega)
    omega

theorem exists_nextPowerOfTwo_eq (val : Nat) : ∃ k, nextPowerOfTwo val = 2 ^ k := by
  rw [nextPowerOfTwo]
  split_ifs
  · exact ⟨0, rfl⟩
  · exact ⟨_, rfl⟩

theorem nextPowerOfTwo_idem (val : Nat) : nextPowerOfTwo (nextPowerOfTwo val) = nextPowerOfTwo val := by
  obtain ⟨k, hk⟩ := exists_nextPowerOfTwo_eq val
  rw [hk]
  exact le_antisymm (nextPowerOfTwo_le (le_refl _)) (le_nextPowerOfTwo _)

section SizeAlign

variable (pg : BPage)

theorem sizeAlign_pos (val : Nat) : 0 < sizeAlign pg val := by
  rw [sizeAlign]
  split_ifs with h
  · exact nextPowerOfTwo_pos val
  · exact Nat.lt_of_lt_of_le (Nat.lt_of_lt_of_le pg.size_pos (Nat.le_of_not_lt h)) (le_alignUp _ _)

theorem le_sizeAlign (val : Nat) : val ≤ sizeAlign pg val := by
  rw [sizeAlign]
  split_ifs
  · exact le_nextPowerOfTwo val
  · exact le_alignUp _ _

theorem sizeAlign_mono {val val' : Nat} (h : val ≤ val') : sizeAlign pg val ≤ sizeAlign pg val' := by
  by_cases hval' : val' < pg.size
  · obtain ⟨k, hk⟩ := exists_nextPowerOfTwo_eq val'
    rw [sizeAlign, sizeAlign, if_pos hval', if_pos (Nat.lt_of_le_of_lt h hval'), hk]
    exact nextPowerOfTwo_le (h.trans (hk ▸ le_nextPowerOfTwo val'))
  · rw [sizeAlign, sizeAlign, if_neg hval']
    have hpages := dvd_alignUp val' pg.size_pos
    split_ifs with hval
    · -- a page is a power of two, and `val'` is rounded to at least one
      have hpage : nextPowerOfTwo val ≤ pg.size := by
        rw [pg.size_eq_two_pow] at hval ⊢
        exact nextPowerOfTwo_le hval.le
      exact hpage.trans ((Nat.le_of_not_lt hval').trans (le_alignUp _ _))
    · exact alignUp_le_of_dvd pg.size_pos hpages (h.trans (le_alignUp _ _))

/-- More than half a page is rounded to whole pages. -/
theorem sizeAlign_of_half {val : Nat} (h : pg.size < 2 * val) : sizeAlign pg val = alignUp val pg.size := by
  rw [sizeAlign]
  split_ifs with hlt
  · have hpage : alignUp val pg.size = pg.size := by
      obtain ⟨q, hq⟩ := dvd_alignUp val pg.size_pos
      have hpos := le_alignUp val pg.size
      have hle := alignUp_le_of_dvd pg.size_pos (Nat.dvd_refl _) hlt.le
      have hone : pg.size * 1 ≤ pg.size * q := Nat.mul_le_mul_left _
          (Nat.pos_of_mul_pos_left (by omega : 0 < pg.size * q))
      omega
    rw [hpage]
    obtain ⟨k, hk⟩ := exists_nextPowerOfTwo_eq val
    have hle := le_nextPowerOfTwo val
    rw [hk] at hle ⊢
    rw [pg.size_eq_two_pow] at h hlt ⊢
    apply le_antisymm
    · rw [← hk]
      exact nextPowerOfTwo_le hlt.le
    · apply Nat.pow_le_pow_right Nat.two_pos
      have hpow : 2 ^ pg.shift < 2 ^ (k + 1) := by
        rw [Nat.pow_succ]
        omega
      exact Nat.lt_succ_iff.mp ((Nat.pow_lt_pow_iff_right Nat.one_lt_two).mp hpow)
  · rfl

theorem sizeAlign_idem (val : Nat) : sizeAlign pg (sizeAlign pg val) = sizeAlign pg val := by
  by_cases hval : val < pg.size
  · have hsize : sizeAlign pg val = nextPowerOfTwo val := if_pos hval
    have hle : nextPowerOfTwo val ≤ pg.size := by
      rw [pg.size_eq_two_pow] at hval ⊢
      exact nextPowerOfTwo_le (Nat.le_of_lt hval)
    rw [hsize]
    rcases Nat.lt_or_eq_of_le hle with hlt | heq
    · rw [sizeAlign, if_pos hlt, nextPowerOfTwo_idem]
    · rw [heq, sizeAlign, if_neg (lt_irrefl _), alignUp_of_dvd (Nat.dvd_refl _)]
  · have hsize : sizeAlign pg val = alignUp val pg.size := if_neg hval
    rw [hsize, sizeAlign, if_neg (Nat.not_lt.mpr (le_trans (Nat.le_of_not_lt hval) (le_alignUp _ _))),
      alignUp_of_dvd (dvd_alignUp val pg.size_pos)]

theorem sizeAlign_two_pow (k : Nat) : sizeAlign pg (2 ^ k) = 2 ^ k := by
  rw [sizeAlign]
  split_ifs with h
  · exact le_antisymm (nextPowerOfTwo_le le_rfl) (le_nextPowerOfTwo _)
  · apply alignUp_of_dvd
    rw [BPage.size_eq_two_pow] at h ⊢
    exact Nat.pow_dvd_pow 2 ((Nat.pow_le_pow_iff_right (by decide)).mp (Nat.le_of_not_lt h))

end SizeAlign

end UnixKernel
