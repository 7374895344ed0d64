import Mathlib.Algebra.BigOperators.Ring.Finset
import UnixKernel.Overflow
import UnixKernel.RvmCfg

/-! `BPage` and `RvmCfg` of `ram/glacier.rs` as the machine computes them: bits are counted in `u8`, entries and
addresses are `usize`, and a shift by more bits than a word has stops a development build. No operation leaves
its type, so the machine finds what `RvmCfg` says; and the indices of an address are its digits, with the root
for the highest and the offset in the page behind the lowest. -/

namespace UnixKernel

variable (p : Profile)

/-- `index_bits`, with `size_of::<usize>().ilog2()` for 3. -/
def BPage.indexBitsU8 (pg : BPage) : Except Unit Nat := p.fit () 8 ((pg.shift : Int) - 3)

namespace RvmCfg

variable (cfg : RvmCfg)

/-- `levels`. -/
def levelsU8 : Except Unit Nat := do
  let indexBits ← cfg.psz.indexBitsU8 p
  let addrBits ← p.fit () 8 ((cfg.vaBits : Int) - cfg.psz.shift)
  let sum ← p.fit () 8 ((addrBits + indexBits : Nat) : Int)
  let upper ← p.fit () 8 ((sum : Int) - 1)
  ensure (indexBits ≠ 0) ()
  pure (upper / indexBits)

/-- `shift`; a level that is not there is `unreachable!`. -/
def shiftU8 (level : Nat) : Except Unit Nat := do
  let indexBits ← cfg.psz.indexBitsU8 p
  let levels ← cfg.levelsU8 p
  ensure (level < levels) ()
  let rest ← p.fit () 8 ((levels : Int) - level)
  let below ← p.fit () 8 ((rest : Int) - 1)
  let bits ← p.fit () 8 ((below * indexBits : Nat) : Int)
  p.fit () 8 ((cfg.psz.shift + bits : Nat) : Int)

/-- The number of bits `ent_cnt` shifts by. -/
def entBitsU8 (level : Nat) : Except Unit Nat :=
  if level = 0 then do
    let shift ← cfg.shiftU8 p level
    p.fit () 8 ((cfg.vaBits : Int) - shift)
  else cfg.psz.indexBitsU8 p

/-- `ent_cnt`. A shift is by a number of six bits. -/
def entCntUsize (level : Nat) : Except Unit Nat := do
  let bits ← cfg.entBitsU8 p level
  let bits ← p.fit () 6 (bits : Int)
  pure ((1 <<< bits) % 2 ^ 64)

/-- `get_index`. -/
def getIndexUsize (level : Nat) (va : Word) : Except Unit Nat := do
  let shift ← cfg.shiftU8 p level
  let shift ← p.fit () 6 (shift : Int)
  let entries ← cfg.entCntUsize p level
  let mask ← p.fit () 64 ((entries : Int) - 1)
  pure (va.toNat >>> shift &&& mask)

/-! ### No operation leaves its type -/

variable {p}

theorem indexBitsU8_eq (pg : BPage) : pg.indexBitsU8 p = .ok pg.indexBits := by
  show p.fit () 8 ((pg.shift : Int) - (3 : Nat)) = .ok (pg.shift - 3)
  exact Profile.fit_sub (by cases pg <;> decide) (by cases pg <;> decide)

theorem bits_bounds (pg : BPage) : pg.shift ≤ 16 ∧ pg.indexBits ≤ 13 := by cases pg <;> decide

theorem levelsU8_eq : cfg.levelsU8 p = .ok cfg.levels := by
  obtain ⟨hshift, hindex⟩ := bits_bounds cfg.psz
  have hpos := cfg.psz.indexBits_pos
  have hlt := cfg.shift_lt
  have hle := cfg.vaBits_le
  rw [levelsU8, indexBitsU8_eq, ok_bind, Profile.fit_sub (by omega) (by omega), ok_bind,
    Profile.fit_of_lt (by omega), ok_bind, Profile.fit_sub_one (by omega) (by omega), ok_bind,
    ensure_eq_ok.mpr (by omega), ok_bind, levels]
  rfl

theorem shift_lt_vaBits {level : Nat} (hlevel : level < cfg.levels) : cfg.shift level < cfg.vaBits := by
  obtain ⟨hlow, -⟩ := cfg.depth_bits
  have hmul : (cfg.levels - level - 1) * cfg.psz.indexBits ≤ cfg.depth * cfg.psz.indexBits :=
    Nat.mul_le_mul_right _ (by rw [depth]; omega)
  rw [shift]
  omega

theorem shiftU8_eq {level : Nat} (hlevel : level < cfg.levels) : cfg.shiftU8 p level = .ok (cfg.shift level) := by
  have hlt := cfg.shift_lt_vaBits hlevel
  have hle := cfg.vaBits_le
  have hlevels : cfg.levels ≤ cfg.vaBits := by
    have hpos := cfg.psz.indexBits_pos
    have hmul := Nat.le_mul_of_pos_right cfg.depth hpos
    obtain ⟨hlow, -⟩ := cfg.depth_bits
    rw [cfg.levels_eq]
    omega
  rw [shift] at hlt
  rw [shiftU8, indexBitsU8_eq, ok_bind, levelsU8_eq, ok_bind, ensure_eq_ok.mpr hlevel, ok_bind,
    Profile.fit_sub (by omega) (by omega), ok_bind, Profile.fit_sub_one (by omega) (by omega), ok_bind,
    Profile.fit_of_lt (by omega), ok_bind, Profile.fit_of_lt (by omega), shift]

/-- The number of bits of the index of a level. -/
def entBits (level : Nat) : Nat := if level = 0 then cfg.vaBits - cfg.shift level else cfg.psz.indexBits

theorem entBits_lt (level : Nat) : cfg.entBits level < 2 ^ 6 := by
  have hle := cfg.vaBits_le
  have hpos : 0 < cfg.shift level := Nat.lt_of_lt_of_le (by cases cfg.psz <;> decide) (Nat.le_add_right _ _)
  have hindex := (bits_bounds cfg.psz).2
  rw [entBits]
  split_ifs <;> omega

theorem entBitsU8_eq {level : Nat} (hlevel : level < cfg.levels) :
    cfg.entBitsU8 p level = .ok (cfg.entBits level) := by
  have hlt := cfg.shift_lt_vaBits hlevel
  have hle := cfg.vaBits_le
  rw [entBitsU8, entBits]
  split_ifs
  · rw [cfg.shiftU8_eq hlevel, ok_bind, Profile.fit_sub (by omega) (by omega)]
  · exact indexBitsU8_eq cfg.psz

theorem entCnt_eq_two_pow (level : Nat) : cfg.entCnt level = 2 ^ cfg.entBits level := Nat.one_shiftLeft _

theorem entCnt_lt (level : Nat) : cfg.entCnt level < 2 ^ 64 := by
  rw [entCnt_eq_two_pow]
  exact Nat.pow_lt_pow_right (by decide) (cfg.entBits_lt level)

theorem entCntUsize_eq {level : Nat} (hlevel : level < cfg.levels) :
    cfg.entCntUsize p level = .ok (cfg.entCnt level) := by
  have hlt := cfg.entCnt_lt level
  rw [entCnt_eq_two_pow] at hlt ⊢
  rw [entCntUsize, cfg.entBitsU8_eq hlevel, ok_bind, Profile.fit_of_lt (cfg.entBits_lt level), ok_bind,
    Nat.one_shiftLeft, Nat.mod_eq_of_lt hlt]
  rfl

theorem getIndexUsize_eq {level : Nat} (hlevel : level < cfg.levels) (va : Word) :
    cfg.getIndexUsize p level va = .ok (cfg.getIndex level va) := by
  have hlt := cfg.shift_lt_vaBits hlevel
  have hle := cfg.vaBits_le
  have hpos : 0 < cfg.entCnt level := by
    rw [entCnt_eq_two_pow]
    exact Nat.two_pow_pos _
  rw [getIndexUsize, cfg.shiftU8_eq hlevel, ok_bind, Profile.fit_of_lt (by omega), ok_bind,
    cfg.entCntUsize_eq hlevel, ok_bind, Profile.fit_sub_one hpos (cfg.entCnt_lt level), ok_bind]
  rfl

/-! ### The digits of an address -/

theorem depth_sub_sub {level : Nat} (hlevel : level < cfg.levels) : cfg.depth - (cfg.depth - level) = level := by
  rw [cfg.levels_eq] at hlevel
  omega

theorem getIndex_lt {level : Nat} (hlevel : level < cfg.levels) (va : Word) :
    cfg.getIndex level va < cfg.entCnt level := by
  have hlt := cfg.index_lt (Nat.sub_le cfg.depth level) va
  rwa [index, width, cfg.depth_sub_sub hlevel] at hlt

theorem entCnt_le {level : Nat} (hlevel : level < cfg.levels) : cfg.entCnt level ≤ cfg.psz.size / 8 := by
  have hle := cfg.width_le (cfg.depth - level)
  rw [width, cfg.depth_sub_sub hlevel] at hle
  rw [BPage.size_eq_entries, Nat.mul_div_cancel_left _ (by decide)]
  exact hle

theorem pageNo_eq_sum (va : Word) :
    cfg.pageNo va = ∑ k ∈ Finset.range cfg.levels, cfg.index k va * (2 ^ cfg.psz.indexBits) ^ k := by
  have hlt := cfg.pageNo_lt_pow va
  have hsum := Digits.sum_digits (2 ^ cfg.psz.indexBits) (cfg.pageNo va) cfg.levels
  rw [cfg.levels_eq, Nat.mod_eq_of_lt hlt] at hsum
  rw [cfg.levels_eq, ← hsum]
  apply Finset.sum_congr rfl
  intro k hk
  rw [cfg.index_eq_digit (Nat.le_of_lt_succ (Finset.mem_range.mp hk))]

/-- An address is the sum of its indices at their places and the offset in the page. -/
theorem sum_getIndex (va : Word) : va.toNat % 2 ^ cfg.vaBits =
    ∑ level ∈ Finset.range cfg.levels, cfg.getIndex level va * 2 ^ cfg.shift level + va.toNat % cfg.psz.size := by
  have hdvd : cfg.psz.size ∣ 2 ^ cfg.vaBits := by
    rw [BPage.size_eq_two_pow]
    exact Nat.pow_dvd_pow 2 (Nat.le_of_lt cfg.shift_lt)
  -- the root comes first among the levels and last among the digits
  have hplace : ∀ k ∈ Finset.range cfg.levels, cfg.index k va * (2 ^ cfg.psz.indexBits) ^ k * cfg.psz.size =
      cfg.getIndex (cfg.levels - 1 - k) va * 2 ^ cfg.shift (cfg.levels - 1 - k) := by
    intro k hk
    have hle : k ≤ cfg.depth := by
      rw [Finset.mem_range, cfg.levels_eq] at hk
      exact Nat.le_of_lt_succ hk
    rw [← depth, cfg.shift_depth_sub hle, BPage.size_eq_two_pow, ← Nat.pow_mul, Nat.mul_assoc, ← Nat.pow_add,
      Nat.mul_comm cfg.psz.indexBits, Nat.add_comm]
    rfl
  calc va.toNat % 2 ^ cfg.vaBits
      = cfg.pageNo va * cfg.psz.size + va.toNat % cfg.psz.size := by
        rw [pageNo, ← Nat.mod_mod_of_dvd va.toNat hdvd, Nat.div_add_mod']
    _ = ∑ k ∈ Finset.range cfg.levels, cfg.index k va * (2 ^ cfg.psz.indexBits) ^ k * cfg.psz.size +
          va.toNat % cfg.psz.size := by rw [cfg.pageNo_eq_sum, Finset.sum_mul]
    _ = ∑ k ∈ Finset.range cfg.levels,
          cfg.getIndex (cfg.levels - 1 - k) va * 2 ^ cfg.shift (cfg.levels - 1 - k) +
          va.toNat % cfg.psz.size := by rw [Finset.sum_congr rfl hplace]
    _ = _ := by rw [Finset.sum_range_reflect fun level => cfg.getIndex level va * 2 ^ cfg.shift level]

/-- On every configuration the machine computes the levels, shifts, numbers of entries and indices without
leaving a type; an index is below the number of its table's entries, which fit in a page; and the indices with
the offset in the page are the address. -/
theorem index_machine (p : Profile) (cfg : RvmCfg) :
    cfg.levelsU8 p = .ok cfg.levels ∧
    (∀ level < cfg.levels, cfg.shiftU8 p level = .ok (cfg.shift level) ∧
      cfg.entCntUsize p level = .ok (cfg.entCnt level) ∧ cfg.entCnt level ≤ cfg.psz.size / 8 ∧
      ∀ va, cfg.getIndexUsize p level va = .ok (cfg.getIndex level va) ∧
        cfg.getIndex level va < cfg.entCnt level) ∧
    (∀ va : Word, va.toNat % 2 ^ cfg.vaBits =
      ∑ level ∈ Finset.range cfg.levels, cfg.getIndex level va * 2 ^ cfg.shift level +
        va.toNat % cfg.psz.size) ∧
    ∀ va va' : Word, (∀ level < cfg.levels, cfg.getIndex level va = cfg.getIndex level va') →
      va.toNat % cfg.psz.size = va'.toNat % cfg.psz.size →
      va.toNat % 2 ^ cfg.vaBits = va'.toNat % 2 ^ cfg.vaBits := by
  refine ⟨cfg.levelsU8_eq, fun level hlevel => ?_, cfg.sum_getIndex, fun va va' hindex hoff => ?_⟩
  · exact ⟨cfg.shiftU8_eq hlevel, cfg.entCntUsize_eq hlevel, cfg.entCnt_le hlevel,
      fun va => ⟨cfg.getIndexUsize_eq hlevel va, cfg.getIndex_lt hlevel va⟩⟩
  · rw [cfg.sum_getIndex va, cfg.sum_getIndex va', hoff]
    congr 1
    apply Finset.sum_congr rfl
    intro level hlevel
    rw [hindex level (Finset.mem_range.mp hlevel)]

end RvmCfg

end UnixKernel
