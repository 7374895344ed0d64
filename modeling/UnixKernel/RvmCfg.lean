import UnixKernel.Digits
import UnixKernel.RamLayout

/-! The geometry of the page tables (`BPage` and `RvmCfg` of `ram/glacier.rs`). A virtual address is cut
into one index for each level of the tree and the offset in the page. Seen from the leaves, the index
with `k` levels below it is digit `k` of the page number in base `2 ^ index_bits`; only the root may have
fewer entries. Two canonical addresses lie in one page exactly when all their indices agree. -/

namespace UnixKernel

/-- `usize`, as far as its bits matter. -/
abbrev Word := BitVec 64

namespace BPage

/-- `index_bits`: a table of one page has that many bits of index. -/
def indexBits (p : BPage) : Nat := p.shift - 3

/-- `addr_mask`. -/
def addrMask (p : BPage) : Word := ~~~(BitVec.ofNat 64 (p.size - 1))

theorem indexBits_pos (p : BPage) : 0 < p.indexBits := by cases p <;> decide

theorem size_eq_entries (p : BPage) : p.size = 8 * 2 ^ p.indexBits := by cases p <;> rfl

theorem and_addrMask (p : BPage) (x : Word) : x &&& p.addrMask = x >>> p.shift <<< p.shift := by
  apply BitVec.eq_of_getLsbD_eq
  intro i hi
  rw [addrMask, size_eq_two_pow, BitVec.getLsbD_and, BitVec.getLsbD_not, BitVec.getLsbD_ofNat,
    Nat.testBit_two_pow_sub_one, BitVec.getLsbD_shiftLeft, BitVec.getLsbD_ushiftRight]
  by_cases hlt : i < p.shift
  · simp [hi, hlt]
  · simp [hi, hlt, Nat.add_sub_cancel' (Nat.le_of_not_lt hlt)]

theorem toNat_and_addrMask (p : BPage) (x : Word) : (x &&& p.addrMask).toNat = x.toNat / p.size * p.size := by
  rw [and_addrMask, BitVec.toNat_shiftLeft, BitVec.toNat_ushiftRight, Nat.shiftLeft_eq,
    Nat.shiftRight_eq_div_pow, ← size_eq_two_pow]
  exact Nat.mod_eq_of_lt (Nat.lt_of_le_of_lt (Nat.div_mul_le_self _ _) x.isLt)

end BPage

/-- `RvmCfg`, with addresses of more bits than a page offset has and at most the 64 of a word. -/
structure RvmCfg where
  psz : BPage
  vaBits : Nat
  paBits : Nat
  shift_lt : psz.shift < vaBits
  vaBits_le : vaBits ≤ 64

namespace RvmCfg

variable (cfg : RvmCfg)

def levels : Nat := (cfg.vaBits - cfg.psz.shift + cfg.psz.indexBits - 1) / cfg.psz.indexBits

def shift (level : Nat) : Nat := cfg.psz.shift + (cfg.levels - level - 1) * cfg.psz.indexBits

def entCnt (level : Nat) : Nat :=
  1 <<< (if level = 0 then cfg.vaBits - cfg.shift level else cfg.psz.indexBits)

def getIndex (level : Nat) (va : Word) : Nat := (va.toNat >>> cfg.shift level) &&& (cfg.entCnt level - 1)

/-! ### Seen from the leaves -/

/-- The number of levels below the root. -/
def depth : Nat := cfg.levels - 1

/-- The entries of a table with `k` levels below it. -/
def width (k : Nat) : Nat := cfg.entCnt (cfg.depth - k)

/-- The index of an address into a table with `k` levels below it. -/
def index (k : Nat) (va : Word) : Nat := cfg.getIndex (cfg.depth - k) va

theorem levels_eq : cfg.levels = cfg.depth + 1 := by
  have hpos := cfg.psz.indexBits_pos
  have hlt := cfg.shift_lt
  have hle : 1 ≤ cfg.levels := by
    rw [levels, Nat.le_div_iff_mul_le hpos]
    omega
  rw [depth]
  omega

theorem depth_bits : cfg.depth * cfg.psz.indexBits < cfg.vaBits - cfg.psz.shift ∧
    cfg.vaBits - cfg.psz.shift ≤ (cfg.depth + 1) * cfg.psz.indexBits := by
  have hpos := cfg.psz.indexBits_pos
  have hlt := cfg.shift_lt
  have hlow : cfg.levels * cfg.psz.indexBits ≤ cfg.vaBits - cfg.psz.shift + cfg.psz.indexBits - 1 :=
    Nat.div_mul_le_self _ _
  have hup := Nat.lt_div_mul_add (a := cfg.vaBits - cfg.psz.shift + cfg.psz.indexBits - 1) hpos
  rw [← levels, levels_eq] at hup
  rw [levels_eq, Nat.add_mul] at hlow
  rw [Nat.add_mul] at hup ⊢
  omega

theorem shift_depth_sub {k : Nat} (hk : k ≤ cfg.depth) :
    cfg.shift (cfg.depth - k) = cfg.psz.shift + k * cfg.psz.indexBits := by
  rw [shift, levels_eq]
  congr 2
  omega

theorem width_eq (k : Nat) : cfg.width k = 2 ^ (if cfg.depth ≤ k then
    cfg.vaBits - (cfg.psz.shift + cfg.depth * cfg.psz.indexBits) else cfg.psz.indexBits) := by
  rw [width, entCnt, Nat.one_shiftLeft]
  congr 1
  by_cases hk : cfg.depth ≤ k
  · have hzero : cfg.depth - k = 0 := by omega
    have hshift := cfg.shift_depth_sub (le_refl cfg.depth)
    rw [Nat.sub_self] at hshift
    rw [if_pos hzero, if_pos hk, hzero, hshift]
  · rw [if_neg (by omega), if_neg hk]

theorem width_of_lt {k : Nat} (hk : k < cfg.depth) : cfg.width k = 2 ^ cfg.psz.indexBits := by
  rw [width_eq, if_neg (by omega)]

theorem width_le (k : Nat) : cfg.width k ≤ 2 ^ cfg.psz.indexBits := by
  obtain ⟨-, hup⟩ := cfg.depth_bits
  rw [Nat.add_mul] at hup
  rw [width_eq]
  refine Nat.pow_le_pow_right (by decide) ?_
  split_ifs
  · omega
  · exact le_refl _

theorem two_le_width (k : Nat) : 2 ≤ cfg.width k := by
  obtain ⟨hlow, -⟩ := cfg.depth_bits
  have hpos := cfg.psz.indexBits_pos
  rw [width_eq]
  refine Nat.le_self_pow ?_ 2
  split_ifs <;> omega

theorem index_eq {k : Nat} (hk : k ≤ cfg.depth) (va : Word) :
    cfg.index k va = va.toNat / 2 ^ (cfg.psz.shift + k * cfg.psz.indexBits) % cfg.width k := by
  have hwidth := cfg.width_eq k
  rw [index, getIndex, cfg.shift_depth_sub hk, Nat.shiftRight_eq_div_pow]
  change _ &&& (cfg.width k - 1) = _
  rw [hwidth, Nat.and_two_pow_sub_one_eq_mod]

theorem index_lt {k : Nat} (hk : k ≤ cfg.depth) (va : Word) : cfg.index k va < cfg.width k := by
  rw [cfg.index_eq hk]
  exact Nat.mod_lt _ (Nat.lt_of_lt_of_le (by decide) (cfg.two_le_width k))

/-! ### Pages -/

/-- The number of the page that an address lies in. -/
def pageNo (va : Word) : Nat := va.toNat % 2 ^ cfg.vaBits / cfg.psz.size

/-- The index into a table is a digit of the page number. -/
theorem index_eq_digit {k : Nat} (hk : k ≤ cfg.depth) (va : Word) :
    cfg.index k va = cfg.pageNo va / (2 ^ cfg.psz.indexBits) ^ k % 2 ^ cfg.psz.indexBits := by
  obtain ⟨hlow, hup⟩ := cfg.depth_bits
  have hmul : k * cfg.psz.indexBits ≤ cfg.depth * cfg.psz.indexBits := Nat.mul_le_mul_right _ hk
  have hbits : cfg.psz.shift + k * cfg.psz.indexBits ≤ cfg.vaBits := by omega
  -- the digits of the page number are those of the address, up to its last bit
  have hpage : cfg.pageNo va / (2 ^ cfg.psz.indexBits) ^ k =
      va.toNat / 2 ^ (cfg.psz.shift + k * cfg.psz.indexBits) %
        2 ^ (cfg.vaBits - (cfg.psz.shift + k * cfg.psz.indexBits)) := by
    rw [pageNo, BPage.size_eq_two_pow, ← Nat.pow_mul, Nat.div_div_eq_div_mul, ← Nat.pow_add,
      Nat.mul_comm cfg.psz.indexBits, ← Nat.mod_mul_right_div_self, ← Nat.pow_add, Nat.add_sub_cancel' hbits]
  rw [cfg.index_eq hk, hpage, cfg.width_eq k]
  split_ifs with hroot
  · have heq : k = cfg.depth := le_antisymm hk hroot
    subst heq
    rw [Nat.add_mul] at hup
    refine (Nat.mod_eq_of_lt (Nat.lt_of_lt_of_le (Nat.mod_lt _ (Nat.two_pow_pos _)) ?_)).symm
    exact Nat.pow_le_pow_right (by decide) (by omega)
  · have hnext : (k + 1) * cfg.psz.indexBits ≤ cfg.depth * cfg.psz.indexBits :=
      Nat.mul_le_mul_right _ (by omega)
    rw [Nat.add_mul] at hnext
    rw [Nat.mod_mod_of_dvd _ (Nat.pow_dvd_pow 2 (by omega))]

theorem pageNo_lt (va : Word) : cfg.pageNo va < 2 ^ (cfg.vaBits - cfg.psz.shift) := by
  rw [pageNo, BPage.size_eq_two_pow, Nat.div_lt_iff_lt_mul (Nat.two_pow_pos _), ← Nat.pow_add,
    Nat.sub_add_cancel (Nat.le_of_lt cfg.shift_lt)]
  exact Nat.mod_lt _ (Nat.two_pow_pos _)

theorem pageNo_lt_pow (va : Word) : cfg.pageNo va < (2 ^ cfg.psz.indexBits) ^ (cfg.depth + 1) := by
  refine Nat.lt_of_lt_of_le (cfg.pageNo_lt va) ?_
  rw [← Nat.pow_mul]
  refine Nat.pow_le_pow_right (by decide) ?_
  rw [Nat.mul_comm]
  exact cfg.depth_bits.2

theorem pageNo_eq_iff {va va' : Word} :
    cfg.pageNo va = cfg.pageNo va' ↔ ∀ k ≤ cfg.depth, cfg.index k va = cfg.index k va' := by
  constructor
  · intro h k hk
    rw [cfg.index_eq_digit hk, cfg.index_eq_digit hk, h]
  · intro h
    have hmod := Digits.mod_pow_eq_of_digits (B := 2 ^ cfg.psz.indexBits) (a := cfg.pageNo va)
      (b := cfg.pageNo va') (n := cfg.depth + 1) fun k hk => by
        rw [← cfg.index_eq_digit (Nat.lt_succ_iff.mp hk), ← cfg.index_eq_digit (Nat.lt_succ_iff.mp hk),
          h k (Nat.lt_succ_iff.mp hk)]
    rwa [Nat.mod_eq_of_lt (cfg.pageNo_lt_pow va), Nat.mod_eq_of_lt (cfg.pageNo_lt_pow va')] at hmod

/-- A canonical address: all bits from the highest translated one on are equal. -/
def Canonical (va : Word) : Prop :=
  va.toNat < 2 ^ (cfg.vaBits - 1) ∨ 2 ^ 64 - 2 ^ (cfg.vaBits - 1) ≤ va.toNat

instance (va : Word) : Decidable (cfg.Canonical va) := inferInstanceAs (Decidable (_ ∨ _))

/-- Two addresses in one page. -/
def SamePage (va va' : Word) : Prop := va &&& cfg.psz.addrMask = va' &&& cfg.psz.addrMask

instance (va va' : Word) : Decidable (cfg.SamePage va va') := inferInstanceAs (Decidable (_ = _))

theorem samePage_iff_div {va va' : Word} :
    cfg.SamePage va va' ↔ va.toNat / cfg.psz.size = va'.toNat / cfg.psz.size := by
  rw [SamePage, ← BitVec.toNat_inj, BPage.toNat_and_addrMask, BPage.toNat_and_addrMask]
  exact Nat.mul_left_inj (Nat.ne_of_gt cfg.psz.size_pos)

/-- The pages between the two halves of the address space. -/
def gap : Nat := 2 ^ (64 - cfg.psz.shift) - 2 ^ (cfg.vaBits - cfg.psz.shift)

/-- The powers of two that bound the halves of the address space, in pages. -/
theorem half_pages : 2 ^ cfg.vaBits = 2 * 2 ^ (cfg.vaBits - 1) ∧
    2 ^ (cfg.vaBits - 1) = cfg.psz.size * 2 ^ (cfg.vaBits - 1 - cfg.psz.shift) ∧
    2 ^ 64 = 2 ^ cfg.vaBits + cfg.psz.size * cfg.gap := by
  have hlt := cfg.shift_lt
  have hle := cfg.vaBits_le
  rw [BPage.size_eq_two_pow]
  refine ⟨?_, ?_, ?_⟩
  · rw [← Nat.pow_succ']
    congr 1
    omega
  · rw [← Nat.pow_add]
    congr 1
    omega
  · rw [gap, Nat.mul_sub, ← Nat.pow_add, ← Nat.pow_add, Nat.add_sub_cancel' (by omega),
      Nat.add_sub_cancel' (by omega)]
    have := Nat.pow_le_pow_right (n := 2) (by decide) hle
    omega

theorem add_gap_mod {x : Nat} (h : x < 2 ^ cfg.vaBits) :
    (x + cfg.psz.size * cfg.gap) % 2 ^ cfg.vaBits = x := by
  obtain ⟨-, -, htop⟩ := cfg.half_pages
  have hdvd : 2 ^ cfg.vaBits ∣ 2 ^ 64 := Nat.pow_dvd_pow 2 cfg.vaBits_le
  rw [htop] at hdvd
  obtain ⟨m, hm⟩ := (Nat.dvd_add_right (Nat.dvd_refl _)).mp hdvd
  rw [hm, Nat.add_mul_mod_self_left, Nat.mod_eq_of_lt h]

/-- The lower half keeps its numbers, the upper half is moved up as a whole. -/
theorem div_size_eq {va : Word} (h : cfg.Canonical va) :
    (cfg.pageNo va < 2 ^ (cfg.vaBits - 1 - cfg.psz.shift) ∧ va.toNat / cfg.psz.size = cfg.pageNo va) ∨
    (2 ^ (cfg.vaBits - 1 - cfg.psz.shift) ≤ cfg.pageNo va ∧
      va.toNat / cfg.psz.size = cfg.pageNo va + cfg.gap) := by
  obtain ⟨hdouble, hhalf, htop⟩ := cfg.half_pages
  have hsize := cfg.psz.size_pos
  have hva := va.isLt
  rw [pageNo]
  rcases h with hlow | hhigh
  · left
    have hmod : va.toNat % 2 ^ cfg.vaBits = va.toNat := Nat.mod_eq_of_lt (by omega)
    rw [hmod]
    exact ⟨Nat.div_lt_of_lt_mul (hhalf ▸ hlow), rfl⟩
  · right
    obtain ⟨x, hx⟩ := Nat.exists_eq_add_of_le' (show cfg.psz.size * cfg.gap ≤ va.toNat by omega)
    rw [hx, cfg.add_gap_mod (by omega), Nat.add_mul_div_left _ _ hsize]
    refine ⟨(Nat.le_div_iff_mul_le hsize).mpr ?_, rfl⟩
    rw [Nat.mul_comm, ← hhalf]
    omega

theorem samePage_iff_pageNo {va va' : Word} (h : cfg.Canonical va) (h' : cfg.Canonical va') :
    cfg.SamePage va va' ↔ cfg.pageNo va = cfg.pageNo va' := by
  rw [samePage_iff_div]
  rcases cfg.div_size_eq h with ⟨hlt, heq⟩ | ⟨hle, heq⟩ <;>
    rcases cfg.div_size_eq h' with ⟨hlt', heq'⟩ | ⟨hle', heq'⟩ <;> omega

theorem samePage_iff {va va' : Word} (h : cfg.Canonical va) (h' : cfg.Canonical va') :
    cfg.SamePage va va' ↔ ∀ k ≤ cfg.depth, cfg.index k va = cfg.index k va' :=
  (cfg.samePage_iff_pageNo h h').trans cfg.pageNo_eq_iff

theorem index_and_addrMask {k : Nat} (hk : k ≤ cfg.depth) (va : Word) :
    cfg.index k (va &&& cfg.psz.addrMask) = cfg.index k va := by
  rw [cfg.index_eq hk, cfg.index_eq hk, BPage.toNat_and_addrMask, BPage.size_eq_two_pow, Nat.pow_add,
    ← Nat.div_div_eq_div_mul, ← Nat.div_div_eq_div_mul, Nat.mul_div_cancel _ (Nat.two_pow_pos _)]

/-- Every choice of indices is that of a canonical address. -/
theorem exists_canonical (digit : Nat → Nat) (h : ∀ k ≤ cfg.depth, digit k < cfg.width k) :
    ∃ va, cfg.Canonical va ∧ ∀ k ≤ cfg.depth, cfg.index k va = digit k := by
  have hsize := cfg.psz.size_pos
  obtain ⟨hdouble, hhalf, htop⟩ := cfg.half_pages
  obtain ⟨a, ha, hak⟩ := Digits.exists_of_digits (B := 2 ^ cfg.psz.indexBits) digit (n := cfg.depth + 1)
    fun k hk => Nat.lt_of_lt_of_le (h k (Nat.lt_succ_iff.mp hk)) (cfg.width_le k)
  have hbound : a * cfg.psz.size < 2 ^ cfg.vaBits := by
    have hpow : (2 ^ cfg.psz.indexBits) ^ cfg.depth * cfg.width cfg.depth * cfg.psz.size = 2 ^ cfg.vaBits := by
      obtain ⟨hlow, -⟩ := cfg.depth_bits
      rw [cfg.width_eq, if_pos (le_refl _), BPage.size_eq_two_pow, ← Nat.pow_mul, ← Nat.pow_add, ← Nat.pow_add,
        Nat.mul_comm]
      congr 1
      omega
    have htop : a / (2 ^ cfg.psz.indexBits) ^ cfg.depth < cfg.width cfg.depth := by
      have hlt : a / (2 ^ cfg.psz.indexBits) ^ cfg.depth < 2 ^ cfg.psz.indexBits :=
        Nat.div_lt_of_lt_mul ha
      rw [← Nat.mod_eq_of_lt hlt, hak _ (Nat.lt_succ_self _)]
      exact h _ (le_refl _)
    rw [← hpow]
    refine Nat.mul_lt_mul_of_pos_right ?_ hsize
    rw [Nat.mul_comm]
    exact (Nat.div_lt_iff_lt_mul (Nat.pow_pos (Nat.two_pow_pos _))).mp htop
  -- the page number `a`, moved to the upper half when it belongs there
  obtain ⟨va, hcanon, hmod⟩ : ∃ va : Word, cfg.Canonical va ∧
      va.toNat % 2 ^ cfg.vaBits = a * cfg.psz.size := by
    have htoNat : ∀ {x : Nat}, x < 2 ^ 64 → (BitVec.ofNat 64 x).toNat = x := fun hx => by
      rw [BitVec.toNat_ofNat, Nat.mod_eq_of_lt hx]
    by_cases hlow : a * cfg.psz.size < 2 ^ (cfg.vaBits - 1)
    · have hva := htoNat (show a * cfg.psz.size < 2 ^ 64 by omega)
      refine ⟨BitVec.ofNat 64 (a * cfg.psz.size), Or.inl ?_, ?_⟩
      · rw [hva]
        exact hlow
      · rw [hva, Nat.mod_eq_of_lt hbound]
    · have hva := htoNat (show a * cfg.psz.size + cfg.psz.size * cfg.gap < 2 ^ 64 by omega)
      refine ⟨BitVec.ofNat 64 (a * cfg.psz.size + cfg.psz.size * cfg.gap), Or.inr ?_, ?_⟩
      · rw [hva]
        omega
      · rw [hva, cfg.add_gap_mod hbound]
  refine ⟨va, hcanon, fun k hk => ?_⟩
  rw [cfg.index_eq_digit hk, pageNo, hmod, Nat.mul_div_cancel _ hsize, hak k (Nat.lt_succ_of_le hk)]

end RvmCfg

end UnixKernel
