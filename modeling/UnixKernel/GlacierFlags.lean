import UnixKernel.GlacierRun

/-! The mapping flags of the two architectures and `get_pa`. A leaf word is the address of the page with the
flags put in by `|`; `get_pa` takes out the bits below the page size only. The flags that forbid execution
have bits at the top of the word as well, and these stay in the address it returns. -/

namespace UnixKernel

open Runs

/-- The mapping constants of `arch::rvm::flags`. -/
inductive MapFlag where
  | kRoo | kRwo | kRox | kRwx | dRo | dRw | uRoo | uRwo | uRox | uRwx
  deriving DecidableEq, Repr

def Arch.mapFlag : Arch → MapFlag → Word
  | .amd64, .kRoo => 0b1 ||| 1 <<< 63
  | .amd64, .kRwo => 0b11 ||| 1 <<< 63
  | .amd64, .kRox => 0b1
  | .amd64, .kRwx => 0b11
  | .amd64, .dRo => 0b10001 ||| 1 <<< 63
  | .amd64, .dRw => 0b10011 ||| 1 <<< 63
  | .amd64, .uRoo => 0b101 ||| 1 <<< 63
  | .amd64, .uRwo => 0b111 ||| 1 <<< 63
  | .amd64, .uRox => 0b101
  | .amd64, .uRwx => 0b111
  | .aarch64, .kRoo => 0b11110000011 ||| 0b11 <<< 53
  | .aarch64, .kRwo => 0b11100000011 ||| 0b11 <<< 53
  | .aarch64, .kRox => 0b11110000011
  | .aarch64, .kRwx => 0b11100000011
  | .aarch64, .dRo => 0b10010000111 ||| 0b11 <<< 53
  | .aarch64, .dRw => 0b10000000111 ||| 0b11 <<< 53
  | .aarch64, .uRoo => 0b11111000011 ||| 0b11 <<< 53
  | .aarch64, .uRwo => 0b11101000011 ||| 0b11 <<< 53
  | .aarch64, .uRox => 0b11111000011
  | .aarch64, .uRwx => 0b11101000011

/-- The flags that allow execution. -/
def MapFlag.executable : MapFlag → Bool
  | .kRox | .kRwx | .uRox | .uRwx => true
  | _ => false

/-- The bits that forbid execution. -/
def Arch.neverExecute : Arch → Word
  | .amd64 => 1 <<< 63
  | .aarch64 => 0b11 <<< 53

namespace Glacier

theorem mapFlag_valid (arch : Arch) (f : MapFlag) : arch.mapFlag f &&& flagValid ≠ 0 := by
  cases arch <;> cases f <;> decide

theorem mapFlag_and_addrMask (arch : Arch) (f : MapFlag) (pg : BPage) :
    arch.mapFlag f &&& pg.addrMask = if f.executable then 0 else arch.neverExecute := by
  cases arch <;> cases f <;> cases pg <;> decide

theorem or_neverExecute_ne (arch : Arch) {pa : Word} (hpa : pa.toNat < 2 ^ 52) :
    pa ||| arch.neverExecute ≠ pa := by
  intro heq
  have hbits : 2 ^ 52 ≤ arch.neverExecute.toNat := by cases arch <;> decide
  have hle : arch.neverExecute.toNat ≤ (pa ||| arch.neverExecute).toNat := by
    rw [BitVec.toNat_or]
    exact Nat.right_le_or
  rw [heq] at hle
  omega

theorem leaf_and_addrMask (arch : Arch) (f : MapFlag) (pg : BPage) (pa : Word) :
    (pa &&& pg.addrMask ||| arch.mapFlag f) &&& pg.addrMask =
      if f.executable then pa &&& pg.addrMask else pa &&& pg.addrMask ||| arch.neverExecute := by
  rw [BitVec.and_or_distrib_right, BitVec.and_assoc, BitVec.and_self, mapFlag_and_addrMask]
  split_ifs
  · exact BitVec.or_zero
  · rfl

section Others

variable (cfg : RvmCfg) (g : Glacier) (va : Word)

/-- A call on another page, whatever its outcome. -/
def OtherCall (r : Ram) : PageCall → Prop
  | .map va' _ _ answers => cfg.Canonical va' ∧ ¬cfg.SamePage va va' ∧
      Fresh cfg (tables cfg r.mem g.rootTable) answers
  | .unmap va' => cfg.Canonical va' ∧ ¬cfg.SamePage va va'

variable {cfg g va} {arch : Arch}

/-- Calls on other pages keep the tree well formed and the translation of the page. -/
theorem step_other {r : Ram} {c : PageCall} {leaf : Option Word} (hva : cfg.Canonical va)
    (h : WellFormed cfg r.mem g.rootTable ∧ walk cfg r.mem g.rootTable va = leaf)
    (hc : OtherCall cfg g va r c) : WellFormed cfg (step cfg arch g r c).mem g.rootTable ∧
      walk cfg (step cfg arch g r c).mem g.rootTable va = leaf := by
  obtain ⟨hwf, rfl⟩ := h
  cases c with
  | map va' pa flags answers =>
      obtain ⟨hva', hpage, hfresh⟩ := hc
      obtain ⟨hwf', -, hmiss⟩ := @mapPage_agree cfg arch g va' pa flags answers r _ _ hwf hfresh rfl
      exact ⟨hwf', hmiss va fun _ hagree => hpage ((samePage_iff_agree hva hva').mpr hagree.symm)⟩
  | unmap va' =>
      obtain ⟨hva', hpage⟩ := hc
      obtain ⟨hwf', hwalk⟩ := unmapPage_agree hwf va'
      exact ⟨hwf', (hwalk va).trans
        (if_neg fun hagree => hpage ((samePage_iff_agree hva hva').mpr hagree.symm))⟩

end Others

/-- After a successful `map_page` and any calls on other pages, `get_pa` returns the address of the page
exactly when the flags allow execution. -/
theorem getPa_mapped {cfg : RvmCfg} {arch : Arch} {g : Glacier} {va pa : Word} {f : MapFlag}
    {answers : List (Option Word)} {r r' : Ram} {calls : List PageCall}
    (hwf : WellFormed cfg r.mem g.rootTable) (hva : cfg.Canonical va) (hbits : cfg.paBits ≤ 52)
    (hpa : pa.toNat < 2 ^ cfg.paBits) (hfresh : Fresh cfg (tables cfg r.mem g.rootTable) answers)
    (hok : mapPage cfg arch g va pa (arch.mapFlag f) answers r = (.ok (), r'))
    (hcalls : Admits (step cfg arch g) (OtherCall cfg g va) r' calls) :
    getPa cfg g va (run (step cfg arch g) r' calls) = some (pa &&& cfg.psz.addrMask) ↔
      f.executable = true := by
  obtain ⟨added, hsub, -, -, heffect⟩ := @mapPage_effect cfg arch cfg.width va answers r g pa
    (arch.mapFlag f) width_le_page (inWidth_width va) hwf.aligned hwf.nodup hfresh
  rw [hok] at heffect
  have hleaf : walk cfg r'.mem g.rootTable va = some (pa &&& cfg.psz.addrMask ||| arch.mapFlag f) :=
    (heffect.hit rfl va fun _ _ => rfl).trans (if_neg (valid_or (mapFlag_valid arch f)))
  have hwf' : WellFormed cfg r'.mem g.rootTable := ⟨hwf.aligned, heffect.nodup hwf.nodup hfresh hsub⟩
  obtain ⟨-, hwalk⟩ := run_induction
    (P := fun s => WellFormed cfg s.mem g.rootTable ∧ walk cfg s.mem g.rootTable va =
      some (pa &&& cfg.psz.addrMask ||| arch.mapFlag f))
    (fun _ _ => step_other hva) ⟨hwf', hleaf⟩ hcalls
  have hpage : (pa &&& cfg.psz.addrMask).toNat < 2 ^ 52 := by
    rw [BPage.toNat_and_addrMask]
    exact Nat.lt_of_le_of_lt (Nat.div_mul_le_self _ _)
      (Nat.lt_of_lt_of_le hpa (Nat.pow_le_pow_right (by decide) hbits))
  rw [getPa_eq, hwalk, Option.map_some, leaf_and_addrMask, Option.some.injEq]
  split_ifs with hexec
  · exact iff_of_true rfl hexec
  · exact iff_of_false (or_neverExecute_ne arch hpage) hexec

/-- `RvmCfg::detect` on `amd64`. -/
def amd64Cfg : RvmCfg := ⟨.size4kiB, 48, 52, by decide, by decide⟩

theorem blankRoot_wellFormed : WellFormed amd64Cfg blankRoot.mem 0x1000 := by decide +kernel

theorem getPa_mapped_amd64 :
    getPa amd64Cfg ⟨0x1000, true⟩ 0x3000 (run (step amd64Cfg .amd64 ⟨0x1000, true⟩)
      (mapPage amd64Cfg .amd64 ⟨0x1000, true⟩ 0x3000 0x5000 (Arch.amd64.mapFlag .uRox)
        [some 0x2000, some 0x7000, some 0x8000] blankRoot).2
      [.unmap 0x4000]) = some 0x5000 :=
  (@getPa_mapped amd64Cfg .amd64 ⟨0x1000, true⟩ 0x3000 0x5000 .uRox [some 0x2000, some 0x7000, some 0x8000]
    blankRoot _ [.unmap 0x4000] blankRoot_wellFormed (by decide) (by decide) (by decide) (by decide +kernel) rfl
    ⟨⟨by decide, by decide⟩, trivial⟩).mpr rfl

/-- A page mapped for reading and writing only: its address comes back with the top bit set. -/
theorem getPa_not_executable :
    WellFormed amd64Cfg blankRoot.mem 0x1000 ∧ amd64Cfg.Canonical 0x3000 ∧
    Fresh amd64Cfg (tables amd64Cfg blankRoot.mem 0x1000) [some 0x2000, some 0x7000, some 0x8000] ∧
    (mapPage amd64Cfg .amd64 ⟨0x1000, true⟩ 0x3000 0x5000 (Arch.amd64.mapFlag .kRwo)
      [some 0x2000, some 0x7000, some 0x8000] blankRoot).1 = .ok () ∧
    getPa amd64Cfg ⟨0x1000, true⟩ 0x3000 (mapPage amd64Cfg .amd64 ⟨0x1000, true⟩ 0x3000 0x5000
      (Arch.amd64.mapFlag .kRwo) [some 0x2000, some 0x7000, some 0x8000] blankRoot).2 =
      some 0x8000000000005000 :=
  ⟨blankRoot_wellFormed, by decide, by decide +kernel, rfl, by decide +kernel⟩

end Glacier

end UnixKernel
