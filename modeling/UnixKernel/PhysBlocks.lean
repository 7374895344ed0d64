import UnixKernel.Overflow
import UnixKernel.PhysBoot
import UnixKernel.PhysSpec

/-! The valid blocks of the table as a collection, without their slots. `add` takes the blocks that the new one
is joined with out of the collection and puts one block in for all of them (`Joined`); compacting the table
keeps the collection. What the collection goes through is read off calls under `still`, operations that neither
grow nor shrink the table: the real calls differ from them only by a call of `shrink` at the end. -/

namespace UnixKernel

open Slots Segments

namespace PhysAlloc

variable {s s' : PhysAlloc} {nb : RAMBlock} {o : TableOps}

theorem valids_setSlot {i : Nat} {b : RAMBlock} (b' : RAMBlock) (hi : s.blocks[i]? = some b) (hb : 0 < b.size)
    (hb' : 0 < b'.size) : ∃ rest, s.valids = b ::ₘ rest ∧ (s.setSlot i b').valids = b' ::ₘ rest := by
  obtain ⟨rest, hl, hl'⟩ := (swap_set b' hi).filter (RAMBlock.valid_iff.mpr hb) (RAMBlock.valid_iff.mpr hb')
  exact ⟨rest, Multiset.coe_eq_coe.mpr hl, Multiset.coe_eq_coe.mpr hl'⟩

theorem valids_invalidate {i : Nat} {b : RAMBlock} (hi : s.blocks[i]? = some b) (hb : 0 < b.size) :
    s.valids = b ::ₘ (s.setSlot i b.invalidate).valids :=
  Multiset.coe_eq_coe.mpr ((swap_set b.invalidate hi).symm.filter_of_new rfl (RAMBlock.valid_iff.mpr hb))

theorem valids_fill (hnb : 0 < nb.size) (hroom : s.count < s.max) :
    ({ s with blocks := fill RAMBlock.invalid nb s.blocks } : PhysAlloc).valids = nb ::ₘ s.valids := by
  obtain ⟨b, hb, hswap⟩ := swap_fill (b := nb) (RAMBlock.exists_vacant hroom)
  have hnot : b.valid = false := by simpa [RAMBlock.invalid_eq_not_valid] using hb
  exact Multiset.coe_eq_coe.mpr (hswap.filter_of_new hnot (RAMBlock.valid_iff.mpr hnb))

theorem valids_clearRange (s : PhysAlloc) (p : OwnedPtr) :
    (s.clearRange p).valids = s.valids.filter fun b => ¬overlaps p b = true := by
  rw [valids, valids, clearRange, Multiset.filter_coe, Multiset.coe_eq_coe]
  induction s.blocks with
  | nil => rfl
  | cons b l ih =>
      rw [List.map_cons]
      by_cases hb : overlaps p b = true
      · have hvalid : b.valid = true := RAMBlock.valid_iff.mpr (overlaps_iff.mp hb).1
        have hgone : ¬b.invalidate.valid = true := by simp [RAMBlock.valid, RAMBlock.invalidate]
        rw [if_pos hb, List.filter_cons_of_neg hgone, List.filter_cons_of_pos hvalid,
          List.filter_cons_of_neg (by simp [hb])]
        exact ih
      · rw [if_neg hb]
        by_cases hvalid : b.valid = true
        · rw [List.filter_cons_of_pos hvalid, List.filter_cons_of_pos hvalid,
            List.filter_cons_of_pos (by simp [hb])]
          exact ih.cons b
        · rw [List.filter_cons_of_neg hvalid, List.filter_cons_of_neg hvalid]
          exact ih

/-! ### What `add` does to the collection -/

/-- A table that may neither grow nor shrink. -/
def still : TableOps := ⟨fun _ _ _ => throw .panic, fun s _ => pure s⟩

/-- From `s` to `s'` the block `nb` is joined with the blocks of `near` to the block `m`, which reaches as far as
the outermost of them; where it ends with `nb` there is no block to join it with. -/
structure Joined (s s' : PhysAlloc) (nb m : RAMBlock) (near rest : Multiset RAMBlock) : Prop where
  before : s.valids = near + rest
  after : s'.valids = m ::ₘ rest
  tag_eq : (m.ty, m.used) = (nb.ty, nb.used)
  near_tag : ∀ b ∈ near, (b.ty, b.used) = (nb.ty, nb.used)
  left : m.addr = nb.addr ∧ ¬s.HasBefore nb ∨ ∃ b ∈ near, b.addr = m.addr
  right : m.fin = nb.fin ∧ ¬s.HasAfter nb ∨ ∃ b ∈ near, b.fin = m.fin

theorem joined_before {before : RAMBlock} {i : Nat} (hi : s.blocks[i]? = some before) (hsize : 0 < before.size)
    (htag : (before.ty, before.used) = (nb.ty, nb.used)) (hfin : before.fin = nb.addr) (hafter : ¬s.HasAfter nb) :
    ∃ m near rest, Joined s (s.setSlot i { before with size := before.size + nb.size }) nb m near rest := by
  obtain ⟨rest, hold, hnew⟩ := valids_setSlot { before with size := before.size + nb.size } hi hsize
    (Nat.add_pos_left hsize _)
  refine ⟨_, {before}, rest, by simpa using hold, hnew, htag, by simpa using htag,
    Or.inr ⟨before, Multiset.mem_singleton_self _, rfl⟩, Or.inl ⟨?_, hafter⟩⟩
  simp only [RAMBlock.fin] at hfin ⊢
  omega

theorem joined_after {after : RAMBlock} {j : Nat} (hj : s.blocks[j]? = some after) (hsize : 0 < after.size)
    (htag : (after.ty, after.used) = (nb.ty, nb.used)) (hfin : nb.fin = after.addr) (hbefore : ¬s.HasBefore nb) :
    ∃ m near rest, Joined s (s.setSlot j { after with addr := nb.addr, size := after.size + nb.size }) nb m near
      rest := by
  obtain ⟨rest, hold, hnew⟩ := valids_setSlot { after with addr := nb.addr, size := after.size + nb.size } hj
    hsize (Nat.add_pos_left hsize _)
  refine ⟨_, {after}, rest, by simpa using hold, hnew, htag, by simpa using htag, Or.inl ⟨rfl, hbefore⟩,
    Or.inr ⟨after, Multiset.mem_singleton_self _, ?_⟩⟩
  simp only [RAMBlock.fin] at hfin ⊢
  omega

theorem joined_both {before after : RAMBlock} {i j : Nat} (hnb : 0 < nb.size) (hi : s.blocks[i]? = some before)
    (hbsize : 0 < before.size) (hbtag : (before.ty, before.used) = (nb.ty, nb.used)) (hbfin : before.fin = nb.addr)
    (hj : s.blocks[j]? = some after) (hasize : 0 < after.size)
    (hatag : (after.ty, after.used) = (nb.ty, nb.used)) (hafin : nb.fin = after.addr) :
    ∃ m near rest, Joined s ((s.setSlot i { before with size := before.size + nb.size + after.size }).setSlot j
      after.invalidate) nb m near rest := by
  simp only [RAMBlock.fin] at hbfin hafin
  have hij : i ≠ j := by
    rintro rfl
    rw [hi] at hj
    cases hj
    omega
  have hj' : (s.setSlot i { before with size := before.size + nb.size + after.size }).blocks[j]? = some after := by
    rw [setSlot, List.getElem?_set_ne hij, hj]
  obtain ⟨rest₁, hold, hmid⟩ := valids_setSlot { before with size := before.size + nb.size + after.size } hi
    hbsize (by simp only; omega)
  rw [valids_invalidate hj' hasize, Multiset.cons_eq_cons] at hmid
  rcases hmid with ⟨heq, -⟩ | ⟨-, rest, hnew, hrest₁⟩
  · have haddr := congrArg RAMBlock.addr heq
    simp only at haddr
    omega
  refine ⟨_, before ::ₘ {after}, rest, ?_, hnew, hbtag, ?_, Or.inr ⟨before, by simp, rfl⟩,
    Or.inr ⟨after, by simp, ?_⟩⟩
  · rw [hold, hrest₁, Multiset.cons_add, Multiset.singleton_add]
  · intro b hb
    rw [Multiset.mem_cons, Multiset.mem_singleton] at hb
    rcases hb with rfl | rfl
    exacts [hbtag, hatag]
  · simp only [RAMBlock.fin]
    omega

theorem joined_place (hnb : 0 < nb.size) (hroom : s.count < s.max) (hbefore : ¬s.HasBefore nb)
    (hafter : ¬s.HasAfter nb) :
    ∃ m near rest, Joined s { s with blocks := fill RAMBlock.invalid nb s.blocks } nb m near rest :=
  ⟨nb, 0, s.valids, (zero_add _).symm, valids_fill hnb hroom, rfl, by simp, Or.inl ⟨rfl, hbefore⟩,
    Or.inl ⟨rfl, hafter⟩⟩

/-- A table that stays as it is gets the new block joined with its neighbours. -/
theorem joined_of_add (hnb : 0 < nb.size) (h : add still s nb = .ok s') :
    ∃ m near rest, Joined s s' nb m near rest := by
  have hinvalid : ¬nb.invalid = true := by
    rw [RAMBlock.invalid_iff]
    omega
  rcases scan_before (s := s) hnb with ⟨i, b, hlast, hi, hbsize, hbtag, hbfin⟩ | ⟨hlast, hbefore⟩ <;>
    rcases scan_after (s := s) hnb with ⟨j, a, hlast', hj, hasize, hatag, hafin⟩ | ⟨hlast', hafter⟩ <;>
    rw [add, if_neg hinvalid, hlast, hlast'] at h
  · have hs' := joined_both hnb hi hbsize hbtag hbfin hj hasize hatag hafin
    simp only [still, ite_self] at h
    cases h
    exact hs'
  · cases h
    exact joined_before hi hbsize hbtag hbfin hafter
  · cases h
    exact joined_after hj hasize hatag hafin hbefore
  · rcases Nat.lt_or_ge s.count s.max with hroom | hfull
    · simp only [ge_iff_le, Nat.not_le.mpr hroom, if_false] at h
      cases h
      exact joined_place hnb hroom hbefore hafter
    · simp only [ge_iff_le, hfull, if_true] at h
      cases h

/-- Where the block fits, the real call is the one that leaves the table as it is, or goes on to shrink it. -/
theorem add_cases (hfits : s.Fits nb) : ∃ s₁, add still s nb = .ok s₁ ∧ Inserted s s₁ nb ∧
    ((∀ o, add o s nb = .ok s₁) ∨ s₁.count ≤ s₁.max >>> 2 ∧
      ∀ o, add o s nb = o.shrink s₁ (Nat.max (s₁.max >>> 1) baseRbSize)) := by
  rcases Nat.eq_zero_or_pos nb.size with hzero | hnb
  · exact ⟨s, add_of_size_eq_zero still hzero, inserted_of_size_eq_zero s hzero,
      Or.inl fun o => add_of_size_eq_zero o hzero⟩
  by_cases hboth : s.HasBefore nb ∧ s.HasAfter nb
  · obtain ⟨s₁, hins, -, hadd⟩ := add_of_both hnb hboth.1 hboth.2
    refine ⟨s₁, ?_, hins, ?_⟩
    · rw [hadd still]
      exact ite_self _
    · by_cases hsparse : s₁.count ≤ s₁.max >>> 2
      · exact Or.inr ⟨hsparse, fun o => by rw [hadd o, if_pos hsparse]⟩
      · exact Or.inl fun o => by rw [hadd o, if_neg hsparse]
  · obtain ⟨s₁, hins, -, hadd⟩ := add_ok (fun _ => hboth) hfits
    exact ⟨s₁, hadd still, hins, Or.inl hadd⟩

/-- The calls of `add` that make up `free`: the remainders are parts of blocks that were taken out. -/
theorem free_eq_ok {p : OwnedPtr} (h : free o s p = .ok s') :
    ∃ (before after : Option RAMBlock) (s₁ s₂ : PhysAlloc), addSome o (s.clearRange p) before = .ok s₁ ∧
      addSome o s₁ after = .ok s₂ ∧ add o s₂ ⟨p.addr, p.size, .conv, false⟩ = .ok s' ∧
      ∀ c, c ∈ before ∨ c ∈ after → ∃ b ∈ s.blocks, overlaps p b = true ∧ (c.ty, c.used) = (b.ty, b.used) ∧
        b.addr ≤ c.addr ∧ c.fin ≤ b.fin := by
  obtain ⟨s₁, hbefore, h⟩ := bind_eq_ok.mp h
  obtain ⟨s₂, hafter, h⟩ := bind_eq_ok.mp h
  refine ⟨_, _, s₁, s₂, hbefore, hafter, h, ?_⟩
  rintro c (hc | hc) <;> obtain ⟨⟨i, b⟩, hlast, rfl⟩ := Option.map_eq_some_iff.mp hc <;>
    obtain ⟨hget, hb⟩ := last?_eq_some hlast <;> rw [Bool.and_eq_true, decide_eq_true_eq] at hb <;>
    obtain ⟨-, hlo, hhi⟩ := overlaps_iff.mp hb.1 <;>
    refine ⟨b, List.mem_of_getElem? hget, hb.1, rfl, ?_⟩ <;> simp only [RAMBlock.fin, OwnedPtr.fin] at * <;> omega

/-! ### What `shrink` gives back -/

/-- `shrink` never loses a block. The memory it frees is the tail of its storage behind the kept entries exactly if
that tail starts at a page boundary, or there is no tail. -/
theorem shrink_freed_iff {pg : BPage} {newMax : Nat} (hst : Storage pg s) (hlt : newMax < s.max)
    (hcount : s.count ≤ newMax) (hmin : minReq ≤ newMax) :
    (∃ s₁ freed, shrinkTo pg s newMax = .ok (s₁, freed) ∧
      (∀ o, shrink pg o s newMax = freed.elim (.ok s₁) (free o s₁)) ∧ s₁.valids = s.valids ∧
      ∀ p ∈ freed, ∀ x, Holds p x → Holds s.ptr x ∧ ¬Holds (⟨s.ptr.addr, newMax * ramBlockSize⟩ : OwnedPtr) x) ↔
    tableBytes pg newMax = tableBytes pg s.max ∨ pg.size ∣ tableBytes pg newMax := by
  have hsize := hst.size_eq
  have hmono : tableBytes pg newMax ≤ tableBytes pg s.max := sizeAlign_mono pg (Nat.mul_le_mul_right _ hlt.le)
  have hentries : newMax * ramBlockSize ≤ tableBytes pg newMax := le_sizeAlign pg _
  obtain ⟨cut, whole, hcut, hwhole, -, -, -, -, hto⟩ := shrinkTo_of_accepted pg hlt hcount hmin
  rw [if_neg (by omega)] at hto
  by_cases htail : s.ptr.size - tableBytes pg newMax = 0
  · rw [if_pos htail] at hto
    refine iff_of_true ⟨whole, none, hto, fun o => ?_, hwhole, nofun⟩ (Or.inl (by omega))
    rw [shrink_eq_shrinkTo, hto]
    rfl
  rw [if_neg htail] at hto
  have hup := le_alignUp (s.ptr.addr + tableBytes pg newMax) pg.size
  constructor
  · rintro ⟨s₁, freed, hto', -, -, hfreed⟩
    rw [hto] at hto'
    cases hto'
    -- the last byte that is freed lies in the storage, so the tail starts where the kept part ends
    have hlast := (hfreed _ rfl (alignUp (s.ptr.addr + tableBytes pg newMax) pg.size +
      (s.ptr.size - tableBytes pg newMax) - 1) (by rw [OwnedPtr.holds_iff]; dsimp only; omega)).1
    rw [OwnedPtr.holds_iff] at hlast
    have hstart : alignUp (s.ptr.addr + tableBytes pg newMax) pg.size = s.ptr.addr + tableBytes pg newMax := by
      omega
    exact Or.inr ((Nat.dvd_add_right hst.aligned).mp (hstart ▸ dvd_alignUp _ pg.size_pos))
  · rintro (heq | hpages)
    · omega
    rw [alignUp_of_dvd (Nat.dvd_add hst.aligned hpages)] at hto
    refine ⟨cut, some _, hto, fun o => ?_, hcut, ?_⟩
    · rw [shrink_eq_shrinkTo, hto]
      rfl
    · rintro p hp x hx
      cases hp
      rw [OwnedPtr.holds_iff] at hx
      dsimp only at hx
      rw [OwnedPtr.holds_iff, OwnedPtr.holds_iff]
      dsimp only
      omega

/-- A table of 256 entries with nothing in it but its own storage. -/
def roomy : PhysAlloc where
  ptr := ⟨0x100000, 0x2000⟩
  blocks := ⟨0x100000, 0x2000, .conv, true⟩ :: List.replicate 255 RAMBlock.newInvalid
  isInit := true

theorem shrink_freed_roomy : ∃ s₁ freed, shrinkTo .size4kiB roomy 128 = .ok (s₁, freed) ∧
    (∀ o, shrink .size4kiB o roomy 128 = freed.elim (.ok s₁) (free o s₁)) ∧ s₁.valids = roomy.valids ∧
    ∀ p ∈ freed, ∀ x, Holds p x →
      Holds roomy.ptr x ∧ ¬Holds (⟨roomy.ptr.addr, 128 * ramBlockSize⟩ : OwnedPtr) x :=
  (shrink_freed_iff ⟨⟨1, by decide +kernel⟩, by decide, by decide +kernel⟩ (by decide +kernel)
    (by decide +kernel) (by decide)).mpr (Or.inr (by decide +kernel))

/-- With 16 KiB pages half of the table's storage is less than a page, and the rounded tail lies behind it. -/
theorem shrink_freed_outside : Storage .size16kiB roomy ∧ 128 < roomy.max ∧ roomy.count ≤ 128 ∧
    (shrinkTo .size16kiB roomy 128).map Prod.snd = .ok (some ⟨0x104000, 0x1000⟩) ∧
    ¬Holds roomy.ptr 0x104000 :=
  ⟨⟨⟨1, by decide +kernel⟩, by decide, by decide +kernel⟩, by decide +kernel, by decide +kernel, by decide +kernel,
    by decide⟩

end PhysAlloc

end UnixKernel
