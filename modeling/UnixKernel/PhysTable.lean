import UnixKernel.PhysCut

/-! The storage of the block table and how it shrinks. The table's own bytes are used memory of the
table it holds (`TableOk`). Seen from outside (`view`), that memory is free: the allocator may move the
table or give part of it back at any time. Shrinking keeps the view, and freeing a range with two
vacant slots left changes the view on that range only, whether the table shrinks on the way or not. -/

namespace UnixKernel

open Slots Segments

/-- The bytes taken by a table of `max` entries. -/
def tableBytes (pg : BPage) (max : Nat) : Nat := sizeAlign pg (max * ramBlockSize)

theorem tableBytes_pos (pg : BPage) (max : Nat) : 0 < tableBytes pg max := sizeAlign_pos pg _

theorem page_dvd_size (pg : BPage) : 4096 ∣ pg.size := by cases pg <;> decide

theorem dvd_tableBytes {pg : BPage} {n : Nat} (h : baseRbSize ≤ n) : 4096 ∣ tableBytes pg n := by
  have hbytes : 3072 ≤ n * ramBlockSize := Nat.mul_le_mul_right ramBlockSize h
  rw [tableBytes, sizeAlign]
  split_ifs with hlt
  · obtain ⟨k, hk⟩ := exists_nextPowerOfTwo_eq (n * ramBlockSize)
    have hle := hbytes.trans (le_nextPowerOfTwo _)
    rw [hk] at hle ⊢
    have hk' : 12 ≤ k := by
      by_contra hnot
      have hpow : 2 ^ k ≤ 2 ^ 11 := Nat.pow_le_pow_right (by decide) (by omega)
      omega
    exact pow_dvd_pow 2 hk'
  · exact (page_dvd_size pg).trans (dvd_alignUp _ pg.size_pos)

theorem base_le_mul_pow (k : Nat) : baseRbSize ≤ baseRbSize * 2 ^ k :=
  Nat.le_mul_of_pos_right _ (Nat.two_pow_pos k)

theorem tableBytes_lt_succ (k : Nat) :
    tableBytes .size4kiB (baseRbSize * 2 ^ k) < tableBytes .size4kiB (baseRbSize * 2 ^ (k + 1)) := by
  cases k with
  | zero => decide
  | succ k =>
      have hpow : 1 ≤ 2 ^ k := Nat.one_le_two_pow
      have hlarge : ¬baseRbSize * 2 ^ (k + 1) * ramBlockSize < BPage.size4kiB.size := by
        rw [BPage.size_size4kiB, Nat.pow_succ]
        simp only [baseRbSize, ramBlockSize]
        omega
      have hup : tableBytes .size4kiB (baseRbSize * 2 ^ (k + 1)) <
          baseRbSize * 2 ^ (k + 1) * ramBlockSize + 4096 := by
        rw [tableBytes, sizeAlign, if_neg hlarge]
        exact alignUp_lt _ BPage.size4kiB.size_pos
      have hlow : baseRbSize * 2 ^ (k + 1 + 1) * ramBlockSize ≤
          tableBytes .size4kiB (baseRbSize * 2 ^ (k + 1 + 1)) := le_sizeAlign _ _
      refine lt_of_lt_of_le hup (le_trans ?_ hlow)
      simp only [baseRbSize, ramBlockSize, Nat.pow_succ]
      omega

namespace PhysAlloc

/-- The storage of the table as `alloc` hands it out. -/
structure Storage (pg : BPage) (s : PhysAlloc) : Prop where
  max_pow : ∃ k, s.max = baseRbSize * 2 ^ k
  aligned : pg.size ∣ s.ptr.addr
  size_eq : s.ptr.size = tableBytes pg s.max

/-- The table's storage is used memory of the table itself. -/
structure TableOk (pg : BPage) (s : PhysAlloc) : Prop extends Storage pg s where
  used : ∀ x, Holds s.ptr x → s.den x = {(.conv, true)}

/-- The memory map with the table's own storage counted as free. -/
def view (s : PhysAlloc) (x : Nat) : Multiset Tag :=
  if Holds s.ptr x then {(.conv, false)} else s.den x

theorem view_of_holds {s : PhysAlloc} {x : Nat} (h : Holds s.ptr x) : s.view x = {(.conv, false)} :=
  if_pos h

theorem view_of_not_holds {s : PhysAlloc} {x : Nat} (h : ¬Holds s.ptr x) : s.view x = s.den x :=
  if_neg h

theorem Storage.ptr_size_pos {pg : BPage} {s : PhysAlloc} (h : Storage pg s) : 0 < s.ptr.size := by
  rw [h.size_eq]
  exact tableBytes_pos pg _

theorem Storage.base_le_max {pg : BPage} {s : PhysAlloc} (h : Storage pg s) : baseRbSize ≤ s.max := by
  obtain ⟨k, hk⟩ := h.max_pow
  rw [hk]
  exact Nat.le_mul_of_pos_right _ (Nat.two_pow_pos k)

theorem Storage.of_same {pg : BPage} {s s' : PhysAlloc} (h : Storage pg s) (hsame : SameTable s s') :
    Storage pg s' :=
  ⟨by rw [hsame.max_eq]; exact h.max_pow, by rw [hsame.ptr_eq]; exact h.aligned,
    by rw [hsame.ptr_eq, hsame.max_eq]; exact h.size_eq⟩

theorem TableOk.of_den {pg : BPage} {s s' : PhysAlloc} (h : TableOk pg s) (hsame : SameTable s s')
    (hden : ∀ x, Holds s.ptr x → s'.den x = s.den x) : TableOk pg s' := by
  refine ⟨h.toStorage.of_same hsame, fun x hx => ?_⟩
  rw [hsame.ptr_eq] at hx
  rw [hden x hx, h.used x hx]

/-! ### Compacting -/

/-- The valid entries of the tail move into the kept part, as long as there are slots for them. -/
theorem compact_spec (freed : List RAMBlock) : ∀ kept : List RAMBlock,
    kept.countP RAMBlock.valid + freed.countP RAMBlock.valid ≤ kept.length →
    ∃ kept' rest, compact kept freed = (kept', rest, true) ∧ kept'.length = kept.length ∧
      rest.length = freed.length ∧ (∀ b ∈ rest, b.size = 0) ∧
      (kept'.filter RAMBlock.valid).Perm (kept.filter RAMBlock.valid ++ freed.filter RAMBlock.valid) := by
  induction freed with
  | nil =>
      intro kept _
      exact ⟨kept, [], rfl, rfl, rfl, fun b hb => (by cases hb), by simp⟩
  | cons b freed ih =>
      intro kept hroom
      by_cases hb : b.valid = true
      · rw [List.countP_cons_of_pos hb] at hroom
        have hvacant := @RAMBlock.exists_vacant kept (by omega)
        obtain ⟨c, hc, hswap⟩ := swap_fill (b := b) hvacant
        have hcvalid : c.valid = false := by
          rw [RAMBlock.invalid_eq_not_valid] at hc
          simpa using hc
        have hfill := hswap.filter_of_new hcvalid hb
        have hcount := hfill.length_eq
        rw [List.length_cons, ← List.countP_eq_length_filter, ← List.countP_eq_length_filter] at hcount
        obtain ⟨kept', rest, heq, hlen, hlen', hrest, hperm⟩ := ih _ (by rw [hcount, hswap.length_eq]; omega)
        refine ⟨kept', b.invalidate :: rest, ?_, hlen.trans hswap.length_eq, congrArg (· + 1) hlen',
          List.forall_mem_cons.mpr ⟨rfl, hrest⟩, ?_⟩
        · rw [compact, if_pos hb, if_pos (List.any_eq_true.mpr hvacant), heq]
        · rw [List.filter_cons_of_pos hb]
          exact (hperm.trans (hfill.append_right _)).trans List.perm_middle.symm
      · have hsize : b.size = 0 := by
          rw [RAMBlock.valid_iff] at hb
          omega
        rw [List.countP_cons_of_neg hb] at hroom
        obtain ⟨kept', rest, heq, hlen, hlen', hrest, hperm⟩ := ih kept hroom
        refine ⟨kept', b :: rest, ?_, hlen, congrArg (· + 1) hlen', List.forall_mem_cons.mpr ⟨hsize, hrest⟩, ?_⟩
        · rw [compact, if_neg hb, heq]
        · rwa [List.filter_cons_of_neg hb]

/-- The entries of a table that is cut down move into the kept part and none is lost. -/
theorem compact_blocks {s : PhysAlloc} {newMax : Nat} (hlt : newMax < s.max) (hcount : s.count ≤ newMax) :
    ∃ kept rest, compact (s.blocks.take newMax) (s.blocks.drop newMax).reverse = (kept, rest, true) ∧
      kept.length = newMax ∧ kept.length + rest.length = s.max ∧ (∀ b ∈ rest, b.size = 0) ∧
      (kept.filter RAMBlock.valid : Multiset RAMBlock) = s.valids := by
  have hlen : (s.blocks.take newMax).length = newMax :=
    (List.length_take_of_le (Nat.le_of_lt hlt))
  have hsplit : s.count = (s.blocks.take newMax).countP RAMBlock.valid +
      (s.blocks.drop newMax).reverse.countP RAMBlock.valid := by
    rw [count, List.countP_reverse, ← List.countP_append, List.take_append_drop]
  obtain ⟨kept, rest, hcompact, hkept, hdropped, hrest, hperm⟩ :=
    compact_spec (s.blocks.drop newMax).reverse (s.blocks.take newMax) (by omega)
  refine ⟨kept, rest, hcompact, hkept.trans hlen, ?_, hrest, Multiset.coe_eq_coe.mpr (hperm.trans ?_)⟩
  · rw [hkept, hdropped, List.length_reverse, ← List.length_append, List.take_append_drop, max]
  · rw [← List.filter_append]
    exact (((List.reverse_perm _).append_left _).trans (by rw [List.take_append_drop])).filter _

/-- `shrink` up to its call of `free`: the table, and the memory it is about to give back. -/
def shrinkTo (pg : BPage) (s : PhysAlloc) (newMax : Nat) : Except Halt (PhysAlloc × Option OwnedPtr) :=
  if newMax ≥ s.max || newMax < s.count || newMax < minReq then pure (s, none)
  else
    let (kept, freedRev, done) := compact (s.blocks.take newMax) (s.blocks.drop newMax).reverse
    let s := { s with blocks := kept ++ freedRev.reverse }
    if !done then pure (s, none)
    else
      let keptSize := sizeAlign pg (newMax * ramBlockSize)
      let freedAddr := alignUp (s.ptr.addr + keptSize) pg.size
      let freedSize := s.ptr.size - keptSize
      if s.ptr.size < keptSize then throw .panic
      else if freedSize = 0 then pure (s, none)
      else pure ({ s with ptr := ⟨s.ptr.addr, keptSize⟩, blocks := kept }, some ⟨freedAddr, freedSize⟩)

/-- `shrink` frees what it cuts off. -/
theorem shrink_eq_shrinkTo (pg : BPage) (o : TableOps) (s : PhysAlloc) (newMax : Nat) :
    shrink pg o s newMax = (do
      let (s, freed) ← shrinkTo pg s newMax
      match freed with
      | some p => free o s p
      | none => pure s) := by
  rw [shrink, shrinkTo]
  split
  · rfl
  · generalize compact (s.blocks.take newMax) (s.blocks.drop newMax).reverse = r
    obtain ⟨kept, freedRev, done⟩ := r
    cases done with
    | false => rfl
    | true =>
        simp only [Bool.not_true, Bool.false_eq_true, if_false]
        split
        · rfl
        · split <;> rfl

theorem shrinkTo_of_refused {pg : BPage} {s : PhysAlloc} {newMax : Nat}
    (h : s.max ≤ newMax ∨ newMax < s.count ∨ newMax < minReq) : shrinkTo pg s newMax = .ok (s, none) := by
  rw [shrinkTo, if_pos]
  · rfl
  · simpa [or_assoc] using h

/-- The table keeps its valid blocks, whether it is cut or only put in order. -/
theorem shrinkTo_of_accepted (pg : BPage) {s : PhysAlloc} {newMax : Nat} (hlt : newMax < s.max)
    (hcount : s.count ≤ newMax) (hmin : minReq ≤ newMax) :
    ∃ cut whole : PhysAlloc, cut.valids = s.valids ∧ whole.valids = s.valids ∧
      cut.max = newMax ∧ cut.ptr = ⟨s.ptr.addr, tableBytes pg newMax⟩ ∧ cut.isInit = s.isInit ∧
      SameTable s whole ∧
      shrinkTo pg s newMax = if s.ptr.size < tableBytes pg newMax then .error .panic
        else if s.ptr.size - tableBytes pg newMax = 0 then .ok (whole, none)
        else .ok (cut, some ⟨alignUp (s.ptr.addr + tableBytes pg newMax) pg.size,
          s.ptr.size - tableBytes pg newMax⟩) := by
  obtain ⟨kept, rest, hcompact, hkept, hlen, hrest, hvalids⟩ := compact_blocks hlt hcount
  refine ⟨{ s with ptr := ⟨s.ptr.addr, tableBytes pg newMax⟩, blocks := kept },
    { s with blocks := kept ++ rest.reverse }, hvalids, ?_, hkept, rfl, rfl, ⟨rfl, ?_, rfl⟩, ?_⟩
  · have hvacant : rest.reverse.filter RAMBlock.valid = [] := by
      refine List.filter_eq_nil_iff.mpr fun b hb => ?_
      rw [RAMBlock.valid_iff, hrest b (List.mem_reverse.mp hb)]
      exact lt_irrefl 0
    rw [← hvalids, valids, List.filter_append, hvacant, List.append_nil]
  · rw [← hlen, max, List.length_append, List.length_reverse]
  · rw [shrinkTo, if_neg, hcompact]
    · simp only [Bool.not_true, Bool.false_eq_true, if_false]
      rfl
    · simp only [ge_iff_le, Bool.or_eq_true, decide_eq_true_eq]
      omega

theorem shrink_eq (pg : BPage) {s : PhysAlloc} {newMax : Nat} (hlt : newMax < s.max)
    (hcount : s.count ≤ newMax) (hmin : minReq ≤ newMax)
    (hfreed : s.ptr.size - tableBytes pg newMax ≠ 0) :
    ∃ s₁ : PhysAlloc, s₁.max = newMax ∧ s₁.valids = s.valids ∧
      s₁.ptr = ⟨s.ptr.addr, tableBytes pg newMax⟩ ∧ s₁.isInit = s.isInit ∧
      ∀ o, shrink pg o s newMax = free o s₁
        ⟨alignUp (s.ptr.addr + tableBytes pg newMax) pg.size, s.ptr.size - tableBytes pg newMax⟩ := by
  obtain ⟨s₁, whole, hvalids, -, hmax, hptr, hinit, -, hto⟩ := shrinkTo_of_accepted pg hlt hcount hmin
  refine ⟨s₁, hmax, hvalids, hptr, hinit, fun o => ?_⟩
  rw [shrink_eq_shrinkTo, hto, if_neg (by omega), if_neg hfreed]
  rfl

/-- The table with its last pages given back: what `shrink` leaves behind. -/
structure Shrunk (s s' : PhysAlloc) : Prop where
  view_eq : ∀ x, s'.view x = s.view x
  isInit_eq : s'.isInit = s.isInit
  addr_eq : s'.ptr.addr = s.ptr.addr
  size_le : s'.ptr.size ≤ s.ptr.size

theorem Shrunk.refl (s : PhysAlloc) : Shrunk s s := ⟨fun _ => rfl, rfl, rfl, le_refl _⟩

/-- With 4 KiB pages a sparse table gives its last pages back, and the call ends there: `free` of the
tail needs no slot and has no free neighbour in front, so it neither grows nor shrinks the table. -/
theorem shrink_spec {s : PhysAlloc} (hok : TableOk .size4kiB s) (hsparse : s.count ≤ s.max >>> 2) :
    ∃ s', TableOk .size4kiB s' ∧ Shrunk s s' ∧ s'.count + minReq ≤ s'.max ∧
      ∀ o, shrink .size4kiB o s (Nat.max (s.max >>> 1) baseRbSize) = .ok s' := by
  obtain ⟨k, hk⟩ := hok.max_pow
  have hpow := Nat.two_pow_pos k
  rw [Nat.shiftRight_eq_div_pow] at hsparse
  cases k with
  | zero =>
      have hmax : s.max = 128 := hk
      refine ⟨s, hok, Shrunk.refl s, by simp only [minReq]; omega, fun o => ?_⟩
      rw [shrink, if_pos]
      · rfl
      · rw [hmax]
        simp [baseRbSize]
  | succ k =>
      have hpow' : 1 ≤ 2 ^ k := Nat.one_le_two_pow
      have hdouble : s.max = 2 * (baseRbSize * 2 ^ k) := by
        rw [hk, Nat.pow_succ]
        simp only [baseRbSize]
        omega
      have hnew : Nat.max (s.max >>> 1) baseRbSize = baseRbSize * 2 ^ k := by
        rw [Nat.shiftRight_eq_div_pow, hdouble, Nat.pow_one, Nat.mul_div_cancel_left _ (by decide)]
        exact Nat.max_eq_left (Nat.le_mul_of_pos_right _ hpow')
      have hbytes := tableBytes_lt_succ k
      have hsize : s.ptr.size = tableBytes .size4kiB (baseRbSize * 2 ^ (k + 1)) := by
        rw [hok.size_eq, hk]
      have hbase : 128 ≤ baseRbSize * 2 ^ k := Nat.le_mul_of_pos_right _ hpow'
      obtain ⟨s₁, hmax₁, hvalids₁, hptr₁, hinit₁, hshrink⟩ := shrink_eq .size4kiB
        (by omega : baseRbSize * 2 ^ k < s.max) (by omega) (by simp only [minReq]; omega)
        (by omega)
      have hcount₁ := count_congr hvalids₁
      have hden₁ := den_congr hvalids₁
      have hpage : 4096 ∣ tableBytes .size4kiB (baseRbSize * 2 ^ k) := dvd_tableBytes (base_le_mul_pow k)
      have haligned : alignUp (s.ptr.addr + tableBytes .size4kiB (baseRbSize * 2 ^ k))
          BPage.size4kiB.size = s.ptr.addr + tableBytes .size4kiB (baseRbSize * 2 ^ k) :=
        alignUp_of_dvd (Nat.dvd_add hok.aligned hpage)
      rw [haligned] at hshrink
      have hkept := tableBytes_pos .size4kiB (baseRbSize * 2 ^ k)
      have hused : ∀ x, s.ptr.addr ≤ x → x < s.ptr.addr + s.ptr.size → s₁.den x = {(.conv, true)} :=
        fun x hlo hhi => by rw [hden₁ x, hok.used x ⟨hlo, hhi⟩]
      have hsole : ∀ x, s.ptr.addr ≤ x → x < s.ptr.addr + s.ptr.size → s₁.Sole x :=
        fun x hlo hhi => by rw [Sole, hused x hlo hhi]; exact le_refl 1
      obtain ⟨s₃, ⟨hden₃, hsame₃, hcount₃, -, -⟩, hfree⟩ := @free_eq_add s₁
        ⟨s.ptr.addr + tableBytes .size4kiB (baseRbSize * 2 ^ k),
          s.ptr.size - tableBytes .size4kiB (baseRbSize * 2 ^ k)⟩ (by dsimp only; omega)
        (hsole _ (by dsimp only; omega) (by dsimp only; omega))
        (hsole _ (by simp only [OwnedPtr.fin]; omega) (by simp only [OwnedPtr.fin]; omega)) (by omega)
      -- the kept part in front of the tail is used
      have hnot : ¬s₃.HasBefore ⟨s.ptr.addr + tableBytes .size4kiB (baseRbSize * 2 ^ k),
          s.ptr.size - tableBytes .size4kiB (baseRbSize * 2 ^ k), .conv, false⟩ := by
        intro hbefore
        have hmem := hbefore.mem_den.2
        rw [hden₃, if_neg (by rw [OwnedPtr.holds_iff]; dsimp only; omega),
          hused _ (by dsimp only; omega) (by dsimp only; omega)] at hmem
        simp at hmem
      have hmax₃ := hsame₃.max_eq
      obtain ⟨s', hins, -, hadd⟩ := add_ok (fun _ h => hnot h.1)
        (fits_of_lt (show s₃.count < s₃.max by omega))
      have hcount' := hins.count_le
      have hptr' : s'.ptr = ⟨s.ptr.addr, tableBytes .size4kiB (baseRbSize * 2 ^ k)⟩ := by
        rw [hins.ptr_eq, hsame₃.ptr_eq, hptr₁]
      have hmax' : s'.max = baseRbSize * 2 ^ k := by rw [hins.max_eq, hmax₃, hmax₁]
      have hden' : ∀ x, s'.den x = part (⟨s.ptr.addr + tableBytes .size4kiB (baseRbSize * 2 ^ k),
          s.ptr.size - tableBytes .size4kiB (baseRbSize * 2 ^ k), .conv, false⟩ : RAMBlock) x +
            s₃.den x := hins.den_eq
      refine ⟨s', ⟨⟨⟨k, hmax'⟩, by rw [hptr']; exact hok.aligned, by rw [hptr', hmax']⟩, fun x hx => ?_⟩,
        ⟨fun x => ?_, ?_, by rw [hptr'], by rw [hptr']; dsimp only; omega⟩, ?_, fun o => ?_⟩
      · rw [hptr', OwnedPtr.holds_iff] at hx
        dsimp only at hx
        rw [hden', part_neg (by rw [RAMBlock.holds_iff]; dsimp only; omega), zero_add, hden₃,
          if_neg (by rw [OwnedPtr.holds_iff]; dsimp only; omega), hused x (by omega) (by omega)]
      · by_cases hx : Holds s.ptr x
        · rw [view_of_holds hx]
          rw [OwnedPtr.holds_iff] at hx
          by_cases hx' : Holds s'.ptr x
          · rw [view_of_holds hx']
          · rw [view_of_not_holds hx', hden', hden₃]
            rw [hptr', OwnedPtr.holds_iff] at hx'
            dsimp only at hx'
            rw [part_pos (by rw [RAMBlock.holds_iff]; dsimp only; omega),
              if_pos (by rw [OwnedPtr.holds_iff]; dsimp only; omega)]
            rfl
        · rw [view_of_not_holds hx]
          rw [OwnedPtr.holds_iff] at hx
          rw [view_of_not_holds (by rw [hptr', OwnedPtr.holds_iff]; dsimp only; omega), hden',
            part_neg (by rw [RAMBlock.holds_iff]; dsimp only; omega), zero_add, hden₃,
            if_neg (by rw [OwnedPtr.holds_iff]; dsimp only; omega), hden₁]
      · rw [hins.isInit_eq, hsame₃.isInit_eq, hinit₁]
      · simp only [minReq]
        omega
      · rw [hnew, hshrink o, hfree o, hadd o]

/-! ### Inserting and freeing with vacant slots -/

theorem part_block (addr size : Nat) (ty : RAMType) (used : Bool) (x : Nat) :
    part (⟨addr, size, ty, used⟩ : RAMBlock) x =
      if Holds (⟨addr, size⟩ : OwnedPtr) x then {(ty, used)} else 0 := rfl

theorem Inserted.view_eq {s s' : PhysAlloc} {nb : RAMBlock} (h : Inserted s s' nb)
    (hclear : ∀ x, Holds nb x → ¬Holds s.ptr x) (x : Nat) : s'.view x = part nb x + s.view x := by
  by_cases hx : Holds s.ptr x
  · rw [view_of_holds (by rw [h.ptr_eq]; exact hx), view_of_holds hx,
      part_neg (fun hnb => hclear x hnb hx), zero_add]
  · rw [view_of_not_holds (by rw [h.ptr_eq]; exact hx), view_of_not_holds hx, h.den_eq]

theorem Inserted.tableOk {pg : BPage} {s s' : PhysAlloc} {nb : RAMBlock} (h : Inserted s s' nb)
    (hok : TableOk pg s) (hclear : ∀ x, Holds nb x → ¬Holds s.ptr x) : TableOk pg s' :=
  hok.of_den h.same fun x hx => by rw [h.den_eq, part_neg (fun hnb => hclear x hnb hx), zero_add]

/-- `add` where the block fits: it is inserted, and the table may have been shrunk. -/
theorem add_spec {s : PhysAlloc} {nb : RAMBlock} (hok : TableOk .size4kiB s) (hfits : s.Fits nb)
    (hclear : ∀ x, Holds nb x → ¬Holds s.ptr x) :
    ∃ s', TableOk .size4kiB s' ∧ (∀ x, s'.view x = part nb x + s.view x) ∧ s'.isInit = s.isInit ∧
      s'.ptr.addr = s.ptr.addr ∧ s'.ptr.size ≤ s.ptr.size ∧
      (s'.max = s.max ∧ s'.count ≤ s.count + 1 ∨ s'.count + minReq ≤ s'.max) ∧
      ∀ o o', o.shrink = shrink .size4kiB o' → add o s nb = .ok s' := by
  by_cases hboth : 0 < nb.size ∧ s.HasBefore nb ∧ s.HasAfter nb
  · obtain ⟨s₁, hins, hcount, hadd⟩ := add_of_both hboth.1 hboth.2.1 hboth.2.2
    have hok₁ := hins.tableOk hok hclear
    by_cases hsparse : s₁.count ≤ s₁.max >>> 2
    · obtain ⟨s', hok', hshrunk, hroom', heq⟩ := shrink_spec hok₁ hsparse
      refine ⟨s', hok', fun x => ?_, ?_, ?_, ?_, Or.inr hroom', fun o o' ho => ?_⟩
      · rw [hshrunk.view_eq, hins.view_eq hclear]
      · rw [hshrunk.isInit_eq, hins.isInit_eq]
      · rw [hshrunk.addr_eq, hins.ptr_eq]
      · rw [← hins.ptr_eq]
        exact hshrunk.size_le
      · rw [hadd o, if_pos hsparse, ho, heq o']
    · refine ⟨s₁, hok₁, hins.view_eq hclear, hins.isInit_eq, by rw [hins.ptr_eq], by rw [hins.ptr_eq],
        Or.inl ⟨hins.max_eq, hins.count_le⟩, fun o o' _ => ?_⟩
      rw [hadd o, if_neg hsparse]
  · rcases Nat.eq_zero_or_pos nb.size with hzero | hpos
    · refine ⟨s, hok, fun x => ?_, rfl, rfl, le_refl _, Or.inl ⟨rfl, by omega⟩,
        fun o _ _ => add_of_size_eq_zero o hzero⟩
      rw [RAMBlock.part_of_size_eq_zero hzero, zero_add]
    · obtain ⟨s', hins, -, hadd⟩ := add_ok (fun _ h => hboth ⟨hpos, h⟩) hfits
      exact ⟨s', hins.tableOk hok hclear, hins.view_eq hclear, hins.isInit_eq, by rw [hins.ptr_eq],
        by rw [hins.ptr_eq], Or.inl ⟨hins.max_eq, hins.count_le⟩, fun o _ _ => hadd o⟩

theorem view_eq_of_cleared {s s₃ : PhysAlloc} {ptr : OwnedPtr}
    (hden : ∀ x, s₃.den x = if Holds ptr x then 0 else s.den x) (hsame : SameTable s s₃)
    (hapart : ∀ x, Holds ptr x → ¬Holds s.ptr x) (x : Nat) :
    s₃.view x = if Holds ptr x then 0 else s.view x := by
  by_cases hx : Holds ptr x
  · rw [if_pos hx, view_of_not_holds (by rw [hsame.ptr_eq]; exact hapart x hx), hden, if_pos hx]
  · rw [if_neg hx]
    by_cases hxt : Holds s.ptr x
    · rw [view_of_holds hxt, view_of_holds (by rw [hsame.ptr_eq]; exact hxt)]
    · rw [view_of_not_holds hxt, view_of_not_holds (by rw [hsame.ptr_eq]; exact hxt), hden, if_neg hx]

theorem view_eq_of_replaced {s s₃ s' : PhysAlloc} {ptr : OwnedPtr} {ty : RAMType} {used : Bool}
    (hcleared : ∀ x, s₃.view x = if Holds ptr x then 0 else s.view x)
    (hview : ∀ x, s'.view x = part (⟨ptr.addr, ptr.size, ty, used⟩ : RAMBlock) x + s₃.view x) (x : Nat) :
    s'.view x = if Holds ptr x then {(ty, used)} else s.view x := by
  rw [hview, hcleared, part_block]
  by_cases hx : Holds ptr x
  · rw [if_pos hx, if_pos hx, if_pos (show Holds (⟨ptr.addr, ptr.size⟩ : OwnedPtr) x from hx), add_zero]
  · rw [if_neg hx, if_neg hx, if_neg (show ¬Holds (⟨ptr.addr, ptr.size⟩ : OwnedPtr) x from hx), zero_add]

/-- `free` with two vacant slots: the range becomes free memory and nothing else changes. -/
theorem free_spec {s : PhysAlloc} {ptr : OwnedPtr} (hok : TableOk .size4kiB s) (hptr : 0 < ptr.size)
    (hapart : ∀ x, Holds ptr x → ¬Holds s.ptr x) (hfirst : s.Sole ptr.addr)
    (hlast : s.Sole (ptr.fin - 1)) (hroom : s.count + 2 ≤ s.max) :
    ∃ s', TableOk .size4kiB s' ∧
      (∀ x, s'.view x = if Holds ptr x then {(.conv, false)} else s.view x) ∧
      s'.isInit = s.isInit ∧ s'.ptr.addr = s.ptr.addr ∧ s'.ptr.size ≤ s.ptr.size ∧
      (s'.max = s.max ∧ s'.count ≤ s.count + 2 ∨ s'.count + minReq ≤ s'.max) ∧
      ∀ o o', o.shrink = shrink .size4kiB o' → free o s ptr = .ok s' := by
  obtain ⟨s₃, ⟨hden₃, hsame₃, hcount₃, -, -⟩, hfree⟩ := free_eq_add hptr hfirst hlast (by omega)
  have hok₃ : TableOk .size4kiB s₃ := hok.of_den hsame₃ fun x hx => by
    rw [hden₃, if_neg (fun h => hapart x h hx)]
  have hmax₃ := hsame₃.max_eq
  obtain ⟨s', hok', hview, hinit, haddr, hsize, hcount', hadd⟩ := @add_spec s₃
    ⟨ptr.addr, ptr.size, .conv, false⟩ hok₃ (fits_of_lt (by omega))
    (fun x hx => by rw [hsame₃.ptr_eq]; exact hapart x hx)
  refine ⟨s', hok', view_eq_of_replaced (view_eq_of_cleared hden₃ hsame₃ hapart) hview, hinit.trans hsame₃.isInit_eq,
    by rw [haddr, hsame₃.ptr_eq], by rw [← hsame₃.ptr_eq]; exact hsize, ?_, fun o o' ho => ?_⟩
  · rcases hcount' with ⟨hm, hc⟩ | hc
    · exact Or.inl ⟨hm.trans hmax₃, by omega⟩
    · exact Or.inr hc
  · rw [hfree o, hadd o o' ho]

end PhysAlloc
end UnixKernel
