import UnixKernel.PhysBlocks

/-! Memory that the allocator leaves alone. A seal says which types of blocks there may be on an address; memory on
which there may be anything but free memory is never handed out and never freed, whatever the allocator does: growing
and shrinking the table, splitting and joining blocks all keep the seal, as long as the table's own storage lies
elsewhere. The seal also says what the storage has to be like. Only `init` replaces it behind the back of these
operations, and the table has at most doubled by then (`Roomy`). -/

namespace UnixKernel

open Slots Segments

namespace PhysAlloc

/-- What is to hold of a table: `may x ty` allows blocks of type `ty` on the address `x`, and where it allows memory
that can be handed out it allows everything; `shape` is about the storage and the number of entries. A table in less
than a page has not been grown, and one that can be shrunk starts at a page. Any storage will do that starts at a page,
may hold anything and is large enough for the half of the table that is kept when it is shrunk. -/
structure Seal where
  may : Nat → RAMType → Prop
  shape : OwnedPtr → Nat → Prop
  may_of_ram : ∀ {x ty}, may x ty → ty ≠ .reserved → ∀ ty', may x ty'
  base_le : ∀ {q n}, shape q n → baseRbSize ≤ n
  le_base : ∀ {q n}, shape q n → q.size < 4096 → n ≤ baseRbSize
  aligned : ∀ {q n}, shape q n → baseRbSize < n → 4096 ∣ q.addr
  shape_of_table : ∀ {q n}, baseRbSize ≤ n → 4096 ∣ q.addr →
    tableBytes .size4kiB (Nat.max (n >>> 1) baseRbSize) ≤ q.size → (∀ x, Holds q x → ∀ ty, may x ty) → shape q n

variable {σ : Seal} {pg : BPage} {o : TableOps} {s s' : PhysAlloc} {nb : RAMBlock} {k : Nat}

/-- The range may hold blocks of any type. -/
def Seal.Open (σ : Seal) (q : OwnedPtr) : Prop := ∀ x, Holds q x → ∀ ty, σ.may x ty

/-- The block is where its type may be. -/
def Seal.Allows (σ : Seal) (b : RAMBlock) : Prop := ∀ x, Holds b x → σ.may x b.ty

/-- The blocks are where their types may be, and the table's storage is where anything may be. -/
structure Sealed (σ : Seal) (s : PhysAlloc) : Prop where
  within : ∀ x, ∀ t ∈ s.den x, σ.may x t.1
  storage : σ.Open s.ptr
  shape : σ.shape s.ptr s.max

/-- The two operations under which the table reenters itself keep the seal. -/
structure Keeps (σ : Seal) (o : TableOps) : Prop where
  expand : ∀ {s s' : PhysAlloc} {p : OwnedPtr} {r : Option Unit}, Sealed σ s → s.max < s.count + minReq →
    o.expand s s.grownMax p = .ok (r, s') → Sealed σ s'
  shrink : ∀ {s s' : PhysAlloc}, Sealed σ s → o.shrink s (Nat.max (s.max >>> 1) baseRbSize) = .ok s' → Sealed σ s'

theorem Seal.Allows.of_sub {b c : RAMBlock} (h : σ.Allows b) (hty : c.ty = b.ty) (hsub : ∀ x, Holds c x → Holds b x) :
    σ.Allows c := by
  intro x hx
  rw [hty]
  exact h x (hsub x hx)

theorem Seal.Allows.isOpen {b : RAMBlock} (h : σ.Allows b) (hty : b.ty ≠ .reserved) {q : OwnedPtr}
    (hlo : b.addr ≤ q.addr) (hhi : q.fin ≤ b.fin) : σ.Open q := by
  intro x hq
  refine σ.may_of_ram (h x (RAMBlock.holds_iff.mpr ?_)) hty
  rw [OwnedPtr.holds_iff] at hq
  simp only [OwnedPtr.fin, RAMBlock.fin] at hhi
  omega

theorem Seal.Open.allows {q : OwnedPtr} (h : σ.Open q) (ty : RAMType) (used : Bool) :
    σ.Allows ⟨q.addr, q.size, ty, used⟩ := fun x hx => h x hx ty

theorem Seal.Open.of_sub {p q : OwnedPtr} (h : σ.Open q) (hlo : q.addr ≤ p.addr) (hhi : p.fin ≤ q.fin) : σ.Open p := by
  intro x hx
  refine h x (OwnedPtr.holds_iff.mpr ?_)
  rw [OwnedPtr.holds_iff] at hx
  simp only [OwnedPtr.fin] at hhi
  omega

theorem Sealed.allows (h : Sealed σ s) {b : RAMBlock} (hb : b ∈ s.blocks) : σ.Allows b :=
  fun x hx => h.within x _ (tag_mem_den (Multiset.mem_coe.mpr hb) hx)

theorem Sealed.of_den (h : Sealed σ s) (hsame : SameTable s s') (hden : ∀ x, ∀ t ∈ s'.den x, t ∈ s.den x) :
    Sealed σ s' := by
  refine ⟨fun x t ht => h.within x t (hden x t ht), ?_, ?_⟩
  · rw [hsame.ptr_eq]
    exact h.storage
  · rw [hsame.max_eq, hsame.ptr_eq]
    exact h.shape

theorem Sealed.invalidate (h : Sealed σ s) {i : Nat} {b : RAMBlock} (hget : s.blocks[i]? = some b) :
    Sealed σ (s.setSlot i b.invalidate) := by
  refine h.of_den (sameTable_setSlot s i _) fun x t ht => ?_
  have hden := setSlot_den hget b.invalidate x
  rw [RAMBlock.part_invalidate, add_zero] at hden
  rw [← hden]
  exact Multiset.mem_add.mpr (Or.inl ht)

theorem Sealed.inserted (h : Sealed σ s) (hnb : σ.Allows nb) (hins : Inserted s s' nb) : Sealed σ s' := by
  refine ⟨fun x t ht => ?_, ?_, ?_⟩
  · rw [hins.den_eq, Multiset.mem_add] at ht
    rcases ht with hpart | hold
    · by_cases hbx : Holds nb x
      · rw [part_pos hbx, Multiset.mem_singleton] at hpart
        rw [hpart]
        exact hnb x hbx
      · rw [part_neg hbx] at hpart
        cases hpart
    · exact h.within x t hold
  · rw [hins.ptr_eq]
    exact h.storage
  · rw [hins.max_eq, hins.ptr_eq]
    exact h.shape

theorem Sealed.fill (h : Sealed σ s) (hnb : σ.Allows nb) :
    Sealed σ { s with blocks := fill RAMBlock.invalid nb s.blocks } := by
  refine ⟨fun x t ht => ?_, h.storage, ?_⟩
  · obtain ⟨b, hb, hbx, rfl⟩ := mem_den.mp ht
    rcases mem_of_mem_fill (Multiset.mem_coe.mp hb) with rfl | hold
    · exact hnb x hbx
    · exact h.allows hold x hbx
  · have hmax : ({ s with blocks := Slots.fill RAMBlock.invalid nb s.blocks } : PhysAlloc).max = s.max :=
      length_fill _ _ _
    rw [hmax]
    exact h.shape

/-- The table moves to storage that starts at a page and is large enough for half of it. -/
theorem Sealed.moved (h : Sealed σ s) {q : OwnedPtr} (hq : σ.Open q) (haligned : 4096 ∣ q.addr)
    (hsize : tableBytes .size4kiB (Nat.max (s.max >>> 1) baseRbSize) ≤ q.size) : Sealed σ { s with ptr := q } :=
  ⟨h.within, hq, σ.shape_of_table (σ.base_le h.shape) haligned hsize hq⟩

/-! ### The operations -/

theorem Sealed.add (h : Sealed σ s) (ho : Keeps σ o) (hnb : σ.Allows nb) (hadd : add o s nb = .ok s') :
    Sealed σ s' := by
  rcases Nat.eq_zero_or_pos nb.size with hzero | hpos
  · rw [add_of_size_eq_zero o hzero] at hadd
    cases hadd
    exact h
  by_cases hboth : s.HasBefore nb ∧ s.HasAfter nb
  · obtain ⟨s₁, hins, -, hrun⟩ := add_of_both hpos hboth.1 hboth.2
    have h₁ := h.inserted hnb hins
    rw [hrun o] at hadd
    split_ifs at hadd
    · exact ho.shrink h₁ hadd
    · cases hadd
      exact h₁
  by_cases hfits : s.Fits nb
  · obtain ⟨s₁, hins, -, hrun⟩ := add_ok (fun _ => hboth) hfits
    rw [hrun o] at hadd
    cases hadd
    exact h.inserted hnb hins
  · obtain ⟨-, hbefore, hafter, hfull⟩ := not_fits hfits
    rw [add_of_none_full o hpos hbefore hafter hfull] at hadd
    obtain ⟨⟨r, s₁⟩, hexpand, hadd⟩ := bind_eq_ok.mp hadd
    have h₁ := ho.expand h (Nat.lt_of_le_of_lt hfull (Nat.lt_add_of_pos_right (by decide))) hexpand
    cases r with
    | none => cases hadd
    | some =>
        cases hadd
        exact h₁.fill hnb

theorem Sealed.carve (h : Sealed σ s) (ho : Keeps σ o) {args : AllocParams} {ptr : OwnedPtr}
    {r : Option OwnedPtr} (hty : args.fromType ≠ .reserved) (hrun : carve o s args ptr = .ok (r, s')) :
    Sealed σ s' ∧ ∀ q, r = some q → q = ptr ∧ σ.Open q := by
  rcases carve_eq_ok hrun with
    ⟨rfl, rfl⟩ | ⟨i, block, s₁, s₂, hget, -, -, hfrom, hlo, hhi, hbefore, hafter, hnew, rfl⟩
  · exact ⟨h, fun q hq => (by cases hq)⟩
  have hblock := h.allows (List.mem_of_getElem? hget)
  have hopen : σ.Open ptr := hblock.isOpen (hfrom ▸ hty) hlo hhi
  have h₀ := h.invalidate hget
  simp only [OwnedPtr.fin, RAMBlock.fin] at hhi
  have h₁ : Sealed σ s₁ := by
    refine h₀.add ho (hblock.of_sub ?_ fun x hx => ?_) hbefore
    · rfl
    · rw [RAMBlock.holds_iff] at hx ⊢
      dsimp only at hx
      omega
  have h₂ : Sealed σ s₂ := by
    refine h₁.add ho (hblock.of_sub ?_ fun x hx => ?_) hafter
    · rfl
    · rw [RAMBlock.holds_iff] at hx ⊢
      simp only [OwnedPtr.fin, RAMBlock.fin] at hx
      omega
  exact ⟨h₂.add ho (hopen.allows _ _) hnew, fun q hq => (by cases hq; exact ⟨rfl, hopen⟩)⟩

theorem fromType_ne_reserved {args : AllocParams} (h : nonRam.contains args.fromType = false) :
    args.fromType ≠ .reserved := by
  intro hres
  rw [hres] at h
  cases h

/-- What `alloc` hands out may hold anything, and is of the size and alignment asked for. -/
theorem Sealed.alloc (h : Sealed σ s) (ho : Keeps σ o) {args : AllocParams} {r : Option OwnedPtr}
    (hrun : alloc pg o s args = .ok (r, s')) :
    Sealed σ s' ∧ ∀ q, r = some q → σ.Open q ∧ q.size = sizeAlign pg args.size ∧ args.align ∣ q.addr := by
  rcases alloc_eq_ok hrun with ⟨rfl, rfl⟩ | ⟨hram, ptr, hreq, hrun⟩
  · exact ⟨h, fun q hq => (by cases hq)⟩
  have hcarve : ∀ {s₁}, Sealed σ s₁ → PhysAlloc.carve o s₁ (args.build pg) ptr = .ok (r, s') →
      Sealed σ s' ∧ ∀ q, r = some q → σ.Open q ∧ q.size = sizeAlign pg args.size ∧ args.align ∣ q.addr := by
    intro s₁ h₁ hrun
    obtain ⟨h', hq⟩ := h₁.carve ho (fromType_ne_reserved hram.1) hrun
    refine ⟨h', fun q hr => ?_⟩
    obtain ⟨rfl, hopen⟩ := hq q hr
    exact ⟨hopen, requested_size hreq, requested_aligned hreq⟩
  rcases hrun with ⟨-, hrun⟩ | ⟨hfull, ⟨rfl, hexpand⟩ | ⟨s₁, hexpand, hrun⟩⟩
  · exact hcarve h hrun
  · exact ⟨ho.expand h hfull hexpand, fun q hq => (by cases hq)⟩
  · exact hcarve (ho.expand h hfull hexpand) hrun

theorem Sealed.addSome (h : Sealed σ s) (ho : Keeps σ o) {b : Option RAMBlock} (hb : ∀ c ∈ b, σ.Allows c)
    (hrun : addSome o s b = .ok s') : Sealed σ s' := by
  cases b with
  | none =>
      cases hrun
      exact h
  | some b => exact h.add ho (hb b rfl) hrun

theorem mem_den_clearRange {p : OwnedPtr} {x : Nat} {t : Tag} (h : t ∈ (s.clearRange p).den x) :
    t ∈ s.den x := by
  rw [clearRange_den] at h
  obtain ⟨c, hc, hx, rfl⟩ := mem_den.mp h
  obtain ⟨b, hb, rfl⟩ := Multiset.mem_map.mp hc
  by_cases hover : overlaps p b = true
  · exact absurd hx (part_eq_zero_iff.mp (part_cleared hover x))
  · rw [cleared, if_neg hover] at hx ⊢
    exact tag_mem_den hb hx

theorem Sealed.clearRange (h : Sealed σ s) (p : OwnedPtr) : Sealed σ (s.clearRange p) :=
  h.of_den (sameTable_clearRange s p) fun _ _ => mem_den_clearRange

theorem Sealed.allows_before (h : Sealed σ s) {p : OwnedPtr} {c : RAMBlock}
    (hc : c ∈ (last? (fun b => overlaps p b && b.addr < p.addr) s.blocks).map fun b =>
      (⟨b.2.addr, p.addr - b.2.addr, b.2.ty, b.2.used⟩ : RAMBlock)) : σ.Allows c := by
  obtain ⟨⟨i, b⟩, hlast, rfl⟩ := Option.map_eq_some_iff.mp hc
  obtain ⟨hget, hb⟩ := last?_eq_some hlast
  rw [Bool.and_eq_true, overlaps_iff, decide_eq_true_eq] at hb
  refine (h.allows (List.mem_of_getElem? hget)).of_sub rfl fun x hx => ?_
  rw [RAMBlock.holds_iff] at hx ⊢
  simp only [RAMBlock.fin] at hb hx
  omega

theorem Sealed.allows_after (h : Sealed σ s) {p : OwnedPtr} {c : RAMBlock}
    (hc : c ∈ (last? (fun b => overlaps p b && p.fin < b.fin) s.blocks).map fun b =>
      (⟨p.fin, b.2.fin - p.fin, b.2.ty, b.2.used⟩ : RAMBlock)) : σ.Allows c := by
  obtain ⟨⟨i, b⟩, hlast, rfl⟩ := Option.map_eq_some_iff.mp hc
  obtain ⟨hget, hb⟩ := last?_eq_some hlast
  rw [Bool.and_eq_true, overlaps_iff, decide_eq_true_eq] at hb
  refine (h.allows (List.mem_of_getElem? hget)).of_sub rfl fun x hx => ?_
  rw [RAMBlock.holds_iff] at hx ⊢
  simp only [RAMBlock.fin, OwnedPtr.fin] at hb hx
  omega

theorem Sealed.free (h : Sealed σ s) (ho : Keeps σ o) {p : OwnedPtr} (hp : σ.Open p) (hrun : free o s p = .ok s') :
    Sealed σ s' := by
  obtain ⟨s₁, hbefore, hrun⟩ := bind_eq_ok.mp hrun
  obtain ⟨s₂, hafter, hrun⟩ := bind_eq_ok.mp hrun
  have h₁ : Sealed σ s₁ := (h.clearRange p).addSome ho (fun c => h.allows_before) hbefore
  have h₂ : Sealed σ s₂ := h₁.addSome ho (fun c => h.allows_after) hafter
  exact h₂.add ho (hp.allows _ _) hrun

/-! ### Growing and shrinking -/

theorem invalidate_count {i : Nat} {b : RAMBlock} (hget : s.blocks[i]? = some b) (hsize : 0 < b.size) :
    (s.setSlot i b.invalidate).count + 1 = s.count := by
  have hcount := setSlot_count hget b.invalidate
  rw [RAMBlock.valid_iff.mpr hsize] at hcount
  simpa [RAMBlock.valid, RAMBlock.invalidate] using hcount

/-- In a table of which a good part is used, a range is taken out without growing or shrinking the table. -/
theorem carve_dense {args : AllocParams} {ptr : OwnedPtr} {r : Option OwnedPtr} (hroom : s.count + minReq ≤ s.max)
    (hdense : (s.max >>> 2) + 4 < s.count) (hrun : carve o s args ptr = .ok (r, s')) :
    SameTable s s' ∧ s'.count ≤ s.count + 2 := by
  have hmin : minReq = 4 := rfl
  rcases carve_eq_ok hrun with ⟨-, rfl⟩ | ⟨i, block, s₁, s₂, hget, hsize, -, -, -, -, hadd₁, hadd₂, hadd₃, -⟩
  · exact ⟨⟨rfl, rfl, rfl⟩, Nat.le_add_right _ _⟩
  -- every one of the three calls of `add` finds the table dense and with a vacant slot
  have hstep : ∀ {t t' : PhysAlloc} {nb : RAMBlock}, t.max = s.max → t.count < s.max → (s.max >>> 2) + 1 < t.count →
      PhysAlloc.add o t nb = .ok t' → Inserted t t' nb := by
    intro t t' nb hmax hlt hgt hadd
    obtain ⟨t₁, hins, hreal⟩ := add_dense nb (by rwa [hmax]) (by rwa [hmax])
    rw [hreal o] at hadd
    cases hadd
    exact hins
  have hcount := invalidate_count hget hsize
  have hsame := sameTable_setSlot s i block.invalidate
  have hins₁ := hstep hsame.max_eq (by omega) (by omega) hadd₁
  have hsame₁ := hsame.trans hins₁.same
  have hup₁ := hins₁.count_le
  have hlow₁ := hins₁.le_count
  have hins₂ := hstep hsame₁.max_eq (by omega) (by omega) hadd₂
  have hsame₂ := hsame₁.trans hins₂.same
  have hup₂ := hins₂.count_le
  have hlow₂ := hins₂.le_count
  have hins₃ := hstep hsame₂.max_eq (by omega) (by omega) hadd₃
  have hup₃ := hins₃.count_le
  exact ⟨hsame₂.trans hins₃.same, by omega⟩

/-- The allocation inside `expand` leaves the size of the table alone. -/
theorem alloc_extended (hbase : baseRbSize ≤ s.max) (hfull : s.max < s.count + minReq) {p q ptr : OwnedPtr}
    {s₃ : PhysAlloc} (hpick : s.pick pg s.grownMax p = some q)
    (halloc : alloc pg o (s.extended q s.grownMax) ((tableParams pg s.grownMax).atAddr q.addr) = .ok (some ptr, s₃)) :
    s₃.max = 2 * s.max ∧ s₃.count ≤ s.max + 2 := by
  have hbase' : 128 ≤ s.max := hbase
  have hmin : minReq = 4 := rfl
  have hcount := s.count_le_max
  have hgrown : s.grownMax = 2 * s.max := grownMax_eq (le_trans (by decide) hbase)
  have hext := extended_max q (by omega : s.max ≤ s.grownMax)
  have hsame := extended_count s q s.grownMax
  have hrequest : (s.extended q s.grownMax).requested pg (((tableParams pg s.grownMax).atAddr q.addr).build pg) =
      some ⟨q.addr, tableBytes pg s.grownMax⟩ := by
    rw [build_tableParams _ (pick_spec hpick).1]
    rfl
  have hdense : ((s.extended q s.grownMax).max >>> 2) + 4 < (s.extended q s.grownMax).count := by
    rw [hext, hsame, hgrown, Nat.shiftRight_eq_div_pow]
    omega
  rw [alloc_of_requested pg o ⟨rfl, rfl⟩ hrequest, if_neg (by omega)] at halloc
  obtain ⟨hsame₃, hcount₃⟩ := carve_dense (by omega) hdense halloc
  have hmax₃ := hsame₃.max_eq
  omega

/-- `expand` finds no room, or moves the table and frees the old storage. -/
theorem expand_cases (hbase : baseRbSize ≤ s.max) {p : OwnedPtr} {r : Option Unit}
    (hrun : expand pg o s s.grownMax p = .ok (r, s')) :
    r = none ∧ s' = s ∨ ∃ q ptr s₃, s.pick pg s.grownMax p = some q ∧
      alloc pg o (s.extended q s.grownMax) ((tableParams pg s.grownMax).atAddr q.addr) = .ok (some ptr, s₃) ∧
      free o { s₃ with ptr := ptr } s.ptr = .ok s' := by
  have hbase' : 128 ≤ s.max := hbase
  have hlt : s.max < s.grownMax := by
    rw [grownMax_eq (le_trans (by decide) hbase)]
    omega
  cases hpick : s.pick pg s.grownMax p with
  | none =>
      rw [expand_of_pick_none pg o hlt hpick] at hrun
      cases hrun
      exact Or.inl ⟨rfl, rfl⟩
  | some q =>
      rw [expand_of_pick_some pg o hlt hpick] at hrun
      obtain ⟨⟨r', s₃⟩, halloc, hrun⟩ := bind_eq_ok.mp hrun
      cases r' with
      | none => cases hrun
      | some ptr =>
          obtain ⟨s₄, hfree, hrun⟩ := bind_eq_ok.mp hrun
          cases hrun
          exact Or.inr ⟨q, ptr, s₃, rfl, halloc, hfree⟩

theorem page_le_tableBytes {n : Nat} (h : baseRbSize ≤ n) : 4096 ≤ tableBytes pg n :=
  Nat.le_of_dvd (tableBytes_pos pg n) (dvd_tableBytes h)

theorem tableBytes_half_le {n : Nat} (h : baseRbSize ≤ n) :
    tableBytes .size4kiB (Nat.max (n >>> 1) baseRbSize) ≤ tableBytes pg n := by
  have hle : Nat.max (n >>> 1) baseRbSize ≤ n := by
    refine Nat.max_le.mpr ⟨?_, h⟩
    rw [Nat.shiftRight_eq_div_pow]
    exact Nat.div_le_self _ _
  have hbytes : 3072 ≤ Nat.max (n >>> 1) baseRbSize * ramBlockSize :=
    Nat.mul_le_mul_right ramBlockSize (Nat.le_max_right (n >>> 1) baseRbSize)
  rw [tableBytes, sizeAlign_of_half .size4kiB (by rw [BPage.size_size4kiB]; omega)]
  exact alignUp_le_of_dvd (by decide) (dvd_tableBytes h)
    ((Nat.mul_le_mul_right _ hle).trans (le_sizeAlign pg _))

section Grown

variable (hwithin : ∀ x, ∀ t ∈ s.den x, σ.may x t.1) (hbase : baseRbSize ≤ s.max) {p q : OwnedPtr}
  (hpick : s.pick pg s.grownMax p = some q)

include hwithin hbase hpick

/-- The table in the storage that `expand` has found for it. The old storage may be anything. -/
theorem sealed_extended : Sealed σ (s.extended q s.grownMax) := by
  have hgrown : s.grownMax = 2 * s.max := grownMax_eq (le_trans (by decide) hbase)
  obtain ⟨haligned, hsize, ⟨block, hblock, htag, hlo, hhi⟩, -⟩ := pick_spec hpick
  have hty : block.ty ≠ .reserved := by
    rw [(Prod.mk.inj htag).1]
    exact RAMType.noConfusion
  have hallows : σ.Allows block := fun x hx => hwithin x _ (tag_mem_den (Multiset.mem_coe.mpr hblock) hx)
  have hopen : σ.Open q := hallows.isOpen hty hlo hhi
  refine ⟨fun x t ht => hwithin x t (by rwa [extended_den] at ht), hopen, ?_⟩
  rw [extended_max q (by omega)]
  have hbase₂ : baseRbSize ≤ s.grownMax := by omega
  exact σ.shape_of_table hbase₂ ((page_dvd_size pg).trans haligned) ((tableBytes_half_le hbase₂).trans hsize.ge) hopen

/-- The table after its storage has been cut out of free memory. -/
theorem sealed_relocated (ho : Keeps σ o) (hfull : s.max < s.count + minReq) {ptr : OwnedPtr} {s₃ : PhysAlloc}
    (halloc : alloc pg o (s.extended q s.grownMax) ((tableParams pg s.grownMax).atAddr q.addr) = .ok (some ptr, s₃)) :
    Sealed σ { s₃ with ptr := ptr } := by
  have hgrown : s.grownMax = 2 * s.max := grownMax_eq (le_trans (by decide) hbase)
  obtain ⟨h₃, hptr⟩ := (sealed_extended hwithin hbase hpick).alloc ho halloc
  obtain ⟨hopen, hsize, haligned⟩ := hptr ptr rfl
  have hptr : ptr.size = tableBytes pg s₃.max := by
    rw [hsize, (alloc_extended hbase hfull hpick halloc).1, ← hgrown]
    exact sizeAlign_idem _ _
  exact h₃.moved hopen ((page_dvd_size pg).trans haligned) (by rw [hptr]; exact tableBytes_half_le (σ.base_le h₃.shape))

end Grown

theorem Sealed.expand (h : Sealed σ s) (ho : Keeps σ o) (hfull : s.max < s.count + minReq) {p : OwnedPtr}
    {r : Option Unit} (hrun : expand pg o s s.grownMax p = .ok (r, s')) : Sealed σ s' := by
  rcases expand_cases (σ.base_le h.shape) hrun with ⟨-, rfl⟩ | ⟨q, ptr, s₃, hpick, halloc, hfree⟩
  · exact h
  · exact (sealed_relocated h.within (σ.base_le h.shape) hpick ho hfull halloc).free ho h.storage hfree

/-- The pages that `shrink` gives back are its own. -/
theorem Sealed.shrinkTo (h : Sealed σ s) {freed : Option OwnedPtr}
    (hrun : shrinkTo .size4kiB s (Nat.max (s.max >>> 1) baseRbSize) = .ok (s', freed)) :
    Sealed σ s' ∧ ∀ q ∈ freed, 0 < q.size ∧ σ.Open q := by
  set newMax := Nat.max (s.max >>> 1) baseRbSize with hnew
  have hbase : baseRbSize ≤ newMax := Nat.le_max_right _ _
  by_cases hskip : s.max ≤ newMax ∨ newMax < s.count ∨ newMax < minReq
  · rw [shrinkTo_of_refused hskip] at hrun
    cases hrun
    exact ⟨h, fun q hq => (by cases hq)⟩
  simp only [not_or, not_le, not_lt] at hskip
  obtain ⟨cut, whole, hcut, hwhole, hmax, hptr, -, hsame, hto⟩ :=
    shrinkTo_of_accepted .size4kiB hskip.1 hskip.2.1 hskip.2.2
  have haligned : 4096 ∣ s.ptr.addr := σ.aligned h.shape (by omega)
  have hup : alignUp (s.ptr.addr + tableBytes .size4kiB newMax) BPage.size4kiB.size =
      s.ptr.addr + tableBytes .size4kiB newMax :=
    alignUp_of_dvd (Nat.dvd_add haligned (dvd_tableBytes hbase))
  rw [hto, hup] at hrun
  split_ifs at hrun with hshort hnothing
  · cases hrun
    exact ⟨h.of_den hsame fun x t ht => (den_congr hwhole x) ▸ ht, fun q hq => (by cases hq)⟩
  · cases hrun
    have hopen : σ.Open s'.ptr := by
      rw [hptr]
      exact h.storage.of_sub (le_refl _) (by simp only [OwnedPtr.fin]; omega)
    refine ⟨⟨fun x t ht => h.within x t ((den_congr hcut x) ▸ ht), hopen, ?_⟩, fun q hq => ?_⟩
    · rw [hmax]
      exact σ.shape_of_table hbase (by rw [hptr]; exact haligned) (by rw [hptr]; exact tableBytes_half_le hbase) hopen
    · cases hq
      exact ⟨Nat.pos_of_ne_zero hnothing, h.storage.of_sub (by simp only; omega) (by simp only [OwnedPtr.fin]; omega)⟩

theorem Sealed.shrink (h : Sealed σ s) (ho : Keeps σ o)
    (hrun : shrink .size4kiB o s (Nat.max (s.max >>> 1) baseRbSize) = .ok s') : Sealed σ s' := by
  rw [shrink_eq_shrinkTo] at hrun
  obtain ⟨⟨s₁, freed⟩, hto, hrun⟩ := bind_eq_ok.mp hrun
  obtain ⟨h₁, hopen⟩ := h.shrinkTo hto
  cases freed with
  | none =>
      cases hrun
      exact h₁
  | some q => exact h₁.free ho (hopen q rfl).2 hrun

theorem keeps_tableOps (σ : Seal) (depth : Nat) : Keeps σ (tableOps .size4kiB depth) := by
  induction depth with
  | zero => exact ⟨fun _ _ h => (by cases h), fun _ h => (by cases h)⟩
  | succ depth ih => exact ⟨fun h hfull hrun => h.expand ih hfull hrun, fun h hrun => h.shrink ih hrun⟩

theorem keeps_still (σ : Seal) : Keeps σ still := by
  refine ⟨fun _ _ h => (by cases h), fun h hrun => ?_⟩
  cases hrun
  exact h

/-! ### A table that has doubled at most -/

/-- A table of the embedded size, or of up to twice that, with at least `k` vacant slots. -/
structure Roomy (k : Nat) (s : PhysAlloc) : Prop where
  base : baseRbSize ≤ s.max
  doubled : s.max ≤ 2 * baseRbSize
  vacant : s.count + k ≤ s.max

/-- What such a table turns into: it is not shrunk below the embedded size, and one that is shrunk, or a full one that
is grown, has many vacant slots. -/
structure Calm (o : TableOps) : Prop where
  shrink : ∀ {s s'}, baseRbSize ≤ s.max → s.max ≤ 2 * baseRbSize → s.count ≤ s.max >>> 2 →
    o.shrink s (Nat.max (s.max >>> 1) baseRbSize) = .ok s' →
    (s.max = baseRbSize → s' = s) ∧ Roomy 60 s' ∧ s'.max ≤ s.max
  expand : ∀ {s s' q r}, s.max = baseRbSize → s.max < s.count + minReq → o.expand s s.grownMax q = .ok (r, s') →
    r = none ∧ s' = s ∨ Roomy 52 s'

theorem Roomy.mono (h : Roomy k s) {j : Nat} (hj : j ≤ k) : Roomy j s :=
  ⟨h.base, h.doubled, (Nat.add_le_add_left hj _).trans h.vacant⟩

theorem Roomy.of_same (h : Roomy k s) (hmax : s'.max = s.max) {j : Nat} (hcount : s'.count + j ≤ s.count + k) :
    Roomy j s' := by
  have hvacant := h.vacant
  exact ⟨hmax.symm ▸ h.base, hmax.symm ▸ h.doubled, by omega⟩

/-- A block takes one slot at most. -/
theorem Roomy.add (h : Roomy (k + 1) s) (ho : Calm o) (hk : s.max = baseRbSize ∨ k ≤ 60)
    (hadd : add o s nb = .ok s') : Roomy k s' ∧ s'.max ≤ s.max := by
  have hvacant := h.vacant
  obtain ⟨s₁, -, hins, hcases⟩ := @add_cases s nb (fits_of_lt (by omega))
  have hmax := hins.max_eq
  have hcount := hins.count_le
  have h₁ : Roomy k s₁ := h.of_same hmax (by omega)
  rcases hcases with hreal | ⟨hsparse, hreal⟩ <;> rw [hreal] at hadd
  · cases hadd
    exact ⟨h₁, hmax.le⟩
  · obtain ⟨hsame, hroomy, hle⟩ := ho.shrink h₁.base h₁.doubled hsparse hadd
    refine ⟨?_, hle.trans hmax.le⟩
    rcases hk with hk | hk
    · rw [hsame (hmax.trans hk)]
      exact h₁
    · exact hroomy.mono hk

theorem Roomy.addSome (h : Roomy (k + 1) s) (ho : Calm o) (hk : s.max = baseRbSize ∨ k ≤ 60) {b : Option RAMBlock}
    (hadd : addSome o s b = .ok s') : Roomy k s' ∧ s'.max ≤ s.max := by
  cases b with
  | none =>
      cases hadd
      exact ⟨h.mono (Nat.le_succ k), le_refl _⟩
  | some b => exact h.add ho hk hadd

theorem Roomy.embedded_of_le (h : Roomy k s') (hle : s'.max ≤ s.max) {j : Nat} (hk : s.max = baseRbSize ∨ j ≤ 60) :
    s'.max = baseRbSize ∨ j ≤ 60 := hk.imp_left fun heq => le_antisymm (hle.trans heq.le) h.base

theorem Roomy.free (h : Roomy (k + 3) s) (ho : Calm o) (hk : s.max = baseRbSize ∨ k + 2 ≤ 60) {p : OwnedPtr}
    (hfree : PhysAlloc.free o s p = .ok s') : Roomy k s' ∧ s'.max ≤ s.max := by
  obtain ⟨s₁, hbefore, hfree⟩ := bind_eq_ok.mp hfree
  obtain ⟨s₂, hafter, hlast⟩ := bind_eq_ok.mp hfree
  have hcleared := clearRange_count s p
  have hmax := (sameTable_clearRange s p).max_eq
  have h₀ : Roomy (k + 3) (s.clearRange p) := h.of_same hmax (by omega)
  have hk₀ := h₀.embedded_of_le hmax.le hk
  obtain ⟨h₁, hle₁⟩ := h₀.addSome ho hk₀ hbefore
  have hk₁ := h₁.embedded_of_le hle₁ hk₀
  obtain ⟨h₂, hle₂⟩ := h₁.addSome ho (hk₁.imp_right fun h => by omega) hafter
  have hk₂ := h₂.embedded_of_le hle₂ hk₁
  obtain ⟨h₃, hle₃⟩ := h₂.add ho (hk₂.imp_right fun h => by omega) hlast
  exact ⟨h₃, hle₃.trans (hle₂.trans (hle₁.trans hmax.le))⟩

theorem Roomy.carve (h : Roomy (k + 2) s) (ho : Calm o) (hk : k + 2 ≤ 60) {args : AllocParams} {ptr : OwnedPtr}
    {r : Option OwnedPtr} (hrun : PhysAlloc.carve o s args ptr = .ok (r, s')) : Roomy k s' ∧ s'.max ≤ s.max := by
  rcases carve_eq_ok hrun with ⟨-, rfl⟩ | ⟨i, block, s₁, s₂, hget, hsize, -, -, -, -, hbefore, hafter, hlast, -⟩
  · exact ⟨h.mono (by omega), le_refl _⟩
  have hcount := invalidate_count hget hsize
  have hmax := setSlot_max s i block.invalidate
  have h₀ : Roomy (k + 3) (s.setSlot i block.invalidate) := h.of_same hmax (by omega)
  obtain ⟨h₁, hle₁⟩ := h₀.add ho (Or.inr (by omega)) hbefore
  obtain ⟨h₂, hle₂⟩ := h₁.add ho (Or.inr (by omega)) hafter
  obtain ⟨h₃, hle₃⟩ := h₂.add ho (Or.inr (by omega)) hlast
  exact ⟨h₃, hle₃.trans (hle₂.trans (hle₁.trans hmax.le))⟩

theorem roomy_shrink (ho : Calm o) (hbase : baseRbSize ≤ s.max) (hdoubled : s.max ≤ 2 * baseRbSize)
    (hsparse : s.count ≤ s.max >>> 2) (hrun : shrink pg o s (Nat.max (s.max >>> 1) baseRbSize) = .ok s') :
    (s.max = baseRbSize → s' = s) ∧ Roomy 60 s' ∧ s'.max ≤ s.max := by
  have hbase' : 128 ≤ s.max := hbase
  have hdoubled' : s.max ≤ 256 := hdoubled
  simp only [Nat.shiftRight_eq_div_pow] at hsparse
  have hnew : Nat.max (s.max >>> 1) baseRbSize = 128 := by
    rw [Nat.shiftRight_eq_div_pow]
    exact Nat.max_eq_right (by rw [baseRbSize]; omega)
  rw [hnew, shrink_eq_shrinkTo] at hrun
  have hroomy : Roomy 60 s := ⟨hbase, hdoubled, by omega⟩
  by_cases hskip : s.max ≤ 128
  · rw [shrinkTo_of_refused (Or.inl hskip)] at hrun
    cases hrun
    exact ⟨fun _ => rfl, hroomy, le_refl _⟩
  have hnot : s.max ≠ baseRbSize := fun h => hskip h.le
  obtain ⟨cut, whole, hcut, hwhole, hmax, -, -, hsame, hto⟩ :=
    shrinkTo_of_accepted pg (Nat.lt_of_not_le hskip) (by omega) (by decide)
  have hcount := count_congr hcut
  rw [hto] at hrun
  split_ifs at hrun
  · cases hrun
  · cases hrun
    have hcount' := count_congr hwhole
    exact ⟨fun h => absurd h hnot, hroomy.of_same hsame.max_eq (by omega), hsame.max_eq.le⟩
  · have hroomy' : Roomy (60 + 3) cut := ⟨hmax.ge, by rw [hmax]; decide, by omega⟩
    obtain ⟨h', hle⟩ := hroomy'.free ho (Or.inl hmax) hrun
    exact ⟨fun h => absurd h hnot, h', by omega⟩

theorem roomy_expand (ho : Calm o) (hbase : s.max = baseRbSize) (hfull : s.max < s.count + minReq) {q : OwnedPtr}
    {r : Option Unit} (hrun : expand pg o s s.grownMax q = .ok (r, s')) : r = none ∧ s' = s ∨ Roomy 52 s' := by
  have hbase' : s.max = 128 := hbase
  rcases expand_cases hbase.ge hrun with hnone | ⟨q', ptr, s₃, hpick, halloc, hfree⟩
  · exact Or.inl hnone
  obtain ⟨hmax, hcount⟩ := alloc_extended hbase.ge hfull hpick halloc
  have h₃ : Roomy (52 + 3) ({ s₃ with ptr := ptr } : PhysAlloc) := by
    refine ⟨?_, ?_, ?_⟩ <;> simp only [PhysAlloc.max, PhysAlloc.count, baseRbSize] at * <;> omega
  exact Or.inr (h₃.free ho (Or.inr (by omega)) hfree).1

theorem calm_tableOps (pg : BPage) (depth : Nat) : Calm (tableOps pg depth) := by
  induction depth with
  | zero => exact ⟨fun _ _ _ h => (by cases h), fun _ _ h => (by cases h)⟩
  | succ depth ih => exact ⟨roomy_shrink ih, fun hbase hfull => roomy_expand ih hbase hfull⟩

theorem alloc_max_le (ho : Calm o) (hbase : s.max = baseRbSize) {args : AllocParams} {r : Option OwnedPtr}
    (hrun : alloc pg o s args = .ok (r, s')) : s'.max ≤ 2 * baseRbSize := by
  have hrefused : s.max ≤ 2 * baseRbSize := by omega
  rcases alloc_eq_ok hrun with ⟨-, rfl⟩ | ⟨-, ptr, -, ⟨hroom, hcarve⟩ | ⟨hfull, ⟨-, hexpand⟩ | ⟨s₁, hexpand, hcarve⟩⟩⟩
  · exact hrefused
  · have hmin : minReq = 4 := rfl
    have h₀ : Roomy (2 + 2) s := ⟨hbase.ge, hrefused, by omega⟩
    exact (h₀.carve ho (by omega) hcarve).1.doubled
  · rcases ho.expand hbase hfull hexpand with ⟨-, rfl⟩ | h₁
    · exact hrefused
    · exact h₁.doubled
  · rcases ho.expand hbase hfull hexpand with ⟨hr, -⟩ | h₁
    · cases hr
    · exact (Roomy.carve (k := 50) h₁ ho (by omega) hcarve).1.doubled

end PhysAlloc

end UnixKernel
