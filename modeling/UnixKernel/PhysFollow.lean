import UnixKernel.PhysSeal
import UnixKernel.PhysWord

/-! Where the allocator on words is the exact one. As long as all memory lies below `2 ^ 60`, no sum of a call leaves
the word, and the calls keep it that way. Both hold for every call whose own parameters are small enough; a development
build needs neither: it does what the exact allocator does, or it panics. The two are one statement, `Follows`: `N`
says where a panic is allowed, and the bounds are asked for where it is not. -/

namespace UnixKernel

open Slots Segments PhysAlloc

namespace PhysWord

/-- What the storage of a table has to be like: large enough for the half of the table that `shrink` keeps. -/
structure Shape (p : Profile) (q : OwnedPtr) (n : Nat) : Prop where
  base_le : baseRbSize ≤ n
  aligned : n ≤ baseRbSize ∨ 4096 ∣ q.addr
  checked : Checked p q.addr
  size_pos : 0 < q.size
  half_le : n ≤ baseRbSize ∨ tableBytes .size4kiB (Nat.max (n >>> 1) baseRbSize) ≤ q.size

/-- All memory lies below `2 ^ 60`, and in a development build none of it at address zero. -/
def inWord (p : Profile) : Seal where
  may x _ := x < 2 ^ 60 ∧ (p = .dev → x ≠ 0)
  shape := Shape p
  may_of_ram h _ _ := h
  base_le h := h.base_le
  le_base h hsmall := by
    refine h.half_le.resolve_right fun hle => ?_
    exact Nat.not_lt.mpr ((page_le_tableBytes (Nat.le_max_right _ _)).trans hle) hsmall
  aligned h hlt := h.aligned.resolve_left (Nat.not_le.mpr hlt)
  shape_of_table {q n} hbase haligned hsize hopen := by
    have hpos : 0 < q.size := Nat.lt_of_lt_of_le (tableBytes_pos _ _) hsize
    refine ⟨hbase, Or.inr haligned, fun hdev => ⟨?_, Nat.dvd_trans (by decide) haligned⟩, hpos, Or.inr hsize⟩
    exact (hopen q.addr (OwnedPtr.holds_iff.mpr (by omega)) .conv).2 hdev

section Bounds

variable {p : Profile} {s : PhysAlloc}

theorem fin_le_of_allows {b : RAMBlock} (h : (inWord p).Allows b) (hb : 0 < b.size) : b.fin ≤ 2 ^ 60 := by
  have hlast := (h (b.fin - 1) (RAMBlock.holds_iff.mpr (by simp only [RAMBlock.fin]; omega))).1
  simp only [RAMBlock.fin] at hlast ⊢
  omega

theorem fin_le_of_open {q : OwnedPtr} (h : (inWord p).Open q) (hq : 0 < q.size) : q.fin ≤ 2 ^ 60 :=
  fin_le_of_allows (h.allows .conv false) hq

/-- What is needed of a table before a call; that of its storage suffices which the table is about to leave. -/
structure Ready (p : Profile) (s : PhysAlloc) : Prop where
  within : ∀ x, ∀ t ∈ s.den x, (inWord p).may x t.1
  storage : (inWord p).Open s.ptr
  checked : Checked p s.ptr.addr
  size_pos : 0 < s.ptr.size
  base_le : baseRbSize ≤ s.max
  entries : s.max * ramBlockSize ≤ 2 ^ 61 + ramBlockSize

theorem Ready.fin_le (h : Ready p s) {b : RAMBlock} (hb : b ∈ s.blocks) (hvalid : 0 < b.size) : b.fin ≤ 2 ^ 60 :=
  fin_le_of_allows (fun x hx => h.within x _ (tag_mem_den (Multiset.mem_coe.mpr hb) hx)) hvalid

theorem Ready.ptr_fin_le (h : Ready p s) : s.ptr.fin ≤ 2 ^ 60 := fin_le_of_open h.storage h.size_pos

theorem ready_of_sealed (h : Sealed (inWord p) s) : Ready p s := by
  have hfin := fin_le_of_open h.storage h.shape.size_pos
  refine ⟨h.within, h.storage, h.shape.checked, h.shape.size_pos, h.shape.base_le, ?_⟩
  rcases h.shape.half_le with hbase | hhalf
  · have hmul := Nat.mul_le_mul_right ramBlockSize hbase
    simp only [baseRbSize, ramBlockSize] at hmul ⊢
    omega
  · have hsize : s.max >>> 1 * ramBlockSize ≤ s.ptr.size :=
      (Nat.mul_le_mul_right _ (Nat.le_max_left _ baseRbSize)).trans ((le_sizeAlign .size4kiB _).trans hhalf)
    simp only [OwnedPtr.fin, ramBlockSize, Nat.shiftRight_eq_div_pow] at hfin hsize ⊢
    omega

end Bounds

/-! ### Sums -/

section Sums

variable {p : Profile} {N : Prop} (hN : N → p = .dev)

include hN

theorem usize_follows {n : Nat} (h : ¬N → n < 2 ^ 64) : Follows .panic N (usize p n) (.ok n) :=
  Profile.fit_follows hN h

theorem usize_sub_follows {a b : Nat} (h : ¬N → b ≤ a ∧ a < 2 ^ 64) :
    Follows .panic N (usize p ((a : Int) - b)) (.ok (a - b)) :=
  Profile.fit_sub_follows hN h

theorem alignUp_follows {val align : Nat} (h : ¬N → UnixKernel.alignUp val align < 2 ^ 64) :
    Follows .panic N (alignUp p val align) (.ok (UnixKernel.alignUp val align)) := by
  rw [alignUp]
  rw [UnixKernel.alignUp] at h ⊢
  split_ifs at h ⊢ with halign
  · exact .refl _
  · exact usize_follows hN h

theorem sizeAlign_follows {pg : BPage} {val : Nat} (h : ¬N → UnixKernel.sizeAlign pg val < 2 ^ 64) :
    Follows .panic N (sizeAlign p pg val) (.ok (UnixKernel.sizeAlign pg val)) := by
  rw [sizeAlign]
  rw [UnixKernel.sizeAlign] at h ⊢
  split_ifs at h ⊢ with hval
  · exact .refl _
  · exact alignUp_follows hN h

theorem blockEnd_follows {b : RAMBlock} (h : ¬N → b.fin < 2 ^ 64) : Follows .panic N (blockEnd p b) (.ok b.fin) :=
  usize_follows hN h

theorem ptrEnd_follows {q : OwnedPtr} (h : ¬N → q.fin < 2 ^ 64) : Follows .panic N (ptrEnd p q) (.ok q.fin) :=
  usize_follows hN h

theorem isMergable_follows {nb b : RAMBlock} (hnb : ¬N → nb.fin < 2 ^ 64) (hb : ¬N → b.fin < 2 ^ 64) :
    Follows .panic N (isMergable p nb b) (.ok (nb.isMergable b)) := by
  rw [isMergable, RAMBlock.isMergable]
  by_cases hinvalid : (nb.invalid || b.invalid) = true
  · rw [if_pos hinvalid, if_pos hinvalid]
    exact .refl _
  rw [if_neg hinvalid, if_neg hinvalid]
  by_cases htag : ({ nb with addr := 0, size := 0 } : RAMBlock) ≠ { b with addr := 0, size := 0 }
  · rw [if_pos htag, if_pos htag]
    exact .refl _
  rw [if_neg htag, if_neg htag]
  refine (blockEnd_follows hN hnb).step fun _ => ?_
  by_cases hend : nb.fin = b.addr
  · rw [if_pos hend, if_pos hend]
    exact .refl _
  rw [if_neg hend, if_neg hend]
  refine (blockEnd_follows hN hb).step fun _ => ?_
  split_ifs <;> exact .refl _

end Sums

/-! ### Scans of the table -/

section Table

variable {p : Profile} {N : Prop} (hN : N → p = .dev) {s : PhysAlloc}

theorem blocksRaw_follows (h : ¬N → Ready p s) : Follows .panic N (blocksRaw p s) (.ok s.blocks) := by
  refine (Follows.ensure fun hnot => ⟨(h hnot).checked, fun _ => ?_⟩).step fun _ => .refl _
  have hmax := (h hnot).entries
  rw [ramBlockSize] at hmax ⊢
  omega

theorem count_follows (h : ¬N → Ready p s) : Follows .panic N (count p s) (.ok s.count) :=
  (blocksRaw_follows h).step fun _ => .refl _

/-- A table that has been counted is small enough to be doubled. -/
theorem grownMax_of_count (hN : N → p = .dev) (h : ¬N → Ready p s) {n : Nat} (hcount : count p s = .ok n) :
    grownMax p s = .ok s.grownMax := by
  have hlt : s.max < 2 ^ 62 := by
    by_cases hdev : N
    · obtain ⟨_, hraw, -⟩ := bind_eq_ok.mp hcount
      obtain ⟨_, hensure, -⟩ := bind_eq_ok.mp hraw
      have hsize := (ensure_eq_ok.mp hensure).2 (hN hdev)
      rw [ramBlockSize] at hsize
      omega
    · have hmax := (h hdev).entries
      rw [ramBlockSize] at hmax
      omega
  have hfit : usize p (s.max + minReq : Nat) = .ok (s.max + minReq) := Profile.fit_of_lt (by rw [minReq]; omega)
  have hshift : (s.max <<< 1) % 2 ^ 64 = s.max <<< 1 := Nat.mod_eq_of_lt (by rw [Nat.shiftLeft_eq]; omega)
  rw [grownMax, hfit, ok_bind, hshift]
  rfl

theorem find_cons (s : PhysAlloc) (f : RAMBlock → Bool) (b : RAMBlock) (bs : List RAMBlock) :
    ({ s with blocks := b :: bs } : PhysAlloc).find f = if b.valid && f b then some (0, b)
      else (({ s with blocks := bs } : PhysAlloc).find f).map fun r => (r.1 + 1, r.2) := by
  rw [PhysAlloc.find, PhysAlloc.find, List.findIdx?_cons]
  split_ifs
  · rfl
  · cases bs.findIdx? fun b => b.valid && f b with
    | none => rfl
    | some i => simp [Function.comp_def]

theorem findFrom_follows {f : RAMBlock → Except Halt Bool} {g : RAMBlock → Bool} {bs : List RAMBlock} {i : Nat}
    (h : ∀ b ∈ bs, 0 < b.size → Follows .panic N (f b) (.ok (g b))) :
    Follows .panic N (findFrom f i bs)
      (.ok ((({ s with blocks := bs } : PhysAlloc).find g).map fun r => (i + r.1, r.2))) := by
  induction bs generalizing i with
  | nil => exact .refl _
  | cons b bs ih =>
      obtain ⟨hb, hbs⟩ := List.forall_mem_cons.mp h
      have hshift : ∀ r : Option (Nat × RAMBlock), (r.map fun r => (r.1 + 1, r.2)).map (fun r => (i + r.1, r.2)) =
          r.map fun r => (i + 1 + r.1, r.2) := fun r => by cases r <;> simp [Nat.add_comm, Nat.add_left_comm]
      rw [findFrom, find_cons]
      by_cases hvalid : b.valid = true
      · rw [if_pos hvalid, hvalid, Bool.true_and]
        refine (hb (RAMBlock.valid_iff.mp hvalid)).step fun _ => ?_
        cases g b with
        | true => exact .refl _
        | false =>
            rw [if_neg Bool.false_ne_true, if_neg Bool.false_ne_true, hshift]
            exact ih hbs
      · rw [if_neg hvalid, if_neg (by simp [hvalid]), hshift]
        exact ih hbs

theorem find_follows {f : RAMBlock → Except Halt Bool} {g : RAMBlock → Bool} (hs : ¬N → Ready p s)
    (h : ∀ b ∈ s.blocks, 0 < b.size → Follows .panic N (f b) (.ok (g b))) :
    Follows .panic N (find p s f) (.ok (s.find g)) := by
  refine (blocksRaw_follows hs).step fun _ => ?_
  have hfind := findFrom_follows (s := s) (i := 0) h
  simpa using hfind

include hN

theorem neighbours_follows {nb : RAMBlock} (hnb : ¬N → nb.fin < 2 ^ 64) {bs : List RAMBlock}
    (h : ∀ b ∈ bs, 0 < b.size → ¬N → b.fin < 2 ^ 64) (i : Nat)
    (near : Option (Nat × RAMBlock) × Option (Nat × RAMBlock)) :
    Follows .panic N (neighbours p nb i bs near)
      (.ok (((last? (fun b => b.valid && nb.isMergable b = 1) bs).map fun r => (i + r.1, r.2)).or near.1,
        ((last? (fun b => b.valid && nb.isMergable b = -1) bs).map fun r => (i + r.1, r.2)).or near.2)) := by
  induction bs generalizing i near with
  | nil => exact .refl _
  | cons b bs ih =>
      obtain ⟨hb, hbs⟩ := List.forall_mem_cons.mp h
      rw [neighbours, last?_cons_or, last?_cons_or]
      by_cases hvalid : b.valid = true
      · rw [if_pos hvalid]
        refine (isMergable_follows hN hnb (hb (RAMBlock.valid_iff.mp hvalid))).step fun _ => ?_
        simp only [hvalid, Bool.true_and, decide_eq_true_eq]
        exact ih hbs _ _
      · rw [if_neg hvalid]
        simp only [hvalid, Bool.false_and, Bool.false_eq_true, if_false]
        exact ih hbs _ _

end Table

/-! ### The operations -/

/-- The operations on words under which the table reenters itself follow the exact ones. -/
structure OpsFollow (p : Profile) (N : Prop) (w o : TableOps) : Prop where
  expand : ∀ {s : PhysAlloc} {q : OwnedPtr}, (¬N → Sealed (inWord p) s) → s.max < s.count + minReq →
    (¬N → q.fin + 2 ^ 16 ≤ 2 ^ 64) → Follows .panic N (w.expand s s.grownMax q) (o.expand s s.grownMax q)
  shrink : ∀ {s : PhysAlloc}, (¬N → Sealed (inWord p) s) →
    Follows .panic N (w.shrink s (Nat.max (s.max >>> 1) baseRbSize))
      (o.shrink s (Nat.max (s.max >>> 1) baseRbSize))

theorem OpsFollow.refl (p : Profile) (N : Prop) (o : TableOps) : OpsFollow p N o o :=
  ⟨fun _ _ _ => .refl _, fun _ => .refl _⟩

section Operations

variable {p : Profile} {N : Prop} (hN : N → p = .dev) {w o : TableOps} (how : OpsFollow p N w o)
  (ho : ¬N → Keeps (inWord p) o) {pg : BPage} {s : PhysAlloc}

include hN how ho

theorem add_follows {nb : RAMBlock} (hs : ¬N → Sealed (inWord p) s) (hnb : ¬N → (inWord p).Allows nb) :
    Follows .panic N (add p w s nb) (PhysAlloc.add o s nb) := by
  have hready : ¬N → Ready p s := fun hnot => ready_of_sealed (hs hnot)
  rcases Nat.eq_zero_or_pos nb.size with hzero | hpos
  · rw [add_of_size_eq_zero o hzero, add, if_pos (RAMBlock.invalid_iff.mpr hzero)]
    exact .refl _
  have hvalid : ¬nb.invalid = true := by
    rw [RAMBlock.invalid_iff]
    omega
  have hfin : ¬N → nb.fin ≤ 2 ^ 60 := fun hnot => fin_le_of_allows (hnb hnot) hpos
  have hsize : ∀ {i : Nat} {b : RAMBlock}, s.blocks[i]? = some b → 0 < b.size → ¬N → b.fin ≤ 2 ^ 60 :=
    fun hget hb hnot => (hready hnot).fin_le (List.mem_of_getElem? hget) hb
  rw [add, if_neg hvalid, PhysAlloc.add, if_neg hvalid]
  refine (blocksRaw_follows hready).step fun _ => ?_
  refine (neighbours_follows hN (fun hnot => (hfin hnot).trans_lt (by decide))
    (fun b hb hb' hnot => ((hready hnot).fin_le hb hb').trans_lt (by decide)) 0 (none, none)).step fun _ => ?_
  simp only [Nat.zero_add, Option.map_id', Option.or_none]
  simp only [RAMBlock.fin] at hfin hsize
  rcases scan_before (s := s) hpos with ⟨i, b, hlast, hi, hbsize, hbtag, hbfin⟩ | ⟨hlast, hbefore⟩ <;>
    rcases scan_after (s := s) hpos with ⟨j, a, hlast', hj, hasize, hatag, hafin⟩ | ⟨hlast', hafter⟩ <;>
    simp only [hlast, hlast']
  · -- joined with both neighbours, and the table shrunk if little is left
    refine (usize_follows hN fun hnot => ?_).step fun _ => (usize_follows hN fun hnot => ?_).step fun _ => ?_
    · have := hfin hnot
      have := hsize hi hbsize hnot
      omega
    · have := hfin hnot
      have := hsize hi hbsize hnot
      have := hsize hj hasize hnot
      omega
    have hins := (inserted_both hpos hi hbsize hbtag hbfin hj hasize hatag hafin).1
    have hs₁ := fun hnot => (hs hnot).inserted (hnb hnot) hins
    refine (count_follows fun hnot => ready_of_sealed (hs₁ hnot)).step fun _ => ?_
    exact Follows.ite (fun _ => how.shrink hs₁) fun _ => .refl _
  · refine (usize_follows hN fun hnot => ?_).step fun _ => .refl _
    have := hfin hnot
    have := hsize hi hbsize hnot
    omega
  · refine (usize_follows hN fun hnot => ?_).step fun _ => .refl _
    have := hfin hnot
    have := hsize hj hasize hnot
    omega
  · -- put into a vacant slot, of which a full table gets some first
    refine (count_follows hready).step fun hcount => ?_
    refine Follows.ite (fun hfull => ?_) fun _ => (blocksRaw_follows hready).step fun _ => .refl _
    have hfull' : s.max < s.count + minReq := Nat.lt_of_le_of_lt hfull (Nat.lt_add_of_pos_right (by decide))
    rw [grownMax_of_count hN hready hcount]
    refine (how.expand hs hfull' fun hnot => ?_).bind fun r _ hexpand => ?_
    · have := hfin hnot
      simp only [RAMBlock.intoOwnedPtr, OwnedPtr.fin]
      omega
    · obtain ⟨r, s₁⟩ := r
      cases r with
      | none => exact .refl _
      | some =>
          refine (blocksRaw_follows fun hnot => ?_).step fun _ => .refl _
          exact ready_of_sealed ((ho hnot).expand (hs hnot) hfull' hexpand)

end Operations

/-- Parameters with which no sum of a call leaves the word: the end of a requested range, rounded up to a page, and
the end of a range in memory below `2 ^ 60`. -/
structure Fits (pg : BPage) (a : AllocParams) : Prop where
  size : 2 ^ 60 + a.align + UnixKernel.sizeAlign pg a.size ≤ 2 ^ 64
  addr : ∀ addr ∈ a.addr, UnixKernel.alignUp addr a.align + UnixKernel.sizeAlign pg a.size + 2 ^ 16 ≤ 2 ^ 64

theorem Fits.build {pg : BPage} {a : AllocParams} (h : Fits pg a) : Fits pg (a.build pg) := by
  refine ⟨?_, fun addr haddr => ?_⟩
  · simp only [AllocParams.build, sizeAlign_idem]
    exact h.size
  · simp only [AllocParams.build, sizeAlign_idem] at haddr ⊢
    obtain ⟨a₀, ha₀, rfl⟩ := Option.map_eq_some_iff.mp haddr
    rw [alignUp_of_dvd (dvd_alignUp a₀ a.align_pos)]
    exact h.addr a₀ ha₀

theorem alignUp_add_lt {pg : BPage} {a : AllocParams} (h : Fits pg a) {b : RAMBlock} (hb : b.fin ≤ 2 ^ 60) :
    UnixKernel.alignUp b.addr a.align + UnixKernel.sizeAlign pg a.size < 2 ^ 64 := by
  have hsize := h.size
  have hup := alignUp_lt b.addr a.align_pos
  simp only [RAMBlock.fin] at hb
  omega

/-- The range that is tried ends well below the end of the address space. -/
theorem fin_of_requested {p : Profile} {s : PhysAlloc} {pg : BPage} {args : AllocParams} {q : OwnedPtr}
    (hs : Sealed (inWord p) s) (h : Fits pg args) (hreq : s.requested pg (args.build pg) = some q) :
    q.fin + 2 ^ 16 ≤ 2 ^ 64 := by
  rw [PhysAlloc.requested] at hreq
  cases haddr : args.addr with
  | some addr =>
      simp only [AllocParams.build, haddr, Option.map_some, Option.some.injEq] at hreq
      subst hreq
      exact h.addr addr haddr
  | none =>
      simp only [AllocParams.build, haddr, Option.map_none] at hreq
      obtain ⟨⟨i, b⟩, hfind, rfl⟩ := Option.map_eq_some_iff.mp hreq
      obtain ⟨hget, hb, hf⟩ := find_eq_some hfind
      simp only [Bool.and_eq_true, decide_eq_true_eq] at hf
      have hfin := (ready_of_sealed hs).fin_le (List.mem_of_getElem? hget) hb
      simp only [OwnedPtr.fin]
      omega

section Alloc

variable {p : Profile} {N : Prop} (hN : N → p = .dev) {pg : BPage} {s : PhysAlloc} {args : AllocParams}

include hN

theorem build_follows (h : ¬N → Fits pg args) : Follows .panic N (build p pg args) (.ok (args.build pg)) := by
  have hsize : Follows .panic N (sizeAlign p pg args.size) (.ok (UnixKernel.sizeAlign pg args.size)) :=
    sizeAlign_follows hN fun hnot => by have := (h hnot).size; have := args.align_pos; omega
  rw [build, AllocParams.build]
  cases haddr : args.addr with
  | none => exact hsize.step fun _ => .refl _
  | some addr =>
      refine (alignUp_follows hN fun hnot => ?_).step fun _ => hsize.step fun _ => .refl _
      have := (h hnot).addr addr haddr
      omega

theorem findFreeRam_follows (hs : ¬N → Sealed (inWord p) s) (h : ¬N → Fits pg args) :
    Follows .panic N (findFreeRam p pg s args) (.ok (s.findFreeRam pg args)) := by
  have hready : ¬N → Ready p s := fun hnot => ready_of_sealed (hs hnot)
  have hup : ∀ b ∈ s.blocks, 0 < b.size →
      Follows .panic N (alignUp p b.addr args.align) (.ok (UnixKernel.alignUp b.addr args.align)) :=
    fun b hb hb' => alignUp_follows hN fun hnot => by
      have := alignUp_add_lt (h hnot) ((hready hnot).fin_le hb hb')
      omega
  refine (build_follows hN h).step fun _ => ?_
  refine (find_follows (g := fun block => block.notUsed &&
    UnixKernel.alignUp block.addr args.align + UnixKernel.sizeAlign pg args.size ≤ block.fin &&
    block.ty = args.fromType) hready fun b hb hb' => ?_).step fun _ => ?_
  · refine (hup b hb hb').step fun _ => ?_
    cases b.notUsed with
    | false => exact .refl _
    | true =>
        refine (usize_follows hN fun hnot => ?_).step fun _ => (blockEnd_follows hN fun hnot => ?_).step fun _ => ?_
        · exact alignUp_add_lt (h hnot) ((hready hnot).fin_le hb hb')
        · exact ((hready hnot).fin_le hb hb').trans_lt (by decide)
        · exact .refl _
  · have hexact : s.findFreeRam pg args = (s.find fun block => block.notUsed &&
        UnixKernel.alignUp block.addr args.align + UnixKernel.sizeAlign pg args.size ≤ block.fin &&
        block.ty = args.fromType).map fun r =>
          ⟨UnixKernel.alignUp r.2.addr args.align, UnixKernel.sizeAlign pg args.size⟩ := rfl
    rw [hexact]
    cases hfind : s.find fun block => block.notUsed &&
        UnixKernel.alignUp block.addr args.align + UnixKernel.sizeAlign pg args.size ≤ block.fin &&
        block.ty = args.fromType with
    | none => exact .refl _
    | some r =>
        obtain ⟨i, b⟩ := r
        obtain ⟨hget, hb, -⟩ := find_eq_some hfind
        exact (hup b (List.mem_of_getElem? hget) hb).step fun _ => .refl _

end Alloc

section Operations

variable {p : Profile} {N : Prop} (hN : N → p = .dev) {w o : TableOps} (how : OpsFollow p N w o)
  (ho : ¬N → Keeps (inWord p) o) {pg : BPage} {s : PhysAlloc} {args : AllocParams} {q : OwnedPtr}

include hN how ho

theorem carve_follows (hs : ¬N → Sealed (inWord p) s) (hty : args.fromType ≠ .reserved)
    (hq : ¬N → q.fin + 2 ^ 16 ≤ 2 ^ 64) : Follows .panic N (carve p w s args q) (PhysAlloc.carve o s args q) := by
  have hready : ¬N → Ready p s := fun hnot => ready_of_sealed (hs hnot)
  have hqfin : Follows .panic N (ptrEnd p q) (.ok q.fin) := ptrEnd_follows hN fun hnot => by
    have := hq hnot
    omega
  refine (find_follows (g := fun block => block.notUsed && args.fromType = block.ty &&
    (block.addr ≤ q.addr && q.fin ≤ block.fin)) hready fun b hb hb' => ?_).step fun _ => ?_
  · by_cases hcond : (b.notUsed && args.fromType = b.ty && b.addr ≤ q.addr) = true
    · rw [if_pos hcond]
      refine hqfin.step fun _ => (blockEnd_follows hN fun hnot => ?_).step fun _ => ?_
      · exact ((hready hnot).fin_le hb hb').trans_lt (by decide)
      · rw [← Bool.and_assoc, hcond, Bool.true_and]
        exact .refl _
    · rw [if_neg hcond, ← Bool.and_assoc, Bool.not_eq_true _ |>.mp hcond, Bool.false_and]
      exact .refl _
  rw [PhysAlloc.carve]
  cases hfind : s.find fun block => block.notUsed && args.fromType = block.ty &&
      (block.addr ≤ q.addr && q.fin ≤ block.fin) with
  | none => exact .refl _
  | some r =>
      obtain ⟨i, block⟩ := r
      obtain ⟨hget, hsize, hf⟩ := find_eq_some hfind
      simp only [Bool.and_eq_true, decide_eq_true_eq] at hf
      obtain ⟨⟨-, hfrom⟩, hlo, hhi⟩ := hf
      have hmem := List.mem_of_getElem? hget
      have hblock := fun hnot => (hs hnot).allows hmem
      have hopen : ¬N → (inWord p).Open q := fun hnot => (hblock hnot).isOpen (hfrom ▸ hty) hlo hhi
      have hlast : Follows .panic N (blockEnd p block) (.ok block.fin) := blockEnd_follows hN fun hnot =>
        ((hready hnot).fin_le hmem hsize).trans_lt (by decide)
      refine Follows.ite (fun _ => .refl _) fun _ => ?_
      refine (usize_sub_follows hN fun hnot => ⟨hlo, ?_⟩).step fun _ => hqfin.step fun _ => hlast.step fun _ =>
        (usize_sub_follows hN fun hnot => ⟨hhi, ?_⟩).step fun _ => ?_
      · have := hq hnot
        simp only [OwnedPtr.fin] at this
        omega
      · exact ((hready hnot).fin_le hmem hsize).trans_lt (by decide)
      have h₀ := fun hnot => (hs hnot).invalidate hget
      have hfront : ¬N → (inWord p).Allows ⟨block.addr, q.addr - block.addr, block.ty, false⟩ := fun hnot =>
        (hblock hnot).of_sub rfl fun x hx => by
          simp only [RAMBlock.holds_iff, OwnedPtr.fin, RAMBlock.fin] at hx hhi ⊢
          omega
      have hback : ¬N → (inWord p).Allows ⟨q.fin, block.fin - q.fin, block.ty, false⟩ := fun hnot =>
        (hblock hnot).of_sub rfl fun x hx => by
          simp only [RAMBlock.holds_iff, OwnedPtr.fin, RAMBlock.fin] at hx hhi ⊢
          omega
      refine (add_follows hN how ho h₀ hfront).bind fun s₁ _ hadd₁ => ?_
      have h₁ := fun hnot => (h₀ hnot).add (ho hnot) (hfront hnot) hadd₁
      refine (add_follows hN how ho h₁ hback).bind fun s₂ _ hadd₂ => ?_
      have h₂ := fun hnot => (h₁ hnot).add (ho hnot) (hback hnot) hadd₂
      exact (add_follows hN how ho h₂ fun hnot => (hopen hnot).allows _ _).bind fun s₃ _ _ => .refl _

omit how ho in
theorem requested_follows (hs : ¬N → Sealed (inWord p) s) (h : ¬N → Fits pg args) :
    Follows .panic N (requested p pg s args) (.ok (s.requested pg args)) := by
  rw [requested, PhysAlloc.requested]
  cases args.addr with
  | some addr => exact .refl _
  | none => exact findFreeRam_follows hN hs h

theorem alloc_follows (hs : ¬N → Sealed (inWord p) s) (h : ¬N → Fits pg args) :
    Follows .panic N (alloc p w pg s args) (PhysAlloc.alloc pg o s args) := by
  have hready : ¬N → Ready p s := fun hnot => ready_of_sealed (hs hnot)
  refine (build_follows hN h).step fun _ => ?_
  rw [PhysAlloc.alloc]
  refine Follows.ite (fun _ => .refl _) fun hram => ?_
  simp only [Bool.or_eq_true, not_or, Bool.not_eq_true] at hram
  have hty := fromType_ne_reserved hram.1
  refine (requested_follows hN hs fun hnot => (h hnot).build).step fun _ => ?_
  cases hreq : s.requested pg (args.build pg) with
  | none => exact .refl _
  | some ptr =>
      have hq : ¬N → ptr.fin + 2 ^ 16 ≤ 2 ^ 64 := fun hnot => fin_of_requested (hs hnot) (h hnot) hreq
      refine (count_follows hready).step fun hcount => ?_
      refine Follows.ite (fun hfull => ?_) fun _ => carve_follows hN how ho hs hty hq
      rw [grownMax_of_count hN hready hcount]
      refine (how.expand hs hfull hq).bind fun r _ hexpand => ?_
      obtain ⟨r, s₁⟩ := r
      cases r with
      | none => exact .refl _
      | some => exact carve_follows hN how ho (fun hnot => (ho hnot).expand (hs hnot) hfull hexpand) hty hq

end Operations

section Free

variable {p : Profile} {N : Prop} (hN : N → p = .dev) {w o : TableOps} (how : OpsFollow p N w o)
  (ho : ¬N → Keeps (inWord p) o) {pg : BPage} {s : PhysAlloc} {q : OwnedPtr}

include hN

theorem clearRange_follows (hq : ¬N → q.fin < 2 ^ 64) {bs : List RAMBlock}
    (h : ∀ b ∈ bs, 0 < b.size → ¬N → b.fin < 2 ^ 64) (before after : Option RAMBlock) :
    Follows .panic N (clearRange p q bs before after)
      (.ok (bs.map fun b => if overlaps q b then b.invalidate else b,
        ((last? (fun b => overlaps q b && b.addr < q.addr) bs).map Prod.snd).or before,
        ((last? (fun b => overlaps q b && q.fin < b.fin) bs).map Prod.snd).or after)) := by
  induction bs generalizing before after with
  | nil => exact .refl _
  | cons b bs ih =>
      obtain ⟨hb, hbs⟩ := List.forall_mem_cons.mp h
      rw [clearRange, List.map_cons, last?_cons_snd_or, last?_cons_snd_or]
      have hskip : overlaps q b = false → Follows .panic N
          (clearRange p q bs before after >>= fun r => pure (b :: r.1, r.2))
            (.ok ((if overlaps q b then b.invalidate else b) ::
            bs.map fun b => if overlaps q b then b.invalidate else b,
          ((last? (fun b => overlaps q b && b.addr < q.addr) bs).map Prod.snd).or
            (if overlaps q b && b.addr < q.addr then some b else before),
          ((last? (fun b => overlaps q b && q.fin < b.fin) bs).map Prod.snd).or
            (if overlaps q b && q.fin < b.fin then some b else after))) := fun hout => by
        simp only [hout, Bool.false_and, Bool.false_eq_true, if_false]
        exact (ih hbs before after).step fun _ => .refl _
      by_cases hvalid : b.valid = true
      · rw [if_pos hvalid]
        refine (ptrEnd_follows hN hq).step fun _ => ?_
        by_cases hlo : b.addr < q.fin
        · rw [if_pos hlo]
          refine (blockEnd_follows hN (hb (RAMBlock.valid_iff.mp hvalid))).step fun _ => ?_
          by_cases hhi : q.addr < b.fin
          · have hover : overlaps q b = true := by simp [overlaps, hvalid, hlo, hhi]
            rw [if_pos hhi]
            simp only [hover, Bool.true_and, decide_eq_true_eq, if_true]
            exact (ih hbs _ _).step fun _ => .refl _
          · rw [if_neg hhi]
            exact hskip (by simp [overlaps, hhi])
        · rw [if_neg hlo]
          exact hskip (by simp [overlaps, hlo])
      · rw [if_neg hvalid]
        exact hskip (by simp [overlaps, hvalid])

include how ho

/-- `free` of a range below `2 ^ 60`. -/
theorem free_follows (hs : ¬N → Sealed (inWord p) s) (hq : ¬N → (inWord p).Open q) (hfin : ¬N → q.fin < 2 ^ 64) :
    Follows .panic N (free p w s q) (PhysAlloc.free o s q) := by
  have hready : ¬N → Ready p s := fun hnot => ready_of_sealed (hs hnot)
  refine (blocksRaw_follows hready).step fun _ => (clearRange_follows hN hfin
    (fun b hb hb' hnot => ((hready hnot).fin_le hb hb').trans_lt (by decide)) none none).step fun _ => ?_
  simp only [Option.or_none]
  have h₀ := fun hnot => (hs hnot).clearRange q
  have hbefore : Follows .panic N (addBefore p w (s.clearRange q) q
      ((last? (fun b => overlaps q b && b.addr < q.addr) s.blocks).map Prod.snd))
      (addSome o (s.clearRange q) ((last? (fun b => overlaps q b && b.addr < q.addr) s.blocks).map fun b =>
        (⟨b.2.addr, q.addr - b.2.addr, b.2.ty, b.2.used⟩ : RAMBlock))) := by
    cases hlast : last? (fun b => overlaps q b && b.addr < q.addr) s.blocks with
    | none => exact .refl _
    | some r =>
        obtain ⟨i, b⟩ := r
        obtain ⟨-, hb⟩ := last?_eq_some hlast
        rw [Bool.and_eq_true, decide_eq_true_eq] at hb
        refine (usize_sub_follows hN fun hnot => ⟨hb.2.le, ?_⟩).step fun _ => add_follows hN how ho h₀ fun hnot => ?_
        · have := hfin hnot
          simp only [OwnedPtr.fin] at this
          omega
        · exact (hs hnot).allows_before (by rw [hlast]; rfl)
  refine hbefore.bind fun s₁ _ hadd₁ => ?_
  have h₁ := fun hnot => (h₀ hnot).addSome (ho hnot) (fun c => (hs hnot).allows_before) hadd₁
  have hafter : Follows .panic N (addAfter p w s₁ q
      ((last? (fun b => overlaps q b && q.fin < b.fin) s.blocks).map Prod.snd))
      (addSome o s₁ ((last? (fun b => overlaps q b && q.fin < b.fin) s.blocks).map fun b =>
        (⟨q.fin, b.2.fin - q.fin, b.2.ty, b.2.used⟩ : RAMBlock))) := by
    cases hlast : last? (fun b => overlaps q b && q.fin < b.fin) s.blocks with
    | none => exact .refl _
    | some r =>
        obtain ⟨i, b⟩ := r
        obtain ⟨hget, hb⟩ := last?_eq_some hlast
        rw [Bool.and_eq_true, decide_eq_true_eq] at hb
        have hbfin : ¬N → b.fin < 2 ^ 64 := fun hnot =>
          ((hready hnot).fin_le (List.mem_of_getElem? hget) (overlaps_iff.mp hb.1).1).trans_lt (by decide)
        refine (ptrEnd_follows hN hfin).step fun _ => (blockEnd_follows hN hbfin).step fun _ =>
          (usize_sub_follows hN fun hnot => ⟨hb.2.le, hbfin hnot⟩).step fun _ =>
            add_follows hN how ho h₁ fun hnot => ?_
        exact (hs hnot).allows_after (by rw [hlast]; rfl)
  refine hafter.bind fun s₂ _ hadd₂ => ?_
  have h₂ := fun hnot => (h₁ hnot).addSome (ho hnot) (fun c => (hs hnot).allows_after) hadd₂
  exact add_follows hN how ho h₂ fun hnot => (hq hnot).allows _ _

end Free

section Resize

variable {p : Profile} {N : Prop} (hN : N → p = .dev) {w o : TableOps} (how : OpsFollow p N w o)
  (ho : ¬N → Keeps (inWord p) o) {pg : BPage} {s : PhysAlloc} {q : OwnedPtr}

theorem tableBytes_grownMax_le (pg : BPage) (h : Ready p s) : tableBytes pg s.grownMax ≤ 2 ^ 62 + 2 ^ 17 := by
  have hmax := h.entries
  have hbase := h.base_le
  have hgrown : s.grownMax = 2 * s.max := grownMax_eq (le_trans (by decide) hbase)
  have hpage := pg.size_le
  rw [tableBytes, UnixKernel.sizeAlign]
  split_ifs with hlt
  · have hpow : nextPowerOfTwo (s.grownMax * ramBlockSize) ≤ 2 ^ 16 := nextPowerOfTwo_le (by omega)
    omega
  · have hup := alignUp_lt (s.grownMax * ramBlockSize) pg.size_pos
    rw [hgrown, ramBlockSize] at hup ⊢
    rw [ramBlockSize] at hmax
    omega

theorem fits_tableParams (pg : BPage) (h : Ready p s) : Fits pg (AllocParams.new pg (s.grownMax * ramBlockSize)) := by
  have hbytes := tableBytes_grownMax_le pg h
  have hpage := pg.size_le
  rw [tableBytes] at hbytes
  refine ⟨?_, fun addr haddr => (by cases haddr)⟩
  simp only [AllocParams.new]
  omega

/-- The request for the storage that has been found. -/
theorem fits_storage (h : Ready p s) {r : OwnedPtr} (hpick : s.pick pg s.grownMax q = some r) :
    Fits pg ((tableParams pg s.grownMax).atAddr r.addr) := by
  have hbytes := tableBytes_grownMax_le pg h
  have hpage := pg.size_le
  have hfin := (ready_of_sealed (sealed_extended h.within h.base_le hpick)).ptr_fin_le
  obtain ⟨haligned, hsize, -⟩ := pick_spec hpick
  have hidem : UnixKernel.sizeAlign pg ((tableParams pg s.grownMax).atAddr r.addr).size = tableBytes pg s.grownMax :=
    sizeAlign_idem pg _
  refine ⟨?_, fun addr haddr => ?_⟩
  · rw [hidem]
    change 2 ^ 60 + pg.size + _ ≤ _
    omega
  · cases haddr
    rw [hidem]
    change UnixKernel.alignUp r.addr pg.size + _ + _ ≤ _
    rw [alignUp_of_dvd haligned, ← hsize]
    change r.addr + r.size ≤ _ at hfin
    omega

include hN how ho

theorem expand_follows (hs : ¬N → Ready p s) (hfull : s.max < s.count + minReq)
    (hq : ¬N → q.fin + 2 ^ 16 ≤ 2 ^ 64) :
    Follows .panic N (expand p w pg s s.grownMax q) (PhysAlloc.expand pg o s s.grownMax q) := by
  have hpage := pg.size_le
  rw [expand, PhysAlloc.expand]
  refine Follows.ite (fun _ => .refl _) fun hgrow => ?_
  have hfits := fun hnot => fits_tableParams pg (hs hnot)
  have hbytes : Follows .panic N (usize p (s.grownMax * ramBlockSize : Nat)) (.ok (s.grownMax * ramBlockSize)) :=
    usize_follows hN fun hnot => by
      have := le_sizeAlign pg (s.grownMax * ramBlockSize)
      have hle := tableBytes_grownMax_le pg (hs hnot)
      rw [tableBytes] at hle
      omega
  have hbehind : ∀ {align}, 0 < align → align ≤ 2 ^ 16 →
      Follows .panic N (alignUp p q.fin align) (.ok (UnixKernel.alignUp q.fin align)) :=
    fun hpos hle => alignUp_follows hN fun hnot => by
      have := alignUp_lt q.fin hpos
      have := hq hnot
      omega
  refine hbytes.step fun _ => (build_follows hN hfits).step fun _ => (ptrEnd_follows hN fun hnot => ?_).step fun _ =>
    (hbehind pg.size_pos hpage).step fun _ => ?_
  · have := hq hnot
    omega
  have hup : ∀ b ∈ s.blocks, 0 < b.size →
      Follows .panic N (alignUp p b.addr pg.size) (.ok (UnixKernel.alignUp b.addr pg.size)) :=
    fun b hb hb' => alignUp_follows hN fun hnot => by
      have := alignUp_add_lt (hfits hnot) ((hs hnot).fin_le hb hb')
      simp only [AllocParams.new] at this
      omega
  have hend : ∀ b ∈ s.blocks, 0 < b.size → Follows .panic N (blockEnd p b) (.ok b.fin) :=
    fun b hb hb' => blockEnd_follows hN fun hnot => ((hs hnot).fin_le hb hb').trans_lt (by decide)
  refine (find_follows (g := fun block => !block.used && (block.ty = (tableParams pg s.grownMax).fromType &&
    fitsClear q (tableParams pg s.grownMax).align (tableParams pg s.grownMax).size block)) hs
    fun b hb hb' => ?_).step fun _ => ?_
  · refine (hup b hb hb').step fun _ => (usize_follows hN fun hnot => ?_).step fun _ =>
      (hend b hb hb').step fun _ => .refl _
    exact alignUp_add_lt (hfits hnot) ((hs hnot).fin_le hb hb')
  cases hfind : s.find fun block => !block.used && (block.ty = (tableParams pg s.grownMax).fromType &&
      fitsClear q (tableParams pg s.grownMax).align (tableParams pg s.grownMax).size block) with
  | none =>
      simp only [hfind]
      exact .refl _
  | some r =>
      obtain ⟨i, block⟩ := r
      obtain ⟨hget, hb', -⟩ := find_eq_some hfind
      have hb := List.mem_of_getElem? hget
      have hpick : s.pick pg s.grownMax q = some (newStorage q pg.size (tableBytes pg s.grownMax) block) := by
        rw [PhysAlloc.pick, hfind]
        rfl
      have hext := fun hnot => sealed_extended (hs hnot).within (hs hnot).base_le hpick
      simp only [hfind]
      refine (hup block hb hb').step fun _ => (hend block hb hb').step fun _ => ?_
      refine (Follows.ensure fun hnot => (hext hnot).shape.checked).step fun _ => ?_
      refine (alloc_follows hN how ho hext fun hnot => fits_storage (hs hnot) hpick).bind fun r _ halloc => ?_
      obtain ⟨r, s₃⟩ := r
      cases r with
      | none => exact .refl _
      | some ptr =>
          have h₃ := fun hnot => sealed_relocated (hs hnot).within (hs hnot).base_le hpick (ho hnot) hfull halloc
          refine (free_follows hN how ho h₃ (fun hnot => (hs hnot).storage) fun hnot => ?_).bind fun s₄ _ _ => .refl _
          exact (hs hnot).ptr_fin_le.trans_lt (by decide)

omit how ho in
/-- `shrink` up to its call of `free`. -/
theorem shrinkTo_follows (hs : ¬N → Sealed (inWord p) s) :
    Follows .panic N (shrink p w .size4kiB s (Nat.max (s.max >>> 1) baseRbSize)) (do
      let (s, freed) ← shrinkTo .size4kiB s (Nat.max (s.max >>> 1) baseRbSize)
      match freed with
      | some q => free p w s q
      | none => pure s) := by
  have hready : ¬N → Ready p s := fun hnot => ready_of_sealed (hs hnot)
  set newMax := Nat.max (s.max >>> 1) baseRbSize with hnew
  rw [shrink, shrinkTo]
  by_cases hmax : newMax ≥ s.max
  · rw [if_pos hmax, if_pos (by simp [hmax])]
    exact .refl _
  rw [if_neg hmax]
  refine (count_follows hready).step fun _ => ?_
  by_cases hrefused : (newMax < s.count || newMax < minReq) = true
  · rw [if_pos hrefused, if_pos (by rw [Bool.or_assoc, hrefused, Bool.or_true])]
    exact .refl _
  rw [if_neg hrefused, if_neg (by rw [Bool.or_assoc, Bool.not_eq_true _ |>.mp hrefused]; simpa using hmax)]
  generalize hcompact : compact (s.blocks.take newMax) (s.blocks.drop newMax).reverse = r
  obtain ⟨kept, freedRev, done⟩ := r
  cases done with
  | false => exact .refl _
  | true =>
      simp only [Bool.not_true, Bool.false_eq_true, if_false]
      have hhalf : ¬N → UnixKernel.sizeAlign .size4kiB (newMax * ramBlockSize) ≤ s.ptr.size := fun hnot =>
        (hs hnot).shape.half_le.resolve_left fun hle => hmax (hle.trans (Nat.le_max_right _ _))
      have hfin := fun hnot => (hready hnot).ptr_fin_le
      have hbytes := le_sizeAlign .size4kiB (newMax * ramBlockSize)
      have hup := alignUp_lt (s.ptr.addr + UnixKernel.sizeAlign .size4kiB (newMax * ramBlockSize))
        BPage.size4kiB.size_pos
      simp only [OwnedPtr.fin] at hfin
      rw [BPage.size_size4kiB] at hup
      refine (usize_follows hN fun hnot => ?_).step fun _ => (sizeAlign_follows hN fun hnot => ?_).step fun _ =>
        (usize_follows hN fun hnot => ?_).step fun _ => (alignUp_follows hN fun hnot => ?_).step fun _ => ?_
      · have := hhalf hnot
        have := hfin hnot
        omega
      · have := hhalf hnot
        have := hfin hnot
        omega
      · have := hhalf hnot
        have := hfin hnot
        omega
      · have := hhalf hnot
        have := hfin hnot
        rw [BPage.size_size4kiB]
        omega
      by_cases hshort : s.ptr.size < UnixKernel.sizeAlign .size4kiB (newMax * ramBlockSize)
      · -- an underflow, which stops both
        have hdev : p = .dev := hN (not_not.mp fun hnot => Nat.not_lt.mpr (hhalf hnot) hshort)
        subst hdev
        rw [usize, Profile.fit_dev_sub_of_lt hshort, if_pos hshort]
        exact .refl _
      · rw [if_neg hshort]
        refine (usize_sub_follows hN fun hnot => ⟨Nat.le_of_not_lt hshort, ?_⟩).step fun _ => ?_
        · have := hfin hnot
          omega
        · split_ifs <;> exact .refl _

theorem shrink_follows (hs : ¬N → Sealed (inWord p) s) :
    Follows .panic N (shrink p w .size4kiB s (Nat.max (s.max >>> 1) baseRbSize))
      (PhysAlloc.shrink .size4kiB o s (Nat.max (s.max >>> 1) baseRbSize)) := by
  rw [shrink_eq_shrinkTo]
  refine (shrinkTo_follows hN hs).trans (Follows.bind (.refl _) fun r _ hto => ?_)
  obtain ⟨s₁, freed⟩ := r
  cases freed with
  | none => exact .refl _
  | some q =>
      have h₁ := fun hnot => (hs hnot).shrinkTo hto
      refine free_follows hN how ho (fun hnot => (h₁ hnot).1) (fun hnot => ((h₁ hnot).2 q rfl).2) fun hnot => ?_
      obtain ⟨hpos, hopen⟩ := (h₁ hnot).2 q rfl
      exact (fin_le_of_open hopen hpos).trans_lt (by decide)

end Resize

theorem tableOps_follow {p : Profile} {N : Prop} (hN : N → p = .dev) (depth : Nat) :
    OpsFollow p N (tableOps p .size4kiB depth) (PhysAlloc.tableOps .size4kiB depth) := by
  induction depth with
  | zero => exact ⟨fun _ _ _ => .refl _, fun _ => .refl _⟩
  | succ depth ih =>
      have ho : ¬N → Keeps (inWord p) (PhysAlloc.tableOps .size4kiB depth) := fun _ => keeps_tableOps _ depth
      exact ⟨fun hs hfull hq => expand_follows hN ih ho (fun hnot => ready_of_sealed (hs hnot)) hfull hq,
        fun hs => shrink_follows hN ih ho hs⟩


/-! ### Other calls -/

section Calls

variable {p : Profile} {N : Prop} (hN : N → p = .dev) {w o : TableOps} (how : OpsFollow p N w o)
  (ho : ¬N → Keeps (inWord p) o) {pg : BPage} {s : PhysAlloc}

include hN how ho

theorem reclaimLoop_follows (fuel : Nat) (hs : ¬N → Sealed (inWord p) s) :
    Follows .panic N (reclaimLoop p w fuel s) (PhysAlloc.reclaimLoop o fuel s) := by
  induction fuel generalizing s with
  | zero => exact .refl _
  | succ fuel ih =>
      rw [reclaimLoop, PhysAlloc.reclaimLoop]
      refine (find_follows (g := fun blk => blk.ty = .reclaimable) (fun hnot => ready_of_sealed (hs hnot))
        fun _ _ _ => .refl _).step fun _ => ?_
      cases hfind : s.find fun blk => blk.ty = .reclaimable with
      | none => exact .refl _
      | some r =>
          obtain ⟨i, blk⟩ := r
          obtain ⟨hget, -, hty⟩ := find_eq_some hfind
          have h₀ := fun hnot => (hs hnot).invalidate hget
          have hty' : blk.ty ≠ .reserved := by
            rw [of_decide_eq_true hty]
            exact RAMType.noConfusion
          have hopen : ¬N → (inWord p).Open blk.intoOwnedPtr := fun hnot =>
            ((hs hnot).allows (List.mem_of_getElem? hget)).isOpen hty' (le_refl _) (le_refl _)
          have hnb : ¬N → (inWord p).Allows ⟨blk.addr, blk.size, .conv, false⟩ := fun hnot => (hopen hnot).allows _ _
          refine (add_follows hN how ho h₀ hnb).bind fun s₁ _ hadd => ?_
          exact ih fun hnot => (h₀ hnot).add (ho hnot) (hnb hnot) hadd

theorem reclaim_follows (hs : ¬N → Sealed (inWord p) s) :
    Follows .panic N (reclaim p w s) (PhysAlloc.reclaim o s) := reclaimLoop_follows hN how ho _ hs

end Calls

/-! ### Well-formed tables -/

/-- The blocks of the table lie below `2 ^ 60`. -/
def Bounded (s : PhysAlloc) : Prop := ∀ b ∈ s.blocks, b.valid → b.fin ≤ 2 ^ 60

instance (s : PhysAlloc) : Decidable (Bounded s) := inferInstanceAs (Decidable (∀ b ∈ s.blocks, b.valid → _))

/-- No block of the table starts at address zero. -/
def NonNull (s : PhysAlloc) : Prop := ∀ b ∈ s.blocks, b.valid → b.addr ≠ 0

instance (s : PhysAlloc) : Decidable (NonNull s) := inferInstanceAs (Decidable (∀ b ∈ s.blocks, b.valid → _))

theorem shape_of_storage {p : Profile} {pg : BPage} {s : PhysAlloc} (h : Storage pg s)
    (hchecked : p = .dev → s.ptr.addr ≠ 0) : Shape p s.ptr s.max := by
  have haligned := (page_dvd_size pg).trans h.aligned
  exact ⟨h.base_le_max, Or.inr haligned, fun hdev => ⟨hchecked hdev, Nat.dvd_trans (by decide) haligned⟩,
    h.ptr_size_pos, Or.inr (h.size_eq ▸ tableBytes_half_le h.base_le_max)⟩

theorem may_of_bounded {p : Profile} {s : PhysAlloc} (hs : Bounded s) (h0 : p = .dev → NonNull s) {b : RAMBlock}
    (hb : b ∈ s.blocks) : (inWord p).Allows b := by
  intro x hx
  rw [RAMBlock.holds_iff] at hx
  have hvalid : b.valid = true := RAMBlock.valid_iff.mpr (by omega)
  have hfin := hs b hb hvalid
  refine ⟨?_, fun hdev => ?_⟩
  · simp only [RAMBlock.fin] at hfin
    omega
  · have := h0 hdev b hb hvalid
    omega

theorem sealed_of_wellFormed {p : Profile} {pg : BPage} {s : PhysAlloc} (hwf : WellFormed pg s) (hs : Bounded s)
    (h0 : p = .dev → NonNull s) : Sealed (inWord p) s := by
  have hmay : ∀ x, ∀ t ∈ s.den x, (inWord p).may x t.1 := by
    intro x t ht
    obtain ⟨b, hb, hx, rfl⟩ := mem_den.mp ht
    exact may_of_bounded hs h0 (Multiset.mem_coe.mp hb) x hx
  have hopen : (inWord p).Open s.ptr := by
    intro x hx ty
    have hmem : (RAMType.conv, true) ∈ s.den x := by
      rw [hwf.tableOk.used x hx]
      exact Multiset.mem_singleton_self _
    exact hmay x _ hmem
  refine ⟨hmay, hopen, shape_of_storage hwf.toStorage fun hdev => ?_⟩
  have hpos := hwf.ptr_size_pos
  exact (hopen s.ptr.addr (OwnedPtr.holds_iff.mpr (by omega)) .conv).2 hdev

/-! ### `alloc` -/

/-- Where a development build may panic: a sum of the call may leave the word, or there is memory at address zero. -/
def MayStop (p : Profile) (pg : BPage) (s : PhysAlloc) (args : AllocParams) : Prop :=
  p = .dev ∧ ¬(Bounded s ∧ NonNull s ∧ Fits pg args)

theorem small_of_not_mayStop {p : Profile} {pg : BPage} {s : PhysAlloc} {args : AllocParams}
    (hbounded : p = .release → Bounded s) (hfits : p = .release → Fits pg args) (hnot : ¬MayStop p pg s args) :
    Bounded s ∧ (p = .dev → NonNull s) ∧ Fits pg args := by
  cases p with
  | dev =>
      obtain ⟨hs, h0, ha⟩ := not_not.mp fun h => hnot ⟨rfl, h⟩
      exact ⟨hs, fun _ => h0, ha⟩
  | release => exact ⟨hbounded rfl, fun h => Profile.noConfusion h, hfits rfl⟩

/-- A call of `alloc` is exact and leaves a well-formed allocator. The range it hands out has the size, the alignment
and the address asked for and gets the type and the flag asked for; it was free memory, except that a call that names
an address and moves the table may be given bytes of the storage the table has just left. A development build that
does not return has met a sum outside the word, or memory at address zero. -/
theorem alloc_exact {p : Profile} {s : PhysAlloc} (args : AllocParams) (hwf : WellFormed .size4kiB s)
    (hbounded : p = .release → Bounded s) (hfits : p = .release → Fits .size4kiB args) :
    ∃ r s', (∀ n, alloc p (tableOps p .size4kiB (n + 2)) .size4kiB s args = .ok (r, s') ∨
        MayStop p .size4kiB s args ∧
          alloc p (tableOps p .size4kiB (n + 2)) .size4kiB s args = .error .panic) ∧
      WellFormed .size4kiB s' ∧
      (∀ q, r = some q →
        q.size = UnixKernel.sizeAlign .size4kiB args.size ∧ args.align ∣ q.addr ∧
        (∀ addr, args.addr = some addr → q.addr = UnixKernel.alignUp addr args.align) ∧
        (∀ x, Holds q x → s.alpha x = some (args.fromType, false) ∨
          Holds s.ptr x ∧ args.fromType = .conv ∧ args.addr ≠ none ∧ s.max < s.count + minReq) ∧
        (∀ x, Holds q x → s'.alpha x = some (args.asType, args.used)) ∧
        (∀ x, Holds s'.ptr x → ¬Holds q x ∧ s'.alpha x = some (.conv, true)) ∧
        (∀ x, Holds s.ptr x → ¬Holds s'.ptr x → ¬Holds q x → s'.alpha x = some (.conv, false)) ∧
        (∀ x, ¬Holds q x → ¬Holds s.ptr x → ¬Holds s'.ptr x → s'.alpha x = s.alpha x)) ∧
      (r = none → ∀ x, ¬Holds s.ptr x → ¬Holds s'.ptr x → s'.alpha x = s.alpha x) := by
  obtain ⟨r, s', hout, halloc⟩ := alloc_spec args hwf.tableOk (Or.inl rfl) (Or.inl rfl) hwf.sole
  refine ⟨r, s', fun n => ?_, hout.wellFormed hwf, ?_⟩
  · have hsmall := fun hnot => small_of_not_mayStop hbounded hfits hnot
    exact (alloc_follows And.left (tableOps_follow And.left (n + 2)) (fun _ => keeps_tableOps _ _)
      (fun hnot => sealed_of_wellFormed hwf (hsmall hnot).1 (hsmall hnot).2.1) fun hnot => (hsmall hnot).2.2).ok_or
        (halloc n)
  cases hout with
  | refused => exact ⟨fun _ hq => (by cases hq), fun _ x _ _ => rfl⟩
  | grown hreq hprep =>
      exact ⟨fun _ hq => (by cases hq),
        fun _ x hx hx' => alpha_congr_of_view (hwf.sole x) (hprep.view_eq x) hx hx'⟩
  | @taken q s₁ _ hreq hprep htaken =>
      have hwf' := htaken.wellFormed (hprep.wellFormed hwf)
      have hclear : ∀ x, Holds q x → ¬Holds s'.ptr x := fun x hx hx' =>
        htaken.not_holds (hprep.tableOk hwf.tableOk) hx (htaken.holds_of_holds hx')
      have hview : ∀ x, ¬Holds q x → s'.view x = s.view x := fun x hx => by
        rw [htaken.view_eq, if_neg hx, hprep.view_eq]
      refine ⟨fun q' hq => ?_, fun h => by cases h⟩
      cases hq
      refine ⟨requested_size hreq, requested_aligned hreq, fun addr haddr => requested_addr haddr hreq,
        fun x hx => htaken.was_free_or_storage hwf hreq hprep hx, fun x hx => ?_,
        fun x hx => ⟨fun hq => hclear x hq hx, hwf'.storage_used x hx⟩, fun x hxt hx' hx => ?_,
        fun x hx hxt hx' => alpha_congr_of_view (hwf.sole x) (hview x hx) hxt hx'⟩
      · rw [alpha_eq_some_iff (hwf'.sole x), ← view_of_not_holds (hclear x hx), htaken.view_eq, if_pos hx]
      · rw [alpha_eq_some_iff (hwf'.sole x), ← view_of_not_holds hx', hview x hx, view_of_holds hxt]

/-- A request in a table that grows on the way, in a release build. -/
theorem alloc_exact_crowded : ∃ s',
    (∀ n, alloc .release (tableOps .release .size4kiB (n + 2)) .size4kiB crowded (AllocParams.new .size4kiB 0x1800) =
      .ok (some ⟨0x300000, 0x2000⟩, s')) ∧ WellFormed .size4kiB s' ∧
      (∀ x, Holds (⟨0x300000, 0x2000⟩ : OwnedPtr) x → s'.alpha x = some (.conv, true)) ∧
      ∀ x, Holds s'.ptr x → ¬Holds (⟨0x300000, 0x2000⟩ : OwnedPtr) x := by
  have hfits : Fits .size4kiB (AllocParams.new .size4kiB 0x1800) := ⟨by decide, fun _ haddr => by cases haddr⟩
  obtain ⟨r, s', halloc, hwf, hsome, -⟩ :=
    alloc_exact (p := .release) (AllocParams.new .size4kiB 0x1800) crowded_wellFormed (fun _ => by decide +kernel)
      fun _ => hfits
  have halloc' := fun n => (halloc n).resolve_right fun hstop => Profile.noConfusion hstop.1.1
  have hfst : (alloc .release (tableOps .release .size4kiB 2) .size4kiB crowded
      (AllocParams.new .size4kiB 0x1800)).map Prod.fst = .ok (some ⟨0x300000, 0x2000⟩) := by decide +kernel
  rw [halloc' 0] at hfst
  cases hfst
  obtain ⟨-, -, -, -, hnew, hstorage, -, -⟩ := hsome _ rfl
  exact ⟨s', halloc', hwf, hnew, fun x hx => (hstorage x hx).1⟩

/-- A request for the address of the table itself is granted when the call moves the table: the bytes
handed out were used before the call. -/
theorem alloc_of_left_storage : WellFormed .size4kiB crowded ∧ Bounded crowded ∧
    (∀ p, (alloc p (tableOps p .size4kiB 2) .size4kiB crowded
      ((AllocParams.new .size4kiB 0x1000).atAddr 0x102000)).map Prod.fst = .ok (some ⟨0x102000, 0x1000⟩)) ∧
    crowded.alpha 0x102000 = some (.conv, true) := by
  refine ⟨crowded_wellFormed, by decide +kernel, fun p => ?_, by decide +kernel⟩
  cases p <;> decide +kernel

end PhysWord

end UnixKernel
