import UnixKernel.GlacierLock
import UnixKernel.GlacierSpan

/-! The guard pages of kernel stacks. `KernelStack::new` takes the first page of a buffer of the heap out of the tables,
and `drop` maps it again, without looking at the result of `map_page`. While the stack lives its leaf table is kept by
the pages behind the guard page, so that no table is missing when it is dropped. -/

namespace UnixKernel

open Runs

namespace KernelStack

open Glacier

section Model

variable (cfg : RvmCfg) (arch : Arch) (g : Glacier)

/-- `KernelStack::new` with the buffer at `va`. -/
def take (va : Word) (r : Ram) : Option KernelStack × Ram :=
  match getPa cfg g va r with
  | some pa => (some ⟨va, pa⟩, unmapPage cfg g va r)
  | none => (none, r)

/-- `Drop` of `KernelStack`, with the answers of `PHYS_ALLOC`. The source drops the result of the call. -/
def drop (answers : List (Option Word)) (k : KernelStack) (r : Ram) : Except GlacierErr Unit × Ram :=
  mapPage cfg arch g k.buf k.pa (arch.mapFlag .kRwo) answers r

/-- The pages of the stack itself. -/
def stackPages : Nat := kernelStackSize cfg.psz / cfg.psz.size

/-- The address of a page of the buffer at `va`; the first one is the guard page. -/
def page (va : Word) (j : Nat) : Word := va + BitVec.ofNat 64 (j * cfg.psz.size)

/-- `KernelStack::top`, the end of the buffer. -/
def top (k : KernelStack) : Word := k.buf + BitVec.ofNat 64 cfg.psz.size + BitVec.ofNat 64 (kernelStackSize cfg.psz)

/-- The tables, and the stacks that were made and not dropped. -/
structure Machine where
  ram : Ram
  live : List KernelStack

/-- `new` and `drop`, and whatever else the kernel does to its tables. -/
inductive Call where
  | new (va : Word)
  | drop (k : KernelStack) (answers : List (Option Word))
  | other (ram : Ram)

/-- A stack has one owner, so that only a live one is dropped. -/
def step (s : Machine) : Call → Machine
  | .new va => ⟨(take cfg g va s.ram).2, (take cfg g va s.ram).1.toList ++ s.live⟩
  | .drop k answers =>
    if k ∈ s.live then ⟨(drop cfg arch g answers k s.ram).2, s.live.filter (· ≠ k)⟩ else s
  | .other ram => { s with ram }

/-- No page of one buffer is a page of the other. -/
def Separate (va va' : Word) : Prop :=
  ∀ i ≤ stackPages cfg, ∀ j ≤ stackPages cfg, ¬Agree cfg cfg.depth (page cfg va i) (page cfg va' j)

instance (va va' : Word) : Decidable (Separate cfg va va') := inferInstanceAs (Decidable (∀ i ≤ _, ∀ j ≤ _, _))

/-- A buffer of the heap: all of it is mapped, readable and writable, and no part of it has been given to another stack.
The guard page is not the last page of its leaf table. -/
structure Buffer (s : Machine) (va : Word) : Prop where
  aligned : Aligned cfg va
  half : InHalf cfg va.toNat ((stackPages cfg + 1) * cfg.psz.size)
  inner : cfg.index 0 va + 1 < cfg.width 0
  mapped : ∀ j ≤ stackPages cfg, (walk cfg s.ram.mem g.rootTable (page cfg va j)).isSome
  rwo : ∀ word ∈ walk cfg s.ram.mem g.rootTable va, word &&& cfg.psz.addrMask ||| arch.mapFlag .kRwo = word
  separate : ∀ k ∈ s.live, Separate cfg va k.buf

/-- A stack is made in a buffer of its own, and no one else maps or unmaps pages of live stacks. -/
def Allowed (s : Machine) : Call → Prop
  | .new va => Buffer cfg arch g s va
  | .drop _ _ => True
  | .other ram => WellFormed cfg ram.mem g.rootTable ∧ ∀ k ∈ s.live, ∀ j ≤ stackPages cfg,
      walk cfg ram.mem g.rootTable (page cfg k.buf j) = walk cfg s.ram.mem g.rootTable (page cfg k.buf j)

/-- No one else changes the translation of the address. -/
def LeavesAt (va : Word) (s : Machine) : Call → Prop
  | .other ram => walk cfg ram.mem g.rootTable va = walk cfg s.ram.mem g.rootTable va
  | _ => True

/-- The leaf word that `drop` writes. -/
def leaf (k : KernelStack) : Word := k.pa &&& cfg.psz.addrMask ||| arch.mapFlag .kRwo

/-- A live stack: its guard page is not mapped, its other pages are. -/
structure StackOk (m : Mem) (k : KernelStack) : Prop where
  aligned : Aligned cfg k.buf
  half : InHalf cfg k.buf.toNat ((stackPages cfg + 1) * cfg.psz.size)
  inner : cfg.index 0 k.buf + 1 < cfg.width 0
  guard : walk cfg m g.rootTable k.buf = none
  stack : ∀ j, 1 ≤ j → j ≤ stackPages cfg → (walk cfg m g.rootTable (page cfg k.buf j)).isSome

structure Guarded (s : Machine) : Prop where
  wf : WellFormed cfg s.ram.mem g.rootTable
  each : ∀ k ∈ s.live, StackOk cfg g s.ram.mem k
  separate : s.live.Pairwise fun k k' => Separate cfg k.buf k'.buf

/-- The address had the leaf word `word` before guard pages were taken out of the tables. -/
structure Overlaid (va : Word) (word : Option Word) (s : Machine) : Prop where
  on : ∀ k ∈ s.live, Agree cfg cfg.depth k.buf va → word = some (leaf cfg arch k)
  off : (∀ k ∈ s.live, ¬Agree cfg cfg.depth k.buf va) → walk cfg s.ram.mem g.rootTable va = word

end Model

variable {cfg : RvmCfg} {arch : Arch} {g : Glacier} {s : Machine} {va : Word} {k : KernelStack}

/-- `KernelStack::new` under the lock does to the tables what `take` does. -/
theorem takeGuardPage_eq (s : LockState) : GlacierLock.takeGuardPage cfg g va s =
    (.ok (take cfg g va s.heap.ram).1, { s with heap := { s.heap with ram := (take cfg g va s.heap.ram).2 } }) := by
  unfold GlacierLock.takeGuardPage take
  cases getPa cfg g va s.heap.ram <;> rfl

/-! ### The pages of a buffer -/

@[simp] theorem page_zero (va : Word) : page cfg va 0 = va := by simp [page]

theorem one_le_stackPages : 1 ≤ stackPages cfg := by
  rw [stackPages, Nat.le_div_iff_mul_le cfg.psz.size_pos, Nat.one_mul]
  exact Nat.le_max_left _ _

theorem buffer_size (cfg : RvmCfg) : (stackPages cfg + 1) * cfg.psz.size = kernelStackSize cfg.psz + cfg.psz.size := by
  have hdiv : kernelStackSize cfg.psz / cfg.psz.size * cfg.psz.size = kernelStackSize cfg.psz := by
    cases cfg.psz <;> decide
  rw [stackPages, Nat.add_mul, Nat.one_mul, hdiv]

theorem top_sub (k : KernelStack) {off : Nat} (h : off < kernelStackSize cfg.psz + cfg.psz.size) :
    top cfg k - BitVec.ofNat 64 (off + 1) =
      k.buf + BitVec.ofNat 64 (kernelStackSize cfg.psz + cfg.psz.size - (off + 1)) := by
  have hsplit : cfg.psz.size + kernelStackSize cfg.psz =
      kernelStackSize cfg.psz + cfg.psz.size - (off + 1) + (off + 1) := by omega
  calc top cfg k - BitVec.ofNat 64 (off + 1)
      = k.buf + BitVec.ofNat 64 (cfg.psz.size + kernelStackSize cfg.psz) - BitVec.ofNat 64 (off + 1) := by
        rw [top, BitVec.add_assoc, ← BitVec.ofNat_add]
    _ = k.buf + BitVec.ofNat 64 (kernelStackSize cfg.psz + cfg.psz.size - (off + 1)) + BitVec.ofNat 64 (off + 1) -
          BitVec.ofNat 64 (off + 1) := by
        rw [hsplit, BitVec.ofNat_add _ (off + 1), BitVec.add_assoc]
    _ = k.buf + BitVec.ofNat 64 (kernelStackSize cfg.psz + cfg.psz.size - (off + 1)) := BitVec.add_sub_cancel _ _

theorem add_ofNat (va : Word) (off : Nat) : va + BitVec.ofNat 64 off = BitVec.ofNat 64 (va.toNat + off) := by
  rw [BitVec.ofNat_add, BitVec.ofNat_toNat, BitVec.setWidth_eq]

section Buffer

variable (hhalf : InHalf cfg va.toNat ((stackPages cfg + 1) * cfg.psz.size)) {j : Nat} (hj : j ≤ stackPages cfg)

include hhalf

theorem canonical_buf : cfg.Canonical va := by
  have hcanon := hhalf.canonical (Nat.mul_pos (Nat.succ_pos _) cfg.psz.size_pos)
  rwa [Nat.add_zero, BitVec.ofNat_toNat, BitVec.setWidth_eq] at hcanon

include hj

theorem canonical_page : cfg.Canonical (page cfg va j) := by
  rw [page, add_ofNat]
  exact hhalf.canonical (Nat.mul_lt_mul_of_pos_right (Nat.lt_succ_of_le hj) cfg.psz.size_pos)

theorem page_div : (page cfg va j).toNat / cfg.psz.size = va.toNat / cfg.psz.size + j := by
  have hle := hhalf.le
  have hlt : j * cfg.psz.size < (stackPages cfg + 1) * cfg.psz.size :=
    Nat.mul_lt_mul_of_pos_right (Nat.lt_succ_of_le hj) cfg.psz.size_pos
  rw [page, add_ofNat, toNat_ofNat_lt (by omega), Nat.add_mul_div_right _ _ cfg.psz.size_pos]

theorem not_agree_page (hpos : 1 ≤ j) : ¬Agree cfg cfg.depth va (page cfg va j) := by
  rw [← samePage_iff_agree (canonical_buf hhalf) (canonical_page hhalf hj), RvmCfg.samePage_iff_div,
    page_div hhalf hj]
  omega

omit hj

theorem pageNo_next : cfg.pageNo (page cfg va 1) = cfg.pageNo va + 1 := by
  have hdiv := page_div hhalf one_le_stackPages
  rcases cfg.div_size_eq (canonical_buf hhalf) with ⟨hlt, heq⟩ | ⟨hle, heq⟩ <;>
    rcases cfg.div_size_eq (canonical_page hhalf one_le_stackPages) with ⟨hlt', heq'⟩ | ⟨hle', heq'⟩ <;> omega

theorem index_next (hinner : cfg.index 0 va + 1 < cfg.width 0) {i : Nat} (hpos : 1 ≤ i) (hi : i ≤ cfg.depth) :
    cfg.index i va = cfg.index i (page cfg va 1) := by
  have hzero := cfg.index_eq_digit (Nat.zero_le _) va
  rw [Nat.pow_zero, Nat.div_one] at hzero
  rw [hzero, cfg.width_of_lt (by omega)] at hinner
  rw [cfg.index_eq_digit hi, cfg.index_eq_digit hi, pageNo_next hhalf]
  obtain ⟨n, rfl⟩ := Nat.exists_eq_add_of_le' hpos
  -- no carry out of the last digit
  have hcarry : (cfg.pageNo va + 1) / 2 ^ cfg.psz.indexBits = cfg.pageNo va / 2 ^ cfg.psz.indexBits := by
    rw [Nat.add_div (Nat.two_pow_pos _), Nat.mod_eq_of_lt (a := 1) (by omega), if_neg (by omega),
      Nat.div_eq_of_lt (a := 1) (by omega)]
    rfl
  rw [Nat.pow_succ', ← Nat.div_div_eq_div_mul, ← Nat.div_div_eq_div_mul, hcarry]

end Buffer

/-! ### A live stack -/

namespace StackOk

variable {r : Ram} {m m' : Mem}

theorem walk_byte (h : StackOk cfg g m k) {off : Nat} (hoff : off < (stackPages cfg + 1) * cfg.psz.size) :
    walk cfg m g.rootTable (k.buf + BitVec.ofNat 64 off) =
      walk cfg m g.rootTable (page cfg k.buf (off / cfg.psz.size)) := by
  have hle := h.half.le
  have hbuf := cfg.psz.toNat_and_addrMask k.buf
  rw [h.aligned] at hbuf
  have hpage := page_div h.half (Nat.lt_succ_iff.mp (Nat.div_lt_of_lt_mul (Nat.mul_comm _ _ ▸ hoff)))
  have hsame : cfg.SamePage (k.buf + BitVec.ofNat 64 off) (page cfg k.buf (off / cfg.psz.size)) := by
    rw [RvmCfg.samePage_iff_div, hpage, add_ofNat, toNat_ofNat_lt (by omega)]
    nth_rewrite 1 [hbuf]
    rw [Nat.mul_comm, Nat.mul_add_div cfg.psz.size_pos]
  refine walkFrom_agree fun i hi => ?_
  rw [← cfg.index_and_addrMask hi, hsame, cfg.index_and_addrMask hi]

theorem below_top (h : StackOk cfg g m k) {off : Nat} (hoff : off < kernelStackSize cfg.psz + cfg.psz.size) :
    (walk cfg m g.rootTable (top cfg k - BitVec.ofNat 64 (off + 1))).isSome ↔ off < kernelStackSize cfg.psz := by
  have hsize := buffer_size cfg
  rw [top_sub k hoff, h.walk_byte (by omega)]
  by_cases hin : off < kernelStackSize cfg.psz
  · refine iff_of_true (h.stack _ ?_ ?_) hin
    · exact (Nat.le_div_iff_mul_le cfg.psz.size_pos).mpr (by omega)
    · exact Nat.lt_succ_iff.mp (Nat.div_lt_of_lt_mul (by rw [Nat.mul_comm, hsize]; omega))
  · rw [Nat.div_eq_of_lt (by omega), page_zero, h.guard]
    exact iff_of_false Bool.false_ne_true hin

theorem congr (h : StackOk cfg g m k) (hwalk : ∀ j ≤ stackPages cfg,
    walk cfg m' g.rootTable (page cfg k.buf j) = walk cfg m g.rootTable (page cfg k.buf j)) : StackOk cfg g m' k where
  aligned := h.aligned
  half := h.half
  inner := h.inner
  guard := by
    have hzero := hwalk 0 (Nat.zero_le _)
    rw [page_zero] at hzero
    rw [hzero, h.guard]
  stack j hpos hj := by
    rw [hwalk j hj]
    exact h.stack j hpos hj

/-- Whatever `PHYS_ALLOC` answers, the drop of a live stack maps its guard page again and changes nothing else. -/
theorem drop_spec (h : StackOk cfg g r.mem k) (hwf : WellFormed cfg r.mem g.rootTable)
    (answers : List (Option Word)) :
    (drop cfg arch g answers k r).1 = .ok () ∧
    WellFormed cfg (drop cfg arch g answers k r).2.mem g.rootTable ∧
    ∀ va, walk cfg (drop cfg arch g answers k r).2.mem g.rootTable va =
      if Agree cfg cfg.depth k.buf va then some (leaf cfg arch k) else walk cfg r.mem g.rootTable va := by
  have hmissing : missing cfg r.mem k.buf cfg.depth g.rootTable = 0 :=
    missing_eq_zero (fun i hpos hi => index_next h.half h.inner hpos hi) (h.stack 1 (le_refl 1) one_le_stackPages)
  have heq : drop cfg arch g answers k r = drop cfg arch g [] k r := by
    refine mapFrom_of_missing ?_ answers
    rw [missing_agree (agree_and_addrMask (le_refl _) k.buf), hmissing]
  have hok : (drop cfg arch g [] k r).1 = .ok () :=
    (mapPage_ok_iff hwf (fresh_nil _)).mpr (hmissing.trans_le (Nat.zero_le _))
  obtain ⟨hwf', hhit, hmiss⟩ := mapPage_agree hwf (fresh_nil _) (Prod.eta (drop cfg arch g [] k r)).symm
  rw [heq]
  refine ⟨hok, hwf', fun va => ?_⟩
  split_ifs with hagree
  · exact (hhit hok va hagree).trans (if_neg (valid_or (mapFlag_valid arch .kRwo)))
  · exact hmiss va fun _ => hagree

end StackOk

/-! ### The calls -/

theorem Separate.symm {va va' : Word} (h : Separate cfg va va') : Separate cfg va' va :=
  fun i hi j hj hagree => h j hj i hi hagree.symm

theorem Separate.not_agree {va va' : Word} (h : Separate cfg va va') {j : Nat} (hj : j ≤ stackPages cfg) :
    ¬Agree cfg cfg.depth va (page cfg va' j) := by
  simpa using h 0 (Nat.zero_le _) j hj

theorem Separate.not_agree_buf {va va' : Word} (h : Separate cfg va va') : ¬Agree cfg cfg.depth va va' := by
  simpa using h.not_agree (Nat.zero_le _)

theorem Guarded.separate_of_ne (h : Guarded cfg g s) {k' : KernelStack} (hk : k ∈ s.live) (hk' : k' ∈ s.live)
    (hne : k ≠ k') : Separate cfg k.buf k'.buf :=
  have : Std.Symm fun k k' : KernelStack => Separate cfg k.buf k'.buf := ⟨fun _ _ => Separate.symm⟩
  h.separate.forall hk hk' hne

namespace Buffer

theorem take_eq (h : Buffer cfg arch g s va) : ∃ word, walk cfg s.ram.mem g.rootTable va = some word ∧
    word &&& cfg.psz.addrMask ||| arch.mapFlag .kRwo = word ∧
    take cfg g va s.ram = (some ⟨va, word &&& cfg.psz.addrMask⟩, unmapPage cfg g va s.ram) := by
  have hsome := h.mapped 0 (Nat.zero_le _)
  rw [page_zero] at hsome
  obtain ⟨word, hword⟩ := Option.isSome_iff_exists.mp hsome
  refine ⟨word, hword, h.rwo word hword, ?_⟩
  rw [take, getPa_eq, hword]
  rfl

theorem guarded (h : Buffer cfg arch g s va) (hs : Guarded cfg g s) :
    Guarded cfg g (step cfg arch g s (.new va)) := by
  obtain ⟨word, -, -, htake⟩ := h.take_eq
  obtain ⟨hwf, hwalk⟩ := unmapPage_agree hs.wf va
  rw [step, htake]
  refine ⟨hwf, fun k hk => ?_, List.pairwise_cons.mpr ⟨fun k hk => h.separate k hk, hs.separate⟩⟩
  rcases List.mem_cons.mp hk with rfl | hk
  · refine ⟨h.aligned, h.half, h.inner, (hwalk va).trans (if_pos fun _ _ => rfl), fun j hpos hj => ?_⟩
    rw [hwalk, if_neg (not_agree_page h.half hj hpos)]
    exact h.mapped j hj
  · refine (hs.each k hk).congr fun j hj => ?_
    rw [hwalk, if_neg ((h.separate k hk).not_agree hj)]

theorem overlaid {a : Word} {word : Option Word} (h : Buffer cfg arch g s va) (hs : Guarded cfg g s)
    (hover : Overlaid cfg arch g a word s) : Overlaid cfg arch g a word (step cfg arch g s (.new va)) := by
  obtain ⟨leafWord, hleaf, hrwo, htake⟩ := h.take_eq
  obtain ⟨-, hwalk⟩ := unmapPage_agree hs.wf va
  rw [step, htake]
  refine ⟨fun k hk hagree => ?_, fun hnot => ?_⟩
  · rcases List.mem_cons.mp hk with rfl | hk
    · have hoff : ∀ k ∈ s.live, ¬Agree cfg cfg.depth k.buf a := fun k hk hka =>
        (h.separate k hk).not_agree_buf (hagree.trans hka.symm)
      have hwalk' : walk cfg s.ram.mem g.rootTable a = walk cfg s.ram.mem g.rootTable va := walkFrom_agree hagree.symm
      rw [← hover.off hoff, hwalk', hleaf, leaf, BitVec.and_assoc, BitVec.and_self, hrwo]
    · exact hover.on k hk hagree
  · rw [hwalk, if_neg (hnot _ List.mem_cons_self)]
    exact hover.off fun k hk => hnot k (List.mem_cons_of_mem _ hk)

end Buffer

theorem guarded_drop (hs : Guarded cfg g s) (hk : k ∈ s.live) (answers : List (Option Word)) :
    Guarded cfg g ⟨(drop cfg arch g answers k s.ram).2, s.live.filter (· ≠ k)⟩ := by
  obtain ⟨-, hwf, hwalk⟩ := @StackOk.drop_spec cfg arch g k s.ram (hs.each k hk) hs.wf answers
  refine ⟨hwf, fun k' hk' => ?_, hs.separate.filter _⟩
  obtain ⟨hmem, hne⟩ := List.mem_filter.mp hk'
  refine (hs.each k' hmem).congr fun j hj => ?_
  rw [hwalk, if_neg ((hs.separate_of_ne hk hmem (of_decide_eq_true hne).symm).not_agree hj)]

theorem overlaid_drop {a : Word} {word : Option Word} (hs : Guarded cfg g s) (hover : Overlaid cfg arch g a word s)
    (hk : k ∈ s.live) (answers : List (Option Word)) :
    Overlaid cfg arch g a word ⟨(drop cfg arch g answers k s.ram).2, s.live.filter (· ≠ k)⟩ := by
  obtain ⟨-, -, hwalk⟩ := @StackOk.drop_spec cfg arch g k s.ram (hs.each k hk) hs.wf answers
  refine ⟨fun k' hk' => hover.on k' (List.mem_of_mem_filter hk'), fun hnot => ?_⟩
  rw [hwalk]
  split_ifs with hagree
  · exact (hover.on k hk hagree).symm
  · refine hover.off fun k' hk' => ?_
    by_cases hne : k' = k
    · rw [hne]
      exact hagree
    · exact hnot k' (List.mem_filter.mpr ⟨hk', decide_eq_true hne⟩)

theorem guarded_step (s : Machine) (c : Call) (hs : Guarded cfg g s) (hc : Allowed cfg arch g s c) :
    Guarded cfg g (step cfg arch g s c) := by
  cases c with
  | new va => exact hc.guarded hs
  | drop k answers =>
    rw [step]
    split_ifs with hk
    · exact guarded_drop hs hk answers
    · exact hs
  | other ram => exact ⟨hc.1, fun k hk => (hs.each k hk).congr (hc.2 k hk), hs.separate⟩

theorem overlaid_step {a : Word} {word : Option Word} (s : Machine) (c : Call) (hs : Guarded cfg g s)
    (hover : Overlaid cfg arch g a word s) (hc : Allowed cfg arch g s c) (hleaves : LeavesAt cfg g a s c) :
    Overlaid cfg arch g a word (step cfg arch g s c) := by
  cases c with
  | new va => exact hc.overlaid hs hover
  | drop k answers =>
    rw [step]
    split_ifs with hk
    · exact overlaid_drop hs hover hk answers
    · exact hover
  | other ram => exact ⟨hover.on, fun hnot => hleaves.trans (hover.off hnot)⟩

theorem guarded_start {r : Ram} (hwf : WellFormed cfg r.mem g.rootTable) : Guarded cfg g ⟨r, []⟩ :=
  ⟨hwf, fun _ hk => absurd hk List.not_mem_nil, List.Pairwise.nil⟩

/-! ### Runs -/

/-- While stacks are made and dropped, the guard pages of the live ones are missing from the address space, and nothing
else: once a stack is dropped its page is what it was, whatever `PHYS_ALLOC` has answered. -/
theorem run_guards {r : Ram} {calls : List Call} {a : Word} (hwf : WellFormed cfg r.mem g.rootTable)
    (hadmits : Admits (step cfg arch g) (fun s c => Allowed cfg arch g s c ∧ LeavesAt cfg g a s c) ⟨r, []⟩ calls) :
    walk cfg (run (step cfg arch g) ⟨r, []⟩ calls).ram.mem g.rootTable a =
      if ∃ k ∈ (run (step cfg arch g) ⟨r, []⟩ calls).live, Agree cfg cfg.depth k.buf a then none
      else walk cfg r.mem g.rootTable a := by
  have hinv : Guarded cfg g (run (step cfg arch g) ⟨r, []⟩ calls) ∧
      Overlaid cfg arch g a (walk cfg r.mem g.rootTable a) (run (step cfg arch g) ⟨r, []⟩ calls) := by
    refine run_induction (P := fun s => Guarded cfg g s ∧ Overlaid cfg arch g a (walk cfg r.mem g.rootTable a) s)
      (fun s c hs hc => ⟨guarded_step s c hs.1 hc.1, overlaid_step s c hs.1 hs.2 hc.1 hc.2⟩) ⟨guarded_start hwf, ?_⟩
      hadmits
    exact ⟨fun _ hk => absurd hk List.not_mem_nil, fun _ => rfl⟩
  obtain ⟨hguarded, hover⟩ := hinv
  split_ifs with hex
  · obtain ⟨k, hk, hagree⟩ := hex
    rw [walk, walkFrom_agree hagree.symm]
    exact (hguarded.each k hk).guard
  · exact hover.off fun k hk hagree => hex ⟨k, hk, hagree⟩

/-- The first five pages of the upper half are those of the heap. -/
def sampleRam : Ram :=
  ⟨fun a => if a = 0x1010 then 0x2003
    else if 0x2000 ≤ a ∧ a < 0x2028 then BitVec.ofNat 64 (0x200 * a) ||| Arch.amd64.mapFlag .kRwo
    else 0, [0x1000, 0x2000], []⟩

def sampleRun (calls : List Call) : Machine := run (step twoLevels .amd64 ⟨0x1000, true⟩) ⟨sampleRam, []⟩ calls

/-- The stack in the first five pages, with what `get_pa` returns for the first one. -/
def sampleStack : KernelStack := ⟨0xffffffffffc00000, 0x8000000000400000⟩

theorem sampleBuffer : Buffer twoLevels .amd64 ⟨0x1000, true⟩ ⟨sampleRam, []⟩ sampleStack.buf where
  aligned := by decide +kernel
  half := Or.inr (by decide +kernel)
  inner := by decide +kernel
  mapped := by decide +kernel
  rwo word hword := by
    have hwalk : walk twoLevels sampleRam.mem 0x1000 sampleStack.buf = some 0x8000000000400003 := by decide +kernel
    rw [← Option.some.inj (hwalk.symm.trans hword)]
    decide
  separate _ hk := absurd hk List.not_mem_nil

theorem run_guards_sample :
    walk twoLevels (sampleRun [.new sampleStack.buf]).ram.mem 0x1000 0xffffffffffc00008 = none ∧
    walk twoLevels (sampleRun [.new sampleStack.buf, .drop sampleStack []]).ram.mem 0x1000 0xffffffffffc00008 =
      some 0x8000000000400003 := by
  have hwf : WellFormed twoLevels sampleRam.mem 0x1000 := by decide +kernel
  constructor
  · exact (@run_guards twoLevels .amd64 ⟨0x1000, true⟩ sampleRam [.new sampleStack.buf] 0xffffffffffc00008 hwf
      ⟨⟨sampleBuffer, trivial⟩, trivial⟩).trans (by decide +kernel)
  · exact (@run_guards twoLevels .amd64 ⟨0x1000, true⟩ sampleRam [.new sampleStack.buf, .drop sampleStack []]
      0xffffffffffc00008 hwf ⟨⟨sampleBuffer, trivial⟩, ⟨trivial, trivial⟩, trivial⟩).trans (by decide +kernel)

/-- A heap whose first page is the last one of a leaf table. -/
def edgeRam : Ram :=
  ⟨fun a => if a = 0x1010 then 0x2003 else if a = 0x1018 then 0x3003
    else if 0x2ff8 ≤ a ∧ a < 0x3020 then BitVec.ofNat 64 (0x200 * a) ||| Arch.amd64.mapFlag .kRwo
    else 0, [0x1000, 0x2000, 0x3000], []⟩

-- `new` gives the leaf table back there; if `PHYS_ALLOC` has no page for another one, the heap has a hole from then on
example :
    (walk twoLevels edgeRam.mem 0x1000 0xffffffffffdff000).isSome ∧
    (take twoLevels ⟨0x1000, true⟩ 0xffffffffffdff000 edgeRam).1 = some ⟨0xffffffffffdff000, 0x80000000005ff000⟩ ∧
    walk twoLevels (drop twoLevels .amd64 ⟨0x1000, true⟩ [none] ⟨0xffffffffffdff000, 0x80000000005ff000⟩
      (take twoLevels ⟨0x1000, true⟩ 0xffffffffffdff000 edgeRam).2).2.mem 0x1000 0xffffffffffdff000 = none := by
  decide +kernel

/-- In every state of a run, below the top of a live stack there are as many bytes as a stack has, and then a page that
is not mapped; and to drop the stack takes no memory. -/
theorem run_stacks {r : Ram} {calls : List Call} (hwf : WellFormed cfg r.mem g.rootTable)
    (hadmits : Admits (step cfg arch g) (Allowed cfg arch g) ⟨r, []⟩ calls)
    (hk : k ∈ (run (step cfg arch g) ⟨r, []⟩ calls).live) :
    (∀ off < kernelStackSize cfg.psz + cfg.psz.size,
      (walk cfg (run (step cfg arch g) ⟨r, []⟩ calls).ram.mem g.rootTable
        (top cfg k - BitVec.ofNat 64 (off + 1))).isSome ↔ off < kernelStackSize cfg.psz) ∧
    ∀ answers, (drop cfg arch g answers k (run (step cfg arch g) ⟨r, []⟩ calls).ram).1 = .ok () := by
  have hguarded : Guarded cfg g (run (step cfg arch g) ⟨r, []⟩ calls) :=
    run_induction guarded_step (guarded_start hwf) hadmits
  have hstack := hguarded.each k hk
  exact ⟨fun off hoff => hstack.below_top hoff, fun answers => (hstack.drop_spec hguarded.wf answers).1⟩

theorem run_stacks_sample :
    (walk twoLevels (sampleRun [.new sampleStack.buf]).ram.mem 0x1000
      (top twoLevels sampleStack - BitVec.ofNat 64 0x4001)).isSome = false ∧
    (drop twoLevels .amd64 ⟨0x1000, true⟩ [none] sampleStack (sampleRun [.new sampleStack.buf]).ram).1 = .ok () := by
  have hstacks := @run_stacks twoLevels .amd64 ⟨0x1000, true⟩ sampleStack sampleRam [.new sampleStack.buf]
    (by decide +kernel) ⟨sampleBuffer, trivial⟩ (by decide +kernel)
  exact ⟨Bool.eq_false_iff.mpr fun h => absurd ((hstacks.1 0x4000 (by decide)).mp h) (by decide), hstacks.2 [none]⟩

end KernelStack

end UnixKernel
