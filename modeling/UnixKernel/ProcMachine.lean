import Mathlib.Algebra.Group.Action.Defs
import Mathlib.Algebra.Order.BigOperators.Group.List
import Mathlib.Data.List.TakeWhile
import Mathlib.Tactic.IntervalCases
import UnixKernel.GlacierSupply
import UnixKernel.ProcHeaders

/-! A machine for every file that is not right. All its memory is free, there is a page for every table that is
missing, and the heap never grows; so `ProcCtrlBlk::new` comes to the first header that is not right, and there it
panics or writes outside its memory. With it the conditions on the file are exact: they hold of a file if and only if
the call is safe on every machine. -/

namespace UnixKernel

open Glacier Radix

/-! ### Pages that no table uses -/

namespace Radix

/-- A tree of nodes with at most `e` slots is no larger than one in which all are used. -/
theorem length_nodes_le {α : Type} {edge : α → Nat → Option α} {width : Nat → Nat} {e : Nat} (he : ∀ k, width k ≤ e)
    (d : Nat) (t : α) : (nodes edge width d t).length ≤ (e + 1) ^ d := by
  induction d generalizing t with
  | zero => exact le_refl 1
  | succ d ih =>
      have hchild : ∀ i, ((edge t i).elim [] (nodes edge width d)).length ≤ (e + 1) ^ d := by
        intro i
        cases edge t i with
        | none => exact Nat.zero_le _
        | some c => exact ih c
      have hsum : ((List.range (width (d + 1))).map fun i => ((edge t i).elim [] (nodes edge width d)).length).sum ≤
          (List.range (width (d + 1))).length * (e + 1) ^ d := by
        have hall := List.sum_le_card_nsmul ((List.range (width (d + 1))).map
          fun i => ((edge t i).elim [] (nodes edge width d)).length) ((e + 1) ^ d) ?_
        · rw [List.length_map, smul_eq_mul] at hall
          exact hall
        · intro x hx
          obtain ⟨i, -, rfl⟩ := List.mem_map.mp hx
          exact hchild i
      rw [List.length_range] at hsum
      have hwidth : width (d + 1) * (e + 1) ^ d ≤ e * (e + 1) ^ d := Nat.mul_le_mul_right _ (he (d + 1))
      have hpos : 0 < (e + 1) ^ d := Nat.pow_pos (Nat.succ_pos e)
      rw [nodes, List.length_cons, List.length_flatMap, Nat.pow_succ', Nat.succ_mul]
      omega

end Radix

namespace Glacier

variable {cfg : RvmCfg}

/-- The first pages from `first` on that are not in use, one for each level of the tables. -/
def freePages (cfg : RvmCfg) (first : Nat) (used : List Word) : List Word :=
  (((List.range (2 ^ 63 / cfg.psz.size)).map fun i => BitVec.ofNat 64 ((first + i) * cfg.psz.size)).filter
    fun w => !used.contains w).take cfg.depth

theorem pages_map_some (l : List Word) : pages (l.map some) = l := by
  unfold pages
  rw [List.filterMap_map]
  exact List.filterMap_some

theorem supply_map_some (l : List Word) : supply (l.map some) = l.length := by
  unfold supply
  rw [List.takeWhile_eq_self_iff.mpr]
  · exact List.length_map some
  · intro x hx
    obtain ⟨w, -, rfl⟩ := List.mem_map.mp hx
    rfl

theorem missing_le_depth (m : Mem) (va : Word) (d : Nat) (t : Word) : missing cfg m va d t ≤ d := by
  induction d generalizing t with
  | zero => exact le_refl 0
  | succ d ih =>
      unfold missing
      split
      · exact (ih _).trans (Nat.le_succ d)
      · exact le_refl _

section Free

variable {first : Nat} (hfirst : first * cfg.psz.size ≤ 2 ^ 53) {used : List Word}
include hfirst

theorem candidate_lt {i : Nat} (hi : i < 2 ^ 63 / cfg.psz.size) : (first + i) * cfg.psz.size < 2 ^ 64 := by
  have hpage : i * cfg.psz.size < 2 ^ 63 := (Nat.mul_lt_mul_of_pos_right hi cfg.psz.size_pos).trans_le
    (Nat.div_mul_le_self _ _)
  rw [Nat.add_mul]
  omega

theorem nodup_candidates : ((List.range (2 ^ 63 / cfg.psz.size)).map
    fun i => BitVec.ofNat 64 ((first + i) * cfg.psz.size)).Nodup := by
  refine List.Nodup.map_on ?_ List.nodup_range
  intro i hi j hj heq
  have hnat := congrArg BitVec.toNat heq
  rw [toNat_ofNat_lt (candidate_lt hfirst (List.mem_range.mp hi)),
    toNat_ofNat_lt (candidate_lt hfirst (List.mem_range.mp hj))] at hnat
  exact Nat.add_left_cancel (Nat.eq_of_mul_eq_mul_right cfg.psz.size_pos hnat)

theorem mem_freePages {w : Word} (hw : w ∈ freePages cfg first used) :
    w ∉ used ∧ ∃ i, w.toNat = (first + i) * cfg.psz.size ∧ (first + i) * cfg.psz.size < 2 ^ 64 := by
  obtain ⟨hmem, hunused⟩ := List.mem_filter.mp (List.mem_of_mem_take hw)
  obtain ⟨i, hi, rfl⟩ := List.mem_map.mp hmem
  have hlt := candidate_lt hfirst (List.mem_range.mp hi)
  exact ⟨by simpa using hunused, i, toNat_ofNat_lt hlt, hlt⟩

theorem fresh_freePages : Fresh cfg used ((freePages cfg first used).map some) := by
  refine ⟨fun w hw => ?_, fun w hw => ?_, ?_⟩ <;> rw [pages_map_some] at *
  · obtain ⟨-, i, hi, hlt⟩ := mem_freePages hfirst hw
    have hword : w = BitVec.ofNat 64 ((first + i) * cfg.psz.size) := by
      apply BitVec.eq_of_toNat_eq
      rw [hi, toNat_ofNat_lt hlt]
    rw [Aligned, hword]
    exact ofNat_and_addrMask hlt
  · exact (mem_freePages hfirst hw).1
  · exact (List.take_sublist _ _).nodup ((nodup_candidates hfirst).filter _)

theorem length_freePages (hused : used.length + cfg.depth ≤ 2 ^ 63 / cfg.psz.size) :
    (freePages cfg first used).length = cfg.depth := by
  have hnodup := nodup_candidates hfirst
  set candidates := (List.range (2 ^ 63 / cfg.psz.size)).map fun i => BitVec.ofNat 64 ((first + i) * cfg.psz.size)
    with hcandidates
  have hlength : candidates.length = 2 ^ 63 / cfg.psz.size := by rw [hcandidates, List.length_map, List.length_range]
  have htaken : (candidates.filter used.contains).length ≤ used.length :=
    ((hnodup.filter _).subperm fun w hw => List.contains_iff_mem.mp (List.mem_filter.mp hw).2).length_le
  have hsplit := @List.length_eq_length_filter_add Word candidates used.contains
  rw [freePages, ← hcandidates, List.length_take]
  omega

end Free

theorem few_tables (cfg : RvmCfg) : 3 * (pageEntries cfg + 1) ^ cfg.depth + cfg.depth ≤ 2 ^ 63 / cfg.psz.size := by
  have hbits := cfg.depth_bits.1
  have hle := cfg.vaBits_le
  unfold pageEntries
  cases hpage : cfg.psz <;> rw [hpage] at hbits
  all_goals
    simp only [BPage.indexBits, BPage.shift] at hbits
    generalize cfg.depth = d at hbits ⊢
    have hd : d ≤ 5 := by omega
    interval_cases d <;> first | decide | omega

/-! ### Mapping where there is a page for every table -/

section Served

variable {arch : Arch} {p : Profile} {g : Glacier} {alloc : TableAlloc} {flags : Word} {r : Ram}
  (halloc : FreshTables cfg g alloc) (hserved : ∀ r va, Served cfg g r.mem va (alloc r))
  (hwf : WellFormed cfg r.mem g.rootTable)
include halloc hserved hwf

theorem mapPages_of_served {vaStart paStart : Nat} {offs : List Nat} (hpa : ∀ off ∈ offs, paStart + off < 2 ^ 64) :
    ∃ r', mapPages cfg arch p g alloc vaStart paStart flags offs r = (.ok (), r') ∧
      WellFormed cfg r'.mem g.rootTable := by
  induction offs generalizing r with
  | nil => exact ⟨r, rfl, hwf⟩
  | cons off offs ih =>
      rw [List.forall_mem_cons] at hpa
      rcases hfirst : mapAt cfg arch g alloc (vaStart + off) (paStart + off) flags r with ⟨x, r₁⟩
      obtain ⟨hwf₁, hok, -, -⟩ := mapAt_agree hwf halloc hfirst
      obtain rfl := hok.mpr (hserved r _)
      obtain ⟨r', hrest, hwf'⟩ := ih hwf₁ hpa.2
      refine ⟨r', ?_, hwf'⟩
      unfold mapPages
      rw [Profile.fit_of_lt hpa.1, Eff.lift_ok_bind, Eff.bind_of_ok hfirst, hrest]

theorem mapRange_of_served {va pa size : Nat} (hva : va + size + cfg.psz.size < 2 ^ 64)
    (hpa : pa + size + cfg.psz.size < 2 ^ 64) :
    ∃ r', mapRange cfg arch p g alloc va pa size flags r = (.ok (), r') ∧ WellFormed cfg r'.mem g.rootTable := by
  rw [mapRange, rangeEnd_eq hva, Eff.lift_ok_bind]
  refine mapPages_of_served halloc hserved hwf fun off hoff => ?_
  have hlt := off_le hoff
  have hle := Nat.div_mul_le_self pa cfg.psz.size
  omega

end Served

/-- Without room for a page behind the range a checked build panics. -/
theorem mapRange_of_not_room {arch : Arch} {g : Glacier} {alloc : TableAlloc} {va pa size : Nat} {flags : Word}
    {r : Ram} (h : ¬va + size + cfg.psz.size < 2 ^ 64) :
    mapRange cfg arch .dev g alloc va pa size flags r = (.error .panic, r) := by
  rw [mapRange]
  cases hend : rangeEnd cfg .dev va size with
  | ok last => exact absurd (lt_of_rangeEnd hend) h
  | error e =>
      have he : e = .panic := by
        rcases bind_eq_error.mp hend with hstop | ⟨_, -, hrest⟩
        · exact Profile.eq_of_fit_error hstop
        rcases bind_eq_error.mp hrest with hstop | ⟨_, -, hlast⟩
        · exact Profile.eq_of_fit_error hstop
        rcases bind_eq_error.mp hlast with hstop | ⟨_, -, hpure⟩
        · exact Profile.eq_of_fit_error hstop
        · cases hpure
      rw [he, Eff.lift_error_bind]
      rfl

end Glacier

namespace ProcCtrlBlk

variable {cfg : RvmCfg} {arch : Arch} {krvm : Glacier} {env : ProcEnv} {places : Places} {α β : Type}

/-! ### Runs that go wrong -/

/-- A panic, or a write outside the memory of the call. -/
def Faulty (run : Except BuildStop α × Dealings) : Prop := run.1 = .error .panic ∨ ¬InBounds run.2

theorem Faulty.not_safe {run : Except BuildStop ProcCtrlBlk × Dealings} (h : Faulty run) : ¬Safe run := by
  intro hsafe
  rcases h with hpanic | hout
  · exact hsafe.returns _ hpanic
  · exact hout hsafe.inBounds

theorem Faulty.bind {m : CreateM α} {f : α → CreateM β} {s : Dealings} (h : Faulty (m s))
    (hf : ∀ a, Eff.Keeps (fun s => ¬InBounds s) (f a)) : Faulty ((m >>= f) s) := by
  rcases hm : m s with ⟨e | a, s₁⟩ <;> rw [hm] at h
  · rw [Eff.bind_of_error hm]
    exact h.imp_left fun hpanic => congrArg _ (Except.error.inj hpanic)
  · rw [Eff.bind_of_ok hm]
    rcases h with hpanic | hout
    · cases hpanic
    · exact Or.inr (hf a s₁ hout)

theorem Faulty.dropAtEnd {drop : Dealings → Dealings} {m : CreateM α} {s : Dealings}
    (hdrop : ∀ s, InBounds (drop s) → InBounds s) (h : Faulty (m s)) : Faulty (dropAtEnd drop m s) := by
  unfold ProcCtrlBlk.dropAtEnd
  split <;> rename_i hrun <;> rw [hrun] at h
  · exact h.imp id fun hout hin => hout (hdrop _ hin)
  · exact h.imp id fun hout hin => hout (hdrop _ hin)
  · exact h

theorem Faulty.dropOnErr {drop : Dealings → Dealings} {m : CreateM α} {s : Dealings}
    (hdrop : ∀ s, InBounds (drop s) → InBounds s) (h : Faulty (m s)) : Faulty (dropOnErr drop m s) := by
  unfold ProcCtrlBlk.dropOnErr
  split
  · rename_i hrun
    rw [hrun] at h
    exact h.imp id fun hout hin => hout (hdrop _ hin)
  · exact h

theorem keeps_faulty_segments {p : Profile} {g : Glacier} {fileBin : List Byte} {procAddr lo : Nat}
    {phs : List ProgramHeader} :
    Eff.Keeps (fun s => ¬InBounds s) (createSegments cfg arch p krvm env g fileBin procAddr lo phs) :=
  keeps_createSegments (I := fun _ written => ¬∀ w ∈ written, Covered w) g fileBin
    fun _ _ _ _ _ _ _ _ _ _ hout hin => hout fun w hw => hin w (List.mem_append_left _ hw)

theorem keeps_faulty_rest {p : Profile} {g : Glacier} {elf : ElfFile} {procPtr : OwnedPtr} {maps : List VRamMap} :
    Eff.Keeps (fun s => ¬InBounds s) (createRest cfg arch p krvm env places g elf procPtr maps) :=
  keeps_createRest (I := fun _ written => ¬∀ w ∈ written, Covered w) g elf procPtr maps fun _ _ _ hout => hout

/-! ### Up to the first header that is not right -/

/-- There is a page for every table that the tree lacks, and the heap does not grow. -/
structure Serves (cfg : RvmCfg) (env : ProcEnv) (g : Glacier) : Prop where
  fresh : FreshTables cfg g env.tablePages
  served : ∀ r va, Served cfg g r.mem va (env.tablePages r)
  still : ∀ s, env.grow s = []

theorem Serves.heapAlloc {p : Profile} {g : Glacier} (h : Serves cfg env g) (s : Dealings) :
    onState (heapAlloc cfg arch p krvm env) s = (.ok (), s) := by
  unfold onState ProcCtrlBlk.heapAlloc
  rw [h.still]
  rfl

section Segments

variable {g : Glacier} {elf : ElfFile} {fileBin : List Byte} {procPtr : OwnedPtr} {ph : ProgramHeader} {s : Dealings}
  (hptr : ProcMemory cfg elf procPtr) (hph : ph ∈ elf.loads)
include hptr hph

theorem createSegment_of_not_room (hroom : ¬ph.virtualAddr.toNat + ph.memSize.toNat + cfg.psz.size < 2 ^ 64) :
    (createSegment cfg arch .dev krvm env g fileBin procPtr.addr (vaBase elf) ph s).1 = .error .panic := by
  obtain ⟨hfrom, haddr⟩ := @ProcMemory.fit_place cfg .dev elf procPtr ph hptr hph
  have hmap : onState (onRam (mapRange cfg arch .dev g env.tablePages ph.virtualAddr.toNat
      (procPtr.addr + (ph.virtualAddr.toNat - vaBase elf)) ph.memSize.toNat (arch.mapFlag (segFlag ph.flags)))
      (.error (.err "Failed to map process"))) s = (.error .panic, s) := by
    unfold onState onRam
    rw [mapRange_of_not_room hroom]
  unfold createSegment
  dsimp only
  rw [hfrom, Eff.lift_ok_bind, haddr, Eff.lift_ok_bind, Eff.bind_of_error hmap]

variable (hserves : Serves cfg env g) (hwf : WellFormed cfg s.state.ram.mem g.rootTable)
  (hroom : ph.virtualAddr.toNat + ph.memSize.toNat + cfg.psz.size < 2 ^ 64)
include hserves hwf hroom

/-- With room for the segment it is mapped and cleared. -/
theorem createSegment_of_room : ∃ s₁, WellFormed cfg s₁.state.ram.mem g.rootTable ∧ s₁.held = s.held ∧
    createSegment cfg arch .dev krvm env g fileBin procPtr.addr (vaBase elf) ph s = (do
      let fileEnd ← Eff.lift (Profile.dev.fit .panic 64 (ph.offset.toNat + ph.fileSize.toNat : Nat))
      Eff.lift (ensure (ph.offset.toNat ≤ fileEnd ∧ fileEnd ≤ fileBin.length) .panic)
      writing (procPtr.addr + (ph.virtualAddr.toNat - vaBase elf)) ph.fileSize.toNat
        (copyBytes fileBin ph.offset.toNat (procPtr.addr + (ph.virtualAddr.toNat - vaBase elf)) ph.fileSize.toNat)
      pure ⟨ph.virtualAddr.toNat, procPtr.addr + (ph.virtualAddr.toNat - vaBase elf), ph.memSize.toNat,
        arch.mapFlag (segFlag ph.flags)⟩ : CreateM VRamMap) s₁ := by
  obtain ⟨hfrom, haddr⟩ := @ProcMemory.fit_place cfg .dev elf procPtr ph hptr hph
  obtain ⟨-, hplace⟩ := hptr.place hph
  have hfin := hptr.fin
  unfold OwnedPtr.fin at hfin
  obtain ⟨r, hrange, hwf'⟩ := @mapRange_of_served cfg arch .dev g env.tablePages (arch.mapFlag (segFlag ph.flags))
    s.state.ram hserves.fresh hserves.served hwf ph.virtualAddr.toNat
    (procPtr.addr + (ph.virtualAddr.toNat - vaBase elf)) ph.memSize.toNat hroom (by omega)
  have hmap : onState (onRam (mapRange cfg arch .dev g env.tablePages ph.virtualAddr.toNat
      (procPtr.addr + (ph.virtualAddr.toNat - vaBase elf)) ph.memSize.toNat (arch.mapFlag (segFlag ph.flags)))
      (.error (.err "Failed to map process"))) s = (.ok (), { s with state := { s.state with ram := r } }) := by
    unfold onState onRam
    rw [hrange]
  obtain ⟨s₁, hclear, hram, hheld⟩ : ∃ s₁, writing (procPtr.addr + (ph.virtualAddr.toNat - vaBase elf)) ph.memSize.toNat
      (clearBytes (procPtr.addr + (ph.virtualAddr.toNat - vaBase elf)) ph.memSize.toNat)
      { s with state := { s.state with ram := r } } = (.ok (), s₁) ∧ s₁.state.ram = r ∧ s₁.held = s.held :=
    ⟨_, rfl, rfl, rfl⟩
  refine ⟨s₁, hram ▸ hwf', hheld, ?_⟩
  unfold createSegment
  dsimp only
  rw [hfrom, Eff.lift_ok_bind, haddr, Eff.lift_ok_bind, Eff.bind_of_ok hmap, Eff.bind_of_ok (hserves.heapAlloc _),
    Eff.bind_of_ok hclear]

theorem createSegment_of_not_file (hfile : ¬ph.offset.toNat + ph.fileSize.toNat ≤ fileBin.length) :
    (createSegment cfg arch .dev krvm env g fileBin procPtr.addr (vaBase elf) ph s).1 = .error .panic := by
  obtain ⟨s₁, -, -, hrun⟩ := @createSegment_of_room cfg arch krvm env g elf fileBin procPtr ph s hptr hph hserves
    hwf hroom
  rw [hrun]
  cases hend : Profile.dev.fit BuildStop.panic 64 (ph.offset.toNat + ph.fileSize.toNat : Nat) with
  | error e =>
      rw [Eff.lift_error_bind, Profile.eq_of_fit_error hend]
      rfl
  | ok fileEnd =>
      obtain ⟨rfl, -⟩ := Profile.eq_of_fit_dev hend
      rw [Eff.lift_ok_bind, ensure, if_neg fun h => hfile h.2, Eff.lift_error_bind]
      rfl

theorem createSegment_of_file (hlen : fileBin.length < 2 ^ 64)
    (hfile : ph.offset.toNat + ph.fileSize.toNat ≤ fileBin.length) :
    ∃ m s', createSegment cfg arch .dev krvm env g fileBin procPtr.addr (vaBase elf) ph s = (.ok m, s') ∧
      WellFormed cfg s'.state.ram.mem g.rootTable ∧ s'.held = s.held ∧
      (⟨procPtr.addr + (ph.virtualAddr.toNat - vaBase elf), ph.fileSize.toNat⟩, s.held) ∈ s'.written := by
  obtain ⟨s₁, hwf₁, hheld, hrun⟩ := @createSegment_of_room cfg arch krvm env g elf fileBin procPtr ph s hptr hph hserves
    hwf hroom
  rw [hrun, Profile.fit_of_lt (by omega), Eff.lift_ok_bind, ensure_eq_ok.mpr ⟨by omega, hfile⟩, Eff.lift_ok_bind]
  refine ⟨_, _, rfl, hwf₁, hheld, ?_⟩
  rw [← hheld]
  exact List.mem_append_right _ List.mem_cons_self

end Segments

/-- A header that is not right comes to light. -/
theorem createSegments_faulty {g : Glacier} {elf : ElfFile} {fileBin : List Byte} {procPtr : OwnedPtr}
    {phs : List ProgramHeader} {s : Dealings} (hptr : ProcMemory cfg elf procPtr) (hserves : Serves cfg env g)
    (hlen : fileBin.length < 2 ^ 64) (hbehind : ∀ q ∈ s.held, ¬(q.addr ≤ procPtr.fin ∧ procPtr.fin < q.fin))
    (hphs : ∀ ph ∈ phs, ph ∈ elf.loads) (hbad : ∃ ph ∈ phs, ¬HeaderOk cfg elf fileBin.length ph)
    (hwf : WellFormed cfg s.state.ram.mem g.rootTable) :
    Faulty (createSegments cfg arch .dev krvm env g fileBin procPtr.addr (vaBase elf) phs s) := by
  -- on the headers that are left, up to the first bad one
  induction phs generalizing s with
  | nil =>
      obtain ⟨ph, hph, -⟩ := hbad
      exact absurd hph List.not_mem_nil
  | cons ph phs ih =>
      have hph := hphs ph List.mem_cons_self
      have hkeeps : ∀ m, Eff.Keeps (fun s => ¬InBounds s) (do
          let maps ← createSegments cfg arch .dev krvm env g fileBin procPtr.addr (vaBase elf) phs
          pure (m :: maps) : CreateM (List VRamMap)) :=
        fun m => keeps_faulty_segments.bind fun _ _ _ _ _ hout => hout
      rw [createSegments]
      by_cases hroom : ph.virtualAddr.toNat + ph.memSize.toNat + cfg.psz.size < 2 ^ 64
      · by_cases hfile : ph.offset.toNat + ph.fileSize.toNat ≤ fileBin.length
        · obtain ⟨m, s₁, hrun, hwf₁, hheld, hwritten⟩ := @createSegment_of_file cfg arch krvm env g elf fileBin
            procPtr ph s hptr hph hserves hwf hroom hlen hfile
          by_cases hinside : ph.virtualAddr.toNat - vaBase elf + ph.fileSize.toNat ≤
              sizeAlign cfg.psz (vaTop elf - vaBase elf)
          · rw [Eff.bind_of_ok hrun]
            refine (ih (hheld ▸ hbehind) (fun q hq => hphs q (List.mem_cons_of_mem ph hq)) ?_ hwf₁).bind
              fun _ _ hout => hout
            obtain ⟨q, hq, hnot⟩ := hbad
            rcases List.mem_cons.mp hq with rfl | hq
            · exact absurd ⟨hroom, hfile, hinside⟩ hnot
            · exact ⟨q, hq, hnot⟩
          · -- the byte behind the process memory is written
            refine Faulty.bind (Or.inr ?_) hkeeps
            rw [hrun]
            intro hin
            obtain ⟨-, hplace⟩ := hptr.place hph
            rw [← hptr.size] at hinside
            obtain ⟨q, hq, hbyte⟩ := hin _ hwritten procPtr.fin (by unfold OwnedPtr.fin; dsimp only; omega)
              (by unfold OwnedPtr.fin; dsimp only; omega)
            exact hbehind q hq hbyte
        · exact Faulty.bind (Or.inl (createSegment_of_not_file hptr hph hserves hwf hroom hfile)) hkeeps
      · exact Faulty.bind (Or.inl (createSegment_of_not_room hptr hph hroom)) hkeeps

/-! ### The machine -/

section Free

variable (cfg) (fsize span : Nat)

/-- Where the process memory begins: the buffer is below it. -/
def procAt : Nat := cfg.psz.size + alignUp (sizeAlign cfg.psz fsize) cfg.psz.size

/-- The page where the tables begin, behind the process memory. -/
def tableAt : Nat :=
  min ((procAt cfg fsize + sizeAlign cfg.psz span) / cfg.psz.size + 1) (2 ^ 52 / cfg.psz.size)

/-- A page for a table. -/
def tableWord (i : Nat) : Word := BitVec.ofNat 64 ((tableAt cfg fsize span + i) * cfg.psz.size)

def freeKernel : Glacier := ⟨tableWord cfg fsize span 0, true⟩

/-- All of memory is free, and there is nothing in the kernel's tables. -/
def freeRam : ProcRam := ⟨⟨fun _ => 0, [], []⟩, fun _ => 0, hihalf cfg⟩

/-- Memory for a file of that size and a process of that span, if it can be had at all. -/
def freeEnv : ProcEnv where
  root := some (tableWord cfg fsize span 1)
  tablePages r := (freePages cfg (tableAt cfg fsize span + 2) (tables cfg r.mem (tableWord cfg fsize span 0) ++
    (tables cfg r.mem (tableWord cfg fsize span 1) ++ lowTables cfg r.mem (tableWord cfg fsize span 1)))).map some
  alloc _ args :=
    if args = bufParams cfg fsize ∧ sizeAlign cfg.psz fsize + 2 * cfg.psz.size ≤ 2 ^ 52 then
      some ⟨cfg.psz.size, sizeAlign cfg.psz fsize⟩
    else if args = .new cfg.psz span ∧ BothFit cfg (sizeAlign cfg.psz fsize) span then
      some ⟨procAt cfg fsize, sizeAlign cfg.psz span⟩
    else none
  grow _ := []
  stackBuf _ := .block (BitVec.ofNat 64 (hihalf cfg))

def freePlaces : Places := fun _ _ => [lastPlace cfg]

variable {cfg fsize span}

theorem tableAt_le : tableAt cfg fsize span * cfg.psz.size ≤ 2 ^ 52 :=
  (Nat.mul_le_mul_right _ (Nat.min_le_right _ _)).trans (Nat.div_mul_le_self _ _)

theorem tableWord_lt {i : Nat} (hi : i ≤ 2) : (tableAt cfg fsize span + i) * cfg.psz.size < 2 ^ 64 := by
  have hle := @tableAt_le cfg fsize span
  have hpage := cfg.psz.size_le
  have hmul : i * cfg.psz.size ≤ 2 * cfg.psz.size := Nat.mul_le_mul_right _ hi
  rw [Nat.add_mul]
  omega

theorem toNat_tableWord {i : Nat} (hi : i ≤ 2) :
    (tableWord cfg fsize span i).toNat = (tableAt cfg fsize span + i) * cfg.psz.size := toNat_ofNat_lt (tableWord_lt hi)

theorem aligned_tableWord {i : Nat} (hi : i ≤ 2) : Aligned cfg (tableWord cfg fsize span i) :=
  ofNat_and_addrMask (tableWord_lt hi)

theorem first_le : (tableAt cfg fsize span + 2) * cfg.psz.size ≤ 2 ^ 53 := by
  have hle := @tableAt_le cfg fsize span
  have hpage := cfg.psz.size_le
  rw [Nat.add_mul]
  omega

theorem tables_blank {m : Mem} {t : Word} (h : ∀ a, m a = 0) : tables cfg m t = [t] :=
  tablesFrom_blank fun _ _ => h _

theorem length_free (r : Ram) : (freePages cfg (tableAt cfg fsize span + 2)
    (tables cfg r.mem (tableWord cfg fsize span 0) ++ (tables cfg r.mem (tableWord cfg fsize span 1) ++
      lowTables cfg r.mem (tableWord cfg fsize span 1)))).length = cfg.depth := by
  apply length_freePages first_le
  have hfew := few_tables cfg
  have hkernel := @length_nodes_le _ (edge cfg r.mem) _ (pageEntries cfg) width_le_page cfg.depth
    (tableWord cfg fsize span 0)
  have hproc := @length_nodes_le _ (edge cfg r.mem) _ (pageEntries cfg) width_le_page cfg.depth
    (tableWord cfg fsize span 1)
  have hlow := @length_nodes_le _ (edge cfg r.mem) _ (pageEntries cfg) dropWidth_le_page cfg.depth
    (tableWord cfg fsize span 1)
  rw [List.length_append, List.length_append]
  unfold tables lowTables tablesFrom
  omega

theorem serves_free : Serves cfg (freeEnv cfg fsize span) ⟨tableWord cfg fsize span 1, true⟩ where
  fresh r := (fresh_freePages first_le).mono fun w hw => List.mem_append_right _ (List.mem_append_left _ hw)
  served r va := by
    unfold Served freeEnv
    rw [supply_map_some, length_free]
    exact missing_le_depth _ _ _ _
  still _ := rfl

theorem freeEnv_alloc {t : ProcRam} {args : AllocParams} {ptr : OwnedPtr}
    (h : (freeEnv cfg fsize span).alloc t args = some ptr) :
    (args = bufParams cfg fsize ∧ sizeAlign cfg.psz fsize + 2 * cfg.psz.size ≤ 2 ^ 52 ∧
      ptr = ⟨cfg.psz.size, sizeAlign cfg.psz fsize⟩) ∨
    (args = .new cfg.psz span ∧ BothFit cfg (sizeAlign cfg.psz fsize) span ∧
      ptr = ⟨procAt cfg fsize, sizeAlign cfg.psz span⟩) := by
  unfold freeEnv at h
  dsimp only at h
  split_ifs at h with hbuf hproc
  · exact Or.inl ⟨hbuf.1, hbuf.2, (Option.some.inj h).symm⟩
  · exact Or.inr ⟨hproc.1, hproc.2, (Option.some.inj h).symm⟩

theorem procAt_bounds : cfg.psz.size + sizeAlign cfg.psz fsize ≤ procAt cfg fsize ∧
    procAt cfg fsize < sizeAlign cfg.psz fsize + 2 * cfg.psz.size := by
  have hlo := le_alignUp (sizeAlign cfg.psz fsize) cfg.psz.size
  have hhi := alignUp_lt (sizeAlign cfg.psz fsize) cfg.psz.size_pos
  unfold procAt
  omega

theorem dvd_procAt : cfg.psz.size ∣ procAt cfg fsize :=
  (Nat.dvd_add_right (Nat.dvd_refl _)).mpr (dvd_alignUp _ cfg.psz.size_pos)

/-- The tables are behind all that is handed out. -/
theorem fin_le_tableAt {t : ProcRam} {args : AllocParams} {ptr : OwnedPtr}
    (h : (freeEnv cfg fsize span).alloc t args = some ptr) : ptr.fin ≤ tableAt cfg fsize span * cfg.psz.size := by
  obtain ⟨hlo, hhi⟩ := @procAt_bounds cfg fsize
  have hpos := cfg.psz.size_pos
  have hdata := Nat.lt_div_mul_add (a := procAt cfg fsize + sizeAlign cfg.psz span) hpos
  have hmax : 2 ^ 52 / cfg.psz.size * cfg.psz.size = 2 ^ 52 := by cases cfg.psz <;> decide
  have hfin : ptr.fin ≤ procAt cfg fsize + sizeAlign cfg.psz span ∧ ptr.fin ≤ 2 ^ 52 := by
    unfold OwnedPtr.fin
    rcases freeEnv_alloc h with ⟨-, hfits, rfl⟩ | ⟨-, hfits, rfl⟩
    · exact ⟨by dsimp only; omega, by dsimp only; omega⟩
    · unfold BothFit at hfits
      exact ⟨le_refl _, by dsimp only; omega⟩
  unfold tableAt
  rcases Nat.le_total ((procAt cfg fsize + sizeAlign cfg.psz span) / cfg.psz.size + 1) (2 ^ 52 / cfg.psz.size) with
    hle | hle
  · rw [Nat.min_eq_left hle, Nat.succ_mul]
    omega
  · rw [Nat.min_eq_right hle, hmax]
    exact hfin.2

theorem honest_free : Honest cfg (freeKernel cfg fsize span) (freeEnv cfg fsize span) (freeRam cfg) where
  root root hroot := by
    obtain rfl := Option.some.inj hroot
    refine ⟨aligned_tableWord (by decide), ?_⟩
    have hblank : tables cfg (freeRam cfg).ram.mem (freeKernel cfg fsize span).rootTable =
        [(freeKernel cfg fsize span).rootTable] := tables_blank fun _ => rfl
    rw [hblank, List.mem_singleton]
    intro heq
    have hnat := congrArg BitVec.toNat heq
    have hpos := cfg.psz.size_pos
    rw [freeKernel, toNat_tableWord (by decide), toNat_tableWord (by decide), Nat.add_mul, Nat.add_mul] at hnat
    omega
  tablePages root hroot r := by
    obtain rfl := Option.some.inj hroot
    refine (fresh_freePages first_le).mono fun w hw => ?_
    rcases List.mem_append.mp hw with hw | hw
    · exact List.mem_append_left _ hw
    · exact List.mem_append_right _ (List.mem_append_right _ hw)
  alloc t args ptr h := by
    obtain ⟨hlo, hhi⟩ := @procAt_bounds cfg fsize
    rcases freeEnv_alloc h with ⟨rfl, hfits, rfl⟩ | ⟨rfl, hfits, rfl⟩
    · refine ⟨rfl, ?_, ?_⟩
      · exact (Nat.max_eq_left cfg.psz.size_pos).dvd
      · unfold OwnedPtr.fin
        dsimp only
        omega
    · unfold BothFit at hfits
      refine ⟨rfl, dvd_procAt, ?_⟩
      unfold OwnedPtr.fin
      dsimp only
      omega
  chunks _ _ h := absurd h List.not_mem_nil
  room _ h := absurd rfl h
  stackBuf _ va h := by
    obtain rfl : BitVec.ofNat 64 (hihalf cfg) = va := StackBuf.block.inj h
    have hlt : hihalf cfg < 2 ^ 64 := Nat.sub_lt (Nat.two_pow_pos _) (Nat.two_pow_pos _)
    rw [RvmCfg.Canonical, toNat_ofNat_lt hlt]
    exact Or.inr (le_refl _)

theorem machine_free : Machine cfg (freeKernel cfg fsize span) (freeEnv cfg fsize span) (freePlaces cfg) (freeRam cfg)
    where
  honest := honest_free
  root := Option.some_ne_none _
  stackBuf _ := ⟨_, rfl⟩
  places _ _ start h := (List.mem_singleton.mp h).le
  notNull t args ptr h := by
    have hpos := cfg.psz.size_pos
    have hlo := (@procAt_bounds cfg fsize).1
    rcases freeEnv_alloc h with ⟨-, -, rfl⟩ | ⟨-, -, rfl⟩
    · exact hpos.ne'
    · exact (show procAt cfg fsize ≠ 0 by omega)
  apart t t' args args' ptr ptr' h h' hne := by
    have hlo := (@procAt_bounds cfg fsize).1
    unfold OwnedPtr.fin
    rcases freeEnv_alloc h with ⟨rfl, -, rfl⟩ | ⟨rfl, hfits, rfl⟩ <;>
      rcases freeEnv_alloc h' with ⟨rfl, -, rfl⟩ | ⟨rfl, hfits', rfl⟩
    · exact absurd rfl hne
    · exact ⟨Or.inl hlo, hfits'⟩
    · refine ⟨Or.inr hlo, ?_⟩
      unfold BothFit at hfits
      dsimp only
      omega
    · exact absurd rfl hne
  tables t args ptr r table h htable := by
    left
    obtain ⟨w, hw, heq⟩ := List.mem_map.mp htable
    cases heq
    obtain ⟨-, i, hi, -⟩ := mem_freePages first_le hw
    have hfin := fin_le_tableAt h
    rw [hi, Nat.add_assoc, Nat.add_mul]
    omega

end Free

/-! ### The conditions are exact -/

/-- A size that cannot be placed makes a checked build panic. -/
theorem probe_of_not_placeable {args : AllocParams} (h : ¬Placeable cfg args.size) :
    probe cfg .dev args [lastPlace cfg] = .error .panic := by
  cases hprobe : probe cfg .dev args [lastPlace cfg] with
  | error e => rw [(probe_error hprobe).1]
  | ok u =>
      obtain ⟨size, hsize, hrest⟩ := bind_eq_ok.mp hprobe
      obtain ⟨rfl, -⟩ := Profile.eq_of_fit_dev hsize
      obtain ⟨_, hfirst, -⟩ := bind_eq_ok.mp hrest
      obtain ⟨sum, hsum, -⟩ := bind_eq_ok.mp hfirst
      obtain ⟨-, hlt⟩ := Profile.eq_of_fit_dev hsum
      unfold Placeable at h
      omega

theorem allocHeld_of_not_placeable {args : AllocParams} {msg : String} {s : Dealings} (h : ¬Placeable cfg args.size) :
    allocHeld cfg .dev env (freePlaces cfg) args msg s = (.error .panic, s) := by
  unfold allocHeld freePlaces
  rw [probe_of_not_placeable h]

theorem allocHeld_of_placeable {args : AllocParams} {msg : String} {s : Dealings} {ptr : OwnedPtr}
    (h : Placeable cfg args.size) (hptr : env.alloc s.state args = some ptr) :
    allocHeld cfg .dev env (freePlaces cfg) args msg s = (.ok ptr, { s with held := ptr ::ₘ s.held }) := by
  rcases @allocHeld_cases cfg .dev env (freePlaces cfg) args msg s with
    ⟨e, hprobe, hrun⟩ | ⟨hnone, -⟩ | ⟨ptr', hptr', hrun⟩
  · have hreturns := allocHeld_raises h (fun _ _ start hstart => (List.mem_singleton.mp hstart).le) _ _ _ hrun
    rw [(probe_error hprobe).1] at hreturns
    exact absurd hreturns id
  · cases hnone.symm.trans hptr
  · cases hptr'.symm.trans hptr
    exact hrun

theorem fits_of_getProcVaset {elf : ElfFile} {bounds : Nat × Nat} (h : getProcVaset .dev elf = .ok bounds) :
    ∀ ph ∈ elf.loads, ph.virtualAddr.toNat + ph.memSize.toNat < 2 ^ 64 := by
  obtain ⟨lo, -, hrest⟩ := bind_eq_ok.mp h
  obtain ⟨ends, hends, -⟩ := bind_eq_ok.mp hrest
  intro ph hph
  obtain ⟨stop, hstop⟩ := mapM_ok_mem hends hph
  exact (Profile.eq_of_fit_dev hstop).2

section Exact

variable {elf : ElfFile} {fileBin : List Byte} {fsize : Nat} {s : Dealings}

theorem newGlacier_free (span : Nat) : ∃ s₁,
    newGlacier cfg (freeKernel cfg fsize span) (freeEnv cfg fsize span) (freeRam cfg) =
      (.ok ⟨tableWord cfg fsize span 1, true⟩, s₁) ∧ WellFormed cfg s₁.ram.mem (tableWord cfg fsize span 1) := by
  refine ⟨_, rfl, aligned_tableWord (by decide), ?_⟩
  rw [tables_blank fun a => ?_]
  · exact List.nodup_singleton _
  · simp [Mem.zero, Mem.copy, Ram.take, freeRam]

/-- The segments of a file with a header that is not right, in the memory of the process. -/
theorem createWith_faulty (hheld : s.held = {⟨cfg.psz.size, sizeAlign cfg.psz fsize⟩})
    (hlen : fileBin.length = sizeAlign cfg.psz fsize)
    (hwf : WellFormed cfg s.state.ram.mem (tableWord cfg fsize (vaTop elf - vaBase elf) 1))
    (hboth : BothFit cfg (sizeAlign cfg.psz fsize) (vaTop elf - vaBase elf))
    (hbad : ∃ ph ∈ elf.loads, ¬HeaderOk cfg elf fileBin.length ph) {ptr : OwnedPtr}
    (hptr : ptr = ⟨procAt cfg fsize, sizeAlign cfg.psz (vaTop elf - vaBase elf)⟩) :
    Faulty (createWith cfg arch .dev (freeKernel cfg fsize (vaTop elf - vaBase elf))
      (freeEnv cfg fsize (vaTop elf - vaBase elf)) (freePlaces cfg)
      ⟨tableWord cfg fsize (vaTop elf - vaBase elf) 1, true⟩ elf fileBin (vaBase elf) ptr
      { s with held := ptr ::ₘ s.held }) := by
  obtain ⟨hlo, hhi⟩ := @procAt_bounds cfg fsize
  unfold BothFit at hboth
  have hmemory : ProcMemory cfg elf ptr := by
    subst hptr
    refine ⟨rfl, ?_⟩
    unfold OwnedPtr.fin
    dsimp only
    omega
  unfold createWith
  rw [Eff.bind_of_ok (serves_free.heapAlloc _)]
  refine Faulty.bind (createSegments_faulty hmemory serves_free (by omega) ?_ (fun _ hph => hph) hbad hwf)
    fun _ => keeps_faulty_rest
  intro q hq
  rcases Multiset.mem_cons.mp hq with rfl | hq
  · exact fun hbyte => absurd hbyte.2 (Nat.lt_irrefl _)
  · rw [hheld] at hq
    obtain rfl := Multiset.mem_singleton.mp hq
    subst hptr
    unfold OwnedPtr.fin
    dsimp only
    omega

/-- Headers that are not right, and enough memory to come to them. -/
theorem createFrom_faulty (hheld : s.held = {⟨cfg.psz.size, sizeAlign cfg.psz fsize⟩})
    (hlen : fileBin.length = sizeAlign cfg.psz fsize)
    (hwf : WellFormed cfg s.state.ram.mem (tableWord cfg fsize (vaTop elf - vaBase elf) 1))
    (hbad : ¬HeadersOk cfg elf (sizeAlign cfg.psz fsize)) :
    Faulty (createFrom cfg arch .dev (freeKernel cfg fsize (vaTop elf - vaBase elf))
      (freeEnv cfg fsize (vaTop elf - vaBase elf)) (freePlaces cfg)
      ⟨tableWord cfg fsize (vaTop elf - vaBase elf) 1, true⟩ elf fileBin s) := by
  unfold createFrom
  cases hvaset : getProcVaset .dev elf with
  | error e =>
      rw [Eff.lift_error_bind, getProcVaset_error hvaset]
      exact Or.inl rfl
  | ok bounds =>
      have hends := fits_of_getProcVaset hvaset
      obtain ⟨lo, hi⟩ := bounds
      obtain ⟨hloads, rfl, rfl⟩ := (getProcVaset_eq_ok_iff hends).mp hvaset
      rw [Eff.lift_ok_bind]
      dsimp only
      rw [span_fits hloads hends, Eff.lift_ok_bind]
      by_cases hspan : Placeable cfg (vaTop elf - vaBase elf)
      · by_cases hboth : BothFit cfg (sizeAlign cfg.psz fsize) (vaTop elf - vaBase elf)
        · have hnot : ∃ ph ∈ elf.loads, ¬HeaderOk cfg elf fileBin.length ph := by
            by_contra hall
            push Not at hall
            rw [hlen] at hall
            exact hbad ⟨hloads, hends, hspan, fun _ => hall⟩
          have hgranted : (freeEnv cfg fsize (vaTop elf - vaBase elf)).alloc s.state
              (.new cfg.psz (vaTop elf - vaBase elf)) =
              some ⟨procAt cfg fsize, sizeAlign cfg.psz (vaTop elf - vaBase elf)⟩ := by
            unfold freeEnv
            dsimp only
            rw [if_neg fun h => absurd (congrArg AllocParams.asType h.1) RAMType.noConfusion, if_pos ⟨rfl, hboth⟩]
          rw [Eff.bind_of_ok (allocHeld_of_placeable hspan hgranted)]
          exact createWith_faulty hheld hlen hwf hboth hnot rfl
        · exact absurd ⟨hloads, hends, hspan, fun h => absurd h hboth⟩ hbad
      · rw [Eff.bind_of_error (allocHeld_of_not_placeable hspan)]
        exact Or.inl rfl

end Exact

/-- With a file that is right, `new` returns and writes to its own memory only, on every machine. The other way round,
a file with which a checked build is safe on every machine is right. -/
theorem create_safe (hbits : 21 ≤ cfg.vaBits) (arch : Arch) (parse : List Byte → Except String ElfFile)
    (node : FileNode) :
    (FileOk cfg parse node → ∀ p krvm env places s, Machine cfg krvm env places s →
      Safe (create cfg arch p krvm env places parse node ⟨s, 0, []⟩)) ∧
    ((∀ krvm env places s, Machine cfg krvm env places s →
      Safe (create cfg arch .dev krvm env places parse node ⟨s, 0, []⟩)) → FileOk cfg parse node) := by
  refine ⟨fun hok p krvm env places s henv => safe_of_fileOk hbits henv hok, fun hsafe => ?_⟩
  have hsize : Placeable cfg node.size.toNat := by
    by_contra hnot
    refine Faulty.not_safe (Or.inl ?_) (hsafe _ _ _ _ (@machine_free cfg node.size.toNat 0))
    unfold create
    rw [Eff.bind_of_error (allocHeld_of_not_placeable hnot)]
  refine ⟨hsize, fun content elf hroom hread hparse => ?_⟩
  by_contra hbad
  refine Faulty.not_safe ?_ (hsafe _ _ _ _ (@machine_free cfg node.size.toNat (vaTop elf - vaBase elf)))
  have hgranted : ∀ t, (freeEnv cfg node.size.toNat (vaTop elf - vaBase elf)).alloc t
      (bufParams cfg node.size.toNat) = some ⟨cfg.psz.size, sizeAlign cfg.psz node.size.toNat⟩ := by
    intro t
    unfold freeEnv
    exact if_pos ⟨rfl, hroom⟩
  obtain ⟨s₁, hnew, hwf⟩ := @newGlacier_free cfg node.size.toNat (vaTop elf - vaBase elf)
  rcases @create_cases cfg arch .dev (freeKernel cfg node.size.toNat (vaTop elf - vaBase elf))
    (freeEnv cfg node.size.toNat (vaTop elf - vaBase elf)) (freePlaces cfg) parse node ⟨freeRam cfg, 0, []⟩ with
    ⟨e, hbuf, -⟩ | ⟨buf, hbuf, hrest⟩
  · cases (allocHeld_of_placeable hsize (hgranted (freeRam cfg))).symm.trans hbuf
  obtain rfl := Option.some.inj ((hgranted (freeRam cfg)).symm.trans hbuf)
  rcases hrest with ⟨hnone, -⟩ | ⟨content', elf', hread', hparse', hrun⟩
  · exact absurd hparse (hnone content elf hread)
  cases hread.symm.trans hread'
  cases hparse.symm.trans hparse'
  obtain ⟨s₁, hnew, hwf⟩ := @newGlacier_free cfg node.size.toNat (vaTop elf - vaBase elf)
  have hstart : ∀ held, onState (newGlacier cfg (freeKernel cfg node.size.toNat (vaTop elf - vaBase elf))
      (freeEnv cfg node.size.toNat (vaTop elf - vaBase elf))) ⟨freeRam cfg, held, []⟩ =
      (.ok ⟨tableWord cfg node.size.toNat (vaTop elf - vaBase elf) 1, true⟩, ⟨s₁, held, []⟩) := by
    intro held
    unfold onState
    rw [hnew]
  rw [hrun]
  refine Faulty.dropAtEnd (fun _ hin => hin) ?_
  rw [Eff.bind_of_ok (hstart _)]
  refine Faulty.dropOnErr (fun _ hin => hin) (createFrom_faulty rfl ?_ hwf hbad)
  rw [List.length_map, List.length_range]

/-- A file without a segment. -/
def emptyElf : ElfFile := ⟨0x400000, []⟩

/-- A segment with more bytes in the file than in memory. -/
def longElf : ElfFile := ⟨0x400000, [⟨true, 0, 0x400000, 4, 1, 0b101⟩]⟩

/-- A segment whose bytes lie behind the file. -/
def behindElf : ElfFile := ⟨0x400000, [⟨true, 1, 0x400000, 4, 0x10000, 0b101⟩]⟩

/-- A segment that ends where the addresses end. -/
def lastElf : ElfFile := ⟨0x400000, [⟨true, 0, 0xffffffffffffffff, 1, 1, 0b101⟩]⟩

theorem fileOk_plainElf : FileOk narrowCfg (fun _ => .ok plainElf) plainNode where
  size := by
    unfold Placeable
    decide
  headers content elf _ _ hparse := by
    have hloads : plainElf.loads = [⟨true, 0, 0x400000, 4, 0x10000, 0b101⟩] := by decide
    cases hparse
    refine ⟨by decide, ?_, ?_, fun _ => ?_⟩
    · rw [hloads]
      decide
    · unfold Placeable
      decide
    · intro ph hph
      rw [hloads] at hph
      obtain rfl := List.mem_singleton.mp hph
      exact ⟨by decide, by decide, by decide⟩

/-- A machine with three places for memory, and tables below them. -/
def smallEnv : ProcEnv :=
  { fileEnv (fun args => args.size ≤ 0x1000000 ∧ args.align = 0x10000 ∧ args.asType ∈ [.kernelData, .conv]) with
    tablePages := fun r => if r.taken.length ≤ 0x100 then narrowEnv.tablePages r else [] }

theorem smallEnv_alloc {t : ProcRam} {args : AllocParams} {ptr : OwnedPtr} (h : smallEnv.alloc t args = some ptr) :
    ptr.size = sizeAlign narrowCfg.psz args.size ∧ ptr.size ≤ 0x1000000 ∧ args.align ∣ ptr.addr ∧
    (args.asType = .kernelData ∧ ptr.addr = 0x30000000 ∨
      args.asType = .conv ∧ (ptr.addr = 0x20000000 ∨ ptr.addr = 0x40000000)) := by
  unfold smallEnv fileEnv at h
  dsimp only at h
  split_ifs at h with hgrants hbuf
  · obtain rfl := Option.some.inj h
    exact ⟨rfl, (sizeAlign_mono narrowCfg.psz hbuf.2.2).trans (by decide), hbuf.2.1, Or.inl ⟨hbuf.1, rfl⟩⟩
  · obtain ⟨hsmall, haligned, htype⟩ := of_decide_eq_true hgrants
    simp only [narrowEnv, bootEnv, Option.ite_none_right_eq_some, Option.some.injEq] at h
    obtain ⟨⟨halign, -⟩, rfl⟩ := h
    refine ⟨rfl, (sizeAlign_mono narrowCfg.psz hsmall).trans (by decide), halign, Or.inr ⟨?_, ?_⟩⟩
    · rw [haligned] at hbuf
      rcases List.mem_cons.mp htype with hkernel | hconv
      · exact absurd ⟨hkernel, by decide, hsmall⟩ hbuf
      · exact List.mem_singleton.mp hconv
    · dsimp only
      split_ifs
      · exact Or.inr rfl
      · exact Or.inl rfl

theorem machine_small :
    Machine narrowCfg bootGlacier smallEnv (fun _ _ => [0x20000000]) (bootRam narrowCfg) where
  honest :=
    { root := honest_narrowEnv.root
      tablePages root hroot r := by
        unfold smallEnv
        dsimp only
        split_ifs
        · exact honest_narrowEnv.tablePages root hroot r
        · exact fresh_nil _
      alloc t args ptr h := by
        obtain ⟨hsize, hle, halign, hplace⟩ := smallEnv_alloc h
        have hpage : narrowCfg.psz.size = 0x10000 := rfl
        refine ⟨hsize, halign, ?_⟩
        unfold OwnedPtr.fin
        omega
      chunks := honest_narrowEnv.chunks
      room := honest_narrowEnv.room
      stackBuf := honest_narrowEnv.stackBuf }
  root := Option.some_ne_none _
  stackBuf _ := ⟨_, rfl⟩
  places _ _ start h := by
    obtain rfl := List.mem_singleton.mp h
    decide
  notNull t args ptr h := by
    obtain ⟨-, -, -, hplace⟩ := smallEnv_alloc h
    omega
  apart t t' args args' ptr ptr' h h' hne := by
    obtain ⟨-, hle, -, hplace⟩ := smallEnv_alloc h
    obtain ⟨-, hle', -, hplace'⟩ := smallEnv_alloc h'
    have hpage : narrowCfg.psz.size = 0x10000 := rfl
    unfold OwnedPtr.fin
    rcases hplace with ⟨htype, hplace⟩ | ⟨htype, hplace⟩ <;>
      rcases hplace' with ⟨htype', hplace'⟩ | ⟨htype', hplace'⟩
    · exact absurd (htype.trans htype'.symm) hne
    · omega
    · omega
    · exact absurd (htype.trans htype'.symm) hne
  tables t args ptr r table h htable := by
    obtain ⟨-, hle, -, hplace⟩ := smallEnv_alloc h
    right
    unfold smallEnv at htable
    dsimp only at htable
    split_ifs at htable with hfew
    · have hnext : some table ∈ nextTables narrowCfg r := by
        simp only [narrowEnv, bootEnv, checkedTables] at htable
        split_ifs at htable
        · exact htable
        · exact absurd htable List.not_mem_nil
      obtain ⟨i, hi, heq⟩ := List.mem_map.mp hnext
      have hdepth : narrowCfg.depth ≤ 4 := by decide
      have hlt := List.mem_range.mp hi
      obtain rfl := Option.some.inj heq
      rw [toNat_ofNat_lt (by omega)]
      have hpage : narrowCfg.psz.size = 0x10000 := rfl
      omega
    · exact absurd htable List.not_mem_nil

def smallRun : Except BuildStop ProcCtrlBlk × Dealings :=
  create narrowCfg .aarch64 .dev bootGlacier smallEnv (fun _ _ => [0x20000000]) (fun _ => .ok plainElf) plainNode atBoot

theorem create_safe_plainElf : smallRun.1.toBool ∧ Safe smallRun :=
  ⟨by decide +kernel,
    (create_safe (by decide) .aarch64 (fun _ => .ok plainElf) plainNode).1 fileOk_plainElf .dev _ _ _ _ machine_small⟩

/-- Headers that are not right: three panics, and a write behind the memory of the process. -/
theorem create_unsafe :
    (createRun (fun _ => true) emptyElf).1 = .error .panic ∧ (createRun (fun _ => true) behindElf).1 = .error .panic ∧
    (createRun (fun _ => true) lastElf).1 = .error .panic ∧ ¬InBounds (createRun (fun _ => true) longElf).2 := by
  refine ⟨by decide +kernel, by decide +kernel, by decide +kernel, fun h => ?_⟩
  have hwritten : (⟨0x20000000, 4⟩, ⟨0x20000000, 1⟩ ::ₘ {⟨0x30000000, 4⟩}) ∈
      (createRun (fun _ => true) longElf).2.written := by decide +kernel
  obtain ⟨q, hq, hlo, hhi⟩ := h _ hwritten 0x20000001 (by decide) (by decide)
  dsimp only at hq
  rcases Multiset.mem_cons.mp hq with rfl | hq
  · exact absurd hhi (by decide)
  · obtain rfl := Multiset.mem_singleton.mp hq
    exact absurd hlo (by decide)

end ProcCtrlBlk

end UnixKernel
