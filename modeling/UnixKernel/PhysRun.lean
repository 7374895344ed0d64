import UnixKernel.PhysFollow

/-! Runs of `alloc` and `free` on a well-formed allocator with 4 KiB pages. Every pointer that was handed
out as used and not yet freed stays its owner's alone: it is used memory, it shares no byte with another
live pointer and none with the storage of the table. Two situations have to be kept out. When the table is
exactly full, freeing a range from the middle of a merged block grows the table while the rest of that
block is out of it; if the table's own storage lies in that rest, it is freed and then put back as used
(`TableInFlight`). And a request whose end leaves the word is refused by a development build, but served by a
release build. -/

namespace UnixKernel

open Slots Segments

namespace PhysAlloc

/-! ### `free` of a used range -/

/-- The table is full, `p` lies strictly inside a block that cannot be joined with a neighbour, and the
table's storage reaches into the part of that block behind `p`. -/
def TableInFlight (s : PhysAlloc) (p : OwnedPtr) : Prop :=
  s.count = s.max ∧ ∃ b ∈ s.blocks, b.addr < p.addr ∧ p.fin < b.fin ∧
    (s.ptr.addr < b.fin ∧ p.fin < s.ptr.fin) ∧ ∀ c ∈ s.blocks, b.isMergable c = 0

instance (s : PhysAlloc) (p : OwnedPtr) : Decidable (TableInFlight s p) :=
  inferInstanceAs (Decidable (_ ∧ _))

/-- `free` up to its last insertion: the range is out of the table and nothing else has changed. -/
theorem free_cut {s : PhysAlloc} {p : OwnedPtr} (hok : TableOk .size4kiB s) (hsole : ∀ x, s.Sole x)
    (hp : 0 < p.size) (hapart : ∀ x, Holds p x → ¬Holds s.ptr x) (hsafe : ¬TableInFlight s p) :
    (∀ n, free (tableOps .size4kiB (n + 2)) s p = .error .panic) ∨
    ∃ s₃, TableOk .size4kiB s₃ ∧ (∀ x, s₃.view x = if Holds p x then 0 else s.view x) ∧
      s₃.isInit = s.isInit ∧ ∀ n, free (tableOps .size4kiB (n + 2)) s p =
        add (tableOps .size4kiB (n + 2)) s₃ ⟨p.addr, p.size, .conv, false⟩ := by
  obtain ⟨s₂, A, hcut, hfree⟩ := free_eq hp (hsole _) (hsole _)
  by_cases hfits : s₂.Fits A
  · obtain ⟨s₃, hins, -, hadd⟩ := add_ok (fun _ h => hcut.not_hasBefore hp h.1) hfits
    have hden : ∀ x, s₃.den x = if Holds p x then 0 else s.den x := fun x => by
      rw [hins.den_eq, add_comm, hcut.den_eq]
    have hsame := hcut.same.trans hins.same
    refine Or.inr ⟨s₃, hok.of_den hsame fun x hx => ?_, view_eq_of_cleared hden hsame hapart,
      hsame.isInit_eq, fun n => ?_⟩
    · rw [hden, if_neg fun h => hapart x h hx]
    · rw [hfree, hadd]
      rfl
  -- the table is grown while `A` is out of it
  obtain ⟨hpos, -, hafter, hfull⟩ := not_fits hfits
  rw [hcut.same.max_eq] at hfull
  obtain ⟨hcount, b, hb, hblo, hbhi, hAfin, hAtag, hnobefore, himp⟩ := hcut.full hpos hfull
  have hclear : ∀ x, Holds A x → ¬Holds s.ptr x := by
    intro x hx hxt
    refine hsafe ⟨hcount, b, hb, hblo, hbhi, ?_, fun c hc => ?_⟩
    · have haddr := hcut.addr_eq
      rw [RAMBlock.holds_iff] at hx
      rw [OwnedPtr.holds_iff] at hxt
      simp only [RAMBlock.fin, OwnedPtr.fin] at hAfin haddr ⊢
      omega
    · have hbsize : 0 < b.size := by
        simp only [RAMBlock.fin, OwnedPtr.fin] at hbhi
        omega
      rw [isMergable_eq hbsize]
      split_ifs with hc' hend hend'
      · exact absurd (himp ⟨c, hc, hc'.1, hc'.2, hend⟩) hafter
      · exact absurd ⟨c, hc, hc'.1, hc'.2, hend'⟩ hnobefore
      · rfl
      · rfl
  have hden₂ : ∀ x, Holds s.ptr x → s₂.den x = s.den x := by
    intro x hx
    have hden := hcut.den_eq x
    rwa [part_neg fun h => hclear x h hx, add_zero, if_neg fun h => hapart x h hx] at hden
  have hok₂ := hok.of_den hcut.same hden₂
  have hsole₂ : ∀ x, s₂.Sole x := by
    intro x
    have hden := hcut.den_eq x
    have hle : s₂.den x ≤ s₂.den x + part A x := Multiset.le_add_right _ _
    rw [Sole]
    refine le_trans (Multiset.card_le_card hle) ?_
    rw [hden]
    split_ifs
    · exact Nat.zero_le 1
    · exact hsole x
  have hclear₂ : ∀ x, Holds A x → ¬Holds s₂.ptr x := by
    rw [hcut.same.ptr_eq]
    exact hclear
  rcases add_full hok₂ (Or.inl rfl) (fun _ _ _ _ x _ => hsole₂ x) hclear₂ (Or.inl rfl) with
    hpanic | ⟨s₃, hok₃, -, hview, hinit, hadd⟩
  · refine Or.inl fun n => ?_
    rw [hfree, hpanic]
    rfl
  · refine Or.inr ⟨s₃, hok₃, fun x => ?_, hinit.trans hcut.same.isInit_eq, fun n => ?_⟩
    · rw [hview]
      have hden := hcut.den_eq x
      by_cases hx : Holds s.ptr x
      · rw [view_of_holds (by rw [hcut.same.ptr_eq]; exact hx), part_neg fun h => hclear x h hx, zero_add,
          if_neg fun h => hapart x h hx, view_of_holds hx]
      · rw [view_of_not_holds (by rw [hcut.same.ptr_eq]; exact hx), add_comm, hden, view_of_not_holds hx]
    · rw [hfree, hadd]
      rfl

/-- `free` of a nonempty range outside the table's storage: it panics for want of memory, or the range
becomes free memory and nothing else changes. -/
theorem free_spec_full {s : PhysAlloc} {p : OwnedPtr} (hok : TableOk .size4kiB s)
    (hsole : ∀ x, s.Sole x) (hp : 0 < p.size) (hapart : ∀ x, Holds p x → ¬Holds s.ptr x)
    (hsafe : ¬TableInFlight s p) :
    (∀ n, free (tableOps .size4kiB (n + 2)) s p = .error .panic) ∨
    ∃ s', TableOk .size4kiB s' ∧
      (∀ x, s'.view x = if Holds p x then {(.conv, false)} else s.view x) ∧ s'.isInit = s.isInit ∧
      ∀ n, free (tableOps .size4kiB (n + 2)) s p = .ok s' := by
  rcases free_cut hok hsole hp hapart hsafe with hpanic | ⟨s₃, hok₃, hview₃, hinit₃, hfree⟩
  · exact Or.inl hpanic
  have hsole₃ : ∀ x, s₃.Sole x := by
    intro x
    rw [hok₃.sole_iff, hview₃]
    split_ifs
    · exact Nat.zero_le 1
    · exact hok.sole_iff.mp (hsole x)
  -- the range is in no block, the table's storage is
  have hclear : ∀ x, Holds (⟨p.addr, p.size, .conv, false⟩ : RAMBlock) x → ¬Holds s₃.ptr x := by
    intro x hx hx'
    have hview := hview₃ x
    rw [view_of_holds hx', if_pos (show Holds p x from hx)] at hview
    simp at hview
  rcases add_full hok₃ (Or.inl rfl) (fun _ _ _ _ x _ => hsole₃ x) hclear (Or.inl rfl) with
    hpanic | ⟨s', hok', -, hview, hinit, hadd⟩
  · exact Or.inl fun n => by rw [hfree, hpanic]
  · exact Or.inr ⟨s', hok', view_eq_of_replaced hview₃ hview, hinit.trans hinit₃,
      fun n => by rw [hfree, hadd]⟩

end PhysAlloc

/-! ### Runs -/

open PhysAlloc

/-- A call on the allocator. -/
inductive Call where
  | alloc (args : AllocParams)
  | free (p : OwnedPtr)

/-- The allocator together with the pointers that are out: handed out as used and not freed since. -/
structure Held where
  state : PhysAlloc
  live : List OwnedPtr

namespace Held

/-- One call. A pointer is freed only while it is live, and only where `guard` allows it; a panic ends
the run. -/
def step (p : Profile) (depth : Nat) (guard : PhysAlloc → OwnedPtr → Bool) (h : Held) : Call → Option Held
  | .alloc args =>
      match PhysWord.alloc p (PhysWord.tableOps p .size4kiB depth) .size4kiB h.state args with
      | .ok (some q, s) => some ⟨s, if args.used then q :: h.live else h.live⟩
      | .ok (none, s) => some ⟨s, h.live⟩
      | .error _ => none
  | .free q =>
      if q ∈ h.live ∧ guard h.state q then
        match PhysWord.free p (PhysWord.tableOps p .size4kiB depth) h.state q with
        | .ok s => some ⟨s, h.live.erase q⟩
        | .error _ => none
      else none

/-- The calls one after the other; `none` when one of them may not be made or does not return. -/
def run (p : Profile) (depth : Nat) (guard : PhysAlloc → OwnedPtr → Bool) : Held → List Call → Option Held
  | h, [] => some h
  | h, c :: cs => (h.step p depth guard c).bind fun h' => run p depth guard h' cs

/-- Live pointers belong to their holders alone. -/
structure Safe (h : Held) : Prop where
  live_apart : h.live.Pairwise fun p q => ∀ x, Holds p x → ¬Holds q x
  covered : ∀ p ∈ h.live, ∀ x, Holds p x → ∃ b ∈ h.state.blocks, Holds b x
  used : ∀ p ∈ h.live, ∀ b ∈ h.state.blocks, ∀ x, Holds p x → Holds b x → b.used = true
  storage_apart : ∀ p ∈ h.live, ∀ x, Holds p x → ¬Holds h.state.ptr x
  disjoint : h.state.blocks.Pairwise fun b c => b.valid → c.valid → b.fin ≤ c.addr ∨ c.fin ≤ b.addr

/-- The invariant of the runs, in terms of the view: live memory is used in it. -/
structure Inv (h : Held) : Prop where
  wellFormed : WellFormed .size4kiB h.state
  size_pos : ∀ p ∈ h.live, 0 < p.size
  live_apart : h.live.Pairwise fun p q => ∀ x, Holds p x → ¬Holds q x
  live_used : ∀ p ∈ h.live, ∀ x, Holds p x → ∃ ty, h.state.view x = {(ty, true)}

theorem Inv.storage_apart {h : Held} (hinv : Inv h) {p : OwnedPtr} (hp : p ∈ h.live) {x : Nat}
    (hx : Holds p x) : ¬Holds h.state.ptr x := by
  intro hxt
  obtain ⟨ty, hview⟩ := hinv.live_used p hp x hx
  rw [view_of_holds hxt] at hview
  simp at hview

theorem Inv.safe {h : Held} (hinv : Inv h) : Safe h := by
  have hden : ∀ p ∈ h.live, ∀ x, Holds p x → ∃ ty, h.state.den x = {(ty, true)} := by
    intro p hp x hx
    obtain ⟨ty, hview⟩ := hinv.live_used p hp x hx
    exact ⟨ty, by rw [← view_of_not_holds (hinv.storage_apart hp hx), hview]⟩
  refine ⟨hinv.live_apart, fun p hp x hx => ?_, fun p hp b hb x hx hbx => ?_,
    fun p hp x hx => hinv.storage_apart hp hx, hinv.wellFormed.disjoint⟩
  · obtain ⟨ty, hty⟩ := hden p hp x hx
    have hmem : (ty, true) ∈ h.state.den x := by rw [hty]; exact Multiset.mem_singleton_self _
    obtain ⟨b, hb, hbx, -⟩ := mem_den.mp hmem
    exact ⟨b, Multiset.mem_coe.mp hb, hbx⟩
  · obtain ⟨ty, hty⟩ := hden p hp x hx
    have hmem := tag_mem_den (Multiset.mem_coe.mpr hb) hbx
    change _ ∈ h.state.den x at hmem
    rw [hty, Multiset.mem_singleton] at hmem
    exact congrArg Prod.snd hmem

theorem Inv.of_view {h : Held} (hinv : Inv h) {s' : PhysAlloc} (hwf : WellFormed .size4kiB s')
    (hview : ∀ x ty, h.state.view x = {(ty, true)} → s'.view x = {(ty, true)}) : Inv ⟨s', h.live⟩ := by
  refine ⟨hwf, hinv.size_pos, hinv.live_apart, fun p hp x hx => ?_⟩
  obtain ⟨ty, hty⟩ := hinv.live_used p hp x hx
  exact ⟨ty, hview x ty hty⟩

theorem Inv.alloc {h : Held} (hinv : Inv h) {args : AllocParams} {r : Option OwnedPtr} {s' : PhysAlloc}
    (hout : Outcome .size4kiB h.state args r s') :
    Inv ⟨s', match r with
      | some p => if args.used then p :: h.live else h.live
      | none => h.live⟩ := by
  have hwf := hinv.wellFormed
  cases hout with
  | refused => exact hinv
  | grown hreq hprep =>
      exact hinv.of_view (hprep.wellFormed hwf) fun x ty hx => by rw [hprep.view_eq, hx]
  | @taken p s₁ _ hreq hprep htaken =>
      have hwf' := htaken.wellFormed (hprep.wellFormed hwf)
      have hwas : ∀ x, Holds p x → h.state.view x = {(args.fromType, false)} :=
        fun x hx => htaken.view_was_free hwf.tableOk hprep hx
      have hapart : ∀ x ty, h.state.view x = {(ty, true)} → ¬Holds p x := by
        intro x ty hview hx
        rw [hwas x hx] at hview
        simp at hview
      have hinv' : Inv ⟨s', h.live⟩ := hinv.of_view hwf' fun x ty hx => by
        rw [htaken.view_eq, if_neg (hapart x ty hx), hprep.view_eq, hx]
      by_cases hused : args.used = true
      · simp only [hused, if_true]
        refine ⟨hwf', ?_, ?_, ?_⟩
        · rw [List.forall_mem_cons]
          refine ⟨?_, hinv.size_pos⟩
          rw [requested_size hreq]
          exact sizeAlign_pos _ _
        · refine List.pairwise_cons.mpr ⟨fun q hq x hx hqx => ?_, hinv.live_apart⟩
          obtain ⟨ty, hty⟩ := hinv.live_used q hq x hqx
          exact hapart x ty hty hx
        · rw [List.forall_mem_cons]
          refine ⟨fun x hx => ⟨args.asType, ?_⟩, hinv'.live_used⟩
          rw [htaken.view_eq, if_pos hx, hused]
      · simp only [hused, Bool.false_eq_true, if_false]
        exact hinv'

theorem Inv.free {h : Held} (hinv : Inv h) {p : OwnedPtr} (hp : p ∈ h.live) {s' : PhysAlloc}
    (hok : TableOk .size4kiB s')
    (hview : ∀ x, s'.view x = if Holds p x then {(.conv, false)} else h.state.view x)
    (hinit : s'.isInit = h.state.isInit) : Inv ⟨s', h.live.erase p⟩ := by
  have hsym : ∀ {q r : OwnedPtr}, (∀ x, Holds q x → ¬Holds r x) → ∀ x, Holds r x → ¬Holds q x :=
    fun hqr x hr hq => hqr x hq hr
  have hperm := List.perm_cons_erase hp
  obtain ⟨hfirst, hrest⟩ := List.pairwise_cons.mp ((hperm.pairwise_iff hsym).mp hinv.live_apart)
  refine ⟨hinv.wellFormed.replaced hok hview hinit, fun q hq => hinv.size_pos q (List.mem_of_mem_erase hq), hrest,
    fun q hq x hx => ?_⟩
  obtain ⟨ty, hty⟩ := hinv.live_used q (List.mem_of_mem_erase hq) x hx
  exact ⟨ty, by rw [hview, if_neg fun hpx => hfirst q hq x hpx hx, hty]⟩

/-- The table and the live pointers lie where no sum leaves the word. -/
structure InWord (p : Profile) (h : Held) : Prop where
  table : Sealed (PhysWord.inWord p) h.state
  live : ∀ q ∈ h.live, (PhysWord.inWord p).Open q

theorem InWord.alloc {p : Profile} {h : Held} (hword : InWord p h) {o : TableOps} (ho : Keeps (PhysWord.inWord p) o)
    {args : AllocParams} {r : Option OwnedPtr} {s' : PhysAlloc}
    (halloc : PhysAlloc.alloc .size4kiB o h.state args = .ok (r, s')) :
    InWord p ⟨s', match r with
      | some q => if args.used then q :: h.live else h.live
      | none => h.live⟩ := by
  obtain ⟨htable, hnew⟩ := hword.table.alloc ho halloc
  refine ⟨htable, ?_⟩
  cases r with
  | none => exact hword.live
  | some q =>
      by_cases hused : args.used = true
      · simp only [hused, if_true]
        exact List.forall_mem_cons.mpr ⟨(hnew q rfl).1, hword.live⟩
      · simp only [hused, Bool.false_eq_true, if_false]
        exact hword.live

/-- One step on words: a development build takes the exact step or stops, a release build takes the exact step where no
sum leaves the word. -/
theorem Inv.step {p : Profile} {n : Nat} {h h' : Held} (hinv : Inv h) (hword : p ≠ .dev → InWord p h) {c : Call}
    (hfits : p ≠ .dev → ∀ args, c = .alloc args → PhysWord.Fits .size4kiB args)
    (hstep : h.step p (n + 2) (fun s q => !decide (TableInFlight s q)) c = some h') :
    Inv h' ∧ (p ≠ .dev → InWord p h') := by
  have hwf := hinv.wellFormed
  have how := PhysWord.tableOps_follow (p := p) id (n + 2)
  have ho : p ≠ .dev → Keeps (PhysWord.inWord p) (tableOps .size4kiB (n + 2)) := fun _ => keeps_tableOps _ _
  have htable := fun hrel => (hword hrel).table
  cases c with
  | alloc args =>
      obtain ⟨r, s', hout, halloc⟩ := alloc_spec args hwf.tableOk (Or.inl rfl) (Or.inl rfl) hwf.sole
      have hinv' := hinv.alloc hout
      have hword' := fun hrel => (hword hrel).alloc (ho hrel) (halloc n)
      rcases (PhysWord.alloc_follows id how ho htable fun hrel => hfits hrel args rfl).ok_or (halloc n) with
        hok | ⟨-, hstop⟩
      · simp only [Held.step, hok] at hstep
        cases r with
        | some q =>
            cases hstep
            exact ⟨hinv', hword'⟩
        | none =>
            cases hstep
            exact ⟨hinv', hword'⟩
      · simp only [Held.step, hstop] at hstep
        cases hstep
  | free q =>
      simp only [Held.step] at hstep
      split_ifs at hstep with hguard
      obtain ⟨hq, hsafe⟩ := hguard
      rw [Bool.not_eq_true', decide_eq_false_iff_not] at hsafe
      split at hstep
      · rename_i s₁ hfree
        cases hstep
        have hopen := fun hrel => (hword hrel).live q hq
        have hexact := (PhysWord.free_follows id how ho htable hopen fun hrel =>
          (PhysWord.fin_le_of_open (hopen hrel) (hinv.size_pos q hq)).trans_lt (by decide)).ok hfree
        refine ⟨?_, fun hrel => ⟨(htable hrel).free (ho hrel) (hopen hrel) hexact, fun q' hq' => ?_⟩⟩
        · rcases free_spec_full hwf.tableOk hwf.sole (hinv.size_pos q hq)
            (fun x hx => hinv.storage_apart hq hx) hsafe with hpanic | ⟨s', hok', hview, hinit, hfree'⟩
          · rw [hpanic n] at hexact
            cases hexact
          · rw [hfree' n] at hexact
            cases hexact
            exact hinv.free hq hok' hview hinit
        · exact (hword hrel).live q' (List.mem_of_mem_erase hq')
      · cases hstep

theorem Inv.run {p : Profile} {n : Nat} {h h' : Held} {calls : List Call} (hinv : Inv h)
    (hword : p ≠ .dev → InWord p h)
    (hfits : p ≠ .dev → ∀ args, .alloc args ∈ calls → PhysWord.Fits .size4kiB args)
    (hrun : h.run p (n + 2) (fun s q => !decide (TableInFlight s q)) calls = some h') : Inv h' := by
  induction calls generalizing h with
  | nil =>
      cases hrun
      exact hinv
  | cons c cs ih =>
      rw [Held.run, Option.bind_eq_some_iff] at hrun
      obtain ⟨h₁, hstep, hrest⟩ := hrun
      obtain ⟨hinv₁, hword₁⟩ := hinv.step hword
        (fun hrel args hc => hfits hrel args (by rw [hc]; exact List.mem_cons_self)) hstep
      exact ih hinv₁ hword₁ (fun hrel args hargs => hfits hrel args (List.mem_cons_of_mem c hargs)) hrest

/-- Every run of `alloc` and `free` that does not free a range while the table would be in flight keeps
the live pointers safe, from any well-formed allocator on; in a release build, if its memory and its requests are
small enough. -/
theorem run_safe {p : Profile} {n : Nat} {s : PhysAlloc} {calls : List Call} {h : Held}
    (hwf : WellFormed .size4kiB s) (hbounded : p = .release → PhysWord.Bounded s)
    (hfits : p = .release → ∀ args, .alloc args ∈ calls → PhysWord.Fits .size4kiB args)
    (hrun : run p (n + 2) (fun s q => !decide (TableInFlight s q)) ⟨s, []⟩ calls = some h) : Safe h := by
  have hrel : p ≠ .dev → p = .release := by cases p <;> simp
  refine (Inv.run ?_ (fun hnot => ?_) (fun hnot => hfits (hrel hnot)) hrun).safe
  · exact ⟨hwf, fun q hq => (by cases hq), List.Pairwise.nil, fun q hq => (by cases hq)⟩
  · exact ⟨PhysWord.sealed_of_wellFormed hwf (hbounded (hrel hnot)) fun hdev => absurd hdev hnot,
      fun q hq => (by cases hq)⟩

theorem run_safe_sample : ∃ h, run .release 2 (fun s q => !decide (TableInFlight s q)) ⟨sample, []⟩
    [.alloc (AllocParams.new .size4kiB 0x1000),
      .alloc ((AllocParams.new .size4kiB 0x1800).asTy .kernelData), .free ⟨0x300000, 0x1000⟩] = some h ∧
    h.live = [⟨0x301000, 0x2000⟩] ∧ Safe h := by
  have hlive : ((run .release 2 (fun s q => !decide (TableInFlight s q)) ⟨sample, []⟩
      [.alloc (AllocParams.new .size4kiB 0x1000),
        .alloc ((AllocParams.new .size4kiB 0x1800).asTy .kernelData),
        .free ⟨0x300000, 0x1000⟩]).map live) = some [⟨0x301000, 0x2000⟩] := by decide +kernel
  obtain ⟨h, hrun, hlive⟩ := Option.map_eq_some_iff.mp hlive
  refine ⟨h, hrun, hlive, run_safe (n := 0) sample_wellFormed (fun _ => by decide +kernel) (fun _ args hargs => ?_)
    hrun⟩
  simp only [List.mem_cons, List.not_mem_nil, or_false, reduceCtorEq, Call.alloc.injEq] at hargs
  rcases hargs with rfl | rfl <;> exact ⟨by decide +kernel, fun addr haddr => (by cases haddr)⟩

/-- A table in which the storage has used memory on both sides once two holes are filled: four slots are
vacant, 1 MiB is free. -/
def packed : PhysAlloc where
  ptr := ⟨0x102000, 0x1000⟩
  blocks := [⟨0x100000, 0x1000, .conv, true⟩, ⟨0x101000, 0x1000, .conv, false⟩,
    ⟨0x102000, 0x1000, .conv, true⟩, ⟨0x200000, 0x1000, .conv, true⟩, ⟨0x201000, 0x1000, .conv, false⟩,
    ⟨0x202000, 0x1000, .conv, true⟩, ⟨0x300000, 0x100000, .conv, false⟩] ++
    ((List.range 117).map fun i => ⟨0x10000000 + i * 0x2000, 0x1000, .reserved, false⟩) ++
    List.replicate 4 RAMBlock.newInvalid
  isInit := true

theorem packed_wellFormed : WellFormed .size4kiB packed :=
  wellFormed_of_mem (b := ⟨0x102000, 0x1000, .conv, true⟩)
    ⟨⟨0, by decide +kernel⟩, by decide, by decide +kernel⟩ (by decide +kernel) (by decide +kernel) rfl
    (by decide) (by decide) rfl

/-- A request for one page at a fixed address. -/
def pageAt (addr : Nat) : Call := .alloc ((AllocParams.new .size4kiB 0x1000).atAddr addr)

/-- Without the guard: the two holes are filled, three pages are taken from the middle of the free
memory, one hole is freed and fills the last slot, and freeing the other hole grows the table while the
block with its storage is out. The blocks of the table overlap afterwards. In a release build they also do after a
single request for almost the whole address space, whose end wraps around. -/
theorem run_overlapping : WellFormed .size4kiB packed ∧ WellFormed .size4kiB sample ∧
    (∀ p, ∃ h, run p 2 (fun _ _ => true) ⟨packed, []⟩ [pageAt 0x101000, pageAt 0x201000, pageAt 0x310000,
      pageAt 0x320000, pageAt 0x330000, .free ⟨0x201000, 0x1000⟩, .free ⟨0x101000, 0x1000⟩] = some h ∧
      ¬h.state.blocks.Pairwise fun b c => b.valid → c.valid → b.fin ≤ c.addr ∨ c.fin ≤ b.addr) ∧
    ∃ h, run .release 2 (fun s q => !decide (TableInFlight s q)) ⟨sample, []⟩
        [.alloc (AllocParams.new .size4kiB 0xfffffffffffff000)] = some h ∧
      ¬h.state.blocks.Pairwise fun b c => b.valid → c.valid → b.fin ≤ c.addr ∨ c.fin ≤ b.addr := by
  refine ⟨packed_wellFormed, sample_wellFormed, fun p => ?_, ?_⟩
  · have hrun : ((run p 2 (fun _ _ => true) ⟨packed, []⟩ [pageAt 0x101000, pageAt 0x201000,
        pageAt 0x310000, pageAt 0x320000, pageAt 0x330000, .free ⟨0x201000, 0x1000⟩,
        .free ⟨0x101000, 0x1000⟩]).map fun h => decide (h.state.blocks.Pairwise
          fun b c => b.valid → c.valid → b.fin ≤ c.addr ∨ c.fin ≤ b.addr)) = some false := by
      cases p <;> decide +kernel
    obtain ⟨h, hrun, hnot⟩ := Option.map_eq_some_iff.mp hrun
    exact ⟨h, hrun, of_decide_eq_false hnot⟩
  · have hrun : ((run .release 2 (fun s q => !decide (TableInFlight s q)) ⟨sample, []⟩
        [.alloc (AllocParams.new .size4kiB 0xfffffffffffff000)]).map fun h => decide (h.state.blocks.Pairwise
          fun b c => b.valid → c.valid → b.fin ≤ c.addr ∨ c.fin ≤ b.addr)) = some false := by decide +kernel
    obtain ⟨h, hrun, hnot⟩ := Option.map_eq_some_iff.mp hrun
    exact ⟨h, hrun, of_decide_eq_false hnot⟩

end Held

end UnixKernel
