import UnixKernel.KernelHeap

/-! What `handle_oom` asks `PHYS_ALLOC` for, and what it puts behind the heap, whatever the answers are. The calls are
written down while `handle_oom` runs; an abstract machine that only knows what is still missing and where the heap ends
says which of them may be made. -/

namespace UnixKernel

open Runs

/-- A request for a number of bytes with its answer, or a chunk that has become part of the heap at an address. -/
inductive OomEvent where
  | ask (trySz : Nat) (answer : Option OwnedPtr)
  | piece (va : Nat) (ptr : OwnedPtr)

/-- The heap, and what has happened during the call. -/
structure OomRecord where
  heap : HeapState
  events : List OomEvent

/-- The number of bytes that are still missing, and the end of the heap. -/
structure Demand where
  rem : Nat
  top : Nat

namespace Demand

def step (d : Demand) : OomEvent → Demand
  | .ask _ _ => d
  | .piece _ ptr => ⟨d.rem - ptr.size, d.top + ptr.size⟩

/-- Requests are for whole pages that are missing, and a chunk begins where the heap ends. -/
def Allows (cfg : RvmCfg) (d : Demand) : OomEvent → Prop
  | .ask trySz _ => 0 < trySz ∧ cfg.psz.size ∣ trySz ∧ trySz ≤ d.rem
  | .piece va ptr => va = d.top % 2 ^ 64 ∧ ptr.size ≤ d.rem

theorem rem_add_top {cfg : RvmCfg} {d : Demand} {events : List OomEvent} (h : Admits step (Allows cfg) d events) :
    (run step d events).rem + (run step d events).top = d.rem + d.top := by
  refine @run_induction _ _ step (Allows cfg) (fun d' => d'.rem + d'.top = d.rem + d.top) ?_ _ _ rfl h
  intro d' e hd' he
  cases e with
  | ask => exact hd'
  | piece va ptr =>
      have hle := he.2
      show d'.rem - ptr.size + (d'.top + ptr.size) = d.rem + d.top
      omega

end Demand

namespace KheapHandler

open Glacier

/-! ### `handle_oom` with a record -/

section Record

variable (cfg : RvmCfg) (arch : Arch) (p : Profile) (g : Glacier) (base : Nat) (env : HeapEnv)

def tryAllocRec : Nat → Nat → Eff OomRecord OomStop OwnedPtr
  | 0, _ => Eff.lift (.error .fuel)
  | fuel + 1, trySz => fun r =>
    let events := r.events ++ [.ask trySz (env.alloc r.heap trySz)]
    match env.alloc r.heap trySz with
    | some ptr => (.ok ptr, ⟨{ r.heap with chunks := r.heap.chunks ++ [ptr], asked := r.heap.asked + 1 }, events⟩)
    | none =>
      if cfg.psz.size < trySz then
        tryAllocRec fuel (trySz / (cfg.psz.size <<< 1) * cfg.psz.size)
          ⟨{ r.heap with asked := r.heap.asked + 1 }, events⟩
      else (.error .err, ⟨{ r.heap with asked := r.heap.asked + 1 }, events⟩)

/-- The chunk is written down with the address that it is mapped to. -/
def growByRec (ptr : OwnedPtr) : Eff OomRecord OomStop Unit := fun r =>
  match p.fit OomStop.panic 64 (base + r.heap.size : Nat), growBy cfg arch p g base env ptr r.heap with
  | .ok top, (.ok (), s) => (.ok (), ⟨s, r.events ++ [.piece top ptr]⟩)
  | _, (x, s) => (x, ⟨s, r.events⟩)

def growLoopRec : Nat → Nat → Eff OomRecord OomStop Unit
  | 0, _ => Eff.lift (.error .fuel)
  | fuel + 1, rem =>
    if rem = 0 then Eff.lift (.ok ())
    else do
      let ptr ← tryAllocRec cfg env rem rem
      growByRec cfg arch p g base env ptr
      growLoopRec fuel (rem - ptr.size)

def handleOomRec (layout : Layout) : Eff OomRecord OomStop Unit := do
  let size ← Eff.lift (request cfg p layout)
  growLoopRec cfg arch p g base env (size + 1) size

end Record

/-! ### The record changes nothing -/

section Erase

variable {cfg : RvmCfg} {arch : Arch} {p : Profile} {g : Glacier} {base : Nat} {env : HeapEnv}

theorem tryAllocRec_erases (fuel trySz : Nat) :
    Eff.Erases OomRecord.heap (tryAllocRec cfg env fuel trySz) (tryAlloc cfg env fuel trySz) := by
  induction fuel generalizing trySz with
  | zero => exact Eff.erases_lift _
  | succ fuel ih =>
      intro r
      cases halloc : env.alloc r.heap trySz with
      | some ptr => simp only [tryAlloc, tryAllocRec, halloc]
      | none =>
          simp only [tryAlloc, tryAllocRec, halloc]
          split_ifs with hlt
          · exact ih _ ⟨_, r.events ++ [.ask trySz none]⟩
          · rfl

theorem growByRec_erases (ptr : OwnedPtr) :
    Eff.Erases OomRecord.heap (growByRec cfg arch p g base env ptr) (growBy cfg arch p g base env ptr) := by
  intro r
  unfold growByRec
  split
  · next hgrow => exact hgrow
  · next hgrow _ => exact hgrow

theorem growLoopRec_erases (fuel rem : Nat) :
    Eff.Erases OomRecord.heap (growLoopRec cfg arch p g base env fuel rem)
      (growLoop cfg arch p g base env fuel rem) := by
  induction fuel generalizing rem with
  | zero => exact Eff.erases_lift _
  | succ fuel ih =>
      unfold growLoopRec growLoop
      split_ifs with hrem
      · exact Eff.erases_lift _
      · exact (tryAllocRec_erases rem rem).bind fun ptr => (growByRec_erases ptr).bind fun _ => ih _

theorem handleOomRec_erases (layout : Layout) :
    Eff.Erases OomRecord.heap (handleOomRec cfg arch p g base env layout) (handleOom cfg arch p g base env layout) :=
  (Eff.erases_lift _).bind fun size => growLoopRec_erases (size + 1) size

end Erase

/-! ### What the record says -/

section Spec

variable {cfg : RvmCfg} {arch : Arch} {p : Profile} {g : Glacier} {base : Nat} {env : HeapEnv} {d : Demand}
  {r : OomRecord} {rem : Nat}

variable (cfg base d) in
/-- All that was written down was allowed, and has led to the heap and to what the outer loop still asks for. -/
structure Tracks (rem : Nat) (r : OomRecord) : Prop where
  admits : Admits Demand.step (Demand.Allows cfg) d r.events
  state : run Demand.step d r.events = ⟨rem, base + r.heap.size⟩

theorem Tracks.ask {trySz : Nat} {s : HeapState} (h : Tracks cfg base d rem r) (hpos : 0 < trySz)
    (hdvd : cfg.psz.size ∣ trySz) (hle : trySz ≤ rem) (hsize : s.size = r.heap.size) (answer : Option OwnedPtr) :
    Tracks cfg base d rem ⟨s, r.events ++ [.ask trySz answer]⟩ where
  admits := h.admits.concat (by
    rw [h.state]
    exact ⟨hpos, hdvd, hle⟩)
  state := by
    rw [run_concat, h.state, hsize]
    rfl

theorem Tracks.piece {va : Nat} {ptr : OwnedPtr} {s : HeapState} (h : Tracks cfg base d rem r)
    (hva : va = (base + r.heap.size) % 2 ^ 64) (hle : ptr.size ≤ rem) (hsize : s.size = r.heap.size + ptr.size) :
    Tracks cfg base d (rem - ptr.size) ⟨s, r.events ++ [.piece va ptr]⟩ where
  admits := h.admits.concat (by
    rw [h.state]
    exact ⟨hva, hle⟩)
  state := by
    rw [run_concat, h.state, hsize, ← Nat.add_assoc]
    rfl

variable (cfg base d) in
/-- The last thing that happened is that a request for one page was refused. -/
structure Refused (r : OomRecord) : Prop where
  admits : Admits Demand.step (Demand.Allows cfg) d r.events
  last : ∃ before, r.events = before ++ [.ask cfg.psz.size none]

/-- The inner loop ends with whole pages that are missing, or when one page is refused. -/
theorem tryAllocRec_spec (hsize : ∀ s trySz ptr, env.alloc s trySz = some ptr → ptr.size = sizeAlign cfg.psz trySz)
    (h : Tracks cfg base d rem r) {fuel trySz : Nat} (hpos : 0 < trySz) (hfuel : trySz ≤ fuel)
    (hdvd : cfg.psz.size ∣ trySz) (hle : trySz ≤ rem) :
    (∃ ptr r', tryAllocRec cfg env fuel trySz r = (.ok ptr, r') ∧ Tracks cfg base d rem r' ∧ 0 < ptr.size ∧
      cfg.psz.size ∣ ptr.size ∧ ptr.size ≤ rem) ∨
    ∃ r', tryAllocRec cfg env fuel trySz r = (.error .err, r') ∧ Refused cfg d r' := by
  induction fuel generalizing r trySz with
  | zero => omega
  | succ fuel ih =>
      have hpage := Nat.le_of_dvd hpos hdvd
      have hasked : ∀ s answer, s.size = r.heap.size →
          Tracks cfg base d rem ⟨s, r.events ++ [.ask trySz answer]⟩ :=
        fun s answer hs => h.ask hpos hdvd hle hs answer
      cases halloc : env.alloc r.heap trySz with
      | some ptr =>
          left
          have hptr := hsize _ _ _ halloc
          rw [sizeAlign, if_neg (Nat.not_lt.mpr hpage), alignUp_of_dvd hdvd] at hptr
          simp only [tryAllocRec, halloc]
          refine ⟨ptr, _, rfl, hasked _ _ rfl, ?_⟩
          rw [hptr]
          exact ⟨hpos, hdvd, hle⟩
      | none =>
          simp only [tryAllocRec, halloc]
          by_cases hlt : cfg.psz.size < trySz
          · obtain ⟨hpos', hlt'⟩ := half_pages_lt hlt hdvd
            have hagain := hasked { r.heap with asked := r.heap.asked + 1 } none rfl
            rw [if_pos hlt]
            exact ih hagain hpos' (by omega) (Nat.dvd_mul_left _ _) (by omega)
          · right
            have hone : trySz = cfg.psz.size := by omega
            rw [if_neg hlt]
            exact ⟨_, rfl, (hasked { r.heap with asked := r.heap.asked + 1 } none rfl).admits, r.events, by rw [hone]⟩

/-- A round either panics or ends with a heap that is longer by the chunk. -/
theorem growBy_cases (hclaim : ∀ s, env.claim s = true) (ptr : OwnedPtr) (s : HeapState) :
    (∃ s', growBy cfg arch p g base env ptr s = (.error .panic, s')) ∨
    ∃ top s', p.fit OomStop.panic 64 (base + s.size : Nat) = .ok top ∧
      growBy cfg arch p g base env ptr s = (.ok (), s') ∧ s'.size = s.size + ptr.size := by
  have hram : ∀ m s, (∃ s', onRam m s = (.error .panic, s')) ∨
      ∃ s', onRam m s = (.ok (), s') ∧ s'.size = s.size := by
    intro m s
    unfold onRam
    split
    · exact Or.inl ⟨_, rfl⟩
    · exact Or.inr ⟨_, rfl, rfl⟩
  unfold growBy
  cases hfit : p.fit OomStop.panic 64 ((base + s.size : Nat) : Int) with
  | error e =>
      left
      rw [Profile.eq_of_fit_error hfit]
      exact ⟨s, rfl⟩
  | ok top =>
      rw [Eff.lift_ok_bind]
      rcases hram (mapRange cfg arch p g env.tables top ptr.addr ptr.size (arch.mapFlag .kRwo)) s with
        ⟨s₁, hmap⟩ | ⟨s₁, hmap, hsize₁⟩
      · exact Or.inl ⟨s₁, Eff.bind_of_error hmap⟩
      rw [Eff.bind_of_ok hmap]
      rcases hram (unmapRange cfg p g ptr.addr ptr.size) s₁ with ⟨s₂, hunmap⟩ | ⟨s₂, hunmap, hsize₂⟩
      · exact Or.inl ⟨s₂, Eff.bind_of_error hunmap⟩
      rw [Eff.bind_of_ok hunmap]
      right
      split_ifs with hzero hc
      · refine ⟨top, _, rfl, rfl, ?_⟩
        rw [hzero, Nat.zero_add]
      · exact absurd (hclaim s) hc
      · exact ⟨top, _, rfl, rfl, rfl⟩

theorem growByRec_spec (hclaim : ∀ s, env.claim s = true) {ptr : OwnedPtr} (h : Tracks cfg base d rem r)
    (hle : ptr.size ≤ rem) : (∃ r', growByRec cfg arch p g base env ptr r = (.error .panic, r') ∧
      Admits Demand.step (Demand.Allows cfg) d r'.events) ∨
    ∃ r', growByRec cfg arch p g base env ptr r = (.ok (), r') ∧ Tracks cfg base d (rem - ptr.size) r' := by
  unfold growByRec
  rcases @growBy_cases cfg arch p g base env hclaim ptr r.heap with ⟨s', hgrow⟩ | ⟨top, s', hfit, hgrow, hsize⟩
  · left
    rw [hgrow]
    split
    · next heq => cases heq
    · next heq _ =>
        cases heq
        exact ⟨_, rfl, h.admits⟩
  · right
    rw [hfit, hgrow]
    exact ⟨_, rfl, h.piece (Profile.eq_mod_of_fit hfit) hle hsize⟩

variable (cfg base d) in
/-- How a call ends: with nothing missing, by a refused page, or by a panic. -/
structure Ends (x : Except OomStop Unit) (r : OomRecord) : Prop where
  admits : Admits Demand.step (Demand.Allows cfg) d r.events
  terminates : x ≠ .error .fuel
  ok : x = .ok () → Tracks cfg base d 0 r
  err : x = .error .err → Refused cfg d r

theorem growLoopRec_spec (hsize : ∀ s trySz ptr, env.alloc s trySz = some ptr → ptr.size = sizeAlign cfg.psz trySz)
    (hclaim : ∀ s, env.claim s = true) (h : Tracks cfg base d rem r) {fuel : Nat} (hfuel : rem < fuel)
    (hdvd : cfg.psz.size ∣ rem) :
    ∃ x r', growLoopRec cfg arch p g base env fuel rem r = (x, r') ∧ Ends cfg base d x r' := by
  induction fuel generalizing r rem with
  | zero => omega
  | succ fuel ih =>
      unfold growLoopRec
      by_cases hrem : rem = 0
      · rw [if_pos hrem]
        exact ⟨_, _, rfl, h.admits, nofun, fun _ => hrem ▸ h, nofun⟩
      rw [if_neg hrem]
      rcases tryAllocRec_spec hsize h (Nat.pos_of_ne_zero hrem) (le_refl rem) hdvd (le_refl rem) with
        ⟨ptr, r₁, htry, h₁, hpos, hpages, hle⟩ | ⟨r₁, htry, hrefused⟩
      · rw [Eff.bind_of_ok htry]
        rcases @growByRec_spec cfg arch p g base env d r₁ rem hclaim ptr h₁ hle with
          ⟨r₂, hgrow, hadmits⟩ | ⟨r₂, hgrow, h₂⟩
        · exact ⟨_, _, Eff.bind_of_error hgrow, hadmits, nofun, nofun, nofun⟩
        · rw [Eff.bind_of_ok hgrow]
          exact ih h₂ (by omega) (Nat.dvd_sub hdvd hpages)
      · exact ⟨_, _, Eff.bind_of_error htry, hrefused.admits, nofun, nofun, fun _ => hrefused⟩

/-! ### Calls -/

variable (cfg) in
/-- `align_up(2 * layout.size(), page_size())`, a word. -/
def need (layout : Layout) : Nat := alignUp (layout.size * 2) cfg.psz.size % 2 ^ 64

theorem eq_need_of_request {layout : Layout} {size : Nat} (h : request cfg p layout = .ok size) :
    size = need cfg layout := by
  have hlt := layout.size_lt
  have htwice : p.fit OomStop.panic 64 ((layout.size * 2 : Nat) : Int) = .ok (layout.size * 2) :=
    Profile.fit_of_lt (by omega)
  rw [request, htwice, ok_bind] at h
  exact Profile.eq_mod_of_fit h

/-- Whatever `PHYS_ALLOC` answers, a call ends. It asks for whole pages that are missing, it puts the chunks one behind
the other, and it ends well when nothing is missing and badly only when a single page is refused. -/
theorem handleOom_meets_demand
    (hsize : ∀ s trySz ptr, env.alloc s trySz = some ptr → ptr.size = sizeAlign cfg.psz trySz)
    (hclaim : ∀ s, env.claim s = true) (layout : Layout) (s : HeapState) :
    ∃ x s' events, handleOomRec cfg arch p g base env layout ⟨s, []⟩ = (x, ⟨s', events⟩) ∧
      handleOom cfg arch p g base env layout s = (x, s') ∧ x ≠ .error .fuel ∧
      Admits Demand.step (Demand.Allows cfg) ⟨need cfg layout, base + s.size⟩ events ∧
      (x = .ok () → request cfg p layout = .ok (need cfg layout) ∧ s'.size = s.size + need cfg layout ∧
        run Demand.step ⟨need cfg layout, base + s.size⟩ events = ⟨0, base + s'.size⟩) ∧
      (x = .error .err → ∃ before, events = before ++ [.ask cfg.psz.size none]) := by
  have hends : ∃ x r', handleOomRec cfg arch p g base env layout ⟨s, []⟩ = (x, r') ∧
      Ends cfg base ⟨need cfg layout, base + s.size⟩ x r' ∧
      (x = .ok () → request cfg p layout = .ok (need cfg layout)) := by
    unfold handleOomRec
    cases hreq : request cfg p layout with
    | error e =>
        obtain rfl := request_error hreq
        exact ⟨_, _, rfl, ⟨trivial, nofun, nofun, nofun⟩, nofun⟩
    | ok size =>
        obtain rfl := eq_need_of_request hreq
        rw [Eff.lift_ok_bind]
        have hstart : Tracks cfg base ⟨need cfg layout, base + s.size⟩ (need cfg layout) ⟨s, []⟩ := ⟨trivial, rfl⟩
        obtain ⟨x, r', hrun, hend⟩ := growLoopRec_spec hsize hclaim hstart (Nat.lt_succ_self _) (dvd_request hreq)
        exact ⟨x, r', hrun, hend, fun _ => rfl⟩
  obtain ⟨x, ⟨s', events⟩, hrun, hend, hreq⟩ := hends
  have herase := @handleOomRec_erases cfg arch p g base env layout ⟨s, []⟩
  rw [hrun] at herase
  refine ⟨x, s', events, hrun, herase, hend.terminates, hend.admits, fun hok => ?_, fun herr => (hend.err herr).last⟩
  have hstate := (hend.ok hok).state
  have hsum := Demand.rem_add_top hend.admits
  rw [hstate] at hsum
  refine ⟨hreq hok, ?_, hstate⟩
  show s'.size = s.size + need cfg layout
  have hsum' : 0 + (base + s'.size) = need cfg layout + (base + s.size) := hsum
  omega

end Spec

/-- The first request is refused. -/
def pickyEnv : HeapEnv :=
  { sampleEnv [some 0x2000, some 0x3000, some 0x4000] with
    alloc := fun s trySz => if s.asked = 0 then none else (sampleEnv []).alloc s trySz }

theorem handleOom_meets_demand_pickyEnv :
    (handleOom amd64Cfg .amd64 .dev ⟨0x1000, true⟩ sampleBase pickyEnv ⟨3000, 8, by decide⟩
      (Machine.boot blankRoot).heap).2.size = 0x2000 := by
  have halloc : ∀ s trySz ptr, pickyEnv.alloc s trySz = some ptr → ptr.size = sizeAlign .size4kiB trySz := by
    intro s trySz ptr h
    simp only [pickyEnv, Option.ite_none_left_eq_some] at h
    exact ((honest_sampleEnv []).alloc s trySz ptr h.2).1
  obtain ⟨x, s', events, -, hrun, -, -, hok, -⟩ := @handleOom_meets_demand amd64Cfg .amd64 .dev ⟨0x1000, true⟩
    sampleBase pickyEnv halloc (fun _ => rfl) ⟨3000, 8, by decide⟩ (Machine.boot blankRoot).heap
  have hx : (handleOom amd64Cfg .amd64 .dev ⟨0x1000, true⟩ sampleBase pickyEnv ⟨3000, 8, by decide⟩
      (Machine.boot blankRoot).heap).1 = .ok () := by decide +kernel
  rw [hrun] at hx ⊢
  exact (hok hx).2.1

end KheapHandler

end UnixKernel
