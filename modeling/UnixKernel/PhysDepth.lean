import UnixKernel.Overflow
import UnixKernel.PhysWord

/-! Calls that resize the table as far as they are let. The operations of the allocator take `expand` and `shrink` as
arguments, and these may answer `.depth`: they have been asked for more than they are to do. A call that gets no such
answer gives the same result with any operations that agree with the first ones where those answer. -/

namespace UnixKernel

namespace PhysWord

/-- `w'` does what `w` does, wherever `w` does anything. -/
structure Below (w w' : TableOps) : Prop where
  expand : ∀ s newMax q, Follows .depth True (w.expand s newMax q) (w'.expand s newMax q)
  shrink : ∀ s newMax, Follows .depth True (w.shrink s newMax) (w'.shrink s newMax)

/-- No resizing at all. -/
def stop : TableOps := ⟨fun _ _ _ => .error .depth, fun _ _ => .error .depth⟩

theorem stop_below (w : TableOps) : Below stop w :=
  ⟨fun _ _ _ => Or.inr ⟨trivial, rfl⟩, fun _ _ => Or.inr ⟨trivial, rfl⟩⟩

/-- The operations for a table that keeps its size: `shrink` may be called, but only where its first test refuses. -/
def fixed : TableOps :=
  ⟨fun _ _ _ => .error .depth, fun s newMax => if newMax ≥ s.max then .ok s else .error .depth⟩

theorem fixed_below (p : Profile) (pg : BPage) (n : Nat) : Below fixed (tableOps p pg (n + 1)) := by
  refine ⟨fun _ _ _ => Or.inr ⟨trivial, rfl⟩, fun s newMax => ?_⟩
  by_cases hle : newMax ≥ s.max
  · refine Or.inl ?_
    change (if newMax ≥ s.max then _ else _) = shrink p (tableOps p pg n) pg s newMax
    rw [shrink, if_pos hle, if_pos hle]
    rfl
  · exact Or.inr ⟨trivial, if_neg hle⟩

section

variable {w w' : TableOps} (hw : Below w w') {p : Profile} {pg : BPage}

include hw

theorem add_below (s : PhysAlloc) (nb : RAMBlock) : Follows .depth True (add p w s nb) (add p w' s nb) := by
  rw [add, add]
  refine Follows.ite (fun _ => .refl _) fun _ => ?_
  refine Follows.bind (.refl _) fun _ _ _ => Follows.bind (.refl _) fun near _ _ => ?_
  obtain ⟨before, after⟩ := near
  rcases before with - | ⟨i, before⟩ <;> rcases after with - | ⟨j, after⟩
  · refine Follows.bind (.refl _) fun left _ _ => Follows.ite (fun _ => ?_) fun _ => .refl _
    refine Follows.bind (.refl _) fun newSize _ _ => (hw.expand s newSize nb.intoOwnedPtr).bind fun r _ _ => ?_
    obtain ⟨r, s₁⟩ := r
    cases r <;> exact .refl _
  · exact .refl _
  · exact .refl _
  · refine Follows.bind (.refl _) fun sum _ _ => Follows.bind (.refl _) fun size _ _ =>
      Follows.bind (.refl _) fun left _ _ => Follows.ite (fun _ => hw.shrink _ _) fun _ => .refl _

theorem carve_below (s : PhysAlloc) (args : AllocParams) (ptr : OwnedPtr) :
    Follows .depth True (carve p w s args ptr) (carve p w' s args ptr) := by
  refine Follows.bind (.refl _) fun found _ _ => ?_
  rcases found with - | ⟨i, block⟩
  · exact .refl _
  refine Follows.ite (fun _ => .refl _) fun _ => ?_
  refine Follows.bind (.refl _) fun _ _ _ => Follows.bind (.refl _) fun _ _ _ => Follows.bind (.refl _) fun _ _ _ =>
    Follows.bind (.refl _) fun _ _ _ => ?_
  exact (add_below hw _ _).bind fun _ _ _ => (add_below hw _ _).bind fun _ _ _ => (add_below hw _ _).bind
    fun _ _ _ => .refl _

theorem alloc_below (s : PhysAlloc) (args : AllocParams) :
    Follows .depth True (alloc p w pg s args) (alloc p w' pg s args) := by
  refine Follows.bind (.refl _) fun args _ _ => Follows.ite (fun _ => .refl _) fun _ => ?_
  refine Follows.bind (.refl _) fun request _ _ => ?_
  cases request with
  | none => exact .refl _
  | some ptr =>
      refine Follows.bind (.refl _) fun left _ _ => Follows.ite (fun _ => ?_) fun _ => carve_below hw s args ptr
      refine Follows.bind (.refl _) fun newSize _ _ => (hw.expand s newSize ptr).bind fun r _ _ => ?_
      obtain ⟨r, s₁⟩ := r
      cases r with
      | none => exact .refl _
      | some => exact carve_below hw s₁ args ptr

theorem free_below (s : PhysAlloc) (ptr : OwnedPtr) : Follows .depth True (free p w s ptr) (free p w' s ptr) := by
  refine Follows.bind (.refl _) fun _ _ _ => Follows.bind (.refl _) fun cut _ _ => ?_
  obtain ⟨blocks, before, after⟩ := cut
  have hbefore : ∀ s, Follows .depth True (addBefore p w s ptr before) (addBefore p w' s ptr before) := fun s => by
    cases before with
    | none => exact .refl _
    | some b => exact Follows.bind (.refl _) fun _ _ _ => add_below hw _ _
  have hafter : ∀ s, Follows .depth True (addAfter p w s ptr after) (addAfter p w' s ptr after) := fun s => by
    cases after with
    | none => exact .refl _
    | some a =>
        exact Follows.bind (.refl _) fun _ _ _ => Follows.bind (.refl _) fun _ _ _ => Follows.bind (.refl _)
          fun _ _ _ => add_below hw _ _
  exact (hbefore _).bind fun _ _ _ => (hafter _).bind fun _ _ _ => add_below hw _ _

theorem expand_below (s : PhysAlloc) (newMax : Nat) (q : OwnedPtr) :
    Follows .depth True (expand p w pg s newMax q) (expand p w' pg s newMax q) := by
  rw [expand, expand]
  refine Follows.ite (fun _ => .refl _) fun _ => ?_
  refine Follows.bind (.refl _) fun bytes _ _ => Follows.bind (.refl _) fun param _ _ =>
    Follows.bind (.refl _) fun stop _ _ => Follows.bind (.refl _) fun behind _ _ =>
      Follows.bind (.refl _) fun found _ _ => ?_
  rcases found with - | ⟨i, block⟩
  · exact .refl _
  refine Follows.bind (.refl _) fun aligned _ _ => Follows.bind (.refl _) fun last _ _ =>
    Follows.bind (.refl _) fun _ _ _ => (alloc_below hw _ _).bind fun r _ _ => ?_
  obtain ⟨r, s₁⟩ := r
  cases r with
  | none => exact .refl _
  | some ptr => exact (free_below hw _ _).bind fun _ _ _ => .refl _

end

end PhysWord

end UnixKernel
