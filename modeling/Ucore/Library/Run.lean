import Mathlib.Tactic.Common

/-!
# Runs of a system

A system is given by its first states and its steps. What every first state has and every step
keeps holds in all reachable states.
-/

namespace Ucore.Library

variable {State : Type}

/-- The states that a run can reach. -/
inductive Reachable (First : State → Prop) (Step : State → State → Prop) : State → Prop
  | first {state : State} : First state → Reachable First Step state
  | step {state next : State} : Reachable First Step state → Step state next →
      Reachable First Step next

namespace Reachable

variable {First : State → Prop} {Step Wider : State → State → Prop} {state : State}

/-- The rule for invariants. -/
theorem invariant {Invariant : State → Prop} (hfirst : ∀ state, First state → Invariant state)
    (hstep : ∀ state next, Invariant state → Step state next → Invariant next)
    (h : Reachable First Step state) : Invariant state := by
  induction h with
  | first h => exact hfirst _ h
  | step _ hnext ih => exact hstep _ _ ih hnext

end Reachable

/-! ## Runs that show their steps -/

/-- A run from one state to another, with the labels of its steps. -/
inductive Runs {Label : Type} (Step : State → Label → State → Prop) :
    State → List Label → State → Prop
  | nil {state : State} : Runs Step state [] state
  | cons {state middle next : State} {label : Label} {labels : List Label} :
      Step state label middle → Runs Step middle labels next →
      Runs Step state (label :: labels) next

section Runs

variable {Label : Type} {Step Wider : State → Label → State → Prop} {state middle next : State}
  {labels more : List Label}

theorem Runs.mono (h : Runs Step state labels next)
    (hwider : ∀ state label next, Step state label next → Wider state label next) :
    Runs Wider state labels next := by
  induction h with
  | nil => exact .nil
  | cons hstep _ ih => exact .cons (hwider _ _ _ hstep) ih

theorem Runs.append (h : Runs Step state labels middle) (hmore : Runs Step middle more next) :
    Runs Step state (labels ++ more) next := by
  induction h with
  | nil => exact hmore
  | cons hstep _ ih => exact .cons hstep (ih hmore)

end Runs

theorem Reachable.runs {Label : Type} {First : State → Prop} {Step : State → Label → State → Prop}
    {state next : State} {labels : List Label}
    (h : Reachable First (fun state next ↦ ∃ label, Step state label next) state)
    (hruns : Runs Step state labels next) :
    Reachable First (fun state next ↦ ∃ label, Step state label next) next := by
  induction hruns with
  | nil => exact h
  | cons hstep _ ih => exact ih (h.step ⟨_, hstep⟩)

end Ucore.Library
