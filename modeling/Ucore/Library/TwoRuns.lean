import Ucore.Library.Outcome

/-!
# Two runs side by side

Two calls go alike if they stop for the same reason, or both return and their values are related.
What a program reveals about a part of its state is stated in this way: the runs start from states
that differ in that part only.
-/

namespace Ucore.Library

/-- The calls stop alike, or return related values. -/
inductive InStep {First Second : Type} (R : First → Second → Prop) :
    Outcome First → Outcome Second → Prop
  | ok {first : First} {second : Second} (h : R first second) : InStep R (.ok first) (.ok second)
  | error (stop : Stop) : InStep R (.error stop) (.error stop)

namespace InStep

variable {First Second Value Other : Type} {R : First → Second → Prop}
  {S : Value → Other → Prop} {first : Outcome First} {second : Outcome Second}

theorem mono {R' : First → Second → Prop} (h : InStep R first second)
    (hmono : ∀ value value', R value value' → R' value value') : InStep R' first second := by
  cases h with
  | ok h => exact .ok (hmono _ _ h)
  | error stop => exact .error stop

theorem ok_iff {value : First} {value' : Second} :
    InStep R (.ok value) (.ok value') ↔ R value value' := by
  constructor
  · intro h
    cases h with
    | ok h => exact h
  · exact .ok

/-- When one of the calls returns, so does the other. -/
theorem of_ok (h : InStep R first second) {value : First} (hvalue : first = .ok value) :
    ∃ value', second = .ok value' ∧ R value value' := by
  subst hvalue
  cases h with
  | ok h => exact ⟨_, rfl, h⟩

/-- Sequencing: the rest runs from related values. -/
theorem bind {rest : First → Outcome Value} {rest' : Second → Outcome Other}
    (h : InStep R first second)
    (hrest : ∀ value value', R value value' → InStep S (rest value) (rest' value')) :
    InStep S (first >>= rest) (second >>= rest') := by
  cases h with
  | ok h => exact hrest _ _ h
  | error stop => exact .error stop

/-- The same test in both runs. -/
theorem require {condition : Prop} [Decidable condition] {rest : Unit → Outcome Value}
    {rest' : Unit → Outcome Other} (hrest : condition → InStep S (rest ()) (rest' ())) :
    InStep S (Outcome.require condition >>= rest) (Outcome.require condition >>= rest') := by
  by_cases hcondition : condition
  · rw [Outcome.require_of_true hcondition]
    exact hrest hcondition
  · rw [Outcome.require_of_false hcondition]
    exact .error .panic

theorem ite {condition : Prop} [Decidable condition] {other : Outcome First}
    {other' : Outcome Second} (hyes : condition → InStep R first second)
    (hno : ¬condition → InStep R other other') :
    InStep R (if condition then first else other) (if condition then second else other') := by
  by_cases hcondition : condition
  · rw [if_pos hcondition, if_pos hcondition]
    exact hyes hcondition
  · rw [if_neg hcondition, if_neg hcondition]
    exact hno hcondition

/-- Two loops whose rounds go alike. -/
theorem loop {State State' : Type} {T : State → State' → Prop}
    {body : State → Outcome (State ⊕ Value)} {body' : State' → Outcome (State' ⊕ Other)}
    (hbody : ∀ state state', T state state' →
      InStep (Sum.LiftRel T S) (body state) (body' state'))
    (fuel : ℕ) {state : State} {state' : State'} (h : T state state') :
    InStep S (Library.loop body fuel state) (Library.loop body' fuel state') := by
  induction fuel generalizing state state' with
  | zero => exact .error .fuel
  | succ fuel ih =>
    refine (hbody state state' h).bind fun result result' hresult ↦ ?_
    cases hresult with
    | inl hnext => exact ih hnext
    | inr hvalue => exact .ok hvalue

/-- The same steps for the members of a list, one after the other. -/
theorem foldlM {Item State State' : Type} {T : State → State' → Prop}
    {step : State → Item → Outcome State} {step' : State' → Item → Outcome State'}
    (hstep : ∀ item state state', T state state' →
      InStep T (step state item) (step' state' item))
    (items : List Item) {state : State} {state' : State'} (h : T state state') :
    InStep T (items.foldlM step state) (items.foldlM step' state') := by
  induction items generalizing state state' with
  | nil => exact .ok h
  | cons item items ih =>
    rw [List.foldlM_cons, List.foldlM_cons]
    exact (hstep item state state' h).bind fun _ _ ↦ ih

end InStep

end Ucore.Library
