import Mathlib.Data.Nat.Init
import Mathlib.Order.Lattice
import Mathlib.Tactic.Common

/-!
# Calls that return, panic or run out of fuel

An imperative call either produces a value, stops at a failed assertion, or has not finished
within the loop budget it was given. `Returns` abstracts from the budget: a call returns a value
when every large enough budget produces it. Loops come with one rule, an invariant together with
a variant, from which both termination and the result follow.
-/

namespace Ucore.Library

/-- Why a call produced no value. -/
inductive Stop where
  /-- An assertion failed, or the code stopped on purpose. -/
  | panic
  /-- A loop was still running when its budget was used up. -/
  | fuel
  deriving DecidableEq, Repr

/-- The result of a call. -/
abbrev Outcome (Value : Type) := Except Stop Value

namespace Outcome

variable {First Second State Value : Type}

/-- An assertion of the program: nothing happens when it holds. -/
def require (condition : Prop) [Decidable condition] : Outcome Unit :=
  if condition then .ok () else .error .panic

@[simp]
theorem require_of_true {condition : Prop} [Decidable condition] (h : condition) :
    require condition = .ok () := if_pos h

@[simp]
theorem require_of_false {condition : Prop} [Decidable condition] (h : ¬condition) :
    require condition = .error .panic := if_neg h

theorem require_eq_ok {condition : Prop} [Decidable condition] {result : Unit} :
    require condition = .ok result ↔ condition := by
  by_cases h : condition <;> simp [h]

@[simp]
theorem ok_bind (value : First) (rest : First → Outcome Second) :
    ((Except.ok value : Outcome First) >>= rest) = rest value := rfl

@[simp]
theorem error_bind (stop : Stop) (rest : First → Outcome Second) :
    ((Except.error stop : Outcome First) >>= rest) = .error stop := rfl

@[simp]
theorem pure_eq_ok (value : Value) : (pure value : Outcome Value) = .ok value := rfl

/-- A sequence returns exactly when its first part does and the rest returns from there. -/
theorem bind_eq_ok {first : Outcome First} {rest : First → Outcome Second} {result : Second} :
    (first >>= rest) = .ok result ↔ ∃ value, first = .ok value ∧ rest value = .ok result := by
  cases first with
  | error stop => simp
  | ok value => simp

end Outcome

/-! ## Partial correctness -/

/-- If the call returns, its value meets the postcondition. -/
def Ensures {Value : Type} (call : Outcome Value) (Post : Value → Prop) : Prop :=
  ∀ value, call = .ok value → Post value

namespace Ensures

variable {First Second Value : Type}

@[simp]
theorem ok_iff {value : Value} {Post : Value → Prop} :
    Ensures (.ok value) Post ↔ Post value :=
  ⟨fun h ↦ h value rfl, fun h _ heq ↦ Except.ok.inj heq ▸ h⟩

@[simp]
theorem error {stop : Stop} {Post : Value → Prop} : Ensures (.error stop) Post := nofun

theorem mono {call : Outcome Value} {Post Weaker : Value → Prop} (h : Ensures call Post)
    (hweaker : ∀ value, Post value → Weaker value) : Ensures call Weaker :=
  fun value heq ↦ hweaker value (h value heq)

/-- Sequencing: what the first part ensures is available to the rest. -/
theorem bind {first : Outcome First} {rest : First → Outcome Second} {Middle : First → Prop}
    {Post : Second → Prop} (hfirst : Ensures first Middle)
    (hrest : ∀ value, Middle value → Ensures (rest value) Post) : Ensures (first >>= rest) Post := by
  intro result hresult
  rcases Outcome.bind_eq_ok.mp hresult with ⟨value, hvalue, hresult⟩
  exact hrest value (hfirst value hvalue) result hresult

/-- After an assertion its condition holds. -/
theorem require {condition : Prop} [Decidable condition] {rest : Unit → Outcome Value}
    {Post : Value → Prop} (h : condition → Ensures (rest ()) Post) :
    Ensures (Outcome.require condition >>= rest) Post := by
  by_cases hcondition : condition
  · simpa [hcondition] using h hcondition
  · simp [hcondition]

end Ensures

/-! ## Calls that come back -/

/-- The call returns a value: it meets no failing assertion. -/
def Completes {Value : Type} (call : Outcome Value) : Prop := ∃ value, call = .ok value

namespace Completes

variable {First Second Value : Type}

@[simp]
theorem ok (value : Value) : Completes (.ok value) := ⟨value, rfl⟩

@[simp]
theorem not_error (stop : Stop) : ¬Completes (.error stop : Outcome Value) := nofun

/-- Sequencing: the rest only has to return for what the first part ensures. -/
theorem bind {first : Outcome First} {rest : First → Outcome Second} {Middle : First → Prop}
    (hfirst : Completes first) (hmiddle : Ensures first Middle)
    (hrest : ∀ value, Middle value → Completes (rest value)) : Completes (first >>= rest) := by
  rcases hfirst with ⟨value, hvalue⟩
  rw [hvalue, Outcome.ok_bind]
  exact hrest value (hmiddle value hvalue)

/-- Sequencing, when the rest returns whatever the first part does. -/
theorem seq {first : Outcome First} {rest : First → Outcome Second} (hfirst : Completes first)
    (hrest : ∀ value, Completes (rest value)) : Completes (first >>= rest) := by
  rcases hfirst with ⟨value, hvalue⟩
  rw [hvalue, Outcome.ok_bind]
  exact hrest value

theorem require {condition : Prop} [Decidable condition] {rest : Unit → Outcome Value}
    (hcondition : condition) (hrest : Completes (rest ())) :
    Completes (Outcome.require condition >>= rest) := by
  rw [Outcome.require_of_true hcondition, Outcome.ok_bind]
  exact hrest

theorem of_bind {first : Outcome First} {rest : First → Outcome Second}
    (h : Completes (first >>= rest)) : Completes first := by
  rcases h with ⟨result, hresult⟩
  rcases Outcome.bind_eq_ok.mp hresult with ⟨value, hvalue, -⟩
  exact ⟨value, hvalue⟩

/-- A call that returns has a value that meets what the call ensures. -/
theorem post {call : Outcome Value} {Post : Value → Prop} (h : Completes call)
    (hpost : Ensures call Post) : ∃ value, call = .ok value ∧ Post value := by
  rcases h with ⟨value, hvalue⟩
  exact ⟨value, hvalue, hpost value hvalue⟩

end Completes

/-! ## Returning, whatever the budget -/

/-- Every large enough budget makes the call produce `value`. -/
def Returns {Value : Type} (call : ℕ → Outcome Value) (value : Value) : Prop :=
  ∃ bound, ∀ fuel, bound ≤ fuel → call fuel = .ok value

namespace Returns

variable {First Second Value : Type}

/-- A call returns at most one value. -/
theorem unique {call : ℕ → Outcome Value} {left right : Value}
    (hleft : Returns call left) (hright : Returns call right) : left = right := by
  rcases hleft with ⟨leftBound, hleft⟩
  rcases hright with ⟨rightBound, hright⟩
  have h : (Except.ok left : Outcome Value) = .ok right := by
    rw [← hleft (max leftBound rightBound) (le_max_left _ _),
      hright (max leftBound rightBound) (le_max_right _ _)]
  exact Except.ok.inj h

theorem of_eq {call : ℕ → Outcome Value} {value : Value} (h : ∀ fuel, call fuel = .ok value) :
    Returns call value := ⟨0, fun fuel _ ↦ h fuel⟩

theorem congr {call other : ℕ → Outcome Value} {value : Value}
    (h : ∀ fuel, call fuel = other fuel) (hreturns : Returns other value) : Returns call value := by
  rcases hreturns with ⟨bound, hbound⟩
  exact ⟨bound, fun fuel hfuel ↦ (h fuel).trans (hbound fuel hfuel)⟩

/-- A call that needs no budget keeps the value it has under any one budget. -/
theorem of_constant {call : Outcome Value} {value : Value} :
    Returns (fun _ ↦ call) value ↔ call = .ok value :=
  ⟨fun ⟨bound, h⟩ ↦ h bound le_rfl, fun h ↦ of_eq fun _ ↦ h⟩

/-- The first unit of the budget is for the call itself. -/
theorem of_succ {call : ℕ → Outcome Value} {value : Value}
    (h : Returns (fun fuel ↦ call (fuel + 1)) value) : Returns call value := by
  rcases h with ⟨bound, hbound⟩
  refine ⟨bound + 1, fun fuel hfuel ↦ ?_⟩
  rcases fuel with _ | fuel
  · exact absurd hfuel (Nat.not_succ_le_zero bound)
  · exact hbound fuel (Nat.le_of_succ_le_succ hfuel)

/-- Sequencing of two calls under one budget. -/
theorem bind {first : ℕ → Outcome First} {rest : ℕ → First → Outcome Second}
    {value : First} {result : Second} (hfirst : Returns first value)
    (hrest : Returns (fun fuel ↦ rest fuel value) result) :
    Returns (fun fuel ↦ first fuel >>= rest fuel) result := by
  rcases hfirst with ⟨firstBound, hfirst⟩
  rcases hrest with ⟨restBound, hrest⟩
  refine ⟨max firstBound restBound, fun fuel hfuel ↦ ?_⟩
  beta_reduce
  rw [hfirst fuel ((le_max_left _ _).trans hfuel), Outcome.ok_bind]
  exact hrest fuel ((le_max_right _ _).trans hfuel)

end Returns

/-! ## Budgets that were large enough -/

/-- A larger budget does not change a value that was produced. -/
def Settles {Value : Type} (call : ℕ → Outcome Value) : Prop :=
  ∀ fuel value, call fuel = .ok value → call (fuel + 1) = .ok value

namespace Settles

variable {First Second Value : Type}

theorem of_constant (call : Outcome Value) : Settles fun _ ↦ call := fun _ _ h ↦ h

theorem bind {first : ℕ → Outcome First} {rest : ℕ → First → Outcome Second}
    (hfirst : Settles first) (hrest : ∀ value, Settles fun fuel ↦ rest fuel value) :
    Settles fun fuel ↦ first fuel >>= rest fuel := by
  intro fuel result hresult
  rcases Outcome.bind_eq_ok.mp hresult with ⟨value, hvalue, hresult⟩
  exact Outcome.bind_eq_ok.mpr ⟨value, hfirst fuel value hvalue, hrest value fuel result hresult⟩

/-- One budget that is large enough shows what the call returns. -/
theorem returns {call : ℕ → Outcome Value} (h : Settles call) {fuel : ℕ} {value : Value}
    (hvalue : call fuel = .ok value) : Returns call value := by
  refine ⟨fuel, fun larger hlarger ↦ ?_⟩
  induction larger, hlarger using Nat.le_induction with
  | base => exact hvalue
  | succ larger _ ih => exact h larger value ih

/-- The value under one budget, when there is one. -/
theorem returns_getD {call : ℕ → Outcome Value} (h : Settles call) {fuel : ℕ} (default : Value)
    (hsome : (call fuel).toOption.isSome) : Returns call ((call fuel).toOption.getD default) := by
  have hok : call fuel = .ok ((call fuel).toOption.getD default) := by
    cases hcall : call fuel with
    | error stop => simp [hcall, Except.toOption] at hsome
    | ok value => rfl
  exact h.returns hok

end Settles

/-! ## Loops -/

section Loop

variable {State Value : Type}

/-- A loop: the body goes on from a new state or leaves with a value. -/
def loop (body : State → Outcome (State ⊕ Value)) : ℕ → State → Outcome Value
  | 0, _ => .error .fuel
  | fuel + 1, state => do
    match ← body state with
    | .inl next => loop body fuel next
    | .inr value => .ok value

/-- One round more. -/
theorem Returns.loop_inl {body : State → Outcome (State ⊕ Value)} {state next : State}
    {value : Value} (hbody : body state = .ok (.inl next))
    (h : Returns (fun fuel ↦ loop body fuel next) value) :
    Returns (fun fuel ↦ loop body fuel state) value := by
  rcases h with ⟨bound, hbound⟩
  refine ⟨bound + 1, fun fuel hfuel ↦ ?_⟩
  rcases fuel with _ | fuel
  · omega
  · simp only [loop, hbody, Outcome.ok_bind]
    exact hbound fuel (by omega)

/-- The last round. -/
theorem Returns.loop_inr {body : State → Outcome (State ⊕ Value)} {state : State} {value : Value}
    (hbody : body state = .ok (.inr value)) : Returns (fun fuel ↦ loop body fuel state) value := by
  refine ⟨1, fun fuel hfuel ↦ ?_⟩
  rcases fuel with _ | fuel
  · omega
  · simp only [loop, hbody, Outcome.ok_bind]

theorem settles_loop (body : State → Outcome (State ⊕ Value)) (state : State) :
    Settles fun fuel ↦ loop body fuel state := by
  intro fuel value h
  induction fuel generalizing state with
  | zero => cases h
  | succ fuel ih =>
    beta_reduce at h ⊢
    rw [loop] at h ⊢
    rcases Outcome.bind_eq_ok.mp h with ⟨result, hresult, h⟩
    refine Outcome.bind_eq_ok.mpr ⟨result, hresult, ?_⟩
    cases result with
    | inl next => exact ih next h
    | inr value => exact h

/-- The loop rule. Each round either keeps the invariant and lowers the variant, or leaves with
a value that meets the postcondition; then the loop returns such a value. -/
theorem returns_loop {body : State → Outcome (State ⊕ Value)} (Invariant : State → Prop)
    (variant : State → ℕ) (Post : Value → Prop)
    (hround : ∀ state, Invariant state →
      (∃ next, body state = .ok (.inl next) ∧ Invariant next ∧ variant next < variant state) ∨
      ∃ value, body state = .ok (.inr value) ∧ Post value)
    {state : State} (hstate : Invariant state) :
    ∃ value, Returns (fun fuel ↦ loop body fuel state) value ∧ Post value := by
  -- induction on the variant
  induction hvariant : variant state using Nat.strongRecOn generalizing state with
  | _ measure ih =>
    rcases hround state hstate with ⟨next, hbody, hnext, hlower⟩ | ⟨value, hbody, hpost⟩
    · rcases ih (variant next) (hvariant ▸ hlower) hnext rfl with ⟨value, hvalue, hpost⟩
      exact ⟨value, hvalue.loop_inl hbody, hpost⟩
    · exact ⟨value, Returns.loop_inr hbody, hpost⟩

end Loop

end Ucore.Library
