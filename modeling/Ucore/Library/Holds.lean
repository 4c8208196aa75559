import Mathlib.Data.List.Range
import Mathlib.Tactic.Common

/-!
# Lists in memory

A list of values lies at an address when memory holds them there one after the other.
-/

namespace Ucore.Library

variable {Value : Type} {memory memory' : ℕ → Value} {addr addr' : ℕ} {values more : List Value}
  {value : Value}

def Holds (memory : ℕ → Value) (addr : ℕ) (values : List Value) : Prop :=
  ∀ index (h : index < values.length), memory (addr + index) = values[index]

@[simp]
theorem holds_nil : Holds memory addr [] := nofun

theorem holds_cons :
    Holds memory addr (value :: values) ↔ memory addr = value ∧ Holds memory (addr + 1) values := by
  constructor
  · intro h
    refine ⟨h 0 (Nat.succ_pos _), fun index hindex ↦ ?_⟩
    rw [Nat.add_right_comm, Nat.add_assoc]
    exact h (index + 1) (Nat.succ_lt_succ hindex)
  · rintro ⟨hfirst, hrest⟩ index hindex
    cases index with
    | zero => exact hfirst
    | succ index =>
      have hadd : addr + (index + 1) = addr + 1 + index := by omega
      exact (congrArg memory hadd).trans (hrest index (Nat.lt_of_succ_lt_succ hindex))

theorem holds_singleton : Holds memory addr [value] ↔ memory addr = value := by
  rw [holds_cons, and_iff_left holds_nil]

theorem holds_append : Holds memory addr (values ++ more) ↔
    Holds memory addr values ∧ Holds memory (addr + values.length) more := by
  -- induction on the first list
  induction values generalizing addr with
  | nil => simp
  | cons value values ih =>
    rw [List.cons_append, holds_cons, holds_cons, ih, and_assoc, List.length_cons, Nat.add_assoc,
      Nat.add_comm 1]

/-- A list is still there after everything else has changed. -/
theorem Holds.congr (h : Holds memory addr values)
    (hsame : ∀ index < values.length, memory' (addr' + index) = memory (addr + index)) :
    Holds memory' addr' values :=
  fun index hindex ↦ (hsame index hindex).trans (h index hindex)

/-! ## Writing a list -/

/-- The second memory holds the list, and the first one everything else. -/
structure Wrote (memory memory' : ℕ → Value) (addr : ℕ) (values : List Value) : Prop where
  holds : Holds memory' addr values
  kept : ∀ other, other < addr ∨ addr + values.length ≤ other → memory' other = memory other

theorem wrote_nil : Wrote memory memory addr [] := ⟨holds_nil, fun _ _ ↦ rfl⟩

theorem wrote_update (memory : ℕ → Value) (addr : ℕ) (value : Value) :
    Wrote memory (Function.update memory addr value) addr [value] := by
  refine ⟨holds_singleton.mpr (Function.update_self ..), fun other hother ↦ ?_⟩
  rw [List.length_singleton] at hother
  exact Function.update_of_ne (by omega) ..

/-- What lies elsewhere stays there. -/
theorem Wrote.keeps (h : Wrote memory memory' addr values) (hmore : Holds memory addr' more)
    (happart : addr' + more.length ≤ addr ∨ addr + values.length ≤ addr') :
    Holds memory' addr' more :=
  hmore.congr fun index hindex ↦ h.kept _ (by omega)

/-- A list in two parts. -/
theorem Wrote.append {memory'' : ℕ → Value} (h : Wrote memory memory' addr values)
    (hmore : Wrote memory' memory'' (addr + values.length) more) :
    Wrote memory memory'' addr (values ++ more) := by
  refine ⟨holds_append.mpr ⟨hmore.keeps h.holds (Or.inl le_rfl), hmore.holds⟩, fun other hother ↦ ?_⟩
  rw [List.length_append] at hother
  rw [hmore.kept other (by omega), h.kept other (by omega)]

end Ucore.Library
