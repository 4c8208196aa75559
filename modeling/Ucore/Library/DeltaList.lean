import Mathlib.Algebra.BigOperators.Group.List.Basic
import Mathlib.Algebra.GroupWithZero.Nat
import Mathlib.Logic.Function.Basic

/-!
# Delta lists

A delta list keeps keys in the order of their deadlines and stores for each key how much later it
is due than the one before it. `Deltas` ties the stored differences to the deadlines; each
operation changes one difference besides the one of its own key.
-/

namespace Ucore.Library

variable {Key : Type}

/-- The keys are due in order, each `delta` later than the one before, the first one `delta` later
than `base`. -/
def Deltas (delta deadline : Key → ℕ) : ℕ → List Key → Prop
  | _, [] => True
  | base, key :: rest =>
    deadline key = base + delta key ∧ Deltas delta deadline (deadline key) rest

namespace Deltas

variable {delta deadline other otherDeadline : Key → ℕ} {base : ℕ} {keys left right rest : List Key}
  {key next : Key}

theorem congr (h : Deltas delta deadline base keys) (hdelta : ∀ key ∈ keys, other key = delta key)
    (hdeadline : ∀ key ∈ keys, otherDeadline key = deadline key) :
    Deltas other otherDeadline base keys := by
  induction keys generalizing base with
  | nil => trivial
  | cons key rest ih =>
    rcases h with ⟨hkey, hrest⟩
    have hhere := hdeadline key (by simp)
    refine ⟨?_, ?_⟩
    · rw [hhere, hdelta key (by simp), hkey]
    · rw [hhere]
      exact ih hrest (fun key hmem ↦ hdelta key (by simp [hmem]))
        fun key hmem ↦ hdeadline key (by simp [hmem])

theorem base_le (h : Deltas delta deadline base keys) (hkey : key ∈ keys) :
    base ≤ deadline key := by
  induction keys generalizing base with
  | nil => simp at hkey
  | cons first rest ih =>
    rcases h with ⟨hfirst, hrest⟩
    rcases List.mem_cons.mp hkey with rfl | hkey
    · omega
    · have := ih hrest hkey
      omega

theorem delta_le (h : Deltas delta deadline base keys) (hkey : key ∈ keys) :
    base + delta key ≤ deadline key := by
  induction keys generalizing base with
  | nil => simp at hkey
  | cons first rest ih =>
    rcases h with ⟨hfirst, hrest⟩
    rcases List.mem_cons.mp hkey with rfl | hkey
    · omega
    · have := ih hrest hkey
      omega

/-- The differences up to a key add up to its deadline. -/
theorem sum_prefix (h : Deltas delta deadline base (left ++ key :: right)) :
    base + ((left ++ [key]).map delta).sum = deadline key := by
  induction left generalizing base with
  | nil => simpa using h.1.symm
  | cons first left ih =>
    rcases h with ⟨hfirst, hrest⟩
    have hsum := ih hrest
    simp only [List.cons_append, List.map_cons, List.sum_cons]
    omega

/-- A key that is due now is the first one, and the others are due as before without it. -/
theorem of_due (h : Deltas delta deadline base (key :: rest)) (hdue : delta key = 0) :
    deadline key = base ∧ Deltas delta deadline base rest := by
  rcases h with ⟨hkey, hrest⟩
  have heq : deadline key = base := by omega
  exact ⟨heq, heq ▸ hrest⟩

/-- Later keys are due strictly later when the first one is. -/
theorem lt_of_pos (h : Deltas delta deadline base (key :: rest)) (hpos : 0 < delta key) {later : Key}
    (hlater : later ∈ key :: rest) : base < deadline later := by
  rcases h with ⟨hkey, hrest⟩
  rcases List.mem_cons.mp hlater with rfl | hlater
  · omega
  · have := hrest.base_le hlater
    omega

theorem remove_last (h : Deltas delta deadline base (left ++ [key])) :
    Deltas delta deadline base left := by
  induction left generalizing base with
  | nil => trivial
  | cons first left ih => exact ⟨h.1, ih h.2⟩

/-- A key without a difference can be left out. -/
theorem remove_zero (h : Deltas delta deadline base (left ++ key :: rest)) (hzero : delta key = 0) :
    Deltas delta deadline base (left ++ rest) := by
  induction left generalizing base with
  | nil => exact (h.of_due hzero).2
  | cons first left ih => exact ⟨h.1, ih h.2⟩

variable [DecidableEq Key]

/-- A change outside the list. -/
theorem update (h : Deltas delta deadline base keys) (hkey : key ∉ keys) (value : ℕ) :
    Deltas (Function.update delta key value) deadline base keys :=
  h.congr (fun _ hother ↦ Function.update_of_ne (ne_of_mem_of_not_mem hother hkey) _ _)
    fun _ _ ↦ rfl

/-- A new key before one that is due later. -/
theorem insert (h : Deltas delta deadline base (next :: rest))
    (hkey : deadline key = base + delta key) (hlt : delta key < delta next)
    (hnext : next ∉ rest) (hne : key ≠ next) :
    Deltas (Function.update delta next (delta next - delta key)) deadline base
      (key :: next :: rest) := by
  rcases h with ⟨hfirst, hrest⟩
  refine ⟨?_, ?_, hrest.update hnext _⟩
  · rw [Function.update_of_ne hne, hkey]
  · rw [Function.update_self]
    omega

/-- Taking a key out gives its difference to the next one. -/
theorem remove (h : Deltas delta deadline base (left ++ key :: next :: rest))
    (hnodup : (left ++ key :: next :: rest).Nodup) :
    Deltas (Function.update delta next (delta next + delta key)) deadline base
      (left ++ next :: rest) := by
  induction left generalizing base with
  | nil =>
    rcases h with ⟨hkey, hnext, hrest⟩
    have hfresh : next ∉ rest := by
      simp only [List.nil_append, List.nodup_cons] at hnodup
      exact hnodup.2.1
    refine ⟨?_, hrest.update hfresh _⟩
    rw [Function.update_self]
    omega
  | cons first left ih =>
    rcases h with ⟨hfirst, hrest⟩
    rw [List.cons_append, List.nodup_cons] at hnodup
    have hne : first ≠ next := fun heq ↦ hnodup.1 (by simp [heq])
    refine ⟨?_, ih hrest hnodup.2⟩
    rw [Function.update_of_ne hne, hfirst]

/-- Time goes on by one. -/
theorem advance (h : Deltas delta deadline base (key :: rest)) (hpos : 0 < delta key)
    (hfresh : key ∉ rest) :
    Deltas (Function.update delta key (delta key - 1)) deadline (base + 1) (key :: rest) := by
  rcases h with ⟨hkey, hrest⟩
  refine ⟨?_, hrest.update hfresh _⟩
  rw [Function.update_self]
  omega

end Deltas

end Ucore.Library
