import Mathlib.Data.Nat.Basic
import Mathlib.Logic.Function.Basic

/-!
# Ring buffers

Two positions that only grow run over `size` cells. The cells between them are the contents. A cell
is stored at the position where the contents end; it is added to them as long as there are fewer
than `size` of them, and takes the place of the oldest one when there are `size`.
-/

namespace Ucore.Library

variable {α : Type}

/-- The `count` cells from position `start` on. -/
def ring (cells : ℕ → α) (size start : ℕ) : ℕ → List α
  | 0 => []
  | count + 1 => cells (start % size) :: ring cells size (start + 1) count

section Ring

variable {cells : ℕ → α} {size start count : ℕ} {value : α}

@[simp]
theorem ring_zero : ring cells size start 0 = [] := rfl

theorem ring_succ :
    ring cells size start (count + 1) =
      cells (start % size) :: ring cells size (start + 1) count := rfl

@[simp]
theorem length_ring : (ring cells size start count).length = count := by
  induction count generalizing start with
  | zero => rfl
  | succ count ih => rw [ring_succ, List.length_cons, ih]

theorem ring_append :
    ring cells size start (count + 1) =
      ring cells size start count ++ [cells ((start + count) % size)] := by
  induction count generalizing start with
  | zero => rfl
  | succ count ih =>
    rw [ring_succ, ih, ring_succ, List.cons_append, Nat.add_right_comm, Nat.add_assoc]

theorem mod_ne_mod {position stop : ℕ} (hlt : position < stop) (hnear : stop - position < size) :
    position % size ≠ stop % size := by
  intro heq
  have hzero : (stop - position) % size = 0 := Nat.sub_mod_eq_zero_of_mod_eq heq.symm
  rw [Nat.mod_eq_of_lt hnear] at hzero
  omega

/-- A cell that is stored less than a round behind the contents is not one of them. -/
theorem ring_update {stop : ℕ} (hafter : start + count ≤ stop) (hnear : stop < start + size) :
    ring (Function.update cells (stop % size) value) size start count =
      ring cells size start count := by
  induction count generalizing start with
  | zero => rfl
  | succ count ih =>
    have hne : start % size ≠ stop % size := mod_ne_mod (by omega) (by omega)
    rw [ring_succ, Function.update_of_ne hne, ih (by omega) (by omega), ring_succ]

theorem ring_push (cells : ℕ → α) (start : ℕ) (value : α) (h : count < size) :
    ring (Function.update cells ((start + count) % size) value) size start (count + 1) =
      ring cells size start count ++ [value] := by
  rw [ring_append, Function.update_self, ring_update le_rfl (by omega)]

/-- In a full ring the cell at the end of the contents is the oldest one. -/
theorem ring_push_full (cells : ℕ → α) (start : ℕ) (value : α) (h : 0 < size) :
    ring (Function.update cells ((start + size) % size) value) size start size =
      value :: (ring cells size start size).tail := by
  rcases Nat.exists_eq_add_one.mpr h with ⟨count, rfl⟩
  have hother : ring (Function.update cells (start % (count + 1)) value) (count + 1) (start + 1)
      count = ring cells (count + 1) (start + 1) count := by
    rw [← Nat.add_mod_right start (count + 1)]
    exact ring_update (by omega) (by omega)
  rw [Nat.add_mod_right, ring_succ, Function.update_self, hother, ring_succ, List.tail_cons]

end Ring

end Ucore.Library
