import Mathlib.Algebra.Order.Ring.Nat
import Mathlib.Data.Nat.Notation
import Mathlib.Tactic.Ring

/-!
# Numbers in memory

A number as a sequence of bytes, the least significant one first, and back. Reading as many bytes
as were written gives the number up to the size that they can hold.
-/

namespace Ucore.Library

/-- The number that the first `count` bytes stand for. -/
def ofBytes (bytes : ℕ → UInt8) : ℕ → ℕ
  | 0 => 0
  | count + 1 => ofBytes bytes count + 256 ^ count * (bytes count).toNat

/-- The bytes of a number. -/
def toBytes (value : ℕ) : ℕ → UInt8 := fun index ↦ UInt8.ofNat (value / 256 ^ index)

theorem ofBytes_congr {bytes other : ℕ → UInt8} {count : ℕ}
    (h : ∀ index < count, other index = bytes index) : ofBytes other count = ofBytes bytes count := by
  induction count with
  | zero => rfl
  | succ count ih =>
    rw [ofBytes, ofBytes, ih fun index hindex ↦ h index (Nat.lt_succ_of_lt hindex),
      h count (Nat.lt_succ_self count)]

theorem ofBytes_lt (bytes : ℕ → UInt8) (count : ℕ) : ofBytes bytes count < 256 ^ count := by
  induction count with
  | zero => exact Nat.one_pos
  | succ count ih =>
    have hbyte : (bytes count).toNat + 1 ≤ 256 := (bytes count).toNat_lt
    calc ofBytes bytes count + 256 ^ count * (bytes count).toNat
        < 256 ^ count + 256 ^ count * (bytes count).toNat := Nat.add_lt_add_right ih _
      _ = 256 ^ count * ((bytes count).toNat + 1) := by ring
      _ ≤ 256 ^ count * 256 := Nat.mul_le_mul_left _ hbyte
      _ = 256 ^ (count + 1) := (pow_succ 256 count).symm

theorem ofBytes_toBytes (value count : ℕ) : ofBytes (toBytes value) count = value % 256 ^ count := by
  induction count with
  | zero => rw [pow_zero, Nat.mod_one, ofBytes]
  | succ count ih =>
    have hbyte : (toBytes value count).toNat = value / 256 ^ count % 256 := by
      simp [toBytes]
    rw [ofBytes, ih, hbyte, pow_succ, Nat.mod_mul]

end Ucore.Library
