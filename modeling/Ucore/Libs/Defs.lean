import Mathlib.Data.Nat.Init
import Mathlib.Data.BitVec

/-!
# `libs/defs.h` and `libs/atomic.h`

Machine integers are natural numbers. Stores into a narrower type and arithmetic that can leave
the type say so: `uint32` and `uint64` reduce a value to the range of the type, and the
subtractions wrap around below zero as unsigned subtraction does. A word of flags is a bit
vector.
-/

namespace Ucore

/-- Conversion to `uint32_t` or `unsigned int`. -/
def uint32 (value : ℕ) : ℕ := value % 2 ^ 32

/-- Conversion to `size_t`, `uintptr_t` or `uint64_t`. -/
def uint64 (value : ℕ) : ℕ := value % 2 ^ 64

/-- Subtraction of 32-bit unsigned values. -/
def uint32Sub (left right : ℕ) : ℕ := uint32 (left + 2 ^ 32 - right)

/-- Subtraction of 64-bit unsigned values. -/
def uint64Sub (left right : ℕ) : ℕ := uint64 (left + 2 ^ 64 - right)

/-- Conversion to `int` or `int32_t`. -/
def int32 (value : ℤ) : ℤ := (value + 2 ^ 31) % 2 ^ 32 - 2 ^ 31

/-- Conversion to `off_t`. -/
def int64 (value : ℤ) : ℤ := (value + 2 ^ 63) % 2 ^ 64 - 2 ^ 63

theorem uint32_of_lt {value : ℕ} (h : value < 2 ^ 32) : uint32 value = value := Nat.mod_eq_of_lt h

theorem uint32_lt (value : ℕ) : uint32 value < 2 ^ 32 := Nat.mod_lt _ (by decide)

theorem uint64_of_lt {value : ℕ} (h : value < 2 ^ 64) : uint64 value = value := Nat.mod_eq_of_lt h

theorem uint32Sub_of_le {left right : ℕ} (hle : right ≤ left) (hlt : left < 2 ^ 32) :
    uint32Sub left right = left - right := by
  unfold uint32Sub uint32
  omega

theorem uint64Sub_of_le {left right : ℕ} (hle : right ≤ left) (hlt : left < 2 ^ 64) :
    uint64Sub left right = left - right := by
  unfold uint64Sub uint64
  omega

/-! ## Bits of a flag word -/

def setBit (nr : ℕ) (word : BitVec 64) : BitVec 64 := word ||| (1#64 <<< nr)

def clearBit (nr : ℕ) (word : BitVec 64) : BitVec 64 := word &&& ~~~(1#64 <<< nr)

def testBit (nr : ℕ) (word : BitVec 64) : Prop := word &&& (1#64 <<< nr) ≠ 0

instance (nr : ℕ) (word : BitVec 64) : Decidable (testBit nr word) :=
  inferInstanceAs (Decidable (word &&& (1#64 <<< nr) ≠ 0))

theorem testBit_iff {nr : ℕ} {word : BitVec 64} : testBit nr word ↔ word.getLsbD nr = true := by
  unfold testBit
  constructor
  · intro h
    by_contra hbit
    apply h
    ext index hindex
    simp only [BitVec.getElem_and, BitVec.getElem_shiftLeft, BitVec.getElem_one]
    by_cases heq : index = nr
    · subst heq
      simp_all
    · simp
      omega
  · intro h hzero
    have hlt : nr < 64 := BitVec.lt_of_getLsbD h
    have hbit := congrArg (fun word : BitVec 64 ↦ word.getLsbD nr) hzero
    simp [hlt] at hbit
    simp [hlt, hbit] at h

@[simp]
theorem testBit_zero (nr : ℕ) : ¬testBit nr 0#64 := by simp [testBit]

theorem getLsbD_one_shiftLeft {width nr other : ℕ} (h : other < width) :
    (BitVec.ofNat width 1 <<< nr).getLsbD other = decide (other = nr) := by
  rw [BitVec.getLsbD_shiftLeft, BitVec.getLsbD_one, decide_eq_true h]
  rcases Nat.lt_trichotomy other nr with hlt | rfl | hgt
  · simp [hlt, hlt.ne]
  · simp
    omega
  · simp [hgt.ne']
    omega

theorem testBit_setBit {nr other : ℕ} (h : other < 64) (word : BitVec 64) :
    testBit other (setBit nr word) ↔ other = nr ∨ testBit other word := by
  rw [testBit_iff, testBit_iff, setBit, BitVec.getLsbD_or, getLsbD_one_shiftLeft h]
  simp [or_comm]

theorem testBit_clearBit {nr other : ℕ} (h : other < 64) (word : BitVec 64) :
    testBit other (clearBit nr word) ↔ other ≠ nr ∧ testBit other word := by
  rw [testBit_iff, testBit_iff, clearBit, BitVec.getLsbD_and, BitVec.getLsbD_not,
    getLsbD_one_shiftLeft h]
  simp [h, and_comm]

end Ucore
