import Mathlib.Data.Nat.Digits.Lemmas
import Mathlib.Data.Nat.Log
import Ucore.Libs.Defs

/-!
# Numbers as text: `printnum` of `libs/printfmt.c` and `strtol` of `libs/string.c`

Printing divides by the base and takes one from the width for each digit, so that what is left of
the width at the first digit is filled with padding. Parsing reads the digits again. A string is
given by its bytes up to the first zero.
-/

namespace Ucore

/-- `"0123456789abcdef"[mod]`. -/
def digitChar (mod : ℕ) : UInt8 :=
  [48, 49, 50, 51, 52, 53, 54, 55, 56, 57, 97, 98, 99, 100, 101, 102].getD mod 0

/-- The characters that `printnum` gives to `putch`, in their order. -/
def printnum (base : ℕ) (hbase : 2 ≤ base) (num : ℕ) (width : ℤ) (padc : UInt8) : List UInt8 :=
  if base ≤ num then
    printnum base hbase (num / base) (int32 (width - 1)) padc ++ [digitChar (num % base)]
  else
    -- the loop counts down to zero from the width less one
    List.replicate (int32 (width - 1)).toNat padc ++ [digitChar (num % base)]
termination_by num
decreasing_by exact Nat.div_lt_self (by omega) hbase

/-- The digit that a character stands for. -/
def digitValue (ch : UInt8) : Option ℕ :=
  if 48 ≤ ch ∧ ch ≤ 57 then some (ch.toNat - 48)
  else if 97 ≤ ch ∧ ch ≤ 122 then some (ch.toNat - 97 + 10)
  else if 65 ≤ ch ∧ ch ≤ 90 then some (ch.toNat - 65 + 10)
  else none

/-- The loop over the digits in `strtol`: the value, and where it stops. -/
def strtolDigits (base : ℕ) : List UInt8 → ℤ → ℤ × List UInt8
  | [], val => (val, [])
  | ch :: s, val =>
    match digitValue ch with
    | none => (val, ch :: s)
    | some dig =>
      if base ≤ dig then (val, ch :: s) else strtolDigits base s (int64 (val * base + dig))

/-- The loop over the blanks in `strtol`. -/
def skipBlanks : List UInt8 → List UInt8
  | [] => []
  | ch :: s => if ch = 32 ∨ ch = 9 then skipBlanks s else ch :: s

/-- The base that a prefix stands for, and what comes after it. -/
def skipPrefix (s : List UInt8) (base : ℕ) : List UInt8 × ℕ :=
  if (base = 0 ∨ base = 16) ∧ s.getD 0 0 = 48 ∧ s.getD 1 0 = 120 then (s.drop 2, 16)
  else if base = 0 ∧ s.getD 0 0 = 48 then (s.drop 1, 8)
  else if base = 0 then (s, 10)
  else (s, base)

/-- `strtol`, and the string at `endptr`. -/
def strtol (s : List UInt8) (base : ℕ) : ℤ × List UInt8 :=
  let s := skipBlanks s
  let neg := s.getD 0 0 = 45
  let s := if s.getD 0 0 = 43 ∨ s.getD 0 0 = 45 then s.drop 1 else s
  let (s, base) := skipPrefix s base
  let (val, s) := strtolDigits base s 0
  (if neg then int64 (-val) else val, s)

/-! ## What is printed -/

section Numeral

variable {base num : ℕ} {width : ℤ} {padc : UInt8}

/-- The digits of a number, the highest one first. -/
def numeral (base : ℕ) (hbase : 2 ≤ base) (num : ℕ) : List UInt8 :=
  if base ≤ num then numeral base hbase (num / base) ++ [digitChar (num % base)]
  else [digitChar (num % base)]
termination_by num
decreasing_by exact Nat.div_lt_self (by omega) hbase

/-- The number of digits. Zero has one. -/
def digitCount (base num : ℕ) : ℕ := max 1 (base.digits num).length

theorem digitCount_of_lt (h : num < base) : digitCount base num = 1 := by
  by_cases hzero : num = 0
  · rw [hzero, digitCount, Nat.digits_zero]
    rfl
  · rw [digitCount, Nat.digits_of_lt base num hzero h]
    rfl

theorem digitCount_of_le (hbase : 2 ≤ base) (h : base ≤ num) :
    digitCount base num = digitCount base (num / base) + 1 := by
  have hdiv : 0 < num / base := Nat.div_pos h (by omega)
  have hlength : 0 < (base.digits (num / base)).length :=
    List.length_pos_of_ne_nil (Nat.digits_ne_nil_iff_ne_zero.mpr hdiv.ne')
  rw [digitCount, digitCount, Nat.digits_of_two_le_of_pos hbase (by omega), List.length_cons]
  omega

theorem digitCount_le {count : ℕ} (hbase : 2 ≤ base) (hpos : 1 ≤ count) (h : num < 2 ^ count) :
    digitCount base num ≤ count := by
  have hpow : num < base ^ count := h.trans_le (Nat.pow_le_pow_left hbase count)
  exact max_le hpos ((Nat.digits_length_le_iff hbase num).mpr hpow)

theorem length_numeral (hbase : 2 ≤ base) (num : ℕ) :
    (numeral base hbase num).length = digitCount base num := by
  induction num using numeral.induct base hbase with
  | case1 num h ih => rw [numeral, if_pos h, List.length_append, ih, digitCount_of_le hbase h]; rfl
  | case2 num h => rw [numeral, if_neg h, digitCount_of_lt (not_le.mp h)]; rfl

/-- The padding is in front of the digits. -/
theorem printnum_eq (hbase : 2 ≤ base) (num : ℕ) (width : ℤ) (padc : UInt8) :
    printnum base hbase num width padc =
      List.replicate (int32 (width - digitCount base num)).toNat padc ++ numeral base hbase num := by
  induction num using numeral.induct base hbase generalizing width with
  | case1 num h ih =>
    have hwidth : int32 (int32 (width - 1) - digitCount base (num / base)) =
        int32 (width - digitCount base num) := by
      rw [digitCount_of_le hbase h]
      unfold int32
      omega
    rw [printnum, if_pos h, numeral, if_pos h, ih, hwidth, List.append_assoc]
  | case2 num h =>
    rw [printnum, if_neg h, numeral, if_neg h, digitCount_of_lt (not_le.mp h)]
    rfl

theorem length_printnum (hbase : 2 ≤ base) (num : ℕ) (width : ℤ) (padc : UInt8) :
    (printnum base hbase num width padc).length =
      (int32 (width - digitCount base num)).toNat + digitCount base num := by
  rw [printnum_eq, List.length_append, List.length_replicate, length_numeral]

end Numeral

/-! ## What is read back -/

section Parse

variable {base num : ℕ} {width : ℤ} {padc : UInt8} {s rest : List UInt8}

theorem digitValue_digitChar : ∀ dig < 16, digitValue (digitChar dig) = some dig := by decide

/-- No digit is taken for something else. -/
theorem digitChar_ne : ∀ dig < 16, digitChar dig ≠ 32 ∧ digitChar dig ≠ 9 ∧ digitChar dig ≠ 43 ∧
    digitChar dig ≠ 45 ∧ digitChar dig ≠ 120 := by decide

theorem digitChar_eq_zero : ∀ dig < 16, digitChar dig = 48 → dig = 0 := by decide

/-- Digits of that base. -/
def Digital (base : ℕ) (s : List UInt8) : Prop := ∀ ch ∈ s, ∃ dig < base, ch = digitChar dig

theorem digital_numeral (hbase : 2 ≤ base) (num : ℕ) : Digital base (numeral base hbase num) := by
  have hlast : ∀ num, Digital base [digitChar (num % base)] := by
    intro num ch hch
    rw [List.mem_singleton] at hch
    exact ⟨num % base, Nat.mod_lt _ (by omega), hch⟩
  induction num using numeral.induct base hbase with
  | case1 num h ih =>
    rw [numeral, if_pos h]
    exact fun ch hch ↦ (List.mem_append.mp hch).elim (ih ch) (hlast num ch)
  | case2 num h =>
    rw [numeral, if_neg h]
    exact hlast num

theorem digital_padded (hbase : 2 ≤ base) (hs : Digital base s) (count : ℕ) :
    Digital base (List.replicate count 48 ++ s) := by
  intro ch hch
  rcases List.mem_append.mp hch with hch | hch
  · exact ⟨0, by omega, List.eq_of_mem_replicate hch⟩
  · exact hs ch hch

theorem strtolDigits_cons (hle : base ≤ 16) {dig : ℕ} (hdig : dig < base) (val : ℤ) :
    strtolDigits base (digitChar dig :: s) val = strtolDigits base s (int64 (val * base + dig)) := by
  rw [strtolDigits, digitValue_digitChar dig (by omega)]
  exact if_neg (not_le.mpr hdig)

theorem strtolDigits_append {val result : ℤ} (h : strtolDigits base s val = (result, [])) :
    strtolDigits base (s ++ rest) val = strtolDigits base rest result := by
  induction s generalizing val with
  | nil =>
    cases h
    rfl
  | cons ch s ih =>
    rw [List.cons_append, strtolDigits]
    rw [strtolDigits] at h
    cases hdig : digitValue ch with
    | none =>
      rw [hdig] at h
      cases h
    | some dig =>
      rw [hdig] at h
      dsimp only at h ⊢
      split at h
      · cases h
      · rename_i hsmall
        rw [if_neg hsmall]
        exact ih h

theorem strtolDigits_zeros (hbase : 2 ≤ base) (hle : base ≤ 16) (count : ℕ) :
    strtolDigits base (List.replicate count 48) 0 = (0, []) := by
  induction count with
  | zero => rfl
  | succ count ih =>
    have hzero : strtolDigits base (digitChar 0 :: List.replicate count 48) 0 = _ :=
      strtolDigits_cons hle (by omega) 0
    rw [Int.zero_mul] at hzero
    exact hzero.trans ih

/-- The digits that `printnum` emits are the number. -/
theorem strtolDigits_numeral (hbase : 2 ≤ base) (hle : base ≤ 16) (hnum : num < 2 ^ 63) :
    strtolDigits base (numeral base hbase num) 0 = ((num : ℤ), []) := by
  induction num using numeral.induct base hbase with
  | case1 num h ih =>
    have hdiv : num / base < num := Nat.div_lt_self (by omega) hbase
    have hvalue : ((num / base : ℕ) : ℤ) * base + (num % base : ℕ) = num := by
      have hsum := Nat.div_add_mod' num base
      exact mod_cast hsum
    have hrange : int64 num = num := by
      unfold int64
      omega
    rw [numeral, if_pos h, strtolDigits_append (ih (by omega)),
      strtolDigits_cons hle (Nat.mod_lt _ (by omega)), hvalue, hrange]
    rfl
  | case2 num h =>
    have hlt : num < base := not_le.mp h
    have hrange : int64 (0 * base + (num % base : ℕ)) = num := by
      rw [Nat.mod_eq_of_lt hlt]
      unfold int64
      omega
    rw [numeral, if_neg h, strtolDigits_cons hle (Nat.mod_lt _ (by omega)), hrange]
    rfl

theorem skipBlanks_replicate (count : ℕ) (s : List UInt8) :
    skipBlanks (List.replicate count 32 ++ s) = skipBlanks s := by
  induction count with
  | zero => rfl
  | succ count ih => exact ih

/-- Digits alone are read as they are, without a sign or a prefix. -/
theorem strtol_digital (hbase : 2 ≤ base) (hle : base ≤ 16) (hs : Digital base s) (hne : s ≠ []) :
    skipBlanks s = s ∧ strtol s base = strtolDigits base s 0 := by
  rcases s with - | ⟨ch, s⟩
  · exact absurd rfl hne
  · rcases hs ch List.mem_cons_self with ⟨dig, hdig, rfl⟩
    rcases digitChar_ne dig (by omega) with ⟨hspace, htab, hplus, hminus, -⟩
    have hblanks : skipBlanks (digitChar dig :: s) = digitChar dig :: s := by
      rw [skipBlanks, if_neg (not_or.mpr ⟨hspace, htab⟩)]
    have hsecond : s.getD 0 0 ≠ 120 := by
      rcases s with - | ⟨ch, s⟩
      · decide
      · rcases hs ch (List.mem_cons_of_mem _ List.mem_cons_self) with ⟨dig, hdig, rfl⟩
        exact (digitChar_ne dig (by omega)).2.2.2.2
    have hprefix : skipPrefix (digitChar dig :: s) base = (digitChar dig :: s, base) := by
      unfold skipPrefix
      rw [List.getD_cons_succ, if_neg fun h ↦ hsecond h.2.2, if_neg fun h ↦ by omega,
        if_neg (by omega)]
    refine ⟨hblanks, ?_⟩
    unfold strtol
    rw [hblanks]
    dsimp only
    rw [List.getD_cons_zero, if_neg (not_or.mpr ⟨hplus, hminus⟩), hprefix]
    dsimp only
    rw [if_neg hminus]

end Parse

/-! ## The round trip -/

/-- What is said of a number that is printed: it is read back, the text is as long as the width and
the digits need, and it has no leading zero of its own. -/
def PrintsNumber (base : ℕ) (hbase : 2 ≤ base) (num : ℕ) (width : ℤ) (padc : UInt8) : Prop :=
  strtol (printnum base hbase num width padc) base = ((num : ℤ), []) ∧
  ((printnum base hbase num width padc).length : ℤ) = max width (digitCount base num) ∧
  (width = 0 → num ≠ 0 → (printnum base hbase num width padc).head? ≠ some 48)

section RoundTrip

variable {base num : ℕ} {width : ℤ} {padc : UInt8}

theorem numeral_ne_nil (hbase : 2 ≤ base) (num : ℕ) : numeral base hbase num ≠ [] := by
  rw [numeral]
  split
  · exact List.append_ne_nil_of_right_ne_nil _ (List.cons_ne_nil _ _)
  · exact List.cons_ne_nil _ _

theorem head_numeral (hbase : 2 ≤ base) (hle : base ≤ 16) (hne : num ≠ 0) :
    (numeral base hbase num).head? ≠ some 48 := by
  induction num using numeral.induct base hbase with
  | case1 num h ih =>
    have hdiv : num / base ≠ 0 := (Nat.div_pos h (by omega)).ne'
    rw [numeral, if_pos h, List.head?_append_of_ne_nil _ (numeral_ne_nil hbase _)]
    exact ih hdiv
  | case2 num h =>
    have hlt : num < base := not_le.mp h
    rw [numeral, if_neg h, Nat.mod_eq_of_lt hlt, List.head?_cons]
    exact fun heq ↦ hne (digitChar_eq_zero num (by omega) (Option.some.inj heq))

/-- What is printed is read back, whatever the width. -/
theorem strtol_printnum (hbase : 2 ≤ base) (hle : base ≤ 16) (hnum : num < 2 ^ 63)
    (hpadc : padc = 32 ∨ padc = 48) (width : ℤ) :
    strtol (printnum base hbase num width padc) base = ((num : ℤ), []) := by
  have hdigital := digital_numeral hbase num
  have hne := numeral_ne_nil hbase num
  have hread := strtolDigits_numeral hbase hle hnum
  rw [printnum_eq]
  generalize (int32 (width - digitCount base num)).toNat = count
  rcases hpadc with rfl | rfl
  · rcases strtol_digital hbase hle hdigital hne with ⟨hblanks, hstrtol⟩
    have hskip : strtol (List.replicate count 32 ++ numeral base hbase num) base =
        strtol (numeral base hbase num) base := by
      unfold strtol
      rw [skipBlanks_replicate]
    rw [hskip, hstrtol, hread]
  · have hpadded := digital_padded hbase hdigital count
    have hpaddedNe : List.replicate count 48 ++ numeral base hbase num ≠ [] :=
      List.append_ne_nil_of_right_ne_nil _ hne
    rw [(strtol_digital hbase hle hpadded hpaddedNe).2,
      strtolDigits_append (strtolDigits_zeros hbase hle count), hread]

end RoundTrip

/-- Printing and parsing are inverse, and the text has the right length, exactly when taking the
digits from the width does not wrap around below the least `int`. -/
theorem printsNumber_iff {base num : ℕ} (hbase : 2 ≤ base) (hle : base ≤ 16) (hnum : num < 2 ^ 63)
    {width : ℤ} (hlow : -2 ^ 31 ≤ width) (hhigh : width < 2 ^ 31) {padc : UInt8}
    (hpadc : padc = 32 ∨ padc = 48) :
    PrintsNumber base hbase num width padc ↔ -2 ^ 31 + (digitCount base num : ℤ) ≤ width := by
  have hlength := length_printnum hbase num width padc
  have hpositive : 1 ≤ digitCount base num := le_max_left _ _
  have hcount : digitCount base num ≤ 63 := digitCount_le hbase (by decide) hnum
  constructor
  · rintro ⟨-, htext, -⟩
    rw [hlength] at htext
    unfold int32 at htext
    omega
  · intro hwidth
    refine ⟨strtol_printnum hbase hle hnum hpadc width, ?_, fun hzero hne ↦ ?_⟩
    · rw [hlength]
      unfold int32
      omega
    · have hnone : (int32 (0 - (digitCount base num : ℤ))).toNat = 0 := by
        unfold int32
        omega
      rw [printnum_eq, hzero, hnone, List.replicate_zero, List.nil_append]
      exact head_numeral hbase hle hne

theorem printsNumber_42 : PrintsNumber 10 (by decide) 42 5 48 ↔ -2 ^ 31 + (digitCount 10 42 : ℤ) ≤ 5 :=
  printsNumber_iff (by decide) (by decide) (by decide) (by decide) (by decide) (Or.inr rfl)

/-- One digit with the least width gets more than two billion blanks in front. -/
theorem not_printsNumber_least : ¬∀ base num, ∀ hbase : 2 ≤ base, base ≤ 16 → num < 2 ^ 63 →
    ∀ width : ℤ, -2 ^ 31 ≤ width → width < 2 ^ 31 → ∀ padc : UInt8, padc = 32 ∨ padc = 48 →
    PrintsNumber base hbase num width padc := by
  intro hall
  have hlength := (hall 10 7 (by decide) (by decide) (by decide) (-2 ^ 31) (by decide) (by decide) 32
    (Or.inl rfl)).2.1
  have hcount : digitCount 10 7 = 1 := digitCount_of_lt (by decide)
  rw [length_printnum, hcount] at hlength
  have hpads : (int32 (-2 ^ 31 - (1 : ℕ))).toNat = 2147483647 := rfl
  rw [hpads] at hlength
  omega

end Ucore
