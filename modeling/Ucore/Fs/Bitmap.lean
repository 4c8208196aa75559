import Mathlib.Data.Finset.Card
import Mathlib.Data.Finset.Range
import Ucore.Library.Outcome
import Ucore.Libs.Defs

/-!
# `kern/fs/sfs/bitmap.c`

A bitmap is an array of 32-bit words in which a set bit marks a free index. The abstract content
is the set of free indices: allocation removes one index from it, `bitmap_free` puts one back.
-/

namespace Ucore.Fs

open Library

def WORD_BITS : ℕ := 32

structure Bitmap where
  nbits : ℕ
  nwords : ℕ
  map : ℕ → BitVec 32

def Bitmap.setWord (bitmap : Bitmap) (ix : ℕ) (word : BitVec 32) : Bitmap :=
  { bitmap with map := Function.update bitmap.map ix word }

/-- `1 << offset` as a word. -/
def mask (offset : ℕ) : BitVec 32 := 1#32 <<< offset

/-- The inner loop of `bitmap_alloc`: the first set bit at `offset` or above. -/
def bitmapAllocBit (word : BitVec 32) : ℕ → ℕ → Option ℕ
  | _, 0 => none
  | offset, left + 1 =>
    if word &&& mask offset ≠ 0 then some offset else bitmapAllocBit word (offset + 1) left

/-- The outer loop of `bitmap_alloc`, from word `ix` on. -/
def bitmapAllocFrom (bitmap : Bitmap) : ℕ → ℕ → Outcome (Option (ℕ × Bitmap))
  | _, 0 => .ok none
  | ix, left + 1 =>
    if bitmap.map ix ≠ 0 then
      match bitmapAllocBit (bitmap.map ix) 0 WORD_BITS with
      | some offset => .ok (some (uint32 (ix * WORD_BITS + offset),
          bitmap.setWord ix (bitmap.map ix ^^^ mask offset)))
      | none => .error .panic
    else bitmapAllocFrom bitmap (ix + 1) left

/-- The index of a free bit, which is free no longer; `none` stands for `-E_NO_MEM`. -/
def bitmapAlloc (bitmap : Bitmap) : Outcome (Option (ℕ × Bitmap)) :=
  bitmapAllocFrom bitmap 0 bitmap.nwords

/-- The word and the mask of an index. -/
def bitmapTranslate (bitmap : Bitmap) (index : ℕ) : Outcome (ℕ × BitVec 32) := do
  Outcome.require (index < bitmap.nbits)
  return (index / WORD_BITS, mask (index % WORD_BITS))

def bitmapTest (bitmap : Bitmap) (index : ℕ) : Outcome Bool := do
  let (word, mask) ← bitmapTranslate bitmap index
  return decide (bitmap.map word &&& mask ≠ 0)

def bitmapFree (bitmap : Bitmap) (index : ℕ) : Outcome Bitmap := do
  let (word, mask) ← bitmapTranslate bitmap index
  Outcome.require (bitmap.map word &&& mask = 0)
  return bitmap.setWord word (bitmap.map word ||| mask)

/-! ## The set of free indices -/

namespace Bitmap

/-- The words cover exactly the indices, and an index fits in 32 bits. -/
structure Covers (bitmap : Bitmap) : Prop where
  words : bitmap.nbits = bitmap.nwords * WORD_BITS
  small : bitmap.nbits < 2 ^ 32

def Free (bitmap : Bitmap) (index : ℕ) : Prop :=
  (bitmap.map (index / WORD_BITS)).getLsbD (index % WORD_BITS) = true

instance (bitmap : Bitmap) : DecidablePred bitmap.Free := fun _ ↦
  inferInstanceAs (Decidable (_ = true))

theorem free_setWord (bitmap : Bitmap) (ix : ℕ) (word : BitVec 32) (other : ℕ) :
    (bitmap.setWord ix word).Free other ↔ if other / WORD_BITS = ix
      then word.getLsbD (other % WORD_BITS) = true else bitmap.Free other := by
  by_cases h : other / WORD_BITS = ix <;> simp [Free, setWord, h]

/-- The number of free indices. -/
def freeCount (bitmap : Bitmap) : ℕ := ((Finset.range bitmap.nbits).filter bitmap.Free).card

/-- `index` is free in the first bitmap, and the second one differs in that it is not. -/
structure Taken (bitmap after : Bitmap) (index : ℕ) : Prop where
  nbits : after.nbits = bitmap.nbits
  nwords : after.nwords = bitmap.nwords
  index_lt : index < bitmap.nbits
  free : bitmap.Free index
  rest : ∀ other, after.Free other ↔ other ≠ index ∧ bitmap.Free other

theorem Taken.freeCount {bitmap after : Bitmap} {index : ℕ} (h : Taken bitmap after index) :
    bitmap.freeCount = after.freeCount + 1 := by
  have hmem : index ∈ (Finset.range bitmap.nbits).filter bitmap.Free := by
    simpa using ⟨h.index_lt, h.free⟩
  have herase : ((Finset.range bitmap.nbits).filter bitmap.Free).erase index =
      (Finset.range after.nbits).filter after.Free := by
    ext other
    simp only [Finset.mem_erase, Finset.mem_filter, Finset.mem_range, h.nbits, h.rest]
    tauto
  rw [Bitmap.freeCount, Bitmap.freeCount, ← herase, Finset.card_erase_add_one hmem]

theorem freeCount_le (bitmap : Bitmap) : bitmap.freeCount ≤ bitmap.nbits :=
  (Finset.card_filter_le _ _).trans_eq (Finset.card_range _)

theorem Covers.of_eq {bitmap after : Bitmap} (h : bitmap.Covers) (hnbits : after.nbits = bitmap.nbits)
    (hnwords : after.nwords = bitmap.nwords) : after.Covers :=
  ⟨by rw [hnbits, hnwords, h.words], hnbits ▸ h.small⟩

end Bitmap

open Bitmap

theorem getLsbD_mask {offset other : ℕ} (h : other < WORD_BITS) :
    (mask offset).getLsbD other = decide (other = offset) := getLsbD_one_shiftLeft h

theorem and_mask_ne_zero {word : BitVec 32} {offset : ℕ} (h : offset < WORD_BITS) :
    word &&& mask offset ≠ 0 ↔ word.getLsbD offset = true := by
  constructor
  · intro hne
    by_contra hbit
    refine hne (BitVec.eq_of_getLsbD_eq fun index hindex ↦ ?_)
    rw [BitVec.getLsbD_and, getLsbD_mask hindex]
    by_cases heq : index = offset
    · subst heq
      simpa using hbit
    · simp [heq]
  · intro hbit hzero
    have hset := congrArg (fun word : BitVec 32 ↦ word.getLsbD offset) hzero
    simp only [BitVec.getLsbD_and, getLsbD_mask h, hbit] at hset
    simp at hset

theorem offset_lt (index : ℕ) : index % WORD_BITS < WORD_BITS := Nat.mod_lt _ (by decide)

/-- Two indices are the same bit of the same word. -/
theorem index_eq_iff (index other : ℕ) : index = other ↔
    index / WORD_BITS = other / WORD_BITS ∧ index % WORD_BITS = other % WORD_BITS := by
  unfold WORD_BITS
  omega

/-- Flipping a free bit takes its index. -/
theorem taken_xor {bitmap : Bitmap} {index : ℕ} (hlt : index < bitmap.nbits)
    (hfree : bitmap.Free index) : Taken bitmap (bitmap.setWord (index / WORD_BITS)
      (bitmap.map (index / WORD_BITS) ^^^ mask (index % WORD_BITS))) index := by
  refine ⟨rfl, rfl, hlt, hfree, fun other ↦ ?_⟩
  rw [free_setWord, BitVec.getLsbD_xor, getLsbD_mask (offset_lt other), ne_eq, index_eq_iff other index]
  by_cases hword : other / WORD_BITS = index / WORD_BITS
  · rw [if_pos hword, Bitmap.Free, hword]
    by_cases hoffset : other % WORD_BITS = index % WORD_BITS
    · rw [Bitmap.Free] at hfree
      simp [hoffset, hfree]
    · simp [hoffset]
  · simp [hword]

/-- Setting a bit that was not set gives its index back. -/
theorem taken_or {bitmap : Bitmap} {index : ℕ} (hlt : index < bitmap.nbits)
    (hused : ¬bitmap.Free index) : Taken (bitmap.setWord (index / WORD_BITS)
      (bitmap.map (index / WORD_BITS) ||| mask (index % WORD_BITS))) bitmap index := by
  refine ⟨rfl, rfl, hlt, ?_, fun other ↦ ?_⟩
  · rw [free_setWord, if_pos rfl, BitVec.getLsbD_or, getLsbD_mask (offset_lt index)]
    simp
  · rw [free_setWord, BitVec.getLsbD_or, getLsbD_mask (offset_lt other), ne_eq, index_eq_iff other index]
    by_cases hword : other / WORD_BITS = index / WORD_BITS
    · rw [if_pos hword, Bitmap.Free, hword]
      by_cases hoffset : other % WORD_BITS = index % WORD_BITS
      · rw [Bitmap.Free] at hused
        simp [hoffset, hused]
      · simp [hoffset]
    · simp [hword]

/-! ## Specifications -/

theorem bitmapAllocBit_eq_some {word : BitVec 32} {offset left found : ℕ}
    (hwidth : offset + left ≤ WORD_BITS) (h : bitmapAllocBit word offset left = some found) :
    found < offset + left ∧ word.getLsbD found = true := by
  induction left generalizing offset with
  | zero => simp [bitmapAllocBit] at h
  | succ left ih =>
    rw [bitmapAllocBit] at h
    split at h
    · rename_i hset
      cases h
      exact ⟨by omega, (and_mask_ne_zero (by omega)).mp hset⟩
    · have hfound := ih (by omega) h
      exact ⟨by omega, hfound.2⟩

theorem bitmapAllocFrom_spec {bitmap : Bitmap} (hcovers : bitmap.Covers) {ix left : ℕ}
    (hleft : ix + left = bitmap.nwords) :
    Ensures (bitmapAllocFrom bitmap ix left) fun result ↦ match result with
      | none => ∀ index, ix * WORD_BITS ≤ index → index < bitmap.nbits → ¬bitmap.Free index
      | some (index, after) => Taken bitmap after index := by
  have hwords := hcovers.words
  have hsmall := hcovers.small
  induction left generalizing ix with
  | zero =>
    simp only [bitmapAllocFrom, Ensures.ok_iff]
    intro index hlow hhigh
    unfold WORD_BITS at *
    omega
  | succ left ih =>
    rw [bitmapAllocFrom]
    by_cases hword : bitmap.map ix = 0
    · rw [if_neg (not_not.mpr hword)]
      refine (ih (by omega)).mono fun result hresult ↦ ?_
      cases result with
      | some result => exact hresult
      | none =>
        intro index hlow hhigh
        by_cases hnext : (ix + 1) * WORD_BITS ≤ index
        · exact hresult index hnext hhigh
        · have hix : index / WORD_BITS = ix := by
            unfold WORD_BITS at *
            omega
          simp [Bitmap.Free, hix, hword]
    · rw [if_pos hword]
      cases hbit : bitmapAllocBit (bitmap.map ix) 0 WORD_BITS with
      | none => simp
      | some offset =>
        rcases bitmapAllocBit_eq_some (by decide) hbit with ⟨hoffset, hset⟩
        rw [Nat.zero_add] at hoffset
        have hlt : ix * WORD_BITS + offset < bitmap.nbits := by
          unfold WORD_BITS at *
          omega
        have hix : (ix * WORD_BITS + offset) / WORD_BITS = ix := by
          unfold WORD_BITS at *
          omega
        have hmod : (ix * WORD_BITS + offset) % WORD_BITS = offset := by
          unfold WORD_BITS at *
          omega
        have htaken := taken_xor hlt (by rw [Bitmap.Free, hix, hmod]; exact hset)
        rw [hix, hmod] at htaken
        rw [Ensures.ok_iff, uint32_of_lt (by omega)]
        exact htaken

theorem bitmapAlloc_spec {bitmap : Bitmap} (hcovers : bitmap.Covers) :
    Ensures (bitmapAlloc bitmap) fun result ↦ match result with
      | none => ∀ index < bitmap.nbits, ¬bitmap.Free index
      | some (index, after) => Taken bitmap after index := by
  refine (bitmapAllocFrom_spec hcovers (Nat.zero_add _)).mono fun result hresult ↦ ?_
  cases result with
  | none => exact fun index hlt ↦ hresult index (by simp) hlt
  | some result => exact hresult

theorem bitmapTranslate_spec (bitmap : Bitmap) (index : ℕ) :
    Ensures (bitmapTranslate bitmap index) fun result ↦
      index < bitmap.nbits ∧ result = (index / WORD_BITS, mask (index % WORD_BITS)) :=
  Ensures.require fun hlt ↦ by simpa using hlt

theorem bitmapTest_spec (bitmap : Bitmap) (index : ℕ) :
    Ensures (bitmapTest bitmap index) fun result ↦
      index < bitmap.nbits ∧ result = decide (bitmap.Free index) := by
  refine (bitmapTranslate_spec bitmap index).bind ?_
  rintro _ ⟨hlt, rfl⟩
  simp only [Outcome.pure_eq_ok, Ensures.ok_iff, and_mask_ne_zero (offset_lt index)]
  exact ⟨hlt, rfl⟩

theorem bitmapFree_spec (bitmap : Bitmap) (index : ℕ) :
    Ensures (bitmapFree bitmap index) fun after ↦ Taken after bitmap index := by
  refine (bitmapTranslate_spec bitmap index).bind ?_
  rintro _ ⟨hlt, rfl⟩
  refine Ensures.require fun hclear ↦ ?_
  have hused : ¬bitmap.Free index := by
    rw [Bitmap.Free, ← and_mask_ne_zero (offset_lt index)]
    exact not_not.mpr hclear
  simpa using taken_or hlt hused

/-! ## Calls that come back -/

theorem bitmapAllocBit_eq_none {word : BitVec 32} {offset left : ℕ}
    (hwidth : offset + left ≤ WORD_BITS) (h : bitmapAllocBit word offset left = none) {index : ℕ}
    (hlow : offset ≤ index) (hhigh : index < offset + left) : word.getLsbD index = false := by
  induction left generalizing offset with
  | zero => omega
  | succ left ih =>
    rw [bitmapAllocBit] at h
    by_cases hset : word &&& mask offset = 0
    · rw [if_neg (not_not.mpr hset)] at h
      by_cases heq : index = offset
      · have hbit := (and_mask_ne_zero (by omega : offset < WORD_BITS)).not_right.mp hset
        rw [heq]
        simpa using hbit
      · exact ih (by omega) h (by omega) (by omega)
    · rw [if_pos hset] at h
      cases h

/-- A word that is not zero has a bit that the inner loop finds. -/
theorem eq_zero_of_bitmapAllocBit {word : BitVec 32}
    (h : bitmapAllocBit word 0 WORD_BITS = none) : word = 0 := by
  apply BitVec.eq_of_getLsbD_eq
  intro index hindex
  rw [bitmapAllocBit_eq_none (by decide) h (Nat.zero_le _) (by unfold WORD_BITS; omega)]
  simp

theorem completes_bitmapAllocFrom (bitmap : Bitmap) (ix left : ℕ) :
    Completes (bitmapAllocFrom bitmap ix left) := by
  induction left generalizing ix with
  | zero => exact Completes.ok _
  | succ left ih =>
    rw [bitmapAllocFrom]
    by_cases hword : bitmap.map ix = 0
    · rw [if_neg (not_not.mpr hword)]
      exact ih (ix + 1)
    · rw [if_pos hword]
      cases hbit : bitmapAllocBit (bitmap.map ix) 0 WORD_BITS with
      | none => exact absurd (eq_zero_of_bitmapAllocBit hbit) hword
      | some offset => exact Completes.ok _

theorem completes_bitmapAlloc (bitmap : Bitmap) : Completes (bitmapAlloc bitmap) :=
  completes_bitmapAllocFrom bitmap 0 bitmap.nwords

theorem bitmapTranslate_eq {bitmap : Bitmap} {index : ℕ} (h : index < bitmap.nbits) :
    bitmapTranslate bitmap index = .ok (index / WORD_BITS, mask (index % WORD_BITS)) := by
  rw [bitmapTranslate, Outcome.require_of_true h]
  rfl

theorem bitmapTest_eq {bitmap : Bitmap} {index : ℕ} (h : index < bitmap.nbits) :
    bitmapTest bitmap index = .ok (decide (bitmap.Free index)) := by
  rw [bitmapTest, bitmapTranslate_eq h]
  simp only [Outcome.ok_bind, and_mask_ne_zero (offset_lt index)]
  rfl

theorem completes_bitmapFree {bitmap : Bitmap} {index : ℕ} (h : index < bitmap.nbits)
    (hused : ¬bitmap.Free index) : Completes (bitmapFree bitmap index) := by
  have hclear : bitmap.map (index / WORD_BITS) &&& mask (index % WORD_BITS) = 0 := by
    rw [Bitmap.Free, ← and_mask_ne_zero (offset_lt index)] at hused
    exact not_not.mp hused
  rw [bitmapFree, bitmapTranslate_eq h]
  exact Completes.require hclear (Completes.ok _)

theorem freeCount_eq_zero {bitmap : Bitmap} (h : ∀ index < bitmap.nbits, ¬bitmap.Free index) :
    bitmap.freeCount = 0 := by
  rw [Bitmap.freeCount, Finset.card_eq_zero, Finset.filter_eq_empty_iff]
  intro index hindex
  exact h index (Finset.mem_range.mp hindex)

theorem freeCount_congr {bitmap after : Bitmap} (hnbits : after.nbits = bitmap.nbits)
    (hfree : ∀ index, after.Free index ↔ bitmap.Free index) :
    after.freeCount = bitmap.freeCount := by
  rw [Bitmap.freeCount, Bitmap.freeCount, hnbits, Finset.filter_congr fun index _ ↦ hfree index]

/-! ## Bitmaps with given free indices -/

/-- The bitmap of `nwords` words in which the indices with `free` are free. -/
def Bitmap.ofFree (nwords : ℕ) (free : ℕ → Bool) : Bitmap where
  nbits := nwords * WORD_BITS
  nwords := nwords
  map ix := (BitVec.ofBoolListLE
    ((List.range WORD_BITS).map fun bit ↦ free (ix * WORD_BITS + bit))).setWidth 32

theorem free_ofFree (nwords : ℕ) (free : ℕ → Bool) (index : ℕ) :
    (Bitmap.ofFree nwords free).Free index ↔ free index = true := by
  have hlt : index % WORD_BITS < WORD_BITS := offset_lt index
  have hwidth : index % WORD_BITS < 32 := hlt
  have hindex : index / WORD_BITS * WORD_BITS + index % WORD_BITS = index :=
    Nat.div_add_mod' index WORD_BITS
  rw [Bitmap.Free, Bitmap.ofFree, BitVec.getLsbD_setWidth, BitVec.getLsbD_ofBoolListLE]
  simp [hwidth, hlt, hindex]

theorem covers_ofFree {nwords : ℕ} (h : nwords * WORD_BITS < 2 ^ 32) (free : ℕ → Bool) :
    (Bitmap.ofFree nwords free).Covers := ⟨rfl, h⟩

end Ucore.Fs
