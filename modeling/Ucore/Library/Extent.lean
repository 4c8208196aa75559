import Mathlib.Algebra.GroupWithZero.Nat
import Mathlib.Data.Set.BooleanAlgebra
import Mathlib.Order.CompletePartialOrder
import Mathlib.Data.List.Basic
import Mathlib.Data.Set.Disjoint
import Mathlib.Tactic.Common

/-!
# Extents

An extent is a run of consecutive units. Extents kept in address order with a gap between any
two of them are what a coalescing allocator keeps free; extents in use are disjoint from these
and from each other. The lemmas are about one extent between a left and a right part of an
ordered list, which is how such a list is edited.
-/

namespace Ucore.Library

/-- The units from `start` to `start + length`. -/
structure Extent where
  start : ℕ
  length : ℕ
  deriving DecidableEq, Repr

namespace Extent

/-- The first unit after the extent. -/
def stop (extent : Extent) : ℕ := extent.start + extent.length

def units (extent : Extent) : Set ℕ := {unit | extent.start ≤ unit ∧ unit < extent.stop}

/-- One extent ends before the other one starts, and they do not touch. -/
def Apart (left right : Extent) : Prop := left.stop < right.start

/-- No unit in common, for extents that are not empty. -/
def Separate (left right : Extent) : Prop := left.stop ≤ right.start ∨ right.stop ≤ left.start

theorem Separate.symm {left right : Extent} (h : Separate left right) : Separate right left :=
  Or.symm h

instance : Std.Symm Separate := ⟨fun _ _ ↦ Separate.symm⟩

theorem Separate.disjoint {left right : Extent} (h : Separate left right) :
    Disjoint left.units right.units := by
  rw [Set.disjoint_left]
  rintro unit ⟨hleft, hleft'⟩ ⟨hright, hright'⟩
  rcases h with h | h <;> omega

theorem Apart.separate {left right : Extent} (h : Apart left right) : Separate left right :=
  Or.inl (Nat.le_of_lt h)

/-- A part of an extent is separate from everything the whole extent is separate from. -/
theorem Separate.of_part {whole part other : Extent} (h : Separate whole other)
    (hstart : whole.start ≤ part.start) (hstop : part.stop ≤ whole.stop) : Separate part other := by
  unfold Separate at *
  omega

theorem Separate.start_ne {left right : Extent} (h : Separate left right) (hleft : 0 < left.length)
    (hright : 0 < right.length) : left.start ≠ right.start := by
  unfold Separate stop at h
  omega

/-- The number of units in a list of extents. -/
def total (extents : List Extent) : ℕ := (extents.map length).sum

@[simp]
theorem total_nil : total [] = 0 := rfl

@[simp]
theorem total_cons (extent : Extent) (extents : List Extent) :
    total (extent :: extents) = extent.length + total extents := rfl

@[simp]
theorem total_append (left right : List Extent) :
    total (left ++ right) = total left + total right := by
  simp [total]

theorem total_perm {left right : List Extent} (h : left.Perm right) : total left = total right :=
  (h.map length).sum_nat

theorem length_le_total {extent : Extent} {extents : List Extent} (h : extent ∈ extents) :
    extent.length ≤ total extents := by
  rcases List.append_of_mem h with ⟨left, right, rfl⟩
  rw [total_append, total_cons]
  omega

/-! ## Splitting -/

/-- The first units of an extent. -/
def prefixOf (extent : Extent) (count : ℕ) : Extent := ⟨extent.start, count⟩

/-- What remains of an extent without its first units: one extent, or nothing. -/
def remainder (extent : Extent) (count : ℕ) : List Extent :=
  if count < extent.length then [⟨extent.start + count, extent.length - count⟩] else []

theorem mem_remainder {extent part : Extent} {count : ℕ} :
    part ∈ extent.remainder count ↔
      count < extent.length ∧ part = ⟨extent.start + count, extent.length - count⟩ := by
  unfold remainder
  split <;> simp [*]

theorem total_remainder {extent : Extent} {count : ℕ} :
    total (extent.remainder count) = extent.length - count := by
  unfold remainder
  split
  · simp
  · simp
    omega

/-- Splitting an extent keeps everything separate. -/
theorem pairwise_separate_split {extent : Extent} {others : List Extent} {count : ℕ}
    (h : (extent :: others).Pairwise Separate) (hcount : count ≤ extent.length) :
    (extent.remainder count ++ extent.prefixOf count :: others).Pairwise Separate := by
  rcases List.pairwise_cons.mp h with ⟨hextent, hothers⟩
  refine List.pairwise_append.mpr ⟨?_, List.pairwise_cons.mpr ⟨fun other hother ↦ ?_, hothers⟩, ?_⟩
  · unfold remainder
    split <;> simp
  · refine (hextent other hother).of_part le_rfl ?_
    simp only [stop, prefixOf]
    omega
  · intro first hfirst second hsecond
    rcases mem_remainder.mp hfirst with ⟨hlt, rfl⟩
    rcases List.mem_cons.mp hsecond with rfl | hsecond
    · exact Or.inr le_rfl
    · refine (hextent second hsecond).of_part (Nat.le_add_right _ _) ?_
      simp only [stop]
      omega

/-- Two touching extents as one. -/
def join (low high : Extent) : Extent := ⟨low.start, low.length + high.length⟩

/-- Joining two touching extents keeps everything separate. -/
theorem pairwise_separate_join {low high : Extent} {others : List Extent}
    (h : (low :: high :: others).Pairwise Separate) (htouch : low.stop = high.start)
    (hothers : ∀ other ∈ others, 0 < other.length) :
    (low.join high :: others).Pairwise Separate := by
  rw [List.pairwise_cons, List.pairwise_cons] at h
  refine List.pairwise_cons.mpr ⟨fun other hother ↦ ?_, h.2.2⟩
  have hlow := h.1 other (by simp [hother])
  have hhigh := h.2.1 other hother
  have hpositive := hothers other hother
  simp only [Separate, stop, join] at *
  omega

/-- No other extent starts inside this one. -/
theorem Separate.start_ne_add {extent other : Extent} {offset : ℕ} (h : Separate extent other)
    (hother : 0 < other.length) (hoffset : offset < extent.length) :
    other.start ≠ extent.start + offset := by
  unfold Separate stop at h
  omega

/-! ## Ordered lists -/

/-- The place of a new start in an ordered list. -/
theorem exists_place {extents : List Extent} {start : ℕ}
    (hordered : extents.Pairwise fun first second ↦ first.start < second.start)
    (hfresh : ∀ extent ∈ extents, extent.start ≠ start) :
    ∃ left right, extents = left ++ right ∧ (∀ extent ∈ left, extent.start < start) ∧
      ∀ extent ∈ right, start < extent.start := by
  induction extents with
  | nil => exact ⟨[], [], rfl, by simp, by simp⟩
  | cons first rest ih =>
    rcases List.pairwise_cons.mp hordered with ⟨hfirst, hrest⟩
    have hne := hfresh first (by simp)
    by_cases hlt : first.start < start
    · rcases ih hrest fun extent hextent ↦ hfresh extent (by simp [hextent])
        with ⟨left, right, rfl, hleft, hright⟩
      refine ⟨first :: left, right, rfl, fun extent hextent ↦ ?_, hright⟩
      rcases List.mem_cons.mp hextent with rfl | hextent
      · exact hlt
      · exact hleft extent hextent
    · refine ⟨[], first :: rest, rfl, by simp, fun extent hextent ↦ ?_⟩
      rcases List.mem_cons.mp hextent with rfl | hextent
      · omega
      · have hafter := hfirst extent hextent
        omega

/-- An extent between two parts of an ordered list, with room on both sides. -/
theorem pairwise_apart_insert {left right : List Extent} {extent : Extent}
    (h : (left ++ right).Pairwise Apart) (hleft : ∀ other ∈ left, Apart other extent)
    (hright : ∀ other ∈ right, Apart extent other) : (left ++ extent :: right).Pairwise Apart := by
  rw [List.pairwise_append] at h ⊢
  refine ⟨h.1, List.pairwise_cons.mpr ⟨hright, h.2.1⟩, fun first hfirst second hsecond ↦ ?_⟩
  rcases List.mem_cons.mp hsecond with rfl | hsecond
  · exact hleft first hfirst
  · exact h.2.2 first hfirst second hsecond

/-- Taking the first units of an extent leaves room around the remainder. -/
theorem pairwise_apart_remainder {left right : List Extent} {extent : Extent} {count : ℕ}
    (h : (left ++ extent :: right).Pairwise Apart) :
    (left ++ extent.remainder count ++ right).Pairwise Apart := by
  have hothers : (left ++ right).Pairwise Apart := h.sublist (by simp)
  rw [List.pairwise_append] at h
  unfold remainder
  split
  · rw [List.append_assoc]
    refine pairwise_apart_insert hothers (fun other hother ↦ ?_) (fun other hother ↦ ?_)
    · have hapart : Apart other extent := h.2.2 other hother extent (by simp)
      unfold Apart at *
      dsimp only
      omega
    · have hapart : Apart extent other := (List.pairwise_cons.mp h.2.1).1 other hother
      unfold Apart stop at *
      dsimp only
      omega
  · simpa using hothers

/-- In an ordered list a unit beyond the last extent of a part is beyond the whole part. -/
theorem apart_of_getLast {left : List Extent} {last : Extent} {unit : ℕ}
    (h : (left ++ [last]).Pairwise Apart) (hunit : last.stop ≤ unit) :
    ∀ other ∈ left, other.stop < unit := by
  intro other hother
  have hapart : Apart other last := (List.pairwise_append.mp h).2.2 other hother last (by simp)
  unfold Apart stop at *
  omega

theorem apart_of_head {right : List Extent} {first : Extent} {unit : ℕ}
    (h : (first :: right).Pairwise Apart) (hunit : unit ≤ first.start) :
    ∀ other ∈ right, unit < other.start := by
  intro other hother
  have hapart : Apart first other := (List.pairwise_cons.mp h).1 other hother
  unfold Apart stop at *
  omega

end Extent

end Ucore.Library
