import Mathlib.Data.Int.Basic
import Ucore.Libs.Defs
import Ucore.Mm.SlobAlloc

/-!
# `kmalloc` and `kfree` of `kern/mm/kmalloc.c`

A small request is served by the SLOB allocator, with one unit more for the header in front of the
block. The others get whole pages, a power of two of them, and an entry in the list `bigblocks` that
is allocated from the SLOB allocator itself.

The fields `order` and `pages` of an entry lie where the fields `units` and `next` of a block are.
-/

namespace Ucore.Mm

open Library Slob

/-- The allocator, and `bigblocks`: the entries in the order of their links. -/
structure Kmalloc where
  slob : Slob
  bigblocks : List ℕ

/-- `sizeof(bigblock_t)`. -/
def sizeofBigblock : ℕ := 24

def findOrder (size : ℤ) : ℕ := if 4096 < size then findOrder (size / 2) + 1 else 0
termination_by size.toNat

/-- What a call of `kmalloc` has done: the block that it returned, the allocator, the pages that
`slob_alloc` has got, and the run of pages that was got for the block, with their number. -/
structure Served where
  block : Option ℕ
  kernel : Kmalloc
  pages : List ℕ
  run : Option (ℕ × ℕ)

/-- The part of `__kmalloc` for whole pages, with the entry `bb` that `slob_alloc` has returned. -/
def kmallocPages (size : ℕ) (run : Option ℕ) (fuel : ℕ) (k : Kmalloc) :
    Option ℕ × Slob × List ℕ → Outcome Served
  | (none, s, pages) => return ⟨none, ⟨s, k.bigblocks⟩, pages, none⟩
  | (some bb, s, pages) => do
    let order := findOrder (int32 size)
    let s := s.setUnits bb order
    match run with
    | some start =>
      return ⟨some start, ⟨s.setNext bb start, bb :: k.bigblocks⟩, pages, some (start, 2 ^ order)⟩
    | none =>
      let s ← slobFree fuel (s.setNext bb 0) bb sizeofBigblock
      return ⟨none, ⟨s, k.bigblocks⟩, pages, none⟩

/-- `__kmalloc`. The answers of `alloc_pages` in `slob_alloc`, and its answer for the run of pages, are
given. -/
def kmalloc (size : ℕ) (answers : ℕ → Option ℕ) (run : Option ℕ) (fuel : ℕ) (k : Kmalloc) :
    Outcome Served := do
  if size < PGSIZE - SLOB_UNIT then
    let (m, s, pages) ← slobAlloc (size + SLOB_UNIT) 0 answers fuel k.slob
    return ⟨m.map (plus · 1), ⟨s, k.bigblocks⟩, pages, none⟩
  else
    let served ← slobAlloc sizeofBigblock 0 answers fuel k.slob
    kmallocPages size run fuel k served

/-- The loop of `kfree`: the entry with these pages, and the list without it. -/
def takeBig (s : Slob) (block : ℕ) : List ℕ → Option (ℕ × List ℕ)
  | [] => none
  | bb :: rest =>
    if s.next bb = block then some (bb, rest)
    else (takeBig s block rest).map fun found ↦ (found.1, bb :: found.2)

/-- `kfree`, and the run of pages that it gave to `free_pages`, with their number. -/
def kfree (block : ℕ) (fuel : ℕ) (k : Kmalloc) : Outcome (Kmalloc × Option (ℕ × ℕ)) := do
  if block = 0 then return (k, none)
  match if block % PGSIZE = 0 then takeBig k.slob block k.bigblocks else none with
  | some (bb, rest) =>
    let order := k.slob.units bb
    let s ← slobFree fuel k.slob bb sizeofBigblock
    return (⟨s, rest⟩, some (block, 2 ^ order))
  | none =>
    let s ← slobFree fuel k.slob (block - SLOB_UNIT) 0
    return (⟨s, k.bigblocks⟩, none)

/-! ## The number of pages -/

theorem findOrder_of_lt {size : ℤ} (h : 4096 < size) : findOrder size = findOrder (size / 2) + 1 := by
  rw [findOrder, if_pos h]

theorem findOrder_of_le {size : ℤ} (h : size ≤ 4096) : findOrder size = 0 := by
  rw [findOrder, if_neg (not_lt.mpr h)]

/-- The loop counts the shifts until 4096 is not exceeded any more, and the shifts round down. -/
theorem findOrder_spec (size : ℤ) :
    size < 4097 * 2 ^ findOrder size ∧ ∀ k < findOrder size, 4097 * 2 ^ k ≤ size := by
  induction size using findOrder.induct with
  | case1 size h ih =>
    rw [findOrder_of_lt h, pow_succ]
    refine ⟨by omega, fun k hk ↦ ?_⟩
    rcases k with - | k
    · rw [pow_zero]
      omega
    · have hbelow := ih.2 k (Nat.lt_of_succ_lt_succ hk)
      rw [pow_succ]
      omega
  | case2 size h =>
    rw [findOrder_of_le (not_lt.mp h)]
    refine ⟨?_, fun k hk ↦ absurd hk (Nat.not_lt_zero k)⟩
    rw [pow_zero]
    omega

theorem int32_natCast {size : ℕ} (h : size < 2 ^ 31) : int32 size = size := by
  unfold int32
  omega

theorem int32_lt (size : ℕ) : int32 size < 2 ^ 31 := by
  unfold int32
  omega

theorem two_pow_findOrder_le (size : ℕ) : 2 ^ findOrder (int32 size) ≤ 2 ^ 19 := by
  refine Nat.pow_le_pow_right (by decide) ?_
  by_contra hlarge
  have hle := (findOrder_spec (int32 size)).2 19 (not_le.mp hlarge)
  have hlt := int32_lt size
  omega

/-- The sizes for which there are enough pages. -/
theorem le_pages_iff (size : ℕ) : size ≤ 2 ^ findOrder (int32 size) * PGSIZE ↔
    size < 2 ^ 31 ∧ ∀ k, ¬(4096 * 2 ^ k < size ∧ size < 4097 * 2 ^ k) := by
  have hpage : PGSIZE = 4096 := rfl
  have hspec := findOrder_spec (int32 size)
  rw [hpage]
  by_cases hint : size < 2 ^ 31
  · rw [int32_natCast hint] at hspec ⊢
    constructor
    · intro hle
      refine ⟨hint, fun k ⟨hlow, hhigh⟩ ↦ ?_⟩
      have hk : k < findOrder size := by
        rw [← Nat.pow_lt_pow_iff_right (a := 2) (by decide)]
        omega
      have hbelow : 4097 * 2 ^ k ≤ size := mod_cast hspec.2 k hk
      omega
    · rintro ⟨-, hgap⟩
      have habove : size < 4097 * 2 ^ findOrder size := mod_cast hspec.1
      have hnot := hgap (findOrder size)
      omega
  · refine iff_of_false (fun hle ↦ ?_) fun h ↦ hint h.1
    have hpow := two_pow_findOrder_le size
    have hsize : size = 2 ^ 31 := by omega
    have hzero : findOrder (int32 size) = 0 := by
      rw [hsize]
      exact findOrder_of_le (by decide)
    rw [hzero] at hle
    omega

end Ucore.Mm
