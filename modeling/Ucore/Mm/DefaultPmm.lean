import Ucore.Libs.Defs
import Ucore.Libs.List

/-!
# The first-fit page allocator

`kern/mm/default_pmm.c` with the page descriptors of `memlayout.h`. A page is named by its index
in the array `pages`, so that pointer arithmetic and comparison on `struct Page *` are arithmetic
and comparison of indices. The list header `free_list` and the field `page_link` of every page
are the nodes of one memory of links. Fields of the descriptor that the allocator does not touch
are left out.
-/

namespace Ucore.DefaultPmm

open Library

/-- `&free_list`, or `&pages[page].page_link`. -/
inductive FreeNode where
  | freeList
  | pageLink (page : ℕ)
  deriving DecidableEq, Repr

structure Page where
  ref : ℤ
  flags : BitVec 64
  property : ℕ
  deriving DecidableEq

def PG_reserved : ℕ := 0
def PG_property : ℕ := 1

def Page.Reserved (page : Page) : Prop := testBit PG_reserved page.flags
def Page.Property (page : Page) : Prop := testBit PG_property page.flags

instance : DecidablePred Page.Reserved := fun page ↦
  inferInstanceAs (Decidable (testBit PG_reserved page.flags))

instance : DecidablePred Page.Property := fun page ↦
  inferInstanceAs (Decidable (testBit PG_property page.flags))

/-- The page array with the links in it, and `free_area`. -/
structure State where
  pages : ℕ → Page
  links : Links FreeNode
  nrFree : ℕ

def State.setPage (s : State) (index : ℕ) (page : Page) : State :=
  { s with pages := Function.update s.pages index page }

/-- `SetPageProperty` and the store of `property` next to it, for a new block head. -/
def State.setHead (s : State) (index property : ℕ) : State :=
  s.setPage index { s.pages index with
    property := property
    flags := setBit PG_property (s.pages index).flags }

def State.clearPageProperty (s : State) (index : ℕ) : State :=
  s.setPage index { s.pages index with flags := clearBit PG_property (s.pages index).flags }

def defaultInit (s : State) : State :=
  { s with links := listInit s.links .freeList, nrFree := 0 }

/-- `for (; p != base + n; p ++)` over page descriptors: check each one, then reset it. -/
def sweep (ok : Page → Prop) [DecidablePred ok] (reset : Page → Page) :
    ℕ → ℕ → (ℕ → Page) → Outcome (ℕ → Page)
  | _, 0, pages => .ok pages
  | p, n + 1, pages => do
    Outcome.require (ok (pages p))
    sweep ok reset (p + 1) n (Function.update pages p (reset (pages p)))

/-- One round of the loop that looks for the place of a block. Adding at the tail does not leave
the loop. -/
def insertStep (base : ℕ) (links : Links FreeNode) :
    FreeNode → Outcome (Links FreeNode ⊕ Links FreeNode)
  | .freeList => .ok (.inl links) -- the loop never stops at the header
  | .pageLink page =>
    if base < page then .ok (.inr (listAddBefore links (.pageLink page) (.pageLink base)))
    else if listNext links (.pageLink page) = .freeList then
      .ok (.inl (listAdd links (.pageLink page) (.pageLink base)))
    else .ok (.inl links)

/-- The insertion that `default_init_memmap` and `default_free_pages` both spell out. -/
def insertFreeList (fuel : ℕ) (links : Links FreeNode) (base : ℕ) : Outcome (Links FreeNode) :=
  if listEmpty links .freeList then .ok (listAdd links .freeList (.pageLink base))
  else walk id .freeList (insertStep base) .ok fuel links .freeList

def defaultInitMemmap (fuel : ℕ) (s : State) (base n : ℕ) : Outcome State := do
  Outcome.require (0 < n)
  let pages ← sweep Page.Reserved (fun _ ↦ ⟨0, 0, 0⟩) base n s.pages
  let s := State.setHead { s with pages } base (uint32 n)
  let s := { s with nrFree := uint32 (s.nrFree + n) }
  let links ← insertFreeList fuel s.links base
  return { s with links }

/-- The search of `default_alloc_pages` for the first block of at least `n` pages. -/
def findFirst (fuel : ℕ) (s : State) (n : ℕ) : Outcome (Option ℕ) :=
  walk (fun _ ↦ s.links) .freeList
    (fun _ node ↦ match node with
      | .freeList => .ok (.inl ())
      | .pageLink p => if n ≤ (s.pages p).property then .ok (.inr (some p)) else .ok (.inl ()))
    (fun _ ↦ .ok none) fuel () .freeList

/-- Taking the first `n` pages of the block at `page`. -/
def takeBlock (s : State) (page n : ℕ) : State :=
  let prev := listPrev s.links (.pageLink page)
  let s := { s with links := listDel s.links (.pageLink page) }
  let s :=
    if n < (s.pages page).property then
      let p := page + n
      let s := s.setHead p (uint32 (uint64Sub (s.pages page).property n))
      { s with links := listAdd s.links prev (.pageLink p) }
    else s
  let s := { s with nrFree := uint32 (uint64Sub s.nrFree n) }
  s.clearPageProperty page

def defaultAllocPages (fuel : ℕ) (s : State) (n : ℕ) : Outcome (Option ℕ × State) := do
  Outcome.require (0 < n)
  if s.nrFree < n then return (none, s)
  match ← findFirst fuel s n with
  | none => return (none, s)
  | some page => return (some page, takeBlock s page n)

/-- Two neighbouring blocks become one: `low` takes the pages of `high`, which leaves the list. -/
def absorb (s : State) (low high : ℕ) : State :=
  let s := s.setPage low { s.pages low with
    property := uint32 ((s.pages low).property + (s.pages high).property) }
  let s := s.clearPageProperty high
  { s with links := listDel s.links (.pageLink high) }

/-- Coalescing with the block before `base`; the result names the block that `base` is in now. -/
def mergeBefore (s : State) (base : ℕ) : ℕ × State :=
  match listPrev s.links (.pageLink base) with
  | .freeList => (base, s)
  | .pageLink p => if p + (s.pages p).property = base then (p, absorb s p base) else (base, s)

/-- Coalescing with the block after `base`. -/
def mergeAfter (s : State) (base : ℕ) : State :=
  match listNext s.links (.pageLink base) with
  | .freeList => s
  | .pageLink p => if base + (s.pages base).property = p then absorb s base p else s

def defaultFreePages (fuel : ℕ) (s : State) (base n : ℕ) : Outcome State := do
  Outcome.require (0 < n)
  let pages ← sweep (fun page ↦ ¬page.Reserved ∧ ¬page.Property)
    (fun page ↦ { page with flags := 0, ref := 0 }) base n s.pages
  let s := State.setHead { s with pages } base (uint32 n)
  let s := { s with nrFree := uint32 (s.nrFree + n) }
  let links ← insertFreeList fuel s.links base
  let (base, s) := mergeBefore { s with links } base
  return mergeAfter s base

end Ucore.DefaultPmm
