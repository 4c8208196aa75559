import Ucore.Library.RingFamily
import Ucore.Mm.DefaultPmm

/-!
# The buddy system

The page allocator of `src/lab2/kern/mm/buddySystem.c`. A block is as many pages as a power of two,
and is named by its first page; the field `property` of that page is the order of the block. A page
goes by its index in the array `pages`.
-/

namespace Ucore.BuddySystem

open Library
open DefaultPmm (Page PG_property sweep)

def MAX_ORDER : ℕ := 20

/-- `&free_array[order]`, or `&pages[page].page_link`. -/
inductive BuddyNode where
  | freeArray (order : ℕ)
  | pageLink (page : ℕ)
  deriving DecidableEq, Repr

/-- The page array with the links in it, and `free_buddy`. -/
structure Buddy where
  pages : ℕ → Page
  links : Links BuddyNode
  nrFree : ℕ
  maxOrder : ℕ

/-! ## Powers of two -/

/-- The loop of `log2`. -/
def log2Loop (order n : ℕ) : ℕ := if _h : 1 < n then log2Loop (order + 1) (n >>> 1) else order
termination_by n
decreasing_by
  rw [Nat.shiftRight_eq_div_pow]
  omega

def log2 (n : ℕ) : ℕ := log2Loop 0 n

/-- The loop of `ROUNDDOWN_POWER_OF_2`. -/
def roundDownLoop (ret n : ℕ) : ℕ :=
  if _h : 1 < n then roundDownLoop (ret <<< 1) (n >>> 1) else ret
termination_by n
decreasing_by
  rw [Nat.shiftRight_eq_div_pow]
  omega

def roundDownPowerOf2 (n : ℕ) : ℕ := roundDownLoop 1 n

def roundUpPowerOf2 (n : ℕ) : ℕ :=
  let ret := roundDownPowerOf2 n
  if n = ret then ret else ret <<< 1

/-! ## Stores -/

def Buddy.setPage (s : Buddy) (index : ℕ) (page : Page) : Buddy :=
  { s with pages := Function.update s.pages index page }

def Buddy.setProperty (s : Buddy) (index property : ℕ) : Buddy :=
  s.setPage index { s.pages index with property }

/-- `SetPageProperty`. -/
def Buddy.setPageProperty (s : Buddy) (index : ℕ) : Buddy :=
  s.setPage index { s.pages index with flags := setBit PG_property (s.pages index).flags }

/-- `ClearPageProperty`. -/
def Buddy.clearPageProperty (s : Buddy) (index : ℕ) : Buddy :=
  s.setPage index { s.pages index with flags := clearBit PG_property (s.pages index).flags }

def Buddy.listAdd (s : Buddy) (listelm elm : BuddyNode) : Buddy :=
  { s with links := Ucore.listAdd s.links listelm elm }

def Buddy.listDel (s : Buddy) (listelm : BuddyNode) : Buddy :=
  { s with links := Ucore.listDel s.links listelm }

/-! ## The manager -/

/-- The loop of `buddy_init` over the headers from `order` on. -/
def initLoop (links : Links BuddyNode) : ℕ → Links BuddyNode
  | 0 => links
  | count + 1 => listInit (initLoop links count) (.freeArray count)

/-- `buddy_init`. -/
def buddyInit (s : Buddy) : Buddy :=
  { s with links := initLoop s.links MAX_ORDER, nrFree := 0, maxOrder := 0 }

/-- `buddy_init_memmap`. -/
def buddyInitMemmap (s : Buddy) (base n : ℕ) : Outcome Buddy := do
  Outcome.require (0 < n)
  let pn := roundDownPowerOf2 n
  let s := { s with maxOrder := log2 pn }
  let pages ← sweep Page.Reserved (fun _ ↦ ⟨0, 0, 0⟩) base pn s.pages
  let s := { s with pages, nrFree := uint32 pn }
  let s := s.setProperty base s.maxOrder
  let s := s.setPageProperty base
  return s.listAdd (.freeArray s.maxOrder) (.pageLink base)

/-- The half of `buddy_split` that cuts the first block of the list in two. -/
def splitFirst (s : Buddy) (order : ℕ) : Outcome Buddy :=
  match listNext s.links (.freeArray order) with
  | .freeArray _ => .error .panic -- the list has a block
  | .pageLink pageLeft =>
    let s := s.setProperty pageLeft (uint32Sub (s.pages pageLeft).property 1)
    let pageRight := pageLeft + 1 <<< (s.pages pageLeft).property
    let s := s.setPageProperty pageRight
    let s := s.setProperty pageRight (s.pages pageLeft).property
    let s := s.listDel (.pageLink pageLeft)
    let s := s.listAdd (.freeArray (order - 1)) (.pageLink pageLeft)
    .ok (s.listAdd (.pageLink pageLeft) (.pageLink pageRight))

/-- `buddy_split`. -/
def buddySplit (s : Buddy) (order : ℕ) : Outcome Buddy :=
  if _h : 0 < order ∧ order ≤ s.maxOrder then do
    let s ← if listEmpty s.links (.freeArray order) then buddySplit s (order + 1) else .ok s
    splitFirst s order
  else .error .panic
termination_by s.maxOrder + 1 - order

/-- `buddy_alloc_pages`. -/
def buddyAllocPages (s : Buddy) (n : ℕ) : Outcome (Option ℕ × Buddy) := do
  Outcome.require (0 < n)
  if s.nrFree < n then return (none, s)
  let pn := roundUpPowerOf2 n
  let order := log2 pn
  let s ← if listEmpty s.links (.freeArray order) then buddySplit s (order + 1) else .ok s
  match listNext s.links (.freeArray order) with
  | .freeArray _ => .error .panic -- the list has a block
  | .pageLink ret =>
    let s := s.listDel (.pageLink ret)
    let s := s.clearPageProperty ret
    return (some ret, { s with nrFree := uint32 (uint64Sub s.nrFree pn) })

/-- `get_buddy`. -/
def getBuddy (s : Buddy) (page : ℕ) : ℕ := page ^^^ 1 <<< (s.pages page).property

/-- The loop of `buddy_free_pages`. -/
def mergeLoop : ℕ → Buddy → ℕ → ℕ → Outcome Buddy
  | 0, _, _, _ => .error .fuel
  | fuel + 1, s, leftBlock, buddy =>
    if (s.pages leftBlock).property < s.maxOrder ∧ (s.pages buddy).Property then
      let (leftBlock, buddy) := if buddy < leftBlock then (buddy, leftBlock) else (leftBlock, buddy)
      let s := s.listDel (.pageLink leftBlock)
      let s := s.listDel (.pageLink buddy)
      let s := s.setProperty leftBlock (uint32 ((s.pages leftBlock).property + 1))
      let s := s.setProperty buddy 0
      let s := s.setPageProperty leftBlock
      let s := s.clearPageProperty buddy
      mergeLoop fuel s leftBlock buddy
    else .ok s

/-- `buddy_free_pages`. -/
def buddyFreePages (fuel : ℕ) (s : Buddy) (base n : ℕ) : Outcome Buddy := do
  Outcome.require (0 < n)
  let order := (s.pages base).property
  let pn := 1 <<< order
  Outcome.require (pn = roundUpPowerOf2 n)
  let s := s.listAdd (.freeArray order) (.pageLink base)
  let buddy := getBuddy s base
  let s ← mergeLoop fuel s base buddy
  return { s with nrFree := uint32 (s.nrFree + pn) }

end Ucore.BuddySystem
