import Ucore.Library.Outcome
import Mathlib.Data.Fin.Basic
import Mathlib.Data.Nat.Bitwise
import Mathlib.Logic.Function.Basic

/-!
# Page tables

The three levels of page tables in `kern/mm/pmm.c` and the functions that map and unmap a page. A
frame goes by its number. The entries of the upper two levels are the tables that they lead to; an
entry of the last level is a word. A pointer to an entry is the address that it is the entry of.
-/

namespace Ucore.Mm

open Library

abbrev Frame := ℕ

def PGSIZE : ℕ := 4096
def NPTEENTRY : ℕ := 512
def PTSIZE : ℕ := PGSIZE * NPTEENTRY
def PDSIZE : ℕ := PTSIZE * NPTEENTRY
def USERBASE : ℕ := 0x00200000
def USERTOP : ℕ := 0x80000000

def PTE_V : ℕ := 0x001
def PTE_R : ℕ := 0x002
def PTE_W : ℕ := 0x004
def PTE_X : ℕ := 0x008
def PTE_U : ℕ := 0x010
def READ_WRITE : ℕ := PTE_R ||| PTE_W ||| PTE_V
def PTE_USER : ℕ := PTE_R ||| PTE_W ||| PTE_X ||| PTE_U ||| PTE_V

/-- `USER_ACCESS`. -/
def UserAccess (start stop : ℕ) : Prop := USERBASE ≤ start ∧ start < stop ∧ stop ≤ USERTOP

instance (start stop : ℕ) : Decidable (UserAccess start stop) :=
  inferInstanceAs (Decidable (_ ∧ _ ∧ _))

def roundDown (a n : ℕ) : ℕ := a - a % n
def roundUp (a n : ℕ) : ℕ := roundDown (a + n - 1) n

/-! ## Entries -/

def pteCreate (ppn type : ℕ) : ℕ := ppn <<< 10 ||| PTE_V ||| type

/-- The entry is present. -/
def Present (pte : ℕ) : Prop := pte &&& PTE_V ≠ 0

instance (pte : ℕ) : Decidable (Present pte) := inferInstanceAs (Decidable (_ ≠ _))

/-- The frame of a present entry. -/
def pte2page (pte : ℕ) : Frame := pte >>> 10

/-- The indices of an address in the tables. The remainder is what the mask `0x1FF` leaves. -/
def PDX1 (la : ℕ) : Fin 512 := Fin.ofNat 512 (la >>> 30)
def PDX0 (la : ℕ) : Fin 512 := Fin.ofNat 512 (la >>> 21)
def PTX (la : ℕ) : Fin 512 := Fin.ofNat 512 (la >>> 12)

structure Table (Entry : Type) where
  frame : Frame
  entry : Fin 512 → Entry

abbrev PageTable := Table ℕ
abbrev Pd0 := Table (Option PageTable)
abbrev Pgdir := Table (Option Pd0)

def Table.set {Entry : Type} (table : Table Entry) (index : Fin 512) (value : Entry) : Table Entry :=
  { table with entry := Function.update table.entry index value }

/-- A table that has just been cleared. -/
def Table.clear {Entry : Type} (frame : Frame) (value : Entry) : Table Entry :=
  ⟨frame, fun _ ↦ value⟩

/-! ## Frames -/

/-- The frames that are free, in the order in which they are handed out, the reference counts and
what the frames hold that are no tables. The rest is for swapping: whether it is initialised, the
queue of pages, the page of each frame in it, and whether `check_mm_struct` is set, and in it
`sm_priv`. -/
structure Memory where
  free : List Frame
  ref : Frame → ℤ
  bytes : Frame → ℕ → UInt8
  swapInitOk : Bool
  queue : List Frame
  praVaddr : Frame → ℕ
  checkMm : Option Bool

/-- `alloc_page`, which answers with any free frame, or with none when there is none. -/
def Memory.allocPage (m : Memory) : Option Frame × Memory :=
  match m.free with
  | [] => (none, m)
  | frame :: free => (some frame, { m with free })

/-- `free_page`, which clears the count. -/
def Memory.freePage (m : Memory) (frame : Frame) : Memory :=
  { m with free := frame :: m.free, ref := Function.update m.ref frame 0 }

def Memory.setRef (m : Memory) (frame : Frame) (value : ℤ) : Memory :=
  { m with ref := Function.update m.ref frame value }

/-- `page_ref_dec`, and `free_page` for the last reference. -/
def Memory.drop (m : Memory) (page : Frame) : Memory :=
  let m := m.setRef page (m.ref page - 1)
  if m.ref page = 0 then m.freePage page else m

/-- The frame of a new table, as `get_pte` gets one. -/
def Memory.allocTable (m : Memory) : Option Frame × Memory :=
  match m.allocPage with
  | (none, m) => (none, m)
  | (some frame, m) => (some frame, m.setRef frame 1)

/-! ## Finding an entry -/

/-- `get_pte` without `create`, and what the pointer leads to. -/
def Table.getPte (pgdir : Pgdir) (la : ℕ) : Option ℕ :=
  match pgdir.entry (PDX1 la) with
  | none => none
  | some pd0 =>
    match pd0.entry (PDX0 la) with
    | none => none
    | some pt => some (pt.entry (PTX la))

/-- The store `*ptep = pte`. -/
def Table.setPte (pgdir : Pgdir) (la pte : ℕ) : Pgdir :=
  match pgdir.entry (PDX1 la) with
  | none => pgdir
  | some pd0 =>
    match pd0.entry (PDX0 la) with
    | none => pgdir
    | some pt => pgdir.set (PDX1 la) (some (pd0.set (PDX0 la) (some (pt.set (PTX la) pte))))

/-- The second level in `get_pte` with `create`. -/
def createPt (m : Memory) (pd0 : Pd0) (la : ℕ) : Bool × Memory × Pd0 :=
  match pd0.entry (PDX0 la) with
  | some _ => (true, m, pd0)
  | none =>
    match m.allocTable with
    | (none, m) => (false, m, pd0)
    | (some frame, m) => (true, m, pd0.set (PDX0 la) (some (Table.clear frame 0)))

/-- `get_pte` with `create`: whether there is an entry now. -/
def createPte (m : Memory) (pgdir : Pgdir) (la : ℕ) : Bool × Memory × Pgdir :=
  match pgdir.entry (PDX1 la) with
  | some pd0 =>
    let (found, m, pd0) := createPt m pd0 la
    (found, m, pgdir.set (PDX1 la) (some pd0))
  | none =>
    match m.allocTable with
    | (none, m) => (false, m, pgdir)
    | (some frame, m) =>
      let (found, m, pd0) := createPt m (Table.clear frame none) la
      (found, m, pgdir.set (PDX1 la) (some pd0))

/-! ## Mapping and unmapping -/

/-- `page_remove_pte`, given what the entry holds. -/
def pageRemovePte (m : Memory) (pgdir : Pgdir) (la pte : ℕ) : Memory × Pgdir :=
  if Present pte then
    (m.drop (pte2page pte), pgdir.setPte la 0)
  else (m, pgdir)

/-- `page_remove`. -/
def pageRemove (m : Memory) (pgdir : Pgdir) (la : ℕ) : Memory × Pgdir :=
  match pgdir.getPte la with
  | none => (m, pgdir)
  | some pte => pageRemovePte m pgdir la pte

/-- `page_insert`: whether the page is mapped. -/
def pageInsert (m : Memory) (pgdir : Pgdir) (page : Frame) (la perm : ℕ) : Bool × Memory × Pgdir :=
  let (found, m, pgdir) := createPte m pgdir la
  if found then
    let pte := (pgdir.getPte la).getD 0
    let m := m.setRef page (m.ref page + 1)
    let (m, pgdir) :=
      if Present pte then
        if pte2page pte = page then (m.setRef page (m.ref page - 1), pgdir)
        else pageRemovePte m pgdir la pte
      else (m, pgdir)
    (true, m, pgdir.setPte la (pteCreate page (PTE_V ||| perm)))
  else (false, m, pgdir)

/-- `_fifo_map_swappable`, for an address space whose `sm_priv` is set or not. -/
def Memory.mapSwappable (m : Memory) (smPriv : Bool) (page : Frame) : Outcome Memory := do
  Outcome.require smPriv
  return { m with queue := m.queue ++ [page] }

/-- The end of `pgdir_alloc_page`: the page can be swapped out of the address space that is there
for a check, if there is one. -/
def Memory.checkSwappable (m : Memory) (page : Frame) (la : ℕ) : Outcome Memory :=
  if m.swapInitOk then
    match m.checkMm with
    | some smPriv => do
      let m ← m.mapSwappable smPriv page
      Outcome.require (m.ref page = 1)
      return { m with praVaddr := Function.update m.praVaddr page la }
    | none => .ok m
  else .ok m

/-- `pgdir_alloc_page`. -/
def pgdirAllocPage (m : Memory) (pgdir : Pgdir) (la perm : ℕ) :
    Outcome (Option Frame × Memory × Pgdir) :=
  match m.allocPage with
  | (none, m) => .ok (none, m, pgdir)
  | (some page, m) =>
    match pageInsert m pgdir page la perm with
    | (false, m, pgdir) => .ok (none, m.freePage page, pgdir)
    | (true, m, pgdir) => do
      let m ← m.checkSwappable page la
      return (some page, m, pgdir)

/-- The loop of `unmap_range`. -/
def unmapLoop : ℕ → Memory → Pgdir → ℕ → ℕ → Outcome (Memory × Pgdir)
  | 0, _, _, _, _ => .error .fuel
  | fuel + 1, m, pgdir, start, stop =>
    let (m, pgdir, start) :=
      match pgdir.getPte start with
      | none => (m, pgdir, roundDown (start + PTSIZE) PTSIZE)
      | some pte =>
        if pte ≠ 0 then
          let (m, pgdir) := pageRemovePte m pgdir start pte
          (m, pgdir, start + PGSIZE)
        else (m, pgdir, start + PGSIZE)
    if start ≠ 0 ∧ start < stop then unmapLoop fuel m pgdir start stop else .ok (m, pgdir)

/-- `unmap_range`. -/
def unmapRange (fuel : ℕ) (m : Memory) (pgdir : Pgdir) (start stop : ℕ) :
    Outcome (Memory × Pgdir) := do
  Outcome.require (start % PGSIZE = 0 ∧ stop % PGSIZE = 0)
  Outcome.require (UserAccess start stop)
  unmapLoop fuel m pgdir start stop

end Ucore.Mm
