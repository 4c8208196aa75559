import Ucore.Libs.Defs
import Ucore.Mm.PageTable
import Mathlib.Data.List.Pairwise

/-!
# Areas of an address space

The list of areas in `kern/mm/vmm.c`: a `vma_struct` goes by its value, and `mmap_list` is the list
of these in the order of their addresses. Every function that adds an area keeps the list sorted
and the areas apart, which the assertions in it check.
-/

namespace Ucore.Mm

open Library

def E_INVAL : ℤ := 3
def E_NO_MEM : ℤ := 4

def VM_READ : ℕ := 0x1
def VM_WRITE : ℕ := 0x2
def VM_EXEC : ℕ := 0x4
def VM_STACK : ℕ := 0x8

/-- `struct vma_struct`. -/
structure Vma where
  vmStart : ℕ
  vmEnd : ℕ
  vmFlags : ℕ
  deriving DecidableEq, Repr

/-- The area contains the address. -/
def Vma.Contains (vma : Vma) (addr : ℕ) : Prop := vma.vmStart ≤ addr ∧ addr < vma.vmEnd

instance (vma : Vma) (addr : ℕ) : Decidable (vma.Contains addr) :=
  inferInstanceAs (Decidable (_ ∧ _))

/-- `struct mm_struct`. The field `sm_priv` either leads to the queue of the swap manager or is
`NULL`. -/
structure MmStruct where
  mmapList : List Vma
  mmapCache : Option Vma
  pgdir : Pgdir
  mapCount : ℕ
  smPriv : Bool

/-- The search of `find_vma` through the list. -/
def MmStruct.search (mm : MmStruct) (addr : ℕ) : Option Vma × MmStruct :=
  match mm.mmapList.find? fun vma ↦ vma.Contains addr with
  | some vma => (some vma, { mm with mmapCache := some vma })
  | none => (none, mm)

/-- `find_vma`. The area that was found stays in `mmap_cache`. -/
def MmStruct.findVma (mm : MmStruct) (addr : ℕ) : Option Vma × MmStruct :=
  match mm.mmapCache with
  | some vma => if vma.Contains addr then (some vma, mm) else mm.search addr
  | none => mm.search addr

/-- `check_vma_overlap`. -/
def checkVmaOverlap (prev next : Vma) : Outcome Unit := do
  Outcome.require (prev.vmStart < prev.vmEnd)
  Outcome.require (prev.vmEnd ≤ next.vmStart)
  Outcome.require (next.vmStart < next.vmEnd)

/-- The areas before the place of a new one in `insert_vma_struct`, and those after it. -/
def MmStruct.place (mm : MmStruct) (vma : Vma) : List Vma × List Vma :=
  mm.mmapList.span fun prev ↦ prev.vmStart ≤ vma.vmStart

/-- `insert_vma_struct`. -/
def MmStruct.insertVmaStruct (mm : MmStruct) (vma : Vma) : Outcome MmStruct := do
  Outcome.require (vma.vmStart < vma.vmEnd)
  let (before, after) := mm.place vma
  before.getLast?.elim (.ok ()) fun prev ↦ checkVmaOverlap prev vma
  after.head?.elim (.ok ()) fun next ↦ checkVmaOverlap vma next
  return { mm with mmapList := before ++ vma :: after, mapCount := mm.mapCount + 1 }

/-- `mm_map`, given whether there is memory for a new area. -/
def MmStruct.mmMap (mm : MmStruct) (kmalloc : Bool) (addr len vmFlags : ℕ) :
    Outcome (ℤ × MmStruct) :=
  let start := roundDown addr PGSIZE
  let stop := roundDown (uint64 (uint64 (addr + len) + PGSIZE - 1)) PGSIZE
  if UserAccess start stop then
    let (vma, mm) := mm.findVma start
    if ∃ found ∈ vma, found.vmStart < stop then .ok (-E_INVAL, mm)
    else if kmalloc then do
      let mm ← mm.insertVmaStruct ⟨start, stop, vmFlags⟩
      return (0, mm)
    else .ok (-E_NO_MEM, mm)
  else .ok (-E_INVAL, mm)

/-- `setup_pgdir`: the new root, if there is a frame for it. What it copies from `boot_pgdir` is the
kernel half, which has no tables and which no function here reads. -/
def setupPgdir (m : Memory) : Option Pgdir × Memory :=
  match m.allocPage with
  | (none, m) => (none, m)
  | (some frame, m) => (some (Table.clear frame none), m)

/-- `mm_create`, given the root that `setup_pgdir` sets afterwards. -/
def mmCreate (swapInitOk : Bool) (pgdir : Pgdir) : MmStruct := ⟨[], none, pgdir, 0, swapInitOk⟩

/-! ## Well-formed lists of areas -/

/-- What `mm_map` promises of an area: whole pages of the user half. -/
structure Vma.Whole (vma : Vma) : Prop where
  access : UserAccess vma.vmStart vma.vmEnd
  start : vma.vmStart % PGSIZE = 0
  stop : vma.vmEnd % PGSIZE = 0

/-- The areas are whole pages, sorted and apart, and the cache leads to one of them. -/
structure MmStruct.WellFormed (mm : MmStruct) : Prop where
  whole : ∀ vma ∈ mm.mmapList, vma.Whole
  sorted : mm.mmapList.Pairwise fun first second ↦ first.vmEnd ≤ second.vmStart
  cached : ∀ vma ∈ mm.mmapCache, vma ∈ mm.mmapList

variable {mm mm' : MmStruct} {vma other : Vma} {addr : ℕ}

theorem MmStruct.WellFormed.apart (h : mm.WellFormed) (hvma : vma ∈ mm.mmapList)
    (hother : other ∈ mm.mmapList) (hne : vma ≠ other) :
    vma.vmEnd ≤ other.vmStart ∨ other.vmEnd ≤ vma.vmStart := by
  have hsymm : Std.Symm fun first second : Vma ↦
      first.vmEnd ≤ second.vmStart ∨ second.vmEnd ≤ first.vmStart := ⟨fun _ _ ↦ Or.symm⟩
  have hpairs := h.sorted.imp (S := fun first second : Vma ↦
    first.vmEnd ≤ second.vmStart ∨ second.vmEnd ≤ first.vmStart) Or.inl
  exact hpairs.forall hvma hother hne

/-- At most one area contains an address. -/
theorem MmStruct.WellFormed.unique (h : mm.WellFormed) (hvma : vma ∈ mm.mmapList)
    (hother : other ∈ mm.mmapList) (hcontains : vma.Contains addr)
    (hagain : other.Contains addr) : vma = other := by
  by_contra hne
  rcases h.apart hvma hother hne with hle | hle
  · exact absurd (hcontains.2.trans_le hle) (not_lt.mpr hagain.1)
  · exact absurd (hagain.2.trans_le hle) (not_lt.mpr hcontains.1)

/-! ## Finding an area -/

theorem findVma_cases (mm : MmStruct) (addr : ℕ) :
    (∃ vma, mm.mmapCache = some vma ∧ vma.Contains addr ∧ mm.findVma addr = (some vma, mm)) ∨
      (∀ vma, mm.mmapCache = some vma → ¬vma.Contains addr) ∧
        mm.findVma addr = mm.search addr := by
  cases hcache : mm.mmapCache with
  | none => exact Or.inr ⟨nofun, by rw [MmStruct.findVma, hcache]⟩
  | some cached =>
    by_cases hcontains : cached.Contains addr
    · refine Or.inl ⟨cached, rfl, hcontains, ?_⟩
      rw [MmStruct.findVma, hcache]
      exact if_pos hcontains
    · refine Or.inr ⟨fun vma hvma ↦ Option.some.inj hvma ▸ hcontains, ?_⟩
      rw [MmStruct.findVma, hcache]
      exact if_neg hcontains

theorem search_cases (mm : MmStruct) (addr : ℕ) :
    (∃ vma ∈ mm.mmapList, vma.Contains addr ∧
      mm.search addr = (some vma, { mm with mmapCache := some vma })) ∨
    (∀ vma ∈ mm.mmapList, ¬vma.Contains addr) ∧ mm.search addr = (none, mm) := by
  unfold MmStruct.search
  cases hfind : mm.mmapList.find? fun vma ↦ vma.Contains addr with
  | none =>
    exact Or.inr ⟨fun vma hvma hcontains ↦
      List.find?_eq_none.mp hfind vma hvma (decide_eq_true hcontains), rfl⟩
  | some vma =>
    have hcontains := List.find?_some hfind
    exact Or.inl ⟨vma, List.mem_of_find?_eq_some hfind, of_decide_eq_true hcontains, rfl⟩

/-- `find_vma` touches nothing but the cache. -/
theorem findVma_eq (mm : MmStruct) (addr : ℕ) :
    (mm.findVma addr).2 = { mm with mmapCache := (mm.findVma addr).2.mmapCache } := by
  rcases findVma_cases mm addr with ⟨vma, -, -, heq⟩ | ⟨-, heq⟩
  · rw [heq]
  · rcases search_cases mm addr with ⟨vma, -, -, hsearch⟩ | ⟨-, hsearch⟩ <;>
      rw [heq, hsearch]

theorem findVma_some (h : mm.WellFormed) (hfound : (mm.findVma addr).1 = some vma) :
    vma ∈ mm.mmapList ∧ vma.Contains addr ∧ (mm.findVma addr).2.mmapCache = some vma := by
  rcases findVma_cases mm addr with ⟨cached, hcache, hcontains, heq⟩ | ⟨-, heq⟩
  · rw [heq] at hfound ⊢
    cases hfound
    exact ⟨h.cached _ hcache, hcontains, hcache⟩
  · rcases search_cases mm addr with ⟨found, hmem, hcontains, hsearch⟩ | ⟨-, hsearch⟩
    · rw [heq, hsearch] at hfound ⊢
      cases hfound
      exact ⟨hmem, hcontains, rfl⟩
    · rw [heq, hsearch] at hfound
      cases hfound

theorem findVma_none (hfound : (mm.findVma addr).1 = none) :
    (mm.findVma addr).2 = mm ∧ ∀ vma ∈ mm.mmapList, ¬vma.Contains addr := by
  rcases findVma_cases mm addr with ⟨cached, -, -, heq⟩ | ⟨-, heq⟩
  · rw [heq] at hfound
    cases hfound
  · rcases search_cases mm addr with ⟨found, -, -, hsearch⟩ | ⟨hnone, hsearch⟩
    · rw [heq, hsearch] at hfound
      cases hfound
    · exact ⟨by rw [heq, hsearch], hnone⟩

theorem MmStruct.WellFormed.findVma (h : mm.WellFormed) (addr : ℕ) :
    (mm.findVma addr).2.WellFormed := by
  cases hfound : (mm.findVma addr).1 with
  | none =>
    rw [(findVma_none hfound).1]
    exact h
  | some vma =>
    rcases findVma_some h hfound with ⟨hmem, -, hcache⟩
    rw [findVma_eq, hcache]
    exact ⟨h.whole, h.sorted, fun other hother ↦ Option.some.inj hother ▸ hmem⟩

/-! ## Adding an area -/

theorem place_append (mm : MmStruct) (vma : Vma) :
    (mm.place vma).1 ++ (mm.place vma).2 = mm.mmapList := by
  rw [MmStruct.place, List.span_eq_takeWhile_dropWhile]
  exact List.takeWhile_append_dropWhile

theorem insertVmaStruct_ok (h : mm.insertVmaStruct vma = .ok mm') : mm' = { mm with
    mmapList := (mm.place vma).1 ++ vma :: (mm.place vma).2, mapCount := mm.mapCount + 1 } := by
  rcases Outcome.bind_eq_ok.mp h with ⟨_, -, h⟩
  rcases Outcome.bind_eq_ok.mp h with ⟨_, -, h⟩
  rcases Outcome.bind_eq_ok.mp h with ⟨_, -, h⟩
  cases h
  rfl

theorem mem_insertVmaStruct (h : mm.insertVmaStruct vma = .ok mm') :
    other ∈ mm'.mmapList ↔ other = vma ∨ other ∈ mm.mmapList := by
  have happend := place_append mm vma
  rw [insertVmaStruct_ok h]
  change other ∈ (mm.place vma).1 ++ vma :: (mm.place vma).2 ↔ _
  generalize mm.place vma = place at happend ⊢
  rw [← happend, List.mem_append, List.mem_append, List.mem_cons]
  exact or_left_comm

/-- The directory stays, and the area that is added, if one is, is whole pages of the user half. -/
theorem mmMap_ok {kmalloc : Bool} {len vmFlags : ℕ} {ret : ℤ}
    (h : mm.mmMap kmalloc addr len vmFlags = .ok (ret, mm')) : mm'.pgdir = mm.pgdir ∧
      (mm'.mmapList = mm.mmapList ∨ ∃ vma : Vma, vma.Whole ∧
        ∀ other, other ∈ mm'.mmapList ↔ other = vma ∨ other ∈ mm.mmapList) := by
  have haligned : ∀ a, roundDown a PGSIZE % PGSIZE = 0 :=
    fun a ↦ Nat.mod_eq_zero_of_dvd (Nat.dvd_sub_mod a)
  rw [MmStruct.mmMap] at h
  have hstart := haligned addr
  have hstop := haligned (uint64 (uint64 (addr + len) + PGSIZE - 1))
  generalize roundDown addr PGSIZE = start at h hstart
  generalize roundDown (uint64 (uint64 (addr + len) + PGSIZE - 1)) PGSIZE = stop at h hstop
  dsimp only at h
  split at h
  · rename_i haccess
    have hsame := findVma_eq mm start
    generalize mm.findVma start = result at h hsame
    rcases result with ⟨found, searched⟩
    dsimp only at h hsame
    rw [hsame] at h
    split at h
    · cases h
      exact ⟨rfl, Or.inl rfl⟩
    · split at h
      · rcases Outcome.bind_eq_ok.mp h with ⟨last, hinsert, h⟩
        cases h
        refine ⟨?_, Or.inr ⟨⟨start, stop, vmFlags⟩, ⟨haccess, hstart, hstop⟩, fun other ↦ ?_⟩⟩
        · rw [insertVmaStruct_ok hinsert]
        · have hmem : other ∈ mm'.mmapList ↔ other = _ ∨ other ∈ MmStruct.mmapList _ :=
            mem_insertVmaStruct hinsert
          exact hmem
      · cases h
        exact ⟨rfl, Or.inl rfl⟩
  · cases h
    exact ⟨rfl, Or.inl rfl⟩

end Ucore.Mm
