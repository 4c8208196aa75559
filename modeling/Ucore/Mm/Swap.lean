import Ucore.Mm.Vma

/-!
# Swapping

`alloc_pages` of `kern/mm/pmm.c`, which makes room by swapping pages out, with `swap_out` and
`swap_in` of `kern/mm/swap.c` and the swap manager of `kern/mm/swap_fifo.c`. The manager of the
physical memory is a parameter, as in the source, and so is the one that chooses the victims.
-/

namespace Ucore.Mm

open Library

/-- `struct pmm_manager`, as far as pages are handed out and taken back through it. -/
structure PmmManager (Pmm : Type) where
  allocPages : Pmm → ℕ → Outcome (Option Frame × Pmm)
  freePages : Pmm → Frame → ℕ → Outcome Pmm

/-- `swap_out_victim` of a `struct swap_manager`: the page and the rest of the queue, or no page
when the call fails. -/
structure SwapManager where
  swapOutVictim : List Frame → Outcome (Option (Frame × List Frame))

/-- `swap_manager_fifo`. The page at the head of an empty queue would be the header of the queue,
which is no page. -/
def swapManagerFifo : SwapManager where
  swapOutVictim queue :=
    match queue with
    | [] => .error .panic
    | page :: rest => .ok (some (page, rest))

/-- The state around the swap manager: the physical memory, what the frames and the slots of the
swap device hold, the entries that were taken for places on the device so far, the queue of pages
with the field `pra_vaddr` of each page, and the address space that `check_mm_struct` leads to,
unless it is `NULL`. -/
structure Swap (Pmm : Type) where
  pmm : Pmm
  bytes : Frame → ℕ → UInt8
  swapInitOk : Bool
  maxSwapOffset : ℕ
  slot : ℕ → ℕ → UInt8
  reads : List ℕ
  praListHead : List Frame
  praVaddr : Frame → ℕ
  mm : MmStruct
  checkMm : Bool

variable {Pmm : Type}

/-- `swap_offset`, which stops at an entry that leads to no slot. -/
def Swap.swapOffset (s : Swap Pmm) (entry : ℕ) : Outcome ℕ := do
  Outcome.require (0 < entry >>> 8 ∧ entry >>> 8 < s.maxSwapOffset)
  return entry >>> 8

/-- `swapfs_write`. The device is in memory, and writing to one of its slots does not fail. -/
def Swap.swapfsWrite (s : Swap Pmm) (entry : ℕ) (page : Frame) : Outcome (Swap Pmm) := do
  let offset ← s.swapOffset entry
  return { s with slot := Function.update s.slot offset (s.bytes page) }

/-- `swapfs_read`. -/
def Swap.swapfsRead (s : Swap Pmm) (entry : ℕ) (page : Frame) : Outcome (Swap Pmm) := do
  let offset ← s.swapOffset entry
  return { s with
    bytes := Function.update s.bytes page (s.slot offset)
    reads := s.reads ++ [entry] }

/-- The swap entry that takes the place of the entry for an address. -/
def swapEntry (vaddr : ℕ) : ℕ := (vaddr / PGSIZE + 1) <<< 8

/-- `_fifo_map_swappable`. -/
def Swap.mapSwappable (s : Swap Pmm) (page : Frame) : Outcome (Swap Pmm) := do
  Outcome.require s.mm.smPriv
  return { s with praListHead := s.praListHead ++ [page] }

/-- The steps of `swap_out` once it has the victim. -/
def Swap.evict (manager : PmmManager Pmm) (s : Swap Pmm) (page : Frame) : Outcome (Swap Pmm) := do
  let vaddr := s.praVaddr page
  -- without a page table there is no entry to read
  Outcome.require (∃ pte ∈ s.mm.pgdir.getPte vaddr, Present pte)
  let s ← s.swapfsWrite (swapEntry vaddr) page
  let s := { s with mm := { s.mm with pgdir := s.mm.pgdir.setPte vaddr (swapEntry vaddr) } }
  let pmm ← manager.freePages s.pmm page 1
  return { s with pmm }

/-- `swap_out`, outside of a clock tick: how many pages were swapped out. -/
def Swap.swapOut (manager : PmmManager Pmm) (sm : SwapManager) (s : Swap Pmm) (mm : Bool) :
    ℕ → Outcome (ℕ × Swap Pmm)
  | 0 => .ok (0, s)
  | n + 1 => do
    Outcome.require (mm ∧ s.mm.smPriv)
    match ← sm.swapOutVictim s.praListHead with
    | none => return (0, s)
    | some (page, rest) =>
      let s ← Swap.evict manager { s with praListHead := rest } page
      let (count, s) ← Swap.swapOut manager sm s mm n
      return (count + 1, s)

/-- `alloc_pages`. -/
def Swap.allocPages (manager : PmmManager Pmm) (sm : SwapManager) (n : ℕ) :
    ℕ → Swap Pmm → Outcome (Option Frame × Swap Pmm)
  | 0, _ => .error .fuel
  | fuel + 1, s => do
    let (page, pmm) ← manager.allocPages s.pmm n
    let s := { s with pmm }
    if page.isSome ∨ 1 < n ∨ !s.swapInitOk then return (page, s)
    let (_, s) ← s.swapOut manager sm s.checkMm n
    Swap.allocPages manager sm n fuel s

/-- `swap_in`: the page that holds what the slot of the entry for the address held. -/
def Swap.swapIn (manager : PmmManager Pmm) (sm : SwapManager) (fuel : ℕ) (s : Swap Pmm)
    (addr : ℕ) : Outcome (Frame × Swap Pmm) := do
  match ← Swap.allocPages manager sm 1 fuel s with
  | (none, _) => .error .panic
  | (some result, s) =>
    match s.mm.pgdir.getPte addr with
    | none => .error .panic
    | some pte => do
      let s ← s.swapfsRead pte result
      return (result, s)

variable {manager : PmmManager Pmm} {sm : SwapManager} {s s' : Swap Pmm} {pmm : Pmm} {mm : Bool}
  {found : Option Frame} {page : Frame} {n count : ℕ}

/-! ## One victim -/

theorem swapEntry_shiftRight (vaddr : ℕ) : swapEntry vaddr >>> 8 = vaddr / PGSIZE + 1 := by
  rw [swapEntry, Nat.shiftLeft_shiftRight]

/-- The state after a page has gone to its slot and its frame to `pmm`. -/
def Swap.evicted (s : Swap Pmm) (page : Frame) (pmm : Pmm) : Swap Pmm :=
  { s with
    pmm
    slot := Function.update s.slot (s.praVaddr page / PGSIZE + 1) (s.bytes page)
    mm := { s.mm with
      pgdir := s.mm.pgdir.setPte (s.praVaddr page) (swapEntry (s.praVaddr page)) } }

/-- The page can go: there is a present entry for it, and a slot. -/
structure Swap.Evictable (s : Swap Pmm) (page : Frame) : Prop where
  present : ∃ pte ∈ s.mm.pgdir.getPte (s.praVaddr page), Present pte
  slot : s.praVaddr page / PGSIZE + 1 < s.maxSwapOffset

theorem evict_ok_iff : s.evict manager page = .ok s' ↔
    s.Evictable page ∧ ∃ pmm, manager.freePages s.pmm page 1 = .ok pmm ∧ s' = s.evicted page pmm := by
  unfold Swap.evict Swap.swapfsWrite Swap.swapOffset
  simp only [swapEntry_shiftRight, Outcome.bind_eq_ok, Outcome.require_eq_ok, Outcome.pure_eq_ok,
    Except.ok.injEq]
  constructor
  · rintro ⟨-, hpresent, -, ⟨-, ⟨-, hslot, rfl⟩, rfl⟩, pmm, hfree, rfl⟩
    exact ⟨⟨hpresent, hslot.2⟩, pmm, hfree, rfl⟩
  · rintro ⟨h, pmm, hfree, rfl⟩
    exact ⟨(), h.present, _, ⟨_, ⟨(), ⟨Nat.succ_pos _, h.slot⟩, rfl⟩, rfl⟩, pmm, hfree, rfl⟩

/-- `swap_out` of one page. Nothing happens when the swap manager finds no victim. -/
theorem swapOut_one_ok (h : s.swapOut manager sm mm 1 = .ok (count, s')) :
    mm ∧ s.mm.smPriv ∧ (sm.swapOutVictim s.praListHead = .ok none ∧ s' = s ∨
      ∃ page rest, sm.swapOutVictim s.praListHead = .ok (some (page, rest)) ∧
        Swap.evict manager { s with praListHead := rest } page = .ok s') := by
  rw [Swap.swapOut] at h
  rcases Outcome.bind_eq_ok.mp h with ⟨_, hmm, h⟩
  rcases Outcome.require_eq_ok.mp hmm with ⟨hmm, hpriv⟩
  rcases Outcome.bind_eq_ok.mp h with ⟨victim, hvictim, h⟩
  refine ⟨hmm, hpriv, ?_⟩
  cases victim with
  | none =>
    cases h
    exact Or.inl ⟨hvictim, rfl⟩
  | some victim =>
    rcases victim with ⟨page, rest⟩
    rcases Outcome.bind_eq_ok.mp h with ⟨after, hevict, h⟩
    cases h
    exact Or.inr ⟨page, rest, hvictim, hevict⟩

/-- A round that ends the loop of `alloc_pages`. -/
theorem allocPages_stop (halloc : manager.allocPages s.pmm n = .ok (found, pmm))
    (hstop : found.isSome ∨ 1 < n ∨ s.swapInitOk = false) (fuel : ℕ) :
    Swap.allocPages manager sm n (fuel + 1) s = .ok (found, { s with pmm }) := by
  rw [Swap.allocPages, halloc, Outcome.ok_bind]
  exact if_pos (by simpa using hstop)

/-- A round that looks for a victim. -/
theorem allocPages_retry (halloc : manager.allocPages s.pmm 1 = .ok (none, s.pmm))
    (hswap : s.swapInitOk = true) (fuel : ℕ) :
    Swap.allocPages manager sm 1 (fuel + 1) s = (do
      let (_, s) ← s.swapOut manager sm s.checkMm 1
      Swap.allocPages manager sm 1 fuel s) := by
  rw [Swap.allocPages, halloc, Outcome.ok_bind]
  exact if_neg (by simp [hswap])

end Ucore.Mm
