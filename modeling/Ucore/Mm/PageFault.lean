import Ucore.Mm.PageTableFrames
import Ucore.Mm.Swap

/-!
# Page faults

`do_pgfault` of `kern/mm/vmm.c` with the functions of `kern/mm/pmm.c` that it maps a page with. Any
page that these allocate may cost the address space another page, so that they run on the state
around the swap manager. The physical memory is a list of frames here: a page fault asks for one
page at a time.
-/

namespace Ucore.Mm

open Library

/-- The free frames in the order in which they are handed out, and the reference counts. -/
structure FramePool where
  free : List Frame
  ref : Frame → ℤ

/-- The manager of such a pool, which has no runs of several pages. -/
def framePoolManager : PmmManager FramePool where
  allocPages pool n :=
    match pool.free, n with
    | frame :: free, 1 => .ok (some frame, { pool with free })
    | _, _ => .ok (none, pool)
  freePages pool base _ :=
    .ok { free := base :: pool.free, ref := Function.update pool.ref base 0 }

abbrev FaultState := Swap FramePool

def Swap.setRef (s : FaultState) (frame : Frame) (value : ℤ) : FaultState :=
  { s with pmm := { s.pmm with ref := Function.update s.pmm.ref frame value } }

def Swap.setPgdir (s : FaultState) (pgdir : Pgdir) : FaultState :=
  { s with mm := { s.mm with pgdir } }

def Swap.freePage (s : FaultState) (page : Frame) : FaultState :=
  { s with pmm := { free := page :: s.pmm.free, ref := Function.update s.pmm.ref page 0 } }

/-! ## Finding an entry -/

/-- A new table of the middle level. -/
def Table.attachPd0 (la : ℕ) (pgdir : Pgdir) (frame : Frame) : Pgdir :=
  pgdir.set (PDX1 la) (some (Table.clear frame none))

/-- A new table of the last level. -/
def Table.attachPt (la : ℕ) (pgdir : Pgdir) (frame : Frame) : Pgdir :=
  match pgdir.entry (PDX1 la) with
  | none => pgdir
  | some pd0 => pgdir.set (PDX1 la) (some (pd0.set (PDX0 la) (some (Table.clear frame 0))))

/-- One level of `get_pte` with `create`: the table is there, or a page becomes the table. -/
def Swap.createLevel (sm : SwapManager) (fuel : ℕ) (s : FaultState) (present : Bool)
    (attach : Pgdir → Frame → Pgdir) : Outcome (Bool × FaultState) :=
  if present then .ok (true, s)
  else do
    match ← Swap.allocPages framePoolManager sm 1 fuel s with
    | (none, s) => return (false, s)
    | (some frame, s) => return (true, (s.setRef frame 1).setPgdir (attach s.mm.pgdir frame))

/-- `get_pte` with `create`: whether there is an entry now. -/
def Swap.createPte (sm : SwapManager) (fuel : ℕ) (s : FaultState) (la : ℕ) :
    Outcome (Bool × FaultState) := do
  match ← s.createLevel sm fuel (s.mm.pgdir.entry (PDX1 la)).isSome (Table.attachPd0 la) with
  | (false, s) => return (false, s)
  | (true, s) => s.createLevel sm fuel (s.mm.pgdir.getPte la).isSome (Table.attachPt la)

/-! ## Mapping a page -/

/-- `page_remove_pte`, given what the entry holds. -/
def Swap.pageRemovePte (s : FaultState) (la pte : ℕ) : FaultState :=
  if Present pte then
    let page := pte2page pte
    let s := s.setRef page (s.pmm.ref page - 1)
    let s := if s.pmm.ref page = 0 then s.freePage page else s
    s.setPgdir (s.mm.pgdir.setPte la 0)
  else s

/-- `page_insert`: whether the page is mapped. -/
def Swap.pageInsert (sm : SwapManager) (fuel : ℕ) (s : FaultState) (page : Frame) (la perm : ℕ) :
    Outcome (Bool × FaultState) := do
  match ← s.createPte sm fuel la with
  | (false, s) => return (false, s)
  | (true, s) =>
    let pte := s.mm.pgdir.pte la
    let s := s.setRef page (s.pmm.ref page + 1)
    let s :=
      if Present pte then
        if pte2page pte = page then s.setRef page (s.pmm.ref page - 1)
        else s.pageRemovePte la pte
      else s
    return (true, s.setPgdir (s.mm.pgdir.setPte la (pteCreate page (PTE_V ||| perm))))

/-- The end of `pgdir_alloc_page`: the page can be swapped out of `check_mm_struct`. -/
def Swap.checkSwappable (s : FaultState) (page : Frame) (la : ℕ) : Outcome FaultState :=
  if s.swapInitOk ∧ s.checkMm then do
    let s ← s.mapSwappable page
    let s := { s with praVaddr := Function.update s.praVaddr page la }
    Outcome.require (s.pmm.ref page = 1)
    return s
  else .ok s

/-- `pgdir_alloc_page`, which tells whether there is a page. -/
def Swap.pgdirAllocPage (sm : SwapManager) (fuel : ℕ) (s : FaultState) (la perm : ℕ) :
    Outcome (Option Frame × FaultState) := do
  match ← Swap.allocPages framePoolManager sm 1 fuel s with
  | (none, s) => return (none, s)
  | (some page, s) =>
    match ← s.pageInsert sm fuel page la perm with
    | (false, s) => return (none, s.freePage page)
    | (true, s) => do
      let s ← s.checkSwappable page la
      return (some page, s)

/-! ## The handler -/

/-- The permissions of a page in an area. -/
def faultPerm (vmFlags : ℕ) : ℕ :=
  if vmFlags &&& VM_WRITE ≠ 0 then PTE_U ||| READ_WRITE else PTE_U

/-- The part of `do_pgfault` for an entry that is not zero, which is taken for a swap entry. -/
def Swap.faultSwapIn (sm : SwapManager) (fuel : ℕ) (s : FaultState) (la perm : ℕ) :
    Outcome FaultState := do
  let (page, s) ← s.swapIn framePoolManager sm fuel la
  let (_, s) ← s.pageInsert sm fuel page la perm
  let s ← s.mapSwappable page
  return { s with praVaddr := Function.update s.praVaddr page la }

/-- `do_pgfault`, once the area is found. -/
def Swap.faultIn (sm : SwapManager) (fuel : ℕ) (s : FaultState) (vma : Vma) (la : ℕ) :
    Outcome (ℤ × FaultState) := do
  match ← s.createPte sm fuel la with
  | (false, s) => return (-E_NO_MEM, s)
  | (true, s) =>
    if s.mm.pgdir.pte la = 0 then
      match ← s.pgdirAllocPage sm fuel la (faultPerm vma.vmFlags) with
      | (none, s) => return (-E_NO_MEM, s)
      | (some _, s) => return (0, s)
    else if s.swapInitOk then do
      let s ← s.faultSwapIn sm fuel la (faultPerm vma.vmFlags)
      return (0, s)
    else return (-E_NO_MEM, s)

/-- `do_pgfault`. The error code is not looked at. -/
def doPgfault (sm : SwapManager) (fuel : ℕ) (s : FaultState) (_errorCode addr : ℕ) :
    Outcome (ℤ × FaultState) :=
  let (vma, mm) := s.mm.findVma addr
  let s := { s with mm }
  match vma with
  | none => .ok (-E_INVAL, s)
  | some vma =>
    if addr < vma.vmStart then .ok (-E_INVAL, s)
    else s.faultIn sm fuel vma (roundDown addr PGSIZE)

/-! ## Pages for the handler -/

variable {sm : SwapManager} {fuel : ℕ} {s s' : FaultState} {found : Option Frame}

/-- The pool after a page of it was taken. -/
def Swap.setFree (s : FaultState) (free : List Frame) : FaultState :=
  { s with pmm := { s.pmm with free } }

/-- What one page costs: the first free one, nothing when there is none and no swapping, or a
victim. -/
inductive PageAllocated (sm : SwapManager) (s : FaultState) : Option Frame → FaultState → Prop
  | head {frame : Frame} {rest : List Frame} (hfree : s.pmm.free = frame :: rest) :
      PageAllocated sm s (some frame) (s.setFree rest)
  | null (hfree : s.pmm.free = []) (hswap : s.swapInitOk = false) : PageAllocated sm s none s
  | victim {page : Frame} {rest : List Frame} (hfree : s.pmm.free = [])
      (hswap : s.swapInitOk = true) (hcheckMm : s.checkMm = true)
      (hvictim : sm.swapOutVictim s.praListHead = .ok (some (page, rest)))
      (hevictable : s.Evictable page) :
      PageAllocated sm s (some page) (Swap.evicted { s with praListHead := rest } page
        ⟨[], Function.update s.pmm.ref page 0⟩)

theorem framePool_cons {pool : FramePool} {frame : Frame} {rest : List Frame}
    (hfree : pool.free = frame :: rest) :
    framePoolManager.allocPages pool 1 = .ok (some frame, { pool with free := rest }) := by
  simp only [framePoolManager, hfree]

theorem framePool_nil {pool : FramePool} (hfree : pool.free = []) :
    framePoolManager.allocPages pool 1 = .ok (none, pool) := by
  simp only [framePoolManager, hfree]

theorem allocPages_ok (h : Swap.allocPages framePoolManager sm 1 fuel s = .ok (found, s')) :
    PageAllocated sm s found s' := by
  induction fuel generalizing s with
  | zero => cases h
  | succ fuel ih =>
    cases hfree : s.pmm.free with
    | cons frame rest =>
      rw [allocPages_stop (framePool_cons hfree) (Or.inl rfl)] at h
      cases h
      exact .head hfree
    | nil =>
      cases hswap : s.swapInitOk with
      | false =>
        rw [allocPages_stop (framePool_nil hfree) (Or.inr (Or.inr hswap))] at h
        cases h
        exact .null hfree hswap
      | true =>
        rw [allocPages_retry (framePool_nil hfree) hswap] at h
        rcases Outcome.bind_eq_ok.mp h with ⟨⟨count, middle⟩, hswapOut, hround⟩
        have hnext : Swap.allocPages framePoolManager sm 1 fuel middle = .ok (found, s') := hround
        rcases swapOut_one_ok hswapOut
          with ⟨hcheckMm, -, ⟨-, rfl⟩ | ⟨page, rest, hvictim, hevict⟩⟩
        · exact ih hnext
        · rcases evict_ok_iff.mp hevict with ⟨hevictable, pmm, hfreed, rfl⟩
          cases hfreed
          -- the next round takes the page of the victim
          rw [hfree] at hnext
          cases fuel with
          | zero => cases hnext
          | succ fuel =>
            have hcons : (Swap.evicted { s with praListHead := rest } page
                ⟨[page], Function.update s.pmm.ref page 0⟩).pmm.free = [page] := rfl
            rw [allocPages_stop (framePool_cons hcons) (Or.inl rfl)] at hnext
            cases hnext
            exact .victim hfree hswap hcheckMm hvictim ⟨hevictable.present, hevictable.slot⟩

/-! ## New tables -/

section Tables

variable {pgdir : Pgdir} {la lb value : ℕ} {frame : Frame}

/-- Tables have been added. No entry of the last level has changed. -/
structure Extends (pgdir pgdir' : Pgdir) : Prop where
  getPte : ∀ la value, pgdir.getPte la = some value → pgdir'.getPte la = some value
  pte : ∀ la, pgdir'.pte la = pgdir.pte la

/-- A memory with one free frame, which becomes the table. -/
def oneFree (frame : Frame) : Memory := ⟨[frame], fun _ ↦ 0, fun _ _ ↦ 0, false, [], fun _ ↦ 0, none⟩

theorem extends_attachPd0 (hnone : pgdir.entry (PDX1 la) = none) :
    Extends pgdir (Table.attachPd0 la pgdir frame) := by
  have hgrown := grown_attachPd0 (m := oneFree frame) rfl hnone
  exact ⟨hgrown.getPte, hgrown.pte⟩

theorem extends_attachPt (hnone : pgdir.getPte la = none) :
    Extends pgdir (Table.attachPt la pgdir frame) := by
  unfold Table.attachPt
  split
  · exact ⟨fun _ _ h ↦ h, fun _ ↦ rfl⟩
  · rename_i pd0 hpd0
    have hpt : pd0.entry (PDX0 la) = none := by
      cases hpt : pd0.entry (PDX0 la) with
      | none => rfl
      | some pt =>
        rw [getPte_eq hpd0 hpt] at hnone
        cases hnone
    have hgrown := grown_attachPt (m := oneFree frame) rfl hpd0 hpt
    exact ⟨hgrown.getPte, hgrown.pte⟩

theorem getPte_attachPd0 : (Table.attachPd0 la pgdir frame).getPte la = none :=
  getPte_of_pt (set_self ..) rfl

theorem entry_attachPd0 : ((Table.attachPd0 la pgdir frame).entry (PDX1 la)).isSome := by
  rw [Table.attachPd0, set_self]
  rfl

theorem getPte_attachPt (hpd0 : (pgdir.entry (PDX1 la)).isSome) :
    ((Table.attachPt la pgdir frame).getPte la).isSome := by
  rcases Option.isSome_iff_exists.mp hpd0 with ⟨pd0, hpd0⟩
  rw [Table.attachPt, hpd0]
  dsimp only
  rw [getPte_eq (set_self ..) (set_self ..)]
  rfl

/-- The middle level is there when the last one is. -/
theorem entry_of_getPte (h : (pgdir.getPte la).isSome) : (pgdir.entry (PDX1 la)).isSome := by
  rcases Option.isSome_iff_exists.mp h with ⟨value, hvalue⟩
  rcases getPte_eq_some.mp hvalue with ⟨pd0, pt, hpd0, -⟩
  rw [hpd0]
  rfl

theorem roundDown_shiftRight {k : ℕ} (hk : 12 ≤ k) (addr : ℕ) :
    roundDown addr PGSIZE >>> k = addr >>> k := by
  rcases Nat.exists_eq_add_of_le hk with ⟨more, rfl⟩
  have hpage : roundDown addr PGSIZE / 2 ^ 12 = addr / 2 ^ 12 := by
    unfold roundDown PGSIZE
    omega
  rw [Nat.shiftRight_eq_div_pow, Nat.shiftRight_eq_div_pow, pow_add, ← Nat.div_div_eq_div_mul,
    ← Nat.div_div_eq_div_mul, hpage]

theorem samePlace_roundDown (addr : ℕ) : SamePlace (roundDown addr PGSIZE) addr := by
  unfold SamePlace PDX1 PDX0 PTX
  rw [roundDown_shiftRight (by decide), roundDown_shiftRight (by decide),
    roundDown_shiftRight (by decide)]
  exact ⟨rfl, rfl, rfl⟩

end Tables

end Ucore.Mm
