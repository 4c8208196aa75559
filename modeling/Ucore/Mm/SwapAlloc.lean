import Ucore.Mm.DefaultPmmRun
import Ucore.Mm.Swap

/-!
# Allocation with swapping

`alloc_pages` over the first-fit allocator. When there is no free page left and swapping is
initialised, a single page is only to be had from a victim, and the choice of the victim relies on
an address space and on a queue that it does not check. With a victim at hand, the loop of
`alloc_pages` goes round twice.
-/

namespace Ucore.Mm

open Library DefaultPmm

/-- `default_pmm_manager`. -/
def defaultPmmManager (fuel : ℕ) : PmmManager DefaultPmm.State where
  allocPages s n := defaultAllocPages fuel s n
  freePages s base n := defaultFreePages fuel s base n

def allocPages (s : Swap DefaultPmm.State) (n fuel : ℕ) :
    Outcome (Option Frame × Swap DefaultPmm.State) :=
  Swap.allocPages (defaultPmmManager fuel) swapManagerFifo n fuel s

variable {Pmm : Type} {manager : PmmManager Pmm} {sm : SwapManager} {s s' : Swap Pmm} {pmm : Pmm}
  {mm : Bool} {found : Option Frame} {page : Frame} {rest : List Frame} {n count : ℕ}

/-! ## One round -/

theorem swapOut_fifo_ok_iff : s.swapOut manager swapManagerFifo mm 1 = .ok (count, s') ↔
    count = 1 ∧ mm ∧ s.mm.smPriv ∧ ∃ page rest, s.praListHead = page :: rest ∧
      Swap.evict manager { s with praListHead := rest } page = .ok s' := by
  simp only [Swap.swapOut, swapManagerFifo, Outcome.bind_eq_ok, Outcome.require_eq_ok]
  cases hqueue : s.praListHead with
  | nil => simp
  | cons page rest =>
    simp only [Except.ok.injEq, exists_eq_left', Outcome.bind_eq_ok, Outcome.pure_eq_ok,
      Prod.mk.injEq, List.cons.injEq]
    constructor
    · rintro ⟨-, ⟨hmm, hpriv⟩, after, hevict, hcount, rfl⟩
      exact ⟨hcount.symm, hmm, hpriv, page, rest, ⟨rfl, rfl⟩, hevict⟩
    · rintro ⟨rfl, hmm, hpriv, _, _, ⟨rfl, rfl⟩, hevict⟩
      exact ⟨(), ⟨hmm, hpriv⟩, s', hevict, rfl, rfl⟩

/-! ## The whole call -/

section Call

variable {s after before : Swap DefaultPmm.State} {pmm pmm' : DefaultPmm.State} {lo total : ℕ}
  {blocks live : List Extent}

theorem returns_allocPages_stop
    (halloc : Returns (fun fuel ↦ defaultAllocPages fuel s.pmm n) (found, pmm))
    (hstop : found.isSome ∨ 1 < n ∨ s.swapInitOk = false) :
    Returns (allocPages s n) (found, { s with pmm }) := by
  rcases halloc with ⟨bound, hbound⟩
  refine ⟨bound + 1, fun fuel hfuel ↦ ?_⟩
  rcases fuel with _ | fuel
  · exact absurd hfuel (Nat.not_succ_le_zero _)
  · exact allocPages_stop (hbound _ (by omega)) hstop fuel

/-- The state that `swap_out` makes room in, before the pages are taken from it. -/
def MadeRoom (s : Swap DefaultPmm.State) (n : ℕ) (before : Swap DefaultPmm.State) : Prop :=
  before = s ∨ ∃ count, Returns
    (fun fuel ↦ s.swapOut (defaultPmmManager fuel) swapManagerFifo s.checkMm n) (count, before)

/-- The `n` pages from `page` on are free, and a free block starts there. -/
def FreeRun (lo total : ℕ) (s : Swap DefaultPmm.State) (page : Frame) (n : ℕ) : Prop :=
  ∃ blocks, Holds s.pmm lo total blocks [] ∧ ∃ block ∈ blocks, block.start = page ∧ n ≤ block.length

/-- The call comes back, with `NULL` or with a run of `n` free pages. -/
structure Answered (lo total : ℕ) (s : Swap DefaultPmm.State) (n : ℕ) (found : Option Frame)
    (after : Swap DefaultPmm.State) : Prop where
  returns : Returns (allocPages s n) (found, after)
  run : ∀ page, found = some page → ∃ before, MadeRoom s n before ∧ FreeRun lo total before page n

/-- The call comes back and is right. A victim from an empty queue, the header of the queue in
place of a page and an address space that is `NULL` all stop it. -/
def Answers (lo total : ℕ) (s : Swap DefaultPmm.State) (n : ℕ) : Prop :=
  ∃ found after, Answered lo total s n found after

/-- The first page in the queue of `check_mm_struct` can be swapped out. -/
structure HasVictim (lo total : ℕ) (s : Swap DefaultPmm.State) : Prop where
  checkMm : s.checkMm = true
  smPriv : s.mm.smPriv = true
  first : ∃ page ∈ s.praListHead.head?, s.Evictable page ∧ lo ≤ page ∧ page < lo + total

/-- When a call for `n` pages comes back. -/
def CanAnswer (lo total : ℕ) (s : Swap DefaultPmm.State) (n : ℕ) : Prop :=
  1 < n ∨ s.swapInitOk = false ∨ s.pmm.nrFree ≠ 0 ∨ HasVictim lo total s

theorem FreeRun.within (h : FreeRun lo total s page n) : lo ≤ page ∧ page < lo + total := by
  rcases h with ⟨blocks, hholds, block, hblock, rfl, -⟩
  have hin := List.mem_append_left [] hblock
  have hwithin := hholds.within block hin
  have hpositive := hholds.positive block hin
  exact ⟨hwithin.1, lt_of_lt_of_le (Nat.lt_add_of_pos_right hpositive) hwithin.2⟩

/-- The state of the allocator, without its allocations, that its calls keep. -/
def Kept (lo total : ℕ) (pmm : DefaultPmm.State) : Prop :=
  ∃ blocks, Holds pmm lo total blocks [] ∧ blocks.Pairwise Extent.Apart

theorem kept_takeBlock {left right : List Extent} {block : Extent}
    (h : Holds pmm lo total (left ++ block :: right) live)
    (hapart : (left ++ block :: right).Pairwise Extent.Apart) (hn : 0 < n)
    (hle : n ≤ block.length) : Kept lo total (takeBlock pmm block.start n) :=
  ⟨_, (holds_takeBlock h hn hle).forget, Extent.pairwise_apart_remainder hapart⟩

/-- When no page is free, swapping out a victim sets one free, and the second round takes it. -/
theorem returns_allocPages_victim (h : Holds s.pmm lo total [] [⟨page, 1⟩])
    (hswap : s.swapInitOk = true) (hcheckMm : s.checkMm = true) (hsmPriv : s.mm.smPriv = true)
    (hqueue : s.praListHead = page :: rest) (hevictable : s.Evictable page) :
    ∃ found before after, Returns (allocPages s 1) (some found, after) ∧ MadeRoom s 1 before ∧
      FreeRun lo total before found 1 ∧ Kept lo total after.pmm := by
  have hplace : HasPlace s.pmm.links page := Or.inl ((listEmpty_iff h.ring).mpr rfl)
  rcases returns_defaultFreePages h List.Pairwise.nil hplace
    with ⟨pmm, blocks, hfree, hholds, hapart, hne⟩
  rcases List.exists_mem_of_ne_nil blocks hne with ⟨block, hblock⟩
  have hle : 1 ≤ block.length := hholds.positive block (List.mem_append_left _ hblock)
  rcases returns_defaultAllocPages_some hholds Nat.one_pos hblock hle
    with ⟨left, taken, right, rfl, hlarge, halloc⟩
  -- both rounds, with a budget that is enough for all calls in them
  let middle := Swap.evicted { s with praListHead := rest } page pmm
  have hevict : ∀ fuel, defaultFreePages fuel s.pmm page 1 = .ok pmm →
      s.swapOut (defaultPmmManager fuel) swapManagerFifo s.checkMm 1 = .ok (1, middle) :=
    fun fuel hok ↦ swapOut_fifo_ok_iff.mpr ⟨rfl, hcheckMm, hsmPriv, page, rest, hqueue,
      evict_ok_iff.mpr ⟨⟨hevictable.present, hevictable.slot⟩, pmm, hok, rfl⟩⟩
  have hnone : s.pmm.nrFree < 1 := by
    rw [h.nrFree]
    exact Nat.one_pos
  rcases hfree with ⟨freeBound, hfree⟩
  rcases halloc with ⟨allocBound, halloc⟩
  refine ⟨taken.start, middle, { middle with pmm := takeBlock pmm taken.start 1 },
    ⟨max freeBound allocBound + 2, fun fuel hfuel ↦ ?_⟩,
    Or.inr ⟨1, freeBound, fun fuel hfuel ↦ hevict fuel (hfree fuel hfuel)⟩,
    ⟨_, hholds, taken, List.mem_append_right _ (List.mem_cons_self ..), rfl, hlarge⟩,
    kept_takeBlock hholds hapart Nat.one_pos hlarge⟩
  rcases fuel with _ | _ | fuel
  · omega
  · omega
  · rw [allocPages, allocPages_retry (defaultAllocPages_of_lt Nat.one_pos hnone _) hswap,
      hevict _ (hfree _ (by omega)), Outcome.ok_bind]
    exact allocPages_stop (halloc _ (by omega)) (Or.inl rfl) fuel

theorem answered_of_block {left right : List Extent}
    {block : Extent} (hholds : Holds s.pmm lo total (left ++ block :: right) [])
    (hle : n ≤ block.length) (halloc : Returns (fun fuel ↦ defaultAllocPages fuel s.pmm n)
      (some block.start, takeBlock s.pmm block.start n)) :
    Answered lo total s n (some block.start)
      { s with pmm := takeBlock s.pmm block.start n } where
  returns := returns_allocPages_stop halloc (Or.inl rfl)
  run := by
    rintro page hpage
    have hin : block ∈ left ++ block :: right :=
      List.mem_append_right _ (List.mem_cons_self ..)
    exact ⟨s, Or.inl rfl, _, hholds, block, hin, Option.some.inj hpage, hle⟩

/-- Every call that can answer does, and the allocator stays as its calls keep it. -/
theorem exists_answered (h : Kept lo total s.pmm) (hn : 0 < n) (hanswer : CanAnswer lo total s n) :
    ∃ found after, Answered lo total s n found after ∧ Kept lo total after.pmm := by
  rcases h with ⟨blocks, hholds, hapart⟩
  by_cases hends : 1 < n ∨ s.swapInitOk = false
  · -- the allocator decides
    rcases returns_defaultAllocPages hholds hn
      with halloc | ⟨left, block, right, rfl, -, hle, halloc⟩
    · exact ⟨_, _, ⟨returns_allocPages_stop halloc (Or.inr hends), nofun⟩, blocks, hholds, hapart⟩
    · exact ⟨_, _, answered_of_block hholds hle halloc, kept_takeBlock hholds hapart hn hle⟩
  · rcases not_or.mp hends with ⟨hone, hswap⟩
    have hn1 : n = 1 := le_antisymm (not_lt.mp hone) hn
    subst hn1
    cases blocks with
    | cons block blocks =>
      have hle := hholds.positive block (by simp)
      rcases returns_defaultAllocPages_some hholds hn (List.mem_cons_self ..) hle
        with ⟨left, taken, right, hblocks, hlarge, halloc⟩
      rw [hblocks] at hholds hapart
      exact ⟨_, _, answered_of_block hholds hlarge halloc,
        kept_takeBlock hholds hapart hn hlarge⟩
    | nil =>
      rcases hanswer with hmany | hfalse | hfree | hvictim
      · exact absurd hmany hone
      · exact absurd hfalse hswap
      · exact absurd hholds.nrFree hfree
      · rcases hvictim with ⟨hcheckMm, hsmPriv, page, hfirst, hevictable, hlow, hhigh⟩
        cases hqueue : s.praListHead with
        | nil =>
          rw [hqueue] at hfirst
          cases hfirst
        | cons first rest =>
          rw [hqueue] at hfirst
          cases hfirst
          rcases returns_allocPages_victim (hholds.inUse hlow hhigh) (by simpa using hswap)
            hcheckMm hsmPriv hqueue hevictable
            with ⟨found, before, after, hreturns, hroom, hrun, hkept⟩
          refine ⟨some found, after, ⟨hreturns, ?_⟩, hkept⟩
          rintro page hpage
          cases hpage
          exact ⟨before, hroom, hrun⟩

/-- The assertions of `default_free_pages` on a single page. -/
theorem plain_of_defaultFreePages {fuel : ℕ}
    (h : defaultFreePages fuel pmm page 1 = .ok pmm') :
    ¬(pmm.pages page).Reserved ∧ ¬(pmm.pages page).Property := by
  rw [defaultFreePages] at h
  rcases Outcome.bind_eq_ok.mp h with ⟨_, _, h⟩
  rcases Outcome.bind_eq_ok.mp h with ⟨pages, hsweep, _⟩
  rw [sweep] at hsweep
  rcases Outcome.bind_eq_ok.mp hsweep with ⟨_, hplain, _⟩
  exact Outcome.require_eq_ok.mp hplain

/-- `alloc_pages` answers exactly when it can: a single page that can only come from a victim
needs one. -/
theorem answers_iff (h : Kept lo total s.pmm) (hn : 0 < n) :
    Answers lo total s n ↔ CanAnswer lo total s n := by
  constructor
  · rintro ⟨found, after, hreturns, hrun⟩
    by_contra hno
    simp only [CanAnswer, not_or, not_lt, Bool.not_eq_false, ne_eq, Decidable.not_not] at hno
    rcases hno with ⟨hone, hswap, hnrFree, hvictim⟩
    have hn1 : n = 1 := le_antisymm hone hn
    subst hn1
    rcases h with ⟨blocks, hholds, -⟩
    have hblocks := hholds.nil_of_nrFree hnrFree
    subst hblocks
    -- the first round has to swap a page out
    have hfirst : ∃ fuel, allocPages s 1 (fuel + 1) = .ok (found, after) := by
      rcases hreturns with ⟨bound, hbound⟩
      exact ⟨bound, hbound _ (Nat.le_succ bound)⟩
    rcases hfirst with ⟨fuel, hfirst⟩
    rw [allocPages, allocPages_retry (defaultAllocPages_of_lt hn (by omega) _) hswap] at hfirst
    rcases Outcome.bind_eq_ok.mp hfirst with ⟨⟨count, middle⟩, hswapOut, -⟩
    rcases swapOut_fifo_ok_iff.mp hswapOut
      with ⟨-, hcheckMm, hsmPriv, page, rest, hqueue, hevict⟩
    rcases evict_ok_iff.mp hevict with ⟨hevictable, pmm, hfree, -⟩
    have hplain := plain_of_defaultFreePages hfree
    -- and then the call returns that page
    rcases returns_allocPages_victim (hholds.page hplain.1 hplain.2) hswap hcheckMm hsmPriv hqueue
      ⟨hevictable.present, hevictable.slot⟩ with ⟨taken, room, after', hreturns', _, htaken, _⟩
    have hsame := hreturns.unique hreturns'
    rcases hrun taken (Prod.mk.inj hsame).1 with ⟨before, -, hfreeRun⟩
    have hpage : taken = page := by
      have hwithin := htaken.within
      exact le_antisymm (Nat.le_of_lt_succ hwithin.2) hwithin.1
    rw [hpage] at hfreeRun
    exact hvictim ⟨hcheckMm, hsmPriv, page, by rw [hqueue]; rfl,
      ⟨hevictable.present, hevictable.slot⟩, hfreeRun.within⟩
  · intro hanswer
    rcases exists_answered h hn hanswer with ⟨found, after, hanswered, -⟩
    exact ⟨found, after, hanswered⟩

end Call

/-! ## Runs -/

section Runs

variable {lo total : ℕ}

/-- The state once the physical memory is initialised: there is one free block. -/
def FirstSwap (lo total : ℕ) (s : Swap DefaultPmm.State) : Prop :=
  s.swapInitOk = false ∧ s.checkMm = false ∧ s.praListHead = [] ∧
    ∃ live, DefaultPmm.First lo total ⟨s.pmm, live⟩

/-- The pages are in use: they belong to no free block. -/
def InUse (lo total : ℕ) (pmm : DefaultPmm.State) (extent : Extent) : Prop :=
  ∃ blocks, Holds pmm lo total blocks [extent] ∧ blocks.Pairwise Extent.Apart

/-- The steps of a run: pages are allocated by calls that can answer, and pages in use are freed
that have a place in the free list. Whatever else the kernel does, it does to the other fields:
swapping is initialised, `check_mm_struct` set, a page mapped, or a queue filled. -/
inductive SwapStep (lo total : ℕ) : Swap DefaultPmm.State → Swap DefaultPmm.State → Prop
  | alloc {s after : Swap DefaultPmm.State} {n : ℕ} {found : Option Frame} (hn : 0 < n)
      (hanswer : CanAnswer lo total s n) (hreturns : Returns (allocPages s n) (found, after)) :
      SwapStep lo total s after
  | free {s : Swap DefaultPmm.State} {extent : Extent} {pmm : DefaultPmm.State}
      (hinUse : InUse lo total s.pmm extent) (hplace : HasPlace s.pmm.links extent.start)
      (hreturns : Returns (fun fuel ↦ defaultFreePages fuel s.pmm extent.start extent.length) pmm) :
      SwapStep lo total s { s with pmm }
  | kernel {s after : Swap DefaultPmm.State} (hsame : after.pmm = s.pmm) :
      SwapStep lo total s after

theorem kept_first {s : Swap DefaultPmm.State} (htotal : total < 2 ^ 32)
    (h : FirstSwap lo total s) : Kept lo total s.pmm := by
  rcases h with ⟨-, -, -, live, hfirst⟩
  have hpositive : 0 < total := by cases hfirst; assumption
  have hnrFree := (wellFormed_first hfirst).1.nrFree
  rcases sound_first hfirst with ⟨blocks, hholds, hapart⟩ | ⟨-, hwrapped, -⟩
  · exact ⟨blocks, hholds.forget, hapart⟩
  · dsimp only at hnrFree hwrapped
    rw [hwrapped, Extent.total_cons, Extent.total_nil, uint32_of_lt htotal] at hnrFree
    exact absurd hnrFree.symm hpositive.ne'

theorem kept_step {s next : Swap DefaultPmm.State} (h : Kept lo total s.pmm)
    (hstep : SwapStep lo total s next) : Kept lo total next.pmm := by
  cases hstep with
  | alloc hn hanswer hreturns =>
    rcases exists_answered h hn hanswer with ⟨found, after, hanswered, hkept⟩
    have hsame := hreturns.unique hanswered.returns
    exact (Prod.mk.inj hsame).2 ▸ hkept
  | free hinUse hplace hreturns =>
    rcases hinUse with ⟨blocks, hholds, hapart⟩
    rcases returns_defaultFreePages hholds hapart hplace with ⟨pmm, after, hfree, hafter, hsorted, -⟩
    rw [hreturns.unique hfree]
    exact ⟨after, hafter, hsorted⟩
  | kernel hsame => exact hsame ▸ h

theorem kept_of_reachable {s : Swap DefaultPmm.State} (htotal : total < 2 ^ 32)
    (h : Reachable (FirstSwap lo total) (SwapStep lo total) s) : Kept lo total s.pmm := by
  let Invariant := fun state : Swap DefaultPmm.State ↦ Kept lo total state.pmm
  have hkept : Invariant s := h.invariant (fun _ hfirst ↦ kept_first htotal hfirst)
    fun _ _ hkept hstep ↦ kept_step hkept hstep
  exact hkept

/-- Two free pages. -/
def roomy : Swap DefaultPmm.State where
  pmm := twoFree
  bytes _ _ := 0
  swapInitOk := false
  maxSwapOffset := 7
  slot _ _ := 0
  reads := []
  praListHead := []
  praVaddr _ := 0
  mm := ⟨[], none, Table.clear 9 none, 0, false⟩
  checkMm := false

/-- Swapping is initialised, there is no `check_mm_struct`, and both pages are in use. -/
def exhausted : Swap DefaultPmm.State :=
  { roomy with pmm := takeBlock twoFree 0 2, swapInitOk := true }

theorem reachable_exhausted : Reachable (FirstSwap 0 2) (SwapStep 0 2) exhausted := by
  have hfirst : FirstSwap 0 2 roomy := by
    have hreserved : ∀ page, 0 ≤ page → page < 0 + 2 → (twoPages.pages page).Reserved :=
      fun _ _ _ ↦ (by decide : Page.Reserved ⟨0, 1, 0⟩)
    exact ⟨rfl, rfl, rfl, [], .mk (by decide) hreserved (Returns.of_eq fun _ ↦ rfl)⟩
  have hswap : SwapStep 0 2 roomy { roomy with swapInitOk := true } := .kernel rfl
  have hreturns : Returns (allocPages { roomy with swapInitOk := true } 2)
      (some 0, exhausted) := by
    refine ⟨4, fun fuel hfuel ↦ ?_⟩
    rcases Nat.exists_eq_add_of_le' hfuel with ⟨more, rfl⟩
    rfl
  have halloc : SwapStep 0 2 { roomy with swapInitOk := true } exhausted :=
    .alloc (by decide) (Or.inl (by decide)) hreturns
  exact ((Reachable.first hfirst).step hswap).step halloc

end Runs

end Ucore.Mm
