import Ucore.Mm.DefaultPmmRun
import Mathlib.Data.List.MinMax

/-!
# The best-fit page allocator

`best_fit_alloc_pages` of `kern/mm/best_fit_pmm.c`, on the page descriptors and the free list of
the first-fit allocator. The loop keeps the smallest block that is large enough, so on a
well-formed list it computes the leftmost `List.argmin`. Its first bound is `nr_free + 1` as an
`unsigned int`, which is zero when `nr_free` has all its bits set. No block is below that bound.
-/

namespace Ucore.BestFitPmm

open Library DefaultPmm

/-- One round of the search: a block that is large enough and smaller than the best so far. -/
def findStep (s : State) (n : ℕ) (best : Option ℕ × ℕ) (p : ℕ) : Option ℕ × ℕ :=
  if n ≤ (s.pages p).property ∧ (s.pages p).property < best.2 then
    (some p, (s.pages p).property)
  else best

def findBody (s : State) (n : ℕ) (best : Option ℕ × ℕ) :
    FreeNode → Outcome (Option ℕ × ℕ ⊕ Option ℕ)
  | .freeList => .ok (.inl best) -- the loop never stops at the header
  | .pageLink p => .ok (.inl (findStep s n best p))

/-- The loop of `best_fit_alloc_pages`, with `page` and `min_size`. -/
def findBest (fuel : ℕ) (s : State) (n : ℕ) : Outcome (Option ℕ) :=
  walk (fun _ ↦ s.links) .freeList (findBody s n) (fun best ↦ .ok best.1) fuel
    (none, uint32 (s.nrFree + 1)) .freeList

def bestFitAllocPages (fuel : ℕ) (s : State) (n : ℕ) : Outcome (Option ℕ × State) := do
  Outcome.require (0 < n)
  if s.nrFree < n then return (none, s)
  match ← findBest fuel s n with
  | none => return (none, s)
  | some page => return (some page, takeBlock s page n)

/-! ## Well-formed free lists -/

/-- A free list with the given blocks: sorted and disjoint, every head flagged, and `nr_free` the
number of pages in them. -/
structure WellFormed (s : State) (blocks : List Extent) : Prop where
  ring : Ring s.links .freeList (blocks.map node)
  property : ∀ block ∈ blocks, (s.pages block.start).property = block.length
  positive : ∀ block ∈ blocks, 0 < block.length
  sorted : blocks.Pairwise fun first second ↦ first.stop ≤ second.start
  flagged : ∀ block ∈ blocks, (s.pages block.start).Property
  nrFree : s.nrFree = Extent.total blocks
  /-- `nr_free` is an `unsigned int`. -/
  counted : s.nrFree < 2 ^ 32

/-- The best fit for `n` pages: no smaller block is large enough, and no other of its size is
below it. -/
structure Best (blocks : List Extent) (n : ℕ) (block : Extent) : Prop where
  mem : block ∈ blocks
  large : n ≤ block.length
  least : ∀ other ∈ blocks, n ≤ other.length → block.length ≤ other.length
  lowest : ∀ other ∈ blocks, other.length = block.length → block.start ≤ other.start

/-- What an allocation of `n` pages has to do: fail and change nothing when no block is large
enough, and otherwise replace the best fit by its remainder. -/
def BestFit (s : State) (blocks : List Extent) (n : ℕ) (page : Option ℕ) (after : State) : Prop :=
  if ∀ block ∈ blocks, block.length < n then page = none ∧ after = s
  else ∃ left block right, blocks = left ++ block :: right ∧ Best blocks n block ∧
    page = some block.start ∧ after.nrFree = s.nrFree - n ∧
    WellFormed after (left ++ block.remainder n ++ right)

variable {s : State} {blocks left right : List Extent} {block : Extent} {n : ℕ}

theorem WellFormed.length_le_nrFree (h : WellFormed s blocks) (hblock : block ∈ blocks) :
    block.length ≤ s.nrFree :=
  h.nrFree ▸ Extent.length_le_total hblock

theorem WellFormed.start_lt (h : WellFormed s blocks) :
    blocks.Pairwise fun first second ↦ first.start < second.start := by
  refine h.sorted.imp_of_mem fun {first second} hfirst _ hle ↦ ?_
  have hpositive := h.positive first hfirst
  simp only [Extent.stop] at hle
  omega

/-! ## The search -/

/-- The search state that stands for a best block so far. -/
def encode (top : ℕ) (best : Option Extent) : Option ℕ × ℕ :=
  (best.map Extent.start, (best.map Extent.length).getD top)

theorem findStep_encode {top : ℕ} {best : Option Extent}
    (hproperty : (s.pages block.start).property = block.length) (htop : block.length < top) :
    findStep s n (encode top best) block.start = encode top
      (if n ≤ block.length then
        List.argAux (fun first second ↦ first.length < second.length) best block else best) := by
  unfold findStep
  rw [hproperty]
  by_cases hlarge : n ≤ block.length
  · cases best with
    | none => simp [encode, List.argAux, hlarge, htop]
    | some other =>
      by_cases hless : block.length < other.length <;>
        simp [encode, List.argAux, hlarge, hless]
  · simp [hlarge]

/-- While every block is below the first bound, the loop is the fold that takes the leftmost
least block. -/
theorem scan_findBest {top : ℕ}
    (hproperty : ∀ block ∈ blocks, (s.pages block.start).property = block.length)
    (htop : ∀ block ∈ blocks, block.length < top) (best : Option Extent) :
    scan (findBody s n) (fun best ↦ .ok best.1) (blocks.map node) (encode top best) =
      .ok (((blocks.filter fun block ↦ n ≤ block.length).foldl
        (List.argAux fun first second ↦ first.length < second.length) best).map Extent.start) := by
  induction blocks generalizing best with
  | nil => rfl
  | cons block blocks ih =>
    have hstep : findStep s n (encode top best) block.start = encode top _ :=
      findStep_encode (hproperty block (by simp)) (htop block (by simp))
    have hrest := ih (fun other hother ↦ hproperty other (by simp [hother]))
      fun other hother ↦ htop other (by simp [hother])
    simp only [List.map_cons, node, scan, findBody, Outcome.ok_bind, hstep, hrest]
    by_cases hlarge : n ≤ block.length <;> simp [hlarge]

/-- Below a bound of zero there is no block. -/
theorem scan_findBest_zero (blocks : List Extent) :
    scan (findBody s n) (fun best ↦ .ok best.1) (blocks.map node) (none, 0) = .ok none := by
  induction blocks with
  | nil => rfl
  | cons block blocks ih =>
    have hstep : findStep s n (none, 0) block.start = (none, 0) := by simp [findStep]
    simp only [List.map_cons, node, scan, findBody, Outcome.ok_bind, hstep, ih]

theorem WellFormed.returns_findBest (h : WellFormed s blocks) {found : Option ℕ}
    (hscan : scan (findBody s n) (fun best ↦ .ok best.1) (blocks.map node)
      (none, uint32 (s.nrFree + 1)) = .ok found) :
    Returns (fun fuel ↦ findBest fuel s n) found :=
  returns_walk (fun _ ↦ True) (fun _ _ ↦ h.ring) (fun _ _ _ _ _ _ ↦ trivial) trivial hscan

/-- Blocks that come earlier in a sorted list start lower. -/
theorem start_le_of_idxOf_le {other : Extent}
    (hsorted : blocks.Pairwise fun first second ↦ first.start < second.start)
    (hblock : block ∈ blocks) (hother : other ∈ blocks)
    (hle : blocks.idxOf block ≤ blocks.idxOf other) : block.start ≤ other.start := by
  rcases hle.eq_or_lt with heq | hlt
  · exact le_of_eq (congrArg Extent.start ((List.idxOf_inj hblock).mp heq))
  · have hpair := List.pairwise_iff_getElem.mp hsorted _ _ (List.idxOf_lt_length_iff.mpr hblock)
      (List.idxOf_lt_length_iff.mpr hother) hlt
    rw [List.getElem_idxOf, List.getElem_idxOf] at hpair
    exact hpair.le

theorem best_of_argmin (h : WellFormed s blocks)
    (hblock : block ∈ (blocks.filter fun block ↦ n ≤ block.length).argmin Extent.length) :
    Best blocks n block := by
  rcases List.mem_argmin_iff.mp hblock with ⟨hmem, hleast, hfirst⟩
  rcases List.mem_filter.mp hmem with ⟨hlisted, hlarge⟩
  have hfilter : ∀ other ∈ blocks, n ≤ other.length →
      other ∈ blocks.filter fun block ↦ n ≤ block.length := fun other hother hle ↦
    List.mem_filter.mpr ⟨hother, decide_eq_true hle⟩
  have hsorted := h.start_lt.sublist (List.filter_sublist (p := fun block ↦ n ≤ block.length))
  refine ⟨hlisted, of_decide_eq_true hlarge, fun other hother hle ↦
    hleast other (hfilter other hother hle), fun other hother heq ↦ ?_⟩
  have hmember := hfilter other hother (heq ▸ of_decide_eq_true hlarge)
  exact start_le_of_idxOf_le hsorted hmem hmember (hfirst other hmember heq.le)

/-! ## Taking the block -/

/-- Taking the first pages of a block leaves a well-formed list with the remainder in its place. -/
theorem wellFormed_takeBlock (h : WellFormed s (left ++ block :: right)) (hn : 0 < n)
    (hle : n ≤ block.length) :
    WellFormed (takeBlock s block.start n) (left ++ block.remainder n ++ right) := by
  have hproperty := h.property block (by simp)
  have hcounted : block.length ≤ s.nrFree := h.length_le_nrFree (by simp)
  have hsmall := h.counted
  rcases List.pairwise_append.mp h.sorted with ⟨hleft, hblockRight, hleftBlock⟩
  rcases List.pairwise_cons.mp hblockRight with ⟨hblock, hright⟩
  have hbefore : ∀ other ∈ left, other.stop ≤ block.start := fun other hother ↦
    hleftBlock other hother block (by simp)
  have hpositive : ∀ other ∈ left ++ right, 0 < other.length := fun other hother ↦
    h.positive other (by
      simp only [List.mem_append, List.mem_cons] at hother ⊢
      tauto)
  -- an extent that starts inside the block is the block
  have hinside : ∀ other ∈ left ++ right, ∀ offset < block.length,
      other.start ≠ block.start + offset := by
    intro other hother offset hoffset
    have hlength := hpositive other hother
    rcases List.mem_append.mp hother with hmem | hmem
    · have hstop := hbefore other hmem
      simp only [Extent.stop] at hstop
      omega
    · have hstop := hblock other hmem
      simp only [Extent.stop] at hstop
      omega
  have hunchanged : ∀ other ∈ left ++ right,
      (takeBlock s block.start n).pages other.start = s.pages other.start := by
    intro other hother
    have hstart : other.start ≠ block.start := hinside other hother 0 (hn.trans_le hle)
    rw [takeBlock_pages s hn, hproperty, if_neg hstart,
      if_neg fun heq ↦ hinside other hother n heq.1 heq.2]
  have hnew : n < block.length → (takeBlock s block.start n).pages (block.start + n) =
      { s.pages (block.start + n) with
        property := block.length - n
        flags := setBit PG_property (s.pages (block.start + n)).flags } := by
    intro hlt
    have hne : block.start + n ≠ block.start := by omega
    rw [takeBlock_pages s hn, hproperty, if_neg hne, if_pos ⟨hlt, rfl⟩,
      uint64Sub_of_le hle (by omega), uint32_of_lt (by omega)]
  have hcases : ∀ other ∈ left ++ block.remainder n ++ right, other ∈ left ++ right ∨
      n < block.length ∧ other = ⟨block.start + n, block.length - n⟩ := by
    intro other hother
    rw [List.mem_append, List.mem_append, Extent.mem_remainder] at hother
    rw [List.mem_append]
    tauto
  have hmem : ∀ other ∈ left ++ right, other ∈ left ++ block :: right := fun other hother ↦ by
    simp only [List.mem_append, List.mem_cons] at hother ⊢
    tauto
  have hnrFree : (takeBlock s block.start n).nrFree = s.nrFree - n := by
    rw [takeBlock_nrFree, uint64Sub_of_le (hle.trans hcounted) (by omega), uint32_of_lt (by omega)]
  constructor
  · exact ring_takeBlock h.ring hproperty fun hlt other hother ↦ hinside other hother n hlt
  · intro other hother
    rcases hcases other hother with hold | ⟨hlt, rfl⟩
    · rw [hunchanged other hold]
      exact h.property other (hmem other hold)
    · rw [hnew hlt]
  · intro other hother
    rcases hcases other hother with hold | ⟨hlt, rfl⟩
    · exact hpositive other hold
    · exact Nat.sub_pos_of_lt hlt
  · rw [List.append_assoc]
    refine List.pairwise_append.mpr ⟨hleft, List.pairwise_append.mpr ⟨?_, hright, ?_⟩, ?_⟩
    · unfold Extent.remainder
      split <;> simp
    · intro first hfirst second hsecond
      rcases Extent.mem_remainder.mp hfirst with ⟨hlt, rfl⟩
      have hstop := hblock second hsecond
      simp only [Extent.stop] at hstop ⊢
      omega
    · intro first hfirst second hsecond
      rcases List.mem_append.mp hsecond with hrest | hsecond
      · rcases Extent.mem_remainder.mp hrest with ⟨-, rfl⟩
        exact (hbefore first hfirst).trans (Nat.le_add_right _ _)
      · exact hleftBlock first hfirst second (List.mem_cons_of_mem _ hsecond)
  · intro other hother
    rcases hcases other hother with hold | ⟨hlt, rfl⟩
    · rw [hunchanged other hold]
      exact h.flagged other (hmem other hold)
    · rw [hnew hlt]
      exact setHead_property_flag _ _
  · have htotal := h.nrFree
    rw [hnrFree, Extent.total_append, Extent.total_append, Extent.total_remainder]
    rw [Extent.total_append, Extent.total_cons] at htotal
    omega
  · rw [hnrFree]
    omega

/-! ## Allocation -/

theorem bestFitAllocPages_of_lt (hn : 0 < n) (hmany : s.nrFree < n) (fuel : ℕ) :
    bestFitAllocPages fuel s n = .ok (none, s) := by
  simp [bestFitAllocPages, hn, hmany]

/-- With enough free pages in total, the search decides. -/
theorem returns_of_findBest {found : Option ℕ} (hn : 0 < n) (hmany : ¬s.nrFree < n)
    (hfind : Returns (fun fuel ↦ findBest fuel s n) found) :
    Returns (fun fuel ↦ bestFitAllocPages fuel s n)
      (found, (found.map fun page ↦ takeBlock s page n).getD s) := by
  rcases hfind with ⟨bound, hbound⟩
  refine ⟨bound, fun fuel hfuel ↦ ?_⟩
  cases found <;> simp [bestFitAllocPages, hn, hmany, hbound fuel hfuel]

/-- Below the largest count, the allocation is the best fit. -/
theorem bestFit_of_lt (h : WellFormed s blocks) (hn : 0 < n) (hlt : s.nrFree + 1 < 2 ^ 32) :
    ∃ page after, Returns (fun fuel ↦ bestFitAllocPages fuel s n) (page, after) ∧
      BestFit s blocks n page after := by
  by_cases hmany : s.nrFree < n
  · have hnone : ∀ block ∈ blocks, block.length < n := fun block hblock ↦
      (h.length_le_nrFree hblock).trans_lt hmany
    exact ⟨none, s, Returns.of_eq (bestFitAllocPages_of_lt hn hmany),
      (if_pos hnone).mpr ⟨rfl, rfl⟩⟩
  · have htop : ∀ block ∈ blocks, block.length < uint32 (s.nrFree + 1) := fun block hblock ↦ by
      rw [uint32_of_lt hlt]
      exact Nat.lt_succ_of_le (h.length_le_nrFree hblock)
    have hreturns := returns_of_findBest hn hmany
      (h.returns_findBest (scan_findBest (n := n) h.property htop none))
    cases hfound : (blocks.filter fun block ↦ n ≤ block.length).argmin Extent.length with
    | none =>
      have hnone : ∀ block ∈ blocks, block.length < n := by
        simpa using List.argmin_eq_none.mp hfound
      rw [List.argmin] at hfound
      rw [hfound] at hreturns
      exact ⟨none, s, hreturns, (if_pos hnone).mpr ⟨rfl, rfl⟩⟩
    | some block =>
      have hbest := best_of_argmin h (Option.mem_def.mpr hfound)
      rcases List.append_of_mem hbest.mem with ⟨left, right, rfl⟩
      have hsome : ¬∀ other ∈ left ++ block :: right, other.length < n := fun hall ↦
        (hall block hbest.mem).not_ge hbest.large
      have hafter := wellFormed_takeBlock h hn hbest.large
      have hcounted := h.length_le_nrFree hbest.mem
      rw [List.argmin] at hfound
      rw [hfound] at hreturns
      refine ⟨_, _, hreturns, (if_neg hsome).mpr ⟨left, block, right, rfl, hbest, rfl, ?_, hafter⟩⟩
      have hsmall := h.counted
      have hlarge := hbest.large
      rw [Option.map_some, Option.map_some, Option.getD_some, takeBlock_nrFree,
        uint64Sub_of_le (hlarge.trans hcounted) (by omega), uint32_of_lt (by omega)]

/-- With the largest count every allocation fails. -/
theorem returns_none_of_full (h : WellFormed s blocks) (hn : 0 < n)
    (hfull : s.nrFree + 1 = 2 ^ 32) :
    Returns (fun fuel ↦ bestFitAllocPages fuel s n) (none, s) := by
  by_cases hmany : s.nrFree < n
  · exact Returns.of_eq (bestFitAllocPages_of_lt hn hmany)
  · have hzero : uint32 (s.nrFree + 1) = 0 := by rw [hfull]; rfl
    exact returns_of_findBest hn hmany (h.returns_findBest (hzero ▸ scan_findBest_zero blocks))

/-- On a well-formed free list an allocation is the best fit exactly when `nr_free + 1` fits in an
`unsigned int`, or no block is large enough. -/
theorem bestFit_iff (h : WellFormed s blocks) (hn : 0 < n) :
    (∃ page after, Returns (fun fuel ↦ bestFitAllocPages fuel s n) (page, after) ∧
      BestFit s blocks n page after) ↔
    s.nrFree + 1 < 2 ^ 32 ∨ ∀ block ∈ blocks, block.length < n := by
  by_cases hlt : s.nrFree + 1 < 2 ^ 32
  · exact iff_of_true (bestFit_of_lt h hn hlt) (Or.inl hlt)
  · have hfull : s.nrFree + 1 = 2 ^ 32 := by
      have hcounted := h.counted
      omega
    have hreturns := returns_none_of_full h hn hfull
    constructor
    · rintro ⟨page, after, hother, hbest⟩
      refine Or.inr (by_contra fun hsome ↦ ?_)
      rcases (if_neg hsome).mp hbest with ⟨left, block, right, -, -, hpage, -⟩
      cases (hreturns.unique hother)
      cases hpage
    · rintro (hsmall | hnone)
      · exact absurd hsmall hlt
      · exact ⟨none, s, hreturns, (if_pos hnone).mpr ⟨rfl, rfl⟩⟩

theorem ring_empty : Ring (fun _ ↦ ⟨FreeNode.freeList, FreeNode.freeList⟩) .freeList [] :=
  ⟨by simp, by simp [Links.Adjacent]⟩

/-- Two blocks of three and of two pages: two pages come from the second. -/
def twoBlocks : State where
  pages := fun page ↦
    if page = 0 then ⟨0, 2, 3⟩ else if page = 5 then ⟨0, 2, 2⟩ else ⟨0, 0, 0⟩
  links := listAddBefore (listAdd (fun _ ↦ ⟨.freeList, .freeList⟩) .freeList (.pageLink 0))
    .freeList (.pageLink 5)
  nrFree := 5

theorem wellFormed_twoBlocks : WellFormed twoBlocks [⟨0, 3⟩, ⟨5, 2⟩] where
  ring := by
    have hfirst := ring_listAdd_head ring_empty (show FreeNode.pageLink 0 ∉ [.freeList] by simp)
    exact ring_listAddBefore_head hfirst (show FreeNode.pageLink 5 ∉ _ by simp)
  property := by simp [twoBlocks]
  positive := by simp
  sorted := by simp [Extent.stop]
  flagged := by
    simp only [List.mem_cons, List.not_mem_nil, or_false, forall_eq_or_imp, forall_eq]
    decide
  nrFree := rfl
  counted := by decide

theorem bestFit_twoBlocks : ∃ page after,
    Returns (fun fuel ↦ bestFitAllocPages fuel twoBlocks 2) (page, after) ∧
      BestFit twoBlocks [⟨0, 3⟩, ⟨5, 2⟩] 2 page after :=
  (bestFit_iff wellFormed_twoBlocks Nat.two_pos).mpr (Or.inl (by decide))

/-! ## One block with every page the counter can hold -/

def oneBlock : State where
  pages := fun page ↦ if page = 0 then ⟨0, 2, 2 ^ 32 - 1⟩ else ⟨0, 0, 0⟩
  links := listAdd (fun _ ↦ ⟨.freeList, .freeList⟩) .freeList (.pageLink 0)
  nrFree := 2 ^ 32 - 1

theorem wellFormed_oneBlock : WellFormed oneBlock [⟨0, 2 ^ 32 - 1⟩] where
  ring := ring_listAdd_head ring_empty (by simp)
  property := by simp [oneBlock]
  positive := by simp
  sorted := by simp
  flagged := by
    simp only [List.mem_singleton, forall_eq]
    decide
  nrFree := rfl
  counted := by decide

/-- The single block is large enough for one page, yet the allocation fails. -/
theorem not_bestFit_oneBlock : WellFormed oneBlock [⟨0, 2 ^ 32 - 1⟩] ∧ ¬∃ page after,
    Returns (fun fuel ↦ bestFitAllocPages fuel oneBlock 1) (page, after) ∧
      BestFit oneBlock [⟨0, 2 ^ 32 - 1⟩] 1 page after := by
  refine ⟨wellFormed_oneBlock, ?_⟩
  rintro ⟨page, after, hreturns, hbest⟩
  have hsome : ¬∀ block ∈ [(⟨0, 2 ^ 32 - 1⟩ : Extent)], block.length < 1 := by simp
  rcases (if_neg hsome).mp hbest with ⟨left, block, right, -, -, rfl, -⟩
  cases hreturns.unique (returns_none_of_full wellFormed_oneBlock one_pos rfl)

end Ucore.BestFitPmm
