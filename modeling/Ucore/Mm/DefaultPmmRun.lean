import Ucore.Library.Run
import Ucore.Mm.DefaultPmmFreeList

/-!
# Runs of the first-fit allocator

One lemma for each call says which blocks it leaves free, and with these every run keeps the free
list sorted, coalesced and disjoint from the allocations in use, as long as each returned run of
pages has a place in the list. Without a place the insertion links the node to itself.
-/

namespace Ucore.DefaultPmm

open Library

/-! ## Allocation -/

theorem scan_findFirst {s : State} {blocks : List Extent} {k : ℕ}
    (hproperty : ∀ block ∈ blocks, (s.pages block.start).property = block.length) :
    scan (fun (_ : Unit) node ↦ match node with
      | .freeList => .ok (.inl ())
      | .pageLink p => if k ≤ (s.pages p).property then .ok (.inr (some p)) else .ok (.inl ()))
      (fun _ ↦ .ok none) (blocks.map node) () =
      .ok ((blocks.find? fun block ↦ k ≤ block.length).map Extent.start) := by
  induction blocks with
  | nil => rfl
  | cons block blocks ih =>
    have hblock := hproperty block (by simp)
    have hrest := ih fun other hother ↦ hproperty other (by simp [hother])
    by_cases hle : k ≤ block.length
    · simp [scan, node, hblock, hle]
    · simpa [scan, node, hblock, hle] using hrest

theorem returns_findFirst {s : State} {lo n : ℕ} {blocks live : List Extent}
    (h : Holds s lo n blocks live) (k : ℕ) : Returns (fun fuel ↦ findFirst fuel s k)
      ((blocks.find? fun block ↦ k ≤ block.length).map Extent.start) :=
  returns_walk (fun _ ↦ True) (fun _ _ ↦ h.ring) (fun _ _ _ _ _ _ ↦ trivial) trivial
    (scan_findFirst h.property)

theorem defaultAllocPages_of_lt {s : State} {k : ℕ} (hk : 0 < k) (hmany : s.nrFree < k)
    (fuel : ℕ) : defaultAllocPages fuel s k = .ok (none, s) := by
  simp [defaultAllocPages, hk, hmany]

/-- With enough free pages in total, the search decides. -/
theorem returns_of_findFirst {s : State} {k : ℕ} {found : Option ℕ} (hk : 0 < k)
    (hmany : ¬s.nrFree < k) (hfind : Returns (fun fuel ↦ findFirst fuel s k) found) :
    Returns (fun fuel ↦ defaultAllocPages fuel s k)
      (found, (found.map fun page ↦ takeBlock s page k).getD s) := by
  rcases hfind with ⟨bound, hbound⟩
  refine ⟨bound, fun fuel hfuel ↦ ?_⟩
  cases found <;>
    simp [defaultAllocPages, hk, hmany, hbound fuel hfuel]

/-- An allocation returns `NULL` and changes nothing, or takes pages from the first block that is
large enough. -/
theorem returns_defaultAllocPages {s : State} {lo n k : ℕ} {blocks live : List Extent}
    (h : Holds s lo n blocks live) (hk : 0 < k) :
    Returns (fun fuel ↦ defaultAllocPages fuel s k) (none, s) ∨
    ∃ left block right, blocks = left ++ block :: right ∧ (∀ other ∈ left, other.length < k) ∧
      k ≤ block.length ∧ Returns (fun fuel ↦ defaultAllocPages fuel s k)
        (some block.start, takeBlock s block.start k) := by
  by_cases hmany : s.nrFree < k
  · exact Or.inl (Returns.of_eq (defaultAllocPages_of_lt hk hmany))
  · have hreturns := returns_of_findFirst hk hmany (returns_findFirst h k)
    cases hfound : blocks.find? fun block ↦ k ≤ block.length with
    | none =>
      rw [hfound] at hreturns
      exact Or.inl hreturns
    | some block =>
      rw [hfound] at hreturns
      rcases List.find?_eq_some_iff_append.mp hfound with ⟨hle, left, right, hblocks, hleft⟩
      refine Or.inr ⟨left, block, right, hblocks, fun other hother ↦ ?_, by simpa using hle, hreturns⟩
      simpa using hleft other hother

/-! ## Coalescing -/

/-- Coalescing downwards: whatever is below the block now leaves a gap. -/
theorem holds_mergeBefore {s : State} {lo n : ℕ} {left right live : List Extent} {extent : Extent}
    (h : Holds s lo n (left ++ extent :: right) live) (hleft : left.Pairwise Extent.Apart)
    (hbelow : ∀ other ∈ left, other.stop ≤ extent.start) :
    ∃ lower merged, Holds (mergeBefore s extent.start).2 lo n (lower ++ merged :: right) live ∧
      (mergeBefore s extent.start).1 = merged.start ∧ merged.stop = extent.stop ∧
      lower.Sublist left ∧ ∀ other ∈ lower, other.stop < merged.start := by
  have hring := h.ring
  rw [List.map_append, List.map_cons] at hring
  have hprev : listPrev s.links (node extent) = (left.map node).getLastD .freeList := hring.prev_eq
  simp only [node] at hprev
  rcases List.eq_nil_or_concat left with rfl | ⟨lower, last, rfl⟩
  · have hstay : mergeBefore s extent.start = (extent.start, s) := by
      simp [mergeBefore, hprev]
    rw [hstay]
    exact ⟨[], extent, h, rfl, rfl, List.Sublist.refl _, by simp⟩
  · rw [List.concat_eq_append] at *
    have hlast := hbelow last (by simp)
    have hproperty : (s.pages last.start).property = last.length := h.property last (by simp)
    simp only [List.map_append, List.map_cons, List.map_nil, List.getLastD_concat, node] at hprev
    by_cases htouch : last.stop = extent.start
    · have hmerge : mergeBefore s extent.start = (last.start, absorb s last.start extent.start) := by
        have heq : last.start + last.length = extent.start := htouch
        simp [mergeBefore, hprev, hproperty, heq]
      rw [List.append_assoc] at h
      rw [hmerge]
      refine ⟨lower, last.join extent, holds_absorb h htouch, rfl, ?_,
        List.sublist_append_left _ _, fun other hother ↦ ?_⟩
      · simp only [Extent.stop, Extent.join] at *
        omega
      · exact (List.pairwise_append.mp hleft).2.2 other hother last (by simp)
    · have hstay : mergeBefore s extent.start = (extent.start, s) := by
        have hne : ¬last.start + last.length = extent.start := htouch
        simp [mergeBefore, hprev, hproperty, hne]
      rw [hstay]
      refine ⟨lower ++ [last], extent, h, rfl, rfl, List.Sublist.refl _, fun other hother ↦ ?_⟩
      rcases List.mem_append.mp hother with hlower | hother
      · exact Extent.apart_of_getLast hleft hlast other hlower
      · rw [List.mem_singleton.mp hother]
        exact Nat.lt_of_le_of_ne hlast htouch

/-- Coalescing upwards: whatever is above the block now leaves a gap. -/
theorem holds_mergeAfter {s : State} {lo n : ℕ} {left right live : List Extent} {extent : Extent}
    (h : Holds s lo n (left ++ extent :: right) live) (hright : right.Pairwise Extent.Apart)
    (habove : ∀ other ∈ right, extent.stop ≤ other.start) :
    ∃ merged higher, Holds (mergeAfter s extent.start) lo n (left ++ merged :: higher) live ∧
      merged.start = extent.start ∧ higher.Sublist right ∧
      ∀ other ∈ higher, merged.stop < other.start := by
  have hring := h.ring
  rw [List.map_append, List.map_cons] at hring
  have hnext : listNext s.links (node extent) = (right.map node).headD .freeList := hring.next_eq
  have hproperty : (s.pages extent.start).property = extent.length := h.property extent (by simp)
  simp only [node] at hnext
  cases right with
  | nil =>
    have hstay : mergeAfter s extent.start = s := by
      simp [mergeAfter, hnext]
    rw [hstay]
    exact ⟨extent, [], h, rfl, List.Sublist.refl _, by simp⟩
  | cons first higher =>
    have hfirst := habove first (by simp)
    simp only [List.map_cons, List.headD_cons, node] at hnext
    by_cases htouch : extent.stop = first.start
    · have hmerge : mergeAfter s extent.start = absorb s extent.start first.start := by
        have heq : extent.start + extent.length = first.start := htouch
        simp [mergeAfter, hnext, hproperty, heq]
      rw [hmerge]
      refine ⟨extent.join first, higher, holds_absorb h htouch, rfl, List.sublist_cons_self _ _,
        fun other hother ↦ ?_⟩
      have hapart : Extent.Apart first other := (List.pairwise_cons.mp hright).1 other hother
      simp only [Extent.Apart, Extent.stop, Extent.join] at *
      omega
    · have hstay : mergeAfter s extent.start = s := by
        have hne : ¬extent.start + extent.length = first.start := htouch
        simp [mergeAfter, hnext, hproperty, hne]
      rw [hstay]
      refine ⟨extent, first :: higher, h, rfl, List.Sublist.refl _, fun other hother ↦ ?_⟩
      rcases List.mem_cons.mp hother with rfl | hhigher
      · exact Nat.lt_of_le_of_ne hfirst htouch
      · exact Extent.apart_of_head hright hfirst other hhigher

/-! ## Freeing -/

theorem Holds.perm_live {s : State} {lo n : ℕ} {blocks live other : List Extent}
    (h : Holds s lo n blocks live) (hperm : live.Perm other) : Holds s lo n blocks other := by
  have hall : (blocks ++ live).Perm (blocks ++ other) := hperm.append_left blocks
  exact { h with
    positive := fun extent hextent ↦ h.positive extent (hall.mem_iff.mpr hextent)
    within := fun extent hextent ↦ h.within extent (hall.mem_iff.mpr hextent)
    separate := (hall.pairwise_iff Extent.Separate.symm).mp h.separate
    small := Extent.total_perm hall ▸ h.small }

/-- No page of an allocation in use is reserved or a block head. -/
theorem Holds.plain {s : State} {lo n : ℕ} {blocks live : List Extent} {extent : Extent}
    (h : Holds s lo n blocks live) (hextent : extent ∈ live) {page : ℕ}
    (hlow : extent.start ≤ page) (hhigh : page < extent.start + extent.length) :
    ¬(s.pages page).Reserved ∧ ¬(s.pages page).Property := by
  have hwithin := h.within extent (List.mem_append_right _ hextent)
  simp only [Extent.stop] at hwithin
  refine ⟨h.unreserved page (by omega) (by omega), fun hproperty ↦ ?_⟩
  rcases (h.head page (by omega) (by omega)).mp hproperty with ⟨block, hblock, rfl⟩
  have hseparate := ((List.pairwise_append.mp h.separate).2.2 block hblock extent hextent).symm
  refine hseparate.start_ne_add (h.positive block (List.mem_append_left _ hblock))
    (Nat.sub_lt_left_of_lt_add hlow hhigh) ?_
  omega

/-- Freeing pages that have a place in the list: the blocks stay coalesced. -/
theorem returns_defaultFreePages {s : State} {lo n : ℕ} {blocks live : List Extent}
    {extent : Extent} (h : Holds s lo n blocks (extent :: live))
    (hapart : blocks.Pairwise Extent.Apart) (hplace : HasPlace s.links extent.start) :
    ∃ after blocks', Returns (fun fuel ↦ defaultFreePages fuel s extent.start extent.length) after ∧
      Holds after lo n blocks' live ∧ blocks'.Pairwise Extent.Apart ∧ blocks' ≠ [] := by
  have hpositive : 0 < extent.length := h.positive extent (by simp)
  have hsweep : sweep (fun page ↦ ¬page.Reserved ∧ ¬page.Property)
      (fun page ↦ { page with flags := 0, ref := 0 }) extent.start extent.length s.pages = .ok _ :=
    sweep_eq fun p hlow hhigh ↦ h.plain (List.mem_cons_self ..) hlow hhigh
  have hseparate : ∀ block ∈ blocks, Extent.Separate block extent := fun block hblock ↦
    (List.pairwise_append.mp h.separate).2.2 block hblock extent (by simp)
  have hblockPositive : ∀ block ∈ blocks, 0 < block.length := fun block hblock ↦
    h.positive block (List.mem_append_left _ hblock)
  -- the place of the new block in address order
  have hordered : blocks.Pairwise fun first second ↦ first.start < second.start :=
    hapart.imp fun hfirst ↦ Nat.lt_of_le_of_lt (Nat.le_add_right _ _) hfirst
  rcases Extent.exists_place hordered fun block hblock ↦
    (hseparate block hblock).start_ne (hblockPositive block hblock) hpositive
    with ⟨left, right, rfl, hleft, hright⟩
  rcases returns_insertFreeList h.ring hleft hright hplace with ⟨links, ⟨bound, hbound⟩, hring⟩
  have hmapped : Ring links .freeList ((left ++ extent :: right).map node) := by
    simpa [node] using hring
  have hinsert := holds_insert h hmapped
  have hbelow : ∀ other ∈ left, other.stop ≤ extent.start := by
    intro other hother
    have hlt := hleft other hother
    rcases hseparate other (List.mem_append_left _ hother) with hstop | hstop
    · exact hstop
    · simp only [Extent.stop] at hstop
      omega
  have habove : ∀ other ∈ right, extent.stop ≤ other.start := by
    intro other hother
    have hlt := hright other hother
    rcases hseparate other (List.mem_append_right _ hother) with hstop | hstop
    · simp only [Extent.stop] at hstop
      omega
    · exact hstop
  have hapartLeft : left.Pairwise Extent.Apart := hapart.sublist (List.sublist_append_left _ _)
  have hapartRight : right.Pairwise Extent.Apart := hapart.sublist (List.sublist_append_right _ _)
  rcases holds_mergeBefore hinsert hapartLeft hbelow
    with ⟨lower, lowered, hlowered, hbase, hstop, hlower, hgapBelow⟩
  rcases holds_mergeAfter hlowered hapartRight (hstop ▸ habove)
    with ⟨merged, higher, hmerged, hstart, hhigher, hgapAbove⟩
  rw [← hbase] at hmerged
  refine ⟨_, lower ++ merged :: higher, ⟨bound, fun fuel hfuel ↦ ?_⟩, hmerged, ?_, by simp⟩
  · have hlinks : insertFreeList fuel s.links extent.start = .ok links := hbound fuel hfuel
    simp only [defaultFreePages, Outcome.require_of_true hpositive, Outcome.ok_bind, hsweep,
      State.setHead, setPage_links, hlinks]
    rfl
  · refine Extent.pairwise_apart_insert (hapart.sublist (hlower.append hhigher))
      (fun other hother ↦ ?_) hgapAbove
    rw [Extent.Apart, hstart]
    exact hgapBelow other hother

/-! ## Free pages without the allocations -/

/-- The free list alone, whatever is known of the allocations. -/
theorem Holds.forget {s : State} {lo n : ℕ} {blocks live : List Extent}
    (h : Holds s lo n blocks live) : Holds s lo n blocks [] := by
  have hsublist : (blocks ++ []).Sublist (blocks ++ live) :=
    (List.nil_sublist live).append_left blocks
  exact { h with
    positive := fun extent hextent ↦ h.positive extent (hsublist.subset hextent)
    within := fun extent hextent ↦ h.within extent (hsublist.subset hextent)
    separate := h.separate.sublist hsublist
    small := by
      have hsmall := h.small
      rw [Extent.total_append] at hsmall ⊢
      exact lt_of_le_of_lt (Nat.add_le_add_left (Nat.zero_le _) _) hsmall }

theorem Holds.nil_of_nrFree {s : State} {lo n : ℕ} {blocks live : List Extent}
    (h : Holds s lo n blocks live) (hnone : s.nrFree = 0) : blocks = [] := by
  cases blocks with
  | nil => rfl
  | cons block blocks =>
    have hpositive := h.positive block (by simp)
    have htotal := h.nrFree
    rw [hnone, Extent.total_cons] at htotal
    omega

/-- When there is no free page, a page that is neither reserved nor a block head is one that can
be freed. -/
theorem Holds.page {s : State} {lo n page : ℕ} (h : Holds s lo n [] [])
    (hreserved : ¬(s.pages page).Reserved) (hproperty : ¬(s.pages page).Property) :
    Holds s page 1 [] [⟨page, 1⟩] where
  ring := h.ring
  property := by simp
  head := fun other hlow hhigh ↦ by
    have heq : other = page := by omega
    simpa [heq] using hproperty
  unreserved := fun other hlow hhigh ↦ by
    have heq : other = page := by omega
    exact heq ▸ hreserved
  positive := by simp
  within := by simp [Extent.stop]
  separate := by simp
  nrFree := h.nrFree
  small := by simp

theorem Holds.inUse {s : State} {lo n page : ℕ} (h : Holds s lo n [] []) (hlow : lo ≤ page)
    (hhigh : page < lo + n) : Holds s lo n [] [⟨page, 1⟩] :=
  { h with
    positive := by simp
    within := by
      simp only [List.nil_append, List.mem_singleton, forall_eq, Extent.stop]
      omega
    separate := by simp
    small := by simp }

/-- A free block that is large enough is found, or one before it. -/
theorem returns_defaultAllocPages_some {s : State} {lo n k : ℕ} {blocks live : List Extent}
    {block : Extent} (h : Holds s lo n blocks live) (hk : 0 < k) (hblock : block ∈ blocks)
    (hle : k ≤ block.length) : ∃ left found right, blocks = left ++ found :: right ∧
      k ≤ found.length ∧
      Returns (fun fuel ↦ defaultAllocPages fuel s k) (some found.start, takeBlock s found.start k) := by
  have hmany : ¬s.nrFree < k := by
    rw [h.nrFree, not_lt]
    exact hle.trans (Extent.length_le_total hblock)
  have hreturns := returns_of_findFirst hk hmany (returns_findFirst h k)
  cases hfound : blocks.find? fun block ↦ k ≤ block.length with
  | none => exact absurd (decide_eq_true hle) (List.find?_eq_none.mp hfound block hblock)
  | some found =>
    rw [hfound] at hreturns
    rcases List.find?_eq_some_iff_append.mp hfound with ⟨hlarge, left, right, hblocks, -⟩
    exact ⟨left, found, right, hblocks, of_decide_eq_true hlarge, hreturns⟩

/-! ## Runs -/

/-- The allocator together with the runs of pages that were handed out and not yet returned. -/
structure Config where
  pmm : State
  live : List Extent

/-- The state after `default_init` and one `default_init_memmap` of reserved pages. -/
inductive First (lo n : ℕ) : Config → Prop
  | mk {s after : State} (hn : 0 < n)
      (hreserved : ∀ page, lo ≤ page → page < lo + n → (s.pages page).Reserved)
      (hreturns : Returns (fun fuel ↦ defaultInitMemmap fuel (defaultInit s) lo n) after) :
      First lo n ⟨after, []⟩

/-- The calls of a run. `Allowed` restricts the states in which a run of pages is returned. -/
inductive Step (Allowed : State → ℕ → Prop) : Config → Config → Prop
  | alloc {c : Config} {k : ℕ} {page : Option ℕ} {after : State} (hk : 0 < k)
      (hreturns : Returns (fun fuel ↦ defaultAllocPages fuel c.pmm k) (page, after)) :
      Step Allowed c ⟨after, (page.map fun start ↦ ⟨start, k⟩).toList ++ c.live⟩
  | free {c : Config} {extent : Extent} {after : State} (hextent : extent ∈ c.live)
      (hallowed : Allowed c.pmm extent.start)
      (hreturns : Returns (fun fuel ↦ defaultFreePages fuel c.pmm extent.start extent.length)
        after) :
      Step Allowed c ⟨after, c.live.erase extent⟩

/-- What the free list and the allocations in use have to satisfy. -/
structure WellFormed (c : Config) (lo n : ℕ) (blocks : List Extent) : Prop where
  ring : Ring c.pmm.links .freeList (blocks.map node)
  property : ∀ block ∈ blocks, (c.pmm.pages block.start).property = block.length
  sorted : blocks.Pairwise fun first second ↦ first.start < second.start
  coalesced : blocks.Pairwise Extent.Apart
  within : ∀ extent ∈ blocks ++ c.live, lo ≤ extent.start ∧ extent.stop ≤ lo + n
  head : ∀ page, lo ≤ page → page < lo + n →
    ((c.pmm.pages page).Property ↔ ∃ block ∈ blocks, block.start = page)
  nrFree : c.pmm.nrFree = Extent.total blocks
  free_live : ∀ block ∈ blocks, ∀ extent ∈ c.live, Disjoint block.units extent.units
  live : c.live.Pairwise fun first second ↦ Disjoint first.units second.units

theorem Holds.wellFormed {s : State} {lo n : ℕ} {blocks live : List Extent}
    (h : Holds s lo n blocks live) (hapart : blocks.Pairwise Extent.Apart) :
    WellFormed ⟨s, live⟩ lo n blocks where
  ring := h.ring
  property := h.property
  sorted := hapart.imp fun hfirst ↦ Nat.lt_of_le_of_lt (Nat.le_add_right _ _) hfirst
  coalesced := hapart
  within := h.within
  head := h.head
  nrFree := h.nrFree
  free_live := fun block hblock extent hextent ↦
    ((List.pairwise_append.mp h.separate).2.2 block hblock extent hextent).disjoint
  live := (List.pairwise_append.mp h.separate).2.1.imp Extent.Separate.disjoint

/-- Whether a run of pages can be handed out: either every page is accounted for, or the number of
pages was a multiple of `2 ^ 32`, the counters wrapped to zero and every allocation fails. -/
def Sound (lo n : ℕ) (c : Config) : Prop :=
  (∃ blocks, Holds c.pmm lo n blocks c.live ∧ blocks.Pairwise Extent.Apart) ∨
    c.live = [] ∧ c.pmm.nrFree = 0 ∧ ∃ blocks, WellFormed c lo n blocks

theorem Sound.wellFormed {lo n : ℕ} {c : Config} (h : Sound lo n c) :
    ∃ blocks, WellFormed c lo n blocks := by
  rcases h with ⟨blocks, hholds, hapart⟩ | ⟨-, -, h⟩
  · exact ⟨blocks, hholds.wellFormed hapart⟩
  · exact h

/-- The state that `default_init_memmap` leaves on an empty list: one block with as many pages as
fit in 32 bits. -/
theorem returns_defaultInitMemmap {s : State} {lo n : ℕ} (hn : 0 < n)
    (hreserved : ∀ page, lo ≤ page → page < lo + n → (s.pages page).Reserved) :
    ∃ after, Returns (fun fuel ↦ defaultInitMemmap fuel (defaultInit s) lo n) after ∧
      (∀ page, lo ≤ page → page < lo + n → after.pages page =
        if page = lo then ⟨0, setBit PG_property 0, uint32 n⟩ else ⟨0, 0, 0⟩) ∧
      Ring after.links .freeList [.pageLink lo] ∧ after.nrFree = uint32 n := by
  have hempty : listEmpty (defaultInit s).links .freeList :=
    (listEmpty_iff (ring_listInit s.links .freeList)).mpr rfl
  have hsweep : sweep Page.Reserved (fun _ ↦ ⟨0, 0, 0⟩) lo n (defaultInit s).pages = .ok _ :=
    sweep_eq hreserved
  have hring := ring_listAdd_head (ring_listInit s.links .freeList)
    (show FreeNode.pageLink lo ∉ [.freeList] by simp)
  let reset : State := { defaultInit s with
    pages := fun page ↦ if lo ≤ page ∧ page < lo + n then ⟨0, 0, 0⟩ else s.pages page }
  refine ⟨{ reset.setHead lo (uint32 n) with
    links := listAdd (defaultInit s).links .freeList (.pageLink lo), nrFree := uint32 (0 + n) },
    Returns.of_eq fun fuel ↦ ?_, fun page hlow hhigh ↦ ?_, hring, by simp⟩
  · simp only [defaultInitMemmap, Outcome.require_of_true hn, hsweep, Outcome.ok_bind,
      State.setHead, setPage_links, insertFreeList]
    rfl
  · have hfirst : lo ≤ lo ∧ lo < lo + n := by omega
    simp only [State.setHead, setPage_pages, reset, if_pos (And.intro hlow hhigh), if_pos hfirst]

theorem wellFormed_first {lo n : ℕ} {c : Config} (h : First lo n c) :
    WellFormed c lo n [⟨lo, uint32 n⟩] ∧ c.live = [] ∧
      ∀ page, lo ≤ page → page < lo + n → ¬(c.pmm.pages page).Reserved := by
  rcases h with ⟨hn, hreserved, hreturns⟩
  rcases returns_defaultInitMemmap hn hreserved with ⟨after, hafter, hpages, hring, hnrFree⟩
  rw [hreturns.unique hafter]
  refine ⟨?_, rfl, fun page hlow hhigh ↦ ?_⟩
  · constructor
    · exact hring
    · simp [hpages lo le_rfl (by omega)]
    · simp
    · simp
    · have hle : uint32 n ≤ n := Nat.mod_le _ _
      simpa [Extent.stop] using hle
    · intro page hlow hhigh
      rw [hpages page hlow hhigh]
      by_cases hpage : page = lo
      · subst hpage
        simp only [if_true, List.mem_singleton, exists_eq_left, iff_true]
        exact setHead_property_flag ⟨0, 0, 0⟩ _
      · have hne : ¬lo = page := fun heq ↦ hpage heq.symm
        simp only [if_neg hpage, List.mem_singleton, exists_eq_left, hne, iff_false]
        decide
    · simpa using hnrFree
    · simp
    · simp
  · rw [hpages page hlow hhigh]
    split
    · exact (setHead_reserved_flag ⟨0, 0, 0⟩ _).not.mpr (by decide)
    · decide

theorem sound_first {lo n : ℕ} {c : Config} (h : First lo n c) : Sound lo n c := by
  rcases wellFormed_first h with ⟨hwellFormed, hlive, hunreserved⟩
  by_cases hwrapped : uint32 n = 0
  · exact Or.inr ⟨hlive, by simpa [hwrapped] using hwellFormed.nrFree, _, hwellFormed⟩
  · refine Or.inl ⟨[⟨lo, uint32 n⟩], ?_, by simp⟩
    rw [hlive]
    exact { hwellFormed with
      unreserved := hunreserved
      positive := by simpa using Nat.pos_of_ne_zero hwrapped
      within := by simpa [hlive] using hwellFormed.within
      separate := by simp
      small := by simpa using uint32_lt n }

theorem sound_step {lo n : ℕ} {c next : Config} (h : Sound lo n c)
    (hstep : Step (fun s base ↦ HasPlace s.links base) c next) : Sound lo n next := by
  cases hstep with
  | @alloc k page after hk hreturns =>
    rcases h with ⟨blocks, hholds, hapart⟩ | ⟨hlive, hfree, hwellFormed⟩
    · rcases returns_defaultAllocPages hholds hk with hnull | ⟨left, block, right, rfl, -, hle, htake⟩
      · rcases Prod.mk.inj (hreturns.unique hnull) with ⟨rfl, rfl⟩
        exact Or.inl ⟨blocks, by simpa using hholds, hapart⟩
      · rcases Prod.mk.inj (hreturns.unique htake) with ⟨rfl, rfl⟩
        exact Or.inl ⟨_, holds_takeBlock hholds hk hle, Extent.pairwise_apart_remainder hapart⟩
    · have hnull := Returns.of_eq (defaultAllocPages_of_lt hk (hfree ▸ hk))
      rcases Prod.mk.inj (hreturns.unique hnull) with ⟨rfl, rfl⟩
      exact Or.inr ⟨by simpa using hlive, hfree, by simpa using hwellFormed⟩
  | @free extent after hextent hplace hreturns =>
    rcases h with ⟨blocks, hholds, hapart⟩ | ⟨hlive, -, -⟩
    · have hfirst := hholds.perm_live (List.perm_cons_erase hextent)
      rcases returns_defaultFreePages hfirst hapart hplace
        with ⟨after', blocks', hfree, hafter, hsorted, -⟩
      rw [hreturns.unique hfree]
      exact Or.inl ⟨blocks', hafter, hsorted⟩
    · simp [hlive] at hextent

/-- Every run in which returned pages always have a place keeps the free list well formed. -/
theorem wellFormed_of_hasPlace (lo n : ℕ) (c : Config)
    (h : Reachable (First lo n) (Step fun s base ↦ HasPlace s.links base) c) :
    ∃ blocks, WellFormed c lo n blocks := by
  have hsound : Sound lo n c := h.invariant (fun _ hfirst ↦ sound_first hfirst)
    fun _ _ hsound hstep ↦ sound_step hsound hstep
  exact hsound.wellFormed

/-! ### Two pages -/

/-- Two reserved pages, before the allocator is initialised. -/
def twoPages : State := ⟨fun _ ↦ ⟨0, 1, 0⟩, fun _ ↦ ⟨.freeList, .freeList⟩, 0⟩

/-- The two pages as one free block. -/
def twoFree : State := ((defaultInitMemmap 4 (defaultInit twoPages) 0 2).toOption).getD twoPages

/-- Both pages handed out one by one. -/
def twoTaken : State := takeBlock (takeBlock twoFree 0 1) 1 1

/-- The first page is back. -/
def firstFreed : State := ((defaultFreePages 4 twoTaken 0 1).toOption).getD twoPages

/-- Both pages are back, the higher one last. -/
def bothFreed : State := ((defaultFreePages 4 firstFreed 1 1).toOption).getD twoPages

theorem reachable_firstFreed {Allowed : State → ℕ → Prop} (hallowed : Allowed twoTaken 0) :
    Reachable (First 0 2) (Step Allowed) ⟨firstFreed, [⟨1, 1⟩]⟩ := by
  have hfirst : Reachable (First 0 2) (Step Allowed) ⟨twoFree, []⟩ :=
    Reachable.first (First.mk (s := twoPages) (by decide)
      (fun _ _ _ ↦ (by decide : Page.Reserved ⟨0, 1, 0⟩)) (Returns.of_eq fun _ ↦ rfl))
  have hlow : Returns (fun fuel ↦ defaultAllocPages fuel twoFree 1)
      (some 0, takeBlock twoFree 0 1) := by
    refine ⟨4, fun fuel hfuel ↦ ?_⟩
    rcases Nat.exists_eq_add_of_le' hfuel with ⟨more, rfl⟩
    rfl
  have hhigh : Returns (fun fuel ↦ defaultAllocPages fuel (takeBlock twoFree 0 1) 1)
      (some 1, twoTaken) := by
    refine ⟨4, fun fuel hfuel ↦ ?_⟩
    rcases Nat.exists_eq_add_of_le' hfuel with ⟨more, rfl⟩
    rfl
  have hfree : Returns (fun fuel ↦ defaultFreePages fuel twoTaken 0 1) firstFreed :=
    ⟨4, fun fuel hfuel ↦ by
      rcases Nat.exists_eq_add_of_le' hfuel with ⟨more, rfl⟩
      rfl⟩
  have hone := hfirst.step (Step.alloc (c := ⟨twoFree, []⟩) (by decide) hlow)
  have htwo := hone.step (Step.alloc (c := ⟨takeBlock twoFree 0 1, [⟨0, 1⟩]⟩) (by decide) hhigh)
  exact htwo.step (Step.free (c := ⟨twoTaken, [⟨1, 1⟩, ⟨0, 1⟩]⟩)
    (List.mem_cons_of_mem _ (List.mem_cons_self ..) : (⟨0, 1⟩ : Extent) ∈ _) hallowed hfree)

theorem wellFormed_firstFreed : ∃ blocks, WellFormed ⟨firstFreed, [⟨1, 1⟩]⟩ 0 2 blocks :=
  wellFormed_of_hasPlace 0 2 _ (reachable_firstFreed (Or.inl (by decide)))

/-- Returning the pages in address order: the second one has no place, and becomes its own
predecessor. -/
theorem not_wellFormed_bothFreed : ¬∀ (lo n : ℕ) (c : Config),
    Reachable (First lo n) (Step fun _ _ ↦ True) c → ∃ blocks, WellFormed c lo n blocks := by
  intro h
  have hfree : Returns (fun fuel ↦ defaultFreePages fuel firstFreed 1 1) bothFreed := by
    refine ⟨4, fun fuel hfuel ↦ ?_⟩
    rcases Nat.exists_eq_add_of_le' hfuel with ⟨more, rfl⟩
    rfl
  have hstep : Step (fun _ _ ↦ True) ⟨firstFreed, [⟨1, 1⟩]⟩ ⟨bothFreed, []⟩ :=
    Step.free (c := ⟨firstFreed, [⟨1, 1⟩]⟩)
      (List.mem_cons_self .. : (⟨1, 1⟩ : Extent) ∈ _) trivial hfree
  rcases h 0 2 _ ((reachable_firstFreed trivial).step hstep) with ⟨blocks, hblocks⟩
  have hlast : (bothFreed.links .freeList).prev = .pageLink 1 := by decide
  have hself : (bothFreed.links (.pageLink 1)).prev = .pageLink 1 := by decide
  have hmem := Ring.getLastD_mem (blocks.map node) .freeList
  rw [← hblocks.ring.prev_head, hlast, List.mem_cons] at hmem
  exact hblocks.ring.prev_ne_self (hmem.resolve_left (by simp)) hself

end Ucore.DefaultPmm
