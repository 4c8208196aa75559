import Ucore.Library.Extent
import Ucore.Mm.DefaultPmm

/-!
# The free list of the first-fit allocator

`Holds` relates a state of the allocator to the list of its free blocks and the list of the
allocations still in use. Each operation on the free list comes with one lemma that says what it
does to the two lists: `takeBlock` moves pages to an allocation, an insertion puts a block at its
place in address order, and `absorb` makes one block out of two neighbours. Coalescing then
restores the gap between any two blocks.
-/

namespace Ucore.DefaultPmm

open Library

/-- The list node of a block. -/
def node (block : Extent) : FreeNode := .pageLink block.start

/-- The pages of `[lo, lo + n)` and the free list describe the free blocks, in the order of the
list, and the allocations in use. -/
structure Holds (s : State) (lo n : ℕ) (blocks live : List Extent) : Prop where
  ring : Ring s.links .freeList (blocks.map node)
  property : ∀ block ∈ blocks, (s.pages block.start).property = block.length
  head : ∀ page, lo ≤ page → page < lo + n →
    ((s.pages page).Property ↔ ∃ block ∈ blocks, block.start = page)
  unreserved : ∀ page, lo ≤ page → page < lo + n → ¬(s.pages page).Reserved
  positive : ∀ extent ∈ blocks ++ live, 0 < extent.length
  within : ∀ extent ∈ blocks ++ live, lo ≤ extent.start ∧ extent.stop ≤ lo + n
  separate : (blocks ++ live).Pairwise Extent.Separate
  nrFree : s.nrFree = Extent.total blocks
  small : Extent.total (blocks ++ live) < 2 ^ 32

/-! ## Page descriptors -/

theorem sweep_eq {ok : Page → Prop} [DecidablePred ok] {reset : Page → Page} {base n : ℕ}
    {pages : ℕ → Page} (h : ∀ p, base ≤ p → p < base + n → ok (pages p)) :
    sweep ok reset base n pages =
      .ok fun p ↦ if base ≤ p ∧ p < base + n then reset (pages p) else pages p := by
  induction n generalizing base pages with
  | zero =>
    have hnone : ∀ p, ¬(base ≤ p ∧ p < base + 0) := fun p ↦ by omega
    simp only [sweep, hnone, if_false]
  | succ n ih =>
    rw [sweep, Outcome.require_of_true (h base le_rfl (by omega)), Outcome.ok_bind, ih]
    · congr 1
      funext p
      by_cases hp : p = base
      · subst hp
        have hout : ¬(p + 1 ≤ p ∧ p < p + 1 + n) := by omega
        have hin : p ≤ p ∧ p < p + (n + 1) := by omega
        simp only [if_neg hout, if_pos hin, Function.update_self]
      · have hiff : (base + 1 ≤ p ∧ p < base + 1 + n) ↔ (base ≤ p ∧ p < base + (n + 1)) := by omega
        simp only [hiff, Function.update_of_ne hp]
    · intro p hlow hhigh
      rw [Function.update_of_ne (by omega)]
      exact h p (by omega) (by omega)

@[simp]
theorem setPage_pages (s : State) (index : ℕ) (page : Page) (other : ℕ) :
    (s.setPage index page).pages other = if other = index then page else s.pages other := by
  by_cases h : other = index <;> simp [State.setPage, h]

@[simp]
theorem setPage_links (s : State) (index : ℕ) (page : Page) :
    (s.setPage index page).links = s.links := rfl

@[simp]
theorem setPage_nrFree (s : State) (index : ℕ) (page : Page) :
    (s.setPage index page).nrFree = s.nrFree := rfl

theorem setHead_property_flag (page : Page) (property : ℕ) :
    Page.Property { page with property := property, flags := setBit PG_property page.flags } := by
  rw [Page.Property, testBit_setBit (by decide)]
  exact Or.inl rfl

theorem setHead_reserved_flag (page : Page) (property : ℕ) :
    Page.Reserved { page with property := property, flags := setBit PG_property page.flags } ↔
      page.Reserved := by
  rw [Page.Reserved, testBit_setBit (by decide)]
  simp [PG_reserved, PG_property, Page.Reserved]

theorem clear_property_flag (page : Page) :
    ¬Page.Property { page with flags := clearBit PG_property page.flags } := by
  rw [Page.Property, testBit_clearBit (by decide)]
  exact fun h ↦ h.1 rfl

theorem clear_reserved_flag (page : Page) :
    Page.Reserved { page with flags := clearBit PG_property page.flags } ↔ page.Reserved := by
  rw [Page.Reserved, testBit_clearBit (by decide)]
  simp [PG_reserved, PG_property, Page.Reserved]

/-! ## Insertion -/

/-- The list is empty, or its last block lies above `base`: the loop of the insertion then stops
before it reaches the end of the list. -/
def HasPlace (links : Links FreeNode) (base : ℕ) : Prop :=
  listEmpty links .freeList ∨
    match listPrev links .freeList with
    | .freeList => False
    | .pageLink page => base < page

theorem scan_insertStep {links : Links FreeNode} {left right : List Extent} {next : Extent}
    {base : ℕ} (hleft : ∀ block ∈ left, block.start < base ∧ listNext links (node block) ≠ .freeList)
    (hnext : base < next.start) :
    scan (insertStep base) .ok ((left ++ next :: right).map node) links =
      .ok (listAddBefore links (node next) (.pageLink base)) := by
  induction left with
  | nil => simp [scan, insertStep, node, hnext]
  | cons block left ih =>
    rcases hleft block (by simp) with ⟨hlt, hmore⟩
    have hstep : insertStep base links (node block) = .ok (.inl links) := by
      simp only [insertStep, node, if_neg (Nat.lt_asymm hlt)]
      exact if_neg hmore
    simp only [List.cons_append, List.map_cons, scan, hstep, Outcome.ok_bind]
    exact ih fun other hother ↦ hleft other (by simp [hother])

/-- Where the new node goes when it has a place. -/
theorem returns_insertFreeList {links : Links FreeNode} {left right : List Extent} {base : ℕ}
    (hring : Ring links .freeList ((left ++ right).map node))
    (hleft : ∀ block ∈ left, block.start < base) (hright : ∀ block ∈ right, base < block.start)
    (hplace : HasPlace links base) :
    ∃ links', Returns (fun fuel ↦ insertFreeList fuel links base) links' ∧
      Ring links' .freeList (left.map node ++ .pageLink base :: right.map node) := by
  have hfresh : FreeNode.pageLink base ∉ FreeNode.freeList :: (left.map node ++ right.map node) := by
    simp only [List.mem_cons, List.mem_append, List.mem_map, node, FreeNode.pageLink.injEq,
      reduceCtorEq, false_or, not_or, not_exists, not_and]
    exact ⟨fun block hblock ↦ (hleft block hblock).ne, fun block hblock ↦ (hright block hblock).ne'⟩
  rw [List.map_append] at hring
  cases right with
  | nil =>
    -- nothing lies above `base`, so the list has to be empty
    have hempty : left = [] := by
      rcases hplace with hempty | hlast
      · simpa using (listEmpty_iff hring).mp hempty
      · rcases List.eq_nil_or_concat left with rfl | ⟨init, last, rfl⟩
        · rfl
        · have hprev : listPrev links .freeList = node last := by
            rw [listPrev, hring.prev_head]
            simp
          simp only [hprev, node] at hlast
          have hlt := hleft last (by simp)
          omega
    subst hempty
    refine ⟨listAdd links .freeList (.pageLink base), Returns.of_eq fun fuel ↦ ?_, ?_⟩
    · rw [insertFreeList, if_pos ((listEmpty_iff hring).mpr rfl)]
    · exact ring_listAdd_head hring hfresh
  | cons next right =>
    have hlow := hright next (by simp)
    have hmore : ∀ block ∈ left, block.start < base ∧ listNext links (node block) ≠ .freeList := by
      refine fun block hblock ↦ ⟨hleft block hblock, ?_⟩
      rcases List.append_of_mem hblock with ⟨before, after, rfl⟩
      have hsplit : Ring links .freeList
          (before.map node ++ node block :: (after ++ next :: right).map node) := by
        simpa using hring
      rw [listNext, hsplit.next_eq]
      cases after <;> simp [node]
    refine ⟨listAddBefore links (node next) (.pageLink base), ?_, ?_⟩
    · have hnonempty : ¬listEmpty links .freeList := by
        rw [listEmpty_iff hring]
        simp
      have hscan : scan (insertStep base) .ok (left.map node ++ (next :: right).map node) links =
          .ok (listAddBefore links (node next) (.pageLink base)) := by
        rw [← List.map_append]
        exact scan_insertStep hmore hlow
      have hwalk : Returns (fun fuel ↦ walk id .freeList (insertStep base) .ok fuel links .freeList)
          (listAddBefore links (node next) (.pageLink base)) := by
        refine returns_walk (fun other ↦ other = links) ?_ ?_ rfl hscan
        · rintro other rfl
          exact hring
        · -- no round changes the links and goes on
          rintro other cursor after hcursor rfl hstep
          simp only [← List.map_append, List.mem_map, List.mem_append] at hcursor
          rcases hcursor with ⟨block, hblock | hblock, rfl⟩
          · have hnext : ¬listNext other (.pageLink block.start) = .freeList := (hmore block hblock).2
            simp only [insertStep, node, if_neg (Nat.lt_asymm (hmore block hblock).1),
              if_neg hnext] at hstep
            simpa using hstep.symm
          · simp [insertStep, node, hright block hblock] at hstep
      exact hwalk.congr fun fuel ↦ by rw [insertFreeList, if_neg hnonempty]
    · rw [List.map_cons] at hring hfresh ⊢
      exact ring_listAddBefore hring hfresh

/-! ## Taking pages from a block -/

theorem takeBlock_nrFree (s : State) (page k : ℕ) :
    (takeBlock s page k).nrFree = uint32 (uint64Sub s.nrFree k) := by
  unfold takeBlock
  dsimp only
  split <;> rfl

theorem takeBlock_pages (s : State) {page k : ℕ} (hk : 0 < k) (other : ℕ) :
    (takeBlock s page k).pages other =
      if other = page then
        { s.pages page with flags := clearBit PG_property (s.pages page).flags }
      else if k < (s.pages page).property ∧ other = page + k then
        { s.pages other with
          property := uint32 (uint64Sub (s.pages page).property k)
          flags := setBit PG_property (s.pages other).flags }
      else s.pages other := by
  unfold takeBlock
  dsimp only
  by_cases hlt : k < (s.pages page).property
  · simp only [State.clearPageProperty, State.setHead, setPage_pages, hlt, true_and]
    by_cases hpage : other = page
    · simp [hpage, hk.ne']
    · by_cases hrest : other = page + k <;> simp [hpage, hrest, hk.ne']
  · simp only [State.clearPageProperty, setPage_pages, hlt, false_and, if_false]

theorem ring_takeBlock {s : State} {left right : List Extent} {block : Extent} {k : ℕ}
    (hring : Ring s.links .freeList ((left ++ block :: right).map node))
    (hproperty : (s.pages block.start).property = block.length)
    (hfresh : k < block.length → ∀ other ∈ left ++ right, other.start ≠ block.start + k) :
    Ring (takeBlock s block.start k).links .freeList ((left ++ block.remainder k ++ right).map node) := by
  rw [List.map_append, List.map_cons] at hring
  have hdel := ring_listDel hring
  have hprev : listPrev s.links (node block) = (left.map node).getLastD .freeList := hring.prev_eq
  by_cases hlt : k < block.length
  · have hnew : FreeNode.pageLink (block.start + k) ∉
        FreeNode.freeList :: (left.map node ++ right.map node) := by
      simp only [← List.map_append, List.mem_cons, List.mem_map, node, FreeNode.pageLink.injEq,
        reduceCtorEq, false_or, not_exists, not_and]
      exact hfresh hlt
    have hadd := ring_listAdd hdel hnew
    rw [← hprev] at hadd
    simpa [takeBlock, State.clearPageProperty, State.setHead, hproperty, hlt, Extent.remainder, node] using hadd
  · simpa [takeBlock, State.clearPageProperty, hproperty, hlt, Extent.remainder, node] using hdel

theorem perm_block (left right live : List Extent) (block : Extent) :
    ((left ++ block :: right) ++ live).Perm (block :: (left ++ right ++ live)) := by
  rw [List.append_assoc, List.append_assoc]
  exact List.perm_middle

/-- The facts about one block and all other extents. -/
theorem Holds.around {s : State} {lo n : ℕ} {left right live : List Extent} {block : Extent}
    (h : Holds s lo n (left ++ block :: right) live) :
    0 < block.length ∧ lo ≤ block.start ∧ block.stop ≤ lo + n ∧
    (∀ other ∈ left ++ right ++ live, Extent.Separate block other) ∧
    (left ++ right ++ live).Pairwise Extent.Separate ∧
    (∀ other ∈ left ++ right ++ live, 0 < other.length) ∧
    ∀ other ∈ left ++ right ++ live, lo ≤ other.start ∧ other.stop ≤ lo + n := by
  have hperm := perm_block left right live block
  have hpairwise := (hperm.pairwise_iff Extent.Separate.symm).mp h.separate
  have hmem : ∀ other ∈ left ++ right ++ live, other ∈ (left ++ block :: right) ++ live :=
    fun other hother ↦ hperm.mem_iff.mpr (List.mem_cons_of_mem _ hother)
  have hblock : block ∈ (left ++ block :: right) ++ live := by simp
  exact ⟨h.positive block hblock, (h.within block hblock).1, (h.within block hblock).2,
    (List.pairwise_cons.mp hpairwise).1, (List.pairwise_cons.mp hpairwise).2,
    fun other hother ↦ h.positive other (hmem other hother),
    fun other hother ↦ h.within other (hmem other hother)⟩

/-- The heads after a step of `takeBlock`: the block loses its head, the remainder gets one. -/
theorem head_takeBlock {s : State} {lo n k : ℕ} {left right live : List Extent} {block : Extent}
    (h : Holds s lo n (left ++ block :: right) live) (hk : 0 < k)
    (hinside : ∀ other ∈ left ++ right, ∀ offset < block.length,
      other.start ≠ block.start + offset) :
    ∀ page, lo ≤ page → page < lo + n → (((takeBlock s block.start k).pages page).Property ↔
      ∃ other ∈ left ++ block.remainder k ++ right, other.start = page) := by
  have hpositive := h.around.1
  have hproperty : (s.pages block.start).property = block.length := h.property block (by simp)
  intro page hlow hhigh
  have hnew : (∃ other ∈ left ++ block.remainder k ++ right, other.start = page) ↔
      (k < block.length ∧ page = block.start + k) ∨ ∃ other ∈ left ++ right, other.start = page := by
    simp only [List.mem_append, Extent.mem_remainder]
    constructor
    · rintro ⟨other, (hother | ⟨hlt, rfl⟩) | hother, rfl⟩
      · exact Or.inr ⟨other, Or.inl hother, rfl⟩
      · exact Or.inl ⟨hlt, rfl⟩
      · exact Or.inr ⟨other, Or.inr hother, rfl⟩
    · rintro (⟨hlt, rfl⟩ | ⟨other, hother | hother, rfl⟩)
      · exact ⟨⟨block.start + k, block.length - k⟩, Or.inl (Or.inr ⟨hlt, rfl⟩), rfl⟩
      · exact ⟨other, Or.inl (Or.inl hother), rfl⟩
      · exact ⟨other, Or.inr hother, rfl⟩
  rw [takeBlock_pages s hk, hproperty, hnew]
  by_cases hpage : page = block.start
  · rw [if_pos hpage]
    refine iff_of_false (clear_property_flag _) ?_
    rintro (⟨-, heq⟩ | ⟨other, hother, heq⟩)
    · omega
    · exact hinside other hother 0 hpositive (heq.trans hpage)
  · rw [if_neg hpage]
    by_cases hrest : k < block.length ∧ page = block.start + k
    · rw [if_pos hrest]
      exact iff_of_true (setHead_property_flag _ _) (Or.inl hrest)
    · rw [if_neg hrest, h.head page hlow hhigh]
      have hne : ¬block.start = page := fun heq ↦ hpage heq.symm
      simp [hrest, hne, or_and_right, exists_or]

/-- The taken pages leave the block and become an allocation. -/
theorem holds_takeBlock {s : State} {lo n k : ℕ} {left right live : List Extent} {block : Extent}
    (h : Holds s lo n (left ++ block :: right) live) (hk : 0 < k) (hle : k ≤ block.length) :
    Holds (takeBlock s block.start k) lo n (left ++ block.remainder k ++ right)
      (block.prefixOf k :: live) := by
  rcases h.around with ⟨hpositive, hlow, hhigh, hseparate, hothers, hpositives, hwithin⟩
  have hproperty : (s.pages block.start).property = block.length := h.property block (by simp)
  have hstop : block.stop = block.start + block.length := rfl
  -- an extent that starts inside the block is the block
  have hinside : ∀ other ∈ left ++ right, ∀ offset < block.length,
      other.start ≠ block.start + offset := fun other hother offset hoffset ↦
    (hseparate other (List.mem_append_left live hother)).start_ne_add
      (hpositives other (List.mem_append_left live hother)) hoffset
  have hstart : ∀ other ∈ left ++ right, other.start ≠ block.start := fun other hother ↦
    hinside other hother 0 hpositive
  have hunchanged : ∀ other ∈ left ++ right,
      (takeBlock s block.start k).pages other.start = s.pages other.start := by
    intro other hother
    rw [takeBlock_pages s hk, hproperty, if_neg (hstart other hother),
      if_neg fun heq ↦ hinside other hother k heq.1 heq.2]
  have hsmall : Extent.total left + block.length + Extent.total right + Extent.total live < 2 ^ 32 := by
    simpa [Nat.add_assoc] using h.small
  have hnrFree : s.nrFree = Extent.total left + block.length + Extent.total right := by
    simpa [Nat.add_assoc] using h.nrFree
  -- the extents after the step, with those made from the block in front
  have hperm : ((left ++ block.remainder k ++ right) ++ (block.prefixOf k :: live)).Perm
      (block.remainder k ++ block.prefixOf k :: (left ++ right ++ live)) := by
    rw [List.perm_iff_count]
    intro extent
    simp only [List.count_append, List.count_cons]
    omega
  have hmem : ∀ extent ∈ (left ++ block.remainder k ++ right) ++ (block.prefixOf k :: live),
      (k < block.length ∧ extent = ⟨block.start + k, block.length - k⟩) ∨
        extent = block.prefixOf k ∨ extent ∈ left ++ right ++ live := by
    intro extent hextent
    have h := hperm.mem_iff.mp hextent
    rw [List.mem_append, List.mem_cons, Extent.mem_remainder] at h
    exact h
  constructor
  · exact ring_takeBlock h.ring hproperty fun hlt other hother ↦ hinside other hother k hlt
  · intro other hother
    rw [List.append_assoc, List.mem_append, List.mem_append] at hother
    rcases hother with hother | hother | hother
    · rw [hunchanged other (List.mem_append_left _ hother)]
      exact h.property other (by simp [hother])
    · rcases Extent.mem_remainder.mp hother with ⟨hlt, rfl⟩
      have hne : ¬block.start + k = block.start := by omega
      rw [takeBlock_pages s hk, hproperty, if_neg hne, if_pos ⟨hlt, rfl⟩]
      dsimp only
      rw [uint64Sub_of_le hle (by omega), uint32_of_lt (by omega)]
    · rw [hunchanged other (List.mem_append_right _ hother)]
      exact h.property other (by simp [hother])
  · exact head_takeBlock h hk hinside
  · intro page hpageLow hpageHigh
    have hunreserved := h.unreserved page hpageLow hpageHigh
    rw [takeBlock_pages s hk]
    split
    · rename_i hpage
      rw [clear_reserved_flag, ← hpage]
      exact hunreserved
    · split
      · rw [setHead_reserved_flag]
        exact hunreserved
      · exact hunreserved
  · intro extent hextent
    rcases hmem extent hextent with ⟨hlt, rfl⟩ | rfl | hextent
    · exact Nat.sub_pos_of_lt hlt
    · exact hk
    · exact hpositives extent hextent
  · intro extent hextent
    rcases hmem extent hextent with ⟨hlt, rfl⟩ | rfl | hextent
    · simp only [Extent.stop] at *
      omega
    · simp only [Extent.stop, Extent.prefixOf] at *
      omega
    · exact hwithin extent hextent
  · exact (hperm.pairwise_iff Extent.Separate.symm).mpr
      (Extent.pairwise_separate_split (List.pairwise_cons.mpr ⟨hseparate, hothers⟩) hle)
  · rw [takeBlock_nrFree, uint64Sub_of_le (by omega) (by omega), uint32_of_lt (by omega), hnrFree]
    simp only [Extent.total_append, Extent.total_remainder]
    omega
  · rw [Extent.total_perm hperm]
    simp only [Extent.total_append, Extent.total_cons, Extent.total_remainder, Extent.prefixOf]
    omega

/-! ## Returning pages -/

/-- The descriptors of an allocation are reset and its first page becomes a block head, while the
node of that page is put at its place: the allocation becomes a block. -/
theorem holds_insert {s : State} {lo n : ℕ} {left right live : List Extent} {extent : Extent}
    {links : Links FreeNode} (h : Holds s lo n (left ++ right) (extent :: live))
    (hring : Ring links .freeList ((left ++ extent :: right).map node)) :
    Holds { State.setHead { s with pages := fun p ↦
        if extent.start ≤ p ∧ p < extent.start + extent.length then
          { s.pages p with flags := 0, ref := 0 } else s.pages p } extent.start
            (uint32 extent.length) with
          nrFree := uint32 (s.nrFree + extent.length), links := links }
      lo n (left ++ extent :: right) live := by
  have hperm : ((left ++ extent :: right) ++ live).Perm ((left ++ right) ++ extent :: live) := by
    rw [List.perm_iff_count]
    intro other
    simp only [List.count_append, List.count_cons]
    omega
  have hsmall := h.small
  rw [← Extent.total_perm hperm] at hsmall
  have hlength : Extent.total left + extent.length + Extent.total right + Extent.total live < 2 ^ 32 := by
    simpa [Nat.add_assoc] using hsmall
  have hpositive := h.positive extent (by simp)
  have hseparate : ∀ other ∈ left ++ right, Extent.Separate extent other := fun other hother ↦
    ((List.pairwise_append.mp h.separate).2.2 other hother extent (by simp)).symm
  have hstart : ∀ other ∈ left ++ right, ∀ offset < extent.length,
      other.start ≠ extent.start + offset := fun other hother offset hoffset ↦
    (hseparate other hother).start_ne_add (h.positive other (List.mem_append_left _ hother)) hoffset
  -- pages of other blocks are not swept
  have hout : ∀ other ∈ left ++ right,
      ¬(extent.start ≤ other.start ∧ other.start < extent.start + extent.length) := by
    intro other hother hin
    exact hstart other hother (other.start - extent.start) (by omega) (by omega)
  constructor
  · exact hring
  · intro other hother
    rw [List.mem_append, List.mem_cons] at hother
    simp only [State.setHead, setPage_pages]
    by_cases heq : other = extent
    · subst heq
      simp only [if_true]
      exact uint32_of_lt (by omega)
    · have hother : other ∈ left ++ right := by
        rw [List.mem_append]
        tauto
      have hne : ¬other.start = extent.start := hstart other hother 0 hpositive
      rw [if_neg hne, if_neg (hout other hother)]
      exact h.property other hother
  · intro page hlow hhigh
    simp only [State.setHead, setPage_pages]
    have hblock : (∃ other ∈ left ++ extent :: right, other.start = page) ↔
        page = extent.start ∨ ∃ other ∈ left ++ right, other.start = page := by
      simp only [List.mem_append, List.mem_cons, or_and_right, exists_or, exists_eq_left]
      rw [or_left_comm, eq_comm]
    rw [hblock]
    by_cases hpage : page = extent.start
    · rw [if_pos hpage]
      exact iff_of_true (setHead_property_flag _ _) (Or.inl hpage)
    · rw [if_neg hpage]
      by_cases hin : extent.start ≤ page ∧ page < extent.start + extent.length
      · rw [if_pos hin]
        refine iff_of_false (by simp [Page.Property]) ?_
        rintro (heq | ⟨other, hother, rfl⟩)
        · exact hpage heq
        · exact hout other hother hin
      · rw [if_neg hin, h.head page hlow hhigh]
        simp [hpage]
  · intro page hlow hhigh
    have hunreserved := h.unreserved page hlow hhigh
    simp only [State.setHead, setPage_pages]
    by_cases hpage : page = extent.start
    · rw [if_pos hpage, setHead_reserved_flag]
      split
      · simp [Page.Reserved]
      · rw [← hpage]
        exact hunreserved
    · rw [if_neg hpage]
      split
      · simp [Page.Reserved]
      · exact hunreserved
  · exact fun other hother ↦ h.positive other (hperm.mem_iff.mp hother)
  · exact fun other hother ↦ h.within other (hperm.mem_iff.mp hother)
  · exact (hperm.pairwise_iff Extent.Separate.symm).mpr h.separate
  · have hnrFree : s.nrFree = Extent.total left + Extent.total right := by simpa using h.nrFree
    simp only [Extent.total_append, Extent.total_cons]
    rw [uint32_of_lt (by omega), hnrFree]
    omega
  · exact hsmall

theorem absorb_pages (s : State) {low high : ℕ} (hne : low ≠ high) (other : ℕ) :
    (absorb s low high).pages other =
      if other = high then
        { s.pages high with flags := clearBit PG_property (s.pages high).flags }
      else if other = low then
        { s.pages low with property := uint32 ((s.pages low).property + (s.pages high).property) }
      else s.pages other := by
  simp only [absorb, State.clearPageProperty, setPage_pages, if_neg (Ne.symm hne)]

theorem head_absorb {s : State} {left right : List Extent} {low high : Extent} {page : ℕ}
    (hne : low.start ≠ high.start)
    (hothers : ∀ other ∈ left ++ right, other.start ≠ low.start ∧ other.start ≠ high.start)
    (hold : (s.pages page).Property ↔ ∃ block ∈ left ++ low :: high :: right, block.start = page) :
    ((absorb s low.start high.start).pages page).Property ↔
      ∃ block ∈ left ++ low.join high :: right, block.start = page := by
  have hblocks : (∃ block ∈ left ++ low :: high :: right, block.start = page) ↔
      low.start = page ∨ high.start = page ∨ ∃ block ∈ left ++ right, block.start = page := by
    simp only [List.mem_append, List.mem_cons, or_and_right, exists_or, exists_eq_left,
      or_left_comm]
  have hnew : (∃ block ∈ left ++ low.join high :: right, block.start = page) ↔
      low.start = page ∨ ∃ block ∈ left ++ right, block.start = page := by
    simp only [List.mem_append, List.mem_cons, or_and_right, exists_or, exists_eq_left,
      or_left_comm, Extent.join]
  rw [absorb_pages s hne, hnew]
  rw [hblocks] at hold
  by_cases hpage : page = high.start
  · rw [if_pos hpage]
    refine iff_of_false (clear_property_flag _) ?_
    rintro (heq | ⟨other, hother, rfl⟩)
    · exact hne (heq.trans hpage)
    · exact (hothers other hother).2 hpage
  · have hhigh : ¬high.start = page := fun heq ↦ hpage heq.symm
    rw [if_neg hpage]
    simp only [hhigh, false_or] at hold
    by_cases hlow : page = low.start
    · rw [if_pos hlow, ← hlow]
      rw [← hlow] at hold
      exact hold
    · rw [if_neg hlow]
      exact hold

/-- Two neighbouring blocks that touch become one. -/
theorem holds_absorb {s : State} {lo n : ℕ} {left right live : List Extent} {low high : Extent}
    (h : Holds s lo n (left ++ low :: high :: right) live) (htouch : low.stop = high.start) :
    Holds (absorb s low.start high.start) lo n (left ++ low.join high :: right) live := by
  have hperm : ((left ++ low :: high :: right) ++ live).Perm
      (low :: high :: (left ++ right ++ live)) := by
    rw [List.perm_iff_count]
    intro other
    simp only [List.count_append, List.count_cons]
    omega
  have hjoined : ((left ++ low.join high :: right) ++ live).Perm
      (low.join high :: (left ++ right ++ live)) := perm_block ..
  have hwider : ∀ extent ∈ left ++ right ++ live,
      extent ∈ low :: high :: (left ++ right ++ live) := fun extent hextent ↦
    List.mem_cons_of_mem _ (List.mem_cons_of_mem _ hextent)
  have hpositive := fun extent hextent ↦ h.positive extent (hperm.mem_iff.mpr hextent)
  have hwithin := fun extent hextent ↦ h.within extent (hperm.mem_iff.mpr hextent)
  have hseparate := (hperm.pairwise_iff Extent.Separate.symm).mp h.separate
  have hlowPositive := hpositive low (by simp)
  have hhighPositive := hpositive high (by simp)
  have htotal : Extent.total ((left ++ low.join high :: right) ++ live) =
      Extent.total ((left ++ low :: high :: right) ++ live) := by
    rw [Extent.total_perm hjoined, Extent.total_perm hperm]
    simp only [Extent.total_cons, Extent.join]
    omega
  have hne : low.start ≠ high.start := by
    simp only [Extent.stop] at htouch
    omega
  have hothers : ∀ other ∈ left ++ right, other.start ≠ low.start ∧ other.start ≠ high.start := by
    intro other hother
    have hmem : other ∈ left ++ right ++ live := List.mem_append_left _ hother
    rw [List.pairwise_cons, List.pairwise_cons] at hseparate
    have hotherPositive := hpositive other (hwider other hmem)
    exact ⟨((hseparate.1 other (List.mem_cons_of_mem _ hmem)).start_ne hlowPositive hotherPositive).symm,
      ((hseparate.2.1 other hmem).start_ne hhighPositive hotherPositive).symm⟩
  have hlowProperty := h.property low (by simp)
  have hhighProperty := h.property high (by simp)
  constructor
  · have hring := h.ring
    rw [List.map_append, List.map_cons, List.map_cons, List.append_cons] at hring
    have hdel := ring_listDel hring
    simpa [absorb, State.clearPageProperty, node, Extent.join] using hdel
  · intro other hother
    rw [List.mem_append, List.mem_cons] at hother
    rw [absorb_pages s hne]
    by_cases heq : other = low.join high
    · subst heq
      have hsmall := h.small
      rw [Extent.total_perm hperm] at hsmall
      simp only [Extent.total_cons] at hsmall
      simp only [Extent.join, if_neg hne, if_true, hlowProperty, hhighProperty]
      exact uint32_of_lt (by omega)
    · have hother : other ∈ left ++ right := by
        rw [List.mem_append]
        tauto
      rw [if_neg (hothers other hother).2, if_neg (hothers other hother).1]
      refine h.property other ?_
      simp only [List.mem_append, List.mem_cons] at hother ⊢
      tauto
  · exact fun page hpageLow hpageHigh ↦ head_absorb hne hothers (h.head page hpageLow hpageHigh)
  · intro page hpageLow hpageHigh
    have hunreserved := h.unreserved page hpageLow hpageHigh
    rw [absorb_pages s hne]
    split
    · rename_i hpage
      rw [clear_reserved_flag, ← hpage]
      exact hunreserved
    · split
      · rename_i hpage
        rw [hpage] at hunreserved
        exact hunreserved
      · exact hunreserved
  · intro extent hextent
    rcases List.mem_cons.mp (hjoined.mem_iff.mp hextent) with rfl | hextent
    · exact Nat.add_pos_left hlowPositive _
    · exact hpositive extent (hwider extent hextent)
  · intro extent hextent
    rcases List.mem_cons.mp (hjoined.mem_iff.mp hextent) with rfl | hextent
    · have hlow := (hwithin low (by simp)).1
      have hhigh := (hwithin high (by simp)).2
      simp only [Extent.stop, Extent.join] at *
      omega
    · exact hwithin extent (hwider extent hextent)
  · exact (hjoined.pairwise_iff Extent.Separate.symm).mpr (Extent.pairwise_separate_join hseparate htouch
      fun other hother ↦ hpositive other (hwider other hother))
  · have hnrFree : s.nrFree = Extent.total (left ++ low :: high :: right) := h.nrFree
    have hsame : (absorb s low.start high.start).nrFree = s.nrFree := rfl
    rw [hsame, hnrFree]
    simp only [Extent.total_append, Extent.total_cons, Extent.join]
    omega
  · rw [htotal]
    exact h.small

end Ucore.DefaultPmm
