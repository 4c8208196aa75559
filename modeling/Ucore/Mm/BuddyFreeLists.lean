import Mathlib.Algebra.BigOperators.Group.Finset.Basic
import Mathlib.Data.Nat.Log
import Mathlib.Tactic.Ring
import Ucore.Mm.BuddySystem
import Ucore.Mm.DefaultPmmFreeList

/-!
# The free lists of the buddy system

`Holds` relates a state to the lists of free blocks, one for each order, and to the allocations in
use. Splitting takes the first block of the next list that is not empty, and leaves its right half
in each list on the way down to the order that is asked for.
-/

namespace Ucore.BuddySystem

open Library
open DefaultPmm (Page PG_property sweep sweep_eq)

/-! ## Powers of two -/

theorem log2Loop_eq (order n : ℕ) : log2Loop order n = order + Nat.log 2 n := by
  induction order, n using log2Loop.induct with
  | case1 order n h ih =>
    have hhalf : n >>> 1 = n / 2 := Nat.shiftRight_eq_div_pow n 1
    have hlog : Nat.log 2 n = Nat.log 2 (n / 2) + 1 := Nat.log_of_one_lt_of_le (by decide) h
    rw [log2Loop, dif_pos h, ih, hhalf, hlog]
    omega
  | case2 order n h =>
    rw [log2Loop, dif_neg h, Nat.log_of_lt (by omega), Nat.add_zero]

theorem log2_eq (n : ℕ) : log2 n = Nat.log 2 n := by
  rw [log2, log2Loop_eq, Nat.zero_add]

theorem roundDownLoop_eq (ret n : ℕ) : roundDownLoop ret n = ret * 2 ^ Nat.log 2 n := by
  induction ret, n using roundDownLoop.induct with
  | case1 ret n h ih =>
    have hhalf : n >>> 1 = n / 2 := Nat.shiftRight_eq_div_pow n 1
    have hlog : Nat.log 2 n = Nat.log 2 (n / 2) + 1 := Nat.log_of_one_lt_of_le (by decide) h
    rw [roundDownLoop, dif_pos h, ih, hhalf, Nat.shiftLeft_eq, hlog]
    ring
  | case2 ret n h =>
    rw [roundDownLoop, dif_neg h, Nat.log_of_lt (by omega), Nat.pow_zero, Nat.mul_one]

theorem roundDownPowerOf2_eq (n : ℕ) : roundDownPowerOf2 n = 2 ^ Nat.log 2 n := by
  rw [roundDownPowerOf2, roundDownLoop_eq, Nat.one_mul]

theorem roundUpPowerOf2_eq {n : ℕ} (h : 0 < n) : roundUpPowerOf2 n = 2 ^ Nat.clog 2 n := by
  have hle : 2 ^ Nat.log 2 n ≤ n := Nat.pow_log_le_self 2 h.ne'
  have hlt : n < 2 ^ (Nat.log 2 n + 1) := Nat.lt_pow_succ_log_self (by decide) n
  rw [roundUpPowerOf2, roundDownPowerOf2_eq]
  split
  · rename_i heq
    have hclog : Nat.clog 2 n = Nat.log 2 n := by
      conv_lhs => rw [heq]
      exact Nat.clog_pow 2 _ (by decide)
    rw [hclog]
  · rename_i hne
    have hclog : Nat.clog 2 n = Nat.log 2 n + 1 := by
      refine le_antisymm (Nat.clog_le_of_le_pow hlt.le) ?_
      exact (Nat.lt_clog_iff_pow_lt (by decide)).mpr (lt_of_le_of_ne hle (Ne.symm hne))
    rw [hclog, Nat.shiftLeft_eq, Nat.pow_one, ← Nat.pow_succ]

theorem log2_roundUpPowerOf2 {n : ℕ} (h : 0 < n) : log2 (roundUpPowerOf2 n) = Nat.clog 2 n := by
  rw [log2_eq, roundUpPowerOf2_eq h, Nat.log_pow (by decide)]

/-! ## Stores -/

section Stores

variable (s : Buddy) (index property other : ℕ) (listelm elm : BuddyNode)

theorem setPage_pages (page : Page) :
    (s.setPage index page).pages other = if other = index then page else s.pages other := by
  by_cases h : other = index <;> simp [Buddy.setPage, h]

@[simp]
theorem setProperty_property :
    ((s.setProperty index property).pages other).property =
      if other = index then property else (s.pages other).property := by
  by_cases h : other = index <;> simp [Buddy.setProperty, Buddy.setPage, h]

@[simp]
theorem setProperty_flag :
    ((s.setProperty index property).pages other).Property ↔ (s.pages other).Property := by
  by_cases h : other = index <;> simp [Buddy.setProperty, Buddy.setPage, h, Page.Property]

@[simp]
theorem setPageProperty_property :
    ((s.setPageProperty index).pages other).property = (s.pages other).property := by
  by_cases h : other = index <;> simp [Buddy.setPageProperty, Buddy.setPage, h]

@[simp]
theorem setPageProperty_flag :
    ((s.setPageProperty index).pages other).Property ↔
      other = index ∨ (s.pages other).Property := by
  by_cases h : other = index
  · subst h
    refine iff_of_true ?_ (Or.inl rfl)
    rw [Page.Property, Buddy.setPageProperty, setPage_pages, if_pos rfl,
      testBit_setBit (by decide)]
    exact Or.inl rfl
  · simp [Buddy.setPageProperty, Buddy.setPage, h]

@[simp]
theorem clearPageProperty_property :
    ((s.clearPageProperty index).pages other).property = (s.pages other).property := by
  by_cases h : other = index <;> simp [Buddy.clearPageProperty, Buddy.setPage, h]

@[simp]
theorem clearPageProperty_flag :
    ((s.clearPageProperty index).pages other).Property ↔
      other ≠ index ∧ (s.pages other).Property := by
  by_cases h : other = index
  · subst h
    refine iff_of_false ?_ fun h ↦ h.1 rfl
    rw [Page.Property, Buddy.clearPageProperty, setPage_pages, if_pos rfl,
      testBit_clearBit (by decide)]
    exact fun h ↦ h.1 rfl
  · simp [Buddy.clearPageProperty, Buddy.setPage, h]

@[simp]
theorem setProperty_links : (s.setProperty index property).links = s.links := rfl

@[simp]
theorem setPageProperty_links : (s.setPageProperty index).links = s.links := rfl

@[simp]
theorem clearPageProperty_links : (s.clearPageProperty index).links = s.links := rfl

@[simp]
theorem listAdd_pages : (s.listAdd listelm elm).pages = s.pages := rfl

@[simp]
theorem listDel_pages : (s.listDel listelm).pages = s.pages := rfl

end Stores

/-! ## Lists of pages -/

/-- The links hold one list of pages for each order. -/
def FreeLists (links : Links BuddyNode) (lists : ℕ → List ℕ) : Prop :=
  RingFamily links .freeArray {order | order < MAX_ORDER}
    fun order ↦ (lists order).map .pageLink

section FreeLists

variable {links : Links BuddyNode} {lists others : ℕ → List ℕ} {left right rest : List ℕ}
  {order page first : ℕ}

theorem map_update (lists : ℕ → List ℕ) (order : ℕ) (pages : List ℕ) :
    (fun other ↦ (Function.update lists order pages other).map BuddyNode.pageLink) =
      Function.update (fun other ↦ (lists other).map .pageLink) order (pages.map .pageLink) :=
  Function.comp_update (fun pages : List ℕ ↦ pages.map BuddyNode.pageLink) lists order pages

theorem notMem_node (h : ∀ other, page ∉ lists other) (other : ℕ) :
    BuddyNode.pageLink page ∉ BuddyNode.freeArray other :: (lists other).map .pageLink := by
  intro hmem
  rcases List.mem_cons.mp hmem with heq | hmem
  · cases heq
  · rcases List.mem_map.mp hmem with ⟨_, hpage, heq⟩
    cases heq
    exact h other hpage

theorem FreeLists.ring (h : FreeLists links lists) (horder : order < MAX_ORDER) :
    Ring links (.freeArray order) ((lists order).map .pageLink) := RingFamily.ring h order horder

theorem FreeLists.empty_iff (h : FreeLists links lists) (horder : order < MAX_ORDER) :
    listEmpty links (.freeArray order) ↔ lists order = [] := by
  rw [listEmpty_iff (h.ring horder), List.map_eq_nil_iff]

theorem FreeLists.next_eq (h : FreeLists links lists) (horder : order < MAX_ORDER)
    (hlists : lists order = page :: rest) :
    listNext links (.freeArray order) = .pageLink page := by
  have hnext := (h.ring horder).next_head
  rw [hlists, List.map_cons, List.headD_cons] at hnext
  exact hnext

theorem FreeLists.unique (h : FreeLists links lists) (hothers : FreeLists links others)
    (horder : order < MAX_ORDER) : lists order = others order := by
  have hmap := (h.ring horder).unique (hothers.ring horder)
  exact List.map_injective_iff.mpr (fun _ _ ↦ BuddyNode.pageLink.inj) hmap

theorem FreeLists.addFirst (h : FreeLists links lists) (horder : order < MAX_ORDER)
    (hfresh : ∀ other, page ∉ lists other) :
    FreeLists (listAdd links (.freeArray order) (.pageLink page))
      (Function.update lists order (page :: lists order)) := by
  have hnodes : (lists order).map BuddyNode.pageLink = [] ++ (lists order).map .pageLink := rfl
  have hadd := RingFamily.linkBetween h (i := order) horder hnodes
    fun other _ ↦ notMem_node hfresh other
  rw [← (h.ring horder).next_head] at hadd
  rw [FreeLists, map_update]
  exact hadd

theorem FreeLists.addSecond (h : FreeLists links lists) (horder : order < MAX_ORDER)
    (hlists : lists order = first :: rest) (hfresh : ∀ other, page ∉ lists other) :
    FreeLists (listAdd links (.pageLink first) (.pageLink page))
      (Function.update lists order (first :: page :: rest)) := by
  have hnodes : (lists order).map BuddyNode.pageLink = [.pageLink first] ++ rest.map .pageLink := by
    rw [hlists, List.map_cons]
    rfl
  have hnext : (links (.pageLink first)).next = (rest.map BuddyNode.pageLink).headD
      (.freeArray order) := by
    have hring : Ring links (.freeArray order) ([] ++ .pageLink first :: rest.map .pageLink) :=
      hnodes ▸ h.ring horder
    exact hring.next_eq
  have hadd := RingFamily.linkBetween h (i := order) horder hnodes
    fun other _ ↦ notMem_node hfresh other
  rw [← hnext] at hadd
  rw [FreeLists, map_update]
  exact hadd

theorem FreeLists.del (h : FreeLists links lists) (horder : order < MAX_ORDER)
    (hlists : lists order = left ++ page :: right) :
    FreeLists (listDel links (.pageLink page)) (Function.update lists order (left ++ right)) := by
  have hnodes : (lists order).map BuddyNode.pageLink =
      left.map .pageLink ++ .pageLink page :: right.map .pageLink := by
    rw [hlists, List.map_append, List.map_cons]
  have hring := h.ring horder
  rw [hnodes] at hring
  have hdel := RingFamily.joinAround h (i := order) horder hnodes
  rw [← hring.next_eq, ← hring.prev_eq] at hdel
  rw [FreeLists, map_update, List.map_append]
  exact hdel

/-- No page is in two places. -/
structure Unrepeated (lists : ℕ → List ℕ) : Prop where
  nodup : ∀ order, (lists order).Nodup
  one : ∀ order order' page, page ∈ lists order → page ∈ lists order' → order = order'

theorem FreeLists.unrepeated (h : FreeLists links lists)
    (hnone : ∀ order, MAX_ORDER ≤ order → lists order = []) : Unrepeated lists := by
  have hlt : ∀ order page, page ∈ lists order → order < MAX_ORDER := by
    intro order page hpage
    by_contra hge
    rw [hnone order (not_lt.mp hge)] at hpage
    cases hpage
  refine ⟨fun order ↦ ?_, fun order order' page hpage hpage' ↦ ?_⟩
  · rcases Nat.lt_or_ge order MAX_ORDER with horder | hge
    · exact (h.ring horder).nodes_nodup.of_map _
    · rw [hnone order hge]
      exact List.nodup_nil
  · by_contra hne
    exact RingFamily.disjoint h order (hlt order page hpage) order' (hlt order' page hpage') hne
      (List.mem_cons_of_mem _ (List.mem_map_of_mem hpage))
      (List.mem_cons_of_mem _ (List.mem_map_of_mem hpage'))

theorem Unrepeated.mem_del (h : Unrepeated lists) (hlists : lists order = left ++ page :: right)
    (order' other : ℕ) :
    other ∈ Function.update lists order (left ++ right) order' ↔
      other ∈ lists order' ∧ other ≠ page := by
  have hpage : page ∈ lists order := by
    rw [hlists]
    exact List.mem_append_right _ List.mem_cons_self
  by_cases heq : order' = order
  · subst heq
    have hnodup := h.nodup order'
    rw [hlists] at hnodup ⊢
    rw [Function.update_self]
    exact Ring.mem_remove_iff hnodup
  · rw [Function.update_of_ne heq]
    refine ⟨fun hmem ↦ ⟨hmem, ?_⟩, fun hmem ↦ hmem.1⟩
    rintro rfl
    exact heq (h.one _ _ _ hmem hpage)

/-- The first block of a list is taken out of it. -/
theorem Unrepeated.mem_delFirst (h : Unrepeated lists) (hlists : lists order = page :: rest)
    (order' other : ℕ) :
    other ∈ Function.update lists order rest order' ↔ other ∈ lists order' ∧ other ≠ page := by
  have hsplit : lists order = [] ++ page :: rest := hlists
  exact h.mem_del hsplit order' other

theorem FreeLists.delFirst (h : FreeLists links lists) (horder : order < MAX_ORDER)
    (hlists : lists order = page :: rest) :
    FreeLists (listDel links (.pageLink page)) (Function.update lists order rest) := by
  have hsplit : lists order = [] ++ page :: rest := hlists
  exact h.del horder hsplit

theorem mem_add (lists : ℕ → List ℕ) (order page order' other : ℕ) :
    other ∈ Function.update lists order (page :: lists order) order' ↔
      order' = order ∧ other = page ∨ other ∈ lists order' := by
  by_cases heq : order' = order
  · subst heq
    rw [Function.update_self, List.mem_cons]
    exact or_congr_left (and_iff_right rfl).symm
  · rw [Function.update_of_ne heq]
    exact ⟨Or.inr, fun hor ↦ hor.resolve_left fun hand ↦ heq hand.1⟩

end FreeLists

/-! ## Blocks -/

/-- The pages of a block. -/
def block (order page : ℕ) : Extent := ⟨page, 2 ^ order⟩

/-- A call of `buddy_alloc_pages` for `n` pages that gave this page. -/
structure Allocation where
  page : ℕ
  n : ℕ

def Allocation.order (use : Allocation) : ℕ := Nat.clog 2 use.n

def Allocation.extent (use : Allocation) : Extent := block use.order use.page

/-- The free lists, and the allocations in use, have the pages of one block each. -/
structure Holds (s : Buddy) (lists : ℕ → List ℕ) (live : List Allocation) : Prop where
  small : s.maxOrder < MAX_ORDER
  links : FreeLists s.links lists
  above : ∀ order, s.maxOrder < order → lists order = []
  property : ∀ order, ∀ page ∈ lists order, (s.pages page).property = order
  separate : ∀ order order' page page', page ∈ lists order → page' ∈ lists order' → page ≠ page' →
    Extent.Separate (block order page) (block order' page')
  used : ∀ order, ∀ page ∈ lists order, ∀ use ∈ live,
    Extent.Separate (block order page) use.extent
  apart : live.Pairwise fun first second ↦ Extent.Separate first.extent second.extent
  usedProperty : ∀ use ∈ live, (s.pages use.page).property = use.order

section Holds

variable {s s' : Buddy} {lists : ℕ → List ℕ} {live : List Allocation} {left right rest : List ℕ}
  {order page k : ℕ} {use : Allocation}

theorem block_pos (order page : ℕ) : 0 < (block order page).length := Nat.two_pow_pos order

theorem Holds.lt_max (h : Holds s lists live) (hpage : page ∈ lists order) : order ≤ s.maxOrder := by
  by_contra hlt
  rw [h.above order (not_le.mp hlt)] at hpage
  cases hpage

theorem Holds.unrepeated (h : Holds s lists live) : Unrepeated lists :=
  h.links.unrepeated fun order hle ↦ h.above order (h.small.trans_le hle)

/-- A page inside a free block is not the first page of another one. -/
theorem Holds.notMem_add (h : Holds s lists live) (hpage : page ∈ lists order) {offset : ℕ}
    (hpos : 0 < offset) (hlt : offset < 2 ^ order) (other : ℕ) : page + offset ∉ lists other := by
  intro hmem
  have hseparate := h.separate order other page (page + offset) hpage hmem (by omega)
  exact hseparate.start_ne_add (block_pos other _) hlt rfl

theorem Holds.ne_add (h : Holds s lists live) (hpage : page ∈ lists order) (huse : use ∈ live)
    (offset : ℕ) (hlt : offset < 2 ^ order) : use.page ≠ page + offset :=
  (h.used order page hpage use huse).start_ne_add (block_pos use.order _) hlt

/-- A used page is in no list. -/
theorem Holds.notMem_live (h : Holds s lists live) (huse : use ∈ live) (order : ℕ) :
    use.page ∉ lists order := fun hmem ↦
  h.ne_add hmem huse 0 (Nat.two_pow_pos order) rfl

/-! ## Splitting -/

/-- The first block of a list is cut in two. -/
def splitLists (lists : ℕ → List ℕ) (k page : ℕ) (rest : List ℕ) : ℕ → List ℕ :=
  Function.update (Function.update lists (k + 1) rest) k (page :: (page + 2 ^ k) :: lists k)

theorem mem_splitLists (h : Holds s lists live) (hlists : lists (k + 1) = page :: rest)
    (order other : ℕ) :
    other ∈ splitLists lists k page rest order ↔
      order = k ∧ (other = page ∨ other = page + 2 ^ k) ∨ other ∈ lists order ∧ other ≠ page := by
  have hdel := h.unrepeated.mem_delFirst hlists order other
  have hne : k ≠ k + 1 := (Nat.lt_succ_self k).ne
  rw [splitLists, ← hdel]
  by_cases hk : order = k
  · subst hk
    rw [Function.update_self, Function.update_of_ne hne, List.mem_cons, List.mem_cons, ← or_assoc]
    exact or_congr_left (and_iff_right rfl).symm
  · rw [Function.update_of_ne hk]
    exact ⟨Or.inr, fun hor ↦ hor.resolve_left fun hand ↦ hk hand.1⟩

/-- The state after one cut. -/
def splitState (s : Buddy) (k page : ℕ) : Buddy :=
  ((((((s.setProperty page k).setPageProperty (page + 2 ^ k)).setProperty (page + 2 ^ k) k).listDel
    (.pageLink page)).listAdd (.freeArray k) (.pageLink page)).listAdd (.pageLink page)
    (.pageLink (page + 2 ^ k)))

theorem splitFirst_eq (h : Holds s lists live) (hlists : lists (k + 1) = page :: rest) :
    splitFirst s (k + 1) = .ok (splitState s k page) := by
  have hpage : page ∈ lists (k + 1) := hlists ▸ List.mem_cons_self
  have hsmall : k + 1 < MAX_ORDER := (h.lt_max hpage).trans_lt h.small
  have hdown : uint32Sub (s.pages page).property 1 = k := by
    have hbound : MAX_ORDER = 20 := rfl
    rw [h.property (k + 1) page hpage, uint32Sub, uint32]
    omega
  rw [splitFirst, h.links.next_eq hsmall hlists]
  simp only [setProperty_property, setPageProperty_property, if_true, hdown, Nat.one_shiftLeft]
  rfl

theorem splitState_links (h : Holds s lists live) (hlists : lists (k + 1) = page :: rest) :
    FreeLists (splitState s k page).links (splitLists lists k page rest) := by
  have hpage : page ∈ lists (k + 1) := hlists ▸ List.mem_cons_self
  have hsmall : k + 1 < MAX_ORDER := (h.lt_max hpage).trans_lt h.small
  have hlower : k < MAX_ORDER := Nat.lt_of_succ_lt hsmall
  have hhalf : 2 ^ k < 2 ^ (k + 1) := Nat.pow_lt_pow_right (by decide) (Nat.lt_succ_self k)
  have hright := h.notMem_add hpage (Nat.two_pow_pos k) hhalf
  have hne : k ≠ k + 1 := (Nat.lt_succ_self k).ne
  have hmem := h.unrepeated.mem_delFirst hlists
  have hdel := h.links.delFirst hsmall hlists
  have hfirst := hdel.addFirst hlower fun order hpage ↦ ((hmem order page).mp hpage).2 rfl
  have hfresh : ∀ order, page + 2 ^ k ∉ Function.update (Function.update lists (k + 1) rest) k
      (page :: Function.update lists (k + 1) rest k) order := by
    intro order hthere
    rcases (mem_add _ _ _ _ _).mp hthere with ⟨-, heq⟩ | hold
    · have hpos := Nat.two_pow_pos k
      omega
    · exact hright order ((hmem order _).mp hold).1
  have hsecond := hfirst.addSecond hlower (Function.update_self ..) hfresh
  rw [Function.update_idem, Function.update_of_ne hne] at hsecond
  exact hsecond

/-- What one cut does to a state. -/
theorem splitFirst_spec (h : Holds s lists live) (hlists : lists (k + 1) = page :: rest) :
    Holds (splitState s k page) (splitLists lists k page rest) live := by
  have hpage : page ∈ lists (k + 1) := hlists ▸ List.mem_cons_self
  have hsmall : k + 1 < MAX_ORDER := (h.lt_max hpage).trans_lt h.small
  have hhalf : 2 ^ k < 2 ^ (k + 1) := Nat.pow_lt_pow_right (by decide) (Nat.lt_succ_self k)
  have hright := h.notMem_add hpage (Nat.two_pow_pos k) hhalf
  have hmem := mem_splitLists h hlists
  have hwhole : (block (k + 1) page).stop = page + 2 ^ k + 2 ^ k := by
    change page + 2 ^ (k + 1) = _
    rw [Nat.pow_succ]
    omega
  -- both halves are part of the block
  have hpart : ∀ half, half = page ∨ half = page + 2 ^ k → ∀ extent : Extent,
      Extent.Separate (block (k + 1) page) extent → Extent.Separate (block k half) extent := by
    intro half hhalf extent hseparate
    refine hseparate.of_part ?_ ?_
    · rcases hhalf with rfl | rfl
      · exact le_rfl
      · exact Nat.le_add_right _ _
    · rw [hwhole]
      rcases hhalf with rfl | rfl
      · exact Nat.le_add_right _ _
      · exact le_rfl
  have hkept : ∀ other, other ≠ page → other ≠ page + 2 ^ k →
      ((splitState s k page).pages other).property = (s.pages other).property := by
    intro other hpage hright
    simp [splitState, hpage, hright]
  refine ⟨h.small, splitState_links h hlists, ?_, ?_, ?_, ?_, h.apart, ?_⟩
  · intro order hlt
    have hlt' : s.maxOrder < order := hlt
    have hle := h.lt_max hpage
    rw [splitLists, Function.update_of_ne (by omega), Function.update_of_ne (by omega)]
    exact h.above order hlt
  · intro order other hother
    rcases (hmem order other).mp hother with ⟨rfl, rfl | rfl⟩ | ⟨hold, hne⟩
    · simp [splitState]
    · simp [splitState]
    · rw [hkept other hne fun heq ↦ hright order (heq ▸ hold)]
      exact h.property order other hold
  · intro order order' other other' hother hother' hne
    rcases (hmem order other).mp hother with ⟨rfl, hhalf⟩ | ⟨hold, hold'⟩
    · rcases (hmem order' other').mp hother' with ⟨rfl, hhalf'⟩ | ⟨hold, hold'⟩
      · rcases hhalf with rfl | rfl <;> rcases hhalf' with rfl | rfl
        · exact absurd rfl hne
        · exact Or.inl le_rfl
        · exact Or.inr le_rfl
        · exact absurd rfl hne
      · exact hpart other hhalf _ (h.separate _ _ _ _ hpage hold hold'.symm)
    · rcases (hmem order' other').mp hother' with ⟨rfl, hhalf'⟩ | ⟨hagain, hagain'⟩
      · exact (hpart other' hhalf' _ (h.separate _ _ _ _ hpage hold hold'.symm)).symm
      · exact h.separate order order' other other' hold hagain hne
  · intro order other hother use huse
    rcases (hmem order other).mp hother with ⟨rfl, hhalf⟩ | ⟨hold, -⟩
    · exact hpart other hhalf _ (h.used _ _ hpage use huse)
    · exact h.used order other hold use huse
  · intro use huse
    have hfirst : use.page ≠ page := h.ne_add hpage huse 0 (Nat.two_pow_pos _)
    have hsecond : use.page ≠ page + 2 ^ k := h.ne_add hpage huse _ hhalf
    rw [hkept use.page hfirst hsecond]
    exact h.usedProperty use huse

/-- The number of pages in the lists. -/
def units (lists : ℕ → List ℕ) : ℕ :=
  ∑ order ∈ Finset.range MAX_ORDER, (lists order).length * 2 ^ order

theorem units_update (lists : ℕ → List ℕ) {order : ℕ} (horder : order < MAX_ORDER)
    (pages : List ℕ) :
    units (Function.update lists order pages) + (lists order).length * 2 ^ order =
      units lists + pages.length * 2 ^ order := by
  have hmem : order ∈ Finset.range MAX_ORDER := Finset.mem_range.mpr horder
  have hother : ∑ other ∈ (Finset.range MAX_ORDER).erase order,
      (Function.update lists order pages other).length * 2 ^ other =
      ∑ other ∈ (Finset.range MAX_ORDER).erase order, (lists other).length * 2 ^ other := by
    refine Finset.sum_congr rfl fun other hother ↦ ?_
    rw [Function.update_of_ne (Finset.ne_of_mem_erase hother)]
  rw [units, units, ← Finset.add_sum_erase _ _ hmem, hother, Function.update_self,
    ← Finset.add_sum_erase _ (fun other ↦ (lists other).length * 2 ^ other) hmem]
  omega

theorem le_units {pages : List ℕ} (horder : order < MAX_ORDER) (hlists : lists order = pages) :
    pages.length * 2 ^ order ≤ units lists := by
  have hmem : order ∈ Finset.range MAX_ORDER := Finset.mem_range.mpr horder
  rw [units, ← Finset.add_sum_erase _ _ hmem, hlists]
  exact Nat.le_add_right _ _

/-- `PG_property` marks exactly the first pages of the listed blocks. -/
def Heads (s : Buddy) (lists : ℕ → List ℕ) : Prop :=
  ∀ page, (s.pages page).Property ↔ ∃ order, page ∈ lists order

theorem units_splitLists (hsmall : k + 1 < MAX_ORDER) (hlists : lists (k + 1) = page :: rest) :
    units (splitLists lists k page rest) = units lists := by
  have hne : k ≠ k + 1 := (Nat.lt_succ_self k).ne
  have hupper := units_update lists hsmall rest
  have hlower := units_update (Function.update lists (k + 1) rest) (Nat.lt_of_succ_lt hsmall)
    (page :: (page + 2 ^ k) :: lists k)
  rw [Function.update_of_ne hne] at hlower
  rw [hlists, List.length_cons, Nat.add_mul, Nat.pow_succ] at hupper
  rw [List.length_cons, List.length_cons, Nat.add_mul, Nat.add_mul] at hlower
  rw [splitLists]
  omega

theorem heads_splitState (h : Holds s lists live) (hlists : lists (k + 1) = page :: rest)
    (hheads : Heads s lists) : Heads (splitState s k page) (splitLists lists k page rest) := by
  have hpage : page ∈ lists (k + 1) := hlists ▸ List.mem_cons_self
  have hflag : ∀ other, ((splitState s k page).pages other).Property ↔
      other = page + 2 ^ k ∨ (s.pages other).Property := by
    intro other
    simp [splitState]
  intro other
  rw [hflag, hheads]
  constructor
  · rintro (heq | ⟨order, hmem⟩)
    · exact ⟨k, (mem_splitLists h hlists _ _).mpr (Or.inl ⟨rfl, Or.inr heq⟩)⟩
    · by_cases heq : other = page
      · exact ⟨k, (mem_splitLists h hlists _ _).mpr (Or.inl ⟨rfl, Or.inl heq⟩)⟩
      · exact ⟨order, (mem_splitLists h hlists _ _).mpr (Or.inr ⟨hmem, heq⟩)⟩
  · rintro ⟨order, hmem⟩
    rcases (mem_splitLists h hlists _ _).mp hmem with ⟨-, heq | heq⟩ | ⟨hold, -⟩
    · exact Or.inr ⟨k + 1, heq ▸ hpage⟩
    · exact Or.inl heq
    · exact Or.inr ⟨order, hold⟩

/-- The first block of the list of order `k` is cut down to two blocks of order `low`. -/
def chainLists (lists : ℕ → List ℕ) (low k page : ℕ) (rest : List ℕ) (order : ℕ) : List ℕ :=
  if order = low then page :: (page + 2 ^ low) :: lists low
  else if low < order ∧ order < k then [page + 2 ^ order]
  else if order = k then rest else lists order

/-- What a state keeps while blocks are cut. -/
structure Cut (s s' : Buddy) (lists lists' : ℕ → List ℕ) (live : List Allocation) : Prop where
  holds : Holds s' lists' live
  maxOrder : s'.maxOrder = s.maxOrder
  nrFree : s'.nrFree = s.nrFree
  units : units lists' = units lists
  heads : Heads s lists → Heads s' lists'

theorem cut_splitFirst (h : Holds s lists live) (hlists : lists (k + 1) = page :: rest) :
    splitFirst s (k + 1) = .ok (splitState s k page) ∧
      Cut s (splitState s k page) lists (splitLists lists k page rest) live := by
  have hpage : page ∈ lists (k + 1) := hlists ▸ List.mem_cons_self
  have hsmall : k + 1 < MAX_ORDER := (h.lt_max hpage).trans_lt h.small
  exact ⟨splitFirst_eq h hlists, splitFirst_spec h hlists, rfl, rfl,
    units_splitLists hsmall hlists, heads_splitState h hlists⟩

theorem Cut.trans {lists' lists'' : ℕ → List ℕ} {s'' : Buddy} (h : Cut s s' lists lists' live)
    (h' : Cut s' s'' lists' lists'' live) : Cut s s'' lists lists'' live :=
  ⟨h'.holds, h'.maxOrder.trans h.maxOrder, h'.nrFree.trans h.nrFree, h'.units.trans h.units,
    fun hheads ↦ h'.heads (h.heads hheads)⟩

/-- The recursion finds the next list that has a block, and cuts its way back. -/
theorem buddySplit_spec (h : Holds s lists live) {low count : ℕ}
    (hnone : ∀ order, low < order → order < low + 1 + count → lists order = [])
    (hlists : lists (low + 1 + count) = page :: rest) :
    ∃ s', buddySplit s (low + 1) = .ok s' ∧
      Cut s s' lists (chainLists lists low (low + 1 + count) page rest) live := by
  have hpage : page ∈ lists (low + 1 + count) := hlists ▸ List.mem_cons_self
  have hmax := h.lt_max hpage
  induction count generalizing low with
  | zero =>
    have hle : low + 1 ≤ s.maxOrder := hmax
    have hempty : ¬listEmpty s.links (.freeArray (low + 1)) := by
      rw [h.links.empty_iff (hle.trans_lt h.small)]
      exact fun hnil ↦ by rw [Nat.add_zero, hnil] at hlists; cases hlists
    rcases cut_splitFirst h hlists with ⟨heq, hcut⟩
    refine ⟨splitState s low page, ?_, ?_⟩
    · rw [buddySplit, dif_pos ⟨Nat.succ_pos low, hle⟩, if_neg hempty]
      exact heq
    · have hchain : chainLists lists low (low + 1) page rest = splitLists lists low page rest := by
        funext order
        rw [chainLists, splitLists]
        rcases eq_or_ne order low with rfl | hlow
        · rw [if_pos rfl, Function.update_self]
        · rw [if_neg hlow, if_neg (by omega), Function.update_of_ne hlow]
          rcases eq_or_ne order (low + 1) with rfl | hnext
          · rw [if_pos rfl, Function.update_self]
          · rw [if_neg hnext, Function.update_of_ne hnext]
      rw [Nat.add_zero, hchain]
      exact hcut
  | succ count ih =>
    have hle : low + 1 ≤ s.maxOrder := by omega
    have hnil : lists (low + 1) = [] := hnone (low + 1) (by omega) (by omega)
    have hempty : listEmpty s.links (.freeArray (low + 1)) :=
      (h.links.empty_iff (hle.trans_lt h.small)).mpr hnil
    have hstop : low + 1 + (count + 1) = low + 1 + 1 + count := by omega
    rw [hstop] at hlists hpage hmax hnone ⊢
    rcases ih (fun order hlt ↦ hnone order (by omega)) hlists hpage hmax with ⟨s₁, heq, hcut⟩
    have hfirst : chainLists lists (low + 1) (low + 1 + 1 + count) page rest (low + 1) =
        page :: [page + 2 ^ (low + 1)] := by
      rw [chainLists, if_pos rfl, hnil]
    rcases cut_splitFirst hcut.holds hfirst with ⟨hsplit, hagain⟩
    refine ⟨splitState s₁ low page, ?_, ?_⟩
    · rw [buddySplit, dif_pos ⟨Nat.succ_pos low, hle⟩, if_pos hempty, heq]
      exact hsplit
    · have hchain : chainLists lists low (low + 1 + 1 + count) page rest =
          splitLists (chainLists lists (low + 1) (low + 1 + 1 + count) page rest) low page
            [page + 2 ^ (low + 1)] := by
        funext order
        rw [splitLists]
        rcases eq_or_ne order low with rfl | hlow
        · rw [Function.update_self, chainLists, if_pos rfl, chainLists, if_neg (by omega),
            if_neg (by omega), if_neg (by omega)]
        · rw [Function.update_of_ne hlow, chainLists, if_neg hlow]
          rcases eq_or_ne order (low + 1) with rfl | hnext
          · rw [Function.update_self, if_pos (by omega)]
          · rw [Function.update_of_ne hnext, chainLists, if_neg hnext]
            have hiff : (low < order ∧ order < low + 1 + 1 + count) ↔
                (low + 1 < order ∧ order < low + 1 + 1 + count) := by omega
            simp only [hiff]
      rw [hchain]
      exact hcut.trans hagain

/-- Without a block of a higher order the recursion runs into its assertion. -/
theorem buddySplit_panic (h : Holds s lists live) {low : ℕ}
    (hnone : ∀ order, low < order → lists order = []) : buddySplit s (low + 1) = .error .panic := by
  have hinduct : ∀ count low, s.maxOrder ≤ low + count →
      (∀ order, low < order → lists order = []) → buddySplit s (low + 1) = .error .panic := by
    intro count
    induction count with
    | zero =>
      intro low hle _
      rw [buddySplit, dif_neg (by omega)]
    | succ count ih =>
      intro low hle hnone
      rw [buddySplit]
      split
      · rename_i hrange
        have hempty := (h.links.empty_iff (hrange.2.trans_lt h.small)).mpr
          (hnone (low + 1) (Nat.lt_succ_self low))
        rw [if_pos hempty, ih (low + 1) (by omega) fun order hlt ↦ hnone order (by omega)]
        rfl
      · rfl
  exact hinduct s.maxOrder low (Nat.le_add_left _ _) hnone

end Holds

end Ucore.BuddySystem
