import Ucore.Library.Run
import Ucore.Mm.BuddyAlloc

/-!
# Freeing in the buddy system

`buddy_free_pages` puts the block into its list and, if the buddy is marked, takes both out of their
lists without putting the larger block into one. The loop does not look for the next buddy: it tests
the half whose mark it has just removed, and ends.
-/

namespace Ucore.BuddySystem

open Library
open DefaultPmm (Page PG_property)

variable {s s' : Buddy} {lists : ℕ → List ℕ} {live before after : List Allocation}
  {left right : List ℕ} {order page : ℕ} {use : Allocation}

/-! ## Lists without a page -/

/-- The lists without one page. -/
def without (lists : ℕ → List ℕ) (page order : ℕ) : List ℕ := (lists order).erase page

theorem Unrepeated.mem_without (h : Unrepeated lists) (page order other : ℕ) :
    other ∈ without lists page order ↔ other ≠ page ∧ other ∈ lists order :=
  (h.nodup order).mem_erase_iff

theorem Unrepeated.without (h : Unrepeated lists) (page : ℕ) : Unrepeated (without lists page) :=
  ⟨fun order ↦ (h.nodup order).erase page, fun order order' other hother hother' ↦
    h.one order order' other (List.mem_of_mem_erase hother) (List.mem_of_mem_erase hother')⟩

/-- The page is in one list only. -/
theorem Unrepeated.without_eq (h : Unrepeated lists) (hpage : page ∈ lists order) :
    BuddySystem.without lists page =
      Function.update lists order ((lists order).erase page) := by
  funext order'
  by_cases heq : order' = order
  · subst heq
    rw [Function.update_self, BuddySystem.without]
  · rw [Function.update_of_ne heq, BuddySystem.without,
      List.erase_of_not_mem fun hmem ↦ heq (h.one order' order page hmem hpage)]

theorem FreeLists.delete {links : Links BuddyNode} (h : FreeLists links lists)
    (hunrepeated : Unrepeated lists) (horder : order < MAX_ORDER) (hpage : page ∈ lists order) :
    FreeLists (listDel links (.pageLink page)) (without lists page) := by
  rcases List.append_of_mem hpage with ⟨left, right, hlists⟩
  have hnodup := hunrepeated.nodup order
  rw [hlists] at hnodup
  have hnot : page ∉ left := fun hleft ↦
    (List.nodup_append.mp hnodup).2.2 page hleft page List.mem_cons_self rfl
  have herase : (lists order).erase page = left ++ right := by
    rw [hlists, List.erase_append_right _ hnot, List.erase_cons_head]
  rw [hunrepeated.without_eq hpage, herase]
  exact h.del horder hlists

theorem units_without (h : Unrepeated lists) (horder : order < MAX_ORDER)
    (hpage : page ∈ lists order) : units (without lists page) + 2 ^ order = units lists := by
  have hunits := units_update lists horder ((lists order).erase page)
  have hpos : 0 < (lists order).length := List.length_pos_of_mem hpage
  rw [List.length_erase_of_mem hpage, Nat.sub_mul] at hunits
  have hle : 1 * 2 ^ order ≤ (lists order).length * 2 ^ order := Nat.mul_le_mul_right _ hpos
  rw [h.without_eq hpage]
  omega

/-! ## What a call does -/

/-- A block is freed into its list. -/
def freeLists (lists : ℕ → List ℕ) (order page : ℕ) : ℕ → List ℕ :=
  Function.update lists order (page :: lists order)

/-- `page_idx ^ (1 << order)`. -/
def buddyOf (use : Allocation) : ℕ := use.page ^^^ 2 ^ use.order

/-- The condition under which the loop is entered. -/
def Merges (s : Buddy) (use : Allocation) : Prop :=
  use.order < s.maxOrder ∧ (s.pages (buddyOf use)).Property

instance (s : Buddy) (use : Allocation) : Decidable (Merges s use) :=
  inferInstanceAs (Decidable (_ ∧ _))

/-- The state after a block is put into its list. -/
def addState (s : Buddy) (use : Allocation) : Buddy :=
  s.listAdd (.freeArray use.order) (.pageLink use.page)

/-- The state after one round of the loop. -/
def mergeState (s : Buddy) (low high : ℕ) : Buddy :=
  let s := s.listDel (.pageLink low)
  let s := s.listDel (.pageLink high)
  let s := s.setProperty low (uint32 ((s.pages low).property + 1))
  let s := s.setProperty high 0
  let s := s.setPageProperty low
  s.clearPageProperty high

/-- The lower of the two halves becomes the first page. -/
def lowHalf (use : Allocation) : ℕ := if buddyOf use < use.page then buddyOf use else use.page

def highHalf (use : Allocation) : ℕ := if buddyOf use < use.page then use.page else buddyOf use

theorem halves (use : Allocation) :
    lowHalf use = use.page ∧ highHalf use = buddyOf use ∨
      lowHalf use = buddyOf use ∧ highHalf use = use.page := by
  unfold lowHalf highHalf
  split
  · exact Or.inr ⟨rfl, rfl⟩
  · exact Or.inl ⟨rfl, rfl⟩

/-- A call that returns went once through the loop, or not at all. -/
theorem free_ok {fuel : ℕ} (hproperty : (s.pages use.page).property = use.order)
    (hcall : buddyFreePages fuel s use.page use.n = .ok s') :
    0 < use.n ∧
    (¬Merges s use ∧ s' = { addState s use with nrFree := uint32 (s.nrFree + 2 ^ use.order) } ∨
      Merges s use ∧ s' = { mergeState (addState s use) (lowHalf use) (highHalf use) with
        nrFree := uint32 (s.nrFree + 2 ^ use.order) }) := by
  have hsize : 1 <<< use.order = 2 ^ use.order := Nat.one_shiftLeft _
  rcases Outcome.bind_eq_ok.mp hcall with ⟨_, hn, hcall⟩
  refine ⟨Outcome.require_eq_ok.mp hn, ?_⟩
  dsimp only at hcall
  rw [hproperty, hsize] at hcall
  rcases Outcome.bind_eq_ok.mp hcall with ⟨_, -, hcall⟩
  rcases Outcome.bind_eq_ok.mp hcall with ⟨merged, hloop, hcall⟩
  have hbuddy : getBuddy (addState s use) use.page = buddyOf use := by
    rw [getBuddy, addState, listAdd_pages, hproperty, hsize]
    rfl
  have hloop : mergeLoop fuel (addState s use) use.page (buddyOf use) = .ok merged := hbuddy ▸ hloop
  have hfree : (merged.nrFree = s.nrFree → s' = { merged with
      nrFree := uint32 (s.nrFree + 2 ^ use.order) }) := by
    intro hsame
    cases hcall
    rw [hsame]
  rcases fuel with _ | fuel
  · cases hloop
  rw [mergeLoop] at hloop
  have hiff : (((addState s use).pages use.page).property < (addState s use).maxOrder ∧
      ((addState s use).pages (buddyOf use)).Property) ↔ Merges s use := by
    rw [addState, listAdd_pages, hproperty]
    rfl
  by_cases hmerges : Merges s use
  · refine Or.inr ⟨hmerges, ?_⟩
    rw [if_pos (hiff.mpr hmerges)] at hloop
    have hpair : (if buddyOf use < use.page then (buddyOf use, use.page)
        else (use.page, buddyOf use)) = (lowHalf use, highHalf use) := by
      unfold lowHalf highHalf
      split <;> rfl
    rw [hpair] at hloop
    have hagain : mergeLoop fuel (mergeState (addState s use) (lowHalf use) (highHalf use))
        (lowHalf use) (highHalf use) = .ok merged := hloop
    rcases fuel with _ | fuel
    · cases hagain
    · have hcleared : ¬((mergeState (addState s use) (lowHalf use) (highHalf use)).pages
          (highHalf use)).Property := by
        simp [mergeState]
      rw [mergeLoop, if_neg fun hand ↦ hcleared hand.2] at hagain
      cases hagain
      exact hfree rfl
  · refine Or.inl ⟨hmerges, ?_⟩
    rw [if_neg (mt hiff.mp hmerges)] at hloop
    cases hloop
    exact hfree rfl

/-- Two rounds of fuel are enough. -/
theorem free_returns (hproperty : (s.pages use.page).property = use.order) (hn : 0 < use.n) :
    ∃ s', buddyFreePages 2 s use.page use.n = .ok s' := by
  have hsize : 1 <<< use.order = 2 ^ use.order := Nat.one_shiftLeft _
  have hpn : 2 ^ use.order = roundUpPowerOf2 use.n := (roundUpPowerOf2_eq hn).symm
  have hloop : ∀ (s : Buddy) low high, ∃ merged, mergeLoop 2 s low high = .ok merged := by
    intro s low high
    rw [mergeLoop]
    split
    · generalize (if high < low then (high, low) else (low, high)) = pair
      have hcleared : ¬((mergeState s pair.1 pair.2).pages pair.2).Property := by
        simp [mergeState]
      refine ⟨mergeState s pair.1 pair.2, ?_⟩
      change mergeLoop 1 (mergeState s pair.1 pair.2) pair.1 pair.2 = _
      rw [mergeLoop, if_neg fun hand ↦ hcleared hand.2]
    · exact ⟨s, rfl⟩
  rcases hloop (addState s use) use.page (getBuddy (addState s use) use.page) with ⟨merged, heq⟩
  refine ⟨{ merged with nrFree := uint32 (merged.nrFree + 2 ^ use.order) }, ?_⟩
  rw [buddyFreePages, Outcome.require_of_true hn, Outcome.ok_bind]
  dsimp only
  rw [hproperty, hsize, Outcome.require_of_true hpn, Outcome.ok_bind]
  have hbind : mergeLoop 2 (s.listAdd (.freeArray use.order) (.pageLink use.page)) use.page
      (getBuddy (s.listAdd (.freeArray use.order) (.pageLink use.page)) use.page) = .ok merged := heq
  rw [hbind]
  rfl

/-! ## What a call keeps -/

/-- An allocation that is no longer in use, apart from all others. -/
theorem Holds.apart_use (h : Holds s lists (before ++ use :: after)) :
    ∀ other ∈ before ++ after, Extent.Separate use.extent other.extent := by
  have hapart := (List.perm_middle.pairwise_iff fun hseparate ↦ Extent.Separate.symm hseparate).mp
    h.apart
  exact (List.pairwise_cons.mp hapart).1

theorem Holds.apart_rest (h : Holds s lists (before ++ use :: after)) :
    (before ++ after).Pairwise fun first second ↦ Extent.Separate first.extent second.extent :=
  h.apart.sublist ((List.sublist_cons_self use after).append_left before)

theorem mem_middle {other : Allocation} (hother : other ∈ before ++ after) :
    other ∈ before ++ use :: after :=
  ((List.sublist_cons_self use after).append_left before).subset hother

/-- The block of an allocation goes into its list. -/
theorem Holds.free (h : Holds s lists (before ++ use :: after)) (horder : use.order ≤ s.maxOrder)
    (nrFree : ℕ) :
    Holds { addState s use with nrFree } (freeLists lists use.order use.page)
      (before ++ after) := by
  have huse : use ∈ before ++ use :: after := List.mem_append_right _ List.mem_cons_self
  have hfresh := h.notMem_live huse
  have hmem := mem_add lists use.order use.page
  refine ⟨h.small, h.links.addFirst (horder.trans_lt h.small) hfresh, fun order hlt ↦ ?_,
    fun order other hother ↦ ?_, fun order order' other other' hother hother' hne ↦ ?_,
    fun order other hother used hused ↦ ?_, h.apart_rest,
    fun used hused ↦ h.usedProperty used (mem_middle hused)⟩
  · have hlt' : s.maxOrder < order := hlt
    rw [freeLists, Function.update_of_ne (by omega)]
    exact h.above order hlt
  · rcases (hmem order other).mp hother with ⟨rfl, rfl⟩ | hold
    · exact h.usedProperty use huse
    · exact h.property order other hold
  · rcases (hmem order other).mp hother with ⟨rfl, rfl⟩ | hold
    · rcases (hmem order' other').mp hother' with ⟨-, rfl⟩ | hold'
      · exact absurd rfl hne
      · exact (h.used order' other' hold' use huse).symm
    · rcases (hmem order' other').mp hother' with ⟨rfl, rfl⟩ | hold'
      · exact h.used order other hold use huse
      · exact h.separate order order' other other' hold hold' hne
  · rcases (hmem order other).mp hother with ⟨rfl, rfl⟩ | hold
    · exact h.apart_use used hused
    · exact h.used order other hold used (mem_middle hused)

/-- The block and its buddy are in no list afterwards. -/
theorem Holds.merge (h : Holds s lists (before ++ use :: after)) (horder : use.order ≤ s.maxOrder)
    (hbuddy : buddyOf use ∈ lists order) (nrFree : ℕ) :
    Holds { mergeState (addState s use) (lowHalf use) (highHalf use) with nrFree }
      (without lists (buddyOf use)) (before ++ after) := by
  have huse : use ∈ before ++ use :: after := List.mem_append_right _ List.mem_cons_self
  have hfresh := h.notMem_live huse
  have hsmall : use.order < MAX_ORDER := horder.trans_lt h.small
  have hsmall' : order < MAX_ORDER := (h.lt_max hbuddy).trans_lt h.small
  have hfree := h.free horder s.nrFree
  have hunrepeated := hfree.unrepeated
  have hadded : use.page ∈ freeLists lists use.order use.page use.order :=
    (mem_add _ _ _ _ _).mpr (Or.inl ⟨rfl, rfl⟩)
  have hbuddy' : buddyOf use ∈ freeLists lists use.order use.page order :=
    (mem_add _ _ _ _ _).mpr (Or.inr hbuddy)
  have hne : buddyOf use ≠ use.page := fun heq ↦ hfresh order (heq ▸ hbuddy)
  -- both deletions, in either order
  have hlists : ∀ other, ((freeLists lists use.order use.page other).erase use.page).erase
      (buddyOf use) = without lists (buddyOf use) other := by
    intro other
    rw [freeLists, without]
    by_cases heq : other = use.order
    · subst heq
      rw [Function.update_self, List.erase_cons_head]
    · rw [Function.update_of_ne heq, List.erase_of_not_mem (hfresh other)]
  have hlinks : FreeLists (mergeState (addState s use) (lowHalf use) (highHalf use)).links
      (without lists (buddyOf use)) := by
    rcases halves use with ⟨hlow, hhigh⟩ | ⟨hlow, hhigh⟩
    · have hfirst := hfree.links.delete hunrepeated hsmall hadded
      have hsecond := hfirst.delete (hunrepeated.without _) hsmall'
        ((hunrepeated.mem_without _ _ _).mpr ⟨hne, hbuddy'⟩)
      have heq : without (without (freeLists lists use.order use.page) use.page) (buddyOf use) =
          without lists (buddyOf use) := funext hlists
      rw [heq] at hsecond
      rw [hlow, hhigh]
      exact hsecond
    · have hfirst := hfree.links.delete hunrepeated hsmall' hbuddy'
      have hsecond := hfirst.delete (hunrepeated.without _) hsmall
        ((hunrepeated.mem_without _ _ _).mpr ⟨hne.symm, hadded⟩)
      have heq : without (without (freeLists lists use.order use.page) (buddyOf use)) use.page =
          without lists (buddyOf use) := by
        funext other
        exact (List.erase_comm ..).trans (hlists other)
      rw [heq] at hsecond
      rw [hlow, hhigh]
      exact hsecond
  have hkept : ∀ other, other ≠ use.page → other ≠ buddyOf use →
      ((mergeState (addState s use) (lowHalf use) (highHalf use)).pages other).property =
        (s.pages other).property := by
    intro other hpage hbuddy
    have hlow : other ≠ lowHalf use := by
      rcases halves use with ⟨hlow, -⟩ | ⟨hlow, -⟩
      · exact hlow ▸ hpage
      · exact hlow ▸ hbuddy
    have hhigh : other ≠ highHalf use := by
      rcases halves use with ⟨-, hhigh⟩ | ⟨-, hhigh⟩
      · exact hhigh ▸ hbuddy
      · exact hhigh ▸ hpage
    simp [mergeState, addState, hlow, hhigh]
  have hmem := h.unrepeated.mem_without (buddyOf use)
  refine ⟨h.small, hlinks, fun order hlt ↦ ?_, fun order other hother ↦ ?_,
    fun order order' other other' hother hother' ↦ ?_, fun order other hother used hused ↦ ?_,
    h.apart_rest, fun used hused ↦ ?_⟩
  · rw [without, h.above order hlt, List.erase_nil]
  · rcases (hmem order other).mp hother with ⟨hne, hold⟩
    have hpage : other ≠ use.page := fun heq ↦ hfresh order (heq ▸ hold)
    rw [hkept other hpage hne]
    exact h.property order other hold
  · exact h.separate order order' other other' ((hmem _ _).mp hother).2 ((hmem _ _).mp hother').2
  · exact h.used order other ((hmem _ _).mp hother).2 used (mem_middle hused)
  · have hpage : used.page ≠ use.page :=
      ((h.apart_use used hused).start_ne (block_pos _ _) (block_pos _ _)).symm
    have hbuddy : used.page ≠ buddyOf use := fun heq ↦
      h.notMem_live (mem_middle hused) order (heq ▸ hbuddy)
    rw [hkept used.page hpage hbuddy]
    exact h.usedProperty used (mem_middle hused)

/-- What is used before and after a call. -/
theorem Accounted.total_middle (haccounted : Accounted s lists (before ++ use :: after)) :
    s.nrFree + 2 ^ use.order + Extent.total ((before ++ after).map Allocation.extent) =
      2 ^ s.maxOrder := by
  have htotal := haccounted.total
  have hperm : ((before ++ use :: after).map Allocation.extent).Perm
      (use.extent :: (before ++ after).map Allocation.extent) := List.perm_middle.map _
  rw [Extent.total_perm hperm, Extent.total_cons] at htotal
  have hextent : use.extent.length = 2 ^ use.order := rfl
  omega

theorem Accounted.order_le (haccounted : Accounted s lists (before ++ use :: after)) :
    use.order ≤ s.maxOrder := by
  have htotal := haccounted.total_middle
  have hle : 2 ^ use.order ≤ 2 ^ s.maxOrder := by omega
  exact (Nat.pow_le_pow_iff_right (by decide)).mp hle

theorem Accounted.uint32_add (haccounted : Accounted s lists (before ++ use :: after))
    (hsmall : s.maxOrder < MAX_ORDER) :
    uint32 (s.nrFree + 2 ^ use.order) = s.nrFree + 2 ^ use.order := by
  have htotal := haccounted.total_middle
  have hbound : 2 ^ s.maxOrder < 2 ^ MAX_ORDER := Nat.pow_lt_pow_right (by decide) hsmall
  have hmax : 2 ^ MAX_ORDER = 1048576 := rfl
  have hlt : s.nrFree + 2 ^ use.order < 2 ^ 32 := by omega
  exact Nat.mod_eq_of_lt hlt

end Ucore.BuddySystem
