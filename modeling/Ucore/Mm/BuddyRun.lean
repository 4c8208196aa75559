import Ucore.Mm.BuddyFree

/-!
# Runs of the buddy system

Allocations alone keep the free lists in order, and nothing else does: no block that was freed is
marked, unless it was merged, and a block that was merged is in no list. An allocation fails its
assertion when there are enough pages, but none of the listed blocks is large enough.
-/

namespace Ucore.BuddySystem

open Library
open DefaultPmm (Page PG_property sweep sweep_eq)

/-- The manager, and the allocations that have not been freed. -/
structure Pmm where
  buddy : Buddy
  live : List Allocation

/-- After `buddy_init` and `buddy_init_memmap`, at any page, of any number of pages whose order is
below `MAX_ORDER`. No page has been marked before. -/
def NewPmm (base : ℕ) (p : Pmm) : Prop :=
  p.live = [] ∧ ∃ s n, 0 < n ∧ log2 (roundDownPowerOf2 n) < MAX_ORDER ∧
    (∀ page, ¬(s.pages page).Property) ∧ buddyInitMemmap (buddyInit s) base n = .ok p.buddy

/-- A call of `buddy_alloc_pages` that returns. -/
inductive AllocStep (p : Pmm) : Pmm → Prop
  | alloc {n : ℕ} {ret : Option ℕ} {s : Buddy} (h : buddyAllocPages p.buddy n = .ok (ret, s)) :
    AllocStep p ⟨s, (ret.toList.map fun page ↦ ⟨page, n⟩) ++ p.live⟩

/-- A call of `buddy_free_pages` for what is in use. -/
inductive FreeStep (p : Pmm) : Allocation → Pmm → Prop
  | free {before after : List Allocation} {use : Allocation} {fuel : ℕ} {s : Buddy}
    (hlive : p.live = before ++ use :: after)
    (h : buddyFreePages fuel p.buddy use.page use.n = .ok s) : FreeStep p use ⟨s, before ++ after⟩

/-! ## The first state -/

section Init

variable {s : Buddy} {base n : ℕ}

theorem ring_initLoop (links : Links BuddyNode) (count order : ℕ) (h : order < count) :
    Ring (initLoop links count) (.freeArray order) [] := by
  induction count with
  | zero => exact absurd h (Nat.not_lt_zero _)
  | succ count ih =>
    rcases Nat.lt_succ_iff_lt_or_eq.mp h with hlt | rfl
    · refine (ih hlt).congr fun node hnode ↦ Links.selfLink_of_ne _ ?_
      rw [List.mem_singleton.mp hnode]
      exact fun heq ↦ hlt.ne (BuddyNode.freeArray.inj heq)
    · exact ring_listInit _ _

theorem freeLists_initLoop (links : Links BuddyNode) :
    FreeLists (initLoop links MAX_ORDER) fun _ ↦ [] := by
  refine ⟨fun order horder ↦ ring_initLoop links MAX_ORDER order horder,
    fun order _ order' _ hne node hnode hnode' ↦ hne ?_⟩
  rw [List.map_nil, List.mem_singleton] at hnode hnode'
  exact BuddyNode.freeArray.inj (hnode.symm.trans hnode')

/-- The lists with the first block alone. -/
def firstLists (base max : ℕ) : ℕ → List ℕ := Function.update (fun _ ↦ []) max [base]

theorem mem_firstLists {max order page : ℕ} :
    page ∈ firstLists base max order ↔ order = max ∧ page = base := by
  have hadd := mem_add (fun _ ↦ []) max base order page
  rw [or_iff_left List.not_mem_nil] at hadd
  exact hadd

theorem units_firstLists {max : ℕ} (h : max < MAX_ORDER) : units (firstLists base max) = 2 ^ max := by
  have hunits := units_update (fun _ ↦ []) h [base]
  have hzero : units (fun _ ↦ []) = 0 := Finset.sum_eq_zero fun order _ ↦ Nat.zero_mul _
  rw [hzero, List.length_nil, List.length_singleton] at hunits
  rw [firstLists]
  omega

/-- What `buddy_init_memmap` leaves. -/
structure First (s : Buddy) (base : ℕ) : Prop where
  holds : Holds s (firstLists base s.maxOrder) []
  nrFree : s.nrFree = 2 ^ s.maxOrder
  heads : Heads s (firstLists base s.maxOrder)

/-- Clearing descriptors marks none. -/
theorem sweep_flag {pages pages' : ℕ → Page} {start count : ℕ}
    (hflag : ∀ page, ¬(pages page).Property)
    (h : sweep Page.Reserved (fun _ ↦ ⟨0, 0, 0⟩) start count pages = .ok pages') :
    ∀ page, ¬(pages' page).Property := by
  induction count generalizing start pages with
  | zero =>
    cases h
    exact hflag
  | succ count ih =>
    rcases Outcome.bind_eq_ok.mp h with ⟨_, -, h⟩
    refine ih (fun page ↦ ?_) h
    by_cases heq : page = start
    · have hclear : ¬Page.Property ⟨0, 0, 0⟩ := by decide
      rw [heq, Function.update_self]
      exact hclear
    · rw [Function.update_of_ne heq]
      exact hflag page

theorem initMemmap_first {s' : Buddy} (hsmall : log2 (roundDownPowerOf2 n) < MAX_ORDER)
    (hflag : ∀ page, ¬(s.pages page).Property)
    (hcall : buddyInitMemmap (buddyInit s) base n = .ok s') :
    First s' base ∧ s'.maxOrder = log2 (roundDownPowerOf2 n) := by
  have hlog : log2 (roundDownPowerOf2 n) = Nat.log 2 n := by
    rw [log2_eq, roundDownPowerOf2_eq, Nat.log_pow (by decide)]
  rcases Outcome.bind_eq_ok.mp hcall with ⟨_, -, hcall⟩
  rcases Outcome.bind_eq_ok.mp hcall with ⟨pages, hsweep, hcall⟩
  have hclear := sweep_flag hflag hsweep
  have hs' : s' = ((Buddy.setPageProperty (Buddy.setProperty ⟨pages, initLoop s.links MAX_ORDER,
      uint32 (roundDownPowerOf2 n), log2 (roundDownPowerOf2 n)⟩ base
      (log2 (roundDownPowerOf2 n))) base).listAdd (.freeArray (log2 (roundDownPowerOf2 n)))
      (.pageLink base)) := by
    cases hcall
    rfl
  have hmax : s'.maxOrder = log2 (roundDownPowerOf2 n) := by
    rw [hs']
    rfl
  refine ⟨⟨⟨hmax ▸ hsmall, ?_, fun order hlt ↦ ?_, fun order page hpage ↦ ?_,
    fun order order' page page' hpage hpage' hne ↦ ?_, nofun, List.Pairwise.nil, nofun⟩, ?_, ?_⟩,
    hmax⟩
  · rw [hmax, hs']
    exact (freeLists_initLoop s.links).addFirst hsmall fun _ ↦ List.not_mem_nil
  · rw [firstLists, Function.update_of_ne hlt.ne']
  · rcases mem_firstLists.mp hpage with ⟨rfl, rfl⟩
    rw [hmax, hs']
    simp
  · rcases mem_firstLists.mp hpage with ⟨-, rfl⟩
    rcases mem_firstLists.mp hpage' with ⟨-, rfl⟩
    exact absurd rfl hne
  · have hbound : 2 ^ Nat.log 2 n < 2 ^ MAX_ORDER :=
      Nat.pow_lt_pow_right (by decide) (hlog ▸ hsmall)
    have hmaxOrder : 2 ^ MAX_ORDER = 1048576 := rfl
    have hlt : 2 ^ Nat.log 2 n < 2 ^ 32 := by omega
    rw [hmax, hs', hlog]
    change uint32 (roundDownPowerOf2 n) = _
    rw [roundDownPowerOf2_eq]
    exact Nat.mod_eq_of_lt hlt
  · intro page
    have hiff : (s'.pages page).Property ↔ page = base := by
      rw [hs', listAdd_pages, setPageProperty_flag, setProperty_flag]
      exact or_iff_left (hclear page)
    rw [hiff]
    constructor
    · rintro rfl
      exact ⟨s'.maxOrder, mem_firstLists.mpr ⟨rfl, rfl⟩⟩
    · rintro ⟨order, hpage⟩
      exact (mem_firstLists.mp hpage).2

theorem First.accounted (h : First s base) : Accounted s (firstLists base s.maxOrder) [] :=
  ⟨by rw [units_firstLists h.holds.small, h.nrFree], by rw [h.nrFree]; rfl⟩

end Init

/-! ## Allocations alone -/

/-- What the free lists have to be like. -/
structure Conserves (base : ℕ) (p : Pmm) (lists : ℕ → List ℕ) : Prop where
  holds : Holds p.buddy lists p.live
  aligned : ∀ order, ∀ page ∈ lists order, base ≤ page ∧ 2 ^ order ∣ page - base
  heads : Heads p.buddy lists
  nrFree : p.buddy.nrFree = units lists
  buddies : ∀ order page page', page ∈ lists order → page' ∈ lists order →
    page' - base ≠ (page - base) ^^^ 2 ^ order
  renews : p.live = [] →
    ∃ page s, buddyAllocPages p.buddy (2 ^ p.buddy.maxOrder) = .ok (some page, s)

def Conserved (base : ℕ) (p : Pmm) : Prop := ∃ lists, Conserves base p lists

/-- A free block is the whole memory, or the right half of what was cut. -/
def RightHalf (base max order page : ℕ) : Prop :=
  order = max ∧ page = base ∨ order < max ∧ ∃ pair, page = base + 2 ^ order * (2 * pair + 1)

/-- What allocations alone keep. -/
structure Allocated (base : ℕ) (p : Pmm) (lists : ℕ → List ℕ) : Prop where
  holds : Holds p.buddy lists p.live
  accounted : Accounted p.buddy lists p.live
  heads : Heads p.buddy lists
  nrFree : p.buddy.nrFree = units lists
  halves : ∀ order, ∀ page ∈ lists order, RightHalf base p.buddy.maxOrder order page
  whole : p.live = [] → lists p.buddy.maxOrder ≠ []

section Allocated

variable {base : ℕ} {p p' : Pmm} {lists lists' : ℕ → List ℕ} {rest : List ℕ} {order page k low n : ℕ}
  {use : Allocation}

theorem RightHalf.cut {max : ℕ} (h : RightHalf base max k page) (hlt : order < k) :
    RightHalf base max order (page + 2 ^ order) := by
  rcases h with ⟨rfl, rfl⟩ | ⟨hmax, pair, rfl⟩
  · exact Or.inr ⟨hlt, 0, by omega⟩
  · rcases Nat.exists_eq_add_of_lt hlt with ⟨count, rfl⟩
    refine Or.inr ⟨by omega, 2 ^ count * (2 * pair + 1), ?_⟩
    have hpow : 2 ^ (order + count + 1) = 2 ^ order * 2 ^ count * 2 := by
      rw [Nat.pow_succ, Nat.pow_add]
    rw [hpow]
    ring

theorem mem_allocLists {lists : ℕ → List ℕ} {other : ℕ} (hlists : lists k = page :: rest)
    (h : other ∈ allocLists lists low k page rest order) :
    order < k ∧ other = page + 2 ^ order ∨ other ∈ lists order := by
  rw [allocLists] at h
  split at h
  · rename_i hrange
    exact Or.inl ⟨hrange.2, List.mem_singleton.mp h⟩
  · split at h
    · rename_i heq
      rw [heq, hlists]
      exact Or.inr (List.mem_cons_of_mem _ h)
    · exact Or.inr h

theorem Allocated.first (h : First p.buddy base) (hlive : p.live = []) :
    Allocated base p (firstLists base p.buddy.maxOrder) where
  holds := hlive ▸ h.holds
  accounted := hlive ▸ h.accounted
  heads := h.heads
  nrFree := by rw [units_firstLists h.holds.small, h.nrFree]
  halves _ _ hpage := Or.inl (mem_firstLists.mp hpage)
  whole _ := by
    rw [firstLists, Function.update_self]
    exact List.cons_ne_nil _ _

theorem Allocated.step (h : Allocated base p lists) (hstep : AllocStep p p') :
    ∃ lists', Allocated base p' lists' := by
  cases hstep with
  | @alloc n ret s hcall =>
    rcases alloc_cases h.holds h.accounted hcall with ⟨rfl, rfl⟩ | ⟨k, page, rest, rfl, hk, hlists, ht⟩
    · exact ⟨lists, h.holds, h.accounted, h.heads, h.nrFree, h.halves, h.whole⟩
    · have hpage : page ∈ lists k := hlists ▸ List.mem_cons_self
      have haccounted := h.accounted.alloc h.holds.small ht
      have htotal := haccounted.total
      refine ⟨_, ht.holds, haccounted, ht.heads h.heads, ?_, fun order other hother ↦ ?_, nofun⟩
      · have hunits := ht.units
        have htotal' := h.accounted.total
        have hnrFree := h.nrFree
        have hextent : (Allocation.extent ⟨page, n⟩).length = 2 ^ Allocation.order ⟨page, n⟩ := rfl
        rw [List.map_cons, Extent.total_cons, ht.maxOrder, hextent] at htotal
        change s.nrFree = _
        omega
      · change RightHalf base s.maxOrder order other
        rw [ht.maxOrder]
        rcases mem_allocLists hlists hother with ⟨hlt, rfl⟩ | hold
        · exact (h.halves k page hpage).cut hlt
        · exact h.halves order other hold

theorem allocated_of_reachable (h : Reachable (NewPmm base) AllocStep p) :
    ∃ lists, Allocated base p lists := by
  induction h with
  | first h =>
    rcases h with ⟨hlive, s, n, -, hsmall, hflag, hcall⟩
    exact ⟨_, Allocated.first (initMemmap_first hsmall hflag hcall).1 hlive⟩
  | step _ hstep ih =>
    rcases ih with ⟨lists, h⟩
    exact h.step hstep

theorem Allocated.conserves (h : Allocated base p lists) : Conserves base p lists where
  holds := h.holds
  aligned order page hpage := by
    rcases h.halves order page hpage with ⟨-, rfl⟩ | ⟨-, pair, rfl⟩
    · rw [Nat.sub_self]
      exact ⟨le_rfl, dvd_zero _⟩
    · rw [Nat.add_sub_cancel_left]
      exact ⟨Nat.le_add_right _ _, Nat.dvd_mul_right _ _⟩
  heads := h.heads
  nrFree := h.nrFree
  buddies order page page' hpage hpage' heq := by
    rcases h.halves order page hpage with ⟨rfl, rfl⟩ | ⟨hlt, pair, rfl⟩
    · rcases h.halves _ page' hpage' with ⟨-, rfl⟩ | ⟨hlt, -⟩
      · rw [Nat.sub_self, Nat.zero_xor] at heq
        exact absurd heq (Nat.two_pow_pos _).ne
      · exact absurd hlt (lt_irrefl _)
    · rcases h.halves order page' hpage' with ⟨rfl, -⟩ | ⟨-, pair', rfl⟩
      · exact absurd hlt (lt_irrefl _)
      · -- the bit of the order is set in both
        have hbit : ∀ pair : ℕ, (2 ^ order * (2 * pair + 1)).testBit order = true := by
          intro pair
          rw [Nat.testBit_two_pow_mul]
          simp
        have hboth := congrArg (fun offset ↦ offset.testBit order) heq
        rw [Nat.add_sub_cancel_left, Nat.add_sub_cancel_left] at hboth
        rw [Nat.testBit_xor, hbit, hbit, Nat.testBit_two_pow_self] at hboth
        cases hboth
  renews hlive := by
    rcases List.exists_cons_of_ne_nil (h.whole hlive) with ⟨page, rest, hlists⟩
    have htotal := h.accounted.total
    rw [hlive] at htotal
    have hclog : Nat.clog 2 (2 ^ p.buddy.maxOrder) = p.buddy.maxOrder :=
      Nat.clog_pow 2 _ (by decide)
    rcases alloc_some h.holds (Nat.two_pow_pos _) htotal.ge hclog.le
      (fun order hle hlt ↦ absurd (hclog ▸ hle) hlt.not_ge) hlists with ⟨s, heq, -⟩
    exact ⟨page, s, heq⟩

/-- A block that was freed is not marked, or is in no list with its buddy. -/
theorem Allocated.not_conserved (h : Allocated base p lists) (hstep : FreeStep p use p') :
    ¬Conserved base p' := by
  rintro ⟨others, hothers⟩
  cases hstep with
  | @free before after _ fuel s hlive hcall =>
    have hholds := hlive ▸ h.holds
    have haccounted := hlive ▸ h.accounted
    have huse : use ∈ before ++ use :: after := List.mem_append_right _ List.mem_cons_self
    have horder := haccounted.order_le
    have hunlisted := hholds.notMem_live huse
    rcases (free_ok (hholds.usedProperty use huse) hcall).2 with ⟨-, rfl⟩ | ⟨hmerges, rfl⟩
    · -- the block is in its list
      have hfree := hholds.free horder (uint32 (p.buddy.nrFree + 2 ^ use.order))
      have hsame := hfree.links.unique hothers.holds.links (horder.trans_lt h.holds.small)
      have hlisted : use.page ∈ others use.order := by
        rw [← hsame]
        exact (mem_add _ _ _ _ _).mpr (Or.inl ⟨rfl, rfl⟩)
      have hmarked : (p.buddy.pages use.page).Property := (hothers.heads _).mpr ⟨_, hlisted⟩
      rcases (h.heads _).mp hmarked with ⟨order, hmem⟩
      exact hunlisted order hmem
    · -- the pages of both halves are counted
      rcases (h.heads _).mp hmerges.2 with ⟨order, hbuddy⟩
      have hmerge := hholds.merge horder hbuddy (uint32 (p.buddy.nrFree + 2 ^ use.order))
      have hunits := units_without h.holds.unrepeated
        ((h.holds.lt_max hbuddy).trans_lt h.holds.small) hbuddy
      have hsame : units others = units (without lists (buddyOf use)) :=
        Finset.sum_congr rfl fun order horder ↦ by
          rw [hmerge.links.unique hothers.holds.links (Finset.mem_range.mp horder)]
      have hcount : uint32 (p.buddy.nrFree + 2 ^ use.order) = units others := hothers.nrFree
      have hpos := Nat.two_pow_pos order
      have hpos' := Nat.two_pow_pos use.order
      have hnrFree := h.nrFree
      rw [haccounted.uint32_add h.holds.small, hsame] at hcount
      omega

/-- In every run of allocations the free lists are in order, and the first block that is freed ends
that. -/
theorem conserved_of_allocs (h : Reachable (NewPmm base) AllocStep p) :
    Conserved base p ∧ ∀ use p', FreeStep p use p' → ¬Conserved base p' := by
  rcases allocated_of_reachable h with ⟨lists, hallocated⟩
  exact ⟨⟨lists, hallocated.conserves⟩, fun use p' hstep ↦ hallocated.not_conserved hstep⟩

end Allocated

/-! ## Allocations and frees -/

/-- A buddy that the loop of `buddy_free_pages` takes out of its list is in one. -/
def Unlinks (s : Buddy) (use : Allocation) : Prop :=
  Merges s use → ∃ lists, FreeLists s.links lists ∧
    ∃ order < MAX_ORDER, buddyOf use ∈ lists order

/-- The steps that take no block out of a list in which it is not. -/
inductive LinkedStep (p p' : Pmm) : Prop
  | alloc (h : AllocStep p p') : LinkedStep p p'
  | free {use : Allocation} (h : FreeStep p use p') (hlinked : Unlinks p.buddy use) :
    LinkedStep p p'

/-- The lists are in order, though blocks may be in none of them. -/
def InOrder (p : Pmm) (lists : ℕ → List ℕ) : Prop :=
  Holds p.buddy lists p.live ∧ Accounted p.buddy lists p.live

section InOrder

variable {base : ℕ} {p p' : Pmm} {lists : ℕ → List ℕ} {use : Allocation}

theorem InOrder.alloc (h : InOrder p lists) (hstep : AllocStep p p') :
    ∃ lists', InOrder p' lists' := by
  cases hstep with
  | @alloc n ret s hcall =>
    rcases alloc_cases h.1 h.2 hcall with ⟨rfl, rfl⟩ | ⟨k, page, rest, rfl, hk, hlists, htaken⟩
    · exact ⟨lists, h⟩
    · exact ⟨_, htaken.holds, h.2.alloc h.1.small htaken⟩

theorem InOrder.free (h : InOrder p lists) (hstep : FreeStep p use p')
    (hlinked : Unlinks p.buddy use) : ∃ lists', InOrder p' lists' := by
  cases hstep with
  | @free before after _ fuel s hlive hcall =>
    have hholds := hlive ▸ h.1
    have haccounted := hlive ▸ h.2
    have huse : use ∈ before ++ use :: after := List.mem_append_right _ List.mem_cons_self
    have horder := haccounted.order_le
    have hadd := haccounted.uint32_add hholds.small
    have htotal := haccounted.total_middle
    have hlisted := haccounted.listed
    rcases (free_ok (hholds.usedProperty use huse) hcall).2 with ⟨-, rfl⟩ | ⟨hmerges, rfl⟩
    · have hunits := units_update lists (horder.trans_lt hholds.small)
        (use.page :: lists use.order)
      rw [List.length_cons, Nat.add_mul] at hunits
      refine ⟨_, hholds.free horder _, ?_, ?_⟩
      · change units (freeLists lists use.order use.page) ≤ uint32 _
        rw [hadd, freeLists]
        omega
      · change uint32 _ + _ = _
        rw [hadd]
        exact htotal
    · rcases hlinked hmerges with ⟨others, hothers, order, hsmall, hmem⟩
      have hbuddy : buddyOf use ∈ lists order := by
        rw [hholds.links.unique hothers hsmall]
        exact hmem
      have hunits := units_without hholds.unrepeated hsmall hbuddy
      refine ⟨_, hholds.merge horder hbuddy _, ?_, ?_⟩
      · change units (without lists (buddyOf use)) ≤ uint32 _
        rw [hadd]
        have hfewer : units (without lists (buddyOf use)) ≤ units lists := by
          rw [← hunits]
          exact Nat.le_add_right _ _
        exact hfewer.trans (hlisted.trans (Nat.le_add_right _ _))
      · change uint32 _ + _ = _
        rw [hadd]
        exact htotal

theorem inOrder_of_reachable (h : Reachable (NewPmm base) LinkedStep p) :
    ∃ lists, InOrder p lists := by
  induction h with
  | first h =>
    rcases h with ⟨hlive, s, n, -, hsmall, hflag, hcall⟩
    have hfirst := (initMemmap_first hsmall hflag hcall).1
    exact ⟨_, hlive ▸ hfirst.holds, hlive ▸ hfirst.accounted⟩
  | step _ hstep ih =>
    rcases ih with ⟨lists, h⟩
    cases hstep with
    | alloc hstep => exact h.alloc hstep
    | free hstep hlinked => exact h.free hstep hlinked

/-- In every run in which no block is taken out of a list that does not have it, allocation gives the
right answer exactly if there are too few free pages or a block that is large enough. -/
theorem allocRight_of_linked (h : Reachable (NewPmm base) LinkedStep p) :
    ∃ lists, FreeLists p.buddy.links lists ∧ ∀ n, 0 < n → (AllocRight p.buddy lists n ↔
      p.buddy.nrFree < n ∨ ∃ order, Nat.clog 2 n ≤ order ∧ lists order ≠ []) := by
  rcases inOrder_of_reachable h with ⟨lists, hholds, haccounted⟩
  exact ⟨lists, hholds.links, fun n hn ↦ allocRight_iff hholds haccounted hn⟩

end InOrder

/-! ## Small memories -/

/-- Memory before `buddy_init`, all of it reserved. -/
def reservedPages : Buddy := ⟨fun _ ↦ ⟨0, 1, 0⟩, fun node ↦ ⟨node, node⟩, 0, 0⟩

theorem initMemmap_reserved {n : ℕ} (hn : 0 < n) (hsmall : Nat.log 2 n < MAX_ORDER) :
    ∃ s, buddyInitMemmap (buddyInit reservedPages) 0 n = .ok s ∧ s.maxOrder = Nat.log 2 n ∧
      First s 0 ∧ NewPmm 0 ⟨s, []⟩ := by
  have hlog : log2 (roundDownPowerOf2 n) = Nat.log 2 n := by
    rw [log2_eq, roundDownPowerOf2_eq, Nat.log_pow (by decide)]
  have hreserved : Page.Reserved ⟨0, 1, 0⟩ := by decide
  have hflag : ¬Page.Property ⟨0, 1, 0⟩ := by decide
  have hsweep : sweep Page.Reserved (fun _ ↦ ⟨0, 0, 0⟩) 0 (roundDownPowerOf2 n)
      reservedPages.pages = .ok _ := sweep_eq fun _ _ _ ↦ hreserved
  have hcall : ∃ s, buddyInitMemmap (buddyInit reservedPages) 0 n = .ok s := by
    rw [buddyInitMemmap, Outcome.require_of_true hn, Outcome.ok_bind]
    have hpages : (buddyInit reservedPages).pages = reservedPages.pages := rfl
    dsimp only
    rw [hpages, hsweep]
    exact ⟨_, rfl⟩
  rcases hcall with ⟨s, heq⟩
  rcases initMemmap_first (hlog.symm ▸ hsmall) (fun _ ↦ hflag) heq with ⟨hfirst, hmax⟩
  exact ⟨s, heq, hmax.trans hlog, hfirst, rfl, reservedPages, n, hn, hlog.symm ▸ hsmall,
    fun _ ↦ hflag, heq⟩

/-- A memory of so many pages, of which the first one is in use. -/
theorem alloc_firstPage (max : ℕ) (hsmall : max < MAX_ORDER) :
    ∃ s s', buddyInitMemmap (buddyInit reservedPages) 0 (2 ^ max) = .ok s ∧
      buddyAllocPages s 1 = .ok (some 0, s') ∧ NewPmm 0 ⟨s, []⟩ ∧ AllocStep ⟨s, []⟩ ⟨s', [⟨0, 1⟩]⟩ ∧
      Taken s s' (firstLists 0 max) (allocLists (firstLists 0 max) 0 max 0 []) [] ⟨0, 1⟩ ∧
      s.nrFree = 2 ^ max ∧ First s 0 := by
  have hlog : Nat.log 2 (2 ^ max) = max := Nat.log_pow (by decide) max
  rcases initMemmap_reserved (Nat.two_pow_pos max) (hlog.symm ▸ hsmall) with
    ⟨s, heq, hmax, hfirst, hnew⟩
  rw [hlog] at hmax
  have hholds := hfirst.holds
  have hnrFree := hfirst.nrFree
  rw [hmax] at hholds hnrFree
  have hclog : Nat.clog 2 1 = 0 := Nat.clog_one_right 2
  have hlists : firstLists 0 max max = [0] := Function.update_self ..
  have hfew : 1 ≤ s.nrFree := hnrFree ▸ Nat.two_pow_pos max
  rcases alloc_some hholds Nat.one_pos hfew (hclog ▸ Nat.zero_le max) (fun order _ hlt ↦
    Function.update_of_ne hlt.ne ..) hlists with ⟨s', halloc, htaken⟩
  rw [hclog] at htaken
  have hstep := AllocStep.alloc (p := ⟨s, []⟩) halloc
  exact ⟨s, s', heq, halloc, hnew, hstep, htaken, hnrFree, hfirst⟩

theorem conserved_twoPages : ∃ s s', buddyInitMemmap (buddyInit reservedPages) 0 2 = .ok s ∧
    buddyAllocPages s 1 = .ok (some 0, s') ∧ Conserved 0 ⟨s', [⟨0, 1⟩]⟩ := by
  rcases alloc_firstPage 1 (by decide) with ⟨s, s', hinit, halloc, hnew, hstep, -⟩
  exact ⟨s, s', hinit, halloc, (conserved_of_allocs ((Reachable.first hnew).step hstep)).1⟩

/-- Of two pages, one is allocated and freed. -/
theorem not_conserved_twoPages : ∃ s s' s'',
    buddyInitMemmap (buddyInit reservedPages) 0 2 = .ok s ∧
    buddyAllocPages s 1 = .ok (some 0, s') ∧ buddyFreePages 2 s' 0 1 = .ok s'' ∧
    ¬Conserved 0 ⟨s'', []⟩ := by
  rcases alloc_firstPage 1 (by decide) with
    ⟨s, s', hinit, halloc, -, hstep, htaken, -, hfirst⟩
  have hproperty := htaken.holds.usedProperty _ List.mem_cons_self
  rcases free_returns hproperty Nat.one_pos with ⟨s'', hfree⟩
  have hlive : Pmm.live ⟨s', [⟨0, 1⟩]⟩ = [] ++ ⟨0, 1⟩ :: [] := rfl
  have hfreeStep := FreeStep.free hlive hfree
  have hallocated := Allocated.first (p := ⟨s, []⟩) hfirst rfl
  rcases hallocated.step hstep with ⟨lists, hallocated'⟩
  exact ⟨s, s', s'', hinit, halloc, hfree, hallocated'.not_conserved hfreeStep⟩

theorem allocRight_eightPages : ∃ s s' lists,
    buddyInitMemmap (buddyInit reservedPages) 0 8 = .ok s ∧
    buddyAllocPages s 1 = .ok (some 0, s') ∧ FreeLists s'.links lists ∧
    ∀ n, 0 < n → (AllocRight s' lists n ↔
      s'.nrFree < n ∨ ∃ order, Nat.clog 2 n ≤ order ∧ lists order ≠ []) := by
  rcases alloc_firstPage 3 (by decide) with ⟨s, s', hinit, halloc, hnew, hstep, -⟩
  rcases allocRight_of_linked ((Reachable.first hnew).step (.alloc hstep)) with
    ⟨lists, hlinks, hright⟩
  exact ⟨s, s', lists, hinit, halloc, hlinks, hright⟩

/-- Of eight pages, one is in use. Seven are free, but no five of them in one block. -/
theorem not_allocRight_eightPages : ∃ s s',
    buddyInitMemmap (buddyInit reservedPages) 0 8 = .ok s ∧
    buddyAllocPages s 1 = .ok (some 0, s') ∧ buddyAllocPages s' 5 = .error .panic ∧
    ∀ lists, FreeLists s'.links lists → ¬AllocRight s' lists 5 := by
  rcases alloc_firstPage 3 (by decide) with
    ⟨s, s', hinit, halloc, hnew, hstep, htaken, hnrFree, -⟩
  have hfree : s'.nrFree = 7 := by
    rw [htaken.nrFree, hnrFree]
    decide
  have hclog : Nat.clog 2 5 = 3 := by decide
  have hpanic : buddyAllocPages s' 5 = .error .panic := by
    refine alloc_panic htaken.holds (by decide) (by rw [hfree]; decide) (by rw [hclog]; decide)
      fun order hle ↦ ?_
    rw [hclog] at hle
    rw [allocLists, if_neg (by omega)]
    split
    · rfl
    · rename_i hne
      exact Function.update_of_ne hne ..
  refine ⟨s, s', hinit, halloc, hpanic, fun lists _ hright ↦ ?_⟩
  by_cases hsome : ∃ order, Nat.clog 2 5 ≤ order ∧ lists order ≠ []
  · rcases hright.2 hsome with ⟨_, _, _, _, -, -, -, heq, -⟩
    rw [hpanic] at heq
    cases heq
  · have heq := hright.1 fun order hle ↦ by_contra fun hne ↦ hsome ⟨order, hle, hne⟩
    rw [hpanic] at heq
    cases heq

end Ucore.BuddySystem
