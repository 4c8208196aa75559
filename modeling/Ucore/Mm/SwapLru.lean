import Ucore.Library.Run
import Ucore.Libs.Defs
import Ucore.Libs.List
import Ucore.Mm.PageTableFrames
import Mathlib.Data.List.MinMax

/-!
# The swap manager that approximates least recent use

`kern/mm/swap_lru.c`. Every page in the list has a counter. A check goes over the list and resets
the counter of each page whose entry has `PTE_A` set, clearing the bit, and increments the others.
The victim is the first page with the largest counter, seen from the oldest page. A page is named
by its index, and its fields that the manager does not touch are left out.
-/

namespace Ucore.SwapLru

open Library Mm

/-- `&pra_list_head`, or `&page->pra_page_link`. -/
inductive PraNode where
  | praListHead
  | praPageLink (page : ℕ)
  deriving DecidableEq

structure Page where
  visited : ℕ
  praVaddr : ℕ

/-- The list with the pages in it, and the page table of the address space. -/
structure State where
  links : Links PraNode
  pages : ℕ → Page
  pgdir : Pgdir

def PTE_A : ℕ := 0x040

def lruInitMm (s : State) : State := { s with links := listInit s.links .praListHead }

/-- What `_lru_accessed_check` does with one page of the list. -/
def checkPage (s : State) (page : ℕ) : Outcome State :=
  let pra := s.pages page
  match s.pgdir.getPte pra.praVaddr with
  | none => .error .panic
  | some pte =>
    if pte &&& PTE_A ≠ 0 then
      .ok { s with
        pages := Function.update s.pages page { pra with visited := 0 }
        pgdir := s.pgdir.setPte pra.praVaddr (pte ^^^ PTE_A) }
    else
      .ok { s with
        pages := Function.update s.pages page { pra with visited := uint64 (pra.visited + 1) } }

def checkBody (s : State) : PraNode → Outcome (State ⊕ State)
  | .praListHead => .ok (.inl s) -- the loop never stops at the header
  | .praPageLink page => do
    let s ← checkPage s page
    return .inl s

/-- `_lru_accessed_check`, which follows the `prev` links. -/
def lruAccessedCheck (fuel : ℕ) (s : State) : Outcome State :=
  walk (fun s ↦ s.links.mirror) .praListHead checkBody .ok fuel s .praListHead

def lruMapSwappable (fuel : ℕ) (s : State) (page : ℕ) : Outcome State := do
  let s ← lruAccessedCheck fuel s
  return { s with
    links := listAdd s.links .praListHead (.praPageLink page)
    pages := Function.update s.pages page { s.pages page with visited := 0 } }

/-- One round of the search, with `pTobeDel` and `largest_visted`. -/
def victimBody (s : State) (best : ℕ × ℕ) : PraNode → Outcome (ℕ × ℕ ⊕ ℕ)
  | .praListHead => .ok (.inl best) -- the loop never stops at the header
  | .praPageLink page =>
    if best.2 < (s.pages page).visited then .ok (.inl (page, (s.pages page).visited))
    else .ok (.inl best)

/-- `_lru_swap_out_victim`. The last node of an empty list would be the header, which is in no
page. -/
def lruSwapOutVictim (fuel : ℕ) (s : State) (inTick : Bool) : Outcome (ℕ × State) := do
  let s ← lruAccessedCheck fuel s
  Outcome.require (inTick = false)
  match listPrev s.links .praListHead with
  | .praListHead => .error .panic
  | .praPageLink entry => do
    let victim ← walk (fun _ ↦ s.links.mirror) .praListHead (victimBody s) (fun best ↦ .ok best.1)
      fuel (entry, (s.pages entry).visited) .praListHead
    return (victim, { s with links := listDel s.links (.praPageLink victim) })

/-! ## What happened so far -/

/-- What the manager has seen: a check that found `PTE_A` set for some pages, a page that went into
the list, and a page that left it. -/
inductive Event where
  | check (accessed : List ℕ)
  | insert (page : ℕ)
  | evict (page : ℕ)
  deriving DecidableEq

/-- The event starts the count of a page anew. -/
def Event.Resets (page : ℕ) : Event → Bool
  | .check accessed => page ∈ accessed
  | .insert other => other = page
  | .evict _ => false

def Event.IsCheck : Event → Bool
  | .check _ => true
  | _ => false

/-- Events with the last one first. -/
abbrev History := List Event

def History.checks (history : History) : ℕ := history.countP Event.IsCheck

/-- The checks since the page was inserted or last seen with `PTE_A` set. -/
def History.checksSince (history : History) (page : ℕ) : ℕ :=
  History.checks (history.takeWhile fun event ↦ !event.Resets page)

/-- The pages that were inserted and not evicted since, the last inserted one first. -/
def History.resident : History → List ℕ
  | [] => []
  | .check _ :: history => History.resident history
  | .insert page :: history => page :: History.resident history
  | .evict page :: history => (History.resident history).erase page

/-- `PTE_A` is set in the entry of the page. -/
def State.Accessed (s : State) (page : ℕ) : Prop :=
  s.pgdir.pte (s.pages page).praVaddr &&& PTE_A ≠ 0

instance (s : State) : DecidablePred s.Accessed := fun _ ↦ inferInstanceAs (Decidable (_ ≠ _))

/-- The check that the manager makes in this state. -/
def State.seen (s : State) (history : History) : Event :=
  .check (history.resident.filter s.Accessed)

/-! ## Runs -/

structure Config where
  lru : State
  history : History

/-- The hardware sets `PTE_A` for an access to the page. -/
def State.access (s : State) (page : ℕ) : State :=
  let la := (s.pages page).praVaddr
  { s with pgdir := s.pgdir.setPte la (s.pgdir.pte la ||| PTE_A) }

/-- `pra_vaddr`, which the caller of `swap_map_swappable` stores. -/
def State.setPraVaddr (s : State) (page la : ℕ) : State :=
  { s with pages := Function.update s.pages page { s.pages page with praVaddr := la } }

inductive First : Config → Prop
  | mk {s : State} : First ⟨lruInitMm s, []⟩

/-- The steps of a run. A page goes into the list under an address that has an entry of its own.
Whatever else the kernel does leaves the list, its pages and their entries alone. -/
inductive Step : Config → Config → Prop
  | other {s after : State} {history : History} (hlinks : after.links = s.links)
      (hpages : ∀ page ∈ history.resident, after.pages page = s.pages page)
      (hentry : ∀ page ∈ history.resident,
        after.pgdir.getPte (s.pages page).praVaddr = s.pgdir.getPte (s.pages page).praVaddr) :
      Step ⟨s, history⟩ ⟨after, history⟩
  | access {s : State} {history : History} {page : ℕ} (hpage : page ∈ history.resident) :
      Step ⟨s, history⟩ ⟨s.access page, history⟩
  | mapSwappable {s after : State} {history : History} {page la : ℕ}
      (hpage : page ∉ history.resident) (hentry : (s.pgdir.getPte la).isSome)
      (hown : ∀ other ∈ history.resident, ¬SamePlace (s.pages other).praVaddr la)
      (hreturns : Returns (fun fuel ↦ lruMapSwappable fuel s page) after) :
      Step ⟨s, history⟩ ⟨after.setPraVaddr page la, .insert page :: s.seen history :: history⟩
  | swapOutVictim {s after : State} {history : History} {victim : ℕ}
      (hsome : history.resident ≠ [])
      (hreturns : Returns (fun fuel ↦ lruSwapOutVictim fuel s false) (victim, after)) :
      Step ⟨s, history⟩ ⟨after, .evict victim :: s.seen history :: history⟩

/-- What a choice has to do: the victim has waited for the largest number of checks, and longer
than every page that was inserted before it. It leaves the list and the others stay. -/
def LongestUnused (s : State) (history : History) (victim : ℕ) (after : State) : Prop :=
  ∃ newer older, history.resident = newer ++ victim :: older ∧
    (∀ page ∈ newer, History.checksSince (s.seen history :: history) page ≤
      History.checksSince (s.seen history :: history) victim) ∧
    (∀ page ∈ older, History.checksSince (s.seen history :: history) page <
      History.checksSince (s.seen history :: history) victim) ∧
    Ring after.links .praListHead ((newer ++ older).map .praPageLink) ∧
    victim ∉ newer ++ older

/-! ## The check -/

/-- A check of the given pages: what it leaves in each of them, and everything else as it was. -/
structure Checked (checked : List ℕ) (s after : State) : Prop where
  links : after.links = s.links
  visited : ∀ page ∈ checked, (after.pages page).visited =
    if s.Accessed page then 0 else uint64 ((s.pages page).visited + 1)
  praVaddr : ∀ page, (after.pages page).praVaddr = (s.pages page).praVaddr
  others : ∀ page ∉ checked, after.pages page = s.pages page
  mapped : ∀ la, (after.pgdir.getPte la).isSome = (s.pgdir.getPte la).isSome
  entry : ∀ la, (∀ page ∈ checked, ¬SamePlace (s.pages page).praVaddr la) →
    after.pgdir.getPte la = s.pgdir.getPte la

theorem Checked.refl (s : State) : Checked [] s s where
  links := rfl
  visited := by simp
  praVaddr := fun _ ↦ rfl
  others := fun _ _ ↦ rfl
  mapped := fun _ ↦ rfl
  entry := fun _ _ ↦ rfl

theorem isSome_setPte {pgdir : Pgdir} {la value : ℕ} (h : (pgdir.getPte la).isSome) (lb : ℕ) :
    ((pgdir.setPte la value).getPte lb).isSome = (pgdir.getPte lb).isSome := by
  by_cases hsame : SamePlace la lb
  · rw [getPte_setPte_same h hsame, ← getPte_congr hsame, h]
    rfl
  · rw [getPte_setPte_of_not hsame]

theorem checkPage_ok {s : State} {page : ℕ}
    (hmapped : (s.pgdir.getPte (s.pages page).praVaddr).isSome) :
    ∃ after, checkPage s page = .ok after ∧ Checked [page] s after := by
  rcases Option.isSome_iff_exists.mp hmapped with ⟨pte, hpte⟩
  have haccessed : s.Accessed page ↔ pte &&& PTE_A ≠ 0 := by
    rw [State.Accessed, Table.pte, hpte]
    rfl
  unfold checkPage
  simp only [hpte]
  by_cases hset : pte &&& PTE_A ≠ 0
  · rw [if_pos hset]
    refine ⟨_, rfl, rfl, ?_, fun other ↦ ?_, fun other hother ↦ ?_, isSome_setPte hmapped,
      fun la hla ↦ getPte_setPte_of_not (hla page (by simp))⟩
    · simp [haccessed, hset]
    · by_cases hother : other = page
      · simp [hother]
      · simp [Function.update_of_ne hother]
    · exact Function.update_of_ne (by simpa using hother) ..
  · rw [if_neg hset]
    refine ⟨_, rfl, rfl, ?_, fun other ↦ ?_, fun other hother ↦ ?_, fun _ ↦ rfl, fun _ _ ↦ rfl⟩
    · simp [haccessed, hset]
    · by_cases hother : other = page
      · simp [hother]
      · simp [Function.update_of_ne hother]
    · exact Function.update_of_ne (by simpa using hother) ..

/-- One page more: its entry is not among those of the pages before it. -/
theorem Checked.cons {s middle after : State} {page : ℕ} {checked : List ℕ}
    (hfirst : Checked [page] s middle) (hrest : Checked checked middle after)
    (hfresh : page ∉ checked)
    (hown : ∀ other ∈ checked, ¬SamePlace (s.pages page).praVaddr (s.pages other).praVaddr) :
    Checked (page :: checked) s after where
  links := hrest.links.trans hfirst.links
  visited := fun other hother ↦ by
    rcases List.mem_cons.mp hother with rfl | hother
    · rw [hrest.others other hfresh]
      exact hfirst.visited other (by simp)
    · have hne : other ∉ [page] := by
        rw [List.mem_singleton]
        exact fun heq ↦ hfresh (heq ▸ hother)
      have hentry := hfirst.entry (s.pages other).praVaddr (by simpa using hown other hother)
      have haccessed : middle.Accessed other ↔ s.Accessed other := by
        rw [State.Accessed, State.Accessed, hfirst.praVaddr, Table.pte, hentry]
        rfl
      rw [hrest.visited other hother, hfirst.others other hne]
      exact if_congr haccessed rfl rfl
  praVaddr := fun other ↦ (hrest.praVaddr other).trans (hfirst.praVaddr other)
  others := fun other hother ↦ by
    rw [List.mem_cons, not_or] at hother
    rw [hrest.others other hother.2, hfirst.others other (by simpa using hother.1)]
  mapped := fun la ↦ (hrest.mapped la).trans (hfirst.mapped la)
  entry := fun la hla ↦ by
    rw [hrest.entry la fun other hother ↦ ?_, hfirst.entry la ?_]
    · simpa using hla page (by simp)
    · rw [hfirst.praVaddr]
      exact hla other (List.mem_cons_of_mem _ hother)

/-- The loop over the pages, each with an entry of its own. -/
theorem scan_checkBody {s : State} {checked : List ℕ} (hnodup : checked.Nodup)
    (hown : checked.Pairwise fun page other ↦
      ¬SamePlace (s.pages page).praVaddr (s.pages other).praVaddr)
    (hmapped : ∀ page ∈ checked, (s.pgdir.getPte (s.pages page).praVaddr).isSome) :
    ∃ after, scan checkBody .ok (checked.map .praPageLink) s = .ok after ∧
      Checked checked s after := by
  induction checked generalizing s with
  | nil => exact ⟨s, rfl, Checked.refl s⟩
  | cons page rest ih =>
    rcases checkPage_ok (hmapped page (by simp)) with ⟨middle, hmiddle, hfirst⟩
    rcases List.nodup_cons.mp hnodup with ⟨hfresh, hnodup⟩
    rcases List.pairwise_cons.mp hown with ⟨hpage, hown⟩
    have hrest := ih (s := middle) hnodup
      (by simpa only [hfirst.praVaddr] using hown)
      fun other hother ↦ by
        rw [hfirst.praVaddr, hfirst.mapped]
        exact hmapped other (List.mem_cons_of_mem _ hother)
    rcases hrest with ⟨after, hscan, hafter⟩
    refine ⟨after, ?_, hfirst.cons hafter hfresh hpage⟩
    simp only [List.map_cons, scan, checkBody, hmiddle, Outcome.ok_bind, Outcome.pure_eq_ok, hscan]

theorem links_of_checkBody {s after : State} {node : PraNode}
    (h : checkBody s node = .ok (.inl after)) : after.links = s.links := by
  cases node with
  | praListHead =>
    cases h
    rfl
  | praPageLink page =>
    rcases Outcome.bind_eq_ok.mp h with ⟨next, hnext, h⟩
    cases h
    unfold checkPage at hnext
    dsimp only at hnext
    split at hnext
    · cases hnext
    · split at hnext <;> cases hnext <;> rfl

theorem Checked.congr {s after : State} {checked other : List ℕ} (h : Checked checked s after)
    (hmem : ∀ page, page ∈ other ↔ page ∈ checked) : Checked other s after :=
  { h with
    visited := fun page hpage ↦ h.visited page ((hmem page).mp hpage)
    others := fun page hpage ↦ h.others page (mt (hmem page).mpr hpage)
    entry := fun la hla ↦ h.entry la fun page hpage ↦ hla page ((hmem page).mpr hpage) }

theorem nodup_of_ring {links : Links PraNode} {pages : List ℕ}
    (h : Ring links .praListHead (pages.map .praPageLink)) : pages.Nodup :=
  List.Nodup.of_map _ (List.nodup_cons.mp h.nodup).2

theorem ring_mirror_map {links : Links PraNode} {pages : List ℕ}
    (h : Ring links .praListHead (pages.map .praPageLink)) :
    Ring links.mirror .praListHead (pages.reverse.map .praPageLink) := by
  rw [List.map_reverse]
  exact h.mirror

theorem returns_lruAccessedCheck {s : State} {pages : List ℕ}
    (hring : Ring s.links .praListHead (pages.map .praPageLink))
    (hown : pages.Pairwise fun page other ↦
      ¬SamePlace (s.pages page).praVaddr (s.pages other).praVaddr)
    (hmapped : ∀ page ∈ pages, (s.pgdir.getPte (s.pages page).praVaddr).isSome) :
    ∃ after, Returns (fun fuel ↦ lruAccessedCheck fuel s) after ∧ Checked pages s after := by
  have hreverse : pages.reverse.Pairwise fun page other ↦
      ¬SamePlace (s.pages page).praVaddr (s.pages other).praVaddr :=
    List.pairwise_reverse.mpr (hown.imp fun hpair hsame ↦ hpair hsame.symm)
  rcases scan_checkBody (List.nodup_reverse.mpr (nodup_of_ring hring)) hreverse
    fun page hpage ↦ hmapped page (List.mem_reverse.mp hpage) with ⟨after, hscan, hchecked⟩
  refine ⟨after, ?_, hchecked.congr fun page ↦ List.mem_reverse.symm⟩
  refine returns_walk (fun state ↦ state.links = s.links)
    (fun state hstate ↦ ?_) (fun state node next _ hstate hnext ↦ ?_) rfl hscan
  · rw [hstate]
    exact ring_mirror_map hring
  · exact (links_of_checkBody hnext).trans hstate

/-! ## The search -/

/-- The search is the fold that takes the first page with the largest counter. -/
theorem scan_victimBody (s : State) (pages : List ℕ) (entry : ℕ) :
    ∃ victim, scan (victimBody s) (fun best ↦ .ok best.1) (pages.map .praPageLink)
      (entry, (s.pages entry).visited) = .ok victim ∧
      pages.foldl (List.argAux fun page other ↦ (s.pages other).visited < (s.pages page).visited)
        (some entry) = some victim := by
  induction pages generalizing entry with
  | nil => exact ⟨entry, rfl, rfl⟩
  | cons page rest ih =>
    by_cases hlarger : (s.pages entry).visited < (s.pages page).visited
    · rcases ih page with ⟨victim, hscan, hfold⟩
      refine ⟨victim, ?_, ?_⟩
      · simpa [scan, victimBody, hlarger] using hscan
      · simpa [List.argAux, hlarger] using hfold
    · rcases ih entry with ⟨victim, hscan, hfold⟩
      refine ⟨victim, ?_, ?_⟩
      · simpa [scan, victimBody, hlarger] using hscan
      · simpa [List.argAux, hlarger] using hfold

/-- Around the first largest value: smaller values before it, and none larger after it. -/
theorem split_of_argmax {pages : List ℕ} {value : ℕ → ℕ} {victim : ℕ} (hnodup : pages.Nodup)
    (h : victim ∈ pages.argmax value) : ∃ before after, pages = before ++ victim :: after ∧
      (∀ page ∈ before, value page < value victim) ∧ ∀ page ∈ after, value page ≤ value victim := by
  rcases List.mem_argmax_iff.mp h with ⟨hmem, hlargest, hfirst⟩
  rcases List.append_of_mem hmem with ⟨before, after, rfl⟩
  have hapart := (List.nodup_append.mp hnodup).2.2
  refine ⟨before, after, rfl, fun page hpage ↦ ?_, fun page hpage ↦ hlargest page (by simp [hpage])⟩
  by_contra hle
  have hindex := hfirst page (List.mem_append_left _ hpage) (not_lt.mp hle)
  have hvictim : victim ∉ before := fun hvictim ↦ hapart victim hvictim victim (by simp) rfl
  rw [List.idxOf_append_of_mem hpage, List.idxOf_append_of_notMem hvictim] at hindex
  have hlt := List.idxOf_lt_length_iff.mpr hpage
  omega

theorem returns_victim {s : State} {pages : List ℕ} (hsome : pages ≠ [])
    (hring : Ring s.links .praListHead (pages.map .praPageLink)) :
    ∃ entry victim, listPrev s.links .praListHead = .praPageLink entry ∧
      Returns (fun fuel ↦ walk (fun _ ↦ s.links.mirror) .praListHead (victimBody s)
        (fun best ↦ .ok best.1) fuel (entry, (s.pages entry).visited) .praListHead) victim ∧
      victim ∈ pages.reverse.argmax fun page ↦ (s.pages page).visited := by
  have hmirror := ring_mirror_map hring
  cases hpages : pages.reverse with
  | nil => exact absurd (List.reverse_eq_nil_iff.mp hpages) hsome
  | cons entry rest =>
    rw [hpages] at hmirror
    have hentry : listPrev s.links .praListHead = .praPageLink entry := hmirror.next_head
    rcases scan_victimBody s (entry :: rest) entry with ⟨victim, hscan, hfold⟩
    refine ⟨entry, victim, hentry, ?_, ?_⟩
    · exact returns_walk (fun _ ↦ True) (fun _ _ ↦ hmirror) (fun _ _ _ _ _ _ ↦ trivial) trivial hscan
    · simpa [List.argmax, List.argAux] using hfold

/-! ## What every run keeps -/

theorem checksSince_seen (s : State) (history : History) {page : ℕ}
    (hpage : page ∈ history.resident) : History.checksSince (s.seen history :: history) page =
      if s.Accessed page then 0 else history.checksSince page + 1 := by
  have hreset : (s.seen history).Resets page = decide (s.Accessed page) := by
    simp [State.seen, Event.Resets, hpage]
  by_cases haccessed : s.Accessed page
  · simp [History.checksSince, History.checks, hreset, haccessed]
  · have hcheck : (s.seen history).IsCheck = true := rfl
    simp [History.checksSince, History.checks, hreset, haccessed, hcheck]

theorem checks_seen (s : State) (history : History) :
    History.checks (s.seen history :: history) = history.checks + 1 :=
  List.countP_cons_of_pos rfl

theorem checksSince_insert (history : History) (inserted page : ℕ) :
    History.checksSince (.insert inserted :: history) page =
      if page = inserted then 0 else history.checksSince page := by
  by_cases hpage : page = inserted
  · simp [History.checksSince, History.checks, Event.Resets, hpage]
  · have hne : ¬inserted = page := fun heq ↦ hpage heq.symm
    simp [History.checksSince, History.checks, Event.Resets, Event.IsCheck, hpage, hne]

theorem checksSince_evict (history : History) (victim page : ℕ) :
    History.checksSince (.evict victim :: history) page = history.checksSince page := by
  simp [History.checksSince, History.checks, Event.Resets, Event.IsCheck]

theorem checksSince_le (history : History) (page : ℕ) :
    history.checksSince page ≤ history.checks :=
  List.Sublist.countP_le (List.takeWhile_sublist _)

/-- The list holds the resident pages, with the last inserted one first, and each counter is the
number of checks up to the range of the counter. -/
structure Sound (c : Config) : Prop where
  ring : Ring c.lru.links .praListHead (c.history.resident.map .praPageLink)
  own : c.history.resident.Pairwise fun page other ↦
    ¬SamePlace (c.lru.pages page).praVaddr (c.lru.pages other).praVaddr
  mapped : ∀ page ∈ c.history.resident,
    (c.lru.pgdir.getPte (c.lru.pages page).praVaddr).isSome
  visited : ∀ page ∈ c.history.resident,
    (c.lru.pages page).visited = uint64 (c.history.checksSince page)

/-- Only what is stored in the list, in its pages and about their entries matters. -/
theorem Sound.congr {s after : State} {history : History} (h : Sound ⟨s, history⟩)
    (hlinks : after.links = s.links)
    (hpages : ∀ page ∈ history.resident, after.pages page = s.pages page)
    (hmapped : ∀ page ∈ history.resident,
      (after.pgdir.getPte (s.pages page).praVaddr).isSome =
        (s.pgdir.getPte (s.pages page).praVaddr).isSome) :
    Sound ⟨after, history⟩ where
  ring := hlinks ▸ h.ring
  own := h.own.imp_of_mem fun {page other} hpage hother hplace ↦ by
    rw [hpages page hpage, hpages other hother]
    exact hplace
  mapped := fun page hpage ↦ by
    rw [hpages page hpage, hmapped page hpage]
    exact h.mapped page hpage
  visited := fun page hpage ↦ by
    rw [hpages page hpage]
    exact h.visited page hpage

theorem Sound.check {s after : State} {history : History} (h : Sound ⟨s, history⟩)
    (hchecked : Checked history.resident s after) : Sound ⟨after, s.seen history :: history⟩ where
  ring := by
    rw [hchecked.links]
    exact h.ring
  own := by
    simp only [hchecked.praVaddr]
    exact h.own
  mapped := fun page hpage ↦ by
    rw [hchecked.praVaddr, hchecked.mapped]
    exact h.mapped page hpage
  visited := fun page hpage ↦ by
    rw [hchecked.visited page hpage, checksSince_seen s history hpage]
    by_cases haccessed : s.Accessed page
    · rw [if_pos haccessed, if_pos haccessed]
      rfl
    · rw [if_neg haccessed, if_neg haccessed, h.visited page hpage]
      exact Nat.mod_add_mod _ _ _

theorem Sound.insert {s : State} {history : History} {page la : ℕ} (h : Sound ⟨s, history⟩)
    (hpage : page ∉ history.resident) (hentry : (s.pgdir.getPte la).isSome)
    (hown : ∀ other ∈ history.resident, ¬SamePlace (s.pages other).praVaddr la) :
    Sound ⟨State.setPraVaddr { s with
      links := listAdd s.links .praListHead (.praPageLink page)
      pages := Function.update s.pages page { s.pages page with visited := 0 } } page la,
      .insert page :: history⟩ where
  ring := ring_listAdd_head h.ring (by simpa using hpage)
  own := by
    refine List.pairwise_cons.mpr ⟨fun other hother ↦ ?_, h.own.imp_of_mem ?_⟩
    · have hne : other ≠ page := fun heq ↦ hpage (heq ▸ hother)
      simp only [State.setPraVaddr, Function.update_self, Function.update_of_ne hne]
      exact fun hsame ↦ hown other hother hsame.symm
    · intro first second hfirst hsecond hplace
      have hfirstNe : first ≠ page := fun heq ↦ hpage (heq ▸ hfirst)
      have hsecondNe : second ≠ page := fun heq ↦ hpage (heq ▸ hsecond)
      simpa only [State.setPraVaddr, Function.update_of_ne hfirstNe,
        Function.update_of_ne hsecondNe] using hplace
  mapped := fun other hother ↦ by
    rcases List.mem_cons.mp hother with rfl | hother
    · simpa [State.setPraVaddr] using hentry
    · have hne : other ≠ page := fun heq ↦ hpage (heq ▸ hother)
      simpa only [State.setPraVaddr, Function.update_of_ne hne] using h.mapped other hother
  visited := fun other hother ↦ by
    rw [checksSince_insert]
    rcases List.mem_cons.mp hother with rfl | hother
    · simp [State.setPraVaddr, uint64]
    · have hne : other ≠ page := fun heq ↦ hpage (heq ▸ hother)
      simpa only [State.setPraVaddr, Function.update_of_ne hne, if_neg hne] using
        h.visited other hother

theorem Sound.evict {s : State} {history : History} {victim : ℕ} (h : Sound ⟨s, history⟩)
    (hvictim : victim ∈ history.resident) :
    Sound ⟨{ s with links := listDel s.links (.praPageLink victim) }, .evict victim :: history⟩ := by
  have hsublist : (history.resident.erase victim).Sublist history.resident := List.erase_sublist
  refine ⟨?_, h.own.sublist hsublist, fun page hpage ↦ h.mapped page (hsublist.subset hpage),
    fun page hpage ↦ ?_⟩
  · have hring := h.ring
    rcases List.append_of_mem hvictim with ⟨newer, older, hsplit⟩
    have hfresh : victim ∉ newer := by
      have hnodup := nodup_of_ring hring
      rw [hsplit] at hnodup
      exact fun hmem ↦ (List.nodup_append.mp hnodup).2.2 victim hmem victim (by simp) rfl
    have herase : History.resident (.evict victim :: history) = newer ++ older := by
      rw [History.resident, hsplit, List.erase_append_right _ hfresh, List.erase_cons_head]
    rw [herase, List.map_append]
    refine ring_listDel ?_
    simpa only [hsplit, List.map_append, List.map_cons] using hring
  · rw [checksSince_evict]
    exact h.visited page (hsublist.subset hpage)

theorem Sound.returns_check {c : Config} (h : Sound c) :
    ∃ after, Returns (fun fuel ↦ lruAccessedCheck fuel c.lru) after ∧
      Checked c.history.resident c.lru after :=
  returns_lruAccessedCheck h.ring h.own h.mapped

theorem Sound.returns_lruMapSwappable {c : Config} (h : Sound c) (page : ℕ) :
    ∃ after, Checked c.history.resident c.lru after ∧
      Returns (fun fuel ↦ lruMapSwappable fuel c.lru page) { after with
        links := listAdd after.links .praListHead (.praPageLink page)
        pages := Function.update after.pages page { after.pages page with visited := 0 } } := by
  rcases h.returns_check with ⟨after, hreturns, hchecked⟩
  exact ⟨after, hchecked, hreturns.bind (Returns.of_eq fun _ ↦ rfl)⟩

/-- The victim is the first page with the largest counter after the check. -/
theorem Sound.returns_lruSwapOutVictim {c : Config} (h : Sound c) (hsome : c.history.resident ≠ []) :
    ∃ after victim, Checked c.history.resident c.lru after ∧
      victim ∈ c.history.resident.reverse.argmax (fun page ↦ (after.pages page).visited) ∧
      Returns (fun fuel ↦ lruSwapOutVictim fuel c.lru false)
        (victim, { after with links := listDel after.links (.praPageLink victim) }) := by
  rcases h.returns_check with ⟨after, hreturns, hchecked⟩
  have hring : Ring after.links .praListHead (c.history.resident.map .praPageLink) := by
    rw [hchecked.links]
    exact h.ring
  rcases returns_victim hsome hring with ⟨entry, victim, hentry, hvictim, hargmax⟩
  refine ⟨after, victim, hchecked, hargmax, hreturns.bind ?_⟩
  simp only [hentry, Outcome.require_of_true, Outcome.ok_bind]
  exact hvictim.bind (Returns.of_eq fun _ ↦ rfl)

theorem exists_mapSwappable {c : Config} (page la : ℕ) (h : Sound c)
    (hpage : page ∉ c.history.resident) (hentry : (c.lru.pgdir.getPte la).isSome)
    (hown : ∀ other ∈ c.history.resident, ¬SamePlace (c.lru.pages other).praVaddr la) :
    ∃ next, Step c next ∧ next.history = .insert page :: c.lru.seen c.history :: c.history ∧
      (next.lru.pages page).praVaddr = la ∧
      ∀ lb, (next.lru.pgdir.getPte lb).isSome = (c.lru.pgdir.getPte lb).isSome := by
  rcases h.returns_lruMapSwappable page with ⟨after, hchecked, hreturns⟩
  refine ⟨_, .mapSwappable hpage hentry hown hreturns, rfl, ?_, hchecked.mapped⟩
  simp [State.setPraVaddr]

theorem sound_first {c : Config} (h : First c) : Sound c := by
  rcases h with ⟨⟩
  rename_i s
  exact ⟨ring_listInit s.links .praListHead, List.Pairwise.nil, by simp [History.resident],
    by simp [History.resident]⟩

/-- Every step keeps the list and the counters. -/
theorem Sound.step {c next : Config} (h : Sound c) (hstep : Step c next) : Sound next := by
  cases hstep with
  | other hlinks hpages hentry =>
    exact h.congr hlinks hpages fun page hpage ↦ by rw [hentry page hpage]
  | access hpage =>
    exact h.congr rfl (fun _ _ ↦ rfl) fun other _ ↦ isSome_setPte (h.mapped _ hpage) _
  | mapSwappable hpage hentry hown hreturns =>
    rename_i s after history page la
    rcases h.returns_lruMapSwappable page with ⟨checked, hchecked, hafter⟩
    cases hreturns.unique hafter
    refine (h.check hchecked).insert hpage ?_ fun other hother ↦ ?_
    · rw [hchecked.mapped]
      exact hentry
    · rw [hchecked.praVaddr]
      exact hown other hother
  | swapOutVictim hsome hreturns =>
    rcases h.returns_lruSwapOutVictim hsome with ⟨checked, victim, hchecked, hargmax, hafter⟩
    cases hreturns.unique hafter
    exact (h.check hchecked).evict (List.mem_reverse.mp (List.argmax_mem hargmax))

/-! ## The choice -/

theorem Sound.longestUnused {s checked : State} {history : History} {victim : ℕ}
    (h : Sound ⟨s, history⟩) (hchecked : Checked history.resident s checked)
    (hrange : history.checks + 1 < 2 ^ 64)
    (hargmax : victim ∈ history.resident.reverse.argmax fun page ↦ (checked.pages page).visited) :
    LongestUnused s history victim
      { checked with links := listDel checked.links (.praPageLink victim) } := by
  have hsound := h.check hchecked
  have hnodup := nodup_of_ring h.ring
  have hvisited : ∀ page ∈ history.resident, (checked.pages page).visited =
      History.checksSince (s.seen history :: history) page := by
    intro page hpage
    have hle := checksSince_le (s.seen history :: history) page
    rw [checks_seen] at hle
    exact (hsound.visited page hpage).trans (Nat.mod_eq_of_lt (hle.trans_lt hrange))
  rcases split_of_argmax (List.nodup_reverse.mpr hnodup) hargmax
    with ⟨before, after, hsplit, hbefore, hafter⟩
  have hresident : history.resident = after.reverse ++ victim :: before.reverse := by
    rw [← List.reverse_reverse history.resident, hsplit]
    simp
  have hvictim := hvisited victim (by simp [hresident])
  have hring := hsound.ring
  refine ⟨after.reverse, before.reverse, hresident, fun page hpage ↦ ?_, fun page hpage ↦ ?_, ?_, ?_⟩
  · rw [← hvisited page (by simp_all), ← hvictim]
    exact hafter page (List.mem_reverse.mp hpage)
  · rw [← hvisited page (by simp_all), ← hvictim]
    exact hbefore page (List.mem_reverse.mp hpage)
  · rw [List.map_append]
    refine ring_listDel ?_
    simpa only [History.resident, State.seen, hresident, List.map_append, List.map_cons] using hring
  · rw [hresident] at hnodup
    exact (List.nodup_middle.mp hnodup |> List.nodup_cons.mp).1

/-- In every run each counter is the number of checks since its page was inserted or last seen with
`PTE_A` set, and a selection takes the page that has waited longest. -/
theorem longestUnused_run {c : Config} (h : Reachable First Step c)
    (hrange : c.history.checks < 2 ^ 64) :
    Ring c.lru.links .praListHead (c.history.resident.map .praPageLink) ∧
    (∀ page ∈ c.history.resident, (c.lru.pages page).visited = c.history.checksSince page) ∧
    (c.history.resident ≠ [] → c.history.checks + 1 < 2 ^ 64 → ∃ victim after,
      Returns (fun fuel ↦ lruSwapOutVictim fuel c.lru false) (victim, after) ∧
        LongestUnused c.lru c.history victim after) := by
  have hsound : Sound c := h.invariant (fun _ ↦ sound_first) fun _ _ hstate ↦ hstate.step
  refine ⟨hsound.ring, fun page hpage ↦ ?_, fun hsome hchecks ↦ ?_⟩
  · rw [hsound.visited page hpage]
    exact Nat.mod_eq_of_lt ((checksSince_le c.history page).trans_lt hrange)
  · rcases hsound.returns_lruSwapOutVictim hsome with ⟨checked, victim, hchecked, hargmax, hreturns⟩
    exact ⟨victim, _, hreturns, hsound.longestUnused hchecked hchecks hargmax⟩

/-- An address space in which every address has an entry. -/
def emptySpace : State where
  links := fun _ ↦ ⟨.praListHead, .praListHead⟩
  pages := fun _ ↦ ⟨0, 0⟩
  pgdir := ⟨0, fun _ ↦ some ⟨1, fun _ ↦ some ⟨2, fun _ ↦ 0⟩⟩⟩

theorem longestUnused_two : ∃ c : Config, c.history.resident = [2, 1] ∧ ∃ victim after,
    Returns (fun fuel ↦ lruSwapOutVictim fuel c.lru false) (victim, after) ∧
      LongestUnused c.lru c.history victim after := by
  have hfirst : First ⟨lruInitMm emptySpace, []⟩ := .mk
  rcases exists_mapSwappable 1 0x1000 (sound_first hfirst) (by simp [History.resident]) rfl
    (by simp [History.resident]) with ⟨one, hone, honeHistory, hla, honeMapped⟩
  have honeSound := (sound_first hfirst).step hone
  have honeResident : one.history.resident = [1] := by rw [honeHistory]; rfl
  rcases exists_mapSwappable 2 0x2000 honeSound (by simp [honeResident])
    (by rw [honeMapped]; rfl) (by simp [honeResident, hla]; decide)
    with ⟨two, htwo, htwoHistory, -, -⟩
  have hresident : two.history.resident = [2, 1] := by
    rw [htwoHistory, ← honeResident]
    rfl
  have hchecks : two.history.checks = 2 := by
    rw [htwoHistory, honeHistory]
    rfl
  have hrun : Reachable First Step two := .step (.step (.first hfirst) hone) htwo
  exact ⟨two, hresident,
    (longestUnused_run hrun (by omega)).2.2 (by simp [hresident]) (by omega)⟩

end Ucore.SwapLru
