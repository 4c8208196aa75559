import Ucore.Mm.SwapLru

/-!
# The clock swap manager

`kern/mm/swap_clock.c`, on the list nodes and pages of the other manager. The hand `curr_ptr` skips
a page whose field `visited` is one and clears the field. A page goes into the list with the field
cleared, and nothing ever sets it: an access to the page sets `PTE_A` in its entry, which the
manager does not look at. So the victim is always the page at the hand.
-/

namespace Ucore.SwapClock

open Library Mm SwapLru

structure State where
  links : Links PraNode
  currPtr : PraNode
  pages : ℕ → Page
  pgdir : Pgdir

def clockInitMm (s : State) : State :=
  { s with links := listInit s.links .praListHead, currPtr := .praListHead }

def clockMapSwappable (s : State) (page : ℕ) : State :=
  { s with
    links := listAddBefore s.links s.currPtr (.praPageLink page)
    pages := Function.update s.pages page { s.pages page with visited := 0 } }

/-- The hand steps over the header. -/
def State.skipHead (s : State) : State :=
  if s.currPtr = .praListHead then { s with currPtr := listNext s.links s.currPtr } else s

/-- One round of the loop in `_clock_swap_out_victim`. The node after the header of an empty list is
the header again, which is in no page. -/
def clockRound (start : State) : Outcome (State ⊕ ℕ × State) :=
  let s := start.skipHead
  match s.currPtr with
  | .praListHead => .error .panic
  | .praPageLink page =>
    if (s.pages page).visited = 1 then
      .ok (.inl { s with
        pages := Function.update s.pages page { s.pages page with visited := 0 }
        currPtr := listNext s.links (.praPageLink page) })
    else
      let links := listDel s.links (.praPageLink page)
      .ok (.inr (page, { s with links, currPtr := listNext links (.praPageLink page) }))

def clockSwapOutVictim (fuel : ℕ) (s : State) (inTick : Bool) : Outcome (ℕ × State) := do
  Outcome.require (inTick = false)
  loop clockRound fuel s

/-! ## What happened so far -/

/-- A page went into the list, was accessed, was passed by the hand, or left the list. -/
inductive Event where
  | insert (page : ℕ)
  | access (page : ℕ)
  | pass (page : ℕ)
  | evict (page : ℕ)
  deriving DecidableEq

/-- Events with the last one first. -/
abbrev History := List Event

/-- The page was accessed since it was inserted and since the hand last passed it. -/
def History.Accessed (page : ℕ) : History → Prop
  | [] => False
  | .insert other :: history => other ≠ page ∧ History.Accessed page history
  | .access other :: history => other = page ∨ History.Accessed page history
  | .pass other :: history => other ≠ page ∧ History.Accessed page history
  | .evict _ :: history => History.Accessed page history

/-- The pages that were inserted and not evicted since. -/
def History.resident : History → List ℕ
  | [] => []
  | .insert page :: history => page :: History.resident history
  | .access _ :: history => History.resident history
  | .pass _ :: history => History.resident history
  | .evict page :: history => (History.resident history).erase page

/-- The page that the hand is at, or would be at after stepping over the header. -/
def State.atHand (s : State) : Option ℕ :=
  match s.skipHead.currPtr with
  | .praListHead => none
  | .praPageLink page => some page

/-- The pages that the hand passes in the rounds of a selection, the first one first, and how the
selection ends. -/
inductive Rounds : State → List ℕ → ℕ × State → Prop
  | last {s : State} {result : ℕ × State} (hround : clockRound s = .ok (.inr result)) :
      Rounds s [] result
  | more {s next : State} {page : ℕ} {passed : List ℕ} {result : ℕ × State}
      (hround : clockRound s = .ok (.inl next)) (hpage : s.atHand = some page)
      (hrest : Rounds next passed result) : Rounds s (page :: passed) result

/-! ## Runs -/

structure Config where
  clock : State
  history : History

/-- The hardware sets `PTE_A` for an access to the page. -/
def State.access (s : State) (page : ℕ) : State :=
  let la := (s.pages page).praVaddr
  { s with pgdir := s.pgdir.setPte la (s.pgdir.pte la ||| PTE_A) }

/-- The history after the hand passed some pages, the first one first. -/
def History.afterPassing (history : History) (passed : List ℕ) : History :=
  passed.reverse.map .pass ++ history

inductive First : Config → Prop
  | mk {s : State} : First ⟨clockInitMm s, []⟩

/-- The steps of a run. Whatever else the kernel does leaves the list, the hand and the pages in the
list alone. -/
inductive Step : Config → Config → Prop
  | other {s after : State} {history : History} (hlinks : after.links = s.links)
      (hcurrPtr : after.currPtr = s.currPtr)
      (hpages : ∀ page ∈ history.resident, after.pages page = s.pages page) :
      Step ⟨s, history⟩ ⟨after, history⟩
  | access {s : State} {history : History} {page : ℕ} (hpage : page ∈ history.resident) :
      Step ⟨s, history⟩ ⟨s.access page, .access page :: history⟩
  | mapSwappable {s : State} {history : History} {page : ℕ} (hpage : page ∉ history.resident) :
      Step ⟨s, history⟩ ⟨clockMapSwappable s page, .insert page :: history⟩
  | swapOutVictim {s after : State} {history : History} {victim : ℕ} {passed : List ℕ}
      (hsome : history.resident ≠ [])
      (hreturns : Returns (fun fuel ↦ clockSwapOutVictim fuel s false) (victim, after))
      (hrounds : Rounds s passed (victim, after)) :
      Step ⟨s, history⟩ ⟨after, .evict victim :: history.afterPassing passed⟩

/-- What a selection has to do: come to an end, take exactly one page out of the list, leave the
hand on an element of the list, and not take a page that was accessed since the hand last passed it
while there is another that was not. -/
def SecondChance (c : Config) : Prop :=
  ∃ victim after passed, Returns (fun fuel ↦ clockSwapOutVictim fuel c.clock false) (victim, after) ∧
    Rounds c.clock passed (victim, after) ∧
    (∃ left right, Ring c.clock.links .praListHead ((left ++ victim :: right).map .praPageLink) ∧
      Ring after.links .praListHead ((left ++ right).map .praPageLink) ∧
      after.currPtr ∈ PraNode.praListHead :: (left ++ right).map .praPageLink) ∧
    ((∃ page ∈ c.history.resident, ¬(c.history.afterPassing passed).Accessed page) →
      ¬(c.history.afterPassing passed).Accessed victim)

/-- The page at the hand was not accessed since the hand last passed it, or all pages were. -/
def HandUnused (c : Config) : Prop :=
  ∀ page, c.clock.atHand = some page → c.history.Accessed page →
    ∀ other ∈ c.history.resident, c.history.Accessed other

/-! ## What every run keeps -/

/-- The list holds the resident pages in some order, the hand is on one of its elements, and no
page in it is marked as visited. -/
structure Sound (c : Config) (order : List ℕ) : Prop where
  ring : Ring c.clock.links .praListHead (order.map .praPageLink)
  perm : order.Perm c.history.resident
  hand : c.clock.currPtr ∈ PraNode.praListHead :: order.map .praPageLink
  unvisited : ∀ page ∈ c.history.resident, (c.clock.pages page).visited = 0

variable {c : Config} {s : State} {history : History} {order : List ℕ}

theorem Sound.congr {after : State} (h : Sound ⟨s, history⟩ order) (hlinks : after.links = s.links)
    (hcurrPtr : after.currPtr = s.currPtr)
    (hpages : ∀ page ∈ history.resident, after.pages page = s.pages page) :
    Sound ⟨after, history⟩ order where
  ring := hlinks ▸ h.ring
  perm := h.perm
  hand := hcurrPtr ▸ h.hand
  unvisited := fun page hpage ↦ by
    rw [hpages page hpage]
    exact h.unvisited page hpage

theorem nodup_of_ring {links : Links PraNode}
    (h : Ring links .praListHead (order.map .praPageLink)) : order.Nodup :=
  List.Nodup.of_map _ (List.nodup_cons.mp h.nodup).2

/-- A page goes in right behind the hand. -/
theorem Sound.insert {page : ℕ} (h : Sound ⟨s, history⟩ order) (hpage : page ∉ history.resident) :
    ∃ order', Sound ⟨clockMapSwappable s page, .insert page :: history⟩ order' := by
  have hfresh : page ∉ order := fun hmem ↦ hpage (h.perm.mem_iff.mp hmem)
  -- the place of the hand among the pages
  have hplace : ∃ left right, order = left ++ right ∧
      (right.map PraNode.praPageLink).headD .praListHead = s.currPtr := by
    rcases List.mem_cons.mp h.hand with hhead | hlisted
    · exact ⟨order, [], by simp, hhead.symm⟩
    · rcases List.mem_map.mp hlisted with ⟨current, hcurrent, hlink⟩
      rcases List.append_of_mem hcurrent with ⟨left, right, rfl⟩
      exact ⟨left, current :: right, rfl, by simp [hlink]⟩
  rcases hplace with ⟨left, right, rfl, hcurrent⟩
  have hring := h.ring
  rw [List.map_append] at hring
  have hnew : PraNode.praPageLink page ∉ PraNode.praListHead ::
      (left.map .praPageLink ++ right.map .praPageLink) := by simpa using hfresh
  have hadded := ring_listAddBefore hring hnew
  rw [hcurrent] at hadded
  refine ⟨left ++ page :: right, by simpa [clockMapSwappable] using hadded, ?_, ?_, fun other hother ↦ ?_⟩
  · exact List.perm_middle.trans (h.perm.cons page)
  · have hhand := h.hand
    simp only [clockMapSwappable, List.mem_cons, List.map_append, List.map_cons, List.mem_append]
      at hhand ⊢
    tauto
  · rcases List.mem_cons.mp hother with rfl | hother
    · simp [clockMapSwappable]
    · have hne : other ≠ page := fun heq ↦ hpage (heq ▸ hother)
      simpa only [clockMapSwappable, Function.update_of_ne hne] using h.unvisited other hother

/-- With a page in the list, the hand is at one after stepping over the header. -/
theorem Sound.atHand (h : Sound c order) (hsome : c.history.resident ≠ []) :
    ∃ left page right, order = left ++ page :: right ∧
      c.clock.skipHead = { c.clock with currPtr := .praPageLink page } := by
  rcases List.mem_cons.mp h.hand with hhead | hlisted
  · cases order with
    | nil => exact absurd h.perm.nil_eq.symm hsome
    | cons page right =>
      have hnext : listNext c.clock.links .praListHead = .praPageLink page := h.ring.next_head
      exact ⟨[], page, right, rfl, by rw [State.skipHead, if_pos hhead, hhead, hnext]⟩
  · rcases List.mem_map.mp hlisted with ⟨page, hpage, hlink⟩
    rcases List.append_of_mem hpage with ⟨left, right, rfl⟩
    refine ⟨left, page, right, rfl, ?_⟩
    rw [State.skipHead, if_neg (by simp [← hlink]), hlink]

/-- Unlinking a page leaves its own links as they were. -/
theorem listNext_listDel {links : Links PraNode} {left right : List PraNode} {elm : PraNode}
    (h : Ring links .praListHead (left ++ elm :: right)) :
    listNext (listDel links elm) elm = right.headD .praListHead := by
  have hmem : elm ∈ left ++ elm :: right := by simp
  have hsame : listDel links elm elm = links elm :=
    Links.joinAround_of_ne links (h.prev_ne_self hmem).symm (h.next_ne_self hmem).symm
  rw [listNext, hsame]
  exact h.next_eq

/-- The only round of a selection takes the page at the hand. -/
theorem Sound.clockRound (h : Sound c order) (hsome : c.history.resident ≠ []) :
    ∃ left page right after, order = left ++ page :: right ∧ c.clock.atHand = some page ∧
      SwapClock.clockRound c.clock = .ok (.inr (page, after)) ∧
      Sound ⟨after, .evict page :: c.history⟩ (left ++ right) := by
  rcases h.atHand hsome with ⟨left, page, right, rfl, hskip⟩
  have hresident : page ∈ c.history.resident := h.perm.mem_iff.mp (by simp)
  have hunvisited : ¬(c.clock.pages page).visited = 1 := by
    rw [h.unvisited page hresident]
    exact zero_ne_one
  have hring := h.ring
  rw [List.map_append, List.map_cons] at hring
  have hdeleted := ring_listDel hring
  rw [← List.map_append] at hdeleted
  have hround : SwapClock.clockRound c.clock = .ok (.inr (page, { c.clock with
      links := listDel c.clock.links (.praPageLink page)
      currPtr := listNext (listDel c.clock.links (.praPageLink page)) (.praPageLink page) })) := by
    simp only [SwapClock.clockRound, hskip, if_neg hunvisited]
  refine ⟨left, page, right, _, rfl, by rw [State.atHand, hskip], hround, hdeleted, ?_, ?_, ?_⟩
  · have hperm := h.perm.erase page
    rwa [List.erase_append_right _ ?_, List.erase_cons_head] at hperm
    intro hleft
    exact (List.nodup_append.mp (nodup_of_ring h.ring)).2.2 page hleft page (by simp) rfl
  · dsimp only
    rw [listNext_listDel hring, List.map_append]
    rcases List.mem_cons.mp (Ring.headD_mem (right.map PraNode.praPageLink) .praListHead)
      with hhead | hright
    · rw [hhead]
      exact List.mem_cons_self
    · exact List.mem_cons_of_mem _ (List.mem_append_right _ hright)
  · exact fun other hother ↦ h.unvisited other (List.mem_of_mem_erase hother)

/-- A selection ends in its first round, so that the hand passes no page. -/
theorem Sound.returns_clockSwapOutVictim (h : Sound c order) (hsome : c.history.resident ≠ []) :
    ∃ left page right after, order = left ++ page :: right ∧ c.clock.atHand = some page ∧
      Returns (fun fuel ↦ clockSwapOutVictim fuel c.clock false) (page, after) ∧
      (∀ passed result, Rounds c.clock passed result ↔ passed = [] ∧ result = (page, after)) ∧
      Sound ⟨after, .evict page :: c.history⟩ (left ++ right) := by
  rcases h.clockRound hsome with ⟨left, page, right, after, hsplit, hhand, hround, hafter⟩
  refine ⟨left, page, right, after, hsplit, hhand, ?_, fun passed result ↦ ⟨?_, ?_⟩, hafter⟩
  · simpa [clockSwapOutVictim] using Returns.loop_inr hround
  · intro hrounds
    cases hrounds with
    | last hlast =>
      rw [hround] at hlast
      cases hlast
      exact ⟨rfl, rfl⟩
    | more hmore =>
      rw [hround] at hmore
      cases hmore
  · rintro ⟨rfl, rfl⟩
    exact .last hround

theorem sound_first (h : First c) : Sound c [] := by
  rcases h with ⟨⟩
  rename_i s
  exact ⟨ring_listInit s.links .praListHead, List.Perm.refl [], List.mem_singleton_self _,
    by simp [History.resident]⟩

theorem Sound.step {next : Config} (h : Sound c order) (hstep : Step c next) :
    ∃ order', Sound next order' := by
  cases hstep with
  | other hlinks hcurrPtr hpages => exact ⟨order, h.congr hlinks hcurrPtr hpages⟩
  | access hpage => exact ⟨order, h.ring, h.perm, h.hand, h.unvisited⟩
  | mapSwappable hpage => exact h.insert hpage
  | swapOutVictim hsome hreturns hrounds =>
    rcases h.returns_clockSwapOutVictim hsome
      with ⟨left, page, right, after, -, -, -, honly, hafter⟩
    rcases (honly _ _).mp hrounds with ⟨rfl, heq⟩
    cases heq
    exact ⟨left ++ right, hafter⟩

theorem exists_sound (h : Reachable First Step c) : ∃ order, Sound c order := by
  induction h with
  | first hfirst => exact ⟨[], sound_first hfirst⟩
  | step _ hstep ih =>
    rcases ih with ⟨order, hsound⟩
    exact hsound.step hstep

/-! ## The choice -/

theorem Sound.secondChance (h : Sound c order) (hsome : c.history.resident ≠ []) :
    SecondChance c ↔ HandUnused c := by
  rcases h.returns_clockSwapOutVictim hsome
    with ⟨left, page, right, after, rfl, hhand, hreturns, honly, hafter⟩
  constructor
  · rintro ⟨victim, other, passed, -, hrounds, -, hspared⟩ hand hhand' haccessed
    rcases (honly _ _).mp hrounds with ⟨rfl, heq⟩
    cases heq
    cases hhand.symm.trans hhand'
    by_contra hothers
    simp only [not_forall] at hothers
    rcases hothers with ⟨other, hother, hspare⟩
    exact hspared ⟨other, hother, hspare⟩ haccessed
  · intro hunused
    refine ⟨page, after, [], hreturns, (honly _ _).mpr ⟨rfl, rfl⟩,
      ⟨left, right, h.ring, hafter.ring, hafter.hand⟩, fun hother haccessed ↦ ?_⟩
    rcases hother with ⟨other, hother, hspared⟩
    exact hspared (hunused page hhand haccessed other hother)

/-- In every run a selection gives the second chance exactly when the page at the hand was not
accessed since the hand last passed it, or every page in the list was. -/
theorem secondChance_iff (h : Reachable First Step c) (hsome : c.history.resident ≠ []) :
    SecondChance c ↔ HandUnused c := by
  rcases exists_sound h with ⟨order, hsound⟩
  exact hsound.secondChance hsome

def start : State where
  links := fun _ ↦ ⟨.praListHead, .praListHead⟩
  currPtr := .praListHead
  pages := fun _ ↦ ⟨0, 0⟩
  pgdir := ⟨0, fun _ ↦ none⟩

theorem secondChance_insert :
    SecondChance ⟨clockMapSwappable (clockInitMm start) 1, [.insert 1]⟩ := by
  have hrun : Reachable First Step ⟨clockMapSwappable (clockInitMm start) 1, [.insert 1]⟩ :=
    .step (.first .mk) (.mapSwappable (by simp [History.resident]))
  refine (secondChance_iff hrun (by simp [History.resident])).mpr fun page hpage haccessed ↦ ?_
  simp [History.Accessed] at haccessed

/-- Two pages go in and the first one is accessed. -/
def firstAccessed : Config where
  clock := (clockMapSwappable (clockMapSwappable (clockInitMm start) 1) 2).access 1
  history := [.access 1, .insert 2, .insert 1]

theorem reachable_firstAccessed : Reachable First Step firstAccessed := by
  have hone : Reachable First Step ⟨clockMapSwappable (clockInitMm start) 1, [.insert 1]⟩ :=
    .step (.first .mk) (.mapSwappable (by simp [History.resident]))
  have htwo := hone.step (.mapSwappable (show 2 ∉ _ by simp [History.resident]))
  exact htwo.step (.access (by simp [History.resident]))

/-- The selection takes the accessed page, and the other was never accessed. -/
theorem not_secondChance_firstAccessed : Reachable First Step firstAccessed ∧
    firstAccessed.history.resident ≠ [] ∧ ¬SecondChance firstAccessed := by
  have hsome : firstAccessed.history.resident ≠ [] := by decide
  refine ⟨reachable_firstAccessed, hsome, fun hchance ↦ ?_⟩
  rcases exists_sound reachable_firstAccessed with ⟨order, hsound⟩
  have hunused := (hsound.secondChance hsome).mp hchance 1 rfl (Or.inl rfl) 2 (by decide)
  simp [firstAccessed, History.Accessed] at hunused

end Ucore.SwapClock
