import Ucore.Sync.SemRun

/-!
# The philosophers of `kern/sync/check_sync.c`

Five kernel threads that share the semaphores `mutex` and `s[N]`. Each one runs through the loop of
`philosopher_using_semaphore`, one call or store after the other, and anything else may happen in
between. No two neighbours eat at once, and a philosopher waits only while somebody else can go on.
-/

namespace Ucore.Sync

open Library Schedule

def N : ℕ := 5

/-- The number of a philosopher. -/
abbrev Philosopher := Fin N

/-- `LEFT`. -/
def left (i : Philosopher) : Philosopher := ⟨(i.val + N - 1) % N, Nat.mod_lt _ (by decide)⟩

/-- `RIGHT`. -/
def right (i : Philosopher) : Philosopher := ⟨(i.val + 1) % N, Nat.mod_lt _ (by decide)⟩

inductive PhiState where
  | thinking
  | hungry
  | eating
  deriving DecidableEq

/-- The addresses of `mutex`, of the semaphores `s`, and of the threads. -/
structure Seats where
  proc : Philosopher → Proc
  mutex : Sem
  s : Philosopher → Sem
  proc_injective : Function.Injective proc
  s_injective : Function.Injective s
  s_ne_mutex : ∀ i, s i ≠ mutex

/-- `phi_test_sema`: the array `state_sema`, and whether `s[i]` is given a permit. -/
def phiTestSema (stateSema : Philosopher → PhiState) (i : Philosopher) :
    (Philosopher → PhiState) × Bool :=
  if stateSema i = .hungry ∧ stateSema (left i) ≠ .eating ∧ stateSema (right i) ≠ .eating then
    (Function.update stateSema i .eating, true)
  else (stateSema, false)

/-! ## The program -/

/-- Where a philosopher is: what it does next, or where it waits. -/
inductive Place where
  | thinking
  | takeHungry
  | takeTest
  | takeUp
  | takeDown
  | eating
  | putThinking
  | putLeft
  | putRight
  | putUp
  deriving DecidableEq

inductive Instr where
  | down (sem : Sem)
  | up (sem : Sem)
  | store (state : PhiState)
  | test (i : Philosopher)

/-- The body of the loop: `phi_take_forks_sema` and `phi_put_forks_sema`. -/
def instr (seats : Seats) (i : Philosopher) : Place → Instr × Place
  | .thinking => (.down seats.mutex, .takeHungry)
  | .takeHungry => (.store .hungry, .takeTest)
  | .takeTest => (.test i, .takeUp)
  | .takeUp => (.up seats.mutex, .takeDown)
  | .takeDown => (.down (seats.s i), .eating)
  | .eating => (.down seats.mutex, .putThinking)
  | .putThinking => (.store .thinking, .putLeft)
  | .putLeft => (.test (left i), .putRight)
  | .putRight => (.test (right i), .putUp)
  | .putUp => (.up seats.mutex, .thinking)

/-- The kernel with the philosophers in it. -/
structure Table where
  world : World
  stateSema : Philosopher → PhiState
  place : Philosopher → Place

namespace Table

def moveTo (t : Table) (i : Philosopher) (place : Place) : Table :=
  { t with place := Function.update t.place i place }

def stage (t : Table) (seats : Seats) (i : Philosopher) : Stage Sem :=
  t.world.spec.stage (seats.proc i)

end Table

/-- The semaphore belongs to the philosophers. -/
def Seats.Own (seats : Seats) (sem : Sem) : Prop := sem = seats.mutex ∨ ∃ i, sem = seats.s i

/-- A step that leaves the semaphores of the philosophers alone. They sleep, or end, only when they
think or eat. -/
def Elsewhere (seats : Seats) (t : Table) : Event → Prop
  | .init sem _ | .up sem | .down sem | .tryDown sem =>
    ¬seats.Own sem ∧ ∀ i, t.world.current ≠ seats.proc i
  | .leave => ∀ i, t.world.current ≠ seats.proc i
  | .block _ => ∀ i, t.world.current = seats.proc i → t.place i = .thinking ∨ t.place i = .eating
  | .exit => ∀ i, t.world.current = seats.proc i → t.place i = .thinking
  | _ => True

/-- The steps of the philosophers, and of all others. -/
inductive Move (seats : Seats) (t : Table) : Table → Prop
  | take {i : Philosopher} {sem : Sem} {place : Place} {world : World}
    (hcurrent : t.world.current = seats.proc i)
    (hinstr : instr seats i (t.place i) = (.down sem, place))
    (hstep : Step t.world (.down sem) world) (hpassed : world.phase (seats.proc i) = .running) :
    Move seats t ({ t with world }.moveTo i place)
  | wait {i : Philosopher} {sem : Sem} {place : Place} {world : World}
    (hcurrent : t.world.current = seats.proc i)
    (hinstr : instr seats i (t.place i) = (.down sem, place))
    (hstep : Step t.world (.down sem) world) (hwaits : world.phase (seats.proc i) ≠ .running) :
    Move seats t { t with world }
  | leave {i : Philosopher} {sem : Sem} {place : Place} {world : World}
    (hcurrent : t.world.current = seats.proc i)
    (hinstr : instr seats i (t.place i) = (.down sem, place))
    (hstep : Step t.world .leave world) : Move seats t ({ t with world }.moveTo i place)
  | up {i : Philosopher} {sem : Sem} {place : Place} {world : World}
    (hcurrent : t.world.current = seats.proc i)
    (hinstr : instr seats i (t.place i) = (.up sem, place))
    (hstep : Step t.world (.up sem) world) : Move seats t ({ t with world }.moveTo i place)
  | store {i : Philosopher} {state : PhiState} {place : Place}
    (hcurrent : t.world.current = seats.proc i) (hphase : t.world.phase t.world.current = .running)
    (hinstr : instr seats i (t.place i) = (.store state, place)) :
    Move seats t
      ({ t with stateSema := Function.update t.stateSema i state }.moveTo i place)
  | test {i tested : Philosopher} {place : Place} {world : World}
    (hcurrent : t.world.current = seats.proc i) (hphase : t.world.phase t.world.current = .running)
    (hinstr : instr seats i (t.place i) = (.test tested, place))
    (hstep : if (phiTestSema t.stateSema tested).2 then
      Step t.world (.up (seats.s tested)) world else world = t.world) :
    Move seats t ({ t with
      world
      stateSema := (phiTestSema t.stateSema tested).1 }.moveTo i place)
  | other {event : Event} {world : World} (hstep : Step t.world event world)
    (helsewhere : Elsewhere seats t event) : Move seats t { t with world }

/-- In `check_sync`, when the semaphores are initialised and the threads are there. -/
structure Laid (seats : Seats) (t : Table) : Prop where
  reachable : Reachable First (fun w next ↦ ∃ event, Step w event next) t.world
  mutex : (t.world.spec.sem seats.mutex).value = 1
  s : ∀ i, (t.world.spec.sem (seats.s i)).value = 0
  unused : ∀ proc sem, seats.Own sem →
    t.world.spec.stage proc ≠ .waiting sem ∧ t.world.spec.stage proc ≠ .granted sem
  stage : ∀ i, t.stage seats i = .running
  stateSema : ∀ i, t.stateSema i = .thinking
  place : ∀ i, t.place i = .thinking

/-! ## The neighbours -/

section Neighbours

variable (i : Philosopher)

@[simp]
theorem right_left : right (left i) = i := by revert i; decide

@[simp]
theorem left_right : left (right i) = i := by revert i; decide

theorem left_ne : left i ≠ i := by revert i; decide

theorem right_ne : right i ≠ i := by revert i; decide

theorem left_ne_right : left i ≠ right i := by revert i; decide

end Neighbours

theorem left_eq_iff {i j : Philosopher} : left i = j ↔ i = right j :=
  ⟨fun h ↦ h ▸ (right_left i).symm, fun h ↦ h ▸ left_right j⟩

theorem right_eq_iff {i j : Philosopher} : right i = j ↔ i = left j :=
  ⟨fun h ↦ h ▸ (left_right i).symm, fun h ↦ h ▸ right_left j⟩

/-! ## Who is where -/

/-- The philosopher holds `mutex`. -/
def Critical (seats : Seats) (spec : Semaphores Sem Proc) (place : Philosopher → Place)
    (i : Philosopher) : Prop :=
  match place i with
  | .thinking | .eating => spec.stage (seats.proc i) = .granted seats.mutex
  | .takeDown => False
  | _ => True

/-- A place between `down` and `up` of `mutex`. -/
def Place.Inner : Place → Prop
  | .thinking | .eating | .takeDown => False
  | _ => True

/-- The philosophers wait where the program says, nobody else uses their semaphores, and one of
them at a time holds `mutex`. -/
structure Control (seats : Seats) (spec : Semaphores Sem Proc) (place : Philosopher → Place) :
    Prop where
  fair : spec.Fair
  stage : ∀ i sem, spec.stage (seats.proc i) = .waiting sem ∨
    spec.stage (seats.proc i) = .granted sem → ∃ next, instr seats i (place i) = (.down sem, next)
  guest : ∀ proc sem, seats.Own sem → spec.stage proc = .waiting sem ∨
    spec.stage proc = .granted sem → ∃ i, proc = seats.proc i
  mutex : (spec.sem seats.mutex).value = 1 ∧ (∀ i, ¬Critical seats spec place i) ∨
    (spec.sem seats.mutex).value = 0 ∧ ∃ i, ∀ j, Critical seats spec place j ↔ j = i

section Control

variable {seats : Seats} {spec next : Semaphores Sem Proc} {place : Philosopher → Place}
  {i j : Philosopher} {target : Place} {sem : Sem}

theorem critical_inner (h : (place i).Inner) : Critical seats spec place i := by
  unfold Critical
  cases hplace : place i with
  | thinking | eating | takeDown =>
    rw [hplace] at h
    exact h.elim
  | _ => trivial

/-- Holding `mutex` depends on the place and on having been granted it. -/
theorem critical_congr {after : Philosopher → Place} (hplace : after i = place i)
    (hstage : next.stage (seats.proc i) = .granted seats.mutex ↔
      spec.stage (seats.proc i) = .granted seats.mutex) :
    Critical seats next after i ↔ Critical seats spec place i := by
  unfold Critical
  rw [hplace]
  cases place i <;> simp [hstage]

/-! ### The instructions -/

theorem instr_down {here : Place} (h : instr seats i here = (.down sem, target)) :
    sem = seats.mutex ∧ (here = .thinking ∨ here = .eating) ∧ target.Inner ∨
      sem = seats.s i ∧ here = .takeDown ∧ target = .eating := by
  cases here <;> cases h <;> simp [Place.Inner]

theorem instr_up {here : Place} (h : instr seats i here = (.up sem, target)) :
    sem = seats.mutex ∧ (here = .takeUp ∧ target = .takeDown ∨ here = .putUp ∧ target = .thinking) := by
  cases here <;> cases h <;> simp

theorem instr_store {here : Place} {state : PhiState}
    (h : instr seats i here = (.store state, target)) :
    here = .takeHungry ∧ state = .hungry ∧ target = .takeTest ∨
      here = .putThinking ∧ state = .thinking ∧ target = .putLeft := by
  cases here <;> cases h <;> simp

theorem instr_test {here : Place} (h : instr seats i here = (.test j, target)) :
    here = .takeTest ∧ j = i ∧ target = .takeUp ∨ here = .putLeft ∧ j = left i ∧ target = .putRight ∨
      here = .putRight ∧ j = right i ∧ target = .putUp := by
  cases here <;> cases h <;> simp

namespace Control

/-- The step does not concern `mutex`. -/
theorem of_same {after : Philosopher → Place} (h : Control seats spec place) (hfair : next.Fair)
    (hstage : ∀ i sem, next.stage (seats.proc i) = .waiting sem ∨
      next.stage (seats.proc i) = .granted sem →
      ∃ target, instr seats i (after i) = (.down sem, target))
    (hguest : ∀ proc sem, seats.Own sem → next.stage proc = .waiting sem ∨
      next.stage proc = .granted sem → ∃ i, proc = seats.proc i)
    (hvalue : (next.sem seats.mutex).value = (spec.sem seats.mutex).value)
    (hcritical : ∀ i, Critical seats next after i ↔ Critical seats spec place i) :
    Control seats next after := by
  refine ⟨hfair, hstage, hguest, ?_⟩
  rw [hvalue]
  rcases h.mutex with ⟨hone, hnobody⟩ | ⟨hzero, i, hunique⟩
  · exact Or.inl ⟨hone, fun i ↦ (hcritical i).not.mpr (hnobody i)⟩
  · exact Or.inr ⟨hzero, i, fun j ↦ (hcritical j).trans (hunique j)⟩

/-- A philosopher that runs goes on to the next place. -/
theorem stage_moveTo (h : Control seats spec place) (hrunning : next.stage (seats.proc i) = .running)
    (hothers : ∀ j, j ≠ i → next.stage (seats.proc j) = spec.stage (seats.proc j))
    (target : Place) (j : Philosopher) (sem : Sem)
    (hstage : next.stage (seats.proc j) = .waiting sem ∨ next.stage (seats.proc j) = .granted sem) :
    ∃ further, instr seats j (Function.update place i target j) = (.down sem, further) := by
  by_cases heq : j = i
  · subst heq
    rw [hrunning] at hstage
    rcases hstage with hstage | hstage <;> cases hstage
  · rw [hothers j heq] at hstage
    rw [Function.update_of_ne heq]
    exact h.stage j sem hstage

/-- Nobody holds `mutex` when it has a permit, and one philosopher does when it has none. -/
theorem nobody (h : Control seats spec place) (hpos : 0 < (spec.sem seats.mutex).value)
    (i : Philosopher) : ¬Critical seats spec place i := by
  rcases h.mutex with ⟨-, hnobody⟩ | ⟨hzero, -⟩
  · exact hnobody i
  · omega

theorem unique (h : Control seats spec place) (hi : Critical seats spec place i) :
    (spec.sem seats.mutex).value = 0 ∧ ∀ j, Critical seats spec place j ↔ j = i := by
  rcases h.mutex with ⟨-, hnobody⟩ | ⟨hzero, other, hunique⟩
  · exact absurd hi (hnobody i)
  · obtain rfl := (hunique i).mp hi
    exact ⟨hzero, hunique⟩

/-- A permit of `mutex` or of a fork is taken. -/
theorem take (h : Control seats spec place) (hfair : next.Fair)
    (hinstr : instr seats i (place i) = (.down sem, target))
    (hrunning : spec.stage (seats.proc i) = .running) (hpos : 0 < (spec.sem sem).value)
    (hstage : next.stage = spec.stage)
    (hvalue : (next.sem sem).value = (spec.sem sem).value - 1)
    (hothers : ∀ other, other ≠ sem → next.sem other = spec.sem other) :
    Control seats next (Function.update place i target) := by
  have hafter : next.stage (seats.proc i) = .running := by rw [hstage, hrunning]
  have hplaces := h.stage_moveTo hafter (fun j _ ↦ by rw [hstage]) target
  have hguest : ∀ proc sem, seats.Own sem → next.stage proc = .waiting sem ∨
      next.stage proc = .granted sem → ∃ i, proc = seats.proc i := hstage ▸ h.guest
  have hrest : ∀ j, j ≠ i → (Critical seats next (Function.update place i target) j ↔
      Critical seats spec place j) := fun j hne ↦
    critical_congr (Function.update_of_ne hne ..) (by rw [hstage])
  rcases instr_down hinstr with ⟨rfl, -, htarget⟩ | ⟨rfl, hplace, rfl⟩
  · have hone : (spec.sem seats.mutex).value = 1 := by
      rcases h.mutex with ⟨hone, -⟩ | ⟨hzero, -⟩
      · exact hone
      · omega
    refine ⟨hfair, hplaces, hguest, Or.inr ⟨by omega, i, fun j ↦ ?_⟩⟩
    by_cases heq : j = i
    · subst heq
      refine iff_of_true (critical_inner ?_) rfl
      rw [Function.update_self]
      exact htarget
    · exact iff_of_false ((hrest j heq).not.mpr (h.nobody hpos j)) heq
  · refine h.of_same hfair hplaces hguest ?_ fun j ↦ ?_
    · rw [hothers _ (seats.s_ne_mutex i).symm]
    · by_cases heq : j = i
      · subst heq
        refine iff_of_false ?_ ?_
        · unfold Critical
          rw [Function.update_self, hstage, hrunning]
          simp
        · unfold Critical
          rw [hplace]
          exact id
      · exact hrest j heq

/-- A philosopher comes to wait in `down`. -/
theorem wait (h : Control seats spec place) (hfair : next.Fair)
    (hinstr : instr seats i (place i) = (.down sem, target))
    (hrunning : spec.stage (seats.proc i) = .running)
    (hstage : next.stage = Function.update spec.stage (seats.proc i) (.waiting sem))
    (hvalue : (next.sem sem).value = (spec.sem sem).value)
    (hothers : ∀ other, other ≠ sem → next.sem other = spec.sem other) :
    Control seats next place := by
  have hself : next.stage (seats.proc i) = .waiting sem := by rw [hstage, Function.update_self]
  have hsame : ∀ proc, proc ≠ seats.proc i → next.stage proc = spec.stage proc := fun proc hne ↦ by
    rw [hstage, Function.update_of_ne hne]
  refine h.of_same hfair (fun j other hother ↦ ?_) (fun proc other hown hother ↦ ?_) ?_ fun j ↦ ?_
  · by_cases heq : j = i
    · subst heq
      rw [hself] at hother
      rcases hother with hother | hother
      · obtain rfl := Stage.waiting.inj hother
        exact ⟨target, hinstr⟩
      · cases hother
    · rw [hsame _ (seats.proc_injective.ne heq)] at hother
      exact h.stage j other hother
  · by_cases heq : proc = seats.proc i
    · exact ⟨i, heq⟩
    · rw [hsame proc heq] at hother
      exact h.guest proc other hown hother
  · by_cases heq : seats.mutex = sem
    · rw [heq, hvalue]
    · rw [hothers _ heq]
  · refine critical_congr rfl ?_
    by_cases heq : j = i
    · subst heq
      rw [hself, hrunning]
      simp
    · rw [hsame _ (seats.proc_injective.ne heq)]

/-- A philosopher comes back from `down` with the permit that it was handed. -/
theorem leave (h : Control seats spec place)
    (hinstr : instr seats i (place i) = (.down sem, target))
    (hgranted : spec.stage (seats.proc i) = .granted sem) :
    Control seats (spec.resume (seats.proc i)) (Function.update place i target) := by
  have hself : (spec.resume (seats.proc i)).stage (seats.proc i) = .running :=
    Semaphores.setStage_self
  have hsame : ∀ proc, proc ≠ seats.proc i →
      (spec.resume (seats.proc i)).stage proc = spec.stage proc :=
    fun proc hne ↦ Semaphores.setStage_of_ne hne
  refine h.of_same (h.fair.resume hgranted)
    (h.stage_moveTo hself (fun j hne ↦ hsame _ (seats.proc_injective.ne hne)) target)
    (fun proc other hown hother ↦ ?_) rfl fun j ↦ ?_
  · by_cases heq : proc = seats.proc i
    · exact ⟨i, heq⟩
    · rw [hsame proc heq] at hother
      exact h.guest proc other hown hother
  · by_cases heq : j = i
    · subst heq
      rcases instr_down hinstr with ⟨rfl, hplace, htarget⟩ | ⟨rfl, hplace, rfl⟩
      · refine iff_of_true (critical_inner ?_) ?_
        · rw [Function.update_self]
          exact htarget
        · unfold Critical
          rcases hplace with hplace | hplace <;> rw [hplace] <;> exact hgranted
      · refine iff_of_false ?_ ?_
        · unfold Critical
          rw [Function.update_self, hself]
          simp
        · unfold Critical
          rw [hplace]
          exact id
    · exact critical_congr (Function.update_of_ne heq ..)
        (by rw [hsame _ (seats.proc_injective.ne heq)])

/-- Inside, a philosopher goes on and keeps `mutex`. -/
theorem goOn (h : Control seats spec place) (hhere : (place i).Inner) (htarget : target.Inner)
    (hrunning : spec.stage (seats.proc i) = .running) :
    Control seats spec (Function.update place i target) := by
  refine h.of_same h.fair (h.stage_moveTo hrunning (fun _ _ ↦ rfl) target) h.guest rfl fun j ↦ ?_
  by_cases heq : j = i
  · subst heq
    refine iff_of_true (critical_inner ?_) (critical_inner hhere)
    rw [Function.update_self]
    exact htarget
  · exact critical_congr (Function.update_of_ne heq ..) Iff.rfl

/-- A fork is given to a philosopher. -/
theorem give (h : Control seats spec place) (j : Philosopher) :
    Control seats (spec.up (seats.s j)) place := by
  have hvalue := Semaphores.up_sem_of_ne (s := spec) (seats.s_ne_mutex j).symm
  rcases h.fair.up_cases (seats.s j) with ⟨-, hstage, -⟩ | ⟨proc, hwaiting, -, hstage, -⟩
  · refine h.of_same (h.fair.up _) (hstage ▸ h.stage) (hstage ▸ h.guest) (by rw [hvalue]) fun i ↦ ?_
    exact critical_congr rfl (by rw [hstage])
  · have hown : seats.Own (seats.s j) := Or.inr ⟨j, rfl⟩
    have hself : (spec.up (seats.s j)).stage proc = .granted (seats.s j) := by
      rw [hstage, Function.update_self]
    have hsame : ∀ other, other ≠ proc → (spec.up (seats.s j)).stage other = spec.stage other :=
      fun other hne ↦ by rw [hstage, Function.update_of_ne hne]
    refine h.of_same (h.fair.up _) (fun i sem hsem ↦ ?_) (fun other sem hsem hother ↦ ?_)
      (by rw [hvalue]) fun i ↦ critical_congr rfl ?_
    · by_cases heq : seats.proc i = proc
      · rw [heq, hself] at hsem
        rcases hsem with hsem | hsem
        · cases hsem
        · obtain rfl := Stage.granted.inj hsem
          exact h.stage i _ (Or.inl (heq ▸ hwaiting))
      · rw [hsame _ heq] at hsem
        exact h.stage i sem hsem
    · by_cases heq : other = proc
      · exact h.guest other _ hown (Or.inl (heq ▸ hwaiting))
      · rw [hsame _ heq] at hother
        exact h.guest other sem hsem hother
    · by_cases heq : seats.proc i = proc
      · rw [heq, hself, hwaiting]
        simp [seats.s_ne_mutex j]
      · rw [hsame _ heq]

/-- A philosopher leaves the inner part: `mutex` is free, or goes to the one that has waited
longest. -/
theorem unlock (h : Control seats spec place)
    (hinstr : instr seats i (place i) = (.up sem, target))
    (hrunning : spec.stage (seats.proc i) = .running) :
    sem = seats.mutex ∧ Control seats (spec.up sem) (Function.update place i target) := by
  rcases instr_up hinstr with ⟨rfl, hplaces⟩
  have hinner : (place i).Inner := by
    rcases hplaces with ⟨hplace, -⟩ | ⟨hplace, -⟩ <;> rw [hplace] <;> trivial
  rcases h.unique (critical_inner hinner) with ⟨hzero, hunique⟩
  -- who leaves has no permit of its own
  have hout : ∀ next : Semaphores Sem Proc, next.stage (seats.proc i) = .running →
      ¬Critical seats next (Function.update place i target) i := by
    intro next hstage
    unfold Critical
    rw [Function.update_self]
    rcases hplaces with ⟨-, rfl⟩ | ⟨-, rfl⟩
    · exact id
    · rw [hstage]
      simp
  refine ⟨rfl, ?_⟩
  rcases h.fair.up_cases seats.mutex with
    ⟨-, hstage, hvalue⟩ | ⟨proc, hwaiting, -, hstage, hvalue⟩
  · have hafter : (spec.up seats.mutex).stage (seats.proc i) = .running := by rw [hstage, hrunning]
    refine ⟨h.fair.up _, h.stage_moveTo hafter (fun _ _ ↦ by rw [hstage]) target, hstage ▸ h.guest,
      Or.inl ⟨by omega, fun j ↦ ?_⟩⟩
    by_cases heq : j = i
    · exact heq ▸ hout _ hafter
    · have hold : Critical seats (spec.up seats.mutex) (Function.update place i target) j ↔
          Critical seats spec place j :=
        critical_congr (Function.update_of_ne heq ..) (by rw [hstage])
      rw [hold, hunique]
      exact heq
  · rcases h.guest proc _ (Or.inl rfl) (Or.inl hwaiting) with ⟨j, rfl⟩
    have hself : (spec.up seats.mutex).stage (seats.proc j) = .granted seats.mutex := by
      rw [hstage, Function.update_self]
    have hsame : ∀ other, other ≠ seats.proc j →
        (spec.up seats.mutex).stage other = spec.stage other := fun other hne ↦ by
      rw [hstage, Function.update_of_ne hne]
    have hne : i ≠ j := by
      rintro rfl
      rw [hrunning] at hwaiting
      cases hwaiting
    have hafter : (spec.up seats.mutex).stage (seats.proc i) = .running := by
      rw [hsame _ (seats.proc_injective.ne hne), hrunning]
    rcases h.stage j _ (Or.inl hwaiting) with ⟨further, hfurther⟩
    have hplace : place j = .thinking ∨ place j = .eating := by
      rcases instr_down hfurther with ⟨-, hplace, -⟩ | ⟨heq, -⟩
      · exact hplace
      · exact absurd heq.symm (seats.s_ne_mutex j)
    refine ⟨h.fair.up _, fun k sem hsem ↦ ?_, fun other sem hsem hother ↦ ?_,
      Or.inr ⟨hvalue, j, fun k ↦ ?_⟩⟩
    · by_cases heq : k = j
      · subst heq
        rw [Function.update_of_ne hne.symm]
        rw [hself] at hsem
        rcases hsem with hsem | hsem
        · cases hsem
        · obtain rfl := Stage.granted.inj hsem
          exact ⟨further, hfurther⟩
      · by_cases hki : k = i
        · subst hki
          rw [hafter] at hsem
          rcases hsem with hsem | hsem <;> cases hsem
        · rw [Function.update_of_ne hki]
          rw [hsame _ (seats.proc_injective.ne heq)] at hsem
          exact h.stage k sem hsem
    · by_cases heq : other = seats.proc j
      · exact ⟨j, heq⟩
      · rw [hsame other heq] at hother
        exact h.guest other sem hsem hother
    · by_cases heq : k = j
      · subst heq
        refine iff_of_true ?_ rfl
        unfold Critical
        rw [Function.update_of_ne hne.symm]
        rcases hplace with hplace | hplace <;> rw [hplace] <;> exact hself
      · refine iff_of_false ?_ heq
        by_cases hki : k = i
        · exact hki ▸ hout _ hafter
        · have hold : Critical seats (spec.up seats.mutex) (Function.update place i target) k ↔
              Critical seats spec place k :=
            critical_congr (Function.update_of_ne hki ..)
              (by rw [hsame _ (seats.proc_injective.ne heq)])
          rw [hold, hunique]
          exact hki

/-- A step of somebody else. -/
theorem quiet (h : Control seats spec place) (hfair : next.Fair)
    (hstage : ∀ i, next.stage (seats.proc i) = spec.stage (seats.proc i))
    (hguest : ∀ proc sem, seats.Own sem → next.stage proc = .waiting sem ∨
      next.stage proc = .granted sem → spec.stage proc = next.stage proc)
    (hvalue : ∀ sem, seats.Own sem → next.sem sem = spec.sem sem) : Control seats next place := by
  refine h.of_same hfair (fun i sem hsem ↦ h.stage i sem (hstage i ▸ hsem))
    (fun proc sem hown hsem ↦ ?_) (by rw [hvalue _ (Or.inl rfl)])
    fun i ↦ critical_congr rfl (by rw [hstage])
  rw [← hguest proc sem hown hsem] at hsem
  exact h.guest proc sem hown hsem

end Control

end Control

/-! ## Who has the forks -/

/-- What a philosopher can be at a place. -/
def Place.Fits : Place → PhiState → Prop
  | .thinking, state | .takeHungry, state | .putLeft, state | .putRight, state | .putUp, state =>
    state = .thinking
  | .takeTest, state => state = .hungry
  | .takeUp, state | .takeDown, state => state = .hungry ∨ state = .eating
  | .eating, state | .putThinking, state => state = .eating

/-- A place between the test of a philosopher and its meal. -/
def Place.Asks (place : Place) : Prop := place = .takeUp ∨ place = .takeDown

instance : DecidablePred Place.Asks := fun place ↦
  inferInstanceAs (Decidable (place = .takeUp ∨ place = .takeDown))

/-- Somebody eats next to the philosopher, or is about to test it. -/
def Owed (stateSema : Philosopher → PhiState) (place : Philosopher → Place) (i : Philosopher) :
    Prop :=
  stateSema (left i) = .eating ∨ stateSema (right i) = .eating ∨ place (right i) = .putLeft ∨
    place (left i) = .putLeft ∨ place (left i) = .putRight

/-- A philosopher that is to eat and has not begun has one permit, and all others have none. -/
structure Forks (seats : Seats) (spec : Semaphores Sem Proc) (stateSema : Philosopher → PhiState)
    (place : Philosopher → Place) : Prop where
  fits : ∀ i, (place i).Fits (stateSema i)
  permit : ∀ i, (spec.sem (seats.s i)).value +
      (if spec.stage (seats.proc i) = .granted (seats.s i) then 1 else 0) =
    if stateSema i = .eating ∧ (place i).Asks then 1 else 0
  apart : ∀ i, stateSema i = .eating → stateSema (right i) ≠ .eating
  hungry : ∀ i, stateSema i = .hungry → place i ≠ .takeTest → Owed stateSema place i

section Forks

variable {seats : Seats} {spec next : Semaphores Sem Proc} {stateSema : Philosopher → PhiState}
  {place after : Philosopher → Place} {i j : Philosopher} {target : Place} {sem : Sem}

namespace Forks

/-- The forks stay where they are. -/
theorem of_same (h : Forks seats spec stateSema place)
    (hvalue : ∀ i, (next.sem (seats.s i)).value = (spec.sem (seats.s i)).value)
    (hgranted : ∀ i, next.stage (seats.proc i) = .granted (seats.s i) ↔
      spec.stage (seats.proc i) = .granted (seats.s i))
    (hfits : ∀ i, (after i).Fits (stateSema i)) (hasks : ∀ i, (after i).Asks ↔ (place i).Asks)
    (hsame : ∀ i, ∀ one ∈ [Place.takeTest, .putLeft, .putRight], after i = one ↔ place i = one) :
    Forks seats next stateSema after := by
  refine ⟨hfits, fun i ↦ ?_, h.apart, fun i hhungry hplace ↦ ?_⟩
  · rw [hvalue]
    simp only [hgranted, hasks]
    exact h.permit i
  · have howed := h.hungry i hhungry ((hsame i .takeTest (by simp)).not.mp hplace)
    unfold Owed at howed ⊢
    rw [hsame _ .putLeft (by simp), hsame _ .putLeft (by simp), hsame _ .putRight (by simp)]
    exact howed

/-- A philosopher passes `mutex`. -/
theorem move (h : Forks seats spec stateSema place)
    (hvalue : ∀ i, (next.sem (seats.s i)).value = (spec.sem (seats.s i)).value)
    (hgranted : ∀ i, next.stage (seats.proc i) = .granted (seats.s i) ↔
      spec.stage (seats.proc i) = .granted (seats.s i))
    (hpair : (place i, target) ∈ [(Place.thinking, Place.takeHungry), (.eating, .putThinking),
      (.takeUp, .takeDown), (.putUp, .thinking)]) :
    Forks seats next stateSema (Function.update place i target) := by
  have hother : ∀ j, j ≠ i → Function.update place i target j = place j :=
    fun j hne ↦ Function.update_of_ne hne ..
  have hself : Function.update place i target i = target := Function.update_self ..
  have hfits := h.fits i
  refine h.of_same hvalue hgranted (fun j ↦ ?_) (fun j ↦ ?_) fun j one hone ↦ ?_
  all_goals by_cases heq : j = i
  · subst heq
    rw [hself]
    simp only [List.mem_cons, Prod.mk.injEq, List.not_mem_nil, or_false] at hpair
    rcases hpair with ⟨hp, rfl⟩ | ⟨hp, rfl⟩ | ⟨hp, rfl⟩ | ⟨hp, rfl⟩ <;> rw [hp] at hfits <;> exact hfits
  · rw [hother j heq]
    exact h.fits j
  · subst heq
    rw [hself]
    simp only [List.mem_cons, Prod.mk.injEq, List.not_mem_nil, or_false] at hpair
    rcases hpair with ⟨hp, rfl⟩ | ⟨hp, rfl⟩ | ⟨hp, rfl⟩ | ⟨hp, rfl⟩ <;> simp [hp, Place.Asks]
  · rw [hother j heq]
  · subst heq
    rw [hself]
    simp only [List.mem_cons, Prod.mk.injEq, List.not_mem_nil, or_false] at hpair hone
    rcases hpair with ⟨hp, rfl⟩ | ⟨hp, rfl⟩ | ⟨hp, rfl⟩ | ⟨hp, rfl⟩ <;>
      rcases hone with rfl | rfl | rfl <;> simp [hp]
  · rw [hother j heq]

/-- A philosopher with a permit, taken or handed over, is to eat. -/
theorem asks_of_permit (h : Forks seats spec stateSema place)
    (hpermit : 0 < (spec.sem (seats.s i)).value ∨
      spec.stage (seats.proc i) = .granted (seats.s i)) :
    stateSema i = .eating ∧ (place i).Asks := by
  have hsum := h.permit i
  by_contra hnot
  rw [if_neg hnot] at hsum
  rcases hpermit with hpos | hgranted
  · omega
  · rw [if_pos hgranted] at hsum
    omega

/-- It takes its permit, and begins to eat. -/
theorem eat (h : Forks seats spec stateSema place) (hplace : place i = .takeDown)
    (heating : stateSema i = .eating) (hvalue : (next.sem (seats.s i)).value = 0)
    (hrunning : next.stage (seats.proc i) = .running)
    (hothers : ∀ j, j ≠ i → next.sem (seats.s j) = spec.sem (seats.s j) ∧
      next.stage (seats.proc j) = spec.stage (seats.proc j)) :
    Forks seats next stateSema (Function.update place i .eating) := by
  have hother : ∀ j, j ≠ i → Function.update place i .eating j = place j :=
    fun j hne ↦ Function.update_of_ne hne ..
  have hself : Function.update place i .eating i = .eating := Function.update_self ..
  refine ⟨fun j ↦ ?_, fun j ↦ ?_, h.apart, fun j hhungry htest ↦ ?_⟩
  · by_cases heq : j = i
    · subst heq
      rw [hself]
      exact heating
    · rw [hother j heq]
      exact h.fits j
  · by_cases heq : j = i
    · subst heq
      rw [hself, hvalue, hrunning]
      simp [Place.Asks]
    · rw [hother j heq, (hothers j heq).1, (hothers j heq).2]
      exact h.permit j
  · have hne : j ≠ i := by
      rintro rfl
      rw [heating] at hhungry
      cases hhungry
    rw [hother j hne] at htest
    have hplaces : ∀ k one, one ∈ [Place.putLeft, .putRight] →
        (Function.update place i .eating k = one ↔ place k = one) := by
      intro k one hone
      by_cases heq : k = i
      · subst heq
        rw [hself, hplace]
        simp only [List.mem_cons, List.not_mem_nil, or_false] at hone
        rcases hone with rfl | rfl <;> simp
      · rw [hother k heq]
    have howed := h.hungry j hhungry htest
    unfold Owed at howed ⊢
    rw [hplaces _ .putLeft (by simp), hplaces _ .putLeft (by simp), hplaces _ .putRight (by simp)]
    exact howed

/-- A philosopher has become hungry. -/
theorem storeHungry (h : Forks seats spec stateSema place) (hplace : place i = .takeHungry) :
    Forks seats spec (Function.update stateSema i .hungry)
      (Function.update place i .takeTest) := by
  have hold : stateSema i = .thinking := by
    have hfits := h.fits i
    rw [hplace] at hfits
    exact hfits
  have heating : ∀ j, Function.update stateSema i .hungry j = .eating ↔ stateSema j = .eating := by
    intro j
    by_cases heq : j = i
    · subst heq
      rw [Function.update_self, hold]
      simp
    · rw [Function.update_of_ne heq]
  have hplaces : ∀ k one, one ∈ [Place.putLeft, .putRight, .takeUp, .takeDown] →
      (Function.update place i .takeTest k = one ↔ place k = one) := by
    intro k one hone
    by_cases heq : k = i
    · subst heq
      rw [Function.update_self, hplace]
      simp only [List.mem_cons, List.not_mem_nil, or_false] at hone
      rcases hone with rfl | rfl | rfl | rfl <;> simp
    · rw [Function.update_of_ne heq]
  refine ⟨fun j ↦ ?_, fun j ↦ ?_, fun j hj hright ↦ ?_, fun j hhungry htest ↦ ?_⟩
  · by_cases heq : j = i
    · subst heq
      rw [Function.update_self, Function.update_self]
      rfl
    · rw [Function.update_of_ne heq, Function.update_of_ne heq]
      exact h.fits j
  · have hpermit := h.permit j
    simp only [Place.Asks, heating, hplaces _ .takeUp (by simp), hplaces _ .takeDown (by simp)]
    exact hpermit
  · exact h.apart j ((heating j).mp hj) ((heating _).mp hright)
  · have hne : j ≠ i := fun heq ↦ htest (heq ▸ Function.update_self ..)
    rw [Function.update_of_ne hne] at hhungry htest
    have howed := h.hungry j hhungry htest
    unfold Owed at howed ⊢
    rw [heating, heating, hplaces _ .putLeft (by simp), hplaces _ .putLeft (by simp),
      hplaces _ .putRight (by simp)]
    exact howed

/-- A philosopher has eaten, and is about to look after its neighbours. -/
theorem storeThinking (h : Forks seats spec stateSema place) (hplace : place i = .putThinking) :
    Forks seats spec (Function.update stateSema i .thinking)
      (Function.update place i .putLeft) := by
  have hstate : ∀ j, j ≠ i → Function.update stateSema i .thinking j = stateSema j :=
    fun j hne ↦ Function.update_of_ne hne ..
  have hother : ∀ j, j ≠ i → Function.update place i .putLeft j = place j :=
    fun j hne ↦ Function.update_of_ne hne ..
  have hthinking : ∀ j, Function.update stateSema i .thinking j = .eating → stateSema j = .eating := by
    intro j hj
    by_cases heq : j = i
    · subst heq
      rw [Function.update_self] at hj
      cases hj
    · rwa [hstate j heq] at hj
  have hself : Function.update place i .putLeft i = .putLeft := Function.update_self ..
  refine ⟨fun j ↦ ?_, fun j ↦ ?_, fun j hj hright ↦ ?_, fun j hhungry htest ↦ ?_⟩
  · by_cases heq : j = i
    · subst heq
      rw [Function.update_self, Function.update_self]
      rfl
    · rw [hstate j heq, hother j heq]
      exact h.fits j
  · have hpermit := h.permit j
    by_cases heq : j = i
    · subst heq
      rw [hplace] at hpermit
      rw [hself, Function.update_self]
      simpa [Place.Asks] using hpermit
    · rw [hstate j heq, hother j heq]
      exact hpermit
  · exact h.apart j (hthinking j hj) (hthinking _ hright)
  · have hne : j ≠ i := by
      rintro rfl
      rw [Function.update_self] at hhungry
      cases hhungry
    rw [hstate j hne] at hhungry
    rw [hother j hne] at htest
    unfold Owed
    by_cases hleft : left j = i
    · rw [hleft, hself]
      simp
    by_cases hright : right j = i
    · rw [hright, hself]
      simp
    rw [hstate _ hleft, hstate _ hright, hother _ hleft, hother _ hright]
    exact h.hungry j hhungry htest

/-- A test looks after the philosopher that is tested. Of the others, who is owed something is owed
it afterwards. -/
theorem owed_of_test (h : Forks seats spec stateSema place)
    (hinstr : instr seats i (place i) = (.test j, target)) {state : Philosopher → PhiState}
    (hmono : ∀ k, stateSema k = .eating → state k = .eating) {k : Philosopher} (hne : k ≠ j)
    (hhungry : stateSema k = .hungry) (htest : Function.update place i target k ≠ .takeTest) :
    Owed state (Function.update place i target) k := by
  have hother : ∀ k, k ≠ i → Function.update place i target k = place k :=
    fun k hki ↦ Function.update_of_ne hki ..
  have hself : Function.update place i target i = target := Function.update_self ..
  have hcases := instr_test hinstr
  have hplace : place k ≠ .takeTest := by
    intro hk
    by_cases heq : k = i
    · subst heq
      rw [hk] at hcases
      simp [hne.symm] at hcases
    · exact htest ((hother k heq).trans hk)
  unfold Owed
  rcases h.hungry k hhungry hplace with heat | heat | hput | hput | hput
  · exact Or.inl (hmono _ heat)
  · exact Or.inr (Or.inl (hmono _ heat))
  · by_cases heq : right k = i
    · subst heq
      rw [hput] at hcases
      simp [hne.symm] at hcases
    · exact Or.inr (Or.inr (Or.inl ((hother _ heq).trans hput)))
  · by_cases heq : left k = i
    · subst heq
      rw [hput] at hcases
      simp only [reduceCtorEq, false_and, true_and, false_or, or_false] at hcases
      exact Or.inr (Or.inr (Or.inr (Or.inr (hself.trans hcases.2))))
    · exact Or.inr (Or.inr (Or.inr (Or.inl ((hother _ heq).trans hput))))
  · by_cases heq : left k = i
    · subst heq
      rw [hput] at hcases
      simp [hne.symm] at hcases
    · exact Or.inr (Or.inr (Or.inr (Or.inr ((hother _ heq).trans hput))))

/-- `phi_test_sema` of a philosopher that cannot eat now. -/
theorem test_of_not (h : Forks seats spec stateSema place)
    (hinstr : instr seats i (place i) = (.test j, target))
    (hnot : ¬(stateSema j = .hungry ∧ stateSema (left j) ≠ .eating ∧ stateSema (right j) ≠ .eating)) :
    Forks seats spec stateSema (Function.update place i target) := by
  have hother : ∀ k, k ≠ i → Function.update place i target k = place k :=
    fun k hki ↦ Function.update_of_ne hki ..
  have hself : Function.update place i target i = target := Function.update_self ..
  have hfits := h.fits i
  have hpermit := h.permit i
  have hcases := instr_test hinstr
  refine ⟨fun k ↦ ?_, fun k ↦ ?_, h.apart, fun k hhungry htest ↦ ?_⟩
  · by_cases heq : k = i
    · subst heq
      rw [hself]
      rcases hcases with ⟨hp, -, rfl⟩ | ⟨hp, -, rfl⟩ | ⟨hp, -, rfl⟩
      all_goals rw [hp] at hfits
      · exact Or.inl hfits
      · exact hfits
      · exact hfits
    · rw [hother k heq]
      exact h.fits k
  · by_cases heq : k = i
    · subst heq
      have hne : stateSema k ≠ .eating := by
        rcases hcases with ⟨hp, -⟩ | ⟨hp, -⟩ | ⟨hp, -⟩
        all_goals
          rw [hp] at hfits
          rw [show stateSema k = _ from hfits]
          simp
      have hbefore : ¬(stateSema k = .eating ∧ (place k).Asks) := fun hboth ↦ hne hboth.1
      have hafter : ¬(stateSema k = .eating ∧ (Function.update place k target k).Asks) :=
        fun hboth ↦ hne hboth.1
      rw [if_neg hbefore] at hpermit
      rw [if_neg hafter]
      exact hpermit
    · rw [hother k heq]
      exact h.permit k
  · by_cases heq : k = j
    · subst heq
      by_cases heat : stateSema (left k) = .eating
      · exact Or.inl heat
      · by_cases heat' : stateSema (right k) = .eating
        · exact Or.inr (Or.inl heat')
        · exact absurd ⟨hhungry, heat, heat'⟩ hnot
    · exact h.owed_of_test hinstr (fun _ ↦ id) heq hhungry htest

/-- `phi_test_sema` of a philosopher that can eat now. It is the one that tests, or waits. -/
theorem test_of_and (h : Forks seats spec stateSema place) (hcontrol : Control seats spec place)
    (hinstr : instr seats i (place i) = (.test j, target)) (hhungry : stateSema j = .hungry)
    (hleft : stateSema (left j) ≠ .eating) (hright : stateSema (right j) ≠ .eating) :
    Forks seats (spec.up (seats.s j)) (Function.update stateSema j .eating)
      (Function.update place i target) := by
  have hother : ∀ k, k ≠ i → Function.update place i target k = place k :=
    fun k hki ↦ Function.update_of_ne hki ..
  have hself : Function.update place i target i = target := Function.update_self ..
  have hstate : ∀ k, k ≠ j → Function.update stateSema j .eating k = stateSema k :=
    fun k hkj ↦ Function.update_of_ne hkj ..
  have heats : Function.update stateSema j .eating j = .eating := Function.update_self ..
  have hcases := instr_test hinstr
  have hinner : (place i).Inner := by
    rcases hcases with ⟨hp, -⟩ | ⟨hp, -⟩ | ⟨hp, -⟩ <;> rw [hp] <;> trivial
  -- who is hungry and not inside has asked
  have hasks : (Function.update place i target j).Asks := by
    by_cases heq : j = i
    · subst heq
      rw [hself]
      rcases hcases with ⟨-, -, rfl⟩ | ⟨-, hne, -⟩ | ⟨-, hne, -⟩
      · exact Or.inl rfl
      · exact absurd hne.symm (left_ne j)
      · exact absurd hne.symm (right_ne j)
    · rw [hother j heq]
      have hout : ¬(place j).Inner := fun hj ↦ heq
        (((hcontrol.unique (critical_inner hinner)).2 j).mp (critical_inner hj))
      have hfits := h.fits j
      rw [hhungry] at hfits
      cases hp : place j with
      | takeDown => exact Or.inr rfl
      | takeUp => exact Or.inl rfl
      | takeTest =>
        rw [hp] at hout
        exact absurd trivial hout
      | _ =>
        rw [hp] at hfits
        cases hfits
  have hpermit := h.permit j
  have hbefore : ¬(stateSema j = .eating ∧ (place j).Asks) := by
    rw [hhungry]
    simp
  rw [if_neg hbefore] at hpermit
  refine ⟨fun k ↦ ?_, fun k ↦ ?_, fun k hk hnext ↦ ?_, fun k hk htest ↦ ?_⟩
  · by_cases heq : k = j
    · subst heq
      rw [heats]
      rcases hasks with hp | hp <;> rw [hp] <;> exact Or.inr rfl
    · rw [hstate k heq]
      by_cases hki : k = i
      · subst hki
        have hfits := h.fits k
        rw [hself]
        rcases hcases with ⟨hp, heq', -⟩ | ⟨hp, -, rfl⟩ | ⟨hp, -, rfl⟩
        · exact absurd heq'.symm heq
        · rw [hp] at hfits
          exact hfits
        · rw [hp] at hfits
          exact hfits
      · rw [hother k hki]
        exact h.fits k
  · by_cases heq : k = j
    · subst heq
      have hafter : Function.update stateSema k .eating k = .eating ∧
          (Function.update place i target k).Asks := ⟨heats, hasks⟩
      rw [if_pos hafter]
      rcases hcontrol.fair.up_cases (seats.s k) with
        ⟨-, hstage, hvalue⟩ | ⟨proc, hwaiting, hzero, hstage, hvalue⟩
      · rw [hvalue, hstage]
        omega
      · have hproc : proc = seats.proc k := by
          rcases hcontrol.guest proc _ (Or.inr ⟨k, rfl⟩) (Or.inl hwaiting) with ⟨other, rfl⟩
          rcases hcontrol.stage other _ (Or.inl hwaiting) with ⟨further, hfurther⟩
          rcases instr_down hfurther with ⟨hmutex, -⟩ | ⟨hfork, -⟩
          · exact absurd hmutex (seats.s_ne_mutex k)
          · rw [seats.s_injective hfork]
        rw [hvalue, hstage, hproc, Function.update_self, if_pos rfl]
    · have hfork : (spec.up (seats.s j)).sem (seats.s k) = spec.sem (seats.s k) :=
        Semaphores.up_sem_of_ne (seats.s_injective.ne heq)
      have hgranted : (spec.up (seats.s j)).stage (seats.proc k) = .granted (seats.s k) ↔
          spec.stage (seats.proc k) = .granted (seats.s k) := by
        rcases hcontrol.fair.up_cases (seats.s j) with
          ⟨-, hstage, -⟩ | ⟨proc, hwaiting, -, hstage, -⟩
        · rw [hstage]
        · rw [hstage]
          by_cases hproc : seats.proc k = proc
          · rw [hproc, Function.update_self, hwaiting]
            simp [seats.s_injective.ne (Ne.symm heq)]
          · rw [Function.update_of_ne hproc]
      have hold := h.permit k
      rw [hfork, hstate k heq]
      simp only [hgranted]
      by_cases hki : k = i
      · subst hki
        have hfits := h.fits k
        rw [hself]
        rcases hcases with ⟨hp, heq', -⟩ | ⟨hp, -, rfl⟩ | ⟨hp, -, rfl⟩
        · exact absurd heq'.symm heq
        · rw [hp] at hold
          simpa [Place.Asks] using hold
        · rw [hp] at hold
          simpa [Place.Asks] using hold
      · rw [hother k hki]
        exact hold
  · by_cases heq : k = j
    · subst heq
      rw [hstate _ (right_ne k)] at hnext
      exact hright hnext
    · rw [hstate k heq] at hk
      by_cases hnear : right k = j
      · subst hnear
        rw [left_right] at hleft
        exact hleft hk
      · rw [hstate _ hnear] at hnext
        exact h.apart k hk hnext
  · have hne : k ≠ j := by
      rintro rfl
      rw [heats] at hk
      cases hk
    rw [hstate k hne] at hk
    refine h.owed_of_test hinstr (fun other hother ↦ ?_) hne hk htest
    by_cases heq : other = j
    · exact heq ▸ heats
    · exact (hstate other heq).trans hother

end Forks

end Forks

/-! ## The threads -/

section Live

variable {fuel : ℕ} {s sched : Sched} {proc : Proc}

theorem schedClassEnqueue_live (h : schedClassEnqueue fuel s proc = .ok sched) :
    sched.live = s.live := by
  unfold schedClassEnqueue at h
  split at h
  · unfold strideEnqueue at h
    rcases Outcome.bind_eq_ok.mp h with ⟨pool, -, hrest⟩
    cases hrest
    rfl
  · cases h
    rfl

/-- No call of the scheduler allocates or frees a process. -/
theorem wakeupProc_live (h : wakeupProc fuel s proc = .ok sched) : sched.live = s.live := by
  unfold wakeupProc at h
  rcases Outcome.bind_eq_ok.mp h with ⟨_, -, hrest⟩
  split at hrest
  · dsimp only at hrest
    split at hrest
    · exact (schedClassEnqueue_live hrest).trans rfl
    · cases hrest
      rfl
  · cases hrest
    rfl

theorem innerUp_live {k next : Kernel} {sem : Sem} {waitState : BitVec 32}
    (h : innerUp fuel k sem waitState = .ok next) : next.sched.live = k.sched.live := by
  unfold innerUp at h
  split at h
  · cases h
    rfl
  · split at h
    · cases h
    · rcases Outcome.bind_eq_ok.mp h with ⟨_, -, hrest⟩
      unfold wakeupWait at hrest
      rcases Outcome.bind_eq_ok.mp hrest with ⟨unlinked, hunlinked, hrest⟩
      have hsame : unlinked.sched = k.sched := by
        rcases Outcome.bind_eq_ok.mp hunlinked with ⟨_, -, hdone⟩
        cases hdone
        rfl
      dsimp only at hrest
      split at hrest
      · cases hrest
      · rcases Outcome.bind_eq_ok.mp hrest with ⟨woken, hwoken, hdone⟩
        cases hdone
        exact (wakeupProc_live hwoken).trans (congrArg Sched.live hsame)

theorem innerDown_live {k next : Kernel} {sem : Sem} {waitState : BitVec 32} {passed : Bool}
    (h : innerDown k sem waitState = .ok (passed, next)) : next.sched.live = k.sched.live := by
  unfold innerDown at h
  split at h
  · cases h
    rfl
  · rw [waitCurrentSet_eq] at h
    cases h
    rfl

theorem doKill_live {found : Option Proc} {ret : ℤ} (h : doKill fuel s found = .ok (ret, sched)) :
    sched.live = s.live := by
  unfold doKill at h
  split at h
  · cases h
    rfl
  · split at h
    · dsimp only at h
      split at h
      · rcases Outcome.bind_eq_ok.mp h with ⟨woken, hwoken, hdone⟩
        cases hdone
        exact (wakeupProc_live hwoken).trans rfl
      · cases h
        rfl
    · cases h
      rfl

end Live

/-- A thread that has begun and has not ended. -/
def Here (w : World) (proc : Proc) : Prop :=
  proc ∈ w.kernel.sched.live ∧ w.phase proc ≠ .gone ∧ w.phase proc ≠ .fresh

/-- A thread that is here stays until it exits. -/
theorem Step.here {w next : World} {tree : BinaryTree Proc} {event : Event} {proc : Proc}
    (hsound : Sound w tree) (hstep : Step w event next) (h : Here w proc)
    (hexit : event = .exit → proc ≠ w.current) : Here next proc := by
  rcases h with ⟨hlive, hgone, hfresh⟩
  have hmoved : ∀ {other : Proc} {phase : Phase},
      (proc = other → phase ≠ .gone ∧ phase ≠ .fresh) →
      Function.update w.phase other phase proc ≠ .gone ∧
        Function.update w.phase other phase proc ≠ .fresh := by
    intro other phase hphase
    by_cases heq : proc = other
    · subst heq
      rw [Function.update_self]
      exact hphase rfl
    · rw [Function.update_of_ne heq]
      exact ⟨hgone, hfresh⟩
  cases hstep with
  | init | setPriority => exact ⟨hlive, hgone, hfresh⟩
  | @tryDown sem =>
    refine ⟨?_, hgone, hfresh⟩
    change proc ∈ (Sync.tryDown w.kernel sem).2.sched.live
    unfold Sync.tryDown
    split <;> exact hlive
  | tick =>
    refine ⟨?_, hgone, hfresh⟩
    rcases schedClassProcTick_eq w.kernel.sched w.current with ⟨value, heq, -⟩
    change proc ∈ (schedClassProcTick w.kernel.sched w.current).live
    rw [heq]
    exact hlive
  | up _ _ hcall =>
    rcases hcall with ⟨bound, hbound⟩
    exact ⟨innerUp_live (hbound bound le_rfl) ▸ hlive, hgone, hfresh⟩
  | @down sem passed k hphase hidle hcall =>
    refine ⟨innerDown_live hcall ▸ hlive, ?_⟩
    cases passed
    · exact hmoved fun _ ↦ by simp
    · exact ⟨hgone, hfresh⟩
  | schedule hphase hcall =>
    rcases hsound.sched.schedule with ⟨sched, after, hother, hframe, -⟩
    rw [← hother.unique hcall]
    refine ⟨hframe.live ▸ hlive, hmoved fun heq ↦ ?_⟩
    have hoff := hphase
    rw [show w.current = proc from heq.symm] at hoff
    cases hcase : w.phase proc <;> rw [hcase] at hoff <;> cases hoff
    · simp
    · simp
    · simp
    · exact absurd hcase hgone
  | leave hphase hcall =>
    rcases hsound.leave hphase with ⟨hother, -⟩
    rw [hcall, Except.ok.injEq] at hother
    exact ⟨hother ▸ hlive, hmoved fun _ ↦ by simp⟩
  | block | unblock => exact ⟨hlive, hmoved fun _ ↦ by simp⟩
  | exit => exact ⟨hlive, hmoved fun heq ↦ absurd heq (hexit rfl)⟩
  | start _ _ hcall =>
    rcases hcall with ⟨bound, hbound⟩
    exact ⟨wakeupProc_live (hbound bound le_rfl) ▸ hlive, hmoved fun _ ↦ by simp⟩
  | wake _ _ hcall =>
    rcases hcall with ⟨bound, hbound⟩
    exact ⟨wakeupProc_live (hbound bound le_rfl) ▸ hlive, hgone, hfresh⟩
  | expire _ _ hcall =>
    rcases hcall with ⟨bound, hbound⟩
    rcases Outcome.bind_eq_ok.mp (hbound bound le_rfl) with ⟨_, -, hrest⟩
    exact ⟨wakeupProc_live hrest ▸ hlive, hgone, hfresh⟩
  | @childExit parent sched _ hcall =>
    rcases hcall with ⟨bound, hbound⟩
    have hrun : wakeParent bound w.kernel.sched parent = .ok sched := hbound bound le_rfl
    refine ⟨?_, hgone, hfresh⟩
    unfold wakeParent at hrun
    split at hrun
    · exact wakeupProc_live hrun ▸ hlive
    · cases hrun
      exact hlive
  | kill _ hcall =>
    rcases hcall with ⟨bound, hbound⟩
    exact ⟨doKill_live (hbound bound le_rfl) ▸ hlive, hgone, hfresh⟩
  | create hnew _ =>
    exact ⟨Finset.mem_insert_of_mem hlive, hmoved fun heq ↦ absurd (heq ▸ hlive) hnew⟩
  | @reap other _ hzombie =>
    refine ⟨Finset.mem_erase_of_ne_of_mem ?_ hlive, hgone, hfresh⟩
    rintro rfl
    exact hgone ((hsound.right proc hlive).zombie hzombie).1

/-! ## The invariant -/

/-- The kernel is sound, and the philosophers have their forks. -/
structure Supper (seats : Seats) (t : Table) : Prop where
  sound : ∃ tree, Sound t.world tree
  control : Control seats t.world.spec t.place
  forks : Forks seats t.world.spec t.stateSema t.place
  here : ∀ i, t.place i ≠ .thinking → Here t.world (seats.proc i)

section Supper

variable {seats : Seats} {t : Table} {world : World} {event : Event} {i : Philosopher}
  {target : Place} {sem : Sem}

/-- `down` goes on when there is a permit. -/
theorem down_passed {k next : Kernel} {passed : Bool} (h : down k sem = .ok (passed, next)) :
    passed = true ↔ 0 < k.value sem := by
  unfold down innerDown at h
  split at h
  · cases h
    exact iff_of_true rfl ‹_›
  · rw [waitCurrentSet_eq] at h
    cases h
    exact iff_of_false Bool.false_ne_true ‹_›

/-- A process that runs has nothing to do with semaphores. -/
theorem Sound.stage_current {w : World} {tree : BinaryTree Proc} (h : Sound w tree)
    (hphase : w.phase w.current = .running) : w.spec.stage w.current = .running := by
  have hright := h.right w.current h.sched.current_live
  unfold Right at hright
  rw [hphase] at hright
  exact hright.stage

namespace Supper

/-- The threads are still here after a step of one of them. -/
theorem here_moveTo (h : Supper seats t) (hstep : Step t.world event world) (hexit : event ≠ .exit)
    (hcurrent : t.world.current = seats.proc i) (hgone : t.world.phase t.world.current ≠ .gone)
    (hfresh : t.world.phase t.world.current ≠ .fresh) (target : Place) (j : Philosopher)
    (hplace : Function.update t.place i target j ≠ .thinking) : Here world (seats.proc j) := by
  rcases h.sound with ⟨tree, hsound⟩
  refine hstep.here hsound ?_ fun heq ↦ absurd heq hexit
  by_cases heq : j = i
  · subst heq
    exact ⟨hcurrent ▸ hsound.sched.current_live, hcurrent ▸ hgone, hcurrent ▸ hfresh⟩
  · rw [Function.update_of_ne heq] at hplace
    exact h.here j hplace

/-- A philosopher calls `down`, and there is a permit. -/
theorem take (h : Supper seats t) (hcurrent : t.world.current = seats.proc i)
    (hinstr : instr seats i (t.place i) = (.down sem, target))
    (hstep : Step t.world (.down sem) world) (hpassed : world.phase (seats.proc i) = .running) :
    Supper seats ({ t with world }.moveTo i target) := by
  rcases h.sound with ⟨tree, hsound⟩
  have hafter := hsound.step hstep
  have hhere := hstep
  cases hstep with
  | @down _ passed k hphase hidle hcall =>
    have hrunning : t.world.spec.stage (seats.proc i) = .running :=
      hcurrent ▸ hsound.stage_current hphase
    have hfair := hsound.fair.down sem (hsound.stage_current hphase)
    have hrest : ∀ other, other ≠ sem → (t.world.spec.down sem t.world.current).sem other =
        t.world.spec.sem other := fun other hne ↦ Semaphores.down_sem_of_ne hne
    have hpos : 0 < (t.world.spec.sem sem).value := by
      have hpermit := down_passed hcall
      rw [hsound.value] at hpermit
      cases passed with
      | true => exact Int.natCast_pos.mp (hpermit.mp rfl)
      | false =>
        have hentered : Function.update t.world.phase t.world.current (.entered sem)
            (seats.proc i) = .running := hpassed
        rw [hcurrent, Function.update_self] at hentered
        cases hentered
    rcases Semaphores.down_cases t.world.spec sem t.world.current with
      ⟨-, hstage, hvalue⟩ | ⟨hzero, -⟩
    swap
    · omega
    refine ⟨hafter, h.control.take hfair hinstr hrunning hpos hstage hvalue hrest, ?_,
      h.here_moveTo hhere (by simp) hcurrent (by simp [hphase]) (by simp [hphase]) _⟩
    have hsame : ∀ j, (t.world.spec.down sem t.world.current).stage (seats.proc j) =
        t.world.spec.stage (seats.proc j) := fun j ↦ by rw [hstage]
    rcases instr_down hinstr with ⟨rfl, hplace, -⟩ | ⟨rfl, hplace, rfl⟩
    · refine h.forks.move (fun j ↦ congrArg Semaphore.value (hrest _ (seats.s_ne_mutex j)))
        (fun j ↦ by rw [← hsame j]; rfl) ?_
      rcases hplace with hplace | hplace <;> rw [hplace] at hinstr ⊢ <;> cases hinstr <;> simp
    · have hpermit := h.forks.asks_of_permit (Or.inl hpos)
      have hone : (t.world.spec.sem (seats.s i)).value = 1 := by
        have hsum := h.forks.permit i
        rw [if_pos hpermit, hrunning] at hsum
        simpa using hsum
      exact h.forks.eat hplace hpermit.1 (hvalue.trans (by omega)) ((hsame i).trans hrunning)
        fun j hne ↦ ⟨hrest _ (seats.s_injective.ne hne), hsame j⟩

/-- A philosopher calls `down`, and there is no permit. -/
theorem wait (h : Supper seats t) (hcurrent : t.world.current = seats.proc i)
    (hinstr : instr seats i (t.place i) = (.down sem, target))
    (hstep : Step t.world (.down sem) world) (hwaits : world.phase (seats.proc i) ≠ .running) :
    Supper seats { t with world } := by
  rcases h.sound with ⟨tree, hsound⟩
  have hafter := hsound.step hstep
  have hhere := hstep
  cases hstep with
  | @down _ passed k hphase hidle hcall =>
    have hrunning : t.world.spec.stage (seats.proc i) = .running :=
      hcurrent ▸ hsound.stage_current hphase
    have hfair := hsound.fair.down sem (hsound.stage_current hphase)
    have hrest : ∀ other, other ≠ sem → (t.world.spec.down sem t.world.current).sem other =
        t.world.spec.sem other := fun other hne ↦ Semaphores.down_sem_of_ne hne
    have hnone : (t.world.spec.sem sem).value = 0 := by
      have hpermit := down_passed hcall
      rw [hsound.value] at hpermit
      cases passed with
      | true => exact absurd (hcurrent ▸ hphase) hwaits
      | false =>
        by_contra hpos
        exact Bool.false_ne_true (hpermit.mpr (by omega))
    rcases Semaphores.down_cases t.world.spec sem t.world.current with
      ⟨hpos, -⟩ | ⟨-, hstage, hvalue⟩
    · omega
    have hthere : (t.world.spec.down sem t.world.current).stage =
        Function.update t.world.spec.stage (seats.proc i) (.waiting sem) := hcurrent ▸ hstage
    refine ⟨hafter, h.control.wait hfair hinstr hrunning hthere (hvalue.trans hnone.symm) hrest,
      h.forks.of_same (fun j ↦ ?_) (fun j ↦ ?_) h.forks.fits (fun _ ↦ Iff.rfl) fun _ _ _ ↦ Iff.rfl,
      fun j hplace ↦ hhere.here hsound (h.here j hplace) (by simp)⟩
    · by_cases heq : seats.s j = sem
      · rw [heq]
        exact hvalue.trans hnone.symm
      · exact congrArg Semaphore.value (hrest _ heq)
    · change (t.world.spec.down sem t.world.current).stage (seats.proc j) = _ ↔ _
      rw [hthere]
      by_cases heq : j = i
      · subst heq
        rw [Function.update_self, hrunning]
        simp
      · rw [Function.update_of_ne (seats.proc_injective.ne heq)]

/-- A philosopher comes back from `down`. -/
theorem leave (h : Supper seats t) (hcurrent : t.world.current = seats.proc i)
    (hinstr : instr seats i (t.place i) = (.down sem, target)) (hstep : Step t.world .leave world) :
    Supper seats ({ t with world }.moveTo i target) := by
  rcases h.sound with ⟨tree, hsound⟩
  have hafter := hsound.step hstep
  have hhere := hstep
  cases hstep with
  | @leave other k hphase hcall =>
    have hstage : t.world.spec.stage (seats.proc i) = .granted other :=
      hcurrent ▸ (hsound.granted hphase).stage
    obtain rfl : sem = other := by
      rcases h.control.stage i other (Or.inr hstage) with ⟨further, hfurther⟩
      rw [hinstr, Prod.mk.injEq, Instr.down.injEq] at hfurther
      exact hfurther.1
    have hself : (t.world.spec.resume (seats.proc i)).stage (seats.proc i) = .running :=
      Semaphores.setStage_self
    have hsame : ∀ j, j ≠ i → (t.world.spec.resume (seats.proc i)).stage (seats.proc j) =
        t.world.spec.stage (seats.proc j) :=
      fun j hne ↦ Semaphores.setStage_of_ne (seats.proc_injective.ne hne)
    have hplaces := h.here_moveTo hhere (by simp) hcurrent (by simp [hphase]) (by simp [hphase])
      target
    rw [hcurrent] at hafter hplaces ⊢
    refine ⟨hafter, h.control.leave hinstr hstage, ?_, hplaces⟩
    rcases instr_down hinstr with ⟨rfl, hplace, -⟩ | ⟨rfl, hplace, rfl⟩
    · refine h.forks.move (fun _ ↦ rfl) (fun j ↦ ?_) ?_
      · change (t.world.spec.resume (seats.proc i)).stage (seats.proc j) = _ ↔ _
        by_cases heq : j = i
        · subst heq
          rw [hself, hstage]
          simp [(seats.s_ne_mutex j).symm]
        · rw [hsame j heq]
      · rcases hplace with hplace | hplace <;> rw [hplace] at hinstr ⊢ <;> cases hinstr <;> simp
    · have hpermit := h.forks.asks_of_permit (Or.inr hstage)
      have hzero : (t.world.spec.sem (seats.s i)).value = 0 := by
        have hsum := h.forks.permit i
        rw [if_pos hpermit, if_pos hstage] at hsum
        omega
      exact h.forks.eat hplace hpermit.1 hzero hself fun j hne ↦ ⟨rfl, hsame j hne⟩

/-- A philosopher lets the next one in. -/
theorem up (h : Supper seats t) (hcurrent : t.world.current = seats.proc i)
    (hinstr : instr seats i (t.place i) = (.up sem, target)) (hstep : Step t.world (.up sem) world) :
    Supper seats ({ t with world }.moveTo i target) := by
  rcases h.sound with ⟨tree, hsound⟩
  have hafter := hsound.step hstep
  have hhere := hstep
  cases hstep with
  | up hphase hroom hcall =>
    have hrunning : t.world.spec.stage (seats.proc i) = .running :=
      hcurrent ▸ hsound.stage_current hphase
    rcases h.control.unlock hinstr hrunning with ⟨rfl, hcontrol⟩
    refine ⟨hafter, hcontrol, ?_,
      h.here_moveTo hhere (by simp) hcurrent (by simp [hphase]) (by simp [hphase]) _⟩
    refine h.forks.move
      (fun j ↦ congrArg Semaphore.value (Semaphores.up_sem_of_ne (seats.s_ne_mutex j)))
      (fun j ↦ ?_) ?_
    · change (t.world.spec.up seats.mutex).stage (seats.proc j) = _ ↔ _
      rcases h.control.fair.up_cases seats.mutex with
        ⟨-, hstage, -⟩ | ⟨proc, hwaiting, -, hstage, -⟩
      · rw [hstage]
      · rw [hstage]
        by_cases heq : seats.proc j = proc
        · rw [heq, Function.update_self, hwaiting]
          simp [(seats.s_ne_mutex j).symm]
        · rw [Function.update_of_ne heq]
    · rcases instr_up hinstr with ⟨-, ⟨hplace, rfl⟩ | ⟨hplace, rfl⟩⟩ <;> rw [hplace] <;> simp

/-- A philosopher stores its state. -/
theorem store (h : Supper seats t) {state : PhiState} (hcurrent : t.world.current = seats.proc i)
    (hphase : t.world.phase t.world.current = .running)
    (hinstr : instr seats i (t.place i) = (.store state, target)) :
    Supper seats
      ({ t with stateSema := Function.update t.stateSema i state }.moveTo i target) := by
  rcases h.sound with ⟨tree, hsound⟩
  have hrunning : t.world.spec.stage (seats.proc i) = .running :=
    hcurrent ▸ hsound.stage_current hphase
  have hcases := instr_store hinstr
  have hinner : (t.place i).Inner ∧ target.Inner := by
    rcases hcases with ⟨hplace, -, rfl⟩ | ⟨hplace, -, rfl⟩ <;> rw [hplace] <;>
      exact ⟨trivial, trivial⟩
  refine ⟨⟨tree, hsound⟩, h.control.goOn hinner.1 hinner.2 hrunning, ?_, fun j hplace ↦ ?_⟩
  · rcases hcases with ⟨hplace, rfl, rfl⟩ | ⟨hplace, rfl, rfl⟩
    · exact h.forks.storeHungry hplace
    · exact h.forks.storeThinking hplace
  · by_cases heq : j = i
    · subst heq
      refine h.here j fun hthinking ↦ ?_
      rw [hthinking] at hinner
      exact hinner.1
    · have hold : Function.update t.place i target j ≠ .thinking := hplace
      rw [Function.update_of_ne heq] at hold
      exact h.here j hold

/-- A philosopher tests itself or a neighbour. -/
theorem test (h : Supper seats t) {tested : Philosopher}
    (hcurrent : t.world.current = seats.proc i)
    (hphase : t.world.phase t.world.current = .running)
    (hinstr : instr seats i (t.place i) = (.test tested, target))
    (hstep : if (phiTestSema t.stateSema tested).2 then
      Step t.world (.up (seats.s tested)) world else world = t.world) :
    Supper seats ({ t with
      world
      stateSema := (phiTestSema t.stateSema tested).1 }.moveTo i target) := by
  rcases h.sound with ⟨tree, hsound⟩
  have hrunning : t.world.spec.stage (seats.proc i) = .running :=
    hcurrent ▸ hsound.stage_current hphase
  have hinner : (t.place i).Inner ∧ target.Inner := by
    rcases instr_test hinstr with ⟨hplace, -, rfl⟩ | ⟨hplace, -, rfl⟩ | ⟨hplace, -, rfl⟩ <;>
      rw [hplace] <;> exact ⟨trivial, trivial⟩
  have hcontrol := h.control.goOn hinner.1 hinner.2 hrunning
  unfold phiTestSema at hstep ⊢
  by_cases heats : t.stateSema tested = .hungry ∧ t.stateSema (left tested) ≠ .eating ∧
      t.stateSema (right tested) ≠ .eating
  · rw [if_pos heats] at hstep ⊢
    have hup : Step t.world (.up (seats.s tested)) world := hstep
    have hafter := hsound.step hup
    have hhere := h.here_moveTo hup (by simp) hcurrent (by simp [hphase]) (by simp [hphase])
      target
    have hforks := h.forks.test_of_and h.control hinstr heats.1 heats.2.1 heats.2.2
    cases hup with
    | up => exact ⟨hafter, hcontrol.give tested, hforks, hhere⟩
  · rw [if_neg heats] at hstep ⊢
    obtain rfl : world = t.world := hstep
    refine ⟨⟨tree, hsound⟩, hcontrol, h.forks.test_of_not hinstr heats, fun j hplace ↦ ?_⟩
    by_cases heq : j = i
    · subst heq
      refine h.here j fun hthinking ↦ ?_
      rw [hthinking] at hinner
      exact hinner.1
    · have hold : Function.update t.place i target j ≠ .thinking := hplace
      rw [Function.update_of_ne heq] at hold
      exact h.here j hold

/-- What somebody else does leaves the philosophers and their semaphores as they are. -/
theorem elsewhere (h : Supper seats t) (hstep : Step t.world event world)
    (helsewhere : Elsewhere seats t event) :
    (∀ i, world.spec.stage (seats.proc i) = t.world.spec.stage (seats.proc i)) ∧
      (∀ proc sem, seats.Own sem → world.spec.stage proc = .waiting sem ∨
        world.spec.stage proc = .granted sem →
        t.world.spec.stage proc = world.spec.stage proc) ∧
      ∀ sem, seats.Own sem → world.spec.sem sem = t.world.spec.sem sem := by
  rcases h.sound with ⟨tree, hsound⟩
  have hfair := hsound.fair
  have hne : ∀ {one two : Sem}, ¬seats.Own one → seats.Own two → two ≠ one :=
    fun hnot hown heq ↦ hnot (heq ▸ hown)
  cases hstep with
  | init =>
    refine ⟨fun _ ↦ rfl, fun _ _ _ _ ↦ rfl, fun other hown ↦ ?_⟩
    exact Semaphores.set_of_ne (hne helsewhere.1 hown)
  | @up sem k hphase hroom hcall =>
    refine ⟨fun i ↦ ?_, fun proc other hown hother ↦ ?_,
      fun other hown ↦ Semaphores.up_sem_of_ne (hne helsewhere.1 hown)⟩
    all_goals rcases hfair.up_cases sem with ⟨-, hstage, -⟩ | ⟨first, hwaiting, -, hstage, -⟩
    · exact congrFun hstage _
    · have hout : seats.proc i ≠ first := by
        rintro rfl
        rcases h.control.stage i _ (Or.inl hwaiting) with ⟨further, hfurther⟩
        rcases instr_down hfurther with ⟨rfl, -⟩ | ⟨rfl, -⟩
        · exact helsewhere.1 (Or.inl rfl)
        · exact helsewhere.1 (Or.inr ⟨i, rfl⟩)
      exact (congrFun hstage _).trans (Function.update_of_ne hout ..)
    · exact (congrFun hstage _).symm
    · have hchanged := congrFun hstage proc
      by_cases heq : proc = first
      · subst heq
        rw [Function.update_self] at hchanged
        dsimp only at hother
        rw [hchanged] at hother
        rcases hother with hother | hother
        · cases hother
        · exact absurd (Stage.granted.inj hother).symm (hne helsewhere.1 hown)
      · rw [Function.update_of_ne heq] at hchanged
        exact hchanged.symm
  | @down sem passed k hphase hidle hcall =>
    refine ⟨fun i ↦ ?_, fun proc other hown hother ↦ ?_,
      fun other hown ↦ Semaphores.down_sem_of_ne (hne helsewhere.1 hown)⟩
    all_goals rcases Semaphores.down_cases t.world.spec sem t.world.current with
      ⟨-, hstage, -⟩ | ⟨-, hstage, -⟩
    · exact congrFun hstage _
    · exact (congrFun hstage _).trans (Function.update_of_ne (helsewhere.2 i).symm ..)
    · exact (congrFun hstage _).symm
    · have hchanged := congrFun hstage proc
      by_cases heq : proc = t.world.current
      · subst heq
        rw [Function.update_self] at hchanged
        dsimp only at hother
        rw [hchanged] at hother
        rcases hother with hother | hother
        · exact absurd (Stage.waiting.inj hother).symm (hne helsewhere.1 hown)
        · cases hother
      · rw [Function.update_of_ne heq] at hchanged
        exact hchanged.symm
  | tryDown =>
    refine ⟨fun _ ↦ by simp, fun _ _ _ _ ↦ by simp, fun other hown ↦ ?_⟩
    exact Semaphores.tryDown_sem_of_ne (hne helsewhere.1 hown)
  | leave =>
    refine ⟨fun i ↦ Semaphores.setStage_of_ne (helsewhere i).symm, fun proc other _ hother ↦ ?_,
      fun _ _ ↦ rfl⟩
    by_cases heq : proc = t.world.current
    · subst heq
      have hrunning : (t.world.spec.resume t.world.current).stage t.world.current = .running :=
        Semaphores.setStage_self
      dsimp only at hother
      rw [hrunning] at hother
      rcases hother with hother | hother <;> cases hother
    · exact (Semaphores.setStage_of_ne heq).symm
  | _ => exact ⟨fun _ ↦ rfl, fun _ _ _ _ ↦ rfl, fun _ _ ↦ rfl⟩

theorem other (h : Supper seats t) (hstep : Step t.world event world)
    (helsewhere : Elsewhere seats t event) : Supper seats { t with world } := by
  rcases h.sound with ⟨tree, hsound⟩
  rcases hsound.step hstep with ⟨after, hafter⟩
  rcases h.elsewhere hstep helsewhere with ⟨hstage, hguest, hvalue⟩
  refine ⟨⟨after, hafter⟩, h.control.quiet hafter.fair hstage hguest hvalue,
    h.forks.of_same (fun i ↦ congrArg Semaphore.value (hvalue _ (Or.inr ⟨i, rfl⟩)))
      (fun i ↦ by rw [hstage]) h.forks.fits (fun _ ↦ Iff.rfl) fun _ _ _ ↦ Iff.rfl,
    fun i hplace ↦ hstep.here hsound (h.here i hplace) ?_⟩
  rintro rfl heq
  exact hplace (helsewhere i heq.symm)

theorem of_laid (h : Laid seats t) : Supper seats t := by
  rcases sound_of_reachable h.reachable with ⟨tree, hsound⟩
  have hrunning : ∀ i sem, ¬(t.world.spec.stage (seats.proc i) = .waiting sem ∨
      t.world.spec.stage (seats.proc i) = .granted sem) := by
    rintro i sem (hstage | hstage)
    all_goals
      have hold : t.world.spec.stage (seats.proc i) = .running := h.stage i
      rw [hstage] at hold
      cases hold
  refine ⟨⟨tree, hsound⟩, ⟨hsound.fair, fun i sem hstage ↦ absurd hstage (hrunning i sem),
    fun proc sem hown hstage ↦ ?_, Or.inl ⟨h.mutex, fun i ↦ ?_⟩⟩,
    ⟨fun i ↦ ?_, fun i ↦ ?_, fun i heats ↦ ?_, fun i hhungry ↦ ?_⟩,
    fun i hplace ↦ absurd (h.place i) hplace⟩
  · rcases hstage with hstage | hstage
    · exact absurd hstage (h.unused proc sem hown).1
    · exact absurd hstage (h.unused proc sem hown).2
  · unfold Critical
    rw [h.place]
    exact (h.unused _ _ (Or.inl rfl)).2
  · rw [h.place, h.stateSema]
    rfl
  · rw [h.place, h.s, if_neg (h.unused _ _ (Or.inr ⟨i, rfl⟩)).2]
    simp [Place.Asks]
  · rw [h.stateSema] at heats
    cases heats
  · rw [h.stateSema] at hhungry
    cases hhungry

/-- Every step keeps the invariant. -/
theorem step {next : Table} (h : Supper seats t) (hmove : Move seats t next) :
    Supper seats next := by
  cases hmove with
  | take hcurrent hinstr hstep hpassed => exact h.take hcurrent hinstr hstep hpassed
  | wait hcurrent hinstr hstep hwaits => exact h.wait hcurrent hinstr hstep hwaits
  | leave hcurrent hinstr hstep => exact h.leave hcurrent hinstr hstep
  | up hcurrent hinstr hstep => exact h.up hcurrent hinstr hstep
  | store hcurrent hphase hinstr => exact h.store hcurrent hphase hinstr
  | test hcurrent hphase hinstr hstep => exact h.test hcurrent hphase hinstr hstep
  | other hstep helsewhere => exact h.other hstep helsewhere

end Supper

end Supper

theorem supper_of_reachable {seats : Seats} {t : Table}
    (h : Reachable (Laid seats) (Move seats) t) : Supper seats t := by
  induction h with
  | first hlaid => exact .of_laid hlaid
  | step _ hmove ih => exact ih.step hmove

/-! ## What the philosophers do -/

/-- The thread is runnable, or waits for something else than a semaphore. -/
def GoesOn (w : World) (proc : Proc) : Prop :=
  proc ∈ w.kernel.sched.live ∧ ((w.kernel.sched.procs proc).state = .runnable ∨ w.Waits proc)

theorem Here.goesOn {w : World} {tree : BinaryTree Proc} {proc : Proc} (h : Here w proc)
    (hsound : Sound w tree) (hstage : ∀ sem, w.spec.stage proc ≠ .waiting sem) : GoesOn w proc := by
  rcases h with ⟨hlive, hgone, hfresh⟩
  refine ⟨hlive, ?_⟩
  have hright := hsound.right proc hlive
  cases hphase : w.phase proc with
  | fresh => exact absurd hphase hfresh
  | gone => exact absurd hphase hgone
  | running =>
    unfold Right at hright
    rw [hphase] at hright
    exact Or.inl hright.state.1
  | blocking => exact Or.inr (Or.inl hphase)
  | blocked => exact Or.inr (Or.inr hphase)
  | entered sem =>
    rcases hright.down (Or.inl hphase) with hwaiting | hgranted
    · exact absurd hwaiting.stage (hstage sem)
    · exact Or.inl hgranted.state
  | slept sem =>
    rcases hright.down (Or.inr hphase) with hwaiting | hgranted
    · exact absurd hwaiting.stage (hstage sem)
    · exact Or.inl hgranted.state

section Dines

variable {seats : Seats} {t : Table} {i : Philosopher} {sem : Sem}

namespace Supper

/-- Who holds `mutex` goes on. -/
theorem critical_goesOn (h : Supper seats t) (hi : Critical seats t.world.spec t.place i) :
    GoesOn t.world (seats.proc i) := by
  rcases h.sound with ⟨tree, hsound⟩
  have hgranted : t.world.spec.stage (seats.proc i) = .granted seats.mutex →
      GoesOn t.world (seats.proc i) := by
    intro hstage
    refine ⟨?_, Or.inl (hsound.granted_of_stage hstage).state⟩
    by_contra hdead
    have hrunning := hsound.absent _ hdead
    rw [hstage] at hrunning
    cases hrunning
  have hinner : (t.place i).Inner → GoesOn t.world (seats.proc i) := by
    intro hplace
    refine (h.here i fun hthinking ↦ ?_).goesOn hsound fun sem hstage ↦ ?_
    · rw [hthinking] at hplace
      exact hplace
    · rcases h.control.stage i sem (Or.inl hstage) with ⟨further, hfurther⟩
      rcases instr_down hfurther with ⟨-, hout | hout, -⟩ | ⟨-, hout, -⟩
      all_goals
        rw [hout] at hplace
        exact hplace
  unfold Critical at hi
  cases hplace : t.place i with
  | thinking | eating =>
    rw [hplace] at hi
    exact hgranted hi
  | takeDown =>
    rw [hplace] at hi
    exact hi.elim
  | _ => exact hinner (hplace ▸ trivial)

/-- Somebody holds `mutex` while a philosopher waits for it. -/
theorem exists_critical (h : Supper seats t) (hstage : t.stage seats i = .waiting seats.mutex) :
    ∃ j, Critical seats t.world.spec t.place j := by
  rcases h.control.mutex with ⟨hone, -⟩ | ⟨-, j, hunique⟩
  · have hmem := (h.control.fair.stage _ _).mpr hstage
    have hnone := (h.control.fair.fair seats.mutex).idle (by omega)
    rw [hnone] at hmem
    cases hmem
  · exact ⟨j, (hunique j).mpr rfl⟩

/-- Who waits for a fork has not been given one. -/
theorem hungry_of_waiting (h : Supper seats t) (hstage : t.stage seats i = .waiting (seats.s i)) :
    t.place i = .takeDown ∧ t.stateSema i = .hungry := by
  have hplace : t.place i = .takeDown := by
    rcases h.control.stage i _ (Or.inl hstage) with ⟨further, hfurther⟩
    rcases instr_down hfurther with ⟨hmutex, -⟩ | ⟨-, hplace, -⟩
    · exact absurd hmutex (seats.s_ne_mutex i)
    · exact hplace
  refine ⟨hplace, ?_⟩
  have hfits := h.forks.fits i
  rw [hplace] at hfits
  rcases hfits with hhungry | heats
  · exact hhungry
  · have hsum := h.forks.permit i
    have hold : t.world.spec.stage (seats.proc i) = .waiting (seats.s i) := hstage
    have hasks : t.stateSema i = .eating ∧ (t.place i).Asks := ⟨heats, Or.inr hplace⟩
    rw [if_pos hasks, hold] at hsum
    have hmem := (h.control.fair.stage _ _).mpr hold
    have hnone := (h.control.fair.fair (seats.s i)).idle (by
      simp only [reduceCtorEq, if_false] at hsum
      omega)
    rw [hnone] at hmem
    cases hmem

/-- Next to a philosopher that waits for a fork, somebody eats or holds `mutex`. -/
theorem neighbour_of_waiting (h : Supper seats t)
    (hstage : t.stage seats i = .waiting (seats.s i)) :
    ∃ j, (j = left i ∨ j = right i) ∧
      (t.stateSema j = .eating ∨ Critical seats t.world.spec t.place j) := by
  rcases h.hungry_of_waiting hstage with ⟨hplace, hhungry⟩
  have hput : ∀ {j : Philosopher} {place : Place}, t.place j = place → place.Inner →
      Critical seats t.world.spec t.place j := by
    rintro j _ rfl hinner
    exact critical_inner hinner
  rcases h.forks.hungry i hhungry (by simp [hplace]) with heats | heats | hplace | hplace | hplace
  · exact ⟨_, Or.inl rfl, Or.inl heats⟩
  · exact ⟨_, Or.inr rfl, Or.inl heats⟩
  · exact ⟨_, Or.inr rfl, Or.inr (hput hplace trivial)⟩
  · exact ⟨_, Or.inl rfl, Or.inr (hput hplace trivial)⟩
  · exact ⟨_, Or.inl rfl, Or.inr (hput hplace trivial)⟩

/-- While a philosopher waits, one that eats or holds `mutex` goes on. -/
theorem exists_goesOn (h : Supper seats t) (hstage : t.stage seats i = .waiting sem) :
    ∃ j, (t.stateSema j = .eating ∨ Critical seats t.world.spec t.place j) ∧
      GoesOn t.world (seats.proc j) := by
  have hmutex : ∀ {k : Philosopher}, t.stage seats k = .waiting seats.mutex →
      ∃ j, (t.stateSema j = .eating ∨ Critical seats t.world.spec t.place j) ∧
        GoesOn t.world (seats.proc j) := by
    intro k hk
    rcases h.exists_critical hk with ⟨j, hj⟩
    exact ⟨j, Or.inr hj, h.critical_goesOn hj⟩
  have hwhich : ∀ {k : Philosopher} {sem : Sem}, t.stage seats k = .waiting sem →
      sem = seats.mutex ∨ sem = seats.s k := by
    intro k sem hk
    rcases h.control.stage k sem (Or.inl hk) with ⟨further, hfurther⟩
    rcases instr_down hfurther with ⟨hmutex, -⟩ | ⟨hfork, -⟩
    · exact Or.inl hmutex
    · exact Or.inr hfork
  rcases hwhich hstage with rfl | rfl
  · exact hmutex hstage
  rcases h.neighbour_of_waiting hstage with ⟨j, -, heats | hcritical⟩
  swap
  · exact ⟨j, Or.inr hcritical, h.critical_goesOn hcritical⟩
  -- the neighbour that eats waits at most for `mutex`
  by_cases hwaits : t.stage seats j = .waiting seats.mutex
  · exact hmutex hwaits
  rcases h.sound with ⟨tree, hsound⟩
  refine ⟨j, Or.inl heats, (h.here j fun hthinking ↦ ?_).goesOn hsound fun other hother ↦ ?_⟩
  · have hfits := h.forks.fits j
    rw [hthinking, heats] at hfits
    cases hfits
  · rcases hwhich hother with rfl | rfl
    · exact hwaits hother
    · rw [(h.hungry_of_waiting hother).2] at heats
      cases heats

end Supper

/-- The philosophers as they should be. Nobody eats next to one that eats, one at a time holds
`mutex`, and one that waits has somebody else to wait for, who goes on. -/
structure Dines (seats : Seats) (t : Table) : Prop where
  eats : ∀ i, t.place i = .eating → t.place (left i) ≠ .eating ∧ t.place (right i) ≠ .eating
  apart : ∀ i, t.stateSema i = .eating →
    t.stateSema (left i) ≠ .eating ∧ t.stateSema (right i) ≠ .eating
  alone : ∀ i j, Critical seats t.world.spec t.place i → Critical seats t.world.spec t.place j →
    i = j
  hungry : ∀ i, t.stage seats i = .waiting (seats.s i) → t.stateSema i = .hungry ∧
    ∃ j, (j = left i ∨ j = right i) ∧
      (t.stateSema j = .eating ∨ Critical seats t.world.spec t.place j)
  progress : ∀ i sem, t.stage seats i = .waiting sem → ∃ j ≠ i,
    (t.stateSema j = .eating ∨ Critical seats t.world.spec t.place j) ∧
      GoesOn t.world (seats.proc j)

theorem Supper.dines (h : Supper seats t) : Dines seats t := by
  rcases h.sound with ⟨tree, hsound⟩
  have hapart : ∀ i, t.stateSema i = .eating →
      t.stateSema (left i) ≠ .eating ∧ t.stateSema (right i) ≠ .eating := by
    refine fun i heats ↦ ⟨fun hleft ↦ ?_, h.forks.apart i heats⟩
    have hright := h.forks.apart _ hleft
    rw [right_left] at hright
    exact hright heats
  have hstate : ∀ i, t.place i = .eating → t.stateSema i = .eating := by
    intro i hplace
    have hfits := h.forks.fits i
    rw [hplace] at hfits
    exact hfits
  refine ⟨fun i hplace ↦ ?_, hapart, fun i j hi hj ↦ ?_, fun i hstage ↦ ?_, fun i sem hstage ↦ ?_⟩
  · rcases hapart i (hstate i hplace) with ⟨hleft, hright⟩
    exact ⟨fun heat ↦ hleft (hstate _ heat), fun heat ↦ hright (hstate _ heat)⟩
  · exact ((h.control.unique hj).2 i).mp hi
  · exact ⟨(h.hungry_of_waiting hstage).2, h.neighbour_of_waiting hstage⟩
  · rcases h.exists_goesOn hstage with ⟨j, hj, hgoes⟩
    refine ⟨j, ?_, hj, hgoes⟩
    rintro rfl
    have hwaiting : t.world.spec.stage (seats.proc j) = .waiting sem := hstage
    have hasleep := hsound.waiting ((h.control.fair.stage _ _).mpr hwaiting)
    rcases hgoes.2 with hrunnable | hother
    · rw [hasleep.2.2.state] at hrunnable
      cases hrunnable
    · have hfree := ((hsound.right _ hasleep.1).free_of_waits hother).stage
      rw [hwaiting] at hfree
      cases hfree

/-- The philosophers of `check_sync` exclude their neighbours and never all wait. -/
theorem dines_of_reachable (h : Reachable (Laid seats) (Move seats) t) : Dines seats t :=
  (supper_of_reachable h).dines

end Dines

/-! ## A philosopher that has `mutex` -/

/-- The thread of philosopher 0 is the process at address 1, and `mutex` is semaphore 0. -/
def seating : Seats where
  proc i := i.val + 1
  mutex := 0
  s i := i.val + 1
  proc_injective _ _ h := Fin.ext (Nat.succ.inj h)
  s_injective _ _ h := Fin.ext (Nat.succ.inj h)
  s_ne_mutex i := Nat.succ_ne_zero i.val

/-- `mutex` is initialised, and nobody has begun. -/
def laid : Table where
  world := { onCpu with
    kernel := semInit onCpu.kernel 0 (1 : ℕ)
    spec := onCpu.spec.set 0 (.start 1) }
  stateSema _ := .thinking
  place _ := .thinking

theorem laid_laid : Laid seating laid := by
  have hstep : Step onCpu (.init 0 1) laid.world := .init rfl (by decide)
  refine ⟨reachable_onCpu.step ⟨_, hstep⟩, rfl, fun i ↦ ?_, fun proc sem _ ↦ ⟨?_, ?_⟩, fun _ ↦ rfl,
    fun _ ↦ rfl, fun _ ↦ rfl⟩
  · have hother : laid.world.spec.sem (seating.s i) = _ :=
      Semaphores.set_of_ne (Nat.succ_ne_zero i.val)
    rw [hother]
    rfl
  · intro h
    cases h
  · intro h
    cases h

/-- The first philosopher. -/
def someone : Philosopher := ⟨0, by decide⟩

/-- It has taken `mutex`. -/
def entered : Table :=
  ({ laid with world := { laid.world with
      kernel := laid.world.kernel.setValue 0 0
      spec := laid.world.spec.down 0 1 } }).moveTo someone .takeHungry

theorem dines_entered : entered.place someone = .takeHungry ∧ Dines seating entered := by
  have hcall : down laid.world.kernel 0 = .ok (true, laid.world.kernel.setValue 0 0) := rfl
  have hidle : laid.world.current ≠ laid.world.kernel.sched.idleproc := by decide
  have hstep : Step laid.world (.down 0) entered.world := .down rfl hidle hcall
  have hmove : Move seating laid entered := .take rfl rfl hstep rfl
  exact ⟨rfl, dines_of_reachable (.step (.first laid_laid) hmove)⟩

end Ucore.Sync
