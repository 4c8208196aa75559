import Ucore.Library.Semaphore
import Ucore.Schedule.SchedRun
import Ucore.Schedule.Timer
import Ucore.Sync.Sem

/-!
# Runs of the semaphores

Processes go through `down`, `up` and `try_down` in any order, and are interrupted at any place.
While a process waits for a semaphore it is neither killed out of the queue nor woken by a timer or
by a child that exits, because all of these look at its `wait_state` first. So the semaphores are
the counting semaphores of the library, and no assertion of `sem.c` fails.
-/

namespace Ucore.Sync

open Library Schedule

def E_INVAL : ℤ := 3
def E_KILLED : ℤ := 9

/-- `do_kill`, for what `find_proc` has found. -/
def doKill (fuel : ℕ) (s : Sched) (found : Option Proc) : Outcome (ℤ × Sched) :=
  match found with
  | none => .ok (-E_INVAL, s)
  | some proc =>
    if (s.procs proc).flags &&& PF_EXITING = 0 then do
      let s := s.store proc { s.procs proc with flags := (s.procs proc).flags ||| PF_EXITING }
      let s ← if (s.procs proc).waitState &&& WT_INTERRUPTED ≠ 0 then wakeupProc fuel s proc else .ok s
      .ok (0, s)
    else .ok (-E_KILLED, s)

/-- What `do_exit` does for the parent of the process. -/
def wakeParent (fuel : ℕ) (s : Sched) (parent : Proc) : Outcome Sched :=
  if (s.procs parent).waitState = WT_CHILD then wakeupProc fuel s parent else .ok s

/-- What `run_timer_list` does for the process of a timer that expires. -/
def wakeExpired (fuel : ℕ) (s : Sched) (proc : Proc) : Outcome Sched := do
  checkInterrupted (s.procs proc)
  wakeupProc fuel s proc

/-! ## The steps -/

/-- Where a process is. A process that sleeps calls `schedule` next, and goes on from there when
it is picked again. -/
inductive Phase where
  /-- Allocated, and not woken yet. -/
  | fresh
  | running
  /-- In `down`, before the call of `schedule`. -/
  | entered (sem : Sem)
  /-- In `down`, after the call of `schedule`. -/
  | slept (sem : Sem)
  /-- In another function that waits, before the call of `schedule`. -/
  | blocking
  | blocked
  | gone
  deriving DecidableEq

/-- The phase after a call of `schedule`, which a process makes once when it waits. -/
def Phase.off : Phase → Option Phase
  | .running => some .running
  | .entered sem => some (.slept sem)
  | .blocking => some .blocked
  | .gone => some .gone
  | .fresh | .slept _ | .blocked => none

/-- The kernel with the phases, and beside it the semaphores as counting semaphores. -/
structure World where
  kernel : Kernel
  phase : Proc → Phase
  spec : Semaphores Sem Proc

namespace World

def current (w : World) : Proc := w.kernel.sched.current

def setSched (w : World) (sched : Sched) : World := { w with kernel := { w.kernel with sched } }

def setPhase (w : World) (proc : Proc) (phase : Phase) : World :=
  { w with phase := Function.update w.phase proc phase }

/-- The process waits for something else than a semaphore. -/
def Waits (w : World) (proc : Proc) : Prop := w.phase proc = .blocking ∨ w.phase proc = .blocked

end World

inductive Event where
  | init (sem : Sem) (value : ℕ)
  | up (sem : Sem)
  | down (sem : Sem)
  | tryDown (sem : Sem)
  | schedule
  | leave
  | block (waitState : BitVec 32)
  | unblock
  | exit
  | start (proc : Proc)
  | wake (proc : Proc)
  | expire (proc : Proc)
  | childExit (parent : Proc)
  | kill (found : Option Proc)
  | tick
  | create (proc : Proc)
  | reap (proc : Proc)
  | setPriority (proc : Proc) (priority : ℕ)

/-- The steps. The current process does one thing after the other; timers, the keyboard and the
clock come in between. `idleproc` neither waits nor exits, a value does not go beyond an `int`, and
`sem_init` is not called while somebody waits. -/
inductive Step (w : World) : Event → World → Prop
  | init {sem : Sem} {value : ℕ} (hwaiting : (w.spec.sem sem).waiting = [])
    (hvalue : value < 2 ^ 31) :
    Step w (.init sem value) { w with
      kernel := semInit w.kernel sem value
      spec := w.spec.set sem (.start value) }
  | up {sem : Sem} {k : Kernel} (hphase : w.phase w.current = .running)
    (hroom : w.kernel.value sem + 1 < 2 ^ 31)
    (hcall : Returns (fun fuel ↦ up fuel w.kernel sem) k) :
    Step w (.up sem) { w with kernel := k, spec := w.spec.up sem }
  | down {sem : Sem} {passed : Bool} {k : Kernel} (hphase : w.phase w.current = .running)
    (hidle : w.current ≠ w.kernel.sched.idleproc)
    (hcall : down w.kernel sem = .ok (passed, k)) :
    Step w (.down sem) {
      kernel := k
      phase := if passed then w.phase else Function.update w.phase w.current (.entered sem)
      spec := w.spec.down sem w.current }
  | tryDown {sem : Sem} (hphase : w.phase w.current = .running) :
    Step w (.tryDown sem) { w with
      kernel := (tryDown w.kernel sem).2
      spec := w.spec.tryDown sem }
  | schedule {phase : Phase} {sched : Sched} (hphase : (w.phase w.current).off = some phase)
    (hcall : Returns (fun fuel ↦ schedule fuel w.kernel.sched) sched) :
    Step w .schedule ((w.setSched sched).setPhase w.current phase)
  | leave {sem : Sem} {k : Kernel} (hphase : w.phase w.current = .slept sem)
    (hcall : downRest w.kernel sem = .ok k) :
    Step w .leave { kernel := k
                    phase := Function.update w.phase w.current .running
                    spec := w.spec.resume w.current }
  | block {waitState : BitVec 32} (hphase : w.phase w.current = .running)
    (hidle : w.current ≠ w.kernel.sched.idleproc)
    (hwaitState : waitState = WT_CHILD ∨ waitState = WT_TIMER ∨ waitState = WT_KBD) :
    Step w (.block waitState) ((w.setSched (w.kernel.sched.store w.current
      { w.kernel.sched.procs w.current with state := .sleeping, waitState })).setPhase
        w.current .blocking)
  | unblock (hphase : w.phase w.current = .blocked) :
    Step w .unblock (w.setPhase w.current .running)
  | exit (hphase : w.phase w.current = .running)
    (hidle : w.current ≠ w.kernel.sched.idleproc) :
    Step w .exit ((w.setSched (w.kernel.sched.store w.current
      { w.kernel.sched.procs w.current with state := .zombie })).setPhase w.current .gone)
  | start {proc : Proc} {sched : Sched} (hlive : proc ∈ w.kernel.sched.live)
    (hphase : w.phase proc = .fresh)
    (hcall : Returns (fun fuel ↦ wakeupProc fuel w.kernel.sched proc) sched) :
    Step w (.start proc) ((w.setSched sched).setPhase proc .running)
  | wake {proc : Proc} {sched : Sched} (hlive : proc ∈ w.kernel.sched.live)
    (hwaits : w.Waits proc)
    (hcall : Returns (fun fuel ↦ wakeupProc fuel w.kernel.sched proc) sched) :
    Step w (.wake proc) (w.setSched sched)
  | expire {proc : Proc} {sched : Sched} (hlive : proc ∈ w.kernel.sched.live)
    (hwaits : w.Waits proc)
    (hcall : Returns (fun fuel ↦ wakeExpired fuel w.kernel.sched proc) sched) :
    Step w (.expire proc) (w.setSched sched)
  | childExit {parent : Proc} {sched : Sched} (hlive : parent ∈ w.kernel.sched.live)
    (hcall : Returns (fun fuel ↦ wakeParent fuel w.kernel.sched parent) sched) :
    Step w (.childExit parent) (w.setSched sched)
  | kill {found : Option Proc} {ret : ℤ} {sched : Sched}
    (hlive : ∀ proc ∈ found, proc ∈ w.kernel.sched.live)
    (hcall : Returns (fun fuel ↦ doKill fuel w.kernel.sched found) (ret, sched)) :
    Step w (.kill found) (w.setSched sched)
  | tick : Step w .tick (w.setSched (schedClassProcTick w.kernel.sched w.current))
  | create {proc : Proc} (hfresh : proc ∉ w.kernel.sched.live)
    (hroom : w.kernel.sched.live.card < MAX_PROCESS) :
    Step w (.create proc) ((w.setSched { w.kernel.sched.store proc allocProc with
      entries := skewHeapInit w.kernel.sched.entries proc
      live := insert proc w.kernel.sched.live }).setPhase proc .fresh)
  | reap {proc : Proc} (hcurrent : proc ≠ w.current)
    (hzombie : (w.kernel.sched.procs proc).state = .zombie) :
    Step w (.reap proc) (w.setSched
      { w.kernel.sched with live := w.kernel.sched.live.erase proc })
  | setPriority {proc : Proc} {priority : ℕ} (hpriority : priority < 2 ^ 32) :
    Step w (.setPriority proc priority) (w.setSched (w.kernel.sched.store proc
      { w.kernel.sched.procs proc with lab6Priority := priority }))

/-- After `sched_init`, with all semaphores initialised. -/
structure First (w : World) : Prop where
  booted : Booted w.kernel.sched
  links : ∀ sem, w.kernel.links (.waitHead sem) = ⟨.waitHead sem, .waitHead sem⟩
  phase : ∀ proc, w.phase proc = .running
  value : ∃ init : Sem → ℕ, w.spec = .start init ∧ (∀ sem, w.kernel.value sem = init sem) ∧
    ∀ sem, init sem < 2 ^ 31
  waitState : (w.kernel.sched.procs w.kernel.sched.idleproc).waitState = 0

/-! ## The invariant -/

/-- The process sleeps in the queue of the semaphore. -/
structure Waiting (w : World) (proc : Proc) (sem : Sem) : Prop where
  stage : w.spec.stage proc = .waiting sem
  state : (w.kernel.sched.procs proc).state = .sleeping
  waitState : (w.kernel.sched.procs proc).waitState = WT_KSEM
  wait : w.kernel.wait proc = ⟨some proc, WT_INTERRUPTED, some sem⟩

/-- The process was handed a permit, and is in no queue. -/
structure Granted (w : World) (proc : Proc) (sem : Sem) : Prop where
  stage : w.spec.stage proc = .granted sem
  state : (w.kernel.sched.procs proc).state = .runnable
  waitState : (w.kernel.sched.procs proc).waitState = 0
  flags : (w.kernel.wait proc).wakeupFlags = WT_KSEM
  link : listEmpty w.kernel.links (.waitLink proc)

/-- The process has nothing to do with semaphores, and is in one of the states. -/
structure Free (w : World) (proc : Proc) (State : ProcState → BitVec 32 → Prop) : Prop where
  stage : w.spec.stage proc = .running
  state : State (w.kernel.sched.procs proc).state (w.kernel.sched.procs proc).waitState

/-- What is known of a process in its phase. -/
def Right (w : World) (proc : Proc) : Prop :=
  match w.phase proc with
  | .fresh => Free w proc fun state waitState ↦ state = .uninit ∧ waitState = 0
  | .running => Free w proc fun state waitState ↦ state = .runnable ∧ waitState = 0
  | .entered sem | .slept sem => Waiting w proc sem ∨ Granted w proc sem
  | .blocking | .blocked => Free w proc fun state waitState ↦
      state = .sleeping ∧ waitState &&& WT_INTERRUPTED ≠ 0 ∨ state = .runnable ∧ waitState = 0
  | .gone => Free w proc fun state waitState ↦ state = .zombie ∧ waitState = 0

/-- A process in this phase has the processor only if it is runnable. -/
def Phase.Ready (phase : Phase) : Prop :=
  phase = .running ∨ (∃ sem, phase = .slept sem) ∨ phase = .blocked

/-- The invariant: the kernel has the semaphores as they should be. -/
structure Sound (w : World) (tree : BinaryTree Proc) : Prop where
  sched : Schedule.Sound w.kernel.sched tree
  fair : w.spec.Fair
  queues : Queues w.kernel.links fun sem ↦ (w.spec.sem sem).waiting
  value : ∀ sem, w.kernel.value sem = (w.spec.sem sem).value
  range : ∀ sem, (w.spec.sem sem).value < 2 ^ 31
  right : ∀ proc ∈ w.kernel.sched.live, Right w proc
  absent : ∀ proc, proc ∉ w.kernel.sched.live → w.spec.stage proc = .running
  ready : (w.phase w.current).Ready → (w.kernel.sched.procs w.current).state = .runnable

section Rights

variable {w next : World} {tree : BinaryTree Proc} {proc : Proc} {sem : Sem}

theorem right_fresh (hphase : w.phase proc = .fresh)
    (h : Free w proc fun state waitState ↦ state = .uninit ∧ waitState = 0) : Right w proc := by
  unfold Right
  rw [hphase]
  exact h

theorem right_running (hphase : w.phase proc = .running)
    (h : Free w proc fun state waitState ↦ state = .runnable ∧ waitState = 0) : Right w proc := by
  unfold Right
  rw [hphase]
  exact h

theorem right_waits (hwaits : w.Waits proc)
    (h : Free w proc fun state waitState ↦
      state = .sleeping ∧ waitState &&& WT_INTERRUPTED ≠ 0 ∨
        state = .runnable ∧ waitState = 0) : Right w proc := by
  unfold Right
  rcases hwaits with hphase | hphase
  · rw [hphase]
    exact h
  · rw [hphase]
    exact h

theorem right_gone (hphase : w.phase proc = .gone)
    (h : Free w proc fun state waitState ↦ state = .zombie ∧ waitState = 0) : Right w proc := by
  unfold Right
  rw [hphase]
  exact h

theorem right_down (hphase : w.phase proc = .entered sem ∨ w.phase proc = .slept sem)
    (h : Waiting w proc sem ∨ Granted w proc sem) : Right w proc := by
  unfold Right
  rcases hphase with hphase | hphase
  · rw [hphase]
    exact h
  · rw [hphase]
    exact h

theorem Right.congr (h : Right w proc) (hphase : next.phase proc = w.phase proc)
    (hstage : next.spec.stage proc = w.spec.stage proc)
    (hstate : (next.kernel.sched.procs proc).state = (w.kernel.sched.procs proc).state)
    (hwaitState : (next.kernel.sched.procs proc).waitState = (w.kernel.sched.procs proc).waitState)
    (hwait : next.kernel.wait proc = w.kernel.wait proc)
    (hlink : listEmpty w.kernel.links (.waitLink proc) →
      listEmpty next.kernel.links (.waitLink proc)) : Right next proc := by
  have hfree : ∀ {State : ProcState → BitVec 32 → Prop}, Free w proc State →
      Free next proc State := by
    rintro State ⟨hfirst, hsecond⟩
    refine ⟨hstage.trans hfirst, ?_⟩
    rw [hstate, hwaitState]
    exact hsecond
  have hdown : ∀ {sem : Sem}, Waiting w proc sem ∨ Granted w proc sem →
      Waiting next proc sem ∨ Granted next proc sem := by
    rintro sem (hwaiting | hgranted)
    · exact Or.inl ⟨hstage.trans hwaiting.stage, hstate.trans hwaiting.state,
        hwaitState.trans hwaiting.waitState, hwait.trans hwaiting.wait⟩
    · exact Or.inr ⟨hstage.trans hgranted.stage, hstate.trans hgranted.state,
        hwaitState.trans hgranted.waitState, hwait ▸ hgranted.flags, hlink hgranted.link⟩
  unfold Right at h ⊢
  rw [hphase]
  cases hcase : w.phase proc with
  | fresh | running | blocking | blocked | gone =>
    rw [hcase] at h
    exact hfree h
  | entered sem | slept sem =>
    rw [hcase] at h
    exact hdown h

/-- A process that waits for a semaphore is in `down`. -/
theorem Right.waiting (h : Right w proc) (hstage : w.spec.stage proc = .waiting sem) :
    (w.phase proc = .entered sem ∨ w.phase proc = .slept sem) ∧ Waiting w proc sem := by
  have hfree : ∀ {State : ProcState → BitVec 32 → Prop}, Free w proc State → False := by
    intro State hfree
    have hrunning := hfree.stage
    rw [hstage] at hrunning
    cases hrunning
  have hdown : ∀ {other : Sem}, Waiting w proc other ∨ Granted w proc other →
      sem = other ∧ Waiting w proc sem := by
    rintro other (hwaiting | hgranted)
    · have hsame := hwaiting.stage
      rw [hstage, Stage.waiting.injEq] at hsame
      subst hsame
      exact ⟨rfl, hwaiting⟩
    · have hother := hgranted.stage
      rw [hstage] at hother
      cases hother
  unfold Right at h
  cases hcase : w.phase proc with
  | fresh | running | blocking | blocked | gone =>
    rw [hcase] at h
    exact (hfree h).elim
  | entered other =>
    rw [hcase] at h
    rcases hdown h with ⟨rfl, hwaiting⟩
    exact ⟨Or.inl rfl, hwaiting⟩
  | slept other =>
    rw [hcase] at h
    rcases hdown h with ⟨rfl, hwaiting⟩
    exact ⟨Or.inr rfl, hwaiting⟩

/-- A process that may be woken waits for something else. -/
theorem Right.interruptible (h : Right w proc)
    (hstate : (w.kernel.sched.procs proc).waitState &&& WT_INTERRUPTED ≠ 0) : w.Waits proc := by
  have hksem : WT_KSEM &&& WT_INTERRUPTED = 0 := by decide
  have hzero : ∀ {waitState : BitVec 32}, waitState = 0 → waitState &&& WT_INTERRUPTED = 0 := by
    rintro _ rfl
    decide
  have hdown : ∀ {sem : Sem}, Waiting w proc sem ∨ Granted w proc sem → False := by
    rintro sem (hwaiting | hgranted)
    · exact hstate (hwaiting.waitState ▸ hksem)
    · exact hstate (hzero hgranted.waitState)
  unfold Right at h
  cases hcase : w.phase proc with
  | blocking => exact Or.inl hcase
  | blocked => exact Or.inr hcase
  | fresh | running | gone =>
    rw [hcase] at h
    exact (hstate (hzero h.state.2)).elim
  | entered sem | slept sem =>
    rw [hcase] at h
    exact (hdown h).elim

theorem Right.down (h : Right w proc)
    (hphase : w.phase proc = .entered sem ∨ w.phase proc = .slept sem) :
    Waiting w proc sem ∨ Granted w proc sem := by
  unfold Right at h
  rcases hphase with hphase | hphase
  · rw [hphase] at h
    exact h
  · rw [hphase] at h
    exact h

theorem Right.granted (h : Right w proc) (hstage : w.spec.stage proc = .granted sem) :
    Granted w proc sem := by
  have hdown : ∀ {other : Sem}, Waiting w proc other ∨ Granted w proc other →
      Granted w proc sem := by
    rintro other (hwaiting | hgranted)
    · have hother := hwaiting.stage
      rw [hstage] at hother
      cases hother
    · have hsame := hgranted.stage
      rw [hstage, Stage.granted.injEq] at hsame
      exact hsame ▸ hgranted
  unfold Right at h
  cases hcase : w.phase proc with
  | fresh | running | blocking | blocked | gone =>
    rw [hcase] at h
    have hrunning := h.stage
    rw [hstage] at hrunning
    cases hrunning
  | entered other | slept other =>
    rw [hcase] at h
    exact hdown h

theorem Right.free_of_waits (h : Right w proc) (hwaits : w.Waits proc) :
    Free w proc fun state waitState ↦
      state = .sleeping ∧ waitState &&& WT_INTERRUPTED ≠ 0 ∨ state = .runnable ∧ waitState = 0 := by
  unfold Right at h
  rcases hwaits with hcase | hcase
  · rw [hcase] at h
    exact h
  · rw [hcase] at h
    exact h

theorem Right.fresh (h : Right w proc) (hphase : w.phase proc = .fresh) :
    Free w proc fun state waitState ↦ state = .uninit ∧ waitState = 0 := by
  unfold Right at h
  rw [hphase] at h
  exact h

theorem Right.zombie (h : Right w proc) (hstate : (w.kernel.sched.procs proc).state = .zombie) :
    w.phase proc = .gone ∧ w.spec.stage proc = .running := by
  unfold Right at h
  cases hcase : w.phase proc with
  | gone =>
    rw [hcase] at h
    exact ⟨rfl, h.stage⟩
  | fresh | running =>
    rw [hcase] at h
    have hother := h.state.1
    rw [hstate] at hother
    cases hother
  | blocking | blocked =>
    rw [hcase] at h
    have hother := h.state
    rw [hstate] at hother
    rcases hother with ⟨hother, -⟩ | ⟨hother, -⟩ <;> cases hother
  | entered sem | slept sem =>
    rw [hcase] at h
    rcases h with h | h
    all_goals
      have hother := h.state
      rw [hstate] at hother
      cases hother

end Rights

/-! ## What keeps the invariant -/

namespace Sound

variable {w : World} {tree after : BinaryTree Proc} {proc : Proc} {sem : Sem} {sched : Sched}

/-- The processes change in what the semaphores do not look at. -/
theorem setSched (h : Sound w tree) (hsched : Schedule.Sound sched after)
    (hlive : sched.live = w.kernel.sched.live) (hcurrent : sched.current = w.current)
    (hstate : ∀ proc, (sched.procs proc).state = (w.kernel.sched.procs proc).state)
    (hwaitState : ∀ proc, (sched.procs proc).waitState = (w.kernel.sched.procs proc).waitState) :
    Sound (w.setSched sched) after where
  sched := hsched
  fair := h.fair
  queues := h.queues
  value := h.value
  range := h.range
  right proc hproc := by
    have hold : proc ∈ w.kernel.sched.live := hlive ▸ hproc
    exact (h.right proc hold).congr rfl rfl (hstate proc) (hwaitState proc) rfl id
  absent proc hproc := h.absent proc fun hold ↦ hproc (hlive.symm ▸ hold)
  ready hready := by
    change (w.phase sched.current).Ready at hready
    change (sched.procs sched.current).state = .runnable
    rw [hcurrent] at hready ⊢
    exact (hstate _).trans (h.ready hready)

/-- What a wakeup of a process that is no zombie does to the processes. -/
theorem awakened (h : Sound w tree) (hlive : proc ∈ w.kernel.sched.live)
    (hzombie : (w.kernel.sched.procs proc).state ≠ .zombie)
    (hwaitState : (w.kernel.sched.procs proc).state = .runnable →
      (w.kernel.sched.procs proc).waitState = 0) : ∃ sched after,
    Returns (fun fuel ↦ wakeupProc fuel w.kernel.sched proc) sched ∧ Schedule.Sound sched after ∧
      sched.live = w.kernel.sched.live ∧ sched.current = w.current ∧
      sched.idleproc = w.kernel.sched.idleproc ∧
      (sched.procs proc).state = .runnable ∧ (sched.procs proc).waitState = 0 ∧
      ∀ other, other ≠ proc → (sched.procs other).state = (w.kernel.sched.procs other).state ∧
        (sched.procs other).waitState = (w.kernel.sched.procs other).waitState := by
  rcases h.sched.wakeupProc hlive hzombie with ⟨sched, hcall, hframe, hsound⟩
  refine ⟨sched, _, hcall, hsound, ?_, ?_, ?_, ?_, ?_, fun other hother ↦ ?_⟩
  · rw [hframe.live, awake_live]
  · rw [hframe.current, awake_current]
    rfl
  · rw [hframe.idleproc, awake_idleproc]
  · rw [(hframe.alike proc).state, awake_state_self]
  · rw [(hframe.alike proc).waitState]
    by_cases hrunnable : (w.kernel.sched.procs proc).state = .runnable
    · rw [awake_of_runnable hrunnable]
      exact hwaitState hrunnable
    · rw [awake_of_ne hrunnable, Sched.store_procs_self]
  · rw [(hframe.alike other).state, (hframe.alike other).waitState, awake_procs_of_ne hother]
    exact ⟨rfl, rfl⟩

/-- A process is woken that has nothing to do with semaphores. Its phase may change with it. -/
theorem rouse (h : Sound w tree) (hlive : proc ∈ w.kernel.sched.live)
    (hstage : w.spec.stage proc = .running)
    (hzombie : (w.kernel.sched.procs proc).state ≠ .zombie)
    (hzero : (w.kernel.sched.procs proc).state = .runnable →
      (w.kernel.sched.procs proc).waitState = 0) {phase : Proc → Phase}
    (hphase : phase proc = .running ∨ phase proc = .blocking ∨ phase proc = .blocked)
    (hothers : ∀ other, other ≠ proc → phase other = w.phase other) : ∃ sched after,
      Returns (fun fuel ↦ wakeupProc fuel w.kernel.sched proc) sched ∧
      Sound { w.setSched sched with phase } after := by
  rcases h.awakened hlive hzombie hzero
    with ⟨sched, after, hcall, hsound, hsame, hcurrent, -, hstate, hwaitState, hkept⟩
  refine ⟨sched, after, hcall, hsound, h.fair, h.queues, h.value, h.range, fun other hother ↦ ?_,
    fun other hother ↦ h.absent other fun hold ↦ hother (hsame.symm ▸ hold), fun hready ↦ ?_⟩
  · by_cases heq : other = proc
    · subst heq
      rcases hphase with hphase | hphase
      · exact right_running hphase ⟨hstage, hstate, hwaitState⟩
      · exact right_waits hphase ⟨hstage, Or.inr ⟨hstate, hwaitState⟩⟩
    · exact (h.right other (hsame ▸ hother)).congr (hothers other heq) rfl (hkept other heq).1
        (hkept other heq).2 rfl id
  · change (phase sched.current).Ready at hready
    change (sched.procs sched.current).state = .runnable
    rw [hcurrent] at hready ⊢
    by_cases heq : w.current = proc
    · rw [heq]
      exact hstate
    · rw [hothers _ heq] at hready
      exact (hkept _ heq).1.trans (h.ready hready)

/-- A process that waits for something else is woken. -/
theorem wakeup (h : Sound w tree) (hlive : proc ∈ w.kernel.sched.live) (hwaits : w.Waits proc) :
    ∃ sched after, Returns (fun fuel ↦ wakeupProc fuel w.kernel.sched proc) sched ∧
      Sound (w.setSched sched) after := by
  have hfree := (h.right proc hlive).free_of_waits hwaits
  have hfacts : (w.kernel.sched.procs proc).state ≠ .zombie ∧
      ((w.kernel.sched.procs proc).state = .runnable →
        (w.kernel.sched.procs proc).waitState = 0) := by
    rcases hfree.state with ⟨hstate, -⟩ | ⟨hstate, hzero⟩
    · exact ⟨by simp [hstate], by simp [hstate]⟩
    · exact ⟨by simp [hstate], fun _ ↦ hzero⟩
  exact h.rouse hlive hfree.stage hfacts.1 hfacts.2 (Or.inr hwaits) fun _ _ ↦ rfl

/-- A new process is woken. -/
theorem start (h : Sound w tree) (hlive : proc ∈ w.kernel.sched.live)
    (hphase : w.phase proc = .fresh) : ∃ sched after,
      Returns (fun fuel ↦ wakeupProc fuel w.kernel.sched proc) sched ∧
      Sound ((w.setSched sched).setPhase proc .running) after := by
  have hfree := (h.right proc hlive).fresh hphase
  have hstate := hfree.state.1
  exact h.rouse hlive hfree.stage (by simp [hstate]) (by simp [hstate])
    (Or.inl (Function.update_self ..)) fun other hne ↦ Function.update_of_ne hne ..

/-- The current process changes its own state when it goes to sleep or exits. -/
theorem storeCurrent (h : Sound w tree) {value : ProcStruct} {phase : Phase}
    (hphase : w.phase w.current = .running) (hidle : w.current ≠ w.kernel.sched.idleproc)
    (hrq : value.rq = (w.kernel.sched.procs w.current).rq) (hnot : ¬phase.Ready)
    (hright : w.spec.stage w.current = .running →
      (w.kernel.sched.procs w.current).waitState = 0 →
      Right ((w.setSched (w.kernel.sched.store w.current value)).setPhase w.current phase)
        w.current) :
    Sound ((w.setSched (w.kernel.sched.store w.current value)).setPhase w.current phase) tree := by
  refine ⟨h.sched.store hrq (Or.inl ⟨rfl, hidle⟩), h.fair, h.queues, h.value, h.range, fun other hother ↦ ?_,
    h.absent, fun hready ↦ ?_⟩
  · by_cases heq : other = w.current
    · subst heq
      have hold := h.right w.current hother
      unfold Right at hold
      rw [hphase] at hold
      exact hright hold.stage hold.state.2
    · refine (h.right other hother).congr (Function.update_of_ne heq ..) rfl ?_ ?_ rfl id
      · exact congrArg ProcStruct.state (Sched.store_procs_of_ne _ heq value)
      · exact congrArg ProcStruct.waitState (Sched.store_procs_of_ne _ heq value)
  · have hsame : (Function.update w.phase w.current phase) w.current = phase :=
      Function.update_self ..
    exact absurd (hsame ▸ hready) hnot

/-- The semaphores change, and no process. -/
theorem setSem (h : Sound w tree) {spec : Semaphores Sem Proc} {links : Links WaitNode}
    {value : Sem → ℤ} (hfair : spec.Fair)
    (hqueues : Queues links fun sem ↦ (spec.sem sem).waiting)
    (hvalue : ∀ sem, value sem = (spec.sem sem).value)
    (hrange : ∀ sem, (spec.sem sem).value < 2 ^ 31) (hstage : spec.stage = w.spec.stage)
    (hlink : ∀ proc, listEmpty w.kernel.links (.waitLink proc) →
      listEmpty links (.waitLink proc)) :
    Sound { w with kernel := { w.kernel with links, value }, spec } tree :=
  ⟨h.sched, hfair, hqueues, hvalue, hrange,
    fun proc hproc ↦ (h.right proc hproc).congr rfl (congrFun hstage proc) rfl rfl rfl (hlink proc),
    fun proc hproc ↦ (congrFun hstage proc).trans (h.absent proc hproc), h.ready⟩

theorem init (h : Sound w tree) {value : ℕ} (hwaiting : (w.spec.sem sem).waiting = [])
    (hvalue : value < 2 ^ 31) :
    Sound { w with
      kernel := semInit w.kernel sem value
      spec := w.spec.set sem (.start value) } tree := by
  refine h.setSem (h.fair.start hwaiting value) ?_ (fun other ↦ ?_) (fun other ↦ ?_) rfl
    fun proc hempty ↦ ?_
  · have hsame : (fun other ↦ ((w.spec.set sem (.start value)).sem other).waiting) =
        fun other ↦ (w.spec.sem other).waiting := by
      funext other
      by_cases heq : other = sem
      · subst heq
        rw [Semaphores.set_self, hwaiting]
        rfl
      · rw [Semaphores.set_of_ne heq]
    rw [hsame]
    exact h.queues.initHead hwaiting
  · by_cases heq : other = sem
    · subst heq
      rw [Semaphores.set_self]
      exact Function.update_self ..
    · rw [Semaphores.set_of_ne heq]
      exact (Function.update_of_ne heq ..).trans (h.value other)
  · by_cases heq : other = sem
    · subst heq
      rw [Semaphores.set_self]
      exact hvalue
    · rw [Semaphores.set_of_ne heq]
      exact h.range other
  · have hlink : listInit w.kernel.links (.waitHead sem) (.waitLink proc) =
        w.kernel.links (.waitLink proc) :=
      Links.selfLink_of_ne _ fun heq ↦ by cases heq
    unfold listEmpty at hempty ⊢
    exact (congrArg _ hlink).trans hempty

/-- A permit is counted, in the kernel as in the counting semaphore. -/
theorem setValue (h : Sound w tree) {t : Semaphore Proc} {value : ℤ}
    (hfair : (w.spec.set sem t).Fair) (hwaiting : t.waiting = (w.spec.sem sem).waiting)
    (hvalue : value = t.value) (hrange : t.value < 2 ^ 31) :
    Sound { w with kernel := w.kernel.setValue sem value, spec := w.spec.set sem t } tree := by
  refine h.setSem hfair ?_ (fun other ↦ ?_) (fun other ↦ ?_) rfl fun _ ↦ id
  · have hsame : (fun other ↦ ((w.spec.set sem t).sem other).waiting) =
        fun other ↦ (w.spec.sem other).waiting := by
      funext other
      by_cases heq : other = sem
      · subst heq
        rw [Semaphores.set_self, hwaiting]
      · rw [Semaphores.set_of_ne heq]
    rw [hsame]
    exact h.queues
  · by_cases heq : other = sem
    · subst heq
      rw [Semaphores.set_self]
      exact (Function.update_self ..).trans hvalue
    · rw [Semaphores.set_of_ne heq]
      exact (Function.update_of_ne heq ..).trans (h.value other)
  · by_cases heq : other = sem
    · subst heq
      rw [Semaphores.set_self]
      exact hrange
    · rw [Semaphores.set_of_ne heq]
      exact h.range other

/-- A process that waits is live, in `down`, and asleep. -/
theorem waiting (h : Sound w tree) (hmem : proc ∈ (w.spec.sem sem).waiting) :
    proc ∈ w.kernel.sched.live ∧ (w.phase proc = .entered sem ∨ w.phase proc = .slept sem) ∧
      Waiting w proc sem := by
  have hstage := (h.fair.stage sem proc).mp hmem
  have hlive : proc ∈ w.kernel.sched.live := by
    by_contra hnot
    have hrunning := h.absent proc hnot
    rw [hstage] at hrunning
    cases hrunning
  exact ⟨hlive, (h.right proc hlive).waiting hstage⟩

theorem int32_of_range {value : ℤ} (hlow : 0 ≤ value) (hhigh : value < 2 ^ 31) :
    int32 value = value := by
  unfold int32
  omega

/-- `up` returns, and does what it should. -/
theorem up (h : Sound w tree) (sem : Sem) (hroom : w.kernel.value sem + 1 < 2 ^ 31) :
    ∃ k after, Returns (fun fuel ↦ up fuel w.kernel sem) k ∧
      Sound { w with kernel := k, spec := w.spec.up sem } after := by
  have hvalue := h.value sem
  have hfirst := waitQueueFirst_eq h.queues sem
  have hfair := h.fair.up sem
  cases hwaiting : (w.spec.sem sem).waiting with
  | nil =>
    rw [hwaiting] at hfirst
    have hspec : w.spec.up sem = w.spec.set sem (w.spec.sem sem).up := by
      unfold Semaphores.up
      rw [hwaiting]
    rw [hspec] at hfair ⊢
    have hset : int32 (w.kernel.value sem + 1) = ((w.spec.sem sem).up.value : ℤ) := by
      rw [Semaphore.up_of_nil hwaiting, hvalue, int32_of_range (by omega) (by omega)]
      rfl
    refine ⟨_, tree, .of_eq fun fuel ↦ ?_, h.setValue hfair ?_ hset ?_⟩
    · unfold Sync.up innerUp
      rw [hfirst]
      rfl
    · rw [Semaphore.up_of_nil hwaiting]
    · rw [Semaphore.up_of_nil hwaiting]
      dsimp only
      omega
  | cons first rest =>
    rw [hwaiting] at hfirst
    rcases h.waiting (hwaiting ▸ List.mem_cons_self) with ⟨hlive, hphase, hasleep⟩
    rcases h.awakened hlive (by simp [hasleep.state]) (by simp [hasleep.state])
      with ⟨sched, after, hcall, hsound, hsame, hcurrent, -, hstate, hwaitState, hothers⟩
    have hspec : w.spec.up sem =
        (w.spec.set sem (w.spec.sem sem).up).setStage first (.granted sem) := by
      unfold Semaphores.up
      rw [hwaiting]
    have hsplit : (w.spec.sem sem).waiting = [] ++ first :: rest := hwaiting
    have hqueues : Queues (listDelInit w.kernel.links (.waitLink first))
        (Function.update (fun other ↦ (w.spec.sem other).waiting) sem rest) :=
      h.queues.del hsplit
    have hsems : (fun other ↦ ((w.spec.up sem).sem other).waiting) =
        Function.update (fun other ↦ (w.spec.sem other).waiting) sem rest := by
      funext other
      rw [hspec, Semaphores.setStage_sem]
      by_cases heq : other = sem
      · subst heq
        rw [Semaphores.set_self, Semaphore.up_of_cons hwaiting, Function.update_self]
      · rw [Semaphores.set_of_ne heq, Function.update_of_ne heq]
    obtain ⟨granted, hgranted⟩ : ∃ granted : Wait, granted =
      { w.kernel.wait first with wakeupFlags := WT_KSEM } := ⟨_, rfl⟩
    refine ⟨⟨sched, listDelInit w.kernel.links (.waitLink first),
      Function.update w.kernel.wait first granted, w.kernel.value⟩, after, ?_, hsound, hfair, ?_,
      fun other ↦ ?_, fun other ↦ ?_, fun other hother ↦ ?_, fun other hother ↦ ?_, fun hready ↦ ?_⟩
    · -- the call
      have hbind : ∀ fuel, Sync.up fuel w.kernel sem =
          (do let sched ← wakeupProc fuel w.kernel.sched first
              .ok ⟨sched, listDelInit w.kernel.links (.waitLink first),
                Function.update w.kernel.wait first granted, w.kernel.value⟩) := by
        intro fuel
        have hproc : (w.kernel.wait first).proc = some first := by rw [hasleep.wait]
        have hdel : waitQueueDel w.kernel sem first =
            .ok { w.kernel with links := listDelInit w.kernel.links (.waitLink first) } := by
          unfold waitQueueDel
          rw [Outcome.require_of_true ⟨h.queues.not_listEmpty (hwaiting ▸ List.mem_cons_self),
            by rw [hasleep.wait]⟩]
          rfl
        unfold Sync.up innerUp
        rw [hfirst]
        dsimp only [List.head?_cons]
        rw [hproc]
        dsimp only
        rw [Outcome.require_of_true hasleep.waitState, Outcome.ok_bind]
        unfold wakeupWait
        rw [if_pos rfl, hdel, Outcome.ok_bind]
        have hset : (({ w.kernel with links := listDelInit w.kernel.links (.waitLink first) } :
            Kernel).setWait first { w.kernel.wait first with wakeupFlags := WT_KSEM }).wait first =
              granted := (Function.update_self ..).trans hgranted.symm
        dsimp only
        rw [hset, hgranted]
        dsimp only
        rw [hproc]
        rfl
      exact .congr hbind (hcall.bind (.of_eq fun _ ↦ rfl))
    · rw [hsems]
      exact hqueues
    · rw [hspec, Semaphores.setStage_sem]
      by_cases heq : other = sem
      · subst heq
        rw [Semaphores.set_self, Semaphore.up_of_cons hwaiting]
        exact h.value other
      · rw [Semaphores.set_of_ne heq]
        exact h.value other
    · rw [hspec, Semaphores.setStage_sem]
      by_cases heq : other = sem
      · subst heq
        rw [Semaphores.set_self, Semaphore.up_of_cons hwaiting]
        exact h.range other
      · rw [Semaphores.set_of_ne heq]
        exact h.range other
    · by_cases heq : other = first
      · subst heq
        refine right_down hphase (Or.inr ⟨?_, hstate, hwaitState, ?_, ?_⟩)
        · rw [hspec]
          exact Semaphores.setStage_self
        · change (Function.update w.kernel.wait other granted other).wakeupFlags = WT_KSEM
          rw [Function.update_self, hgranted]
        · exact listEmpty_listInit _ _
      · refine (h.right other (hsame ▸ hother)).congr rfl ?_ (hothers other heq).1
          (hothers other heq).2 (Function.update_of_ne heq ..) fun hempty ↦ ?_
        · rw [hspec]
          exact Semaphores.setStage_of_ne heq
        · have hout : ∀ sem, other ∉ (w.spec.sem sem).waiting :=
            fun sem hmem ↦ h.queues.not_listEmpty hmem hempty
          have hlink : listDelInit w.kernel.links (.waitLink first) (.waitLink other) =
              w.kernel.links (.waitLink other) := h.queues.del_other hsplit hout
          unfold listEmpty at hempty ⊢
          change (listDelInit w.kernel.links (.waitLink first) (.waitLink other)).next = _
          rw [hlink]
          exact hempty
    · have hne : other ≠ first := fun heq ↦ hother (hsame.symm ▸ heq ▸ hlive)
      rw [hspec]
      exact (Semaphores.setStage_of_ne hne).trans (h.absent other fun hold ↦ hother (hsame.symm ▸ hold))
    · change (w.phase sched.current).Ready at hready
      change (sched.procs sched.current).state = .runnable
      rw [hcurrent] at hready ⊢
      by_cases heq : w.current = first
      · rw [heq]
        exact hstate
      · exact (hothers _ heq).1.trans (h.ready hready)

/-- `down` takes a permit or goes to sleep. -/
theorem down (h : Sound w tree) (sem : Sem) (hphase : w.phase w.current = .running)
    (hidle : w.current ≠ w.kernel.sched.idleproc) : ∃ passed k,
      down w.kernel sem = .ok (passed, k) ∧ Sound
        { kernel := k
          phase := if passed then w.phase else Function.update w.phase w.current (.entered sem)
          spec := w.spec.down sem w.current } tree := by
  have hvalue := h.value sem
  have hright := h.right w.current h.sched.current_live
  unfold Right at hright
  rw [hphase] at hright
  have hstage : w.spec.stage w.current = .running := hright.stage
  have hfair := h.fair.down sem hstage
  by_cases hpos : 0 < (w.spec.sem sem).value
  · have hspec : w.spec.down sem w.current = w.spec.set sem (w.spec.sem sem).take := if_pos hpos
    have hset : int32 (w.kernel.value sem - 1) = ((w.spec.sem sem).take.value : ℤ) := by
      have htaken : (w.spec.sem sem).take.value = (w.spec.sem sem).value - 1 := rfl
      have hrange := h.range sem
      rw [htaken, hvalue, int32_of_range (by omega) (by omega)]
      omega
    refine ⟨true, w.kernel.setValue sem (int32 (w.kernel.value sem - 1)), ?_, ?_⟩
    · unfold Sync.down innerDown
      rw [if_pos (by omega)]
    · rw [hspec] at hfair ⊢
      exact h.setValue hfair rfl hset (lt_of_le_of_lt (Nat.sub_le ..) (h.range sem))
  · have hspec : w.spec.down sem w.current =
        (w.spec.set sem ((w.spec.sem sem).wait w.current)).setStage w.current (.waiting sem) :=
      if_neg hpos
    have hfresh : ∀ other, w.current ∉ (w.spec.sem other).waiting := by
      intro other hmem
      rw [h.fair.stage, hstage] at hmem
      cases hmem
    have hsems : (fun other ↦ ((w.spec.down sem w.current).sem other).waiting) =
        Function.update (fun other ↦ (w.spec.sem other).waiting) sem
          ((w.spec.sem sem).waiting ++ [w.current]) := by
      funext other
      rw [hspec, Semaphores.setStage_sem]
      by_cases heq : other = sem
      · subst heq
        rw [Semaphores.set_self, Function.update_self]
        rfl
      · rw [Semaphores.set_of_ne heq, Function.update_of_ne heq]
    have hinit := h.queues.init hfresh
    have hsame : ∀ other,
        ((w.spec.down sem w.current).sem other).value = (w.spec.sem other).value := by
      intro other
      rw [hspec, Semaphores.setStage_sem]
      by_cases heq : other = sem
      · subst heq
        rw [Semaphores.set_self]
        rfl
      · rw [Semaphores.set_of_ne heq]
    have hcall : Sync.down w.kernel sem = .ok (false, w.kernel.asleep sem WT_KSEM) := by
      unfold Sync.down innerDown
      rw [if_neg (by omega), waitCurrentSet_eq]
      rfl
    refine ⟨false, w.kernel.asleep sem WT_KSEM, hcall, h.sched.store rfl (Or.inl ⟨rfl, hidle⟩), hfair, ?_, fun other ↦ ?_,
      fun other ↦ ?_, fun other hother ↦ ?_, fun other hother ↦ ?_, fun hready ↦ ?_⟩
    · rw [hsems]
      exact hinit.add hfresh sem
    · exact (h.value other).trans (congrArg Nat.cast (hsame other).symm)
    · exact (hsame other).symm ▸ h.range other
    · by_cases heq : other = w.current
      · subst heq
        refine right_down (Or.inl (Function.update_self ..)) (Or.inl ⟨?_, ?_, ?_, ?_⟩)
        · rw [hspec]
          exact Semaphores.setStage_self
        · exact congrArg ProcStruct.state (Sched.store_procs_self ..)
        · exact congrArg ProcStruct.waitState (Sched.store_procs_self ..)
        · exact Function.update_self ..
      · refine (h.right other hother).congr (Function.update_of_ne heq ..) ?_
          (congrArg ProcStruct.state (Sched.store_procs_of_ne _ heq _))
          (congrArg ProcStruct.waitState (Sched.store_procs_of_ne _ heq _))
          (Function.update_of_ne heq ..) fun hempty ↦ ?_
        · rw [hspec]
          exact Semaphores.setStage_of_ne heq
        · have hout : ∀ sem, other ∉ (w.spec.sem sem).waiting :=
            fun sem hmem ↦ h.queues.not_listEmpty hmem hempty
          have hself : listInit w.kernel.links (.waitLink w.current) (.waitLink other) =
              w.kernel.links (.waitLink other) :=
            Links.selfLink_of_ne _ fun hlink ↦ heq (WaitNode.waitLink.inj hlink)
          have hlink := (hinit.add_other hout heq sem).trans hself
          unfold listEmpty at hempty ⊢
          exact (congrArg Link.next hlink).trans hempty
    · have hdead : other ∉ w.kernel.sched.live := hother
      have hne : other ≠ w.current := fun heq ↦ hdead (heq ▸ h.sched.current_live)
      rw [hspec]
      exact (Semaphores.setStage_of_ne hne).trans (h.absent other hother)
    · have hentered : (Function.update w.phase w.current (.entered sem)) w.current = .entered sem :=
        Function.update_self ..
      change (Function.update w.phase w.current (.entered sem) w.current).Ready at hready
      rw [hentered] at hready
      rcases hready with hready | ⟨_, hready⟩ | hready <;> cases hready

theorem tryDown (h : Sound w tree) (sem : Sem) : Sound
    { w with kernel := (tryDown w.kernel sem).2, spec := w.spec.tryDown sem } tree := by
  have hvalue := h.value sem
  have hrange := h.range sem
  by_cases hpos : 0 < (w.spec.sem sem).value
  · have hkernel : (Sync.tryDown w.kernel sem).2 =
        w.kernel.setValue sem (int32 (w.kernel.value sem - 1)) := by
      unfold Sync.tryDown
      rw [if_pos (by omega)]
    have hspec : w.spec.tryDown sem = w.spec.set sem (w.spec.sem sem).take := if_pos hpos
    have hset : int32 (w.kernel.value sem - 1) = ((w.spec.sem sem).take.value : ℤ) := by
      have htaken : (w.spec.sem sem).take.value = (w.spec.sem sem).value - 1 := rfl
      rw [htaken, hvalue, int32_of_range (by omega) (by omega)]
      omega
    rw [hkernel, hspec]
    exact h.setValue (h.fair.take hpos) rfl hset (lt_of_le_of_lt (Nat.sub_le ..) hrange)
  · have hkernel : (Sync.tryDown w.kernel sem).2 = w.kernel := by
      unfold Sync.tryDown
      rw [if_neg (by omega)]
    have hspec : w.spec.tryDown sem = w.spec := if_neg hpos
    rw [hkernel, hspec]
    exact h

theorem granted_of_stage (h : Sound w tree) (hstage : w.spec.stage proc = .granted sem) :
    Granted w proc sem := by
  refine (h.right proc ?_).granted hstage
  by_contra hnot
  have hrunning := h.absent proc hnot
  rw [hstage] at hrunning
  cases hrunning

/-- A process that comes back from `schedule` in `down` has been handed a permit. -/
theorem granted (h : Sound w tree) (hphase : w.phase w.current = .slept sem) :
    Granted w w.current sem := by
  have hrunnable := h.ready (hphase ▸ Or.inr (Or.inl ⟨sem, rfl⟩))
  have hright := h.right w.current h.sched.current_live
  unfold Right at hright
  rw [hphase] at hright
  rcases hright with hwaiting | hgranted
  · have hasleep := hwaiting.state
    rw [hrunnable] at hasleep
    cases hasleep
  · exact hgranted

/-- The rest of `down` finds nothing to do, and its assertion holds. -/
theorem leave (h : Sound w tree) (hphase : w.phase w.current = .slept sem) :
    downRest w.kernel sem = .ok w.kernel ∧ Sound
      { kernel := w.kernel
        phase := Function.update w.phase w.current .running
        spec := w.spec.resume w.current } tree := by
  have hgranted := h.granted hphase
  refine ⟨?_, h.sched, h.fair.resume hgranted.stage, h.queues, h.value, h.range,
    fun other hother ↦ ?_, fun other hother ↦ ?_, fun hready ↦ hgranted.state⟩
  · unfold downRest innerDownRest
    dsimp only
    have hdel : waitCurrentDel w.kernel sem w.kernel.sched.current = .ok w.kernel :=
      if_pos hgranted.link
    have hflags : (w.kernel.wait w.kernel.sched.current).wakeupFlags = WT_KSEM := hgranted.flags
    rw [hdel, Outcome.ok_bind, if_neg (not_not.mpr hflags)]
    rfl
  · by_cases heq : other = w.current
    · subst heq
      exact right_running (Function.update_self ..)
        ⟨Semaphores.setStage_self, hgranted.state, hgranted.waitState⟩
    · exact (h.right other hother).congr (Function.update_of_ne heq ..)
        (Semaphores.setStage_of_ne heq) rfl rfl rfl id
  · have hdead : other ∉ w.kernel.sched.live := hother
    have hne : other ≠ w.current := fun heq ↦ hdead (heq ▸ h.sched.current_live)
    exact (Semaphores.setStage_of_ne hne).trans (h.absent other hother)

/-- `schedule` turns to a runnable process. -/
theorem schedule (h : Sound w tree) {phase : Phase} (hphase : (w.phase w.current).off = some phase) :
    ∃ sched after, Returns (fun fuel ↦ schedule fuel w.kernel.sched) sched ∧
      Sound ((w.setSched sched).setPhase w.current phase) after := by
  rcases h.sched.schedule with ⟨sched, after, hcall, hframe, -, hsound⟩
  have hpicked : (sched.procs sched.current).state = .runnable := by
    rcases h.sched.served.schedules with ⟨other, hother, -, hstate⟩
    rw [hother.unique hcall] at hstate
    exact (hframe.alike _).state.trans hstate
  have hstate : ∀ proc, (sched.procs proc).state = (w.kernel.sched.procs proc).state :=
    fun proc ↦ (hframe.alike proc).state
  have hwaitState : ∀ proc, (sched.procs proc).waitState = (w.kernel.sched.procs proc).waitState :=
    fun proc ↦ (hframe.alike proc).waitState
  refine ⟨sched, after, hcall, hsound, h.fair, h.queues, h.value, h.range, fun other hother ↦ ?_,
    fun other hother ↦ h.absent other (hframe.live ▸ hother), fun _ ↦ hpicked⟩
  have hright := h.right other (hframe.live ▸ hother)
  by_cases heq : other = w.current
  · subst heq
    -- only the two halves of a wait tell apart what comes before the call and after it
    have hsame : ∀ {before : Phase}, w.phase w.current = before → phase = before →
        Right ((w.setSched sched).setPhase w.current phase) w.current := by
      intro before hbefore hafter
      refine hright.congr ?_ rfl (hstate _) (hwaitState _) rfl id
      rw [hbefore, ← hafter]
      exact Function.update_self ..
    have hnew : ((w.setSched sched).setPhase w.current phase).phase w.current = phase :=
      Function.update_self ..
    cases hcase : w.phase w.current with
    | running =>
      rw [hcase] at hphase
      exact hsame hcase (Option.some.inj hphase).symm
    | gone =>
      rw [hcase] at hphase
      exact hsame hcase (Option.some.inj hphase).symm
    | entered sem =>
      rw [hcase] at hphase
      rw [← Option.some.inj hphase] at hnew ⊢
      unfold Right at hright
      rw [hcase] at hright
      refine right_down (Or.inr hnew) ?_
      rcases hright with hwaiting | hgranted
      · exact Or.inl ⟨hwaiting.stage, (hstate _).trans hwaiting.state,
          (hwaitState _).trans hwaiting.waitState, hwaiting.wait⟩
      · exact Or.inr ⟨hgranted.stage, (hstate _).trans hgranted.state,
          (hwaitState _).trans hgranted.waitState, hgranted.flags, hgranted.link⟩
    | blocking =>
      rw [hcase] at hphase
      rw [← Option.some.inj hphase] at hnew ⊢
      have hfree := hright.free_of_waits (Or.inl hcase)
      have hold := hfree.state
      rw [← hstate, ← hwaitState] at hold
      exact right_waits (Or.inr hnew) ⟨hfree.stage, hold⟩
    | fresh | slept sem | blocked =>
      rw [hcase] at hphase
      cases hphase
  · exact hright.congr (Function.update_of_ne heq ..) rfl (hstate _) (hwaitState _) rfl id

/-- A timer expires, for a process that waits for something else. -/
theorem expire (h : Sound w tree) (hlive : proc ∈ w.kernel.sched.live) (hwaits : w.Waits proc)
    {sched : Sched} (hcall : Returns (fun fuel ↦ wakeExpired fuel w.kernel.sched proc) sched) :
    ∃ after, Sound (w.setSched sched) after := by
  rcases h.wakeup hlive hwaits with ⟨other, after, hother, hsound⟩
  rcases hcall with ⟨bound, hbound⟩
  have hwoken : Returns (fun fuel ↦ wakeupProc fuel w.kernel.sched proc) sched := by
    refine ⟨bound, fun fuel hfuel ↦ ?_⟩
    have hrun := hbound fuel hfuel
    unfold wakeExpired at hrun
    rcases Outcome.bind_eq_ok.mp hrun with ⟨_, -, hrest⟩
    exact hrest
  rw [← hother.unique hwoken]
  exact ⟨after, hsound⟩

/-- A child that exits wakes its parent only out of `do_wait`. -/
theorem childExit (h : Sound w tree) (hlive : proc ∈ w.kernel.sched.live) :
    ∃ sched after, Returns (fun fuel ↦ wakeParent fuel w.kernel.sched proc) sched ∧
      Sound (w.setSched sched) after := by
  by_cases hchild : (w.kernel.sched.procs proc).waitState = WT_CHILD
  · have hwaits := (h.right proc hlive).interruptible (by rw [hchild]; decide)
    rcases h.wakeup hlive hwaits with ⟨sched, after, hcall, hsound⟩
    refine ⟨sched, after, .congr (fun fuel ↦ ?_) hcall, hsound⟩
    unfold wakeParent
    rw [if_pos hchild]
  · refine ⟨w.kernel.sched, tree, .of_eq fun fuel ↦ ?_, h⟩
    unfold wakeParent
    rw [if_neg hchild]

/-- `do_kill` marks the process, and wakes it unless it waits for a semaphore. -/
theorem kill (h : Sound w tree) {found : Option Proc}
    (hlive : ∀ proc ∈ found, proc ∈ w.kernel.sched.live) :
    ∃ ret sched after, Returns (fun fuel ↦ doKill fuel w.kernel.sched found) (ret, sched) ∧
      Sound (w.setSched sched) after := by
  cases found with
  | none => exact ⟨_, _, tree, .of_eq fun _ ↦ rfl, h⟩
  | some proc =>
    have hmem := hlive proc rfl
    by_cases hexiting : (w.kernel.sched.procs proc).flags &&& PF_EXITING = 0
    · obtain ⟨marked, hmarked⟩ : ∃ marked, marked = w.kernel.sched.store proc
        { w.kernel.sched.procs proc with
          flags := (w.kernel.sched.procs proc).flags ||| PF_EXITING } := ⟨_, rfl⟩
      have hstate : ∀ other, (marked.procs other).state = (w.kernel.sched.procs other).state := by
        rw [hmarked]
        exact Sched.store_congr ProcStruct.state (by rfl)
      have hwaitState : ∀ other,
          (marked.procs other).waitState = (w.kernel.sched.procs other).waitState := by
        rw [hmarked]
        exact Sched.store_congr ProcStruct.waitState (by rfl)
      have hsame : Sound (w.setSched marked) tree := by
        refine h.setSched ?_ (by rw [hmarked]; rfl) (by rw [hmarked]; rfl) hstate hwaitState
        rw [hmarked]
        exact h.sched.store rfl (Or.inr rfl)
      have hcall : ∀ fuel, doKill fuel w.kernel.sched (some proc) = (do
          let s ← if (marked.procs proc).waitState &&& WT_INTERRUPTED ≠ 0 then
            wakeupProc fuel marked proc else .ok marked
          .ok (0, s)) := by
        intro fuel
        unfold doKill
        dsimp only
        rw [if_pos hexiting, ← hmarked]
      by_cases hinterrupted : (marked.procs proc).waitState &&& WT_INTERRUPTED ≠ 0
      · have hthere : proc ∈ (w.setSched marked).kernel.sched.live := by
          change proc ∈ marked.live
          rw [hmarked]
          exact hmem
        have hwaits := (hsame.right proc hthere).interruptible hinterrupted
        rcases hsame.wakeup hthere hwaits with ⟨sched, after, hwoken, hsound⟩
        rcases hwoken with ⟨bound, hbound⟩
        refine ⟨0, sched, after, ⟨bound, fun fuel hfuel ↦ ?_⟩, hsound⟩
        dsimp only
        rw [hcall, if_pos hinterrupted, show wakeupProc fuel marked proc = _ from hbound fuel hfuel]
        rfl
      · refine ⟨0, marked, tree, .of_eq fun fuel ↦ ?_, hsame⟩
        rw [hcall, if_neg hinterrupted]
        rfl
    · refine ⟨-E_KILLED, w.kernel.sched, tree, .of_eq fun fuel ↦ ?_, h⟩
      unfold doKill
      dsimp only
      rw [if_neg hexiting]

theorem create (h : Sound w tree) (hfresh : proc ∉ w.kernel.sched.live)
    (hroom : w.kernel.sched.live.card < MAX_PROCESS) :
    Sound ((w.setSched { w.kernel.sched.store proc allocProc with
      entries := skewHeapInit w.kernel.sched.entries proc
      live := insert proc w.kernel.sched.live }).setPhase proc .fresh) tree := by
  have hcurrent : w.current ≠ proc := fun heq ↦ hfresh (heq ▸ h.sched.current_live)
  refine ⟨h.sched.create hfresh hroom, h.fair, h.queues, h.value, h.range, fun other hother ↦ ?_,
    fun other hother ↦ h.absent other fun hold ↦ hother (Finset.mem_insert_of_mem hold),
    fun hready ↦ ?_⟩
  · by_cases heq : other = proc
    · subst heq
      refine right_fresh (Function.update_self ..) ⟨h.absent other hfresh, ?_, ?_⟩
      · exact congrArg ProcStruct.state (Sched.store_procs_self ..)
      · exact congrArg ProcStruct.waitState (Sched.store_procs_self ..)
    · refine (h.right other ((Finset.mem_insert.mp hother).resolve_left heq)).congr
        (Function.update_of_ne heq ..) rfl ?_ ?_ rfl id
      · exact congrArg ProcStruct.state (Sched.store_procs_of_ne _ heq _)
      · exact congrArg ProcStruct.waitState (Sched.store_procs_of_ne _ heq _)
  · have hphase : (Function.update w.phase proc Phase.fresh) w.current = w.phase w.current :=
      Function.update_of_ne hcurrent ..
    refine (congrArg ProcStruct.state (Sched.store_procs_of_ne _ hcurrent _)).trans (h.ready ?_)
    exact hphase ▸ hready

theorem reap (h : Sound w tree) (hcurrent : proc ≠ w.current)
    (hzombie : (w.kernel.sched.procs proc).state = .zombie) :
    Sound (w.setSched { w.kernel.sched with live := w.kernel.sched.live.erase proc }) tree := by
  refine ⟨h.sched.reap hcurrent hzombie, h.fair, h.queues, h.value, h.range,
    fun other hother ↦ ?_, fun other hother ↦ ?_, h.ready⟩
  · exact (h.right other (Finset.mem_of_mem_erase hother)).congr rfl rfl rfl rfl rfl id
  · by_cases hlive : other ∈ w.kernel.sched.live
    · have heq : other = proc := by
        by_contra hne
        exact hother (Finset.mem_erase_of_ne_of_mem hne hlive)
      exact ((h.right other hlive).zombie (heq ▸ hzombie)).2
    · exact h.absent other hlive

theorem of_first (h : First w) : Sound w .nil := by
  rcases h.value with ⟨init, hspec, hvalue, hrange⟩
  refine ⟨.of_booted h.booted, ?_, ?_, fun sem ↦ ?_, fun sem ↦ ?_, fun proc hproc ↦ ?_, fun proc _ ↦ ?_, fun _ ↦ ?_⟩
  · exact hspec ▸ Semaphores.fair_start init
  · rw [hspec]
    exact Queues.of_empty h.links
  · rw [hvalue, hspec]
    rfl
  · rw [hspec]
    exact hrange sem
  · have hidle : proc = w.kernel.sched.idleproc := by
      rw [h.booted.live] at hproc
      exact Finset.mem_singleton.mp hproc
    subst hidle
    refine right_running (h.phase _) ⟨?_, h.booted.runnable, h.waitState⟩
    rw [hspec]
    rfl
  · rw [hspec]
    rfl
  · have hcurrent : w.current = w.kernel.sched.idleproc := h.booted.current
    rw [hcurrent]
    exact h.booted.runnable

/-- Every step keeps the invariant. -/
theorem step {next : World} {event : Event} (h : Sound w tree) (hstep : Step w event next) :
    ∃ after, Sound next after := by
  cases hstep with
  | init hwaiting hvalue => exact ⟨tree, h.init hwaiting hvalue⟩
  | @up sem k hphase hroom hcall =>
    rcases h.up sem hroom with ⟨other, after, hother, hsound⟩
    rw [← hother.unique hcall]
    exact ⟨after, hsound⟩
  | @down sem passed k hphase hidle hcall =>
    rcases h.down sem hphase hidle with ⟨other, kernel, hother, hsound⟩
    rw [hcall, Except.ok.injEq, Prod.mk.injEq] at hother
    rw [hother.1, hother.2]
    exact ⟨tree, hsound⟩
  | tryDown => exact ⟨tree, h.tryDown _⟩
  | schedule hphase hcall =>
    rcases h.schedule hphase with ⟨other, after, hother, hsound⟩
    rw [← hother.unique hcall]
    exact ⟨after, hsound⟩
  | leave hphase hcall =>
    rcases h.leave hphase with ⟨hother, hsound⟩
    rw [hcall, Except.ok.injEq] at hother
    rw [hother]
    exact ⟨tree, hsound⟩
  | @block waitState hphase hidle hwaitState =>
    refine ⟨tree, h.storeCurrent hphase hidle rfl (by simp [Phase.Ready]) fun hstage _ ↦ ?_⟩
    refine right_waits (Or.inl (Function.update_self ..)) ⟨hstage, Or.inl ⟨?_, ?_⟩⟩
    · exact congrArg ProcStruct.state (Sched.store_procs_self ..)
    · have hset : (((w.setSched (w.kernel.sched.store w.current
          { w.kernel.sched.procs w.current with state := .sleeping, waitState })).setPhase
            w.current .blocking).kernel.sched.procs w.current).waitState = waitState :=
        congrArg ProcStruct.waitState (Sched.store_procs_self ..)
      rw [hset]
      rcases hwaitState with rfl | rfl | rfl <;> decide
  | unblock hphase =>
    have hrunnable := h.ready (hphase ▸ Or.inr (Or.inr rfl))
    have hright := h.right w.current h.sched.current_live
    have hfree := hright.free_of_waits (Or.inr hphase)
    have hzero : (w.kernel.sched.procs w.current).waitState = 0 := by
      rcases hfree.state with ⟨hstate, -⟩ | ⟨-, hzero⟩
      · rw [hrunnable] at hstate
        cases hstate
      · exact hzero
    refine ⟨tree, h.sched, h.fair, h.queues, h.value, h.range, fun other hother ↦ ?_, h.absent,
      fun _ ↦ hrunnable⟩
    by_cases heq : other = w.current
    · subst heq
      exact right_running (Function.update_self ..) ⟨hfree.stage, hrunnable, hzero⟩
    · exact (h.right other hother).congr (Function.update_of_ne heq ..) rfl rfl rfl rfl id
  | exit hphase hidle =>
    refine ⟨tree, h.storeCurrent hphase hidle rfl (by simp [Phase.Ready]) fun hstage hzero ↦ ?_⟩
    refine right_gone (Function.update_self ..) ⟨hstage, ?_, ?_⟩
    · exact congrArg ProcStruct.state (Sched.store_procs_self ..)
    · exact (congrArg ProcStruct.waitState (Sched.store_procs_self ..)).trans hzero
  | start hlive hphase hcall =>
    rcases h.start hlive hphase with ⟨other, after, hother, hsound⟩
    rw [← hother.unique hcall]
    exact ⟨after, hsound⟩
  | wake hlive hwaits hcall =>
    rcases h.wakeup hlive hwaits with ⟨other, after, hother, hsound⟩
    rw [← hother.unique hcall]
    exact ⟨after, hsound⟩
  | expire hlive hwaits hcall => exact h.expire hlive hwaits hcall
  | childExit hlive hcall =>
    rcases h.childExit hlive with ⟨other, after, hother, hsound⟩
    rw [← hother.unique hcall]
    exact ⟨after, hsound⟩
  | kill hlive hcall =>
    rcases h.kill hlive with ⟨ret, other, after, hother, hsound⟩
    have hsame := hother.unique hcall
    rw [Prod.mk.injEq] at hsame
    rw [← hsame.2]
    exact ⟨after, hsound⟩
  | tick =>
    rcases schedClassProcTick_eq w.kernel.sched w.current with ⟨value, heq, halike, hrq, -⟩
    rw [heq]
    refine ⟨tree, h.setSched (h.sched.store hrq (Or.inr halike.state)) rfl rfl ?_ ?_⟩
    · exact Sched.store_congr ProcStruct.state halike.state
    · exact Sched.store_congr ProcStruct.waitState halike.waitState
  | create hfresh hroom => exact ⟨tree, h.create hfresh hroom⟩
  | reap hcurrent hzombie => exact ⟨tree, h.reap hcurrent hzombie⟩
  | @setPriority proc priority _ =>
    refine ⟨tree, h.setSched (h.sched.store rfl (Or.inr rfl)) rfl rfl ?_ ?_⟩
    · exact Sched.store_congr ProcStruct.state (by rfl)
    · exact Sched.store_congr ProcStruct.waitState (by rfl)

end Sound

theorem sound_of_reachable {w : World}
    (h : Reachable First (fun w next ↦ ∃ event, Step w event next) w) : ∃ tree, Sound w tree := by
  induction h with
  | first hfirst => exact ⟨.nil, .of_first hfirst⟩
  | step _ hnext ih =>
    rcases ih with ⟨tree, hsound⟩
    rcases hnext with ⟨event, hstep⟩
    exact hsound.step hstep

/-! ## What the semaphores do -/

/-- A process leaves a queue at its front, when a permit is put in. -/
theorem Step.waiting {w next : World} {event : Event} {sem : Sem} {proc : Proc}
    (hstep : Step w event next) (hmem : proc ∈ (w.spec.sem sem).waiting) :
    proc ∈ (next.spec.sem sem).waiting ∨ event = .up sem ∧
      (w.spec.sem sem).waiting = proc :: (next.spec.sem sem).waiting ∧
      next.spec.stage proc = .granted sem := by
  cases hstep with
  | @init other value hwaiting hvalue =>
    by_cases heq : sem = other
    · subst heq
      rw [hwaiting] at hmem
      cases hmem
    · exact Or.inl ((Semaphores.set_of_ne heq).symm ▸ hmem)
  | @up other k hphase hroom hcall =>
    rcases Semaphores.mem_up other hmem with hthere | ⟨rfl, hrest⟩
    · exact Or.inl hthere
    · exact Or.inr ⟨rfl, hrest⟩
  | @down other passed k hphase hidle hcall => exact Or.inl (Semaphores.mem_down hmem)
  | @tryDown other hphase => exact Or.inl (Semaphores.mem_tryDown hmem)
  | _ => exact Or.inl hmem

/-- What sound semaphores are good for. The counter is what was put in less what was taken out,
and the queue holds those who wait, in the order in which they came. All of them sleep, and leave
one by one from the front as permits are put in. No call stops at an assertion. -/
structure Guarded (w : World) : Prop where
  permits : ∀ sem, w.kernel.value sem + (w.spec.sem sem).passed =
    (w.spec.sem sem).init + (w.spec.sem sem).ups ∧ 0 ≤ w.kernel.value sem
  idle : ∀ sem, 0 < w.kernel.value sem → (w.spec.sem sem).waiting = []
  queue : ∀ sem, Ring w.kernel.links (.waitHead sem)
    ((w.spec.sem sem).waiting.map .waitLink)
  order : ∀ sem, (w.spec.sem sem).granted ++ (w.spec.sem sem).waiting = (w.spec.sem sem).arrived
  asleep : ∀ sem, ∀ proc ∈ (w.spec.sem sem).waiting, proc ∈ w.kernel.sched.live ∧
    (w.kernel.sched.procs proc).state = .sleeping ∧
    (w.kernel.sched.procs proc).waitState = WT_KSEM
  awake : ∀ proc ∈ w.kernel.sched.live, ∀ sem,
    w.phase proc = .entered sem ∨ w.phase proc = .slept sem →
    proc ∈ (w.spec.sem sem).waiting ∨ (w.kernel.sched.procs proc).state = .runnable
  leaves : ∀ event next, Step w event next → ∀ sem, ∀ proc ∈ (w.spec.sem sem).waiting,
    proc ∈ (next.spec.sem sem).waiting ∨ event = .up sem ∧
      (w.spec.sem sem).waiting = proc :: (next.spec.sem sem).waiting ∧
      (next.kernel.sched.procs proc).state = .runnable
  ups : ∀ sem, w.kernel.value sem + 1 < 2 ^ 31 →
    ∃ k, Returns (fun fuel ↦ up fuel w.kernel sem) k
  downs : ∀ sem, w.phase w.current = .running → w.current ≠ w.kernel.sched.idleproc →
    ∃ passed k, down w.kernel sem = .ok (passed, k)
  rests : ∀ sem, w.phase w.current = .slept sem → downRest w.kernel sem = .ok w.kernel
  kills : ∀ found, (∀ proc ∈ found, proc ∈ w.kernel.sched.live) →
    ∃ result, Returns (fun fuel ↦ doKill fuel w.kernel.sched found) result

theorem Sound.guarded {w : World} {tree : BinaryTree Proc} (h : Sound w tree) : Guarded w where
  permits sem := by
    have hpermits := (h.fair.fair sem).permits
    have hvalue := h.value sem
    omega
  idle sem hpos := (h.fair.fair sem).idle (by
    have hvalue := h.value sem
    omega)
  queue sem := h.queues.ring sem trivial
  order sem := (h.fair.fair sem).order
  asleep sem proc hmem := by
    rcases h.waiting hmem with ⟨hlive, -, hwaiting⟩
    exact ⟨hlive, hwaiting.state, hwaiting.waitState⟩
  awake proc hlive sem hphase := by
    rcases (h.right proc hlive).down hphase with hwaiting | hgranted
    · exact Or.inl ((h.fair.stage sem proc).mpr hwaiting.stage)
    · exact Or.inr hgranted.state
  leaves event next hstep sem proc hmem := by
    rcases hstep.waiting hmem with hthere | ⟨hevent, hfirst, hstage⟩
    · exact Or.inl hthere
    · rcases h.step hstep with ⟨after, hnext⟩
      exact Or.inr ⟨hevent, hfirst, (hnext.granted_of_stage hstage).state⟩
  ups sem hroom := by
    rcases h.up sem hroom with ⟨k, -, hcall, -⟩
    exact ⟨k, hcall⟩
  downs sem hphase hidle := by
    rcases h.down sem hphase hidle with ⟨passed, k, hcall, -⟩
    exact ⟨passed, k, hcall⟩
  rests sem hphase := (h.leave hphase).1
  kills found hlive := by
    rcases h.kill hlive with ⟨ret, sched, -, hcall, -⟩
    exact ⟨(ret, sched), hcall⟩

/-- In every run the semaphores of the kernel are counting semaphores. -/
theorem guarded_of_reachable {w : World}
    (h : Reachable First (fun w next ↦ ∃ event, Step w event next) w) : Guarded w := by
  rcases sound_of_reachable h with ⟨tree, hsound⟩
  exact hsound.guarded

/-! ## A process that waits -/

/-- Semaphore 0 has no permit. -/
def quiet : World where
  kernel := {
    sched := Schedule.booted
    links := fun node ↦ ⟨node, node⟩
    wait := fun _ ↦ ⟨none, 0, none⟩
    value := fun _ ↦ 0 }
  phase _ := .running
  spec := .start fun _ ↦ 0

theorem first_quiet : First quiet :=
  ⟨booted_booted, fun _ ↦ rfl, fun _ ↦ rfl, ⟨fun _ ↦ 0, rfl, fun _ ↦ rfl, fun _ ↦ Nat.two_pow_pos 31⟩,
    rfl⟩

/-- A process is forked, and gets the processor. -/
def onCpu : World :=
  ((((((quiet.setSched forked).setPhase 1 .fresh).setSched waiting).setPhase 1 .running).setSched
    running).setPhase 0 .running)

theorem reachable_onCpu : Reachable First (fun w next ↦ ∃ event, Step w event next) onCpu := by
  have hcreated : Step quiet (.create 1) ((quiet.setSched forked).setPhase 1 .fresh) :=
    .create (by decide) (by decide)
  have hstarted : Step ((quiet.setSched forked).setPhase 1 .fresh) (.start 1)
      ((((quiet.setSched forked).setPhase 1 .fresh).setSched waiting).setPhase 1 .running) :=
    .start (by decide) rfl
      ((settles_wakeupProc forked 1).returns_getD forked (by decide +kernel))
  have hrun : Step
      ((((quiet.setSched forked).setPhase 1 .fresh).setSched waiting).setPhase 1 .running) .schedule
      onCpu :=
    .schedule rfl ((settles_schedule waiting).returns_getD waiting (by decide +kernel))
  exact .step (.step (.step (.first first_quiet) ⟨_, hcreated⟩) ⟨_, hstarted⟩) ⟨_, hrun⟩

/-- It asks for a permit. -/
def queued : World where
  kernel := onCpu.kernel.asleep 0 WT_KSEM
  phase := Function.update onCpu.phase 1 (.entered 0)
  spec := onCpu.spec.down 0 1

theorem guarded_queued : 1 ∈ (queued.spec.sem 0).waiting ∧ Guarded queued := by
  have hcall : down onCpu.kernel 0 = .ok (false, onCpu.kernel.asleep 0 WT_KSEM) := by
    unfold down innerDown
    rw [waitCurrentSet_eq]
    rfl
  have hstep : Step onCpu (.down 0) queued := .down rfl (by decide) hcall
  exact ⟨by decide, guarded_of_reachable (reachable_onCpu.step ⟨_, hstep⟩)⟩

end Ucore.Sync
