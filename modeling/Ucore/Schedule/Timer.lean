import Ucore.Libs.List
import Ucore.Schedule.Sched

/-!
# The timers of `kern/schedule/sched.c`

A timer is named by its address. The list header `timer_list` and the field `timer_link` of every
timer are the nodes of one memory of links.
-/

namespace Ucore.Schedule

open Library Outcome

/-- The address of a `timer_t`. -/
abbrev Timer := ℕ

/-- `&timer_list`, or `&timer->timer_link`. -/
inductive TimerNode where
  | timerList
  | timerLink (timer : Timer)
  deriving DecidableEq, Repr

/-- The timers next to the scheduler. A timer without a process has a null pointer. -/
structure Timers where
  sched : Sched
  expires : Timer → ℕ
  proc : Timer → Option Proc
  links : Links TimerNode

/-- `timer_init`. -/
def timerInit (s : Timers) (timer : Timer) (proc : Proc) (expires : ℕ) : Timers :=
  { s with
    expires := Function.update s.expires timer (uint32 expires)
    proc := Function.update s.proc timer (some proc)
    links := listInit s.links (.timerLink timer) }

/-- The subtraction of the machine. -/
def wrapping (a b : ℕ) : Outcome ℕ := .ok (uint32Sub a b)

/-- A subtraction that stops where the one of the machine wraps around. -/
def checked (a b : ℕ) : Outcome ℕ := if b ≤ a then .ok (a - b) else .error .panic

/-- One round of the loop in `add_timer`, on the fields `expires` of all timers. The loop leaves
with the node to add the timer before. -/
def addRound (sub : ℕ → ℕ → Outcome ℕ) (timer : Timer) (expires : Timer → ℕ) :
    TimerNode → Outcome ((Timer → ℕ) ⊕ TimerNode × (Timer → ℕ))
  | .timerList => .ok (.inl expires) -- the loop never comes to the header
  | .timerLink next =>
    if expires timer < expires next then do
      let value ← sub (expires next) (expires timer)
      .ok (.inr (.timerLink next, Function.update expires next value))
    else do
      let value ← sub (expires timer) (expires next)
      .ok (.inl (Function.update expires timer value))

/-- `add_timer`, with the subtraction left open. -/
def addTimerWith (sub : ℕ → ℕ → Outcome ℕ) (fuel : ℕ) (s : Timers) (timer : Timer) :
    Outcome Timers := do
  require (s.expires timer > 0 ∧ s.proc timer ≠ none)
  require (listEmpty s.links (.timerLink timer))
  let (le, expires) ← walk (fun _ ↦ s.links) .timerList (addRound sub timer)
    (fun expires ↦ .ok (.timerList, expires)) fuel s.expires .timerList
  .ok { s with expires := expires, links := listAddBefore s.links le (.timerLink timer) }

/-- `add_timer`. -/
def addTimer : ℕ → Timers → Timer → Outcome Timers := addTimerWith wrapping

/-- `del_timer`. -/
def delTimer (s : Timers) (timer : Timer) : Timers :=
  if ¬listEmpty s.links (.timerLink timer) then
    let s :=
      if s.expires timer ≠ 0 then
        match listNext s.links (.timerLink timer) with
        | .timerList => s
        | .timerLink next =>
          { s with
            expires := Function.update s.expires next
              (uint32 (s.expires next + s.expires timer)) }
      else s
    { s with links := listDelInit s.links (.timerLink timer) }
  else s

/-- A process that waits must wait interruptibly. -/
def checkInterrupted (value : ProcStruct) : Outcome Unit :=
  if value.waitState ≠ 0 then require (value.waitState &&& WT_INTERRUPTED ≠ 0) else .ok ()

/-- The wakeup in `run_timer_list`. -/
def wakeTimer (fuel : ℕ) (s : Timers) (timer : Timer) : Outcome Timers :=
  match s.proc timer with
  | none => .error .panic -- a null pointer is followed
  | some proc => do
    checkInterrupted (s.sched.procs proc)
    let sched ← wakeupProc fuel s.sched proc
    .ok { s with sched := sched }

/-- The loop in `run_timer_list`. Wakeups have a budget of their own. -/
def fireTimers (wakeFuel : ℕ) : ℕ → Timers → Timer → Outcome Timers
  | 0, _, _ => .error .fuel
  | fuel + 1, s, timer =>
    if s.expires timer = 0 then do
      let le := listNext s.links (.timerLink timer)
      let s ← wakeTimer wakeFuel s timer
      let s := delTimer s timer
      match le with
      | .timerList => .ok s
      | .timerLink next => fireTimers wakeFuel fuel s next
    else .ok s

/-- The pass of `run_timer_list` over the timers, with the subtraction left open. -/
def runTimersWith (sub : ℕ → ℕ → Outcome ℕ) (fuel : ℕ) (s : Timers) : Outcome Timers :=
  match listNext s.links .timerList with
  | .timerList => .ok s
  | .timerLink timer => do
    require (s.expires timer ≠ 0)
    let value ← sub (s.expires timer) 1
    fireTimers fuel fuel { s with expires := Function.update s.expires timer value } timer

/-- `run_timer_list`, with the subtraction left open. -/
def runTimerListWith (sub : ℕ → ℕ → Outcome ℕ) (fuel : ℕ) (s : Timers) : Outcome Timers := do
  let s ← runTimersWith sub fuel s
  .ok { s with sched := schedClassProcTick s.sched s.sched.current }

/-- `run_timer_list`. -/
def runTimerList : ℕ → Timers → Outcome Timers := runTimerListWith wrapping

end Ucore.Schedule
