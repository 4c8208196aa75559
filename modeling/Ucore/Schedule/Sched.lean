import Ucore.Libs.Defs
import Ucore.Libs.SkewHeap
import Ucore.Process.Proc
import Mathlib.Data.Finset.Card

/-!
# `kern/schedule/sched.c` and `kern/schedule/default_sched_stride.c`

The stride scheduler over its skew heap. `run_list` and `run_link` are initialized and never used,
since the scheduler is built with `USE_SKEW_HEAP`.
-/

namespace Ucore.Schedule

open Library Outcome

def BIG_STRIDE : ℕ := 2 ^ 30
def MAX_TIME_SLICE : ℤ := 5

/-- `struct run_queue`. -/
structure RunQueue where
  procNum : ℕ
  maxTimeSlice : ℤ
  lab6RunPool : Option Proc

/-- The scheduler's part of the kernel. `entries` holds the `lab6_run_pool` fields of all
processes and `live` the processes that are allocated. -/
structure Sched where
  procs : Proc → ProcStruct
  entries : SkewHeap Proc
  rq : RunQueue
  current : Proc
  idleproc : Proc
  live : Finset Proc

/-- A store into one process. -/
def Sched.store (s : Sched) (proc : Proc) (value : ProcStruct) : Sched :=
  { s with procs := Function.update s.procs proc value }

/-! ## The stride scheduler -/

/-- `proc_stride_comp_f`. -/
def procStrideCompF (procs : Proc → ProcStruct) (a b : Proc) : ℤ :=
  let c := int32 ((procs a).lab6Stride - (procs b).lab6Stride)
  if 0 < c then 1 else if c = 0 then 0 else -1

/-- `stride_init`. -/
def strideInit (rq : RunQueue) : RunQueue := { rq with procNum := 0, lab6RunPool := none }

/-- `stride_enqueue`. -/
def strideEnqueue (fuel : ℕ) (s : Sched) (proc : Proc) : Outcome Sched := do
  let (pool, entries) ←
    skewHeapInsert (procStrideCompF s.procs) fuel s.entries s.rq.lab6RunPool proc
  let value := s.procs proc
  let timeSlice :=
    if value.timeSlice = 0 ∨ value.timeSlice > s.rq.maxTimeSlice then s.rq.maxTimeSlice
    else value.timeSlice
  let s := { s with entries := entries, rq := { s.rq with lab6RunPool := pool } }
  let s := s.store proc { value with timeSlice := timeSlice, rq := true }
  .ok { s with rq := { s.rq with procNum := uint32 (s.rq.procNum + 1) } }

/-- `stride_dequeue`. -/
def strideDequeue (fuel : ℕ) (s : Sched) (proc : Proc) : Outcome Sched := do
  require ((s.procs proc).rq = true ∧ 0 < s.rq.procNum)
  let (pool, entries) ←
    skewHeapRemove (procStrideCompF s.procs) fuel s.entries s.rq.lab6RunPool proc
  .ok { s with
    entries := entries
    rq := { s.rq with lab6RunPool := pool, procNum := uint32Sub s.rq.procNum 1 } }

/-- How far a process moves on each time it is picked. -/
def pass (value : ProcStruct) : ℕ :=
  if value.lab6Priority ≠ 0 then BIG_STRIDE / value.lab6Priority else BIG_STRIDE

/-- `stride_pick_next`. -/
def stridePickNext (s : Sched) : Option Proc × Sched :=
  match s.rq.lab6RunPool with
  | none => (none, s)
  | some proc =>
    let value := s.procs proc
    (some proc, s.store proc { value with lab6Stride := uint32 (value.lab6Stride + pass value) })

/-- `stride_proc_tick`. -/
def strideProcTick (s : Sched) (proc : Proc) : Sched :=
  let value := s.procs proc
  let value := if 0 < value.timeSlice then { value with timeSlice := value.timeSlice - 1 } else value
  let value := if value.timeSlice = 0 then { value with needResched := true } else value
  s.store proc value

/-! ## The scheduler core -/

def schedClassEnqueue (fuel : ℕ) (s : Sched) (proc : Proc) : Outcome Sched :=
  if proc ≠ s.idleproc then strideEnqueue fuel s proc else .ok s

def schedClassProcTick (s : Sched) (proc : Proc) : Sched :=
  if proc ≠ s.idleproc then strideProcTick s proc
  else s.store proc { s.procs proc with needResched := true }

/-- `sched_init`. -/
def schedInit (rq : RunQueue) : RunQueue := strideInit { rq with maxTimeSlice := MAX_TIME_SLICE }

/-- `wakeup_proc`. -/
def wakeupProc (fuel : ℕ) (s : Sched) (proc : Proc) : Outcome Sched := do
  require ((s.procs proc).state ≠ .zombie)
  if (s.procs proc).state ≠ .runnable then
    let s := s.store proc { s.procs proc with state := .runnable, waitState := 0 }
    if proc ≠ s.current then schedClassEnqueue fuel s proc else .ok s
  else .ok s

/-- `proc_run`, as far as the scheduler sees it. -/
def procRun (s : Sched) (proc : Proc) : Sched :=
  if proc ≠ s.current then { s with current := proc } else s

/-- The second half of `schedule`, from the call of `sched_class_pick_next` on. -/
def scheduleNext (fuel : ℕ) (s : Sched) : Outcome Sched := do
  let (next, s) := stridePickNext s
  let s ← match next with
    | some next => strideDequeue fuel s next
    | none => .ok s
  let next := next.getD s.idleproc
  let s := s.store next { s.procs next with runs := int32 ((s.procs next).runs + 1) }
  .ok (if next ≠ s.current then procRun s next else s)

/-- `schedule`. -/
def schedule (fuel : ℕ) (s : Sched) : Outcome Sched := do
  let s := s.store s.current { s.procs s.current with needResched := false }
  let s ←
    if (s.procs s.current).state = .runnable then schedClassEnqueue fuel s s.current else .ok s
  scheduleNext fuel s

/-! ## Small facts -/

namespace Sched

variable (s : Sched) (proc : Proc) (value : ProcStruct)

@[simp]
theorem store_procs_self : (s.store proc value).procs proc = value := Function.update_self ..

theorem store_procs_of_ne {proc other : Proc} (h : other ≠ proc) (value : ProcStruct) :
    (s.store proc value).procs other = s.procs other := Function.update_of_ne h ..

@[simp]
theorem store_entries : (s.store proc value).entries = s.entries := rfl

@[simp]
theorem store_rq : (s.store proc value).rq = s.rq := rfl

@[simp]
theorem store_current : (s.store proc value).current = s.current := rfl

@[simp]
theorem store_idleproc : (s.store proc value).idleproc = s.idleproc := rfl

@[simp]
theorem store_live : (s.store proc value).live = s.live := rfl

/-- A projection of the process that the store leaves alone. -/
theorem store_congr {β : Type} (f : ProcStruct → β) {s : Sched} {proc : Proc} {value : ProcStruct}
    (h : f value = f (s.procs proc)) (other : Proc) :
    f ((s.store proc value).procs other) = f (s.procs other) := by
  by_cases heq : other = proc
  · rw [heq, store_procs_self, h]
  · rw [store_procs_of_ne s heq]

end Sched

theorem procRun_eq (s : Sched) (proc : Proc) :
    (if proc ≠ s.current then procRun s proc else s) = { s with current := proc } := by
  by_cases h : proc = s.current
  · rw [if_neg (not_not.mpr h), h]
  · rw [if_pos h, procRun, if_pos h]

theorem pass_le (value : ProcStruct) : pass value ≤ BIG_STRIDE := by
  unfold pass
  split
  · exact Nat.div_le_self ..
  · exact le_rfl

/-- Only the priority decides how far a process moves on. -/
theorem pass_congr {value other : ProcStruct} (h : other.lab6Priority = value.lab6Priority) :
    pass other = pass value := by
  rw [pass, pass, h]

theorem procStrideCompF_congr {procs other : Proc → ProcStruct}
    (h : ∀ proc, (other proc).lab6Stride = (procs proc).lab6Stride) :
    procStrideCompF other = procStrideCompF procs := by
  funext a b
  rw [procStrideCompF, procStrideCompF, h, h]

end Ucore.Schedule
