import Ucore.Library.RingFamily
import Ucore.Libs.List
import Ucore.Schedule.Sched

/-!
# `kern/sync/wait.c` and `kern/sync/sem.c`

Wait queues and semaphores. A process that has to wait links a `wait_t` of its own stack into the
queue of the semaphore, and calls `schedule`; whoever wakes it has unlinked it by then. Every
process is in at most one call of `down`, so that a `wait_t` goes by the process whose stack it is
on.
-/

namespace Ucore.Sync

open Library Outcome Schedule

/-- The address of a semaphore. -/
abbrev Sem := ℕ

/-- A place in a circular list: the head of the queue of a semaphore, or the `wait_link` of the
`wait_t` of a process. -/
inductive WaitNode where
  | waitHead (sem : Sem)
  | waitLink (wait : Proc)
  deriving DecidableEq

/-- The fields of a `wait_t` besides its links. -/
structure Wait where
  proc : Option Proc
  wakeupFlags : BitVec 32
  waitQueue : Option Sem

/-- The scheduler's part of the kernel, the semaphores and the `wait_t`s. -/
structure Kernel where
  sched : Sched
  links : Links WaitNode
  wait : Proc → Wait
  value : Sem → ℤ

def Kernel.setWait (k : Kernel) (wait : Proc) (value : Wait) : Kernel :=
  { k with wait := Function.update k.wait wait value }

def Kernel.setValue (k : Kernel) (sem : Sem) (value : ℤ) : Kernel :=
  { k with value := Function.update k.value sem value }

/-! ## Wait queues -/

/-- `wait_init`. -/
def waitInit (k : Kernel) (wait proc : Proc) : Kernel :=
  { k.setWait wait { k.wait wait with proc := some proc, wakeupFlags := WT_INTERRUPTED } with
    links := listInit k.links (.waitLink wait) }

/-- `wait_queue_init`. -/
def waitQueueInit (k : Kernel) (queue : Sem) : Kernel :=
  { k with links := listInit k.links (.waitHead queue) }

/-- `wait_queue_add`. -/
def waitQueueAdd (k : Kernel) (queue : Sem) (wait : Proc) : Outcome Kernel := do
  require (listEmpty k.links (.waitLink wait) ∧ (k.wait wait).proc.isSome)
  let k := k.setWait wait { k.wait wait with waitQueue := some queue }
  .ok { k with links := listAddBefore k.links (.waitHead queue) (.waitLink wait) }

/-- `wait_queue_del`. -/
def waitQueueDel (k : Kernel) (queue : Sem) (wait : Proc) : Outcome Kernel := do
  require (¬listEmpty k.links (.waitLink wait) ∧ (k.wait wait).waitQueue = some queue)
  .ok { k with links := listDelInit k.links (.waitLink wait) }

/-- `wait_queue_first`. -/
def waitQueueFirst (k : Kernel) (queue : Sem) : Option Proc :=
  match listNext k.links (.waitHead queue) with
  | .waitHead _ => none
  | .waitLink wait => some wait

/-- `wakeup_wait`. -/
def wakeupWait (fuel : ℕ) (k : Kernel) (queue : Sem) (wait : Proc) (wakeupFlags : BitVec 32)
    (del : Bool) : Outcome Kernel := do
  let k ← if del then waitQueueDel k queue wait else .ok k
  let k := k.setWait wait { k.wait wait with wakeupFlags }
  match (k.wait wait).proc with
  | none => .error .panic -- a null pointer is followed
  | some proc => do
    let sched ← wakeupProc fuel k.sched proc
    .ok { k with sched }

/-- `wait_current_set`, with the `wait_t` on the stack of the current process. -/
def waitCurrentSet (k : Kernel) (queue : Sem) (waitState : BitVec 32) : Outcome Kernel :=
  let current := k.sched.current
  let k := waitInit k current current
  let sched := k.sched.store current
    { k.sched.procs current with state := .sleeping, waitState }
  waitQueueAdd { k with sched } queue current

/-- `wait_current_del`. -/
def waitCurrentDel (k : Kernel) (queue : Sem) (wait : Proc) : Outcome Kernel :=
  if listEmpty k.links (.waitLink wait) then .ok k else waitQueueDel k queue wait

/-! ## Semaphores -/

/-- `sem_init`. -/
def semInit (k : Kernel) (sem : Sem) (value : ℤ) : Kernel :=
  waitQueueInit (k.setValue sem value) sem

/-- `__up`. -/
def innerUp (fuel : ℕ) (k : Kernel) (sem : Sem) (waitState : BitVec 32) : Outcome Kernel :=
  match waitQueueFirst k sem with
  | none => .ok (k.setValue sem (int32 (k.value sem + 1)))
  | some wait =>
    match (k.wait wait).proc with
    | none => .error .panic -- a null pointer is followed
    | some proc => do
      require ((k.sched.procs proc).waitState = waitState)
      wakeupWait fuel k sem wait waitState true

/-- `__down` up to the call of `schedule`: whether it has returned already. -/
def innerDown (k : Kernel) (sem : Sem) (waitState : BitVec 32) : Outcome (Bool × Kernel) :=
  if 0 < k.value sem then .ok (true, k.setValue sem (int32 (k.value sem - 1)))
  else do
    let k ← waitCurrentSet k sem waitState
    .ok (false, k)

/-- `__down` after the call of `schedule`. -/
def innerDownRest (k : Kernel) (sem : Sem) (waitState : BitVec 32) :
    Outcome (BitVec 32 × Kernel) := do
  let wait := k.sched.current
  let k ← waitCurrentDel k sem wait
  if (k.wait wait).wakeupFlags ≠ waitState then .ok ((k.wait wait).wakeupFlags, k) else .ok (0, k)

def up (fuel : ℕ) (k : Kernel) (sem : Sem) : Outcome Kernel := innerUp fuel k sem WT_KSEM

/-- `down` up to the call of `schedule`: whether it has returned already. -/
def down (k : Kernel) (sem : Sem) : Outcome (Bool × Kernel) := innerDown k sem WT_KSEM

/-- `down` after the call of `schedule`. -/
def downRest (k : Kernel) (sem : Sem) : Outcome Kernel := do
  let (flags, k) ← innerDownRest k sem WT_KSEM
  require (flags = 0)
  .ok k

def tryDown (k : Kernel) (sem : Sem) : Bool × Kernel :=
  if 0 < k.value sem then (true, k.setValue sem (int32 (k.value sem - 1))) else (false, k)

/-- The kernel after its current process has linked its `wait_t` into a queue. -/
def Kernel.asleep (k : Kernel) (queue : Sem) (waitState : BitVec 32) : Kernel :=
  let current := k.sched.current
  { k with
    sched := k.sched.store current
      { k.sched.procs current with state := .sleeping, waitState }
    links := listAddBefore (listInit k.links (.waitLink current)) (.waitHead queue)
      (.waitLink current)
    wait := Function.update k.wait current ⟨some current, WT_INTERRUPTED, some queue⟩ }

theorem waitCurrentSet_eq (k : Kernel) (queue : Sem) (waitState : BitVec 32) :
    waitCurrentSet k queue waitState = .ok (k.asleep queue waitState) := by
  unfold waitCurrentSet waitQueueAdd waitInit Kernel.setWait
  dsimp only
  rw [Outcome.require_of_true ⟨congrArg Link.next (Links.selfLink_self ..), by
    rw [Function.update_self]
    rfl⟩, Function.update_self, Function.update_idem]
  rfl

/-! ## Queues as lists -/

/-- Each semaphore has its queue. -/
def Queues (links : Links WaitNode) (waiting : Sem → List Proc) : Prop :=
  RingFamily links WaitNode.waitHead Set.univ fun sem ↦ (waiting sem).map .waitLink

section Lists

variable {k : Kernel} {waiting : Sem → List Proc} {sem : Sem} {wait other : Proc}
  {left right : List Proc} {links : Links WaitNode}

theorem mem_queue {list : List Proc} : WaitNode.waitLink wait ∈ .waitHead sem :: list.map .waitLink ↔
    wait ∈ list := by
  simp

/-- The queues with one of them replaced. -/
theorem queues_update (waiting : Sem → List Proc) (sem : Sem) (list : List Proc) :
    (fun other ↦ (Function.update waiting sem list other).map WaitNode.waitLink) =
      Function.update (fun other ↦ (waiting other).map WaitNode.waitLink) sem
        (list.map WaitNode.waitLink) := by
  funext other
  by_cases heq : other = sem
  · subst heq
    rw [Function.update_self, Function.update_self]
  · rw [Function.update_of_ne heq, Function.update_of_ne heq]

theorem waitQueueFirst_eq (h : Queues k.links waiting) (sem : Sem) :
    waitQueueFirst k sem = (waiting sem).head? := by
  have hnext : listNext k.links (.waitHead sem) = _ := (h.ring sem trivial).next_head
  unfold waitQueueFirst
  rw [hnext]
  cases waiting sem <;> rfl

theorem Queues.of_empty (h : ∀ sem, links (.waitHead sem) = ⟨.waitHead sem, .waitHead sem⟩) :
    Queues links fun _ ↦ [] := by
  refine ⟨fun sem _ ↦ ?_, fun sem _ other _ hne ↦ ?_⟩
  · refine (Ring.selfLink links (.waitHead sem)).congr fun node hnode ↦ ?_
    rw [List.mem_singleton.mp hnode, Links.selfLink_self, h]
  · simpa using hne.symm

theorem Queues.init (h : Queues links waiting) (hfresh : ∀ sem, wait ∉ waiting sem) :
    Queues (listInit links (.waitLink wait)) waiting := by
  refine RingFamily.congr h fun sem _ node hnode ↦ Links.selfLink_of_ne _ ?_
  rintro rfl
  exact hfresh sem (mem_queue.mp hnode)

theorem Queues.initHead (h : Queues links waiting) (hnone : waiting sem = []) :
    Queues (listInit links (.waitHead sem)) waiting := by
  refine RingFamily.congr h fun other _ node hnode ↦ ?_
  by_cases heq : other = sem
  · subst heq
    rw [hnone] at hnode
    obtain rfl : node = .waitHead other := List.mem_singleton.mp hnode
    have hring := h.ring other trivial
    rw [hnone] at hring
    have hself : links (.waitHead other) = ⟨.waitHead other, .waitHead other⟩ := by
      have hnext : (links (.waitHead other)).next = .waitHead other := hring.next_head
      have hprev : (links (.waitHead other)).prev = .waitHead other := hring.prev_head
      cases hlink : links (.waitHead other)
      rw [hlink] at hnext hprev
      dsimp only at hnext hprev
      rw [hnext, hprev]
    exact (Links.selfLink_self ..).trans hself.symm
  · refine Links.selfLink_of_ne _ ?_
    rintro rfl
    rcases List.mem_cons.mp hnode with hhead | hlist
    · exact heq (WaitNode.waitHead.inj hhead).symm
    · rcases List.mem_map.mp hlist with ⟨_, _, hne⟩
      cases hne

/-- A `wait_t` becomes the last one of a queue. -/
theorem Queues.add (h : Queues links waiting) (hfresh : ∀ sem, wait ∉ waiting sem) (sem : Sem) :
    Queues (listAddBefore links (.waitHead sem) (.waitLink wait))
      (Function.update waiting sem (waiting sem ++ [wait])) := by
  have hlists : (waiting sem).map WaitNode.waitLink = (waiting sem).map WaitNode.waitLink ++ [] :=
    (List.append_nil _).symm
  have hadded := RingFamily.linkBetween (i := sem) h trivial hlists
    fun other _ hmem ↦ hfresh other (mem_queue.mp hmem)
  have hprev := (h.ring sem trivial).prev_head
  unfold Queues
  rw [queues_update, List.map_append]
  rw [← hprev] at hadded
  exact hadded

theorem Queues.add_other (h : Queues links waiting) (hother : ∀ sem, other ∉ waiting sem)
    (hne : other ≠ wait) (sem : Sem) :
    listAddBefore links (.waitHead sem) (.waitLink wait) (.waitLink other) =
      links (.waitLink other) := by
  have hring : Ring links (.waitHead sem) ((waiting sem).map WaitNode.waitLink ++ []) :=
    (List.append_nil _).symm ▸ h.ring sem trivial
  refine listAddBefore_of_notMem hring ?_
  simpa [hne] using hother sem

/-- A `wait_t` leaves its queue. -/
theorem Queues.del (h : Queues links waiting) (hwaiting : waiting sem = left ++ wait :: right) :
    Queues (listDelInit links (.waitLink wait)) (Function.update waiting sem (left ++ right)) := by
  have hlists : (waiting sem).map WaitNode.waitLink =
      left.map WaitNode.waitLink ++ .waitLink wait :: right.map WaitNode.waitLink := by
    rw [hwaiting, List.map_append, List.map_cons]
  have hring := h.ring sem trivial
  rw [hlists] at hring
  have hremoved := RingFamily.joinAround (i := sem) h trivial hlists
  rw [← hring.next_eq, ← hring.prev_eq, ← List.map_append, ← queues_update] at hremoved
  refine RingFamily.congr hremoved fun other _ node hnode ↦ Links.selfLink_of_ne _ ?_
  rintro rfl
  have hmem := mem_queue.mp hnode
  by_cases heq : other = sem
  · subst heq
    rw [Function.update_self] at hmem
    exact hring.node_notMem (List.mem_cons_of_mem _ (by simpa using hmem))
  · rw [Function.update_of_ne heq] at hmem
    refine h.disjoint other trivial sem trivial heq (mem_queue.mpr hmem) (mem_queue.mpr ?_)
    rw [hwaiting]
    exact List.mem_append_right _ List.mem_cons_self

theorem Queues.del_other (h : Queues links waiting) (hwaiting : waiting sem = left ++ wait :: right)
    (hother : ∀ sem, other ∉ waiting sem) :
    listDelInit links (.waitLink wait) (.waitLink other) = links (.waitLink other) := by
  have hring := h.ring sem trivial
  rw [hwaiting, List.map_append, List.map_cons] at hring
  refine listDelInit_of_notMem hring fun hmem ↦ hother sem ?_
  rw [hwaiting]
  simpa using hmem

theorem listEmpty_listInit (links : Links WaitNode) (node : WaitNode) :
    listEmpty (listInit links node) node := congrArg Link.next (Links.selfLink_self ..)

theorem Queues.not_listEmpty (h : Queues links waiting) (hwait : wait ∈ waiting sem) :
    ¬listEmpty links (.waitLink wait) :=
  (h.ring sem trivial).next_ne_self (List.mem_map_of_mem hwait)

end Lists

end Ucore.Sync
