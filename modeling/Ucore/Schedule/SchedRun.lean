import Ucore.Library.Run
import Ucore.Schedule.RunPool

/-!
# Runs of the scheduler

`Sound` says that the pool holds every runnable process but the current one and `idleproc`. Every
step keeps it: a process that becomes runnable is queued at once unless it is running, and the
current process is queued when it gives up the processor.
-/

namespace Ucore.Schedule

open Library

/-- Something happens to the processes: a call of the scheduler, or a store into a process. -/
inductive Action where
  | schedule
  | wakeup (proc : Proc)
  /-- The current process is about to wait. -/
  | sleep (waitState : BitVec 32)
  /-- The current process is about to end. -/
  | exit
  | tick
  | create (proc : Proc)
  | reap (proc : Proc)
  | setPriority (proc : Proc) (priority : ℕ)

/-- `do_fork` refuses to go beyond `MAX_PROCESS`, `do_exit` refuses `idleproc`, which never waits
either, and `do_wait` frees the zombies of others. A call that stops at an assertion is no step. -/
inductive Step (s : Sched) : Action → Sched → Prop
  | schedule {next : Sched} (hcall : Returns (fun fuel ↦ schedule fuel s) next) :
      Step s .schedule next
  | wakeup {proc : Proc} {next : Sched} (hlive : proc ∈ s.live)
      (hcall : Returns (fun fuel ↦ wakeupProc fuel s proc) next) : Step s (.wakeup proc) next
  | sleep {waitState : BitVec 32} (hidle : s.current ≠ s.idleproc)
      (hstate : (s.procs s.current).state ≠ .zombie) :
      Step s (.sleep waitState)
        (s.store s.current { s.procs s.current with state := .sleeping, waitState := waitState })
  | exit (hidle : s.current ≠ s.idleproc) :
      Step s .exit (s.store s.current { s.procs s.current with state := .zombie })
  | tick : Step s .tick (schedClassProcTick s s.current)
  | create {proc : Proc} (hfresh : proc ∉ s.live) (hroom : s.live.card < MAX_PROCESS) :
      Step s (.create proc)
        { s.store proc allocProc with
          entries := skewHeapInit s.entries proc
          live := insert proc s.live }
  | reap {proc : Proc} (hcurrent : proc ≠ s.current) (hzombie : (s.procs proc).state = .zombie) :
      Step s (.reap proc) { s with live := s.live.erase proc }
  | setPriority {proc : Proc} {priority : ℕ} (hpriority : priority < 2 ^ 32) :
      Step s (.setPriority proc priority)
        (s.store proc { s.procs proc with lab6Priority := priority })

/-- After `sched_init`, `idleproc` is the only process. -/
structure Booted (s : Sched) : Prop where
  rq : ∃ rq, s.rq = schedInit rq
  current : s.current = s.idleproc
  runnable : (s.procs s.idleproc).state = .runnable
  live : s.live = {s.idleproc}

/-- A process that competes for the processor. -/
def Contends (s : Sched) (proc : Proc) : Prop :=
  proc ∈ s.live ∧ (s.procs proc).state = .runnable ∧ proc ≠ s.idleproc

/-- The invariant: the pool holds those that compete, but for the one that has the processor. -/
structure Sound (s : Sched) (tree : BinaryTree Proc) : Prop where
  pooled : Pooled s tree
  mem_values : ∀ proc, proc ∈ tree.values ↔ Contends s proc ∧ proc ≠ s.current
  idle_live : s.idleproc ∈ s.live
  idle_runnable : (s.procs s.idleproc).state = .runnable
  current_live : s.current ∈ s.live
  room : s.live.card ≤ MAX_PROCESS

variable {s next : Sched} {tree : BinaryTree Proc} {proc : Proc}

theorem Frame.contends_iff (h : Frame s next) (proc : Proc) :
    Contends next proc ↔ Contends s proc := by
  rw [Contends, Contends, h.live, h.idleproc, (h.alike proc).state]

namespace Sound

theorem length_lt (h : Sound s tree) : tree.values.length + 1 < 2 ^ 32 := by
  have hsub : tree.values.toFinset ⊆ s.live := fun proc hproc ↦
    ((h.mem_values proc).mp (List.mem_toFinset.mp hproc)).1.1
  have hcard := Finset.card_le_card hsub
  have hroom := h.room
  rw [List.toFinset_card_of_nodup h.pooled.nodup] at hcard
  unfold MAX_PROCESS at hroom
  omega

theorem current_notMem (h : Sound s tree) : s.current ∉ tree.values := fun hmem ↦
  ((h.mem_values _).mp hmem).2 rfl

/-- At the time of the pick all competitors are in the pool. -/
theorem mem_contenders (h : Sound s tree) (proc : Proc) :
    proc ∈ (contenders s tree).values ↔ Contends s proc := by
  unfold contenders
  split
  case isTrue hcurrent =>
    rw [mem_values_join, h.mem_values]
    constructor
    · rintro (rfl | hproc)
      · exact ⟨h.current_live, hcurrent.1, hcurrent.2⟩
      · exact hproc.1
    · intro hproc
      by_cases heq : proc = s.current
      · exact Or.inl heq
      · exact Or.inr ⟨hproc, heq⟩
  case isFalse hcurrent =>
    rw [h.mem_values]
    refine ⟨fun hproc ↦ hproc.1, fun hproc ↦ ⟨hproc, ?_⟩⟩
    rintro rfl
    exact hcurrent ⟨hproc.2.1, hproc.2.2⟩

theorem nodup_contenders (h : Sound s tree) : (contenders s tree).values.Nodup := by
  unfold contenders
  split
  · exact (values_join_perm ..).nodup_iff.mpr (List.nodup_cons.mpr ⟨h.current_notMem, h.pooled.nodup⟩)
  · exact h.pooled.nodup

/-- After a pick the picked process has left the pool. -/
theorem of_picked {after : BinaryTree Proc} (h : Sound s tree) (hframe : Frame s next)
    (hpicked : Picked s next (contenders s tree) after) (hpool : Pooled next after) :
    Sound next after := by
  have hmem := h.mem_contenders
  have hnodup := h.nodup_contenders
  have hidle : (next.procs next.idleproc).state = .runnable := by
    rw [hframe.idleproc, (hframe.alike _).state, h.idle_runnable]
  have hidleLive : next.idleproc ∈ next.live := by
    rw [hframe.idleproc, hframe.live]
    exact h.idle_live
  have hroom : next.live.card ≤ MAX_PROCESS := hframe.live ▸ h.room
  generalize contenders s tree = picked at hpicked hmem hnodup
  cases hpicked with
  | idle hcurrent _ =>
    refine ⟨hpool, fun proc ↦ ?_, hidleLive, hidle, ?_, hroom⟩
    · rw [hframe.contends_iff, ← hmem]
      simp
    · rw [hcurrent, hframe.live]
      exact h.idle_live
  | @proc proc left right hcurrent _ _ =>
    refine ⟨hpool, fun other ↦ ?_, hidleLive, hidle, ?_, hroom⟩
    · rw [hframe.contends_iff, ← hmem, BinaryTree.mem_values_meld, hcurrent, BinaryTree.values_node,
        List.mem_cons, List.mem_append]
      rw [BinaryTree.values_node, List.nodup_cons, List.mem_append] at hnodup
      constructor
      · intro hother
        exact ⟨Or.inr hother, fun heq ↦ hnodup.1 (heq ▸ hother)⟩
      · rintro ⟨heq | hother, hne⟩
        · exact absurd heq hne
        · exact hother
    · rw [hcurrent, hframe.live]
      exact ((hmem proc).mp (by simp)).1

/-- `schedule` returns, and its pick leaves the pool as it should be. -/
theorem schedule (h : Sound s tree) : ∃ next after,
    Returns (fun fuel ↦ schedule fuel s) next ∧ Frame s next ∧
      Picked s next (contenders s tree) after ∧ Sound next after := by
  rcases schedule_spec h.pooled h.current_notMem h.length_lt with
    ⟨next, after, hcall, hframe, hpicked, hpool⟩
  exact ⟨next, after, hcall, hframe, hpicked, h.of_picked hframe hpicked hpool⟩

theorem notMem_of_ne (h : Sound s tree) (hstate : (s.procs proc).state ≠ .runnable) :
    proc ∉ tree.values := fun hmem ↦ hstate ((h.mem_values proc).mp hmem).1.2.1

theorem contends_awake_iff (hlive : proc ∈ s.live) (other : Proc) :
    Contends (awake s proc) other ↔ Contends s other ∨ (other = proc ∧ proc ≠ s.idleproc) := by
  unfold Contends
  rw [awake_live, awake_idleproc]
  by_cases heq : other = proc
  · subst heq
    simp [hlive]
  · rw [awake_procs_of_ne heq]
    simp [heq]

/-- `wakeup_proc` of a process that is not a zombie returns, and queues it if need be. -/
theorem wakeupProc (h : Sound s tree) (hlive : proc ∈ s.live)
    (hzombie : (s.procs proc).state ≠ .zombie) : ∃ next,
    Returns (fun fuel ↦ wakeupProc fuel s proc) next ∧ Undisturbed (awake s proc) next ∧
      Sound next (withWoken s tree proc) := by
  rcases wakeupProc_spec h.pooled hzombie h.notMem_of_ne h.length_lt with
    ⟨next, hcall, hframe, hpool⟩
  refine ⟨next, hcall, hframe, hpool, fun other ↦ ?_, ?_, ?_, ?_, ?_⟩
  · rw [hframe.contends_iff, contends_awake_iff hlive, hframe.current, awake_current, withWoken]
    split
    case isTrue hwoken =>
      rw [mem_values_join, h.mem_values]
      constructor
      · rintro (rfl | ⟨hother, hcurrent⟩)
        · exact ⟨Or.inr ⟨rfl, hwoken.2.2⟩, hwoken.2.1⟩
        · exact ⟨Or.inl hother, hcurrent⟩
      · rintro ⟨hother | ⟨heq, -⟩, hcurrent⟩
        · exact Or.inr ⟨hother, hcurrent⟩
        · exact Or.inl heq
    case isFalse hwoken =>
      rw [h.mem_values]
      refine ⟨fun hother ↦ ⟨Or.inl hother.1, hother.2⟩, ?_⟩
      rintro ⟨hother | ⟨rfl, hidle⟩, hcurrent⟩
      · exact ⟨hother, hcurrent⟩
      · refine ⟨⟨hlive, ?_, hidle⟩, hcurrent⟩
        by_contra hrunnable
        exact hwoken ⟨hrunnable, hcurrent, hidle⟩
  · rw [hframe.idleproc, hframe.live, awake_idleproc, awake_live]
    exact h.idle_live
  · rw [hframe.idleproc, (hframe.alike _).state, awake_idleproc]
    by_cases heq : s.idleproc = proc
    · rw [heq, awake_state_self]
    · rw [awake_procs_of_ne heq, h.idle_runnable]
  · rw [hframe.current, hframe.live, awake_current, awake_live]
    exact h.current_live
  · rw [hframe.live, awake_live]
    exact h.room

/-- A store into one process that keeps the others out of it. -/
theorem store {value : ProcStruct} (h : Sound s tree) (hrq : value.rq = (s.procs proc).rq)
    (hstate : proc = s.current ∧ s.current ≠ s.idleproc ∨
      value.state = (s.procs proc).state) : Sound (s.store proc value) tree := by
  have hcontends : ∀ other, other ≠ s.current →
      (Contends (s.store proc value) other ↔ Contends s other) := fun other hother ↦ by
    have hsame : ((s.store proc value).procs other).state = (s.procs other).state := by
      rcases hstate with ⟨rfl, -⟩ | hstate
      · rw [Sched.store_procs_of_ne s hother]
      · exact Sched.store_congr ProcStruct.state hstate other
    rw [Contends, Contends, hsame]
    rfl
  refine ⟨h.pooled.store hrq, fun other ↦ ?_, h.idle_live, ?_, h.current_live, h.room⟩
  · rw [h.mem_values]
    exact and_congr_left fun hother ↦ (hcontends other hother).symm
  · rw [Sched.store_idleproc]
    rcases hstate with ⟨rfl, hidle⟩ | hstate
    · rw [Sched.store_procs_of_ne s hidle.symm, h.idle_runnable]
    · rw [Sched.store_congr ProcStruct.state hstate, h.idle_runnable]

theorem create (h : Sound s tree) (hfresh : proc ∉ s.live) (hroom : s.live.card < MAX_PROCESS) :
    Sound { s.store proc allocProc with
      entries := skewHeapInit s.entries proc
      live := insert proc s.live } tree := by
  have hne : ∀ other ∈ s.live, other ≠ proc := fun other hother heq ↦ hfresh (heq ▸ hother)
  have hvalues : ∀ other ∈ tree.values, other ≠ proc := fun other hother ↦
    hne other ((h.mem_values other).mp hother).1.1
  have hentries : ∀ other ∈ tree.values, skewHeapInit s.entries proc other = s.entries other :=
    fun other hother ↦ Function.update_of_ne (hvalues other hother) _ _
  have hpooled := h.pooled
  refine ⟨⟨?_, hpooled.root, ?_, hpooled.nodup, hpooled.num, ?_⟩, fun other ↦ ?_, ?_, ?_, ?_, ?_⟩
  · exact hpooled.linked.congr_of_eq hpooled.nodup hentries
  · intro other hother
    rw [← hpooled.parent other hother]
    exact congrArg SkewHeapEntry.parent (hentries other (BinaryTree.mem_values_of_root hother))
  · intro other hother
    rw [← hpooled.rq other hother]
    exact congrArg ProcStruct.rq (Sched.store_procs_of_ne s (hvalues other hother) allocProc)
  · rw [h.mem_values]
    refine and_congr_left fun _ ↦ ?_
    by_cases heq : other = proc
    · subst heq
      simp [Contends, hfresh, allocProc]
    · simp only [Contends, Finset.mem_insert, heq, false_or]
      rw [Sched.store_procs_of_ne s heq]
      rfl
  · exact Finset.mem_insert_of_mem h.idle_live
  · change ((s.store proc allocProc).procs s.idleproc).state = .runnable
    rw [Sched.store_procs_of_ne s (hne _ h.idle_live), h.idle_runnable]
  · exact Finset.mem_insert_of_mem h.current_live
  · change (insert proc s.live).card ≤ MAX_PROCESS
    rw [Finset.card_insert_of_notMem hfresh]
    exact hroom

theorem reap (h : Sound s tree) (hcurrent : proc ≠ s.current)
    (hzombie : (s.procs proc).state = .zombie) :
    Sound { s with live := s.live.erase proc } tree := by
  have hne : ∀ other, (s.procs other).state = .runnable → other ≠ proc := by
    rintro other hstate rfl
    rw [hzombie] at hstate
    cases hstate
  refine ⟨h.pooled.congr rfl rfl fun _ _ hrq ↦ hrq, fun other ↦ ?_, ?_, h.idle_runnable, ?_, ?_⟩
  · rw [h.mem_values]
    simp only [Contends, Finset.mem_erase]
    have hother := hne other
    tauto
  · exact Finset.mem_erase_of_ne_of_mem (hne _ h.idle_runnable) h.idle_live
  · exact Finset.mem_erase_of_ne_of_mem hcurrent.symm h.current_live
  · exact (Finset.card_le_card (Finset.erase_subset _ _)).trans h.room

end Sound

/-! ## Steps and runs -/

/-- A tick counts down the time slice of the process and asks it to give up the processor. -/
theorem schedClassProcTick_eq (s : Sched) (proc : Proc) : ∃ value,
    schedClassProcTick s proc = s.store proc value ∧ Alike value (s.procs proc) ∧
      value.rq = (s.procs proc).rq ∧ value.lab6Stride = (s.procs proc).lab6Stride := by
  unfold schedClassProcTick strideProcTick
  split
  · refine ⟨_, rfl, ?_⟩
    split <;> split <;> exact ⟨⟨rfl, rfl, rfl, rfl, rfl⟩, rfl, rfl⟩
  · exact ⟨_, rfl, ⟨rfl, rfl, rfl, rfl, rfl⟩, rfl, rfl⟩

/-- All that a step can do to the processes and to the pool. -/
inductive Effect (s next : Sched) (tree : BinaryTree Proc) : Action → BinaryTree Proc → Prop
  | schedule {after : BinaryTree Proc} (hframe : Frame s next)
      (hpicked : Picked s next (contenders s tree) after) : Effect s next tree .schedule after
  | wakeup {proc : Proc} (hlive : proc ∈ s.live) (hframe : Undisturbed (awake s proc) next) :
      Effect s next tree (.wakeup proc) (withWoken s tree proc)
  | quiet {action : Action} (hcurrent : next.current = s.current)
      (hcontends : ∀ proc, Contends next proc → Contends s proc)
      (hstride : ∀ proc ∈ s.live, (next.procs proc).lab6Stride = (s.procs proc).lab6Stride) :
      Effect s next tree action tree

/-- The current process stops being runnable. -/
theorem Sound.stop {value : ProcStruct} {action : Action} (h : Sound s tree)
    (hidle : s.current ≠ s.idleproc) (hrq : value.rq = (s.procs s.current).rq)
    (hstride : value.lab6Stride = (s.procs s.current).lab6Stride)
    (hstate : value.state ≠ .runnable) :
    Sound (s.store s.current value) tree ∧
      Effect s (s.store s.current value) tree action tree := by
  refine ⟨h.store hrq (Or.inl ⟨rfl, hidle⟩), .quiet rfl (fun proc hproc ↦ ?_)
    fun proc _ ↦ Sched.store_congr ProcStruct.lab6Stride hstride proc⟩
  by_cases heq : proc = s.current
  · have hrunnable := hproc.2.1
    rw [heq, Sched.store_procs_self] at hrunnable
    exact absurd hrunnable hstate
  · exact ⟨hproc.1, Sched.store_procs_of_ne s heq _ ▸ hproc.2.1, hproc.2.2⟩

/-- A step keeps the pool as it should be. -/
theorem Sound.step {action : Action} (h : Sound s tree) (hstep : Step s action next) :
    ∃ after, Sound next after ∧ Effect s next tree action after := by
  cases hstep with
  | schedule hcall =>
    rcases h.schedule with ⟨other, after, hother, hframe, hpicked, hafter⟩
    rw [← hother.unique hcall]
    exact ⟨after, hafter, .schedule hframe hpicked⟩
  | @wakeup proc _ hlive hcall =>
    by_cases hzombie : (s.procs proc).state = .zombie
    · rcases hcall with ⟨bound, hbound⟩
      have hpanic := hbound bound le_rfl
      simp [Schedule.wakeupProc, hzombie] at hpanic
    · rcases h.wakeupProc hlive hzombie with ⟨other, hother, hframe, hafter⟩
      rw [← hother.unique hcall]
      exact ⟨_, hafter, .wakeup hlive hframe⟩
  | sleep hidle hstate => exact ⟨tree, h.stop hidle rfl rfl (by simp)⟩
  | exit hidle => exact ⟨tree, h.stop hidle rfl rfl (by simp)⟩
  | tick =>
    rcases schedClassProcTick_eq s s.current with ⟨value, heq, halike, hrq, hstride⟩
    rw [heq]
    have hframe : Undisturbed s (s.store s.current value) := Undisturbed.store halike hstride
    exact ⟨tree, h.store hrq (Or.inr halike.state), .quiet rfl
      (fun proc ↦ (hframe.contends_iff proc).mp) fun proc _ ↦ hframe.stride proc⟩
  | @create proc hfresh hroom =>
    have hne : ∀ other ∈ s.live, other ≠ proc := fun other hother heq ↦ hfresh (heq ▸ hother)
    refine ⟨tree, h.create hfresh hroom, .quiet rfl (fun other hother ↦ ?_) fun other hother ↦ ?_⟩
    · by_cases heq : other = proc
      · have hrunnable : ((s.store proc allocProc).procs other).state = .runnable := hother.2.1
        rw [heq, Sched.store_procs_self] at hrunnable
        cases hrunnable
      · have hstate : ((s.store proc allocProc).procs other).state = .runnable := hother.2.1
        rw [Sched.store_procs_of_ne s heq] at hstate
        exact ⟨(Finset.mem_insert.mp hother.1).resolve_left heq, hstate, hother.2.2⟩
    · exact congrArg ProcStruct.lab6Stride (Sched.store_procs_of_ne s (hne other hother) allocProc)
  | reap hcurrent hzombie =>
    exact ⟨tree, h.reap hcurrent hzombie, .quiet rfl
      (fun proc hproc ↦ ⟨Finset.mem_of_mem_erase hproc.1, hproc.2⟩) fun _ _ ↦ rfl⟩
  | @setPriority proc priority hpriority =>
    have hstate : ∀ other, ((s.store proc { s.procs proc with lab6Priority := priority }).procs
        other).state = (s.procs other).state := Sched.store_congr ProcStruct.state (by rfl)
    refine ⟨tree, h.store rfl (Or.inr rfl), .quiet rfl (fun other hother ↦ ?_)
      fun other _ ↦ Sched.store_congr ProcStruct.lab6Stride (by rfl) other⟩
    exact ⟨hother.1, hstate other ▸ hother.2.1, hother.2.2⟩

theorem Sound.of_booted (h : Booted s) : Sound s .nil := by
  rcases h.rq with ⟨rq, hrq⟩
  refine ⟨⟨trivial, ?_, by simp, by simp, ?_, by simp⟩, fun proc ↦ ?_, ?_, h.runnable, ?_, ?_⟩
  · rw [hrq]
    rfl
  · rw [hrq]
    rfl
  · simp [Contends, h.live]
    tauto
  · rw [h.live]
    exact Finset.mem_singleton_self _
  · rw [h.current, h.live]
    exact Finset.mem_singleton_self _
  · rw [h.live, Finset.card_singleton]
    decide

theorem sound_of_reachable
    (h : Reachable Booted (fun s next ↦ ∃ action, Step s action next) s) :
    ∃ tree, Sound s tree := by
  induction h with
  | first hbooted => exact ⟨.nil, Sound.of_booted hbooted⟩
  | step _ hstep ih =>
    rcases ih with ⟨tree, hsound⟩
    rcases hstep with ⟨action, hstep⟩
    rcases hsound.step hstep with ⟨after, hafter, -⟩
    exact ⟨after, hafter⟩

/-- What a sound run queue is good for. The pool is exact, `proc_num` counts it, `schedule` meets
no failing assertion and turns to a runnable process, and so does every wakeup that is allowed. -/
structure Served (s : Sched) : Prop where
  exact : ∃ tree, s.entries.Linked tree ∧ s.rq.lab6RunPool = tree.root ∧ tree.values.Nodup ∧
    s.rq.procNum = tree.values.length ∧ ∀ proc, proc ∈ tree.values ↔
      proc ∈ s.live ∧ (s.procs proc).state = .runnable ∧ proc ≠ s.current ∧ proc ≠ s.idleproc
  schedules : ∃ next, Returns (fun fuel ↦ schedule fuel s) next ∧ next.current ∈ s.live ∧
    (s.procs next.current).state = .runnable
  wakes : ∀ proc ∈ s.live, (s.procs proc).state ≠ .zombie →
    ∃ next, Returns (fun fuel ↦ wakeupProc fuel s proc) next ∧
      (next.procs proc).state = .runnable

theorem Sound.served (h : Sound s tree) : Served s where
  exact := by
    refine ⟨tree, h.pooled.linked, h.pooled.root, h.pooled.nodup, h.pooled.num, fun proc ↦ ?_⟩
    rw [h.mem_values, Contends]
    tauto
  schedules := by
    rcases h.schedule with ⟨next, after, hcall, hframe, hpicked, hafter⟩
    refine ⟨next, hcall, hframe.live ▸ hafter.current_live, ?_⟩
    have hmem := h.mem_contenders
    generalize contenders s tree = picked at hpicked hmem
    cases hpicked with
    | idle hcurrent _ => rw [hcurrent, h.idle_runnable]
    | proc hcurrent _ _ => exact hcurrent ▸ ((hmem _).mp (by simp)).2.1
  wakes proc hlive hzombie := by
    rcases h.wakeupProc hlive hzombie with ⟨next, hcall, hframe, -⟩
    exact ⟨next, hcall, by rw [(hframe.alike proc).state, awake_state_self]⟩

/-- In every reachable state the run pool holds exactly the runnable processes besides the current
one and `idleproc`, and the scheduler goes on from there. -/
theorem served_of_reachable
    (h : Reachable Booted (fun s next ↦ ∃ action, Step s action next) s) : Served s := by
  rcases sound_of_reachable h with ⟨tree, hsound⟩
  exact hsound.served

/-! ## The first process -/

/-- `idleproc` is at address 0. -/
def booted : Sched where
  procs _ := { allocProc with state := .runnable }
  entries _ := ⟨none, none, none⟩
  rq := schedInit ⟨0, 0, none⟩
  current := 0
  idleproc := 0
  live := {0}

theorem booted_booted : Booted booted := ⟨⟨_, rfl⟩, rfl, rfl, rfl⟩

/-- A process is forked at address 1. -/
def forked : Sched :=
  { booted.store 1 allocProc with
    entries := skewHeapInit booted.entries 1
    live := insert 1 booted.live }

theorem forked_step : Step booted (.create 1) forked := .create (by decide) (by decide)

/-- It has been woken, and waits to be run. -/
def waiting : Sched := (wakeupProc 0 forked 1).toOption.getD forked

theorem waiting_step : Step forked (.wakeup 1) waiting :=
  .wakeup (by decide) ((settles_wakeupProc forked 1).returns_getD forked (by decide +kernel))

/-- It runs. -/
def running : Sched := (schedule 0 waiting).toOption.getD waiting

theorem running_step : Step waiting .schedule running :=
  .schedule ((settles_schedule waiting).returns_getD waiting (by decide +kernel))

theorem served_running : running.current = 1 ∧ Served running :=
  ⟨rfl, served_of_reachable
    (.step (.step (.step (.first booted_booted) ⟨_, forked_step⟩) ⟨_, waiting_step⟩)
      ⟨_, running_step⟩)⟩

end Ucore.Schedule
