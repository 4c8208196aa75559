import Ucore.Schedule.Sched

/-!
# What the scheduler does to the run pool

`Pooled` says that the run queue holds the processes of a given tree. An enqueue melds one more
process into it, a dequeue of the root melds its two subtrees, and `schedule` is an enqueue of the
current process, if it is runnable, followed by a dequeue of the root.
-/

namespace Ucore.Schedule

open Library Outcome SkewHeap

/-- The run queue holds the processes of the tree, each once. -/
structure Pooled (s : Sched) (tree : BinaryTree Proc) : Prop where
  linked : s.entries.Linked tree
  root : s.rq.lab6RunPool = tree.root
  parent : ∀ proc ∈ tree.root, (s.entries proc).parent = none
  nodup : tree.values.Nodup
  num : s.rq.procNum = tree.values.length
  rq : ∀ proc ∈ tree.values, (s.procs proc).rq = true

variable {s other : Sched} {tree : BinaryTree Proc} {proc : Proc}

theorem Pooled.congr (h : Pooled s tree) (hentries : other.entries = s.entries)
    (hrq : other.rq = s.rq)
    (hprocs : ∀ proc ∈ tree.values, (s.procs proc).rq = true → (other.procs proc).rq = true) :
    Pooled other tree where
  linked := hentries ▸ h.linked
  root := hrq ▸ h.root
  parent := hentries ▸ h.parent
  nodup := h.nodup
  num := hrq ▸ h.num
  rq proc hproc := hprocs proc hproc (h.rq proc hproc)

/-- A store that leaves the run-queue pointer of the process alone. -/
theorem Pooled.store (h : Pooled s tree) {value : ProcStruct}
    (hvalue : value.rq = (s.procs proc).rq) : Pooled (s.store proc value) tree :=
  h.congr rfl rfl fun other _ hrq ↦ by
    rwa [Sched.store_congr ProcStruct.rq hvalue]

/-! ## Frames -/

/-- Queueing a process leaves these fields alone. -/
structure Alike (value other : ProcStruct) : Prop where
  state : value.state = other.state
  pid : value.pid = other.pid
  flags : value.flags = other.flags
  waitState : value.waitState = other.waitState
  lab6Priority : value.lab6Priority = other.lab6Priority

/-- What `schedule` leaves alone. -/
structure Frame (s next : Sched) : Prop where
  idleproc : next.idleproc = s.idleproc
  live : next.live = s.live
  alike : ∀ proc, Alike (next.procs proc) (s.procs proc)

/-- What a change of the run queue leaves alone. -/
structure Undisturbed (s next : Sched) : Prop extends Frame s next where
  current : next.current = s.current
  stride : ∀ proc, (next.procs proc).lab6Stride = (s.procs proc).lab6Stride

theorem Alike.trans {first second third : ProcStruct} (h : Alike first second)
    (hnext : Alike second third) : Alike first third :=
  ⟨h.state.trans hnext.state, h.pid.trans hnext.pid, h.flags.trans hnext.flags,
    h.waitState.trans hnext.waitState, h.lab6Priority.trans hnext.lab6Priority⟩

theorem Frame.trans {middle next : Sched} (h : Frame s middle) (hnext : Frame middle next) :
    Frame s next :=
  ⟨hnext.idleproc.trans h.idleproc, hnext.live.trans h.live,
    fun proc ↦ (hnext.alike proc).trans (h.alike proc)⟩

theorem Undisturbed.trans {middle next : Sched} (h : Undisturbed s middle)
    (hnext : Undisturbed middle next) : Undisturbed s next :=
  ⟨h.toFrame.trans hnext.toFrame, hnext.current.trans h.current,
    fun proc ↦ (hnext.stride proc).trans (h.stride proc)⟩

theorem Alike.store {value : ProcStruct} (h : Alike value (s.procs proc)) (other : Proc) :
    Alike ((s.store proc value).procs other) (s.procs other) := by
  by_cases heq : other = proc
  · rw [heq, Sched.store_procs_self]
    exact h
  · rw [Sched.store_procs_of_ne s heq]
    exact ⟨rfl, rfl, rfl, rfl, rfl⟩

theorem Undisturbed.store {value : ProcStruct} (h : Alike value (s.procs proc))
    (hstride : value.lab6Stride = (s.procs proc).lab6Stride) :
    Undisturbed s (s.store proc value) :=
  ⟨⟨rfl, rfl, h.store⟩, rfl, Sched.store_congr ProcStruct.lab6Stride hstride⟩

theorem Undisturbed.refl (s : Sched) : Undisturbed s s :=
  ⟨⟨rfl, rfl, fun _ ↦ ⟨rfl, rfl, rfl, rfl, rfl⟩⟩, rfl, fun _ ↦ rfl⟩

/-! ## Enqueue and dequeue -/

/-- The process as `stride_enqueue` leaves it. -/
def enqueued (s : Sched) (value : ProcStruct) : ProcStruct :=
  { value with
    timeSlice := if value.timeSlice = 0 ∨ value.timeSlice > s.rq.maxTimeSlice then
      s.rq.maxTimeSlice else value.timeSlice
    rq := true }

/-- One more process in the pool. -/
def join (comp : Proc → Proc → ℤ) (tree : BinaryTree Proc) (proc : Proc) : BinaryTree Proc :=
  tree.meld (Before comp) (.node proc .nil .nil)

theorem values_join_perm (comp : Proc → Proc → ℤ) (tree : BinaryTree Proc) (proc : Proc) :
    (join comp tree proc).values.Perm (proc :: tree.values) :=
  (BinaryTree.values_meld_perm ..).trans (List.perm_append_singleton proc tree.values)

@[simp]
theorem mem_values_join {comp : Proc → Proc → ℤ} {value : Proc} :
    value ∈ (join comp tree proc).values ↔ value = proc ∨ value ∈ tree.values := by
  rw [(values_join_perm comp tree proc).mem_iff, List.mem_cons]

/-- `stride_enqueue` of a process that is not queued. -/
theorem strideEnqueue_spec (h : Pooled s tree) (hfresh : proc ∉ tree.values)
    (hroom : tree.values.length + 1 < 2 ^ 32) :
    ∃ next, Returns (fun fuel ↦ strideEnqueue fuel s proc) next ∧
      Pooled next (join (procStrideCompF s.procs) tree proc) ∧ Undisturbed s next := by
  rcases skewHeapInsert_spec (procStrideCompF s.procs) h.linked h.parent
    (List.nodup_cons.mpr ⟨hfresh, h.nodup⟩) with ⟨after, hlinked, hparent, hcall⟩
  have hreturns : Returns (fun fuel ↦ strideEnqueue fuel s proc)
      { s.store proc (enqueued s (s.procs proc)) with
        entries := after
        rq := {
          s.rq with
          procNum := uint32 (s.rq.procNum + 1)
          lab6RunPool := (join (procStrideCompF s.procs) tree proc).root } } := by
    have hcall := h.root ▸ hcall
    exact Returns.bind hcall (Returns.of_eq fun _ ↦ rfl)
  refine ⟨_, hreturns, ⟨hlinked, rfl, hparent, ?_, ?_, fun other hother ↦ ?_⟩, ?_⟩
  · exact (values_join_perm ..).nodup_iff.mpr (List.nodup_cons.mpr ⟨hfresh, h.nodup⟩)
  · rw [(values_join_perm ..).length_eq, List.length_cons, ← h.num]
    exact uint32_of_lt (h.num ▸ hroom)
  · rcases mem_values_join.mp hother with rfl | hother
    · simp [Sched.store, enqueued]
    · have hne : other ≠ proc := fun heq ↦ hfresh (heq ▸ hother)
      simp [Sched.store, Function.update_of_ne hne, h.rq other hother]
  · have hstored : Undisturbed s (s.store proc (enqueued s (s.procs proc))) :=
      Undisturbed.store ⟨rfl, rfl, rfl, rfl, rfl⟩ rfl
    exact ⟨⟨rfl, rfl, hstored.alike⟩, rfl, hstored.stride⟩

/-- `stride_dequeue` of the root. -/
theorem strideDequeue_spec {left right : BinaryTree Proc} (h : Pooled s (.node proc left right))
    (hroom : (left.values ++ right.values).length + 1 < 2 ^ 32) :
    ∃ next, Returns (fun fuel ↦ strideDequeue fuel s proc) next ∧
      Pooled next (left.meld (Before (procStrideCompF s.procs)) right) ∧ Undisturbed s next := by
  have hnodup := (List.nodup_cons.mp h.nodup).2
  have hnum : s.rq.procNum = (left.values ++ right.values).length + 1 := h.num
  rcases skewHeapRemove_root_spec (procStrideCompF s.procs) (a := s.rq.lab6RunPool) h.linked
    (h.parent proc rfl) hnodup with ⟨after, hlinked, hparent, hcall⟩
  have hassert : (s.procs proc).rq = true ∧ 0 < s.rq.procNum :=
    ⟨h.rq proc (by simp), by omega⟩
  have hreturns : Returns (fun fuel ↦ strideDequeue fuel s proc)
      { s with
        entries := after
        rq := {
          s.rq with
          procNum := uint32Sub s.rq.procNum 1
          lab6RunPool := (left.meld (Before (procStrideCompF s.procs)) right).root } } :=
    Returns.bind (Returns.of_eq fun _ ↦ require_of_true hassert)
      (Returns.bind hcall (Returns.of_eq fun _ ↦ rfl))
  have hsame := Undisturbed.refl s
  refine ⟨_, hreturns, ⟨hlinked, rfl, hparent, ?_, ?_, fun other hother ↦ ?_⟩,
    ⟨rfl, rfl, hsame.alike⟩, rfl, hsame.stride⟩
  · exact (BinaryTree.nodup_values_meld _).mpr hnodup
  · rw [(BinaryTree.values_meld_perm ..).length_eq]
    change uint32Sub s.rq.procNum 1 = _
    rw [uint32Sub_of_le (by omega) (by omega), hnum, Nat.add_sub_cancel]
  · rw [BinaryTree.mem_values_meld] at hother
    exact h.rq other (by simp [hother])

/-! ## Waking and scheduling -/

/-- The process with the state that `wakeup_proc` gives it. -/
def awake (s : Sched) (proc : Proc) : Sched :=
  if (s.procs proc).state = .runnable then s
  else s.store proc { s.procs proc with state := .runnable, waitState := 0 }

theorem awake_of_runnable (h : (s.procs proc).state = .runnable) : awake s proc = s := if_pos h

theorem awake_of_ne (h : (s.procs proc).state ≠ .runnable) :
    awake s proc = s.store proc { s.procs proc with state := .runnable, waitState := 0 } := if_neg h

@[simp]
theorem awake_idleproc (s : Sched) (proc : Proc) : (awake s proc).idleproc = s.idleproc := by
  unfold awake
  split <;> rfl

@[simp]
theorem awake_live (s : Sched) (proc : Proc) : (awake s proc).live = s.live := by
  unfold awake
  split <;> rfl

@[simp]
theorem awake_current (s : Sched) (proc : Proc) : (awake s proc).current = s.current := by
  unfold awake
  split <;> rfl

@[simp]
theorem awake_state_self (s : Sched) (proc : Proc) :
    ((awake s proc).procs proc).state = .runnable := by
  unfold awake
  split
  · assumption
  · rw [Sched.store_procs_self]

theorem awake_procs_of_ne {other : Proc} (h : other ≠ proc) :
    (awake s proc).procs other = s.procs other := by
  unfold awake
  split
  · rfl
  · rw [Sched.store_procs_of_ne s h]

theorem awake_stride (s : Sched) (proc other : Proc) :
    ((awake s proc).procs other).lab6Stride = (s.procs other).lab6Stride := by
  unfold awake
  split
  · rfl
  · exact Sched.store_congr ProcStruct.lab6Stride (by rfl) other

theorem Pooled.awake (h : Pooled s tree) (proc : Proc) : Pooled (awake s proc) tree := by
  unfold Schedule.awake
  split
  · exact h
  · exact h.store rfl

/-- The pool after a wakeup: a process that becomes runnable is queued, unless it runs anyway. -/
def withWoken (s : Sched) (tree : BinaryTree Proc) (proc : Proc) : BinaryTree Proc :=
  if (s.procs proc).state ≠ .runnable ∧ proc ≠ s.current ∧ proc ≠ s.idleproc then
    join (procStrideCompF s.procs) tree proc
  else tree

theorem schedClassEnqueue_spec (h : Pooled s tree) (hfresh : proc ∉ tree.values)
    (hroom : tree.values.length + 1 < 2 ^ 32) :
    ∃ next, Returns (fun fuel ↦ schedClassEnqueue fuel s proc) next ∧ Undisturbed s next ∧
      Pooled next
        (if proc ≠ s.idleproc then join (procStrideCompF s.procs) tree proc else tree) := by
  by_cases hidle : proc = s.idleproc
  · refine ⟨s, Returns.of_eq fun fuel ↦ ?_, Undisturbed.refl s, ?_⟩
    · rw [schedClassEnqueue, if_neg (not_not.mpr hidle)]
    · rwa [if_neg (not_not.mpr hidle)]
  · rcases strideEnqueue_spec h hfresh hroom with ⟨next, hcall, hpool, hframe⟩
    refine ⟨next, hcall.congr fun fuel ↦ ?_, hframe, ?_⟩
    · rw [schedClassEnqueue, if_pos hidle]
    · rwa [if_pos hidle]

theorem wakeupProc_spec (h : Pooled s tree) (hzombie : (s.procs proc).state ≠ .zombie)
    (hfresh : (s.procs proc).state ≠ .runnable → proc ∉ tree.values)
    (hroom : tree.values.length + 1 < 2 ^ 32) :
    ∃ next, Returns (fun fuel ↦ wakeupProc fuel s proc) next ∧ Undisturbed (awake s proc) next ∧
      Pooled next (withWoken s tree proc) := by
  by_cases hrunnable : (s.procs proc).state = .runnable
  · refine ⟨s, Returns.of_eq fun fuel ↦ ?_, ?_, ?_⟩
    · simp [wakeupProc, hrunnable]
    · rw [awake_of_runnable hrunnable]
      exact Undisturbed.refl s
    · rwa [withWoken, if_neg fun h ↦ h.1 hrunnable]
  · have hcall : ∀ fuel, wakeupProc fuel s proc =
        if proc ≠ s.current then schedClassEnqueue fuel (awake s proc) proc
        else .ok (awake s proc) := fun fuel ↦ by
      rw [wakeupProc, require_of_true hzombie, ok_bind, if_pos hrunnable, awake_of_ne hrunnable]
      rfl
    by_cases hcurrent : proc = s.current
    · refine ⟨awake s proc, Returns.of_eq fun fuel ↦ ?_, Undisturbed.refl _, ?_⟩
      · rw [hcall, if_neg (not_not.mpr hcurrent)]
      · rw [withWoken, if_neg fun h ↦ h.2.1 hcurrent]
        exact h.awake proc
    · rcases schedClassEnqueue_spec (h.awake proc) (hfresh hrunnable) hroom with
        ⟨next, henqueue, hframe, hpool⟩
      refine ⟨next, henqueue.congr fun fuel ↦ ?_, hframe, ?_⟩
      · rw [hcall, if_pos hcurrent]
      · rw [withWoken]
        simpa only [hrunnable, hcurrent, awake_idleproc, ne_eq, not_false_eq_true, true_and,
          procStrideCompF_congr (awake_stride s proc)] using hpool

/-- The processes that `schedule` picks from. -/
def contenders (s : Sched) (tree : BinaryTree Proc) : BinaryTree Proc :=
  if (s.procs s.current).state = .runnable ∧ s.current ≠ s.idleproc then
    join (procStrideCompF s.procs) tree s.current
  else tree

/-- What `schedule` makes of the contenders, and what stays in the pool: the root runs next, a
pass further on, or `idleproc` when there is none. -/
inductive Picked (s next : Sched) : BinaryTree Proc → BinaryTree Proc → Prop
  | idle (hcurrent : next.current = s.idleproc)
      (hstride : ∀ other, (next.procs other).lab6Stride = (s.procs other).lab6Stride) :
      Picked s next .nil .nil
  | proc {proc : Proc} {left right : BinaryTree Proc} (hcurrent : next.current = proc)
      (hpicked : (next.procs proc).lab6Stride =
        uint32 ((s.procs proc).lab6Stride + pass (s.procs proc)))
      (hstride : ∀ other, other ≠ proc →
        (next.procs other).lab6Stride = (s.procs other).lab6Stride) :
      Picked s next (.node proc left right)
        (left.meld (Before (procStrideCompF next.procs)) right)

theorem Picked.congr {next : Sched} {after : BinaryTree Proc} (h : Undisturbed s other)
    (hpicked : Picked other next tree after) : Picked s next tree after := by
  cases hpicked with
  | idle hcurrent hstride =>
    exact .idle (hcurrent.trans h.idleproc) fun proc ↦ (hstride proc).trans (h.stride proc)
  | proc hcurrent hpicked hstride =>
    refine .proc hcurrent ?_ fun proc hproc ↦ (hstride proc hproc).trans (h.stride proc)
    rw [hpicked, h.stride, pass_congr (h.alike _).lab6Priority]

/-- The end of `schedule`: the picked process is counted and runs. -/
def switchTo (s : Sched) (next : Proc) : Sched :=
  { s.store next { s.procs next with runs := int32 ((s.procs next).runs + 1) } with
    current := next }

theorem switchTo_frame (s : Sched) (next : Proc) : Frame s (switchTo s next) :=
  ⟨rfl, rfl, Alike.store ⟨rfl, rfl, rfl, rfl, rfl⟩⟩

theorem switchTo_stride (s : Sched) (next other : Proc) :
    ((switchTo s next).procs other).lab6Stride = (s.procs other).lab6Stride :=
  Sched.store_congr ProcStruct.lab6Stride (by rfl) other

theorem Pooled.switchTo (h : Pooled s tree) (next : Proc) : Pooled (switchTo s next) tree := by
  refine h.congr rfl rfl fun other _ hrq ↦ ?_
  exact (Sched.store_congr ProcStruct.rq (by rfl) other).trans hrq

theorem scheduleNext_spec (h : Pooled s tree) (hroom : tree.values.length < 2 ^ 32) :
    ∃ next after, Returns (fun fuel ↦ scheduleNext fuel s) next ∧ Frame s next ∧
      Picked s next tree after ∧ Pooled next after := by
  cases tree with
  | nil =>
    have hroot : s.rq.lab6RunPool = none := h.root
    refine ⟨switchTo s s.idleproc, .nil, Returns.of_eq fun fuel ↦ ?_, switchTo_frame s _,
      .idle rfl (switchTo_stride s _), h.switchTo _⟩
    simp only [scheduleNext, stridePickNext, hroot, ok_bind, Option.getD_none, procRun_eq]
    rfl
  | node proc left right =>
    have hroot : s.rq.lab6RunPool = some proc := h.root
    let picked := s.store proc
      { s.procs proc with lab6Stride := uint32 ((s.procs proc).lab6Stride + pass (s.procs proc)) }
    have hpicked : Frame s picked := ⟨rfl, rfl, Alike.store ⟨rfl, rfl, rfl, rfl, rfl⟩⟩
    rcases strideDequeue_spec (s := picked) (h.store rfl) (by simpa using hroom) with
      ⟨after, hcall, hpool, hframe⟩
    have hstride : ∀ other, ((switchTo after proc).procs other).lab6Stride =
        (picked.procs other).lab6Stride := fun other ↦
      (switchTo_stride after proc other).trans (hframe.stride other)
    refine ⟨switchTo after proc, _, ?_,
      hpicked.trans (hframe.toFrame.trans (switchTo_frame after proc)),
      .proc rfl ?_ fun other hother ↦ ?_, ?_⟩
    · have hreturns : Returns (fun fuel ↦ strideDequeue fuel picked proc >>= fun after ↦
          .ok (switchTo after proc)) (switchTo after proc) :=
        Returns.bind hcall (Returns.of_eq fun _ ↦ rfl)
      refine hreturns.congr fun fuel ↦ ?_
      simp only [scheduleNext, stridePickNext, hroot, Option.getD_some, procRun_eq]
      rfl
    · rw [hstride, Sched.store_procs_self]
    · rw [hstride, Sched.store_procs_of_ne s hother]
    · rw [procStrideCompF_congr hstride]
      exact hpool.switchTo proc

/-- `schedule`, when the current process is not queued. -/
theorem schedule_spec (h : Pooled s tree) (hcurrent : s.current ∉ tree.values)
    (hroom : tree.values.length + 1 < 2 ^ 32) :
    ∃ next after, Returns (fun fuel ↦ schedule fuel s) next ∧ Frame s next ∧
      Picked s next (contenders s tree) after ∧ Pooled next after := by
  let cleared := s.store s.current { s.procs s.current with needResched := false }
  have hcleared : Undisturbed s cleared := Undisturbed.store ⟨rfl, rfl, rfl, rfl, rfl⟩ rfl
  have hpooled : Pooled cleared tree := h.store rfl
  have hstate : (cleared.procs cleared.current).state = (s.procs s.current).state :=
    (hcleared.alike _).state
  have hentered : ∃ next, Returns (fun fuel ↦
      if (cleared.procs cleared.current).state = .runnable then
        schedClassEnqueue fuel cleared cleared.current else .ok cleared) next ∧
      Undisturbed s next ∧ Pooled next (contenders s tree) := by
    rw [hstate]
    by_cases hrunnable : (s.procs s.current).state = .runnable
    · rcases schedClassEnqueue_spec hpooled hcurrent hroom with ⟨next, hcall, hframe, hpool⟩
      refine ⟨next, hcall.congr fun fuel ↦ if_pos hrunnable, hcleared.trans hframe, ?_⟩
      have hpool : Pooled next (if s.current ≠ s.idleproc then
        join (procStrideCompF cleared.procs) tree s.current else tree) := hpool
      rw [procStrideCompF_congr hcleared.stride] at hpool
      simpa only [contenders, hrunnable, true_and] using hpool
    · refine ⟨cleared, Returns.of_eq fun fuel ↦ if_neg hrunnable, hcleared, ?_⟩
      rwa [contenders, if_neg fun h ↦ hrunnable h.1]
  rcases hentered with ⟨entered, hcall, hframe, hpool⟩
  have hlength : (contenders s tree).values.length < 2 ^ 32 := by
    unfold contenders
    split
    · rwa [(values_join_perm ..).length_eq]
    · omega
  rcases scheduleNext_spec hpool hlength with
    ⟨next, after, hnext, hnextFrame, hpicked, hafter⟩
  have hreturns := Returns.bind hcall hnext
  refine ⟨next, after, hreturns.congr fun fuel ↦ ?_, hframe.toFrame.trans hnextFrame,
    hpicked.congr hframe, hafter⟩
  rw [schedule]
  by_cases hrunnable : (cleared.procs cleared.current).state = .runnable
  · rw [if_pos hrunnable, if_pos hrunnable]
  · rw [if_neg hrunnable, if_neg hrunnable, ok_bind]

/-! ## Budgets -/

theorem settles_strideEnqueue (s : Sched) (proc : Proc) :
    Settles fun fuel ↦ strideEnqueue fuel s proc :=
  (settles_skewHeapInsert _ _ _ _).bind fun _ ↦ Settles.of_constant _

theorem settles_strideDequeue (s : Sched) (proc : Proc) :
    Settles fun fuel ↦ strideDequeue fuel s proc :=
  (Settles.of_constant _).bind fun _ ↦
    (settles_skewHeapRemove _ _ _ _).bind fun _ ↦ Settles.of_constant _

theorem settles_schedClassEnqueue (s : Sched) (proc : Proc) :
    Settles fun fuel ↦ schedClassEnqueue fuel s proc := by
  unfold schedClassEnqueue
  split
  · exact settles_strideEnqueue s proc
  · exact Settles.of_constant _

theorem settles_wakeupProc (s : Sched) (proc : Proc) :
    Settles fun fuel ↦ wakeupProc fuel s proc := by
  refine (Settles.of_constant _).bind fun _ ↦ ?_
  split
  · dsimp only
    split
    · exact settles_schedClassEnqueue _ proc
    · exact Settles.of_constant _
  · exact Settles.of_constant _

theorem settles_scheduleNext (s : Sched) : Settles fun fuel ↦ scheduleNext fuel s := by
  unfold scheduleNext
  cases hpick : stridePickNext s with
  | mk next picked =>
    cases next with
    | none => exact Settles.of_constant _
    | some next => exact (settles_strideDequeue picked next).bind fun _ ↦ Settles.of_constant _

theorem settles_schedule (s : Sched) : Settles fun fuel ↦ schedule fuel s := by
  unfold schedule
  dsimp only
  split
  · exact (settles_schedClassEnqueue _ _).bind fun _ ↦ settles_scheduleNext _
  · exact settles_scheduleNext _

end Ucore.Schedule
