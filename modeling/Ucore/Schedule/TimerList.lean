import Ucore.Library.DeltaList
import Ucore.Schedule.SchedRun
import Ucore.Schedule.Timer

/-!
# What the timer calls do to the timer list

`Pending` says that the timer list holds given timers in the order of their deadlines, as a delta
list from `now`. Adding puts a timer at its place, deleting takes one out, and a tick takes out the
timers at the front that are due, after waking their processes.
-/

namespace Ucore.Schedule

open Library Outcome

/-- The timer list holds the timers with these deadlines. -/
structure Pending (s : Timers) (deadline : Timer → ℕ) (now : ℕ) (timers : List Timer) : Prop where
  ring : Ring s.links .timerList (timers.map .timerLink)
  deltas : Deltas s.expires deadline now timers
  bound : ∀ timer ∈ timers, deadline timer < now + 2 ^ 32
  proc : ∀ timer ∈ timers, s.proc timer ≠ none

variable {s next : Timers} {deadline : Timer → ℕ} {now base fuel wakeFuel : ℕ}
  {timers left right rest : List Timer} {timer other : Timer} {expires : Timer → ℕ}

namespace Pending

theorem nodup (h : Pending s deadline now timers) : timers.Nodup := h.ring.nodes_nodup.of_map

theorem expires_lt (h : Pending s deadline now timers) (hmem : timer ∈ timers) :
    s.expires timer < 2 ^ 32 := by
  have hle := h.deltas.delta_le hmem
  have hlt := h.bound timer hmem
  omega

/-- A listed timer is linked. -/
theorem not_listEmpty (h : Pending s deadline now timers) (hmem : timer ∈ timers) :
    ¬listEmpty s.links (.timerLink timer) :=
  h.ring.next_ne_self (List.mem_map_of_mem hmem)

end Pending

theorem timerLink_mem_iff : TimerNode.timerLink timer ∈ TimerNode.timerList :: timers.map .timerLink ↔
    timer ∈ timers := by simp

/-! ## Subtractions -/

/-- The subtraction is the one of the natural numbers where nothing wraps around. -/
def Exact (sub : ℕ → ℕ → Outcome ℕ) : Prop :=
  ∀ a b : ℕ, b ≤ a → a < 2 ^ 32 → sub a b = .ok (a - b)

theorem exact_wrapping : Exact wrapping := fun _ _ hle hlt ↦ by
  rw [wrapping, uint32Sub_of_le hle hlt]

theorem exact_checked : Exact checked := fun _ _ hle _ ↦ if_pos hle

/-! ## Adding -/

/-- The loop of `add_timer` finds the place of the timer. -/
theorem scan_addRound (h : Deltas expires deadline base timers) (hnodup : timers.Nodup)
    (hfresh : timer ∉ timers) (htimer : deadline timer = base + expires timer)
    (hsmall : expires timer < 2 ^ 32) (hbound : ∀ other ∈ timers, expires other < 2 ^ 32) :
    ∃ left right after, timers = left ++ right ∧
      (∀ sub, Exact sub →
        scan (addRound sub timer) (fun expires ↦ .ok (.timerList, expires))
          (timers.map .timerLink) expires =
          .ok ((right.map TimerNode.timerLink).headD .timerList, after)) ∧
      Deltas after deadline base (left ++ timer :: right) ∧
      ∀ other, other ∉ timer :: timers → after other = expires other := by
  induction timers generalizing base expires with
  | nil => exact ⟨[], [], expires, rfl, fun _ _ ↦ rfl, ⟨htimer, trivial⟩, fun _ _ ↦ rfl⟩
  | cons next rest ih =>
    rw [List.nodup_cons] at hnodup
    rw [List.mem_cons, not_or] at hfresh
    by_cases hlt : expires timer < expires next
    · refine ⟨[], next :: rest, _, rfl, fun sub hsub ↦ ?_,
        h.insert htimer hlt hnodup.1 hfresh.1, fun other hother ↦ ?_⟩
      · rw [List.map_cons, scan, addRound, if_pos hlt, hsub _ _ hlt.le (hbound next (by simp))]
        rfl
      · exact Function.update_of_ne (fun heq ↦ hother (by simp [heq])) _ _
    · rcases h with ⟨hnext, hrest⟩
      have hstep : ∀ sub, Exact sub → addRound sub timer expires (.timerLink next) =
          .ok (.inl (Function.update expires timer (expires timer - expires next))) := by
        intro sub hsub
        rw [addRound, if_neg hlt, hsub _ _ (by omega) hsmall, ok_bind]
      have hothers : ∀ other ∈ rest, Function.update expires timer
          (expires timer - expires next) other = expires other := fun other hother ↦
        Function.update_of_ne (ne_of_mem_of_not_mem hother hfresh.2) _ _
      have hlater : deadline timer = deadline next +
          Function.update expires timer (expires timer - expires next) timer := by
        rw [Function.update_self]
        omega
      have hsmaller : Function.update expires timer (expires timer - expires next) timer <
          2 ^ 32 := by
        rw [Function.update_self]
        omega
      rcases ih (hrest.update hfresh.2 _) hnodup.2 hfresh.2 hlater hsmaller (fun other hother ↦ by
        rw [hothers other hother]
        exact hbound other (by simp [hother])) with ⟨left, right, after, rfl, hscan, hafter, hframe⟩
      have hafterNext : after next = expires next := by
        rw [hframe next (by simp only [List.mem_cons, not_or]; exact ⟨Ne.symm hfresh.1, hnodup.1⟩)]
        exact Function.update_of_ne (Ne.symm hfresh.1) _ _
      refine ⟨next :: left, right, after, rfl, fun sub hsub ↦ ?_,
        ⟨by rw [hafterNext, hnext], hafter⟩, fun other hother ↦ ?_⟩
      · rw [List.map_cons, scan, hstep sub hsub, ok_bind]
        exact hscan sub hsub
      · rw [hframe other (fun hmem ↦ hother (by simp only [List.mem_cons] at hmem ⊢; tauto))]
        exact Function.update_of_ne (fun heq ↦ hother (by simp [heq])) _ _

/-- `add_timer` of an unlinked timer. -/
theorem addTimer_spec (h : Pending s deadline now timers) (hfresh : timer ∉ timers)
    (hpos : 0 < s.expires timer) (hsmall : s.expires timer < 2 ^ 32) (hproc : s.proc timer ≠ none)
    (hlink : listEmpty s.links (.timerLink timer))
    (htimer : deadline timer = now + s.expires timer) :
    ∃ next left right, timers = left ++ right ∧
      (∀ sub, Exact sub → Returns (fun fuel ↦ addTimerWith sub fuel s timer) next) ∧
      Pending next deadline now (left ++ timer :: right) ∧
      ∀ other, other ∉ timer :: timers →
        next.links (.timerLink other) = s.links (.timerLink other) ∧
          next.expires other = s.expires other := by
  rcases scan_addRound h.deltas h.nodup hfresh htimer hsmall (fun _ ↦ h.expires_lt) with
    ⟨left, right, after, rfl, hscan, hafter, hframe⟩
  have hring := h.ring
  rw [List.map_append] at hring
  have hfreshNode : TimerNode.timerLink timer ∉
      TimerNode.timerList :: (left.map .timerLink ++ right.map .timerLink) := by
    rw [← List.map_append]
    exact fun hmem ↦ hfresh (timerLink_mem_iff.mp hmem)
  refine ⟨{ s with expires := after, links := (listAddBefore s.links
    ((right.map TimerNode.timerLink).headD .timerList) (.timerLink timer)) }, left, right, rfl,
    fun sub hsub ↦ ?_, ⟨?_, hafter, fun other hother ↦ ?_, fun other hother ↦ ?_⟩,
    fun other hother ↦ ⟨?_, hframe other hother⟩⟩
  · have hwalk := returns_walk (fun _ ↦ True) (fun _ _ ↦ h.ring) (fun _ _ _ _ _ _ ↦ trivial)
      trivial (hscan sub hsub)
    exact Returns.bind (Returns.of_eq fun _ ↦ require_of_true ⟨hpos, hproc⟩)
      (Returns.bind (Returns.of_eq fun _ ↦ require_of_true hlink)
        (Returns.bind hwalk (Returns.of_eq fun _ ↦ rfl)))
  · rw [List.map_append, List.map_cons]
    exact ring_listAddBefore hring hfreshNode
  · rw [List.perm_middle.mem_iff, List.mem_cons] at hother
    rcases hother with rfl | hother
    · omega
    · exact h.bound other hother
  · rw [List.perm_middle.mem_iff, List.mem_cons] at hother
    rcases hother with rfl | hother
    · exact hproc
    · exact h.proc other hother
  · refine listAddBefore_of_notMem hring ?_
    rw [← List.map_append]
    simpa using hother

/-! ## Deleting -/

/-- `del_timer` leaves a timer alone that is not linked. -/
theorem delTimer_of_listEmpty (h : listEmpty s.links (.timerLink timer)) :
    delTimer s timer = s := by
  rw [delTimer, if_neg (not_not.mpr h)]

/-- `del_timer` of a listed timer unlinks it, and no deadline changes. -/
theorem delTimer_spec (h : Pending s deadline now (left ++ timer :: right)) :
    Pending (delTimer s timer) deadline now (left ++ right) ∧
      (delTimer s timer).sched = s.sched ∧ (delTimer s timer).proc = s.proc ∧
      listEmpty (delTimer s timer).links (.timerLink timer) ∧
      (∀ other, other ∉ left ++ timer :: right →
        (delTimer s timer).links (.timerLink other) = s.links (.timerLink other)) ∧
      (∀ other, other ∉ left ++ right →
        (delTimer s timer).expires other = s.expires other) ∧
      (s.expires timer = 0 → (delTimer s timer).expires = s.expires) := by
  have hring := h.ring
  rw [List.map_append, List.map_cons] at hring
  have hlinks := ring_listDelInit hring
  have hmem : ∀ other, other ∈ left ++ right → other ∈ left ++ timer :: right := fun other hother ↦
    ((Ring.mem_remove_iff h.nodup).mp hother).1
  -- the fields `expires` after the call
  have hexpires : ∃ expires, delTimer s timer =
      { s with expires := expires, links := listDelInit s.links (.timerLink timer) } ∧
      Deltas expires deadline now (left ++ right) ∧
      (∀ other, other ∉ left ++ right → expires other = s.expires other) ∧
      (s.expires timer = 0 → expires = s.expires) := by
    rw [delTimer, if_pos (h.not_listEmpty (by simp))]
    by_cases hzero : s.expires timer = 0
    · rw [if_neg (not_not.mpr hzero)]
      exact ⟨s.expires, rfl, h.deltas.remove_zero hzero, fun _ _ ↦ rfl, fun _ ↦ rfl⟩
    · have hnext : listNext s.links (.timerLink timer) =
        (right.map TimerNode.timerLink).headD .timerList := hring.next_eq
      rw [if_pos hzero, hnext]
      cases right with
      | nil =>
        refine ⟨s.expires, rfl, ?_, fun _ _ ↦ rfl, fun h ↦ absurd h hzero⟩
        simpa using h.deltas.remove_last
      | cons next rest =>
        have hremoved := h.deltas.remove h.nodup
        have hle : now + Function.update s.expires next (s.expires next + s.expires timer) next ≤
          deadline next := hremoved.delta_le (by simp)
        rw [Function.update_self] at hle
        have hlt := h.bound next (by simp)
        simp only [List.map_cons, List.headD_cons]
        refine ⟨_, rfl, ?_, fun other hother ↦ ?_, fun h ↦ absurd h hzero⟩
        case refine_2 => exact Function.update_of_ne (fun heq ↦ hother (by simp [heq])) _ _
        rw [uint32_of_lt (by omega)]
        exact hremoved
  rcases hexpires with ⟨expires, heq, hdeltas, hothers, hsame⟩
  rw [heq]
  refine ⟨⟨?_, hdeltas, fun other hother ↦ h.bound other (hmem other hother),
    fun other hother ↦ h.proc other (hmem other hother)⟩, rfl, rfl, ?_, fun other hother ↦ ?_,
    hothers, hsame⟩
  · rw [List.map_append]
    exact hlinks.1
  · exact congrArg Link.next hlinks.2
  · refine listDelInit_of_notMem hring ?_
    rw [← List.map_cons, ← List.map_append]
    exact fun hmem ↦ hother (timerLink_mem_iff.mp hmem)

/-! ## Waking -/

/-- Processes that are awake stay awake. -/
def StayAwake (s next : Sched) : Prop :=
  ∀ proc, (s.procs proc).state = .runnable → (next.procs proc).state = .runnable

/-- A wakeup that returns has changed nothing else than what `Alike` leaves open. -/
theorem alike_of_wakeupProc {s next : Sched} {proc : Proc}
    (h : wakeupProc fuel s proc = .ok next) (other : Proc) :
    Alike (next.procs other) ((awake s proc).procs other) := by
  have henqueue : ∀ s next : Sched, schedClassEnqueue fuel s proc = .ok next →
      Alike (next.procs other) (s.procs other) := by
    intro s next h
    unfold schedClassEnqueue at h
    split at h
    · rcases bind_eq_ok.mp h with ⟨⟨pool, entries⟩, -, hnext⟩
      cases hnext
      have hvalue : Alike (enqueued s (s.procs proc)) (s.procs proc) := ⟨rfl, rfl, rfl, rfl, rfl⟩
      exact hvalue.store other
    · cases h
      exact ⟨rfl, rfl, rfl, rfl, rfl⟩
  rcases bind_eq_ok.mp h with ⟨-, -, h⟩
  by_cases hrunnable : (s.procs proc).state = .runnable
  · rw [if_neg (not_not.mpr hrunnable)] at h
    cases h
    rw [awake_of_runnable hrunnable]
    exact ⟨rfl, rfl, rfl, rfl, rfl⟩
  · rw [if_pos hrunnable] at h
    rw [awake_of_ne hrunnable]
    dsimp only at h
    split at h
    · exact henqueue _ _ h
    · cases h
      exact ⟨rfl, rfl, rfl, rfl, rfl⟩

theorem stayAwake_of_wakeupProc {s next : Sched} {proc : Proc}
    (h : wakeupProc fuel s proc = .ok next) :
    (next.procs proc).state = .runnable ∧ StayAwake s next ∧
      ∀ other, other ≠ proc → (next.procs other).state = (s.procs other).state := by
  have hothers : ∀ other, other ≠ proc → (next.procs other).state = (s.procs other).state :=
    fun other hother ↦ by rw [(alike_of_wakeupProc h other).state, awake_procs_of_ne hother]
  have hself := (alike_of_wakeupProc h proc).state.trans (awake_state_self s proc)
  refine ⟨hself, fun other hother ↦ ?_, hothers⟩
  by_cases heq : other = proc
  · rw [heq, hself]
  · rw [hothers other heq, hother]

/-- The timer has a process that may be woken. -/
def Wakeable (s : Timers) (timer : Timer) : Prop :=
  ∃ proc, s.proc timer = some proc ∧ proc ∈ s.sched.live ∧
    (s.sched.procs proc).state ≠ .zombie ∧
    ((s.sched.procs proc).waitState ≠ 0 →
      (s.sched.procs proc).waitState &&& WT_INTERRUPTED ≠ 0)

/-- Waking a process leaves the others wakeable. -/
theorem Wakeable.awake {sched : Sched} {proc : Proc} (h : Wakeable s other)
    (hframe : Undisturbed (awake s.sched proc) sched) (hproc : next.proc = s.proc)
    (hsched : next.sched = sched) : Wakeable next other := by
  rcases h with ⟨waiter, hwaiter, hlive, hzombie, hwait⟩
  have hstate := (hframe.alike waiter).state
  have hwaitState := (hframe.alike waiter).waitState
  refine ⟨waiter, hproc ▸ hwaiter, ?_, ?_, ?_⟩
  · rwa [hsched, hframe.live, awake_live]
  · rw [hsched, hstate]
    by_cases heq : waiter = proc
    · simp [heq]
    · rwa [awake_procs_of_ne heq]
  · rw [hsched, hwaitState]
    by_cases hrunnable : (s.sched.procs proc).state = .runnable
    · rwa [awake_of_runnable hrunnable]
    · rw [awake_of_ne hrunnable]
      by_cases heq : waiter = proc
      · rw [heq, Sched.store_procs_self]
        exact fun h ↦ absurd rfl h
      · rwa [Sched.store_procs_of_ne s.sched heq]

theorem Wakeable.returns_wakeTimer {tree : BinaryTree Proc} (h : Wakeable s timer)
    (hsound : Sound s.sched tree) :
    ∃ proc sched after, Returns (fun fuel ↦ wakeTimer fuel s timer) { s with sched := sched } ∧
      Undisturbed (Schedule.awake s.sched proc) sched ∧ Sound sched after := by
  rcases h with ⟨proc, hproc, hlive, hzombie, hwait⟩
  rcases hsound.wakeupProc hlive hzombie with ⟨sched, hcall, hframe, hafter⟩
  have hcheck : checkInterrupted (s.sched.procs proc) = .ok () := by
    unfold checkInterrupted
    split
    case isTrue hne => exact require_of_true (hwait hne)
    case isFalse => rfl
  have hreturns : Returns (fun fuel ↦ wakeupProc fuel s.sched proc >>= fun sched ↦
      .ok { s with sched := sched }) { s with sched := sched } :=
    Returns.bind hcall (Returns.of_eq fun _ ↦ rfl)
  refine ⟨proc, sched, _, hreturns.congr fun fuel ↦ ?_, hframe, hafter⟩
  rw [wakeTimer, hproc]
  simp only [hcheck, ok_bind]

theorem wakeTimer_eq_ok (h : wakeTimer fuel s timer = .ok next) :
    ∃ proc sched, s.proc timer = some proc ∧ wakeupProc fuel s.sched proc = .ok sched ∧
      next = { s with sched := sched } := by
  unfold wakeTimer at h
  split at h
  · cases h
  · rename_i proc hproc
    rcases bind_eq_ok.mp h with ⟨-, -, h⟩
    rcases bind_eq_ok.mp h with ⟨sched, hsched, hnext⟩
    cases hnext
    exact ⟨proc, sched, hproc, hsched, rfl⟩

/-- What a tick does to the timers at the front. -/
structure Fired (s next : Timers) (deadline : Timer → ℕ) (now : ℕ) (due rest : List Timer) :
    Prop where
  pending : Pending next deadline now rest
  deadline_eq : ∀ timer ∈ due, deadline timer = now
  unlinked : ∀ timer ∈ due, listEmpty next.links (.timerLink timer)
  woken : ∀ timer ∈ due, ∃ proc, s.proc timer = some proc ∧
    (next.sched.procs proc).state = .runnable
  awake : StayAwake s.sched next.sched
  others : ∀ proc, (∀ timer ∈ due, s.proc timer ≠ some proc) →
    (next.sched.procs proc).state = (s.sched.procs proc).state
  proc : next.proc = s.proc
  expires : next.expires = s.expires
  frame : ∀ other, other ∉ due ++ rest → next.links (.timerLink other) = s.links (.timerLink other)

theorem Fired.nil (h : Pending s deadline now timers) : Fired s s deadline now [] timers :=
  ⟨h, by simp, by simp, by simp, fun _ h ↦ h, fun _ _ ↦ rfl, rfl, rfl, fun _ _ ↦ rfl⟩

theorem Fired.cons {middle : Timers} {due : List Timer}
    (hnodup : (timer :: (due ++ rest)).Nodup)
    (h : Fired s middle deadline now [timer] (due ++ rest))
    (hnext : Fired middle next deadline now due rest) :
    Fired s next deadline now (timer :: due) rest := by
  rw [List.nodup_cons] at hnodup
  refine ⟨hnext.pending, fun other hother ↦ ?_, fun other hother ↦ ?_, fun other hother ↦ ?_,
    fun proc hproc ↦ hnext.awake proc (h.awake proc hproc), fun proc hproc ↦ ?_,
    hnext.proc.trans h.proc, hnext.expires.trans h.expires, fun other hother ↦ ?_⟩
  · rcases List.mem_cons.mp hother with rfl | hother
    · exact h.deadline_eq other (by simp)
    · exact hnext.deadline_eq other hother
  · rcases List.mem_cons.mp hother with rfl | hother
    · unfold listEmpty
      rw [hnext.frame other hnodup.1]
      exact h.unlinked other (by simp)
    · exact hnext.unlinked other hother
  · rcases List.mem_cons.mp hother with rfl | hother
    · rcases h.woken other (by simp) with ⟨proc, hproc, hstate⟩
      exact ⟨proc, hproc, hnext.awake proc hstate⟩
    · rw [← h.proc]
      exact hnext.woken other hother
  · rw [hnext.others proc fun other hother ↦ h.proc ▸ hproc other (by simp [hother])]
    exact h.others proc fun other hother ↦ hproc other (by simp [List.mem_singleton.mp hother])
  · rw [List.cons_append, List.mem_cons, not_or] at hother
    rw [hnext.frame other hother.2, h.frame other (by simpa using hother)]

/-- One round of the loop. -/
theorem fired_of_wakeTimer (h : Pending s deadline now (timer :: rest)) (hdue : s.expires timer = 0)
    {middle : Timers} (hwake : wakeTimer wakeFuel s timer = .ok middle) :
    Fired s (delTimer middle timer) deadline now [timer] rest := by
  rcases wakeTimer_eq_ok hwake with ⟨proc, sched, hproc, hsched, rfl⟩
  have hmiddle : Pending { s with sched := sched } deadline now ([] ++ timer :: rest) :=
    ⟨h.ring, h.deltas, h.bound, h.proc⟩
  rcases delTimer_spec hmiddle with ⟨hpending, hsame, hprocs, hempty, hframe, -, hexpires⟩
  rcases stayAwake_of_wakeupProc hsched with ⟨hstate, hawake, hothers⟩
  refine ⟨hpending, ?_, ?_, ?_, ?_, fun other hother ↦ ?_, hprocs, hexpires hdue, hframe⟩
  · intro other hother
    rw [List.mem_singleton.mp hother]
    exact (h.deltas.of_due hdue).1
  · intro other hother
    rw [List.mem_singleton.mp hother]
    exact hempty
  · intro other hother
    rw [List.mem_singleton.mp hother, hsame]
    exact ⟨proc, hproc, hstate⟩
  · rw [hsame]
    exact hawake
  · rw [hsame]
    refine hothers other fun heq ↦ hother timer (by simp) ?_
    rw [heq, hproc]

/-- The node after the first timer. -/
theorem Pending.listNext_first (h : Pending s deadline now (timer :: rest)) :
    listNext s.links (.timerLink timer) = (rest.map TimerNode.timerLink).headD .timerList := by
  have hring : Ring s.links .timerList ([] ++ .timerLink timer :: rest.map .timerLink) := h.ring
  exact hring.next_eq

/-- The loop of `run_timer_list` takes out the timers that are due, and no others. -/
theorem fireTimers_fired (h : Pending s deadline now (timer :: rest))
    (hcall : fireTimers wakeFuel fuel s timer = .ok next) :
    ∃ due later, timer :: rest = due ++ later ∧ Fired s next deadline now due later ∧
      ∀ other ∈ later, now < deadline other := by
  induction rest generalizing s timer fuel with
  | nil =>
    rcases fuel with _ | fuel
    · cases hcall
    · rw [fireTimers] at hcall
      by_cases hdue : s.expires timer = 0
      · rw [if_pos hdue, h.listNext_first] at hcall
        rcases bind_eq_ok.mp hcall with ⟨middle, hwake, hend⟩
        cases hend
        exact ⟨[timer], [], rfl, fired_of_wakeTimer h hdue hwake, by simp⟩
      · rw [if_neg hdue] at hcall
        cases hcall
        exact ⟨[], _, rfl, Fired.nil h, fun other ↦ h.deltas.lt_of_pos (by omega)⟩
  | cons second rest ih =>
    rcases fuel with _ | fuel
    · cases hcall
    · rw [fireTimers] at hcall
      by_cases hdue : s.expires timer = 0
      · rw [if_pos hdue, h.listNext_first] at hcall
        rcases bind_eq_ok.mp hcall with ⟨middle, hwake, hrest⟩
        have hfired := fired_of_wakeTimer h hdue hwake
        rcases ih hfired.pending hrest with ⟨due, later, hsplit, hnext, hlater⟩
        have hnodup := h.nodup
        rw [hsplit] at hfired hnodup
        exact ⟨timer :: due, later, by rw [hsplit]; rfl, hfired.cons hnodup hnext, hlater⟩
      · rw [if_neg hdue] at hcall
        cases hcall
        exact ⟨[], _, rfl, Fired.nil h, fun other ↦ h.deltas.lt_of_pos (by omega)⟩

theorem fireTimers_of_ne (h : s.expires timer ≠ 0) :
    fireTimers wakeFuel (fuel + 1) s timer = .ok s := by
  rw [fireTimers, if_neg h]

theorem fireTimers_of_eq {middle : Timers} (h : Pending s deadline now (timer :: rest))
    (hdue : s.expires timer = 0) (hwake : wakeTimer wakeFuel s timer = .ok middle) :
    fireTimers wakeFuel (fuel + 1) s timer = match rest with
      | [] => .ok (delTimer middle timer)
      | second :: _ => fireTimers wakeFuel fuel (delTimer middle timer) second := by
  rw [fireTimers, if_pos hdue, h.listNext_first, hwake]
  cases rest <;> rfl

/-- The loop ends when the processes of the timers that are due may be woken. -/
theorem returns_fireTimers {tree : BinaryTree Proc} (h : Pending s deadline now (timer :: rest))
    (hsound : Sound s.sched tree)
    (hwakeable : ∀ other ∈ timer :: rest, deadline other = now → Wakeable s other) :
    ∃ next bound, ∀ wakeFuel fuel, bound ≤ wakeFuel → bound ≤ fuel →
      fireTimers wakeFuel fuel s timer = .ok next := by
  induction rest generalizing s timer tree with
  | nil =>
    by_cases hdue : s.expires timer = 0
    · have htimer := hwakeable timer (by simp) (h.deltas.of_due hdue).1
      rcases htimer.returns_wakeTimer hsound with ⟨proc, sched, after, ⟨bound, hwake⟩, -⟩
      refine ⟨delTimer { s with sched := sched } timer, bound + 1,
        fun wakeFuel fuel hwakeFuel hfuel ↦ ?_⟩
      rcases fuel with _ | fuel
      · omega
      · exact fireTimers_of_eq h hdue (hwake wakeFuel (by omega))
    · refine ⟨s, 1, fun wakeFuel fuel _ hfuel ↦ ?_⟩
      rcases fuel with _ | fuel
      · omega
      · exact fireTimers_of_ne hdue
  | cons second rest ih =>
    by_cases hdue : s.expires timer = 0
    · have htimer := hwakeable timer (by simp) (h.deltas.of_due hdue).1
      rcases htimer.returns_wakeTimer hsound with
        ⟨proc, sched, after, ⟨bound, hwake⟩, hframe, hafter⟩
      have hmiddle : Pending { s with sched := sched } deadline now ([] ++ timer :: second :: rest) :=
        ⟨h.ring, h.deltas, h.bound, h.proc⟩
      rcases delTimer_spec hmiddle with ⟨hpending, hsched, hprocs, -⟩
      have hothers : ∀ other ∈ second :: rest, deadline other = now →
          Wakeable (delTimer { s with sched := sched } timer) other := fun other hother heq ↦
        (hwakeable other (by simp [hother]) heq).awake hframe hprocs hsched
      rcases ih hpending (by rw [hsched]; exact hafter) hothers with ⟨next, restBound, hrest⟩
      refine ⟨next, max bound restBound + 1, fun wakeFuel fuel hwakeFuel hfuel ↦ ?_⟩
      rcases fuel with _ | fuel
      · omega
      · rw [fireTimers_of_eq h hdue (hwake wakeFuel (by omega))]
        exact hrest wakeFuel fuel (by omega) (by omega)
    · refine ⟨s, 1, fun wakeFuel fuel _ hfuel ↦ ?_⟩
      rcases fuel with _ | fuel
      · omega
      · exact fireTimers_of_ne hdue

/-! ## A tick -/

/-- A tick of the clock leaves the states of all processes alone. -/
theorem schedClassProcTick_state (s : Sched) (proc other : Proc) :
    ((schedClassProcTick s proc).procs other).state = (s.procs other).state := by
  rcases schedClassProcTick_eq s proc with ⟨value, heq, halike, -⟩
  rw [heq]
  exact (halike.store other).state

/-- The state after the first difference has counted down. -/
def countDown (s : Timers) (timer : Timer) : Timers :=
  { s with expires := Function.update s.expires timer (s.expires timer - 1) }

theorem Pending.countDown (h : Pending s deadline now (timer :: rest))
    (hpos : 0 < s.expires timer) :
    Pending (countDown s timer) deadline (now + 1) (timer :: rest) := by
  refine ⟨h.ring, h.deltas.advance hpos (List.nodup_cons.mp h.nodup).1, fun other hother ↦ ?_,
    h.proc⟩
  have := h.bound other hother
  omega

/-- The end of a tick leaves the timers alone. -/
theorem Fired.tick {due : List Timer} (h : Fired s next deadline now due rest) (proc : Proc) :
    Fired s { next with sched := schedClassProcTick next.sched proc } deadline now due rest where
  pending := ⟨h.pending.ring, h.pending.deltas, h.pending.bound, h.pending.proc⟩
  expires := h.expires
  others other hother := (schedClassProcTick_state _ _ _).trans (h.others other hother)
  deadline_eq := h.deadline_eq
  unlinked := h.unlinked
  woken timer htimer := by
    rcases h.woken timer htimer with ⟨waiter, hwaiter, hstate⟩
    exact ⟨waiter, hwaiter, (schedClassProcTick_state _ _ _).trans hstate⟩
  awake waiter hwaiter := (schedClassProcTick_state _ _ _).trans (h.awake waiter hwaiter)
  proc := h.proc
  frame := h.frame

/-- The head of the list is never due already. -/
theorem Pending.expires_pos (h : Pending s deadline now (timer :: rest))
    (hlater : now < deadline timer) : 0 < s.expires timer := by
  have := h.deltas.1
  omega

/-- The node that a pass over the timers starts at. -/
theorem Pending.listNext_head (h : Pending s deadline now timers) :
    listNext s.links .timerList = (timers.map TimerNode.timerLink).headD .timerList :=
  h.ring.next_head

/-- The pass over the timers, from the first one on. -/
theorem Pending.runTimersWith_cons {sub : ℕ → ℕ → Outcome ℕ}
    (h : Pending s deadline now (timer :: rest)) (hpos : 0 < s.expires timer) (hsub : Exact sub) :
    runTimersWith sub fuel s = fireTimers fuel fuel (Schedule.countDown s timer) timer := by
  rw [runTimersWith, h.listNext_head]
  simp only [List.map_cons, List.headD_cons]
  rw [require_of_true (by omega), ok_bind, hsub _ _ hpos (h.expires_lt (by simp)), ok_bind]
  rfl

/-- `run_timer_list` subtracts without wrapping around. -/
theorem Pending.runTimerListWith_eq {sub : ℕ → ℕ → Outcome ℕ}
    (h : Pending s deadline now timers) (hlater : ∀ timer ∈ timers, now < deadline timer)
    (hsub : Exact sub) : runTimerListWith sub fuel s = runTimerList fuel s := by
  unfold runTimerList runTimerListWith
  cases timers with
  | nil => rw [runTimersWith, runTimersWith, h.listNext_head]; rfl
  | cons timer rest =>
    have hpos := h.expires_pos (hlater timer (by simp))
    rw [h.runTimersWith_cons hpos hsub, h.runTimersWith_cons hpos exact_wrapping]

/-- `run_timer_list` takes out the timers whose time has come, and no others. -/
theorem runTimerList_fired (h : Pending s deadline now timers)
    (hlater : ∀ timer ∈ timers, now < deadline timer) (hcall : runTimerList fuel s = .ok next) :
    ∃ expires due later, timers = due ++ later ∧
      Fired { s with expires := expires } next deadline (now + 1) due later ∧
      (∀ timer, expires timer ≤ s.expires timer) ∧ ∀ timer ∈ later, now + 1 < deadline timer := by
  rcases bind_eq_ok.mp hcall with ⟨middle, hpass, hend⟩
  cases hend
  cases timers with
  | nil =>
    rw [runTimersWith, h.listNext_head] at hpass
    cases hpass
    have hempty : Pending s deadline (now + 1) [] := ⟨h.ring, trivial, by simp, by simp⟩
    exact ⟨s.expires, [], [], rfl, (Fired.nil hempty).tick _, fun _ ↦ le_rfl, by simp⟩
  | cons timer rest =>
    have hpos := h.expires_pos (hlater timer (by simp))
    rw [h.runTimersWith_cons hpos exact_wrapping] at hpass
    rcases fireTimers_fired (h.countDown hpos) hpass with ⟨due, later, hsplit, hfired, hafter⟩
    refine ⟨_, due, later, hsplit, Fired.tick hfired _, fun other ↦ ?_, hafter⟩
    by_cases heq : other = timer
    · rw [heq, Function.update_self]
      omega
    · rw [Function.update_of_ne heq]

/-- `run_timer_list` returns when the processes of the timers that are due may be woken. -/
theorem returns_runTimerList {tree : BinaryTree Proc} (h : Pending s deadline now timers)
    (hlater : ∀ timer ∈ timers, now < deadline timer) (hsound : Sound s.sched tree)
    (hwakeable : ∀ timer ∈ timers, deadline timer = now + 1 → Wakeable s timer) :
    ∃ next, Returns (fun fuel ↦ runTimerList fuel s) next := by
  have hpass : ∃ middle, Returns (fun fuel ↦ runTimersWith wrapping fuel s) middle := by
    cases timers with
    | nil =>
      refine ⟨s, Returns.of_eq fun fuel ↦ ?_⟩
      rw [runTimersWith, h.listNext_head]
      rfl
    | cons timer rest =>
      have hpos := h.expires_pos (hlater timer (by simp))
      rcases returns_fireTimers (h.countDown hpos) hsound hwakeable with ⟨middle, bound, hfire⟩
      refine ⟨middle, bound, fun fuel hfuel ↦ ?_⟩
      exact (h.runTimersWith_cons hpos exact_wrapping).trans (hfire fuel fuel hfuel hfuel)
  rcases hpass with ⟨middle, hmiddle⟩
  exact ⟨_, Returns.bind hmiddle (Returns.of_eq fun _ ↦ rfl)⟩

end Ucore.Schedule
