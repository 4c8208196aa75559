import Ucore.Schedule.TimerList

/-!
# Runs of the timers

`Alarms` says what the timers are for: a clock counts the ticks, and every pending timer has a
deadline. `Faithful` says how the timer list keeps to it, in every state that calls of `timer_init`,
`add_timer`, `del_timer` and `run_timer_list` reach while the rest of the kernel does as it likes.
-/

namespace Ucore.Schedule

open Library Outcome

/-! ## The alarms -/

/-- What has become of a timer. An idle timer has not been added yet, or has been deleted, or has
fired. -/
inductive Fate where
  | fresh
  | idle
  | pending (deadline : ℕ)
  deriving DecidableEq, Repr

/-- The number of ticks so far, and the timers. -/
structure Alarms where
  now : ℕ
  fate : Timer → Fate

namespace Alarms

def set (a : Alarms) (timer : Timer) (fate : Fate) : Alarms :=
  { a with fate := Function.update a.fate timer fate }

/-- The clock goes on, and the timers that are due fire. -/
def tick (a : Alarms) : Alarms where
  now := a.now + 1
  fate timer := if a.fate timer = .pending (a.now + 1) then .idle else a.fate timer

/-- The deadline of a pending timer. -/
def deadline (a : Alarms) (timer : Timer) : ℕ :=
  match a.fate timer with
  | .pending deadline => deadline
  | _ => 0

variable {a : Alarms} {timer other : Timer} {fate : Fate}

@[simp]
theorem set_now (a : Alarms) (timer : Timer) (fate : Fate) : (a.set timer fate).now = a.now := rfl

@[simp]
theorem set_self (a : Alarms) (timer : Timer) (fate : Fate) : (a.set timer fate).fate timer = fate :=
  Function.update_self ..

theorem set_of_ne (h : other ≠ timer) : (a.set timer fate).fate other = a.fate other :=
  Function.update_of_ne h _ _

theorem deadline_eq {deadline : ℕ} (h : a.fate timer = .pending deadline) :
    a.deadline timer = deadline := by
  rw [Alarms.deadline, h]

theorem deadline_congr {b : Alarms} (h : a.fate timer = b.fate timer) :
    a.deadline timer = b.deadline timer := by
  rw [Alarms.deadline, h, Alarms.deadline]

end Alarms

/-! ## Steps -/

/-- The timers of the kernel next to what is expected of them. -/
structure Clock where
  timers : Timers
  alarms : Alarms

inductive Call where
  | timerInit (timer : Timer) (proc : Proc) (expires : ℕ)
  | addTimer (timer : Timer)
  | delTimer (timer : Timer)
  | runTimerList
  /-- The rest of the kernel. -/
  | others
  deriving DecidableEq

/-- The timer that a call is given. -/
def Call.argument : Call → Option Timer
  | timerInit timer _ _ | addTimer timer | delTimer timer => some timer
  | runTimerList | others => none

/-- A timer is initialised before it is used, and not while it is pending. A call that stops at an
assertion is no step. -/
inductive Clock.Step (w : Clock) : Call → Clock → Prop
  | timerInit {timer : Timer} {proc : Proc} {expires : ℕ}
      (hidle : ∀ deadline, w.alarms.fate timer ≠ .pending deadline) :
      Step w (.timerInit timer proc expires)
        ⟨timerInit w.timers timer proc expires, w.alarms.set timer .idle⟩
  | addTimer {timer : Timer} {next : Timers} (hinit : w.alarms.fate timer ≠ .fresh)
      (hcall : Returns (fun fuel ↦ addTimer fuel w.timers timer) next) :
      Step w (.addTimer timer)
        ⟨next, w.alarms.set timer (.pending (w.alarms.now + w.timers.expires timer))⟩
  | delTimer {timer : Timer} (hinit : w.alarms.fate timer ≠ .fresh) :
      Step w (.delTimer timer) ⟨delTimer w.timers timer, w.alarms.set timer .idle⟩
  | runTimerList {next : Timers}
      (hcall : Returns (fun fuel ↦ runTimerList fuel w.timers) next) :
      Step w .runTimerList ⟨next, w.alarms.tick⟩
  | others {sched : Sched} : Step w .others ⟨{ w.timers with sched := sched }, w.alarms⟩

/-- After `sched_init` the list is empty. The fields `expires` are machine words. -/
structure Clock.First (w : Clock) : Prop where
  links : ∃ links, w.timers.links = listInit links .timerList
  expires : ∀ timer, w.timers.expires timer < 2 ^ 32
  fate : ∀ timer, w.alarms.fate timer = .fresh

/-- The invariant: the timer list holds the pending timers, and the idle timers are unlinked. -/
structure Tracked (w : Clock) (timers : List Timer) : Prop where
  pending : Pending w.timers w.alarms.deadline w.alarms.now timers
  mem_iff : ∀ timer, timer ∈ timers ↔ ∃ deadline, w.alarms.fate timer = .pending deadline
  later : ∀ timer ∈ timers, w.alarms.now < w.alarms.deadline timer
  unlinked : ∀ timer, w.alarms.fate timer = .idle →
    listEmpty w.timers.links (.timerLink timer)
  small : ∀ timer, w.timers.expires timer < 2 ^ 32

variable {w next : Clock} {timers : List Timer} {timer other : Timer}

theorem Pending.congr {s : Timers} {deadline others : Timer → ℕ} {now : ℕ}
    (h : Pending s deadline now timers) (heq : ∀ timer ∈ timers, others timer = deadline timer) :
    Pending s others now timers where
  ring := h.ring
  deltas := h.deltas.congr (fun _ _ ↦ rfl) heq
  bound timer htimer := by
    rw [heq timer htimer]
    exact h.bound timer htimer
  proc := h.proc

namespace Tracked

theorem of_first (h : w.First) : Tracked w [] := by
  rcases h.links with ⟨links, hlinks⟩
  refine ⟨⟨?_, trivial, by simp, by simp⟩, fun timer ↦ ?_, by simp, fun timer hidle ↦ ?_, h.expires⟩
  · rw [hlinks]
    exact Ring.selfLink _ _
  · simp [h.fate]
  · rw [h.fate] at hidle
    cases hidle

theorem fate_eq (h : Tracked w timers) (hmem : timer ∈ timers) :
    w.alarms.fate timer = .pending (w.alarms.deadline timer) := by
  rcases (h.mem_iff timer).mp hmem with ⟨deadline, hfate⟩
  rw [Alarms.deadline_eq hfate, hfate]

theorem notMem_of_idle (h : Tracked w timers) (hidle : w.alarms.fate timer = .idle) :
    timer ∉ timers := fun hmem ↦ by
  rw [h.fate_eq hmem] at hidle
  cases hidle

/-- The timers that a change of one fate leaves alone. -/
theorem pending_set (h : Tracked w timers) (fate : Fate) (hfresh : timer ∉ timers) :
    Pending w.timers (w.alarms.set timer fate).deadline w.alarms.now timers :=
  h.pending.congr fun _ hother ↦
    Alarms.deadline_congr (Alarms.set_of_ne (ne_of_mem_of_not_mem hother hfresh))

theorem timerInit {proc : Proc} {expires : ℕ} (h : Tracked w timers)
    (hidle : ∀ deadline, w.alarms.fate timer ≠ .pending deadline) :
    Tracked ⟨timerInit w.timers timer proc expires, w.alarms.set timer .idle⟩ timers := by
  have hfresh : timer ∉ timers := fun hmem ↦ hidle _ (h.fate_eq hmem)
  have hpending := h.pending_set .idle hfresh
  have hne : ∀ other ∈ timers, other ≠ timer := fun _ hother ↦ ne_of_mem_of_not_mem hother hfresh
  refine ⟨⟨?_, hpending.deltas.update hfresh _, hpending.bound, fun other hother ↦ ?_⟩,
    fun other ↦ ?_, fun other hother ↦ ?_, fun other hother ↦ ?_, fun other ↦ ?_⟩
  · refine hpending.ring.congr fun node hnode ↦ Links.selfLink_of_ne _ ?_
    rintro rfl
    exact hfresh (timerLink_mem_iff.mp hnode)
  · change Function.update w.timers.proc timer (some proc) other ≠ none
    rw [Function.update_of_ne (hne other hother)]
    exact h.pending.proc other hother
  · by_cases heq : other = timer
    · simp [heq, hfresh]
    · rw [h.mem_iff, Alarms.set_of_ne heq]
  · rw [Alarms.deadline_congr (Alarms.set_of_ne (hne other hother))]
    exact h.later other hother
  · by_cases heq : other = timer
    · rw [heq]
      exact congrArg Link.next (Links.selfLink_self _ _)
    · rw [Alarms.set_of_ne heq] at hother
      refine Eq.trans ?_ (h.unlinked other hother)
      exact congrArg Link.next (Links.selfLink_of_ne _ (by simpa using heq))
  · change Function.update w.timers.expires timer (uint32 expires) other < 2 ^ 32
    by_cases heq : other = timer
    · rw [heq, Function.update_self]
      exact Nat.mod_lt _ (by decide)
    · rw [Function.update_of_ne heq]
      exact h.small other

/-- `add_timer` of an unlinked timer, whatever subtracts. -/
theorem addTimer (h : Tracked w timers) (hfresh : timer ∉ timers)
    (hpos : 0 < w.timers.expires timer) (hproc : w.timers.proc timer ≠ none)
    (hlink : listEmpty w.timers.links (.timerLink timer)) : ∃ next after,
    (∀ sub, Exact sub → Returns (fun fuel ↦ addTimerWith sub fuel w.timers timer) next) ∧
      Tracked ⟨next, w.alarms.set timer (.pending (w.alarms.now + w.timers.expires timer))⟩
        after := by
  have hpending := h.pending_set (.pending (w.alarms.now + w.timers.expires timer)) hfresh
  have htimer := Alarms.deadline_eq (w.alarms.set_self timer
    (.pending (w.alarms.now + w.timers.expires timer)))
  rcases addTimer_spec hpending hfresh hpos (h.small timer) hproc hlink htimer with
    ⟨next, left, right, rfl, hcall, hafter, hframe⟩
  have hmem : ∀ other, other ∈ left ++ timer :: right ↔ other = timer ∨ other ∈ left ++ right :=
    fun other ↦ by rw [List.perm_middle.mem_iff, List.mem_cons]
  refine ⟨next, _, hcall, hafter, fun other ↦ ?_, fun other hother ↦ ?_, fun other hother ↦ ?_,
    fun other ↦ ?_⟩
  · rw [hmem]
    by_cases heq : other = timer
    · simp [heq]
    · rw [Alarms.set_of_ne heq, ← h.mem_iff]
      simp [heq]
  · rcases (hmem other).mp hother with rfl | hother
    · rw [htimer]
      exact Nat.lt_add_of_pos_right hpos
    · rw [Alarms.deadline_congr (Alarms.set_of_ne (ne_of_mem_of_not_mem hother hfresh))]
      exact h.later other hother
  · have hne : other ≠ timer := by
      rintro rfl
      simp at hother
    rw [Alarms.set_of_ne hne] at hother
    unfold listEmpty
    rw [(hframe other (by simp [hne, h.notMem_of_idle hother])).1]
    exact h.unlinked other hother
  · by_cases hother : other ∈ timer :: (left ++ right)
    · exact hafter.expires_lt ((hmem other).mpr (List.mem_cons.mp hother))
    · rw [(hframe other hother).2]
      exact h.small other

theorem delTimer (h : Tracked w timers) (hinit : w.alarms.fate timer ≠ .fresh) :
    ∃ after, Tracked ⟨delTimer w.timers timer, w.alarms.set timer .idle⟩ after := by
  by_cases hmem : timer ∈ timers
  · rcases List.append_of_mem hmem with ⟨left, right, rfl⟩
    rcases delTimer_spec h.pending with ⟨hpending, -, -, hempty, hframe, hexpires, -⟩
    have hiff : ∀ other, other ∈ left ++ right ↔ other ∈ left ++ timer :: right ∧ other ≠ timer :=
      fun other ↦ Ring.mem_remove_iff h.pending.nodup
    have hdeadline : ∀ other ∈ left ++ right,
        (w.alarms.set timer .idle).deadline other = w.alarms.deadline other := fun other hother ↦
      Alarms.deadline_congr (Alarms.set_of_ne ((hiff other).mp hother).2)
    refine ⟨left ++ right, hpending.congr hdeadline, fun other ↦ ?_, fun other hother ↦ ?_,
      fun other hother ↦ ?_, fun other ↦ ?_⟩
    · rw [hiff, h.mem_iff]
      by_cases heq : other = timer
      · simp [heq]
      · rw [Alarms.set_of_ne heq]
        simp [heq]
    · rw [hdeadline other hother]
      exact h.later other ((hiff other).mp hother).1
    · by_cases heq : other = timer
      · rw [heq]
        exact hempty
      · rw [Alarms.set_of_ne heq] at hother
        unfold listEmpty
        rw [hframe other (h.notMem_of_idle hother)]
        exact h.unlinked other hother
    · by_cases hother : other ∈ left ++ right
      · exact hpending.expires_lt hother
      · rw [hexpires other hother]
        exact h.small other
  · have hidle : w.alarms.fate timer = .idle := by
      cases hfate : w.alarms.fate timer with
      | fresh => exact absurd hfate hinit
      | idle => rfl
      | pending deadline => exact absurd ((h.mem_iff timer).mpr ⟨deadline, hfate⟩) hmem
    have hset : w.alarms.set timer .idle = w.alarms := by
      rw [Alarms.set, ← hidle, Function.update_eq_self]
    rw [delTimer_of_listEmpty (h.unlinked timer hidle), hset]
    exact ⟨timers, h⟩

/-- A tick fires the timers whose deadline has come. -/
theorem runTimerList {fuel : ℕ} {next : Timers} (h : Tracked w timers)
    (hcall : Schedule.runTimerList fuel w.timers = .ok next) : ∃ expires due later,
    timers = due ++ later ∧ Fired { w.timers with expires := expires } next w.alarms.deadline
      (w.alarms.now + 1) due later ∧ Tracked ⟨next, w.alarms.tick⟩ later := by
  rcases runTimerList_fired h.pending h.later hcall with
    ⟨expires, due, later, rfl, hfired, hle, hlater⟩
  refine ⟨expires, due, later, rfl, hfired, ?_⟩
  have hdue : ∀ other, w.alarms.fate other = .pending (w.alarms.now + 1) ↔ other ∈ due := by
    intro other
    constructor
    · intro hother
      have hmem := (h.mem_iff other).mpr ⟨_, hother⟩
      refine (List.mem_append.mp hmem).resolve_right fun hmem ↦ ?_
      have hlt := hlater other hmem
      rw [Alarms.deadline_eq hother] at hlt
      omega
    · intro hother
      rw [h.fate_eq (List.mem_append_left _ hother), hfired.deadline_eq other hother]
  have hdisjoint := List.disjoint_of_nodup_append h.pending.nodup
  have hfate : ∀ other, other ∉ due → w.alarms.tick.fate other = w.alarms.fate other :=
    fun other hother ↦ if_neg fun hfate ↦ hother ((hdue other).mp hfate)
  have hkept : ∀ other ∈ later, w.alarms.tick.fate other = w.alarms.fate other :=
    fun other hother ↦ hfate other fun hmem ↦ hdisjoint hmem hother
  have hdeadline : ∀ other ∈ later, w.alarms.tick.deadline other = w.alarms.deadline other :=
    fun other hother ↦ Alarms.deadline_congr (hkept other hother)
  refine ⟨hfired.pending.congr hdeadline, fun other ↦ ?_, fun other hother ↦ ?_,
    fun other hother ↦ ?_, fun other ↦ ?_⟩
  · by_cases hother : other ∈ due
    · have hidle : w.alarms.tick.fate other = .idle := if_pos ((hdue other).mpr hother)
      have hgone : other ∉ later := fun hmem ↦ hdisjoint hother hmem
      simp [hidle, hgone]
    · rw [hfate other hother, ← h.mem_iff, List.mem_append]
      simp [hother]
  · rw [hdeadline other hother]
    exact hlater other hother
  · by_cases hmem : other ∈ due
    · exact hfired.unlinked other hmem
    · rw [hfate other hmem] at hother
      unfold listEmpty
      rw [hfired.frame other (h.notMem_of_idle hother)]
      exact h.unlinked other hother
  · rw [hfired.expires]
    exact (hle other).trans_lt (h.small other)

theorem step {call : Call} (h : Tracked w timers) (hstep : w.Step call next) :
    ∃ after, Tracked next after := by
  cases hstep with
  | timerInit hidle => exact ⟨timers, h.timerInit hidle⟩
  | @addTimer timer _ hinit hcall =>
    rcases hcall with ⟨bound, hbound⟩
    have hreturned := hbound bound le_rfl
    rcases bind_eq_ok.mp hreturned with ⟨_, hpre, hrest⟩
    rcases bind_eq_ok.mp hrest with ⟨_, hlink, -⟩
    have hempty := require_eq_ok.mp hlink
    have hfresh : timer ∉ timers := fun hmem ↦ h.pending.not_listEmpty hmem hempty
    rcases h.addTimer hfresh (require_eq_ok.mp hpre).1 (require_eq_ok.mp hpre).2 hempty with
      ⟨other, after, hother, hafter⟩
    rw [← (hother wrapping exact_wrapping).unique ⟨bound, hbound⟩]
    exact ⟨after, hafter⟩
  | delTimer hinit => exact h.delTimer hinit
  | runTimerList hcall =>
    rcases hcall with ⟨bound, hbound⟩
    rcases h.runTimerList (hbound bound le_rfl) with ⟨_, _, later, -, -, hlater⟩
    exact ⟨later, hlater⟩
  | others =>
    have hpending := h.pending
    exact ⟨timers, ⟨hpending.ring, hpending.deltas, hpending.bound, hpending.proc⟩, h.mem_iff,
      h.later, h.unlinked, h.small⟩

end Tracked

theorem tracked_of_reachable
    (h : Reachable Clock.First (fun w next ↦ ∃ call, Clock.Step w call next) w) :
    ∃ timers, Tracked w timers := by
  induction h with
  | first hfirst => exact ⟨[], Tracked.of_first hfirst⟩
  | step _ hstep ih =>
    rcases ih with ⟨timers, htracked⟩
    rcases hstep with ⟨call, hstep⟩
    exact htracked.step hstep

/-! ## What the timer list is good for -/

/-- The timer list stands for the deadlines, and the calls do what they are for. A tick wakes the
processes of the timers that are due and no others. Its only assertion that can fail is the one on
the process it wakes. `checked` instead of `wrapping` shows that no subtraction wraps around. -/
structure Faithful (w : Clock) : Prop where
  list : ∃ timers, Ring w.timers.links .timerList (timers.map .timerLink) ∧
    (∀ timer, timer ∈ timers ↔ ∃ deadline, w.alarms.fate timer = .pending deadline) ∧
    ∀ left timer right, timers = left ++ timer :: right → w.alarms.fate timer =
      .pending (w.alarms.now + ((left ++ [timer]).map w.timers.expires).sum)
  later : ∀ timer deadline, w.alarms.fate timer = .pending deadline → w.alarms.now < deadline
  unlinked : ∀ timer, w.alarms.fate timer = .idle → listEmpty w.timers.links (.timerLink timer)
  head : ∀ timer, listNext w.timers.links .timerList = .timerLink timer →
    w.timers.expires timer ≠ 0
  adds : ∀ timer, w.alarms.fate timer = .idle → w.timers.expires timer > 0 →
    w.timers.proc timer ≠ none → ∃ next, Returns (fun fuel ↦ addTimer fuel w.timers timer) next ∧
      Returns (fun fuel ↦ addTimerWith checked fuel w.timers timer) next
  ticks : ∀ next, Returns (fun fuel ↦ runTimerList fuel w.timers) next →
    Returns (fun fuel ↦ runTimerListWith checked fuel w.timers) next ∧
    (∀ timer, w.alarms.fate timer = .pending (w.alarms.now + 1) →
      listEmpty next.links (.timerLink timer) ∧ ∃ proc, w.timers.proc timer = some proc ∧
        (next.sched.procs proc).state = .runnable) ∧
    (∀ timer deadline, w.alarms.fate timer = .pending deadline → deadline ≠ w.alarms.now + 1 →
      ¬listEmpty next.links (.timerLink timer)) ∧
    ∀ proc, (∀ timer, w.alarms.fate timer = .pending (w.alarms.now + 1) →
      w.timers.proc timer ≠ some proc) →
      (next.sched.procs proc).state = (w.timers.sched.procs proc).state
  returns : ∀ tree, Sound w.timers.sched tree →
    (∀ timer, w.alarms.fate timer = .pending (w.alarms.now + 1) → Wakeable w.timers timer) →
    ∃ next, Returns (fun fuel ↦ runTimerList fuel w.timers) next

theorem Tracked.faithful (h : Tracked w timers) : Faithful w where
  list := by
    refine ⟨timers, h.pending.ring, h.mem_iff, ?_⟩
    rintro left timer right rfl
    rw [h.fate_eq (by simp), h.pending.deltas.sum_prefix]
  later timer deadline hfate := by
    have hlater := h.later timer ((h.mem_iff timer).mpr ⟨deadline, hfate⟩)
    rwa [Alarms.deadline_eq hfate] at hlater
  unlinked := h.unlinked
  head timer hhead := by
    rw [h.pending.listNext_head] at hhead
    cases timers with
    | nil => cases hhead
    | cons first rest =>
      cases hhead
      exact (h.pending.expires_pos (h.later timer (by simp))).ne'
  adds timer hidle hpos hproc := by
    rcases h.addTimer (h.notMem_of_idle hidle) hpos hproc (h.unlinked timer hidle) with
      ⟨next, -, hcall, -⟩
    exact ⟨next, hcall wrapping exact_wrapping, hcall checked exact_checked⟩
  ticks next hcall := by
    have hchecked := hcall.congr fun fuel ↦ h.pending.runTimerListWith_eq h.later exact_checked
    rcases hcall with ⟨bound, hbound⟩
    rcases h.runTimerList (hbound bound le_rfl) with ⟨_, due, later, rfl, hfired, hafter⟩
    have hdue : ∀ timer, w.alarms.fate timer = .pending (w.alarms.now + 1) ↔ timer ∈ due := by
      intro timer
      refine ⟨fun hfate ↦ ?_, fun hmem ↦ ?_⟩
      · refine (List.mem_append.mp ((h.mem_iff timer).mpr ⟨_, hfate⟩)).resolve_right fun hmem ↦ ?_
        have hlater := (hafter.mem_iff timer).mp hmem
        simp [Alarms.tick, hfate] at hlater
      · rw [h.fate_eq (List.mem_append_left _ hmem), hfired.deadline_eq timer hmem]
    refine ⟨hchecked, fun timer hfate ↦ ?_, fun timer deadline hfate hne ↦ ?_, fun proc hproc ↦ ?_⟩
    · exact ⟨hfired.unlinked timer ((hdue timer).mp hfate),
        hfired.woken timer ((hdue timer).mp hfate)⟩
    · have hmem := (h.mem_iff timer).mpr ⟨deadline, hfate⟩
      refine hafter.pending.not_listEmpty ((List.mem_append.mp hmem).resolve_left fun hmem ↦ hne ?_)
      have hnow := (hdue timer).mpr hmem
      rw [hfate] at hnow
      exact Fate.pending.inj hnow
    · exact hfired.others proc fun timer hmem ↦ hproc timer ((hdue timer).mpr hmem)
  returns tree hsound hwakeable := returns_runTimerList h.pending h.later hsound
    fun timer htimer heq ↦ hwakeable timer (by rw [h.fate_eq htimer, heq])

/-- What a call that is not about a timer means for it. -/
theorem Clock.Step.fate {call : Call} (h : w.Step call next) (hcall : call.argument ≠ some timer)
    {deadline : ℕ} (hfate : w.alarms.fate timer =
      if w.alarms.now < deadline then .pending deadline else .idle) :
    next.alarms.now = w.alarms.now + [call].count .runTimerList ∧ next.alarms.fate timer =
      if next.alarms.now < deadline then .pending deadline else .idle := by
  have hset : ∀ other fate, some other ≠ some timer →
      (w.alarms.set other fate).fate timer = w.alarms.fate timer := fun other fate hne ↦
    Alarms.set_of_ne fun heq ↦ hne (heq ▸ rfl)
  cases h with
  | timerInit => exact ⟨rfl, (hset _ _ hcall).trans hfate⟩
  | addTimer => exact ⟨rfl, (hset _ _ hcall).trans hfate⟩
  | delTimer => exact ⟨rfl, (hset _ _ hcall).trans hfate⟩
  | others => exact ⟨rfl, hfate⟩
  | runTimerList =>
    refine ⟨rfl, ?_⟩
    simp only [Alarms.tick, hfate]
    by_cases hlt : w.alarms.now < deadline
    · by_cases heq : deadline = w.alarms.now + 1
      · simp [heq]
      · have hnext : w.alarms.now + 1 < deadline := by omega
        simp [hlt, heq, hnext]
    · have hnext : ¬w.alarms.now + 1 < deadline := by omega
      simp [hlt, hnext]

/-- A timer fires on time in a run without calls about it. -/
theorem fate_of_runs {calls : List Call} (h : Runs Clock.Step w calls next)
    (hcalls : ∀ call ∈ calls, call.argument ≠ some timer) {deadline : ℕ}
    (hfate : w.alarms.fate timer =
      if w.alarms.now < deadline then .pending deadline else .idle) :
    next.alarms.now = w.alarms.now + calls.count .runTimerList ∧ next.alarms.fate timer =
      if next.alarms.now < deadline then .pending deadline else .idle := by
  induction h with
  | nil => exact ⟨rfl, hfate⟩
  | @cons w middle next call calls hstep _ ih =>
    rcases hstep.fate (hcalls call (by simp)) hfate with ⟨hnow, hmiddle⟩
    rcases ih (fun other hother ↦ hcalls other (by simp [hother])) hmiddle with ⟨hnext, hfate⟩
    refine ⟨?_, hfate⟩
    rw [hnext, hnow, Nat.add_assoc, ← List.count_append]
    rfl

/-- In every reachable state the differences along `timer_list` add up to the deadlines, and a timer
that is added and then left alone stays pending until the tick at which its time is up. -/
theorem faithful_of_reachable
    (h : Reachable Clock.First (fun w next ↦ ∃ call, Clock.Step w call next) w) :
    Faithful w ∧ ∀ timer added calls next, w.Step (.addTimer timer) added →
      Runs Clock.Step added calls next → (∀ call ∈ calls, call.argument ≠ some timer) →
      Faithful next ∧ next.alarms.now = w.alarms.now + calls.count .runTimerList ∧
        next.alarms.fate timer = if calls.count .runTimerList < w.timers.expires timer then
          .pending (w.alarms.now + w.timers.expires timer) else .idle := by
  refine ⟨?_, fun timer added calls next hadd hruns hcalls ↦ ?_⟩
  · rcases tracked_of_reachable h with ⟨timers, htracked⟩
    exact htracked.faithful
  · have hnext : Reachable Clock.First (fun w next ↦ ∃ call, Clock.Step w call next) next :=
      (h.step ⟨_, hadd⟩).runs hruns
    rcases tracked_of_reachable hnext with ⟨timers, htracked⟩
    rcases tracked_of_reachable (h.step ⟨_, hadd⟩) with ⟨addedTimers, hadded⟩
    cases hadd with
    | addTimer hinit hcall =>
      have hself := w.alarms.set_self timer (.pending (w.alarms.now + w.timers.expires timer))
      have hlater := hadded.faithful.later timer _ hself
      rcases fate_of_runs hruns hcalls (hself.trans (if_pos hlater).symm) with ⟨hnow, hfate⟩
      refine ⟨htracked.faithful, hnow, ?_⟩
      rw [hfate, hnow]
      simp only [Alarms.set_now, Nat.add_lt_add_iff_left]

/-! ## The first timer -/

theorem settles_addTimer (s : Timers) (timer : Timer) : Settles fun fuel ↦ addTimer fuel s timer :=
  Settles.bind (Settles.of_constant _) fun _ ↦ Settles.bind (Settles.of_constant _) fun _ ↦
    Settles.bind (settles_walk _ _ _ _ _ _) fun _ ↦ Settles.of_constant _

theorem settles_wakeTimer (s : Timers) (timer : Timer) : Settles fun fuel ↦ wakeTimer fuel s timer := by
  unfold wakeTimer
  split
  · exact Settles.of_constant _
  · exact Settles.bind (Settles.of_constant _) fun _ ↦
      Settles.bind (settles_wakeupProc _ _) fun _ ↦ Settles.of_constant _

theorem settles_fireTimers (s : Timers) (timer : Timer) :
    Settles fun fuel ↦ fireTimers fuel fuel s timer := by
  have hboth : ∀ wakeFuel fuel s timer value, fireTimers wakeFuel fuel s timer = .ok value →
      fireTimers (wakeFuel + 1) (fuel + 1) s timer = .ok value := by
    intro wakeFuel fuel
    induction fuel with
    | zero => exact fun _ _ _ h ↦ by cases h
    | succ fuel ih =>
      intro s timer value h
      rw [fireTimers] at h ⊢
      split at h
      case isTrue hdue =>
        rw [if_pos hdue]
        rcases bind_eq_ok.mp h with ⟨middle, hmiddle, hrest⟩
        refine bind_eq_ok.mpr ⟨middle, settles_wakeTimer s timer _ _ hmiddle, ?_⟩
        split at hrest
        · exact hrest
        · exact ih _ _ _ hrest
      case isFalse hdue => rwa [if_neg hdue]
  exact fun fuel value h ↦ hboth fuel fuel s timer value h

theorem settles_runTimerList (s : Timers) : Settles fun fuel ↦ runTimerList fuel s := by
  refine Settles.bind ?_ fun _ ↦ Settles.of_constant _
  unfold runTimersWith
  split
  · exact Settles.of_constant _
  · exact Settles.bind (Settles.of_constant _) fun _ ↦
      Settles.bind (Settles.of_constant _) fun _ ↦ settles_fireTimers _ _

/-- A process has been forked, and no timer is in use. -/
def quiet : Clock where
  timers := ⟨forked, fun _ ↦ 0, fun _ ↦ none, listInit (fun node ↦ ⟨node, node⟩) .timerList⟩
  alarms := ⟨0, fun _ ↦ .fresh⟩

theorem first_quiet : quiet.First := ⟨⟨_, rfl⟩, fun _ ↦ Nat.two_pow_pos 32, fun _ ↦ rfl⟩

/-- The process is to be woken at the next tick. -/
def armed : Clock := ⟨timerInit quiet.timers 0 1 1, quiet.alarms.set 0 .idle⟩

def added : Clock :=
  ⟨(addTimer 1 armed.timers 0).toOption.getD armed.timers, armed.alarms.set 0 (.pending 1)⟩

def fired : Clock :=
  ⟨(runTimerList 1 added.timers).toOption.getD added.timers, added.alarms.tick⟩

theorem reachable_fired :
    Reachable Clock.First (fun w next ↦ ∃ call, Clock.Step w call next) fired := by
  have harmed : quiet.Step (.timerInit 0 1 1) armed := .timerInit (by simp [quiet])
  have hadded : armed.Step (.addTimer 0) added := .addTimer (by decide)
    ((settles_addTimer armed.timers 0).returns_getD armed.timers (by decide +kernel))
  have hfired : added.Step .runTimerList fired := .runTimerList
    ((settles_runTimerList added.timers).returns_getD added.timers (by decide +kernel))
  exact .step (.step (.step (.first first_quiet) ⟨_, harmed⟩) ⟨_, hadded⟩) ⟨_, hfired⟩

theorem faithful_fired : fired.alarms.fate 0 = .idle ∧ Faithful fired :=
  ⟨by decide, (faithful_of_reachable reachable_fired).1⟩

end Ucore.Schedule
