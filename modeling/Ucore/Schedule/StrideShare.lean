import Ucore.Schedule.StrideWindow

/-!
# Proportional share

While the same processes compete, the number of times a process is picked, times its pass, is its
unwrapped stride. The picks keep all unwrapped strides within `BIG_STRIDE` of each other, however
often the 32-bit strides wrap around.
-/

namespace Ucore.Schedule

open Library

/-- The scheduler together with the number of times it has turned to each process. -/
structure Share where
  sched : Sched
  picks : Proc → ℕ

/-- What the picks amount to. -/
def Share.progress (s : Share) (proc : Proc) : ℤ := s.picks proc * pass (s.sched.procs proc)

/-- All competitors start at the same stride. -/
structure Level (s : Share) : Prop where
  sound : ∃ tree, Sound s.sched tree
  stride : ∃ start, ∀ proc, Contends s.sched proc → (s.sched.procs proc).lab6Stride = start
  picks : ∀ proc, s.picks proc = 0

/-- Scheduling decisions, with ticks of the clock in between. -/
inductive ShareStep (s : Share) : Share → Prop
  | schedule {next : Sched} (hcall : Returns (fun fuel ↦ schedule fuel s.sched) next) :
      ShareStep s ⟨next, Function.update s.picks next.current (s.picks next.current + 1)⟩
  | tick : ShareStep s ⟨schedClassProcTick s.sched s.sched.current, s.picks⟩

variable {s next : Share} {tree : BinaryTree Proc}

/-- The progress measures the strides from where they started. -/
structure Measured (s : Share) (tree : BinaryTree Proc) (start : ℤ) : Prop where
  sound : Sound s.sched tree
  heap : tree.IsHeap (StrideLe s.sched)
  unwraps : Unwraps s.sched fun proc ↦ start + s.progress proc

theorem Measured.windowed {start : ℤ} (h : Measured s tree start) : Windowed s.sched tree :=
  ⟨h.sound, h.unwraps.window, h.heap⟩

theorem Level.measured (h : Level s) : ∃ tree start, Measured s tree start := by
  rcases h.sound with ⟨tree, hsound⟩
  rcases h.stride with ⟨start, hstride⟩
  have hprogress : ∀ proc, s.progress proc = 0 := fun proc ↦ by simp [Share.progress, h.picks]
  refine ⟨tree, start, hsound, ?_, fun proc hproc ↦ ?_, fun a b _ _ ↦ ?_⟩
  · -- with equal strides every tree is a heap
    have hheap : tree.IsHeap fun _ _ ↦ True := by
      clear hsound
      induction tree with
      | nil => trivial
      | node value left right ihleft ihright => exact ⟨by simp, by simp, ihleft, ihright⟩
    refine hheap.mono fun a ha b hb _ ↦ ?_
    rw [hsound.mem_values] at ha hb
    simp [StrideLe, gap, hstride a ha.1, hstride b hb.1, int32]
  · simp [hprogress, hstride proc hproc, Int.ModEq.refl]
  · simp [hprogress, BIG_STRIDE]

/-- The share after a scheduling decision. -/
def Share.pick (s : Share) (sched : Sched) : Share :=
  ⟨sched, Function.update s.picks sched.current (s.picks sched.current + 1)⟩

theorem progress_pick_self {sched : Sched} (h : Frame s.sched sched) :
    (s.pick sched).progress sched.current =
      s.progress sched.current + pass (s.sched.procs sched.current) := by
  simp only [Share.progress, Share.pick, Function.update_self,
    pass_congr (h.alike sched.current).lab6Priority]
  push_cast
  exact add_one_mul _ _

theorem progress_pick_of_ne {sched : Sched} (h : Frame s.sched sched) {proc : Proc}
    (hproc : proc ≠ sched.current) : (s.pick sched).progress proc = s.progress proc := by
  simp only [Share.progress, Share.pick, Function.update_of_ne hproc,
    pass_congr (h.alike proc).lab6Priority]

/-- A pick adds a pass to the least of the unwrapped strides. -/
theorem Measured.schedule {start : ℤ} {after : BinaryTree Proc} {sched : Sched}
    (h : Measured s tree start) (hafter : Sound sched after) (hframe : Frame s.sched sched)
    (hpicked : Picked s.sched sched (contenders s.sched tree) after) :
    Measured (s.pick sched) after start := by
  have hwindowed := h.windowed.of_picked hafter hframe hpicked
  refine ⟨hafter, hwindowed.heap, ?_⟩
  have hleast := root_least h.sound h.unwraps.window h.heap
  have hmem := h.sound.mem_contenders
  generalize contenders s.sched tree = picked at hpicked hleast hmem
  cases hpicked with
  | idle _ _ =>
    have hnone : ∀ proc, ¬Contends sched proc := fun proc hproc ↦ by
      have := (hmem proc).mpr ((hframe.contends_iff proc).mp hproc)
      simp at this
    exact ⟨fun proc hproc ↦ absurd hproc (hnone proc), fun a _ ha ↦ absurd ha (hnone a)⟩
  | @proc top left right hcurrent hpicked hstride =>
    subst hcurrent
    have htop : Contends s.sched sched.current := (hmem _).mp (by simp)
    -- the picked process was behind all others, and now is at most `BIG_STRIDE` ahead
    have hmoved : ∀ other, Contends s.sched other → other ≠ sched.current →
        |start + (s.pick sched).progress sched.current -
          (start + (s.pick sched).progress other)| ≤ BIG_STRIDE := fun other hother hne ↦ by
      have hle := hleast sched.current left right rfl other hother
      have hclose := h.unwraps.close sched.current other htop hother
      rw [StrideLe, h.unwraps.gap_eq htop hother] at hle
      have hpass : pass (s.sched.procs sched.current) ≤ 2 ^ 30 := pass_le _
      rw [progress_pick_self hframe, progress_pick_of_ne hframe hne]
      rw [abs_le_bigStride] at hclose ⊢
      omega
    refine ⟨fun proc hproc ↦ ?_, fun a b ha hb ↦ ?_⟩
    · rw [Share.pick, hframe.contends_iff] at hproc
      have hagrees := h.unwraps.agrees proc hproc
      by_cases heq : proc = sched.current
      · subst heq
        rw [progress_pick_self hframe, ← add_assoc]
        refine (hagrees.add_right _).trans ?_
        change _ ≡ ((sched.procs sched.current).lab6Stride : ℤ) [ZMOD 2 ^ 32]
        rw [hpicked, uint32]
        push_cast
        exact (Int.mod_modEq _ _).symm
      · rw [progress_pick_of_ne hframe heq]
        change _ ≡ ((sched.procs proc).lab6Stride : ℤ) [ZMOD 2 ^ 32]
        rwa [hstride proc heq]
    · rw [Share.pick, hframe.contends_iff] at ha hb
      by_cases hap : a = sched.current
      · by_cases hbp : b = sched.current
        · simp [hap, hbp]
        · exact hap ▸ hmoved b hb hbp
      · by_cases hbp : b = sched.current
        · rw [abs_sub_comm]
          exact hbp ▸ hmoved a ha hap
        · rw [progress_pick_of_ne hframe hap, progress_pick_of_ne hframe hbp]
          exact h.unwraps.close a b ha hb

theorem Measured.tick {start : ℤ} (h : Measured s tree start) :
    Measured ⟨schedClassProcTick s.sched s.sched.current, s.picks⟩ tree start := by
  rcases schedClassProcTick_eq s.sched s.sched.current with ⟨value, heq, halike, hrq, hstride⟩
  have hframe : Undisturbed s.sched (s.sched.store s.sched.current value) :=
    Undisturbed.store halike hstride
  rw [heq]
  refine ⟨h.sound.store hrq (Or.inr halike.state), isHeap_congr (fun proc _ ↦ hframe.stride proc)
    h.heap, fun proc hproc ↦ ?_, fun a b ha hb ↦ ?_⟩
  · have hagrees := h.unwraps.agrees proc ((hframe.contends_iff proc).mp hproc)
    simp only [Share.progress, pass_congr (hframe.alike proc).lab6Priority, hframe.stride proc]
    exact hagrees
  · have hclose := h.unwraps.close a b ((hframe.contends_iff a).mp ha)
      ((hframe.contends_iff b).mp hb)
    simp only [Share.progress, pass_congr (hframe.alike _).lab6Priority]
    exact hclose

/-- However long the same processes compete, the picks of any two of them, weighted by their
passes, differ by at most `BIG_STRIDE`. -/
theorem abs_progress_sub_le (h : Reachable Level ShareStep s) {p q : Proc}
    (hp : Contends s.sched p) (hq : Contends s.sched q) :
    |(s.picks p * pass (s.sched.procs p) : ℤ) - s.picks q * pass (s.sched.procs q)| ≤
      BIG_STRIDE := by
  have hmeasured : ∃ tree start, Measured s tree start := by
    clear hp hq
    induction h with
    | first hlevel => exact hlevel.measured
    | step _ hstep ih =>
      rcases ih with ⟨tree, start, ih⟩
      cases hstep with
      | schedule hcall =>
        rcases ih.sound.schedule with ⟨sched, after, hsched, hframe, hpicked, hafter⟩
        rw [← hsched.unique hcall]
        exact ⟨after, start, ih.schedule hafter hframe hpicked⟩
      | tick => exact ⟨tree, start, ih.tick⟩
  rcases hmeasured with ⟨tree, start, hmeasured⟩
  have hclose := hmeasured.unwraps.close p q hp hq
  rwa [add_sub_add_left_eq_sub] at hclose

/-! ## Two processes -/

/-- The first process waits, and a second one is forked at address 2. -/
def forkedBoth : Sched :=
  { waiting.store 2 allocProc with
    entries := skewHeapInit waiting.entries 2
    live := insert 2 waiting.live }

/-- Both processes wait. -/
def waitingBoth : Sched := (wakeupProc 1 forkedBoth 2).toOption.getD forkedBoth

theorem level_waitingBoth : Level ⟨waitingBoth, fun _ ↦ 0⟩ := by
  have hforked : Step waiting (.create 2) forkedBoth := .create (by decide +kernel) (by decide +kernel)
  have hwaiting : Step forkedBoth (.wakeup 2) waitingBoth := .wakeup (by decide +kernel)
    ((settles_wakeupProc forkedBoth 2).returns_getD forkedBoth (by decide +kernel))
  refine ⟨sound_of_reachable (.step (.step (.step (.step (.first booted_booted) ⟨_, forked_step⟩)
    ⟨_, waiting_step⟩) ⟨_, hforked⟩) ⟨_, hwaiting⟩), ⟨0, fun proc hproc ↦ ?_⟩, fun _ ↦ rfl⟩
  have hall : ∀ proc ∈ waitingBoth.live, (waitingBoth.procs proc).lab6Stride = 0 := by
    decide +kernel
  exact hall proc hproc.1

/-- The state after a number of scheduling decisions. -/
def decided : ℕ → Share
  | 0 => ⟨waitingBoth, fun _ ↦ 0⟩
  | decisions + 1 =>
    let s := decided decisions
    s.pick ((schedule 2 s.sched).toOption.getD s.sched)

theorem decided_step {decisions : ℕ}
    (h : (schedule 2 (decided decisions).sched).toOption.isSome) :
    ShareStep (decided decisions) (decided (decisions + 1)) :=
  .schedule ((settles_schedule _).returns_getD _ h)

/-- After three decisions one process has been picked twice and the other once. -/
theorem abs_progress_sub_le_decided : (decided 3).picks 1 = 2 ∧ (decided 3).picks 2 = 1 ∧
    |((decided 3).picks 1 * pass ((decided 3).sched.procs 1) : ℤ) -
      (decided 3).picks 2 * pass ((decided 3).sched.procs 2)| ≤ BIG_STRIDE := by
  have hzero : Reachable Level ShareStep (decided 0) := .first level_waitingBoth
  have hone := hzero.step (decided_step (by decide +kernel))
  have htwo := hone.step (decided_step (by decide +kernel))
  have hthree := htwo.step (decided_step (by decide +kernel))
  exact ⟨by decide +kernel, by decide +kernel, abs_progress_sub_le hthree
    ⟨by decide +kernel, by decide +kernel, by decide +kernel⟩
    ⟨by decide +kernel, by decide +kernel, by decide +kernel⟩⟩

end Ucore.Schedule
