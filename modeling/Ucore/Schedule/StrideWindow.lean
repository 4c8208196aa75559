import Ucore.Schedule.SchedRun
import Mathlib.Algebra.Order.Group.Abs
import Mathlib.Data.Int.ModEq
import Mathlib.Algebra.Order.Ring.Int

/-!
# The window of strides

Strides wrap around and are compared by the sign of their 32-bit difference. This is an order as
long as all competing strides lie within `BIG_STRIDE` of each other. A pick keeps them there, since
the least stride moves on by at most `BIG_STRIDE`; a process that joins may not.
-/

namespace Ucore.Schedule

open Library

/-- The difference of two strides as a signed 32-bit value. -/
def gap (s : Sched) (a b : Proc) : ℤ := int32 ((s.procs a).lab6Stride - (s.procs b).lab6Stride)

def StrideLe (s : Sched) (a b : Proc) : Prop := gap s a b ≤ 0

/-- All competing strides lie in one window. -/
def Window (s : Sched) : Prop :=
  ∀ a b, Contends s a → Contends s b → |gap s a b| ≤ BIG_STRIDE

variable {s next : Sched} {tree : BinaryTree Proc} {a b c proc : Proc}

theorem abs_le_bigStride {value : ℤ} : |value| ≤ BIG_STRIDE ↔ -2 ^ 30 ≤ value ∧ value ≤ 2 ^ 30 := by
  rw [abs_le]
  rfl

@[simp]
theorem gap_self (s : Sched) (a : Proc) : gap s a a = 0 := by simp [gap, int32]

theorem gap_swap (h : |gap s a b| ≤ BIG_STRIDE) : gap s b a = -gap s a b := by
  rw [abs_le_bigStride] at h
  unfold gap int32 at *
  omega

/-- Gaps within the window add up. -/
theorem gap_add (hab : |gap s a b| ≤ BIG_STRIDE) (hbc : |gap s b c| ≤ BIG_STRIDE)
    (hac : |gap s a c| ≤ BIG_STRIDE) : gap s a c = gap s a b + gap s b c := by
  rw [abs_le_bigStride] at hab hbc hac
  unfold gap int32 at *
  omega

theorem gap_congr {other : Sched} (ha : (other.procs a).lab6Stride = (s.procs a).lab6Stride)
    (hb : (other.procs b).lab6Stride = (s.procs b).lab6Stride) : gap other a b = gap s a b := by
  rw [gap, gap, ha, hb]

/-! ## The comparison -/

theorem procStrideCompF_eq_neg_one : procStrideCompF s.procs a b = -1 ↔ gap s a b < 0 := by
  change (if 0 < gap s a b then (1 : ℤ) else if gap s a b = 0 then 0 else -1) = -1 ↔ gap s a b < 0
  split
  · omega
  · split <;> omega

theorem procStrideCompF_nonpos : procStrideCompF s.procs a b ≤ 0 ↔ StrideLe s a b := by
  change (if 0 < gap s a b then (1 : ℤ) else if gap s a b = 0 then 0 else -1) ≤ 0 ↔ gap s a b ≤ 0
  split
  · omega
  · split <;> omega

/-- The branch of a merge agrees with the order, whatever the strides. -/
theorem strideLe_of_before (h : SkewHeap.Before (procStrideCompF s.procs) a b) : StrideLe s a b :=
  (procStrideCompF_eq_neg_one.mp h).le

theorem strideLe_of_not_before (h : ¬SkewHeap.Before (procStrideCompF s.procs) a b) :
    StrideLe s b a := by
  have hgap : ¬gap s a b < 0 := fun hlt ↦ h (procStrideCompF_eq_neg_one.mpr hlt)
  unfold StrideLe gap int32 at *
  omega

theorem StrideLe.trans (hab : StrideLe s a b) (hbc : StrideLe s b c)
    (habClose : |gap s a b| ≤ BIG_STRIDE) (hbcClose : |gap s b c| ≤ BIG_STRIDE)
    (hacClose : |gap s a c| ≤ BIG_STRIDE) : StrideLe s a c := by
  have hadd := gap_add habClose hbcClose hacClose
  unfold StrideLe at *
  omega

theorem isHeap_congr {other : Sched}
    (h : ∀ proc ∈ tree.values, (other.procs proc).lab6Stride = (s.procs proc).lab6Stride)
    (hheap : tree.IsHeap (StrideLe s)) : tree.IsHeap (StrideLe other) := by
  refine hheap.mono fun a ha b hb hle ↦ ?_
  unfold StrideLe at *
  rwa [gap_congr (h a ha) (h b hb)]

theorem isHeap_join (h : tree.IsHeap (StrideLe s)) (proc : Proc) :
    (join (procStrideCompF s.procs) tree proc).IsHeap (StrideLe s) :=
  BinaryTree.IsHeap.meld _ (fun _ _ ↦ strideLe_of_before) (fun _ _ ↦ strideLe_of_not_before) h
    ⟨by simp, by simp, trivial, trivial⟩

theorem isHeap_contenders (h : tree.IsHeap (StrideLe s)) :
    (contenders s tree).IsHeap (StrideLe s) := by
  unfold contenders
  split
  · exact isHeap_join h _
  · exact h

theorem isHeap_withWoken (h : tree.IsHeap (StrideLe s)) (proc : Proc) :
    (withWoken s tree proc).IsHeap (StrideLe s) := by
  unfold withWoken
  split
  · exact isHeap_join h _
  · exact h

/-- Within the window the root of the pool has a least stride. -/
theorem root_least (h : Sound s tree) (hwindow : Window s) (hheap : tree.IsHeap (StrideLe s)) :
    ∀ top left right, contenders s tree = .node top left right →
      ∀ other, Contends s other → StrideLe s top other := by
  intro top left right htree other hother
  have hmem := h.mem_contenders
  have hclose : ∀ a ∈ (contenders s tree).values, ∀ b ∈ (contenders s tree).values,
      |gap s a b| ≤ BIG_STRIDE := fun a ha b hb ↦
    hwindow a b ((hmem a).mp ha) ((hmem b).mp hb)
  refine (isHeap_contenders hheap).root_le (fun a _ ↦ ?_) (fun a ha b hb c hc hab hbc ↦ ?_) ?_
    ((hmem other).mpr hother)
  · simp [StrideLe]
  · exact hab.trans hbc (hclose a ha b hb) (hclose b hb c hc) (hclose a ha c hc)
  · rw [htree]
    rfl

/-! ## Steps -/

/-- A process that becomes runnable does so close to all that compete already. -/
def JoinsClose (s : Sched) : Action → Prop
  | .wakeup proc => (s.procs proc).state ≠ .runnable →
      ∀ other, Contends s other → |gap s proc other| ≤ BIG_STRIDE
  | _ => True

/-- The invariant of runs without far joins. -/
structure Windowed (s : Sched) (tree : BinaryTree Proc) : Prop where
  sound : Sound s tree
  window : Window s
  heap : tree.IsHeap (StrideLe s)

/-- The least stride moves on by at most `BIG_STRIDE`, to the other end of the window at most. -/
theorem abs_gap_picked {other : Proc} (hclose : |gap s proc other| ≤ BIG_STRIDE)
    (hle : StrideLe s proc other)
    (hpicked : (next.procs proc).lab6Stride =
      uint32 ((s.procs proc).lab6Stride + pass (s.procs proc)))
    (hother : (next.procs other).lab6Stride = (s.procs other).lab6Stride) :
    |gap next proc other| ≤ BIG_STRIDE ∧
      gap next proc other = gap s proc other + pass (s.procs proc) := by
  have hpass : pass (s.procs proc) ≤ 2 ^ 30 := pass_le _
  generalize pass (s.procs proc) = step at *
  rw [abs_le_bigStride] at hclose ⊢
  unfold StrideLe gap int32 at *
  rw [hpicked, hother, uint32]
  omega

theorem abs_gap_swap (h : |gap s a b| ≤ BIG_STRIDE) : |gap s b a| ≤ BIG_STRIDE := by
  rwa [gap_swap h, abs_neg]

/-- A pick moves one end of the window. -/
theorem Windowed.of_picked {after : BinaryTree Proc} (h : Windowed s tree)
    (hafter : Sound next after) (hframe : Frame s next)
    (hpicked : Picked s next (contenders s tree) after) : Windowed next after := by
  have hleast := root_least h.sound h.window h.heap
  have hnodup := h.sound.nodup_contenders
  have hheap := isHeap_contenders h.heap
  have hmem := h.sound.mem_contenders
  generalize contenders s tree = picked at hpicked hleast hnodup hheap hmem
  cases hpicked with
  | idle _ hstride =>
    refine ⟨hafter, fun a b ha hb ↦ ?_, trivial⟩
    rw [gap_congr (hstride a) (hstride b)]
    exact h.window a b ((hframe.contends_iff a).mp ha) ((hframe.contends_iff b).mp hb)
  | @proc proc left right _ hpicked hstride =>
    rcases hheap with ⟨-, -, hleft, hright⟩
    rw [BinaryTree.values_node, List.nodup_cons, List.mem_append, not_or] at hnodup
    have hproc : Contends s proc := (hmem proc).mp (by simp)
    have hmoved : ∀ other, Contends s other → other ≠ proc → |gap next proc other| ≤ BIG_STRIDE :=
      fun other hother hne ↦ (abs_gap_picked (h.window proc other hproc hother)
        (hleast proc left right rfl other hother) hpicked (hstride other hne)).1
    refine ⟨hafter, fun a b ha hb ↦ ?_, BinaryTree.IsHeap.meld _ (fun _ _ ↦ strideLe_of_before)
      (fun _ _ ↦ strideLe_of_not_before) (isHeap_congr (fun other hother ↦ ?_) hleft)
      (isHeap_congr (fun other hother ↦ ?_) hright)⟩
    · rw [hframe.contends_iff] at ha hb
      by_cases hap : a = proc
      · by_cases hbp : b = proc
        · rw [hap, hbp, gap_self, abs_zero]
          exact Int.natCast_nonneg _
        · exact hap ▸ hmoved b hb hbp
      · by_cases hbp : b = proc
        · exact hbp ▸ abs_gap_swap (hmoved a ha hap)
        · rw [gap_congr (hstride a hap) (hstride b hbp)]
          exact h.window a b ha hb
    · exact hstride other fun heq ↦ hnodup.1.1 (heq ▸ hother)
    · exact hstride other fun heq ↦ hnodup.1.2 (heq ▸ hother)

theorem Windowed.step {action : Action} {after : BinaryTree Proc} (h : Windowed s tree)
    (hafter : Sound next after) (heffect : Effect s next tree action after)
    (hjoin : JoinsClose s action) : Windowed next after := by
  cases heffect with
  | schedule hframe hpicked => exact h.of_picked hafter hframe hpicked
  | @wakeup proc hlive hframe =>
    have hstride : ∀ other, (next.procs other).lab6Stride = (s.procs other).lab6Stride :=
      fun other ↦ (hframe.stride other).trans (awake_stride s proc other)
    have hcontends : ∀ other, Contends next other → Contends s other ∨
        other = proc ∧ (s.procs proc).state ≠ .runnable := by
      intro other hother
      rw [hframe.contends_iff, Sound.contends_awake_iff hlive] at hother
      rcases hother with hother | ⟨heq, hidle⟩
      · exact Or.inl hother
      · by_cases hrunnable : (s.procs proc).state = .runnable
        · exact Or.inl (heq ▸ ⟨hlive, hrunnable, hidle⟩)
        · exact Or.inr ⟨heq, hrunnable⟩
    refine ⟨hafter, fun a b ha hb ↦ ?_, ?_⟩
    · rw [gap_congr (hstride a) (hstride b)]
      rcases hcontends a ha with ha | ⟨rfl, hstate⟩
      · rcases hcontends b hb with hb | ⟨rfl, hstate⟩
        · exact h.window a b ha hb
        · exact abs_gap_swap (hjoin hstate a ha)
      · rcases hcontends b hb with hb | ⟨rfl, -⟩
        · exact hjoin hstate b hb
        · rw [gap_self, abs_zero]
          exact Int.natCast_nonneg _
    · exact isHeap_congr (fun other _ ↦ hstride other) (isHeap_withWoken h.heap proc)
  | quiet hcurrent hcontends hstride =>
    refine ⟨hafter, fun a b ha hb ↦ ?_, ?_⟩
    · have ha := hcontends a ha
      have hb := hcontends b hb
      rw [gap_congr (hstride a ha.1) (hstride b hb.1)]
      exact h.window a b ha hb
    · refine isHeap_congr (fun other hother ↦ ?_) h.heap
      exact hstride other ((h.sound.mem_values other).mp hother).1.1

theorem windowed_of_reachable
    (h : Reachable Booted (fun s next ↦ ∃ action, Step s action next ∧ JoinsClose s action) s) :
    ∃ tree, Windowed s tree := by
  induction h with
  | @first s hbooted =>
    refine ⟨.nil, Sound.of_booted hbooted, fun a b ha ↦ ?_, trivial⟩
    have hlive := ha.1
    rw [hbooted.live, Finset.mem_singleton] at hlive
    exact absurd hlive ha.2.2
  | step _ hstep ih =>
    rcases ih with ⟨tree, hwindowed⟩
    rcases hstep with ⟨action, hstep, hjoin⟩
    rcases hwindowed.sound.step hstep with ⟨after, hafter, heffect⟩
    exact ⟨after, hwindowed.step hafter heffect hjoin⟩

/-! ## The order -/

/-- Strides before they wrapped around: they agree with the strides modulo `2 ^ 32`, and lie as
close together. -/
structure Unwraps (s : Sched) (unwrapped : Proc → ℤ) : Prop where
  agrees : ∀ proc, Contends s proc →
    unwrapped proc ≡ ((s.procs proc).lab6Stride : ℤ) [ZMOD 2 ^ 32]
  close : ∀ a b, Contends s a → Contends s b → |unwrapped a - unwrapped b| ≤ BIG_STRIDE

/-- What the window is good for. The strides in the pool lie close together, so that the
comparison is a total preorder there, and the process that `schedule` turns to has the least
unwrapped stride of all that compete. -/
structure Ordered (s : Sched) : Prop where
  pool : ∃ tree, s.entries.Linked tree ∧ s.rq.lab6RunPool = tree.root ∧
    ∀ proc ∈ tree.values, Contends s proc
  window : Window s
  total : ∀ a b, Contends s a → Contends s b →
    procStrideCompF s.procs a b ≤ 0 ∨ procStrideCompF s.procs b a ≤ 0
  transitive : ∀ a b c, Contends s a → Contends s b → Contends s c →
    procStrideCompF s.procs a b ≤ 0 → procStrideCompF s.procs b c ≤ 0 →
      procStrideCompF s.procs a c ≤ 0
  unwraps : ∃ unwrapped, Unwraps s unwrapped
  least : ∀ next, Returns (fun fuel ↦ schedule fuel s) next → ∀ unwrapped, Unwraps s unwrapped →
    ∀ proc, Contends s proc →
      Contends s next.current ∧ unwrapped next.current ≤ unwrapped proc

/-- The gap is the difference of the unwrapped strides. -/
theorem Unwraps.gap_eq {unwrapped : Proc → ℤ} (h : Unwraps s unwrapped) (ha : Contends s a)
    (hb : Contends s b) : gap s a b = unwrapped a - unwrapped b := by
  have hclose := h.close a b ha hb
  have hagrees := (h.agrees a ha).sub (h.agrees b hb)
  rw [abs_le_bigStride] at hclose
  unfold Int.ModEq at hagrees
  unfold gap int32
  omega

theorem Unwraps.window {unwrapped : Proc → ℤ} (h : Unwraps s unwrapped) : Window s :=
  fun a b ha hb ↦ h.gap_eq ha hb ▸ h.close a b ha hb

theorem exists_unwraps (hwindow : Window s) : ∃ unwrapped, Unwraps s unwrapped := by
  by_cases hnone : ∃ base, Contends s base
  · rcases hnone with ⟨base, hbase⟩
    refine ⟨fun proc ↦ (s.procs base).lab6Stride + gap s proc base, fun proc hproc ↦ ?_,
      fun a b ha hb ↦ ?_⟩
    · unfold Int.ModEq gap int32
      omega
    · have hclose := hwindow a b ha hb
      have hadd := gap_add hclose (hwindow b base hb hbase) (hwindow a base ha hbase)
      simpa [hadd] using hclose
  · exact ⟨fun _ ↦ 0, fun proc hproc ↦ absurd ⟨proc, hproc⟩ hnone,
      fun a _ ha ↦ absurd ⟨a, ha⟩ hnone⟩

theorem Windowed.ordered (h : Windowed s tree) : Ordered s where
  pool := ⟨tree, h.sound.pooled.linked, h.sound.pooled.root,
    fun proc hproc ↦ ((h.sound.mem_values proc).mp hproc).1⟩
  window := h.window
  total a b ha hb := by
    rw [procStrideCompF_nonpos, procStrideCompF_nonpos, StrideLe, StrideLe,
      gap_swap (h.window a b ha hb)]
    omega
  transitive a b c ha hb hc hab hbc := by
    rw [procStrideCompF_nonpos] at *
    exact hab.trans hbc (h.window a b ha hb) (h.window b c hb hc) (h.window a c ha hc)
  unwraps := exists_unwraps h.window
  least next hcall unwrapped hunwraps proc hproc := by
    rcases h.sound.schedule with ⟨other, after, hother, -, hpicked, -⟩
    rw [hother.unique hcall] at hpicked
    have hleast := root_least h.sound h.window h.heap
    have hmem := h.sound.mem_contenders
    generalize contenders s tree = picked at hpicked hleast hmem
    cases hpicked with
    | idle _ _ => exact absurd ((hmem proc).mpr hproc) (by simp)
    | @proc top left right hcurrent _ _ =>
      have htop : Contends s top := (hmem top).mp (by simp)
      have hle := hleast top left right rfl proc hproc
      rw [StrideLe, hunwraps.gap_eq htop hproc] at hle
      exact ⟨hcurrent ▸ htop, by rw [hcurrent]; omega⟩

/-- In every run in which processes only join close to the others, all strides keep within one
window, and the scheduler picks by their order. -/
theorem ordered_of_reachable
    (h : Reachable Booted (fun s next ↦ ∃ action, Step s action next ∧ JoinsClose s action) s) :
    Ordered s := by
  rcases windowed_of_reachable h with ⟨tree, hwindowed⟩
  exact hwindowed.ordered

theorem ordered_running : running.current = 1 ∧ Ordered running := by
  refine ⟨rfl, ordered_of_reachable (.step (.step (.step (.first booted_booted)
    ⟨_, forked_step, trivial⟩) ⟨_, waiting_step, fun _ other hother ↦ ?_⟩)
    ⟨_, running_step, trivial⟩)⟩
  -- nothing competes with the first process
  have hlive : other = 1 ∨ other = 0 := by simpa [forked, booted] using hother.1
  rcases hlive with rfl | rfl
  · exact absurd hother.2.1 (by decide)
  · exact absurd rfl hother.2.2

/-! ## A far join -/

/-- The first process has been picked twice, and its stride is `2 ^ 31`. -/
def runningOn : Sched := (schedule 0 running).toOption.getD running

/-- It sleeps. -/
def asleep : Sched :=
  runningOn.store 1 { runningOn.procs 1 with state := .sleeping, waitState := WT_CHILD }

/-- `idleproc` runs. -/
def idling : Sched := (schedule 0 asleep).toOption.getD asleep

/-- It is woken, while a second process is forked at address 2. -/
def rejoined : Sched := (wakeupProc 0 idling 1).toOption.getD idling

def forkedTwo : Sched :=
  { rejoined.store 2 allocProc with
    entries := skewHeapInit rejoined.entries 2
    live := insert 2 rejoined.live }

/-- The second process joins with stride 0. -/
def far : Sched := (wakeupProc 1 forkedTwo 2).toOption.getD forkedTwo

theorem far_reachable : Reachable Booted (fun s next ↦ ∃ action, Step s action next) far := by
  have hrunning : Reachable Booted (fun s next ↦ ∃ action, Step s action next) running :=
    .step (.step (.step (.first booted_booted) ⟨_, forked_step⟩) ⟨_, waiting_step⟩) ⟨_, running_step⟩
  have hrunningOn : Step running .schedule runningOn :=
    .schedule ((settles_schedule running).returns_getD running (by decide +kernel))
  have hasleep : Step runningOn (.sleep WT_CHILD) asleep :=
    .sleep (by decide +kernel) (by decide +kernel)
  have hidling : Step asleep .schedule idling :=
    .schedule ((settles_schedule asleep).returns_getD asleep (by decide +kernel))
  have hrejoined : Step idling (.wakeup 1) rejoined := .wakeup (by decide +kernel)
    ((settles_wakeupProc idling 1).returns_getD idling (by decide +kernel))
  have hforkedTwo : Step rejoined (.create 2) forkedTwo :=
    .create (by decide +kernel) (by decide +kernel)
  have hfar : Step forkedTwo (.wakeup 2) far := .wakeup (by decide +kernel)
    ((settles_wakeupProc forkedTwo 2).returns_getD forkedTwo (by decide +kernel))
  exact (((((hrunning.step ⟨_, hrunningOn⟩).step ⟨_, hasleep⟩).step ⟨_, hidling⟩).step
    ⟨_, hrejoined⟩).step ⟨_, hforkedTwo⟩).step ⟨_, hfar⟩

theorem not_window_far : ¬∀ s, Reachable Booted (fun s next ↦ ∃ action, Step s action next) s →
    ∀ a b, Contends s a → a ≠ s.current → Contends s b → b ≠ s.current →
      |gap s a b| ≤ BIG_STRIDE := by
  intro h
  have hone : Contends far 1 := ⟨by decide +kernel, by decide +kernel, by decide +kernel⟩
  have htwo : Contends far 2 := ⟨by decide +kernel, by decide +kernel, by decide +kernel⟩
  exact absurd (h far far_reachable 1 2 hone (by decide +kernel) htwo (by decide +kernel))
    (by decide +kernel)

end Ucore.Schedule
