import Mathlib.Data.List.Basic
import Mathlib.Logic.Function.Basic
import Mathlib.Tactic.Common

/-!
# Counting semaphores

Semaphores that hand a permit over to the process that has waited longest, so that a permit is
never counted while somebody waits for it. Each one remembers how many permits were put in and taken
out, and in which order processes came to wait and were served.
-/

namespace Ucore.Library

/-! ## One semaphore -/

/-- A semaphore with its past. -/
structure Semaphore (Process : Type) where
  value : ℕ
  waiting : List Process
  init : ℕ
  ups : ℕ
  passed : ℕ
  arrived : List Process
  granted : List Process

namespace Semaphore

variable {Process : Type} {t : Semaphore Process} {process : Process}

def start (init : ℕ) : Semaphore Process := ⟨init, [], init, 0, 0, [], []⟩

/-- A permit is put in: for the process that waits longest, if there is one. -/
def up (t : Semaphore Process) : Semaphore Process :=
  match t.waiting with
  | [] => { t with value := t.value + 1, ups := t.ups + 1 }
  | first :: rest =>
    { t with
      waiting := rest
      ups := t.ups + 1
      passed := t.passed + 1
      granted := t.granted ++ [first] }

def take (t : Semaphore Process) : Semaphore Process :=
  { t with value := t.value - 1, passed := t.passed + 1 }

def wait (t : Semaphore Process) (process : Process) : Semaphore Process :=
  { t with waiting := t.waiting ++ [process], arrived := t.arrived ++ [process] }

/-- No permit is lost, none is given twice, and nobody overtakes. -/
structure Fair (t : Semaphore Process) : Prop where
  idle : 0 < t.value → t.waiting = []
  permits : t.passed + t.value = t.init + t.ups
  order : t.granted ++ t.waiting = t.arrived
  nodup : t.waiting.Nodup

theorem fair_start (init : ℕ) : Fair (start init : Semaphore Process) :=
  ⟨fun _ ↦ rfl, Nat.zero_add _, rfl, List.nodup_nil⟩

theorem up_of_nil (h : t.waiting = []) : t.up = { t with value := t.value + 1, ups := t.ups + 1 } := by
  unfold up
  rw [h]

theorem up_of_cons {rest : List Process} (h : t.waiting = process :: rest) :
    t.up = { t with
      waiting := rest
      ups := t.ups + 1
      passed := t.passed + 1
      granted := t.granted ++ [process] } := by
  unfold up
  rw [h]

namespace Fair

theorem up (h : Fair t) : Fair t.up := by
  have hpermits := h.permits
  cases hwaiting : t.waiting with
  | nil =>
    rw [up_of_nil hwaiting]
    exact ⟨fun _ ↦ hwaiting, by dsimp only; omega, h.order, h.nodup⟩
  | cons first rest =>
    have horder := h.order
    have hnodup := h.nodup
    rw [hwaiting] at horder hnodup
    rw [up_of_cons hwaiting]
    refine ⟨fun hvalue ↦ ?_, by dsimp only; omega, ?_, (List.nodup_cons.mp hnodup).2⟩
    · have hnone := h.idle hvalue
      rw [hwaiting] at hnone
      cases hnone
    · exact (List.append_assoc ..).trans horder

theorem take (h : Fair t) (hvalue : 0 < t.value) : Fair t.take := by
  have hpermits := h.permits
  exact ⟨fun _ ↦ h.idle hvalue, by unfold Semaphore.take; dsimp only; omega, h.order, h.nodup⟩

theorem wait (h : Fair t) (hvalue : t.value = 0) (hfresh : process ∉ t.waiting) :
    Fair (t.wait process) := by
  refine ⟨fun hpos ↦ absurd hpos (hvalue ▸ Nat.lt_irrefl 0), h.permits, ?_, ?_⟩
  · exact (List.append_assoc ..).symm.trans (congrArg (· ++ [process]) h.order)
  · exact List.nodup_append.mpr ⟨h.nodup, List.nodup_cons.mpr ⟨List.not_mem_nil, List.nodup_nil⟩,
      fun one hone two htwo heq ↦ hfresh (List.mem_singleton.mp htwo ▸ heq ▸ hone)⟩

end Fair

end Semaphore

/-! ## Several semaphores -/

/-- What a process is doing. One that was handed a permit goes on later. -/
inductive Stage (Sem : Type) where
  | running
  | waiting (sem : Sem)
  | granted (sem : Sem)
  deriving DecidableEq

/-- A group of semaphores with the processes that use them. -/
structure Semaphores (Sem Process : Type) where
  sem : Sem → Semaphore Process
  stage : Process → Stage Sem

namespace Semaphores

variable {Sem Process : Type}

def start (init : Sem → ℕ) : Semaphores Sem Process := ⟨fun sem ↦ .start (init sem), fun _ ↦ .running⟩

/-- Each of them is fair, and a process waits where it is said to. -/
structure Fair (s : Semaphores Sem Process) : Prop where
  fair : ∀ sem, (s.sem sem).Fair
  stage : ∀ sem process, process ∈ (s.sem sem).waiting ↔ s.stage process = .waiting sem

theorem fair_start (init : Sem → ℕ) : Fair (start init : Semaphores Sem Process) := by
  refine ⟨fun sem ↦ Semaphore.fair_start _, fun sem process ↦ iff_of_false List.not_mem_nil ?_⟩
  intro h
  cases h

variable {s : Semaphores Sem Process} {sem other : Sem} {process asker : Process}
  {t : Semaphore Process} {stage : Stage Sem}

section Set

variable [DecidableEq Sem]

def set (s : Semaphores Sem Process) (sem : Sem) (t : Semaphore Process) : Semaphores Sem Process :=
  { s with sem := Function.update s.sem sem t }

@[simp]
theorem set_self : (s.set sem t).sem sem = t := Function.update_self ..

theorem set_of_ne (h : other ≠ sem) : (s.set sem t).sem other = s.sem other :=
  Function.update_of_ne h ..

@[simp]
theorem set_stage : (s.set sem t).stage = s.stage := rfl

end Set

section SetStage

variable [DecidableEq Process]

def setStage (s : Semaphores Sem Process) (process : Process) (stage : Stage Sem) :
    Semaphores Sem Process :=
  { s with stage := Function.update s.stage process stage }

@[simp]
theorem setStage_self : (s.setStage process stage).stage process = stage := Function.update_self ..

theorem setStage_of_ne (h : asker ≠ process) :
    (s.setStage process stage).stage asker = s.stage asker := Function.update_of_ne h ..

@[simp]
theorem setStage_sem : (s.setStage process stage).sem = s.sem := rfl

/-- A process that was handed a permit goes on with it. -/
def resume (s : Semaphores Sem Process) (process : Process) : Semaphores Sem Process :=
  s.setStage process .running

theorem Fair.resume (h : Fair s) (hgranted : s.stage process = .granted other) :
    Fair (s.resume process) := by
  refine ⟨h.fair, fun sem asker ↦ ?_⟩
  have hasker := h.stage sem asker
  unfold Semaphores.resume
  by_cases hsame : asker = process
  · subst hsame
    rw [hgranted] at hasker
    rw [setStage_self, setStage_sem, hasker]
    exact iff_of_false (by simp) (by simp)
  · rw [setStage_of_ne hsame]
    exact hasker

end SetStage

variable [DecidableEq Sem]

def tryDown (s : Semaphores Sem Process) (sem : Sem) : Semaphores Sem Process :=
  if 0 < (s.sem sem).value then s.set sem (s.sem sem).take else s

namespace Fair

/-- A semaphore for which nobody waits can be set up again. -/
theorem start (h : Fair s) (hnone : (s.sem sem).waiting = []) (init : ℕ) :
    Fair (s.set sem (.start init)) := by
  refine ⟨fun other ↦ ?_, fun other asker ↦ ?_⟩
  all_goals by_cases heq : other = sem
  · subst heq
    rw [set_self]
    exact Semaphore.fair_start init
  · rw [set_of_ne heq]
    exact h.fair other
  · subst heq
    rw [set_self, set_stage, ← h.stage, hnone]
    rfl
  · rw [set_of_ne heq]
    exact h.stage other asker

theorem take (h : Fair s) (hvalue : 0 < (s.sem sem).value) :
    Fair (s.set sem (s.sem sem).take) := by
  refine ⟨fun other ↦ ?_, fun other asker ↦ ?_⟩
  all_goals by_cases heq : other = sem
  · subst heq
    rw [set_self]
    exact (h.fair other).take hvalue
  · rw [set_of_ne heq]
    exact h.fair other
  · subst heq
    rw [set_self]
    exact h.stage other asker
  · rw [set_of_ne heq]
    exact h.stage other asker

theorem tryDown (h : Fair s) (sem : Sem) : Fair (s.tryDown sem) := by
  unfold Semaphores.tryDown
  split
  · exact h.take ‹_›
  · exact h

end Fair

variable [DecidableEq Process]

/-- A permit is put in, and the process that it is handed to has one. -/
def up (s : Semaphores Sem Process) (sem : Sem) : Semaphores Sem Process :=
  match (s.sem sem).waiting with
  | [] => s.set sem (s.sem sem).up
  | first :: _ => (s.set sem (s.sem sem).up).setStage first (.granted sem)

/-- A permit is asked for. -/
def down (s : Semaphores Sem Process) (sem : Sem) (process : Process) : Semaphores Sem Process :=
  if 0 < (s.sem sem).value then s.set sem (s.sem sem).take
  else (s.set sem ((s.sem sem).wait process)).setStage process (.waiting sem)

/-! ### Who leaves a queue -/

theorem mem_tryDown (hmem : process ∈ (s.sem sem).waiting) :
    process ∈ ((s.tryDown other).sem sem).waiting := by
  unfold Semaphores.tryDown
  split
  · by_cases heq : sem = other
    · subst heq
      rw [set_self]
      exact hmem
    · rw [set_of_ne heq]
      exact hmem
  · exact hmem

theorem mem_down (hmem : process ∈ (s.sem sem).waiting) :
    process ∈ ((s.down other asker).sem sem).waiting := by
  unfold Semaphores.down
  split
  all_goals by_cases heq : sem = other
  · subst heq
    rw [set_self]
    exact hmem
  · rw [set_of_ne heq]
    exact hmem
  · subst heq
    rw [setStage_sem, set_self]
    exact List.mem_append_left _ hmem
  · rw [setStage_sem, set_of_ne heq]
    exact hmem

/-- Only a permit that is put in takes a process out of a queue, and it is the first one. -/
theorem mem_up (other : Sem) (hmem : process ∈ (s.sem sem).waiting) :
    process ∈ ((s.up other).sem sem).waiting ∨ other = sem ∧
      (s.sem sem).waiting = process :: ((s.up other).sem sem).waiting ∧
      (s.up other).stage process = .granted sem := by
  unfold Semaphores.up
  cases hwaiting : (s.sem other).waiting with
  | nil =>
    left
    by_cases heq : sem = other
    · subst heq
      rw [hwaiting] at hmem
      cases hmem
    · dsimp only
      rw [set_of_ne heq]
      exact hmem
  | cons first rest =>
    dsimp only
    rw [setStage_sem]
    by_cases heq : sem = other
    · subst heq
      rw [set_self, Semaphore.up_of_cons hwaiting]
      rw [hwaiting, List.mem_cons] at hmem
      rcases hmem with rfl | hrest
      · exact Or.inr ⟨rfl, hwaiting, setStage_self⟩
      · exact Or.inl hrest
    · rw [set_of_ne heq]
      exact Or.inl hmem

namespace Fair

theorem up (h : Fair s) (sem : Sem) : Fair (s.up sem) := by
  have hfair : ∀ other, ((s.set sem (s.sem sem).up).sem other).Fair := by
    intro other
    by_cases heq : other = sem
    · subst heq
      rw [set_self]
      exact (h.fair other).up
    · rw [set_of_ne heq]
      exact h.fair other
  unfold Semaphores.up
  cases hwaiting : (s.sem sem).waiting with
  | nil =>
    refine ⟨hfair, fun other asker ↦ ?_⟩
    by_cases heq : other = sem
    · subst heq
      rw [set_self, Semaphore.up_of_nil hwaiting]
      exact h.stage other asker
    · rw [set_of_ne heq]
      exact h.stage other asker
  | cons first rest =>
    refine ⟨hfair, fun other asker ↦ ?_⟩
    have hnodup := (h.fair sem).nodup
    rw [hwaiting] at hnodup
    have hfirst : s.stage first = .waiting sem :=
      (h.stage sem first).mp (hwaiting ▸ List.mem_cons_self)
    have hasker := h.stage other asker
    rw [setStage_sem]
    by_cases heq : other = sem
    · subst heq
      rw [set_self, Semaphore.up_of_cons hwaiting]
      rw [hwaiting, List.mem_cons] at hasker
      by_cases hsame : asker = first
      · subst hsame
        rw [setStage_self]
        exact iff_of_false (List.nodup_cons.mp hnodup).1 (by simp)
      · rw [setStage_of_ne hsame, set_stage, ← hasker]
        exact ⟨Or.inr, fun hmem ↦ hmem.resolve_left hsame⟩
    · rw [set_of_ne heq]
      by_cases hsame : asker = first
      · subst hsame
        rw [setStage_self, hasker, hfirst]
        exact iff_of_false (fun hboth ↦ heq (Stage.waiting.inj hboth).symm) (by simp)
      · rw [setStage_of_ne hsame]
        exact hasker

theorem down (h : Fair s) (sem : Sem) (hrunning : s.stage process = .running) :
    Fair (s.down sem process) := by
  have hfresh : ∀ other, process ∉ (s.sem other).waiting := by
    intro other hmem
    rw [h.stage, hrunning] at hmem
    cases hmem
  unfold Semaphores.down
  split
  · exact h.take ‹_›
  · rename_i hvalue
    refine ⟨fun other ↦ ?_, fun other asker ↦ ?_⟩
    · rw [setStage_sem]
      by_cases heq : other = sem
      · subst heq
        rw [set_self]
        exact (h.fair other).wait (Nat.eq_zero_of_not_pos hvalue) (hfresh other)
      · rw [set_of_ne heq]
        exact h.fair other
    · have hasker := h.stage other asker
      rw [setStage_sem]
      by_cases hsame : asker = process
      · subst hsame
        rw [setStage_self, Stage.waiting.injEq]
        by_cases heq : other = sem
        · subst heq
          rw [set_self]
          exact iff_of_true (List.mem_append_right _ List.mem_cons_self) rfl
        · rw [set_of_ne heq]
          exact iff_of_false (hfresh other) fun hother ↦ heq hother.symm
      · rw [setStage_of_ne hsame, set_stage, ← hasker]
        by_cases heq : other = sem
        · subst heq
          rw [set_self]
          exact List.mem_append.trans
            ⟨fun hmem ↦ hmem.resolve_right fun hlast ↦ hsame (List.mem_singleton.mp hlast), Or.inl⟩
        · rw [set_of_ne heq]

end Fair

/-! ### What happens to the others -/

theorem up_sem_of_ne (h : other ≠ sem) : (s.up sem).sem other = s.sem other := by
  unfold Semaphores.up
  split
  · exact set_of_ne h
  · exact set_of_ne h

theorem down_sem_of_ne (h : other ≠ sem) : (s.down sem process).sem other = s.sem other := by
  unfold Semaphores.down
  split
  · exact set_of_ne h
  · exact set_of_ne h

theorem tryDown_sem_of_ne (h : other ≠ sem) : (s.tryDown sem).sem other = s.sem other := by
  unfold Semaphores.tryDown
  split
  · exact set_of_ne h
  · rfl

@[simp]
theorem tryDown_stage : (s.tryDown sem).stage = s.stage := by
  unfold Semaphores.tryDown
  split <;> rfl

/-- A permit is counted, or handed to a process that waits. -/
theorem Fair.up_cases (h : Fair s) (sem : Sem) :
    (∀ process, s.stage process ≠ .waiting sem) ∧ (s.up sem).stage = s.stage ∧
        ((s.up sem).sem sem).value = (s.sem sem).value + 1 ∨
      ∃ process, s.stage process = .waiting sem ∧ (s.sem sem).value = 0 ∧
        (s.up sem).stage = Function.update s.stage process (.granted sem) ∧
        ((s.up sem).sem sem).value = 0 := by
  cases hwaiting : (s.sem sem).waiting with
  | nil =>
    have hup : s.up sem = s.set sem (s.sem sem).up := by
      unfold Semaphores.up
      rw [hwaiting]
    refine Or.inl ⟨fun process hstage ↦ ?_, hup ▸ rfl, ?_⟩
    · have hmem := (h.stage sem process).mpr hstage
      rw [hwaiting] at hmem
      cases hmem
    · rw [hup, set_self, Semaphore.up_of_nil hwaiting]
  | cons first rest =>
    have hup : s.up sem = (s.set sem (s.sem sem).up).setStage first (.granted sem) := by
      unfold Semaphores.up
      rw [hwaiting]
    have hzero : (s.sem sem).value = 0 := by
      by_contra hpos
      have hnone := (h.fair sem).idle (Nat.pos_of_ne_zero hpos)
      rw [hwaiting] at hnone
      cases hnone
    refine Or.inr ⟨first, (h.stage sem first).mp (hwaiting ▸ List.mem_cons_self), hzero, hup ▸ rfl,
      ?_⟩
    rw [hup, setStage_sem, set_self, Semaphore.up_of_cons hwaiting]
    exact hzero

/-- A permit is taken, or the process comes to wait. -/
theorem down_cases (s : Semaphores Sem Process) (sem : Sem) (process : Process) :
    0 < (s.sem sem).value ∧ (s.down sem process).stage = s.stage ∧
        ((s.down sem process).sem sem).value = (s.sem sem).value - 1 ∨
      (s.sem sem).value = 0 ∧
        (s.down sem process).stage = Function.update s.stage process (.waiting sem) ∧
        ((s.down sem process).sem sem).value = 0 := by
  unfold Semaphores.down
  by_cases hpos : 0 < (s.sem sem).value
  · rw [if_pos hpos]
    exact Or.inl ⟨hpos, rfl, congrArg Semaphore.value set_self⟩
  · rw [if_neg hpos]
    have hzero := Nat.eq_zero_of_not_pos hpos
    exact Or.inr ⟨hzero, rfl, (congrArg Semaphore.value set_self).trans hzero⟩

end Semaphores

end Ucore.Library
