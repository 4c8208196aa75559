import Ucore.Fs.FdArray
import Ucore.Library.Run
import Ucore.Process.Proc
import Mathlib.Algebra.BigOperators.Group.Finset.Piecewise

/-!
# Who uses a `files_struct`

`do_fork`, `do_execve` and `do_exit` as far as they concern the field `filesp` of the processes, with
the files structures that they count, copy and destroy. What these functions are told by the rest of
the kernel is left open: which allocations succeed, and how far a program is loaded.
-/

namespace Ucore.Process

open Library Fs

def CLONE_VM : BitVec 32 := 0x00000100
def CLONE_FS : BitVec 32 := 0x00000800

/-- The negative return codes of `do_fork`. -/
inductive ForkError where
  | noFreeProc
  | noMem
  deriving DecidableEq, Repr

/-- The fields of a process that tell who uses which structures. Structures go by their addresses. -/
structure Task where
  state : ProcState
  mm : Option ℕ
  filesp : Option ℕ
  deriving DecidableEq, Repr

/-- The processes in `proc_list`, the files structures that are allocated, and the counts of the
inodes. -/
structure FilesWorld (Inode : Type) where
  linked : Finset Proc
  task : Proc → Task
  files : ℕ → Option (FilesStruct Inode)
  counts : Counts Inode
  idleproc : Proc
  initproc : Proc

/-- What `do_fork` is told: whether there are too many processes, the addresses that are allocated
for the process, for the copy of the address space and for the files structure, and whether there is
a kernel stack. -/
structure ForkAnswers where
  full : Bool
  proc : Option Proc
  kstack : Bool
  mm : Option ℕ
  filesp : Option ℕ

/-- What the system calls on files leave in the table of the process and in the inodes. -/
structure Contents (Inode : Type) where
  fdArray : ℕ → Slot Inode
  counts : Counts Inode

/-- How far `do_execve` comes. -/
inductive ExecAnswers (Inode : Type) where
  /-- An argument is refused, before anything is changed. -/
  | refused
  | noOpen (contents : Contents Inode)
  | noLoad (contents : Contents Inode)
  | loaded (mm : ℕ) (contents : Contents Inode)

namespace FilesWorld

variable {Inode : Type} [DecidableEq Inode]

def setTask (w : FilesWorld Inode) (proc : Proc) (task : Task) : FilesWorld Inode :=
  { w with task := Function.update w.task proc task }

def setFiles (w : FilesWorld Inode) (filesp : ℕ) (value : Option (FilesStruct Inode)) :
    FilesWorld Inode :=
  { w with files := Function.update w.files filesp value }

/-- A structure that is used after it has been freed is an error as well. -/
def getFiles (w : FilesWorld Inode) (proc : Proc) : Outcome (ℕ × FilesStruct Inode) :=
  match (w.task proc).filesp with
  | none => .error .panic
  | some filesp =>
    match w.files filesp with
    | none => .error .panic
    | some value => .ok (filesp, value)

/-- `copy_files`, which gets a new structure only if it needs one. -/
def copyFiles (w : FilesWorld Inode) (current proc : Proc) (cloneFlags : BitVec 32)
    (alloc : Option ℕ) : Outcome (Except ForkError Unit × FilesWorld Inode) := do
  let (old, value) ← w.getFiles current
  if Has cloneFlags CLONE_FS then
    let w := w.setFiles old (some { value with filesCount := value.filesCount + 1 })
    return (.ok (), w.setTask proc { w.task proc with filesp := some old })
  else
    match alloc with
    | none => return (.error .noMem, w)
    | some filesp =>
      let (counts, copy) ← dupFiles w.counts filesCreate value
      let w := { w with counts }.setFiles filesp
        (some { copy with filesCount := copy.filesCount + 1 })
      return (.ok (), w.setTask proc { w.task proc with filesp := some filesp })

/-- `put_files`. -/
def putFiles (w : FilesWorld Inode) (proc : Proc) : Outcome (FilesWorld Inode) :=
  match (w.task proc).filesp with
  | none => .ok w
  | some filesp => do
    let (_, value) ← w.getFiles proc
    let value := { value with filesCount := value.filesCount - 1 }
    if value.filesCount = 0 then
      let counts ← filesDestroy w.counts value
      return { w with counts }.setFiles filesp none
    else return w.setFiles filesp (some value)

/-- `copy_mm`: the address space of the new process. -/
def copyMm (w : FilesWorld Inode) (current : Proc) (cloneFlags : BitVec 32) (alloc : Option ℕ) :
    Except ForkError (Option ℕ) :=
  match (w.task current).mm with
  | none => .ok none
  | some mm =>
    if Has cloneFlags CLONE_VM then .ok (some mm)
    else match alloc with
      | none => .error .noMem
      | some mm => .ok (some mm)

/-- `do_fork`. Without a kernel stack the error path frees one all the same, at address zero. When
`copy_files` fails, the process is freed while it is in the list, and the code is not an error. -/
def doFork (w : FilesWorld Inode) (current : Proc) (cloneFlags : BitVec 32) (a : ForkAnswers) :
    Outcome (Except ForkError Proc × FilesWorld Inode) := do
  if a.full then return (.error .noFreeProc, w)
  match a.proc with
  | none => return (.error .noMem, w)
  | some proc =>
    Outcome.require a.kstack
    match w.copyMm current cloneFlags a.mm with
    | .error code => return (.error code, w)
    | .ok mm =>
      let w := { w with linked := insert proc w.linked }.setTask proc ⟨.runnable, mm, none⟩
      let (_, w) ← w.copyFiles current proc cloneFlags a.filesp
      return (.ok proc, w)

/-- `do_exit`. -/
def doExit (w : FilesWorld Inode) (current : Proc) : Outcome (FilesWorld Inode) := do
  Outcome.require (current ≠ w.idleproc)
  Outcome.require (current ≠ w.initproc)
  let w ← if (w.task current).mm ≠ none then
      (w.setTask current { w.task current with mm := none }).putFiles current
    else .ok w
  return w.setTask current { w.task current with state := .zombie }

/-- What system calls on files have left. -/
def setContents (w : FilesWorld Inode) (filesp : ℕ) (value : FilesStruct Inode)
    (contents : Contents Inode) : FilesWorld Inode :=
  { w with counts := contents.counts }.setFiles filesp
    (some { value with fdArray := contents.fdArray })

/-- `do_execve`. With the files of the process closed there is no way back but to exit. -/
def doExecve (w : FilesWorld Inode) (current : Proc) :
    ExecAnswers Inode → Outcome (FilesWorld Inode)
  | .refused => .ok w
  | .noOpen contents => do
    let (filesp, value) ← w.getFiles current
    let _ ← filesCloseall w.counts value
    (w.setContents filesp value contents).doExit current
  | .noLoad contents => do
    let (filesp, value) ← w.getFiles current
    let _ ← filesCloseall w.counts value
    let w := w.setContents filesp value contents
    (w.setTask current { w.task current with mm := none }).doExit current
  | .loaded mm contents => do
    let (filesp, value) ← w.getFiles current
    let _ ← filesCloseall w.counts value
    let w := w.setContents filesp value contents
    return w.setTask current { w.task current with mm := some mm }

/-- The process is in the list and has not exited. -/
def Running (w : FilesWorld Inode) (proc : Proc) : Prop :=
  proc ∈ w.linked ∧ (w.task proc).state ≠ .zombie

/-- How many running processes use a files structure. -/
def users (w : FilesWorld Inode) (filesp : ℕ) : ℕ :=
  (w.linked.filter fun proc ↦
    (w.task proc).state ≠ .zombie ∧ (w.task proc).filesp = some filesp).card

end FilesWorld

/-- The system calls that change the processes or what their files structures hold. -/
inductive FilesCall (Inode : Type) where
  | fork (current : Proc) (cloneFlags : BitVec 32) (answers : ForkAnswers)
  | execve (current : Proc) (answers : ExecAnswers Inode)
  | exit (current : Proc)
  /-- `do_wait` has found the process. -/
  | reap (proc : Proc)
  /-- Calls on descriptors and on the working directory. -/
  | onFiles (current : Proc) (pwd : Option Inode) (contents : Contents Inode)

section Steps

variable {Inode : Type} [DecidableEq Inode]

open FilesWorld

/-- What is allocated for a new process is not in use. -/
def FilesStep (w : FilesWorld Inode) (call : FilesCall Inode) (next : FilesWorld Inode) : Prop :=
  match call with
  | .fork current cloneFlags a => w.Running current ∧ (∀ proc ∈ a.proc, proc ∉ w.linked) ∧
    (∀ filesp ∈ a.filesp, w.files filesp = none) ∧
    ∃ ret, w.doFork current cloneFlags a = .ok (ret, next)
  | .execve current a => w.Running current ∧ w.doExecve current a = .ok next
  | .exit current => w.Running current ∧ w.doExit current = .ok next
  | .reap proc => proc ∈ w.linked ∧ (w.task proc).state = .zombie ∧
    next = { w with linked := w.linked.erase proc }
  | .onFiles current pwd contents => w.Running current ∧ ∃ filesp value,
    w.getFiles current = .ok (filesp, value) ∧
    next = w.setContents filesp { value with pwd } contents

/-- The calls whose exits drop the structure: whoever exits has an address space, and a new process
that is to get a structure of its own gets one. -/
def Drops (w : FilesWorld Inode) : FilesCall Inode → Prop
  | .fork current cloneFlags a => a.full = false → a.proc.isSome →
    (w.copyMm current cloneFlags a.mm).isOk → ¬Has cloneFlags CLONE_FS → a.filesp.isSome
  | .execve current (.noOpen _) => (w.task current).mm ≠ none
  | .execve _ (.noLoad _) => False
  | .exit current => (w.task current).mm ≠ none
  | _ => True

def DroppingStep (w : FilesWorld Inode) (call : FilesCall Inode) (next : FilesWorld Inode) : Prop :=
  FilesStep w call next ∧ Drops w call

/-- After `proc_init` has made the first process, which is the only one. -/
structure FirstProc (w : FilesWorld Inode) : Prop where
  linked : w.linked = {w.idleproc}
  task : ∃ filesp, w.task w.idleproc = ⟨.runnable, none, some filesp⟩ ∧
    w.files = Function.update (fun _ ↦ none) filesp (some { filesCreate with filesCount := 1 })

/-- The count of a structure is how many running processes use it, and it is there as long as one
does. -/
structure FilesRight (w : FilesWorld Inode) : Prop where
  count : ∀ filesp value, w.files filesp = some value → value.filesCount = w.users filesp
  there : ∀ filesp, (w.files filesp).isSome ↔ 0 < w.users filesp

/-! ## Counting users -/

variable {w next : FilesWorld Inode} {current proc : Proc} {filesp : ℕ}

def Task.uses (task : Task) (filesp : ℕ) : ℕ :=
  if task.state ≠ .zombie ∧ task.filesp = some filesp then 1 else 0

omit [DecidableEq Inode] in
theorem users_eq_sum (w : FilesWorld Inode) (filesp : ℕ) :
    w.users filesp = ∑ proc ∈ w.linked, (w.task proc).uses filesp := Finset.card_filter _ _

omit [DecidableEq Inode] in
theorem users_setTask (hproc : proc ∈ w.linked) (task : Task) (filesp : ℕ) :
    (w.setTask proc task).users filesp + (w.task proc).uses filesp =
      w.users filesp + task.uses filesp := by
  have hrest : ∑ other ∈ w.linked.erase proc, ((w.setTask proc task).task other).uses filesp =
      ∑ other ∈ w.linked.erase proc, (w.task other).uses filesp := by
    apply Finset.sum_congr rfl
    intro other hother
    have hne := (Finset.mem_erase.mp hother).1
    change (Function.update w.task proc task other).uses filesp = _
    rw [Function.update_of_ne hne]
  have hself : (w.setTask proc task).task proc = task := Function.update_self ..
  rw [users_eq_sum, users_eq_sum, ← Finset.add_sum_erase w.linked _ hproc]
  change ∑ other ∈ w.linked, ((w.setTask proc task).task other).uses filesp + _ = _
  rw [← Finset.add_sum_erase w.linked _ hproc, hrest, hself]
  omega

omit [DecidableEq Inode] in
theorem users_insert (hproc : proc ∉ w.linked) (task : Task) (filesp : ℕ) :
    ({ w with linked := insert proc w.linked }.setTask proc task).users filesp =
      w.users filesp + task.uses filesp := by
  rw [users_eq_sum, users_eq_sum]
  change ∑ other ∈ insert proc w.linked, (Function.update w.task proc task other).uses filesp = _
  rw [Finset.sum_insert hproc, Function.update_self, Nat.add_comm]
  apply congrArg (· + _)
  apply Finset.sum_congr rfl
  intro other hother
  rw [Function.update_of_ne (ne_of_mem_of_not_mem hother hproc)]

omit [DecidableEq Inode] in
theorem users_pos (hrunning : w.Running proc) (hfilesp : (w.task proc).filesp = some filesp) :
    0 < w.users filesp :=
  Finset.card_pos.mpr ⟨proc, Finset.mem_filter.mpr ⟨hrunning.1, hrunning.2, hfilesp⟩⟩

/-- The count of a structure with the given number of users. Without users it is not there. -/
def expected (users : ℕ) : Option ℤ := if users = 0 then none else some users

omit [DecidableEq Inode] in
theorem filesRight_iff : FilesRight w ↔
    ∀ filesp, (w.files filesp).map FilesStruct.filesCount = expected (w.users filesp) := by
  constructor
  · intro h filesp
    have hthere := h.there filesp
    cases hfiles : w.files filesp with
    | none =>
      rw [hfiles] at hthere
      have hzero : w.users filesp = 0 := by
        apply Nat.eq_zero_of_not_pos
        exact fun hpos ↦ Bool.false_ne_true (hthere.mpr hpos)
      rw [expected, if_pos hzero]
      rfl
    | some value =>
      rw [hfiles] at hthere
      rw [expected, if_neg (hthere.mp rfl).ne', ← h.count filesp value hfiles]
      rfl
  · intro h
    constructor
    · intro filesp value hfiles
      have hcount := h filesp
      rw [hfiles, expected] at hcount
      split at hcount
      · cases hcount
      · exact Option.some.inj hcount
    · intro filesp
      rw [← Option.isSome_map (f := FilesStruct.filesCount), h, expected]
      split
      · rename_i hzero
        simp [hzero]
      · rename_i hpos
        simp [Nat.pos_of_ne_zero hpos]

omit [DecidableEq Inode] in
/-- Neither the users nor the counts have changed. -/
theorem FilesRight.same (h : FilesRight w) (husers : ∀ filesp, next.users filesp = w.users filesp)
    (hfiles : ∀ filesp, (next.files filesp).map FilesStruct.filesCount =
      (w.files filesp).map FilesStruct.filesCount) : FilesRight next := by
  apply filesRight_iff.mpr
  intro filesp
  rw [hfiles, husers]
  exact filesRight_iff.mp h filesp

omit [DecidableEq Inode] in
/-- One more user of one structure, which is counted. -/
theorem FilesRight.join (h : FilesRight w) {value : FilesStruct Inode}
    (husers : ∀ other, next.users other = w.users other + if other = filesp then 1 else 0)
    (hfiles : next.files = Function.update w.files filesp (some value))
    (hcount : value.filesCount = w.users filesp + 1) : FilesRight next := by
  apply filesRight_iff.mpr
  intro other
  rw [hfiles, husers]
  by_cases hother : other = filesp
  · subst hother
    rw [Function.update_self, if_pos rfl, expected, if_neg (Nat.succ_ne_zero _), Option.map_some,
      hcount]
    rfl
  · rw [Function.update_of_ne hother, if_neg hother, Nat.add_zero]
    exact filesRight_iff.mp h other

omit [DecidableEq Inode] in
/-- One user of one structure less. The structure is gone if this was the last one. -/
theorem FilesRight.leave (h : FilesRight w) {value : Option (FilesStruct Inode)}
    (husers : ∀ other, w.users other = next.users other + if other = filesp then 1 else 0)
    (hfiles : next.files = Function.update w.files filesp value)
    (hcount : value.map FilesStruct.filesCount = expected (w.users filesp - 1)) :
    FilesRight next := by
  apply filesRight_iff.mpr
  intro other
  rw [hfiles]
  have hother' := husers other
  by_cases hother : other = filesp
  · subst hother
    rw [if_pos rfl] at hother'
    rw [Function.update_self, hcount, hother', Nat.add_sub_cancel]
  · rw [if_neg hother, Nat.add_zero] at hother'
    rw [Function.update_of_ne hother, ← hother']
    exact filesRight_iff.mp h other

omit [DecidableEq Inode] in
theorem getFiles_ok {value : FilesStruct Inode} (h : w.getFiles proc = .ok (filesp, value)) :
    (w.task proc).filesp = some filesp ∧ w.files filesp = some value := by
  unfold getFiles at h
  split at h
  · cases h
  · rename_i hfilesp
    split at h
    · cases h
    · rename_i hfiles
      cases h
      exact ⟨hfilesp, hfiles⟩

omit [DecidableEq Inode] in
theorem uses_of_filesp {task : Task} {filesp other : ℕ} (hstate : task.state ≠ .zombie)
    (hfilesp : task.filesp = some filesp) : task.uses other = if other = filesp then 1 else 0 := by
  unfold Task.uses
  rw [hfilesp]
  by_cases hother : other = filesp
  · subst hother
    rw [if_pos ⟨hstate, rfl⟩, if_pos rfl]
  · rw [if_neg fun hboth ↦ hother (Option.some.inj hboth.2).symm, if_neg hother]

theorem dupFiles_ok {c counts : Counts Inode} {dst src copy : FilesStruct Inode}
    (h : dupFiles c dst src = .ok (counts, copy)) : copy.filesCount = 0 := by
  rcases Outcome.bind_eq_ok.mp h with ⟨_, hrequire, h⟩
  rcases Outcome.bind_eq_ok.mp h with ⟨⟨_, _⟩, -, h⟩
  cases h
  exact (Outcome.require_eq_ok.mp hrequire).1

/-- A new process gets a structure that counts it, if it gets one. -/
theorem FilesRight.doFork (h : FilesRight w) {cloneFlags : BitVec 32} {a : ForkAnswers}
    (hrunning : w.Running current) (hproc : ∀ proc ∈ a.proc, proc ∉ w.linked)
    (hfilesp : ∀ filesp ∈ a.filesp, w.files filesp = none) {ret : Except ForkError Proc}
    (hcall : w.doFork current cloneFlags a = .ok (ret, next)) : FilesRight next := by
  rw [FilesWorld.doFork] at hcall
  split at hcall
  · cases hcall
    exact h
  · split at hcall
    · cases hcall
      exact h
    · rename_i proc hsome
      have hfresh : proc ∉ w.linked := hproc proc hsome
      have hne : current ≠ proc := ne_of_mem_of_not_mem hrunning.1 hfresh
      rcases Outcome.bind_eq_ok.mp hcall with ⟨_, -, hcall⟩
      split at hcall
      · cases hcall
        exact h
      · rename_i mm hmm
        rcases Outcome.bind_eq_ok.mp hcall with ⟨⟨copied, after⟩, hcopy, hcall⟩
        cases hcall
        -- before its files are copied, the new process uses no structure
        let start := { w with linked := insert proc w.linked }.setTask proc ⟨.runnable, mm, none⟩
        have hstart : ∀ other, start.users other = w.users other := fun other ↦
          users_insert hfresh _ other
        have hself : start.task proc = ⟨.runnable, mm, none⟩ := Function.update_self ..
        have hjoined : ∀ (filesp : ℕ) (final : FilesWorld Inode),
            final.linked = start.linked → final.task = Function.update start.task proc
              { start.task proc with filesp := some filesp } →
            ∀ other, final.users other = w.users other + if other = filesp then 1 else 0 := by
          intro filesp final hlinked htask other
          have hin : proc ∈ start.linked := Finset.mem_insert_self ..
          have huses := users_setTask hin { start.task proc with filesp := some filesp } other
          have hnone : (start.task proc).uses other = 0 := by
            rw [hself]
            exact if_neg fun hboth ↦ by cases hboth.2
          have hstate : (start.task proc).state ≠ .zombie := by
            rw [hself]
            exact fun heq ↦ by cases heq
          have hnew : Task.uses { start.task proc with filesp := some filesp } other =
              if other = filesp then 1 else 0 := uses_of_filesp hstate rfl
          rw [hnone, hnew, hstart, Nat.add_zero, users_eq_sum] at huses
          rw [users_eq_sum, hlinked, htask]
          exact huses
        have hget : ∀ filesp value, start.getFiles current = .ok (filesp, value) →
            w.files filesp = some value := fun _ _ hok ↦ (getFiles_ok hok).2
        rcases Outcome.bind_eq_ok.mp hcopy with ⟨⟨old, value⟩, hold, hcopy⟩
        have hvalue := hget old value hold
        dsimp only at hcopy
        split at hcopy
        · cases hcopy
          refine h.join (hjoined old _ rfl rfl) rfl ?_
          exact congrArg (· + 1) (h.count old value hvalue)
        · split at hcopy
          · cases hcopy
            exact h.same hstart fun _ ↦ rfl
          · rename_i filesp halloc
            rcases Outcome.bind_eq_ok.mp hcopy with ⟨⟨counts, copy⟩, hdup, hcopy⟩
            cases hcopy
            have hnone : w.files filesp = none := hfilesp filesp halloc
            have hzero : w.users filesp = 0 := by
              apply Nat.eq_zero_of_not_pos
              intro hpos
              have hsome := (h.there filesp).mpr hpos
              rw [hnone] at hsome
              cases hsome
            refine h.join (hjoined filesp _ rfl rfl) rfl ?_
            change copy.filesCount + 1 = _
            rw [dupFiles_ok hdup, hzero]
            rfl

/-- What `put_files` leaves of the structure. -/
theorem putFiles_ok {value : FilesStruct Inode} (h : w.putFiles proc = .ok next)
    (hfilesp : (w.task proc).filesp = some filesp) (hfiles : w.files filesp = some value) :
    next.linked = w.linked ∧ next.task = w.task ∧ ∃ left,
      next.files = Function.update w.files filesp left ∧ left.map FilesStruct.filesCount =
        if value.filesCount - 1 = 0 then none else some (value.filesCount - 1) := by
  have hget : w.getFiles proc = .ok (filesp, value) := by
    rw [getFiles, hfilesp]
    dsimp only
    rw [hfiles]
  rw [putFiles, hfilesp] at h
  dsimp only at h
  rw [hget] at h
  dsimp only [Outcome.ok_bind] at h
  split at h
  · rename_i hzero
    rcases Outcome.bind_eq_ok.mp h with ⟨counts, -, h⟩
    cases h
    exact ⟨rfl, rfl, none, rfl, (if_pos hzero).symm⟩
  · rename_i hmore
    cases h
    exact ⟨rfl, rfl, _, rfl, (if_neg hmore).symm⟩

/-- A process with an address space gives its structure up when it exits. -/
theorem FilesRight.doExit (h : FilesRight w) (hrunning : w.Running current)
    (hmm : (w.task current).mm ≠ none) (hcall : w.doExit current = .ok next) :
    FilesRight next := by
  rw [FilesWorld.doExit] at hcall
  rcases Outcome.bind_eq_ok.mp hcall with ⟨_, -, hcall⟩
  rcases Outcome.bind_eq_ok.mp hcall with ⟨_, -, hcall⟩
  rw [if_pos hmm] at hcall
  rcases Outcome.bind_eq_ok.mp hcall with ⟨after, hput, hcall⟩
  cases hcall
  let start := w.setTask current { w.task current with mm := none }
  have hself : start.task current = { w.task current with mm := none } := Function.update_self ..
  have hstart : ∀ other, start.users other = w.users other := by
    intro other
    exact Nat.add_right_cancel (users_setTask hrunning.1 _ other)
  -- the process no longer counts as a user of what it has used
  have hleft : ∀ final : FilesWorld Inode, final.linked = start.linked → final.task = start.task →
      ∀ other, w.users other = (final.setTask current
        { final.task current with state := .zombie }).users other +
          ((w.task current).uses other) := by
    intro final hlinked htask other
    have hin : current ∈ final.linked := hlinked ▸ hrunning.1
    have huses := users_setTask hin { final.task current with state := .zombie } other
    have hzero : Task.uses { final.task current with state := .zombie } other = 0 :=
      if_neg fun hboth ↦ hboth.1 rfl
    have hsame : final.users other = w.users other := by
      rw [users_eq_sum, hlinked, htask, ← users_eq_sum, hstart]
    have hold : (final.task current).uses other = (w.task current).uses other := by
      rw [htask, hself]
      rfl
    rw [hzero, hsame, hold] at huses
    exact huses.symm
  cases hfilesp : (w.task current).filesp with
  | none =>
    have hnone : (start.task current).filesp = none := by
      rw [hself]
      exact hfilesp
    rw [putFiles, hnone] at hput
    cases hput
    refine h.same (fun other ↦ ?_) fun _ ↦ rfl
    have hzero : (w.task current).uses other = 0 := by
      refine if_neg fun hboth ↦ ?_
      rw [hfilesp] at hboth
      cases hboth.2
    rw [hleft start rfl rfl other, hzero]
    rfl
  | some filesp =>
    have hpos := users_pos hrunning hfilesp
    rcases Option.isSome_iff_exists.mp ((h.there filesp).mpr hpos) with ⟨value, hvalue⟩
    have hcount := h.count filesp value hvalue
    have hsome : (start.task current).filesp = some filesp := by
      rw [hself]
      exact hfilesp
    rcases putFiles_ok hput hsome hvalue with ⟨hlinked, htask, left, hfiles, hleave⟩
    refine h.leave (fun other ↦ ?_) hfiles ?_
    · rw [hleft after hlinked htask other, uses_of_filesp hrunning.2 hfilesp]
    · rw [hleave, hcount, expected]
      by_cases hone : w.users filesp = 1
      · rw [hone]
        rfl
      · rw [if_neg (by omega), if_neg (by omega), Nat.cast_sub hpos]
        rfl

omit [DecidableEq Inode] in
/-- Calls on files change neither counts of structures nor their users. -/
theorem FilesRight.setContents (h : FilesRight w) {value : FilesStruct Inode}
    (hget : w.getFiles current = .ok (filesp, value)) (pwd : Option Inode)
    (contents : Contents Inode) :
    FilesRight (w.setContents filesp { value with pwd } contents) := by
  refine h.same (fun _ ↦ rfl) fun other ↦ ?_
  change (Function.update w.files filesp _ other).map _ = _
  by_cases hother : other = filesp
  · subst hother
    rw [Function.update_self, (getFiles_ok hget).2]
    rfl
  · rw [Function.update_of_ne hother]

theorem FilesRight.doExecve (h : FilesRight w) {a : ExecAnswers Inode}
    (hrunning : w.Running current) (hdrops : Drops w (.execve current a))
    (hcall : w.doExecve current a = .ok next) : FilesRight next := by
  cases a with
  | refused =>
    cases hcall
    exact h
  | noOpen contents =>
    rcases Outcome.bind_eq_ok.mp hcall with ⟨⟨filesp, value⟩, hget, hcall⟩
    rcases Outcome.bind_eq_ok.mp hcall with ⟨_, -, hcall⟩
    exact (h.setContents hget value.pwd contents).doExit hrunning hdrops hcall
  | noLoad contents => exact hdrops.elim
  | loaded mm contents =>
    rcases Outcome.bind_eq_ok.mp hcall with ⟨⟨filesp, value⟩, hget, hcall⟩
    rcases Outcome.bind_eq_ok.mp hcall with ⟨_, -, hcall⟩
    cases hcall
    refine (h.setContents hget value.pwd contents).same (fun other ↦ ?_) fun _ ↦ rfl
    exact Nat.add_right_cancel (users_setTask hrunning.1 _ other)

theorem FilesRight.step {call : FilesCall Inode} (h : FilesRight w)
    (hstep : DroppingStep w call next) : FilesRight next := by
  rcases hstep with ⟨hstep, hdrops⟩
  cases call with
  | fork current cloneFlags a =>
    rcases hstep with ⟨hrunning, hproc, hfilesp, ret, hcall⟩
    exact h.doFork hrunning hproc hfilesp hcall
  | execve current a => exact h.doExecve hstep.1 hdrops hstep.2
  | exit current => exact h.doExit hstep.1 hdrops hstep.2
  | reap proc =>
    rcases hstep with ⟨hlinked, hzombie, rfl⟩
    refine h.same (fun other ↦ ?_) fun _ ↦ rfl
    rw [users_eq_sum, users_eq_sum, ← Finset.add_sum_erase w.linked _ hlinked]
    have hzero : (w.task proc).uses other = 0 := if_neg fun hboth ↦ hboth.1 hzombie
    rw [hzero, Nat.zero_add]
  | onFiles current pwd contents =>
    rcases hstep with ⟨-, filesp, value, hget, rfl⟩
    exact h.setContents hget pwd contents

theorem FilesRight.runs (h : FilesRight w) {calls : List (FilesCall Inode)}
    (hruns : Runs DroppingStep w calls next) : FilesRight next := by
  induction hruns with
  | nil => exact h
  | cons hstep _ ih => exact ih (h.step hstep)

omit [DecidableEq Inode] in
theorem FirstProc.right (h : FirstProc w) : FilesRight w := by
  rcases h.task with ⟨filesp, htask, hfiles⟩
  have husers : ∀ other, w.users other = if other = filesp then 1 else 0 := by
    intro other
    rw [users_eq_sum, h.linked, Finset.sum_singleton, htask]
    exact uses_of_filesp (fun heq ↦ by cases heq) rfl
  apply filesRight_iff.mpr
  intro other
  rw [husers, hfiles]
  by_cases hother : other = filesp
  · subst hother
    rw [Function.update_self, if_pos rfl]
    rfl
  · rw [Function.update_of_ne hother, if_neg hother]
    rfl

/-- With the last user the working directory is released and every open descriptor closed. -/
theorem putFiles_destroys {value : FilesStruct Inode} (h : w.putFiles proc = .ok next)
    (hfilesp : (w.task proc).filesp = some filesp) (hfiles : w.files filesp = some value)
    (hgone : next.files filesp = none) :
    next.counts.refs = w.counts.refs - value.held ∧
      next.counts.opens = w.counts.opens - value.opened := by
  have hget : w.getFiles proc = .ok (filesp, value) := by
    rw [getFiles, hfilesp]
    dsimp only
    rw [hfiles]
  rw [putFiles, hfilesp] at h
  dsimp only at h
  rw [hget] at h
  dsimp only [Outcome.ok_bind] at h
  split at h
  · rcases Outcome.bind_eq_ok.mp h with ⟨counts, hdestroy, h⟩
    cases h
    have hheld := filesDestroy_ok hdestroy
    exact hheld
  · cases h
    change Function.update w.files filesp _ filesp = none at hgone
    rw [Function.update_self] at hgone
    cases hgone

/-- Where all exits drop their structure and all forks get one, the counts are right in every state.
When a structure goes, what it has held of the inodes is given back. -/
theorem filesRight_of_drops :
    (∀ (start w : FilesWorld Inode) calls, FirstProc start → Runs DroppingStep start calls w →
      FilesRight w) ∧
    ∀ (w next : FilesWorld Inode) proc filesp value, w.putFiles proc = .ok next →
      (w.task proc).filesp = some filesp → w.files filesp = some value →
      next.files filesp = none →
      next.counts.refs = w.counts.refs - value.held ∧
        next.counts.opens = w.counts.opens - value.opened :=
  ⟨fun _ _ _ hstart hruns ↦ hstart.right.runs hruns,
    fun _ _ _ _ _ h hfilesp hfiles hgone ↦ putFiles_destroys h hfilesp hfiles hgone⟩

end Steps

/-! ## The first processes -/

/-- No inode is in use yet. -/
def noCounts : Counts Unit := ⟨fun _ ↦ 0, fun _ ↦ 0, fun _ ↦ false⟩

def firstWorld : FilesWorld Unit where
  linked := {0}
  task := fun _ ↦ ⟨.runnable, none, some 10⟩
  files := Function.update (fun _ ↦ none) 10 (some { filesCreate with filesCount := 1 })
  counts := noCounts
  idleproc := 0
  initproc := 1

theorem firstProc_firstWorld : FirstProc firstWorld := ⟨rfl, 10, rfl, rfl⟩

/-- `init_main` and `user_main` are made, each with a structure of its own. -/
def forkInit : FilesCall Unit := .fork 0 CLONE_VM ⟨false, some 1, true, none, some 11⟩
def forkUser : FilesCall Unit := .fork 1 CLONE_VM ⟨false, some 2, true, none, some 12⟩

set_option maxRecDepth 4096 in
/-- The program of the user process is loaded, and the process exits. -/
theorem runs_exit : ∃ w, Runs DroppingStep firstWorld
    [forkInit, forkUser, .execve 2 (.loaded 30 ⟨fdArrayInit, noCounts⟩), .exit 2] w ∧
    w.files 12 = none := by
  refine Exists.intro _ ⟨.cons ⟨⟨⟨?_, ?_⟩, ?_, ?_, _, rfl⟩, fun _ _ _ _ ↦ rfl⟩
    (.cons ⟨⟨⟨?_, ?_⟩, ?_, ?_, _, rfl⟩, fun _ _ _ _ ↦ rfl⟩
    (.cons ⟨⟨⟨?_, ?_⟩, rfl⟩, trivial⟩
    (.cons ⟨⟨⟨?_, ?_⟩, rfl⟩, Option.some_ne_none 30⟩ .nil))), rfl⟩
  all_goals decide

set_option maxRecDepth 4096 in
theorem putFiles_firstWorld : firstWorld.putFiles 0 = .ok (firstWorld.setFiles 10 none) := by
  rfl

theorem filesRight_of_drops_exit :
    (∃ w, Runs DroppingStep firstWorld
      [forkInit, forkUser, .execve 2 (.loaded 30 ⟨fdArrayInit, noCounts⟩), .exit 2] w ∧
      FilesRight w) ∧
    noCounts.refs = noCounts.refs -
      FilesStruct.held { filesCreate with filesCount := 1 } := by
  rcases runs_exit with ⟨w, hruns, -⟩
  exact ⟨⟨w, hruns, filesRight_of_drops.1 _ _ _ firstProc_firstWorld hruns⟩,
    (filesRight_of_drops.2 _ _ _ 10 _ putFiles_firstWorld rfl rfl rfl).1⟩

/-- The program of the user process is not found. The process exits, and its structure stays. -/
theorem runs_noOpen : ∃ w, Runs FilesStep firstWorld
    [forkInit, forkUser, .execve 2 (.noOpen ⟨fdArrayInit, noCounts⟩)] w ∧
    (w.files 12).isSome ∧ w.users 12 = 0 := by
  refine Exists.intro _ ⟨.cons ⟨⟨?_, ?_⟩, ?_, ?_, _, rfl⟩ (.cons ⟨⟨?_, ?_⟩, ?_, ?_, _, rfl⟩
    (.cons ⟨⟨?_, ?_⟩, rfl⟩ .nil)), rfl, ?_⟩
  all_goals decide

theorem not_filesRight : ¬∀ (start w : FilesWorld Unit) calls, FirstProc start →
    Runs FilesStep start calls w → FilesRight w := by
  intro h
  rcases runs_noOpen with ⟨w, hruns, hfiles, husers⟩
  have hpos := ((h _ _ _ firstProc_firstWorld hruns).there 12).mp hfiles
  exact hpos.ne' husers

end Ucore.Process
