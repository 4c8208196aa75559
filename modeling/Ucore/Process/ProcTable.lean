import Ucore.Libs.Defs
import Ucore.Libs.List
import Ucore.Process.Proc

/-!
# The process table of `kern/process/proc.c`

The list of all processes, the hash list by pid, the relations between processes, and the search
for a free pid.
-/

namespace Ucore.Process

open Library Outcome

def HASH_SHIFT : ℕ := 10
def HASH_LIST_SIZE : ℕ := 2 ^ HASH_SHIFT
def GOLDEN_RATIO_PRIME_32 : ℕ := 0x9e370001

/-- `&proc_list`, or the field `list_link` of a process. -/
inductive ListNode where
  | procList
  | listLink (proc : Proc)
  deriving DecidableEq, Repr

/-- An element of `hash_list`, or the field `hash_link` of a process. -/
inductive HashNode where
  | hashList (index : ℕ)
  | hashLink (proc : Proc)
  deriving DecidableEq, Repr

/-- The fields that relate a process to others. -/
structure Relations where
  parent : Proc
  cptr : Option Proc
  yptr : Option Proc
  optr : Option Proc
  deriving DecidableEq, Repr

/-- The process table. `lastPid` and `nextSafe` are the static variables of `get_pid`. -/
structure ProcTable where
  pid : Proc → ℤ
  relations : Proc → Relations
  listLinks : Links ListNode
  hashLinks : Links HashNode
  nrProcess : ℤ
  lastPid : ℤ
  nextSafe : ℤ

/-! ## The lists -/

def hash32 (val bits : ℕ) : ℕ := uint32 (val * GOLDEN_RATIO_PRIME_32) >>> (32 - bits)

/-- `pid_hashfn`. -/
def pidHashfn (pid : ℤ) : ℕ := hash32 (pid % 2 ^ 32).toNat HASH_SHIFT

def ProcTable.setRelations (t : ProcTable) (proc : Proc) (value : Relations) : ProcTable :=
  { t with relations := Function.update t.relations proc value }

/-- `set_links`. -/
def setLinks (t : ProcTable) (proc : Proc) : ProcTable :=
  let t := { t with listLinks := listAdd t.listLinks .procList (.listLink proc) }
  let t := t.setRelations proc { t.relations proc with yptr := none }
  let parent := (t.relations proc).parent
  let t := t.setRelations proc { t.relations proc with optr := (t.relations parent).cptr }
  let t := match (t.relations proc).optr with
    | some optr => t.setRelations optr { t.relations optr with yptr := some proc }
    | none => t
  let t := t.setRelations parent { t.relations parent with cptr := some proc }
  { t with nrProcess := int32 (t.nrProcess + 1) }

/-- `remove_links`. -/
def removeLinks (t : ProcTable) (proc : Proc) : ProcTable :=
  let t := { t with listLinks := listDel t.listLinks (.listLink proc) }
  let t := match (t.relations proc).optr with
    | some optr => t.setRelations optr { t.relations optr with yptr := (t.relations proc).yptr }
    | none => t
  let t := match (t.relations proc).yptr with
    | some yptr => t.setRelations yptr { t.relations yptr with optr := (t.relations proc).optr }
    | none =>
      let parent := (t.relations proc).parent
      t.setRelations parent { t.relations parent with cptr := (t.relations proc).optr }
  { t with nrProcess := int32 (t.nrProcess - 1) }

/-- `hash_proc`. -/
def hashProc (t : ProcTable) (proc : Proc) : ProcTable :=
  { t with hashLinks := listAdd t.hashLinks (.hashList (pidHashfn (t.pid proc))) (.hashLink proc) }

/-- `unhash_proc`. -/
def unhashProc (t : ProcTable) (proc : Proc) : ProcTable :=
  { t with hashLinks := listDel t.hashLinks (.hashLink proc) }

/-- One round of the loop in `find_proc`, which never comes to another head. -/
def findRound (t : ProcTable) (pid : ℤ) : Unit → HashNode → Outcome (Unit ⊕ Option Proc)
  | _, .hashList _ => .ok (.inl ())
  | _, .hashLink proc => if t.pid proc = pid then .ok (.inr (some proc)) else .ok (.inl ())

/-- `find_proc`. -/
def findProc (fuel : ℕ) (t : ProcTable) (pid : ℤ) : Outcome (Option Proc) :=
  if 0 < pid ∧ pid < MAX_PID then
    walk (fun _ ↦ t.hashLinks) (.hashList (pidHashfn pid)) (findRound t pid) (fun _ ↦ .ok none)
      fuel () (.hashList (pidHashfn pid))
  else .ok none

/-! ## The search for a pid -/

/-- The cursor of `get_pid`, and its static variables on the way. -/
structure Scan where
  le : ListNode
  lastPid : ℤ
  nextSafe : ℤ

/-- One round of the `while` loop in `get_pid`. With the cursor back at the head the loop ends; a
restart puts it there first. -/
def scanRound (t : ProcTable) (s : Scan) : Outcome (Scan ⊕ ℤ × ℤ) :=
  match listNext t.listLinks s.le with
  | .procList => .ok (.inr (s.lastPid, s.nextSafe))
  | .listLink proc =>
    if t.pid proc = s.lastPid then
      let lastPid := s.lastPid + 1
      if lastPid ≥ s.nextSafe then
        .ok (.inl ⟨.procList, if lastPid ≥ MAX_PID then 1 else lastPid, MAX_PID⟩)
      else .ok (.inl ⟨.listLink proc, lastPid, s.nextSafe⟩)
    else if t.pid proc > s.lastPid ∧ s.nextSafe > t.pid proc then
      .ok (.inl ⟨.listLink proc, s.lastPid, t.pid proc⟩)
    else .ok (.inl ⟨.listLink proc, s.lastPid, s.nextSafe⟩)

/-- `get_pid`, from the label `inside` on. -/
def getPidInside (fuel : ℕ) (t : ProcTable) (lastPid : ℤ) : Outcome (ℤ × ProcTable) := do
  let (lastPid, nextSafe) ← loop (scanRound t) fuel ⟨.procList, lastPid, MAX_PID⟩
  .ok (lastPid, { t with lastPid := lastPid, nextSafe := nextSafe })

/-- `get_pid`. -/
def getPid (fuel : ℕ) (t : ProcTable) : Outcome (ℤ × ProcTable) :=
  let lastPid := t.lastPid + 1
  if lastPid ≥ MAX_PID then getPidInside fuel t 1
  else if lastPid ≥ t.nextSafe then getPidInside fuel t lastPid
  else .ok (lastPid, { t with lastPid := lastPid })

/-! ## Creation and reaping -/

/-- The lines of `do_fork` that make the new process known, with interrupts disabled. -/
def publish (fuel : ℕ) (t : ProcTable) (proc : Proc) : Outcome ProcTable := do
  let (pid, t) ← getPid fuel t
  let t := { t with pid := Function.update t.pid proc pid }
  .ok (setLinks (hashProc t proc) proc)

/-- The lines of `do_wait` that make a process forgotten, with interrupts disabled. -/
def withdraw (t : ProcTable) (proc : Proc) : ProcTable := removeLinks (unhashProc t proc) proc

/-- The loop of `proc_init` over the first elements of `hash_list`. -/
def initHashList (links : Links HashNode) : ℕ → Links HashNode
  | 0 => links
  | count + 1 => listInit (initHashList links count) (.hashList count)

/-- The lists as `proc_init` sets them up. -/
def initLists (t : ProcTable) : ProcTable :=
  { t with
    listLinks := listInit t.listLinks .procList
    hashLinks := initHashList t.hashLinks HASH_LIST_SIZE }

end Ucore.Process
