import Mathlib.Data.BitVec
import Mathlib.Tactic.Common

/-!
# `kern/process/proc.h`

The fields of a process that the scheduler, the timers, the semaphores and the pid allocation
work on.
-/

namespace Ucore

/-- The address of a `proc_struct`. -/
abbrev Proc := ℕ

inductive ProcState where
  | uninit
  | sleeping
  | runnable
  | zombie
  deriving DecidableEq, Repr

def MAX_PROCESS : ℕ := 4096
def MAX_PID : ℤ := MAX_PROCESS * 2

/-- `struct proc_struct`. There is one run queue, and `rq` tells whether the field points to it. -/
structure ProcStruct where
  state : ProcState
  pid : ℤ
  runs : ℤ
  needResched : Bool
  flags : BitVec 32
  waitState : BitVec 32
  rq : Bool
  timeSlice : ℤ
  lab6Stride : ℕ
  lab6Priority : ℕ
  deriving DecidableEq, Repr

def PF_EXITING : BitVec 32 := 0x00000001
def WT_INTERRUPTED : BitVec 32 := 0x80000000
def WT_CHILD : BitVec 32 := 0x00000001 ||| WT_INTERRUPTED
def WT_KSEM : BitVec 32 := 0x00000100
def WT_TIMER : BitVec 32 := 0x00000002 ||| WT_INTERRUPTED
def WT_KBD : BitVec 32 := 0x00000004 ||| WT_INTERRUPTED

/-- The fields that `alloc_proc` stores. -/
def allocProc : ProcStruct where
  state := .uninit
  pid := -1
  runs := 0
  needResched := false
  flags := 0
  waitState := 0
  rq := false
  timeSlice := 0
  lab6Stride := 0
  lab6Priority := 0

end Ucore
