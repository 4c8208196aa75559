import Ucore.Fs.FdArray
import Ucore.Library.Run

/-!
# A descriptor table and its users

Any number of processes that share one `files_struct`. A process is suspended in calls of the inode
layer only, so that a call of `file.c` falls into the parts between these. Each slot is free, being
opened, open, closed and still in use, or in `vfs_close`, and each inode that was put into a slot is
closed once before the slot is handed out again.
-/

namespace Ucore.Fs

open Library

/-- What a descriptor is used for. The last one stands for `file_fstat`, `file_fsync` and
`file_getdirentry`, which leave the slot alone. -/
inductive FdOp where
  | read
  | write
  | seek
  | other
  deriving DecidableEq

/-- What comes back from the inode besides the return value: how much was transferred, or the new
position, if there is one. -/
def FdOp.Answer : FdOp → Type
  | .read => ℕ
  | .write => ℕ
  | .seek => Option ℤ
  | .other => Unit

section World

variable {Inode : Type}

/-- The checks of `file_read` and `file_write`. -/
def FdOp.Allowed (op : FdOp) (file : Slot Inode) : Prop :=
  (op = .read → file.readable) ∧ (op = .write → file.writable)

instance (op : FdOp) (file : Slot Inode) : Decidable (op.Allowed file) :=
  inferInstanceAs (Decidable (_ ∧ _))

/-- The change of the position after a transfer, which a slot that was closed meanwhile misses. -/
def Slot.transferred (file : Slot Inode) (copied : ℕ) : Slot Inode :=
  if file.status = .opened then { file with pos := int64 (file.pos + copied) } else file

/-- What a call does to the slot when it is back from the inode. -/
def FdOp.finish : (op : FdOp) → op.Answer → Slot Inode → Slot Inode
  | .read, copied, file => file.transferred copied
  | .write, copied, file => file.transferred copied
  | .seek, some pos, file => { file with pos }
  | .seek, none, file => file
  | .other, _, file => file

/-- What a process does after `fd_array_free`: it returns, or `files_closeall` goes on. -/
inductive After where
  | ret (ret : Ret ℕ)
  | closeall (rest : List ℕ)

/-- Where a process is suspended: in `vfs_open`, `vop_fstat` or `vfs_close` of `file_open`, in an
operation on the inode of a slot, in `vfs_close` of `fd_array_free`, or on the way through
`files_closeall`. An operation comes with the inode that it works on, and with how many inodes had
been put into the slot at its start. -/
inductive FdCall (Inode : Type) where
  | opening (fd : ℕ) (openFlags : BitVec 32) (readable writable : Bool)
  | stating (fd : ℕ) (readable writable : Bool) (node : Inode)
  | dropping (fd : ℕ) (node : Inode) (code : Error)
  | inside (fd : ℕ) (op : FdOp) (node : Inode) (time : ℕ)
  | closing (fd : ℕ) (node : Inode) (after : After)
  | closeall (rest : List ℕ)

/-- What the call that a process is suspended in may answer. -/
def FdCall.Answer : FdCall Inode → Type
  | .opening .. => Ret Inode
  | .stating .. => Ret ℕ
  | .inside _ op .. => Ret ℕ × op.Answer
  | _ => Unit

/-- The slot that a suspended process is at. -/
def FdCall.slot : FdCall Inode → Option ℕ
  | .opening fd .. => some fd
  | .stating fd .. => some fd
  | .dropping fd .. => some fd
  | .inside fd .. => some fd
  | .closing fd .. => some fd
  | .closeall _ => none

/-- Whether a process is in an operation on the slot. -/
def FdCall.isInside (fd : ℕ) : FdCall Inode → Bool
  | .inside slot .. => slot = fd
  | _ => false

/-- What a process asks for. -/
inductive FdRequest where
  | open (openFlags : BitVec 32)
  | close (fd : ℤ)
  | io (fd : ℤ) (op : FdOp)
  | dup (fd1 fd2 : ℤ)
  | closeall

/-- The table, and the processes that are suspended in a call. The last two fields are history: the
inodes that have been put into each slot, and those that `fd_array_free` has called `vfs_close`
with. -/
structure FdWorld (Inode : Type) where
  fdArray : ℕ → Slot Inode
  calls : Multiset (FdCall Inode)
  opened : ℕ → List Inode
  vfsClosed : ℕ → List Inode

namespace FdWorld

def setSlot (s : FdWorld Inode) (fd : ℕ) (file : Slot Inode) : FdWorld Inode :=
  { s with fdArray := Function.update s.fdArray fd file }

def suspend (s : FdWorld Inode) (call : FdCall Inode) : FdWorld Inode :=
  { s with calls := call ::ₘ s.calls }

/-- An inode is put into a slot. -/
def putNode (s : FdWorld Inode) (fd : ℕ) (node : Inode) : FdWorld Inode :=
  { s with opened := Function.update s.opened fd (s.opened fd ++ [node]) }

/-- What a process returns, if it is not suspended again. -/
def goOn (s : FdWorld Inode) : After → Option (Ret ℕ) × FdWorld Inode
  | .ret ret => (some ret, s)
  | .closeall rest => (none, s.suspend (.closeall rest))

/-- After `fd_array_free`, which may have to call `vfs_close`. -/
def afterFree (s : FdWorld Inode) (fd : ℕ) (after : After) :
    Slot Inode × Option Inode → Option (Ret ℕ) × FdWorld Inode
  | (file, none) => (s.setSlot fd file).goOn after
  | (file, some node) =>
    (none, { (s.setSlot fd file).suspend (.closing fd node after) with
      vfsClosed := Function.update s.vfsClosed fd (s.vfsClosed fd ++ [node]) })

/-- The end of `file_open`. -/
def finishOpen (s : FdWorld Inode) (fd : ℕ) (readable writable : Bool) (node : Inode) (pos : ℤ) :
    Outcome (Option (Ret ℕ) × FdWorld Inode) := do
  let file ← fdArrayOpen { s.fdArray fd with pos, node := some node, readable, writable }
  return (some (.ok file.fd), (s.setSlot fd file).putNode fd node)

/-- A call of a process up to where it is suspended or returns. -/
def call (s : FdWorld Inode) : FdRequest → Outcome (Option (Ret ℕ) × FdWorld Inode)
  | .open openFlags =>
    match accessMode openFlags with
    | .error code => .ok (some (.error code), s)
    | .ok (readable, writable) => do
      match ← fdArrayAlloc s.fdArray NO_FD with
      | .error code => return (some (.error code), s)
      | .ok (fd, file) =>
        return (none, (s.setSlot fd file).suspend (.opening fd openFlags readable writable))
  | .close fd =>
    match fd2file s.fdArray fd with
    | .error code => .ok (some (.error code), s)
    | .ok fd => do return s.afterFree fd (.ret (.ok 0)) (← fdArrayClose (s.fdArray fd))
  | .io fd op =>
    match fd2file s.fdArray fd with
    | .error code => .ok (some (.error code), s)
    | .ok fd =>
      if op.Allowed (s.fdArray fd) then do
        let file ← fdArrayAcquire (s.fdArray fd)
        match file.node with
        | none => .error .panic
        | some node =>
          return (none, (s.setSlot fd file).suspend (.inside fd op node (s.opened fd).length))
      else .ok (some (.error .inval), s)
  | .dup fd1 fd2 =>
    match fd2file s.fdArray fd1 with
    | .error code => .ok (some (.error code), s)
    | .ok fd1 => do
      match ← fdArrayAlloc s.fdArray fd2 with
      | .error code => return (some (.error code), s)
      | .ok (fd2, file) =>
        let file ← fdArrayDup file (s.fdArray fd1)
        match file.node with
        | none => .error .panic
        | some node => return (some (.ok file.fd), (s.setSlot fd2 file).putNode fd2 node)
  | .closeall => .ok (none, s.suspend (.closeall ((List.range FILES_STRUCT_NENTRY).drop 2)))

/-- The next part of a call, once the call that it was suspended in has come back. It is not among
the suspended ones any more. -/
def resume (s : FdWorld Inode) :
    (call : FdCall Inode) → call.Answer → Outcome (Option (Ret ℕ) × FdWorld Inode)
  | .opening fd openFlags readable writable, answer =>
    match (answer : Ret Inode) with
    | .error code => do
      return s.afterFree fd (.ret (.error code)) (← fdArrayFree (s.fdArray fd))
    | .ok node =>
      if Has openFlags O_APPEND then .ok (none, s.suspend (.stating fd readable writable node))
      else s.finishOpen fd readable writable node 0
  | .stating fd readable writable node, answer =>
    match (answer : Ret ℕ) with
    | .error code => .ok (none, s.suspend (.dropping fd node code))
    | .ok size => s.finishOpen fd readable writable node size
  | .dropping fd _ code, _ => do
    return s.afterFree fd (.ret (.error code)) (← fdArrayFree (s.fdArray fd))
  | .inside fd op _ _, answer => do
    return s.afterFree fd (.ret answer.1) (← fdArrayRelease (op.finish answer.2 (s.fdArray fd)))
  | .closing fd _ after, _ => .ok ((s.setSlot fd (s.fdArray fd).freed).goOn after)
  | .closeall [], _ => .ok (some (.ok 0), s)
  | .closeall (fd :: rest), _ =>
    if (s.fdArray fd).status = .opened then do
      return s.afterFree fd (.closeall rest) (← fdArrayClose (s.fdArray fd))
    else .ok (none, s.suspend (.closeall rest))

/-- The suspended processes that are at a slot. -/
def callsAt (s : FdWorld Inode) (fd : ℕ) : Multiset (FdCall Inode) :=
  s.calls.filter fun call ↦ call.slot = some fd

end FdWorld

/-- The table of a new process, with the history of the inodes that it starts with. -/
def FdWorld.fresh (fdArray : ℕ → Slot Inode) : FdWorld Inode where
  fdArray
  calls := 0
  opened := fun fd ↦ if (fdArray fd).status = .opened then (fdArray fd).node.toList else []
  vfsClosed := fun _ ↦ []

/-- The table after `files_create`. -/
def FdWorld.created : FdWorld Inode := .fresh fdArrayInit

/-- One process goes on, in any order. The last step leads from a table to the one that `dup_files`
makes of it for a new process. -/
inductive FdStep [DecidableEq Inode] : FdWorld Inode → FdWorld Inode → Prop
  | call {s next : FdWorld Inode} {request : FdRequest} {ret : Option (Ret ℕ)}
    (h : s.call request = .ok (ret, next)) : FdStep s next
  | resume {s next : FdWorld Inode} {call : FdCall Inode} {rest : Multiset (FdCall Inode)}
    {answer : call.Answer} {ret : Option (Ret ℕ)} (hcalls : s.calls = call ::ₘ rest)
    (h : FdWorld.resume { s with calls := rest } call answer = .ok (ret, next)) : FdStep s next
  | dup {s : FdWorld Inode} {c after : Counts Inode} {fdArray : ℕ → Slot Inode}
    (h : dupSlots s.fdArray c fdArrayInit (List.range FILES_STRUCT_NENTRY) = .ok (after, fdArray)) :
    FdStep s (.fresh fdArray)

/-! ## The phases of a slot -/

/-- A process in `file_open`, which has the slot for itself. -/
def FdCall.Opens : FdCall Inode → Prop
  | .opening .. => True
  | .stating .. => True
  | .dropping .. => True
  | _ => False

/-- Where a slot is: what is in it, who is at it, and its history. -/
inductive Phase (file : Slot Inode) (calls : Multiset (FdCall Inode)) (opened vfsClosed : List Inode) :
    Prop
  | free (hstatus : file.status = .none) (hcount : file.openCount = 0) (hcalls : calls = 0)
    (hlog : opened = vfsClosed) : Phase file calls opened vfsClosed
  | opening {call : FdCall Inode} (hopens : call.Opens) (hstatus : file.status = .init)
    (hcount : file.openCount = 0) (hcalls : calls = {call}) (hlog : opened = vfsClosed) :
    Phase file calls opened vfsClosed
  | opened {node : Inode} (hstatus : file.status = .opened) (hnode : file.node = some node)
    (hcount : file.openCount = calls.card + 1)
    (hcalls : ∀ call ∈ calls, ∃ fd op, call = .inside fd op node opened.length)
    (hlog : opened = vfsClosed ++ [node]) : Phase file calls opened vfsClosed
  | closed {node : Inode} (hstatus : file.status = .closed) (hnode : file.node = some node)
    (hcount : file.openCount = calls.card) (hused : calls ≠ 0)
    (hcalls : ∀ call ∈ calls, ∃ fd op, call = .inside fd op node opened.length)
    (hlog : opened = vfsClosed ++ [node]) : Phase file calls opened vfsClosed
  | closing {fd : ℕ} {node : Inode} {after : After} (hstatus : file.status = .closed)
    (hnode : file.node = some node) (hcount : file.openCount = 0)
    (hcalls : calls = {.closing fd node after}) (hlog : opened = vfsClosed) :
    Phase file calls opened vfsClosed

namespace FdWorld

variable {s next : FdWorld Inode} {fd other : ℕ} {file : Slot Inode} {node : Inode}
  {call : FdCall Inode} {after : After} {rest : Multiset (FdCall Inode)}

/-- Each slot but one is in one of the phases. -/
def TableBut (s : FdWorld Inode) (fd : ℕ) : Prop :=
  ∀ other ≠ fd, Phase (s.fdArray other) (s.callsAt other) (s.opened other) (s.vfsClosed other)

/-- Each slot is in one of the phases. -/
def Table (s : FdWorld Inode) : Prop :=
  ∀ fd, Phase (s.fdArray fd) (s.callsAt fd) (s.opened fd) (s.vfsClosed fd)

/-- No assertion fails on the way to the next suspension, and the slots are in their phases there. -/
def Goes (part : Outcome (Option (Ret ℕ) × FdWorld Inode)) : Prop :=
  ∃ ret next, part = .ok (ret, next) ∧ next.Table

theorem goes_ok {ret : Option (Ret ℕ)} (h : next.Table) : Goes (.ok (ret, next)) :=
  ⟨ret, next, rfl, h⟩

theorem Table.but (h : s.Table) (fd : ℕ) : s.TableBut fd := fun other _ ↦ h other

theorem callsAt_suspend (h : call.slot = some fd) :
    (s.suspend call).callsAt fd = call ::ₘ s.callsAt fd :=
  Multiset.filter_cons_of_pos _ h

theorem callsAt_suspend_of_ne (h : call.slot ≠ some fd) :
    (s.suspend call).callsAt fd = s.callsAt fd :=
  Multiset.filter_cons_of_neg _ h

theorem table_setSlot (hbut : s.TableBut fd)
    (h : Phase file (s.callsAt fd) (s.opened fd) (s.vfsClosed fd)) : (s.setSlot fd file).Table := by
  intro other
  by_cases hother : other = fd
  · subst hother
    have hfile : (s.setSlot other file).fdArray other = file := Function.update_self ..
    rw [hfile]
    exact h
  · have hfile : (s.setSlot fd file).fdArray other = s.fdArray other :=
      Function.update_of_ne hother ..
    rw [hfile]
    exact hbut other hother

theorem TableBut.setSlot (h : s.TableBut fd) (file : Slot Inode) :
    (s.setSlot fd file).TableBut fd := by
  intro other hother
  have hfile : (s.setSlot fd file).fdArray other = s.fdArray other :=
    Function.update_of_ne hother ..
  rw [hfile]
  exact h other hother

theorem setSlot_self (s : FdWorld Inode) (fd : ℕ) (file : Slot Inode) :
    (s.setSlot fd file).fdArray fd = file := Function.update_self ..

theorem table_suspend (hslot : call.slot = some fd) (hbut : s.TableBut fd)
    (h : Phase (s.fdArray fd) (call ::ₘ s.callsAt fd) (s.opened fd) (s.vfsClosed fd)) :
    (s.suspend call).Table := by
  intro other
  by_cases hother : other = fd
  · subst hother
    rw [callsAt_suspend hslot]
    exact h
  · have hne : call.slot ≠ some other := by
      rw [hslot]
      exact fun heq ↦ hother (Option.some.inj heq).symm
    rw [callsAt_suspend_of_ne hne]
    exact hbut other hother

theorem Table.closeall (h : s.Table) (fds : List ℕ) : (s.suspend (.closeall fds)).Table := by
  intro fd
  have hne : (FdCall.closeall fds : FdCall Inode).slot ≠ some fd := fun heq ↦ by cases heq
  rw [callsAt_suspend_of_ne hne]
  exact h fd

theorem Table.goOn (h : s.Table) (after : After) : (s.goOn after).2.Table := by
  cases after with
  | ret ret => exact h
  | closeall fds => exact h.closeall fds

/-- An inode has been put into a slot that nobody is at. -/
theorem table_putNode (hbut : s.TableBut fd) (hstatus : file.status = .opened)
    (hnode : file.node = some node) (hcount : file.openCount = 1) (hcalls : s.callsAt fd = 0)
    (hlog : s.opened fd = s.vfsClosed fd) : ((s.setSlot fd file).putNode fd node).Table := by
  intro other
  by_cases hother : other = fd
  · subst hother
    have hlast : Function.update s.opened other (s.opened other ++ [node]) other =
        s.opened other ++ [node] := Function.update_self ..
    change Phase (Function.update s.fdArray other file other) (s.callsAt other)
      (Function.update s.opened other (s.opened other ++ [node]) other) (s.vfsClosed other)
    rw [hlast, Function.update_self, hcalls]
    refine .opened hstatus hnode hcount (fun call hcall ↦ ?_) (hlog ▸ rfl)
    exact absurd hcall (Multiset.notMem_zero call)
  · have hlast : Function.update s.opened fd (s.opened fd ++ [node]) other = s.opened other :=
      Function.update_of_ne hother ..
    change Phase (Function.update s.fdArray fd file other) (s.callsAt other)
      (Function.update s.opened fd (s.opened fd ++ [node]) other) (s.vfsClosed other)
    rw [hlast, Function.update_of_ne hother]
    exact hbut other hother

/-- A slot that is free again, or that other processes still use. -/
theorem goes_afterFree_none (hbut : s.TableBut fd)
    (h : Phase file (s.callsAt fd) (s.opened fd) (s.vfsClosed fd)) (after : After) :
    Goes (.ok (s.afterFree fd after (file, none))) :=
  goes_ok ((table_setSlot hbut h).goOn after)

/-- The last user of a closed slot calls `vfs_close`. -/
theorem goes_afterFree_some (hbut : s.TableBut fd) (hstatus : file.status = .closed)
    (hnode : file.node = some node) (hcount : file.openCount = 0) (hcalls : s.callsAt fd = 0)
    (hlog : s.opened fd = s.vfsClosed fd ++ [node]) (after : After) :
    Goes (.ok (s.afterFree fd after (file, some node))) := by
  refine goes_ok fun other ↦ ?_
  by_cases hother : other = fd
  · subst hother
    have hslot : (FdCall.closing other node after : FdCall Inode).slot = some other := rfl
    have hat : ((s.setSlot other file).suspend (.closing other node after)).callsAt other =
        {.closing other node after} := by
      rw [callsAt_suspend hslot]
      exact congrArg (FdCall.closing other node after ::ₘ ·) hcalls
    have hlast : Function.update s.vfsClosed other (s.vfsClosed other ++ [node]) other =
        s.vfsClosed other ++ [node] := Function.update_self ..
    refine .closing ?_ ?_ ?_ hat (hlog.trans hlast.symm)
    · exact (congrArg (fun slot : Slot Inode ↦ slot.status) (setSlot_self ..)).trans hstatus
    · exact (congrArg (fun slot : Slot Inode ↦ slot.node) (setSlot_self ..)).trans hnode
    · exact (congrArg (fun slot : Slot Inode ↦ slot.openCount) (setSlot_self ..)).trans hcount
  · have hne : (FdCall.closing fd node after : FdCall Inode).slot ≠ some other :=
      fun heq ↦ hother (Option.some.inj heq).symm
    have hphase := (hbut.setSlot file) other hother
    have hat : ((s.setSlot fd file).suspend (.closing fd node after)).callsAt other =
        (s.setSlot fd file).callsAt other := callsAt_suspend_of_ne hne
    have hlast : Function.update s.vfsClosed fd (s.vfsClosed fd ++ [node]) other =
        s.vfsClosed other := Function.update_of_ne hother ..
    rw [← hat] at hphase
    change Phase _ _ _ (Function.update s.vfsClosed fd (s.vfsClosed fd ++ [node]) other)
    rw [hlast]
    exact hphase

end FdWorld

/-! ## The functions on a slot -/

section Functions

variable {file : Slot Inode} {node : Inode} {n : ℕ}

theorem fdArrayFree_init (hstatus : file.status = .init) (hcount : file.openCount = 0) :
    fdArrayFree file = .ok (file.freed, none) := by
  have hne : ¬file.status = .closed := by
    rw [hstatus]
    decide
  rw [fdArrayFree, Outcome.require_of_true (Or.inl hstatus), Outcome.ok_bind,
    Outcome.require_of_true hcount, Outcome.ok_bind, if_neg hne]
  rfl

theorem fdArrayFree_closed (hstatus : file.status = .closed) (hcount : file.openCount = 0)
    (hnode : file.node = some node) : fdArrayFree file = .ok (file, some node) := by
  rw [fdArrayFree, Outcome.require_of_true (Or.inr hstatus), Outcome.ok_bind,
    Outcome.require_of_true hcount, Outcome.ok_bind, if_pos hstatus, hnode]
  rfl

/-- Nobody uses the slot any more. -/
theorem fdArrayClose_last (hstatus : file.status = .opened) (hcount : file.openCount = 1)
    (hnode : file.node = some node) : fdArrayClose file =
      .ok ({ file with status := .closed, openCount := 0 }, some node) := by
  rw [fdArrayClose, Outcome.require_of_true hstatus, Outcome.ok_bind,
    Outcome.require_of_true (hcount ▸ Nat.one_pos), Outcome.ok_bind, hcount]
  exact fdArrayFree_closed rfl rfl hnode

theorem fdArrayClose_used (hstatus : file.status = .opened) (hcount : file.openCount = n + 2) :
    fdArrayClose file = .ok ({ file with status := .closed, openCount := n + 1 }, none) := by
  rw [fdArrayClose, Outcome.require_of_true hstatus, Outcome.ok_bind,
    Outcome.require_of_true (hcount ▸ Nat.succ_pos _), Outcome.ok_bind, hcount]
  rfl

theorem fdArrayRelease_last (hstatus : file.status = .closed) (hcount : file.openCount = 1)
    (hnode : file.node = some node) :
    fdArrayRelease file = .ok ({ file with openCount := 0 }, some node) := by
  rw [fdArrayRelease, Outcome.require_of_true (Or.inr hstatus), Outcome.ok_bind,
    Outcome.require_of_true (hcount ▸ Nat.one_pos), Outcome.ok_bind, hcount]
  exact fdArrayFree_closed hstatus rfl hnode

theorem fdArrayRelease_used (hstatus : file.status = .opened ∨ file.status = .closed)
    (hcount : file.openCount = n + 2) :
    fdArrayRelease file = .ok ({ file with openCount := n + 1 }, none) := by
  rw [fdArrayRelease, Outcome.require_of_true hstatus, Outcome.ok_bind,
    Outcome.require_of_true (hcount ▸ Nat.succ_pos _), Outcome.ok_bind, hcount]
  rfl

theorem fdArrayDup_eq (dst src : Slot Inode) (hdst : dst.status = .init)
    (hsrc : src.status = .opened) (hnode : src.node = some node) : ∃ file,
      fdArrayDup dst src = .ok file ∧ file.status = .opened ∧ file.node = some node ∧
        file.openCount = dst.openCount + 1 := by
  have hcan : dst.status = .init ∧ src.node.isSome := by
    rw [hnode]
    exact ⟨hdst, rfl⟩
  refine ⟨{ dst with
    pos := src.pos, readable := src.readable, writable := src.writable, node := src.node
    status := .opened, openCount := dst.openCount + 1 }, ?_, rfl, hnode, rfl⟩
  rw [fdArrayDup, Outcome.require_of_true ⟨hdst, hsrc⟩, Outcome.ok_bind, fdArrayOpen,
    Outcome.require_of_true hcan]
  rfl

/-- The index that `fd_array_alloc` finds is that of a free slot. -/
theorem fdArrayAlloc_cases {fdArray : ℕ → Slot Inode}
    (h : ∀ fd, (fdArray fd).status = .none → (fdArray fd).openCount = 0) (fd : ℤ) :
    (∃ code, fdArrayAlloc fdArray fd = .ok (.error code)) ∨
      ∃ index file, (fdArray index).status = .none ∧ fdArrayAlloc fdArray fd = .ok (.ok (index, file)) ∧
        file.status = .init ∧ file.openCount = 0 := by
  have htake : ∀ index, (fdArray index).status = .none →
      (do
        Outcome.require ((fdArray index).openCount = 0)
        return .ok (index, { fdArray index with status := .init, node := none }) :
          Outcome (Ret (ℕ × Slot Inode))) =
        .ok (.ok (index, { fdArray index with status := .init, node := none })) := by
    intro index hnone
    rw [Outcome.require_of_true (h index hnone)]
    rfl
  unfold fdArrayAlloc
  dsimp only
  split
  · split
    · rename_i index hfind
      have hnone := List.find?_some hfind
      have hindex : (fdArray index).status = .none := of_decide_eq_true hnone
      exact Or.inr ⟨index, _, hindex, htake index hindex, rfl, h index hindex⟩
    · exact Or.inl ⟨.maxOpen, rfl⟩
  · split
    · split
      · rename_i hnone
        exact Or.inr ⟨fd.toNat, _, hnone, htake _ hnone, rfl, h _ hnone⟩
      · exact Or.inl ⟨.busy, rfl⟩
    · exact Or.inl ⟨.inval, rfl⟩

theorem fd2file_cases (fdArray : ℕ → Slot Inode) (fd : ℤ) :
    (∃ code, fd2file fdArray fd = .error code) ∨
      ∃ index, (fdArray index).status = .opened ∧ fd2file fdArray fd = .ok index := by
  unfold fd2file
  split
  · split
    · rename_i hopened
      exact Or.inr ⟨fd.toNat, hopened.1, rfl⟩
    · exact Or.inl ⟨.inval, rfl⟩
  · exact Or.inl ⟨.inval, rfl⟩

/-- An operation changes the position of the slot only. -/
theorem finish_eq (op : FdOp) (answer : op.Answer) (file : Slot Inode) :
    ∃ pos, op.finish answer file = { file with pos } := by
  have htransferred : ∀ copied : ℕ, ∃ pos, file.transferred copied = { file with pos } := by
    intro copied
    unfold Slot.transferred
    split
    · exact ⟨_, rfl⟩
    · exact ⟨file.pos, rfl⟩
  cases op with
  | read => exact htransferred answer
  | write => exact htransferred answer
  | seek =>
    cases answer with
    | none => exact ⟨file.pos, rfl⟩
    | some pos => exact ⟨pos, rfl⟩
  | other => exact ⟨file.pos, rfl⟩

end Functions

/-! ## Each part of a call -/

section Phases

variable {file : Slot Inode} {node : Inode} {call : FdCall Inode} {calls : Multiset (FdCall Inode)}
  {opened vfsClosed : List Inode} {fd time : ℕ} {op : FdOp} {after : After}

theorem Phase.of_opens (h : Phase file (call ::ₘ calls) opened vfsClosed) (hopens : call.Opens) :
    file.status = .init ∧ file.openCount = 0 ∧ calls = 0 ∧ opened = vfsClosed := by
  cases h with
  | free _ _ hcalls => exact absurd hcalls (Multiset.cons_ne_zero)
  | opening _ hstatus hcount hcalls hlog =>
    exact ⟨hstatus, hcount, ((Multiset.singleton_eq_cons_iff _).mp hcalls.symm).2, hlog⟩
  | opened _ _ _ hcalls =>
    rcases hcalls call (Multiset.mem_cons_self ..) with ⟨fd, op, rfl⟩
    cases hopens
  | closed _ _ _ _ hcalls =>
    rcases hcalls call (Multiset.mem_cons_self ..) with ⟨fd, op, rfl⟩
    cases hopens
  | closing _ _ _ hcalls =>
    rw [← ((Multiset.singleton_eq_cons_iff _).mp hcalls.symm).1] at hopens
    cases hopens

theorem phase_freed (hcount : file.openCount = 0) (hcalls : calls = 0)
    (hlog : opened = vfsClosed) : Phase file.freed calls opened vfsClosed :=
  .free rfl hcount hcalls hlog

/-- The process in an operation on a slot: the slot keeps its inode, and no other one has been put
into it since. -/
theorem Phase.of_inside (h : Phase file (.inside fd op node time ::ₘ calls) opened vfsClosed) :
    time = opened.length ∧ file.node = some node ∧ opened = vfsClosed ++ [node] ∧
      (∀ call ∈ calls, ∃ fd op, call = .inside fd op node opened.length) ∧
      (file.status = .opened ∧ file.openCount = calls.card + 2 ∨
        file.status = .closed ∧ file.openCount = calls.card + 1) := by
  have hfirst : (.inside fd op node time : FdCall Inode) ∈ .inside fd op node time ::ₘ calls :=
    Multiset.mem_cons_self ..
  have hrest : ∀ call ∈ calls, call ∈ .inside fd op node time ::ₘ calls :=
    fun call hcall ↦ Multiset.mem_cons_of_mem hcall
  cases h with
  | free _ _ hcalls => exact absurd hcalls Multiset.cons_ne_zero
  | opening hopens _ _ hcalls =>
    rw [((Multiset.singleton_eq_cons_iff _).mp hcalls.symm).1] at hopens
    cases hopens
  | opened hstatus hnode hcount hcalls hlog =>
    rcases hcalls _ hfirst with ⟨_, _, heq⟩
    cases heq
    rw [Multiset.card_cons] at hcount
    exact ⟨rfl, hnode, hlog, fun call hcall ↦ hcalls call (hrest call hcall),
      Or.inl ⟨hstatus, hcount⟩⟩
  | closed hstatus hnode hcount _ hcalls hlog =>
    rcases hcalls _ hfirst with ⟨_, _, heq⟩
    cases heq
    rw [Multiset.card_cons] at hcount
    exact ⟨rfl, hnode, hlog, fun call hcall ↦ hcalls call (hrest call hcall),
      Or.inr ⟨hstatus, hcount⟩⟩
  | closing _ _ _ hcalls => cases ((Multiset.singleton_eq_cons_iff _).mp hcalls.symm).1

theorem Phase.of_closing (h : Phase file (.closing fd node after ::ₘ calls) opened vfsClosed) :
    file.status = .closed ∧ file.openCount = 0 ∧ calls = 0 ∧ opened = vfsClosed := by
  have hfirst : (.closing fd node after : FdCall Inode) ∈ .closing fd node after ::ₘ calls :=
    Multiset.mem_cons_self ..
  cases h with
  | free _ _ hcalls => exact absurd hcalls Multiset.cons_ne_zero
  | opening hopens _ _ hcalls =>
    rw [((Multiset.singleton_eq_cons_iff _).mp hcalls.symm).1] at hopens
    cases hopens
  | opened _ _ _ hcalls =>
    rcases hcalls _ hfirst with ⟨_, _, heq⟩
    cases heq
  | closed _ _ _ _ hcalls =>
    rcases hcalls _ hfirst with ⟨_, _, heq⟩
    cases heq
  | closing hstatus _ hcount hcalls hlog =>
    exact ⟨hstatus, hcount, ((Multiset.singleton_eq_cons_iff _).mp hcalls.symm).2, hlog⟩

end Phases

namespace FdWorld

variable {s next : FdWorld Inode} {fd : ℕ} {node : Inode} {call : FdCall Inode} {after : After}
  {rest : Multiset (FdCall Inode)}

/-- A slot that is not free. -/
theorem Table.count_of_none (h : s.Table) (hnone : (s.fdArray fd).status = .none) :
    (s.fdArray fd).openCount = 0 ∧ s.callsAt fd = 0 ∧ s.opened fd = s.vfsClosed fd := by
  cases h fd with
  | free _ hcount hcalls hlog => exact ⟨hcount, hcalls, hlog⟩
  | opening _ hstatus => cases hstatus.symm.trans hnone
  | opened hstatus => cases hstatus.symm.trans hnone
  | closed hstatus => cases hstatus.symm.trans hnone
  | closing hstatus => cases hstatus.symm.trans hnone

theorem Table.of_opened (h : s.Table) (hopened : (s.fdArray fd).status = .opened) :
    ∃ node, (s.fdArray fd).node = some node ∧
      (s.fdArray fd).openCount = (s.callsAt fd).card + 1 ∧
      (∀ call ∈ s.callsAt fd, ∃ fd' op, call = .inside fd' op node (s.opened fd).length) ∧
      s.opened fd = s.vfsClosed fd ++ [node] := by
  cases h fd with
  | free hstatus => cases hstatus.symm.trans hopened
  | opening _ hstatus => cases hstatus.symm.trans hopened
  | opened _ hnode hcount hcalls hlog => exact ⟨_, hnode, hcount, hcalls, hlog⟩
  | closed hstatus => cases hstatus.symm.trans hopened
  | closing hstatus => cases hstatus.symm.trans hopened

/-- `fd_array_close` on an open slot. -/
theorem Table.close (h : s.Table) (hopened : (s.fdArray fd).status = .opened) (after : After) :
    Goes (do return s.afterFree fd after (← fdArrayClose (s.fdArray fd))) := by
  rcases h.of_opened hopened with ⟨node, hnode, hcount, hcalls, hlog⟩
  rcases hcard : (s.callsAt fd).card with _ | n
  · have hzero : s.callsAt fd = 0 := Multiset.card_eq_zero.mp hcard
    rw [hcard] at hcount
    rw [fdArrayClose_last hopened hcount hnode, Outcome.ok_bind]
    refine goes_afterFree_some (h.but fd) ?_ ?_ ?_ hzero hlog after
    · rfl
    · exact hnode
    · rfl
  · rw [hcard] at hcount
    rw [fdArrayClose_used hopened hcount, Outcome.ok_bind]
    have hused : s.callsAt fd ≠ 0 := by
      intro hzero
      rw [hzero] at hcard
      cases hcard
    refine goes_afterFree_none (h.but fd) (.closed ?_ ?_ ?_ hused hcalls hlog) after
    · rfl
    · exact hnode
    · exact hcard.symm

/-- The end of `file_open`, for a slot that nobody else is at. -/
theorem goes_finishOpen (hbut : s.TableBut fd) (hstatus : (s.fdArray fd).status = .init)
    (hcount : (s.fdArray fd).openCount = 0) (hcalls : s.callsAt fd = 0)
    (hlog : s.opened fd = s.vfsClosed fd) (readable writable : Bool) (node : Inode) (pos : ℤ) :
    Goes (s.finishOpen fd readable writable node pos) := by
  have hcan : (s.fdArray fd).status = .init ∧ (some node).isSome := ⟨hstatus, rfl⟩
  rw [finishOpen, fdArrayOpen, Outcome.require_of_true hcan, Outcome.ok_bind]
  refine goes_ok (table_putNode hbut ?_ ?_ ?_ hcalls hlog)
  · rfl
  · rfl
  · exact congrArg (· + 1) hcount

/-- A `file_open` that fails frees the slot. -/
theorem goes_free (hbut : s.TableBut fd) (hstatus : (s.fdArray fd).status = .init)
    (hcount : (s.fdArray fd).openCount = 0) (hcalls : s.callsAt fd = 0)
    (hlog : s.opened fd = s.vfsClosed fd) (after : After) :
    Goes (do return s.afterFree fd after (← fdArrayFree (s.fdArray fd))) := by
  rw [fdArrayFree_init hstatus hcount, Outcome.ok_bind]
  exact goes_afterFree_none hbut (phase_freed hcount hcalls hlog) after

/-- The process with a slot is suspended again. -/
theorem goes_suspend (hslot : call.slot = some fd) (hopens : call.Opens) (hbut : s.TableBut fd)
    (hstatus : (s.fdArray fd).status = .init) (hcount : (s.fdArray fd).openCount = 0)
    (hcalls : s.callsAt fd = 0) (hlog : s.opened fd = s.vfsClosed fd) :
    Goes (.ok (none, s.suspend call)) := by
  refine goes_ok (table_suspend hslot hbut (.opening hopens hstatus hcount ?_ hlog))
  exact congrArg (call ::ₘ ·) hcalls

/-- `fd_array_release` after an operation on the slot. -/
theorem goes_release (hbut : s.TableBut fd) {op : FdOp} {time : ℕ}
    (h : Phase (s.fdArray fd) (.inside fd op node time ::ₘ s.callsAt fd) (s.opened fd)
      (s.vfsClosed fd)) (answer : op.Answer) (after : After) :
    Goes (do
      return s.afterFree fd after (← fdArrayRelease (op.finish answer (s.fdArray fd)))) := by
  rcases h.of_inside with ⟨-, hnode, hlog, hcalls, hcount⟩
  rcases finish_eq op answer (s.fdArray fd) with ⟨pos, hfinish⟩
  rw [hfinish]
  rcases hcount with ⟨hstatus, hcount⟩ | ⟨hstatus, hcount⟩
  · have hrelease : fdArrayRelease { s.fdArray fd with pos } = _ :=
      fdArrayRelease_used (Or.inl hstatus) hcount
    rw [hrelease, Outcome.ok_bind]
    refine goes_afterFree_none hbut (.opened ?_ ?_ ?_ hcalls hlog) after
    · exact hstatus
    · exact hnode
    · rfl
  · rcases hcard : (s.callsAt fd).card with _ | n
    · rw [hcard] at hcount
      have hrelease : fdArrayRelease { s.fdArray fd with pos } = _ :=
        fdArrayRelease_last hstatus hcount hnode
      rw [hrelease, Outcome.ok_bind]
      refine goes_afterFree_some hbut ?_ ?_ ?_ (Multiset.card_eq_zero.mp hcard) hlog after
      · exact hstatus
      · exact hnode
      · rfl
    · rw [hcard] at hcount
      have hrelease : fdArrayRelease { s.fdArray fd with pos } = _ :=
        fdArrayRelease_used (Or.inr hstatus) hcount
      have hused : s.callsAt fd ≠ 0 := by
        intro hzero
        rw [hzero] at hcard
        cases hcard
      rw [hrelease, Outcome.ok_bind]
      refine goes_afterFree_none hbut (.closed ?_ ?_ ?_ hused hcalls hlog) after
      · exact hstatus
      · exact hnode
      · exact hcard.symm

/-- A process is not suspended any more. -/
theorem Table.taken (h : s.Table) (hcalls : s.calls = call ::ₘ rest) (hslot : call.slot = some fd) :
    TableBut { s with calls := rest } fd ∧
      Phase (s.fdArray fd) (call ::ₘ FdWorld.callsAt { s with calls := rest } fd) (s.opened fd)
        (s.vfsClosed fd) := by
  have hat : ∀ other, s.callsAt other =
      (FdWorld.suspend { s with calls := rest } call).callsAt other := by
    intro other
    rw [callsAt, hcalls]
    rfl
  constructor
  · intro other hother
    have hphase := h other
    have hne : call.slot ≠ some other := by
      rw [hslot]
      exact fun heq ↦ hother (Option.some.inj heq).symm
    rw [hat, callsAt_suspend_of_ne hne] at hphase
    exact hphase
  · have hphase := h fd
    rw [hat, callsAt_suspend hslot] at hphase
    exact hphase

/-- The part of a call after the call that it was suspended in. -/
theorem Table.resume (h : s.Table) (hcalls : s.calls = call ::ₘ rest) (answer : call.Answer) :
    Goes (FdWorld.resume { s with calls := rest } call answer) := by
  cases call with
  | opening fd openFlags readable writable =>
    rcases h.taken hcalls rfl with ⟨hbut, hphase⟩
    rcases hphase.of_opens trivial with ⟨hstatus, hcount, hnobody, hlog⟩
    rcases (answer : Ret Inode) with code | node
    · exact goes_free hbut hstatus hcount hnobody hlog _
    · change Goes (if Has openFlags O_APPEND then _ else _)
      split
      · exact goes_suspend rfl trivial hbut hstatus hcount hnobody hlog
      · exact goes_finishOpen hbut hstatus hcount hnobody hlog ..
  | stating fd readable writable node =>
    rcases h.taken hcalls rfl with ⟨hbut, hphase⟩
    rcases hphase.of_opens trivial with ⟨hstatus, hcount, hnobody, hlog⟩
    rcases (answer : Ret ℕ) with code | size
    · exact goes_suspend rfl trivial hbut hstatus hcount hnobody hlog
    · exact goes_finishOpen hbut hstatus hcount hnobody hlog ..
  | dropping fd node code =>
    rcases h.taken hcalls rfl with ⟨hbut, hphase⟩
    rcases hphase.of_opens trivial with ⟨hstatus, hcount, hnobody, hlog⟩
    exact goes_free hbut hstatus hcount hnobody hlog _
  | inside fd op node time =>
    rcases h.taken hcalls rfl with ⟨hbut, hphase⟩
    exact goes_release hbut hphase answer.2 _
  | closing fd node after =>
    rcases h.taken hcalls rfl with ⟨hbut, hphase⟩
    rcases hphase.of_closing with ⟨hstatus, hcount, hnobody, hlog⟩
    exact goes_ok (Table.goOn (table_setSlot hbut (phase_freed hcount hnobody hlog)) after)
  | closeall fds =>
    have htable : FdWorld.Table { s with calls := rest } := by
      intro fd
      have hphase := h fd
      have hat : s.callsAt fd = FdWorld.callsAt { s with calls := rest } fd := by
        rw [callsAt, hcalls]
        exact Multiset.filter_cons_of_neg _ fun heq ↦ by cases heq
      rw [hat] at hphase
      exact hphase
    cases fds with
    | nil => exact goes_ok htable
    | cons fd fds =>
      rw [FdWorld.resume]
      split
      · rename_i hopened
        exact htable.close hopened _
      · exact goes_ok (htable.closeall fds)

/-- A call up to where it is suspended or returns. -/
theorem Table.request (h : s.Table) (request : FdRequest) : Goes (s.call request) := by
  have hfree : ∀ fd, (s.fdArray fd).status = .none → (s.fdArray fd).openCount = 0 :=
    fun fd hnone ↦ (h.count_of_none hnone).1
  cases request with
  | «open» openFlags =>
    rw [FdWorld.call]
    split
    · exact goes_ok h
    · rcases fdArrayAlloc_cases hfree NO_FD with ⟨code, halloc⟩ | ⟨fd, file, hnone, halloc, hinit, hcount⟩
      · rw [halloc]
        exact goes_ok h
      · rcases h.count_of_none hnone with ⟨-, hnobody, hlog⟩
        have hself := setSlot_self s fd file
        rw [halloc]
        refine goes_suspend rfl trivial ((h.but fd).setSlot file) ?_ ?_ hnobody hlog
        · rw [hself, hinit]
        · rw [hself, hcount]
  | close fd =>
    rw [FdWorld.call]
    rcases fd2file_cases s.fdArray fd with ⟨code, hfile⟩ | ⟨index, hopened, hfile⟩
    · rw [hfile]
      exact goes_ok h
    · rw [hfile]
      exact h.close hopened _
  | io fd op =>
    rw [FdWorld.call]
    rcases fd2file_cases s.fdArray fd with ⟨code, hfile⟩ | ⟨index, hopened, hfile⟩
    · rw [hfile]
      exact goes_ok h
    · rw [hfile]
      rcases h.of_opened hopened with ⟨node, hnode, hcount, hcalls, hlog⟩
      dsimp only
      split
      · rw [fdArrayAcquire, Outcome.require_of_true hopened, Outcome.ok_bind]
        change Goes (match (s.fdArray index).node with
          | none => .error .panic
          | some node => _)
        rw [hnode]
        refine goes_ok (table_suspend rfl ((h.but index).setSlot _) (.opened ?_ ?_ ?_ ?_ hlog))
        · exact (congrArg (fun slot : Slot Inode ↦ slot.status) (setSlot_self ..)).trans hopened
        · exact congrArg (fun slot : Slot Inode ↦ slot.node) (setSlot_self ..)
        · refine (congrArg (fun slot : Slot Inode ↦ slot.openCount) (setSlot_self ..)).trans ?_
          rw [Multiset.card_cons]
          exact congrArg (· + 1) hcount
        · intro call hcall
          rcases Multiset.mem_cons.mp hcall with rfl | hold
          · exact ⟨index, op, rfl⟩
          · exact hcalls call hold
      · exact goes_ok h
  | dup fd1 fd2 =>
    rw [FdWorld.call]
    rcases fd2file_cases s.fdArray fd1 with ⟨code, hfile⟩ | ⟨src, hopened, hfile⟩
    · rw [hfile]
      exact goes_ok h
    · rw [hfile]
      rcases h.of_opened hopened with ⟨node, hnode, -, -, -⟩
      dsimp only
      rcases fdArrayAlloc_cases hfree fd2
        with ⟨code, halloc⟩ | ⟨fd, file, hnone, halloc, hinit, hcount⟩
      · rw [halloc]
        exact goes_ok h
      · rcases h.count_of_none hnone with ⟨-, hnobody, hlog⟩
        rcases fdArrayDup_eq file (s.fdArray src) hinit hopened hnode
          with ⟨copy, hdup, hstatus, hcopy, hone⟩
        rw [halloc, Outcome.ok_bind]
        dsimp only
        rw [hdup, Outcome.ok_bind, hcopy]
        rw [hcount] at hone
        exact goes_ok (table_putNode (h.but fd) hstatus hcopy hone hnobody hlog)
  | closeall => exact goes_ok (h.closeall _)

end FdWorld

/-! ## Runs -/

section Runs

variable [DecidableEq Inode]

/-- What `dup_files` makes of slots that nobody is at. -/
theorem dupSlots_eq {src fdArray : ℕ → Slot Inode} {fds : List ℕ} (hfds : fds.Nodup)
    (hsrc : ∀ fd, (src fd).status = .opened → (src fd).node.isSome)
    (hdst : ∀ fd ∈ fds, (fdArray fd).openCount = 0) (c : Counts Inode) :
    ∃ after array, dupSlots src c fdArray fds = .ok (after, array) ∧
      (∀ fd, fd ∉ fds ∨ (src fd).status ≠ .opened → array fd = fdArray fd) ∧
      ∀ fd ∈ fds, (src fd).status = .opened → (array fd).status = .opened ∧
        (array fd).node = (src fd).node ∧ (array fd).openCount = 1 := by
  induction fds generalizing c fdArray with
  | nil =>
    exact ⟨c, fdArray, rfl, fun _ _ ↦ rfl, fun fd hfd ↦ absurd hfd List.not_mem_nil⟩
  | cons fd fds ih =>
    rcases List.nodup_cons.mp hfds with ⟨hfresh, hrest⟩
    rw [List.forall_mem_cons] at hdst
    by_cases hopened : (src fd).status = .opened
    · rcases Option.isSome_iff_exists.mp (hsrc fd hopened) with ⟨node, hnode⟩
      rcases fdArrayDup_eq { fdArray fd with status := .init } (src fd) rfl hopened hnode
        with ⟨file, hdup, hstatus, hcopy, hcount⟩
      have hlater : ∀ other ∈ fds, (Function.update fdArray fd file other).openCount = 0 := by
        intro other hother
        have hne : other ≠ fd := fun heq ↦ hfresh (heq ▸ hother)
        rw [Function.update_of_ne hne]
        exact hdst.2 other hother
      rcases ih hrest hlater ((c.refInc node).openInc node)
        with ⟨after, array, hslots, hsame, hcopied⟩
      refine ⟨after, array, ?_, fun other hother ↦ ?_, fun other hother hother' ↦ ?_⟩
      · rw [dupSlots, if_pos hopened, hnode]
        dsimp only
        rw [hdup]
        exact hslots
      · have hne : other ≠ fd := by
          rintro rfl
          exact hother.elim (fun hnot ↦ hnot List.mem_cons_self) fun hnot ↦ hnot hopened
        have hkeep := hsame other (hother.imp_left fun hnot hin ↦ hnot (List.mem_cons_of_mem _ hin))
        rw [hkeep, Function.update_of_ne hne]
      · rcases List.mem_cons.mp hother with rfl | hin
        · have hkeep := hsame other (Or.inl hfresh)
          rw [Function.update_self] at hkeep
          rw [hkeep]
          exact ⟨hstatus, hcopy.trans hnode.symm, hcount.trans (congrArg (· + 1) hdst.1)⟩
        · exact hcopied other hin hother'
    · rcases ih hrest hdst.2 c with ⟨after, array, hslots, hsame, hcopied⟩
      refine ⟨after, array, ?_, fun other hother ↦ ?_, fun other hother hother' ↦ ?_⟩
      · rw [dupSlots, if_neg hopened]
        exact hslots
      · exact hsame other (hother.imp_left fun hnot hin ↦ hnot (List.mem_cons_of_mem _ hin))
      · rcases List.mem_cons.mp hother with rfl | hin
        · exact absurd hother' hopened
        · exact hcopied other hin hother'

namespace FdWorld

variable {s next : FdWorld Inode} {fd : ℕ}

/-- A table whose slots are free or have just been opened. -/
theorem table_fresh {fdArray : ℕ → Slot Inode}
    (h : ∀ fd, (fdArray fd).status = .none ∧ (fdArray fd).openCount = 0 ∨
      (fdArray fd).status = .opened ∧ (fdArray fd).node.isSome ∧ (fdArray fd).openCount = 1) :
    (fresh fdArray).Table := by
  intro fd
  rcases h fd with ⟨hstatus, hcount⟩ | ⟨hstatus, hnode, hcount⟩
  · refine .free hstatus hcount rfl (if_neg ?_)
    rw [hstatus]
    decide
  · rcases Option.isSome_iff_exists.mp hnode with ⟨node, hnode⟩
    have hlog : (fresh fdArray).opened fd = [node] := by
      change (if (fdArray fd).status = .opened then _ else _) = _
      rw [if_pos hstatus, hnode]
      rfl
    exact .opened hstatus hnode hcount (fun call hcall ↦ absurd hcall (Multiset.notMem_zero call))
      hlog

theorem Table.dup (h : s.Table) (c : Counts Inode) : ∃ after fdArray,
    dupSlots s.fdArray c fdArrayInit (List.range FILES_STRUCT_NENTRY) = .ok (after, fdArray) ∧
      (fresh fdArray).Table := by
  have hsrc : ∀ fd, (s.fdArray fd).status = .opened → (s.fdArray fd).node.isSome := by
    intro fd hopened
    rcases h.of_opened hopened with ⟨node, hnode, -⟩
    rw [hnode]
    rfl
  have hdst : ∀ fd ∈ List.range FILES_STRUCT_NENTRY,
      (fdArrayInit fd : Slot Inode).openCount = 0 := fun _ _ ↦ rfl
  rcases dupSlots_eq List.nodup_range hsrc hdst c
    with ⟨after, fdArray, hslots, hsame, hcopied⟩
  refine ⟨after, fdArray, hslots, table_fresh fun fd ↦ ?_⟩
  by_cases hcopy : fd ∈ List.range FILES_STRUCT_NENTRY ∧ (s.fdArray fd).status = .opened
  · rcases hcopied fd hcopy.1 hcopy.2 with ⟨hstatus, hnode, hcount⟩
    exact Or.inr ⟨hstatus, hnode ▸ hsrc fd hcopy.2, hcount⟩
  · rw [hsame fd (not_and_or.mp hcopy)]
    exact Or.inl ⟨rfl, rfl⟩

theorem Table.step (h : s.Table) (hstep : FdStep s next) : next.Table := by
  cases hstep with
  | @call _ request ret hcall =>
    rcases h.request request with ⟨ret', next', hgoes, htable⟩
    cases hgoes.symm.trans hcall
    exact htable
  | @resume _ call rest answer ret hcalls hresume =>
    rcases h.resume hcalls answer with ⟨ret', next', hgoes, htable⟩
    cases hgoes.symm.trans hresume
    exact htable
  | @dup c after fdArray hslots =>
    rcases h.dup c with ⟨after', fdArray', hgoes, htable⟩
    cases hgoes.symm.trans hslots
    exact htable

/-- How many processes are in an operation on a slot. -/
def inFlight (s : FdWorld Inode) (fd : ℕ) : ℕ := s.calls.countP fun call ↦ call.isInside fd

/-- The slot has an inode for which `vfs_close` has not been called. -/
def Holding (s : FdWorld Inode) (fd : ℕ) : Prop :=
  (s.fdArray fd).status = .opened ∨ (s.fdArray fd).status = .closed ∧ 0 < s.inFlight fd

/-- What holds of a table whatever its processes have done, and that no assertion is about to
fail. -/
structure Safe (s : FdWorld Inode) : Prop where
  count : ∀ fd, (s.fdArray fd).openCount =
    (if (s.fdArray fd).status = .opened then 1 else 0) + s.inFlight fd
  /-- An operation keeps the inode that it has started with. -/
  inside : ∀ fd op node time, .inside fd op node time ∈ s.calls →
    ((s.fdArray fd).status = .opened ∨ (s.fdArray fd).status = .closed) ∧
      (s.fdArray fd).node = some node ∧ (s.opened fd).length = time
  /-- `vfs_close` has been called once for each inode but the one that the slot still holds. -/
  once : ∀ fd, (s.Holding fd → ∃ node, (s.fdArray fd).node = some node ∧
      s.opened fd = s.vfsClosed fd ++ [node]) ∧
    (¬s.Holding fd → s.opened fd = s.vfsClosed fd)
  /-- A slot that is handed out is not in use, and its last `vfs_close` has come back. -/
  reuse : ∀ fd index file, fdArrayAlloc s.fdArray fd = .ok (.ok (index, file)) →
    (∀ call ∈ s.calls, call.slot ≠ some index) ∧ ¬s.Holding index
  calls : ∀ request, ∃ ret next, s.call request = .ok (ret, next)
  resumes : ∀ call rest, s.calls = call ::ₘ rest → ∀ answer, ∃ ret next,
    resume { s with calls := rest } call answer = .ok (ret, next)
  dupFiles : ∀ c, ∃ after fdArray,
    dupSlots s.fdArray c fdArrayInit (List.range FILES_STRUCT_NENTRY) = .ok (after, fdArray)
  /-- `files_destroy` finds no slot that it cannot free. -/
  destroy : s.calls = 0 → ∀ fd, (s.fdArray fd).status = .none ∨
    (s.fdArray fd).status = .opened ∧ ∃ file node, fdArrayClose (s.fdArray fd) =
      .ok (file, some node)

theorem slot_of_isInside {call : FdCall Inode} (h : call.isInside fd) : call.slot = some fd := by
  cases call with
  | inside slot op node time =>
    have hslot : slot = fd := of_decide_eq_true h
    exact congrArg some hslot
  | _ => cases h

theorem inFlight_eq (s : FdWorld Inode) (fd : ℕ) :
    s.inFlight fd = (s.callsAt fd).countP fun call ↦ call.isInside fd := by
  rw [inFlight, callsAt, Multiset.countP_filter]
  refine Multiset.countP_congr rfl fun call _ ↦ ?_
  exact propext ⟨fun h ↦ ⟨h, slot_of_isInside h⟩, And.left⟩

/-- All processes at a slot are in operations on it. -/
theorem inFlight_of_inside {node : Inode} {time : ℕ}
    (h : ∀ call ∈ s.callsAt fd, ∃ slot op, call = .inside slot op node time) :
    s.inFlight fd = (s.callsAt fd).card := by
  rw [inFlight_eq]
  refine Multiset.countP_eq_card.mpr fun call hcall ↦ ?_
  rcases h call hcall with ⟨slot, op, rfl⟩
  have hslot : some slot = some fd := (Multiset.mem_filter.mp hcall).2
  exact decide_eq_true (Option.some.inj hslot)

theorem inFlight_of_nobody (h : s.callsAt fd = 0) : s.inFlight fd = 0 := by
  rw [inFlight_eq, h]
  rfl

theorem inFlight_of_alone {call : FdCall Inode} (h : s.callsAt fd = {call})
    (hnot : ¬call.isInside fd) : s.inFlight fd = 0 := by
  rw [inFlight_eq, h]
  exact Multiset.countP_eq_zero.mpr fun other hother ↦ Multiset.mem_singleton.mp hother ▸ hnot

/-- The users of a slot and its history, phase by phase. -/
theorem Table.summary (h : s.Table) (fd : ℕ) :
    (s.fdArray fd).openCount =
      (if (s.fdArray fd).status = .opened then 1 else 0) + s.inFlight fd ∧
    (s.Holding fd → ∃ node, (s.fdArray fd).node = some node ∧
      s.opened fd = s.vfsClosed fd ++ [node]) ∧
    (¬s.Holding fd → s.opened fd = s.vfsClosed fd) := by
  unfold Holding
  cases h fd with
  | free hstatus hcount hnobody hlog =>
    have hzero := inFlight_of_nobody hnobody
    rw [hstatus, hzero, hcount]
    exact ⟨rfl, fun hhold ↦ by simp at hhold, fun _ ↦ hlog⟩
  | @opening call hopens hstatus hcount hone hlog =>
    have hnot : ¬call.isInside fd := by
      cases call with
      | inside => cases hopens
      | _ => exact Bool.false_ne_true
    have hzero := inFlight_of_alone hone hnot
    rw [hstatus, hzero, hcount]
    exact ⟨rfl, fun hhold ↦ by simp at hhold, fun _ ↦ hlog⟩
  | opened hstatus hnode hcount hinside hlog =>
    rw [inFlight_of_inside hinside, if_pos hstatus, hcount, add_comm]
    exact ⟨rfl, fun _ ↦ ⟨_, hnode, hlog⟩, fun hnot ↦ absurd (Or.inl hstatus) hnot⟩
  | closed hstatus hnode hcount hused hinside hlog =>
    have hpos : 0 < (s.callsAt fd).card := Multiset.card_pos.mpr hused
    have hnot : ¬(s.fdArray fd).status = .opened := by
      rw [hstatus]
      decide
    rw [inFlight_of_inside hinside, if_neg hnot, hcount, zero_add]
    exact ⟨rfl, fun _ ↦ ⟨_, hnode, hlog⟩, fun hnot ↦ absurd (Or.inr ⟨hstatus, hpos⟩) hnot⟩
  | closing hstatus hnode hcount hone hlog =>
    have hzero := inFlight_of_alone hone Bool.false_ne_true
    rw [hstatus, hzero, hcount]
    exact ⟨rfl, fun hhold ↦ by simp at hhold, fun _ ↦ hlog⟩

theorem Table.safe (h : s.Table) : s.Safe where
  count := fun fd ↦ (h.summary fd).1
  inside := by
    intro fd op node time hcall
    have hat : .inside fd op node time ∈ s.callsAt fd := Multiset.mem_filter.mpr ⟨hcall, rfl⟩
    rcases Multiset.exists_cons_of_mem hat with ⟨rest, hrest⟩
    have hphase := h fd
    rw [hrest] at hphase
    rcases hphase.of_inside with ⟨htime, hnode, -, -, hstatus⟩
    exact ⟨hstatus.imp And.left And.left, hnode, htime.symm⟩
  once := fun fd ↦ (h.summary fd).2
  reuse := by
    intro fd index file halloc
    rcases fdArrayAlloc_cases (fun fd hnone ↦ (h.count_of_none hnone).1) fd
      with ⟨code, hfail⟩ | ⟨found, slot, hnone, hfound, -, -⟩
    · cases hfail.symm.trans halloc
    · cases hfound.symm.trans halloc
      rcases h.count_of_none hnone with ⟨-, hnobody, -⟩
      refine ⟨fun call hcall hslot ↦ ?_, ?_⟩
      · have hat : call ∈ s.callsAt index := Multiset.mem_filter.mpr ⟨hcall, hslot⟩
        rw [hnobody] at hat
        exact Multiset.notMem_zero call hat
      · unfold Holding
        rw [hnone]
        simp
  calls := by
    intro request
    rcases h.request request with ⟨ret, next, hcall, -⟩
    exact ⟨ret, next, hcall⟩
  resumes := by
    intro call rest hcalls answer
    rcases h.resume hcalls answer with ⟨ret, next, hresume, -⟩
    exact ⟨ret, next, hresume⟩
  dupFiles := by
    intro c
    rcases h.dup c with ⟨after, fdArray, hslots, -⟩
    exact ⟨after, fdArray, hslots⟩
  destroy := by
    intro hcalls fd
    have hnobody : s.callsAt fd = 0 := by
      rw [callsAt, hcalls]
      exact Multiset.filter_zero _
    have hphase := h fd
    rw [hnobody] at hphase
    cases hphase with
    | free hstatus => exact Or.inl hstatus
    | opening _ _ _ hone => exact absurd hone.symm (Multiset.singleton_ne_zero _)
    | opened hstatus hnode hcount =>
      exact Or.inr ⟨hstatus, _, _, fdArrayClose_last hstatus hcount hnode⟩
    | closed _ _ _ hused => exact absurd rfl hused
    | closing _ _ _ hone => exact absurd hone.symm (Multiset.singleton_ne_zero _)

/-- In every run of any number of processes, the descriptor table is in order, and no assertion of
`file.c` fails. -/
theorem safe_of_reachable (s : FdWorld Inode)
    (h : Reachable (fun s ↦ s = FdWorld.created) FdStep s) : s.Safe := by
  have htable : s.Table := by
    refine h.invariant (fun first hfirst ↦ ?_) fun state next hstate hstep ↦ hstate.step hstep
    rw [hfirst]
    exact table_fresh fun fd ↦ Or.inl ⟨rfl, rfl⟩
  exact htable.safe

/-- A descriptor is closed while a process reads from it. -/
theorem safe_closedWhileReading : ∃ s : FdWorld ℕ, (s.fdArray 0).status = .closed ∧
    s.inFlight 0 = 1 ∧ s.Safe := by
  have hfirst : Reachable (fun s : FdWorld ℕ ↦ s = created) FdStep created := .first rfl
  have hopen : Reachable (fun s : FdWorld ℕ ↦ s = created) FdStep _ :=
    hfirst.step (FdStep.call (show created.call (.open 0) = .ok (none, _) from rfl))
  have hopened : Reachable (fun s : FdWorld ℕ ↦ s = created) FdStep _ :=
    hopen.step (FdStep.resume (show _ = FdCall.opening 0 0 true false ::ₘ 0 from rfl)
      (show FdWorld.resume (_ : FdWorld ℕ) (.opening 0 0 true false) (Except.ok 7 : Ret ℕ) =
        .ok (some (.ok 0), _) from rfl))
  have hread : Reachable (fun s : FdWorld ℕ ↦ s = created) FdStep _ :=
    hopened.step (FdStep.call (show FdWorld.call (_ : FdWorld ℕ) (.io 0 .read) = .ok (none, _) from rfl))
  have hclose : Reachable (fun s : FdWorld ℕ ↦ s = created) FdStep _ :=
    hread.step (FdStep.call (show FdWorld.call (_ : FdWorld ℕ) (.close 0) = .ok (some (.ok 0), _) from rfl))
  exact ⟨_, rfl, rfl, safe_of_reachable _ hclose⟩

end FdWorld

end Runs

end World

end Ucore.Fs
