import Ucore.Fs.File
import Ucore.Fs.VfsOpen

/-!
# Slots of a descriptor table

The functions of `file.c` on one slot of `fd_array`, and those of `fs.c` on the whole table of a
process. A call of `vfs_close` may suspend the process, so that `fd_array_free` is given in two
parts: the first one answers with the inode to be closed, if there is one.
-/

namespace Ucore.Fs

open Library

/-- `struct file`. -/
structure Slot (Inode : Type) extends File where
  fd : ℕ
  node : Option Inode

/-- `struct files_struct` without its semaphore. -/
structure FilesStruct (Inode : Type) where
  pwd : Option Inode
  fdArray : ℕ → Slot Inode
  filesCount : ℤ

def FILES_STRUCT_NENTRY : ℕ := 101
def NO_FD : ℤ := -0x9527

section Slots

variable {Inode : Type}

/-- A slot after `fd_array_init`, which leaves the other fields to what the memory has held. -/
def fdArrayInit (fd : ℕ) : Slot Inode where
  status := .none
  readable := false
  writable := false
  pos := 0
  openCount := 0
  fd
  node := none

/-- `fd_array_alloc`: the index of the slot. -/
def fdArrayAlloc (fdArray : ℕ → Slot Inode) (fd : ℤ) : Outcome (Ret (ℕ × Slot Inode)) := do
  let take (index : ℕ) : Outcome (Ret (ℕ × Slot Inode)) := do
    Outcome.require ((fdArray index).openCount = 0)
    return .ok (index, { fdArray index with status := .init, node := none })
  if fd = NO_FD then
    match (List.range FILES_STRUCT_NENTRY).find? fun index ↦ (fdArray index).status = .none with
    | some index => take index
    | none => return .error .maxOpen
  else if 0 ≤ fd ∧ fd < FILES_STRUCT_NENTRY then
    if (fdArray fd.toNat).status = .none then take fd.toNat else return .error .busy
  else return .error .inval

/-- `fd_array_free` up to `vfs_close`. A slot that needs none is free at once. -/
def fdArrayFree (file : Slot Inode) : Outcome (Slot Inode × Option Inode) := do
  Outcome.require (file.status = .init ∨ file.status = .closed)
  Outcome.require (file.openCount = 0)
  if file.status = .closed then
    match file.node with
    | some node => return (file, some node)
    | none => .error .panic
  else return ({ file with status := .none }, none)

/-- The end of `fd_array_free`. -/
def Slot.freed (file : Slot Inode) : Slot Inode := { file with status := .none }

def fdArrayAcquire (file : Slot Inode) : Outcome (Slot Inode) := do
  Outcome.require (file.status = .opened)
  return { file with openCount := file.openCount + 1 }

def fdArrayRelease (file : Slot Inode) : Outcome (Slot Inode × Option Inode) := do
  Outcome.require (file.status = .opened ∨ file.status = .closed)
  Outcome.require (0 < file.openCount)
  let file := { file with openCount := file.openCount - 1 }
  if file.openCount = 0 then fdArrayFree file else return (file, none)

def fdArrayOpen (file : Slot Inode) : Outcome (Slot Inode) := do
  Outcome.require (file.status = .init ∧ file.node.isSome)
  return { file with status := .opened, openCount := file.openCount + 1 }

def fdArrayClose (file : Slot Inode) : Outcome (Slot Inode × Option Inode) := do
  Outcome.require (file.status = .opened)
  Outcome.require (0 < file.openCount)
  let file := { file with status := .closed, openCount := file.openCount - 1 }
  if file.openCount = 0 then fdArrayFree file else return (file, none)

/-- `fd_array_dup` without the counts of the inode. -/
def fdArrayDup (dst src : Slot Inode) : Outcome (Slot Inode) := do
  Outcome.require (dst.status = .init ∧ src.status = .opened)
  fdArrayOpen
    { dst with pos := src.pos, readable := src.readable, writable := src.writable, node := src.node }

/-- `fd2file`: the slot of an open descriptor. -/
def fd2file (fdArray : ℕ → Slot Inode) (fd : ℤ) : Ret ℕ :=
  if 0 ≤ fd ∧ fd < FILES_STRUCT_NENTRY then
    if (fdArray fd.toNat).status = .opened ∧ (fdArray fd.toNat).fd = fd then .ok fd.toNat
    else .error .inval
  else .error .inval

def filesCreate : FilesStruct Inode where
  pwd := none
  fdArray := fdArrayInit
  filesCount := 0

end Slots

/-! ## Tables with nobody in the middle of a call -/

section Tables

variable {Inode : Type} [DecidableEq Inode]

/-- `fd_array_close` to its end. -/
def closeSlot (c : Counts Inode) (file : Slot Inode) : Outcome (Counts Inode × Slot Inode) := do
  match ← fdArrayClose file with
  | (file, some node) => return (← vfsClose c node, file.freed)
  | (file, none) => return (c, file)

/-- The loop of `files_destroy`. -/
def destroySlots (c : Counts Inode) : List (Slot Inode) → Outcome (Counts Inode)
  | [] => .ok c
  | file :: files => do
    let (c, file) ← if file.status = .opened then closeSlot c file else .ok (c, file)
    Outcome.require (file.status = .none)
    destroySlots c files

/-- The slots of a table in the order in which the loops of `fs.c` come to them. -/
def FilesStruct.slots (filesp : FilesStruct Inode) : List (Slot Inode) :=
  (List.range FILES_STRUCT_NENTRY).map filesp.fdArray

def filesDestroy (c : Counts Inode) (filesp : FilesStruct Inode) : Outcome (Counts Inode) := do
  Outcome.require (filesp.filesCount = 0)
  match filesp.pwd with
  | some pwd => destroySlots (← c.refDec pwd) filesp.slots
  | none => destroySlots c filesp.slots

/-- The loop of `files_closeall` over the slots with the given indices. -/
def closeallSlots (c : Counts Inode) (fdArray : ℕ → Slot Inode) :
    List ℕ → Outcome (Counts Inode × (ℕ → Slot Inode))
  | [] => .ok (c, fdArray)
  | fd :: fds => do
    if (fdArray fd).status = .opened then
      let (c, file) ← closeSlot c (fdArray fd)
      closeallSlots c (Function.update fdArray fd file) fds
    else closeallSlots c fdArray fds

/-- `files_closeall`, which leaves the standard input and output open. -/
def filesCloseall (c : Counts Inode) (filesp : FilesStruct Inode) :
    Outcome (Counts Inode × FilesStruct Inode) := do
  Outcome.require (0 < filesp.filesCount)
  let (c, fdArray) ← closeallSlots c filesp.fdArray ((List.range FILES_STRUCT_NENTRY).drop 2)
  return (c, { filesp with fdArray })

/-- The loop of `dup_files` over the slots with the given indices. -/
def dupSlots (src : ℕ → Slot Inode) (c : Counts Inode) (fdArray : ℕ → Slot Inode) :
    List ℕ → Outcome (Counts Inode × (ℕ → Slot Inode))
  | [] => .ok (c, fdArray)
  | fd :: fds => do
    if (src fd).status = .opened then
      match (src fd).node with
      | none => .error .panic
      | some node =>
        let file ← fdArrayDup { fdArray fd with status := .init } (src fd)
        dupSlots src ((c.refInc node).openInc node) (Function.update fdArray fd file) fds
    else dupSlots src c fdArray fds

def dupFiles (c : Counts Inode) (dst src : FilesStruct Inode) :
    Outcome (Counts Inode × FilesStruct Inode) := do
  Outcome.require (dst.filesCount = 0 ∧ 0 < src.filesCount)
  let c := match src.pwd with
    | some pwd => c.refInc pwd
    | none => c
  let (c, fdArray) ← dupSlots src.fdArray c dst.fdArray (List.range FILES_STRUCT_NENTRY)
  return (c, { dst with pwd := src.pwd, fdArray })

end Tables

/-! ## What a table holds -/

section Held

variable {Inode : Type} [DecidableEq Inode]

/-- The counts that an open slot has of the inodes. -/
def Slot.held (file : Slot Inode) : Inode → BitVec 32 :=
  if file.status = .opened then file.node.elim 0 fun n ↦ Pi.single n 1 else 0

theorem closeSlot_ok {c after : Counts Inode} {file closed : Slot Inode}
    (h : closeSlot c file = .ok (after, closed)) (hopened : file.status = .opened)
    (hnone : closed.status = .none) :
    after.refs = c.refs - file.held ∧ after.opens = c.opens - file.held := by
  rcases Outcome.bind_eq_ok.mp h with ⟨⟨last, node⟩, hclose, h⟩
  rcases Outcome.bind_eq_ok.mp hclose with ⟨_, -, hclose⟩
  rcases Outcome.bind_eq_ok.mp hclose with ⟨_, -, hclose⟩
  dsimp only at hclose
  split at hclose
  · rcases Outcome.bind_eq_ok.mp hclose with ⟨_, -, hclose⟩
    rcases Outcome.bind_eq_ok.mp hclose with ⟨_, -, hclose⟩
    rw [if_pos rfl] at hclose
    dsimp only at hclose
    split at hclose
    · rename_i n hnode
      cases hclose
      rcases Outcome.bind_eq_ok.mp h with ⟨counts, hvfs, h⟩
      cases h
      have hheld : file.held = Pi.single n 1 := by
        rw [Slot.held, if_pos hopened, hnode]
        rfl
      rw [hheld]
      exact vfsClose_ok hvfs
    · cases hclose
  · -- a slot that another call still uses is not free
    cases hclose
    cases h
    cases hnone

theorem destroySlots_ok {files : List (Slot Inode)} {c after : Counts Inode}
    (h : destroySlots c files = .ok after) :
    after.refs = c.refs - (files.map Slot.held).sum ∧
      after.opens = c.opens - (files.map Slot.held).sum := by
  induction files generalizing c with
  | nil =>
    cases h
    rw [List.map_nil, List.sum_nil, sub_zero, sub_zero]
    exact ⟨rfl, rfl⟩
  | cons file files ih =>
    have hfirst : ∃ middle, (middle.refs = c.refs - file.held ∧ middle.opens = c.opens - file.held) ∧
        destroySlots middle files = .ok after := by
      rw [destroySlots] at h
      split at h
      · rename_i hopened
        rcases Outcome.bind_eq_ok.mp h with ⟨⟨middle, closed⟩, hclose, h⟩
        rcases Outcome.bind_eq_ok.mp h with ⟨_, hnone, h⟩
        exact ⟨middle, closeSlot_ok hclose hopened (Outcome.require_eq_ok.mp hnone), h⟩
      · rename_i hother
        rcases Outcome.bind_eq_ok.mp h with ⟨_, heq, h⟩
        cases heq
        rcases Outcome.bind_eq_ok.mp h with ⟨_, -, h⟩
        refine ⟨c, ?_, h⟩
        rw [Slot.held, if_neg hother, sub_zero, sub_zero]
        exact ⟨rfl, rfl⟩
    rcases hfirst with ⟨middle, hmiddle, h⟩
    rcases ih h with ⟨hrefs, hopens⟩
    rw [List.map_cons, List.sum_cons, hrefs, hopens, hmiddle.1, hmiddle.2, sub_sub, sub_sub]
    exact ⟨rfl, rfl⟩

/-- The counts that the open descriptors have of the inodes. -/
def FilesStruct.opened (filesp : FilesStruct Inode) : Inode → BitVec 32 :=
  (filesp.slots.map Slot.held).sum

/-- The references that a files structure has to inodes: to its working directory, and one for each
open descriptor. -/
def FilesStruct.held (filesp : FilesStruct Inode) : Inode → BitVec 32 :=
  filesp.pwd.elim 0 (fun n ↦ Pi.single n 1) + filesp.opened

theorem filesDestroy_ok {c after : Counts Inode} {filesp : FilesStruct Inode}
    (h : filesDestroy c filesp = .ok after) :
    after.refs = c.refs - filesp.held ∧
      after.opens = c.opens - filesp.opened := by
  rcases Outcome.bind_eq_ok.mp h with ⟨_, -, h⟩
  rw [FilesStruct.held]
  cases hpwd : filesp.pwd with
  | none =>
    rw [hpwd] at h
    rw [Option.elim_none, zero_add]
    exact destroySlots_ok h
  | some pwd =>
    rw [hpwd] at h
    rcases Outcome.bind_eq_ok.mp h with ⟨middle, hdec, h⟩
    rcases refDec_ok hdec with ⟨hrefs', hopens'⟩
    rcases destroySlots_ok h with ⟨hrefs, hopens⟩
    rw [hrefs, hopens, hrefs', hopens', Option.elim_some, sub_sub]
    exact ⟨rfl, rfl⟩

end Held

end Ucore.Fs
