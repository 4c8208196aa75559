import Ucore.Fs.SfsDir
import Ucore.Process.ProcTable

/-!
# Inodes in memory

The part of `sfs_inode.c` and `vfs/inode.c` that loads inodes, counts the references to them and
frees them. A call that may wait for the device is cut there: each part runs from one such point to
the next, with the lock of the file system held.
-/

namespace Ucore.Fs

open Library

def SFS_HLIST_SHIFT : ℕ := 10
def MAX_INODE_COUNT : ℤ := 0x10000

/-- `struct inode` with its `struct sfs_inode`. The disk inode is kept as its bytes. -/
structure Node where
  ino : ℕ
  din : Bytes
  dirty : Bool
  reclaimCount : ℤ
  refCount : ℤ
  openCount : ℤ

/-- The file system and its inodes in memory, by address. No address is handed out twice, and
`freed` counts how often `kfree` was called on it. -/
structure InodeTable where
  sfs : SfsFs
  nodes : ℕ → Option Node
  hashList : ℕ → List ℕ
  inodeList : List ℕ
  next : ℕ
  freed : ℕ → ℕ

def sinHashfn (ino : ℕ) : ℕ := Process.hash32 ino SFS_HLIST_SHIFT

/-- Access through a pointer, which must not dangle. -/
def InodeTable.node (t : InodeTable) (n : ℕ) : Outcome Node :=
  match t.nodes n with
  | some node => .ok node
  | none => .error .panic

def InodeTable.set (t : InodeTable) (n : ℕ) (node : Node) : InodeTable :=
  { t with nodes := Function.update t.nodes n (some node) }

/-! ## `vfs/inode.c` -/

/-- `inode_check`, which comes before every operation of an inode. -/
def inodeCheck (node : Node) : Outcome Unit :=
  Outcome.require (node.openCount ≤ node.refCount ∧ 0 ≤ node.openCount ∧
    node.refCount < MAX_INODE_COUNT ∧ node.openCount < MAX_INODE_COUNT)

def inodeRefInc (t : InodeTable) (n : ℕ) : Outcome (ℤ × InodeTable) := do
  let node ← t.node n
  let refCount := int32 (node.refCount + 1)
  return (refCount, t.set n { node with refCount })

/-- `inode_ref_dec`, and whether it goes on to `vop_reclaim`. -/
def inodeRefDec (t : InodeTable) (n : ℕ) : Outcome (Bool × InodeTable) := do
  let node ← t.node n
  Outcome.require (0 < node.refCount)
  let node := { node with refCount := node.refCount - 1 }
  if node.refCount = 0 then
    inodeCheck node
    return (true, t.set n node)
  else return (false, t.set n node)

def inodeOpenInc (t : InodeTable) (n : ℕ) : Outcome InodeTable := do
  let node ← t.node n
  return t.set n { node with openCount := int32 (node.openCount + 1) }

/-- `inode_open_dec` up to `vop_close`. -/
def inodeOpenDec (t : InodeTable) (n : ℕ) : Outcome InodeTable := do
  let node ← t.node n
  Outcome.require (0 < node.openCount)
  return t.set n { node with openCount := node.openCount - 1 }

/-- `inode_kill`. -/
def inodeKill (t : InodeTable) (n : ℕ) : Outcome InodeTable := do
  let node ← t.node n
  Outcome.require (node.refCount = 0)
  Outcome.require (node.openCount = 0)
  return { t with
    nodes := Function.update t.nodes n none
    freed := Function.update t.freed n (t.freed n + 1) }

/-! ## Loading -/

/-- What `lookup_sfs_nolock` does with the inode it has found. -/
def lookupTake (t : InodeTable) (n : ℕ) : Outcome InodeTable := do
  let (refCount, t) ← inodeRefInc t n
  if refCount = 1 then
    let node ← t.node n
    return t.set n { node with reclaimCount := int32 (node.reclaimCount + 1) }
  else return t

/-- The loop of `lookup_sfs_nolock` over the rest of a hash list. -/
def lookupFrom (t : InodeTable) (ino : ℕ) : List ℕ → Outcome (Option ℕ × InodeTable)
  | [] => return (none, t)
  | n :: rest => do
    let node ← t.node n
    if node.ino = ino then return (some n, ← lookupTake t n)
    else lookupFrom t ino rest

def lookupSfsNolock (t : InodeTable) (ino : ℕ) : Outcome (Option ℕ × InodeTable) :=
  lookupFrom t ino (t.hashList (sinHashfn ino))

/-- `sfs_create_inode`, with whether there is memory for an inode. -/
def sfsCreateInode (t : InodeTable) (memory : Bool) (din : Bytes) (ino : ℕ) :
    Outcome (Ret ℕ × InodeTable) := do
  if memory then
    -- `sfs_get_ops`
    Outcome.require ((diskInode din).type = SFS_TYPE_DIR ∨ (diskInode din).type = SFS_TYPE_FILE)
    return (.ok t.next, { t.set t.next ⟨ino, din, false, 1, 1, 0⟩ with next := t.next + 1 })
  else return (.error .noMem, t)

def sfsSetLinks (t : InodeTable) (n : ℕ) : Outcome InodeTable := do
  let node ← t.node n
  let slot := sinHashfn node.ino
  return { t with
    inodeList := n :: t.inodeList
    hashList := Function.update t.hashList slot (n :: t.hashList slot) }

def sfsRemoveLinks (t : InodeTable) (n : ℕ) : Outcome InodeTable := do
  let node ← t.node n
  let slot := sinHashfn node.ino
  return { t with
    inodeList := t.inodeList.erase n
    hashList := Function.update t.hashList slot ((t.hashList slot).erase n) }

/-- `sfs_load_inode` from `lock_sfs_fs` on, with whether there is memory for a disk inode: the
result, unless the disk inode has to be read. -/
def loadStart (t : InodeTable) (memory : Bool) (ino : ℕ) :
    Outcome (Option (Ret ℕ) × InodeTable) := do
  match ← lookupSfsNolock t ino with
  | (some n, t) => return (some (.ok n), t)
  | (none, t) =>
    if memory then
      Outcome.require (← sfsBlockInuse t.sfs ino)
      return (none, t)
    else return (some (.error .noMem), t)

/-- `sfs_load_inode` from `sfs_rbuf` on, with whether there is memory for an inode. -/
def loadRead (t : InodeTable) (memory : Bool) (ino : ℕ) : Outcome (Ret ℕ × InodeTable) := do
  match ← sfsRbuf t.sfs 64 ino 0 with
  | .error code => return (.error code, t)
  | .ok din =>
    Outcome.require (diskNlinks din ≠ 0)
    match ← sfsCreateInode t memory din ino with
    | (.error code, t) => return (.error code, t)
    | (.ok n, t) => return (.ok n, ← sfsSetLinks t n)

/-! ## Freeing -/

/-- The fields of an inode laid over the bytes of its disk inode. -/
def layInode (din : Bytes) (sin : SfsInode) : Bytes := fun index ↦
  if index < 4 then bytes32 sin.size index
  else if index < 8 then din index
  else if index < 12 then bytes32 sin.blocks (index - 8)
  else if index < 60 then bytes32 (sin.direct ((index - 12) / 4)) ((index - 12) % 4)
  else if index < 64 then bytes32 sin.indirect (index - 60)
  else din index

/-- How far a part of `sfs_reclaim` has come: to the end, or to a call that may wait. -/
inductive Reclaiming where
  | done (ret : Ret Unit)
  | truncate
  | sync

/-- `sfs_reclaim` from `sfs_remove_links` on. -/
def reclaimFinish (t : InodeTable) (n : ℕ) : Outcome (Reclaiming × InodeTable) := do
  let node ← t.node n
  let t ← sfsRemoveLinks t n
  if diskNlinks node.din = 0 then
    let sfs ← sfsBlockFree t.sfs node.ino
    let ent := (diskInode node.din).indirect
    let sfs ← if ent ≠ 0 then sfsBlockFree sfs ent else pure sfs
    return (.done (.ok ()), ← inodeKill { t with sfs } n)
  else return (.done (.ok ()), ← inodeKill t n)

/-- `sfs_reclaim` from the test of `dirty` on. -/
def reclaimFlush (t : InodeTable) (n : ℕ) : Outcome (Reclaiming × InodeTable) := do
  let node ← t.node n
  if node.dirty then
    inodeCheck node
    return (.sync, t.set n { node with dirty := false })
  else reclaimFinish t n

/-- `sfs_reclaim` from `lock_sfs_fs` on. -/
def reclaimStart (t : InodeTable) (n : ℕ) : Outcome (Reclaiming × InodeTable) := do
  let node ← t.node n
  Outcome.require (0 < node.reclaimCount)
  let node := { node with reclaimCount := node.reclaimCount - 1 }
  let t := t.set n node
  if node.reclaimCount ≠ 0 ∨ node.refCount ≠ 0 then return (.done (.error .busy), t)
  else if diskNlinks node.din = 0 then
    -- a directory has no `vop_truncate`
    Outcome.require ((diskInode node.din).type = SFS_TYPE_FILE)
    inodeCheck node
    return (.truncate, t)
  else reclaimFlush t n

/-- `sfs_reclaim` from `vop_truncate` on. -/
def reclaimTruncate (t : InodeTable) (n : ℕ) : Outcome (Reclaiming × InodeTable) := do
  let node ← t.node n
  match ← sfsTruncfile t.sfs { diskInode node.din with dirty := node.dirty } 0 with
  | (ret, sfs, sin) =>
    let t := { t with sfs }.set n { node with din := layInode node.din sin, dirty := sin.dirty }
    match ret with
    | .error code => return (.done (.error code), t)
    | .ok () => reclaimFlush t n

/-- `sfs_reclaim` from the write of the disk inode on. -/
def reclaimSync (t : InodeTable) (n : ℕ) : Outcome (Reclaiming × InodeTable) := do
  let node ← t.node n
  match ← sfsWbuf t.sfs node.din 64 node.ino 0 with
  | (.error code, sfs) =>
    return (.done (.error code), { t with sfs }.set n { node with dirty := true })
  | (.ok (), sfs) => reclaimFinish { t with sfs } n

end Ucore.Fs
