import Ucore.Fs.SfsLength

/-!
# Operations on the inode of a file

The functions of `sfs_inode.c` that the tables of operations name, as far as a regular file has
them. They work on a mounted file system together with the inodes as they are stored on the disk,
which differ from those in memory until they are synchronized.
-/

namespace Ucore.Fs

open Library

def SFS_TYPE_LINK : ℕ := 3

/-- A mounted file system, and the inodes on the disk. -/
structure Volume where
  mount : Mount
  disk : ℕ → SfsInode

namespace Volume

def inode (v : Volume) (ino : ℕ) : SfsInode := v.mount.inode ino

/-- The volume after a call on one inode. -/
def set (v : Volume) (ino : ℕ) (sfs : SfsFs) (sin : SfsInode) : Volume :=
  { v with mount := v.mount.set ino sfs sin }

end Volume

/-- `struct iobuf`, with the memory that it points into. -/
structure Iobuf where
  memory : Bytes
  base : ℕ
  offset : ℤ
  len : ℕ
  resid : ℕ

def iobufInit (memory : Bytes) (base len : ℕ) (offset : ℤ) : Iobuf := ⟨memory, base, offset, len, len⟩

def iobufUsed (iob : Iobuf) : ℕ := iob.len - iob.resid

def iobufSkip (iob : Iobuf) (n : ℕ) : Outcome Iobuf := do
  Outcome.require (n ≤ iob.resid)
  return { iob with base := iob.base + n, offset := int64 (iob.offset + n), resid := iob.resid - n }

namespace Volume

/-- `sfs_io`. -/
def sfsIo (write : Bool) (ino : ℕ) (v : Volume) (iob : Iobuf) : Outcome (Ret ℕ × Iobuf × Volume) := do
  let (ret, io) ← sfsIoNolock v.mount.sfs (v.inode ino) iob.memory iob.base iob.offset iob.resid write
  let v := v.set ino io.fs io.sin
  let iob := { iob with memory := io.memory }
  if io.alen ≠ 0 then
    let iob ← iobufSkip iob io.alen
    return (ret.map fun _ ↦ 0, iob, v)
  else return (ret.map fun _ ↦ 0, iob, v)

def sfsRead (ino : ℕ) : Volume → Iobuf → Outcome (Ret ℕ × Iobuf × Volume) := sfsIo false ino

def sfsWrite (ino : ℕ) : Volume → Iobuf → Outcome (Ret ℕ × Iobuf × Volume) := sfsIo true ino

/-- `sfs_fstat`, for the size. The type has to be one that `sfs_gettype` knows. -/
def sfsFstat (ino : ℕ) (v : Volume) : Outcome (Ret ℕ) := do
  Outcome.require ((v.inode ino).type = SFS_TYPE_DIR ∨ (v.inode ino).type = SFS_TYPE_FILE ∨
    (v.inode ino).type = SFS_TYPE_LINK)
  return .ok (v.inode ino).size

/-- `sfs_fsync`. `sfs_wbuf` reads and writes the block that the inode is stored in. -/
def sfsFsync (ino : ℕ) (v : Volume) : Outcome (Ret Unit × Volume) := do
  if (v.inode ino).dirty then
    match ← sfsRwblockNolock v.mount.sfs ino with
    | .error code => return (.error code, v)
    | .ok _ =>
      let sin := { v.inode ino with dirty := false }
      return (.ok (), { v.set ino v.mount.sfs sin with disk := Function.update v.disk ino sin })
  else return (.ok (), v)

/-- `sfs_tryseek`. -/
def sfsTryseek (ino : ℕ) (v : Volume) (pos : ℤ) : Outcome (Ret Unit × Volume) := do
  let (ret, sfs, sin) ← Ucore.Fs.sfsTryseek v.mount.sfs (v.inode ino) pos
  return (ret, v.set ino sfs sin)

/-- `sfs_truncfile`. -/
def sfsTruncfile (ino : ℕ) (v : Volume) (len : ℤ) : Outcome (Ret Unit × Volume) := do
  let (ret, sfs, sin) ← Ucore.Fs.sfsTruncfile v.mount.sfs (v.inode ino) len
  return (ret, v.set ino sfs sin)

end Volume

/-! ## Flags of an open -/

def O_RDONLY : BitVec 32 := 0#32
def O_WRONLY : BitVec 32 := 1#32
def O_RDWR : BitVec 32 := 2#32
def O_CREAT : BitVec 32 := 0x4#32
def O_EXCL : BitVec 32 := 0x8#32
def O_TRUNC : BitVec 32 := 0x10#32
def O_APPEND : BitVec 32 := 0x20#32
def O_ACCMODE : BitVec 32 := 3#32

/-- Some bit of the mask is set. -/
def Has (openFlags mask : BitVec 32) : Prop := openFlags &&& mask ≠ 0

instance (openFlags mask : BitVec 32) : Decidable (Has openFlags mask) :=
  inferInstanceAs (Decidable (_ ≠ _))

/-- Whether the access mode allows to read and to write; there is a fourth mode, which is
refused. -/
def accessMode (openFlags : BitVec 32) : Ret (Bool × Bool) :=
  if openFlags &&& O_ACCMODE = O_RDONLY then .ok (true, false)
  else if openFlags &&& O_ACCMODE = O_WRONLY then .ok (false, true)
  else if openFlags &&& O_ACCMODE = O_RDWR then .ok (true, true)
  else .error .inval

/-- The checks that `vfs_open` makes before it looks the path up. -/
def vfsOpenCheck (openFlags : BitVec 32) : Ret Unit :=
  match accessMode openFlags with
  | .error code => .error code
  | .ok (_, canWrite) => if Has openFlags O_TRUNC ∧ ¬canWrite then .error .inval else .ok ()

section Open

variable {State : Type}

/-- `vfs_open` from the inode on that the lookup has found, without its counts. -/
def vfsOpenFound (vopOpen : BitVec 32 → Outcome (Ret Unit))
    (vopTruncate : State → ℤ → Outcome (Ret Unit × State)) (state : State)
    (openFlags : BitVec 32) : Outcome (Ret Unit × State) := do
  if Has openFlags O_EXCL ∧ Has openFlags O_CREAT then return (.error .exists, state)
  match ← vopOpen openFlags with
  | .error code => return (.error code, state)
  | .ok () =>
    if Has openFlags O_TRUNC ∨ Has openFlags O_CREAT then vopTruncate state 0
    else return (.ok (), state)

end Open

end Ucore.Fs
