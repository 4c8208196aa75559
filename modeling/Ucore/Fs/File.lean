import Ucore.Fs.Inode

/-!
# `kern/fs/file.c`

What a call does with an open file between acquiring it and releasing it. The operations of the
inode are parameters, as the code takes them from the inode's table. A process is not suspended
between an operation on the inode and the change of the position that follows it, so that a call is
one step.
-/

namespace Ucore.Fs

open Library

inductive FileStatus where
  | none
  | init
  | opened
  | closed
  deriving DecidableEq, Repr

/-- `struct file` without its inode. -/
structure File where
  status : FileStatus
  readable : Bool
  writable : Bool
  pos : ℤ
  openCount : ℕ

def LSEEK_SET : ℤ := 0
def LSEEK_CUR : ℤ := 1
def LSEEK_END : ℤ := 2

section Calls

variable {State : Type}

/-- `file_read` and `file_write`, which differ in the operation: the length transferred, the
buffer and the file with its new position. -/
def fileIo (vop : State → Iobuf → Outcome (Ret ℕ × Iobuf × State)) (state : State) (file : File)
    (memory : Bytes) (base len : ℕ) : Outcome (Ret ℕ × Iobuf × File × State) := do
  let (ret, iob, state) ← vop state (iobufInit memory base len file.pos)
  if file.status = .opened then
    return (ret, iob, { file with pos := int64 (file.pos + iobufUsed iob) }, state)
  else return (ret, iob, file, state)

/-- The position that `file_seek` asks the inode for. -/
def seekTarget (vopFstat : State → Outcome (Ret ℕ)) (state : State) (file : File) (pos whence : ℤ) :
    Outcome (Ret ℤ) := do
  if whence = LSEEK_SET then return .ok pos
  else if whence = LSEEK_CUR then return .ok (int64 (pos + file.pos))
  else if whence = LSEEK_END then
    match ← vopFstat state with
    | .error code => return .error code
    | .ok size => return .ok (int64 (pos + size))
  else return .error .inval

def fileSeek (vopFstat : State → Outcome (Ret ℕ))
    (vopTryseek : State → ℤ → Outcome (Ret Unit × State)) (state : State) (file : File)
    (pos whence : ℤ) : Outcome (Ret Unit × File × State) := do
  match ← seekTarget vopFstat state file pos whence with
  | .error code => return (.error code, file, state)
  | .ok pos =>
    match ← vopTryseek state pos with
    | (.error code, state) => return (.error code, file, state)
    | (.ok (), state) => return (.ok (), { file with pos }, state)

/-- The first position of a file that `file_open` has opened. -/
def fileOpenPos (vopFstat : State → Outcome (Ret ℕ)) (state : State) (openFlags : BitVec 32) :
    Outcome (Ret ℤ) := do
  if Has openFlags O_APPEND then
    match ← vopFstat state with
    | .error code => return .error code
    | .ok size => return .ok (size : ℤ)
  else return .ok 0

end Calls

/-! ## Descriptors of one file -/

/-- `file_open` with a path that leads to a regular file. -/
def openFile (ino : ℕ) (v : Volume) (openFlags : BitVec 32) : Outcome (Ret File × Volume) := do
  match accessMode openFlags with
  | .error code => return (.error code, v)
  | .ok (readable, writable) =>
    match vfsOpenCheck openFlags with
    | .error code => return (.error code, v)
    | .ok () =>
      match ← vfsOpenFound (fun _ ↦ .ok (.ok ())) (Volume.sfsTruncfile ino) v openFlags with
      | (.error code, v) => return (.error code, v)
      | (.ok (), v) =>
        match ← fileOpenPos (Volume.sfsFstat ino) v openFlags with
        | .error code => return (.error code, v)
        | .ok pos => return (.ok ⟨.opened, readable, writable, pos, 1⟩, v)

/-- The descriptors that processes have for one file, whatever descriptors are named by, and the
`open_count` of its inode. The inode stays in memory as long as a process holds it. -/
structure Holders (Fd : Type) where
  volume : Volume
  openCount : ℕ
  files : Fd → Option File

/-- A call of a process. -/
inductive FileCall (Fd : Type) where
  | open (fd : Fd) (openFlags : BitVec 32)
  | read (fd : Fd) (memory : Bytes) (base len : ℕ)
  | write (fd : Fd) (memory : Bytes) (base len : ℕ)
  | seek (fd : Fd) (pos whence : ℤ)
  | fstat (fd : Fd)
  | fsync (fd : Fd)
  | dup (fd copy : Fd)
  | close (fd : Fd)

namespace Holders

variable {Fd : Type} [DecidableEq Fd]

/-- The file table after a call has left a file in it. -/
def put (w : Holders Fd) (fd : Fd) (file : File) (volume : Volume) : Holders Fd :=
  { w with volume := volume, files := Function.update w.files fd (some file) }

/-- A call with an open descriptor; every other descriptor is refused by `fd2file`. -/
def withFile (w : Holders Fd) (fd : Fd) (next : File → Outcome (Ret ℕ × Holders Fd)) :
    Outcome (Ret ℕ × Holders Fd) :=
  match w.files fd with
  | none => .ok (.error .inval, w)
  | some file => next file

/-- A call of a process, on the file with the given inode. -/
def call (ino : ℕ) (w : Holders Fd) : FileCall Fd → Outcome (Ret ℕ × Holders Fd)
  | .open fd openFlags => do
    if (w.files fd).isSome then return (.error .busy, w)
    match ← openFile ino w.volume openFlags with
    | (.error code, v) => return (.error code, { w with volume := v })
    | (.ok file, v) => return (.ok 0, { w.put fd file v with openCount := w.openCount + 1 })
  | .read fd memory base len => w.withFile fd fun file ↦ do
    if ¬file.readable then return (.error .inval, w)
    let (ret, _, file, v) ← fileIo (Volume.sfsRead ino) w.volume file memory base len
    return (ret, w.put fd file v)
  | .write fd memory base len => w.withFile fd fun file ↦ do
    if ¬file.writable then return (.error .inval, w)
    let (ret, _, file, v) ← fileIo (Volume.sfsWrite ino) w.volume file memory base len
    return (ret, w.put fd file v)
  | .seek fd pos whence => w.withFile fd fun file ↦ do
    let (ret, file, v) ← fileSeek (Volume.sfsFstat ino) (Volume.sfsTryseek ino) w.volume file pos
      whence
    return (ret.map fun _ ↦ 0, w.put fd file v)
  | .fstat fd => w.withFile fd fun _ ↦ do
    let ret ← Volume.sfsFstat ino w.volume
    return (ret, w)
  | .fsync fd => w.withFile fd fun file ↦ do
    let (ret, v) ← Volume.sfsFsync ino w.volume
    return (ret.map fun _ ↦ 0, w.put fd file v)
  | .dup fd copy => w.withFile fd fun file ↦ do
    if (w.files copy).isSome then return (.error .busy, w)
    return (.ok 0, { w.put copy file w.volume with openCount := w.openCount + 1 })
  | .close fd => w.withFile fd fun _ ↦ do
    let w := { w with files := Function.update w.files fd none, openCount := w.openCount - 1 }
    -- the last close is `sfs_close`
    if w.openCount = 0 then
      let (_, v) ← Volume.sfsFsync ino w.volume
      return (.ok 0, { w with volume := v })
    else return (.ok 0, w)

end Holders

end Ucore.Fs
