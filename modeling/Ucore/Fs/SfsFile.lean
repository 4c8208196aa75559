import Ucore.Fs.Sfs
import Ucore.Library.Extent

/-!
# Operations on files

`sfs_truncfile`, `sfs_tryseek` and `sfs_io_nolock`. Memory is a function from addresses to bytes,
and input and output record the stretches of memory that they read or write.
-/

namespace Ucore.Fs

open Library

def SFS_MAX_FILE_SIZE : ℕ := 1024 * 1024 * 128
def SFS_TYPE_FILE : ℕ := 1
def SFS_TYPE_DIR : ℕ := 2

/-! ## Changing the length -/

/-- The loop of `sfs_truncfile` that adds blocks at the end, `count` of them. -/
def sfsTruncfileGrow (nblks : ℕ) : ℕ → SfsFs → SfsInode → Outcome (Ret Unit × SfsFs × SfsInode)
  | 0, s, sin => return (.ok (), s, sin)
  | count + 1, s, sin => do
    match ← sfsBmapLoadNolock s sin nblks with
    | (.error code, s, sin) => return (.error code, s, sin)
    | (.ok _, s, sin) => sfsTruncfileGrow (nblks + 1) count s sin

/-- The loop of `sfs_truncfile` that drops blocks at the end, `count` of them. -/
def sfsTruncfileShrink : ℕ → SfsFs → SfsInode → Outcome (Ret Unit × SfsFs × SfsInode)
  | 0, s, sin => return (.ok (), s, sin)
  | count + 1, s, sin => do
    match ← sfsBmapTruncateNolock s sin with
    | (.error code, s, sin) => return (.error code, s, sin)
    | (.ok (), s, sin) => sfsTruncfileShrink count s sin

/-- The two loops of `sfs_truncfile`. -/
def sfsTruncfileResize (s : SfsFs) (sin : SfsInode) (nblks tblks : ℕ) :
    Outcome (Ret Unit × SfsFs × SfsInode) :=
  if nblks < tblks then sfsTruncfileGrow nblks (tblks - nblks) s sin
  else sfsTruncfileShrink (nblks - tblks) s sin

/-- `ROUNDUP_DIV(len, SFS_BLKSIZE)` as a number of blocks. -/
def roundupBlocks (len : ℕ) : ℕ := uint32 ((len + SFS_BLKSIZE - 1) / SFS_BLKSIZE)

def sfsTruncfile (s : SfsFs) (sin : SfsInode) (len : ℤ) :
    Outcome (Ret Unit × SfsFs × SfsInode) := do
  if len < 0 ∨ SFS_MAX_FILE_SIZE < len then return (.error .inval, s, sin)
  let len := len.toNat
  let tblks := roundupBlocks len
  if sin.size = len then
    Outcome.require (tblks = sin.blocks)
    return (.ok (), s, sin)
  match ← sfsTruncfileResize s sin sin.blocks tblks with
  | (.error code, s, sin) => return (.error code, s, sin)
  | (.ok (), s, sin) =>
    Outcome.require (sin.blocks = tblks)
    return (.ok (), s, { sin with size := uint32 len, dirty := true })

def sfsTryseek (s : SfsFs) (sin : SfsInode) (pos : ℤ) : Outcome (Ret Unit × SfsFs × SfsInode) :=
  if pos < 0 ∨ (SFS_MAX_FILE_SIZE : ℤ) ≤ pos then return (.error .inval, s, sin)
  else if (sin.size : ℤ) < pos then sfsTruncfile s sin pos
  else return (.ok (), s, sin)

/-! ## Input and output -/

/-- The variables of `sfs_io_nolock` that a transfer changes, with the memory it works on. -/
structure Io where
  fs : SfsFs
  sin : SfsInode
  memory : Bytes
  touched : List Extent
  buf : ℕ
  alen : ℕ
  blkno : ℕ

/-- Going on after a part of the transfer, unless it failed: then `goto out`. -/
def Io.andThen (part : Outcome (Ret Unit × Io)) (rest : Io → Outcome (Ret Unit × Io)) :
    Outcome (Ret Unit × Io) := do
  match ← part with
  | (.error code, io) => return (.error code, io)
  | (.ok (), io) => rest io

/-- `sfs_bmap_load_nolock` for the current block, with `goto out` when it fails. -/
def Io.load (io : Io) (rest : ℕ → Io → Outcome (Ret Unit × Io)) : Outcome (Ret Unit × Io) := do
  match ← sfsBmapLoadNolock io.fs io.sin io.blkno with
  | (.error code, fs, sin) => return (.error code, { io with fs, sin })
  | (.ok ino, fs, sin) => rest ino { io with fs, sin }

/-- `len` bytes of memory from `buf` on are overwritten with `data`. -/
def Io.store (io : Io) (buf len : ℕ) (data : Bytes) : Io :=
  { io with memory := overlay io.memory data len buf, touched := ⟨buf, len⟩ :: io.touched }

/-- `len` bytes of memory from `buf` on. -/
def Io.fetch (io : Io) (buf : ℕ) : Bytes := fun index ↦ io.memory (buf + index)

/-- `sfs_buf_op`: `sfs_wbuf` or `sfs_rbuf` between memory and a part of a block. -/
def sfsBufOp (write : Bool) (io : Io) (buf len blkno offset : ℕ) : Outcome (Ret Unit × Io) := do
  if write then
    match ← sfsWbuf io.fs (io.fetch buf) len blkno offset with
    | (.error code, fs) => return (.error code, { io with fs })
    | (.ok (), fs) => return (.ok (), { io with fs, touched := ⟨buf, len⟩ :: io.touched })
  else
    match ← sfsRbuf io.fs len blkno offset with
    | .error code => return (.error code, io)
    | .ok data => return (.ok (), io.store buf len data)

/-- `sfs_block_op`: `sfs_wblock` or `sfs_rblock` between memory and a block. -/
def sfsBlockOp (write : Bool) (io : Io) (buf blkno : ℕ) : Outcome (Ret Unit × Io) := do
  if write then
    match ← sfsWblock io.fs (io.fetch buf) blkno with
    | (.error code, fs) => return (.error code, { io with fs })
    | (.ok (), fs) => return (.ok (), { io with fs, touched := ⟨buf, SFS_BLKSIZE⟩ :: io.touched })
  else
    match ← sfsRblock io.fs blkno with
    | .error code => return (.error code, io)
    | .ok data => return (.ok (), io.store buf SFS_BLKSIZE data)

/-- (1) the part of the first block from `blkoff` on. -/
def sfsIoFirst (write : Bool) (io : Io) (blkoff size : ℕ) : Outcome (Ret Unit × Io) :=
  io.load fun ino io ↦ Io.andThen (sfsBufOp write io io.buf size ino blkoff) fun io ↦
    return (.ok (), { io with alen := io.alen + size, buf := io.buf + size })

/-- (2) the loop over whole blocks. -/
def sfsIoBlocks (write : Bool) : ℕ → Io → Outcome (Ret Unit × Io)
  | 0, io => return (.ok (), io)
  | nblks + 1, io => io.load fun ino io ↦ Io.andThen (sfsBlockOp write io io.buf ino) fun io ↦
      sfsIoBlocks write nblks { io with
        alen := io.alen + SFS_BLKSIZE, buf := io.buf + SFS_BLKSIZE, blkno := io.blkno + 1 }

/-- (3) the part of the last block before `endpos`. Its place in memory is `buf + alen`, with the
`buf` that the parts before have moved. -/
def sfsIoLast (write : Bool) (io : Io) (endpos : ℕ) : Outcome (Ret Unit × Io) :=
  if endpos % SFS_BLKSIZE ≠ 0 then
    io.load fun ino io ↦
      Io.andThen (sfsBufOp write io (io.buf + io.alen) (endpos % SFS_BLKSIZE) ino 0) fun io ↦
        return (.ok (), { io with alen := io.alen + endpos % SFS_BLKSIZE })
  else return (.ok (), io)

/-- The three parts of a transfer of the bytes from `offset` to `endpos`. -/
def sfsIoParts (write : Bool) (io : Io) (offset endpos : ℕ) : Outcome (Ret Unit × Io) :=
  let nblks := endpos / SFS_BLKSIZE - io.blkno
  let blkoff := offset % SFS_BLKSIZE
  if blkoff ≠ 0 then
    let size := if nblks ≠ 0 then SFS_BLKSIZE - blkoff else endpos - offset
    Io.andThen (sfsIoFirst write io blkoff size) fun io ↦
      if nblks = 0 then return (.ok (), io)
      else Io.andThen (sfsIoBlocks write (nblks - 1) { io with blkno := io.blkno + 1 }) fun io ↦
        sfsIoLast write io endpos
  else Io.andThen (sfsIoBlocks write nblks io) fun io ↦ sfsIoLast write io endpos

/-- The label `out`: the file grows when the transfer went past its end. -/
def sfsIoOut (io : Io) (offset : ℕ) : Io :=
  if io.sin.size < offset + io.alen then
    { io with sin.size := uint32 (offset + io.alen), sin.dirty := true }
  else io

/-- The end position of a transfer, after the clamps; `offset` itself when there is nothing to
transfer. -/
def sfsIoEndpos (sin : SfsInode) (offset : ℤ) (len : ℕ) (write : Bool) : Ret ℕ :=
  let endpos := int64 (offset + len)
  if offset < 0 ∨ (SFS_MAX_FILE_SIZE : ℤ) ≤ offset ∨ endpos < offset then .error .inval
  else if offset = endpos then .ok offset.toNat
  else
    let endpos := min endpos.toNat SFS_MAX_FILE_SIZE
    if write then .ok endpos
    else if sin.size ≤ offset.toNat then .ok offset.toNat
    else .ok (min endpos sin.size)

/-- The return code, and the state with the length transferred in `alen`. -/
def sfsIoNolock (s : SfsFs) (sin : SfsInode) (memory : Bytes) (buf : ℕ) (offset : ℤ) (len : ℕ)
    (write : Bool) : Outcome (Ret Unit × Io) := do
  Outcome.require (sin.type ≠ SFS_TYPE_DIR)
  let start : Io := ⟨s, sin, memory, [], buf, 0, offset.toNat / SFS_BLKSIZE⟩
  match sfsIoEndpos sin offset len write with
  | .error code => return (.error code, start)
  | .ok endpos =>
    if offset.toNat = endpos then return (.ok (), start)
    let (ret, io) ← sfsIoParts write start offset.toNat endpos
    return (ret, sfsIoOut io offset.toNat)

end Ucore.Fs
