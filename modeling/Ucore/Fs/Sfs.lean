import Ucore.Fs.Bitmap

/-!
# The simple file system

`kern/fs/sfs`: block input and output, block allocation and the block map of an inode. The
functions take the file system and one inode in memory and hand both back, together with the
return code, so that a failed call keeps what it has changed. The device is the one of
`dev_disk0.c`: it answers requests outside of it with `-E_INVAL` and has no other failure. Locks
are left out, since a call holds them from beginning to end.
-/

namespace Ucore.Fs

open Library

/-- The negative return codes. -/
inductive Error where
  | noMem
  | inval
  | noDev
  | naDev
  | busy
  | noEnt
  | isDir
  | notDir
  | maxOpen
  | exists
  deriving DecidableEq, Repr

/-- A return code, with the value that is stored when it is zero. -/
abbrev Ret (Value : Type) := Except Error Value

def SFS_BLKSIZE : ℕ := 4096
def SFS_NDIRECT : ℕ := 12
def SFS_BLK_NENTRY : ℕ := 1024

/-- The bytes of a block, or of a buffer. -/
abbrev Bytes := ℕ → UInt8

structure Device where
  dBlocks : ℕ
  block : ℕ → Bytes

/-- `struct sfs_fs` with the two counters of its superblock. -/
structure SfsFs where
  blocks : ℕ
  unusedBlocks : ℕ
  freemap : Bitmap
  superDirty : Bool
  dev : Device

/-- `struct sfs_inode` with the fields of its disk inode. -/
structure SfsInode where
  size : ℕ
  type : ℕ
  blocks : ℕ
  direct : ℕ → ℕ
  indirect : ℕ
  dirty : Bool

/-! ## Block input and output -/

/-- `disk0_io` for one block at a byte offset: the block of the device that is transferred. -/
def disk0Io (dev : Device) (offset : ℕ) : Ret ℕ :=
  let blkno := uint32 (offset / SFS_BLKSIZE)
  if offset % SFS_BLKSIZE ≠ 0 then .error .inval
  else if dev.dBlocks < uint32 (blkno + 1) then .error .inval
  else .ok blkno

/-- `sfs_rwblock_nolock` with its check, up to the transfer. -/
def sfsRwblockNolock (s : SfsFs) (blkno : ℕ) : Outcome (Ret ℕ) := do
  Outcome.require (blkno ≠ 0 ∧ blkno < s.blocks)
  return disk0Io s.dev (uint32 (blkno * SFS_BLKSIZE))

/-- `sfs_rblock` for one block. -/
def sfsRblock (s : SfsFs) (blkno : ℕ) : Outcome (Ret Bytes) := do
  match ← sfsRwblockNolock s blkno with
  | .error code => return .error code
  | .ok target => return .ok (s.dev.block target)

/-- `sfs_wblock` for one block. -/
def sfsWblock (s : SfsFs) (data : Bytes) (blkno : ℕ) : Outcome (Ret Unit × SfsFs) := do
  match ← sfsRwblockNolock s blkno with
  | .error code => return (.error code, s)
  | .ok target =>
    return (.ok (), { s with dev.block := Function.update s.dev.block target data })

/-- The bytes that `sfs_rbuf` copies out of a block. -/
def sfsRbuf (s : SfsFs) (len blkno offset : ℕ) : Outcome (Ret Bytes) := do
  Outcome.require (offset < SFS_BLKSIZE ∧ offset + len ≤ SFS_BLKSIZE)
  match ← sfsRblock s blkno with
  | .error code => return .error code
  | .ok block => return .ok fun index ↦ block (offset + index)

/-- `len` bytes of `data` laid over a block from `offset` on. -/
def overlay (block data : Bytes) (len offset : ℕ) : Bytes := fun index ↦
  if offset ≤ index ∧ index < offset + len then data (index - offset) else block index

def sfsWbuf (s : SfsFs) (data : Bytes) (len blkno offset : ℕ) : Outcome (Ret Unit × SfsFs) := do
  Outcome.require (offset < SFS_BLKSIZE ∧ offset + len ≤ SFS_BLKSIZE)
  match ← sfsRblock s blkno with
  | .error code => return (.error code, s)
  | .ok block => sfsWblock s (overlay block data len offset) blkno

/-- `sfs_clear_block` for one block. -/
def sfsClearBlock (s : SfsFs) (blkno : ℕ) : Outcome (Ret Unit × SfsFs) :=
  sfsWblock s (fun _ ↦ 0) blkno

/-- A `uint32_t` in memory, low byte first. -/
def word32 (bytes : Bytes) : ℕ :=
  (bytes 0).toNat + 2 ^ 8 * (bytes 1).toNat + 2 ^ 16 * (bytes 2).toNat + 2 ^ 24 * (bytes 3).toNat

def bytes32 (value : ℕ) : Bytes := fun index ↦ UInt8.ofNat (value / 2 ^ (8 * index))

/-! ## Allocation of blocks -/

def sfsBlockInuse (s : SfsFs) (ino : ℕ) : Outcome Bool := do
  if ino ≠ 0 ∧ ino < s.blocks then
    return !(← bitmapTest s.freemap ino)
  else .error .panic

def sfsBlockAlloc (s : SfsFs) : Outcome (Ret ℕ × SfsFs) := do
  match ← bitmapAlloc s.freemap with
  | none => return (.error .noMem, s)
  | some (ino, freemap) =>
    Outcome.require (0 < s.unusedBlocks)
    let s := { s with freemap, unusedBlocks := s.unusedBlocks - 1, superDirty := true }
    Outcome.require (← sfsBlockInuse s ino)
    let (ret, s) ← sfsClearBlock s ino
    return (ret.map fun _ ↦ ino, s)

def sfsBlockFree (s : SfsFs) (ino : ℕ) : Outcome SfsFs := do
  Outcome.require (← sfsBlockInuse s ino)
  let freemap ← bitmapFree s.freemap ino
  return { s with freemap, unusedBlocks := uint32 (s.unusedBlocks + 1), superDirty := true }

/-! ## The block map of an inode -/

/-- The label `failed_cleanup`: an entry block that was allocated for this call is given back. -/
def sfsBmapCleanup (s : SfsFs) (code : Error) (entp ent : ℕ) : Outcome (Ret ℕ × ℕ × SfsFs) := do
  if ent ≠ entp then
    let s ← sfsBlockFree s ent
    return (.error code, entp, s)
  else return (.error code, entp, s)

/-- `sfs_bmap_get_sub_nolock` from the allocation of the data block on: its number goes into entry
`index` of the entry block `ent`. -/
def sfsBmapFill (s : SfsFs) (entp ent index : ℕ) : Outcome (Ret ℕ × ℕ × SfsFs) := do
  match ← sfsBlockAlloc s with
  | (.error code, s) => sfsBmapCleanup s code entp ent
  | (.ok ino, s) =>
    match ← sfsWbuf s (bytes32 ino) 4 ent (index * 4) with
    | (.error code, s) =>
      let s ← sfsBlockFree s ino
      sfsBmapCleanup s code entp ent
    | (.ok (), s) => return (.ok ino, ent, s)

/-- The number in entry `index` of an entry block, and the entry block itself, which is created
when it is missing. -/
def sfsBmapGetSubNolock (s : SfsFs) (entp index : ℕ) (create : Bool) :
    Outcome (Ret ℕ × ℕ × SfsFs) := do
  Outcome.require (index < SFS_BLK_NENTRY)
  if entp ≠ 0 then
    match ← sfsRbuf s 4 entp (index * 4) with
    | .error code => return (.error code, entp, s)
    | .ok bytes =>
      if word32 bytes ≠ 0 ∨ ¬create then return (.ok (word32 bytes), entp, s)
      else sfsBmapFill s entp entp index
  else if ¬create then return (.ok 0, entp, s)
  else
    match ← sfsBlockAlloc s with
    | (.error code, s) => return (.error code, entp, s)
    | (.ok ent, s) => sfsBmapFill s entp ent index

/-- The label `out` of `sfs_bmap_get_nolock`. -/
def sfsBmapGetOut (s : SfsFs) (sin : SfsInode) (ino : ℕ) : Outcome (Ret ℕ × SfsFs × SfsInode) := do
  if ino = 0 then return (.ok ino, s, sin)
  else
    Outcome.require (← sfsBlockInuse s ino)
    return (.ok ino, s, sin)

def sfsBmapGetNolock (s : SfsFs) (sin : SfsInode) (index : ℕ) (create : Bool) :
    Outcome (Ret ℕ × SfsFs × SfsInode) := do
  if index < SFS_NDIRECT then
    if sin.direct index = 0 ∧ create then
      match ← sfsBlockAlloc s with
      | (.error code, s) => return (.error code, s, sin)
      | (.ok ino, s) =>
        sfsBmapGetOut s { sin with direct := Function.update sin.direct index ino, dirty := true } ino
    else sfsBmapGetOut s sin (sin.direct index)
  else if index - SFS_NDIRECT < SFS_BLK_NENTRY then
    match ← sfsBmapGetSubNolock s sin.indirect (index - SFS_NDIRECT) create with
    | (.error code, _, s) => return (.error code, s, sin)
    | (.ok ino, ent, s) =>
      if ent ≠ sin.indirect then
        Outcome.require (sin.indirect = 0)
        sfsBmapGetOut s { sin with indirect := ent, dirty := true } ino
      else sfsBmapGetOut s sin ino
  else .error .panic

def sfsBmapFreeSubNolock (s : SfsFs) (ent index : ℕ) : Outcome (Ret Unit × SfsFs) := do
  Outcome.require (← sfsBlockInuse s ent)
  Outcome.require (index < SFS_BLK_NENTRY)
  match ← sfsRbuf s 4 ent (index * 4) with
  | .error code => return (.error code, s)
  | .ok bytes =>
    if word32 bytes ≠ 0 then
      match ← sfsWbuf s (bytes32 0) 4 ent (index * 4) with
      | (.error code, s) => return (.error code, s)
      | (.ok (), s) =>
        let s ← sfsBlockFree s (word32 bytes)
        return (.ok (), s)
    else return (.ok (), s)

def sfsBmapFreeNolock (s : SfsFs) (sin : SfsInode) (index : ℕ) :
    Outcome (Ret Unit × SfsFs × SfsInode) := do
  if index < SFS_NDIRECT then
    if sin.direct index ≠ 0 then
      let s ← sfsBlockFree s (sin.direct index)
      return (.ok (), s, { sin with direct := Function.update sin.direct index 0, dirty := true })
    else return (.ok (), s, sin)
  else if index - SFS_NDIRECT < SFS_BLK_NENTRY ∧ sin.indirect ≠ 0 then
    let (ret, s) ← sfsBmapFreeSubNolock s sin.indirect (index - SFS_NDIRECT)
    return (ret, s, sin)
  else return (.ok (), s, sin)

def sfsBmapLoadNolock (s : SfsFs) (sin : SfsInode) (index : ℕ) :
    Outcome (Ret ℕ × SfsFs × SfsInode) := do
  Outcome.require (index ≤ sin.blocks)
  let create := decide (index = sin.blocks)
  match ← sfsBmapGetNolock s sin index create with
  | (.error code, s, sin) => return (.error code, s, sin)
  | (.ok ino, s, sin) =>
    Outcome.require (← sfsBlockInuse s ino)
    if create then return (.ok ino, s, { sin with blocks := uint32 (sin.blocks + 1) })
    else return (.ok ino, s, sin)

def sfsBmapTruncateNolock (s : SfsFs) (sin : SfsInode) : Outcome (Ret Unit × SfsFs × SfsInode) := do
  Outcome.require (sin.blocks ≠ 0)
  match ← sfsBmapFreeNolock s sin (sin.blocks - 1) with
  | (.error code, s, sin) => return (.error code, s, sin)
  | (.ok (), s, sin) => return (.ok (), s, { sin with blocks := sin.blocks - 1, dirty := true })

end Ucore.Fs
