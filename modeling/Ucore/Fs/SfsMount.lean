import Ucore.Fs.SfsRun

/-!
# `sfs_do_mount`

Reading the superblock and the free map of a device, and the check that the superblock counts the
free blocks rightly.
-/

namespace Ucore.Fs

open Library

def SFS_MAGIC : ℕ := 0x2f8dbe2a

/-- The inner loop of `bitmap_create`, which marks the bits from `overbits` on. -/
def bitmapTail (overbits : ℕ) : ℕ → BitVec 32 → BitVec 32
  | 0, word => word
  | left + 1, word => bitmapTail (overbits + 1) left (word ^^^ mask overbits)

/-- `bitmap_create`, when there is memory for it. -/
def bitmapCreate (nbits : ℕ) : Outcome Bitmap := do
  Outcome.require (nbits ≠ 0 ∧ nbits < uint32 (nbits + WORD_BITS))
  let nwords := (nbits + WORD_BITS - 1) / WORD_BITS
  let bitmap : Bitmap := ⟨nbits, nwords, fun _ ↦ BitVec.allOnes 32⟩
  if nbits ≠ nwords * WORD_BITS then
    let ix := nwords - 1
    let overbits := nbits - ix * WORD_BITS
    Outcome.require (nbits / WORD_BITS = ix)
    Outcome.require (0 < overbits ∧ overbits < WORD_BITS)
    return bitmap.setWord ix (bitmapTail overbits (WORD_BITS - overbits) (bitmap.map ix))
  else return bitmap

/-- `sfs_init_read`. -/
def sfsInitRead (dev : Device) (blkno : ℕ) : Ret Bytes :=
  (disk0Io dev (uint32 (blkno * SFS_BLKSIZE))).map dev.block

/-- The words of a bitmap from the block of words that begins with word `ix`. -/
def loadWords (map : ℕ → BitVec 32) (ix : ℕ) (block : Bytes) : ℕ → BitVec 32 := fun index ↦
  if ix ≤ index ∧ index < ix + SFS_BLKSIZE / 4 then
    BitVec.ofNat 32 (word32 fun offset ↦ block ((index - ix) * 4 + offset))
  else map index

/-- The loop of `sfs_init_freemap`, from word `ix` on. -/
def sfsInitFreemapFrom (dev : Device) (blkno ix : ℕ) : ℕ → (ℕ → BitVec 32) → Ret (ℕ → BitVec 32)
  | 0, map => .ok map
  | nblks + 1, map =>
    match sfsInitRead dev blkno with
    | .error code => .error code
    | .ok block =>
      sfsInitFreemapFrom dev (blkno + 1) (ix + SFS_BLKSIZE / 4) nblks (loadWords map ix block)

def sfsInitFreemap (dev : Device) (freemap : Bitmap) (blkno nblks : ℕ) : Outcome (Ret Bitmap) := do
  Outcome.require (4 * freemap.nwords = nblks * SFS_BLKSIZE)
  return (sfsInitFreemapFrom dev blkno 0 nblks freemap.map).map fun map ↦ { freemap with map }

/-- The loop of `sfs_do_mount` that counts the bits from `i` on. -/
def sfsCountUnused (freemap : Bitmap) (i : ℕ) : ℕ → ℕ → Outcome ℕ
  | 0, unused => return unused
  | left + 1, unused => do
    if ← bitmapTest freemap i then sfsCountUnused freemap (i + 1) left (unused + 1)
    else sfsCountUnused freemap (i + 1) left unused

/-- `sfs_freemap_bits`. -/
def sfsFreemapBits (blocks : ℕ) : ℕ := uint32 (sfsFreemapBlocks blocks * SFS_BLKBITS)

/-- Whether the allocations of `sfs_do_mount` succeed. -/
structure MountMemory where
  fs : Bool
  sfsBuffer : Bool
  hashList : Bool
  freemap : Bool

/-- `sfs_do_mount`, for a device with blocks of the right size. -/
def sfsDoMount (memory : MountMemory) (dev : Device) : Outcome (Ret SfsFs) := do
  if ¬memory.fs ∨ ¬memory.sfsBuffer then return .error .noMem
  match sfsInitRead dev SFS_BLKN_SUPER with
  | .error code => return .error code
  | .ok super =>
    let blocks := word32 fun index ↦ super (4 + index)
    let unusedBlocks := word32 fun index ↦ super (8 + index)
    if word32 super ≠ SFS_MAGIC then return .error .inval
    if dev.dBlocks < blocks then return .error .inval
    if ¬memory.hashList then return .error .noMem
    let freemap ← bitmapCreate (sfsFreemapBits blocks)
    if ¬memory.freemap then return .error .noMem
    match ← sfsInitFreemap dev freemap SFS_BLKN_FREEMAP (sfsFreemapBlocks blocks) with
    | .error code => return .error code
    | .ok freemap =>
      let unused ← sfsCountUnused freemap 0 freemap.nbits 0
      Outcome.require (unused = unusedBlocks)
      return .ok ⟨blocks, unusedBlocks, freemap, false, dev⟩

end Ucore.Fs
