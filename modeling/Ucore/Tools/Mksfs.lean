import Ucore.Fs.SfsRun
import Ucore.Libs.String

/-!
# `tools/mksfs.c`

The program that makes the image of a file system from a directory of the host. It keeps inodes and
entry blocks in memory until the end, and writes everything else at once. A cached inode and a
cached block are named by the number of the block that they will be written to, which their
addresses stand for in the source. The text of the superblock, which nobody reads, is left out.
Calls to the host succeed, other than by the exit that `bug` is.
-/

namespace Ucore.Tools

open Library Fs

def SFS_MAGIC : ℕ := 0x2f8dbe2a
def SFS_MAX_NBLKS : ℕ := 1024 * 512
def SFS_MAX_FNAME_LEN : ℕ := 255
def SFS_TYPE_LINK : ℕ := 3

def GOLDEN_RATIO_PRIME_32 : ℕ := 0x9e370001
def HASH_SHIFT : ℕ := 10
def HASH_LIST_SIZE : ℕ := 2 ^ HASH_SHIFT

def hash32 (val : ℕ) : ℕ := uint32 (val * GOLDEN_RATIO_PRIME_32) / 2 ^ (32 - HASH_SHIFT)

def hash64 (val : ℕ) : ℕ := hash32 (uint32 val)

/-- `struct inode`. -/
structure DiskInode where
  size : ℕ
  type : ℕ
  nlinks : ℕ
  blocks : ℕ
  direct : ℕ → ℕ
  indirect : ℕ
  dbIndirect : ℕ

structure CacheInode where
  inode : DiskInode
  real : ℕ
  ino : ℕ
  nblks : ℕ
  l1 : Option ℕ
  l2 : Option ℕ

/-- `struct sfs_fs`, with the image, the memory of the cached inodes and blocks, and the static
entry of `add_entry`. -/
structure Mksfs where
  blocks : ℕ
  unusedBlocks : ℕ
  image : ℕ → Bytes
  ninos : ℕ
  nextIno : ℕ
  inode : ℕ → CacheInode
  cache : ℕ → ℕ → ℕ
  inodes : ℕ → List ℕ
  cacheBlocks : ℕ → List ℕ
  entry : Bytes

/-! ## Blocks and inodes -/

def sfsAllocIno (sfs : Mksfs) : Outcome (ℕ × Mksfs) := do
  Outcome.require (sfs.nextIno < sfs.ninos)
  return (sfs.nextIno,
    { sfs with unusedBlocks := uint32Sub sfs.unusedBlocks 1, nextIno := uint32 (sfs.nextIno + 1) })

/-- `alloc_cache_block`. The hash is that of the argument, not that of the number it gets. -/
def allocCacheBlock (sfs : Mksfs) (ino : ℕ) : Outcome (ℕ × Mksfs) := do
  let (cb, sfs) ← if ino ≠ 0 then .ok (ino, sfs) else sfsAllocIno sfs
  return (cb, { sfs with
    cache := Function.update sfs.cache cb fun _ ↦ 0
    cacheBlocks := Function.update sfs.cacheBlocks (hash32 ino) (cb :: sfs.cacheBlocks (hash32 ino)) })

def searchCacheBlock (sfs : Mksfs) (ino : ℕ) : Option ℕ :=
  (sfs.cacheBlocks (hash32 ino)).find? fun cb ↦ cb = ino

def allocCacheInode (sfs : Mksfs) (real ino type : ℕ) : Outcome (ℕ × Mksfs) := do
  let (ci, sfs) ← if ino ≠ 0 then .ok (ino, sfs) else sfsAllocIno sfs
  let inode : CacheInode := ⟨⟨0, type, 0, 0, fun _ ↦ 0, 0, 0⟩, real, ci, 0, none, none⟩
  return (ci, { sfs with
    inode := Function.update sfs.inode ci inode
    inodes := Function.update sfs.inodes (hash64 real) (ci :: sfs.inodes (hash64 real)) })

def searchCacheInode (sfs : Mksfs) (real : ℕ) : Option ℕ :=
  (sfs.inodes (hash64 real)).find? fun ci ↦ (sfs.inode ci).real = real

/-- `create_sfs` for an image file of `stSize` bytes. -/
def createSfs (stSize : ℕ) (image : ℕ → Bytes) : Outcome Mksfs := do
  let blocks := uint32 (stSize / SFS_BLKSIZE)
  let ninos := if SFS_MAX_NBLKS < blocks then SFS_MAX_NBLKS else blocks
  let nextIno := SFS_BLKN_FREEMAP + (ninos + SFS_BLKBITS - 1) / SFS_BLKBITS
  Outcome.require (nextIno < ninos)
  let inode : CacheInode := ⟨⟨0, 0, 0, 0, fun _ ↦ 0, 0, 0⟩, 0, 0, 0, none, none⟩
  let (_, sfs) ← allocCacheInode ⟨ninos, ninos - nextIno, image, ninos, nextIno, fun _ ↦ inode,
    fun _ _ ↦ 0, fun _ ↦ [], fun _ ↦ [], fun _ ↦ 0⟩ 0 SFS_BLKN_ROOT SFS_TYPE_DIR
  return sfs

def writeBlock (sfs : Mksfs) (data : Bytes) (len ino : ℕ) : Outcome Mksfs := do
  Outcome.require (len ≤ SFS_BLKSIZE ∧ ino < sfs.ninos)
  let data : Bytes := if len ≠ SFS_BLKSIZE then fun index ↦ if index < len then data index else 0
    else data
  return { sfs with image := Function.update sfs.image ino data }

/-- An array of `uint32_t` as bytes. -/
def wordBytes (words : ℕ → ℕ) : Bytes := fun index ↦ bytes32 (words (index / 4)) (index % 4)

/-! ## Files -/

def SFS_L0_NBLKS : ℕ := SFS_NDIRECT
def SFS_L1_NBLKS : ℕ := SFS_BLK_NENTRY + SFS_L0_NBLKS
def SFS_L2_NBLKS : ℕ := SFS_BLK_NENTRY * SFS_BLK_NENTRY + SFS_L1_NBLKS
def SFS_LN_NBLKS : ℕ := SFS_MAX_FILE_SIZE / SFS_BLKSIZE

/-- `update_cache`: the cached block for the number at `inop`, and so the new number. -/
def updateCache (sfs : Mksfs) (cbp : Option ℕ) (inop : ℕ) : Outcome (ℕ × Mksfs) := do
  if inop = 0 then allocCacheBlock sfs 0
  else if cbp = some inop then return (inop, sfs)
  else
    match searchCacheBlock sfs inop with
    | none => .error .panic
    | some cb => return (cb, sfs)

def Mksfs.setInode (sfs : Mksfs) (file : ℕ) (ci : CacheInode) : Mksfs :=
  { sfs with inode := Function.update sfs.inode file ci }

/-- Entry `index` of a cached block. -/
def Mksfs.setWord (sfs : Mksfs) (cb index value : ℕ) : Mksfs :=
  { sfs with cache := Function.update sfs.cache cb (Function.update (sfs.cache cb) index value) }

/-- The part of `append_block` that enters the number into the block map. -/
def appendSlot (sfs : Mksfs) (file nblks ino : ℕ) : Outcome Mksfs := do
  let ci := sfs.inode file
  if nblks < SFS_L0_NBLKS then
    return sfs.setInode file
      { ci with inode := { ci.inode with direct := Function.update ci.inode.direct nblks ino } }
  else if nblks < SFS_L1_NBLKS then
    let nblks := nblks - SFS_L0_NBLKS
    let (l1, sfs) ← updateCache sfs ci.l1 ci.inode.indirect
    let sfs := sfs.setInode file { ci with l1 := some l1, inode := { ci.inode with indirect := l1 } }
    return sfs.setWord l1 nblks ino
  else if nblks < SFS_L2_NBLKS then
    let nblks := nblks - SFS_L1_NBLKS
    let (l2, sfs) ← updateCache sfs ci.l2 ci.inode.dbIndirect
    let (l1, sfs) ← updateCache sfs ci.l1 (sfs.cache l2 (nblks / SFS_BLK_NENTRY))
    let sfs := sfs.setInode file
      { ci with l1 := some l1, l2 := some l2, inode := { ci.inode with dbIndirect := l2 } }
    let sfs := sfs.setWord l2 (nblks / SFS_BLK_NENTRY) l1
    return sfs.setWord l1 (nblks % SFS_BLK_NENTRY) ino
  else return sfs

def appendBlock (sfs : Mksfs) (file size ino : ℕ) : Outcome Mksfs := do
  Outcome.require (size ≤ SFS_BLKSIZE)
  let nblks := (sfs.inode file).nblks
  Outcome.require (nblks < SFS_LN_NBLKS)
  let sfs ← appendSlot sfs file nblks ino
  let ci := sfs.inode file
  return sfs.setInode file { ci with
    nblks := uint32 (ci.nblks + 1)
    inode := { ci.inode with
      size := uint32 (ci.inode.size + size), blocks := uint32 (ci.inode.blocks + 1) } }

/-- `strcpy` into a buffer at `offset`, with the final zero. -/
def strcpy (buffer : Bytes) (offset : ℕ) (name : Name) : Bytes :=
  overlay buffer (fun index ↦ name.1.getD index 0) (name.1.length + 1) offset

/-- `add_entry`. Only as many bytes of the entry are written as its name has. -/
def addEntry (sfs : Mksfs) (current file : ℕ) (name : Name) : Outcome Mksfs := do
  Outcome.require ((sfs.inode current).inode.type = SFS_TYPE_DIR ∧ name.1.length ≤ SFS_MAX_FNAME_LEN)
  let entry := strcpy (overlay sfs.entry (bytes32 (sfs.inode file).ino) 4 0) 4 name
  let (entryIno, sfs) ← sfsAllocIno { sfs with entry }
  let sfs ← writeBlock sfs entry (SFS_MAX_FNAME_LEN + 1) entryIno
  let sfs ← appendBlock sfs current (SFS_MAX_FNAME_LEN + 1) entryIno
  let ci := sfs.inode file
  return sfs.setInode file
    { ci with inode := { ci.inode with nlinks := (ci.inode.nlinks + 1) % 2 ^ 16 } }

/-- One round of `open_file`: some bytes of the file in a block of their own. -/
def addData (sfs : Mksfs) (file : ℕ) (buffer : List UInt8) : Outcome Mksfs := do
  let (ino, sfs) ← sfsAllocIno sfs
  let sfs ← writeBlock sfs (fun index ↦ buffer.getD index 0) buffer.length ino
  appendBlock sfs file buffer.length ino

/-- `open_file`, with what `read` returns until it returns nothing. -/
def openFile (file : ℕ) : List (List UInt8) → ℕ → Mksfs → Outcome Mksfs
  | [], _, sfs => return sfs
  | buffer :: reads, last, sfs => do
    if buffer.length = 0 then return sfs
    Outcome.require (last = SFS_BLKSIZE)
    let sfs ← addData sfs file buffer
    openFile file reads buffer.length sfs

/-- `open_link`, with the target of the link. -/
def openLink (sfs : Mksfs) (file : ℕ) (target : List UInt8) : Outcome Mksfs := do
  Outcome.require (target.length < SFS_BLKSIZE)
  addData sfs file target

/-! ## The source tree -/

/-- `"."` -/
def dot : Name := ⟨[46], by decide⟩

/-- `".."` -/
def dotdot : Name := ⟨[46, 46], by decide⟩

mutual

/-- What the host has under a name, with its inode number. -/
inductive Node where
  | link (real : ℕ) (target : List UInt8)
  | dir (real : ℕ) (entries : Entries)
  | file (real : ℕ) (reads : List (List UInt8))
  | other

/-- What `readdir` returns one after the other. -/
inductive Entries where
  | nil
  | cons (name : Name) (node : Node) (rest : Entries)

end

/-- The names that `open_dir` passes over: those that begin with a dot. -/
def Hidden (name : Name) : Prop := name.1.head? = some 46

instance (name : Name) : Decidable (Hidden name) := inferInstanceAs (Decidable (_ = _))

mutual

/-- `add_link`, `add_dir` or `add_file`. -/
def addNode (current : ℕ) (name : Name) : Node → Mksfs → Outcome Mksfs
  | .link real target, sfs => do
    let (file, sfs) ← allocCacheInode sfs real 0 SFS_TYPE_LINK
    let sfs ← openLink sfs file target
    addEntry sfs current file name
  | .dir real entries, sfs => do
    Outcome.require (searchCacheInode sfs real = none)
    let (child, sfs) ← allocCacheInode sfs real 0 SFS_TYPE_DIR
    let sfs ← addEntry sfs child child dot
    let sfs ← addEntry sfs child current dotdot
    let sfs ← openEntries child entries sfs
    addEntry sfs current child name
  | .file real reads, sfs => do
    match searchCacheInode sfs real with
    | some file => addEntry sfs current file name
    | none =>
      let (file, sfs) ← allocCacheInode sfs real 0 SFS_TYPE_FILE
      let sfs ← openFile file reads SFS_BLKSIZE sfs
      addEntry sfs current file name
  | .other, sfs => return sfs

/-- The loop of `open_dir`. -/
def openEntries (current : ℕ) : Entries → Mksfs → Outcome Mksfs
  | .nil, sfs => return sfs
  | .cons name node rest, sfs => do
    if Hidden name then openEntries current rest sfs
    else
      Outcome.require (name.1.length ≤ SFS_MAX_FNAME_LEN)
      let sfs ← addNode current name node sfs
      openEntries current rest sfs

end

def openDir (sfs : Mksfs) (current parent : ℕ) (entries : Entries) : Outcome Mksfs := do
  let sfs ← addEntry sfs current current dot
  let sfs ← addEntry sfs current parent dotdot
  openEntries current entries sfs

/-! ## Writing everything out -/

/-- The words of an inode on the disk. -/
def inodeWords (inode : DiskInode) : ℕ → ℕ
  | 0 => inode.size
  | 1 => inode.type + 2 ^ 16 * inode.nlinks
  | 2 => inode.blocks
  | index + 3 => if index < SFS_NDIRECT then inode.direct index
      else if index = SFS_NDIRECT then inode.indirect else inode.dbIndirect

def superWords (sfs : Mksfs) : ℕ → ℕ
  | 0 => SFS_MAGIC
  | 1 => sfs.blocks
  | 2 => sfs.unusedBlocks
  | _ => 0

def flushCacheBlock (sfs : Mksfs) (cb : ℕ) : Outcome Mksfs :=
  writeBlock sfs (wordBytes (sfs.cache cb)) SFS_BLKSIZE cb

def flushCacheInode (sfs : Mksfs) (ci : ℕ) : Outcome Mksfs :=
  writeBlock sfs (wordBytes (inodeWords (sfs.inode ci).inode)) 68 (sfs.inode ci).ino

/-- The bits from `start` on, `count` of them. -/
def setBits (start : ℕ) : ℕ → (ℕ → BitVec 32) → ℕ → BitVec 32
  | 0, data => data
  | count + 1, data => setBits (start + 1) count
      (Function.update data (start / WORD_BITS) (data (start / WORD_BITS) ||| mask (start % WORD_BITS)))

/-- The block of the free map that begins with bit `i`. -/
def freemapBlock (ninos nextIno i : ℕ) : ℕ → BitVec 32 :=
  if i + SFS_BLKBITS > nextIno then
    let start := if i < nextIno then nextIno - i else 0
    let stop := if i + SFS_BLKBITS > ninos then ninos - i else SFS_BLKBITS
    setBits start (stop - start) fun _ ↦ 0
  else fun _ ↦ 0

/-- The loop of `close_sfs` over the blocks of the free map, `count` of them. -/
def writeFreemap (i ino : ℕ) : ℕ → Mksfs → Outcome Mksfs
  | 0, sfs => return sfs
  | count + 1, sfs => do
    let data := wordBytes fun index ↦ (freemapBlock sfs.ninos sfs.nextIno i index).toNat
    let sfs ← writeBlock sfs data SFS_BLKSIZE ino
    writeFreemap (i + SFS_BLKBITS) (ino + 1) count sfs

def flushList (flush : Mksfs → ℕ → Outcome Mksfs) : List ℕ → Mksfs → Outcome Mksfs
  | [], sfs => return sfs
  | first :: rest, sfs => do
    let sfs ← flush sfs first
    flushList flush rest sfs

/-- The loop of `close_sfs` over the hash lists from `i` on. -/
def flushBuckets (i : ℕ) : ℕ → Mksfs → Outcome Mksfs
  | 0, sfs => return sfs
  | count + 1, sfs => do
    let sfs ← flushList flushCacheBlock (sfs.cacheBlocks i) sfs
    let sfs ← flushList flushCacheInode (sfs.inodes i) sfs
    flushBuckets (i + 1) count sfs

def closeSfs (sfs : Mksfs) : Outcome Mksfs := do
  let sfs ← writeFreemap 0 SFS_BLKN_FREEMAP ((sfs.ninos + SFS_BLKBITS - 1) / SFS_BLKBITS) sfs
  let sfs ← writeBlock sfs (wordBytes (superWords sfs)) 44 SFS_BLKN_SUPER
  flushBuckets 0 HASH_LIST_SIZE sfs

/-- `create_img` for an image file of `stSize` bytes and the entries of the home directory. -/
def createImg (stSize : ℕ) (image : ℕ → Bytes) (home : Entries) : Outcome Mksfs := do
  let sfs ← createSfs stSize image
  let sfs ← openDir sfs SFS_BLKN_ROOT SFS_BLKN_ROOT home
  closeSfs sfs

end Ucore.Tools
