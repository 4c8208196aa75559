import Ucore.Fs.SfsFile
import Ucore.Libs.String

/-!
# Directories

The part of `sfs_inode.c` that looks names up. An entry is a number and a name, and each entry has a
block of its own.
-/

namespace Ucore.Fs

open Library

def SFS_MAX_FNAME_LEN : ℕ := 255

/-! ## Inodes on the disk -/

/-- The `uint32_t` at a byte offset. -/
def wordAt (bytes : Bytes) (offset : ℕ) : ℕ := word32 fun index ↦ bytes (offset + index)

/-- `struct sfs_disk_inode` without its links, as an inode in memory. -/
def diskInode (bytes : Bytes) : SfsInode where
  size := wordAt bytes 0
  type := wordAt bytes 4 % 2 ^ 16
  blocks := wordAt bytes 8
  direct := fun index ↦ wordAt bytes (12 + 4 * index)
  indirect := wordAt bytes 60
  dirty := false

def diskNlinks (bytes : Bytes) : ℕ := wordAt bytes 4 / 2 ^ 16

/-- `sfs_load_inode`, with the inodes in memory, and whether the two allocations succeed. -/
def sfsLoadInode (s : SfsFs) (cached : ℕ → Option SfsInode) (din node : Bool) (ino : ℕ) :
    Outcome (Ret SfsInode) := do
  match cached ino with
  | some sin => return .ok sin
  | none =>
    if ¬din then return .error .noMem
    Outcome.require (← sfsBlockInuse s ino)
    match ← sfsRbuf s 64 ino 0 with
    | .error code => return .error code
    | .ok bytes =>
      Outcome.require (diskNlinks bytes ≠ 0)
      if ¬node then return .error .noMem
      -- `sfs_get_ops`
      Outcome.require ((diskInode bytes).type = SFS_TYPE_DIR ∨ (diskInode bytes).type = SFS_TYPE_FILE)
      return .ok (diskInode bytes)

/-! ## Entries -/

/-- `struct sfs_disk_entry`. -/
structure DiskEntry where
  ino : ℕ
  name : Bytes

def sfsDirentReadNolock (s : SfsFs) (sin : SfsInode) (slot : ℕ) :
    Outcome (Ret DiskEntry × SfsFs × SfsInode) := do
  Outcome.require (sin.type = SFS_TYPE_DIR ∧ slot < sin.blocks)
  match ← sfsBmapLoadNolock s sin slot with
  | (.error code, s, sin) => return (.error code, s, sin)
  | (.ok ino, s, sin) =>
    Outcome.require (← sfsBlockInuse s ino)
    match ← sfsRbuf s (4 + (SFS_MAX_FNAME_LEN + 1)) ino 0 with
    | .error code => return (.error code, s, sin)
    | .ok bytes =>
      let name : Bytes := Function.update (fun index ↦ bytes (4 + index)) SFS_MAX_FNAME_LEN 0
      return (.ok ⟨wordAt bytes 0, name⟩, s, sin)

/-- The loop of `sfs_dirent_search_nolock` from slot `i` on: the slot and the number. -/
def sfsDirentSearchFrom (name : Name) (i : ℕ) :
    ℕ → SfsFs → SfsInode → Outcome (Ret (ℕ × ℕ) × SfsFs × SfsInode)
  | 0, s, sin => return (.error .noEnt, s, sin)
  | left + 1, s, sin => do
    match ← sfsDirentReadNolock s sin i with
    | (.error code, s, sin) => return (.error code, s, sin)
    | (.ok entry, s, sin) =>
      if entry.ino = 0 then sfsDirentSearchFrom name (i + 1) left s sin
      else if strcmp name.1 entry.name = 0 then return (.ok (i, entry.ino), s, sin)
      else sfsDirentSearchFrom name (i + 1) left s sin

/-- `sfs_dirent_search_nolock`, with whether there is memory for an entry. Nobody asks for an empty
slot. -/
def sfsDirentSearchNolock (memory : Bool) (s : SfsFs) (sin : SfsInode) (name : Name) :
    Outcome (Ret (ℕ × ℕ) × SfsFs × SfsInode) := do
  Outcome.require (name.1.length ≤ SFS_MAX_FNAME_LEN)
  if ¬memory then return (.error .noMem, s, sin)
  sfsDirentSearchFrom name 0 sin.blocks s sin

/-- `sfs_lookup_once`: the number of the inode, and the inode. -/
def sfsLookupOnce (s : SfsFs) (sin : SfsInode) (cached : ℕ → Option SfsInode)
    (memory din node : Bool) (name : Name) : Outcome (Ret (ℕ × SfsInode) × SfsFs × SfsInode) := do
  match ← sfsDirentSearchNolock memory s sin name with
  | (.error code, s, sin) => return (.error code, s, sin)
  | (.ok (_, ino), s, sin) =>
    let ret ← sfsLoadInode s cached din node ino
    return (ret.map fun found ↦ (ino, found), s, sin)

end Ucore.Fs
