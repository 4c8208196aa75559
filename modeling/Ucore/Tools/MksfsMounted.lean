import Ucore.Fs.SfsMounted
import Ucore.Tools.MksfsImage

/-!
# What the kernel reads from an image

A device that holds the image can be mounted, and the kernel finds in memory what the builder had in
its cache: the counters, the inodes and the numbers in the entry blocks.
-/

namespace Ucore.Tools

open Library Fs

/-- The kernel has mounted a device with the image that `close_sfs` makes. -/
def Boots (sfs : Mksfs) (s : SfsFs) : Prop :=
  ∃ done memory dBlocks, closeSfs sfs = .ok done ∧ sfs.ninos ≤ dBlocks ∧ dBlocks < 2 ^ 32 ∧
    sfsDoMount memory ⟨dBlocks, done.image⟩ = .ok (.ok s)

section Boot

variable {sfs : Mksfs} {ledger : Ledger} {place : ℕ → Option Place} {image : ℕ → Bytes}
  {dBlocks ino : ℕ} {s : SfsFs}

/-! ## Words -/

theorem wordAt_congr {bytes other : Bytes} {offset : ℕ}
    (h : ∀ index < 4, other (offset + index) = bytes (offset + index)) :
    wordAt other offset = wordAt bytes offset := word32_congr h

theorem wordAt_wordBytes {words : ℕ → ℕ} {k : ℕ} (hword : words k < 2 ^ 32) :
    wordAt (wordBytes words) (4 * k) = words k := by
  refine Eq.trans (word32_congr fun index hindex ↦ ?_) (word32_bytes32 hword)
  have hdiv : (4 * k + index) / 4 = k := by omega
  have hmod : (4 * k + index) % 4 = index := by omega
  rw [wordBytes, hdiv, hmod]

theorem wordAt_inodeBlock {inode : DiskInode} {k : ℕ} (hk : k < 17)
    (hword : inodeWords inode k < 2 ^ 32) :
    wordAt (inodeBlock inode) (4 * k) = inodeWords inode k :=
  (wordAt_congr fun index hindex ↦ if_pos (by omega)).trans (wordAt_wordBytes hword)

theorem wordAt_superBlock {k : ℕ} (hk : k < 11) (hword : superWords sfs k < 2 ^ 32) :
    wordAt (superBlock sfs) (4 * k) = superWords sfs k :=
  (wordAt_congr fun index hindex ↦ if_pos (by omega)).trans (wordAt_wordBytes hword)

/-! ## Mounting -/

theorem Finished.formatted (hfinished : Finished sfs place image) (h : Counted sfs place)
    (hdevice : sfs.ninos ≤ dBlocks) (hsmall : dBlocks < 2 ^ 32) :
    Formatted ⟨dBlocks, image⟩ sfs.ninos sfs.nextIno := by
  have hmax := h.ninos_le
  have hunused := h.unusedBlocks
  unfold SFS_MAX_NBLKS at hmax
  have hleft : sfs.unusedBlocks = sfs.ninos - sfs.nextIno := by omega
  have hsuper : (⟨dBlocks, image⟩ : Device).block SFS_BLKN_SUPER = superBlock sfs := hfinished.super
  refine ⟨h.first_le, h.nextIno_le, by omega, hdevice, hsmall, ?_, ?_, ?_, fun i hi w hw o ho ↦ ?_⟩
  · rw [hsuper]
    exact wordAt_superBlock (k := 0) (by decide) (show SFS_MAGIC < 2 ^ 32 by decide)
  · rw [hsuper, wordAt_superBlock (k := 1) (by decide) (by rw [superWords, h.blocks]; omega)]
    exact h.blocks
  · rw [hsuper, wordAt_superBlock (k := 2) (by decide) (by rw [superWords]; omega)]
    exact hleft
  · have hword : wordAt ((⟨dBlocks, image⟩ : Device).block (SFS_BLKN_FREEMAP + i)) (w * 4) =
        (freemapBlock sfs.ninos sfs.nextIno (i * SFS_BLKBITS) w).toNat := by
      have hblock := hfinished.freemap i hi
      rw [Nat.mul_comm w 4]
      dsimp only
      rw [hblock, wordAt_wordBytes (BitVec.isLt _)]
    rw [hword, BitVec.ofNat_toNat, BitVec.setWidth_eq, getLsbD_freemapBlock ho hw]

/-- The kernel mounts every image. -/
theorem exists_boots (h : Built sfs ledger place) : ∃ s, Boots sfs s := by
  rcases closeSfs_eq h with ⟨image, hclose, hfinished⟩
  have hmax := h.counted.ninos_le
  unfold SFS_MAX_NBLKS at hmax
  have hformatted := hfinished.formatted h.counted (le_refl sfs.ninos) (by omega)
  rcases sfsDoMount_of_formatted hformatted with ⟨s, -, hmount, -⟩
  exact ⟨s, _, _, sfs.ninos, hclose, le_rfl, by omega, hmount⟩

/-- What is on the device, and what is in memory. -/
theorem Boots.mounted (hboots : Boots sfs s) (h : Built sfs ledger place) :
    ∃ dev, Finished sfs place dev.block ∧ Formatted dev sfs.ninos sfs.nextIno ∧
      Mounted dev sfs.ninos sfs.nextIno s := by
  rcases hboots with ⟨done, memory, dBlocks, hclose, hdevice, hsmall, hmount⟩
  rcases closeSfs_eq h with ⟨image, hclose', hfinished⟩
  cases hclose.symm.trans hclose'
  have hformatted := hfinished.formatted h.counted hdevice hsmall
  refine ⟨⟨dBlocks, image⟩, hfinished, hformatted, ?_⟩
  rcases sfsDoMount_of_formatted hformatted with ⟨s', hmounted, -, hany⟩
  rcases hany memory with hok | hfail
  · cases hmount.symm.trans hok
    exact hmounted
  · cases hmount.symm.trans hfail

/-- The kernel's view of what the builder has made. -/
structure Reads (sfs : Mksfs) (place : ℕ → Option Place) (s : SfsFs) : Prop where
  geometry : Geometry s
  ranged : Ranged s
  finished : Finished sfs place s.dev.block
  blocks : s.blocks = sfs.ninos
  /-- What has a place is in use. -/
  inuse : ∀ b p, place b = some p → b < s.blocks ∧ ¬s.freemap.Free b

theorem Boots.reads (hboots : Boots sfs s) (h : Built sfs ledger place) : Reads sfs place s := by
  rcases hboots.mounted h with ⟨dev, hfinished, hformatted, hmounted⟩
  refine ⟨hmounted.geometry hformatted, hmounted.ranged hformatted, hmounted.dev ▸ hfinished,
    hmounted.blocks, fun b p hb ↦ ?_⟩
  have hlt := h.counted.lt b p hb
  have hle := h.counted.nextIno_le
  rw [hmounted.blocks]
  exact ⟨hlt.trans_le hle, (hmounted.inuse hle hlt).2⟩

/-! ## Inodes and entry blocks -/

/-- The kernel has what the builder had cached. -/
theorem Reads.diskInode (hreads : Reads sfs place s) (h : Built sfs ledger place)
    (hino : sfs.Cached ino) :
    (Fs.diskInode (s.dev.block ino)).type = (sfs.inode ino).inode.type ∧
      diskNlinks (s.dev.block ino) = (sfs.inode ino).inode.nlinks ∧
      (Fs.diskInode (s.dev.block ino)).blocks = (ledger.blocks ino).length := by
  have hblock := hreads.finished.inode ino hino
  have hmaps := h.maps ino hino
  have htype : (sfs.inode ino).inode.type < 2 ^ 16 := by
    rcases h.type ino hino with htype | htype | htype <;> rw [htype] <;> decide
  have hnlinks : (sfs.inode ino).inode.nlinks < 2 ^ 16 := by
    rw [h.nlinks ino hino]
    exact Nat.mod_lt _ (by decide)
  have hlength := hmaps.length_le
  unfold SFS_LN_NBLKS SFS_MAX_FILE_SIZE SFS_BLKSIZE at hlength
  have hword : wordAt (s.dev.block ino) 4 =
      (sfs.inode ino).inode.type + 2 ^ 16 * (sfs.inode ino).inode.nlinks := by
    rw [hblock]
    exact wordAt_inodeBlock (k := 1) (by decide) (by rw [inodeWords]; omega)
  refine ⟨?_, ?_, ?_⟩
  · rw [Fs.diskInode, hword, Nat.add_mul_mod_self_left, Nat.mod_eq_of_lt htype]
  · rw [diskNlinks, hword, Nat.add_mul_div_left _ _ (by decide), Nat.div_eq_of_lt htype,
      Nat.zero_add]
  · have hblocks : inodeWords (sfs.inode ino).inode 2 = (ledger.blocks ino).length := hmaps.count
    refine Eq.trans ?_ hblocks
    rw [Fs.diskInode, hblock]
    exact wordAt_inodeBlock (k := 2) (by decide) (by rw [hblocks]; omega)

theorem Built.lt_of_place (h : Built sfs ledger place) {b : ℕ} {p : Place} (hb : place b = some p) :
    b < 2 ^ 32 := by
  have hlt := h.counted.lt b p hb
  have hle := h.counted.nextIno_le
  have hmax := h.counted.ninos_le
  unfold SFS_MAX_NBLKS at hmax
  omega

/-- The block map as the kernel reads it, as far as it goes. -/
theorem Reads.blockAt (hreads : Reads sfs place s) (h : Built sfs ledger place)
    (hino : sfs.Cached ino) {index : ℕ} (hindex : index < (ledger.blocks ino).length)
    (hmax : index < MAX_BLOCKS) :
    Fs.blockAt s (Fs.diskInode (s.dev.block ino)) index = (ledger.blocks ino)[index] ∧
      (SFS_NDIRECT ≤ index →
        place (Fs.diskInode (s.dev.block ino)).indirect = some (.indirect ino)) := by
  have hblock := hreads.finished.inode ino hino
  have hmaps := h.maps ino hino
  have hdata := hmaps.data index hindex
  have hlt := h.lt_of_place (hmaps.placed index hindex)
  rw [CacheInode.blockAt] at hdata
  by_cases hdirect : index < SFS_NDIRECT
  · rw [if_pos (show index < SFS_L0_NBLKS from hdirect)] at hdata
    have hword : inodeWords (sfs.inode ino).inode (index + 3) =
        (sfs.inode ino).inode.direct index := if_pos hdirect
    have hoffset : 12 + 4 * index = 4 * (index + 3) := by omega
    refine ⟨?_, fun hlow ↦ absurd hdirect (Nat.not_lt.mpr hlow)⟩
    rw [Fs.blockAt, if_pos hdirect, Fs.diskInode]
    dsimp only
    rw [hoffset, hblock,
      wordAt_inodeBlock (by unfold SFS_NDIRECT at hdirect; omega) (by rw [hword, hdata]; exact hlt),
      hword, hdata]
  · have hl1 : index < SFS_L1_NBLKS := by
      rw [MAX_BLOCKS, Nat.add_comm] at hmax
      exact hmax
    rw [if_neg (show ¬index < SFS_L0_NBLKS from hdirect), if_pos hl1] at hdata
    have hplace := hmaps.indirect ((Nat.not_lt.mp hdirect).trans_lt hindex)
    have hword : inodeWords (sfs.inode ino).inode 15 = (sfs.inode ino).inode.indirect := rfl
    have hindirect : (Fs.diskInode (s.dev.block ino)).indirect = (sfs.inode ino).inode.indirect := by
      refine Eq.trans ?_ hword
      rw [Fs.diskInode, hblock]
      exact wordAt_inodeBlock (k := 15) (by decide) (h.lt_of_place hplace)
    rw [hindirect]
    refine ⟨?_, fun _ ↦ hplace⟩
    rw [Fs.blockAt, if_neg hdirect, hindirect, if_neg (h.counted.ne_zero hplace (by simp)), entry,
      Nat.mul_comm, hreads.finished.table _ _ hplace trivial]
    exact (wordAt_wordBytes (hdata.trans_lt hlt)).trans hdata

end Boot

end Ucore.Tools
