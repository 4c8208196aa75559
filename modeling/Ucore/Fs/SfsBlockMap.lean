import Mathlib.Data.List.Nodup
import Ucore.Fs.Sfs

/-!
# Ownership of blocks

`Owns` describes one inode among everything else that is in use: the blocks that the inode refers
to are its own and in use, and every other block in use belongs to the rest. A block that was
allocated and not yet entered in a block map belongs to the rest, so that allocating, entering,
removing and freeing a block are four separate steps, and the functions on block maps are sequences
of these steps.
-/

namespace Ucore.Fs

open Library

/-- The largest number of blocks of a file. -/
def MAX_BLOCKS : ℕ := SFS_NDIRECT + SFS_BLK_NENTRY

/-- Entry `index` of an entry block. -/
def entry (s : SfsFs) (ent index : ℕ) : ℕ := word32 fun offset ↦ s.dev.block ent (index * 4 + offset)

/-- The number of the block with the given index in a file; zero when there is none. -/
def blockAt (s : SfsFs) (sin : SfsInode) (index : ℕ) : ℕ :=
  if index < SFS_NDIRECT then sin.direct index
  else if sin.indirect = 0 then 0
  else entry s sin.indirect (index - SFS_NDIRECT)

/-- The blocks that an inode refers to, slot by slot. -/
def refs (s : SfsFs) (sin : SfsInode) : List ℕ :=
  (if sin.indirect = 0 then [] else [sin.indirect]) ++ (List.range sin.blocks).map (blockAt s sin)

/-- What holds of a mounted file system whatever the files are. -/
structure Geometry (s : SfsFs) : Prop where
  covers : s.freemap.Covers
  blocks_le_nbits : s.blocks ≤ s.freemap.nbits
  blocks_le_device : s.blocks ≤ s.dev.dBlocks
  /-- `mksfs` makes at most half as many blocks; byte offsets then fit in 32 bits. -/
  blocks_le : s.blocks ≤ 2 ^ 20
  device_lt : s.dev.dBlocks < 2 ^ 32
  unusedBlocks : s.unusedBlocks = s.freemap.freeCount

/-- The inode and everything else in use. -/
structure Owns (s : SfsFs) (sin : SfsInode) (rest : ℕ → Prop) : Prop where
  geometry : Geometry s
  blocks_le : sin.blocks ≤ MAX_BLOCKS
  mapped : ∀ index < sin.blocks, blockAt s sin index ≠ 0
  unmapped : ∀ index, sin.blocks ≤ index → index < MAX_BLOCKS → blockAt s sin index = 0
  nodup : (refs s sin).Nodup
  range : ∀ b ∈ refs s sin, b < s.blocks
  apart : ∀ b ∈ refs s sin, ¬rest b
  inuse : ∀ b, 0 < b → b < s.blocks → (s.freemap.Free b ↔ b ∉ refs s sin ∧ ¬rest b)

/-! ## Bytes -/

theorem word32_congr {bytes other : Bytes} (h : ∀ index < 4, other index = bytes index) :
    word32 other = word32 bytes := by
  simp [word32, h]

theorem word32_bytes32 {value : ℕ} (h : value < 2 ^ 32) : word32 (bytes32 value) = value := by
  simp only [word32, bytes32, UInt8.toNat_ofNat']
  omega

theorem overlay_inside {block data : Bytes} {len offset index : ℕ} (h : index < len) :
    overlay block data len offset (offset + index) = data index := by
  unfold overlay
  rw [if_pos (by omega), Nat.add_sub_cancel_left]

theorem overlay_outside {block data : Bytes} {len offset index : ℕ}
    (h : index < offset ∨ offset + len ≤ index) :
    overlay block data len offset index = block index := if_neg (by omega)

/-! ## Reading and writing blocks -/

/-- The file system after one block of the device was written. -/
def SfsFs.put (s : SfsFs) (blkno : ℕ) (data : Bytes) : SfsFs :=
  { s with dev.block := Function.update s.dev.block blkno data }

@[simp]
theorem put_block (s : SfsFs) (blkno : ℕ) (data : Bytes) (other : ℕ) :
    (s.put blkno data).dev.block other = if other = blkno then data else s.dev.block other := by
  by_cases h : other = blkno <;> simp [SfsFs.put, h]

@[simp]
theorem put_blocks (s : SfsFs) (blkno : ℕ) (data : Bytes) : (s.put blkno data).blocks = s.blocks :=
  rfl

@[simp]
theorem put_freemap (s : SfsFs) (blkno : ℕ) (data : Bytes) :
    (s.put blkno data).freemap = s.freemap := rfl

theorem Geometry.put {s : SfsFs} (h : Geometry s) (blkno : ℕ) (data : Bytes) :
    Geometry (s.put blkno data) := { h with }

/-- A block of the file system is never refused by the device. -/
theorem sfsRwblockNolock_spec {s : SfsFs} (h : Geometry s) (blkno : ℕ) :
    Ensures (sfsRwblockNolock s blkno) fun ret ↦ 0 < blkno ∧ blkno < s.blocks ∧ ret = .ok blkno := by
  refine Ensures.require fun hrange ↦ ?_
  have hdevice := h.blocks_le_device
  have hsmall := h.blocks_le
  have hoffset : uint32 (blkno * SFS_BLKSIZE) = blkno * SFS_BLKSIZE :=
    uint32_of_lt (by unfold SFS_BLKSIZE; omega)
  have hdiv : blkno * SFS_BLKSIZE / SFS_BLKSIZE = blkno := Nat.mul_div_cancel _ (by decide)
  have hmod : blkno * SFS_BLKSIZE % SFS_BLKSIZE = 0 := Nat.mul_mod_left ..
  have hblkno : uint32 blkno = blkno := uint32_of_lt (by omega)
  have hnext : uint32 (blkno + 1) = blkno + 1 := uint32_of_lt (by omega)
  have hin : ¬s.dev.dBlocks < blkno + 1 := by omega
  simp only [Outcome.pure_eq_ok, Ensures.ok_iff, disk0Io, hoffset, hdiv, hmod, hblkno, hnext, hin]
  exact ⟨Nat.pos_of_ne_zero hrange.1, hrange.2, rfl⟩

theorem sfsRblock_spec {s : SfsFs} (h : Geometry s) (blkno : ℕ) :
    Ensures (sfsRblock s blkno) fun ret ↦
      0 < blkno ∧ blkno < s.blocks ∧ ret = .ok (s.dev.block blkno) := by
  refine (sfsRwblockNolock_spec h blkno).bind ?_
  rintro _ ⟨hpos, hlt, rfl⟩
  simpa using ⟨hpos, hlt⟩

theorem sfsWblock_spec {s : SfsFs} (h : Geometry s) (data : Bytes) (blkno : ℕ) :
    Ensures (sfsWblock s data blkno) fun result ↦
      0 < blkno ∧ blkno < s.blocks ∧ result = (.ok (), s.put blkno data) := by
  refine (sfsRwblockNolock_spec h blkno).bind ?_
  rintro _ ⟨hpos, hlt, rfl⟩
  simpa using ⟨hpos, hlt, rfl⟩

theorem sfsRbuf_spec {s : SfsFs} (h : Geometry s) (len blkno offset : ℕ) :
    Ensures (sfsRbuf s len blkno offset) fun ret ↦ 0 < blkno ∧ blkno < s.blocks ∧
      offset + len ≤ SFS_BLKSIZE ∧ ret = .ok fun index ↦ s.dev.block blkno (offset + index) := by
  refine Ensures.require fun hoffset ↦ (sfsRblock_spec h blkno).bind ?_
  rintro _ ⟨hpos, hlt, rfl⟩
  simpa using ⟨hpos, hlt, hoffset.2⟩

theorem sfsWbuf_spec {s : SfsFs} (h : Geometry s) (data : Bytes) (len blkno offset : ℕ) :
    Ensures (sfsWbuf s data len blkno offset) fun result ↦ 0 < blkno ∧ blkno < s.blocks ∧
      offset + len ≤ SFS_BLKSIZE ∧
      result = (.ok (), s.put blkno (overlay (s.dev.block blkno) data len offset)) := by
  refine Ensures.require fun hoffset ↦ (sfsRblock_spec h blkno).bind ?_
  rintro _ ⟨hpos, hlt, rfl⟩
  refine (sfsWblock_spec h _ blkno).mono ?_
  rintro _ ⟨-, -, rfl⟩
  exact ⟨hpos, hlt, hoffset.2, rfl⟩

/-! ## Allocating and freeing -/

/-- `b` was free in `s`; in `after` it is in use and filled with zeros. -/
structure Allocated (s after : SfsFs) (b : ℕ) : Prop where
  pos : 0 < b
  lt : b < s.blocks
  freemap : Bitmap.Taken s.freemap after.freemap b
  geometry : Geometry after
  blocks : after.blocks = s.blocks
  zero : after.dev.block b = fun _ ↦ 0
  block : ∀ other, other ≠ b → after.dev.block other = s.dev.block other

/-- `b` was in use in `s`; in `after` it is free. -/
structure Freed (s after : SfsFs) (b : ℕ) : Prop where
  freemap : Bitmap.Taken after.freemap s.freemap b
  geometry : Geometry after
  blocks : after.blocks = s.blocks
  dev : after.dev = s.dev

theorem sfsBlockInuse_spec (s : SfsFs) (ino : ℕ) : Ensures (sfsBlockInuse s ino) fun result ↦
    0 < ino ∧ ino < s.blocks ∧ (result = true ↔ ¬s.freemap.Free ino) := by
  unfold sfsBlockInuse
  split
  · rename_i hrange
    refine (bitmapTest_spec s.freemap ino).bind ?_
    rintro _ ⟨-, rfl⟩
    simpa using ⟨Nat.pos_of_ne_zero hrange.1, hrange.2⟩
  · exact Ensures.error

theorem sfsBlockAlloc_spec {s : SfsFs} (h : Geometry s) :
    Ensures (sfsBlockAlloc s) fun (ret, after) ↦ match ret with
      | .error _ => after = s
      | .ok b => Allocated s after b := by
  refine (bitmapAlloc_spec h.covers).bind fun result hresult ↦ ?_
  rcases result with _ | ⟨b, freemap⟩
  · simp
  · have htaken : Bitmap.Taken s.freemap freemap b := hresult
    refine Ensures.require fun hunused ↦ ?_
    have hgeometry : Geometry { s with
        freemap := freemap, unusedBlocks := s.unusedBlocks - 1, superDirty := true } :=
      { h with
        covers := h.covers.of_eq htaken.nbits htaken.nwords
        blocks_le_nbits := htaken.nbits ▸ h.blocks_le_nbits
        unusedBlocks := by
          have hcount := htaken.freeCount
          have hbefore := h.unusedBlocks
          dsimp only
          omega }
    refine (sfsBlockInuse_spec _ b).bind fun used hused ↦ Ensures.require fun _ ↦ ?_
    refine (sfsWblock_spec hgeometry _ b).bind ?_
    rintro _ ⟨hpos, hlt, rfl⟩
    simp only [Outcome.pure_eq_ok, Ensures.ok_iff, Except.map]
    exact ⟨hpos, hlt, htaken, hgeometry.put _ _, rfl, by simp, fun other hother ↦ by simp [hother]⟩

theorem sfsBlockFree_spec {s : SfsFs} (h : Geometry s) (b : ℕ) :
    Ensures (sfsBlockFree s b) fun after ↦ Freed s after b := by
  refine (sfsBlockInuse_spec s b).bind fun used hused ↦ Ensures.require fun _ ↦ ?_
  refine (bitmapFree_spec s.freemap b).bind fun freemap htaken ↦ ?_
  simp only [Outcome.pure_eq_ok, Ensures.ok_iff]
  have hcount := htaken.freeCount
  have hnbits := htaken.nbits
  have hnwords := htaken.nwords
  refine ⟨htaken, { h with
    covers := h.covers.of_eq hnbits.symm hnwords.symm
    blocks_le_nbits := hnbits ▸ h.blocks_le_nbits
    unusedBlocks := ?_ }, rfl, rfl⟩
  have hle := freemap.freeCount_le
  have hsmall := h.covers.small
  have hbefore := h.unusedBlocks
  dsimp only
  rw [uint32_of_lt (by omega)]
  omega

/-! ## References -/

section Refs

variable {s after : SfsFs} {sin sin' : SfsInode} {rest : ℕ → Prop} {b index : ℕ}

theorem mem_refs : b ∈ refs s sin ↔
    sin.indirect ≠ 0 ∧ b = sin.indirect ∨ ∃ index < sin.blocks, blockAt s sin index = b := by
  by_cases h : sin.indirect = 0 <;> simp [refs, h]

/-- The block map is read from the inode and the entry block. -/
theorem blockAt_congr (h : sin.indirect ≠ 0 →
      after.dev.block sin.indirect = s.dev.block sin.indirect) (index : ℕ) :
    blockAt after sin index = blockAt s sin index := by
  unfold blockAt entry
  by_cases hindirect : sin.indirect = 0
  · simp [hindirect]
  · rw [h hindirect]

theorem refs_congr (h : sin.indirect ≠ 0 →
      after.dev.block sin.indirect = s.dev.block sin.indirect) : refs after sin = refs s sin := by
  unfold refs
  rw [funext (blockAt_congr h)]

/-- One block more. -/
theorem refs_grow (hindirect : sin'.indirect = sin.indirect) (hblocks : sin'.blocks = sin.blocks + 1)
    (hsame : ∀ index < sin.blocks, blockAt after sin' index = blockAt s sin index) :
    (refs after sin').Perm (blockAt after sin' sin.blocks :: refs s sin) := by
  have hmap : (List.range sin.blocks).map (blockAt after sin') =
      (List.range sin.blocks).map (blockAt s sin) :=
    List.map_congr_left fun index hindex ↦ hsame index (List.mem_range.mp hindex)
  rw [refs, refs, hindirect, hblocks, List.range_succ, List.map_append, List.map_singleton, hmap,
    ← List.append_assoc]
  exact List.perm_append_singleton _ _

theorem blockAt_setDirect {k : ℕ} (hk : k < SFS_NDIRECT) (hindirect : sin'.indirect = sin.indirect)
    (hdirect : sin'.direct = Function.update sin.direct k b) (index : ℕ) :
    blockAt s sin' index = if index = k then b else blockAt s sin index := by
  unfold blockAt
  rw [hindirect, hdirect]
  by_cases h : index = k
  · simp [h, hk]
  · simp [h]

/-- The file system after an entry of an entry block was written. -/
def SfsFs.setEntry (s : SfsFs) (ent k value : ℕ) : SfsFs :=
  s.put ent (overlay (s.dev.block ent) (bytes32 value) 4 (k * 4))

theorem entry_setEntry (s : SfsFs) (ent k : ℕ) {value : ℕ} (hvalue : value < 2 ^ 32) (other : ℕ) :
    entry (s.setEntry ent k value) ent other = if other = k then value else entry s ent other := by
  unfold entry SfsFs.setEntry
  by_cases h : other = k
  · subst h
    rw [if_pos rfl, ← word32_bytes32 hvalue]
    refine word32_congr fun offset hoffset ↦ ?_
    rw [put_block, if_pos rfl, overlay_inside hoffset, word32_bytes32 hvalue]
  · rw [if_neg h]
    refine word32_congr fun offset hoffset ↦ ?_
    rw [put_block, if_pos rfl, overlay_outside (by omega)]

theorem blockAt_setEntry {k value : ℕ} (hindirect : sin.indirect ≠ 0) (hvalue : value < 2 ^ 32)
    (index : ℕ) : blockAt (s.setEntry sin.indirect k value) sin index =
      if index = SFS_NDIRECT + k then value else blockAt s sin index := by
  unfold blockAt
  rw [if_neg hindirect, if_neg hindirect, entry_setEntry _ _ _ hvalue]
  by_cases h : index = SFS_NDIRECT + k
  · subst h
    simp
  · by_cases hdirect : index < SFS_NDIRECT
    · simp [h, hdirect]
    · have hne : index - SFS_NDIRECT ≠ k := by omega
      simp [h, hdirect, hne]

end Refs

namespace Owns

variable {s after : SfsFs} {sin sin' : SfsInode} {rest : ℕ → Prop} {b : ℕ}

theorem pos_of_mem (h : Owns s sin rest) (hb : b ∈ refs s sin) : 0 < b := by
  rcases mem_refs.mp hb with ⟨hne, rfl⟩ | ⟨index, hindex, rfl⟩
  · exact Nat.pos_of_ne_zero hne
  · exact Nat.pos_of_ne_zero (h.mapped index hindex)

/-- Whether an inode was changed in memory does not matter, nor do its size and type. -/
theorem of_fields (h : Owns s sin rest) (hdirect : sin'.direct = sin.direct)
    (hindirect : sin'.indirect = sin.indirect) (hblocks : sin'.blocks = sin.blocks) :
    Owns s sin' rest := by
  have hat : blockAt s sin' = blockAt s sin := by
    funext index
    simp only [blockAt, hdirect, hindirect]
  have hrefs : refs s sin' = refs s sin := by
    simp only [refs, hindirect, hblocks, hat]
  exact ⟨h.geometry, hblocks ▸ h.blocks_le, by simpa [hat, hblocks] using h.mapped,
    by simpa [hat, hblocks] using h.unmapped, hrefs ▸ h.nodup, hrefs ▸ h.range, hrefs ▸ h.apart,
    hrefs ▸ h.inuse⟩

/-- A free block is neither the file's nor the rest's. -/
theorem not_mem_of_free (h : Owns s sin rest) (hpos : 0 < b) (hlt : b < s.blocks)
    (hfree : s.freemap.Free b) : b ∉ refs s sin ∧ ¬rest b := (h.inuse b hpos hlt).mp hfree

theorem indirect_mem (hindirect : sin.indirect ≠ 0) : sin.indirect ∈ refs s sin :=
  mem_refs.mpr (Or.inl ⟨hindirect, rfl⟩)

theorem blockAt_mem {index : ℕ} (hindex : index < sin.blocks) : blockAt s sin index ∈ refs s sin :=
  mem_refs.mpr (Or.inr ⟨index, hindex, rfl⟩)

theorem blockAt_ne_indirect (h : Owns s sin rest) {index : ℕ} (hindex : index < sin.blocks) :
    blockAt s sin index ≠ sin.indirect := by
  intro heq
  have hne : sin.indirect ≠ 0 := heq ▸ h.mapped index hindex
  have hnodup := h.nodup
  rw [refs, if_neg hne, List.singleton_append, List.nodup_cons] at hnodup
  refine hnodup.1 (List.mem_map.mpr ⟨index, List.mem_range.mpr hindex, heq⟩)

theorem blockAt_inj (h : Owns s sin rest) {index other : ℕ} (hindex : index < sin.blocks)
    (hother : other < sin.blocks) (heq : blockAt s sin index = blockAt s sin other) :
    index = other :=
  List.inj_on_of_nodup_map (List.nodup_append.mp h.nodup).2.1 (List.mem_range.mpr hindex)
    (List.mem_range.mpr hother) heq

/-! ### The four steps -/

/-- An allocated block belongs to the rest. -/
theorem alloc (h : Owns s sin rest) (halloc : Allocated s after b) :
    Owns after sin (fun other ↦ rest other ∨ other = b) := by
  rcases h.not_mem_of_free halloc.pos halloc.lt halloc.freemap.free with ⟨hrefs, hrest⟩
  have hindirect : sin.indirect ≠ 0 → after.dev.block sin.indirect = s.dev.block sin.indirect :=
    fun hne ↦ halloc.block _ fun heq ↦ hrefs (heq ▸ indirect_mem hne)
  have hsame := refs_congr hindirect
  have hat := blockAt_congr hindirect
  refine ⟨halloc.geometry, h.blocks_le, ?_, ?_, hsame ▸ h.nodup, ?_, ?_, ?_⟩
  · exact fun index hindex ↦ hat index ▸ h.mapped index hindex
  · exact fun index hlow hhigh ↦ hat index ▸ h.unmapped index hlow hhigh
  · rw [hsame, halloc.blocks]
    exact h.range
  · rw [hsame]
    rintro other hother (hin | rfl)
    · exact h.apart other hother hin
    · exact hrefs hother
  · intro other hpos hlt
    rw [halloc.blocks] at hlt
    rw [halloc.freemap.rest, hsame, h.inuse other hpos hlt]
    tauto

/-- A block of the rest that is freed is in use no longer. -/
theorem free (h : Owns s sin fun other ↦ rest other ∨ other = b) (hb : ¬rest b)
    (hfree : Freed s after b) : Owns after sin rest := by
  have hindirect : sin.indirect ≠ 0 → after.dev.block sin.indirect = s.dev.block sin.indirect :=
    fun _ ↦ by rw [hfree.dev]
  have hsame := refs_congr hindirect
  have hat := blockAt_congr hindirect
  have hnot : b ∉ refs s sin := fun hmem ↦ h.apart b hmem (Or.inr rfl)
  refine ⟨hfree.geometry, h.blocks_le, ?_, ?_, hsame ▸ h.nodup, ?_, ?_, ?_⟩
  · exact fun index hindex ↦ hat index ▸ h.mapped index hindex
  · exact fun index hlow hhigh ↦ hat index ▸ h.unmapped index hlow hhigh
  · rw [hsame, hfree.blocks]
    exact h.range
  · rw [hsame]
    exact fun other hother hin ↦ h.apart other hother (Or.inl hin)
  · intro other hpos hlt
    rw [hfree.blocks] at hlt
    have hbefore := h.inuse other hpos hlt
    rw [hfree.freemap.rest] at hbefore
    rw [hsame]
    by_cases heq : other = b
    · subst heq
      exact iff_of_true hfree.freemap.free ⟨hnot, hb⟩
    · simpa [heq] using hbefore

/-- A block of the rest is entered in the block map. -/
theorem enter (h : Owns s sin fun other ↦ rest other ∨ other = b) (hb : ¬rest b)
    (hlt : b < s.blocks) (hgeometry : Geometry after) (hfreemap : after.freemap = s.freemap)
    (hblocks : after.blocks = s.blocks) (hrefs : (refs after sin').Perm (b :: refs s sin))
    (hle : sin'.blocks ≤ MAX_BLOCKS) (hmapped : ∀ index < sin'.blocks, blockAt after sin' index ≠ 0)
    (hunmapped : ∀ index, sin'.blocks ≤ index → index < MAX_BLOCKS →
      blockAt after sin' index = 0) : Owns after sin' rest := by
  have hnot : b ∉ refs s sin := fun hmem ↦ h.apart b hmem (Or.inr rfl)
  refine ⟨hgeometry, hle, hmapped, hunmapped, ?_, ?_, ?_, ?_⟩
  · exact hrefs.nodup_iff.mpr (List.nodup_cons.mpr ⟨hnot, h.nodup⟩)
  · intro other hother
    rw [hblocks]
    rcases List.mem_cons.mp (hrefs.mem_iff.mp hother) with rfl | hother
    · exact hlt
    · exact h.range other hother
  · intro other hother hin
    rcases List.mem_cons.mp (hrefs.mem_iff.mp hother) with rfl | hother
    · exact hb hin
    · exact h.apart other hother (Or.inl hin)
  · intro other hpos hlt
    rw [hblocks] at hlt
    rw [hfreemap, h.inuse other hpos hlt, hrefs.mem_iff, List.mem_cons]
    tauto

/-- A block is removed from the block map and belongs to the rest. -/
theorem remove (h : Owns s sin rest) (hgeometry : Geometry after)
    (hfreemap : after.freemap = s.freemap) (hblocks : after.blocks = s.blocks)
    (hrefs : (refs s sin).Perm (b :: refs after sin'))
    (hle : sin'.blocks ≤ MAX_BLOCKS) (hmapped : ∀ index < sin'.blocks, blockAt after sin' index ≠ 0)
    (hunmapped : ∀ index, sin'.blocks ≤ index → index < MAX_BLOCKS →
      blockAt after sin' index = 0) : Owns after sin' fun other ↦ rest other ∨ other = b := by
  have hnodup := List.nodup_cons.mp (hrefs.nodup_iff.mp h.nodup)
  have hmem : ∀ other ∈ refs after sin', other ∈ refs s sin := fun other hother ↦
    hrefs.mem_iff.mpr (List.mem_cons_of_mem _ hother)
  refine ⟨hgeometry, hle, hmapped, hunmapped, hnodup.2, ?_, ?_, ?_⟩
  · exact fun other hother ↦ hblocks ▸ h.range other (hmem other hother)
  · rintro other hother (hin | rfl)
    · exact h.apart other (hmem other hother) hin
    · exact hnodup.1 hother
  · intro other hpos hlt
    rw [hblocks] at hlt
    rw [hfreemap, h.inuse other hpos hlt, hrefs.mem_iff, List.mem_cons]
    tauto

end Owns

end Ucore.Fs
