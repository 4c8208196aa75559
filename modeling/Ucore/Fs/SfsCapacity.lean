import Ucore.Fs.SfsTransfer

/-!
# How many blocks a file can have

The specifications of the block map say what holds after a call that returns. Here is which calls
return, and with which code. What decides it is the `capacity` of a file: the number of blocks that
it can have with the blocks that are free now. Mapping one more block does not change it, since the
file gains what the free map loses.
-/

namespace Ucore.Fs

open Library

/-- Only blocks of the file system are free. -/
def Ranged (s : SfsFs) : Prop :=
  ∀ b < s.freemap.nbits, s.freemap.Free b → 0 < b ∧ b < s.blocks

/-- The number of free blocks. -/
def SfsFs.free (s : SfsFs) : ℕ := s.freemap.freeCount

/-- The data blocks that can be added to a file: one free block is the entry block when the file
has none and will need it. -/
def room (s : SfsFs) (sin : SfsInode) : ℕ :=
  if sin.indirect ≠ 0 ∨ sin.blocks + s.free ≤ SFS_NDIRECT then s.free else s.free - 1

/-- The number of blocks that a file can have. -/
def capacity (s : SfsFs) (sin : SfsInode) : ℕ := min MAX_BLOCKS (sin.blocks + room s sin)

/-- No block was taken from the free map for good. -/
structure Unspent (s after : SfsFs) : Prop where
  ranged : Ranged after
  nbits : after.freemap.nbits = s.freemap.nbits
  free : ∀ b, after.freemap.Free b ↔ s.freemap.Free b

variable {s after : SfsFs} {sin : SfsInode} {rest : ℕ → Prop} {b index : ℕ}

theorem Unspent.refl (h : Ranged s) : Unspent s s := ⟨h, rfl, fun _ ↦ Iff.rfl⟩

theorem Unspent.free_eq (h : Unspent s after) : after.free = s.free := freeCount_congr h.nbits h.free

theorem Unspent.capacity_eq (h : Unspent s after) (sin : SfsInode) :
    capacity after sin = capacity s sin := by
  rw [capacity, capacity, room, room, h.free_eq]

/-! ## Blocks -/

theorem completes_sfsRwblockNolock (hpos : 0 < b) (hlt : b < s.blocks) :
    Completes (sfsRwblockNolock s b) := Completes.require ⟨hpos.ne', hlt⟩ (Completes.ok _)

theorem sfsRblock_eq (h : Geometry s) (hpos : 0 < b) (hlt : b < s.blocks) :
    sfsRblock s b = .ok (.ok (s.dev.block b)) := by
  have hcall : Completes (sfsRblock s b) :=
    (completes_sfsRwblockNolock hpos hlt).bind (sfsRwblockNolock_spec h b) fun ret hret ↦ by
      rw [hret.2.2]
      exact Completes.ok _
  rcases hcall.post (sfsRblock_spec h b) with ⟨ret, hret, -, -, rfl⟩
  exact hret

theorem sfsWblock_eq (h : Geometry s) (hpos : 0 < b) (hlt : b < s.blocks) (data : Bytes) :
    sfsWblock s data b = .ok (.ok (), s.put b data) := by
  have hcall : Completes (sfsWblock s data b) :=
    (completes_sfsRwblockNolock hpos hlt).bind (sfsRwblockNolock_spec h b) fun ret hret ↦ by
      rw [hret.2.2]
      exact Completes.ok _
  rcases hcall.post (sfsWblock_spec h data b) with ⟨result, hresult, -, -, rfl⟩
  exact hresult

theorem sfsRbuf_eq (h : Geometry s) (hpos : 0 < b) (hlt : b < s.blocks) {len offset : ℕ}
    (hoffset : offset < SFS_BLKSIZE) (hlen : offset + len ≤ SFS_BLKSIZE) :
    sfsRbuf s len b offset = .ok (.ok fun index ↦ s.dev.block b (offset + index)) := by
  rw [sfsRbuf, Outcome.require_of_true ⟨hoffset, hlen⟩, Outcome.ok_bind, sfsRblock_eq h hpos hlt]
  rfl

theorem sfsWbuf_eq (h : Geometry s) (hpos : 0 < b) (hlt : b < s.blocks) {len offset : ℕ}
    (hoffset : offset < SFS_BLKSIZE) (hlen : offset + len ≤ SFS_BLKSIZE) (data : Bytes) :
    sfsWbuf s data len b offset =
      .ok (.ok (), s.put b (overlay (s.dev.block b) data len offset)) := by
  rw [sfsWbuf, Outcome.require_of_true ⟨hoffset, hlen⟩, Outcome.ok_bind, sfsRblock_eq h hpos hlt,
    Outcome.ok_bind]
  exact sfsWblock_eq h hpos hlt _

theorem sfsBlockInuse_eq (h : Geometry s) (hpos : 0 < b) (hlt : b < s.blocks) :
    sfsBlockInuse s b = .ok (!decide (s.freemap.Free b)) := by
  have hnbits := h.blocks_le_nbits
  rw [sfsBlockInuse, if_pos ⟨hpos.ne', hlt⟩, bitmapTest_eq (by omega)]
  rfl

/-! ## Allocating and freeing -/

/-- `sfs_block_alloc` fails when no block is free, and only then. -/
theorem sfsBlockAlloc_cases (h : Geometry s) (hranged : Ranged s) :
    (s.free = 0 ∧ sfsBlockAlloc s = .ok (.error .noMem, s)) ∨
      ∃ b after, sfsBlockAlloc s = .ok (.ok b, after) ∧ Allocated s after b ∧ Ranged after ∧
        after.free + 1 = s.free := by
  rcases (completes_bitmapAlloc s.freemap).post (bitmapAlloc_spec h.covers) with
    ⟨result, hresult, hpost⟩
  cases result with
  | none =>
    refine Or.inl ⟨freeCount_eq_zero hpost, ?_⟩
    rw [sfsBlockAlloc, hresult]
    rfl
  | some taken =>
    rcases taken with ⟨b, freemap⟩
    have htaken : Bitmap.Taken s.freemap freemap b := hpost
    have hrange := hranged b htaken.index_lt htaken.free
    have hcount := htaken.freeCount
    have hunused := h.unusedBlocks
    -- the file system after the block has left the free map
    have hgeometry : Geometry { s with
        freemap := freemap, unusedBlocks := s.unusedBlocks - 1, superDirty := true } :=
      { h with
        covers := h.covers.of_eq htaken.nbits htaken.nwords
        blocks_le_nbits := htaken.nbits ▸ h.blocks_le_nbits
        unusedBlocks := by
          dsimp only
          omega }
    have hused : ¬freemap.Free b := fun hfree ↦ ((htaken.rest b).mp hfree).1 rfl
    have hcall : sfsBlockAlloc s = .ok (.ok b, SfsFs.put { s with
        freemap := freemap, unusedBlocks := s.unusedBlocks - 1, superDirty := true } b fun _ ↦ 0) := by
      rw [sfsBlockAlloc, hresult, Outcome.ok_bind]
      dsimp only
      rw [Outcome.require_of_true (by omega), Outcome.ok_bind,
        sfsBlockInuse_eq hgeometry hrange.1 hrange.2, Outcome.ok_bind,
        Outcome.require_of_true (by simpa using hused), Outcome.ok_bind, sfsClearBlock,
        sfsWblock_eq hgeometry hrange.1 hrange.2]
      rfl
    refine Or.inr ⟨b, _, hcall, sfsBlockAlloc_spec h _ hcall, fun other hother hfree ↦ ?_, ?_⟩
    · exact hranged other (htaken.nbits ▸ hother) ((htaken.rest other).mp hfree).2
    · exact hcount.symm

/-- `sfs_block_free` of a block in use. -/
theorem sfsBlockFree_eq (h : Geometry s) (hranged : Ranged s) (hpos : 0 < b) (hlt : b < s.blocks)
    (hused : ¬s.freemap.Free b) : ∃ after, sfsBlockFree s b = .ok after ∧ Freed s after b ∧
      Ranged after ∧ after.free = s.free + 1 := by
  have hnbits := h.blocks_le_nbits
  have hcall : Completes (sfsBlockFree s b) := by
    rw [sfsBlockFree, sfsBlockInuse_eq h hpos hlt, Outcome.ok_bind]
    apply Completes.require (by simpa using hused)
    exact (completes_bitmapFree (by omega) hused).bind (bitmapFree_spec s.freemap b)
      fun freemap _ ↦ Completes.ok _
  rcases hcall.post (sfsBlockFree_spec h b) with ⟨after, hafter, hfreed⟩
  refine ⟨after, hafter, hfreed, fun other hother hfree ↦ ?_, hfreed.freemap.freeCount⟩
  rw [hfreed.blocks]
  by_cases heq : other = b
  · rw [heq]
    exact ⟨hpos, hlt⟩
  · have hnbits := hfreed.freemap.nbits
    exact hranged other (by omega) ((hfreed.freemap.rest other).mpr ⟨heq, hfree⟩)

/-- A block that is allocated and freed again leaves the free map as it was. -/
theorem Allocated.unspent {last : SfsFs} (h : Allocated s after b) (hfreed : Freed after last b)
    (hranged : Ranged last) : Unspent s last := by
  refine ⟨hranged, ?_, fun other ↦ ?_⟩
  · rw [← h.freemap.nbits, hfreed.freemap.nbits]
  · have hafter := h.freemap.rest other
    have hlast := hfreed.freemap.rest other
    by_cases heq : other = b
    · rw [heq]
      exact iff_of_true hfreed.freemap.free h.freemap.free
    · simp only [ne_eq, heq, not_false_eq_true, true_and] at hafter hlast
      rw [← hlast, hafter]

/-- Writing a block leaves the free map alone. -/
theorem Ranged.put (h : Ranged s) (b : ℕ) (data : Bytes) : Ranged (s.put b data) := h

theorem Owns.not_free (h : Owns s sin rest) (hb : b ∈ refs s sin) : ¬s.freemap.Free b :=
  fun hfree ↦ ((h.inuse b (h.pos_of_mem hb) (h.range b hb)).mp hfree).1 hb

/-! ## What one block costs -/

/-- The free blocks that it takes to add one block to a file. -/
def price (sin : SfsInode) : ℕ := if sin.indirect = 0 ∧ SFS_NDIRECT ≤ sin.blocks then 2 else 1

theorem le_capacity (h : sin.blocks ≤ MAX_BLOCKS) : sin.blocks ≤ capacity s sin :=
  le_min h (Nat.le_add_right ..)

theorem capacity_le (s : SfsFs) (sin : SfsInode) : capacity s sin ≤ MAX_BLOCKS := min_le_left ..

theorem lt_capacity_iff (h : Owns s sin rest) (hslot : sin.blocks < MAX_BLOCKS) :
    sin.blocks < capacity s sin ↔ price sin ≤ s.free := by
  have hdirect := h.blocks_le_of_indirect
  unfold capacity room price
  by_cases hindirect : sin.indirect = 0
  · have hle := hdirect hindirect
    simp only [hindirect, ne_eq, not_true_eq_false, false_or, true_and, lt_min_iff]
    split <;> split <;> omega
  · simp only [hindirect, ne_eq, not_false_eq_true, true_or, if_true, false_and, if_false,
      lt_min_iff]
    omega

/-- What the file gains the free map loses. -/
theorem capacity_push {sin' : SfsInode} (h : Owns s sin rest) (hcount : after.free + price sin = s.free)
    (hblocks : sin'.blocks = sin.blocks + 1)
    (hindirect : sin'.indirect ≠ 0 ↔ sin.indirect ≠ 0 ∨ SFS_NDIRECT ≤ sin.blocks) :
    capacity after sin' = capacity s sin := by
  have hdirect := h.blocks_le_of_indirect
  unfold capacity room
  unfold price at hcount
  simp only [hindirect, hblocks]
  congr 1
  by_cases hzero : sin.indirect = 0
  · have hle := hdirect hzero
    simp only [hzero, ne_eq, not_true_eq_false, false_or, true_and] at hcount ⊢
    split at hcount <;> split <;> split <;> omega
  · simp only [hzero, ne_eq, not_false_eq_true, true_or, if_true, false_and, if_false] at hcount ⊢
    omega

/-! ## Mapping one more block -/

/-- The allocation of the data block fails when no block is free; an entry block that was new is
then free again. -/
theorem sfsBmapFill_cases {ent k : ℕ} (h : Owns s { sin with indirect := ent } rest)
    (hranged : Ranged s) (hent : 0 < ent) (hk : k < SFS_BLK_NENTRY) (entp : ℕ) :
    (s.free = 0 ∧ ∃ after, sfsBmapFill s entp ent k = .ok (.error .noMem, entp, after) ∧
        Ranged after ∧ (ent = entp → after = s) ∧ (ent ≠ entp → Freed s after ent)) ∨
      ∃ ino after, sfsBmapFill s entp ent k = .ok (.ok ino, ent, after) ∧ Ranged after ∧
        after.free + 1 = s.free := by
  have hmem : ent ∈ refs s { sin with indirect := ent } := Owns.indirect_mem hent.ne'
  have hlt := h.range ent hmem
  rcases sfsBlockAlloc_cases h.geometry hranged with
    ⟨hfree, hcall⟩ | ⟨ino, s1, hcall, halloc, hranged1, hcount⟩
  · rcases sfsBlockFree_eq h.geometry hranged hent hlt (h.not_free hmem) with
      ⟨after, hfreeCall, hfreed, hafter, -⟩
    refine Or.inl ⟨hfree, ?_⟩
    rw [sfsBmapFill, hcall, Outcome.ok_bind]
    dsimp only
    unfold sfsBmapCleanup
    by_cases heq : ent = entp
    · rw [if_neg (not_not.mpr heq)]
      exact ⟨s, rfl, hranged, fun _ ↦ rfl, fun hne ↦ absurd heq hne⟩
    · rw [if_pos heq, hfreeCall]
      exact ⟨after, rfl, hafter, fun hent ↦ absurd hent heq, fun _ ↦ hfreed⟩
  · have hoffset : k * 4 < SFS_BLKSIZE ∧ k * 4 + 4 ≤ SFS_BLKSIZE := by
      unfold SFS_BLK_NENTRY at hk
      unfold SFS_BLKSIZE
      omega
    refine Or.inr ⟨ino, s1.put ent (overlay (s1.dev.block ent) (bytes32 ino) 4 (k * 4)), ?_,
      hranged1, hcount⟩
    rw [sfsBmapFill, hcall, Outcome.ok_bind]
    dsimp only
    rw [sfsWbuf_eq halloc.geometry hent (halloc.blocks ▸ hlt) hoffset.1 hoffset.2]
    rfl

theorem sfsBmapGetSubNolock_cases (h : Owns s sin rest) (hranged : Ranged s)
    (hlow : SFS_NDIRECT ≤ sin.blocks) (hslot : sin.blocks < MAX_BLOCKS) :
    (s.free < price sin ∧ ∃ after,
        sfsBmapGetSubNolock s sin.indirect (sin.blocks - SFS_NDIRECT) true =
          .ok (.error .noMem, sin.indirect, after) ∧ Unspent s after) ∨
      ∃ ino ent after, sfsBmapGetSubNolock s sin.indirect (sin.blocks - SFS_NDIRECT) true =
          .ok (.ok ino, ent, after) ∧ ent ≠ 0 ∧ (ent = sin.indirect ∨ sin.indirect = 0) ∧ Ranged after ∧
          after.free + price sin = s.free := by
  have hindex : sin.blocks - SFS_NDIRECT < SFS_BLK_NENTRY := by
    unfold MAX_BLOCKS at hslot
    omega
  rw [sfsBmapGetSubNolock, Outcome.require_of_true hindex, Outcome.ok_bind, price]
  by_cases hindirect : sin.indirect = 0
  · simp only [hindirect, hlow, ne_eq, not_true_eq_false, if_false, and_self, if_true]
    rcases sfsBlockAlloc_cases h.geometry hranged with
      ⟨hfree, hcall⟩ | ⟨ent, s1, hcall, halloc, hranged1, hcount⟩
    · rw [hcall]
      exact Or.inl ⟨by omega, s, rfl, Unspent.refl hranged⟩
    · have hent := h.not_mem_of_free halloc.pos halloc.lt halloc.freemap.free
      have howns := (h.alloc halloc).enterIndirect hent.2 halloc.pos (halloc.blocks ▸ halloc.lt)
        halloc.zero hindirect
      rw [hcall, Outcome.ok_bind]
      dsimp only
      rcases sfsBmapFill_cases howns hranged1 halloc.pos hindex 0 with
        ⟨hfree, after, hfill, hafter, -, hfreed⟩ | ⟨ino, after, hfill, hafter, hfree⟩
      · exact Or.inl ⟨by omega, after, hfill, halloc.unspent (hfreed halloc.pos.ne') hafter⟩
      · exact Or.inr ⟨ino, ent, after, hfill, halloc.pos.ne', Or.inr trivial, hafter, by omega⟩
  · have hent := Nat.pos_of_ne_zero hindirect
    have hlt := h.range _ (Owns.indirect_mem hindirect)
    have hoffset : (sin.blocks - SFS_NDIRECT) * 4 < SFS_BLKSIZE ∧
        (sin.blocks - SFS_NDIRECT) * 4 + 4 ≤ SFS_BLKSIZE := by
      unfold SFS_BLK_NENTRY at hindex
      unfold SFS_BLKSIZE
      omega
    -- the entry after the last block is zero
    have hzero : word32 (fun index ↦ s.dev.block sin.indirect
        ((sin.blocks - SFS_NDIRECT) * 4 + index)) = 0 := by
      have hunmapped := h.unmapped sin.blocks le_rfl hslot
      rwa [blockAt, if_neg (Nat.not_lt.mpr hlow), if_neg hindirect] at hunmapped
    rw [if_pos hindirect, sfsRbuf_eq h.geometry hent hlt hoffset.1 hoffset.2, Outcome.ok_bind]
    simp only [hzero, hindirect, ne_eq, not_true_eq_false, or_self, if_false, false_and]
    rcases sfsBmapFill_cases h hranged hent hindex sin.indirect with
      ⟨hfree, after, hfill, -, hsame, -⟩ | ⟨ino, after, hfill, hafter, hfree⟩
    · rw [hsame rfl] at hfill
      exact Or.inl ⟨by omega, s, hfill, Unspent.refl hranged⟩
    · exact Or.inr ⟨ino, sin.indirect, after, hfill, hindirect, Or.inl rfl, hafter, hfree⟩

theorem sfsBmapGetOut_eq (hgeometry : Geometry s) (hpos : 0 < b) (hlt : b < s.blocks)
    (hused : ¬s.freemap.Free b) : sfsBmapGetOut s sin b = .ok (.ok b, s, sin) := by
  rw [sfsBmapGetOut, if_neg hpos.ne', sfsBlockInuse_eq hgeometry hpos hlt, Outcome.ok_bind,
    Outcome.require_of_true (by simpa using hused)]
  rfl

theorem sfsBmapGetNolock_cases (h : Owns s sin rest) (hranged : Ranged s)
    (hslot : sin.blocks < MAX_BLOCKS) :
    (s.free < price sin ∧ ∃ after, sfsBmapGetNolock s sin sin.blocks true =
        .ok (.error .noMem, after, sin) ∧ Unspent s after) ∨
      ∃ ino after sin', sfsBmapGetNolock s sin sin.blocks true = .ok (.ok ino, after, sin') ∧
        Ranged after ∧ after.free + price sin = s.free ∧
        (sin'.indirect ≠ 0 ↔ sin.indirect ≠ 0 ∨ SFS_NDIRECT ≤ sin.blocks) := by
  rw [sfsBmapGetNolock]
  by_cases hdirect : sin.blocks < SFS_NDIRECT
  · have hzero : sin.direct sin.blocks = 0 := by
      have hunmapped := h.unmapped sin.blocks le_rfl hslot
      rwa [blockAt, if_pos hdirect] at hunmapped
    have hprice : price sin = 1 := if_neg fun hmany ↦ absurd hmany.2 (by omega)
    simp only [if_pos hdirect, hzero, and_self, if_true, hprice]
    rcases sfsBlockAlloc_cases h.geometry hranged with
      ⟨hfree, hcall⟩ | ⟨ino, after, hcall, halloc, hafter, hcount⟩
    · rw [hcall]
      exact Or.inl ⟨by omega, s, rfl, Unspent.refl hranged⟩
    · have hused : ¬after.freemap.Free ino := fun hfree ↦
        ((halloc.freemap.rest ino).mp hfree).1 rfl
      rw [hcall, Outcome.ok_bind]
      dsimp only
      rw [sfsBmapGetOut_eq halloc.geometry halloc.pos (halloc.blocks ▸ halloc.lt) hused]
      refine Or.inr ⟨ino, after, _, rfl, hafter, hcount, ?_⟩
      rw [or_iff_left (by omega)]
  · have hlow := Nat.not_lt.mp hdirect
    have hindex : sin.blocks - SFS_NDIRECT < SFS_BLK_NENTRY := by
      unfold MAX_BLOCKS at hslot
      omega
    simp only [if_neg hdirect, if_pos hindex]
    rcases sfsBmapGetSubNolock_cases h hranged hlow hslot with
      ⟨hfree, after, hcall, hafter⟩ | ⟨ino, ent, after, hcall, hent, hold, hafter, hcount⟩
    · rw [hcall]
      exact Or.inl ⟨hfree, after, rfl, hafter⟩
    · -- the block is the file's, so the last check succeeds
      have hspec := sfsBmapGetSubNolock_spec h hlow _ hcall
      rcases hspec with ⟨howns, -, hat⟩
      have hmem : ino ∈ refs after { sin with indirect := ent, blocks := sin.blocks + 1 } := by
        rw [← hat]
        exact Owns.blockAt_mem (Nat.lt_succ_self _)
      have hout : ∀ sin' : SfsInode, sfsBmapGetOut after sin' ino = .ok (.ok ino, after, sin') :=
        fun _ ↦ sfsBmapGetOut_eq howns.geometry (howns.pos_of_mem hmem) (howns.range ino hmem)
          (howns.not_free hmem)
      rw [hcall, Outcome.ok_bind]
      dsimp only
      by_cases hsame : ent = sin.indirect
      · rw [if_neg (not_not.mpr hsame), hout]
        refine Or.inr ⟨ino, after, sin, rfl, hafter, hcount, ?_⟩
        rw [← hsame]
        exact iff_of_true hent (Or.inl hent)
      · have hzero : sin.indirect = 0 := hold.resolve_left hsame
        rw [if_pos hsame, Outcome.require_of_true hzero, Outcome.ok_bind, hout]
        exact Or.inr ⟨ino, after, _, rfl, hafter, hcount, iff_of_true hent (Or.inr hlow)⟩

/-! ## `sfs_bmap_load_nolock` -/

/-- A block that the block map has is found, whether or not one may be made. -/
theorem sfsBmapGetNolock_eq (hgeometry : Geometry s) (hmax : index < MAX_BLOCKS)
    (hat : blockAt s sin index ≠ 0) (hlt : blockAt s sin index < s.blocks)
    (hused : ¬s.freemap.Free (blockAt s sin index))
    (hindirect : SFS_NDIRECT ≤ index → sin.indirect < s.blocks) (create : Bool) :
    sfsBmapGetNolock s sin index create = .ok (.ok (blockAt s sin index), s, sin) := by
  have hout : sfsBmapGetOut s sin (blockAt s sin index) = _ :=
    sfsBmapGetOut_eq hgeometry (Nat.pos_of_ne_zero hat) hlt hused
  unfold sfsBmapGetNolock
  by_cases hdirect : index < SFS_NDIRECT
  · have hslot : blockAt s sin index = sin.direct index := if_pos hdirect
    have hnone : ¬(sin.direct index = 0 ∧ create = true) := fun hboth ↦ hat (hslot.trans hboth.1)
    rw [if_pos hdirect, if_neg hnone, ← hslot]
    exact hout
  · have hslot : index - SFS_NDIRECT < SFS_BLK_NENTRY := by
      unfold MAX_BLOCKS at hmax
      omega
    have hent : sin.indirect ≠ 0 := fun hzero ↦ hat (by simp [blockAt, hdirect, hzero])
    have hoffset : (index - SFS_NDIRECT) * 4 < SFS_BLKSIZE ∧
        (index - SFS_NDIRECT) * 4 + 4 ≤ SFS_BLKSIZE := by
      unfold SFS_BLK_NENTRY at hslot
      unfold SFS_BLKSIZE
      omega
    have hword : (word32 fun offset ↦
        s.dev.block sin.indirect ((index - SFS_NDIRECT) * 4 + offset)) = blockAt s sin index := by
      rw [blockAt, if_neg hdirect, if_neg hent, entry]
    have hsub : sfsBmapGetSubNolock s sin.indirect (index - SFS_NDIRECT) create =
        .ok (.ok (blockAt s sin index), sin.indirect, s) := by
      rw [sfsBmapGetSubNolock, Outcome.require_of_true hslot, Outcome.ok_bind, if_pos hent,
        sfsRbuf_eq hgeometry (Nat.pos_of_ne_zero hent) (hindirect (Nat.not_lt.mp hdirect))
          hoffset.1 hoffset.2, Outcome.ok_bind]
      dsimp only
      rw [hword, if_pos (Or.inl hat)]
      rfl
    rw [if_neg hdirect, if_pos hslot, hsub, Outcome.ok_bind]
    dsimp only
    rw [if_neg (not_not.mpr rfl)]
    exact hout

/-- A block that the file has is found, and nothing changes. -/
theorem sfsBmapLoadNolock_eq (h : Owns s sin rest) (hindex : index < sin.blocks) :
    sfsBmapLoadNolock s sin index = .ok (.ok (blockAt s sin index), s, sin) := by
  have hmem : blockAt s sin index ∈ refs s sin := Owns.blockAt_mem hindex
  have hpos := h.pos_of_mem hmem
  have hlt := h.range _ hmem
  have hused := h.not_free hmem
  have hget := sfsBmapGetNolock_eq h.geometry (hindex.trans_le h.blocks_le) hpos.ne' hlt hused
    (fun hlow ↦ h.range _ (Owns.indirect_mem fun hzero ↦
      Nat.not_lt.mpr hlow (hindex.trans_le (h.blocks_le_of_indirect hzero)))) false
  have hcreate : decide (index = sin.blocks) = false := decide_eq_false hindex.ne
  rw [sfsBmapLoadNolock, Outcome.require_of_true hindex.le, Outcome.ok_bind]
  simp only [hcreate]
  rw [hget, Outcome.ok_bind]
  dsimp only
  rw [sfsBlockInuse_eq h.geometry hpos hlt, Outcome.ok_bind,
    Outcome.require_of_true (by simpa using hused)]
  rfl

/-- The block after the last one is mapped when the file has room for it. -/
theorem sfsBmapLoadNolock_cases (h : Owns s sin rest) (hranged : Ranged s)
    (hslot : sin.blocks < MAX_BLOCKS) :
    (capacity s sin = sin.blocks ∧ ∃ after, sfsBmapLoadNolock s sin sin.blocks =
        .ok (.error .noMem, after, sin) ∧ Unspent s after) ∨
      (sin.blocks < capacity s sin ∧ ∃ ino after sin', sfsBmapLoadNolock s sin sin.blocks =
        .ok (.ok ino, after, sin') ∧ Ranged after ∧ sin'.blocks = sin.blocks + 1 ∧
          capacity after sin' = capacity s sin) := by
  have hlt := lt_capacity_iff h hslot
  have hge : sin.blocks ≤ capacity s sin := le_capacity hslot.le
  rw [sfsBmapLoadNolock, Outcome.require_of_true le_rfl, Outcome.ok_bind]
  simp only [decide_true]
  rcases sfsBmapGetNolock_cases h hranged hslot with
    ⟨hprice, after, hcall, hunspent⟩ | ⟨ino, after, sin', hcall, hafter, hcount, hindirect⟩
  · rw [hcall]
    exact Or.inl ⟨by omega, after, rfl, hunspent⟩
  · rcases sfsBmapGetNolock_spec_blocks h _ hcall with ⟨hblocks, howns, -, hat⟩
    have hmem : ino ∈ refs after { sin' with blocks := sin.blocks + 1 } := by
      rw [← hat]
      exact Owns.blockAt_mem (Nat.lt_succ_self _)
    have hused := howns.not_free hmem
    have hnext : uint32 (sin'.blocks + 1) = sin.blocks + 1 := by
      rw [hblocks]
      exact uint32_of_lt (Nat.lt_of_le_of_lt hslot (by decide))
    rw [hcall, Outcome.ok_bind]
    dsimp only
    rw [sfsBlockInuse_eq howns.geometry (howns.pos_of_mem hmem) (howns.range ino hmem),
      Outcome.ok_bind, Outcome.require_of_true (by simpa using hused), Outcome.ok_bind, hnext]
    exact Or.inr ⟨by omega, ino, after, _, rfl, hafter, rfl, capacity_push h hcount rfl hindirect⟩

/-- Beyond the block after the last one there is no block map. -/
theorem not_completes_sfsBmapLoadNolock (hindex : sin.blocks < index ∨
    index = sin.blocks ∧ MAX_BLOCKS ≤ sin.blocks) : ¬Completes (sfsBmapLoadNolock s sin index) := by
  rw [sfsBmapLoadNolock]
  rcases hindex with hgt | ⟨rfl, hmax⟩
  · rw [Outcome.require_of_false (Nat.not_le.mpr hgt)]
    exact Completes.not_error _
  · have hdirect : ¬sin.blocks < SFS_NDIRECT := by
      unfold MAX_BLOCKS at hmax
      omega
    have hslot : ¬sin.blocks - SFS_NDIRECT < SFS_BLK_NENTRY := by
      unfold MAX_BLOCKS at hmax
      omega
    simp only [Outcome.require_of_true le_rfl, Outcome.ok_bind, sfsBmapGetNolock, if_neg hdirect,
      if_neg hslot, Outcome.error_bind]
    exact Completes.not_error _

/-! ## Changing the length -/

/-- A file of `stop` blocks can be asked for: they fit in the block map, or the free blocks run out
before its end. -/
def Fits (s : SfsFs) (sin : SfsInode) (stop : ℕ) : Prop :=
  stop ≤ MAX_BLOCKS ∨ capacity s sin < MAX_BLOCKS

instance (s : SfsFs) (sin : SfsInode) (stop : ℕ) : Decidable (Fits s sin stop) :=
  inferInstanceAs (Decidable (_ ∨ _))

/-- After blocks were added to a file. -/
structure Grown (s : SfsFs) (sin : SfsInode) (rest : ℕ → Prop) (stop : ℕ) (after : SfsFs)
    (sin' : SfsInode) : Prop where
  owns : Owns after sin' rest
  ranged : Ranged after
  grows : Extends s sin after sin' rest
  blocks : sin'.blocks = stop
  capacity_eq : capacity after sin' = capacity s sin

theorem Grown.refl (h : Owns s sin rest) (hranged : Ranged s) : Grown s sin rest sin.blocks s sin :=
  ⟨h, hranged, Extends.refl .., rfl, rfl⟩

theorem Grown.trans {last : SfsFs} {sin' sin'' : SfsInode} {middle stop : ℕ}
    (h : Grown s sin rest middle after sin') (hnext : Grown after sin' rest stop last sin'') :
    Grown s sin rest stop last sin'' :=
  ⟨hnext.owns, hnext.ranged, h.grows.trans hnext.grows, hnext.blocks,
    hnext.capacity_eq.trans h.capacity_eq⟩

/-- `sfs_bmap_load_nolock` at the end of a file. -/
theorem grown_sfsBmapLoadNolock (h : Owns s sin rest) (hranged : Ranged s)
    (hslot : sin.blocks < MAX_BLOCKS) :
    (capacity s sin = sin.blocks ∧ ∃ after, sfsBmapLoadNolock s sin sin.blocks =
        .ok (.error .noMem, after, sin) ∧ Unspent s after ∧ Grown s sin rest sin.blocks after sin) ∨
      (sin.blocks < capacity s sin ∧ ∃ after sin', sfsBmapLoadNolock s sin sin.blocks =
        .ok (.ok (blockAt after sin' sin.blocks), after, sin') ∧
          Grown s sin rest (sin.blocks + 1) after sin') := by
  rcases sfsBmapLoadNolock_cases h hranged hslot with
    ⟨hfull, after, hcall, hunspent⟩ | ⟨hroom, ino, after, sin', hcall, hafter, hblocks, hcapacity⟩
  · rcases sfsBmapLoadNolock_spec h _ _ hcall with ⟨howns, hextends, -⟩
    exact Or.inl ⟨hfull, after, hcall, hunspent,
      howns, hunspent.ranged, hextends, rfl, hunspent.capacity_eq sin⟩
  · rcases sfsBmapLoadNolock_spec h _ _ hcall with ⟨howns, hextends, hat⟩
    rw [← (hat ino rfl).2] at hcall
    exact Or.inr ⟨hroom, after, sin', hcall, howns, hafter, hextends, hblocks, hcapacity⟩

/-- The loop that adds blocks gets as far as the capacity; a failure at once changes nothing. -/
theorem sfsTruncfileGrow_cases (h : Owns s sin rest) (hranged : Ranged s) {count : ℕ}
    (hfits : Fits s sin (sin.blocks + count)) :
    (sin.blocks + count ≤ capacity s sin ∧ ∃ after sin',
        sfsTruncfileGrow sin.blocks count s sin = .ok (.ok (), after, sin') ∧
          Grown s sin rest (sin.blocks + count) after sin') ∨
      (capacity s sin < sin.blocks + count ∧ ∃ after sin',
        sfsTruncfileGrow sin.blocks count s sin = .ok (.error .noMem, after, sin') ∧
          Grown s sin rest (capacity s sin) after sin' ∧
          (sin.blocks = capacity s sin → sin' = sin ∧ Unspent s after)) := by
  have hle := le_capacity (s := s) h.blocks_le
  induction count generalizing s sin with
  | zero => exact Or.inl ⟨hle, s, sin, rfl, Grown.refl h hranged⟩
  | succ count ih =>
    have hslot : sin.blocks < MAX_BLOCKS := by
      rcases hfits with hfits | hfits <;> omega
    rw [sfsTruncfileGrow]
    rcases grown_sfsBmapLoadNolock h hranged hslot with
      ⟨hfull, after, hcall, hunspent, hgrown⟩ | ⟨hroom, after, sin', hcall, hgrown⟩
    · rw [hcall]
      exact Or.inr ⟨by omega, after, sin, rfl, hfull ▸ hgrown, fun _ ↦ ⟨rfl, hunspent⟩⟩
    · have hcount : sin'.blocks + count = sin.blocks + (count + 1) := by
        rw [hgrown.blocks]
        omega
      have hmax := capacity_le s sin
      have hnext := ih hgrown.owns hgrown.ranged
        (by rw [Fits, hcount, hgrown.capacity_eq]; exact hfits) (le_capacity hgrown.owns.blocks_le)
      rw [hcall, Outcome.ok_bind]
      dsimp only
      rw [← hgrown.blocks]
      rw [hcount, hgrown.capacity_eq] at hnext
      rcases hnext with ⟨hreach, last, sin'', hlast, hmore⟩ | ⟨hshort, last, sin'', hlast, hmore, -⟩
      · exact Or.inl ⟨hreach, last, sin'', hlast, hgrown.trans hmore⟩
      · exact Or.inr ⟨hshort, last, sin'', hlast, hgrown.trans hmore, fun heq ↦ absurd heq hroom.ne⟩

/-- With blocks enough, the loop runs out of the block map. -/
theorem not_completes_sfsTruncfileGrow (h : Owns s sin rest) (hranged : Ranged s) {count : ℕ}
    (hfits : ¬Fits s sin (sin.blocks + count)) :
    ¬Completes (sfsTruncfileGrow sin.blocks count s sin) := by
  have hle := h.blocks_le
  have hmax := capacity_le s sin
  rw [Fits, not_or, not_le, not_lt] at hfits
  induction count generalizing s sin with
  | zero => omega
  | succ count ih =>
    rw [sfsTruncfileGrow]
    by_cases hslot : sin.blocks < MAX_BLOCKS
    · rcases grown_sfsBmapLoadNolock h hranged hslot with
        ⟨hfull, -⟩ | ⟨hroom, after, sin', hcall, hgrown⟩
      · omega
      · have hblocks := hgrown.blocks
        have hcapacity := hgrown.capacity_eq
        rw [hcall, Outcome.ok_bind]
        dsimp only
        rw [← hblocks]
        exact ih hgrown.owns hgrown.ranged (by omega) hgrown.owns.blocks_le (capacity_le ..)
    · intro hcompletes
      exact not_completes_sfsBmapLoadNolock (Or.inr ⟨rfl, Nat.not_lt.mp hslot⟩) hcompletes.of_bind

/-- The last block is given back. -/
theorem sfsBmapFreeNolock_cases (h : Owns s sin rest) (hranged : Ranged s) {last : ℕ}
    (hlast : sin.blocks = last + 1) : ∃ after sin',
      sfsBmapFreeNolock s sin last = .ok (.ok (), after, sin') ∧ Ranged after ∧
        sin'.size = sin.size ∧ sin'.type = sin.type := by
  have hmem : blockAt s sin last ∈ refs s sin := Owns.blockAt_mem (by omega)
  have hpos := h.pos_of_mem hmem
  have hlt := h.range _ hmem
  have hused := h.not_free hmem
  have hle := h.blocks_le
  rw [sfsBmapFreeNolock]
  by_cases hdirect : last < SFS_NDIRECT
  · have hat : blockAt s sin last = sin.direct last := if_pos hdirect
    rcases sfsBlockFree_eq h.geometry hranged hpos hlt hused with ⟨after, hcall, -, hafter, -⟩
    rw [hat] at hpos hcall
    rw [if_pos hdirect, if_pos hpos.ne', hcall]
    exact ⟨after, _, rfl, hafter, rfl, rfl⟩
  · have hslot : last - SFS_NDIRECT < SFS_BLK_NENTRY := by
      unfold MAX_BLOCKS at hle
      omega
    have hindirect : sin.indirect ≠ 0 := fun hzero ↦ hpos.ne' (by simp [blockAt, hdirect, hzero])
    have hoffset : (last - SFS_NDIRECT) * 4 < SFS_BLKSIZE ∧
        (last - SFS_NDIRECT) * 4 + 4 ≤ SFS_BLKSIZE := by
      unfold SFS_BLK_NENTRY at hslot
      unfold SFS_BLKSIZE
      omega
    have hat : blockAt s sin last = word32 fun offset ↦
        s.dev.block sin.indirect ((last - SFS_NDIRECT) * 4 + offset) := by
      rw [blockAt, if_neg hdirect, if_neg hindirect, entry]
    have hent := Nat.pos_of_ne_zero hindirect
    have hentlt := h.range _ (Owns.indirect_mem hindirect)
    have hentused := h.not_free (Owns.indirect_mem hindirect)
    rcases sfsBlockFree_eq (h.geometry.put sin.indirect (overlay (s.dev.block sin.indirect)
      (bytes32 0) 4 ((last - SFS_NDIRECT) * 4))) hranged hpos hlt hused with
      ⟨after, hcall, -, hafter, -⟩
    have hsub : sfsBmapFreeSubNolock s sin.indirect (last - SFS_NDIRECT) = .ok (.ok (), after) := by
      rw [hat] at hpos hcall
      rw [sfsBmapFreeSubNolock, sfsBlockInuse_eq h.geometry hent hentlt, Outcome.ok_bind,
        Outcome.require_of_true (by simpa using hentused), Outcome.ok_bind,
        Outcome.require_of_true hslot, Outcome.ok_bind,
        sfsRbuf_eq h.geometry hent hentlt hoffset.1 hoffset.2, Outcome.ok_bind]
      dsimp only
      rw [if_pos hpos.ne', sfsWbuf_eq h.geometry hent hentlt hoffset.1 hoffset.2, Outcome.ok_bind]
      dsimp only
      rw [hcall]
      rfl
    rw [if_neg hdirect, if_pos ⟨hslot, hindirect⟩, hsub]
    exact ⟨after, sin, rfl, hafter, rfl, rfl⟩

/-- After blocks were dropped from a file. -/
structure Cut (s : SfsFs) (sin : SfsInode) (rest : ℕ → Prop) (stop : ℕ) (after : SfsFs)
    (sin' : SfsInode) : Prop where
  owns : Owns after sin' rest
  ranged : Ranged after
  keeps : Keeps s after rest
  blocks : sin'.blocks = stop
  type : sin'.type = sin.type

theorem sfsBmapTruncateNolock_cut (h : Owns s sin rest) (hranged : Ranged s) {last : ℕ}
    (hlast : sin.blocks = last + 1) : ∃ after sin',
      sfsBmapTruncateNolock s sin = .ok (.ok (), after, sin') ∧ Cut s sin rest last after sin' := by
  rcases sfsBmapFreeNolock_cases h hranged hlast with ⟨after, sin1, hcall, hafter, -, htype⟩
  have hblocks := (sfsBmapFreeNolock_spec h hlast _ hcall).2.1
  have htruncate : sfsBmapTruncateNolock s sin =
      .ok (.ok (), after, { sin1 with blocks := sin1.blocks - 1, dirty := true }) := by
    rw [sfsBmapTruncateNolock, Outcome.require_of_true (by omega), Outcome.ok_bind, hlast,
      Nat.add_sub_cancel, hcall]
    rfl
  rcases sfsBmapTruncateNolock_spec h _ htruncate with ⟨-, howns, hkeeps⟩
  refine ⟨after, _, htruncate, howns, hafter, hkeeps, ?_, htype⟩
  dsimp only at hblocks ⊢
  omega

theorem sfsTruncfileShrink_cut (h : Owns s sin rest) (hranged : Ranged s) {count stop : ℕ}
    (hcount : sin.blocks = stop + count) : ∃ after sin',
      sfsTruncfileShrink count s sin = .ok (.ok (), after, sin') ∧
        Cut s sin rest stop after sin' := by
  induction count generalizing s sin with
  | zero => exact ⟨s, sin, rfl, h, hranged, Keeps.refl s rest, hcount, rfl⟩
  | succ count ih =>
    have hlast : sin.blocks = stop + count + 1 := hcount
    rcases sfsBmapTruncateNolock_cut h hranged hlast with
      ⟨after, sin', hcall, hcut⟩
    rcases ih hcut.owns hcut.ranged hcut.blocks with ⟨last, sin'', hlast, hmore⟩
    refine ⟨last, sin'', ?_, hmore.owns, hmore.ranged, hcut.keeps.trans hmore.keeps, hmore.blocks,
      hmore.type.trans hcut.type⟩
    rw [sfsTruncfileShrink, hcall]
    exact hlast

end Ucore.Fs
