import Mathlib.Order.Interval.Finset.Nat
import Ucore.Fs.SfsReach
import Ucore.Fs.SfsRun

/-!
# Which calls on a file come back

`sfs_truncfile` and `sfs_tryseek` described by the capacity of the file, and the three calls that
the file layer makes on an inode as one kind of request. A file system that is consistent and has no
free block outside of its range stays so.
-/

namespace Ucore.Fs

open Library

/-! ## `sfs_truncfile` -/

/-- The lengths that `sfs_truncfile` accepts. -/
def Accepted (len : ℤ) : Prop := 0 ≤ len ∧ len ≤ SFS_MAX_FILE_SIZE

/-- The file has the length that was asked for, and the blocks for it. -/
structure Resized (s : SfsFs) (sin : SfsInode) (rest : ℕ → Prop) (len : ℕ) (after : SfsFs)
    (sin' : SfsInode) : Prop where
  owns : Owns after sin' rest
  ranged : Ranged after
  keeps : Keeps s after rest
  blocks : sin'.blocks = blocksFor len
  size : sin'.size = len
  type : sin'.type = sin.type

section Truncfile

variable {s : SfsFs} {sin : SfsInode} {rest : ℕ → Prop} {len : ℤ}

theorem roundupBlocks_eq (h : Accepted len) : roundupBlocks len.toNat = blocksFor len.toNat := by
  apply uint32_of_lt
  rcases h with ⟨hpos, hmax⟩
  unfold SFS_MAX_FILE_SIZE at hmax
  unfold SFS_BLKSIZE
  omega

theorem sfsTruncfile_inval (h : ¬Accepted len) :
    sfsTruncfile s sin len = .ok (.error .inval, s, sin) := by
  have hlen : len < 0 ∨ (SFS_MAX_FILE_SIZE : ℤ) < len := by
    unfold Accepted at h
    omega
  rw [sfsTruncfile, if_pos hlen]
  rfl

/-- The case without a change of length, with its assertion. -/
theorem sfsTruncfile_same (h : Accepted len) (hsize : sin.size = len.toNat) :
    sfsTruncfile s sin len = (do
      Outcome.require (blocksFor len.toNat = sin.blocks)
      return (.ok (), s, sin)) := by
  have hlen : ¬(len < 0 ∨ (SFS_MAX_FILE_SIZE : ℤ) < len) := by
    unfold Accepted at h
    omega
  simp only [sfsTruncfile, if_neg hlen, hsize, if_true, roundupBlocks_eq h]

theorem sfsTruncfile_ne (h : Accepted len) (hsize : sin.size ≠ len.toNat) :
    sfsTruncfile s sin len = (do
      match ← sfsTruncfileResize s sin sin.blocks (blocksFor len.toNat) with
      | (.error code, s, sin) => return (.error code, s, sin)
      | (.ok (), s, sin) =>
        Outcome.require (sin.blocks = blocksFor len.toNat)
        return (.ok (), s, { sin with size := uint32 len.toNat, dirty := true })) := by
  have hlen : ¬(len < 0 ∨ (SFS_MAX_FILE_SIZE : ℤ) < len) := by
    unfold Accepted at h
    omega
  rw [sfsTruncfile, if_neg hlen, ← roundupBlocks_eq h]
  exact if_neg hsize

/-- With room for the new length, the file gets it. -/
theorem sfsTruncfile_resized (howns : Owns s sin rest) (hranged : Ranged s) (h : Accepted len)
    (hsize : sin.size ≠ len.toNat) (hroom : blocksFor len.toNat ≤ capacity s sin) :
    ∃ after sin', sfsTruncfile s sin len = .ok (.ok (), after, sin') ∧
      Resized s sin rest len.toNat after sin' := by
  have hfits : Fits s sin (blocksFor len.toNat) := Or.inl (hroom.trans (capacity_le s sin))
  have hlt : uint32 len.toNat = len.toNat := by
    apply uint32_of_lt
    have hmax := h.2
    unfold SFS_MAX_FILE_SIZE at hmax
    omega
  rw [sfsTruncfile_ne h hsize, sfsTruncfileResize]
  by_cases hgrow : sin.blocks < blocksFor len.toNat
  · have hstop : sin.blocks + (blocksFor len.toNat - sin.blocks) = blocksFor len.toNat :=
      Nat.add_sub_cancel' hgrow.le
    have hcall := sfsTruncfileGrow_cases howns hranged (by rwa [hstop])
    rw [hstop] at hcall
    rcases hcall with ⟨-, after, sin', hcall, hgrown⟩ | ⟨hshort, -⟩
    · rw [if_pos hgrow, hcall, Outcome.ok_bind]
      dsimp only
      rw [Outcome.require_of_true hgrown.blocks, hlt]
      exact ⟨after, _, rfl, hgrown.owns.of_fields rfl rfl rfl, hgrown.ranged, hgrown.grows.keeps,
        hgrown.blocks, rfl, hgrown.grows.type⟩
    · exact absurd hroom (Nat.not_le.mpr hshort)
  · rcases sfsTruncfileShrink_cut howns hranged (Nat.add_sub_cancel' (Nat.not_lt.mp hgrow)).symm with
      ⟨after, sin', hcall, hcut⟩
    rw [if_neg hgrow, hcall, Outcome.ok_bind]
    dsimp only
    rw [Outcome.require_of_true hcut.blocks, hlt]
    exact ⟨after, _, rfl, hcut.owns.of_fields rfl rfl rfl, hcut.ranged, hcut.keeps, hcut.blocks,
      rfl, hcut.type⟩

/-- Without room the call fails, and the blocks that it could get stay with the file. -/
theorem sfsTruncfile_short (howns : Owns s sin rest) (hranged : Ranged s) (h : Accepted len)
    (hsize : sin.size ≠ len.toNat) (hshort : capacity s sin < blocksFor len.toNat)
    (hslot : capacity s sin < MAX_BLOCKS) :
    ∃ after sin', sfsTruncfile s sin len = .ok (.error .noMem, after, sin') ∧
      Grown s sin rest (capacity s sin) after sin' ∧
      (sin.blocks = capacity s sin → sin' = sin ∧ Unspent s after) := by
  have hle := le_capacity (s := s) howns.blocks_le
  have hgrow : sin.blocks < blocksFor len.toNat := hle.trans_lt hshort
  have hstop : sin.blocks + (blocksFor len.toNat - sin.blocks) = blocksFor len.toNat :=
    Nat.add_sub_cancel' hgrow.le
  have hfits : Fits s sin (sin.blocks + (blocksFor len.toNat - sin.blocks)) := Or.inr hslot
  have hcall := sfsTruncfileGrow_cases howns hranged hfits
  rw [hstop] at hcall
  rcases hcall with ⟨hroom, -⟩ | ⟨-, after, sin', hcall, hgrown, hsame⟩
  · exact absurd hroom (Nat.not_le.mpr hshort)
  · rw [sfsTruncfile_ne h hsize, sfsTruncfileResize, if_pos hgrow, hcall]
    exact ⟨after, sin', rfl, hgrown, hsame⟩

/-- With room for more blocks than a block map can hold, the call does not come back. -/
theorem not_completes_sfsTruncfile (howns : Owns s sin rest) (hranged : Ranged s) (h : Accepted len)
    (hsize : sin.size ≠ len.toNat) (hfits : ¬Fits s sin (blocksFor len.toNat)) :
    ¬Completes (sfsTruncfile s sin len) := by
  have hle := howns.blocks_le
  have hgrow : sin.blocks < blocksFor len.toNat := by
    rw [Fits] at hfits
    omega
  have hstop : sin.blocks + (blocksFor len.toNat - sin.blocks) = blocksFor len.toNat :=
    Nat.add_sub_cancel' hgrow.le
  rw [sfsTruncfile_ne h hsize, sfsTruncfileResize, if_pos hgrow]
  intro hcompletes
  exact not_completes_sfsTruncfileGrow howns hranged (by rwa [hstop]) hcompletes.of_bind

end Truncfile

/-! ## Requests -/

/-- What the file layer asks of the inode of a file. -/
inductive Request where
  | seek (pos : ℤ)
  | truncate (len : ℤ)
  | transfer (memory : Bytes) (buf : ℕ) (offset : ℤ) (len : ℕ) (write : Bool)

def Request.call (s : SfsFs) (sin : SfsInode) : Request → Outcome (Ret Unit × SfsFs × SfsInode)
  | .seek pos => sfsTryseek s sin pos
  | .truncate len => sfsTruncfile s sin len
  | .transfer memory buf offset len write => do
    let (ret, io) ← sfsIoNolock s sin memory buf offset len write
    return (ret, io.fs, io.sin)

/-- A change of length that the block map can follow, or that runs out of free blocks first. -/
def Resizable (s : SfsFs) (sin : SfsInode) (len : ℤ) : Prop :=
  Accepted len → if sin.size = len.toNat then blocksFor len.toNat = sin.blocks
    else Fits s sin (blocksFor len.toNat)

/-- The request stays inside of the block map. -/
def Addressable (s : SfsFs) (sin : SfsInode) : Request → Prop
  | .seek pos => 0 ≤ pos → pos < SFS_MAX_FILE_SIZE → (sin.size : ℤ) < pos →
      Fits s sin (blocksFor pos.toNat)
  | .truncate len => Resizable s sin len
  | .transfer _ _ offset len write => ∀ endpos, Moves sin offset len write endpos →
      offset.toNat / SFS_BLKSIZE ≤ sin.blocks ∧ Fits s sin (blocksFor endpos)

section Request

variable {s : SfsFs} {sin : SfsInode} {rest : ℕ → Prop}

theorem completes_sfsTruncfile_iff (h : Owns s sin rest) (hranged : Ranged s) (len : ℤ) :
    Completes (sfsTruncfile s sin len) ↔ Resizable s sin len := by
  unfold Resizable
  by_cases haccepted : Accepted len
  · rw [imp_iff_right haccepted]
    by_cases hsize : sin.size = len.toNat
    · rw [sfsTruncfile_same haccepted hsize, if_pos hsize]
      constructor
      · intro hcompletes
        by_contra hne
        rw [Outcome.require_of_false hne] at hcompletes
        exact Completes.not_error _ hcompletes
      · intro heq
        exact Completes.require heq (Completes.ok _)
    · rw [if_neg hsize]
      constructor
      · intro hcompletes
        by_contra hfits
        exact not_completes_sfsTruncfile h hranged haccepted hsize hfits hcompletes
      · intro hfits
        have hmax := capacity_le s sin
        by_cases hroom : blocksFor len.toNat ≤ capacity s sin
        · rcases sfsTruncfile_resized h hranged haccepted hsize hroom with ⟨after, sin', hcall, -⟩
          exact ⟨_, hcall⟩
        · have hslot : capacity s sin < MAX_BLOCKS := by
            rcases hfits with hfits | hfits <;> omega
          rcases sfsTruncfile_short h hranged haccepted hsize (Nat.not_le.mp hroom) hslot with
            ⟨after, sin', hcall, -⟩
          exact ⟨_, hcall⟩
  · rw [sfsTruncfile_inval haccepted]
    exact iff_of_true (Completes.ok _) fun hlen ↦ absurd hlen haccepted

theorem completes_sfsTryseek_iff (h : Owns s sin rest) (hranged : Ranged s) (pos : ℤ) :
    Completes (sfsTryseek s sin pos) ↔ Addressable s sin (.seek pos) := by
  unfold sfsTryseek Addressable
  by_cases hvalid : pos < 0 ∨ (SFS_MAX_FILE_SIZE : ℤ) ≤ pos
  · rw [if_pos hvalid]
    exact iff_of_true (Completes.ok _) fun hlow hhigh ↦ absurd hvalid (by omega)
  · rw [if_neg hvalid]
    by_cases hmore : (sin.size : ℤ) < pos
    · have haccepted : Accepted pos := ⟨by omega, by omega⟩
      have hsize : sin.size ≠ pos.toNat := by omega
      rw [if_pos hmore, completes_sfsTruncfile_iff h hranged, Resizable, imp_iff_right haccepted,
        if_neg hsize]
      exact ⟨fun hfits _ _ _ ↦ hfits, fun hfits ↦ hfits (by omega) (by omega) hmore⟩
    · rw [if_neg hmore]
      exact iff_of_true (Completes.ok _) fun _ _ hlt ↦ absurd hlt hmore

theorem completes_sfsIoNolock_iff (h : Owns s sin rest) (hranged : Ranged s)
    (htype : sin.type ≠ SFS_TYPE_DIR) (memory : Bytes) (buf : ℕ) (offset : ℤ) (len : ℕ)
    (write : Bool) : Completes (sfsIoNolock s sin memory buf offset len write) ↔
      Addressable s sin (.transfer memory buf offset len write) := by
  unfold Addressable
  constructor
  · intro hcompletes endpos hmoves
    by_contra hbeyond
    exact not_completes_sfsIoNolock h hranged hmoves hbeyond hcompletes
  · intro haddressable
    by_cases hnone : ∃ endpos, Moves sin offset len write endpos
    · rcases hnone with ⟨endpos, hmoves⟩
      rcases haddressable endpos hmoves with ⟨hfirst, hfits⟩
      rcases sfsIoNolock_written h hranged htype hmoves hfirst hfits with ⟨ret, io, hcall, -⟩
      exact ⟨_, hcall⟩
    · rcases sfsIoNolock_none htype (not_exists.mp hnone) with ⟨ret, io, hcall, -⟩
      exact ⟨_, hcall⟩

theorem completes_call_iff (h : Owns s sin rest) (hranged : Ranged s)
    (htype : sin.type ≠ SFS_TYPE_DIR) (request : Request) :
    Completes (request.call s sin) ↔ Addressable s sin request := by
  cases request with
  | seek pos => exact completes_sfsTryseek_iff h hranged pos
  | truncate len => exact completes_sfsTruncfile_iff h hranged len
  | transfer memory buf offset len write =>
    rw [← completes_sfsIoNolock_iff h hranged htype]
    constructor
    · intro hcompletes
      exact hcompletes.of_bind
    · rintro ⟨⟨ret, io⟩, hcall⟩
      rw [Request.call, hcall]
      exact Completes.ok _

theorem ranged_sfsTruncfile (h : Owns s sin rest) (hranged : Ranged s) (len : ℤ) :
    Ensures (sfsTruncfile s sin len) fun result ↦ Ranged result.2.1 := by
  intro result hresult
  have hresizable := (completes_sfsTruncfile_iff h hranged len).mp ⟨result, hresult⟩
  have hmax := capacity_le s sin
  by_cases haccepted : Accepted len
  · by_cases hsize : sin.size = len.toNat
    · have hblocks := hresizable haccepted
      rw [if_pos hsize] at hblocks
      rw [sfsTruncfile_same haccepted hsize, Outcome.require_of_true hblocks] at hresult
      cases hresult
      exact hranged
    · have hfits := hresizable haccepted
      rw [if_neg hsize] at hfits
      by_cases hroom : blocksFor len.toNat ≤ capacity s sin
      · rcases sfsTruncfile_resized h hranged haccepted hsize hroom with ⟨after, sin', hcall, hafter⟩
        cases hcall.symm.trans hresult
        exact hafter.ranged
      · have hslot : capacity s sin < MAX_BLOCKS := by
          rcases hfits with hfits | hfits <;> omega
        rcases sfsTruncfile_short h hranged haccepted hsize (Nat.not_le.mp hroom) hslot with
          ⟨after, sin', hcall, hgrown, -⟩
        cases hcall.symm.trans hresult
        exact hgrown.ranged
  · rw [sfsTruncfile_inval haccepted] at hresult
    cases hresult
    exact hranged

theorem ranged_sfsTryseek (h : Owns s sin rest) (hranged : Ranged s) (pos : ℤ) :
    Ensures (sfsTryseek s sin pos) fun result ↦ Ranged result.2.1 := by
  unfold sfsTryseek
  split
  · exact Ensures.ok_iff.mpr hranged
  · split
    · exact ranged_sfsTruncfile h hranged pos
    · exact Ensures.ok_iff.mpr hranged

theorem ranged_sfsIoNolock (h : Owns s sin rest) (hranged : Ranged s) (memory : Bytes) (buf : ℕ)
    (offset : ℤ) (len : ℕ) (write : Bool) :
    Ensures (sfsIoNolock s sin memory buf offset len write) fun result ↦ Ranged result.2.fs := by
  intro result hresult
  have htype : sin.type ≠ SFS_TYPE_DIR := by
    rcases Outcome.bind_eq_ok.mp hresult with ⟨_, hrequire, -⟩
    exact Outcome.require_eq_ok.mp hrequire
  by_cases hnone : ∃ endpos, Moves sin offset len write endpos
  · rcases hnone with ⟨endpos, hmoves⟩
    rcases (completes_sfsIoNolock_iff h hranged htype memory buf offset len write).mp
      ⟨result, hresult⟩ endpos hmoves with ⟨hfirst, hfits⟩
    rcases sfsIoNolock_written h hranged htype hmoves hfirst hfits with ⟨ret, io, hcall, hio, -, -⟩
    cases hcall.symm.trans hresult
    exact hio.ranged
  · rcases sfsIoNolock_none htype (not_exists.mp hnone) with ⟨ret, io, hcall, hfs, -⟩
    cases hcall.symm.trans hresult
    exact hfs ▸ hranged

end Request

/-! ## Mounted file systems -/

/-- A consistent file system whose free map marks only its own blocks as free. -/
structure Intact (m : Mount) : Prop where
  consistent : Consistent m
  ranged : Ranged m.sfs

theorem Intact.step {m next : Mount} (h : Intact m) (hstep : Step m next) : Intact next := by
  have hconsistent := h.consistent.step hstep
  cases hstep with
  | io hino hcall =>
    exact ⟨hconsistent, ranged_sfsIoNolock (h.consistent.owns hino) h.ranged _ _ _ _ _ _ hcall⟩
  | tryseek hino hcall =>
    exact ⟨hconsistent, ranged_sfsTryseek (h.consistent.owns hino) h.ranged _ _ hcall⟩
  | truncfile hino hcall =>
    exact ⟨hconsistent, ranged_sfsTruncfile (h.consistent.owns hino) h.ranged _ _ hcall⟩

theorem intact_of_reachable {first m : Mount} (hfirst : Intact first)
    (h : Reachable (fun start ↦ start = first) Step m) : Intact m :=
  h.invariant (fun start (heq : start = first) ↦ heq ▸ hfirst)
    fun _ _ hintact hstep ↦ hintact.step hstep

/-- A request to an inode that was answered. -/
def Answers (m : Mount) (ino : ℕ) (request : Request) (ret : Ret Unit) (next : Mount) : Prop :=
  ∃ sfs sin, request.call m.sfs (m.inode ino) = .ok (ret, sfs, sin) ∧ next = m.set ino sfs sin

theorem Answers.step {m next : Mount} {ino : ℕ} {request : Request} {ret : Ret Unit}
    (hino : ino ∈ m.inos) (h : Answers m ino request ret next) : Step m next := by
  rcases h with ⟨sfs, sin, hcall, rfl⟩
  cases request with
  | seek pos => exact .tryseek hino hcall
  | truncate len => exact .truncfile hino hcall
  | transfer memory buf offset len write =>
    rcases Outcome.bind_eq_ok.mp hcall with ⟨⟨ret, io⟩, hio, heq⟩
    cases heq
    exact .io hino hio

/-! ### An empty file on an empty disk -/

def emptyFile : SfsInode where
  size := 0
  type := SFS_TYPE_FILE
  blocks := 0
  direct := fun _ ↦ 0
  indirect := 0
  dirty := false

/-- Superblock, root, free map, one inode, and nothing else in use. -/
def emptySfs (blocks : ℕ) : SfsFs where
  blocks := blocks
  unusedBlocks := blocks - 4
  freemap := Bitmap.ofFree (SFS_BLKBITS / WORD_BITS) fun b ↦ decide (4 ≤ b ∧ b < blocks)
  superDirty := false
  dev := ⟨blocks, fun _ _ ↦ 0⟩

def emptyDisk (blocks : ℕ) : Mount := ⟨emptySfs blocks, [3], fun _ ↦ emptyFile⟩

section EmptyDisk

variable {blocks : ℕ}

theorem emptySfs_free (blocks b : ℕ) : (emptySfs blocks).freemap.Free b ↔ 4 ≤ b ∧ b < blocks := by
  simp [emptySfs, free_ofFree]

theorem emptySfs_nbits (blocks : ℕ) : (emptySfs blocks).freemap.nbits = SFS_BLKBITS := rfl

theorem emptySfs_freeCount (h : blocks ≤ SFS_BLKBITS) :
    (emptySfs blocks).freemap.freeCount = blocks - 4 := by
  have hfilter : (Finset.range (emptySfs blocks).freemap.nbits).filter (emptySfs blocks).freemap.Free =
      Finset.Ico 4 blocks := by
    ext b
    rw [Finset.mem_filter, Finset.mem_range, emptySfs_free, Finset.mem_Ico, emptySfs_nbits]
    omega
  rw [Bitmap.freeCount, hfilter, Nat.card_Ico]

theorem freemapBits_lt : SFS_BLKBITS / WORD_BITS * WORD_BITS < 2 ^ 32 := by
  unfold SFS_BLKBITS WORD_BITS
  omega

theorem covers_emptySfs (blocks : ℕ) : (emptySfs blocks).freemap.Covers := by
  have hcovers := covers_ofFree freemapBits_lt fun b ↦ decide (4 ≤ b ∧ b < blocks)
  exact hcovers

theorem geometry_emptySfs (h : blocks ≤ SFS_BLKBITS) : Geometry (emptySfs blocks) where
  covers := covers_emptySfs blocks
  blocks_le_nbits := by
    rw [emptySfs_nbits]
    exact h
  blocks_le_device := le_rfl
  blocks_le := h.trans (by decide)
  device_lt := h.trans_lt (by decide)
  unusedBlocks := (emptySfs_freeCount h).symm

theorem intact_emptyDisk (hlow : 4 ≤ blocks) (hhigh : blocks ≤ SFS_BLKBITS) :
    Intact (emptyDisk blocks) := by
  have hsmall : blocks ≤ 32768 := hhigh
  have hfreemap : sfsFreemapBlocks blocks = 1 := by
    unfold sfsFreemapBlocks SFS_BLKBITS
    omega
  have hzero : ∀ index, blockAt (emptySfs blocks) emptyFile index = 0 := by
    intro index
    simp [blockAt, emptyFile]
  have hrefs : ∀ ino, (emptyDisk blocks).refs ino = [] := fun _ ↦ rfl
  have hreserved : ∀ b, Reserved (emptySfs blocks) b ↔ b < 3 := by
    intro b
    have hblocks : (emptySfs blocks).blocks = blocks := rfl
    rw [Reserved, hblocks, hfreemap]
    unfold SFS_BLKN_SUPER SFS_BLKN_ROOT SFS_BLKN_FREEMAP
    omega
  constructor
  · constructor
    · exact geometry_emptySfs hhigh
    · exact fun _ _ ↦ Nat.zero_le _
    · exact fun _ _ index hindex ↦ absurd hindex (Nat.not_lt_zero _)
    · exact fun _ _ index _ _ ↦ hzero index
    · intro ino _
      rw [hrefs]
      exact List.nodup_nil
    · intro ino _ other _ _ b hb
      rw [hrefs] at hb
      exact absurd hb List.not_mem_nil
    · intro ino _ b hb
      rw [hrefs] at hb
      exact absurd hb List.not_mem_nil
    · intro b hpos hlt
      have hlt : b < blocks := hlt
      have hfree : (emptyDisk blocks).sfs.freemap.Free b ↔ 4 ≤ b ∧ b < blocks := emptySfs_free blocks b
      have hmem : b ∈ (emptyDisk blocks).inos ↔ b = 3 := List.mem_singleton
      have hown : ∀ ino ∈ (emptyDisk blocks).inos, b ∉ (emptyDisk blocks).refs ino := by
        intro ino _
        rw [hrefs]
        exact List.not_mem_nil
      rw [hfree, show Reserved (emptyDisk blocks).sfs b ↔ b < 3 from hreserved b, hmem]
      refine ⟨fun hb ↦ ⟨by omega, by omega, hown⟩, fun hb ↦ ?_⟩
      omega
  · intro b _ hfree
    have hb := (emptySfs_free blocks b).mp hfree
    exact ⟨by omega, hb.2⟩

theorem capacity_emptyDisk (h : blocks ≤ SFS_BLKBITS) : capacity (emptySfs blocks) emptyFile =
    min MAX_BLOCKS (if blocks - 4 ≤ SFS_NDIRECT then blocks - 4 else blocks - 4 - 1) := by
  have hfree : (emptySfs blocks).free = blocks - 4 := emptySfs_freeCount h
  unfold capacity room
  rw [hfree]
  simp [emptyFile]

end EmptyDisk

end Ucore.Fs
