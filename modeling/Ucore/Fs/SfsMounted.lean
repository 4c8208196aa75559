import Mathlib.Data.Nat.Count
import Mathlib.Order.Interval.Finset.Nat
import Ucore.Fs.SfsCapacity
import Ucore.Fs.SfsDir
import Ucore.Fs.SfsMount

/-!
# Mounting a device that is laid out well

The kernel rebuilds the free map word by word from whole blocks, so the number of bits is a multiple
of that of a block. When the bits of the device say that the blocks of an interval are free, so does
the free map in memory, and counting them gives the length of the interval.
-/

namespace Ucore.Fs

open Library

/-- A device with a file system of `count` blocks, of which those from `first` on are free. -/
structure Formatted (dev : Device) (count first : ℕ) : Prop where
  reserved : SFS_BLKN_FREEMAP + sfsFreemapBlocks count ≤ first
  first_le : first ≤ count
  count_le : count ≤ 2 ^ 20
  count_le_device : count ≤ dev.dBlocks
  device_lt : dev.dBlocks < 2 ^ 32
  magic : wordAt (dev.block SFS_BLKN_SUPER) 0 = SFS_MAGIC
  blocks : wordAt (dev.block SFS_BLKN_SUPER) 4 = count
  unusedBlocks : wordAt (dev.block SFS_BLKN_SUPER) 8 = count - first
  freemap : ∀ i < sfsFreemapBlocks count, ∀ w < SFS_BLKSIZE / 4, ∀ o < WORD_BITS,
    (BitVec.ofNat 32 (wordAt (dev.block (SFS_BLKN_FREEMAP + i)) (w * 4))).getLsbD o = true ↔
      first ≤ i * SFS_BLKBITS + w * WORD_BITS + o ∧ i * SFS_BLKBITS + w * WORD_BITS + o < count

/-- The file system in memory after such a device was mounted. -/
structure Mounted (dev : Device) (count first : ℕ) (s : SfsFs) : Prop where
  dev : s.dev = dev
  blocks : s.blocks = count
  unusedBlocks : s.unusedBlocks = count - first
  covers : s.freemap.Covers
  nbits : s.freemap.nbits = sfsFreemapBlocks count * SFS_BLKBITS
  free : ∀ b < s.freemap.nbits, s.freemap.Free b ↔ first ≤ b ∧ b < count

section Mount

variable {dev : Device} {count first : ℕ} {s : SfsFs}

theorem sfsFreemapBlocks_le (hcount : count ≤ 2 ^ 20) : sfsFreemapBlocks count ≤ 32 := by
  unfold sfsFreemapBlocks SFS_BLKBITS
  omega

theorem le_sfsFreemapBlocks (count : ℕ) : count ≤ sfsFreemapBlocks count * SFS_BLKBITS := by
  unfold sfsFreemapBlocks SFS_BLKBITS
  omega

theorem sfsInitRead_eq {blkno : ℕ} (hlt : blkno < dev.dBlocks) (hsmall : blkno < 2 ^ 20) :
    sfsInitRead dev blkno = .ok (dev.block blkno) := by
  have hoffset : uint32 (blkno * SFS_BLKSIZE) = blkno * SFS_BLKSIZE :=
    uint32_of_lt (by unfold SFS_BLKSIZE; omega)
  have hdiv : blkno * SFS_BLKSIZE / SFS_BLKSIZE = blkno := Nat.mul_div_cancel _ (by decide)
  have hmod : ¬blkno * SFS_BLKSIZE % SFS_BLKSIZE ≠ 0 := by
    rw [Nat.mul_mod_left]
    exact not_not.mpr rfl
  have hblkno : uint32 blkno = blkno := uint32_of_lt (by omega)
  have hnext : uint32 (blkno + 1) = blkno + 1 := uint32_of_lt (by omega)
  have hin : ¬dev.dBlocks < blkno + 1 := by omega
  rw [sfsInitRead, hoffset, disk0Io, if_neg hmod, hdiv, hblkno, hnext, if_neg hin]
  rfl

/-- The bitmap of whole blocks has no tail. -/
theorem bitmapCreate_eq (nwords : ℕ) (hpos : 0 < nwords) (hsmall : nwords < 2 ^ 26) :
    bitmapCreate (nwords * WORD_BITS) =
      .ok ⟨nwords * WORD_BITS, nwords, fun _ ↦ BitVec.allOnes 32⟩ := by
  have hround : (nwords * WORD_BITS + WORD_BITS - 1) / WORD_BITS = nwords := by
    unfold WORD_BITS
    omega
  have hgrows : nwords * WORD_BITS ≠ 0 ∧
      nwords * WORD_BITS < uint32 (nwords * WORD_BITS + WORD_BITS) := by
    unfold WORD_BITS uint32
    omega
  rw [bitmapCreate, Outcome.require_of_true hgrows, Outcome.ok_bind]
  dsimp only
  rw [hround, if_neg (not_not.mpr rfl)]
  rfl

/-- The words that the loop of `sfs_init_freemap` loads. -/
theorem sfsInitFreemapFrom_eq {blkno nblks : ℕ} (hlt : blkno + nblks ≤ dev.dBlocks)
    (hsmall : blkno + nblks ≤ 2 ^ 20) (ix : ℕ) (map : ℕ → BitVec 32) :
    ∃ map', sfsInitFreemapFrom dev blkno ix nblks map = .ok map' ∧
      (∀ index < ix, map' index = map index) ∧
      ∀ i < nblks, ∀ w < SFS_BLKSIZE / 4, map' (ix + i * (SFS_BLKSIZE / 4) + w) =
        BitVec.ofNat 32 (wordAt (dev.block (blkno + i)) (w * 4)) := by
  induction nblks generalizing blkno ix map with
  | zero => exact ⟨map, rfl, fun _ _ ↦ rfl, fun i hi ↦ absurd hi (Nat.not_lt_zero i)⟩
  | succ nblks ih =>
    rcases ih (show blkno + 1 + nblks ≤ dev.dBlocks by omega) (by omega) (ix + SFS_BLKSIZE / 4)
      (loadWords map ix (dev.block blkno)) with ⟨map', hcall, hbefore, hafter⟩
    refine ⟨map', ?_, fun index hindex ↦ ?_, fun i hi w hw ↦ ?_⟩
    · rw [sfsInitFreemapFrom, sfsInitRead_eq (by omega) (by omega)]
      exact hcall
    · rw [hbefore index (by omega), loadWords, if_neg (by omega)]
    · rcases Nat.eq_zero_or_pos i with rfl | hpos
      · rw [Nat.zero_mul, Nat.add_zero, Nat.add_zero, hbefore _ (by omega), loadWords,
          if_pos (by omega), Nat.add_sub_cancel_left]
        rfl
      · have hload := hafter (i - 1) (by omega) w hw
        have hindex : ix + SFS_BLKSIZE / 4 + (i - 1) * (SFS_BLKSIZE / 4) + w =
            ix + i * (SFS_BLKSIZE / 4) + w := by
          unfold SFS_BLKSIZE
          omega
        have hblkno : blkno + 1 + (i - 1) = blkno + i := by omega
        rwa [hindex, hblkno] at hload

/-- The loop counts the free blocks up to where it stops. -/
theorem sfsCountUnused_eq (freemap : Bitmap) {i left : ℕ} (hlt : i + left ≤ freemap.nbits) :
    sfsCountUnused freemap i left (Nat.count freemap.Free i) =
      .ok (Nat.count freemap.Free (i + left)) := by
  induction left generalizing i with
  | zero => rfl
  | succ left ih =>
    have hnext := ih (i := i + 1) (by omega)
    rw [Nat.count_succ, Nat.add_right_comm i 1 left] at hnext
    rw [sfsCountUnused, bitmapTest_eq (by omega), Outcome.ok_bind, ← Nat.add_assoc]
    by_cases hfree : freemap.Free i
    · rw [if_pos hfree] at hnext
      rw [if_pos (decide_eq_true hfree)]
      exact hnext
    · rw [if_neg hfree, Nat.add_zero] at hnext
      rw [if_neg (by simpa using hfree)]
      exact hnext

/-- As many indices are free as the interval has elements. -/
theorem freeCount_of_interval {freemap : Bitmap} (hcount : count ≤ freemap.nbits)
    (hfree : ∀ b < freemap.nbits, freemap.Free b ↔ first ≤ b ∧ b < count) :
    freemap.freeCount = count - first := by
  have hinterval : (Finset.range freemap.nbits).filter freemap.Free = Finset.Ico first count := by
    ext b
    rw [Finset.mem_filter, Finset.mem_range, Finset.mem_Ico]
    constructor
    · rintro ⟨hlt, hb⟩
      exact (hfree b hlt).mp hb
    · intro hb
      have hlt : b < freemap.nbits := hb.2.trans_le hcount
      exact ⟨hlt, (hfree b hlt).mpr hb⟩
  rw [Bitmap.freeCount, hinterval, Nat.card_Ico]

/-- The free map that `sfs_do_mount` builds. -/
theorem freemap_of_formatted (h : Formatted dev count first) : ∃ freemap : Bitmap,
    freemap.Covers ∧ freemap.nbits = sfsFreemapBlocks count * SFS_BLKBITS ∧
      (∀ b < freemap.nbits, freemap.Free b ↔ first ≤ b ∧ b < count) ∧
      ∃ new, bitmapCreate (sfsFreemapBits count) = .ok new ∧
        sfsInitFreemap dev new SFS_BLKN_FREEMAP (sfsFreemapBlocks count) = .ok (.ok freemap) := by
  have hreserved := h.reserved
  have hfirst := h.first_le
  have hcount := h.count_le
  have hdevice := h.count_le_device
  have hblocks := sfsFreemapBlocks_le hcount
  have hpos : 0 < sfsFreemapBlocks count := by
    unfold SFS_BLKN_FREEMAP at hreserved
    unfold sfsFreemapBlocks SFS_BLKBITS
    omega
  let nwords := sfsFreemapBlocks count * 1024
  have hbits : sfsFreemapBits count = nwords * WORD_BITS := by
    unfold sfsFreemapBits nwords SFS_BLKBITS WORD_BITS uint32
    omega
  have hnbits : nwords * WORD_BITS = sfsFreemapBlocks count * SFS_BLKBITS := by
    unfold nwords SFS_BLKBITS WORD_BITS
    omega
  have hcreate := bitmapCreate_eq nwords (by omega) (by omega)
  have hinside : SFS_BLKN_FREEMAP + sfsFreemapBlocks count ≤ dev.dBlocks := by omega
  rcases sfsInitFreemapFrom_eq hinside (by omega) 0 fun _ ↦ BitVec.allOnes 32 with
    ⟨map, hload, -, hwords⟩
  refine ⟨⟨nwords * WORD_BITS, nwords, map⟩, ⟨rfl, ?_⟩, hnbits, fun b hb ↦ ?_,
    ⟨nwords * WORD_BITS, nwords, fun _ ↦ BitVec.allOnes 32⟩, ?_, ?_⟩
  · change nwords * WORD_BITS < 2 ^ 32
    unfold WORD_BITS
    omega
  · -- the bit of `b` lies in word `w` of block `i`
    change b < nwords * WORD_BITS at hb
    have hi : b / SFS_BLKBITS < sfsFreemapBlocks count := by
      unfold SFS_BLKBITS
      unfold WORD_BITS at hb
      omega
    have hw : b % SFS_BLKBITS / WORD_BITS < SFS_BLKSIZE / 4 := by
      unfold SFS_BLKBITS WORD_BITS SFS_BLKSIZE
      omega
    have hword := hwords _ hi _ hw
    have hindex : 0 + b / SFS_BLKBITS * (SFS_BLKSIZE / 4) + b % SFS_BLKBITS / WORD_BITS =
        b / WORD_BITS := by
      unfold SFS_BLKBITS WORD_BITS SFS_BLKSIZE
      omega
    have hb : b / SFS_BLKBITS * SFS_BLKBITS + b % SFS_BLKBITS / WORD_BITS * WORD_BITS +
        b % WORD_BITS = b := by
      unfold SFS_BLKBITS WORD_BITS
      omega
    have hbit := h.freemap _ hi _ hw _ (offset_lt b)
    rw [hb, ← hword, hindex] at hbit
    exact hbit
  · rw [hbits]
    exact hcreate
  · rw [sfsInitFreemap, Outcome.require_of_true, Outcome.ok_bind, hload]
    · rfl
    · change 4 * nwords = sfsFreemapBlocks count * SFS_BLKSIZE
      unfold nwords SFS_BLKSIZE
      omega

/-- When there is memory the device is mounted, and no assertion fails in any case. -/
theorem sfsDoMount_of_formatted (h : Formatted dev count first) : ∃ s, Mounted dev count first s ∧
    sfsDoMount ⟨true, true, true, true⟩ dev = .ok (.ok s) ∧
    ∀ memory, sfsDoMount memory dev = .ok (.ok s) ∨ sfsDoMount memory dev = .ok (.error .noMem) := by
  have hreserved := h.reserved
  have hfirst := h.first_le
  have hdevice := h.count_le_device
  rcases freemap_of_formatted h with ⟨freemap, hcovers, hnbits, hfree, new, hcreate, hload⟩
  have hle : count ≤ freemap.nbits := hnbits ▸ le_sfsFreemapBlocks count
  have hunused : sfsCountUnused freemap 0 freemap.nbits 0 = .ok (count - first) := by
    have hcount := sfsCountUnused_eq freemap (show 0 + freemap.nbits ≤ freemap.nbits by omega)
    rw [Nat.count_zero, Nat.zero_add, Nat.count_eq_card_filter_range] at hcount
    rw [hcount, ← freeCount_of_interval hle hfree]
    rfl
  have hsuper : sfsInitRead dev SFS_BLKN_SUPER = .ok (dev.block SFS_BLKN_SUPER) :=
    sfsInitRead_eq (by unfold SFS_BLKN_FREEMAP at hreserved; unfold SFS_BLKN_SUPER; omega) (by decide)
  have hmagic : word32 (dev.block SFS_BLKN_SUPER) = SFS_MAGIC :=
    (word32_congr fun index _ ↦ by rw [Nat.zero_add]).trans h.magic
  have hblocks : (word32 fun index ↦ dev.block SFS_BLKN_SUPER (4 + index)) = count := h.blocks
  have hleft : (word32 fun index ↦ dev.block SFS_BLKN_SUPER (8 + index)) = count - first :=
    h.unusedBlocks
  have hcall : ∀ memory, sfsDoMount memory dev =
      if memory.fs ∧ memory.sfsBuffer ∧ memory.hashList ∧ memory.freemap then
        .ok (.ok ⟨count, count - first, freemap, false, dev⟩)
      else .ok (.error .noMem) := by
    rintro ⟨fs, sfsBuffer, hashList, bits⟩
    unfold sfsDoMount
    rw [hsuper]
    dsimp only
    rw [hmagic, hblocks, hleft, hcreate, Outcome.ok_bind, hload, Outcome.ok_bind]
    dsimp only
    rw [hunused, Outcome.ok_bind, Outcome.require_of_true rfl]
    have hin : ¬dev.dBlocks < count := by omega
    cases fs <;> cases sfsBuffer <;> cases hashList <;> cases bits <;> simp [hin]
  refine ⟨⟨count, count - first, freemap, false, dev⟩, ⟨rfl, rfl, rfl, hcovers, hnbits, hfree⟩, ?_,
    fun memory ↦ ?_⟩
  · rw [hcall, if_pos (by decide)]
  · rw [hcall]
    split
    · exact Or.inl rfl
    · exact Or.inr rfl

/-- A file system that was mounted is sound. -/
theorem Mounted.geometry (h : Mounted dev count first s) (hformatted : Formatted dev count first) :
    Geometry s where
  covers := h.covers
  blocks_le_nbits := by
    rw [h.blocks, h.nbits]
    exact le_sfsFreemapBlocks count
  blocks_le_device := by
    rw [h.blocks, h.dev]
    exact hformatted.count_le_device
  blocks_le := by
    rw [h.blocks]
    exact hformatted.count_le
  device_lt := by
    rw [h.dev]
    exact hformatted.device_lt
  unusedBlocks := by
    rw [h.unusedBlocks]
    refine (freeCount_of_interval ?_ h.free).symm
    rw [h.nbits]
    exact le_sfsFreemapBlocks count

theorem Mounted.ranged (h : Mounted dev count first s) (hformatted : Formatted dev count first) :
    Ranged s := by
  intro b hlt hfree
  have hreserved := hformatted.reserved
  have hrange := (h.free b hlt).mp hfree
  unfold SFS_BLKN_FREEMAP at hreserved
  rw [h.blocks]
  exact ⟨by omega, hrange.2⟩

/-- A block before the free ones is in use. -/
theorem Mounted.inuse (h : Mounted dev count first s) (hfirst : first ≤ count) {b : ℕ}
    (hlt : b < first) : b < s.freemap.nbits ∧ ¬s.freemap.Free b := by
  have hle := le_sfsFreemapBlocks count
  have hnbits : b < s.freemap.nbits := by
    rw [h.nbits]
    omega
  exact ⟨hnbits, fun hfree ↦ Nat.not_le.mpr hlt ((h.free b hnbits).mp hfree).1⟩

end Mount

end Ucore.Fs
