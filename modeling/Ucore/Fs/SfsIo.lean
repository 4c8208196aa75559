import Ucore.Fs.SfsRun

/-!
# Where file input and output put the bytes

A successful call of `sfs_io_nolock` on a file of a consistent file system moves the bytes to their
place and touches nothing else exactly when its last part is a whole block or its only part. In
every other call the last part lands beyond the buffer.
-/

namespace Ucore.Fs

open Library

/-- A regular file with as many blocks as its size asks for. -/
structure RegularFile (sin : SfsInode) : Prop where
  type : sin.type = SFS_TYPE_FILE
  blocks : sin.blocks = (sin.size + SFS_BLKSIZE - 1) / SFS_BLKSIZE

/-- No memory outside of `[buf, buf + alen)` was used. -/
def WithinBuffer (buf : ℕ) (io : Io) : Prop :=
  ∀ extent ∈ io.touched, buf ≤ extent.start ∧ extent.stop ≤ buf + io.alen

/-- What a read has to do: the bytes of the file are in the buffer, and other memory is as it
was. -/
structure ReadsRight (m : Mount) (ino : ℕ) (memory : Bytes) (buf offset : ℕ) (io : Io) : Prop where
  bytes : ∀ index < io.alen,
    io.memory (buf + index) = fileByte m.sfs (m.inode ino) (offset + index)
  within : WithinBuffer buf io
  memory : ∀ address, address < buf ∨ buf + io.alen ≤ address → io.memory address = memory address

/-- What a write has to do: the bytes of the buffer are in the file, and the other bytes of this
file and all bytes of the other files are as they were. -/
structure WritesRight (m : Mount) (ino : ℕ) (memory : Bytes) (buf offset : ℕ) (io : Io) :
    Prop where
  bytes : ∀ index < io.alen, fileByte io.fs io.sin (offset + index) = memory (buf + index)
  within : WithinBuffer buf io
  file : ∀ pos < (m.inode ino).size, pos < offset ∨ offset + io.alen ≤ pos →
    fileByte io.fs io.sin pos = fileByte m.sfs (m.inode ino) pos
  others : ∀ other ∈ m.inos, other ≠ ino → ∀ pos, pos / SFS_BLKSIZE < (m.inode other).blocks →
    fileByte io.fs (m.inode other) pos = fileByte m.sfs (m.inode other) pos

def TransfersRight (m : Mount) (ino : ℕ) (memory : Bytes) (buf offset : ℕ) (write : Bool)
    (io : Io) : Prop :=
  if write then WritesRight m ino memory buf offset io else ReadsRight m ino memory buf offset io

/-- The transfer goes over a block boundary and ends inside a block. -/
def TailBeyond (sin : SfsInode) (offset : ℤ) (len : ℕ) (write : Bool) : Prop :=
  ∃ endpos, sfsIoEndpos sin offset len write = .ok endpos ∧ TailMoved offset.toNat endpos

section Call

variable {m : Mount} {ino : ℕ} {memory : Bytes} {buf : ℕ} {offset : ℤ} {len : ℕ} {write : Bool}
  {io : Io}

theorem lt_blocks_of_lt_size {sin : SfsInode} (h : RegularFile sin) {pos : ℕ} (hpos : pos < sin.size) :
    pos / SFS_BLKSIZE < sin.blocks := by
  rw [h.blocks]
  unfold SFS_BLKSIZE
  omega

theorem other_bytes (hkept : Kept m.sfs (m.rest ino) io.fs io.sin) {other : ℕ}
    (hother : other ∈ m.inos) (hne : other ≠ ino) {pos : ℕ}
    (hpos : pos / SFS_BLKSIZE < (m.inode other).blocks) :
    fileByte io.fs (m.inode other) pos = fileByte m.sfs (m.inode other) pos := by
  have hat := blockAt_congr (Consistent.other_indirect hkept hother hne) (pos / SFS_BLKSIZE)
  have hmem : blockAt m.sfs (m.inode other) (pos / SFS_BLKSIZE) ∈ m.refs other := Owns.blockAt_mem hpos
  rw [fileByte, fileByte, hat, hkept.keeps.rest _ (Or.inr (Or.inr ⟨other, hother, hne, hmem⟩))]

/-- A read ends inside the file. -/
theorem le_size_of_read {sin : SfsInode} {endpos : ℕ}
    (h : sfsIoEndpos sin offset len false = .ok endpos) :
    endpos = offset.toNat ∨ endpos ≤ sin.size := by
  unfold sfsIoEndpos at h
  dsimp only at h
  split at h
  · cases h
  · split at h
    · cases h
      exact Or.inl rfl
    · simp only [Bool.false_eq_true, if_false] at h
      split at h
      · cases h
        exact Or.inl rfl
      · cases h
        exact Or.inr (min_le_right _ _)

theorem transfersRight_of_progress (hfile : RegularFile (m.inode ino)) {endpos : ℕ}
    (hendpos : sfsIoEndpos (m.inode ino) offset len write = .ok endpos)
    (halen : io.alen = endpos - offset.toNat)
    (h : Progress write m.sfs (m.inode ino) memory buf offset.toNat (m.rest ino) io) :
    TransfersRight m ino memory buf offset.toNat write io := by
  unfold TransfersRight
  cases write with
  | true =>
    rw [if_pos rfl]
    refine ⟨fun index hindex ↦ ?_, h.touched, fun pos hpos hout ↦ ?_,
      fun other hother hne pos hpos ↦ other_bytes h.kept hother hne hpos⟩
    · rw [h.bytes index hindex]
      exact h.memory _ nofun
    · exact h.file pos (lt_blocks_of_lt_size hfile hpos) fun _ ↦ hout
  | false =>
    rw [if_neg Bool.false_ne_true]
    refine ⟨fun index hindex ↦ ?_, h.touched, fun address hout ↦ h.memory address fun _ ↦ hout⟩
    have hlt : offset.toNat + index < (m.inode ino).size := by
      rcases le_size_of_read hendpos with heq | hle <;> omega
    rw [← h.bytes index hindex]
    exact h.file _ (lt_blocks_of_lt_size hfile hlt) nofun

/-- The bytes are in place exactly when the tail stays in the buffer. -/
theorem transfersRight_iff (m : Mount) (hconsistent : Consistent m) (ino : ℕ) (hino : ino ∈ m.inos)
    (hfile : RegularFile (m.inode ino)) (memory : Bytes) (buf : ℕ) (offset : ℤ) (len : ℕ)
    (write : Bool) (io : Io)
    (hcall : sfsIoNolock m.sfs (m.inode ino) memory buf offset len write = .ok (.ok (), io)) :
    TransfersRight m ino memory buf offset.toNat write io ↔
      ¬TailBeyond (m.inode ino) offset len write := by
  rcases (sfsIoNolock_spec (hconsistent.owns hino) _ _ _ _ _ _ hcall).2 rfl
    with ⟨endpos, hendpos, -, hfinished⟩
  rcases hfinished rfl with ⟨halen, hplace, hmoved⟩
  constructor
  · rintro hright ⟨endpos', hendpos', htail⟩
    rw [hendpos] at hendpos'
    cases hendpos'
    rcases hmoved htail with ⟨extent, hextent, hbeyond⟩
    have hwithin : WithinBuffer buf io := by
      unfold TransfersRight at hright
      split at hright
      · exact hright.within
      · exact hright.within
    have hstop := (hwithin extent hextent).2
    exact absurd hbeyond (Nat.not_lt.mpr hstop)
  · intro hstay
    refine transfersRight_of_progress hfile hendpos halen (hplace fun htail ↦ ?_)
    exact hstay ⟨endpos, hendpos, htail⟩

theorem regularFile_twoBlockFile : RegularFile twoBlockFile := ⟨rfl, rfl⟩

/-- Reading five bytes at the start of the file. -/
theorem transfersRight_five : ∃ io, sfsIoNolock sevenBlocks twoBlockFile (fun _ ↦ 0) 0 0 5 false =
    .ok (.ok (), io) ∧ (TransfersRight oneFile 3 (fun _ ↦ 0) 0 0 false io ↔
      ¬TailBeyond twoBlockFile 0 5 false) := by
  have hcall : sfsIoNolock oneFile.sfs (oneFile.inode 3) (fun _ ↦ 0) 0 0 5 false =
    .ok (.ok (), _) := rfl
  exact ⟨_, hcall, transfersRight_iff oneFile consistent_oneFile 3 (List.mem_singleton.mpr rfl)
    regularFile_twoBlockFile _ _ _ _ _ _ hcall⟩

/-- Reading the whole file: its last byte goes to `buf + 8192`. -/
theorem not_transfersRight_whole : ¬∀ (m : Mount), Consistent m → ∀ ino ∈ m.inos,
    RegularFile (m.inode ino) → ∀ (memory : Bytes) (buf : ℕ) (offset : ℤ) (len : ℕ) (write : Bool)
      (io : Io), sfsIoNolock m.sfs (m.inode ino) memory buf offset len write = .ok (.ok (), io) →
      TransfersRight m ino memory buf offset.toNat write io := by
  intro h
  have hcall : sfsIoNolock oneFile.sfs (oneFile.inode 3) (fun _ ↦ 0) 0 0 4097 false =
    .ok (.ok (), _) := rfl
  have hright := h oneFile consistent_oneFile 3 (List.mem_singleton.mpr rfl)
    regularFile_twoBlockFile _ _ _ _ _ _ hcall
  have hwithin : WithinBuffer 0 _ := ReadsRight.within hright
  exact absurd (hwithin ⟨8192, 1⟩ (List.mem_cons_self ..)).2 (by decide)

end Call

end Ucore.Fs
