import Ucore.Fs.FileOps

/-!
# The accounts of a transfer

What `sfs_io_nolock` reports and stores about a transfer: the number of bytes, the size and the
number of blocks of the file, and the position of the descriptor. A write that starts beyond the end
of the file and finds no room for its first block moves no byte and still stores the size.
-/

namespace Ucore.Fs

open Library

/-- The number of bytes that are asked for, up to the largest file and, for a read, up to the end of
this file. -/
def request (sin : SfsInode) (pos : ℤ) (len : ℕ) (write : Bool) : ℕ :=
  let endpos := min (pos + len) SFS_MAX_FILE_SIZE
  ((if write then endpos else min endpos sin.size) - pos).toNat

/-- What a call has to leave behind. -/
structure Accounts (sin : SfsInode) (pos : ℤ) (len : ℕ) (write : Bool) (ret : Ret Unit) (io : Io) :
    Prop where
  alen_le : io.alen ≤ request sin pos len write
  alen_eq : ret = .ok () → io.alen = request sin pos len write
  read : write = false → io.sin.size = sin.size ∧ io.sin.blocks = sin.blocks
  written : write = true →
    io.sin.size = if io.alen = 0 then sin.size else max sin.size (pos.toNat + io.alen)
  regular : RegularFile io.sin

/-- `file_read` or `file_write` comes back with its accounts in order, and the position moved by
what was transferred. -/
def IoAccounts (v : Volume) (ino : ℕ) (file : File) (memory : Bytes) (base len : ℕ) (write : Bool) :
    Prop :=
  ∃ ret io, sfsIoNolock v.mount.sfs (v.inode ino) memory base file.pos len write = .ok (ret, io) ∧
    Accounts (v.inode ino) file.pos len write ret io ∧
    ∃ code iob, fileIo (Volume.sfsIo write ino) v file memory base len =
      .ok (code, iob, { file with pos := file.pos + io.alen }, v.set ino io.fs io.sin)

/-- A write that stays inside of the block map, or runs out of free blocks first, and that does not
start beyond the end of the file in a block that there is no room for. -/
def Bookable (s : SfsFs) (sin : SfsInode) (pos : ℤ) (len : ℕ) : Prop :=
  ∀ endpos, Moves sin pos len true endpos → Fits s sin (blocksFor endpos) ∧
    (pos.toNat ≤ sin.size ∨ pos.toNat < capacity s sin * SFS_BLKSIZE)

section Endpos

variable {sin : SfsInode} {pos : ℤ} {len endpos : ℕ} {write : Bool}

theorem request_le (sin : SfsInode) (pos : ℤ) (len : ℕ) (write : Bool) :
    request sin pos len write ≤ len := by
  unfold request
  dsimp only
  split <;> omega

/-- The end of a transfer that is not refused, whose sum did not wrap around. -/
theorem sfsIoEndpos_eq (hlen : len < 2 ^ 64) (h : sfsIoEndpos sin pos len write = .ok endpos) :
    0 ≤ pos ∧ pos < SFS_MAX_FILE_SIZE ∧ pos.toNat + request sin pos len write = endpos := by
  unfold sfsIoEndpos at h
  unfold request
  dsimp only at h ⊢
  split at h
  · cases h
  · rename_i hvalid
    have hsum : int64 (pos + len) = pos + len := by
      unfold int64 at hvalid ⊢
      unfold SFS_MAX_FILE_SIZE at hvalid
      omega
    rw [hsum] at h hvalid
    refine ⟨by omega, by omega, ?_⟩
    cases write
    · simp only [Bool.false_eq_true, if_false] at h ⊢
      repeat' split at h
      all_goals
        cases h
        omega
    · simp only [if_true] at h ⊢
      split at h
      · cases h
        omega
      · cases h
        omega

end Endpos

section Call

variable {s : SfsFs} {sin : SfsInode} {rest : ℕ → Prop} {memory : Bytes} {base len endpos : ℕ}
  {pos : ℤ} {write : Bool}

theorem regularFile_iff : RegularFile sin ↔
    sin.type = SFS_TYPE_FILE ∧ sin.blocks = blocksFor sin.size :=
  ⟨fun h ↦ ⟨h.type, h.blocks⟩, fun h ↦ ⟨h.1, h.2⟩⟩

theorem RegularFile.covered (h : RegularFile sin) : Covered sin := h.blocks.ge

theorem RegularFile.ne_dir (h : RegularFile sin) : sin.type ≠ SFS_TYPE_DIR := by
  rw [h.type]
  decide

/-- A call that has nothing to move, or is refused. -/
theorem accounts_of_none (hfile : RegularFile sin) (hlen : len < 2 ^ 64)
    (hnone : ∀ endpos, ¬Moves sin pos len write endpos) :
    ∃ ret io, sfsIoNolock s sin memory base pos len write = .ok (ret, io) ∧
      Accounts sin pos len write ret io := by
  rw [sfsIoNolock, Outcome.require_of_true hfile.ne_dir, Outcome.ok_bind]
  dsimp only
  cases hendpos : sfsIoEndpos sin pos len write with
  | error code =>
    exact ⟨_, _, rfl, Nat.zero_le _, fun herror ↦ (by cases herror), fun _ ↦ ⟨rfl, rfl⟩,
      fun _ ↦ rfl, hfile⟩
  | ok endpos =>
    have hsame : pos.toNat = endpos := not_not.mp fun hne ↦ hnone endpos ⟨hendpos, hne⟩
    have hzero : 0 = request sin pos len write := by
      have hrequest := (sfsIoEndpos_eq hlen hendpos).2.2
      omega
    dsimp only
    rw [if_pos hsame]
    exact ⟨_, _, rfl, Nat.zero_le _, fun _ ↦ hzero, fun _ ↦ ⟨rfl, rfl⟩, fun _ ↦ rfl, hfile⟩

/-- A read moves all of what it is asked for, and changes nothing. -/
theorem accounts_read (h : Owns s sin rest) (hranged : Ranged s) (hfile : RegularFile sin)
    (hlen : len < 2 ^ 64) (hmoves : Moves sin pos len false endpos) :
    ∃ ret io, sfsIoNolock s sin memory base pos len false = .ok (ret, io) ∧
      Accounts sin pos len false ret io := by
  have hstart := le_of_sfsIoEndpos hmoves.1
  have hsize : endpos ≤ sin.size := (le_size_of_read hmoves.1).resolve_left hmoves.2.symm
  have hstop : blocksFor endpos ≤ sin.blocks := (blocksFor_mono hsize).trans hfile.covered
  have hfirst : pos.toNat / SFS_BLKSIZE ≤ sin.blocks := by
    unfold blocksFor SFS_BLKSIZE at *
    omega
  have hroom : blocksFor endpos ≤ capacity s sin := hstop.trans (le_capacity h.blocks_le)
  rcases sfsIoNolock_written h hranged hfile.ne_dir hmoves hfirst
    (Or.inl (hstop.trans h.blocks_le)) with ⟨ret, io, hcall, -, halen, -⟩
  have hsin := (sfsIoNolock_read h hranged hfile.covered hcall).2.1
  have hrequest := (sfsIoEndpos_eq hlen hmoves.1).2.2
  rw [reach, if_pos hroom] at halen
  have heq : io.alen = request sin pos len false := by omega
  refine ⟨ret, io, hcall, heq.le, fun _ ↦ heq, fun _ ↦ ?_, fun hread ↦ (by cases hread), ?_⟩
  · rw [hsin]
    exact ⟨rfl, rfl⟩
  · rw [hsin]
    exact hfile

/-- A write that comes back has its accounts in order exactly when it does not start beyond both
the end of the file and the room that there is for it. -/
theorem accounts_written_iff (hfile : RegularFile sin) (hlen : len < 2 ^ 64)
    (hmoves : Moves sin pos len true endpos) (hblocks : sin.blocks ≤ MAX_BLOCKS) {ret : Ret Unit}
    {io : Io} (hwritten : Written s sin rest (reach s sin pos.toNat endpos)
      (min (blocksFor endpos) (capacity s sin)) io.fs io.sin)
    (halen : pos.toNat + io.alen = reach s sin pos.toNat endpos)
    (hret : ret = .ok () ↔ blocksFor endpos ≤ capacity s sin) :
    Accounts sin pos len true ret io ↔
      pos.toNat ≤ sin.size ∨ pos.toNat < capacity s sin * SFS_BLKSIZE := by
  have hlt : pos.toNat < endpos := lt_of_le_of_ne (le_of_sfsIoEndpos hmoves.1).2 hmoves.2
  have hrequest := (sfsIoEndpos_eq hlen hmoves.1).2.2
  have hle : reach s sin pos.toNat endpos ≤ endpos := reach_le hlt
  have hsize := hwritten.size
  have hcount := hwritten.blocks
  have hcapacity := le_capacity (s := s) hblocks
  have hregular := hfile.blocks
  unfold reach at hle hsize halen
  constructor
  · intro haccounts
    by_contra hbeyond
    -- no block could be allocated: nothing was moved, and the size is the offset
    have hshort : ¬blocksFor endpos ≤ capacity s sin := by
      unfold blocksFor SFS_BLKSIZE at *
      omega
    have hstored := haccounts.written rfl
    rw [if_neg hshort] at hsize halen
    rw [if_pos (by omega : io.alen = 0)] at hstored
    omega
  · intro hplace
    refine ⟨by omega, fun hok ↦ ?_, nofun, fun _ ↦ ?_, ?_⟩
    · rw [if_pos (hret.mp hok)] at halen
      omega
    · rw [hsize]
      split at halen <;> rename_i hroom
      · rw [if_pos hroom, if_neg (by omega)]
        omega
      · rw [if_neg hroom]
        split <;> omega
    · refine regularFile_iff.mpr ⟨hwritten.type.trans hfile.type, ?_⟩
      rw [hcount, hsize]
      unfold blocksFor SFS_BLKSIZE at *
      split <;> omega

theorem accounts_write_iff (h : Owns s sin rest) (hranged : Ranged s) (hfile : RegularFile sin)
    (hlen : len < 2 ^ 64) (hmoves : Moves sin pos len true endpos)
    (hfirst : pos.toNat / SFS_BLKSIZE ≤ sin.blocks) :
    (∃ ret io, sfsIoNolock s sin memory base pos len true = .ok (ret, io) ∧
        Accounts sin pos len true ret io) ↔
      Fits s sin (blocksFor endpos) ∧
        (pos.toNat ≤ sin.size ∨ pos.toNat < capacity s sin * SFS_BLKSIZE) := by
  constructor
  · rintro ⟨ret, io, hcall, haccounts⟩
    have hfits : Fits s sin (blocksFor endpos) := by
      by_contra hbeyond
      exact not_completes_sfsIoNolock h hranged hmoves (fun hplace ↦ hbeyond hplace.2) ⟨_, hcall⟩
    rcases sfsIoNolock_written h hranged hfile.ne_dir hmoves hfirst hfits with
      ⟨ret', io', hcall', hwritten, halen, hret⟩
    cases hcall'.symm.trans hcall
    exact ⟨hfits,
      (accounts_written_iff hfile hlen hmoves h.blocks_le hwritten halen hret).mp haccounts⟩
  · rintro ⟨hfits, hplace⟩
    rcases sfsIoNolock_written h hranged hfile.ne_dir hmoves hfirst hfits with
      ⟨ret, io, hcall, hwritten, halen, hret⟩
    exact ⟨ret, io, hcall,
      (accounts_written_iff hfile hlen hmoves h.blocks_le hwritten halen hret).mpr hplace⟩

theorem accounts_iff (h : Owns s sin rest) (hranged : Ranged s) (hfile : RegularFile sin)
    (hlen : len < 2 ^ 64) (hfirst : pos.toNat / SFS_BLKSIZE ≤ sin.blocks) :
    (∃ ret io, sfsIoNolock s sin memory base pos len write = .ok (ret, io) ∧
        Accounts sin pos len write ret io) ↔ (write = true → Bookable s sin pos len) := by
  by_cases hmoves : ∃ endpos, Moves sin pos len write endpos
  · rcases hmoves with ⟨endpos, hmoves⟩
    cases write
    · exact iff_of_true (accounts_read h hranged hfile hlen hmoves) nofun
    · rw [accounts_write_iff h hranged hfile hlen hmoves hfirst, imp_iff_right rfl]
      constructor
      · intro hplace endpos' hmoves'
        cases hmoves.1.symm.trans hmoves'.1
        exact hplace
      · intro hbookable
        exact hbookable endpos hmoves
  · have hnone := not_exists.mp hmoves
    refine iff_of_true (accounts_of_none hfile hlen hnone) ?_
    rintro rfl endpos hmoves
    exact absurd hmoves (hnone endpos)

end Call

/-! ## The position of the descriptor -/

section Position

variable {v : Volume} {ino : ℕ} {file : File} {memory : Bytes} {base len : ℕ} {write : Bool}
  {pos : ℤ} {ret : Ret Unit} {io : Io}

theorem sfsIo_eq (hcall : sfsIoNolock v.mount.sfs (v.inode ino) memory base pos len write =
      .ok (ret, io)) (hle : io.alen ≤ len) :
    ∃ iob, v.sfsIo write ino (iobufInit memory base len pos) =
      .ok (ret.map fun _ ↦ 0, iob, v.set ino io.fs io.sin) ∧ iobufUsed iob = io.alen ∧
        iob.memory = io.memory := by
  have hio : sfsIoNolock v.mount.sfs (v.inode ino) (iobufInit memory base len pos).memory
    (iobufInit memory base len pos).base (iobufInit memory base len pos).offset
    (iobufInit memory base len pos).resid write = .ok (ret, io) := hcall
  rw [Volume.sfsIo, hio, Outcome.ok_bind]
  dsimp only
  by_cases hzero : io.alen = 0
  · rw [if_neg (not_not.mpr hzero), hzero]
    exact ⟨_, rfl, Nat.sub_self _, rfl⟩
  · have hrequire : io.alen ≤ (iobufInit memory base len pos).resid := hle
    rw [if_pos hzero, iobufSkip, Outcome.require_of_true hrequire]
    exact ⟨_, rfl, Nat.sub_sub_self hle, rfl⟩

/-- The position moves by what was transferred, without wrapping around. -/
theorem fileIo_eq (hopened : file.status = .opened) (hpos : -2 ^ 63 ≤ file.pos)
    (hmax : file.pos + io.alen < 2 ^ 63)
    (hcall : sfsIoNolock v.mount.sfs (v.inode ino) memory base file.pos len write = .ok (ret, io))
    (hle : io.alen ≤ len) :
    ∃ iob, fileIo (Volume.sfsIo write ino) v file memory base len =
      .ok (ret.map fun _ ↦ 0, iob, { file with pos := file.pos + io.alen }, v.set ino io.fs io.sin) ∧
        iobufUsed iob = io.alen ∧ iob.memory = io.memory := by
  rcases sfsIo_eq hcall hle with ⟨iob, hio, hused, hmemory⟩
  have hsum : int64 (file.pos + io.alen) = file.pos + io.alen := by
    unfold int64
    omega
  rw [fileIo, hio, Outcome.ok_bind]
  dsimp only
  rw [if_pos hopened, hused, hsum]
  exact ⟨iob, rfl, hused, hmemory⟩

/-- The position does not leave the largest file. -/
theorem Accounts.pos_lt {sin : SfsInode} (h : Accounts sin pos len write ret io)
    (hpos : pos < 2 ^ 63) : pos + io.alen < 2 ^ 63 := by
  have hle := h.alen_le
  unfold request at hle
  unfold SFS_MAX_FILE_SIZE at hle
  dsimp only at hle
  split at hle <;> omega

theorem ioAccounts_iff_accounts (hopened : file.status = .opened)
    (hpos : -2 ^ 63 ≤ file.pos ∧ file.pos < 2 ^ 63) :
    IoAccounts v ino file memory base len write ↔
      ∃ ret io, sfsIoNolock v.mount.sfs (v.inode ino) memory base file.pos len write =
        .ok (ret, io) ∧ Accounts (v.inode ino) file.pos len write ret io := by
  constructor
  · rintro ⟨ret, io, hcall, haccounts, -⟩
    exact ⟨ret, io, hcall, haccounts⟩
  · rintro ⟨ret, io, hcall, haccounts⟩
    rcases fileIo_eq hopened hpos.1 (haccounts.pos_lt hpos.2) hcall
      (haccounts.alen_le.trans (request_le ..)) with ⟨iob, hio, -⟩
    exact ⟨ret, io, hcall, haccounts, _, iob, hio⟩

/-- The accounts of a call are in order exactly when it is a read or a write that can be booked. -/
theorem ioAccounts_iff (v : Volume) (ino : ℕ) (hintact : Intact v.mount) (hino : ino ∈ v.mount.inos)
    (hfile : RegularFile (v.inode ino)) (file : File) (hopened : file.status = .opened)
    (hpos : -2 ^ 63 ≤ file.pos ∧ file.pos < 2 ^ 63)
    (hfirst : file.pos.toNat / SFS_BLKSIZE ≤ (v.inode ino).blocks) (memory : Bytes) (base len : ℕ)
    (hlen : len < 2 ^ 64) (write : Bool) :
    IoAccounts v ino file memory base len write ↔
      (write = true → Bookable v.mount.sfs (v.inode ino) file.pos len) := by
  rw [ioAccounts_iff_accounts hopened hpos]
  exact accounts_iff (hintact.consistent.owns hino) hintact.ranged hfile hlen hfirst

theorem regularFile_emptyFile : RegularFile emptyFile := ⟨rfl, rfl⟩

/-- A descriptor of the empty file. -/
def emptyFd (pos : ℤ) : File := ⟨.opened, true, true, pos, 1⟩

/-- The first byte of a file on a disk with room for it. -/
theorem ioAccounts_firstByte :
    IoAccounts ⟨emptyDisk 7, fun _ ↦ emptyFile⟩ 3 (emptyFd 0) (fun _ ↦ 0) 0 1 true ↔
      (true = true → Bookable (emptySfs 7) emptyFile 0 1) :=
  ioAccounts_iff ⟨emptyDisk 7, fun _ ↦ emptyFile⟩ 3 (intact_emptyDisk (by decide) (by decide))
    (List.mem_singleton.mpr rfl) regularFile_emptyFile (emptyFd 0) rfl (by decide) (by decide) _ _ _
    (by decide) true

/-- One byte at the position 100 of an empty file on a full disk: none is written, and the size
is 100. -/
theorem not_ioAccounts_beyond : ¬∀ (v : Volume) (ino : ℕ), Intact v.mount → ino ∈ v.mount.inos →
    RegularFile (v.inode ino) → ∀ file : File, file.status = .opened →
    -2 ^ 63 ≤ file.pos ∧ file.pos < 2 ^ 63 →
    file.pos.toNat / SFS_BLKSIZE ≤ (v.inode ino).blocks → ∀ (memory : Bytes) (base len : ℕ),
    len < 2 ^ 64 → ∀ write, IoAccounts v ino file memory base len write := by
  intro h
  have hintact : Intact (emptyDisk 4) := intact_emptyDisk (by decide) (by decide)
  have hino : 3 ∈ (emptyDisk 4).inos := List.mem_singleton.mpr rfl
  have haccounts := h ⟨emptyDisk 4, fun _ ↦ emptyFile⟩ 3 hintact hino regularFile_emptyFile
    (emptyFd 100) rfl (by decide) (by decide) (fun _ ↦ 0) 0 1 (by decide) true
  rcases haccounts with ⟨ret, io, hcall, haccounts, -⟩
  have hbookable : Bookable (emptySfs 4) emptyFile 100 1 :=
    (accounts_iff (hintact.consistent.owns hino) hintact.ranged regularFile_emptyFile (by decide)
      (by decide)).mp ⟨ret, io, hcall, haccounts⟩ rfl
  have hcapacity : capacity (emptySfs 4) emptyFile = 0 := by
    rw [capacity_emptyDisk (by decide)]
    rfl
  rcases (hbookable 101 ⟨rfl, by decide⟩).2 with hsize | hroom
  · exact absurd hsize (by decide)
  · rw [hcapacity] at hroom
    exact absurd hroom (by decide)

end Position

end Ucore.Fs
