import Ucore.Fs.File
import Ucore.Fs.SfsAtomic
import Ucore.Fs.SfsIo

/-!
# What the operations do to a file

For each operation on the inode of a regular file: which files it leaves as they are, and what the
size and the number of blocks are afterwards. Reading leaves everything as it is when the file has
the blocks for its size.
-/

namespace Ucore.Fs

open Library

/-! ## Reading -/

section Read

variable {s : SfsFs} {sin : SfsInode} {rest : ℕ → Prop} {io : Io} {offset endpos : ℕ}

/-- The file system and the inode are as they were. -/
def Untouched (io : Io) (result : Ret Unit × Io) : Prop :=
  result.2.fs = io.fs ∧ result.2.sin = io.sin

theorem load_of_lt (howns : Owns io.fs io.sin rest) (hlt : io.blkno < io.sin.blocks)
    (next : ℕ → Io → Outcome (Ret Unit × Io)) :
    io.load next = next (blockAt io.fs io.sin io.blkno) io := by
  rw [Io.load, sfsBmapLoadNolock_eq howns hlt]
  rfl

theorem untouched_sfsBufOp (h : Geometry io.fs) (buf len ino o : ℕ) :
    Ensures (sfsBufOp false io buf len ino o) fun result ↦
      Untouched io result ∧ result.2.blkno = io.blkno := by
  refine (sfsBufOp_spec h).mono ?_
  rintro ⟨ret, io'⟩ ⟨-, -, hmoved⟩
  have hstore : io' = io.store buf len fun index ↦ io.fs.dev.block ino (o + index) := hmoved
  rw [hstore]
  exact ⟨⟨rfl, rfl⟩, rfl⟩

theorem untouched_sfsBlockOp (h : Geometry io.fs) (buf ino : ℕ) :
    Ensures (sfsBlockOp false io buf ino) fun result ↦
      Untouched io result ∧ result.2.blkno = io.blkno := by
  refine (sfsBlockOp_spec h).mono ?_
  rintro ⟨ret, io'⟩ ⟨-, -, hmoved⟩
  have hstore : io' = io.store buf SFS_BLKSIZE fun index ↦ io.fs.dev.block ino (0 + index) := hmoved
  rw [hstore]
  exact ⟨⟨rfl, rfl⟩, rfl⟩

theorem untouched_andThen {part : Outcome (Ret Unit × Io)} {next : Io → Outcome (Ret Unit × Io)}
    {blkno : ℕ} (hpart : Ensures part fun result ↦ Untouched io result ∧ result.2.blkno = blkno)
    (hnext : ∀ io', io'.fs = io.fs → io'.sin = io.sin → io'.blkno = blkno →
      Ensures (next io') (Untouched io)) : Ensures (Io.andThen part next) (Untouched io) := by
  refine Io.andThen_spec hpart ?_ ?_
  · intro code io' hresult
    exact hresult.1
  · intro io' hresult
    exact hnext io' hresult.1.1 hresult.1.2 hresult.2

theorem untouched_sfsIoFirst (howns : Owns io.fs io.sin rest) (hlt : io.blkno < io.sin.blocks)
    (blkoff size : ℕ) : Ensures (sfsIoFirst false io blkoff size) fun result ↦
      Untouched io result ∧ result.2.blkno = io.blkno := by
  rw [sfsIoFirst, load_of_lt howns hlt]
  refine Io.andThen_spec (untouched_sfsBufOp howns.geometry _ _ _ _) ?_ ?_
  · intro code io' hresult
    exact hresult
  · intro io' hresult
    exact Ensures.ok_iff.mpr hresult

theorem untouched_sfsIoBlocks (howns : Owns io.fs io.sin rest) {count : ℕ}
    (hle : io.blkno + count ≤ io.sin.blocks) :
    Ensures (sfsIoBlocks false count io) fun result ↦ Untouched io result ∧
      (result.1 = .ok () → result.2.blkno = io.blkno + count) := by
  induction count generalizing io with
  | zero => exact Ensures.ok_iff.mpr ⟨⟨rfl, rfl⟩, fun _ ↦ rfl⟩
  | succ count ih =>
    rw [sfsIoBlocks, load_of_lt howns (by omega)]
    refine Io.andThen_spec (untouched_sfsBlockOp howns.geometry _ _) ?_ ?_
    · intro code io' hresult
      exact ⟨hresult.1, fun herror ↦ by cases herror⟩
    · intro io' hresult
      rcases hresult with ⟨⟨hfs, hsin⟩, hblkno⟩
      dsimp only at hfs hsin hblkno
      let io'' : Io := { io' with
        alen := io'.alen + SFS_BLKSIZE, buf := io'.buf + SFS_BLKSIZE, blkno := io'.blkno + 1 }
      have howns' : Owns io''.fs io''.sin rest := by
        dsimp only [io'']
        rwa [hfs, hsin]
      have hle' : io''.blkno + count ≤ io''.sin.blocks := by
        dsimp only [io'']
        rw [hsin, hblkno]
        omega
      refine (ih howns' hle').mono ?_
      rintro result ⟨⟨hfs', hsin'⟩, hblkno'⟩
      refine ⟨⟨hfs'.trans hfs, hsin'.trans hsin⟩, fun hok ↦ ?_⟩
      have hcount : result.2.blkno = io'.blkno + 1 + count := hblkno' hok
      omega

theorem untouched_sfsIoLast (howns : Owns io.fs io.sin rest)
    (hlt : endpos % SFS_BLKSIZE ≠ 0 → io.blkno < io.sin.blocks) :
    Ensures (sfsIoLast false io endpos) (Untouched io) := by
  unfold sfsIoLast
  by_cases hlast : endpos % SFS_BLKSIZE = 0
  · rw [if_neg (not_not.mpr hlast)]
    exact Ensures.ok_iff.mpr ⟨rfl, rfl⟩
  · rw [if_pos hlast, load_of_lt howns (hlt hlast)]
    refine untouched_andThen (untouched_sfsBufOp howns.geometry _ _ _ _) ?_
    intro io' hfs hsin _
    exact Ensures.ok_iff.mpr ⟨hfs, hsin⟩

theorem untouched_sfsIoParts (howns : Owns io.fs io.sin rest) (hblkno : io.blkno = offset / SFS_BLKSIZE)
    (hlt : offset < endpos) (hle : blocksFor endpos ≤ io.sin.blocks) :
    Ensures (sfsIoParts false io offset endpos) (Untouched io) := by
  have hend : endpos / SFS_BLKSIZE ≤ io.sin.blocks := by
    unfold blocksFor SFS_BLKSIZE at *
    omega
  have hlast : endpos % SFS_BLKSIZE ≠ 0 → endpos / SFS_BLKSIZE < io.sin.blocks := by
    unfold blocksFor SFS_BLKSIZE at *
    omega
  have hfirst : offset / SFS_BLKSIZE ≤ endpos / SFS_BLKSIZE := Nat.div_le_div_right hlt.le
  -- the loop and the last part, from any state with the same file
  have htail : ∀ (count : ℕ) (io' : Io), io'.fs = io.fs → io'.sin = io.sin →
      io'.blkno + count = endpos / SFS_BLKSIZE →
      Ensures (Io.andThen (sfsIoBlocks false count io') fun io'' ↦ sfsIoLast false io'' endpos)
        (Untouched io) := by
    intro count io' hfs hsin hcount
    have howns' : Owns io'.fs io'.sin rest := by rw [hfs, hsin]; exact howns
    refine Io.andThen_spec (untouched_sfsIoBlocks howns' (by rw [hsin, hcount]; exact hend)) ?_ ?_
    · intro code io'' hresult
      exact ⟨hresult.1.1.trans hfs, hresult.1.2.trans hsin⟩
    · intro io'' hresult
      rcases hresult with ⟨⟨hfs', hsin'⟩, hblkno'⟩
      dsimp only at hfs' hsin' hblkno'
      have howns'' : Owns io''.fs io''.sin rest := by rw [hfs', hsin']; exact howns'
      have hmod : endpos % SFS_BLKSIZE ≠ 0 → io''.blkno < io''.sin.blocks := by
        intro hmod
        rw [hblkno' rfl, hcount, hsin', hsin]
        exact hlast hmod
      refine (untouched_sfsIoLast howns'' hmod).mono ?_
      rintro result ⟨hfs'', hsin''⟩
      exact ⟨hfs''.trans (hfs'.trans hfs), hsin''.trans (hsin'.trans hsin)⟩
  unfold sfsIoParts
  by_cases haligned : offset % SFS_BLKSIZE = 0
  · simp only [haligned, ne_eq, not_true_eq_false, if_false]
    exact htail _ io rfl rfl (by omega)
  · have hslot : io.blkno < io.sin.blocks := by
      unfold blocksFor SFS_BLKSIZE at *
      omega
    simp only [haligned, ne_eq, not_false_eq_true, if_true]
    refine untouched_andThen (untouched_sfsIoFirst howns hslot _ _) ?_
    intro io' hfs hsin hblkno'
    split
    · exact Ensures.ok_iff.mpr ⟨hfs, hsin⟩
    · exact htail _ { io' with blkno := io'.blkno + 1 } hfs hsin (by dsimp only; omega)

/-- The blocks for the size of the file are there. -/
def Covered (sin : SfsInode) : Prop := blocksFor sin.size ≤ sin.blocks

variable {memory : Bytes} {buf len : ℕ} {start : ℤ}

theorem blocksFor_mono {pos : ℕ} (h : pos ≤ endpos) : blocksFor pos ≤ blocksFor endpos := by
  unfold blocksFor SFS_BLKSIZE
  omega

/-- A read of a covered file changes nothing and stays in the file. -/
theorem sfsIoNolock_read (howns : Owns s sin rest) (hranged : Ranged s) (hcovered : Covered sin)
    {ret : Ret Unit} (hcall : sfsIoNolock s sin memory buf start len false = .ok (ret, io)) :
    io.fs = s ∧ io.sin = sin ∧ (io.alen ≠ 0 → 0 ≤ start ∧ start.toNat + io.alen ≤ sin.size) := by
  have htype : sin.type ≠ SFS_TYPE_DIR := by
    rcases Outcome.bind_eq_ok.mp hcall with ⟨_, hrequire, -⟩
    exact Outcome.require_eq_ok.mp hrequire
  by_cases hnone : ∃ endpos, Moves sin start len false endpos
  · rcases hnone with ⟨endpos, hmoves⟩
    have hstart := le_of_sfsIoEndpos hmoves.1
    have hlt : start.toNat < endpos := lt_of_le_of_ne hstart.2 hmoves.2
    have hsize : endpos ≤ sin.size := (le_size_of_read hmoves.1).resolve_left hmoves.2.symm
    have hstop : blocksFor endpos ≤ sin.blocks := (blocksFor_mono hsize).trans hcovered
    have hfirst : start.toNat / SFS_BLKSIZE ≤ sin.blocks := by
      unfold blocksFor SFS_BLKSIZE at *
      omega
    rcases sfsIoNolock_written howns hranged htype hmoves hfirst
      (Or.inl (hstop.trans howns.blocks_le)) with ⟨ret', io', hio, -, hplace, -⟩
    cases hio.symm.trans hcall
    have hreach : reach s sin start.toNat endpos ≤ endpos := reach_le hlt
    rw [sfsIoNolock_moves htype hmoves] at hcall
    rcases Outcome.bind_eq_ok.mp hcall with ⟨⟨ret'', io''⟩, hparts, hout⟩
    let io : Io := ⟨s, sin, memory, [], buf, 0, start.toNat / SFS_BLKSIZE⟩
    have hinside : Owns io.fs io.sin rest := howns
    have hsame := untouched_sfsIoParts hinside rfl hlt hstop _ hparts
    have hfs : io''.fs = s := hsame.1
    have hsin : io''.sin = sin := hsame.2
    cases hout
    have halen := (sfsIoOut_same io'' start.toNat).2.1
    have hsize' : ¬io''.sin.size < start.toNat + io''.alen := by
      rw [hsin]
      omega
    rw [sfsIoOut, if_neg hsize'] at hplace ⊢
    exact ⟨hfs, hsin, fun _ ↦ ⟨hstart.1, by omega⟩⟩
  · rcases sfsIoNolock_none htype (not_exists.mp hnone) with ⟨ret', io', hio, hfs, hsin, halen⟩
    cases hio.symm.trans hcall
    exact ⟨hfs, hsin, fun hne ↦ absurd halen hne⟩

end Read

/-! ## Volumes -/

/-- A regular file of an intact volume that has the blocks for its size. -/
structure SoundFile (ino : ℕ) (v : Volume) : Prop where
  intact : Intact v.mount
  mem : ino ∈ v.mount.inos
  type : (v.inode ino).type = SFS_TYPE_FILE
  size_lt : (v.inode ino).size < 2 ^ 32
  covered : Covered (v.inode ino)

section Volume

variable {ino : ℕ} {v v' : Volume} {sfs : SfsFs} {sin : SfsInode}

theorem Volume.set_inode (v : Volume) (ino : ℕ) (sfs : SfsFs) (sin : SfsInode) :
    (v.set ino sfs sin).inode ino = sin := Mount.set_inode_self ..

theorem Volume.set_inode_of_ne {other : ℕ} (h : other ≠ ino) (v : Volume) (sfs : SfsFs)
    (sin : SfsInode) : (v.set ino sfs sin).inode other = v.inode other :=
  Mount.set_inode_of_ne h ..

/-- Storing what is there. -/
theorem Volume.set_self (v : Volume) (ino : ℕ) : v.set ino v.mount.sfs (v.inode ino) = v := by
  unfold Volume.set Mount.set Volume.inode
  rw [Function.update_eq_self]

namespace SoundFile

theorem owns (h : SoundFile ino v) :
    Owns v.mount.sfs (v.inode ino) (v.mount.rest ino) := h.intact.consistent.owns h.mem

theorem ne_dir (h : SoundFile ino v) : (v.inode ino).type ≠ SFS_TYPE_DIR := by
  rw [h.type]
  decide

theorem set (h : SoundFile ino v) (hstep : Step v.mount (v.mount.set ino sfs sin))
    (htype : sin.type = (v.inode ino).type) (hsize : sin.size < 2 ^ 32) (hcovered : Covered sin) :
    SoundFile ino (v.set ino sfs sin) where
  intact := h.intact.step hstep
  mem := h.mem
  type := by
    rw [Volume.set_inode, htype, h.type]
  size_lt := by
    rw [Volume.set_inode]
    exact hsize
  covered := by
    rw [Volume.set_inode]
    exact hcovered

end SoundFile

variable {memory : Bytes} {base len : ℕ} {pos : ℤ} {iob : Iobuf} {ret : Ret ℕ}

/-- The call of `sfs_io_nolock` inside of `sfs_io`. -/
theorem Volume.sfsIo_ok {write : Bool}
    (hcall : v.sfsIo write ino (iobufInit memory base len pos) = .ok (ret, iob, v')) :
    ∃ code io, sfsIoNolock v.mount.sfs (v.inode ino) memory base pos len write = .ok (code, io) ∧
      v' = v.set ino io.fs io.sin ∧ iobufUsed iob = io.alen := by
  rcases Outcome.bind_eq_ok.mp hcall with ⟨⟨code, io⟩, hio, hcall⟩
  refine ⟨code, io, hio, ?_⟩
  dsimp only at hcall
  split at hcall
  · rcases Outcome.bind_eq_ok.mp hcall with ⟨skipped, hskip, heq⟩
    rcases Outcome.bind_eq_ok.mp hskip with ⟨_, hle, hskip⟩
    have hle : io.alen ≤ len := Outcome.require_eq_ok.mp hle
    cases heq
    cases hskip
    exact ⟨rfl, Nat.sub_sub_self hle⟩
  · rename_i hzero
    cases heq : hcall
    rw [not_not.mp hzero]
    exact ⟨rfl, Nat.sub_self _⟩

theorem SoundFile.read (h : SoundFile ino v)
    (hcall : v.sfsRead ino (iobufInit memory base len pos) = .ok (ret, iob, v')) :
    v' = v ∧ (iobufUsed iob ≠ 0 → 0 ≤ pos ∧ pos.toNat + iobufUsed iob ≤ (v.inode ino).size) := by
  rcases Volume.sfsIo_ok hcall with ⟨code, io, hio, rfl, hused⟩
  rcases sfsIoNolock_read h.owns h.intact.ranged h.covered hio with ⟨hfs, hsin, hsize⟩
  rw [hfs, hsin, Volume.set_self, hused]
  exact ⟨rfl, hsize⟩

/-- A write beyond the end of a file without blocks, with no room for one. -/
def Hangs (s : SfsFs) (sin : SfsInode) (pos : ℤ) : Prop := sin.size < pos.toNat ∧ capacity s sin = 0

theorem SoundFile.write (h : SoundFile ino v)
    (hplace : pos.toNat ≤ (v.inode ino).size ∨ pos.toNat < SFS_BLKSIZE)
    (hhang : ¬Hangs v.mount.sfs (v.inode ino) pos)
    (hcall : v.sfsWrite ino (iobufInit memory base len pos) = .ok (ret, iob, v')) :
    SoundFile ino v' ∧ (v.inode ino).size ≤ (v'.inode ino).size ∧
      (iobufUsed iob ≠ 0 → 0 ≤ pos ∧ pos.toNat + iobufUsed iob ≤ (v'.inode ino).size) := by
  rcases Volume.sfsIo_ok hcall with ⟨code, io, hio, rfl, hused⟩
  have hstep : Step v.mount (v.mount.set ino io.fs io.sin) := .io h.mem hio
  rw [Volume.set_inode, hused]
  by_cases hnone : ∃ endpos, Moves (v.inode ino) pos len true endpos
  · rcases hnone with ⟨endpos, hmoves⟩
    rcases (completes_sfsIoNolock_iff h.owns h.intact.ranged h.ne_dir memory base pos len true).mp
      ⟨_, hio⟩ endpos hmoves with ⟨hfirst, hfits⟩
    rcases sfsIoNolock_written h.owns h.intact.ranged h.ne_dir hmoves hfirst hfits with
      ⟨code', io', hio', hwritten, halen, -⟩
    cases hio'.symm.trans hio
    have hstart := le_of_sfsIoEndpos hmoves.1
    have hlt : pos.toNat < endpos := lt_of_le_of_ne hstart.2 hmoves.2
    have hmax := (sfsIoEndpos_le hmoves.1).2
    have hreach : reach v.mount.sfs (v.inode ino) pos.toNat endpos ≤ endpos := reach_le hlt
    have hsize := hwritten.size
    have hsizeLt := h.size_lt
    have hcovered := h.covered
    have hcap := le_capacity (s := v.mount.sfs) h.owns.blocks_le
    refine ⟨h.set hstep hwritten.type ?_ ?_, by omega, fun _ ↦ ⟨hstart.1, by omega⟩⟩
    · unfold SFS_MAX_FILE_SIZE at hmax
      omega
    · -- the blocks for the new size, in the two cases of `reach`
      have hblocks := hwritten.blocks
      unfold Hangs at hhang
      unfold Covered at hcovered ⊢
      rw [hsize, hblocks]
      unfold reach
      unfold blocksFor SFS_BLKSIZE at *
      split <;> omega
  · rcases sfsIoNolock_none h.ne_dir (not_exists.mp hnone) with ⟨code', io', hio', hfs, hsin, halen⟩
    cases hio'.symm.trans hio
    rw [hsin]
    refine ⟨?_, le_rfl, fun hne ↦ absurd halen hne⟩
    rw [hfs, Volume.set_self]
    exact h

theorem accepted_lt {len : ℤ} (h : Accepted len) : len.toNat < 2 ^ 32 := by
  have hmax := h.2
  unfold SFS_MAX_FILE_SIZE at hmax
  omega

theorem SoundFile.resized (h : SoundFile ino v) {len : ℤ} (haccepted : Accepted len)
    (hstep : Step v.mount (v.mount.set ino sfs sin))
    (hresized : Resized v.mount.sfs (v.inode ino) (v.mount.rest ino) len.toNat sfs sin) :
    SoundFile ino (v.set ino sfs sin) := by
  apply h.set hstep hresized.type
  · rw [hresized.size]
    exact accepted_lt haccepted
  · rw [Covered, hresized.size, hresized.blocks]

/-- A change of length that comes back, also when it strands the file. -/
theorem SoundFile.truncfile (h : SoundFile ino v) {len : ℤ} {code : Ret Unit}
    (hcall : v.sfsTruncfile ino len = .ok (code, v')) : SoundFile ino v' ∧
      (code = .ok () → (v'.inode ino).size = len.toNat ∧ Accepted len ∧
        (v'.inode ino).blocks = blocksFor len.toNat) ∧
      (code ≠ .ok () → (v'.inode ino).size = (v.inode ino).size) := by
  rcases Outcome.bind_eq_ok.mp hcall with ⟨⟨code, sfs, sin⟩, htruncate, heq⟩
  cases heq
  have hstep : Step v.mount (v.mount.set ino sfs sin) := .truncfile h.mem htruncate
  rw [Volume.set_inode]
  have hself : Volume.set v ino v.mount.sfs (v.inode ino) = v := Volume.set_self v ino
  by_cases haccepted : Accepted len
  · by_cases hsize : (v.inode ino).size = len.toNat
    · rw [sfsTruncfile_same haccepted hsize] at htruncate
      rcases Outcome.bind_eq_ok.mp htruncate with ⟨_, hrequire, heq⟩
      have hblocks := Outcome.require_eq_ok.mp hrequire
      cases heq
      rw [hself]
      exact ⟨h, fun _ ↦ ⟨hsize, haccepted, hblocks.symm⟩, fun hne ↦ absurd rfl hne⟩
    · rcases sfsTruncfile_cases h.owns h.intact.ranged haccepted hsize htruncate with
        ⟨rfl, hresized⟩ | ⟨rfl, rfl, -⟩ | ⟨rfl, -, hgrown⟩
      · exact ⟨h.resized haccepted hstep hresized,
          fun _ ↦ ⟨hresized.size, haccepted, hresized.blocks⟩, fun hne ↦ absurd rfl hne⟩
      · exact ⟨h.set hstep rfl h.size_lt h.covered, nofun, fun _ ↦ rfl⟩
      · refine ⟨h.set hstep hgrown.grows.type ?_ ?_, nofun, fun _ ↦ hgrown.grows.size⟩
        · rw [hgrown.grows.size]
          exact h.size_lt
        · rw [Covered, hgrown.grows.size]
          exact h.covered.trans hgrown.grows.blocks_le
  · rw [sfsTruncfile_inval haccepted] at htruncate
    cases htruncate
    rw [hself]
    exact ⟨h, nofun, fun _ ↦ rfl⟩

theorem SoundFile.seek (h : SoundFile ino v) {code : Ret Unit}
    (hcall : v.sfsTryseek ino pos = .ok (code, v')) : SoundFile ino v' ∧
      (v.inode ino).size ≤ (v'.inode ino).size ∧
      (code = .ok () → 0 ≤ pos ∧ pos.toNat ≤ (v'.inode ino).size) := by
  rcases Outcome.bind_eq_ok.mp hcall with ⟨⟨code, sfs, sin⟩, hseek, heq⟩
  cases heq
  have hself : Volume.set v ino v.mount.sfs (v.inode ino) = v := Volume.set_self v ino
  rw [Ucore.Fs.sfsTryseek] at hseek
  split at hseek
  · cases hseek
    rw [hself]
    exact ⟨h, le_rfl, fun herror ↦ by cases herror⟩
  · rename_i hvalid
    split at hseek
    · rename_i hmore
      have htruncate : v.sfsTruncfile ino pos = .ok (code, v.set ino sfs sin) := by
        rw [Volume.sfsTruncfile, hseek]
        rfl
      rcases h.truncfile htruncate with ⟨hsound, hok, herror⟩
      refine ⟨hsound, ?_, fun hcode ↦ ⟨by omega, (hok hcode).1.ge⟩⟩
      by_cases hcode : code = .ok ()
      · rw [(hok hcode).1]
        omega
      · exact (herror hcode).ge
    · cases hseek
      rw [hself]
      exact ⟨h, le_rfl, fun _ ↦ ⟨by omega, by omega⟩⟩

/-- Synchronizing an inode changes nothing of it but the mark that it was changed. -/
theorem Volume.sfsFsync_ok {code : Ret Unit} (hcall : v.sfsFsync ino = .ok (code, v')) :
    v'.mount = v.mount ∨ v'.mount = v.mount.set ino v.mount.sfs { v.inode ino with dirty := false } := by
  unfold Volume.sfsFsync at hcall
  split at hcall
  · rcases Outcome.bind_eq_ok.mp hcall with ⟨target, -, hcall⟩
    cases target with
    | error code =>
      cases hcall
      exact Or.inl rfl
    | ok target =>
      cases hcall
      exact Or.inr rfl
  · cases hcall
    exact Or.inl rfl

theorem SoundFile.of_mount (h : SoundFile ino v) (heq : v'.mount = v.mount) : SoundFile ino v' := by
  rcases h with ⟨hintact, hmem, htype, hsize, hcovered⟩
  unfold Volume.inode at *
  rw [← heq] at hintact hmem htype hsize hcovered
  exact ⟨hintact, hmem, htype, hsize, hcovered⟩

theorem SoundFile.fsync (h : SoundFile ino v) {code : Ret Unit}
    (hcall : v.sfsFsync ino = .ok (code, v')) :
    SoundFile ino v' ∧ (v'.inode ino).size = (v.inode ino).size := by
  rcases Volume.sfsFsync_ok hcall with heq | heq
  · refine ⟨h.of_mount heq, ?_⟩
    rw [Volume.inode, heq]
    rfl
  · have hkept : Kept v.mount.sfs (v.mount.rest ino) v.mount.sfs
        { v.inode ino with dirty := false } :=
      ⟨h.owns.of_fields rfl rfl rfl, Keeps.refl ..⟩
    have hintact : Intact (v.mount.set ino v.mount.sfs { v.inode ino with dirty := false }) :=
      ⟨h.intact.consistent.set h.mem hkept, h.intact.ranged⟩
    have hset : SoundFile ino (v.set ino v.mount.sfs { v.inode ino with dirty := false }) := by
      refine ⟨hintact, h.mem, ?_, ?_, ?_⟩ <;> rw [Volume.set_inode]
      · exact h.type
      · exact h.size_lt
      · exact h.covered
    refine ⟨hset.of_mount heq, ?_⟩
    rw [Volume.inode, heq, Mount.set_inode_self]

/-- A request to another inode leaves the file alone. -/
theorem SoundFile.other (h : SoundFile ino v) {other : ℕ} (hother : other ∈ v.mount.inos)
    (hne : other ≠ ino) {request : Request} {code : Ret Unit} {next : Mount}
    (hanswers : Answers v.mount other request code next) :
    SoundFile ino { v with mount := next } ∧ next.inode ino = v.inode ino := by
  have hintact := h.intact.step (hanswers.step hother)
  rcases hanswers with ⟨sfs, sin, -, rfl⟩
  have hinode : (v.mount.set other sfs sin).inode ino = v.inode ino :=
    Mount.set_inode_of_ne (Ne.symm hne) ..
  refine ⟨⟨hintact, h.mem, ?_, ?_, ?_⟩, hinode⟩ <;> rw [Volume.inode, hinode]
  · exact h.type
  · exact h.size_lt
  · exact h.covered

end Volume

end Ucore.Fs
