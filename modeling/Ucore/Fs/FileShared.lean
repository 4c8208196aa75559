import Ucore.Fs.FileOps
import Ucore.Fs.SfsLoads

/-!
# One file with several openers

A descriptor keeps its position when another opener truncates the file. The transfers through a
descriptor stay in reach of the block map when no open truncates the file while some writable
descriptor is beyond its first block. Reads then find the blocks that they need, and leave the file
system alone.
-/

namespace Ucore.Fs

open Library

/-- An open that changes the length of the file that it finds. -/
def Truncates (openFlags : BitVec 32) : Prop :=
  vfsOpenCheck openFlags = .ok () ∧ ¬(Has openFlags O_EXCL ∧ Has openFlags O_CREAT) ∧
    (Has openFlags O_TRUNC ∨ Has openFlags O_CREAT)

section Calls

variable {Fd : Type} [DecidableEq Fd]

/-- What a call of a process asks of the inode. -/
inductive Asks (ino : ℕ) (w : Holders Fd) : FileCall Fd → Request → Prop where
  | open {fd : Fd} {openFlags : BitVec 32} (hfree : w.files fd = none)
    (htruncates : Truncates openFlags) : Asks ino w (.open fd openFlags) (.truncate 0)
  | read {fd : Fd} {file : File} {memory : Bytes} {base len : ℕ} (hfile : w.files fd = some file)
    (hreadable : file.readable) :
    Asks ino w (.read fd memory base len) (.transfer memory base file.pos len false)
  | write {fd : Fd} {file : File} {memory : Bytes} {base len : ℕ} (hfile : w.files fd = some file)
    (hwritable : file.writable) :
    Asks ino w (.write fd memory base len) (.transfer memory base file.pos len true)
  | seek {fd : Fd} {file : File} {pos whence target : ℤ} (hfile : w.files fd = some file)
    (htarget : seekTarget (Volume.sfsFstat ino) w.volume file pos whence = .ok (.ok target)) :
    Asks ino w (.seek fd pos whence) (.seek target)

/-- Every call keeps to the block map, and a read leaves the file system as it is. -/
structure Harmless (ino : ℕ) (w : Holders Fd) : Prop where
  inside : ∀ call request, Asks ino w call request →
    request.LoadsInside w.volume.mount.sfs (w.volume.inode ino)
  read : ∀ fd memory base len ret next, w.call ino (.read fd memory base len) = .ok (ret, next) →
    next.volume = w.volume

/-- A call on the file, or a request to another inode of its file system, that was answered. -/
inductive SharedStep (ino : ℕ) (w : Holders Fd) : FileCall Fd ⊕ ℕ × Request → Holders Fd → Prop where
  | call {call : FileCall Fd} {ret : Ret ℕ} {next : Holders Fd}
    (hcall : w.call ino call = .ok (ret, next)) : SharedStep ino w (.inl call) next
  | other {other : ℕ} {request : Request} {ret : Ret Unit} {next : Mount}
    (hmem : other ∈ w.volume.mount.inos) (hne : other ≠ ino)
    (hanswers : Answers w.volume.mount other request ret next) :
    SharedStep ino w (.inr (other, request)) { w with volume := { w.volume with mount := next } }

/-- A truncating open finds no writable descriptor beyond the first block, and no write finds a
file without blocks that ends before its position, with no block to be had. -/
def Considerate (ino : ℕ) (w : Holders Fd) : FileCall Fd → Prop
  | .open fd openFlags => w.files fd = none → Truncates openFlags →
      ∀ holder file, w.files holder = some file → file.writable → file.pos < SFS_BLKSIZE
  | .write fd _ _ _ => ∀ file, w.files fd = some file → file.writable →
      ¬Hangs w.volume.mount.sfs (w.volume.inode ino) file.pos
  | _ => True

def ConsiderateStep (ino : ℕ) (w : Holders Fd) (label : FileCall Fd ⊕ ℕ × Request)
    (next : Holders Fd) : Prop :=
  SharedStep ino w label next ∧ ∀ call, label = .inl call → Considerate ino w call

/-! ## Positions -/

/-- A position that a write can start from in a file of the given size. -/
structure Placed (size : ℕ) (file : File) : Prop where
  opened : file.status = .opened
  nonneg : 0 ≤ file.pos
  lt : file.pos < 2 ^ 32
  inside : file.writable → file.pos.toNat ≤ size ∨ file.pos.toNat < SFS_BLKSIZE

/-- What considerate steps preserve. -/
structure Guarded (ino : ℕ) (w : Holders Fd) : Prop where
  sound : SoundFile ino w.volume
  placed : ∀ fd file, w.files fd = some file → Placed (w.volume.inode ino).size file

section Positions

variable {ino size size' : ℕ} {file : File} {w next : Holders Fd} {v v' : Volume} {fd : Fd}
  {ret : Ret ℕ}

theorem Placed.mono (h : Placed size file) (hle : size ≤ size') : Placed size' file :=
  ⟨h.opened, h.nonneg, h.lt, fun hwritable ↦ (h.inside hwritable).imp_left hle.trans'⟩

/-- The position after a transfer that ends in the file. -/
theorem Placed.moved (h : Placed size file) (hle : size ≤ size') (hlt : size' < 2 ^ 32) {used : ℕ}
    (hused : used ≠ 0 → 0 ≤ file.pos ∧ file.pos.toNat + used ≤ size') :
    Placed size' { file with pos := int64 (file.pos + used) } := by
  have hnonneg := h.nonneg
  have hpos := h.lt
  by_cases hzero : used = 0
  · have hsame : int64 (file.pos + used) = file.pos := by
      rw [hzero, Nat.cast_zero, add_zero]
      unfold int64
      omega
    rw [hsame]
    exact h.mono hle
  · have hend := (hused hzero).2
    have hsame : int64 (file.pos + used) = file.pos + used := by
      unfold int64
      omega
    rw [hsame]
    refine ⟨h.opened, ?_, ?_, fun _ ↦ Or.inl ?_⟩ <;> dsimp only <;> omega

theorem Placed.sought (h : Placed size file) {pos : ℤ} (hnonneg : 0 ≤ pos)
    (hle : pos.toNat ≤ size') (hlt : size' < 2 ^ 32) : Placed size' { file with pos } := by
  refine ⟨h.opened, hnonneg, ?_, fun _ ↦ Or.inl hle⟩
  dsimp only
  omega

/-- A call has left a file in the table, and the inode has not become shorter. -/
theorem Guarded.put (h : Guarded ino w) (fd : Fd) (hsound : SoundFile ino v)
    (hle : (w.volume.inode ino).size ≤ (v.inode ino).size)
    (hplaced : Placed (v.inode ino).size file) : Guarded ino (w.put fd file v) := by
  refine ⟨hsound, fun other file' hfile ↦ ?_⟩
  have hfile : Function.update w.files fd (some file) other = some file' := hfile
  by_cases heq : other = fd
  · rw [heq, Function.update_self] at hfile
    cases hfile
    exact hplaced
  · rw [Function.update_of_ne heq] at hfile
    exact (h.placed other file' hfile).mono hle

omit [DecidableEq Fd] in
theorem Holders.withFile_ok {next : File → Outcome (Ret ℕ × Holders Fd)} {w' : Holders Fd}
    (hcall : w.withFile fd next = .ok (ret, w')) :
    w' = w ∨ ∃ file, w.files fd = some file ∧ next file = .ok (ret, w') := by
  unfold Holders.withFile at hcall
  split at hcall
  · cases hcall
    exact Or.inl rfl
  · rename_i file hfile
    exact Or.inr ⟨file, hfile, hcall⟩

/-- `file_read` and `file_write` of an open file. -/
theorem fileIo_ok {vop : Volume → Iobuf → Outcome (Ret ℕ × Iobuf × Volume)} {memory : Bytes}
    {base len : ℕ} {iob : Iobuf} {file' : File} (hopened : file.status = .opened)
    (hcall : fileIo vop v file memory base len = .ok (ret, iob, file', v')) :
    vop v (iobufInit memory base len file.pos) = .ok (ret, iob, v') ∧
      file' = { file with pos := int64 (file.pos + iobufUsed iob) } := by
  rcases Outcome.bind_eq_ok.mp hcall with ⟨⟨ret', iob', v''⟩, hvop, hrest⟩
  dsimp only at hrest
  rw [if_pos hopened] at hrest
  cases hrest
  exact ⟨hvop, rfl⟩

/-- How `file_open` comes back. -/
structure Opens (ino : ℕ) (v : Volume) (openFlags : BitVec 32) (ret : Ret File) (v' : Volume) :
    Prop where
  volume : ¬Truncates openFlags ∧ v' = v ∨ Truncates openFlags ∧
    ∃ code, v.sfsTruncfile ino 0 = .ok (code, v') ∧ ∀ file, ret = .ok file → code = .ok ()
  file : ∀ file, ret = .ok file → file.status = .opened ∧
    accessMode openFlags = .ok (file.readable, file.writable) ∧
      (file.pos = 0 ∨ file.pos = (v'.inode ino).size)

theorem sfsFstat_ok (hcall : v.sfsFstat ino = .ok ret) : ret = .ok (v.inode ino).size := by
  rcases Outcome.bind_eq_ok.mp hcall with ⟨_, -, heq⟩
  cases heq
  rfl

theorem fileOpenPos_ok {openFlags : BitVec 32} {pos : Ret ℤ}
    (hcall : fileOpenPos (Volume.sfsFstat ino) v openFlags = .ok pos) :
    pos = .ok 0 ∨ pos = .ok ((v.inode ino).size : ℤ) := by
  unfold fileOpenPos at hcall
  split at hcall
  · rcases Outcome.bind_eq_ok.mp hcall with ⟨stat, hstat, hrest⟩
    rw [sfsFstat_ok hstat] at hrest
    cases hrest
    exact Or.inr rfl
  · cases hcall
    exact Or.inl rfl

theorem openFile_ok {openFlags : BitVec 32} {ret : Ret File}
    (hcall : openFile ino v openFlags = .ok (ret, v')) : Opens ino v openFlags ret v' := by
  unfold openFile at hcall
  cases hmode : accessMode openFlags with
  | error code =>
    have hrefused : ¬Truncates openFlags := by
      intro htruncates
      have hcheck := htruncates.1
      rw [vfsOpenCheck, hmode] at hcheck
      cases hcheck
    rw [hmode] at hcall
    cases hcall
    exact ⟨Or.inl ⟨hrefused, rfl⟩, nofun⟩
  | ok mode =>
    rcases mode with ⟨readable, writable⟩
    rw [hmode] at hcall
    dsimp only at hcall
    cases hcheck : vfsOpenCheck openFlags with
    | error code =>
      have hrefused : ¬Truncates openFlags := by
        intro htruncates
        cases hcheck.symm.trans htruncates.1
      rw [hcheck] at hcall
      cases hcall
      exact ⟨Or.inl ⟨hrefused, rfl⟩, nofun⟩
    | ok _ =>
      rw [hcheck] at hcall
      rcases Outcome.bind_eq_ok.mp hcall with ⟨⟨code, v''⟩, hfound, hrest⟩
      have hvolume : ¬Truncates openFlags ∧ v'' = v ∨ Truncates openFlags ∧
          v.sfsTruncfile ino 0 = .ok (code, v'') := by
        unfold vfsOpenFound at hfound
        split at hfound
        · rename_i hexists
          cases hfound
          exact Or.inl ⟨fun htruncates ↦ htruncates.2.1 hexists, rfl⟩
        · rename_i hnew
          rw [Outcome.ok_bind] at hfound
          dsimp only at hfound
          split at hfound
          · rename_i htrunc
            exact Or.inr ⟨⟨hcheck, hnew, htrunc⟩, hfound⟩
          · rename_i hkeep
            cases hfound
            exact Or.inl ⟨fun htruncates ↦ hkeep htruncates.2.2, rfl⟩
      cases code with
      | error code =>
        cases hrest
        refine ⟨hvolume.imp_right fun h ↦ ⟨h.1, _, h.2, nofun⟩, nofun⟩
      | ok _ =>
        rcases Outcome.bind_eq_ok.mp hrest with ⟨pos, hpos, hrest⟩
        rcases fileOpenPos_ok hpos with rfl | rfl
        · cases hrest
          refine ⟨hvolume.imp_right fun h ↦ ⟨h.1, _, h.2, fun _ _ ↦ rfl⟩, ?_⟩
          rintro file ⟨⟩
          exact ⟨rfl, hmode, Or.inl rfl⟩
        · cases hrest
          refine ⟨hvolume.imp_right fun h ↦ ⟨h.1, _, h.2, fun _ _ ↦ rfl⟩, ?_⟩
          rintro file ⟨⟩
          exact ⟨rfl, hmode, Or.inr rfl⟩

/-- `file_seek` of an open file. -/
theorem fileSeek_ok {pos whence : ℤ} {code : Ret Unit} {file' : File}
    (hcall : fileSeek (Volume.sfsFstat ino) (Volume.sfsTryseek ino) v file pos whence =
      .ok (code, file', v')) : ∃ target,
        seekTarget (Volume.sfsFstat ino) v file pos whence = .ok target ∧ match target with
          | .error _ => v' = v ∧ file' = file
          | .ok target => v.sfsTryseek ino target = .ok (code, v') ∧
              file' = if code = .ok () then { file with pos := target } else file := by
  rcases Outcome.bind_eq_ok.mp hcall with ⟨target, htarget, hrest⟩
  refine ⟨target, htarget, ?_⟩
  cases target with
  | error code =>
    cases hrest
    exact ⟨rfl, rfl⟩
  | ok target =>
    rcases Outcome.bind_eq_ok.mp hrest with ⟨⟨code', v''⟩, hseek, hrest⟩
    cases code' with
    | error code =>
      cases hrest
      exact ⟨hseek, (if_neg nofun).symm⟩
    | ok _ =>
      cases hrest
      exact ⟨hseek, (if_pos rfl).symm⟩

end Positions

/-! ## Considerate steps -/

section Steps

variable {ino : ℕ} {w next : Holders Fd} {fd : Fd} {ret : Ret ℕ}

theorem Guarded.open (h : Guarded ino w) {openFlags : BitVec 32}
    (hconsiderate : Considerate ino w (.open fd openFlags))
    (hcall : w.call ino (.open fd openFlags) = .ok (ret, next)) : Guarded ino next := by
  rw [Holders.call] at hcall
  by_cases hused : (w.files fd).isSome
  · rw [if_pos hused] at hcall
    cases hcall
    exact h
  rw [if_neg hused] at hcall
  have hfree : w.files fd = none := Option.not_isSome_iff_eq_none.mp hused
  rcases Outcome.bind_eq_ok.mp hcall with ⟨⟨opened, v⟩, hopen, hrest⟩
  rcases openFile_ok hopen with ⟨hvolume, hfile⟩
  -- the descriptors that are there keep a place in the file
  have hkept : SoundFile ino v ∧ ∀ other file, w.files other = some file →
      Placed (v.inode ino).size file := by
    rcases hvolume with ⟨-, rfl⟩ | ⟨htruncates, code, htruncate, -⟩
    · exact ⟨h.sound, h.placed⟩
    · have hsound := (h.sound.truncfile htruncate).1
      refine ⟨hsound, fun other file hfile ↦ ?_⟩
      have hplaced := h.placed other file hfile
      refine ⟨hplaced.opened, hplaced.nonneg, hplaced.lt, fun hwritable ↦ Or.inr ?_⟩
      have hlow := hconsiderate hfree htruncates other file hfile hwritable
      have hnonneg := hplaced.nonneg
      omega
  cases opened with
  | error code =>
    cases hrest
    exact ⟨hkept.1, hkept.2⟩
  | ok file =>
    cases hrest
    have hsize := hkept.1.size_lt
    rcases hfile file rfl with ⟨hstatus, -, hpos⟩
    have hplaced : Placed (v.inode ino).size file := by
      refine ⟨hstatus, ?_, ?_, fun _ ↦ Or.inl ?_⟩ <;> omega
    have hbase : Guarded ino { w with volume := v } := ⟨hkept.1, hkept.2⟩
    have hput := hbase.put fd hkept.1 le_rfl hplaced
    exact ⟨hput.sound, hput.placed⟩

theorem Guarded.read (h : Guarded ino w) {memory : Bytes} {base len : ℕ}
    (hcall : w.call ino (.read fd memory base len) = .ok (ret, next)) :
    Guarded ino next ∧ next.volume = w.volume := by
  rcases Holders.withFile_ok hcall with rfl | ⟨file, hfile, hcall⟩
  · exact ⟨h, rfl⟩
  have hplaced := h.placed fd file hfile
  split at hcall
  · cases hcall
    exact ⟨h, rfl⟩
  · rcases Outcome.bind_eq_ok.mp hcall with ⟨⟨ret', iob, file', v⟩, hio, hrest⟩
    cases hrest
    rcases fileIo_ok hplaced.opened hio with ⟨hread, rfl⟩
    rcases h.sound.read hread with ⟨rfl, hused⟩
    exact ⟨h.put _ h.sound le_rfl (hplaced.moved le_rfl h.sound.size_lt hused), rfl⟩

theorem Guarded.write (h : Guarded ino w) {memory : Bytes} {base len : ℕ}
    (hconsiderate : Considerate ino w (.write fd memory base len))
    (hcall : w.call ino (.write fd memory base len) = .ok (ret, next)) : Guarded ino next := by
  rcases Holders.withFile_ok hcall with rfl | ⟨file, hfile, hcall⟩
  · exact h
  have hplaced := h.placed fd file hfile
  split at hcall
  · cases hcall
    exact h
  · rename_i hwritable
    have hwritable : file.writable := not_not.mp hwritable
    rcases Outcome.bind_eq_ok.mp hcall with ⟨⟨ret', iob, file', v⟩, hio, hrest⟩
    cases hrest
    rcases fileIo_ok hplaced.opened hio with ⟨hwrite, rfl⟩
    rcases h.sound.write (hplaced.inside hwritable) (hconsiderate file hfile hwritable) hwrite with
      ⟨hsound, hle, hused⟩
    exact h.put _ hsound hle (hplaced.moved hle hsound.size_lt hused)

theorem Guarded.seek (h : Guarded ino w) {pos whence : ℤ}
    (hcall : w.call ino (.seek fd pos whence) = .ok (ret, next)) : Guarded ino next := by
  rcases Holders.withFile_ok hcall with rfl | ⟨file, hfile, hcall⟩
  · exact h
  have hplaced := h.placed fd file hfile
  rcases Outcome.bind_eq_ok.mp hcall with ⟨⟨code, file', v⟩, hseek, hrest⟩
  cases hrest
  rcases fileSeek_ok hseek with ⟨target, -, hsought⟩
  cases target with
  | error code =>
    rcases hsought with ⟨rfl, rfl⟩
    exact h.put _ h.sound le_rfl hplaced
  | ok target =>
    rcases hsought with ⟨htryseek, rfl⟩
    rcases h.sound.seek htryseek with ⟨hsound, hle, htarget⟩
    refine h.put _ hsound hle ?_
    by_cases hcode : code = .ok ()
    · rw [if_pos hcode]
      exact hplaced.sought (htarget hcode).1 (htarget hcode).2 hsound.size_lt
    · rw [if_neg hcode]
      exact hplaced.mono hle

theorem Guarded.fsync (h : Guarded ino w)
    (hcall : w.call ino (.fsync fd) = .ok (ret, next)) : Guarded ino next := by
  rcases Holders.withFile_ok hcall with rfl | ⟨file, hfile, hcall⟩
  · exact h
  rcases Outcome.bind_eq_ok.mp hcall with ⟨⟨code, v⟩, hfsync, hrest⟩
  cases hrest
  rcases h.sound.fsync hfsync with ⟨hsound, hsize⟩
  exact h.put _ hsound hsize.ge ((h.placed fd file hfile).mono hsize.ge)

theorem Guarded.dup (h : Guarded ino w) {copy : Fd}
    (hcall : w.call ino (.dup fd copy) = .ok (ret, next)) : Guarded ino next := by
  rcases Holders.withFile_ok hcall with rfl | ⟨file, hfile, hcall⟩
  · exact h
  split at hcall
  · cases hcall
    exact h
  · cases hcall
    have hput := h.put copy h.sound le_rfl (h.placed fd file hfile)
    exact ⟨hput.sound, hput.placed⟩

theorem Guarded.close (h : Guarded ino w)
    (hcall : w.call ino (.close fd) = .ok (ret, next)) : Guarded ino next := by
  rcases Holders.withFile_ok hcall with rfl | ⟨file, hfile, hcall⟩
  · exact h
  have hplaced : ∀ other file', Function.update w.files fd none other = some file' →
      Placed (w.volume.inode ino).size file' := by
    intro other file' hother
    by_cases heq : other = fd
    · rw [heq, Function.update_self] at hother
      cases hother
    · rw [Function.update_of_ne heq] at hother
      exact h.placed other file' hother
  dsimp only at hcall
  split at hcall
  · rcases Outcome.bind_eq_ok.mp hcall with ⟨⟨code, v⟩, hfsync, hrest⟩
    cases hrest
    rcases h.sound.fsync hfsync with ⟨hsound, hsize⟩
    exact ⟨hsound, fun other file' hother ↦ (hplaced other file' hother).mono hsize.ge⟩
  · cases hcall
    exact ⟨h.sound, hplaced⟩

theorem Guarded.step (h : Guarded ino w) {label : FileCall Fd ⊕ ℕ × Request}
    (hstep : ConsiderateStep ino w label next) : Guarded ino next := by
  rcases hstep with ⟨hstep, hconsiderate⟩
  cases hstep with
  | other hmem hne hanswers =>
    rcases h.sound.other hmem hne hanswers with ⟨hsound, hinode⟩
    refine ⟨hsound, fun fd file hfile ↦ (h.placed fd file hfile).mono ?_⟩
    exact (congrArg SfsInode.size hinode).ge
  | call hcall =>
    rename_i call ret
    have hconsiderate := hconsiderate call rfl
    cases call with
    | «open» fd openFlags => exact h.open hconsiderate hcall
    | read fd memory base len => exact (h.read hcall).1
    | write fd memory base len => exact h.write hconsiderate hcall
    | seek fd pos whence => exact h.seek hcall
    | fstat fd =>
      rcases Holders.withFile_ok hcall with rfl | ⟨file, hfile, hcall⟩
      · exact h
      · rcases Outcome.bind_eq_ok.mp hcall with ⟨ret, -, heq⟩
        cases heq
        exact h
    | fsync fd => exact h.fsync hcall
    | dup fd copy => exact h.dup hcall
    | close fd => exact h.close hcall

theorem Guarded.runs (h : Guarded ino w) {labels : List (FileCall Fd ⊕ ℕ × Request)}
    (hruns : Runs (ConsiderateStep ino) w labels next) : Guarded ino next := by
  induction hruns with
  | nil => exact h
  | cons hstep _ ih => exact ih (h.step hstep)

/-- A place in the file, or in its first block, is in reach of the block map. -/
theorem Guarded.harmless (h : Guarded ino w) : Harmless ino w := by
  have howns := h.sound.owns
  have hranged := h.sound.intact.ranged
  have hcovered := h.sound.covered
  constructor
  · intro call request hasks
    cases hasks with
    | «open» hfree htruncates => exact loadsInside_truncate howns hranged 0
    | read hfile hreadable =>
      refine (loadsInside_transfer_iff howns hranged _ _ _ _).mpr fun endpos hmoves ↦ ?_
      have hsize := (le_size_of_read hmoves.1).resolve_left hmoves.2.symm
      have hstart := le_of_sfsIoEndpos hmoves.1
      unfold Covered blocksFor SFS_BLKSIZE at *
      omega
    | write hfile hwritable =>
      refine (loadsInside_transfer_iff howns hranged _ _ _ _).mpr fun endpos hmoves ↦ ?_
      have hinside := (h.placed _ _ hfile).inside hwritable
      unfold Covered blocksFor SFS_BLKSIZE at *
      omega
    | seek hfile htarget => exact loadsInside_seek howns hranged _
  · intro fd memory base len ret next hcall
    exact (h.read hcall).2

/-- A file that is not empty can be emptied. -/
theorem SoundFile.truncate_zero {v : Volume} (h : SoundFile ino v)
    (hsize : (v.inode ino).size ≠ 0) : ∃ v', v.sfsTruncfile ino 0 = .ok (.ok (), v') := by
  rcases sfsTruncfile_resized h.owns h.intact.ranged (show Accepted 0 from ⟨by decide, by decide⟩) hsize
    (Nat.zero_le _) with ⟨sfs, sin, hcall, -⟩
  refine ⟨v.set ino sfs sin, ?_⟩
  rw [Volume.sfsTruncfile, hcall]
  rfl

/-- A file grows to a position that there is room for. -/
theorem SoundFile.extend {v : Volume} (h : SoundFile ino v) (pos : ℤ)
    (hmore : ((v.inode ino).size : ℤ) < pos) (hlt : pos < SFS_MAX_FILE_SIZE)
    (hroom : blocksFor pos.toNat ≤ capacity v.mount.sfs (v.inode ino)) :
    ∃ v', v.sfsTryseek ino pos = .ok (.ok (), v') ∧ (v'.inode ino).size = pos.toNat := by
  rcases sfsTruncfile_resized h.owns h.intact.ranged (show Accepted pos from ⟨by omega, by omega⟩) (by omega)
    hroom with ⟨sfs, sin, hcall, hresized⟩
  refine ⟨v.set ino sfs sin, ?_, ?_⟩
  · rw [Volume.sfsTryseek, sfsTryseek, if_neg (by omega), if_pos hmore, hcall]
    rfl
  · rw [Volume.set_inode]
    exact hresized.size

theorem moves_one {sin : SfsInode} {pos : ℤ} (hnonneg : 0 ≤ pos) (hlt : pos < SFS_MAX_FILE_SIZE) :
    Moves sin pos 1 true (pos.toNat + 1) := by
  have hend : int64 (pos + (1 : ℕ)) = pos + 1 := by
    unfold SFS_MAX_FILE_SIZE at hlt
    unfold int64
    omega
  refine ⟨?_, by omega⟩
  unfold sfsIoEndpos
  simp only [hend]
  rw [if_neg (by omega), if_neg (by omega), if_pos trivial, Nat.min_eq_left (by omega)]
  congr
  omega

/-- A truncating open leaves a writable descriptor behind that is beyond the first block: a write
of one byte through it is out of reach. -/
theorem Guarded.not_harmless (h : Guarded ino w) {openFlags : BitVec 32} {fd' : ℕ}
    (hbeyond : ¬Considerate ino w (.open fd openFlags))
    (hcall : w.call ino (.open fd openFlags) = .ok (.ok fd', next)) : ¬Harmless ino next := by
  intro hharmless
  apply hbeyond
  intro hfree htruncates holder file hfile hwritable
  by_contra hfar
  have hplaced := h.placed holder file hfile
  have hpos : (SFS_BLKSIZE : ℤ) ≤ file.pos := not_lt.mp hfar
  have hlt : file.pos < SFS_MAX_FILE_SIZE := by
    have hinside := hplaced.inside hwritable
    have hcovered := h.sound.covered
    have hmax := h.sound.owns.blocks_le
    unfold Covered blocksFor at hcovered
    unfold MAX_BLOCKS SFS_NDIRECT SFS_BLK_NENTRY at hmax
    unfold SFS_MAX_FILE_SIZE SFS_BLKSIZE at *
    omega
  rw [Holders.call, if_neg (by rw [hfree]; decide)] at hcall
  rcases Outcome.bind_eq_ok.mp hcall with ⟨⟨opened, v⟩, hopen, hrest⟩
  cases opened with
  | error code => cases hrest
  | ok new =>
    cases hrest
    rcases (openFile_ok hopen).volume with ⟨hkeep, -⟩ | ⟨-, code, htruncate, hok⟩
    · exact hkeep htruncates
    rcases h.sound.truncfile htruncate with ⟨hsound, hempty, -⟩
    have hblocks : (v.inode ino).blocks = 0 := (hempty (hok new rfl)).2.2
    have hne : holder ≠ fd := by
      rintro rfl
      cases hfile.symm.trans hfree
    have hasks : Asks ino { w.put fd new v with openCount := w.openCount + 1 }
        (.write holder (fun _ ↦ 0) 0 1) (.transfer (fun _ ↦ 0) 0 file.pos 1 true) :=
      .write ((Function.update_of_ne hne ..).trans hfile) hwritable
    have hfirst := (loadsInside_transfer_iff hsound.owns hsound.intact.ranged _ _ _ _).mp
      (hharmless.inside _ _ hasks) _ (moves_one hplaced.nonneg hlt)
    have hfirst : file.pos.toNat / SFS_BLKSIZE ≤ (v.inode ino).blocks := hfirst
    rw [hblocks] at hfirst
    unfold SFS_BLKSIZE at *
    omega

end Steps

section Calling

variable {ino : ℕ} {w : Holders Fd} {v : Volume} {fd : Fd} {file : File}

theorem call_seek {pos : ℤ} (fd : Fd) (file : File) (hfile : w.files fd = some file)
    (hseek : w.volume.sfsTryseek ino pos = .ok (.ok (), v)) :
    w.call ino (.seek fd pos LSEEK_SET) = .ok (.ok 0, w.put fd { file with pos } v) := by
  have htarget : seekTarget (Volume.sfsFstat ino) w.volume file pos LSEEK_SET = .ok (.ok pos) :=
    if_pos rfl
  rw [Holders.call, Holders.withFile, hfile]
  dsimp only
  rw [fileSeek, htarget, Outcome.ok_bind]
  dsimp only
  rw [hseek]
  rfl

theorem call_open_trunc (w : Holders Fd) (fd : Fd) (hfree : w.files fd = none)
    (htruncate : w.volume.sfsTruncfile ino 0 = .ok (.ok (), v)) :
    w.call ino (.open fd (O_RDWR ||| O_TRUNC)) = .ok (.ok 0,
      { w.put fd ⟨.opened, true, true, 0, 1⟩ v with openCount := w.openCount + 1 }) := by
  have hfound : vfsOpenFound (fun _ ↦ .ok (.ok ())) (Volume.sfsTruncfile ino) w.volume
      (O_RDWR ||| O_TRUNC) = .ok (.ok (), v) := by
    rw [vfsOpenFound, if_neg (by decide), Outcome.ok_bind]
    dsimp only
    rw [if_pos (by decide), htruncate]
  have hopen : openFile ino w.volume (O_RDWR ||| O_TRUNC) =
      .ok (.ok ⟨.opened, true, true, 0, 1⟩, v) := by
    have hmode : accessMode (O_RDWR ||| O_TRUNC) = .ok (true, true) := rfl
    have hcheck : vfsOpenCheck (O_RDWR ||| O_TRUNC) = .ok () := rfl
    rw [openFile, hmode, hcheck]
    dsimp only
    rw [hfound, Outcome.ok_bind]
    dsimp only
    rw [fileOpenPos, if_neg (by decide)]
    rfl
  rw [Holders.call, hfree, if_neg (by decide), hopen]
  rfl

end Calling

/-- From a file that nobody has open, as long as the steps are considerate, every call keeps to the
block map and no read changes the file system; and the first open that is not considerate brings the
file to a state where a call leaves the block map. -/
theorem harmless_of_considerate (ino : ℕ) (start : Holders Fd) (hsound : SoundFile ino start.volume)
    (hclosed : ∀ fd, start.files fd = none) :
    ∀ labels w, Runs (ConsiderateStep ino) start labels w → Harmless ino w ∧
      ∀ fd openFlags ret next, w.call ino (.open fd openFlags) = .ok (.ok ret, next) →
        ¬Considerate ino w (.open fd openFlags) → ¬Harmless ino next := by
  intro labels w hruns
  have hstart : Guarded ino start := by
    refine ⟨hsound, fun fd file hfile ↦ ?_⟩
    rw [hclosed] at hfile
    cases hfile
  have hguarded := hstart.runs hruns
  exact ⟨hguarded.harmless, fun fd openFlags ret next hcall hbeyond ↦
    hguarded.not_harmless hbeyond hcall⟩

end Calls

/-! ### Two openers of an empty file -/

def twoOpeners : Holders ℕ := ⟨⟨emptyDisk 7, fun _ ↦ emptyFile⟩, 0, fun _ ↦ none⟩

theorem soundFile_twoOpeners : SoundFile 3 twoOpeners.volume :=
  ⟨intact_emptyDisk (by decide) (by decide), List.mem_singleton.mpr rfl, rfl, by decide, Nat.zero_le _⟩

theorem harmless_of_considerate_twoOpeners :
    ∃ w, twoOpeners.call 3 (.open 0 O_RDWR) = .ok (.ok 0, w) ∧ Harmless 3 w := by
  let first : Holders ℕ :=
    { twoOpeners.put 0 ⟨.opened, true, true, 0, 1⟩ twoOpeners.volume with openCount := 1 }
  have hopen : twoOpeners.call 3 (.open 0 O_RDWR) = .ok (.ok 0, first) := rfl
  have hstep : ConsiderateStep 3 twoOpeners (.inl (.open 0 O_RDWR)) first := by
    refine ⟨.call hopen, fun call hcall ↦ ?_⟩
    cases hcall
    intro _ _ holder file hfile
    cases hfile
  refine ⟨first, hopen, ?_⟩
  exact (harmless_of_considerate 3 twoOpeners soundFile_twoOpeners (fun _ ↦ rfl) _ first
    (.cons hstep .nil)).1

/-- One opener seeks to 8192, the other opens with `O_TRUNC`; then the first one writes a byte. -/
theorem not_harmless_twoOpeners : ¬∀ (ino : ℕ) (start : Holders ℕ), SoundFile ino start.volume →
    (∀ fd, start.files fd = none) → ∀ labels w, Runs (SharedStep ino) start labels w →
      Harmless ino w := by
  intro h
  let file : File := ⟨.opened, true, true, 0, 1⟩
  let first : Holders ℕ := { twoOpeners.put 0 file twoOpeners.volume with openCount := 1 }
  have hopen : twoOpeners.call 3 (.open 0 O_RDWR) = .ok (.ok 0, first) := rfl
  have hguarded : Guarded 3 twoOpeners := ⟨soundFile_twoOpeners, nofun⟩
  have hfirst : Guarded 3 first :=
    hguarded.open (fun _ _ holder file hfile ↦ by cases hfile) hopen
  -- the seek extends the file to two blocks, and the other opener cuts it again
  have hroom : blocksFor (8192 : ℤ).toNat ≤ capacity (emptySfs 7) emptyFile := by
    rw [capacity_emptyDisk (by decide)]
    decide
  rcases hfirst.sound.extend 8192 (by decide) (by decide) hroom with ⟨v, htryseek, hsize⟩
  have hmoved := call_seek 0 file rfl htryseek
  have hsecond := hfirst.seek hmoved
  rcases hsecond.sound.truncate_zero (hsize.trans_ne (by decide)) with ⟨v', htruncate⟩
  have hreopen := call_open_trunc (first.put 0 { file with pos := 8192 } v) 1 rfl htruncate
  have hbeyond : ¬Considerate 3 (first.put 0 { file with pos := 8192 } v)
      (.open 1 (O_RDWR ||| O_TRUNC)) := by
    intro hconsiderate
    have hlow := hconsiderate rfl ⟨rfl, by decide, by decide⟩ 0 { file with pos := 8192 } rfl rfl
    have hlow : (8192 : ℤ) < SFS_BLKSIZE := hlow
    exact absurd hlow (by decide)
  apply hsecond.not_harmless hbeyond hreopen
  exact h 3 twoOpeners soundFile_twoOpeners (fun _ ↦ rfl) _ _
    (.cons (.call hopen) (.cons (.call hmoved) (.cons (.call hreopen) .nil)))

end Ucore.Fs
