import Ucore.Fs.FileShared

/-!
# Files that are open for reading only

The access mode of a descriptor stops writes. It does not stop the truncation by an open with
`O_CREAT` that finds the file, nor a seek beyond the end of the file, which extends it. Without these
two a file that is open for reading only stays as it is.
-/

namespace Ucore.Fs

open Library

/-- The file has kept its size, its block map and its contents. -/
structure SameFile (ino : ℕ) (v v' : Volume) : Prop where
  size : (v'.inode ino).size = (v.inode ino).size
  blocks : (v'.inode ino).blocks = (v.inode ino).blocks
  direct : (v'.inode ino).direct = (v.inode ino).direct
  indirect : (v'.inode ino).indirect = (v.inode ino).indirect
  blockAt : ∀ index < MAX_BLOCKS, blockAt v'.mount.sfs (v'.inode ino) index =
    Ucore.Fs.blockAt v.mount.sfs (v.inode ino) index
  contents : ∀ pos, pos / SFS_BLKSIZE < (v.inode ino).blocks →
    fileByte v'.mount.sfs (v'.inode ino) pos = fileByte v.mount.sfs (v.inode ino) pos

/-- Extending the file to `len` changes it: there is room for all of it, or for a block more. -/
def Lengthens (s : SfsFs) (sin : SfsInode) (len : ℤ) : Prop :=
  0 ≤ len ∧ len < SFS_MAX_FILE_SIZE ∧ (sin.size : ℤ) < len ∧
    (blocksFor len.toNat ≤ capacity s sin ∨ sin.blocks < capacity s sin)

section Volume

variable {ino : ℕ} {v v' : Volume}

theorem SameFile.refl (ino : ℕ) (v : Volume) : SameFile ino v v :=
  ⟨rfl, rfl, rfl, rfl, fun _ _ ↦ rfl, fun _ _ ↦ rfl⟩

theorem SameFile.trans {v'' : Volume} (h : SameFile ino v v') (h' : SameFile ino v' v'') :
    SameFile ino v v'' where
  size := h'.size.trans h.size
  blocks := h'.blocks.trans h.blocks
  direct := h'.direct.trans h.direct
  indirect := h'.indirect.trans h.indirect
  blockAt index hindex := (h'.blockAt index hindex).trans (h.blockAt index hindex)
  contents pos hpos := (h'.contents pos (h.blocks.symm ▸ hpos)).trans (h.contents pos hpos)

theorem SameFile.symm (h : SameFile ino v v') : SameFile ino v' v where
  size := h.size.symm
  blocks := h.blocks.symm
  direct := h.direct.symm
  indirect := h.indirect.symm
  blockAt index hindex := (h.blockAt index hindex).symm
  contents pos hpos := (h.contents pos (h.blocks ▸ hpos)).symm

theorem SameFile.of_mount (heq : v'.mount = v.mount) : SameFile ino v v' := by
  constructor <;> simp [Volume.inode, heq]

/-- A seek that does not lengthen the file leaves it as it is. -/
theorem SoundFile.sameFile_seek (h : SoundFile ino v) {pos : ℤ} {code : Ret Unit}
    (hkeep : ¬Lengthens v.mount.sfs (v.inode ino) pos)
    (hcall : v.sfsTryseek ino pos = .ok (code, v')) : SameFile ino v v' := by
  rcases Outcome.bind_eq_ok.mp hcall with ⟨⟨code, sfs, sin⟩, hseek, heq⟩
  cases heq
  have hself : Volume.set v ino v.mount.sfs (v.inode ino) = v := Volume.set_self v ino
  rw [sfsTryseek] at hseek
  split at hseek
  · cases hseek
    rw [hself]
    exact SameFile.refl ino v
  · rename_i hvalid
    split at hseek
    · rename_i hmore
      have haccepted : Accepted pos := ⟨by omega, by omega⟩
      have hsize : (v.inode ino).size ≠ pos.toNat := by omega
      have hle := le_capacity (s := v.mount.sfs) h.owns.blocks_le
      have hroom : ¬(blocksFor pos.toNat ≤ capacity v.mount.sfs (v.inode ino) ∨
          (v.inode ino).blocks < capacity v.mount.sfs (v.inode ino)) :=
        fun hroom ↦ hkeep ⟨by omega, by omega, hmore, hroom⟩
      have hfits := (completes_sfsTruncfile_iff h.owns h.intact.ranged pos).mp ⟨_, hseek⟩ haccepted
      rw [if_neg hsize, Fits] at hfits
      rcases sfsTruncfile_short h.owns h.intact.ranged haccepted hsize (by omega) (by omega) with
        ⟨after, sin', hcall, hgrown, hsame⟩
      cases hcall.symm.trans hseek
      rcases hsame (by omega) with ⟨rfl, hunspent⟩
      have hunchanged := Grown.unchanged h.owns hgrown hunspent
      have hinode : (v.set ino sfs (v.inode ino)).inode ino = v.inode ino := Volume.set_inode ..
      constructor <;> rw [hinode]
      · exact hunchanged.blockAt
      · intro pos hpos
        exact fileByte_extends hgrown.grows hpos
    · cases hseek
      rw [hself]
      exact SameFile.refl ino v

/-- A seek that lengthens the file changes it. -/
theorem SoundFile.not_sameFile_seek (h : SoundFile ino v) {pos : ℤ} {code : Ret Unit}
    (hlonger : Lengthens v.mount.sfs (v.inode ino) pos)
    (hcall : v.sfsTryseek ino pos = .ok (code, v')) : ¬SameFile ino v v' := by
  rcases hlonger with ⟨hnonneg, hlt, hmore, hroom⟩
  rcases Outcome.bind_eq_ok.mp hcall with ⟨⟨code, sfs, sin⟩, hseek, heq⟩
  cases heq
  rw [sfsTryseek, if_neg (by omega), if_pos hmore] at hseek
  have haccepted : Accepted pos := ⟨by omega, by omega⟩
  have hsize : (v.inode ino).size ≠ pos.toNat := by omega
  have hfits := (completes_sfsTruncfile_iff h.owns h.intact.ranged pos).mp ⟨_, hseek⟩ haccepted
  have hmax := capacity_le v.mount.sfs (v.inode ino)
  rw [if_neg hsize, Fits] at hfits
  have hinode : (v.set ino sfs sin).inode ino = sin := Volume.set_inode ..
  intro hsame
  have hsize' := hsame.size
  have hblocks' := hsame.blocks
  rw [hinode] at hsize' hblocks'
  by_cases hwhole : blocksFor pos.toNat ≤ capacity v.mount.sfs (v.inode ino)
  · rcases sfsTruncfile_resized h.owns h.intact.ranged haccepted hsize hwhole with
      ⟨after, sin', hcall, hresized⟩
    cases hcall.symm.trans hseek
    exact hsize (hsize'.symm.trans hresized.size)
  · rcases sfsTruncfile_short h.owns h.intact.ranged haccepted hsize (by omega) (by omega) with
      ⟨after, sin', hcall, hgrown, -⟩
    cases hcall.symm.trans hseek
    have hblocks := hgrown.blocks
    omega

theorem SoundFile.sameFile_fsync {code : Ret Unit} (hcall : v.sfsFsync ino = .ok (code, v')) :
    SameFile ino v v' := by
  rcases Volume.sfsFsync_ok hcall with heq | heq
  · exact SameFile.of_mount heq
  · have hinode : v'.inode ino = { v.inode ino with dirty := false } := by
      rw [Volume.inode, heq]
      exact Mount.set_inode_self ..
    have hsfs : v'.mount.sfs = v.mount.sfs := by
      rw [heq]
      rfl
    constructor <;> rw [hinode]
    · intro index _
      rw [hsfs]
      rfl
    · intro pos _
      rw [hsfs]
      rfl

/-- An open for reading only can truncate the file. -/
theorem SoundFile.sameFile_open_iff (h : SoundFile ino v) {openFlags : BitVec 32} {ret : Ret File}
    (hcall : openFile ino v openFlags = .ok (ret, v')) :
    SameFile ino v v' ↔ (Truncates openFlags → (v.inode ino).size = 0) := by
  rcases (openFile_ok hcall).volume with ⟨hkeep, rfl⟩ | ⟨htruncates, code, htruncate, -⟩
  · exact iff_of_true (SameFile.refl ino v') fun htruncates ↦ absurd htruncates hkeep
  · rw [imp_iff_right htruncates]
    constructor
    · intro hsame
      by_contra hne
      rcases h.truncate_zero hne with ⟨v'', hok⟩
      cases hok.symm.trans htruncate
      have hzero := ((h.truncfile htruncate).2.1 rfl).1
      exact hne (hsame.size.symm.trans hzero)
    · intro hzero
      rcases Outcome.bind_eq_ok.mp htruncate with ⟨⟨code, sfs, sin⟩, hresult, heq⟩
      cases heq
      rw [sfsTruncfile_same ⟨by decide, by decide⟩ hzero] at hresult
      rcases Outcome.bind_eq_ok.mp hresult with ⟨_, -, heq⟩
      cases heq
      have hself : Volume.set v ino v.mount.sfs (v.inode ino) = v := Volume.set_self v ino
      rw [hself]
      exact SameFile.refl ino v

end Volume

/-! ## Descriptors for reading only -/

section Calls

variable {Fd : Type} [DecidableEq Fd]

/-- Every open of the call is with the access mode `O_RDONLY`. -/
def OpensReadOnly : FileCall Fd → Prop
  | .open _ openFlags => accessMode openFlags = .ok (true, false)
  | _ => True

/-- An open finds nothing to truncate, and a seek does not lengthen the file. -/
def Gentle (ino : ℕ) (w : Holders Fd) : FileCall Fd → Prop
  | .open fd openFlags => w.files fd = none → Truncates openFlags →
      (w.volume.inode ino).size = 0
  | .seek fd pos whence => ∀ file target, w.files fd = some file →
      seekTarget (Volume.sfsFstat ino) w.volume file pos whence = .ok (.ok target) →
        ¬Lengthens w.volume.mount.sfs (w.volume.inode ino) target
  | _ => True

/-- A call that was answered, with the file open for reading only. -/
def ReadOnlyStep (ino : ℕ) (w : Holders Fd) (call : FileCall Fd) (next : Holders Fd) : Prop :=
  OpensReadOnly call ∧ ∃ ret, w.call ino call = .ok (ret, next)

def GentleStep (ino : ℕ) (w : Holders Fd) (call : FileCall Fd) (next : Holders Fd) : Prop :=
  ReadOnlyStep ino w call next ∧ Gentle ino w call

/-- No descriptor is open for writing. -/
structure HeldReadOnly (ino : ℕ) (w : Holders Fd) : Prop where
  guarded : Guarded ino w
  readOnly : ∀ fd file, w.files fd = some file → file.writable = false

section Steps

variable {ino : ℕ} {w next : Holders Fd} {call : FileCall Fd} {ret : Ret ℕ}

/-- A descriptor has its access mode from another one, or from the open that has made it. -/
theorem Guarded.files_call (h : Guarded ino w) (hcall : w.call ino call = .ok (ret, next)) {fd : Fd}
    {file : File} (hfile : next.files fd = some file) :
    (∃ holder held, w.files holder = some held ∧ file.writable = held.writable) ∨
      ∃ openFlags, call = .open fd openFlags ∧
        accessMode openFlags = .ok (file.readable, file.writable) := by
  -- a file left in the table is a new version of an old one
  have hput : ∀ {holder held slot new}, w.files holder = some held →
      Function.update w.files slot (some new) fd = some file → new.writable = held.writable →
        ∃ holder held, w.files holder = some held ∧ file.writable = held.writable := by
    intro holder held slot new hheld hnew hmode
    by_cases heq : fd = slot
    · rw [heq, Function.update_self] at hnew
      cases hnew
      exact ⟨holder, held, hheld, hmode⟩
    · rw [Function.update_of_ne heq] at hnew
      exact ⟨fd, file, hnew, rfl⟩
  cases call with
  | «open» slot openFlags =>
    rw [Holders.call] at hcall
    split at hcall
    · cases hcall
      exact Or.inl ⟨fd, file, hfile, rfl⟩
    · rcases Outcome.bind_eq_ok.mp hcall with ⟨⟨opened, v⟩, hopen, hrest⟩
      cases opened with
      | error code =>
        cases hrest
        exact Or.inl ⟨fd, file, hfile, rfl⟩
      | ok new =>
        cases hrest
        have hfile : Function.update w.files slot (some new) fd = some file := hfile
        by_cases heq : fd = slot
        · rw [heq, Function.update_self] at hfile
          cases hfile
          exact Or.inr ⟨openFlags, by rw [heq], ((openFile_ok hopen).file file rfl).2.1⟩
        · rw [Function.update_of_ne heq] at hfile
          exact Or.inl ⟨fd, file, hfile, rfl⟩
  | read slot memory base len =>
    rcases Holders.withFile_ok hcall with rfl | ⟨held, hheld, hcall⟩
    · exact Or.inl ⟨fd, file, hfile, rfl⟩
    · split at hcall
      · cases hcall
        exact Or.inl ⟨fd, file, hfile, rfl⟩
      · rcases Outcome.bind_eq_ok.mp hcall with ⟨⟨ret', iob, new, v⟩, hio, hrest⟩
        cases hrest
        rcases fileIo_ok (h.placed slot held hheld).opened hio with ⟨-, rfl⟩
        exact Or.inl (hput hheld hfile rfl)
  | write slot memory base len =>
    rcases Holders.withFile_ok hcall with rfl | ⟨held, hheld, hcall⟩
    · exact Or.inl ⟨fd, file, hfile, rfl⟩
    · split at hcall
      · cases hcall
        exact Or.inl ⟨fd, file, hfile, rfl⟩
      · rcases Outcome.bind_eq_ok.mp hcall with ⟨⟨ret', iob, new, v⟩, hio, hrest⟩
        cases hrest
        rcases fileIo_ok (h.placed slot held hheld).opened hio with ⟨-, rfl⟩
        exact Or.inl (hput hheld hfile rfl)
  | seek slot pos whence =>
    rcases Holders.withFile_ok hcall with rfl | ⟨held, hheld, hcall⟩
    · exact Or.inl ⟨fd, file, hfile, rfl⟩
    · rcases Outcome.bind_eq_ok.mp hcall with ⟨⟨code, new, v⟩, hseek, hrest⟩
      cases hrest
      refine Or.inl (hput hheld hfile ?_)
      rcases fileSeek_ok hseek with ⟨target, -, hsought⟩
      cases target with
      | error code => rw [hsought.2]
      | ok target =>
        rw [hsought.2]
        split <;> rfl
  | fstat slot =>
    rcases Holders.withFile_ok hcall with rfl | ⟨held, hheld, hcall⟩
    · exact Or.inl ⟨fd, file, hfile, rfl⟩
    · rcases Outcome.bind_eq_ok.mp hcall with ⟨ret, -, heq⟩
      cases heq
      exact Or.inl ⟨fd, file, hfile, rfl⟩
  | fsync slot =>
    rcases Holders.withFile_ok hcall with rfl | ⟨held, hheld, hcall⟩
    · exact Or.inl ⟨fd, file, hfile, rfl⟩
    · rcases Outcome.bind_eq_ok.mp hcall with ⟨⟨code, v⟩, -, hrest⟩
      cases hrest
      exact Or.inl (hput hheld hfile rfl)
  | dup slot copy =>
    rcases Holders.withFile_ok hcall with rfl | ⟨held, hheld, hcall⟩
    · exact Or.inl ⟨fd, file, hfile, rfl⟩
    · split at hcall
      · cases hcall
        exact Or.inl ⟨fd, file, hfile, rfl⟩
      · cases hcall
        exact Or.inl (hput hheld hfile rfl)
  | close slot =>
    rcases Holders.withFile_ok hcall with rfl | ⟨held, hheld, hcall⟩
    · exact Or.inl ⟨fd, file, hfile, rfl⟩
    · have hclosed : next.files = Function.update w.files slot none := by
        dsimp only at hcall
        split at hcall
        · rcases Outcome.bind_eq_ok.mp hcall with ⟨⟨code, v⟩, -, hrest⟩
          cases hrest
          rfl
        · cases hcall
          rfl
      rw [hclosed] at hfile
      by_cases heq : fd = slot
      · rw [heq, Function.update_self] at hfile
        cases hfile
      · rw [Function.update_of_ne heq] at hfile
        exact Or.inl ⟨fd, file, hfile, rfl⟩

/-- A call on a file that is open for reading only leaves it as it is exactly when it is gentle. -/
theorem HeldReadOnly.sameFile_iff (h : HeldReadOnly ino w) (hstep : ReadOnlyStep ino w call next) :
    SameFile ino w.volume next.volume ↔ Gentle ino w call := by
  rcases hstep with ⟨-, ret, hcall⟩
  have hsame : next.volume = w.volume → SameFile ino w.volume next.volume :=
    fun heq ↦ heq ▸ SameFile.refl ino w.volume
  cases call with
  | «open» slot openFlags =>
    rw [Holders.call] at hcall
    by_cases hused : (w.files slot).isSome
    · rw [if_pos hused] at hcall
      cases hcall
      refine iff_of_true (hsame rfl) fun hfree ↦ ?_
      rw [hfree] at hused
      cases hused
    · rw [if_neg hused] at hcall
      have hfree : w.files slot = none := Option.not_isSome_iff_eq_none.mp hused
      rcases Outcome.bind_eq_ok.mp hcall with ⟨⟨opened, v⟩, hopen, hrest⟩
      have hiff := h.guarded.sound.sameFile_open_iff hopen
      have hvolume : next.volume = v := by
        cases opened <;> cases hrest <;> rfl
      rw [hvolume, hiff]
      exact ⟨fun htruncates _ ↦ htruncates, fun hgentle ↦ hgentle hfree⟩
  | read slot memory base len =>
    exact iff_of_true (hsame (h.guarded.read hcall).2) trivial
  | write slot memory base len =>
    refine iff_of_true (hsame ?_) trivial
    rcases Holders.withFile_ok hcall with rfl | ⟨held, hheld, hcall⟩
    · rfl
    · rw [if_pos (by rw [h.readOnly slot held hheld]; decide)] at hcall
      cases hcall
      rfl
  | seek slot pos whence =>
    rw [Holders.call, Holders.withFile] at hcall
    cases hheld : w.files slot with
    | none =>
      rw [hheld] at hcall
      cases hcall
      refine iff_of_true (hsame rfl) fun file target hfile ↦ ?_
      cases hfile.symm.trans hheld
    | some held =>
      rw [hheld] at hcall
      rcases Outcome.bind_eq_ok.mp hcall with ⟨⟨code, new, v⟩, hseek, hrest⟩
      cases hrest
      rcases fileSeek_ok hseek with ⟨target, htarget, hsought⟩
      cases target with
      | error code =>
        rcases hsought with ⟨rfl, -⟩
        refine iff_of_true (hsame rfl) fun file target' hfile htarget' ↦ ?_
        cases hfile.symm.trans hheld
        cases htarget.symm.trans htarget'
      | ok target =>
        have hiff : SameFile ino w.volume v ↔ ¬Lengthens w.volume.mount.sfs (w.volume.inode ino) target :=
          ⟨fun hsame hlonger ↦ h.guarded.sound.not_sameFile_seek hlonger hsought.1 hsame,
            fun hkeep ↦ h.guarded.sound.sameFile_seek hkeep hsought.1⟩
        apply hiff.trans
        constructor
        · intro hkeep file target' hfile htarget'
          cases hfile.symm.trans hheld
          cases htarget.symm.trans htarget'
          exact hkeep
        · intro hgentle
          exact hgentle held target hheld htarget
  | fstat slot =>
    refine iff_of_true (hsame ?_) trivial
    rcases Holders.withFile_ok hcall with rfl | ⟨held, hheld, hcall⟩
    · rfl
    · rcases Outcome.bind_eq_ok.mp hcall with ⟨ret, -, heq⟩
      cases heq
      rfl
  | fsync slot =>
    refine iff_of_true ?_ trivial
    rcases Holders.withFile_ok hcall with rfl | ⟨held, hheld, hcall⟩
    · exact hsame rfl
    · rcases Outcome.bind_eq_ok.mp hcall with ⟨⟨code, v⟩, hfsync, hrest⟩
      cases hrest
      exact SoundFile.sameFile_fsync hfsync
  | dup slot copy =>
    refine iff_of_true (hsame ?_) trivial
    rcases Holders.withFile_ok hcall with rfl | ⟨held, hheld, hcall⟩
    · rfl
    · split at hcall <;> cases hcall <;> rfl
  | close slot =>
    refine iff_of_true ?_ trivial
    rcases Holders.withFile_ok hcall with rfl | ⟨held, hheld, hcall⟩
    · exact hsame rfl
    · dsimp only at hcall
      split at hcall
      · rcases Outcome.bind_eq_ok.mp hcall with ⟨⟨code, v⟩, hfsync, hrest⟩
        cases hrest
        exact SoundFile.sameFile_fsync hfsync
      · cases hcall
        exact hsame rfl

theorem HeldReadOnly.step (h : HeldReadOnly ino w) (hstep : ReadOnlyStep ino w call next) :
    HeldReadOnly ino next := by
  rcases hstep with ⟨hopens, ret, hcall⟩
  have hconsiderate : Considerate ino w call := by
    cases call with
    | «open» slot openFlags =>
      intro _ _ holder file hfile hwritable
      rw [h.readOnly holder file hfile] at hwritable
      cases hwritable
    | write slot memory base len =>
      intro file hfile hwritable
      rw [h.readOnly slot file hfile] at hwritable
      cases hwritable
    | _ => trivial
  refine ⟨h.guarded.step ⟨.call hcall, fun other hother ↦ ?_⟩, fun fd file hfile ↦ ?_⟩
  · cases hother
    exact hconsiderate
  · rcases h.guarded.files_call hcall hfile with ⟨holder, held, hheld, hmode⟩ |
      ⟨openFlags, rfl, hmode⟩
    · exact hmode.trans (h.readOnly holder held hheld)
    · have hmodes : (file.readable, file.writable) = (true, false) :=
        Except.ok.inj (hmode.symm.trans hopens)
      exact congrArg Prod.snd hmodes

theorem HeldReadOnly.runs (h : HeldReadOnly ino w) {calls : List (FileCall Fd)}
    (hruns : Runs (GentleStep ino) w calls next) :
    HeldReadOnly ino next ∧ SameFile ino w.volume next.volume := by
  induction hruns with
  | nil => exact ⟨h, SameFile.refl ino _⟩
  | cons hstep _ ih =>
    rcases hstep with ⟨hstep, hgentle⟩
    rcases ih (h.step hstep) with ⟨hheld, hsame⟩
    exact ⟨hheld, ((h.sameFile_iff hstep).mpr hgentle).trans hsame⟩

end Steps

end Calls

end Ucore.Fs
