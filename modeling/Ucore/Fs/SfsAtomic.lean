import Ucore.Fs.SfsLength

/-!
# When a change of length is all or nothing

A longer file gets its blocks one after the other, and `sfs_truncfile` does not give them back when
they run out. The call is all or nothing unless it is stranded between two lengths: it can map a
block, but not all of them. A file whose calls are never stranded has no blocks when its size is
zero, and so passes the assertion of a later call.
-/

namespace Ucore.Fs

open Library

/-- The file has as many blocks as its size asks for. -/
def InStep (sin : SfsInode) : Prop := sin.blocks = blocksFor sin.size

/-- Size, blocks, block map and free map are as they were. -/
structure Unchanged (s : SfsFs) (sin : SfsInode) (after : SfsFs) (sin' : SfsInode) : Prop where
  size : sin'.size = sin.size
  blocks : sin'.blocks = sin.blocks
  direct : sin'.direct = sin.direct
  indirect : sin'.indirect = sin.indirect
  blockAt : ∀ index < MAX_BLOCKS, blockAt after sin' index = Ucore.Fs.blockAt s sin index
  free : ∀ b, after.freemap.Free b ↔ s.freemap.Free b

/-- A call that fails changes nothing, and one that succeeds gives the file its new length. -/
def TruncatesWhole (s : SfsFs) (sin : SfsInode) (len : ℤ) : Prop :=
  ∀ ret after sin', sfsTruncfile s sin len = .ok (ret, after, sin') → match ret with
    | .ok _ => sin'.size = len.toNat ∧ sin'.blocks = blocksFor len.toNat
    | .error _ => Unchanged s sin after sin'

/-- There is room for a block more, but not for all that the new length needs. -/
def Strands (s : SfsFs) (sin : SfsInode) (len : ℤ) : Prop :=
  Accepted len ∧ sin.size ≠ len.toNat ∧ sin.blocks < capacity s sin ∧
    capacity s sin < blocksFor len.toNat ∧ capacity s sin < MAX_BLOCKS

section Truncfile

variable {s after : SfsFs} {sin sin' : SfsInode} {rest : ℕ → Prop} {len : ℤ}

theorem Unchanged.refl (s : SfsFs) (sin : SfsInode) : Unchanged s sin s sin :=
  ⟨rfl, rfl, rfl, rfl, fun _ _ ↦ rfl, fun _ ↦ Iff.rfl⟩

/-- A file that got no block is as it was. -/
theorem Grown.unchanged {stop : ℕ} (howns : Owns s sin rest) (h : Grown s sin rest stop after sin)
    (hunspent : Unspent s after) : Unchanged s sin after sin := by
  refine ⟨rfl, rfl, rfl, rfl, fun index hindex ↦ ?_, hunspent.free⟩
  rcases Nat.lt_or_ge index sin.blocks with hlt | hge
  · exact h.grows.blockAt index hlt
  · rw [h.owns.unmapped index hge hindex, howns.unmapped index hge hindex]

/-- The three ways of a change of length that comes back. -/
theorem sfsTruncfile_cases (howns : Owns s sin rest) (hranged : Ranged s) (haccepted : Accepted len)
    (hsize : sin.size ≠ len.toNat) {ret : Ret Unit}
    (hcall : sfsTruncfile s sin len = .ok (ret, after, sin')) :
    (ret = .ok () ∧ Resized s sin rest len.toNat after sin') ∨
      (ret = .error .noMem ∧ sin' = sin ∧ Unchanged s sin after sin) ∨
      (ret = .error .noMem ∧ Strands s sin len ∧ Grown s sin rest (capacity s sin) after sin') := by
  have hresizable := (completes_sfsTruncfile_iff howns hranged len).mp ⟨_, hcall⟩ haccepted
  rw [if_neg hsize] at hresizable
  have hmax := capacity_le s sin
  have hle := le_capacity (s := s) howns.blocks_le
  by_cases hroom : blocksFor len.toNat ≤ capacity s sin
  · rcases sfsTruncfile_resized howns hranged haccepted hsize hroom with
      ⟨after, sin', hresult, hresized⟩
    cases hresult.symm.trans hcall
    exact Or.inl ⟨rfl, hresized⟩
  · have hshort := Nat.not_le.mp hroom
    have hslot : capacity s sin < MAX_BLOCKS := by
      rcases hresizable with hfits | hfits <;> omega
    rcases sfsTruncfile_short howns hranged haccepted hsize hshort hslot with
      ⟨after, sin', hresult, hgrown, hsame⟩
    cases hresult.symm.trans hcall
    rcases Nat.lt_or_eq_of_le hle with hlt | heq
    · exact Or.inr (Or.inr ⟨rfl, ⟨haccepted, hsize, hlt, hshort, hslot⟩, hgrown⟩)
    · rcases hsame heq with ⟨rfl, hunspent⟩
      exact Or.inr (Or.inl ⟨rfl, rfl, hgrown.unchanged howns hunspent⟩)

theorem not_truncatesWhole (howns : Owns s sin rest) (hranged : Ranged s) (h : Strands s sin len) :
    ¬TruncatesWhole s sin len := by
  rcases h with ⟨haccepted, hsize, hroom, hshort, hslot⟩
  rcases sfsTruncfile_short howns hranged haccepted hsize hshort hslot with
    ⟨after, sin', hcall, hgrown, -⟩
  intro hwhole
  have hunchanged : Unchanged s sin after sin' := hwhole _ _ _ hcall
  have hblocks := hunchanged.blocks
  rw [hgrown.blocks] at hblocks
  omega

theorem truncatesWhole_of_not_strands (howns : Owns s sin rest) (hranged : Ranged s)
    (hinStep : InStep sin) (h : ¬Strands s sin len) : TruncatesWhole s sin len := by
  intro ret after sin' hcall
  by_cases haccepted : Accepted len
  · by_cases hsize : sin.size = len.toNat
    · have hblocks : blocksFor len.toNat = sin.blocks := by rw [hinStep, hsize]
      rw [sfsTruncfile_same haccepted hsize, Outcome.require_of_true hblocks] at hcall
      cases hcall
      exact ⟨hsize, hblocks.symm⟩
    · rcases sfsTruncfile_cases howns hranged haccepted hsize hcall with
        ⟨rfl, hresized⟩ | ⟨rfl, rfl, hunchanged⟩ | ⟨-, hstrands, -⟩
      · exact ⟨hresized.size, hresized.blocks⟩
      · exact hunchanged
      · exact absurd hstrands h
  · rw [sfsTruncfile_inval haccepted] at hcall
    cases hcall
    exact Unchanged.refl s sin

end Truncfile

/-! ## Runs -/

/-- Seeks, reads and writes, and the truncation by an open with `O_TRUNC`. -/
def Request.Usual : Request → Prop
  | .truncate len => len = 0
  | _ => True

/-- The length with which a request calls `sfs_truncfile`. -/
def Request.target (sin : SfsInode) : Request → Option ℤ
  | .seek pos => if 0 ≤ pos ∧ pos < SFS_MAX_FILE_SIZE ∧ (sin.size : ℤ) < pos then some pos else none
  | .truncate len => some len
  | .transfer .. => none

/-- The assertion of `sfs_truncfile` for a file that has the length already. -/
def Asserted (sin : SfsInode) (request : Request) : Prop :=
  ∀ len, request.target sin = some len → sin.size = len.toNat → roundupBlocks len.toNat = sin.blocks

/-- A usual request to some file that was answered. -/
def UsualStep (m : Mount) (label : ℕ × Request) (next : Mount) : Prop :=
  label.1 ∈ m.inos ∧ label.2.Usual ∧ ∃ ret, Answers m label.1 label.2 ret next

/-- A usual request that does not strand the given file. -/
def SteadyStep (ino : ℕ) (m : Mount) (label : ℕ × Request) (next : Mount) : Prop :=
  UsualStep m label next ∧ (label.1 = ino → ∀ len, label.2.target (m.inode ino) = some len →
    ¬Strands m.sfs (m.inode ino) len)

section Runs

variable {s after : SfsFs} {sin sin' : SfsInode} {rest : ℕ → Prop} {m next : Mount} {ino : ℕ}

/-- What the assertion needs of a file. -/
def NoneWhenEmpty (sin : SfsInode) : Prop := sin.size = 0 → sin.blocks = 0

theorem noneWhenEmpty_truncfile (howns : Owns s sin rest) (hranged : Ranged s)
    (h : NoneWhenEmpty sin) {len : ℤ} (hstrands : ¬Strands s sin len) {ret : Ret Unit}
    (hcall : sfsTruncfile s sin len = .ok (ret, after, sin')) : NoneWhenEmpty sin' := by
  by_cases haccepted : Accepted len
  · by_cases hsize : sin.size = len.toNat
    · rw [sfsTruncfile_same haccepted hsize] at hcall
      rcases Outcome.bind_eq_ok.mp hcall with ⟨_, -, heq⟩
      cases heq
      exact h
    · rcases sfsTruncfile_cases howns hranged haccepted hsize hcall with
        ⟨-, hresized⟩ | ⟨-, rfl, -⟩ | ⟨-, hstrand, -⟩
      · intro hzero
        rw [hresized.size] at hzero
        rw [hresized.blocks, hzero]
        rfl
      · exact h
      · exact absurd hstrand hstrands
  · rw [sfsTruncfile_inval haccepted] at hcall
    cases hcall
    exact h

theorem noneWhenEmpty_transfer (howns : Owns s sin rest) (hranged : Ranged s)
    (h : NoneWhenEmpty sin) {memory : Bytes} {buf len : ℕ} {offset : ℤ} {write : Bool}
    {ret : Ret Unit} {io : Io}
    (hcall : sfsIoNolock s sin memory buf offset len write = .ok (ret, io)) :
    NoneWhenEmpty io.sin := by
  have htype : sin.type ≠ SFS_TYPE_DIR := by
    rcases Outcome.bind_eq_ok.mp hcall with ⟨_, hrequire, -⟩
    exact Outcome.require_eq_ok.mp hrequire
  by_cases hnone : ∃ endpos, Moves sin offset len write endpos
  · rcases hnone with ⟨endpos, hmoves⟩
    rcases (completes_sfsIoNolock_iff howns hranged htype memory buf offset len write).mp
      ⟨_, hcall⟩ endpos hmoves with ⟨hfirst, hfits⟩
    rcases sfsIoNolock_written howns hranged htype hmoves hfirst hfits with ⟨ret, io, hio, hwritten, -⟩
    cases hio.symm.trans hcall
    have hlt : offset.toNat < endpos := lt_of_le_of_ne (le_of_sfsIoEndpos hmoves.1).2 hmoves.2
    intro hzero
    rw [hwritten.size] at hzero
    have hblocks := h (by omega)
    rw [hwritten.blocks, hblocks]
    unfold reach at hzero
    split at hzero
    · omega
    · unfold SFS_BLKSIZE at hzero
      omega
  · rcases sfsIoNolock_none htype (not_exists.mp hnone) with ⟨ret, io, hio, -, hsame, -⟩
    cases hio.symm.trans hcall
    rw [hsame]
    exact h

theorem noneWhenEmpty_call (howns : Owns s sin rest) (hranged : Ranged s) (h : NoneWhenEmpty sin)
    {request : Request} (hstrands : ∀ len, request.target sin = some len → ¬Strands s sin len)
    {ret : Ret Unit} (hcall : request.call s sin = .ok (ret, after, sin')) :
    NoneWhenEmpty sin' := by
  cases request with
  | seek pos =>
    rw [Request.call, sfsTryseek] at hcall
    split at hcall
    · cases hcall
      exact h
    · rename_i hvalid
      split at hcall
      · rename_i hmore
        have htarget : (Request.seek pos).target sin = some pos := if_pos (by omega)
        exact noneWhenEmpty_truncfile howns hranged h (hstrands pos htarget) hcall
      · cases hcall
        exact h
  | truncate len => exact noneWhenEmpty_truncfile howns hranged h (hstrands len rfl) hcall
  | transfer memory buf offset len write =>
    rcases Outcome.bind_eq_ok.mp hcall with ⟨⟨ret, io⟩, hio, heq⟩
    cases heq
    exact noneWhenEmpty_transfer howns hranged h hio

theorem noneWhenEmpty_step (hintact : Intact m) (h : NoneWhenEmpty (m.inode ino))
    {label : ℕ × Request} (hstep : SteadyStep ino m label next) :
    NoneWhenEmpty (next.inode ino) := by
  rcases hstep with ⟨⟨hin, -, ret, sfs, sin, hcall, rfl⟩, hsteady⟩
  by_cases heq : label.1 = ino
  · have hself : (m.set label.1 sfs sin).inode ino = sin := by
      rw [heq]
      exact Mount.set_inode_self ..
    rw [hself]
    subst heq
    exact noneWhenEmpty_call (hintact.consistent.owns hin) hintact.ranged h (hsteady rfl) hcall
  · have hother : (m.set label.1 sfs sin).inode ino = m.inode ino :=
      Mount.set_inode_of_ne (Ne.symm heq) ..
    rw [hother]
    exact h

theorem noneWhenEmpty_runs (hintact : Intact m) (h : NoneWhenEmpty (m.inode ino))
    {labels : List (ℕ × Request)} (hruns : Runs (SteadyStep ino) m labels next) :
    NoneWhenEmpty (next.inode ino) := by
  induction hruns with
  | nil => exact h
  | cons hstep _ ih =>
    have hnext := noneWhenEmpty_step hintact h hstep
    rcases hstep with ⟨⟨hin, -, ret, hanswers⟩, -⟩
    exact ih (hintact.step (hanswers.step hin)) hnext

theorem asserted_of_noneWhenEmpty (h : NoneWhenEmpty sin) {request : Request}
    (husual : request.Usual) : Asserted sin request := by
  intro len htarget hsize
  cases request with
  | seek pos =>
    rw [Request.target] at htarget
    split at htarget
    · cases htarget
      omega
    · cases htarget
  | truncate len' =>
    cases htarget
    have hzero : len = 0 := husual
    subst hzero
    exact (h hsize).symm
  | transfer memory buf offset len write => cases htarget

/-- A call is all or nothing exactly when it does not strand the file; and when no call of a run
strands the file, the assertion of `sfs_truncfile` holds in every later call. -/
theorem truncatesWhole_iff (m : Mount) (hintact : Intact m) (ino : ℕ) (hino : ino ∈ m.inos)
    (hinStep : InStep (m.inode ino)) :
    (∀ len, TruncatesWhole m.sfs (m.inode ino) len ↔ ¬Strands m.sfs (m.inode ino) len) ∧
      ∀ labels next, Runs (SteadyStep ino) m labels next → ∀ request : Request, request.Usual →
        Asserted (next.inode ino) request := by
  have howns := hintact.consistent.owns hino
  constructor
  · intro len
    constructor
    · intro hwhole hstrands
      exact not_truncatesWhole howns hintact.ranged hstrands hwhole
    · exact truncatesWhole_of_not_strands howns hintact.ranged hinStep
  · intro labels next hruns request husual
    have hempty : NoneWhenEmpty (m.inode ino) := by
      intro hzero
      rw [hinStep, hzero]
      rfl
    exact asserted_of_noneWhenEmpty (noneWhenEmpty_runs hintact hempty hruns) husual

theorem truncatesWhole_iff_emptyDisk :
    (∀ len, TruncatesWhole (emptySfs 7) emptyFile len ↔ ¬Strands (emptySfs 7) emptyFile len) ∧
      ∀ labels next, Runs (SteadyStep 3) (emptyDisk 7) labels next → ∀ request : Request,
        request.Usual → Asserted (next.inode 3) request :=
  truncatesWhole_iff (emptyDisk 7) (intact_emptyDisk (by decide) (by decide)) 3
    (List.mem_singleton.mpr rfl) rfl

/-- An empty file and three free blocks: a seek that needs five fails and leaves the file with three
blocks and no size, and the next open with `O_TRUNC` meets the assertion. -/
theorem not_truncatesWhole_emptyDisk :
    (¬∀ m, Intact m → ∀ ino ∈ m.inos, InStep (m.inode ino) →
      ∀ len, TruncatesWhole m.sfs (m.inode ino) len) ∧
    ¬∀ m, Intact m → ∀ ino ∈ m.inos, InStep (m.inode ino) →
      ∀ labels next, Runs UsualStep m labels next → ∀ request : Request, request.Usual →
        Asserted (next.inode ino) request := by
  have hintact : Intact (emptyDisk 7) := intact_emptyDisk (by decide) (by decide)
  have hino : 3 ∈ (emptyDisk 7).inos := List.mem_singleton.mpr rfl
  have hcapacity : capacity (emptySfs 7) emptyFile = 3 := capacity_emptyDisk (by decide)
  have haccepted : Accepted 20480 := ⟨by decide, by decide⟩
  have hshort : capacity (emptySfs 7) emptyFile < blocksFor (20480 : ℤ).toNat := by
    rw [hcapacity]
    decide
  have hslot : capacity (emptySfs 7) emptyFile < MAX_BLOCKS := by
    rw [hcapacity]
    decide
  have hsize : emptyFile.size ≠ (20480 : ℤ).toNat := by decide
  have hroom : emptyFile.blocks < capacity (emptySfs 7) emptyFile := by
    rw [hcapacity]
    decide
  have hstrands : Strands (emptySfs 7) emptyFile 20480 := ⟨haccepted, hsize, hroom, hshort, hslot⟩
  constructor
  · intro h
    exact not_truncatesWhole (hintact.consistent.owns hino) hintact.ranged hstrands
      (h _ hintact 3 hino rfl 20480)
  · intro h
    rcases sfsTruncfile_short (hintact.consistent.owns hino) hintact.ranged haccepted hsize
      hshort hslot with ⟨after, sin', hcall, hgrown, -⟩
    have hseek : Request.call (emptySfs 7) emptyFile (.seek 20480) =
        .ok (.error .noMem, after, sin') := by
      rw [Request.call, sfsTryseek, if_neg (by decide), if_pos (by decide)]
      exact hcall
    have hstep : UsualStep (emptyDisk 7) (3, .seek 20480) ((emptyDisk 7).set 3 after sin') :=
      ⟨hino, trivial, .error .noMem, after, sin', hseek, rfl⟩
    have hself : ((emptyDisk 7).set 3 after sin').inode 3 = sin' := Mount.set_inode_self ..
    have hassert := h _ hintact 3 hino rfl _ _ (.cons hstep .nil) (.truncate 0) rfl 0 rfl
    rw [hself, hgrown.grows.size, hgrown.blocks] at hassert
    have hthree : 0 = capacity (emptySfs 7) emptyFile := hassert rfl
    rw [hcapacity] at hthree
    exact absurd hthree (by decide)

end Runs

end Ucore.Fs
