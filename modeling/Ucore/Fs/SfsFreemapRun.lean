import Ucore.Library.Run
import Ucore.Fs.SfsCapacity
import Ucore.Fs.SfsDir

/-!
# The free map in a run of the kernel

Blocks are taken from the free map and given back in two places. Every operation goes through these,
so whatever inodes it works on, only blocks of the file system are ever free.
-/

namespace Ucore.Fs

open Library

/-- The free map covers its bits, and only blocks of the file system are free. -/
structure Bounded (s : SfsFs) : Prop where
  covers : s.freemap.Covers
  blocks_le_nbits : s.blocks ≤ s.freemap.nbits
  ranged : Ranged s

/-- The free map stays bounded from the first state to the second. -/
structure Tracks (s after : SfsFs) : Prop where
  bounded : Bounded s → Bounded after
  blocks : after.blocks = s.blocks

section Tracks

variable {s after : SfsFs} {sin : SfsInode} {io : Io}

theorem Tracks.refl (s : SfsFs) : Tracks s s := ⟨id, rfl⟩

theorem Tracks.trans {last : SfsFs} (h : Tracks s after) (h' : Tracks after last) : Tracks s last :=
  ⟨fun hs ↦ h'.bounded (h.bounded hs), h'.blocks.trans h.blocks⟩

/-- What happens before a call. -/
theorem Tracks.before {Value : Type} {call : Outcome Value} {fs : Value → SfsFs} (h : Tracks s after)
    (hcall : Ensures call fun value ↦ Tracks after (fs value)) :
    Ensures call fun value ↦ Tracks s (fs value) := hcall.mono fun _ hvalue ↦ h.trans hvalue

theorem tracks_of_freemap (hfreemap : after.freemap = s.freemap) (hblocks : after.blocks = s.blocks) :
    Tracks s after := by
  refine ⟨fun h ↦ ⟨hfreemap ▸ h.covers, ?_, fun b hlt hfree ↦ ?_⟩, hblocks⟩
  · rw [hblocks, hfreemap]
    exact h.blocks_le_nbits
  · rw [hfreemap] at hlt hfree
    rw [hblocks]
    exact h.ranged b hlt hfree

/-! ## Blocks -/

theorem tracks_sfsWblock (s : SfsFs) (data : Bytes) (blkno : ℕ) :
    Ensures (sfsWblock s data blkno) fun result ↦ Tracks s result.2 := by
  unfold sfsWblock sfsRwblockNolock
  intro result hcall
  rcases Outcome.bind_eq_ok.mp hcall with ⟨ret, hrange, heq⟩
  rcases Outcome.bind_eq_ok.mp hrange with ⟨_, -, hret⟩
  cases hret
  cases hdisk : disk0Io s.dev (uint32 (blkno * SFS_BLKSIZE)) with
  | error code =>
    rw [hdisk] at heq
    cases heq
    exact Tracks.refl s
  | ok target =>
    rw [hdisk] at heq
    cases heq
    exact tracks_of_freemap rfl rfl

theorem tracks_sfsWbuf (s : SfsFs) (data : Bytes) (len blkno offset : ℕ) :
    Ensures (sfsWbuf s data len blkno offset) fun result ↦ Tracks s result.2 := by
  unfold sfsWbuf
  apply Ensures.require
  intro _
  refine Ensures.bind (fun _ _ ↦ trivial : Ensures _ fun _ ↦ True) ?_
  rintro (code | block) -
  · exact Ensures.ok_iff.mpr (Tracks.refl s)
  · exact tracks_sfsWblock _ _ _

theorem bounded_of_taken {b : ℕ} (h : Bitmap.Taken s.freemap after.freemap b)
    (hblocks : after.blocks = s.blocks) (hs : Bounded s) : Bounded after := by
  have hle := hs.blocks_le_nbits
  rw [← hblocks, ← h.nbits] at hle
  refine ⟨hs.covers.of_eq h.nbits h.nwords, hle, fun other hlt hfree ↦ ?_⟩
  rw [h.nbits] at hlt
  rw [hblocks]
  exact hs.ranged other hlt ((h.rest other).mp hfree).2

theorem tracks_sfsBlockAlloc (s : SfsFs) :
    Ensures (sfsBlockAlloc s) fun result ↦ Tracks s result.2 := by
  intro value hcall
  rcases Outcome.bind_eq_ok.mp hcall with ⟨result, halloc, hrest⟩
  rcases result with _ | ⟨b, freemap⟩
  · cases hrest
    exact Tracks.refl s
  · rcases Outcome.bind_eq_ok.mp hrest with ⟨_, -, hrest⟩
    rcases Outcome.bind_eq_ok.mp hrest with ⟨used, -, hrest⟩
    rcases Outcome.bind_eq_ok.mp hrest with ⟨_, -, hrest⟩
    rcases Outcome.bind_eq_ok.mp hrest with ⟨⟨ret, after⟩, hclear, heq⟩
    cases heq
    let mid : SfsFs := { s with freemap, unusedBlocks := s.unusedBlocks - 1, superDirty := true }
    have hwrite : Tracks mid after := tracks_sfsWblock _ _ _ _ hclear
    have htaken : Tracks s mid :=
      ⟨fun hs ↦ bounded_of_taken (bitmapAlloc_spec hs.covers _ halloc) rfl hs, rfl⟩
    exact htaken.trans hwrite

theorem tracks_sfsBlockFree (s : SfsFs) (b : ℕ) :
    Ensures (sfsBlockFree s b) fun after ↦ Tracks s after := by
  refine (sfsBlockInuse_spec s b).bind fun used hused ↦ Ensures.require fun _ ↦ ?_
  refine (bitmapFree_spec s.freemap b).bind fun freemap htaken ↦ Ensures.ok_iff.mpr ?_
  refine ⟨fun hs ↦ ⟨hs.covers.of_eq htaken.nbits.symm htaken.nwords.symm,
    htaken.nbits ▸ hs.blocks_le_nbits, ?_⟩, rfl⟩
  intro other hlt hfree
  by_cases heq : other = b
  · rw [heq]
    exact ⟨hused.1, hused.2.1⟩
  · have hnbits : freemap.nbits = s.freemap.nbits := htaken.nbits.symm
    exact hs.ranged other (hnbits ▸ hlt) ((htaken.rest other).mpr ⟨heq, hfree⟩)

/-! ## The block map -/

theorem tracks_sfsBmapCleanup (s : SfsFs) (code : Error) (entp ent : ℕ) :
    Ensures (sfsBmapCleanup s code entp ent) fun result ↦ Tracks s result.2.2 := by
  unfold sfsBmapCleanup
  split
  · exact (tracks_sfsBlockFree s ent).bind fun after h ↦ Ensures.ok_iff.mpr h
  · exact Ensures.ok_iff.mpr (Tracks.refl s)

theorem tracks_sfsBmapFill (s : SfsFs) (entp ent index : ℕ) :
    Ensures (sfsBmapFill s entp ent index) fun result ↦ Tracks s result.2.2 := by
  refine (tracks_sfsBlockAlloc s).bind ?_
  rintro ⟨code | ino, s1⟩ h1
  · exact h1.before (tracks_sfsBmapCleanup _ _ _ _)
  · refine (h1.before (tracks_sfsWbuf _ _ _ _ _)).bind ?_
    rintro ⟨code | _, s2⟩ h2
    · refine (h2.before (tracks_sfsBlockFree _ _)).bind fun s3 h3 ↦ ?_
      exact h3.before (tracks_sfsBmapCleanup _ _ _ _)
    · exact Ensures.ok_iff.mpr h2

theorem tracks_sfsBmapGetSubNolock (s : SfsFs) (entp index : ℕ) (create : Bool) :
    Ensures (sfsBmapGetSubNolock s entp index create) fun result ↦ Tracks s result.2.2 := by
  refine Ensures.require fun _ ↦ ?_
  split
  · refine Ensures.bind (fun _ _ ↦ trivial : Ensures _ fun _ ↦ True) ?_
    rintro (code | bytes) -
    · exact Ensures.ok_iff.mpr (Tracks.refl s)
    · dsimp only
      split
      · exact Ensures.ok_iff.mpr (Tracks.refl s)
      · exact tracks_sfsBmapFill _ _ _ _
  · split
    · exact Ensures.ok_iff.mpr (Tracks.refl s)
    · refine (tracks_sfsBlockAlloc s).bind ?_
      rintro ⟨code | ent, s1⟩ h1
      · exact Ensures.ok_iff.mpr h1
      · exact h1.before (tracks_sfsBmapFill _ _ _ _)

theorem tracks_sfsBmapGetOut (s : SfsFs) (sin : SfsInode) (ino : ℕ) :
    Ensures (sfsBmapGetOut s sin ino) fun result ↦ Tracks s result.2.1 :=
  (sfsBmapGetOut_spec s sin ino).mono fun _ h ↦ by
    rw [h]
    exact Tracks.refl s

theorem tracks_sfsBmapGetNolock (s : SfsFs) (sin : SfsInode) (index : ℕ) (create : Bool) :
    Ensures (sfsBmapGetNolock s sin index create) fun result ↦ Tracks s result.2.1 := by
  unfold sfsBmapGetNolock
  split
  · split
    · refine (tracks_sfsBlockAlloc s).bind ?_
      rintro ⟨code | ino, s1⟩ h1
      · exact Ensures.ok_iff.mpr h1
      · exact h1.before (tracks_sfsBmapGetOut _ _ _)
    · exact tracks_sfsBmapGetOut _ _ _
  · split
    · refine (tracks_sfsBmapGetSubNolock _ _ _ _).bind ?_
      rintro ⟨code | ino, ent, s1⟩ h1
      · exact Ensures.ok_iff.mpr h1
      · dsimp only
        split
        · exact Ensures.require fun _ ↦ h1.before (tracks_sfsBmapGetOut _ _ _)
        · exact h1.before (tracks_sfsBmapGetOut _ _ _)
    · exact Ensures.error

theorem tracks_sfsBmapLoadNolock (s : SfsFs) (sin : SfsInode) (index : ℕ) :
    Ensures (sfsBmapLoadNolock s sin index) fun result ↦ Tracks s result.2.1 := by
  refine Ensures.require fun _ ↦ (tracks_sfsBmapGetNolock _ _ _ _).bind ?_
  rintro ⟨code | ino, s1, sin1⟩ h1
  · exact Ensures.ok_iff.mpr h1
  · refine (sfsBlockInuse_spec s1 ino).bind fun used _ ↦ Ensures.require fun _ ↦ ?_
    split <;> exact Ensures.ok_iff.mpr h1

theorem tracks_sfsBmapFreeSubNolock (s : SfsFs) (ent index : ℕ) :
    Ensures (sfsBmapFreeSubNolock s ent index) fun result ↦ Tracks s result.2 := by
  refine (sfsBlockInuse_spec s ent).bind fun used _ ↦ Ensures.require fun _ ↦ ?_
  refine Ensures.require fun _ ↦ Ensures.bind (fun _ _ ↦ trivial : Ensures _ fun _ ↦ True) ?_
  rintro (code | bytes) -
  · exact Ensures.ok_iff.mpr (Tracks.refl s)
  · dsimp only
    split
    · refine (tracks_sfsWbuf _ _ _ _ _).bind ?_
      rintro ⟨code | _, s1⟩ h1
      · exact Ensures.ok_iff.mpr h1
      · exact (h1.before (tracks_sfsBlockFree _ _)).bind fun s2 h2 ↦ Ensures.ok_iff.mpr h2
    · exact Ensures.ok_iff.mpr (Tracks.refl s)

theorem tracks_sfsBmapFreeNolock (s : SfsFs) (sin : SfsInode) (index : ℕ) :
    Ensures (sfsBmapFreeNolock s sin index) fun result ↦ Tracks s result.2.1 := by
  unfold sfsBmapFreeNolock
  split
  · split
    · exact (tracks_sfsBlockFree _ _).bind fun s1 h1 ↦ Ensures.ok_iff.mpr h1
    · exact Ensures.ok_iff.mpr (Tracks.refl s)
  · split
    · exact (tracks_sfsBmapFreeSubNolock _ _ _).bind fun _ h1 ↦ Ensures.ok_iff.mpr h1
    · exact Ensures.ok_iff.mpr (Tracks.refl s)

theorem tracks_sfsBmapTruncateNolock (s : SfsFs) (sin : SfsInode) :
    Ensures (sfsBmapTruncateNolock s sin) fun result ↦ Tracks s result.2.1 := by
  refine Ensures.require fun _ ↦ (tracks_sfsBmapFreeNolock _ _ _).bind ?_
  rintro ⟨code | _, s1, sin1⟩ h1 <;> exact Ensures.ok_iff.mpr h1

/-! ## Files -/

theorem tracks_sfsTruncfileGrow (nblks count : ℕ) (s : SfsFs) (sin : SfsInode) :
    Ensures (sfsTruncfileGrow nblks count s sin) fun result ↦ Tracks s result.2.1 := by
  induction count generalizing nblks s sin with
  | zero => exact Ensures.ok_iff.mpr (Tracks.refl s)
  | succ count ih =>
    refine (tracks_sfsBmapLoadNolock _ _ _).bind ?_
    rintro ⟨code | ino, s1, sin1⟩ h1
    · exact Ensures.ok_iff.mpr h1
    · exact h1.before (ih _ _ _)

theorem tracks_sfsTruncfileShrink (count : ℕ) (s : SfsFs) (sin : SfsInode) :
    Ensures (sfsTruncfileShrink count s sin) fun result ↦ Tracks s result.2.1 := by
  induction count generalizing s sin with
  | zero => exact Ensures.ok_iff.mpr (Tracks.refl s)
  | succ count ih =>
    refine (tracks_sfsBmapTruncateNolock _ _).bind ?_
    rintro ⟨code | _, s1, sin1⟩ h1
    · exact Ensures.ok_iff.mpr h1
    · exact h1.before (ih _ _)

theorem tracks_sfsTruncfile (s : SfsFs) (sin : SfsInode) (len : ℤ) :
    Ensures (sfsTruncfile s sin len) fun result ↦ Tracks s result.2.1 := by
  unfold sfsTruncfile
  split
  · exact Ensures.ok_iff.mpr (Tracks.refl s)
  · dsimp only
    split
    · exact Ensures.require fun _ ↦ Ensures.ok_iff.mpr (Tracks.refl s)
    · have hresize : Ensures (sfsTruncfileResize s sin sin.blocks (roundupBlocks len.toNat))
          fun result ↦ Tracks s result.2.1 := by
        unfold sfsTruncfileResize
        split
        · exact tracks_sfsTruncfileGrow _ _ _ _
        · exact tracks_sfsTruncfileShrink _ _ _
      refine hresize.bind ?_
      rintro ⟨code | _, s1, sin1⟩ h1
      · exact Ensures.ok_iff.mpr h1
      · exact Ensures.require fun _ ↦ Ensures.ok_iff.mpr h1

theorem tracks_sfsTryseek (s : SfsFs) (sin : SfsInode) (pos : ℤ) :
    Ensures (sfsTryseek s sin pos) fun result ↦ Tracks s result.2.1 := by
  unfold sfsTryseek
  split
  · exact Ensures.ok_iff.mpr (Tracks.refl s)
  · split
    · exact tracks_sfsTruncfile _ _ _
    · exact Ensures.ok_iff.mpr (Tracks.refl s)

/-! ## Input and output -/

theorem tracks_andThen {part : Outcome (Ret Unit × Io)} {rest : Io → Outcome (Ret Unit × Io)}
    (hpart : Ensures part fun result ↦ Tracks s result.2.fs)
    (hrest : ∀ io', Ensures (rest io') fun result ↦ Tracks io'.fs result.2.fs) :
    Ensures (Io.andThen part rest) fun result ↦ Tracks s result.2.fs := by
  refine hpart.bind ?_
  rintro ⟨code | _, io'⟩ h
  · exact Ensures.ok_iff.mpr h
  · exact h.before (hrest io')

theorem tracks_load {rest : ℕ → Io → Outcome (Ret Unit × Io)}
    (hrest : ∀ ino io', Ensures (rest ino io') fun result ↦ Tracks io'.fs result.2.fs) :
    Ensures (io.load rest) fun result ↦ Tracks io.fs result.2.fs := by
  refine (tracks_sfsBmapLoadNolock _ _ _).bind ?_
  rintro ⟨code | ino, s1, sin1⟩ h1
  · exact Ensures.ok_iff.mpr h1
  · exact h1.before (hrest ino { io with fs := s1, sin := sin1 })

theorem tracks_sfsBufOp (write : Bool) (io : Io) (buf len blkno offset : ℕ) :
    Ensures (sfsBufOp write io buf len blkno offset) fun result ↦ Tracks io.fs result.2.fs := by
  unfold sfsBufOp
  split
  · refine (tracks_sfsWbuf _ _ _ _ _).bind ?_
    rintro ⟨code | _, s1⟩ h1 <;> exact Ensures.ok_iff.mpr h1
  · refine Ensures.bind (fun _ _ ↦ trivial : Ensures _ fun _ ↦ True) ?_
    rintro (code | data) - <;> exact Ensures.ok_iff.mpr (Tracks.refl io.fs)

theorem tracks_sfsBlockOp (write : Bool) (io : Io) (buf blkno : ℕ) :
    Ensures (sfsBlockOp write io buf blkno) fun result ↦ Tracks io.fs result.2.fs := by
  unfold sfsBlockOp
  split
  · refine (tracks_sfsWblock _ _ _).bind ?_
    rintro ⟨code | _, s1⟩ h1 <;> exact Ensures.ok_iff.mpr h1
  · refine Ensures.bind (fun _ _ ↦ trivial : Ensures _ fun _ ↦ True) ?_
    rintro (code | data) - <;> exact Ensures.ok_iff.mpr (Tracks.refl io.fs)

theorem tracks_sfsIoFirst (write : Bool) (io : Io) (blkoff size : ℕ) :
    Ensures (sfsIoFirst write io blkoff size) fun result ↦ Tracks io.fs result.2.fs :=
  tracks_load fun _ io' ↦ tracks_andThen (tracks_sfsBufOp write io' _ _ _ _) fun io'' ↦
    Ensures.ok_iff.mpr (Tracks.refl io''.fs)

theorem tracks_sfsIoBlocks (write : Bool) (nblks : ℕ) (io : Io) :
    Ensures (sfsIoBlocks write nblks io) fun result ↦ Tracks io.fs result.2.fs := by
  induction nblks generalizing io with
  | zero => exact Ensures.ok_iff.mpr (Tracks.refl io.fs)
  | succ nblks ih =>
    exact tracks_load fun _ io' ↦ tracks_andThen (tracks_sfsBlockOp write io' _ _) fun io'' ↦ ih _

theorem tracks_sfsIoLast (write : Bool) (io : Io) (endpos : ℕ) :
    Ensures (sfsIoLast write io endpos) fun result ↦ Tracks io.fs result.2.fs := by
  unfold sfsIoLast
  split
  · exact tracks_load fun _ io' ↦ tracks_andThen (tracks_sfsBufOp write io' _ _ _ _) fun io'' ↦
      Ensures.ok_iff.mpr (Tracks.refl io''.fs)
  · exact Ensures.ok_iff.mpr (Tracks.refl io.fs)

theorem tracks_sfsIoParts (write : Bool) (io : Io) (offset endpos : ℕ) :
    Ensures (sfsIoParts write io offset endpos) fun result ↦ Tracks io.fs result.2.fs := by
  unfold sfsIoParts
  dsimp only
  split
  · refine tracks_andThen (tracks_sfsIoFirst _ _ _ _) fun io' ↦ ?_
    split
    · exact Ensures.ok_iff.mpr (Tracks.refl io'.fs)
    · exact tracks_andThen (tracks_sfsIoBlocks _ _ _) fun io'' ↦ tracks_sfsIoLast _ _ _
  · exact tracks_andThen (tracks_sfsIoBlocks _ _ _) fun io' ↦ tracks_sfsIoLast _ _ _

theorem tracks_sfsIoNolock (s : SfsFs) (sin : SfsInode) (memory : Bytes) (buf : ℕ) (offset : ℤ)
    (len : ℕ) (write : Bool) : Ensures (sfsIoNolock s sin memory buf offset len write)
      fun result ↦ Tracks s result.2.fs := by
  refine Ensures.require fun _ ↦ ?_
  dsimp only
  split
  · exact Ensures.ok_iff.mpr (Tracks.refl s)
  · split
    · exact Ensures.ok_iff.mpr (Tracks.refl s)
    · refine (tracks_sfsIoParts _ _ _ _).bind fun (ret, io) h ↦ Ensures.ok_iff.mpr ?_
      refine h.trans ?_
      unfold sfsIoOut
      split <;> exact Tracks.refl io.fs

/-! ## Directories -/

theorem tracks_sfsDirentReadNolock (s : SfsFs) (sin : SfsInode) (slot : ℕ) :
    Ensures (sfsDirentReadNolock s sin slot) fun result ↦ Tracks s result.2.1 := by
  refine Ensures.require fun _ ↦ (tracks_sfsBmapLoadNolock _ _ _).bind ?_
  rintro ⟨code | ino, s1, sin1⟩ h1
  · exact Ensures.ok_iff.mpr h1
  · refine (sfsBlockInuse_spec s1 ino).bind fun used _ ↦ Ensures.require fun _ ↦ ?_
    refine Ensures.bind (fun _ _ ↦ trivial : Ensures _ fun _ ↦ True) ?_
    rintro (code | bytes) - <;> exact Ensures.ok_iff.mpr h1

theorem tracks_sfsDirentSearchFrom (name : Name) (i left : ℕ) (s : SfsFs) (sin : SfsInode) :
    Ensures (sfsDirentSearchFrom name i left s sin) fun result ↦ Tracks s result.2.1 := by
  induction left generalizing i s sin with
  | zero => exact Ensures.ok_iff.mpr (Tracks.refl s)
  | succ left ih =>
    refine (tracks_sfsDirentReadNolock _ _ _).bind ?_
    rintro ⟨code | entry, s1, sin1⟩ h1
    · exact Ensures.ok_iff.mpr h1
    · dsimp only
      split
      · exact h1.before (ih _ _ _)
      · split
        · exact Ensures.ok_iff.mpr h1
        · exact h1.before (ih _ _ _)

theorem tracks_sfsLookupOnce (s : SfsFs) (sin : SfsInode) (cached : ℕ → Option SfsInode)
    (memory din node : Bool) (name : Name) :
    Ensures (sfsLookupOnce s sin cached memory din node name) fun result ↦ Tracks s result.2.1 := by
  have hsearch : Ensures (sfsDirentSearchNolock memory s sin name)
      fun result ↦ Tracks s result.2.1 := by
    refine Ensures.require fun _ ↦ ?_
    split
    · exact Ensures.ok_iff.mpr (Tracks.refl s)
    · exact tracks_sfsDirentSearchFrom _ _ _ _ _
  refine hsearch.bind ?_
  rintro ⟨code | ⟨slot, ino⟩, s1, sin1⟩ h1
  · exact Ensures.ok_iff.mpr h1
  · exact Ensures.bind (fun _ _ ↦ trivial : Ensures _ fun _ ↦ True) fun _ _ ↦ Ensures.ok_iff.mpr h1

end Tracks

/-! ## Runs -/

/-- A call of the kernel that uses the free map, on any inode, or one that writes a block or gives
the block of an inode back. -/
inductive KernelStep : SfsFs → SfsFs → Prop where
  | io {s : SfsFs} {sin : SfsInode} {memory : Bytes} {buf : ℕ} {offset : ℤ} {len : ℕ} {write : Bool}
    {ret : Ret Unit} {io : Io} (hcall : sfsIoNolock s sin memory buf offset len write = .ok (ret, io)) :
    KernelStep s io.fs
  | tryseek {s s' : SfsFs} {sin sin' : SfsInode} {pos : ℤ} {ret : Ret Unit}
    (hcall : sfsTryseek s sin pos = .ok (ret, s', sin')) : KernelStep s s'
  | truncfile {s s' : SfsFs} {sin sin' : SfsInode} {len : ℤ} {ret : Ret Unit}
    (hcall : sfsTruncfile s sin len = .ok (ret, s', sin')) : KernelStep s s'
  | lookup {s s' : SfsFs} {sin sin' : SfsInode} {cached : ℕ → Option SfsInode}
    {memory din node : Bool} {name : Name} {ret : Ret (ℕ × SfsInode)}
    (hcall : sfsLookupOnce s sin cached memory din node name = .ok (ret, s', sin')) : KernelStep s s'
  | getdirentry {s s' : SfsFs} {sin sin' : SfsInode} {slot : ℕ} {ret : Ret DiskEntry}
    (hcall : sfsDirentReadNolock s sin slot = .ok (ret, s', sin')) : KernelStep s s'
  | reclaim {s s' : SfsFs} {ino : ℕ} (hcall : sfsBlockFree s ino = .ok s') : KernelStep s s'
  | sync {s s' : SfsFs} {data : Bytes} {blkno : ℕ} {ret : Ret Unit}
    (hcall : sfsWblock s data blkno = .ok (ret, s')) : KernelStep s s'

theorem KernelStep.tracks {s s' : SfsFs} (h : KernelStep s s') : Tracks s s' := by
  cases h with
  | io hcall => exact tracks_sfsIoNolock _ _ _ _ _ _ _ _ hcall
  | tryseek hcall => exact tracks_sfsTryseek _ _ _ _ hcall
  | truncfile hcall => exact tracks_sfsTruncfile _ _ _ _ hcall
  | lookup hcall => exact tracks_sfsLookupOnce _ _ _ _ _ _ _ _ hcall
  | getdirentry hcall => exact tracks_sfsDirentReadNolock _ _ _ _ hcall
  | reclaim hcall => exact tracks_sfsBlockFree _ _ _ hcall
  | sync hcall => exact tracks_sfsWblock _ _ _ _ hcall

theorem tracks_of_reachable {first s : SfsFs}
    (h : Reachable (fun start ↦ start = first) KernelStep s) : Tracks first s :=
  h.invariant (fun start (heq : start = first) ↦ heq ▸ Tracks.refl first)
    fun _ _ htracks hstep ↦ htracks.trans hstep.tracks

/-- `bitmap_alloc` answers with a block of the file system that was free, and fails when there is
none. -/
structure AllocatesRight (s : SfsFs) (result : Option (ℕ × Bitmap)) : Prop where
  none_iff : result = none ↔ ∀ b < s.blocks, ¬s.freemap.Free b
  some : ∀ b after, result = some (b, after) → b < s.blocks ∧ s.freemap.Free b

theorem bitmapAlloc_right {s : SfsFs} (h : Bounded s) :
    ∃ result, bitmapAlloc s.freemap = .ok result ∧ AllocatesRight s result := by
  rcases (completes_bitmapAlloc s.freemap).post (bitmapAlloc_spec h.covers) with
    ⟨result, hcall, hresult⟩
  refine ⟨result, hcall, ?_⟩
  rcases result with _ | ⟨b, after⟩
  · exact ⟨⟨fun _ b hlt ↦ hresult b (hlt.trans_le h.blocks_le_nbits), fun _ ↦ rfl⟩, nofun⟩
  · have htaken : Bitmap.Taken s.freemap after b := hresult
    have hlt := (h.ranged b htaken.index_lt htaken.free).2
    refine ⟨⟨nofun, fun hnone ↦ absurd htaken.free (hnone b hlt)⟩, ?_⟩
    rintro _ _ ⟨⟩
    exact ⟨hlt, htaken.free⟩

end Ucore.Fs
