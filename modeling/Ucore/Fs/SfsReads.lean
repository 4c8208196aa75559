import Ucore.Fs.SfsAccounts

/-!
# What a read leaves in memory

A read writes nothing below its buffer. When its tail lands beyond the buffer, the place where the
tail belongs keeps what it has held.
-/

namespace Ucore.Fs

open Library

/-! ## Memory that stays -/

section Memory

variable {io : Io} {buf len ino o size endpos : ℕ}

/-- Only `len` bytes from `buf` on may have changed. -/
def SameOutside (buf len : ℕ) (memory memory' : Bytes) : Prop :=
  ∀ address, address < buf ∨ buf + len ≤ address → memory' address = memory address

def SameBelow (bound : ℕ) (memory memory' : Bytes) : Prop :=
  ∀ address < bound, memory' address = memory address

theorem SameBelow.refl (bound : ℕ) (memory : Bytes) : SameBelow bound memory memory := fun _ _ ↦ rfl

theorem SameBelow.trans {bound : ℕ} {memory memory' memory'' : Bytes}
    (h : SameBelow bound memory memory') (h' : SameBelow bound memory' memory'') :
    SameBelow bound memory memory'' := fun address hlt ↦ (h' address hlt).trans (h address hlt)

theorem SameBelow.mono {bound bound' : ℕ} {memory memory' : Bytes}
    (h : SameBelow bound memory memory') (hle : bound' ≤ bound) : SameBelow bound' memory memory' :=
  fun address hlt ↦ h address (hlt.trans_le hle)

theorem SameOutside.below {memory memory' : Bytes} (h : SameOutside buf len memory memory') :
    SameBelow buf memory memory' := fun address hlt ↦ h address (Or.inl hlt)

theorem store_outside (io : Io) (buf len : ℕ) (data : Bytes) :
    SameOutside buf len io.memory (io.store buf len data).memory := by
  intro address hout
  rw [Io.store]
  exact overlay_outside hout

/-- Going on from a part, for what holds of the memory whether the part succeeds or not. -/
theorem andThen_ensures {part : Outcome (Ret Unit × Io)} {next : Io → Outcome (Ret Unit × Io)}
    {Middle : Io → Prop} {Post : Ret Unit × Io → Prop}
    (hpart : Ensures part fun result ↦ Middle result.2)
    (herror : ∀ code io', Middle io' → Post (.error code, io'))
    (hnext : ∀ io', Middle io' → Ensures (next io') Post) : Ensures (Io.andThen part next) Post :=
  Io.andThen_spec hpart (fun code io' hmiddle ↦ herror code io' hmiddle) fun io' hmiddle ↦
    hnext io' hmiddle

/-- Looking up a block changes neither the memory nor the place in it. -/
theorem load_ensures {next : ℕ → Io → Outcome (Ret Unit × Io)} {Post : Ret Unit × Io → Prop}
    (herror : ∀ code fs sin, Post (.error code, { io with fs, sin }))
    (hnext : ∀ ino fs sin, Ensures (next ino { io with fs, sin }) Post) :
    Ensures (io.load next) Post := by
  unfold Io.load
  intro result hresult
  rcases Outcome.bind_eq_ok.mp hresult with ⟨⟨code, fs, sin⟩, -, hresult⟩
  cases code with
  | error code =>
    cases hresult
    exact herror code fs sin
  | ok ino => exact hnext ino fs sin result hresult

/-- After one operation of a read. -/
structure StoredAt (io : Io) (buf len : ℕ) (io' : Io) : Prop where
  memory : SameOutside buf len io.memory io'.memory
  buf : io'.buf = io.buf
  alen : io'.alen = io.alen

theorem sfsBufOp_stored (io : Io) (buf len ino o : ℕ) :
    Ensures (sfsBufOp false io buf len ino o) fun result ↦ StoredAt io buf len result.2 := by
  unfold sfsBufOp
  rw [if_neg Bool.false_ne_true]
  intro result hresult
  rcases Outcome.bind_eq_ok.mp hresult with ⟨data, -, hresult⟩
  cases data with
  | error code =>
    cases hresult
    exact ⟨fun _ _ ↦ rfl, rfl, rfl⟩
  | ok data =>
    cases hresult
    exact ⟨store_outside io buf len data, rfl, rfl⟩

theorem sfsBlockOp_stored (io : Io) (buf ino : ℕ) :
    Ensures (sfsBlockOp false io buf ino) fun result ↦ StoredAt io buf SFS_BLKSIZE result.2 := by
  unfold sfsBlockOp
  rw [if_neg Bool.false_ne_true]
  intro result hresult
  rcases Outcome.bind_eq_ok.mp hresult with ⟨data, -, hresult⟩
  cases data with
  | error code =>
    cases hresult
    exact ⟨fun _ _ ↦ rfl, rfl, rfl⟩
  | ok data =>
    cases hresult
    exact ⟨store_outside io buf SFS_BLKSIZE data, rfl, rfl⟩

/-- After the first part. -/
theorem sfsIoFirst_memory (io : Io) (blkoff size : ℕ) :
    Ensures (sfsIoFirst false io blkoff size) fun result ↦
      SameOutside io.buf size io.memory result.2.memory ∧
      (result.1 = .ok () → result.2.buf = io.buf + size ∧ result.2.alen = io.alen + size) := by
  refine load_ensures (fun _ _ _ ↦ ⟨fun _ _ ↦ rfl, nofun⟩) fun ino fs sin ↦ ?_
  refine andThen_ensures (sfsBufOp_stored _ _ _ _ _) (fun code io' h ↦ ⟨h.memory, nofun⟩) fun io' h ↦ ?_
  rw [Outcome.pure_eq_ok, Ensures.ok_iff]
  refine ⟨h.memory, fun _ ↦ ⟨?_, ?_⟩⟩
  · exact congrArg (· + size) h.buf
  · exact congrArg (· + size) h.alen

/-- The loop over whole blocks goes upwards. -/
theorem sfsIoBlocks_memory (count : ℕ) (io : Io) : Ensures (sfsIoBlocks false count io) fun result ↦
    SameBelow io.buf io.memory result.2.memory ∧ io.buf ≤ result.2.buf := by
  induction count generalizing io with
  | zero => exact Ensures.ok_iff.mpr ⟨SameBelow.refl _ _, le_rfl⟩
  | succ count ih =>
    refine load_ensures (fun _ _ _ ↦ ⟨SameBelow.refl _ _, le_rfl⟩) fun ino fs sin ↦ ?_
    refine andThen_ensures (sfsBlockOp_stored _ _ _) (fun code io' h ↦ ⟨h.memory.below, h.buf.ge⟩)
      fun io' h ↦ ?_
    refine (ih _).mono ?_
    rintro result ⟨hmemory, hle⟩
    have hbuf : io'.buf = io.buf := h.buf
    dsimp only at hmemory hle
    have hlow : io.buf ≤ io'.buf + SFS_BLKSIZE := by
      rw [hbuf]
      exact Nat.le_add_right ..
    exact ⟨h.memory.below.trans (hmemory.mono hlow), hlow.trans hle⟩

theorem sfsIoLast_memory (io : Io) (endpos : ℕ) : Ensures (sfsIoLast false io endpos) fun result ↦
    SameBelow (io.buf + io.alen) io.memory result.2.memory := by
  unfold sfsIoLast
  split
  · refine load_ensures (fun _ _ _ ↦ SameBelow.refl _ _) fun ino fs sin ↦ ?_
    refine andThen_ensures (sfsBufOp_stored _ _ _ _ _) (fun code io' h ↦ h.memory.below) fun io' h ↦ ?_
    exact Ensures.ok_iff.mpr h.memory.below
  · exact Ensures.ok_iff.mpr (SameBelow.refl _ _)

/-- The loop and the last part. -/
theorem sfsIoRest_memory (count : ℕ) (io : Io) (endpos : ℕ) :
    Ensures (Io.andThen (sfsIoBlocks false count io) fun io ↦ sfsIoLast false io endpos) fun result ↦
      SameBelow io.buf io.memory result.2.memory := by
  refine Io.andThen_spec (sfsIoBlocks_memory count io) (fun code io' h ↦ h.1) fun io' h ↦ ?_
  refine (sfsIoLast_memory io' endpos).mono fun result hmemory ↦ ?_
  exact h.1.trans (hmemory.mono (h.2.trans (Nat.le_add_right ..)))

theorem sfsIoParts_memory (io : Io) (offset endpos : ℕ) :
    Ensures (sfsIoParts false io offset endpos) fun result ↦
      SameBelow io.buf io.memory result.2.memory := by
  unfold sfsIoParts
  dsimp only
  split
  · refine Io.andThen_spec (sfsIoFirst_memory _ _ _) (fun code io' h ↦ h.1.below) fun io' h ↦ ?_
    rcases h with ⟨hmemory, hbuf⟩
    dsimp only at hmemory hbuf
    split
    · exact Ensures.ok_iff.mpr hmemory.below
    · refine (sfsIoRest_memory _ _ _).mono fun result hrest ↦ ?_
      refine hmemory.below.trans (hrest.mono ?_)
      dsimp only
      rw [(hbuf rfl).1]
      exact Nat.le_add_right ..
  · exact sfsIoRest_memory _ _ _

/-- The first byte of the tail does not get to its place. -/
theorem sfsIoParts_tail {io : Io} {offset endpos : ℕ} (hblkno : io.blkno = offset / SFS_BLKSIZE)
    (hmoved : TailMoved offset endpos) (hlt : offset < endpos)
    (hle : endpos ≤ offset + SFS_BLKSIZE) : Ensures (sfsIoParts false io offset endpos) fun result ↦
      result.1 = .ok () → result.2.memory (io.buf + (SFS_BLKSIZE - offset % SFS_BLKSIZE)) =
        io.memory (io.buf + (SFS_BLKSIZE - offset % SFS_BLKSIZE)) := by
  rcases hmoved with ⟨hlast, hnext⟩
  have hone : endpos / SFS_BLKSIZE - io.blkno = 1 := by
    rw [hblkno]
    unfold SFS_BLKSIZE at *
    omega
  have hoff : offset % SFS_BLKSIZE ≠ 0 := by
    unfold SFS_BLKSIZE at *
    omega
  have hpos : 0 < SFS_BLKSIZE - offset % SFS_BLKSIZE := by
    unfold SFS_BLKSIZE at *
    omega
  generalize hsize : SFS_BLKSIZE - offset % SFS_BLKSIZE = size at *
  unfold sfsIoParts
  simp only [hone, hoff, ne_eq, not_false_eq_true, if_true, one_ne_zero, if_false, hsize]
  refine Io.andThen_spec (sfsIoFirst_memory _ _ _) (fun code io' _ ↦ nofun) fun io' h ↦ ?_
  rcases h with ⟨hmemory, hbuf⟩
  dsimp only at hmemory hbuf
  -- no whole block, so that the last part comes next
  have hlastPart : Ensures (sfsIoLast false { io' with blkno := io'.blkno + 1 } endpos) fun result ↦
      SameBelow (io'.buf + io'.alen) io'.memory result.2.memory :=
    sfsIoLast_memory _ _
  refine hlastPart.mono fun result hrest _ ↦ ?_
  rcases hbuf rfl with ⟨hbuf, halen⟩
  rw [hrest _ (by omega)]
  exact hmemory _ (Or.inr le_rfl)

end Memory

/-! ## A chunk of a file -/

/-- The number of bytes that there are to read. -/
def available (sin : SfsInode) (pos : ℤ) (len : ℕ) : ℕ := min len (sin.size - pos.toNat)

/-- Where the last part of a read begins that goes over one block boundary. -/
def tailStart (pos : ℤ) : ℕ := SFS_BLKSIZE - pos.toNat % SFS_BLKSIZE

/-- What reading a chunk leaves in memory. -/
structure ChunkRead (s : SfsFs) (sin : SfsInode) (pos : ℤ) (len buf n : ℕ) (memory memory' : Bytes) :
    Prop where
  below : SameBelow buf memory memory'
  bytes : ¬TailBeyond sin pos len false →
    ∀ index < n, memory' (buf + index) = fileByte s sin (pos.toNat + index)
  tail : TailBeyond sin pos len false →
    tailStart pos < n ∧ memory' (buf + tailStart pos) = memory (buf + tailStart pos)

section Chunk

variable {s : SfsFs} {sin : SfsInode} {rest : ℕ → Prop} {memory : Bytes} {buf len : ℕ} {pos : ℤ}

theorem size_le_of_covered (h : Owns s sin rest) (hcovered : Covered sin) :
    sin.size ≤ MAX_BLOCKS * SFS_BLKSIZE := by
  have hle := hcovered.trans h.blocks_le
  unfold blocksFor SFS_BLKSIZE at *
  omega

theorem sfsIoEndpos_read (hsize : sin.size ≤ SFS_MAX_FILE_SIZE) (hpos : 0 ≤ pos)
    (hlt : pos < SFS_MAX_FILE_SIZE) (hlen : len ≤ SFS_BLKSIZE) :
    sfsIoEndpos sin pos len false = .ok (pos.toNat + available sin pos len) := by
  unfold SFS_MAX_FILE_SIZE at hsize hlt
  unfold SFS_BLKSIZE at hlen
  have hsum : int64 (pos + len) = pos + len := by
    unfold int64
    omega
  have hvalid : ¬(pos < 0 ∨ (SFS_MAX_FILE_SIZE : ℤ) ≤ pos ∨ pos + len < pos) := by
    unfold SFS_MAX_FILE_SIZE
    omega
  unfold sfsIoEndpos available
  dsimp only
  rw [hsum, if_neg hvalid]
  unfold SFS_MAX_FILE_SIZE
  simp only [Bool.false_eq_true, if_false]
  split
  · congr 1
    omega
  · split
    · congr 1
      omega
    · congr 1
      omega

/-- A read of a chunk succeeds, changes nothing of the file system and gets what there is. -/
theorem sfsIoNolock_chunk (memory : Bytes) (buf : ℕ) (h : Owns s sin rest) (hranged : Ranged s) (hcovered : Covered sin)
    (htype : sin.type ≠ SFS_TYPE_DIR) (hpos : 0 ≤ pos) (hlt : pos < SFS_MAX_FILE_SIZE)
    (hlen : len ≤ SFS_BLKSIZE) : ∃ io, sfsIoNolock s sin memory buf pos len false = .ok (.ok (), io) ∧
      io.fs = s ∧ io.sin = sin ∧ io.alen = available sin pos len ∧
      ChunkRead s sin pos len buf io.alen memory io.memory := by
  have hsize : sin.size ≤ SFS_MAX_FILE_SIZE :=
    (size_le_of_covered h hcovered).trans (by decide)
  have hendpos := sfsIoEndpos_read hsize hpos hlt hlen
  by_cases hnone : available sin pos len = 0
  · -- nothing to read
    rw [hnone, Nat.add_zero] at hendpos
    have hcall : sfsIoNolock s sin memory buf pos len false =
        .ok (.ok (), ⟨s, sin, memory, [], buf, 0, pos.toNat / SFS_BLKSIZE⟩) := by
      rw [sfsIoNolock, Outcome.require_of_true htype, Outcome.ok_bind]
      simp only [hendpos, if_true]
      rfl
    refine ⟨_, hcall, rfl, rfl, hnone.symm, SameBelow.refl _ _,
      fun _ _ hindex ↦ absurd hindex (Nat.not_lt_zero _), ?_⟩
    rintro ⟨endpos, hendpos', hmoved⟩
    rw [hendpos] at hendpos'
    cases hendpos'
    exact absurd rfl hmoved.2
  · have hmoves : Moves sin pos len false (pos.toNat + available sin pos len) :=
      ⟨hendpos, by omega⟩
    have hstop : blocksFor (pos.toNat + available sin pos len) ≤ sin.blocks := by
      refine (blocksFor_mono ?_).trans hcovered
      unfold available at hnone ⊢
      omega
    have hfirst : pos.toNat / SFS_BLKSIZE ≤ sin.blocks := by
      unfold blocksFor SFS_BLKSIZE at *
      omega
    have hroom : blocksFor (pos.toNat + available sin pos len) ≤ capacity s sin :=
      hstop.trans (le_capacity h.blocks_le)
    have hwritten : ∃ ret io, sfsIoNolock s sin memory buf pos len false = .ok (ret, io) ∧ _ :=
      sfsIoNolock_written h hranged htype hmoves hfirst (Or.inl (hstop.trans h.blocks_le))
    rcases hwritten with ⟨ret, io, hcall, -, halen, hret⟩
    cases hret.mpr hroom
    rw [reach, if_pos hroom] at halen
    rcases sfsIoNolock_read h hranged hcovered hcall with ⟨hfs, hsin, -⟩
    refine ⟨io, hcall, hfs, hsin, by omega, ?_⟩
    rcases (sfsIoNolock_spec h _ _ _ _ _ _ hcall).2 rfl with ⟨endpos, hendpos', -, hfinished⟩
    rw [hendpos] at hendpos'
    cases hendpos'
    -- the parts of the call, for the memory
    have hunfolded := hcall
    rw [sfsIoNolock_moves htype hmoves] at hunfolded
    rcases Outcome.bind_eq_ok.mp hunfolded with ⟨⟨ret, io'⟩, hparts, hout⟩
    cases hout
    have hmemory : (sfsIoOut io' pos.toNat).memory = io'.memory :=
      (sfsIoOut_same io' pos.toNat).2.2.2.1
    refine ⟨?_, fun hstay index hindex ↦ ?_, ?_⟩
    · rw [hmemory]
      exact sfsIoParts_memory _ _ _ _ hparts
    · have hprogress := (hfinished rfl).2.1 fun hmoved ↦ hstay ⟨_, hendpos, hmoved⟩
      rw [← hprogress.bytes index hindex]
      dsimp only at hfs hsin ⊢
      rw [hfs, hsin]
    · rintro ⟨endpos, hendpos', hmoved⟩
      rw [hendpos] at hendpos'
      cases hendpos'
      have hle : available sin pos len ≤ len := min_le_left _ _
      have hbeyond : tailStart pos < available sin pos len := by
        rcases hmoved with ⟨hlast, hnext⟩
        unfold tailStart
        unfold SFS_BLKSIZE at *
        omega
      rw [hmemory]
      exact ⟨by omega,
        sfsIoParts_tail rfl hmoved (by omega) (by omega) _ hparts rfl⟩

end Chunk

end Ucore.Fs
