import Ucore.Fs.SfsCapacity

/-!
# How far a transfer gets

A transfer maps the blocks that it passes, one after the other, so it gets as far as the capacity of
the file. There it fails; only when the capacity is all that a block map can hold does it not come
back. `Advances` says this of one part, and parts in sequence advance as far as the last one.
-/

namespace Ucore.Fs

open Library

/-- A transfer from `offset` on has got to `pos`, and the file has blocks up to `stop` at least. -/
structure Reached (s : SfsFs) (sin : SfsInode) (rest : ℕ → Prop) (offset pos stop blkno : ℕ)
    (io : Io) : Prop where
  owns : Owns io.fs io.sin rest
  ranged : Ranged io.fs
  capacity_eq : capacity io.fs io.sin = capacity s sin
  blocks : io.sin.blocks = max sin.blocks stop
  size : io.sin.size = sin.size
  type : io.sin.type = sin.type
  place : offset + io.alen = pos
  blkno : io.blkno = blkno

/-- A part of a transfer ends at `pos` in a file of `stop` blocks, or with as many blocks as there
can be. -/
def Advances (s : SfsFs) (sin : SfsInode) (rest : ℕ → Prop) (offset pos stop blkno : ℕ)
    (call : Outcome (Ret Unit × Io)) : Prop :=
  (stop ≤ capacity s sin ∧ ∃ io, call = .ok (.ok (), io) ∧
    Reached s sin rest offset pos stop blkno io) ∨
  (capacity s sin < stop ∧ capacity s sin < MAX_BLOCKS ∧ ∃ io blkno, call = .ok (.error .noMem, io) ∧
    Reached s sin rest offset (max offset (capacity s sin * SFS_BLKSIZE)) (capacity s sin) blkno io) ∨
  (MAX_BLOCKS < stop ∧ capacity s sin = MAX_BLOCKS ∧ ¬Completes call)

variable {write : Bool} {s : SfsFs} {sin : SfsInode} {rest : ℕ → Prop} {io : Io}
  {offset pos stop blkno : ℕ}

/-! ## One operation on a block of the file -/

theorem sfsBufOp_eq (write : Bool) (buf : ℕ) {len ino o : ℕ} (h : Geometry io.fs) (hpos : 0 < ino)
    (hlt : ino < io.fs.blocks) (ho : o < SFS_BLKSIZE) (hlen : o + len ≤ SFS_BLKSIZE) :
    ∃ io', sfsBufOp write io buf len ino o = .ok (.ok (), io') ∧
      Transferred write io buf len ino o io' := by
  have hcall : Completes (sfsBufOp write io buf len ino o) := by
    unfold sfsBufOp
    cases write with
    | false =>
      rw [if_neg Bool.false_ne_true, sfsRbuf_eq h hpos hlt ho hlen]
      exact Completes.ok _
    | true =>
      rw [if_pos rfl, sfsWbuf_eq h hpos hlt ho hlen]
      exact Completes.ok _
  rcases hcall.post (sfsBufOp_spec h) with ⟨⟨ret, io'⟩, hret, rfl, -, hmoved⟩
  exact ⟨io', hret, hmoved⟩

theorem sfsBlockOp_eq (write : Bool) (buf : ℕ) {ino : ℕ} (h : Geometry io.fs) (hpos : 0 < ino)
    (hlt : ino < io.fs.blocks) : ∃ io', sfsBlockOp write io buf ino = .ok (.ok (), io') ∧
      Transferred write io buf SFS_BLKSIZE ino 0 io' := by
  have hcall : Completes (sfsBlockOp write io buf ino) := by
    unfold sfsBlockOp
    cases write with
    | false =>
      rw [if_neg Bool.false_ne_true, sfsRblock_eq h hpos hlt]
      exact Completes.ok _
    | true =>
      rw [if_pos rfl, sfsWblock_eq h hpos hlt]
      exact Completes.ok _
  rcases hcall.post (sfsBlockOp_spec h) with ⟨⟨ret, io'⟩, hret, rfl, -, hmoved⟩
  exact ⟨io', hret, hmoved⟩

/-- An operation on a block of the file keeps the file system as far as allocation goes. -/
theorem Reached.transferred {io' : Io} {buf len o index : ℕ}
    (h : Reached s sin rest offset pos stop blkno io) (hindex : index < io.sin.blocks)
    (hmoved : Transferred write io buf len (blockAt io.fs io.sin index) o io') :
    Reached s sin rest offset pos stop blkno io' := by
  have hkept : Kept io.fs rest io.fs io.sin := ⟨h.owns, Keeps.refl ..⟩
  have howns := (hkept.transferred hindex hmoved).owns
  unfold Transferred at hmoved
  split at hmoved
  · rcases hmoved with ⟨data, -, rfl⟩
    exact ⟨howns, h.ranged, h.capacity_eq, h.blocks, h.size, h.type, h.place, h.blkno⟩
  · rw [hmoved] at howns ⊢
    exact ⟨howns, h.ranged, h.capacity_eq, h.blocks, h.size, h.type, h.place, h.blkno⟩

/-! ## Loading a block -/

/-- A block is loaded when the file has it or can have it. -/
theorem Reached.load (h : Reached s sin rest offset pos stop blkno io)
    (hblkno : blkno ≤ io.sin.blocks) (hlt : blkno < capacity s sin)
    (next : ℕ → Io → Outcome (Ret Unit × Io)) : ∃ io', io.load next =
        next (blockAt io'.fs io'.sin blkno) io' ∧ blkno < io'.sin.blocks ∧ io'.buf = io.buf ∧
        io'.alen = io.alen ∧ Reached s sin rest offset pos (max stop (blkno + 1)) blkno io' := by
  rcases h.blkno with rfl
  unfold Io.load
  rcases Nat.lt_or_eq_of_le hblkno with hold | hnew
  · rw [sfsBmapLoadNolock_eq h.owns hold]
    refine ⟨io, rfl, hold, rfl, rfl, h.owns, h.ranged, h.capacity_eq, ?_, h.size, h.type, h.place,
      h.blkno⟩
    have hblocks := h.blocks
    omega
  · have hmax := capacity_le s sin
    rcases grown_sfsBmapLoadNolock h.owns h.ranged (by omega) with
      ⟨hfull, -⟩ | ⟨-, after, sin', hcall, hgrown⟩
    · have hcapacity := h.capacity_eq
      omega
    · rw [← hnew] at hcall
      rw [hcall]
      refine ⟨{ io with fs := after, sin := sin' }, rfl, ?_, rfl, rfl, hgrown.owns, hgrown.ranged,
        hgrown.capacity_eq.trans h.capacity_eq, ?_, hgrown.grows.size.trans h.size,
        hgrown.grows.type.trans h.type, h.place, rfl⟩
      · rw [hgrown.blocks, hnew]
        exact Nat.lt_succ_self _
      · have hblocks := h.blocks
        have hgrew := hgrown.blocks
        dsimp only
        omega

/-- The block after the last one that the file can have. -/
theorem Reached.load_full (h : Reached s sin rest offset pos stop blkno io)
    (hblkno : blkno = io.sin.blocks) (hfull : blkno = capacity s sin)
    (next : ℕ → Io → Outcome (Ret Unit × Io)) :
    (capacity s sin < MAX_BLOCKS ∧ ∃ io', io.load next = .ok (.error .noMem, io') ∧
      Reached s sin rest offset pos (capacity s sin) blkno io') ∨
    (capacity s sin = MAX_BLOCKS ∧ ¬Completes (io.load next)) := by
  have hmax := capacity_le s sin
  have hblocks := h.blocks
  rcases h.blkno with rfl
  unfold Io.load
  by_cases hslot : capacity s sin < MAX_BLOCKS
  · rcases grown_sfsBmapLoadNolock h.owns h.ranged (by omega) with
      ⟨-, after, hcall, -, hgrown⟩ | ⟨hroom, -⟩
    · rw [← hblkno] at hcall
      rw [hcall]
      refine Or.inl ⟨hslot, { io with fs := after }, rfl, hgrown.owns, hgrown.ranged,
        hgrown.capacity_eq.trans h.capacity_eq, ?_, h.size, h.type, h.place, rfl⟩
      dsimp only
      omega
    · have hcapacity := h.capacity_eq
      omega
  · refine Or.inr ⟨by omega, fun hcompletes ↦ ?_⟩
    exact not_completes_sfsBmapLoadNolock (Or.inr ⟨hblkno, by omega⟩) hcompletes.of_bind

/-! ## Parts in sequence -/

theorem Advances.andThen {part : Outcome (Ret Unit × Io)} {next : Io → Outcome (Ret Unit × Io)}
    {pos' stop' blkno' : ℕ} (hpart : Advances s sin rest offset pos stop blkno part)
    (hstop : stop ≤ stop')
    (hnext : ∀ io, stop ≤ capacity s sin → Reached s sin rest offset pos stop blkno io →
      Advances s sin rest offset pos' stop' blkno' (next io)) :
    Advances s sin rest offset pos' stop' blkno' (Io.andThen part next) := by
  unfold Io.andThen
  rcases hpart with ⟨hreach, io, hcall, hio⟩ | ⟨hshort, hslot, io, blkno, hcall, hio⟩ |
    ⟨hshort, hfull, hnone⟩
  · rw [hcall]
    exact hnext io hreach hio
  · rw [hcall]
    exact Or.inr (Or.inl ⟨by omega, hslot, io, blkno, rfl, hio⟩)
  · exact Or.inr (Or.inr ⟨by omega, hfull, fun h ↦ hnone h.of_bind⟩)

/-- Loading the block at the place that the transfer has got to. -/
theorem Advances.load {pos' stop' blkno' : ℕ} {next : ℕ → Io → Outcome (Ret Unit × Io)}
    (h : Reached s sin rest offset pos stop blkno io) (hblkno : blkno ≤ io.sin.blocks)
    (hplace : pos = max offset (blkno * SFS_BLKSIZE))
    (hstop : blkno + 1 ≤ stop') (hold : stop ≤ blkno + 1)
    (hnext : ∀ io', blkno < capacity s sin → blkno < io'.sin.blocks →
      Reached s sin rest offset pos (blkno + 1) blkno io' →
      Advances s sin rest offset pos' stop' blkno' (next (blockAt io'.fs io'.sin blkno) io')) :
    Advances s sin rest offset pos' stop' blkno' (io.load next) := by
  have hblocks := h.blocks
  have hown := le_capacity (s := io.fs) h.owns.blocks_le
  rw [h.capacity_eq] at hown
  by_cases hlt : blkno < capacity s sin
  · rcases h.load hblkno hlt next with ⟨io', hcall, hslot, -, -, hio⟩
    rw [Nat.max_eq_right hold] at hio
    rw [hcall]
    exact hnext io' hlt hslot hio
  · rcases h.load_full (by omega) (by omega) next with ⟨hslot, io', hcall, hio⟩ | ⟨hfull, hnone⟩
    · have heq : blkno = capacity s sin := by omega
      rw [hplace, heq] at hio
      exact Or.inr (Or.inl ⟨by omega, hslot, io', _, hcall, hio⟩)
    · exact Or.inr (Or.inr ⟨by omega, hfull, hnone⟩)

/-! ## The parts of a transfer -/

/-- The blocks that hold a number of bytes. -/
def blocksFor (len : ℕ) : ℕ := (len + SFS_BLKSIZE - 1) / SFS_BLKSIZE

theorem sfsIoFirst_advances (h : Reached s sin rest offset offset 0 (offset / SFS_BLKSIZE) io)
    (hfirst : offset / SFS_BLKSIZE ≤ io.sin.blocks) (size : ℕ)
    (hsize : offset % SFS_BLKSIZE + size ≤ SFS_BLKSIZE) :
    Advances s sin rest offset (offset + size) (offset / SFS_BLKSIZE + 1) (offset / SFS_BLKSIZE)
      (sfsIoFirst write io (offset % SFS_BLKSIZE) size) := by
  apply Advances.load h hfirst ?_ le_rfl (Nat.zero_le _)
  · intro io' hlt hslot hio
    have hmem := Owns.blockAt_mem (s := io'.fs) hslot
    rcases sfsBufOp_eq write io'.buf hio.owns.geometry
      (hio.owns.pos_of_mem hmem) (hio.owns.range _ hmem) (Nat.mod_lt offset (by decide)) hsize with
      ⟨io'', hcall, hmoved⟩
    have hmore := hio.transferred hslot hmoved
    rw [Io.andThen, hcall]
    exact Or.inl ⟨hlt, _, rfl, { hmore with
      owns := hmore.owns
      place := by
        have hplace := hmore.place
        dsimp only
        omega }⟩
  · have hle := Nat.div_mul_le_self offset SFS_BLKSIZE
    omega

theorem sfsIoBlocks_advances (write : Bool)
    (h : Reached s sin rest offset (blkno * SFS_BLKSIZE) stop blkno io)
    (hblkno : blkno ≤ io.sin.blocks) (hstop : stop ≤ blkno) (hle : offset ≤ blkno * SFS_BLKSIZE)
    (count : ℕ) : Advances s sin rest offset ((blkno + count) * SFS_BLKSIZE) (blkno + count)
      (blkno + count) (sfsIoBlocks write count io) := by
  induction count generalizing io stop blkno with
  | zero =>
    have hblocks := h.blocks
    have hown := le_capacity (s := io.fs) h.owns.blocks_le
    rw [h.capacity_eq] at hown
    exact Or.inl ⟨hblkno.trans hown, io, rfl, { h with
      owns := h.owns
      blocks := by omega }⟩
  | succ count ih =>
    apply Advances.load h hblkno (Nat.max_eq_right hle).symm (by omega) (by omega)
    intro io' hlt hslot hio
    have hmem := Owns.blockAt_mem (s := io'.fs) hslot
    rcases sfsBlockOp_eq write io'.buf hio.owns.geometry
      (hio.owns.pos_of_mem hmem) (hio.owns.range _ hmem) with ⟨io'', hcall, hmoved⟩
    have hmore := hio.transferred hslot hmoved
    have hblocks := hmore.blocks
    have hplace : offset + (io''.alen + SFS_BLKSIZE) = (blkno + 1) * SFS_BLKSIZE := by
      rw [Nat.add_mul, Nat.one_mul, ← hmore.place, Nat.add_assoc]
    have hnext : Reached s sin rest offset ((blkno + 1) * SFS_BLKSIZE) (blkno + 1) (blkno + 1)
        { io'' with alen := io''.alen + SFS_BLKSIZE, buf := io''.buf + SFS_BLKSIZE,
                    blkno := io''.blkno + 1 } :=
      ⟨hmore.owns, hmore.ranged, hmore.capacity_eq, hblocks, hmore.size, hmore.type, hplace,
        congrArg (· + 1) hmore.blkno⟩
    have hrest := ih hnext (by dsimp only; omega) le_rfl (by rw [Nat.add_mul]; omega)
    have hcount : blkno + 1 + count = blkno + (count + 1) := by omega
    rw [hcount] at hrest
    rw [Io.andThen, hcall, Outcome.ok_bind]
    exact hrest

theorem sfsIoLast_advances {endpos : ℕ}
    (h : Reached s sin rest offset (blkno * SFS_BLKSIZE) blkno blkno io)
    (hle : offset ≤ blkno * SFS_BLKSIZE) (hblkno : blkno = endpos / SFS_BLKSIZE) :
    Advances s sin rest offset endpos (blocksFor endpos) blkno (sfsIoLast write io endpos) := by
  have hblocks := h.blocks
  have hown := le_capacity (s := io.fs) h.owns.blocks_le
  rw [h.capacity_eq] at hown
  have hdiv := Nat.div_add_mod endpos SFS_BLKSIZE
  rw [Nat.mul_comm, ← hblkno] at hdiv
  unfold sfsIoLast
  by_cases hlast : endpos % SFS_BLKSIZE = 0
  · have hend : endpos = blkno * SFS_BLKSIZE := by omega
    have hstop : blocksFor endpos = blkno := by
      unfold blocksFor SFS_BLKSIZE at *
      omega
    rw [if_neg (not_not.mpr hlast), hstop, hend]
    exact Or.inl ⟨by omega, io, rfl, h⟩
  · have hstop : blocksFor endpos = blkno + 1 := by
      unfold blocksFor SFS_BLKSIZE at *
      omega
    rw [if_pos hlast, hstop]
    apply Advances.load h (by omega) (Nat.max_eq_right hle).symm le_rfl (Nat.le_succ _)
    intro io' hlt hslot hio
    have hmem := Owns.blockAt_mem (s := io'.fs) hslot
    have hmod := Nat.mod_lt endpos (show 0 < SFS_BLKSIZE by decide)
    rcases sfsBufOp_eq write (io'.buf + io'.alen) hio.owns.geometry (hio.owns.pos_of_mem hmem)
      (hio.owns.range _ hmem) (show 0 < SFS_BLKSIZE by decide)
      (show 0 + endpos % SFS_BLKSIZE ≤ SFS_BLKSIZE by omega) with ⟨io'', hcall, hmoved⟩
    have hmore := hio.transferred hslot hmoved
    rw [Io.andThen, hcall]
    exact Or.inl ⟨hlt, _, rfl, { hmore with
      owns := hmore.owns
      place := by
        have hplace := hmore.place
        dsimp only
        omega }⟩

theorem sfsIoParts_advances (write : Bool) {endpos : ℕ}
    (h : Reached s sin rest offset offset 0 (offset / SFS_BLKSIZE) io)
    (hfirst : offset / SFS_BLKSIZE ≤ io.sin.blocks) (hlt : offset < endpos) :
    Advances s sin rest offset endpos (blocksFor endpos) (endpos / SFS_BLKSIZE)
      (sfsIoParts write io offset endpos) := by
  have hoffset := Nat.div_add_mod offset SFS_BLKSIZE
  have hend := Nat.div_add_mod endpos SFS_BLKSIZE
  have hmod := Nat.mod_lt offset (show 0 < SFS_BLKSIZE by decide)
  have hle : offset / SFS_BLKSIZE ≤ endpos / SFS_BLKSIZE := Nat.div_le_div_right hlt.le
  have hstop : endpos / SFS_BLKSIZE ≤ blocksFor endpos := by
    unfold blocksFor SFS_BLKSIZE at *
    omega
  unfold sfsIoParts
  rw [h.blkno]
  by_cases haligned : offset % SFS_BLKSIZE = 0
  · have hpos : offset = offset / SFS_BLKSIZE * SFS_BLKSIZE := by
      rw [Nat.mul_comm]
      omega
    simp only [haligned, ne_eq, not_true_eq_false, if_false]
    have hbase : Reached s sin rest offset (offset / SFS_BLKSIZE * SFS_BLKSIZE) 0
        (offset / SFS_BLKSIZE) io := { h with
      owns := h.owns
      place := h.place.trans hpos }
    have hblocks := sfsIoBlocks_advances write hbase hfirst (Nat.zero_le _) hpos.le
      (endpos / SFS_BLKSIZE - offset / SFS_BLKSIZE)
    rw [Nat.add_sub_cancel' hle] at hblocks
    apply hblocks.andThen hstop
    intro io' _ hio
    have hmul := Nat.mul_le_mul_right SFS_BLKSIZE hle
    exact sfsIoLast_advances hio (by omega) rfl
  · simp only [haligned, ne_eq, not_false_eq_true, if_true]
    by_cases hone : endpos / SFS_BLKSIZE - offset / SFS_BLKSIZE = 0
    · have hsame : endpos / SFS_BLKSIZE = offset / SFS_BLKSIZE := by omega
      have hstop : blocksFor endpos = offset / SFS_BLKSIZE + 1 := by
        unfold blocksFor SFS_BLKSIZE at *
        omega
      simp only [hone, not_true_eq_false, if_false, if_true]
      rw [hsame] at hend ⊢
      rw [hstop]
      apply (sfsIoFirst_advances h hfirst (endpos - offset)
        (by unfold SFS_BLKSIZE at *; omega)).andThen le_rfl
      intro io' hreach hio
      rw [Nat.add_sub_cancel' hlt.le] at hio
      exact Or.inl ⟨hreach, io', rfl, hio⟩
    · simp only [hone, not_false_eq_true, if_true, if_false]
      apply (sfsIoFirst_advances h hfirst (SFS_BLKSIZE - offset % SFS_BLKSIZE)
        (by omega)).andThen (by omega)
      intro io' _ hio
      have hpos : offset + (SFS_BLKSIZE - offset % SFS_BLKSIZE) =
          (offset / SFS_BLKSIZE + 1) * SFS_BLKSIZE := by
        rw [Nat.add_mul, Nat.one_mul, Nat.mul_comm]
        omega
      rw [hpos] at hio
      have hnext : Reached s sin rest offset ((offset / SFS_BLKSIZE + 1) * SFS_BLKSIZE)
          (offset / SFS_BLKSIZE + 1) (offset / SFS_BLKSIZE + 1)
          { io' with blkno := io'.blkno + 1 } := { hio with
        owns := hio.owns
        blkno := congrArg (· + 1) hio.blkno }
      have hblocks := hnext.blocks
      have hcount : offset / SFS_BLKSIZE + 1 +
          (endpos / SFS_BLKSIZE - offset / SFS_BLKSIZE - 1) = endpos / SFS_BLKSIZE := by omega
      have hmiddle := sfsIoBlocks_advances write hnext (by omega) le_rfl (by omega)
        (endpos / SFS_BLKSIZE - offset / SFS_BLKSIZE - 1)
      rw [hcount] at hmiddle
      apply hmiddle.andThen hstop
      intro io'' _ hio
      have hmul := Nat.mul_le_mul_right SFS_BLKSIZE (show offset / SFS_BLKSIZE + 1 ≤ endpos / SFS_BLKSIZE by omega)
      exact sfsIoLast_advances hio (by omega) rfl

/-! ## A call of `sfs_io_nolock` -/

theorem not_completes_load (h : io.sin.blocks < io.blkno)
    (next : ℕ → Io → Outcome (Ret Unit × Io)) : ¬Completes (io.load next) := fun hcompletes ↦
  not_completes_sfsBmapLoadNolock (Or.inl h) hcompletes.of_bind

theorem not_completes_andThen {part : Outcome (Ret Unit × Io)}
    {next : Io → Outcome (Ret Unit × Io)} (h : ¬Completes part) :
    ¬Completes (Io.andThen part next) := fun hcompletes ↦ h hcompletes.of_bind

/-- The first block that a transfer needs is beyond the block after the last one. -/
theorem not_completes_sfsIoParts {endpos : ℕ} (hlt : offset < endpos)
    (hblkno : io.blkno = offset / SFS_BLKSIZE) (hbeyond : io.sin.blocks < io.blkno) :
    ¬Completes (sfsIoParts write io offset endpos) := by
  unfold sfsIoParts
  by_cases haligned : offset % SFS_BLKSIZE = 0
  · simp only [haligned, ne_eq, not_true_eq_false, if_false]
    cases hcount : endpos / SFS_BLKSIZE - io.blkno with
    | zero =>
      have hlast : endpos % SFS_BLKSIZE ≠ 0 := by
        unfold SFS_BLKSIZE at *
        omega
      have hcall : ¬Completes (sfsIoLast write io endpos) := by
        rw [sfsIoLast, if_pos hlast]
        exact not_completes_load hbeyond _
      exact hcall
    | succ count => exact not_completes_andThen (not_completes_load hbeyond _)
  · simp only [haligned, ne_eq, not_false_eq_true, if_true]
    exact not_completes_andThen (not_completes_load hbeyond _)

/-- After a call: the file ends at `pos` at least, and has blocks up to `stop` at least. -/
structure Written (s : SfsFs) (sin : SfsInode) (rest : ℕ → Prop) (pos stop : ℕ) (after : SfsFs)
    (sin' : SfsInode) : Prop where
  owns : Owns after sin' rest
  ranged : Ranged after
  capacity_eq : capacity after sin' = capacity s sin
  blocks : sin'.blocks = max sin.blocks stop
  size : sin'.size = max sin.size pos
  type : sin'.type = sin.type

theorem Reached.out (h : Reached s sin rest offset pos stop blkno io) (hpos : pos < 2 ^ 32) :
    Written s sin rest pos stop (sfsIoOut io offset).fs (sfsIoOut io offset).sin := by
  have hkept : Kept io.fs rest io.fs io.sin := ⟨h.owns, Keeps.refl ..⟩
  have howns := (hkept.out offset).owns
  have hsize := h.size
  unfold sfsIoOut at howns ⊢
  rw [h.place] at howns ⊢
  split
  · rename_i hmore
    rw [if_pos hmore] at howns
    refine ⟨howns, h.ranged, h.capacity_eq, h.blocks, ?_, h.type⟩
    dsimp only
    rw [uint32_of_lt hpos]
    omega
  · rename_i hless
    rw [if_neg hless] at howns
    exact ⟨howns, h.ranged, h.capacity_eq, h.blocks, by omega, h.type⟩

variable {memory : Bytes} {buf len endpos : ℕ} {start : ℤ}

theorem sfsIoEndpos_le (h : sfsIoEndpos sin start len write = .ok endpos) :
    start.toNat < SFS_MAX_FILE_SIZE ∧ endpos ≤ SFS_MAX_FILE_SIZE := by
  unfold sfsIoEndpos at h
  dsimp only at h
  split at h
  · cases h
  · rename_i hvalid
    have hstart : start.toNat < SFS_MAX_FILE_SIZE := by omega
    split at h
    · cases h
      exact ⟨hstart, hstart.le⟩
    · split at h
      · cases h
        exact ⟨hstart, min_le_right ..⟩
      · split at h
        · cases h
          exact ⟨hstart, hstart.le⟩
        · cases h
          exact ⟨hstart, (min_le_left ..).trans (min_le_right ..)⟩

/-- The bytes that a call has to move: from `offset` to `endpos`, and at least one. -/
def Moves (sin : SfsInode) (start : ℤ) (len : ℕ) (write : Bool) (endpos : ℕ) : Prop :=
  sfsIoEndpos sin start len write = .ok endpos ∧ start.toNat ≠ endpos

/-- A call that has nothing to move changes nothing. -/
theorem sfsIoNolock_none (htype : sin.type ≠ SFS_TYPE_DIR)
    (hnone : ∀ endpos, ¬Moves sin start len write endpos) :
    ∃ ret io, sfsIoNolock s sin memory buf start len write = .ok (ret, io) ∧
      io.fs = s ∧ io.sin = sin ∧ io.alen = 0 := by
  rw [sfsIoNolock, Outcome.require_of_true htype, Outcome.ok_bind]
  dsimp only
  cases hendpos : sfsIoEndpos sin start len write with
  | error code => exact ⟨_, _, rfl, rfl, rfl, rfl⟩
  | ok endpos =>
    have hsame : start.toNat = endpos := not_not.mp fun hne ↦ hnone endpos ⟨hendpos, hne⟩
    dsimp only
    rw [if_pos hsame]
    exact ⟨_, _, rfl, rfl, rfl, rfl⟩

/-- How far a call gets that ends at `endpos`. -/
def reach (s : SfsFs) (sin : SfsInode) (start endpos : ℕ) : ℕ :=
  if blocksFor endpos ≤ capacity s sin then endpos else max start (capacity s sin * SFS_BLKSIZE)

theorem reach_le (hlt : offset < endpos) : reach s sin offset endpos ≤ endpos := by
  unfold reach
  split
  · exact le_rfl
  · rename_i hshort
    unfold blocksFor SFS_BLKSIZE at hshort
    unfold SFS_BLKSIZE
    omega

theorem sfsIoNolock_moves (htype : sin.type ≠ SFS_TYPE_DIR) (hmoves : Moves sin start len write endpos) :
    sfsIoNolock s sin memory buf start len write =
      (do let (ret, io) ← sfsIoParts write
            ⟨s, sin, memory, [], buf, 0, start.toNat / SFS_BLKSIZE⟩ start.toNat endpos
          return (ret, sfsIoOut io start.toNat)) := by
  rw [sfsIoNolock, Outcome.require_of_true htype, Outcome.ok_bind]
  simp only [hmoves.1, hmoves.2, if_false]

/-- A call that moves bytes comes back when the first block is not beyond the end of the file and
the blocks up to the last one can be asked for; it moves what there is room for. -/
theorem sfsIoNolock_written (h : Owns s sin rest) (hranged : Ranged s) (htype : sin.type ≠ SFS_TYPE_DIR)
    (hmoves : Moves sin start len write endpos) (hfirst : start.toNat / SFS_BLKSIZE ≤ sin.blocks)
    (hfits : Fits s sin (blocksFor endpos)) :
    ∃ ret io, sfsIoNolock s sin memory buf start len write = .ok (ret, io) ∧
      Written s sin rest (reach s sin start.toNat endpos) (min (blocksFor endpos) (capacity s sin))
        io.fs io.sin ∧
      start.toNat + io.alen = reach s sin start.toNat endpos ∧
      (ret = .ok () ↔ blocksFor endpos ≤ capacity s sin) := by
  rcases sfsIoEndpos_le hmoves.1 with ⟨hstart, hend⟩
  have hmax := capacity_le s sin
  have hlt : start.toNat < endpos :=
    lt_of_le_of_ne (le_of_sfsIoEndpos hmoves.1).2 hmoves.2
  have hbase : Reached s sin rest start.toNat start.toNat 0 (start.toNat / SFS_BLKSIZE)
      ⟨s, sin, memory, [], buf, 0, start.toNat / SFS_BLKSIZE⟩ :=
    ⟨h, hranged, rfl, (Nat.max_eq_left (Nat.zero_le _)).symm, rfl, rfl, rfl, rfl⟩
  rw [sfsIoNolock_moves htype hmoves]
  rcases sfsIoParts_advances write hbase hfirst hlt with
    ⟨hreach, io, hcall, hio⟩ | ⟨hshort, -, io, blkno, hcall, hio⟩ | ⟨hbeyond, hfull, -⟩
  · rw [hcall, reach, if_pos hreach, Nat.min_eq_left hreach]
    have hplace : start.toNat + (sfsIoOut io start.toNat).alen = endpos := by
      rw [(sfsIoOut_same io start.toNat).2.1, hio.place]
    refine ⟨_, _, rfl, hio.out ?_, hplace, iff_of_true rfl hreach⟩
    unfold SFS_MAX_FILE_SIZE at hend
    omega
  · rw [hcall, reach, if_neg (Nat.not_le.mpr hshort), Nat.min_eq_right hshort.le]
    have hplace : start.toNat + (sfsIoOut io start.toNat).alen =
        max start.toNat (capacity s sin * SFS_BLKSIZE) := by
      rw [(sfsIoOut_same io start.toNat).2.1, hio.place]
    refine ⟨_, _, rfl, hio.out ?_, hplace, iff_of_false nofun (Nat.not_le.mpr hshort)⟩
    unfold SFS_MAX_FILE_SIZE at hstart
    unfold MAX_BLOCKS SFS_NDIRECT SFS_BLK_NENTRY at hmax
    unfold SFS_BLKSIZE
    omega
  · exact absurd hfits (by rw [Fits]; omega)

theorem not_completes_sfsIoNolock (h : Owns s sin rest) (hranged : Ranged s)
    (hmoves : Moves sin start len write endpos)
    (hbeyond : ¬(start.toNat / SFS_BLKSIZE ≤ sin.blocks ∧ Fits s sin (blocksFor endpos))) :
    ¬Completes (sfsIoNolock s sin memory buf start len write) := by
  intro hcompletes
  have hlt : start.toNat < endpos :=
    lt_of_le_of_ne (le_of_sfsIoEndpos hmoves.1).2 hmoves.2
  have htype : sin.type ≠ SFS_TYPE_DIR := by
    by_contra htype
    rw [sfsIoNolock, Outcome.require_of_false (not_not.mpr htype)] at hcompletes
    exact Completes.not_error _ hcompletes
  rw [sfsIoNolock_moves htype hmoves] at hcompletes
  have hparts := hcompletes.of_bind
  by_cases hfirst : start.toNat / SFS_BLKSIZE ≤ sin.blocks
  · have hbase : Reached s sin rest start.toNat start.toNat 0 (start.toNat / SFS_BLKSIZE)
        ⟨s, sin, memory, [], buf, 0, start.toNat / SFS_BLKSIZE⟩ :=
      ⟨h, hranged, rfl, (Nat.max_eq_left (Nat.zero_le _)).symm, rfl, rfl, rfl, rfl⟩
    have hfits : ¬Fits s sin (blocksFor endpos) := fun hfits ↦ hbeyond ⟨hfirst, hfits⟩
    rw [Fits] at hfits
    have hmax := capacity_le s sin
    rcases sfsIoParts_advances write hbase hfirst hlt with
      ⟨hreach, -⟩ | ⟨-, hslot, -⟩ | ⟨-, -, hnone⟩
    · omega
    · omega
    · exact hnone hparts
  · exact not_completes_sfsIoParts hlt rfl (Nat.not_le.mp hfirst) hparts

end Ucore.Fs
