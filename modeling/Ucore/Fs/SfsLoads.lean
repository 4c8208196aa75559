import Ucore.Fs.SfsLength

/-!
# Where blocks are loaded

The calls of `sfs_bmap_load_nolock` that a request makes: the index, and the inode at that time. A
change of length starts with the block after the last one. A transfer starts with the block that
its position is in, and this is the only one of them that can be out of reach: a load that succeeds
brings the next block into reach.
-/

namespace Ucore.Fs

open Library

/-! ## The loads of a request -/

/-- `sfs_truncfile` adds the blocks from `nblks` to `tblks`. -/
inductive GrowLoads (s : SfsFs) (sin : SfsInode) (nblks tblks : ℕ) : ℕ → SfsInode → Prop where
  | block {count : ℕ} {s' : SfsFs} {sin' : SfsInode} (hcount : nblks + count < tblks)
    (hgrow : sfsTruncfileGrow nblks count s sin = .ok (.ok (), s', sin')) :
    GrowLoads s sin nblks tblks (nblks + count) sin'

/-- A transfer up to the first block that it starts at the beginning of. -/
def sfsIoAligned (write : Bool) (io : Io) (offset endpos : ℕ) : Outcome (Ret Unit × Io) :=
  let nblks := endpos / SFS_BLKSIZE - io.blkno
  let blkoff := offset % SFS_BLKSIZE
  if blkoff ≠ 0 then
    let size := if nblks ≠ 0 then SFS_BLKSIZE - blkoff else endpos - offset
    Io.andThen (sfsIoFirst write io blkoff size) fun io ↦
      return (.ok (), { io with blkno := io.blkno + 1 })
  else return (.ok (), io)

/-- The parts of a transfer from `offset` to `endpos` load the first block when the transfer starts
inside of it, and every block that begins before `endpos`. -/
inductive TransferLoads (write : Bool) (start : Io) (offset endpos : ℕ) : ℕ → SfsInode → Prop where
  | first (hfirst : offset % SFS_BLKSIZE ≠ 0) :
    TransferLoads write start offset endpos start.blkno start.sin
  | block {io io' : Io} {count : ℕ} (haligned : sfsIoAligned write start offset endpos = .ok (.ok (), io))
    (hcount : (io.blkno + count) * SFS_BLKSIZE < endpos)
    (hblocks : sfsIoBlocks write count io = .ok (.ok (), io')) :
    TransferLoads write start offset endpos io'.blkno io'.sin

def Request.Loads (s : SfsFs) (sin : SfsInode) : Request → ℕ → SfsInode → Prop
  | .seek pos => fun index sin' ↦ 0 ≤ pos ∧ pos < SFS_MAX_FILE_SIZE ∧ (sin.size : ℤ) < pos ∧
      GrowLoads s sin sin.blocks (roundupBlocks pos.toNat) index sin'
  | .truncate len => fun index sin' ↦ 0 ≤ len ∧ len ≤ SFS_MAX_FILE_SIZE ∧ sin.size ≠ len.toNat ∧
      GrowLoads s sin sin.blocks (roundupBlocks len.toNat) index sin'
  | .transfer memory buf offset len write => fun index sin' ↦ ∃ endpos,
      Moves sin offset len write endpos ∧
      TransferLoads write ⟨s, sin, memory, [], buf, 0, offset.toNat / SFS_BLKSIZE⟩ offset.toNat endpos
        index sin'

/-- The assertion of `sfs_bmap_load_nolock` in all its calls. -/
def Request.LoadsInside (s : SfsFs) (sin : SfsInode) (request : Request) : Prop :=
  ∀ index sin', request.Loads s sin index sin' → index ≤ sin'.blocks

/-! ## Loads in reach -/

section Loads

variable {write : Bool} {s : SfsFs} {sin : SfsInode} {rest : ℕ → Prop} {io : Io}
  {offset endpos : ℕ}

/-- The state that a part of a transfer leaves when it succeeds. -/
theorem Advances.reached {pos stop blkno : ℕ} {call : Outcome (Ret Unit × Io)}
    (h : Advances s sin rest offset pos stop blkno call) (hcall : call = .ok (.ok (), io)) :
    Reached s sin rest offset pos stop blkno io := by
  rcases h with ⟨-, io', heq, hio⟩ | ⟨-, -, io', _, heq, -⟩ | ⟨-, -, hnone⟩
  · cases hcall.symm.trans heq
    exact hio
  · cases hcall.symm.trans heq
  · exact absurd ⟨_, hcall⟩ hnone

theorem growLoads_inside (h : Owns s sin rest) (hranged : Ranged s) {tblks index : ℕ}
    {sin' : SfsInode} (hload : GrowLoads s sin sin.blocks tblks index sin') : index ≤ sin'.blocks := by
  rcases hload with ⟨hcount, hgrow⟩
  rename_i count s'
  by_cases hfits : Fits s sin (sin.blocks + count)
  · rcases sfsTruncfileGrow_cases h hranged hfits with
      ⟨-, after, sin'', hcall, hgrown⟩ | ⟨-, after, sin'', hcall, -⟩
    · cases hgrow.symm.trans hcall
      exact hgrown.blocks.ge
    · cases hgrow.symm.trans hcall
  · exact absurd ⟨_, hgrow⟩ (not_completes_sfsTruncfileGrow h hranged hfits)

/-- A transfer that has got to the beginning of a block, which is in reach. -/
structure AtBlock (s : SfsFs) (sin : SfsInode) (rest : ℕ → Prop) (offset : ℕ) (io : Io) : Prop where
  reached : ∃ stop ≤ io.blkno,
    Reached s sin rest offset (io.blkno * SFS_BLKSIZE) stop io.blkno io
  inside : io.blkno ≤ io.sin.blocks
  le : offset ≤ io.blkno * SFS_BLKSIZE

theorem atBlock_sfsIoAligned (h : Reached s sin rest offset offset 0 (offset / SFS_BLKSIZE) io)
    (hfirst : offset / SFS_BLKSIZE ≤ io.sin.blocks) {io' : Io}
    (hcall : sfsIoAligned write io offset endpos = .ok (.ok (), io'))
    (hmore : io'.blkno * SFS_BLKSIZE < endpos) : AtBlock s sin rest offset io' := by
  have hdiv := Nat.div_add_mod offset SFS_BLKSIZE
  have hmod := Nat.mod_lt offset (show 0 < SFS_BLKSIZE by decide)
  rw [Nat.mul_comm] at hdiv
  unfold sfsIoAligned at hcall
  rw [h.blkno] at hcall
  by_cases haligned : offset % SFS_BLKSIZE = 0
  · simp only [haligned, ne_eq, not_true_eq_false, if_false] at hcall
    cases hcall
    have hpos : io.blkno * SFS_BLKSIZE = offset := by
      rw [h.blkno]
      omega
    refine ⟨⟨0, Nat.zero_le _, ?_⟩, ?_, hpos.ge⟩
    · rw [hpos, h.blkno]
      exact h
    · rw [h.blkno]
      exact hfirst
  · simp only [haligned, ne_eq, not_false_eq_true, if_true] at hcall
    rcases Outcome.bind_eq_ok.mp hcall with ⟨⟨ret, io''⟩, hpart, hnext⟩
    cases ret with
    | error code => cases hnext
    | ok _ =>
      cases hnext
      have hsize : offset % SFS_BLKSIZE + (if ¬endpos / SFS_BLKSIZE - offset / SFS_BLKSIZE = 0 then
          SFS_BLKSIZE - offset % SFS_BLKSIZE else endpos - offset) ≤ SFS_BLKSIZE := by
        split <;> unfold SFS_BLKSIZE at * <;> omega
      have hreached := (sfsIoFirst_advances h hfirst _ hsize).reached hpart
      have hblkno := hreached.blkno
      have hblocks := hreached.blocks
      dsimp only at hmore
      rw [hblkno] at hmore
      have hwhole : ¬endpos / SFS_BLKSIZE - offset / SFS_BLKSIZE = 0 := by
        unfold SFS_BLKSIZE at *
        omega
      rw [if_pos hwhole] at hreached
      have hpos : offset + (SFS_BLKSIZE - offset % SFS_BLKSIZE) =
          (offset / SFS_BLKSIZE + 1) * SFS_BLKSIZE := by
        rw [Nat.add_mul]
        omega
      rw [hpos] at hreached
      refine ⟨⟨offset / SFS_BLKSIZE + 1, ?_, ?_⟩, ?_, ?_⟩ <;> dsimp only <;> rw [hblkno]
      · exact { hreached with
          owns := hreached.owns
          blkno := rfl }
      · omega
      · omega

theorem transferLoads_inside (h : Reached s sin rest offset offset 0 (offset / SFS_BLKSIZE) io)
    (hfirst : offset / SFS_BLKSIZE ≤ io.sin.blocks) {index : ℕ} {sin' : SfsInode}
    (hload : TransferLoads write io offset endpos index sin') : index ≤ sin'.blocks := by
  cases hload with
  | first =>
    rw [h.blkno]
    exact hfirst
  | block haligned hcount hblocks =>
    rename_i io' io'' count
    have hle : io'.blkno * SFS_BLKSIZE ≤ (io'.blkno + count) * SFS_BLKSIZE :=
      Nat.mul_le_mul_right _ (Nat.le_add_right ..)
    have hat := atBlock_sfsIoAligned h hfirst haligned (hle.trans_lt hcount)
    rcases hat.reached with ⟨stop, hstop, hreached⟩
    have hadvanced := (sfsIoBlocks_advances write hreached hat.inside hstop hat.le count).reached hblocks
    rw [hadvanced.blkno, hadvanced.blocks]
    exact le_max_right ..

/-- The first load of a transfer is that of the block of its position. -/
theorem transferLoads_start (hblkno : io.blkno = offset / SFS_BLKSIZE) (hlt : offset < endpos) :
    TransferLoads write io offset endpos io.blkno io.sin := by
  by_cases haligned : offset % SFS_BLKSIZE = 0
  · have hcall : sfsIoAligned write io offset endpos = .ok (.ok (), io) :=
      if_neg (not_not.mpr haligned)
    have hpos : (io.blkno + 0) * SFS_BLKSIZE < endpos := by
      rw [hblkno]
      unfold SFS_BLKSIZE at *
      omega
    exact .block hcall hpos rfl
  · exact .first haligned

/-- Only the position of a transfer can be out of reach. -/
theorem loadsInside_transfer_iff (h : Owns s sin rest) (hranged : Ranged s) (memory : Bytes) (buf : ℕ)
    (start : ℤ) (len : ℕ) : (Request.transfer memory buf start len write).LoadsInside s sin ↔
      ∀ endpos, Moves sin start len write endpos → start.toNat / SFS_BLKSIZE ≤ sin.blocks := by
  constructor
  · intro hinside endpos hmoves
    have hlt : start.toNat < endpos := lt_of_le_of_ne (le_of_sfsIoEndpos hmoves.1).2 hmoves.2
    exact hinside _ _ ⟨endpos, hmoves, transferLoads_start rfl hlt⟩
  · rintro hfirst index sin' ⟨endpos, hmoves, hload⟩
    exact transferLoads_inside
      ⟨h, hranged, rfl, (Nat.max_eq_left (Nat.zero_le _)).symm, rfl, rfl, rfl, rfl⟩
      (hfirst endpos hmoves) hload

theorem loadsInside_seek (h : Owns s sin rest) (hranged : Ranged s) (pos : ℤ) :
    (Request.seek pos).LoadsInside s sin := by
  rintro index sin' ⟨-, -, -, hload⟩
  exact growLoads_inside h hranged hload

theorem loadsInside_truncate (h : Owns s sin rest) (hranged : Ranged s) (len : ℤ) :
    (Request.truncate len).LoadsInside s sin := by
  rintro index sin' ⟨-, -, -, hload⟩
  exact growLoads_inside h hranged hload

end Loads

end Ucore.Fs
