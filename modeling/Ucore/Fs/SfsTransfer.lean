import Ucore.Fs.SfsBlockMapOps
import Ucore.Fs.SfsFile

/-!
# Transfers between memory and a file

`Progress` describes a transfer that has moved its first `alen` bytes to their place: file and
memory agree on these bytes, and everything else in the file, in the other files and in memory is
as before. A piece that starts where the last one ended keeps it. The first part and the whole
blocks of `sfs_io_nolock` are such pieces; its last part is one only when nothing was moved before.
-/

namespace Ucore.Fs

open Library

/-- The byte of a file at a position. -/
def fileByte (s : SfsFs) (sin : SfsInode) (pos : ℕ) : UInt8 :=
  s.dev.block (blockAt s sin (pos / SFS_BLKSIZE)) (pos % SFS_BLKSIZE)

/-- The inode still owns its blocks, and the rest is as it was. -/
structure Kept (s : SfsFs) (rest : ℕ → Prop) (after : SfsFs) (sin' : SfsInode) : Prop where
  owns : Owns after sin' rest
  keeps : Keeps s after rest

/-- A transfer between memory from `base` on and the file from `offset` on, after `alen` bytes. -/
structure Progress (write : Bool) (s : SfsFs) (sin : SfsInode) (memory : Bytes) (base offset : ℕ)
    (rest : ℕ → Prop) (io : Io) : Prop where
  kept : Kept s rest io.fs io.sin
  blocks_le : sin.blocks ≤ io.sin.blocks
  reached : ∀ index < io.alen, (offset + index) / SFS_BLKSIZE < io.sin.blocks
  bytes : ∀ index < io.alen, fileByte io.fs io.sin (offset + index) = io.memory (base + index)
  file : ∀ pos, pos / SFS_BLKSIZE < sin.blocks →
    (write = true → pos < offset ∨ offset + io.alen ≤ pos) →
    fileByte io.fs io.sin pos = fileByte s sin pos
  memory : ∀ address, (write = false → address < base ∨ base + io.alen ≤ address) →
    io.memory address = memory address
  touched : ∀ extent ∈ io.touched, base ≤ extent.start ∧ extent.stop ≤ base + io.alen

/-- What one operation moves: `len` bytes between memory at `buf` and the block `ino` at `o`. -/
def Transferred (write : Bool) (io : Io) (buf len ino o : ℕ) (io' : Io) : Prop :=
  if write then ∃ data : Bytes, (∀ index < SFS_BLKSIZE,
      data index = overlay (io.fs.dev.block ino) (io.fetch buf) len o index) ∧
    io' = { io with fs := io.fs.put ino data, touched := ⟨buf, len⟩ :: io.touched }
  else io' = io.store buf len fun index ↦ io.fs.dev.block ino (o + index)

/-! ## One operation -/

section Operation

variable {write : Bool} {s after : SfsFs} {sin sin' : SfsInode} {rest : ℕ → Prop} {io io' : Io}
  {memory : Bytes} {buf len ino o base offset : ℕ}

theorem sfsBufOp_spec (h : Geometry io.fs) : Ensures (sfsBufOp write io buf len ino o) fun result ↦
    result.1 = .ok () ∧ o + len ≤ SFS_BLKSIZE ∧ Transferred write io buf len ino o result.2 := by
  unfold sfsBufOp Transferred
  cases write
  · refine (sfsRbuf_spec h len ino o).bind ?_
    rintro _ ⟨-, -, hlen, rfl⟩
    simpa using hlen
  · refine (sfsWbuf_spec h (io.fetch buf) len ino o).bind ?_
    rintro _ ⟨-, -, hlen, rfl⟩
    simp only [Outcome.pure_eq_ok, Ensures.ok_iff, true_and, if_true]
    exact ⟨hlen, _, fun _ _ ↦ rfl, rfl⟩

theorem sfsBlockOp_spec (h : Geometry io.fs) : Ensures (sfsBlockOp write io buf ino) fun result ↦
    result.1 = .ok () ∧ 0 + SFS_BLKSIZE ≤ SFS_BLKSIZE ∧
      Transferred write io buf SFS_BLKSIZE ino 0 result.2 := by
  unfold sfsBlockOp Transferred
  cases write
  · refine (sfsRblock_spec h ino).bind ?_
    rintro _ ⟨-, -, rfl⟩
    simp
  · refine (sfsWblock_spec h (io.fetch buf) ino).bind ?_
    rintro _ ⟨-, -, rfl⟩
    simp only [Outcome.pure_eq_ok, Ensures.ok_iff, true_and, if_true, Nat.zero_add, le_refl]
    refine ⟨_, fun index hindex ↦ ?_, rfl⟩
    have hinside : overlay (io.fs.dev.block ino) (io.fetch buf) SFS_BLKSIZE 0 (0 + index) =
        io.fetch buf index := overlay_inside hindex
    rw [Nat.zero_add] at hinside
    exact hinside.symm

theorem fileByte_extends (h : Extends s sin after sin' rest) {pos : ℕ}
    (hpos : pos / SFS_BLKSIZE < sin.blocks) : fileByte after sin' pos = fileByte s sin pos := by
  rw [fileByte, fileByte, h.blockAt _ hpos, h.data _ hpos]

theorem fileByte_put (h : Owns s sin rest) {index : ℕ} (hindex : index < sin.blocks) (data : Bytes)
    {pos : ℕ} (hpos : pos / SFS_BLKSIZE < sin.blocks) :
    fileByte (s.put (blockAt s sin index) data) sin pos =
      if pos / SFS_BLKSIZE = index then data (pos % SFS_BLKSIZE) else fileByte s sin pos := by
  have hat : blockAt (s.put (blockAt s sin index) data) sin (pos / SFS_BLKSIZE) =
      blockAt s sin (pos / SFS_BLKSIZE) := blockAt_congr (fun _ ↦ by
    rw [put_block, if_neg (h.blockAt_ne_indirect hindex).symm]) _
  rw [fileByte, fileByte, hat, put_block]
  by_cases heq : pos / SFS_BLKSIZE = index
  · simp [heq]
  · rw [if_neg fun hblock ↦ heq (h.blockAt_inj hpos hindex hblock), if_neg heq]

theorem Kept.extends (h : Kept s rest io.fs io.sin) (howns : Owns after sin' rest)
    (hextends : Extends io.fs io.sin after sin' rest) : Kept s rest after sin' :=
  ⟨howns, h.keeps.trans hextends.keeps⟩

theorem Kept.transferred {index : ℕ} (h : Kept s rest io.fs io.sin) (hindex : index < io.sin.blocks)
    (hmoved : Transferred write io buf len (blockAt io.fs io.sin index) o io') :
    Kept s rest io'.fs io'.sin := by
  unfold Transferred at hmoved
  split at hmoved
  · rcases hmoved with ⟨data, -, rfl⟩
    refine ⟨h.owns.put hindex data, h.keeps.trans ⟨fun b hb ↦ ?_, rfl⟩⟩
    have hne : b ≠ blockAt io.fs io.sin index := fun heq ↦
      h.owns.apart _ (Owns.blockAt_mem hindex) (heq ▸ hb)
    rw [put_block, if_neg hne]
  · rw [hmoved]
    exact h

theorem Progress.extends (h : Progress write s sin memory base offset rest io)
    (howns : Owns after sin' rest) (hextends : Extends io.fs io.sin after sin' rest) :
    Progress write s sin memory base offset rest { io with fs := after, sin := sin' } where
  kept := h.kept.extends howns hextends
  blocks_le := h.blocks_le.trans hextends.blocks_le
  reached index hindex := (h.reached index hindex).trans_le hextends.blocks_le
  bytes index hindex :=
    (fileByte_extends hextends (h.reached index hindex)).trans (h.bytes index hindex)
  file pos hpos hout :=
    (fileByte_extends hextends (hpos.trans_le h.blocks_le)).trans (h.file pos hpos hout)
  memory := h.memory
  touched := h.touched

/-- A piece that starts where the transfer has got to. -/
theorem Progress.transferred {index place : ℕ} (h : Progress write s sin memory base offset rest io)
    (hindex : index < io.sin.blocks) (hpos : offset + io.alen = index * SFS_BLKSIZE + o)
    (hlen : o + len ≤ SFS_BLKSIZE) (hplace : place = base + io.alen)
    (hmoved : Transferred write io place len (blockAt io.fs io.sin index) o io')
    (buf blkno : ℕ) : Progress write s sin memory base offset rest
      { io' with alen := io'.alen + len, buf := buf, blkno := blkno } := by
  subst hplace
  have hkept := h.kept.transferred hindex hmoved
  have hdiv : ∀ more < len, (offset + (io.alen + more)) / SFS_BLKSIZE = index := by
    unfold SFS_BLKSIZE at *
    omega
  have hmod : ∀ more < len, (offset + (io.alen + more)) % SFS_BLKSIZE = o + more := by
    unfold SFS_BLKSIZE at *
    omega
  have hreached : ∀ more < io.alen + len, (offset + more) / SFS_BLKSIZE < io.sin.blocks := by
    intro more hmore
    by_cases hold : more < io.alen
    · exact h.reached more hold
    · have hnew := hdiv (more - io.alen) (by omega)
      rw [Nat.add_sub_cancel' (Nat.not_lt.mp hold)] at hnew
      rw [hnew]
      exact hindex
  have htouched : ∀ extent ∈ (⟨base + io.alen, len⟩ : Extent) :: io.touched,
      base ≤ extent.start ∧ extent.stop ≤ base + (io.alen + len) := by
    intro extent hextent
    rcases List.mem_cons.mp hextent with rfl | hextent
    · simp only [Extent.stop]
      omega
    · have hold := h.touched extent hextent
      omega
  cases write with
  | false =>
    have hstore : io' = io.store (base + io.alen) len
        fun more ↦ io.fs.dev.block (blockAt io.fs io.sin index) (o + more) := hmoved
    subst hstore
    have hbytes : ∀ more < io.alen + len, fileByte io.fs io.sin (offset + more) =
        overlay io.memory (fun more ↦ io.fs.dev.block (blockAt io.fs io.sin index) (o + more)) len
          (base + io.alen) (base + more) := by
      intro more hmore
      by_cases hold : more < io.alen
      · rw [overlay_outside (by omega)]
        exact h.bytes more hold
      · rcases Nat.exists_eq_add_of_le (Nat.not_lt.mp hold) with ⟨more, rfl⟩
        have hlt : more < len := by omega
        rw [← Nat.add_assoc base, overlay_inside hlt, fileByte, hdiv more hlt, hmod more hlt]
    have hmemory : ∀ address, (false = false → address < base ∨ base + (io.alen + len) ≤ address) →
        overlay io.memory (fun more ↦ io.fs.dev.block (blockAt io.fs io.sin index) (o + more)) len
          (base + io.alen) address = memory address := by
      intro address hout
      have hout := hout rfl
      rw [overlay_outside (by omega)]
      exact h.memory address fun _ ↦ by omega
    exact ⟨hkept, h.blocks_le, hreached, hbytes, fun pos hin _ ↦ h.file pos hin (by simp),
      hmemory, htouched⟩
  | true =>
    rcases hmoved with ⟨data, hdata, rfl⟩
    have hput : ∀ pos, pos / SFS_BLKSIZE < io.sin.blocks →
        fileByte (io.fs.put (blockAt io.fs io.sin index) data) io.sin pos =
          if pos / SFS_BLKSIZE = index then overlay (io.fs.dev.block (blockAt io.fs io.sin index))
            (io.fetch (base + io.alen)) len o (pos % SFS_BLKSIZE) else fileByte io.fs io.sin pos := by
      intro pos hpos
      rw [fileByte_put h.kept.owns hindex data hpos, hdata _ (Nat.mod_lt _ (by decide))]
    -- bytes of the file before and after the piece
    have hold : ∀ pos, pos / SFS_BLKSIZE < io.sin.blocks →
        pos < offset + io.alen ∨ offset + (io.alen + len) ≤ pos →
        fileByte (io.fs.put (blockAt io.fs io.sin index) data) io.sin pos =
          fileByte io.fs io.sin pos := by
      intro pos hpos hout
      rw [hput pos hpos]
      split
      · rename_i hblock
        rw [overlay_outside, fileByte, hblock]
        unfold SFS_BLKSIZE at *
        omega
      · rfl
    have hbytes : ∀ more < io.alen + len,
        fileByte (io.fs.put (blockAt io.fs io.sin index) data) io.sin (offset + more) =
          io.memory (base + more) := by
      intro more hmore
      by_cases hbefore : more < io.alen
      · rw [hold _ (hreached more hmore) (by omega)]
        exact h.bytes more hbefore
      · rw [hput _ (hreached more hmore)]
        rcases Nat.exists_eq_add_of_le (Nat.not_lt.mp hbefore) with ⟨more, rfl⟩
        have hlt : more < len := by omega
        rw [hdiv more hlt, if_pos rfl, hmod more hlt, overlay_inside hlt, Io.fetch, Nat.add_assoc]
    have hfile : ∀ pos, pos / SFS_BLKSIZE < sin.blocks →
        (true = true → pos < offset ∨ offset + (io.alen + len) ≤ pos) →
        fileByte (io.fs.put (blockAt io.fs io.sin index) data) io.sin pos = fileByte s sin pos := by
      intro pos hin hout
      have hout := hout rfl
      rw [hold pos (hin.trans_le h.blocks_le) (by omega)]
      exact h.file pos hin fun _ ↦ by omega
    exact ⟨hkept, h.blocks_le, hreached, hbytes, hfile, fun address _ ↦ h.memory address (by simp),
      htouched⟩

end Operation

/-! ## The parts of a transfer -/

section Parts

variable {write : Bool} {s : SfsFs} {sin : SfsInode} {rest : ℕ → Prop} {io io' : Io}
  {memory : Bytes} {base offset : ℕ} {Post : Ret Unit × Io → Prop}

theorem Transferred.same {buf len ino o : ℕ} (h : Transferred write io buf len ino o io') :
    io'.alen = io.alen ∧ io'.buf = io.buf ∧ io'.blkno = io.blkno ∧
      io'.touched = ⟨buf, len⟩ :: io.touched := by
  unfold Transferred at h
  split at h
  · rcases h with ⟨data, -, rfl⟩
    exact ⟨rfl, rfl, rfl, rfl⟩
  · rw [h]
    exact ⟨rfl, rfl, rfl, rfl⟩

theorem Io.load_spec {next : ℕ → Io → Outcome (Ret Unit × Io)} (howns : Owns io.fs io.sin rest)
    (hfail : ∀ code fs sin', Owns fs sin' rest → Extends io.fs io.sin fs sin' rest →
      Post (.error code, { io with fs := fs, sin := sin' }))
    (hnext : ∀ fs sin', Owns fs sin' rest → Extends io.fs io.sin fs sin' rest →
      io.blkno < sin'.blocks →
      Ensures (next (blockAt fs sin' io.blkno) { io with fs := fs, sin := sin' }) Post) :
    Ensures (io.load next) Post := by
  refine (sfsBmapLoadNolock_spec howns io.blkno).bind fun result hresult ↦ ?_
  rcases result with ⟨code | ino, fs, sin'⟩
  · simp only [Outcome.pure_eq_ok, Ensures.ok_iff]
    exact hfail code fs sin' hresult.1 hresult.2.1
  · rcases hresult with ⟨hafter, hextends, hat⟩
    have hino : blockAt fs sin' io.blkno = ino := (hat ino rfl).2
    subst hino
    have hlt := (hat _ rfl).1
    exact hnext fs sin' hafter hextends hlt

theorem Io.andThen_spec {part : Outcome (Ret Unit × Io)} {next : Io → Outcome (Ret Unit × Io)}
    {Middle : Ret Unit × Io → Prop} (hpart : Ensures part Middle)
    (hfail : ∀ code io', Middle (.error code, io') → Post (.error code, io'))
    (hnext : ∀ io', Middle (.ok (), io') → Ensures (next io') Post) :
    Ensures (Io.andThen part next) Post := by
  refine hpart.bind fun result hresult ↦ ?_
  rcases result with ⟨code | _, io'⟩
  · simpa using hfail code io' hresult
  · exact hnext io' hresult

/-- After a part: nothing is lost, and when it succeeded `count` more bytes were moved. -/
def Moved (write : Bool) (s : SfsFs) (sin : SfsInode) (memory : Bytes) (base offset : ℕ)
    (rest : ℕ → Prop) (alen blkno : ℕ) (result : Ret Unit × Io) : Prop :=
  Kept s rest result.2.fs result.2.sin ∧ (result.1 = .ok () →
    Progress write s sin memory base offset rest result.2 ∧ result.2.alen = alen ∧
      result.2.buf = base + alen ∧ result.2.blkno = blkno)

theorem sfsIoFirst_spec (h : Progress write s sin memory base offset rest io)
    (hbuf : io.buf = base + io.alen) {blkoff : ℕ}
    (hpos : offset + io.alen = io.blkno * SFS_BLKSIZE + blkoff) (size : ℕ) :
    Ensures (sfsIoFirst write io blkoff size)
      (Moved write s sin memory base offset rest (io.alen + size) io.blkno) := by
  refine Io.load_spec h.kept.owns (fun code fs sin' howns hextends ↦ ?_)
    fun fs sin' howns hextends hlt ↦ ?_
  · exact ⟨h.kept.extends howns hextends, nofun⟩
  · have hprogress := h.extends howns hextends
    refine Io.andThen_spec (sfsBufOp_spec howns.geometry) (fun code io' hop ↦ nomatch hop.1)
      fun io' hop ↦ ?_
    rcases hop with ⟨-, hlen, hmoved⟩
    rcases hmoved.same with ⟨halen, hbuf', hblkno, -⟩
    have hnext := hprogress.transferred hlt hpos hlen hbuf hmoved (io'.buf + size) io'.blkno
    simp only [Outcome.pure_eq_ok, Ensures.ok_iff]
    refine ⟨hnext.kept, fun _ ↦ ⟨hnext, ?_, ?_, hblkno⟩⟩
    · rw [halen]
    · rw [hbuf', hbuf, Nat.add_assoc]

theorem sfsIoBlocks_spec (h : Progress write s sin memory base offset rest io)
    (hbuf : io.buf = base + io.alen) (hpos : offset + io.alen = io.blkno * SFS_BLKSIZE)
    (nblks : ℕ) : Ensures (sfsIoBlocks write nblks io) (Moved write s sin memory base offset rest
      (io.alen + nblks * SFS_BLKSIZE) (io.blkno + nblks)) := by
  induction nblks generalizing io with
  | zero =>
    simp only [sfsIoBlocks, Outcome.pure_eq_ok, Ensures.ok_iff, Nat.zero_mul, Nat.add_zero]
    exact ⟨h.kept, fun _ ↦ ⟨h, rfl, hbuf, rfl⟩⟩
  | succ nblks ih =>
    refine Io.load_spec h.kept.owns (fun code fs sin' howns hextends ↦ ?_)
      fun fs sin' howns hextends hlt ↦ ?_
    · exact ⟨h.kept.extends howns hextends, fun herror ↦ by cases herror⟩
    · have hprogress := h.extends howns hextends
      refine Io.andThen_spec (sfsBlockOp_spec howns.geometry) (fun code io' hop ↦ by cases hop.1)
        fun io' hop ↦ ?_
      rcases hop with ⟨-, hlen, hmoved⟩
      have hsame : io'.alen = io.alen ∧ io'.buf = io.buf ∧ io'.blkno = io.blkno ∧ _ := hmoved.same
      rcases hsame with ⟨halen, hbuf', hblkno, -⟩
      have hnext := hprogress.transferred hlt (hpos.trans (Nat.add_zero _).symm) hlen hbuf hmoved
        (io'.buf + SFS_BLKSIZE) (io'.blkno + 1)
      have hrest := ih hnext (by rw [halen, hbuf', hbuf, Nat.add_assoc])
        (by rw [halen, hblkno, Nat.add_mul, ← hpos, Nat.one_mul, Nat.add_assoc])
      have hcount : io'.alen + SFS_BLKSIZE + nblks * SFS_BLKSIZE =
          io.alen + (nblks + 1) * SFS_BLKSIZE := by
        rw [halen, Nat.succ_mul]
        omega
      have hblocks : io'.blkno + 1 + nblks = io.blkno + (nblks + 1) := by
        rw [hblkno]
        omega
      rwa [hcount, hblocks] at hrest

/-- The last part. Its bytes go to `buf + alen` where `buf` was moved by `alen` before, so they
are in place only when `alen` is still zero. -/
theorem sfsIoLast_spec (h : Progress write s sin memory base offset rest io)
    (hbuf : io.buf = base + io.alen) (hpos : offset + io.alen = io.blkno * SFS_BLKSIZE)
    (endpos : ℕ) : Ensures (sfsIoLast write io endpos) fun result ↦
      Kept s rest result.2.fs result.2.sin ∧ (result.1 = .ok () →
        result.2.alen = io.alen + endpos % SFS_BLKSIZE ∧
        (io.alen = 0 ∨ endpos % SFS_BLKSIZE = 0 →
          Progress write s sin memory base offset rest result.2) ∧
        (endpos % SFS_BLKSIZE ≠ 0 →
          ⟨base + io.alen + io.alen, endpos % SFS_BLKSIZE⟩ ∈ result.2.touched)) := by
  unfold sfsIoLast
  by_cases hlast : endpos % SFS_BLKSIZE = 0
  · simp only [hlast, ne_eq, not_true_eq_false, if_false, Outcome.pure_eq_ok, Ensures.ok_iff]
    exact ⟨h.kept, fun _ ↦ ⟨rfl, fun _ ↦ h, False.elim⟩⟩
  · rw [if_pos hlast]
    refine Io.load_spec h.kept.owns (fun code fs sin' howns hextends ↦ ?_)
      fun fs sin' howns hextends hlt ↦ ?_
    · exact ⟨h.kept.extends howns hextends, fun herror ↦ by cases herror⟩
    · have hprogress := h.extends howns hextends
      refine Io.andThen_spec (sfsBufOp_spec howns.geometry) (fun code io' hop ↦ by cases hop.1)
        fun io' hop ↦ ?_
      rcases hop with ⟨-, hlen, hmoved⟩
      rcases hmoved.same with ⟨halen, -, -, htouched⟩
      simp only [Outcome.pure_eq_ok, Ensures.ok_iff]
      refine ⟨hprogress.kept.transferred hlt hmoved, fun _ ↦ ⟨?_, fun hplace ↦ ?_, fun _ ↦ ?_⟩⟩
      · rw [halen]
      · have hzero : io.alen = 0 := hplace.resolve_right hlast
        have hplace : io.buf + io.alen = base + io.alen := by
          rw [hbuf, hzero, Nat.add_zero]
        exact hprogress.transferred hlt (hpos.trans (Nat.add_zero _).symm) hlen hplace hmoved
          io'.buf io'.blkno
      · rw [htouched, ← hbuf]
        exact List.mem_cons_self ..

/-- The last part is not a whole block, and it is not the only one. -/
def TailMoved (offset endpos : ℕ) : Prop :=
  endpos % SFS_BLKSIZE ≠ 0 ∧ endpos / SFS_BLKSIZE ≠ offset / SFS_BLKSIZE

/-- After a transfer up to `endpos`: nothing is lost; when it succeeded, all bytes are in place
unless the tail was moved, and then memory beyond the buffer was used. -/
def Finished (write : Bool) (s : SfsFs) (sin : SfsInode) (memory : Bytes) (base offset : ℕ)
    (rest : ℕ → Prop) (endpos : ℕ) (result : Ret Unit × Io) : Prop :=
  Kept s rest result.2.fs result.2.sin ∧ (result.1 = .ok () →
    result.2.alen = endpos - offset ∧
    (¬TailMoved offset endpos → Progress write s sin memory base offset rest result.2) ∧
    (TailMoved offset endpos → ∃ extent ∈ result.2.touched, base + result.2.alen < extent.stop))

theorem finished_of_last {blkno endpos : ℕ} {result : Ret Unit × Io}
    (hpos : offset + io.alen = blkno * SFS_BLKSIZE) (hblkno : blkno = endpos / SFS_BLKSIZE)
    (hlast : Kept s rest result.2.fs result.2.sin ∧ (result.1 = .ok () →
        result.2.alen = io.alen + endpos % SFS_BLKSIZE ∧
        (io.alen = 0 ∨ endpos % SFS_BLKSIZE = 0 →
          Progress write s sin memory base offset rest result.2) ∧
        (endpos % SFS_BLKSIZE ≠ 0 →
          ⟨base + io.alen + io.alen, endpos % SFS_BLKSIZE⟩ ∈ result.2.touched))) :
    Finished write s sin memory base offset rest endpos result := by
  have hdiv := Nat.div_add_mod endpos SFS_BLKSIZE
  rw [Nat.mul_comm, ← hblkno, ← hpos] at hdiv
  refine ⟨hlast.1, fun hok ↦ ?_⟩
  rcases hlast.2 hok with ⟨halen, hplace, htouched⟩
  refine ⟨by omega, fun hstay ↦ hplace ?_, fun hmoved ↦ ⟨_, htouched hmoved.1, ?_⟩⟩
  · by_cases haligned : endpos % SFS_BLKSIZE = 0
    · exact Or.inr haligned
    · refine Or.inl ?_
      have hsame : endpos / SFS_BLKSIZE = offset / SFS_BLKSIZE := by
        by_contra hne
        exact hstay ⟨haligned, hne⟩
      rw [hblkno, hsame] at hpos
      have hle := Nat.div_mul_le_self offset SFS_BLKSIZE
      omega
  · -- something was moved before the last part
    have hpositive : io.alen ≠ 0 := by
      intro hzero
      refine hmoved.2 ?_
      rw [hzero, Nat.add_zero] at hpos
      rw [hpos, Nat.mul_div_cancel _ (by decide), hblkno]
    simp only [Extent.stop]
    omega

theorem sfsIoParts_spec {endpos : ℕ} (h : Progress write s sin memory base offset rest io)
    (hblkno : io.blkno = offset / SFS_BLKSIZE) (halen : io.alen = 0) (hbuf : io.buf = base)
    (hlt : offset < endpos) : Ensures (sfsIoParts write io offset endpos)
      (Finished write s sin memory base offset rest endpos) := by
  have hdiv := Nat.div_add_mod offset SFS_BLKSIZE
  have hbuf0 : io.buf = base + io.alen := by rw [halen, hbuf, Nat.add_zero]
  have hle : offset / SFS_BLKSIZE ≤ endpos / SFS_BLKSIZE := Nat.div_le_div_right hlt.le
  unfold sfsIoParts
  by_cases haligned : offset % SFS_BLKSIZE = 0
  · have hpos : offset + io.alen = io.blkno * SFS_BLKSIZE := by
      rw [hblkno, halen, Nat.mul_comm]
      omega
    simp only [haligned, ne_eq, not_true_eq_false, if_false]
    refine Io.andThen_spec (sfsIoBlocks_spec h hbuf0 hpos _)
      (fun code io' hmiddle ↦ ⟨hmiddle.1, nofun⟩) fun io' hmiddle ↦ ?_
    rcases hmiddle.2 rfl with ⟨hprogress, halen1, hbuf1, hblkno1⟩
    dsimp only at hprogress halen1 hbuf1 hblkno1
    have hpos1 : offset + io'.alen = io'.blkno * SFS_BLKSIZE := by
      rw [halen1, hblkno1, Nat.add_mul, ← hpos, Nat.add_assoc]
    refine (sfsIoLast_spec hprogress (halen1 ▸ hbuf1) hpos1 endpos).mono fun result hlast ↦ ?_
    exact finished_of_last hpos1 (by omega) hlast
  · simp only [haligned, ne_eq, not_false_eq_true, if_true]
    have hpos : offset + io.alen = io.blkno * SFS_BLKSIZE + offset % SFS_BLKSIZE := by
      rw [hblkno, halen, Nat.mul_comm]
      omega
    refine Io.andThen_spec (sfsIoFirst_spec h hbuf0 hpos _)
      (fun code io' hmiddle ↦ ⟨hmiddle.1, nofun⟩) fun io' hmiddle ↦ ?_
    rcases hmiddle.2 rfl with ⟨hprogress, halen1, hbuf1, hblkno1⟩
    dsimp only at hprogress halen1 hbuf1 hblkno1
    by_cases hone : endpos / SFS_BLKSIZE - io.blkno = 0
    · simp only [hone, not_true_eq_false, if_false, if_true, Outcome.pure_eq_ok,
        Ensures.ok_iff] at halen1 ⊢
      refine ⟨hprogress.kept, fun _ ↦ ⟨by dsimp only; omega, fun _ ↦ hprogress, fun hmoved ↦ ?_⟩⟩
      exact absurd (by omega) hmoved.2
    · simp only [hone, not_false_eq_true, if_true, if_false] at halen1 hbuf1 ⊢
      have hpos1 : offset + io'.alen = (io'.blkno + 1) * SFS_BLKSIZE := by
        rw [halen1, hblkno1, Nat.add_mul]
        have hmod := Nat.mod_lt offset (show 0 < SFS_BLKSIZE by decide)
        omega
      have hnext : Progress write s sin memory base offset rest { io' with blkno := io'.blkno + 1 } :=
        { hprogress with }
      refine Io.andThen_spec (sfsIoBlocks_spec hnext (halen1 ▸ hbuf1) hpos1 _)
        (fun code io' hmiddle ↦ ⟨hmiddle.1, nofun⟩) fun last hmiddle ↦ ?_
      rcases hmiddle.2 rfl with ⟨hprogress2, halen2, hbuf2, hblkno2⟩
      dsimp only at hprogress2 halen2 hbuf2 hblkno2
      have hpos2 : offset + last.alen = last.blkno * SFS_BLKSIZE := by
        rw [halen2, hblkno2, Nat.add_mul, ← hpos1, Nat.add_assoc]
      refine (sfsIoLast_spec hprogress2 (halen2 ▸ hbuf2) hpos2 endpos).mono
        fun result hlast ↦ finished_of_last hpos2 (by omega) hlast

/-- The state before a transfer. -/
theorem Progress.start (h : Owns s sin rest) (blkno : ℕ) :
    Progress write s sin memory base offset rest ⟨s, sin, memory, [], base, 0, blkno⟩ :=
  ⟨⟨h, Keeps.refl s rest⟩, le_rfl, nofun, nofun, fun _ _ _ ↦ rfl, fun _ _ ↦ rfl, nofun⟩

theorem sfsIoOut_same (io : Io) (offset : ℕ) : (sfsIoOut io offset).fs = io.fs ∧
    (sfsIoOut io offset).alen = io.alen ∧ (sfsIoOut io offset).touched = io.touched ∧
    (sfsIoOut io offset).memory = io.memory ∧ (sfsIoOut io offset).sin.blocks = io.sin.blocks ∧
    (sfsIoOut io offset).sin.direct = io.sin.direct ∧
    (sfsIoOut io offset).sin.indirect = io.sin.indirect := by
  unfold sfsIoOut
  split <;> simp

theorem Kept.out (h : Kept s rest io.fs io.sin) (offset : ℕ) :
    Kept s rest (sfsIoOut io offset).fs (sfsIoOut io offset).sin := by
  rcases sfsIoOut_same io offset with ⟨hfs, -, -, -, hblocks, hdirect, hindirect⟩
  rw [hfs]
  exact ⟨h.owns.of_fields hdirect hindirect hblocks, h.keeps⟩

/-- The new size of the file is no matter of its bytes. -/
theorem Progress.out (h : Progress write s sin memory base offset rest io) (start : ℕ) :
    Progress write s sin memory base offset rest (sfsIoOut io start) := by
  rcases sfsIoOut_same io start with ⟨hfs, halen, htouched, hmemory, hblocks, hdirect, hindirect⟩
  have hbyte : ∀ pos, fileByte io.fs (sfsIoOut io start).sin pos = fileByte io.fs io.sin pos := by
    intro pos
    simp only [fileByte, blockAt, hdirect, hindirect]
  refine ⟨h.kept.out start, hblocks ▸ h.blocks_le, ?_, ?_, ?_, ?_, ?_⟩
  · rw [halen, hblocks]
    exact h.reached
  · simp only [hfs, halen, hmemory, hbyte]
    exact h.bytes
  · simp only [hfs, halen, hbyte]
    exact h.file
  · rw [halen, hmemory]
    exact h.memory
  · rw [halen, htouched]
    exact h.touched

theorem le_of_sfsIoEndpos {len endpos : ℕ} {start : ℤ}
    (h : sfsIoEndpos sin start len write = .ok endpos) : 0 ≤ start ∧ start.toNat ≤ endpos := by
  unfold sfsIoEndpos at h
  dsimp only at h
  split at h
  · cases h
  · rename_i hvalid
    simp only [not_or, not_lt, not_le] at hvalid
    have hmax := hvalid.2.1
    split at h
    · cases h
      exact ⟨hvalid.1, le_rfl⟩
    · split at h
      · cases h
        omega
      · split at h
        · cases h
          exact ⟨hvalid.1, le_rfl⟩
        · cases h
          omega

/-- A call of `sfs_io_nolock`. -/
theorem sfsIoNolock_spec (h : Owns s sin rest) (memory : Bytes) (buf : ℕ) (start : ℤ) (len : ℕ)
    (write : Bool) : Ensures (sfsIoNolock s sin memory buf start len write) fun result ↦
      Kept s rest result.2.fs result.2.sin ∧ (result.1 = .ok () → ∃ endpos,
        sfsIoEndpos sin start len write = .ok endpos ∧
        Finished write s sin memory buf start.toNat rest endpos result) := by
  refine Ensures.require fun _ ↦ ?_
  have hstart : Progress write s sin memory buf start.toNat rest
    ⟨s, sin, memory, [], buf, 0, start.toNat / SFS_BLKSIZE⟩ := Progress.start h _
  cases hendpos : sfsIoEndpos sin start len write with
  | error code =>
    simp only [Outcome.pure_eq_ok, Ensures.ok_iff]
    exact ⟨hstart.kept, fun herror ↦ by cases herror⟩
  | ok endpos =>
    have hle := (le_of_sfsIoEndpos hendpos).2
    by_cases hnone : start.toNat = endpos
    · simp only [hnone, if_true, Outcome.pure_eq_ok, Ensures.ok_iff]
      rw [hnone] at hstart
      exact ⟨hstart.kept, fun _ ↦ ⟨endpos, rfl, hstart.kept, fun _ ↦ ⟨(Nat.sub_self _).symm,
        fun _ ↦ hstart, fun hmoved ↦ absurd rfl hmoved.2⟩⟩⟩
    · simp only [hnone, if_false]
      refine (sfsIoParts_spec hstart rfl rfl rfl (by omega)).bind fun result hresult ↦ ?_
      simp only [Outcome.pure_eq_ok, Ensures.ok_iff]
      rcases sfsIoOut_same result.2 start.toNat with ⟨-, halen, htouched, -, -, -, -⟩
      refine ⟨hresult.1.out _, fun hok ↦ ⟨endpos, rfl, hresult.1.out _, fun _ ↦ ?_⟩⟩
      rcases hresult.2 hok with ⟨hcount, hplace, hmoved⟩
      refine ⟨halen.trans hcount, fun hstay ↦ (hplace hstay).out _, ?_⟩
      dsimp only
      rw [halen, htouched]
      exact hmoved

end Parts

/-! ## Changing the length -/

section Length

variable {s : SfsFs} {sin : SfsInode} {rest : ℕ → Prop}

theorem sfsTruncfileGrow_spec (h : Owns s sin rest) (nblks count : ℕ) :
    Ensures (sfsTruncfileGrow nblks count s sin) fun result ↦
      Kept s rest result.2.1 result.2.2 := by
  induction count generalizing nblks s sin with
  | zero =>
    simp only [sfsTruncfileGrow, Outcome.pure_eq_ok, Ensures.ok_iff]
    exact ⟨h, Keeps.refl s rest⟩
  | succ count ih =>
    refine (sfsBmapLoadNolock_spec h nblks).bind fun result hresult ↦ ?_
    rcases result with ⟨code | ino, after, sin'⟩
    · simp only [Outcome.pure_eq_ok, Ensures.ok_iff]
      exact ⟨hresult.1, hresult.2.1.keeps⟩
    · exact (ih hresult.1 (nblks + 1)).mono fun last hlast ↦
        ⟨hlast.owns, hresult.2.1.keeps.trans hlast.keeps⟩

theorem sfsTruncfileShrink_spec (h : Owns s sin rest) (count : ℕ) :
    Ensures (sfsTruncfileShrink count s sin) fun result ↦ Kept s rest result.2.1 result.2.2 := by
  induction count generalizing s sin with
  | zero =>
    simp only [sfsTruncfileShrink, Outcome.pure_eq_ok, Ensures.ok_iff]
    exact ⟨h, Keeps.refl s rest⟩
  | succ count ih =>
    refine (sfsBmapTruncateNolock_spec h).bind ?_
    rintro ⟨ret, after, sin'⟩ ⟨rfl, howns, hkeeps⟩
    exact (ih howns).mono fun last hlast ↦ ⟨hlast.owns, hkeeps.trans hlast.keeps⟩

theorem sfsTruncfileResize_spec (h : Owns s sin rest) (nblks tblks : ℕ) :
    Ensures (sfsTruncfileResize s sin nblks tblks) fun result ↦
      Kept s rest result.2.1 result.2.2 := by
  unfold sfsTruncfileResize
  split
  · exact sfsTruncfileGrow_spec h _ _
  · exact sfsTruncfileShrink_spec h _

theorem sfsTruncfile_spec (h : Owns s sin rest) (len : ℤ) :
    Ensures (sfsTruncfile s sin len) fun result ↦ Kept s rest result.2.1 result.2.2 := by
  have hsame : Kept s rest s sin := ⟨h, Keeps.refl s rest⟩
  unfold sfsTruncfile
  dsimp only
  split
  · simpa using hsame
  · split
    · exact Ensures.require fun _ ↦ by simpa using hsame
    · refine (sfsTruncfileResize_spec h _ _).bind fun result hresult ↦ ?_
      rcases result with ⟨code | _, after, sin'⟩
      · simpa using hresult
      · refine Ensures.require fun _ ↦ ?_
        simp only [Outcome.pure_eq_ok, Ensures.ok_iff]
        exact ⟨hresult.owns.of_fields rfl rfl rfl, hresult.keeps⟩

theorem sfsTryseek_spec (h : Owns s sin rest) (pos : ℤ) :
    Ensures (sfsTryseek s sin pos) fun result ↦ Kept s rest result.2.1 result.2.2 := by
  have hsame : Kept s rest s sin := ⟨h, Keeps.refl s rest⟩
  unfold sfsTryseek
  split
  · simpa using hsame
  · split
    · exact sfsTruncfile_spec h pos
    · simpa using hsame

end Length

end Ucore.Fs
