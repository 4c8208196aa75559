import Ucore.Fs.FdArray
import Ucore.Fs.SfsReads
import Ucore.Mm.UserMem

/-!
# `sysfile_read`

A read of a process goes through a buffer of the kernel, in chunks. `file_read` moves the position
for a chunk before the chunk is copied to the process, and does not move it back when the process
has no place for it.
-/

namespace Ucore.Fs

open Library Mm

def IOBUF_SIZE : ℕ := 4096

/-- What the calls of a process work on: the files, the memory of its address space with that of the
kernel, and its areas. -/
structure Caller where
  volume : Volume
  fdArray : ℕ → Slot ℕ
  memory : Bytes
  mm : Option MmStruct

def fileTestfd (fdArray : ℕ → Slot ℕ) (fd : ℤ) (readable writable : Bool) : Bool :=
  match fd2file fdArray fd with
  | .error _ => false
  | .ok index => !(readable && !(fdArray index).readable) && !(writable && !(fdArray index).writable)

/-- `file_read` for a regular file: the return code, and what it stores in `copied_store`. -/
def fileRead (w : Caller) (fd : ℤ) (base len : ℕ) : Outcome (Ret ℕ × ℕ × Caller) := do
  match fd2file w.fdArray fd with
  | .error code => return (.error code, 0, w)
  | .ok index =>
    if ¬(w.fdArray index).readable then return (.error .inval, 0, w)
    let file ← fdArrayAcquire (w.fdArray index)
    match file.node with
    | none => .error .panic
    | some ino =>
      let (ret, iob, moved, volume) ← fileIo (Volume.sfsRead ino) w.volume file.toFile w.memory base len
      let (file, _) ← fdArrayRelease { file with toFile := moved }
      return (ret, iobufUsed iob, { w with
        volume, memory := iob.memory, fdArray := Function.update w.fdArray index file })

/-- `copy_to_user`. A page that is not there yet is supplied when `memcpy` comes to it. -/
def copyToUser (fuel : ℕ) (w : Caller) (dst src len : ℕ) : Outcome (Bool × Caller) := do
  let (accepted, mm) ← userMemCheck fuel w.mm dst len true
  if accepted then
    let data : Bytes := fun index ↦ w.memory (src + index)
    return (true, { w with memory := overlay w.memory data len dst, mm })
  else return (false, { w with mm })

/-- The loop of `sysfile_read`: the return code of the last chunk, and `copied`. -/
def sysfileReadLoop (fd : ℤ) (buffer : ℕ) : ℕ → Caller → ℕ → ℕ → ℕ → Outcome (Ret ℕ × ℕ × Caller)
  | 0, _, _, _, _ => .error .fuel
  | fuel + 1, w, base, len, copied =>
    if len ≠ 0 then do
      let (ret, alen, w) ← fileRead w fd buffer (if len < IOBUF_SIZE then len else IOBUF_SIZE)
      if alen = 0 then return (ret, copied, w)
      let (accepted, w) ← copyToUser fuel w base buffer alen
      if accepted then
        Outcome.require (alen ≤ len)
        match ret with
        | .error code => return (.error code, copied + alen, w)
        | .ok _ => sysfileReadLoop fd buffer fuel w (uint64 (base + alen)) (len - alen) (copied + alen)
      else
        match ret with
        | .error code => return (.error code, copied, w)
        | .ok _ => return (.error .inval, copied, w)
    else return (.ok 0, copied, w)

/-- `sysfile_read`, with what `kmalloc` answers. -/
def sysfileRead (buffer : Option ℕ) (fuel : ℕ) (w : Caller) (fd : ℤ) (base len : ℕ) :
    Outcome (Ret ℤ × Caller) := do
  if len = 0 then return (.ok 0, w)
  if ¬fileTestfd w.fdArray fd true false then return (.error .inval, w)
  match buffer with
  | none => return (.error .noMem, w)
  | some buffer =>
    let (ret, copied, w) ← sysfileReadLoop fd buffer fuel w base len 0
    if copied ≠ 0 then return (.ok (int32 copied), w)
    else return (ret.map Int.ofNat, w)

/-! ## What a read has to do -/

def Caller.pos (w : Caller) (fd : ℤ) : ℤ := (w.fdArray fd.toNat).pos

/-- After a call that has returned `ret`: the position has moved by the number of bytes that the
caller was told of, and these bytes are in the buffer. -/
def Lossless (w : Caller) (fd : ℤ) (ino base : ℕ) (ret : Ret ℤ) (after : Caller) : Prop :=
  match ret with
  | .error _ => after.pos fd = w.pos fd
  | .ok n =>
    if 0 ≤ n then after.pos fd = w.pos fd + n ∧ ∀ index < n.toNat,
      (w.pos fd).toNat + index < (w.volume.inode ino).size ∧ after.memory (base + index) =
        fileByte w.volume.mount.sfs (w.volume.inode ino) ((w.pos fd).toNat + index)
    else after.pos fd = w.pos fd

/-- The call comes back and has lost nothing. -/
def ReadsLossless (buffer : Option ℕ) (w : Caller) (fd : ℤ) (ino base len : ℕ) : Prop :=
  ∃ ret after, Returns (fun fuel ↦ sysfileRead buffer fuel w fd base len) (ret, after) ∧
    Lossless w fd ino base ret after

/-- An open descriptor of a regular file. -/
structure OpenFd (w : Caller) (fd : ℤ) (ino : ℕ) : Prop where
  found : fd2file w.fdArray fd = .ok fd.toNat
  node : (w.fdArray fd.toNat).node = some ino
  counted : 0 < (w.fdArray fd.toNat).openCount
  sound : SoundFile ino w.volume
  pos : -2 ^ 63 ≤ w.pos fd ∧ w.pos fd < 2 ^ 63

/-- The call gets as far as reading from a file. -/
def Reads (buffer : Option ℕ) (w : Caller) (fd : ℤ) : Prop :=
  fileTestfd w.fdArray fd true false ∧ buffer.isSome ∧ 0 ≤ w.pos fd

/-- There is a place for every byte that there is to read, and the first chunk does not go over a
block boundary and end inside a block. -/
structure Readable (areas : List Vma) (w : Caller) (fd : ℤ) (ino base len : ℕ) : Prop where
  accessible : ∀ index < available (w.volume.inode ino) (w.pos fd) len,
    Accessible areas true (base + index)
  whole : ¬TailBeyond (w.volume.inode ino) (w.pos fd) (min len IOBUF_SIZE) false

/-! ## One chunk -/

/-- The position has moved by `n`. -/
def Caller.moved (w : Caller) (fd : ℤ) (n : ℕ) (memory : Bytes) (mm : Option MmStruct) : Caller :=
  { w with
    fdArray := Function.update w.fdArray fd.toNat
      { w.fdArray fd.toNat with pos := (w.fdArray fd.toNat).pos + n }
    memory, mm }

section Chunk

variable {w : Caller} {fd : ℤ} {ino base len buf n : ℕ} {memory : Bytes} {mm : Option MmStruct}

@[simp]
theorem moved_pos (w : Caller) (fd : ℤ) (n : ℕ) (memory : Bytes) (mm : Option MmStruct) :
    (w.moved fd n memory mm).pos fd = w.pos fd + n := by
  simp [Caller.pos, Caller.moved]

@[simp]
theorem moved_moved (w : Caller) (fd : ℤ) (n n' : ℕ) (memory memory' : Bytes)
    (mm mm' : Option MmStruct) :
    (w.moved fd n memory mm).moved fd n' memory' mm' = w.moved fd (n + n') memory' mm' := by
  simp [Caller.moved, add_assoc]

theorem moved_zero (w : Caller) (fd : ℤ) : w.moved fd 0 w.memory w.mm = w := by
  simp [Caller.moved]

theorem fd2file_ok {fdArray : ℕ → Slot ℕ} {index : ℕ} (h : fd2file fdArray fd = .ok index) :
    index = fd.toNat ∧ (fdArray index).status = .opened := by
  unfold fd2file at h
  split at h
  · split at h
    · rename_i hopened
      cases h
      exact ⟨rfl, hopened.1⟩
    · cases h
  · cases h

theorem OpenFd.opened (h : OpenFd w fd ino) : (w.fdArray fd.toNat).status = .opened :=
  (fd2file_ok h.found).2

theorem OpenFd.moved (h : OpenFd w fd ino) (hpos : w.pos fd + n < 2 ^ 63) :
    OpenFd (w.moved fd n memory mm) fd ino where
  found := by
    have hfound := h.found
    unfold fd2file at hfound ⊢
    simpa [Caller.moved] using hfound
  node := by simp [Caller.moved, h.node]
  counted := by simp [Caller.moved, h.counted]
  sound := h.sound
  pos := by
    have hlow := h.pos.1
    rw [moved_pos]
    omega

theorem OpenFd.readable_iff (h : OpenFd w fd ino) :
    fileTestfd w.fdArray fd true false ↔ (w.fdArray fd.toNat).readable := by
  simp [fileTestfd, h.found]

/-- `file_read` from the operation of the inode on. -/
theorem OpenFd.fileRead_eq (h : OpenFd w fd ino) (hreadable : (w.fdArray fd.toNat).readable)
    {ret : Ret Unit} {io : Io}
    (hcall : sfsIoNolock w.volume.mount.sfs (w.volume.inode ino) w.memory buf (w.pos fd) len false =
      .ok (ret, io)) (hfs : io.fs = w.volume.mount.sfs) (hsin : io.sin = w.volume.inode ino)
    (halen : io.alen ≤ len) (hpos : w.pos fd + io.alen < 2 ^ 63) :
    fileRead w fd buf len = .ok (ret.map fun _ ↦ 0, io.alen, w.moved fd io.alen io.memory w.mm) := by
  let file : Slot ℕ :=
    { w.fdArray fd.toNat with openCount := (w.fdArray fd.toNat).openCount + 1 }
  have hacquire : fdArrayAcquire (w.fdArray fd.toNat) = .ok file := by
    rw [fdArrayAcquire, Outcome.require_of_true h.opened]
    rfl
  have hnode : file.node = some ino := h.node
  have hopened : file.status = .opened := h.opened
  have hpos' : -2 ^ 63 ≤ file.pos := h.pos.1
  rcases fileIo_eq hopened hpos' hpos hcall halen with ⟨iob, hio, hused, hmemory⟩
  have hrelease : fdArrayRelease { file with pos := file.pos + io.alen } =
      .ok ({ w.fdArray fd.toNat with pos := (w.fdArray fd.toNat).pos + io.alen }, none) := by
    have hcounted := h.counted.ne'
    rw [fdArrayRelease, Outcome.require_of_true (Or.inl hopened), Outcome.ok_bind,
      Outcome.require_of_true (Nat.succ_pos _)]
    simp [file, hcounted]
  rw [fileRead, h.found]
  simp only [hreadable, not_true_eq_false, if_false, hacquire, Outcome.ok_bind, hnode]
  rw [Volume.sfsRead, hio, Outcome.ok_bind]
  dsimp only
  rw [← hnode, hrelease, Outcome.ok_bind, hused, hmemory, hfs, hsin, Volume.set_self]
  rfl

theorem OpenFd.size_le (h : OpenFd w fd ino) :
    (w.volume.inode ino).size ≤ MAX_BLOCKS * SFS_BLKSIZE :=
  size_le_of_covered h.sound.owns h.sound.covered

/-- A chunk is read and the position moves by what there is. -/
theorem OpenFd.fileRead_chunk (buf : ℕ) (h : OpenFd w fd ino) (hreadable : (w.fdArray fd.toNat).readable)
    (hlen : len ≤ SFS_BLKSIZE) (hpos : 0 ≤ w.pos fd) (hlt : w.pos fd < SFS_MAX_FILE_SIZE)
    (hn : n = available (w.volume.inode ino) (w.pos fd) len) :
    ∃ memory, fileRead w fd buf len = .ok (.ok 0, n, w.moved fd n memory w.mm) ∧
      ChunkRead w.volume.mount.sfs (w.volume.inode ino) (w.pos fd) len buf n w.memory memory := by
  rcases sfsIoNolock_chunk w.memory buf h.sound.owns h.sound.intact.ranged
    h.sound.covered h.sound.ne_dir hpos hlt hlen with ⟨io, hcall, hfs, hsin, halen, hread⟩
  have hle : io.alen ≤ len := by
    rw [halen]
    exact min_le_left _ _
  have hmax : w.pos fd + io.alen < 2 ^ 63 := by
    unfold SFS_MAX_FILE_SIZE at hlt
    unfold SFS_BLKSIZE at hlen
    omega
  rw [hn, ← halen]
  exact ⟨io.memory, h.fileRead_eq hreadable hcall hfs hsin hle hmax, hread⟩

/-- At a position that no file has, the call is refused. -/
theorem OpenFd.fileRead_refused (buf len : ℕ) (h : OpenFd w fd ino) (hreadable : (w.fdArray fd.toNat).readable)
    (hpos : w.pos fd < 0 ∨ (SFS_MAX_FILE_SIZE : ℤ) ≤ w.pos fd) :
    fileRead w fd buf len = .ok (.error .inval, 0, w.moved fd 0 w.memory w.mm) := by
  have hcall : sfsIoNolock w.volume.mount.sfs (w.volume.inode ino) w.memory buf (w.pos fd) len false =
      .ok (.error .inval, ⟨w.volume.mount.sfs, w.volume.inode ino, w.memory, [], buf, 0,
        (w.pos fd).toNat / SFS_BLKSIZE⟩) := by
    rw [sfsIoNolock, Outcome.require_of_true h.sound.ne_dir, Outcome.ok_bind]
    dsimp only
    rw [sfsIoEndpos, if_pos (by omega)]
    rfl
  have hlt : w.pos fd + (0 : ℕ) < 2 ^ 63 := by
    rw [Nat.cast_zero, add_zero]
    exact h.pos.2
  exact h.fileRead_eq hreadable hcall rfl rfl (Nat.zero_le _) hlt

theorem tailBeyond_iff {sin : SfsInode} {pos : ℤ} (hsize : sin.size ≤ SFS_MAX_FILE_SIZE)
    (hpos : 0 ≤ pos) (hlt : pos < SFS_MAX_FILE_SIZE) (hlen : len ≤ SFS_BLKSIZE) :
    TailBeyond sin pos len false ↔ TailMoved pos.toNat (pos.toNat + available sin pos len) := by
  have hendpos := sfsIoEndpos_read hsize hpos hlt hlen
  constructor
  · rintro ⟨endpos, hendpos', hmoved⟩
    rw [hendpos] at hendpos'
    cases hendpos'
    exact hmoved
  · exact fun hmoved ↦ ⟨_, hendpos, hmoved⟩

theorem chunk_le (len : ℕ) : min len IOBUF_SIZE ≤ SFS_BLKSIZE := min_le_right len 4096

/-- After a whole chunk, the next one begins at a block boundary. -/
theorem not_tailBeyond_next {sin : SfsInode} {pos : ℤ} (hsize : sin.size ≤ MAX_BLOCKS * SFS_BLKSIZE)
    (hpos : 0 ≤ pos) (hlt : pos < SFS_MAX_FILE_SIZE)
    (hn : n = available sin pos (min len IOBUF_SIZE)) (hpositive : n ≠ 0)
    (h : ¬TailBeyond sin pos (min len IOBUF_SIZE) false) :
    ¬TailBeyond sin (pos + n) (min (len - n) IOBUF_SIZE) false := by
  have hle : MAX_BLOCKS * SFS_BLKSIZE < SFS_MAX_FILE_SIZE := by decide
  have hnext : pos + n ≤ sin.size := by
    unfold available at hn
    omega
  rw [tailBeyond_iff (hsize.trans hle.le) hpos hlt (chunk_le _)] at h
  rw [tailBeyond_iff (hsize.trans hle.le) (by omega) (by omega) (chunk_le _)]
  unfold TailMoved available at *
  unfold IOBUF_SIZE SFS_BLKSIZE at *
  omega

end Chunk

/-! ## The loop -/

section Loop

variable {w w' : Caller} {fd : ℤ} {ino base len buf copied n : ℕ} {mm : MmStruct} {areas : List Vma}

theorem chunk_eq (len : ℕ) : (if len < IOBUF_SIZE then len else IOBUF_SIZE) = min len IOBUF_SIZE := by
  split <;> omega

/-- The last round, in which nothing was read. -/
theorem loop_none {ret : Ret ℕ} (hlen : len ≠ 0)
    (hread : fileRead w fd buf (min len IOBUF_SIZE) = .ok (ret, 0, w')) (fuel : ℕ) :
    sysfileReadLoop fd buf (fuel + 1) w base len copied = .ok (ret, copied, w') := by
  rw [sysfileReadLoop, if_pos hlen, chunk_eq, hread, Outcome.ok_bind]
  rfl

/-- A round in which a chunk was read. -/
theorem loop_chunk (base copied : ℕ) (hlen : len ≠ 0) (hn : n ≠ 0) (hle : n ≤ len)
    (hread : fileRead w fd buf (min len IOBUF_SIZE) = .ok (.ok 0, n, w')) (fuel : ℕ) :
    sysfileReadLoop fd buf (fuel + 1) w base len copied =
      copyToUser fuel w' base buf n >>= fun result ↦
        if result.1 then
          sysfileReadLoop fd buf fuel result.2 (uint64 (base + n)) (len - n) (copied + n)
        else .ok (.error .inval, copied, result.2) := by
  rw [sysfileReadLoop, if_pos hlen, chunk_eq, hread, Outcome.ok_bind]
  dsimp only
  rw [if_neg hn]
  congr 1
  funext result
  rcases result with ⟨accepted, after⟩
  cases accepted
  · rfl
  · dsimp only
    rw [if_pos rfl, if_pos rfl, Outcome.require_of_true hle, Outcome.ok_bind]

/-- `copy_to_user` copies exactly when each byte of the place may be written. -/
theorem copyToUser_returns (w : Caller) (buf : ℕ) (hareas : OrderedAreas areas) (hmm : w.mm = some mm)
    (hlist : mm.mmapList = areas) (hcached : mm.Cached) (hbase : base < 2 ^ 64) (hn : 0 < n)
    (hlen : n < 2 ^ 64) : ∃ (accepted : Bool) (mm' : MmStruct), SameButCache mm mm' ∧
      (accepted ↔ ∀ index < n, Accessible areas true (base + index)) ∧
      Returns (fun fuel ↦ copyToUser fuel w base buf n) (accepted, { w with
        memory := if accepted then overlay w.memory (fun index ↦ w.memory (buf + index)) n base
          else w.memory
        mm := some mm' }) := by
  rcases userMemCheck_returns hareas hbase hn hlen hlist hcached true with
    ⟨accepted, mm', hcheck, hsame, hiff⟩
  refine ⟨accepted, mm', hsame, hiff.trans ⟨fun hall index hindex ↦ ?_, fun hall byte hlow hhigh ↦ ?_⟩,
    ?_⟩
  · exact hall _ (Nat.le_add_right ..) (Nat.add_lt_add_left hindex base)
  · obtain ⟨index, rfl⟩ := Nat.exists_eq_add_of_le hlow
    exact hall index (Nat.lt_of_add_lt_add_left hhigh)
  · rw [← hmm] at hcheck
    refine .congr (fun fuel ↦ rfl) (hcheck.bind (.of_eq fun fuel ↦ ?_))
    cases accepted <;> rfl

/-- What the loop does from a state on: it copies `done` bytes and moves the position by `moved`. -/
structure LoopRun (areas : List Vma) (w : Caller) (fd : ℤ) (ino base len buf done moved : ℕ)
    (ret : Ret ℕ) (memory : Bytes) : Prop where
  le : done ≤ moved
  le_available : moved ≤ available (w.volume.inode ino) (w.pos fd) len
  ret_ok : ∀ value, ret = .ok value → value = 0
  whole : (∀ index < available (w.volume.inode ino) (w.pos fd) len,
      Accessible areas true (base + index)) →
    done = available (w.volume.inode ino) (w.pos fd) len ∧ moved = done ∧ ret = .ok 0
  lost : ¬(∀ index < available (w.volume.inode ino) (w.pos fd) len,
      Accessible areas true (base + index)) → done < moved
  bytes : ¬TailBeyond (w.volume.inode ino) (w.pos fd) (min len IOBUF_SIZE) false →
    ∀ index < done, memory (base + index) =
      fileByte w.volume.mount.sfs (w.volume.inode ino) ((w.pos fd).toNat + index)
  tail : TailBeyond (w.volume.inode ino) (w.pos fd) (min len IOBUF_SIZE) false → done ≠ 0 →
    tailStart (w.pos fd) < done ∧
      memory (base + tailStart (w.pos fd)) = w.memory (buf + tailStart (w.pos fd))
  below : ∀ address < base, address < USERTOP → memory address = w.memory address

variable {memory : Bytes}

/-- The loop ends without copying anything. -/
theorem LoopRun.stop (hnone : available (w.volume.inode ino) (w.pos fd) len = 0)
    (hbelow : SameBelow buf w.memory memory) (hbuf : USERTOP ≤ buf) :
    LoopRun areas w fd ino base len buf 0 0 (.ok 0) memory where
  le := le_rfl
  le_available := Nat.zero_le _
  ret_ok := fun value heq ↦ (Except.ok.inj heq).symm
  whole := fun _ ↦ ⟨hnone.symm, rfl, rfl⟩
  lost := by
    rw [hnone]
    exact fun h ↦ absurd nofun h
  bytes := fun _ ↦ nofun
  tail := fun _ h ↦ absurd rfl h
  below := fun address _ htop ↦ hbelow address (htop.trans_le hbuf)

/-- The loop ends because a chunk cannot be copied. -/
theorem LoopRun.refused (hle : n ≤ available (w.volume.inode ino) (w.pos fd) len)
    (hn : 0 < n) (hrefused : ¬∀ index < n, Accessible areas true (base + index))
    (hbelow : SameBelow buf w.memory memory) (hbuf : USERTOP ≤ buf) :
    LoopRun areas w fd ino base len buf 0 n (.error .inval) memory where
  le := Nat.zero_le n
  le_available := hle
  ret_ok := nofun
  whole := fun hall ↦ absurd (fun index hindex ↦ hall index (hindex.trans_le hle)) hrefused
  lost := fun _ ↦ hn
  bytes := fun _ ↦ nofun
  tail := fun _ h ↦ absurd rfl h
  below := fun address _ htop ↦ hbelow address (htop.trans_le hbuf)

theorem available_add {sin : SfsInode} {pos : ℤ} (hpos : 0 ≤ pos) (hle : n ≤ available sin pos len) :
    available sin pos len = n + available sin (pos + n) (len - n) := by
  unfold available at *
  omega

/-- A chunk is copied, and the loop goes on. -/
theorem LoopRun.chunk {done moved : ℕ} {ret : Ret ℕ} {memory' : Bytes} {mm' : Option MmStruct}
    (hpos : 0 ≤ w.pos fd) (hlt : w.pos fd < SFS_MAX_FILE_SIZE)
    (hsize : (w.volume.inode ino).size ≤ MAX_BLOCKS * SFS_BLKSIZE)
    (hareas : OrderedAreas areas)
    (hn : n = available (w.volume.inode ino) (w.pos fd) (min len IOBUF_SIZE)) (hpositive : n ≠ 0)
    (haccessible : ∀ index < n, Accessible areas true (base + index))
    (hread : ChunkRead w.volume.mount.sfs (w.volume.inode ino) (w.pos fd) (min len IOBUF_SIZE) buf n
      w.memory memory) (hbuf : USERTOP ≤ buf)
    (h : LoopRun areas
      (w.moved fd n (overlay memory (fun index ↦ memory (buf + index)) n base) mm') fd ino
      (base + n) (len - n) buf done moved ret memory') :
    LoopRun areas w fd ino base len buf (n + done) (n + moved) ret memory' := by
  have hvolume : (w.moved fd n (overlay memory (fun index ↦ memory (buf + index)) n base)
    mm').volume = w.volume := rfl
  have hmemory : (w.moved fd n (overlay memory (fun index ↦ memory (buf + index)) n base)
    mm').memory = overlay memory (fun index ↦ memory (buf + index)) n base := rfl
  have hwhole := h.whole
  have hlost := h.lost
  have hbytes := h.bytes
  have hbelow := h.below
  rw [hmemory] at hbelow
  rw [hvolume, moved_pos] at hwhole hlost hbytes
  have hle : n ≤ available (w.volume.inode ino) (w.pos fd) len := by
    unfold available at hn ⊢
    omega
  have htotal := available_add hpos hle
  have htop : ∀ index < n, base + index < USERTOP := fun index hindex ↦
    (hareas.access_of_accessible (haccessible index hindex)).2
  -- the bytes of this chunk stay as they were copied
  have hcopied : ∀ index < n, memory' (base + index) = memory (buf + index) := by
    intro index hindex
    rw [hbelow _ (Nat.add_lt_add_left hindex base) (htop index hindex)]
    exact overlay_inside hindex
  have hiff : (∀ index < available (w.volume.inode ino) (w.pos fd) len,
        Accessible areas true (base + index)) ↔
      ∀ index < available (w.volume.inode ino) (w.pos fd + n) (len - n),
        Accessible areas true (base + n + index) := by
    rw [htotal]
    constructor
    · intro hall index hindex
      rw [add_assoc]
      exact hall _ (Nat.add_lt_add_left hindex n)
    · intro hall index hindex
      by_cases hfirst : index < n
      · exact haccessible index hfirst
      · obtain ⟨more, rfl⟩ := Nat.exists_eq_add_of_le (not_lt.mp hfirst)
        rw [← add_assoc]
        exact hall more (Nat.lt_of_add_lt_add_left hindex)
  refine ⟨Nat.add_le_add_left h.le n, ?_, h.ret_ok, fun hall ↦ ?_, fun hnot ↦ ?_,
    fun hstay index hindex ↦ ?_, fun hbeyond _ ↦ ?_, fun address haddress huser ↦ ?_⟩
  · have hmoved := h.le_available
    rw [hvolume, moved_pos] at hmoved
    rw [htotal]
    exact Nat.add_le_add_left hmoved n
  · rcases hwhole (hiff.mp hall) with ⟨hdone, hmoved, hret⟩
    rw [htotal, ← hdone, hmoved]
    exact ⟨rfl, rfl, hret⟩
  · exact Nat.add_lt_add_left (hlost fun hall ↦ hnot (hiff.mpr hall)) n
  · by_cases hfirst : index < n
    · rw [hcopied index hfirst]
      exact hread.bytes hstay index hfirst
    · obtain ⟨more, rfl⟩ := Nat.exists_eq_add_of_le (not_lt.mp hfirst)
      have hnext := hbytes (not_tailBeyond_next hsize hpos hlt hn hpositive hstay) more
        (Nat.lt_of_add_lt_add_left hindex)
      have hplace : (w.pos fd + n).toNat + more = (w.pos fd).toNat + (n + more) := by omega
      rw [← add_assoc, hnext, hplace]
  · rcases hread.tail hbeyond with ⟨hstart, htail⟩
    rw [hcopied _ hstart]
    exact ⟨hstart.trans_le (Nat.le_add_right ..), htail⟩
  · rw [hbelow address (haddress.trans_le (Nat.le_add_right ..)) huser, overlay_outside (Or.inl haddress)]
    exact hread.below address (huser.trans_le hbuf)

/-- The loop returns, whatever of the buffer may be written. -/
theorem sysfileReadLoop_returns (copied : ℕ) (h : OpenFd w fd ino) (hreadable : (w.fdArray fd.toNat).readable)
    (hpos : 0 ≤ w.pos fd) (hlt : w.pos fd < SFS_MAX_FILE_SIZE) (hareas : OrderedAreas areas)
    (hmm : w.mm = some mm) (hlist : mm.mmapList = areas) (hcached : mm.Cached)
    (hbase : base < 2 ^ 64) (hlen : len < 2 ^ 64) (hbuf : USERTOP ≤ buf) :
    ∃ done moved ret memory mm', LoopRun areas w fd ino base len buf done moved ret memory ∧
      Returns (fun fuel ↦ sysfileReadLoop fd buf fuel w base len copied)
        (ret, copied + done, w.moved fd moved memory mm') := by
  -- induction on the bytes that are still asked for
  induction hleft : len using Nat.strongRecOn generalizing w base len copied mm with
  | _ left ih =>
    subst hleft
    by_cases hzero : len = 0
    · have hnone : available (w.volume.inode ino) (w.pos fd) len = 0 := by
        rw [hzero]
        exact Nat.zero_min _
      refine ⟨0, 0, .ok 0, w.memory, w.mm, .stop hnone (SameBelow.refl _ _) hbuf,
        .of_succ (.of_eq fun fuel ↦ ?_)⟩
      rw [moved_zero, hzero]
      rfl
    · obtain ⟨n, hn⟩ : ∃ n, n = available (w.volume.inode ino) (w.pos fd) (min len IOBUF_SIZE) :=
        ⟨_, rfl⟩
      rcases h.fileRead_chunk buf hreadable (chunk_le len) hpos hlt hn with
        ⟨memory, hcall, hread⟩
      have hn' := hn
      unfold available at hn'
      by_cases hnone : n = 0
      · have hend : available (w.volume.inode ino) (w.pos fd) len = 0 := by
          unfold available
          unfold IOBUF_SIZE at hn'
          omega
        rw [hnone] at hcall
        exact ⟨0, 0, .ok 0, memory, w.mm, .stop hend hread.below hbuf,
          .of_succ (.of_eq (loop_none hzero hcall))⟩
      · have hle : n ≤ len := by omega
        have hsize := h.size_le
        have hmax : MAX_BLOCKS * SFS_BLKSIZE < SFS_MAX_FILE_SIZE := by decide
        have hnext : w.pos fd + n ≤ (w.volume.inode ino).size := by omega
        rcases copyToUser_returns (w.moved fd n memory w.mm) buf hareas hmm hlist hcached
          hbase (Nat.pos_of_ne_zero hnone) (hle.trans_lt hlen) with ⟨accepted, mm', hsame, hiff, hcopy⟩
        have hround := loop_chunk base copied hzero hnone hle hcall
        cases accepted with
        | false =>
          have hrefused : ¬∀ index < n, Accessible areas true (base + index) :=
            fun hall ↦ Bool.false_ne_true (hiff.mpr hall)
          refine ⟨0, n, .error .inval, memory, some mm', .refused ?_ (Nat.pos_of_ne_zero hnone) hrefused
            hread.below hbuf, .of_succ (.congr hround (hcopy.bind (.of_eq fun fuel ↦ rfl)))⟩
          unfold available
          omega
        | true =>
          have haccessible := hiff.mp rfl
          have hstop : base + n < 2 ^ 64 := by
            have hlast := (hareas.access_of_accessible (haccessible (n - 1) (by omega))).2
            unfold USERTOP at hlast
            omega
          have hplace : uint64 (base + n) = base + n := uint64_of_lt hstop
          let data : Bytes := fun index ↦ memory (buf + index)
          have hopen : OpenFd (w.moved fd n (overlay memory data n base) (some mm')) fd ino := by
            apply h.moved
            unfold SFS_MAX_FILE_SIZE at hmax
            omega
          have hreadable' : ((w.moved fd n (overlay memory data n base) (some mm')).fdArray
              fd.toNat).readable := by
            simp [Caller.moved, hreadable]
          have hrest : ∃ done moved ret memory' mm'', LoopRun areas
              (w.moved fd n (overlay memory data n base) (some mm')) fd ino (base + n) (len - n) buf done
              moved ret memory' ∧
              Returns (fun fuel ↦ sysfileReadLoop fd buf fuel
                (w.moved fd n (overlay memory data n base) (some mm')) (base + n) (len - n) (copied + n))
                (ret, copied + n + done,
                  (w.moved fd n (overlay memory data n base) (some mm')).moved fd moved memory' mm'') :=
            ih (len - n) (by omega) (copied + n) hopen hreadable' (by rw [moved_pos]; omega)
              (by rw [moved_pos]; omega) rfl (hsame.mmapList.trans hlist) hsame.cached hstop (by omega) rfl
          rcases hrest with ⟨done, moved, ret, memory', mm'', hrun, hreturns⟩
          refine ⟨n + done, n + moved, ret, memory', mm'',
            .chunk hpos hlt hsize hareas hn hnone haccessible hread hbuf hrun,
            .of_succ (.congr hround (hcopy.bind ?_))⟩
          rw [moved_moved, add_assoc] at hreturns
          refine .congr (fun fuel ↦ ?_) hreturns
          rw [if_pos rfl, hplace]
          rfl

end Loop

/-! ## The call -/

section Call

variable {w after : Caller} {fd : ℤ} {ino base len buf : ℕ} {mm : MmStruct} {areas : List Vma}
  {buffer : Option ℕ}

/-- A call that does not get to a file, or that the file refuses. -/
theorem readsLossless_of_error (code : Error)
    (hcall : ∀ fuel, sysfileRead buffer (fuel + 1) w fd base len = .ok (.error code, w)) :
    ReadsLossless buffer w fd ino base len := ⟨.error code, w, .of_succ (.of_eq hcall), rfl⟩

theorem sysfileRead_eq (hlen : len ≠ 0) (htest : fileTestfd w.fdArray fd true false) (fuel : ℕ) :
    sysfileRead (some buf) fuel w fd base len =
      sysfileReadLoop fd buf fuel w base len 0 >>= fun result ↦
        .ok (if result.2.1 ≠ 0 then .ok (int32 result.2.1) else result.1.map Int.ofNat,
          result.2.2) := by
  rw [sysfileRead, if_neg hlen, if_neg (not_not.mpr htest)]
  dsimp only
  congr 1
  funext result
  split <;> rfl

/-- At a position that no file has, nothing happens. -/
theorem readsLossless_of_pos (h : OpenFd w fd ino) (hlen : len ≠ 0)
    (htest : fileTestfd w.fdArray fd true false)
    (hpos : w.pos fd < 0 ∨ (SFS_MAX_FILE_SIZE : ℤ) ≤ w.pos fd) :
    ReadsLossless (some buf) w fd ino base len := by
  refine readsLossless_of_error .inval fun fuel ↦ ?_
  have hread := h.fileRead_refused buf (min len IOBUF_SIZE)
    (h.readable_iff.mp htest) hpos
  rw [moved_zero] at hread
  rw [sysfileRead_eq hlen htest, loop_none hlen hread]
  rfl

theorem readsLossless_zero (buffer : Option ℕ) (w : Caller) (fd : ℤ) (ino base : ℕ) :
    ReadsLossless buffer w fd ino base 0 := by
  refine ⟨.ok 0, w, .of_eq fun fuel ↦ ?_, ?_⟩
  · unfold sysfileRead
    rw [if_pos rfl]
    rfl
  · rw [Lossless, if_pos le_rfl]
    exact ⟨(add_zero _).symm, nofun⟩

theorem found_of_fileTestfd (h : fileTestfd w.fdArray fd true false) :
    fd2file w.fdArray fd = .ok fd.toNat := by
  unfold fileTestfd at h
  split at h
  · cases h
  · rename_i index hfound
    rw [hfound, (fd2file_ok hfound).1]

theorem readsLossless_of_not_reads (hfile : fd2file w.fdArray fd = .ok fd.toNat → OpenFd w fd ino)
    (h : ¬Reads buffer w fd) : ReadsLossless buffer w fd ino base len := by
  by_cases hlen : len = 0
  · rw [hlen]
    exact readsLossless_zero ..
  · by_cases htest : fileTestfd w.fdArray fd true false
    · cases buffer with
      | none =>
        refine readsLossless_of_error .noMem fun fuel ↦ ?_
        rw [sysfileRead, if_neg hlen, if_neg (not_not.mpr htest)]
        rfl
      | some buf =>
        have hpos : w.pos fd < 0 := by
          by_contra hpos
          exact h ⟨htest, rfl, not_lt.mp hpos⟩
        exact readsLossless_of_pos (hfile (found_of_fileTestfd htest)) hlen htest (Or.inl hpos)
    · refine readsLossless_of_error .inval fun fuel ↦ ?_
      unfold sysfileRead
      rw [if_neg hlen, if_pos htest]
      rfl

/-- The outcome of a run of the loop, for the caller. -/
theorem LoopRun.lossless_iff {done moved : ℕ} {ret : Ret ℕ} {memory : Bytes}
    (mm' : Option MmStruct) (h : LoopRun areas w fd ino base len buf done moved ret memory)
    (hsize : (w.volume.inode ino).size ≤ MAX_BLOCKS * SFS_BLKSIZE) :
    Lossless w fd ino base (if done ≠ 0 then .ok (int32 done) else ret.map Int.ofNat)
        (w.moved fd moved memory mm') ↔
      moved = done ∧ ∀ index < done, memory (base + index) =
        fileByte w.volume.mount.sfs (w.volume.inode ino) ((w.pos fd).toNat + index) := by
  have hle := h.le
  have hlast := h.le_available
  unfold available at hlast
  by_cases hnone : done = 0
  · have hpos : (w.moved fd moved memory mm').pos fd = w.pos fd ↔ moved = 0 := by
      rw [moved_pos]
      omega
    rw [if_neg (not_not.mpr hnone), hnone]
    cases hret : ret with
    | error code => exact hpos.trans ⟨fun hmoved ↦ ⟨hmoved, nofun⟩, And.left⟩
    | ok value =>
      rw [h.ret_ok value hret]
      have hzero : (w.moved fd moved memory mm').pos fd = w.pos fd + (0 : ℤ) ↔ moved = 0 := by
        rwa [add_zero]
      exact ⟨fun hlossless ↦ ⟨hzero.mp hlossless.1, nofun⟩, fun hmoved ↦ ⟨hzero.mpr hmoved.1, nofun⟩⟩
  · have hint : int32 done = done := by
      unfold MAX_BLOCKS SFS_NDIRECT SFS_BLK_NENTRY SFS_BLKSIZE at hsize
      unfold int32
      omega
    rw [if_pos hnone, hint, Lossless, if_pos (Int.natCast_nonneg done), moved_pos, Int.toNat_natCast]
    constructor
    · rintro ⟨hmoved, hbytes⟩
      exact ⟨by omega, fun index hindex ↦ (hbytes index hindex).2⟩
    · rintro ⟨rfl, hbytes⟩
      exact ⟨rfl, fun index hindex ↦ ⟨by omega, hbytes index hindex⟩⟩

/-- With a descriptor whose position is in range, one run decides. -/
theorem readsLossless_iff_run (h : OpenFd w fd ino) (hlen : len ≠ 0)
    (htest : fileTestfd w.fdArray fd true false) {done moved : ℕ} {ret : Ret ℕ} {memory : Bytes}
    {mm' : Option MmStruct} (hrun : LoopRun areas w fd ino base len buf done moved ret memory)
    (hreturns : Returns (fun fuel ↦ sysfileReadLoop fd buf fuel w base len 0)
      (ret, 0 + done, w.moved fd moved memory mm')) :
    ReadsLossless (some buf) w fd ino base len ↔
      moved = done ∧ ∀ index < done, memory (base + index) =
        fileByte w.volume.mount.sfs (w.volume.inode ino) ((w.pos fd).toNat + index) := by
  rw [Nat.zero_add] at hreturns
  have hcall : Returns (fun fuel ↦ sysfileRead (some buf) fuel w fd base len)
      (if done ≠ 0 then .ok (int32 done) else ret.map Int.ofNat, w.moved fd moved memory mm') :=
    .congr (sysfileRead_eq hlen htest) (hreturns.bind (.of_eq fun fuel ↦ rfl))
  rw [← hrun.lossless_iff mm' h.size_le]
  constructor
  · rintro ⟨ret', after, hcall', hlossless⟩
    cases hcall.unique hcall'
    exact hlossless
  · exact fun hlossless ↦ ⟨_, _, hcall, hlossless⟩

theorem OpenFd.memory (h : OpenFd w fd ino) (memory : Bytes) :
    OpenFd { w with memory := memory } fd ino := ⟨h.found, h.node, h.counted, h.sound, h.pos⟩

/-- A chunk of the file that comes before a tail beyond the buffer is not empty. -/
theorem available_of_tailBeyond {sin : SfsInode} {pos : ℤ} (hsize : sin.size ≤ SFS_MAX_FILE_SIZE)
    (hpos : 0 ≤ pos) (hlt : pos < SFS_MAX_FILE_SIZE)
    (h : TailBeyond sin pos (min len IOBUF_SIZE) false) : available sin pos len ≠ 0 := by
  have hmoved := (tailBeyond_iff hsize hpos hlt (chunk_le len)).mp h
  intro hnone
  have hzero : available sin pos (min len IOBUF_SIZE) = 0 := by
    unfold available at hnone ⊢
    unfold IOBUF_SIZE
    omega
  rw [hzero] at hmoved
  exact hmoved.2 rfl

theorem OpenFd.readable_of_none (h : OpenFd w fd ino) (hpos : 0 ≤ w.pos fd)
    (hnone : available (w.volume.inode ino) (w.pos fd) len = 0) :
    Readable areas w fd ino base len where
  accessible := by
    rw [hnone]
    nofun
  whole := by
    intro hbeyond
    have hsize : (w.volume.inode ino).size ≤ SFS_MAX_FILE_SIZE := h.size_le.trans (by decide)
    rcases hbeyond with ⟨endpos, hendpos, hmoved⟩
    have hlt := (sfsIoEndpos_le hendpos).1
    exact available_of_tailBeyond hsize hpos (by omega) ⟨endpos, hendpos, hmoved⟩ hnone

/-- The case in which chunks are read: memory that differs from the file shows a tail that does not
get to its place. -/
theorem OpenFd.readsLossless_iff_readable (h : OpenFd w fd ino)
    (htest : fileTestfd w.fdArray fd true false) (hpos : 0 ≤ w.pos fd)
    (hlt : w.pos fd < SFS_MAX_FILE_SIZE) (hareas : OrderedAreas mm.mmapList) (hmm : w.mm = some mm)
    (hcached : mm.Cached) (hbase : base < 2 ^ 64) (hlen : len < 2 ^ 64) (hzero : len ≠ 0)
    (hbuf : USERTOP ≤ buf) :
    (∀ memory, ReadsLossless (some buf) { w with memory := memory } fd ino base len) ↔
      Readable mm.mmapList w fd ino base len := by
  have hreadable := h.readable_iff.mp htest
  have hsize : (w.volume.inode ino).size ≤ SFS_MAX_FILE_SIZE := h.size_le.trans (by decide)
  have hruns : ∀ memory, ∃ done moved ret memory', LoopRun mm.mmapList { w with memory := memory } fd ino
      base len buf done moved ret memory' ∧
      (ReadsLossless (some buf) { w with memory := memory } fd ino base len ↔
        moved = done ∧ ∀ index < done, memory' (base + index) =
          fileByte w.volume.mount.sfs (w.volume.inode ino) ((w.pos fd).toNat + index)) := by
    intro memory
    rcases sysfileReadLoop_returns 0 (h.memory memory) hreadable hpos hlt hareas hmm rfl
      hcached hbase hlen hbuf with ⟨done, moved, ret, memory', mm', hrun, hreturns⟩
    exact ⟨done, moved, ret, memory', hrun,
      readsLossless_iff_run (h.memory memory) hzero htest hrun hreturns⟩
  constructor
  · intro hall
    let memory : Bytes := fun address ↦
      fileByte w.volume.mount.sfs (w.volume.inode ino) ((w.pos fd).toNat + (address - buf)) + 1
    rcases hruns memory with ⟨done, moved, ret, memory', hrun, hiff⟩
    rcases hiff.mp (hall memory) with ⟨hmoved, hbytes⟩
    have haccessible : ∀ index < available (w.volume.inode ino) (w.pos fd) len,
        Accessible mm.mmapList true (base + index) := by
      by_contra hnot
      exact absurd (hrun.lost hnot) (by omega)
    refine ⟨haccessible, fun hbeyond ↦ ?_⟩
    have hdone : done ≠ 0 := by
      rw [(hrun.whole haccessible).1]
      exact available_of_tailBeyond hsize hpos hlt hbeyond
    rcases hrun.tail hbeyond hdone with ⟨hstart, htail⟩
    have hstart : tailStart (w.pos fd) < done := hstart
    have hbyte := hbytes _ hstart
    have hother : memory (buf + tailStart (w.pos fd)) = fileByte w.volume.mount.sfs
        (w.volume.inode ino) ((w.pos fd).toNat + tailStart (w.pos fd)) + 1 := by
      dsimp only [memory]
      rw [Nat.add_sub_cancel_left]
    have hkept : memory' (base + tailStart (w.pos fd)) = memory (buf + tailStart (w.pos fd)) := htail
    rw [hkept, hother] at hbyte
    exact absurd hbyte (by simp)
  · intro hread memory
    rcases hruns memory with ⟨done, moved, ret, memory', hrun, hiff⟩
    exact hiff.mpr ⟨(hrun.whole hread.accessible).2.1, hrun.bytes hread.whole⟩

/-- Whatever memory holds, nothing is lost exactly when the call does not get to a file, or the
buffer has a place for all bytes and the first chunk is read to its place. -/
theorem readsLossless_iff (buffer : Option ℕ) (hbuffer : ∀ buf ∈ buffer, KERNBASE ≤ buf) (w : Caller)
    (mm : MmStruct) (hmm : w.mm = some mm) (hareas : OrderedAreas mm.mmapList) (hcached : mm.Cached)
    (fd : ℤ) (ino : ℕ) (hfile : fd2file w.fdArray fd = .ok fd.toNat → OpenFd w fd ino) (base len : ℕ)
    (hbase : base < 2 ^ 64) (hlen : len < 2 ^ 64) :
    (∀ memory, ReadsLossless buffer { w with memory := memory } fd ino base len) ↔
      (Reads buffer w fd → Readable mm.mmapList w fd ino base len) := by
  by_cases hreads : Reads buffer w fd
  · rw [imp_iff_right hreads]
    rcases hreads with ⟨htest, hsome, hpos⟩
    obtain ⟨buf, rfl⟩ := Option.isSome_iff_exists.mp hsome
    have h := hfile (found_of_fileTestfd htest)
    by_cases hzero : len = 0
    · rw [hzero]
      refine iff_of_true (fun memory ↦ readsLossless_zero _ _ _ _ _) (h.readable_of_none hpos ?_)
      exact Nat.zero_min _
    · by_cases hlt : w.pos fd < SFS_MAX_FILE_SIZE
      · have hbuf : USERTOP ≤ buf := le_trans (by decide) (hbuffer buf rfl)
        exact h.readsLossless_iff_readable htest hpos hlt hareas hmm hcached hbase hlen hzero hbuf
      · have hnone : available (w.volume.inode ino) (w.pos fd) len = 0 := by
          have hsize := h.size_le
          have hmax : MAX_BLOCKS * SFS_BLKSIZE < SFS_MAX_FILE_SIZE := by decide
          unfold available
          omega
        exact iff_of_true (fun memory ↦ readsLossless_of_pos (h.memory memory) hzero htest
          (Or.inr (not_lt.mp hlt))) (h.readable_of_none hpos hnone)
  · exact iff_of_true (fun memory ↦ readsLossless_of_not_reads (fun hfound ↦ (hfile hfound).memory memory)
      hreads) fun h ↦ absurd h hreads

/-! ### A file of two blocks and a buffer of two pages -/

theorem intact_oneFile : Intact oneFile := by
  refine ⟨consistent_oneFile, fun b _ hfree ↦ ?_⟩
  rw [(sevenBlocks_free b).mp hfree]
  decide

theorem soundFile_oneFile : SoundFile 3 ⟨oneFile, fun _ ↦ twoBlockFile⟩ :=
  ⟨intact_oneFile, List.mem_singleton.mpr rfl, rfl, by decide, le_rfl⟩

/-- A process with the file under every descriptor, and two pages of memory. -/
def twoPages (vmFlags : ℕ) : MmStruct := ⟨[⟨0x200000, 0x202000, vmFlags⟩], none, Table.clear 0 none, 1, false⟩

def reader (vmFlags : ℕ) : Caller where
  volume := ⟨oneFile, fun _ ↦ twoBlockFile⟩
  fdArray := fun index ↦ ⟨⟨.opened, true, false, 0, 1⟩, index, some 3⟩
  memory := fun _ ↦ 0
  mm := some (twoPages vmFlags)

theorem openFd_reader (vmFlags : ℕ) : OpenFd (reader vmFlags) 3 3 where
  found := rfl
  node := rfl
  counted := Nat.one_pos
  sound := soundFile_oneFile
  pos := ⟨(by decide : -2 ^ 63 ≤ (0 : ℤ)), (by decide : (0 : ℤ) < 2 ^ 63)⟩

theorem orderedAreas_twoPages (vmFlags : ℕ) : OrderedAreas (twoPages vmFlags).mmapList := by
  refine ⟨fun vma hvma ↦ ?_, List.pairwise_singleton _ _⟩
  rw [List.mem_singleton.mp hvma]
  exact (by decide : UserAccess 0x200000 0x202000)

theorem readsLossless_writable :
    (∀ memory, ReadsLossless (some KERNBASE)
        { reader (VM_READ ||| VM_WRITE) with memory := memory } 3 3 0x200000 4096) ↔
      (Reads (some KERNBASE) (reader (VM_READ ||| VM_WRITE)) 3 →
        Readable (twoPages (VM_READ ||| VM_WRITE)).mmapList (reader (VM_READ ||| VM_WRITE)) 3 3 0x200000
          4096) :=
  readsLossless_iff (some KERNBASE) (fun buf hbuf ↦ (Option.some.inj hbuf).le) _ _ rfl
    (orderedAreas_twoPages _) nofun 3 3 (fun _ ↦ openFd_reader _) 0x200000 4096 (by decide) (by decide)

/-- Reading into pages that may not be written: an error, and the position is 4096. -/
theorem not_readsLossless_readOnly : ¬∀ (buffer : Option ℕ), (∀ buf ∈ buffer, KERNBASE ≤ buf) →
    ∀ (w : Caller) (mm : MmStruct), w.mm = some mm → OrderedAreas mm.mmapList → mm.Cached →
    ∀ (fd : ℤ) (ino : ℕ), (fd2file w.fdArray fd = .ok fd.toNat → OpenFd w fd ino) →
    ∀ base len : ℕ, base < 2 ^ 64 → len < 2 ^ 64 → ReadsLossless buffer w fd ino base len := by
  intro h
  have hopen := openFd_reader VM_READ
  have hall : ∀ memory, ReadsLossless (some KERNBASE)
      { reader VM_READ with memory := memory } 3 3 0x200000 4096 := fun memory ↦
    h (some KERNBASE) (fun buf hbuf ↦ (Option.some.inj hbuf).le) _ _ rfl (orderedAreas_twoPages VM_READ)
      nofun 3 3 (fun _ ↦ hopen.memory memory) _ _ (by decide) (by decide)
  have hreadable := (hopen.readsLossless_iff_readable rfl (by decide) (by decide)
    (orderedAreas_twoPages VM_READ) rfl nofun (by decide) (by decide) (by decide) (by decide)).mp hall
  rcases hreadable.accessible 0 (by decide) with ⟨vma, hvma, hallows⟩
  rw [List.mem_singleton.mp hvma] at hallows
  exact absurd rfl hallows.flag

end Call

end Ucore.Fs
