import Ucore.Fs.SfsGetdirentry
import Ucore.Fs.SysfileRead
import Ucore.Library.LittleEndian
import Ucore.Library.Run

/-!
# `sysfile_getdirentry`

A process lists a directory with a `struct dirent` of its own, whose field `offset` says where to go
on. The call copies this field into the kernel, lets the directory fill in the name, adds the bytes
of the name to the offset and copies both back. So the entries come one after the other, each once.
-/

namespace Ucore.Fs

open Library Mm

/-- `sizeof(off_t)`, which is where the name begins, and `sizeof(struct dirent)`. -/
def OFF_SIZE : ℕ := 8
def DIRENT_SIZE : ℕ := OFF_SIZE + sfsDentrySize

/-- The `off_t` at an address. -/
def offsetAt (memory : Bytes) (addr : ℕ) : ℤ :=
  int64 (ofBytes (fun index ↦ memory (addr + index)) OFF_SIZE)

def storeOffset (memory : Bytes) (addr : ℕ) (value : ℤ) : Bytes :=
  overlay memory (toBytes (value % 2 ^ 64).toNat) OFF_SIZE addr

/-- `copy_from_user`. -/
def copyFromUser (fuel : ℕ) (w : Caller) (dst src len : ℕ) (writable : Bool) :
    Outcome (Bool × Caller) := do
  let (accepted, mm) ← userMemCheck fuel w.mm src len writable
  if accepted then
    let data : Bytes := fun index ↦ w.memory (src + index)
    return (true, { w with memory := overlay w.memory data len dst, mm })
  else return (false, { w with mm })

/-- `file_getdirentry`, with whether the directory gets memory for an entry. -/
def fileGetdirentry (memory : Bool) (w : Caller) (fd : ℤ) (direntp : ℕ) :
    Outcome (Ret Unit × Caller) := do
  match fd2file w.fdArray fd with
  | .error code => return (.error code, w)
  | .ok index =>
    let file ← fdArrayAcquire (w.fdArray index)
    match file.node with
    | none => .error .panic
    | some ino =>
      let (ret, iob, volume) ← w.volume.vopGetdirentry memory ino
        (iobufInit w.memory (direntp + OFF_SIZE) sfsDentrySize (offsetAt w.memory direntp))
      let bytes := match ret with
        | .ok () =>
          storeOffset iob.memory direntp (int64 (offsetAt iob.memory direntp + iobufUsed iob))
        | .error _ => iob.memory
      let (file, _) ← fdArrayRelease file
      return (ret, { w with
        volume, memory := bytes, fdArray := Function.update w.fdArray index file })

/-- `sysfile_getdirentry`, with what `kmalloc` answers to it. -/
def sysfileGetdirentry (buffer : Option ℕ) (memory : Bool) (fuel : ℕ) (w : Caller) (fd : ℤ)
    (dirent : ℕ) : Outcome (Ret ℤ × Caller) := do
  match buffer with
  | none => return (.error .noMem, w)
  | some direntp =>
    let (accepted, w) ← copyFromUser fuel w direntp dirent OFF_SIZE true
    if ¬accepted then return (.error .inval, w)
    match ← fileGetdirentry memory w fd direntp with
    | (.error code, w) => return (.error code, w)
    | (.ok (), w) =>
      let (accepted, w) ← copyToUser fuel w dirent direntp DIRENT_SIZE
      if accepted then return (.ok 0, w) else return (.error .inval, w)

/-! ## Listing a directory -/

/-- A descriptor that is open on a directory, and a place for a `struct dirent` in the memory of the
process. -/
structure Listing (w : Caller) (fd : ℤ) (ino dirent : ℕ) : Prop where
  found : fd2file w.fdArray fd = .ok fd.toNat
  node : (w.fdArray fd.toNat).node = some ino
  counted : 0 < (w.fdArray fd.toNat).openCount
  consistent : Consistent w.volume.mount
  mem : ino ∈ w.volume.mount.inos
  directory : (w.volume.inode ino).type = SFS_TYPE_DIR
  place : ∃ mm, w.mm = some mm ∧ OrderedAreas mm.mmapList ∧ mm.Cached ∧
    ∀ index < DIRENT_SIZE, Accessible mm.mmapList true (dirent + index)

def Caller.entries (w : Caller) (ino : ℕ) : List DiskEntry :=
  Ucore.Fs.entries w.volume.mount.sfs (w.volume.inode ino)

/-- The bytes of a name and of the end of it. -/
def nameBytes (bytes : Bytes) : List UInt8 := (List.range sfsDentrySize).map bytes

/-- What the process sees of a call: the error, or the name that is in its `struct dirent` now. -/
def seen (dirent : ℕ) (ret : Ret ℤ) (after : Caller) : Ret (List UInt8) :=
  ret.map fun _ ↦ nameBytes fun index ↦ after.memory (dirent + OFF_SIZE + index)

/-- The calls of a process that lists the directory, with any answers of `kmalloc`. In between
anything may happen that leaves the directory, the descriptor and the offset as they are. -/
inductive ListStep (fd : ℤ) (ino dirent : ℕ) : Caller → Option (Ret (List UInt8)) → Caller → Prop
  | call {w after : Caller} {buffer : Option ℕ} {memory : Bool} {ret : Ret ℤ}
      (hbuffer : ∀ direntp ∈ buffer, KERNBASE ≤ direntp)
      (hreturns : Returns (fun fuel ↦ sysfileGetdirentry buffer memory fuel w fd dirent) (ret, after)) :
      ListStep fd ino dirent w (some (seen dirent ret after)) after
  | other {w after : Caller} (hlisting : Listing after fd ino dirent)
      (hentries : after.entries ino = w.entries ino)
      (hoffset : offsetAt after.memory dirent = offsetAt w.memory dirent) :
      ListStep fd ino dirent w none after

/-- The names that were returned, in the order of the calls. -/
def returned (answers : List (Option (Ret (List UInt8)))) : List (List UInt8) :=
  answers.filterMap fun answer ↦ answer.bind Except.toOption

variable {w after : Caller} {fd : ℤ} {ino dirent direntp n : ℕ}

/-! ## Offsets in memory -/

theorem offsetAt_congr {memory memory' : Bytes} {addr addr' : ℕ}
    (h : ∀ index < OFF_SIZE, memory' (addr' + index) = memory (addr + index)) :
    offsetAt memory' addr' = offsetAt memory addr := by
  rw [offsetAt, offsetAt, ofBytes_congr h]

theorem offsetAt_storeOffset (memory : Bytes) (addr : ℕ) {value : ℤ} (hlow : -2 ^ 63 ≤ value)
    (hhigh : value < 2 ^ 63) : offsetAt (storeOffset memory addr value) addr = value := by
  have hbytes : ofBytes (fun index ↦ storeOffset memory addr value (addr + index)) OFF_SIZE =
      ofBytes (toBytes (value % 2 ^ 64).toNat) OFF_SIZE :=
    ofBytes_congr fun index hindex ↦ overlay_inside hindex
  have hsize : (256 : ℕ) ^ OFF_SIZE = 2 ^ 64 := rfl
  rw [offsetAt, hbytes, ofBytes_toBytes, hsize, int64]
  omega

/-! ## One call -/

theorem Listing.owns (h : Listing w fd ino dirent) :
    Owns w.volume.mount.sfs (w.volume.inode ino) (w.volume.mount.rest ino) :=
  h.consistent.owns h.mem

/-- What matters of a state for a listing. -/
theorem Listing.congr (h : Listing w fd ino dirent) (hvolume : after.volume = w.volume)
    (hfdArray : after.fdArray = w.fdArray) {mm mm' : MmStruct} (hmm : w.mm = some mm)
    (hmm' : after.mm = some mm') (hsame : SameButCache mm mm') : Listing after fd ino dirent where
  found := hfdArray ▸ h.found
  node := hfdArray ▸ h.node
  counted := hfdArray ▸ h.counted
  consistent := hvolume ▸ h.consistent
  mem := hvolume ▸ h.mem
  directory := hvolume ▸ h.directory
  place := by
    rcases h.place with ⟨other, hother, hareas, -, haccess⟩
    cases hmm.symm.trans hother
    refine ⟨mm', hmm', ?_, hsame.cached, ?_⟩
    · rw [hsame.mmapList]
      exact hareas
    · rw [hsame.mmapList]
      exact haccess

theorem Listing.fileGetdirentry_eq (h : Listing w fd ino dirent) (memory : Bool)
    (hoffset : offsetAt w.memory direntp = ((sfsDentrySize * n : ℕ) : ℤ))
    (hn : n ≤ (w.entries ino).length) : fileGetdirentry memory w fd direntp =
      if memory then
        match listed (w.entries ino) n with
        | .ok entry => .ok (.ok (), { w with
            memory := storeOffset (overlay w.memory entry.name sfsDentrySize (direntp + OFF_SIZE))
              direntp ((sfsDentrySize * (n + 1) : ℕ) : ℤ) })
        | .error code => .ok (.error code, w)
      else .ok (.error .noMem, w) := by
  have hopened : (w.fdArray fd.toNat).status = .opened := (fd2file_ok h.found).2
  have hcounted := h.counted.ne'
  let file : Slot ℕ :=
    { w.fdArray fd.toNat with openCount := (w.fdArray fd.toNat).openCount + 1 }
  have hacquire : fdArrayAcquire (w.fdArray fd.toNat) = .ok file := by
    rw [fdArrayAcquire, Outcome.require_of_true hopened]
    rfl
  have hnode : file.node = some ino := h.node
  have hrelease : fdArrayRelease file = .ok (w.fdArray fd.toNat, none) := by
    rw [fdArrayRelease, Outcome.require_of_true (Or.inl hopened), Outcome.ok_bind,
      Outcome.require_of_true (Nat.succ_pos _)]
    simp [file, hcounted]
  have hupdate : Function.update w.fdArray fd.toNat (w.fdArray fd.toNat) = w.fdArray :=
    Function.update_eq_self ..
  rw [fileGetdirentry, h.found]
  simp only [hacquire, Outcome.ok_bind, hnode, hoffset]
  cases memory with
  | false =>
    have hnone : w.volume.vopGetdirentry false ino (iobufInit w.memory (direntp + OFF_SIZE)
        sfsDentrySize ((sfsDentrySize * n : ℕ) : ℤ)) = .ok (.error .noMem, iobufInit w.memory
          (direntp + OFF_SIZE) sfsDentrySize ((sfsDentrySize * n : ℕ) : ℤ), w.volume) := by
      rw [Volume.vopGetdirentry, Outcome.require_of_true h.directory, Outcome.ok_bind]
      rfl
    rw [hnone, Outcome.ok_bind]
    simp only [hrelease, Outcome.ok_bind, hupdate, iobufInit, Outcome.pure_eq_ok,
      Bool.false_eq_true, if_false]
  | true =>
    rw [Volume.vopGetdirentry_eq h.owns h.directory w.memory (direntp + OFF_SIZE) n hn, if_pos rfl,
      ← Caller.entries]
    cases hlisted : listed (w.entries ino) n with
    | error code =>
      simp only [Outcome.ok_bind, hrelease, hupdate, iobufInit, Outcome.pure_eq_ok]
    | ok entry =>
      have hkept : offsetAt (overlay w.memory entry.name sfsDentrySize (direntp + OFF_SIZE)) direntp =
          ((sfsDentrySize * n : ℕ) : ℤ) := by
        rw [← hoffset]
        exact offsetAt_congr fun index hindex ↦ overlay_outside (Or.inl (by omega))
      have hbound := hn.trans ((length_entries_le _ _).trans h.owns.blocks_le)
      have hsum : int64 (((sfsDentrySize * n : ℕ) : ℤ) + sfsDentrySize) =
          ((sfsDentrySize * (n + 1) : ℕ) : ℤ) := by
        unfold MAX_BLOCKS SFS_NDIRECT SFS_BLK_NENTRY at hbound
        unfold sfsDentrySize SFS_MAX_FNAME_LEN int64
        omega
      simp only [Outcome.ok_bind, hkept, iobufUsed, Nat.sub_zero, hsum, hrelease, hupdate,
        Outcome.pure_eq_ok]

/-- Writable bytes lie below the kernel. -/
theorem Listing.below (h : Listing w fd ino dirent) : dirent + DIRENT_SIZE ≤ KERNBASE := by
  rcases h.place with ⟨mm, -, hareas, -, haccess⟩
  have hlast := (hareas.access_of_accessible (haccess (DIRENT_SIZE - 1) (by decide))).2
  unfold DIRENT_SIZE OFF_SIZE sfsDentrySize SFS_MAX_FNAME_LEN USERTOP at *
  unfold KERNBASE
  omega

/-- A check of a part of the `struct dirent` of the process. -/
theorem Listing.userMemCheck (h : Listing w fd ino dirent) {len : ℕ} (hpos : 0 < len)
    (hlen : len ≤ DIRENT_SIZE) : ∃ mm mm', w.mm = some mm ∧ SameButCache mm mm' ∧
      Returns (fun fuel ↦ Mm.userMemCheck fuel w.mm dirent len true) (true, some mm') := by
  have hbelow := h.below
  have hsmall : DIRENT_SIZE < 2 ^ 64 := by decide
  have hkernel : KERNBASE < 2 ^ 64 := by decide
  rcases h.place with ⟨mm, hmm, hareas, hcached, haccess⟩
  rcases userMemCheck_returns hareas (show dirent < 2 ^ 64 by omega) hpos (hlen.trans_lt hsmall) rfl
    hcached true with ⟨accepted, mm', hreturns, hsame, hiff⟩
  have haccepted : accepted = true := hiff.mpr fun byte hlow hhigh ↦ by
    obtain ⟨index, rfl⟩ := Nat.exists_eq_add_of_le hlow
    exact haccess index (by omega)
  subst haccepted
  exact ⟨mm, mm', hmm, hsame, hmm ▸ hreturns⟩

theorem Listing.copyFromUser (h : Listing w fd ino dirent) (direntp : ℕ) :
    ∃ mm mm', w.mm = some mm ∧ SameButCache mm mm' ∧
      Returns (fun fuel ↦ Fs.copyFromUser fuel w direntp dirent OFF_SIZE true) (true, { w with
        memory := overlay w.memory (fun index ↦ w.memory (dirent + index)) OFF_SIZE direntp
        mm := some mm' }) := by
  rcases h.userMemCheck (show 0 < OFF_SIZE by decide) (by decide) with ⟨mm, mm', hmm, hsame, hcheck⟩
  exact ⟨mm, mm', hmm, hsame, hcheck.bind (Returns.of_eq fun _ ↦ rfl)⟩

theorem Listing.copyToUser (h : Listing w fd ino dirent) (direntp : ℕ) :
    ∃ mm mm', w.mm = some mm ∧ SameButCache mm mm' ∧
      Returns (fun fuel ↦ Fs.copyToUser fuel w dirent direntp DIRENT_SIZE) (true, { w with
        memory := overlay w.memory (fun index ↦ w.memory (direntp + index)) DIRENT_SIZE dirent
        mm := some mm' }) := by
  rcases h.userMemCheck (show 0 < DIRENT_SIZE by decide) le_rfl with ⟨mm, mm', hmm, hsame, hcheck⟩
  exact ⟨mm, mm', hmm, hsame, hcheck.bind (Returns.of_eq fun _ ↦ rfl)⟩

/-- What a call does at the offset of the entry with the number `n`: it returns this entry and goes
on to the next one, or there is none left, or there is no memory. -/
inductive Lists (entries : List DiskEntry) (dirent n : ℕ) (memory : Bool) :
    Ret ℤ → Caller → Prop
  | entry {entry : DiskEntry} {after : Caller} (hentry : entries[n]? = some entry)
      (hname : nameBytes (fun index ↦ after.memory (dirent + OFF_SIZE + index)) =
        nameBytes entry.name)
      (hoffset : offsetAt after.memory dirent = ((sfsDentrySize * (n + 1) : ℕ) : ℤ)) :
      Lists entries dirent n memory (.ok 0) after
  | noEnt {after : Caller} (hnone : entries.length = n)
      (hoffset : offsetAt after.memory dirent = ((sfsDentrySize * n : ℕ) : ℤ)) :
      Lists entries dirent n memory (.error .noEnt) after
  | noMem {after : Caller} (hmemory : memory = false)
      (hoffset : offsetAt after.memory dirent = ((sfsDentrySize * n : ℕ) : ℤ)) :
      Lists entries dirent n memory (.error .noMem) after

/-- The call with a buffer in the kernel. -/
theorem Listing.returns_some (h : Listing w fd ino dirent) (memory : Bool)
    (hdirentp : KERNBASE ≤ direntp) (hoffset : offsetAt w.memory dirent = ((sfsDentrySize * n : ℕ) : ℤ))
    (hn : n ≤ (w.entries ino).length) : ∃ ret after,
      Returns (fun fuel ↦ sysfileGetdirentry (some direntp) memory fuel w fd dirent) (ret, after) ∧
      Listing after fd ino dirent ∧ after.entries ino = w.entries ino ∧
      Lists (w.entries ino) dirent n memory ret after := by
  have hbelow := h.below
  rcases h.copyFromUser direntp with ⟨mm, mm', hmm, hsame, hfrom⟩
  let copied : Caller := { w with
    memory := overlay w.memory (fun index ↦ w.memory (dirent + index)) OFF_SIZE direntp
    mm := some mm' }
  have hcopied : Listing copied fd ino dirent := h.congr rfl rfl hmm rfl hsame
  have hkernelOffset : offsetAt copied.memory direntp = ((sfsDentrySize * n : ℕ) : ℤ) := by
    rw [← hoffset]
    refine offsetAt_congr fun index hindex ↦ ?_
    dsimp only [copied]
    exact overlay_inside hindex
  have huserOffset : offsetAt copied.memory dirent = ((sfsDentrySize * n : ℕ) : ℤ) := by
    rw [← hoffset]
    refine offsetAt_congr fun index hindex ↦ ?_
    dsimp only [copied]
    refine overlay_outside (Or.inl ?_)
    unfold DIRENT_SIZE at hbelow
    omega
  have hfile := hcopied.fileGetdirentry_eq memory hkernelOffset hn
  -- the calls before the copy to the process
  have hstart : ∀ {ret : Ret ℤ} {after : Caller},
      Returns (fun fuel ↦ do
        match ← fileGetdirentry memory copied fd direntp with
        | (.error code, w) => return (.error code, w)
        | (.ok (), w) =>
          let (accepted, w) ← Fs.copyToUser fuel w dirent direntp DIRENT_SIZE
          if accepted then return (.ok 0, w) else return (.error .inval, w)) (ret, after) →
      Returns (fun fuel ↦ sysfileGetdirentry (some direntp) memory fuel w fd dirent) (ret, after) := by
    intro ret after hrest
    exact .congr (fun fuel ↦ rfl) (hfrom.bind (.congr (fun fuel ↦ rfl) hrest))
  cases memory with
  | false =>
    rw [if_neg Bool.false_ne_true] at hfile
    refine ⟨.error .noMem, copied, hstart (.of_eq fun fuel ↦ ?_), hcopied, rfl,
      .noMem rfl huserOffset⟩
    rw [hfile]
    rfl
  | true =>
    rw [if_pos rfl] at hfile
    cases hentry : (w.entries ino)[n]? with
    | none =>
      have hlisted : listed (copied.entries ino) n = .error .noEnt := by
        rw [listed, show copied.entries ino = w.entries ino from rfl, hentry]
      rw [hlisted] at hfile
      refine ⟨.error .noEnt, copied, hstart (.of_eq fun fuel ↦ ?_), hcopied, rfl,
        .noEnt (hn.antisymm (List.getElem?_eq_none_iff.mp hentry)).symm huserOffset⟩
      rw [hfile]
      rfl
    | some entry =>
      have hlisted : listed (copied.entries ino) n = .ok entry := by
        rw [listed, show copied.entries ino = w.entries ino from rfl, hentry]
      rw [hlisted] at hfile
      let filled : Caller := { copied with
        memory := storeOffset
          (overlay copied.memory entry.name sfsDentrySize (direntp + OFF_SIZE)) direntp
          ((sfsDentrySize * (n + 1) : ℕ) : ℤ) }
      have hfilled : Listing filled fd ino dirent :=
        hcopied.congr rfl rfl rfl rfl (SameButCache.refl hsame.cached)
      rcases hfilled.copyToUser direntp with ⟨mm, mm'', hmm, hlast, hto⟩
      let answered : Caller := { filled with
        memory :=
          overlay filled.memory (fun index ↦ filled.memory (direntp + index)) DIRENT_SIZE dirent
        mm := some mm'' }
      have hanswered : Listing answered fd ino dirent := hfilled.congr rfl rfl hmm rfl hlast
      refine ⟨.ok 0, answered, hstart ?_, hanswered, rfl, .entry hentry ?_ ?_⟩
      · simp only [hfile, Outcome.ok_bind]
        exact hto.bind (.of_eq fun _ ↦ rfl)
      · refine List.map_congr_left fun index hindex ↦ ?_
        have hlt := List.mem_range.mp hindex
        have hinside : OFF_SIZE + index < DIRENT_SIZE := Nat.add_lt_add_left hlt OFF_SIZE
        dsimp only [answered]
        rw [Nat.add_assoc, overlay_inside hinside, ← Nat.add_assoc]
        exact (overlay_outside (Or.inr (Nat.le_add_right _ _))).trans (overlay_inside hlt)
      · have hbound := hn.trans ((length_entries_le _ _).trans h.owns.blocks_le)
        unfold MAX_BLOCKS SFS_NDIRECT SFS_BLK_NENTRY at hbound
        have hsmall : ((sfsDentrySize * (n + 1) : ℕ) : ℤ) < 2 ^ 63 := by
          unfold sfsDentrySize SFS_MAX_FNAME_LEN
          omega
        have hstored : offsetAt filled.memory direntp = ((sfsDentrySize * (n + 1) : ℕ) : ℤ) :=
          offsetAt_storeOffset _ _ (by omega) hsmall
        rw [← hstored]
        refine offsetAt_congr fun index hindex ↦ ?_
        dsimp only [answered]
        exact overlay_inside (hindex.trans (show OFF_SIZE < DIRENT_SIZE by decide))

theorem Listing.returns_call (h : Listing w fd ino dirent) (buffer : Option ℕ) (memory : Bool)
    (hbuffer : ∀ direntp ∈ buffer, KERNBASE ≤ direntp)
    (hoffset : offsetAt w.memory dirent = ((sfsDentrySize * n : ℕ) : ℤ))
    (hn : n ≤ (w.entries ino).length) : ∃ ret after,
      Returns (fun fuel ↦ sysfileGetdirentry buffer memory fuel w fd dirent) (ret, after) ∧
      Listing after fd ino dirent ∧ after.entries ino = w.entries ino ∧
      Lists (w.entries ino) dirent n (buffer.isSome && memory) ret after := by
  cases buffer with
  | none => exact ⟨_, w, .of_eq fun _ ↦ rfl, h, rfl, .noMem rfl hoffset⟩
  | some direntp => exact h.returns_some memory (hbuffer direntp rfl) hoffset hn

/-! ## Any number of calls -/

/-- After the calls, the first `n` entries were returned, in their order and with their names, and
the next call selects the entry after them. The errors of the calls are that no memory is left, and
no entry. -/
structure Enumerated (entries : List DiskEntry) (fd : ℤ) (dirent : ℕ)
    (answers : List (Option (Ret (List UInt8)))) (next : Caller) (n : ℕ) : Prop where
  le : n ≤ entries.length
  names : returned answers = (entries.take n).map fun entry ↦ nameBytes entry.name
  offset : offsetAt next.memory dirent = ((sfsDentrySize * n : ℕ) : ℤ)
  errors : ∀ code, some (.error code) ∈ answers → code = .noMem ∨ code = .noEnt ∧ n = entries.length
  selects : ∀ buffer memory, (∀ direntp ∈ buffer, KERNBASE ≤ direntp) → ∃ ret after,
    Returns (fun fuel ↦ sysfileGetdirentry buffer memory fuel next fd dirent) (ret, after) ∧
      Lists entries dirent n (buffer.isSome && memory) ret after

theorem returned_cons (answer : Option (Ret (List UInt8)))
    (answers : List (Option (Ret (List UInt8)))) :
    returned (answer :: answers) = returned [answer] ++ returned answers := by
  rw [returned, ← List.singleton_append, List.filterMap_append]
  rfl

/-- One step: the entries that were returned before it, and the one that it returns. -/
theorem Listing.step {answer : Option (Ret (List UInt8))} (h : Listing w fd ino dirent)
    (hoffset : offsetAt w.memory dirent = ((sfsDentrySize * n : ℕ) : ℤ))
    (hn : n ≤ (w.entries ino).length) (hstep : ListStep fd ino dirent w answer after) :
    Listing after fd ino dirent ∧ after.entries ino = w.entries ino ∧ ∃ m, n ≤ m ∧
      m ≤ (w.entries ino).length ∧ offsetAt after.memory dirent = ((sfsDentrySize * m : ℕ) : ℤ) ∧
      ((w.entries ino).take n).map (fun entry ↦ nameBytes entry.name) ++ returned [answer] =
        ((w.entries ino).take m).map (fun entry ↦ nameBytes entry.name) ∧
      ∀ code, answer = some (.error code) →
        code = .noMem ∨ code = .noEnt ∧ m = (w.entries ino).length := by
  cases hstep with
  | other hlisting hentries hkept =>
    exact ⟨hlisting, hentries, n, le_rfl, hn, hkept.trans hoffset, List.append_nil _, nofun⟩
  | @call _ buffer memory ret hbuffer hreturns =>
    rcases h.returns_call buffer memory hbuffer hoffset hn with
      ⟨ret', after', hreturns', hlisting, hentries, hlists⟩
    cases hreturns.unique hreturns'
    refine ⟨hlisting, hentries, ?_⟩
    cases hlists with
    | @entry entry _ hentry hname hnext =>
      have hlt : n < (w.entries ino).length := (List.getElem?_eq_some_iff.mp hentry).1
      have htake : (w.entries ino).take (n + 1) = (w.entries ino).take n ++ [entry] := by
        rw [List.take_add_one, hentry]
        rfl
      refine ⟨n + 1, n.le_succ, hlt, hnext, ?_, nofun⟩
      rw [htake, List.map_append, List.map_singleton, ← hname]
      rfl
    | noEnt hnone hkept =>
      refine ⟨n, le_rfl, hn, hkept, List.append_nil _, fun code hcode ↦ Or.inr ?_⟩
      cases hcode
      exact ⟨rfl, hnone.symm⟩
    | noMem hmemory hkept =>
      refine ⟨n, le_rfl, hn, hkept, List.append_nil _, fun code hcode ↦ Or.inl ?_⟩
      cases hcode
      rfl

theorem Listing.run {next : Caller} {answers : List (Option (Ret (List UInt8)))}
    (h : Listing w fd ino dirent)
    (hoffset : offsetAt w.memory dirent = ((sfsDentrySize * n : ℕ) : ℤ))
    (hn : n ≤ (w.entries ino).length) (hruns : Runs (ListStep fd ino dirent) w answers next) :
    Listing next fd ino dirent ∧ next.entries ino = w.entries ino ∧ ∃ m, n ≤ m ∧
      m ≤ (w.entries ino).length ∧ offsetAt next.memory dirent = ((sfsDentrySize * m : ℕ) : ℤ) ∧
      ((w.entries ino).take n).map (fun entry ↦ nameBytes entry.name) ++ returned answers =
        ((w.entries ino).take m).map (fun entry ↦ nameBytes entry.name) ∧
      ∀ code, some (.error code) ∈ answers →
        code = .noMem ∨ code = .noEnt ∧ m = (w.entries ino).length := by
  induction hruns generalizing n with
  | nil => exact ⟨h, rfl, n, le_rfl, hn, hoffset, List.append_nil _, nofun⟩
  | cons hstep _ ih =>
    rcases h.step hoffset hn hstep with ⟨hlisting, hsame, m, hle, hm, hmoved, hone, herror⟩
    rcases ih hlisting hmoved (hsame ▸ hm) with ⟨hlast, hall, k, hmk, hk, hend, hmore, herrors⟩
    rw [hsame] at hall hk hmore herrors
    refine ⟨hlast, hall, k, hle.trans hmk, hk, hend, ?_, fun code hcode ↦ ?_⟩
    · rw [returned_cons, ← List.append_assoc, hone, hmore]
    · rcases List.mem_cons.mp hcode with heq | hmem
      · refine (herror code heq.symm).imp_right fun hnone ↦ ⟨hnone.1, ?_⟩
        exact hk.antisymm (hnone.2 ▸ hmk)
      · exact herrors code hmem

/-- Whatever happens between the calls, and whichever of them find no memory, a directory that stays
as it is is listed from its first entry on, each entry once. -/
theorem enumerated_of_runs (w next : Caller) (fd : ℤ) (ino dirent : ℕ) (h : Listing w fd ino dirent)
    (hzero : offsetAt w.memory dirent = 0) (answers : List (Option (Ret (List UInt8))))
    (hruns : Runs (ListStep fd ino dirent) w answers next) :
    ∃ n, Enumerated (w.entries ino) fd dirent answers next n := by
  rcases h.run (n := 0) (by simpa using hzero) (Nat.zero_le _) hruns with
    ⟨hlisting, hsame, n, -, hn, hoffset, hnames, herrors⟩
  refine ⟨n, hn, hnames, hoffset, herrors, fun buffer memory hbuffer ↦ ?_⟩
  rcases hlisting.returns_call buffer memory hbuffer hoffset (hsame ▸ hn) with
    ⟨ret, after, hreturns, -, -, hlists⟩
  exact ⟨ret, after, hreturns, hsame ▸ hlists⟩

/-! ### A directory with an empty slot before the only entry -/

def holeFirst : Mount where
  sfs := { sevenBlocks with dev := ⟨7, fun b _ ↦ if b = 5 then 2 else 0⟩ }
  inos := [3]
  inode := fun _ ↦ { twoBlockFile with type := SFS_TYPE_DIR }

def lister : Caller :=
  { reader (VM_READ ||| VM_WRITE) with volume := ⟨holeFirst, fun ino ↦ holeFirst.inode ino⟩ }

theorem consistent_holeFirst : Consistent holeFirst := by
  have h := consistent_oneFile
  have hgeometry : Geometry holeFirst.sfs :=
    ⟨h.geometry.1, h.geometry.2, h.geometry.3, h.geometry.4, h.geometry.5, h.geometry.6⟩
  exact ⟨hgeometry, h.blocks_le, h.mapped, h.unmapped, h.nodup, h.disjoint, h.data, h.inuse⟩

theorem listing_lister : Listing lister 3 3 0x200000 where
  found := rfl
  node := rfl
  counted := Nat.one_pos
  consistent := consistent_holeFirst
  mem := List.mem_singleton.mpr rfl
  directory := rfl
  place := by
    refine ⟨twoPages (VM_READ ||| VM_WRITE), rfl, orderedAreas_twoPages _, nofun, fun index hindex ↦ ?_⟩
    have hinside : 0x200000 + index < 0x202000 := by
      unfold DIRENT_SIZE OFF_SIZE sfsDentrySize SFS_MAX_FNAME_LEN at hindex
      omega
    exact ⟨_, List.mem_singleton.mpr rfl, ⟨Nat.le_add_right _ _, hinside⟩, by decide,
      fun _ hstack ↦ absurd rfl hstack⟩

theorem enumerated_lister : ∃ answers next n, answers.length = 2 ∧
    Enumerated (lister.entries 3) 3 0x200000 answers next n := by
  have hkernel : ∀ direntp ∈ some KERNBASE, KERNBASE ≤ direntp := fun _ h ↦ (Option.some.inj h).le
  have hzero : offsetAt lister.memory 0x200000 = 0 := by decide
  have hnone : offsetAt lister.memory 0x200000 = ((sfsDentrySize * 0 : ℕ) : ℤ) := by simpa using hzero
  rcases listing_lister.returns_call (some KERNBASE) true hkernel hnone (Nat.zero_le _) with
    ⟨_, middle, hfirst, -⟩
  have hone : ListStep 3 3 0x200000 lister _ middle := .call hkernel hfirst
  rcases listing_lister.step hnone (Nat.zero_le _) hone with ⟨hmiddle, hsame, m, -, hm, hmoved, -⟩
  rcases hmiddle.returns_call (some KERNBASE) true hkernel hmoved (hsame ▸ hm) with
    ⟨_, last, hsecond, -⟩
  have hruns : Runs (ListStep 3 3 0x200000) lister [_, _] last :=
    .cons hone (.cons (.call hkernel hsecond) .nil)
  rcases enumerated_of_runs lister last 3 3 0x200000 listing_lister hzero _ hruns with ⟨n, h⟩
  exact ⟨_, last, n, rfl, h⟩

end Ucore.Fs
