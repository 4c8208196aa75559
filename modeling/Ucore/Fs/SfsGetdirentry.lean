import Ucore.Fs.SfsCapacity
import Ucore.Fs.SfsDir
import Ucore.Fs.FileOps

/-!
# Listing a directory

`sfs_getdirentry` turns the offset of a request into the number of an entry, and looks for this
entry from the first slot on, without the empty slots. The number counts the entries that are in
use, so that the entries come one after the other whatever slots are empty.
-/

namespace Ucore.Fs

open Library

/-- `iobuf_move` from `data` to the memory of the request. -/
def iobufMove (iob : Iobuf) (data : Bytes) (len : ℕ) : Outcome (Ret Unit × Iobuf) := do
  let alen := if len < iob.resid then len else iob.resid
  if 0 < alen then
    let iob ← iobufSkip { iob with memory := overlay iob.memory data alen iob.base } alen
    return (if len - alen = 0 then .ok () else .error .noMem, iob)
  else return (if len = 0 then .ok () else .error .noMem, iob)

/-- `sizeof(((struct sfs_disk_entry *)0)->name)`. -/
def sfsDentrySize : ℕ := SFS_MAX_FNAME_LEN + 1

/-- The loop of `sfs_getdirentry_sub_nolock` from slot `i` on. -/
def sfsGetdirentrySubFrom (i : ℕ) :
    ℕ → ℤ → SfsFs → SfsInode → Outcome (Ret DiskEntry × SfsFs × SfsInode)
  | 0, _, s, sin => return (.error .noEnt, s, sin)
  | left + 1, slot, s, sin => do
    match ← sfsDirentReadNolock s sin i with
    | (.error code, s, sin) => return (.error code, s, sin)
    | (.ok entry, s, sin) =>
      if entry.ino ≠ 0 then
        if slot = 0 then return (.ok entry, s, sin)
        else sfsGetdirentrySubFrom (i + 1) left (slot - 1) s sin
      else sfsGetdirentrySubFrom (i + 1) left slot s sin

def sfsGetdirentrySubNolock (s : SfsFs) (sin : SfsInode) (slot : ℤ) :
    Outcome (Ret DiskEntry × SfsFs × SfsInode) :=
  sfsGetdirentrySubFrom 0 sin.blocks slot s sin

/-- `sfs_getdirentry`, with whether there is memory for an entry. The slot is an `int`, and the
comparison with the number of blocks one of `uint32_t`. -/
def Volume.sfsGetdirentry (memory : Bool) (ino : ℕ) (v : Volume) (iob : Iobuf) :
    Outcome (Ret Unit × Iobuf × Volume) := do
  if ¬memory then return (.error .noMem, iob, v)
  if iob.offset < 0 ∨ iob.offset % sfsDentrySize ≠ 0 then return (.error .inval, iob, v)
  let slot := int32 (iob.offset / sfsDentrySize)
  if ((v.inode ino).blocks : ℤ) < slot % 2 ^ 32 then return (.error .noEnt, iob, v)
  match ← sfsGetdirentrySubNolock v.mount.sfs (v.inode ino) slot with
  | (.error code, sfs, sin) => return (.error code, iob, v.set ino sfs sin)
  | (.ok entry, sfs, sin) =>
    let (ret, iob) ← iobufMove iob entry.name sfsDentrySize
    return (ret, iob, v.set ino sfs sin)

/-- `vop_getdirentry`, which only the operations of a directory have. -/
def Volume.vopGetdirentry (memory : Bool) (ino : ℕ) (v : Volume) (iob : Iobuf) :
    Outcome (Ret Unit × Iobuf × Volume) := do
  Outcome.require ((v.inode ino).type = SFS_TYPE_DIR)
  v.sfsGetdirentry memory ino iob

/-! ## What a directory holds -/

/-- The entry in a slot, with the end of the name in its last byte. -/
def slotEntry (s : SfsFs) (sin : SfsInode) (slot : ℕ) : DiskEntry :=
  let bytes := s.dev.block (blockAt s sin slot)
  ⟨wordAt bytes 0, Function.update (fun index ↦ bytes (4 + index)) SFS_MAX_FNAME_LEN 0⟩

/-- The entries in use, in the order of their slots. -/
def entriesFrom (s : SfsFs) (sin : SfsInode) (i left : ℕ) : List DiskEntry :=
  ((List.range' i left).map (slotEntry s sin)).filter fun entry ↦ entry.ino ≠ 0

def entries (s : SfsFs) (sin : SfsInode) : List DiskEntry := entriesFrom s sin 0 sin.blocks

section Directory

variable {s : SfsFs} {sin : SfsInode} {rest : ℕ → Prop}

theorem length_entries_le (s : SfsFs) (sin : SfsInode) : (entries s sin).length ≤ sin.blocks := by
  refine (List.length_filter_le _ _).trans ?_
  simp

theorem entriesFrom_succ (s : SfsFs) (sin : SfsInode) (i left : ℕ) :
    entriesFrom s sin i (left + 1) = if (slotEntry s sin i).ino ≠ 0 then
      slotEntry s sin i :: entriesFrom s sin (i + 1) left else entriesFrom s sin (i + 1) left := by
  by_cases hused : (slotEntry s sin i).ino = 0 <;> simp [entriesFrom, List.range'_succ, hused]

theorem sfsDirentReadNolock_eq (h : Owns s sin rest) (htype : sin.type = SFS_TYPE_DIR) {slot : ℕ}
    (hslot : slot < sin.blocks) :
    sfsDirentReadNolock s sin slot = .ok (.ok (slotEntry s sin slot), s, sin) := by
  have hmem : blockAt s sin slot ∈ refs s sin := Owns.blockAt_mem hslot
  have hpos := h.pos_of_mem hmem
  have hlt := h.range _ hmem
  have hinuse : sfsBlockInuse s (blockAt s sin slot) = .ok true := by
    rw [sfsBlockInuse_eq h.geometry hpos hlt, decide_eq_false (h.not_free hmem)]
    rfl
  rw [sfsDirentReadNolock, Outcome.require_of_true ⟨htype, hslot⟩, Outcome.ok_bind,
    sfsBmapLoadNolock_eq h hslot, Outcome.ok_bind]
  dsimp only
  rw [hinuse, Outcome.ok_bind, Outcome.require_of_true rfl, Outcome.ok_bind,
    sfsRbuf_eq h.geometry hpos hlt (by decide) (by decide), Outcome.ok_bind]
  simp only [Nat.zero_add]
  rfl

/-- The answer of the search for the entry with the given number. -/
def listed (entries : List DiskEntry) (slot : ℕ) : Ret DiskEntry :=
  match entries[slot]? with
  | some entry => .ok entry
  | none => .error .noEnt

theorem sfsGetdirentrySubFrom_eq (h : Owns s sin rest) (htype : sin.type = SFS_TYPE_DIR)
    {i left : ℕ} (hall : i + left = sin.blocks) (slot : ℕ) :
    sfsGetdirentrySubFrom i left slot s sin =
      .ok (listed (entriesFrom s sin i left) slot, s, sin) := by
  -- induction on the slots that are left
  induction left generalizing i slot with
  | zero => rfl
  | succ left ih =>
    rw [sfsGetdirentrySubFrom, sfsDirentReadNolock_eq h htype (by omega), Outcome.ok_bind,
      entriesFrom_succ]
    dsimp only
    by_cases hused : (slotEntry s sin i).ino ≠ 0
    · rw [if_pos hused, if_pos hused]
      cases slot with
      | zero => rfl
      | succ slot =>
        have hne : ¬((slot + 1 : ℕ) : ℤ) = 0 := by omega
        have hsub : ((slot + 1 : ℕ) : ℤ) - 1 = (slot : ℤ) := by omega
        rw [if_neg hne, hsub, ih (by omega)]
        rfl
    · rw [if_neg hused, if_neg hused, ih (by omega)]

end Directory

/-! ## One request -/

section Request

variable {v : Volume} {ino : ℕ} {rest : ℕ → Prop}

theorem iobufMove_whole {iob : Iobuf} {len : ℕ} (hpos : 0 < len) (hresid : iob.resid = len)
    (data : Bytes) : iobufMove iob data len = .ok (.ok (), { iob with
      memory := overlay iob.memory data len iob.base
      base := iob.base + len
      offset := int64 (iob.offset + len)
      resid := 0 }) := by
  simp only [iobufMove, hresid, lt_irrefl, if_false, if_pos hpos, iobufSkip, le_refl,
    Outcome.require_of_true, Outcome.ok_bind, Outcome.pure_eq_ok, Nat.sub_self, if_true]

/-- A request at the offset of an entry's number is answered with the name of this entry. -/
theorem Volume.vopGetdirentry_eq (h : Owns v.mount.sfs (v.inode ino) rest)
    (htype : (v.inode ino).type = SFS_TYPE_DIR) (memory : Bytes) (base slot : ℕ)
    (hslot : slot ≤ (entries v.mount.sfs (v.inode ino)).length) :
    v.vopGetdirentry true ino (iobufInit memory base sfsDentrySize ((sfsDentrySize * slot : ℕ) : ℤ)) =
      match listed (entries v.mount.sfs (v.inode ino)) slot with
      | .ok entry => .ok (.ok (), ⟨overlay memory entry.name sfsDentrySize base, base + sfsDentrySize,
          ((sfsDentrySize * (slot + 1) : ℕ) : ℤ), sfsDentrySize, 0⟩, v)
      | .error code =>
        .ok (.error code, iobufInit memory base sfsDentrySize ((sfsDentrySize * slot : ℕ) : ℤ), v) := by
  have hle := hslot.trans (length_entries_le v.mount.sfs (v.inode ino))
  have hblocks := h.blocks_le
  unfold MAX_BLOCKS SFS_NDIRECT SFS_BLK_NENTRY at hblocks
  have hvalid : ¬(((sfsDentrySize * slot : ℕ) : ℤ) < 0 ∨
      ((sfsDentrySize * slot : ℕ) : ℤ) % (sfsDentrySize : ℤ) ≠ 0) := by
    unfold sfsDentrySize SFS_MAX_FNAME_LEN
    omega
  have hnumber : int32 (((sfsDentrySize * slot : ℕ) : ℤ) / (sfsDentrySize : ℤ)) = (slot : ℤ) := by
    unfold sfsDentrySize SFS_MAX_FNAME_LEN int32
    omega
  have hinside : ¬(((v.inode ino).blocks : ℤ) < (slot : ℤ) % 2 ^ 32) := by omega
  have hsub := sfsGetdirentrySubFrom_eq h htype (Nat.zero_add _) slot
  have hnext : int64 (((sfsDentrySize * slot : ℕ) : ℤ) + sfsDentrySize) =
      ((sfsDentrySize * (slot + 1) : ℕ) : ℤ) := by
    unfold sfsDentrySize SFS_MAX_FNAME_LEN int64
    omega
  rw [Volume.vopGetdirentry, Outcome.require_of_true htype, Outcome.ok_bind, Volume.sfsGetdirentry]
  simp only [iobufInit, not_true_eq_false, if_false, if_neg hvalid, hnumber, if_neg hinside,
    sfsGetdirentrySubNolock, hsub, Outcome.ok_bind]
  rw [← entries]
  cases listed (entries v.mount.sfs (v.inode ino)) slot with
  | error code => simp only [Outcome.pure_eq_ok, Volume.set_self]
  | ok entry =>
    dsimp only
    rw [iobufMove_whole (show 0 < sfsDentrySize by decide) rfl, Outcome.ok_bind]
    simp only [Outcome.pure_eq_ok, Volume.set_self, hnext]

end Request

end Ucore.Fs
