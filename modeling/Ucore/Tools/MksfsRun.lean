import Mathlib.Data.List.GetD
import Ucore.Library.Run
import Ucore.Fs.SfsDir
import Ucore.Tools.MksfsLayout

/-!
# Runs of the image builder

An image is built by making inodes, by appending blocks of data to them and by entering names into
directories. `Built` holds of every state that is reached so; a ledger records what was appended
and entered.
-/

namespace Ucore.Tools

open Library Fs

/-! ## An append -/

section Append

variable {sfs sfs' : Mksfs} {place : ℕ → Option Place} {file b cb size : ℕ}
  {blocks : List ℕ}

/-- What is kept apart from the image, the blocks of one file and its inode. -/
structure Frame (sfs sfs' : Mksfs) (place place' : ℕ → Option Place) (file : ℕ) : Prop where
  keeps : Keeps place place'
  counted : Counted sfs' place'
  inode : ∀ other ≠ file, sfs'.inode other = sfs.inode other
  cache : ∀ c p, place c = some p → p.file ≠ some file → sfs'.cache c = sfs.cache c
  inodes : sfs'.inodes = sfs.inodes
  ninos : sfs'.ninos = sfs.ninos
  entry : sfs'.entry = sfs.entry

theorem Frame.refl (h : Counted sfs place) (file : ℕ) : Frame sfs sfs place place file :=
  ⟨Keeps.refl place, h, fun _ _ ↦ rfl, fun _ _ _ _ ↦ rfl, rfl, rfl, rfl⟩

theorem Frame.trans {sfs'' : Mksfs} {place' place'' : ℕ → Option Place}
    (h : Frame sfs sfs' place place' file) (h' : Frame sfs' sfs'' place' place'' file) :
    Frame sfs sfs'' place place'' file where
  keeps := h.keeps.trans h'.keeps
  counted := h'.counted
  inode other hother := (h'.inode other hother).trans (h.inode other hother)
  cache c p hc hp := (h'.cache c p (h.keeps c p hc) hp).trans (h.cache c p hc hp)
  inodes := h'.inodes.trans h.inodes
  ninos := h'.ninos.trans h.ninos
  entry := h'.entry.trans h.entry

theorem Frame.setInode (h : Counted sfs place) (file : ℕ) (ci : CacheInode) :
    Frame sfs (sfs.setInode file ci) place place file where
  keeps := Keeps.refl place
  counted := h.of_fields rfl rfl rfl rfl rfl rfl
  inode _ hother := Function.update_of_ne hother ..
  cache _ _ _ _ := rfl
  inodes := rfl
  ninos := rfl
  entry := rfl

theorem Frame.setWord (h : Counted sfs place) {p : Place} (hcb : place cb = some p)
    (hp : p.file = some file) (index value : ℕ) :
    Frame sfs (sfs.setWord cb index value) place place file where
  keeps := Keeps.refl place
  counted := h.of_fields rfl rfl rfl rfl rfl rfl
  inode _ _ := rfl
  cache c q hc hq := by
    refine Function.update_of_ne ?_ ..
    rintro rfl
    cases hcb.symm.trans hc
    exact hq hp
  inodes := rfl
  ninos := rfl
  entry := rfl

/-- A table block of `file` after `update_cache`: the one that was there, or a new one with zeros. -/
structure Fetched (sfs sfs' : Mksfs) (place place' : ℕ → Option Place) (file inop cb : ℕ)
    (p : Place) : Prop where
  frame : Frame sfs sfs' place place' file
  placed : place' cb = some p
  inode : sfs'.inode = sfs.inode
  cache : ∀ c q, place c = some q → sfs'.cache c = sfs.cache c
  old : inop ≠ 0 → cb = inop
  new : inop = 0 → sfs'.cache cb = fun _ ↦ 0
  image : sfs'.image = sfs.image
  nextIno_le : sfs'.nextIno ≤ sfs.nextIno + 1

theorem updateCache_ok (file : ℕ) (h : Counted sfs place) {p : Place} (hp : p.IsTable)
    {cbp : Option ℕ} {inop : ℕ}
    (hold : inop ≠ 0 → place inop = some p ∧ cbp = some inop)
    (hcall : updateCache sfs cbp inop = .ok (cb, sfs')) :
    ∃ place', Fetched sfs sfs' place place' file inop cb p := by
  unfold updateCache at hcall
  by_cases hzero : inop = 0
  · rw [if_pos hzero] at hcall
    rcases allocCacheBlock_ok h hcall with ⟨hroom, rfl, rfl⟩
    have hnone := h.none_nextIno
    have hcache : ∀ c q, place c = some q → sfs.addBlock.cache c = sfs.cache c := by
      intro c q hc
      refine Function.update_of_ne ?_ ..
      rintro rfl
      cases hnone.symm.trans hc
    refine ⟨Function.update place sfs.nextIno (some p), ⟨Keeps.update hnone _, h.addBlock hroom hp,
      fun _ _ ↦ rfl, fun c q hc _ ↦ hcache c q hc, rfl, rfl, rfl⟩, Function.update_self .., rfl,
      hcache, fun hne ↦ absurd hzero hne, fun _ ↦ Function.update_self .., rfl, le_rfl⟩
  · rcases hold hzero with ⟨hplace, hcbp⟩
    rw [if_neg hzero, if_pos hcbp] at hcall
    cases hcall
    exact ⟨place, Frame.refl h file, hplace, rfl, fun _ _ _ ↦ rfl, fun _ ↦ rfl,
      fun h0 ↦ absurd h0 hzero, rfl, Nat.le_succ _⟩

theorem completes_updateCache (h : Counted sfs place) {p : Place} {cbp : Option ℕ} {inop : ℕ}
    (hold : inop ≠ 0 → place inop = some p ∧ cbp = some inop) (hroom : sfs.nextIno < sfs.ninos) :
    Completes (updateCache sfs cbp inop) := by
  unfold updateCache
  by_cases hzero : inop = 0
  · rw [if_pos hzero, allocCacheBlock_eq h hroom]
    exact Completes.ok _
  · rw [if_neg hzero, if_pos (hold hzero).2]
    exact Completes.ok _

/-- The state after an append that went by the three ways of `append_block`. -/
def Mksfs.bump (sfs : Mksfs) (file size : ℕ) : Mksfs :=
  sfs.setInode file ((sfs.inode file).bump size)

theorem appendBlock_bump (hcall : appendBlock sfs file size b = .ok sfs') :
    (sfs.inode file).nblks < SFS_LN_NBLKS ∧
      ∃ mid, appendSlot sfs file (sfs.inode file).nblks b = .ok mid ∧ sfs' = mid.bump file size := by
  rcases Outcome.bind_eq_ok.mp hcall with ⟨_, -, hcall⟩
  rcases Outcome.bind_eq_ok.mp hcall with ⟨_, hslot, hcall⟩
  rcases Outcome.bind_eq_ok.mp hcall with ⟨mid, hmid, heq⟩
  cases heq
  exact ⟨Outcome.require_eq_ok.mp hslot, mid, hmid, rfl⟩

/-- The block map after `append_slot`, with the counters still to be changed. -/
structure Slotted (sfs sfs' : Mksfs) (place place' : ℕ → Option Place) (file size : ℕ)
    (blocks : List ℕ) : Prop where
  frame : Frame sfs sfs' place place' file
  maps : Maps place' sfs'.cache file ((sfs'.inode file).bump size) blocks
  type : (sfs'.inode file).inode.type = (sfs.inode file).inode.type
  nlinks : (sfs'.inode file).inode.nlinks = (sfs.inode file).inode.nlinks
  real : (sfs'.inode file).real = (sfs.inode file).real
  image : sfs'.image = sfs.image
  nextIno_le : sfs'.nextIno ≤ sfs.nextIno + 2

theorem Mksfs.setInode_self (sfs : Mksfs) (file : ℕ) (ci : CacheInode) :
    (sfs.setInode file ci).inode file = ci := Function.update_self ..

theorem appendSlot_direct (h : Counted sfs place)
    (hmaps : Maps place sfs.cache file (sfs.inode file) blocks)
    (hb : place b = some (.data file blocks.length)) (hslot : blocks.length < SFS_L0_NBLKS)
    (hcall : appendSlot sfs file blocks.length b = .ok sfs') :
    Slotted sfs sfs' place place file size (blocks ++ [b]) := by
  rw [appendSlot, if_pos hslot] at hcall
  cases hcall
  refine ⟨Frame.setInode h file _, ?_, ?_, ?_, ?_, rfl, Nat.le_add_right ..⟩ <;>
    rw [Mksfs.setInode_self]
  exact hmaps.direct hslot hb

theorem appendSlot_single (h : Counted sfs place)
    (hmaps : Maps place sfs.cache file (sfs.inode file) blocks)
    (hb : place b = some (.data file blocks.length)) (hfar : SFS_L0_NBLKS ≤ blocks.length)
    (hslot : blocks.length < SFS_L1_NBLKS)
    (hcall : appendSlot sfs file blocks.length b = .ok sfs') :
    ∃ place', Slotted sfs sfs' place place' file size (blocks ++ [b]) := by
  rw [appendSlot, if_neg (Nat.not_lt.mpr hfar), if_pos hslot] at hcall
  rcases Outcome.bind_eq_ok.mp hcall with ⟨⟨l1, sfs1⟩, hfetch, heq⟩
  rcases updateCache_ok file h (p := .indirect file) trivial (hmaps.old_indirect hslot)
    hfetch with ⟨place', hfetched⟩
  cases heq
  let ci : CacheInode :=
    { sfs.inode file with l1 := some l1, inode := { (sfs.inode file).inode with indirect := l1 } }
  have hframe := hfetched.frame.trans (Frame.setInode hfetched.frame.counted file ci)
  have hinode : ((sfs1.setInode file ci).setWord l1 (blocks.length - SFS_L0_NBLKS) b).inode file =
      ci := Mksfs.setInode_self sfs1 file ci
  refine ⟨place', hframe.trans (Frame.setWord hframe.counted hfetched.placed rfl _ _), ?_, ?_, ?_,
    ?_, hfetched.image, hfetched.nextIno_le.trans (Nat.le_succ _)⟩ <;> rw [hinode]
  exact hmaps.single hslot hfar hb hfetched.frame.keeps hfetched.placed
    (fun hlt ↦ hfetched.old (h.ne_zero (hmaps.indirect hlt) nofun)) hfetched.cache

theorem appendSlot_double (h : Counted sfs place)
    (hmaps : Maps place sfs.cache file (sfs.inode file) blocks)
    (hb : place b = some (.data file blocks.length)) (hfar : SFS_L1_NBLKS ≤ blocks.length)
    (hslot : blocks.length < SFS_LN_NBLKS)
    (hcall : appendSlot sfs file blocks.length b = .ok sfs') :
    ∃ place', Slotted sfs sfs' place place' file size (blocks ++ [b]) := by
  have hl2 : blocks.length < SFS_L2_NBLKS := hslot.trans_le (by decide)
  have hl0 : SFS_L0_NBLKS ≤ blocks.length := le_trans (by decide) hfar
  rw [appendSlot, if_neg (Nat.not_lt.mpr hl0), if_neg (Nat.not_lt.mpr hfar), if_pos hl2] at hcall
  rcases Outcome.bind_eq_ok.mp hcall with ⟨⟨l2, sfs1⟩, hfetch2, hcall⟩
  rcases Outcome.bind_eq_ok.mp hcall with ⟨⟨l1, sfs2⟩, hfetch1, heq⟩
  rcases updateCache_ok file h (p := .dbIndirect file) trivial hmaps.old_dbIndirect
    hfetch2 with ⟨place1, hdb⟩
  let k := (blocks.length - SFS_L1_NBLKS) / SFS_BLK_NENTRY
  have hback : SFS_L1_NBLKS < blocks.length → l2 = (sfs.inode file).inode.dbIndirect :=
    fun hlt ↦ hdb.old (h.ne_zero (hmaps.dbIndirect hlt) nofun)
  -- the row of the double-indirect block before the append
  have hrow : SFS_L1_NBLKS < blocks.length →
      sfs1.cache l2 k = sfs.cache (sfs.inode file).inode.dbIndirect k := by
    intro hlt
    rw [hback hlt, hdb.cache _ _ (hmaps.dbIndirect hlt)]
  have hfresh : SFS_L1_NBLKS = blocks.length → sfs1.cache l2 = fun _ ↦ 0 :=
    fun heq ↦ hdb.new (hmaps.noDbIndirect heq.ge)
  have hold1 : sfs1.cache l2 k ≠ 0 → place1 (sfs1.cache l2 k) = some (.level file k) ∧
      (sfs.inode file).l1 = some (sfs1.cache l2 k) := by
    intro hne
    have hlevel := hmaps.old_level hfar (k := k) rfl hrow (fun heq ↦ by rw [hfresh heq]) hne
    exact ⟨hdb.frame.keeps _ _ hlevel.1, hlevel.2⟩
  rcases updateCache_ok file hdb.frame.counted (p := .level file k) trivial hold1 hfetch1
    with ⟨place2, hlevel⟩
  cases heq
  let ci : CacheInode := { sfs.inode file with
    l1 := some l1, l2 := some l2, inode := { (sfs.inode file).inode with dbIndirect := l2 } }
  have hframe1 := (hdb.frame.trans hlevel.frame).trans
    (Frame.setInode hlevel.frame.counted file ci)
  have hframe2 := hframe1.trans (Frame.setWord hframe1.counted
    (hlevel.frame.keeps _ _ hdb.placed) rfl k l1)
  have hframe3 := hframe2.trans (Frame.setWord hframe2.counted hlevel.placed rfl
    ((blocks.length - SFS_L1_NBLKS) % SFS_BLK_NENTRY) b)
  have hinode : (((sfs2.setInode file ci).setWord l2 k l1).setWord l1
      ((blocks.length - SFS_L1_NBLKS) % SFS_BLK_NENTRY) b).inode file = ci :=
    Mksfs.setInode_self sfs2 file ci
  have hne : l1 ≠ l2 := by
    rintro rfl
    cases hlevel.placed.symm.trans (hlevel.frame.keeps _ _ hdb.placed)
  have hcache : ∀ c p, place c = some p → sfs2.cache c = sfs.cache c := by
    intro c p hc
    rw [hlevel.cache c p (hdb.frame.keeps c p hc), hdb.cache c p hc]
  have hl2cache : sfs2.cache l2 = sfs1.cache l2 := hlevel.cache _ _ hdb.placed
  have hdouble := hmaps.double size hslot hfar hb (hdb.frame.keeps.trans hlevel.frame.keeps)
    (k := k) rfl (hlevel.frame.keeps _ _ hdb.placed) hlevel.placed hback ?_ ?_ hcache
  · refine ⟨place2, hframe3, ?_, ?_, ?_, ?_, hlevel.image.trans hdb.image, ?_⟩
    · rw [hinode]
      have hword : (((sfs2.setInode file ci).setWord l2 k l1).setWord l1
          ((blocks.length - SFS_L1_NBLKS) % SFS_BLK_NENTRY) b).cache =
          Function.update (Function.update sfs2.cache l2 (Function.update (sfs2.cache l2) k l1)) l1
            (Function.update (sfs2.cache l1) ((blocks.length - SFS_L1_NBLKS) % SFS_BLK_NENTRY) b) := by
        dsimp only [Mksfs.setWord, Mksfs.setInode]
        rw [Function.update_of_ne hne]
      rw [hword]
      exact hdouble
    · rw [hinode]
    · rw [hinode]
    · rw [hinode]
    · have hless1 := hdb.nextIno_le
      have hless2 := hlevel.nextIno_le
      change sfs2.nextIno ≤ sfs.nextIno + 2
      omega
  · intro hmod
    have hlt : SFS_L1_NBLKS < blocks.length := by
      unfold SFS_BLK_NENTRY at hmod
      omega
    have hmore : SFS_L1_NBLKS + k * SFS_BLK_NENTRY < blocks.length := by
      unfold k SFS_BLK_NENTRY at *
      omega
    have hplaced := hmaps.level k hmore
    rw [← hrow hlt] at hplaced
    rw [hback hlt, ← hdb.cache _ _ (hmaps.dbIndirect hlt), ← hback hlt]
    exact hlevel.old (h.ne_zero hplaced nofun)
  · intro heq
    rw [hl2cache]
    exact hfresh heq

/-- What an append does. -/
structure Appended (sfs sfs' : Mksfs) (place place' : ℕ → Option Place) (file : ℕ)
    (blocks : List ℕ) : Prop where
  frame : Frame sfs sfs' place place' file
  maps : Maps place' sfs'.cache file (sfs'.inode file) blocks
  type : (sfs'.inode file).inode.type = (sfs.inode file).inode.type
  nlinks : (sfs'.inode file).inode.nlinks = (sfs.inode file).inode.nlinks
  real : (sfs'.inode file).real = (sfs.inode file).real
  image : sfs'.image = sfs.image
  nextIno_le : sfs'.nextIno ≤ sfs.nextIno + 2

theorem appendBlock_ok (h : Counted sfs place)
    (hmaps : Maps place sfs.cache file (sfs.inode file) blocks)
    (hb : place b = some (.data file blocks.length))
    (hcall : appendBlock sfs file size b = .ok sfs') :
    ∃ place', Appended sfs sfs' place place' file (blocks ++ [b]) := by
  rcases appendBlock_bump hcall with ⟨hlt, mid, hmid, rfl⟩
  rw [hmaps.nblks] at hlt hmid
  have hslotted : ∃ place', Slotted sfs mid place place' file size (blocks ++ [b]) := by
    rcases Nat.lt_or_ge blocks.length SFS_L0_NBLKS with h0 | h0
    · exact ⟨place, appendSlot_direct h hmaps hb h0 hmid⟩
    rcases Nat.lt_or_ge blocks.length SFS_L1_NBLKS with h1 | h1
    · exact appendSlot_single h hmaps hb h0 h1 hmid
    · exact appendSlot_double h hmaps hb h1 hlt hmid
  rcases hslotted with ⟨place', hslotted⟩
  refine ⟨place', hslotted.frame.trans (Frame.setInode hslotted.frame.counted file _), ?_, ?_, ?_, ?_,
    hslotted.image, hslotted.nextIno_le⟩ <;> rw [Mksfs.bump, Mksfs.setInode_self]
  · exact hslotted.maps
  · exact hslotted.type
  · exact hslotted.nlinks
  · exact hslotted.real

theorem completes_appendSlot (h : Counted sfs place)
    (hmaps : Maps place sfs.cache file (sfs.inode file) blocks) (hroom : sfs.nextIno + 2 ≤ sfs.ninos) :
    Completes (appendSlot sfs file blocks.length b) := by
  rw [appendSlot]
  by_cases h0 : blocks.length < SFS_L0_NBLKS
  · rw [if_pos h0]
    exact Completes.ok _
  rw [if_neg h0]
  by_cases h1 : blocks.length < SFS_L1_NBLKS
  · rw [if_pos h1]
    exact (completes_updateCache h (hmaps.old_indirect h1) (by omega)).seq fun _ ↦ Completes.ok _
  rw [if_neg h1]
  have hfar : SFS_L1_NBLKS ≤ blocks.length := Nat.not_lt.mp h1
  by_cases h2 : blocks.length < SFS_L2_NBLKS
  · rw [if_pos h2]
    let k := (blocks.length - SFS_L1_NBLKS) / SFS_BLK_NENTRY
    rcases completes_updateCache h hmaps.old_dbIndirect (by omega) with ⟨⟨l2, sfs1⟩, hfetch2⟩
    rcases updateCache_ok file h (p := .dbIndirect file) trivial hmaps.old_dbIndirect
      hfetch2 with ⟨place1, hdb⟩
    have hrow : SFS_L1_NBLKS < blocks.length →
        sfs1.cache l2 k = sfs.cache (sfs.inode file).inode.dbIndirect k := by
      intro hlt
      have hplaced := hmaps.dbIndirect hlt
      rw [hdb.old (h.ne_zero hplaced nofun), hdb.cache _ _ hplaced]
    have hold1 : sfs1.cache l2 k ≠ 0 → place1 (sfs1.cache l2 k) = some (.level file k) ∧
        (sfs.inode file).l1 = some (sfs1.cache l2 k) := by
      intro hne
      have hlevel := hmaps.old_level hfar (k := k) rfl hrow
        (fun heq ↦ by rw [hdb.new (hmaps.noDbIndirect heq.ge)]) hne
      exact ⟨hdb.frame.keeps _ _ hlevel.1, hlevel.2⟩
    have hless := hdb.nextIno_le
    have hninos := hdb.frame.ninos
    rw [hfetch2, Outcome.ok_bind]
    exact (completes_updateCache hdb.frame.counted hold1 (by omega)).seq fun _ ↦ Completes.ok _
  · rw [if_neg h2]
    exact Completes.ok _

theorem completes_appendBlock (h : Counted sfs place)
    (hmaps : Maps place sfs.cache file (sfs.inode file) blocks) (hroom : sfs.nextIno + 2 ≤ sfs.ninos)
    (hsize : size ≤ SFS_BLKSIZE) (hlt : blocks.length < SFS_LN_NBLKS) :
    Completes (appendBlock sfs file size b) := by
  rw [← hmaps.nblks] at hlt
  refine Completes.require hsize (Completes.require hlt ?_)
  rw [hmaps.nblks]
  exact (completes_appendSlot h hmaps hroom).seq fun _ ↦ Completes.ok _

end Append

/-! ## The steps of the builder -/

/-- What has been appended and entered, and how often each inode was named. -/
structure Ledger where
  blocks : ℕ → List ℕ
  entries : ℕ → List (Name × ℕ)
  links : ℕ → ℕ

namespace Ledger

def empty : Ledger := ⟨fun _ ↦ [], fun _ ↦ [], fun _ ↦ 0⟩

def append (ledger : Ledger) (file b : ℕ) : Ledger :=
  { ledger with blocks := Function.update ledger.blocks file (ledger.blocks file ++ [b]) }

def enter (ledger : Ledger) (current : ℕ) (name : Name) (file : ℕ) : Ledger :=
  { ledger with
    entries := Function.update ledger.entries current (ledger.entries current ++ [(name, file)])
    links := Function.update ledger.links file (ledger.links file + 1) }

end Ledger

/-- A type that an inode of the image can have. -/
def IsType (type : ℕ) : Prop := type = SFS_TYPE_DIR ∨ type = SFS_TYPE_FILE ∨ type = SFS_TYPE_LINK

/-- One operation of the builder that does not fail. -/
inductive BuildStep : Mksfs × Ledger → Mksfs × Ledger → Prop where
  | inode {sfs sfs' : Mksfs} {ledger : Ledger} {real type ino : ℕ} (htype : IsType type)
    (hcall : allocCacheInode sfs real 0 type = .ok (ino, sfs')) :
    BuildStep (sfs, ledger) (sfs', ledger)
  | data {sfs sfs' : Mksfs} {ledger : Ledger} {file : ℕ} {buffer : List UInt8}
    (hfile : sfs.Cached file) (htype : (sfs.inode file).inode.type ≠ SFS_TYPE_DIR)
    (hcall : addData sfs file buffer = .ok sfs') :
    BuildStep (sfs, ledger) (sfs', ledger.append file sfs.nextIno)
  | entry {sfs sfs' : Mksfs} {ledger : Ledger} {current file : ℕ} {name : Name}
    (hcurrent : sfs.Cached current) (hfile : sfs.Cached file)
    (hcall : addEntry sfs current file name = .ok sfs') :
    BuildStep (sfs, ledger) (sfs', (ledger.append current sfs.nextIno).enter current name file)

/-- A new image. -/
def FirstBuild (stSize : ℕ) (image : ℕ → Bytes) (state : Mksfs × Ledger) : Prop :=
  createSfs stSize image = .ok state.1 ∧ state.2 = .empty

/-- A state of the builder at work on an image file. -/
def Build (stSize : ℕ) (image : ℕ → Bytes) (sfs : Mksfs) (ledger : Ledger) : Prop :=
  Reachable (FirstBuild stSize image) BuildStep (sfs, ledger)

/-- A block that holds an entry, as far as its name is written: 252 bytes, and zeros after them. -/
structure HoldsEntry (block : Bytes) (name : Name) (ino : ℕ) : Prop where
  ino : wordAt block 0 = ino
  bytes : ∀ index < SFS_MAX_FNAME_LEN + 1 - 4, (h : index < name.1.length) →
    block (4 + index) = name.1[index]
  stop : name.1.length < SFS_MAX_FNAME_LEN + 1 - 4 → block (4 + name.1.length) = 0
  rest : ∀ index, SFS_MAX_FNAME_LEN + 1 ≤ index → block index = 0

structure Built (sfs : Mksfs) (ledger : Ledger) (place : ℕ → Option Place) : Prop where
  counted : Counted sfs place
  maps : ∀ ino, sfs.Cached ino → Maps place sfs.cache ino (sfs.inode ino) (ledger.blocks ino)
  type : ∀ ino, sfs.Cached ino → IsType (sfs.inode ino).inode.type
  nlinks : ∀ ino, sfs.Cached ino → (sfs.inode ino).inode.nlinks = ledger.links ino % 2 ^ 16
  length : ∀ ino, sfs.Cached ino → (sfs.inode ino).inode.type = SFS_TYPE_DIR →
    (ledger.entries ino).length = (ledger.blocks ino).length
  holds : ∀ ino, sfs.Cached ino → (sfs.inode ino).inode.type = SFS_TYPE_DIR →
    ∀ index (h : index < (ledger.entries ino).length) (h' : index < (ledger.blocks ino).length),
      HoldsEntry (sfs.image (ledger.blocks ino)[index]) (ledger.entries ino)[index].1
        (ledger.entries ino)[index].2
  named : ∀ ino, ∀ e ∈ ledger.entries ino, sfs.Cached e.2 ∧ e.1.1.length ≤ SFS_MAX_FNAME_LEN
  fresh : ∀ ino, ¬sfs.Cached ino →
    ledger.blocks ino = [] ∧ ledger.entries ino = [] ∧ ledger.links ino = 0

section Built

variable {sfs sfs' : Mksfs} {ledger : Ledger} {place : ℕ → Option Place} {file : ℕ}

theorem writeBlock_ok {data : Bytes} {len ino : ℕ} (hcall : writeBlock sfs data len ino = .ok sfs') :
    len ≤ SFS_BLKSIZE ∧ ino < sfs.ninos ∧ sfs' = { sfs with
      image := Function.update sfs.image ino
        (if len ≠ SFS_BLKSIZE then fun index ↦ if index < len then data index else 0 else data) } := by
  rcases Outcome.bind_eq_ok.mp hcall with ⟨_, hrequire, heq⟩
  cases heq
  have h := Outcome.require_eq_ok.mp hrequire
  exact ⟨h.1, h.2, rfl⟩

theorem writeBlock_eq (sfs : Mksfs) {data : Bytes} {ino : ℕ} (hino : ino < sfs.ninos) :
    writeBlock sfs data SFS_BLKSIZE ino =
      .ok { sfs with image := Function.update sfs.image ino data } := by
  rw [writeBlock, Outcome.require_of_true ⟨le_rfl, hino⟩]
  rfl

theorem writeBlock_short (sfs : Mksfs) {data : Bytes} {len ino : ℕ} (hlen : len < SFS_BLKSIZE)
    (hino : ino < sfs.ninos) : writeBlock sfs data len ino = .ok { sfs with
      image := Function.update sfs.image ino fun index ↦ if index < len then data index else 0 } := by
  rw [writeBlock, Outcome.require_of_true ⟨hlen.le, hino⟩, if_pos hlen.ne]
  rfl

/-- The state with one more number handed out, and a block and the static entry written. -/
def Mksfs.written (sfs : Mksfs) (data entry : Bytes) : Mksfs :=
  { sfs.taken with image := Function.update sfs.image sfs.nextIno data, entry := entry }

/-- The builder after a new block was appended to `file`. -/
structure Extended (sfs sfs' : Mksfs) (ledger : Ledger) (place' : ℕ → Option Place)
    (file : ℕ) (data : Bytes) : Prop where
  counted : Counted sfs' place'
  cached : ∀ ino, sfs'.Cached ino ↔ sfs.Cached ino
  maps : ∀ ino, sfs.Cached ino →
    Maps place' sfs'.cache ino (sfs'.inode ino) ((ledger.append file sfs.nextIno).blocks ino)
  type : ∀ ino, (sfs'.inode ino).inode.type = (sfs.inode ino).inode.type
  nlinks : ∀ ino, (sfs'.inode ino).inode.nlinks = (sfs.inode ino).inode.nlinks
  image : sfs'.image = Function.update sfs.image sfs.nextIno data
  ninos : sfs'.ninos = sfs.ninos
  nextIno_le : sfs'.nextIno ≤ sfs.nextIno + 3

theorem Built.append (h : Built sfs ledger place) (hroom : sfs.nextIno < sfs.ninos)
    (hfile : sfs.Cached file) {data entry : Bytes} {size : ℕ}
    (hcall : appendBlock (sfs.written data entry) file size sfs.nextIno = .ok sfs') :
    ∃ place', Extended sfs sfs' ledger place' file data := by
  let b := sfs.nextIno
  let index := (ledger.blocks file).length
  let place1 := Function.update place b (some (.data file index))
  have hkeeps : Keeps place place1 := Keeps.update h.counted.none_nextIno _
  have hcounted : Counted (sfs.written data entry) place1 :=
    (h.counted.data hroom file index).of_fields rfl rfl rfl rfl rfl rfl
  have hmaps := (h.maps file hfile).frame hkeeps fun c p _ _ ↦ (rfl : sfs.cache c = sfs.cache c)
  rcases appendBlock_ok hcounted hmaps (Function.update_self ..) hcall with ⟨place', happended⟩
  refine ⟨place', happended.frame.counted, fun ino ↦ ?_, fun ino hino ↦ ?_, fun ino ↦ ?_, fun ino ↦ ?_,
    happended.image, happended.frame.ninos, happended.nextIno_le⟩
  · rw [Mksfs.Cached, happended.frame.inodes]
    rfl
  · by_cases heq : ino = file
    · have hblocks : (ledger.append file sfs.nextIno).blocks ino = ledger.blocks file ++ [b] := by
        rw [heq]
        exact Function.update_self ..
      rw [hblocks, heq]
      exact happended.maps
    · have hblocks : (ledger.append file sfs.nextIno).blocks ino = ledger.blocks ino :=
        Function.update_of_ne heq ..
      rw [hblocks, happended.frame.inode ino heq]
      refine (h.maps ino hino).frame (hkeeps.trans happended.frame.keeps) fun c p hc hp ↦ ?_
      refine happended.frame.cache c p (hkeeps c p hc) ?_
      rw [hp]
      exact fun hsame ↦ heq (Option.some.inj hsame)
  · by_cases heq : ino = file
    · rw [heq]
      exact happended.type
    · rw [happended.frame.inode ino heq]
      rfl
  · by_cases heq : ino = file
    · rw [heq]
      exact happended.nlinks
    · rw [happended.frame.inode ino heq]
      rfl

/-- A block of an inode is none that is handed out later. -/
theorem Built.ne_nextIno (h : Built sfs ledger place) {ino : ℕ} (hino : sfs.Cached ino) {b : ℕ}
    (hb : b ∈ ledger.blocks ino) : b ≠ sfs.nextIno := by
  rintro rfl
  rcases List.mem_iff_getElem.mp hb with ⟨index, hindex, heq⟩
  have hplaced := (h.maps ino hino).placed index hindex
  rw [heq, h.counted.none_nextIno] at hplaced
  cases hplaced

/-- The entries of a directory that nothing was entered into. -/
theorem Extended.holds {place' : ℕ → Option Place} {data : Bytes} (h : Built sfs ledger place)
    (hextended : Extended sfs sfs' ledger place' file data) {ino : ℕ} (hino : sfs.Cached ino)
    (htype : (sfs.inode ino).inode.type = SFS_TYPE_DIR) {index : ℕ}
    (hentry : index < (ledger.entries ino).length) (hblock : index < (ledger.blocks ino).length) :
    HoldsEntry (sfs'.image (ledger.blocks ino)[index]) (ledger.entries ino)[index].1
      (ledger.entries ino)[index].2 := by
  rw [hextended.image, Function.update_of_ne (h.ne_nextIno hino (List.getElem_mem hblock))]
  exact h.holds ino hino htype index hentry hblock

theorem Built.addData_ok (h : Built sfs ledger place) (hfile : sfs.Cached file)
    {buffer : List UInt8} (hcall : addData sfs file buffer = .ok sfs') :
    ∃ place' data, Extended sfs sfs' ledger place' file data := by
  rcases Outcome.bind_eq_ok.mp hcall with ⟨⟨b, mid⟩, halloc, hcall⟩
  rcases sfsAllocIno_ok h.counted halloc with ⟨hroom, rfl, rfl⟩
  rcases Outcome.bind_eq_ok.mp hcall with ⟨mid, hwrite, hcall⟩
  rcases writeBlock_ok hwrite with ⟨-, -, rfl⟩
  rcases h.append hroom hfile (show appendBlock (sfs.written _ sfs.entry) file _ _ = _ from hcall) with ⟨place', hextended⟩
  exact ⟨place', _, hextended⟩

theorem Built.data (h : Built sfs ledger place) (hfile : sfs.Cached file)
    (htype : (sfs.inode file).inode.type ≠ SFS_TYPE_DIR) {buffer : List UInt8}
    (hcall : addData sfs file buffer = .ok sfs') :
    ∃ place', Built sfs' (ledger.append file sfs.nextIno) place' := by
  rcases h.addData_ok hfile hcall with ⟨place', data, hextended⟩
  have hne : ∀ ino, (sfs.inode ino).inode.type = SFS_TYPE_DIR → ino ≠ file := by
    rintro ino hdir rfl
    exact htype hdir
  have hblocks : ∀ ino, ino ≠ file →
      (ledger.append file sfs.nextIno).blocks ino = ledger.blocks ino :=
    fun ino hino ↦ Function.update_of_ne hino ..
  refine ⟨place', hextended.counted, fun ino hino ↦ ?_, fun ino hino ↦ ?_, fun ino hino ↦ ?_,
    fun ino hino hdir ↦ ?_, fun ino hino hdir ↦ ?_, fun ino e he ↦ ?_, fun ino hino ↦ ?_⟩
  · exact hextended.maps ino ((hextended.cached ino).mp hino)
  · rw [hextended.type]
    exact h.type ino ((hextended.cached ino).mp hino)
  · rw [hextended.nlinks]
    exact h.nlinks ino ((hextended.cached ino).mp hino)
  · rw [hextended.type] at hdir
    rw [hblocks ino (hne ino hdir)]
    exact h.length ino ((hextended.cached ino).mp hino) hdir
  · rw [hextended.type] at hdir
    rw [hblocks ino (hne ino hdir)]
    intro index hentry hblock
    exact hextended.holds h ((hextended.cached ino).mp hino) hdir hentry hblock
  · rw [hextended.cached]
    exact h.named ino e he
  · rw [hextended.cached] at hino
    have hnew : ino ≠ file := by
      rintro rfl
      exact hino hfile
    rw [hblocks ino hnew]
    exact h.fresh ino hino

/-- An append does not fail as long as there is room for its block and two blocks of numbers. -/
theorem Built.exists_append (h : Built sfs ledger place) (hfile : sfs.Cached file)
    (hroom : sfs.nextIno + 3 ≤ sfs.ninos) (size : ℕ) (hsize : size ≤ SFS_BLKSIZE)
    (hlt : (ledger.blocks file).length < SFS_LN_NBLKS) (data entry : Bytes) : ∃ sfs' place',
      appendBlock (sfs.written data entry) file size sfs.nextIno = .ok sfs' ∧
        Extended sfs sfs' ledger place' file data := by
  have hroom' : sfs.nextIno < sfs.ninos := by omega
  let place1 := Function.update place sfs.nextIno (some (.data file (ledger.blocks file).length))
  have hkeeps : Keeps place place1 := Keeps.update h.counted.none_nextIno _
  have hcounted : Counted (sfs.written data entry) place1 :=
    (h.counted.data hroom' file _).of_fields rfl rfl rfl rfl rfl rfl
  have hmaps := (h.maps file hfile).frame hkeeps fun c p _ _ ↦ (rfl : sfs.cache c = sfs.cache c)
  have hmore : sfs.nextIno + 1 + 2 ≤ sfs.ninos := hroom
  rcases completes_appendBlock (b := sfs.nextIno) hcounted hmaps hmore hsize hlt with ⟨sfs', hcall⟩
  rcases h.append hroom' hfile hcall with ⟨place', hextended⟩
  exact ⟨sfs', place', hcall, hextended⟩

theorem Built.exists_addData (h : Built sfs ledger place) (hfile : sfs.Cached file)
    (hroom : sfs.nextIno + 3 ≤ sfs.ninos) {buffer : List UInt8} (hsize : buffer.length ≤ SFS_BLKSIZE)
    (hlt : (ledger.blocks file).length < SFS_LN_NBLKS) : ∃ sfs' place' data,
      addData sfs file buffer = .ok sfs' ∧ Extended sfs sfs' ledger place' file data := by
  have hroom' : sfs.nextIno < sfs.ninos := by omega
  have hrequire : buffer.length ≤ SFS_BLKSIZE ∧ sfs.nextIno < sfs.taken.ninos := ⟨hsize, hroom'⟩
  rcases h.exists_append hfile hroom buffer.length hsize hlt (if buffer.length ≠ SFS_BLKSIZE then
    fun index ↦ if index < buffer.length then buffer.getD index 0 else 0
      else fun index ↦ buffer.getD index 0) sfs.entry with ⟨sfs', place', hcall, hextended⟩
  refine ⟨sfs', place', _, ?_, hextended⟩
  rw [addData, sfsAllocIno_eq h.counted hroom', Outcome.ok_bind]
  dsimp only
  rw [writeBlock, Outcome.require_of_true hrequire]
  exact hcall

/-- The block that `add_entry` writes. -/
def entryBlock (old : Bytes) (ino : ℕ) (name : Name) : Bytes := fun index ↦
  if index < SFS_MAX_FNAME_LEN + 1 then strcpy (overlay old (bytes32 ino) 4 0) 4 name index else 0

theorem holdsEntry_entryBlock (old : Bytes) {ino : ℕ} (hino : ino < 2 ^ 32) (name : Name) :
    HoldsEntry (entryBlock old ino name) name ino := by
  refine ⟨?_, fun index hindex hlt ↦ ?_, fun hlt ↦ ?_, fun index hindex ↦ ?_⟩
  · refine Eq.trans (word32_congr fun index hindex ↦ ?_) (word32_bytes32 hino)
    have hnear : ¬(4 ≤ 0 + index ∧ 0 + index < 4 + (name.1.length + 1)) := by omega
    rw [entryBlock, if_pos (by unfold SFS_MAX_FNAME_LEN; omega), strcpy, overlay, if_neg hnear,
      overlay, if_pos (by omega)]
    congr 1
    omega
  · rw [entryBlock, if_pos (by omega), strcpy, overlay, if_pos (by omega), Nat.add_sub_cancel_left,
      List.getD_eq_getElem _ _ hlt]
  · rw [entryBlock, if_pos (by omega), strcpy, overlay, if_pos (by omega), Nat.add_sub_cancel_left,
      List.getD_eq_default _ _ le_rfl]
  · rw [entryBlock, if_neg (Nat.not_lt.mpr hindex)]

theorem Built.cached_lt (h : Built sfs ledger place) {ino : ℕ} (hino : sfs.Cached ino) :
    ino < sfs.nextIno := h.counted.lt _ _ ((h.counted.inode ino).mp hino)

/-- The number of links is none of the block map. -/
theorem Maps.relink {cache : ℕ → ℕ → ℕ} {ino : ℕ} {ci : CacheInode} {blocks : List ℕ}
    (h : Maps place cache ino ci blocks) (nlinks : ℕ) :
    Maps place cache ino { ci with inode := { ci.inode with nlinks } } blocks :=
  ⟨h.stored, h.nblks, h.count, h.length_le, h.data, h.placed, h.indirect, h.noIndirect, h.l1,
    h.dbIndirect, h.noDbIndirect, h.l2, h.level, h.noLevel⟩

theorem addEntry_ok {current : ℕ} {name : Name} (h : Counted sfs place)
    (hcall : addEntry sfs current file name = .ok sfs') :
    (sfs.inode current).inode.type = SFS_TYPE_DIR ∧ name.1.length ≤ SFS_MAX_FNAME_LEN ∧
      sfs.nextIno < sfs.ninos ∧ ∃ entry mid,
        appendBlock (sfs.written (entryBlock sfs.entry (sfs.inode file).ino name) entry) current
          (SFS_MAX_FNAME_LEN + 1) sfs.nextIno = .ok mid ∧
        sfs' = mid.setInode file { mid.inode file with
          inode := { (mid.inode file).inode with
            nlinks := ((mid.inode file).inode.nlinks + 1) % 2 ^ 16 } } := by
  rcases Outcome.bind_eq_ok.mp hcall with ⟨_, hrequire, hcall⟩
  have hrequire := Outcome.require_eq_ok.mp hrequire
  rcases Outcome.bind_eq_ok.mp hcall with ⟨⟨b, mid⟩, halloc, hcall⟩
  have hcounted : Counted { sfs with entry := strcpy (overlay sfs.entry
    (bytes32 (sfs.inode file).ino) 4 0) 4 name } place := h.of_fields rfl rfl rfl rfl rfl rfl
  rcases sfsAllocIno_ok hcounted halloc with ⟨hroom, rfl, rfl⟩
  rcases Outcome.bind_eq_ok.mp hcall with ⟨mid, hwrite, hcall⟩
  rcases writeBlock_ok hwrite with ⟨-, -, rfl⟩
  rcases Outcome.bind_eq_ok.mp hcall with ⟨mid, happend, heq⟩
  cases heq
  exact ⟨hrequire.1, hrequire.2, hroom, _, mid, happend, rfl⟩

theorem Built.exists_addEntry (h : Built sfs ledger place) {current : ℕ} (file : ℕ) (name : Name)
    (hcurrent : sfs.Cached current) (hdir : (sfs.inode current).inode.type = SFS_TYPE_DIR)
    (hname : name.1.length ≤ SFS_MAX_FNAME_LEN) (hroom : sfs.nextIno + 3 ≤ sfs.ninos)
    (hlt : (ledger.blocks current).length < SFS_LN_NBLKS) :
    ∃ sfs', addEntry sfs current file name = .ok sfs' := by
  have hroom' : sfs.nextIno < sfs.ninos := by omega
  let entry := strcpy (overlay sfs.entry (bytes32 (sfs.inode file).ino) 4 0) 4 name
  have hcounted : Counted { sfs with entry } place := h.counted.of_fields rfl rfl rfl rfl rfl rfl
  rcases h.exists_append hcurrent hroom (SFS_MAX_FNAME_LEN + 1) (by decide) hlt
    (entryBlock sfs.entry (sfs.inode file).ino name) entry with ⟨mid, place', hcall, -⟩
  rw [addEntry, Outcome.require_of_true ⟨hdir, hname⟩, Outcome.ok_bind]
  dsimp only
  rw [sfsAllocIno_eq hcounted hroom', Outcome.ok_bind]
  dsimp only
  rw [writeBlock_short ({ sfs with entry } : Mksfs).taken (by decide) hroom', Outcome.ok_bind]
  exact Completes.seq ⟨mid, hcall⟩ fun _ ↦ Completes.ok _

theorem Built.entry (h : Built sfs ledger place) {current : ℕ} {name : Name}
    (hcurrent : sfs.Cached current) (hfile : sfs.Cached file)
    (hcall : addEntry sfs current file name = .ok sfs') :
    ∃ place', Built sfs' ((ledger.append current sfs.nextIno).enter current name file) place' := by
  rcases addEntry_ok h.counted hcall with ⟨hdir, hname, hroom, entry, mid, happend, rfl⟩
  rcases h.append hroom hcurrent happend with ⟨place', hextended⟩
  have hstored : (sfs.inode file).ino = file := (h.maps file hfile).stored
  have hlt : file < 2 ^ 32 := by
    have hlt := h.cached_lt hfile
    have hle := h.counted.nextIno_le
    have hmax := h.counted.ninos_le
    unfold SFS_MAX_NBLKS at hmax
    omega
  rw [hstored] at hextended
  let ledger' := (ledger.append current sfs.nextIno).enter current name file
  have hcached : ∀ ino, (mid.setInode file { mid.inode file with
      inode := { (mid.inode file).inode with
        nlinks := ((mid.inode file).inode.nlinks + 1) % 2 ^ 16 } }).Cached ino ↔ sfs.Cached ino :=
    hextended.cached
  have htype : ∀ ino, ((mid.setInode file { mid.inode file with
      inode := { (mid.inode file).inode with
        nlinks := ((mid.inode file).inode.nlinks + 1) % 2 ^ 16 } }).inode ino).inode.type =
          (sfs.inode ino).inode.type := by
    intro ino
    by_cases heq : ino = file
    · rw [heq, Mksfs.setInode_self]
      exact hextended.type file
    · exact (congrArg (fun ci : CacheInode ↦ ci.inode.type) (Function.update_of_ne heq ..)).trans
        (hextended.type ino)
  have hblocks : ledger'.blocks current = ledger.blocks current ++ [sfs.nextIno] :=
    Function.update_self ..
  have hentries : ledger'.entries current = ledger.entries current ++ [(name, file)] :=
    Function.update_self ..
  have hother : ∀ ino, ino ≠ current → ledger'.blocks ino = ledger.blocks ino ∧
      ledger'.entries ino = ledger.entries ino :=
    fun ino hino ↦ ⟨Function.update_of_ne hino .., Function.update_of_ne hino ..⟩
  have hlength := h.length current hcurrent hdir
  refine ⟨place', hextended.counted.of_fields rfl rfl rfl rfl rfl rfl, fun ino hino ↦ ?_,
    fun ino hino ↦ ?_, fun ino hino ↦ ?_, fun ino hino hdir' ↦ ?_, fun ino hino hdir' ↦ ?_,
    fun ino e he ↦ ?_, fun ino hino ↦ ?_⟩
  · have hmaps := hextended.maps ino ((hcached ino).mp hino)
    by_cases heq : ino = file
    · subst heq
      rw [Mksfs.setInode_self]
      exact hmaps.relink _
    · have hinode : (mid.setInode file { mid.inode file with
          inode := { (mid.inode file).inode with
            nlinks := ((mid.inode file).inode.nlinks + 1) % 2 ^ 16 } }).inode ino = mid.inode ino :=
        Function.update_of_ne heq ..
      rw [hinode]
      exact hmaps
  · rw [htype]
    exact h.type ino ((hcached ino).mp hino)
  · have hnlinks := h.nlinks ino ((hcached ino).mp hino)
    by_cases heq : ino = file
    · have hcount : ledger'.links file = ledger.links file + 1 := Function.update_self ..
      rw [heq] at hnlinks ⊢
      rw [Mksfs.setInode_self, hcount]
      dsimp only
      rw [hextended.nlinks, hnlinks]
      omega
    · have hinode : (mid.setInode file { mid.inode file with
          inode := { (mid.inode file).inode with
            nlinks := ((mid.inode file).inode.nlinks + 1) % 2 ^ 16 } }).inode ino = mid.inode ino :=
        Function.update_of_ne heq ..
      have hcount : ledger'.links ino = ledger.links ino := Function.update_of_ne heq ..
      rw [hinode, hextended.nlinks, hnlinks, hcount]
  · rw [htype] at hdir'
    by_cases heq : ino = current
    · rw [heq, hblocks, hentries, List.length_append, List.length_append, hlength]
      rfl
    · rw [(hother ino heq).1, (hother ino heq).2]
      exact h.length ino ((hcached ino).mp hino) hdir'
  · rw [htype] at hdir'
    have hino := (hcached ino).mp hino
    by_cases heq : ino = current
    · subst heq
      rw [hblocks, hentries]
      intro index hentry hblock
      rcases getElem_snoc hblock with ⟨hold, hgetBlock⟩ | ⟨hnew, hgetBlock⟩
      · have hold' : index < (ledger.entries ino).length := hlength ▸ hold
        rw [hgetBlock hold, List.getElem_append_left hold']
        exact hextended.holds h hino hdir' hold' hold
      · have hgetEntry : (ledger.entries ino ++ [(name, file)])[index] = (name, file) :=
          List.getElem_concat_length (hnew.trans hlength.symm) _
        have himage : (mid.setInode file { mid.inode file with
            inode := { (mid.inode file).inode with
              nlinks := ((mid.inode file).inode.nlinks + 1) % 2 ^ 16 } }).image sfs.nextIno =
              entryBlock sfs.entry file name := by
          refine (congrFun hextended.image sfs.nextIno).trans ?_
          exact Function.update_self ..
        rw [hgetBlock, hgetEntry, himage]
        exact holdsEntry_entryBlock sfs.entry hlt name
    · rw [(hother ino heq).1, (hother ino heq).2]
      intro index hentry hblock
      exact hextended.holds h hino hdir' hentry hblock
  · rw [hcached]
    by_cases heq : ino = current
    · rw [heq, hentries] at he
      rcases List.mem_append.mp he with hold | hnew
      · exact h.named current e hold
      · rw [List.mem_singleton.mp hnew]
        exact ⟨hfile, hname⟩
    · rw [(hother ino heq).2] at he
      exact h.named ino e he
  · rw [hcached] at hino
    have hne : ino ≠ current ∧ ino ≠ file := by
      constructor
      · rintro rfl
        exact hino hcurrent
      · rintro rfl
        exact hino hfile
    have hcount : ledger'.links ino = ledger.links ino := Function.update_of_ne hne.2 ..
    rw [(hother ino hne.1).1, (hother ino hne.1).2, hcount]
    exact h.fresh ino hino

/-- Entering a name makes no inode and changes no type. -/
theorem addEntry_types (h : Built sfs ledger place) {current : ℕ} {name : Name}
    (hcurrent : sfs.Cached current) (hcall : addEntry sfs current file name = .ok sfs') (ino : ℕ) :
    (sfs'.Cached ino ↔ sfs.Cached ino) ∧
      (sfs'.inode ino).inode.type = (sfs.inode ino).inode.type := by
  rcases addEntry_ok h.counted hcall with ⟨hdir, hname, hroom, entry, mid, happend, rfl⟩
  rcases h.append hroom hcurrent happend with ⟨place', hextended⟩
  refine ⟨hextended.cached ino, Eq.trans ?_ (hextended.type ino)⟩
  by_cases heq : ino = file
  · rw [heq, Mksfs.setInode_self]
  · exact congrArg (fun ci : CacheInode ↦ ci.inode.type) (Function.update_of_ne heq ..)

theorem addEntry_counters (h : Built sfs ledger place) {current : ℕ} {name : Name}
    (hcurrent : sfs.Cached current) (hcall : addEntry sfs current file name = .ok sfs') :
    sfs'.ninos = sfs.ninos ∧ sfs'.nextIno ≤ sfs.nextIno + 3 := by
  rcases addEntry_ok h.counted hcall with ⟨hdir, hname, hroom, entry, mid, happend, rfl⟩
  rcases h.append hroom hcurrent happend with ⟨place', hextended⟩
  exact ⟨hextended.ninos, hextended.nextIno_le⟩

theorem Built.inode (h : Built sfs ledger place) {real type ino : ℕ} (htype : IsType type)
    (hcall : allocCacheInode sfs real 0 type = .ok (ino, sfs')) :
    ∃ place', Built sfs' ledger place' := by
  rcases allocCacheInode_ok h.counted hcall with ⟨hroom, rfl, rfl⟩
  have hcounted := h.counted.addInode hroom real type
  have hkeeps : Keeps place (Function.update place sfs.nextIno (some (.inode sfs.nextIno))) :=
    Keeps.update h.counted.none_nextIno _
  have hold : ¬sfs.Cached sfs.nextIno := fun hcached ↦ Nat.lt_irrefl _ (h.cached_lt hcached)
  have hcached : ∀ ino, (sfs.addInode real type).Cached ino → ino ≠ sfs.nextIno → sfs.Cached ino := by
    intro ino hino hne
    rw [hcounted.inode, Function.update_of_ne hne] at hino
    exact (h.counted.inode ino).mpr hino
  have hmore : ∀ ino, sfs.Cached ino → (sfs.addInode real type).Cached ino := by
    intro ino hino
    exact (hcounted.inode ino).mpr (hkeeps _ _ ((h.counted.inode ino).mp hino))
  have hnew : (sfs.addInode real type).inode sfs.nextIno = .new real type sfs.nextIno :=
    Function.update_self ..
  have hsame : ∀ ino, ino ≠ sfs.nextIno → (sfs.addInode real type).inode ino = sfs.inode ino :=
    fun ino hne ↦ Function.update_of_ne hne ..
  rcases h.fresh _ hold with ⟨hblocks, hentries, hlinks⟩
  refine ⟨_, hcounted, fun ino hino ↦ ?_, fun ino hino ↦ ?_, fun ino hino ↦ ?_,
    fun ino hino hdir ↦ ?_, fun ino hino hdir ↦ ?_, fun ino e he ↦ ?_, fun ino hino ↦ ?_⟩
  · by_cases heq : ino = sfs.nextIno
    · rw [heq, hnew, hblocks]
      exact maps_new ..
    · rw [hsame ino heq]
      exact (h.maps ino (hcached ino hino heq)).frame hkeeps fun _ _ _ _ ↦ rfl
  · by_cases heq : ino = sfs.nextIno
    · rw [heq, hnew]
      exact htype
    · rw [hsame ino heq]
      exact h.type ino (hcached ino hino heq)
  · by_cases heq : ino = sfs.nextIno
    · rw [heq, hnew, hlinks]
      rfl
    · rw [hsame ino heq]
      exact h.nlinks ino (hcached ino hino heq)
  · by_cases heq : ino = sfs.nextIno
    · rw [heq, hblocks, hentries]
      rfl
    · rw [hsame ino heq] at hdir
      exact h.length ino (hcached ino hino heq) hdir
  · by_cases heq : ino = sfs.nextIno
    · intro index hentry
      rw [heq, hentries] at hentry
      exact absurd hentry (Nat.not_lt_zero _)
    · rw [hsame ino heq] at hdir
      exact h.holds ino (hcached ino hino heq) hdir
  · exact ⟨hmore _ (h.named ino e he).1, (h.named ino e he).2⟩
  · exact h.fresh ino fun hold ↦ hino (hmore ino hold)

/-! ## Runs -/

theorem Built.step (h : Built sfs ledger place) {next : Mksfs × Ledger}
    (hstep : BuildStep (sfs, ledger) next) : ∃ place', Built next.1 next.2 place' := by
  cases hstep with
  | inode htype hcall => exact h.inode htype hcall
  | data hfile htype hcall => exact h.data hfile htype hcall
  | entry hcurrent hfile hcall => exact h.entry hcurrent hfile hcall

/-- The places of a new image: superblock, root and free map. -/
def firstPlace (freemapBlocks b : ℕ) : Option Place :=
  if b = SFS_BLKN_SUPER then some .super
  else if b = SFS_BLKN_ROOT then some (.inode SFS_BLKN_ROOT)
  else if b < SFS_BLKN_FREEMAP + freemapBlocks then some (.freemap (b - SFS_BLKN_FREEMAP))
  else none

/-- The number of blocks that `create_sfs` uses of an image file. -/
def imageBlocks (stSize : ℕ) : ℕ :=
  if SFS_MAX_NBLKS < uint32 (stSize / SFS_BLKSIZE) then SFS_MAX_NBLKS
  else uint32 (stSize / SFS_BLKSIZE)

/-- The first number that is not in use. -/
def firstIno (ninos : ℕ) : ℕ := SFS_BLKN_FREEMAP + (ninos + SFS_BLKBITS - 1) / SFS_BLKBITS

/-- A new image with the given number of blocks. -/
def Mksfs.first (ninos : ℕ) (image : ℕ → Bytes) : Mksfs where
  blocks := ninos
  unusedBlocks := ninos - firstIno ninos
  image := image
  ninos := ninos
  nextIno := firstIno ninos
  inode := Function.update (fun _ ↦ ⟨⟨0, 0, 0, 0, fun _ ↦ 0, 0, 0⟩, 0, 0, 0, none, none⟩)
    SFS_BLKN_ROOT (.new 0 SFS_TYPE_DIR SFS_BLKN_ROOT)
  cache := fun _ _ ↦ 0
  inodes := Function.update (fun _ ↦ []) (hash64 0) [SFS_BLKN_ROOT]
  cacheBlocks := fun _ ↦ []
  entry := fun _ ↦ 0

theorem createSfs_eq (stSize : ℕ) (image : ℕ → Bytes) :
    createSfs stSize image = (do
      Outcome.require (firstIno (imageBlocks stSize) < imageBlocks stSize)
      return Mksfs.first (imageBlocks stSize) image) := rfl

theorem built_first {ninos : ℕ} (hroom : firstIno ninos < ninos) (hmax : ninos ≤ SFS_MAX_NBLKS)
    (image : ℕ → Bytes) : Built (Mksfs.first ninos image) .empty
      (firstPlace (Mksfs.first ninos image).freemapBlocks) := by
  have hfirst : firstIno ninos = 2 + (Mksfs.first ninos image).freemapBlocks := rfl
  have hcached : ∀ ino, (Mksfs.first ninos image).Cached ino ↔ ino = SFS_BLKN_ROOT := by
    intro ino
    refine (mem_bucket_cons (fun _ ↦ []) (hash32_lt _) ino).trans ?_
    simp
  have hroot : (Mksfs.first ninos image).inode SFS_BLKN_ROOT =
      .new 0 SFS_TYPE_DIR SFS_BLKN_ROOT := rfl
  have hplace : ∀ b p, firstPlace (Mksfs.first ninos image).freemapBlocks b = some p →
      (b = 0 ∧ p = .super) ∨ (b = 1 ∧ p = .inode 1) ∨
        (2 ≤ b ∧ b < firstIno ninos ∧ p = .freemap (b - 2)) := by
    intro b p hb
    unfold firstPlace SFS_BLKN_SUPER SFS_BLKN_ROOT SFS_BLKN_FREEMAP at hb
    split_ifs at hb with h0 h1 h2
    · exact Or.inl ⟨h0, (Option.some.inj hb).symm⟩
    · exact Or.inr (Or.inl ⟨h1, (Option.some.inj hb).symm⟩)
    · exact Or.inr (Or.inr ⟨by omega, hfirst ▸ h2, (Option.some.inj hb).symm⟩)
  have hcounted : Counted (Mksfs.first ninos image)
      (firstPlace (Mksfs.first ninos image).freemapBlocks) := by
    refine ⟨hmax, rfl, hroom.le, le_rfl, Nat.sub_add_cancel hroom.le, fun b p hb ↦ ?_, rfl,
      fun index hindex ↦ ?_, fun ino ↦ ?_, fun cb ↦ ?_⟩
    · change b < firstIno ninos
      rcases hplace b p hb with ⟨rfl, -⟩ | ⟨rfl, -⟩ | ⟨-, hlt, -⟩ <;> omega
    · unfold firstPlace SFS_BLKN_SUPER SFS_BLKN_ROOT SFS_BLKN_FREEMAP
      rw [if_neg (by omega), if_neg (by omega), if_pos (by omega), Nat.add_sub_cancel_left]
    · rw [hcached]
      constructor
      · rintro rfl
        rfl
      · intro hino
        rcases hplace ino _ hino with ⟨-, hp⟩ | ⟨hone, -⟩ | ⟨-, -, hp⟩
        · cases hp
        · exact hone
        · cases hp
    · constructor
      · rintro ⟨i, -, hmem⟩
        exact absurd hmem List.not_mem_nil
      · rintro ⟨p, hp, htable⟩
        rcases hplace cb p hp with ⟨-, rfl⟩ | ⟨-, rfl⟩ | ⟨-, -, rfl⟩ <;> exact htable.elim
  refine ⟨hcounted, ?_, ?_, ?_, ?_, ?_, ?_, ?_⟩
  · intro ino hino
    rw [(hcached ino).mp hino, hroot]
    exact maps_new ..
  · intro ino hino
    rw [(hcached ino).mp hino, hroot]
    exact Or.inl rfl
  · intro ino hino
    rw [(hcached ino).mp hino, hroot]
    rfl
  · intro ino _ _
    rfl
  · intro ino _ _ index hindex
    exact absurd hindex (Nat.not_lt_zero _)
  · intro ino e he
    exact absurd he List.not_mem_nil
  · intro ino _
    exact ⟨rfl, rfl, rfl⟩

theorem imageBlocks_le (stSize : ℕ) : imageBlocks stSize ≤ SFS_MAX_NBLKS := by
  unfold imageBlocks
  split <;> omega

theorem build_first {stSize : ℕ} (hroom : firstIno (imageBlocks stSize) < imageBlocks stSize)
    (image : ℕ → Bytes) : Build stSize image (.first (imageBlocks stSize) image) .empty := by
  refine Reachable.first ⟨?_, rfl⟩
  rw [createSfs_eq, Outcome.require_of_true hroom]
  rfl

/-- The state of the builder at any time. -/
theorem Build.built {stSize : ℕ} {image : ℕ → Bytes} (h : Build stSize image sfs ledger) :
    ∃ place, Built sfs ledger place := by
  have hinvariant : ∀ state, Reachable (FirstBuild stSize image) BuildStep state →
      ∃ place, Built state.1 state.2 place := by
    intro state hstate
    apply hstate.invariant
    · rintro ⟨sfs, ledger⟩ ⟨hcall, hledger⟩
      rw [createSfs_eq] at hcall
      rcases Outcome.bind_eq_ok.mp hcall with ⟨_, hrequire, heq⟩
      cases heq
      cases hledger
      exact ⟨_, built_first (Outcome.require_eq_ok.mp hrequire) (imageBlocks_le stSize) image⟩
    · rintro ⟨sfs, ledger⟩ next ⟨place, hbuilt⟩ hstep
      exact hbuilt.step hstep
  exact hinvariant _ h

end Built

end Ucore.Tools
