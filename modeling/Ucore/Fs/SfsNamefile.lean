import Ucore.Fs.SfsBorrow
import Ucore.Fs.SfsGetdirentry
import Ucore.Library.Holds

/-!
# `sfs_namefile`

The path of a directory is put together from its last name to its first, while the call climbs from
directory to directory up to the root. The names fill the buffer from its end, and the whole path is
moved to the beginning when the root is reached.
-/

namespace Ucore.Fs

open Library

/-! ## Directories in memory -/

/-- The inode of a node, for the calls on the blocks of a directory. -/
def Node.sin (node : Node) : SfsInode := { diskInode node.din with dirty := node.dirty }

/-- The node after a call on its inode. -/
def InodeTable.put (t : InodeTable) (n : ℕ) (node : Node) (sfs : SfsFs) (sin : SfsInode) : InodeTable :=
  { t with sfs }.set n { node with din := layInode node.din sin, dirty := sin.dirty }

/-- What `kmalloc` answers to `sfs_lookup_once`: for an entry, for a disk inode and for an inode. -/
structure LookupMemory where
  entry : Bool
  din : Bool
  inode : Bool

/-- `sfs_lookup_once`. -/
def InodeTable.sfsLookupOnce (t : InodeTable) (memory : LookupMemory) (n : ℕ) (name : Name) :
    Outcome (Ret ℕ × InodeTable) := do
  let node ← t.node n
  let (ret, sfs, sin) ← sfsDirentSearchNolock memory.entry t.sfs node.sin name
  let t := t.put n node sfs sin
  match ret with
  | .error code => return (.error code, t)
  | .ok (_, ino) => t.sfsLoadInode memory.din memory.inode ino

/-- The loop of `sfs_dirent_findino_nolock` from slot `i` on. -/
def sfsDirentFindinoFrom (ino i : ℕ) :
    ℕ → SfsFs → SfsInode → Outcome (Ret DiskEntry × SfsFs × SfsInode)
  | 0, s, sin => return (.error .noEnt, s, sin)
  | left + 1, s, sin => do
    match ← sfsDirentReadNolock s sin i with
    | (.error code, s, sin) => return (.error code, s, sin)
    | (.ok entry, s, sin) =>
      if entry.ino = ino then return (.ok entry, s, sin)
      else sfsDirentFindinoFrom ino (i + 1) left s sin

def InodeTable.sfsDirentFindinoNolock (t : InodeTable) (n ino : ℕ) :
    Outcome (Ret DiskEntry × InodeTable) := do
  let node ← t.node n
  let (ret, sfs, sin) ← sfsDirentFindinoFrom ino 0 node.sin.blocks t.sfs node.sin
  return (ret, t.put n node sfs sin)

/-! ## The buffer -/

/-- A write to the buffer of a request. The call stops at the first byte outside of the buffer. -/
def Iobuf.store (iob : Iobuf) (addr : ℕ) (data : Bytes) (len : ℕ) : Outcome Iobuf := do
  Outcome.require (iob.base ≤ addr ∧ addr + len ≤ iob.base + iob.resid)
  return { iob with memory := overlay iob.memory data len addr }

/-- A read from it, with the same bounds. -/
def Iobuf.load (iob : Iobuf) (addr len : ℕ) : Outcome Bytes := do
  Outcome.require (iob.base ≤ addr ∧ addr + len ≤ iob.base + iob.resid)
  return fun index ↦ iob.memory (addr + index)

def slash : UInt8 := 47

theorem zero_notMem_dots : (0 : UInt8) ∉ [(46 : UInt8), 46] := by
  decide

def dotdot : Name := ⟨[46, 46], zero_notMem_dots⟩

/-! ## The climb -/

/-- The variables of the loop of `sfs_namefile`, and how often it has looked ".." up. -/
structure Climb where
  table : InodeTable
  node : ℕ
  iob : Iobuf
  ptr : ℕ
  resid : ℕ
  level : ℕ

/-- `sfs_namefile` from `failed` on. -/
def Climb.failed (c : Climb) (code : Error) : Outcome (Ret Unit × InodeTable × Iobuf) := do
  let table ← vopRefDec c.table c.node
  return (.error code, table, c.iob)

/-- `sfs_namefile` after its loop. -/
def Climb.finish (c : Climb) : Outcome (Ret Unit × InodeTable × Iobuf) := do
  let alen := c.iob.resid - c.resid - 2
  let data ← c.iob.load c.ptr alen
  let ptr := c.iob.base + 1
  let iob ← c.iob.store ptr data alen
  let iob ← iob.store (ptr - 1) (fun _ ↦ slash) 1
  let iob ← iob.store (ptr + alen) (fun _ ↦ 0) 1
  let iob ← iobufSkip iob alen
  return (.ok (), c.table, iob)

/-- One round of the loop. -/
def Climb.round (memory : ℕ → LookupMemory) (c : Climb) :
    Outcome (Climb ⊕ (Ret Unit × InodeTable × Iobuf)) := do
  let sin ← c.table.node c.node
  match ← c.table.sfsLookupOnce (memory c.level) c.node dotdot with
  | (.error code, table) => return .inr (← { c with table }.failed code)
  | (.ok parent, table) =>
    let ino := sin.ino
    let table ← vopRefDec table c.node
    if c.node = parent then
      let table ← vopRefDec table c.node
      return .inr (← { c with table }.finish)
    else
      let sin ← table.node parent
      Outcome.require (ino ≠ sin.ino ∧ sin.sin.type = SFS_TYPE_DIR)
      match ← table.sfsDirentFindinoNolock parent ino with
      | (.error code, table) => return .inr (← { c with table, node := parent }.failed code)
      | (.ok entry, table) =>
        -- `strlen`: the last byte of a name is zero
        let alen := strnlen entry.name (SFS_MAX_FNAME_LEN + 1) + 1
        if c.resid < alen then return .inr (← { c with table, node := parent }.failed .noMem)
        else
          let ptr := c.ptr - alen
          let iob ← c.iob.store ptr entry.name (alen - 1)
          let iob ← iob.store (ptr + (alen - 1)) (fun _ ↦ slash) 1
          return .inl ⟨table, parent, iob, ptr, c.resid - alen, c.level + 1⟩

/-- `sfs_namefile`, with whether there is memory for an entry. -/
def sfsNamefile (fuel : ℕ) (entry : Bool) (memory : ℕ → LookupMemory) (t : InodeTable) (n : ℕ)
    (iob : Iobuf) : Outcome (Ret Unit × InodeTable × Iobuf) := do
  if iob.resid ≤ 2 ∨ ¬entry then return (.error .noMem, t, iob)
  else
    let (_, table) ← inodeRefInc t n
    loop (Climb.round memory) fuel ⟨table, n, iob, iob.base + iob.resid, iob.resid - 2, 0⟩

/-! ## What the calls on a directory find -/

theorem bytes32_word32 (bytes : Bytes) {index : ℕ} (hindex : index < 4) :
    bytes32 (word32 bytes) index = bytes index := by
  apply UInt8.toNat_inj.mp
  have hzero := (bytes 0).toNat_lt
  have hone := (bytes 1).toNat_lt
  have htwo := (bytes 2).toNat_lt
  have hthree := (bytes 3).toNat_lt
  interval_cases index <;> simp only [bytes32, word32, UInt8.toNat_ofNat'] <;> omega

/-- A node whose inode has not changed is the same node. -/
theorem layInode_self (node : Node) : layInode node.din node.sin = node.din := by
  have hword : ∀ offset index, index < 4 →
      bytes32 (wordAt node.din offset) index = node.din (offset + index) :=
    fun _ _ hindex ↦ bytes32_word32 _ hindex
  funext index
  unfold layInode
  split_ifs with hsize hlinks hblocks hdirect hindirect
  · exact (hword 0 index hsize).trans (congrArg node.din (Nat.zero_add _))
  · rfl
  · exact (hword 8 (index - 8) (by omega)).trans (congrArg node.din (by omega))
  · exact (hword (12 + 4 * ((index - 12) / 4)) ((index - 12) % 4) (by omega)).trans
      (congrArg node.din (by omega))
  · exact (hword 60 (index - 60) (by omega)).trans (congrArg node.din (by omega))
  · rfl

theorem InodeTable.put_self {t : InodeTable} {n : ℕ} {node : Node} (h : t.nodes n = some node) :
    t.put n node t.sfs node.sin = t := by
  have hnode : { node with din := layInode node.din node.sin, dirty := node.sin.dirty } = node := by
    rw [layInode_self]
    rfl
  rw [InodeTable.put, hnode, InodeTable.set]
  have hself : Function.update t.nodes n (some node) = t.nodes := by
    rw [← h, Function.update_eq_self]
  simp only [hself]

/-- The first entry with a name. -/
def entryNamed (entries : List DiskEntry) (name : Name) : Option DiskEntry :=
  entries.find? fun entry ↦ strcmp name.1 entry.name = 0

/-- The first entry with a number. -/
def entryNumbered (entries : List DiskEntry) (ino : ℕ) : Option DiskEntry :=
  entries.find? fun entry ↦ entry.ino = ino

section Search

variable {s : SfsFs} {sin : SfsInode} {rest : ℕ → Prop}

theorem sfsDirentSearchFrom_eq (h : Owns s sin rest) (htype : sin.type = SFS_TYPE_DIR) (name : Name)
    {i left : ℕ} (hall : i + left = sin.blocks) :
    ∃ ret, sfsDirentSearchFrom name i left s sin = .ok (ret, s, sin) ∧
      ∀ entry, entryNamed (entriesFrom s sin i left) name = some entry →
        ∃ slot, ret = .ok (slot, entry.ino) := by
  -- induction on the slots that are left
  induction left generalizing i with
  | zero => exact ⟨_, rfl, nofun⟩
  | succ left ih =>
    rcases ih (show i + 1 + left = sin.blocks by omega) with ⟨ret, hcall, hret⟩
    rw [sfsDirentSearchFrom, sfsDirentReadNolock_eq h htype (by omega), Outcome.ok_bind,
      entriesFrom_succ]
    dsimp only
    by_cases hfree : (slotEntry s sin i).ino = 0
    · rw [if_pos hfree, if_neg (not_not.mpr hfree)]
      exact ⟨ret, hcall, hret⟩
    · rw [if_neg hfree, if_pos hfree, entryNamed, List.find?_cons]
      by_cases hname : strcmp name.1 (slotEntry s sin i).name = 0
      · rw [if_pos hname, decide_eq_true hname]
        refine ⟨_, rfl, fun entry hentry ↦ ?_⟩
        cases hentry
        exact ⟨i, rfl⟩
      · rw [if_neg hname, decide_eq_false hname]
        exact ⟨ret, hcall, hret⟩

theorem sfsDirentFindinoFrom_eq (h : Owns s sin rest) (htype : sin.type = SFS_TYPE_DIR) {ino : ℕ}
    (hpos : 0 < ino) {i left : ℕ} (hall : i + left = sin.blocks) :
    sfsDirentFindinoFrom ino i left s sin =
      .ok (match entryNumbered (entriesFrom s sin i left) ino with
        | some entry => .ok entry
        | none => .error .noEnt, s, sin) := by
  -- induction on the slots that are left
  induction left generalizing i with
  | zero => rfl
  | succ left ih =>
    rw [sfsDirentFindinoFrom, sfsDirentReadNolock_eq h htype (by omega), Outcome.ok_bind,
      entriesFrom_succ]
    dsimp only
    rw [ih (show i + 1 + left = sin.blocks by omega)]
    by_cases hino : (slotEntry s sin i).ino = ino
    · have hused : (slotEntry s sin i).ino ≠ 0 := hino ▸ hpos.ne'
      rw [if_pos hino, if_pos hused, entryNumbered, List.find?_cons, decide_eq_true hino]
      rfl
    · rw [if_neg hino]
      by_cases hfree : (slotEntry s sin i).ino = 0
      · rw [if_neg (not_not.mpr hfree)]
      · rw [if_pos hfree, entryNumbered, entryNumbered, List.find?_cons, decide_eq_false hino]

end Search

/-! ## Directories that name each other -/

/-- The inodes in memory are those of a consistent file system, and the disk has the others. -/
structure InodeTable.Mirrors (t : InodeTable) (m : Mount) : Prop where
  table : t.Consistent
  sfs : t.sfs = m.sfs
  mount : Fs.Consistent m
  stored : Stored m.inos m.sfs
  cached : ∀ n node, t.nodes n = some node → node.ino ∈ m.inos ∧
    diskInode node.din = { m.inode node.ino with dirty := false }
  unread : ∀ ino ∈ m.inos, (∀ n node, t.nodes n = some node → node.ino ≠ ino) →
    diskInode (m.sfs.dev.block ino) = { m.inode ino with dirty := false }

def Mount.entries (m : Mount) (ino : ℕ) : List DiskEntry := Fs.entries m.sfs (m.inode ino)

/-- The directory `ino` has an entry ".." for the directory `dir`. -/
structure Mount.UnderDir (m : Mount) (ino dir : ℕ) : Prop where
  mem : ino ∈ m.inos
  directory : (m.inode ino).type = SFS_TYPE_DIR
  above : (entryNamed (m.entries ino) dotdot).map DiskEntry.ino = some dir

/-- A directory of the tree below `root`, with the names on the way to it. Every one of them has a
right ".." and is named in the one above. -/
inductive Mount.PathTo (m : Mount) (root : ℕ) : ℕ → List Bytes → Prop
  | root (hroot : m.UnderDir root root) : m.PathTo root root []
  | child {dir ino : ℕ} {names : List Bytes} {entry : DiskEntry} (hdir : m.PathTo root dir names)
      (hunder : m.UnderDir ino dir) (hne : ino ≠ dir)
      (hentry : entryNumbered (m.entries dir) ino = some entry) :
      m.PathTo root ino (names ++ [entry.name])

section Mirrors

variable {t t' : InodeTable} {m : Mount} {root ino dir n k : ℕ} {node : Node} {names : List Bytes}

theorem Mount.PathTo.under (h : m.PathTo root ino names) : ∃ dir, m.UnderDir ino dir := by
  cases h with
  | root hroot => exact ⟨_, hroot⟩
  | child _ hunder _ _ => exact ⟨_, hunder⟩

theorem InodeTable.Mirrors.borrowed (h : t.Mirrors m) (hborrowed : Borrowed t t' ino n)
    (hino : ino ∈ m.inos) : t'.Mirrors m where
  table := hborrowed.consistent
  sfs := hborrowed.sfs.trans h.sfs
  mount := h.mount
  stored := h.stored
  cached := by
    intro k other hother
    by_cases hk : k = n
    · subst hk
      cases hborrowed.at_place.symm.trans hother
      cases hold : t.nodes k with
      | some node => exact h.cached k node hold
      | none =>
        refine ⟨hino, ?_⟩
        change diskInode (t.sfs.dev.block ino) = _
        rw [h.sfs]
        refine h.unread ino hino fun l node hnode hsame ↦ ?_
        obtain rfl := (hborrowed.named l node hnode).mp hsame
        cases hold.symm.trans hnode
    · rw [hborrowed.nodes, Function.update_of_ne hk] at hother
      exact h.cached k other hother
  unread := by
    intro other hother hno
    refine h.unread other hother fun k node hnode hsame ↦ ?_
    by_cases hk : k = n
    · subst hk
      refine hno k _ hborrowed.at_place ?_
      rw [hborrowed.node_ino, ← hsame]
      exact ((hborrowed.named k node hnode).mpr rfl).symm
    · refine hno k node ?_ hsame
      rw [hborrowed.nodes, Function.update_of_ne hk]
      exact hnode

theorem InodeTable.Mirrors.owns (h : t.Mirrors m) (hnode : t.nodes n = some node) :
    Owns t.sfs node.sin (m.rest node.ino) ∧ node.sin.type = (m.inode node.ino).type ∧
      Fs.entries t.sfs node.sin = m.entries node.ino := by
  rcases h.cached n node hnode with ⟨hino, hdin⟩
  have hsin : node.sin = { m.inode node.ino with dirty := node.dirty } := by
    rw [Node.sin, hdin]
  have howns := h.mount.owns hino
  rw [h.sfs, hsin]
  exact ⟨⟨howns.geometry, howns.blocks_le, howns.mapped, howns.unmapped, howns.nodup, howns.range,
    howns.apart, howns.inuse⟩, rfl, rfl⟩

/-- The lookup of "..": a reference to the directory above, or no memory. -/
theorem InodeTable.Mirrors.sfsLookupOnce (h : t.Mirrors m) (hnode : t.nodes n = some node)
    (hunder : m.UnderDir node.ino dir) (hdir : dir ∈ m.inos) (memory : LookupMemory) :
    (∃ k t', t.sfsLookupOnce memory n dotdot = .ok (.ok k, t') ∧ Borrowed t t' dir k) ∨
      t.sfsLookupOnce memory n dotdot = .ok (.error .noMem, t) ∧
        ¬(memory.entry = true ∧ memory.din = true ∧ memory.inode = true) := by
  rcases h.owns hnode with ⟨howns, htype, hentries⟩
  rw [hunder.directory] at htype
  have hlength : dotdot.1.length ≤ SFS_MAX_FNAME_LEN := by decide
  rw [InodeTable.sfsLookupOnce, InodeTable.node_eq hnode, Outcome.ok_bind, sfsDirentSearchNolock,
    Outcome.require_of_true hlength, Outcome.ok_bind]
  cases hmemory : memory.entry with
  | false =>
    refine Or.inr ⟨?_, nofun⟩
    simp only [Bool.false_eq_true, not_false_eq_true, if_true, Outcome.pure_eq_ok, Outcome.ok_bind,
      InodeTable.put_self hnode]
  | true =>
    rcases sfsDirentSearchFrom_eq howns htype dotdot (Nat.zero_add _) with ⟨ret, hcall, hret⟩
    rcases Option.map_eq_some_iff.mp hunder.above with ⟨entry, hentry, hino⟩
    rw [← hentries] at hentry
    rcases hret entry hentry with ⟨slot, rfl⟩
    simp only [not_true_eq_false, if_false, hcall, Outcome.ok_bind, InodeTable.put_self hnode, hino]
    rcases h.table.sfsLoadInode (h.sfs.symm ▸ h.stored) hdir memory.din memory.inode with
      ⟨k, t', hload, hborrowed⟩ | ⟨hload, hnot⟩
    · exact Or.inl ⟨k, t', hload, hborrowed⟩
    · exact Or.inr ⟨hload, fun hall ↦ hnot hall.2⟩

theorem InodeTable.Mirrors.sfsDirentFindinoNolock (h : t.Mirrors m) (hnode : t.nodes n = some node)
    (hdir : (m.inode node.ino).type = SFS_TYPE_DIR) {entry : DiskEntry} (hpos : 0 < ino)
    (hentry : entryNumbered (m.entries node.ino) ino = some entry) :
    t.sfsDirentFindinoNolock n ino = .ok (.ok entry, t) := by
  rcases h.owns hnode with ⟨howns, htype, hentries⟩
  rw [hdir] at htype
  rw [← hentries, Fs.entries] at hentry
  rw [InodeTable.sfsDirentFindinoNolock, InodeTable.node_eq hnode, Outcome.ok_bind,
    sfsDirentFindinoFrom_eq howns htype hpos (Nat.zero_add _), hentry]
  simp only [Outcome.ok_bind, Outcome.pure_eq_ok, InodeTable.put_self hnode]

end Mirrors

/-! ## Paths -/

/-- A name in an entry, without the final zero. -/
def nameString (bytes : Bytes) : Name where
  val := (List.range (strnlen bytes (SFS_MAX_FNAME_LEN + 1))).map bytes
  property := by
    intro hmem
    rcases List.mem_map.mp hmem with ⟨index, hindex, hzero⟩
    exact strnlen_ne_zero (List.mem_range.mp hindex) hzero

/-- The names, each with a slash after it. -/
def components (names : List Bytes) : List UInt8 := names.flatMap fun name ↦ (nameString name).1 ++ [slash]

/-- The path of a directory: the names on the way from the root to it, joined and surrounded by
slashes. -/
def pathString (names : List Bytes) : Name where
  val := slash :: components names
  property := by
    have hslash : (0 : UInt8) ≠ slash := by decide
    intro hmem
    rcases List.mem_flatMap.mp ((List.mem_cons.mp hmem).resolve_left hslash) with ⟨name, -, hname⟩
    rcases List.mem_append.mp hname with hbyte | hbyte
    · exact (nameString name).2 hbyte
    · exact hslash (List.mem_singleton.mp hbyte)

theorem holds_nameString (name : Bytes) : Holds name 0 (nameString name).1 := by
  intro index hindex
  simp [nameString]

theorem length_nameString (name : Bytes) :
    (nameString name).1.length = strnlen name (SFS_MAX_FNAME_LEN + 1) := by
  simp [nameString]

theorem components_concat (names : List Bytes) (name : Bytes) (rest : List UInt8) :
    components (names ++ [name]) ++ rest =
      components names ++ ((nameString name).1 ++ slash :: rest) := by
  simp [components, List.append_assoc]

/-! ## The climb -/

/-- The loop holds a reference to the directory `ino`, and the names below it are at the end of the
buffer. -/
structure Climbing (t : InodeTable) (iob : Iobuf) (ino : ℕ) (below : List UInt8) (c : Climb) : Prop where
  reference : Borrowed t c.table ino c.node
  buffer : c.iob = { iob with memory := c.iob.memory }
  outside : ∀ addr, addr < iob.base ∨ iob.base + iob.resid ≤ addr → c.iob.memory addr = iob.memory addr
  ptr : c.ptr + below.length = iob.base + iob.resid
  resid : c.resid + below.length + 2 = iob.resid
  below : Holds c.iob.memory c.ptr below

/-- What a call leaves: all counters as they were, nothing written outside of the buffer, and the
path in the buffer if the call succeeds. -/
structure NamesFile (t : InodeTable) (iob : Iobuf) (path : List UInt8) (ret : Ret Unit) (t' : InodeTable)
    (iob' : Iobuf) : Prop where
  restored : Restored t t'
  outside : ∀ addr, addr < iob.base ∨ iob.base + iob.resid ≤ addr → iob'.memory addr = iob.memory addr
  spells : ret = .ok () → Spells (fun index ↦ iob'.memory (iob.base + index)) path
  fits : ret = .ok () → path.length < iob.resid
  /-- The request goes on at the last slash, where the next name would come. -/
  skipped : ret = .ok () → iob' = { iob with
    memory := iob'.memory
    base := iob.base + (path.length - 1)
    offset := int64 (iob.offset + (path.length - 1 : ℕ))
    resid := iob.resid - (path.length - 1) }
  unchanged : ret ≠ .ok () → iob' = { iob with memory := iob'.memory }

section Climb

variable {t : InodeTable} {m : Mount} {iob : Iobuf} {root ino n : ℕ} {below : List UInt8} {c : Climb}
  {names : List Bytes}

theorem Iobuf.store_eq {addr len : ℕ} (data : Bytes) (hlow : iob.base ≤ addr)
    (hhigh : addr + len ≤ iob.base + iob.resid) :
    iob.store addr data len = .ok { iob with memory := overlay iob.memory data len addr } := by
  rw [Iobuf.store, Outcome.require_of_true ⟨hlow, hhigh⟩]
  rfl

theorem Iobuf.load_eq {addr len : ℕ} (hlow : iob.base ≤ addr)
    (hhigh : addr + len ≤ iob.base + iob.resid) :
    iob.load addr len = .ok fun index ↦ iob.memory (addr + index) := by
  rw [Iobuf.load, Outcome.require_of_true ⟨hlow, hhigh⟩]
  rfl

theorem Climbing.failed (h : Climbing t iob ino below c) (hmirrors : t.Mirrors m) (hino : ino ∈ m.inos)
    (hchecked : ∀ n node, t.nodes n = some node → node.Checked) (code : Error) (path : List UInt8) :
    ∃ t', c.failed code = .ok (.error code, t', c.iob) ∧
      NamesFile t iob path (.error code) t' c.iob := by
  have hvalid := hmirrors.stored.valid ino hino
  rw [← hmirrors.sfs] at hvalid
  rcases h.reference.giveBack (fun node hnode ↦ (hchecked _ node hnode).counted) hvalid with
    ⟨t', hcall, hrestored⟩
  refine ⟨t', ?_, hrestored, h.outside, nofun, nofun, nofun, fun _ ↦ h.buffer⟩
  rw [Climb.failed, hcall]
  rfl

theorem Climbing.finish (h : Climbing t iob ino below c) {t' : InodeTable} (hrestored : Restored t t') :
    ∃ iob', Climb.finish { c with table := t' } = .ok (.ok (), t', iob') ∧
      NamesFile t iob (slash :: below) (.ok ()) t' iob' := by
  have hptr := h.ptr
  have hresid := h.resid
  have hbelow := h.below
  have houtside := h.outside
  obtain ⟨table, node, buffer, ptr, resid, level⟩ := c
  obtain ⟨memory, rfl⟩ : ∃ memory, buffer = { iob with memory } := ⟨_, h.buffer⟩
  dsimp only at hptr hresid hbelow houtside
  let data : Bytes := fun index ↦ memory (ptr + index)
  let moved := overlay memory data below.length (iob.base + 1)
  let begun := overlay moved (fun _ ↦ slash) 1 iob.base
  let ended := overlay begun (fun _ ↦ 0) 1 (iob.base + 1 + below.length)
  have halen : iob.resid - resid - 2 = below.length := by omega
  have hload : Iobuf.load { iob with memory } ptr below.length = .ok data :=
    Iobuf.load_eq (by dsimp only; omega) (by dsimp only; omega)
  have hmove : Iobuf.store { iob with memory } (iob.base + 1) data below.length =
      .ok { iob with memory := moved } :=
    Iobuf.store_eq _ (by dsimp only; omega) (by dsimp only; omega)
  have hbegin : Iobuf.store { iob with memory := moved } iob.base (fun _ ↦ slash) 1 =
      .ok { iob with memory := begun } :=
    Iobuf.store_eq _ (by dsimp only; omega) (by dsimp only; omega)
  have hend : Iobuf.store { iob with memory := begun } (iob.base + 1 + below.length) (fun _ ↦ 0) 1 =
      .ok { iob with memory := ended } :=
    Iobuf.store_eq _ (by dsimp only; omega) (by dsimp only; omega)
  have hle : below.length ≤ iob.resid := by omega
  refine ⟨{ iob with
    memory := ended
    base := iob.base + below.length
    offset := int64 (iob.offset + below.length)
    resid := iob.resid - below.length }, ?_, hrestored, ?_, fun _ ↦ ?_, fun _ ↦ ?_, fun _ ↦ rfl,
    fun hnot ↦ absurd rfl hnot⟩
  · simp only [Climb.finish, halen, hload, hmove, Nat.add_sub_cancel, hbegin, hend, iobufSkip,
      Outcome.require_of_true hle, Outcome.ok_bind, Outcome.pure_eq_ok]
  · intro addr haddr
    have hlast : ended addr = begun addr := overlay_outside (by omega)
    have hfirst : begun addr = moved addr := overlay_outside (by omega)
    have hmiddle : moved addr = memory addr := overlay_outside (by omega)
    exact hlast.trans (hfirst.trans (hmiddle.trans (houtside addr haddr)))
  · have hslash : ended iob.base = slash := by
      have hlast : ended iob.base = begun iob.base := overlay_outside (by omega)
      exact hlast.trans (overlay_inside Nat.one_pos : begun (iob.base + 0) = slash)
    have hnames : Holds ended (iob.base + 1) below := by
      refine hbelow.congr fun index hindex ↦ ?_
      have hlast : ended (iob.base + 1 + index) = begun (iob.base + 1 + index) :=
        overlay_outside (by omega)
      have hfirst : begun (iob.base + 1 + index) = moved (iob.base + 1 + index) :=
        overlay_outside (by omega)
      exact hlast.trans (hfirst.trans (overlay_inside hindex))
    have hzero : ended (iob.base + (below.length + 1)) = 0 := by
      rw [Nat.add_comm below.length, ← Nat.add_assoc]
      exact (overlay_inside Nat.one_pos : ended (iob.base + 1 + below.length + 0) = 0)
    exact ⟨holds_cons.mpr ⟨hslash, hnames⟩, hzero⟩
  · rw [List.length_cons]
    omega

/-- One more name in front of the others. -/
theorem Climbing.push (h : Climbing t iob ino below c) {table : InodeTable} {dir k : ℕ} {name : Bytes}
    (hreference : Borrowed t table dir k) (hroom : (nameString name).1.length + 1 ≤ c.resid) :
    ∃ iob', (do
        let iob ← c.iob.store (c.ptr - ((nameString name).1.length + 1)) name (nameString name).1.length
        iob.store (c.ptr - ((nameString name).1.length + 1) + (nameString name).1.length)
          (fun _ ↦ slash) 1) = .ok iob' ∧
      Climbing t iob dir ((nameString name).1 ++ slash :: below)
        ⟨table, k, iob', c.ptr - ((nameString name).1.length + 1),
          c.resid - ((nameString name).1.length + 1), c.level + 1⟩ := by
  have hptr := h.ptr
  have hresid := h.resid
  have hbelow := h.below
  have houtside := h.outside
  obtain ⟨_, node, buffer, ptr, resid, level⟩ := c
  obtain ⟨memory, rfl⟩ : ∃ memory, buffer = { iob with memory } := ⟨_, h.buffer⟩
  dsimp only at hptr hresid hbelow houtside hroom ⊢
  have hholds := holds_nameString name
  generalize (nameString name).1 = bytes at hroom hholds ⊢
  obtain ⟨start, rfl⟩ : ∃ start, ptr = start + (bytes.length + 1) := ⟨ptr - (bytes.length + 1), by omega⟩
  rw [Nat.add_sub_cancel]
  let named := overlay memory name bytes.length start
  let ended := overlay named (fun _ ↦ slash) 1 (start + bytes.length)
  have hstore : Iobuf.store { iob with memory } start name bytes.length =
      .ok { iob with memory := named } :=
    Iobuf.store_eq _ (by dsimp only; omega) (by dsimp only; omega)
  have hslash : Iobuf.store { iob with memory := named } (start + bytes.length) (fun _ ↦ slash) 1 =
      .ok { iob with memory := ended } :=
    Iobuf.store_eq _ (by dsimp only; omega) (by dsimp only; omega)
  refine ⟨{ iob with memory := ended }, ?_, hreference, rfl, fun addr haddr ↦ ?_, ?_, ?_, ?_⟩
  · rw [hstore]
    exact hslash
  · have hlast : ended addr = named addr := overlay_outside (by omega)
    have hfirst : named addr = memory addr := overlay_outside (by omega)
    exact hlast.trans (hfirst.trans (houtside addr haddr))
  · rw [List.length_append, List.length_cons]
    dsimp only
    omega
  · rw [List.length_append, List.length_cons]
    dsimp only
    omega
  · refine holds_append.mpr ⟨hholds.congr fun index hindex ↦ ?_, holds_cons.mpr ⟨?_, ?_⟩⟩
    · have hlast : ended (start + index) = named (start + index) := overlay_outside (by omega)
      rw [Nat.zero_add]
      exact hlast.trans (overlay_inside hindex)
    · exact (overlay_inside Nat.one_pos : ended (start + bytes.length + 0) = slash)
    · refine hbelow.congr fun index hindex ↦ ?_
      have hlast : ended (start + bytes.length + 1 + index) =
          named (start + bytes.length + 1 + index) := overlay_outside (by omega)
      have hfirst : named (start + bytes.length + 1 + index) =
          memory (start + bytes.length + 1 + index) := overlay_outside (by omega)
      rw [← Nat.add_assoc start]
      exact hlast.trans hfirst

def LookupMemory.Granted (memory : LookupMemory) : Prop :=
  memory.entry = true ∧ memory.din = true ∧ memory.inode = true

/-- The lookup of ".." in a round: there is no memory and the call fails, or it has a reference to the
directory above. -/
theorem Climbing.lookup {dir : ℕ} (h : Climbing t iob ino below c) (hmirrors : t.Mirrors m)
    (hchecked : ∀ n node, t.nodes n = some node → node.Checked) (hunder : m.UnderDir ino dir)
    (hdir : dir ∈ m.inos) (memory : ℕ → LookupMemory) (path : List UInt8) :
    (∃ k table, c.table.sfsLookupOnce (memory c.level) c.node dotdot = .ok (.ok k, table) ∧
      Borrowed c.table table dir k) ∨
    ∃ t', c.round memory = .ok (.inr (.error .noMem, t', c.iob)) ∧
      NamesFile t iob path (.error .noMem) t' c.iob ∧ ¬(memory c.level).Granted := by
  have hnode := h.reference.at_place
  have hino := h.reference.node_ino
  rw [← hino] at hunder
  rcases (hmirrors.borrowed h.reference (hino ▸ hunder.mem)).sfsLookupOnce hnode hunder hdir
    (memory c.level) with hlookup | ⟨hlookup, hnot⟩
  · exact Or.inl hlookup
  · rcases h.failed hmirrors (hino ▸ hunder.mem) hchecked .noMem path with ⟨t', hfailed, hnames⟩
    refine Or.inr ⟨t', ?_, hnames, hnot⟩
    rw [Climb.round, InodeTable.node_eq hnode, Outcome.ok_bind, hlookup, Outcome.ok_bind]
    dsimp only
    rw [hfailed]
    rfl

/-- The last round: the directory above the root is the root. -/
theorem Climbing.round_root (h : Climbing t iob root below c) (hmirrors : t.Mirrors m)
    (hchecked : ∀ n node, t.nodes n = some node → node.Checked) (hunder : m.UnderDir root root)
    (memory : ℕ → LookupMemory) : ∃ ret t' iob', c.round memory = .ok (.inr (ret, t', iob')) ∧
      NamesFile t iob (slash :: below) ret t' iob' ∧ ((memory c.level).Granted → ret = .ok ()) := by
  rcases h.lookup hmirrors hchecked hunder hunder.mem memory (slash :: below) with
    ⟨k, table, hlookup, hborrowed⟩ | ⟨t', hround, hnames, hnot⟩
  · obtain rfl := (h.reference.place_iff hborrowed).mp rfl
    have hvalid := hmirrors.stored.valid root hunder.mem
    rw [← hmirrors.sfs] at hvalid
    rcases h.reference.giveBackBoth hborrowed (hchecked c.node) hvalid with
      ⟨middle, last, hfirst, hsecond, hrestored⟩
    rcases h.finish hrestored with ⟨iob', hfinish, hnames⟩
    refine ⟨.ok (), last, iob', ?_, hnames, fun _ ↦ rfl⟩
    rw [Climb.round, InodeTable.node_eq h.reference.at_place, Outcome.ok_bind, hlookup,
      Outcome.ok_bind]
    simp only [hfirst, hsecond, hfinish, Outcome.ok_bind, if_true, Outcome.pure_eq_ok]
  · exact ⟨_, t', _, hround, hnames, fun hgranted ↦ absurd hgranted hnot⟩

/-- Another round: the name of the directory is put in front, and the climb goes on above it. -/
theorem Climbing.round_child {dir : ℕ} {entry : DiskEntry} (h : Climbing t iob ino below c)
    (hmirrors : t.Mirrors m) (hchecked : ∀ n node, t.nodes n = some node → node.Checked)
    (hunder : m.UnderDir ino dir) (hne : ino ≠ dir) (hdir : dir ∈ m.inos)
    (htype : (m.inode dir).type = SFS_TYPE_DIR)
    (hentry : entryNumbered (m.entries dir) ino = some entry) (memory : ℕ → LookupMemory)
    (path : List UInt8) :
    (∃ c', c.round memory = .ok (.inl c') ∧
      Climbing t iob dir ((nameString entry.name).1 ++ slash :: below) c') ∨
    ∃ t', c.round memory = .ok (.inr (.error .noMem, t', c.iob)) ∧
      NamesFile t iob path (.error .noMem) t' c.iob ∧
      ((memory c.level).Granted → c.resid < (nameString entry.name).1.length + 1) := by
  rcases h.lookup hmirrors hchecked hunder hdir memory path with
    ⟨k, table, hlookup, hborrowed⟩ | ⟨t', hround, hnames, hnot⟩
  · have hrange := hmirrors.stored.range ino hunder.mem
    have hvalid := hmirrors.stored.valid ino hunder.mem
    rw [← hmirrors.sfs] at hvalid
    rcases h.reference.handOver hborrowed hne
      (fun node hnode ↦ (hchecked _ node hnode).counted) hvalid with ⟨last, hdec, hheld⟩
    have hplace : ¬c.node = k := fun heq ↦ hne ((h.reference.place_iff hborrowed).mpr heq)
    have hnode := hheld.at_place
    have hino := hheld.node_ino
    have habove := hmirrors.borrowed hheld hdir
    have hsin := (habove.owns hnode).2.1
    rw [hino, htype] at hsin
    have hfind : last.sfsDirentFindinoNolock k ino = .ok (.ok entry, last) := by
      rw [← hino] at htype hentry
      exact habove.sfsDirentFindinoNolock hnode htype hrange.1 hentry
    have hstart : c.round memory = do
        let alen := strnlen entry.name (SFS_MAX_FNAME_LEN + 1) + 1
        if c.resid < alen then return .inr (← Climb.failed { c with table := last, node := k } .noMem)
        else
          let ptr := c.ptr - alen
          let iob ← c.iob.store ptr entry.name (alen - 1)
          let iob ← iob.store (ptr + (alen - 1)) (fun _ ↦ slash) 1
          return .inl ⟨last, k, iob, ptr, c.resid - alen, c.level + 1⟩ := by
      have hchild : (borrowed t.sfs ino (t.nodes c.node)).ino ≠
          (borrowed t.sfs dir (t.nodes k)).ino := by
        rw [h.reference.node_ino, hino]
        exact hne
      rw [Climb.round, InodeTable.node_eq h.reference.at_place, Outcome.ok_bind, hlookup,
        Outcome.ok_bind]
      dsimp only
      rw [hdec, Outcome.ok_bind, if_neg hplace, InodeTable.node_eq hnode, Outcome.ok_bind,
        Outcome.require_of_true ⟨hchild, hsin⟩, Outcome.ok_bind, h.reference.node_ino, hfind]
      rfl
    rw [← length_nameString] at hstart
    by_cases hroom : (nameString entry.name).1.length + 1 ≤ c.resid
    · rcases h.push hheld hroom with ⟨iob', hstore, hclimbing⟩
      rcases Outcome.bind_eq_ok.mp hstore with ⟨named, hname, hslash⟩
      refine Or.inl ⟨_, ?_, hclimbing⟩
      rw [hstart]
      simp only [if_neg (not_lt.mpr hroom), Nat.add_sub_cancel, hname, hslash, Outcome.ok_bind,
        Outcome.pure_eq_ok]
    · have hkept : Climbing t iob dir below { c with table := last, node := k } :=
        ⟨hheld, h.buffer, h.outside, h.ptr, h.resid, h.below⟩
      rcases hkept.failed hmirrors hdir hchecked .noMem path with ⟨t', hfailed, hnames⟩
      refine Or.inr ⟨t', ?_, hnames, fun _ ↦ not_le.mp hroom⟩
      rw [hstart]
      simp only [if_pos (not_le.mp hroom), hfailed, Outcome.ok_bind, Outcome.pure_eq_ok]
  · exact Or.inr ⟨t', hround, hnames, fun hgranted ↦ absurd hgranted hnot⟩

theorem Mount.PathTo.climb (hpath : m.PathTo root ino names) (hmirrors : t.Mirrors m)
    (hchecked : ∀ n node, t.nodes n = some node → node.Checked) (memory : ℕ → LookupMemory)
    (h : Climbing t iob ino below c) : ∃ ret t' iob',
      Returns (fun fuel ↦ loop (Climb.round memory) fuel c) (ret, t', iob') ∧
      NamesFile t iob (slash :: (components names ++ below)) ret t' iob' ∧
      ((∀ level, (memory level).Granted) →
        (slash :: (components names ++ below)).length < iob.resid → ret = .ok ()) := by
  -- induction on the way to the root
  induction hpath generalizing below c with
  | root hroot =>
    rcases h.round_root hmirrors hchecked hroot memory with ⟨ret, t', iob', hround, hnames, hret⟩
    exact ⟨ret, t', iob', .loop_inr hround, hnames, fun hgranted _ ↦ hret (hgranted _)⟩
  | @child dir ino names entry hdir hunder hne hentry ih =>
    rcases hdir.under with ⟨_, habove⟩
    rcases h.round_child hmirrors hchecked hunder hne habove.mem habove.directory hentry memory
      (slash :: (components (names ++ [entry.name]) ++ below)) with
      ⟨c', hround, hclimbing⟩ | ⟨t', hround, hnames, hfull⟩
    · rcases ih hclimbing with ⟨ret, t', iob', hreturns, hnames, hret⟩
      rw [← components_concat] at hnames hret
      exact ⟨ret, t', iob', hreturns.loop_inl hround, hnames, hret⟩
    · refine ⟨_, t', _, .loop_inr hround, hnames, fun hgranted hfits ↦ ?_⟩
      have hsmall := hfull (hgranted _)
      have hresid := h.resid
      rw [components_concat] at hfits
      simp only [List.length_cons, List.length_append] at hfits
      omega

end Climb

/-- Whatever answers `kmalloc` gives and however long the buffer is, the call comes back with the
reference counts as they were, with nothing accessed outside of the buffer, and with an error or the
path of the directory in the buffer. It succeeds if there is memory and the path fits. -/
theorem sfsNamefile_path (t : InodeTable) (m : Mount) (hmirrors : t.Mirrors m)
    (hchecked : ∀ n node, t.nodes n = some node → node.Checked) (root ino n : ℕ) (names : List Bytes)
    (hpath : m.PathTo root ino names) (node : Node) (hnode : t.nodes n = some node)
    (hino : node.ino = ino) (hheld : 0 < node.refCount) (entry : Bool) (memory : ℕ → LookupMemory)
    (iob : Iobuf) : ∃ ret t' iob',
      Returns (fun fuel ↦ sfsNamefile fuel entry memory t n iob) (ret, t', iob') ∧
      NamesFile t iob (pathString names).1 ret t' iob' ∧
      (entry = true → (∀ level, (memory level).Granted) → 2 < iob.resid →
        (pathString names).1.length < iob.resid → ret = .ok ()) := by
  by_cases hstart : iob.resid ≤ 2 ∨ ¬entry = true
  · refine ⟨.error .noMem, t, iob, .of_eq fun fuel ↦ ?_, ?_, fun hentry _ hresid _ ↦ ?_⟩
    · rw [sfsNamefile, if_pos hstart]
      rfl
    · exact ⟨⟨hmirrors.table, rfl, rfl⟩, fun _ _ ↦ rfl, nofun, nofun, nofun, fun _ ↦ rfl⟩
    · exact absurd hstart (not_or.mpr ⟨not_le.mpr hresid, not_not.mpr hentry⟩)
  · rcases hmirrors.table.inodeRefInc hnode (hchecked n node hnode).counted hheld with
      ⟨table, hinc, hborrowed⟩
    have hresid : 2 < iob.resid := not_le.mp (not_or.mp hstart).1
    have hclimbing : Climbing t iob ino [] ⟨table, n, iob, iob.base + iob.resid, iob.resid - 2, 0⟩ :=
      ⟨hino ▸ hborrowed, rfl, fun _ _ ↦ rfl, rfl, by dsimp only [List.length_nil]; omega, holds_nil⟩
    rcases hpath.climb hmirrors hchecked memory hclimbing with ⟨ret, t', iob', hreturns, hnames, hret⟩
    rw [List.append_nil] at hnames hret
    refine ⟨ret, t', iob', hreturns.congr fun fuel ↦ ?_, hnames, fun _ hgranted _ ↦ hret hgranted⟩
    rw [sfsNamefile, if_neg hstart, hinc]
    rfl

/-! ### A directory below the root -/

/-- Two directories: the root in block 1 with the blocks 4 and 5, and "a" in block 3 with block 6. -/
def twoDirsBlock : ℕ → List UInt8
  | 1 => [0, 32, 0, 0, 2, 0, 2, 0, 2, 0, 0, 0, 4, 0, 0, 0, 5]
  | 3 => [0, 16, 0, 0, 2, 0, 1, 0, 1, 0, 0, 0, 6]
  | 4 => [1, 0, 0, 0, 46, 46]
  | 5 => [3, 0, 0, 0, 97]
  | 6 => [1, 0, 0, 0, 46, 46]
  | _ => []

def twoDirsSfs : SfsFs where
  blocks := 7
  unusedBlocks := 0
  freemap := ⟨SFS_BLKBITS, SFS_BLKBITS / WORD_BITS, fun _ ↦ 0#32⟩
  superDirty := false
  dev := ⟨7, fun b index ↦ (twoDirsBlock b).getD index 0⟩

def twoDirs : Mount := ⟨twoDirsSfs, [1, 3], fun ino ↦ diskInode (twoDirsSfs.dev.block ino)⟩

def twoDirsTable : InodeTable :=
  InodeTable.enter ⟨twoDirsSfs, fun _ ↦ none, fun _ ↦ [], [], 0, fun _ ↦ 0⟩
    ⟨3, twoDirsSfs.dev.block 3, false, 1, 1, 0⟩

theorem twoDirs_not_free (b : ℕ) : ¬twoDirsSfs.freemap.Free b := by
  simp [Bitmap.Free, twoDirsSfs]

theorem consistent_twoDirs : Consistent twoDirs := by
  have hcount : twoDirsSfs.freemap.freeCount = 0 := by
    rw [Bitmap.freeCount, Finset.filter_false_of_mem fun b _ ↦ twoDirs_not_free b, Finset.card_empty]
  have hinos : ∀ ino ∈ twoDirs.inos, ino = 1 ∨ ino = 3 := by decide
  constructor
  · exact ⟨⟨by decide, by decide⟩, by decide, by decide, by decide, by decide, hcount.symm⟩
  · intro ino hino
    rcases hinos ino hino with rfl | rfl <;> decide
  · intro ino hino
    rcases hinos ino hino with rfl | rfl <;> decide
  · intro ino hino index hlow _
    have hdirect : ∀ ino ∈ twoDirs.inos, ∀ index < SFS_NDIRECT, (twoDirs.inode ino).blocks ≤ index →
        blockAt twoDirs.sfs (twoDirs.inode ino) index = 0 := by decide
    have hindirect : ∀ ino ∈ twoDirs.inos, (twoDirs.inode ino).indirect = 0 := by decide
    by_cases hindex : index < SFS_NDIRECT
    · exact hdirect ino hino index hindex hlow
    · rw [blockAt, if_neg hindex, if_pos (hindirect ino hino)]
  · intro ino hino
    rcases hinos ino hino with rfl | rfl <;> decide
  · intro ino hino other hother hne
    rcases hinos ino hino with rfl | rfl <;> rcases hinos other hother with rfl | rfl <;>
      first | exact absurd rfl hne | decide
  · intro ino hino
    rcases hinos ino hino with rfl | rfl <;> decide
  · intro b hpos hlt
    refine (iff_false_left (twoDirs_not_free b)).mpr ?_
    have hall : ∀ b < 7, 0 < b → ¬(¬Reserved twoDirs.sfs b ∧ b ∉ twoDirs.inos ∧
        ∀ ino ∈ twoDirs.inos, b ∉ twoDirs.refs ino) := by decide
    exact hall b hlt hpos

theorem twoDirsTable_nodes {n : ℕ} {node : Node} (h : twoDirsTable.nodes n = some node) :
    n = 0 ∧ node = ⟨3, twoDirsSfs.dev.block 3, false, 1, 1, 0⟩ := by
  by_cases hn : n = 0
  · subst hn
    exact ⟨rfl, (Option.some.inj h).symm⟩
  · have hnone : twoDirsTable.nodes n = none := Function.update_of_ne hn ..
    cases hnone.symm.trans h

theorem mirrors_twoDirs : twoDirsTable.Mirrors twoDirs := by
  have hnone : (⟨twoDirsSfs, fun _ ↦ none, fun _ ↦ [], [], 0, fun _ ↦ 0⟩ : InodeTable).Consistent :=
    ⟨fun _ ↦ by simp, fun _ ↦ Nat.zero_le _, fun _ _ ↦ rfl, fun _ _ ↦ by simp,
      fun _ ↦ List.nodup_nil, nofun⟩
  have hvalid : ∀ ino ∈ twoDirs.inos, ValidInode (twoDirs.sfs.dev.block ino) := by
    unfold ValidInode
    decide
  refine ⟨hnone.enter nofun, rfl, consistent_twoDirs, ⟨consistent_twoDirs.geometry, by decide,
    fun ino _ ↦ twoDirs_not_free ino, hvalid⟩, fun n node hnode ↦ ?_, fun _ _ _ ↦ rfl⟩
  rw [(twoDirsTable_nodes hnode).2]
  exact ⟨by decide, rfl⟩

theorem pathTo_twoDirs : twoDirs.PathTo 1 3 [(slotEntry twoDirsSfs (twoDirs.inode 1) 1).name] := by
  have hroot : twoDirs.UnderDir 1 1 := ⟨by decide, by decide, by decide⟩
  have hunder : twoDirs.UnderDir 3 1 := ⟨by decide, by decide, by decide⟩
  exact .child (.root hroot) hunder (by decide) rfl

/-- Sixteen bytes have a place for "/a/". -/
theorem sfsNamefile_path_twoDirs : ∃ ret t' iob',
    Returns (fun fuel ↦ sfsNamefile fuel true (fun _ ↦ ⟨true, true, true⟩) twoDirsTable 0
      ⟨fun _ ↦ 0, 4096, 0, 16, 16⟩) (ret, t', iob') ∧
    NamesFile twoDirsTable ⟨fun _ ↦ 0, 4096, 0, 16, 16⟩ [47, 97, 47] ret t' iob' ∧ ret = .ok () := by
  have hchecked : ∀ n node, twoDirsTable.nodes n = some node → node.Checked := by
    intro n node hnode
    rw [(twoDirsTable_nodes hnode).2]
    exact ⟨rfl, Int.one_pos, (by decide : (1 : ℤ) < INT_MAX)⟩
  have hpath : (pathString [(slotEntry twoDirsSfs (twoDirs.inode 1) 1).name]).1 = [47, 97, 47] := by
    decide
  rcases sfsNamefile_path twoDirsTable twoDirs mirrors_twoDirs hchecked 1 3 0 _ pathTo_twoDirs _ rfl rfl
    Int.one_pos true (fun _ ↦ ⟨true, true, true⟩) ⟨fun _ ↦ 0, 4096, 0, 16, 16⟩ with
    ⟨ret, t', iob', hreturns, hnames, hret⟩
  rw [hpath] at hnames hret
  exact ⟨ret, t', iob', hreturns, hnames,
    hret rfl (fun _ ↦ ⟨rfl, rfl, rfl⟩) (by decide) (by decide)⟩

end Ucore.Fs
