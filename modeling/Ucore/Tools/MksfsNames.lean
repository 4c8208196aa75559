import Ucore.Tools.MksfsBlockMap

/-!
# The names in the directories of an image

`add_entry` writes as many bytes of an entry as a name may have, and the number of the inode takes
four of them: 252 bytes of the name are on the disk. The kernel looks for a name in one entry after
the other, and stops at an assertion when a directory goes beyond the indirect block.
-/

namespace Ucore.Tools

open Library Fs

/-- The bytes of a name for which there is room on the disk. -/
def NAME_BYTES : ℕ := SFS_MAX_FNAME_LEN + 1 - 4

/-- What is on the disk of a name. -/
def stored (name : Name) : Name := ⟨name.1.take NAME_BYTES, fun h ↦ name.2 (List.mem_of_mem_take h)⟩

theorem stored_eq_self {name : Name} (h : name.1.length ≤ NAME_BYTES) : stored name = name :=
  Subtype.ext (List.take_of_length_le h)

theorem length_stored_le (name : Name) : (stored name).1.length ≤ NAME_BYTES := by
  rw [stored, List.length_take]
  exact Nat.min_le_left ..

/-- The name of an entry as the kernel has it in memory. -/
def nameInMemory (block : Bytes) : Bytes :=
  Function.update (fun index ↦ block (4 + index)) Fs.SFS_MAX_FNAME_LEN 0

/-- The kernel has in memory what is on the disk of the name. -/
theorem HoldsEntry.spells {block : Bytes} {name : Name} {ino : ℕ} (h : HoldsEntry block name ino) :
    Spells (nameInMemory block) (stored name).1 := by
  have hbytes : NAME_BYTES = 252 := rfl
  have hmax : Fs.SFS_MAX_FNAME_LEN = 255 := rfl
  have hnear : ∀ index ≤ NAME_BYTES, nameInMemory block index = block (4 + index) :=
    fun index hindex ↦ Function.update_of_ne (by omega) ..
  have hlength : (stored name).1.length = min NAME_BYTES name.1.length := List.length_take
  refine ⟨fun index hindex ↦ ?_, ?_⟩
  · rw [hlength] at hindex
    rw [hnear index (by omega), h.bytes index (by unfold NAME_BYTES at hindex; omega) (by omega)]
    exact List.getElem_take.symm
  · rw [hnear _ (length_stored_le name), hlength]
    rcases Nat.lt_or_ge name.1.length NAME_BYTES with hshort | hlong
    · rw [Nat.min_eq_right hshort.le]
      exact h.stop hshort
    · rw [Nat.min_eq_left hlong]
      exact h.rest _ (by decide)

theorem HoldsEntry.strcmp {block : Bytes} {name : Name} {ino : ℕ} (h : HoldsEntry block name ino)
    (other : Name) : Ucore.strcmp other.1 (nameInMemory block) = 0 ↔ stored name = other := by
  rw [strcmp_eq_zero]
  constructor
  · exact fun hspells ↦ h.spells.unique hspells
  · rintro rfl
    exact h.spells

/-! ## Searching a directory -/

section Directory

variable {stSize : ℕ} {image : ℕ → Bytes} {sfs : Mksfs} {ledger : Ledger}
  {place : ℕ → Option Place} {s : SfsFs} {dir : ℕ} {name : Name}

/-- A directory of an image, with the entries that were added to it. -/
structure DirectoryOf (sfs : Mksfs) (ledger : Ledger) (dir : ℕ) (entries : List (Name × ℕ)) :
    Prop where
  cached : sfs.Cached dir
  type : (sfs.inode dir).inode.type = SFS_TYPE_DIR
  entries : ledger.entries dir = entries

variable {entries : List (Name × ℕ)}

theorem Reads.sfsDirentReadNolock (hreads : Reads sfs place s) (h : Built sfs ledger place)
    (hdir : DirectoryOf sfs ledger dir entries) {slot : ℕ} (hslot : slot < entries.length)
    (hmax : slot < MAX_BLOCKS) : ∃ block, HoldsEntry block entries[slot].1 entries[slot].2 ∧
      Fs.sfsDirentReadNolock s (Fs.diskInode (s.dev.block dir)) slot =
        .ok (.ok ⟨entries[slot].2, nameInMemory block⟩, s, Fs.diskInode (s.dev.block dir)) := by
  rcases hdir with ⟨hcached, hdir, rfl⟩
  have hlength := h.length dir hcached hdir
  rcases hreads.diskInode h hcached with ⟨htype, -, hblocks⟩
  have hindex : slot < (ledger.blocks dir).length := hlength ▸ hslot
  have hplaced := (h.maps dir hcached).placed slot hindex
  have hholds := h.holds dir hcached hdir slot hslot hindex
  have hdata := hreads.finished.data _ _ _ hplaced
  have hpos := Nat.pos_of_ne_zero (h.counted.ne_zero hplaced nofun)
  rcases hreads.inuse _ _ hplaced with ⟨hlt, hused⟩
  have hinuse : sfsBlockInuse s (ledger.blocks dir)[slot] = .ok true := by
    rw [sfsBlockInuse_eq hreads.geometry hpos hlt, decide_eq_false hused]
    rfl
  have hcreate : decide (slot = (Fs.diskInode (s.dev.block dir)).blocks) = false :=
    decide_eq_false (by omega)
  have hload : sfsBmapLoadNolock s (Fs.diskInode (s.dev.block dir)) slot =
      .ok (.ok (ledger.blocks dir)[slot], s, Fs.diskInode (s.dev.block dir)) := by
    rw [sfsBmapLoadNolock, Outcome.require_of_true (by omega), Outcome.ok_bind]
    simp only [hcreate]
    rw [hreads.sfsBmapGetNolock h hcached hindex hmax, Outcome.ok_bind]
    dsimp only
    rw [hinuse, Outcome.ok_bind, Outcome.require_of_true rfl]
    rfl
  refine ⟨sfs.image (ledger.blocks dir)[slot], hholds, ?_⟩
  have hino : wordAt (sfs.image (ledger.blocks dir)[slot]) 0 = (ledger.entries dir)[slot].2 :=
    hholds.ino
  rw [Fs.sfsDirentReadNolock, Outcome.require_of_true ⟨htype.trans hdir, by omega⟩, Outcome.ok_bind,
    hload, Outcome.ok_bind]
  dsimp only
  rw [hinuse, Outcome.ok_bind, Outcome.require_of_true rfl, Outcome.ok_bind,
    sfsRbuf_eq hreads.geometry hpos hlt (by decide) (by decide), Outcome.ok_bind]
  simp only [Nat.zero_add]
  rw [← hino, ← hdata]
  rfl

/-- One round of the search. -/
theorem Reads.search_round (hreads : Reads sfs place s) (h : Built sfs ledger place)
    (hdir : DirectoryOf sfs ledger dir entries) {i left : ℕ} (hi : i < entries.length)
    (hmax : i < MAX_BLOCKS) : sfsDirentSearchFrom name i (left + 1) s
        (Fs.diskInode (s.dev.block dir)) =
      if stored entries[i].1 = name then
        .ok (.ok (i, entries[i].2), s, Fs.diskInode (s.dev.block dir))
      else sfsDirentSearchFrom name (i + 1) left s (Fs.diskInode (s.dev.block dir)) := by
  rcases hreads.sfsDirentReadNolock h hdir hi hmax with ⟨block, hholds, hread⟩
  have hmem : entries[i] ∈ ledger.entries dir := by
    rw [hdir.entries]
    exact List.getElem_mem hi
  have hnamed := h.named dir _ hmem
  have hne : entries[i].2 ≠ 0 := h.counted.ne_zero ((h.counted.inode _).mp hnamed.1) nofun
  rw [sfsDirentSearchFrom, hread, Outcome.ok_bind]
  dsimp only
  rw [if_neg hne, if_congr (hholds.strcmp name) rfl rfl]
  rfl

theorem sfsBmapLoadNolock_beyond (s : SfsFs) {sin : SfsInode} {index : ℕ}
    (hlow : index ≤ sin.blocks) (hindex : MAX_BLOCKS ≤ index) :
    sfsBmapLoadNolock s sin index = .error .panic := by
  rw [sfsBmapLoadNolock, Outcome.require_of_true hlow, Outcome.ok_bind]
  dsimp only
  rw [sfsBmapGetNolock_beyond s sin hindex]
  rfl

/-- An entry is found when nothing before it has the name. -/
theorem Reads.search_found (hreads : Reads sfs place s) (h : Built sfs ledger place)
    (hdir : DirectoryOf sfs ledger dir entries) {i left slot : ℕ} (hi : i ≤ slot)
    (hleft : slot < i + left) (hslot : slot < entries.length) (hmax : slot < MAX_BLOCKS)
    (hname : stored entries[slot].1 = name)
    (hbefore : ∀ k < slot, i ≤ k → ∀ hk : k < entries.length, stored entries[k].1 ≠ name) :
    sfsDirentSearchFrom name i left s (Fs.diskInode (s.dev.block dir)) =
      .ok (.ok (slot, entries[slot].2), s, Fs.diskInode (s.dev.block dir)) := by
  induction left generalizing i with
  | zero => omega
  | succ left ih =>
    rw [hreads.search_round h hdir (by omega) (by omega)]
    by_cases heq : i = slot
    · subst heq
      rw [if_pos hname]
    · rw [if_neg (hbefore i (by omega) le_rfl (by omega))]
      exact ih (by omega) (by omega) fun k hk hlow ↦ hbefore k hk (by omega)

/-- Without an entry of the name the search goes to the end of the directory. -/
theorem Reads.search_missing (hreads : Reads sfs place s) (h : Built sfs ledger place)
    (hdir : DirectoryOf sfs ledger dir entries) {i left : ℕ} (hleft : i + left = entries.length)
    (hnone : ∀ k (hk : k < entries.length), i ≤ k → k < MAX_BLOCKS → stored entries[k].1 ≠ name) :
    sfsDirentSearchFrom name i left s (Fs.diskInode (s.dev.block dir)) =
      if left = 0 ∨ entries.length ≤ MAX_BLOCKS then
        .ok (.error .noEnt, s, Fs.diskInode (s.dev.block dir))
      else .error .panic := by
  induction left generalizing i with
  | zero =>
    rw [if_pos (Or.inl rfl)]
    rfl
  | succ left ih =>
    rcases Nat.lt_or_ge i MAX_BLOCKS with hmax | hmax
    · rw [hreads.search_round h hdir (by omega) hmax, if_neg (hnone i (by omega) le_rfl hmax),
        ih (by omega) fun k hk hlow ↦ hnone k hk (by omega)]
      refine if_congr ?_ rfl rfl
      constructor
      · rintro (hleft | hlength) <;> exact Or.inr (by omega)
      · rintro (hleft | hlength)
        · omega
        · exact Or.inr hlength
    · -- the first slot that the block map of the kernel does not reach
      rcases hreads.diskInode h hdir.cached with ⟨htype, -, hblocks⟩
      have hlength := h.length dir hdir.cached hdir.type
      rw [hdir.entries] at hlength
      have hlow : i < (Fs.diskInode (s.dev.block dir)).blocks := by omega
      have hread : Fs.sfsDirentReadNolock s (Fs.diskInode (s.dev.block dir)) i = .error .panic := by
        rw [Fs.sfsDirentReadNolock, Outcome.require_of_true ⟨htype.trans hdir.type, hlow⟩,
          Outcome.ok_bind, sfsBmapLoadNolock_beyond s hlow.le hmax]
        rfl
      rw [sfsDirentSearchFrom, hread, if_neg (by omega)]
      rfl

/-! ## Names that the kernel finds -/

/-- The kernel finds what was added to a directory, and nothing else. -/
structure NamesAgree (s : SfsFs) (sin : SfsInode) (entries : List (Name × ℕ)) : Prop where
  search : ∀ e ∈ entries, ∃ slot,
    sfsDirentSearchNolock true s sin e.1 = .ok (.ok (slot, e.2), s, sin)
  lookup : ∀ e ∈ entries, ∀ cached, ∃ found,
    sfsLookupOnce s sin cached true true true e.1 = .ok (.ok (e.2, found), s, sin)
  missing : ∀ name : Name, (∀ e ∈ entries, e.1 ≠ name) → name.1.length ≤ SFS_MAX_FNAME_LEN →
    sfsDirentSearchNolock true s sin name = .ok (.error .noEnt, s, sin) ∧
      ∀ cached, sfsLookupOnce s sin cached true true true name = .ok (.error .noEnt, s, sin)
  unnamed : ∀ name : Name, (∀ e ∈ entries, e.1 ≠ name) → ∀ found s' sin',
    sfsDirentSearchNolock true s sin name ≠ .ok (.ok found, s', sin')

/-- An inode that the kernel can load: no link, and its count of links is not zero in 16 bits. -/
def Loadable (sfs : Mksfs) (ledger : Ledger) (ino : ℕ) : Prop :=
  (sfs.inode ino).inode.type ≠ SFS_TYPE_LINK ∧ ledger.links ino % 2 ^ 16 ≠ 0

/-- The directories of an image in which the kernel finds its way. -/
structure Findable (sfs : Mksfs) (ledger : Ledger) (entries : List (Name × ℕ)) : Prop where
  length_le : entries.length ≤ MAX_BLOCKS
  names : ∀ e ∈ entries, e.1.1.length ≤ NAME_BYTES
  loadable : ∀ e ∈ entries, Loadable sfs ledger e.2

theorem Reads.search_eq (hreads : Reads sfs place s) (h : Built sfs ledger place)
    (hdir : DirectoryOf sfs ledger dir entries) (hname : name.1.length ≤ SFS_MAX_FNAME_LEN) :
    sfsDirentSearchNolock true s (Fs.diskInode (s.dev.block dir)) name =
      sfsDirentSearchFrom name 0 entries.length s (Fs.diskInode (s.dev.block dir)) := by
  have hblocks := (hreads.diskInode h hdir.cached).2.2
  have hlength := h.length dir hdir.cached hdir.type
  rw [hdir.entries] at hlength
  rw [sfsDirentSearchNolock, Outcome.require_of_true (show _ ≤ Fs.SFS_MAX_FNAME_LEN from hname),
    Outcome.ok_bind, hblocks, ← hlength]
  rfl

/-- An entry that the search comes to has the name on the disk. -/
theorem Reads.search_cases (hreads : Reads sfs place s) (h : Built sfs ledger place)
    (hdir : DirectoryOf sfs ledger dir entries) (hname : name.1.length ≤ SFS_MAX_FNAME_LEN) :
    (∃ slot, ∃ hslot : slot < entries.length, slot < MAX_BLOCKS ∧ stored entries[slot].1 = name ∧
      sfsDirentSearchNolock true s (Fs.diskInode (s.dev.block dir)) name =
        .ok (.ok (slot, entries[slot].2), s, Fs.diskInode (s.dev.block dir))) ∨
    (∀ k (hk : k < entries.length), k < MAX_BLOCKS → stored entries[k].1 ≠ name) ∧
      sfsDirentSearchNolock true s (Fs.diskInode (s.dev.block dir)) name =
        if entries.length ≤ MAX_BLOCKS then .ok (.error .noEnt, s, Fs.diskInode (s.dev.block dir))
        else .error .panic := by
  rw [hreads.search_eq h hdir hname]
  by_cases hany : ∃ k, ∃ hk : k < entries.length, k < MAX_BLOCKS ∧ stored entries[k].1 = name
  · -- the first slot with the name
    classical
    rcases Nat.find_spec hany with ⟨hslot, hmax, hstored⟩
    refine Or.inl ⟨Nat.find hany, hslot, hmax, hstored, hreads.search_found h hdir (Nat.zero_le _)
      (by omega) hslot hmax hstored fun k hk _ hlt heq ↦ ?_⟩
    exact Nat.find_min hany hk ⟨hlt, hk.trans hmax, heq⟩
  · have hnone : ∀ k (hk : k < entries.length), k < MAX_BLOCKS → stored entries[k].1 ≠ name :=
      fun k hk hmax heq ↦ hany ⟨k, hk, hmax, heq⟩
    refine Or.inr ⟨hnone, ?_⟩
    rw [hreads.search_missing h hdir (Nat.zero_add _) fun k hk _ hmax ↦ hnone k hk hmax]
    refine if_congr ⟨?_, Or.inr⟩ rfl rfl
    rintro (hzero | hlength)
    · rw [hzero]
      exact Nat.zero_le _
    · exact hlength

/-- An inode of the image that is not in memory yet is loaded when it can be. -/
theorem Reads.exists_sfsLoadInode_iff (hreads : Reads sfs place s) (h : Built sfs ledger place)
    {ino : ℕ} (hino : sfs.Cached ino) :
    (∃ found, sfsLoadInode s (fun _ ↦ none) true true ino = .ok (.ok found)) ↔
      Loadable sfs ledger ino := by
  have hplaced := (h.counted.inode ino).mp hino
  have hpos := Nat.pos_of_ne_zero (h.counted.ne_zero hplaced nofun)
  rcases hreads.inuse _ _ hplaced with ⟨hlt, hused⟩
  rcases hreads.diskInode h hino with ⟨htype, hnlinks, -⟩
  rw [h.nlinks ino hino] at hnlinks
  have hload : sfsLoadInode s (fun _ ↦ none) true true ino = (do
      Outcome.require (diskNlinks (s.dev.block ino) ≠ 0)
      Outcome.require ((Fs.diskInode (s.dev.block ino)).type = SFS_TYPE_DIR ∨
        (Fs.diskInode (s.dev.block ino)).type = SFS_TYPE_FILE)
      return .ok (Fs.diskInode (s.dev.block ino))) := by
    have hinuse : sfsBlockInuse s ino = .ok true := by
      rw [sfsBlockInuse_eq hreads.geometry hpos hlt, decide_eq_false hused]
      rfl
    rw [sfsLoadInode]
    dsimp only
    rw [if_neg (by decide), hinuse, Outcome.ok_bind, Outcome.require_of_true rfl, Outcome.ok_bind,
      sfsRbuf_eq hreads.geometry hpos hlt (by decide) (by decide), Outcome.ok_bind]
    simp only [Nat.zero_add, not_true_eq_false, if_false]
  rw [hload, htype, hnlinks, Loadable]
  constructor
  · rintro ⟨found, hcall⟩
    rcases Outcome.bind_eq_ok.mp hcall with ⟨_, hlinks, hcall⟩
    rcases Outcome.bind_eq_ok.mp hcall with ⟨_, hops, -⟩
    refine ⟨fun hlink ↦ ?_, Outcome.require_eq_ok.mp hlinks⟩
    rcases Outcome.require_eq_ok.mp hops with hdir | hfile
    · exact absurd (hlink.symm.trans hdir) (by decide)
    · exact absurd (hlink.symm.trans hfile) (by decide)
  · rintro ⟨hlink, hlinks⟩
    have hops : (sfs.inode ino).inode.type = SFS_TYPE_DIR ∨
        (sfs.inode ino).inode.type = SFS_TYPE_FILE := by
      rcases h.type ino hino with hdir | hfile | hsymlink
      · exact Or.inl hdir
      · exact Or.inr hfile
      · exact absurd hsymlink hlink
    rw [Outcome.require_of_true hlinks, Outcome.ok_bind, Outcome.require_of_true hops]
    exact ⟨_, rfl⟩

/-- A search that finds a number, and then the inode with it. -/
theorem sfsLookupOnce_of_search {sin : SfsInode} {slot ino : ℕ}
    (hsearch : sfsDirentSearchNolock true s sin name = .ok (.ok (slot, ino), s, sin))
    (cached : ℕ → Option SfsInode) : sfsLookupOnce s sin cached true true true name = (do
      let ret ← sfsLoadInode s cached true true ino
      return (ret.map fun found ↦ (ino, found), s, sin)) := by
  rw [sfsLookupOnce, hsearch]
  rfl

/-- The names that were added to a directory. -/
theorem DirectoryOf.named (hdir : DirectoryOf sfs ledger dir entries) (h : Built sfs ledger place)
    {e : Name × ℕ} (he : e ∈ entries) : sfs.Cached e.2 ∧ e.1.1.length ≤ SFS_MAX_FNAME_LEN :=
  h.named dir e (hdir.entries ▸ he)

/-! ### What is found fits -/

theorem NamesAgree.names (hagree : NamesAgree s (Fs.diskInode (s.dev.block dir)) entries)
    (hreads : Reads sfs place s) (h : Built sfs ledger place)
    (hdir : DirectoryOf sfs ledger dir entries) : ∀ e ∈ entries, e.1.1.length ≤ NAME_BYTES := by
  intro e he
  rcases hagree.search e he with ⟨slot, hfound⟩
  rcases hreads.search_cases h hdir (hdir.named h he).2 with
    ⟨slot', hslot, -, hstored, -⟩ | ⟨-, hcall⟩
  · rw [← hstored]
    exact length_stored_le _
  · rw [hfound] at hcall
    split at hcall <;> cases hcall

theorem NamesAgree.length_le (hagree : NamesAgree s (Fs.diskInode (s.dev.block dir)) entries)
    (hreads : Reads sfs place s) (h : Built sfs ledger place)
    (hdir : DirectoryOf sfs ledger dir entries) (hnodup : (entries.map Prod.fst).Nodup) :
    entries.length ≤ MAX_BLOCKS := by
  by_contra hlong
  have hlast : MAX_BLOCKS < entries.length := Nat.not_le.mp hlong
  have he : entries[MAX_BLOCKS] ∈ entries := List.getElem_mem hlast
  rcases hagree.search _ he with ⟨slot, hfound⟩
  rcases hreads.search_cases h hdir (hdir.named h he).2 with
    ⟨slot', hslot, hmax, hstored, -⟩ | ⟨-, hcall⟩
  · have hmem := List.getElem_mem hslot
    rw [stored_eq_self (hagree.names hreads h hdir _ hmem)] at hstored
    have heq : entries[slot'] = entries[MAX_BLOCKS] := List.inj_on_of_nodup_map hnodup hmem he hstored
    exact hmax.ne ((hnodup.of_map _).getElem_inj_iff.mp heq)
  · rw [hfound, if_neg hlong] at hcall
    cases hcall

theorem NamesAgree.loadable (hagree : NamesAgree s (Fs.diskInode (s.dev.block dir)) entries)
    (hreads : Reads sfs place s) (h : Built sfs ledger place)
    (hdir : DirectoryOf sfs ledger dir entries) : ∀ e ∈ entries, Loadable sfs ledger e.2 := by
  intro e he
  rcases hagree.search e he with ⟨slot, hfound⟩
  rcases hagree.lookup e he fun _ ↦ none with ⟨found, hlookup⟩
  rw [sfsLookupOnce_of_search hfound] at hlookup
  rcases Outcome.bind_eq_ok.mp hlookup with ⟨ret, hload, heq⟩
  apply (hreads.exists_sfsLoadInode_iff h (hdir.named h he).1).mp
  cases ret with
  | error code => cases heq
  | ok sin => exact ⟨sin, hload⟩

/-! ### What fits is found -/

theorem Findable.search (hfindable : Findable sfs ledger entries) (hreads : Reads sfs place s)
    (h : Built sfs ledger place) (hdir : DirectoryOf sfs ledger dir entries)
    (hnodup : (entries.map Prod.fst).Nodup) {e : Name × ℕ} (he : e ∈ entries) :
    ∃ slot, sfsDirentSearchNolock true s (Fs.diskInode (s.dev.block dir)) e.1 =
      .ok (.ok (slot, e.2), s, Fs.diskInode (s.dev.block dir)) := by
  rcases hreads.search_cases h hdir (hdir.named h he).2 with
    ⟨slot, hslot, -, hname, hcall⟩ | ⟨hnone, -⟩
  · have hmem := List.getElem_mem hslot
    rw [stored_eq_self (hfindable.names _ hmem)] at hname
    rw [List.inj_on_of_nodup_map hnodup hmem he hname] at hcall
    exact ⟨slot, hcall⟩
  · rcases List.mem_iff_getElem.mp he with ⟨k, hk, rfl⟩
    exact absurd (stored_eq_self (hfindable.names _ he)) (hnone k hk (hk.trans_le hfindable.length_le))

theorem Findable.lookup (hfindable : Findable sfs ledger entries) (hreads : Reads sfs place s)
    (h : Built sfs ledger place) (hdir : DirectoryOf sfs ledger dir entries)
    (hnodup : (entries.map Prod.fst).Nodup) {e : Name × ℕ} (he : e ∈ entries)
    (cached : ℕ → Option SfsInode) : ∃ found,
      sfsLookupOnce s (Fs.diskInode (s.dev.block dir)) cached true true true e.1 =
        .ok (.ok (e.2, found), s, Fs.diskInode (s.dev.block dir)) := by
  rcases hfindable.search hreads h hdir hnodup he with ⟨slot, hfound⟩
  rw [sfsLookupOnce_of_search hfound]
  cases hcached : cached e.2 with
  | some sin =>
    rw [sfsLoadInode, hcached]
    exact ⟨sin, rfl⟩
  | none =>
    rcases (hreads.exists_sfsLoadInode_iff h (hdir.named h he).1).mpr (hfindable.loadable e he) with
      ⟨sin, hload⟩
    have hsame : sfsLoadInode s cached true true e.2 =
        sfsLoadInode s (fun _ ↦ none) true true e.2 := by
      rw [sfsLoadInode, sfsLoadInode, hcached]
    rw [hsame, hload]
    exact ⟨sin, rfl⟩

theorem Findable.missing (hfindable : Findable sfs ledger entries) (hreads : Reads sfs place s)
    (h : Built sfs ledger place) (hdir : DirectoryOf sfs ledger dir entries)
    (hnone : ∀ e ∈ entries, e.1 ≠ name) (hname : name.1.length ≤ SFS_MAX_FNAME_LEN) :
    sfsDirentSearchNolock true s (Fs.diskInode (s.dev.block dir)) name =
      .ok (.error .noEnt, s, Fs.diskInode (s.dev.block dir)) := by
  rcases hreads.search_cases h hdir hname with ⟨slot, hslot, -, heq, -⟩ | ⟨-, hcall⟩
  · have hmem := List.getElem_mem hslot
    rw [stored_eq_self (hfindable.names _ hmem)] at heq
    exact absurd heq (hnone _ hmem)
  · rwa [if_pos hfindable.length_le] at hcall

/-- The kernel finds what was added to a directory exactly when all names fit on the disk, the
directory needs no double-indirect block, and the kernel can load what is named. -/
theorem namesAgree_iff (h : Build stSize image sfs ledger) (hboots : Boots sfs s)
    (hdir : DirectoryOf sfs ledger dir entries) (hnodup : (entries.map Prod.fst).Nodup) :
    NamesAgree s (Fs.diskInode (s.dev.block dir)) entries ↔ Findable sfs ledger entries := by
  rcases h.built with ⟨place, hbuilt⟩
  have hreads := hboots.reads hbuilt
  constructor
  · intro hagree
    exact ⟨hagree.length_le hreads hbuilt hdir hnodup, hagree.names hreads hbuilt hdir,
      hagree.loadable hreads hbuilt hdir⟩
  · intro hfindable
    refine ⟨fun e he ↦ hfindable.search hreads hbuilt hdir hnodup he,
      fun e he cached ↦ hfindable.lookup hreads hbuilt hdir hnodup he cached,
      fun name hnone hname ↦ ?_, fun name hnone found s' sin' hcall ↦ ?_⟩
    · have hcall := hfindable.missing hreads hbuilt hdir hnone hname
      refine ⟨hcall, fun cached ↦ ?_⟩
      rw [sfsLookupOnce, hcall]
      rfl
    · by_cases hname : name.1.length ≤ SFS_MAX_FNAME_LEN
      · cases (hfindable.missing hreads hbuilt hdir hnone hname).symm.trans hcall
      · rw [sfsDirentSearchNolock,
          Outcome.require_of_false (show ¬_ ≤ Fs.SFS_MAX_FNAME_LEN from hname)] at hcall
        cases hcall

end Directory

/-! ### A directory with one name -/

/-- A name of `count` letters. -/
def longName (count : ℕ) : Name :=
  ⟨List.replicate count 97, fun h ↦ absurd (List.eq_of_mem_replicate h) (by decide)⟩

/-- An image of eight blocks with one empty file, which has one name in the root directory. -/
theorem exists_build_name (count : ℕ) (hcount : count ≤ SFS_MAX_FNAME_LEN) : ∃ sfs ledger,
    Build 32768 (fun _ _ ↦ 0) sfs ledger ∧
      DirectoryOf sfs ledger SFS_BLKN_ROOT [(longName count, 3)] ∧ Loadable sfs ledger 3 := by
  have hninos : imageBlocks 32768 = 8 := by decide
  have hroom : firstIno (imageBlocks 32768) < imageBlocks 32768 := by
    rw [hninos]
    decide
  have hfirst := build_first hroom fun _ _ ↦ 0
  rw [hninos] at hfirst
  rcases hfirst.built with ⟨place, hbuilt⟩
  let sfs := (Mksfs.first 8 fun _ _ ↦ 0).addInode 7 SFS_TYPE_FILE
  have hinode : allocCacheInode (.first 8 fun _ _ ↦ 0) 7 0 SFS_TYPE_FILE = .ok (3, sfs) := by
    rw [allocCacheInode, if_neg (not_not.mpr rfl), sfsAllocIno_eq hbuilt.counted (by decide)]
    rfl
  have hbuild : Build 32768 (fun _ _ ↦ 0) sfs .empty :=
    hfirst.step (.inode (Or.inr (Or.inl rfl)) hinode)
  rcases hbuild.built with ⟨place', hbuilt'⟩
  have hcached : ∀ ino, sfs.Cached ino ↔ ino = 3 ∨ ino = SFS_BLKN_ROOT := by
    intro ino
    refine (mem_bucket_cons _ (hash32_lt _) ino).trans (or_congr Iff.rfl ?_)
    refine (mem_bucket_cons _ (hash32_lt _) ino).trans ?_
    simp
  have hroot := (hcached SFS_BLKN_ROOT).mpr (Or.inr rfl)
  have hfile := (hcached 3).mpr (Or.inl rfl)
  have hname : (longName count).1.length ≤ SFS_MAX_FNAME_LEN := by
    rw [longName, List.length_replicate]
    exact hcount
  rcases hbuilt'.exists_addEntry 3 _ hroot rfl hname (by decide) (by decide) with
    ⟨sfs', hcall⟩
  rcases hbuilt'.entry hroot hfile hcall with ⟨place'', hbuilt''⟩
  have htypes := addEntry_types hbuilt' hroot hcall
  refine ⟨sfs', _, hbuild.step (.entry hroot hfile hcall), ⟨?_, ?_, rfl⟩, ?_,
    show 1 % 2 ^ 16 ≠ 0 by decide⟩
  · exact (htypes SFS_BLKN_ROOT).1.mpr hroot
  · exact (htypes SFS_BLKN_ROOT).2
  · rw [(htypes 3).2]
    decide

/-- A name of 252 letters is found. -/
theorem namesAgree_iff_longName : ∃ sfs ledger s, Build 32768 (fun _ _ ↦ 0) sfs ledger ∧
    NamesAgree s (Fs.diskInode (s.dev.block SFS_BLKN_ROOT)) [(longName 252, 3)] := by
  rcases exists_build_name 252 (by decide) with ⟨sfs, ledger, hbuild, hdir, hloadable⟩
  rcases hbuild.built with ⟨place, hbuilt⟩
  rcases exists_boots hbuilt with ⟨s, hboots⟩
  refine ⟨sfs, ledger, s, hbuild,
    (namesAgree_iff hbuild hboots hdir (List.nodup_singleton _)).mpr ⟨by decide, ?_, ?_⟩⟩
  · intro e he
    rw [List.mem_singleton.mp he, longName, List.length_replicate]
    decide
  · intro e he
    rw [List.mem_singleton.mp he]
    exact hloadable

/-- A name of 253 letters is accepted, and the kernel does not find it. -/
theorem not_namesAgree : ¬∀ (stSize : ℕ) (image : ℕ → Bytes) (sfs : Mksfs) (ledger : Ledger)
    (s : SfsFs) (dir : ℕ) (entries : List (Name × ℕ)), Build stSize image sfs ledger →
      Boots sfs s → DirectoryOf sfs ledger dir entries → (entries.map Prod.fst).Nodup →
        NamesAgree s (Fs.diskInode (s.dev.block dir)) entries := by
  intro hagree
  rcases exists_build_name 253 (by decide) with ⟨sfs, ledger, hbuild, hdir, -⟩
  rcases hbuild.built with ⟨place, hbuilt⟩
  rcases exists_boots hbuilt with ⟨s, hboots⟩
  have hnames := (hagree _ _ sfs ledger s _ _ hbuild hboots hdir (List.nodup_singleton _)).names
    (hboots.reads hbuilt) hbuilt hdir _ (List.mem_singleton.mpr rfl)
  rw [longName, List.length_replicate] at hnames
  exact absurd hnames (by decide)

end Ucore.Tools
