import Ucore.Tools.Mksfs

/-!
# What the blocks of an image are for

Each number that `sfs_alloc_ino` hands out gets one place in the file system. `Counted` keeps the
places of all numbers up to the next one, and `Maps` says that the block map of one file leads to
the blocks that were appended to it. An append changes the cached blocks of its own file only.
-/

namespace Ucore.Tools

open Library Fs

/-- What a block is for. -/
inductive Place where
  | super
  | freemap (index : ℕ)
  | inode (ino : ℕ)
  | indirect (ino : ℕ)
  | dbIndirect (ino : ℕ)
  /-- An entry block below the double-indirect block. -/
  | level (ino index : ℕ)
  | data (ino index : ℕ)
  deriving DecidableEq, Repr

/-- The inode that a place is a part of. -/
def Place.file : Place → Option ℕ
  | .super | .freemap _ | .inode _ => none
  | .indirect ino | .dbIndirect ino | .level ino _ | .data ino _ => some ino

/-- A place for a block of numbers. -/
def Place.IsTable : Place → Prop
  | .indirect _ | .dbIndirect _ | .level .. => True
  | _ => False

/-- The inode is in a hash list. -/
def Mksfs.Cached (sfs : Mksfs) (ino : ℕ) : Prop := ∃ i < HASH_LIST_SIZE, ino ∈ sfs.inodes i

/-- The block is in a hash list. -/
def Mksfs.CachedBlock (sfs : Mksfs) (cb : ℕ) : Prop := ∃ i < HASH_LIST_SIZE, cb ∈ sfs.cacheBlocks i

/-- The blocks of the free map. -/
def Mksfs.freemapBlocks (sfs : Mksfs) : ℕ := (sfs.ninos + SFS_BLKBITS - 1) / SFS_BLKBITS

/-- Every number below the next one has at most one place, and the hash lists hold what is to be
written out. -/
structure Counted (sfs : Mksfs) (place : ℕ → Option Place) : Prop where
  ninos_le : sfs.ninos ≤ SFS_MAX_NBLKS
  blocks : sfs.blocks = sfs.ninos
  nextIno_le : sfs.nextIno ≤ sfs.ninos
  first_le : SFS_BLKN_FREEMAP + sfs.freemapBlocks ≤ sfs.nextIno
  unusedBlocks : sfs.unusedBlocks + sfs.nextIno = sfs.ninos
  lt : ∀ b p, place b = some p → b < sfs.nextIno
  super : place SFS_BLKN_SUPER = some .super
  freemap : ∀ index < sfs.freemapBlocks, place (SFS_BLKN_FREEMAP + index) = some (.freemap index)
  inode : ∀ ino, sfs.Cached ino ↔ place ino = some (.inode ino)
  table : ∀ cb, sfs.CachedBlock cb ↔ ∃ p, place cb = some p ∧ p.IsTable

/-- The places are still what they were. -/
def Keeps (place place' : ℕ → Option Place) : Prop := ∀ b p, place b = some p → place' b = some p

theorem Keeps.refl (place : ℕ → Option Place) : Keeps place place := fun _ _ h ↦ h

theorem Keeps.trans {place place' place'' : ℕ → Option Place} (h : Keeps place place')
    (h' : Keeps place' place'') : Keeps place place'' := fun b p hb ↦ h' b p (h b p hb)

theorem Keeps.update {place : ℕ → Option Place} {b : ℕ} (h : place b = none) (p : Option Place) :
    Keeps place (Function.update place b p) := by
  intro c q hc
  have hne : c ≠ b := by
    rintro rfl
    cases h.symm.trans hc
  rw [Function.update_of_ne hne, hc]

theorem hash32_lt (val : ℕ) : hash32 val < HASH_LIST_SIZE := by
  unfold hash32 HASH_LIST_SIZE HASH_SHIFT uint32
  omega

/-! ## Handing out numbers -/

section Alloc

variable {sfs sfs' : Mksfs} {place : ℕ → Option Place} {b real type : ℕ}

theorem Counted.none_nextIno (h : Counted sfs place) : place sfs.nextIno = none := by
  cases hplace : place sfs.nextIno with
  | none => rfl
  | some p => exact absurd (h.lt _ p hplace) (Nat.lt_irrefl _)

/-- Numbers of places are not zero, except that of the superblock. -/
theorem Counted.ne_zero (h : Counted sfs place) {p : Place} (hb : place b = some p)
    (hp : p ≠ .super) : b ≠ 0 := by
  rintro rfl
  exact hp (Option.some.inj (hb.symm.trans h.super))

/-- Nothing else than the number of blocks, the two counters and the hash lists is looked at. -/
theorem Counted.of_fields (h : Counted sfs place) (hninos : sfs'.ninos = sfs.ninos)
    (hblocks : sfs'.blocks = sfs.blocks) (hnext : sfs'.nextIno = sfs.nextIno)
    (hunused : sfs'.unusedBlocks = sfs.unusedBlocks) (hinodes : sfs'.inodes = sfs.inodes)
    (hcached : sfs'.cacheBlocks = sfs.cacheBlocks) : Counted sfs' place := by
  rcases h with ⟨h1, h2, h3, h4, h5, h6, h7, h8, h9, h10⟩
  unfold Mksfs.freemapBlocks Mksfs.Cached Mksfs.CachedBlock at *
  rw [← hninos] at h1 h2 h3 h4 h5 h8
  rw [← hblocks] at h2
  rw [← hnext] at h3 h4 h5 h6
  rw [← hunused] at h5
  rw [← hinodes] at h9
  rw [← hcached] at h10
  exact ⟨h1, h2, h3, h4, h5, h6, h7, h8, h9, h10⟩

/-- The state after `sfs_alloc_ino`. -/
def Mksfs.taken (sfs : Mksfs) : Mksfs :=
  { sfs with unusedBlocks := sfs.unusedBlocks - 1, nextIno := sfs.nextIno + 1 }

theorem sfsAllocIno_ok (h : Counted sfs place) (hcall : sfsAllocIno sfs = .ok (b, sfs')) :
    sfs.nextIno < sfs.ninos ∧ b = sfs.nextIno ∧ sfs' = sfs.taken := by
  rcases Outcome.bind_eq_ok.mp hcall with ⟨_, hroom, heq⟩
  have hroom := Outcome.require_eq_ok.mp hroom
  have hmax := h.ninos_le
  have hunused := h.unusedBlocks
  unfold SFS_MAX_NBLKS at hmax
  have hnext : uint32 (sfs.nextIno + 1) = sfs.nextIno + 1 := uint32_of_lt (by omega)
  have hless : uint32Sub sfs.unusedBlocks 1 = sfs.unusedBlocks - 1 := by
    unfold uint32Sub uint32
    omega
  rw [hnext, hless] at heq
  cases heq
  exact ⟨hroom, rfl, rfl⟩

theorem sfsAllocIno_eq (h : Counted sfs place) (hroom : sfs.nextIno < sfs.ninos) :
    sfsAllocIno sfs = .ok (sfs.nextIno, sfs.taken) := by
  have hcall : Completes (sfsAllocIno sfs) := Completes.require hroom (Completes.ok _)
  rcases hcall with ⟨⟨b, sfs'⟩, hcall⟩
  rcases sfsAllocIno_ok h hcall with ⟨-, rfl, rfl⟩
  exact hcall

/-- A number gets a place, and the hash lists get it where the place asks for it. -/
theorem Counted.take (h : Counted sfs place) (hroom : sfs.nextIno < sfs.ninos) (p : Place)
    (hninos : sfs'.ninos = sfs.ninos) (hblocks : sfs'.blocks = sfs.blocks)
    (hnext : sfs'.nextIno = sfs.nextIno + 1) (hless : sfs'.unusedBlocks = sfs.unusedBlocks - 1)
    (hinode : ∀ ino, sfs'.Cached ino ↔ ino = sfs.nextIno ∧ p = .inode ino ∨ sfs.Cached ino)
    (htable : ∀ cb, sfs'.CachedBlock cb ↔ cb = sfs.nextIno ∧ p.IsTable ∨ sfs.CachedBlock cb) :
    Counted sfs' (Function.update place sfs.nextIno (some p)) := by
  have hnone := h.none_nextIno
  have hkeeps := Keeps.update hnone (some p)
  have hunused := h.unusedBlocks
  have hfirst := h.first_le
  have hfreemap : sfs'.freemapBlocks = sfs.freemapBlocks := by
    rw [Mksfs.freemapBlocks, hninos, Mksfs.freemapBlocks]
  refine ⟨hninos ▸ h.ninos_le, ?_, ?_, ?_, ?_, ?_, hkeeps _ _ h.super, ?_, ?_, ?_⟩
  · rw [hblocks, hninos, h.blocks]
  · omega
  · omega
  · omega
  · intro c q hc
    by_cases heq : c = sfs.nextIno
    · omega
    · rw [Function.update_of_ne heq] at hc
      have hlt := h.lt c q hc
      omega
  · intro index hindex
    exact hkeeps _ _ (h.freemap index (hfreemap ▸ hindex))
  · intro ino
    rw [hinode, h.inode]
    by_cases heq : ino = sfs.nextIno
    · subst heq
      rw [Function.update_self, hnone]
      simp
    · rw [Function.update_of_ne heq]
      simp [heq]
  · intro cb
    rw [htable, h.table]
    by_cases heq : cb = sfs.nextIno
    · subst heq
      rw [Function.update_self, hnone]
      simp
    · rw [Function.update_of_ne heq]
      simp [heq]

theorem Counted.data (h : Counted sfs place) (hroom : sfs.nextIno < sfs.ninos) (ino index : ℕ) :
    Counted sfs.taken (Function.update place sfs.nextIno (some (.data ino index))) :=
  h.take hroom (.data ino index) rfl rfl rfl rfl (fun _ ↦ by simp [Mksfs.taken, Mksfs.Cached])
    fun _ ↦ by simp [Mksfs.taken, Mksfs.CachedBlock, Place.IsTable]

/-- An element is put in front of the list of a bucket. -/
theorem mem_bucket_cons (lists : ℕ → List ℕ) {bucket first : ℕ} (hbucket : bucket < HASH_LIST_SIZE)
    (value : ℕ) : (∃ i < HASH_LIST_SIZE,
        value ∈ Function.update lists bucket (first :: lists bucket) i) ↔
      value = first ∨ ∃ i < HASH_LIST_SIZE, value ∈ lists i := by
  constructor
  · rintro ⟨i, hi, hmem⟩
    by_cases heq : i = bucket
    · rw [heq, Function.update_self] at hmem
      exact (List.mem_cons.mp hmem).imp_right fun hmem ↦ ⟨bucket, hbucket, hmem⟩
    · rw [Function.update_of_ne heq] at hmem
      exact Or.inr ⟨i, hi, hmem⟩
  · rintro (rfl | ⟨i, hi, hmem⟩)
    · exact ⟨bucket, hbucket, by rw [Function.update_self]; exact List.mem_cons_self⟩
    · refine ⟨i, hi, ?_⟩
      by_cases heq : i = bucket
      · rw [heq, Function.update_self]
        exact List.mem_cons_of_mem _ (heq ▸ hmem)
      · rwa [Function.update_of_ne heq]

/-- The state after `alloc_cache_block`. -/
def Mksfs.addBlock (sfs : Mksfs) : Mksfs :=
  { sfs.taken with
    cache := Function.update sfs.cache sfs.nextIno fun _ ↦ 0
    cacheBlocks := Function.update sfs.cacheBlocks (hash32 0)
      (sfs.nextIno :: sfs.cacheBlocks (hash32 0)) }

theorem allocCacheBlock_ok (h : Counted sfs place) (hcall : allocCacheBlock sfs 0 = .ok (b, sfs')) :
    sfs.nextIno < sfs.ninos ∧ b = sfs.nextIno ∧ sfs' = sfs.addBlock := by
  rcases Outcome.bind_eq_ok.mp hcall with ⟨⟨b', sfs''⟩, halloc, heq⟩
  rcases sfsAllocIno_ok h halloc with ⟨hroom, rfl, rfl⟩
  cases heq
  exact ⟨hroom, rfl, rfl⟩

theorem allocCacheBlock_eq (h : Counted sfs place) (hroom : sfs.nextIno < sfs.ninos) :
    allocCacheBlock sfs 0 = .ok (sfs.nextIno, sfs.addBlock) := by
  rw [allocCacheBlock, if_neg (not_not.mpr rfl), sfsAllocIno_eq h hroom]
  rfl

theorem Counted.addBlock (h : Counted sfs place) (hroom : sfs.nextIno < sfs.ninos) {p : Place}
    (hp : p.IsTable) : Counted sfs.addBlock (Function.update place sfs.nextIno (some p)) := by
  refine h.take hroom p rfl rfl rfl rfl (fun ino ↦ ?_) fun cb ↦ ?_
  · have hne : p ≠ .inode ino := by
      rintro rfl
      exact hp
    simp [hne, Mksfs.addBlock, Mksfs.taken, Mksfs.Cached]
  · rw [and_iff_left hp]
    exact mem_bucket_cons _ (hash32_lt 0) cb

/-- The inode that `alloc_cache_inode` makes. -/
def CacheInode.new (real type ino : ℕ) : CacheInode :=
  ⟨⟨0, type, 0, 0, fun _ ↦ 0, 0, 0⟩, real, ino, 0, none, none⟩

/-- The state after `alloc_cache_inode`. -/
def Mksfs.addInode (sfs : Mksfs) (real type : ℕ) : Mksfs :=
  { sfs.taken with
    inode := Function.update sfs.inode sfs.nextIno (.new real type sfs.nextIno)
    inodes := Function.update sfs.inodes (hash64 real) (sfs.nextIno :: sfs.inodes (hash64 real)) }

theorem allocCacheInode_ok (h : Counted sfs place)
    (hcall : allocCacheInode sfs real 0 type = .ok (b, sfs')) :
    sfs.nextIno < sfs.ninos ∧ b = sfs.nextIno ∧ sfs' = sfs.addInode real type := by
  rcases Outcome.bind_eq_ok.mp hcall with ⟨⟨b', sfs''⟩, halloc, heq⟩
  rcases sfsAllocIno_ok h halloc with ⟨hroom, rfl, rfl⟩
  cases heq
  exact ⟨hroom, rfl, rfl⟩

theorem Counted.addInode (h : Counted sfs place) (hroom : sfs.nextIno < sfs.ninos) (real type : ℕ) :
    Counted (sfs.addInode real type)
      (Function.update place sfs.nextIno (some (.inode sfs.nextIno))) := by
  refine h.take hroom (.inode sfs.nextIno) rfl rfl rfl rfl (fun ino ↦ ?_) fun cb ↦ ?_
  · have hself : ino = sfs.nextIno ∧ Place.inode sfs.nextIno = .inode ino ↔ ino = sfs.nextIno :=
      ⟨fun hino ↦ hino.1, fun hino ↦ ⟨hino, by rw [hino]⟩⟩
    rw [hself]
    exact mem_bucket_cons _ (hash32_lt _) ino
  · simp [Mksfs.addInode, Mksfs.taken, Mksfs.CachedBlock, Place.IsTable]

end Alloc

/-! ## The block map of one file -/

/-- The block that a cached inode has for an index. -/
def CacheInode.blockAt (ci : CacheInode) (cache : ℕ → ℕ → ℕ) (index : ℕ) : ℕ :=
  if index < SFS_L0_NBLKS then ci.inode.direct index
  else if index < SFS_L1_NBLKS then cache ci.inode.indirect (index - SFS_L0_NBLKS)
  else cache (cache ci.inode.dbIndirect ((index - SFS_L1_NBLKS) / SFS_BLK_NENTRY))
    ((index - SFS_L1_NBLKS) % SFS_BLK_NENTRY)

/-- The cached inode `ino` leads to the blocks that were appended to it. -/
structure Maps (place : ℕ → Option Place) (cache : ℕ → ℕ → ℕ) (ino : ℕ) (ci : CacheInode)
    (blocks : List ℕ) : Prop where
  stored : ci.ino = ino
  nblks : ci.nblks = blocks.length
  count : ci.inode.blocks = blocks.length
  length_le : blocks.length ≤ SFS_LN_NBLKS
  data : ∀ index (h : index < blocks.length), ci.blockAt cache index = blocks[index]
  placed : ∀ index (h : index < blocks.length), place blocks[index] = some (.data ino index)
  indirect : SFS_L0_NBLKS < blocks.length → place ci.inode.indirect = some (.indirect ino)
  noIndirect : blocks.length ≤ SFS_L0_NBLKS → ci.inode.indirect = 0
  l1 : SFS_L0_NBLKS < blocks.length → blocks.length ≤ SFS_L1_NBLKS →
    ci.l1 = some ci.inode.indirect
  dbIndirect : SFS_L1_NBLKS < blocks.length → place ci.inode.dbIndirect = some (.dbIndirect ino)
  noDbIndirect : blocks.length ≤ SFS_L1_NBLKS → ci.inode.dbIndirect = 0
  l2 : SFS_L1_NBLKS < blocks.length → ci.l2 = some ci.inode.dbIndirect ∧
    ci.l1 = some (cache ci.inode.dbIndirect ((blocks.length - 1 - SFS_L1_NBLKS) / SFS_BLK_NENTRY))
  level : ∀ k, SFS_L1_NBLKS + k * SFS_BLK_NENTRY < blocks.length →
    place (cache ci.inode.dbIndirect k) = some (.level ino k)
  noLevel : ∀ k, SFS_L1_NBLKS < blocks.length →
    blocks.length ≤ SFS_L1_NBLKS + k * SFS_BLK_NENTRY → cache ci.inode.dbIndirect k = 0

theorem maps_new (place : ℕ → Option Place) (cache : ℕ → ℕ → ℕ) (real type ino : ℕ) :
    Maps place cache ino (.new real type ino) [] := by
  constructor <;> simp [CacheInode.new]

/-- A change of the cached blocks of other inodes. -/
theorem Maps.frame {place place' : ℕ → Option Place} {cache cache' : ℕ → ℕ → ℕ} {ino : ℕ}
    {ci : CacheInode} {blocks : List ℕ} (h : Maps place cache ino ci blocks)
    (hplace : Keeps place place')
    (hcache : ∀ b p, place b = some p → p.file = some ino → cache' b = cache b) :
    Maps place' cache' ino ci blocks := by
  have hindirect : SFS_L0_NBLKS < blocks.length →
      cache' ci.inode.indirect = cache ci.inode.indirect :=
    fun hlt ↦ hcache _ _ (h.indirect hlt) rfl
  have hdb : SFS_L1_NBLKS < blocks.length →
      cache' ci.inode.dbIndirect = cache ci.inode.dbIndirect :=
    fun hlt ↦ hcache _ _ (h.dbIndirect hlt) rfl
  refine ⟨h.stored, h.nblks, h.count, h.length_le, ?_, ?_, ?_, h.noIndirect, h.l1, ?_,
    h.noDbIndirect, ?_, ?_, ?_⟩
  · intro index hindex
    rw [← h.data index hindex]
    unfold CacheInode.blockAt
    by_cases h0 : index < SFS_L0_NBLKS
    · rw [if_pos h0, if_pos h0]
    rw [if_neg h0, if_neg h0]
    by_cases h1 : index < SFS_L1_NBLKS
    · rw [if_pos h1, if_pos h1, hindirect (by omega)]
    rw [if_neg h1, if_neg h1, hdb (by omega)]
    have hlevel := h.level ((index - SFS_L1_NBLKS) / SFS_BLK_NENTRY)
      (by unfold SFS_BLK_NENTRY at *; omega)
    rw [hcache _ _ hlevel rfl]
  · intro index hindex
    exact hplace _ _ (h.placed index hindex)
  · intro hlt
    exact hplace _ _ (h.indirect hlt)
  · intro hlt
    exact hplace _ _ (h.dbIndirect hlt)
  · intro hlt
    rw [hdb hlt]
    exact h.l2 hlt
  · intro k hk
    rw [hdb (by omega)]
    exact hplace _ _ (h.level k hk)
  · intro k hlt hk
    rw [hdb hlt]
    exact h.noLevel k hlt hk

section Old

variable {place : ℕ → Option Place} {cache : ℕ → ℕ → ℕ} {file : ℕ} {ci : CacheInode}
  {blocks : List ℕ}

/-! A table block that is there already has its place, and the inode remembers it. -/

theorem Maps.old_indirect (h : Maps place cache file ci blocks)
    (hslot : blocks.length < SFS_L1_NBLKS) : ci.inode.indirect ≠ 0 →
      place ci.inode.indirect = some (.indirect file) ∧ ci.l1 = some ci.inode.indirect := by
  intro hne
  have hlt : SFS_L0_NBLKS < blocks.length := by
    by_contra hnear
    exact hne (h.noIndirect (Nat.not_lt.mp hnear))
  exact ⟨h.indirect hlt, h.l1 hlt hslot.le⟩

theorem Maps.old_dbIndirect (h : Maps place cache file ci blocks) : ci.inode.dbIndirect ≠ 0 →
    place ci.inode.dbIndirect = some (.dbIndirect file) ∧ ci.l2 = some ci.inode.dbIndirect := by
  intro hne
  have hlt : SFS_L1_NBLKS < blocks.length := by
    by_contra hnear
    exact hne (h.noDbIndirect (Nat.not_lt.mp hnear))
  exact ⟨h.dbIndirect hlt, (h.l2 hlt).1⟩

/-- The row of the double-indirect block for the next block of the file. -/
theorem Maps.old_level (h : Maps place cache file ci blocks) (hfar : SFS_L1_NBLKS ≤ blocks.length)
    {row k : ℕ} (hk : k = (blocks.length - SFS_L1_NBLKS) / SFS_BLK_NENTRY)
    (hrow : SFS_L1_NBLKS < blocks.length → row = cache ci.inode.dbIndirect k)
    (hfresh : SFS_L1_NBLKS = blocks.length → row = 0) :
    row ≠ 0 → place row = some (.level file k) ∧ ci.l1 = some row := by
  intro hne
  have hlt : SFS_L1_NBLKS < blocks.length := by
    rcases Nat.lt_or_eq_of_le hfar with hlt | heq
    · exact hlt
    · exact absurd (hfresh heq) hne
  rw [hrow hlt] at hne ⊢
  have hmore : SFS_L1_NBLKS + k * SFS_BLK_NENTRY < blocks.length := by
    by_contra hless
    exact hne (h.noLevel k hlt (Nat.not_lt.mp hless))
  have hsame : (blocks.length - 1 - SFS_L1_NBLKS) / SFS_BLK_NENTRY = k := by
    unfold SFS_BLK_NENTRY at *
    omega
  refine ⟨h.level k hmore, ?_⟩
  rw [(h.l2 hlt).2, hsame]

end Old

/-! ## Appending a block -/

/-- The counters of an inode after an append. -/
def CacheInode.bump (ci : CacheInode) (size : ℕ) : CacheInode :=
  { ci with
    nblks := uint32 (ci.nblks + 1)
    inode := { ci.inode with
      size := uint32 (ci.inode.size + size), blocks := uint32 (ci.inode.blocks + 1) } }

section Append

variable {place place' : ℕ → Option Place} {cache cache' : ℕ → ℕ → ℕ} {file b size : ℕ}
  {ci : CacheInode} {blocks : List ℕ}

theorem getElem_snoc {index : ℕ} (h : index < (blocks ++ [b]).length) :
    index < blocks.length ∧ (∀ hlt : index < blocks.length, (blocks ++ [b])[index] = blocks[index]) ∨
      index = blocks.length ∧ (blocks ++ [b])[index] = b := by
  rw [List.length_append, List.length_singleton] at h
  rcases Nat.lt_or_eq_of_le (Nat.lt_succ_iff.mp h) with hlt | rfl
  · exact Or.inl ⟨hlt, fun hlt ↦ List.getElem_append_left hlt⟩
  · exact Or.inr ⟨rfl, List.getElem_concat_length rfl _⟩

theorem placed_snoc (h : Maps place cache file ci blocks) (hkeeps : Keeps place place')
    (hb : place b = some (.data file blocks.length)) :
    ∀ index (h : index < (blocks ++ [b]).length),
      place' (blocks ++ [b])[index] = some (.data file index) := by
  intro index hindex
  rcases getElem_snoc hindex with ⟨hlt, heq⟩ | ⟨rfl, heq⟩
  · rw [heq hlt]
    exact hkeeps _ _ (h.placed index hlt)
  · rw [heq]
    exact hkeeps _ _ hb

theorem bump_count {count : ℕ} (h : count < SFS_LN_NBLKS) : uint32 (count + 1) = count + 1 := by
  unfold SFS_LN_NBLKS SFS_MAX_FILE_SIZE SFS_BLKSIZE at h
  exact uint32_of_lt (by omega)

/-- A block with a direct entry. -/
theorem Maps.direct (h : Maps place cache file ci blocks) (hslot : blocks.length < SFS_L0_NBLKS)
    (hb : place b = some (.data file blocks.length)) : Maps place cache file
      (CacheInode.bump { ci with inode := { ci.inode with
        direct := Function.update ci.inode.direct blocks.length b } } size) (blocks ++ [b]) := by
  have hl1 : SFS_L0_NBLKS ≤ SFS_L1_NBLKS := by decide
  have hln : SFS_L0_NBLKS ≤ SFS_LN_NBLKS := by decide
  have hlength : (blocks ++ [b]).length = blocks.length + 1 := List.length_append
  have hcount := bump_count (hslot.trans_le hln)
  refine ⟨h.stored, ?_, ?_, ?_, ?_, placed_snoc h (Keeps.refl place) hb, ?_, ?_, ?_, ?_, ?_, ?_, ?_, ?_⟩
  · rw [CacheInode.bump, h.nblks, hlength, hcount]
  · rw [CacheInode.bump, h.count, hlength, hcount]
  · omega
  · intro index hindex
    rw [CacheInode.bump, CacheInode.blockAt, if_pos (by omega)]
    dsimp only
    rcases getElem_snoc hindex with ⟨hlt, heq⟩ | ⟨rfl, heq⟩
    · have hold := h.data index hlt
      rw [CacheInode.blockAt, if_pos (by omega)] at hold
      rw [heq hlt, Function.update_of_ne hlt.ne, hold]
    · rw [heq, Function.update_self]
  · omega
  · intro _
    exact h.noIndirect hslot.le
  · omega
  · omega
  · intro _
    exact h.noDbIndirect (by omega)
  · omega
  · intro k hk
    omega
  · omega

/-- A block with an entry in the indirect block `cb`. -/
theorem Maps.single (h : Maps place cache file ci blocks) (hslot : blocks.length < SFS_L1_NBLKS)
    (hfar : SFS_L0_NBLKS ≤ blocks.length) (hb : place b = some (.data file blocks.length))
    (hkeeps : Keeps place place') {cb : ℕ} (hcb : place' cb = some (.indirect file))
    (hold : SFS_L0_NBLKS < blocks.length → cb = ci.inode.indirect)
    (hcache : ∀ c p, place c = some p → cache' c = cache c) : Maps place'
      (Function.update cache' cb (Function.update (cache' cb) (blocks.length - SFS_L0_NBLKS) b)) file
      (CacheInode.bump { ci with l1 := some cb, inode := { ci.inode with indirect := cb } } size)
      (blocks ++ [b]) := by
  have hl1 : SFS_L0_NBLKS ≤ SFS_L1_NBLKS := by decide
  have hln : SFS_L1_NBLKS ≤ SFS_LN_NBLKS := by decide
  have hlength : (blocks ++ [b]).length = blocks.length + 1 := List.length_append
  have hcount := bump_count (hslot.trans_le hln)
  refine ⟨h.stored, ?_, ?_, ?_, ?_, placed_snoc h hkeeps hb, ?_, ?_, ?_, ?_, ?_, ?_, ?_, ?_⟩
  · rw [CacheInode.bump, h.nblks, hlength, hcount]
  · rw [CacheInode.bump, h.count, hlength, hcount]
  · omega
  · intro index hindex
    rw [CacheInode.bump, CacheInode.blockAt]
    dsimp only
    rw [Function.update_self, if_pos (show index < SFS_L1_NBLKS by omega)]
    rcases getElem_snoc hindex with ⟨hlt, heq⟩ | ⟨rfl, heq⟩
    · have hdata := h.data index hlt
      rw [heq hlt, ← hdata, CacheInode.blockAt, if_pos (show index < SFS_L1_NBLKS by omega)]
      by_cases h0 : index < SFS_L0_NBLKS
      · rw [if_pos h0, if_pos h0]
      · rw [if_neg h0, if_neg h0, Function.update_of_ne (by omega), hold (by omega),
          hcache _ _ (h.indirect (by omega))]
    · rw [heq, if_neg (by omega), Function.update_self]
  · intro _
    exact hcb
  · omega
  · intro _ _
    rfl
  · omega
  · intro _
    exact h.noDbIndirect (by omega)
  · omega
  · intro k hk
    omega
  · omega

/-- A block with an entry in the entry block `l1`, which has one in the double-indirect block. -/
theorem Maps.double (h : Maps place cache file ci blocks) (size : ℕ) (hslot : blocks.length < SFS_LN_NBLKS)
    (hfar : SFS_L1_NBLKS ≤ blocks.length) (hb : place b = some (.data file blocks.length))
    (hkeeps : Keeps place place') {l1 l2 k : ℕ}
    (hk : k = (blocks.length - SFS_L1_NBLKS) / SFS_BLK_NENTRY)
    (hl2 : place' l2 = some (.dbIndirect file)) (hl1 : place' l1 = some (.level file k))
    (hold2 : SFS_L1_NBLKS < blocks.length → l2 = ci.inode.dbIndirect)
    (hold1 : (blocks.length - SFS_L1_NBLKS) % SFS_BLK_NENTRY ≠ 0 → l1 = cache l2 k)
    (hnew : SFS_L1_NBLKS = blocks.length → cache' l2 = fun _ ↦ 0)
    (hcache : ∀ c p, place c = some p → cache' c = cache c) : Maps place'
      (Function.update (Function.update cache' l2 (Function.update (cache' l2) k l1)) l1
        (Function.update (cache' l1) ((blocks.length - SFS_L1_NBLKS) % SFS_BLK_NENTRY) b)) file
      (CacheInode.bump { ci with l1 := some l1, l2 := some l2,
                                 inode := { ci.inode with dbIndirect := l2 } } size)
      (blocks ++ [b]) := by
  have hl0 : SFS_L0_NBLKS < SFS_L1_NBLKS := by decide
  have hlength : (blocks ++ [b]).length = blocks.length + 1 := List.length_append
  have hcount := bump_count hslot
  have hne : l2 ≠ l1 := by
    rintro rfl
    cases hl1.symm.trans hl2
  -- the rows of the double-indirect block
  have hrow : ∀ j ≠ k, SFS_L1_NBLKS < blocks.length → cache' l2 j = cache ci.inode.dbIndirect j := by
    intro j _ hlt
    rw [hold2 hlt, hcache _ _ (h.dbIndirect hlt)]
  refine ⟨h.stored, ?_, ?_, ?_, ?_, placed_snoc h hkeeps hb, ?_, ?_, ?_, ?_, ?_, ?_, ?_, ?_⟩
  · rw [CacheInode.bump, h.nblks, hlength, hcount]
  · rw [CacheInode.bump, h.count, hlength, hcount]
  · omega
  · intro index hindex
    rw [CacheInode.bump, CacheInode.blockAt]
    dsimp only
    rcases getElem_snoc hindex with ⟨hlt, heq⟩ | ⟨rfl, heq⟩
    · rw [heq hlt, ← h.data index hlt, CacheInode.blockAt]
      by_cases h0 : index < SFS_L0_NBLKS
      · rw [if_pos h0, if_pos h0]
      rw [if_neg h0, if_neg h0]
      by_cases h1 : index < SFS_L1_NBLKS
      · have hindirect := h.indirect (by omega)
        have hapart : ∀ {c q}, place' c = some q → q ≠ .indirect file → ci.inode.indirect ≠ c := by
          rintro c q hc hq rfl
          exact hq (Option.some.inj (hc.symm.trans (hkeeps _ _ hindirect)))
        rw [if_pos h1, if_pos h1, Function.update_of_ne (hapart hl1 nofun),
          Function.update_of_ne (hapart hl2 nofun), hcache _ _ hindirect]
      rw [if_neg h1, if_neg h1, Function.update_of_ne hne, Function.update_self]
      have hlevel := h.level ((index - SFS_L1_NBLKS) / SFS_BLK_NENTRY)
        (by unfold SFS_BLK_NENTRY; omega)
      by_cases hsame : (index - SFS_L1_NBLKS) / SFS_BLK_NENTRY = k
      · have hplace : (blocks.length - SFS_L1_NBLKS) % SFS_BLK_NENTRY ≠ 0 ∧
            (index - SFS_L1_NBLKS) % SFS_BLK_NENTRY ≠
              (blocks.length - SFS_L1_NBLKS) % SFS_BLK_NENTRY := by
          unfold SFS_BLK_NENTRY at *
          omega
        rw [hsame] at hlevel ⊢
        have hback : l1 = cache ci.inode.dbIndirect k := by
          rw [hold1 hplace.1, hold2 (by omega)]
        rw [Function.update_self, Function.update_self, Function.update_of_ne hplace.2, hback,
          hcache _ _ hlevel]
      · rw [Function.update_of_ne hsame, hrow _ hsame (by omega)]
        have hapart : ∀ {c q}, place' c = some q →
            q ≠ .level file ((index - SFS_L1_NBLKS) / SFS_BLK_NENTRY) →
              cache ci.inode.dbIndirect ((index - SFS_L1_NBLKS) / SFS_BLK_NENTRY) ≠ c := by
          rintro c q hc hq rfl
          exact hq (Option.some.inj (hc.symm.trans (hkeeps _ _ hlevel)))
        rw [Function.update_of_ne (hapart hl1 (by simpa using Ne.symm hsame)),
          Function.update_of_ne (hapart hl2 nofun), hcache _ _ hlevel]
    · rw [heq, if_neg (by omega), if_neg (by omega), Function.update_of_ne hne, Function.update_self,
        ← hk, Function.update_self, Function.update_self, Function.update_self]
  · intro _
    exact hkeeps _ _ (h.indirect (hl0.trans_le hfar))
  · omega
  · omega
  · intro _
    exact hl2
  · omega
  · intro _
    have hlast : (blocks ++ [b]).length - 1 - SFS_L1_NBLKS = blocks.length - SFS_L1_NBLKS := by omega
    refine ⟨rfl, ?_⟩
    rw [hlast, ← hk]
    dsimp only [CacheInode.bump]
    rw [Function.update_of_ne hne, Function.update_self, Function.update_self]
  · intro j hj
    dsimp only [CacheInode.bump]
    rw [Function.update_of_ne hne, Function.update_self]
    by_cases hsame : j = k
    · rw [hsame, Function.update_self]
      exact hl1
    · have hlevel := h.level j (by unfold SFS_BLK_NENTRY at *; omega)
      rw [Function.update_of_ne hsame, hrow j hsame (by unfold SFS_BLK_NENTRY at *; omega)]
      exact hkeeps _ _ hlevel
  · intro j _ hj
    dsimp only [CacheInode.bump]
    have hsame : j ≠ k := by
      unfold SFS_BLK_NENTRY at *
      omega
    rw [Function.update_of_ne hne, Function.update_self, Function.update_of_ne hsame]
    rcases Nat.lt_or_eq_of_le hfar with hlt | heq
    · rw [hrow j hsame hlt]
      exact h.noLevel j hlt (by omega)
    · rw [hnew heq]

end Append

end Ucore.Tools
