import Ucore.Tools.MksfsRun

/-!
# The finished image

What `close_sfs` leaves in each block. The blocks of different kinds do not overlap, so nothing that
was written is overwritten by something else, and the order of the hash lists does not matter.
-/

namespace Ucore.Tools

open Library Fs

/-! ## Bits of the free map -/

theorem getLsbD_setBits {start count w o : ℕ} {data : ℕ → BitVec 32} (ho : o < WORD_BITS) :
    (setBits start count data w).getLsbD o = true ↔
      (start ≤ w * WORD_BITS + o ∧ w * WORD_BITS + o < start + count) ∨
        (data w).getLsbD o = true := by
  induction count generalizing start data with
  | zero =>
    rw [setBits]
    constructor
    · exact Or.inr
    · rintro (hrange | hbit)
      · omega
      · exact hbit
  | succ count ih =>
    rw [setBits, ih]
    have hmod := Nat.mod_lt start (show 0 < WORD_BITS by decide)
    have hdiv := Nat.div_add_mod start WORD_BITS
    by_cases hw : w = start / WORD_BITS
    · rw [hw, Function.update_self, BitVec.getLsbD_or, getLsbD_mask ho, Bool.or_eq_true,
        decide_eq_true_eq]
      have heq : o = start % WORD_BITS ↔ start / WORD_BITS * WORD_BITS + o = start := by
        unfold WORD_BITS at *
        omega
      rw [heq]
      constructor
      · rintro (hrange | hbit | hself)
        · exact Or.inl ⟨by omega, by omega⟩
        · exact Or.inr hbit
        · exact Or.inl ⟨by omega, by omega⟩
      · rintro (hrange | hbit)
        · by_cases hself : start / WORD_BITS * WORD_BITS + o = start
          · exact Or.inr (Or.inr hself)
          · exact Or.inl ⟨by omega, by omega⟩
        · exact Or.inr (Or.inl hbit)
    · rw [Function.update_of_ne hw]
      have hne : w * WORD_BITS + o ≠ start := by
        intro heq
        apply hw
        unfold WORD_BITS at *
        omega
      constructor
      · rintro (hrange | hbit)
        · exact Or.inl ⟨by omega, by omega⟩
        · exact Or.inr hbit
      · rintro (hrange | hbit)
        · exact Or.inl ⟨by omega, by omega⟩
        · exact Or.inr hbit

/-- A bit of the block of the free map that begins with bit `i`. -/
theorem getLsbD_freemapBlock {ninos nextIno i w o : ℕ} (ho : o < WORD_BITS)
    (hw : w < SFS_BLKBITS / WORD_BITS) :
    (freemapBlock ninos nextIno i w).getLsbD o = true ↔
      nextIno ≤ i + w * WORD_BITS + o ∧ i + w * WORD_BITS + o < ninos := by
  have hbit : w * WORD_BITS + o < SFS_BLKBITS := by
    unfold SFS_BLKBITS WORD_BITS at *
    omega
  have hzero : ((fun _ ↦ 0 : ℕ → BitVec 32) w).getLsbD o = false := BitVec.getLsbD_zero
  unfold freemapBlock
  by_cases hfull : i + SFS_BLKBITS > nextIno
  · rw [if_pos hfull, getLsbD_setBits ho, hzero]
    simp only [Bool.false_eq_true, or_false]
    split_ifs <;> omega
  · rw [if_neg hfull, hzero]
    simp only [Bool.false_eq_true, false_iff]
    omega

/-! ## Writing out -/

/-- The block of a cached inode. -/
def inodeBlock (inode : DiskInode) : Bytes := fun index ↦
  if index < 68 then wordBytes (inodeWords inode) index else 0

def superBlock (sfs : Mksfs) : Bytes := fun index ↦
  if index < 44 then wordBytes (superWords sfs) index else 0

section Close

variable {sfs : Mksfs} {ledger : Ledger} {place : ℕ → Option Place}

/-- The image after a loop that writes the blocks of `area`, whatever it was before. -/
def Lays (call : Mksfs → Outcome Mksfs) (sfs : Mksfs) (area : ℕ → Prop) (data : ℕ → Bytes) : Prop :=
  ∀ image, ∃ image', call { sfs with image } = .ok { sfs with image := image' } ∧
    (∀ b, area b → image' b = data b) ∧ ∀ b, ¬area b → image' b = image b

theorem lays_writeFreemap {ino count : ℕ} (i : ℕ) (hroom : ino + count ≤ sfs.ninos) :
    Lays (writeFreemap i ino count) sfs (fun b ↦ ino ≤ b ∧ b < ino + count) fun b ↦
      wordBytes fun index ↦
        (freemapBlock sfs.ninos sfs.nextIno (i + (b - ino) * SFS_BLKBITS) index).toNat := by
  induction count generalizing i ino with
  | zero => exact fun image ↦ ⟨image, rfl, fun b hb ↦ by omega, fun _ _ ↦ rfl⟩
  | succ count ih =>
    intro image
    have hino : ino < sfs.ninos := by omega
    rw [writeFreemap, writeBlock_eq { sfs with image } hino, Outcome.ok_bind]
    rcases ih (i + SFS_BLKBITS) (show ino + 1 + count ≤ sfs.ninos by omega) (Function.update image ino
      (wordBytes fun index ↦ (freemapBlock sfs.ninos sfs.nextIno i index).toNat)) with
      ⟨image', hcall, hdata, hrest⟩
    refine ⟨image', hcall, fun b hb ↦ ?_, fun b hb ↦ ?_⟩
    · beta_reduce at hb ⊢
      by_cases heq : b = ino
      · rw [hrest b (by omega), heq, Function.update_self, Nat.sub_self, Nat.zero_mul, Nat.add_zero]
      · have hshift : i + SFS_BLKBITS + (b - (ino + 1)) * SFS_BLKBITS =
            i + (b - ino) * SFS_BLKBITS := by
          unfold SFS_BLKBITS
          omega
        have hb := hdata b (by omega)
        beta_reduce at hb
        rw [hb, hshift]
    · beta_reduce at hb
      rw [hrest b (by omega), Function.update_of_ne (by omega)]

theorem lays_flushList {flush : Mksfs → ℕ → Outcome Mksfs} {data : ℕ → Bytes} {list : List ℕ}
    (hflush : ∀ image, ∀ b ∈ list, flush { sfs with image } b =
      .ok { sfs with image := Function.update image b (data b) }) :
    Lays (flushList flush list) sfs (· ∈ list) data := by
  induction list with
  | nil => exact fun image ↦ ⟨image, rfl, fun b hb ↦ absurd hb List.not_mem_nil, fun _ _ ↦ rfl⟩
  | cons first rest ih =>
    intro image
    rw [flushList, hflush image first List.mem_cons_self, Outcome.ok_bind]
    rcases ih (fun image b hb ↦ hflush image b (List.mem_cons_of_mem _ hb))
      (Function.update image first (data first)) with ⟨image', hcall, hdata, hrest⟩
    refine ⟨image', hcall, fun b hb ↦ ?_, fun b hb ↦ ?_⟩
    · by_cases hmem : b ∈ rest
      · exact hdata b hmem
      · rcases List.mem_cons.mp hb with rfl | hb
        · rw [hrest b hmem, Function.update_self]
        · exact absurd hb hmem
    · have hne := not_or.mp (mt List.mem_cons.mpr hb)
      rw [hrest b hne.2, Function.update_of_ne hne.1]

/-- Two loops one after the other. -/
theorem Lays.then {first second : Mksfs → Outcome Mksfs} {area more : ℕ → Prop}
    {data : ℕ → Bytes} (both : Mksfs → Outcome Mksfs) (h : Lays first sfs area data) (h' : Lays second sfs more data)
    (hboth : ∀ image image', first { sfs with image } = .ok { sfs with image := image' } →
      both { sfs with image } = second { sfs with image := image' }) :
    Lays both sfs (fun b ↦ area b ∨ more b) data := by
  intro image
  rcases h image with ⟨image1, hcall1, hdata1, hrest1⟩
  rcases h' image1 with ⟨image2, hcall2, hdata2, hrest2⟩
  refine ⟨image2, ?_, fun b hb ↦ ?_, fun b hb ↦ ?_⟩
  · rw [hboth image image1 hcall1, hcall2]
  · by_cases hmore : more b
    · exact hdata2 b hmore
    · rw [hrest2 b hmore, hdata1 b (hb.resolve_right hmore)]
  · rw [hrest2 b fun hmore ↦ hb (Or.inr hmore), hrest1 b fun harea ↦ hb (Or.inl harea)]

/-- What is written for a cached inode or block. -/
def flushed (sfs : Mksfs) (place : ℕ → Option Place) (b : ℕ) : Bytes :=
  match place b with
  | some (.inode _) => inodeBlock (sfs.inode b).inode
  | _ => wordBytes (sfs.cache b)

theorem flushed_inode {ino i : ℕ} (h : place ino = some (.inode i)) :
    flushed sfs place ino = inodeBlock (sfs.inode ino).inode := by
  rw [flushed, h]

theorem flushed_table {cb : ℕ} {p : Place} (h : place cb = some p) (hp : p.IsTable) :
    flushed sfs place cb = wordBytes (sfs.cache cb) := by
  rw [flushed, h]
  cases p with
  | inode ino => exact hp.elim
  | _ => rfl

theorem lays_flushBuckets (h : Built sfs ledger place) {i count : ℕ}
    (hi : i + count ≤ HASH_LIST_SIZE) : Lays (flushBuckets i count) sfs
      (fun b ↦ ∃ j, i ≤ j ∧ j < i + count ∧ (b ∈ sfs.cacheBlocks j ∨ b ∈ sfs.inodes j))
      (flushed sfs place) := by
  induction count generalizing i with
  | zero =>
    intro image
    refine ⟨image, rfl, fun b hb ↦ ?_, fun _ _ ↦ rfl⟩
    rcases hb with ⟨j, hlow, hhigh, -⟩
    omega
  | succ count ih =>
    have hblocks : Lays (flushList flushCacheBlock (sfs.cacheBlocks i)) sfs
        (· ∈ sfs.cacheBlocks i) (flushed sfs place) := by
      refine lays_flushList fun image b hb ↦ ?_
      rcases (h.counted.table b).mp ⟨i, by omega, hb⟩ with ⟨p, hp, htable⟩
      have hlt : b < sfs.ninos := (h.counted.lt b p hp).trans_le h.counted.nextIno_le
      rw [flushed_table hp htable]
      exact writeBlock_eq { sfs with image } hlt
    have hinodes : Lays (flushList flushCacheInode (sfs.inodes i)) sfs
        (· ∈ sfs.inodes i) (flushed sfs place) := by
      refine lays_flushList fun image b hb ↦ ?_
      have hcached : sfs.Cached b := ⟨i, by omega, hb⟩
      have hlt : b < sfs.ninos := (h.cached_lt hcached).trans_le h.counted.nextIno_le
      rw [flushed_inode ((h.counted.inode b).mp hcached), flushCacheInode]
      dsimp only
      rw [(h.maps b hcached).stored]
      exact writeBlock_short { sfs with image } (by decide) hlt
    have hrest := hinodes.then (fun sfs' ↦
      flushList flushCacheInode (sfs'.inodes i) sfs' >>= flushBuckets (i + 1) count)
      (ih (i := i + 1) (by omega)) (by
        intro image image' hcall
        rw [hcall]
        rfl)
    have hall := hblocks.then (flushBuckets i (count + 1)) hrest (by
      intro image image' hcall
      rw [flushBuckets, hcall]
      rfl)
    intro image
    rcases hall image with ⟨image', hcall, hdata, hkept⟩
    refine ⟨image', hcall, fun b hb ↦ hdata b ?_, fun b hb ↦ hkept b ?_⟩
    · rcases hb with ⟨j, hlow, hhigh, hmem⟩
      by_cases heq : j = i
      · rw [heq] at hmem
        exact hmem.imp_right Or.inl
      · exact Or.inr (Or.inr ⟨j, by omega, by omega, hmem⟩)
    · rintro (hmem | hmem | ⟨j, hlow, hhigh, hmem⟩)
      · exact hb ⟨i, le_rfl, by omega, Or.inl hmem⟩
      · exact hb ⟨i, le_rfl, by omega, Or.inr hmem⟩
      · exact hb ⟨j, by omega, by omega, hmem⟩

/-- What is on the disk when the image is finished. -/
structure Finished (sfs : Mksfs) (place : ℕ → Option Place) (image : ℕ → Bytes) : Prop where
  super : image SFS_BLKN_SUPER = superBlock sfs
  freemap : ∀ index < sfs.freemapBlocks, image (SFS_BLKN_FREEMAP + index) = wordBytes fun w ↦
    (freemapBlock sfs.ninos sfs.nextIno (index * SFS_BLKBITS) w).toNat
  inode : ∀ ino, sfs.Cached ino → image ino = inodeBlock (sfs.inode ino).inode
  table : ∀ cb p, place cb = some p → p.IsTable → image cb = wordBytes (sfs.cache cb)
  data : ∀ b ino index, place b = some (.data ino index) → image b = sfs.image b

/-- `close_sfs` does not fail. -/
theorem closeSfs_eq (h : Built sfs ledger place) :
    ∃ image, closeSfs sfs = .ok { sfs with image } ∧ Finished sfs place image := by
  have hnext := h.counted.nextIno_le
  have hfirst := h.counted.first_le
  have hroot := h.counted.lt _ _ h.counted.super
  have hinside : SFS_BLKN_FREEMAP + sfs.freemapBlocks ≤ sfs.ninos := by omega
  have hmap := lays_writeFreemap 0 hinside
  rcases hmap sfs.image with ⟨image1, hcall1, hdata1, hrest1⟩
  have hsuper : writeBlock { sfs with image := image1 } (wordBytes (superWords sfs)) 44
      SFS_BLKN_SUPER = _ := writeBlock_short _ (by decide) (hroot.trans_le hnext)
  rcases lays_flushBuckets h (show 0 + HASH_LIST_SIZE ≤ HASH_LIST_SIZE by omega)
    (Function.update image1 SFS_BLKN_SUPER (superBlock sfs)) with ⟨image2, hcall2, hdata2, hrest2⟩
  -- only the blocks of cached inodes and tables are flushed
  have hflushed : ∀ b, (∃ j, 0 ≤ j ∧ j < 0 + HASH_LIST_SIZE ∧
      (b ∈ sfs.cacheBlocks j ∨ b ∈ sfs.inodes j)) ↔ sfs.CachedBlock b ∨ sfs.Cached b := by
    intro b
    constructor
    · rintro ⟨j, -, hj, hmem | hmem⟩
      · exact Or.inl ⟨j, by omega, hmem⟩
      · exact Or.inr ⟨j, by omega, hmem⟩
    · rintro (⟨j, hj, hmem⟩ | ⟨j, hj, hmem⟩)
      · exact ⟨j, Nat.zero_le _, by omega, Or.inl hmem⟩
      · exact ⟨j, Nat.zero_le _, by omega, Or.inr hmem⟩
  have hkept : ∀ b p, place b = some p → ¬p.IsTable → (∀ ino, p ≠ .inode ino) →
      image2 b = Function.update image1 SFS_BLKN_SUPER (superBlock sfs) b := by
    intro b p hb htable hinode
    refine hrest2 b (mt (hflushed b).mp ?_)
    rintro (hblock | hcached)
    · rcases (h.counted.table b).mp hblock with ⟨q, hq, hqtable⟩
      cases hb.symm.trans hq
      exact htable hqtable
    · cases hb.symm.trans ((h.counted.inode b).mp hcached)
      exact hinode b rfl
  refine ⟨image2, ?_, ?_, fun index hindex ↦ ?_, fun ino hino ↦ ?_, fun cb p hp htable ↦ ?_,
    fun b ino index hb ↦ ?_⟩
  · have hmapped : writeFreemap 0 SFS_BLKN_FREEMAP ((sfs.ninos + SFS_BLKBITS - 1) / SFS_BLKBITS) sfs =
        .ok { sfs with image := image1 } := hcall1
    have hwords : superWords { sfs with image := image1 } = superWords sfs := rfl
    rw [closeSfs, hmapped, Outcome.ok_bind, hwords, hsuper, Outcome.ok_bind]
    exact hcall2
  · rw [hkept _ _ h.counted.super id nofun, Function.update_self]
  · have hplace := h.counted.freemap index hindex
    have hne : SFS_BLKN_FREEMAP + index ≠ SFS_BLKN_SUPER := h.counted.ne_zero hplace nofun
    have hdata := hdata1 (SFS_BLKN_FREEMAP + index) ⟨by omega, by omega⟩
    beta_reduce at hdata
    rw [hkept _ _ hplace id nofun, Function.update_of_ne hne, hdata, Nat.add_sub_cancel_left,
      Nat.zero_add]
  · rw [hdata2 ino ((hflushed ino).mpr (Or.inr hino)), flushed_inode ((h.counted.inode ino).mp hino)]
  · have hcached := (h.counted.table cb).mpr ⟨p, hp, htable⟩
    rw [hdata2 cb ((hflushed cb).mpr (Or.inl hcached)), flushed_table hp htable]
  · have hne : b ≠ SFS_BLKN_SUPER := h.counted.ne_zero hb nofun
    rw [hkept _ _ hb id nofun, Function.update_of_ne hne]
    refine hrest1 b ?_
    rintro ⟨hlow, hhigh⟩
    have hplace := h.counted.freemap (b - SFS_BLKN_FREEMAP) (by omega)
    rw [Nat.add_sub_cancel' hlow] at hplace
    cases hb.symm.trans hplace

end Close

end Ucore.Tools
