import Ucore.Tools.MksfsMounted

/-!
# The block map of a file of an image

`mksfs` appends up to 32768 blocks to a file, by way of a double-indirect block. The kernel follows
the direct entries and the indirect block and stops at an assertion beyond them.
-/

namespace Ucore.Tools

open Library Fs

/-- The kernel finds the blocks that were appended to a file, whether or not it may make new ones. -/
def BlockMapsAgree (s : SfsFs) (sin : SfsInode) (blocks : List ℕ) : Prop :=
  sin.blocks = blocks.length ∧ ∀ index < sin.blocks, ∀ create, ∃ b, blocks[index]? = some b ∧
    sfsBmapGetNolock s sin index create = .ok (.ok b, s, sin)

/-- The kernel does not look beyond the indirect block. -/
theorem sfsBmapGetNolock_beyond (s : SfsFs) (sin : SfsInode) {index : ℕ} (hindex : MAX_BLOCKS ≤ index)
    (create : Bool) : sfsBmapGetNolock s sin index create = .error .panic := by
  unfold MAX_BLOCKS at hindex
  rw [sfsBmapGetNolock, if_neg (by omega), if_neg (by omega)]

section Files

variable {stSize : ℕ} {image : ℕ → Bytes} {sfs : Mksfs} {ledger : Ledger} {s : SfsFs} {file : ℕ}

theorem Reads.sfsBmapGetNolock {place : ℕ → Option Place} (hreads : Reads sfs place s)
    (h : Built sfs ledger place) (hfile : sfs.Cached file) {index : ℕ}
    (hindex : index < (ledger.blocks file).length) (hmax : index < MAX_BLOCKS) (create : Bool) :
    Fs.sfsBmapGetNolock s (Fs.diskInode (s.dev.block file)) index create =
      .ok (.ok (ledger.blocks file)[index], s, Fs.diskInode (s.dev.block file)) := by
  rcases hreads.blockAt h hfile hindex hmax with ⟨hat, hindirect⟩
  have hplaced := (h.maps file hfile).placed index hindex
  have hinuse := hreads.inuse _ _ hplaced
  have hne := h.counted.ne_zero hplaced nofun
  rw [← hat] at hinuse hne ⊢
  exact sfsBmapGetNolock_eq hreads.geometry hmax hne hinuse.1 hinuse.2
    (fun hlow ↦ (hreads.inuse _ _ (hindirect hlow)).1) create

/-- The two block maps agree exactly on the files that need no double-indirect block. -/
theorem blockMapsAgree_iff (h : Build stSize image sfs ledger) (hboots : Boots sfs s)
    (hfile : sfs.Cached file) :
    BlockMapsAgree s (Fs.diskInode (s.dev.block file)) (ledger.blocks file) ↔
      (ledger.blocks file).length ≤ MAX_BLOCKS := by
  rcases h.built with ⟨place, hbuilt⟩
  have hreads := hboots.reads hbuilt
  have hblocks := (hreads.diskInode hbuilt hfile).2.2
  constructor
  · rintro ⟨-, hagree⟩
    by_contra hlong
    rw [hblocks] at hagree
    rcases hagree MAX_BLOCKS (Nat.not_le.mp hlong) false with ⟨b, -, hcall⟩
    rw [sfsBmapGetNolock_beyond _ _ le_rfl] at hcall
    cases hcall
  · intro hmax
    refine ⟨hblocks, fun index hindex create ↦ ?_⟩
    rw [hblocks] at hindex
    exact ⟨_, List.getElem?_eq_getElem hindex,
      hreads.sfsBmapGetNolock hbuilt hfile hindex (hindex.trans_le hmax) create⟩

end Files

/-! ### Files of any length -/

/-- An image of 4096 blocks with one file, made with `count` blocks of one byte. -/
theorem exists_build_file (count : ℕ) (hcount : count ≤ 1300) : ∃ sfs ledger file,
    Build (2 ^ 24) (fun _ _ ↦ 0) sfs ledger ∧ sfs.Cached file ∧
      (sfs.inode file).inode.type = SFS_TYPE_FILE ∧ (ledger.blocks file).length = count ∧
      sfs.ninos = 4096 ∧ sfs.nextIno ≤ 4 + 3 * count := by
  have hninos : imageBlocks (2 ^ 24) = 4096 := by decide
  have hroom : firstIno (imageBlocks (2 ^ 24)) < imageBlocks (2 ^ 24) := by
    rw [hninos]
    decide
  have hfirst := build_first hroom fun _ _ ↦ 0
  rw [hninos] at hfirst
  induction count with
  | zero =>
    rcases hfirst.built with ⟨place, hbuilt⟩
    have hcall : allocCacheInode (.first 4096 fun _ _ ↦ 0) 7 0 SFS_TYPE_FILE =
        .ok (3, (Mksfs.first 4096 fun _ _ ↦ 0).addInode 7 SFS_TYPE_FILE) := by
      rw [allocCacheInode, if_neg (not_not.mpr rfl), sfsAllocIno_eq hbuilt.counted (by decide)]
      rfl
    have hcached : ((Mksfs.first 4096 fun _ _ ↦ 0).addInode 7 SFS_TYPE_FILE).Cached 3 :=
      (mem_bucket_cons _ (hash32_lt _) 3).mpr (Or.inl rfl)
    exact ⟨_, _, 3, hfirst.step (.inode (Or.inr (Or.inl rfl)) hcall), hcached, rfl, rfl, rfl,
      by decide⟩
  | succ count ih =>
    rcases ih (by omega) with ⟨sfs, ledger, file, hbuild, hcached, htype, hlength, hninos, hnext⟩
    rcases hbuild.built with ⟨place, hbuilt⟩
    rcases hbuilt.exists_addData hcached (by omega) (show [1].length ≤ SFS_BLKSIZE by decide)
      (by unfold SFS_LN_NBLKS SFS_MAX_FILE_SIZE SFS_BLKSIZE; omega) with
      ⟨sfs', place', data, hcall, hextended⟩
    have hnext' := hextended.nextIno_le
    have hblocks : (ledger.append file sfs.nextIno).blocks file =
        ledger.blocks file ++ [sfs.nextIno] := Function.update_self ..
    refine ⟨sfs', ledger.append file sfs.nextIno, file, hbuild.step (.data hcached ?_ hcall),
      (hextended.cached file).mpr hcached, (hextended.type file).trans htype, ?_,
      hextended.ninos.trans hninos, by omega⟩
    · rw [htype]
      decide
    · rw [hblocks, List.length_append, hlength]
      rfl

/-- A file that needs the indirect block. -/
theorem blockMapsAgree_iff_thirteen : ∃ sfs ledger file s, Build (2 ^ 24) (fun _ _ ↦ 0) sfs ledger ∧
    (ledger.blocks file).length = 13 ∧
      BlockMapsAgree s (Fs.diskInode (s.dev.block file)) (ledger.blocks file) := by
  rcases exists_build_file 13 (by decide) with
    ⟨sfs, ledger, file, hbuild, hcached, -, hlength, -⟩
  rcases hbuild.built with ⟨place, hbuilt⟩
  rcases exists_boots hbuilt with ⟨s, hboots⟩
  refine ⟨sfs, ledger, file, s, hbuild, hlength,
    (blockMapsAgree_iff hbuild hboots hcached).mpr ?_⟩
  rw [hlength]
  decide

/-- A file of 1037 blocks is made without complaint, and the kernel does not find its last block. -/
theorem not_blockMapsAgree : ¬∀ (stSize : ℕ) (image : ℕ → Bytes) (sfs : Mksfs) (ledger : Ledger)
    (s : SfsFs) (file : ℕ), Build stSize image sfs ledger → Boots sfs s → sfs.Cached file →
      BlockMapsAgree s (Fs.diskInode (s.dev.block file)) (ledger.blocks file) := by
  intro hagree
  rcases exists_build_file 1037 (by decide) with
    ⟨sfs, ledger, file, hbuild, hcached, -, hlength, -⟩
  rcases hbuild.built with ⟨place, hbuilt⟩
  rcases exists_boots hbuilt with ⟨s, hboots⟩
  rcases hagree _ _ sfs ledger s file hbuild hboots hcached with ⟨hblocks, hfound⟩
  rw [hblocks, hlength] at hfound
  rcases hfound MAX_BLOCKS (by decide) false with ⟨b, -, hcall⟩
  rw [sfsBmapGetNolock_beyond _ _ le_rfl] at hcall
  cases hcall

end Ucore.Tools
