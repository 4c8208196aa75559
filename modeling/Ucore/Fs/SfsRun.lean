import Ucore.Fs.SfsTransfer
import Ucore.Library.Run
import Mathlib.Tactic.IntervalCases

/-!
# Runs of a mounted file system

`Consistent` relates the free map to the block maps of all inodes. Each call works on one inode,
for which the other inodes and the blocks of the file system itself are the rest; since a call
keeps the inode's own blocks and the contents of the rest, it keeps the whole file system
consistent.
-/

namespace Ucore.Fs

open Library

def SFS_BLKBITS : ℕ := 32768
def SFS_BLKN_SUPER : ℕ := 0
def SFS_BLKN_ROOT : ℕ := 1
def SFS_BLKN_FREEMAP : ℕ := 2

/-- `sfs_freemap_blocks`. -/
def sfsFreemapBlocks (blocks : ℕ) : ℕ := (blocks + SFS_BLKBITS - 1) / SFS_BLKBITS

/-- The blocks that belong to no inode: superblock, root and free map. -/
def Reserved (s : SfsFs) (b : ℕ) : Prop :=
  b = SFS_BLKN_SUPER ∨ b = SFS_BLKN_ROOT ∨
    (SFS_BLKN_FREEMAP ≤ b ∧ b < SFS_BLKN_FREEMAP + sfsFreemapBlocks s.blocks)

instance (s : SfsFs) : DecidablePred (Reserved s) := fun _ ↦ inferInstanceAs (Decidable (_ ∨ _))

/-- A mounted file system with its inodes, named by the blocks they are stored in. -/
structure Mount where
  sfs : SfsFs
  inos : List ℕ
  inode : ℕ → SfsInode

/-- The blocks that an inode of the file system refers to. -/
def Mount.refs (m : Mount) (ino : ℕ) : List ℕ := Ucore.Fs.refs m.sfs (m.inode ino)

structure Consistent (m : Mount) : Prop where
  geometry : Geometry m.sfs
  blocks_le : ∀ ino ∈ m.inos, (m.inode ino).blocks ≤ MAX_BLOCKS
  mapped : ∀ ino ∈ m.inos, ∀ index < (m.inode ino).blocks, blockAt m.sfs (m.inode ino) index ≠ 0
  unmapped : ∀ ino ∈ m.inos, ∀ index, (m.inode ino).blocks ≤ index → index < MAX_BLOCKS →
    blockAt m.sfs (m.inode ino) index = 0
  nodup : ∀ ino ∈ m.inos, (m.refs ino).Nodup
  disjoint : ∀ ino ∈ m.inos, ∀ other ∈ m.inos, other ≠ ino → ∀ b ∈ m.refs ino, b ∉ m.refs other
  data : ∀ ino ∈ m.inos, ∀ b ∈ m.refs ino, b < m.sfs.blocks ∧ ¬Reserved m.sfs b ∧ b ∉ m.inos
  inuse : ∀ b, 0 < b → b < m.sfs.blocks → (m.sfs.freemap.Free b ↔
    ¬Reserved m.sfs b ∧ b ∉ m.inos ∧ ∀ ino ∈ m.inos, b ∉ m.refs ino)

/-- Everything in use besides one inode's blocks. -/
def Mount.rest (m : Mount) (ino b : ℕ) : Prop :=
  Reserved m.sfs b ∨ b ∈ m.inos ∨ ∃ other ∈ m.inos, other ≠ ino ∧ b ∈ m.refs other

/-- The file system after a call on one inode. -/
def Mount.set (m : Mount) (ino : ℕ) (sfs : SfsFs) (sin : SfsInode) : Mount :=
  { m with sfs := sfs, inode := Function.update m.inode ino sin }

theorem Mount.set_inode_self (m : Mount) (ino : ℕ) (sfs : SfsFs) (sin : SfsInode) :
    (m.set ino sfs sin).inode ino = sin := Function.update_self ..

theorem Mount.set_inode_of_ne {ino other : ℕ} (h : other ≠ ino) (m : Mount) (sfs : SfsFs)
    (sin : SfsInode) : (m.set ino sfs sin).inode other = m.inode other :=
  Function.update_of_ne h ..

/-- A call on one of the inodes that returned, with whatever code. -/
inductive Step : Mount → Mount → Prop
  | io {m : Mount} {ino : ℕ} {memory : Bytes} {buf : ℕ} {offset : ℤ} {len : ℕ} {write : Bool}
      {ret : Ret Unit} {io : Io} (hino : ino ∈ m.inos)
      (hcall : sfsIoNolock m.sfs (m.inode ino) memory buf offset len write = .ok (ret, io)) :
      Step m (m.set ino io.fs io.sin)
  | tryseek {m : Mount} {ino : ℕ} {pos : ℤ} {ret : Ret Unit} {sfs : SfsFs} {sin : SfsInode}
      (hino : ino ∈ m.inos) (hcall : sfsTryseek m.sfs (m.inode ino) pos = .ok (ret, sfs, sin)) :
      Step m (m.set ino sfs sin)
  | truncfile {m : Mount} {ino : ℕ} {len : ℤ} {ret : Ret Unit} {sfs : SfsFs} {sin : SfsInode}
      (hino : ino ∈ m.inos) (hcall : sfsTruncfile m.sfs (m.inode ino) len = .ok (ret, sfs, sin)) :
      Step m (m.set ino sfs sin)

namespace Consistent

variable {m : Mount} {ino : ℕ}

theorem owns (h : Consistent m) (hino : ino ∈ m.inos) : Owns m.sfs (m.inode ino) (m.rest ino) where
  geometry := h.geometry
  blocks_le := h.blocks_le ino hino
  mapped := h.mapped ino hino
  unmapped := h.unmapped ino hino
  nodup := h.nodup ino hino
  range b hb := (h.data ino hino b hb).1
  apart b hb := by
    rintro (hreserved | hinode | ⟨other, hother, hne, hmem⟩)
    · exact (h.data ino hino b hb).2.1 hreserved
    · exact (h.data ino hino b hb).2.2 hinode
    · exact h.disjoint ino hino other hother hne b hb hmem
  inuse b hpos hlt := by
    rw [h.inuse b hpos hlt]
    constructor
    · rintro ⟨hreserved, hinode, hnone⟩
      refine ⟨hnone ino hino, ?_⟩
      rintro (hb | hb | ⟨other, hother, -, hb⟩)
      · exact hreserved hb
      · exact hinode hb
      · exact hnone other hother hb
    · rintro ⟨hown, hrest⟩
      refine ⟨fun hb ↦ hrest (Or.inl hb), fun hb ↦ hrest (Or.inr (Or.inl hb)), ?_⟩
      intro other hother hb
      by_cases heq : other = ino
      · exact hown (heq ▸ hb)
      · exact hrest (Or.inr (Or.inr ⟨other, hother, heq, hb⟩))

/-- Another inode has the blocks it had. -/
theorem other_indirect {sfs : SfsFs} {sin : SfsInode} (hkept : Kept m.sfs (m.rest ino) sfs sin)
    {other : ℕ} (hother : other ∈ m.inos) (hne : other ≠ ino) :
    (m.inode other).indirect ≠ 0 → sfs.dev.block (m.inode other).indirect =
      m.sfs.dev.block (m.inode other).indirect := fun hindirect ↦
  hkept.keeps.rest _ (Or.inr (Or.inr ⟨other, hother, hne, Owns.indirect_mem hindirect⟩))

theorem set (h : Consistent m) (hino : ino ∈ m.inos) {sfs : SfsFs} {sin : SfsInode}
    (hkept : Kept m.sfs (m.rest ino) sfs sin) : Consistent (m.set ino sfs sin) := by
  rcases hkept with ⟨howns, hkeeps⟩
  have hreserved : ∀ b, Reserved sfs b ↔ Reserved m.sfs b := fun b ↦ by
    rw [Reserved, Reserved, hkeeps.blocks]
  have hself : (m.set ino sfs sin).inode ino = sin := Mount.set_inode_self ..
  have hinode : ∀ other, other ≠ ino → (m.set ino sfs sin).inode other = m.inode other :=
    fun other hne ↦ Mount.set_inode_of_ne hne ..
  have hselfRefs : (m.set ino sfs sin).refs ino = refs sfs sin := by
    rw [Mount.refs, hself]
    rfl
  have hat : ∀ other ∈ m.inos, other ≠ ino → ∀ index,
      blockAt sfs (m.inode other) index = blockAt m.sfs (m.inode other) index :=
    fun other hother hne ↦ blockAt_congr (other_indirect ⟨howns, hkeeps⟩ hother hne)
  have hotherRefs : ∀ other ∈ m.inos, other ≠ ino → (m.set ino sfs sin).refs other = m.refs other :=
    fun other hother hne ↦ by
      rw [Mount.refs, hinode other hne]
      exact refs_congr (other_indirect ⟨howns, hkeeps⟩ hother hne)
  have hapart : ∀ other ∈ m.inos, other ≠ ino → ∀ b ∈ refs sfs sin, b ∉ m.refs other :=
    fun other hother hne b hb hmem ↦ howns.apart b hb (Or.inr (Or.inr ⟨other, hother, hne, hmem⟩))
  refine ⟨howns.geometry, fun other hother ↦ ?_, fun other hother ↦ ?_, fun other hother ↦ ?_,
    fun other hother ↦ ?_, fun first hfirst second hsecond hne b hb ↦ ?_,
    fun other hother b hb ↦ ?_, fun b hpos hlt ↦ ?_⟩
  · by_cases heq : other = ino
    · rw [heq, hself]
      exact howns.blocks_le
    · rw [hinode other heq]
      exact h.blocks_le other hother
  · by_cases heq : other = ino
    · rw [heq, hself]
      exact howns.mapped
    · rw [hinode other heq]
      exact fun index hindex ↦ (hat other hother heq index).trans_ne (h.mapped other hother index hindex)
  · by_cases heq : other = ino
    · rw [heq, hself]
      exact howns.unmapped
    · rw [hinode other heq]
      exact fun index hlow hhigh ↦
        (hat other hother heq index).trans (h.unmapped other hother index hlow hhigh)
  · by_cases heq : other = ino
    · rw [heq, hselfRefs]
      exact howns.nodup
    · rw [hotherRefs other hother heq]
      exact h.nodup other hother
  · by_cases hfirstIno : first = ino
    · subst hfirstIno
      rw [hselfRefs] at hb
      rw [hotherRefs second hsecond hne]
      exact hapart second hsecond hne b hb
    · rw [hotherRefs first hfirst hfirstIno] at hb
      by_cases hsecondIno : second = ino
      · rw [hsecondIno, hselfRefs]
        exact fun hmem ↦ hapart first hfirst hfirstIno b hmem hb
      · rw [hotherRefs second hsecond hsecondIno]
        exact h.disjoint first hfirst second hsecond hne b hb
  · by_cases heq : other = ino
    · rw [heq, hselfRefs] at hb
      exact ⟨howns.range b hb, fun hr ↦ howns.apart b hb (Or.inl ((hreserved b).mp hr)),
        fun hi ↦ howns.apart b hb (Or.inr (Or.inl hi))⟩
    · rw [hotherRefs other hother heq] at hb
      rcases h.data other hother b hb with ⟨hlt, hr, hi⟩
      exact ⟨hkeeps.blocks.symm ▸ hlt, fun hb ↦ hr ((hreserved b).mp hb), hi⟩
  · change sfs.freemap.Free b ↔ ¬Reserved sfs b ∧ b ∉ m.inos ∧
      ∀ other ∈ m.inos, b ∉ (m.set ino sfs sin).refs other
    rw [howns.inuse b hpos hlt, hreserved]
    constructor
    · rintro ⟨hown, hrest⟩
      refine ⟨fun hb ↦ hrest (Or.inl hb), fun hb ↦ hrest (Or.inr (Or.inl hb)), fun other hother ↦ ?_⟩
      by_cases heq : other = ino
      · rw [heq, hselfRefs]
        exact hown
      · rw [hotherRefs other hother heq]
        exact fun hb ↦ hrest (Or.inr (Or.inr ⟨other, hother, heq, hb⟩))
    · rintro ⟨hr, hi, hnone⟩
      refine ⟨hselfRefs ▸ hnone ino hino, ?_⟩
      rintro (hb | hb | ⟨other, hother, hne, hb⟩)
      · exact hr hb
      · exact hi hb
      · exact hnone other hother (hotherRefs other hother hne ▸ hb)

theorem step (h : Consistent m) {next : Mount} (hstep : Step m next) : Consistent next := by
  cases hstep with
  | io hino hcall => exact h.set hino (sfsIoNolock_spec (h.owns hino) _ _ _ _ _ _ hcall).1
  | tryseek hino hcall => exact h.set hino (sfsTryseek_spec (h.owns hino) _ _ hcall)
  | truncfile hino hcall => exact h.set hino (sfsTruncfile_spec (h.owns hino) _ _ hcall)

end Consistent

/-- Whatever calls return, and with whatever code, the file system stays consistent. -/
theorem consistent_of_reachable (first m : Mount) (hfirst : Consistent first)
    (h : Reachable (fun start ↦ start = first) Step m) : Consistent m :=
  h.invariant (fun start (heq : start = first) ↦ heq ▸ hfirst)
    fun _ _ hconsistent hstep ↦ hconsistent.step hstep

/-! ### One file of two blocks -/

/-- Seven blocks: superblock, root, free map, one inode, its two data blocks and a free one. -/
def sevenBlocks : SfsFs where
  blocks := 7
  unusedBlocks := 1
  freemap := ⟨SFS_BLKBITS, SFS_BLKBITS / WORD_BITS, fun ix ↦ if ix = 0 then 64#32 else 0#32⟩
  superDirty := false
  dev := ⟨7, fun b _ ↦ if b = 4 then 1 else if b = 5 then 2 else 0⟩

/-- A file of one whole block and one byte. -/
def twoBlockFile : SfsInode where
  size := 4097
  type := SFS_TYPE_FILE
  blocks := 2
  direct := fun index ↦ if index = 0 then 4 else if index = 1 then 5 else 0
  indirect := 0
  dirty := false

def oneFile : Mount := ⟨sevenBlocks, [3], fun _ ↦ twoBlockFile⟩

theorem sevenBlocks_free (b : ℕ) : sevenBlocks.freemap.Free b ↔ b = 6 := by
  by_cases hword : b / WORD_BITS = 0
  · have hlt : b < 32 := by
      unfold WORD_BITS at hword
      omega
    simp only [Bitmap.Free, sevenBlocks, hword, if_true]
    interval_cases b <;> simp [WORD_BITS]
  · have hne : b ≠ 6 := fun heq ↦ hword (heq ▸ rfl)
    simp [Bitmap.Free, sevenBlocks, hword, hne]

theorem consistent_oneFile : Consistent oneFile := by
  have hrefs : oneFile.refs 3 = [4, 5] := rfl
  have hunmapped : ∀ index, 2 ≤ index → blockAt sevenBlocks twoBlockFile index = 0 := by
    intro index hindex
    have hzero : index ≠ 0 := by omega
    have hone : index ≠ 1 := by omega
    simp [blockAt, twoBlockFile, hzero, hone]
  have hcount : sevenBlocks.freemap.freeCount = 1 := by
    rw [Bitmap.freeCount, Finset.filter_congr fun b _ ↦ sevenBlocks_free b, Finset.filter_eq',
      if_pos (Finset.mem_range.mpr (by decide)), Finset.card_singleton]
  constructor
  · exact ⟨⟨by decide, by decide⟩, by decide, by decide, by decide, by decide, hcount.symm⟩
  · exact fun _ _ ↦ (by decide : 2 ≤ MAX_BLOCKS)
  · exact fun _ _ ↦ (by decide : ∀ index < 2, blockAt sevenBlocks twoBlockFile index ≠ 0)
  · exact fun _ _ index hlow _ ↦ hunmapped index hlow
  · exact fun _ _ ↦ (by decide : [4, 5].Nodup)
  · intro ino hino other hother hne
    simp only [oneFile, List.mem_singleton] at hino hother
    exact absurd (hother.trans hino.symm) hne
  · exact fun _ _ ↦ (by decide : ∀ b ∈ [4, 5], b < 7 ∧ ¬Reserved sevenBlocks b ∧ b ∉ [3])
  · intro b hpos hlt
    rw [show oneFile.sfs.freemap.Free b ↔ b = 6 from sevenBlocks_free b]
    have hall : ∀ b < 7, 0 < b → (b = 6 ↔ ¬Reserved sevenBlocks b ∧ b ∉ [3] ∧
        ∀ ino ∈ [3], b ∉ [4, 5]) := by decide
    exact hall b hlt hpos

theorem consistent_oneFile_truncated : ∃ sfs sin,
    sfsTruncfile sevenBlocks twoBlockFile 1 = .ok (.ok (), sfs, sin) ∧
      Consistent (oneFile.set 3 sfs sin) := by
  have hcall : sfsTruncfile oneFile.sfs (oneFile.inode 3) 1 = .ok (.ok (), _, _) := rfl
  exact ⟨_, _, hcall, consistent_of_reachable oneFile _ consistent_oneFile
    (.step (.first rfl) (.truncfile (List.mem_singleton.mpr rfl) hcall))⟩

end Ucore.Fs
