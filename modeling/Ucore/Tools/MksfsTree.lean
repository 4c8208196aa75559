import Ucore.Fs.SfsFreemapRun
import Ucore.Tools.MksfsMounted

/-!
# The image of a source tree

`create_img` walks over a directory of the host, and whatever it finds there, it only makes inodes,
appends data and enters names. What was shown of every state of the builder holds of the image that
it leaves behind.
-/

namespace Ucore.Tools

open Library Fs

/-! ## Walking over a tree -/

/-- The builder has got from one state to the other; inodes are kept, with their types. -/
structure Walked (stSize : ℕ) (image : ℕ → Bytes) (sfs sfs' : Mksfs) : Prop where
  build : ∃ ledger, Build stSize image sfs' ledger
  cached : ∀ ino, sfs.Cached ino → sfs'.Cached ino
  type : ∀ ino, sfs.Cached ino → (sfs'.inode ino).inode.type = (sfs.inode ino).inode.type

section Walk

variable {stSize : ℕ} {image : ℕ → Bytes} {sfs sfs' sfs'' : Mksfs} {ledger : Ledger}
  {current file : ℕ} {name : Name}

theorem Walked.refl (h : Build stSize image sfs ledger) : Walked stSize image sfs sfs :=
  ⟨⟨ledger, h⟩, fun _ hino ↦ hino, fun _ _ ↦ rfl⟩

theorem Walked.trans (h : Walked stSize image sfs sfs') (h' : Walked stSize image sfs' sfs'') :
    Walked stSize image sfs sfs'' where
  build := h'.build
  cached ino hino := h'.cached ino (h.cached ino hino)
  type ino hino := (h'.type ino (h.cached ino hino)).trans (h.type ino hino)

theorem walked_inode (h : Build stSize image sfs ledger) {real type ino : ℕ} (htype : IsType type)
    (hcall : allocCacheInode sfs real 0 type = .ok (ino, sfs')) :
    Walked stSize image sfs sfs' ∧ sfs'.Cached ino ∧ (sfs'.inode ino).inode.type = type := by
  rcases h.built with ⟨place, hbuilt⟩
  have hstep : Build stSize image sfs' ledger := h.step (.inode htype hcall)
  rcases allocCacheInode_ok hbuilt.counted hcall with ⟨hroom, rfl, rfl⟩
  refine ⟨⟨⟨ledger, hstep⟩, fun other hother ↦ ?_, fun other hother ↦ ?_⟩, ?_, ?_⟩
  · exact (mem_bucket_cons _ (hash32_lt _) other).mpr (Or.inr hother)
  · exact congrArg (fun ci : CacheInode ↦ ci.inode.type)
      (Function.update_of_ne (hbuilt.cached_lt hother).ne ..)
  · exact (mem_bucket_cons _ (hash32_lt _) _).mpr (Or.inl rfl)
  · have hnew : (sfs.addInode real type).inode sfs.nextIno = .new real type sfs.nextIno :=
      Function.update_self ..
    rw [hnew]
    rfl

theorem walked_data (h : Build stSize image sfs ledger) {buffer : List UInt8}
    (hfile : sfs.Cached file) (htype : (sfs.inode file).inode.type ≠ SFS_TYPE_DIR)
    (hcall : addData sfs file buffer = .ok sfs') : Walked stSize image sfs sfs' := by
  rcases h.built with ⟨place, hbuilt⟩
  rcases hbuilt.addData_ok hfile hcall with ⟨place', data, hextended⟩
  exact ⟨⟨_, h.step (.data hfile htype hcall)⟩, fun ino hino ↦ (hextended.cached ino).mpr hino,
    fun ino _ ↦ hextended.type ino⟩

theorem walked_entry (h : Build stSize image sfs ledger) (hcurrent : sfs.Cached current)
    (hfile : sfs.Cached file) (hcall : addEntry sfs current file name = .ok sfs') :
    Walked stSize image sfs sfs' := by
  rcases h.built with ⟨place, hbuilt⟩
  have htypes := addEntry_types hbuilt hcurrent hcall
  exact ⟨⟨_, h.step (.entry hcurrent hfile hcall)⟩, fun ino hino ↦ (htypes ino).1.mpr hino,
    fun ino _ ↦ (htypes ino).2⟩

theorem walked_openFile {reads : List (List UInt8)} {last : ℕ} (h : Build stSize image sfs ledger)
    (hfile : sfs.Cached file) (htype : (sfs.inode file).inode.type ≠ SFS_TYPE_DIR)
    (hcall : openFile file reads last sfs = .ok sfs') : Walked stSize image sfs sfs' := by
  induction reads generalizing sfs last ledger with
  | nil =>
    cases hcall
    exact Walked.refl h
  | cons buffer reads ih =>
    rw [openFile] at hcall
    by_cases hempty : buffer.length = 0
    · rw [if_pos hempty] at hcall
      cases hcall
      exact Walked.refl h
    · rw [if_neg hempty] at hcall
      rcases Outcome.bind_eq_ok.mp hcall with ⟨_, -, hcall⟩
      rcases Outcome.bind_eq_ok.mp hcall with ⟨mid, hdata, hcall⟩
      have hwalked := walked_data h hfile htype hdata
      rcases hwalked.build with ⟨ledger', h'⟩
      have htype' : (mid.inode file).inode.type ≠ SFS_TYPE_DIR := (hwalked.type file hfile).trans_ne htype
      exact hwalked.trans (ih h' (hwalked.cached file hfile) htype' hcall)

/-- An inode that is found by its number on the host. -/
theorem cached_of_searchCacheInode {real : ℕ} (h : searchCacheInode sfs real = some file) :
    sfs.Cached file := ⟨hash64 real, hash32_lt _, List.mem_of_find?_eq_some h⟩

mutual

theorem walked_addNode (node : Node) {sfs sfs' : Mksfs} {ledger : Ledger} {current : ℕ}
    {name : Name} (h : Build stSize image sfs ledger) (hcurrent : sfs.Cached current)
    (hcall : addNode current name node sfs = .ok sfs') : Walked stSize image sfs sfs' := by
  cases node with
  | link real target =>
    rw [addNode] at hcall
    rcases Outcome.bind_eq_ok.mp hcall with ⟨⟨file, sfs1⟩, halloc, hcall⟩
    rcases Outcome.bind_eq_ok.mp hcall with ⟨sfs2, hlink, hentry⟩
    rcases Outcome.bind_eq_ok.mp hlink with ⟨_, -, hdata⟩
    rcases walked_inode h (Or.inr (Or.inr rfl)) halloc with ⟨hwalked1, hfile, htype⟩
    rcases hwalked1.build with ⟨ledger1, h1⟩
    have hwalked2 := walked_data h1 hfile (by rw [htype]; decide) hdata
    rcases hwalked2.build with ⟨ledger2, h2⟩
    exact (hwalked1.trans hwalked2).trans (walked_entry h2
      (hwalked2.cached _ (hwalked1.cached _ hcurrent)) (hwalked2.cached _ hfile) hentry)
  | dir real entries =>
    rw [addNode] at hcall
    rcases Outcome.bind_eq_ok.mp hcall with ⟨_, -, hcall⟩
    rcases Outcome.bind_eq_ok.mp hcall with ⟨⟨child, sfs1⟩, halloc, hcall⟩
    rcases Outcome.bind_eq_ok.mp hcall with ⟨sfs2, hself, hcall⟩
    rcases Outcome.bind_eq_ok.mp hcall with ⟨sfs3, hparent, hcall⟩
    rcases Outcome.bind_eq_ok.mp hcall with ⟨sfs4, hentries, hentry⟩
    rcases walked_inode h (Or.inl rfl) halloc with ⟨hwalked1, hchild, -⟩
    rcases hwalked1.build with ⟨ledger1, h1⟩
    have hwalked2 := walked_entry h1 hchild hchild hself
    rcases hwalked2.build with ⟨ledger2, h2⟩
    have hcurrent2 := hwalked2.cached _ (hwalked1.cached _ hcurrent)
    have hwalked3 := walked_entry h2 (hwalked2.cached _ hchild) hcurrent2 hparent
    rcases hwalked3.build with ⟨ledger3, h3⟩
    have hchild3 := hwalked3.cached _ (hwalked2.cached _ hchild)
    have hwalked4 := walked_openEntries entries h3 hchild3 hentries
    rcases hwalked4.build with ⟨ledger4, h4⟩
    have hwalked5 := walked_entry h4 (hwalked4.cached _ (hwalked3.cached _ hcurrent2))
      (hwalked4.cached _ hchild3) hentry
    exact (((hwalked1.trans hwalked2).trans hwalked3).trans hwalked4).trans hwalked5
  | file real reads =>
    rw [addNode] at hcall
    cases hsearch : searchCacheInode sfs real with
    | some file =>
      rw [hsearch] at hcall
      exact walked_entry h hcurrent (cached_of_searchCacheInode hsearch) hcall
    | none =>
      rw [hsearch] at hcall
      rcases Outcome.bind_eq_ok.mp hcall with ⟨⟨file, sfs1⟩, halloc, hcall⟩
      rcases Outcome.bind_eq_ok.mp hcall with ⟨sfs2, hopen, hentry⟩
      rcases walked_inode h (Or.inr (Or.inl rfl)) halloc with ⟨hwalked1, hfile, htype⟩
      rcases hwalked1.build with ⟨ledger1, h1⟩
      have hwalked2 := walked_openFile h1 hfile (by rw [htype]; decide) hopen
      rcases hwalked2.build with ⟨ledger2, h2⟩
      exact (hwalked1.trans hwalked2).trans (walked_entry h2
        (hwalked2.cached _ (hwalked1.cached _ hcurrent)) (hwalked2.cached _ hfile) hentry)
  | other =>
    rw [addNode] at hcall
    cases hcall
    exact Walked.refl h

theorem walked_openEntries (entries : Entries) {sfs sfs' : Mksfs} {ledger : Ledger} {current : ℕ}
    (h : Build stSize image sfs ledger) (hcurrent : sfs.Cached current)
    (hcall : openEntries current entries sfs = .ok sfs') : Walked stSize image sfs sfs' := by
  cases entries with
  | nil =>
    rw [openEntries] at hcall
    cases hcall
    exact Walked.refl h
  | cons name node rest =>
    rw [openEntries] at hcall
    by_cases hhidden : Hidden name
    · rw [if_pos hhidden] at hcall
      exact walked_openEntries rest h hcurrent hcall
    · rw [if_neg hhidden] at hcall
      rcases Outcome.bind_eq_ok.mp hcall with ⟨_, -, hcall⟩
      rcases Outcome.bind_eq_ok.mp hcall with ⟨mid, hnode, hcall⟩
      have hwalked := walked_addNode node h hcurrent hnode
      rcases hwalked.build with ⟨ledger', h'⟩
      exact hwalked.trans (walked_openEntries rest h' (hwalked.cached _ hcurrent) hcall)

end

/-- Every image is the end of a run of the builder. -/
theorem build_of_createImg {home : Entries} {done : Mksfs}
    (hcall : createImg stSize image home = .ok done) :
    ∃ sfs ledger, Build stSize image sfs ledger ∧ closeSfs sfs = .ok done := by
  rcases Outcome.bind_eq_ok.mp hcall with ⟨sfs0, hcreate, hcall⟩
  rcases Outcome.bind_eq_ok.mp hcall with ⟨sfs, hopen, hclose⟩
  rcases Outcome.bind_eq_ok.mp hopen with ⟨sfs1, hself, hopen⟩
  rcases Outcome.bind_eq_ok.mp hopen with ⟨sfs2, hparent, hentries⟩
  have h0 : Build stSize image sfs0 .empty := Reachable.first ⟨hcreate, rfl⟩
  have hroot : sfs0.Cached SFS_BLKN_ROOT := by
    rw [createSfs_eq] at hcreate
    rcases Outcome.bind_eq_ok.mp hcreate with ⟨_, -, heq⟩
    cases heq
    exact (mem_bucket_cons (fun _ ↦ []) (hash32_lt 0) _).mpr (Or.inl rfl)
  have hwalked1 := walked_entry h0 hroot hroot hself
  rcases hwalked1.build with ⟨ledger1, h1⟩
  have hroot1 := hwalked1.cached _ hroot
  have hwalked2 := walked_entry h1 hroot1 hroot1 hparent
  rcases hwalked2.build with ⟨ledger2, h2⟩
  rcases (walked_openEntries home h2 (hwalked2.cached _ hroot1) hentries).build with ⟨ledger, h⟩
  exact ⟨sfs, ledger, h, hclose⟩

end Walk

/-! ## What is in the image -/

/-- The number of the block that the builder uses for a place. -/
def Mksfs.Uses (sfs : Mksfs) : Place → ℕ → Prop
  | .super, b => b = SFS_BLKN_SUPER
  | .freemap index, b => index < sfs.freemapBlocks ∧ b = SFS_BLKN_FREEMAP + index
  | .inode ino, b => sfs.Cached ino ∧ b = ino
  | .indirect ino, b => sfs.Cached ino ∧ (sfs.inode ino).inode.indirect ≠ 0 ∧
      b = (sfs.inode ino).inode.indirect
  | .dbIndirect ino, b => sfs.Cached ino ∧ (sfs.inode ino).inode.dbIndirect ≠ 0 ∧
      b = (sfs.inode ino).inode.dbIndirect
  | .level ino k, b => sfs.Cached ino ∧ (sfs.inode ino).inode.dbIndirect ≠ 0 ∧ b ≠ 0 ∧
      b = sfs.cache (sfs.inode ino).inode.dbIndirect k
  | .data ino index, b => sfs.Cached ino ∧ index < (sfs.inode ino).inode.blocks ∧
      b = (sfs.inode ino).blockAt sfs.cache index

/-- A bit of the free map of an image. -/
def freemapBit (image : ℕ → Bytes) (b : ℕ) : Bool :=
  (BitVec.ofNat 32 (wordAt (image (SFS_BLKN_FREEMAP + b / SFS_BLKBITS))
    (b % SFS_BLKBITS / WORD_BITS * 4))).getLsbD (b % WORD_BITS)

def superBlocks (image : ℕ → Bytes) : ℕ := wordAt (image SFS_BLKN_SUPER) 4

def superUnusedBlocks (image : ℕ → Bytes) : ℕ := wordAt (image SFS_BLKN_SUPER) 8

/-- No number is in use twice, and the superblock and the free map say which are in use. -/
structure SoundImage (done : Mksfs) : Prop where
  lt : ∀ p b, done.Uses p b → b < done.nextIno
  nextIno_le : done.nextIno ≤ done.ninos
  distinct : ∀ p q b, done.Uses p b → done.Uses q b → p = q
  blocks : superBlocks done.image = done.ninos
  freemap : ∀ b < done.freemapBlocks * SFS_BLKBITS,
    freemapBit done.image b = true ↔ done.nextIno ≤ b ∧ b < superBlocks done.image
  unusedBlocks : superUnusedBlocks done.image =
    ((Finset.range (done.freemapBlocks * SFS_BLKBITS)).filter (freemapBit done.image ·)).card

/-- The kernel mounts the image, and from then on it allocates free blocks of the file system as
long as there are any. -/
structure SoundMount (done : Mksfs) (dev : Device) : Prop where
  completes : ∀ memory, Completes (sfsDoMount memory dev)
  mounts : ∃ s, sfsDoMount ⟨true, true, true, true⟩ dev = .ok (.ok s)
  run : ∀ memory first s, sfsDoMount memory dev = .ok (.ok first) →
    Reachable (fun start ↦ start = first) KernelStep s →
      s.blocks = superBlocks done.image ∧
        ∃ result, bitmapAlloc s.freemap = .ok result ∧ AllocatesRight s result

section Sound

variable {sfs : Mksfs} {ledger : Ledger} {place : ℕ → Option Place} {image : ℕ → Bytes} {dBlocks : ℕ}

theorem Built.place_of_uses (h : Built sfs ledger place) {p : Place} {b : ℕ} (huses : sfs.Uses p b) :
    place b = some p := by
  cases p with
  | super =>
    rw [Mksfs.Uses] at huses
    rw [huses]
    exact h.counted.super
  | freemap index =>
    rcases huses with ⟨hindex, rfl⟩
    exact h.counted.freemap index hindex
  | inode ino =>
    rcases huses with ⟨hino, rfl⟩
    exact (h.counted.inode b).mp hino
  | indirect ino =>
    rcases huses with ⟨hino, hne, rfl⟩
    have hmaps := h.maps ino hino
    exact hmaps.indirect (not_le.mp fun hle ↦ hne (hmaps.noIndirect hle))
  | dbIndirect ino =>
    rcases huses with ⟨hino, hne, rfl⟩
    have hmaps := h.maps ino hino
    exact hmaps.dbIndirect (not_le.mp fun hle ↦ hne (hmaps.noDbIndirect hle))
  | level ino k =>
    rcases huses with ⟨hino, hne, hb, rfl⟩
    have hmaps := h.maps ino hino
    have hfar : SFS_L1_NBLKS < (ledger.blocks ino).length :=
      not_le.mp fun hle ↦ hne (hmaps.noDbIndirect hle)
    exact hmaps.level k (not_le.mp fun hle ↦ hb (hmaps.noLevel k hfar hle))
  | data ino index =>
    rcases huses with ⟨hino, hindex, rfl⟩
    have hmaps := h.maps ino hino
    rw [hmaps.count] at hindex
    rw [hmaps.data index hindex]
    exact hmaps.placed index hindex

/-- The bits of the free map are those of the blocks that were not handed out. -/
theorem freemapBit_iff {count first : ℕ} (h : Formatted ⟨dBlocks, image⟩ count first) {b : ℕ}
    (hb : b < sfsFreemapBlocks count * SFS_BLKBITS) :
    freemapBit image b = true ↔ first ≤ b ∧ b < count := by
  have hi : b / SFS_BLKBITS < sfsFreemapBlocks count := by
    unfold SFS_BLKBITS at *
    omega
  have hw : b % SFS_BLKBITS / WORD_BITS < SFS_BLKSIZE / 4 := by
    unfold SFS_BLKBITS WORD_BITS SFS_BLKSIZE
    omega
  have hsum : b / SFS_BLKBITS * SFS_BLKBITS + b % SFS_BLKBITS / WORD_BITS * WORD_BITS +
      b % WORD_BITS = b := by
    unfold SFS_BLKBITS WORD_BITS
    omega
  have hbit := h.freemap _ hi _ hw _ (offset_lt b)
  rw [hsum] at hbit
  exact hbit

theorem soundImage_of_built (h : Built sfs ledger place) (hfinished : Finished sfs place image) :
    SoundImage { sfs with image } := by
  have hmax := h.counted.ninos_le
  unfold SFS_MAX_NBLKS at hmax
  have hformatted := hfinished.formatted h.counted (le_refl sfs.ninos) (by omega)
  have hblocks : superBlocks image = sfs.ninos := hformatted.blocks
  have huses : ∀ p b, Mksfs.Uses { sfs with image } p b → place b = some p := by
    intro p b hb
    exact h.place_of_uses (by cases p <;> exact hb)
  have hbit : ∀ b < sfs.freemapBlocks * SFS_BLKBITS,
      freemapBit image b = true ↔ sfs.nextIno ≤ b ∧ b < superBlocks image := by
    intro b hb
    rw [hblocks]
    exact freemapBit_iff hformatted hb
  refine ⟨fun p b hb ↦ h.counted.lt b p (huses p b hb), h.counted.nextIno_le,
    fun p q b hp hq ↦ ?_, hblocks, hbit, ?_⟩
  · exact Option.some.inj ((huses p b hp).symm.trans (huses q b hq))
  · have hinterval : (Finset.range (sfs.freemapBlocks * SFS_BLKBITS)).filter (freemapBit image ·) =
        Finset.Ico sfs.nextIno sfs.ninos := by
      ext b
      rw [Finset.mem_filter, Finset.mem_range, Finset.mem_Ico]
      have hle := le_sfsFreemapBlocks sfs.ninos
      have hsame : sfs.freemapBlocks = sfsFreemapBlocks sfs.ninos := rfl
      constructor
      · rintro ⟨hlt, hb⟩
        exact hblocks ▸ (hbit b hlt).mp hb
      · intro hb
        have hlt : b < sfs.freemapBlocks * SFS_BLKBITS := hb.2.trans_le hle
        exact ⟨hlt, (hbit b hlt).mpr (hblocks ▸ hb)⟩
    refine Eq.trans hformatted.unusedBlocks ?_
    rw [← Nat.card_Ico, ← hinterval]
    rfl

theorem soundMount_of_built (h : Built sfs ledger place) (hfinished : Finished sfs place image)
    (hdevice : sfs.ninos ≤ dBlocks) (hsmall : dBlocks < 2 ^ 32) :
    SoundMount { sfs with image } ⟨dBlocks, image⟩ := by
  have hformatted := hfinished.formatted h.counted hdevice hsmall
  rcases sfsDoMount_of_formatted hformatted with ⟨first, hmounted, hmount, hany⟩
  refine ⟨fun memory ↦ ?_, ⟨first, hmount⟩, fun memory first' s hfirst hreachable ↦ ?_⟩
  · rcases hany memory with hok | hfail
    · exact ⟨_, hok⟩
    · exact ⟨_, hfail⟩
  · have hsame : first' = first := by
      rcases hany memory with hok | hfail
      · cases hfirst.symm.trans hok
        rfl
      · cases hfirst.symm.trans hfail
    have htracks := tracks_of_reachable (hsame ▸ hreachable)
    have hgeometry := hmounted.geometry hformatted
    have hbounded : Bounded first :=
      ⟨hgeometry.covers, hgeometry.blocks_le_nbits, hmounted.ranged hformatted⟩
    refine ⟨?_, bitmapAlloc_right (htracks.bounded hbounded)⟩
    rw [htracks.blocks, hmounted.blocks]
    exact hformatted.blocks.symm

/-- The image of any source tree, for any size of the image file. -/
theorem sound_createImg (stSize : ℕ) (image : ℕ → Bytes) (home : Entries) (done : Mksfs)
    (hcall : createImg stSize image home = .ok done) : SoundImage done ∧
      ∀ dBlocks, done.ninos ≤ dBlocks → dBlocks < 2 ^ 32 →
        SoundMount done ⟨dBlocks, done.image⟩ := by
  rcases build_of_createImg hcall with ⟨sfs, ledger, hbuild, hclose⟩
  rcases hbuild.built with ⟨place, hbuilt⟩
  rcases closeSfs_eq hbuilt with ⟨image', hclose', hfinished⟩
  cases hclose.symm.trans hclose'
  exact ⟨soundImage_of_built hbuilt hfinished,
    fun dBlocks hdevice hsmall ↦ soundMount_of_built hbuilt hfinished hdevice hsmall⟩

/-- An empty home directory in an image of 16 blocks. -/
theorem sound_createImg_empty : ∃ done, createImg 65536 (fun _ _ ↦ 0) .nil = .ok done ∧
    SoundImage done ∧ SoundMount done ⟨16, done.image⟩ := by
  have hninos : imageBlocks 65536 = 16 := by decide
  have hroom : firstIno (imageBlocks 65536) < imageBlocks 65536 := by
    rw [hninos]
    decide
  have hfirst := build_first hroom fun _ _ ↦ 0
  have hcreate : createSfs 65536 (fun _ _ ↦ 0) = .ok (.first 16 fun _ _ ↦ 0) := by
    rw [createSfs_eq, Outcome.require_of_true hroom, hninos]
    rfl
  rw [hninos] at hfirst
  rcases hfirst.built with ⟨place, hbuilt⟩
  have hroot : (Mksfs.first 16 fun _ _ ↦ 0).Cached SFS_BLKN_ROOT :=
    (mem_bucket_cons (fun _ ↦ []) (hash32_lt 0) _).mpr (Or.inl rfl)
  rcases hbuilt.exists_addEntry SFS_BLKN_ROOT dot hroot rfl (by decide)
    (by decide) (by decide) with ⟨sfs1, hself⟩
  rcases hbuilt.entry hroot hroot hself with ⟨place1, hbuilt1⟩
  rcases addEntry_counters hbuilt hroot hself with ⟨hninos1, hnext1⟩
  have htypes := addEntry_types hbuilt hroot hself SFS_BLKN_ROOT
  have hroot1 := htypes.1.mpr hroot
  have hroom : sfs1.nextIno + 3 ≤ sfs1.ninos := by
    rw [hninos1]
    exact (Nat.add_le_add_right hnext1 3).trans (by decide)
  rcases hbuilt1.exists_addEntry SFS_BLKN_ROOT dotdot hroot1 htypes.2 (by decide)
    hroom (show 1 < SFS_LN_NBLKS by decide) with ⟨sfs2, hparent⟩
  rcases hbuilt1.entry hroot1 hroot1 hparent with ⟨place2, hbuilt2⟩
  rcases addEntry_counters hbuilt1 hroot1 hparent with ⟨hninos2, -⟩
  rcases closeSfs_eq hbuilt2 with ⟨image, hclose, -⟩
  have hcall : createImg 65536 (fun _ _ ↦ 0) .nil = .ok { sfs2 with image } := by
    rw [createImg, hcreate, Outcome.ok_bind, openDir, hself, Outcome.ok_bind, hparent,
      Outcome.ok_bind, openEntries, Outcome.pure_eq_ok, Outcome.ok_bind, hclose]
  rcases sound_createImg _ _ _ _ hcall with ⟨himage, hmount⟩
  exact ⟨_, hcall, himage, hmount 16 (hninos2.trans hninos1).le (by decide)⟩

end Sound

end Ucore.Tools
