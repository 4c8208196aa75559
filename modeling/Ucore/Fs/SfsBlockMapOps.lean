import Ucore.Fs.SfsBlockMap

/-!
# The functions on block maps

The steps of the previous module at the slots of an inode, and with them one specification for
each function: `sfs_bmap_load_nolock` keeps what the file had and maps the block it returns,
`sfs_bmap_truncate_nolock` gives the last block back, and a call that fails changes nothing that
counts.
-/

namespace Ucore.Fs

open Library

/-! ## Slots -/

namespace Owns

variable {s after : SfsFs} {sin sin' : SfsInode} {rest : ℕ → Prop} {b : ℕ}

/-- A block of the rest becomes the last block of the file. -/
theorem push (h : Owns s sin fun other ↦ rest other ∨ other = b) (hb : ¬rest b) (hpos : 0 < b)
    (hlt : b < s.blocks) (hslot : sin.blocks < MAX_BLOCKS) (hgeometry : Geometry after)
    (hfreemap : after.freemap = s.freemap) (hblocks : after.blocks = s.blocks)
    (hindirect : sin'.indirect = sin.indirect) (hcount : sin'.blocks = sin.blocks + 1)
    (hat : ∀ index, blockAt after sin' index =
      if index = sin.blocks then b else blockAt s sin index) : Owns after sin' rest := by
  have hlast : blockAt after sin' sin.blocks = b := by rw [hat, if_pos rfl]
  have hsame : ∀ index < sin.blocks, blockAt after sin' index = blockAt s sin index :=
    fun index hindex ↦ by rw [hat, if_neg hindex.ne]
  have hrefs := refs_grow hindirect hcount hsame
  rw [hlast] at hrefs
  refine h.enter hb hlt hgeometry hfreemap hblocks hrefs ?_ ?_ ?_
  · rw [hcount]
    exact hslot
  · intro index hindex
    rw [hcount] at hindex
    rw [hat]
    split
    · exact hpos.ne'
    · exact h.mapped index (by omega)
  · intro index hlow hhigh
    rw [hcount] at hlow
    rw [hat, if_neg (by omega)]
    exact h.unmapped index (by omega) hhigh

/-- The last block of the file is given to the rest. -/
theorem pop (h : Owns s sin rest) (hgeometry : Geometry after)
    (hfreemap : after.freemap = s.freemap) (hblocks : after.blocks = s.blocks)
    (hindirect : sin.indirect = sin'.indirect) (hcount : sin.blocks = sin'.blocks + 1)
    (hat : ∀ index, blockAt after sin' index =
      if index = sin'.blocks then 0 else blockAt s sin index) :
    Owns after sin' fun other ↦ rest other ∨ other = blockAt s sin sin'.blocks := by
  have hle := h.blocks_le
  have hsame : ∀ index < sin'.blocks, blockAt s sin index = blockAt after sin' index :=
    fun index hindex ↦ by rw [hat, if_neg hindex.ne]
  refine h.remove hgeometry hfreemap hblocks (refs_grow hindirect hcount hsame) ?_ ?_ ?_
  · omega
  · exact fun index hindex ↦ hsame index hindex ▸ h.mapped index (by omega)
  · intro index hlow hhigh
    rw [hat]
    split
    · rfl
    · exact h.unmapped index (by omega) hhigh

/-- Without an entry block a file has direct blocks only. -/
theorem blocks_le_of_indirect (h : Owns s sin rest) (hindirect : sin.indirect = 0) :
    sin.blocks ≤ SFS_NDIRECT := by
  by_contra hmore
  refine h.mapped SFS_NDIRECT (by omega) ?_
  simp [blockAt, hindirect]

/-- A block of zeros becomes the entry block of a file that has none. -/
theorem enterIndirect (h : Owns s sin fun other ↦ rest other ∨ other = b) (hb : ¬rest b)
    (hpos : 0 < b) (hlt : b < s.blocks) (hzero : s.dev.block b = fun _ ↦ 0)
    (hindirect : sin.indirect = 0) : Owns s { sin with indirect := b } rest := by
  have hle := h.blocks_le_of_indirect hindirect
  have hat : ∀ index, blockAt s { sin with indirect := b } index = blockAt s sin index := by
    intro index
    have hentry : entry s b (index - SFS_NDIRECT) = 0 := by
      simp [entry, hzero, word32]
    simp [blockAt, hindirect, hpos.ne', hentry]
  have hrefs : refs s { sin with indirect := b } = b :: refs s sin := by
    simp [refs, hindirect, hpos.ne', hat]
  refine h.enter hb hlt h.geometry rfl rfl (hrefs ▸ List.Perm.refl _) h.blocks_le ?_ ?_
  · exact fun index hindex ↦ hat index ▸ h.mapped index hindex
  · exact fun index hlow hhigh ↦ hat index ▸ h.unmapped index hlow hhigh

/-- An entry block that is not needed is given to the rest. -/
theorem removeIndirect (h : Owns s { sin with indirect := b } rest) (hpos : 0 < b)
    (hindirect : sin.indirect = 0) (hle : sin.blocks ≤ SFS_NDIRECT) :
    Owns s sin fun other ↦ rest other ∨ other = b := by
  have hat : ∀ index < sin.blocks,
      blockAt s { sin with indirect := b } index = blockAt s sin index := by
    intro index hindex
    have hdirect : index < SFS_NDIRECT := by omega
    simp [blockAt, hdirect]
  have hrefs : refs s { sin with indirect := b } = b :: refs s sin := by
    have hmap := List.map_congr_left fun index hindex ↦ hat index (List.mem_range.mp hindex)
    simp [refs, hindirect, hpos.ne', hmap]
  refine h.remove h.geometry rfl rfl (hrefs ▸ List.Perm.refl _) h.blocks_le ?_ ?_
  · exact fun index hindex ↦ hat index hindex ▸ h.mapped index hindex
  · intro index hlow hhigh
    by_cases hdirect : index < SFS_NDIRECT
    · have hzero := h.unmapped index hlow hhigh
      simpa [blockAt, hdirect] using hzero
    · simp [blockAt, hdirect, hindirect]

/-- Writing into a block of the file changes no block map. -/
theorem put (h : Owns s sin rest) {index : ℕ} (hindex : index < sin.blocks) (data : Bytes) :
    Owns (s.put (blockAt s sin index) data) sin rest := by
  have hindirect : sin.indirect ≠ 0 → (s.put (blockAt s sin index) data).dev.block sin.indirect =
      s.dev.block sin.indirect := fun _ ↦ by
    rw [put_block, if_neg (h.blockAt_ne_indirect hindex).symm]
  have hsame := refs_congr hindirect
  have hat := blockAt_congr hindirect
  refine ⟨h.geometry.put _ _, h.blocks_le, ?_, ?_, hsame ▸ h.nodup, hsame ▸ h.range,
    hsame ▸ h.apart, hsame ▸ h.inuse⟩
  · exact fun other hother ↦ hat other ▸ h.mapped other hother
  · exact fun other hlow hhigh ↦ hat other ▸ h.unmapped other hlow hhigh

end Owns

/-! ## What a call leaves alone -/

/-- The file keeps its blocks and their contents, and the rest keeps its contents. -/
structure Extends (s : SfsFs) (sin : SfsInode) (after : SfsFs) (sin' : SfsInode)
    (rest : ℕ → Prop) : Prop where
  size : sin'.size = sin.size
  type : sin'.type = sin.type
  blocks_le : sin.blocks ≤ sin'.blocks
  blockAt : ∀ index < sin.blocks, blockAt after sin' index = blockAt s sin index
  data : ∀ index < sin.blocks,
    after.dev.block (Ucore.Fs.blockAt s sin index) = s.dev.block (Ucore.Fs.blockAt s sin index)
  rest : ∀ b, rest b → after.dev.block b = s.dev.block b
  blocks : after.blocks = s.blocks

namespace Extends

variable {s after last : SfsFs} {sin sin' sin'' : SfsInode} {rest : ℕ → Prop} {b : ℕ}

theorem refl (s : SfsFs) (sin : SfsInode) (rest : ℕ → Prop) : Extends s sin s sin rest :=
  ⟨rfl, rfl, le_rfl, fun _ _ ↦ rfl, fun _ _ ↦ rfl, fun _ _ ↦ rfl, rfl⟩

theorem trans (h : Extends s sin after sin' rest) (hnext : Extends after sin' last sin'' rest) :
    Extends s sin last sin'' rest where
  size := hnext.size.trans h.size
  type := hnext.type.trans h.type
  blocks_le := h.blocks_le.trans hnext.blocks_le
  blockAt index hindex :=
    (hnext.blockAt index (hindex.trans_le h.blocks_le)).trans (h.blockAt index hindex)
  data index hindex := by
    have hdata := hnext.data index (hindex.trans_le h.blocks_le)
    rw [h.blockAt index hindex] at hdata
    exact hdata.trans (h.data index hindex)
  rest b hb := (hnext.rest b hb).trans (h.rest b hb)
  blocks := hnext.blocks.trans h.blocks

theorem of_alloc (h : Owns s sin rest) (halloc : Allocated s after b) :
    Extends s sin after sin rest := by
  rcases h.not_mem_of_free halloc.pos halloc.lt halloc.freemap.free with ⟨hrefs, hrest⟩
  have hindirect : sin.indirect ≠ 0 → after.dev.block sin.indirect = s.dev.block sin.indirect :=
    fun hne ↦ halloc.block _ fun heq ↦ hrefs (heq ▸ Owns.indirect_mem hne)
  exact ⟨rfl, rfl, le_rfl, fun index _ ↦ blockAt_congr hindirect index,
    fun index hindex ↦ halloc.block _ fun heq ↦ hrefs (heq ▸ Owns.blockAt_mem hindex),
    fun other hother ↦ halloc.block _ fun heq ↦ hrest (heq ▸ hother), halloc.blocks⟩

theorem of_free (hfree : Freed s after b) : Extends s sin after sin rest :=
  ⟨rfl, rfl, le_rfl, fun index _ ↦ blockAt_congr (fun _ ↦ by rw [hfree.dev]) index,
    fun _ _ ↦ by rw [hfree.dev], fun _ _ ↦ by rw [hfree.dev], hfree.blocks⟩

end Extends

/-- The rest keeps its contents. -/
structure Keeps (s after : SfsFs) (rest : ℕ → Prop) : Prop where
  rest : ∀ b, rest b → after.dev.block b = s.dev.block b
  blocks : after.blocks = s.blocks

theorem Keeps.refl (s : SfsFs) (rest : ℕ → Prop) : Keeps s s rest := ⟨fun _ _ ↦ rfl, rfl⟩

theorem Keeps.trans {s after last : SfsFs} {rest : ℕ → Prop} (h : Keeps s after rest)
    (hnext : Keeps after last rest) : Keeps s last rest :=
  ⟨fun b hb ↦ (hnext.rest b hb).trans (h.rest b hb), hnext.blocks.trans h.blocks⟩

theorem Extends.keeps {s after : SfsFs} {sin sin' : SfsInode} {rest : ℕ → Prop}
    (h : Extends s sin after sin' rest) : Keeps s after rest := ⟨h.rest, h.blocks⟩

/-! ## Specifications -/

section Specs

variable {s : SfsFs} {sin : SfsInode} {rest : ℕ → Prop}

/-- The postcondition of a call that maps one more block; its result names the entry block. -/
def Mapped (s : SfsFs) (before sin : SfsInode) (rest : ℕ → Prop) :
    Ret ℕ × ℕ × SfsFs → Prop
  | (.error _, _, after) => Owns after sin rest ∧ Extends s before after sin rest
  | (.ok ino, ent, after) =>
    let sin' := { sin with indirect := ent, blocks := sin.blocks + 1 }
    Owns after sin' rest ∧ Extends s before after sin' rest ∧ blockAt after sin' sin.blocks = ino

theorem sfsBmapCleanup_spec {ent : ℕ} (h : Owns s { sin with indirect := ent } rest)
    (hent : 0 < ent) (hnew : ent ≠ sin.indirect → sin.indirect = 0 ∧ sin.blocks ≤ SFS_NDIRECT)
    (code : Error) : Ensures (sfsBmapCleanup s code sin.indirect ent)
      (Mapped s { sin with indirect := ent } sin rest) := by
  unfold sfsBmapCleanup
  by_cases heq : ent = sin.indirect
  · subst heq
    simp only [ne_eq, not_true_eq_false, if_false, Outcome.pure_eq_ok, Ensures.ok_iff]
    exact ⟨h, Extends.refl ..⟩
  · rcases hnew heq with ⟨hindirect, hle⟩
    rw [if_pos heq]
    refine (sfsBlockFree_spec h.geometry ent).bind fun after hfree ↦ ?_
    have hrest : ¬rest ent := h.apart ent (Owns.indirect_mem hent.ne')
    rw [Outcome.pure_eq_ok, Ensures.ok_iff]
    refine ⟨(h.removeIndirect hent hindirect hle).free hrest hfree, ?_⟩
    have hextends : Extends s { sin with indirect := ent } after { sin with indirect := ent } rest :=
      Extends.of_free hfree
    refine { hextends with blockAt := fun index hindex ↦ ?_ }
    have hdirect : index < SFS_NDIRECT := Nat.lt_of_lt_of_le hindex hle
    simp [blockAt, hdirect]

theorem sfsBmapFill_spec {ent : ℕ} (h : Owns s { sin with indirect := ent } rest) (hent : 0 < ent)
    (hnew : ent ≠ sin.indirect → sin.indirect = 0 ∧ sin.blocks ≤ SFS_NDIRECT)
    (hlow : SFS_NDIRECT ≤ sin.blocks) (hslot : sin.blocks < MAX_BLOCKS) :
    Ensures (sfsBmapFill s sin.indirect ent (sin.blocks - SFS_NDIRECT))
      (Mapped s { sin with indirect := ent } sin rest) := by
  refine (sfsBlockAlloc_spec h.geometry).bind fun result hresult ↦ ?_
  rcases result with ⟨code | ino, s1⟩
  · have hsame : s1 = s := hresult
    subst hsame
    exact sfsBmapCleanup_spec h hent hnew code
  · have halloc : Allocated s s1 ino := hresult
    have hsmall := h.geometry.blocks_le
    have hlt := halloc.lt
    have howns := h.alloc halloc
    have hino := h.not_mem_of_free halloc.pos halloc.lt halloc.freemap.free
    have hrest : ¬rest ent := h.apart ent (Owns.indirect_mem hent.ne')
    refine (sfsWbuf_spec halloc.geometry _ _ _ _).bind ?_
    rintro _ ⟨-, -, -, rfl⟩
    simp only [Outcome.pure_eq_ok, Ensures.ok_iff]
    let sin1 : SfsInode := { sin with indirect := ent }
    let sin2 : SfsInode := { sin with indirect := ent, blocks := sin.blocks + 1 }
    let s2 := s1.setEntry ent (sin.blocks - SFS_NDIRECT) ino
    have hat : ∀ index, blockAt s2 sin2 index =
        if index = sin.blocks then ino else blockAt s1 sin1 index := by
      intro index
      have hentry := blockAt_setEntry (s := s1) (k := sin.blocks - SFS_NDIRECT)
        (show sin1.indirect ≠ 0 from hent.ne') (show ino < 2 ^ 32 by omega) index
      rw [Nat.add_sub_cancel' hlow] at hentry
      exact hentry
    refine ⟨?_, ?_, ?_⟩
    · exact howns.push hino.2 halloc.pos (halloc.blocks ▸ hlt) hslot (halloc.geometry.put _ _)
        rfl rfl rfl rfl hat
    · refine (Extends.of_alloc h halloc).trans ⟨rfl, rfl, Nat.le_succ _, fun index hindex ↦ ?_,
        fun index hindex ↦ ?_, fun other hother ↦ ?_, rfl⟩
      · exact (hat index).trans (if_neg (Nat.ne_of_lt hindex))
      · rw [put_block, if_neg (howns.blockAt_ne_indirect hindex)]
      · have hne : other ≠ ent := fun heq ↦ hrest (heq ▸ hother)
        rw [put_block, if_neg hne]
    · exact (hat _).trans (if_pos rfl)

/-- Mapping the block after the last one of a file that has all its direct blocks. -/
theorem sfsBmapGetSubNolock_spec (h : Owns s sin rest) (hlow : SFS_NDIRECT ≤ sin.blocks) :
    Ensures (sfsBmapGetSubNolock s sin.indirect (sin.blocks - SFS_NDIRECT) true)
      (Mapped s sin sin rest) := by
  refine Ensures.require fun hindex ↦ ?_
  have hslot : sin.blocks < MAX_BLOCKS := by
    unfold MAX_BLOCKS
    omega
  by_cases hindirect : sin.indirect = 0
  · have hle := h.blocks_le_of_indirect hindirect
    simp only [hindirect, ne_eq, not_true_eq_false, if_false]
    refine (sfsBlockAlloc_spec h.geometry).bind fun result hresult ↦ ?_
    rcases result with ⟨code | ent, s1⟩
    · have hsame : s1 = s := hresult
      subst hsame
      simp only [Outcome.pure_eq_ok, Ensures.ok_iff]
      exact ⟨h, Extends.refl ..⟩
    · have halloc : Allocated s s1 ent := hresult
      have hent := h.not_mem_of_free halloc.pos halloc.lt halloc.freemap.free
      have howns := (h.alloc halloc).enterIndirect hent.2 halloc.pos (halloc.blocks ▸ halloc.lt)
        halloc.zero hindirect
      have hextends : Extends s sin s1 { sin with indirect := ent } rest :=
        { Extends.of_alloc h halloc with
          blockAt := fun index hlt ↦ by
            have hdirect : index < SFS_NDIRECT := by omega
            simp [blockAt, hdirect] }
      have hfill := sfsBmapFill_spec howns halloc.pos (fun _ ↦ ⟨hindirect, hle⟩) hlow hslot
      rw [hindirect] at hfill
      refine hfill.mono fun result hresult ↦ ?_
      rcases result with ⟨code | ino, ent', after⟩
      · exact ⟨hresult.1, hextends.trans hresult.2⟩
      · exact ⟨hresult.1, hextends.trans hresult.2.1, hresult.2.2⟩
  · rw [if_pos hindirect]
    refine (sfsRbuf_spec h.geometry _ _ _).bind ?_
    rintro _ ⟨-, -, -, rfl⟩
    -- the entry after the last block is zero
    have hzero : word32 (fun index ↦ s.dev.block sin.indirect
        ((sin.blocks - SFS_NDIRECT) * 4 + index)) = 0 := by
      have hunmapped := h.unmapped sin.blocks le_rfl hslot
      rwa [blockAt, if_neg (Nat.not_lt.mpr hlow), if_neg hindirect] at hunmapped
    simp only [hzero, ne_eq, not_true_eq_false, or_self, if_false]
    exact sfsBmapFill_spec h (Nat.pos_of_ne_zero hindirect) (fun hne ↦ absurd rfl hne) hlow hslot

theorem sfsBmapGetOut_spec (s : SfsFs) (sin : SfsInode) (ino : ℕ) :
    Ensures (sfsBmapGetOut s sin ino) fun result ↦ result = (.ok ino, s, sin) := by
  unfold sfsBmapGetOut
  split
  · simp
  · refine (sfsBlockInuse_spec s ino).bind fun used _ ↦ Ensures.require fun _ ↦ ?_
    simp

/-- A block that the file has is found. -/
theorem sfsBmapGetNolock_spec_of_lt (h : Owns s sin rest) {index : ℕ} (hindex : index < sin.blocks) :
    Ensures (sfsBmapGetNolock s sin index false) fun result ↦
      result = (.ok (blockAt s sin index), s, sin) := by
  have hmapped := h.mapped index hindex
  have hle := h.blocks_le
  unfold sfsBmapGetNolock
  by_cases hdirect : index < SFS_NDIRECT
  · simp only [if_pos hdirect, Bool.false_eq_true, and_false, if_false]
    rw [blockAt, if_pos hdirect]
    exact sfsBmapGetOut_spec _ _ _
  · have hentry : index - SFS_NDIRECT < SFS_BLK_NENTRY := by
      unfold MAX_BLOCKS at hle
      omega
    have hindirect : sin.indirect ≠ 0 := fun hzero ↦ hmapped (by simp [blockAt, hdirect, hzero])
    have hat : blockAt s sin index = word32 fun offset ↦
        s.dev.block sin.indirect ((index - SFS_NDIRECT) * 4 + offset) := by
      rw [blockAt, if_neg hdirect, if_neg hindirect, entry]
    simp only [if_neg hdirect, if_pos hentry]
    have hsub : Ensures (sfsBmapGetSubNolock s sin.indirect (index - SFS_NDIRECT) false) fun result ↦
        result = (.ok (blockAt s sin index), sin.indirect, s) := by
      refine Ensures.require fun _ ↦ ?_
      rw [if_pos hindirect]
      refine (sfsRbuf_spec h.geometry _ _ _).bind ?_
      rintro _ ⟨-, -, -, rfl⟩
      simp [hat]
    refine hsub.bind ?_
    rintro _ rfl
    simp only [ne_eq, not_true_eq_false, if_false]
    exact sfsBmapGetOut_spec _ _ _

/-- The postcondition of a call that maps one more block and leaves the count to its caller. -/
def MappedNext (s : SfsFs) (sin : SfsInode) (rest : ℕ → Prop) : Ret ℕ × SfsFs × SfsInode → Prop
  | (.error _, after, sin') => Owns after sin' rest ∧ Extends s sin after sin' rest
  | (.ok ino, after, sin') =>
    sin'.blocks = sin.blocks ∧ Owns after { sin' with blocks := sin.blocks + 1 } rest ∧
      Extends s sin after { sin' with blocks := sin.blocks + 1 } rest ∧
      blockAt after sin' sin.blocks = ino

theorem sfsBmapGetNolock_spec_blocks (h : Owns s sin rest) :
    Ensures (sfsBmapGetNolock s sin sin.blocks true) (MappedNext s sin rest) := by
  unfold sfsBmapGetNolock
  by_cases hdirect : sin.blocks < SFS_NDIRECT
  · have hslot : sin.blocks < MAX_BLOCKS := Nat.lt_add_right _ hdirect
    have hzero : sin.direct sin.blocks = 0 := by
      have hunmapped := h.unmapped sin.blocks le_rfl hslot
      rwa [blockAt, if_pos hdirect] at hunmapped
    simp only [if_pos hdirect, hzero, and_self, if_true]
    refine (sfsBlockAlloc_spec h.geometry).bind fun result hresult ↦ ?_
    rcases result with ⟨code | ino, after⟩
    · have hsame : after = s := hresult
      subst hsame
      simp only [Outcome.pure_eq_ok, Ensures.ok_iff]
      exact ⟨h, Extends.refl ..⟩
    · have halloc : Allocated s after ino := hresult
      have hino := h.not_mem_of_free halloc.pos halloc.lt halloc.freemap.free
      refine (sfsBmapGetOut_spec _ _ _).mono ?_
      rintro _ rfl
      let sin' : SfsInode := { sin with
        direct := Function.update sin.direct sin.blocks ino, blocks := sin.blocks + 1, dirty := true }
      have hat : ∀ index, blockAt after sin' index =
          if index = sin.blocks then ino else blockAt after sin index :=
        blockAt_setDirect hdirect rfl rfl
      have hbefore := Extends.of_alloc h halloc
      refine ⟨rfl, ?_, ?_, ?_⟩
      · exact (h.alloc halloc).push hino.2 halloc.pos (halloc.blocks ▸ halloc.lt) hslot
          halloc.geometry rfl rfl rfl rfl hat
      · exact { hbefore with
          blocks_le := Nat.le_succ _
          blockAt := fun index hindex ↦ by
            exact (hat index).trans ((if_neg hindex.ne).trans (hbefore.blockAt index hindex)) }
      · exact (hat _).trans (if_pos rfl)
  · have hlow := Nat.not_lt.mp hdirect
    simp only [if_neg hdirect]
    split
    · refine (sfsBmapGetSubNolock_spec h hlow).bind fun result hresult ↦ ?_
      rcases result with ⟨code | ino, ent, after⟩
      · simp only [Outcome.pure_eq_ok, Ensures.ok_iff]
        exact hresult
      · rcases hresult with ⟨howns, hextends, hat⟩
        dsimp only
        split
        · refine Ensures.require fun _ ↦ (sfsBmapGetOut_spec _ _ _).mono ?_
          rintro _ rfl
          exact ⟨rfl, howns.of_fields rfl rfl rfl, { hextends with }, hat⟩
        · rename_i hsame
          rw [not_not] at hsame
          subst hsame
          refine (sfsBmapGetOut_spec _ _ _).mono ?_
          rintro _ rfl
          exact ⟨rfl, howns, hextends, hat⟩
    · exact Ensures.error

/-- The postcondition of `sfs_bmap_load_nolock` for a block index. -/
def Loaded (s : SfsFs) (sin : SfsInode) (rest : ℕ → Prop) (index : ℕ)
    (result : Ret ℕ × SfsFs × SfsInode) : Prop :=
  Owns result.2.1 result.2.2 rest ∧ Extends s sin result.2.1 result.2.2 rest ∧
    ∀ ino, result.1 = .ok ino →
      index < result.2.2.blocks ∧ blockAt result.2.1 result.2.2 index = ino

theorem sfsBmapLoadNolock_spec (h : Owns s sin rest) (index : ℕ) :
    Ensures (sfsBmapLoadNolock s sin index) (Loaded s sin rest index) := by
  refine Ensures.require fun hindex ↦ ?_
  rcases Nat.lt_or_eq_of_le hindex with hlt | rfl
  · have hcreate : decide (index = sin.blocks) = false := decide_eq_false hlt.ne
    simp only [hcreate]
    refine (sfsBmapGetNolock_spec_of_lt h hlt).bind ?_
    rintro _ rfl
    refine (sfsBlockInuse_spec s _).bind fun used _ ↦ Ensures.require fun _ ↦ ?_
    simp only [Bool.false_eq_true, if_false, Outcome.pure_eq_ok, Ensures.ok_iff]
    refine ⟨h, Extends.refl .., fun ino hino ↦ ?_⟩
    cases hino
    exact ⟨hlt, rfl⟩
  · simp only [decide_true]
    refine (sfsBmapGetNolock_spec_blocks h).bind fun result hresult ↦ ?_
    rcases result with ⟨code | ino, after, sin'⟩
    · simp only [Outcome.pure_eq_ok, Ensures.ok_iff]
      exact ⟨hresult.1, hresult.2, nofun⟩
    · rcases hresult with ⟨hblocks, howns, hextends, hat⟩
      refine (sfsBlockInuse_spec after _).bind fun used _ ↦ Ensures.require fun _ ↦ ?_
      have hle : sin.blocks + 1 ≤ MAX_BLOCKS := howns.blocks_le
      have hcount : uint32 (sin'.blocks + 1) = sin.blocks + 1 := by
        rw [hblocks]
        exact uint32_of_lt (Nat.lt_of_le_of_lt hle (by decide))
      simp only [if_true, Outcome.pure_eq_ok, Ensures.ok_iff, hcount]
      refine ⟨howns, hextends, fun _ heq ↦ ?_⟩
      cases heq
      exact ⟨Nat.lt_succ_self _, hat⟩

/-- Dropping the last block. -/
theorem sfsBmapFreeNolock_spec (h : Owns s sin rest) {last : ℕ} (hlast : sin.blocks = last + 1) :
    Ensures (sfsBmapFreeNolock s sin last) fun result ↦ result.1 = .ok () ∧
      result.2.2.blocks = sin.blocks ∧ Owns result.2.1 { result.2.2 with blocks := last } rest ∧
      Keeps s result.2.1 rest := by
  have hle := h.blocks_le
  have hmapped := h.mapped last (by omega)
  have hrest : ¬rest (blockAt s sin last) := h.apart _ (Owns.blockAt_mem (by omega))
  unfold sfsBmapFreeNolock
  by_cases hdirect : last < SFS_NDIRECT
  · have hblock : blockAt s sin last = sin.direct last := by rw [blockAt, if_pos hdirect]
    rw [hblock] at hmapped hrest
    simp only [if_pos hdirect, ne_eq, hmapped, not_false_eq_true, if_true]
    let sin' : SfsInode := { sin with
      direct := Function.update sin.direct last 0, blocks := last, dirty := true }
    have hat : ∀ index, blockAt s sin' index = if index = last then 0 else blockAt s sin index :=
      blockAt_setDirect hdirect rfl rfl
    have hpop : Owns s sin' fun other ↦ rest other ∨ other = blockAt s sin last :=
      h.pop h.geometry rfl rfl rfl hlast hat
    rw [hblock] at hpop
    refine (sfsBlockFree_spec h.geometry _).bind fun after hfree ↦ ?_
    simp only [Outcome.pure_eq_ok, Ensures.ok_iff, true_and]
    exact ⟨hpop.free hrest hfree, fun b _ ↦ by rw [hfree.dev], hfree.blocks⟩
  · have hslot : last - SFS_NDIRECT < SFS_BLK_NENTRY := by
      unfold MAX_BLOCKS at hle
      omega
    have hindirect : sin.indirect ≠ 0 := fun hzero ↦ hmapped (by simp [blockAt, hdirect, hzero])
    have hblock : blockAt s sin last = entry s sin.indirect (last - SFS_NDIRECT) := by
      rw [blockAt, if_neg hdirect, if_neg hindirect]
    simp only [if_neg hdirect, hslot, hindirect, ne_eq, not_false_eq_true, and_self, if_true]
    let s' := s.setEntry sin.indirect (last - SFS_NDIRECT) 0
    let sin' : SfsInode := { sin with blocks := last }
    have hat : ∀ index, blockAt s' sin' index = if index = last then 0 else blockAt s sin index := by
      intro index
      have hentry := blockAt_setEntry (s := s) (k := last - SFS_NDIRECT) hindirect
        (show 0 < 2 ^ 32 by decide) index
      rw [Nat.add_sub_cancel' (Nat.not_lt.mp hdirect)] at hentry
      exact hentry
    have hpop : Owns s' sin' fun other ↦ rest other ∨ other = blockAt s sin last :=
      h.pop (h.geometry.put _ _) rfl rfl rfl hlast hat
    rw [hblock] at hpop hmapped hrest
    have hsub : Ensures (sfsBmapFreeSubNolock s sin.indirect (last - SFS_NDIRECT)) fun result ↦
        result.1 = .ok () ∧ Freed s' result.2 (entry s sin.indirect (last - SFS_NDIRECT)) := by
      refine (sfsBlockInuse_spec s _).bind fun used _ ↦ Ensures.require fun _ ↦
        Ensures.require fun _ ↦ (sfsRbuf_spec h.geometry _ _ _).bind ?_
      rintro _ ⟨-, -, -, rfl⟩
      rw [entry] at hmapped ⊢
      simp only [ne_eq, hmapped, not_false_eq_true, if_true]
      refine (sfsWbuf_spec h.geometry _ _ _ _).bind ?_
      rintro _ ⟨-, -, -, rfl⟩
      refine (sfsBlockFree_spec (h.geometry.put _ _) _).bind fun after hfree ↦ ?_
      simp only [Outcome.pure_eq_ok, Ensures.ok_iff, true_and]
      exact hfree
    refine hsub.bind ?_
    rintro ⟨ret, after⟩ ⟨rfl, hfree⟩
    simp only [Outcome.pure_eq_ok, Ensures.ok_iff, true_and]
    refine ⟨hpop.free hrest hfree, fun b hb ↦ ?_, hfree.blocks⟩
    have hne : b ≠ sin.indirect := fun heq ↦ h.apart _ (Owns.indirect_mem hindirect) (heq ▸ hb)
    have hdev : after.dev = s'.dev := hfree.dev
    rw [hdev]
    exact (put_block ..).trans (if_neg hne)

theorem sfsBmapTruncateNolock_spec (h : Owns s sin rest) :
    Ensures (sfsBmapTruncateNolock s sin) fun result ↦ result.1 = .ok () ∧
      Owns result.2.1 result.2.2 rest ∧ Keeps s result.2.1 rest := by
  refine Ensures.require fun hblocks ↦ ?_
  rcases Nat.exists_eq_succ_of_ne_zero hblocks with ⟨last, hlast⟩
  rw [hlast, Nat.succ_sub_one]
  refine (sfsBmapFreeNolock_spec h hlast).bind ?_
  rintro ⟨ret, after, sin'⟩ ⟨rfl, hcount, howns, hkeeps⟩
  have hcount : sin'.blocks - 1 = last := by
    dsimp only at hcount
    omega
  simp only [Outcome.pure_eq_ok, Ensures.ok_iff, true_and, hcount]
  exact ⟨howns.of_fields rfl rfl rfl, hkeeps⟩

end Specs

end Ucore.Fs
