import Ucore.Mm.ExitMmap
import Ucore.Mm.UserView

/-!
# Copying the pages of an area

`copy_range` of `kern/mm/pmm.c`. Each page that is present gets a frame of its own in the other
directory, with the same bytes and the same rights of the user. The other directory never takes
more frames than the first one has, and so as many free frames are enough.
-/

namespace Ucore.Mm

open Library

/-- The round of `copy_range` for a present entry. It is false if there is no frame for a table, and
stops if there is none for the page. -/
def copyPage (m : Memory) (toDir : Pgdir) (start pte : ℕ) : Outcome (Bool × Memory × Pgdir) :=
  match createPte m toDir start with
  | (false, m, toDir) => .ok (false, m, toDir)
  | (true, m, toDir) =>
    let perm := pte &&& PTE_USER
    let page := pte2page pte
    match m.allocPage with
    | (none, _) => .error .panic
    | (some npage, m) => do
      let m ← m.store npage 0 PGSIZE (m.bytes page)
      let (mapped, m, toDir) := pageInsert m toDir npage start perm
      Outcome.require mapped
      return (true, m, toDir)

/-- The condition at the end of the loop in `copy_range`. -/
def copyNext (m : Memory) (toDir : Pgdir) (start stop : ℕ) :
    (Memory × Pgdir × ℕ) ⊕ (ℤ × Memory × Pgdir) :=
  if start ≠ 0 ∧ start < stop then .inl (m, toDir, start) else .inr (0, m, toDir)

/-- The body of the loop in `copy_range`. -/
def copyRound (fromDir : Pgdir) (stop : ℕ) :
    Memory × Pgdir × ℕ → Outcome ((Memory × Pgdir × ℕ) ⊕ (ℤ × Memory × Pgdir))
  | (m, toDir, start) =>
    match fromDir.getPte start with
    | none => .ok (copyNext m toDir (roundDown (start + PTSIZE) PTSIZE) stop)
    | some pte =>
      if Present pte then do
        let (copied, m, toDir) ← copyPage m toDir start pte
        return if copied then copyNext m toDir (start + PGSIZE) stop
          else .inr (-E_NO_MEM, m, toDir)
      else .ok (copyNext m toDir (start + PGSIZE) stop)

/-- `copy_range`. -/
def copyRange (fuel : ℕ) (m : Memory) (toDir fromDir : Pgdir) (start stop : ℕ) :
    Outcome (ℤ × Memory × Pgdir) := do
  Outcome.require (start % PGSIZE = 0 ∧ stop % PGSIZE = 0)
  Outcome.require (UserAccess start stop)
  loop (copyRound fromDir stop) fuel (m, toDir, start)

/-! ## How many frames a directory holds -/

section Counting

variable {pgdir pgdir' outer : Pgdir} {m : Memory} {la : ℕ} {i j k : Fin 512}

/-- The table of the last level in a slot. -/
def Table.slot (pgdir : Pgdir) (i j : Fin 512) : Option PageTable :=
  (pgdir.entry i).bind fun pd0 ↦ pd0.entry j

/-- An entry of the last level, which is zero if there is no table for it. -/
def Table.leaf (pgdir : Pgdir) (i j k : Fin 512) : ℕ :=
  (pgdir.slot i j).elim 0 fun pt ↦ pt.entry k

theorem getPte_eq_slot (pgdir : Pgdir) (la : ℕ) :
    pgdir.getPte la = (pgdir.slot (PDX1 la) (PDX0 la)).map fun pt ↦ pt.entry (PTX la) := by
  unfold Table.getPte Table.slot
  cases pgdir.entry (PDX1 la) with
  | none => rfl
  | some pd0 =>
    change _ = (pd0.entry (PDX0 la)).map _
    dsimp only
    cases pd0.entry (PDX0 la) with
    | none => rfl
    | some pt => rfl

theorem leaf_address (pgdir : Pgdir) (la : ℕ) :
    pgdir.leaf (PDX1 la) (PDX0 la) (PTX la) = pgdir.pte la := by
  rw [Table.pte, getPte_eq_slot, Table.leaf]
  cases pgdir.slot (PDX1 la) (PDX0 la) with
  | none => rfl
  | some pt => rfl

theorem card_pageOf (pte : ℕ) : (pageOf pte).card = if Present pte then 1 else 0 := by
  unfold pageOf
  split <;> rfl

theorem card_pd0Pages (pd0 : Pd0) : (pd0Pages pd0).card =
    ∑ j, ∑ k, if Present ((pd0.entry j).elim 0 fun pt ↦ pt.entry k) then 1 else 0 := by
  rw [pd0Pages, Multiset.card_sum]
  refine Finset.sum_congr rfl fun j _ ↦ ?_
  cases pd0.entry j with
  | none => exact (Finset.sum_eq_zero fun _ _ ↦ if_neg not_present_zero).symm
  | some pt =>
    rw [Option.elim_some, ptPages, Multiset.card_sum]
    exact Finset.sum_congr rfl fun k _ ↦ card_pageOf _

theorem card_pages (pgdir : Pgdir) : pgdir.pages.card =
    ∑ i, ∑ j, ∑ k, if Present (pgdir.leaf i j k) then 1 else 0 := by
  rw [Table.pages, Multiset.card_sum]
  refine Finset.sum_congr rfl fun i _ ↦ ?_
  unfold Table.leaf Table.slot
  cases pgdir.entry i with
  | none =>
    refine (Finset.sum_eq_zero fun _ _ ↦ Finset.sum_eq_zero fun _ _ ↦ ?_).symm
    exact if_neg not_present_zero
  | some pd0 =>
    rw [Option.elim_some, card_pd0Pages]
    simp only [Option.bind_some]

theorem card_tables (pgdir : Pgdir) : pgdir.tables.card =
    ∑ i, ((if (pgdir.entry i).isSome then 1 else 0) +
      ∑ j, if (pgdir.slot i j).isSome then 1 else 0) := by
  rw [Table.tables, Multiset.card_sum]
  apply Finset.sum_congr rfl
  intro i _
  unfold Table.slot
  cases pgdir.entry i with
  | none => simp
  | some pd0 =>
    have hslot : ∀ j, ((pd0.entry j).elim 0 ptFrames).card =
        if (pd0.entry j).isSome then 1 else 0 := by
      intro j
      cases pd0.entry j with
      | none => rfl
      | some pt => rfl
    simp only [Option.elim_some, pd0Frames, Multiset.card_add, Multiset.card_sum, hslot,
      Multiset.card_singleton, Option.isSome_some, if_true, Option.bind_some]

/-- A directory has tables only where the other one has some. -/
structure TablesWithin (pgdir outer : Pgdir) : Prop where
  entry : ∀ i, (pgdir.entry i).isSome → (outer.entry i).isSome
  slot : ∀ i j, (pgdir.slot i j).isSome → (outer.slot i j).isSome

theorem card_tables_le (h : TablesWithin pgdir outer) : pgdir.tables.card ≤ outer.tables.card := by
  rw [card_tables, card_tables]
  have hone : ∀ {p q : Prop} [Decidable p] [Decidable q], (p → q) →
      (if p then 1 else 0) ≤ (if q then 1 else 0 : ℕ) := by
    intro p q _ _ hpq
    split
    · rename_i hp
      rw [if_pos (hpq hp)]
    · exact Nat.zero_le _
  refine Finset.sum_le_sum fun i _ ↦ add_le_add (hone (h.entry i)) ?_
  exact Finset.sum_le_sum fun j _ ↦ hone (h.slot i j)

/-- A directory with fewer pages than another one and no other tables takes fewer frames. -/
theorem card_frames_lt (htables : TablesWithin pgdir outer)
    (hpages : ∀ la, Present (pgdir.pte la) → Present (outer.pte la))
    (hmore : Present (outer.pte la)) (hnot : ¬Present (pgdir.pte la)) :
    pgdir.frames.card < outer.frames.card := by
  have hleaf : ∀ i j k, (if Present (pgdir.leaf i j k) then 1 else 0) ≤
      (if Present (outer.leaf i j k) then 1 else 0 : ℕ) := by
    intro i j k
    rcases exists_address i j k with ⟨lb, rfl, rfl, rfl⟩
    rw [leaf_address, leaf_address]
    split
    · rename_i hpresent
      rw [if_pos (hpages lb hpresent)]
    · exact Nat.zero_le _
  have hlast : (if Present (pgdir.leaf (PDX1 la) (PDX0 la) (PTX la)) then 1 else 0) <
      (if Present (outer.leaf (PDX1 la) (PDX0 la) (PTX la)) then 1 else 0 : ℕ) := by
    rw [leaf_address, leaf_address, if_neg hnot, if_pos hmore]
    exact Nat.one_pos
  have hlt : pgdir.pages.card < outer.pages.card := by
    rw [card_pages, card_pages]
    -- one sum inside the other
    have hthird : ∀ i j, ∑ k, (if Present (pgdir.leaf i j k) then 1 else 0) ≤
        ∑ k, (if Present (outer.leaf i j k) then 1 else 0 : ℕ) :=
      fun i j ↦ Finset.sum_le_sum fun k _ ↦ hleaf i j k
    have hsecond : ∀ i, ∑ j, ∑ k, (if Present (pgdir.leaf i j k) then 1 else 0) ≤
        ∑ j, ∑ k, (if Present (outer.leaf i j k) then 1 else 0 : ℕ) :=
      fun i ↦ Finset.sum_le_sum fun j _ ↦ hthird i j
    refine Finset.sum_lt_sum (fun i _ ↦ hsecond i) ⟨PDX1 la, Finset.mem_univ _, ?_⟩
    refine Finset.sum_lt_sum (fun j _ ↦ hthird _ j) ⟨PDX0 la, Finset.mem_univ _, ?_⟩
    exact Finset.sum_lt_sum (fun k _ ↦ hleaf _ _ k) ⟨PTX la, Finset.mem_univ _, hlast⟩
  rw [Table.frames, Table.frames, Multiset.card_add, Multiset.card_add]
  exact add_lt_add_of_lt_of_le hlt (card_tables_le htables)

theorem TablesWithin.of_skeleton (h : TablesWithin pgdir outer)
    (hskeleton : pgdir'.skeleton = pgdir.skeleton) : TablesWithin pgdir' outer := by
  have hentry : ∀ dir : Pgdir, ∀ i, (dir.entry i).isSome = (dir.skeleton i).isSome := by
    intro dir i
    rw [Table.skeleton, Option.isSome_map]
  have hslot : ∀ dir : Pgdir, ∀ i j, (dir.slot i j).isSome =
      ((dir.skeleton i).bind fun tables ↦ tables.2 j).isSome := by
    intro dir i j
    unfold Table.slot Table.skeleton
    cases dir.entry i with
    | none => rfl
    | some pd0 =>
      change (pd0.entry j).isSome = ((pd0.entry j).map Table.frame).isSome
      rw [Option.isSome_map]
  constructor
  · intro i hi
    rw [hentry, hskeleton, ← hentry] at hi
    exact h.entry i hi
  · intro i j hij
    rw [hslot, hskeleton, ← hslot] at hij
    exact h.slot i j hij

/-- New tables on the way to an address for which the other directory has them. -/
theorem TablesWithin.createPte (h : TablesWithin pgdir outer) (hla : (outer.getPte la).isSome)
    (m : Memory) : TablesWithin (createPte m pgdir la).2.2 outer := by
  have houter : (outer.slot (PDX1 la) (PDX0 la)).isSome := by
    rw [getPte_eq_slot, Option.isSome_map] at hla
    exact hla
  have hregion : (outer.entry (PDX1 la)).isSome := by
    unfold Table.slot at houter
    cases hentry : outer.entry (PDX1 la) with
    | none =>
      rw [hentry] at houter
      cases houter
    | some pd0 => rfl
  -- what is put at the region of the address has only the new table more
  have hset : ∀ pd0 : Pd0, (∀ j, (pd0.entry j).isSome → j = PDX0 la ∨
      (pgdir.slot (PDX1 la) j).isSome) → TablesWithin (pgdir.set (PDX1 la) (some pd0)) outer := by
    intro pd0 hpd0
    constructor
    · intro i hi
      by_cases hla : i = PDX1 la
      · rw [hla]
        exact hregion
      · rw [set_of_ne _ _ hla] at hi
        exact h.entry i hi
    · intro i j hij
      unfold Table.slot at hij
      by_cases hla : i = PDX1 la
      · subst hla
        rw [set_self, Option.bind_some] at hij
        rcases hpd0 j hij with rfl | hold
        · exact houter
        · exact h.slot _ j hold
      · rw [set_of_ne _ _ hla] at hij
        exact h.slot i j hij
  have hpt : ∀ (m : Memory) (pd0 : Pd0), (∀ j, (pd0.entry j).isSome →
      (pgdir.slot (PDX1 la) j).isSome) → ∀ j, ((createPt m pd0 la).2.2.entry j).isSome →
        j = PDX0 la ∨ (pgdir.slot (PDX1 la) j).isSome := by
    intro m pd0 hpd0 j hj
    unfold createPt at hj
    split at hj
    · exact Or.inr (hpd0 j hj)
    · split at hj
      · exact Or.inr (hpd0 j hj)
      · dsimp only at hj
        by_cases hsame : j = PDX0 la
        · exact Or.inl hsame
        · rw [set_of_ne _ _ hsame] at hj
          exact Or.inr (hpd0 j hj)
  unfold Mm.createPte
  split
  · rename_i pd0 hpd0
    refine hset _ (hpt m pd0 fun j hj ↦ ?_)
    rw [Table.slot, hpd0]
    exact hj
  · split
    · exact h
    · exact hset _ (hpt _ _ fun j hj ↦ by cases hj)

end Counting

/-! ## What has been copied -/

section Copying

-- the sums over all entries are not to be evaluated
attribute [local irreducible] Table.pages Table.tables

variable {first m m' : Memory} {held : Multiset Frame} {fromDir toDir toDir' : Pgdir}
  {done more : ℕ → Prop} {la start stop pte : ℕ} {page : Frame} {new rest : List Frame}

/-- The page at an address is a copy, on its own in its directory, with the same rights. The bytes
are compared with those of the memory before. -/
structure CopiedPage (first m : Memory) (fromDir toDir : Pgdir) (la : ℕ) : Prop where
  own : OwnPage toDir la (pte2page (toDir.pte la))
  rights : toDir.pte la &&& PTE_USER = fromDir.pte la &&& PTE_USER
  bytes : ∀ off < PGSIZE,
    m.bytes (pte2page (toDir.pte la)) off = first.bytes (pte2page (fromDir.pte la)) off

/-- The pages at some addresses have been copied, with frames that were free at first. -/
structure Copying (first : Memory) (held : Multiset Frame) (fromDir : Pgdir) (done : ℕ → Prop)
    (m : Memory) (toDir : Pgdir) : Prop where
  accounts : Accounts m (held + toDir.frames)
  total : m.free.length + toDir.frames.card = first.free.length
  free : ∀ frame ∈ m.free, frame ∈ first.free
  bytes : ∀ frame, frame ∉ first.free → m.bytes frame = first.bytes frame
  tables : TablesWithin toDir fromDir
  pages : ∀ la, Present (toDir.pte la) → Present (fromDir.pte la)
  fresh : ∀ frame ∈ toDir.frames, frame ∈ first.free
  rest : ∀ la < USERTOP, Present (toDir.pte la) → done la
  copied : ∀ la < USERTOP, done la → Present (fromDir.pte la) → CopiedPage first m fromDir toDir la

/-- Only addresses whose pages are present count. -/
theorem Copying.congr (h : Copying first held fromDir done m toDir)
    (hsame : ∀ la < USERTOP, Present (fromDir.pte la) → (done la ↔ more la)) :
    Copying first held fromDir more m toDir where
  accounts := h.accounts
  total := h.total
  free := h.free
  bytes := h.bytes
  tables := h.tables
  pages := h.pages
  fresh := h.fresh
  rest := fun la hla hpresent ↦ (hsame la hla (h.pages la hpresent)).mp (h.rest la hla hpresent)
  copied := fun la hla hmore hpresent ↦ h.copied la hla ((hsame la hla hpresent).mpr hmore) hpresent

theorem Copying.grown (h : Copying first held fromDir done m toDir)
    (hgrown : Grown m m' toDir toDir' new) (htables : TablesWithin toDir' fromDir) :
    Copying first held fromDir done m' toDir' where
  accounts := by
    have hframes : held + toDir'.frames = held + toDir.frames + new := by
      rw [Table.frames, Table.frames, hgrown.pages, hgrown.tables]
      simp only [add_assoc]
    rw [hframes]
    exact h.accounts.grown hgrown
  total := by
    have hcard : toDir'.frames.card = toDir.frames.card + new.length := by
      rw [Table.frames, Table.frames, hgrown.pages, hgrown.tables, ← add_assoc, Multiset.card_add,
        Multiset.coe_card]
    have hlength : m.free.length = new.length + m'.free.length := by
      rw [hgrown.free, List.length_append]
    have htotal := h.total
    omega
  free := fun frame hframe ↦ h.free frame (hgrown.free ▸ List.mem_append_right _ hframe)
  bytes := by
    have hbytes : m'.bytes = m.bytes := by
      rw [hgrown.memory]
    rw [hbytes]
    exact h.bytes
  tables := htables
  pages := fun la hpresent ↦ h.pages la (hgrown.pte la ▸ hpresent)
  fresh := by
    intro frame hframe
    rw [Table.frames, hgrown.pages, hgrown.tables, ← add_assoc] at hframe
    rcases Multiset.mem_add.mp hframe with hold | hnew
    · exact h.fresh frame hold
    · exact h.free frame (hgrown.free ▸ List.mem_append_left _ (Multiset.mem_coe.mp hnew))
  rest := fun la hla hpresent ↦ h.rest la hla (hgrown.pte la ▸ hpresent)
  copied := by
    intro la hla hdone hpresent
    have hcopied := h.copied la hla hdone hpresent
    have hbytes : m'.bytes = m.bytes := by
      rw [hgrown.memory]
    refine ⟨⟨?_, ?_, fun lb hlb hframe ↦ ?_⟩, ?_, ?_⟩
    · rw [hgrown.pte]
      exact hcopied.own.present
    · rw [hgrown.pte]
    · rw [hgrown.pte] at hlb hframe
      rw [hgrown.pte] at hframe
      exact hcopied.own.alone lb hlb hframe
    · rw [hgrown.pte]
      exact hcopied.rights
    · rw [hgrown.pte, hbytes]
      exact hcopied.bytes

theorem user_lt (pte : ℕ) : pte &&& PTE_USER < 2 ^ 10 :=
  Nat.and_lt_two_pow _ (by decide)

/-- The entry of the copy gives the user the same rights. -/
theorem rights_pteCreate (hpresent : Present pte) (page : Frame) :
    pteCreate page (PTE_V ||| pte &&& PTE_USER) &&& PTE_USER = pte &&& PTE_USER := by
  have huser : PTE_USER = 2 ^ 5 - 1 := rfl
  have hvalid : PTE_V = 2 ^ 0 := rfl
  rw [present_iff] at hpresent
  apply Nat.eq_of_testBit_eq
  intro i
  rw [pteCreate, huser, hvalid]
  simp only [Nat.testBit_and, Nat.testBit_or, Nat.testBit_shiftLeft, Nat.testBit_two_pow_sub_one,
    Nat.testBit_two_pow]
  by_cases hlow : i < 5
  · have hshift : ¬i ≥ 10 := by omega
    by_cases hzero : 0 = i
    · subst hzero
      simp [hpresent]
    · simp [hlow, hshift, hzero]
  · simp [hlow]

/-- What `page_insert` does for an entry that is not present. -/
theorem pageInsert_absent {old perm : ℕ} (hpte : toDir.getPte la = some old) (hold : ¬Present old)
    (m : Memory) (page : Frame) : pageInsert m toDir page la perm =
      (true, m.setRef page (m.ref page + 1), toDir.setPte la (pteCreate page (PTE_V ||| perm))) := by
  have hvalue : toDir.pte la = old := by
    rw [Table.pte, hpte]
    rfl
  rw [pageInsert_eq, createPte_of_some hpte]
  dsimp only
  rw [if_pos rfl, hvalue]
  exact congrArg (fun memory ↦ (true, memory, _)) (if_neg hold)

/-- A page more, with the bytes of the page that it is a copy of. -/
theorem Copying.added (h : Copying first held fromDir done m toDir)
    (hfirst : ∀ la, Present (fromDir.pte la) → pte2page (fromDir.pte la) ∉ first.free)
    (hla : la < USERTOP) (hpresent : Present (fromDir.pte la)) (hnot : ¬done la) {filled : Memory}
    (hnew : NewPage held filled m' toDir toDir' la (fromDir.pte la &&& PTE_USER) page)
    (hframes : toDir'.frames = toDir.frames + {page}) (hskeleton : toDir'.skeleton = toDir.skeleton)
    (hfree : m.free = page :: m'.free)
    (hbytes : ∀ off < PGSIZE, m'.bytes page off = m.bytes (pte2page (fromDir.pte la)) off)
    (hkeep : ∀ frame ≠ page, m'.bytes frame = m.bytes frame) :
    Copying first held fromDir (fun lb ↦ done lb ∨ la / PGSIZE = lb / PGSIZE) m' toDir' := by
  have hperm : PTE_V ||| fromDir.pte la &&& PTE_USER < 2 ^ 10 :=
    Nat.or_lt_two_pow (by decide) (user_lt _)
  have hfound : page ∈ first.free := h.free page (hfree ▸ List.mem_cons_self)
  have hplace : ∀ lb < USERTOP, SamePlace la lb ↔ la / PGSIZE = lb / PGSIZE :=
    fun lb hlb ↦ samePlace_iff (usertop_lt hla) (usertop_lt hlb)
  have hsource : ∀ lb, Present (fromDir.pte lb) →
      m.bytes (pte2page (fromDir.pte lb)) = first.bytes (pte2page (fromDir.pte lb)) :=
    fun lb hlb ↦ h.bytes _ (hfirst lb hlb)
  have hsame : ∀ lb, SamePlace la lb → toDir'.pte lb =
      pteCreate page (PTE_V ||| fromDir.pte la &&& PTE_USER) := fun lb hlb ↦
    (hnew.pte lb).trans (if_pos hlb)
  have hold : ∀ lb, ¬SamePlace la lb → toDir'.pte lb = toDir.pte lb := fun lb hlb ↦
    (hnew.pte lb).trans (if_neg hlb)
  have howner := hnew.own (user_lt _)
  constructor
  · exact hnew.accounts
  · have htotal := h.total
    have hlength : m.free.length = m'.free.length + 1 := by
      rw [hfree, List.length_cons]
    rw [hframes, Multiset.card_add, Multiset.card_singleton]
    omega
  · exact fun frame hframe ↦ h.free frame (hfree ▸ List.mem_cons_of_mem _ hframe)
  · intro frame hframe
    have hne : frame ≠ page := fun heq ↦ hframe (heq ▸ hfound)
    rw [hkeep frame hne]
    exact h.bytes frame hframe
  · exact h.tables.of_skeleton hskeleton
  · intro lb hlb
    by_cases hcase : SamePlace la lb
    · rw [← pte_congr hcase]
      exact hpresent
    · rw [hold lb hcase] at hlb
      exact h.pages lb hlb
  · intro frame hframe
    rw [hframes] at hframe
    rcases Multiset.mem_add.mp hframe with hin | hin
    · exact h.fresh frame hin
    · rw [Multiset.mem_singleton.mp hin]
      exact hfound
  · intro lb huser hlb
    by_cases hcase : SamePlace la lb
    · exact Or.inr ((hplace lb huser).mp hcase)
    · rw [hold lb hcase] at hlb
      exact Or.inl (h.rest lb huser hlb)
  · intro lb huser hdone hlb
    by_cases hcase : SamePlace la lb
    · have hpte : fromDir.pte lb = fromDir.pte la := (pte_congr hcase).symm
      have hentry : toDir'.pte lb = toDir'.pte la := (pte_congr hcase).symm
      refine ⟨⟨?_, rfl, fun lc hlc hframe ↦ ?_⟩, ?_, ?_⟩
      · rw [hentry]
        exact howner.present
      · rw [hentry, howner.frame] at hframe
        have hlast := howner.alone lc hlc hframe
        exact ⟨hcase.1.symm.trans hlast.1, hcase.2.1.symm.trans hlast.2.1,
          hcase.2.2.symm.trans hlast.2.2⟩
      · rw [hsame lb hcase, hpte]
        exact rights_pteCreate hpresent page
      · rw [hsame lb hcase, pte2page_pteCreate page hperm, hpte, ← hsource la hpresent]
        exact hbytes
    · have hbefore : done lb := hdone.resolve_right fun heq ↦ hcase ((hplace lb huser).mpr heq)
      have hcopied := h.copied lb huser hbefore hlb
      have hne : pte2page (toDir.pte lb) ≠ page := by
        intro heq
        have hin := mem_frames_of_present hcopied.own.present
        exact hnew.unheld (Multiset.mem_add.mpr (Or.inr (heq ▸ hin)))
      refine ⟨⟨?_, rfl, fun lc hlc hframe ↦ ?_⟩, ?_, ?_⟩
      · rw [hold lb hcase]
        exact hcopied.own.present
      · by_cases hlast : SamePlace la lc
        · rw [hsame lc hlast, pte2page_pteCreate page hperm, hold lb hcase] at hframe
          exact absurd hframe.symm hne
        · rw [hold lc hlast] at hlc hframe
          rw [hold lb hcase] at hframe
          exact hcopied.own.alone lc hlc hframe
      · rw [hold lb hcase]
        exact hcopied.rights
      · rw [hold lb hcase, hkeep _ hne]
        exact hcopied.bytes

/-- There is a frame as long as a page is missing. -/
theorem Copying.free_ne_nil (h : Copying first held fromDir done m toDir)
    (henough : fromDir.frames.card ≤ first.free.length) (hla : la < USERTOP)
    (hpresent : Present (fromDir.pte la)) (hnot : ¬done la) : m.free ≠ [] := by
  intro hnil
  have hlt := card_frames_lt h.tables h.pages hpresent fun hin ↦ hnot (h.rest la hla hin)
  have htotal := h.total
  rw [hnil, List.length_nil, Nat.zero_add] at htotal
  omega

/-- The round of `copy_range` for a page. -/
theorem Copying.copyPage (h : Copying first held fromDir done m toDir)
    (hfirst : ∀ la, Present (fromDir.pte la) → pte2page (fromDir.pte la) ∉ first.free)
    (henough : fromDir.frames.card ≤ first.free.length) (hla : la < USERTOP)
    (hentry : fromDir.getPte la = some pte) (hpresent : Present pte) (hnot : ¬done la) :
    ∃ m' toDir', copyPage m toDir la pte = .ok (true, m', toDir') ∧
      Copying first held fromDir (fun lb ↦ done lb ∨ la / PGSIZE = lb / PGSIZE) m' toDir' := by
  have hpte : fromDir.pte la = pte := by
    rw [Table.pte, hentry]
    rfl
  subst hpte
  have hsome : (fromDir.getPte la).isSome := by
    rw [hentry]
    rfl
  have hcreated := created_createPte m toDir la
  have htables := h.tables.createPte hsome m
  rw [Mm.copyPage]
  generalize createPte m toDir la = created at hcreated htables
  rcases created with ⟨found, after, dir⟩
  rcases hcreated with ⟨⟨new, hgrown⟩, hpointer, hnull⟩
  dsimp only at hgrown hpointer hnull htables ⊢
  have hafter := h.grown hgrown htables
  have hleft := hafter.free_ne_nil henough hla hpresent hnot
  cases found with
  | false => exact absurd (hnull Bool.false_ne_true) hleft
  | true =>
    rcases Option.isSome_iff_exists.mp (hpointer rfl) with ⟨old, hold⟩
    rcases List.exists_cons_of_ne_nil hleft with ⟨page, rest, hfree⟩
    have habsent : ¬Present old := by
      intro hin
      have hvalue : dir.pte la = old := by
        rw [Table.pte, hold]
        rfl
      exact hnot (hafter.rest la hla (hvalue ▸ hin))
    rcases hafter.accounts.allocPage hfree with ⟨hrest, hpage, hheld⟩
    have hmissing : pte2page (fromDir.pte la) ≠ page := fun heq ↦
      hfirst la hpresent (heq ▸ hafter.free page (hfree ▸ List.mem_cons_self))
    have hperm : PTE_V ||| fromDir.pte la &&& PTE_USER < 2 ^ 10 :=
      Nat.or_lt_two_pow (by decide) (user_lt _)
    have hframes := frames_setPte hold (pteCreate page (PTE_V ||| fromDir.pte la &&& PTE_USER))
    rw [pageOf_not_present habsent, add_zero, pageOf_present (present_pteCreate page _),
      pte2page_pteCreate page hperm] at hframes
    have hentries : ∀ lb, (dir.setPte la
        (pteCreate page (PTE_V ||| fromDir.pte la &&& PTE_USER))).pte lb =
        if SamePlace la lb then pteCreate page (PTE_V ||| fromDir.pte la &&& PTE_USER)
        else dir.pte lb := pte_setPte (hpointer rfl)
    have hcons : held + (dir.setPte la (pteCreate page
        (PTE_V ||| fromDir.pte la &&& PTE_USER))).frames = page ::ₘ (held + dir.frames) := by
      rw [hframes, ← add_assoc, add_comm _ ({page} : Multiset Frame), Multiset.singleton_add]
    have haccounts : ∀ filled : Memory, filled.free = rest → filled.ref = after.ref →
        Accounts (filled.setRef page (filled.ref page + 1)) (page ::ₘ (held + dir.frames)) := by
      intro filled hfilled href
      exact (hrest.of_eq hfilled href).setRef (hfilled ▸ hpage)
    have halloc : after.allocPage = (some page, { after with free := rest }) := by
      rw [Memory.allocPage, hfree]
    dsimp only
    rw [halloc]
    dsimp only
    rw [store_eq _ _ _ (Nat.zero_add PGSIZE).le, Outcome.ok_bind, pageInsert_absent hold habsent]
    refine ⟨_, _, rfl, hafter.added hfirst hla hpresent hnot
      ⟨hcons ▸ haccounts _ rfl rfl, rfl, hheld, hentries⟩ hframes (skeleton_setPte ..) hfree ?_ ?_⟩
    · intro off hoff
      refine (congrFun (Function.update_self ..) off).trans ?_
      rw [if_pos ⟨Nat.zero_le _, (Nat.zero_add PGSIZE).symm ▸ hoff⟩]
      rfl
    · exact fun frame hne ↦ Function.update_of_ne hne ..

/-- A slot without a table has no page. -/
theorem not_present_of_slot (hnone : fromDir.getPte start = none) (hle : start ≤ la)
    (hlt : la < roundDown (start + PTSIZE) PTSIZE) : ¬Present (fromDir.pte la) := by
  have hslot : PDX1 la = PDX1 start ∧ PDX0 la = PDX0 start := by
    unfold roundDown PTSIZE PGSIZE NPTEENTRY at hlt
    refine ⟨Fin.ext ?_, Fin.ext ?_⟩
    · rw [PDX1_val, PDX1_val]
      omega
    · rw [PDX0_val, PDX0_val]
      omega
  rw [getPte_eq_slot, Option.map_eq_none_iff] at hnone
  rw [← leaf_address, Table.leaf, hslot.1, hslot.2, hnone]
  exact not_present_zero

theorem page_of_between (hstart : start % PGSIZE = 0) (hle : start ≤ la)
    (hlt : la < start + PGSIZE) : start / PGSIZE = la / PGSIZE := by
  unfold PGSIZE at *
  omega

theorem between_of_page (hstart : start % PGSIZE = 0) (h : start / PGSIZE = la / PGSIZE) :
    start ≤ la ∧ la < start + PGSIZE := by
  unfold PGSIZE at *
  omega

/-- Nothing is to be done for a range without pages. -/
theorem Copying.skip {next : ℕ}
    (h : Copying first held fromDir (fun la ↦ done la ∨ start ≤ la ∧ la < pte) m toDir)
    (hstart : start ≤ pte) (hnext : pte < next)
    (habsent : ∀ la, pte ≤ la → la < next → ¬Present (fromDir.pte la)) :
    Copying first held fromDir (fun la ↦ done la ∨ start ≤ la ∧ la < next) m toDir := by
  refine h.congr fun la _ hpresent ↦ or_congr_right (and_congr_right fun _ ↦ ?_)
  refine ⟨fun hlt ↦ hlt.trans hnext, fun hlt ↦ ?_⟩
  by_contra hge
  exact habsent la (not_lt.mp hge) hlt hpresent

/-- The end of a round: the loop goes on or leaves, with what has been copied so far. -/
theorem copyNext_cases {next : ℕ}
    (h : Copying first held fromDir (fun la ↦ done la ∨ start ≤ la ∧ la < next) m toDir)
    (hpos : 0 < next) (hstop : ∀ la, stop ≤ la → la < next → ¬Present (fromDir.pte la)) :
    (next < stop ∧ copyNext m toDir next stop = .inl (m, toDir, next)) ∨
      copyNext m toDir next stop = .inr (0, m, toDir) ∧
        Copying first held fromDir (fun la ↦ done la ∨ start ≤ la ∧ la < stop) m toDir := by
  by_cases hlt : next < stop
  · exact Or.inl ⟨hlt, if_pos ⟨hpos.ne', hlt⟩⟩
  · refine Or.inr ⟨if_neg fun hboth ↦ hlt hboth.2, ?_⟩
    refine h.congr fun la _ hpresent ↦ or_congr_right (and_congr_right fun _ ↦ ?_)
    refine ⟨fun hla ↦ ?_, fun hla ↦ hla.trans_le (not_lt.mp hlt)⟩
    by_contra hge
    exact hstop la (not_lt.mp hge) hla hpresent

/-- What one round of `copy_range` does, and where it goes on. -/
theorem Copying.copyRound (h : Copying first held fromDir done m toDir)
    (hfirst : ∀ la, Present (fromDir.pte la) → pte2page (fromDir.pte la) ∉ first.free)
    (henough : fromDir.frames.card ≤ first.free.length) (hla : la < stop) (huser : stop ≤ USERTOP)
    (hpage : la % PGSIZE = 0) (hstop : stop % PGSIZE = 0)
    (hdone : ∀ lb, la ≤ lb → lb < stop → ¬done lb) :
    ∃ m' toDir' next, Mm.copyRound fromDir stop (m, toDir, la) =
        .ok (copyNext m' toDir' next stop) ∧ la < next ∧ next % PGSIZE = 0 ∧
      (∀ lb, stop ≤ lb → lb < next → ¬Present (fromDir.pte lb)) ∧
      Copying first held fromDir (fun lb ↦ done lb ∨ la ≤ lb ∧ lb < next) m' toDir' := by
  have hempty : Copying first held fromDir (fun lb ↦ done lb ∨ la ≤ lb ∧ lb < la) m toDir := by
    refine h.congr fun lb _ _ ↦ (or_iff_left fun hboth ↦ ?_).symm
    exact absurd hboth.2 (not_lt.mpr hboth.1)
  have hinside : la + PGSIZE ≤ stop := by
    unfold PGSIZE at *
    omega
  have hnext : la < la + PGSIZE ∧ (la + PGSIZE) % PGSIZE = 0 :=
    ⟨Nat.lt_add_of_pos_right (by decide), (Nat.add_mod_right ..).trans hpage⟩
  rw [Mm.copyRound]
  cases hentry : fromDir.getPte la with
  | none =>
    have habsent : ∀ lb, la ≤ lb → lb < roundDown (la + PTSIZE) PTSIZE →
        ¬Present (fromDir.pte lb) := fun lb hle hlt ↦ not_present_of_slot hentry hle hlt
    have hmore : la < roundDown (la + PTSIZE) PTSIZE ∧
        roundDown (la + PTSIZE) PTSIZE % PGSIZE = 0 := by
      unfold roundDown PTSIZE PGSIZE NPTEENTRY
      omega
    exact ⟨m, toDir, _, rfl, hmore.1, hmore.2, fun lb hle ↦ habsent lb (hla.le.trans hle),
      hempty.skip le_rfl hmore.1 habsent⟩
  | some pte =>
    have hpte : fromDir.pte la = pte := by
      rw [Table.pte, hentry]
      rfl
    have hlast : ∀ lb, stop ≤ lb → lb < la + PGSIZE → ¬Present (fromDir.pte lb) :=
      fun lb hle hlt ↦ absurd (hle.trans_lt hlt) (not_lt.mpr hinside)
    by_cases hpresent : Present pte
    · rcases h.copyPage hfirst henough (hla.trans_le huser) hentry hpresent (hdone la le_rfl hla)
        with ⟨m', toDir', hcopy, hcopied⟩
      refine ⟨m', toDir', la + PGSIZE, ?_, hnext.1, hnext.2, hlast, ?_⟩
      · dsimp only
        rw [if_pos hpresent, hcopy]
        rfl
      · refine hcopied.congr fun lb _ _ ↦ or_congr_right ?_
        exact ⟨between_of_page hpage, fun hboth ↦ page_of_between hpage hboth.1 hboth.2⟩
    · refine ⟨m, toDir, la + PGSIZE, if_neg hpresent, hnext.1, hnext.2, hlast,
        hempty.skip le_rfl hnext.1 fun lb hle hlt ↦ ?_⟩
      have hplace : SamePlace la lb := samePlace_of_page (page_of_between hpage hle hlt)
      rw [← pte_congr hplace, hpte]
      exact hpresent

/-- `copy_range` returns zero, and the pages of the range have been copied. -/
theorem Copying.copyRange (h : Copying first held fromDir done m toDir)
    (hfirst : ∀ la, Present (fromDir.pte la) → pte2page (fromDir.pte la) ∉ first.free)
    (henough : fromDir.frames.card ≤ first.free.length) (haccess : UserAccess start stop)
    (hstart : start % PGSIZE = 0) (hstop : stop % PGSIZE = 0)
    (hnot : ∀ la, start ≤ la → la < stop → ¬done la) :
    ∃ m' toDir', Returns (fun fuel ↦ Mm.copyRange fuel m toDir fromDir start stop)
        (0, m', toDir') ∧
      Copying first held fromDir (fun la ↦ done la ∨ start ≤ la ∧ la < stop) m' toDir' := by
  have hloop : ∃ value, Returns (fun fuel ↦ loop (Mm.copyRound fromDir stop) fuel (m, toDir, start))
      value ∧ value.1 = 0 ∧
      Copying first held fromDir (fun la ↦ done la ∨ start ≤ la ∧ la < stop) value.2.1 value.2.2 := by
    -- the pages below the present address have been copied
    refine returns_loop (fun state : Memory × Pgdir × ℕ ↦ state.2.2 % PGSIZE = 0 ∧
        start ≤ state.2.2 ∧ state.2.2 < stop ∧ Copying first held fromDir
          (fun la ↦ done la ∨ start ≤ la ∧ la < state.2.2) state.1 state.2.1)
      (fun state ↦ stop - state.2.2)
      (fun value : ℤ × Memory × Pgdir ↦ value.1 = 0 ∧ Copying first held fromDir
        (fun la ↦ done la ∨ start ≤ la ∧ la < stop) value.2.1 value.2.2) ?_ ?_
    · rintro ⟨m, toDir, la⟩ ⟨hpage, hle, hlt, hcopied⟩
      have hahead : ∀ lb, la ≤ lb → lb < stop → ¬(done lb ∨ start ≤ lb ∧ lb < la) := by
        rintro lb hge hlast (hdone | ⟨-, hbelow⟩)
        · exact hnot lb (hle.trans hge) hlast hdone
        · exact absurd hbelow (not_lt.mpr hge)
      rcases hcopied.copyRound hfirst henough hlt haccess.2.2 hpage hstop hahead
        with ⟨m', toDir', next, hround, hmore, haligned, hlast, hafter⟩
      have hjoined : Copying first held fromDir (fun lb ↦ done lb ∨ start ≤ lb ∧ lb < next)
          m' toDir' := by
        refine hafter.congr fun lb _ _ ↦ ?_
        rw [or_assoc]
        refine or_congr_right ?_
        dsimp only at hle hmore ⊢
        omega
      rcases copyNext_cases hjoined (Nat.zero_lt_of_lt hmore) hlast with ⟨hgo, hnext⟩ | ⟨hnext, hend⟩
      · refine Or.inl ⟨_, hround.trans (congrArg Except.ok hnext),
          ⟨haligned, hle.trans hmore.le, hgo, hjoined⟩, ?_⟩
        exact Nat.sub_lt_sub_left hlt hmore
      · exact Or.inr ⟨_, hround.trans (congrArg Except.ok hnext), rfl, hend⟩
    · refine ⟨hstart, le_rfl, haccess.2.1, h.congr fun la _ _ ↦ ?_⟩
      exact (or_iff_left fun hboth ↦ absurd hboth.2 (not_lt.mpr hboth.1)).symm
  rcases hloop with ⟨⟨ret, m', toDir'⟩, hreturns, hzero, hcopied⟩
  dsimp only at hzero hcopied
  subst hzero
  refine ⟨m', toDir', .congr (fun fuel ↦ ?_) hreturns, hcopied⟩
  rw [Mm.copyRange, Outcome.require_of_true ⟨hstart, hstop⟩, Outcome.ok_bind,
    Outcome.require_of_true haccess, Outcome.ok_bind]

end Copying

end Ucore.Mm
