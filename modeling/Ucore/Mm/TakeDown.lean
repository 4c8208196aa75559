import Ucore.Mm.ExitMmap

/-!
# What is left of an address space

An address space that `mm_map`, `pgdir_alloc_page` and `page_insert` have built, and what is free
after `exit_mmap` and `put_pgdir`. The pages and the root are always given back. The tables of a
region of 1 GB are given back exactly when one of the areas finds a table in each slot that it
touches, once all tables of the region have been visited.
-/

namespace Ucore.Mm

open Library

/-- An address space, all frames, and the frames that other directories hold. -/
structure AddressSpace where
  memory : Memory
  mm : MmStruct
  others : Multiset Frame

/-- After `mm_create` and `setup_pgdir`. -/
def NewSpace (s : AddressSpace) : Prop :=
  ∃ (m : Memory) (pgdir : Pgdir), Accounts m s.others ∧ setupPgdir m = (some pgdir, s.memory) ∧
    s.mm = mmCreate m.swapInitOk pgdir

/-- What builds an address space. A page is mapped inside an area, and one that `page_insert` maps
has been allocated and is not mapped. -/
inductive BuildStep : AddressSpace → AddressSpace → Prop
  | map {s : AddressSpace} {kmalloc : Bool} {addr len vmFlags : ℕ} {ret : ℤ} {mm : MmStruct}
    (h : s.mm.mmMap kmalloc addr len vmFlags = .ok (ret, mm)) : BuildStep s { s with mm }
  | allocPage {s : AddressSpace} {vma : Vma} {la perm : ℕ} {found : Option Frame}
    {memory : Memory} {pgdir : Pgdir} (hvma : vma ∈ s.mm.mmapList) (hla : vma.Contains la)
    (hperm : perm < 2 ^ 10)
    (h : pgdirAllocPage s.memory s.mm.pgdir la perm = .ok (found, memory, pgdir)) :
    BuildStep s { s with memory, mm := { s.mm with pgdir } }
  | insert {s : AddressSpace} {vma : Vma} {page : Frame} {la perm : ℕ} {mapped : Bool}
    {memory : Memory} {pgdir : Pgdir} (hvma : vma ∈ s.mm.mmapList) (hla : vma.Contains la)
    (hperm : perm < 2 ^ 10) (hpage : page ∉ s.memory.free) (hroot : page ≠ s.mm.pgdir.frame)
    (honce : page ∉ s.others + s.mm.pgdir.frames)
    (h : pageInsert s.memory s.mm.pgdir page la perm = (mapped, memory, pgdir)) :
    BuildStep s { s with memory, mm := { s.mm with pgdir } }
  /-- The rest of the kernel, which leaves the frames of this address space alone. -/
  | elsewhere {s : AddressSpace} {memory : Memory} {others : Multiset Frame}
    (h : Accounts memory (others + s.mm.pgdir.frames)) (hapart : Disjoint others s.mm.pgdir.frames)
    (hroot : s.mm.pgdir.frame ∉ memory.free) (hother : s.mm.pgdir.frame ∉ others) :
    BuildStep s { s with memory, others }

/-- Everything has been given back, once, and no table before the last area was unmapped. -/
structure TornDown (m : Memory) (mm : MmStruct) : Prop where
  reclaimed : ∃ m', Returns (fun fuel ↦ takeDown fuel m mm) m' ∧ m'.free.Nodup ∧
    (m'.free : Multiset Frame) = m.free + mm.pgdir.frames + {mm.pgdir.frame}
  tablesLast : ∃ m' pgdir', Returns (fun fuel ↦ unmapAreas fuel mm.mmapList m mm.pgdir)
    (m', pgdir') ∧ (m'.free : Multiset Frame) = m.free + mm.pgdir.pages

/-! ## What holds while it is built -/

structure Built (s : AddressSpace) : Prop where
  whole : ∀ vma ∈ s.mm.mmapList, vma.Whole
  inside : ∀ la, Present (s.mm.pgdir.pte la) →
    ∃ vma ∈ s.mm.mmapList, ∃ lb, vma.Contains lb ∧ SamePlace lb la
  accounts : Accounts s.memory (s.others + s.mm.pgdir.frames)
  once : s.mm.pgdir.frames.Nodup
  apart : Disjoint s.others s.mm.pgdir.frames
  root : s.mm.pgdir.frame ∉ s.memory.free
  rootHeld : s.mm.pgdir.frame ∉ s.others + s.mm.pgdir.frames

section Steps

-- the sums over all entries are not to be evaluated
attribute [local irreducible] Table.pages Table.tables

variable {s next : AddressSpace} {m m' : Memory} {pgdir pgdir' : Pgdir} {page : Frame}
  {la perm : ℕ} {new : List Frame}

/-- At most one page has been mapped, at one address, with frames that were not held before. -/
structure Reaches (pgdir pgdir' : Pgdir) (la : ℕ) (new : List Frame) : Prop where
  frame : pgdir'.frame = pgdir.frame
  frames : pgdir'.frames ≤ pgdir.frames + new
  present : ∀ lb, Present (pgdir'.pte lb) → Present (pgdir.pte lb) ∨ SamePlace la lb

theorem reaches_of_grown (h : Grown m m' pgdir pgdir' new) (la : ℕ) :
    Reaches pgdir pgdir' la new where
  frame := h.frame
  frames := by
    rw [Table.frames, Table.frames, h.pages, h.tables, add_assoc]
  present := fun lb hpresent ↦ Or.inl (h.pte lb ▸ hpresent)

theorem reaches_pageInsert (m : Memory) (pgdir : Pgdir) (page : Frame) (la : ℕ)
    (hperm : perm < 2 ^ 10) : ∃ new, new <+: m.free ∧
      Reaches pgdir (pageInsert m pgdir page la perm).2.2 la (page :: new) := by
  have hcreated := created_createPte m pgdir la
  rw [pageInsert_eq]
  generalize createPte m pgdir la = created at hcreated
  rcases created with ⟨found, after, dir⟩
  dsimp only at hcreated ⊢
  rcases hcreated.grown with ⟨new, hgrown⟩
  have htables := reaches_of_grown hgrown la
  refine ⟨new, ⟨after.free, hgrown.free.symm⟩, ?_⟩
  cases found with
  | false =>
    rw [if_neg Bool.false_ne_true]
    refine ⟨htables.frame, htables.frames.trans (add_le_add_right ?_ _), htables.present⟩
    exact Multiset.le_cons_self _ _
  | true =>
    rw [if_pos rfl]
    rcases Option.isSome_iff_exists.mp (hcreated.pointer rfl) with ⟨old, hold⟩
    have hlow : PTE_V ||| perm < 2 ^ 10 := Nat.or_lt_two_pow (by decide) hperm
    have hheld := frames_setPte hold (pteCreate page (PTE_V ||| perm))
    rw [pageOf_present (present_pteCreate page _), pte2page_pteCreate page hlow] at hheld
    refine ⟨(frame_setPte ..).trans htables.frame, ?_, fun lb hpresent ↦ ?_⟩
    · calc
        _ ≤ (dir.setPte la (pteCreate page (PTE_V ||| perm))).frames + pageOf old :=
          Multiset.le_add_right _ _
        _ = dir.frames + {page} := hheld
        _ ≤ pgdir.frames + new + {page} := add_le_add_left htables.frames _
        _ = _ := by
          rw [add_assoc, add_comm (new : Multiset Frame), Multiset.singleton_add,
            Multiset.cons_coe]
    · rw [pte_setPte (hcreated.pointer rfl)] at hpresent
      split at hpresent
      · rename_i hsame
        exact Or.inr hsame
      · exact htables.present lb hpresent

theorem reaches_pgdirAllocPage {found : Option Frame} (hperm : perm < 2 ^ 10)
    (h : Allocated m m' pgdir pgdir' la perm found) :
    ∃ new, new <+: m.free ∧ Reaches pgdir pgdir' la new := by
  cases h with
  | full hfree hmemory hpgdir =>
    rw [hpgdir]
    exact ⟨[], List.nil_prefix, reaches_of_grown (Grown.refl m pgdir) la⟩
  | @noTable page rest new after hfree hgrown hmemory =>
    have hnew : rest = new ++ after.free := hgrown.free
    have htables := reaches_of_grown hgrown la
    refine ⟨page :: new, ⟨after.free, ?_⟩, htables.frame,
      htables.frames.trans (add_le_add_right ?_ _), htables.present⟩
    · rw [hfree, hnew, List.cons_append]
    · exact Multiset.le_cons_self _ _
  | @mapped page rest after hfree hinsert hsame =>
    rcases reaches_pageInsert { m with free := rest } pgdir page la hperm
      with ⟨new, ⟨left, hnew⟩, hreaches⟩
    rw [hinsert] at hreaches
    exact ⟨page :: new, ⟨left, hfree ▸ congrArg (List.cons page) hnew⟩, hreaches⟩

/-- A page was mapped in an area. -/
theorem Built.reaches (h : Built s) {vma : Vma} (hvma : vma ∈ s.mm.mmapList)
    (hla : vma.Contains la)
    (hexact : Exact s.memory m' (s.others + s.mm.pgdir.frames) (s.others + pgdir'.frames))
    (hreaches : Reaches s.mm.pgdir pgdir' la new) (hnodup : new.Nodup)
    (hnew : ∀ frame ∈ new, frame ≠ s.mm.pgdir.frame ∧ frame ∉ s.others + s.mm.pgdir.frames) :
    Built { s with memory := m', mm := { s.mm with pgdir := pgdir' } } := by
  have hmem : ∀ frame, frame ∈ pgdir'.frames → frame ∈ s.mm.pgdir.frames ∨ frame ∈ new := by
    intro frame hframe
    have hin := Multiset.mem_of_le hreaches.frames hframe
    exact (Multiset.mem_add.mp hin).imp id Multiset.mem_coe.mp
  have hapart : Disjoint s.mm.pgdir.frames (new : Multiset Frame) := by
    rw [Multiset.disjoint_right]
    intro frame hframe hheld
    exact (hnew frame (Multiset.mem_coe.mp hframe)).2 (Multiset.mem_add.mpr (Or.inr hheld))
  refine ⟨h.whole, fun lb hpresent ↦ ?_, hexact.accounts, ?_, ?_, ?_, ?_⟩
  · rcases hreaches.present lb hpresent with hold | hsame
    · exact h.inside lb hold
    · exact ⟨vma, hvma, la, hla, hsame⟩
  · refine Multiset.nodup_of_le hreaches.frames ?_
    exact (h.once.add_iff (Multiset.coe_nodup.mpr hnodup)).mpr hapart
  · rw [Multiset.disjoint_right]
    intro frame hframe hother
    rcases hmem frame hframe with hold | hin
    · exact Multiset.disjoint_right.mp h.apart hold hother
    · exact (hnew frame hin).2 (Multiset.mem_add.mpr (Or.inl hother))
  · change pgdir'.frame ∉ m'.free
    rw [hreaches.frame, hexact.freed _ h.root]
    exact fun hboth ↦ h.rootHeld hboth.1
  · change pgdir'.frame ∉ s.others + pgdir'.frames
    rw [hreaches.frame]
    intro hin
    rcases Multiset.mem_add.mp hin with hother | hframe
    · exact h.rootHeld (Multiset.mem_add.mpr (Or.inl hother))
    · rcases hmem _ hframe with hold | hin
      · exact h.rootHeld (Multiset.mem_add.mpr (Or.inr hold))
      · exact (hnew _ hin).1 rfl

/-- Free frames are not held, and the root is not free. -/
theorem Built.unheld (h : Built s) (hnew : new <+: s.memory.free) : new.Nodup ∧
    ∀ frame ∈ new, frame ≠ s.mm.pgdir.frame ∧ frame ∉ s.others + s.mm.pgdir.frames := by
  refine ⟨hnew.sublist.nodup h.accounts.nodup, fun frame hframe ↦ ?_⟩
  have hfree := hnew.subset hframe
  exact ⟨fun heq ↦ h.root (heq ▸ hfree), h.accounts.unused frame hfree⟩

theorem built_step (h : Built s) (hstep : BuildStep s next) : Built next := by
  cases hstep with
  | @map kmalloc addr len vmFlags ret mm hmap =>
    rcases mmMap_ok hmap with ⟨hpgdir, hareas⟩
    have hold : ∀ vma ∈ s.mm.mmapList, vma ∈ mm.mmapList := by
      intro vma hvma
      rcases hareas with hsame | ⟨added, -, hmem⟩
      · exact hsame ▸ hvma
      · exact (hmem vma).mpr (Or.inr hvma)
    have hwhole : ∀ vma ∈ mm.mmapList, vma.Whole := by
      intro vma hvma
      rcases hareas with hsame | ⟨added, hadded, hmem⟩
      · exact h.whole vma (hsame ▸ hvma)
      · rcases (hmem vma).mp hvma with rfl | hvma
        · exact hadded
        · exact h.whole vma hvma
    refine ⟨hwhole, fun la hpresent ↦ ?_, ?_, ?_, ?_, ?_, ?_⟩
    · rcases h.inside la (hpgdir ▸ hpresent) with ⟨vma, hvma, lb, hlb⟩
      exact ⟨vma, hold vma hvma, lb, hlb⟩
    · exact hpgdir ▸ h.accounts
    · exact hpgdir ▸ h.once
    · exact hpgdir ▸ h.apart
    · exact hpgdir ▸ h.root
    · exact hpgdir ▸ h.rootHeld
  | @allocPage vma la perm found memory pgdir hvma hla hperm halloc =>
    have hallocated := pgdirAllocPage_ok halloc
    rcases reaches_pgdirAllocPage hperm hallocated with ⟨new, hnew, hreaches⟩
    rcases h.unheld hnew with ⟨hnodup, hapart⟩
    exact h.reaches hvma hla (exact_pgdirAllocPage h.accounts hperm hallocated) hreaches hnodup
      hapart
  | @insert vma page la perm mapped memory pgdir hvma hla hperm hpage hroot honce hinsert =>
    rcases reaches_pageInsert s.memory s.mm.pgdir page la hperm with ⟨new, hnew, hreaches⟩
    have hresult : ∀ result, pageInsert s.memory s.mm.pgdir page la perm = result →
        Exact s.memory result.2.1 (s.others + s.mm.pgdir.frames) (s.others + result.2.2.frames) :=
      fun _ heq ↦ heq ▸ exact_pageInsert h.accounts hpage hperm
    have hexact := hresult _ hinsert
    rw [hinsert] at hreaches
    rcases h.unheld hnew with ⟨hnodup, hapart⟩
    refine h.reaches hvma hla hexact hreaches (List.nodup_cons.mpr ⟨?_, hnodup⟩) ?_
    · exact fun hin ↦ hpage (hnew.subset hin)
    · exact List.forall_mem_cons.mpr ⟨⟨hroot, honce⟩, hapart⟩
  | elsewhere haccounts hapart hroot hother =>
    refine ⟨h.whole, h.inside, haccounts, h.once, hapart, hroot, fun hin ↦ ?_⟩
    rcases Multiset.mem_add.mp hin with hin | hin
    · exact hother hin
    · exact h.rootHeld (Multiset.mem_add.mpr (Or.inr hin))

theorem not_present_clear (frame : Frame) (la : ℕ) :
    ¬Present (Table.pte (Table.clear frame none : Pgdir) la) := by
  rw [Table.pte, getPte_of_pd0 rfl]
  exact not_present_zero

theorem built_new (h : NewSpace s) : Built s := by
  rcases h with ⟨m, pgdir, haccounts, hsetup, hmm⟩
  rw [setupPgdir, Memory.allocPage] at hsetup
  cases hfree : m.free with
  | nil =>
    rw [hfree] at hsetup
    cases hsetup
  | cons frame rest =>
    rw [hfree] at hsetup
    rcases haccounts.allocPage hfree with ⟨hrest, hframe, hheld⟩
    rcases s with ⟨memory, mm, others⟩
    cases hsetup
    cases hmm
    have hzero := frames_clear frame
    refine ⟨fun _ hvma ↦ absurd hvma List.not_mem_nil,
      fun la hpresent ↦ absurd hpresent (not_present_clear frame la), ?_, ?_, ?_,
      hframe, ?_⟩
    · change Accounts _ (others + Table.frames _)
      rw [hzero, add_zero]
      exact hrest
    · rw [hzero]
      exact Multiset.nodup_zero
    · change Disjoint others (Table.frames _)
      rw [hzero]
      exact Multiset.disjoint_right.mpr fun hin ↦ (Multiset.notMem_zero _ hin).elim
    · change frame ∉ others + Table.frames _
      rw [hzero, add_zero]
      exact hheld

theorem built_of_reachable (h : Reachable NewSpace BuildStep s) : Built s :=
  h.invariant (fun _ ↦ built_new) fun _ _ ↦ built_step

/-! ## Taking it down -/

/-- What `exit_mmap` leaves to `exit_range`, and what is free by then. -/
theorem Built.unmap (h : Built s) : ∃ (m' : Memory) (pgdir' : Pgdir),
    Returns (fun fuel ↦ unmapAreas fuel s.mm.mmapList s.memory s.mm.pgdir) (m', pgdir') ∧
    Unmapped pgdir' ∧ pgdir'.frame = s.mm.pgdir.frame ∧ pgdir'.skeleton = s.mm.pgdir.skeleton ∧
    pgdir'.tables = s.mm.pgdir.tables ∧
    (m'.free : Multiset Frame) = s.memory.free + s.mm.pgdir.pages := by
  rcases unmapAreas_returns h.whole h.accounts
    with ⟨m', pgdir', hreturns, hcleared, hdropped⟩
  have hunmapped : Unmapped pgdir' := by
    refine unmapped_of_pte fun la hpresent ↦ ?_
    rcases hcleared.present la hpresent with ⟨hold, hout⟩
    rcases h.inside la hold with ⟨vma, hvma, lb, hlb, hsame⟩
    exact hout lb ⟨vma, hvma, hlb⟩ hsame
  refine ⟨m', pgdir', hreturns, hunmapped, hcleared.frame, hcleared.skeleton, hcleared.tables, ?_⟩
  -- the frames that have lost their last reference are the pages
  have hleft : pgdir'.frames = s.mm.pgdir.tables := by
    rw [Table.frames, pages_of_unmapped hunmapped, hcleared.tables, zero_add]
  rcases Multiset.nodup_add.mp h.once with ⟨hpages, -, hdisjoint⟩
  have hheld : ∀ frame, frame ∈ s.mm.pgdir.pages → frame ∈ s.others + s.mm.pgdir.frames :=
    fun frame hpage ↦ Multiset.mem_add.mpr (Or.inr (Multiset.mem_add.mpr (Or.inl hpage)))
  have hfree : ∀ frame, frame ∈ s.mm.pgdir.pages → frame ∉ s.memory.free :=
    fun frame hpage hin ↦ h.accounts.unused frame hin (hheld frame hpage)
  have hnodup : ((s.memory.free : Multiset Frame) + s.mm.pgdir.pages).Nodup := by
    refine ((Multiset.coe_nodup.mpr h.accounts.nodup).add_iff hpages).mpr ?_
    exact Multiset.disjoint_right.mpr fun hpage hin ↦ hfree _ hpage (Multiset.mem_coe.mp hin)
  refine (Multiset.Nodup.ext (Multiset.coe_nodup.mpr hdropped.accounts.nodup) hnodup).mpr ?_
  intro frame
  rw [Multiset.mem_coe, Multiset.mem_add, Multiset.mem_coe]
  by_cases hin : frame ∈ s.memory.free
  · exact iff_of_true (hdropped.keep frame hin) (Or.inl hin)
  · rw [hdropped.freed frame hin, or_iff_right hin, hleft]
    constructor
    · rintro ⟨hmem, hlost⟩
      rw [Multiset.mem_add, not_or] at hlost
      rcases Multiset.mem_add.mp hmem with hother | hmem
      · exact absurd hother hlost.1
      · exact (Multiset.mem_add.mp hmem).resolve_right hlost.2
    · intro hpage
      refine ⟨hheld frame hpage, fun hmem ↦ ?_⟩
      rcases Multiset.mem_add.mp hmem with hother | htable
      · exact Multiset.disjoint_left.mp h.apart hother (Multiset.mem_add.mpr (Or.inl hpage))
      · exact Multiset.disjoint_left.mp hdisjoint hpage htable

/-- What is free at the end, region by region. -/
theorem Built.takeDown (h : Built s) : ∃ (m' : Memory) (pgdir' : Pgdir),
    Returns (fun fuel ↦ Mm.takeDown fuel s.memory s.mm) m' ∧
    pgdir'.skeleton = s.mm.pgdir.skeleton ∧ pgdir'.tables = s.mm.pgdir.tables ∧
    (m'.free : Multiset Frame) = s.memory.free + s.mm.pgdir.pages +
      ∑ i, regionReclaimed i s.mm.mmapList (pgdir'.entry i) + {s.mm.pgdir.frame} := by
  rcases h.unmap with ⟨m1, pgdir1, hunmap, hunmapped, hframe, hskeleton, htables, hfree⟩
  rcases exitAreas_returns (m := m1) h.whole hunmapped with ⟨m2, pgdir2, hexit, hroot, hfreed⟩
  refine ⟨putPgdir m2 pgdir2, pgdir1, ?_, hskeleton, htables, ?_⟩
  · have hmmap : Returns (fun fuel ↦ exitMmap fuel s.memory 0 s.mm) (m2, pgdir2) := by
      have hboth : Returns (fun fuel ↦ unmapAreas fuel s.mm.mmapList s.memory s.mm.pgdir >>=
          fun result ↦ exitAreas fuel s.mm.mmapList result.1 result.2) (m2, pgdir2) :=
        hunmap.bind hexit
      refine .congr (fun fuel ↦ ?_) hboth
      rw [exitMmap, Outcome.require_of_true rfl, Outcome.ok_bind]
    exact hmmap.bind (.of_eq fun _ ↦ rfl)
  · rw [← hfree, ← hfreed, ← hframe, ← hroot, add_comm, Multiset.singleton_add, Multiset.cons_coe]
    rfl

/-- The frames of the address space, its root and the free frames are all different. -/
theorem Built.nodup (h : Built s) : ((s.memory.free : Multiset Frame) + s.mm.pgdir.frames +
    {s.mm.pgdir.frame}).Nodup := by
  rw [Multiset.nodup_add, Multiset.nodup_add]
  refine ⟨⟨Multiset.coe_nodup.mpr h.accounts.nodup, h.once, ?_⟩, Multiset.nodup_singleton _, ?_⟩
  · refine Multiset.disjoint_left.mpr fun hin hheld ↦ ?_
    exact h.accounts.unused _ (Multiset.mem_coe.mp hin) (Multiset.mem_add.mpr (Or.inr hheld))
  · refine Multiset.disjoint_right.mpr fun hframe hin ↦ ?_
    rw [Multiset.mem_singleton.mp hframe] at hin
    rcases Multiset.mem_add.mp hin with hin | hin
    · exact h.root (Multiset.mem_coe.mp hin)
    · exact h.rootHeld (Multiset.mem_add.mpr (Or.inr hin))

theorem Built.torn_iff (h : Built s) : TornDown s.memory s.mm ↔
    ∀ i pd0, s.mm.pgdir.entry i = some pd0 → Complete pd0 s.mm.mmapList i := by
  rcases h.takeDown with ⟨m', pgdir', hreturns, hskeleton, htables, hfree⟩
  have hsum := sum_regionReclaimed_eq_iff pgdir' s.mm.mmapList
  rw [htables] at hsum
  generalize (∑ i, regionReclaimed i s.mm.mmapList (pgdir'.entry i)) = freed at hfree hsum
  constructor
  · intro htorn
    rcases htorn.reclaimed with ⟨last, hlast, -, hall⟩
    cases hreturns.unique hlast
    refine complete_of_skeleton hskeleton.symm (hsum.mp ?_)
    rw [hfree, Table.frames, ← add_assoc] at hall
    exact add_left_cancel (add_right_cancel hall)
  · intro hcomplete
    have hall : (m'.free : Multiset Frame) =
        s.memory.free + s.mm.pgdir.frames + {s.mm.pgdir.frame} := by
      rw [hfree, hsum.mpr (complete_of_skeleton hskeleton hcomplete), Table.frames, add_assoc,
        add_assoc, add_assoc, add_assoc]
    refine ⟨⟨m', hreturns, ?_, hall⟩, ?_⟩
    · have hnodup := h.nodup
      rw [← hall] at hnodup
      exact Multiset.coe_nodup.mp hnodup
    · rcases h.unmap with ⟨m1, pgdir1, hunmap, -, -, -, -, hpages⟩
      exact ⟨m1, pgdir1, hunmap, hpages⟩

/-- In whatever way an address space was built, taking it down gives everything back exactly when
the tables of each region are complete. -/
theorem tornDown_iff (s : AddressSpace) (h : Reachable NewSpace BuildStep s) :
    TornDown s.memory s.mm ↔
      ∀ i pd0, s.mm.pgdir.entry i = some pd0 → Complete pd0 s.mm.mmapList i :=
  (built_of_reachable h).torn_iff

end Steps

/-! ## A page in a larger area -/

/-- A machine with six frames. -/
def sixFrames : Memory := ⟨[0, 1, 2, 3, 4, 5], fun _ ↦ 0, fun _ _ ↦ 0, false, [], fun _ ↦ 0, none⟩

/-- The first page of an area of one or two slots has been mapped, and nothing else. -/
theorem reachable_onePage (len : ℕ) (hlen : len = PTSIZE ∨ len = 2 * PTSIZE) :
    ∃ s, Reachable NewSpace BuildStep s ∧
      s.mm.mmapList = [⟨USERBASE, USERBASE + len, VM_READ⟩] ∧
      (∀ i, (s.mm.pgdir.entry i).isSome → i = 0) ∧
      ∃ pd0, s.mm.pgdir.entry 0 = some pd0 ∧ ∀ j, (pd0.entry j).isSome ↔ j = 1 := by
  have hfirst : Reachable NewSpace BuildStep
      ⟨(setupPgdir sixFrames).2, mmCreate false (Table.clear 0 none), 0⟩ :=
    .first ⟨sixFrames, _, ⟨fun _ ↦ rfl, by decide, fun _ _ ↦ Multiset.notMem_zero _⟩, rfl, rfl⟩
  have hmap : Reachable NewSpace BuildStep ⟨(setupPgdir sixFrames).2,
      ⟨[⟨USERBASE, USERBASE + len, VM_READ⟩], none, Table.clear 0 none, 1, false⟩, 0⟩ := by
    have hadded : (mmCreate false (Table.clear 0 none)).mmMap true USERBASE len VM_READ = .ok (0,
        ⟨[⟨USERBASE, USERBASE + len, VM_READ⟩], none, Table.clear 0 none, 1, false⟩) := by
      rcases hlen with rfl | rfl <;> rfl
    exact hfirst.step (.map hadded)
  have hpage : (⟨USERBASE, USERBASE + len, VM_READ⟩ : Vma).Contains USERBASE := by
    rcases hlen with rfl | rfl <;> decide
  have halloc : ∃ memory pgdir,
      pgdirAllocPage (setupPgdir sixFrames).2 (Table.clear 0 none) USERBASE PTE_U =
        .ok (some 1, memory, pgdir) ∧ (∀ i, (pgdir.entry i).isSome → i = 0) ∧
      ∃ pd0, pgdir.entry 0 = some pd0 ∧ ∀ j, (pd0.entry j).isSome ↔ j = 1 := by
    refine ⟨_, _, rfl, ?_, _, rfl, ?_⟩
    · decide +kernel
    · decide +kernel
  rcases halloc with ⟨memory, pgdir, hcall, hregion, hslots⟩
  exact ⟨_, hmap.step (.allocPage (List.mem_singleton_self _) hpage (by decide) hcall), rfl,
    hregion, hslots⟩

/-- The area is one slot, which has a table. -/
theorem tornDown_oneSlot :
    ∃ s, Reachable NewSpace BuildStep s ∧ TornDown s.memory s.mm := by
  rcases reachable_onePage PTSIZE (Or.inl rfl) with ⟨s, hs, hareas, hregion, first, hfirst, hslots⟩
  refine ⟨s, hs, (tornDown_iff s hs).mpr fun i pd0 hpd0 ↦ ?_⟩
  have hi : i = 0 := hregion i (by rw [hpd0]; rfl)
  rw [hi] at hpd0 ⊢
  cases hfirst.symm.trans hpd0
  have htouched : ∀ j, j ∈ (⟨USERBASE, USERBASE + PTSIZE, VM_READ⟩ : Vma).touched 0 ↔ j = 1 := by
    decide +kernel
  refine ⟨[], _, [], hareas, ⟨⟨1, (htouched 1).mpr rfl⟩, fun j hj ↦ ?_⟩, ?_, fun j hj ↦ ?_⟩
  · exact ⟨(hslots j).mpr ((htouched j).mp hj), nofun⟩
  · intro first other second hnil
    exact absurd hnil.symm
      (List.append_ne_nil_of_right_ne_nil first (List.cons_ne_nil other second))
  · exact ⟨_, List.mem_singleton_self _, (htouched j).mpr ((hslots j).mp hj)⟩

/-- The area is two slots, and only one of them has a table: the table of the middle level is never
freed. -/
theorem not_tornDown_twoSlots :
    ∃ s, Reachable NewSpace BuildStep s ∧ ¬TornDown s.memory s.mm := by
  rcases reachable_onePage (2 * PTSIZE) (Or.inr rfl) with ⟨s, hs, hareas, -, pd0, hpd0, hslots⟩
  refine ⟨s, hs, fun htorn ↦ ?_⟩
  rcases (built_of_reachable hs).torn_iff.mp htorn 0 pd0 hpd0
    with ⟨before, vma, after, hsplit, ⟨-, hfills⟩, -⟩
  have hvma : vma ∈ s.mm.mmapList := hsplit ▸ List.mem_append_right _ List.mem_cons_self
  rw [hareas] at hvma
  rw [List.mem_singleton.mp hvma] at hfills
  have hsecond : (2 : Fin 512) ∈ Vma.touched ⟨USERBASE, USERBASE + 2 * PTSIZE, VM_READ⟩ 0 :=
    mem_touched.mpr (by decide)
  exact absurd ((hslots 2).mp (hfills 2 hsecond).1) (by decide)

end Ucore.Mm
