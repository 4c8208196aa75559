import Ucore.Mm.ExitRange
import Ucore.Mm.Vma

/-!
# Taking down an address space

`exit_mmap` of `kern/mm/vmm.c` and `put_pgdir` of `kern/process/proc.c`. All areas are unmapped
first. After that the tables are freed area by area, and what one area frees of a region of 1 GB
depends on the areas before it.
-/

namespace Ucore.Mm

open Library

/-- The first loop of `exit_mmap`. -/
def unmapAreas (fuel : ℕ) : List Vma → Memory → Pgdir → Outcome (Memory × Pgdir)
  | [], m, pgdir => .ok (m, pgdir)
  | vma :: areas, m, pgdir => do
    let (m, pgdir) ← unmapRange fuel m pgdir vma.vmStart vma.vmEnd
    unmapAreas fuel areas m pgdir

/-- The second loop of `exit_mmap`. -/
def exitAreas (fuel : ℕ) : List Vma → Memory → Pgdir → Outcome (Memory × Pgdir)
  | [], m, pgdir => .ok (m, pgdir)
  | vma :: areas, m, pgdir => do
    let (m, pgdir) ← exitRange fuel m pgdir vma.vmStart vma.vmEnd
    exitAreas fuel areas m pgdir

/-- `exit_mmap`, given `mm_count`. -/
def exitMmap (fuel : ℕ) (m : Memory) (mmCount : ℕ) (mm : MmStruct) : Outcome (Memory × Pgdir) := do
  Outcome.require (mmCount = 0)
  let (m, pgdir) ← unmapAreas fuel mm.mmapList m mm.pgdir
  exitAreas fuel mm.mmapList m pgdir

/-- `put_pgdir`. -/
def putPgdir (m : Memory) (pgdir : Pgdir) : Memory := m.freePage pgdir.frame

/-- What every caller does with an address space that is not used any more. -/
def takeDown (fuel : ℕ) (m : Memory) (mm : MmStruct) : Outcome Memory := do
  let (m, pgdir) ← exitMmap fuel m 0 mm
  return putPgdir m pgdir

/-! ## Unmapping -/

section Unmapping

variable {m : Memory} {pgdir pgdir' pgdir'' : Pgdir} {la start stop next : ℕ}
  {inside more : ℕ → Prop}

/-- The frames of a table of the middle level and of the tables that it leads to. -/
def pd0Skeleton (pd0 : Pd0) : Frame × (Fin 512 → Option Frame) :=
  (pd0.frame, fun j ↦ (pd0.entry j).map Table.frame)

/-- The tables of a directory without their entries of the last level. -/
def Table.skeleton (pgdir : Pgdir) (i : Fin 512) : Option (Frame × (Fin 512 → Option Frame)) :=
  (pgdir.entry i).map pd0Skeleton

theorem skeleton_setPte (pgdir : Pgdir) (la value : ℕ) :
    (pgdir.setPte la value).skeleton = pgdir.skeleton := by
  cases hpd0 : pgdir.entry (PDX1 la) with
  | none => rw [Table.setPte, hpd0]
  | some pd0 =>
    cases hpt : pd0.entry (PDX0 la) with
    | none =>
      rw [Table.setPte, hpd0]
      dsimp only
      rw [hpt]
    | some pt =>
      rw [setPte_eq hpd0 hpt]
      funext i
      unfold Table.skeleton
      by_cases hi : i = PDX1 la
      · rw [hi, set_self, hpd0, Option.map_some, Option.map_some]
        refine congrArg some (Prod.ext rfl (funext fun j ↦ ?_))
        unfold pd0Skeleton
        dsimp only
        by_cases hj : j = PDX0 la
        · rw [hj, set_self, hpt]
          rfl
        · rw [set_of_ne _ _ hj]
      · rw [set_of_ne _ _ hi]

theorem frame_setPte (pgdir : Pgdir) (la value : ℕ) :
    (pgdir.setPte la value).frame = pgdir.frame := by
  unfold Table.setPte
  split
  · rfl
  · split <;> rfl

/-- Entries have been cleared, among them those of the addresses inside. No table has gone. -/
structure Cleared (pgdir pgdir' : Pgdir) (inside : ℕ → Prop) : Prop where
  frame : pgdir'.frame = pgdir.frame
  skeleton : pgdir'.skeleton = pgdir.skeleton
  tables : pgdir'.tables = pgdir.tables
  present : ∀ la, Present (pgdir'.pte la) →
    Present (pgdir.pte la) ∧ ∀ lb, inside lb → ¬SamePlace lb la

theorem Cleared.refl (h : ∀ lb, inside lb → ∀ la, SamePlace lb la → ¬Present (pgdir.pte la)) :
    Cleared pgdir pgdir inside where
  frame := rfl
  skeleton := rfl
  tables := rfl
  present := fun la hpresent ↦ ⟨hpresent, fun lb hlb hsame ↦ h lb hlb la hsame hpresent⟩

theorem Cleared.trans (h : Cleared pgdir pgdir' inside) (h' : Cleared pgdir' pgdir'' more) :
    Cleared pgdir pgdir'' (fun lb ↦ inside lb ∨ more lb) where
  frame := h'.frame.trans h.frame
  skeleton := h'.skeleton.trans h.skeleton
  tables := h'.tables.trans h.tables
  present := by
    intro la hlast
    rcases h'.present la hlast with ⟨hmiddle, hmore⟩
    rcases h.present la hmiddle with ⟨hfirst, hinside⟩
    exact ⟨hfirst, fun lb hlb ↦ hlb.elim (hinside lb) (hmore lb)⟩

theorem Cleared.mono (h : Cleared pgdir pgdir' inside) (hmore : ∀ lb, more lb → inside lb) :
    Cleared pgdir pgdir' more where
  frame := h.frame
  skeleton := h.skeleton
  tables := h.tables
  present := fun la hpresent ↦
    ⟨(h.present la hpresent).1, fun lb hlb ↦ (h.present la hpresent).2 lb (hmore lb hlb)⟩

theorem cleared_pageRemovePte {value : ℕ} (hpte : pgdir.getPte la = some value) :
    Cleared pgdir (pageRemovePte m pgdir la value).2 (fun lb ↦ SamePlace lb la) := by
  have hvalue : pgdir.pte la = value := by
    rw [Table.pte, hpte]
    rfl
  unfold pageRemovePte
  split
  · refine ⟨frame_setPte .., skeleton_setPte .., tables_setPte .., fun lb hpresent ↦ ?_⟩
    have hsome : (pgdir.getPte la).isSome := by
      rw [hpte]
      rfl
    have hother : ¬SamePlace la lb := by
      intro hsame
      rw [pte_setPte hsome, if_pos hsame] at hpresent
      exact not_present_zero hpresent
    rw [pte_setPte hsome, if_neg hother] at hpresent
    refine ⟨hpresent, fun lc hlc hsame ↦ hother ?_⟩
    exact ⟨hlc.1.symm.trans hsame.1, hlc.2.1.symm.trans hsame.2.1, hlc.2.2.symm.trans hsame.2.2⟩
  · rename_i habsent
    refine Cleared.refl fun lb hlb lc hsame ↦ ?_
    rw [← pte_congr hsame, pte_congr hlb, hvalue]
    exact habsent

/-- Addresses of one page have one entry. -/
theorem samePlace_of_page {lb : ℕ} (h : la / PGSIZE = lb / PGSIZE) : SamePlace la lb := by
  unfold PGSIZE at h
  refine ⟨Fin.ext ?_, Fin.ext ?_, Fin.ext ?_⟩
  · rw [PDX1_val, PDX1_val]
    omega
  · rw [PDX0_val, PDX0_val]
    omega
  · rw [PTX_val, PTX_val]
    omega

/-- What one round of `unmap_range` does, and where it goes on. -/
theorem unmapLoop_round (m : Memory) (pgdir : Pgdir) (stop : ℕ) (hstart : start % PGSIZE = 0) :
    ∃ (m' : Memory) (pgdir' : Pgdir) (next : ℕ),
    Cleared pgdir pgdir' (fun lb ↦ start ≤ lb ∧ lb < next) ∧ start < next ∧ next % PGSIZE = 0 ∧
    ∀ fuel, unmapLoop (fuel + 1) m pgdir start stop =
      if next ≠ 0 ∧ next < stop then unmapLoop fuel m' pgdir' next stop else .ok (m', pgdir') := by
  cases hpte : pgdir.getPte start with
  | none =>
    refine ⟨m, pgdir, roundDown (start + PTSIZE) PTSIZE, Cleared.refl ?_, ?_, ?_, fun fuel ↦ ?_⟩
    · -- a slot without a table
      rintro lb ⟨hle, hlt⟩ la hsame
      have hslot : PDX1 lb = PDX1 start ∧ PDX0 lb = PDX0 start := by
        unfold roundDown PTSIZE PGSIZE NPTEENTRY at hlt
        constructor
        · apply Fin.ext
          rw [PDX1_val, PDX1_val]
          omega
        · apply Fin.ext
          rw [PDX0_val, PDX0_val]
          omega
      have hnone : pgdir.getPte lb = none := by
        unfold Table.getPte at hpte ⊢
        rw [hslot.1, hslot.2]
        split
        · rfl
        · rename_i pd0 hpd0
          rw [hpd0] at hpte
          dsimp only at hpte
          split
          · rfl
          · rename_i pt hpt
            rw [hpt] at hpte
            cases hpte
      rw [← pte_congr hsame, Table.pte, hnone]
      exact not_present_zero
    · unfold roundDown PTSIZE PGSIZE NPTEENTRY
      omega
    · unfold roundDown PTSIZE PGSIZE NPTEENTRY
      omega
    · rw [unmapLoop, hpte]
  | some value =>
    have hnext : start < start + PGSIZE ∧ (start + PGSIZE) % PGSIZE = 0 :=
      ⟨Nat.lt_add_of_pos_right (by decide), (Nat.add_mod_right ..).trans hstart⟩
    have hpage : ∀ lb, start ≤ lb ∧ lb < start + PGSIZE → SamePlace lb start := by
      rintro lb ⟨hle, hlt⟩
      apply samePlace_of_page
      unfold PGSIZE at *
      omega
    by_cases hzero : value = 0
    · refine ⟨m, pgdir, start + PGSIZE, Cleared.refl ?_, hnext.1, hnext.2, fun fuel ↦ ?_⟩
      · intro lb hlb la hsame
        rw [← pte_congr hsame, pte_congr (hpage lb hlb), Table.pte, hpte, hzero]
        exact not_present_zero
      · rw [unmapLoop, hpte]
        dsimp only
        rw [if_neg (not_not.mpr hzero)]
    · refine ⟨(pageRemovePte m pgdir start value).1, (pageRemovePte m pgdir start value).2,
        start + PGSIZE, (cleared_pageRemovePte hpte).mono hpage, hnext.1, hnext.2, fun fuel ↦ ?_⟩
      rw [unmapLoop, hpte]
      dsimp only
      rw [if_pos hzero]

theorem unmapLoop_returns (hstart : start % PGSIZE = 0) (hlt : start < stop) :
    ∃ (m' : Memory) (pgdir' : Pgdir),
      Returns (fun fuel ↦ unmapLoop fuel m pgdir start stop) (m', pgdir') ∧
      Cleared pgdir pgdir' (fun lb ↦ start ≤ lb ∧ lb < stop) := by
  -- induction on the addresses left
  induction hleft : stop - start using Nat.strongRecOn generalizing m pgdir start with
  | _ left ih =>
    rcases unmapLoop_round m pgdir stop hstart
      with ⟨after, dir, next, hcleared, hmore, hnext, hround⟩
    by_cases hgo : next < stop
    · have hlower : stop - next < left := by omega
      have hnexts : ∃ (m' : Memory) (pgdir' : Pgdir),
          Returns (fun fuel ↦ unmapLoop fuel after dir next stop) (m', pgdir') ∧
          Cleared dir pgdir' (fun lb ↦ next ≤ lb ∧ lb < stop) := ih _ hlower hnext hgo rfl
      rcases hnexts with ⟨m', pgdir', hreturns, hrest⟩
      refine ⟨m', pgdir', .of_succ (.congr (fun fuel ↦ ?_) hreturns),
        (hcleared.trans hrest).mono ?_⟩
      · exact (hround fuel).trans (if_pos ⟨Nat.ne_of_gt (Nat.zero_lt_of_lt hmore), hgo⟩)
      · rintro lb ⟨hle, hlast⟩
        exact (lt_or_ge lb next).imp (fun h ↦ ⟨hle, h⟩) fun h ↦ ⟨h, hlast⟩
    · refine ⟨after, dir, .of_succ (.of_eq fun fuel ↦ ?_), hcleared.mono ?_⟩
      · exact (hround fuel).trans (if_neg fun h ↦ hgo h.2)
      · rintro lb ⟨hle, hlast⟩
        exact ⟨hle, hlast.trans_le (not_lt.mp hgo)⟩

/-- Unmapping a list of areas, in a directory whose frames no one else holds. -/
theorem unmapAreas_returns {areas : List Vma} {others : Multiset Frame}
    (hwhole : ∀ vma ∈ areas, vma.Whole) (h : Accounts m (others + pgdir.frames)) :
    ∃ (m' : Memory) (pgdir' : Pgdir),
      Returns (fun fuel ↦ unmapAreas fuel areas m pgdir) (m', pgdir') ∧
      Cleared pgdir pgdir' (fun lb ↦ ∃ vma ∈ areas, vma.Contains lb) ∧
      Dropped m m' (others + pgdir.frames) (others + pgdir'.frames) := by
  induction areas generalizing m pgdir with
  | nil =>
    refine ⟨m, pgdir, .of_eq fun _ ↦ rfl, Cleared.refl ?_, Dropped.refl h⟩
    rintro lb ⟨vma, hvma, -⟩
    cases hvma
  | cons vma areas ih =>
    have hvma := hwhole vma List.mem_cons_self
    rcases unmapLoop_returns (m := m) hvma.start hvma.access.2.1
      with ⟨after, dir, hloop, hcleared⟩
    have hreturns : Returns (fun fuel ↦ unmapRange fuel m pgdir vma.vmStart vma.vmEnd)
        (after, dir) := by
      refine .congr (fun fuel ↦ ?_) hloop
      rw [unmapRange, Outcome.require_of_true ⟨hvma.start, hvma.stop⟩, Outcome.ok_bind,
        Outcome.require_of_true hvma.access, Outcome.ok_bind]
    have hdropped : Dropped m after (others + pgdir.frames) (others + dir.frames) := by
      rcases hloop with ⟨bound, hbound⟩
      exact dropped_unmapLoop h (hbound bound le_rfl)
    rcases ih (fun other hother ↦ hwhole other (List.mem_cons_of_mem _ hother)) hdropped.accounts
      with ⟨m', pgdir', hrest, hmore, hlast⟩
    refine ⟨m', pgdir', hreturns.bind hrest, (hcleared.trans hmore).mono ?_, hdropped.trans hlast⟩
    rintro lb ⟨other, hother, hcontains⟩
    rcases List.mem_cons.mp hother with rfl | hother
    · exact Or.inl hcontains
    · exact Or.inr ⟨other, hother, hcontains⟩

/-- Each entry of the last level is that of an address. -/
theorem exists_address (i j k : Fin 512) : ∃ la, PDX1 la = i ∧ PDX0 la = j ∧ PTX la = k := by
  have hi := i.isLt
  have hj := j.isLt
  have hk := k.isLt
  refine ⟨i * 1073741824 + j * 2097152 + k * 4096, Fin.ext ?_, Fin.ext ?_, Fin.ext ?_⟩
  · rw [PDX1_val]
    omega
  · rw [PDX0_val]
    omega
  · rw [PTX_val]
    omega

theorem unmapped_of_pte (h : ∀ la, ¬Present (pgdir.pte la)) : Unmapped pgdir := by
  intro i pd0 hpd0 j pt hpt k
  rcases exists_address i j k with ⟨la, hi, hj, hk⟩
  have hla := h la
  rw [← hi] at hpd0
  rw [← hj] at hpt
  rw [Table.pte, getPte_eq hpd0 hpt, hk] at hla
  exact hla

theorem pd0Pages_of_unmapped {pd0 : Pd0} (h : Pd0Unmapped pd0) : pd0Pages pd0 = 0 := by
  refine Finset.sum_eq_zero fun j _ ↦ ?_
  cases hpt : pd0.entry j with
  | none => rw [Option.elim_none]
  | some pt =>
    rw [Option.elim_some, ptPages]
    exact Finset.sum_eq_zero fun k _ ↦ pageOf_not_present (h j pt hpt k)

theorem pages_of_unmapped (h : Unmapped pgdir) : pgdir.pages = 0 := by
  refine Finset.sum_eq_zero fun i _ ↦ ?_
  cases hpd0 : pgdir.entry i with
  | none => rw [Option.elim_none]
  | some pd0 =>
    rw [Option.elim_some]
    exact pd0Pages_of_unmapped (h i pd0 hpd0)

end Unmapping

/-! ## Freeing the tables -/

section Exiting

variable {m : Memory} {pgdir : Pgdir} {pd0 : Pd0} {region : Option Pd0} {areas : List Vma}
  {vma : Vma} {i : Fin 512} {slots : Finset (Fin 512)}

def Vma.touched (vma : Vma) (i : Fin 512) : Finset (Fin 512) := Mm.touched vma.vmStart vma.vmEnd i

/-- What the areas free, one after the other, of the tables of one region. -/
def regionReclaimed (i : Fin 512) : List Vma → Option Pd0 → Multiset Frame
  | [], _ => 0
  | vma :: areas, region => regionFreed (vma.touched i) region +
      regionReclaimed i areas (regionStep (vma.touched i) region)

theorem exitAreas_returns (hwhole : ∀ vma ∈ areas, vma.Whole) (h : Unmapped pgdir) :
    ∃ (m' : Memory) (pgdir' : Pgdir),
      Returns (fun fuel ↦ exitAreas fuel areas m pgdir) (m', pgdir') ∧
      pgdir'.frame = pgdir.frame ∧
      (m'.free : Multiset Frame) = m.free + ∑ i, regionReclaimed i areas (pgdir.entry i) := by
  induction areas generalizing m pgdir with
  | nil =>
    refine ⟨m, pgdir, .of_eq fun _ ↦ rfl, rfl, ?_⟩
    exact (congrArg _ (Finset.sum_eq_zero fun _ _ ↦ rfl)).trans (add_zero _) |>.symm
  | cons vma areas ih =>
    have hvma := hwhole vma List.mem_cons_self
    rcases exitRange_returns (m := m) h hvma.access hvma.start hvma.stop
      with ⟨after, hreturns, hafter⟩
    have hnexts : ∃ (m' : Memory) (pgdir' : Pgdir),
        Returns (fun fuel ↦ exitAreas fuel areas after (pgdir.exited vma.touched)) (m', pgdir') ∧
        pgdir'.frame = pgdir.frame ∧ (m'.free : Multiset Frame) =
          after.free + ∑ i, regionReclaimed i areas (regionStep (vma.touched i) (pgdir.entry i)) :=
      ih (fun other hother ↦ hwhole other (List.mem_cons_of_mem _ hother))
        (unmapped_exited h vma.touched)
    rcases hnexts with ⟨m', pgdir', hrest, hframe, hfree⟩
    refine ⟨m', pgdir', hreturns.bind hrest, hframe, ?_⟩
    rw [hfree, hafter, add_assoc]
    exact congrArg _ Finset.sum_add_distrib.symm

/-! ## When a region is freed -/

/-- An area that keeps `free_pd0` set: it touches the region, and each slot that it touches there
has a table, which no earlier area has touched. -/
def Fills (pd0 : Pd0) (before : List Vma) (vma : Vma) (i : Fin 512) : Prop :=
  (vma.touched i).Nonempty ∧ ∀ j ∈ vma.touched i,
    (pd0.entry j).isSome ∧ ∀ other ∈ before, j ∉ other.touched i

/-- Some area keeps `free_pd0` set, and with the first one that does all tables of the region have
been touched. -/
def Complete (pd0 : Pd0) (areas : List Vma) (i : Fin 512) : Prop :=
  ∃ before vma after, areas = before ++ vma :: after ∧ Fills pd0 before vma i ∧
    (∀ first other second, before = first ++ other :: second → ¬Fills pd0 first other i) ∧
    ∀ j, (pd0.entry j).isSome → ∃ other ∈ before ++ [vma], j ∈ other.touched i

theorem fills_nil : Fills pd0 [] vma i ↔ Filled pd0 (vma.touched i) := by
  refine and_congr_right fun _ ↦ forall₂_congr fun j _ ↦ ?_
  exact and_iff_left fun _ hother ↦ (List.not_mem_nil hother).elim

theorem isSome_without {j : Fin 512} :
    ((pd0.without slots).entry j).isSome ↔ (pd0.entry j).isSome ∧ j ∉ slots := by
  rw [entry_without]
  by_cases hj : j ∈ slots
  · rw [if_pos hj]
    exact iff_of_false Bool.false_ne_true fun h ↦ h.2 hj
  · rw [if_neg hj]
    exact (and_iff_left hj).symm

/-- An area has freed its tables, and the others go on with what is left. -/
theorem fills_without {other : Vma} {before : List Vma} :
    Fills (pd0.without (other.touched i)) before vma i ↔ Fills pd0 (other :: before) vma i := by
  refine and_congr_right fun _ ↦ forall₂_congr fun j _ ↦ ?_
  rw [isSome_without, List.forall_mem_cons, and_assoc]

theorem not_complete_nil : ¬Complete pd0 [] i := by
  rintro ⟨before, vma, after, hareas, -⟩
  exact List.append_ne_nil_of_right_ne_nil before (List.cons_ne_nil vma after) hareas.symm

theorem complete_of_filled (h : Filled pd0 (vma.touched i)) :
    Complete pd0 (vma :: areas) i ↔ ∀ j, (pd0.entry j).isSome → j ∈ vma.touched i := by
  constructor
  · rintro ⟨before, last, after, hareas, -, hfirst, hall⟩ j hj
    cases before with
    | nil =>
      cases hareas
      rcases hall j hj with ⟨other, hother, hmem⟩
      rwa [List.mem_singleton.mp hother] at hmem
    | cons first before =>
      cases hareas
      exact absurd (fills_nil.mpr h) (hfirst [] vma before rfl)
  · intro hall
    refine ⟨[], vma, areas, rfl, fills_nil.mpr h, ?_, fun j hj ↦ ?_⟩
    · intro first other second hnil
      exact absurd hnil.symm
        (List.append_ne_nil_of_right_ne_nil first (List.cons_ne_nil other second))
    · exact ⟨vma, List.mem_singleton_self vma, hall j hj⟩

theorem complete_of_not_filled (h : ¬Filled pd0 (vma.touched i)) :
    Complete pd0 (vma :: areas) i ↔ Complete (pd0.without (vma.touched i)) areas i := by
  constructor
  · rintro ⟨before, last, after, hareas, hfills, hfirst, hall⟩
    cases before with
    | nil =>
      cases hareas
      exact absurd (fills_nil.mp hfills) h
    | cons first before =>
      cases hareas
      refine ⟨before, last, after, rfl, fills_without.mpr hfills, ?_, fun j hj ↦ ?_⟩
      · rintro first other second rfl hother
        exact hfirst (vma :: first) other second rfl (fills_without.mp hother)
      · rcases isSome_without.mp hj with ⟨hsome, hout⟩
        rcases hall j hsome with ⟨other, hother, hmem⟩
        rcases List.mem_cons.mp hother with rfl | hother
        · exact absurd hmem hout
        · exact ⟨other, hother, hmem⟩
  · rintro ⟨before, last, after, rfl, hfills, hfirst, hall⟩
    refine ⟨vma :: before, last, after, rfl, fills_without.mp hfills, ?_, fun j hj ↦ ?_⟩
    · intro first other second hbefore hother
      cases first with
      | nil =>
        cases hbefore
        exact h (fills_nil.mp hother)
      | cons head first =>
        cases hbefore
        exact hfirst first other second rfl (fills_without.mpr hother)
    · by_cases hmem : j ∈ vma.touched i
      · exact ⟨vma, List.mem_cons_self, hmem⟩
      · rcases hall j (isSome_without.mpr ⟨hj, hmem⟩) with ⟨other, hother, hin⟩
        exact ⟨other, List.mem_cons_of_mem _ hother, hin⟩

/-! ## The frames that are freed -/

theorem slotFrames_add_compl (pd0 : Pd0) (slots : Finset (Fin 512)) :
    slotFrames pd0 slots + ({pd0.frame} + slotFrames pd0 slotsᶜ) = pd0Frames pd0 := by
  rw [add_left_comm, slotFrames, slotFrames, Finset.sum_add_sum_compl]
  rfl

theorem pd0Frames_without (pd0 : Pd0) (slots : Finset (Fin 512)) :
    pd0Frames (pd0.without slots) = {pd0.frame} + slotFrames pd0 slotsᶜ := by
  have hin : slotFrames (pd0.without slots) slots = 0 := by
    rw [slotFrames]
    refine Finset.sum_eq_zero fun j hj ↦ ?_
    rw [entry_without, if_pos hj, Option.elim_none]
  have hout : slotFrames (pd0.without slots) slotsᶜ = slotFrames pd0 slotsᶜ := by
    rw [slotFrames, slotFrames]
    refine Finset.sum_congr rfl fun j hj ↦ ?_
    rw [entry_without, if_neg (Finset.mem_compl.mp hj)]
  rw [← slotFrames_add_compl (pd0.without slots) slots, hin, hout, zero_add, without_frame]

theorem slotFrames_compl_eq_zero :
    slotFrames pd0 slotsᶜ = 0 ↔ ∀ j, (pd0.entry j).isSome → j ∈ slots := by
  rw [slotFrames, Finset.sum_eq_zero_iff]
  refine forall_congr' fun j ↦ ?_
  rw [Finset.mem_compl]
  cases hpt : pd0.entry j with
  | none => simp
  | some pt => simp [ptFrames]

theorem pd0Frames_ne_zero (pd0 : Pd0) : pd0Frames pd0 ≠ 0 := by
  rw [pd0Frames]
  intro hzero
  exact Multiset.singleton_ne_zero _ (add_eq_zero.mp hzero).1

@[simp]
theorem regionReclaimed_none (i : Fin 512) (areas : List Vma) :
    regionReclaimed i areas none = 0 := by
  induction areas with
  | nil => rfl
  | cons vma areas ih =>
    rw [regionReclaimed, regionFreed, Option.elim_none, zero_add, regionStep, Option.bind_none, ih]

/-- Nothing is freed twice, and everything is freed of the regions that are complete. -/
theorem regionReclaimed_some (i : Fin 512) (areas : List Vma) (pd0 : Pd0) :
    regionReclaimed i areas (some pd0) ≤ pd0Frames pd0 ∧
      (regionReclaimed i areas (some pd0) = pd0Frames pd0 ↔ Complete pd0 areas i) := by
  -- induction on the areas, for what the ones before have left
  induction areas generalizing pd0 with
  | nil =>
    have hne := pd0Frames_ne_zero pd0
    rw [regionReclaimed]
    generalize pd0Frames pd0 = frames at hne
    exact ⟨Multiset.zero_le frames, iff_of_false hne.symm not_complete_nil⟩
  | cons vma areas ih =>
    have hsum := slotFrames_add_compl pd0 (vma.touched i)
    rw [regionReclaimed, regionStep, Option.bind_some, regionFreed, Option.elim_some]
    by_cases hfilled : Filled pd0 (vma.touched i)
    · have hcomplete : Complete pd0 (vma :: areas) i ↔ slotFrames pd0 (vma.touched i)ᶜ = 0 :=
        (complete_of_filled hfilled).trans slotFrames_compl_eq_zero.symm
      rw [if_pos hfilled, if_pos hfilled, regionReclaimed_none, add_zero, hcomplete, ← hsum,
        ← add_assoc, left_eq_add]
      generalize slotFrames pd0 (vma.touched i) = freed
      exact ⟨Multiset.le_add_right _ _, Iff.rfl⟩
    · have hcomplete : Complete pd0 (vma :: areas) i ↔ _ := complete_of_not_filled hfilled
      rcases ih (pd0.without (vma.touched i)) with ⟨hle, hiff⟩
      rw [pd0Frames_without] at hle hiff
      rw [if_neg hfilled, if_neg hfilled, add_zero, hcomplete, ← hsum, add_right_inj]
      generalize slotFrames pd0 (vma.touched i) = freed
      exact ⟨add_le_add_right hle _, hiff⟩

/-- The areas free the tables of all regions if and only if each region is complete. -/
theorem sum_regionReclaimed_eq_iff (pgdir : Pgdir) (areas : List Vma) :
    ∑ i, regionReclaimed i areas (pgdir.entry i) = pgdir.tables ↔
      ∀ i pd0, pgdir.entry i = some pd0 → Complete pd0 areas i := by
  have hle : ∀ i, regionReclaimed i areas (pgdir.entry i) ≤
      (pgdir.entry i).elim 0 pd0Frames := by
    intro i
    cases pgdir.entry i with
    | none => exact (regionReclaimed_none i areas).le
    | some pd0 => exact (regionReclaimed_some i areas pd0).1
  rw [Table.tables, Finset.sum_eq_sum_iff_of_le fun i _ ↦ hle i]
  refine forall_congr' fun i ↦ ?_
  rw [forall_prop_of_true (Finset.mem_univ i)]
  cases hpd0 : pgdir.entry i with
  | none => exact iff_of_true (regionReclaimed_none i areas) nofun
  | some pd0 =>
    refine (regionReclaimed_some i areas pd0).2.trans ⟨fun h other hother ↦ ?_, fun h ↦ h pd0 rfl⟩
    exact Option.some.inj hother ▸ h

/-- The condition is the same for two directories with the same tables. -/
theorem complete_of_skeleton {pgdir' : Pgdir} (hskeleton : pgdir'.skeleton = pgdir.skeleton)
    (h : ∀ i pd0, pgdir.entry i = some pd0 → Complete pd0 areas i) :
    ∀ i pd0, pgdir'.entry i = some pd0 → Complete pd0 areas i := by
  intro i pd0 hpd0
  have hsame := congrFun hskeleton i
  rw [Table.skeleton, Table.skeleton, hpd0, Option.map_some] at hsame
  rcases Option.map_eq_some_iff.mp hsame.symm with ⟨old, hold, heq⟩
  have hentry : ∀ j, (pd0.entry j).isSome = (old.entry j).isSome := by
    intro j
    have hj : (old.entry j).map Table.frame = (pd0.entry j).map Table.frame :=
      congrFun (congrArg Prod.snd heq) j
    rw [← Option.isSome_map (f := Table.frame), ← hj, Option.isSome_map]
  rcases h i old hold with ⟨before, vma, after, hareas, hfills, hfirst, hall⟩
  have hiff : ∀ before vma, Fills pd0 before vma i ↔ Fills old before vma i := by
    intro before vma
    refine and_congr_right fun _ ↦ forall₂_congr fun j _ ↦ ?_
    rw [hentry]
  refine ⟨before, vma, after, hareas, (hiff before vma).mpr hfills, ?_, ?_⟩
  · intro first other second hbefore hother
    exact hfirst first other second hbefore ((hiff first other).mp hother)
  · intro j hj
    rw [hentry] at hj
    exact hall j hj

end Exiting

end Ucore.Mm
