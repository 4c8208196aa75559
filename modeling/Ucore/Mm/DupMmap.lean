import Ucore.Mm.CopyRange
import Ucore.Mm.MmMap
import Ucore.Mm.TakeDown

/-!
# The address space of a child

`dup_mmap` of `kern/mm/vmm.c` and `copy_mm` of `kern/process/proc.c`. A child that does not share the
address space of its parent gets the same areas and a copy of each page, and nothing that one of
the two does afterwards changes what the other one reads.
-/

namespace Ucore.Mm

open Library

/-- `dup_mmap`, for the areas that are left, the last one first, given whether there is memory for
an area when so many are left. -/
def dupMmap (fuel : ℕ) (kmalloc : ℕ → Bool) (fromDir : Pgdir) :
    List Vma → Memory → MmStruct → Outcome (ℤ × Memory × MmStruct)
  | [], m, mm => .ok (0, m, mm)
  | vma :: areas, m, mm =>
    if kmalloc areas.length then do
      let mm ← mm.insertVmaStruct ⟨vma.vmStart, vma.vmEnd, vma.vmFlags⟩
      let (ret, m, pgdir) ← copyRange fuel m mm.pgdir fromDir vma.vmStart vma.vmEnd
      let mm := { mm with pgdir }
      if ret ≠ 0 then return (-E_NO_MEM, m, mm)
      else dupMmap fuel kmalloc fromDir areas m mm
    else .ok (-E_NO_MEM, m, mm)

/-- The address space of a new process: that of a kernel thread, that of its parent, or its own. -/
inductive ProcMm where
  | none
  | shared
  | own (mm : MmStruct)

/-- `copy_mm`, given the address space of `current`, whether `CLONE_VM` is set, and whether there is
memory for a `mm_struct` and for the areas. -/
def copyMm (fuel : ℕ) (cloneVm : Bool) (kmallocMm : Bool) (kmalloc : ℕ → Bool) (m : Memory)
    (oldmm : Option MmStruct) : Outcome (ℤ × Memory × ProcMm) :=
  match oldmm with
  | none => .ok (0, m, .none)
  | some oldmm =>
    if cloneVm then .ok (0, m, .shared)
    else if kmallocMm then
      match setupPgdir m with
      | (none, m) => .ok (-E_NO_MEM, m, .none)
      | (some pgdir, m) => do
        let (ret, m, mm) ← dupMmap fuel kmalloc oldmm.pgdir oldmm.mmapList.reverse m
          (mmCreate m.swapInitOk pgdir)
        if ret ≠ 0 then do
          let m ← takeDown fuel m mm
          return (ret, m, .none)
        else return (0, m, .own mm)
    else .ok (-E_NO_MEM, m, .none)

section Copy

-- the sums over all entries are not to be evaluated
attribute [local irreducible] Table.pages Table.tables

variable {first m m' : Memory} {held others : Multiset Frame} {fromDir : Pgdir}
  {mm mm' parent child : MmStruct} {vma : Vma} {areas : List Vma} {addr : ℕ}

/-! ## The areas -/

/-- An area before all others gets the first place in the list. -/
theorem insertVmaStruct_first (h : mm.WellFormed) (hvma : vma.Whole)
    (hbefore : ∀ other ∈ mm.mmapList, vma.vmEnd ≤ other.vmStart) :
    mm.insertVmaStruct vma =
      .ok { mm with mmapList := vma :: mm.mmapList, mapCount := mm.mapCount + 1 } := by
  have hplace : mm.place vma = ([], mm.mmapList) := by
    rw [MmStruct.place, List.span_eq_takeWhile_dropWhile]
    cases hlist : mm.mmapList with
    | nil => rfl
    | cons other rest =>
      have hlater : ¬other.vmStart ≤ vma.vmStart := by
        have hend := hbefore other (hlist ▸ List.mem_cons_self)
        exact not_le.mpr (hvma.access.2.1.trans_le hend)
      rw [List.takeWhile_cons_of_neg (by simpa using hlater),
        List.dropWhile_cons_of_neg (by simpa using hlater)]
  have hapart : ∀ other ∈ mm.mmapList, ¬other.Overlaps vma.vmStart vma.vmEnd :=
    fun other hother hoverlaps ↦ absurd hoverlaps.1 (not_lt.mpr (hbefore other hother))
  have hinsert := (insertVmaStruct_eq h hvma hapart).1
  rw [hplace] at hinsert
  exact hinsert

theorem MmStruct.WellFormed.cons (h : mm.WellFormed) (hvma : vma.Whole)
    (hbefore : ∀ other ∈ mm.mmapList, vma.vmEnd ≤ other.vmStart) (pgdir : Pgdir) :
    MmStruct.WellFormed { mm with
      mmapList := vma :: mm.mmapList, mapCount := mm.mapCount + 1, pgdir } where
  whole := List.forall_mem_cons.mpr ⟨hvma, h.whole⟩
  sorted := List.pairwise_cons.mpr ⟨hbefore, h.sorted⟩
  cached := fun other hother ↦ List.mem_cons_of_mem _ (h.cached other hother)

/-- The addresses in the areas of an address space. -/
def MmStruct.InAreas (mm : MmStruct) (la : ℕ) : Prop := ∃ vma ∈ mm.mmapList, vma.Contains la

/-- `dup_mmap` with the areas that are left, which all lie before those of the child. -/
theorem dupMmap_returns
    (hfirst : ∀ la, Present (fromDir.pte la) → pte2page (fromDir.pte la) ∉ first.free)
    (henough : fromDir.frames.card ≤ first.free.length)
    (h : Copying first held fromDir mm.InAreas m mm.pgdir) (hmm : mm.WellFormed)
    (hwhole : ∀ vma ∈ areas, vma.Whole)
    (hsorted : areas.Pairwise fun later earlier ↦ earlier.vmEnd ≤ later.vmStart)
    (hbefore : ∀ vma ∈ areas, ∀ other ∈ mm.mmapList, vma.vmEnd ≤ other.vmStart) :
    ∃ m' mm', Returns (fun fuel ↦ dupMmap fuel (fun _ ↦ true) fromDir areas m mm) (0, m', mm') ∧
      mm'.mmapList = areas.reverse ++ mm.mmapList ∧ mm'.mapCount = mm.mapCount + areas.length ∧
      Copying first held fromDir mm'.InAreas m' mm'.pgdir := by
  induction areas generalizing m mm with
  | nil => exact ⟨m, mm, .of_eq fun _ ↦ rfl, rfl, rfl, h⟩
  | cons vma areas ih =>
    rw [List.forall_mem_cons] at hwhole hbefore
    rcases List.pairwise_cons.mp hsorted with ⟨hlater, hrest⟩
    have hinsert := insertVmaStruct_first hmm hwhole.1 hbefore.1
    have hnew : ∀ la, vma.vmStart ≤ la → la < vma.vmEnd → ¬mm.InAreas la := by
      rintro la - hlt ⟨other, hother, hcontains⟩
      exact absurd (hlt.trans_le (hbefore.1 other hother)) (not_lt.mpr hcontains.1)
    rcases h.copyRange hfirst henough hwhole.1.access hwhole.1.start hwhole.1.stop hnew
      with ⟨after, pgdir, hcopy, hcopied⟩
    -- the child with the area and its pages
    obtain ⟨next, hnext⟩ : ∃ next : MmStruct, next = { mm with
        mmapList := vma :: mm.mmapList, mapCount := mm.mapCount + 1, pgdir } := ⟨_, rfl⟩
    have hcopying : Copying first held fromDir next.InAreas after next.pgdir := by
      rw [hnext]
      refine hcopied.congr fun la _ _ ↦ ?_
      unfold MmStruct.InAreas
      rw [List.exists_mem_cons_iff]
      exact or_comm
    have hformed : next.WellFormed := hnext ▸ hmm.cons hwhole.1 hbefore.1 pgdir
    have hahead : ∀ other ∈ areas, ∀ last ∈ next.mmapList, other.vmEnd ≤ last.vmStart := by
      intro other hother last hlast
      rw [hnext] at hlast
      rcases List.mem_cons.mp hlast with rfl | hlast
      · exact hlater other hother
      · exact hbefore.2 other hother last hlast
    rcases ih hcopying hformed hwhole.2 hrest hahead
      with ⟨m', mm', hreturns, hlist, hcount, hlast⟩
    refine ⟨m', mm', ?_, ?_, ?_, hlast⟩
    · have hboth : Returns (fun fuel ↦ copyRange fuel m mm.pgdir fromDir vma.vmStart vma.vmEnd >>=
          fun result ↦ if result.1 ≠ 0 then
            .ok (-E_NO_MEM, result.2.1, ({ mm with
              mmapList := vma :: mm.mmapList, mapCount := mm.mapCount + 1,
              pgdir := result.2.2 } : MmStruct))
          else dupMmap fuel (fun _ ↦ true) fromDir areas result.2.1 { mm with
            mmapList := vma :: mm.mmapList, mapCount := mm.mapCount + 1,
            pgdir := result.2.2 }) (0, m', mm') := by
        refine hcopy.bind ?_
        dsimp only
        rw [← hnext]
        exact .congr (fun fuel ↦ if_neg (not_not.mpr rfl)) hreturns
      refine .congr (fun fuel ↦ ?_) hboth
      rw [dupMmap, if_pos rfl, hinsert, Outcome.ok_bind]
      rfl
    · rw [hlist, hnext, List.reverse_cons, List.append_assoc, List.singleton_append]
    · rw [hcount, hnext, List.length_cons]
      exact Nat.add_right_comm ..

/-! ## The child -/

/-- What the child gets, and that the parent keeps what it has. The frames of the child's pages were
free, and each is mapped once. -/
structure Duplicated (m : Memory) (parent : MmStruct) (m' : Memory) (child : MmStruct) : Prop where
  areas : child.mmapList = parent.mmapList
  count : child.mapCount = parent.mmapList.length
  present : ∀ la < USERTOP, Present (child.pgdir.pte la) ↔ Present (parent.pgdir.pte la)
  fresh : ∀ la < USERTOP, Present (child.pgdir.pte la) → pte2page (child.pgdir.pte la) ∈ m.free
  alone : ∀ la < USERTOP, Present (child.pgdir.pte la) →
    OwnPage child.pgdir la (pte2page (child.pgdir.pte la))
  rights : ∀ la < USERTOP, Present (child.pgdir.pte la) →
    child.pgdir.pte la &&& PTE_USER = parent.pgdir.pte la &&& PTE_USER
  content : ∀ la < USERTOP, userByte m' child.pgdir la = userByte m parent.pgdir la
  kept : ∀ la, userByte m' parent.pgdir la = userByte m parent.pgdir la

/-- The frames of an address space are not free. -/
theorem not_free_of_present {pgdir : Pgdir} (h : Accounts m (others + pgdir.frames))
    (hpresent : Present (pgdir.pte addr)) : pte2page (pgdir.pte addr) ∉ m.free :=
  fun hfree ↦ h.unused _ hfree (Multiset.mem_add.mpr (Or.inr (mem_frames_of_present hpresent)))

/-- Nothing has been copied to a new root. -/
theorem copying_first {frame : Frame} (h : Accounts m held) :
    Copying m held fromDir (fun _ ↦ False) m (Table.clear frame none) where
  accounts := by
    rw [frames_clear, add_zero]
    exact h
  total := by
    rw [frames_clear]
    rfl
  free := fun _ hframe ↦ hframe
  bytes := fun _ _ ↦ rfl
  tables := by
    refine ⟨fun i hi ↦ ?_, fun i j hij ↦ ?_⟩
    · cases hi
    · cases hij
  pages := fun la hpresent ↦ absurd hpresent (not_present_clear frame la)
  fresh := fun page hpage ↦ by
    rw [frames_clear] at hpage
    exact absurd hpage (Multiset.notMem_zero page)
  rest := fun la _ hpresent ↦ not_present_clear frame la hpresent
  copied := fun _ _ hnone ↦ hnone.elim

theorem Copying.duplicated (h : Copying first held parent.pgdir child.InAreas m' child.pgdir)
    (hlist : child.mmapList = parent.mmapList)
    (hcount : child.mapCount = parent.mmapList.length) (hbytes : first.bytes = m.bytes)
    (hsub : ∀ frame ∈ first.free, frame ∈ m.free)
    (hfirst : ∀ la, Present (parent.pgdir.pte la) → pte2page (parent.pgdir.pte la) ∉ first.free)
    (hinside : ∀ la < USERTOP, Present (parent.pgdir.pte la) → parent.InAreas la) :
    Duplicated m parent m' child := by
  have hcopied : ∀ la < USERTOP, Present (parent.pgdir.pte la) →
      CopiedPage first m' parent.pgdir child.pgdir la := by
    intro la hla hpresent
    refine h.copied la hla ?_ hpresent
    rcases hinside la hla hpresent with ⟨vma, hvma, hcontains⟩
    exact ⟨vma, hlist ▸ hvma, hcontains⟩
  refine ⟨hlist, hcount, fun la hla ↦ ?_, fun la _ hpresent ↦ ?_, fun la hla hpresent ↦ ?_,
    fun la hla hpresent ↦ ?_, fun la hla ↦ ?_, fun la ↦ ?_⟩
  · exact ⟨h.pages la, fun hpresent ↦ (hcopied la hla hpresent).own.present⟩
  · exact hsub _ (h.fresh _ (mem_frames_of_present hpresent))
  · exact (hcopied la hla (h.pages la hpresent)).own
  · exact (hcopied la hla (h.pages la hpresent)).rights
  · by_cases hpresent : Present (parent.pgdir.pte la)
    · have hpage := hcopied la hla hpresent
      rw [userByte, userByte, if_pos hpage.own.present, if_pos hpresent,
        hpage.bytes _ (Nat.mod_lt _ (by decide)), hbytes]
    · have hnot : ¬Present (child.pgdir.pte la) := fun hin ↦ hpresent (h.pages la hin)
      rw [userByte, userByte, if_neg hnot, if_neg hpresent]
  · by_cases hpresent : Present (parent.pgdir.pte la)
    · rw [userByte, userByte, h.bytes _ (hfirst la hpresent), hbytes]
    · rw [userByte, userByte, if_neg hpresent, if_neg hpresent]

/-! ## Afterwards -/

/-- Who acts after the fork. -/
inductive Side where
  | parent
  | child
  deriving DecidableEq

def Side.other : Side → Side
  | .parent => .child
  | .child => .parent

/-- All frames, the directories of the two processes, and the frames that other directories hold. -/
structure Pair where
  memory : Memory
  pgdir : Side → Pgdir
  others : Multiset Frame

/-- One of the two has acted on its own directory. -/
def Pair.put (s : Pair) (side : Side) (memory : Memory) (pgdir : Pgdir) : Pair :=
  { s with memory, pgdir := Function.update s.pgdir side pgdir }

/-- What may happen: a process writes to a page that it has, gets a new page, or gives back a range
of pages. Or something happens elsewhere, which leaves the frames of the two alone. -/
inductive PairStep : Pair → Option Side → Pair → Prop
  | store {s : Pair} {side : Side} {addr off size : ℕ} {bytes : ℕ → UInt8} {memory : Memory}
    (hpresent : Present ((s.pgdir side).pte addr))
    (h : s.memory.store (pte2page ((s.pgdir side).pte addr)) off size bytes = .ok memory) :
    PairStep s (some side) { s with memory }
  | fault {s : Pair} {side : Side} {la perm : ℕ} {found : Option Frame} {memory : Memory}
    {pgdir : Pgdir} (hperm : perm < 2 ^ 10)
    (h : pgdirAllocPage s.memory (s.pgdir side) la perm = .ok (found, memory, pgdir)) :
    PairStep s (some side) (s.put side memory pgdir)
  | unmap {s : Pair} {side : Side} {fuel start stop : ℕ} {memory : Memory} {pgdir : Pgdir}
    (h : unmapRange fuel s.memory (s.pgdir side) start stop = .ok (memory, pgdir)) :
    PairStep s (some side) (s.put side memory pgdir)
  | elsewhere {s : Pair} {memory : Memory} {others : Multiset Frame}
    (haccounts : Accounts memory (others + (s.pgdir .parent).frames + (s.pgdir .child).frames))
    (hbytes : ∀ side, ∀ frame ∈ (s.pgdir side).frames, memory.bytes frame = s.memory.bytes frame) :
    PairStep s none { s with memory, others }

/-- The two hold different frames. -/
structure Isolated (s : Pair) : Prop where
  accounts : Accounts s.memory (s.others + (s.pgdir .parent).frames + (s.pgdir .child).frames)
  apart : ∀ frame ∈ (s.pgdir .parent).frames, frame ∉ (s.pgdir .child).frames

/-- A process has acted on its own pages: its new frames were free, and it has written to its own
frames only. -/
structure Acted (m m' : Memory) (ctx : Multiset Frame) (pgdir pgdir' : Pgdir) : Prop where
  accounts : Accounts m' (ctx + pgdir'.frames)
  frames : ∀ frame ∈ pgdir'.frames, frame ∈ pgdir.frames ∨ frame ∈ m.free
  bytes : ∀ frame, frame ∉ pgdir.frames → m'.bytes frame = m.bytes frame

theorem pgdirAllocPage_bytes {pgdir pgdir' : Pgdir} {la perm : ℕ} {found : Option Frame}
    (h : pgdirAllocPage m pgdir la perm = .ok (found, m', pgdir')) : m'.bytes = m.bytes := by
  rw [pgdirAllocPage, Memory.allocPage] at h
  cases hfree : m.free with
  | nil =>
    rw [hfree] at h
    cases h
    rfl
  | cons page rest =>
    rw [hfree] at h
    dsimp only at h
    have hsame := (pageInsert_same { m with free := rest } pgdir page la perm).1
    rcases hinsert : pageInsert { m with free := rest } pgdir page la perm with ⟨mapped, after, dir⟩
    rw [hinsert] at h hsame
    cases mapped with
    | false =>
      cases h
      exact hsame
    | true =>
      dsimp only at h
      rcases Outcome.bind_eq_ok.mp h with ⟨last, hqueue, h⟩
      cases h
      refine Eq.trans ?_ hsame
      unfold Memory.checkSwappable at hqueue
      split at hqueue
      · split at hqueue
        · rcases Outcome.bind_eq_ok.mp hqueue with ⟨queued, hswap, hqueue⟩
          rcases Outcome.bind_eq_ok.mp hswap with ⟨_, -, hswap⟩
          rcases Outcome.bind_eq_ok.mp hqueue with ⟨_, -, hqueue⟩
          cases hswap
          cases hqueue
          rfl
        · cases hqueue
          rfl
      · cases hqueue
        rfl

theorem pageRemovePte_bytes (m : Memory) (pgdir : Pgdir) (la pte : ℕ) :
    (pageRemovePte m pgdir la pte).1.bytes = m.bytes := by
  unfold pageRemovePte Memory.drop
  split
  · dsimp only
    split <;> rfl
  · rfl

theorem unmapLoop_bytes {fuel start stop : ℕ} {pgdir pgdir' : Pgdir}
    (h : unmapLoop fuel m pgdir start stop = .ok (m', pgdir')) : m'.bytes = m.bytes := by
  induction fuel generalizing m pgdir start with
  | zero => cases h
  | succ fuel ih =>
    have hround : ∀ {after : Memory} {dir : Pgdir} {next : ℕ}, after.bytes = m.bytes →
        (if next ≠ 0 ∧ next < stop then unmapLoop fuel after dir next stop else .ok (after, dir)) =
          .ok (m', pgdir') → m'.bytes = m.bytes := by
      intro after dir next hsame hrest
      split at hrest
      · exact (ih hrest).trans hsame
      · cases hrest
        exact hsame
    rw [unmapLoop] at h
    cases hpte : pgdir.getPte start with
    | none =>
      rw [hpte] at h
      exact hround rfl h
    | some value =>
      rw [hpte] at h
      dsimp only at h
      by_cases hzero : value = 0
      · rw [if_neg (not_not.mpr hzero)] at h
        exact hround rfl h
      · rw [if_pos hzero] at h
        exact hround (pageRemovePte_bytes m pgdir start value) h

theorem acted_store {pgdir : Pgdir} {off size : ℕ} {bytes : ℕ → UInt8}
    (h : Accounts m (held + pgdir.frames)) (hpresent : Present (pgdir.pte addr))
    (hstore : m.store (pte2page (pgdir.pte addr)) off size bytes = .ok m') :
    Acted m m' held pgdir pgdir := by
  rcases Outcome.bind_eq_ok.mp hstore with ⟨_, -, hstore⟩
  cases hstore
  refine ⟨h.of_eq rfl rfl, fun _ ↦ Or.inl, fun frame hframe ↦ Function.update_of_ne ?_ ..⟩
  exact fun heq ↦ hframe (heq ▸ mem_frames_of_present hpresent)

theorem acted_fault {pgdir pgdir' : Pgdir} {la perm : ℕ} {found : Option Frame}
    (h : Accounts m (held + pgdir.frames)) (hperm : perm < 2 ^ 10)
    (hcall : pgdirAllocPage m pgdir la perm = .ok (found, m', pgdir')) :
    Acted m m' held pgdir pgdir' := by
  have hallocated := pgdirAllocPage_ok hcall
  rcases reaches_pgdirAllocPage hperm hallocated with ⟨new, hnew, hreaches⟩
  refine ⟨(exact_pgdirAllocPage h hperm hallocated).accounts, fun frame hframe ↦ ?_,
    fun frame _ ↦ congrFun (pgdirAllocPage_bytes hcall) frame⟩
  rcases Multiset.mem_add.mp (Multiset.mem_of_le hreaches.frames hframe) with hold | hin
  · exact Or.inl hold
  · exact Or.inr (hnew.subset (Multiset.mem_coe.mp hin))

theorem acted_unmap {pgdir pgdir' : Pgdir} {fuel start stop : ℕ}
    (h : Accounts m (held + pgdir.frames))
    (hcall : unmapRange fuel m pgdir start stop = .ok (m', pgdir')) :
    Acted m m' held pgdir pgdir' := by
  rcases Outcome.bind_eq_ok.mp hcall with ⟨_, -, hcall⟩
  rcases Outcome.bind_eq_ok.mp hcall with ⟨_, -, hcall⟩
  have hdropped := dropped_unmapLoop h hcall
  refine ⟨hdropped.accounts, fun frame hframe ↦ Or.inl ?_,
    fun frame _ ↦ congrFun (unmapLoop_bytes hcall) frame⟩
  exact Multiset.mem_of_le (le_of_add_le_add_left hdropped.le) hframe

variable {s next : Pair} {side : Side} {label : Option Side}

/-- The frames of one of the two apart from all others. -/
theorem Isolated.accountsOf (h : Isolated s) (side : Side) :
    Accounts s.memory (s.others + (s.pgdir side.other).frames + (s.pgdir side).frames) ∧
      ∀ frame ∈ (s.pgdir side).frames, frame ∉ (s.pgdir side.other).frames := by
  cases side with
  | child => exact ⟨h.accounts, fun frame hin hout ↦ h.apart frame hout hin⟩
  | parent =>
    refine ⟨?_, h.apart⟩
    have haccounts := h.accounts
    rw [add_right_comm] at haccounts
    exact haccounts

theorem isolated_of_side (side : Side)
    (haccounts : Accounts s.memory
      (s.others + (s.pgdir side.other).frames + (s.pgdir side).frames))
    (hapart : ∀ frame ∈ (s.pgdir side).frames, frame ∉ (s.pgdir side.other).frames) :
    Isolated s := by
  cases side with
  | child => exact ⟨haccounts, fun frame hin hout ↦ hapart frame hout hin⟩
  | parent =>
    refine ⟨?_, hapart⟩
    rw [add_right_comm]
    exact haccounts

/-- What one of the two does with its own pages keeps them apart, and the other one reads what it
has read before. -/
theorem Isolated.acted (h : Isolated s) {memory : Memory} {pgdir : Pgdir}
    (hacted : Acted s.memory memory (s.others + (s.pgdir side.other).frames) (s.pgdir side) pgdir) :
    Isolated (s.put side memory pgdir) ∧
      ∀ addr, userByte memory (s.pgdir side.other) addr =
        userByte s.memory (s.pgdir side.other) addr := by
  have hne : side.other ≠ side := by cases side <;> decide
  have hothers : (s.put side memory pgdir).pgdir side.other = s.pgdir side.other :=
    Function.update_of_ne hne ..
  have hself : (s.put side memory pgdir).pgdir side = pgdir := Function.update_self ..
  rcases h.accountsOf side with ⟨haccounts, hapart⟩
  constructor
  · refine isolated_of_side side ?_ ?_
    · rw [hothers, hself]
      exact hacted.accounts
    · rw [hothers, hself]
      intro frame hframe hin
      rcases hacted.frames frame hframe with hold | hfree
      · exact hapart frame hold hin
      · refine haccounts.unused frame hfree (Multiset.mem_add.mpr (Or.inl ?_))
        exact Multiset.mem_add.mpr (Or.inr hin)
  · intro addr
    by_cases hpresent : Present ((s.pgdir side.other).pte addr)
    · have hpage : pte2page ((s.pgdir side.other).pte addr) ∉ (s.pgdir side).frames :=
        fun hin ↦ hapart _ hin (mem_frames_of_present hpresent)
      rw [userByte, userByte, hacted.bytes _ hpage]
    · rw [userByte, userByte, if_neg hpresent, if_neg hpresent]

/-- A step keeps the two apart, and changes what a process reads only if it is its own. -/
theorem Isolated.step (h : Isolated s) (hstep : PairStep s label next) :
    Isolated next ∧ ∀ side, label ≠ some side → ∀ addr,
      userByte next.memory (next.pgdir side) addr = userByte s.memory (s.pgdir side) addr := by
  -- the reader is the other one
  have hother : ∀ actor reader : Side, some actor ≠ some reader → reader = actor.other := by
    intro actor reader hne
    cases actor <;> cases reader <;> first | rfl | exact absurd rfl hne
  have hput : ∀ {actor : Side} {memory : Memory} {pgdir : Pgdir},
      Acted s.memory memory (s.others + (s.pgdir actor.other).frames) (s.pgdir actor) pgdir →
      Isolated (s.put actor memory pgdir) ∧ ∀ side, some actor ≠ some side → ∀ addr,
        userByte memory ((s.put actor memory pgdir).pgdir side) addr =
          userByte s.memory (s.pgdir side) addr := by
    intro actor memory pgdir hacted
    rcases h.acted hacted with ⟨hisolated, hreads⟩
    refine ⟨hisolated, fun reader hne addr ↦ ?_⟩
    have hsame : (s.put actor memory pgdir).pgdir reader = s.pgdir reader :=
      Function.update_of_ne (fun heq ↦ hne (congrArg some heq.symm)) ..
    rw [hsame, hother actor reader hne]
    exact hreads addr
  cases hstep with
  | @store actor addr off size bytes memory hpresent hstore =>
    have hboth := hput (acted_store (h.accountsOf actor).1 hpresent hstore)
    have hsame : s.put actor memory (s.pgdir actor) = { s with memory } := by
      rw [Pair.put, Function.update_eq_self]
    rw [hsame] at hboth
    exact hboth
  | fault hperm hcall => exact hput (acted_fault (h.accountsOf _).1 hperm hcall)
  | unmap hcall => exact hput (acted_unmap (h.accountsOf _).1 hcall)
  | elsewhere haccounts hbytes =>
    refine ⟨⟨haccounts, h.apart⟩, fun side _ addr ↦ ?_⟩
    by_cases hpresent : Present ((s.pgdir side).pte addr)
    · rw [userByte, userByte]
      dsimp only
      rw [hbytes side _ (mem_frames_of_present hpresent)]
    · rw [userByte, userByte]
      dsimp only
      rw [if_neg hpresent, if_neg hpresent]

/-- The two processes after the fork. -/
def forked (m : Memory) (parent child : Pgdir) (others : Multiset Frame) : Pair :=
  ⟨m, fun side ↦ match side with
    | .parent => parent
    | .child => child, others⟩

/-- In whatever order the two go on, no step of one changes what the other one reads. -/
def StaysIsolated (start : Pair) : Prop :=
  ∀ s label next, Reachable (fun s ↦ s = start) (fun s next ↦ ∃ label, PairStep s label next) s →
    PairStep s label next → ∀ side, label ≠ some side → ∀ addr,
      userByte next.memory (next.pgdir side) addr = userByte s.memory (s.pgdir side) addr

theorem Isolated.stays (h : Isolated s) : StaysIsolated s := by
  intro state label next hreachable hstep
  have hisolated : Isolated state := by
    refine hreachable.invariant ?_ ?_
    · rintro state rfl
      exact h
    · rintro state next hstate ⟨label, hnext⟩
      exact (hstate.step hnext).1
  exact (hisolated.step hstep).2

/-- With as many free frames as the parent holds and one for the root, `copy_mm` gives the child a
copy, and the two stay isolated. -/
theorem copyMm_copies (m : Memory) (others : Multiset Frame) (parent : MmStruct)
    (hparent : parent.WellFormed) (haccounts : Accounts m (others + parent.pgdir.frames))
    (hinside : ∀ la < USERTOP, Present (parent.pgdir.pte la) → parent.InAreas la)
    (hfree : parent.pgdir.frames.card < m.free.length) :
    ∃ m' child, Returns (fun fuel ↦ copyMm fuel false true (fun _ ↦ true) m (some parent))
        (0, m', .own child) ∧ Duplicated m parent m' child ∧
      StaysIsolated (forked m' parent.pgdir child.pgdir others) := by
  rcases hlist : m.free with _ | ⟨frame, rest⟩
  · rw [hlist] at hfree
    exact absurd hfree (Nat.not_lt_zero _)
  · rcases haccounts.allocPage hlist with ⟨hfirst, hframe, hheld⟩
    have hsetup : setupPgdir m = (some (Table.clear frame none), { m with free := rest }) := by
      rw [setupPgdir, Memory.allocPage, hlist]
    obtain ⟨first, hfirstEq⟩ : ∃ first : Memory, first = { m with free := rest } := ⟨_, rfl⟩
    rw [← hfirstEq] at hfirst hsetup
    have hrest : first.free = rest := by rw [hfirstEq]
    have hsource : ∀ la, Present (parent.pgdir.pte la) →
        pte2page (parent.pgdir.pte la) ∉ first.free :=
      fun la hpresent ↦ not_free_of_present hfirst hpresent
    have henough : parent.pgdir.frames.card ≤ first.free.length := by
      rw [hlist, List.length_cons] at hfree
      rw [hrest]
      exact Nat.le_of_lt_succ hfree
    obtain ⟨start, hstart⟩ : ∃ start, start = mmCreate first.swapInitOk (Table.clear frame none) :=
      ⟨_, rfl⟩
    have hcopying : Copying first (others + parent.pgdir.frames) parent.pgdir start.InAreas first
        start.pgdir := by
      rw [hstart]
      refine (copying_first hfirst).congr fun la _ _ ↦ iff_of_false id ?_
      rintro ⟨vma, hvma, -⟩
      cases hvma
    have hformed : start.WellFormed := by
      rw [hstart]
      exact ⟨fun vma hvma ↦ (List.not_mem_nil hvma).elim, List.Pairwise.nil,
        fun vma hvma ↦ by cases hvma⟩
    have hwhole : ∀ vma ∈ parent.mmapList.reverse, vma.Whole :=
      fun vma hvma ↦ hparent.whole vma (List.mem_reverse.mp hvma)
    have hbefore : ∀ vma ∈ parent.mmapList.reverse, ∀ other ∈ start.mmapList,
        vma.vmEnd ≤ other.vmStart := by
      intro vma _ other hother
      rw [hstart] at hother
      cases hother
    rcases dupMmap_returns hsource henough hcopying hformed hwhole
      (List.pairwise_reverse.mpr hparent.sorted) hbefore
      with ⟨m', child, hreturns, hareas, hcount, hcopied⟩
    have hchild : child.mmapList = parent.mmapList := by
      rw [hareas, List.reverse_reverse, hstart]
      exact List.append_nil _
    have hnumber : child.mapCount = parent.mmapList.length := by
      rw [hcount, List.length_reverse, hstart]
      exact Nat.zero_add _
    refine ⟨m', child, ?_, hcopied.duplicated hchild hnumber ?_ ?_ hsource hinside, ?_⟩
    · have hboth : Returns (fun fuel ↦
          dupMmap fuel (fun _ ↦ true) parent.pgdir parent.mmapList.reverse first start >>=
            fun result ↦ if result.1 ≠ 0 then
              takeDown fuel result.2.1 result.2.2 >>= fun m ↦ .ok (result.1, m, ProcMm.none)
            else .ok (0, result.2.1, .own result.2.2)) (0, m', .own child) :=
        hreturns.bind (.of_eq fun _ ↦ if_neg (not_not.mpr rfl))
      refine .congr (fun fuel ↦ ?_) hboth
      rw [copyMm]
      dsimp only
      rw [if_neg Bool.false_ne_true, if_pos rfl, hsetup, hstart]
      rfl
    · rw [hfirstEq]
    · intro other hother
      rw [hrest] at hother
      rw [hlist]
      exact List.mem_cons_of_mem _ hother
    · refine Isolated.stays ⟨hcopied.accounts, fun page hpage hin ↦ ?_⟩
      have hnew := hcopied.fresh page hin
      exact hfirst.unused page hnew (Multiset.mem_add.mpr (Or.inr hpage))

/-! ## A parent with one page -/

/-- A table with one page, in the first frame, at its first entry. -/
def onePagePt : PageTable := (Table.clear 2 0).set (PTX USERBASE) (pteCreate 0 (PTE_U ||| PTE_R))

def onePagePd0 : Pd0 := (Table.clear 1 none).set (PDX0 USERBASE) (some onePagePt)

/-- A parent whose area has two pages, of which the first one is present. -/
def onePageParent : MmStruct :=
  ⟨[⟨USERBASE, USERBASE + 2 * PGSIZE, VM_READ⟩], none,
    (Table.clear 3 none).set (PDX1 USERBASE) (some onePagePd0), 1, false⟩

def eightFrames : Memory where
  free := [4, 5, 6, 7]
  ref := fun frame ↦ Multiset.count frame {0, 1, 2}
  bytes := fun frame _ ↦ UInt8.ofNat frame
  swapInitOk := false
  queue := []
  praVaddr := fun _ ↦ 0
  checkMm := none

/-- The frames of a directory with one more table. -/
theorem frames_attach {pgdir : Pgdir} {i j : Fin 512} (hi : pgdir.entry i = none) (root table : Frame)
    (pt : PageTable) : (pgdir.set i (some ((Table.clear root none).set j (some pt)))).frames =
      pgdir.frames + (ptPages pt + ({root} + {pt.frame})) := by
  have hclear : (Table.clear root none : Pd0).entry j = none := rfl
  have hpages := pages_set pgdir i (some ((Table.clear root none).set j (some pt)))
  have htables := tables_set pgdir i (some ((Table.clear root none).set j (some pt)))
  have hpd0 := pd0Pages_set (Table.clear root none) j (some pt)
  have hframes := pd0Frames_set (Table.clear root none) j (some pt)
  rw [hi, Option.elim_none, add_zero, Option.elim_some] at hpages htables
  rw [hclear, Option.elim_none, add_zero, Option.elim_some] at hpd0 hframes
  rw [pd0Pages_clear, zero_add] at hpd0
  rw [pd0Frames_clear] at hframes
  rw [Table.frames, Table.frames, hpages, htables, hpd0, hframes, add_add_add_comm]
  rfl

theorem ptPages_onePagePt : ptPages onePagePt = {0} := by
  have hvalue : pageOf (pteCreate 0 (PTE_U ||| PTE_R)) = {0} := by decide
  have hold : pageOf ((Table.clear 2 0 : PageTable).entry (PTX USERBASE)) = 0 := pageOf_zero
  have hset := ptPages_set (Table.clear 2 0) (PTX USERBASE) (pteCreate 0 (PTE_U ||| PTE_R))
  rw [hold, hvalue, ptPages_clear, add_zero, zero_add] at hset
  exact hset

theorem frames_onePageParent : onePageParent.pgdir.frames = {0, 1, 2} := by
  have hframes : onePageParent.pgdir.frames = _ := frames_attach rfl 1 2 onePagePt
  rw [hframes, frames_clear, ptPages_onePagePt]
  rfl

theorem inAreas_onePageParent (hpresent : Present (onePageParent.pgdir.pte addr))
    (haddr : addr < USERTOP) : onePageParent.InAreas addr := by
  have hregion : ∀ i, i ≠ PDX1 USERBASE → onePageParent.pgdir.entry i = none :=
    fun i hi ↦ set_of_ne (Table.clear 3 none : Pgdir) (some onePagePd0) hi
  have hslot : ∀ j, j ≠ PDX0 USERBASE → onePagePd0.entry j = none :=
    fun j hj ↦ set_of_ne (Table.clear 1 none : Pd0) (some onePagePt) hj
  have hentry : ∀ k, k ≠ PTX USERBASE → onePagePt.entry k = 0 :=
    fun k hk ↦ set_of_ne (Table.clear 2 0) (pteCreate 0 (PTE_U ||| PTE_R)) hk
  have hzero : onePageParent.pgdir.entry (PDX1 USERBASE) = some onePagePd0 :=
    set_self (Table.clear 3 none : Pgdir) _ (some onePagePd0)
  have hone : onePagePd0.entry (PDX0 USERBASE) = some onePagePt :=
    set_self (Table.clear 1 none : Pd0) _ (some onePagePt)
  by_cases hi : PDX1 addr = PDX1 USERBASE
  · by_cases hj : PDX0 addr = PDX0 USERBASE
    · by_cases hk : PTX addr = PTX USERBASE
      · -- the three indices are those of the first page of the area
        have hi' := congrArg Fin.val hi
        have hj' := congrArg Fin.val hj
        have hk' := congrArg Fin.val hk
        rw [PDX1_val, PDX1_val] at hi'
        rw [PDX0_val, PDX0_val] at hj'
        rw [PTX_val, PTX_val] at hk'
        refine ⟨_, List.mem_singleton_self _, ?_⟩
        unfold Vma.Contains
        dsimp only
        unfold USERTOP at haddr
        unfold USERBASE at *
        unfold PGSIZE
        omega
      · rw [Table.pte, getPte_eq (hi ▸ hzero) (hj ▸ hone), Option.getD_some, hentry _ hk] at hpresent
        exact absurd hpresent not_present_zero
    · rw [Table.pte, getPte_of_pt (hi ▸ hzero) (hslot _ hj)] at hpresent
      exact absurd hpresent not_present_zero
  · rw [Table.pte, getPte_of_pd0 (hregion _ hi)] at hpresent
    exact absurd hpresent not_present_zero

/-- The page of the parent is copied. -/
theorem copyMm_copies_onePage : ∃ (m' : Memory) (child : MmStruct),
    Returns (fun fuel ↦ copyMm fuel false true (fun _ ↦ true) eightFrames (some onePageParent))
        (0, m', .own child) ∧ Duplicated eightFrames onePageParent m' child ∧
      StaysIsolated (forked m' onePageParent.pgdir child.pgdir 0) := by
  refine copyMm_copies eightFrames 0 onePageParent ?_ ?_ ?_ ?_
  · refine ⟨?_, List.pairwise_singleton .., fun vma hvma ↦ by cases hvma⟩
    intro vma hvma
    rw [List.mem_singleton.mp hvma]
    exact ⟨by decide, by decide, by decide⟩
  · rw [frames_onePageParent, zero_add]
    exact ⟨fun _ ↦ rfl, by decide, by decide⟩
  · exact fun la hla hpresent ↦ inAreas_onePageParent hpresent hla
  · rw [frames_onePageParent]
    decide

end Copy

end Ucore.Mm
