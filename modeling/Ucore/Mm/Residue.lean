import Ucore.Library.TwoRuns
import Ucore.Mm.DupMmap
import Ucore.Mm.PageFault

/-!
# What frames still hold

No function that maps a page clears it. Two runs that start with different bytes in their frames
take the same steps, and every byte of a frame is the same in both runs, or it is what has been
there before.
-/

namespace Ucore.Mm

open Library

/-- In two runs each byte of each frame is the same now, or it is still the old one in both. -/
def Residual (old old' now now' : Frame → ℕ → UInt8) : Prop := ∀ frame index,
  now frame index = now' frame index ∨
    now frame index = old frame index ∧ now' frame index = old' frame index

section Bytes

variable {old old' now now' next next' : Frame → ℕ → UInt8}

theorem residual_refl (old old' : Frame → ℕ → UInt8) : Residual old old' old old' :=
  fun _ _ ↦ Or.inr ⟨rfl, rfl⟩

/-- The same bytes are put into a page, or part of it. -/
theorem Residual.update (h : Residual old old' now now') (page : Frame) {patch patch' : ℕ → UInt8}
    (hpatch : ∀ index, patch index = patch' index ∨
      patch index = now page index ∧ patch' index = now' page index) :
    Residual old old' (Function.update now page patch) (Function.update now' page patch') := by
  intro frame index
  by_cases hframe : frame = page
  · subst hframe
    rw [Function.update_self, Function.update_self]
    rcases hpatch index with heq | ⟨hkept, hkept'⟩
    · exact Or.inl heq
    · rw [hkept, hkept']
      exact h frame index
  · rw [Function.update_of_ne hframe, Function.update_of_ne hframe]
    exact h frame index

end Bytes

/-! ## The frames -/

def Memory.withBytes (m : Memory) (bytes : Frame → ℕ → UInt8) : Memory := { m with bytes }

/-- Two memories that differ in bytes of frames at most, outside the checks for swapping. -/
structure Twins (old old' : Frame → ℕ → UInt8) (m m' : Memory) : Prop where
  same : m' = m.withBytes m'.bytes
  residual : Residual old old' m.bytes m'.bytes
  checkMm : m.checkMm = none

section Frames

variable {m m' : Memory} {pgdir : Pgdir} {la perm : ℕ} {bytes old old' : Frame → ℕ → UInt8}

theorem allocTable_withBytes (m : Memory) (bytes : Frame → ℕ → UInt8) :
    (m.withBytes bytes).allocTable = (m.allocTable.1, m.allocTable.2.withBytes bytes) := by
  unfold Memory.allocTable Memory.allocPage
  cases hfree : m.free with
  | nil =>
    have hsame : (m.withBytes bytes).free = [] := hfree
    rw [hsame]
  | cons frame free =>
    have hsame : (m.withBytes bytes).free = frame :: free := hfree
    rw [hsame]
    rfl

theorem createPt_withBytes (pd0 : Pd0) :
    createPt (m.withBytes bytes) pd0 la = ((createPt m pd0 la).1,
      (createPt m pd0 la).2.1.withBytes bytes, (createPt m pd0 la).2.2) := by
  unfold createPt
  cases pd0.entry (PDX0 la) with
  | some pt => rfl
  | none =>
    dsimp only
    rw [allocTable_withBytes]
    rcases m.allocTable with ⟨_ | frame, after⟩ <;> rfl

theorem createPte_withBytes : createPte (m.withBytes bytes) pgdir la = ((createPte m pgdir la).1,
    (createPte m pgdir la).2.1.withBytes bytes, (createPte m pgdir la).2.2) := by
  unfold createPte
  cases pgdir.entry (PDX1 la) with
  | some pd0 =>
    dsimp only
    rw [createPt_withBytes]
  | none =>
    dsimp only
    rw [allocTable_withBytes]
    rcases m.allocTable with ⟨_ | frame, after⟩
    · rfl
    · dsimp only
      rw [createPt_withBytes]

theorem pageRemovePte_withBytes (pte : ℕ) : pageRemovePte (m.withBytes bytes) pgdir la pte =
    ((pageRemovePte m pgdir la pte).1.withBytes bytes, (pageRemovePte m pgdir la pte).2) := by
  unfold pageRemovePte
  split
  · refine Prod.ext ?_ rfl
    change (m.withBytes bytes).drop (pte2page pte) = (m.drop (pte2page pte)).withBytes bytes
    unfold Memory.drop
    dsimp only
    by_cases hlast : (m.setRef (pte2page pte) (m.ref (pte2page pte) - 1)).ref (pte2page pte) = 0
    · rw [if_pos hlast]
      exact if_pos hlast
    · rw [if_neg hlast]
      exact if_neg hlast
  · rfl

theorem pageInsert_withBytes (page : Frame) : pageInsert (m.withBytes bytes) pgdir page la perm =
    ((pageInsert m pgdir page la perm).1, (pageInsert m pgdir page la perm).2.1.withBytes bytes,
      (pageInsert m pgdir page la perm).2.2) := by
  unfold pageInsert
  rw [createPte_withBytes]
  rcases createPte m pgdir la with ⟨found, after, dir⟩
  dsimp only
  cases found with
  | false => rfl
  | true =>
    rw [if_pos rfl, if_pos rfl]
    obtain ⟨counted, hcounted⟩ : ∃ counted, counted = after.setRef page (after.ref page + 1) :=
      ⟨_, rfl⟩
    have hsame : (after.withBytes bytes).setRef page ((after.withBytes bytes).ref page + 1) =
        counted.withBytes bytes := hcounted ▸ rfl
    rw [hsame, ← hcounted]
    split
    · split
      · rfl
      · rw [pageRemovePte_withBytes]
    · rfl

/-- A new page in both runs, or none. -/
theorem Twins.pgdirAllocPage (h : Twins old old' m m') (pgdir : Pgdir) (la perm : ℕ) :
    InStep (fun result result' ↦ result'.1 = result.1 ∧ Twins old old' result.2.1 result'.2.1 ∧
      result'.2.2 = result.2.2) (pgdirAllocPage m pgdir la perm)
      (pgdirAllocPage m' pgdir la perm) := by
  rcases h with ⟨hsame, hresidual, hcheck⟩
  rw [hsame]
  unfold Mm.pgdirAllocPage Memory.allocPage
  cases hfree : m.free with
  | nil =>
    have hfree' : (m.withBytes m'.bytes).free = [] := hfree
    rw [hfree']
    exact .ok ⟨rfl, ⟨rfl, hresidual, hcheck⟩, rfl⟩
  | cons page free =>
    have hfree' : (m.withBytes m'.bytes).free = page :: free := hfree
    rw [hfree']
    dsimp only
    have hrest : ({ m.withBytes m'.bytes with free := free } : Memory) =
        ({ m with free } : Memory).withBytes m'.bytes := rfl
    rw [hrest, pageInsert_withBytes]
    have hinserted := pageInsert_same { m with free } pgdir page la perm
    rcases hinsert : pageInsert { m with free } pgdir page la perm with ⟨mapped, after, dir⟩
    rw [hinsert] at hinserted
    rcases hinserted with ⟨hbytes, hkept⟩
    change after.bytes = m.bytes at hbytes
    have hafter : Residual old old' after.bytes m'.bytes := by
      rw [hbytes]
      exact hresidual
    have hnone : after.checkMm = none := hkept.trans hcheck
    cases mapped with
    | false => exact .ok ⟨rfl, ⟨rfl, hafter, hnone⟩, rfl⟩
    | true =>
      have hquiet : ∀ m : Memory, m.checkMm = none → m.checkSwappable page la = .ok m := by
        intro m hm
        unfold Memory.checkSwappable
        rw [hm]
        exact ite_self _
      dsimp only
      rw [hquiet after hnone, hquiet (after.withBytes m'.bytes) hnone]
      exact .ok ⟨rfl, ⟨rfl, hafter, hnone⟩, rfl⟩

theorem Twins.store (h : Twins old old' m m') (page : Frame) (off size : ℕ) (patch : ℕ → UInt8) :
    InStep (Twins old old') (m.store page off size patch) (m'.store page off size patch) := by
  unfold Memory.store
  refine .require fun _ ↦ .ok ⟨?_, h.residual.update page fun index ↦ ?_, h.checkMm⟩
  · rw [h.same]
    rfl
  · by_cases hin : off ≤ index ∧ index < off + size
    · exact Or.inl ((if_pos hin).trans (if_pos hin).symm)
    · exact Or.inr ⟨if_neg hin, if_neg hin⟩

end Frames

/-! ## Page faults -/

/-- The same for the state of the handler, for an address space that no page is swapped out of. -/
structure FaultTwins (old old' : Frame → ℕ → UInt8) (s s' : FaultState) : Prop where
  same : s' = { s with bytes := s'.bytes }
  residual : Residual old old' s.bytes s'.bytes
  checkMm : s.checkMm = false

section Faults

variable {s s' : FaultState} {old old' : Frame → ℕ → UInt8} {sm : SwapManager} {fuel : ℕ}

/-- A change that has nothing to do with the bytes. -/
theorem FaultTwins.change (h : FaultTwins old old' s s') (change : FaultState → FaultState)
    (hchange : ∀ (s : FaultState) (bytes : Frame → ℕ → UInt8),
      change { s with bytes } = { change s with bytes })
    (hbytes : (change s).bytes = s.bytes) (hcheckMm : (change s).checkMm = s.checkMm) :
    FaultTwins old old' (change s) (change s') := by
  rcases h with ⟨hsame, hresidual, hcheck⟩
  generalize s'.bytes = bytes at hsame hresidual
  subst hsame
  rw [hchange s bytes]
  refine ⟨rfl, ?_, hcheckMm.trans hcheck⟩
  rw [hbytes]
  exact hresidual

theorem FaultTwins.setRef (h : FaultTwins old old' s s') (frame : Frame) (value : ℤ) :
    FaultTwins old old' (s.setRef frame value) (s'.setRef frame value) :=
  h.change (fun s ↦ s.setRef frame value) (fun _ _ ↦ rfl) rfl rfl

theorem FaultTwins.setPgdir (h : FaultTwins old old' s s') (pgdir : Pgdir) :
    FaultTwins old old' (s.setPgdir pgdir) (s'.setPgdir pgdir) :=
  h.change (fun s ↦ s.setPgdir pgdir) (fun _ _ ↦ rfl) rfl rfl

theorem FaultTwins.freePage (h : FaultTwins old old' s s') (page : Frame) :
    FaultTwins old old' (s.freePage page) (s'.freePage page) :=
  h.change (fun s ↦ s.freePage page) (fun _ _ ↦ rfl) rfl rfl

/-- The rest of the two states is the same. -/
theorem FaultTwins.eq {Value : Type} (h : FaultTwins old old' s s') (value : FaultState → Value)
    (hvalue : ∀ (s : FaultState) (bytes : Frame → ℕ → UInt8), value { s with bytes } = value s) :
    value s' = value s :=
  (congrArg value h.same).trans (hvalue s _)

/-- A page, or none: without `check_mm_struct` there is no victim. -/
theorem FaultTwins.allocPages (h : FaultTwins old old' s s') (sm : SwapManager) (fuel : ℕ) :
    InStep (fun result result' ↦ result'.1 = result.1 ∧ FaultTwins old old' result.2 result'.2)
      (Swap.allocPages framePoolManager sm 1 fuel s)
      (Swap.allocPages framePoolManager sm 1 fuel s') := by
  cases fuel with
  | zero => exact .error .fuel
  | succ fuel =>
    have hpmm : s'.pmm = s.pmm := h.eq (fun s ↦ s.pmm) fun _ _ ↦ rfl
    have hswap : s'.swapInitOk = s.swapInitOk := h.eq (fun s ↦ s.swapInitOk) fun _ _ ↦ rfl
    have hcheck : s'.checkMm = false := (h.eq (fun s ↦ s.checkMm) fun _ _ ↦ rfl).trans h.checkMm
    rw [Swap.allocPages, Swap.allocPages, hpmm]
    rcases framePoolManager.allocPages s.pmm 1 with stop | ⟨page, pmm⟩
    · exact .error stop
    · have hnext : FaultTwins old old' { s with pmm } { s' with pmm } :=
        h.change (fun s ↦ { s with pmm }) (fun _ _ ↦ rfl) rfl rfl
      rw [Outcome.ok_bind, Outcome.ok_bind]
      dsimp only
      rw [hswap] at hnext ⊢
      refine InStep.ite (fun _ ↦ .ok ⟨rfl, hnext⟩) fun _ ↦ ?_
      rw [Swap.swapOut, Swap.swapOut, hcheck, h.checkMm]
      exact .error .panic

theorem FaultTwins.createLevel (h : FaultTwins old old' s s') (sm : SwapManager) (fuel : ℕ)
    (present : Bool) (attach : Pgdir → Frame → Pgdir) :
    InStep (fun result result' ↦ result'.1 = result.1 ∧ FaultTwins old old' result.2 result'.2)
      (s.createLevel sm fuel present attach) (s'.createLevel sm fuel present attach) := by
  unfold Swap.createLevel
  refine InStep.ite (fun _ ↦ .ok ⟨rfl, h⟩) fun _ ↦ ?_
  refine (h.allocPages sm fuel).bind ?_
  rintro ⟨found, next⟩ ⟨found', next'⟩ ⟨heq, hnext⟩
  obtain rfl : found' = found := heq
  have hpgdir : next'.mm.pgdir = next.mm.pgdir := hnext.eq (fun s ↦ s.mm.pgdir) fun _ _ ↦ rfl
  cases found' with
  | none => exact .ok ⟨rfl, hnext⟩
  | some frame =>
    dsimp only
    rw [hpgdir]
    exact .ok ⟨rfl, (hnext.setRef frame 1).setPgdir _⟩

theorem FaultTwins.createPte (h : FaultTwins old old' s s') (sm : SwapManager) (fuel la : ℕ) :
    InStep (fun result result' ↦ result'.1 = result.1 ∧ FaultTwins old old' result.2 result'.2)
      (s.createPte sm fuel la) (s'.createPte sm fuel la) := by
  unfold Swap.createPte
  have hpgdir : s'.mm.pgdir = s.mm.pgdir := h.eq (fun s ↦ s.mm.pgdir) fun _ _ ↦ rfl
  rw [hpgdir]
  refine (h.createLevel sm fuel _ _).bind ?_
  rintro ⟨found, next⟩ ⟨found', next'⟩ ⟨heq, hnext⟩
  obtain rfl : found' = found := heq
  have hpgdir : next'.mm.pgdir = next.mm.pgdir := hnext.eq (fun s ↦ s.mm.pgdir) fun _ _ ↦ rfl
  cases found' with
  | false => exact .ok ⟨rfl, hnext⟩
  | true =>
    dsimp only
    rw [hpgdir]
    exact hnext.createLevel sm fuel _ _

theorem FaultTwins.pageRemovePte (h : FaultTwins old old' s s') (la pte : ℕ) :
    FaultTwins old old' (s.pageRemovePte la pte) (s'.pageRemovePte la pte) := by
  refine h.change (fun s ↦ s.pageRemovePte la pte) (fun s bytes ↦ ?_) ?_ ?_
  all_goals
    dsimp only [Swap.pageRemovePte, Swap.setRef, Swap.freePage, Swap.setPgdir]
    split_ifs <;> rfl

theorem FaultTwins.pageInsert (h : FaultTwins old old' s s') (sm : SwapManager) (fuel : ℕ)
    (page : Frame) (la perm : ℕ) :
    InStep (fun result result' ↦ result'.1 = result.1 ∧ FaultTwins old old' result.2 result'.2)
      (s.pageInsert sm fuel page la perm) (s'.pageInsert sm fuel page la perm) := by
  unfold Swap.pageInsert
  refine (h.createPte sm fuel la).bind ?_
  rintro ⟨found, next⟩ ⟨found', next'⟩ ⟨heq, hnext⟩
  obtain rfl : found' = found := heq
  cases found' with
  | false => exact .ok ⟨rfl, hnext⟩
  | true =>
    have hpgdir : next'.mm.pgdir = next.mm.pgdir := hnext.eq (fun s ↦ s.mm.pgdir) fun _ _ ↦ rfl
    have hpmm : next'.pmm = next.pmm := hnext.eq (fun s ↦ s.pmm) fun _ _ ↦ rfl
    dsimp only
    rw [hpgdir, hpmm]
    have hcounted := hnext.setRef page (next.pmm.ref page + 1)
    generalize next.setRef page (next.pmm.ref page + 1) = counted at hcounted ⊢
    generalize next'.setRef page (next.pmm.ref page + 1) = counted' at hcounted ⊢
    have hpmm' : counted'.pmm = counted.pmm := hcounted.eq (fun s ↦ s.pmm) fun _ _ ↦ rfl
    rw [hpmm']
    refine .ok ⟨rfl, ?_⟩
    dsimp only
    by_cases hpresent : Present (next.mm.pgdir.pte la)
    · rw [if_pos hpresent, if_pos hpresent]
      by_cases hsame : pte2page (next.mm.pgdir.pte la) = page
      · rw [if_pos hsame, if_pos hsame]
        have hlast := hcounted.setRef page (counted.pmm.ref page - 1)
        rw [hlast.eq (fun s ↦ s.mm.pgdir) fun _ _ ↦ rfl]
        exact hlast.setPgdir _
      · rw [if_neg hsame, if_neg hsame]
        have hlast := hcounted.pageRemovePte la (next.mm.pgdir.pte la)
        rw [hlast.eq (fun s ↦ s.mm.pgdir) fun _ _ ↦ rfl]
        exact hlast.setPgdir _
    · rw [if_neg hpresent, if_neg hpresent, hcounted.eq (fun s ↦ s.mm.pgdir) fun _ _ ↦ rfl]
      exact hcounted.setPgdir _

theorem FaultTwins.mapSwappable (h : FaultTwins old old' s s') (page : Frame) :
    InStep (FaultTwins old old') (s.mapSwappable page) (s'.mapSwappable page) := by
  unfold Swap.mapSwappable
  rw [h.eq (fun s ↦ s.mm.smPriv) fun _ _ ↦ rfl]
  exact .require fun _ ↦ .ok <| h.change
    (fun s ↦ { s with praListHead := s.praListHead ++ [page] }) (fun _ _ ↦ rfl) rfl rfl

/-- A page that is mapped keeps what is in it. -/
theorem FaultTwins.pgdirAllocPage (h : FaultTwins old old' s s') (sm : SwapManager)
    (fuel la perm : ℕ) :
    InStep (fun result result' ↦ result'.1 = result.1 ∧ FaultTwins old old' result.2 result'.2)
      (s.pgdirAllocPage sm fuel la perm) (s'.pgdirAllocPage sm fuel la perm) := by
  unfold Swap.pgdirAllocPage
  refine (h.allocPages sm fuel).bind ?_
  rintro ⟨found, next⟩ ⟨found', next'⟩ ⟨heq, hnext⟩
  obtain rfl : found' = found := heq
  cases found' with
  | none => exact .ok ⟨rfl, hnext⟩
  | some page =>
    dsimp only
    refine (hnext.pageInsert sm fuel page la perm).bind ?_
    rintro ⟨mapped, last⟩ ⟨mapped', last'⟩ ⟨heq, hlast⟩
    obtain rfl : mapped' = mapped := heq
    cases mapped' with
    | false => exact .ok ⟨rfl, hlast.freePage page⟩
    | true =>
      have hquiet : ∀ s : FaultState, s.checkMm = false → s.checkSwappable page la = .ok s :=
        fun s hs ↦ if_neg fun hboth ↦ Bool.false_ne_true (hs.symm.trans hboth.2)
      have hcheck : last'.checkMm = false :=
        (hlast.eq (fun s ↦ s.checkMm) fun _ _ ↦ rfl).trans hlast.checkMm
      dsimp only
      rw [hquiet last hlast.checkMm, hquiet last' hcheck]
      exact .ok ⟨rfl, hlast⟩

/-- A page that comes from the swap device has the bytes of the device. -/
theorem FaultTwins.swapIn (h : FaultTwins old old' s s') (sm : SwapManager) (fuel la : ℕ) :
    InStep (fun result result' ↦ result'.1 = result.1 ∧ FaultTwins old old' result.2 result'.2)
      (s.swapIn framePoolManager sm fuel la) (s'.swapIn framePoolManager sm fuel la) := by
  unfold Swap.swapIn
  refine (h.allocPages sm fuel).bind ?_
  rintro ⟨found, next⟩ ⟨found', next'⟩ ⟨heq, hnext⟩
  obtain rfl : found' = found := heq
  cases found' with
  | none => exact .error .panic
  | some page =>
    rcases hnext with ⟨hsame, hresidual, hcheck⟩
    change next' = { next with bytes := next'.bytes } at hsame
    change Residual old old' next.bytes next'.bytes at hresidual
    generalize next'.bytes = bytes at hsame hresidual
    subst hsame
    dsimp only
    cases next.mm.pgdir.getPte la with
    | none => exact .error .panic
    | some pte =>
      dsimp only
      unfold Swap.swapfsRead Swap.swapOffset
      rw [bind_assoc, bind_assoc, bind_assoc, bind_assoc]
      exact .require fun _ ↦
        .ok ⟨rfl, rfl, hresidual.update page fun _ ↦ Or.inl rfl, hcheck⟩

theorem FaultTwins.faultIn (h : FaultTwins old old' s s') (sm : SwapManager) (fuel : ℕ) (vma : Vma)
    (la : ℕ) :
    InStep (fun result result' ↦ result'.1 = result.1 ∧ FaultTwins old old' result.2 result'.2)
      (s.faultIn sm fuel vma la) (s'.faultIn sm fuel vma la) := by
  unfold Swap.faultIn
  refine (h.createPte sm fuel la).bind ?_
  rintro ⟨found, next⟩ ⟨found', next'⟩ ⟨heq, hnext⟩
  obtain rfl : found' = found := heq
  cases found' with
  | false => exact .ok ⟨rfl, hnext⟩
  | true =>
    dsimp only
    rw [hnext.eq (fun s ↦ s.mm.pgdir) fun _ _ ↦ rfl, hnext.eq (fun s ↦ s.swapInitOk) fun _ _ ↦ rfl]
    refine InStep.ite (fun _ ↦ ?_) fun _ ↦ InStep.ite (fun _ ↦ ?_) fun _ ↦ .ok ⟨rfl, hnext⟩
    · refine (hnext.pgdirAllocPage sm fuel la _).bind ?_
      rintro ⟨page, last⟩ ⟨page', last'⟩ ⟨heq, hlast⟩
      obtain rfl : page' = page := heq
      cases page' with
      | none => exact .ok ⟨rfl, hlast⟩
      | some page => exact .ok ⟨rfl, hlast⟩
    · refine InStep.bind (R := FaultTwins old old') ?_ fun last last' hlast ↦ .ok ⟨rfl, hlast⟩
      unfold Swap.faultSwapIn
      refine (hnext.swapIn sm fuel la).bind ?_
      rintro ⟨page, read⟩ ⟨page', read'⟩ ⟨heq, hread⟩
      obtain rfl : page' = page := heq
      refine (hread.pageInsert sm fuel page' la _).bind ?_
      rintro ⟨mapped, last⟩ ⟨mapped', last'⟩ ⟨-, hlast⟩
      refine (hlast.mapSwappable page').bind fun queued queued' hqueued ↦ .ok ?_
      have hpra : queued'.praVaddr = queued.praVaddr :=
        hqueued.eq (fun s ↦ s.praVaddr) fun _ _ ↦ rfl
      rw [hpra]
      exact hqueued.change
        (fun s ↦ { s with praVaddr := Function.update queued.praVaddr page' la })
        (fun _ _ ↦ rfl) rfl rfl

/-- Both runs come out of a page fault alike. -/
theorem FaultTwins.doPgfault (h : FaultTwins old old' s s') (sm : SwapManager)
    (fuel errorCode addr : ℕ) :
    InStep (fun result result' ↦ result'.1 = result.1 ∧ FaultTwins old old' result.2 result'.2)
      (Mm.doPgfault sm fuel s errorCode addr) (Mm.doPgfault sm fuel s' errorCode addr) := by
  unfold Mm.doPgfault
  rw [h.eq (fun s ↦ s.mm) fun _ _ ↦ rfl]
  rcases s.mm.findVma addr with ⟨vma, mm⟩
  have hnext : FaultTwins old old' { s with mm } { s' with mm } :=
    h.change (fun s ↦ { s with mm }) (fun _ _ ↦ rfl) rfl rfl
  dsimp only
  cases vma with
  | none => exact .ok ⟨rfl, hnext⟩
  | some vma =>
    dsimp only
    exact InStep.ite (fun _ ↦ .ok ⟨rfl, hnext⟩) fun _ ↦ hnext.faultIn sm fuel vma _

end Faults

end Ucore.Mm
