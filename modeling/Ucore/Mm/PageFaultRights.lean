import Ucore.Mm.PageFault

/-!
# What a page fault leaves behind

A page fault in an area ends with an entry that grants what the area allows, or with nothing
changed. The handler looks at one flag of the area and not at the error code, takes every entry
that is not zero for a swap entry once swapping is initialised, and leaves a table behind when it
fails after it has made one.
-/

namespace Ucore.Mm

open Library

/-! ## Accesses -/

inductive Access where
  | fetch
  | load
  | store
  deriving DecidableEq

/-- The access behind the `cause` of a trap. -/
def faultAccess (errorCode : ℕ) : Option Access :=
  match errorCode with
  | 0x1 | 0xc => some .fetch
  | 0x5 | 0xd => some .load
  | 0x7 | 0xf => some .store
  | _ => none

/-- The entry grants the access. -/
def Grants (pte : ℕ) : Access → Prop
  | .fetch => pte &&& PTE_X ≠ 0
  | .load => pte &&& PTE_R ≠ 0
  | .store => pte &&& PTE_W ≠ 0

/-- The area allows the access. -/
def Vma.Allows (vma : Vma) : Access → Prop
  | .fetch => vma.vmFlags &&& VM_EXEC ≠ 0
  | .load => vma.vmFlags &&& VM_READ ≠ 0
  | .store => vma.vmFlags &&& VM_WRITE ≠ 0

/-- The entry is a leaf for the user, with the rights of the area. -/
structure RightLeaf (pte : ℕ) (vma : Vma) (errorCode : ℕ) : Prop where
  present : Present pte
  user : pte &&& PTE_U ≠ 0
  leaf : ∃ access, Grants pte access
  exact : ∀ access, Grants pte access ↔ vma.Allows access
  faulted : ∀ access ∈ faultAccess errorCode, Grants pte access

/-- The area allows to read and to write and nothing else, and neither was an instruction to be
fetched. -/
structure Vma.Resolvable (vma : Vma) (errorCode : ℕ) : Prop where
  load : vma.Allows .load
  store : vma.Allows .store
  noFetch : ¬vma.Allows .fetch
  faulted : faultAccess errorCode ≠ some .fetch

variable {vma : Vma} {errorCode page : ℕ}

theorem pteCreate_and (page type : ℕ) {mask : ℕ} (hmask : mask < 2 ^ 10) :
    pteCreate page type &&& mask = (PTE_V ||| type) &&& mask := by
  apply Nat.eq_of_testBit_eq
  intro i
  rw [Nat.testBit_and, Nat.testBit_and, pteCreate, Nat.or_assoc, Nat.testBit_or,
    Nat.testBit_shiftLeft]
  by_cases hi : 10 ≤ i
  · rw [Nat.testBit_lt_two_pow (hmask.trans_le (Nat.pow_le_pow_right (by decide) hi))]
    simp
  · simp [hi]

/-- The entry that the handler makes. -/
def faultPte (page : Frame) (vma : Vma) : ℕ := pteCreate page (PTE_V ||| faultPerm vma.vmFlags)

theorem faultPte_and (page : Frame) (vma : Vma) {mask : ℕ} (hmask : mask < 2 ^ 10) :
    faultPte page vma &&& mask = (PTE_V ||| (PTE_V ||| faultPerm vma.vmFlags)) &&& mask :=
  pteCreate_and _ _ hmask

theorem grants_faultPte (page : Frame) (vma : Vma) (access : Access) :
    Grants (faultPte page vma) access ↔ vma.Allows .store ∧ access ≠ .fetch := by
  have hmask : PTE_X < 2 ^ 10 ∧ PTE_R < 2 ^ 10 ∧ PTE_W < 2 ^ 10 := by decide
  unfold Vma.Allows
  by_cases hwrite : vma.vmFlags &&& VM_WRITE ≠ 0
  · have hperm : faultPerm vma.vmFlags = PTE_U ||| READ_WRITE := if_pos hwrite
    cases access
    · rw [Grants, faultPte_and _ _ hmask.1, hperm]
      exact iff_of_false (by decide) (by simp)
    · rw [Grants, faultPte_and _ _ hmask.2.1, hperm]
      exact iff_of_true (by decide) ⟨hwrite, by simp⟩
    · rw [Grants, faultPte_and _ _ hmask.2.2, hperm]
      exact iff_of_true (by decide) ⟨hwrite, by simp⟩
  · have hperm : faultPerm vma.vmFlags = PTE_U := if_neg hwrite
    have hno : ¬Grants (faultPte page vma) access := by
      cases access
      · rw [Grants, faultPte_and _ _ hmask.1, hperm]
        decide
      · rw [Grants, faultPte_and _ _ hmask.2.1, hperm]
        decide
      · rw [Grants, faultPte_and _ _ hmask.2.2, hperm]
        decide
    exact iff_of_false hno fun hboth ↦ hwrite hboth.1

theorem user_faultPte (page : Frame) (vma : Vma) : faultPte page vma &&& PTE_U ≠ 0 := by
  rw [faultPte_and _ _ (by decide)]
  unfold faultPerm
  split <;> decide

theorem pte2page_faultPte (page : Frame) (vma : Vma) : pte2page (faultPte page vma) = page := by
  apply pte2page_pteCreate
  unfold faultPerm
  split <;> decide

theorem rightLeaf_iff : RightLeaf (faultPte page vma) vma errorCode ↔ vma.Resolvable errorCode := by
  constructor
  · intro h
    rcases h.leaf with ⟨access, haccess⟩
    have hstore := ((grants_faultPte page vma access).mp haccess).1
    refine ⟨?_, hstore, fun hfetch ↦ ?_, fun hfault ↦ ?_⟩
    · exact (h.exact .load).mp ((grants_faultPte page vma .load).mpr ⟨hstore, by simp⟩)
    · exact ((grants_faultPte page vma .fetch).mp ((h.exact .fetch).mpr hfetch)).2 rfl
    · exact ((grants_faultPte page vma .fetch).mp (h.faulted .fetch hfault)).2 rfl
  · intro h
    refine ⟨present_pteCreate _ _, user_faultPte page vma,
      ⟨.load, (grants_faultPte page vma .load).mpr ⟨h.store, by simp⟩⟩, fun access ↦ ?_,
      fun access haccess ↦ ?_⟩
    · rw [grants_faultPte]
      cases access
      · exact iff_of_false (fun hboth ↦ hboth.2 rfl) h.noFetch
      · exact iff_of_true ⟨h.store, by simp⟩ h.load
      · exact iff_of_true ⟨h.store, by simp⟩ h.store
    · rw [grants_faultPte]
      exact ⟨h.store, fun hfetch ↦ h.faulted (hfetch ▸ haccess)⟩

/-! ## What getting a page changes -/

section Kept

variable {sm : SwapManager} {fuel la perm : ℕ} {s s' s'' : FaultState} {found : Option Frame}
  {present made : Bool} {attach : Pgdir → Frame → Pgdir}

/-- Pages may have been swapped out and tables added. Entries that are not present stay as they
are, and nothing is read from the device. -/
structure Swap.Kept (s s' : FaultState) : Prop where
  swapInitOk : s'.swapInitOk = s.swapInitOk
  reads : s'.reads = s.reads
  pte : ∀ la, ¬Present (s.mm.pgdir.pte la) → s'.mm.pgdir.pte la = s.mm.pgdir.pte la
  getPte : ∀ la, (s.mm.pgdir.getPte la).isSome → (s'.mm.pgdir.getPte la).isSome

theorem Swap.Kept.refl (s : FaultState) : s.Kept s := ⟨rfl, rfl, fun _ _ ↦ rfl, fun _ h ↦ h⟩

theorem Swap.Kept.trans (h : s.Kept s') (h' : s'.Kept s'') : s.Kept s'' where
  swapInitOk := h'.swapInitOk.trans h.swapInitOk
  reads := h'.reads.trans h.reads
  pte := fun la hpte ↦ by
    have hsame := h.pte la hpte
    exact (h'.pte la (hsame ▸ hpte)).trans hsame
  getPte := fun la hla ↦ h'.getPte la (h.getPte la hla)

/-- The tables of two directories are at the same places. -/
structure SameShape (pgdir pgdir' : Pgdir) : Prop where
  entry : ∀ la, (pgdir'.entry (PDX1 la)).isSome = (pgdir.entry (PDX1 la)).isSome
  getPte : ∀ la, (pgdir'.getPte la).isSome = (pgdir.getPte la).isSome

theorem SameShape.entry_none {pgdir pgdir' : Pgdir} (h : SameShape pgdir pgdir')
    (hnone : (pgdir.entry (PDX1 la)).isSome = false) : pgdir'.entry (PDX1 la) = none := by
  rw [← Option.isNone_iff_eq_none, ← Option.not_isSome, h.entry, hnone]
  rfl

theorem SameShape.getPte_none {pgdir pgdir' : Pgdir} (h : SameShape pgdir pgdir')
    (hnone : (pgdir.getPte la).isSome = false) : pgdir'.getPte la = none := by
  rw [← Option.isNone_iff_eq_none, ← Option.not_isSome, h.getPte, hnone]
  rfl

theorem sameShape_setPte (pgdir : Pgdir) (la value : ℕ) :
    SameShape pgdir (pgdir.setPte la value) := by
  cases hla : pgdir.getPte la with
  | none =>
    have hsame : pgdir.setPte la value = pgdir := by
      unfold Table.setPte
      split
      · rfl
      · rename_i pd0 hpd0
        split
        · rfl
        · rename_i pt hpt
          rw [getPte_eq hpd0 hpt] at hla
          cases hla
    rw [hsame]
    exact ⟨fun _ ↦ rfl, fun _ ↦ rfl⟩
  | some old =>
    rcases getPte_eq_some.mp hla with ⟨pd0, pt, hpd0, hpt, -⟩
    refine ⟨fun lb ↦ ?_, fun lb ↦ ?_⟩
    · rw [setPte_eq hpd0 hpt]
      by_cases hlb : PDX1 lb = PDX1 la
      · rw [hlb, set_self, hpd0]
        rfl
      · rw [set_of_ne _ _ hlb]
    · by_cases hsame : SamePlace la lb
      · rw [getPte_setPte_same (by rw [hla]; rfl) hsame, ← getPte_congr hsame, hla]
        rfl
      · rw [getPte_setPte_of_not hsame]

theorem PageAllocated.sameShape (h : PageAllocated sm s found s') :
    SameShape s.mm.pgdir s'.mm.pgdir := by
  cases h with
  | head hfree => exact ⟨fun _ ↦ rfl, fun _ ↦ rfl⟩
  | null hfree hswap => exact ⟨fun _ ↦ rfl, fun _ ↦ rfl⟩
  | victim hfree hswap hcheckMm hvictim hevictable => exact sameShape_setPte ..

theorem PageAllocated.kept (h : PageAllocated sm s found s') : s.Kept s' := by
  refine ⟨?_, ?_, fun la hpte ↦ ?_, fun la hla ↦ ?_⟩
  · cases h <;> rfl
  · cases h <;> rfl
  · cases h with
    | head hfree => rfl
    | null hfree hswap => rfl
    | @victim page rest hfree hswap hcheckMm hvictim hevictable =>
      rcases hevictable.present with ⟨pte, hsome, hpresent⟩
      have hisSome : (s.mm.pgdir.getPte (s.praVaddr page)).isSome := by
        rw [hsome]
        rfl
      have hset : ∀ value, (s.mm.pgdir.setPte (s.praVaddr page) value).pte la =
          if SamePlace (s.praVaddr page) la then value else s.mm.pgdir.pte la :=
        fun _ ↦ pte_setPte hisSome la
      refine (hset _).trans (if_neg fun hsame ↦ hpte ?_)
      rw [Table.pte, ← getPte_congr hsame, hsome]
      exact hpresent
  · rw [h.sameShape.getPte]
    exact hla

/-- A level of `get_pte`: what it makes is the table that was missing. -/
inductive LevelCreated (sm : SwapManager) (s : FaultState) (present : Bool)
    (attach : Pgdir → Frame → Pgdir) : Bool → FaultState → Prop
  | there (hpresent : present = true) : LevelCreated sm s present attach true s
  | null {s' : FaultState} (hpresent : present = false) (h : PageAllocated sm s none s') :
      LevelCreated sm s present attach false s'
  | made {s' : FaultState} {frame : Frame} (hpresent : present = false)
      (h : PageAllocated sm s (some frame) s') : LevelCreated sm s present attach true
        ((s'.setRef frame 1).setPgdir (attach s'.mm.pgdir frame))

theorem createLevel_ok (h : s.createLevel sm fuel present attach = .ok (made, s')) :
    LevelCreated sm s present attach made s' := by
  unfold Swap.createLevel at h
  cases hpresent : present with
  | true =>
    rw [hpresent] at h
    cases h
    exact .there rfl
  | false =>
    rw [hpresent] at h
    rcases Outcome.bind_eq_ok.mp h with ⟨⟨found, middle⟩, halloc, h⟩
    have hallocated := allocPages_ok halloc
    cases found with
    | none =>
      cases h
      exact .null rfl hallocated
    | some frame =>
      cases h
      exact .made rfl hallocated

theorem Extends.kept (hsame : s.Kept s') {pgdir : Pgdir} {frame : Frame} {value : ℤ}
    (h : Extends s'.mm.pgdir pgdir) : s.Kept ((s'.setRef frame value).setPgdir pgdir) where
  swapInitOk := hsame.swapInitOk
  reads := hsame.reads
  pte := fun la hpte ↦ (h.pte la).trans (hsame.pte la hpte)
  getPte := fun la hla ↦ by
    rcases Option.isSome_iff_exists.mp (hsame.getPte la hla) with ⟨value, hvalue⟩
    exact Option.isSome_iff_exists.mpr ⟨value, h.getPte la value hvalue⟩

theorem LevelCreated.kept (h : LevelCreated sm s present attach made s')
    (hattach : present = false → ∀ pgdir, SameShape s.mm.pgdir pgdir → ∀ frame,
      Extends pgdir (attach pgdir frame)) : s.Kept s' := by
  cases h with
  | there hpresent => exact .refl s
  | null hpresent h => exact h.kept
  | made hpresent h => exact (hattach hpresent _ h.sameShape _).kept h.kept

/-- How many tables `get_pte` has to make for an address. -/
def Swap.missing (s : FaultState) (la : ℕ) : ℕ :=
  (if (s.mm.pgdir.entry (PDX1 la)).isSome then 0 else 1) +
    if (s.mm.pgdir.getPte la).isSome then 0 else 1

/-- Without swapping, pages come from the free ones only. -/
theorem PageAllocated.off (h : PageAllocated sm s found s') (hoff : s.swapInitOk = false) :
    (∃ frame rest, found = some frame ∧ s.pmm.free = frame :: rest ∧ s' = s.setFree rest) ∨
      found = none ∧ s.pmm.free = [] ∧ s' = s := by
  cases h with
  | head hfree => exact Or.inl ⟨_, _, rfl, hfree, rfl⟩
  | null hfree hswap => exact Or.inr ⟨rfl, hfree, rfl⟩
  | victim hfree hswap => exact absurd (hoff.symm.trans hswap) Bool.false_ne_true

theorem PageAllocated.on (h : PageAllocated sm s found s') (hon : s.swapInitOk = true) :
    found.isSome := by
  cases h with
  | head hfree => rfl
  | null hfree hswap => exact absurd (hswap.symm.trans hon) Bool.false_ne_true
  | victim hfree hswap => rfl

theorem LevelCreated.on (h : LevelCreated sm s present attach made s')
    (hon : s.swapInitOk = true) : made = true := by
  cases h with
  | there hpresent => rfl
  | null hpresent h => exact absurd (h.on hon) Bool.false_ne_true
  | made hpresent h => rfl

/-- Without swapping, a level costs one free page if the table is missing. -/
structure LevelCosts (s s' : FaultState) (cost : ℕ) (made : Bool) : Prop where
  some : made = true → s.pmm.free.length = cost + s'.pmm.free.length
  none : made = false → s'.pmm.free = [] ∧ s.pmm.free.length < cost
  same : s.pmm.free = [] → s' = s

theorem LevelCreated.costs (h : LevelCreated sm s present attach made s')
    (hoff : s.swapInitOk = false) : LevelCosts s s' (if present then 0 else 1) made := by
  cases h with
  | there hpresent =>
    rw [hpresent]
    exact ⟨fun _ ↦ (Nat.zero_add _).symm, nofun, fun _ ↦ rfl⟩
  | null hpresent h =>
    rw [hpresent]
    rcases h.off hoff with ⟨_, _, hfound, -⟩ | ⟨-, hfree, rfl⟩
    · cases hfound
    · exact ⟨nofun, fun _ ↦ ⟨hfree, by rw [hfree]; exact Nat.one_pos⟩, fun _ ↦ rfl⟩
  | made hpresent h =>
    rw [hpresent]
    rcases h.off hoff with ⟨frame, rest, -, hfree, rfl⟩ | ⟨hfound, -⟩
    · refine ⟨fun _ ↦ ?_, nofun, fun hnil ↦ ?_⟩
      · rw [hfree]
        exact Nat.add_comm _ _
      · rw [hfree] at hnil
        cases hnil
    · cases hfound

theorem LevelCosts.trans {cost more : ℕ} (h : LevelCosts s s' cost true)
    (h' : LevelCosts s' s'' more made) : LevelCosts s s'' (cost + more) made where
  some := fun hmade ↦ by rw [h.some rfl, h'.some hmade, Nat.add_assoc]
  none := fun hmade ↦ by
    rcases h'.none hmade with ⟨hfree, hlt⟩
    refine ⟨hfree, ?_⟩
    rw [h.some rfl]
    exact Nat.add_lt_add_left hlt _
  same := fun hfree ↦ by
    have hsame := h.same hfree
    exact (h'.same (hsame ▸ hfree)).trans hsame

theorem LevelCosts.mono {cost more : ℕ} (h : LevelCosts s s' cost false) (hle : cost ≤ more) :
    LevelCosts s s' more false where
  some := nofun
  none := fun hmade ↦ ⟨(h.none hmade).1, (h.none hmade).2.trans_le hle⟩
  same := h.same

/-- What `get_pte` with `create` has done when it returns. -/
structure PteCreated (s s' : FaultState) (la : ℕ) (made : Bool) : Prop where
  kept : s.Kept s'
  pointer : made = true → (s'.mm.pgdir.getPte la).isSome
  on : s.swapInitOk = true → made = true
  costs : s.swapInitOk = false → LevelCosts s s' (s.missing la) made

/-- The lower level, after the upper one. -/
theorem LevelCreated.pteCreated {middle : FaultState} (hkept : s.Kept middle)
    (hentry : (middle.mm.pgdir.entry (PDX1 la)).isSome)
    (hgetPte : (middle.mm.pgdir.getPte la).isSome = (s.mm.pgdir.getPte la).isSome)
    (hcosts : s.swapInitOk = false →
      LevelCosts s middle (if (s.mm.pgdir.entry (PDX1 la)).isSome then 0 else 1) true)
    (h : LevelCreated sm middle (middle.mm.pgdir.getPte la).isSome (Table.attachPt la) made s') :
    PteCreated s s' la made := by
  have hlower : middle.Kept s' := h.kept fun hnone pgdir hshape frame ↦
    extends_attachPt (hshape.getPte_none hnone)
  refine ⟨hkept.trans hlower, fun hmade ↦ ?_, fun hon ↦ ?_, fun hoff ↦ ?_⟩
  · cases h with
    | there hpresent => exact hpresent
    | null hpresent h => cases hmade
    | made hpresent h =>
      apply getPte_attachPt
      rw [h.sameShape.entry]
      exact hentry
  · exact h.on (hkept.swapInitOk.trans hon)
  · have hmore := h.costs (hkept.swapInitOk.trans hoff)
    rw [hgetPte] at hmore
    exact (hcosts hoff).trans hmore

theorem createPte_ok (h : s.createPte sm fuel la = .ok (made, s')) : PteCreated s s' la made := by
  unfold Swap.createPte at h
  rcases Outcome.bind_eq_ok.mp h with ⟨⟨upper, middle⟩, hfirst, h⟩
  have hupper := createLevel_ok hfirst
  have hon := hupper.on
  have hcosts := hupper.costs
  have hkept := hupper.kept fun hnone pgdir hshape frame ↦
    extends_attachPd0 (hshape.entry_none hnone)
  cases hupper with
  | null hpresent hnull =>
    cases h
    exact ⟨hkept, nofun, hon, fun hoff ↦ (hcosts hoff).mono (Nat.le_add_right ..)⟩
  | there hpresent => exact (createLevel_ok h).pteCreated hkept hpresent rfl hcosts
  | made hpresent hmade =>
    refine (createLevel_ok h).pteCreated hkept entry_attachPd0 ?_ hcosts
    have hold : s.mm.pgdir.getPte la = none := by
      apply getPte_of_pd0
      rw [← Option.isNone_iff_eq_none, ← Option.not_isSome, hpresent]
      rfl
    exact (congrArg Option.isSome getPte_attachPd0).trans (congrArg Option.isSome hold).symm

/-- With a table there is nothing to make. -/
theorem createPte_of_isSome (h : (s.mm.pgdir.getPte la).isSome) :
    s.createPte sm fuel la = .ok (true, s) := by
  unfold Swap.createPte Swap.createLevel
  rw [entry_of_getPte h]
  exact if_pos h

/-- A page goes to an entry that is not present. -/
theorem pageInsert_of_not_present {page : Frame} (h : (s.mm.pgdir.getPte la).isSome)
    (hpte : ¬Present (s.mm.pgdir.pte la)) : s.pageInsert sm fuel page la perm =
      .ok (true, (s.setRef page (s.pmm.ref page + 1)).setPgdir
        (s.mm.pgdir.setPte la (pteCreate page (PTE_V ||| perm)))) := by
  unfold Swap.pageInsert
  rw [createPte_of_isSome h]
  exact congrArg (fun after : FaultState ↦ Except.ok (true, after.setPgdir
    (after.mm.pgdir.setPte la (pteCreate page (PTE_V ||| perm))))) (if_neg hpte)

theorem pageRemovePte_mm (s : FaultState) (la pte : ℕ) :
    (s.pageRemovePte la pte).reads = s.reads ∧
      SameShape s.mm.pgdir (s.pageRemovePte la pte).mm.pgdir := by
  unfold Swap.pageRemovePte
  by_cases hpresent : Present pte
  · rw [if_pos hpresent]
    dsimp only
    split <;> exact ⟨rfl, sameShape_setPte ..⟩
  · rw [if_neg hpresent]
    exact ⟨rfl, fun _ ↦ rfl, fun _ ↦ rfl⟩

/-- After `page_insert` the entry leads to the page, whatever it was before. -/
theorem pageInsert_ok {page : Frame} (h : (s.mm.pgdir.getPte la).isSome)
    (hok : s.pageInsert sm fuel page la perm = .ok (made, s')) :
    s'.mm.pgdir.getPte la = some (pteCreate page (PTE_V ||| perm)) ∧ s'.reads = s.reads := by
  unfold Swap.pageInsert at hok
  rw [createPte_of_isSome h] at hok
  have hset : ∀ after : FaultState, (after.mm.pgdir.getPte la).isSome → after.reads = s.reads →
      let result := after.setPgdir
        (after.mm.pgdir.setPte la (pteCreate page (PTE_V ||| perm)))
      result.mm.pgdir.getPte la = some (pteCreate page (PTE_V ||| perm)) ∧
        result.reads = s.reads :=
    fun after hafter hreads ↦ ⟨getPte_setPte_same hafter ⟨rfl, rfl, rfl⟩, hreads⟩
  cases hok
  apply hset
  · split
    · split
      · exact h
      · rw [(pageRemovePte_mm _ _ _).2.getPte]
        exact h
    · exact h
  · split
    · split
      · rfl
      · exact (pageRemovePte_mm _ _ _).1
    · rfl

theorem mapSwappable_ok {page : Frame} (h : s.mapSwappable page = .ok s') :
    s.mm.smPriv = true ∧ s' = { s with praListHead := s.praListHead ++ [page] } := by
  unfold Swap.mapSwappable at h
  rcases Outcome.bind_eq_ok.mp h with ⟨_, hpriv, h⟩
  cases h
  exact ⟨Outcome.require_eq_ok.mp hpriv, rfl⟩

theorem checkSwappable_mm {page : Frame} (h : s.checkSwappable page la = .ok s') :
    s'.mm = s.mm := by
  unfold Swap.checkSwappable at h
  split at h
  · rcases Outcome.bind_eq_ok.mp h with ⟨after, hmap, h⟩
    rcases Outcome.bind_eq_ok.mp h with ⟨_, _, h⟩
    cases h
    rw [(mapSwappable_ok hmap).2]
  · cases h
    rfl

/-- `pgdir_alloc_page` for an entry that is there and not present. -/
theorem faultAllocPage_ok (h : (s.mm.pgdir.getPte la).isSome)
    (hpte : ¬Present (s.mm.pgdir.pte la))
    (hok : s.pgdirAllocPage sm fuel la perm = .ok (found, s')) :
    (found = none ∧ PageAllocated sm s none s') ∨
      ∃ page middle, found = some page ∧ PageAllocated sm s (some page) middle ∧
        s'.mm.pgdir.getPte la = some (pteCreate page (PTE_V ||| perm)) := by
  unfold Swap.pgdirAllocPage at hok
  rcases Outcome.bind_eq_ok.mp hok with ⟨⟨got, middle⟩, halloc, hok⟩
  have hallocated := allocPages_ok halloc
  cases got with
  | none =>
    cases hok
    exact Or.inl ⟨rfl, hallocated⟩
  | some page =>
    have hsome := hallocated.kept.getPte la h
    have hnot : ¬Present (middle.mm.pgdir.pte la) := by
      rw [hallocated.kept.pte la hpte]
      exact hpte
    dsimp only at hok
    rw [pageInsert_of_not_present hsome hnot, Outcome.ok_bind] at hok
    rcases Outcome.bind_eq_ok.mp hok with ⟨after, hcheck, hok⟩
    cases hok
    refine Or.inr ⟨page, middle, rfl, hallocated, ?_⟩
    rw [checkSwappable_mm hcheck]
    exact getPte_setPte_same hsome ⟨rfl, rfl, rfl⟩

/-- The part of `do_pgfault` that takes an entry for a swap entry: which entry it takes. -/
theorem faultSwapIn_ok (h : (s.mm.pgdir.getPte la).isSome)
    (hok : s.faultSwapIn sm fuel la perm = .ok s') :
    ∃ page middle, PageAllocated sm s (some page) middle ∧
      s'.mm.pgdir.getPte la = some (pteCreate page (PTE_V ||| perm)) ∧
      s'.reads = s.reads ++ [middle.mm.pgdir.pte la] := by
  unfold Swap.faultSwapIn at hok
  rcases Outcome.bind_eq_ok.mp hok with ⟨⟨page, read⟩, hswapIn, hok⟩
  rcases Outcome.bind_eq_ok.mp hok with ⟨⟨inserted, after⟩, hinsert, hok⟩
  rcases Outcome.bind_eq_ok.mp hok with ⟨mapped, hmap, hok⟩
  cases hok
  unfold Swap.swapIn at hswapIn
  rcases Outcome.bind_eq_ok.mp hswapIn with ⟨⟨got, middle⟩, halloc, hswapIn⟩
  have hallocated := allocPages_ok halloc
  cases got with
  | none => cases hswapIn
  | some frame =>
    dsimp only at hswapIn
    have hsome := hallocated.kept.getPte la h
    rcases Option.isSome_iff_exists.mp hsome with ⟨pte, hpte⟩
    rw [hpte] at hswapIn
    rcases Outcome.bind_eq_ok.mp hswapIn with ⟨loaded, hread, hswapIn⟩
    cases hswapIn
    have hloaded : read.mm = middle.mm ∧ read.reads = middle.reads ++ [pte] := by
      unfold Swap.swapfsRead at hread
      rcases Outcome.bind_eq_ok.mp hread with ⟨offset, hoffset, hread⟩
      cases hread
      exact ⟨rfl, rfl⟩
    have hinserted := pageInsert_ok (hloaded.1.symm ▸ hsome) hinsert
    rw [(mapSwappable_ok hmap).2]
    refine ⟨page, middle, hallocated, hinserted.1, ?_⟩
    rw [Table.pte, hpte]
    dsimp only
    rw [hinserted.2, hloaded.2, hallocated.kept.reads]
    rfl

/-! ## The handler -/

/-- How the handler ends once the area is found. -/
inductive FaultedIn (sm : SwapManager) (s : FaultState) (vma : Vma) (la : ℕ) : ℤ → FaultState → Prop
  | refused (hoff : s.swapInitOk = false) (hpte : s.mm.pgdir.pte la ≠ 0) :
      FaultedIn sm s vma la (-E_NO_MEM) s
  | exhausted {s' : FaultState} (hoff : s.swapInitOk = false) (hpte : s.mm.pgdir.pte la = 0)
      (hfew : s.pmm.free.length ≤ s.missing la) (hfree : s'.pmm.free = [])
      (hsame : s.pmm.free = [] → s' = s) : FaultedIn sm s vma la (-E_NO_MEM) s'
  | fresh {s' : FaultState} {page : Frame} (hpte : s.mm.pgdir.pte la = 0)
      (hmany : s.swapInitOk = false → s.missing la < s.pmm.free.length)
      (hmapped : s'.mm.pgdir.getPte la = some (faultPte page vma)) : FaultedIn sm s vma la 0 s'
  | swapped {s' middle : FaultState} {page : Frame} (hon : s.swapInitOk = true)
      (hpte : s.mm.pgdir.pte la ≠ 0) (hallocated : PageAllocated sm s (some page) middle)
      (hmapped : s'.mm.pgdir.getPte la = some (faultPte page vma))
      (hreads : s'.reads = s.reads ++ [middle.mm.pgdir.pte la]) : FaultedIn sm s vma la 0 s'

theorem faultIn_ok {ret : ℤ} (h : s.faultIn sm fuel vma la = .ok (ret, s')) :
    FaultedIn sm s vma la ret s' := by
  unfold Swap.faultIn at h
  rcases Outcome.bind_eq_ok.mp h with ⟨⟨made, middle⟩, hcreate, h⟩
  by_cases hzero : s.mm.pgdir.pte la = 0
  · have hcreated := createPte_ok hcreate
    cases made with
    | false =>
      cases h
      have hoff : s.swapInitOk = false := by
        by_contra hon
        exact absurd (hcreated.on (Bool.not_eq_false _ ▸ hon)) Bool.false_ne_true
      have hcosts := hcreated.costs hoff
      rcases hcosts.none rfl with ⟨hfree, hlt⟩
      exact .exhausted hoff hzero hlt.le hfree hcosts.same
    | true =>
      dsimp only at h
      have hpte : middle.mm.pgdir.pte la = 0 := by
        rw [hcreated.kept.pte la (hzero ▸ not_present_zero), hzero]
      rw [if_pos hpte] at h
      rcases Outcome.bind_eq_ok.mp h with ⟨⟨found, after⟩, halloc, h⟩
      rcases faultAllocPage_ok (hcreated.pointer rfl) (hpte ▸ not_present_zero) halloc
        with ⟨rfl, hallocated⟩ | ⟨page, last, rfl, hallocated, hmapped⟩
      · cases h
        have hoff : middle.swapInitOk = false := by
          by_contra hon
          exact absurd (hallocated.on (Bool.not_eq_false _ ▸ hon)) Bool.false_ne_true
        have hoff' := hcreated.kept.swapInitOk.symm.trans hoff
        have hcosts := hcreated.costs hoff'
        rcases hallocated.off hoff with ⟨_, _, hfound, -⟩ | ⟨-, hfree, rfl⟩
        · cases hfound
        · refine .exhausted hoff' hzero ?_ hfree hcosts.same
          rw [hcosts.some rfl, hfree]
          exact le_rfl
      · cases h
        refine .fresh hzero (fun hoff ↦ ?_) hmapped
        have hoff' := hcreated.kept.swapInitOk.trans hoff
        rw [(hcreated.costs hoff).some rfl]
        rcases hallocated.off hoff' with ⟨frame, rest, -, hfree, -⟩ | ⟨hfound, -⟩
        · rw [hfree]
          exact Nat.lt_add_of_pos_right (Nat.succ_pos _)
        · cases hfound
  · -- an entry that is not zero has its tables
    have hsome : (s.mm.pgdir.getPte la).isSome := by
      by_contra hnone
      apply hzero
      rw [Table.pte, Option.not_isSome_iff_eq_none.mp hnone]
      rfl
    rw [createPte_of_isSome hsome] at hcreate
    cases hcreate
    dsimp only at h
    rw [if_neg hzero] at h
    cases hswap : s.swapInitOk with
    | false =>
      rw [hswap] at h
      cases h
      exact .refused hswap hzero
    | true =>
      rw [hswap] at h
      rcases Outcome.bind_eq_ok.mp h with ⟨after, hswapIn, h⟩
      cases h
      rcases faultSwapIn_ok hsome hswapIn with ⟨page, last, hallocated, hmapped, hreads⟩
      exact .swapped hswap hzero hallocated hmapped hreads

end Kept

/-! ## When a page fault is resolved -/

section Right

variable {fuel addr : ℕ} {s s' : FaultState} {ret : ℤ}

/-- What holds after a page fault that was answered with `ret`. -/
structure PgfaultRight (s : FaultState) (errorCode addr : ℕ) (ret : ℤ) (s' : FaultState) : Prop where
  resolved : ret = 0 → ∃ vma ∈ s.mm.mmapList, vma.Contains addr ∧
    ∃ pte, s'.mm.pgdir.getPte addr = some pte ∧ RightLeaf pte vma errorCode
  kept : ret = 0 → ∀ pte, s.mm.pgdir.getPte addr = some pte → Present pte →
    pte ∉ s'.reads.drop s.reads.length ∧
      ∃ pte', s'.mm.pgdir.getPte addr = some pte' ∧ pte2page pte' = pte2page pte
  failed : ret ≠ 0 → s'.mm.pgdir = s.mm.pgdir ∧ s'.mm.mmapList = s.mm.mmapList ∧
    s'.pmm.free = s.pmm.free

/-- The page at the address is the one that makes room for itself: there is no free page, and it
is the first in the queue. -/
def Swap.OwnVictim (s : FaultState) (addr : ℕ) : Prop :=
  s.pmm.free = [] ∧ ∃ page ∈ s.praListHead.head?, SamePlace (s.praVaddr page) addr ∧
    pte2page (s.mm.pgdir.pte addr) = page

/-- When a page fault in an area is answered as it should be: nothing can be done and nothing was,
or the area can be read and written and nothing else, there are enough free pages, and no present
entry is in the way. -/
def Swap.CanResolveIn (s : FaultState) (vma : Vma) (errorCode addr : ℕ) : Prop :=
  s.swapInitOk = false ∧ (s.mm.pgdir.pte addr ≠ 0 ∨ s.pmm.free = []) ∨
    vma.Resolvable errorCode ∧ (s.swapInitOk = false → s.missing addr < s.pmm.free.length) ∧
      (Present (s.mm.pgdir.pte addr) → s.OwnVictim addr)

def Swap.CanResolve (s : FaultState) (errorCode addr : ℕ) : Prop :=
  ∀ vma ∈ s.mm.mmapList, vma.Contains addr → s.CanResolveIn vma errorCode addr

theorem not_present_swapEntry (vaddr : ℕ) : ¬Present (swapEntry vaddr) := by
  rw [present_iff, swapEntry, Nat.testBit_shiftLeft]
  simp

theorem missing_congr {la lb : ℕ} (h : SamePlace la lb) : s.missing la = s.missing lb := by
  rw [Swap.missing, Swap.missing, getPte_congr h, h.1]

theorem getPte_of_pte_ne_zero {pgdir : Pgdir} {la : ℕ} (h : pgdir.pte la ≠ 0) :
    pgdir.getPte la = some (pgdir.pte la) := by
  cases hla : pgdir.getPte la with
  | none =>
    rw [Table.pte, hla] at h
    exact absurd rfl h
  | some pte =>
    rw [Table.pte, hla]
    rfl

/-- A victim of its own: what the handler does to an entry that is not zero spares a present page
only if the page at the address is swapped out and comes straight back. -/
theorem ownVictim_iff {la : ℕ} {page : Frame} {middle : FaultState}
    (h : PageAllocated swapManagerFifo s (some page) middle) (hla : SamePlace la addr)
    (hpresent : Present (s.mm.pgdir.pte addr)) : s.OwnVictim addr ↔
      s.mm.pgdir.pte addr ≠ middle.mm.pgdir.pte la ∧ page = pte2page (s.mm.pgdir.pte addr) := by
  cases h with
  | head hfree =>
    apply iff_of_false
    · rintro ⟨hnil, -⟩
      rw [hfree] at hnil
      cases hnil
    · rintro ⟨hne, -⟩
      exact hne (pte_congr hla).symm
  | @victim _ rest hfree hswap hcheckMm hvictim hevictable =>
    have hqueue : s.praListHead = page :: rest := by
      cases hlist : s.praListHead with
      | nil =>
        rw [hlist] at hvictim
        cases hvictim
      | cons first more =>
        rw [hlist] at hvictim
        cases hvictim
        rfl
    have hisSome : (s.mm.pgdir.getPte (s.praVaddr page)).isSome := by
      rcases hevictable.present with ⟨pte, hpte, -⟩
      rw [hpte]
      rfl
    have hset : ∀ value, (s.mm.pgdir.setPte (s.praVaddr page) value).pte la =
        if SamePlace (s.praVaddr page) la then value else s.mm.pgdir.pte la :=
      fun _ ↦ pte_setPte hisSome la
    have hentry := hset (swapEntry (s.praVaddr page))
    constructor
    · rintro ⟨-, first, hfirst, hsame, hframe⟩
      rw [hqueue] at hfirst
      cases hfirst
      refine ⟨fun heq ↦ ?_, hframe.symm⟩
      have hplace : SamePlace (s.praVaddr page) la :=
        ⟨hsame.1.trans hla.1.symm, hsame.2.1.trans hla.2.1.symm, hsame.2.2.trans hla.2.2.symm⟩
      rw [heq] at hpresent
      exact not_present_swapEntry _ ((hentry.trans (if_pos hplace)) ▸ hpresent)
    · rintro ⟨hne, hframe⟩
      have hplace : SamePlace (s.praVaddr page) la := by
        by_contra hother
        exact hne ((pte_congr hla).symm.trans (hentry.trans (if_neg hother)).symm)
      exact ⟨hfree, page, by rw [hqueue]; rfl,
        ⟨hplace.1.trans hla.1, hplace.2.1.trans hla.2.1, hplace.2.2.trans hla.2.2⟩, hframe.symm⟩

/-- A resolved page fault is right exactly if the area allows what the entry grants and a present
page was spared. -/
theorem pgfaultRight_zero_iff (hmm : s.mm.WellFormed) (hvma : vma ∈ s.mm.mmapList)
    (hcontains : vma.Contains addr) {page : Frame}
    (hmapped : s'.mm.pgdir.getPte addr = some (faultPte page vma)) :
    PgfaultRight s errorCode addr 0 s' ↔ vma.Resolvable errorCode ∧
      (Present (s.mm.pgdir.pte addr) →
        s.mm.pgdir.pte addr ∉ s'.reads.drop s.reads.length ∧
          page = pte2page (s.mm.pgdir.pte addr)) := by
  constructor
  · intro h
    rcases h.resolved rfl with ⟨other, hother, hagain, pte, hpte, hleaf⟩
    have hsame := hmm.unique hother hvma hagain hcontains
    subst hsame
    rw [hmapped] at hpte
    cases hpte
    refine ⟨rightLeaf_iff.mp hleaf, fun hpresent ↦ ?_⟩
    have hne : s.mm.pgdir.pte addr ≠ 0 := fun hzero ↦ not_present_zero (hzero ▸ hpresent)
    rcases h.kept rfl _ (getPte_of_pte_ne_zero hne) hpresent with ⟨hreads, pte', hpte', hframe⟩
    rw [hmapped] at hpte'
    cases hpte'
    exact ⟨hreads, (pte2page_faultPte page other).symm.trans hframe⟩
  · rintro ⟨hresolvable, hspared⟩
    refine ⟨fun _ ↦ ⟨vma, hvma, hcontains, _, hmapped, rightLeaf_iff.mpr hresolvable⟩,
      fun _ pte hpte hpresent ↦ ?_, fun hne ↦ absurd rfl hne⟩
    have heq : s.mm.pgdir.pte addr = pte := by
      rw [Table.pte, hpte]
      rfl
    rw [heq] at hspared
    rcases hspared hpresent with ⟨hreads, hframe⟩
    exact ⟨hreads, _, hmapped, (pte2page_faultPte page vma).trans hframe⟩

theorem pgfaultRight_failed_iff (hne : ret ≠ 0) : PgfaultRight s errorCode addr ret s' ↔
    s'.mm.pgdir = s.mm.pgdir ∧ s'.mm.mmapList = s.mm.mmapList ∧ s'.pmm.free = s.pmm.free :=
  ⟨fun h ↦ h.failed hne,
    fun h ↦ ⟨fun hzero ↦ absurd hzero hne, fun hzero ↦ absurd hzero hne, fun _ ↦ h⟩⟩

/-- The answer of the handler in the area of the address. -/
theorem FaultedIn.right_iff {la : ℕ} (hmm : s.mm.WellFormed) (hvma : vma ∈ s.mm.mmapList)
    (hcontains : vma.Contains addr) (hla : SamePlace la addr)
    (h : FaultedIn swapManagerFifo s vma la ret s') :
    PgfaultRight s errorCode addr ret s' ↔ s.CanResolveIn vma errorCode addr := by
  have hmapped : ∀ {after : FaultState} {pte}, after.mm.pgdir.getPte la = some pte →
      after.mm.pgdir.getPte addr = some pte := fun hpte ↦ (getPte_congr hla).symm.trans hpte
  cases h with
  | refused hoff hpte =>
    rw [pte_congr hla] at hpte
    rw [pgfaultRight_failed_iff (by decide)]
    exact iff_of_true ⟨rfl, rfl, rfl⟩ (Or.inl ⟨hoff, Or.inl hpte⟩)
  | exhausted hoff hpte hfew hfree hsame =>
    rw [pte_congr hla] at hpte
    rw [missing_congr hla] at hfew
    rw [pgfaultRight_failed_iff (by decide)]
    constructor
    · rintro ⟨-, -, hfree'⟩
      exact Or.inl ⟨hoff, Or.inr (hfree'.symm.trans hfree)⟩
    · rintro (⟨-, hne | hnil⟩ | ⟨-, hmany, -⟩)
      · exact absurd hpte hne
      · rw [hsame hnil]
        exact ⟨rfl, rfl, rfl⟩
      · exact absurd (hmany hoff) (not_lt.mpr hfew)
  | fresh hpte hmany hmap =>
    rw [pte_congr hla] at hpte
    rw [missing_congr hla] at hmany
    rw [pgfaultRight_zero_iff hmm hvma hcontains (hmapped hmap), Swap.CanResolveIn, hpte]
    constructor
    · exact fun h ↦ Or.inr ⟨h.1, hmany, fun hpresent ↦ absurd hpresent not_present_zero⟩
    · rintro (⟨hoff, hne | hnil⟩ | ⟨hresolvable, -⟩)
      · exact absurd rfl hne
      · have hlt := hmany hoff
        rw [hnil] at hlt
        exact absurd hlt (Nat.not_lt_zero _)
      · exact ⟨hresolvable, fun hpresent ↦ absurd hpresent not_present_zero⟩
  | @swapped _ middle page hon hpte hallocated hmap hreads =>
    have hnotOff : s.swapInitOk ≠ false := by
      rw [hon]
      exact Bool.true_eq_false.mp
    rw [pgfaultRight_zero_iff hmm hvma hcontains (hmapped hmap), hreads, List.drop_left,
      List.mem_singleton, Swap.CanResolveIn]
    constructor
    · rintro ⟨hresolvable, hspared⟩
      exact Or.inr ⟨hresolvable, fun hoff ↦ absurd hoff hnotOff, fun hpresent ↦
        (ownVictim_iff hallocated hla hpresent).mpr (hspared hpresent)⟩
    · rintro (⟨hoff, -⟩ | ⟨hresolvable, -, hown⟩)
      · exact absurd hoff hnotOff
      · exact ⟨hresolvable, fun hpresent ↦
          (ownVictim_iff hallocated hla hpresent).mp (hown hpresent)⟩

/-- What `do_pgfault` does is right exactly if the page fault can be resolved, for every address
and every error code. -/
theorem pgfaultRight_iff (fuel errorCode addr : ℕ) (s s' : FaultState) (ret : ℤ)
    (hmm : s.mm.WellFormed)
    (h : doPgfault swapManagerFifo fuel s errorCode addr = .ok (ret, s')) :
    PgfaultRight s errorCode addr ret s' ↔ s.CanResolve errorCode addr := by
  have hcache := findVma_eq s.mm addr
  unfold doPgfault at h
  rcases hfind : s.mm.findVma addr with ⟨found, mm⟩
  rw [hfind] at h hcache
  dsimp only at h hcache
  cases found with
  | none =>
    have hfound := findVma_none (show (s.mm.findVma addr).1 = none by rw [hfind])
    rw [hfind] at hfound
    cases h
    rw [hcache, pgfaultRight_failed_iff (by decide)]
    exact iff_of_true ⟨rfl, rfl, rfl⟩ fun vma hvma hcontains ↦
      absurd hcontains (hfound.2 vma hvma)
  | some vma =>
    rcases findVma_some hmm (by rw [hfind]) with ⟨hvma, hcontains, -⟩
    dsimp only at h
    rw [if_neg (not_lt.mpr hcontains.1), hcache] at h
    have hmm' := hmm.findVma addr
    rw [hfind, hcache] at hmm'
    have hiff : PgfaultRight { s with mm := { s.mm with mmapCache := mm.mmapCache } } errorCode
        addr ret s' ↔ s.CanResolveIn vma errorCode addr :=
      FaultedIn.right_iff hmm' hvma hcontains (samePlace_roundDown addr) (faultIn_ok h)
    have hsame : PgfaultRight s errorCode addr ret s' ↔
        PgfaultRight { s with mm := { s.mm with mmapCache := mm.mmapCache } } errorCode addr ret s' :=
      ⟨fun h ↦ ⟨h.resolved, h.kept, h.failed⟩, fun h ↦ ⟨h.resolved, h.kept, h.failed⟩⟩
    rw [hsame, hiff]
    constructor
    · intro hcan other hother hagain
      rw [hmm.unique hother hvma hagain hcontains]
      exact hcan
    · exact fun hcan ↦ hcan vma hvma hcontains

/-! ### An area that can only be read -/

/-- One page that can be read, and three free frames. -/
def readOnly : FaultState where
  pmm := ⟨[5, 6, 7], fun _ ↦ 0⟩
  bytes _ _ := 0
  swapInitOk := false
  maxSwapOffset := 7
  slot _ _ := 0
  reads := []
  praListHead := []
  praVaddr _ := 0
  mm := ⟨[⟨0x200000, 0x201000, VM_READ⟩], none, Table.clear 9 none, 1, false⟩
  checkMm := false

theorem wellFormed_readOnly : readOnly.mm.WellFormed := by
  refine ⟨?_, List.pairwise_singleton _ _, nofun⟩
  intro vma hvma
  rw [List.mem_singleton.mp hvma]
  exact ⟨by decide, by decide, by decide⟩

theorem pgfaultRight_readOnly : ∃ s', doPgfault swapManagerFifo 1 readOnly 0xd 0x200000 = .ok (0, s') ∧
    (PgfaultRight readOnly 0xd 0x200000 0 s' ↔ readOnly.CanResolve 0xd 0x200000) :=
  ⟨_, rfl, pgfaultRight_iff 1 0xd 0x200000 readOnly _ 0 wellFormed_readOnly rfl⟩

/-- A page is read for the first time, and the entry that the handler makes is no leaf. -/
theorem not_pgfaultRight : ¬∀ (fuel errorCode addr : ℕ) (s s' : FaultState) (ret : ℤ),
    s.mm.WellFormed → doPgfault swapManagerFifo fuel s errorCode addr = .ok (ret, s') →
      PgfaultRight s errorCode addr ret s' := by
  intro h
  have hright := h 1 0xd 0x200000 readOnly _ 0 wellFormed_readOnly rfl
  rcases hright.resolved rfl with ⟨vma, -, -, pte, hpte, hleaf⟩
  have hvalue : pte = faultPte 7 ⟨0x200000, 0x201000, VM_READ⟩ :=
    Option.some.inj (hpte.symm.trans rfl)
  rcases hleaf.leaf with ⟨access, haccess⟩
  rw [hvalue] at haccess
  exact ((grants_faultPte 7 _ access).mp haccess).1 rfl

end Right

end Ucore.Mm
