import Ucore.Mm.PageRef
import Ucore.Mm.SwapTransparent

/-!
# What a process reads

The byte that is read at an address of a directory, and what becomes of it when a page is mapped
or written elsewhere. The frames of new pages come from the free list, so that no other page is in
them.
-/

namespace Ucore.Mm

open Library

/-- What is read at an address, if its page is present. -/
def userByte (m : Memory) (pgdir : Pgdir) (addr : ℕ) : Option UInt8 :=
  if Present (pgdir.pte addr) then some (m.bytes (pte2page (pgdir.pte addr)) (addr % PGSIZE))
  else none

/-- A store of `size` bytes at the offset `off` of a page. One that leaves the page is none. -/
def Memory.store (m : Memory) (page : Frame) (off size : ℕ) (bytes : ℕ → UInt8) :
    Outcome Memory := do
  Outcome.require (off + size ≤ PGSIZE)
  return { m with bytes := Function.update m.bytes page fun index ↦
    if off ≤ index ∧ index < off + size then bytes (index - off) else m.bytes page index }

section View

-- the sums over all entries are not to be evaluated
attribute [local irreducible] Table.pages Table.tables

variable {m m' : Memory} {pgdir pgdir' : Pgdir} {page : Frame} {la addr perm off size : ℕ}
  {bytes : ℕ → UInt8} {ctx : Multiset Frame} {byte : UInt8}

theorem userByte_eq_some : userByte m pgdir addr = some byte ↔
    Present (pgdir.pte addr) ∧ m.bytes (pte2page (pgdir.pte addr)) (addr % PGSIZE) = byte := by
  unfold userByte
  split
  · rename_i hpresent
    rw [Option.some_inj, and_iff_right hpresent]
  · rename_i habsent
    exact iff_of_false nofun fun h ↦ habsent h.1

/-- The frame of a present entry is one that the directory holds. -/
theorem mem_frames_of_present (h : Present (pgdir.pte addr)) :
    pte2page (pgdir.pte addr) ∈ pgdir.frames := by
  cases hentry : pgdir.getPte addr with
  | none =>
    rw [Table.pte, hentry] at h
    exact absurd h not_present_zero
  | some value =>
    have hvalue : pgdir.pte addr = value := by
      rw [Table.pte, hentry]
      rfl
    rw [hvalue] at h ⊢
    have hpages := pages_setPte hentry 0
    rw [pageOf_zero, add_zero, pageOf_present h] at hpages
    refine Multiset.mem_add.mpr (Or.inl ?_)
    rw [← hpages]
    exact Multiset.mem_add.mpr (Or.inr (Multiset.mem_singleton_self _))

/-! ## Mapping a page -/

theorem pageInsert_pte (h : (pageInsert m pgdir page la perm).1 = true) (addr : ℕ) :
    (pageInsert m pgdir page la perm).2.2.pte addr =
      if SamePlace la addr then pteCreate page (PTE_V ||| perm) else pgdir.pte addr := by
  have hcreated := created_createPte m pgdir la
  rw [pageInsert_eq] at h ⊢
  rcases hcreate : createPte m pgdir la with ⟨found, after, dir⟩
  rw [hcreate] at hcreated h
  cases found with
  | false => cases h
  | true =>
    rcases hcreated.grown with ⟨new, hgrown⟩
    change (dir.setPte la (pteCreate page (PTE_V ||| perm))).pte addr = _
    rw [pte_setPte (hcreated.pointer rfl)]
    exact congrArg _ (hgrown.pte addr)

/-- Mapping a page changes no byte of a frame. -/
theorem pageInsert_same (m : Memory) (pgdir : Pgdir) (page : Frame) (la perm : ℕ) :
    (pageInsert m pgdir page la perm).2.1.bytes = m.bytes ∧
      (pageInsert m pgdir page la perm).2.1.checkMm = m.checkMm := by
  have hcreated := created_createPte m pgdir la
  rw [pageInsert_eq]
  rcases hcreate : createPte m pgdir la with ⟨found, after, dir⟩
  rw [hcreate] at hcreated
  rcases hcreated.grown with ⟨new, hgrown⟩
  have hafter : after.bytes = m.bytes ∧ after.checkMm = m.checkMm := by
    have hmemory := hgrown.memory
    dsimp only at hmemory
    rw [hmemory]
    exact ⟨rfl, rfl⟩
  have hexchange : ∀ old, (after.exchange page old).bytes = after.bytes ∧
      (after.exchange page old).checkMm = after.checkMm := by
    intro old
    unfold Memory.exchange Memory.drop
    dsimp only
    split
    · split
      · exact ⟨rfl, rfl⟩
      · split <;> exact ⟨rfl, rfl⟩
    · exact ⟨rfl, rfl⟩
  cases found with
  | false => exact hafter
  | true => exact ⟨(hexchange _).1.trans hafter.1, (hexchange _).2.trans hafter.2⟩

/-- A page that was free is mapped at one address. -/
structure NewPage (ctx : Multiset Frame) (m m' : Memory) (pgdir pgdir' : Pgdir) (la perm : ℕ)
    (page : Frame) : Prop where
  accounts : Accounts m' (ctx + pgdir'.frames)
  bytes : m'.bytes = m.bytes
  unheld : page ∉ ctx + pgdir.frames
  pte : ∀ addr, pgdir'.pte addr =
    if SamePlace la addr then pteCreate page (PTE_V ||| perm) else pgdir.pte addr

/-- `pgdir_alloc_page` outside the checks for swapping returns, with a new page or with none. -/
theorem pgdirAllocPage_returns (h : Accounts m (ctx + pgdir.frames)) (hcheck : m.checkMm = none)
    (la : ℕ) (hperm : perm < 2 ^ 10) : ∃ found m' pgdir',
      pgdirAllocPage m pgdir la perm = .ok (found, m', pgdir') ∧ m'.checkMm = none ∧
      ∀ page ∈ found, NewPage ctx m m' pgdir pgdir' la perm page := by
  have hcases : ∀ result, pgdirAllocPage m pgdir la perm = .ok result →
      Exact m result.2.1 (ctx + pgdir.frames) (ctx + result.2.2.frames) :=
    fun _ heq ↦ exact_pgdirAllocPage h hperm (pgdirAllocPage_ok heq)
  rw [pgdirAllocPage, Memory.allocPage] at hcases ⊢
  cases hfree : m.free with
  | nil => exact ⟨none, m, pgdir, rfl, hcheck, fun _ hnone ↦ by cases hnone⟩
  | cons page rest =>
    rw [hfree] at hcases
    dsimp only at hcases ⊢
    have hsame := pageInsert_same { m with free := rest } pgdir page la perm
    have hpte : (pageInsert { m with free := rest } pgdir page la perm).1 = true → ∀ addr,
        (pageInsert { m with free := rest } pgdir page la perm).2.2.pte addr =
          if SamePlace la addr then pteCreate page (PTE_V ||| perm) else pgdir.pte addr :=
      pageInsert_pte
    rcases hinsert : pageInsert { m with free := rest } pgdir page la perm with ⟨mapped, after, dir⟩
    rw [hinsert] at hsame hpte hcases
    have hafter : after.checkMm = none := hsame.2.trans hcheck
    cases mapped with
    | false => exact ⟨none, _, dir, rfl, hafter, fun _ hnone ↦ by cases hnone⟩
    | true =>
      have hquiet : after.checkSwappable page la = .ok after := by
        unfold Memory.checkSwappable
        rw [hafter]
        exact ite_self _
      dsimp only at hcases ⊢
      rw [hquiet] at hcases ⊢
      refine ⟨some page, after, dir, rfl, hafter, fun other hother ↦ ?_⟩
      cases hother
      exact ⟨(hcases _ rfl).accounts, hsame.1, (h.allocPage hfree).2.2, hpte rfl⟩

/-! ## One page on its own -/

/-- The page is mapped at the address, and nowhere else. -/
structure OwnPage (pgdir : Pgdir) (la : ℕ) (page : Frame) : Prop where
  present : Present (pgdir.pte la)
  frame : pte2page (pgdir.pte la) = page
  alone : ∀ addr, Present (pgdir.pte addr) → pte2page (pgdir.pte addr) = page → SamePlace la addr

theorem NewPage.own (h : NewPage ctx m m' pgdir pgdir' la perm page) (hperm : perm < 2 ^ 10) :
    OwnPage pgdir' la page := by
  have hla : pgdir'.pte la = pteCreate page (PTE_V ||| perm) := (h.pte la).trans (if_pos ⟨rfl, rfl, rfl⟩)
  refine ⟨hla ▸ present_pteCreate page _, ?_, fun addr hpresent hpage ↦ ?_⟩
  · rw [hla]
    exact pte2page_pteCreate page (Nat.or_lt_two_pow (by decide) hperm)
  · by_contra hother
    have hold : pgdir'.pte addr = pgdir.pte addr := (h.pte addr).trans (if_neg hother)
    rw [hold] at hpresent hpage
    exact h.unheld (Multiset.mem_add.mpr (Or.inr (hpage ▸ mem_frames_of_present hpresent)))

/-- Other pages are read as before. -/
theorem NewPage.userByte_of_not (h : NewPage ctx m m' pgdir pgdir' la perm page)
    (hother : ¬SamePlace la addr) : userByte m' pgdir' addr = userByte m pgdir addr := by
  have hold : pgdir'.pte addr = pgdir.pte addr := (h.pte addr).trans (if_neg hother)
  rw [userByte, userByte, hold, h.bytes]

theorem store_eq (m : Memory) (page : Frame) (bytes : ℕ → UInt8) (hinside : off + size ≤ PGSIZE) :
    m.store page off size bytes = .ok { m with bytes := Function.update m.bytes page fun index ↦
      if off ≤ index ∧ index < off + size then bytes (index - off) else m.bytes page index } := by
  rw [Memory.store, Outcome.require_of_true hinside]
  rfl

/-- A store in a page is read at its addresses and at no other. -/
theorem OwnPage.userByte_store (h : OwnPage pgdir la page)
    (hstore : m.store page off size bytes = .ok m') (addr : ℕ) :
    userByte m' pgdir addr =
      if SamePlace la addr ∧ off ≤ addr % PGSIZE ∧ addr % PGSIZE < off + size then
        some (bytes (addr % PGSIZE - off))
      else userByte m pgdir addr := by
  rcases Outcome.bind_eq_ok.mp hstore with ⟨_, -, hstore⟩
  cases hstore
  -- the page first, and then the others
  by_cases hsame : SamePlace la addr
  · have hpte : pgdir.pte addr = pgdir.pte la := (pte_congr hsame).symm
    rw [userByte, userByte, hpte, if_pos h.present, if_pos h.present, h.frame]
    dsimp only
    rw [Function.update_self]
    by_cases hin : off ≤ addr % PGSIZE ∧ addr % PGSIZE < off + size
    · rw [if_pos hin, if_pos ⟨hsame, hin⟩]
    · rw [if_neg hin, if_neg fun hboth ↦ hin hboth.2]
  · rw [if_neg fun hboth ↦ hsame hboth.1, userByte, userByte]
    by_cases hpresent : Present (pgdir.pte addr)
    · have hpage : pte2page (pgdir.pte addr) ≠ page := fun heq ↦ hsame (h.alone addr hpresent heq)
      rw [if_pos hpresent, if_pos hpresent]
      exact congrArg (fun page : ℕ → UInt8 ↦ some (page (addr % PGSIZE)))
        (Function.update_of_ne hpage ..)
    · rw [if_neg hpresent, if_neg hpresent]

end View

end Ucore.Mm
