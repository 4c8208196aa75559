import Ucore.Library.Run
import Ucore.Mm.PageTableFrames
import Mathlib.Algebra.Order.BigOperators.Group.Finset

/-!
# Reference counts of frames

Any number of directories, in which pages are mapped and unmapped. The count of a frame is how many
present entries lead to it, whatever has failed for lack of memory on the way.
-/

namespace Ucore.Mm

open Library

/-! ## One frame more, one frame less -/

section Accounts

variable {m m' : Memory} {held : Multiset Frame} {page : Frame} {pgdir pgdir' : Pgdir}
  {new : List Frame} {la : ℕ}

/-- Each count is how often the frame is held, and free frames are not held. -/
structure Accounts (m : Memory) (held : Multiset Frame) : Prop where
  ref : ∀ frame, m.ref frame = held.count frame
  nodup : m.free.Nodup
  unused : ∀ frame ∈ m.free, frame ∉ held

theorem drop_of_last (h : m.ref page - 1 = 0) :
    m.drop page = (m.setRef page (m.ref page - 1)).freePage page :=
  if_pos ((Function.update_self ..).trans h)

theorem drop_of_more (h : m.ref page - 1 ≠ 0) : m.drop page = m.setRef page (m.ref page - 1) :=
  if_neg fun hzero ↦ h ((Function.update_self ..).symm.trans hzero)

theorem Accounts.setRef (h : Accounts m held) (hpage : page ∉ m.free) :
    Accounts (m.setRef page (m.ref page + 1)) (page ::ₘ held) where
  ref := by
    intro frame
    change Function.update m.ref page (m.ref page + 1) frame = _
    by_cases hframe : frame = page
    · subst hframe
      rw [Function.update_self, Multiset.count_cons_self, h.ref]
      rfl
    · rw [Function.update_of_ne hframe, Multiset.count_cons_of_ne hframe]
      exact h.ref frame
  nodup := h.nodup
  unused := by
    intro frame hfree hmem
    rcases Multiset.mem_cons.mp hmem with rfl | hmem
    · exact hpage hfree
    · exact h.unused frame hfree hmem

theorem drop_free (h : Accounts m (page ::ₘ held)) :
    (m.drop page).free = if page ∈ held then m.free else page :: m.free := by
  have hzero : m.ref page - 1 = 0 ↔ page ∉ held := by
    rw [h.ref, Multiset.count_cons_self, ← Multiset.count_eq_zero]
    push_cast
    omega
  by_cases hmem : page ∈ held
  · rw [drop_of_more fun heq ↦ hzero.mp heq hmem, if_pos hmem]
    rfl
  · rw [drop_of_last (hzero.mpr hmem), if_neg hmem]
    rfl

theorem drop_ref (m : Memory) (page : Frame) :
    (m.drop page).ref = Function.update m.ref page (m.ref page - 1) := by
  by_cases hzero : m.ref page - 1 = 0
  · rw [drop_of_last hzero, hzero]
    exact Function.update_idem ..
  · rw [drop_of_more hzero]
    rfl

theorem Accounts.drop (h : Accounts m (page ::ₘ held)) : Accounts (m.drop page) held where
  ref := by
    intro frame
    rw [drop_ref]
    by_cases hframe : frame = page
    · subst hframe
      rw [Function.update_self, h.ref, Multiset.count_cons_self]
      push_cast
      exact add_sub_cancel_right ..
    · rw [Function.update_of_ne hframe, h.ref, Multiset.count_cons_of_ne hframe]
  nodup := by
    rw [drop_free h]
    split
    · exact h.nodup
    · exact List.nodup_cons.mpr ⟨fun hfree ↦ h.unused page hfree (Multiset.mem_cons_self ..), h.nodup⟩
  unused := by
    intro frame hfree hmem
    rw [drop_free h] at hfree
    have hold : frame ∉ m.free := fun hin ↦ h.unused frame hin (Multiset.mem_cons_of_mem hmem)
    split at hfree
    · exact hold hfree
    · rename_i hpage
      rcases List.mem_cons.mp hfree with rfl | hfree
      · exact hpage hmem
      · exact hold hfree

theorem Accounts.grown (h : Accounts m held) (hgrown : Grown m m' pgdir pgdir' new) :
    Accounts m' (held + new) where
  ref := by
    intro frame
    rw [hgrown.memory, Multiset.count_add, Multiset.coe_count]
    have hnodup : new.Nodup := (List.nodup_append.mp (hgrown.free ▸ h.nodup)).1
    by_cases hmem : frame ∈ new
    · have hfree : frame ∈ m.free := hgrown.free ▸ List.mem_append_left _ hmem
      rw [Multiset.count_eq_zero.mpr (h.unused frame hfree), List.count_eq_one_of_mem hnodup hmem]
      exact if_pos hmem
    · rw [List.count_eq_zero.mpr hmem, Nat.add_zero, ← h.ref]
      exact if_neg hmem
  nodup := (List.nodup_append.mp (hgrown.free ▸ h.nodup)).2.1
  unused := by
    intro frame hfree hmem
    rcases Multiset.mem_add.mp hmem with hmem | hmem
    · exact h.unused frame (hgrown.free ▸ List.mem_append_right _ hfree) hmem
    · have hapart := (List.nodup_append.mp (hgrown.free ▸ h.nodup)).2.2
      exact hapart frame (Multiset.mem_coe.mp hmem) frame hfree rfl

/-- References have been dropped, and the frames freed that have lost their last one. -/
structure Dropped (m m' : Memory) (held held' : Multiset Frame) : Prop where
  accounts : Accounts m' held'
  le : held' ≤ held
  keep : ∀ frame ∈ m.free, frame ∈ m'.free
  freed : ∀ frame, frame ∉ m.free → (frame ∈ m'.free ↔ frame ∈ held ∧ frame ∉ held')

variable {m'' : Memory} {held' held'' ctx : Multiset Frame} {value : ℕ}

theorem Dropped.refl (h : Accounts m held) : Dropped m m held held where
  accounts := h
  le := le_rfl
  keep := fun _ hfree ↦ hfree
  freed := fun _ hfree ↦ iff_of_false hfree fun hboth ↦ hboth.2 hboth.1

theorem Dropped.trans (h : Dropped m m' held held') (h' : Dropped m' m'' held' held'') :
    Dropped m m'' held held'' where
  accounts := h'.accounts
  le := h'.le.trans h.le
  keep := fun frame hfree ↦ h'.keep frame (h.keep frame hfree)
  freed := by
    intro frame hfree
    constructor
    · intro hlast
      by_cases hmiddle : frame ∈ m'.free
      · have hlost := (h.freed frame hfree).mp hmiddle
        exact ⟨hlost.1, fun hmem ↦ hlost.2 (Multiset.mem_of_le h'.le hmem)⟩
      · have hlost := (h'.freed frame hmiddle).mp hlast
        exact ⟨Multiset.mem_of_le h.le hlost.1, hlost.2⟩
    · rintro ⟨hmem, hlost⟩
      by_cases hmiddle : frame ∈ held'
      · have hused : frame ∉ m'.free := fun hfree' ↦ h.accounts.unused frame hfree' hmiddle
        exact (h'.freed frame hused).mpr ⟨hmiddle, hlost⟩
      · exact h'.keep frame ((h.freed frame hfree).mpr ⟨hmem, hmiddle⟩)

theorem dropped_drop (h : Accounts m (page ::ₘ held)) :
    Dropped m (m.drop page) (page ::ₘ held) held where
  accounts := h.drop
  le := Multiset.le_cons_self ..
  keep := by
    intro frame hfree
    rw [drop_free h]
    split
    · exact hfree
    · exact List.mem_cons_of_mem _ hfree
  freed := by
    intro frame hfree
    rw [drop_free h]
    split
    · rename_i hmem
      refine iff_of_false hfree ?_
      rintro ⟨hin, hout⟩
      rcases Multiset.mem_cons.mp hin with rfl | hin
      · exact hout hmem
      · exact hout hin
    · rename_i hmem
      constructor
      · intro hin
        rcases List.mem_cons.mp hin with rfl | hin
        · exact ⟨Multiset.mem_cons_self .., hmem⟩
        · exact absurd hin hfree
      · rintro ⟨hin, hout⟩
        rcases Multiset.mem_cons.mp hin with rfl | hin
        · exact List.mem_cons_self ..
        · exact absurd hin hout

/-! ## One directory -/

/-- The frames that a directory holds: those mapped in it and those of its tables. -/
def Table.frames (pgdir : Pgdir) : Multiset Frame := pgdir.pages + pgdir.tables

theorem pageOf_present (h : Present value) : pageOf value = {pte2page value} := if_pos h

theorem pageOf_not_present (h : ¬Present value) : pageOf value = 0 := if_neg h

theorem frames_setPte {old : ℕ} (h : pgdir.getPte la = some old) (value : ℕ) :
    (pgdir.setPte la value).frames + pageOf old = pgdir.frames + pageOf value := by
  rw [Table.frames, Table.frames, tables_setPte, add_right_comm, pages_setPte h, add_right_comm]

theorem dropped_pageRemovePte (h : Accounts m (ctx + pgdir.frames))
    (hpte : pgdir.getPte la = some value) :
    Dropped m (pageRemovePte m pgdir la value).1 (ctx + pgdir.frames)
      (ctx + (pageRemovePte m pgdir la value).2.frames) := by
  unfold pageRemovePte
  split
  · rename_i hpresent
    have hheld := frames_setPte hpte 0
    rw [pageOf_zero, add_zero, pageOf_present hpresent] at hheld
    have hcons : ctx + pgdir.frames = pte2page value ::ₘ (ctx + (pgdir.setPte la 0).frames) := by
      rw [← hheld, ← add_assoc, add_comm _ {pte2page value}, Multiset.singleton_add]
    rw [hcons] at h ⊢
    exact dropped_drop h
  · exact Dropped.refl h

theorem getPte_pageRemovePte_isSome (hpte : pgdir.getPte la = some value) :
    ((pageRemovePte m pgdir la value).2.getPte la).isSome := by
  have hsome : (pgdir.getPte la).isSome := by
    rw [hpte]
    rfl
  unfold pageRemovePte
  split
  · rw [getPte_setPte_same hsome ⟨rfl, rfl, rfl⟩]
    rfl
  · exact hsome

theorem dropped_pageRemove (h : Accounts m (ctx + pgdir.frames)) (la : ℕ) :
    Dropped m (pageRemove m pgdir la).1 (ctx + pgdir.frames)
      (ctx + (pageRemove m pgdir la).2.frames) := by
  unfold pageRemove
  split
  · exact Dropped.refl h
  · rename_i value hpte
    exact dropped_pageRemovePte h hpte

theorem dropped_unmapLoop {fuel start stop : ℕ} (h : Accounts m (ctx + pgdir.frames))
    (hcall : unmapLoop fuel m pgdir start stop = .ok (m', pgdir')) :
    Dropped m m' (ctx + pgdir.frames) (ctx + pgdir'.frames) := by
  induction fuel generalizing m pgdir start with
  | zero => cases hcall
  | succ fuel ih =>
    -- what one round has done, wherever it goes on
    have hround : ∀ {after : Memory} {dir : Pgdir} {next : ℕ},
        Dropped m after (ctx + pgdir.frames) (ctx + dir.frames) →
        (if next ≠ 0 ∧ next < stop then unmapLoop fuel after dir next stop else .ok (after, dir)) =
          .ok (m', pgdir') →
        Dropped m m' (ctx + pgdir.frames) (ctx + pgdir'.frames) := by
      intro after dir next hdropped hrest
      split at hrest
      · exact hdropped.trans (ih hdropped.accounts hrest)
      · cases hrest
        exact hdropped
    rw [unmapLoop] at hcall
    cases hpte : pgdir.getPte start with
    | none =>
      rw [hpte] at hcall
      exact hround (Dropped.refl h) hcall
    | some value =>
      rw [hpte] at hcall
      dsimp only at hcall
      by_cases hzero : value = 0
      · rw [if_neg (not_not.mpr hzero)] at hcall
        exact hround (Dropped.refl h) hcall
      · rw [if_pos hzero] at hcall
        exact hround (dropped_pageRemovePte h hpte) hcall

/-! ## Inserting a page -/

/-- The counts are right afterwards, and the frames that have lost their last reference are free. -/
structure Exact (m m' : Memory) (held held' : Multiset Frame) : Prop where
  accounts : Accounts m' held'
  freed : ∀ frame, frame ∉ m.free → (frame ∈ m'.free ↔ frame ∈ held ∧ frame ∉ held')

theorem Dropped.exact (h : Dropped m m' held held') : Exact m m' held held' := ⟨h.accounts, h.freed⟩

/-- A change of the free list that leaves frames in use alone. -/
theorem Exact.of_le (h : Accounts m' held') (hle : held ≤ held')
    (hfree : ∀ frame, frame ∉ m.free → frame ∉ m'.free) : Exact m m' held held' :=
  ⟨h, fun frame hused ↦ iff_of_false (hfree frame hused) fun hboth ↦
    hboth.2 (Multiset.mem_of_le hle hboth.1)⟩

/-- What `page_insert` does to the counts, given the old entry. -/
def Memory.exchange (m : Memory) (page : Frame) (old : ℕ) : Memory :=
  let m := m.setRef page (m.ref page + 1)
  if Present old then
    if pte2page old = page then m.setRef page (m.ref page - 1) else m.drop (pte2page old)
  else m

theorem setPte_setPte (pgdir : Pgdir) (la first second : ℕ) :
    (pgdir.setPte la first).setPte la second = pgdir.setPte la second := by
  cases hpd0 : pgdir.entry (PDX1 la) with
  | none =>
    have hsame : pgdir.setPte la first = pgdir := by rw [Table.setPte, hpd0]
    rw [hsame]
  | some pd0 =>
    cases hpt : pd0.entry (PDX0 la) with
    | none =>
      have hsame : pgdir.setPte la first = pgdir := by
        rw [Table.setPte, hpd0]
        dsimp only
        rw [hpt]
      rw [hsame]
    | some pt =>
      rw [setPte_eq hpd0 hpt, setPte_eq hpd0 hpt, setPte_eq (set_self ..) (set_self ..), set_set,
        set_set, set_set]

theorem pageInsert_eq (m : Memory) (pgdir : Pgdir) (page : Frame) (la perm : ℕ) :
    pageInsert m pgdir page la perm =
      let (found, m, pgdir) := createPte m pgdir la
      if found then (true, m.exchange page (pgdir.pte la),
        pgdir.setPte la (pteCreate page (PTE_V ||| perm)))
      else (false, m, pgdir) := by
  unfold pageInsert
  rcases createPte m pgdir la with ⟨found, after, dir⟩
  dsimp only
  split
  · unfold Memory.exchange Table.pte
    dsimp only
    split
    · split
      · rfl
      · unfold pageRemovePte
        rename_i hpresent _
        rw [if_pos hpresent, setPte_setPte]
    · rfl
  · rfl

theorem exchange_same (h : Present value) (hpage : pte2page value = page) :
    m.exchange page value = m := by
  unfold Memory.exchange
  dsimp only
  rw [if_pos h, if_pos hpage]
  unfold Memory.setRef
  dsimp only
  rw [Function.update_self, Function.update_idem, add_sub_cancel_right, Function.update_eq_self]

theorem exact_exchange (h : Accounts m held) (hpage : page ∉ m.free)
    (hheld : held' + pageOf value = page ::ₘ held) :
    Exact m (m.exchange page value) held held' := by
  have hmore := h.setRef hpage
  by_cases hpresent : Present value
  · rw [pageOf_present hpresent, add_comm, Multiset.singleton_add] at hheld
    by_cases hsame : pte2page value = page
    · rw [hsame] at hheld
      have heq : held' = held := (Multiset.cons_inj_right page).mp hheld
      rw [exchange_same hpresent hsame, heq]
      exact (Dropped.refl h).exact
    · -- the frame mapped before loses a reference, and the new page is held
      have heq : m.exchange page value =
          (m.setRef page (m.ref page + 1)).drop (pte2page value) := by
        unfold Memory.exchange
        dsimp only
        rw [if_pos hpresent, if_neg hsame]
      rw [← hheld] at hmore
      have hdropped := dropped_drop hmore
      rw [heq]
      refine ⟨hdropped.accounts, fun frame hused ↦ (hdropped.freed frame hused).trans ?_⟩
      apply and_congr_left
      intro hlost
      rw [hheld, Multiset.mem_cons]
      constructor
      · rintro (rfl | hmem)
        · have hin : frame ∈ pte2page value ::ₘ held' := hheld ▸ Multiset.mem_cons_self ..
          rcases Multiset.mem_cons.mp hin with heq' | hin
          · exact absurd heq'.symm hsame
          · exact absurd hin hlost
        · exact hmem
      · exact Or.inr
  · rw [pageOf_not_present hpresent, add_zero] at hheld
    have heq : m.exchange page value = m.setRef page (m.ref page + 1) := if_neg hpresent
    rw [heq, hheld]
    exact Exact.of_le hmore (Multiset.le_cons_self ..) fun _ hused ↦ hused

/-- The state after `page_insert`, whether the page is mapped or not. -/
theorem exact_pageInsert (h : Accounts m (ctx + pgdir.frames)) (hpage : page ∉ m.free) {perm : ℕ}
    (hperm : perm < 2 ^ 10) : Exact m (pageInsert m pgdir page la perm).2.1 (ctx + pgdir.frames)
      (ctx + (pageInsert m pgdir page la perm).2.2.frames) := by
  have hcreated := created_createPte m pgdir la
  rw [pageInsert_eq]
  rcases hcreate : createPte m pgdir la with ⟨found, after, dir⟩
  rw [hcreate] at hcreated
  dsimp only at hcreated ⊢
  rcases hcreated.grown with ⟨new, hgrown⟩
  have hframes : ctx + dir.frames = ctx + pgdir.frames + new := by
    rw [Table.frames, Table.frames, hgrown.pages, hgrown.tables]
    simp only [add_assoc]
  have hafter : Accounts after (ctx + dir.frames) := by
    rw [hframes]
    exact h.grown hgrown
  have hused : ∀ frame, frame ∉ m.free → frame ∉ new ∧ frame ∉ after.free := by
    intro frame hfree
    rw [hgrown.free] at hfree
    exact ⟨fun hin ↦ hfree (List.mem_append_left _ hin),
      fun hin ↦ hfree (List.mem_append_right _ hin)⟩
  cases found with
  | false =>
    rw [if_neg Bool.false_ne_true]
    refine Exact.of_le hafter ?_ fun frame hfree ↦ (hused frame hfree).2
    rw [hframes]
    exact Multiset.le_add_right ..
  | true =>
    rw [if_pos rfl]
    rcases Option.isSome_iff_exists.mp (hcreated.pointer rfl) with ⟨old, hold⟩
    have hpte : dir.pte la = old := by
      rw [Table.pte, hold]
      rfl
    have hlow : PTE_V ||| perm < 2 ^ 10 := Nat.or_lt_two_pow (by decide) hperm
    have hheld := frames_setPte hold (pteCreate page (PTE_V ||| perm))
    rw [pageOf_present (present_pteCreate page _), pte2page_pteCreate page hlow] at hheld
    have hall : ctx + (dir.setPte la (pteCreate page (PTE_V ||| perm))).frames + pageOf old =
        page ::ₘ (ctx + dir.frames) := by
      rw [add_assoc, hheld, ← add_assoc, ← Multiset.singleton_add]
      exact add_comm ..
    have hexact := exact_exchange hafter (hused page hpage).2 hall
    rw [hpte]
    refine ⟨hexact.accounts, fun frame hfree ↦ (hexact.freed frame (hused frame hfree).2).trans ?_⟩
    apply and_congr_left
    intro _
    rw [hframes, Multiset.mem_add, Multiset.mem_coe]
    exact or_iff_left (hused frame hfree).1

theorem createPte_of_some (hpte : pgdir.getPte la = some value) :
    createPte m pgdir la = (true, m, pgdir) := by
  rcases getPte_eq_some.mp hpte with ⟨pd0, pt, hpd0, hpt, -⟩
  rw [createPte, hpd0]
  dsimp only
  rw [createPt, hpt]
  dsimp only
  rw [← hpd0, set_entry]

/-- A `page_insert` that fails has only made tables. -/
theorem grown_pageInsert {perm : ℕ} (hfailed : (pageInsert m pgdir page la perm).1 = false) :
    ∃ new, Grown m (pageInsert m pgdir page la perm).2.1 pgdir
      (pageInsert m pgdir page la perm).2.2 new := by
  have hcreated := created_createPte m pgdir la
  rw [pageInsert_eq] at hfailed ⊢
  rcases hcreate : createPte m pgdir la with ⟨found, after, dir⟩
  rw [hcreate] at hcreated hfailed
  cases found with
  | false => exact hcreated.grown
  | true => cases hfailed

theorem Accounts.freePage (h : Accounts m held) (hfree : page ∉ m.free) (hheld : page ∉ held) :
    Accounts (m.freePage page) held where
  ref := by
    intro frame
    change Function.update m.ref page 0 frame = _
    by_cases hframe : frame = page
    · subst hframe
      rw [Function.update_self, Multiset.count_eq_zero.mpr hheld]
      rfl
    · rw [Function.update_of_ne hframe]
      exact h.ref frame
  nodup := List.nodup_cons.mpr ⟨hfree, h.nodup⟩
  unused := by
    intro frame hin
    rcases List.mem_cons.mp hin with rfl | hin
    · exact hheld
    · exact h.unused frame hin

theorem Accounts.allocPage (h : Accounts m held) {rest : List Frame}
    (hfree : m.free = page :: rest) :
    Accounts { m with free := rest } held ∧ page ∉ rest ∧ page ∉ held := by
  have hnodup := List.nodup_cons.mp (hfree ▸ h.nodup)
  exact ⟨⟨h.ref, hnodup.2, fun frame hin ↦ h.unused frame (hfree ▸ List.mem_cons_of_mem _ hin)⟩,
    hnodup.1, h.unused page (hfree ▸ List.mem_cons_self ..)⟩

theorem checkSwappable_ok (h : m.checkSwappable page la = .ok m') :
    m'.free = m.free ∧ m'.ref = m.ref := by
  unfold Memory.checkSwappable at h
  split at h
  · split at h
    · rcases Outcome.bind_eq_ok.mp h with ⟨queued, hswap, h⟩
      rcases Outcome.bind_eq_ok.mp hswap with ⟨_, -, hswap⟩
      rcases Outcome.bind_eq_ok.mp h with ⟨_, -, h⟩
      cases hswap
      cases h
      exact ⟨rfl, rfl⟩
    · cases h
      exact ⟨rfl, rfl⟩
  · cases h
    exact ⟨rfl, rfl⟩

/-- What `pgdir_alloc_page` leaves when it fails, and what it maps otherwise. -/
inductive Allocated (m m' : Memory) (pgdir pgdir' : Pgdir) (la perm : ℕ) : Option Frame → Prop
  | full (hfree : m.free = []) (hmemory : m' = m) (hpgdir : pgdir' = pgdir) :
    Allocated m m' pgdir pgdir' la perm none
  | noTable {page : Frame} {rest new : List Frame} {after : Memory} (hfree : m.free = page :: rest)
    (hgrown : Grown { m with free := rest } after pgdir pgdir' new)
    (hmemory : m' = after.freePage page) : Allocated m m' pgdir pgdir' la perm none
  | mapped {page : Frame} {rest : List Frame} {after : Memory} (hfree : m.free = page :: rest)
    (hinsert : pageInsert { m with free := rest } pgdir page la perm = (true, after, pgdir'))
    (hsame : m'.free = after.free ∧ m'.ref = after.ref) :
    Allocated m m' pgdir pgdir' la perm (some page)

theorem pgdirAllocPage_ok {perm : ℕ} {found : Option Frame}
    (h : pgdirAllocPage m pgdir la perm = .ok (found, m', pgdir')) :
    Allocated m m' pgdir pgdir' la perm found := by
  rw [pgdirAllocPage, Memory.allocPage] at h
  cases hfree : m.free with
  | nil =>
    rw [hfree] at h
    cases h
    exact .full hfree rfl rfl
  | cons page rest =>
    rw [hfree] at h
    dsimp only at h
    rcases hinsert : pageInsert { m with free := rest } pgdir page la perm with ⟨mapped, after, dir⟩
    rw [hinsert] at h
    cases mapped with
    | false =>
      cases h
      rcases grown_pageInsert (congrArg Prod.fst hinsert) with ⟨new, hgrown⟩
      rw [hinsert] at hgrown
      exact .noTable hfree hgrown rfl
    | true =>
      dsimp only at h
      rcases Outcome.bind_eq_ok.mp h with ⟨last, hqueue, h⟩
      cases h
      exact .mapped hfree hinsert (checkSwappable_ok hqueue)

theorem Accounts.of_eq (h : Accounts m held) (hfree : m'.free = m.free) (href : m'.ref = m.ref) :
    Accounts m' held :=
  ⟨href ▸ h.ref, hfree ▸ h.nodup, hfree ▸ h.unused⟩

theorem exact_pgdirAllocPage (h : Accounts m (ctx + pgdir.frames)) {perm : ℕ} {found : Option Frame}
    (hperm : perm < 2 ^ 10) (hallocated : Allocated m m' pgdir pgdir' la perm found) :
    Exact m m' (ctx + pgdir.frames) (ctx + pgdir'.frames) := by
  cases hallocated with
  | full hfree hmemory hpgdir =>
    rw [hmemory, hpgdir]
    exact (Dropped.refl h).exact
  | @noTable page rest new after hfree hgrown hmemory =>
    rcases h.allocPage hfree with ⟨hrest, hpage, hheld⟩
    have hframes : ctx + pgdir'.frames = ctx + pgdir.frames + new := by
      rw [Table.frames, Table.frames, hgrown.pages, hgrown.tables]
      simp only [add_assoc]
    have hnew : rest = new ++ after.free := hgrown.free
    have hafter := hrest.grown hgrown
    rw [← hframes] at hafter
    have hlast := hafter.freePage (fun hin ↦ hpage (hnew ▸ List.mem_append_right _ hin)) (by
      rw [hframes, Multiset.mem_add, Multiset.mem_coe]
      rintro (hin | hin)
      · exact hheld hin
      · exact hpage (hnew ▸ List.mem_append_left _ hin))
    rw [hmemory]
    refine Exact.of_le hlast ?_ fun frame hused hin ↦ hused ?_
    · rw [hframes]
      exact Multiset.le_add_right ..
    · rw [hfree, hnew]
      rcases List.mem_cons.mp hin with rfl | hin
      · exact List.mem_cons_self ..
      · exact List.mem_cons_of_mem _ (List.mem_append_right _ hin)
  | @mapped page rest after hfree hinsert hsame =>
    rcases h.allocPage hfree with ⟨hrest, hpage, -⟩
    have hresult : ∀ result, pageInsert { m with free := rest } pgdir page la perm = result →
        Exact { m with free := rest } result.2.1 (ctx + pgdir.frames)
          (ctx + result.2.2.frames) :=
      fun _ heq ↦ heq ▸ exact_pageInsert hrest hpage hperm
    have hexact := hresult _ hinsert
    refine ⟨hexact.accounts.of_eq hsame.1 hsame.2, fun frame hused ↦ ?_⟩
    rw [hsame.1]
    exact hexact.freed frame fun hin ↦ hused (hfree ▸ List.mem_cons_of_mem _ hin)

end Accounts

/-! ## Any number of directories -/

/-- The frames of the machine, and the directories that exist. -/
structure Spaces (Dir : Type) where
  memory : Memory
  dirs : Finset Dir
  pgdir : Dir → Pgdir

/-- What the kernel does with directories and pages. -/
inductive PageCall (Dir : Type) where
  /-- `setup_pgdir`. -/
  | setup (dir : Dir)
  | insert (dir : Dir) (page : Frame) (la perm : ℕ)
  | remove (dir : Dir) (la : ℕ)
  | allocPage (dir : Dir) (la perm : ℕ)
  | unmap (dir : Dir) (start stop : ℕ)
  /-- Other parts of the kernel take a frame, or give back one that is not mapped. -/
  | take
  | giveBack (page : Frame)
  /-- The allocator has another order to choose free frames in. -/
  | reorder (free : List Frame)

section System

variable {Dir : Type} [DecidableEq Dir]

namespace Spaces

/-- How often frames are held by the present entries of all directories. -/
def held (w : Spaces Dir) : Multiset Frame := ∑ dir ∈ w.dirs, (w.pgdir dir).frames

/-- A call has changed the memory and one directory. -/
def put (w : Spaces Dir) (dir : Dir) (result : Memory × Pgdir) : Spaces Dir :=
  { w with memory := result.1, pgdir := Function.update w.pgdir dir result.2 }

end Spaces

/-- A page that is inserted has been allocated, and its permissions are bits below the frame. -/
def PageStep (w : Spaces Dir) (call : PageCall Dir) (next : Spaces Dir) : Prop :=
  match call with
  | .setup dir => dir ∉ w.dirs ∧ ∃ frame rest, w.memory.free = frame :: rest ∧
    next = { memory := { w.memory with free := rest }
             dirs := insert dir w.dirs
             pgdir := Function.update w.pgdir dir (Table.clear frame none) }
  | .insert dir page la perm => dir ∈ w.dirs ∧ page ∉ w.memory.free ∧ perm < 2 ^ 10 ∧
    next = w.put dir (pageInsert w.memory (w.pgdir dir) page la perm).2
  | .remove dir la => dir ∈ w.dirs ∧ next = w.put dir (pageRemove w.memory (w.pgdir dir) la)
  | .allocPage dir la perm => dir ∈ w.dirs ∧ perm < 2 ^ 10 ∧ ∃ found result,
    pgdirAllocPage w.memory (w.pgdir dir) la perm = .ok (found, result) ∧ next = w.put dir result
  | .unmap dir start stop => dir ∈ w.dirs ∧ ∃ fuel result,
    unmapRange fuel w.memory (w.pgdir dir) start stop = .ok result ∧ next = w.put dir result
  | .take => next = { w with memory := w.memory.allocPage.2 }
  | .giveBack page => page ∉ w.memory.free ∧ page ∉ w.held ∧
    next = { w with memory := w.memory.freePage page }
  | .reorder free => free.Perm w.memory.free ∧ next = { w with memory := { w.memory with free } }

/-- The frames have been found, and nothing is mapped. -/
structure FirstSpaces (w : Spaces Dir) : Prop where
  dirs : w.dirs = ∅
  ref : ∀ frame, w.memory.ref frame = 0
  nodup : w.memory.free.Nodup

/-- What holds of the counts of all frames, and what one more call does to them. -/
structure CountsKept (w : Spaces Dir) : Prop where
  ref : ∀ frame, w.memory.ref frame = w.held.count frame
  unused : ∀ frame ∈ w.memory.free, frame ∉ w.held
  /-- A frame is freed when its last reference is dropped, and at no other time. -/
  freed : ∀ call next, PageStep w call next → (∀ page, call ≠ .giveBack page) →
    ∀ frame, frame ∉ w.memory.free →
      (frame ∈ next.memory.free ↔ frame ∈ w.held ∧ frame ∉ next.held)
  again : ∀ dir ∈ w.dirs, ∀ page la perm old, page ∉ w.memory.free →
    (w.pgdir dir).getPte la = some old → Present old → pte2page old = page →
      (pageInsert w.memory (w.pgdir dir) page la perm).1 = true ∧
      (pageInsert w.memory (w.pgdir dir) page la perm).2.1 = w.memory
  replaced : ∀ dir ∈ w.dirs, ∀ page la perm old, page ∉ w.memory.free →
    (w.pgdir dir).getPte la = some old → Present old → pte2page old ≠ page →
      (pageInsert w.memory (w.pgdir dir) page la perm).1 = true ∧
      (pageInsert w.memory (w.pgdir dir) page la perm).2.1.ref =
        Function.update (Function.update w.memory.ref page (w.memory.ref page + 1)) (pte2page old)
          (w.memory.ref (pte2page old) - 1)
  /-- Tables are the only frames that a call has left with another count when it fails. -/
  failedInsert : ∀ dir ∈ w.dirs, ∀ page la perm m pgdir,
    pageInsert w.memory (w.pgdir dir) page la perm = (false, m, pgdir) →
      (∀ lb, pgdir.pte lb = (w.pgdir dir).pte lb) ∧
      ∀ frame, frame ∉ w.memory.free ∨ frame ∈ m.free → m.ref frame = w.memory.ref frame
  failedAlloc : ∀ dir ∈ w.dirs, ∀ la perm m pgdir,
    pgdirAllocPage w.memory (w.pgdir dir) la perm = .ok (none, m, pgdir) →
      (∀ lb, pgdir.pte lb = (w.pgdir dir).pte lb) ∧
      ∀ frame, frame ∉ w.memory.free ∨ frame ∈ m.free → m.ref frame = w.memory.ref frame

variable {w next : Spaces Dir} {dir : Dir} {call : PageCall Dir}

/-- The frames held by the other directories. -/
def Spaces.others (w : Spaces Dir) (dir : Dir) : Multiset Frame :=
  ∑ other ∈ w.dirs.erase dir, (w.pgdir other).frames

theorem held_eq (hdir : dir ∈ w.dirs) : w.held = w.others dir + (w.pgdir dir).frames :=
  (Finset.sum_erase_add _ _ hdir).symm

theorem held_put (hdir : dir ∈ w.dirs) (result : Memory × Pgdir) :
    (w.put dir result).held = w.others dir + result.2.frames := by
  have hothers : ∑ other ∈ w.dirs.erase dir, (Function.update w.pgdir dir result.2 other).frames =
      w.others dir := by
    apply Finset.sum_congr rfl
    intro other hother
    rw [Function.update_of_ne (Finset.ne_of_mem_erase hother)]
  have hsum := held_eq (w := w.put dir result) hdir
  change _ = ∑ other ∈ w.dirs.erase dir, (Function.update w.pgdir dir result.2 other).frames +
    (Function.update w.pgdir dir result.2 dir).frames at hsum
  rw [hsum, hothers, Function.update_self]

theorem frames_clear (frame : Frame) : Table.frames (Table.clear frame none : Pgdir) = 0 := by
  have hpages : Table.pages (Table.clear frame none : Pgdir) = 0 :=
    Finset.sum_eq_zero fun _ _ ↦ rfl
  have htables : Table.tables (Table.clear frame none : Pgdir) = 0 :=
    Finset.sum_eq_zero fun _ _ ↦ rfl
  rw [Table.frames, hpages, htables, add_zero]

theorem exact_step (h : Accounts w.memory w.held) (hstep : PageStep w call next)
    (hcall : ∀ page, call ≠ .giveBack page) : Exact w.memory next.memory w.held next.held := by
  cases call with
  | setup dir =>
    rcases hstep with ⟨hdir, frame, rest, hfree, rfl⟩
    have hheld : (insert dir w.dirs).sum (fun other ↦
        (Function.update w.pgdir dir (Table.clear frame none) other).frames) = w.held := by
      rw [Finset.sum_insert hdir, Function.update_self, frames_clear, zero_add]
      apply Finset.sum_congr rfl
      intro other hother
      rw [Function.update_of_ne (ne_of_mem_of_not_mem hother hdir)]
    change Exact w.memory { w.memory with free := rest } w.held (Finset.sum _ _)
    rw [hheld]
    refine Exact.of_le (h.allocPage hfree).1 le_rfl fun other hused hin ↦ hused ?_
    exact hfree ▸ List.mem_cons_of_mem _ hin
  | insert dir page la perm =>
    rcases hstep with ⟨hdir, hpage, hperm, rfl⟩
    rw [held_put hdir]
    rw [held_eq hdir] at h ⊢
    exact exact_pageInsert h hpage hperm
  | remove dir la =>
    rcases hstep with ⟨hdir, rfl⟩
    rw [held_put hdir]
    rw [held_eq hdir] at h ⊢
    exact (dropped_pageRemove h la).exact
  | allocPage dir la perm =>
    rcases hstep with ⟨hdir, hperm, found, result, hok, rfl⟩
    rw [held_put hdir]
    rw [held_eq hdir] at h ⊢
    exact exact_pgdirAllocPage h hperm (pgdirAllocPage_ok hok)
  | unmap dir start stop =>
    rcases hstep with ⟨hdir, fuel, result, hok, rfl⟩
    rw [held_put hdir]
    rw [held_eq hdir] at h ⊢
    rcases Outcome.bind_eq_ok.mp hok with ⟨_, -, hok⟩
    rcases Outcome.bind_eq_ok.mp hok with ⟨_, -, hok⟩
    exact (dropped_unmapLoop h hok).exact
  | take =>
    cases hstep
    cases hfree : w.memory.free with
    | nil =>
      have hsame : w.memory.allocPage.2 = w.memory := by rw [Memory.allocPage, hfree]
      rw [hsame]
      exact (Dropped.refl h).exact
    | cons page rest =>
      have hrest : w.memory.allocPage.2 = { w.memory with free := rest } := by
        rw [Memory.allocPage, hfree]
      rw [hrest]
      refine Exact.of_le (h.allocPage hfree).1 le_rfl fun other hused hin ↦ hused ?_
      exact hfree ▸ List.mem_cons_of_mem _ hin
  | giveBack page => exact absurd rfl (hcall page)
  | reorder free =>
    rcases hstep with ⟨hperm, rfl⟩
    have hfree : Accounts { w.memory with free } w.held :=
      ⟨h.ref, hperm.nodup_iff.mpr h.nodup, fun other hin ↦ h.unused other (hperm.mem_iff.mp hin)⟩
    exact Exact.of_le hfree le_rfl fun other hused hin ↦ hused (hperm.mem_iff.mp hin)

theorem accounts_step (h : Accounts w.memory w.held) (hstep : PageStep w call next) :
    Accounts next.memory next.held := by
  by_cases hcall : ∃ page, call = .giveBack page
  · rcases hcall with ⟨page, rfl⟩
    rcases hstep with ⟨hfree, hheld, rfl⟩
    exact h.freePage hfree hheld
  · exact (exact_step h hstep fun page heq ↦ hcall ⟨page, heq⟩).accounts

theorem accounts_runs (h : Accounts w.memory w.held) {calls : List (PageCall Dir)}
    (hruns : Runs PageStep w calls next) : Accounts next.memory next.held := by
  induction hruns with
  | nil => exact h
  | cons hstep _ ih => exact ih (accounts_step h hstep)

omit [DecidableEq Dir] in
theorem FirstSpaces.accounts (h : FirstSpaces w) : Accounts w.memory w.held := by
  have hheld : w.held = 0 := by
    rw [Spaces.held, h.dirs, Finset.sum_empty]
  rw [hheld]
  exact ⟨h.ref, h.nodup, fun _ _ ↦ Multiset.notMem_zero _⟩

/-- New tables have the count one, and they were free before. -/
theorem Grown.ref {m m' : Memory} {pgdir pgdir' : Pgdir} {new : List Frame} {frame : Frame}
    (h : Grown m m' pgdir pgdir' new) (hnodup : m.free.Nodup)
    (hframe : frame ∉ m.free ∨ frame ∈ m'.free) : m'.ref frame = m.ref frame := by
  have hapart := List.nodup_append.mp (h.free ▸ hnodup)
  have hnew : frame ∉ new := by
    intro hin
    rcases hframe with hout | hfree
    · exact hout (h.free ▸ List.mem_append_left _ hin)
    · exact hapart.2.2 frame hin frame hfree rfl
  rw [h.memory]
  exact if_neg hnew

theorem pageInsert_of_present {m : Memory} {pgdir : Pgdir} {la old : ℕ}
    (hpte : pgdir.getPte la = some old) (page : Frame) (perm : ℕ) :
    pageInsert m pgdir page la perm = (true, m.exchange page old,
      pgdir.setPte la (pteCreate page (PTE_V ||| perm))) := by
  have hold : pgdir.pte la = old := by
    rw [Table.pte, hpte]
    rfl
  rw [pageInsert_eq, createPte_of_some hpte]
  dsimp only
  rw [if_pos rfl, hold]

theorem countsKept_of_accounts (h : Accounts w.memory w.held) : CountsKept w where
  ref := h.ref
  unused := h.unused
  freed := fun _ _ hstep hcall ↦ (exact_step h hstep hcall).freed
  again := by
    intro dir _ page la perm old _ hpte hpresent hpage
    rw [pageInsert_of_present hpte, exchange_same hpresent hpage]
    exact ⟨rfl, rfl⟩
  replaced := by
    intro dir _ page la perm old _ hpte hpresent hpage
    rw [pageInsert_of_present hpte]
    refine ⟨rfl, ?_⟩
    change (w.memory.exchange page old).ref = _
    unfold Memory.exchange
    dsimp only
    rw [if_pos hpresent, if_neg hpage, drop_ref]
    have hother : (w.memory.setRef page (w.memory.ref page + 1)).ref (pte2page old) =
        w.memory.ref (pte2page old) := Function.update_of_ne hpage ..
    rw [hother]
    rfl
  failedInsert := by
    intro dir _ page la perm m pgdir hfailed
    rcases grown_pageInsert (congrArg Prod.fst hfailed) with ⟨new, hgrown⟩
    rw [hfailed] at hgrown
    exact ⟨hgrown.pte, fun frame hframe ↦ hgrown.ref h.nodup hframe⟩
  failedAlloc := by
    intro dir _ la perm m pgdir hfailed
    cases pgdirAllocPage_ok hfailed with
    | full hfree hmemory hpgdir =>
      rw [hmemory, hpgdir]
      exact ⟨fun _ ↦ rfl, fun _ _ ↦ rfl⟩
    | @noTable page rest new after hfree hgrown hmemory =>
      rcases h.allocPage hfree with ⟨hrest, hpage, hheld⟩
      refine ⟨hgrown.pte, fun frame hframe ↦ ?_⟩
      rw [hmemory]
      change Function.update after.ref page 0 frame = _
      by_cases hsame : frame = page
      · rw [hsame, Function.update_self, h.ref, Multiset.count_eq_zero.mpr hheld]
        rfl
      · rw [Function.update_of_ne hsame]
        apply hgrown.ref hrest.nodup
        rcases hframe with hout | hin
        · exact Or.inl fun hin ↦ hout (hfree ▸ List.mem_cons_of_mem _ hin)
        · rw [hmemory] at hin
          exact Or.inr ((List.mem_cons.mp hin).resolve_left hsame)

/-- In every state that calls lead to, the count of each frame is how many present entries lead to
it, and every further call keeps to that. -/
theorem countsKept (start : Spaces Dir) (hstart : FirstSpaces start) (calls : List (PageCall Dir))
    (w : Spaces Dir) (hruns : Runs PageStep start calls w) : CountsKept w :=
  countsKept_of_accounts (accounts_runs hstart.accounts hruns)

end System

/-- A machine with five frames. -/
def fiveFrames : Spaces Unit where
  memory := ⟨[0, 1, 2, 3, 4], fun _ ↦ 0, fun _ _ ↦ 0, false, [], fun _ ↦ 0, none⟩
  dirs := ∅
  pgdir := fun _ ↦ Table.clear 0 none

/-- One page is mapped twice and unmapped once. -/
def mapTwice : List (PageCall Unit) :=
  [.setup (), .allocPage () USERBASE PTE_U, .insert () 1 (USERBASE + PGSIZE) PTE_U,
    .remove () USERBASE]

theorem countsKept_mapTwice : ∃ w, Runs PageStep fiveFrames mapTwice w ∧ CountsKept w := by
  have hruns : ∃ w, Runs PageStep fiveFrames mapTwice w := by
    refine Exists.intro _ (.cons ⟨?_, 0, _, rfl, rfl⟩ (.cons ⟨?_, ?_, _, _, rfl, rfl⟩
      (.cons ⟨?_, ?_, ?_, rfl⟩ (.cons ⟨?_, rfl⟩ .nil))))
    all_goals decide
  rcases hruns with ⟨w, hruns⟩
  exact ⟨w, hruns, countsKept fiveFrames ⟨rfl, fun _ ↦ rfl, by decide⟩ _ w hruns⟩

end Ucore.Mm
