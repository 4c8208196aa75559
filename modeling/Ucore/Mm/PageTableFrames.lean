import Ucore.Mm.PageTable
import Mathlib.Algebra.BigOperators.Fin
import Mathlib.Algebra.Order.Group.Multiset
import Mathlib.Tactic.Abel

/-!
# What page tables hold

Entries after a change of another entry, and the frames that a directory takes: those that are
mapped by present entries, and those of its tables.
-/

namespace Ucore.Mm

/-! ## Words -/

theorem pte2page_pteCreate (page : Frame) {perm : ℕ} (hperm : perm < 2 ^ 10) :
    pte2page (pteCreate page perm) = page := by
  unfold pte2page pteCreate
  apply Nat.eq_of_testBit_eq
  intro i
  have hhigh : perm.testBit (i + 10) = false :=
    Nat.testBit_lt_two_pow (hperm.trans_le (Nat.pow_le_pow_right (by decide) (Nat.le_add_left ..)))
  have hvalid : PTE_V.testBit (i + 10) = false :=
    Nat.testBit_lt_two_pow (lt_of_lt_of_le (by decide : PTE_V < 2 ^ 10)
      (Nat.pow_le_pow_right (by decide) (Nat.le_add_left ..)))
  rw [Nat.testBit_shiftRight, Nat.add_comm 10 i, Nat.testBit_or, Nat.testBit_or, hhigh, hvalid,
    Nat.testBit_shiftLeft]
  simp

theorem present_iff (pte : ℕ) : Present pte ↔ pte.testBit 0 := by
  have hone : PTE_V = 1 := rfl
  rw [Present, hone, Nat.and_one_is_mod, Nat.testBit_zero]
  simp

theorem present_pteCreate (page : Frame) (perm : ℕ) : Present (pteCreate page perm) := by
  rw [present_iff, pteCreate, Nat.testBit_or, Nat.testBit_or]
  simp [PTE_V]

theorem not_present_zero : ¬Present 0 := by decide

/-! ## Entries -/

section Entries

variable {pgdir next : Pgdir} {la lb value : ℕ}

/-- Two addresses have the same entry. -/
def SamePlace (la lb : ℕ) : Prop := PDX1 la = PDX1 lb ∧ PDX0 la = PDX0 lb ∧ PTX la = PTX lb

instance (la lb : ℕ) : Decidable (SamePlace la lb) := inferInstanceAs (Decidable (_ ∧ _ ∧ _))

theorem SamePlace.symm (h : SamePlace la lb) : SamePlace lb la := ⟨h.1.symm, h.2.1.symm, h.2.2.symm⟩

/-- The entry of an address, which is zero if there is no table for it. -/
def Table.pte (pgdir : Pgdir) (la : ℕ) : ℕ := (pgdir.getPte la).getD 0

theorem getPte_congr (h : SamePlace la lb) : pgdir.getPte la = pgdir.getPte lb := by
  unfold Table.getPte
  rw [h.1, h.2.1, h.2.2]

theorem pte_congr (h : SamePlace la lb) : pgdir.pte la = pgdir.pte lb := by
  rw [Table.pte, getPte_congr h]
  rfl

theorem getPte_eq {pd0 : Pd0} {pt : PageTable} (hpd0 : pgdir.entry (PDX1 la) = some pd0)
    (hpt : pd0.entry (PDX0 la) = some pt) : pgdir.getPte la = some (pt.entry (PTX la)) := by
  rw [Table.getPte, hpd0]
  dsimp only
  rw [hpt]

theorem getPte_eq_some : pgdir.getPte la = some value ↔ ∃ pd0 pt,
    pgdir.entry (PDX1 la) = some pd0 ∧ pd0.entry (PDX0 la) = some pt ∧
      pt.entry (PTX la) = value := by
  constructor
  · intro h
    unfold Table.getPte at h
    split at h
    · cases h
    · rename_i pd0 hpd0
      split at h
      · cases h
      · rename_i pt hpt
        exact ⟨pd0, pt, hpd0, hpt, Option.some.inj h⟩
  · rintro ⟨pd0, pt, hpd0, hpt, rfl⟩
    exact getPte_eq hpd0 hpt

@[simp]
theorem set_self {Entry : Type} (table : Table Entry) (index : Fin 512) (value : Entry) :
    (table.set index value).entry index = value := Function.update_self ..

theorem set_of_ne {Entry : Type} (table : Table Entry) {index other : Fin 512} (value : Entry)
    (h : other ≠ index) : (table.set index value).entry other = table.entry other :=
  Function.update_of_ne h ..

theorem setPte_eq {pd0 : Pd0} {pt : PageTable} (hpd0 : pgdir.entry (PDX1 la) = some pd0)
    (hpt : pd0.entry (PDX0 la) = some pt) : pgdir.setPte la value =
      pgdir.set (PDX1 la) (some (pd0.set (PDX0 la) (some (pt.set (PTX la) value)))) := by
  rw [Table.setPte, hpd0]
  dsimp only
  rw [hpt]

/-- A store through a pointer changes the entry that it points to. -/
theorem getPte_setPte_same (h : (pgdir.getPte la).isSome) (hsame : SamePlace la lb) :
    (pgdir.setPte la value).getPte lb = some value := by
  rcases Option.isSome_iff_exists.mp h with ⟨old, hold⟩
  rcases getPte_eq_some.mp hold with ⟨pd0, pt, hpd0, hpt, -⟩
  rw [setPte_eq hpd0 hpt]
  apply getPte_eq_some.mpr
  rcases hsame with ⟨h1, h0, hx⟩
  rw [← h1, ← h0, ← hx]
  exact ⟨_, _, set_self .., set_self .., set_self ..⟩

theorem getPte_setPte_of_not (hother : ¬SamePlace la lb) :
    (pgdir.setPte la value).getPte lb = pgdir.getPte lb := by
  unfold Table.setPte
  split
  · rfl
  · rename_i pd0 hpd0
    split
    · rfl
    · rename_i pt hpt
      unfold Table.getPte
      by_cases h1 : PDX1 lb = PDX1 la
      · rw [h1, set_self, hpd0]
        dsimp only
        by_cases h0 : PDX0 lb = PDX0 la
        · have hx : PTX lb ≠ PTX la := fun hx ↦ hother ⟨h1.symm, h0.symm, hx.symm⟩
          rw [h0, set_self, hpt]
          exact congrArg some (set_of_ne _ _ hx)
        · rw [set_of_ne _ _ h0]
      · rw [set_of_ne _ _ h1]

theorem pte_setPte (h : (pgdir.getPte la).isSome) (lb : ℕ) :
    (pgdir.setPte la value).pte lb = if SamePlace la lb then value else pgdir.pte lb := by
  by_cases hsame : SamePlace la lb
  · rw [Table.pte, getPte_setPte_same h hsame, if_pos hsame]
    rfl
  · rw [Table.pte, getPte_setPte_of_not hsame, if_neg hsame]
    rfl

theorem getPte_of_pd0 (h : pgdir.entry (PDX1 la) = none) : pgdir.getPte la = none := by
  rw [Table.getPte, h]

theorem getPte_of_pt {pd0 : Pd0} (hpd0 : pgdir.entry (PDX1 la) = some pd0)
    (h : pd0.entry (PDX0 la) = none) : pgdir.getPte la = none := by
  rw [Table.getPte, hpd0]
  dsimp only
  rw [h]

end Entries

/-! ## Frames -/

section Frames

theorem sum_update_add {Entry Sum : Type} [AddCommMonoid Sum] (f : Fin 512 → Entry) (i : Fin 512)
    (value : Entry) (g : Entry → Sum) :
    ∑ j, g (Function.update f i value j) + g (f i) = ∑ j, g (f j) + g value := by
  have hrest : ∑ j ∈ Finset.univ.erase i, g (Function.update f i value j) =
      ∑ j ∈ Finset.univ.erase i, g (f j) := by
    apply Finset.sum_congr rfl
    intro j hj
    rw [Function.update_of_ne (Finset.ne_of_mem_erase hj)]
  rw [← Finset.add_sum_erase _ (fun j ↦ g (Function.update f i value j)) (Finset.mem_univ i),
    ← Finset.add_sum_erase _ (fun j ↦ g (f j)) (Finset.mem_univ i), hrest, Function.update_self]
  abel

/-- The frame that an entry maps, if it is present. -/
def pageOf (pte : ℕ) : Multiset Frame := if Present pte then {pte2page pte} else 0

def ptPages (pt : PageTable) : Multiset Frame := ∑ k, pageOf (pt.entry k)
def pd0Pages (pd0 : Pd0) : Multiset Frame := ∑ j, (pd0.entry j).elim 0 ptPages

/-- The frames that are mapped, each as often as it is. -/
def Table.pages (pgdir : Pgdir) : Multiset Frame := ∑ i, (pgdir.entry i).elim 0 pd0Pages

def ptFrames (pt : PageTable) : Multiset Frame := {pt.frame}
def pd0Frames (pd0 : Pd0) : Multiset Frame := {pd0.frame} + ∑ j, (pd0.entry j).elim 0 ptFrames

/-- The frames of the tables below the root. -/
def Table.tables (pgdir : Pgdir) : Multiset Frame := ∑ i, (pgdir.entry i).elim 0 pd0Frames

variable {m : Memory} {pgdir : Pgdir} {pd0 : Pd0} {la : ℕ}

@[simp]
theorem pageOf_zero : pageOf 0 = 0 := if_neg not_present_zero

theorem ptPages_set (pt : PageTable) (index : Fin 512) (value : ℕ) :
    ptPages (pt.set index value) + pageOf (pt.entry index) = ptPages pt + pageOf value :=
  sum_update_add pt.entry index value pageOf

theorem pd0Pages_set (pd0 : Pd0) (index : Fin 512) (value : Option PageTable) :
    pd0Pages (pd0.set index value) + (pd0.entry index).elim 0 ptPages =
      pd0Pages pd0 + value.elim 0 ptPages :=
  sum_update_add pd0.entry index value fun entry ↦ entry.elim 0 ptPages

theorem pages_set (pgdir : Pgdir) (index : Fin 512) (value : Option Pd0) :
    (pgdir.set index value).pages + (pgdir.entry index).elim 0 pd0Pages =
      pgdir.pages + value.elim 0 pd0Pages :=
  sum_update_add pgdir.entry index value fun entry ↦ entry.elim 0 pd0Pages

theorem pd0Frames_set (pd0 : Pd0) (index : Fin 512) (value : Option PageTable) :
    pd0Frames (pd0.set index value) + (pd0.entry index).elim 0 ptFrames =
      pd0Frames pd0 + value.elim 0 ptFrames := by
  have h : ∑ j, ((pd0.set index value).entry j).elim 0 ptFrames +
      (pd0.entry index).elim 0 ptFrames =
        ∑ j, (pd0.entry j).elim 0 ptFrames + value.elim 0 ptFrames :=
    sum_update_add pd0.entry index value fun entry ↦ entry.elim 0 ptFrames
  rw [pd0Frames, pd0Frames, add_assoc, add_assoc, h]
  rfl

theorem tables_set (pgdir : Pgdir) (index : Fin 512) (value : Option Pd0) :
    (pgdir.set index value).tables + (pgdir.entry index).elim 0 pd0Frames =
      pgdir.tables + value.elim 0 pd0Frames :=
  sum_update_add pgdir.entry index value fun entry ↦ entry.elim 0 pd0Frames

theorem pages_setPte {old : ℕ} (h : pgdir.getPte la = some old) (value : ℕ) :
    (pgdir.setPte la value).pages + pageOf old = pgdir.pages + pageOf value := by
  rcases getPte_eq_some.mp h with ⟨pd0, pt, hpd0, hpt, rfl⟩
  rw [setPte_eq hpd0 hpt]
  have h1 := pages_set pgdir (PDX1 la) (some (pd0.set (PDX0 la) (some (pt.set (PTX la) value))))
  have h0 := pd0Pages_set pd0 (PDX0 la) (some (pt.set (PTX la) value))
  have hx := ptPages_set pt (PTX la) value
  rw [hpd0, Option.elim_some, Option.elim_some] at h1
  rw [hpt, Option.elim_some, Option.elim_some] at h0
  -- the three levels, one after the other
  generalize pgdir.set (PDX1 la) _ = pgdir' at h1 ⊢
  generalize pd0.set (PDX0 la) _ = pd0' at h1 h0
  generalize pt.set (PTX la) value = pt' at h0 hx
  apply add_right_cancel (b := pd0Pages pd0 + ptPages pt)
  calc
    _ = (pgdir'.pages + pd0Pages pd0) + ptPages pt + pageOf (pt.entry (PTX la)) := by abel
    _ = pgdir.pages + (pd0Pages pd0' + ptPages pt) + pageOf (pt.entry (PTX la)) := by
      rw [h1]
      abel
    _ = pgdir.pages + pd0Pages pd0 + (ptPages pt' + pageOf (pt.entry (PTX la))) := by
      rw [h0]
      abel
    _ = _ := by
      rw [hx]
      abel

theorem tables_setPte (la value : ℕ) : (pgdir.setPte la value).tables = pgdir.tables := by
  cases hpd0 : pgdir.entry (PDX1 la) with
  | none => rw [Table.setPte, hpd0]
  | some pd0 =>
    cases hpt : pd0.entry (PDX0 la) with
    | none =>
      rw [Table.setPte, hpd0]
      dsimp only
      rw [hpt]
    | some pt =>
      rw [setPte_eq hpd0 hpt]
      have h1 := tables_set pgdir (PDX1 la)
        (some (pd0.set (PDX0 la) (some (pt.set (PTX la) value))))
      have h0 := pd0Frames_set pd0 (PDX0 la) (some (pt.set (PTX la) value))
      rw [hpt] at h0
      have h0' : pd0Frames (pd0.set (PDX0 la) (some (pt.set (PTX la) value))) = pd0Frames pd0 :=
        add_right_cancel h0
      rw [hpd0, Option.elim_some, Option.elim_some, h0'] at h1
      exact add_right_cancel h1

@[simp]
theorem ptPages_clear (frame : Frame) : ptPages (Table.clear frame 0) = 0 :=
  Finset.sum_eq_zero fun _ _ ↦ pageOf_zero

@[simp]
theorem pd0Pages_clear (frame : Frame) : pd0Pages (Table.clear frame none) = 0 :=
  Finset.sum_eq_zero fun _ _ ↦ rfl

@[simp]
theorem pd0Frames_clear (frame : Frame) : pd0Frames (Table.clear frame none) = {frame} := by
  have hzero : ∑ j, ((Table.clear frame none : Pd0).entry j).elim 0 ptFrames = 0 :=
    Finset.sum_eq_zero fun _ _ ↦ rfl
  rw [pd0Frames, hzero, add_zero]
  rfl

end Frames

/-! ## New tables -/

section Growing

variable {m m' m'' : Memory} {pgdir pgdir' pgdir'' : Pgdir} {pd0 : Pd0} {new more rest : List Frame}
  {frame : Frame} {la lb : ℕ}

/-- Free frames have become tables. No entry of the last level has changed. -/
structure Grown (m m' : Memory) (pgdir pgdir' : Pgdir) (new : List Frame) : Prop where
  memory : m' = { m with free := m'.free, ref := fun frame ↦ if frame ∈ new then 1 else m.ref frame }
  free : m.free = new ++ m'.free
  frame : pgdir'.frame = pgdir.frame
  tables : pgdir'.tables = pgdir.tables + new
  pages : pgdir'.pages = pgdir.pages
  getPte : ∀ la value, pgdir.getPte la = some value → pgdir'.getPte la = some value
  pte : ∀ la, pgdir'.pte la = pgdir.pte la

theorem Grown.refl (m : Memory) (pgdir : Pgdir) : Grown m m pgdir pgdir [] where
  memory := rfl
  free := rfl
  frame := rfl
  tables := (add_zero _).symm
  pages := rfl
  getPte := fun _ _ h ↦ h
  pte := fun _ ↦ rfl

theorem Grown.trans (h : Grown m m' pgdir pgdir' new) (h' : Grown m' m'' pgdir' pgdir'' more) :
    Grown m m'' pgdir pgdir'' (new ++ more) where
  memory := by
    rw [h'.memory, h.memory]
    congr
    funext frame
    by_cases hmore : frame ∈ more
    · simp [hmore]
    · simp [hmore]
  free := by rw [h.free, h'.free, List.append_assoc]
  frame := h'.frame.trans h.frame
  tables := by
    rw [h'.tables, h.tables, add_assoc]
    rfl
  pages := h'.pages.trans h.pages
  getPte := fun la value hla ↦ h'.getPte la value (h.getPte la value hla)
  pte := fun la ↦ (h'.pte la).trans (h.pte la)

/-- The entry of an address when a table on the way to it is replaced. -/
theorem getPte_set_of_ne {index : Fin 512} (value : Option Pd0) (hne : PDX1 la ≠ index) :
    (pgdir.set index value).getPte la = pgdir.getPte la := by
  rw [Table.getPte, set_of_ne _ _ hne]
  rfl

theorem allocTable_cons (hfree : m.free = frame :: rest) :
    m.allocTable = (some frame, { m with free := rest }.setRef frame 1) := by
  rw [Memory.allocTable, Memory.allocPage, hfree]

theorem allocTable_nil (hfree : m.free = []) : m.allocTable = (none, m) := by
  rw [Memory.allocTable, Memory.allocPage, hfree]

theorem setRef_one (m : Memory) (frame : Frame) : m.setRef frame 1 =
    { m with ref := fun other ↦ if other ∈ [frame] then 1 else m.ref other } := by
  unfold Memory.setRef
  congr
  funext other
  by_cases hother : other = frame
  · simp [hother]
  · simp [hother]

theorem grown_attachPd0 (hfree : m.free = frame :: rest) (hnone : pgdir.entry (PDX1 la) = none) :
    Grown m ({ m with free := rest }.setRef frame 1) pgdir
      (pgdir.set (PDX1 la) (some (Table.clear frame none))) [frame] := by
  have hgetPte : ∀ lb, (pgdir.set (PDX1 la) (some (Table.clear frame none))).getPte lb =
      pgdir.getPte lb := by
    intro lb
    by_cases hlb : PDX1 lb = PDX1 la
    · have hold : pgdir.getPte lb = none := getPte_of_pd0 ((congrArg pgdir.entry hlb).trans hnone)
      have hclear : (pgdir.set (PDX1 la) (some (Table.clear frame none))).entry (PDX1 lb) =
          some (Table.clear frame none) := by
        rw [hlb, set_self]
      rw [hold, getPte_of_pt hclear rfl]
    · exact getPte_set_of_ne _ hlb
  have htables := tables_set pgdir (PDX1 la) (some (Table.clear frame none))
  have hpages := pages_set pgdir (PDX1 la) (some (Table.clear frame none))
  rw [hnone] at htables hpages
  constructor
  · rw [setRef_one]
  · exact hfree
  · rfl
  · simpa using htables
  · simpa using hpages
  · intro lb value hlb
    rw [hgetPte]
    exact hlb
  · intro lb
    rw [Table.pte, hgetPte]
    rfl

theorem grown_attachPt (hfree : m.free = frame :: rest) (hpd0 : pgdir.entry (PDX1 la) = some pd0)
    (hnone : pd0.entry (PDX0 la) = none) :
    Grown m ({ m with free := rest }.setRef frame 1) pgdir
      (pgdir.set (PDX1 la) (some (pd0.set (PDX0 la) (some (Table.clear frame 0))))) [frame] := by
  have htables := tables_set pgdir (PDX1 la)
    (some (pd0.set (PDX0 la) (some (Table.clear frame 0))))
  have hframes := pd0Frames_set pd0 (PDX0 la) (some (Table.clear frame 0))
  have hpages := pages_set pgdir (PDX1 la) (some (pd0.set (PDX0 la) (some (Table.clear frame 0))))
  have hpd0Pages := pd0Pages_set pd0 (PDX0 la) (some (Table.clear frame 0))
  rw [hpd0, Option.elim_some, Option.elim_some] at htables hpages
  rw [hnone, Option.elim_none, Option.elim_some, add_zero] at hframes hpd0Pages
  rw [hframes, ← add_assoc, add_right_comm] at htables
  rw [hpd0Pages, ptPages_clear, add_zero] at hpages
  -- addresses with the new table had no table before, and their entries are zero now
  have hgetPte : ∀ lb value, pgdir.getPte lb = some value →
      (pgdir.set (PDX1 la) (some (pd0.set (PDX0 la) (some (Table.clear frame 0))))).getPte lb =
        some value := by
    intro lb value hlb
    rcases getPte_eq_some.mp hlb with ⟨other, pt, hother, hpt, hvalue⟩
    apply getPte_eq_some.mpr
    by_cases hlb1 : PDX1 lb = PDX1 la
    · have hsame : other = pd0 := Option.some.inj ((hlb1 ▸ hother).symm.trans hpd0)
      subst hsame
      have hlb0 : PDX0 lb ≠ PDX0 la := by
        intro hlb0
        rw [hlb0, hnone] at hpt
        cases hpt
      refine ⟨other.set (PDX0 la) (some (Table.clear frame 0)), pt, ?_, ?_, hvalue⟩
      · rw [hlb1, set_self]
      · rw [set_of_ne _ _ hlb0, hpt]
    · exact ⟨other, pt, (set_of_ne _ _ hlb1).trans hother, hpt, hvalue⟩
  constructor
  · rw [setRef_one]
  · exact hfree
  · rfl
  · exact add_right_cancel htables
  · exact add_right_cancel hpages
  · exact hgetPte
  · intro lb
    cases hlb : pgdir.getPte lb with
    | some value => rw [Table.pte, Table.pte, hgetPte lb value hlb, hlb]
    | none =>
      rw [Table.pte, Table.pte, hlb]
      by_cases hlb1 : PDX1 lb = PDX1 la
      · by_cases hlb0 : PDX0 lb = PDX0 la
        · have hzero : (pgdir.set (PDX1 la) (some (pd0.set (PDX0 la)
              (some (Table.clear frame 0))))).getPte lb = some 0 := by
            apply getPte_eq_some.mpr
            refine ⟨pd0.set (PDX0 la) (some (Table.clear frame 0)), Table.clear frame 0, ?_, ?_, rfl⟩
            · rw [hlb1, set_self]
            · rw [hlb0, set_self]
          rw [hzero]
          rfl
        · have hsame : (pgdir.set (PDX1 la) (some (pd0.set (PDX0 la)
              (some (Table.clear frame 0))))).getPte lb = pgdir.getPte lb := by
            rw [Table.getPte, Table.getPte, hlb1, set_self, hpd0]
            dsimp only
            rw [set_of_ne _ _ hlb0]
          rw [hsame, hlb]
      · rw [getPte_set_of_ne _ hlb1, hlb]

@[simp]
theorem set_entry {Entry : Type} (table : Table Entry) (index : Fin 512) :
    table.set index (table.entry index) = table := by
  unfold Table.set
  rw [Function.update_eq_self]

@[simp]
theorem set_set {Entry : Type} (table : Table Entry) (index : Fin 512) (first second : Entry) :
    (table.set index first).set index second = table.set index second := by
  unfold Table.set
  rw [Function.update_idem]

/-- The answer of `get_pte` with `create`, and why it is not always a pointer. -/
structure Created (m m' : Memory) (pgdir pgdir' : Pgdir) (la : ℕ) (found : Bool) : Prop where
  grown : ∃ new, Grown m m' pgdir pgdir' new
  pointer : found → (pgdir'.getPte la).isSome
  null : ¬found → m'.free = []

theorem created_createPt (hpd0 : pgdir.entry (PDX1 la) = some pd0) :
    Created m (createPt m pd0 la).2.1 pgdir
      (pgdir.set (PDX1 la) (some (createPt m pd0 la).2.2)) la (createPt m pd0 la).1 := by
  have hsame : pgdir.set (PDX1 la) (some pd0) = pgdir := by
    rw [← hpd0]
    exact set_entry ..
  unfold createPt
  split
  · rename_i pt hpt
    dsimp only
    rw [hsame]
    refine ⟨⟨[], Grown.refl m pgdir⟩, fun _ ↦ ?_, fun h ↦ absurd rfl h⟩
    rw [getPte_eq hpd0 hpt]
    rfl
  · rename_i hnone
    cases hfree : m.free with
    | nil =>
      rw [allocTable_nil hfree]
      dsimp only
      rw [hsame]
      exact ⟨⟨[], Grown.refl m pgdir⟩, fun h ↦ (Bool.false_ne_true h).elim, fun _ ↦ hfree⟩
    | cons frame rest =>
      rw [allocTable_cons hfree]
      refine ⟨⟨[frame], grown_attachPt hfree hpd0 hnone⟩, fun _ ↦ ?_, fun h ↦ absurd rfl h⟩
      rw [getPte_eq (set_self ..) (set_self ..)]
      rfl

theorem created_createPte (m : Memory) (pgdir : Pgdir) (la : ℕ) :
    Created m (createPte m pgdir la).2.1 pgdir (createPte m pgdir la).2.2 la
      (createPte m pgdir la).1 := by
  unfold createPte
  split
  · rename_i pd0 hpd0
    exact created_createPt hpd0
  · rename_i hnone
    cases hfree : m.free with
    | nil =>
      rw [allocTable_nil hfree]
      exact ⟨⟨[], Grown.refl m pgdir⟩, fun h ↦ (Bool.false_ne_true h).elim, fun _ ↦ hfree⟩
    | cons frame rest =>
      rw [allocTable_cons hfree]
      have hgrown := grown_attachPd0 hfree hnone
      have hcreated := created_createPt (m := { m with free := rest }.setRef frame 1)
        (set_self pgdir (PDX1 la) (some (Table.clear frame none)))
      rw [set_set] at hcreated
      rcases hcreated.grown with ⟨more, hmore⟩
      exact ⟨⟨_, hgrown.trans hmore⟩, hcreated.pointer, hcreated.null⟩

end Growing

end Ucore.Mm
