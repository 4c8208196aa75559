import Mathlib.Data.Finset.Order
import Ucore.Mm.Kmalloc
import Ucore.Mm.SlobRun

/-!
# Runs of `kmalloc` and `kfree`

Every block in use is freed with what it was allocated with: `kfree` finds the entry of a run of
pages by its address, and the header of a small block is where `slob_alloc` has left it. A block is
too small when the shifts of `find_order` have lost a part of the size, or its conversion to `int`
has, and a request that needs a whole page with its header fails an assertion.
-/

namespace Ucore.Mm

open Library Slob

/-- A run of pages in use: its entry in `bigblocks`, its address, and the number of pages that
`alloc_pages` was asked for. -/
structure BigUse where
  bb : ℕ
  start : ℕ
  count : ℕ

/-- The allocator, the blocks of the SLOB allocator that hold small blocks in use, the runs of
pages in use, and the pages of the SLOB allocator. -/
structure KmallocWorld where
  kernel : Kmalloc
  small : Finset (ℕ × ℕ)
  big : List BigUse
  pages : Finset ℕ

def Apart (start bytes start' bytes' : ℕ) : Prop :=
  start + bytes ≤ start' ∨ start' + bytes' ≤ start

/-- The address and the bytes of each block in use. -/
inductive KmallocWorld.Usable (w : KmallocWorld) : ℕ → ℕ → Prop
  | small (b : ℕ × ℕ) (h : b ∈ w.small) : Usable w (plus b.1 1) ((b.2 - 1) * SLOB_UNIT)
  | big (use : BigUse) (h : use ∈ w.big) : Usable w use.start (use.count * PGSIZE)

/-- The bytes behind the pointer that was returned. -/
def Served.bytes (r : Served) (p : ℕ) : ℕ :=
  match r.run with
  | some run => run.2 * PGSIZE
  | none => (r.kernel.slob.units (p - SLOB_UNIT) - 1) * SLOB_UNIT

namespace KmallocWorld

/-- The blocks of the SLOB allocator in use. -/
def live (w : KmallocWorld) : Finset (ℕ × ℕ) :=
  w.small ∪ (w.big.map fun use ↦ (use.bb, slobUnits sizeofBigblock)).toFinset

/-- After a call of `kmalloc`. -/
def after (w : KmallocWorld) (r : Served) : KmallocWorld where
  kernel := r.kernel
  small :=
    match r.block, r.run with
    | some p, none => insert (p - SLOB_UNIT, r.kernel.slob.units (p - SLOB_UNIT)) w.small
    | _, _ => w.small
  big :=
    match r.run with
    | some run => ⟨r.kernel.bigblocks.headD 0, run.1, run.2⟩ :: w.big
    | none => w.big
  pages := w.pages ∪ r.pages.toFinset

end KmallocWorld

/-- `alloc_pages` gives pages that are not in use. -/
structure KmallocSupplies (arena : ℕ) (w : KmallocWorld) (size : ℕ) (answers : ℕ → Option ℕ)
    (run : Option ℕ) : Prop where
  pages : Supplies arena w.pages answers
  pages_apart : ∀ call p, answers call = some p → ∀ use ∈ w.big,
    Apart p PGSIZE use.start (use.count * PGSIZE)
  aligned : ∀ start, run = some start → start % PGSIZE = 0 ∧ 0 < start
  run_apart : ∀ start, run = some start → ∀ use ∈ w.big,
    Apart start (2 ^ findOrder (int32 size) * PGSIZE) use.start (use.count * PGSIZE)
  run_pages : ∀ start, run = some start → ∀ p ∈ w.pages,
    Apart p PGSIZE start (2 ^ findOrder (int32 size) * PGSIZE)
  run_arena : ∀ start, run = some start →
    Apart arena SLOB_UNIT start (2 ^ findOrder (int32 size) * PGSIZE)
  run_answers : ∀ start, run = some start → ∀ call p, answers call = some p →
    Apart p PGSIZE start (2 ^ findOrder (int32 size) * PGSIZE)

/-- The static variables. -/
structure FirstKmalloc (arena : ℕ) (w : KmallocWorld) : Prop where
  slob : FirstSlob arena ⟨w.kernel.slob, w.small, w.pages⟩
  bigblocks : w.kernel.bigblocks = []
  big : w.big = []

inductive KmallocStep (arena : ℕ) (w : KmallocWorld) : KmallocWorld → Prop
  | alloc {size : ℕ} {answers : ℕ → Option ℕ} {run : Option ℕ} {r : Served} (hsize : 0 < size)
    (hsupplies : KmallocSupplies arena w size answers run)
    (h : Returns (fun fuel ↦ kmalloc size answers run fuel w.kernel) r) :
    KmallocStep arena w (w.after r)
  | freeSmall {b : ℕ × ℕ} {k : Kmalloc} {freed : Option (ℕ × ℕ)} (hlive : b ∈ w.small)
    (h : Returns (fun fuel ↦ kfree (plus b.1 1) fuel w.kernel) (k, freed)) :
    KmallocStep arena w ⟨k, w.small.erase b, w.big, w.pages⟩
  | freeBig {before after : List BigUse} {use : BigUse} {k : Kmalloc} {freed : Option (ℕ × ℕ)}
    (hlive : w.big = before ++ use :: after)
    (h : Returns (fun fuel ↦ kfree use.start fuel w.kernel) (k, freed)) :
    KmallocStep arena w ⟨k, w.small, before ++ after, w.pages⟩
  /-- The owners write into their blocks. -/
  | use {s : Slob} (hslobfree : s.slobfree = w.kernel.slob.slobfree)
    (h : ∀ z, (∀ start bytes, w.Usable start bytes → Apart z SLOB_UNIT start bytes) →
      s.units z = w.kernel.slob.units z ∧ s.next z = w.kernel.slob.next z) :
    KmallocStep arena w ⟨⟨s, w.kernel.bigblocks⟩, w.small, w.big, w.pages⟩

/-- The free blocks of the list have that many units. -/
def FreeUnits (s : Slob) (count : ℕ) : Prop :=
  ∃ nodes, InOrder nodes s.next ∧ s.slobfree ∈ nodes ∧ ∑ x ∈ nodes, s.units x = count

def GivesBack (s s' : Slob) (units : ℕ) : Prop :=
  ∀ count, FreeUnits s count → FreeUnits s' (count + units)

/-- `kfree` of every block in use gives back its units, or the pages that were allocated for it and
the units of its entry. -/
def KfreeRight (w : KmallocWorld) : Prop :=
  (∀ b ∈ w.small, ∃ k, Returns (fun fuel ↦ kfree (plus b.1 1) fuel w.kernel) (k, none) ∧
    GivesBack w.kernel.slob k.slob b.2) ∧
  ∀ use ∈ w.big, ∃ k,
    Returns (fun fuel ↦ kfree use.start fuel w.kernel) (k, some (use.start, use.count)) ∧
    GivesBack w.kernel.slob k.slob (slobUnits sizeofBigblock)

/-- What is said of `kmalloc`: it returns, a block that it returns is large enough and apart from all
blocks in use, and `kfree` gives back what it has got. -/
def KmallocRight (arena : ℕ) (w : KmallocWorld) (size : ℕ) : Prop :=
  ∀ answers run, KmallocSupplies arena w size answers run →
    ∃ r, Returns (fun fuel ↦ kmalloc size answers run fuel w.kernel) r ∧ KfreeRight (w.after r) ∧
      ∀ p, r.block = some p → (w.after r).Usable p (r.bytes p) ∧ size ≤ r.bytes p ∧
        ∀ start bytes, w.Usable start bytes → Apart p (r.bytes p) start bytes

/-- The headers and entries are where `kfree` looks for them. -/
structure Entries (arena : ℕ) (w : KmallocWorld) : Prop where
  header : ∀ b ∈ w.small, w.kernel.slob.units b.1 = b.2 ∧ 2 ≤ b.2
  listed : w.kernel.bigblocks = w.big.map BigUse.bb
  entry : ∀ use ∈ w.big, w.kernel.slob.next use.bb = use.start ∧
    2 ^ w.kernel.slob.units use.bb = use.count
  aligned : ∀ use ∈ w.big, use.start % PGSIZE = 0 ∧ 0 < use.start
  distinct : w.big.Pairwise fun use other ↦ use.bb ≠ other.bb ∧
    Apart use.start (use.count * PGSIZE) other.start (other.count * PGSIZE)
  fresh : ∀ use ∈ w.big, (use.bb, slobUnits sizeofBigblock) ∉ w.small
  arena_apart : ∀ use ∈ w.big, Apart arena SLOB_UNIT use.start (use.count * PGSIZE)
  pages_apart : ∀ use ∈ w.big, ∀ p ∈ w.pages, Apart p PGSIZE use.start (use.count * PGSIZE)

/-- What holds between two calls. -/
def KmallocWorld.Holds (arena : ℕ) (w : KmallocWorld) : Prop :=
  Entries arena w ∧ ∃ nodes, Arena arena w.kernel.slob nodes w.live w.pages ∧
    Separated w.kernel.slob nodes ∧ w.kernel.slob.slobfree ∈ nodes

section Entries

variable {arena size p u : ℕ} {w : KmallocWorld} {k : Kmalloc} {s s' : Slob} {b : ℕ × ℕ}
  {nodes pages : Finset ℕ} {before after : List BigUse} {use : BigUse}

theorem mem_live_small (h : b ∈ w.small) : b ∈ w.live := Finset.mem_union_left _ h

theorem mem_live_big (h : use ∈ w.big) : (use.bb, slobUnits sizeofBigblock) ∈ w.live :=
  Finset.mem_union_right _ (List.mem_toFinset.mpr (List.mem_map_of_mem h))

theorem live_insertSmall : KmallocWorld.live ⟨k, insert b w.small, w.big, pages⟩ = insert b w.live :=
  Finset.insert_union ..

theorem live_consBig (w : KmallocWorld) (use : BigUse) : KmallocWorld.live ⟨k, w.small, use :: w.big, pages⟩ =
    insert (use.bb, slobUnits sizeofBigblock) w.live := by
  unfold KmallocWorld.live
  rw [List.map_cons, List.toFinset_cons, Finset.union_insert]

theorem Entries.live_eraseSmall (h : Entries arena w) (hb : b ∈ w.small) :
    KmallocWorld.live ⟨k, w.small.erase b, w.big, pages⟩ = w.live.erase b := by
  have hother : b ∉ (w.big.map fun use ↦ (use.bb, slobUnits sizeofBigblock)).toFinset := by
    intro hmem
    rcases List.mem_map.mp (List.mem_toFinset.mp hmem) with ⟨use, huse, rfl⟩
    exact h.fresh use huse hb
  unfold KmallocWorld.live
  rw [Finset.erase_union_distrib, Finset.erase_eq_of_notMem hother]

theorem Entries.live_eraseBig (h : Entries arena w) (hlive : w.big = before ++ use :: after) :
    KmallocWorld.live ⟨k, w.small, before ++ after, pages⟩ =
      w.live.erase (use.bb, slobUnits sizeofBigblock) := by
  have huse : use ∈ w.big := hlive ▸ List.mem_append_right _ List.mem_cons_self
  have hdistinct := h.distinct
  rw [hlive, List.pairwise_middle fun hne ↦ ⟨hne.1.symm, hne.2.symm⟩, List.pairwise_cons] at hdistinct
  have hother : (use.bb, slobUnits sizeofBigblock) ∉
      ((before ++ after).map fun use ↦ (use.bb, slobUnits sizeofBigblock)).toFinset := by
    intro hmem
    rcases List.mem_map.mp (List.mem_toFinset.mp hmem) with ⟨other, hmem, heq⟩
    exact (hdistinct.1 other hmem).1 (congrArg Prod.fst heq).symm
  have hwhole : w.live = insert (use.bb, slobUnits sizeofBigblock)
      (KmallocWorld.live ⟨k, w.small, before ++ after, pages⟩) := by
    unfold KmallocWorld.live
    rw [hlive]
    simp [Finset.union_insert]
  rw [hwhole, Finset.erase_insert fun hmem ↦ ?_]
  exact (Finset.mem_union.mp hmem).elim (h.fresh use huse) hother

/-- What the allocator does outside the blocks in use. -/
theorem Entries.keep (h : Entries arena w) (hkeeps : Keeps w.live w.kernel.slob s)
    (hpages : ∀ use ∈ w.big, ∀ p ∈ pages, Apart p PGSIZE use.start (use.count * PGSIZE)) :
    Entries arena ⟨⟨s, w.kernel.bigblocks⟩, w.small, w.big, pages⟩ where
  header b hb := by
    have hheader := h.header b hb
    have hsame := hkeeps b (mem_live_small hb) b.1 le_rfl (lt_plus (by omega))
    exact ⟨hsame.1.trans hheader.1, hheader.2⟩
  listed := h.listed
  entry use huse := by
    have hentry := h.entry use huse
    have hpositive : 0 < slobUnits sizeofBigblock := by decide
    have hsame := hkeeps _ (mem_live_big huse) use.bb le_rfl (lt_plus hpositive)
    exact ⟨hsame.2.trans hentry.1, hsame.1.symm ▸ hentry.2⟩
  aligned := h.aligned
  distinct := h.distinct
  fresh := h.fresh
  arena_apart := h.arena_apart
  pages_apart := hpages

theorem Entries.insertSmall (h : Entries arena w) (hheader : w.kernel.slob.units b.1 = b.2 ∧ 2 ≤ b.2)
    (hfresh : b ∉ w.live) : Entries arena ⟨w.kernel, insert b w.small, w.big, w.pages⟩ where
  header c hc := by
    rcases Finset.mem_insert.mp hc with rfl | hc
    · exact hheader
    · exact h.header c hc
  listed := h.listed
  entry := h.entry
  aligned := h.aligned
  distinct := h.distinct
  fresh use huse hmem := by
    rcases Finset.mem_insert.mp hmem with heq | hmem
    · exact hfresh (heq ▸ mem_live_big huse)
    · exact h.fresh use huse hmem
  arena_apart := h.arena_apart
  pages_apart := h.pages_apart

theorem Entries.consBig (h : Entries arena w) (use : BigUse) (hentry : w.kernel.slob.next use.bb = use.start ∧
    2 ^ w.kernel.slob.units use.bb = use.count) (haligned : use.start % PGSIZE = 0 ∧ 0 < use.start)
    (hapart : ∀ other ∈ w.big,
      Apart use.start (use.count * PGSIZE) other.start (other.count * PGSIZE))
    (hfresh : (use.bb, slobUnits sizeofBigblock) ∉ w.live)
    (harena : Apart arena SLOB_UNIT use.start (use.count * PGSIZE))
    (hpages : ∀ p ∈ w.pages, Apart p PGSIZE use.start (use.count * PGSIZE)) :
    Entries arena ⟨⟨w.kernel.slob, use.bb :: w.kernel.bigblocks⟩, w.small, use :: w.big, w.pages⟩ where
  header := h.header
  listed := congrArg (use.bb :: ·) h.listed
  entry := List.forall_mem_cons.mpr ⟨hentry, h.entry⟩
  aligned := List.forall_mem_cons.mpr ⟨haligned, h.aligned⟩
  distinct := List.pairwise_cons.mpr ⟨fun other hother ↦
    ⟨fun heq ↦ hfresh (heq ▸ mem_live_big hother), hapart other hother⟩, h.distinct⟩
  fresh := List.forall_mem_cons.mpr ⟨fun hmem ↦ hfresh (mem_live_small hmem), h.fresh⟩
  arena_apart := List.forall_mem_cons.mpr ⟨harena, h.arena_apart⟩
  pages_apart := List.forall_mem_cons.mpr ⟨hpages, h.pages_apart⟩

theorem Entries.eraseSmall (h : Entries arena w) (b : ℕ × ℕ) :
    Entries arena ⟨w.kernel, w.small.erase b, w.big, w.pages⟩ where
  header c hc := h.header c (Finset.mem_of_mem_erase hc)
  listed := h.listed
  entry := h.entry
  aligned := h.aligned
  distinct := h.distinct
  fresh use huse hmem := h.fresh use huse (Finset.mem_of_mem_erase hmem)
  arena_apart := h.arena_apart
  pages_apart := h.pages_apart

theorem Entries.eraseBig (h : Entries arena w) (hlive : w.big = before ++ use :: after) :
    Entries arena ⟨⟨w.kernel.slob, (before ++ after).map BigUse.bb⟩, w.small, before ++ after, w.pages⟩ := by
  have hsub : List.Sublist (before ++ after) w.big := by
    rw [hlive]
    exact (List.Sublist.refl before).append (List.sublist_cons_self use after)
  have hmem : ∀ other ∈ before ++ after, other ∈ w.big :=
    fun other hother ↦ hsub.subset hother
  exact ⟨h.header, rfl, fun other hother ↦ h.entry other (hmem other hother),
    fun other hother ↦ h.aligned other (hmem other hother), h.distinct.sublist hsub,
    fun other hother ↦ h.fresh other (hmem other hother),
    fun other hother ↦ h.arena_apart other (hmem other hother),
    fun other hother ↦ h.pages_apart other (hmem other hother)⟩

end Entries

section Kmalloc

variable {arena size n : ℕ} {w : KmallocWorld} {answers : ℕ → Option ℕ} {run : Option ℕ}

/-- A block in pages is apart from what the pages are apart from. -/
theorem Within.apart_run {pages : Finset ℕ} {block units start bytes : ℕ} (h : Within pages block units)
    (hpages : ∀ p ∈ pages, Apart p PGSIZE start bytes) (hpos : 0 < units) (hbytes : 0 < bytes) :
    plus block units ≤ start ∨ start + bytes ≤ block := by
  by_contra hnot
  have hlt : block < plus block units := lt_plus hpos
  rcases h.covered (max block start) (le_max_left _ _) (by omega) with ⟨p, hp, hlow, hhigh⟩
  have hapart := hpages p hp
  unfold Apart at hapart
  omega

theorem Entries.bytes_pos {use : BigUse} (h : Entries arena w) (huse : use ∈ w.big) :
    0 < use.count * PGSIZE := by
  rw [← (h.entry use huse).2]
  exact Nat.mul_pos (Nat.two_pow_pos _) (by decide)

/-- What `slob_alloc` does for `kmalloc`. -/
theorem KmallocWorld.Holds.slobAlloc_cases (h : w.Holds arena) (hrequest : SlobRequest n 0)
    (hsupplies : KmallocSupplies arena w size answers run) :
    (∃ m s obtained nodes,
      Returns (fun fuel ↦ slobAlloc n 0 answers fuel w.kernel.slob) (some m, s, obtained) ∧
      (m, slobUnits n) ∉ w.live ∧ s.units m = slobUnits n ∧
      (Arena arena s nodes (insert (m, slobUnits n) w.live) (w.pages ∪ obtained.toFinset) ∧
        Separated s nodes ∧ s.slobfree ∈ nodes) ∧
      (∀ p ∈ obtained.toFinset, ∃ call, answers call = some p) ∧
      Entries arena ⟨⟨s, w.kernel.bigblocks⟩, w.small, w.big, w.pages ∪ obtained.toFinset⟩) ∨
    answers 0 = none ∧
      Returns (fun fuel ↦ slobAlloc n 0 answers fuel w.kernel.slob) (none, w.kernel.slob, []) := by
  rcases h with ⟨hentries, nodes, harena, hsep, hstart⟩
  rcases harena.slobAlloc_returns hsep hstart hrequest (hsupplies.pages 0) with
    ⟨m, s, obtained, nodes', hcall, hpages, hafter, hsep', hstart', hunits, -, hfresh, hkeeps⟩ |
    ⟨hnone, -, hcall⟩
  · have hanswered : ∀ p ∈ obtained.toFinset, ∃ call, answers call = some p := by
      intro p hp
      rcases hpages with rfl | ⟨q, hq, rfl⟩
      · exact absurd (List.mem_toFinset.mp hp) List.not_mem_nil
      · rw [List.mem_toFinset, List.mem_singleton] at hp
        exact ⟨0, hp ▸ hq⟩
    refine Or.inl ⟨m, s, obtained, nodes', hcall, hfresh, hunits, ⟨hafter, hsep', hstart'⟩, hanswered,
      hentries.keep hkeeps fun use huse p hp ↦ ?_⟩
    rcases Finset.mem_union.mp hp with hp | hp
    · exact hentries.pages_apart use huse p hp
    · rcases hanswered p hp with ⟨call, hcall⟩
      exact hsupplies.pages_apart call p hcall use huse
  · exact Or.inr ⟨hnone, hcall⟩

theorem after_none (w : KmallocWorld) : w.after ⟨none, w.kernel, [], none⟩ = w := by
  simp [KmallocWorld.after]

/-- What `kmalloc` leaves, and what it returns. -/
structure Serves (arena : ℕ) (w : KmallocWorld) (r : Served) : Prop where
  holds : (w.after r).Holds arena
  usable : ∀ p, r.block = some p → (w.after r).Usable p (r.bytes p)
  apart : ∀ p, r.block = some p → ∀ start bytes, w.Usable start bytes → Apart p (r.bytes p) start bytes

theorem KmallocWorld.Holds.serves_none (h : w.Holds arena) : Serves arena w ⟨none, w.kernel, [], none⟩ :=
  ⟨(after_none w).symm ▸ h, nofun, nofun⟩

/-- A small block. -/
theorem KmallocWorld.Holds.kmalloc_small (h : w.Holds arena) (hsize : 0 < size)
    (hsmall : size + 2 * SLOB_UNIT < PGSIZE) (hsupplies : KmallocSupplies arena w size answers run) :
    ∃ r, Returns (fun fuel ↦ kmalloc size answers run fuel w.kernel) r ∧ Serves arena w r ∧
      ∀ p, r.block = some p → size ≤ r.bytes p := by
  have hlow : size < PGSIZE - SLOB_UNIT := by omega
  have hrequest : SlobRequest (size + SLOB_UNIT) 0 := ⟨by omega, by omega, Or.inl rfl⟩
  have hcall : ∀ {m : Option ℕ} {s : Slob} {obtained : List ℕ},
      Returns (fun fuel ↦ slobAlloc (size + SLOB_UNIT) 0 answers fuel w.kernel.slob) (m, s, obtained) →
      Returns (fun fuel ↦ kmalloc size answers run fuel w.kernel)
        ⟨m.map (plus · 1), ⟨s, w.kernel.bigblocks⟩, obtained, none⟩ := by
    intro m s obtained hm
    have hrest : Returns (fun fuel ↦ slobAlloc (size + SLOB_UNIT) 0 answers fuel w.kernel.slob >>=
        fun served ↦ .ok ⟨served.1.map (plus · 1), ⟨served.2.1, w.kernel.bigblocks⟩, served.2.2, none⟩)
        (⟨m.map (plus · 1), ⟨s, w.kernel.bigblocks⟩, obtained, none⟩ : Served) :=
      hm.bind (.of_eq fun _ ↦ rfl)
    refine .congr (fun fuel ↦ ?_) hrest
    rw [kmalloc, if_pos hlow]
    rfl
  rcases h.slobAlloc_cases hrequest hsupplies with
    ⟨m, s, obtained, nodes, hm, hfresh, hunits, hslob, hanswered, hentries⟩ | ⟨-, hm⟩
  · have hpositive := hrequest.slobUnits_le.1
    have hbytes : size ≤ (slobUnits (size + SLOB_UNIT) - 1) * SLOB_UNIT := by
      unfold slobUnits SLOB_UNIT
      omega
    generalize slobUnits (size + SLOB_UNIT) = u at *
    have hafter : w.after ⟨some (plus m 1), ⟨s, w.kernel.bigblocks⟩, obtained, none⟩ =
        ⟨⟨s, w.kernel.bigblocks⟩, insert (m, u) w.small, w.big,
          w.pages ∪ obtained.toFinset⟩ := by
      simp [KmallocWorld.after, plus, hunits]
    have hserved : Served.bytes ⟨some (plus m 1), ⟨s, w.kernel.bigblocks⟩, obtained, none⟩ (plus m 1) =
        (u - 1) * SLOB_UNIT := by
      simp [Served.bytes, plus, hunits]
    have hentries' := hentries.insertSmall (b := (m, u)) ⟨hunits, hpositive⟩ hfresh
    refine ⟨⟨some (plus m 1), ⟨s, w.kernel.bigblocks⟩, obtained, none⟩, hcall hm,
      ⟨hafter.symm ▸ ⟨hentries', nodes, ?_⟩, fun p hp ↦ ?_, fun p hp start bytes husable ↦ ?_⟩,
      fun p hp ↦ ?_⟩
    · rw [live_insertSmall]
      exact hslob
    · cases hp
      rw [hserved, hafter]
      exact .small (m, u) (Finset.mem_insert_self (m, u) w.small)
    · cases hp
      have hmem := Finset.mem_insert_self (m, u) w.live
      have hend : plus m 1 + (u - 1) * SLOB_UNIT =
          plus m (u) := by
        unfold plus SLOB_UNIT
        omega
      have hstart : plus m 1 = m + SLOB_UNIT := by
        unfold plus
        rw [Nat.one_mul]
      rw [hserved, Apart, hend]
      cases husable with
      | small b hb =>
        have hapart := hslob.1.live_apart _ hmem b (Finset.mem_insert_of_mem (mem_live_small hb))
          fun heq ↦ hfresh (heq ▸ mem_live_small hb)
        have hheader := hentries.header b hb
        unfold plus SLOB_UNIT at *
        dsimp only at *
        omega
      | big use huse =>
        have hapart := (hslob.1.live_within _ hmem).apart_run (hentries.pages_apart _ huse)
          (by omega) (hentries.bytes_pos huse)
        dsimp only at hapart
        omega
    · cases hp
      exact hserved.symm ▸ hbytes
  · exact ⟨_, hcall hm, h.serves_none, fun p hp ↦ (by cases hp)⟩

theorem slobRequest_bigblock : SlobRequest sizeofBigblock 0 := ⟨by decide, by decide, Or.inl rfl⟩

/-- The fields of an entry are inside of it. -/
theorem Arena.writeEntry {s : Slob} {nodes pages : Finset ℕ} {live : Finset (ℕ × ℕ)} {bb u : ℕ}
    (h : Arena arena s nodes (insert (bb, u) live) pages) (hfresh : (bb, u) ∉ live) (order start : ℕ) :
    (∀ x ∈ nodes, x ≠ bb) ∧ Keeps live s ((s.setUnits bb order).setNext bb start) := by
  have hmem := Finset.mem_insert_self (bb, u) live
  refine ⟨fun x hx heq ↦ ?_, fun c hc z hlow hhigh ↦ ?_⟩
  · have hapart : plus x (s.units x) ≤ bb ∨ plus bb u ≤ x := h.free_apart x hx _ hmem
    have hlt : bb < plus bb u := lt_plus (h.live_positive _ hmem)
    have hlt' : x < plus x (s.units x) := lt_plus (h.positive x hx)
    omega
  · have hapart : plus c.1 c.2 ≤ bb ∨ plus bb u ≤ c.1 :=
      h.live_apart c (Finset.mem_insert_of_mem hc) _ hmem fun heq ↦ hfresh (heq ▸ hc)
    have hlt : bb < plus bb u := lt_plus (h.live_positive _ hmem)
    have hne : z ≠ bb := by omega
    exact ⟨Function.update_of_ne hne .., Function.update_of_ne hne ..⟩

/-- A block of whole pages. -/
theorem KmallocWorld.Holds.kmalloc_big (h : w.Holds arena) (hlarge : PGSIZE - SLOB_UNIT ≤ size)
    (hsupplies : KmallocSupplies arena w size answers run) :
    ∃ r, Returns (fun fuel ↦ kmalloc size answers run fuel w.kernel) r ∧ Serves arena w r ∧
      (∀ p, r.block = some p → r.bytes p = 2 ^ findOrder (int32 size) * PGSIZE) ∧
      ∀ q start, answers 0 = some q → run = some start → r.block = some start := by
  have hcall : ∀ {served : Option ℕ × Slob × List ℕ} {r : Served},
      Returns (fun fuel ↦ slobAlloc sizeofBigblock 0 answers fuel w.kernel.slob) served →
      Returns (fun fuel ↦ kmallocPages size run fuel w.kernel served) r →
      Returns (fun fuel ↦ kmalloc size answers run fuel w.kernel) r := by
    intro served r hserved hrest
    refine .congr (fun fuel ↦ ?_) (hserved.bind hrest)
    rw [kmalloc, if_neg (not_lt.mpr hlarge)]
  rcases h.slobAlloc_cases slobRequest_bigblock hsupplies with
    ⟨bb, s, obtained, nodes, hbb, hfresh, hunits, ⟨harena, hsep, hstart⟩, hanswered, hentries⟩ |
    ⟨hnone, hbb⟩
  · have hrunApart := hsupplies.run_apart
    have hrunPages := hsupplies.run_pages
    have hrunAnswers := hsupplies.run_answers
    have hrunArena := hsupplies.run_arena
    have hloop : ∀ r, Returns (fun fuel ↦ kmallocPages size run fuel w.kernel (some bb, s, obtained)) r →
        Returns (fun fuel ↦ kmalloc size answers run fuel w.kernel) r := fun r ↦ hcall hbb
    unfold kmallocPages at hloop
    generalize findOrder (int32 size) = order at *
    rcases harena.writeEntry hfresh order (run.getD 0) with ⟨hnodes, hkeeps⟩
    have hwritten : ∀ x ∈ nodes, ((s.setUnits bb order).setNext bb (run.getD 0)).units x = s.units x ∧
        ((s.setUnits bb order).setNext bb (run.getD 0)).next x = s.next x :=
      fun x hx ↦ ⟨Function.update_of_ne (hnodes x hx) .., Function.update_of_ne (hnodes x hx) ..⟩
    have harena' := harena.congr (fun x hx ↦ (hwritten x hx).2) fun x hx ↦ (hwritten x hx).1
    have hsep' := hsep.congr fun x hx ↦ (hwritten x hx).1
    have hentries' := hentries.keep hkeeps hentries.pages_apart
    rcases run with - | start
    · -- the entry is freed again
      have hsized : FreedWith ((s.setUnits bb order).setNext bb 0) bb (slobUnits sizeofBigblock)
          sizeofBigblock := by
        rw [FreedWith, if_neg (by decide)]
      rcases harena'.slobFree_returns hsep' hstart (Finset.mem_insert_self ..) hsized with
        ⟨s', nodes', hfree, hafter, hsep'', hstart', hkeeps', -⟩
      rw [Finset.erase_insert hfresh] at hafter hkeeps'
      have hentries'' := hentries'.keep hkeeps' hentries.pages_apart
      have hworld : w.after ⟨none, ⟨s', w.kernel.bigblocks⟩, obtained, none⟩ =
        ⟨⟨s', w.kernel.bigblocks⟩, w.small, w.big, w.pages ∪ obtained.toFinset⟩ := rfl
      exact ⟨⟨none, ⟨s', w.kernel.bigblocks⟩, obtained, none⟩, hloop _ (hfree.bind (.of_eq fun _ ↦ rfl)),
        ⟨hworld ▸ ⟨hentries'', nodes', hafter, hsep'', hstart'⟩, nofun, nofun⟩, nofun, nofun⟩
    · have hpages : ∀ p ∈ w.pages ∪ obtained.toFinset, Apart p PGSIZE start (2 ^ order * PGSIZE) := by
        intro p hp
        rcases Finset.mem_union.mp hp with hp | hp
        · exact hrunPages start rfl p hp
        · rcases hanswered p hp with ⟨call, hcall⟩
          exact hrunAnswers start rfl call p hcall
      have hbb : ((s.setUnits bb order).setNext bb start).next bb = start ∧
          2 ^ ((s.setUnits bb order).setNext bb start).units bb = 2 ^ order :=
        ⟨Function.update_self .., congrArg (2 ^ ·) (Function.update_self ..)⟩
      have hentries'' := hentries'.consBig ⟨bb, start, 2 ^ order⟩ hbb
        (hsupplies.aligned start rfl) (hrunApart start rfl) hfresh (hrunArena start rfl) hpages
      refine ⟨_, hloop _ (.of_eq fun _ ↦ rfl), ⟨⟨hentries'', nodes, ?_, hsep', hstart⟩, fun p hp ↦ ?_,
        fun p hp first bytes husable ↦ ?_⟩, fun p hp ↦ rfl, fun q first _ hfirst ↦ hfirst⟩
      · exact (live_consBig w ⟨bb, start, 2 ^ order⟩).symm ▸ harena'
      · cases hp
        exact .big ⟨bb, start, 2 ^ order⟩ List.mem_cons_self
      · cases hp
        change Apart start (2 ^ order * PGSIZE) first bytes
        cases husable with
        | small b hb =>
          have hmem := Finset.mem_insert_of_mem (b := (bb, slobUnits sizeofBigblock)) (mem_live_small hb)
          have hheader := hentries.header _ hb
          have hrun := (harena.live_within _ hmem).apart_run hpages (by omega)
            (Nat.mul_pos (Nat.two_pow_pos order) (by decide))
          unfold Apart
          unfold plus SLOB_UNIT at *
          omega
        | big use huse => exact hrunApart start rfl _ huse
  · refine ⟨_, hcall hbb (.of_eq fun _ ↦ rfl), h.serves_none, nofun, fun q start hq ↦ ?_⟩
    rw [hnone] at hq
    cases hq

/-! ## `kfree` -/

theorem takeBig_none {s : Slob} {big : List BigUse} {block : ℕ}
    (h : ∀ use ∈ big, s.next use.bb ≠ block) : takeBig s block (big.map BigUse.bb) = none := by
  induction big with
  | nil => rfl
  | cons use big ih =>
    rw [List.forall_mem_cons] at h
    rw [List.map_cons, takeBig, if_neg h.1, ih h.2]
    rfl

theorem takeBig_append {s : Slob} {before after : List BigUse} {use : BigUse}
    (h : s.next use.bb = use.start) (hbefore : ∀ other ∈ before, s.next other.bb ≠ use.start) :
    takeBig s use.start ((before ++ use :: after).map BigUse.bb) =
      some (use.bb, (before ++ after).map BigUse.bb) := by
  induction before with
  | nil => rw [List.nil_append, List.map_cons, takeBig, if_pos h, List.nil_append]
  | cons other before ih =>
    rw [List.forall_mem_cons] at hbefore
    rw [List.cons_append, List.map_cons, takeBig, if_neg hbefore.1, ih hbefore.2]
    rfl

theorem Arena.freeUnits {s : Slob} {nodes pages : Finset ℕ} {live : Finset (ℕ × ℕ)} {count : ℕ}
    (h : Arena arena s nodes live pages) (hstart : s.slobfree ∈ nodes) :
    FreeUnits s count ↔ ∑ x ∈ nodes, s.units x = count := by
  constructor
  · rintro ⟨nodes', horder, hstart', hcount⟩
    rwa [h.order.unique horder hstart hstart']
  · exact fun hcount ↦ ⟨nodes, h.order, hstart, hcount⟩

/-- The units of a block that is in use no more are free. -/
theorem Arena.givesBack {s s' : Slob} {nodes nodes' pages : Finset ℕ} {live : Finset (ℕ × ℕ)} {b u : ℕ}
    (h : Arena arena s nodes live pages) (hstart : s.slobfree ∈ nodes)
    (h' : Arena arena s' nodes' (live.erase (b, u)) pages) (hstart' : s'.slobfree ∈ nodes')
    (hb : (b, u) ∈ live) : GivesBack s s' u := by
  intro count hcount
  rw [h.freeUnits hstart] at hcount
  rw [h'.freeUnits hstart']
  have hlive := Finset.add_sum_erase live (fun c ↦ c.2) hb
  have htotal := h.total
  have htotal' := h'.total
  dsimp only at hlive
  omega

theorem KmallocWorld.Holds.kfree_small {b : ℕ × ℕ} (h : w.Holds arena) (hb : b ∈ w.small) :
    ∃ k, Returns (fun fuel ↦ kfree (plus b.1 1) fuel w.kernel) (k, none) ∧
      GivesBack w.kernel.slob k.slob b.2 ∧
      KmallocWorld.Holds arena ⟨k, w.small.erase b, w.big, w.pages⟩ := by
  rcases h with ⟨hentries, nodes, harena, hsep, hstart⟩
  have hlive := mem_live_small hb
  have hheader := hentries.header b hb
  have hplus : plus b.1 1 = b.1 + SLOB_UNIT := by
    unfold plus
    rw [Nat.one_mul]
  -- the pointer is in a page of the allocator, so it is no run of pages
  have hother : ∀ use ∈ w.big, w.kernel.slob.next use.bb ≠ plus b.1 1 := by
    intro use huse heq
    have hrun := (harena.live_within b hlive).apart_run (hentries.pages_apart use huse) (by omega)
      (hentries.bytes_pos huse)
    have hbytes := hentries.bytes_pos huse
    rw [← (hentries.entry use huse).1, heq] at hrun
    unfold plus SLOB_UNIT at hrun
    omega
  have hnone : (if plus b.1 1 % PGSIZE = 0 then
      takeBig w.kernel.slob (plus b.1 1) w.kernel.bigblocks else none) = none := by
    rw [hentries.listed, takeBig_none hother, ite_self]
  have hsized : FreedWith w.kernel.slob b.1 b.2 0 := by
    rw [FreedWith, if_pos rfl]
    exact hheader.1
  rcases harena.slobFree_returns hsep hstart hlive hsized with
    ⟨s, nodes', hfree, harena', hsep', hstart', hkeeps, -⟩
  refine ⟨⟨s, w.kernel.bigblocks⟩, ?_, harena.givesBack hstart harena' hstart' hlive, ?_, nodes', ?_,
    hsep', hstart'⟩
  · have hcall : Returns (fun fuel ↦ slobFree fuel w.kernel.slob b.1 0 >>= fun s ↦
        .ok ((⟨s, w.kernel.bigblocks⟩, none) : Kmalloc × Option (ℕ × ℕ))) (⟨s, w.kernel.bigblocks⟩, none) :=
      hfree.bind (.of_eq fun _ ↦ rfl)
    refine .congr (fun fuel ↦ ?_) hcall
    have hne : plus b.1 1 ≠ 0 := by
      rw [hplus]
      exact Nat.succ_ne_zero _
    rw [kfree, if_neg hne, hnone, hplus, Nat.add_sub_cancel]
    rfl
  · have hdropped := hentries.eraseSmall b
    refine hdropped.keep ?_ hentries.pages_apart
    rwa [hentries.live_eraseSmall hb]
  · rw [hentries.live_eraseSmall hb]
    exact harena'

theorem KmallocWorld.Holds.kfree_big {before after : List BigUse} {use : BigUse} (h : w.Holds arena)
    (hlive : w.big = before ++ use :: after) :
    ∃ k, Returns (fun fuel ↦ kfree use.start fuel w.kernel) (k, some (use.start, use.count)) ∧
      GivesBack w.kernel.slob k.slob (slobUnits sizeofBigblock) ∧
      KmallocWorld.Holds arena ⟨k, w.small, before ++ after, w.pages⟩ := by
  rcases h with ⟨hentries, nodes, harena, hsep, hstart⟩
  have huse : use ∈ w.big := hlive ▸ List.mem_append_right _ List.mem_cons_self
  have hentry := hentries.entry use huse
  have haligned := hentries.aligned use huse
  -- no other run starts at the same address
  have hbefore : ∀ other ∈ before, w.kernel.slob.next other.bb ≠ use.start := by
    intro other hother heq
    have hmem : other ∈ w.big := hlive ▸ List.mem_append_left _ hother
    have hdistinct := hentries.distinct
    rw [hlive, List.pairwise_append] at hdistinct
    have hapart := (hdistinct.2.2 other hother use List.mem_cons_self).2
    have hbytes := hentries.bytes_pos huse
    have hbytes' := hentries.bytes_pos hmem
    rw [(hentries.entry other hmem).1] at heq
    unfold Apart at hapart
    omega
  have htake : takeBig w.kernel.slob use.start ((before ++ use :: after).map BigUse.bb) = _ :=
    takeBig_append hentry.1 hbefore
  have hsized : FreedWith w.kernel.slob use.bb (slobUnits sizeofBigblock) sizeofBigblock := by
    rw [FreedWith, if_neg (by decide)]
  have hmem := mem_live_big huse
  rcases harena.slobFree_returns hsep hstart hmem hsized with
    ⟨s, nodes', hfree, harena', hsep', hstart', hkeeps, -⟩
  refine ⟨⟨s, (before ++ after).map BigUse.bb⟩, ?_, harena.givesBack hstart harena' hstart' hmem, ?_,
    nodes', ?_, hsep', hstart'⟩
  · have hcall : Returns (fun fuel ↦ slobFree fuel w.kernel.slob use.bb sizeofBigblock >>= fun s ↦
        .ok ((⟨s, (before ++ after).map BigUse.bb⟩, some (use.start, 2 ^ w.kernel.slob.units use.bb)) :
          Kmalloc × Option (ℕ × ℕ)))
        (⟨s, (before ++ after).map BigUse.bb⟩, some (use.start, 2 ^ w.kernel.slob.units use.bb)) :=
      hfree.bind (.of_eq fun _ ↦ rfl)
    rw [hentry.2] at hcall
    refine .congr (fun fuel ↦ ?_) hcall
    rw [kfree, if_neg haligned.2.ne', if_pos haligned.1, hentries.listed, hlive, htake]
    dsimp only
    rw [hentry.2]
    rfl
  · have hdropped := hentries.eraseBig hlive
    refine hdropped.keep ?_ fun other hother ↦ hdropped.pages_apart other hother
    rwa [hentries.live_eraseBig hlive]
  · rw [hentries.live_eraseBig hlive]
    exact harena'

theorem KmallocWorld.Holds.kfreeRight (h : w.Holds arena) : KfreeRight w := by
  refine ⟨fun b hb ↦ ?_, fun use huse ↦ ?_⟩
  · rcases h.kfree_small hb with ⟨k, hcall, hback, -⟩
    exact ⟨k, hcall, hback⟩
  · rcases List.append_of_mem huse with ⟨before, after, hlive⟩
    rcases h.kfree_big hlive with ⟨k, hcall, hback, -⟩
    exact ⟨k, hcall, hback⟩

/-! ## Runs -/

/-- The headers and the free blocks are outside of what the owners write. -/
theorem Entries.apart_usable {s : Slob} {nodes : Finset ℕ} {z start bytes : ℕ} (h : Entries arena w)
    (harena : Arena arena s nodes w.live w.pages) (hz : z ∈ nodes ∨ ∃ c ∈ w.live, c.1 = z)
    (husable : w.Usable start bytes) : Apart z SLOB_UNIT start bytes := by
  cases husable with
  | small b hb =>
    have hheader := h.header b hb
    rcases hz with hz | ⟨c, hc, rfl⟩
    · have hapart := harena.free_apart z hz b (mem_live_small hb)
      have hpositive := harena.positive z hz
      unfold Apart
      unfold plus SLOB_UNIT at *
      omega
    · by_cases heq : c = b
      · rw [heq]
        exact Or.inl (by unfold plus; omega)
      · have hapart := harena.live_apart c hc b (mem_live_small hb) heq
        have hpositive := harena.live_positive c hc
        unfold Apart
        unfold plus SLOB_UNIT at *
        omega
  | big use huse =>
    have hwithin : z ≠ arena → ∃ units, 0 < units ∧ Within w.pages z units := by
      intro hne
      rcases hz with hz | ⟨c, hc, rfl⟩
      · exact ⟨_, harena.positive z hz, harena.within z hz hne⟩
      · exact ⟨_, harena.live_positive c hc, harena.live_within c hc⟩
    by_cases hne : z = arena
    · exact hne ▸ h.arena_apart use huse
    · rcases hwithin hne with ⟨units, hpos, hwithin⟩
      have hrun := hwithin.apart_run (h.pages_apart use huse) hpos (h.bytes_pos huse)
      unfold Apart
      unfold plus SLOB_UNIT at *
      omega

theorem KmallocWorld.Holds.use {s : Slob} (h : w.Holds arena)
    (hslobfree : s.slobfree = w.kernel.slob.slobfree)
    (hwrite : ∀ z, (∀ start bytes, w.Usable start bytes → Apart z SLOB_UNIT start bytes) →
      s.units z = w.kernel.slob.units z ∧ s.next z = w.kernel.slob.next z) :
    KmallocWorld.Holds arena ⟨⟨s, w.kernel.bigblocks⟩, w.small, w.big, w.pages⟩ := by
  rcases h with ⟨hentries, nodes, harena, hsep, hstart⟩
  have hnodes : ∀ x ∈ nodes, s.units x = w.kernel.slob.units x ∧ s.next x = w.kernel.slob.next x :=
    fun x hx ↦ hwrite x fun _ _ ↦ hentries.apart_usable harena (Or.inl hx)
  have hlive : ∀ c ∈ w.live, s.units c.1 = w.kernel.slob.units c.1 ∧
      s.next c.1 = w.kernel.slob.next c.1 :=
    fun c hc ↦ hwrite c.1 fun _ _ ↦ hentries.apart_usable harena (Or.inr ⟨c, hc, rfl⟩)
  refine ⟨⟨fun b hb ↦ ?_, hentries.listed, fun use huse ↦ ?_, hentries.aligned, hentries.distinct,
    hentries.fresh, hentries.arena_apart, hentries.pages_apart⟩, nodes,
    harena.congr (fun x hx ↦ (hnodes x hx).2) fun x hx ↦ (hnodes x hx).1,
    hsep.congr fun x hx ↦ (hnodes x hx).1, hslobfree.symm ▸ hstart⟩
  · have hheader := hentries.header b hb
    exact ⟨(hlive b (mem_live_small hb)).1.trans hheader.1, hheader.2⟩
  · have hentry := hentries.entry use huse
    have hsame := hlive _ (mem_live_big huse)
    exact ⟨hsame.2.trans hentry.1, hsame.1.symm ▸ hentry.2⟩

theorem FirstKmalloc.holds (h : FirstKmalloc arena w) : w.Holds arena := by
  rcases h.slob.holds with ⟨nodes, harena, hsep, hstart⟩
  have hsmall : w.small = ∅ := h.slob.live
  have hlive : w.live = w.small := by
    unfold KmallocWorld.live
    rw [h.big, List.map_nil, List.toFinset_nil, Finset.union_empty]
  refine ⟨⟨fun b hb ↦ ?_, ?_, ?_, ?_, ?_, ?_, ?_, ?_⟩, nodes, hlive.symm ▸ harena, hsep, hstart⟩
  · rw [hsmall] at hb
    exact absurd hb (Finset.notMem_empty b)
  · rw [h.bigblocks, h.big, List.map_nil]
  all_goals
    rw [h.big]
    simp

/-- Such a request fails the assertion of `slob_alloc`. -/
theorem not_returns_kmalloc (hlow : PGSIZE ≤ size + 2 * SLOB_UNIT) (hhigh : size < PGSIZE - SLOB_UNIT)
    (r : Served) : ¬Returns (fun fuel ↦ kmalloc size answers run fuel w.kernel) r := by
  rintro ⟨bound, hbound⟩
  have hcall : kmalloc size answers run bound w.kernel = .ok r := hbound bound le_rfl
  have hfails : ¬(size + SLOB_UNIT) + SLOB_UNIT < PGSIZE := by omega
  rw [kmalloc, if_pos hhigh, slobAlloc, Outcome.require_of_false hfails] at hcall
  cases hcall

theorem KmallocWorld.Holds.step {w' : KmallocWorld} (h : w.Holds arena) (hstep : KmallocStep arena w w') :
    w'.Holds arena := by
  cases hstep with
  | @alloc size answers run r hsize hsupplies hcall =>
    by_cases hsmall : size + 2 * SLOB_UNIT < PGSIZE
    · rcases h.kmalloc_small hsize hsmall hsupplies with ⟨r', hcall', hserves, -⟩
      rw [hcall.unique hcall']
      exact hserves.holds
    · by_cases hlarge : PGSIZE - SLOB_UNIT ≤ size
      · rcases h.kmalloc_big hlarge hsupplies with ⟨r', hcall', hserves, -⟩
        rw [hcall.unique hcall']
        exact hserves.holds
      · exact absurd hcall (not_returns_kmalloc (not_lt.mp hsmall) (not_le.mp hlarge) r)
  | freeSmall hlive hcall =>
    rcases h.kfree_small hlive with ⟨k, hcall', -, hafter⟩
    cases hcall.unique hcall'
    exact hafter
  | freeBig hlive hcall =>
    rcases h.kfree_big hlive with ⟨k, hcall', -, hafter⟩
    cases hcall.unique hcall'
    exact hafter
  | use hslobfree hwrite => exact h.use hslobfree hwrite

theorem kmallocHolds_of_reachable (h : Reachable (FirstKmalloc arena) (KmallocStep arena) w) :
    w.Holds arena :=
  h.invariant (fun _ ↦ FirstKmalloc.holds) fun _ _ ↦ KmallocWorld.Holds.step

/-- There may always be enough memory. -/
theorem exists_supplies (arena : ℕ) (w : KmallocWorld) (size : ℕ) : ∃ q start,
    KmallocSupplies arena w size (fun _ ↦ some q) (some start) := by
  -- everything in use is below
  obtain ⟨high, hhigh⟩ := (insert (arena + SLOB_UNIT) (w.pages.image (· + PGSIZE) ∪
    (w.big.map fun use : BigUse ↦ use.start + use.count * PGSIZE).toFinset)).exists_le
  have harena : arena + SLOB_UNIT ≤ high := hhigh _ (Finset.mem_insert_self ..)
  have hpages : ∀ p ∈ w.pages, p + PGSIZE ≤ high := fun p hp ↦ hhigh _ (Finset.mem_insert_of_mem
    (Finset.mem_union_left _ (Finset.mem_image_of_mem _ hp)))
  have hbig : ∀ use ∈ w.big, use.start + use.count * PGSIZE ≤ high := fun use huse ↦ hhigh _
    (Finset.mem_insert_of_mem (Finset.mem_union_right _
      (List.mem_toFinset.mpr (List.mem_map.mpr ⟨use, huse, rfl⟩))))
  have hpage : 0 < PGSIZE := by decide
  have hle : high < (high + 1) * PGSIZE := by
    unfold PGSIZE
    omega
  have hnext : (high + 1) * PGSIZE + PGSIZE = (high + 2) * PGSIZE := by
    unfold PGSIZE
    omega
  refine ⟨(high + 1) * PGSIZE, (high + 2) * PGSIZE, ⟨fun call p hp ↦ ?_, fun call p hp use huse ↦ ?_,
    fun start hstart ↦ ?_, fun start hstart use huse ↦ ?_, fun start hstart p hp ↦ ?_,
    fun start hstart ↦ ?_, fun start hstart call p hp ↦ ?_⟩⟩
  · cases hp
    refine ⟨⟨Nat.mul_mod_left .., by omega, Or.inr (by omega)⟩, fun hmem ↦ ?_⟩
    have hlow := hpages _ hmem
    omega
  · cases hp
    exact Or.inr ((hbig use huse).trans hle.le)
  · cases hstart
    exact ⟨Nat.mul_mod_left .., by omega⟩
  · cases hstart
    exact Or.inr ((hbig use huse).trans (by omega))
  · cases hstart
    exact Or.inl ((hpages p hp).trans (by omega))
  · cases hstart
    exact Or.inl (harena.trans (by omega))
  · cases hstart
    cases hp
    exact Or.inl hnext.le

/-- The sizes that `kmalloc` serves. -/
def ServedSize (size : ℕ) : Prop :=
  size < 4064 ∨ 4080 ≤ size ∧ size < 2 ^ 31 ∧ ∀ k, ¬(4096 * 2 ^ k < size ∧ size < 4097 * 2 ^ k)

theorem KmallocWorld.Holds.kmallocRight_iff (h : w.Holds arena) (hsize : 0 < size) :
    KmallocRight arena w size ↔ ServedSize size := by
  have hpage : PGSIZE = 4096 := rfl
  have hunit : SLOB_UNIT = 16 := rfl
  constructor
  · intro hright
    rcases exists_supplies arena w size with ⟨q, start, hsupplies⟩
    rcases hright _ _ hsupplies with ⟨r, hcall, -, hblock⟩
    by_cases hsmall : size < 4064
    · exact Or.inl hsmall
    · by_cases hlarge : 4080 ≤ size
      · rcases h.kmalloc_big (by omega) hsupplies with ⟨r', hcall', -, hbytes, hsome⟩
        cases hcall.unique hcall'
        have hserved := hsome q start rfl rfl
        have hle := (hblock start hserved).2.1
        rw [hbytes start hserved, le_pages_iff] at hle
        exact Or.inr ⟨hlarge, hle⟩
      · exact absurd hcall (not_returns_kmalloc (by omega) (by omega) r)
  · rintro (hsmall | ⟨hlarge, hserved⟩) answers run hsupplies
    · rcases h.kmalloc_small hsize (by omega) hsupplies with ⟨r, hcall, hserves, hbytes⟩
      exact ⟨r, hcall, hserves.holds.kfreeRight, fun p hp ↦
        ⟨hserves.usable p hp, hbytes p hp, hserves.apart p hp⟩⟩
    · rcases h.kmalloc_big (by omega) hsupplies with ⟨r, hcall, hserves, hbytes, -⟩
      refine ⟨r, hcall, hserves.holds.kfreeRight, fun p hp ↦ ⟨hserves.usable p hp, ?_, hserves.apart p hp⟩⟩
      rw [hbytes p hp, le_pages_iff]
      exact hserved

end Kmalloc

/-- In every reachable state `kfree` gives back every block in use, and `kmalloc` is right for exactly
the sizes that it serves. -/
theorem kmalloc_right_iff {arena size : ℕ} {w : KmallocWorld}
    (h : Reachable (FirstKmalloc arena) (KmallocStep arena) w) (hsize : 0 < size) :
    KfreeRight w ∧ (KmallocRight arena w size ↔ size < 4064 ∨
      4080 ≤ size ∧ size < 2 ^ 31 ∧ ∀ k, ¬(4096 * 2 ^ k < size ∧ size < 4097 * 2 ^ k)) :=
  ⟨(kmallocHolds_of_reachable h).kfreeRight, (kmallocHolds_of_reachable h).kmallocRight_iff hsize⟩

/-- The static variables of a kernel with `arena` at 4112. -/
def newKmalloc : KmallocWorld := ⟨⟨newSlob.slob, []⟩, ∅, [], ∅⟩

theorem firstKmalloc_new : FirstKmalloc 4112 newKmalloc := ⟨firstSlob_new, rfl, rfl⟩

theorem kmalloc_right_new : KfreeRight newKmalloc ∧ (KmallocRight 4112 newKmalloc 100 ↔ 100 < 4064 ∨
    4080 ≤ 100 ∧ 100 < 2 ^ 31 ∧ ∀ k, ¬(4096 * 2 ^ k < 100 ∧ 100 < 4097 * 2 ^ k)) :=
  kmalloc_right_iff (.first firstKmalloc_new) (by decide)

/-- 8193 bytes do not fit into two pages. -/
theorem not_kmallocRight_8193 : ¬∀ arena w size, Reachable (FirstKmalloc arena) (KmallocStep arena) w →
    0 < size → KmallocRight arena w size := by
  intro hall
  have hright := hall 4112 newKmalloc 8193 (.first firstKmalloc_new) (by decide)
  rw [firstKmalloc_new.holds.kmallocRight_iff (by decide)] at hright
  rcases hright with hsmall | ⟨-, -, hgap⟩
  · omega
  · exact hgap 1 (by decide)

end Ucore.Mm
