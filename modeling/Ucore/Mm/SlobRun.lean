import Mathlib.Algebra.Order.BigOperators.Group.Finset
import Mathlib.Data.Finset.Option
import Ucore.Library.Run
import Ucore.Mm.SlobAlloc

/-!
# Runs of the SLOB allocator

Calls of `slob_alloc` and `slob_free` in any order keep the list of free blocks, as long as what
is freed is what was allocated. The blocks have the units of all pages, and the one of the static
node, which belongs to no page.
-/

namespace Ucore.Mm

open Library Slob

/-- The allocator, the blocks that were returned and not freed since, and the pages it has got. A
block has the units that the allocator wrote into it. -/
structure SlobWorld where
  slob : Slob
  live : Finset (ℕ × ℕ)
  pages : Finset ℕ

/-- The static variables: the node `arena` is alone in the list. -/
structure FirstSlob (arena : ℕ) (w : SlobWorld) : Prop where
  slobfree : w.slob.slobfree = arena
  next : w.slob.next arena = arena
  units : w.slob.units arena = 1
  live : w.live = ∅
  pages : w.pages = ∅

/-- `alloc_pages` gives pages that the allocator may have, and does not have. -/
def Supplies (arena : ℕ) (pages : Finset ℕ) (answers : ℕ → Option ℕ) : Prop :=
  ∀ call p, answers call = some p → Page arena p ∧ p ∉ pages

/-- `slob_free` is called with the size of the block, or without one when the block says it. -/
def FreedWith (s : Slob) (b u size : ℕ) : Prop :=
  if size = 0 then s.units b = u else slobUnits size = u

/-- Only what overlaps a block in use may change. -/
def WrittenInside (live : Finset (ℕ × ℕ)) (s s' : Slob) : Prop :=
  s'.slobfree = s.slobfree ∧ ∀ z, (∀ b ∈ live, plus z 1 ≤ b.1 ∨ plus b.1 b.2 ≤ z) →
    s'.units z = s.units z ∧ s'.next z = s.next z

inductive SlobStep (arena : ℕ) (w : SlobWorld) : SlobWorld → Prop
  | alloc {size align : ℕ} {answers : ℕ → Option ℕ} {block : Option ℕ} {s : Slob} {obtained : List ℕ}
    (hrequest : SlobRequest size align) (hsupplies : Supplies arena w.pages answers)
    (h : Returns (fun fuel ↦ slobAlloc size align answers fuel w.slob) (block, s, obtained)) :
    SlobStep arena w ⟨s, (block.toFinset.image fun b ↦ (b, s.units b)) ∪ w.live,
      w.pages ∪ obtained.toFinset⟩
  | free {b u size : ℕ} {s : Slob} (hlive : (b, u) ∈ w.live) (hsize : FreedWith w.slob b u size)
    (h : Returns (fun fuel ↦ slobFree fuel w.slob b size) s) :
    SlobStep arena w ⟨s, w.live.erase (b, u), w.pages⟩
  | use {s : Slob} (h : WrittenInside w.live w.slob s) : SlobStep arena w ⟨s, w.live, w.pages⟩

/-- The list of free blocks is in order, and the blocks share the units of the pages, and some
more. -/
structure Integrity (w : SlobWorld) (nodes : Finset ℕ) (more : ℕ) : Prop where
  start : w.slob.slobfree ∈ nodes
  mem : ∀ x ∈ nodes, w.slob.next x ∈ nodes
  reached : ∀ x ∈ nodes, ∃ k, w.slob.next^[k] w.slob.slobfree = x
  wrap : ∃ wrap ∈ nodes, w.slob.next wrap ≤ wrap ∧ ∀ x ∈ nodes, x ≠ wrap → x < w.slob.next x
  positive : ∀ x ∈ nodes, 0 < w.slob.units x
  apart : ∀ x ∈ nodes, ∀ y ∈ nodes, x < y → plus x (w.slob.units x) < y
  free_apart : ∀ x ∈ nodes, ∀ b ∈ w.live, plus x (w.slob.units x) ≤ b.1 ∨ plus b.1 b.2 ≤ x
  live_apart : ∀ b ∈ w.live, ∀ c ∈ w.live, b ≠ c → plus b.1 b.2 ≤ c.1 ∨ plus c.1 c.2 ≤ b.1
  total : ∑ x ∈ nodes, w.slob.units x + ∑ b ∈ w.live, b.2 = PGSIZE / SLOB_UNIT * w.pages.card + more

/-- What holds of the allocator between two calls. -/
def SlobWorld.Holds (arena : ℕ) (w : SlobWorld) : Prop :=
  ∃ nodes, Arena arena w.slob nodes w.live w.pages ∧ Separated w.slob nodes ∧ w.slob.slobfree ∈ nodes

section Steps

variable {arena b u size align : ℕ} {w : SlobWorld} {answers : ℕ → Option ℕ} {s : Slob}

theorem FirstSlob.holds (h : FirstSlob arena w) : w.Holds arena := by
  have hmem : arena ∈ ({arena} : Finset ℕ) := Finset.mem_singleton_self arena
  have hlive : ∀ c, c ∉ w.live := fun c ↦ h.live ▸ Finset.notMem_empty c
  have hpages : ∀ p, p ∉ w.pages := fun p ↦ h.pages ▸ Finset.notMem_empty p
  have hone : ∀ x ∈ ({arena} : Finset ℕ), x = arena := fun x ↦ Finset.mem_singleton.mp
  refine ⟨{arena}, ?_, fun x hx y hy ↦ ?_, h.slobfree ▸ hmem⟩
  · constructor
    · exact .singleton h.next
    · exact hmem
    · exact h.units
    · intro x hx
      rw [hone x hx, h.units]
      exact Nat.one_pos
    · intro x hx y hy hlt
      rw [hone x hx, hone y hy] at hlt
      exact absurd hlt (lt_irrefl _)
    · exact fun c hc ↦ absurd hc (hlive c)
    · exact fun c hc ↦ absurd hc (hlive c)
    · exact fun x _ c hc ↦ absurd hc (hlive c)
    · exact fun x hx hne ↦ absurd (hone x hx) hne
    · exact fun c hc ↦ absurd hc (hlive c)
    · exact fun p hp ↦ absurd hp (hpages p)
    · rw [h.live, h.pages, Finset.sum_singleton, h.units]
      rfl
  · unfold Touches
    rw [hone x hx, hone y hy]
    exact (lt_plus (h.units ▸ Nat.one_pos)).ne'

/-- `slob_alloc` returns, whatever `alloc_pages` answers. -/
theorem SlobWorld.Holds.alloc (h : w.Holds arena) (hrequest : SlobRequest size align)
    (hsupplies : Supplies arena w.pages answers) :
    ∃ block s obtained,
      Returns (fun fuel ↦ slobAlloc size align answers fuel w.slob) (block, s, obtained) ∧
      (∀ b, block = some b → s.units b = slobUnits size ∧ (align ≠ 0 → b % align = 0)) ∧
      SlobWorld.Holds arena ⟨s, (block.toFinset.image fun b ↦ (b, s.units b)) ∪ w.live,
        w.pages ∪ obtained.toFinset⟩ := by
  rcases h with ⟨nodes, harena, hsep, hstart⟩
  rcases harena.slobAlloc_returns hsep hstart hrequest (hsupplies 0) with
    ⟨block, s, obtained, nodes', hcall, -, hafter, hsep', hstart', hunits, haligned, -⟩ |
    ⟨-, -, hcall⟩
  · refine ⟨some block, s, obtained, hcall, fun b hb ↦ ?_, nodes', ?_, hsep', hstart'⟩
    · cases hb
      exact ⟨hunits, haligned⟩
    · dsimp only
      rwa [Option.toFinset_some, Finset.image_singleton, hunits, ← Finset.insert_eq]
  · refine ⟨none, w.slob, [], hcall, nofun, nodes, ?_, hsep, hstart⟩
    dsimp only
    rwa [Option.toFinset_none, Finset.image_empty, Finset.empty_union, List.toFinset_nil,
      Finset.union_empty]

/-- `slob_free` returns. -/
theorem SlobWorld.Holds.free (h : w.Holds arena) (hlive : (b, u) ∈ w.live)
    (hsize : FreedWith w.slob b u size) :
    ∃ s, Returns (fun fuel ↦ slobFree fuel w.slob b size) s ∧
      SlobWorld.Holds arena ⟨s, w.live.erase (b, u), w.pages⟩ := by
  rcases h with ⟨nodes, harena, hsep, hstart⟩
  rcases harena.slobFree_returns hsep hstart hlive hsize with
    ⟨s, nodes', hcall, hafter, hsep', hstart', -⟩
  exact ⟨s, hcall, nodes', hafter, hsep', hstart'⟩

theorem SlobWorld.Holds.use (h : w.Holds arena) (hwrite : WrittenInside w.live w.slob s) :
    SlobWorld.Holds arena ⟨s, w.live, w.pages⟩ := by
  rcases h with ⟨nodes, harena, hsep, hstart⟩
  have hsame : ∀ x ∈ nodes, s.units x = w.slob.units x ∧ s.next x = w.slob.next x := by
    intro x hx
    refine hwrite.2 x fun c hc ↦ ?_
    have hapart := harena.free_apart x hx c hc
    have hpositive := harena.positive x hx
    unfold plus SLOB_UNIT at *
    omega
  exact ⟨nodes, harena.congr (fun x hx ↦ (hsame x hx).2) fun x hx ↦ (hsame x hx).1,
    hsep.congr fun x hx ↦ (hsame x hx).1, hwrite.1.symm ▸ hstart⟩

theorem SlobWorld.Holds.step {w' : SlobWorld} (h : w.Holds arena) (hstep : SlobStep arena w w') :
    w'.Holds arena := by
  cases hstep with
  | alloc hrequest hsupplies hcall =>
    rcases h.alloc hrequest hsupplies with ⟨block, s, obtained, hcall', -, hafter⟩
    cases hcall.unique hcall'
    exact hafter
  | free hlive hsize hcall =>
    rcases h.free hlive hsize with ⟨s, hcall', hafter⟩
    cases hcall.unique hcall'
    exact hafter
  | use hwrite => exact h.use hwrite

theorem holds_of_reachable (h : Reachable (FirstSlob arena) (SlobStep arena) w) : w.Holds arena :=
  h.invariant (fun _ ↦ FirstSlob.holds) fun _ _ ↦ SlobWorld.Holds.step

theorem SlobWorld.Holds.integrity (h : w.Holds arena) : ∃ nodes, Integrity w nodes 1 := by
  rcases h with ⟨nodes, harena, hsep, hstart⟩
  refine ⟨nodes, hstart, harena.order.mem, fun x hx ↦ harena.order.exists_iterate hstart hx,
    harena.order.exists_wrap ⟨_, hstart⟩, harena.positive, fun x hx y hy hlt ↦ ?_,
    harena.free_apart, harena.live_apart, harena.total⟩
  exact lt_of_le_of_ne (harena.apart x hx y hy hlt) (hsep x hx y hy)

end Steps

/-- In every reachable state the list of free blocks is in order, no two blocks overlap, and the
blocks have the units of the pages and of the static node. Both calls return, and a block that is
returned is large enough and aligned. -/
theorem slob_integrity {arena : ℕ} {w : SlobWorld}
    (h : Reachable (FirstSlob arena) (SlobStep arena) w) :
    (∃ nodes, Integrity w nodes 1) ∧
    (∀ size align answers, SlobRequest size align → Supplies arena w.pages answers →
      ∃ block s obtained,
        Returns (fun fuel ↦ slobAlloc size align answers fuel w.slob) (block, s, obtained) ∧
        ∀ b, block = some b → s.units b = slobUnits size ∧ size ≤ s.units b * SLOB_UNIT ∧
          (align ≠ 0 → b % align = 0)) ∧
    ∀ b u size, (b, u) ∈ w.live → FreedWith w.slob b u size →
      ∃ s, Returns (fun fuel ↦ slobFree fuel w.slob b size) s := by
  have hholds := holds_of_reachable h
  refine ⟨hholds.integrity, fun size align answers hrequest hsupplies ↦ ?_,
    fun b u size hlive hsize ↦ ?_⟩
  · rcases hholds.alloc hrequest hsupplies with ⟨block, s, obtained, hcall, hblock, -⟩
    refine ⟨block, s, obtained, hcall, fun b hb ↦ ?_⟩
    rcases hblock b hb with ⟨hunits, haligned⟩
    refine ⟨hunits, ?_, haligned⟩
    rw [hunits]
    unfold slobUnits SLOB_UNIT
    omega
  · rcases hholds.free hlive hsize with ⟨s, hcall, -⟩
    exact ⟨s, hcall⟩

/-- The static variables of a kernel with `arena` at 4112. -/
def newSlob : SlobWorld := ⟨⟨fun _ ↦ 1, fun _ ↦ 4112, 4112⟩, ∅, ∅⟩

theorem firstSlob_new : FirstSlob 4112 newSlob := ⟨rfl, rfl, rfl, rfl, rfl⟩

/-- The state after `slob_alloc(32, 0)`, with the page at 8192. -/
def servedSlob : SlobWorld where
  slob := ⟨Function.update (Function.update (Function.update (fun _ ↦ 1) 8192 256) 8224 254) 8192 2,
    Function.update (Function.update (fun _ ↦ 4112) 4112 8224) 8224 4112, 4112⟩
  live := {(8192, 2)}
  pages := {8192}

theorem slobAlloc_new : Returns (fun fuel ↦ slobAlloc 32 0 (fun _ ↦ some 8192) fuel newSlob.slob)
    (some 8192, servedSlob.slob, [8192]) := by
  refine ⟨4, fun fuel hfuel ↦ ?_⟩
  obtain ⟨more, rfl⟩ := Nat.exists_eq_add_of_le' hfuel
  simp [slobAlloc, slobAllocLoop, slobFree, slobUnits, SLOB_UNIT, PGSIZE, headUnits, newSlob,
    servedSlob, findPoint, joinUp, joinDown, plus, setUnits, setNext, fragmentHead, fragment]

theorem reachable_served : Reachable (FirstSlob 4112) (SlobStep 4112) servedSlob := by
  have hrequest : SlobRequest 32 0 := ⟨by decide, by decide, Or.inl rfl⟩
  have hsupplies : Supplies 4112 newSlob.pages fun _ ↦ some 8192 := by
    intro call p hp
    cases hp
    exact ⟨⟨rfl, by decide, by decide⟩, Finset.notMem_empty _⟩
  exact .step (.first firstSlob_new) (.alloc hrequest hsupplies slobAlloc_new)

theorem slob_integrity_served : (∃ nodes, Integrity servedSlob nodes 1) ∧
    ∃ s, Returns (fun fuel ↦ slobFree fuel servedSlob.slob 8192 32) s := by
  have h := slob_integrity reachable_served
  exact ⟨h.1, h.2.2 8192 2 32 (Finset.mem_singleton_self _) rfl⟩

/-- The units of the pages alone are too few, from the start. -/
theorem not_integrity_new : ¬∀ w, Reachable (FirstSlob 4112) (SlobStep 4112) w →
    ∃ nodes, Integrity w nodes 0 := by
  intro hall
  rcases hall newSlob (.first firstSlob_new) with ⟨nodes, h⟩
  have hfree : newSlob.slob.units 4112 ≤ ∑ x ∈ nodes, newSlob.slob.units x :=
    Finset.single_le_sum (fun _ _ ↦ Nat.zero_le _) h.start
  have htotal : ∑ x ∈ nodes, newSlob.slob.units x + 0 = 0 := h.total
  have hone : newSlob.slob.units 4112 = 1 := rfl
  omega

end Ucore.Mm
