import Mathlib.Algebra.BigOperators.Group.Finset.Basic
import Ucore.Library.CyclicOrder
import Ucore.Mm.PageTable

/-!
# The SLOB allocator of `kern/mm/kmalloc.c`

Free blocks are linked in the order of their addresses, and the highest one leads to the lowest. An
allocation walks along the links to a block that is large enough and cuts what it needs out of it;
when there is none, it frees a page into the list first. Freeing a block looks for its place in
the list and joins it with its neighbours.

A block is named by its address. The fields of `struct slob_block` at all addresses are two
functions. A number of units is at most the size of memory, which an `int` can hold.
-/

namespace Ucore.Mm

open Library

def SLOB_UNIT : ℕ := 16

/-- `SLOB_UNITS`. -/
def slobUnits (size : ℕ) : ℕ := (size + SLOB_UNIT - 1) / SLOB_UNIT

/-- `struct slob_block` at all addresses, and `slobfree`. -/
@[ext]
structure Slob where
  units : ℕ → ℕ
  next : ℕ → ℕ
  slobfree : ℕ

namespace Slob

def setUnits (s : Slob) (block units : ℕ) : Slob := { s with units := Function.update s.units block units }

def setNext (s : Slob) (block next : ℕ) : Slob := { s with next := Function.update s.next block next }

/-- The address behind a block of that many units. -/
def plus (block units : ℕ) : ℕ := block + units * SLOB_UNIT

/-- The loop of `slob_free`, which finds the block to insert behind. -/
def findPoint (b : ℕ) : ℕ → Slob → ℕ → Outcome ℕ
  | 0, _, _ => .error .fuel
  | fuel + 1, s, cur =>
    if cur < b ∧ b < s.next cur then .ok cur
    else if s.next cur ≤ cur ∧ (cur < b ∨ b < s.next cur) then .ok cur
    else findPoint b fuel s (s.next cur)

/-- `b` is joined with the block behind it, or linked to it. -/
def joinUp (s : Slob) (b cur : ℕ) : Slob :=
  if plus b (s.units b) = s.next cur then
    let s := s.setUnits b (s.units b + s.units (s.next cur))
    s.setNext b (s.next (s.next cur))
  else s.setNext b (s.next cur)

/-- The block before is joined with `b`, or linked to it. -/
def joinDown (s : Slob) (b cur : ℕ) : Slob :=
  if plus cur (s.units cur) = b then
    let s := s.setUnits cur (s.units cur + s.units b)
    s.setNext cur (s.next b)
  else s.setNext cur b

/-- `slob_free`. Without a size, the block says itself how many units it has. -/
def slobFree (fuel : ℕ) (s : Slob) (block size : ℕ) : Outcome Slob := do
  if block = 0 then return s
  let s := if size ≠ 0 then s.setUnits block (slobUnits size) else s
  let cur ← findPoint block fuel s s.slobfree
  let s := joinDown (joinUp s block cur) block cur
  return { s with slobfree := cur }

/-- `delta`: the units between a block and the next aligned address. -/
def headUnits (cur align : ℕ) : ℕ := if align ≠ 0 then (roundUp cur align - cur) / SLOB_UNIT else 0

/-- The head of a block stays in the list when the rest of it is aligned: then `prev` and `cur`. -/
def fragmentHead (s : Slob) (prev cur aligned delta : ℕ) : Slob × ℕ × ℕ :=
  if delta ≠ 0 then
    let s := s.setUnits aligned (s.units cur - delta)
    let s := s.setNext aligned (s.next cur)
    let s := s.setNext cur aligned
    let s := s.setUnits cur delta
    (s, cur, aligned)
  else (s, prev, cur)

/-- The first units of a block leave the list, and the rest of it stays. -/
def fragment (s : Slob) (prev cur units : ℕ) : Slob :=
  if s.units cur = units then s.setNext prev (s.next cur)
  else
    let s := s.setNext prev (plus cur units)
    let s := s.setUnits (s.next prev) (s.units cur - units)
    let s := s.setNext (s.next prev) (s.next cur)
    s.setUnits cur units

/-- The loop of `slob_alloc`. `ALIGN` is rounding up, as `align` is a power of two. The loop has
the answers of `alloc_pages` that are still to come, and the pages that were obtained. -/
def slobAllocLoop (size align : ℕ) : ℕ → (ℕ → Option ℕ) → Slob → ℕ → ℕ → List ℕ →
    Outcome (Option ℕ × Slob × List ℕ)
  | 0, _, _, _, _, _ => .error .fuel
  | fuel + 1, answers, s, prev, cur, obtained =>
    let units := slobUnits size
    let aligned := if align ≠ 0 then roundUp cur align else 0
    let delta := headUnits cur align
    if units + delta ≤ s.units cur then
      let (s, prev, cur) := s.fragmentHead prev cur aligned delta
      let s := s.fragment prev cur units
      .ok (some cur, { s with slobfree := prev }, obtained)
    else if cur = s.slobfree then
      if size = PGSIZE then .ok (none, s, obtained)
      else
        match answers 0 with
        | none => .ok (none, s, obtained)
        | some page => do
          let s ← slobFree fuel s page PGSIZE
          slobAllocLoop size align fuel (fun call ↦ answers (call + 1)) s s.slobfree
            (s.next s.slobfree) (page :: obtained)
    else slobAllocLoop size align fuel answers s cur (s.next cur) obtained

/-- `slob_alloc`: the block, the allocator, and the pages obtained. -/
def slobAlloc (size align : ℕ) (answers : ℕ → Option ℕ) (fuel : ℕ) (s : Slob) :
    Outcome (Option ℕ × Slob × List ℕ) := do
  Outcome.require (size + SLOB_UNIT < PGSIZE)
  slobAllocLoop size align fuel answers s s.slobfree (s.next s.slobfree) []

end Slob

/-! ## Blocks and pages -/

open Slob

/-- A page that the allocator may get: not the page with the static node, and not next to it. -/
structure Page (arena p : ℕ) : Prop where
  aligned : p % PGSIZE = 0
  pos : 0 < p
  apart : p + PGSIZE < arena ∨ arena + SLOB_UNIT < p

/-- A block of that many units in pages of the allocator. -/
structure Within (pages : Finset ℕ) (block units : ℕ) : Prop where
  aligned : block % SLOB_UNIT = 0
  covered : ∀ place, block ≤ place → place < plus block units →
    ∃ p ∈ pages, p ≤ place ∧ place < p + PGSIZE

/-- The free blocks `nodes` and the blocks in use, with their units, make up the pages and the static
node. Free blocks may still touch each other. -/
structure Arena (arena : ℕ) (s : Slob) (nodes : Finset ℕ) (live : Finset (ℕ × ℕ))
    (pages : Finset ℕ) : Prop where
  order : InOrder nodes s.next
  arena_mem : arena ∈ nodes
  arena_units : s.units arena = 1
  positive : ∀ x ∈ nodes, 0 < s.units x
  apart : ∀ x ∈ nodes, ∀ y ∈ nodes, x < y → plus x (s.units x) ≤ y
  live_positive : ∀ b ∈ live, 0 < b.2
  live_apart : ∀ b ∈ live, ∀ c ∈ live, b ≠ c → plus b.1 b.2 ≤ c.1 ∨ plus c.1 c.2 ≤ b.1
  free_apart : ∀ x ∈ nodes, ∀ b ∈ live, plus x (s.units x) ≤ b.1 ∨ plus b.1 b.2 ≤ x
  within : ∀ x ∈ nodes, x ≠ arena → Within pages x (s.units x)
  live_within : ∀ b ∈ live, Within pages b.1 b.2
  page : ∀ p ∈ pages, Page arena p
  total : ∑ x ∈ nodes, s.units x + ∑ b ∈ live, b.2 = PGSIZE / SLOB_UNIT * pages.card + 1

/-- The block at `x` ends where the block at `y` starts. -/
def Touches (s : Slob) (x y : ℕ) : Prop := plus x (s.units x) = y

instance (s : Slob) (x y : ℕ) : Decidable (Touches s x y) := inferInstanceAs (Decidable (_ = _))

/-- No free block ends where another one starts. -/
def Separated (s : Slob) (nodes : Finset ℕ) : Prop := ∀ x ∈ nodes, ∀ y ∈ nodes, ¬Touches s x y

/-- What is in the blocks is as they were. -/
def Keeps (live : Finset (ℕ × ℕ)) (s s' : Slob) : Prop :=
  ∀ b ∈ live, ∀ z, b.1 ≤ z → z < plus b.1 b.2 → s'.units z = s.units z ∧ s'.next z = s.next z

section Blocks

variable {arena : ℕ} {s s' : Slob} {nodes : Finset ℕ} {live : Finset (ℕ × ℕ)} {pages : Finset ℕ}
  {x y b u p block units : ℕ}

theorem lt_plus (h : 0 < units) : block < plus block units := by
  unfold plus SLOB_UNIT
  omega

theorem plus_plus (block units more : ℕ) : plus (plus block units) more = plus block (units + more) := by
  unfold plus
  rw [Nat.add_mul, Nat.add_assoc]

theorem Arena.congr (h : Arena arena s nodes live pages) (hnext : ∀ x ∈ nodes, s'.next x = s.next x)
    (hunits : ∀ x ∈ nodes, s'.units x = s.units x) : Arena arena s' nodes live pages where
  order := h.order.congr hnext
  arena_mem := h.arena_mem
  arena_units := (hunits arena h.arena_mem).trans h.arena_units
  positive x hx := by
    rw [hunits x hx]
    exact h.positive x hx
  apart x hx := by
    rw [hunits x hx]
    exact h.apart x hx
  live_positive := h.live_positive
  live_apart := h.live_apart
  free_apart x hx := by
    rw [hunits x hx]
    exact h.free_apart x hx
  within x hx := by
    rw [hunits x hx]
    exact h.within x hx
  live_within := h.live_within
  page := h.page
  total := by
    rw [Finset.sum_congr rfl hunits]
    exact h.total

theorem Keeps.trans {s'' : Slob} (h : Keeps live s s') (h' : Keeps live s' s'') : Keeps live s s'' :=
  fun b hb z hlow hhigh ↦ ⟨(h' b hb z hlow hhigh).1.trans (h b hb z hlow hhigh).1,
    (h' b hb z hlow hhigh).2.trans (h b hb z hlow hhigh).2⟩

/-- What is outside the free blocks has not changed. -/
theorem Arena.keeps (h : Arena arena s nodes live pages)
    (hout : ∀ z, (∀ y ∈ nodes, z < y ∨ plus y (s.units y) ≤ z) →
      s'.units z = s.units z ∧ s'.next z = s.next z) : Keeps live s s' := by
  intro b hb z hlow hhigh
  refine hout z fun y hy ↦ ?_
  have hapart := h.free_apart y hy b hb
  omega

theorem Separated.congr (h : Separated s nodes) (hunits : ∀ x ∈ nodes, s'.units x = s.units x) :
    Separated s' nodes := by
  intro x hx y hy
  unfold Touches
  rw [hunits x hx]
  exact h x hx y hy

/-- A block in pages neither overlaps the static node nor touches it. -/
theorem Within.apart_arena (h : Within pages block units) (hpage : ∀ p ∈ pages, Page arena p)
    (hpos : 0 < units) : plus block units < arena ∨ arena + SLOB_UNIT < block := by
  by_contra hnot
  have hlt : block < plus block units := lt_plus hpos
  -- a byte of the block that is near the static node
  rcases h.covered (max block (min (plus block units - 1) arena)) (le_max_left _ _) (by omega) with
    ⟨p, hp, hlow, hhigh⟩
  have hapart := (hpage p hp).apart
  omega

theorem Within.pos (h : Within pages block units) (hpage : ∀ p ∈ pages, Page arena p)
    (hpos : 0 < units) : 0 < block := by
  rcases h.covered block le_rfl (lt_plus hpos) with ⟨p, hp, hlow, -⟩
  exact (hpage p hp).pos.trans_le hlow

theorem Within.part (h : Within pages block units) (hle : x + u ≤ units) :
    Within pages (plus block x) u where
  aligned := by
    have haligned := h.aligned
    unfold plus SLOB_UNIT at *
    omega
  covered place hlow hhigh := by
    apply h.covered place
    · unfold plus at hlow
      omega
    · unfold plus SLOB_UNIT at *
      omega

theorem Within.join (h : Within pages block x) (h' : Within pages (plus block x) u) :
    Within pages block (x + u) where
  aligned := h.aligned
  covered place hlow hhigh := by
    by_cases hfirst : place < plus block x
    · exact h.covered place hlow hfirst
    · apply h'.covered place (not_lt.mp hfirst)
      unfold plus SLOB_UNIT at *
      omega

end Blocks

/-! ## The changes of the list -/

/-- `b` is linked behind `cur`. -/
def Slob.link (s : Slob) (b cur : ℕ) : Slob :=
  { s with next := Function.update (Function.update s.next b (s.next cur)) cur b }

/-- A block is joined with the one it leads to. -/
def Slob.merge (s : Slob) (x : ℕ) : Slob where
  units := Function.update s.units x (s.units x + s.units (s.next x))
  next := Function.update s.next x (s.next (s.next x))
  slobfree := s.slobfree

/-- A block is cut in two behind its first units. -/
def Slob.cut (s : Slob) (x units : ℕ) : Slob where
  units := Function.update (Function.update s.units (plus x units) (s.units x - units)) x units
  next := Function.update (Function.update s.next (plus x units) (s.next x)) x (plus x units)
  slobfree := s.slobfree

/-- The block that `prev` leads to is taken out. -/
def Slob.unlink (s : Slob) (prev : ℕ) : Slob :=
  { s with next := Function.update s.next prev (s.next (s.next prev)) }

section Changes

variable {arena : ℕ} {s s' : Slob} {nodes : Finset ℕ} {live : Finset (ℕ × ℕ)} {pages : Finset ℕ}
  {x y b u p cur prev units : ℕ}

/-- A block in use becomes a free one. -/
theorem Arena.link (h : Arena arena s nodes live pages) (hb : (b, u) ∈ live) (hu : s.units b = u)
    (hcur : cur ∈ nodes) (hbetween : Between cur b (s.next cur)) :
    Arena arena (s.link b cur) (insert b nodes) (live.erase (b, u)) pages := by
  have hfresh := h.order.notMem_of_between hcur hbetween
  have hapart : ∀ x ∈ nodes, plus x (s.units x) ≤ b ∨ plus b u ≤ x := fun x hx ↦ h.free_apart x hx _ hb
  constructor
  · exact h.order.insert hcur hbetween
  · exact Finset.mem_insert_of_mem h.arena_mem
  · exact h.arena_units
  · intro x hx
    rcases Finset.mem_insert.mp hx with rfl | hx
    · exact hu ▸ h.live_positive _ hb
    · exact h.positive x hx
  · intro x hx y hy hlt
    have hpositive : 0 < u := h.live_positive _ hb
    rcases Finset.mem_insert.mp hx with rfl | hxmem <;> rcases Finset.mem_insert.mp hy with rfl | hymem
    · exact absurd hlt (lt_irrefl _)
    · have hy' := hapart y hymem
      have hpos : y < plus y (s.units y) := lt_plus (h.positive y hymem)
      have hunits : (s.link x cur).units x = u := hu
      rw [hunits]
      omega
    · have hx' := hapart x hxmem
      have hpos : y < plus y u := lt_plus hpositive
      have hunits : (s.link y cur).units x = s.units x := rfl
      rw [hunits]
      omega
    · exact h.apart x hxmem y hymem hlt
  · exact fun c hc ↦ h.live_positive c (Finset.mem_of_mem_erase hc)
  · exact fun c hc d hd ↦ h.live_apart c (Finset.mem_of_mem_erase hc) d (Finset.mem_of_mem_erase hd)
  · intro x hx c hc
    rcases Finset.mem_erase.mp hc with ⟨hne, hcmem⟩
    rcases Finset.mem_insert.mp hx with rfl | hx
    · have hunits : (s.link x cur).units x = u := hu
      rw [hunits]
      exact h.live_apart _ hb c hcmem (Ne.symm hne)
    · exact h.free_apart x hx c hcmem
  · intro x hx hne
    rcases Finset.mem_insert.mp hx with rfl | hx
    · have hunits : (s.link x cur).units x = u := hu
      rw [hunits]
      exact h.live_within _ hb
    · exact h.within x hx hne
  · exact fun c hc ↦ h.live_within c (Finset.mem_of_mem_erase hc)
  · exact h.page
  · have hunits : (s.link b cur).units = s.units := rfl
    have herase := Finset.add_sum_erase live (fun c ↦ c.2) hb
    dsimp only at herase
    rw [hunits, Finset.sum_insert hfresh, hu, ← h.total, ← herase]
    omega

/-- Two free blocks that touch become one. -/
theorem Arena.merge (h : Arena arena s nodes live pages) (hx : x ∈ nodes)
    (hnext : plus x (s.units x) = s.next x) :
    Arena arena (s.merge x) (nodes.erase (s.next x)) live pages := by
  have hy := h.order.mem x hx
  have hlt : x < s.next x := hnext ▸ lt_plus (h.positive x hx)
  -- neither block is the static node
  have hy_ne : s.next x ≠ arena := by
    intro heq
    by_cases hxa : x = arena
    · omega
    · have hapart := (h.within x hx hxa).apart_arena h.page (h.positive x hx)
      rw [hnext, heq] at hapart
      omega
  have hx_ne : x ≠ arena := by
    intro heq
    have hapart := (h.within _ hy hy_ne).apart_arena h.page (h.positive _ hy)
    rw [heq, h.arena_units] at hnext
    unfold plus at hnext hapart
    rw [heq] at hapart
    omega
  have hself : (s.merge x).units x = s.units x + s.units (s.next x) := Function.update_self ..
  have hother : ∀ z, z ≠ x → (s.merge x).units z = s.units z := fun z hz ↦ Function.update_of_ne hz ..
  have hend : plus x (s.units x + s.units (s.next x)) = plus (s.next x) (s.units (s.next x)) := by
    rw [← plus_plus, hnext]
  constructor
  · exact h.order.erase hx hlt.ne'
  · exact Finset.mem_erase.mpr ⟨hy_ne.symm, h.arena_mem⟩
  · rw [hother _ hx_ne.symm]
    exact h.arena_units
  · intro z hz
    have hz := Finset.mem_of_mem_erase hz
    have hpositive := h.positive z hz
    by_cases hzx : z = x
    · rw [hzx] at hpositive ⊢
      rw [hself]
      omega
    · rwa [hother z hzx]
  · intro z hz w hw hzw
    rcases Finset.mem_erase.mp hz with ⟨-, hz⟩
    rcases Finset.mem_erase.mp hw with ⟨hwy, hw⟩
    by_cases hzx : z = x
    · rw [hzx] at hzw ⊢
      rw [hself, hend]
      have hle := h.apart x hx w hw hzw
      exact h.apart _ hy w hw (lt_of_le_of_ne (hnext ▸ hle) hwy.symm)
    · rw [hother z hzx]
      exact h.apart z hz w hw hzw
  · exact h.live_positive
  · exact h.live_apart
  · intro z hz c hc
    have hz := Finset.mem_of_mem_erase hz
    by_cases hzx : z = x
    · rw [hzx, hself, hend]
      have hfirst := h.free_apart x hx c hc
      have hsecond := h.free_apart _ hy c hc
      have hpositive : c.1 < plus c.1 c.2 := lt_plus (h.live_positive c hc)
      rw [hnext] at hfirst
      omega
    · rw [hother z hzx]
      exact h.free_apart z hz c hc
  · intro z hz hne
    have hz := Finset.mem_of_mem_erase hz
    by_cases hzx : z = x
    · rw [hzx, hself]
      refine (h.within x hx hx_ne).join ?_
      rw [hnext]
      exact h.within _ hy hy_ne
    · rw [hother z hzx]
      exact h.within z hz hne
  · exact h.live_within
  · exact h.page
  · have hxe : x ∈ nodes.erase (s.next x) := Finset.mem_erase.mpr ⟨hlt.ne, hx⟩
    have hnodes := Finset.add_sum_erase nodes s.units hy
    have hrest := Finset.add_sum_erase _ s.units hxe
    have hmerged := Finset.add_sum_erase _ (s.merge x).units hxe
    have hsame : ∑ z ∈ (nodes.erase (s.next x)).erase x, (s.merge x).units z =
        ∑ z ∈ (nodes.erase (s.next x)).erase x, s.units z :=
      Finset.sum_congr rfl fun z hz ↦ hother z (Finset.ne_of_mem_erase hz)
    have htotal := h.total
    rw [hself, hsame] at hmerged
    omega

theorem Arena.between_of_lt (h : Arena arena s nodes live pages) (hx : x ∈ nodes) (hlow : x < y)
    (hhigh : y < plus x (s.units x)) : Between x y (s.next x) := by
  by_cases hup : x < s.next x
  · exact Or.inl ⟨hlow, hhigh.trans_le (h.apart x hx _ (h.order.mem x hx) hup)⟩
  · exact Or.inr ⟨not_lt.mp hup, Or.inl hlow⟩

theorem cut_units_self (s : Slob) (x units : ℕ) : (s.cut x units).units x = units :=
  Function.update_self ..

theorem cut_units_rest (s : Slob) (hpos : 0 < units) :
    (s.cut x units).units (plus x units) = s.units x - units := by
  rw [Slob.cut]
  dsimp only
  rw [Function.update_of_ne (lt_plus hpos).ne', Function.update_self]

theorem cut_units_of_ne {z : ℕ} (s : Slob) (hx : z ≠ x) (hrest : z ≠ plus x units) :
    (s.cut x units).units z = s.units z := by
  rw [Slob.cut]
  dsimp only
  rw [Function.update_of_ne hx, Function.update_of_ne hrest]

/-- A free block is cut in two. -/
theorem Arena.cut (h : Arena arena s nodes live pages) (hx : x ∈ nodes) (hne : x ≠ arena)
    (hpos : 0 < units) (hlt : units < s.units x) :
    Arena arena (s.cut x units) (insert (plus x units) nodes) live pages := by
  have hlow : x < plus x units := lt_plus hpos
  have hhigh : plus x units < plus x (s.units x) := by
    unfold plus SLOB_UNIT
    omega
  have hbetween := h.between_of_lt hx hlow hhigh
  have hfresh := h.order.notMem_of_between hx hbetween
  have hself := cut_units_self s x units
  have hrest := cut_units_rest (x := x) s hpos
  have hother : ∀ z ∈ nodes, z ≠ x → (s.cut x units).units z = s.units z :=
    fun z hz hzx ↦ cut_units_of_ne s hzx (ne_of_mem_of_not_mem hz hfresh)
  have hend : plus (plus x units) (s.units x - units) = plus x (s.units x) := by
    rw [plus_plus, Nat.add_sub_cancel' hlt.le]
  constructor
  · exact h.order.insert hx hbetween
  · exact Finset.mem_insert_of_mem h.arena_mem
  · rw [hother _ h.arena_mem hne.symm]
    exact h.arena_units
  · intro z hz
    rcases Finset.mem_insert.mp hz with rfl | hzmem
    · rw [hrest]
      omega
    · by_cases hzx : z = x
      · rw [hzx, hself]
        exact hpos
      · rw [hother z hzmem hzx]
        exact h.positive z hzmem
  · intro z hz w hw hzw
    rcases Finset.mem_insert.mp hz with hzy | hzmem
    · rw [hzy] at hzw ⊢
      rw [hrest, hend]
      rcases Finset.mem_insert.mp hw with hwy | hwmem
      · omega
      · exact h.apart x hx w hwmem (hlow.trans hzw)
    · by_cases hzx : z = x
      · rw [hzx] at hzw ⊢
        rw [hself]
        rcases Finset.mem_insert.mp hw with hwy | hwmem
        · exact hwy.ge
        · exact hhigh.le.trans (h.apart x hx w hwmem hzw)
      · rw [hother z hzmem hzx]
        rcases Finset.mem_insert.mp hw with hwy | hwmem
        · have hzlt : z < x := by
            by_contra hge
            have hle := h.apart x hx z hzmem (by omega)
            omega
          exact (h.apart z hzmem x hx hzlt).trans (hwy ▸ hlow.le)
        · exact h.apart z hzmem w hwmem hzw
  · exact h.live_positive
  · exact h.live_apart
  · intro z hz c hc
    have hwhole := h.free_apart x hx c hc
    rcases Finset.mem_insert.mp hz with rfl | hzmem
    · rw [hrest, hend]
      omega
    · by_cases hzx : z = x
      · rw [hzx, hself]
        omega
      · rw [hother z hzmem hzx]
        exact h.free_apart z hzmem c hc
  · intro z hz hza
    have hwhole := h.within x hx hne
    rcases Finset.mem_insert.mp hz with rfl | hzmem
    · rw [hrest]
      exact hwhole.part (by omega)
    · by_cases hzx : z = x
      · have hhead := hwhole.part (x := 0) (u := units) (by omega)
        rw [hzx, hself]
        simpa [plus] using hhead
      · rw [hother z hzmem hzx]
        exact h.within z hzmem hza
  · exact h.live_within
  · exact h.page
  · have hnodes := Finset.add_sum_erase nodes s.units hx
    have hparts := Finset.add_sum_erase nodes (s.cut x units).units hx
    have hsame : ∑ z ∈ nodes.erase x, (s.cut x units).units z = ∑ z ∈ nodes.erase x, s.units z :=
      Finset.sum_congr rfl fun z hz ↦ hother z (Finset.mem_of_mem_erase hz) (Finset.ne_of_mem_erase hz)
    have htotal := h.total
    rw [Finset.sum_insert hfresh, hrest]
    rw [hself, hsame] at hparts
    omega

/-- A free block becomes a block in use. -/
theorem Arena.take (h : Arena arena s nodes live pages) (hprev : prev ∈ nodes)
    (hne : s.next prev ≠ arena) :
    Arena arena (s.unlink prev) (nodes.erase (s.next prev))
      (insert (s.next prev, s.units (s.next prev)) live) pages := by
  have hx := h.order.mem prev hprev
  have hloop : s.next prev ≠ prev := by
    intro hself
    have harena := h.order.eq_of_next_self hprev hself h.arena_mem
    exact hne (hself.trans harena.symm)
  have hunits : (s.unlink prev).units = s.units := rfl
  have hpositive : s.next prev < plus (s.next prev) (s.units (s.next prev)) := lt_plus (h.positive _ hx)
  have hfresh : (s.next prev, s.units (s.next prev)) ∉ live := by
    intro hmem
    have hapart := h.free_apart _ hx _ hmem
    dsimp only at hapart
    omega
  constructor
  · exact h.order.erase hprev hloop
  · exact Finset.mem_erase.mpr ⟨hne.symm, h.arena_mem⟩
  · exact h.arena_units
  · exact fun z hz ↦ h.positive z (Finset.mem_of_mem_erase hz)
  · exact fun z hz w hw ↦ h.apart z (Finset.mem_of_mem_erase hz) w (Finset.mem_of_mem_erase hw)
  · intro c hc
    rcases Finset.mem_insert.mp hc with rfl | hcmem
    · exact h.positive _ hx
    · exact h.live_positive c hcmem
  · intro c hc d hd hcd
    rcases Finset.mem_insert.mp hc with rfl | hcmem <;> rcases Finset.mem_insert.mp hd with rfl | hdmem
    · exact absurd rfl hcd
    · exact h.free_apart _ hx d hdmem
    · exact (h.free_apart _ hx c hcmem).symm
    · exact h.live_apart c hcmem d hdmem hcd
  · intro z hz c hc
    rcases Finset.mem_erase.mp hz with ⟨hzx, hzmem⟩
    rcases Finset.mem_insert.mp hc with rfl | hcmem
    · rcases lt_or_gt_of_ne hzx with hlt | hlt
      · exact Or.inl (h.apart z hzmem _ hx hlt)
      · exact Or.inr (h.apart _ hx z hzmem hlt)
    · exact h.free_apart z hzmem c hcmem
  · exact fun z hz ↦ h.within z (Finset.mem_of_mem_erase hz)
  · intro c hc
    rcases Finset.mem_insert.mp hc with rfl | hcmem
    · exact h.within _ hx hne
    · exact h.live_within c hcmem
  · exact h.page
  · have hnodes := Finset.add_sum_erase nodes s.units hx
    have htotal := h.total
    rw [hunits, Finset.sum_insert hfresh]
    dsimp only
    omega

/-- A new page is apart from every block in the other pages. -/
theorem Within.apart_page {block : ℕ} (h : Within pages block units)
    (hpages : ∀ q ∈ pages, Page arena q) (hpos : 0 < units) (hp : p ∉ pages) (haligned : p % PGSIZE = 0) :
    plus block units ≤ p ∨ p + PGSIZE ≤ block := by
  by_contra hnot
  have hlt : block < plus block units := lt_plus hpos
  have hsize : 0 < PGSIZE := by decide
  rcases h.covered (max block p) (le_max_left _ _) (by omega) with ⟨q, hq, hlow, hhigh⟩
  have hqaligned := (hpages q hq).aligned
  have heq : q = p := by
    unfold PGSIZE at *
    omega
  exact hp (heq ▸ hq)

/-- A page comes from `alloc_pages`, as a block in use. -/
theorem Arena.obtain (h : Arena arena s nodes live pages) (hpage : Page arena p) (hp : p ∉ pages) :
    Arena arena s nodes (insert (p, PGSIZE / SLOB_UNIT) live) (insert p pages) := by
  have hend : plus p (PGSIZE / SLOB_UNIT) = p + PGSIZE := rfl
  have hsize : 0 < PGSIZE / SLOB_UNIT := by decide
  have hlive : ∀ c ∈ live, plus c.1 c.2 ≤ p ∨ p + PGSIZE ≤ c.1 := fun c hc ↦
    (h.live_within c hc).apart_page h.page (h.live_positive c hc) hp hpage.aligned
  have hfresh : (p, PGSIZE / SLOB_UNIT) ∉ live := by
    intro hmem
    have hapart := hlive _ hmem
    dsimp only at hapart
    rw [hend] at hapart
    have hpositive : 0 < PGSIZE := by decide
    omega
  have hmore : ∀ {block units}, Within pages block units → Within (insert p pages) block units := by
    intro block units hwithin
    refine ⟨hwithin.aligned, fun place hlow hhigh ↦ ?_⟩
    rcases hwithin.covered place hlow hhigh with ⟨q, hq, hplace⟩
    exact ⟨q, Finset.mem_insert_of_mem hq, hplace⟩
  constructor
  · exact h.order
  · exact h.arena_mem
  · exact h.arena_units
  · exact h.positive
  · exact h.apart
  · intro c hc
    rcases Finset.mem_insert.mp hc with rfl | hcmem
    · exact hsize
    · exact h.live_positive c hcmem
  · intro c hc d hd hcd
    rcases Finset.mem_insert.mp hc with rfl | hcmem <;> rcases Finset.mem_insert.mp hd with rfl | hdmem
    · exact absurd rfl hcd
    · exact (hlive d hdmem).symm
    · exact hlive c hcmem
    · exact h.live_apart c hcmem d hdmem hcd
  · intro z hz c hc
    rcases Finset.mem_insert.mp hc with rfl | hcmem
    · by_cases hza : z = arena
      · have hapart := hpage.apart
        rw [hza, h.arena_units]
        dsimp only
        rw [hend]
        unfold plus
        omega
      · exact (h.within z hz hza).apart_page h.page (h.positive z hz) hp hpage.aligned
    · exact h.free_apart z hz c hcmem
  · exact fun z hz hza ↦ hmore (h.within z hz hza)
  · intro c hc
    rcases Finset.mem_insert.mp hc with rfl | hcmem
    · refine ⟨?_, fun place hlow hhigh ↦ ⟨p, Finset.mem_insert_self .., hlow, hhigh⟩⟩
      have haligned := hpage.aligned
      unfold PGSIZE at haligned
      unfold SLOB_UNIT
      dsimp only
      omega
    · exact hmore (h.live_within c hcmem)
  · intro q hq
    rcases Finset.mem_insert.mp hq with rfl | hqmem
    · exact hpage
    · exact h.page q hqmem
  · have htotal := h.total
    rw [Finset.sum_insert hfresh, Finset.card_insert_of_notMem hp, Nat.mul_add]
    dsimp only
    omega

end Changes

end Ucore.Mm
