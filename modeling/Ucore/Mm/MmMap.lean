import Mathlib.Data.List.TakeWhile
import Ucore.Library.Run
import Ucore.Mm.UserMem

/-!
# Which ranges can be mapped

`mm_map` of `kern/mm/vmm.c` in the address spaces that it builds itself. It looks for an area that
contains the start of the new one, and for nothing else that the new one might run into.
-/

namespace Ucore.Mm

open Library

/-- After `mm_create`, whatever the directory. -/
def NewMm (mm : MmStruct) : Prop := ∃ swapInitOk pgdir, mm = mmCreate swapInitOk pgdir

/-- Calls of `mm_map` that return. Other calls leave the cache at any area, and change the
directory. -/
inductive MapStep : MmStruct → MmStruct → Prop
  | map {mm mm' : MmStruct} {kmalloc : Bool} {addr len vmFlags : ℕ} {ret : ℤ}
    (h : mm.mmMap kmalloc addr len vmFlags = .ok (ret, mm')) : MapStep mm mm'
  | cache {mm : MmStruct} {mmapCache : Option Vma} (h : ∀ vma ∈ mmapCache, vma ∈ mm.mmapList) :
    MapStep mm { mm with mmapCache }
  | pgdir {mm : MmStruct} (pgdir : Pgdir) : MapStep mm { mm with pgdir }

/-- The list of areas is well formed, and `map_count` is its length. -/
structure Counted (mm : MmStruct) : Prop extends mm.WellFormed where
  mapCount : mm.mapCount = mm.mmapList.length

/-- The area has a byte in the range. -/
def Vma.Overlaps (vma : Vma) (start stop : ℕ) : Prop := vma.vmStart < stop ∧ start < vma.vmEnd

instance (vma : Vma) (start stop : ℕ) : Decidable (vma.Overlaps start stop) :=
  inferInstanceAs (Decidable (_ ∧ _))

/-- The range is inside the user half, and no area has a byte in it. -/
def Mappable (mm : MmStruct) (start stop : ℕ) : Prop :=
  UserAccess start stop ∧ ∀ vma ∈ mm.mmapList, ¬vma.Overlaps start stop

/-- There is one area more. -/
structure Added (mm mm' : MmStruct) (vma : Vma) : Prop where
  pgdir : mm'.pgdir = mm.pgdir
  smPriv : mm'.smPriv = mm.smPriv
  inserted : ∃ before after, mm.mmapList = before ++ after ∧ mm'.mmapList = before ++ vma :: after

/-- What a call of `mm_map` has to answer, for the whole pages from `start` to `stop`. -/
def MapsRight (mm : MmStruct) (kmalloc : Bool) (addr len vmFlags : ℕ) : Prop :=
  let start := roundDown addr PGSIZE
  let stop := roundUp (addr + len) PGSIZE
  ∃ ret mm', mm.mmMap kmalloc addr len vmFlags = .ok (ret, mm') ∧ Counted mm' ∧
    (¬Mappable mm start stop → ret = -E_INVAL ∧ SameButCache mm mm') ∧
    (Mappable mm start stop →
      ret = 0 ∧ Added mm mm' ⟨start, stop, vmFlags⟩ ∨ ret = -E_NO_MEM ∧ SameButCache mm mm')

/-- The end of the range as `mm_map` computes it. -/
def mapStop (addr len : ℕ) : ℕ := roundDown (uint64 (uint64 (addr + len) + PGSIZE - 1)) PGSIZE

/-- The call is refused for its range or for the area at its start, or the range does not wrap
around and meets no area. -/
def MapsFree (mm : MmStruct) (addr len : ℕ) : Prop :=
  ¬UserAccess (roundDown addr PGSIZE) (mapStop addr len) ∨
    (∃ vma ∈ mm.mmapList, vma.Contains (roundDown addr PGSIZE)) ∨
    addr + len < 2 ^ 64 ∧
      ∀ vma ∈ mm.mmapList, ¬vma.Overlaps (roundDown addr PGSIZE) (mapStop addr len)

/-! ## Insertion -/

section Insertion

variable {mm mm' : MmStruct} {vma other : Vma}

theorem mem_place_fst (hother : other ∈ (mm.place vma).1) : other.vmStart ≤ vma.vmStart := by
  rw [MmStruct.place, List.span_eq_takeWhile_dropWhile] at hother
  have htrue := List.mem_takeWhile_imp (p := fun prev : Vma ↦ decide (prev.vmStart ≤ vma.vmStart))
    hother
  exact of_decide_eq_true htrue

theorem mem_place_snd (h : mm.WellFormed) (hother : other ∈ (mm.place vma).2) :
    vma.vmStart < other.vmStart := by
  have hsublist : (mm.place vma).2.Sublist mm.mmapList := by
    rw [← place_append mm vma]
    exact List.sublist_append_right ..
  have hsorted := h.sorted.sublist hsublist
  have hhead : ∀ first rest, (mm.place vma).2 = first :: rest → vma.vmStart < first.vmStart := by
    intro first rest hplace
    rw [MmStruct.place, List.span_eq_takeWhile_dropWhile] at hplace
    have hnot := List.head?_dropWhile_not (fun prev : Vma ↦ decide (prev.vmStart ≤ vma.vmStart))
      mm.mmapList
    dsimp only at hplace
    rw [hplace] at hnot
    exact not_le.mp (of_decide_eq_false (by simpa using hnot))
  cases hplace : (mm.place vma).2 with
  | nil =>
    rw [hplace] at hother
    cases hother
  | cons first rest =>
    have hfirst := hhead first rest hplace
    rw [hplace] at hother hsorted hsublist
    rcases List.mem_cons.mp hother with rfl | hrest
    · exact hfirst
    · have hwhole := h.whole first (hsublist.subset List.mem_cons_self)
      have hle := List.rel_of_pairwise_cons hsorted hrest
      exact hfirst.trans (hwhole.access.2.1.trans_le hle)

/-- An area that is apart from all others finds its place. -/
theorem insertVmaStruct_eq (h : mm.WellFormed) (hvma : vma.Whole)
    (hapart : ∀ other ∈ mm.mmapList, ¬other.Overlaps vma.vmStart vma.vmEnd) :
    mm.insertVmaStruct vma = .ok { mm with
      mmapList := (mm.place vma).1 ++ vma :: (mm.place vma).2, mapCount := mm.mapCount + 1 } ∧
    ((mm.place vma).1 ++ vma :: (mm.place vma).2).Pairwise
      fun first second ↦ first.vmEnd ≤ second.vmStart := by
  have happend := place_append mm vma
  have hbefore : ∀ other ∈ (mm.place vma).1, other.vmEnd ≤ vma.vmStart ∧
      other.vmStart < other.vmEnd := by
    intro other hother
    have hmem : other ∈ mm.mmapList := happend ▸ List.mem_append_left _ hother
    refine ⟨not_lt.mp fun hlt ↦ hapart other hmem ⟨?_, hlt⟩, (h.whole other hmem).access.2.1⟩
    exact (mem_place_fst hother).trans_lt hvma.access.2.1
  have hafter : ∀ other ∈ (mm.place vma).2, vma.vmEnd ≤ other.vmStart ∧
      other.vmStart < other.vmEnd := by
    intro other hother
    have hmem : other ∈ mm.mmapList := happend ▸ List.mem_append_right _ hother
    have hnonempty := (h.whole other hmem).access.2.1
    refine ⟨not_lt.mp fun hlt ↦ hapart other hmem ⟨hlt, ?_⟩, hnonempty⟩
    exact (mem_place_snd h hother).trans hnonempty
  have hsorted := h.sorted
  rw [← happend] at hsorted
  rcases List.pairwise_append.mp hsorted with ⟨hfirst, hsecond, hcross⟩
  constructor
  · rw [MmStruct.insertVmaStruct, Outcome.require_of_true hvma.access.2.1, Outcome.ok_bind]
    generalize mm.place vma = place at hbefore hafter
    rcases place with ⟨before, after⟩
    dsimp only at hbefore hafter ⊢
    have hprev : (before.getLast?.elim (.ok ()) fun prev ↦ checkVmaOverlap prev vma) = .ok () := by
      cases hlast : before.getLast? with
      | none => rfl
      | some prev =>
        rcases hbefore prev (List.mem_of_getLast? hlast) with ⟨hend, hnonempty⟩
        rw [Option.elim_some, checkVmaOverlap, Outcome.require_of_true hnonempty, Outcome.ok_bind,
          Outcome.require_of_true hend, Outcome.ok_bind,
          Outcome.require_of_true hvma.access.2.1]
    have hnext : (after.head?.elim (.ok ()) fun next ↦ checkVmaOverlap vma next) = .ok () := by
      cases hhead : after.head? with
      | none => rfl
      | some next =>
        rcases hafter next (List.mem_of_head? hhead) with ⟨hstart, hnonempty⟩
        rw [Option.elim_some, checkVmaOverlap, Outcome.require_of_true hvma.access.2.1,
          Outcome.ok_bind, Outcome.require_of_true hstart, Outcome.ok_bind,
          Outcome.require_of_true hnonempty]
    rw [hprev, Outcome.ok_bind, hnext, Outcome.ok_bind]
    rfl
  · refine List.pairwise_append.mpr ⟨hfirst, List.pairwise_cons.mpr ⟨?_, hsecond⟩, ?_⟩
    · exact fun other hother ↦ (hafter other hother).1
    · intro prev hprev other hother
      rcases List.mem_cons.mp hother with rfl | hother
      · exact (hbefore prev hprev).1
      · exact hcross prev hprev other hother

/-- The two neighbours are compared with the new area, and all others lie beyond them. -/
theorem not_overlaps_of_insertVmaStruct (h : mm.WellFormed)
    (hok : mm.insertVmaStruct vma = .ok mm') (hother : other ∈ mm.mmapList) :
    ¬other.Overlaps vma.vmStart vma.vmEnd := by
  have happend := place_append mm vma
  have hsorted := h.sorted
  rw [← happend] at hsorted hother
  rcases List.pairwise_append.mp hsorted with ⟨hfirst, hsecond, -⟩
  have hnonempty : ∀ other ∈ (mm.place vma).1 ++ (mm.place vma).2,
      other.vmStart < other.vmEnd := by
    rw [happend]
    exact fun other hother ↦ (h.whole other hother).access.2.1
  have hprev : ((mm.place vma).1.getLast?.elim (.ok ()) fun prev ↦ checkVmaOverlap prev vma) =
      .ok () := by
    rcases Outcome.bind_eq_ok.mp hok with ⟨_, -, hok⟩
    rcases Outcome.bind_eq_ok.mp hok with ⟨_, hprev, -⟩
    exact hprev
  have hnext : ((mm.place vma).2.head?.elim (.ok ()) fun next ↦ checkVmaOverlap vma next) =
      .ok () := by
    rcases Outcome.bind_eq_ok.mp hok with ⟨_, -, hok⟩
    rcases Outcome.bind_eq_ok.mp hok with ⟨_, -, hok⟩
    rcases Outcome.bind_eq_ok.mp hok with ⟨_, hnext, -⟩
    exact hnext
  generalize mm.place vma = place at hfirst hsecond hprev hnext hother hnonempty
  rcases place with ⟨before, after⟩
  dsimp only at hfirst hsecond hprev hnext hother hnonempty
  rcases List.mem_append.mp hother with hbefore | hafter
  · -- behind the last area that starts no later
    rcases List.eq_nil_or_concat before with rfl | ⟨front, last, rfl⟩
    · cases hbefore
    rw [List.concat_eq_append] at hbefore hfirst hprev hnonempty
    rw [List.getLast?_append, List.getLast?_singleton, Option.some_or, Option.elim_some] at hprev
    have hlast : last.vmEnd ≤ vma.vmStart := by
      rcases Outcome.bind_eq_ok.mp hprev with ⟨_, -, hprev⟩
      rcases Outcome.bind_eq_ok.mp hprev with ⟨_, hle, -⟩
      exact Outcome.require_eq_ok.mp hle
    rintro ⟨-, hlt⟩
    rcases List.mem_append.mp hbefore with hfront | heq
    · have hle := (List.pairwise_append.mp hfirst).2.2 other hfront last List.mem_cons_self
      have hlt' := hnonempty last (by simp)
      omega
    · rw [List.mem_singleton.mp heq] at hlt
      omega
  · cases after with
    | nil => cases hafter
    | cons first rest =>
      rw [List.head?_cons, Option.elim_some] at hnext
      have hle : vma.vmEnd ≤ first.vmStart := by
        rcases Outcome.bind_eq_ok.mp hnext with ⟨_, -, hnext⟩
        rcases Outcome.bind_eq_ok.mp hnext with ⟨_, hle, -⟩
        exact Outcome.require_eq_ok.mp hle
      rintro ⟨hlt, -⟩
      rcases List.mem_cons.mp hafter with rfl | hrest
      · omega
      · have hbeyond := List.rel_of_pairwise_cons hsecond hrest
        have hlt' := hnonempty first (by simp)
        omega

end Insertion

/-! ## What a call does -/

section Call

variable {mm mm' : MmStruct} {kmalloc : Bool} {addr len vmFlags : ℕ} {ret : ℤ}

theorem mmMap_outside (h : ¬UserAccess (roundDown addr PGSIZE) (mapStop addr len)) :
    mm.mmMap kmalloc addr len vmFlags = .ok (-E_INVAL, mm) := if_neg h

/-- An area with the first byte of the range is one that starts before the end of the range. -/
theorem mmMap_inside (kmalloc : Bool) (vmFlags : ℕ) (h : mm.WellFormed)
    (haccess : UserAccess (roundDown addr PGSIZE) (mapStop addr len))
    (hfound : ∃ vma ∈ mm.mmapList, vma.Contains (roundDown addr PGSIZE)) :
    ∃ mm', mm.mmMap kmalloc addr len vmFlags = .ok (-E_INVAL, mm') ∧ SameButCache mm mm' := by
  rcases findVma_search mm h.cached (roundDown addr PGSIZE) with
    ⟨hsame, ⟨vma, -, hcontains, heq⟩ | ⟨hnone, -⟩⟩
  · refine ⟨_, ?_, hsame⟩
    have hstop : ∃ found ∈ (mm.findVma (roundDown addr PGSIZE)).1,
        found.vmStart < mapStop addr len := ⟨vma, heq, hcontains.1.trans_lt haccess.2.1⟩
    exact (if_pos haccess).trans (if_pos hstop)
  · rcases hfound with ⟨vma, hvma, hcontains⟩
    exact absurd hcontains (hnone vma hvma)

/-- Otherwise `find_vma` finds nothing, and the assertions are all that is left. -/
theorem mmMap_insert (kmalloc : Bool) (vmFlags : ℕ) (h : mm.WellFormed)
    (haccess : UserAccess (roundDown addr PGSIZE) (mapStop addr len))
    (hnone : ∀ vma ∈ mm.mmapList, ¬vma.Contains (roundDown addr PGSIZE)) :
    mm.mmMap kmalloc addr len vmFlags =
      if kmalloc then
        mm.insertVmaStruct ⟨roundDown addr PGSIZE, mapStop addr len, vmFlags⟩ >>= fun mm ↦
          .ok (0, mm)
      else .ok (-E_NO_MEM, mm) := by
  have hmiss : mm.findVma (roundDown addr PGSIZE) = (none, mm) := by
    rcases findVma_search mm h.cached (roundDown addr PGSIZE) with
      ⟨-, ⟨vma, hvma, hcontains, -⟩ | ⟨-, heq⟩⟩
    · exact absurd hcontains (hnone vma hvma)
    · exact Prod.ext heq (findVma_none heq).1
  rw [MmStruct.mmMap, ← mapStop, if_pos haccess, hmiss]
  exact if_neg (by simp)

theorem mapStop_mod (addr len : ℕ) : mapStop addr len % PGSIZE = 0 :=
  Nat.mod_eq_zero_of_dvd (Nat.dvd_sub_mod _)

theorem roundDown_mod (addr : ℕ) : roundDown addr PGSIZE % PGSIZE = 0 :=
  Nat.mod_eq_zero_of_dvd (Nat.dvd_sub_mod _)

theorem Counted.sameButCache (h : Counted mm) (hsame : SameButCache mm mm') : Counted mm' := by
  rw [hsame.eq]
  exact ⟨⟨h.whole, h.sorted, fun vma hvma ↦ hsame.mmapList ▸ hsame.cached vma hvma⟩, h.mapCount⟩

/-- An insertion whose assertions hold keeps the areas sorted, and counts the new one. -/
theorem Counted.insertVmaStruct (h : Counted mm) {vma : Vma} (hvma : vma.Whole)
    (hok : mm.insertVmaStruct vma = .ok mm') : Counted mm' ∧ Added mm mm' vma := by
  have hapart : ∀ other ∈ mm.mmapList, ¬other.Overlaps vma.vmStart vma.vmEnd :=
    fun other hother ↦ not_overlaps_of_insertVmaStruct h.toWellFormed hok hother
  have hsorted := (insertVmaStruct_eq h.toWellFormed hvma hapart).2
  have hmem : ∀ other, other ∈ mm'.mmapList ↔ other = vma ∨ other ∈ mm.mmapList :=
    fun other ↦ mem_insertVmaStruct hok
  have happend := place_append mm vma
  rw [insertVmaStruct_ok hok] at hmem ⊢
  refine ⟨⟨⟨fun other hother ↦ ?_, hsorted, fun other hother ↦ ?_⟩, ?_⟩,
    rfl, rfl, _, _, happend.symm, rfl⟩
  · rcases (hmem other).mp hother with rfl | hold
    · exact hvma
    · exact h.whole other hold
  · exact (hmem other).mpr (Or.inr (h.cached other hother))
  · have hlength := congrArg List.length happend
    have hcount := h.mapCount
    rw [List.length_append] at hlength
    change mm.mapCount + 1 = ((mm.place vma).1 ++ vma :: (mm.place vma).2).length
    rw [List.length_append, List.length_cons]
    omega

/-- Calls that return keep the list sorted and counted. -/
theorem Counted.mmMap (h : Counted mm)
    (hok : mm.mmMap kmalloc addr len vmFlags = .ok (ret, mm')) : Counted mm' := by
  by_cases haccess : UserAccess (roundDown addr PGSIZE) (mapStop addr len)
  · by_cases hfound : ∃ vma ∈ mm.mmapList, vma.Contains (roundDown addr PGSIZE)
    · rcases mmMap_inside kmalloc vmFlags h.toWellFormed haccess hfound with ⟨_, heq, hsame⟩
      rw [heq] at hok
      cases hok
      exact h.sameButCache hsame
    · rw [mmMap_insert _ _ h.toWellFormed haccess fun vma hvma hcontains ↦
        hfound ⟨vma, hvma, hcontains⟩] at hok
      split at hok
      · rcases Outcome.bind_eq_ok.mp hok with ⟨_, hinsert, hok⟩
        cases hok
        have hwhole : Vma.Whole ⟨roundDown addr PGSIZE, mapStop addr len, vmFlags⟩ :=
          ⟨haccess, roundDown_mod addr, mapStop_mod addr len⟩
        exact (h.insertVmaStruct hwhole hinsert).1
      · cases hok
        exact h
  · rw [mmMap_outside haccess] at hok
    cases hok
    exact h

theorem counted_of_reachable (h : Reachable NewMm MapStep mm) : Counted mm := by
  refine h.invariant ?_ ?_
  · rintro _ ⟨swapInitOk, pgdir, rfl⟩
    exact ⟨⟨nofun, List.Pairwise.nil, nofun⟩, rfl⟩
  · intro mm mm' h hstep
    cases hstep with
    | map hok => exact h.mmMap hok
    | cache hcache => exact ⟨⟨h.whole, h.sorted, hcache⟩, h.mapCount⟩
    | pgdir pgdir => exact ⟨⟨h.whole, h.sorted, h.cached⟩, h.mapCount⟩

/-! ## Which calls are right -/

/-- The sum is rounded as it is meant to be unless one of the two additions wraps around. -/
theorem mapStop_cases (haddr : addr < 2 ^ 64) (hlen : len < 2 ^ 64) :
    (addr + len < 2 ^ 64 ∧ mapStop addr len = roundUp (addr + len) PGSIZE) ∨
      (addr + len < 2 ^ 64 ∧ mapStop addr len = 0 ∧ USERTOP < roundUp (addr + len) PGSIZE) ∨
      (2 ^ 64 ≤ addr + len ∧ USERTOP < roundUp (addr + len) PGSIZE) := by
  have hcode : mapStop addr len = ((addr + len) % 2 ^ 64 + 4096 - 1) % 2 ^ 64 -
      ((addr + len) % 2 ^ 64 + 4096 - 1) % 2 ^ 64 % 4096 := rfl
  have hmeant : roundUp (addr + len) PGSIZE =
      addr + len + 4096 - 1 - (addr + len + 4096 - 1) % 4096 := rfl
  have htop : USERTOP = 0x80000000 := rfl
  omega

theorem mapStop_eq (haddr : addr < 2 ^ 64) (hlen : len < 2 ^ 64)
    (haccess : UserAccess (roundDown addr PGSIZE) (roundUp (addr + len) PGSIZE)) :
    addr + len < 2 ^ 64 ∧ mapStop addr len = roundUp (addr + len) PGSIZE := by
  have htop := haccess.2.2
  rcases mapStop_cases haddr hlen with h | ⟨-, -, hlt⟩ | ⟨-, hlt⟩
  · exact h
  · exact absurd htop hlt.not_ge
  · exact absurd htop hlt.not_ge

theorem roundUp_eq (haddr : addr < 2 ^ 64) (hlen : len < 2 ^ 64) (hwrap : addr + len < 2 ^ 64)
    (haccess : UserAccess (roundDown addr PGSIZE) (mapStop addr len)) :
    mapStop addr len = roundUp (addr + len) PGSIZE := by
  rcases mapStop_cases haddr hlen with h | ⟨-, hzero, -⟩ | ⟨hge, -⟩
  · exact h.2
  · have hpos := haccess.2.1
    rw [hzero] at hpos
    exact absurd hpos (Nat.not_lt_zero _)
  · exact absurd hwrap hge.not_gt

/-- In a range that cannot be mapped, nothing but `-E_INVAL` is right. -/
theorem not_mapsRight (h : mm.WellFormed)
    (haccess : UserAccess (roundDown addr PGSIZE) (mapStop addr len))
    (hnone : ∀ vma ∈ mm.mmapList, ¬vma.Contains (roundDown addr PGSIZE))
    (hnot : ¬Mappable mm (roundDown addr PGSIZE) (roundUp (addr + len) PGSIZE)) :
    ¬MapsRight mm kmalloc addr len vmFlags := by
  rintro ⟨ret, mm', heq, -, hinval, -⟩
  rcases hinval hnot with ⟨rfl, -⟩
  rw [mmMap_insert _ _ h haccess hnone] at heq
  split at heq
  · rcases Outcome.bind_eq_ok.mp heq with ⟨_, -, heq⟩
    cases heq
  · cases heq

/-- `mm_map` in any address space that it built: the call answers as it has to, without a failed
assertion, exactly if it is refused before the areas are searched, or finds an area at its start,
or asks for a range that does not wrap around and meets no area at all. -/
theorem mapsRight_iff (h : Reachable NewMm MapStep mm) (kmalloc : Bool) (vmFlags : ℕ)
    (haddr : addr < 2 ^ 64) (hlen : len < 2 ^ 64) :
    MapsRight mm kmalloc addr len vmFlags ↔ MapsFree mm addr len := by
  have hcounted := counted_of_reachable h
  have hwell := hcounted.toWellFormed
  by_cases haccess : UserAccess (roundDown addr PGSIZE) (mapStop addr len)
  case neg =>
    refine iff_of_true ⟨_, mm, mmMap_outside haccess, hcounted, fun _ ↦
      ⟨rfl, SameButCache.refl hwell.cached⟩, fun hmappable ↦ ?_⟩ (Or.inl haccess)
    have heq := (mapStop_eq haddr hlen hmappable.1).2
    exact absurd (heq ▸ hmappable.1) haccess
  by_cases hfound : ∃ vma ∈ mm.mmapList, vma.Contains (roundDown addr PGSIZE)
  · rcases mmMap_inside kmalloc vmFlags hwell haccess hfound with
      ⟨mm', heq, hsame⟩
    refine iff_of_true ⟨_, mm', heq, hcounted.sameButCache hsame, fun _ ↦ ⟨rfl, hsame⟩,
      fun hmappable ↦ ?_⟩ (Or.inr (Or.inl hfound))
    rcases hfound with ⟨vma, hvma, hcontains⟩
    exact absurd ⟨hcontains.1.trans_lt hmappable.1.2.1, hcontains.2⟩ (hmappable.2 vma hvma)
  have hnone : ∀ vma ∈ mm.mmapList, ¬vma.Contains (roundDown addr PGSIZE) :=
    fun vma hvma hcontains ↦ hfound ⟨vma, hvma, hcontains⟩
  by_cases hfree : addr + len < 2 ^ 64 ∧
      ∀ vma ∈ mm.mmapList, ¬vma.Overlaps (roundDown addr PGSIZE) (mapStop addr len)
  · refine iff_of_true ?_ (Or.inr (Or.inr hfree))
    have hstop := roundUp_eq haddr hlen hfree.1 haccess
    have hmappable : Mappable mm (roundDown addr PGSIZE) (roundUp (addr + len) PGSIZE) :=
      hstop ▸ ⟨haccess, hfree.2⟩
    have hwhole : Vma.Whole ⟨roundDown addr PGSIZE, mapStop addr len, vmFlags⟩ :=
      ⟨haccess, roundDown_mod addr, mapStop_mod addr len⟩
    have hcall := mmMap_insert kmalloc vmFlags hwell haccess hnone
    cases kmalloc with
    | false =>
      exact ⟨_, mm, hcall, hcounted, fun hnot ↦ absurd hmappable hnot, fun _ ↦
        Or.inr ⟨rfl, SameButCache.refl hwell.cached⟩⟩
    | true =>
      have hinsert := (insertVmaStruct_eq hwell hwhole hfree.2).1
      rw [if_pos rfl, hinsert, Outcome.ok_bind] at hcall
      rcases hcounted.insertVmaStruct hwhole hinsert with ⟨hafter, hadded⟩
      refine ⟨0, _, hcall, hafter, fun hnot ↦ absurd hmappable hnot, fun _ ↦ Or.inl ⟨rfl, ?_⟩⟩
      rw [← hstop]
      exact hadded
  · refine iff_of_false (not_mapsRight hwell haccess hnone fun hmappable ↦ ?_) ?_
    · rcases mapStop_eq haddr hlen hmappable.1 with ⟨hwrap, heq⟩
      exact hfree ⟨hwrap, heq.symm ▸ hmappable.2⟩
    · rintro (hout | hat | hrest)
      · exact hout haccess
      · exact hfound hat
      · exact hfree hrest

end Call

/-- One page at `0x202000`. -/
def lonePage : MmStruct := ⟨[⟨0x202000, 0x203000, VM_READ⟩], none, Table.clear 1 none, 1, true⟩

theorem lonePage_reachable : Reachable NewMm MapStep lonePage := by
  have hmap : (mmCreate true (Table.clear 1 none)).mmMap true 0x202000 0x1000 VM_READ =
      .ok (0, lonePage) := by rfl
  exact .step (.first ⟨true, Table.clear 1 none, rfl⟩) (.map hmap)

theorem mapsRight_afterPage : Reachable NewMm MapStep lonePage ∧
    MapsRight lonePage true 0x203000 0x1001 VM_WRITE := by
  refine ⟨lonePage_reachable, (mapsRight_iff lonePage_reachable true VM_WRITE ?_ ?_).mpr ?_⟩
  · decide
  · decide
  · refine Or.inr (Or.inr ⟨by decide, ?_⟩)
    decide

/-- Four pages from `0x200000` on run into the area in their midst: the assertion fails. -/
theorem not_mapsRight_acrossPage : Reachable NewMm MapStep lonePage ∧
    lonePage.mmMap true 0x200000 0x4000 VM_WRITE = .error .panic ∧
    ¬MapsRight lonePage true 0x200000 0x4000 VM_WRITE := by
  have hpanic : lonePage.mmMap true 0x200000 0x4000 VM_WRITE = .error .panic := by rfl
  refine ⟨lonePage_reachable, hpanic, ?_⟩
  rintro ⟨ret, mm', heq, -⟩
  rw [hpanic] at heq
  cases heq

end Ucore.Mm
