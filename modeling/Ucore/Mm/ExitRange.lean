import Ucore.Mm.PageRef

/-!
# Freeing the tables of a range

`exit_range` of `kern/mm/pmm.c`, which is called once no page is mapped any more. A table of the
last level is freed when the range touches its slot of 2 MB. A table of the middle level is freed
when each slot that the range touches in its region of 1 GB has a table, which is not the same as
that no table is left in the region.
-/

namespace Ucore.Mm

open Library

/-- The inner loop of `exit_range`, over the slots of one region, and `free_pd0` after it. -/
def exitPd0Loop : ℕ → Memory → Pd0 → ℕ → ℕ → ℕ → Bool → Outcome (Memory × Pd0 × Bool)
  | 0, _, _, _, _, _, _ => .error .fuel
  | fuel + 1, m, pd0, d1start, d0start, stop, freePd0 =>
    let (m, pd0, freePd0) :=
      match pd0.entry (PDX0 d0start) with
      | some pt =>
        if ∃ k, Present (pt.entry k) then (m, pd0, freePd0)
        else (m.freePage pt.frame, pd0.set (PDX0 d0start) none, freePd0)
      | none => (m, pd0, false)
    let d0start := d0start + PTSIZE
    if d0start ≠ 0 ∧ d0start < d1start + PDSIZE ∧ d0start < stop then
      exitPd0Loop fuel m pd0 d1start d0start stop freePd0
    else .ok (m, pd0, freePd0)

/-- The body of the outer loop of `exit_range`: the tables of one region. -/
def exitPd0 (fuel : ℕ) (m : Memory) (pgdir : Pgdir) (d1start d0start stop : ℕ) :
    Outcome (Memory × Pgdir) :=
  match pgdir.entry (PDX1 d1start) with
  | none => .ok (m, pgdir)
  | some pd0 => do
    let (m, pd0, freePd0) ← exitPd0Loop fuel m pd0 d1start d0start stop true
    if freePd0 then return (m.freePage pd0.frame, pgdir.set (PDX1 d1start) none)
    else return (m, pgdir.set (PDX1 d1start) (some pd0))

/-- The outer loop of `exit_range`, over the regions. -/
def exitLoop : ℕ → Memory → Pgdir → ℕ → ℕ → ℕ → Outcome (Memory × Pgdir)
  | 0, _, _, _, _, _ => .error .fuel
  | fuel + 1, m, pgdir, d1start, d0start, stop => do
    let (m, pgdir) ← exitPd0 fuel m pgdir d1start d0start stop
    let d1start := d1start + PDSIZE
    if d1start ≠ 0 ∧ d1start < stop then exitLoop fuel m pgdir d1start d1start stop
    else return (m, pgdir)

/-- `exit_range`. -/
def exitRange (fuel : ℕ) (m : Memory) (pgdir : Pgdir) (start stop : ℕ) :
    Outcome (Memory × Pgdir) := do
  Outcome.require (start % PGSIZE = 0 ∧ stop % PGSIZE = 0)
  Outcome.require (UserAccess start stop)
  exitLoop fuel m pgdir (roundDown start PDSIZE) (roundDown start PTSIZE) stop

/-! ## Slots and regions -/

/-- The first address of a slot. -/
def slotBase (i j : Fin 512) : ℕ := i * PDSIZE + j * PTSIZE

/-- The slots of a region that a range touches. -/
def touched (start stop : ℕ) (i : Fin 512) : Finset (Fin 512) :=
  {j | start < slotBase i j + PTSIZE ∧ slotBase i j < stop}

/-- The tables in the slots are gone. -/
def Table.without (pd0 : Pd0) (slots : Finset (Fin 512)) : Pd0 :=
  { pd0 with entry := fun j ↦ if j ∈ slots then none else pd0.entry j }

/-- The frames of the tables in the slots. -/
def slotFrames (pd0 : Pd0) (slots : Finset (Fin 512)) : Multiset Frame :=
  ∑ j ∈ slots, (pd0.entry j).elim 0 ptFrames

/-- What keeps `free_pd0` set: each slot that is visited has a table. -/
def Filled (pd0 : Pd0) (slots : Finset (Fin 512)) : Prop :=
  slots.Nonempty ∧ ∀ j ∈ slots, (pd0.entry j).isSome

instance (pd0 : Pd0) (slots : Finset (Fin 512)) : Decidable (Filled pd0 slots) :=
  inferInstanceAs (Decidable (_ ∧ _))

/-- A region after its slots have been visited. -/
def regionStep (slots : Finset (Fin 512)) (region : Option Pd0) : Option Pd0 :=
  region.bind fun pd0 ↦ if Filled pd0 slots then none else some (pd0.without slots)

/-- The frames that are freed by that. -/
def regionFreed (slots : Finset (Fin 512)) (region : Option Pd0) : Multiset Frame :=
  region.elim 0 fun pd0 ↦ slotFrames pd0 slots + if Filled pd0 slots then {pd0.frame} else 0

/-- A directory after the slots of all regions have been visited. -/
def Table.exited (pgdir : Pgdir) (slots : Fin 512 → Finset (Fin 512)) : Pgdir :=
  { pgdir with entry := fun i ↦ regionStep (slots i) (pgdir.entry i) }

section Slots

variable {start stop la : ℕ} {i j : Fin 512} {pd0 : Pd0} {slots rest : Finset (Fin 512)}

theorem mem_touched :
    j ∈ touched start stop i ↔ start < slotBase i j + PTSIZE ∧ slotBase i j < stop := by
  rw [touched, Finset.mem_filter]
  exact and_iff_right (Finset.mem_univ j)

theorem PDX1_val (la : ℕ) : (PDX1 la : ℕ) = la / 1073741824 % 512 := by
  change (la >>> 30) % 512 = _
  rw [Nat.shiftRight_eq_div_pow]

theorem PDX0_val (la : ℕ) : (PDX0 la : ℕ) = la / 2097152 % 512 := by
  change (la >>> 21) % 512 = _
  rw [Nat.shiftRight_eq_div_pow]

theorem PTX_val (la : ℕ) : (PTX la : ℕ) = la / 4096 % 512 := by
  change (la >>> 12) % 512 = _
  rw [Nat.shiftRight_eq_div_pow]

/-- The range touches the slot of each of its addresses. -/
theorem touched_of_mem (hstart : start ≤ la) (hstop : la < stop) (huser : la < USERTOP) :
    PDX0 la ∈ touched start stop (PDX1 la) := by
  rw [mem_touched, slotBase, PDX1_val, PDX0_val]
  unfold PDSIZE PTSIZE PGSIZE NPTEENTRY
  unfold USERTOP at huser
  omega

/-- A slot that a range touches is that of one of its addresses. -/
theorem exists_of_touched (hj : j ∈ touched start stop i) (hstart : start < stop) :
    ∃ la, start ≤ la ∧ la < stop ∧ PDX1 la = i ∧ PDX0 la = j := by
  rw [mem_touched, slotBase] at hj
  unfold PDSIZE PTSIZE PGSIZE NPTEENTRY at hj
  have hi := i.isLt
  have hlt := j.isLt
  refine ⟨max start (i * 1073741824 + j * 2097152), le_max_left _ _, ?_, ?_, ?_⟩
  · omega
  · apply Fin.ext
    rw [PDX1_val]
    omega
  · apply Fin.ext
    rw [PDX0_val]
    omega

@[simp]
theorem without_frame (pd0 : Pd0) (slots : Finset (Fin 512)) :
    (pd0.without slots).frame = pd0.frame := rfl

theorem entry_without (pd0 : Pd0) (slots : Finset (Fin 512)) (j : Fin 512) :
    (pd0.without slots).entry j = if j ∈ slots then none else pd0.entry j := rfl

@[simp]
theorem without_empty (pd0 : Pd0) : pd0.without ∅ = pd0 := by
  unfold Table.without
  simp

@[simp]
theorem slotFrames_empty (pd0 : Pd0) : slotFrames pd0 ∅ = 0 := Finset.sum_empty

theorem not_filled_empty (pd0 : Pd0) : ¬Filled pd0 ∅ := fun h ↦ Finset.not_nonempty_empty h.1

@[simp]
theorem regionStep_empty (region : Option Pd0) : regionStep ∅ region = region := by
  cases region with
  | none => rfl
  | some pd0 =>
    rw [regionStep, Option.bind_some, if_neg (not_filled_empty pd0), without_empty]

@[simp]
theorem regionFreed_empty (region : Option Pd0) : regionFreed ∅ region = 0 := by
  cases region with
  | none => rfl
  | some pd0 =>
    rw [regionFreed, Option.elim_some, if_neg (not_filled_empty pd0), slotFrames_empty, add_zero]

theorem without_insert (pd0 : Pd0) (j : Fin 512) (rest : Finset (Fin 512)) :
    pd0.without (insert j rest) = (pd0.set j none).without rest := by
  unfold Table.without Table.set
  congr
  funext other
  by_cases hother : other = j
  · simp [hother]
  · simp [hother]

theorem slotFrames_insert (hj : j ∉ rest) :
    slotFrames pd0 (insert j rest) =
      (pd0.entry j).elim 0 ptFrames + slotFrames (pd0.set j none) rest := by
  unfold slotFrames
  rw [Finset.sum_insert hj]
  congr 1
  apply Finset.sum_congr rfl
  intro other hother
  rw [set_of_ne pd0 none (ne_of_mem_of_not_mem hother hj)]

theorem isSome_insert (hj : j ∉ rest) : (∀ other ∈ insert j rest, (pd0.entry other).isSome) ↔
    (pd0.entry j).isSome ∧ ∀ other ∈ rest, ((pd0.set j none).entry other).isSome := by
  rw [Finset.forall_mem_insert]
  apply and_congr_right
  intro _
  refine forall₂_congr fun other hother ↦ ?_
  rw [set_of_ne pd0 none (ne_of_mem_of_not_mem hother hj)]

end Slots

/-! ## One region -/

section Region

variable {m : Memory} {pd0 : Pd0} {pgdir : Pgdir} {i : Fin 512}
  {d1start d0start start stop : ℕ} {freePd0 : Bool}

/-- Nothing is mapped in the region. -/
def Pd0Unmapped (pd0 : Pd0) : Prop := ∀ j pt, pd0.entry j = some pt → ∀ k, ¬Present (pt.entry k)

theorem Pd0Unmapped.set_none (h : Pd0Unmapped pd0) (j : Fin 512) :
    Pd0Unmapped (pd0.set j none) := by
  intro other pt hpt
  by_cases hother : other = j
  · rw [hother, set_self] at hpt
    cases hpt
  · rw [set_of_ne _ _ hother] at hpt
    exact h other pt hpt

theorem Pd0Unmapped.without (h : Pd0Unmapped pd0) (slots : Finset (Fin 512)) :
    Pd0Unmapped (pd0.without slots) := by
  intro j pt hpt
  rw [entry_without] at hpt
  split at hpt
  · cases hpt
  · exact h j pt hpt

theorem touched_insert (hd1 : d1start = i * PDSIZE) (hd0 : d0start % PTSIZE = 0)
    (hle : d1start ≤ d0start) (hlt : d0start < d1start + PDSIZE) (hstop : d0start < stop) :
    touched d0start stop i = insert (PDX0 d0start)
      (if d0start + PTSIZE < d1start + PDSIZE ∧ d0start + PTSIZE < stop then
        touched (d0start + PTSIZE) stop i else ∅) := by
  ext j
  have hj := j.isLt
  have hi := i.isLt
  have hindex : j = PDX0 d0start ↔ (j : ℕ) = d0start / 2097152 % 512 := by
    rw [Fin.ext_iff, PDX0_val]
  rw [Finset.mem_insert, mem_touched, slotBase, hindex]
  unfold PDSIZE PTSIZE PGSIZE NPTEENTRY at *
  split
  · rw [mem_touched, slotBase]
    unfold PDSIZE PTSIZE PGSIZE NPTEENTRY
    omega
  · rw [iff_false_intro (Finset.notMem_empty j), or_false]
    omega

theorem notMem_touched_next (stop : ℕ) (hd1 : d1start = i * PDSIZE) (hd0 : d0start % PTSIZE = 0)
    (hle : d1start ≤ d0start) (hlt : d0start < d1start + PDSIZE) :
    PDX0 d0start ∉ if d0start + PTSIZE < d1start + PDSIZE ∧ d0start + PTSIZE < stop then
        touched (d0start + PTSIZE) stop i else ∅ := by
  split
  · rw [mem_touched, slotBase, PDX0_val]
    have hi := i.isLt
    unfold PDSIZE PTSIZE PGSIZE NPTEENTRY at *
    omega
  · exact Finset.notMem_empty _

/-- The loop over the slots of a region in which nothing is mapped. -/
theorem exitPd0Loop_returns (hunmapped : Pd0Unmapped pd0) (hd1 : d1start = i * PDSIZE)
    (hd0 : d0start % PTSIZE = 0) (hle : d1start ≤ d0start) (hlt : d0start < d1start + PDSIZE)
    (hstop : d0start < stop) :
    ∃ m', Returns (fun fuel ↦ exitPd0Loop fuel m pd0 d1start d0start stop freePd0)
        (m', pd0.without (touched d0start stop i),
          freePd0 && decide (∀ j ∈ touched d0start stop i, (pd0.entry j).isSome)) ∧
      (m'.free : Multiset Frame) = m.free + slotFrames pd0 (touched d0start stop i) := by
  -- induction on the slots left
  induction hleft : d1start + PDSIZE - d0start using Nat.strongRecOn
    generalizing m pd0 d0start freePd0 with
  | _ left ih =>
    have hinsert := touched_insert hd1 hd0 hle hlt hstop
    have hnext := notMem_touched_next stop hd1 hd0 hle hlt
    rw [hinsert, without_insert, slotFrames_insert hnext]
    -- what one round does, whether there is a table or not
    have hround : ∃ after : Memory, (after.free : Multiset Frame) =
          m.free + (pd0.entry (PDX0 d0start)).elim 0 ptFrames ∧
        ∀ fuel, exitPd0Loop (fuel + 1) m pd0 d1start d0start stop freePd0 =
          if d0start + PTSIZE ≠ 0 ∧ d0start + PTSIZE < d1start + PDSIZE ∧
              d0start + PTSIZE < stop then
            exitPd0Loop fuel after (pd0.set (PDX0 d0start) none) d1start (d0start + PTSIZE) stop
              (freePd0 && (pd0.entry (PDX0 d0start)).isSome)
          else .ok (after, pd0.set (PDX0 d0start) none,
            freePd0 && (pd0.entry (PDX0 d0start)).isSome) := by
      cases hpt : pd0.entry (PDX0 d0start) with
      | none =>
        refine ⟨m, (add_zero _).symm, fun fuel ↦ ?_⟩
        have hsame : pd0.set (PDX0 d0start) none = pd0 := by rw [← hpt, set_entry]
        rw [exitPd0Loop, hpt, hsame, Option.isSome_none, Bool.and_false]
      | some pt =>
        have hnone : ¬∃ k, Present (pt.entry k) := fun ⟨k, hk⟩ ↦ hunmapped _ pt hpt k hk
        refine ⟨m.freePage pt.frame, ?_, fun fuel ↦ ?_⟩
        · change ((pt.frame :: m.free : List Frame) : Multiset Frame) = m.free + {pt.frame}
          rw [← Multiset.cons_coe, ← Multiset.singleton_add, add_comm]
        · rw [exitPd0Loop, hpt]
          dsimp only
          rw [if_neg hnone, Option.isSome_some, Bool.and_true]
    rcases hround with ⟨after, hafter, hround⟩
    have hall : (∀ j ∈ insert (PDX0 d0start)
        (if d0start + PTSIZE < d1start + PDSIZE ∧ d0start + PTSIZE < stop then
          touched (d0start + PTSIZE) stop i else ∅), (pd0.entry j).isSome) ↔ _ :=
      isSome_insert hnext
    rw [decide_eq_decide.mpr hall, Bool.decide_and, Bool.decide_eq_true, ← Bool.and_assoc]
    by_cases hgo : d0start + PTSIZE < d1start + PDSIZE ∧ d0start + PTSIZE < stop
    · have hnonzero : d0start + PTSIZE ≠ 0 :=
        Nat.ne_of_gt (Nat.lt_of_lt_of_le (by decide) (Nat.le_add_left PTSIZE d0start))
      have hlower : d1start + PDSIZE - (d0start + PTSIZE) < left := by
        unfold PTSIZE PGSIZE NPTEENTRY
        omega
      have hrest : ∃ m', Returns (fun fuel ↦ exitPd0Loop fuel after (pd0.set (PDX0 d0start) none)
          d1start (d0start + PTSIZE) stop (freePd0 && (pd0.entry (PDX0 d0start)).isSome)) (m', _) ∧
          (m'.free : Multiset Frame) = after.free + _ :=
        ih _ hlower (hunmapped.set_none (PDX0 d0start)) ((Nat.add_mod_right ..).trans hd0)
          (hle.trans (Nat.le_add_right ..)) hgo.1 hgo.2 rfl
      rcases hrest with ⟨m', hreturns, hfree⟩
      rw [if_pos hgo]
      refine ⟨m', .of_succ (.congr (fun fuel ↦ ?_) hreturns), ?_⟩
      · exact (hround fuel).trans (if_pos ⟨hnonzero, hgo⟩)
      · rw [hfree, hafter, add_assoc]
    · rw [if_neg hgo]
      refine ⟨after, .of_succ (.of_eq fun fuel ↦ ?_), ?_⟩
      · rw [hround, if_neg fun h ↦ hgo h.2, without_empty]
        simp
      · rw [hafter, slotFrames_empty, add_zero]

end Region

/-! ## All regions -/

section Regions

variable {m : Memory} {pgdir : Pgdir} {i : Fin 512} {start stop : ℕ}

/-- Nothing is mapped in the directory. -/
def Unmapped (pgdir : Pgdir) : Prop := ∀ i pd0, pgdir.entry i = some pd0 → Pd0Unmapped pd0

/-- The frames that a visit of slots in all regions frees. -/
def exitFreed (slots : Fin 512 → Finset (Fin 512)) (pgdir : Pgdir) : Multiset Frame :=
  ∑ i, regionFreed (slots i) (pgdir.entry i)

theorem unmapped_exited (h : Unmapped pgdir) (slots : Fin 512 → Finset (Fin 512)) :
    Unmapped (pgdir.exited slots) := by
  intro i pd0 hpd0
  change regionStep (slots i) (pgdir.entry i) = some pd0 at hpd0
  rcases Option.bind_eq_some_iff.mp hpd0 with ⟨old, hold, hstep⟩
  split at hstep
  · cases hstep
  · cases hstep
    exact (h i old hold).without (slots i)

theorem exited_empty (pgdir : Pgdir) : pgdir.exited (fun _ ↦ ∅) = pgdir := by
  unfold Table.exited
  simp

theorem exitFreed_empty (pgdir : Pgdir) : exitFreed (fun _ ↦ ∅) pgdir = 0 :=
  Finset.sum_eq_zero fun _ _ ↦ regionFreed_empty _

/-- One region first, then the others. -/
theorem exited_set (slots rest : Fin 512 → Finset (Fin 512)) (pgdir : Pgdir) (i : Fin 512)
    (hi : rest i = ∅) (hother : ∀ other, other ≠ i → rest other = slots other) :
    pgdir.exited slots = (pgdir.set i (regionStep (slots i) (pgdir.entry i))).exited rest := by
  refine congrArg (Table.mk pgdir.frame) (funext fun other ↦ ?_)
  by_cases hne : other = i
  · rw [hne, hi, regionStep_empty, set_self]
  · rw [hother other hne, set_of_ne _ _ hne]

theorem exitFreed_set (slots rest : Fin 512 → Finset (Fin 512)) (pgdir : Pgdir) (i : Fin 512)
    (hi : rest i = ∅) (hother : ∀ other, other ≠ i → rest other = slots other) :
    exitFreed slots pgdir = regionFreed (slots i) (pgdir.entry i) +
      exitFreed rest (pgdir.set i (regionStep (slots i) (pgdir.entry i))) := by
  generalize hstep : pgdir.set i (regionStep (slots i) (pgdir.entry i)) = after
  have hleft := Finset.add_sum_erase Finset.univ
    (fun other ↦ regionFreed (slots other) (pgdir.entry other)) (Finset.mem_univ i)
  have hright := Finset.add_sum_erase Finset.univ
    (fun other ↦ regionFreed (rest other) (after.entry other)) (Finset.mem_univ i)
  have hsame : ∑ other ∈ Finset.univ.erase i, regionFreed (slots other) (pgdir.entry other) =
      ∑ other ∈ Finset.univ.erase i, regionFreed (rest other) (after.entry other) := by
    apply Finset.sum_congr rfl
    intro other hmem
    have hne := Finset.ne_of_mem_erase hmem
    rw [hother other hne, ← hstep, set_of_ne _ _ hne]
  rw [exitFreed, exitFreed, ← hleft, ← hright, hsame, hi, regionFreed_empty, zero_add]

theorem unmapped_set (h : Unmapped pgdir) (slots : Finset (Fin 512)) (i : Fin 512) :
    Unmapped (pgdir.set i (regionStep slots (pgdir.entry i))) := by
  have hstep := unmapped_exited h fun other ↦ if other = i then slots else ∅
  rw [exited_set _ (fun _ ↦ ∅) pgdir i rfl fun other hne ↦ (if_neg hne).symm, exited_empty,
    if_pos rfl] at hstep
  exact hstep

/-- The slots of a range are the same from the first address of its first slot. -/
theorem touched_roundDown (start stop : ℕ) (i : Fin 512) :
    touched (roundDown start PTSIZE) stop i = touched start stop i := by
  ext j
  rw [mem_touched, mem_touched, slotBase]
  unfold roundDown PDSIZE PTSIZE PGSIZE NPTEENTRY
  omega

/-- The next round of the loop touches what this one has left. -/
theorem touched_next (hstart : start < stop) (hstop : stop ≤ USERTOP) (i : Fin 512) :
    (if roundDown start PDSIZE + PDSIZE < stop then
      touched (roundDown start PDSIZE + PDSIZE) stop i else ∅) =
        if i = PDX1 (roundDown start PDSIZE) then ∅ else touched start stop i := by
  have hi := i.isLt
  have hindex : i = PDX1 (roundDown start PDSIZE) ↔ (i : ℕ) = start / 1073741824 := by
    rw [Fin.ext_iff, PDX1_val]
    unfold roundDown PDSIZE PTSIZE PGSIZE NPTEENTRY
    unfold USERTOP at hstop
    omega
  ext j
  have hj := j.isLt
  unfold USERTOP at hstop
  by_cases hsame : i = PDX1 (roundDown start PDSIZE)
  · rw [if_pos hsame]
    rw [hindex] at hsame
    split
    · rw [mem_touched, slotBase]
      unfold roundDown PDSIZE PTSIZE PGSIZE NPTEENTRY at *
      refine iff_of_false ?_ (Finset.notMem_empty j)
      omega
    · rfl
  · rw [if_neg hsame]
    rw [hindex] at hsame
    rw [mem_touched, slotBase]
    split
    · rw [mem_touched, slotBase]
      unfold roundDown PDSIZE PTSIZE PGSIZE NPTEENTRY at *
      omega
    · unfold roundDown PDSIZE PTSIZE PGSIZE NPTEENTRY at *
      refine iff_of_false (Finset.notMem_empty j) ?_
      omega

theorem exitPd0_returns (hunmapped : Unmapped pgdir) (hstart : start < stop)
    (hstop : stop ≤ USERTOP) (hi : roundDown start PDSIZE = i * PDSIZE) :
    ∃ m', Returns (fun fuel ↦
        exitPd0 fuel m pgdir (roundDown start PDSIZE) (roundDown start PTSIZE) stop)
      (m', pgdir.set i (regionStep (touched start stop i) (pgdir.entry i))) ∧
      (m'.free : Multiset Frame) = m.free + regionFreed (touched start stop i) (pgdir.entry i) := by
  have hbounds := i.isLt
  have hindex : PDX1 (roundDown start PDSIZE) = i := by
    apply Fin.ext
    rw [PDX1_val, hi]
    unfold PDSIZE PTSIZE PGSIZE NPTEENTRY
    omega
  have hunfold : ∀ fuel, exitPd0 fuel m pgdir (roundDown start PDSIZE) (roundDown start PTSIZE)
      stop = match pgdir.entry i with
        | none => .ok (m, pgdir)
        | some pd0 => do
          let (m, pd0, freePd0) ← exitPd0Loop fuel m pd0 (roundDown start PDSIZE)
            (roundDown start PTSIZE) stop true
          if freePd0 then return (m.freePage pd0.frame, pgdir.set i none)
          else return (m, pgdir.set i (some pd0)) := by
    intro fuel
    rw [exitPd0, hindex]
  cases hpd0 : pgdir.entry i with
  | none =>
    have hsame : pgdir.set i none = pgdir := by rw [← hpd0, set_entry]
    refine ⟨m, .of_eq fun fuel ↦ ?_, (add_zero _).symm⟩
    rw [hunfold, hpd0, regionStep, Option.bind_none, hsame]
  | some pd0 =>
    have hround : roundDown start PTSIZE < roundDown start PDSIZE + PDSIZE ∧
        roundDown start PDSIZE ≤ roundDown start PTSIZE ∧ roundDown start PTSIZE < stop ∧
        roundDown start PTSIZE % PTSIZE = 0 := by
      unfold roundDown PDSIZE PTSIZE PGSIZE NPTEENTRY
      omega
    rcases hround with ⟨hlt, hle, hlast, hmod⟩
    have hloop : ∃ m', Returns (fun fuel ↦ exitPd0Loop fuel m pd0 (roundDown start PDSIZE)
        (roundDown start PTSIZE) stop true) (m', _) ∧ (m'.free : Multiset Frame) = m.free + _ :=
      exitPd0Loop_returns (hunmapped i pd0 hpd0) hi hmod hle hlt hlast
    rcases hloop with ⟨m', hreturns, hfree⟩
    rw [touched_roundDown, Bool.true_and] at hreturns
    rw [touched_roundDown] at hfree
    generalize hflag : decide (∀ j ∈ touched start stop i, (pd0.entry j).isSome) = flag at hreturns
    -- the region has a slot that the range touches, that of `start`
    have hfilled : Filled pd0 (touched start stop i) ↔
        ∀ j ∈ touched start stop i, (pd0.entry j).isSome := by
      refine and_iff_right ⟨PDX0 start, ?_⟩
      have hsame : PDX1 start = i := by
        rw [← hindex]
        apply Fin.ext
        rw [PDX1_val, PDX1_val]
        unfold roundDown PDSIZE PTSIZE PGSIZE NPTEENTRY
        omega
      rw [← hsame]
      exact touched_of_mem le_rfl hstart (hstart.trans_le hstop)
    generalize touched start stop i = slots at hreturns hfree hfilled hflag ⊢
    rw [regionStep, Option.bind_some, regionFreed, Option.elim_some]
    by_cases hall : Filled pd0 slots
    · rw [if_pos hall, if_pos hall]
      refine ⟨m'.freePage pd0.frame, .congr hunfold ?_, ?_⟩
      · rw [hpd0]
        have hflag : flag = true := hflag.symm.trans (decide_eq_true (hfilled.mp hall))
        rw [hflag] at hreturns
        have hlast : (Except.ok (m'.freePage (pd0.without slots).frame, pgdir.set i none) :
            Outcome (Memory × Pgdir)) = .ok (m'.freePage pd0.frame, pgdir.set i none) := by
          rw [without_frame]
        exact hreturns.bind (.of_eq fun _ ↦ hlast)
      · change ((pd0.frame :: m'.free : List Frame) : Multiset Frame) = _
        rw [← Multiset.cons_coe, ← Multiset.singleton_add, hfree, add_comm, add_assoc]
    · rw [if_neg hall, if_neg hall, add_zero]
      refine ⟨m', .congr hunfold ?_, hfree⟩
      rw [hpd0]
      have hflag : flag = false :=
        hflag.symm.trans (decide_eq_false fun h ↦ hall (hfilled.mpr h))
      rw [hflag] at hreturns
      exact hreturns.bind (.of_eq fun _ ↦ rfl)

/-- The loop over the regions, in a directory in which nothing is mapped. -/
theorem exitLoop_returns (hunmapped : Unmapped pgdir) (hstart : start < stop)
    (hstop : stop ≤ USERTOP) :
    ∃ m', Returns (fun fuel ↦
        exitLoop fuel m pgdir (roundDown start PDSIZE) (roundDown start PTSIZE) stop)
      (m', pgdir.exited (touched start stop)) ∧
      (m'.free : Multiset Frame) = m.free + exitFreed (touched start stop) pgdir := by
  -- induction on the regions left
  induction hleft : stop - roundDown start PDSIZE using Nat.strongRecOn
    generalizing m pgdir start with
  | _ left ih =>
    have hi : roundDown start PDSIZE = PDX1 (roundDown start PDSIZE) * PDSIZE := by
      rw [PDX1_val]
      unfold roundDown PDSIZE PTSIZE PGSIZE NPTEENTRY
      unfold USERTOP at hstop
      omega
    have hnext := touched_next hstart hstop
    generalize PDX1 (roundDown start PDSIZE) = i at hi hnext
    rcases exitPd0_returns (m := m) hunmapped hstart hstop hi with ⟨after, hbody, hafter⟩
    have hself : (if roundDown start PDSIZE + PDSIZE < stop then
        touched (roundDown start PDSIZE + PDSIZE) stop i else ∅) = ∅ :=
      (hnext i).trans (if_pos rfl)
    have hother : ∀ other, other ≠ i → (if roundDown start PDSIZE + PDSIZE < stop then
        touched (roundDown start PDSIZE + PDSIZE) stop other else ∅) = touched start stop other :=
      fun other hne ↦ (hnext other).trans (if_neg hne)
    have hexited := exited_set (touched start stop) _ pgdir i hself hother
    have hfreed := exitFreed_set (touched start stop) _ pgdir i hself hother
    have hnonzero : roundDown start PDSIZE + PDSIZE ≠ 0 := by
      unfold PDSIZE PTSIZE PGSIZE NPTEENTRY
      omega
    by_cases hgo : roundDown start PDSIZE + PDSIZE < stop
    · simp only [if_pos hgo] at hexited hfreed
      have haligned : ∀ size, PDSIZE % size = 0 → 0 < size →
          roundDown (roundDown start PDSIZE + PDSIZE) size = roundDown start PDSIZE + PDSIZE := by
        intro size hsize hpos
        have hdvd : size ∣ roundDown start PDSIZE + PDSIZE := by
          refine (Nat.dvd_of_mod_eq_zero hsize).trans (dvd_add ?_ dvd_rfl)
          exact Nat.dvd_sub_mod start
        exact (congrArg _ (Nat.mod_eq_zero_of_dvd hdvd)).trans (Nat.sub_zero _)
      have hlower : stop - roundDown (roundDown start PDSIZE + PDSIZE) PDSIZE < left := by
        rw [haligned PDSIZE (by decide) (by decide), ← hleft]
        unfold PDSIZE PTSIZE PGSIZE NPTEENTRY at hgo ⊢
        omega
      have hrest : ∃ m', Returns (fun fuel ↦ exitLoop fuel after _ _ _ stop) (m', _) ∧
          (m'.free : Multiset Frame) = after.free + _ :=
        ih _ hlower (unmapped_set hunmapped (touched start stop i) i) hgo rfl
      rcases hrest with ⟨m', hreturns, hfree⟩
      rw [haligned PDSIZE (by decide) (by decide), haligned PTSIZE (by decide) (by decide)]
        at hreturns
      rw [hexited]
      refine ⟨m', .of_succ (hbody.bind (.congr (fun fuel ↦ ?_) hreturns)), ?_⟩
      · exact if_pos ⟨hnonzero, hgo⟩
      · rw [hfree, hafter, hfreed, add_assoc]
    · simp only [if_neg hgo] at hexited hfreed
      rw [hexited, hfreed, exited_empty, exitFreed_empty, add_zero]
      refine ⟨after, .of_succ (hbody.bind (.of_eq fun fuel ↦ ?_)), hafter⟩
      exact if_neg fun h ↦ hgo h.2

/-- `exit_range` frees the tables in the slots that the range touches, and the tables of those
regions that have a table in each such slot. -/
theorem exitRange_returns (hunmapped : Unmapped pgdir) (haccess : UserAccess start stop)
    (hstart : start % PGSIZE = 0) (hstop : stop % PGSIZE = 0) :
    ∃ m', Returns (fun fuel ↦ exitRange fuel m pgdir start stop)
      (m', pgdir.exited (touched start stop)) ∧
      (m'.free : Multiset Frame) = m.free + exitFreed (touched start stop) pgdir := by
  rcases exitLoop_returns (m := m) hunmapped haccess.2.1 haccess.2.2 with ⟨m', hreturns, hfree⟩
  refine ⟨m', .congr (fun fuel ↦ ?_) hreturns, hfree⟩
  rw [exitRange, Outcome.require_of_true ⟨hstart, hstop⟩, Outcome.ok_bind,
    Outcome.require_of_true haccess, Outcome.ok_bind]

end Regions

end Ucore.Mm
