import Ucore.Mm.Slob

/-!
# Freeing a block of the SLOB allocator

The search for the insertion point ends, and the block goes in behind the one that it finds. It is
joined with the block behind it and with the block before it when they touch, so that no two free
blocks touch afterwards.
-/

namespace Ucore.Mm

open Library Slob

section Free

variable {arena : ℕ} {s s' : Slob} {nodes : Finset ℕ} {live : Finset (ℕ × ℕ)} {pages : Finset ℕ}
  {x y z w b u cur : ℕ}

theorem findPoint_of_first (s : Slob) (b k : ℕ) (start : ℕ)
    (hstop : Between (s.next^[k] start) b (s.next (s.next^[k] start)))
    (hfirst : ∀ i < k, ¬Between (s.next^[i] start) b (s.next (s.next^[i] start))) :
    Returns (fun fuel ↦ findPoint b fuel s start) (s.next^[k] start) := by
  induction k generalizing start with
  | zero =>
    refine .of_succ (.of_eq fun fuel ↦ ?_)
    rw [Function.iterate_zero_apply] at hstop ⊢
    rw [findPoint]
    split
    · rfl
    · rename_i hnot
      rw [if_pos (hstop.resolve_left hnot)]
  | succ k ih =>
    have hnot := hfirst 0 (Nat.succ_pos k)
    rw [Function.iterate_zero_apply, Between, not_or] at hnot
    rw [Function.iterate_succ_apply] at hstop ⊢
    refine .of_succ (.congr (fun fuel ↦ ?_) (ih (s.next start) hstop fun i hi ↦ ?_))
    · rw [findPoint, if_neg hnot.1, if_neg hnot.2]
    · exact hfirst (i + 1) (Nat.succ_lt_succ hi)

/-- The search for the insertion point ends. -/
theorem findPoint_returns (h : InOrder nodes s.next) (hstart : s.slobfree ∈ nodes) (hb : b ∉ nodes) :
    ∃ cur ∈ nodes, Between cur b (s.next cur) ∧
      Returns (fun fuel ↦ findPoint b fuel s s.slobfree) cur := by
  rcases h.exists_first hstart (h.exists_between ⟨_, hstart⟩ hb) with ⟨k, hstop, hfirst⟩
  exact ⟨_, h.iterate_mem hstart k, hstop, findPoint_of_first s b k _ hstop hfirst⟩

/-- `b` goes in behind `cur`, and is joined with what it touches. -/
def Slob.linkUp (s : Slob) (b cur : ℕ) : Slob :=
  if Touches s b (s.next cur) then (s.link b cur).merge b else s.link b cur

def Slob.linkDown (s : Slob) (b cur : ℕ) : Slob :=
  if Touches s cur b then (s.linkUp b cur).merge cur else s.linkUp b cur

theorem link_next_self (hne : cur ≠ b) : (s.link b cur).next b = s.next cur := by
  rw [Slob.link]
  dsimp only
  rw [Function.update_of_ne hne.symm, Function.update_self]

theorem link_next_cur (s : Slob) (b cur : ℕ) : (s.link b cur).next cur = b := Function.update_self ..

theorem linkUp_next_cur (s : Slob) (hne : cur ≠ b) : (s.linkUp b cur).next cur = b := by
  unfold Slob.linkUp
  split
  · rw [Slob.merge]
    dsimp only
    rw [Function.update_of_ne hne, link_next_cur]
  · exact link_next_cur ..

theorem linkUp_units_cur (s : Slob) (hne : cur ≠ b) : (s.linkUp b cur).units cur = s.units cur := by
  unfold Slob.linkUp
  split
  · exact Function.update_of_ne hne ..
  · rfl

/-- The two joins of `slob_free`. -/
theorem joins_eq (hne : cur ≠ b) (hb : s.next cur ≠ b) (hup : Touches s b (s.next cur) → s.next cur ≠ cur) :
    joinDown (joinUp s b cur) b cur = s.linkDown b cur := by
  unfold Touches at hup
  by_cases htouch : plus b (s.units b) = s.next cur <;>
    by_cases hdown : plus cur (s.units cur) = b
  all_goals
    apply Slob.ext
    · funext z
      by_cases hzb : z = b <;> by_cases hzc : z = cur <;>
        simp [joinUp, joinDown, Slob.linkDown, Slob.linkUp, Slob.merge, Slob.link, Slob.setNext,
          Slob.setUnits, Touches, htouch, hdown, hne, hne.symm, hzb, hzc]
    · funext z
      by_cases hzb : z = b <;> by_cases hzc : z = cur <;>
        simp [joinUp, joinDown, Slob.linkDown, Slob.linkUp, Slob.merge, Slob.link, Slob.setNext,
          Slob.setUnits, Touches, htouch, hdown, hne, hne.symm, hb, hup, hzb, hzc]
    · simp [joinUp, joinDown, Slob.linkDown, Slob.linkUp, Slob.merge, Slob.link, Slob.setNext,
        Slob.setUnits, Touches, htouch, hdown, hne]

/-- A block that was linked touches its neighbours at most. -/
theorem Arena.touches_link (h : Arena arena s nodes live pages) (hsep : Separated s nodes)
    (hb : (b, u) ∈ live) (hu : s.units b = u) (hcur : cur ∈ nodes)
    (hbetween : Between cur b (s.next cur)) (hz : z ∈ insert b nodes) (hw : w ∈ insert b nodes)
    (htouch : Touches (s.link b cur) z w) : (z = b ∧ w = s.next cur) ∨ (z = cur ∧ w = b) := by
  have hunits : (s.link b cur).units = s.units := rfl
  have hpositive : 0 < u := h.live_positive _ hb
  have hnext := h.order.mem cur hcur
  unfold Touches at htouch
  rw [hunits] at htouch
  rcases Finset.mem_insert.mp hz with rfl | hzmem <;> rcases Finset.mem_insert.mp hw with rfl | hwmem
  · have hlt : w < plus w (s.units w) := lt_plus (hu.symm ▸ hpositive)
    omega
  · -- a free block behind the block can only be the next one
    refine Or.inl ⟨rfl, ?_⟩
    by_contra hne
    have hnone := h.order.none cur hcur w hwmem
    have hapart : plus (s.next cur) (s.units (s.next cur)) ≤ z ∨ plus z u ≤ s.next cur :=
      h.free_apart _ hnext _ hb
    have hlt : s.next cur < plus (s.next cur) (s.units (s.next cur)) := lt_plus (h.positive _ hnext)
    have hlt' : z < plus z u := lt_plus hpositive
    rw [hu] at htouch
    unfold Between at hbetween hnone
    omega
  · refine Or.inr ⟨?_, rfl⟩
    by_contra hne
    have hnone := h.order.none cur hcur z hzmem
    have hlt : z < plus z (s.units z) := lt_plus (h.positive z hzmem)
    have hup : z < cur → plus z (s.units z) ≤ cur := h.apart z hzmem cur hcur
    unfold Between at hbetween hnone
    omega
  · exact absurd htouch (hsep z hzmem w hwmem)

theorem touches_merge (htouch : Touches (s.merge x) z w) (hx : Touches s x (s.next x)) :
    (z = x ∧ Touches s (s.next x) w) ∨ (z ≠ x ∧ Touches s z w) := by
  unfold Touches at *
  by_cases hzx : z = x
  · refine Or.inl ⟨hzx, ?_⟩
    have hself : (s.merge x).units x = s.units x + s.units (s.next x) := Function.update_self ..
    rwa [hzx, hself, ← plus_plus, hx] at htouch
  · refine Or.inr ⟨hzx, ?_⟩
    have hother : (s.merge x).units z = s.units z := Function.update_of_ne hzx ..
    rwa [hother] at htouch

/-- The free blocks after a block was linked behind `cur` and joined with the one behind it. -/
def upNodes (s : Slob) (nodes : Finset ℕ) (b cur : ℕ) : Finset ℕ :=
  if Touches s b (s.next cur) then (insert b nodes).erase (s.next cur) else insert b nodes

def downNodes (s : Slob) (nodes : Finset ℕ) (b cur : ℕ) : Finset ℕ :=
  if Touches s cur b then (upNodes s nodes b cur).erase b else upNodes s nodes b cur

/-- A block that touches the one behind `cur` is not the only other one. -/
theorem Arena.next_ne (h : Arena arena s nodes live pages) (hb : (b, u) ∈ live) (hu : s.units b = u)
    (hcur : cur ∈ nodes) (htouch : Touches s b (s.next cur)) : s.next cur ≠ cur := by
  intro hself
  have harena := h.order.eq_of_next_self hcur hself h.arena_mem
  have hapart : plus b u < arena ∨ arena + SLOB_UNIT < b :=
    (h.live_within _ hb).apart_arena h.page (h.live_positive _ hb)
  have hlt : b < plus b u := lt_plus (h.live_positive _ hb)
  unfold Touches at htouch
  rw [hu] at htouch
  omega

theorem Arena.linkUp (h : Arena arena s nodes live pages) (hsep : Separated s nodes)
    (hb : (b, u) ∈ live) (hu : s.units b = u) (hcur : cur ∈ nodes)
    (hbetween : Between cur b (s.next cur)) :
    Arena arena (s.linkUp b cur) (upNodes s nodes b cur) (live.erase (b, u)) pages ∧
      (∀ z ∈ upNodes s nodes b cur, ∀ w ∈ upNodes s nodes b cur,
        Touches (s.linkUp b cur) z w → z = cur ∧ w = b) ∧
      cur ∈ upNodes s nodes b cur := by
  have hfresh := h.order.notMem_of_between hcur hbetween
  have hne : cur ≠ b := ne_of_mem_of_not_mem hcur hfresh
  have hlink := h.link hb hu hcur hbetween
  have htouches : ∀ z ∈ insert b nodes, ∀ w ∈ insert b nodes, Touches (s.link b cur) z w →
      (z = b ∧ w = s.next cur) ∨ (z = cur ∧ w = b) :=
    fun z hz w hw ↦ h.touches_link hsep hb hu hcur hbetween hz hw
  unfold Slob.linkUp upNodes
  by_cases htouch : Touches s b (s.next cur)
  · have hnext := h.next_ne hb hu hcur htouch
    have htouch' : Touches (s.link b cur) b ((s.link b cur).next b) := by
      rw [link_next_self hne]
      exact htouch
    have hmerge := hlink.merge (Finset.mem_insert_self b nodes) htouch'
    rw [link_next_self hne] at hmerge
    rw [if_pos htouch, if_pos htouch]
    refine ⟨hmerge, fun z hz w hw hzw ↦ ?_,
      Finset.mem_erase.mpr ⟨hnext.symm, Finset.mem_insert_of_mem hcur⟩⟩
    have hz := Finset.mem_of_mem_erase hz
    rcases Finset.mem_erase.mp hw with ⟨hwc, hw⟩
    rcases touches_merge hzw htouch' with ⟨rfl, hold⟩ | ⟨hzb, hold⟩
    · rw [link_next_self hne] at hold
      rcases htouches _ (Finset.mem_insert_of_mem (h.order.mem cur hcur)) w hw hold with
        ⟨heq, -⟩ | ⟨heq, -⟩
      · exact absurd heq (ne_of_mem_of_not_mem (h.order.mem cur hcur) hfresh)
      · exact absurd heq hnext
    · rcases htouches z hz w hw hold with ⟨heq, -⟩ | hdown
      · exact absurd heq hzb
      · exact hdown
  · rw [if_neg htouch, if_neg htouch]
    refine ⟨hlink, fun z hz w hw hzw ↦ ?_, Finset.mem_insert_of_mem hcur⟩
    rcases htouches z hz w hw hzw with ⟨rfl, rfl⟩ | hdown
    · exact absurd hzw htouch
    · exact hdown

/-- A block in use becomes free, joined with the free blocks that it touches. -/
theorem Arena.linkDown (h : Arena arena s nodes live pages) (hsep : Separated s nodes)
    (hb : (b, u) ∈ live) (hu : s.units b = u) (hcur : cur ∈ nodes)
    (hbetween : Between cur b (s.next cur)) :
    Arena arena (s.linkDown b cur) (downNodes s nodes b cur) (live.erase (b, u)) pages ∧
      Separated (s.linkDown b cur) (downNodes s nodes b cur) ∧ cur ∈ downNodes s nodes b cur := by
  have hne : cur ≠ b := ne_of_mem_of_not_mem hcur (h.order.notMem_of_between hcur hbetween)
  rcases h.linkUp hsep hb hu hcur hbetween with ⟨hup, htouches, hmem⟩
  have hnext := linkUp_next_cur s hne
  unfold Slob.linkDown downNodes
  by_cases htouch : Touches s cur b
  · have htouch' : Touches (s.linkUp b cur) cur ((s.linkUp b cur).next cur) := by
      rw [hnext]
      unfold Touches
      rw [linkUp_units_cur s hne]
      exact htouch
    have hmerge := hup.merge hmem htouch'
    rw [hnext] at hmerge
    rw [if_pos htouch, if_pos htouch]
    refine ⟨hmerge, fun z hz w hw hzw ↦ ?_, Finset.mem_erase.mpr ⟨hne, hmem⟩⟩
    rcases Finset.mem_erase.mp hw with ⟨hwb, hw⟩
    rcases touches_merge hzw htouch' with ⟨rfl, hold⟩ | ⟨-, hold⟩
    · rw [hnext] at hold
      have hbmem := hup.order.mem z hmem
      rw [hnext] at hbmem
      exact hne (htouches b hbmem w hw hold).1.symm
    · exact hwb (htouches z (Finset.mem_of_mem_erase hz) w hw hold).2
  · rw [if_neg htouch, if_neg htouch]
    refine ⟨hup, fun z hz w hw hzw ↦ ?_, hmem⟩
    rcases htouches z hz w hw hzw with ⟨rfl, rfl⟩
    unfold Touches at hzw
    rw [linkUp_units_cur s hne] at hzw
    exact htouch hzw

theorem linkUp_units_self (s : Slob) (b cur : ℕ) : s.units b ≤ (s.linkUp b cur).units b := by
  unfold Slob.linkUp
  split
  · have hself : ((s.link b cur).merge b).units b =
        s.units b + s.units ((s.link b cur).next b) := Function.update_self ..
    omega
  · exact le_rfl

theorem mem_upNodes (hb : s.next cur ≠ b) : b ∈ upNodes s nodes b cur := by
  unfold upNodes
  split
  · exact Finset.mem_erase.mpr ⟨hb.symm, Finset.mem_insert_self ..⟩
  · exact Finset.mem_insert_self ..

theorem linkDown_outside (s : Slob) (hb : z ≠ b) (hcur : z ≠ cur) :
    (s.linkDown b cur).units z = s.units z ∧ (s.linkDown b cur).next z = s.next z := by
  unfold Slob.linkDown Slob.linkUp
  split <;> split <;> simp [Slob.merge, Slob.link, hb, hcur]

/-- The block is part of a free block. -/
theorem linkDown_covers (hne : cur ≠ b) (hb : s.next cur ≠ b) (hu : s.units b = u)
    (hcur : cur ∈ downNodes s nodes b cur) :
    ∃ x ∈ downNodes s nodes b cur, x ≤ b ∧ plus b u ≤ plus x ((s.linkDown b cur).units x) := by
  have hself := linkUp_units_self s b cur
  rw [hu] at hself
  have hle : plus b u ≤ plus b ((s.linkUp b cur).units b) :=
    Nat.add_le_add_left (Nat.mul_le_mul_right _ hself) _
  by_cases htouch : Touches s cur b
  · refine ⟨cur, hcur, ?_, ?_⟩
    · rw [← show plus cur (s.units cur) = b from htouch]
      exact Nat.le_add_right ..
    · have hjoined : (s.linkDown b cur).units cur = s.units cur + (s.linkUp b cur).units b := by
        rw [Slob.linkDown, if_pos htouch, Slob.merge, linkUp_next_cur s hne, linkUp_units_cur s hne]
        exact Function.update_self ..
      rw [hjoined, ← plus_plus, show plus cur (s.units cur) = b from htouch]
      exact hle
  · refine ⟨b, ?_, le_rfl, ?_⟩
    · rw [downNodes, if_neg htouch]
      exact mem_upNodes hb
    · rw [Slob.linkDown, if_neg htouch]
      exact hle

/-- `slob_free` of a block in use. -/
theorem Arena.slobFree_returns (h : Arena arena s nodes live pages) (hsep : Separated s nodes)
    (hstart : s.slobfree ∈ nodes) (hb : (b, u) ∈ live) {size : ℕ}
    (hsize : if size = 0 then s.units b = u else slobUnits size = u) :
    ∃ s' nodes', Returns (fun fuel ↦ slobFree fuel s b size) s' ∧
      Arena arena s' nodes' (live.erase (b, u)) pages ∧ Separated s' nodes' ∧ s'.slobfree ∈ nodes' ∧
      Keeps (live.erase (b, u)) s s' ∧ ∃ x ∈ nodes', x ≤ b ∧ plus b u ≤ plus x (s'.units x) := by
  have hlt : b < plus b u := lt_plus (h.live_positive _ hb)
  have hfresh : b ∉ nodes := by
    intro hmem
    have hapart : plus b (s.units b) ≤ b ∨ plus b u ≤ b := h.free_apart b hmem _ hb
    have hpositive : b < plus b (s.units b) := lt_plus (h.positive b hmem)
    omega
  have hpos : b ≠ 0 := ((h.live_within _ hb).pos h.page (h.live_positive _ hb)).ne'
  -- the block with the units that it is freed with
  obtain ⟨sized, hsized, hunits, hsame⟩ : ∃ sized : Slob,
      sized = (if size ≠ 0 then s.setUnits b (slobUnits size) else s) ∧ sized.units b = u ∧
      ∀ x, x ≠ b → sized.units x = s.units x := by
    by_cases hzero : size = 0
    · rw [if_pos hzero] at hsize
      refine ⟨s, ?_, hsize, fun x hx ↦ rfl⟩
      rw [if_neg (not_not.mpr hzero)]
    · rw [if_neg hzero] at hsize
      refine ⟨s.setUnits b (slobUnits size), ?_, ?_, fun x hx ↦ ?_⟩
      · rw [if_pos hzero]
      · exact (Function.update_self ..).trans hsize
      · exact Function.update_of_ne hx ..
  have hnext : sized.next = s.next ∧ sized.slobfree = s.slobfree := by
    rw [hsized]
    split <;> exact ⟨rfl, rfl⟩
  have hnodes : ∀ x ∈ nodes, sized.units x = s.units x :=
    fun x hx ↦ hsame x (ne_of_mem_of_not_mem hx hfresh)
  have harena : Arena arena sized nodes live pages :=
    h.congr (fun x _ ↦ congrFun hnext.1 x) hnodes
  rcases findPoint_returns harena.order (hnext.2 ▸ hstart) hfresh with ⟨cur, hcur, hbetween, hfind⟩
  rcases harena.linkDown (hsep.congr hnodes) hb hunits hcur hbetween with ⟨hafter, hsep', hmem⟩
  have hne : cur ≠ b := ne_of_mem_of_not_mem hcur hfresh
  have hnextb : sized.next cur ≠ b := ne_of_mem_of_not_mem (harena.order.mem cur hcur) hfresh
  have hjoins : joinDown (joinUp sized b cur) b cur = sized.linkDown b cur :=
    joins_eq hne hnextb (harena.next_ne hb hunits hcur)
  refine ⟨{ sized.linkDown b cur with slobfree := cur }, downNodes sized nodes b cur, ?_,
    hafter.congr (fun _ _ ↦ rfl) fun _ _ ↦ rfl, hsep'.congr fun _ _ ↦ rfl, hmem, ?_,
    linkDown_covers hne hnextb hunits hmem⟩
  case refine_2 =>
    intro c hc z hlow hhigh
    rcases Finset.mem_erase.mp hc with ⟨hcne, hcmem⟩
    have hcapart := h.live_apart c hcmem _ hb hcne
    have hcur' := h.free_apart cur hcur c hcmem
    have hcurEnd : cur < plus cur (s.units cur) := lt_plus (h.positive cur hcur)
    dsimp only at hcapart
    have hzb : z ≠ b := by omega
    have hzc : z ≠ cur := by omega
    have hout := linkDown_outside sized hzb hzc
    exact ⟨hout.1.trans (hsame z hzb), hout.2.trans (congrFun hnext.1 z)⟩
  have hcall : Returns (fun fuel ↦ findPoint b fuel sized sized.slobfree >>= fun cur ↦
      .ok { joinDown (joinUp sized b cur) b cur with slobfree := cur })
      { joinDown (joinUp sized b cur) b cur with slobfree := cur } := hfind.bind (.of_eq fun _ ↦ rfl)
  rw [hjoins] at hcall
  refine .congr (fun fuel ↦ ?_) hcall
  rw [slobFree, if_neg hpos, ← hsized]
  rfl

end Free

end Ucore.Mm
