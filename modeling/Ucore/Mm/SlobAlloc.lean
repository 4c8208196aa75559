import Ucore.Mm.SlobFree

/-!
# Allocating a block of the SLOB allocator

A walk along the list ends at a block that is large enough, or when it has been everywhere. After a
page was freed into the list there is such a block, whatever the request.
-/

namespace Ucore.Mm

open Library Slob

section Alloc

variable {arena : ℕ} {s s' : Slob} {nodes : Finset ℕ} {live : Finset (ℕ × ℕ)} {pages : Finset ℕ}
  {x y z w b u p cur prev units size align : ℕ}

theorem roundUp_spec (x : ℕ) (h : 0 < align) :
    roundUp x align % align = 0 ∧ x ≤ roundUp x align ∧
      ∀ place, x ≤ place → place % align = 0 → roundUp x align ≤ place := by
  have hdiv := Nat.div_add_mod (x + align - 1) align
  have hmod := Nat.mod_lt (x + align - 1) h
  have hround : roundUp x align = align * ((x + align - 1) / align) := by
    unfold roundUp roundDown
    omega
  refine ⟨?_, by omega, fun place hle hplace ↦ ?_⟩
  · rw [hround]
    exact Nat.mul_mod_right ..
  · rw [hround]
    obtain ⟨count, rfl⟩ := Nat.dvd_of_mod_eq_zero hplace
    refine Nat.mul_le_mul_left align (Nat.le_of_lt_succ ?_)
    rw [Nat.div_lt_iff_lt_mul h, Nat.succ_mul, Nat.mul_comm count]
    omega

/-- What `slob_alloc` is called with. -/
structure SlobRequest (size align : ℕ) : Prop where
  low : SLOB_UNIT < size
  high : size + SLOB_UNIT < PGSIZE
  align : align = 0 ∨ ∃ k, align = 2 ^ k ∧ SLOB_UNIT ≤ align ∧ align ≤ PGSIZE

theorem SlobRequest.slobUnits_le (h : SlobRequest size align) : 2 ≤ slobUnits size ∧ slobUnits size ≤ 255 := by
  have hlow := h.low
  have hhigh := h.high
  unfold slobUnits
  unfold SLOB_UNIT PGSIZE at *
  omega

/-- An alignment is a number of units, and pages are aligned. -/
theorem SlobRequest.dvd (h : SlobRequest size align) (hne : align ≠ 0) :
    0 < align ∧ SLOB_UNIT ∣ align ∧ align ∣ PGSIZE := by
  rcases h.align with hzero | ⟨k, rfl, hlow, hhigh⟩
  · exact absurd hzero hne
  · have hunit : SLOB_UNIT = 2 ^ 4 := rfl
    have hpage : PGSIZE = 2 ^ 12 := rfl
    rw [hunit] at hlow ⊢
    rw [hpage] at hhigh ⊢
    refine ⟨Nat.two_pow_pos k, Nat.pow_dvd_pow 2 ?_, Nat.pow_dvd_pow 2 ?_⟩
    · exact (Nat.pow_le_pow_iff_right (by decide)).mp hlow
    · exact (Nat.pow_le_pow_iff_right (by decide)).mp hhigh

/-- The aligned address is that many units behind the block. -/
theorem SlobRequest.plus_headUnits (h : SlobRequest size align) (hne : align ≠ 0)
    (hx : x % SLOB_UNIT = 0) : plus x (headUnits x align) = roundUp x align := by
  rcases h.dvd hne with ⟨hpos, hunit, -⟩
  rcases roundUp_spec x hpos with ⟨hmod, hle, -⟩
  have haligned : roundUp x align % SLOB_UNIT = 0 :=
    Nat.mod_eq_zero_of_dvd (hunit.trans (Nat.dvd_of_mod_eq_zero hmod))
  unfold plus headUnits
  rw [if_pos hne]
  unfold SLOB_UNIT at *
  omega

/-- A page is large enough for every request, whatever part of a free block it is. -/
theorem SlobRequest.fits (h : SlobRequest size align) (hx : x % SLOB_UNIT = 0) (hle : x ≤ p)
    (hp : p % PGSIZE = 0) (hend : p + PGSIZE ≤ plus x units) :
    slobUnits size + headUnits x align ≤ units := by
  have hunits := h.slobUnits_le.2
  by_cases hne : align = 0
  · have hzero : headUnits x align = 0 := by
      rw [headUnits, if_neg (not_not.mpr hne)]
    unfold plus at hend
    unfold SLOB_UNIT PGSIZE at *
    omega
  · rcases h.dvd hne with ⟨hpos, -, hpage⟩
    have haligned : p % align = 0 :=
      Nat.mod_eq_zero_of_dvd (hpage.trans (Nat.dvd_of_mod_eq_zero hp))
    have hround := (roundUp_spec x hpos).2.2 p hle haligned
    have hplus := h.plus_headUnits hne hx
    unfold plus at hplus hend
    unfold SLOB_UNIT PGSIZE at *
    omega

/-- A cut makes two free blocks that touch. What else is touched was touched before. -/
theorem Arena.touches_cut (h : Arena arena s nodes live pages) (hx : x ∈ nodes) (hpos : 0 < units)
    (hlt : units < s.units x) (hz : z ∈ insert (plus x units) nodes)
    (hw : w ∈ insert (plus x units) nodes) (htouch : Touches (s.cut x units) z w) :
    (z = x ∧ w = plus x units) ∨ (w ∈ nodes ∧ ∃ v ∈ nodes, Touches s v w) := by
  have hlow : x < plus x units := lt_plus hpos
  have hhigh : plus x units < plus x (s.units x) := by
    unfold plus SLOB_UNIT
    omega
  unfold Touches at htouch
  by_cases hzx : z = x
  · rw [hzx, cut_units_self] at htouch
    exact Or.inl ⟨hzx, htouch.symm⟩
  · by_cases hzy : z = plus x units
    · -- the rest ends where the whole block has ended
      rw [hzy, cut_units_rest s hpos, plus_plus, Nat.add_sub_cancel' hlt.le] at htouch
      rcases Finset.mem_insert.mp hw with hwy | hwmem
      · omega
      · exact Or.inr ⟨hwmem, x, hx, htouch⟩
    · have hzmem := (Finset.mem_insert.mp hz).resolve_left hzy
      rw [cut_units_of_ne s hzx hzy] at htouch
      rcases Finset.mem_insert.mp hw with hwy | hwmem
      · exfalso
        have hzlt : z < plus z (s.units z) := lt_plus (h.positive z hzmem)
        rcases lt_or_gt_of_ne hzx with hlt' | hlt'
        · have hle := h.apart z hzmem x hx hlt'
          omega
        · have hle := h.apart x hx z hzmem hlt'
          omega
      · exact Or.inr ⟨hwmem, z, hzmem, htouch⟩

/-- The block behind `prev` leaves the list with its first units. The rest of it stays. -/
theorem Arena.fragment (h : Arena arena s nodes live pages) (hprev : prev ∈ nodes)
    (hnext : s.next prev = x) (hne : x ≠ arena) (hpos : 0 < units) (hle : units ≤ s.units x)
    (htouches : ∀ z ∈ nodes, ∀ w ∈ nodes, Touches s z w → z = prev ∧ w = x) :
    ∃ nodes', Arena arena (s.fragment prev x units) nodes' (insert (x, units) live) pages ∧
      Separated (s.fragment prev x units) nodes' ∧ prev ∈ nodes' ∧
      (s.fragment prev x units).units x = units ∧
      ∀ z, z ≠ prev → (z < x ∨ plus x (s.units x) ≤ z) →
        (s.fragment prev x units).units z = s.units z ∧ (s.fragment prev x units).next z = s.next z := by
  have hx : x ∈ nodes := hnext ▸ h.order.mem prev hprev
  have hloop : x ≠ prev := by
    intro hself
    have harena := h.order.eq_of_next_self hprev (hnext.trans hself) h.arena_mem
    exact hne (hself.trans harena.symm)
  by_cases hexact : s.units x = units
  · have htake := h.take hprev (hnext.symm ▸ hne)
    rw [hnext, hexact] at htake
    have hfragment : s.fragment prev x units = s.unlink prev := by
      rw [Slob.fragment, if_pos hexact, Slob.unlink, hnext]
      rfl
    rw [hfragment]
    refine ⟨nodes.erase x, htake, fun z hz w hw htouch ↦ ?_,
      Finset.mem_erase.mpr ⟨hloop.symm, hprev⟩, hexact,
      fun z hz _ ↦ ⟨rfl, Function.update_of_ne hz ..⟩⟩
    rcases Finset.mem_erase.mp hw with ⟨hwx, hwmem⟩
    exact hwx (htouches z (Finset.mem_of_mem_erase hz) w hwmem htouch).2
  · have hlt : units < s.units x := lt_of_le_of_ne hle (Ne.symm hexact)
    have hlow : x < plus x units := lt_plus hpos
    have hhigh : plus x units < plus x (s.units x) := by
      unfold plus SLOB_UNIT
      omega
    have hfresh := h.order.notMem_of_between hx (h.between_of_lt hx hlow hhigh)
    have hprev_ne : prev ≠ plus x units := ne_of_mem_of_not_mem hprev hfresh
    have hcut := h.cut hx hne hpos hlt
    have hcutNext : (s.cut x units).next prev = x := by
      rw [Slob.cut]
      dsimp only
      rw [Function.update_of_ne hloop.symm, Function.update_of_ne hprev_ne, hnext]
    have htake := hcut.take (Finset.mem_insert_of_mem hprev) (hcutNext.symm ▸ hne)
    rw [hcutNext, cut_units_self] at htake
    have hfragment : s.fragment prev x units = ⟨(s.cut x units).units,
        Function.update (Function.update s.next prev (plus x units)) (plus x units) (s.next x),
        s.slobfree⟩ := by
      rw [Slob.fragment, if_neg hexact]
      simp [Slob.setNext, Slob.setUnits, Slob.cut, hloop]
    -- the two lists differ in the link of the block that has left
    have hsame : ∀ z ∈ (insert (plus x units) nodes).erase x,
        (s.fragment prev x units).next z = ((s.cut x units).unlink prev).next z := by
      intro z hz
      have hzx := Finset.ne_of_mem_erase hz
      rw [hfragment, Slob.unlink, hcutNext]
      by_cases hzp : z = prev
      · simp [Slob.cut, hzp, hprev_ne]
      · by_cases hzy : z = plus x units
        · simp [Slob.cut, hzy, hprev_ne.symm, hlow.ne']
        · simp [Slob.cut, hzp, hzy, hzx]
    have hunits : ∀ z, (s.fragment prev x units).units z = (s.cut x units).units z := by
      rw [hfragment]
      exact fun _ ↦ rfl
    refine ⟨_, htake.congr hsame fun z _ ↦ hunits z, fun z hz w hw htouch ↦ ?_,
      Finset.mem_erase.mpr ⟨hloop.symm, Finset.mem_insert_of_mem hprev⟩,
      (hunits x).trans (cut_units_self ..), fun z hz hout ↦ ?_⟩
    case refine_2 =>
      have hzx : z ≠ x := by omega
      have hzy : z ≠ plus x units := by omega
      rw [hunits, cut_units_of_ne s hzx hzy, hfragment]
      dsimp only
      rw [Function.update_of_ne hzy, Function.update_of_ne hz]
      exact ⟨rfl, rfl⟩
    rcases Finset.mem_erase.mp hz with ⟨hzx, hzmem⟩
    rcases Finset.mem_erase.mp hw with ⟨hwx, hwmem⟩
    have htouch' : Touches (s.cut x units) z w := by
      unfold Touches at htouch ⊢
      rwa [hunits] at htouch
    rcases h.touches_cut hx hpos hlt hzmem hwmem htouch' with ⟨heq, -⟩ | ⟨hwold, v, hv, hold⟩
    · exact hzx heq
    · exact hwx (htouches v hv w hwold hold).2

/-- What `slob_alloc` does with a block that is large enough: it gives the block that is left of it,
and the list. -/
def Slob.carve (s : Slob) (prev cur align units : ℕ) : ℕ × Slob :=
  let head := s.fragmentHead prev cur (if align ≠ 0 then roundUp cur align else 0)
    (headUnits cur align)
  (head.2.2, { head.1.fragment head.2.1 head.2.2 units with slobfree := head.2.1 })

theorem fragmentHead_eq_cut {aligned delta : ℕ} (s : Slob) (prev : ℕ) (haligned : plus x delta = aligned)
    (hpos : 0 < delta) : s.fragmentHead prev x aligned delta = (s.cut x delta, x, aligned) := by
  rw [fragmentHead, if_pos hpos.ne', ← haligned]
  simp [Slob.setNext, Slob.setUnits, Slob.cut]

/-- A block that is large enough is cut to what was asked for. -/
theorem Arena.carve (h : Arena arena s nodes live pages) (hsep : Separated s nodes)
    (hprev : prev ∈ nodes) (hnext : s.next prev = x) (hrequest : SlobRequest size align)
    (hfits : slobUnits size + headUnits x align ≤ s.units x) :
    ∃ block s' nodes', s.carve prev x align (slobUnits size) = (block, s') ∧
      Arena arena s' nodes' (insert (block, slobUnits size) live) pages ∧ Separated s' nodes' ∧
      s'.slobfree ∈ nodes' ∧ s'.units block = slobUnits size ∧ (align ≠ 0 → block % align = 0) ∧
      (block, slobUnits size) ∉ live ∧ Keeps live s s' := by
  have hx : x ∈ nodes := hnext ▸ h.order.mem prev hprev
  have hprevEnd : prev < plus prev (s.units prev) := lt_plus (h.positive prev hprev)
  have hunits := hrequest.slobUnits_le.1
  -- the static node has one unit
  have hne : x ≠ arena := by
    intro heq
    rw [heq, h.arena_units] at hfits
    omega
  have hxa := (h.within x hx hne).aligned
  unfold Slob.carve
  by_cases hdelta : headUnits x align = 0
  · have hhead : s.fragmentHead prev x (if align ≠ 0 then roundUp x align else 0)
        (headUnits x align) = (s, prev, x) := by
      rw [fragmentHead, if_neg (not_not.mpr hdelta)]
    have hsmall : slobUnits size ≤ s.units x := by omega
    rcases h.fragment hprev hnext hne (by omega) hsmall (fun z hz w hw htouch ↦ absurd htouch (hsep z hz w hw)) with
      ⟨nodes', harena, hsep', hmem, hblock, hout⟩
    rw [hhead]
    refine ⟨_, _, nodes', rfl, harena.congr (fun _ _ ↦ rfl) fun _ _ ↦ rfl,
      hsep'.congr fun _ _ ↦ rfl, hmem, hblock, fun halign ↦ ?_, fun hlive ↦ ?_, h.keeps fun z hz ↦ ?_⟩
    · have hplus := hrequest.plus_headUnits halign hxa
      rw [hdelta, plus, Nat.zero_mul, Nat.add_zero] at hplus
      have hround := (roundUp_spec x (hrequest.dvd halign).1).1
      rwa [← hplus] at hround
    · have hapart : plus x (s.units x) ≤ x ∨ plus x (slobUnits size) ≤ x := h.free_apart x hx _ hlive
      have hpositive : x < plus x (s.units x) := lt_plus (h.positive x hx)
      have hpositive' : x < plus x (slobUnits size) := lt_plus (by omega)
      omega
    · have hzp := hz prev hprev
      exact hout z (by omega) (hz x hx)
  · have halign : align ≠ 0 := by
      intro hzero
      exact hdelta (by rw [headUnits, if_neg (not_not.mpr hzero)])
    have hpos : 0 < headUnits x align := Nat.pos_of_ne_zero hdelta
    have hlt : headUnits x align < s.units x := by omega
    have hplus := hrequest.plus_headUnits halign hxa
    have hcut := h.cut hx hne hpos hlt
    have hlow : x < plus x (headUnits x align) := lt_plus hpos
    have hhigh : plus x (headUnits x align) < plus x (s.units x) := by
      unfold plus SLOB_UNIT
      omega
    have hfresh := h.order.notMem_of_between hx (h.between_of_lt hx hlow hhigh)
    have hcutNext : (s.cut x (headUnits x align)).next x = plus x (headUnits x align) :=
      Function.update_self ..
    have hrest := cut_units_rest (x := x) s hpos
    have hsmall : slobUnits size ≤ (s.cut x (headUnits x align)).units (plus x (headUnits x align)) := by
      omega
    rcases hcut.fragment (Finset.mem_insert_of_mem hx) hcutNext
      (ne_of_mem_of_not_mem h.arena_mem hfresh).symm (by omega) hsmall (fun z hz w hw htouch ↦ (h.touches_cut hx hpos hlt hz hw htouch).resolve_right
        (by rintro ⟨hold, v, hv, hv'⟩; exact hsep v hv w hold hv')) with ⟨nodes', harena, hsep', hmem, hblock, hout⟩
    rw [if_pos halign, fragmentHead_eq_cut s prev hplus hpos]
    rw [hplus] at harena hsep' hblock hout
    refine ⟨_, _, nodes', rfl, harena.congr (fun _ _ ↦ rfl) fun _ _ ↦ rfl,
      hsep'.congr fun _ _ ↦ rfl, hmem, hblock, fun _ ↦ ?_, fun hlive ↦ ?_, h.keeps fun z hz ↦ ?_⟩
    · exact (roundUp_spec x (hrequest.dvd halign).1).1
    · have hapart : plus x (s.units x) ≤ roundUp x align ∨
          plus (roundUp x align) (slobUnits size) ≤ x := h.free_apart x hx _ hlive
      have hpositive : roundUp x align < plus (roundUp x align) (slobUnits size) := lt_plus (by omega)
      omega
    · have hzx := hz x hx
      have hend : plus (plus x (headUnits x align)) (s.units x - headUnits x align) =
          plus x (s.units x) := by rw [plus_plus, Nat.add_sub_cancel' hlt.le]
      have hsame := hout z (by omega) (by rw [← hplus, hrest, hend]; omega)
      have hcutUnits : (s.cut x (headUnits x align)).units z = s.units z :=
        cut_units_of_ne s (by omega) (by omega)
      have hcutNext' : (s.cut x (headUnits x align)).next z = s.next z := by
        rw [Slob.cut]
        dsimp only
        rw [Function.update_of_ne (by omega), Function.update_of_ne (by omega)]
      exact ⟨hsame.1.trans hcutUnits, hsame.2.trans hcutNext'⟩

/-- Room enough. -/
def Fits (s : Slob) (size align x : ℕ) : Prop := slobUnits size + headUnits x align ≤ s.units x

theorem slobAllocLoop_fits {answers : ℕ → Option ℕ} {obtained : List ℕ} (s : Slob) (prev : ℕ)
    (hfits : Fits s size align x) :
    Returns (fun fuel ↦ slobAllocLoop size align fuel answers s prev x obtained)
      (some (s.carve prev x align (slobUnits size)).1, (s.carve prev x align (slobUnits size)).2,
        obtained) := by
  refine .of_succ (.of_eq fun fuel ↦ ?_)
  unfold Fits at hfits
  rw [slobAllocLoop, if_pos hfits]
  rfl

/-- The walk goes on as long as the blocks are too small. -/
theorem slobAllocLoop_walk {answers : ℕ → Option ℕ} {obtained : List ℕ}
    {result : Option ℕ × Slob × List ℕ} (s : Slob) (k : ℕ) (prev : ℕ)
    (hsmall : ∀ i < k, ¬Fits s size align (s.next^[i] (s.next prev)))
    (hround : ∀ i < k, s.next^[i] (s.next prev) ≠ s.slobfree)
    (hreturns : Returns (fun fuel ↦ slobAllocLoop size align fuel answers s (s.next^[k] prev)
      (s.next^[k] (s.next prev)) obtained) result) :
    Returns (fun fuel ↦ slobAllocLoop size align fuel answers s prev (s.next prev) obtained) result := by
  induction k generalizing prev with
  | zero => exact hreturns
  | succ k ih =>
    have hrest := ih (s.next prev) (fun i hi ↦ hsmall (i + 1) (Nat.succ_lt_succ hi))
      (fun i hi ↦ hround (i + 1) (Nat.succ_lt_succ hi)) hreturns
    refine .of_succ (.congr (fun fuel ↦ ?_) hrest)
    have hnot : ¬Fits s size align (s.next prev) := hsmall 0 k.succ_pos
    have hgo : s.next prev ≠ s.slobfree := hround 0 k.succ_pos
    unfold Fits at hnot
    rw [slobAllocLoop, if_neg hnot, if_neg hgo]

/-- The walk finds a block that is large enough, or none is. -/
theorem Arena.slobAllocLoop_search (h : Arena arena s nodes live pages) (hsep : Separated s nodes)
    (hstart : s.slobfree ∈ nodes) (hrequest : SlobRequest size align) :
    (∃ block s' nodes', (∀ (answers : ℕ → Option ℕ) (obtained : List ℕ),
        Returns (fun fuel ↦ slobAllocLoop size align fuel answers s s.slobfree (s.next s.slobfree)
          obtained) (some block, s', obtained)) ∧
      Arena arena s' nodes' (insert (block, slobUnits size) live) pages ∧ Separated s' nodes' ∧
      s'.slobfree ∈ nodes' ∧ s'.units block = slobUnits size ∧ (align ≠ 0 → block % align = 0) ∧
      (block, slobUnits size) ∉ live ∧ Keeps live s s') ∨
    (∀ x ∈ nodes, ¬Fits s size align x) ∧
      ∀ (answers : ℕ → Option ℕ) (obtained : List ℕ) (result : Option ℕ × Slob × List ℕ),
        Returns (fun fuel ↦ match answers 0 with
          | none => .ok (none, s, obtained)
          | some page => do
            let s ← slobFree fuel s page PGSIZE
            slobAllocLoop size align fuel (fun call ↦ answers (call + 1)) s s.slobfree
              (s.next s.slobfree) (page :: obtained)) result →
        Returns (fun fuel ↦ slobAllocLoop size align fuel answers s s.slobfree (s.next s.slobfree)
          obtained) result := by
  have hstops : ∃ x ∈ nodes, Fits s size align x ∨ x = s.slobfree := ⟨_, hstart, Or.inr rfl⟩
  rcases h.order.exists_first (h.order.mem _ hstart) hstops with ⟨k, hstop, hfirst⟩
  have hsmall : ∀ i < k, ¬Fits s size align (s.next^[i] (s.next s.slobfree)) :=
    fun i hi hfits ↦ hfirst i hi (Or.inl hfits)
  have hround : ∀ i < k, s.next^[i] (s.next s.slobfree) ≠ s.slobfree :=
    fun i hi hback ↦ hfirst i hi (Or.inr hback)
  by_cases hfits : Fits s size align (s.next^[k] (s.next s.slobfree))
  · have hnext : s.next (s.next^[k] s.slobfree) = s.next^[k] (s.next s.slobfree) :=
      (Function.iterate_succ_apply' s.next k s.slobfree).symm
    rcases h.carve hsep (h.order.iterate_mem hstart k) hnext hrequest hfits with
      ⟨block, s', nodes', hcarve, hafter⟩
    refine Or.inl ⟨block, s', nodes', fun answers obtained ↦ ?_, hafter⟩
    have hblock : Returns (fun fuel ↦ slobAllocLoop size align fuel answers s (s.next^[k] s.slobfree)
        (s.next^[k] (s.next s.slobfree)) obtained) _ := slobAllocLoop_fits s _ hfits
    rw [hcarve] at hblock
    exact slobAllocLoop_walk s k _ hsmall hround hblock
  · have hback := hstop.resolve_left hfits
    refine Or.inr ⟨fun x hx hfits' ↦ ?_, fun answers obtained result hreturns ↦ ?_⟩
    · rcases h.order.exists_of_round hstart hback hx with ⟨i, hi, rfl⟩
      rcases lt_or_eq_of_le hi with hlt | rfl
      · exact hsmall i hlt hfits'
      · exact hfits hfits'
    · refine slobAllocLoop_walk s k _ hsmall hround (.of_succ (.congr (fun fuel ↦ ?_) hreturns))
      unfold Fits at hfits
      rw [slobAllocLoop, if_neg hfits, if_pos hback]
      have hsize : size ≠ PGSIZE := by
        have hhigh := hrequest.high
        omega
      exact (if_neg hsize).trans rfl

/-- What `slob_alloc` does: it gives a block that it cuts out of a free one, after it has freed the page
that it got when no block was large enough, or it gets no page. -/
theorem Arena.slobAlloc_returns (h : Arena arena s nodes live pages) (hsep : Separated s nodes)
    (hstart : s.slobfree ∈ nodes) (hrequest : SlobRequest size align) {answers : ℕ → Option ℕ}
    (hanswer : ∀ p, answers 0 = some p → Page arena p ∧ p ∉ pages) :
    (∃ block s' obtained nodes',
      Returns (fun fuel ↦ slobAlloc size align answers fuel s) (some block, s', obtained) ∧
      (obtained = [] ∨ ∃ p, answers 0 = some p ∧ obtained = [p]) ∧
      Arena arena s' nodes' (insert (block, slobUnits size) live) (pages ∪ obtained.toFinset) ∧
      Separated s' nodes' ∧ s'.slobfree ∈ nodes' ∧ s'.units block = slobUnits size ∧
      (align ≠ 0 → block % align = 0) ∧ (block, slobUnits size) ∉ live ∧ Keeps live s s') ∨
    answers 0 = none ∧ (∀ x ∈ nodes, ¬Fits s size align x) ∧
      Returns (fun fuel ↦ slobAlloc size align answers fuel s) (none, s, []) := by
  have hcall : ∀ {result : Option ℕ × Slob × List ℕ},
      Returns (fun fuel ↦ slobAllocLoop size align fuel answers s s.slobfree (s.next s.slobfree) [])
        result → Returns (fun fuel ↦ slobAlloc size align answers fuel s) result := by
    intro result hloop
    refine .congr (fun fuel ↦ ?_) hloop
    rw [slobAlloc, Outcome.require_of_true hrequest.high, Outcome.ok_bind]
  rcases h.slobAllocLoop_search hsep hstart hrequest with
    ⟨block, s', nodes', hloop, harena, hafter⟩ | ⟨hsmall, hloop⟩
  · refine Or.inl ⟨block, s', [], nodes', hcall (hloop answers []), Or.inl rfl, ?_, hafter⟩
    rwa [List.toFinset_nil, Finset.union_empty]
  rcases hpage : answers 0 with - | p
  · refine Or.inr ⟨rfl, hsmall, hcall (hloop answers [] _ (.of_eq fun fuel ↦ ?_))⟩
    rw [hpage]
  · rcases hanswer p hpage with ⟨hp, hnew⟩
    -- the page is freed into the list
    have hfresh : (p, PGSIZE / SLOB_UNIT) ∉ live := by
      intro hmem
      have hsize : 0 < PGSIZE := by decide
      have hapart : plus p (PGSIZE / SLOB_UNIT) ≤ p ∨ p + PGSIZE ≤ p :=
        (h.live_within _ hmem).apart_page h.page (h.live_positive _ hmem) hnew hp.aligned
      have hlt : p < plus p (PGSIZE / SLOB_UNIT) := lt_plus (h.live_positive _ hmem)
      omega
    have hobtain := h.obtain hp hnew
    have hsized : if PGSIZE = 0 then s.units p = PGSIZE / SLOB_UNIT
        else slobUnits PGSIZE = PGSIZE / SLOB_UNIT := by
      rw [if_neg (by decide)]
      rfl
    rcases hobtain.slobFree_returns hsep hstart (Finset.mem_insert_self ..) hsized with
      ⟨mid, midNodes, hfree, hmid, hmidSep, hmidStart, hkeeps, hcovers⟩
    rw [Finset.erase_insert hfresh] at hmid hkeeps
    rcases hcovers with ⟨x, hx, hxp, hend⟩
    have hlarge : Fits mid size align x := by
      have hpend : plus p (PGSIZE / SLOB_UNIT) = p + PGSIZE := rfl
      have hxa : x % SLOB_UNIT = 0 := by
        by_cases hne : x = arena
        · -- the static node is too small to have the page in it
          exfalso
          rw [hne, hmid.arena_units] at hend
          have hapart := hp.apart
          unfold plus at hend
          unfold SLOB_UNIT PGSIZE at *
          omega
        · exact (hmid.within x hx hne).aligned
      exact hrequest.fits hxa hxp hp.aligned (hpend ▸ hend)
    rcases hmid.slobAllocLoop_search hmidSep hmidStart hrequest with
      ⟨block, s', nodes', hretry, harena, hsep', hstart', hunits, haligned, hblock, hkeeps'⟩ |
      ⟨hnone, -⟩
    · refine Or.inl ⟨block, s', [p], nodes', hcall (hloop answers [] _ ?_), Or.inr ⟨p, rfl, rfl⟩, ?_,
        hsep', hstart', hunits, haligned, hblock, hkeeps.trans hkeeps'⟩
      · rw [hpage]
        exact hfree.bind (hretry (fun call ↦ answers (call + 1)) [p])
      · have hpages : pages ∪ [p].toFinset = insert p pages := by
          rw [List.toFinset_cons, List.toFinset_nil, insert_empty_eq, Finset.union_comm,
            ← Finset.insert_eq]
        rwa [hpages]
    · exact absurd hlarge (hnone x hx)

end Alloc

end Ucore.Mm
