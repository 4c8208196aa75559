import Ucore.Mm.PageFaultRights
import Ucore.Library.Run

/-!
# Swapping cannot be seen

A user that loads and stores sees a memory in which each page keeps what was stored to it. The
kernel moves pages between frames and slots: whatever page a swap manager chooses, the content of
each page that was touched is in the frame of its entry or in the slot of its entry, and no frame
belongs to two pages.
-/

namespace Ucore.Mm

open Library

/-! ## Pages and their entries -/

/-- The content of the user pages, by page number. -/
abbrev UserMemory := ℕ → ℕ → UInt8

theorem samePlace_iff {la lb : ℕ} (hla : la < 2 ^ 39) (hlb : lb < 2 ^ 39) :
    SamePlace la lb ↔ la / PGSIZE = lb / PGSIZE := by
  have hindex : ∀ x y : ℕ, Fin.ofNat 512 x = Fin.ofNat 512 y ↔ x % 512 = y % 512 :=
    fun x y ↦ Fin.ext_iff
  unfold SamePlace PDX1 PDX0 PTX PGSIZE
  simp only [hindex, Nat.shiftRight_eq_div_pow]
  constructor
  · rintro ⟨h1, h0, hx⟩
    omega
  · intro h
    omega

theorem usertop_lt {la : ℕ} (h : la < USERTOP) : la < 2 ^ 39 := h.trans (by decide)

/-- The swap entries: one for each page, never a present one, and each leads to its slot. -/
theorem swapEntry_injective {la lb : ℕ} (h : swapEntry la = swapEntry lb) :
    la / PGSIZE = lb / PGSIZE := by
  have hshift := congrArg (fun entry ↦ entry >>> 8) h
  simp only [swapEntry_shiftRight] at hshift
  exact Nat.succ.inj hshift

theorem swapEntry_congr {la lb : ℕ} (h : la / PGSIZE = lb / PGSIZE) : swapEntry la = swapEntry lb := by
  rw [swapEntry, swapEntry, h]

theorem swapEntry_ne_zero (la : ℕ) : swapEntry la ≠ 0 := by
  intro hzero
  have hshift := congrArg (fun entry ↦ entry >>> 8) hzero
  simp only [swapEntry_shiftRight, Nat.zero_shiftRight] at hshift
  exact Nat.succ_ne_zero _ hshift

theorem swapOffset_swapEntry {s : FaultState} {la : ℕ} (h : la / PGSIZE + 1 < s.maxSwapOffset) :
    s.swapOffset (swapEntry la) = .ok (la / PGSIZE + 1) := by
  rw [Swap.swapOffset, swapEntry_shiftRight, Outcome.require_of_true ⟨Nat.succ_pos _, h⟩]
  rfl

/-! ## Where each page is -/

/-- A manager takes its victims out of the queue, whatever their order. -/
def SwapManager.Lawful (sm : SwapManager) : Prop :=
  ∀ queue page rest, sm.swapOutVictim queue = .ok (some (page, rest)) → queue.Perm (page :: rest)

theorem lawful_swapManagerFifo : swapManagerFifo.Lawful := by
  intro queue page rest h
  cases queue with
  | nil => cases h
  | cons first more =>
    cases h
    exact .refl _

/-- The address space is the one for swapping, its areas can be read and written, and each of
their pages has a slot. -/
structure Swap.Swappable (s : FaultState) : Prop where
  wellFormed : s.mm.WellFormed
  flags : ∀ vma ∈ s.mm.mmapList, vma.Allows .load ∧ vma.Allows .store
  slots : ∀ vma ∈ s.mm.mmapList, ∀ addr, vma.Contains addr → addr / PGSIZE + 1 < s.maxSwapOffset
  swapInitOk : s.swapInitOk = true
  checkMm : s.checkMm = true

/-- What the address space is for swapping, and no page. -/
structure Swap.SameSpace (s s' : FaultState) : Prop where
  mmapList : s'.mm.mmapList = s.mm.mmapList
  mmapCache : s'.mm.mmapCache = s.mm.mmapCache
  maxSwapOffset : s'.maxSwapOffset = s.maxSwapOffset
  swapInitOk : s'.swapInitOk = s.swapInitOk
  checkMm : s'.checkMm = s.checkMm

theorem Swap.Swappable.congr {s s' : FaultState} (h : s.Swappable) (hsame : s.SameSpace s') :
    s'.Swappable where
  wellFormed := by
    refine ⟨?_, ?_, ?_⟩
    · rw [hsame.mmapList]
      exact h.wellFormed.whole
    · rw [hsame.mmapList]
      exact h.wellFormed.sorted
    · rw [hsame.mmapList, hsame.mmapCache]
      exact h.wellFormed.cached
  flags := hsame.mmapList ▸ h.flags
  slots := by
    rw [hsame.mmapList, hsame.maxSwapOffset]
    exact h.slots
  swapInitOk := hsame.swapInitOk.trans h.swapInitOk
  checkMm := hsame.checkMm.trans h.checkMm

/-- The entry is the one of a page in memory. -/
def Swap.InFrame (s : FaultState) (la : ℕ) (frame : Frame) : Prop :=
  Present (s.mm.pgdir.pte la) ∧ pte2page (s.mm.pgdir.pte la) = frame

/-- Where the pages are, and that they hold what the memory of the user holds. -/
structure Swap.Holds (s : FaultState) (mem : UserMemory) : Prop where
  swappable : s.Swappable
  nodup : s.pmm.free.Nodup
  present : ∀ la < USERTOP, ∀ frame, s.InFrame la frame →
    frame ∉ s.pmm.free ∧ s.bytes frame = mem (la / PGSIZE) ∧
      ∀ access, access ≠ .fetch → Grants (s.mm.pgdir.pte la) access
  swapped : ∀ la < USERTOP, s.mm.pgdir.pte la ≠ 0 → ¬Present (s.mm.pgdir.pte la) →
    s.mm.pgdir.pte la = swapEntry la ∧ la / PGSIZE + 1 < s.maxSwapOffset ∧
      s.slot (la / PGSIZE + 1) = mem (la / PGSIZE)
  distinct : ∀ la < USERTOP, ∀ lb < USERTOP, ∀ frame, s.InFrame la frame → s.InFrame lb frame →
    la / PGSIZE = lb / PGSIZE
  queue : s.praListHead.Nodup
  queued : ∀ page ∈ s.praListHead, s.praVaddr page < USERTOP ∧ s.InFrame (s.praVaddr page) page ∧
    s.praVaddr page / PGSIZE + 1 < s.maxSwapOffset

variable {sm : SwapManager} {s s' : FaultState} {mem : UserMemory} {frame page : Frame}
  {rest : List Frame} {la lb fuel : ℕ}

theorem pte_of_page {pgdir : Pgdir} (hla : la < USERTOP) (hlb : lb < USERTOP)
    (h : la / PGSIZE = lb / PGSIZE) : pgdir.pte la = pgdir.pte lb :=
  pte_congr ((samePlace_iff (usertop_lt hla) (usertop_lt hlb)).mpr h)

/-- The entries of user pages after a store to the entry of one. -/
theorem pte_setPte_user {pgdir : Pgdir} {value : ℕ} (hisSome : (pgdir.getPte la).isSome)
    (hla : la < USERTOP) (hlb : lb < USERTOP) : (pgdir.setPte la value).pte lb =
      if la / PGSIZE = lb / PGSIZE then value else pgdir.pte lb := by
  rw [pte_setPte hisSome]
  exact if_congr (samePlace_iff (usertop_lt hla) (usertop_lt hlb)) rfl rfl

theorem isSome_of_pte {pgdir : Pgdir} (h : pgdir.pte la ≠ 0) : (pgdir.getPte la).isSome := by
  rw [getPte_of_pte_ne_zero h]
  rfl

theorem ne_zero_of_present {pte : ℕ} (h : Present pte) : pte ≠ 0 :=
  fun hzero ↦ not_present_zero (hzero ▸ h)

/-- Everything that `Holds` speaks of is as it was. -/
structure Swap.SamePages (s s' : FaultState) : Prop where
  space : s.SameSpace s'
  free : s'.pmm.free = s.pmm.free
  bytes : s'.bytes = s.bytes
  slot : s'.slot = s.slot
  praListHead : s'.praListHead = s.praListHead
  praVaddr : s'.praVaddr = s.praVaddr
  pte : ∀ la, s'.mm.pgdir.pte la = s.mm.pgdir.pte la

theorem Swap.Holds.congr (h : s.Holds mem) (hsame : s.SamePages s') : s'.Holds mem := by
  have hframe : ∀ la frame, s'.InFrame la frame ↔ s.InFrame la frame := fun la frame ↦ by
    rw [Swap.InFrame, hsame.pte]
    rfl
  refine ⟨h.swappable.congr hsame.space, hsame.free ▸ h.nodup, fun la hla frame hla' ↦ ?_,
    fun la hla hne hnot ↦ ?_, fun la hla lb hlb frame hla' hlb' ↦ ?_, hsame.praListHead ▸ h.queue,
    fun page hpage ↦ ?_⟩
  · rw [hsame.free, hsame.bytes, hsame.pte]
    exact h.present la hla frame ((hframe la frame).mp hla')
  · rw [hsame.pte] at hne hnot
    rw [hsame.pte, hsame.space.maxSwapOffset, hsame.slot]
    exact h.swapped la hla hne hnot
  · exact h.distinct la hla lb hlb frame ((hframe la frame).mp hla') ((hframe lb frame).mp hlb')
  · rw [hsame.praListHead] at hpage
    rw [hsame.praVaddr, hframe, hsame.space.maxSwapOffset]
    exact h.queued page hpage

/-- A frame that no page has and that is not free. -/
structure Swap.Loose (s : FaultState) (frame : Frame) : Prop where
  used : frame ∉ s.pmm.free
  unmapped : ∀ la < USERTOP, ¬s.InFrame la frame

/-! ## A page leaves its frame -/

section Evicted

variable {pmm : FramePool}

/-- The entries of user pages after one of them has left its frame. -/
theorem Swap.Holds.pte_evicted (h : s.Holds mem) (hin : page ∈ s.praListHead) (hla : la < USERTOP) :
    (Swap.evicted { s with praListHead := rest } page pmm).mm.pgdir.pte la =
      if s.praVaddr page / PGSIZE = la / PGSIZE then swapEntry (s.praVaddr page)
      else s.mm.pgdir.pte la := by
  rcases h.queued page hin with ⟨htop, hframe, -⟩
  exact pte_setPte_user (isSome_of_pte (ne_zero_of_present hframe.1)) htop hla

theorem Swap.Holds.inFrame_evicted (h : s.Holds mem) (hin : page ∈ s.praListHead)
    (hla : la < USERTOP) :
    Swap.InFrame (Swap.evicted { s with praListHead := rest } page pmm) la frame ↔
      s.praVaddr page / PGSIZE ≠ la / PGSIZE ∧ s.InFrame la frame := by
  unfold Swap.InFrame
  rw [h.pte_evicted hin hla]
  by_cases hsame : s.praVaddr page / PGSIZE = la / PGSIZE
  · rw [if_pos hsame]
    exact iff_of_false (fun hboth ↦ not_present_swapEntry _ hboth.1) fun hboth ↦ hboth.1 hsame
  · rw [if_neg hsame]
    exact (and_iff_right hsame).symm

/-- The page is in its slot now, and its frame is loose, until it is free. -/
theorem Swap.Holds.evicted (h : s.Holds mem) (hqueue : s.praListHead.Perm (page :: rest))
    (hnodup : pmm.free.Nodup) (hfree : ∀ frame ∈ pmm.free, frame = page ∨ frame ∈ s.pmm.free) :
    (Swap.evicted { s with praListHead := rest } page pmm).Holds mem := by
  have hin : page ∈ s.praListHead := hqueue.mem_iff.mpr (List.mem_cons_self ..)
  rcases h.queued page hin with ⟨htop, hframe, hslot⟩
  have hother : ∀ {la frame}, la < USERTOP → s.praVaddr page / PGSIZE ≠ la / PGSIZE →
      s.InFrame la frame → frame ≠ page := by
    intro la frame hla hne hla' hsame
    exact hne (h.distinct _ htop _ hla page hframe (hsame ▸ hla'))
  refine ⟨h.swappable.congr ⟨rfl, rfl, rfl, rfl, rfl⟩, hnodup, fun la hla frame hla' ↦ ?_, fun la hla hne hnot ↦ ?_,
    fun la hla lb hlb frame hla' hlb' ↦ ?_, ?_, fun other hother' ↦ ?_⟩
  · rcases (h.inFrame_evicted hin hla).mp hla' with ⟨hne, hold⟩
    rcases h.present la hla frame hold with ⟨hused, hbytes, hgrants⟩
    refine ⟨fun hmem ↦ ?_, hbytes, ?_⟩
    · rcases hfree frame hmem with heq | hmem
      · exact hother hla hne hold heq
      · exact hused hmem
    · rw [h.pte_evicted hin hla, if_neg hne]
      exact hgrants
  · rw [h.pte_evicted hin hla] at hne hnot ⊢
    by_cases hsame : s.praVaddr page / PGSIZE = la / PGSIZE
    · rw [if_pos hsame, ← hsame]
      refine ⟨swapEntry_congr hsame, hslot, ?_⟩
      exact (Function.update_self ..).trans (h.present _ htop page hframe).2.1
    · rw [if_neg hsame] at hne hnot ⊢
      rcases h.swapped la hla hne hnot with ⟨hentry, hslot', hcontent⟩
      refine ⟨hentry, hslot', ?_⟩
      refine (Function.update_of_ne (fun heq ↦ hsame ?_) ..).trans hcontent
      exact (Nat.succ.inj heq).symm
  · exact h.distinct la hla lb hlb frame ((h.inFrame_evicted hin hla).mp hla').2
      ((h.inFrame_evicted hin hlb).mp hlb').2
  · exact (List.nodup_cons.mp (hqueue.nodup_iff.mp h.queue)).2
  · have hin' : other ∈ s.praListHead := hqueue.mem_iff.mpr (List.mem_cons_of_mem _ hother')
    rcases h.queued other hin' with ⟨htop', hframe', hslot'⟩
    refine ⟨htop', (h.inFrame_evicted hin htop').mpr ⟨fun hsame ↦ ?_, hframe'⟩, hslot'⟩
    have heq : other = page := by
      rw [← hframe'.2, ← hframe.2, pte_of_page htop htop' hsame]
    have hnotin := (List.nodup_cons.mp (hqueue.nodup_iff.mp h.queue)).1
    exact hnotin (heq ▸ hother')

end Evicted

/-! ## A frame is found -/

theorem Swap.Holds.setFree (h : s.Holds mem) {free : List Frame} (hsub : free.Sublist s.pmm.free) :
    (s.setFree free).Holds mem :=
  { h with
    swappable := h.swappable.congr ⟨rfl, rfl, rfl, rfl, rfl⟩
    nodup := h.nodup.sublist hsub
    present := fun la hla frame hframe ↦
      ⟨fun hin ↦ (h.present la hla frame hframe).1 (hsub.subset hin),
        (h.present la hla frame hframe).2⟩ }

/-- Pages have moved: each is where its entry says, and those that were touched still are. -/
structure Swap.Moved (s : FaultState) (mem : UserMemory) (s' : FaultState) : Prop where
  holds : s'.Holds mem
  touched : ∀ la < USERTOP, s.mm.pgdir.pte la ≠ 0 → s'.mm.pgdir.pte la ≠ 0
  maxSwapOffset : s'.maxSwapOffset = s.maxSwapOffset

theorem Swap.Moved.trans {s'' : FaultState} (h : s.Moved mem s') (h' : s'.Moved mem s'') :
    s.Moved mem s'' where
  holds := h'.holds
  touched := fun la hla hne ↦ h'.touched la hla (h.touched la hla hne)
  maxSwapOffset := h'.maxSwapOffset.trans h.maxSwapOffset

theorem Swap.Holds.allocated (h : s.Holds mem) (hsm : sm.Lawful) {found : Option Frame}
    (hallocated : PageAllocated sm s found s') :
    ∃ frame, found = some frame ∧ s.Moved mem s' ∧ s'.Loose frame := by
  cases hallocated with
  | @head frame rest hfree =>
    have hnodup := h.nodup
    rw [hfree] at hnodup
    refine ⟨frame, rfl, ⟨h.setFree ?_, fun _ _ hne ↦ hne, rfl⟩, (List.nodup_cons.mp hnodup).1,
      fun la hla hframe ↦ ?_⟩
    · rw [hfree]
      exact List.sublist_cons_self ..
    · exact (h.present la hla frame hframe).1 (hfree ▸ List.mem_cons_self ..)
  | null hfree hswap => exact absurd (hswap.symm.trans h.swappable.swapInitOk) Bool.false_ne_true
  | @victim page rest hfree hswap hcheckMm hvictim hevictable =>
    have hqueue := hsm _ _ _ hvictim
    have hin : page ∈ s.praListHead := hqueue.mem_iff.mpr (List.mem_cons_self ..)
    rcases h.queued page hin with ⟨htop, hframe, -⟩
    refine ⟨page, rfl, ⟨h.evicted hqueue List.nodup_nil nofun, fun la hla hne ↦ ?_, rfl⟩,
      List.not_mem_nil, fun la hla hla' ↦ ?_⟩
    · rw [h.pte_evicted hin hla]
      split
      · exact swapEntry_ne_zero _
      · exact hne
    · rcases (h.inFrame_evicted hin hla).mp hla' with ⟨hne, hold⟩
      exact hne (h.distinct _ htop _ hla page hframe hold)

theorem Swap.Holds.levelCreated (h : s.Holds mem) (hsm : sm.Lawful) {present made : Bool}
    {attach : Pgdir → Frame → Pgdir} (hlevel : LevelCreated sm s present attach made s')
    (hattach : present = false → ∀ pgdir, SameShape s.mm.pgdir pgdir → ∀ frame,
      Extends pgdir (attach pgdir frame)) : made = true ∧ s.Moved mem s' := by
  cases hlevel with
  | there hpresent => exact ⟨rfl, h, fun _ _ hne ↦ hne, rfl⟩
  | null hpresent hnull =>
    rcases h.allocated hsm hnull with ⟨frame, hfound, -⟩
    cases hfound
  | @made middle frame hpresent hmade =>
    rcases h.allocated hsm hmade with ⟨_, _, hmoved, _⟩
    have hextends := hattach hpresent _ hmade.sameShape frame
    refine ⟨rfl, hmoved.holds.congr
      ⟨⟨rfl, rfl, rfl, rfl, rfl⟩, rfl, rfl, rfl, rfl, rfl, hextends.pte⟩, fun la hla hne ↦ ?_,
      hmoved.maxSwapOffset⟩
    have hsame : ((middle.setRef frame 1).setPgdir (attach middle.mm.pgdir frame)).mm.pgdir.pte la =
        middle.mm.pgdir.pte la := hextends.pte la
    rw [hsame]
    exact hmoved.touched la hla hne

theorem Swap.Holds.createPte (h : s.Holds mem) (hsm : sm.Lawful) {made : Bool}
    (hok : s.createPte sm fuel la = .ok (made, s')) : made = true ∧ s.Moved mem s' := by
  unfold Swap.createPte at hok
  rcases Outcome.bind_eq_ok.mp hok with ⟨⟨upper, middle⟩, hfirst, hok⟩
  rcases h.levelCreated hsm (createLevel_ok hfirst) fun hnone pgdir hshape frame ↦
    extends_attachPd0 (hshape.entry_none hnone) with ⟨rfl, hmoved⟩
  rcases hmoved.holds.levelCreated hsm (createLevel_ok hok) fun hnone pgdir hshape frame ↦
    extends_attachPt (hshape.getPte_none hnone) with ⟨rfl, hmore⟩
  exact ⟨rfl, hmoved.trans hmore⟩

/-! ## A page gets a frame -/

/-- The entry for `la` leads to the frame now, and the frame is the last in the queue. -/
structure Swap.Inserted (s s' : FaultState) (la : ℕ) (frame : Frame) (pte : ℕ) : Prop where
  space : s.SameSpace s'
  free : s'.pmm.free = s.pmm.free
  bytes : ∀ other ≠ frame, s'.bytes other = s.bytes other
  slot : s'.slot = s.slot
  praListHead : s'.praListHead = s.praListHead ++ [frame]
  praVaddr : s'.praVaddr = Function.update s.praVaddr frame la
  pgdir : s'.mm.pgdir = s.mm.pgdir.setPte la pte

section Inserted

variable {pte : ℕ}

theorem Swap.Inserted.pte_user (h : s.Inserted s' la frame pte) (hisSome : (s.mm.pgdir.getPte la).isSome)
    (hla : la < USERTOP) (hlb : lb < USERTOP) : s'.mm.pgdir.pte lb =
      if la / PGSIZE = lb / PGSIZE then pte else s.mm.pgdir.pte lb := by
  rw [h.pgdir]
  exact pte_setPte_user hisSome hla hlb

/-- What the frame holds is what the page holds from now on. -/
theorem Swap.Holds.inserted (h : s.Holds mem) (hloose : s.Loose frame) (hla : la < USERTOP)
    (hslot : la / PGSIZE + 1 < s.maxSwapOffset) (hisSome : (s.mm.pgdir.getPte la).isSome)
    (hnot : ¬Present (s.mm.pgdir.pte la)) (hpresent : Present pte) (hframe : pte2page pte = frame)
    (hgrants : ∀ access, access ≠ .fetch → Grants pte access) (hins : s.Inserted s' la frame pte) :
    s'.Holds (Function.update mem (la / PGSIZE) (s'.bytes frame)) := by
  have hpte : ∀ {lb}, lb < USERTOP → s'.mm.pgdir.pte lb =
      if la / PGSIZE = lb / PGSIZE then pte else s.mm.pgdir.pte lb := fun hlb ↦
    hins.pte_user hisSome hla hlb
  have hin : ∀ {lb other}, lb < USERTOP → (s'.InFrame lb other ↔
      la / PGSIZE = lb / PGSIZE ∧ other = frame ∨
        la / PGSIZE ≠ lb / PGSIZE ∧ s.InFrame lb other) := by
    intro lb other hlb
    rw [Swap.InFrame, hpte hlb]
    by_cases hsame : la / PGSIZE = lb / PGSIZE
    · rw [if_pos hsame]
      constructor
      · exact fun hboth ↦ Or.inl ⟨hsame, hboth.2.symm.trans hframe⟩
      · rintro (⟨-, rfl⟩ | ⟨hne, -⟩)
        · exact ⟨hpresent, hframe⟩
        · exact absurd hsame hne
    · rw [if_neg hsame]
      constructor
      · exact fun hboth ↦ Or.inr ⟨hsame, hboth⟩
      · rintro (⟨heq, -⟩ | ⟨-, hboth⟩)
        · exact absurd heq hsame
        · exact hboth
  have hmem : ∀ {lb}, la / PGSIZE ≠ lb / PGSIZE →
      Function.update mem (la / PGSIZE) (s'.bytes frame) (lb / PGSIZE) = mem (lb / PGSIZE) :=
    fun hne ↦ Function.update_of_ne (Ne.symm hne) ..
  have hfresh : ∀ page ∈ s.praListHead, page ≠ frame := by
    rintro page hpage rfl
    rcases h.queued page hpage with ⟨htop, hmapped, -⟩
    exact hloose.unmapped _ htop hmapped
  refine ⟨h.swappable.congr hins.space, hins.free ▸ h.nodup, fun lb hlb other hlb' ↦ ?_,
    fun lb hlb hne hnot' ↦ ?_, fun lb hlb lc hlc other hlb' hlc' ↦ ?_, ?_, fun page hpage ↦ ?_⟩
  · rw [hins.free, hpte hlb]
    rcases (hin hlb).mp hlb' with ⟨hsame, rfl⟩ | ⟨hne, hold⟩
    · rw [if_pos hsame, ← hsame, Function.update_self]
      exact ⟨hloose.used, rfl, hgrants⟩
    · rw [if_neg hne, hmem hne, hins.bytes other fun heq ↦ hloose.unmapped lb hlb (heq ▸ hold)]
      exact h.present lb hlb other hold
  · rw [hpte hlb] at hne hnot' ⊢
    by_cases hsame : la / PGSIZE = lb / PGSIZE
    · rw [if_pos hsame] at hnot'
      exact absurd hpresent hnot'
    · rw [if_neg hsame] at hne hnot' ⊢
      rw [hins.slot, hins.space.maxSwapOffset, hmem hsame]
      exact h.swapped lb hlb hne hnot'
  · rcases (hin hlb).mp hlb' with ⟨hsame, rfl⟩ | ⟨hne, hold⟩ <;>
      rcases (hin hlc).mp hlc' with ⟨hsame', hother⟩ | ⟨hne', hold'⟩
    · exact hsame.symm.trans hsame'
    · exact absurd hold' (hloose.unmapped lc hlc)
    · exact absurd (hother ▸ hold) (hloose.unmapped lb hlb)
    · exact h.distinct lb hlb lc hlc other hold hold'
  · rw [hins.praListHead]
    apply h.queue.append (List.nodup_singleton frame)
    rw [List.disjoint_singleton]
    exact fun hmem ↦ hfresh frame hmem rfl
  · rw [hins.praListHead, List.mem_append, List.mem_singleton] at hpage
    rw [hins.praVaddr, hins.space.maxSwapOffset]
    rcases hpage with hpage | rfl
    · rw [Function.update_of_ne (hfresh page hpage)]
      rcases h.queued page hpage with ⟨htop, hmapped, hslot'⟩
      refine ⟨htop, (hin htop).mpr (Or.inr ⟨fun hsame ↦ hnot ?_, hmapped⟩), hslot'⟩
      rw [pte_of_page hla htop hsame]
      exact hmapped.1
    · rw [Function.update_self]
      exact ⟨hla, (hin hla).mpr (Or.inl ⟨rfl, rfl⟩), hslot⟩

end Inserted

/-! ## A page fault -/

section Fault

variable {vma : Vma} {addr errorCode : ℕ} {ret : ℤ}

theorem checkSwappable_checked (hswap : s.swapInitOk = true) (hcheckMm : s.checkMm = true)
    (h : s.checkSwappable page la = .ok s') :
    s' = { s with
      praListHead := s.praListHead ++ [page]
      praVaddr := Function.update s.praVaddr page la } := by
  unfold Swap.checkSwappable at h
  rw [if_pos ⟨hswap, hcheckMm⟩] at h
  rcases Outcome.bind_eq_ok.mp h with ⟨mapped, hmap, h⟩
  rcases Outcome.bind_eq_ok.mp h with ⟨_, _, h⟩
  cases h
  rw [(mapSwappable_ok hmap).2]

/-- A loose frame goes to a page that has none, with the entry of the handler. -/
theorem Swap.Moved.inserted {middle : FaultState} (h : s.Moved mem middle)
    (hloose : middle.Loose frame) (hla : la < USERTOP) (hslot : la / PGSIZE + 1 < middle.maxSwapOffset)
    (hisSome : (middle.mm.pgdir.getPte la).isSome) (hnot : ¬Present (middle.mm.pgdir.pte la))
    (hstore : vma.Allows .store) (hins : middle.Inserted s' la frame (faultPte frame vma)) :
    s.Moved (Function.update mem (la / PGSIZE) (s'.bytes frame)) s' := by
  have hpresent : Present (faultPte frame vma) := present_pteCreate frame _
  refine ⟨h.holds.inserted hloose hla hslot hisSome hnot hpresent (pte2page_faultPte frame vma)
    (fun access hne ↦ (grants_faultPte frame vma access).mpr ⟨hstore, hne⟩) hins,
    fun lb hlb hne ↦ ?_, hins.space.maxSwapOffset.trans h.maxSwapOffset⟩
  rw [hins.pte_user hisSome hla hlb]
  split
  · exact ne_zero_of_present hpresent
  · exact h.touched lb hlb hne

/-- The first access to a page: whatever the frame held is the content of the page. -/
theorem Swap.Holds.faultAlloc (h : s.Holds mem) (hsm : sm.Lawful) (hla : la < USERTOP)
    (hslot : la / PGSIZE + 1 < s.maxSwapOffset) (hisSome : (s.mm.pgdir.getPte la).isSome)
    (hzero : s.mm.pgdir.pte la = 0) (hstore : vma.Allows .store) {found : Option Frame}
    (hok : s.pgdirAllocPage sm fuel la (faultPerm vma.vmFlags) = .ok (found, s')) :
    found.isSome ∧ ∃ content, s.Moved (Function.update mem (la / PGSIZE) content) s' := by
  unfold Swap.pgdirAllocPage at hok
  rcases Outcome.bind_eq_ok.mp hok with ⟨⟨got, middle⟩, halloc, hok⟩
  have hallocated := allocPages_ok halloc
  rcases h.allocated hsm hallocated with ⟨frame, rfl, hmoved, hloose⟩
  have hsome := hallocated.kept.getPte la hisSome
  have hpte : middle.mm.pgdir.pte la = 0 := by
    rw [hallocated.kept.pte la (hzero ▸ not_present_zero), hzero]
  have hnot : ¬Present (middle.mm.pgdir.pte la) := hpte ▸ not_present_zero
  dsimp only at hok
  rw [pageInsert_of_not_present hsome hnot, Outcome.ok_bind] at hok
  rcases Outcome.bind_eq_ok.mp hok with ⟨after, hcheck, hok⟩
  cases hok
  have hspace := hmoved.holds.swappable
  have hafter := fun hswap hcheckMm ↦ checkSwappable_checked hswap hcheckMm hcheck
  rw [hafter hspace.swapInitOk hspace.checkMm]
  exact ⟨rfl, _, hmoved.inserted hloose hla (hmoved.maxSwapOffset ▸ hslot) hsome hnot hstore
    ⟨⟨rfl, rfl, rfl, rfl, rfl⟩, rfl, fun _ _ ↦ rfl, rfl, rfl, rfl, rfl⟩⟩

/-- A page comes back from its slot with the content that it has. -/
theorem Swap.Holds.faultSwapIn (h : s.Holds mem) (hsm : sm.Lawful) (hla : la < USERTOP)
    (hne : s.mm.pgdir.pte la ≠ 0) (hnot : ¬Present (s.mm.pgdir.pte la)) (hstore : vma.Allows .store)
    (hok : s.faultSwapIn sm fuel la (faultPerm vma.vmFlags) = .ok s') : s.Moved mem s' := by
  unfold Swap.faultSwapIn at hok
  rcases Outcome.bind_eq_ok.mp hok with ⟨⟨page, read⟩, hswapIn, hok⟩
  rcases Outcome.bind_eq_ok.mp hok with ⟨⟨inserted, after⟩, hinsert, hok⟩
  rcases Outcome.bind_eq_ok.mp hok with ⟨mapped, hmap, hok⟩
  cases hok
  unfold Swap.swapIn at hswapIn
  rcases Outcome.bind_eq_ok.mp hswapIn with ⟨⟨got, middle⟩, halloc, hswapIn⟩
  have hallocated := allocPages_ok halloc
  rcases h.allocated hsm hallocated with ⟨frame, rfl, hmoved, hloose⟩
  have hsome := hallocated.kept.getPte la (isSome_of_pte hne)
  have hpte := hallocated.kept.pte la hnot
  have hne' : middle.mm.pgdir.pte la ≠ 0 := hpte ▸ hne
  have hnot' : ¬Present (middle.mm.pgdir.pte la) := hpte ▸ hnot
  rcases hmoved.holds.swapped la hla hne' hnot' with ⟨hentry, hslot, hcontent⟩
  dsimp only at hswapIn
  rw [getPte_of_pte_ne_zero hne', hentry] at hswapIn
  dsimp only at hswapIn
  rw [Swap.swapfsRead, swapOffset_swapEntry hslot] at hswapIn
  cases hswapIn
  cases hinsert.symm.trans (pageInsert_of_not_present hsome hnot')
  rw [(mapSwappable_ok hmap).2]
  have hmem : Function.update mem (la / PGSIZE) (middle.slot (la / PGSIZE + 1)) = mem := by
    rw [hcontent, Function.update_eq_self]
  rw [← hmem]
  have hinserted : ∀ after : FaultState, middle.Inserted after la page (faultPte page vma) →
      after.bytes page = middle.slot (la / PGSIZE + 1) →
      s.Moved (Function.update mem (la / PGSIZE) (middle.slot (la / PGSIZE + 1))) after :=
    fun after hins hbytes ↦ hbytes ▸ hmoved.inserted hloose hla hslot hsome hnot' hstore hins
  apply hinserted
  · exact ⟨⟨rfl, rfl, rfl, rfl, rfl⟩, rfl, fun _ hother ↦ Function.update_of_ne hother ..,
      rfl, rfl, rfl, rfl⟩
  · exact Function.update_self ..

theorem Swap.Moved.sameMem (h : s.Moved mem s') (page : ℕ) :
    s.Moved (Function.update mem page (mem page)) s' := by
  rw [Function.update_eq_self]
  exact h

theorem Swap.Holds.faultIn (h : s.Holds mem) (hsm : sm.Lawful) (hstore : vma.Allows .store)
    (hla : la < USERTOP) (hslot : la / PGSIZE + 1 < s.maxSwapOffset)
    (hnot : ¬Present (s.mm.pgdir.pte la)) (hok : s.faultIn sm fuel vma la = .ok (ret, s')) :
    ∃ content, s.Moved (Function.update mem (la / PGSIZE) content) s' ∧
      (s.mm.pgdir.pte la ≠ 0 → content = mem (la / PGSIZE)) := by
  unfold Swap.faultIn at hok
  rcases Outcome.bind_eq_ok.mp hok with ⟨⟨made, middle⟩, hcreate, hok⟩
  rcases h.createPte hsm hcreate with ⟨rfl, hmoved⟩
  have hcreated := createPte_ok hcreate
  have hpte := hcreated.kept.pte la hnot
  dsimp only at hok
  by_cases hzero : middle.mm.pgdir.pte la = 0
  · rw [if_pos hzero] at hok
    rcases Outcome.bind_eq_ok.mp hok with ⟨⟨found, after⟩, halloc, hok⟩
    rcases hmoved.holds.faultAlloc hsm hla (hmoved.maxSwapOffset ▸ hslot) (hcreated.pointer rfl) hzero hstore halloc
      with ⟨hsome, content, hmore⟩
    cases found with
    | none => cases hsome
    | some page =>
      cases hok
      exact ⟨content, ⟨hmore.holds, fun lb hlb hne ↦ hmore.touched lb hlb (hmoved.touched lb hlb hne),
        hmore.maxSwapOffset.trans hmoved.maxSwapOffset⟩, fun hne ↦ absurd (hpte.symm.trans hzero) hne⟩
  · rw [if_neg hzero, if_pos hmoved.holds.swappable.swapInitOk] at hok
    rcases Outcome.bind_eq_ok.mp hok with ⟨after, hswapIn, hok⟩
    cases hok
    have hmore := hmoved.holds.faultSwapIn hsm hla hzero (hpte ▸ hnot) hstore hswapIn
    exact ⟨mem (la / PGSIZE), (hmoved.trans hmore).sameMem _, fun _ ↦ rfl⟩

/-- What a page fault does to the memory of the user: nothing, or an untouched page gets its first
content. -/
theorem Swap.Holds.faulted (h : s.Holds mem) (hsm : sm.Lawful)
    (hnot : addr < USERTOP → ¬Present (s.mm.pgdir.pte addr))
    (hok : doPgfault sm fuel s errorCode addr = .ok (ret, s')) :
    ∃ mem', s.Moved mem' s' ∧ ∀ la < USERTOP, s.mm.pgdir.pte la ≠ 0 →
      mem' (la / PGSIZE) = mem (la / PGSIZE) := by
  have hcache := findVma_eq s.mm addr
  have hwf := h.swappable.wellFormed.findVma addr
  unfold doPgfault at hok
  rcases hfind : s.mm.findVma addr with ⟨found, mm⟩
  rw [hfind] at hok hcache hwf
  dsimp only at hok hcache hwf
  have hsame : Swap.Holds { s with mm := { s.mm with mmapCache := mm.mmapCache } } mem :=
    ⟨⟨hcache ▸ hwf, h.swappable.flags, h.swappable.slots, h.swappable.swapInitOk,
      h.swappable.checkMm⟩, h.nodup, h.present, h.swapped, h.distinct, h.queue, h.queued⟩
  rw [hcache] at hok
  cases found with
  | none =>
    cases hok
    exact ⟨mem, ⟨hsame, fun _ _ hne ↦ hne, rfl⟩, fun _ _ _ ↦ rfl⟩
  | some vma =>
    rcases findVma_some h.swappable.wellFormed (show (s.mm.findVma addr).1 = some vma by rw [hfind])
      with ⟨hvma, hcontains, -⟩
    dsimp only at hok
    rw [if_neg (not_lt.mpr hcontains.1)] at hok
    have haddr : addr < USERTOP :=
      hcontains.2.trans_le (h.swappable.wellFormed.whole vma hvma).access.2.2
    have hla : roundDown addr PGSIZE < USERTOP := (Nat.sub_le ..).trans_lt haddr
    have hpage : roundDown addr PGSIZE / PGSIZE = addr / PGSIZE := by
      unfold roundDown PGSIZE
      omega
    have hpte : s.mm.pgdir.pte (roundDown addr PGSIZE) = s.mm.pgdir.pte addr :=
      pte_of_page hla haddr hpage
    have hslot := h.swappable.slots vma hvma addr hcontains
    rcases hsame.faultIn hsm (h.swappable.flags vma hvma).2 hla (hpage ▸ hslot)
      (hpte ▸ hnot haddr) hok with ⟨content, hmoved, hcontent⟩
    refine ⟨_, ⟨hmoved.holds, hmoved.touched, hmoved.maxSwapOffset⟩, fun lb hlb hne ↦ ?_⟩
    by_cases heq : roundDown addr PGSIZE / PGSIZE = lb / PGSIZE
    · rw [← heq, Function.update_self]
      apply hcontent
      rw [pte_of_page hla hlb heq]
      exact hne
    · rw [Function.update_of_ne (Ne.symm heq)]

end Fault

/-! ## Swapping out -/

/-- A page in the queue meets the assertions of `swap_out`. -/
theorem Swap.Holds.evictable (h : s.Holds mem) (hin : page ∈ s.praListHead) : s.Evictable page := by
  rcases h.queued page hin with ⟨-, hframe, hslot⟩
  have hne := ne_zero_of_present hframe.1
  exact ⟨⟨_, getPte_of_pte_ne_zero hne, hframe.1⟩, hslot⟩

theorem Swap.Holds.movedEvicted (h : s.Holds mem) (hqueue : s.praListHead.Perm (page :: rest))
    (ref : Frame → ℤ) :
    s.Moved mem (Swap.evicted { s with praListHead := rest } page ⟨page :: s.pmm.free, ref⟩) := by
  have hin : page ∈ s.praListHead := hqueue.mem_iff.mpr (List.mem_cons_self ..)
  rcases h.queued page hin with ⟨htop, hframe, -⟩
  have hfree := (h.present _ htop page hframe).1
  refine ⟨h.evicted hqueue (List.nodup_cons.mpr ⟨hfree, h.nodup⟩) fun frame ↦ List.mem_cons.mp,
    fun la hla hne ↦ ?_, rfl⟩
  rw [h.pte_evicted hin hla]
  split
  · exact swapEntry_ne_zero _
  · exact hne

theorem Swap.Holds.swapOut (h : s.Holds mem) (hsm : sm.Lawful) {mm : Bool} {n count : ℕ}
    (hok : s.swapOut framePoolManager sm mm n = .ok (count, s')) : s.Moved mem s' := by
  induction n generalizing s count with
  | zero =>
    cases hok
    exact ⟨h, fun _ _ hne ↦ hne, rfl⟩
  | succ n ih =>
    unfold Swap.swapOut at hok
    rcases Outcome.bind_eq_ok.mp hok with ⟨_, _, hok⟩
    rcases Outcome.bind_eq_ok.mp hok with ⟨victim, hvictim, hok⟩
    cases victim with
    | none =>
      cases hok
      exact ⟨h, fun _ _ hne ↦ hne, rfl⟩
    | some victim =>
      rcases victim with ⟨page, rest⟩
      rcases Outcome.bind_eq_ok.mp hok with ⟨middle, hevict, hok⟩
      rcases Outcome.bind_eq_ok.mp hok with ⟨⟨more, last⟩, hmore, hok⟩
      cases hok
      rcases evict_ok_iff.mp hevict with ⟨-, pmm, hfree, rfl⟩
      cases hfree
      have hmoved := h.movedEvicted (hsm _ _ _ hvictim) (Function.update s.pmm.ref page 0)
      exact hmoved.trans (ih hmoved.holds hmore)

/-! ## The user -/

/-- What the user sees of a run. -/
inductive MemoryEvent where
  | load (addr : ℕ) (value : UInt8)
  | store (addr : ℕ) (value : UInt8)
  | kernel

/-- An access that goes through: the entry is present and grants it. -/
structure Swap.Accesses (s : FaultState) (access : Access) (addr : ℕ) (frame : Frame) : Prop where
  user : addr < USERTOP
  frame : s.InFrame addr frame
  grants : Grants (s.mm.pgdir.pte addr) access

/-- Loads and stores, page faults, and `swap_out` for any number of pages. The victims are chosen
by any manager, and by another one in each step. -/
inductive SwapEvent : FaultState → MemoryEvent → FaultState → Prop
  | load {s : FaultState} {addr : ℕ} {frame : Frame} (haccess : s.Accesses .load addr frame) :
      SwapEvent s (.load addr (s.bytes frame (addr % PGSIZE))) s
  | store {s : FaultState} {addr : ℕ} {frame : Frame} {value : UInt8}
      (haccess : s.Accesses .store addr frame) :
      SwapEvent s (.store addr value) { s with
        bytes := Function.update s.bytes frame
          (Function.update (s.bytes frame) (addr % PGSIZE) value) }
  | fault {sm : SwapManager} {s s' : FaultState} {access : Access} {fuel errorCode addr : ℕ}
      {ret : ℤ} (hsm : sm.Lawful) (hdata : access ≠ .fetch)
      (hfault : ∀ frame, ¬s.Accesses access addr frame)
      (hok : doPgfault sm fuel s errorCode addr = .ok (ret, s')) : SwapEvent s .kernel s'
  | swapOut {sm : SwapManager} {s s' : FaultState} {n count : ℕ} (hsm : sm.Lawful)
      (hok : s.swapOut framePoolManager sm true n = .ok (count, s')) : SwapEvent s .kernel s'

/-- The machine without swapping: a memory for all pages, where each byte keeps what was stored. -/
inductive ReferenceEvent : UserMemory → MemoryEvent → UserMemory → Prop
  | load {mem : UserMemory} {addr : ℕ} :
      ReferenceEvent mem (.load addr (mem (addr / PGSIZE) (addr % PGSIZE))) mem
  | store {mem : UserMemory} {addr : ℕ} {value : UInt8} :
      ReferenceEvent mem (.store addr value) (Function.update mem (addr / PGSIZE)
        (Function.update (mem (addr / PGSIZE)) (addr % PGSIZE) value))
  | kernel {mem : UserMemory} : ReferenceEvent mem .kernel mem

/-- A store changes the content of one page. -/
theorem Swap.Holds.stored (h : s.Holds mem) {addr : ℕ} (hacc : s.Accesses .store addr frame)
    (content : ℕ → UInt8) :
    Swap.Holds { s with bytes := Function.update s.bytes frame content }
      (Function.update mem (addr / PGSIZE) content) := by
  have hmem : ∀ la < USERTOP, ∀ other, s.InFrame la other →
      Function.update s.bytes frame content other =
        Function.update mem (addr / PGSIZE) content (la / PGSIZE) := by
    intro la hla other hother
    by_cases hsame : la / PGSIZE = addr / PGSIZE
    · have heq : other = frame := by
        rw [← hother.2, ← hacc.frame.2, pte_of_page hla hacc.user hsame]
      rw [heq, hsame, Function.update_self, Function.update_self]
    · have hne : other ≠ frame := fun heq ↦
        hsame (h.distinct la hla addr hacc.user frame (heq ▸ hother) hacc.frame)
      rw [Function.update_of_ne hne, Function.update_of_ne hsame]
      exact (h.present la hla other hother).2.1
  refine { h with
    swappable := h.swappable.congr ⟨rfl, rfl, rfl, rfl, rfl⟩
    present := fun la hla other hother ↦ ?_
    swapped := fun la hla hne hnot ↦ ?_ }
  · rcases h.present la hla other hother with ⟨hused, -, hgrants⟩
    exact ⟨hused, hmem la hla other hother, hgrants⟩
  · rcases h.swapped la hla hne hnot with ⟨hentry, hslot, hcontent⟩
    refine ⟨hentry, hslot, hcontent.trans (Function.update_of_ne (fun hsame ↦ hnot ?_) ..).symm⟩
    rw [pte_of_page hla hacc.user hsame]
    exact hacc.frame.1

/-- A data access goes through whenever the page is in memory. -/
theorem Swap.Holds.accesses (h : s.Holds mem) {access : Access} {addr : ℕ} (hdata : access ≠ .fetch)
    (htop : addr < USERTOP) (hpresent : Present (s.mm.pgdir.pte addr)) :
    s.Accesses access addr (pte2page (s.mm.pgdir.pte addr)) :=
  ⟨htop, ⟨hpresent, rfl⟩, (h.present addr htop _ ⟨hpresent, rfl⟩).2.2 access hdata⟩

/-! ## Every run -/

/-- The two memories have the same content for each page that was touched. -/
def Swap.AgreeOn (s : FaultState) (mem mem' : UserMemory) : Prop :=
  ∀ la < USERTOP, s.mm.pgdir.pte la ≠ 0 → mem (la / PGSIZE) = mem' (la / PGSIZE)

/-- Putting a byte back undoes a store. -/
theorem update_byte (mem : UserMemory) (page offset : ℕ) (value : UInt8) (old : ℕ → UInt8)
    (hpage : mem page = Function.update old offset value) :
    Function.update (Function.update mem page old) page
      (Function.update (Function.update mem page old page) offset value) = mem := by
  rw [Function.update_self, Function.update_idem, ← hpage, Function.update_eq_self]

/-- What a user sees in a run, the machine without swapping shows, if its untouched pages hold
what the kernel will find for them. -/
theorem exists_reference {labels : List MemoryEvent} (hruns : Runs SwapEvent s labels s')
    (h : s.Holds mem) :
    ∃ first last, Runs ReferenceEvent first labels last ∧ s'.Holds last ∧ s.AgreeOn first mem := by
  induction hruns generalizing mem with
  | nil => exact ⟨mem, mem, .nil, h, fun _ _ _ ↦ rfl⟩
  | cons hstep _ ih =>
    cases hstep with
    | @load s addr frame haccess =>
      rcases ih h with ⟨first, last, hreference, hlast, hagree⟩
      have hpage := hagree addr haccess.user (ne_zero_of_present haccess.frame.1)
      have hbytes := (h.present addr haccess.user frame haccess.frame).2.1
      refine ⟨first, last, .cons ?_ hreference, hlast, hagree⟩
      rw [hbytes, ← hpage]
      exact .load
    | @store s addr frame value haccess =>
      have hne := ne_zero_of_present haccess.frame.1
      have hbytes := (h.present addr haccess.user frame haccess.frame).2.1
      rcases ih (h.stored haccess _) with ⟨first, last, hreference, hlast, hagree⟩
      have hpage : first (addr / PGSIZE) =
          Function.update (mem (addr / PGSIZE)) (addr % PGSIZE) value := by
        rw [hagree addr haccess.user hne, Function.update_self, hbytes]
      -- the page of the store as it was, and the other pages from the rest of the run
      refine ⟨Function.update first (addr / PGSIZE) (mem (addr / PGSIZE)), last, .cons ?_ hreference,
        hlast, fun la hla hla' ↦ ?_⟩
      · have hstored := update_byte first (addr / PGSIZE) (addr % PGSIZE) value _ hpage
        have hevent : ReferenceEvent (Function.update first (addr / PGSIZE) (mem (addr / PGSIZE)))
            (.store addr value) _ := .store
        rw [hstored] at hevent
        exact hevent
      · by_cases hsame : la / PGSIZE = addr / PGSIZE
        · rw [hsame, Function.update_self]
        · rw [Function.update_of_ne hsame, hagree la hla hla', Function.update_of_ne hsame]
    | fault hsm hdata hfault hok =>
      -- data can be accessed in any page that is in memory
      have hnot := fun htop hpresent ↦ hfault _ (h.accesses hdata htop hpresent)
      rcases h.faulted hsm hnot hok with ⟨mem', hmoved, hmem⟩
      rcases ih hmoved.holds with ⟨first, last, hreference, hlast, hagree⟩
      exact ⟨first, last, .cons .kernel hreference, hlast, fun la hla hne ↦
        (hagree la hla (hmoved.touched la hla hne)).trans (hmem la hla hne)⟩
    | swapOut hsm hok =>
      have hmoved := h.swapOut hsm hok
      rcases ih hmoved.holds with ⟨first, last, hreference, hlast, hagree⟩
      exact ⟨first, last, .cons .kernel hreference, hlast, fun la hla hne ↦
        hagree la hla (hmoved.touched la hla hne)⟩

/-- No page was touched yet. -/
structure Swap.Untouched (s : FaultState) : Prop where
  swappable : s.Swappable
  nodup : s.pmm.free.Nodup
  pte : ∀ la, s.mm.pgdir.pte la = 0
  queue : s.praListHead = []

theorem Swap.Untouched.holds (h : s.Untouched) (mem : UserMemory) : s.Holds mem where
  swappable := h.swappable
  nodup := h.nodup
  present := fun la _ _ hframe ↦ absurd (h.pte la) (ne_zero_of_present hframe.1)
  swapped := fun la _ hne _ ↦ absurd (h.pte la) hne
  distinct := fun la _ _ _ _ hframe _ ↦ absurd (h.pte la) (ne_zero_of_present hframe.1)
  queue := h.queue ▸ List.nodup_nil
  queued := fun page hpage ↦ by
    rw [h.queue] at hpage
    cases hpage

/-- The entry of a page that is not in memory leads to the slot with the content of the page. -/
def Swap.SlotOf (s : FaultState) (la : ℕ) (content : ℕ → UInt8) : Prop :=
  s.mm.pgdir.pte la = swapEntry la ∧
    ∃ offset, s.swapOffset (s.mm.pgdir.pte la) = .ok offset ∧ s.slot offset = content

/-- Swapping is transparent: each run shows the user what a machine without swapping shows. In the
state that it ends in, each page that is not in memory has its content in the slot that its entry
leads to, and each page in the queue can be swapped out. -/
theorem swap_transparent (s s' : FaultState) (labels : List MemoryEvent) (h : s.Untouched)
    (hruns : Runs SwapEvent s labels s') :
    (∃ first last, Runs ReferenceEvent first labels last ∧ ∀ la < USERTOP,
      s'.mm.pgdir.pte la ≠ 0 → ¬Present (s'.mm.pgdir.pte la) → s'.SlotOf la (last (la / PGSIZE))) ∧
    (∀ page ∈ s'.praListHead, s'.Evictable page) ∧
    (∀ la lb, swapEntry la = swapEntry lb → la / PGSIZE = lb / PGSIZE) ∧
    ∀ la, ¬Present (swapEntry la) := by
  rcases exists_reference hruns (h.holds fun _ _ ↦ 0) with ⟨first, last, hreference, hlast, -⟩
  refine ⟨⟨first, last, hreference, fun la hla hne hnot ↦ ?_⟩, fun page hpage ↦ hlast.evictable hpage,
    fun _ _ ↦ swapEntry_injective, not_present_swapEntry⟩
  rcases hlast.swapped la hla hne hnot with ⟨hentry, hslot, hcontent⟩
  refine ⟨hentry, la / PGSIZE + 1, ?_, hcontent⟩
  rw [hentry]
  exact swapOffset_swapEntry hslot

/-! ### A page that goes out and comes back -/

/-- One page, and three free frames for it and its tables. -/
def onePage : FaultState where
  pmm := ⟨[1, 2, 3], fun _ ↦ 0⟩
  bytes _ _ := 0
  swapInitOk := true
  maxSwapOffset := 1024
  slot _ _ := 0
  reads := []
  praListHead := []
  praVaddr _ := 0
  mm := ⟨[⟨0x200000, 0x201000, VM_READ ||| VM_WRITE⟩], none, Table.clear 9 none, 1, true⟩
  checkMm := true

/-- The page is touched. -/
def touchedPage : FaultState :=
  ((doPgfault swapManagerFifo 2 onePage 0xf 0x200000).toOption.map Prod.snd).getD onePage

/-- Its first byte is stored to. -/
def storedPage : FaultState :=
  { touchedPage with
    bytes := Function.update touchedPage.bytes 3 (Function.update (touchedPage.bytes 3) 0 7) }

/-- It is in its slot. -/
def swappedPage : FaultState :=
  ((storedPage.swapOut framePoolManager swapManagerFifo true 1).toOption.map Prod.snd).getD onePage

/-- It is in a frame again. -/
def returnedPage : FaultState :=
  ((doPgfault swapManagerFifo 2 swappedPage 0xd 0x200000).toOption.map Prod.snd).getD onePage

theorem untouched_onePage : onePage.Untouched := by
  have hvma : ∀ vma ∈ onePage.mm.mmapList, vma = ⟨0x200000, 0x201000, VM_READ ||| VM_WRITE⟩ :=
    fun _ hvma ↦ List.mem_singleton.mp hvma
  refine ⟨⟨⟨fun vma hin ↦ ?_, List.pairwise_singleton _ _, nofun⟩, fun vma hin ↦ ?_,
    fun vma hin addr hcontains ↦ ?_, rfl, rfl⟩, by decide, fun la ↦ rfl, rfl⟩
  · rw [hvma vma hin]
    exact ⟨by decide, by decide, by decide⟩
  · rw [hvma vma hin]
    exact ⟨show _ ≠ _ by decide, show _ ≠ _ by decide⟩
  · rw [hvma vma hin] at hcontains
    have hhigh := hcontains.2
    have hmax : onePage.maxSwapOffset = 1024 := rfl
    rw [hmax]
    unfold PGSIZE
    dsimp only at hhigh
    omega

theorem runs_onePage : Runs SwapEvent onePage
    [.kernel, .store 0x200000 7, .kernel, .kernel, .load 0x200000 7] returnedPage := by
  have hmissing : ∀ frame, ¬onePage.Accesses .store 0x200000 frame := fun frame h ↦
    absurd h.frame.1 (by decide)
  have hstore : touchedPage.Accesses .store 0x200000 3 := ⟨by decide, ⟨by decide, rfl⟩, show _ ≠ _ by decide⟩
  have hout : ∀ frame, ¬swappedPage.Accesses .load 0x200000 frame := fun frame h ↦
    absurd h.frame.1 (by decide)
  have hload : returnedPage.Accesses .load 0x200000 3 := ⟨by decide, ⟨by decide, rfl⟩, show _ ≠ _ by decide⟩
  have hfirst : doPgfault swapManagerFifo 2 onePage 0xf 0x200000 = .ok (0, touchedPage) := rfl
  have hswap : storedPage.swapOut framePoolManager swapManagerFifo true 1 = .ok (1, swappedPage) :=
    rfl
  have hback : doPgfault swapManagerFifo 2 swappedPage 0xd 0x200000 = .ok (0, returnedPage) := rfl
  have hvalue : returnedPage.bytes 3 (0x200000 % PGSIZE) = 7 := rfl
  have hlast : SwapEvent returnedPage (.load 0x200000 7) returnedPage := hvalue ▸ .load hload
  exact .cons (.fault lawful_swapManagerFifo (by simp) hmissing hfirst) (.cons (.store hstore)
    (.cons (.swapOut lawful_swapManagerFifo hswap)
      (.cons (.fault lawful_swapManagerFifo (by simp) hout hback) (.cons hlast .nil))))

/-- The user stores a byte, the page goes out and comes back, and the user loads the byte. -/
theorem swap_transparent_onePage :
    (∃ first last, Runs ReferenceEvent first
        [.kernel, .store 0x200000 7, .kernel, .kernel, .load 0x200000 7] last ∧ ∀ la < USERTOP,
      returnedPage.mm.pgdir.pte la ≠ 0 → ¬Present (returnedPage.mm.pgdir.pte la) →
        returnedPage.SlotOf la (last (la / PGSIZE))) ∧
    (∀ page ∈ returnedPage.praListHead, returnedPage.Evictable page) ∧
    (∀ la lb, swapEntry la = swapEntry lb → la / PGSIZE = lb / PGSIZE) ∧
    ∀ la, ¬Present (swapEntry la) :=
  swap_transparent onePage returnedPage _ untouched_onePage runs_onePage

end Ucore.Mm
