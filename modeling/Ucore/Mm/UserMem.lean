import Ucore.Mm.Vma

/-!
# Access to user memory

`user_mem_check` of `kern/mm/vmm.c`, which goes from area to area, and what it accepts: bytes in
areas with the right flags, and for a write not in the lowest page of a stack.
-/

namespace Ucore.Mm

open Library

def KERNBASE : ℕ := 0xFFFFFFFFC0200000
def KMEMSIZE : ℕ := 0x7E00000
def KERNTOP : ℕ := KERNBASE + KMEMSIZE

/-- `KERN_ACCESS`. -/
def KernAccess (start stop : ℕ) : Prop := KERNBASE ≤ start ∧ start < stop ∧ stop ≤ KERNTOP

instance (start stop : ℕ) : Decidable (KernAccess start stop) :=
  inferInstanceAs (Decidable (_ ∧ _ ∧ _))

/-- The flag that an access needs. -/
def accessFlag (write : Bool) : ℕ := if write then VM_WRITE else VM_READ

/-- The loop of `user_mem_check`. -/
def MmStruct.checkLoop : ℕ → MmStruct → ℕ → ℕ → Bool → Outcome (Bool × MmStruct)
  | 0, _, _, _, _ => .error .fuel
  | fuel + 1, mm, start, stop, write =>
    if start < stop then
      match mm.findVma start with
      | (none, mm) => .ok (false, mm)
      | (some vma, mm) =>
        if start < vma.vmStart then .ok (false, mm)
        else if vma.vmFlags &&& accessFlag write = 0 then .ok (false, mm)
        else if write ∧ vma.vmFlags &&& VM_STACK ≠ 0 ∧ start < vma.vmStart + PGSIZE then
          .ok (false, mm)
        else MmStruct.checkLoop fuel mm vma.vmEnd stop write
    else .ok (true, mm)

/-- `user_mem_check`. A kernel thread has no address space. -/
def userMemCheck (fuel : ℕ) (mm : Option MmStruct) (addr len : ℕ) (write : Bool) :
    Outcome (Bool × Option MmStruct) :=
  let stop := uint64 (addr + len)
  match mm with
  | some mm =>
    if UserAccess addr stop then do
      let (accepted, mm) ← mm.checkLoop fuel addr stop write
      return (accepted, some mm)
    else .ok (false, some mm)
  | none => .ok (KernAccess addr stop, none)

/-! ## Bytes that may be accessed -/

/-- The areas lie inside the user half, sorted and apart. -/
structure OrderedAreas (areas : List Vma) : Prop where
  access : ∀ vma ∈ areas, UserAccess vma.vmStart vma.vmEnd
  sorted : areas.Pairwise fun first second ↦ first.vmEnd ≤ second.vmStart

/-- The area has the flag for the access, and the byte is not in the lowest page of a stack that
would be written. -/
structure Vma.AllowsByte (vma : Vma) (write : Bool) (byte : ℕ) : Prop where
  contains : vma.Contains byte
  flag : vma.vmFlags &&& accessFlag write ≠ 0
  guard : write → vma.vmFlags &&& VM_STACK ≠ 0 → vma.vmStart + PGSIZE ≤ byte

def Accessible (areas : List Vma) (write : Bool) (byte : ℕ) : Prop :=
  ∃ vma ∈ areas, vma.AllowsByte write byte

variable {areas : List Vma} {vma other : Vma} {mm : MmStruct} {cache : Option Vma}
  {start stop addr len byte : ℕ} {write : Bool}

theorem MmStruct.WellFormed.orderedAreas (h : mm.WellFormed) : OrderedAreas mm.mmapList :=
  ⟨fun vma hvma ↦ (h.whole vma hvma).access, h.sorted⟩

theorem OrderedAreas.unique (h : OrderedAreas areas) (hvma : vma ∈ areas) (hother : other ∈ areas)
    (hcontains : vma.Contains byte) (hagain : other.Contains byte) : vma = other := by
  have hsymm : Std.Symm fun first second : Vma ↦
      first.vmEnd ≤ second.vmStart ∨ second.vmEnd ≤ first.vmStart := ⟨fun _ _ ↦ Or.symm⟩
  have hpairs := h.sorted.imp (S := fun first second : Vma ↦
    first.vmEnd ≤ second.vmStart ∨ second.vmEnd ≤ first.vmStart) Or.inl
  by_contra hne
  rcases hpairs.forall hvma hother hne with hle | hle
  · exact absurd (hcontains.2.trans_le hle) (not_lt.mpr hagain.1)
  · exact absurd (hagain.2.trans_le hle) (not_lt.mpr hcontains.1)

/-- The area that contains a byte decides about it. -/
theorem OrderedAreas.accessible_iff (h : OrderedAreas areas) (hvma : vma ∈ areas)
    (hcontains : vma.Contains byte) : Accessible areas write byte ↔ vma.AllowsByte write byte := by
  constructor
  · rintro ⟨other, hother, hallows⟩
    rwa [h.unique hvma hother hcontains hallows.contains]
  · exact fun hallows ↦ ⟨vma, hvma, hallows⟩

theorem OrderedAreas.access_of_accessible (h : OrderedAreas areas)
    (hbyte : Accessible areas write byte) : USERBASE ≤ byte ∧ byte < USERTOP := by
  rcases hbyte with ⟨vma, hvma, hallows⟩
  rcases h.access vma hvma with ⟨hbase, -, htop⟩
  exact ⟨hbase.trans hallows.contains.1, hallows.contains.2.trans_le htop⟩

/-- The cache is empty or leads to one of the areas. -/
def MmStruct.Cached (mm : MmStruct) : Prop := ∀ vma ∈ mm.mmapCache, vma ∈ mm.mmapList

/-- The same address space but for the cache. -/
structure SameButCache (mm mm' : MmStruct) : Prop where
  eq : mm' = { mm with mmapCache := mm'.mmapCache }
  cached : mm'.Cached

theorem SameButCache.refl (h : mm.Cached) : SameButCache mm mm := ⟨rfl, h⟩

theorem SameButCache.mmapList {mm mm' : MmStruct} (h : SameButCache mm mm') :
    mm'.mmapList = mm.mmapList := by
  rw [h.eq]

theorem SameButCache.trans {mm mm' mm'' : MmStruct} (h : SameButCache mm mm')
    (h' : SameButCache mm' mm'') : SameButCache mm mm'' := by
  refine ⟨?_, h'.cached⟩
  rw [h'.eq, h.eq]

/-- `find_vma` answers with the area that contains the address, if there is one. -/
theorem findVma_search (mm : MmStruct) (h : mm.Cached) (addr : ℕ) :
    SameButCache mm (mm.findVma addr).2 ∧
      ((∃ vma ∈ mm.mmapList, vma.Contains addr ∧ (mm.findVma addr).1 = some vma) ∨
        (∀ vma ∈ mm.mmapList, ¬vma.Contains addr) ∧ (mm.findVma addr).1 = none) := by
  rcases findVma_cases mm addr with ⟨cached, hcache, hcontains, heq⟩ | ⟨-, heq⟩
  · rw [heq]
    exact ⟨SameButCache.refl h, Or.inl ⟨cached, h cached hcache, hcontains, rfl⟩⟩
  · rcases search_cases mm addr with ⟨found, hmem, hcontains, hsearch⟩ | ⟨hnone, hsearch⟩
    · rw [heq, hsearch]
      refine ⟨⟨rfl, fun vma hvma ↦ ?_⟩, Or.inl ⟨found, hmem, hcontains, rfl⟩⟩
      exact Option.some.inj hvma ▸ hmem
    · rw [heq, hsearch]
      exact ⟨SameButCache.refl h, Or.inr ⟨hnone, rfl⟩⟩

/-! ## The loop -/

/-- The loop goes on behind the area that it has found. -/
theorem checkLoop_returns (harea : OrderedAreas areas) {mm : MmStruct} (hlist : mm.mmapList = areas)
    (hcached : mm.Cached) (start stop : ℕ) (write : Bool) : ∃ (accepted : Bool) (mm' : MmStruct),
      Returns (fun fuel ↦ mm.checkLoop fuel start stop write) (accepted, mm') ∧
      SameButCache mm mm' ∧
      (accepted ↔ ∀ byte, start ≤ byte → byte < stop → Accessible areas write byte) := by
  -- induction on the bytes left
  induction hleft : stop - start using Nat.strongRecOn generalizing mm start with
  | _ left ih =>
    by_cases hstart : start < stop
    · rcases findVma_search mm hcached start with ⟨hsame, hfound⟩
      have hunfold : ∀ fuel, mm.checkLoop (fuel + 1) start stop write =
          match mm.findVma start with
          | (none, mm) => .ok (false, mm)
          | (some vma, mm) =>
            if start < vma.vmStart then .ok (false, mm)
            else if vma.vmFlags &&& accessFlag write = 0 then .ok (false, mm)
            else if write ∧ vma.vmFlags &&& VM_STACK ≠ 0 ∧ start < vma.vmStart + PGSIZE then
              .ok (false, mm)
            else MmStruct.checkLoop fuel mm vma.vmEnd stop write := by
        intro fuel
        rw [MmStruct.checkLoop, if_pos hstart]
      generalize mm.findVma start = result at hsame hfound hunfold
      rcases result with ⟨found, searched⟩
      dsimp only at hsame hfound hunfold
      have hrefused : (∀ fuel, mm.checkLoop (fuel + 1) start stop write = .ok (false, searched)) →
          ¬Accessible areas write start → ∃ (accepted : Bool) (mm' : MmStruct),
            Returns (fun fuel ↦ mm.checkLoop fuel start stop write) (accepted, mm') ∧
            SameButCache mm mm' ∧
            (accepted ↔ ∀ byte, start ≤ byte → byte < stop → Accessible areas write byte) := by
        intro hcall hnot
        refine ⟨false, searched, .of_succ (.of_eq hcall), hsame, ?_⟩
        exact iff_of_false Bool.false_ne_true fun hall ↦ hnot (hall start le_rfl hstart)
      rcases hfound with ⟨vma, hvma, hcontains, rfl⟩ | ⟨hnone, rfl⟩
      · dsimp only at hunfold
        rw [hlist] at hvma
        have hiff : Accessible areas write start ↔ vma.AllowsByte write start :=
          harea.accessible_iff hvma hcontains
        have hlow : ¬start < vma.vmStart := not_lt.mpr hcontains.1
        by_cases hflag : vma.vmFlags &&& accessFlag write = 0
        · refine hrefused (fun fuel ↦ ?_) fun h ↦ (hiff.mp h).flag hflag
          rw [hunfold, if_neg hlow, if_pos hflag]
        · by_cases hguard : write ∧ vma.vmFlags &&& VM_STACK ≠ 0 ∧ start < vma.vmStart + PGSIZE
          · refine hrefused (fun fuel ↦ ?_) fun h ↦ ?_
            · rw [hunfold, if_neg hlow, if_neg hflag, if_pos hguard]
            · exact absurd ((hiff.mp h).guard hguard.1 hguard.2.1) (not_le.mpr hguard.2.2)
          · have hlower : stop - vma.vmEnd < left := by
              have hlt := hcontains.2
              omega
            rcases ih _ hlower (hsame.mmapList.trans hlist) hsame.cached vma.vmEnd rfl
              with ⟨accepted, mm', hreturns, hrest, haccepted⟩
            refine ⟨accepted, mm', .of_succ (.congr (fun fuel ↦ ?_) hreturns), hsame.trans hrest,
              haccepted.trans ⟨fun hall byte hle hlt ↦ ?_, fun hall byte hle hlt ↦ ?_⟩⟩
            · rw [hunfold, if_neg hlow, if_neg hflag, if_neg hguard]
            · -- the bytes of this area are as good as the first one
              by_cases hbyte : byte < vma.vmEnd
              · refine ⟨vma, hvma, ⟨hcontains.1.trans hle, hbyte⟩, hflag, fun hwrite hstack ↦ ?_⟩
                by_contra hbelow
                exact hguard ⟨hwrite, hstack, hle.trans_lt (not_le.mp hbelow)⟩
              · exact hall byte (not_lt.mp hbyte) hlt
            · exact hall byte (hcontains.2.le.trans hle) hlt
      · refine hrefused (fun fuel ↦ hunfold fuel) ?_
        rintro ⟨vma, hvma, hallows⟩
        exact hnone vma (hlist ▸ hvma) hallows.contains
    · refine ⟨true, mm, .of_succ (.of_eq fun fuel ↦ ?_), SameButCache.refl hcached, ?_⟩
      · rw [MmStruct.checkLoop, if_neg hstart]
      · exact iff_of_true rfl fun byte hle hlt ↦ absurd (hle.trans_lt hlt) hstart

/-! ## The whole check -/

theorem uint64_add_of_access (haddr : addr < 2 ^ 64) (hlen : len < 2 ^ 64)
    (h : UserAccess addr (uint64 (addr + len))) : uint64 (addr + len) = addr + len := by
  rcases h with ⟨-, hlt, htop⟩
  unfold uint64 USERTOP at *
  omega

/-- A range of bytes that are all accessible is one of the user half. -/
theorem OrderedAreas.userAccess (h : OrderedAreas areas) (hpos : 0 < len)
    (hall : ∀ byte, addr ≤ byte → byte < addr + len → Accessible areas write byte) :
    UserAccess addr (uint64 (addr + len)) := by
  have hfirst := h.access_of_accessible (hall addr le_rfl (Nat.lt_add_of_pos_right hpos))
  have hlast := h.access_of_accessible (hall (addr + len - 1) (by omega) (by omega))
  unfold UserAccess uint64
  unfold USERTOP at *
  omega

theorem userMemCheck_returns (h : OrderedAreas areas) (haddr : addr < 2 ^ 64) (hpos : 0 < len)
    (hlen : len < 2 ^ 64) {mm : MmStruct} (hlist : mm.mmapList = areas) (hcached : mm.Cached)
    (write : Bool) : ∃ (accepted : Bool) (mm' : MmStruct),
      Returns (fun fuel ↦ userMemCheck fuel (some mm) addr len write) (accepted, some mm') ∧
      SameButCache mm mm' ∧
      (accepted ↔ ∀ byte, addr ≤ byte → byte < addr + len → Accessible areas write byte) := by
  by_cases haccess : UserAccess addr (uint64 (addr + len))
  · rcases checkLoop_returns h hlist hcached addr (uint64 (addr + len)) write
      with ⟨accepted, mm', hreturns, hsame, hiff⟩
    have hboth : Returns (fun fuel ↦ mm.checkLoop fuel addr (uint64 (addr + len)) write >>=
        fun result ↦ .ok (result.1, some result.2)) (accepted, some mm') :=
      hreturns.bind (.of_eq fun _ ↦ rfl)
    refine ⟨accepted, mm', .congr (fun fuel ↦ ?_) hboth, hsame, ?_⟩
    · rw [userMemCheck]
      exact if_pos haccess
    · rw [uint64_add_of_access haddr hlen haccess] at hiff
      exact hiff
  · refine ⟨false, mm, .of_eq fun fuel ↦ ?_, SameButCache.refl hcached, ?_⟩
    · rw [userMemCheck]
      exact if_neg haccess
    · exact iff_of_false Bool.false_ne_true fun hall ↦ haccess (h.userAccess hpos hall)

/-- `user_mem_check` accepts a range exactly when each byte of it may be accessed, whatever the
cache leads to. -/
theorem userMemCheck_iff (areas : List Vma) (h : OrderedAreas areas) (addr len : ℕ)
    (haddr : addr < 2 ^ 64) (hpos : 0 < len) (hlen : len < 2 ^ 64) (write : Bool) :
    ∃ accepted : Bool,
      (accepted ↔ ∀ byte, addr ≤ byte → byte < addr + len → Accessible areas write byte) ∧
      ∀ mm : MmStruct, mm.mmapList = areas → mm.Cached → ∃ mm', SameButCache mm mm' ∧
        Returns (fun fuel ↦ userMemCheck fuel (some mm) addr len write) (accepted, some mm') := by
  by_cases hall : ∀ byte, addr ≤ byte → byte < addr + len → Accessible areas write byte
  · refine ⟨true, iff_of_true rfl hall, fun mm hlist hcached ↦ ?_⟩
    rcases userMemCheck_returns h haddr hpos hlen hlist hcached write
      with ⟨accepted, mm', hreturns, hsame, hiff⟩
    rw [hiff.mpr hall] at hreturns
    exact ⟨mm', hsame, hreturns⟩
  · refine ⟨false, iff_of_false Bool.false_ne_true hall, fun mm hlist hcached ↦ ?_⟩
    rcases userMemCheck_returns h haddr hpos hlen hlist hcached write
      with ⟨accepted, mm', hreturns, hsame, hiff⟩
    rw [Bool.eq_false_iff.mpr fun htrue ↦ hall (hiff.mp htrue)] at hreturns
    exact ⟨mm', hsame, hreturns⟩

/-- Two areas that touch, the second one of them a stack. -/
def touchingAreas : List Vma :=
  [⟨0x200000, 0x201000, VM_READ ||| VM_WRITE⟩,
    ⟨0x201000, 0x204000, VM_READ ||| VM_WRITE ||| VM_STACK⟩]

theorem userMemCheck_touchingAreas : OrderedAreas touchingAreas ∧ ∃ accepted : Bool,
    (accepted ↔ ∀ byte, 0x200ff0 ≤ byte → byte < 0x200ff0 + 32 →
      Accessible touchingAreas true byte) ∧
    ∀ mm : MmStruct, mm.mmapList = touchingAreas → mm.Cached → ∃ mm', SameButCache mm mm' ∧
      Returns (fun fuel ↦ userMemCheck fuel (some mm) 0x200ff0 32 true) (accepted, some mm') := by
  have hordered : OrderedAreas touchingAreas := ⟨by decide, by decide⟩
  exact ⟨hordered, userMemCheck_iff touchingAreas hordered 0x200ff0 32 (by decide) (by decide)
    (by decide) true⟩

end Ucore.Mm
