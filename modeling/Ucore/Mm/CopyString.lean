import Ucore.Mm.UserMem

/-!
# Copying a string from user memory

`copy_string` of `kern/mm/vmm.c` with `strnlen` and `memcpy`. A read of a byte that is not there
ends the model, so that a call that returns has only read bytes that are.
-/

namespace Ucore.Mm

open Library

/-- The bytes at the addresses of a process. -/
abbrev UserBytes := ℕ → Option UInt8

def UserBytes.load (mem : UserBytes) (addr : ℕ) : Outcome UInt8 :=
  match mem addr with
  | some byte => .ok byte
  | none => .error .panic

/-- `strnlen`. -/
def strnlen (mem : UserBytes) : ℕ → ℕ → Outcome ℕ
  | _, 0 => .ok 0
  | s, len + 1 => do
    let byte ← mem.load s
    if byte ≠ 0 then return (← strnlen mem (s + 1) len) + 1
    else return 0

/-- `memcpy` into a buffer of the kernel. -/
def memcpy (mem : UserBytes) (buf : ℕ → UInt8) (dst src : ℕ) : ℕ → Outcome (ℕ → UInt8)
  | 0 => .ok buf
  | n + 1 => do
    let buf ← memcpy mem buf dst src n
    let byte ← mem.load (src + n)
    return Function.update buf (dst + n) byte

/-- The loop of `copy_string`. -/
def copyStringLoop (mem : UserBytes) : ℕ → Option MmStruct → (ℕ → UInt8) → ℕ → ℕ → ℕ → ℕ →
    Outcome (Bool × (ℕ → UInt8) × Option MmStruct)
  | 0, _, _, _, _, _, _ => .error .fuel
  | fuel + 1, mm, buf, dst, src, maxn, part => do
    let part := if maxn < part then maxn else part
    let (accepted, mm) ← userMemCheck fuel mm src part false
    if accepted then
      let alen ← strnlen mem src part
      if alen < part then
        let buf ← memcpy mem buf dst src (alen + 1)
        return (true, buf, mm)
      else if part = maxn then return (false, buf, mm)
      else
        let buf ← memcpy mem buf dst src part
        copyStringLoop mem fuel mm buf (dst + part) (uint64 (src + part)) (maxn - part) PGSIZE
    else return (false, buf, mm)

/-- `copy_string`. The first part ends with the page of `src`. -/
def copyString (mem : UserBytes) (fuel : ℕ) (mm : Option MmStruct) (buf : ℕ → UInt8)
    (src maxn : ℕ) : Outcome (Bool × (ℕ → UInt8) × Option MmStruct) :=
  copyStringLoop mem fuel mm buf 0 src maxn
    (uint64Sub (roundDown (uint64 (src + PGSIZE)) PGSIZE) src)

/-! ## Strings and buffers -/

section Buffers

variable {mem : UserBytes} {buf : ℕ → UInt8} {s dst src len n : ℕ}

theorem load_of_isSome (h : (mem s).isSome) : ∃ byte, mem s = some byte ∧ mem.load s = .ok byte := by
  rcases Option.isSome_iff_exists.mp h with ⟨byte, hbyte⟩
  refine ⟨byte, hbyte, ?_⟩
  rw [UserBytes.load, hbyte]

/-- The bytes before the first zero, or as many as may be looked at. -/
theorem strnlen_ok (h : ∀ i < len, (mem (s + i)).isSome) : ∃ n ≤ len, strnlen mem s len = .ok n ∧
    (∀ i < n, mem (s + i) ≠ some 0) ∧ (n < len → mem (s + n) = some 0) := by
  induction len generalizing s with
  | zero => exact ⟨0, le_rfl, rfl, nofun, nofun⟩
  | succ len ih =>
    rcases load_of_isSome (h 0 (Nat.succ_pos len)) with ⟨byte, hbyte, hload⟩
    rw [Nat.add_zero] at hbyte hload
    by_cases hzero : byte = 0
    · refine ⟨0, Nat.zero_le _, ?_, nofun, fun _ ↦ ?_⟩
      · rw [strnlen, hload, Outcome.ok_bind, if_neg (not_not.mpr hzero)]
        rfl
      · rw [Nat.add_zero, hbyte, hzero]
    · have hrest : ∀ i < len, (mem (s + 1 + i)).isSome := by
        intro i hi
        rw [add_assoc, Nat.add_comm 1 i]
        exact h (i + 1) (Nat.succ_lt_succ hi)
      rcases ih hrest with ⟨n, hn, hcall, hbefore, hend⟩
      refine ⟨n + 1, Nat.succ_le_succ hn, ?_, fun i hi ↦ ?_, fun hlt ↦ ?_⟩
      · rw [strnlen, hload, Outcome.ok_bind, if_pos hzero, hcall, Outcome.ok_bind]
        rfl
      · cases i with
        | zero =>
          rw [Nat.add_zero, hbyte]
          exact fun heq ↦ hzero (Option.some.inj heq)
        | succ i =>
          rw [Nat.add_comm i 1, ← add_assoc]
          exact hbefore i (Nat.lt_of_succ_lt_succ hi)
      · rw [Nat.add_comm n 1, ← add_assoc]
        exact hend (Nat.lt_of_succ_lt_succ hlt)

theorem memcpy_ok (buf : ℕ → UInt8) (dst : ℕ) (h : ∀ i < n, (mem (src + i)).isSome) :
    ∃ buf', memcpy mem buf dst src n = .ok buf' ∧
      (∀ i < n, some (buf' (dst + i)) = mem (src + i)) ∧
      ∀ j, j < dst ∨ dst + n ≤ j → buf' j = buf j := by
  induction n with
  | zero => exact ⟨buf, rfl, nofun, fun _ _ ↦ rfl⟩
  | succ n ih =>
    rcases ih fun i hi ↦ h i (hi.trans (Nat.lt_succ_self n)) with ⟨middle, hcall, hcopied, hother⟩
    rcases load_of_isSome (h n (Nat.lt_succ_self n)) with ⟨byte, hbyte, hload⟩
    refine ⟨Function.update middle (dst + n) byte, ?_, fun i hi ↦ ?_, fun j hj ↦ ?_⟩
    · rw [memcpy, hcall, Outcome.ok_bind, hload, Outcome.ok_bind]
      rfl
    · by_cases hlast : i = n
      · rw [hlast, Function.update_self, hbyte]
      · have hne : dst + i ≠ dst + n := fun heq ↦ hlast (Nat.add_left_cancel heq)
        rw [Function.update_of_ne hne]
        exact hcopied i (lt_of_le_of_ne (Nat.le_of_lt_succ hi) hlast)
    · have hne : j ≠ dst + n := by omega
      rw [Function.update_of_ne hne]
      exact hother j (by omega)

end Buffers

/-! ## What is copied -/

section Copies

variable {mem : UserBytes} {areas : List Vma} {buf buf' : ℕ → UInt8} {mm : MmStruct}
  {dst src maxn part k : ℕ} {accepted : Bool}

/-- The areas are sorted, apart and made of whole pages. -/
structure PagedAreas (areas : List Vma) : Prop extends OrderedAreas areas where
  start : ∀ vma ∈ areas, vma.vmStart % PGSIZE = 0
  stop : ∀ vma ∈ areas, vma.vmEnd % PGSIZE = 0

/-- All bytes of a page can be read, or none. -/
theorem PagedAreas.accessible_congr (h : PagedAreas areas) {byte other : ℕ}
    (hpage : byte / PGSIZE = other / PGSIZE) (hbyte : Accessible areas false byte) :
    Accessible areas false other := by
  rcases hbyte with ⟨vma, hvma, ⟨hle, hlt⟩, hflag, -⟩
  have hstart := h.start vma hvma
  have hstop := h.stop vma hvma
  refine ⟨vma, hvma, ⟨?_, ?_⟩, hflag, nofun⟩
  · unfold PGSIZE at *
    omega
  · unfold PGSIZE at *
    omega

/-- A string of `k` bytes and the zero after it, all of which can be read. -/
structure Terminated (mem : UserBytes) (areas : List Vma) (src k : ℕ) : Prop where
  nul : mem (src + k) = some 0
  before : ∀ i < k, mem (src + i) ≠ some 0
  readable : ∀ i ≤ k, Accessible areas false (src + i)

/-- The answer of `copy_string` and what it has left in the buffer. -/
structure Copied (mem : UserBytes) (areas : List Vma) (dst src maxn : ℕ) (buf buf' : ℕ → UInt8)
    (accepted : Bool) : Prop where
  accepted_iff : accepted ↔ ∃ k < maxn, Terminated mem areas src k
  copied : ∀ k < maxn, Terminated mem areas src k →
    (∀ i ≤ k, some (buf' (dst + i)) = mem (src + i)) ∧
      ∀ j, j < dst ∨ dst + k < j → buf' j = buf j
  bounded : ∀ j, j < dst ∨ dst + maxn ≤ j → buf' j = buf j

/-- Nothing was copied, and there is no such string. -/
theorem Copied.refused (h : ∀ k < maxn, ¬Terminated mem areas src k) :
    Copied mem areas dst src maxn buf buf false where
  accepted_iff := iff_of_false Bool.false_ne_true fun ⟨k, hk, hterminated⟩ ↦ h k hk hterminated
  copied := fun k hk hterminated ↦ absurd hterminated (h k hk)
  bounded := fun _ _ ↦ rfl

theorem Terminated.unique {other : ℕ} (h : Terminated mem areas src k)
    (h' : Terminated mem areas src other) : k = other := by
  rcases Nat.lt_trichotomy k other with hlt | heq | hlt
  · exact absurd h.nul (h'.before k hlt)
  · exact heq
  · exact absurd h'.nul (h.before other hlt)

/-- The string ends in this part. -/
theorem Copied.ended (hk : k < maxn) (hterminated : Terminated mem areas src k)
    (hcopied : ∀ i < k + 1, some (buf' (dst + i)) = mem (src + i))
    (hother : ∀ j, j < dst ∨ dst + (k + 1) ≤ j → buf' j = buf j) :
    Copied mem areas dst src maxn buf buf' true where
  accepted_iff := iff_of_true rfl ⟨k, hk, hterminated⟩
  copied := by
    intro other _ hagain
    cases hterminated.unique hagain
    exact ⟨fun i hi ↦ hcopied i (Nat.lt_succ_of_le hi), fun j hj ↦ hother j (by omega)⟩
  bounded := fun j hj ↦ hother j (by omega)

theorem terminated_add (hpart : ∀ i < part, mem (src + i) ≠ some 0)
    (hreadable : ∀ i < part, Accessible areas false (src + i)) :
    Terminated mem areas (src + part) k ↔ Terminated mem areas src (part + k) := by
  constructor
  · intro h
    refine ⟨by rw [← add_assoc]; exact h.nul, fun i hi ↦ ?_, fun i hi ↦ ?_⟩
    · by_cases hlt : i < part
      · exact hpart i hlt
      · have hrest := h.before (i - part) (by omega)
        rwa [add_assoc, Nat.add_sub_cancel' (not_lt.mp hlt)] at hrest
    · by_cases hlt : i < part
      · exact hreadable i hlt
      · have hrest := h.readable (i - part) (by omega)
        rwa [add_assoc, Nat.add_sub_cancel' (not_lt.mp hlt)] at hrest
  · intro h
    refine ⟨by rw [add_assoc]; exact h.nul, fun i hi ↦ ?_, fun i hi ↦ ?_⟩
    · rw [add_assoc]
      exact h.before (part + i) (by omega)
    · rw [add_assoc]
      exact h.readable (part + i) (by omega)

/-- The string goes on behind this part, which has been copied. -/
theorem Copied.more {middle : ℕ → UInt8} (hlt : part < maxn)
    (hpart : ∀ i < part, mem (src + i) ≠ some 0)
    (hreadable : ∀ i < part, Accessible areas false (src + i))
    (hcopied : ∀ i < part, some (middle (dst + i)) = mem (src + i))
    (hother : ∀ j, j < dst ∨ dst + part ≤ j → middle j = buf j)
    (h : Copied mem areas (dst + part) (src + part) (maxn - part) middle buf' accepted) :
    Copied mem areas dst src maxn buf buf' accepted := by
  -- the zero is not in this part
  have hsplit : ∀ k, Terminated mem areas src k →
      ∃ rest, k = part + rest ∧ Terminated mem areas (src + part) rest := by
    intro k hk
    have hle : part ≤ k := by
      by_contra hbelow
      exact hpart k (not_le.mp hbelow) hk.nul
    rcases Nat.exists_eq_add_of_le hle with ⟨rest, rfl⟩
    exact ⟨rest, rfl, (terminated_add hpart hreadable).mpr hk⟩
  refine ⟨h.accepted_iff.trans ⟨?_, ?_⟩, fun k hk hterminated ↦ ?_, fun j hj ↦ ?_⟩
  · rintro ⟨rest, hrest, hterminated⟩
    exact ⟨part + rest, by omega, (terminated_add hpart hreadable).mp hterminated⟩
  · rintro ⟨k, hk, hterminated⟩
    rcases hsplit k hterminated with ⟨rest, rfl, hrest⟩
    exact ⟨rest, by omega, hrest⟩
  · rcases hsplit k hterminated with ⟨rest, rfl, hrest⟩
    rcases h.copied rest (by omega) hrest with ⟨hbytes, hkept⟩
    refine ⟨fun i hi ↦ ?_, fun j hj ↦ ?_⟩
    · by_cases hfirst : i < part
      · rw [h.bounded (dst + i) (by omega)]
        exact hcopied i hfirst
      · have hlast := hbytes (i - part) (by omega)
        rwa [add_assoc, add_assoc, Nat.add_sub_cancel' (not_lt.mp hfirst)] at hlast
    · rw [hkept j (by omega)]
      exact hother j (by omega)
  · rw [h.bounded j (by omega)]
    exact hother j (by omega)

/-! ## The loop -/

/-- One round, for a part that ends with the page at the latest, and the rounds after it. -/
theorem copyStringLoop_returns (h : PagedAreas areas)
    (hmem : ∀ byte, Accessible areas false byte → (mem byte).isSome) (hlist : mm.mmapList = areas)
    (hcached : mm.Cached) (hsrc : src < 2 ^ 64) (hmaxn : maxn < 2 ^ 64) (hpos : 0 < part)
    (hpage : src % PGSIZE + part = PGSIZE) : ∃ (accepted : Bool) (buf' : ℕ → UInt8) (mm' : MmStruct),
      Returns (fun fuel ↦ copyStringLoop mem fuel (some mm) buf dst src maxn part)
        (accepted, buf', some mm') ∧
      SameButCache mm mm' ∧ Copied mem areas dst src maxn buf buf' accepted := by
  -- induction on the bytes that may still be written
  induction hleft : maxn using Nat.strongRecOn generalizing mm buf dst src maxn part with
  | _ left ih =>
    subst hleft
    -- the part that is looked at
    obtain ⟨size, hsize⟩ : ∃ size, size = if maxn < part then maxn else part := ⟨_, rfl⟩
    have hle : size ≤ maxn ∧ size ≤ part ∧ (size ≠ maxn → size = part) := by
      rw [hsize]
      split <;> omega
    have hunfold : ∀ fuel, copyStringLoop mem (fuel + 1) (some mm) buf dst src maxn part =
        userMemCheck fuel (some mm) src size false >>= fun result ↦
          if result.1 then do
            let alen ← strnlen mem src size
            if alen < size then
              let buf ← memcpy mem buf dst src (alen + 1)
              return (true, buf, result.2)
            else if size = maxn then return (false, buf, result.2)
            else
              let buf ← memcpy mem buf dst src size
              copyStringLoop mem fuel result.2 buf (dst + size) (uint64 (src + size)) (maxn - size)
                PGSIZE
          else return (false, buf, result.2) := by
      intro fuel
      rw [copyStringLoop, ← hsize]
    by_cases hzero : size = 0
    · -- there is no room at all
      have hnone : maxn = 0 := by omega
      have hrefused : ¬UserAccess src (uint64 (src + size)) := by
        rintro ⟨-, hlt, -⟩
        rw [hzero, Nat.add_zero, uint64_of_lt hsrc] at hlt
        exact lt_irrefl src hlt
      refine ⟨false, buf, mm, .of_succ (.of_eq fun fuel ↦ ?_), SameButCache.refl hcached,
        Copied.refused ?_⟩
      · rw [hunfold, userMemCheck]
        dsimp only
        rw [if_neg hrefused]
        rfl
      · rw [hnone]
        exact fun _ hlt ↦ absurd hlt (Nat.not_lt_zero _)
    · have hsizepos : 0 < size := Nat.pos_of_ne_zero hzero
      rcases userMemCheck_returns h.toOrderedAreas hsrc hsizepos (hle.1.trans_lt hmaxn) hlist hcached
        false with ⟨readable, after, hcheck, hsame, hiff⟩
      cases readable with
      | false =>
        refine ⟨false, buf, after, .of_succ (.congr hunfold (hcheck.bind (.of_eq fun _ ↦ rfl))),
          hsame, Copied.refused fun k _ hterminated ↦ ?_⟩
        -- the first byte of the page cannot be read
        refine absurd (hiff.mpr fun byte hlow hhigh ↦ ?_) Bool.false_ne_true
        refine h.accessible_congr ?_ (hterminated.readable 0 (Nat.zero_le k))
        unfold PGSIZE at *
        omega
      | true =>
        have hall := hiff.mp rfl
        have hread : ∀ i < size, Accessible areas false (src + i) :=
          fun i hi ↦ hall _ (Nat.le_add_right ..) (Nat.add_lt_add_left hi src)
        have hsome : ∀ i < size, (mem (src + i)).isSome := fun i hi ↦ hmem _ (hread i hi)
        rcases strnlen_ok hsome with ⟨alen, halen, hstrnlen, hbefore, hend⟩
        by_cases hlt : alen < size
        · rcases memcpy_ok (n := alen + 1) buf dst
            (fun i hi ↦ hsome i (Nat.lt_of_lt_of_le hi hlt)) with ⟨copy, hcopy, hbytes, hkept⟩
          refine ⟨true, copy, after, .of_succ (.congr hunfold (hcheck.bind (.of_eq fun _ ↦ ?_))),
            hsame, Copied.ended (hlt.trans_le hle.1) ⟨hend hlt, hbefore, fun i hi ↦ ?_⟩ hbytes hkept⟩
          · rw [if_pos rfl, hstrnlen, Outcome.ok_bind, if_pos hlt, hcopy, Outcome.ok_bind]
            rfl
          · exact hread i (hi.trans_lt hlt)
        · have hnonzero : ∀ i < size, mem (src + i) ≠ some 0 :=
            fun i hi ↦ hbefore i (hi.trans_le (not_lt.mp hlt))
          by_cases hlast : size = maxn
          · refine ⟨false, buf, after, .of_succ (.congr hunfold (hcheck.bind (.of_eq fun _ ↦ ?_))),
              hsame, Copied.refused fun k hk hterminated ↦ ?_⟩
            · rw [if_pos rfl, hstrnlen, Outcome.ok_bind, if_neg hlt, if_pos hlast]
              rfl
            · exact hnonzero k (hlast ▸ hk) hterminated.nul
          · have hmore : size < maxn := lt_of_le_of_ne hle.1 hlast
            have hpart : size = part := hle.2.2 hlast
            rcases memcpy_ok buf dst hsome with ⟨copy, hcopy, hbytes, hkept⟩
            have hend : src + size ≤ USERTOP := by
              have hbound := (h.access_of_accessible (hread (size - 1) (by omega))).2
              omega
            have hnext : uint64 (src + size) = src + size :=
              uint64_of_lt (hend.trans_lt (by decide))
            have hrounds : ∃ (accepted : Bool) (buf' : ℕ → UInt8) (mm' : MmStruct),
                Returns (fun fuel ↦ copyStringLoop mem fuel (some after) copy (dst + size)
                  (src + size) (maxn - size) PGSIZE) (accepted, buf', some mm') ∧
                SameButCache after mm' ∧
                Copied mem areas (dst + size) (src + size) (maxn - size) copy buf' accepted := by
              refine ih (maxn - size) (by omega) (hsame.mmapList.trans hlist) hsame.cached
                (hend.trans_lt (by decide)) (by omega) (by decide) ?_ rfl
              unfold PGSIZE at *
              omega
            rcases hrounds with ⟨accepted, buf', mm', hreturns, hrest, hcopied⟩
            refine ⟨accepted, buf', mm',
              .of_succ (.congr hunfold (hcheck.bind (.congr (fun fuel ↦ ?_) hreturns))),
              hsame.trans hrest, Copied.more hmore hnonzero hread hbytes hkept hcopied⟩
            rw [if_pos rfl, hstrnlen, Outcome.ok_bind, if_neg hlt, if_neg hlast, hcopy,
              Outcome.ok_bind, hnext]

/-- The first part ends with the page. -/
theorem firstPart (hsrc : src < 2 ^ 64) :
    src % PGSIZE + uint64Sub (roundDown (uint64 (src + PGSIZE)) PGSIZE) src = PGSIZE := by
  unfold uint64Sub uint64 roundDown PGSIZE
  omega

/-- What `user_mem_check` says of a range that is to be read. -/
def MmStruct.Readable (mm : MmStruct) (src len : ℕ) : Prop :=
  ∃ mm', Returns (fun fuel ↦ userMemCheck fuel (some mm) src len false) (true, some mm')

theorem readable_iff (h : PagedAreas mm.mmapList) (hcached : mm.Cached) (hsrc : src < 2 ^ 64)
    (hk : k + 1 < 2 ^ 64) :
    mm.Readable src (k + 1) ↔ ∀ i ≤ k, Accessible mm.mmapList false (src + i) := by
  rcases userMemCheck_returns h.toOrderedAreas hsrc (Nat.succ_pos k) hk rfl hcached false
    with ⟨accepted, mm', hreturns, -, hiff⟩
  have hbytes : (∀ byte, src ≤ byte → byte < src + (k + 1) → Accessible mm.mmapList false byte) ↔
      ∀ i ≤ k, Accessible mm.mmapList false (src + i) := by
    constructor
    · intro hall i hi
      exact hall _ (Nat.le_add_right ..) (Nat.add_lt_add_left (Nat.lt_succ_of_le hi) src)
    · intro hall byte hle hlt
      rcases Nat.exists_eq_add_of_le hle with ⟨i, rfl⟩
      exact hall i (Nat.le_of_lt_succ (Nat.lt_of_add_lt_add_left hlt))
  rw [← hbytes, ← hiff]
  constructor
  · rintro ⟨last, hlast⟩
    exact congrArg Prod.fst (hreturns.unique hlast)
  · intro haccepted
    rw [haccepted] at hreturns
    exact ⟨mm', hreturns⟩

/-- What a copy has to do with a string that ends at index `k`, if there is one. -/
structure StringCopied (mem : UserBytes) (mm : MmStruct) (src maxn : ℕ) (buf buf' : ℕ → UInt8)
    (accepted : Bool) : Prop where
  accepted_iff : accepted ↔ ∃ k < maxn,
    mem (src + k) = some 0 ∧ (∀ i < k, mem (src + i) ≠ some 0) ∧ mm.Readable src (k + 1)
  copied : accepted → ∀ k, mem (src + k) = some 0 → (∀ i < k, mem (src + i) ≠ some 0) →
    (∀ i ≤ k, some (buf' i) = mem (src + i)) ∧ ∀ j, k < j → buf' j = buf j
  bounded : ∀ j, maxn ≤ j → buf' j = buf j

/-- `copy_string` accepts exactly the strings that end within the limit and can be read up to
their end, copies these and nothing else, and reads no byte that is not there. -/
theorem copyString_copies (mem : UserBytes) (mm : MmStruct) (h : PagedAreas mm.mmapList)
    (hcached : mm.Cached)
    (hmem : ∀ byte, Accessible mm.mmapList false byte → (mem byte).isSome) (buf : ℕ → UInt8)
    (src maxn : ℕ) (hsrc : src < 2 ^ 64) (hmaxn : maxn < 2 ^ 64) :
    ∃ (accepted : Bool) (buf' : ℕ → UInt8) (mm' : MmStruct),
      Returns (fun fuel ↦ copyString mem fuel (some mm) buf src maxn) (accepted, buf', some mm') ∧
      StringCopied mem mm src maxn buf buf' accepted := by
  have hpart : 0 < uint64Sub (roundDown (uint64 (src + PGSIZE)) PGSIZE) src := by
    have hpage := firstPart hsrc
    unfold PGSIZE at *
    omega
  have hloop : ∃ (accepted : Bool) (buf' : ℕ → UInt8) (mm' : MmStruct),
      Returns (fun fuel ↦ copyString mem fuel (some mm) buf src maxn) (accepted, buf', some mm') ∧
      SameButCache mm mm' ∧ Copied mem mm.mmapList 0 src maxn buf buf' accepted :=
    copyStringLoop_returns h hmem rfl hcached hsrc hmaxn hpart (firstPart hsrc)
  rcases hloop with ⟨accepted, buf', mm', hreturns, -, hcopied⟩
  have hiff : ∀ k < maxn, Terminated mem mm.mmapList src k ↔
      mem (src + k) = some 0 ∧ (∀ i < k, mem (src + i) ≠ some 0) ∧ mm.Readable src (k + 1) := by
    intro k hk
    rw [readable_iff h hcached hsrc (Nat.lt_of_le_of_lt hk hmaxn)]
    exact ⟨fun hend ↦ ⟨hend.nul, hend.before, hend.readable⟩,
      fun ⟨hnul, hbefore, hreadable⟩ ↦ ⟨hnul, hbefore, hreadable⟩⟩
  refine ⟨accepted, buf', mm', hreturns, ?_, fun haccepted k hnul hbefore ↦ ?_, fun j hj ↦ ?_⟩
  · refine hcopied.accepted_iff.trans (exists_congr fun k ↦ and_congr_right fun hk ↦ hiff k hk)
  · rcases hcopied.accepted_iff.mp haccepted with ⟨other, hother, hterminated⟩
    have hsame : k = other := by
      rcases Nat.lt_trichotomy k other with hlt | heq | hlt
      · exact absurd hnul (hterminated.before k hlt)
      · exact heq
      · exact absurd hterminated.nul (hbefore other hlt)
    subst hsame
    rcases hcopied.copied k hother hterminated with ⟨hbytes, hkept⟩
    refine ⟨fun i hi ↦ ?_, fun j hj ↦ hkept j (Or.inr (by omega))⟩
    rw [← hbytes i hi, Nat.zero_add]
  · exact hcopied.bounded j (Or.inr (by omega))

end Copies

/-- One page that can be read. -/
def onePageMm : MmStruct := ⟨[⟨0x200000, 0x201000, VM_READ⟩], none, Table.clear 0 none, 1, false⟩

/-- A page of zeros. -/
def zeroPage : UserBytes := fun addr ↦ if 0x200000 ≤ addr ∧ addr < 0x201000 then some 0 else none

theorem copyString_zeroPage :
    ∃ (accepted : Bool) (buf' : ℕ → UInt8) (mm' : MmStruct),
      Returns (fun fuel ↦ copyString zeroPage fuel (some onePageMm) (fun _ ↦ 1) 0x200ff0 32)
        (accepted, buf', some mm') ∧
      StringCopied zeroPage onePageMm 0x200ff0 32 (fun _ ↦ 1) buf' accepted := by
  refine copyString_copies zeroPage onePageMm ⟨⟨by decide, by decide⟩, by decide, by decide⟩ nofun
    ?_ (fun _ ↦ 1) 0x200ff0 32 (by decide) (by decide)
  rintro byte ⟨vma, hvma, hcontains, -, -⟩
  rw [List.mem_singleton.mp hvma] at hcontains
  have hpage : 0x200000 ≤ byte ∧ byte < 0x201000 := hcontains
  rw [zeroPage, if_pos hpage]
  rfl

end Ucore.Mm
