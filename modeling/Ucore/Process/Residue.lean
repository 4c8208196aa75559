import Ucore.Mm.Residue
import Ucore.Process.ExecArgs
import Ucore.Process.LoadIcode

/-!
# What a new program can read of the past

All of `load_icode` that writes to the new address space, and the page faults of the program after
it. Pages come as they are: what is neither copied from the file nor cleared, nor stored as an
argument, is what the frame was used for before. Nothing else of it gets into the address space.
-/

namespace Ucore.Process

open Library Mm

/-! ## The stack and the arguments -/

/-- The first pages below the top of the stack, each of which is asserted to be there. -/
def Loading.stackPages (s : Loading) : ℕ → Outcome Loading
  | 0 => .ok s
  | count + 1 => do
    let s ← s.stackPages count
    let (page, memory, pgdir) ←
      pgdirAllocPage s.memory s.mm.pgdir (USTACKTOP - (count + 1) * PGSIZE) PTE_USER
    Outcome.require page.isSome
    return { s with memory, mm := { s.mm with pgdir } }

/-- The area for the stack, and four pages of it. -/
def Loading.mapStack (s : Loading) (kmalloc : Bool) : Outcome (ℤ × Loading) := do
  let (ret, mm) ← s.mm.mmMap kmalloc (USTACKTOP - USTACKSIZE) USTACKSIZE
    (VM_READ ||| VM_WRITE ||| VM_STACK)
  if ret ≠ 0 then return (ret, { s with mm })
  let s ← Loading.stackPages { s with mm } 4
  return (0, s)

/-- The stores of `strcpy`. -/
def strcpyStores : ℕ → ℕ → (ℕ → UInt8) → Outcome (List (ℕ × UInt8))
  | 0, _, _ => .error .fuel
  | fuel + 1, dst, src =>
    if src 0 ≠ 0 then do
      let stores ← strcpyStores fuel (dst + 1) fun index ↦ src (index + 1)
      return (dst, src 0) :: stores
    else return [(dst, src 0)]

def bytesStores (addr : ℕ) (bytes : ℕ → UInt8) (size : ℕ) : List (ℕ × UInt8) :=
  (List.range size).map fun index ↦ (addr + index, bytes index)

/-- The stores of the loop that copies the strings. -/
def copyArgsStores (fuel : ℕ) (kargv : ℕ → ℕ → UInt8) (stacktop uargv : ℕ) :
    ℕ → Outcome (List (ℕ × UInt8))
  | 0 => .ok []
  | i + 1 => do
    let stores ← copyArgsStores fuel kargv stacktop uargv i
    let dst := uint64 (stacktop + argvSize kargv i)
    let string ← strcpyStores fuel dst (kargv i)
    return stores ++ string ++ bytesStores (uint64 (uargv + 8 * i)) (toBytes dst) 8

/-- The stores that set up `argc` and `argv`, in their order, and the stack pointer. -/
def argStores (fuel argc : ℕ) (kargv : ℕ → ℕ → UInt8) : Outcome (List (ℕ × UInt8) × ℕ) := do
  Outcome.require (argc ≤ EXEC_MAX_ARG_NUM)
  let stacktop := uint64Sub USTACKTOP ((argvSize kargv argc / 8 + 1) * 8)
  let uargv := uint64Sub stacktop (argc * 8)
  let stores ← copyArgsStores fuel kargv stacktop uargv argc
  let stacktop := uint64Sub uargv 4
  return (stores ++ bytesStores stacktop (toBytes argc) 4, stacktop)

def storeAll (memory : ℕ → UInt8) (stores : List (ℕ × UInt8)) : Outcome (ℕ → UInt8) :=
  stores.foldlM (fun memory store ↦ storeByte memory store.1 store.2) memory

section Stores

variable {memory memory' : ℕ → UInt8} {addr dst size fuel i : ℕ} {src bytes : ℕ → UInt8}
  {kargv : ℕ → ℕ → UInt8}

theorem storeAll_append (memory : ℕ → UInt8) (stores more : List (ℕ × UInt8)) :
    storeAll memory (stores ++ more) =
      (do let memory ← storeAll memory stores; storeAll memory more) :=
  List.foldlM_append

theorem storeBytes_eq (memory : ℕ → UInt8) (addr : ℕ) (bytes : ℕ → UInt8) (size : ℕ) :
    storeBytes memory addr bytes size = storeAll memory (bytesStores addr bytes size) := by
  induction size with
  | zero => rfl
  | succ size ih =>
    rw [bytesStores, List.range_succ, List.map_append, storeAll_append, storeBytes, ih]
    refine congrArg _ (funext fun memory ↦ ?_)
    exact (bind_pure _).symm

theorem strcpy_eq_ok : strcpy fuel memory dst src = .ok memory' ↔
    ∃ stores, strcpyStores fuel dst src = .ok stores ∧ storeAll memory stores = .ok memory' := by
  induction fuel generalizing memory dst src with
  | zero => exact ⟨fun h ↦ (by cases h), fun ⟨_, h, _⟩ ↦ (by cases h)⟩
  | succ fuel ih =>
    rw [strcpy, strcpyStores, Outcome.bind_eq_ok]
    by_cases hzero : src 0 ≠ 0
    · rw [if_pos hzero]
      simp only [if_pos hzero, ih]
      constructor
      · rintro ⟨middle, hstore, stores, hstores, hrest⟩
        refine ⟨(dst, src 0) :: stores, ?_, ?_⟩
        · rw [hstores]
          rfl
        · rw [storeAll, List.foldlM_cons, hstore]
          exact hrest
      · rintro ⟨all, hall, hstores⟩
        rcases Outcome.bind_eq_ok.mp hall with ⟨stores, hrest, hcons⟩
        cases hcons
        rw [storeAll, List.foldlM_cons] at hstores
        rcases Outcome.bind_eq_ok.mp hstores with ⟨middle, hstore, hstores⟩
        exact ⟨middle, hstore, stores, hrest, hstores⟩
    · rw [if_neg hzero]
      simp only [if_neg hzero]
      constructor
      · rintro ⟨middle, hstore, hlast⟩
        cases hlast
        refine ⟨_, rfl, ?_⟩
        rw [storeAll, List.foldlM_cons, hstore]
        rfl
      · rintro ⟨stores, hstores, hall⟩
        cases hstores
        rw [storeAll, List.foldlM_cons] at hall
        rcases Outcome.bind_eq_ok.mp hall with ⟨middle, hstore, hlast⟩
        exact ⟨middle, hstore, hlast⟩

theorem copyArgs_eq_ok {stacktop uargv : ℕ} :
    copyArgs fuel kargv stacktop uargv memory i = .ok memory' ↔
      ∃ stores, copyArgsStores fuel kargv stacktop uargv i = .ok stores ∧
        storeAll memory stores = .ok memory' := by
  induction i generalizing memory' with
  | zero =>
    constructor
    · intro h
      exact ⟨[], rfl, h⟩
    · rintro ⟨stores, hstores, hall⟩
      cases hstores
      exact hall
  | succ i ih =>
    rw [copyArgs, copyArgsStores]
    constructor
    · intro h
      rcases Outcome.bind_eq_ok.mp h with ⟨middle, hbefore, h⟩
      rcases Outcome.bind_eq_ok.mp h with ⟨copied, hstring, hpointer⟩
      rcases ih.mp hbefore with ⟨stores, hstores, hfirst⟩
      rcases strcpy_eq_ok.mp hstring with ⟨string, hstring, hsecond⟩
      refine ⟨_, Outcome.bind_eq_ok.mpr ⟨stores, hstores,
        Outcome.bind_eq_ok.mpr ⟨string, hstring, rfl⟩⟩, ?_⟩
      rw [storeAll_append, storeAll_append, hfirst, Outcome.ok_bind, hsecond, Outcome.ok_bind,
        ← storeBytes_eq]
      exact hpointer
    · rintro ⟨all, hall, hstored⟩
      rcases Outcome.bind_eq_ok.mp hall with ⟨stores, hstores, hall⟩
      rcases Outcome.bind_eq_ok.mp hall with ⟨string, hstring, hall⟩
      cases hall
      rw [storeAll_append, storeAll_append] at hstored
      rcases Outcome.bind_eq_ok.mp hstored with ⟨copied, hstored, hpointer⟩
      rcases Outcome.bind_eq_ok.mp hstored with ⟨middle, hfirst, hsecond⟩
      refine Outcome.bind_eq_ok.mpr ⟨middle, ih.mpr ⟨stores, hstores, hfirst⟩, ?_⟩
      refine Outcome.bind_eq_ok.mpr ⟨copied, strcpy_eq_ok.mpr ⟨string, hstring, hsecond⟩, ?_⟩
      rw [storeBytes_eq]
      exact hpointer

/-- What is stored for the arguments, and where, does not depend on what has been in memory. -/
theorem setupArgs_eq_ok {argc sp : ℕ} : setupArgs fuel argc kargv memory = .ok (memory', sp) ↔
    ∃ stores, argStores fuel argc kargv = .ok (stores, sp) ∧
      storeAll memory stores = .ok memory' := by
  unfold setupArgs argStores
  by_cases hargc : argc ≤ EXEC_MAX_ARG_NUM
  · rw [Outcome.require_of_true hargc, Outcome.ok_bind, Outcome.ok_bind]
    constructor
    · intro h
      rcases Outcome.bind_eq_ok.mp h with ⟨copied, hcopied, h⟩
      rcases Outcome.bind_eq_ok.mp h with ⟨last, hlast, h⟩
      cases h
      rcases copyArgs_eq_ok.mp hcopied with ⟨stores, hstores, hall⟩
      refine ⟨_, Outcome.bind_eq_ok.mpr ⟨stores, hstores, rfl⟩, ?_⟩
      rw [storeAll_append, hall, Outcome.ok_bind, ← storeBytes_eq]
      exact hlast
    · rintro ⟨all, hall, hstored⟩
      rcases Outcome.bind_eq_ok.mp hall with ⟨stores, hstores, hall⟩
      cases hall
      rw [storeAll_append] at hstored
      rcases Outcome.bind_eq_ok.mp hstored with ⟨copied, hcopied, hlast⟩
      rw [← storeBytes_eq] at hlast
      refine Outcome.bind_eq_ok.mpr ⟨copied, copyArgs_eq_ok.mpr ⟨stores, hstores, hcopied⟩, ?_⟩
      exact Outcome.bind_eq_ok.mpr ⟨memory', hlast, rfl⟩
  · rw [Outcome.require_of_false hargc]
    exact ⟨fun h ↦ (by cases h), fun ⟨_, h, _⟩ ↦ (by cases h)⟩

end Stores

/-! ## Two runs of the headers -/

/-- The loops are at the same place in both runs. -/
structure LoaderTwins (old old' : Frame → ℕ → UInt8) (l l' : Loader) : Prop where
  memory : Twins old old' l.memory l'.memory
  same : l' = { l with memory := l'.memory }

structure LoadingTwins (old old' : Frame → ℕ → UInt8) (s s' : Loading) : Prop where
  memory : Twins old old' s.memory s'.memory
  same : s' = { s with memory := s'.memory }

/-- The same value, and states that belong together. -/
def Both {State Value : Type} (T : State → State → Prop) (result result' : Value × State) : Prop :=
  result'.1 = result.1 ∧ T result.2 result'.2

section TwoLoads

variable {old old' : Frame → ℕ → UInt8} {l l' : Loader} {s s' : Loading} {read : LoadIcodeRead}
  {fuel : ℕ}

/-- What does not look at the memory is the same. -/
theorem LoaderTwins.eq {Value : Type} (h : LoaderTwins old old' l l') (value : Loader → Value)
    (hvalue : ∀ (l : Loader) (memory : Memory), value { l with memory } = value l) :
    value l' = value l :=
  (congrArg value h.same).trans (hvalue l _)

theorem LoaderTwins.change (h : LoaderTwins old old' l l') (change : Loader → Loader)
    (hchange : ∀ (l : Loader) (memory : Memory),
      change { l with memory } = { change l with memory })
    (hmemory : (change l).memory = l.memory) : LoaderTwins old old' (change l) (change l') := by
  rcases h with ⟨htwins, hsame⟩
  generalize l'.memory = memory at htwins hsame
  subst hsame
  rw [hchange l memory]
  refine ⟨?_, rfl⟩
  rw [hmemory]
  exact htwins

theorem LoaderTwins.allocPage (h : LoaderTwins old old' l l') (perm : ℕ) :
    InStep (LoaderTwins old old') (l.allocPage perm) (l'.allocPage perm) := by
  rcases h with ⟨htwins, hsame⟩
  generalize l'.memory = memory at htwins hsame
  subst hsame
  refine (htwins.pgdirAllocPage l.pgdir l.la perm).bind ?_
  rintro ⟨page, next, pgdir⟩ ⟨page', next', pgdir'⟩ ⟨hpage, hnext, hpgdir⟩
  obtain rfl : page' = page := hpage
  obtain rfl : pgdir' = pgdir := hpgdir
  exact .ok ⟨hnext, rfl⟩

theorem LoaderTwins.nextPage (h : LoaderTwins old old' l l') :
    LoaderTwins old old' l.nextPage l'.nextPage := by
  refine h.change Loader.nextPage (fun _ _ ↦ ?_) ?_
  all_goals unfold Loader.nextPage
  all_goals dsimp only

theorem LoaderTwins.fill (h : LoaderTwins old old' l l') (off size : ℕ) (bytes : ℕ → UInt8) :
    InStep (LoaderTwins old old') (l.fill off size bytes) (l'.fill off size bytes) := by
  rcases h with ⟨htwins, hsame⟩
  generalize l'.memory = memory at htwins hsame
  subst hsame
  unfold Loader.fill
  dsimp only
  cases l.page with
  | none => exact .error .panic
  | some page =>
    exact (htwins.store page off size bytes).bind fun next next' hnext ↦ .ok ⟨hnext, rfl⟩

theorem copyBody_twins (read : LoadIcodeRead) (perm stop : ℕ) (h : LoaderTwins old old' l l') :
    InStep (Sum.LiftRel (LoaderTwins old old') (Both (LoaderTwins old old')))
      (copyBody read perm stop l) (copyBody read perm stop l') := by
  unfold copyBody
  rw [h.eq (fun l ↦ l.start) fun _ _ ↦ rfl]
  refine InStep.ite (fun _ ↦ ?_) fun _ ↦ .ok (.inr ⟨rfl, h⟩)
  refine (h.allocPage perm).bind fun new new' hnew ↦ ?_
  rw [hnew.eq (fun l ↦ l.page) fun _ _ ↦ rfl, hnew.eq (fun l ↦ l.start) fun _ _ ↦ rfl,
    hnew.eq (fun l ↦ l.la) fun _ _ ↦ rfl]
  refine InStep.ite (fun _ ↦ .ok (.inr ⟨rfl, hnew⟩)) fun _ ↦ ?_
  have hnext := hnew.nextPage
  dsimp only
  rw [hnext.eq (fun l ↦ l.la) fun _ _ ↦ rfl, hnext.eq (fun l ↦ l.offset) fun _ _ ↦ rfl]
  rcases read (chunk stop new.nextPage.la (uint64Sub new.start new.la)) new.nextPage.offset
    with ⟨ret, bytes⟩
  refine InStep.ite (fun _ ↦ .ok (.inr ⟨rfl, hnext⟩)) fun _ ↦ ?_
  refine (hnext.fill _ _ bytes).bind fun last last' hlast ↦ .ok (.inl ?_)
  rw [hlast.eq (fun l ↦ l.offset) fun _ _ ↦ rfl]
  exact hlast.change (fun l ↦ { l with offset := _ }) (fun _ _ ↦ rfl) rfl

theorem LoaderTwins.clearTail (h : LoaderTwins old old' l l') (stop : ℕ) :
    InStep (LoaderTwins old old') (l.clearTail stop) (l'.clearTail stop) := by
  unfold Loader.clearTail
  rw [h.eq (fun l ↦ l.start) fun _ _ ↦ rfl, h.eq (fun l ↦ l.la) fun _ _ ↦ rfl]
  refine (h.fill _ _ fun _ ↦ 0).bind fun last last' hlast ↦ ?_
  rw [hlast.eq (fun l ↦ l.start) fun _ _ ↦ rfl, hlast.eq (fun l ↦ l.la) fun _ _ ↦ rfl]
  exact .require fun _ ↦ .ok hlast

theorem clearBody_twins (perm stop : ℕ) (h : LoaderTwins old old' l l') :
    InStep (Sum.LiftRel (LoaderTwins old old') (Both (LoaderTwins old old')))
      (clearBody perm stop l) (clearBody perm stop l') := by
  unfold clearBody
  rw [h.eq (fun l ↦ l.start) fun _ _ ↦ rfl]
  refine InStep.ite (fun _ ↦ ?_) fun _ ↦ .ok (.inr ⟨rfl, h⟩)
  refine (h.allocPage perm).bind fun new new' hnew ↦ ?_
  rw [hnew.eq (fun l ↦ l.page) fun _ _ ↦ rfl, hnew.eq (fun l ↦ l.start) fun _ _ ↦ rfl,
    hnew.eq (fun l ↦ l.la) fun _ _ ↦ rfl]
  refine InStep.ite (fun _ ↦ .ok (.inr ⟨rfl, hnew⟩)) fun _ ↦ ?_
  have hnext := hnew.nextPage
  dsimp only
  rw [hnext.eq (fun l ↦ l.la) fun _ _ ↦ rfl]
  exact (hnext.fill _ _ fun _ ↦ 0).bind fun last last' hlast ↦ .ok (.inl hlast)

theorem LoaderTwins.loadPages (h : LoaderTwins old old' l l') (read : LoadIcodeRead) (ph : ProgHdr)
    (fuel : ℕ) : InStep (Both (LoaderTwins old old')) (l.loadPages read ph fuel)
      (l'.loadPages read ph fuel) := by
  have hclear : ∀ {l l' : Loader}, LoaderTwins old old' l l' →
      InStep (Both (LoaderTwins old old'))
        (loop (clearBody ph.perm (uint64 (ph.pVa + ph.pMemsz))) fuel l)
        (loop (clearBody ph.perm (uint64 (ph.pVa + ph.pMemsz))) fuel l') :=
    fun h ↦ InStep.loop (fun _ _ ↦ clearBody_twins _ _) fuel h
  unfold Loader.loadPages
  refine InStep.bind (R := Both (LoaderTwins old old'))
    (InStep.loop (fun _ _ ↦ copyBody_twins read _ _) fuel h) ?_
  rintro ⟨ret, copied⟩ ⟨ret', copied'⟩ ⟨hret, hcopied⟩
  obtain rfl : ret' = ret := hret
  change LoaderTwins old old' copied copied' at hcopied
  dsimp only
  refine InStep.ite (fun _ ↦ .ok ⟨rfl, hcopied⟩) fun _ ↦ ?_
  rw [hcopied.eq (fun l ↦ l.start) fun _ _ ↦ rfl, hcopied.eq (fun l ↦ l.la) fun _ _ ↦ rfl]
  refine InStep.ite (fun _ ↦ ?_) fun _ ↦ hclear hcopied
  refine InStep.ite (fun _ ↦ .ok ⟨rfl, hcopied⟩) fun _ ↦ ?_
  exact (hcopied.clearTail _).bind fun _ _ ↦ hclear

theorem LoadingTwins.loadSegment (h : LoadingTwins old old' s s') (read : LoadIcodeRead)
    (kmalloc : Bool) (ph : ProgHdr) (fuel : ℕ) : InStep (Both (LoadingTwins old old'))
      (s.loadSegment read kmalloc ph fuel) (s'.loadSegment read kmalloc ph fuel) := by
  rcases h with ⟨htwins, hsame⟩
  generalize s'.memory = memory at htwins hsame
  subst hsame
  unfold Loading.loadSegment
  refine InStep.ite (fun _ ↦ .ok ⟨rfl, htwins, rfl⟩) fun _ ↦ ?_
  refine InStep.ite (fun _ ↦ .ok ⟨rfl, htwins, rfl⟩) fun _ ↦ ?_
  dsimp only
  rcases s.mm.mmMap kmalloc ph.pVa ph.pMemsz ph.vmFlags with stop | ⟨ret, mm⟩
  · exact .error stop
  rw [Outcome.ok_bind, Outcome.ok_bind]
  refine InStep.ite (fun _ ↦ .ok ⟨rfl, htwins, rfl⟩) fun _ ↦ ?_
  have hfirst : LoaderTwins old old'
      ⟨s.memory, mm.pgdir, s.page, ph.pVa, roundDown ph.pVa PGSIZE, int64 ph.pOffset⟩
      ⟨memory, mm.pgdir, s.page, ph.pVa, roundDown ph.pVa PGSIZE, int64 ph.pOffset⟩ :=
    ⟨htwins, rfl⟩
  refine (hfirst.loadPages read ph fuel).bind ?_
  rintro ⟨ret, last⟩ ⟨ret', last'⟩ ⟨hret, hlast⟩
  obtain rfl : ret' = ret := hret
  change LoaderTwins old old' last last' at hlast
  dsimp only
  rw [hlast.eq (fun l ↦ l.pgdir) fun _ _ ↦ rfl, hlast.eq (fun l ↦ l.page) fun _ _ ↦ rfl]
  exact .ok ⟨rfl, hlast.memory, rfl⟩

theorem LoadingTwins.loadSegments (h : LoadingTwins old old' s s') (read : LoadIcodeRead)
    (kmalloc : ℕ → Bool) (elf : ElfHdr) (fuel left phnum : ℕ) :
    InStep (Both (LoadingTwins old old')) (s.loadSegments read kmalloc elf fuel left phnum)
      (s'.loadSegments read kmalloc elf fuel left phnum) := by
  induction left generalizing s s' phnum with
  | zero => exact .ok ⟨rfl, h⟩
  | succ left ih =>
    rw [Loading.loadSegments, Loading.loadSegments]
    rcases read PROGHDR_SIZE (int64 (uint64 (elf.ePhoff + PROGHDR_SIZE * phnum))) with ⟨ret, bytes⟩
    dsimp only
    refine InStep.ite (fun _ ↦ .ok ⟨rfl, h⟩) fun _ ↦ ?_
    refine (h.loadSegment read (kmalloc phnum) (.read bytes) fuel).bind ?_
    rintro ⟨ret, next⟩ ⟨ret', next'⟩ ⟨hret, hnext⟩
    obtain rfl : ret' = ret := hret
    exact InStep.ite (fun _ ↦ .ok ⟨rfl, hnext⟩) fun _ ↦ ih hnext (phnum + 1)

theorem LoadingTwins.loadIcode (h : LoadingTwins old old' s s') (read : LoadIcodeRead)
    (kmalloc : ℕ → Bool) (fuel : ℕ) : InStep (Both (LoadingTwins old old'))
      (s.loadIcode read kmalloc fuel) (s'.loadIcode read kmalloc fuel) := by
  unfold Loading.loadIcode
  rcases read ELFHDR_SIZE 0 with ⟨ret, bytes⟩
  dsimp only
  refine InStep.ite (fun _ ↦ .ok ⟨rfl, h⟩) fun _ ↦ ?_
  exact InStep.ite (fun _ ↦ .ok ⟨rfl, h⟩) fun _ ↦ h.loadSegments read kmalloc _ fuel _ 0

theorem LoadingTwins.stackPages (h : LoadingTwins old old' s s') (count : ℕ) :
    InStep (LoadingTwins old old') (s.stackPages count) (s'.stackPages count) := by
  induction count with
  | zero => exact .ok h
  | succ count ih =>
    rw [Loading.stackPages, Loading.stackPages]
    refine ih.bind fun next next' hnext ↦ ?_
    rcases hnext with ⟨htwins, hsame⟩
    generalize next'.memory = memory at htwins hsame
    subst hsame
    refine (htwins.pgdirAllocPage next.mm.pgdir _ _).bind ?_
    rintro ⟨page, last, pgdir⟩ ⟨page', last', pgdir'⟩ ⟨hpage, hlast, hpgdir⟩
    obtain rfl : page' = page := hpage
    obtain rfl : pgdir' = pgdir := hpgdir
    exact .require fun _ ↦ .ok ⟨hlast, rfl⟩

theorem LoadingTwins.mapStack (h : LoadingTwins old old' s s') (kmalloc : Bool) :
    InStep (Both (LoadingTwins old old')) (s.mapStack kmalloc) (s'.mapStack kmalloc) := by
  rcases h with ⟨htwins, hsame⟩
  generalize s'.memory = memory at htwins hsame
  subst hsame
  unfold Loading.mapStack
  dsimp only
  rcases s.mm.mmMap kmalloc (USTACKTOP - USTACKSIZE) USTACKSIZE
    (VM_READ ||| VM_WRITE ||| VM_STACK) with stop | ⟨ret, mm⟩
  · exact .error stop
  rw [Outcome.ok_bind, Outcome.ok_bind]
  refine InStep.ite (fun _ ↦ .ok ⟨rfl, htwins, rfl⟩) fun _ ↦ ?_
  have hfirst : LoadingTwins old old' { s with mm } ⟨memory, mm, s.page⟩ := ⟨htwins, rfl⟩
  exact (hfirst.stackPages 4).bind fun last last' hlast ↦ .ok ⟨rfl, hlast⟩

end TwoLoads

/-! ## Into the new program -/

/-- What `load_icode` is called with, and the pages that the new program touches first. The answers
of `kmalloc` are for the areas, and the rest is the swap device. -/
structure Exec where
  read : LoadIcodeRead
  kmalloc : ℕ → Bool
  kmallocStack : Bool
  argc : ℕ
  kargv : ℕ → ℕ → UInt8
  faults : List ℕ
  sm : SwapManager
  maxSwapOffset : ℕ
  slot : ℕ → ℕ → UInt8

/-- The new address space is the current one, as the handler of page faults finds it. -/
def Loading.current (s : Loading) (e : Exec) : FaultState where
  pmm := ⟨s.memory.free, s.memory.ref⟩
  bytes := s.memory.bytes
  swapInitOk := s.memory.swapInitOk
  maxSwapOffset := e.maxSwapOffset
  slot := e.slot
  reads := []
  praListHead := s.memory.queue
  praVaddr := s.memory.praVaddr
  mm := s.mm
  checkMm := s.memory.checkMm.isSome

/-- The page fault that an access takes, if there is no page. -/
def touchUser (e : Exec) (fuel : ℕ) (s : FaultState) (addr : ℕ) : Outcome (ℤ × FaultState) :=
  if Present (s.mm.pgdir.pte addr) then .ok (0, s) else doPgfault e.sm fuel s 0 addr

/-- A store of the kernel to the current address space, which may fault. A page fault in the kernel
that is not resolved stops it. -/
def storeUser (e : Exec) (fuel : ℕ) (s : FaultState) (addr : ℕ) (byte : UInt8) :
    Outcome FaultState := do
  let (ret, s) ← touchUser e fuel s addr
  Outcome.require (ret = 0)
  let page := pte2page (s.mm.pgdir.pte addr)
  let patched := Function.update (s.bytes page) (addr % PGSIZE) byte
  return { s with bytes := Function.update s.bytes page patched }

/-- The stack, the arguments on it, and the page faults after that. -/
def Exec.begin (e : Exec) (fuel : ℕ) (s : Loading) : Outcome (ℤ × FaultState) := do
  let (ret, s) ← s.mapStack e.kmallocStack
  if ret ≠ 0 then return (ret, s.current e)
  let (stores, _) ← argStores fuel e.argc e.kargv
  let s ← stores.foldlM (fun s store ↦ storeUser e fuel s store.1 store.2) (s.current e)
  let s ← e.faults.foldlM (fun s addr ↦ do
    let (_, s) ← doPgfault e.sm fuel s 0 addr
    return s) s
  return (0, s)

/-- `load_icode`, and the page faults of the new program. -/
def Exec.run (e : Exec) (fuel : ℕ) (s : Loading) : Outcome (ℤ × FaultState) := do
  let (ret, s) ← s.loadIcode e.read e.kmalloc fuel
  if ret ≠ 0 then return (ret, s.current e)
  e.begin fuel s

section TwoPrograms

variable {old old' : Frame → ℕ → UInt8} {s s' : Loading} {f f' : FaultState} {e : Exec} {fuel : ℕ}

theorem LoadingTwins.current (h : LoadingTwins old old' s s') (e : Exec) :
    FaultTwins old old' (s.current e) (s'.current e) := by
  rcases h with ⟨⟨hmemory, hresidual, hcheck⟩, hsame⟩
  refine ⟨?_, hresidual, ?_⟩
  · rw [hsame, hmemory]
    rfl
  · exact congrArg Option.isSome hcheck

theorem storeUser_twins (h : FaultTwins old old' f f') (e : Exec) (fuel addr : ℕ) (byte : UInt8) :
    InStep (FaultTwins old old') (storeUser e fuel f addr byte)
      (storeUser e fuel f' addr byte) := by
  refine InStep.bind (R := Both (FaultTwins old old')) ?_ ?_
  · unfold touchUser
    rw [h.eq (fun s ↦ s.mm.pgdir) fun _ _ ↦ rfl]
    exact InStep.ite (fun _ ↦ .ok ⟨rfl, h⟩) fun _ ↦ h.doPgfault e.sm fuel 0 addr
  rintro ⟨ret, next⟩ ⟨ret', next'⟩ ⟨hret, hnext⟩
  obtain rfl : ret' = ret := hret
  change FaultTwins old old' next next' at hnext
  refine .require fun _ ↦ .ok ⟨?_, ?_, hnext.checkMm⟩
  · rw [hnext.same]
  · dsimp only
    rw [hnext.eq (fun s ↦ s.mm.pgdir) fun _ _ ↦ rfl]
    refine hnext.residual.update _ fun index ↦ ?_
    by_cases hindex : index = addr % PGSIZE
    · subst hindex
      rw [Function.update_self, Function.update_self]
      exact Or.inl rfl
    · rw [Function.update_of_ne hindex, Function.update_of_ne hindex]
      exact Or.inr ⟨rfl, rfl⟩

theorem LoadingTwins.begin (h : LoadingTwins old old' s s') (e : Exec) (fuel : ℕ) :
    InStep (Both (FaultTwins old old')) (e.begin fuel s) (e.begin fuel s') := by
  unfold Exec.begin
  refine (h.mapStack e.kmallocStack).bind ?_
  rintro ⟨ret, mapped⟩ ⟨ret', mapped'⟩ ⟨hret, hmapped⟩
  obtain rfl : ret' = ret := hret
  change LoadingTwins old old' mapped mapped' at hmapped
  dsimp only
  refine InStep.ite (fun _ ↦ .ok ⟨rfl, hmapped.current e⟩) fun _ ↦ ?_
  rcases argStores fuel e.argc e.kargv with stop | ⟨stores, sp⟩
  · exact .error stop
  rw [Outcome.ok_bind, Outcome.ok_bind]
  refine InStep.bind (R := FaultTwins old old') (InStep.foldlM
    (fun store _ _ hstep ↦ storeUser_twins hstep e fuel store.1 store.2) stores
    (hmapped.current e)) fun stored stored' hstored ↦ ?_
  refine InStep.bind (R := FaultTwins old old') (InStep.foldlM
    (fun addr _ _ hstep ↦ ?_) e.faults hstored) fun last last' hlast ↦ .ok ⟨rfl, hlast⟩
  exact (hstep.doPgfault e.sm fuel 0 addr).bind fun _ _ hnext ↦ .ok hnext.2

theorem LoadingTwins.run (h : LoadingTwins old old' s s') (e : Exec) (fuel : ℕ) :
    InStep (Both (FaultTwins old old')) (e.run fuel s) (e.run fuel s') := by
  unfold Exec.run
  refine (h.loadIcode e.read e.kmalloc fuel).bind ?_
  rintro ⟨ret, loaded⟩ ⟨ret', loaded'⟩ ⟨hret, hloaded⟩
  obtain rfl : ret' = ret := hret
  exact InStep.ite (fun _ ↦ .ok ⟨rfl, hloaded.current e⟩) fun _ ↦ hloaded.begin e fuel

end TwoPrograms

/-! ## What is left of other programs -/

/-- The byte that the process reads at an address. -/
def readByte (s : FaultState) (addr : ℕ) : Option UInt8 :=
  if Present (s.mm.pgdir.pte addr) then
    some (s.bytes (pte2page (s.mm.pgdir.pte addr)) (addr % PGSIZE))
  else none

/-- The bytes in the frames that are not free are the same. -/
def SameInUse (start : AddressSpace) (bytes' : Frame → ℕ → UInt8) : Prop :=
  ∀ frame, frame ∉ start.memory.free → bytes' frame = start.memory.bytes frame

/-- A new program reads the same, whatever the free frames have held. -/
def NoResidue : Prop := ∀ (e : Exec) (fuel : ℕ) (start : AddressSpace)
  (bytes' : Frame → ℕ → UInt8) (s s' : FaultState), NewSpace start →
    start.memory.checkMm = none → SameInUse start bytes' →
    e.run fuel ⟨start.memory, start.mm, none⟩ = .ok (0, s) →
    e.run fuel ⟨start.memory.withBytes bytes', start.mm, none⟩ = .ok (0, s') →
    ∀ addr, readByte s addr = readByte s' addr

/-- Two runs that start with other bytes in the free frames. -/
structure OnlyResidue (start : AddressSpace) (bytes' : Frame → ℕ → UInt8)
    (result result' : ℤ × FaultState) : Prop where
  ret : result'.1 = result.1
  same : result'.2 = { result.2 with bytes := result'.2.bytes }
  bytes : ∀ frame index, result.2.bytes frame index = result'.2.bytes frame index ∨
    frame ∈ start.memory.free ∧ result.2.bytes frame index = start.memory.bytes frame index ∧
      result'.2.bytes frame index = bytes' frame index

theorem newSpace_withBytes {start : AddressSpace} (h : NewSpace start)
    (bytes' : Frame → ℕ → UInt8) :
    NewSpace { start with memory := start.memory.withBytes bytes' } := by
  rcases h with ⟨m, pgdir, haccounts, hsetup, hmm⟩
  refine ⟨m.withBytes bytes', pgdir, haccounts.of_eq rfl rfl, ?_, hmm⟩
  unfold setupPgdir Memory.allocPage at hsetup ⊢
  cases hfree : m.free with
  | nil =>
    rw [hfree] at hsetup
    cases hsetup
  | cons frame rest =>
    have hfree' : (m.withBytes bytes').free = frame :: rest := hfree
    rw [hfree] at hsetup
    rw [hfree']
    rcases start with ⟨memory, mm, others⟩
    cases hsetup
    rfl

/-- Two runs of `load_icode` that start with other bytes in the free frames, with the page faults of
the new program: they return the same with the same page tables, areas and free frames, and a byte
that is not the same in both was in a free frame and is still there as it was. No such byte is
inside of a segment. -/
theorem run_onlyResidue (e : Exec) (start : AddressSpace) (bytes' : Frame → ℕ → UInt8)
    (hnew : NewSpace start) (hcheck : start.memory.checkMm = none)
    (hinUse : SameInUse start bytes') :
    (∀ fuel, InStep (OnlyResidue start bytes') (e.run fuel ⟨start.memory, start.mm, none⟩)
      (e.run fuel ⟨start.memory.withBytes bytes', start.mm, none⟩)) ∧
    ∀ file, Reads file e.read → Segmented file → ∃ ret s s',
      Returns (fun fuel ↦ Loading.loadIcode ⟨start.memory, start.mm, none⟩ e.read e.kmalloc fuel)
        (ret, s) ∧
      Returns (fun fuel ↦ Loading.loadIcode ⟨start.memory.withBytes bytes', start.mm, none⟩ e.read
        e.kmalloc fuel) (ret, s') ∧
      (ret = 0 → ∀ phnum, Loads file phnum → ∀ index < (progHdr file phnum).pMemsz,
        ∃ byte, userByte s.memory s.mm.pgdir ((progHdr file phnum).pVa + index) = some byte ∧
          userByte s'.memory s'.mm.pgdir ((progHdr file phnum).pVa + index) = some byte) ∧
      ∀ fuel, InStep (Both (FaultTwins s.memory.bytes s'.memory.bytes)) (e.begin fuel s)
        (e.begin fuel s') := by
  have htwins : ∀ old old', Residual old old' start.memory.bytes bytes' →
      LoadingTwins old old' ⟨start.memory, start.mm, none⟩
        ⟨start.memory.withBytes bytes', start.mm, none⟩ :=
    fun old old' hresidual ↦ ⟨⟨rfl, hresidual, hcheck⟩, rfl⟩
  have hfirst := htwins _ _ (residual_refl start.memory.bytes bytes')
  refine ⟨fun fuel ↦ (hfirst.run e fuel).mono ?_, fun file hreads hfile ↦ ?_⟩
  · rintro result result' ⟨hret, hlast⟩
    refine ⟨hret, hlast.same, fun frame index ↦ ?_⟩
    by_cases hfree : frame ∈ start.memory.free
    · rcases hlast.residual frame index with heq | hold
      · exact Or.inl heq
      · exact Or.inr ⟨hfree, hold⟩
    · rcases hlast.residual frame index with heq | ⟨hold, hold'⟩
      · exact Or.inl heq
      · exact Or.inl (by rw [hold, hold', hinUse frame hfree])
  · rcases loadIcode_inMemory hreads hfile e.kmalloc start hnew hcheck
      with ⟨ret, s, ⟨bound, hbound⟩, hdone⟩
    rcases loadIcode_inMemory hreads hfile e.kmalloc _ (newSpace_withBytes hnew bytes') hcheck
      with ⟨ret', s', ⟨bound', hbound'⟩, hdone'⟩
    have hret : ret' = ret ∧ LoadingTwins start.memory.bytes bytes' s s' := by
      have hboth := hfirst.loadIcode e.read e.kmalloc (max bound bound')
      have hone := hbound (max bound bound') (le_max_left ..)
      have hother := hbound' (max bound bound') (le_max_right ..)
      beta_reduce at hone hother
      rw [hone] at hboth
      rcases hboth.of_ok rfl with ⟨last, hlast, hlasts⟩
      cases hother.symm.trans hlast
      exact hlasts
    rcases hret with ⟨rfl, hloaded⟩
    refine ⟨ret', s, s', ⟨bound, hbound⟩, ⟨bound', hbound'⟩, ?_, fun fuel ↦ ?_⟩
    · intro hzero phnum hloads index hindex
      have hin := hdone hzero phnum hloads
      have hin' := hdone' hzero phnum hloads
      by_cases hfilesz : index < (progHdr file phnum).pFilesz
      · exact ⟨_, hin.copied index hfilesz, hin'.copied index hfilesz⟩
      · exact ⟨0, hin.cleared index hindex (not_lt.mp hfilesz),
          hin'.cleared index hindex (not_lt.mp hfilesz)⟩
    · have hnow : LoadingTwins s.memory.bytes s'.memory.bytes s s' :=
        ⟨⟨hloaded.memory.same, residual_refl _ _, hloaded.memory.checkMm⟩, hloaded.same⟩
      exact hnow.begin e fuel

/-! ## Before the first byte of a segment -/

def sixteenFrames : Memory :=
  ⟨List.range 16, fun _ ↦ 0, fun _ _ ↦ 0, false, [], fun _ ↦ 0, none⟩

def sixteenSpace : AddressSpace :=
  ⟨(setupPgdir sixteenFrames).2, mmCreate false (Table.clear 0 none), 0⟩

theorem sixteenSpace_new : NewSpace sixteenSpace :=
  ⟨sixteenFrames, _, ⟨fun _ ↦ rfl, by decide, fun _ _ ↦ Multiset.notMem_zero _⟩, rfl, rfl⟩

/-- Another program has left a seven in every byte. -/
def sevens : Frame → ℕ → UInt8 := fun frame _ ↦ if frame ∈ sixteenSpace.memory.free then 7 else 0

theorem sameInUse_sevens : SameInUse sixteenSpace sevens := by
  intro frame hframe
  funext index
  exact if_neg hframe

/-- The two segments, without arguments. -/
def execTwo : Exec where
  read := readFile twoSegments
  kmalloc _ := true
  kmallocStack := true
  argc := 0
  kargv _ _ := 0
  faults := []
  sm := swapManagerFifo
  maxSwapOffset := 0
  slot _ _ := 0

theorem run_onlyResidue_execTwo :
    (∀ fuel, InStep (OnlyResidue sixteenSpace sevens)
      (execTwo.run fuel ⟨sixteenSpace.memory, sixteenSpace.mm, none⟩)
      (execTwo.run fuel ⟨sixteenSpace.memory.withBytes sevens, sixteenSpace.mm, none⟩)) ∧
    ∃ ret s s',
      Returns (fun fuel ↦ Loading.loadIcode ⟨sixteenSpace.memory, sixteenSpace.mm, none⟩
        execTwo.read execTwo.kmalloc fuel) (ret, s) ∧
      Returns (fun fuel ↦ Loading.loadIcode
        ⟨sixteenSpace.memory.withBytes sevens, sixteenSpace.mm, none⟩ execTwo.read
        execTwo.kmalloc fuel) (ret, s') ∧
      (ret = 0 → ∀ phnum, Loads twoSegments phnum → ∀ index < (progHdr twoSegments phnum).pMemsz,
        ∃ byte, userByte s.memory s.mm.pgdir ((progHdr twoSegments phnum).pVa + index) = some byte ∧
          userByte s'.memory s'.mm.pgdir ((progHdr twoSegments phnum).pVa + index) = some byte) ∧
      ∀ fuel, InStep (Both (FaultTwins s.memory.bytes s'.memory.bytes)) (execTwo.begin fuel s)
        (execTwo.begin fuel s') :=
  ⟨(run_onlyResidue execTwo sixteenSpace sevens sixteenSpace_new rfl sameInUse_sevens).1,
    (run_onlyResidue execTwo sixteenSpace sevens sixteenSpace_new rfl sameInUse_sevens).2
      twoSegments (reads_readFile twoSegments) segmented_twoSegments⟩

theorem exists_of_read {call : Outcome (ℤ × FaultState)} {addr : ℕ} {ret : ℤ} {byte : Option UInt8}
    (h : (call.toOption.map fun result ↦ (result.1, readByte result.2 addr)) = some (ret, byte)) :
    ∃ s, call = .ok (ret, s) ∧ readByte s addr = byte := by
  cases call with
  | error stop => cases h
  | ok result =>
    rcases result with ⟨ret', s⟩
    cases h
    exact ⟨s, rfl, rfl⟩

/-- The first segment starts in the middle of a page, and what is in front of it can be read. -/
theorem not_noResidue : ¬NoResidue := by
  intro hall
  have hzero : ∃ s, execTwo.run 4 ⟨sixteenSpace.memory, sixteenSpace.mm, none⟩ = .ok (0, s) ∧
      readByte s 0x200000 = some 0 := exists_of_read (by decide +kernel)
  have hseven : ∃ s, execTwo.run 4 ⟨sixteenSpace.memory.withBytes sevens, sixteenSpace.mm, none⟩ =
      .ok (0, s) ∧ readByte s 0x200000 = some 7 := exists_of_read (by decide +kernel)
  rcases hzero with ⟨s, hrun, hbyte⟩
  rcases hseven with ⟨s', hrun', hbyte'⟩
  have hsame := hall execTwo 4 sixteenSpace sevens s s' sixteenSpace_new rfl sameInUse_sevens hrun
    hrun' 0x200000
  rw [hbyte, hbyte'] at hsame
  exact absurd hsame (by decide)

end Ucore.Process
