import Ucore.Library.LittleEndian
import Ucore.Mm.MmMap
import Ucore.Mm.PageFaultRights
import Ucore.Mm.TakeDown
import Ucore.Mm.UserView

/-!
# Loading the segments of a program

The first part of `load_icode` in `kern/process/proc.c`: the program headers are read one after the
other, and for each segment an area is made, pages are mapped, and filled from the file or with
zeros. Three pieces of code share `start`, `la` and the last page. A segment that is apart from the
others by whole pages ends up in memory byte by byte, with the rights that its header asks for.
-/

namespace Ucore.Process

open Library Mm

def ELF_MAGIC : ℕ := 0x464C457F
def ELF_PT_LOAD : ℕ := 1
def ELF_PF_X : ℕ := 1
def ELF_PF_W : ℕ := 2
def ELF_PF_R : ℕ := 4
def E_INVAL_ELF : ℤ := 8

/-- `sizeof(struct elfhdr)` and `sizeof(struct proghdr)`. -/
def ELFHDR_SIZE : ℕ := 64
def PROGHDR_SIZE : ℕ := 56

/-- The fields of `struct elfhdr` that are read here. -/
structure ElfHdr where
  eMagic : ℕ
  ePhoff : ℕ
  ePhnum : ℕ

/-- The bytes of a header as a `struct elfhdr`. -/
def ElfHdr.read (bytes : ℕ → UInt8) : ElfHdr where
  eMagic := ofBytes bytes 4
  ePhoff := ofBytes (fun index ↦ bytes (32 + index)) 8
  ePhnum := ofBytes (fun index ↦ bytes (56 + index)) 2

/-- The fields of `struct proghdr` that are read. -/
structure ProgHdr where
  pType : ℕ
  pFlags : ℕ
  pOffset : ℕ
  pVa : ℕ
  pFilesz : ℕ
  pMemsz : ℕ
  deriving DecidableEq

/-- The bytes of a header as a `struct proghdr`. -/
def ProgHdr.read (bytes : ℕ → UInt8) : ProgHdr where
  pType := ofBytes bytes 4
  pFlags := ofBytes (fun index ↦ bytes (4 + index)) 4
  pOffset := ofBytes (fun index ↦ bytes (8 + index)) 8
  pVa := ofBytes (fun index ↦ bytes (16 + index)) 8
  pFilesz := ofBytes (fun index ↦ bytes (32 + index)) 8
  pMemsz := ofBytes (fun index ↦ bytes (40 + index)) 8

def ProgHdr.vmFlags (ph : ProgHdr) : ℕ :=
  (if ph.pFlags &&& ELF_PF_X ≠ 0 then VM_EXEC else 0) |||
    (if ph.pFlags &&& ELF_PF_W ≠ 0 then VM_WRITE else 0) |||
    (if ph.pFlags &&& ELF_PF_R ≠ 0 then VM_READ else 0)

def ProgHdr.perm (ph : ProgHdr) : ℕ :=
  PTE_U ||| PTE_V ||| (if ph.vmFlags &&& VM_READ ≠ 0 then PTE_R else 0) |||
    (if ph.vmFlags &&& VM_WRITE ≠ 0 then PTE_W ||| PTE_R else 0) |||
    (if ph.vmFlags &&& VM_EXEC ≠ 0 then PTE_X else 0)

/-- What `load_icode_read` answers to a length and an offset, and the bytes that it has put into
the buffer when it answers zero. -/
abbrev LoadIcodeRead := ℕ → ℤ → ℤ × (ℕ → UInt8)

/-- The local variables of the three loops over a segment, with what they change. The variable
`page` is set by the first page that is mapped. -/
structure Loader where
  memory : Memory
  pgdir : Pgdir
  page : Option Frame
  start : ℕ
  la : ℕ
  offset : ℤ

/-- The page at `la`. -/
def Loader.allocPage (l : Loader) (perm : ℕ) : Outcome Loader := do
  let (page, memory, pgdir) ← pgdirAllocPage l.memory l.pgdir l.la perm
  return { l with memory, pgdir, page }

/-- `la += PGSIZE`. -/
def Loader.nextPage (l : Loader) : Loader := { l with la := uint64 (l.la + PGSIZE) }

/-- How much of a page is written from the offset `off` on, up to `stop`, if the page ends at
`la`. -/
def chunk (stop la off : ℕ) : ℕ :=
  let size := uint64Sub PGSIZE off
  if stop < la then uint64Sub size (uint64Sub la stop) else size

/-- The bytes are stored in `page`, and `start` is moved behind them. -/
def Loader.fill (l : Loader) (off size : ℕ) (bytes : ℕ → UInt8) : Outcome Loader :=
  match l.page with
  | none => .error .panic
  | some page => do
    let memory ← l.memory.store page off size bytes
    return { l with memory, start := uint64 (l.start + size) }

/-- The loop over the part of the segment that is in the file. It is left with zero, or with an
error. -/
def copyBody (read : LoadIcodeRead) (perm stop : ℕ) (l : Loader) :
    Outcome (Loader ⊕ ℤ × Loader) :=
  if l.start < stop then do
    let l ← l.allocPage perm
    if l.page.isNone then return .inr (-E_NO_MEM, l)
    let off := uint64Sub l.start l.la
    let l := l.nextPage
    let size := chunk stop l.la off
    let (ret, bytes) := read size l.offset
    if ret ≠ 0 then return .inr (ret, l)
    let l ← l.fill off size bytes
    return .inl { l with offset := int64 (l.offset + size) }
  else .ok (.inr (0, l))

/-- The rest of the last page of that part. -/
def Loader.clearTail (l : Loader) (stop : ℕ) : Outcome Loader := do
  let off := uint64Sub (uint64 (l.start + PGSIZE)) l.la
  let l ← l.fill off (chunk stop l.la off) fun _ ↦ 0
  Outcome.require ((stop < l.la ∧ l.start = stop) ∨ (l.la ≤ stop ∧ l.start = l.la))
  return l

/-- The loop over the pages that are only cleared. -/
def clearBody (perm stop : ℕ) (l : Loader) : Outcome (Loader ⊕ ℤ × Loader) :=
  if l.start < stop then do
    let l ← l.allocPage perm
    if l.page.isNone then return .inr (-E_NO_MEM, l)
    let off := uint64Sub l.start l.la
    let l := l.nextPage
    let l ← l.fill off (chunk stop l.la off) fun _ ↦ 0
    return .inl l
  else .ok (.inr (0, l))

/-- The pages of a segment, once there is an area for it. -/
def Loader.loadPages (l : Loader) (read : LoadIcodeRead) (ph : ProgHdr) (fuel : ℕ) :
    Outcome (ℤ × Loader) := do
  let (ret, l) ← loop (copyBody read ph.perm (uint64 (ph.pVa + ph.pFilesz))) fuel l
  if ret ≠ 0 then return (ret, l)
  let stop := uint64 (ph.pVa + ph.pMemsz)
  if l.start < l.la then
    if l.start = stop then return (0, l)
    let l ← l.clearTail stop
    loop (clearBody ph.perm stop) fuel l
  else loop (clearBody ph.perm stop) fuel l

/-- What `load_icode` carries from one segment to the next. -/
structure Loading where
  memory : Memory
  mm : MmStruct
  page : Option Frame

/-- What the loop over the headers does with one of them. -/
def Loading.loadSegment (s : Loading) (read : LoadIcodeRead) (kmalloc : Bool) (ph : ProgHdr)
    (fuel : ℕ) : Outcome (ℤ × Loading) := do
  if ph.pType ≠ ELF_PT_LOAD then return (0, s)
  if ph.pMemsz < ph.pFilesz then return (-E_INVAL_ELF, s)
  let (ret, mm) ← s.mm.mmMap kmalloc ph.pVa ph.pMemsz ph.vmFlags
  if ret ≠ 0 then return (ret, { s with mm })
  let l : Loader := ⟨s.memory, mm.pgdir, s.page, ph.pVa, roundDown ph.pVa PGSIZE, int64 ph.pOffset⟩
  let (ret, l) ← l.loadPages read ph fuel
  return (ret, ⟨l.memory, { mm with pgdir := l.pgdir }, l.page⟩)

/-- The loop over the headers: how many are left, and the number of the next one. -/
def Loading.loadSegments (s : Loading) (read : LoadIcodeRead) (kmalloc : ℕ → Bool) (elf : ElfHdr)
    (fuel : ℕ) : ℕ → ℕ → Outcome (ℤ × Loading)
  | 0, _ => .ok (0, s)
  | left + 1, phnum => do
    let (ret, bytes) := read PROGHDR_SIZE (int64 (uint64 (elf.ePhoff + PROGHDR_SIZE * phnum)))
    if ret ≠ 0 then return (ret, s)
    let (ret, s) ← s.loadSegment read (kmalloc phnum) (.read bytes) fuel
    if ret ≠ 0 then return (ret, s)
    s.loadSegments read kmalloc elf fuel left (phnum + 1)

/-- `load_icode` from the header of the file to the end of the loop over the program headers, in
the address space that it has set up. The answers of `kmalloc` are for the areas. -/
def Loading.loadIcode (s : Loading) (read : LoadIcodeRead) (kmalloc : ℕ → Bool) (fuel : ℕ) :
    Outcome (ℤ × Loading) := do
  let (ret, bytes) := read ELFHDR_SIZE 0
  if ret ≠ 0 then return (ret, s)
  let elf := ElfHdr.read bytes
  if elf.eMagic ≠ ELF_MAGIC then return (-E_INVAL_ELF, s)
  s.loadSegments read kmalloc elf fuel elf.ePhnum 0

/-! ## Pages of a segment -/

/-- What is read at the address, and with which rights. -/
structure Sees (m : Memory) (pgdir : Pgdir) (perm addr : ℕ) (byte : UInt8) : Prop where
  entry : ∃ page, pgdir.pte addr = pteCreate page (PTE_V ||| perm)
  byte : userByte m pgdir addr = some byte

/-- Where a segment goes and what it is to hold, and what was there before. -/
structure Plan where
  others : Multiset Frame
  memory : Memory
  pgdir : Pgdir
  low : ℕ
  top : ℕ
  perm : ℕ
  want : ℕ → UInt8
  top_le : top ≤ USERTOP
  top_mod : top % PGSIZE = 0
  perm_lt : perm < 2 ^ 10

/-- The segment is there up to `start`, and nothing has changed outside of its pages. -/
structure Laid (p : Plan) (l : Loader) : Prop where
  accounts : Accounts l.memory (p.others + l.pgdir.frames)
  checkMm : l.memory.checkMm = none
  low : p.low ≤ l.start
  aligned : l.la % PGSIZE = 0
  first : roundDown p.low PGSIZE ≤ l.la
  seen : ∀ addr, p.low ≤ addr → addr < l.start →
    Sees l.memory l.pgdir p.perm addr (p.want addr)
  kept : ∀ addr < USERTOP, addr < roundDown p.low PGSIZE ∨ p.top ≤ addr →
    l.pgdir.pte addr = p.pgdir.pte addr ∧
      userByte l.memory l.pgdir addr = userByte p.memory p.pgdir addr

/-- The page before `la` is in the frame `page`, and in no other. -/
structure LastPage (p : Plan) (l : Loader) : Prop where
  above : roundDown p.low PGSIZE + PGSIZE ≤ l.la
  below : l.la ≤ p.top
  own : ∃ page, l.page = some page ∧ OwnPage l.pgdir (l.la - PGSIZE) page
  entry : ∃ page, l.pgdir.pte (l.la - PGSIZE) = pteCreate page (PTE_V ||| p.perm)

/-- The next byte is on the page at `la`, of which nothing has been written. -/
structure Ready (p : Plan) (l : Loader) : Prop where
  page : l.la ≤ l.start ∧ l.start < l.la + PGSIZE
  fresh : l.start = l.la ∨ l.start = p.low

/-- Between two rounds of a loop that goes up to `stop`. -/
structure Between (p : Plan) (stop : ℕ) (l : Loader) : Prop extends Laid p l where
  bound : l.start ≤ stop
  place : Ready p l ∨ l.start = stop ∧ stop < l.la ∧ l.la ≤ stop + PGSIZE ∧ LastPage p l

section Pages

-- the sums over all entries are not to be evaluated
attribute [local irreducible] Table.pages Table.tables

variable {p : Plan} {l : Loader} {stop off size : ℕ} {bytes : ℕ → UInt8}

/-- Up to `stop` or to the end of the page. No subtraction wraps around. -/
theorem chunk_eq {la start : ℕ} (hoff : off + la = start + PGSIZE) (hstart : start ≤ la)
    (hstop : start ≤ stop) (hla : la < 2 ^ 64) : chunk stop la off = min la stop - start := by
  have hpage : PGSIZE = 4096 := rfl
  have hsize : uint64Sub PGSIZE off = la - start := by
    rw [uint64Sub_of_le (by omega) (by decide)]
    omega
  unfold chunk
  rw [hsize]
  dsimp only
  split
  · rw [uint64Sub_of_le (Nat.le_of_lt ‹_›) hla, uint64Sub_of_le (by omega) (by omega)]
    omega
  · omega

theorem samePlace_page {la addr : ℕ} (haligned : la % PGSIZE = 0) (hla : la < USERTOP)
    (haddr : addr < USERTOP) : SamePlace la addr ↔ la ≤ addr ∧ addr < la + PGSIZE := by
  rw [samePlace_iff (usertop_lt hla) (usertop_lt haddr)]
  unfold PGSIZE at *
  omega

theorem page_add_le {la top : ℕ} (haligned : la % PGSIZE = 0) (htop : top % PGSIZE = 0)
    (hlt : la < top) : la + PGSIZE ≤ top := by
  unfold PGSIZE at *
  omega

theorem page_offset {la addr : ℕ} (haligned : la % PGSIZE = 0) (hle : la ≤ addr)
    (hlt : addr < la + PGSIZE) : addr % PGSIZE = addr - la := by
  unfold PGSIZE at *
  omega

/-- A page for the next byte. -/
theorem Laid.allocPage (h : Laid p l) (hready : Ready p l) (hroom : l.start < p.top) :
    ∃ l', l.allocPage p.perm = .ok l' ∧ (l'.page.isNone = false →
      uint64Sub l'.start l'.la = l.start - l.la ∧ l'.nextPage.start = l.start ∧
      l'.nextPage.la = l.la + PGSIZE ∧ l'.nextPage.offset = l.offset ∧ Laid p l'.nextPage ∧
      LastPage p l'.nextPage) := by
  rcases pgdirAllocPage_returns h.accounts h.checkMm l.la p.perm_lt
    with ⟨found, m', pgdir', hcall, hcheck, hnew⟩
  refine ⟨{ l with memory := m', pgdir := pgdir', page := found }, ?_, fun hfound ↦ ?_⟩
  · rw [Loader.allocPage, hcall]
    rfl
  cases found with
  | none => cases hfound
  | some page =>
    have hpage := hnew page rfl
    have hnext : l.la + PGSIZE ≤ p.top :=
      page_add_le h.aligned p.top_mod (hready.page.1.trans_lt hroom)
    have hsize : PGSIZE = 4096 := rfl
    have husertop : USERTOP = 0x80000000 := rfl
    have htop := p.top_le
    have hentry : pgdir'.pte l.la = pteCreate page (PTE_V ||| p.perm) :=
      (hpage.pte l.la).trans (if_pos ⟨rfl, rfl, rfl⟩)
    have hother : ∀ addr < USERTOP, ¬(l.la ≤ addr ∧ addr < l.la + PGSIZE) →
        pgdir'.pte addr = l.pgdir.pte addr ∧
          userByte m' pgdir' addr = userByte l.memory l.pgdir addr := by
      intro addr haddr hapart
      have hnot : ¬SamePlace l.la addr :=
        fun hsame ↦ hapart ((samePlace_page h.aligned (by omega) haddr).mp hsame)
      exact ⟨(hpage.pte addr).trans (if_neg hnot), hpage.userByte_of_not hnot⟩
    have hla : uint64 (l.la + PGSIZE) = l.la + PGSIZE := uint64_of_lt (by omega)
    unfold Loader.nextPage
    dsimp only
    rw [hla]
    refine ⟨uint64Sub_of_le hready.page.1 (by omega), rfl, rfl, rfl,
      ⟨hpage.accounts, hcheck, h.low, ?_, ?_, ?_, ?_⟩, ?_, hnext, ?_, ?_⟩
    · exact (Nat.add_mod_right ..).trans h.aligned
    · exact h.first.trans (Nat.le_add_right ..)
    · intro addr hlow hstart
      change addr < l.start at hstart
      have hbefore : addr < l.la := by
        rcases hready.fresh with heq | heq <;> omega
      rcases hother addr (by omega) (by omega) with ⟨hpte, hbyte⟩
      rcases h.seen addr hlow hstart with ⟨⟨old, hold⟩, hseen⟩
      exact ⟨⟨old, hpte.trans hold⟩, hbyte.trans hseen⟩
    · intro addr haddr hout
      have hfirst := h.first
      rcases hother addr haddr (by omega) with ⟨hpte, hbyte⟩
      rcases h.kept addr haddr hout with ⟨hold, hseen⟩
      exact ⟨hpte.trans hold, hbyte.trans hseen⟩
    · exact Nat.add_le_add_right h.first _
    · refine ⟨page, rfl, ?_⟩
      have hown := hpage.own p.perm_lt
      dsimp only
      rwa [Nat.add_sub_cancel]
    · exact ⟨page, (congrArg pgdir'.pte (Nat.add_sub_cancel ..)).trans hentry⟩

theorem Laid.withOffset (h : Laid p l) (offset : ℤ) : Laid p { l with offset } :=
  ⟨h.accounts, h.checkMm, h.low, h.aligned, h.first, h.seen, h.kept⟩

/-- A store into the last page, from `start` on. -/
theorem Laid.fill (h : Laid p l) (hlast : LastPage p l) (hoff : off + l.la = l.start + PGSIZE)
    (hsize : l.start + size ≤ l.la)
    (hwant : ∀ index < size, bytes index = p.want (l.start + index)) :
    ∃ memory, l.fill off size bytes = .ok { l with memory, start := l.start + size } ∧
      Laid p { l with memory, start := l.start + size } ∧
      LastPage p { l with memory, start := l.start + size } := by
  rcases hlast.own with ⟨page, hpage, hown⟩
  have hpgsize : PGSIZE = 4096 := rfl
  have husertop : USERTOP = 0x80000000 := rfl
  have htop := p.top_le
  have habove := hlast.above
  have hbelow := hlast.below
  have hpage' : (l.la - PGSIZE) % PGSIZE = 0 :=
    (Nat.sub_mod_eq_zero_of_mod_eq (h.aligned.trans (Nat.mod_self _).symm))
  have hsame : ∀ addr < USERTOP, SamePlace (l.la - PGSIZE) addr ↔
      l.la - PGSIZE ≤ addr ∧ addr < l.la - PGSIZE + PGSIZE :=
    fun addr haddr ↦ samePlace_page hpage' (by omega) haddr
  have hstore := store_eq l.memory page bytes (show off + size ≤ PGSIZE by omega)
  generalize hmemory : ({ l.memory with bytes := _ } : Memory) = memory at hstore
  have hview := hown.userByte_store hstore
  refine ⟨memory, ?_, ⟨?_, ?_, ?_, h.aligned, h.first, ?_, ?_⟩, habove, hbelow, hlast.own,
    hlast.entry⟩
  · rw [Loader.fill, hpage]
    dsimp only
    rw [hstore, Outcome.ok_bind, uint64_of_lt (by omega)]
    rfl
  · exact hmemory ▸ h.accounts.of_eq rfl rfl
  · exact hmemory ▸ h.checkMm
  · exact h.low.trans (Nat.le_add_right ..)
  · intro addr hlow hstart
    change addr < l.start + size at hstart
    change Sees memory l.pgdir p.perm addr (p.want addr)
    by_cases hold : addr < l.start
    · -- before the store, on this page or on another one
      rcases h.seen addr hlow hold with ⟨hentry, hbyte⟩
      refine ⟨hentry, (hview addr).trans ((if_neg ?_).trans hbyte)⟩
      rintro ⟨hplace, hin⟩
      rcases (hsame addr (by omega)).mp hplace with ⟨hle, hlt⟩
      rw [page_offset hpage' hle hlt] at hin
      omega
    · have hin : l.la - PGSIZE ≤ addr ∧ addr < l.la - PGSIZE + PGSIZE := by omega
      have hplace := (hsame addr (by omega)).mpr hin
      have hindex := page_offset hpage' hin.1 hin.2
      rcases hlast.entry with ⟨frame, hframe⟩
      refine ⟨⟨frame, (pte_congr hplace).symm.trans hframe⟩, ?_⟩
      rw [hview addr, if_pos ⟨hplace, by omega, by omega⟩, hindex, hwant _ (by omega)]
      exact congrArg (fun addr ↦ some (p.want addr)) (by omega)
  · intro addr haddr hout
    rcases h.kept addr haddr hout with ⟨hentry, hbyte⟩
    refine ⟨hentry, (hview addr).trans ((if_neg ?_).trans hbyte)⟩
    rintro ⟨hplace, -⟩
    rcases (hsame addr haddr).mp hplace with ⟨hle, hlt⟩
    omega

/-- The last page is filled up to its end, or up to `stop`. -/
theorem Laid.fillChunk (h : Laid p l) (hlast : LastPage p l)
    (hoff : off + l.la = l.start + PGSIZE) (hstart : l.start ≤ l.la) (hstop : l.start ≤ stop)
    (hwant : ∀ index < min l.la stop - l.start, bytes index = p.want (l.start + index)) :
    ∃ memory, l.fill off (chunk stop l.la off) bytes =
        .ok { l with memory, start := min l.la stop } ∧
      Between p stop { l with memory, start := min l.la stop } := by
  have hbelow := hlast.below
  have htop := p.top_le
  have husertop : USERTOP = 0x80000000 := rfl
  have hpgsize : PGSIZE = 4096 := rfl
  rw [chunk_eq hoff hstart hstop (by omega)]
  have hsum : l.start + (min l.la stop - l.start) = min l.la stop := by omega
  rcases h.fill hlast hoff (by omega) hwant with ⟨memory, hfill, hlaid, hpage⟩
  rw [hsum] at hfill hlaid hpage
  refine ⟨memory, hfill, hlaid, min_le_right .., ?_⟩
  by_cases hend : l.la ≤ stop
  · have hmin : min l.la stop = l.la := min_eq_left hend
    rw [hmin] at hlaid ⊢
    exact Or.inl ⟨⟨le_rfl, by dsimp only; omega⟩, Or.inl rfl⟩
  · have hmin : min l.la stop = stop := min_eq_right (Nat.le_of_lt (not_le.mp hend))
    rw [hmin] at hpage ⊢
    exact Or.inr ⟨rfl, not_le.mp hend, by dsimp only; omega, hpage⟩

end Pages

/-! ## The loops -/

/-- What `load_icode_read` puts into the buffer is in the file at that offset, which is none below
zero. -/
def Reads (file : ℕ → UInt8) (read : LoadIcodeRead) : Prop :=
  ∀ len offset bytes, read len offset = (0, bytes) →
    ∃ pos : ℕ, offset = pos ∧ ∀ index < len, bytes index = file (pos + index)

/-- The offset of the next byte in the file. Once something has been read it has not wrapped
around. -/
structure Follows (p : Plan) (pOffset : ℕ) (l : Loader) : Prop where
  offset : l.offset = int64 (pOffset + (l.start - p.low : ℕ))
  inside : l.start = p.low ∨ pOffset < 2 ^ 63

section Loops

-- the sums over all entries are not to be evaluated
attribute [local irreducible] Table.pages Table.tables

variable {p : Plan} {l : Loader} {stop pOffset : ℕ} {file : ℕ → UInt8} {read : LoadIcodeRead}

/-- An offset at which something was read is the one that is meant. -/
theorem pos_of_int64 {done pos : ℕ} (hpOffset : pOffset < 2 ^ 64) (hdone : done < 2 ^ 32)
    (hinside : done = 0 ∨ pOffset < 2 ^ 63) (hpos : int64 (pOffset + done : ℕ) = pos) :
    pos = pOffset + done ∧ pOffset < 2 ^ 63 := by
  unfold int64 at hpos
  omega

/-- One round of the loop over the part that is in the file. -/
theorem copyBody_round (hreads : Reads file read) (hpOffset : pOffset < 2 ^ 64)
    (hstop : stop ≤ p.top)
    (hwant : ∀ addr, p.low ≤ addr → addr < stop → p.want addr = file (pOffset + (addr - p.low)))
    (h : Between p stop l ∧ Follows p pOffset l) :
    (∃ next, copyBody read p.perm stop l = .ok (.inl next) ∧
      (Between p stop next ∧ Follows p pOffset next) ∧ stop - next.start < stop - l.start) ∨
    ∃ value, copyBody read p.perm stop l = .ok (.inr value) ∧
      (value.1 = 0 → Between p stop value.2 ∧ value.2.start = stop) := by
  rcases h with ⟨hbetween, hfollows⟩
  have htop := p.top_le
  have husertop : USERTOP = 0x80000000 := rfl
  have hpgsize : PGSIZE = 4096 := rfl
  unfold copyBody
  by_cases hlt : l.start < stop
  case neg =>
    exact Or.inr ⟨(0, l), if_neg hlt, fun _ ↦ ⟨hbetween, le_antisymm hbetween.bound (not_lt.mp hlt)⟩⟩
  rw [if_pos hlt]
  have hready : Ready p l := hbetween.place.resolve_right fun hdone ↦ hlt.ne hdone.1
  rcases hbetween.toLaid.allocPage hready (hlt.trans_le hstop) with ⟨l', halloc, hpage⟩
  rw [halloc, Outcome.ok_bind]
  cases hnone : l'.page.isNone with
  | true => exact Or.inr ⟨(-E_NO_MEM, l'), rfl, fun hret ↦ absurd hret (show -E_NO_MEM ≠ 0 by decide)⟩
  | false =>
    rcases hpage hnone with ⟨hoff, hstart, hnext, hoffset, hlaid, hlast⟩
    dsimp only
    rw [if_neg Bool.false_ne_true, hoff]
    generalize l'.nextPage = l2 at hstart hnext hoffset hlaid hlast ⊢
    have hla := hready.page
    have hbelow := hlast.below
    have hchunk : chunk stop l2.la (l.start - l.la) = min l2.la stop - l.start :=
      chunk_eq (by omega) (by omega) hbetween.bound (by omega)
    rw [hoffset, hchunk]
    rcases hread : read (min l2.la stop - l.start) l.offset with ⟨ret, bytes⟩
    dsimp only
    by_cases hret : ret = 0
    case neg =>
      rw [if_pos hret]
      exact Or.inr ⟨_, rfl, fun hzero ↦ absurd hzero hret⟩
    subst hret
    rw [if_neg (not_not.mpr rfl)]
    rcases hreads _ _ _ hread with ⟨pos, hpos, hbytes⟩
    rw [hfollows.offset] at hpos
    have hlow := hbetween.low
    rcases pos_of_int64 hpOffset (by omega) (hfollows.inside.imp (fun h ↦ by omega) id) hpos
      with ⟨hexact, hinside⟩
    have hfilled : ∃ memory, l2.fill (l.start - l.la) (chunk stop l2.la (l.start - l.la)) bytes =
        .ok { l2 with memory, start := min l2.la stop } ∧
          Between p stop { l2 with memory, start := min l2.la stop } := by
      refine hlaid.fillChunk hlast (by omega) (by omega) (by omega) fun index hindex ↦ ?_
      rw [hstart] at hindex ⊢
      rw [hbytes index hindex, hwant _ (by omega) (by omega)]
      exact congrArg file (by omega)
    rcases hfilled with ⟨memory, hfill, hafter⟩
    rw [hchunk] at hfill
    rw [hfill, Outcome.ok_bind]
    refine Or.inl ⟨_, rfl, ⟨⟨hafter.toLaid.withOffset _, hafter.bound, ?_⟩, ?_, Or.inr hinside⟩, ?_⟩
    · exact hafter.place.imp (fun h ↦ ⟨h.page, h.fresh⟩) fun h ↦
        ⟨h.1, h.2.1, h.2.2.1, h.2.2.2.above, h.2.2.2.below, h.2.2.2.own, h.2.2.2.entry⟩
    · dsimp only
      rw [hoffset, hfollows.offset, hpos]
      exact congrArg int64 (by omega)
    · dsimp only
      omega

theorem copy_returns (hreads : Reads file read) (hpOffset : pOffset < 2 ^ 64) (hstop : stop ≤ p.top)
    (hwant : ∀ addr, p.low ≤ addr → addr < stop → p.want addr = file (pOffset + (addr - p.low)))
    (h : Between p stop l) (hfollows : Follows p pOffset l) :
    ∃ value, Returns (fun fuel ↦ loop (copyBody read p.perm stop) fuel l) value ∧
      (value.1 = 0 → Between p stop value.2 ∧ value.2.start = stop) :=
  returns_loop (fun l ↦ Between p stop l ∧ Follows p pOffset l) (fun l ↦ stop - l.start)
    (fun value : ℤ × Loader ↦ value.1 = 0 → Between p stop value.2 ∧ value.2.start = stop)
    (fun _ hround ↦ copyBody_round hreads hpOffset hstop hwant hround) ⟨h, hfollows⟩

/-- The rest of a page is cleared, and the assertion after it holds. -/
theorem clearTail_eq (h : Laid p l) (hlast : LastPage p l) (hstart : l.start < l.la)
    (hpage : l.la ≤ l.start + PGSIZE) (hlt : l.start < stop)
    (hwant : ∀ addr, l.start ≤ addr → addr < stop → p.want addr = 0) :
    ∃ l', l.clearTail stop = .ok l' ∧ Between p stop l' ∧ l.start ≤ l'.start := by
  have htop := p.top_le
  have husertop : USERTOP = 0x80000000 := rfl
  have hpgsize : PGSIZE = 4096 := rfl
  have hbelow := hlast.below
  have hoff : uint64Sub (uint64 (l.start + PGSIZE)) l.la = l.start + PGSIZE - l.la := by
    rw [uint64_of_lt (by omega)]
    exact uint64Sub_of_le hpage (by omega)
  have hfilled : ∃ memory, l.fill (l.start + PGSIZE - l.la)
      (chunk stop l.la (l.start + PGSIZE - l.la)) (fun _ ↦ 0) =
        .ok { l with memory, start := min l.la stop } ∧
      Between p stop { l with memory, start := min l.la stop } :=
    h.fillChunk hlast (by omega) hstart.le hlt.le fun index hindex ↦
      (hwant _ (by omega) (by omega)).symm
  rcases hfilled with ⟨memory, hfill, hafter⟩
  refine ⟨_, ?_, hafter, by dsimp only; omega⟩
  have hassert : (stop < l.la ∧ min l.la stop = stop) ∨ (l.la ≤ stop ∧ min l.la stop = l.la) := by
    omega
  rw [Loader.clearTail, hoff, hfill, Outcome.ok_bind, Outcome.require_of_true hassert]
  rfl

/-- One round of the loop over the pages that are only cleared. -/
theorem clearBody_round (hstop : stop ≤ p.top) (h : Between p stop l)
    (hwant : ∀ addr, l.start ≤ addr → addr < stop → p.want addr = 0) :
    (∃ next, clearBody p.perm stop l = .ok (.inl next) ∧ Between p stop next ∧
      l.start < next.start) ∨
    ∃ value, clearBody p.perm stop l = .ok (.inr value) ∧
      (value.1 = 0 → Laid p value.2 ∧ value.2.start = stop) := by
  have htop := p.top_le
  have husertop : USERTOP = 0x80000000 := rfl
  have hpgsize : PGSIZE = 4096 := rfl
  unfold clearBody
  by_cases hlt : l.start < stop
  case neg =>
    exact Or.inr ⟨(0, l), if_neg hlt, fun _ ↦ ⟨h.toLaid, le_antisymm h.bound (not_lt.mp hlt)⟩⟩
  rw [if_pos hlt]
  have hready : Ready p l := h.place.resolve_right fun hdone ↦ hlt.ne hdone.1
  rcases h.toLaid.allocPage hready (hlt.trans_le hstop) with ⟨l', halloc, hpage⟩
  rw [halloc, Outcome.ok_bind]
  cases hnone : l'.page.isNone with
  | true =>
    exact Or.inr ⟨(-E_NO_MEM, l'), rfl, fun hret ↦ absurd hret (show -E_NO_MEM ≠ 0 by decide)⟩
  | false =>
    rcases hpage hnone with ⟨hoff, hstart, hnext, -, hlaid, hlast⟩
    dsimp only
    rw [if_neg Bool.false_ne_true, hoff]
    generalize l'.nextPage = l2 at hstart hnext hlaid hlast ⊢
    have hla := hready.page
    have hbelow := hlast.below
    have hfilled : ∃ memory, l2.fill (l.start - l.la) (chunk stop l2.la (l.start - l.la))
        (fun _ ↦ 0) = .ok { l2 with memory, start := min l2.la stop } ∧
          Between p stop { l2 with memory, start := min l2.la stop } :=
      hlaid.fillChunk hlast (by omega) (by omega) (by omega) fun index hindex ↦
        (hwant _ (by omega) (by omega)).symm
    rcases hfilled with ⟨memory, hfill, hafter⟩
    rw [hfill, Outcome.ok_bind]
    exact Or.inl ⟨_, rfl, hafter, by dsimp only; omega⟩

theorem clear_returns (hstop : stop ≤ p.top) (h : Between p stop l)
    (hwant : ∀ addr, l.start ≤ addr → addr < stop → p.want addr = 0) :
    ∃ value, Returns (fun fuel ↦ loop (clearBody p.perm stop) fuel l) value ∧
      (value.1 = 0 → Laid p value.2 ∧ value.2.start = stop) := by
  refine returns_loop (fun next ↦ Between p stop next ∧ l.start ≤ next.start)
    (fun next ↦ stop - next.start)
    (fun value : ℤ × Loader ↦ value.1 = 0 → Laid p value.2 ∧ value.2.start = stop)
    (fun next hnext ↦ ?_) ⟨h, le_rfl⟩
  rcases clearBody_round hstop hnext.1 fun addr hle ↦ hwant addr (hnext.2.trans hle)
    with ⟨after, hbody, hafter, hlt⟩ | hleft
  · have hbound := hafter.bound
    exact Or.inl ⟨after, hbody, ⟨hafter, hnext.2.trans hlt.le⟩, by omega⟩
  · exact Or.inr hleft

end Loops

/-! ## One header -/

/-- The byte that the segment has at an address. -/
def ProgHdr.image (ph : ProgHdr) (file : ℕ → UInt8) (addr : ℕ) : UInt8 :=
  if addr < ph.pVa + ph.pFilesz then file (ph.pOffset + (addr - ph.pVa)) else 0

/-- The whole pages of a segment. -/
def ProgHdr.first (ph : ProgHdr) : ℕ := roundDown ph.pVa PGSIZE
def ProgHdr.last (ph : ProgHdr) : ℕ := roundUp (ph.pVa + ph.pMemsz) PGSIZE

section Header

-- the sums over all entries are not to be evaluated
attribute [local irreducible] Table.pages Table.tables

variable {ph : ProgHdr} {file : ℕ → UInt8} {read : LoadIcodeRead}

theorem ProgHdr.perm_lt (ph : ProgHdr) : ph.perm < 2 ^ 10 := by
  unfold ProgHdr.perm
  split <;> split <;> split <;> decide

theorem ProgHdr.last_le (h : ph.pVa + ph.pMemsz ≤ USERTOP) : ph.last ≤ USERTOP := by
  unfold ProgHdr.last roundUp roundDown PGSIZE
  unfold USERTOP at *
  omega

theorem ProgHdr.le_last (ph : ProgHdr) : ph.pVa + ph.pMemsz ≤ ph.last := by
  unfold ProgHdr.last roundUp roundDown PGSIZE
  omega

theorem ProgHdr.first_le (ph : ProgHdr) : ph.first ≤ ph.pVa ∧ ph.pVa < ph.first + PGSIZE := by
  unfold ProgHdr.first roundDown PGSIZE
  omega

/-- What becomes of a segment. -/
def ProgHdr.plan (ph : ProgHdr) (file : ℕ → UInt8) (others : Multiset Frame) (memory : Memory)
    (pgdir : Pgdir) (h : ph.pVa + ph.pMemsz ≤ USERTOP) : Plan where
  others := others
  memory := memory
  pgdir := pgdir
  low := ph.pVa
  top := ph.last
  perm := ph.perm
  want := ph.image file
  top_le := ProgHdr.last_le h
  top_mod := roundDown_mod _
  perm_lt := ph.perm_lt

/-- All pages of a segment, or an error. -/
theorem loadPages_returns (hreads : Reads file read) (hpOffset : ph.pOffset < 2 ^ 64)
    (htop : ph.pVa + ph.pMemsz ≤ USERTOP) (hsize : ph.pFilesz ≤ ph.pMemsz) {m : Memory}
    {pgdir : Pgdir} {others : Multiset Frame} (h : Accounts m (others + pgdir.frames))
    (hcheck : m.checkMm = none) (page : Option Frame) :
    ∃ value, Returns (fun fuel ↦ Loader.loadPages
        ⟨m, pgdir, page, ph.pVa, ph.first, int64 ph.pOffset⟩ read ph fuel) value ∧
      (value.1 = 0 → Laid (ph.plan file others m pgdir htop) value.2 ∧
        value.2.start = ph.pVa + ph.pMemsz) := by
  have husertop : USERTOP = 0x80000000 := rfl
  have hlast := ph.le_last
  obtain ⟨p, hp⟩ : ∃ p, p = ph.plan file others m pgdir htop := ⟨_, rfl⟩
  have hlow : p.low = ph.pVa := hp ▸ rfl
  have hptop : p.top = ph.last := hp ▸ rfl
  have hperm : p.perm = ph.perm := hp ▸ rfl
  have hwant : ∀ addr, p.want addr = ph.image file addr := hp ▸ fun _ ↦ rfl
  have hfirst : Between p (ph.pVa + ph.pFilesz)
      ⟨m, pgdir, page, ph.pVa, ph.first, int64 ph.pOffset⟩ := by
    rw [hp]
    refine ⟨⟨h, hcheck, le_rfl, roundDown_mod _, le_rfl, fun addr hle hlt ↦ ?_,
      fun _ _ _ ↦ ⟨rfl, rfl⟩⟩, Nat.le_add_right .., Or.inl ⟨ph.first_le, Or.inr rfl⟩⟩
    exact absurd hlt (not_lt.mpr hle)
  have hfollows : Follows p ph.pOffset ⟨m, pgdir, page, ph.pVa, ph.first, int64 ph.pOffset⟩ := by
    refine ⟨?_, Or.inl hlow.symm⟩
    dsimp only
    rw [hlow, Nat.sub_self]
    rfl
  have hcopied : ∃ value, Returns (fun fuel ↦ loop (copyBody read ph.perm
      (uint64 (ph.pVa + ph.pFilesz))) fuel ⟨m, pgdir, page, ph.pVa, ph.first, int64 ph.pOffset⟩)
        value ∧ (value.1 = 0 → Between p (ph.pVa + ph.pFilesz) value.2 ∧
          value.2.start = ph.pVa + ph.pFilesz) := by
    rw [uint64_of_lt (by omega), ← hperm]
    refine copy_returns hreads hpOffset (by omega) (fun addr hle hlt ↦ ?_) hfirst hfollows
    rw [hwant, hlow]
    exact if_pos hlt
  rcases hcopied with ⟨⟨ret, l⟩, hcopy, hpost⟩
  rw [← hp]
  by_cases hret : ret = 0
  case neg =>
    exact ⟨(ret, l), hcopy.bind (.of_eq fun _ ↦ if_pos hret), fun hzero ↦ absurd hzero hret⟩
  subst hret
  rcases hpost rfl with ⟨hbetween, hstart⟩
  dsimp only at hbetween hstart
  have hstop : uint64 (ph.pVa + ph.pMemsz) = ph.pVa + ph.pMemsz := uint64_of_lt (by omega)
  -- behind the part that is in the file there are only zeros
  have hzero : ∀ addr, ph.pVa + ph.pFilesz ≤ addr → p.want addr = 0 := by
    intro addr hle
    rw [hwant]
    exact if_neg (not_lt.mpr hle)
  have hclear : ∀ l', Between p (ph.pVa + ph.pMemsz) l' → l.start ≤ l'.start →
      ∃ value, Returns (fun fuel ↦ loop (clearBody ph.perm (ph.pVa + ph.pMemsz)) fuel l') value ∧
        (value.1 = 0 → Laid p value.2 ∧ value.2.start = ph.pVa + ph.pMemsz) := by
    intro l' hl' hle
    rw [← hperm]
    exact clear_returns (by omega) hl' fun addr haddr _ ↦ hzero addr (by omega)
  rcases hbetween.place with hready | ⟨-, hbefore, hpage, hlastPage⟩
  · have hnot : ¬l.start < l.la := not_lt.mpr hready.page.1
    rcases hclear l ⟨hbetween.toLaid, by omega, Or.inl hready⟩ le_rfl with ⟨value, hvalue, hafter⟩
    refine ⟨value, hcopy.bind (.congr (fun fuel ↦ ?_) hvalue), hafter⟩
    rw [hstop]
    exact (if_neg (not_not.mpr rfl)).trans (if_neg hnot)
  · have hlt : l.start < l.la := hstart ▸ hbefore
    by_cases hend : l.start = ph.pVa + ph.pMemsz
    · refine ⟨(0, l), hcopy.bind (.of_eq fun fuel ↦ ?_), fun _ ↦ ⟨hbetween.toLaid, hend⟩⟩
      rw [hstop]
      exact (if_neg (not_not.mpr rfl)).trans ((if_pos hlt).trans (if_pos hend))
    · have htail : ∃ l', l.clearTail (ph.pVa + ph.pMemsz) = .ok l' ∧
          Between p (ph.pVa + ph.pMemsz) l' ∧ l.start ≤ l'.start :=
        clearTail_eq hbetween.toLaid hlastPage hlt (by omega) (by omega) fun addr hle _ ↦
          hzero addr (by omega)
      rcases htail with ⟨l', htail, hl', hle⟩
      rcases hclear l' hl' hle with ⟨value, hvalue, hafter⟩
      refine ⟨value, hcopy.bind (.congr (fun fuel ↦ ?_) hvalue), hafter⟩
      rw [hstop]
      refine (if_neg (not_not.mpr rfl)).trans ((if_pos hlt).trans ((if_neg hend).trans ?_))
      rw [htail]
      rfl

/-- A call of `mm_map` for pages that are in no area: it fails, or there is one area more. -/
theorem mmMap_apart {mm : MmStruct} {kmalloc : Bool} {addr len vmFlags : ℕ} (h : Counted mm)
    (htop : addr + len ≤ USERTOP)
    (hapart : ∀ vma ∈ mm.mmapList, ∀ la, vma.Contains la →
      ¬(roundDown addr PGSIZE ≤ la ∧ la < roundUp (addr + len) PGSIZE)) :
    ∃ ret mm', mm.mmMap kmalloc addr len vmFlags = .ok (ret, mm') ∧ (ret = 0 → Counted mm' ∧
      mm'.pgdir = mm.pgdir ∧ ∀ vma, vma ∈ mm'.mmapList ↔
        vma = ⟨roundDown addr PGSIZE, roundUp (addr + len) PGSIZE, vmFlags⟩ ∨
          vma ∈ mm.mmapList) := by
  have husertop : USERTOP = 0x80000000 := rfl
  by_cases haccess : UserAccess (roundDown addr PGSIZE) (mapStop addr len)
  case neg => exact ⟨_, _, mmMap_outside haccess, fun hret ↦ absurd hret (by decide)⟩
  have hstop := roundUp_eq (by omega) (by omega) (by omega) haccess
  rw [← hstop] at hapart ⊢
  have hpos := haccess.2.1
  have hnone : ∀ vma ∈ mm.mmapList, ¬vma.Contains (roundDown addr PGSIZE) :=
    fun vma hvma hcontains ↦ hapart vma hvma _ hcontains ⟨le_rfl, hpos⟩
  have hfree : ∀ vma ∈ mm.mmapList,
      ¬vma.Overlaps (roundDown addr PGSIZE) (mapStop addr len) := by
    rintro vma hvma ⟨hlt, hlt'⟩
    have hwhole := (h.whole vma hvma).access.2.1
    -- two ranges meet in the larger one of their first addresses
    refine hapart vma hvma (max vma.vmStart (roundDown addr PGSIZE)) ⟨?_, ?_⟩ ⟨?_, ?_⟩ <;> omega
  have hcall := mmMap_insert kmalloc vmFlags h.toWellFormed haccess hnone
  cases kmalloc with
  | false => exact ⟨_, _, hcall, fun hret ↦ absurd hret (by decide)⟩
  | true =>
    have hwhole : Vma.Whole ⟨roundDown addr PGSIZE, mapStop addr len, vmFlags⟩ :=
      ⟨haccess, roundDown_mod addr, mapStop_mod addr len⟩
    have hinsert := (insertVmaStruct_eq h.toWellFormed hwhole hfree).1
    rw [if_pos rfl, hinsert, Outcome.ok_bind] at hcall
    exact ⟨0, _, hcall, fun _ ↦ ⟨(h.insertVmaStruct hwhole hinsert).1, rfl, fun vma ↦
      mem_insertVmaStruct hinsert⟩⟩

end Header

/-! ## The loop over the headers -/

/-- The flags of a segment ask for the access. A page that can be written can be read. -/
def ProgHdr.Asks (ph : ProgHdr) : Access → Prop
  | .fetch => ph.pFlags &&& ELF_PF_X ≠ 0
  | .load => ph.pFlags &&& ELF_PF_R ≠ 0 ∨ ph.pFlags &&& ELF_PF_W ≠ 0
  | .store => ph.pFlags &&& ELF_PF_W ≠ 0

/-- The segment is in memory, byte by byte, with its rights. -/
structure ProgHdr.InMemory (ph : ProgHdr) (file : ℕ → UInt8) (m : Memory) (pgdir : Pgdir) :
    Prop where
  size : ph.pFilesz ≤ ph.pMemsz
  copied : ∀ index < ph.pFilesz,
    userByte m pgdir (ph.pVa + index) = some (file (ph.pOffset + index))
  cleared : ∀ index < ph.pMemsz, ph.pFilesz ≤ index →
    userByte m pgdir (ph.pVa + index) = some 0
  user : ∀ index < ph.pMemsz, pgdir.pte (ph.pVa + index) &&& PTE_U ≠ 0
  grants : ∀ index < ph.pMemsz, ∀ access,
    Grants (pgdir.pte (ph.pVa + index)) access ↔ ph.Asks access

/-- The address is on a page of the segment. -/
def ProgHdr.Covers (ph : ProgHdr) (addr : ℕ) : Prop := ph.first ≤ addr ∧ addr < ph.last

/-- The header of a file, and its program headers. -/
def elfHdr (file : ℕ → UInt8) : ElfHdr := .read file

def progHdr (file : ℕ → UInt8) (phnum : ℕ) : ProgHdr :=
  .read fun index ↦ file (uint64 ((elfHdr file).ePhoff + PROGHDR_SIZE * phnum) + index)

/-- One of the program headers is for a segment that is loaded. -/
def Loads (file : ℕ → UInt8) (phnum : ℕ) : Prop :=
  phnum < (elfHdr file).ePhnum ∧ (progHdr file phnum).pType = ELF_PT_LOAD

/-- The segments of a file are in the user half, and no two of them have a page in common. -/
structure Segmented (file : ℕ → UInt8) : Prop where
  inside : ∀ phnum, Loads file phnum →
    (progHdr file phnum).pVa + (progHdr file phnum).pMemsz ≤ USERTOP
  apart : ∀ phnum other, Loads file phnum → Loads file other → phnum ≠ other → ∀ addr,
    ¬((progHdr file phnum).Covers addr ∧ (progHdr file other).Covers addr)

/-- Before the header with the number `phnum`. -/
structure SoFar (file : ℕ → UInt8) (others : Multiset Frame) (phnum : ℕ) (s : Loading) : Prop where
  counted : Counted s.mm
  accounts : Accounts s.memory (others + s.mm.pgdir.frames)
  checkMm : s.memory.checkMm = none
  areas : ∀ vma ∈ s.mm.mmapList, ∃ other < phnum, Loads file other ∧
    ∀ la, vma.Contains la → (progHdr file other).Covers la
  loaded : ∀ other < phnum, Loads file other →
    (progHdr file other).InMemory file s.memory s.mm.pgdir

section Headers

-- the sums over all entries are not to be evaluated
attribute [local irreducible] Table.pages Table.tables

variable {ph : ProgHdr} {file : ℕ → UInt8} {read : LoadIcodeRead} {others : Multiset Frame}
  {phnum : ℕ} {s : Loading}

theorem perm_and (page : Frame) (ph : ProgHdr) {mask : ℕ} (hmask : mask < 2 ^ 10) :
    pteCreate page (PTE_V ||| ph.perm) &&& mask = (PTE_V ||| (PTE_V ||| ph.perm)) &&& mask :=
  pteCreate_and _ _ hmask

theorem grants_perm (page : Frame) (ph : ProgHdr) : (pteCreate page (PTE_V ||| ph.perm) &&& PTE_U ≠ 0) ∧
    ∀ access, Grants (pteCreate page (PTE_V ||| ph.perm)) access ↔ ph.Asks access := by
  have hmask : PTE_U < 2 ^ 10 ∧ PTE_X < 2 ^ 10 ∧ PTE_R < 2 ^ 10 ∧ PTE_W < 2 ^ 10 := by decide
  have hall : ((PTE_V ||| (PTE_V ||| ph.perm)) &&& PTE_U ≠ 0) ∧
      ((PTE_V ||| (PTE_V ||| ph.perm)) &&& PTE_X ≠ 0 ↔ ph.Asks .fetch) ∧
      ((PTE_V ||| (PTE_V ||| ph.perm)) &&& PTE_R ≠ 0 ↔ ph.Asks .load) ∧
      ((PTE_V ||| (PTE_V ||| ph.perm)) &&& PTE_W ≠ 0 ↔ ph.Asks .store) := by
    unfold ProgHdr.perm ProgHdr.vmFlags ProgHdr.Asks
    -- only which of the three flags are set matters
    generalize ph.pFlags &&& ELF_PF_X = x
    generalize ph.pFlags &&& ELF_PF_W = w
    generalize ph.pFlags &&& ELF_PF_R = r
    by_cases hx : x = 0 <;> by_cases hw : w = 0 <;> by_cases hr : r = 0 <;>
      simp only [ne_eq, hx, hw, hr, not_true_eq_false, not_false_eq_true, if_true, if_false] <;>
      decide
  refine ⟨?_, fun access ↦ ?_⟩
  · rw [perm_and _ _ hmask.1]
    exact hall.1
  · cases access
    · rw [Grants, perm_and _ _ hmask.2.1]
      exact hall.2.1
    · rw [Grants, perm_and _ _ hmask.2.2.1]
      exact hall.2.2.1
    · rw [Grants, perm_and _ _ hmask.2.2.2]
      exact hall.2.2.2

/-- Once `start` is at the end of the segment, all of it is there. -/
theorem Laid.inMemory {m : Memory} {pgdir : Pgdir} {l : Loader}
    {htop : ph.pVa + ph.pMemsz ≤ USERTOP} (h : Laid (ph.plan file others m pgdir htop) l)
    (hstart : l.start = ph.pVa + ph.pMemsz) (hsize : ph.pFilesz ≤ ph.pMemsz) :
    ph.InMemory file l.memory l.pgdir := by
  have hseen : ∀ index < ph.pMemsz,
      Sees l.memory l.pgdir ph.perm (ph.pVa + index) (ph.image file (ph.pVa + index)) :=
    fun index hindex ↦ h.seen _ (Nat.le_add_right ..) (by omega)
  refine ⟨hsize, fun index hindex ↦ ?_, fun index hindex hle ↦ ?_, fun index hindex ↦ ?_,
    fun index hindex ↦ ?_⟩
  · rw [(hseen index (hindex.trans_le hsize)).byte, ProgHdr.image, if_pos (by omega),
      Nat.add_sub_cancel_left]
  · rw [(hseen index hindex).byte, ProgHdr.image, if_neg (by omega)]
  · rcases (hseen index hindex).entry with ⟨page, hentry⟩
    exact hentry ▸ (grants_perm page ph).1
  · rcases (hseen index hindex).entry with ⟨page, hentry⟩
    exact hentry ▸ (grants_perm page ph).2

/-- A segment is not touched by what happens outside of its pages. -/
theorem ProgHdr.InMemory.congr {m m' : Memory} {pgdir pgdir' : Pgdir}
    (h : ph.InMemory file m pgdir) (hsame : ∀ index < ph.pMemsz,
      pgdir'.pte (ph.pVa + index) = pgdir.pte (ph.pVa + index) ∧
        userByte m' pgdir' (ph.pVa + index) = userByte m pgdir (ph.pVa + index)) :
    ph.InMemory file m' pgdir' where
  size := h.size
  copied := fun index hindex ↦
    (hsame index (hindex.trans_le h.size)).2.trans (h.copied index hindex)
  cleared := fun index hindex hle ↦ (hsame index hindex).2.trans (h.cleared index hindex hle)
  user := fun index hindex ↦ (hsame index hindex).1 ▸ h.user index hindex
  grants := fun index hindex ↦ (hsame index hindex).1 ▸ h.grants index hindex

theorem ProgHdr.covers (ph : ProgHdr) {index : ℕ} (hindex : index < ph.pMemsz) :
    ph.Covers (ph.pVa + index) := by
  have hfirst := ph.first_le
  have hlast := ph.le_last
  exact ⟨by omega, by omega⟩

/-- A header that asks for nothing. -/
theorem SoFar.skip (h : SoFar file others phnum s) (hskip : ¬Loads file phnum) :
    SoFar file others (phnum + 1) s := by
  refine ⟨h.counted, h.accounts, h.checkMm, fun vma hvma ↦ ?_, fun other hother hloads ↦ ?_⟩
  · rcases h.areas vma hvma with ⟨other, hother, hrest⟩
    exact ⟨other, Nat.lt_succ_of_lt hother, hrest⟩
  · rcases Nat.lt_succ_iff_lt_or_eq.mp hother with hold | rfl
    · exact h.loaded other hold hloads
    · exact absurd hloads hskip

/-- What one header does: it is refused, or its segment is in memory as well. -/
theorem loadSegment_returns (hreads : Reads file read) (hfile : Segmented file)
    (h : SoFar file others phnum s) (hphnum : phnum < (elfHdr file).ePhnum) (kmalloc : Bool) :
    ∃ value, Returns (fun fuel ↦ s.loadSegment read kmalloc (progHdr file phnum) fuel) value ∧
      (value.1 = 0 → SoFar file others (phnum + 1) value.2) := by
  by_cases htype : (progHdr file phnum).pType = ELF_PT_LOAD
  case neg =>
    exact ⟨(0, s), .of_eq fun _ ↦ if_pos htype, fun _ ↦ h.skip fun hloads ↦ htype hloads.2⟩
  have hloads : Loads file phnum := ⟨hphnum, htype⟩
  have hpOffset : (progHdr file phnum).pOffset < 2 ^ 64 := ofBytes_lt _ 8
  by_cases hsize : (progHdr file phnum).pMemsz < (progHdr file phnum).pFilesz
  · refine ⟨(-E_INVAL_ELF, s), .of_eq fun _ ↦ ?_,
      fun hret ↦ absurd hret (show -E_INVAL_ELF ≠ 0 by decide)⟩
    exact (if_neg (not_not.mpr htype)).trans (if_pos hsize)
  have htop := hfile.inside phnum hloads
  have hmapped : ∃ ret mm', s.mm.mmMap kmalloc (progHdr file phnum).pVa
      (progHdr file phnum).pMemsz (progHdr file phnum).vmFlags = .ok (ret, mm') ∧ (ret = 0 →
        Counted mm' ∧ mm'.pgdir = s.mm.pgdir ∧ ∀ vma, vma ∈ mm'.mmapList ↔
          vma = ⟨(progHdr file phnum).first, (progHdr file phnum).last,
            (progHdr file phnum).vmFlags⟩ ∨ vma ∈ s.mm.mmapList) := by
    refine mmMap_apart h.counted htop fun vma hvma la hcontains hcovers ↦ ?_
    rcases h.areas vma hvma with ⟨other, hother, hold, hinside⟩
    exact hfile.apart phnum other hloads hold hother.ne' la ⟨hcovers, hinside la hcontains⟩
  rcases hmapped with ⟨ret, mm, hmap, hpost⟩
  have hcall : ∀ fuel, s.loadSegment read kmalloc (progHdr file phnum) fuel =
      if ret ≠ 0 then .ok (ret, { s with mm }) else
        Loader.loadPages ⟨s.memory, mm.pgdir, s.page, (progHdr file phnum).pVa,
          (progHdr file phnum).first, int64 (progHdr file phnum).pOffset⟩ read (progHdr file phnum)
            fuel >>= fun result ↦
              .ok (result.1, ⟨result.2.memory, { mm with pgdir := result.2.pgdir }, result.2.page⟩) := by
    intro fuel
    refine (if_neg (not_not.mpr htype)).trans ((if_neg hsize).trans ?_)
    rw [hmap]
    rfl
  by_cases hret : ret = 0
  case neg =>
    exact ⟨_, .of_eq fun fuel ↦ (hcall fuel).trans (if_pos hret), fun hzero ↦ absurd hzero hret⟩
  rcases hpost hret with ⟨hcounted, hpgdir, hareas⟩
  have haccounts : Accounts s.memory (others + mm.pgdir.frames) := hpgdir ▸ h.accounts
  rcases loadPages_returns hreads hpOffset htop (not_lt.mp hsize) haccounts h.checkMm s.page
    with ⟨⟨result, l⟩, hpages, hdone⟩
  refine ⟨(result, ⟨l.memory, { mm with pgdir := l.pgdir }, l.page⟩), ?_, fun hzero ↦ ?_⟩
  · refine .congr (fun fuel ↦ (hcall fuel).trans (if_neg (not_not.mpr hret))) ?_
    exact hpages.bind (.of_eq fun _ ↦ rfl)
  rcases hdone hzero with ⟨hlaid, hstart⟩
  refine ⟨⟨⟨hcounted.whole, hcounted.sorted, hcounted.cached⟩, hcounted.mapCount⟩, hlaid.accounts,
    hlaid.checkMm, fun vma hvma ↦ ?_, fun other hother hold ↦ ?_⟩
  · rcases (hareas vma).mp hvma with rfl | hvma
    · exact ⟨phnum, Nat.lt_succ_self _, hloads, fun la hla ↦ hla⟩
    · rcases h.areas vma hvma with ⟨other, hother, hrest⟩
      exact ⟨other, Nat.lt_succ_of_lt hother, hrest⟩
  · rcases Nat.lt_succ_iff_lt_or_eq.mp hother with hbefore | rfl
    · refine (h.loaded other hbefore hold).congr fun index hindex ↦ ?_
      have hcovers := (progHdr file other).covers hindex
      have hinside := hfile.inside other hold
      have hnot : ¬(progHdr file phnum).Covers ((progHdr file other).pVa + index) := fun hboth ↦
        hfile.apart phnum other hloads hold hbefore.ne' _ ⟨hboth, hcovers⟩
      have hout : (progHdr file other).pVa + index < (progHdr file phnum).first ∨
          (progHdr file phnum).last ≤ (progHdr file other).pVa + index := by
        unfold ProgHdr.Covers at hnot
        omega
      have hkept := hlaid.kept ((progHdr file other).pVa + index) (by omega) hout
      rw [← hpgdir]
      exact hkept
    · exact hlaid.inMemory hstart (not_lt.mp hsize)

theorem progHdr_read_congr {bytes other : ℕ → UInt8}
    (h : ∀ index < PROGHDR_SIZE, other index = bytes index) :
    ProgHdr.read other = ProgHdr.read bytes := by
  have hfield : ∀ base count, base + count ≤ PROGHDR_SIZE →
      ofBytes (fun index ↦ other (base + index)) count =
        ofBytes (fun index ↦ bytes (base + index)) count :=
    fun base count hle ↦ ofBytes_congr fun index hindex ↦ h _ (by omega)
  have hfirst : ofBytes other 4 = ofBytes bytes 4 :=
    ofBytes_congr fun index hindex ↦ h index (hindex.trans (by decide))
  unfold ProgHdr.read
  rw [hfirst, hfield 4 4 (by decide), hfield 8 8 (by decide), hfield 16 8 (by decide),
    hfield 32 8 (by decide), hfield 40 8 (by decide)]

theorem elfHdr_read_congr {bytes other : ℕ → UInt8}
    (h : ∀ index < ELFHDR_SIZE, other index = bytes index) :
    ElfHdr.read other = ElfHdr.read bytes := by
  have hfield : ∀ base count, base + count ≤ ELFHDR_SIZE →
      ofBytes (fun index ↦ other (base + index)) count =
        ofBytes (fun index ↦ bytes (base + index)) count :=
    fun base count hle ↦ ofBytes_congr fun index hindex ↦ h _ (by omega)
  have hfirst : ofBytes other 4 = ofBytes bytes 4 :=
    ofBytes_congr fun index hindex ↦ h index (hindex.trans (by decide))
  unfold ElfHdr.read
  rw [hfirst, hfield 32 8 (by decide), hfield 56 2 (by decide)]

/-- A header that is read is the one in the file. -/
theorem progHdr_of_read (hreads : Reads file read) {bytes : ℕ → UInt8}
    (hread : read PROGHDR_SIZE
      (int64 (uint64 ((elfHdr file).ePhoff + PROGHDR_SIZE * phnum))) = (0, bytes)) :
    ProgHdr.read bytes = progHdr file phnum := by
  rcases hreads _ _ _ hread with ⟨pos, hpos, hbytes⟩
  have hsame : pos = uint64 ((elfHdr file).ePhoff + PROGHDR_SIZE * phnum) := by
    unfold int64 uint64 at *
    omega
  rw [progHdr, ← hsame]
  exact progHdr_read_congr hbytes

/-- All headers that are left, one after the other. -/
theorem loadSegments_returns (hreads : Reads file read) (hfile : Segmented file)
    (kmalloc : ℕ → Bool) (left : ℕ) (hleft : phnum + left = (elfHdr file).ePhnum)
    (h : SoFar file others phnum s) :
    ∃ value, Returns (fun fuel ↦ s.loadSegments read kmalloc (elfHdr file) fuel left phnum) value ∧
      (value.1 = 0 → SoFar file others (elfHdr file).ePhnum value.2) := by
  induction left generalizing phnum s with
  | zero => exact ⟨(0, s), .of_eq fun _ ↦ rfl, fun _ ↦ hleft ▸ h⟩
  | succ left ih =>
    rcases hread : read PROGHDR_SIZE (int64 (uint64 ((elfHdr file).ePhoff + PROGHDR_SIZE * phnum)))
      with ⟨ret, bytes⟩
    have hcall : ∀ fuel, s.loadSegments read kmalloc (elfHdr file) fuel (left + 1) phnum =
        if ret ≠ 0 then .ok (ret, s) else
          s.loadSegment read (kmalloc phnum) (.read bytes) fuel >>= fun result ↦
            if result.1 ≠ 0 then .ok (result.1, result.2) else
              result.2.loadSegments read kmalloc (elfHdr file) fuel left (phnum + 1) := by
      intro fuel
      rw [Loading.loadSegments, hread]
      rfl
    by_cases hret : ret = 0
    case neg =>
      exact ⟨_, .of_eq fun fuel ↦ (hcall fuel).trans (if_pos hret), fun hzero ↦ absurd hzero hret⟩
    subst hret
    rw [progHdr_of_read hreads hread] at hcall
    rcases loadSegment_returns hreads hfile h (by omega) (kmalloc phnum)
      with ⟨⟨result, next⟩, hsegment, hnext⟩
    by_cases hresult : result = 0
    case neg =>
      refine ⟨(result, next), .congr (fun fuel ↦ (hcall fuel).trans (if_neg (not_not.mpr rfl))) ?_,
        fun hzero ↦ absurd hzero hresult⟩
      exact hsegment.bind (.of_eq fun _ ↦ if_pos hresult)
    rcases ih (by omega) (hnext hresult) with ⟨value, hrest, hdone⟩
    refine ⟨value, .congr (fun fuel ↦ (hcall fuel).trans (if_neg (not_not.mpr rfl))) ?_, hdone⟩
    exact hsegment.bind (.congr (fun _ ↦ if_neg (not_not.mpr hresult)) hrest)

/-- In a new address space `load_icode` gets through its headers without a failed assertion, and
when it accepts all of them each segment is in memory, with its rights. -/
theorem loadIcode_inMemory (hreads : Reads file read) (hfile : Segmented file)
    (kmalloc : ℕ → Bool) (start : AddressSpace) (hnew : NewSpace start)
    (hcheck : start.memory.checkMm = none) :
    ∃ ret s, Returns (fun fuel ↦ Loading.loadIcode ⟨start.memory, start.mm, none⟩ read kmalloc fuel)
        (ret, s) ∧
      (ret = 0 → ∀ phnum, Loads file phnum →
        (progHdr file phnum).InMemory file s.memory s.mm.pgdir) := by
  have hfirst : SoFar file start.others 0 ⟨start.memory, start.mm, none⟩ := by
    have haccounts := (built_new hnew).accounts
    rcases hnew with ⟨m, pgdir, -, -, hmm⟩
    rw [hmm] at haccounts ⊢
    exact ⟨⟨⟨nofun, List.Pairwise.nil, nofun⟩, rfl⟩, haccounts, hcheck, nofun,
      fun _ hlt ↦ absurd hlt (Nat.not_lt_zero _)⟩
  rcases hread : read ELFHDR_SIZE 0 with ⟨ret, bytes⟩
  by_cases hret : ret = 0
  case neg =>
    refine ⟨ret, ⟨start.memory, start.mm, none⟩, .of_eq fun fuel ↦ ?_,
      fun hzero ↦ absurd hzero hret⟩
    rw [Loading.loadIcode, hread]
    exact if_pos hret
  subst hret
  have helf : ElfHdr.read bytes = elfHdr file := by
    rcases hreads _ _ _ hread with ⟨pos, hpos, hbytes⟩
    obtain rfl : pos = 0 := by omega
    exact elfHdr_read_congr fun index hindex ↦
      (hbytes index hindex).trans (congrArg file (Nat.zero_add _))
  by_cases hmagic : (elfHdr file).eMagic = ELF_MAGIC
  case neg =>
    refine ⟨-E_INVAL_ELF, ⟨start.memory, start.mm, none⟩, .of_eq fun fuel ↦ ?_,
      fun hzero ↦ absurd hzero (by decide)⟩
    rw [Loading.loadIcode, hread]
    dsimp only
    rw [helf]
    exact if_pos hmagic
  rcases loadSegments_returns hreads hfile kmalloc (elfHdr file).ePhnum (Nat.zero_add _) hfirst
    with ⟨⟨result, s⟩, hreturns, hdone⟩
  refine ⟨result, s, .congr (fun fuel ↦ ?_) hreturns, fun hzero phnum hloads ↦
    (hdone hzero).loaded phnum hloads.1 hloads⟩
  rw [Loading.loadIcode, hread]
  dsimp only
  rw [helf]
  exact (if_neg (not_not.mpr rfl)).trans (if_neg (not_not.mpr hmagic))

end Headers

/-! ## Two segments -/

/-- `load_icode_read` from a file that never fails but for offsets below zero. -/
def readFile (file : ℕ → UInt8) : LoadIcodeRead := fun _ offset ↦
  if offset < 0 then (-E_INVAL, fun _ ↦ 0) else (0, fun index ↦ file (offset.toNat + index))

theorem reads_readFile (file : ℕ → UInt8) : Reads file (readFile file) := by
  intro len offset bytes hread
  unfold readFile at hread
  split at hread
  · cases hread
  · rename_i hpos
    cases hread
    exact ⟨offset.toNat, (Int.toNat_of_nonneg (not_lt.mp hpos)).symm, fun _ _ ↦ rfl⟩

/-- A file with a segment of three bytes that takes a page in memory, and starts in the middle of
one, and a segment of two bytes that can be written. -/
def twoSegments : ℕ → UInt8 := fun index ↦
  [0x7f, 0x45, 0x4c, 0x46, 0, 0, 0, 0, 0, 0, 0, 0, 0, 0, 0, 0,
    0, 0, 0, 0, 0, 0, 0, 0, 0, 0, 0, 0, 0, 0, 0, 0,
    64, 0, 0, 0, 0, 0, 0, 0, 0, 0, 0, 0, 0, 0, 0, 0,
    0, 0, 0, 0, 0, 0, 0, 0, 2, 0, 0, 0, 0, 0, 0, 0,
    1, 0, 0, 0, 5, 0, 0, 0, 176, 0, 0, 0, 0, 0, 0, 0,
    16, 0, 0x20, 0, 0, 0, 0, 0, 0, 0, 0, 0, 0, 0, 0, 0,
    3, 0, 0, 0, 0, 0, 0, 0, 0, 16, 0, 0, 0, 0, 0, 0,
    0, 0, 0, 0, 0, 0, 0, 0,
    1, 0, 0, 0, 6, 0, 0, 0, 179, 0, 0, 0, 0, 0, 0, 0,
    0, 32, 0x20, 0, 0, 0, 0, 0, 0, 0, 0, 0, 0, 0, 0, 0,
    2, 0, 0, 0, 0, 0, 0, 0, 2, 0, 0, 0, 0, 0, 0, 0,
    0, 0, 0, 0, 0, 0, 0, 0, 1, 2, 3, 4, 5].getD index 0

theorem segmented_twoSegments : Segmented twoSegments := by
  have hcount : (elfHdr twoSegments).ePhnum = 2 := by decide
  have hfirst : progHdr twoSegments 0 = ⟨1, 5, 176, 0x200010, 3, 0x1000⟩ := by decide
  have hsecond : progHdr twoSegments 1 = ⟨1, 6, 179, 0x202000, 2, 2⟩ := by decide
  have hnumber : ∀ phnum, Loads twoSegments phnum → phnum = 0 ∨ phnum = 1 := by
    rintro phnum ⟨hlt, -⟩
    omega
  have hpages : ∀ addr, ¬((progHdr twoSegments 0).Covers addr ∧
      (progHdr twoSegments 1).Covers addr) := by
    rintro addr ⟨hin, hin'⟩
    have hend : (progHdr twoSegments 0).last ≤ (progHdr twoSegments 1).first := by
      rw [hfirst, hsecond]
      decide
    exact absurd (hin.2.trans_le hend) (not_lt.mpr hin'.1)
  constructor
  · intro phnum hloads
    rcases hnumber phnum hloads with rfl | rfl
    · rw [hfirst]
      decide
    · rw [hsecond]
      decide
  · intro phnum other hloads hother hne addr hboth
    rcases hnumber phnum hloads with rfl | rfl <;> rcases hnumber other hother with rfl | rfl
    · exact hne rfl
    · exact hpages addr hboth
    · exact hpages addr hboth.symm
    · exact hne rfl

/-- The address space of a process that has just been set up. -/
def newSpace : AddressSpace :=
  ⟨(setupPgdir sixFrames).2, mmCreate false (Table.clear 0 none), 0⟩

theorem newSpace_new : NewSpace newSpace :=
  ⟨sixFrames, _, ⟨fun _ ↦ rfl, by decide, fun _ _ ↦ Multiset.notMem_zero _⟩, rfl, rfl⟩

theorem loadIcode_inMemory_twoSegments : ∃ ret s,
    Returns (fun fuel ↦ Loading.loadIcode ⟨newSpace.memory, newSpace.mm, none⟩
      (readFile twoSegments) (fun _ ↦ true) fuel) (ret, s) ∧
    (ret = 0 → ∀ phnum, Loads twoSegments phnum →
      (progHdr twoSegments phnum).InMemory twoSegments s.memory s.mm.pgdir) :=
  loadIcode_inMemory (reads_readFile twoSegments) segmented_twoSegments (fun _ ↦ true) newSpace
    newSpace_new rfl

example : ((Loading.loadIcode ⟨newSpace.memory, newSpace.mm, none⟩ (readFile twoSegments)
    (fun _ ↦ true) 4).toOption.map Prod.fst) = some 0 := by
  decide +kernel

end Ucore.Process
