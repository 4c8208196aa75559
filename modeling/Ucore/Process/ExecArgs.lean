import Ucore.Library.Holds
import Ucore.Library.LittleEndian
import Ucore.Libs.Defs
import Ucore.Libs.String
import Ucore.Mm.UserMem

/-!
# The arguments on the new stack

`load_icode` puts the strings below the top of the user stack, the pointers to them below the
strings, and their number below the pointers. One pass over the strings finds out where they begin,
and a second one copies them.
-/

namespace Ucore.Process

open Library

def EXEC_MAX_ARG_NUM : ℕ := 32
def EXEC_MAX_ARG_LEN : ℕ := 4095
def USTACKTOP : ℕ := Mm.USERTOP
def USTACKPAGE : ℕ := 256
def USTACKSIZE : ℕ := USTACKPAGE * Mm.PGSIZE

/-- A store of the kernel to the new stack. A page of the stack that is not there yet comes with the
page fault, whatever its bytes are; a store outside of the stack stops. -/
def storeByte (memory : ℕ → UInt8) (addr : ℕ) (byte : UInt8) : Outcome (ℕ → UInt8) := do
  Outcome.require (USTACKTOP - USTACKSIZE ≤ addr ∧ addr < USTACKTOP)
  return Function.update memory addr byte

/-- A store of a pointer or an `int`. -/
def storeBytes (memory : ℕ → UInt8) (addr : ℕ) (bytes : ℕ → UInt8) : ℕ → Outcome (ℕ → UInt8)
  | 0 => return memory
  | size + 1 => do storeByte (← storeBytes memory addr bytes size) (addr + size) (bytes size)

/-- `strcpy` from a buffer of the kernel. -/
def strcpy : ℕ → (ℕ → UInt8) → ℕ → (ℕ → UInt8) → Outcome (ℕ → UInt8)
  | 0, _, _, _ => .error .fuel
  | fuel + 1, memory, dst, src => do
    let memory ← storeByte memory dst (src 0)
    if src 0 ≠ 0 then strcpy fuel memory (dst + 1) fun index ↦ src (index + 1) else return memory

/-- The `argv_size` of `load_icode` after the first `i` strings. -/
def argvSize (kargv : ℕ → ℕ → UInt8) : ℕ → ℕ
  | 0 => 0
  | i + 1 => uint32 (argvSize kargv i + (strnlen (kargv i) (EXEC_MAX_ARG_LEN + 1) + 1))

/-- The loop that copies the strings, after the first `i` of them. -/
def copyArgs (fuel : ℕ) (kargv : ℕ → ℕ → UInt8) (stacktop uargv : ℕ) (memory : ℕ → UInt8) :
    ℕ → Outcome (ℕ → UInt8)
  | 0 => return memory
  | i + 1 => do
    let memory ← copyArgs fuel kargv stacktop uargv memory i
    let dst := uint64 (stacktop + argvSize kargv i)
    let memory ← strcpy fuel memory dst (kargv i)
    storeBytes memory (uint64 (uargv + 8 * i)) (toBytes dst) 8

/-- The part of `load_icode` that sets up `argc` and `argv`: the memory and the stack pointer. -/
def setupArgs (fuel argc : ℕ) (kargv : ℕ → ℕ → UInt8) (memory : ℕ → UInt8) :
    Outcome ((ℕ → UInt8) × ℕ) := do
  Outcome.require (argc ≤ EXEC_MAX_ARG_NUM)
  let stacktop := uint64Sub USTACKTOP ((argvSize kargv argc / 8 + 1) * 8)
  let uargv := uint64Sub stacktop (argc * 8)
  let memory ← copyArgs fuel kargv stacktop uargv memory argc
  let stacktop := uint64Sub uargv 4
  let memory ← storeBytes memory stacktop (toBytes argc) 4
  return (memory, stacktop)

/-! ## Reading the arguments back -/

/-- The string at an address. -/
def stringAt (memory : ℕ → UInt8) (addr : ℕ) : List UInt8 :=
  (List.range (strnlen (fun index ↦ memory (addr + index)) (EXEC_MAX_ARG_LEN + 1))).map
    fun index ↦ memory (addr + index)

/-- The `int` at the stack pointer, and the pointers after it. -/
def argcAt (memory : ℕ → UInt8) (sp : ℕ) : ℕ := ofBytes (fun index ↦ memory (sp + index)) 4
def argvAt (memory : ℕ → UInt8) (sp i : ℕ) : ℕ :=
  ofBytes (fun index ↦ memory (sp + 4 + 8 * i + index)) 8

def readArgs (memory : ℕ → UInt8) (sp : ℕ) : List (List UInt8) :=
  (List.range (argcAt memory sp)).map fun i ↦ stringAt memory (argvAt memory sp i)

/-- The places in memory that the arguments take: their number, the pointers, the strings. -/
def argPlaces (memory : ℕ → UInt8) (sp : ℕ) (args : List Name) : List (ℕ × ℕ) :=
  (sp, 4) :: (sp + 4, 8 * args.length) ::
    args.mapIdx fun i arg ↦ (argvAt memory sp i, arg.1.length + 1)

/-- What the new program finds on its stack. -/
structure ArgsOnStack (memory : ℕ → UInt8) (sp : ℕ) (args : List Name) : Prop where
  apart : (argPlaces memory sp args).Pairwise fun first second ↦ first.1 + first.2 ≤ second.1
  inside : ∀ place ∈ argPlaces memory sp args, sp ≤ place.1 ∧ place.1 + place.2 ≤ USTACKTOP
  stack : USTACKTOP - USTACKSIZE ≤ sp
  argc : argcAt memory sp = args.length
  terminated : ∀ i (h : i < args.length),
    Spells (fun index ↦ memory (argvAt memory sp i + index)) args[i].1
  args : readArgs memory sp = args.map Subtype.val

/-! ## Stores -/

section Stores

variable {addr size dst : ℕ} {src : ℕ → UInt8}

theorem storeByte_eq (memory : ℕ → UInt8) (byte : UInt8) (hlow : USTACKTOP - USTACKSIZE ≤ addr)
    (hhigh : addr < USTACKTOP) : storeByte memory addr byte = .ok (Function.update memory addr byte) := by
  rw [storeByte, Outcome.require_of_true ⟨hlow, hhigh⟩]
  rfl

theorem storeBytes_wrote (memory bytes : ℕ → UInt8) (hlow : USTACKTOP - USTACKSIZE ≤ addr)
    (hhigh : addr + size ≤ USTACKTOP) : ∃ memory', storeBytes memory addr bytes size = .ok memory' ∧
      Wrote memory memory' addr ((List.range size).map bytes) := by
  induction size with
  | zero => exact ⟨memory, rfl, wrote_nil⟩
  | succ size ih =>
    rcases ih (by omega) with ⟨memory', hcall, hwrote⟩
    have hlast := wrote_update memory' (addr + size) (bytes size)
    have hlength : ((List.range size).map bytes).length = size := by simp
    refine ⟨Function.update memory' (addr + size) (bytes size), ?_, ?_⟩
    · rw [storeBytes, hcall, Outcome.ok_bind, storeByte_eq memory' (bytes size) (by omega) (by omega)]
    · rw [List.range_succ, List.map_append]
      exact hwrote.append (hlength.symm ▸ hlast)

/-- A string is copied with its final zero. -/
theorem strcpy_wrote (memory : ℕ → UInt8) {string : List UInt8} (h : Spells src string) (hzero : (0 : UInt8) ∉ string)
    (hlow : USTACKTOP - USTACKSIZE ≤ dst) (hhigh : dst + string.length + 1 ≤ USTACKTOP) :
    ∃ memory', Returns (fun fuel ↦ strcpy fuel memory dst src) memory' ∧
      Wrote memory memory' dst (string ++ [0]) := by
  induction string generalizing memory dst src with
  | nil =>
    have hend : src 0 = 0 := spells_nil.mp h
    refine ⟨Function.update memory dst 0, .of_succ (.of_eq fun fuel ↦ ?_), wrote_update memory dst 0⟩
    rw [strcpy, hend, storeByte_eq memory 0 hlow hhigh]
    rfl
  | cons first rest ih =>
    rcases spells_cons.mp h with ⟨hfirst, hrest⟩
    have hne : src 0 ≠ 0 := fun heq ↦ hzero (List.mem_cons.mpr (Or.inl (heq.symm.trans hfirst)))
    rw [List.length_cons] at hhigh
    have hlow' : USTACKTOP - USTACKSIZE ≤ dst + 1 := by omega
    rcases ih (Function.update memory dst first) hrest
      (fun hmem ↦ hzero (List.mem_cons_of_mem _ hmem)) hlow' (by omega) with
      ⟨memory', hreturns, hwrote⟩
    refine ⟨memory', .of_succ (hreturns.congr fun fuel ↦ ?_), ?_⟩
    · rw [strcpy, storeByte_eq memory _ hlow (by omega), Outcome.ok_bind, if_pos hne, hfirst]
    · exact (wrote_update memory dst first).append hwrote

end Stores

/-! ## Where the strings begin -/

/-- The bytes of the first `i` strings, with their zeros. -/
def offset (args : List Name) (i : ℕ) : ℕ := ((args.take i).map fun arg ↦ arg.1.length + 1).sum

/-- The strings that `do_execve` passes on, each in a buffer of its own. -/
structure Passed (kargv : ℕ → ℕ → UInt8) (args : List Name) : Prop where
  count : args.length ≤ EXEC_MAX_ARG_NUM
  spells : ∀ i (h : i < args.length), Spells (kargv i) args[i].1
  length_le : ∀ arg ∈ args, arg.1.length ≤ EXEC_MAX_ARG_LEN

section Offsets

variable {args : List Name} {kargv : ℕ → ℕ → UInt8} {i j : ℕ}

theorem offset_succ (h : i < args.length) : offset args (i + 1) = offset args i + (args[i].1.length + 1) := by
  rw [offset, List.take_succ_eq_append_getElem h, List.map_append, List.sum_append]
  rfl

theorem offset_mono (args : List Name) : Monotone (offset args) := by
  refine monotone_nat_of_le_succ fun i ↦ ?_
  by_cases h : i < args.length
  · rw [offset_succ h]
    exact Nat.le_add_right ..
  · have hle := not_lt.mp h
    rw [offset, offset, List.take_of_length_le hle, List.take_of_length_le (hle.trans i.le_succ)]

/-- A string ends before the next one begins. -/
theorem offset_end_le (hi : i < args.length) (hij : i < j) :
    offset args i + (args[i].1.length + 1) ≤ offset args j :=
  offset_succ hi ▸ offset_mono args hij

theorem Passed.offset_le (h : Passed kargv args) (hi : i ≤ args.length) :
    offset args i ≤ i * (EXEC_MAX_ARG_LEN + 1) := by
  induction i with
  | zero => exact Nat.zero_le _
  | succ i ih =>
    have hlen := h.length_le args[i] (List.getElem_mem hi)
    have hsmaller := ih (Nat.le_of_succ_le hi)
    rw [offset_succ hi, Nat.succ_mul]
    omega

theorem Passed.offset_small (h : Passed kargv args) (hi : i ≤ args.length) : offset args i ≤ 2 ^ 17 := by
  have hle := h.offset_le hi
  have hcount := h.count
  unfold EXEC_MAX_ARG_LEN at hle
  unfold EXEC_MAX_ARG_NUM at hcount
  omega

theorem Passed.strnlen_eq (h : Passed kargv args) (hi : i < args.length) :
    strnlen (kargv i) (EXEC_MAX_ARG_LEN + 1) = args[i].1.length :=
  (h.spells i hi).strnlen_eq args[i].2 (Nat.lt_succ_of_le (h.length_le _ (List.getElem_mem hi)))

theorem Passed.argvSize_eq (h : Passed kargv args) (hi : i ≤ args.length) :
    argvSize kargv i = offset args i := by
  induction i with
  | zero => rfl
  | succ i ih =>
    have hsmall := h.offset_small hi
    rw [argvSize, ih (Nat.le_of_succ_le hi), h.strnlen_eq hi, ← offset_succ hi]
    exact uint32_of_lt (by omega)

end Offsets

/-! ## The copies -/

/-- The bytes of a pointer. -/
def pointerBytes (value : ℕ) : List UInt8 := (List.range 8).map (toBytes value)

/-- The strings and pointers after `i` rounds, and what the rounds have left alone. -/
structure ArgsCopied (memory memory' : ℕ → UInt8) (args : List Name) (stacktop uargv i : ℕ) : Prop where
  pointers : ∀ j < i, Holds memory' (uargv + 8 * j) (pointerBytes (stacktop + offset args j))
  strings : ∀ j (h : j < args.length), j < i → Holds memory' (stacktop + offset args j) (args[j].1 ++ [0])
  kept : ∀ addr, addr < uargv ∨ USTACKTOP ≤ addr → memory' addr = memory addr

theorem Passed.copyArgs {kargv : ℕ → ℕ → UInt8} {args : List Name} (h : Passed kargv args)
    (memory : ℕ → UInt8) {stacktop uargv i : ℕ} (hlow : USTACKTOP - USTACKSIZE ≤ uargv)
    (huargv : uargv + 8 * args.length = stacktop)
    (htop : stacktop + offset args args.length ≤ USTACKTOP) (hi : i ≤ args.length) :
    ∃ memory', Returns (fun fuel ↦ Process.copyArgs fuel kargv stacktop uargv memory i) memory' ∧
      ArgsCopied memory memory' args stacktop uargv i := by
  -- induction on the rounds
  induction i with
  | zero => exact ⟨memory, .of_eq fun _ ↦ rfl, nofun, nofun, fun _ _ ↦ rfl⟩
  | succ i ih =>
    rcases ih (Nat.le_of_succ_le hi) with ⟨before, hbefore, hcopied⟩
    have hend := offset_end_le hi hi
    have htopsmall : USTACKTOP < 2 ^ 64 := by decide
    have hdst : uint64 (stacktop + argvSize kargv i) = stacktop + offset args i := by
      rw [h.argvSize_eq (Nat.le_of_succ_le hi)]
      exact uint64_of_lt (by omega)
    have hplace : uint64 (uargv + 8 * i) = uargv + 8 * i := uint64_of_lt (by omega)
    have hpointers : uargv + 8 * i + 8 ≤ stacktop := by omega
    have hstrings : stacktop + offset args i + args[i].1.length + 1 ≤ USTACKTOP := by omega
    have hstack : USTACKTOP - USTACKSIZE ≤ stacktop + offset args i := by omega
    rcases strcpy_wrote before (h.spells i hi) args[i].2 hstack hstrings with
      ⟨middle, hmiddle, hstring⟩
    have hslot : USTACKTOP - USTACKSIZE ≤ uargv + 8 * i := by omega
    rcases storeBytes_wrote middle (toBytes (stacktop + offset args i)) hslot
      (hpointers.trans (by omega)) with ⟨after, hafter, hpointer⟩
    have hkept : ∀ addr (values : List UInt8), Holds before addr values →
        addr + values.length ≤ stacktop + offset args i →
        addr + values.length ≤ uargv + 8 * i ∨ stacktop ≤ addr → Holds after addr values := by
      intro addr values hholds hbelow happart
      refine hpointer.keeps (hstring.keeps hholds (Or.inl hbelow)) ?_
      simp only [List.length_map, List.length_range]
      omega
    refine ⟨after, ?_, fun j hj ↦ ?_, fun j hjlen hj ↦ ?_, fun addr haddr ↦ ?_⟩
    · refine .congr (fun fuel ↦ rfl) (hbefore.bind ?_)
      dsimp only
      rw [hdst, hplace]
      exact hmiddle.bind (.of_eq fun _ ↦ hafter)
    · rcases Nat.lt_succ_iff_lt_or_eq.mp hj with hlt | rfl
      · have hlength : (pointerBytes (stacktop + offset args j)).length = 8 := by simp [pointerBytes]
        exact hkept _ _ (hcopied.pointers j hlt) (by omega) (by omega)
      · exact hpointer.holds
    · have hlength : (args[j].1 ++ [0]).length = args[j].1.length + 1 := List.length_append
      rcases Nat.lt_succ_iff_lt_or_eq.mp hj with hlt | rfl
      · have hbelow := offset_end_le hjlen hlt
        exact hkept _ _ (hcopied.strings j hjlen hlt) (by omega) (Or.inr (Nat.le_add_right ..))
      · refine hpointer.keeps hstring.holds ?_
        simp only [List.length_map, List.length_range]
        omega
    · have hlength : (args[i].1 ++ [0]).length = args[i].1.length + 1 := List.length_append
      rw [hpointer.kept addr (by simp only [List.length_map, List.length_range]; omega),
        hstring.kept addr (by omega), hcopied.kept addr haddr]

/-! ## The stack of the new program -/

theorem ofBytes_of_holds {memory : ℕ → UInt8} {addr value size : ℕ}
    (h : Holds memory addr ((List.range size).map (toBytes value))) (hlt : value < 256 ^ size) :
    ofBytes (fun index ↦ memory (addr + index)) size = value := by
  have hbytes : ∀ index < size, memory (addr + index) = toBytes value index := by
    intro index hindex
    rw [h index (by simpa using hindex), List.getElem_map, List.getElem_range]
  rw [ofBytes_congr hbytes, ofBytes_toBytes, Nat.mod_eq_of_lt hlt]

theorem spells_of_holds {memory : ℕ → UInt8} {addr : ℕ} {string : List UInt8}
    (h : Holds memory addr (string ++ [0])) : Spells (fun index ↦ memory (addr + index)) string := by
  rcases holds_append.mp h with ⟨hstring, hend⟩
  exact ⟨hstring, holds_singleton.mp hend⟩

theorem stringAt_of_spells {memory : ℕ → UInt8} {addr : ℕ} {string : Name}
    (h : Spells (fun index ↦ memory (addr + index)) string.1)
    (hlen : string.1.length ≤ EXEC_MAX_ARG_LEN) : stringAt memory addr = string.1 := by
  rw [stringAt, h.strnlen_eq string.2 (Nat.lt_succ_of_le hlen)]
  refine List.ext_getElem (by simp) fun index hl hr ↦ ?_
  rw [List.getElem_map, List.getElem_range]
  exact h.1 index hr

section Places

variable {memory : ℕ → UInt8} {sp stacktop : ℕ} {args : List Name}

/-- The number, a pointer or a string. -/
theorem mem_argPlaces {place : ℕ × ℕ} (h : place ∈ argPlaces memory sp args) :
    place = (sp, 4) ∨ place = (sp + 4, 8 * args.length) ∨
      ∃ i, ∃ (h : i < args.length), place = (argvAt memory sp i, args[i].1.length + 1) := by
  rcases List.mem_cons.mp h with hargc | hrest
  · exact Or.inl hargc
  · rcases List.mem_cons.mp hrest with hpointers | hstrings
    · exact Or.inr (Or.inl hpointers)
    · rcases List.mem_mapIdx.mp hstrings with ⟨i, hi, hplace⟩
      exact Or.inr (Or.inr ⟨i, hi, hplace.symm⟩)

theorem argPlaces_apart (hargv : ∀ i < args.length, argvAt memory sp i = stacktop + offset args i)
    (hstacktop : sp + 4 + 8 * args.length = stacktop) :
    (argPlaces memory sp args).Pairwise fun first second ↦ first.1 + first.2 ≤ second.1 := by
  have habove : ∀ place ∈ args.mapIdx fun i arg ↦ (argvAt memory sp i, arg.1.length + 1),
      stacktop ≤ place.1 := by
    intro place hplace
    rcases List.mem_mapIdx.mp hplace with ⟨i, hi, rfl⟩
    rw [hargv i hi]
    exact Nat.le_add_right ..
  refine List.pairwise_cons.mpr ⟨fun place hplace ↦ ?_, List.pairwise_cons.mpr ⟨fun place hplace ↦ ?_, ?_⟩⟩
  · rcases List.mem_cons.mp hplace with rfl | hstring
    · exact le_rfl
    · exact le_trans (by omega) (habove place hstring)
  · exact hstacktop.le.trans (habove place hplace)
  · refine List.pairwise_iff_getElem.mpr fun i j hi hj hij ↦ ?_
    rw [List.length_mapIdx] at hi hj
    simp only [List.getElem_mapIdx]
    rw [hargv i hi, hargv j hj]
    have hend := offset_end_le hi hij
    omega

theorem argPlaces_inside (hargv : ∀ i < args.length, argvAt memory sp i = stacktop + offset args i)
    (hstacktop : sp + 4 + 8 * args.length = stacktop)
    (htop : stacktop + offset args args.length ≤ USTACKTOP) :
    ∀ place ∈ argPlaces memory sp args, sp ≤ place.1 ∧ place.1 + place.2 ≤ USTACKTOP := by
  intro place hplace
  rcases mem_argPlaces hplace with rfl | rfl | ⟨i, hi, rfl⟩ <;> dsimp only
  · omega
  · omega
  · have hend := offset_end_le hi hi
    rw [hargv i hi]
    omega

end Places

/-- Whatever the strings are and wherever pages are missing, the new program finds its arguments. -/
theorem setupArgs_argsOnStack (kargv : ℕ → ℕ → UInt8) (args : List Name) (h : Passed kargv args)
    (memory : ℕ → UInt8) : ∃ memory' sp,
      Returns (fun fuel ↦ setupArgs fuel args.length kargv memory) (memory', sp) ∧
      ArgsOnStack memory' sp args ∧
      ∀ addr, addr < sp ∨ USTACKTOP ≤ addr → memory' addr = memory addr := by
  have hsmall := h.offset_small le_rfl
  have hcount := h.count
  have htop : USTACKTOP = 2 ^ 31 := rfl
  have hsize : USTACKSIZE = 2 ^ 20 := rfl
  have hnum : EXEC_MAX_ARG_NUM = 32 := rfl
  let stacktop := USTACKTOP - (offset args args.length / 8 + 1) * 8
  let uargv := stacktop - args.length * 8
  let sp := uargv - 4
  have hstacktop : uint64Sub USTACKTOP ((argvSize kargv args.length / 8 + 1) * 8) = stacktop := by
    rw [h.argvSize_eq le_rfl]
    exact uint64Sub_of_le (by omega) (by decide)
  have huargv : uint64Sub stacktop (args.length * 8) = uargv := uint64Sub_of_le (by omega) (by omega)
  have hsp : uint64Sub uargv 4 = sp := uint64Sub_of_le (by omega) (by omega)
  rcases h.copyArgs memory (show USTACKTOP - USTACKSIZE ≤ uargv by omega)
    (show uargv + 8 * args.length = stacktop by omega) (by omega) le_rfl with
    ⟨middle, hmiddle, hcopied⟩
  rcases storeBytes_wrote middle (toBytes args.length) (show USTACKTOP - USTACKSIZE ≤ sp by omega)
    (show sp + 4 ≤ USTACKTOP by omega) with ⟨after, hafter, hwrote⟩
  have hlength : ((List.range 4).map (toBytes args.length)).length = 4 := by simp
  have hargc : argcAt after sp = args.length := ofBytes_of_holds hwrote.holds (by omega)
  have hargv : ∀ i < args.length, argvAt after sp i = stacktop + offset args i := by
    intro i hi
    have hplace : sp + 4 + 8 * i = uargv + 8 * i := by omega
    have hmono := offset_mono args hi.le
    have hpointer := hwrote.keeps (hcopied.pointers i hi) (Or.inr (by omega))
    rw [argvAt, hplace]
    exact ofBytes_of_holds hpointer (by omega)
  have hspells : ∀ i (hi : i < args.length),
      Spells (fun index ↦ after (argvAt after sp i + index)) args[i].1 := by
    intro i hi
    rw [hargv i hi]
    exact spells_of_holds (hwrote.keeps (hcopied.strings i hi hi) (Or.inr (by omega)))
  refine ⟨after, sp, ?_, ⟨?_, ?_, by omega, hargc, hspells, ?_⟩, fun addr haddr ↦ ?_⟩
  · have hstart : ∀ fuel, setupArgs fuel args.length kargv memory = do
        let memory ← copyArgs fuel kargv stacktop uargv memory args.length
        let memory ← storeBytes memory sp (toBytes args.length) 4
        return (memory, sp) := by
      intro fuel
      rw [setupArgs, Outcome.require_of_true hcount, Outcome.ok_bind]
      dsimp only
      rw [hstacktop, huargv, hsp]
    refine .congr hstart (hmiddle.bind (.of_eq fun _ ↦ ?_))
    rw [hafter]
    rfl
  · exact argPlaces_apart hargv (by omega)
  · exact argPlaces_inside hargv (by omega) (by omega)
  · refine List.ext_getElem (by simp [readArgs, hargc]) fun i hl hr ↦ ?_
    have hi : i < args.length := by simpa using hr
    simp only [readArgs, List.getElem_map, List.getElem_range]
    exact stringAt_of_spells (hspells i hi) (h.length_le _ (List.getElem_mem hi))
  · rw [hwrote.kept addr (by omega), hcopied.kept addr (by omega)]

/-- The arguments "a" and "". -/
theorem setupArgs_argsOnStack_two : ∃ memory' sp,
    Returns (fun fuel ↦ setupArgs fuel 2 (fun i index ↦ if i = 0 ∧ index = 0 then 97 else 0) fun _ ↦ 7)
      (memory', sp) ∧
    ArgsOnStack memory' sp [⟨[97], by decide⟩, ⟨[], by decide⟩] ∧
    ∀ addr, addr < sp ∨ USTACKTOP ≤ addr → memory' addr = 7 := by
  refine setupArgs_argsOnStack _ [⟨[97], by decide⟩, ⟨[], by decide⟩] ⟨by decide, ?_, by decide⟩ _
  rintro (_ | _ | i) hi
  · have hfirst : Spells (fun index ↦ if (0 : ℕ) = 0 ∧ index = 0 then 97 else 0) [97] :=
      ⟨by decide, rfl⟩
    exact hfirst
  · exact ⟨nofun, rfl⟩
  · exact absurd hi (Nat.not_lt.mpr (Nat.le_add_left 2 i))

end Ucore.Process
