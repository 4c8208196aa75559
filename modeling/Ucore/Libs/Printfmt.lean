import Ucore.Library.Outcome
import Ucore.Libs.Printnum

/-!
# `vprintfmt` and `vsnprintf` of `libs/printfmt.c`

`vprintfmt` gives the characters that it passes to `putch`, in their order. The format is read with a
pointer that can go back: after a conversion that is unknown, it goes back to the last percent sign,
and what comes after it is printed as it stands. Strings are given by the bytes before the final zero.

Each argument has a slot of 64 bits, of which `va_arg` takes what the type has. The arguments of a
call are the first of an infinite sequence.
-/

namespace Ucore.Printfmt

open Library

/-- A slot of the argument list, and the string at that address, unless it is `NULL`. -/
structure VaArg where
  word : ℕ
  target : Option (List UInt8)

/-- The format pointer: the bytes before it, the nearest first, and those from it on. -/
structure FormatPointer where
  seen : List UInt8
  rest : List UInt8

/-- The local variables for one conversion. -/
structure Conversion where
  padc : UInt8
  width : ℤ
  precision : ℤ
  lflag : ℤ
  altflag : Bool

def Conversion.first : Conversion := ⟨32, -1, -1, 0, false⟩

/-- `process_precision`: the first number is the width. -/
def Conversion.processPrecision (c : Conversion) : Conversion :=
  if c.width < 0 then { c with width := c.precision, precision := -1 } else c

/-- The loop over the digits of a number in the format. -/
def readPrecision (precision : ℤ) (ch : UInt8) (seen : List UInt8) : List UInt8 → ℤ × FormatPointer
  | [] => (int32 (precision * 10 + ch.toNat - 48), ⟨seen, []⟩)
  | next :: rest =>
    if next < 48 ∨ 57 < next then (int32 (precision * 10 + ch.toNat - 48), ⟨seen, next :: rest⟩)
    else readPrecision (int32 (precision * 10 + ch.toNat - 48)) next (next :: seen) rest

/-- The jumps to `reswitch`: flags, numbers and points are taken, up to what is none of them. -/
def reswitch (args : ℕ → VaArg) :
    ℕ → FormatPointer → Conversion → ℕ → Outcome (FormatPointer × Conversion × ℕ)
  | 0, _, _, _ => .error .fuel
  | fuel + 1, ⟨seen, rest⟩, c, arg =>
    match rest with
    | [] => .ok (⟨seen, []⟩, c, arg)
    | ch :: rest =>
      if ch = 45 then reswitch args fuel ⟨ch :: seen, rest⟩ { c with padc := 45 } arg
      else if ch = 48 then reswitch args fuel ⟨ch :: seen, rest⟩ { c with padc := 48 } arg
      else if 49 ≤ ch ∧ ch ≤ 57 then
        let (precision, fmt) := readPrecision 0 ch (ch :: seen) rest
        reswitch args fuel fmt { c with precision := precision }.processPrecision arg
      else if ch = 42 then
        reswitch args fuel ⟨ch :: seen, rest⟩
          { c with precision := int32 (args arg).word }.processPrecision (arg + 1)
      else if ch = 46 then
        reswitch args fuel ⟨ch :: seen, rest⟩ { c with width := if c.width < 0 then 0 else c.width } arg
      else if ch = 35 then reswitch args fuel ⟨ch :: seen, rest⟩ { c with altflag := true } arg
      else if ch = 108 then
        reswitch args fuel ⟨ch :: seen, rest⟩ { c with lflag := int32 (c.lflag + 1) } arg
      else .ok (⟨seen, ch :: rest⟩, c, arg)

def getuint (word : ℕ) (lflag : ℤ) : ℕ :=
  if 2 ≤ lflag then uint64 word else if lflag ≠ 0 then uint64 word else uint32 word

def getint (word : ℕ) (lflag : ℤ) : ℤ :=
  if 2 ≤ lflag then int64 word else if lflag ≠ 0 then int64 word else int32 word

/-- Conversion of an `int` to 64 bits without a sign. -/
def toUint64 (value : ℤ) : ℕ := (value % 2 ^ 64).toNat

def strnlen (s : List UInt8) (len : ℕ) : ℕ := min s.length len

/-- The loop over the characters of a string, and the width that it leaves. -/
def printChars (altflag : Bool) : List UInt8 → ℤ → ℤ → List UInt8 × ℤ
  | [], _, width => ([], width)
  | ch :: p, precision, width =>
    if precision < 0 ∨ 0 ≤ precision - 1 then
      let printed := if altflag ∧ (ch < 32 ∨ 126 < ch) then 63 else ch
      let (text, width) :=
        printChars altflag p (if precision < 0 then precision else precision - 1) (int32 (width - 1))
      (printed :: text, width)
    else ([], width)

/-- The conversion `%s`. -/
def printString (c : Conversion) (p : List UInt8) : List UInt8 :=
  if 0 < c.width ∧ c.padc ≠ 45 then
    let width := int32 (c.width - strnlen p (toUint64 c.precision))
    let (text, width') := printChars c.altflag p c.precision (min width 0)
    List.replicate width.toNat c.padc ++ text ++ List.replicate width'.toNat 32
  else
    let (text, width) := printChars c.altflag p c.precision c.width
    text ++ List.replicate width.toNat 32

def MAXERROR : ℤ := 24

/-- The bytes of a string constant. -/
def stringBytes (s : String) : List UInt8 := s.toList.map fun ch ↦ UInt8.ofNat ch.toNat

/-- `error_string`. What lies before the table in memory is not known. -/
def errorString (before : Option (List UInt8)) (err : ℤ) : Option (List UInt8) :=
  if err < 0 then before
  else ([none, some "unspecified error", some "bad process", some "invalid parameter",
    some "out of memory", some "out of processes", some "segmentation fault", none,
    some "invalid elf file", some "process is killed", some "panic failure", none, none,
    some "no such device", some "device not available", some "device/file is busy",
    some "no such file or directory", some "is a directory", some "not a directory",
    some "cross device link", some "unimplemented feature", some "illegal seek",
    some "too many files are open", some "file or directory already exists",
    some "directory is not empty"].getD err.toNat none).map stringBytes

/-- The loop of the default case: back to behind the last percent sign. -/
def backUp : List UInt8 → List UInt8 → FormatPointer
  | [], rest => ⟨[], rest⟩
  | ch :: seen, rest => if ch = 37 then ⟨ch :: seen, rest⟩ else backUp seen (ch :: rest)

/-- An error code may be negative. -/
def errorCode (err : ℤ) : ℤ := if err < 0 then int32 (-err) else err

def errorText (before : Option (List UInt8)) (err : ℤ) : Option (List UInt8) :=
  if MAXERROR < err then none else errorString before err

/-- The conversion `%e`. `printfmt` is the call that prints an error, with its one argument. -/
def printError (before : Option (List UInt8)) (printfmt : List UInt8 → VaArg → Outcome (List UInt8))
    (err : ℤ) : Outcome (List UInt8) :=
  match errorText before err with
  | none => printfmt (stringBytes "error %d") ⟨toUint64 err, none⟩
  | some p => printfmt (stringBytes "%s") ⟨0, some p⟩

/-- The conversion `%d`. -/
def printSigned (c : Conversion) (num : ℤ) : List UInt8 :=
  (if num < 0 then [45] else []) ++ printnum 10 (by decide) num.natAbs c.width c.padc

/-- The conversion itself. -/
def convert (before : Option (List UInt8)) (printfmt : List UInt8 → VaArg → Outcome (List UInt8))
    (args : ℕ → VaArg) (c : Conversion) (arg : ℕ) :
    FormatPointer → Outcome (List UInt8 × FormatPointer × ℕ)
  | ⟨seen, []⟩ => .ok ([37], backUp seen [], arg)
  | ⟨seen, ch :: rest⟩ =>
    if ch = 99 then .ok ([UInt8.ofNat (args arg).word], ⟨ch :: seen, rest⟩, arg + 1)
    else if ch = 101 then do
      let text ← printError before printfmt (errorCode (int32 (args arg).word))
      return (text, ⟨ch :: seen, rest⟩, arg + 1)
    else if ch = 115 then
      .ok (printString c ((args arg).target.getD (stringBytes "(null)")), ⟨ch :: seen, rest⟩, arg + 1)
    else if ch = 100 then
      .ok (printSigned c (getint (args arg).word c.lflag), ⟨ch :: seen, rest⟩, arg + 1)
    else if ch = 117 then
      .ok (printnum 10 (by decide) (getuint (args arg).word c.lflag) c.width c.padc,
        ⟨ch :: seen, rest⟩, arg + 1)
    else if ch = 111 then
      .ok (printnum 8 (by decide) (getuint (args arg).word c.lflag) c.width c.padc,
        ⟨ch :: seen, rest⟩, arg + 1)
    else if ch = 112 then
      .ok (48 :: 120 :: printnum 16 (by decide) (uint64 (args arg).word) c.width c.padc,
        ⟨ch :: seen, rest⟩, arg + 1)
    else if ch = 120 then
      .ok (printnum 16 (by decide) (getuint (args arg).word c.lflag) c.width c.padc,
        ⟨ch :: seen, rest⟩, arg + 1)
    else if ch = 37 then .ok ([37], ⟨ch :: seen, rest⟩, arg)
    else .ok ([37], backUp seen (ch :: rest), arg)

/-- `vprintfmt`: the characters that it gives to `putch`. -/
def vprintfmt (before : Option (List UInt8)) :
    ℕ → (ℕ → VaArg) → FormatPointer → ℕ → Outcome (List UInt8)
  | 0, _, _, _ => .error .fuel
  | fuel + 1, args, ⟨seen, rest⟩, arg =>
    match rest with
    | [] => .ok []
    | ch :: rest =>
      if ch ≠ 37 then do
        let text ← vprintfmt before fuel args ⟨ch :: seen, rest⟩ arg
        return ch :: text
      else do
        let (fmt, c, arg) ← reswitch args fuel ⟨ch :: seen, rest⟩ Conversion.first arg
        let printfmt := fun fmt arg ↦ vprintfmt before fuel (fun _ ↦ arg) ⟨[], fmt⟩ 0
        let (printed, fmt, arg) ← convert before printfmt args c arg fmt
        let text ← vprintfmt before fuel args fmt arg
        return printed ++ text

/-! ## The buffer -/

def E_INVAL : ℤ := 3

structure Sprintbuf where
  buf : ℕ
  ebuf : ℕ
  cnt : ℤ

/-- `sprintputch`, on the memory and the `struct sprintbuf`. -/
def sprintputch (state : (ℕ → UInt8) × Sprintbuf) (ch : UInt8) : (ℕ → UInt8) × Sprintbuf :=
  let (mem, b) := state
  let b := { b with cnt := int32 (b.cnt + 1) }
  if b.buf < b.ebuf then (Function.update mem b.buf ch, { b with buf := b.buf + 1 }) else (mem, b)

/-- `vsnprintf`, and the memory that it leaves. -/
def vsnprintf (before : Option (List UInt8)) (str size : ℕ) (fmt : List UInt8) (args : ℕ → VaArg)
    (mem : ℕ → UInt8) (fuel : ℕ) : Outcome (ℤ × (ℕ → UInt8)) := do
  let b : Sprintbuf := ⟨str, str + size - 1, 0⟩
  if str = 0 ∨ b.ebuf < b.buf then return (-E_INVAL, mem)
  let text ← vprintfmt before fuel args ⟨[], fmt⟩ 0
  let (mem, b) := text.foldl sprintputch (mem, b)
  return (b.cnt, Function.update mem b.buf 0)

/-! ## The format is read to its end -/

section Scan

variable {args : ℕ → VaArg} {fmt fmt' : FormatPointer} {before : Option (List UInt8)}
  {seen rest read : List UInt8}

/-- The pointer has gone forward, over no percent sign. -/
def Follows (fmt fmt' : FormatPointer) : Prop :=
  ∃ read, 37 ∉ read ∧ fmt.rest = read ++ fmt'.rest ∧ fmt'.seen = read.reverse ++ fmt.seen

theorem Follows.refl (fmt : FormatPointer) : Follows fmt fmt := ⟨[], List.not_mem_nil, rfl, rfl⟩

theorem Follows.cons {ch : UInt8} (hch : ch ≠ 37) (h : Follows ⟨ch :: seen, rest⟩ fmt') :
    Follows ⟨seen, ch :: rest⟩ fmt' := by
  rcases h with ⟨read, hread, hrest, hseen⟩
  refine ⟨ch :: read, ?_, congrArg (ch :: ·) hrest, ?_⟩
  · exact fun hmem ↦ (List.mem_cons.mp hmem).elim (fun heq ↦ hch heq.symm) hread
  · rw [hseen, List.reverse_cons, List.append_assoc]
    rfl

theorem readPrecision_follows (precision : ℤ) (ch : UInt8) (seen rest : List UInt8) :
    Follows ⟨seen, rest⟩ (readPrecision precision ch seen rest).2 ∧
      (readPrecision precision ch seen rest).2.rest.length ≤ rest.length := by
  induction rest generalizing precision ch seen with
  | nil => exact ⟨Follows.refl _, le_rfl⟩
  | cons next rest ih =>
    rw [readPrecision]
    split
    · exact ⟨Follows.refl _, le_rfl⟩
    · rename_i hdigit
      rcases ih (int32 (precision * 10 + ch.toNat - 48)) next (next :: seen) with ⟨hfollows, hlength⟩
      refine ⟨hfollows.cons fun heq ↦ ?_, hlength.trans (Nat.le_succ _)⟩
      rw [heq] at hdigit
      exact hdigit (Or.inl (by decide))

/-- The jumps to `reswitch` come to an end. -/
theorem reswitch_returns (args : ℕ → VaArg) (seen rest : List UInt8) (c : Conversion) (arg : ℕ) :
    ∃ fmt c' arg', Returns (fun fuel ↦ reswitch args fuel ⟨seen, rest⟩ c arg) (fmt, c', arg') ∧
      Follows ⟨seen, rest⟩ fmt := by
  induction hlength : rest.length using Nat.strong_induction_on generalizing seen rest c arg with
  | _ length ih =>
    rcases rest with - | ⟨ch, rest⟩
    · exact ⟨_, _, _, .of_succ (.of_eq fun _ ↦ rfl), Follows.refl _⟩
    have hshort : rest.length < length := hlength ▸ Nat.lt_succ_self _
    have hnext : ch ≠ 37 → ∀ (c' : Conversion) (arg' : ℕ),
        (∀ fuel, reswitch args (fuel + 1) ⟨seen, ch :: rest⟩ c arg =
          reswitch args fuel ⟨ch :: seen, rest⟩ c' arg') →
        ∃ fmt c' arg', Returns (fun fuel ↦ reswitch args fuel ⟨seen, ch :: rest⟩ c arg)
          (fmt, c', arg') ∧ Follows ⟨seen, ch :: rest⟩ fmt := by
      intro hch c' arg' heq
      rcases ih rest.length hshort (ch :: seen) rest c' arg' rfl with ⟨fmt, c'', arg'', hreturns, hfollows⟩
      exact ⟨fmt, c'', arg'', .of_succ (.congr heq hreturns), hfollows.cons hch⟩
    by_cases hminus : ch = 45
    · exact hnext (hminus ▸ by decide) _ _ fun fuel ↦ by rw [reswitch, if_pos hminus]
    by_cases hzero : ch = 48
    · exact hnext (hzero ▸ by decide) _ _ fun fuel ↦ by
        rw [reswitch, if_neg hminus, if_pos hzero]
    by_cases hdigit : 49 ≤ ch ∧ ch ≤ 57
    · have hch : ch ≠ 37 := by
        intro heq
        rw [heq] at hdigit
        exact absurd hdigit.1 (by decide)
      rcases readPrecision_follows 0 ch (ch :: seen) rest with ⟨hread, hlength'⟩
      rcases hnumber : readPrecision 0 ch (ch :: seen) rest with ⟨precision, ⟨seen', rest'⟩⟩
      rw [hnumber] at hread hlength'
      rcases ih rest'.length (hlength'.trans_lt hshort) seen' rest'
        { c with precision := precision }.processPrecision arg rfl with
        ⟨fmt, c', arg', hreturns, hfollows⟩
      refine ⟨fmt, c', arg', .of_succ (.congr (fun fuel ↦ ?_) hreturns), .cons hch ?_⟩
      · rw [reswitch, if_neg hminus, if_neg hzero, if_pos hdigit, hnumber]
      · rcases hread with ⟨read, hread, hrest, hseen⟩
        rcases hfollows with ⟨more, hmore, hrest', hseen'⟩
        refine ⟨read ++ more, ?_, ?_, ?_⟩
        · exact fun hmem ↦ (List.mem_append.mp hmem).elim hread hmore
        · rw [hrest, List.append_assoc]
          exact congrArg (read ++ ·) hrest'
        · rw [hseen', List.reverse_append, List.append_assoc]
          exact congrArg (more.reverse ++ ·) hseen
    by_cases hstar : ch = 42
    · exact hnext (hstar ▸ by decide) _ _ fun fuel ↦ by
        rw [reswitch, if_neg hminus, if_neg hzero, if_neg hdigit, if_pos hstar]
    by_cases hpoint : ch = 46
    · exact hnext (hpoint ▸ by decide) _ _ fun fuel ↦ by
        rw [reswitch, if_neg hminus, if_neg hzero, if_neg hdigit, if_neg hstar, if_pos hpoint]
    by_cases hhash : ch = 35
    · exact hnext (hhash ▸ by decide) _ _ fun fuel ↦ by
        rw [reswitch, if_neg hminus, if_neg hzero, if_neg hdigit, if_neg hstar, if_neg hpoint,
          if_pos hhash]
    by_cases hlong : ch = 108
    · exact hnext (hlong ▸ by decide) _ _ fun fuel ↦ by
        rw [reswitch, if_neg hminus, if_neg hzero, if_neg hdigit, if_neg hstar, if_neg hpoint,
          if_neg hhash, if_pos hlong]
    refine ⟨⟨seen, ch :: rest⟩, c, arg, .of_succ (.of_eq fun fuel ↦ ?_), Follows.refl _⟩
    rw [reswitch, if_neg hminus, if_neg hzero, if_neg hdigit, if_neg hstar, if_neg hpoint,
      if_neg hhash, if_neg hlong]

/-- The loop back ends at the percent sign. -/
theorem backUp_reverse (h : 37 ∉ read) (old rest : List UInt8) :
    backUp (read.reverse ++ 37 :: old) rest = ⟨37 :: old, read ++ rest⟩ := by
  induction read using List.reverseRecOn generalizing rest with
  | nil => rfl
  | append_singleton read ch ih =>
    have hread : 37 ∉ read := fun hmem ↦ h (List.mem_append_left _ hmem)
    have hch : ch ≠ 37 := fun heq ↦ h (List.mem_append_right _ (heq ▸ List.mem_singleton_self ch))
    rw [List.reverse_append, List.reverse_singleton, List.singleton_append, List.cons_append, backUp,
      if_neg hch, ih hread, List.append_assoc, List.singleton_append]

theorem printError_returns {printfmt : ℕ → List UInt8 → VaArg → Outcome (List UInt8)}
    (herror : ∀ arg, ∃ text, Returns (fun fuel ↦ printfmt fuel (stringBytes "error %d") arg) text)
    (hstring : ∀ arg, ∃ text, Returns (fun fuel ↦ printfmt fuel (stringBytes "%s") arg) text) (err : ℤ) :
    ∃ text, Returns (fun fuel ↦ printError before (printfmt fuel) err) text := by
  cases hentry : errorText before err with
  | none =>
    rcases herror ⟨toUint64 err, none⟩ with ⟨text, htext⟩
    refine ⟨text, .congr (fun fuel ↦ ?_) htext⟩
    rw [printError, hentry]
  | some p =>
    rcases hstring ⟨0, some p⟩ with ⟨text, htext⟩
    refine ⟨text, .congr (fun fuel ↦ ?_) htext⟩
    rw [printError, hentry]

/-- A conversion ends, and leaves the pointer behind the percent sign. -/
theorem convert_returns {printfmt : ℕ → List UInt8 → VaArg → Outcome (List UInt8)} {c : Conversion}
    {arg : ℕ}
    (herror : ∀ arg, ∃ text, Returns (fun fuel ↦ printfmt fuel (stringBytes "error %d") arg) text)
    (hstring : ∀ arg, ∃ text, Returns (fun fuel ↦ printfmt fuel (stringBytes "%s") arg) text)
    (hfollows : Follows ⟨37 :: seen, rest⟩ fmt) :
    ∃ printed fmt' arg',
      Returns (fun fuel ↦ convert before (printfmt fuel) args c arg fmt) (printed, fmt', arg') ∧
      fmt'.rest.count 37 ≤ rest.count 37 := by
  rcases hfollows with ⟨read, hread, hrest, hseen⟩
  dsimp only at hrest hseen
  have hback : backUp fmt.seen fmt.rest = ⟨37 :: seen, rest⟩ := by
    rw [hseen, backUp_reverse hread, ← hrest]
  have hbackCount : (backUp fmt.seen fmt.rest).rest.count 37 ≤ rest.count 37 := by rw [hback]
  rcases fmt with ⟨seen', - | ⟨ch, rest'⟩⟩
  · exact ⟨_, _, _, .of_eq fun _ ↦ by rw [convert], hbackCount⟩
  dsimp only at hrest hbackCount
  have hnext : rest'.count 37 ≤ rest.count 37 := by
    rw [hrest]
    exact ((List.sublist_cons_self ch rest').trans (List.sublist_append_right read _)).count_le 37
  have hconst : ∀ {result : List UInt8 × FormatPointer × ℕ}, (∀ printfmt,
      convert before printfmt args c arg ⟨seen', ch :: rest'⟩ = .ok result) →
      result.2.1.rest.count 37 ≤ rest.count 37 → ∃ printed fmt' arg', Returns (fun fuel ↦
        convert before (printfmt fuel) args c arg ⟨seen', ch :: rest'⟩) (printed, fmt', arg') ∧
        fmt'.rest.count 37 ≤ rest.count 37 :=
    fun heq hle ↦ ⟨_, _, _, .of_eq fun fuel ↦ heq (printfmt fuel), hle⟩
  by_cases hchar : ch = 99
  · exact hconst (fun _ ↦ by rw [convert, if_pos hchar]) hnext
  by_cases herr : ch = 101
  · rcases printError_returns herror hstring (errorCode (int32 (args arg).word)) with ⟨text, htext⟩
    have hcall : Returns (fun fuel ↦ printError before (printfmt fuel)
        (errorCode (int32 (args arg).word)) >>= fun text ↦
          .ok (text, (⟨ch :: seen', rest'⟩ : FormatPointer), arg + 1))
        (text, ⟨ch :: seen', rest'⟩, arg + 1) := htext.bind (.of_eq fun _ ↦ rfl)
    refine ⟨_, _, _, .congr (fun fuel ↦ ?_) hcall, hnext⟩
    rw [convert, if_neg hchar, if_pos herr]
    rfl
  by_cases hstr : ch = 115
  · exact hconst (fun _ ↦ by rw [convert, if_neg hchar, if_neg herr, if_pos hstr]) hnext
  by_cases hdec : ch = 100
  · exact hconst (fun _ ↦ by rw [convert, if_neg hchar, if_neg herr, if_neg hstr, if_pos hdec])
      hnext
  by_cases huns : ch = 117
  · exact hconst (fun _ ↦ by rw [convert, if_neg hchar, if_neg herr, if_neg hstr, if_neg hdec,
      if_pos huns]) hnext
  by_cases hoct : ch = 111
  · exact hconst (fun _ ↦ by rw [convert, if_neg hchar, if_neg herr, if_neg hstr, if_neg hdec,
      if_neg huns, if_pos hoct]) hnext
  by_cases hptr : ch = 112
  · exact hconst (fun _ ↦ by rw [convert, if_neg hchar, if_neg herr, if_neg hstr, if_neg hdec,
      if_neg huns, if_neg hoct, if_pos hptr]) hnext
  by_cases hhex : ch = 120
  · exact hconst (fun _ ↦ by rw [convert, if_neg hchar, if_neg herr, if_neg hstr, if_neg hdec,
      if_neg huns, if_neg hoct, if_neg hptr, if_pos hhex]) hnext
  by_cases hpercent : ch = 37
  · exact hconst (fun _ ↦ by rw [convert, if_neg hchar, if_neg herr, if_neg hstr, if_neg hdec,
      if_neg huns, if_neg hoct, if_neg hptr, if_neg hhex, if_pos hpercent]) hnext
  · exact hconst (fun _ ↦ by rw [convert, if_neg hchar, if_neg herr, if_neg hstr, if_neg hdec,
      if_neg huns, if_neg hoct, if_neg hptr, if_neg hhex, if_neg hpercent]) hbackCount

theorem vprintfmt_literal {ch : UInt8} {arg : ℕ} {text : List UInt8} (hch : ch ≠ 37)
    (htext : Returns (fun fuel ↦ vprintfmt before fuel args ⟨ch :: seen, rest⟩ arg) text) :
    Returns (fun fuel ↦ vprintfmt before fuel args ⟨seen, ch :: rest⟩ arg) (ch :: text) := by
  have hcall : Returns (fun fuel ↦ vprintfmt before fuel args ⟨ch :: seen, rest⟩ arg >>=
      fun text ↦ .ok (ch :: text)) (ch :: text) := htext.bind (.of_eq fun _ ↦ rfl)
  refine .of_succ (.congr (fun fuel ↦ ?_) hcall)
  rw [vprintfmt, if_pos hch]
  rfl

theorem vprintfmt_conversion {c : Conversion} {arg arg' arg'' : ℕ} {printed text : List UInt8}
    (hswitch : Returns (fun fuel ↦ reswitch args fuel ⟨37 :: seen, rest⟩ Conversion.first arg)
      (fmt, c, arg'))
    (hconvert : Returns (fun fuel ↦ convert before (fun fmt arg ↦ vprintfmt before fuel (fun _ ↦ arg)
      ⟨[], fmt⟩ 0) args c arg' fmt) (printed, fmt', arg''))
    (htext : Returns (fun fuel ↦ vprintfmt before fuel args fmt' arg'') text) :
    Returns (fun fuel ↦ vprintfmt before fuel args ⟨seen, 37 :: rest⟩ arg) (printed ++ text) := by
  have hcall : Returns (fun fuel ↦ reswitch args fuel ⟨37 :: seen, rest⟩ Conversion.first arg >>=
      fun switched ↦ convert before (fun fmt arg ↦ vprintfmt before fuel (fun _ ↦ arg) ⟨[], fmt⟩ 0)
        args switched.2.1 switched.2.2 switched.1 >>=
      fun converted ↦ vprintfmt before fuel args converted.2.1 converted.2.2 >>=
      fun text ↦ .ok (converted.1 ++ text)) (printed ++ text) :=
    hswitch.bind (hconvert.bind (htext.bind (.of_eq fun _ ↦ rfl)))
  refine .of_succ (.congr (fun fuel ↦ ?_) hcall)
  rw [vprintfmt, if_neg (not_not.mpr rfl)]
  rfl

theorem vprintfmt_end (seen : List UInt8) (arg : ℕ) :
    Returns (fun fuel ↦ vprintfmt before fuel args ⟨seen, []⟩ arg) [] :=
  .of_succ (.of_eq fun _ ↦ rfl)

/-- The format is read to its end when the two inner formats are. -/
theorem vprintfmt_returns_of
    (herror : ∀ arg, ∃ text, Returns (fun fuel ↦ vprintfmt before fuel (fun _ ↦ arg)
      ⟨[], stringBytes "error %d"⟩ 0) text)
    (hstring : ∀ arg, ∃ text, Returns (fun fuel ↦ vprintfmt before fuel (fun _ ↦ arg)
      ⟨[], stringBytes "%s"⟩ 0) text)
    (args : ℕ → VaArg) (seen rest : List UInt8) (arg : ℕ) :
    ∃ text, Returns (fun fuel ↦ vprintfmt before fuel args ⟨seen, rest⟩ arg) text := by
  -- a conversion takes a percent sign, and everything else takes a character
  induction hcount : rest.count 37 using Nat.strong_induction_on generalizing seen rest arg with
  | _ count ih =>
    induction rest generalizing seen with
    | nil => exact ⟨[], vprintfmt_end seen arg⟩
    | cons ch rest ihRest =>
      by_cases hch : ch = 37
      · rw [hch, List.count_cons_self] at hcount
        rw [hch]
        rcases reswitch_returns args (37 :: seen) rest Conversion.first arg with
          ⟨fmt, c, arg', hswitch, hfollows⟩
        obtain ⟨printed, fmt', arg'', hconvert, hle⟩ : ∃ printed fmt' arg'', Returns (fun fuel ↦
            convert before (fun fmt arg ↦ vprintfmt before fuel (fun _ ↦ arg) ⟨[], fmt⟩ 0) args c arg'
              fmt) (printed, fmt', arg'') ∧ fmt'.rest.count 37 ≤ rest.count 37 :=
          convert_returns herror hstring hfollows
        rcases ih _ (by omega) fmt'.seen fmt'.rest arg'' rfl with ⟨text, htext⟩
        exact ⟨printed ++ text, vprintfmt_conversion hswitch hconvert htext⟩
      · rw [List.count_cons_of_ne hch] at hcount
        rcases ihRest (ch :: seen) hcount with ⟨text, htext⟩
        exact ⟨ch :: text, vprintfmt_literal hch htext⟩

theorem stringBytes_string : stringBytes "%s" = [37, 115] := by decide

theorem stringBytes_error : stringBytes "error %d" = [101, 114, 114, 111, 114, 32, 37, 100] := by decide

/-- A conversion without flags. -/
theorem reswitch_plain {ch : UInt8} (c : Conversion) (arg : ℕ) (hch : 97 ≤ ch) (hlong : ch ≠ 108) :
    Returns (fun fuel ↦ reswitch args fuel ⟨seen, ch :: rest⟩ c arg) (⟨seen, ch :: rest⟩, c, arg) := by
  have hne : ∀ other : UInt8, other < 97 → ch ≠ other := fun other hother heq ↦
    absurd (heq ▸ hch) (UInt8.not_le.mpr hother)
  have hdigit : ¬(49 ≤ ch ∧ ch ≤ 57) := fun h ↦ absurd (UInt8.le_trans hch h.2) (by decide)
  refine .of_succ (.of_eq fun fuel ↦ ?_)
  rw [reswitch, if_neg (hne 45 (by decide)), if_neg (hne 48 (by decide)), if_neg hdigit,
    if_neg (hne 42 (by decide)), if_neg (hne 46 (by decide)), if_neg (hne 35 (by decide)),
    if_neg hlong]

theorem vprintfmt_inner_string (arg : VaArg) : ∃ text,
    Returns (fun fuel ↦ vprintfmt before fuel (fun _ ↦ arg) ⟨[], stringBytes "%s"⟩ 0) text := by
  rw [stringBytes_string]
  exact ⟨_, vprintfmt_conversion (reswitch_plain _ _ (by decide) (by decide)) (.of_eq fun _ ↦ rfl)
    (vprintfmt_end _ _)⟩

theorem vprintfmt_inner_error (arg : VaArg) : ∃ text,
    Returns (fun fuel ↦ vprintfmt before fuel (fun _ ↦ arg) ⟨[], stringBytes "error %d"⟩ 0) text := by
  rw [stringBytes_error]
  refine ⟨_, vprintfmt_literal (by decide) (vprintfmt_literal (by decide) (vprintfmt_literal (by decide)
    (vprintfmt_literal (by decide) (vprintfmt_literal (by decide) (vprintfmt_literal (by decide)
    (vprintfmt_conversion (reswitch_plain _ _ (by decide) (by decide)) (.of_eq fun _ ↦ rfl)
    (vprintfmt_end _ _)))))))⟩

/-- `vprintfmt` comes to the end of every format, whatever the arguments are. -/
theorem vprintfmt_returns (before : Option (List UInt8)) (args : ℕ → VaArg) (seen rest : List UInt8)
    (arg : ℕ) : ∃ text, Returns (fun fuel ↦ vprintfmt before fuel args ⟨seen, rest⟩ arg) text :=
  vprintfmt_returns_of vprintfmt_inner_error vprintfmt_inner_string args seen rest arg

end Scan

/-! ## What is in the buffer -/

/-- After the characters of a text were put. -/
theorem foldl_sprintputch (text : List UInt8) (mem : ℕ → UInt8) (b : Sprintbuf) (hle : b.buf ≤ b.ebuf) :
    (text.foldl sprintputch (mem, b)).2.buf = min (b.buf + text.length) b.ebuf ∧
    int32 (text.foldl sprintputch (mem, b)).2.cnt = int32 (b.cnt + text.length) ∧
    (∀ index (h : index < text.length), b.buf + index < b.ebuf →
      (text.foldl sprintputch (mem, b)).1 (b.buf + index) = text[index]) ∧
    ∀ a, a < b.buf ∨ min (b.buf + text.length) b.ebuf ≤ a →
      (text.foldl sprintputch (mem, b)).1 a = mem a := by
  induction text generalizing mem b with
  | nil =>
    refine ⟨?_, ?_, fun index h ↦ absurd h (Nat.not_lt_zero _), fun a _ ↦ rfl⟩
    · rw [List.length_nil, Nat.add_zero]
      exact (min_eq_left hle).symm
    · rw [List.length_nil, Int.natCast_zero, Int.add_zero]
      rfl
  | cons ch text ih =>
    have hlength : (ch :: text).length = text.length + 1 := rfl
    have hcnt : int32 (int32 (b.cnt + 1) + text.length) = int32 (b.cnt + (ch :: text).length) := by
      unfold int32
      omega
    rw [List.foldl_cons]
    by_cases hroom : b.buf < b.ebuf
    · have hput : sprintputch (mem, b) ch =
          (Function.update mem b.buf ch, ⟨b.buf + 1, b.ebuf, int32 (b.cnt + 1)⟩) := if_pos hroom
      rw [hput]
      rcases ih (Function.update mem b.buf ch) ⟨b.buf + 1, b.ebuf, int32 (b.cnt + 1)⟩ hroom with
        ⟨hbuf, hcnt', hinside, houtside⟩
      dsimp only at hbuf hcnt' hinside houtside
      refine ⟨?_, hcnt'.trans hcnt, fun index h hlt ↦ ?_, fun a ha ↦ ?_⟩
      · rw [hbuf]
        omega
      · rcases index with - | index
        · exact (houtside b.buf (Or.inl (Nat.lt_succ_self _))).trans (Function.update_self ..)
        · have hbytes := hinside index (Nat.lt_of_succ_lt_succ h) (by omega)
          rw [Nat.add_right_comm, Nat.add_assoc] at hbytes
          exact hbytes
      · have hne : a ≠ b.buf := by omega
        rw [houtside a (by omega), Function.update_of_ne hne]
    · have hput : sprintputch (mem, b) ch = (mem, ⟨b.buf, b.ebuf, int32 (b.cnt + 1)⟩) := if_neg hroom
      rw [hput]
      rcases ih mem ⟨b.buf, b.ebuf, int32 (b.cnt + 1)⟩ hle with ⟨hbuf, hcnt', hinside, houtside⟩
      dsimp only at hbuf hcnt' hinside houtside
      refine ⟨?_, hcnt'.trans hcnt, fun index h hlt ↦ by omega, fun a ha ↦ ?_⟩
      · rw [hbuf]
        omega
      · exact houtside a (by omega)

/-- What is said of `vsnprintf` for a text: the first characters of it are in the buffer, as many as
there is room for, with a zero behind them, nothing else has changed, and the length of the whole
text is returned. -/
def PrintsWithin (before : Option (List UInt8)) (str size : ℕ) (fmt : List UInt8) (args : ℕ → VaArg)
    (mem : ℕ → UInt8) (text : List UInt8) : Prop :=
  ∃ mem', Returns (vsnprintf before str size fmt args mem) ((text.length : ℤ), mem') ∧
    (∀ index (h : index < text.length), index < size - 1 → mem' (str + index) = text[index]) ∧
    mem' (str + min (size - 1) text.length) = 0 ∧
    ∀ a, a < str ∨ str + min (size - 1) text.length < a → mem' a = mem a

section Buffer

variable {before : Option (List UInt8)} {str size : ℕ} {fmt text : List UInt8} {args : ℕ → VaArg}

theorem int32_cnt (text : List UInt8) (mem : ℕ → UInt8) (b : Sprintbuf) (hcnt : int32 b.cnt = b.cnt) :
    int32 (text.foldl sprintputch (mem, b)).2.cnt = (text.foldl sprintputch (mem, b)).2.cnt := by
  induction text generalizing mem b with
  | nil => exact hcnt
  | cons ch text ih =>
    have hstep : ∃ mem' buf, sprintputch (mem, b) ch = (mem', ⟨buf, b.ebuf, int32 (b.cnt + 1)⟩) := by
      by_cases hroom : b.buf < b.ebuf
      · exact ⟨_, _, if_pos hroom⟩
      · exact ⟨_, _, if_neg hroom⟩
    rcases hstep with ⟨mem', buf, hput⟩
    rw [List.foldl_cons, hput]
    refine ih _ _ ?_
    dsimp only
    unfold int32
    omega

/-- `vsnprintf` returns the number of characters as an `int`. -/
theorem vsnprintf_returns (hstr : str ≠ 0) (hsize : 1 ≤ size) (mem : ℕ → UInt8)
    (htext : Returns (fun fuel ↦ vprintfmt before fuel args ⟨[], fmt⟩ 0) text) :
    ∃ mem', Returns (vsnprintf before str size fmt args mem) (int32 text.length, mem') ∧
      (∀ index (h : index < text.length), index < size - 1 → mem' (str + index) = text[index]) ∧
      mem' (str + min (size - 1) text.length) = 0 ∧
      ∀ a, a < str ∨ str + min (size - 1) text.length < a → mem' a = mem a := by
  rcases foldl_sprintputch text mem ⟨str, str + size - 1, 0⟩ (by dsimp only; omega) with
    ⟨hbuf, hcnt, hinside, houtside⟩
  have hrange := int32_cnt text mem ⟨str, str + size - 1, 0⟩ rfl
  dsimp only at hbuf hcnt hinside houtside
  rw [hrange, Int.zero_add] at hcnt
  have hend : min (str + text.length) (str + size - 1) = str + min (size - 1) text.length := by omega
  rw [hend] at hbuf houtside
  have hcall : Returns (fun fuel ↦ vprintfmt before fuel args ⟨[], fmt⟩ 0 >>= fun text ↦
      .ok ((text.foldl sprintputch (mem, ⟨str, str + size - 1, 0⟩)).2.cnt,
        Function.update (text.foldl sprintputch (mem, ⟨str, str + size - 1, 0⟩)).1
          (text.foldl sprintputch (mem, ⟨str, str + size - 1, 0⟩)).2.buf 0)) _ :=
    htext.bind (.of_eq fun _ ↦ rfl)
  rw [hcnt, hbuf] at hcall
  refine ⟨_, .congr (fun fuel ↦ ?_) hcall, fun index h hlt ↦ ?_, Function.update_self .., fun a ha ↦ ?_⟩
  · have hvalid : ¬(str = 0 ∨ str + size - 1 < str) := by omega
    rw [vsnprintf]
    exact if_neg hvalid
  · rw [Function.update_of_ne (by omega), hinside index h (by omega)]
  · rw [Function.update_of_ne (by omega), houtside a (by omega)]

end Buffer

/-- Every format and every argument list give a text, and `vsnprintf` prints it right into every
buffer exactly when the number of its characters is an `int`. -/
theorem printsWithin_iff (before : Option (List UInt8)) {str size : ℕ} (hstr : str ≠ 0)
    (hsize : 1 ≤ size) (fmt : List UInt8) (args : ℕ → VaArg) (mem : ℕ → UInt8) :
    ∃ text, Returns (fun fuel ↦ vprintfmt before fuel args ⟨[], fmt⟩ 0) text ∧
      (PrintsWithin before str size fmt args mem text ↔ text.length < 2 ^ 31) := by
  rcases vprintfmt_returns before args [] fmt 0 with ⟨text, htext⟩
  rcases vsnprintf_returns hstr hsize mem htext with ⟨mem', hcall, hbuffer⟩
  refine ⟨text, htext, fun ⟨mem'', hcall', _⟩ ↦ ?_, fun hlength ↦ ⟨mem', ?_, hbuffer⟩⟩
  · have hret : int32 text.length = text.length := (Prod.mk.inj (hcall.unique hcall')).1
    unfold int32 at hret
    omega
  · have hret : int32 text.length = text.length := by
      unfold int32
      omega
    rwa [hret] at hcall

/-- `"n=%d"` with the argument 42, into 16 bytes. -/
theorem printsWithin_n : ∃ text,
    Returns (fun fuel ↦ vprintfmt none fuel (fun _ ↦ ⟨42, none⟩) ⟨[], [110, 61, 37, 100]⟩ 0) text ∧
    (PrintsWithin none 4096 16 [110, 61, 37, 100] (fun _ ↦ ⟨42, none⟩) (fun _ ↦ 0) text ↔
      text.length < 2 ^ 31) :=
  printsWithin_iff none (by decide) (by decide) [110, 61, 37, 100] (fun _ ↦ ⟨42, none⟩) fun _ ↦ 0

/-- `"%2147483647d%d"`. -/
def wideFormat : List UInt8 := [37, 50, 49, 52, 55, 52, 56, 51, 54, 52, 55, 100, 37, 100]

theorem length_printSigned_one (c : Conversion) :
    (printSigned c 1).length = (int32 (c.width - 1)).toNat + 1 := by
  have hcount : digitCount 10 1 = 1 := digitCount_of_lt (by decide)
  have hlength : (printnum 10 (by decide) 1 c.width c.padc).length = _ :=
    length_printnum (by decide) 1 c.width c.padc
  rw [hcount] at hlength
  rw [printSigned, if_neg (by decide), List.nil_append]
  exact hlength

/-- A width that is the largest `int`, and one more number. -/
theorem vprintfmt_wide : ∃ text, text.length = 2 ^ 31 ∧
    Returns (fun fuel ↦ vprintfmt none fuel (fun _ ↦ ⟨1, none⟩) ⟨[], wideFormat⟩ 0) text := by
  have hswitch : Returns (fun fuel ↦ reswitch (fun _ ↦ ⟨1, none⟩) fuel
      ⟨[37], [50, 49, 52, 55, 52, 56, 51, 54, 52, 55, 100, 37, 100]⟩ Conversion.first 0)
      (⟨[55, 52, 54, 51, 56, 52, 55, 52, 49, 50, 37], [100, 37, 100]⟩,
        { Conversion.first with width := 2147483647 }, 0) := by
    refine .of_succ (.of_succ (.of_eq fun fuel ↦ ?_))
    simp [reswitch, readPrecision, int32, Conversion.processPrecision, Conversion.first]
  have hlast : Returns (fun fuel ↦ vprintfmt none fuel (fun _ ↦ ⟨1, none⟩)
      ⟨[100, 55, 52, 54, 51, 56, 52, 55, 52, 49, 50, 37], [37, 100]⟩ 1)
      (printSigned Conversion.first 1 ++ []) :=
    vprintfmt_conversion (reswitch_plain _ _ (by decide) (by decide)) (.of_eq fun _ ↦ rfl)
      (vprintfmt_end _ _)
  refine ⟨printSigned { Conversion.first with width := 2147483647 } 1 ++
    (printSigned Conversion.first 1 ++ []), ?_,
    vprintfmt_conversion hswitch (.of_eq fun _ ↦ rfl) hlast⟩
  have hwide : int32 (2147483647 - 1) = 2147483646 := by decide
  have hplain : int32 (Conversion.first.width - 1) = -2 := by decide
  rw [List.append_nil, List.length_append, length_printSigned_one, length_printSigned_one, hplain]
  dsimp only
  rw [hwide]
  omega

theorem not_printsWithin_wide : ¬∀ before str size fmt args mem text, str ≠ 0 → 1 ≤ size →
    Returns (fun fuel ↦ vprintfmt before fuel args ⟨[], fmt⟩ 0) text →
    PrintsWithin before str size fmt args mem text := by
  intro hall
  rcases vprintfmt_wide with ⟨text, hlength, htext⟩
  have hstr : 4096 ≠ 0 := by decide
  have hsize : 1 ≤ 16 := by decide
  rcases hall none 4096 16 wideFormat _ (fun _ ↦ 0) text hstr hsize htext with ⟨mem', hcall, -⟩
  rcases vsnprintf_returns hstr hsize (fun _ ↦ 0) htext with ⟨mem'', hcall', -⟩
  have hret : (text.length : ℤ) = int32 text.length := (Prod.mk.inj (hcall.unique hcall')).1
  rw [hlength] at hret
  exact absurd hret (by decide)

end Ucore.Printfmt
