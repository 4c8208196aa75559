import Mathlib.Data.List.Basic
import Ucore.Library.Ring
import Ucore.Library.Run

/-!
# The standard input

`kern/fs/devs/dev_stdin.c`: interrupts put bytes into a ring, and processes take them out of it.
Both run with interrupts disabled, so that a reader is interrupted by nothing until it blocks. The
bytes that the ring accepted and the bytes that were taken out of it are remembered besides.
-/

namespace Ucore.Fs

open Library

def STDIN_BUFSIZE : ℕ := 4096

def WT_INTERRUPTED : ℕ := 0x80000000
def WT_KBD : ℕ := 0x00000004 ||| WT_INTERRUPTED

/-- `stdin_buffer`, `p_rpos` and `p_wpos`. -/
structure StdinBuffer where
  stdinBuffer : ℕ → UInt8
  pRpos : ℕ
  pWpos : ℕ

/-- A `wait_t` of a reader that called `schedule`. It is in `wait_queue` or was taken out of it, and
its process was made runnable again or was not. -/
structure Wait where
  wakeupFlags : ℕ
  inQueue : Bool
  runnable : Bool
  deriving DecidableEq

/-- `wait_current_set`. -/
def waitCurrentSet : Wait := ⟨WT_INTERRUPTED, true, false⟩

/-- What `wakeup_queue` does to each reader, with `del` set. -/
def Wait.wakeup (wait : Wait) (wakeupFlags : ℕ) : Wait :=
  if wait.inQueue then ⟨wakeupFlags, false, true⟩ else wait

inductive ReadProgress
  | waiting (wait : Wait)
  | returned (ret : ℕ)
  deriving DecidableEq

/-- A call of `dev_stdin_read`, with what it has stored at `buf`. -/
structure StdinRead where
  len : ℕ
  buf : List UInt8
  progress : ReadProgress
  deriving DecidableEq

def StdinRead.wakeup (read : StdinRead) (wakeupFlags : ℕ) : StdinRead :=
  match read.progress with
  | .waiting wait => { read with progress := .waiting (wait.wakeup wakeupFlags) }
  | .returned _ => read

/-- The device with the calls that readers have made. The list `accepted` has the bytes for which
`p_wpos` moved on, and `taken` those for which `p_rpos` did, with the index of the call. -/
structure Stdin where
  ring : StdinBuffer
  reads : List StdinRead
  accepted : List UInt8
  taken : List (ℕ × UInt8)

/-- After `stdin_device_init`. -/
def stdinDeviceInit (stdinBuffer : ℕ → UInt8) : Stdin := ⟨⟨stdinBuffer, 0, 0⟩, [], [], []⟩

/-! ## The functions of the device -/

/-- The ring has no room. -/
def StdinBuffer.Full (ring : StdinBuffer) : Prop := STDIN_BUFSIZE ≤ ring.pWpos - ring.pRpos

instance (ring : StdinBuffer) : Decidable ring.Full := inferInstanceAs (Decidable (_ ≤ _))

/-- The stores of `dev_stdin_write`. -/
def StdinBuffer.write (ring : StdinBuffer) (c : UInt8) : StdinBuffer where
  stdinBuffer := Function.update ring.stdinBuffer (ring.pWpos % STDIN_BUFSIZE) c
  pRpos := ring.pRpos
  pWpos := if ring.Full then ring.pWpos else ring.pWpos + 1

/-- `dev_stdin_write`. -/
def Stdin.devStdinWrite (stdin : Stdin) (c : UInt8) : Stdin :=
  if c ≠ 0 then
    { ring := stdin.ring.write c
      reads := stdin.reads.map fun read ↦ read.wakeup WT_KBD
      accepted := if stdin.ring.Full then stdin.accepted else stdin.accepted ++ [c]
      taken := stdin.taken }
  else stdin

/-- The loop of `dev_stdin_read` for so many bytes: it ends when there are enough, or when the ring
is empty. -/
def StdinBuffer.readLoop : ℕ → StdinBuffer → List UInt8 × StdinBuffer
  | 0, ring => ([], ring)
  | count + 1, ring =>
    if ring.pRpos < ring.pWpos then
      let (rest, after) := readLoop count { ring with pRpos := ring.pRpos + 1 }
      (ring.stdinBuffer (ring.pRpos % STDIN_BUFSIZE) :: rest, after)
    else ([], ring)

/-- A call that has all its bytes returns, and one that has not blocks. -/
def StdinRead.proceed (read : StdinRead) (ring : StdinBuffer) : StdinRead × StdinBuffer :=
  let (bytes, after) := ring.readLoop (read.len - read.buf.length)
  let buf := read.buf ++ bytes
  ({ len := read.len
     buf
     progress := if buf.length < read.len then .waiting waitCurrentSet else .returned buf.length },
    after)

/-- The call with this index runs until it blocks or returns. -/
def Stdin.run (stdin : Stdin) (index : ℕ) (read : StdinRead) : Stdin :=
  let (after, ring) := read.proceed stdin.ring
  { ring
    reads := stdin.reads.set index after
    accepted := stdin.accepted
    taken := stdin.taken ++ (after.buf.drop read.buf.length).map fun byte ↦ (index, byte) }

/-- `dev_stdin_read` by one more call. -/
def Stdin.devStdinRead (stdin : Stdin) (len : ℕ) : Stdin :=
  let read : StdinRead := ⟨len, [], .waiting waitCurrentSet⟩
  { stdin with reads := stdin.reads ++ [read] }.run stdin.reads.length read

/-- What follows `schedule`: a reader that the keyboard woke tries again, any other one gives up. -/
def Stdin.resume (stdin : Stdin) (index : ℕ) (read : StdinRead) (wait : Wait) : Stdin :=
  if wait.wakeupFlags = WT_KBD then stdin.run index read
  else
    { stdin with
      reads := stdin.reads.set index { read with progress := .returned read.buf.length } }

/-! ## The steps -/

inductive StdinEvent
  | write (c : UInt8)
  | read (len : ℕ)
  | wakeup (index : ℕ)
  | resume (index : ℕ)

/-- The steps in any order. A process that waits can be woken for other reasons than the keyboard,
and its `wait_t` then stays in the queue. -/
inductive StdinStep (stdin : Stdin) : StdinEvent → Stdin → Prop
  | write (c : UInt8) : StdinStep stdin (.write c) (stdin.devStdinWrite c)
  | read (len : ℕ) : StdinStep stdin (.read len) (stdin.devStdinRead len)
  | wakeup {index : ℕ} {read : StdinRead} {wait : Wait} (hread : stdin.reads[index]? = some read)
    (hwait : read.progress = .waiting wait) :
    StdinStep stdin (.wakeup index) { stdin with
      reads := stdin.reads.set index
        { read with progress := .waiting { wait with runnable := true } } }
  | resume {index : ℕ} {read : StdinRead} {wait : Wait} (hread : stdin.reads[index]? = some read)
    (hwait : read.progress = .waiting wait) (hrunnable : wait.runnable) :
    StdinStep stdin (.resume index) (stdin.resume index read wait)

/-! ## What the device is for -/

/-- The bytes between the two positions. -/
def StdinBuffer.unread (ring : StdinBuffer) : List UInt8 :=
  Library.ring ring.stdinBuffer STDIN_BUFSIZE ring.pRpos (ring.pWpos - ring.pRpos)

/-- What the call with this index has taken out of the ring. -/
def takenBy (taken : List (ℕ × UInt8)) (index : ℕ) : List UInt8 :=
  (taken.filter fun entry ↦ entry.1 = index).map Prod.snd

/-- The bytes that were taken and the unread ones are the accepted ones, each once and in their
order, and each call has stored and counted those that it took. -/
structure Delivers (stdin : Stdin) : Prop where
  order : stdin.taken.map Prod.snd ++ stdin.ring.unread = stdin.accepted
  behind : stdin.ring.pRpos ≤ stdin.ring.pWpos
  held : stdin.ring.pWpos - stdin.ring.pRpos ≤ STDIN_BUFSIZE
  stored : ∀ (index : ℕ) (read : StdinRead), stdin.reads[index]? = some read →
    read.buf = takenBy stdin.taken index ∧ read.buf.length ≤ read.len
  counted : ∀ read ∈ stdin.reads, ∀ ret, read.progress = .returned ret → ret = read.buf.length
  known : ∀ entry ∈ stdin.taken, entry.1 < stdin.reads.length

/-- A byte that is written into a full ring is the one that it overwrites. -/
def StdinEvent.Harmless (stdin : Stdin) : StdinEvent → Prop
  | .write c => c = 0 ∨ ¬stdin.ring.Full ∨ stdin.ring.unread.head? = some c
  | _ => True

/-! ## The ring -/

section Ring

variable {ring : StdinBuffer} {c : UInt8}

theorem unread_write (h : ¬ring.Full) (hbehind : ring.pRpos ≤ ring.pWpos) :
    (ring.write c).unread = ring.unread ++ [c] := by
  have hroom : ring.pWpos - ring.pRpos < STDIN_BUFSIZE := not_le.mp h
  have hpush := ring_push ring.stdinBuffer ring.pRpos c hroom
  have hcount : ring.pWpos + 1 - ring.pRpos = ring.pWpos - ring.pRpos + 1 := by omega
  rw [Nat.add_sub_cancel' hbehind] at hpush
  rw [StdinBuffer.unread, StdinBuffer.write, if_neg h, hcount]
  exact hpush

/-- The byte is stored in place of the oldest one, though `p_wpos` stays. -/
theorem unread_write_full (h : ring.Full) (hheld : ring.pWpos - ring.pRpos ≤ STDIN_BUFSIZE) :
    (ring.write c).unread = c :: ring.unread.tail := by
  have hcount : ring.pWpos - ring.pRpos = STDIN_BUFSIZE := le_antisymm hheld h
  have hpos : 0 < STDIN_BUFSIZE := by decide
  have hpush := ring_push_full ring.stdinBuffer ring.pRpos c hpos
  have hstop : ring.pRpos + STDIN_BUFSIZE = ring.pWpos := by omega
  rw [hstop] at hpush
  rw [StdinBuffer.unread, StdinBuffer.write, if_pos h, hcount, StdinBuffer.unread, hcount]
  exact hpush

/-- The loop takes the oldest bytes, and as many as there are. -/
theorem readLoop_spec (ring : StdinBuffer) (count : ℕ) (hbehind : ring.pRpos ≤ ring.pWpos) :
    (ring.readLoop count).1 = ring.unread.take count ∧
      (ring.readLoop count).2.unread = ring.unread.drop count ∧
      (ring.readLoop count).2.pWpos = ring.pWpos ∧
      ring.pRpos ≤ (ring.readLoop count).2.pRpos ∧
      (ring.readLoop count).2.pRpos ≤ ring.pWpos := by
  induction count generalizing ring with
  | zero => exact ⟨rfl, rfl, rfl, le_rfl, hbehind⟩
  | succ count ih =>
    by_cases hlt : ring.pRpos < ring.pWpos
    · have hunread : ring.unread = ring.stdinBuffer (ring.pRpos % STDIN_BUFSIZE) ::
          StdinBuffer.unread { ring with pRpos := ring.pRpos + 1 } := by
        have hcount : ring.pWpos - ring.pRpos = ring.pWpos - (ring.pRpos + 1) + 1 := by omega
        rw [StdinBuffer.unread, hcount, ring_succ]
        rfl
      rcases ih { ring with pRpos := ring.pRpos + 1 } hlt with
        ⟨htake, hdrop, hwpos, hle, hlast⟩
      rw [StdinBuffer.readLoop, if_pos hlt, hunread, List.take_succ_cons, List.drop_succ_cons,
        ← htake]
      exact ⟨rfl, hdrop, hwpos, Nat.le_of_succ_le hle, hlast⟩
    · have hempty : ring.unread = [] := by
        rw [StdinBuffer.unread, Nat.sub_eq_zero_of_le (not_lt.mp hlt), ring_zero]
      rw [StdinBuffer.readLoop, if_neg hlt, hempty, List.drop_nil]
      exact ⟨rfl, rfl, rfl, le_rfl, hbehind⟩

end Ring

/-! ## What each step keeps -/

section Step

variable {stdin next : Stdin} {index : ℕ} {read : StdinRead} {c : UInt8}

theorem takenBy_append (taken : List (ℕ × UInt8)) (bytes : List UInt8) (index other : ℕ) :
    takenBy (taken ++ bytes.map fun byte ↦ (index, byte)) other =
      takenBy taken other ++ if index = other then bytes else [] := by
  have hnew : takenBy (bytes.map fun byte ↦ (index, byte)) other =
      if index = other then bytes else [] := by
    rw [takenBy, List.filter_map, List.map_map]
    by_cases heq : index = other
    · have hall : bytes.filter ((fun entry : ℕ × UInt8 ↦ decide (entry.1 = other)) ∘
          fun byte ↦ (index, byte)) = bytes :=
        List.filter_eq_self.mpr fun byte _ ↦ decide_eq_true heq
      rw [hall, if_pos heq]
      exact List.map_id bytes
    · have hnone : bytes.filter ((fun entry : ℕ × UInt8 ↦ decide (entry.1 = other)) ∘
          fun byte ↦ (index, byte)) = [] :=
        List.filter_eq_nil_iff.mpr fun byte _ ↦ by simpa using heq
      rw [hnone, if_neg heq, List.map_nil]
  rw [takenBy, List.filter_append, List.map_append, ← takenBy, ← takenBy, hnew]

/-- Nothing but the progress of the calls changes. -/
theorem Delivers.reads {reads : List StdinRead} (h : Delivers stdin)
    (hlength : reads.length = stdin.reads.length)
    (hreads : ∀ (index : ℕ) (after : StdinRead), reads[index]? = some after →
      ∃ read : StdinRead, stdin.reads[index]? = some read ∧ after.len = read.len ∧
      after.buf = read.buf ∧ ∀ ret, after.progress = .returned ret →
        read.progress = .returned ret ∨ ret = read.buf.length) :
    Delivers { stdin with reads } where
  order := h.order
  behind := h.behind
  held := h.held
  stored index after hafter := by
    rcases hreads index after hafter with ⟨read, hread, hlen, hbuf, -⟩
    rw [hlen, hbuf]
    exact h.stored index read hread
  counted after hafter ret hret := by
    rcases List.mem_iff_getElem?.mp hafter with ⟨index, hindex⟩
    rcases hreads index after hindex with ⟨read, hread, -, hbuf, hor⟩
    rw [hbuf]
    rcases hor ret hret with hsame | heq
    · exact h.counted read (List.mem_of_getElem? hread) ret hsame
    · exact heq
  known entry hentry := hlength ▸ h.known entry hentry

/-- The progress of one call changes. -/
theorem Delivers.set (h : Delivers stdin) (hread : stdin.reads[index]? = some read)
    {progress : ReadProgress} (hret : ∀ ret, progress = .returned ret → ret = read.buf.length) :
    Delivers { stdin with reads := stdin.reads.set index { read with progress } } := by
  refine h.reads (List.length_set ..) fun other after hafter ↦ ?_
  by_cases heq : index = other
  · subst heq
    rcases List.getElem?_eq_some_iff.mp hread with ⟨hlt, -⟩
    rw [List.getElem?_set_self hlt] at hafter
    cases hafter
    exact ⟨read, hread, rfl, rfl, fun ret heq ↦ Or.inr (hret ret heq)⟩
  · rw [List.getElem?_set_ne heq] at hafter
    exact ⟨after, hafter, rfl, rfl, fun ret heq ↦ Or.inl heq⟩

/-- A call that runs takes the oldest bytes for itself. -/
theorem Delivers.run (h : Delivers stdin) (hread : stdin.reads[index]? = some read) :
    Delivers (stdin.run index read) := by
  rcases readLoop_spec stdin.ring (read.len - read.buf.length) h.behind with
    ⟨htake, hdrop, hwpos, hle, hlast⟩
  rcases List.getElem?_eq_some_iff.mp hread with ⟨hlt, -⟩
  rcases h.stored index read hread with ⟨hbuf, hlen⟩
  have hfew : (stdin.ring.readLoop (read.len - read.buf.length)).1.length ≤
      read.len - read.buf.length := htake ▸ List.length_take_le ..
  have horder : (stdin.ring.readLoop (read.len - read.buf.length)).1 ++
      (stdin.ring.readLoop (read.len - read.buf.length)).2.unread = stdin.ring.unread := by
    rw [htake, hdrop, List.take_append_drop]
  have hheld := h.held
  rw [Stdin.run, StdinRead.proceed]
  generalize stdin.ring.readLoop (read.len - read.buf.length) = result at *
  rcases result with ⟨bytes, ring⟩
  dsimp only at *
  rw [List.drop_left]
  have hfewer : ring.pWpos - ring.pRpos ≤ STDIN_BUFSIZE := by omega
  have hfits : (read.buf ++ bytes).length ≤ read.len := by
    rw [List.length_append]
    omega
  refine ⟨?_, hwpos ▸ hlast, hfewer, fun other after hafter ↦ ?_, fun after hafter ret hret ↦ ?_,
    fun entry hentry ↦ ?_⟩
  · have hsnd : (bytes.map fun byte ↦ (index, byte)).map Prod.snd = bytes := by
      rw [List.map_map]
      exact List.map_id bytes
    rw [List.map_append, hsnd, List.append_assoc, horder]
    exact h.order
  · rw [takenBy_append]
    by_cases heq : index = other
    · subst heq
      rw [List.getElem?_set_self hlt] at hafter
      cases hafter
      rw [if_pos rfl, ← hbuf]
      exact ⟨rfl, hfits⟩
    · rw [List.getElem?_set_ne heq] at hafter
      rw [if_neg heq, List.append_nil]
      exact h.stored other after hafter
  · rcases List.mem_or_eq_of_mem_set hafter with hold | rfl
    · exact h.counted after hold ret hret
    · dsimp only at hret ⊢
      split at hret
      · cases hret
      · cases hret
        rfl
  · rw [List.length_set]
    rcases List.mem_append.mp hentry with hold | hnew
    · exact h.known entry hold
    · rcases List.mem_map.mp hnew with ⟨byte, -, rfl⟩
      exact hlt

theorem Delivers.devStdinRead (h : Delivers stdin) (len : ℕ) :
    Delivers (stdin.devStdinRead len) := by
  have hnone : takenBy stdin.taken stdin.reads.length = [] := by
    have hfilter : stdin.taken.filter (fun entry ↦ entry.1 = stdin.reads.length) = [] :=
      List.filter_eq_nil_iff.mpr fun entry hentry heq ↦
        Nat.ne_of_lt (h.known entry hentry) (of_decide_eq_true heq)
    rw [takenBy, hfilter, List.map_nil]
  refine Delivers.run ⟨h.order, h.behind, h.held, fun index read hread ↦ ?_, fun read hread ↦ ?_,
    fun entry hentry ↦ ?_⟩ List.getElem?_concat_length
  · rcases Nat.lt_or_ge index stdin.reads.length with hlt | hge
    · have hold : stdin.reads[index]? = some read := by
        rw [← hread]
        exact (List.getElem?_append_left hlt).symm
      exact h.stored index read hold
    · have hnew : [(⟨len, [], .waiting waitCurrentSet⟩ : StdinRead)][index - stdin.reads.length]? =
          some read := by
        rw [← hread]
        exact (List.getElem?_append_right hge).symm
      rcases List.getElem?_eq_some_iff.mp hnew with ⟨hlt, -⟩
      have heq : index = stdin.reads.length := by
        rw [List.length_singleton] at hlt
        omega
      rw [heq, Nat.sub_self] at hnew
      cases hnew
      rw [heq, hnone]
      exact ⟨rfl, Nat.zero_le _⟩
  · rcases List.mem_append.mp hread with hold | hnew
    · exact h.counted read hold
    · rw [List.mem_singleton.mp hnew]
      nofun
  · have hlength : stdin.reads.length <
        (stdin.reads ++ [(⟨len, [], .waiting waitCurrentSet⟩ : StdinRead)]).length := by
      rw [List.length_append]
      exact Nat.lt_succ_self _
    exact Nat.lt_trans (h.known entry hentry) hlength

/-- The wakeups of a write touch only the progress. -/
theorem Delivers.wakeups (h : Delivers stdin) (wakeupFlags : ℕ) :
    Delivers { stdin with reads := stdin.reads.map fun read ↦ read.wakeup wakeupFlags } := by
  refine h.reads (List.length_map ..) fun index after hafter ↦ ?_
  rw [List.getElem?_map] at hafter
  rcases Option.map_eq_some_iff.mp hafter with ⟨read, hread, rfl⟩
  refine ⟨read, hread, ?_⟩
  rw [StdinRead.wakeup]
  split
  · exact ⟨rfl, rfl, nofun⟩
  · exact ⟨rfl, rfl, fun ret hret ↦ Or.inl hret⟩

/-- A write keeps the order exactly if it does no harm. -/
theorem Delivers.devStdinWrite (h : Delivers stdin) (c : UInt8) :
    Delivers (stdin.devStdinWrite c) ↔ (StdinEvent.write c).Harmless stdin := by
  by_cases hzero : c = 0
  · rw [Stdin.devStdinWrite, if_neg (not_not.mpr hzero)]
    exact iff_of_true h (Or.inl hzero)
  rw [Stdin.devStdinWrite, if_pos hzero]
  have hwoken := h.wakeups WT_KBD
  by_cases hfull : stdin.ring.Full
  · have hunread := unread_write_full (c := c) hfull h.held
    have hsame : Delivers { stdin with
        ring := stdin.ring.write c
        reads := stdin.reads.map fun read ↦ read.wakeup WT_KBD } ↔
        stdin.ring.unread.head? = some c := by
      constructor
      · intro hafter
        have horder := hafter.order.trans h.order.symm
        have htail := List.append_cancel_left horder
        rw [← htail]
        exact congrArg List.head? hunread
      · intro hhead
        have hwpos : (stdin.ring.write c).pWpos = stdin.ring.pWpos := if_pos hfull
        have hkeep : (stdin.ring.write c).unread = stdin.ring.unread := by
          rw [hunread]
          exact List.cons_head?_tail hhead
        refine ⟨?_, ?_, ?_, hwoken.stored, hwoken.counted, hwoken.known⟩
        · rw [hkeep]
          exact h.order
        · rw [hwpos]
          exact h.behind
        · rw [hwpos]
          exact h.held
    rw [if_pos hfull]
    refine hsame.trans ⟨fun hhead ↦ Or.inr (Or.inr hhead), ?_⟩
    rintro (hc | hroom | hhead)
    · exact absurd hc hzero
    · exact absurd hfull hroom
    · exact hhead
  · refine iff_of_true ?_ (Or.inr (Or.inl hfull))
    rw [if_neg hfull]
    have hunread := unread_write (c := c) hfull h.behind
    have hwpos : (stdin.ring.write c).pWpos = stdin.ring.pWpos + 1 := if_neg hfull
    have hroom : stdin.ring.pWpos - stdin.ring.pRpos < STDIN_BUFSIZE := not_le.mp hfull
    refine ⟨?_, ?_, ?_, hwoken.stored, hwoken.counted, hwoken.known⟩
    · rw [hunread, ← List.append_assoc, h.order]
    · rw [hwpos]
      exact Nat.le_succ_of_le h.behind
    · rw [hwpos]
      change stdin.ring.pWpos + 1 - stdin.ring.pRpos ≤ _
      omega

theorem delivers_step {event : StdinEvent} (h : Delivers stdin)
    (hstep : StdinStep stdin event next) : Delivers next ↔ event.Harmless stdin := by
  cases hstep with
  | write c => exact h.devStdinWrite c
  | read len => exact iff_of_true (h.devStdinRead len) trivial
  | wakeup hread hwait => exact iff_of_true (h.set hread nofun) trivial
  | @resume index read wait hread hwait hrunnable =>
    refine iff_of_true ?_ trivial
    rw [Stdin.resume]
    split
    · exact h.run hread
    · exact h.set hread fun ret hret ↦ (ReadProgress.returned.inj hret).symm

end Step

theorem delivers_init (stdinBuffer : ℕ → UInt8) : Delivers (stdinDeviceInit stdinBuffer) :=
  ⟨rfl, le_rfl, Nat.zero_le _, nofun, nofun, nofun⟩

/-- What was left in the buffer before does not matter. -/
def NewStdin (stdin : Stdin) : Prop := ∃ stdinBuffer, stdin = stdinDeviceInit stdinBuffer

def HarmlessStep (stdin next : Stdin) : Prop :=
  ∃ event : StdinEvent, event.Harmless stdin ∧ StdinStep stdin event next

/-- In every run in which no byte is written over another one, the bytes are delivered in order, and
the first write over another one ends that. -/
theorem delivers_of_harmless {stdin : Stdin} (h : Reachable NewStdin HarmlessStep stdin) :
    Delivers stdin ∧ ∀ event next, StdinStep stdin event next →
      (Delivers next ↔ event.Harmless stdin) := by
  have hdelivers : Delivers stdin := by
    refine h.invariant ?_ ?_
    · rintro _ ⟨stdinBuffer, rfl⟩
      exact delivers_init stdinBuffer
    · rintro stdin next h ⟨event, hharmless, hstep⟩
      exact (delivers_step h hstep).mpr hharmless
  exact ⟨hdelivers, fun event next hstep ↦ delivers_step hdelivers hstep⟩

/-- A reader that waits for three bytes gets the first one. -/
theorem delivers_firstByte :
    Delivers (((stdinDeviceInit fun _ ↦ 0).devStdinRead 3).devStdinWrite 97) := by
  have hnew : Reachable NewStdin HarmlessStep (stdinDeviceInit fun _ ↦ 0) :=
    .first ⟨fun _ ↦ 0, rfl⟩
  have hread := hnew.step ⟨.read 3, trivial, .read 3⟩
  have hwrite : (StdinEvent.write 97).Harmless ((stdinDeviceInit fun _ ↦ 0).devStdinRead 3) :=
    Or.inr (Or.inl (by decide))
  exact (delivers_of_harmless (hread.step ⟨.write 97, hwrite, .write 97⟩)).1

/-- So many writes of one byte to an empty ring. -/
def filled : ℕ → Stdin
  | 0 => stdinDeviceInit fun _ ↦ 0
  | count + 1 => (filled count).devStdinWrite 97

theorem filled_eq {count : ℕ} (h : count ≤ STDIN_BUFSIZE) :
    Reachable NewStdin HarmlessStep (filled count) ∧ (filled count).ring.pRpos = 0 ∧
      (filled count).ring.pWpos = count ∧ (filled count).taken = [] ∧
      (filled count).accepted = List.replicate count 97 := by
  induction count with
  | zero => exact ⟨.first ⟨_, rfl⟩, rfl, rfl, rfl, rfl⟩
  | succ count ih =>
    rcases ih (Nat.le_of_succ_le h) with ⟨hreach, hrpos, hwpos, htaken, haccepted⟩
    have hroom : ¬(filled count).ring.Full := by
      rw [StdinBuffer.Full, hrpos, hwpos]
      omega
    have hwrite : filled (count + 1) =
        { ring := (filled count).ring.write 97
          reads := (filled count).reads.map fun read ↦ read.wakeup WT_KBD
          accepted := (filled count).accepted ++ [97]
          taken := (filled count).taken } := by
      rw [filled, Stdin.devStdinWrite, if_pos (by decide), if_neg hroom]
    refine ⟨hreach.step ⟨.write 97, Or.inr (Or.inl hroom), .write 97⟩, ?_⟩
    rw [hwrite]
    refine ⟨hrpos, ?_, htaken, ?_⟩
    · rw [StdinBuffer.write, if_neg hroom, hwpos]
    · rw [haccepted, List.replicate_succ']

/-- Another byte takes the place of the oldest one in a full ring, and is the next to be read. -/
theorem not_delivers_fullRing : Reachable NewStdin HarmlessStep (filled STDIN_BUFSIZE) ∧
    ¬Delivers ((filled STDIN_BUFSIZE).devStdinWrite 98) ∧
    ((filled STDIN_BUFSIZE).devStdinWrite 98).ring.unread.head? = some 98 := by
  rcases filled_eq le_rfl with ⟨hreach, hrpos, hwpos, htaken, haccepted⟩
  have hdelivers : Delivers (filled STDIN_BUFSIZE) := by
    refine hreach.invariant ?_ fun stdin next h ⟨event, hharmless, hstep⟩ ↦
      (delivers_step h hstep).mpr hharmless
    rintro _ ⟨stdinBuffer, rfl⟩
    exact delivers_init stdinBuffer
  have hfull : (filled STDIN_BUFSIZE).ring.Full := by
    rw [StdinBuffer.Full, hrpos, hwpos]
    exact le_rfl
  have horder := hdelivers.order
  rw [htaken, haccepted, List.map_nil, List.nil_append] at horder
  refine ⟨hreach, fun hafter ↦ ?_, ?_⟩
  · rcases (hdelivers.devStdinWrite 98).mp hafter with hzero | hroom | hhead
    · exact absurd hzero (by decide)
    · exact hroom hfull
    · rw [horder, STDIN_BUFSIZE, List.replicate_succ, List.head?_cons] at hhead
      exact absurd hhead (by decide)
  · have hunread := unread_write_full (c := 98) hfull hdelivers.held
    rw [Stdin.devStdinWrite, if_pos (by decide), hunread, List.head?_cons]

end Ucore.Fs
