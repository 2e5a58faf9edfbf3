import Xv6.Lib.RingBuffer

/-!
The input buffer of the console.

Owns: the ring of typed characters with its read, write and edit indices, and what
`consoleintr` and a critical section of `consoleread` do to it; the terminal as its users see
it, a queue of committed characters and a line that can still be edited; and that the ring
behaves as that terminal.

Does not own: who types and who reads (`Xv6.Console.LineDiscipline`); what is echoed.

Both `kbdgetc` and `uartgetc` return a byte or a negative number, so a typed character is a
byte.
-/

namespace Xv6.Console

open RingBuffer

/-- `INPUT_BUF` -/
def inputBuf : Nat := 128

instance : NeZero inputBuf := ⟨by decide⟩

/-- The values of an index, which is an `uint`. -/
def indices : Nat := 2 ^ 32

structure Input where
  buf : Fin inputBuf → UInt8
  /-- Read index. -/
  r : Nat
  /-- Write index. -/
  w : Nat
  /-- Edit index. -/
  e : Nat

/-- `C(x)` -/
def ctrl (x : Char) : UInt8 := x.toUInt8 - '@'.toUInt8

def listing : UInt8 := ctrl 'P'

def kill : UInt8 := ctrl 'U'

def backspace : UInt8 := ctrl 'H'

/-- `'\x7f'` -/
def delete : UInt8 := 127

def eof : UInt8 := ctrl 'D'

def newline : UInt8 := 10

def carriageReturn : UInt8 := 13

namespace Input

/-- `input.e--` -/
def erase (input : Input) : Input :=
  { input with e := previous indices input.e }

/-- The loop of kill-line, which runs at most once for each character of the line. -/
def killLoop : Nat → Input → Input
  | 0, input => input
  | fuel + 1, input =>
    if input.e ≠ input.w ∧ input.buf (cell input.erase.e) ≠ newline then
      killLoop fuel input.erase
    else input

/-- `input.buf[input.e++ % INPUT_BUF] = c` -/
def store (input : Input) (c : UInt8) : Input :=
  { input with
    buf := Function.update input.buf (cell input.e) c
    e := (input.e + 1) % indices }

/-- `input.w = input.e` -/
def commit (input : Input) : Input :=
  { input with w := input.e }

/-- The last case of `consoleintr`. -/
def type (input : Input) (c : UInt8) : Input :=
  if c ≠ 0 ∧ count indices input.r input.e < inputBuf then
    let c := if c = carriageReturn then newline else c
    let stored := input.store c
    if c = newline ∨ c = eof ∨ stored.e = (stored.r + inputBuf) % indices then stored.commit
    else stored
  else input

/-- One turn of the loop of `consoleintr`. -/
def key (input : Input) (c : UInt8) : Input :=
  if c = listing then input
  else if c = kill then input.killLoop (count indices input.w input.e)
  else if c = backspace ∨ c = delete then
    if input.e ≠ input.w then input.erase else input
  else input.type c

/-- `consoleintr`, with the characters that `getc` has for it. -/
def consoleintr (input : Input) (typed : List UInt8) : Input :=
  typed.foldl key input

/-- `input.buf[input.r % INPUT_BUF]` -/
def first (input : Input) : UInt8 :=
  input.buf (cell input.r)

/-- `input.r++` -/
def advance (input : Input) : Input :=
  { input with r := (input.r + 1) % indices }

/-- `input.r--` -/
def pushBack (input : Input) : Input :=
  { input with r := previous indices input.r }

end Input

/-- How a process leaves the critical section of `consoleread`, with the bytes it has stored. -/
inductive Outcome where
  | returned (result : Int) (got : List UInt8)
  /-- In `sleep`, with `n` still to read. -/
  | asleep (n : Nat) (got : List UInt8)
deriving DecidableEq, Repr

def Outcome.got : Outcome → List UInt8
  | .returned _ got => got
  | .asleep _ got => got

/-- The loop of `consoleread`, up to where it sleeps or returns; `n` is what is left of `target`. -/
def readLoop (killed : Bool) (target : Nat) : Nat → Input → List UInt8 → Input × Outcome
  | 0, input, got => (input, .returned target got)
  | n + 1, input, got =>
    if input.r = input.w then
      (input, if killed then .returned (-1) got else .asleep (n + 1) got)
    else
      let c := input.first
      if c = eof then
        (if n + 1 < target then input.advance.pushBack else input.advance,
          .returned (target - (n + 1 : Nat)) got)
      else if c = newline then (input.advance, .returned (target - (n : Nat)) (got ++ [c]))
      else readLoop killed target n input.advance (got ++ [c])

/-! ## The terminal -/

/-- What the ring is for. -/
structure Terminal where
  /-- Characters that readers may have, oldest first. -/
  committed : List UInt8
  /-- Characters that can be edited. -/
  line : List UInt8
deriving DecidableEq, Repr

namespace Terminal

def type (t : Terminal) (c : UInt8) : Terminal :=
  if c ≠ 0 ∧ t.committed.length + t.line.length < inputBuf then
    let c := if c = carriageReturn then newline else c
    let line := t.line ++ [c]
    if c = newline ∨ c = eof ∨ t.committed.length + line.length = inputBuf then
      ⟨t.committed ++ line, []⟩
    else ⟨t.committed, line⟩
  else t

def key (t : Terminal) (c : UInt8) : Terminal :=
  if c = listing then t
  else if c = kill then { t with line := [] }
  else if c = backspace ∨ c = delete then { t with line := t.line.dropLast }
  else t.type c

/-- A read that takes characters from the committed ones: those it leaves, and how it ends. -/
def read (killed : Bool) (target : Nat) : Nat → List UInt8 → List UInt8 → List UInt8 × Outcome
  | 0, queue, got => (queue, .returned target got)
  | n + 1, [], got => ([], if killed then .returned (-1) got else .asleep (n + 1) got)
  | n + 1, c :: queue, got =>
    if c = eof then
      (if n + 1 < target then c :: queue else queue, .returned (target - (n + 1 : Nat)) got)
    else if c = newline then (queue, .returned (target - (n : Nat)) (got ++ [c]))
    else read killed target n queue (got ++ [c])

/-- Keys only add to the committed characters. -/
theorem committed_key (t : Terminal) (c : UInt8) : t.committed <+: (t.key c).committed := by
  unfold key type
  dsimp only
  split_ifs <;> simp only [List.prefix_rfl, List.prefix_append]

end Terminal

/-! ## The ring as a terminal -/

namespace Input

/-- The characters between two indices. -/
def between (input : Input) (start stop : Nat) : List UInt8 :=
  contents indices input.buf start stop

def view (input : Input) : Terminal :=
  ⟨input.between input.r input.w, input.between input.w input.e⟩

theorem view_committed (input : Input) : input.view.committed = input.between input.r input.w := rfl

structure WellFormed (input : Input) : Prop where
  readBound : input.r < indices
  writeBound : input.w < indices
  editBound : input.e < indices
  fits : count indices input.r input.w + count indices input.w input.e ≤ inputBuf
  /-- A full buffer is committed. -/
  full : count indices input.r input.w + count indices input.w input.e = inputBuf →
    input.w = input.e
  /-- A line ends when it is committed. -/
  plain : newline ∉ input.between input.w input.e

theorem inputBuf_lt : inputBuf < indices := by decide

theorem inputBuf_dvd : inputBuf ∣ indices := by decide

namespace WellFormed

variable {input : Input}

theorem count_edit (wf : WellFormed input) : count indices input.r input.e =
    count indices input.r input.w + count indices input.w input.e :=
  count_split wf.readBound wf.writeBound wf.editBound
    (Nat.lt_of_le_of_lt wf.fits inputBuf_lt)

theorem nonempty (wf : WellFormed input) (some_ : input.e ≠ input.w) :
    count indices input.w input.e ≠ 0 := by
  intro none_
  exact some_ ((empty_iff wf.writeBound wf.editBound).mpr none_).symm

theorem erase (wf : WellFormed input) (some_ : input.e ≠ input.w) :
    WellFormed input.erase ∧ input.between input.w input.e =
      input.erase.between input.w input.erase.e ++ [input.buf (cell input.erase.e)] := by
  have nonempty := wf.nonempty some_
  have fewer := count_unwrite wf.writeBound wf.editBound nonempty
  have shorter : input.between input.w input.e =
      input.erase.between input.w input.erase.e ++ [input.buf (cell input.erase.e)] :=
    contents_unwrite wf.writeBound wf.editBound nonempty inputBuf_dvd
  have fits := wf.fits
  refine ⟨⟨wf.readBound, wf.writeBound, previous_lt wf.editBound, ?_, ?_, ?_⟩, shorter⟩
  · change count indices input.r input.w + count indices input.w
      (previous indices input.e) ≤ inputBuf
    omega
  · change count indices input.r input.w + count indices input.w
      (previous indices input.e) = inputBuf → _
    omega
  · intro member
    apply wf.plain
    rw [shorter]
    exact List.mem_append_left _ member

/-- Kill-line empties the line: there is no newline in it to stop at. -/
theorem killLoop (wf : WellFormed input) {fuel : Nat}
    (enough : count indices input.w input.e ≤ fuel) :
    WellFormed (input.killLoop fuel) ∧
      (input.killLoop fuel).view = { input.view with line := [] } := by
  induction fuel generalizing input with
  | zero =>
    have same := (empty_iff wf.writeBound wf.editBound).mpr (Nat.le_zero.mp enough)
    refine ⟨wf, ?_⟩
    have empty : input.between input.w input.e = [] := by
      rw [← same]
      exact contents_self input.buf wf.writeBound
    exact congrArg (Terminal.mk _) empty
  | succ fuel ih =>
    unfold Input.killLoop
    by_cases some_ : input.e = input.w
    · rw [if_neg (fun both => both.1 some_)]
      refine ⟨wf, ?_⟩
      have empty : input.between input.w input.e = [] := by
        rw [some_]
        exact contents_self input.buf wf.writeBound
      exact congrArg (Terminal.mk _) empty
    · obtain ⟨erased, shorter⟩ := wf.erase some_
      have notNewline : input.buf (cell input.erase.e) ≠ newline := by
        intro same
        apply wf.plain
        rw [shorter, same]
        exact List.mem_append_right _ (List.mem_singleton_self _)
      have fewer := count_unwrite wf.writeBound wf.editBound (wf.nonempty some_)
      rw [if_pos ⟨some_, notNewline⟩]
      refine ih erased ?_
      change count indices input.w (previous indices input.e) ≤ fuel
      omega

theorem line_empty (wf : WellFormed input) (same : input.w = input.e) :
    input.between input.w input.e = [] := by
  rw [← same]
  exact contents_self input.buf wf.writeBound

section Store

variable (wf : WellFormed input) (room : count indices input.r input.e < inputBuf) (c : UInt8)

include wf room

theorem between_store :
    (input.store c).between input.r input.w = input.between input.r input.w ∧
      (input.store c).between input.w (input.store c).e = input.between input.w input.e ++ [c] := by
  have split := wf.count_edit
  constructor
  · exact contents_update wf.readBound inputBuf_dvd (by omega) room c
  · exact contents_write wf.writeBound wf.editBound inputBuf_dvd (by omega) inputBuf_lt c

theorem count_store :
    count indices input.w (input.store c).e = count indices input.w input.e + 1 := by
  have split := wf.count_edit
  have bound := inputBuf_lt
  exact count_write wf.writeBound wf.editBound (by omega)

theorem count_store_read :
    count indices input.r (input.store c).e = count indices input.r input.e + 1 := by
  have bound := inputBuf_lt
  exact count_write wf.readBound wf.editBound (by omega)

/-- `input.e == input.r+INPUT_BUF`, after the character is stored. -/
theorem full_store : (input.store c).e = ((input.store c).r + inputBuf) % indices ↔
    count indices input.r input.e + 1 = inputBuf := by
  have counted := wf.count_store_read room c
  have editBound : (input.store c).e < indices := Nat.mod_lt _ (by decide)
  change (input.store c).e = (input.r + inputBuf) % indices ↔ _
  rw [← counted]
  exact full_iff wf.readBound editBound (by omega) inputBuf_lt

/-- The character is part of the line. -/
theorem store (notNewline : c ≠ newline)
    (notFull : count indices input.r input.e + 1 ≠ inputBuf) :
    WellFormed (input.store c) ∧
      (input.store c).view = ⟨input.between input.r input.w, input.between input.w input.e ++ [c]⟩ := by
  have split := wf.count_edit
  have counted := wf.count_store room c
  obtain ⟨committed, line⟩ := wf.between_store room c
  refine ⟨⟨wf.readBound, wf.writeBound, Nat.mod_lt _ (by decide), ?_, ?_, ?_⟩, ?_⟩
  · change count indices input.r input.w +
      count indices input.w (input.store c).e ≤ inputBuf
    omega
  · change count indices input.r input.w +
      count indices input.w (input.store c).e = inputBuf → _
    omega
  · change newline ∉ (input.store c).between input.w (input.store c).e
    rw [line, List.mem_append, List.mem_singleton]
    exact fun either => either.elim wf.plain fun same => notNewline same.symm
  · exact congrArg₂ Terminal.mk committed line

/-- The line is committed with it. -/
theorem store_commit : WellFormed (input.store c).commit ∧ (input.store c).commit.view =
    ⟨input.between input.r input.w ++ (input.between input.w input.e ++ [c]), []⟩ := by
  have split := wf.count_edit
  have counted := wf.count_store room c
  have countedRead := wf.count_store_read room c
  have editBound : (input.store c).e < indices := Nat.mod_lt _ (by decide)
  obtain ⟨committed, line⟩ := wf.between_store room c
  have none_ := (empty_iff editBound editBound).mp rfl
  have empty : (input.store c).between (input.store c).e (input.store c).e = [] :=
    contents_self (input.store c).buf editBound
  have joined : (input.store c).between input.r (input.store c).e =
      (input.store c).between input.r input.w ++ (input.store c).between input.w (input.store c).e := by
    have bound := inputBuf_lt
    exact contents_split wf.readBound wf.writeBound editBound inputBuf_dvd (by omega)
  refine ⟨⟨wf.readBound, editBound, editBound, ?_, fun _ => rfl, ?_⟩, ?_⟩
  · change count indices input.r (input.store c).e +
      count indices (input.store c).e (input.store c).e ≤ inputBuf
    omega
  · change newline ∉ (input.store c).between (input.store c).e (input.store c).e
    rw [empty]
    exact List.not_mem_nil
  · change Terminal.mk ((input.store c).between input.r (input.store c).e)
      ((input.store c).between (input.store c).e (input.store c).e) = _
    rw [empty, joined, committed, line]

end Store

theorem length_view (wf : WellFormed input) : input.view.committed.length + input.view.line.length =
    count indices input.r input.e := by
  rw [wf.count_edit]
  exact congrArg₂ (· + ·) (length_contents _ _ _) (length_contents _ _ _)

theorem type (wf : WellFormed input) (c : UInt8) :
    WellFormed (input.type c) ∧ (input.type c).view = input.view.type c := by
  unfold Input.type Terminal.type
  rw [wf.length_view]
  by_cases enters : c ≠ 0 ∧ count indices input.r input.e < inputBuf
  · rw [if_pos enters, if_pos enters]
    generalize (if c = carriageReturn then newline else c) = c
    have full := wf.full_store enters.2 c
    have length : input.view.committed.length + (input.view.line ++ [c]).length =
        count indices input.r input.e + 1 := by
      rw [List.length_append, List.length_singleton, ← Nat.add_assoc, wf.length_view]
    dsimp only
    rw [length]
    by_cases commits : c = newline ∨ c = eof ∨ (input.store c).e = ((input.store c).r + inputBuf) % indices
    · rw [if_pos commits, if_pos (by rwa [full] at commits)]
      exact wf.store_commit enters.2 c
    · rw [if_neg commits, if_neg (by rwa [full] at commits)]
      rw [full, not_or, not_or] at commits
      exact wf.store enters.2 c commits.1 commits.2.2
  · rw [if_neg enters, if_neg enters]
    exact ⟨wf, rfl⟩

/-- A key does to the ring what it does to the terminal. -/
theorem key (wf : WellFormed input) (c : UInt8) :
    WellFormed (input.key c) ∧ (input.key c).view = input.view.key c := by
  unfold Input.key Terminal.key
  by_cases isListing : c = listing
  · rw [if_pos isListing, if_pos isListing]
    exact ⟨wf, rfl⟩
  rw [if_neg isListing, if_neg isListing]
  by_cases isKill : c = kill
  · rw [if_pos isKill, if_pos isKill]
    exact wf.killLoop (Nat.le_refl _)
  rw [if_neg isKill, if_neg isKill]
  by_cases isErase : c = backspace ∨ c = delete
  · rw [if_pos isErase, if_pos isErase]
    by_cases some_ : input.e = input.w
    · rw [if_neg (fun different => different some_)]
      refine ⟨wf, ?_⟩
      have empty := wf.line_empty some_.symm
      change input.view = Terminal.mk _ (input.between input.w input.e).dropLast
      rw [empty]
      exact congrArg (Terminal.mk _) empty
    · rw [if_pos some_]
      obtain ⟨erased, shorter⟩ := wf.erase some_
      refine ⟨erased, ?_⟩
      change input.erase.view = Terminal.mk _ (input.between input.w input.e).dropLast
      rw [shorter, List.dropLast_concat]
      rfl
  rw [if_neg isErase, if_neg isErase]
  exact wf.type c

theorem consoleintr (wf : WellFormed input) (typed : List UInt8) :
    WellFormed (input.consoleintr typed) ∧
      (input.consoleintr typed).view = typed.foldl Terminal.key input.view := by
  induction typed generalizing input with
  | nil => exact ⟨wf, rfl⟩
  | cons c typed ih =>
    obtain ⟨kept, view⟩ := wf.key c
    have later := ih kept
    rw [view] at later
    exact later

end WellFormed

/-! ### Reading -/

/-- A reader has moved the read index, and nothing else. -/
structure Advanced (input after : Input) : Prop where
  wf : WellFormed after
  buf : after.buf = input.buf
  w : after.w = input.w
  e : after.e = input.e
  distance : count indices input.r after.r + count indices after.r input.w =
    count indices input.r input.w

variable {input after : Input}

theorem Advanced.refl (wf : WellFormed input) : Advanced input input where
  wf := wf
  buf := rfl
  w := rfl
  e := rfl
  distance := by
    rw [(empty_iff wf.readBound wf.readBound).mp rfl, Nat.zero_add]

/-- The characters it has passed were the first of the committed ones. -/
theorem Advanced.between (advanced : Advanced input after) (wf : WellFormed input) :
    input.between input.r after.r ++ after.view.committed = input.view.committed := by
  have fits := wf.fits
  have bound := inputBuf_lt
  have distance := advanced.distance
  change _ ++ contents indices after.buf after.r after.w = _
  rw [advanced.buf, advanced.w]
  exact (contents_split wf.readBound advanced.wf.readBound wf.writeBound inputBuf_dvd
    (by omega)).symm

theorem WellFormed.unread (wf : WellFormed input) (some_ : input.r ≠ input.w) :
    count indices input.r input.w ≠ 0 :=
  fun none_ => some_ ((empty_iff wf.readBound wf.writeBound).mpr none_)

theorem WellFormed.advance (wf : WellFormed input) (some_ : input.r ≠ input.w) :
    WellFormed input.advance := by
  have fewer := count_read wf.readBound wf.writeBound (wf.unread some_)
  have fits := wf.fits
  refine ⟨Nat.mod_lt _ (by decide), wf.writeBound, wf.editBound, ?_, ?_, wf.plain⟩
  · change count indices ((input.r + 1) % indices) input.w +
      count indices input.w input.e ≤ inputBuf
    omega
  · change count indices ((input.r + 1) % indices) input.w +
      count indices input.w input.e = inputBuf → _
    omega

theorem WellFormed.committed_advance (wf : WellFormed input) (some_ : input.r ≠ input.w) :
    input.view.committed = input.first :: input.advance.view.committed :=
  contents_read wf.readBound wf.writeBound inputBuf_dvd (wf.unread some_)

theorem WellFormed.advance_pushBack (wf : WellFormed input) : input.advance.pushBack = input := by
  have back : previous indices ((input.r + 1) % indices) = input.r :=
    previous_step wf.readBound
  change { input with r := previous indices ((input.r + 1) % indices) } = input
  rw [back]

/-- One character, and then more. -/
theorem Advanced.step (advanced : Advanced input.advance after) (wf : WellFormed input)
    (some_ : input.r ≠ input.w) : Advanced input after where
  wf := advanced.wf
  buf := advanced.buf
  w := advanced.w
  e := advanced.e
  distance := by
    have nextBound : input.advance.r < indices := Nat.mod_lt _ (by decide)
    have fewer : count indices input.advance.r input.w + 1 =
        count indices input.r input.w :=
      count_read wf.readBound wf.writeBound (wf.unread some_)
    have distance : count indices input.advance.r after.r +
        count indices after.r input.w = count indices input.advance.r input.w :=
      advanced.distance
    have none_ := (empty_iff wf.readBound wf.readBound).mp rfl
    have bound : 1 < indices := by decide
    have one : count indices input.r input.advance.r =
        count indices input.r input.r + 1 :=
      count_write wf.readBound wf.readBound (by omega)
    have fits := wf.fits
    have modulus := inputBuf_lt
    have split := count_split wf.readBound nextBound advanced.wf.readBound (by omega)
    omega

/-- A critical section of `consoleread` does to the ring what a read does to the terminal. -/
theorem WellFormed.readLoop (wf : WellFormed input) (killed : Bool) (target n : Nat) (got : List UInt8) :
    Advanced input (readLoop killed target n input got).1 ∧
      ((readLoop killed target n input got).1.view.committed, (readLoop killed target n input got).2) =
        Terminal.read killed target n input.view.committed got := by
  induction n generalizing input got with
  | zero => exact ⟨.refl wf, rfl⟩
  | succ n ih =>
    unfold Console.readLoop
    by_cases none_ : input.r = input.w
    · rw [if_pos none_]
      have empty : input.view.committed = [] := by
        change input.between input.r input.w = []
        rw [← none_]
        exact contents_self input.buf wf.readBound
      refine ⟨.refl wf, ?_⟩
      rw [empty]
      rfl
    rw [if_neg none_, wf.committed_advance none_]
    unfold Terminal.read
    have advanced := (Advanced.refl (wf.advance none_)).step wf none_
    by_cases isEof : input.first = eof
    · rw [if_pos isEof, if_pos isEof]
      by_cases some_ : n + 1 < target
      · rw [if_pos some_, if_pos some_, wf.advance_pushBack]
        exact ⟨.refl wf, by rw [wf.committed_advance none_]⟩
      · rw [if_neg some_, if_neg some_]
        exact ⟨advanced, rfl⟩
    rw [if_neg isEof, if_neg isEof]
    by_cases isNewline : input.first = newline
    · rw [if_pos isNewline, if_pos isNewline]
      exact ⟨advanced, rfl⟩
    rw [if_neg isNewline, if_neg isNewline]
    obtain ⟨later, view⟩ := ih (wf.advance none_) (got ++ [input.first])
    exact ⟨later.step wf none_, view⟩

end Input

end Xv6.Console
