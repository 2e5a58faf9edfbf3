import Xv6.Console.Input
import Xv6.Lib.TransitionSystem

/-!
Typing and reading, interleaved.

Owns: any number of processes in `consoleread` and the keyboard in `consoleintr`, a critical
section of `cons.lock` a step; the history of the characters committed, consumed and delivered;
and the line discipline of every run.

Does not own: the ring (`Xv6.Console.Input`).

A process that sleeps may go on at any time, which gives more runs than `wakeup` does.
-/

namespace Xv6.Console

open TransitionSystem RingBuffer

/-- A call of `consoleread` in `sleep`. -/
structure Reading where
  target : Nat
  left : Nat
  got : List UInt8

structure State (n : Nat) where
  input : Input
  reading : Fin n → Option Reading
  killed : Fin n → Bool

inductive Action (n : Nat) where
  | intr (typed : List UInt8)
  | read (p : Fin n) (count : Int)
  | resume (p : Fin n)
  | kill (p : Fin n)
  /-- Another process gets the slot. -/
  | spawn (p : Fin n)

variable {n : Nat}

/-- What the critical section of a call leads to. -/
def State.outcome (s : State n) (p : Fin n) (call : Reading) : Input × Outcome :=
  readLoop (s.killed p) call.target call.left s.input call.got

def Outcome.reading (target : Nat) : Outcome → Option Reading
  | .returned _ _ => none
  | .asleep left got => some ⟨target, left, got⟩

def State.enter (s : State n) (p : Fin n) (call : Reading) : State n :=
  { s with
    input := (s.outcome p call).1
    reading := Function.update s.reading p ((s.outcome p call).2.reading call.target) }

/-- The call whose critical section an action is. With `n` negative the loop is not entered. -/
def State.caller (s : State n) : Action n → Option (Fin n × Reading)
  | .read p count => some (p, ⟨count.toNat, count.toNat, []⟩)
  | .resume p => (s.reading p).map fun call => (p, call)
  | _ => none

def step (s : State n) : Action n → Option (State n)
  | .intr typed => some { s with input := s.input.consoleintr typed }
  | .read p count =>
    if (s.reading p).isNone then some (s.enter p ⟨count.toNat, count.toNat, []⟩) else none
  | .resume p => (s.reading p).map (s.enter p)
  | .kill p => some { s with killed := Function.update s.killed p true }
  | .spawn p =>
    if (s.reading p).isNone then some { s with killed := Function.update s.killed p false }
    else none

/-- The indices are zero, as all of `input` is. -/
def start (n : Nat) : State n where
  input := ⟨fun _ => 0, 0, 0, 0⟩
  reading _ := none
  killed _ := false

/-! ## History -/

/-- A call that has returned. -/
structure Return where
  target : Nat
  killed : Bool
  result : Int
  /-- The bytes it has stored. -/
  bytes : List UInt8
  /-- The characters that its last critical section has consumed. -/
  consumed : List UInt8
  /-- The next character for a reader. -/
  ahead : Option UInt8

structure History where
  committed : List UInt8
  consumed : List UInt8
  /-- The bytes that readers have stored. -/
  delivered : List UInt8
  returns : List Return

def History.empty : History := ⟨[], [], [], []⟩

/-- The characters that a step passes with the read index. -/
def passed (before after : State n) : List UInt8 :=
  before.input.between before.input.r after.input.r

def returnOf (before after : State n) (p : Fin n) (call : Reading) : Outcome → List Return
  | .returned result got =>
    [⟨call.target, before.killed p, result, got, passed before after,
      after.input.view.committed.head?⟩]
  | .asleep _ _ => []

def observe (before : State n) (a : Action n) (after : State n) (h : History) : History where
  committed := h.committed ++ after.input.between before.input.w after.input.w
  consumed := h.consumed ++ passed before after
  delivered := h.delivered ++
    match before.caller a with
    | some (p, call) => (before.outcome p call).2.got.drop call.got.length
    | none => []
  returns := h.returns ++
    match before.caller a with
    | some (p, call) => returnOf before after p call (before.outcome p call).2
    | none => []

/-- How a call that was not killed came to return: with all it asked for, at the end of a line,
before a `^D`, or with a `^D` and nothing else. -/
def Return.Ended (call : Return) : Prop :=
  call.bytes.length = call.target ∨ call.bytes.getLast? = some newline ∨
    call.bytes ≠ [] ∧ call.ahead = some eof ∧ eof ∉ call.consumed ∨
    call.bytes = [] ∧ call.consumed = [eof]

structure Return.Proper (call : Return) : Prop where
  eof : eof ∉ call.bytes
  newline : newline ∉ call.bytes.dropLast
  result : call.killed = true ∧ call.result = -1 ∨ call.result = call.bytes.length ∧ call.Ended

/-! ## One read of the terminal -/

/-- What a call has stored while it has not returned. -/
structure Pending (target left : Nat) (got : List UInt8) : Prop where
  length : got.length + left = target
  eof : eof ∉ got
  newline : newline ∉ got

theorem Pending.more {target left : Nat} {got : List UInt8} (pending : Pending target (left + 1) got)
    {c : UInt8} (notEof : c ≠ Console.eof) (notNewline : c ≠ Console.newline) :
    Pending target left (got ++ [c]) where
  length := by
    have length := pending.length
    rw [List.length_append, List.length_singleton]
    omega
  eof := by
    rw [List.mem_append, List.mem_singleton]
    exact fun either => either.elim pending.eof fun same => notEof same.symm
  newline := by
    rw [List.mem_append, List.mem_singleton]
    exact fun either => either.elim pending.newline fun same => notNewline same.symm

/-- A critical section that has consumed some characters: what it leaves and how it ends. -/
structure Took (killed : Bool) (target : Nat) (queue got : List UInt8) (out : List UInt8 × Outcome)
    (taken : List UInt8) : Prop where
  queue : queue = taken ++ out.1
  got : out.2.got = got ++ taken.filter (· ≠ eof)
  asleep : ∀ left stored, out.2 = .asleep left stored → Pending target left stored
  returned : ∀ result stored, out.2 = .returned result stored →
    Return.Proper ⟨target, killed, result, stored, taken, out.1.head?⟩

section Endings

variable {killed : Bool} {target left : Nat} {queue got : List UInt8} (pending : Pending target left got)

include pending

/-- The bytes that were stored before are as they should be. -/
theorem Pending.proper {result : Int} {taken : List UInt8} {ahead : Option UInt8}
    (ended : killed = true ∧ result = -1 ∨
      result = got.length ∧ Return.Ended ⟨target, killed, result, got, taken, ahead⟩) :
    Return.Proper ⟨target, killed, result, got, taken, ahead⟩ where
  eof := pending.eof
  newline := fun member => pending.newline (List.dropLast_subset got member)
  result := ended

/-- A section that ends before the next character. -/
theorem Pending.stops {result : Int}
    (ended : killed = true ∧ result = -1 ∨
      result = got.length ∧ Return.Ended ⟨target, killed, result, got, [], queue.head?⟩) :
    Took killed target queue got (queue, .returned result got) [] where
  queue := rfl
  got := (List.append_nil got).symm
  asleep _ _ same := by cases same
  returned _ _ same := by
    cases same
    exact pending.proper ended

/-- A section that waits for characters. -/
theorem Pending.waits : Took killed target [] got ([], .asleep left got) [] where
  queue := rfl
  got := (List.append_nil got).symm
  asleep _ _ same := by
    cases same
    exact pending
  returned _ _ same := by cases same

end Endings

theorem delivered_cons {c : UInt8} (notEof : c ≠ eof) (taken : List UInt8) :
    (c :: taken).filter (· ≠ eof) = c :: taken.filter (· ≠ eof) :=
  List.filter_cons_of_pos (decide_eq_true notEof)

/-- A character is stored before the rest. -/
theorem Took.cons {killed : Bool} {target : Nat} {queue got taken : List UInt8}
    {out : List UInt8 × Outcome} {c : UInt8} (took : Took killed target queue (got ++ [c]) out taken)
    (notEof : c ≠ eof) : Took killed target (c :: queue) got out (c :: taken) where
  queue := congrArg (List.cons c) took.queue
  got := by
    rw [took.got, delivered_cons notEof, List.append_assoc]
    rfl
  asleep := took.asleep
  returned result stored same := by
    have proper := took.returned result stored same
    have stored_ : stored = got ++ [c] ++ taken.filter (· ≠ eof) := by
      rw [← took.got, same]
      rfl
    have nonempty : stored ≠ [] := by
      rw [stored_]
      simp
    refine ⟨proper.eof, proper.newline, proper.result.imp_right ?_⟩
    rintro ⟨result_, all | line | ⟨_, ahead, none_⟩ | ⟨empty, _⟩⟩
    · exact ⟨result_, .inl all⟩
    · exact ⟨result_, .inr (.inl line)⟩
    · refine ⟨result_, .inr (.inr (.inl ⟨nonempty, ahead, ?_⟩))⟩
      exact fun member => (List.mem_cons.mp member).elim (fun same => notEof same.symm) none_
    · exact absurd empty nonempty

/-- Every critical section of `consoleread` ends in one of the ways it should. -/
theorem Terminal.read_took (killed : Bool) (queue : List UInt8) {target left : Nat} {got : List UInt8}
    (pending : Pending target left got) :
    ∃ taken, Took killed target queue got (Terminal.read killed target left queue got) taken := by
  induction left generalizing queue got with
  | zero =>
    have length : got.length = target := pending.length
    exact ⟨[], pending.stops (.inr ⟨congrArg Nat.cast length.symm, .inl length⟩)⟩
  | succ left ih =>
    have length := pending.length
    cases queue with
    | nil =>
      unfold Terminal.read
      cases killed with
      | true => exact ⟨[], pending.stops (.inl ⟨rfl, rfl⟩)⟩
      | false => exact ⟨[], pending.waits⟩
    | cons c queue =>
      unfold Terminal.read
      by_cases isEof : c = eof
      · rw [if_pos isEof]
        have result : (target : Int) - (left + 1 : Nat) = got.length := by omega
        by_cases some_ : left + 1 < target
        · rw [if_pos some_, result]
          have nonempty : got ≠ [] := by
            rintro rfl
            simp at length
            omega
          refine ⟨[], pending.stops (.inr ⟨rfl, .inr (.inr (.inl ⟨nonempty, ?_, ?_⟩))⟩)⟩
          · exact congrArg some isEof
          · exact List.not_mem_nil
        · rw [if_neg some_, result]
          have empty : got = [] := List.length_eq_zero_iff.mp (by omega)
          subst empty isEof
          refine ⟨[eof], rfl, rfl, (fun _ _ same => by cases same), ?_⟩
          rintro result stored same
          cases same
          exact pending.proper (.inr ⟨rfl, .inr (.inr (.inr ⟨rfl, rfl⟩))⟩)
      rw [if_neg isEof]
      by_cases isNewline : c = newline
      · rw [if_pos isNewline]
        refine ⟨[c], rfl, ?_, (fun _ _ same => by cases same), ?_⟩
        · rw [delivered_cons isEof]
          rfl
        · rintro result stored same
          cases same
          refine ⟨?_, ?_, .inr ⟨?_, .inr (.inl ?_)⟩⟩
          · rw [List.mem_append, List.mem_singleton]
            exact fun either => either.elim pending.eof fun same => isEof same.symm
          · rw [List.dropLast_concat]
            exact pending.newline
          · change (target : Int) - left = (got ++ [c]).length
            rw [List.length_append, List.length_singleton]
            omega
          · rw [List.getLast?_concat, isNewline]
      rw [if_neg isNewline]
      obtain ⟨taken, took⟩ := ih queue (pending.more isEof isNewline)
      exact ⟨c :: taken, took.cons isEof⟩

/-! ## The invariant -/

/-- The indices are in order, modulo their number, and a full buffer is committed. -/
structure Input.Ordered (input : Input) : Prop where
  write : count indices input.r input.w ≤ count indices input.r input.e
  edit : count indices input.r input.e ≤ inputBuf
  full : input.e = (input.r + inputBuf) % indices → input.w = input.e

theorem Input.WellFormed.ordered {input : Input} (wf : input.WellFormed) : input.Ordered := by
  have split := wf.count_edit
  have fits := wf.fits
  refine ⟨by omega, by omega, ?_⟩
  intro isFull
  have counted := (full_iff wf.readBound wf.editBound (by omega) inputBuf_lt).mp isFull
  exact wf.full (by omega)

/-- Typing leaves the characters that are committed, and may commit more. -/
structure Input.Kept (input after : Input) : Prop where
  r : after.r = input.r
  unaltered : after.between input.r input.w = input.between input.r input.w
  grows : count indices input.r input.w ≤ count indices input.r after.w

theorem Input.killLoop_r (input : Input) (fuel : Nat) : (input.killLoop fuel).r = input.r := by
  induction fuel generalizing input with
  | zero => rfl
  | succ fuel ih =>
    unfold Input.killLoop
    split
    · exact ih input.erase
    · rfl

theorem Input.key_r (input : Input) (c : UInt8) : (input.key c).r = input.r := by
  unfold Input.key Input.type
  split_ifs
  · rfl
  · exact input.killLoop_r _
  all_goals first | rfl | (dsimp only; split <;> rfl)

theorem Input.consoleintr_r (input : Input) (typed : List UInt8) :
    (input.consoleintr typed).r = input.r := by
  induction typed generalizing input with
  | nil => rfl
  | cons c typed ih => exact (ih (input.key c)).trans (input.key_r c)

theorem Terminal.committed_keys (t : Terminal) (typed : List UInt8) :
    t.committed <+: (typed.foldl Terminal.key t).committed := by
  induction typed generalizing t with
  | nil => exact List.prefix_rfl
  | cons c typed ih => exact (t.committed_key c).trans (ih (t.key c))

section Typing

variable {input : Input} (wf : input.WellFormed) (typed : List UInt8)

include wf

/-- The characters that were committed, and those that become so. -/
theorem Input.WellFormed.committed_consoleintr :
    Input.Kept input (input.consoleintr typed) ∧
      (input.consoleintr typed).view.committed =
        input.view.committed ++
          (input.consoleintr typed).between input.w (input.consoleintr typed).w := by
  obtain ⟨kept, view⟩ := wf.consoleintr typed
  have same := input.consoleintr_r typed
  have grows := input.view.committed_keys typed
  rw [← view] at grows
  obtain ⟨extra, joined⟩ := grows
  generalize input.consoleintr typed = after at kept same joined
  have committed : after.view.committed = after.between input.r after.w := by
    rw [← same]
    rfl
  have lengths := congrArg List.length joined
  rw [List.length_append, committed] at lengths
  have total : count indices input.r after.w =
      count indices input.r input.w + extra.length := by
    rw [← length_contents after.buf, ← length_contents input.buf]
    exact lengths.symm
  have distance := count_of_add wf.readBound wf.writeBound kept.writeBound total
  have fits := kept.fits
  rw [same] at fits
  have bound := inputBuf_lt
  have split : after.between input.r after.w =
      after.between input.r input.w ++ after.between input.w after.w :=
    contents_split wf.readBound wf.writeBound kept.writeBound inputBuf_dvd (by omega)
  rw [committed, split] at joined
  have sizes : input.view.committed.length = (after.between input.r input.w).length :=
    (length_contents _ _ _).trans (length_contents _ _ _).symm
  obtain ⟨unaltered, -⟩ := List.append_inj joined sizes
  refine ⟨⟨same, unaltered.symm, by omega⟩, ?_⟩
  rw [committed, split, ← unaltered]

end Typing

/-- The history is that of the ring. -/
structure DisciplineInv (s : State n) (h : History) : Prop where
  wf : s.input.WellFormed
  stream : h.committed = h.consumed ++ s.input.view.committed
  delivered : h.delivered = h.consumed.filter (· ≠ eof)
  pending : ∀ p call, s.reading p = some call → Pending call.target call.left call.got
  returns : ∀ call ∈ h.returns, call.Proper

theorem DisciplineInv.start : DisciplineInv (start n) .empty := by
  have positive : 0 < indices := by decide
  have none_ := (empty_iff positive positive).mp rfl
  have empty : (Console.start n).input.between 0 0 = [] := contents_self _ positive
  constructor
  case wf =>
    refine ⟨positive, positive, positive, ?_, fun _ => rfl, ?_⟩
    · change count indices 0 0 + count indices 0 0 ≤ inputBuf
      rw [none_]
      exact Nat.zero_le _
    · change newline ∉ (Console.start n).input.between 0 0
      rw [empty]
      exact List.not_mem_nil
  case stream =>
    have consumed : History.empty.consumed = [] := rfl
    rw [consumed, List.nil_append, Input.view_committed]
    exact empty.symm
  case delivered => rfl
  case pending => exact fun _ _ none_ => nomatch none_
  case returns => exact fun _ member => nomatch member

section Steps

variable {s next : State n} {h : History} {a : Action n}

/-- The ring does not change. -/
theorem DisciplineInv.frame (inv : DisciplineInv s h) (input : next.input = s.input)
    (caller : s.caller a = none) (reading : next.reading = s.reading) :
    DisciplineInv next (observe s a next h) := by
  have committed : next.input.between s.input.w next.input.w = [] := by
    rw [input]
    exact contents_self s.input.buf inv.wf.writeBound
  have consumed : passed s next = [] := by
    unfold passed
    rw [input]
    exact contents_self s.input.buf inv.wf.readBound
  constructor
  case wf => exact input ▸ inv.wf
  case stream =>
    simp only [observe, committed, consumed, List.append_nil]
    rw [input]
    exact inv.stream
  case delivered =>
    simp only [observe, caller, consumed, List.append_nil]
    exact inv.delivered
  case pending => exact reading ▸ inv.pending
  case returns =>
    simp only [observe, caller, List.append_nil]
    exact inv.returns

theorem DisciplineInv.intr (inv : DisciplineInv s h) (typed : List UInt8) :
    DisciplineInv { s with input := s.input.consoleintr typed }
      (observe s (.intr typed) { s with input := s.input.consoleintr typed } h) := by
  obtain ⟨kept, committed⟩ := inv.wf.committed_consoleintr typed
  have consumed : passed s { s with input := s.input.consoleintr typed } = [] := by
    change s.input.between s.input.r (s.input.consoleintr typed).r = []
    rw [kept.r]
    exact contents_self s.input.buf inv.wf.readBound
  constructor
  case wf => exact (inv.wf.consoleintr typed).1
  case stream =>
    simp only [observe, consumed, List.append_nil]
    rw [committed, ← List.append_assoc, ← inv.stream]
  case delivered =>
    simp only [observe, State.caller, consumed, List.append_nil]
    exact inv.delivered
  case pending => exact inv.pending
  case returns =>
    simp only [observe, State.caller, List.append_nil]
    exact inv.returns

/-- A critical section of `consoleread`. -/
theorem DisciplineInv.enter (inv : DisciplineInv s h) {p : Fin n} {call : Reading}
    (caller : s.caller a = some (p, call)) (pending : Pending call.target call.left call.got) :
    DisciplineInv (s.enter p call) (observe s a (s.enter p call) h) := by
  obtain ⟨advanced, refines⟩ :=
    inv.wf.readLoop (s.killed p) call.target call.left call.got
  obtain ⟨taken, took⟩ := Terminal.read_took (s.killed p) s.input.view.committed pending
  rw [← refines] at took
  have consumed : passed s (s.enter p call) = taken := by
    have parts := (advanced.between inv.wf).trans took.queue
    exact List.append_cancel_right parts
  have committed : (s.enter p call).input.between s.input.w (s.enter p call).input.w = [] := by
    change contents indices _ s.input.w (s.outcome p call).1.w = []
    rw [show (s.outcome p call).1.w = s.input.w from advanced.w]
    exact contents_self _ inv.wf.writeBound
  have stored : (s.outcome p call).2.got.drop call.got.length = taken.filter (· ≠ eof) := by
    rw [show (s.outcome p call).2.got = _ from took.got, List.drop_left]
  constructor
  case wf => exact advanced.wf
  case stream =>
    simp only [observe, committed, consumed, List.append_nil]
    rw [inv.stream, took.queue, ← List.append_assoc]
    rfl
  case delivered =>
    simp only [observe, caller, stored, consumed]
    rw [List.filter_append, inv.delivered]
  case pending =>
    intro q other reads
    change Function.update s.reading p ((s.outcome p call).2.reading call.target) q = some other at reads
    by_cases isSelf : q = p
    · subst isSelf
      rw [Function.update_self] at reads
      cases ended : (s.outcome q call).2 with
      | returned result got =>
        rw [ended] at reads
        cases reads
      | asleep left got =>
        rw [ended] at reads
        cases reads
        exact took.asleep left got ended
    · rw [Function.update_of_ne isSelf] at reads
      exact inv.pending q other reads
  case returns =>
    intro returned member
    simp only [observe, caller, List.mem_append] at member
    rcases member with earlier | now
    · exact inv.returns returned earlier
    · cases ended : (s.outcome p call).2 with
      | returned result got =>
        rw [ended, returnOf, List.mem_singleton] at now
        rw [now, consumed]
        exact took.returned result got ended
      | asleep left got =>
        rw [ended, returnOf] at now
        cases now

theorem DisciplineInv.step (inv : DisciplineInv s h) (stepped : step s a = some next) :
    DisciplineInv next (observe s a next h) := by
  cases a with
  | intr typed =>
    cases stepped
    exact inv.intr typed
  | read p count =>
    simp only [Console.step, Option.ite_none_right_eq_some, Option.some.injEq] at stepped
    obtain ⟨_, rfl⟩ := stepped
    refine inv.enter rfl ⟨?_, List.not_mem_nil, List.not_mem_nil⟩
    exact Nat.zero_add _
  | resume p =>
    simp only [Console.step, Option.map_eq_some_iff] at stepped
    obtain ⟨call, reads, rfl⟩ := stepped
    refine inv.enter ?_ (inv.pending p call reads)
    rw [State.caller, reads]
    rfl
  | kill p =>
    cases stepped
    exact inv.frame rfl rfl rfl
  | spawn p =>
    simp only [Console.step, Option.ite_none_right_eq_some, Option.some.injEq] at stepped
    obtain ⟨_, rfl⟩ := stepped
    exact inv.frame rfl rfl rfl

end Steps

/-- In every run the indices are in order, what is committed stays as it is until it is read, and
readers get the committed characters in order, a `^D` apart, which ends a read. -/
theorem console_line_discipline {s : State n} {h : History} {actions : List (Action n)}
    (reaches : run (watch step observe) (start n, .empty) actions = some (s, h)) :
    s.input.Ordered ∧
      (∀ typed, s.input.Kept (s.input.consoleintr typed)) ∧
      h.committed = h.consumed ++ s.input.view.committed ∧
      h.delivered = h.consumed.filter (· ≠ eof) ∧
      ∀ call ∈ h.returns, call.Proper := by
  have inv : DisciplineInv s h := by
    refine run_invariant (fun watched : State n × History => DisciplineInv watched.1 watched.2) ?_
      DisciplineInv.start reaches
    intro before action after holds taken
    obtain ⟨stepped, history⟩ := watch_eq_some.mp taken
    rw [history]
    exact holds.step stepped
  exact ⟨inv.wf.ordered, fun typed => (inv.wf.committed_consoleintr typed).1, inv.stream,
    inv.delivered, inv.returns⟩

/-- A reader waits; a line with a corrected character is typed; a second read meets a `^D`. -/
theorem console_line_discipline_typed :
    ∃ s h, run (watch step observe) (start 1, .empty)
        [.read 0 10, .intr [104, 120, backspace, 105, carriageReturn], .resume 0, .intr [eof],
          .read 0 10] = some (s, h) ∧
      h.delivered = [104, 105, newline] ∧ h.returns.map Return.result = [3, 0] ∧
      ∀ call ∈ h.returns, call.Proper := by
  have proper (s : State 1) (h : History) (reaches : run (watch step observe) (start 1, .empty)
      [.read 0 10, .intr [104, 120, backspace, 105, carriageReturn], .resume 0, .intr [eof],
        .read 0 10] = some (s, h)) : ∀ call ∈ h.returns, call.Proper :=
    (console_line_discipline reaches).2.2.2.2
  exact ⟨_, _, rfl, by decide, by decide, proper _ _ rfl⟩

end Xv6.Console
