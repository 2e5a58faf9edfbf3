import Xv6.Console.Input
import Xv6.Pipe.Model

/-!
The calls that wait for something a user cannot force, and `kill`.

Owns: the loops of `piperead`, `pipewrite`, `consoleread` and `sys_sleep` with the tests, locks
and calls of `sleep` in them, for any number of processes; `kill`, the timer, the keyboard and
`pipeclose` beside them; and when a process can sleep although it has been killed.

Does not own: the ticks that `sys_sleep` waits for (`Xv6.Sync.SleepTicks`); the bytes of a pipe
(`Xv6.Pipe.Stream`) or lost wakeups (`Xv6.Pipe.Wakeup`, `Xv6.Sync.Wakeup`).
-/

namespace Xv6.Blocking

open Function (update update_self update_of_ne)
open TransitionSystem
open Xv6.Console (Input indices inputBuf listing backspace delete eof newline carriageReturn)
open Xv6.Pipe (SleepPc Bytes)

/-- Whether `consoleintr` calls `wakeup(&input.r)`: the character is stored and completes a line, or
fills the buffer. -/
def completes (input : Input) (c : UInt8) : Bool :=
  let stored := input.store (if c = carriageReturn then newline else c)
  c ∉ [listing, Console.kill, backspace, delete, 0] ∧
    RingBuffer.count indices input.r input.e < inputBuf ∧
    (c ∈ [newline, carriageReturn, eof] ∨ stored.e = (stored.r + inputBuf) % indices)

theorem killLoop_w (fuel : Nat) (input : Input) : (input.killLoop fuel).w = input.w := by
  fun_induction input.killLoop fuel with
  | case1 => rfl
  | case2 _ _ _ ih => exact ih
  | case3 => rfl

/-- The readers are woken exactly by the characters that commit the line being typed. -/
theorem key_w (input : Input) (c : UInt8) :
    (input.key c).w = if completes input c then (input.key c).e else input.w := by
  simp only [completes, List.mem_cons, List.not_mem_nil, or_false, not_or, decide_eq_true_eq]
  unfold Input.key Input.type Input.commit
  -- The cases of `consoleintr`; only the last one stores, and only it commits.
  grind [killLoop_w, Input.erase, Input.store]

/-! ## Calls -/

inductive Call where
  | pipewrite (q : Nat) (addr : Bytes) (n : Int) (i : Nat)
  | piperead (q : Nat) (n : Int)
  | consoleread (n target : Int) (dst : List UInt8)
  /-- The argument is compared as an `uint`. -/
  | sysSleep (n ticks0 : UInt32)

inductive Lock where
  | pipe (q : Nat)
  | cons
  | tickslock
deriving DecidableEq, Repr

inductive Chan where
  | nread (q : Nat)
  | nwrite (q : Nat)
  | input
  | ticks
deriving DecidableEq, Repr

namespace Call

def lock : Call → Lock
  | .pipewrite q _ _ _ => .pipe q
  | .piperead q _ => .pipe q
  | .consoleread _ _ _ => .cons
  | .sysSleep _ _ => .tickslock

/-- What the call sleeps on. -/
def chan : Call → Chan
  | .pipewrite q _ _ _ => .nwrite q
  | .piperead q _ => .nread q
  | .consoleread _ _ _ => .input
  | .sysSleep _ _ => .ticks

/-- The `wakeup` before `sleep`. -/
def nudge : Call → Option Chan
  | .pipewrite q _ _ _ => some (.nread q)
  | _ => none

/-- The `wakeup` before the call returns. -/
def wakes : Call → Option Chan
  | .pipewrite q _ _ _ => some (.nread q)
  | .piperead q _ => some (.nwrite q)
  | _ => none

end Call

inductive Pc where
  | idle
  | acquire (call : Call)
  /-- The condition of the loop, with the lock held. -/
  | loop (call : Call)
  /-- `myproc()->killed` -/
  | check (call : Call)
  | nudge (call : Call)
  | sleep (call : Call) (at_ : SleepPc)
  | wake (call : Call)
  | release (call : Call)

/-- Asleep on a channel. -/
def Pc.asleep : Pc → Option Chan
  | .sleep call .asleep => some call.chan
  | _ => none

/-- Past the test of `killed` and not asleep yet. -/
def Pc.dozing : Pc → Bool
  | .nudge _ => true
  | .sleep _ .acquirePtable => true
  | .sleep _ .releaseLk => true
  | .sleep _ .setState => true
  | _ => false

def Pc.wakeup (chan : Chan) : Pc → Pc
  | .sleep call .asleep => if call.chan = chan then .sleep call .acquireLk else .sleep call .asleep
  | pc => pc

/-! ## Steps -/

variable {n : Nat}

structure State (n : Nat) where
  pipe : Nat → Pipe
  input : Input
  ticks : UInt32
  lock : Lock → Option (Fin n)
  ptable : Option (Fin n)
  killed : Fin n → Bool
  pc : Fin n → Pc

inductive Action (n : Nat) where
  | call (p : Fin n) (call : Call)
  | run (p : Fin n)
  | kill (p : Fin n)
  | timer
  | keyboard (c : UInt8)
  | pipeclose (q : Nat) (writable : Bool)

namespace State

def setPc (s : State n) (p : Fin n) (pc : Pc) : State n :=
  { s with pc := update s.pc p pc }

/-- `wakeup(chan)`, which needs `ptable.lock`. -/
def wakeup (s : State n) (chan : Chan) : Option (State n) :=
  if s.ptable = none then some { s with pc := fun q => (s.pc q).wakeup chan } else none

def wakeupIf (s : State n) : Option Chan → Option (State n)
  | some chan => s.wakeup chan
  | none => some s

def setPipe (s : State n) (q : Nat) (pipe : Pipe) : State n :=
  { s with pipe := update s.pipe q pipe }

/-- The copy loop of `piperead`, which the lock protects. -/
def copyOut : Nat → Pipe → Pipe
  | 0, pipe => pipe
  | count + 1, pipe => if pipe.empty then pipe else copyOut count pipe.fetch.2

/-- One turn of the loop in `consoleread`, with input to read. -/
def readChar (s : State n) (p : Fin n) (count target : Int) (dst : List UInt8) : State n :=
  let taken := { s with input := s.input.advance }
  if s.input.first = eof then
    -- A ^D after other characters is kept for the next call.
    (if count < target then { s with input := s.input.advance.pushBack } else taken).setPc p
      (.release (.consoleread count target dst))
  else
    let read := Call.consoleread (count - 1) target (dst ++ [s.input.first])
    taken.setPc p (if s.input.first = newline then .release read else .loop read)

/-- The condition of a call's loop, and what the call does when it does not have to wait. -/
def loop (s : State n) (p : Fin n) (call : Call) : State n :=
  match call with
  | .pipewrite q addr count i =>
    if i < count then
      if (s.pipe q).full then s.setPc p (.check call)
      else (s.setPipe q ((s.pipe q).store (addr i))).setPc p
        (.loop (.pipewrite q addr count (i + 1)))
    else s.setPc p (.wake call)
  | .piperead q count =>
    if (s.pipe q).empty = true ∧ (s.pipe q).writeopen = true then s.setPc p (.check call)
    else (s.setPipe q (copyOut count.toNat (s.pipe q))).setPc p (.wake call)
  | .consoleread count target dst =>
    if 0 < count then
      if s.input.r = s.input.w then s.setPc p (.check call) else s.readChar p count target dst
    else s.setPc p (.release call)
  | .sysSleep count ticks0 =>
    if s.ticks - ticks0 < count then s.setPc p (.check call) else s.setPc p (.release call)

/-- What makes a waiting call give up. -/
def givesUp (s : State n) (p : Fin n) : Call → Bool
  | .pipewrite q _ _ _ => !(s.pipe q).readopen || s.killed p
  | _ => s.killed p

/-- The next step of `sleep(chan, lk)`. The scheduler frees `ptable.lock` once the process is
SLEEPING. -/
def sleep (s : State n) (p : Fin n) (call : Call) : SleepPc → Option (State n)
  | .acquirePtable =>
    if s.ptable = none then some ({ s with ptable := some p }.setPc p (.sleep call .releaseLk))
    else none
  | .releaseLk =>
    some ({ s with lock := update s.lock call.lock none }.setPc p
      (.sleep call .setState))
  | .setState => some ({ s with ptable := none }.setPc p (.sleep call .asleep))
  | .asleep => none
  | .acquireLk =>
    if s.lock call.lock = none then
      some ({ s with lock := update s.lock call.lock (some p) }.setPc p (.loop call))
    else none

/-- The first statements of a call, once it has the lock. -/
def start (s : State n) : Call → Call
  | .pipewrite q addr count _ => .pipewrite q addr count 0
  | .piperead q count => .piperead q count
  | .consoleread count _ _ => .consoleread count count []
  | .sysSleep count _ => .sysSleep count s.ticks

def run (s : State n) (p : Fin n) : Option (State n) :=
  match s.pc p with
  | .idle => none
  | .acquire call =>
    if s.lock call.lock = none then
      some ({ s with lock := update s.lock call.lock (some p) }.setPc p
        (.loop (s.start call)))
    else none
  | .loop call => some (s.loop p call)
  | .check call =>
    some (s.setPc p (if s.givesUp p call then .release call else .nudge call))
  | .nudge call => (s.wakeupIf call.nudge).map fun s => s.setPc p (.sleep call .acquirePtable)
  | .sleep call at_ => s.sleep p call at_
  | .wake call => (s.wakeupIf call.wakes).map fun s => s.setPc p (.release call)
  | .release call =>
    some ({ s with lock := update s.lock call.lock none }.setPc p .idle)

/-- What `kill` stores in the slot of the process; a sleeper becomes RUNNABLE. -/
def kill (s : State n) (p : Fin n) : State n :=
  { s with killed := update s.killed p true }.setPc p
    (match s.pc p with
    | .sleep call .asleep => .sleep call .acquireLk
    | pc => pc)

end State

def step (s : State n) : Action n → Option (State n)
  | .call p call =>
    match s.pc p with
    | .idle => some (s.setPc p (.acquire call))
    | _ => none
  | .run p => s.run p
  | .kill p => if s.ptable = none then some (s.kill p) else none
  | .timer =>
    if s.lock .tickslock = none then { s with ticks := s.ticks + 1 }.wakeup .ticks else none
  | .keyboard c =>
    if s.lock .cons = none then
      { s with input := s.input.key c }.wakeupIf (if completes s.input c then some .input else none)
    else none
  | .pipeclose q writable =>
    if s.lock (.pipe q) = none then
      (s.setPipe q ((s.pipe q).close writable)).wakeup (if writable then .nread q else .nwrite q)
    else none

/-- No process is in one of the calls; some may have been killed. -/
def boot (pipe : Nat → Pipe) (input : Input) (ticks : UInt32) (killed : Fin n → Bool) : State n where
  pipe := pipe
  input := input
  ticks := ticks
  lock _ := none
  ptable := none
  killed := killed
  pc _ := .idle

/-! ## Killed sleepers -/

/-- Past the test of `killed`, asleep or about to be. -/
def Pc.trusts (pc : Pc) : Bool :=
  pc.dozing || pc.asleep.isSome

/-- Whoever relies on not being killed has not been killed. -/
def Alive (s : State n) : Prop :=
  ∀ q, (s.pc q).trusts = true → s.killed q = false

/-- The condition on a step: `kill` does not come between a process's test of `killed` and the
moment it is SLEEPING. -/
def KillSeen (s : State n) : Action n → Prop
  | .kill p => (s.pc p).dozing = false
  | _ => True

instance (s : State n) : (action : Action n) → Decidable (KillSeen s action)
  | .kill _ => inferInstanceAs (Decidable (_ = _))
  | .call _ _ => isTrue trivial
  | .run _ => isTrue trivial
  | .timer => isTrue trivial
  | .keyboard _ => isTrue trivial
  | .pipeclose _ _ => isTrue trivial

/-- Where a process is in `sys_sleep`: at the test, between it and SLEEPING, asleep or woken, or
past the loop. -/
inductive Place where
  | test
  | falling
  | asleep
  | leaving

/-- The place, with the argument and `ticks0`. -/
def Pc.place : Pc → Option (Place × UInt32 × UInt32)
  | .loop (.sysSleep count ticks0) => some (.test, count, ticks0)
  | .check (.sysSleep count ticks0) | .nudge (.sysSleep count ticks0)
  | .sleep (.sysSleep count ticks0) .acquirePtable | .sleep (.sysSleep count ticks0) .releaseLk
  | .sleep (.sysSleep count ticks0) .setState => some (.falling, count, ticks0)
  | .sleep (.sysSleep count ticks0) .asleep | .sleep (.sysSleep count ticks0) .acquireLk =>
    some (.asleep, count, ticks0)
  | .wake (.sysSleep count ticks0) | .release (.sysSleep count ticks0) => some (.leaving, count, ticks0)
  | _ => none

/-- The ways through `sys_sleep`. -/
inductive Turn (ticks : UInt32) (killed : Bool) :
    Option (Place × UInt32 × UInt32) → Option (Place × UInt32 × UInt32) → Prop where
  | stays (at_) : Turn ticks killed at_ at_
  | enters (count) : Turn ticks killed none (some (.test, count, ticks))
  | waits (count ticks0) (less : ticks - ticks0 < count) :
      Turn ticks killed (some (.test, count, ticks0)) (some (.falling, count, ticks0))
  | leaves (count ticks0) (past : ¬ticks - ticks0 < count) :
      Turn ticks killed (some (.test, count, ticks0)) (some (.leaving, count, ticks0))
  | givesUp (count ticks0) (isKilled : killed = true) :
      Turn ticks killed (some (.falling, count, ticks0)) (some (.leaving, count, ticks0))
  | sleeps (count ticks0) : Turn ticks killed (some (.falling, count, ticks0)) (some (.asleep, count, ticks0))
  | wakes (count ticks0) : Turn ticks killed (some (.asleep, count, ticks0)) (some (.test, count, ticks0))
  | returns (count ticks0) : Turn ticks killed (some (.leaving, count, ticks0)) none

/-- What a step does to a process. -/
structure Follows (s : State n) (q : Fin n) (before after : Pc) : Prop where
  trusts : after.trusts = true → before.trusts = true ∨ s.killed q = false
  turn : Turn s.ticks (s.killed q) before.place after.place

variable {s s' t : State n} {p : Fin n} {pc : Pc} {call : Call}

theorem Follows.refl (q : Fin n) : Follows s q pc pc :=
  ⟨.inl, .stays _⟩

theorem Follows.leaves {q : Fin n} {after : Pc} (awake : after.trusts = false)
    (turn : Turn s.ticks (s.killed q) pc.place after.place) : Follows s q pc after :=
  ⟨fun trusts => (Bool.false_ne_true (awake ▸ trusts)).elim, turn⟩

/-- What a step does besides setting `killed` or counting a tick. -/
structure Moves (s s' : State n) : Prop where
  killed : s'.killed = s.killed
  ticks : s'.ticks = s.ticks
  follows : ∀ q, Follows s q (s.pc q) (s'.pc q)

theorem Moves.setPc (moves : Moves s t) (self : Follows s p (s.pc p) pc) :
    Moves s (t.setPc p pc) := by
  refine ⟨moves.killed, moves.ticks, fun q => ?_⟩
  change Follows s q (s.pc q) (update t.pc p pc q)
  exact Update.cases q self fun _ => moves.follows q

/-- Only fields of other modules change. -/
theorem Moves.of_same (killed : t.killed = s.killed) (ticks : t.ticks = s.ticks) (pc : t.pc = s.pc) :
    Moves s t :=
  ⟨killed, ticks, fun q => pc ▸ .refl q⟩

theorem Moves.of_devices {pipe : Nat → Pipe} {input : Input}
    (moves : Moves { s with pipe := pipe, input := input } s') : Moves s s' :=
  ⟨moves.killed, moves.ticks,
    fun q => ⟨(moves.follows q).trusts, (moves.follows q).turn⟩⟩

theorem Moves.wakeup {chan : Chan} (woken : s.wakeup chan = some s') : Moves s s' := by
  simp only [State.wakeup, Option.ite_none_right_eq_some, Option.some.injEq] at woken
  rw [← woken.2]
  refine ⟨rfl, rfl, fun q => ?_⟩
  change Follows s q (s.pc q) ((s.pc q).wakeup chan)
  generalize s.pc q = before
  unfold Pc.wakeup
  split
  · rename_i call
    split
    · exact ⟨fun _ => .inl rfl, by cases call <;> exact .stays _⟩
    · exact .refl q
  · exact .refl q

theorem Moves.wakeupIf {chan : Option Chan} (woken : s.wakeupIf chan = some s') : Moves s s' := by
  cases chan with
  | none =>
    cases woken
    exact .of_same rfl rfl rfl
  | some chan => exact .wakeup woken

theorem Moves.loop (place : s.pc p = .loop call) : Moves s (s.loop p call) := by
  have goes {t : State n} {pc : Pc} (same : Moves s t) (awake : pc.trusts = false)
      (turn : Turn s.ticks (s.killed p) (Pc.loop call).place pc.place) :
      Moves s (t.setPc p pc) :=
    same.setPc (.leaves awake (place ▸ turn))
  cases call with
  | pipewrite q addr count i =>
    simp only [State.loop]
    split
    · split <;> exact goes (.of_same rfl rfl rfl) rfl (.stays none)
    · exact goes (.of_same rfl rfl rfl) rfl (.stays none)
  | piperead =>
    simp only [State.loop]
    split <;> exact goes (.of_same rfl rfl rfl) rfl (.stays none)
  | sysSleep =>
    simp only [State.loop]
    split
    · exact goes (.of_same rfl rfl rfl) rfl (.waits _ _ ‹_›)
    · exact goes (.of_same rfl rfl rfl) rfl (.leaves _ _ ‹_›)
  | consoleread count target dst =>
    simp only [State.loop, State.readChar]
    split
    · split
      · exact goes (.of_same rfl rfl rfl) rfl (.stays none)
      · split
        · split <;> exact goes (.of_same rfl rfl rfl) rfl (.stays none)
        · split <;> exact goes (.of_same rfl rfl rfl) rfl (.stays none)
    · exact goes (.of_same rfl rfl rfl) rfl (.stays none)

/-- `sleep` gives up the locks; the process still relies on the same test. -/
theorem Moves.sleep {at_ : SleepPc} (place : s.pc p = .sleep call at_)
    (slept : s.sleep p call at_ = some s') : Moves s s' := by
  have goes {t : State n} {pc : Pc} (same : Moves s t)
      (trusts : pc.trusts = true → (Pc.sleep call at_).trusts = true)
      (turn : Turn s.ticks (s.killed p) (Pc.sleep call at_).place pc.place) :
      Moves s (t.setPc p pc) := by
    rw [← place] at trusts turn
    exact same.setPc ⟨fun now => .inl (trusts now), turn⟩
  cases at_ with
  | acquirePtable =>
    simp only [State.sleep, Option.ite_none_right_eq_some, Option.some.injEq] at slept
    rw [← slept.2]
    exact goes (.of_same rfl rfl rfl) (fun _ => rfl) (by cases call <;> exact .stays _)
  | releaseLk =>
    cases slept
    exact goes (.of_same rfl rfl rfl) (fun _ => rfl) (by cases call <;> exact .stays _)
  | setState =>
    cases slept
    refine goes (.of_same rfl rfl rfl) (fun _ => rfl) ?_
    cases call with
    | sysSleep => exact .sleeps _ _
    | pipewrite | piperead | consoleread => exact .stays none
  | asleep => cases slept
  | acquireLk =>
    simp only [State.sleep, Option.ite_none_right_eq_some, Option.some.injEq] at slept
    rw [← slept.2]
    refine goes (.of_same rfl rfl rfl) (fun none_ => nomatch none_) ?_
    cases call with
    | sysSleep => exact .wakes _ _
    | pipewrite | piperead | consoleread => exact .stays none

theorem Moves.run (ran : s.run p = some s') : Moves s s' := by
  unfold State.run at ran
  split at ran
  · cases ran
  · rename_i call place
    simp only [Option.ite_none_right_eq_some, Option.some.injEq] at ran
    rw [← ran.2]
    refine .setPc (.of_same rfl rfl rfl) (.leaves rfl ?_)
    rw [place]
    cases call with
    | sysSleep => exact .enters _
    | pipewrite | piperead | consoleread => exact .stays none
  · cases ran
    exact .loop ‹_›
  · rename_i call place
    cases ran
    refine .setPc (.of_same rfl rfl rfl) ?_
    rw [place]
    cases gives : s.givesUp p call with
    | true =>
      refine .leaves rfl ?_
      cases call with
      | sysSleep => exact .givesUp _ _ gives
      | pipewrite | piperead | consoleread => exact .stays none
    | false =>
      refine ⟨fun _ => .inr ?_, by cases call <;> exact .stays _⟩
      cases call with
      | pipewrite q addr count i => exact (Bool.or_eq_false_iff.mp gives).2
      | _ => exact gives
  · rename_i call place
    obtain ⟨next, woken, rfl⟩ := Option.map_eq_some_iff.mp ran
    refine (Moves.wakeupIf woken).setPc ?_
    rw [place]
    exact ⟨fun _ => .inl rfl, by cases call <;> exact .stays _⟩
  · exact .sleep ‹_› ran
  · rename_i call place
    obtain ⟨next, woken, rfl⟩ := Option.map_eq_some_iff.mp ran
    refine (Moves.wakeupIf woken).setPc (.leaves rfl ?_)
    rw [place]
    cases call <;> exact .stays _
  · rename_i call place
    cases ran
    refine .setPc (.of_same rfl rfl rfl) (.leaves rfl ?_)
    rw [place]
    cases call with
    | sysSleep => exact .returns _ _
    | pipewrite | piperead | consoleread => exact .stays none

/-- What `kill` and the timer store before the processes are woken. -/
def State.signal (s : State n) : Action n → State n
  | .kill p => { s with killed := update s.killed p true }
  | .timer => { s with ticks := s.ticks + 1 }
  | _ => s

theorem moves_of_step {action : Action n} (taken : step s action = some s') :
    Moves (s.signal action) s' := by
  cases action with
  | call p call =>
    simp only [step] at taken
    split at taken
    · rename_i idle
      cases taken
      refine .setPc (.of_same rfl rfl rfl) (.leaves rfl ?_)
      change Turn _ _ (s.pc p).place none
      rw [idle]
      exact .stays none
    · cases taken
  | run p => exact .run taken
  | kill p =>
    simp only [step, Option.ite_none_right_eq_some, Option.some.injEq] at taken
    rw [← taken.2]
    refine .setPc (.of_same rfl rfl rfl) ?_
    change Follows _ p (s.pc p) _
    generalize s.pc p = before
    split
    · rename_i call
      exact ⟨fun _ => .inl rfl, by cases call <;> exact .stays _⟩
    · exact .refl p
  | timer =>
    simp only [step, Option.ite_none_right_eq_some] at taken
    exact .wakeup taken.2
  | keyboard c =>
    simp only [step, Option.ite_none_right_eq_some] at taken
    exact (Moves.wakeupIf taken.2).of_devices
  | pipeclose q writable =>
    simp only [step, Option.ite_none_right_eq_some] at taken
    exact (Moves.wakeup taken.2).of_devices

theorem Alive.moves (alive : Alive s) (moves : Moves s s') : Alive s' := by
  intro q trusts
  rw [moves.killed]
  exact ((moves.follows q).trusts trusts).elim (alive q) id

theorem Alive.kill (alive : Alive s) (seen : (s.pc p).dozing = false) : Alive (s.kill p) := by
  intro q trusts
  by_cases same : q = p
  · subst same
    simp only [State.kill, State.setPc, update_self] at trusts
    split at trusts
    · cases trusts
    · rename_i pc notAsleep
      rw [Pc.trusts, seen, Bool.false_or, Option.isSome_iff_exists] at trusts
      obtain ⟨chan, asleep⟩ := trusts
      unfold Pc.asleep at asleep
      split at asleep
      · rename_i call place
        exact absurd place (notAsleep call)
      · cases asleep
  · simp only [State.kill, State.setPc, update_of_ne same] at trusts ⊢
    exact alive q trusts

theorem Alive.step (alive : Alive s) {action : Action n} (seen : KillSeen s action)
    (taken : step s action = some s') : Alive s' := by
  cases action with
  | kill p =>
    simp only [Blocking.step, Option.ite_none_right_eq_some, Option.some.injEq] at taken
    rw [← taken.2]
    exact alive.kill seen
  | timer => exact Alive.moves (s := s.signal .timer) alive (moves_of_step taken)
  | call | run | keyboard | pipeclose => exact alive.moves (moves_of_step taken)

/-- If no `kill` comes between a process's test of `killed` and its sleep, no killed process
sleeps in one of the calls. -/
theorem no_killed_sleeper (n : Nat) :
    ∀ pipe input ticks (killed : Fin n → Bool) actions s,
      AllSteps step KillSeen (boot pipe input ticks killed) actions →
      run step (boot pipe input ticks killed) actions = some s →
      s.ptable = none → ∀ p chan, (s.pc p).asleep = some chan → s.killed p = false := by
  intro pipe input ticks killed actions s seen ran _ p chan asleep
  have start : Alive (boot pipe input ticks killed) := fun _ none_ => nomatch none_
  have alive := run_invariant_of_allSteps Alive
    (fun alive seen taken => alive.step seen taken) start seen ran
  apply alive p
  rw [Pc.trusts, asleep]
  simp

/-- Two processes fall asleep in `sys_sleep`. One is killed there and returns; the other sleeps on. -/
def killOne : List (Action 2) :=
  .call 0 (.sysSleep 5 0) :: List.replicate 7 (.run 0) ++
    (.call 1 (.sysSleep 5 0) :: List.replicate 7 (.run 1)) ++ .kill 0 :: List.replicate 4 (.run 0)

theorem no_killed_sleeper_killOne :
    ∃ s : State 2, run step
        (boot (fun _ => Pipe.alloc fun _ => 0) ⟨fun _ => 0, 0, 0, 0⟩ 0 fun _ => false) killOne =
          some s ∧
      s.killed 0 = true ∧ (s.pc 1).asleep = some .ticks ∧ s.killed 1 = false := by
  have ran : (run step
      (boot (fun _ => Pipe.alloc fun _ => 0) ⟨fun _ => 0, 0, 0, 0⟩ 0 fun _ => false) killOne).map
        (fun s => (s.killed 0, (s.pc 1).asleep, s.ptable)) = some (true, some .ticks, none) := by
    decide +kernel
  obtain ⟨s, reaches, same⟩ := Option.map_eq_some_iff.mp ran
  simp only [Prod.mk.injEq] at same
  obtain ⟨isKilled, asleep, free⟩ := same
  refine ⟨s, reaches, isKilled, asleep, no_killed_sleeper 2 _ _ _ _ _ s ?_ reaches free 1 _ asleep⟩
  decide +kernel

/-- `kill` comes after the test of `killed` in `sys_sleep` and before the process is SLEEPING: it
finds nobody to wake, and the process sleeps. -/
theorem killed_between_test_and_sleep :
    ∃ s : State 1, run step
        (boot (fun _ => Pipe.alloc fun _ => 0) ⟨fun _ => 0, 0, 0, 0⟩ 0 fun _ => false)
        ([.call 0 (.sysSleep 5 0), .run 0, .run 0, .run 0, .kill 0] ++ List.replicate 4 (.run 0)) =
          some s ∧
      s.ptable = none ∧ (s.pc 0).asleep = some .ticks ∧ s.killed 0 = true := by
  have ran : (run step
      (boot (fun _ => Pipe.alloc fun _ => 0) ⟨fun _ => 0, 0, 0, 0⟩ 0 fun _ => false)
      ([.call 0 (.sysSleep 5 0), .run 0, .run 0, .run 0, .kill 0] ++
        List.replicate 4 (.run (0 : Fin 1)))).map
        (fun s => (s.ptable, (s.pc 0).asleep, s.killed 0)) = some (none, some .ticks, true) := by
    decide +kernel
  obtain ⟨s, reaches, same⟩ := Option.map_eq_some_iff.mp ran
  obtain ⟨free, asleep, isKilled⟩ : s.ptable = none ∧ (s.pc 0).asleep = some .ticks ∧
      s.killed 0 = true := by simpa using same
  exact ⟨s, reaches, free, asleep, isKilled⟩

end Xv6.Blocking
