import Xv6.Lib.CircularScan
import Xv6.Lib.TransitionSystem
import Xv6.Process.Table

/-!
Kernel threads, spinlocks and context switches.

Owns: the machine on which `sleep`, `wakeup`, `wakeup1`, `yield`, `exit`, `forkret` and
`scheduler` run, each step one `acquire`, one `release`, one assignment or one `swtch`, on
any number of CPUs, with interrupts; and the inversion of a step.

Does not own: what the steps preserve (`Xv6.Sync.Stack`, `Xv6.Sync.Wakeup`).

The code that calls these functions is arbitrary: at any point it may take any lock, free
any lock it holds, call any of the functions, or change the table as `allocproc`, `fork`,
`wait` and `kill` do.
-/

namespace Xv6.Sync

open Function (update)
open Xv6.Process (Slot ProcState nproc)

inductive Lock where
  | ptable
  | other (id : Nat)
deriving DecidableEq, Repr

/-- An address; 0 is no channel. -/
abbrev Chan := Nat

structure Proc where
  state : ProcState
  chan : Chan
deriving DecidableEq, Repr

/-! ## Code -/

inductive SleepPc where
  | acquirePtable
  | releaseLk
  | setChan
  | setState
  | sched
  | clearChan
  | releasePtable
  | acquireLk
deriving DecidableEq, Repr

inductive YieldPc where
  | acquire
  | setState
  | sched
  | release
deriving DecidableEq, Repr

inductive ExitPc where
  | setState
  | sched
  | dead
deriving DecidableEq, Repr

inductive SchedulerPc where
  | acquire
  | choose
  /-- After `swtch` has come back. -/
  | back
deriving DecidableEq, Repr

/-- A function that has been called, and the point it has reached. -/
inductive Frame where
  | client
  /-- Code that an interrupt has started. -/
  | handler
  | sleep (chan : Chan) (lk : Lock) (at_ : SleepPc)
  /-- `wakeup` before `acquire`. -/
  | wakeup (chan : Chan)
  /-- `wakeup` in the loop of `wakeup1`, with `i` slots behind it. -/
  | wakeupLoop (chan : Chan) (i : Nat)
  | wakeup1 (chan : Chan) (i : Nat)
  | yield (at_ : YieldPc)
  | exit (at_ : ExitPc)
  | forkret
  | scheduler (at_ : SchedulerPc)
deriving DecidableEq, Repr

inductive Instr where
  | acquire (lk : Lock)
  | release (lk : Lock)
  | setChan (chan : Chan)
  | setState (state : ProcState)
  /-- One round of the loop in `wakeup1`. -/
  | wake (chan : Chan) (q : Slot)
  | sched
  | skip
deriving DecidableEq, Repr

/-- Where `sleep` starts: with `ptable.lock` as its lock it leaves out the exchange. -/
def SleepPc.first (lk : Lock) : SleepPc :=
  if lk = .ptable then .setChan else .acquirePtable

/-- The next instruction of a function, and what is left of the call after it. -/
def Frame.code : Frame → Option (Instr × List Frame)
  | .client => none
  | .handler => none
  | .sleep chan lk .acquirePtable => some (.acquire .ptable, [.sleep chan lk .releaseLk])
  | .sleep chan lk .releaseLk => some (.release lk, [.sleep chan lk .setChan])
  | .sleep chan lk .setChan => some (.setChan chan, [.sleep chan lk .setState])
  | .sleep chan lk .setState => some (.setState .sleeping, [.sleep chan lk .sched])
  | .sleep chan lk .sched => some (.sched, [.sleep chan lk .clearChan])
  | .sleep chan lk .clearChan =>
    some (.setChan 0, if lk = .ptable then [] else [.sleep chan lk .releasePtable])
  | .sleep chan lk .releasePtable => some (.release .ptable, [.sleep chan lk .acquireLk])
  | .sleep _ lk .acquireLk => some (.acquire lk, [])
  | .wakeup chan => some (.acquire .ptable, [.wakeupLoop chan 0])
  | .wakeupLoop chan i =>
    if inside : i < nproc then some (.wake chan ⟨i, inside⟩, [.wakeupLoop chan (i + 1)])
    else some (.release .ptable, [])
  | .wakeup1 chan i =>
    if inside : i < nproc then some (.wake chan ⟨i, inside⟩, [.wakeup1 chan (i + 1)])
    else some (.skip, [])
  | .yield .acquire => some (.acquire .ptable, [.yield .setState])
  | .yield .setState => some (.setState .runnable, [.yield .sched])
  | .yield .sched => some (.sched, [.yield .release])
  | .yield .release => some (.release .ptable, [])
  | .exit .setState => some (.setState .zombie, [.exit .sched])
  | .exit .sched => some (.sched, [.exit .dead])
  | .exit .dead => none
  | .forkret => some (.release .ptable, [])
  | .scheduler .acquire => some (.acquire .ptable, [.scheduler .choose])
  | .scheduler .choose => some (.release .ptable, [.scheduler .acquire])
  | .scheduler .back => some (.release .ptable, [.scheduler .acquire])

def Frame.isClient : Frame → Bool
  | .client => true
  | .handler => true
  | _ => false

/-! ## The machine -/

/-- A process, or the scheduler of a CPU. -/
inductive Thread (ncpu : Nat) where
  | proc (p : Slot)
  | cpu (c : Fin ncpu)
deriving DecidableEq, Repr

structure Machine (ncpu : Nat) where
  proc : Slot → Proc
  /-- The kernel stacks, innermost call first. -/
  frames : Thread ncpu → List Frame
  /-- `c->proc`: the process that runs on the CPU, if its scheduler does not. -/
  running : Fin ncpu → Option Slot
  rrNext : Nat
  /-- `lk->cpu` while the lock is held. -/
  owner : Lock → Option (Fin ncpu)
  ncli : Fin ncpu → Nat
  /-- The CPU has called `panic`. -/
  halted : Fin ncpu → Bool

variable {ncpu : Nat} {m after : Machine ncpu} {c : Fin ncpu} {f : Frame} {rest : List Frame}

namespace Machine

/-- The thread that executes on a CPU. -/
def thread (m : Machine ncpu) (c : Fin ncpu) : Thread ncpu :=
  match m.running c with
  | some p => .proc p
  | none => .cpu c

def setFrames (m : Machine ncpu) (t : Thread ncpu) (frames : List Frame) : Machine ncpu :=
  { m with frames := update m.frames t frames }

def setProc (m : Machine ncpu) (p : Slot) (proc : Proc) : Machine ncpu :=
  { m with proc := update m.proc p proc }

def panic (m : Machine ncpu) (c : Fin ncpu) : Machine ncpu :=
  { m with halted := update m.halted c true }

/-- `acquire` when the lock is free. -/
def take (m : Machine ncpu) (c : Fin ncpu) (lk : Lock) : Machine ncpu :=
  { m with
    owner := update m.owner lk (some c)
    ncli := update m.ncli c (m.ncli c + 1) }

/-- `release` of a lock this CPU holds. -/
def drop (m : Machine ncpu) (c : Fin ncpu) (lk : Lock) : Machine ncpu :=
  { m with
    owner := update m.owner lk none
    ncli := update m.ncli c (m.ncli c - 1) }

/-- One round of the loop in `wakeup1`. -/
def wake (m : Machine ncpu) (chan : Chan) (q : Slot) : Machine ncpu :=
  m.setProc q
    (if (m.proc q).state = .sleeping ∧ (m.proc q).chan = chan then
      { m.proc q with state := .runnable }
    else m.proc q)

/-- The `swtch` of `sched`. -/
def leave (m : Machine ncpu) (c : Fin ncpu) : Machine ncpu :=
  { m with running := update m.running c none }

/-- The effect of an instruction apart from the stack, for the instructions that go
through. -/
def effect (m : Machine ncpu) (c : Fin ncpu) : Instr → Option (Machine ncpu)
  | .acquire lk => if m.owner lk = none then some (m.take c lk) else none
  | .release lk => if m.owner lk = some c then some (m.drop c lk) else none
  | .setChan chan => (m.running c).map fun p => m.setProc p { m.proc p with chan := chan }
  | .setState state => (m.running c).map fun p => m.setProc p { m.proc p with state := state }
  | .wake chan q => some (m.wake chan q)
  | .sched =>
    (m.running c).bind fun p =>
      if m.owner .ptable = some c ∧ m.ncli c = 1 ∧ (m.proc p).state ≠ .running then
        some (m.leave c)
      else none
  | .skip => some m

/-- The instructions that call `panic`: `acquire` of a lock this CPU holds, `release` of
one it does not, and the tests of `sched`. -/
def panics (m : Machine ncpu) (c : Fin ncpu) : Instr → Bool
  | .acquire lk => decide (m.owner lk = some c)
  | .release lk => decide (m.owner lk ≠ some c)
  | .sched =>
    match m.running c with
    | some p => !decide (m.owner .ptable = some c ∧ m.ncli c = 1 ∧ (m.proc p).state ≠ .running)
    | none => true
  | _ => false

/-- Execute an instruction and put `left` in the place of the innermost frame. -/
def exec (m : Machine ncpu) (c : Fin ncpu) (instr : Instr) (left rest : List Frame) :
    Option (Machine ncpu) :=
  if m.panics c instr = true then some (m.panic c)
  else (m.effect c instr).map fun next => next.setFrames (m.thread c) (left ++ rest)

end Machine

/-- What the calling code can do. -/
inductive Op where
  | acquire (lk : Lock)
  | release (lk : Lock)
  | sleep (chan : Chan) (lk : Lock)
  | wakeup (chan : Chan)
  | wakeup1 (chan : Chan)
  | yield
  | exit
  /-- The assignments to `state` of `allocproc`, `fork`, its failure paths, `wait` and
  `kill`. -/
  | alloc (q : Slot)
  | start (q : Slot)
  | undo (q : Slot)
  | reap (q : Slot)
  | kill (q : Slot)
  /-- An interrupt handler returns. -/
  | iret
deriving DecidableEq, Repr

inductive Action (ncpu : Nat) where
  /-- The next instruction of the function that runs on a CPU. -/
  | run (c : Fin ncpu)
  | op (c : Fin ncpu) (op : Op)
  | interrupt (c : Fin ncpu)
deriving DecidableEq, Repr

def Action.cpu : Action ncpu → Fin ncpu
  | .run c => c
  | .op c _ => c
  | .interrupt c => c

namespace Machine

/-- The search of `scheduler`. -/
def candidate (m : Machine ncpu) : Option Slot :=
  CircularScan.scan (fun p => decide ((m.proc p).state = .runnable)) m.rrNext

/-- `scheduler` switches to a process. -/
def dispatch (m : Machine ncpu) (c : Fin ncpu) (p : Slot) (rest : List Frame) : Machine ncpu :=
  { m with
    proc := update m.proc p { m.proc p with state := .running }
    frames := update m.frames (.cpu c) (.scheduler .back :: rest)
    running := update m.running c (some p)
    rrNext := (p + 1) % nproc }

def run (m : Machine ncpu) (c : Fin ncpu) (top : Frame) (rest : List Frame) :
    Option (Machine ncpu) :=
  match if top = .scheduler .choose then m.candidate else none with
  | some p => some (m.dispatch c p rest)
  | none => top.code.bind fun (instr, left) => m.exec c instr left rest

def push (m : Machine ncpu) (c : Fin ncpu) (f : Frame) : Machine ncpu :=
  m.setFrames (m.thread c) (f :: m.frames (m.thread c))

/-- An assignment to the state of a slot, where the slot is in state `before`. -/
def move (m : Machine ncpu) (q : Slot) (before after : ProcState) : Option (Machine ncpu) :=
  if (m.proc q).state = before then some (m.setProc q { m.proc q with state := after })
  else none

/-- The operations, with what each caller in the source makes sure of. -/
def op (m : Machine ncpu) (c : Fin ncpu) (top : Frame) (rest : List Frame) :
    Op → Option (Machine ncpu)
  | .acquire lk => m.exec c (.acquire lk) [top] rest
  | .release lk => m.exec c (.release lk) [top] rest
  | .sleep chan lk =>
    if m.running c ≠ none ∧ m.owner lk = some c then
      some (m.push c (.sleep chan lk (SleepPc.first lk)))
    else none
  | .wakeup chan => some (m.push c (.wakeup chan))
  | .wakeup1 chan =>
    if m.owner .ptable = some c then some (m.push c (.wakeup1 chan 0)) else none
  | .yield => if m.running c ≠ none then some (m.push c (.yield .acquire)) else none
  | .exit =>
    if m.running c ≠ none ∧ m.owner .ptable = some c then
      some (m.push c (.exit .setState))
    else none
  | .alloc q => if m.owner .ptable = some c then m.move q .unused .embryo else none
  | .start q =>
    if m.owner .ptable = some c then
      (m.move q .embryo .runnable).map fun next =>
        next.setFrames (.proc q) [.forkret, .client]
    else none
  -- `fork` and `allocproc` give an EMBRYO up without the lock.
  | .undo q => m.move q .embryo .unused
  | .reap q => if m.owner .ptable = some c then m.move q .zombie .unused else none
  | .kill q => if m.owner .ptable = some c then m.move q .sleeping .runnable else none
  | .iret =>
    if top = .handler ∧ m.ncli c = 0 then some (m.setFrames (m.thread c) rest) else none

end Machine

def step (m : Machine ncpu) (a : Action ncpu) : Option (Machine ncpu) :=
  match m.halted a.cpu, m.frames (m.thread a.cpu) with
  | false, top :: rest =>
    match a with
    | .run c => m.run c top rest
    | .op c o => if top.isClient = true then m.op c top rest o else none
    | .interrupt c => if m.ncli c = 0 then some (m.push c .handler) else none
  | _, _ => none

/-- After `userinit`, with every CPU about to enter its scheduler. -/
def boot (ncpu : Nat) : Machine ncpu where
  proc p := ⟨if p = 0 then .runnable else .unused, 0⟩
  frames
    | .proc p => if p = 0 then [.forkret, .client] else []
    | .cpu _ => [.scheduler .acquire]
  running _ := none
  rrNext := 0
  owner _ := none
  ncli _ := 0
  halted _ := false

/-! ## Inversion -/

/-- The instruction an action executes at a frame, with what it leaves of the frame. -/
inductive Executes : Action ncpu → Frame → Instr → List Frame → Prop
  | code {c : Fin ncpu} {f : Frame} {instr : Instr} {left : List Frame}
      (code : f.code = some (instr, left)) : Executes (.run c) f instr left
  | acquire {c : Fin ncpu} {f : Frame} {lk : Lock} (client : f.isClient = true) :
      Executes (.op c (.acquire lk)) f (.acquire lk) [f]
  | release {c : Fin ncpu} {f : Frame} {lk : Lock} (client : f.isClient = true) :
      Executes (.op c (.release lk)) f (.release lk) [f]

inductive Effect (m : Machine ncpu) (c : Fin ncpu) : Instr → Machine ncpu → Prop
  | acquire {lk : Lock} (free : m.owner lk = none) : Effect m c (.acquire lk) (m.take c lk)
  | release {lk : Lock} (holds : m.owner lk = some c) : Effect m c (.release lk) (m.drop c lk)
  | setChan {p : Slot} (chan : Chan) (on : m.running c = some p) :
      Effect m c (.setChan chan) (m.setProc p { m.proc p with chan := chan })
  | setState {p : Slot} (state : ProcState) (on : m.running c = some p) :
      Effect m c (.setState state) (m.setProc p { m.proc p with state := state })
  | wake (chan : Chan) (q : Slot) : Effect m c (.wake chan q) (m.wake chan q)
  | sched {p : Slot} (on : m.running c = some p) (holds : m.owner .ptable = some c)
      (level : m.ncli c = 1) :
      Effect m c .sched (m.leave c)
  | skip : Effect m c .skip m

/-- The function an action calls, as it starts. -/
inductive Called (m : Machine ncpu) : Action ncpu → Frame → Prop
  | sleep {c : Fin ncpu} {p : Slot} {chan : Chan} {lk : Lock} (on : m.running c = some p)
      (holds : m.owner lk = some c) :
      Called m (.op c (.sleep chan lk)) (.sleep chan lk (SleepPc.first lk))
  | wakeup {c : Fin ncpu} {chan : Chan} : Called m (.op c (.wakeup chan)) (.wakeup chan)
  | wakeup1 {c : Fin ncpu} {chan : Chan} (holds : m.owner .ptable = some c) :
      Called m (.op c (.wakeup1 chan)) (.wakeup1 chan 0)
  | yield {c : Fin ncpu} {p : Slot} (on : m.running c = some p) :
      Called m (.op c .yield) (.yield .acquire)
  | exit {c : Fin ncpu} {p : Slot} (on : m.running c = some p)
      (holds : m.owner .ptable = some c) : Called m (.op c .exit) (.exit .setState)
  | handler {c : Fin ncpu} (enabled : m.ncli c = 0) : Called m (.interrupt c) .handler

/-- The changes of state that do not touch a stack. -/
inductive Moved (m : Machine ncpu) : Action ncpu → Slot → ProcState → ProcState → Prop
  | alloc {c : Fin ncpu} {q : Slot} (holds : m.owner .ptable = some c) :
      Moved m (.op c (.alloc q)) q .unused .embryo
  | undo {c : Fin ncpu} {q : Slot} : Moved m (.op c (.undo q)) q .embryo .unused
  | reap {c : Fin ncpu} {q : Slot} (holds : m.owner .ptable = some c) :
      Moved m (.op c (.reap q)) q .zombie .unused
  | kill {c : Fin ncpu} {q : Slot} (holds : m.owner .ptable = some c) :
      Moved m (.op c (.kill q)) q .sleeping .runnable

/-- What may lie under a frame that is pushed: an interrupt can come in anywhere. -/
def Frame.callable (callee caller : Frame) : Prop :=
  callee = .handler ∨ caller.isClient = true

inductive Step (m : Machine ncpu) : Action ncpu → Machine ncpu → Prop
  | exec {a : Action ncpu} {f : Frame} {rest left : List Frame} {instr : Instr}
      {next : Machine ncpu} (top : m.frames (m.thread a.cpu) = f :: rest)
      (executes : Executes a f instr left) (effect : Effect m a.cpu instr next) :
      Step m a (next.setFrames (m.thread a.cpu) (left ++ rest))
  | panic {a : Action ncpu} {f : Frame} {rest left : List Frame} {instr : Instr}
      (top : m.frames (m.thread a.cpu) = f :: rest) (executes : Executes a f instr left)
      (panics : m.panics a.cpu instr = true) : Step m a (m.panic a.cpu)
  | dispatch {c : Fin ncpu} {p : Slot} {rest : List Frame}
      (top : m.frames (m.thread c) = .scheduler .choose :: rest)
      (found : (m.proc p).state = .runnable) : Step m (.run c) (m.dispatch c p rest)
  | push {a : Action ncpu} {f callee : Frame} {rest : List Frame}
      (top : m.frames (m.thread a.cpu) = f :: rest) (called : Called m a callee)
      (isOver : callee.callable f) : Step m a (m.push a.cpu callee)
  | iret {c : Fin ncpu} {rest : List Frame} (top : m.frames (m.thread c) = .handler :: rest)
      (enabled : m.ncli c = 0) : Step m (.op c .iret) (m.setFrames (m.thread c) rest)
  | move {a : Action ncpu} {q : Slot} {before after : ProcState} {f : Frame} {rest : List Frame}
      (top : m.frames (m.thread a.cpu) = f :: rest) (client : f.isClient = true)
      (moved : Moved m a q before after) (at_ : (m.proc q).state = before) :
      Step m a (m.setProc q { m.proc q with state := after })
  | start {c : Fin ncpu} {q : Slot} {f : Frame} {rest : List Frame}
      (top : m.frames (m.thread c) = f :: rest) (client : f.isClient = true)
      (holds : m.owner .ptable = some c) (at_ : (m.proc q).state = .embryo) :
      Step m (.op c (.start q))
        ((m.setProc q { m.proc q with state := .runnable }).setFrames (.proc q)
          [.forkret, .client])

theorem Effect.of_effect {m next : Machine ncpu} {c : Fin ncpu} {instr : Instr}
    (done : m.effect c instr = some next) : Effect m c instr next := by
  cases instr with
  | acquire lk =>
    simp only [Machine.effect, Option.ite_none_right_eq_some, Option.some.injEq] at done
    obtain ⟨free, rfl⟩ := done
    exact .acquire free
  | release lk =>
    simp only [Machine.effect, Option.ite_none_right_eq_some, Option.some.injEq] at done
    obtain ⟨holds, rfl⟩ := done
    exact .release holds
  | setChan chan =>
    obtain ⟨p, on, rfl⟩ := Option.map_eq_some_iff.mp done
    exact .setChan chan on
  | setState state =>
    obtain ⟨p, on, rfl⟩ := Option.map_eq_some_iff.mp done
    exact .setState state on
  | wake chan q =>
    cases done
    exact .wake chan q
  | sched =>
    obtain ⟨p, on, tested⟩ := Option.bind_eq_some_iff.mp done
    simp only [Option.ite_none_right_eq_some, Option.some.injEq] at tested
    obtain ⟨⟨holds, level, -⟩, rfl⟩ := tested
    exact .sched on holds level
  | skip =>
    cases done
    exact .skip

theorem Step.of_exec {m after : Machine ncpu} {a : Action ncpu} {f : Frame}
    {rest left : List Frame} {instr : Instr} (top : m.frames (m.thread a.cpu) = f :: rest)
    (executes : Executes a f instr left) (ran : m.exec a.cpu instr left rest = some after) :
    Step m a after := by
  unfold Machine.exec at ran
  split at ran
  · rename_i panics
    cases ran
    exact .panic top executes panics
  · cases effect : m.effect a.cpu instr with
    | none => simp [effect] at ran
    | some next =>
      simp only [effect, Option.map_some, Option.some.injEq] at ran
      subst ran
      exact .exec top executes (.of_effect effect)

theorem Machine.move_eq_some {m next : Machine ncpu} {q : Slot} {before after : ProcState} :
    m.move q before after = some next ↔
      (m.proc q).state = before ∧ next = m.setProc q { m.proc q with state := after } := by
  simp [Machine.move, eq_comm]

theorem Step.of_run (top : m.frames (m.thread c) = f :: rest)
    (ran : m.run c f rest = some after) : Step m (.run c) after := by
  unfold Machine.run at ran
  split at ran
  · rename_i p searched
    cases ran
    split at searched
    · rename_i choosing
      rw [choosing] at top
      apply Step.dispatch top
      simpa using CircularScan.scan_accepts searched
    · simp at searched
  · cases code : f.code with
    | none => simp [code] at ran
    | some pair =>
      rw [code, Option.bind_some] at ran
      exact .of_exec (a := .run c) top (.code code) ran

theorem Step.of_op {o : Op} (top : m.frames (m.thread c) = f :: rest)
    (client : f.isClient = true) (ran : m.op c f rest o = some after) :
    Step m (.op c o) after := by
  cases o with
  | acquire lk => exact .of_exec (a := .op c _) top (.acquire client) ran
  | release lk => exact .of_exec (a := .op c _) top (.release client) ran
  | sleep chan lk =>
    simp only [Machine.op, Option.ite_none_right_eq_some, Option.some.injEq] at ran
    obtain ⟨⟨runs, holds⟩, rfl⟩ := ran
    obtain ⟨p, on⟩ := Option.ne_none_iff_exists'.mp runs
    exact .push (a := .op c _) top (.sleep on holds) (.inr client)
  | wakeup chan =>
    cases ran
    exact .push (a := .op c _) top .wakeup (.inr client)
  | wakeup1 chan =>
    simp only [Machine.op, Option.ite_none_right_eq_some, Option.some.injEq] at ran
    obtain ⟨holds, rfl⟩ := ran
    exact .push (a := .op c _) top (.wakeup1 holds) (.inr client)
  | yield =>
    simp only [Machine.op, Option.ite_none_right_eq_some, Option.some.injEq] at ran
    obtain ⟨runs, rfl⟩ := ran
    obtain ⟨p, on⟩ := Option.ne_none_iff_exists'.mp runs
    exact .push (a := .op c _) top (.yield on) (.inr client)
  | exit =>
    simp only [Machine.op, Option.ite_none_right_eq_some, Option.some.injEq] at ran
    obtain ⟨⟨runs, holds⟩, rfl⟩ := ran
    obtain ⟨p, on⟩ := Option.ne_none_iff_exists'.mp runs
    exact .push (a := .op c _) top (.exit on holds) (.inr client)
  | alloc q =>
    simp only [Machine.op, Option.ite_none_right_eq_some, Machine.move_eq_some] at ran
    obtain ⟨holds, at_, rfl⟩ := ran
    exact .move (a := .op c _) top client (.alloc holds) at_
  | start q =>
    simp only [Machine.op, Option.ite_none_right_eq_some, Option.map_eq_some_iff,
      Machine.move_eq_some] at ran
    obtain ⟨holds, next, ⟨at_, rfl⟩, rfl⟩ := ran
    exact .start top client holds at_
  | undo q =>
    obtain ⟨at_, rfl⟩ := Machine.move_eq_some.mp ran
    exact .move (a := .op c _) top client .undo at_
  | reap q =>
    simp only [Machine.op, Option.ite_none_right_eq_some, Machine.move_eq_some] at ran
    obtain ⟨holds, at_, rfl⟩ := ran
    exact .move (a := .op c _) top client (.reap holds) at_
  | kill q =>
    simp only [Machine.op, Option.ite_none_right_eq_some, Machine.move_eq_some] at ran
    obtain ⟨holds, at_, rfl⟩ := ran
    exact .move (a := .op c _) top client (.kill holds) at_
  | iret =>
    simp only [Machine.op, Option.ite_none_right_eq_some, Option.some.injEq] at ran
    obtain ⟨⟨isHandler, enabled⟩, rfl⟩ := ran
    rw [isHandler] at top
    exact .iret top enabled

theorem Step.of_step {a : Action ncpu} (stepped : step m a = some after) : Step m a after := by
  unfold step at stepped
  split at stepped
  · rename_i top rest running at_
    cases a with
    | run c => exact .of_run at_ stepped
    | op c o =>
      simp only [Option.ite_none_right_eq_some] at stepped
      exact .of_op at_ stepped.1 stepped.2
    | interrupt c =>
      simp only [Option.ite_none_right_eq_some, Option.some.injEq] at stepped
      obtain ⟨enabled, rfl⟩ := stepped
      exact .push (a := .interrupt c) at_ (.handler enabled) (.inl rfl)
  · simp at stepped

end Xv6.Sync
