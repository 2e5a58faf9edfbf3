import Xv6.Lib.RingBuffer
import Xv6.Lib.TransitionSystem
import Xv6.Lib.Update

/-!
Pipes.

Owns: one pipe and any number of processes in `pipewrite`, `piperead` and `pipeclose`, one
statement a step, with `p->lock`, `ptable.lock` and `kill`; and the inversion of a step.

Does not own: the bytes that pass (`Xv6.Pipe.Stream`); the wakeups (`Xv6.Pipe.Wakeup`).

`fileclose` calls `pipeclose` for an end when the last reference to its file is dropped, so
no process is in a call on that end then.
-/

namespace Xv6

def pipesize : Nat := 512

/-- The values of an `uint`. -/
def uint : Nat := 2 ^ 32

instance : NeZero pipesize := ⟨by decide⟩

structure Pipe where
  data : Fin pipesize → UInt8
  nread : Nat
  nwrite : Nat
  readopen : Bool
  writeopen : Bool

end Xv6

namespace Xv6.Pipe

/-- `p->nwrite == p->nread + PIPESIZE` -/
def full (p : Pipe) : Bool :=
  decide (p.nwrite = (p.nread + pipesize) % uint)

/-- `p->nread == p->nwrite` -/
def empty (p : Pipe) : Bool :=
  decide (p.nread = p.nwrite)

/-- `p->data[p->nwrite++ % PIPESIZE] = byte` -/
def store (p : Pipe) (byte : UInt8) : Pipe :=
  { p with
    data := Function.update p.data (RingBuffer.cell p.nwrite) byte
    nwrite := (p.nwrite + 1) % uint }

/-- `p->data[p->nread++ % PIPESIZE]` -/
def fetch (p : Pipe) : UInt8 × Pipe :=
  (p.data (RingBuffer.cell p.nread), { p with nread := (p.nread + 1) % uint })

/-- `pipealloc`; the data is what the page held. -/
def alloc (data : Fin pipesize → UInt8) : Pipe where
  data := data
  nread := 0
  nwrite := 0
  readopen := true
  writeopen := true

def close (p : Pipe) (writable : Bool) : Pipe :=
  if writable then { p with writeopen := false } else { p with readopen := false }

/-- The channels processes sleep on: `&p->nread` and `&p->nwrite`. -/
inductive Chan where
  | nread
  | nwrite
deriving DecidableEq, Repr

/-- The points of `sleep(chan, &p->lock)`. -/
inductive SleepPc where
  | acquirePtable
  | releaseLk
  | setState
  | asleep
  | acquireLk
deriving DecidableEq, Repr

/-- The user's bytes, `addr[0]`, `addr[1]` and so on. -/
abbrev Bytes := Nat → UInt8

inductive Pc where
  | idle
  | writeAcquire (addr : Bytes) (n : Int)
  | writeLoop (addr : Bytes) (n : Int) (i : Nat)
  /-- In the loop, with the pipe full: `wakeup(&p->nread)`. -/
  | writeFull (addr : Bytes) (n : Int) (i : Nat)
  | writeSleep (addr : Bytes) (n : Int) (i : Nat) (at_ : SleepPc)
  | writeWake (n : Int)
  | writeRelease (result : Int)
  | readAcquire (n : Int)
  | readWait (n : Int)
  | readSleep (n : Int) (at_ : SleepPc)
  /-- The copy loop, with the bytes in `addr` so far. -/
  | readCopy (n : Int) (got : List UInt8)
  | readWake (n : Int) (got : List UInt8)
  /-- `return i` with `i` bytes, or `return -1`. -/
  | readRelease (n : Int) (result : Option (List UInt8))
  | closeAcquire (writable : Bool)
  | closeSet (writable : Bool)
  | closeWake (writable : Bool)
  | closeRelease

namespace Pc

/-- What a process sleeps on, and how far its call of `sleep` is. -/
def sleeps : Pc → Option (Chan × SleepPc)
  | .writeSleep _ _ _ at_ => some (.nwrite, at_)
  | .readSleep _ at_ => some (.nread, at_)
  | _ => none

def setSleep (at_ : SleepPc) : Pc → Pc
  | .writeSleep addr n i _ => .writeSleep addr n i at_
  | .readSleep n _ => .readSleep n at_
  | pc => pc

/-- The loop that called `sleep`. -/
def loop : Pc → Pc
  | .writeSleep addr n i _ => .writeLoop addr n i
  | .readSleep n _ => .readWait n
  | pc => pc

/-- The end of the pipe a call is on. -/
def usesWrite : Pc → Bool
  | .writeAcquire _ _ => true
  | .writeLoop _ _ _ => true
  | .writeFull _ _ _ => true
  | .writeSleep _ _ _ _ => true
  | .writeWake _ => true
  | .writeRelease _ => true
  | _ => false

def usesRead : Pc → Bool
  | .readAcquire _ => true
  | .readWait _ => true
  | .readSleep _ _ => true
  | .readCopy _ _ => true
  | .readWake _ _ => true
  | .readRelease _ _ => true
  | _ => false

/-- The call of `pipeclose` that has not yet closed the end. -/
def closing (writable : Bool) : Pc → Bool
  | .closeAcquire closed => closed == writable
  | .closeSet closed => closed == writable
  | _ => false

/-- `wakeup(chan)`, as one process sees it. -/
def wake (chan : Chan) (pc : Pc) : Pc :=
  if pc.sleeps = some (chan, .asleep) then pc.setSleep .acquireLk else pc

end Pc

/-! ## Steps -/

variable {n : Nat} {p : Fin n} {pc : Pc} {chan : Chan}

structure State (n : Nat) where
  pipe : Pipe
  /-- `p->lock` -/
  lock : Option (Fin n)
  ptable : Option (Fin n)
  killed : Fin n → Bool
  pc : Fin n → Pc

inductive Action (n : Nat) where
  | write (p : Fin n) (addr : Bytes) (count : Int)
  | read (p : Fin n) (count : Int)
  | close (p : Fin n) (writable : Bool)
  | run (p : Fin n)
  | kill (p : Fin n)

namespace State

def setPc (s : State n) (p : Fin n) (pc : Pc) : State n :=
  { s with pc := Function.update s.pc p pc }

/-- `acquire(&p->lock)` -/
def acquire (s : State n) (p : Fin n) (pc : Pc) : Option (State n) :=
  if s.lock = none then some ({ s with lock := some p }.setPc p pc) else none

/-- `release(&p->lock)` -/
def release (s : State n) (p : Fin n) (pc : Pc) : State n :=
  { s with lock := none }.setPc p pc

/-- `wakeup(chan)`, which holds `ptable.lock` throughout. -/
def wakeup (s : State n) (chan : Chan) (p : Fin n) (pc : Pc) : Option (State n) :=
  if s.ptable = none then some ({ s with pc := fun q => (s.pc q).wake chan }.setPc p pc)
  else none

/-- The next step of `sleep(chan, &p->lock)`. The scheduler frees `ptable.lock` once the
process is SLEEPING. -/
def sleep (s : State n) (p : Fin n) : SleepPc → Option (State n)
  | .acquirePtable =>
    if s.ptable = none then
      some ({ s with ptable := some p }.setPc p ((s.pc p).setSleep .releaseLk))
    else none
  | .releaseLk => some (s.release p ((s.pc p).setSleep .setState))
  | .setState => some ({ s with ptable := none }.setPc p ((s.pc p).setSleep .asleep))
  | .asleep => none
  | .acquireLk => s.acquire p (s.pc p).loop

/-- The body of the loop in `pipewrite`. -/
def writeLoop (s : State n) (p : Fin n) (addr : Bytes) (count : Int) (i : Nat) : State n :=
  if i < count then
    if s.pipe.full then
      if s.pipe.readopen = false ∨ s.killed p = true then s.setPc p (.writeRelease (-1))
      else s.setPc p (.writeFull addr count i)
    else { s with pipe := s.pipe.store (addr i) }.setPc p (.writeLoop addr count (i + 1))
  else s.setPc p (.writeWake count)

/-- The test of the first loop in `piperead`. -/
def readWait (s : State n) (p : Fin n) (count : Int) : State n :=
  if s.pipe.empty = true ∧ s.pipe.writeopen = true then
    if s.killed p = true then s.setPc p (.readRelease count none)
    else s.setPc p (.readSleep count .acquirePtable)
  else s.setPc p (.readCopy count [])

/-- The body of the second loop in `piperead`. -/
def readCopy (s : State n) (p : Fin n) (count : Int) (got : List UInt8) : State n :=
  if got.length < count ∧ s.pipe.empty = false then
    { s with pipe := s.pipe.fetch.2 }.setPc p (.readCopy count (got ++ [s.pipe.fetch.1]))
  else s.setPc p (.readWake count got)

def run (s : State n) (p : Fin n) : Option (State n) :=
  match s.pc p with
  | .idle => none
  | .writeAcquire addr count => s.acquire p (.writeLoop addr count 0)
  | .writeLoop addr count i => some (s.writeLoop p addr count i)
  | .writeFull addr count i => s.wakeup .nread p (.writeSleep addr count i .acquirePtable)
  | .writeSleep _ _ _ at_ => s.sleep p at_
  | .writeWake count => s.wakeup .nread p (.writeRelease count)
  | .writeRelease _ => some (s.release p .idle)
  | .readAcquire count => s.acquire p (.readWait count)
  | .readWait count => some (s.readWait p count)
  | .readSleep _ at_ => s.sleep p at_
  | .readCopy count got => some (s.readCopy p count got)
  | .readWake count got => s.wakeup .nwrite p (.readRelease count (some got))
  | .readRelease _ _ => some (s.release p .idle)
  | .closeAcquire writable => s.acquire p (.closeSet writable)
  | .closeSet writable =>
    some ({ s with pipe := s.pipe.close writable }.setPc p (.closeWake writable))
  | .closeWake writable => s.wakeup (if writable then .nread else .nwrite) p .closeRelease
  | .closeRelease => some (s.release p .idle)

def isIdle (s : State n) (p : Fin n) : Bool :=
  match s.pc p with
  | .idle => true
  | _ => false

/-- No call of `pipeclose` for an end has started. -/
def endOpen (s : State n) (writable : Bool) : Prop :=
  (if writable then s.pipe.writeopen else s.pipe.readopen) = true ∧
    ∀ q, (s.pc q).closing writable = false

instance (s : State n) (writable : Bool) : Decidable (s.endOpen writable) :=
  inferInstanceAs (Decidable (_ ∧ _))

/-- No process is in a call on an end. -/
def endIdle (s : State n) (writable : Bool) : Prop :=
  ∀ q, (if writable then (s.pc q).usesWrite else (s.pc q).usesRead) = false

instance (s : State n) (writable : Bool) : Decidable (s.endIdle writable) :=
  inferInstanceAs (Decidable (∀ _, _))

end State

def step (s : State n) : Action n → Option (State n)
  | .write p addr count =>
    if s.isIdle p = true ∧ s.endOpen true then some (s.setPc p (.writeAcquire addr count))
    else none
  | .read p count =>
    if s.isIdle p = true ∧ s.endOpen false then some (s.setPc p (.readAcquire count)) else none
  | .close p writable =>
    if s.isIdle p = true ∧ s.endOpen writable ∧ s.endIdle writable then
      some (s.setPc p (.closeAcquire writable))
    else none
  | .run p => s.run p
  | .kill p =>
    if s.ptable = none then
      some ({ s with killed := Function.update s.killed p true }.setPc p
        (match (s.pc p).sleeps with
        | some (_, .asleep) => (s.pc p).setSleep .acquireLk
        | _ => s.pc p))
    else none

/-- A new pipe, and processes that have not used it; some may have been killed. -/
def start (data : Fin pipesize → UInt8) (killed : Fin n → Bool) : State n where
  pipe := Pipe.alloc data
  lock := none
  ptable := none
  killed := killed
  pc _ := .idle

/-! ## Inversion -/

/-- `acquire(&p->lock)` returns. -/
inductive Enters : Pc → Pc → Prop
  | write {addr : Bytes} {count : Int} :
      Enters (.writeAcquire addr count) (.writeLoop addr count 0)
  | read {count : Int} : Enters (.readAcquire count) (.readWait count)
  | close {writable : Bool} : Enters (.closeAcquire writable) (.closeSet writable)
  | writeAgain {addr : Bytes} {count : Int} {i : Nat} :
      Enters (.writeSleep addr count i .acquireLk) (.writeLoop addr count i)
  | readAgain {count : Int} : Enters (.readSleep count .acquireLk) (.readWait count)

/-- The tests, each with what it has found. -/
inductive Tests (s : State n) (p : Fin n) : Pc → Pc → Prop
  | giveUp {addr : Bytes} {count : Int} {i : Nat} (inside : i < count)
      (full : s.pipe.full = true) (gone : s.pipe.readopen = false ∨ s.killed p = true) :
      Tests s p (.writeLoop addr count i) (.writeRelease (-1))
  | full {addr : Bytes} {count : Int} {i : Nat} (inside : i < count)
      (full : s.pipe.full = true) (reader : s.pipe.readopen = true) :
      Tests s p (.writeLoop addr count i) (.writeFull addr count i)
  | written {addr : Bytes} {count : Int} {i : Nat} (done : ¬ i < count) :
      Tests s p (.writeLoop addr count i) (.writeWake count)
  | interrupted {count : Int} (empty : s.pipe.empty = true) :
      Tests s p (.readWait count) (.readRelease count none)
  | wait {count : Int} (empty : s.pipe.empty = true) (writer : s.pipe.writeopen = true) :
      Tests s p (.readWait count) (.readSleep count .acquirePtable)
  | copy {count : Int} (ready : s.pipe.empty = true → s.pipe.writeopen = false) :
      Tests s p (.readWait count) (.readCopy count [])
  | copied {count : Int} {got : List UInt8}
      (done : got.length < count → s.pipe.empty = true) :
      Tests s p (.readCopy count got) (.readWake count got)

/-- The calls of `wakeup`. -/
inductive Wakes : Pc → Chan → Pc → Prop
  | full {addr : Bytes} {count : Int} {i : Nat} :
      Wakes (.writeFull addr count i) .nread (.writeSleep addr count i .acquirePtable)
  | written {count : Int} : Wakes (.writeWake count) .nread (.writeRelease count)
  | read {count : Int} {got : List UInt8} :
      Wakes (.readWake count got) .nwrite (.readRelease count (some got))
  | close {writable : Bool} :
      Wakes (.closeWake writable) (if writable then .nread else .nwrite) .closeRelease

/-- The last statement of a call, `release(&p->lock)`. -/
inductive Leaves : Pc → Prop
  | write {result : Int} : Leaves (.writeRelease result)
  | read {count : Int} {result : Option (List UInt8)} : Leaves (.readRelease count result)
  | close : Leaves .closeRelease

inductive Step (s : State n) : Action n → State n → Prop
  | write {p : Fin n} {addr : Bytes} {count : Int} (idle : s.pc p = .idle)
      (isOpen : s.endOpen true) :
      Step s (.write p addr count) (s.setPc p (.writeAcquire addr count))
  | read {p : Fin n} {count : Int} (idle : s.pc p = .idle) (isOpen : s.endOpen false) :
      Step s (.read p count) (s.setPc p (.readAcquire count))
  | close {p : Fin n} {writable : Bool} (idle : s.pc p = .idle) (isOpen : s.endOpen writable)
      (unused : s.endIdle writable) :
      Step s (.close p writable) (s.setPc p (.closeAcquire writable))
  | enter {p : Fin n} {pc : Pc} (free : s.lock = none) (enters : Enters (s.pc p) pc) :
      Step s (.run p) ({ s with lock := some p }.setPc p pc)
  | test {p : Fin n} {pc : Pc} (tests : Tests s p (s.pc p) pc) : Step s (.run p) (s.setPc p pc)
  | store {p : Fin n} {addr : Bytes} {count : Int} {i : Nat}
      (at_ : s.pc p = .writeLoop addr count i) (inside : i < count)
      (room : s.pipe.full = false) :
      Step s (.run p) ({ s with pipe := s.pipe.store (addr i) }.setPc p
        (.writeLoop addr count (i + 1)))
  | fetch {p : Fin n} {count : Int} {got : List UInt8} (at_ : s.pc p = .readCopy count got)
      (inside : got.length < count) (some_ : s.pipe.empty = false) :
      Step s (.run p) ({ s with pipe := s.pipe.fetch.2 }.setPc p
        (.readCopy count (got ++ [s.pipe.fetch.1])))
  | closeEnd {p : Fin n} {writable : Bool} (at_ : s.pc p = .closeSet writable) :
      Step s (.run p) ({ s with pipe := s.pipe.close writable }.setPc p (.closeWake writable))
  | wakeup {p : Fin n} {chan : Chan} {pc : Pc} (free : s.ptable = none)
      (wakes : Wakes (s.pc p) chan pc) :
      Step s (.run p) ({ s with pc := fun q => (s.pc q).wake chan }.setPc p pc)
  | lockPtable {p : Fin n} {chan : Chan} (free : s.ptable = none)
      (sleeps : (s.pc p).sleeps = some (chan, .acquirePtable)) :
      Step s (.run p) ({ s with ptable := some p }.setPc p ((s.pc p).setSleep .releaseLk))
  | unlock {p : Fin n} {chan : Chan} (sleeps : (s.pc p).sleeps = some (chan, .releaseLk)) :
      Step s (.run p) (s.release p ((s.pc p).setSleep .setState))
  | fallAsleep {p : Fin n} {chan : Chan} (sleeps : (s.pc p).sleeps = some (chan, .setState)) :
      Step s (.run p) ({ s with ptable := none }.setPc p ((s.pc p).setSleep .asleep))
  | leave {p : Fin n} (leaves : Leaves (s.pc p)) : Step s (.run p) (s.release p .idle)
  | kill {p : Fin n} {pc : Pc} (free : s.ptable = none)
      (hit : (∃ chan, (s.pc p).sleeps = some (chan, .asleep) ∧
        pc = (s.pc p).setSleep .acquireLk) ∨ pc = s.pc p) :
      Step s (.kill p) ({ s with killed := Function.update s.killed p true }.setPc p pc)

theorem State.isIdle_iff {s : State n} : s.isIdle p = true ↔ s.pc p = .idle := by
  unfold State.isIdle
  split
  · rename_i idle
    simp [idle]
  · rename_i busy
    exact ⟨(fun contra => by cases contra), fun idle => absurd idle busy⟩

theorem State.acquire_eq_some {s next : State n} :
    s.acquire p pc = some next ↔ s.lock = none ∧ next = { s with lock := some p }.setPc p pc := by
  simp [State.acquire, eq_comm]

theorem State.wakeup_eq_some {s next : State n} :
    s.wakeup chan p pc = some next ↔
      s.ptable = none ∧ next = { s with pc := fun q => (s.pc q).wake chan }.setPc p pc := by
  simp [State.wakeup, eq_comm]

variable {s next : State n} {p : Fin n}

variable {count : Int}

theorem Step.of_writeLoop {addr : Bytes} {i : Nat} (at_ : s.pc p = .writeLoop addr count i) :
    Step s (.run p) (s.writeLoop p addr count i) := by
  unfold State.writeLoop
  split
  · rename_i inside
    split
    · rename_i full
      split
      · rename_i gone
        exact .test (at_ ▸ .giveUp inside full gone)
      · rename_i reader
        have isOpen : s.pipe.readopen = true := by
          cases isOpen : s.pipe.readopen with
          | true => rfl
          | false => exact absurd (.inl isOpen) reader
        exact .test (at_ ▸ .full inside full isOpen)
    · rename_i room
      exact .store at_ inside (Bool.eq_false_iff.mpr room)
  · rename_i done
    exact .test (at_ ▸ .written done)

theorem Step.of_readWait (at_ : s.pc p = .readWait count) :
    Step s (.run p) (s.readWait p count) := by
  unfold State.readWait
  split
  · rename_i waits
    split
    · exact .test (at_ ▸ .interrupted waits.1)
    · exact .test (at_ ▸ .wait waits.1 waits.2)
  · rename_i ready
    apply Step.test
    rw [at_]
    apply Tests.copy
    intro empty
    apply Bool.eq_false_iff.mpr
    intro writer
    exact ready ⟨empty, writer⟩

theorem Step.of_readCopy {got : List UInt8} (at_ : s.pc p = .readCopy count got) :
    Step s (.run p) (s.readCopy p count got) := by
  unfold State.readCopy
  split
  · rename_i more
    exact .fetch at_ more.1 more.2
  · rename_i done
    apply Step.test
    rw [at_]
    apply Tests.copied
    intro inside
    cases empty : s.pipe.empty with
    | true => rfl
    | false => exact absurd ⟨inside, empty⟩ done

variable {at_ : SleepPc}

theorem Step.of_sleep (sleeps : (s.pc p).sleeps = some (chan, at_))
    (again : at_ = .acquireLk → Enters (s.pc p) (s.pc p).loop) (ran : s.sleep p at_ = some next) :
    Step s (.run p) next := by
  cases at_ with
  | acquirePtable =>
    simp only [State.sleep, Option.ite_none_right_eq_some, Option.some.injEq] at ran
    obtain ⟨free, rfl⟩ := ran
    exact .lockPtable free sleeps
  | releaseLk =>
    cases ran
    exact .unlock sleeps
  | setState =>
    cases ran
    exact .fallAsleep sleeps
  | asleep => cases ran
  | acquireLk =>
    obtain ⟨free, rfl⟩ := State.acquire_eq_some.mp ran
    exact .enter free (again rfl)

theorem Step.of_run (ran : s.run p = some next) : Step s (.run p) next := by
  unfold State.run at ran
  split at ran <;> rename_i at_
  · cases ran
  · obtain ⟨free, rfl⟩ := State.acquire_eq_some.mp ran
    exact .enter free (at_ ▸ .write)
  · cases ran
    exact .of_writeLoop at_
  · obtain ⟨free, rfl⟩ := State.wakeup_eq_some.mp ran
    exact .wakeup free (at_ ▸ .full)
  · apply Step.of_sleep (by rw [at_]; rfl) _ ran
    intro last
    rw [at_, last]
    exact .writeAgain
  · obtain ⟨free, rfl⟩ := State.wakeup_eq_some.mp ran
    exact .wakeup free (at_ ▸ .written)
  · cases ran
    exact .leave (at_ ▸ .write)
  · obtain ⟨free, rfl⟩ := State.acquire_eq_some.mp ran
    exact .enter free (at_ ▸ .read)
  · cases ran
    exact .of_readWait at_
  · apply Step.of_sleep (by rw [at_]; rfl) _ ran
    intro last
    rw [at_, last]
    exact .readAgain
  · cases ran
    exact .of_readCopy at_
  · obtain ⟨free, rfl⟩ := State.wakeup_eq_some.mp ran
    exact .wakeup free (at_ ▸ .read)
  · cases ran
    exact .leave (at_ ▸ .read)
  · obtain ⟨free, rfl⟩ := State.acquire_eq_some.mp ran
    exact .enter free (at_ ▸ .close)
  · cases ran
    exact .closeEnd at_
  · obtain ⟨free, rfl⟩ := State.wakeup_eq_some.mp ran
    exact .wakeup free (at_ ▸ .close)
  · cases ran
    exact .leave (at_ ▸ .close)

variable {a : Action n}

theorem Step.of_step (stepped : step s a = some next) : Step s a next := by
  cases a with
  | write p addr count =>
    simp only [step, Option.ite_none_right_eq_some, Option.some.injEq] at stepped
    obtain ⟨⟨idle, isOpen⟩, rfl⟩ := stepped
    exact .write (State.isIdle_iff.mp idle) isOpen
  | read p count =>
    simp only [step, Option.ite_none_right_eq_some, Option.some.injEq] at stepped
    obtain ⟨⟨idle, isOpen⟩, rfl⟩ := stepped
    exact .read (State.isIdle_iff.mp idle) isOpen
  | close p writable =>
    simp only [step, Option.ite_none_right_eq_some, Option.some.injEq] at stepped
    obtain ⟨⟨idle, isOpen, unused⟩, rfl⟩ := stepped
    exact .close (State.isIdle_iff.mp idle) isOpen unused
  | run p => exact .of_run stepped
  | kill p =>
    simp only [step, Option.ite_none_right_eq_some, Option.some.injEq] at stepped
    obtain ⟨free, rfl⟩ := stepped
    apply Step.kill free
    split
    · rename_i chan sleeps
      exact .inl ⟨chan, sleeps, rfl⟩
    · exact .inr rfl

/-! ## The locks -/

namespace Pc

/-- The points at which a process holds `p->lock`. -/
def holdsLock : Pc → Bool
  | .writeLoop _ _ _ => true
  | .writeFull _ _ _ => true
  | .writeSleep _ _ _ .acquirePtable => true
  | .writeSleep _ _ _ .releaseLk => true
  | .writeWake _ => true
  | .writeRelease _ => true
  | .readWait _ => true
  | .readSleep _ .acquirePtable => true
  | .readSleep _ .releaseLk => true
  | .readCopy _ _ => true
  | .readWake _ _ => true
  | .readRelease _ _ => true
  | .closeSet _ => true
  | .closeWake _ => true
  | .closeRelease => true
  | _ => false

theorem holdsLock_wake (chan : Chan) (pc : Pc) : (pc.wake chan).holdsLock = pc.holdsLock := by
  unfold wake
  split
  · rename_i asleep
    cases pc with
    | writeSleep | readSleep =>
      cases asleep
      rfl
    | _ => rfl
  · rfl

theorem sleeps_setSleep {before : SleepPc} (after : SleepPc)
    (sleeps : pc.sleeps = some (chan, before)) :
    (pc.setSleep after).sleeps = some (chan, after) := by
  cases pc with
  | writeSleep | readSleep =>
    cases sleeps
    rfl
  | _ => cases sleeps

theorem holdsLock_of_sleeps (sleeps : pc.sleeps = some (chan, at_)) :
    pc.holdsLock = true ↔ at_ = .acquirePtable ∨ at_ = .releaseLk := by
  cases pc with
  | writeSleep | readSleep =>
    cases sleeps
    cases at_ <;> simp [holdsLock]
  | _ => cases sleeps

/-- `wakeup` moves no process that holds `p->lock`. -/
theorem wake_of_holds (chan : Chan) (holds : pc.holdsLock = true) : pc.wake chan = pc := by
  unfold wake
  split
  · rename_i asleep
    have points := (holdsLock_of_sleeps asleep).mp holds
    simp at points
  · rfl

end Pc

/-- `p->lock` is held by the process that is at a point where it holds it. -/
def LockInv (s : State n) : Prop :=
  ∀ p, (s.pc p).holdsLock = true ↔ s.lock = some p

namespace LockInv

variable {pc : Pc}

theorem keep (inv : LockInv s) (same : pc.holdsLock = (s.pc p).holdsLock) (q : Fin n) :
    (Function.update s.pc p pc q).holdsLock = true ↔ s.lock = some q := by
  refine Update.cases q ?_ fun _ => inv q
  rw [same]
  exact inv p

theorem take (inv : LockInv s) (free : s.lock = none) (holds : pc.holdsLock = true) (q : Fin n) :
    (Function.update s.pc p pc q).holdsLock = true ↔ some p = some q := by
  refine Update.cases q (by simp [holds]) fun isOther => ?_
  rw [inv q, free]
  simp [Ne.symm isOther]

theorem drop (inv : LockInv s) (held : (s.pc p).holdsLock = true) (left : pc.holdsLock = false)
    (q : Fin n) : (Function.update s.pc p pc q).holdsLock = true ↔ none = some q := by
  refine Update.cases q (by simp [left]) fun isOther => ?_
  rw [inv q, (inv p).mp held]
  simp [Ne.symm isOther]

theorem woken (inv : LockInv s) (chan : Chan) :
    LockInv { s with pc := fun q => (s.pc q).wake chan } := by
  intro q
  show ((s.pc q).wake chan).holdsLock = true ↔ _
  rw [Pc.holdsLock_wake]
  exact inv q

theorem step (inv : LockInv s) (stepped : Step s a next) : LockInv next := by
  cases stepped with
  | write idle | read idle | close idle => exact inv.keep (by rw [idle]; rfl)
  | enter free enters =>
    apply inv.take free
    generalize s.pc _ = before at enters
    cases enters <;> rfl
  | test tests =>
    apply inv.keep
    generalize s.pc _ = before at tests
    cases tests <;> rfl
  | store at_ | fetch at_ | closeEnd at_ => exact inv.keep (by rw [at_]; rfl)
  | @wakeup p chan pc free wakes =>
    apply (inv.woken chan).keep
    show pc.holdsLock = ((s.pc p).wake chan).holdsLock
    rw [Pc.holdsLock_wake]
    generalize s.pc p = before at wakes
    cases wakes <;> rfl
  | lockPtable free sleeps =>
    apply inv.keep
    have after := Pc.holdsLock_of_sleeps (Pc.sleeps_setSleep .releaseLk sleeps)
    have before := Pc.holdsLock_of_sleeps sleeps
    rw [after.mpr (.inr rfl), before.mpr (.inl rfl)]
  | unlock sleeps =>
    apply inv.drop ((Pc.holdsLock_of_sleeps sleeps).mpr (.inr rfl))
    apply Bool.eq_false_iff.mpr
    intro holds
    have after := (Pc.holdsLock_of_sleeps (Pc.sleeps_setSleep .setState sleeps)).mp holds
    simp at after
  | fallAsleep sleeps =>
    apply inv.keep
    rw [Bool.eq_iff_iff, Pc.holdsLock_of_sleeps (Pc.sleeps_setSleep .asleep sleeps),
      Pc.holdsLock_of_sleeps sleeps]
    simp
  | leave leaves =>
    apply inv.drop _ rfl
    generalize s.pc _ = before at leaves
    cases leaves <;> rfl
  | kill free hit =>
    apply inv.keep
    rcases hit with ⟨chan, sleeps, rfl⟩ | rfl
    · rw [Bool.eq_iff_iff, Pc.holdsLock_of_sleeps (Pc.sleeps_setSleep .acquireLk sleeps),
        Pc.holdsLock_of_sleeps sleeps]
      simp
    · rfl

theorem start (data : Fin pipesize → UInt8) (killed : Fin n → Bool) :
    LockInv (Pipe.start data killed) := by
  intro p
  constructor
  · intro holds
    cases holds
  · intro holds
    cases holds

/-- Only one process is at a point where it holds the lock. -/
theorem unique (inv : LockInv s) {q : Fin n} (held : (s.pc p).holdsLock = true)
    (alsoHeld : (s.pc q).holdsLock = true) : q = p :=
  Option.some.inj (((inv q).mp alsoHeld).symm.trans ((inv p).mp held))

end LockInv

end Xv6.Pipe
