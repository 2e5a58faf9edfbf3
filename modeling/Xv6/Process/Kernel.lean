import Xv6.Lib.TransitionSystem
import Xv6.Process.Table

/-!
The kernel as a machine over the process table: any number of CPUs running
processes through `scheduler`, `yield`, `sleep` and `exit`.

Owns: the kernel state (table, `rr_next`, `nextpid`, every CPU's `c->proc`, and
the point each process has reached inside `fork`, `exit` or `wait`), and one
action for each stretch of code between two points where `ptable.lock` is free.

Each critical section is one step, so every state of the machine is a state in
which the lock is free. Where the lock is handed over by `swtch` (from `sched` to
`scheduler`, and from `scheduler` back to the resumed process) the step goes on
on the other side until that side releases it. Where a call releases the lock
midway (`fork`, `exit`), its unlocked parts are steps of their own.

Does not own: user memory, files and inodes. `kalloc` and `copyuvm` may succeed
or fail at any call. A panic has no next state.
-/

namespace Xv6.Process

open Function (update update_apply update_eq_self)

/-- How far a `fork` has come since `allocproc` took the slot of the child. -/
inductive ForkStage where
  | alloced
  | noStack
  | stacked
  | copyFailed
  | copied
  | parented
  | filed
deriving DecidableEq, Repr

/-- The point a process has reached: outside the calls below, asleep inside
`wait`, in `fork` with the child's slot, or in `exit`, where `exiting fd` is about
to close descriptor `fd` and `leaving` is about to take `ptable.lock`. `trap`
records that `exit` was called by an interrupt handler, which runs with
interrupts off. -/
inductive Pc where
  | normal
  | waiting
  | forking (np : Slot) (stage : ForkStage)
  | exiting (fd : Nat) (trap : Bool)
  | leaving (trap : Bool)
deriving DecidableEq, Repr

structure Kernel (ncpu : Nat) where
  proc : Table
  rrNext : Nat
  nextpid : Int
  initproc : Slot
  cpu : Fin ncpu → Option Slot
  pc : Slot → Pc

namespace Kernel

variable {ncpu : Nat}

@[simps -fullyApplied]
def setProc (k : Kernel ncpu) (slot : Slot) (p : Proc) : Kernel ncpu :=
  { k with proc := update k.proc slot p }

@[simps -fullyApplied]
def setPc (k : Kernel ncpu) (slot : Slot) (pc : Pc) : Kernel ncpu :=
  { k with pc := update k.pc slot pc }

@[simps -fullyApplied]
def setCpu (k : Kernel ncpu) (c : Fin ncpu) (slot : Option Slot) : Kernel ncpu :=
  { k with cpu := update k.cpu c slot }

theorem setPc_eq_self {k : Kernel ncpu} {slot : Slot} {pc : Pc} (same : k.pc slot = pc) :
    k.setPc slot pc = k := by
  subst same
  unfold setPc
  rw [update_eq_self]

/-! ## Giving the CPU away and taking it -/

/-- `yield()` on CPU `c`, through `sched` to the scheduler's `release`. -/
def yield (k : Kernel ncpu) (c : Fin ncpu) (p : Slot) : Kernel ncpu :=
  (k.setProc p { k.proc p with state := .runnable, context := .yield }).setCpu c none

/-- `sleep(chan, lk)` on CPU `c`, from the store to `p->chan` through `sched` to
the scheduler's `release`. -/
def sleep (k : Kernel ncpu) (c : Fin ncpu) (p : Slot) (chan : Chan) : Kernel ncpu :=
  (k.setProc p
    { k.proc p with
      chan := some chan
      state := .sleeping
      ticksUsed := 0
      context := .sleep }).setCpu c none

/-- `wait`'s loop body, entered with `ptable.lock` held: from the call itself or
from the return of `sleep`. -/
def waitLoop (k : Kernel ncpu) (c : Fin ncpu) (p : Slot) : Kernel ncpu :=
  match waitScan k.proc p with
  | .reap child => (k.setProc child (reaped (k.proc child))).setPc p .normal
  | .fail => k.setPc p .normal
  | .sleep => (k.setPc p .waiting).sleep c p (.proc p)

/-- `scheduler`'s commitment to slot `p`, up to `swtch`. -/
def dispatch (k : Kernel ncpu) (c : Fin ncpu) (p : Slot) : Kernel ncpu :=
  let q := k.proc p
  { k.setProc p
      { q with
        ticksUsed := 0
        state := .running
        stats := { q.stats with ctxSwitches := q.stats.ctxSwitches + 1 } } with
    rrNext := (p.val + 1) % nproc }.setCpu c (some p)

/-- `p->chan = 0`, after `sched` returns in `sleep`. -/
def clearChan (k : Kernel ncpu) (p : Slot) : Kernel ncpu :=
  k.setProc p { k.proc p with chan := none }

/-- The process resumes where `p->context` points. After a `sleep` called by `wait`
it still holds `ptable.lock` and goes round the loop. -/
def resume (k : Kernel ncpu) (c : Fin ncpu) (p : Slot) : Kernel ncpu :=
  match (k.proc p).context with
  | .forkret => k
  | .yield => k
  | .sleep =>
    if k.pc p = .waiting then (k.clearChan p).waitLoop c p else k.clearChan p

/-- One turn of `scheduler`'s loop on a CPU without a process. -/
def scheduler (k : Kernel ncpu) (c : Fin ncpu) : Kernel ncpu :=
  match schedulerSearch k.proc k.rrNext with
  | none => k
  | some p => (k.dispatch c p).resume c p

/-- A timer interrupt on CPU `c` while `p` runs there; `user` tells whether it
interrupted user code. A killed process in user space exits before any
accounting, and `init` must not exit. -/
def tick (k : Kernel ncpu) (c : Fin ncpu) (p : Slot) (user : Bool) : Option (Kernel ncpu) :=
  let q := k.proc p
  if user = true ∧ q.killed = true then
    if p = k.initproc then none else some (k.setPc p (.exiting 0 true))
  else
    let q' := charged q
    if q'.ticksUsed ≥ q'.timeslice then
      some ((k.setProc p (preempted q')).yield c p)
    else
      some (k.setProc p q')

/-- The three outcomes of a tick. -/
inductive Ticked (k : Kernel ncpu) (c : Fin ncpu) (p : Slot) (user : Bool) : Kernel ncpu → Prop where
  | leave (inUser : user = true) (killed : (k.proc p).killed = true) (notInit : p ≠ k.initproc) :
      Ticked k c p user (k.setPc p (.exiting 0 true))
  | expire (stays : ¬(user = true ∧ (k.proc p).killed = true))
      (usedUp : (k.proc p).timeslice ≤ (k.proc p).ticksUsed + 1) :
      Ticked k c p user ((k.setProc p (preempted (charged (k.proc p)))).yield c p)
  | charge (stays : ¬(user = true ∧ (k.proc p).killed = true))
      (left : (k.proc p).ticksUsed + 1 < (k.proc p).timeslice) :
      Ticked k c p user (k.setProc p (charged (k.proc p)))

theorem Ticked.of_tick {k k' : Kernel ncpu} {c : Fin ncpu} {p : Slot} {user : Bool}
    (ticked : k.tick c p user = some k') : Ticked k c p user k' := by
  unfold tick at ticked
  simp only at ticked
  split at ticked
  · rename_i killed
    simp only [Option.ite_none_left_eq_some, Option.some.injEq] at ticked
    rw [← ticked.2]
    exact .leave killed.1 killed.2 ticked.1
  · rename_i stays
    split at ticked
    · rename_i usedUp
      rw [← Option.some.inj ticked]
      exact .expire stays usedUp
    · rename_i left
      rw [← Option.some.inj ticked]
      exact .charge stays (not_le.mp left)

/-! ## `fork` -/

/-- `allocproc` as `fork` calls it: the slot's critical section, or `return -1`
when no slot is `UNUSED`. -/
def forkAlloc (k : Kernel ncpu) (p : Slot) : Kernel ncpu :=
  match allocproc k.proc k.nextpid with
  | none => k
  | some (np, table) =>
    { k with proc := table, nextpid := k.nextpid + 1 }.setPc p (.forking np .alloced)

theorem forkAlloc_cases (k : Kernel ncpu) (p : Slot) :
    k.forkAlloc p = k ∨
      ∃ np, (k.proc np).state = .unused ∧
        k.forkAlloc p =
          ({ k with nextpid := k.nextpid + 1 }.setProc np
            (embryoOf (k.proc np) k.nextpid)).setPc p (.forking np .alloced) := by
  unfold forkAlloc allocproc
  cases searched : findSlot fun slot => decide ((k.proc slot).state = .unused) with
  | none => exact Or.inl rfl
  | some np =>
    have free : (k.proc np).state = .unused := by simpa using findSlot_accepts searched
    exact Or.inr ⟨np, free, rfl⟩

/-- `p->kstack = kalloc()`, and on success the new context. -/
def forkKalloc (k : Kernel ncpu) (p np : Slot) (page : Option Nat) : Kernel ncpu :=
  match page with
  | none => (k.setProc np { k.proc np with kstack := none }).setPc p (.forking np .noStack)
  | some address =>
    (k.setProc np { k.proc np with kstack := some address, context := .forkret }).setPc p
      (.forking np .stacked)

/-- `copyuvm`; on failure `kfree(np->kstack); np->kstack = 0`. -/
def forkCopyuvm (k : Kernel ncpu) (p np : Slot) (copied : Bool) : Kernel ncpu :=
  if copied then
    k.setPc p (.forking np .copied)
  else
    (k.setProc np { k.proc np with kstack := none }).setPc p (.forking np .copyFailed)

/-- The critical section of either failure path. -/
def forkUndo (k : Kernel ncpu) (p np : Slot) : Kernel ncpu :=
  (k.setProc np (abandoned (k.proc np))).setPc p .normal

def forkParent (k : Kernel ncpu) (p np : Slot) : Kernel ncpu :=
  (k.setProc np { k.proc np with sz := (k.proc p).sz, parent := some p }).setPc p
    (.forking np .parented)

/-- The copies of `ofile`, `cwd` and `name`. A null entry is not copied. -/
def forkFiles (k : Kernel ncpu) (p np : Slot) : Kernel ncpu :=
  (k.setProc np
    { k.proc np with
      ofile := fun fd =>
        match (k.proc p).ofile fd with
        | none => (k.proc np).ofile fd
        | some file => some file
      cwd := (k.proc p).cwd
      name := (k.proc p).name }).setPc p (.forking np .filed)

def forkFinish (k : Kernel ncpu) (p np : Slot) : Kernel ncpu :=
  (k.setProc np (madeRunnable (k.proc np))).setPc p .normal

/-! ## Open files -/

/-- `fdalloc(f)` for the running process: the lowest free descriptor, if any. -/
def fdalloc (k : Kernel ncpu) (p : Slot) (file : Nat) : Kernel ncpu :=
  match (List.finRange nofile).find? fun fd => decide ((k.proc p).ofile fd = none) with
  | none => k
  | some fd =>
    k.setProc p { k.proc p with ofile := update (k.proc p).ofile fd (some file) }

/-- `curproc->ofile[fd] = 0`. -/
def fdclose (k : Kernel ncpu) (p : Slot) (fd : Fin nofile) : Kernel ncpu :=
  k.setProc p { k.proc p with ofile := update (k.proc p).ofile fd none }

/-! ## `exit` -/

def exitClose (k : Kernel ncpu) (p : Slot) (fd : Fin nofile) (trap : Bool) : Kernel ncpu :=
  (k.fdclose p fd).setPc p (.exiting (fd.val + 1) trap)

def exitCwd (k : Kernel ncpu) (p : Slot) (trap : Bool) : Kernel ncpu :=
  (k.setProc p { k.proc p with cwd := none }).setPc p (.leaving trap)

/-- The last critical section of `exit`, through `sched` to the scheduler's
`release`. The process never resumes. -/
def exitFinish (k : Kernel ncpu) (c : Fin ncpu) (p : Slot) : Kernel ncpu :=
  ({ k with proc := exitTable k.proc p k.initproc }.setPc p .normal).setCpu c none

end Kernel

/-! ## The machine -/

/-- What can happen next, and on which CPU. `wakeup` and `clock` (the global
part of the timer interrupt) also run in interrupt handlers, on any CPU. -/
inductive Action (ncpu : Nat) where
  | scheduler (c : Fin ncpu)
  | tick (c : Fin ncpu) (user : Bool)
  | sleep (c : Fin ncpu) (chan : Chan)
  | wakeup (chan : Chan)
  | clock
  | kill (c : Fin ncpu) (pid : Int)
  | fault (c : Fin ncpu)
  | setquantumPid (c : Fin ncpu) (pid quantum : Int)
  | fdalloc (c : Fin ncpu) (file : Nat)
  | fdclose (c : Fin ncpu) (fd : Fin nofile)
  | chdir (c : Fin ncpu) (inode : Nat)
  | forkAlloc (c : Fin ncpu)
  | forkKalloc (c : Fin ncpu) (page : Option Nat)
  | forkCopyuvm (c : Fin ncpu) (copied : Bool)
  | forkUndo (c : Fin ncpu)
  | forkParent (c : Fin ncpu)
  | forkFiles (c : Fin ncpu)
  | forkFinish (c : Fin ncpu)
  | exitCall (c : Fin ncpu)
  | exitClose (c : Fin ncpu)
  | exitCwd (c : Fin ncpu)
  | exitFinish (c : Fin ncpu)
  | wait (c : Fin ncpu)
deriving DecidableEq, Repr

/-- Code that may call `sleep` on a channel of its own: anything outside `wait`
and `fork`, and `exit` before its critical section. -/
def Pc.mayBlock : Pc → Bool
  | .normal => true
  | .exiting _ _ => true
  | _ => false

/-- Code the timer can interrupt. -/
def Pc.interruptible : Pc → Bool
  | .exiting _ trap => !trap
  | .leaving trap => !trap
  | _ => true

/-- Only `wait` sleeps on a `struct proc`. -/
def Chan.isProc : Chan → Bool
  | .proc _ => true
  | _ => false

variable {ncpu : Nat}

/-- The step of the process running on CPU `c`, by the point it has reached. -/
def Kernel.step (k : Kernel ncpu) : Action ncpu → Option (Kernel ncpu)
  | .scheduler c => if k.cpu c = none then some (k.scheduler c) else none
  | .tick c user =>
    (k.cpu c).bind fun p =>
      -- User code runs only outside every call.
      if (k.pc p).interruptible = true ∧ (user = true → k.pc p = .normal) then
        k.tick c p user
      else none
  | .sleep c chan =>
    (k.cpu c).bind fun p =>
      if (k.pc p).mayBlock = true ∧ chan.isProc = false then some (k.sleep c p chan) else none
  | .wakeup chan => some { k with proc := wakeup1 k.proc (some chan) }
  | .clock => some { k with proc := updateSleepStats (wakeup1 k.proc (some .ticks)) }
  | .kill c pid =>
    (k.cpu c).bind fun p =>
      if k.pc p = .normal then some { k with proc := (kill k.proc pid).1 } else none
  | .fault c =>
    (k.cpu c).bind fun p =>
      if k.pc p = .normal then some (k.setProc p { k.proc p with killed := true }) else none
  | .setquantumPid c pid quantum =>
    (k.cpu c).bind fun p =>
      if k.pc p = .normal then
        some { k with proc := (setquantumPid k.proc pid quantum).1 }
      else none
  | .fdalloc c file =>
    (k.cpu c).bind fun p => if k.pc p = .normal then some (k.fdalloc p file) else none
  | .fdclose c fd =>
    (k.cpu c).bind fun p => if k.pc p = .normal then some (k.fdclose p fd) else none
  | .chdir c inode =>
    (k.cpu c).bind fun p =>
      if k.pc p = .normal then some (k.setProc p { k.proc p with cwd := some inode }) else none
  | .forkAlloc c =>
    (k.cpu c).bind fun p => if k.pc p = .normal then some (k.forkAlloc p) else none
  | .forkKalloc c page =>
    (k.cpu c).bind fun p =>
      match k.pc p with
      | .forking np .alloced => some (k.forkKalloc p np page)
      | _ => none
  | .forkCopyuvm c copied =>
    (k.cpu c).bind fun p =>
      match k.pc p with
      | .forking np .stacked => some (k.forkCopyuvm p np copied)
      | _ => none
  | .forkUndo c =>
    (k.cpu c).bind fun p =>
      match k.pc p with
      | .forking np .noStack => some (k.forkUndo p np)
      | .forking np .copyFailed => some (k.forkUndo p np)
      | _ => none
  | .forkParent c =>
    (k.cpu c).bind fun p =>
      match k.pc p with
      | .forking np .copied => some (k.forkParent p np)
      | _ => none
  | .forkFiles c =>
    (k.cpu c).bind fun p =>
      match k.pc p with
      | .forking np .parented => some (k.forkFiles p np)
      | _ => none
  | .forkFinish c =>
    (k.cpu c).bind fun p =>
      match k.pc p with
      | .forking np .filed => some (k.forkFinish p np)
      | _ => none
  | .exitCall c =>
    (k.cpu c).bind fun p =>
      if k.pc p = .normal ∧ p ≠ k.initproc then some (k.setPc p (.exiting 0 false)) else none
  | .exitClose c =>
    (k.cpu c).bind fun p =>
      match k.pc p with
      | .exiting fd trap =>
        if open_ : fd < nofile then some (k.exitClose p ⟨fd, open_⟩ trap) else none
      | _ => none
  | .exitCwd c =>
    (k.cpu c).bind fun p =>
      match k.pc p with
      | .exiting fd trap => if fd = nofile then some (k.exitCwd p trap) else none
      | _ => none
  | .exitFinish c =>
    (k.cpu c).bind fun p =>
      match k.pc p with
      | .leaving _ => some (k.exitFinish c p)
      | _ => none
  | .wait c =>
    (k.cpu c).bind fun p => if k.pc p = .normal then some (k.waitLoop c p) else none

/-- What a step can be: the action, its guards, and the state it leads to. -/
inductive Step : Kernel ncpu → Action ncpu → Kernel ncpu → Prop where
  | scheduler {k c} (idle : k.cpu c = none) : Step k (.scheduler c) (k.scheduler c)
  | tick {k k' c p user} (on : k.cpu c = some p) (intr : (k.pc p).interruptible = true)
      (inUser : user = true → k.pc p = .normal) (ticked : k.tick c p user = some k') :
      Step k (.tick c user) k'
  | sleep {k c p chan} (on : k.cpu c = some p) (blocks : (k.pc p).mayBlock = true)
      (other : chan.isProc = false) : Step k (.sleep c chan) (k.sleep c p chan)
  | wakeup {k chan} : Step k (.wakeup chan) { k with proc := wakeup1 k.proc (some chan) }
  | clock {k} :
      Step k .clock { k with proc := updateSleepStats (wakeup1 k.proc (some .ticks)) }
  | kill {k c p pid} (on : k.cpu c = some p) (at_ : k.pc p = .normal) :
      Step k (.kill c pid) { k with proc := (kill k.proc pid).1 }
  | fault {k c p} (on : k.cpu c = some p) (at_ : k.pc p = .normal) :
      Step k (.fault c) (k.setProc p { k.proc p with killed := true })
  | setquantumPid {k c p pid quantum} (on : k.cpu c = some p) (at_ : k.pc p = .normal) :
      Step k (.setquantumPid c pid quantum)
        { k with proc := (setquantumPid k.proc pid quantum).1 }
  | fdalloc {k c p file} (on : k.cpu c = some p) (at_ : k.pc p = .normal) :
      Step k (.fdalloc c file) (k.fdalloc p file)
  | fdclose {k c p fd} (on : k.cpu c = some p) (at_ : k.pc p = .normal) :
      Step k (.fdclose c fd) (k.fdclose p fd)
  | chdir {k c p inode} (on : k.cpu c = some p) (at_ : k.pc p = .normal) :
      Step k (.chdir c inode) (k.setProc p { k.proc p with cwd := some inode })
  | forkAlloc {k c p} (on : k.cpu c = some p) (at_ : k.pc p = .normal) :
      Step k (.forkAlloc c) (k.forkAlloc p)
  | forkKalloc {k c p np page} (on : k.cpu c = some p) (at_ : k.pc p = .forking np .alloced) :
      Step k (.forkKalloc c page) (k.forkKalloc p np page)
  | forkCopyuvm {k c p np copied} (on : k.cpu c = some p)
      (at_ : k.pc p = .forking np .stacked) :
      Step k (.forkCopyuvm c copied) (k.forkCopyuvm p np copied)
  | forkUndo {k c p np stage} (on : k.cpu c = some p) (at_ : k.pc p = .forking np stage)
      (failed : stage = .noStack ∨ stage = .copyFailed) :
      Step k (.forkUndo c) (k.forkUndo p np)
  | forkParent {k c p np} (on : k.cpu c = some p) (at_ : k.pc p = .forking np .copied) :
      Step k (.forkParent c) (k.forkParent p np)
  | forkFiles {k c p np} (on : k.cpu c = some p) (at_ : k.pc p = .forking np .parented) :
      Step k (.forkFiles c) (k.forkFiles p np)
  | forkFinish {k c p np} (on : k.cpu c = some p) (at_ : k.pc p = .forking np .filed) :
      Step k (.forkFinish c) (k.forkFinish p np)
  | exitCall {k c p} (on : k.cpu c = some p) (at_ : k.pc p = .normal) (notInit : p ≠ k.initproc) :
      Step k (.exitCall c) (k.setPc p (.exiting 0 false))
  | exitClose {k c p fd trap} (on : k.cpu c = some p) (at_ : k.pc p = .exiting fd trap)
      (isOpen : fd < nofile) : Step k (.exitClose c) (k.exitClose p ⟨fd, isOpen⟩ trap)
  | exitCwd {k c p trap} (on : k.cpu c = some p) (at_ : k.pc p = .exiting nofile trap) :
      Step k (.exitCwd c) (k.exitCwd p trap)
  | exitFinish {k c p trap} (on : k.cpu c = some p) (at_ : k.pc p = .leaving trap) :
      Step k (.exitFinish c) (k.exitFinish c p)
  | wait {k c p} (on : k.cpu c = some p) (at_ : k.pc p = .normal) :
      Step k (.wait c) (k.waitLoop c p)

/-- The step function does nothing the relation does not list. -/
theorem Step.of_step {k k' : Kernel ncpu} {action : Action ncpu}
    (taken : k.step action = some k') : Step k action k' := by
  cases action with
  | scheduler c =>
    simp only [Kernel.step, Option.ite_none_right_eq_some, Option.some.injEq] at taken
    rw [← taken.2]
    exact .scheduler taken.1
  | wakeup chan =>
    simp only [Kernel.step, Option.some.injEq] at taken
    rw [← taken]
    exact .wakeup
  | clock =>
    simp only [Kernel.step, Option.some.injEq] at taken
    rw [← taken]
    exact .clock
  | tick c user =>
    simp only [Kernel.step, Option.bind_eq_some_iff, Option.ite_none_right_eq_some] at taken
    obtain ⟨p, on, guards, ticked⟩ := taken
    exact .tick on guards.1 guards.2 ticked
  | sleep c chan =>
    simp only [Kernel.step, Option.bind_eq_some_iff, Option.ite_none_right_eq_some,
      Option.some.injEq] at taken
    obtain ⟨p, on, guards, rfl⟩ := taken
    exact .sleep on guards.1 guards.2
  | exitCall c =>
    simp only [Kernel.step, Option.bind_eq_some_iff, Option.ite_none_right_eq_some,
      Option.some.injEq] at taken
    obtain ⟨p, on, guards, rfl⟩ := taken
    exact .exitCall on guards.1 guards.2
  | kill c pid | fault c | setquantumPid c pid quantum | fdalloc c file | fdclose c fd
  | chdir c inode | forkAlloc c | wait c =>
    simp only [Kernel.step, Option.bind_eq_some_iff, Option.ite_none_right_eq_some,
      Option.some.injEq] at taken
    obtain ⟨p, on, at_, rfl⟩ := taken
    constructor <;> assumption
  | forkKalloc c page | forkCopyuvm c copied | forkParent c | forkFiles c | forkFinish c
  | exitFinish c =>
    simp only [Kernel.step, Option.bind_eq_some_iff] at taken
    obtain ⟨p, on, matched⟩ := taken
    split at matched
    · rename_i at_
      rw [Option.some.injEq] at matched
      subst matched
      constructor <;> assumption
    · exact absurd matched (by simp)
  | forkUndo c =>
    simp only [Kernel.step, Option.bind_eq_some_iff] at taken
    obtain ⟨p, on, matched⟩ := taken
    split at matched
    · rename_i at_
      rw [Option.some.injEq] at matched
      exact matched ▸ .forkUndo on at_ (Or.inl rfl)
    · rename_i at_
      rw [Option.some.injEq] at matched
      exact matched ▸ .forkUndo on at_ (Or.inr rfl)
    · exact absurd matched (by simp)
  | exitClose c =>
    simp only [Kernel.step, Option.bind_eq_some_iff] at taken
    obtain ⟨p, on, matched⟩ := taken
    split at matched
    · rename_i at_
      split at matched
      · rw [Option.some.injEq] at matched
        exact matched ▸ .exitClose on at_ _
      · exact absurd matched (by simp)
    · exact absurd matched (by simp)
  | exitCwd c =>
    simp only [Kernel.step, Option.bind_eq_some_iff] at taken
    obtain ⟨p, on, matched⟩ := taken
    split at matched
    · rename_i at_
      simp only [Option.ite_none_right_eq_some, Option.some.injEq] at matched
      obtain ⟨done, rfl⟩ := matched
      exact .exitCwd on (done ▸ at_)
    · exact absurd matched (by simp)

/-- The process `userinit` makes. -/
def initcode (stack root : Nat) : Proc :=
  { embryoOf Proc.zero 1 with
    sz := 4096
    kstack := some stack
    context := .forkret
    cwd := some root
    name := "initcode"
    state := .runnable }

/-- The state `userinit` leaves, with every CPU in its scheduler: slot 0 holds
`initcode`, pid 1, and the rest of the table is zero. -/
def Kernel.boot (ncpu : Nat) (stack root : Nat) : Kernel ncpu where
  proc := update (fun _ => Proc.zero) 0 (initcode stack root)
  rrNext := 0
  nextpid := 2
  initproc := 0
  cpu := fun _ => none
  pc := fun _ => .normal

theorem Kernel.boot_proc (ncpu stack root : Nat) (slot : Slot) :
    (Kernel.boot ncpu stack root).proc slot =
      if slot = 0 then initcode stack root else Proc.zero := by
  simp only [Kernel.boot, update_apply]

end Xv6.Process
