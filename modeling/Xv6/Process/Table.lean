import Xv6.Lib.CircularScan
import Xv6.Lib.Update

/-!
The process table of `proc.c` and the code that runs over it under
`ptable.lock`.

Owns: `struct proc` as far as the scheduler, `fork`, `exit`, `wait`, `kill`,
`sleep`, `wakeup` and the quantum calls read or write it; and, as functions on
the table, the loops those calls run with the lock held.

Does not own: which process runs where, or in which order the critical sections
happen. Those belong to `Xv6.Process.Kernel`.

Left out of `struct proc`: `pgdir` and `tf`, whose contents no function here
reads. `nextpid` is an unbounded integer, since overflow of a C `int` has no
defined meaning; the counters of `struct pstats` are natural numbers.
-/

namespace Xv6.Process

open Function (update update_self update_of_ne)

def nproc : Nat := 64

def nofile : Nat := 16

def nsem : Nat := 10

def defaultQuantum : Int := 10

instance : NeZero nproc := ⟨by decide⟩

instance : NeZero nsem := ⟨by decide⟩

/-- An index into `ptable.proc`, standing for a `struct proc *`. -/
abbrev Slot := Fin nproc

inductive ProcState where
  | unused
  | embryo
  | sleeping
  | runnable
  | running
  | zombie
deriving DecidableEq, Repr

/-- The kernel addresses processes sleep on: a `struct proc` (`wait` sleeps on
its own), `&semtable[id]`, `&ticks`, or any other kernel object. -/
inductive Chan where
  | proc (slot : Slot)
  | sem (id : Fin nsem)
  | ticks
  | object (address : Nat)
deriving DecidableEq, Repr

/-- Where `p->context` resumes: in `forkret` for a new process, else after the
`sched` call of `yield` or of `sleep`. -/
inductive Context where
  | forkret
  | yield
  | sleep
deriving DecidableEq, Repr

structure PStats where
  cpuTicks : Nat
  sleepTicks : Nat
  runnableTicks : Nat
  ctxSwitches : Nat
  preemptions : Nat
deriving DecidableEq, Repr

def PStats.zero : PStats := ⟨0, 0, 0, 0, 0⟩

/-- `struct proc`. A null pointer is `none`; open files and inodes are named by
their table index, kernel stacks by their address. -/
structure Proc where
  sz : Nat
  kstack : Option Nat
  state : ProcState
  pid : Int
  parent : Option Slot
  context : Context
  chan : Option Chan
  killed : Bool
  ofile : Fin nofile → Option Nat
  cwd : Option Nat
  name : String
  timeslice : Int
  ticksUsed : Int
  stats : PStats

def Proc.zero : Proc where
  sz := 0
  kstack := none
  state := .unused
  pid := 0
  parent := none
  context := .forkret
  chan := none
  killed := false
  ofile := fun _ => none
  cwd := none
  name := ""
  timeslice := 0
  ticksUsed := 0
  stats := PStats.zero

abbrev Table := Slot → Proc

/-! ## Searching the table -/

/-- `for(p = ptable.proc; p < &ptable.proc[NPROC]; p++)` up to the first slot
the loop stops at. -/
def findSlot (accept : Slot → Bool) : Option Slot :=
  (List.finRange nproc).find? accept

variable {accept : Slot → Bool} {slot : Slot} {table : Table} {before after : Proc}

theorem findSlot_accepts (found : findSlot accept = some slot) : accept slot = true :=
  List.find?_some found

theorem findSlot_none (found : findSlot accept = none) (slot : Slot) : accept slot = false := by
  have rejected := List.find?_eq_none.mp found slot (List.mem_finRange slot)
  simpa using rejected

/-! ## Critical sections -/

/-- `wakeup1(chan)`; the caller holds `ptable.lock`. A null `chan` is `none`. -/
def wakeup1 (table : Table) (chan : Option Chan) : Table := fun slot =>
  if (table slot).state = .sleeping ∧ (table slot).chan = chan then
    { table slot with state := .runnable, ticksUsed := 0 }
  else
    table slot

/-- What `kill` stores in the slot it finds. -/
def killHit (p : Proc) : Proc :=
  if p.state = .sleeping then
    { p with killed := true, state := .runnable, ticksUsed := 0 }
  else
    { p with killed := true }

/-- `kill(pid)`. The loop compares `p->pid` alone, whatever the slot's state. -/
def kill (table : Table) (pid : Int) : Table × Int :=
  match findSlot fun slot => decide ((table slot).pid = pid) with
  | none => (table, -1)
  | some slot => (update table slot (killHit (table slot)), 0)

def setquantumPid (table : Table) (pid quantum : Int) : Table × Int :=
  if quantum < 1 ∨ quantum > 100 then
    (table, -1)
  else
    match findSlot fun slot =>
        decide ((table slot).pid = pid ∧ (table slot).state ≠ .unused) with
    | none => (table, -1)
    | some slot =>
      (update table slot
        { table slot with timeslice := quantum, ticksUsed := 0 }, 0)

def updateSleepStats (table : Table) : Table := fun slot =>
  let p := table slot
  if p.state = .sleeping then
    { p with stats := { p.stats with sleepTicks := p.stats.sleepTicks + 1 } }
  else if p.state = .runnable then
    { p with stats := { p.stats with runnableTicks := p.stats.runnableTicks + 1 } }
  else
    p

/-- What `allocproc` stores in the slot it found before it releases the lock.
`killed` is not among the fields it sets. -/
def embryoOf (p : Proc) (nextpid : Int) : Proc :=
  { p with
    state := .embryo
    pid := nextpid
    timeslice := defaultQuantum
    ticksUsed := 0
    stats := PStats.zero }

/-- The first critical section of `allocproc`: the slot taken and the new table. -/
def allocproc (table : Table) (nextpid : Int) : Option (Slot × Table) :=
  (findSlot fun slot => decide ((table slot).state = .unused)).map fun slot =>
    (slot, update table slot (embryoOf (table slot) nextpid))

/-- `np->state = UNUSED; np->pid = 0`, the failure path of `allocproc` and of
`fork`. -/
def abandoned (p : Proc) : Proc :=
  { p with state := .unused, pid := 0 }

/-- The last critical section of `fork`. -/
def madeRunnable (p : Proc) : Proc :=
  { p with
    timeslice := defaultQuantum
    ticksUsed := 0
    stats := PStats.zero
    state := .runnable }

/-- One turn of `exit`'s loop that passes children to `init`. -/
def reparentOne (curproc initproc : Slot) (table : Table) (slot : Slot) : Table :=
  if (table slot).parent = some curproc then
    let passed := update table slot { table slot with parent := some initproc }
    if (passed slot).state = .zombie then wakeup1 passed (some (.proc initproc)) else passed
  else
    table

/-- The last critical section of `exit`, up to `sched`. -/
def exitTable (table : Table) (curproc initproc : Slot) : Table :=
  let woken := wakeup1 table ((table curproc).parent.map Chan.proc)
  let passed := (List.finRange nproc).foldl (reparentOne curproc initproc) woken
  update passed curproc { passed curproc with state := .zombie }

/-- How one pass of `wait` over the table ends: with a zombie child to free,
with `return -1`, or with `sleep(curproc, &ptable.lock)`. -/
inductive WaitScan where
  | reap (child : Slot)
  | fail
  | sleep
deriving DecidableEq, Repr

def waitScan (table : Table) (curproc : Slot) : WaitScan :=
  match findSlot fun slot =>
      decide ((table slot).parent = some curproc ∧ (table slot).state = .zombie) with
  | some child => .reap child
  | none =>
    let havekids := (findSlot fun slot => decide ((table slot).parent = some curproc)).isSome
    if havekids = false ∨ (table curproc).killed = true then .fail else .sleep

/-- The value `wait` returns after this pass, if it returns. -/
def waitReturn (table : Table) (curproc : Slot) : Option Int :=
  match waitScan table curproc with
  | .reap child => some (table child).pid
  | .fail => some (-1)
  | .sleep => none

/-- `p->stats.cpu_ticks++; p->ticks_used++`. -/
def charged (p : Proc) : Proc :=
  { p with
    stats := { p.stats with cpuTicks := p.stats.cpuTicks + 1 }
    ticksUsed := p.ticksUsed + 1 }

/-- The stores before `yield` when the quantum is used up. -/
def preempted (p : Proc) : Proc :=
  { p with
    ticksUsed := 0
    stats := { p.stats with preemptions := p.stats.preemptions + 1 } }

/-- What `wait` leaves in the slot of a child it reaped. -/
def reaped (p : Proc) : Proc :=
  { p with
    kstack := none
    pid := 0
    parent := none
    name := ""
    killed := false
    timeslice := defaultQuantum
    ticksUsed := 0
    stats := PStats.zero
    state := .unused }

/-- The scheduler's circular search for a `RUNNABLE` slot. -/
def schedulerSearch (table : Table) (rrNext : Nat) : Option Slot :=
  CircularScan.scan (fun slot => decide ((table slot).state = .runnable)) rrNext

/-! ## What each section changes -/

theorem kill_cases (table : Table) (pid : Int) :
    (∀ slot, (table slot).pid ≠ pid) ∧ kill table pid = (table, -1) ∨
      ∃ slot, (table slot).pid = pid ∧
        kill table pid = (update table slot (killHit (table slot)), 0) := by
  unfold kill
  cases searched : findSlot fun slot => decide ((table slot).pid = pid) with
  | none => exact Or.inl ⟨fun slot => by simpa using findSlot_none searched slot, rfl⟩
  | some slot => exact Or.inr ⟨slot, by simpa using findSlot_accepts searched, rfl⟩

theorem setquantumPid_cases (table : Table) (pid quantum : Int) :
    setquantumPid table pid quantum = (table, -1) ∨
      ∃ slot, (1 ≤ quantum ∧ quantum ≤ 100) ∧ (table slot).pid = pid ∧
        (table slot).state ≠ .unused ∧
        setquantumPid table pid quantum =
          (update table slot
            { table slot with timeslice := quantum, ticksUsed := 0 }, 0) := by
  unfold setquantumPid
  by_cases refused : quantum < 1 ∨ quantum > 100
  · rw [if_pos refused]
    exact Or.inl rfl
  · rw [if_neg refused]
    cases searched : findSlot fun slot =>
        decide ((table slot).pid = pid ∧ (table slot).state ≠ .unused) with
    | none => exact Or.inl rfl
    | some slot =>
      have found : (table slot).pid = pid ∧ (table slot).state ≠ .unused := by
        simpa using findSlot_accepts searched
      exact Or.inr ⟨slot, by omega, found.1, found.2, rfl⟩

/-- A store to one slot relates every slot to what it was. -/
theorem update_related {R : Proc → Proc → Prop} (refl : ∀ p, R p p) {found : Slot} {q : Proc}
    (changed : R (table found) q) (slot : Slot) :
    R (table slot) (update table found q slot) :=
  Update.cases slot changed fun _ => refl _

/-- `after` is `before`, or `before` woken from sleep. -/
def Woken (before after : Proc) : Prop :=
  after = before ∨
    before.state = .sleeping ∧ after = { before with state := .runnable, ticksUsed := 0 }

/-- Two versions of a slot that differ at most by a wakeup in what the table
invariants speak about; only a slot not yet started must keep its parent. -/
structure Similar (before after : Proc) : Prop where
  pid : after.pid = before.pid
  parent : before.state = .unused ∨ before.state = .embryo → after.parent = before.parent
  kstack : after.kstack = before.kstack
  ofile : after.ofile = before.ofile
  state : after.state = before.state ∨ before.state = .sleeping ∧ after.state = .runnable

theorem Similar.refl (p : Proc) : Similar p p :=
  ⟨rfl, fun _ => rfl, rfl, rfl, Or.inl rfl⟩

theorem Woken.similar (woken : Woken before after) : Similar before after := by
  rcases woken with same | ⟨asleep, same⟩
  · rw [same]
    exact Similar.refl before
  · rw [same]
    exact ⟨rfl, fun _ => rfl, rfl, rfl, Or.inr ⟨asleep, rfl⟩⟩

theorem Woken.trans {first second third : Proc} (early : Woken first second)
    (late : Woken second third) : Woken first third := by
  rcases early with same | ⟨asleep, same⟩
  · exact same ▸ late
  · rcases late with kept | ⟨stillAsleep, -⟩
    · exact Or.inr ⟨asleep, kept.trans same⟩
    · rw [same] at stillAsleep
      exact absurd stillAsleep (by simp)

theorem Woken.eq_of_not_sleeping (woken : Woken before after) (awake : before.state ≠ .sleeping) :
    after = before := by
  rcases woken with same | ⟨asleep, -⟩
  · exact same
  · exact absurd asleep awake

/-- A wakeup makes nobody fall asleep. -/
theorem Woken.not_sleeping (woken : Woken before after) (awake : before.state ≠ .sleeping) :
    after.state ≠ .sleeping := by
  rw [woken.eq_of_not_sleeping awake]
  exact awake

theorem Woken.chan (woken : Woken before after) : after.chan = before.chan := by
  rcases woken with same | ⟨-, same⟩ <;> rw [same]

theorem wakeup1_woken (table : Table) (chan : Option Chan) (slot : Slot) :
    Woken (table slot) (wakeup1 table chan slot) := by
  unfold wakeup1
  by_cases wakes : (table slot).state = .sleeping ∧ (table slot).chan = chan
  · rw [if_pos wakes]
    exact Or.inr ⟨wakes.1, rfl⟩
  · rw [if_neg wakes]
    exact Or.inl rfl

/-- After `wakeup1(chan)` nobody sleeps on `chan`. -/
theorem wakeup1_awake {chan : Option Chan} (waits : (table slot).chan = chan) :
    (wakeup1 table chan slot).state ≠ .sleeping := by
  unfold wakeup1
  by_cases asleep : (table slot).state = .sleeping
  · rw [if_pos ⟨asleep, waits⟩]
    simp
  · rw [if_neg (fun wakes => asleep wakes.1)]
    exact asleep

/-! ### The last critical section of `exit` -/

/-- The parent a slot has after `curproc`'s children went to `init`. -/
def passTo (curproc initproc : Slot) (parent : Option Slot) : Option Slot :=
  if parent = some curproc then some initproc else parent

theorem Woken.withParent (woken : Woken before after) (change : Option Slot → Option Slot) :
    Woken { before with parent := change before.parent }
      { after with parent := change after.parent } := by
  rcases woken with same | ⟨asleep, same⟩
  · rw [same]
    exact Or.inl rfl
  · rw [same]
    exact Or.inr ⟨asleep, rfl⟩

private theorem reparentOne_self (curproc initproc : Slot) (table : Table) (slot : Slot) :
    Woken { table slot with parent := passTo curproc initproc (table slot).parent }
      (reparentOne curproc initproc table slot slot) := by
  unfold reparentOne passTo
  by_cases child : (table slot).parent = some curproc
  · rw [if_pos child, if_pos child]
    simp only
    split
    · simpa using wakeup1_woken (update table slot
        { table slot with parent := some initproc }) (some (.proc initproc)) slot
    · rw [update_self]
      exact Or.inl rfl
  · rw [if_neg child, if_neg child]
    exact Or.inl rfl

private theorem reparentOne_other (curproc initproc : Slot) (table : Table) {slot other : Slot}
    (different : other ≠ slot) :
    Woken (table other) (reparentOne curproc initproc table slot other) := by
  unfold reparentOne
  by_cases child : (table slot).parent = some curproc
  · rw [if_pos child]
    simp only
    split
    · have woken := wakeup1_woken (update table slot
        { table slot with parent := some initproc }) (some (.proc initproc)) other
      rwa [update_of_ne different] at woken
    · rw [update_of_ne different]
      exact Or.inl rfl
  · rw [if_neg child]
    exact Or.inl rfl

/-- The loop body wakes `init` when it passes it a zombie. -/
private theorem reparentOne_awake {curproc initproc : Slot} {table : Table} {slot other : Slot}
    (child : (table slot).parent = some curproc) (dead : (table slot).state = .zombie)
    (waits : (table other).chan = some (.proc initproc)) :
    (reparentOne curproc initproc table slot other).state ≠ .sleeping := by
  unfold reparentOne
  rw [if_pos child]
  simp only [update_self, dead, if_true]
  apply wakeup1_awake
  revert waits
  exact Update.cases other id fun _ => id

private theorem reparent_slot (curproc initproc : Slot) (slots : List Slot) (table : Table)
    (distinct : slots.Nodup) (slot : Slot) :
    (slot ∉ slots →
      Woken (table slot) (slots.foldl (reparentOne curproc initproc) table slot)) ∧
    (slot ∈ slots →
      Woken { table slot with parent := passTo curproc initproc (table slot).parent }
        (slots.foldl (reparentOne curproc initproc) table slot)) := by
  induction slots generalizing table with
  | nil => exact ⟨fun _ => Or.inl rfl, fun member => by simp at member⟩
  | cons head rest ih =>
    have fresh := (List.nodup_cons.mp distinct).1
    have later := ih (reparentOne curproc initproc table head)
      (List.nodup_cons.mp distinct).2
    simp only [List.foldl_cons]
    refine ⟨fun absent => ?_, fun member => ?_⟩
    · have different : slot ≠ head := fun equal => absent (by simp [equal])
      exact (reparentOne_other curproc initproc table different).trans
        (later.1 fun inRest => absent (by simp [inRest]))
    · by_cases isHead : slot = head
      · subst slot
        exact (reparentOne_self curproc initproc table head).trans (later.1 fresh)
      · have inRest : slot ∈ rest := by simpa [isHead] using member
        have kept := reparentOne_other curproc initproc table isHead
        exact (kept.withParent (passTo curproc initproc)).trans (later.2 inRest)

private theorem reparent_awake {curproc initproc : Slot} {slots : List Slot} {table : Table}
    (distinct : slots.Nodup) {slot other : Slot} (member : slot ∈ slots)
    (child : (table slot).parent = some curproc) (dead : (table slot).state = .zombie)
    (waits : (table other).chan = some (.proc initproc)) :
    (slots.foldl (reparentOne curproc initproc) table other).state ≠ .sleeping := by
  induction slots generalizing table with
  | nil => simp at member
  | cons head rest ih =>
    have distinctRest := (List.nodup_cons.mp distinct).2
    simp only [List.foldl_cons]
    by_cases isHead : slot = head
    · subst slot
      have awake := reparentOne_awake child dead waits
      have later := reparent_slot curproc initproc rest
        (reparentOne curproc initproc table head) distinctRest other
      by_cases inRest : other ∈ rest
      · exact (later.2 inRest).not_sleeping awake
      · exact (later.1 inRest).not_sleeping awake
    · have kept := reparentOne_other curproc initproc table isHead
      have same : reparentOne curproc initproc table head slot = table slot :=
        kept.eq_of_not_sleeping (by rw [dead]; simp)
      refine ih distinctRest (by simpa [isHead] using member)
        (by rw [same]; exact child) (by rw [same]; exact dead) ?_
      by_cases otherHead : other = head
      · subst other
        rw [(reparentOne_self curproc initproc table head).chan]
        exact waits
      · rw [(reparentOne_other curproc initproc table otherHead).chan]
        exact waits

section Exit

variable {table : Table} {curproc initproc : Slot}

/-- A slot other than the exiting one is woken at most, and its parent is `init`
if it was a child of the exiting process. -/
theorem exitTable_other (different : slot ≠ curproc) :
    Woken { table slot with parent := passTo curproc initproc (table slot).parent }
      (exitTable table curproc initproc slot) := by
  have woken := wakeup1_woken table ((table curproc).parent.map Chan.proc) slot
  have passed := (reparent_slot curproc initproc (List.finRange nproc)
    (wakeup1 table ((table curproc).parent.map Chan.proc)) (List.nodup_finRange nproc) slot).2
    (List.mem_finRange slot)
  unfold exitTable
  simp only
  rw [update_of_ne different]
  exact (woken.withParent (passTo curproc initproc)).trans passed

theorem exitTable_self (awake : (table curproc).state ≠ .sleeping) :
    exitTable table curproc initproc curproc =
      { table curproc with
        parent := passTo curproc initproc (table curproc).parent
        state := .zombie } := by
  have woken := wakeup1_woken table ((table curproc).parent.map Chan.proc) curproc
  have passed := (reparent_slot curproc initproc (List.finRange nproc)
    (wakeup1 table ((table curproc).parent.map Chan.proc)) (List.nodup_finRange nproc) curproc).2
    (List.mem_finRange curproc)
  have same := ((woken.withParent (passTo curproc initproc)).trans passed).eq_of_not_sleeping awake
  unfold exitTable
  simp only
  rw [update_self, same]

/-- `exit` leaves its parent awake, unless the parent sleeps elsewhere. -/
theorem exitTable_parent_awake (different : slot ≠ curproc)
    (waits : (table slot).chan = (table curproc).parent.map Chan.proc) :
    (exitTable table curproc initproc slot).state ≠ .sleeping := by
  have awake := wakeup1_awake waits
  have passed := (reparent_slot curproc initproc (List.finRange nproc)
    (wakeup1 table ((table curproc).parent.map Chan.proc)) (List.nodup_finRange nproc) slot).2
    (List.mem_finRange slot)
  unfold exitTable
  simp only
  rw [update_of_ne different]
  exact passed.not_sleeping awake

/-- `exit` leaves `init` awake when it passes it a zombie. -/
theorem exitTable_init_awake {child : Slot} (different : slot ≠ curproc)
    (waits : (table slot).chan = some (.proc initproc))
    (isChild : (table child).parent = some curproc) (dead : (table child).state = .zombie) :
    (exitTable table curproc initproc slot).state ≠ .sleeping := by
  have same := (wakeup1_woken table ((table curproc).parent.map Chan.proc) child).eq_of_not_sleeping
    (by rw [dead]; simp)
  unfold exitTable
  simp only
  rw [update_of_ne different]
  apply reparent_awake (List.nodup_finRange nproc) (List.mem_finRange child)
  · rw [same]
    exact isChild
  · rw [same]
    exact dead
  · rw [(wakeup1_woken table ((table curproc).parent.map Chan.proc) slot).chan]
    exact waits

end Exit

end Xv6.Process
