import Xv6.Lib.TransitionSystem
import Xv6.Log.Disk

/-!
The log: operations, group commit and the machine they run on.

Owns: `begin_op`, `end_op`, `log_write` and `commit`, taken by any number of processes,
each step one critical section or one disk write, and the inversion of a step.

Does not own: what the steps preserve (`Xv6.Log.Invariant`), crashes and recovery
(`Xv6.Log.Recovery`).

`log_write` tests the size of the transaction before it takes `log.lock`, so it is two
steps here.
-/

namespace Xv6.Log

open Xv6.Bio

/-- Where `commit` is. A loop's step with `tail` past the last block leaves the loop. -/
inductive CommitPc where
  | writeLog (tail : Nat)
  | writeHead
  | install (tail : Nat)
  | clear
  /-- After `commit`: `end_op` still has to reset `log.committing`. -/
  | finish
deriving DecidableEq, Repr

inductive Pc where
  | outside
  /-- Asleep on `&log` in `begin_op`. -/
  | asleep
  /-- Woken in `begin_op`, before the loop's tests. -/
  | beginning
  | inOp
  /-- In `log_write`, past its tests and before `acquire`. -/
  | logging (b : Nat)
  | committing (at_ : CommitPc)
deriving DecidableEq, Repr

/-- The process has begun an operation and not ended it. -/
def Pc.open : Pc → Bool
  | .inOp => true
  | .logging _ => true
  | _ => false

/-- The process may call `bread` and `brelse`. -/
def Pc.mayRead : Pc → Bool
  | .outside => true
  | .inOp => true
  | _ => false

structure State where
  store : Store
  outstanding : Nat
  committing : Bool
  /-- `log.lh.block[0..n)` -/
  lh : List Nat
  pc : Pid → Pc
  halted : Option Panic

/-- The search and the store of `log_write`: `block[i] = b->blockno`, at the place of the
block if it is there. -/
def recordBlock (lh : List Nat) (b : Nat) : List Nat :=
  let i := lh.findIdx (· == b)
  if i = lh.length then lh ++ [b] else lh.set i b

namespace State

def setPc (s : State) (p : Pid) (pc : Pc) : State :=
  { s with pc := Function.update s.pc p pc }

def halt (s : State) (reason : Panic) : State :=
  { s with halted := some reason }

/-- `wakeup(&log)` -/
def wakeup (s : State) : State :=
  { s with pc := fun p => if s.pc p = .asleep then .beginning else s.pc p }

theorem wakeup_open (s : State) (p : Pid) : (s.wakeup.pc p).open = (s.pc p).open := by
  by_cases asleep : s.pc p = .asleep <;> simp [wakeup, asleep, Pc.open]

theorem wakeup_logging (s : State) (p : Pid) (b : Nat) :
    s.wakeup.pc p = .logging b ↔ s.pc p = .logging b := by
  by_cases asleep : s.pc p = .asleep <;> simp [wakeup, asleep]

theorem wakeup_committing (s : State) (p : Pid) (at_ : CommitPc) :
    s.wakeup.pc p = .committing at_ ↔ s.pc p = .committing at_ := by
  by_cases asleep : s.pc p = .asleep <;> simp [wakeup, asleep]

def heldSlot (s : State) (p : Pid) (b : Nat) : Option (Fin nbuf) :=
  (List.finRange nbuf).find? fun i =>
    decide ((s.store.cache i).blockno = some b ∧ (s.store.cache i).holder = some p)

/-- The loop of `begin_op`, from its head: to sleep or out. -/
def beginOp (s : State) (p : Pid) : State :=
  if s.committing = true then s.setPc p .asleep
  else if logsize < s.lh.length + (s.outstanding + 1) * maxopblocks then s.setPc p .asleep
  else { s with outstanding := s.outstanding + 1 }.setPc p .inOp

def endOp (s : State) (p : Pid) : State :=
  let less := { s with outstanding := s.outstanding - 1 }
  if s.committing = true then less.halt .logCommitting
  else if less.outstanding = 0 then
    { less with committing := true }.setPc p
      (.committing (if s.lh = [] then .finish else .writeLog 0))
  else less.wakeup.setPc p .outside

/-- The tests of `log_write`. -/
def logWrite (s : State) (size : Nat) (p : Pid) (b : Nat) : State :=
  if logsize ≤ s.lh.length ∨ size - 1 ≤ s.lh.length then s.halt .tooBigTransaction
  else if s.outstanding < 1 then s.halt .outsideTrans
  else s.setPc p (.logging b)

/-- The critical section of `log_write`. -/
def logAppend (s : State) (p : Pid) (b : Nat) (i : Fin nbuf) : State :=
  { s with store := s.store.markDirty i, lh := recordBlock s.lh b }.setPc p .inOp

/-- A call into the buffer cache, and what follows it. -/
def after {α : Type} (s : State) (outcome : Outcome α) (next : α → State) : Option State :=
  match outcome with
  | .waits => none
  | .panics reason => some (s.halt reason)
  | .done value => some (next value)

/-- One step of `commit`, with at most one disk write. -/
def commit (s : State) (layout : Layout) (p : Pid) (at_ : CommitPc) (victim victim' : Fin nbuf) :
    Option State :=
  match at_ with
  | .writeLog tail =>
    match s.lh[tail]? with
    | some b =>
      s.after (writeLogBody s.store p (layout.start + tail + 1) b victim victim') fun store =>
        { s with store := store }.setPc p (.committing (.writeLog (tail + 1)))
    | none => some (s.setPc p (.committing .writeHead))
  | .writeHead =>
    s.after (writeHead s.store p layout.start s.lh victim) fun store =>
      { s with store := store }.setPc p (.committing (.install 0))
  | .install tail =>
    match s.lh[tail]? with
    | some b =>
      s.after (installBody s.store p (layout.start + tail + 1) b victim victim') fun store =>
        { s with store := store }.setPc p (.committing (.install (tail + 1)))
    | none => some (s.setPc p (.committing .clear))
  | .clear =>
    s.after (writeHead s.store p layout.start [] victim) fun store =>
      { s with store := store, lh := [] }.setPc p (.committing .finish)
  | .finish => some ({ s with committing := false }.wakeup.setPc p .outside)

end State

/-! ## The machine -/

inductive Action where
  | beginOp (p : Pid)
  | endOp (p : Pid)
  | bread (p : Pid) (b : Nat) (victim : Fin nbuf)
  | modify (p : Pid) (b : Nat) (change : Block → Block)
  | logWrite (p : Pid) (b : Nat)
  | logAppend (p : Pid)
  | brelse (p : Pid) (b : Nat)
  | commit (p : Pid) (victim victim' : Fin nbuf)

def Action.callsCache : Action → Bool
  | .bread _ _ _ => true
  | .commit _ _ _ => true
  | _ => false

namespace State

/-- The process has passed every block it has changed to `log_write`. -/
def settled (s : State) (p : Pid) : Bool :=
  decide (∀ i, (s.store.cache i).holder = some p → (s.store.cache i).altered = false)

/-- A step of a system that has not panicked. Processes change home blocks only, inside
an operation, and let go of a changed buffer only after `log_write`. -/
def act (layout : Layout) (s : State) : Action → Option State
  | .beginOp p =>
    if s.pc p = .outside ∨ s.pc p = .beginning then some (s.beginOp p) else none
  | .endOp p =>
    if s.pc p = .inOp ∧ s.settled p = true then some (s.endOp p) else none
  | .bread p b victim =>
    if (s.pc p).mayRead = true ∧ layout.Home b then
      s.after (s.store.bread p b victim) fun got => { s with store := got.2 }
    else none
  | .modify p b change =>
    (s.heldSlot p b).bind fun i =>
      if s.pc p = .inOp ∧ layout.Home b then some { s with store := s.store.modify i change }
      else none
  | .logWrite p b =>
    (s.heldSlot p b).bind fun _ =>
      if s.pc p = .inOp ∧ layout.Home b then some (s.logWrite layout.size p b) else none
  | .logAppend p =>
    match s.pc p with
    | .logging b => (s.heldSlot p b).map fun i => s.logAppend p b i
    | _ => none
  | .brelse p b =>
    (s.heldSlot p b).bind fun i =>
      if (s.pc p).mayRead = true ∧ (s.store.cache i).altered = false then
        some { s with store := s.store.brelse i }
      else none
  | .commit p victim victim' =>
    match s.pc p with
    | .committing at_ => s.commit layout p at_ victim victim'
    | _ => none

def step (layout : Layout) (s : State) (action : Action) : Option State :=
  if s.halted = none then s.act layout action else none

def boot (disk : Nat → Block) : State where
  store := Store.boot disk
  outstanding := 0
  committing := false
  lh := []
  pc := fun _ => .outside
  halted := none

end State

/-- What a step can be. -/
inductive Step (layout : Layout) : State → Action → State → Prop where
  | sleepBegin {s p} (at_ : s.pc p = .outside ∨ s.pc p = .beginning) :
      Step layout s (.beginOp p) (s.setPc p .asleep)
  | enter {s p} (at_ : s.pc p = .outside ∨ s.pc p = .beginning) (idle : s.committing = false)
      (room : s.lh.length + (s.outstanding + 1) * maxopblocks ≤ logsize) :
      Step layout s (.beginOp p) ({ s with outstanding := s.outstanding + 1 }.setPc p .inOp)
  | badEnd {s p} (at_ : s.pc p = .inOp) (busy : s.committing = true) :
      Step layout s (.endOp p) ({ s with outstanding := s.outstanding - 1 }.halt .logCommitting)
  | lastEnd {s p} (at_ : s.pc p = .inOp) (settled : ¬s.store.AlteredBy p)
      (idle : s.committing = false) (last : s.outstanding - 1 = 0) :
      Step layout s (.endOp p)
        ({ s with outstanding := s.outstanding - 1, committing := true }.setPc p
          (.committing (if s.lh = [] then .finish else .writeLog 0)))
  | otherEnd {s p} (at_ : s.pc p = .inOp) (settled : ¬s.store.AlteredBy p)
      (idle : s.committing = false) (more : s.outstanding - 1 ≠ 0) :
      Step layout s (.endOp p)
        ({ s with outstanding := s.outstanding - 1 }.wakeup.setPc p .outside)
  | bread {s p b victim i store} (reads : (s.pc p).mayRead = true) (home : layout.Home b)
      (got : s.store.bread p b victim = .done (i, store)) :
      Step layout s (.bread p b victim) { s with store := store }
  | modify {s p b change i} (at_ : s.pc p = .inOp) (home : layout.Home b)
      (blockno : (s.store.cache i).blockno = some b) (holder : (s.store.cache i).holder = some p) :
      Step layout s (.modify p b change) { s with store := s.store.modify i change }
  | tooBig {s p b} (at_ : s.pc p = .inOp)
      (full : logsize ≤ s.lh.length ∨ layout.size - 1 ≤ s.lh.length) :
      Step layout s (.logWrite p b) (s.halt .tooBigTransaction)
  | outsideTrans {s p b} (at_ : s.pc p = .inOp) (none : s.outstanding < 1)
      (room : s.lh.length < logsize ∧ s.lh.length < layout.size - 1) :
      Step layout s (.logWrite p b) (s.halt .outsideTrans)
  | logWrite {s p b} (at_ : s.pc p = .inOp) (home : layout.Home b) (holds : s.store.Holds p b)
      (room : s.lh.length < logsize ∧ s.lh.length < layout.size - 1) :
      Step layout s (.logWrite p b) (s.setPc p (.logging b))
  | logAppend {s p b i} (at_ : s.pc p = .logging b)
      (blockno : (s.store.cache i).blockno = some b) (holder : (s.store.cache i).holder = some p) :
      Step layout s (.logAppend p) (s.logAppend p b i)
  | brelse {s p b i} (reads : (s.pc p).mayRead = true)
      (blockno : (s.store.cache i).blockno = some b) (holder : (s.store.cache i).holder = some p)
      (unaltered : (s.store.cache i).altered = false) :
      Step layout s (.brelse p b) { s with store := s.store.brelse i }
  | writeLog {s p tail b victim victim' store} (at_ : s.pc p = .committing (.writeLog tail))
      (entry : s.lh[tail]? = some b)
      (done : writeLogBody s.store p (layout.start + tail + 1) b victim victim' = .done store) :
      Step layout s (.commit p victim victim')
        ({ s with store := store }.setPc p (.committing (.writeLog (tail + 1))))
  | logWritten {s p tail victim victim'} (at_ : s.pc p = .committing (.writeLog tail))
      (past : s.lh.length ≤ tail) :
      Step layout s (.commit p victim victim') (s.setPc p (.committing .writeHead))
  | writeHead {s p victim victim' store} (at_ : s.pc p = .committing .writeHead)
      (done : writeHead s.store p layout.start s.lh victim = .done store) :
      Step layout s (.commit p victim victim')
        ({ s with store := store }.setPc p (.committing (.install 0)))
  | install {s p tail b victim victim' store} (at_ : s.pc p = .committing (.install tail))
      (entry : s.lh[tail]? = some b)
      (done : installBody s.store p (layout.start + tail + 1) b victim victim' = .done store) :
      Step layout s (.commit p victim victim')
        ({ s with store := store }.setPc p (.committing (.install (tail + 1))))
  | installed {s p tail victim victim'} (at_ : s.pc p = .committing (.install tail))
      (past : s.lh.length ≤ tail) :
      Step layout s (.commit p victim victim') (s.setPc p (.committing .clear))
  | clear {s p victim victim' store} (at_ : s.pc p = .committing .clear)
      (done : writeHead s.store p layout.start [] victim = .done store) :
      Step layout s (.commit p victim victim')
        ({ s with store := store, lh := [] }.setPc p (.committing .finish))
  | finish {s p victim victim'} (at_ : s.pc p = .committing .finish) :
      Step layout s (.commit p victim victim')
        ({ s with committing := false }.wakeup.setPc p .outside)
  /-- The buffer cache panics. -/
  | halt {s action reason} (calls : action.callsCache = true) (cache : reason.ofCache = true) :
      Step layout s action (s.halt reason)

section Inversion

variable {layout : Layout} {s s' : State}

theorem heldSlot_eq_some {p : Pid} {b : Nat} {i : Fin nbuf} (found : s.heldSlot p b = some i) :
    (s.store.cache i).blockno = some b ∧ (s.store.cache i).holder = some p := by
  simpa using List.find?_some found

theorem after_eq_some {α : Type} {outcome : Outcome α} {next : α → State}
    (cache : outcome.CachePanics) (taken : s.after outcome next = some s') :
    (∃ value, outcome = .done value ∧ s' = next value) ∨
      ∃ reason : Panic, reason.ofCache = true ∧ s' = s.halt reason := by
  cases outcome with
  | waits => simp [State.after] at taken
  | panics reason => exact Or.inr ⟨reason, cache reason rfl, (Option.some.inj taken).symm⟩
  | done value => exact Or.inl ⟨value, rfl, (Option.some.inj taken).symm⟩

theorem settled_iff {p : Pid} : s.settled p = true ↔ ¬s.store.AlteredBy p := by
  simp only [State.settled, decide_eq_true_eq, Store.AlteredBy, not_exists, not_and,
    Bool.not_eq_true]

theorem Step.of_commit {p : Pid} {at_ : CommitPc} {victim victim' : Fin nbuf}
    (pc : s.pc p = .committing at_) (taken : s.commit layout p at_ victim victim' = some s') :
    Step layout s (.commit p victim victim') s' := by
  cases at_ with
  | writeLog tail =>
    simp only [State.commit] at taken
    split at taken
    · rename_i b entry
      rcases after_eq_some (writeLogBody_cachePanics _ _ _ _ _ _) taken with ⟨store, done, rfl⟩ | ⟨reason, cache, rfl⟩
      · exact .writeLog pc entry done
      · exact .halt rfl cache
    · rename_i past
      rw [← Option.some.inj taken]
      exact .logWritten pc (List.getElem?_eq_none_iff.mp past)
  | writeHead =>
    rcases after_eq_some (writeHead_cachePanics _ _ _ _ _) taken with ⟨store, done, rfl⟩ | ⟨reason, cache, rfl⟩
    · exact .writeHead pc done
    · exact .halt rfl cache
  | install tail =>
    simp only [State.commit] at taken
    split at taken
    · rename_i b entry
      rcases after_eq_some (installBody_cachePanics _ _ _ _ _ _) taken with ⟨store, done, rfl⟩ | ⟨reason, cache, rfl⟩
      · exact .install pc entry done
      · exact .halt rfl cache
    · rename_i past
      rw [← Option.some.inj taken]
      exact .installed pc (List.getElem?_eq_none_iff.mp past)
  | clear =>
    rcases after_eq_some (writeHead_cachePanics _ _ _ _ _) taken with ⟨store, done, rfl⟩ | ⟨reason, cache, rfl⟩
    · exact .clear pc done
    · exact .halt rfl cache
  | finish =>
    rw [← Option.some.inj taken]
    exact .finish pc

theorem Step.of_beginOp {p : Pid} (at_ : s.pc p = .outside ∨ s.pc p = .beginning) :
    Step layout s (.beginOp p) (s.beginOp p) := by
  unfold State.beginOp
  split
  · exact .sleepBegin at_
  · rename_i idle
    split
    · exact .sleepBegin at_
    · exact .enter at_ (by simpa using idle) (by omega)

theorem Step.of_endOp {p : Pid} (at_ : s.pc p = .inOp) (settled : s.settled p = true) :
    Step layout s (.endOp p) (s.endOp p) := by
  rw [settled_iff] at settled
  unfold State.endOp
  dsimp only
  split
  · exact .badEnd at_ (by assumption)
  · rename_i idle
    have idle : s.committing = false := by simpa using idle
    split
    · exact .lastEnd at_ settled idle (by assumption)
    · exact .otherEnd at_ settled idle (by assumption)

theorem Step.of_logWrite {p : Pid} {b : Nat} (at_ : s.pc p = .inOp) (home : layout.Home b)
    (holds : s.store.Holds p b) : Step layout s (.logWrite p b) (s.logWrite layout.size p b) := by
  unfold State.logWrite
  split
  · exact .tooBig at_ (by assumption)
  · split
    · exact .outsideTrans at_ (by assumption) (by omega)
    · exact .logWrite at_ home holds (by omega)

theorem Step.of_act {action : Action} (taken : s.act layout action = some s') :
    Step layout s action s' := by
  cases action with
  | beginOp p =>
    simp only [State.act, Option.ite_none_right_eq_some, Option.some.injEq] at taken
    rw [← taken.2]
    exact .of_beginOp taken.1
  | endOp p =>
    simp only [State.act, Option.ite_none_right_eq_some, Option.some.injEq] at taken
    rw [← taken.2]
    exact .of_endOp taken.1.1 taken.1.2
  | bread p b victim =>
    simp only [State.act, Option.ite_none_right_eq_some] at taken
    rcases after_eq_some (bread_cachePanics _ _ _ _) taken.2 with ⟨⟨i, store⟩, got, rfl⟩ | ⟨reason, cache, rfl⟩
    · exact .bread taken.1.1 taken.1.2 got
    · exact .halt rfl cache
  | modify p b change =>
    simp only [State.act, Option.bind_eq_some_iff, Option.ite_none_right_eq_some,
      Option.some.injEq] at taken
    obtain ⟨i, found, ⟨at_, home⟩, rfl⟩ := taken
    obtain ⟨blockno, holder⟩ := heldSlot_eq_some found
    exact .modify at_ home blockno holder
  | logWrite p b =>
    simp only [State.act, Option.bind_eq_some_iff, Option.ite_none_right_eq_some,
      Option.some.injEq] at taken
    obtain ⟨i, found, ⟨at_, home⟩, rfl⟩ := taken
    obtain ⟨blockno, holder⟩ := heldSlot_eq_some found
    exact .of_logWrite at_ home ⟨i, blockno, by simpa using holder⟩
  | logAppend p =>
    simp only [State.act] at taken
    split at taken
    · rename_i b at_
      obtain ⟨i, found, rfl⟩ := Option.map_eq_some_iff.mp taken
      obtain ⟨blockno, holder⟩ := heldSlot_eq_some found
      exact .logAppend at_ blockno holder
    · simp at taken
  | brelse p b =>
    simp only [State.act, Option.bind_eq_some_iff, Option.ite_none_right_eq_some,
      Option.some.injEq] at taken
    obtain ⟨i, found, ⟨reads, unaltered⟩, rfl⟩ := taken
    obtain ⟨blockno, holder⟩ := heldSlot_eq_some found
    exact .brelse reads blockno holder unaltered
  | commit p victim victim' =>
    simp only [State.act] at taken
    split at taken
    · rename_i at_ pc
      exact .of_commit pc taken
    · simp at taken

theorem Step.of_step {action : Action} (taken : s.step layout action = some s') :
    s.halted = none ∧ Step layout s action s' := by
  simp only [State.step, Option.ite_none_right_eq_some] at taken
  exact ⟨taken.1, .of_act taken.2⟩

end Inversion

end Xv6.Log
