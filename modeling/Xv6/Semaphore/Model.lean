import Xv6.Process.Frame

/-!
The semaphores over the kernel.

Owns: `semtable`, the three calls `sem_init`, `sem_wait` and `sem_signal`, and the
machine in which processes make these calls between all other steps of the kernel.

Does not own: what the calls guarantee (`Xv6.Semaphore.Contract`), or what a killed waiter
does (`Xv6.Semaphore.Killed`).

Both calls on an id first test it without `semlock`, so the test and the critical
section are two steps. The critical section of `sem_wait` is one pass of its loop,
entered from the call or from the return of `sleep`.
-/

namespace Xv6.Semaphore

open Xv6.Process

variable {ncpu : Nat}

/-- An entry of `semtable`; `value` is an `int`. -/
structure Sem where
  value : BitVec 32
  allocated : Bool
deriving DecidableEq, Repr

abbrev SemTable := Fin nsem → Sem

/-- Where a process is in a semaphore call: past the test of `sem_wait(id)` or of
`sem_signal(id)`, or in neither. -/
inductive SemPc where
  | outside
  | waiting (id : Fin nsem)
  | signaling (id : Fin nsem)
deriving DecidableEq, Repr

structure SemKernel (ncpu : Nat) where
  kernel : Kernel ncpu
  semtable : SemTable
  semPc : Slot → SemPc

/-- The state after boot: no semaphore is allocated. -/
def SemKernel.boot (ncpu stack root : Nat) : SemKernel ncpu where
  kernel := Kernel.boot ncpu stack root
  semtable := fun _ => ⟨0, false⟩
  semPc := fun _ => .outside

/-! ## The calls -/

/-- The entry `sem_init` takes, which is also its result; `none` for -1. -/
def freeEntry (semtable : SemTable) : Option (Fin nsem) :=
  (List.finRange nsem).find? fun id => !(semtable id).allocated

/-- The test `id < 0 || id >= NSEM || !semtable[id].allocated`; `none` for -1. -/
def checkedId (semtable : SemTable) (id : Int) : Option (Fin nsem) :=
  if inRange : 0 ≤ id ∧ id < nsem then
    let index : Fin nsem := ⟨id.toNat, by omega⟩
    if (semtable index).allocated then some index else none
  else none

namespace SemKernel

def setSem (s : SemKernel ncpu) (id : Fin nsem) (sem : Sem) : SemKernel ncpu :=
  { s with semtable := Function.update s.semtable id sem }

def setSemPc (s : SemKernel ncpu) (p : Slot) (semPc : SemPc) : SemKernel ncpu :=
  { s with semPc := Function.update s.semPc p semPc }

def semInit (s : SemKernel ncpu) (value : BitVec 32) : SemKernel ncpu :=
  match freeEntry s.semtable with
  | none => s
  | some id => s.setSem id ⟨value, true⟩

def semWait (s : SemKernel ncpu) (p : Slot) (id : Int) : SemKernel ncpu :=
  match checkedId s.semtable id with
  | none => s
  | some index => s.setSemPc p (.waiting index)

def semSignal (s : SemKernel ncpu) (p : Slot) (id : Int) : SemKernel ncpu :=
  match checkedId s.semtable id with
  | none => s
  | some index => s.setSemPc p (.signaling index)

/-- One pass of the loop in `sem_wait`, under `semlock`: `sleep`, or take a unit and
return. -/
def waitPass (s : SemKernel ncpu) (c : Fin ncpu) (p : Slot) (id : Fin nsem) : SemKernel ncpu :=
  if (s.semtable id).value.toInt ≤ 0 then
    { s with kernel := s.kernel.sleep c p (.sem id) }
  else
    (s.setSem id { s.semtable id with value := (s.semtable id).value - 1 }).setSemPc p .outside

/-- The critical section of `sem_signal`: one unit more, and `wakeup`. -/
def signalPass (s : SemKernel ncpu) (p : Slot) (id : Fin nsem) : SemKernel ncpu :=
  let more := s.setSem id { s.semtable id with value := (s.semtable id).value + 1 }
  { more with
    kernel := { more.kernel with proc := wakeup1 more.kernel.proc (some (.sem id)) } }.setSemPc p
      .outside

end SemKernel

/-! ## The machine -/

inductive SemAction (ncpu : Nat) where
  | kernel (action : Action ncpu)
  | semInit (c : Fin ncpu) (value : BitVec 32)
  | semWait (c : Fin ncpu) (id : Int)
  | waitPass (c : Fin ncpu)
  | semSignal (c : Fin ncpu) (id : Int)
  | signalPass (c : Fin ncpu)
deriving DecidableEq, Repr

/-- Only the semaphore calls sleep and wake on `&semtable[id]`. -/
def usesSemChan : Action ncpu → Bool
  | .sleep _ (.sem _) => true
  | .wakeup (.sem _) => true
  | _ => false

namespace SemKernel

/-- The process on `c` is outside the semaphore calls. -/
def callerOutside (s : SemKernel ncpu) (action : Action ncpu) : Bool :=
  match action.caller with
  | none => true
  | some c =>
    match s.kernel.cpu c with
    | none => true
    | some p => decide (s.semPc p = .outside)

/-- The process on `c`, if it can make a call now. -/
def freeCaller (s : SemKernel ncpu) (c : Fin ncpu) : Option Slot :=
  (s.kernel.cpu c).bind fun p =>
    if s.kernel.pc p = .normal ∧ s.semPc p = .outside then some p else none

def step (s : SemKernel ncpu) : SemAction ncpu → Option (SemKernel ncpu)
  | .kernel action =>
    if s.callerOutside action = true ∧ usesSemChan action = false then
      (s.kernel.step action).map fun kernel => { s with kernel := kernel }
    else none
  | .semInit c value => (s.freeCaller c).map fun _ => s.semInit value
  | .semWait c id => (s.freeCaller c).map fun p => s.semWait p id
  | .semSignal c id => (s.freeCaller c).map fun p => s.semSignal p id
  | .waitPass c =>
    (s.kernel.cpu c).bind fun p =>
      match s.semPc p with
      | .waiting id => some (s.waitPass c p id)
      | _ => none
  | .signalPass c =>
    (s.kernel.cpu c).bind fun p =>
      match s.semPc p with
      | .signaling id => some (s.signalPass p id)
      | _ => none

end SemKernel

/-- What a step can be. -/
inductive SemStep : SemKernel ncpu → SemAction ncpu → SemKernel ncpu → Prop where
  | kernel {s action kernel} (other : ∀ p, s.semPc p ≠ .outside → s.kernel.notBy p action)
      (quiet : usesSemChan action = false) (taken : s.kernel.step action = some kernel) :
      SemStep s (.kernel action) { s with kernel := kernel }
  | semInit {s c p value} (on : s.kernel.cpu c = some p) :
      SemStep s (.semInit c value) (s.semInit value)
  | semWait {s c p id} (on : s.kernel.cpu c = some p) (at_ : s.kernel.pc p = .normal)
      (outside : s.semPc p = .outside) : SemStep s (.semWait c id) (s.semWait p id)
  | semSignal {s c p id} (on : s.kernel.cpu c = some p) (at_ : s.kernel.pc p = .normal)
      (outside : s.semPc p = .outside) : SemStep s (.semSignal c id) (s.semSignal p id)
  | waitPass {s c p id} (on : s.kernel.cpu c = some p) (at_ : s.semPc p = .waiting id) :
      SemStep s (.waitPass c) (s.waitPass c p id)
  | signalPass {s c p id} (on : s.kernel.cpu c = some p) (at_ : s.semPc p = .signaling id) :
      SemStep s (.signalPass c) (s.signalPass p id)

theorem SemKernel.freeCaller_eq_some {s : SemKernel ncpu} {c : Fin ncpu} {p : Slot} :
    s.freeCaller c = some p ↔
      s.kernel.cpu c = some p ∧ s.kernel.pc p = .normal ∧ s.semPc p = .outside := by
  unfold SemKernel.freeCaller
  rw [Option.bind_eq_some_iff]
  constructor
  · intro ⟨q, on, free⟩
    simp only [Option.ite_none_right_eq_some, Option.some.injEq] at free
    obtain ⟨⟨at_, outside⟩, same⟩ := free
    subst same
    exact ⟨on, at_, outside⟩
  · intro ⟨on, at_, outside⟩
    exact ⟨p, on, if_pos ⟨at_, outside⟩⟩

theorem SemStep.of_step {s s' : SemKernel ncpu} {action : SemAction ncpu}
    (taken : s.step action = some s') : SemStep s action s' := by
  cases action with
  | kernel action =>
    simp only [SemKernel.step, Option.ite_none_right_eq_some, Option.map_eq_some_iff] at taken
    obtain ⟨⟨outside, quiet⟩, kernel, stepped, rfl⟩ := taken
    refine .kernel ?_ quiet stepped
    intro p inside c caller on
    simp only [SemKernel.callerOutside, caller, on, decide_eq_true_eq] at outside
    exact inside outside
  | semInit c value =>
    simp only [SemKernel.step, Option.map_eq_some_iff] at taken
    obtain ⟨p, caller, rfl⟩ := taken
    exact .semInit (SemKernel.freeCaller_eq_some.mp caller).1
  | semWait c id =>
    simp only [SemKernel.step, Option.map_eq_some_iff] at taken
    obtain ⟨p, caller, rfl⟩ := taken
    obtain ⟨on, at_, outside⟩ := SemKernel.freeCaller_eq_some.mp caller
    exact .semWait on at_ outside
  | semSignal c id =>
    simp only [SemKernel.step, Option.map_eq_some_iff] at taken
    obtain ⟨p, caller, rfl⟩ := taken
    obtain ⟨on, at_, outside⟩ := SemKernel.freeCaller_eq_some.mp caller
    exact .semSignal on at_ outside
  | waitPass c =>
    simp only [SemKernel.step, Option.bind_eq_some_iff] at taken
    obtain ⟨p, on, passed⟩ := taken
    split at passed
    · rename_i id at_
      rw [← Option.some.inj passed]
      exact .waitPass on at_
    · simp at passed
  | signalPass c =>
    simp only [SemKernel.step, Option.bind_eq_some_iff] at taken
    obtain ⟨p, on, passed⟩ := taken
    split at passed
    · rename_i id at_
      rw [← Option.some.inj passed]
      exact .signalPass on at_
    · simp at passed

end Xv6.Semaphore
