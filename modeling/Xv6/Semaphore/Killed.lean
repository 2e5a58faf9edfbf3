import Xv6.Sched.Progress
import Xv6.Semaphore.Contract

/-!
A killed process inside `sem_wait`.

Owns: what the first pass of a killed waiter does, and the theorem that no killed
waiter leaves `sem_wait` as the callers of `wait`, `piperead`, `consoleread` and
`sys_sleep` do.

Does not own: when a waiter is scheduled (`Xv6.Sched.Progress`).

The loop of `sem_wait` does not look at `killed`. Its re-check either sleeps again or
takes a unit, so there is no third outcome for a killed process.
-/

namespace Xv6.Semaphore

open TransitionSystem
open Xv6.Process

variable {ncpu : Nat}

/-- The process sleeps on `&semtable[id]` inside `sem_wait(id)`. -/
def SemKernel.Blocked (s : SemKernel ncpu) (p : Slot) (id : Fin nsem) : Prop :=
  (s.kernel.proc p).state = .sleeping ∧ (s.kernel.proc p).chan = some (.sem id) ∧
    s.semPc p = .waiting id

/-- The step is not a pass of `p`'s own `sem_wait`. -/
def NoPassBy (p : Slot) (s : SemKernel ncpu) (action : SemAction ncpu) : Prop :=
  ∀ c, action = .waitPass c → s.kernel.cpu c ≠ some p

/-- In every continuation, the first pass that `p` makes once it is scheduled leaves
`sem_wait(id)`, and takes no unit. -/
def LeavesSemWait (s : SemKernel ncpu) (p : Slot) (id : Fin nsem) : Prop :=
  ∀ actions s' s'' c, run SemKernel.step s actions = some s' →
    AllSteps SemKernel.step (NoPassBy p) s actions →
    s'.kernel.cpu c = some p → s'.semPc p = .waiting id →
    s'.step (.waitPass c) = some s'' →
    s''.semPc p = .outside ∧ (s''.semtable id).value = (s'.semtable id).value

def SemReachable (s : SemKernel ncpu) : Prop :=
  ∃ stack root, Reachable SemKernel.step (SemKernel.boot ncpu stack root) s

section Killed

variable {s s' : SemKernel ncpu} {log : SemLog} {c : Fin ncpu} {p : Slot} {id : Fin nsem}

theorem SemReachable.semInv (reached : SemReachable s) : ∃ log, SemInv s log := by
  obtain ⟨stack, root, actions, reaches⟩ := reached
  obtain ⟨log, recorded⟩ := watch_of_run SemLog.empty reaches
  exact ⟨log, SemInv.of_run recorded⟩

/-- A pass sleeps or takes a unit. -/
theorem waitPass_outcome (s : SemKernel ncpu) (c : Fin ncpu) (p : Slot) (id : Fin nsem) :
    (s.waitPass c p id).semPc p = s.semPc p ∨
      ((s.waitPass c p id).semtable id).value = (s.semtable id).value - 1 := by
  unfold SemKernel.waitPass
  split
  · exact Or.inl rfl
  · exact Or.inr (by simp [SemKernel.setSem, SemKernel.setSemPc])

theorem usesSemChan_of_drives {action : Action ncpu} (driven : action.drives c = true) :
    usesSemChan action = false := by
  cases action <;> first | rfl | simp [Action.drives] at driven

theorem SemInv.outside_of_pc (inv : SemInv s log) (inside : s.kernel.pc p ≠ .normal) :
    s.semPc p = .outside := by
  by_contra inCall
  exact inside (inv.inside p inCall).2

theorem SemInv.callerOutside_of_drives (inv : SemInv s log) {action : Action ncpu}
    {kernel : Kernel ncpu} (taken : s.kernel.step action = some kernel)
    (driven : action.drives c = true) : s.callerOutside action = true := by
  unfold SemKernel.callerOutside
  cases Step.of_step taken with
  | scheduler idle => rfl
  | @tick _ _ p user on _ _ _ =>
    have inKernel : user = false := by
      simp only [Action.drives, Bool.and_eq_true] at driven
      simpa using driven.2
    simp [Action.caller, inKernel]
  | exitClose on at_ | exitCwd on at_ | exitFinish on at_ =>
    simp [Action.caller, on, inv.outside_of_pc (p := _) (by rw [at_]; simp)]
  | _ => simp [Action.drives] at driven

/-- Steps that drive one CPU are steps of the semaphore machine too: a process in `exit`
is in no semaphore call. -/
theorem run_of_drives (inv : SemInv s log) {actions : List (Action ncpu)} {kernel : Kernel ncpu}
    (reaches : run Kernel.step s.kernel actions = some kernel)
    (drives : ∀ action ∈ actions, action.drives c = true) :
    run SemKernel.step s (actions.map SemAction.kernel) =
      some { s with kernel := kernel } := by
  induction actions generalizing s with
  | nil =>
    simp only [run_nil, Option.some.injEq] at reaches
    rw [← reaches]
    rfl
  | cons action rest ih =>
    obtain ⟨middle, taken, later⟩ := run_cons.mp reaches
    have driven := drives action (by simp)
    have outside := inv.callerOutside_of_drives taken driven
    have quiet := usesSemChan_of_drives driven
    have stepped : s.step (.kernel action) = some { s with kernel := middle } := by
      simp [SemKernel.step, outside, quiet, taken]
    have inv' : SemInv { s with kernel := middle } _ := inv.step stepped
    exact run_cons.mpr ⟨_, stepped, ih inv' later
      (fun other member => drives other (List.mem_cons_of_mem _ member))⟩

theorem noPassBy_kernel (s : SemKernel ncpu) (actions : List (Action ncpu)) :
    AllSteps SemKernel.step (NoPassBy p) s (actions.map SemAction.kernel) := by
  induction actions generalizing s with
  | nil => trivial
  | cons action rest ih =>
    refine ⟨?_, fun next _ => ih next⟩
    intro c same
    simp at same

/-- `kill` makes the waiter `RUNNABLE`, and leaves it inside the call. -/
theorem killed_ready (inv : SemInv s log) (blocked : s.Blocked p id) {pid : Int}
    (named : (s.kernel.proc p).pid = pid) :
    ((kill s.kernel.proc pid).1 p).state = .runnable := by
  have asleep := blocked.1
  rcases kill_cases s.kernel.proc pid with ⟨absent, _⟩ | ⟨found, holds, hit⟩
  · exact absurd named (absent p)
  · have used : (s.kernel.proc p).state ≠ .unused := by
      rw [asleep]
      simp
    have isTarget : found = p := by
      apply inv.table.pidDistinct found p _ used (holds.trans named.symm)
      intro free
      have zero := (inv.table.clean found free).pid
      have positive := (inv.table.pidRange p used).1
      omega
    rw [hit, isTarget]
    simp [killHit, asleep]

/-- A `kill` that is executed: by a process outside the semaphore calls, on the table alone. -/
theorem killer_of_step {pid : Int} (taken : s.step (.kernel (.kill c pid)) = some s') :
    ∃ q, s.kernel.cpu c = some q ∧ s.kernel.pc q = .normal ∧ s.semPc q = .outside ∧
      s' = { s with kernel := { s.kernel with proc := (kill s.kernel.proc pid).1 } } := by
  cases SemStep.of_step taken with
  | kernel other quiet killing =>
    cases Step.of_step killing with
    | kill on at_ =>
      refine ⟨_, on, at_, ?_, rfl⟩
      by_contra inCall
      exact other _ inCall c rfl on

/-- A process outside the calls can sleep, and its CPU then is idle. -/
theorem sleep_ticks {q : Slot} (on : s.kernel.cpu c = some q) (at_ : s.kernel.pc q = .normal)
    (outside : s.semPc q = .outside) :
    s.step (.kernel (.sleep c .ticks)) =
      some { s with kernel := s.kernel.sleep c q .ticks } := by
  simp [SemKernel.step, SemKernel.callerOutside, Action.caller, usesSemChan, Kernel.step, on, at_,
    outside, Pc.mayBlock, Chan.isProc]

/-- After the `kill`, the killer's CPU can come to run the waiter: the killer sleeps, and
the CPU's own steps do the rest. -/
theorem killed_scheduled (inv : SemInv s log) (blocked : s.Blocked p id) {pid : Int}
    (named : (s.kernel.proc p).pid = pid) (taken : s.step (.kernel (.kill c pid)) = some s') :
    ∃ actions s'', run SemKernel.step s' actions = some s'' ∧
      AllSteps SemKernel.step (NoPassBy p) s' actions ∧
      s''.kernel.cpu c = some p ∧ s''.semPc p = .waiting id := by
  have ready := killed_ready inv blocked named
  have inv' := inv.step taken
  have waiting : s.semPc p = .waiting id := blocked.2.2
  obtain ⟨q, on, at_, outside, rfl⟩ := killer_of_step taken
  have notKiller : p ≠ q := by
    rintro rfl
    rw [waiting] at outside
    simp at outside
  have sleeps := sleep_ticks
    (s := { s with kernel := { s.kernel with proc := (kill s.kernel.proc pid).1 } }) on at_ outside
  have asleepInv := inv'.step sleeps
  have normal : s.kernel.pc p = .normal := (inv.inside p (by rw [waiting]; simp)).2
  obtain ⟨driving, kernel, reaches, drives, dispatched⟩ :=
    scheduled_from_idle (c := c) (p := p) asleepInv.table
      (by simp [Kernel.sleep, Kernel.setCpu])
      (by simpa [Kernel.sleep, Kernel.setProc, Kernel.setCpu, notKiller] using ready)
      normal (Nat.lt_succ_self _)
  exact ⟨(.sleep c .ticks :: driving).map SemAction.kernel, _,
    run_cons.mpr ⟨_, sleeps, run_of_drives asleepInv reaches drives⟩,
    noPassBy_kernel _ _, dispatched, waiting⟩

end Killed

/-- Wherever a process is blocked in `sem_wait(id)` and a `kill` names it, it does not
leave the call as it should: some continuation schedules it, and its first pass then goes
back to sleep or takes a unit. -/
theorem killed_waiter_stays {s s' : SemKernel ncpu} {c : Fin ncpu} {p : Slot} {id : Fin nsem}
    {pid : Int} (reached : SemReachable s) (blocked : s.Blocked p id)
    (named : (s.kernel.proc p).pid = pid) (taken : s.step (.kernel (.kill c pid)) = some s') :
    ¬LeavesSemWait s' p id := by
  obtain ⟨log, inv⟩ := reached.semInv
  intro leaves
  obtain ⟨actions, scheduled, reaches, noPass, on, at_⟩ := killed_scheduled inv blocked named taken
  have passed : scheduled.step (.waitPass c) = some (scheduled.waitPass c p id) := by
    simp [SemKernel.step, on, at_]
  obtain ⟨left, value⟩ := leaves actions scheduled _ c reaches noPass on at_ passed
  rcases waitPass_outcome scheduled c p id with asleep | taken
  · rw [asleep, at_] at left
    simp at left
  · rw [value] at taken
    have changed : (scheduled.semtable id).value ≠ (scheduled.semtable id).value - 1 := by
      bv_omega
    exact changed taken

/-- `init` forks, initialises a semaphore with 0 and its child, pid 2, blocks in `sem_wait`. -/
def blockedChild : List (SemAction 2) :=
  [.kernel (.scheduler 0), .kernel (.forkAlloc 0), .kernel (.forkKalloc 0 (some 1)),
    .kernel (.forkCopyuvm 0 true), .kernel (.forkParent 0), .kernel (.forkFiles 0),
    .kernel (.forkFinish 0), .semInit 0 0, .kernel (.scheduler 1), .semWait 1 0, .waitPass 1]

/-- A process and a semaphore it may wait for. -/
structure Waiter where
  state : ProcState
  chan : Option Chan
  semPc : SemPc
  killed : Bool
  value : BitVec 32
deriving DecidableEq, Repr

def SemKernel.waiter (s : SemKernel ncpu) (p : Slot) (id : Fin nsem) : Waiter where
  state := (s.kernel.proc p).state
  chan := (s.kernel.proc p).chan
  semPc := s.semPc p
  killed := (s.kernel.proc p).killed
  value := (s.semtable id).value

/-- With no signal after `kill(2)` the child, marked `killed`, is back asleep on
`&semtable[0]`; with one, it takes the unit. -/
theorem killed_child_sleeps_or_takes :
    ((run SemKernel.step (SemKernel.boot 2 0 0) blockedChild).map
        (·.waiter 1 0) = some ⟨.sleeping, some (.sem 0), .waiting 0, false, 0⟩) ∧
    ((run SemKernel.step (SemKernel.boot 2 0 0)
        (blockedChild ++ [.kernel (.kill 0 2), .kernel (.scheduler 1), .waitPass 1])).map
        (·.waiter 1 0) = some ⟨.sleeping, some (.sem 0), .waiting 0, true, 0⟩) ∧
    ((run SemKernel.step (SemKernel.boot 2 0 0)
        (blockedChild ++ [.kernel (.kill 0 2), .semSignal 0 0, .signalPass 0,
          .kernel (.scheduler 1)])).map
        (·.waiter 1 0) = some ⟨.running, none, .waiting 0, true, 1⟩) ∧
    ((run SemKernel.step (SemKernel.boot 2 0 0)
        (blockedChild ++ [.kernel (.kill 0 2), .semSignal 0 0, .signalPass 0,
          .kernel (.scheduler 1), .waitPass 1])).map
        (·.waiter 1 0) = some ⟨.running, none, .outside, true, 0⟩) := by
  decide +kernel

theorem killed_waiter_stays_child :
    ∃ s s' : SemKernel 2,
      run SemKernel.step (SemKernel.boot 2 0 0) blockedChild = some s ∧
      s.Blocked 1 0 ∧ s.step (.kernel (.kill 0 2)) = some s' ∧ ¬LeavesSemWait s' 1 0 := by
  have ran : (run SemKernel.step (SemKernel.boot 2 0 0) blockedChild).map
      (fun s => (s.waiter 1 0, (s.kernel.proc 1).pid,
        (s.step (.kernel (.kill 0 2))).isSome)) =
      some (⟨.sleeping, some (.sem 0), .waiting 0, false, 0⟩, 2, true) := by
    decide +kernel
  obtain ⟨s, reaches, same⟩ := Option.map_eq_some_iff.mp ran
  simp only [SemKernel.waiter, Prod.mk.injEq, Waiter.mk.injEq] at same
  obtain ⟨⟨asleep, chan, waiting, _⟩, named, enabled⟩ := same
  obtain ⟨s', taken⟩ := Option.isSome_iff_exists.mp enabled
  have reached : SemReachable s := ⟨0, 0, blockedChild, reaches⟩
  have blocked : s.Blocked 1 0 := ⟨asleep, chan, waiting⟩
  exact ⟨s, s', reaches, blocked, taken, killed_waiter_stays reached blocked named taken⟩

end Xv6.Semaphore
