import Xv6.Process.Frame
import Xv6.Sched.Quantum

/-!
Changes of the quantum.

Owns: `gettimeslice`; which steps change the quantum of a process; and that a quantum which
`setquantum_pid` has set on a started process stays until it is set again or the process is
reaped.

Does not own: how a quantum bounds a turn on the CPU (`Xv6.Sched.Quantum`).
-/

namespace Xv6.Process

open TransitionSystem

variable {ncpu : Nat} {k : Kernel ncpu} {action : Action ncpu} {pid quantum : Int}

def gettimeslice (table : Table) (pid : Int) : Int :=
  match findSlot fun slot => decide ((table slot).pid = pid ∧ (table slot).state ≠ .unused) with
  | none => -1
  | some slot => (table slot).timeslice

/-- The process has left `fork`. -/
def Proc.started (p : Proc) : Prop :=
  p.state ≠ .unused ∧ p.state ≠ .embryo

instance (p : Proc) : Decidable p.started :=
  inferInstanceAs (Decidable (_ ∧ _))

/-- Neither a successful `setquantum_pid` on the process nor its end in `wait`. -/
def Undisturbed (pid : Int) (k : Kernel ncpu) (action : Action ncpu) : Prop :=
  (∀ c quantum, action = .setquantumPid c pid quantum → (setquantumPid k.proc pid quantum).2 ≠ 0) ∧
    ∀ caller, .waited caller pid ∉ k.events action

/-! ## What a step does to the quantum of a process -/

/-- A started process stays started, with its pid and its quantum. -/
structure SliceKept (before after : Proc) : Prop where
  started : before.started → after.started
  pid : after.pid = before.pid
  timeslice : after.timeslice = before.timeslice

theorem Keeps.slice {before after : Proc} (keeps : Keeps before after) (started : before.started) :
    SliceKept before after := by
  obtain ⟨stays, pid⟩ := keeps.started started.1 started.2
  exact ⟨fun _ => stays, pid, keeps.timeslice⟩

/-- A step keeps the quantum of a started process, unless it sets it or reaps the process. -/
theorem sliceKept_of_step {k' : Kernel ncpu} {slot : Slot} (step : Step k action k')
    (table : TableInv k) (started : (k.proc slot).started) :
    SliceKept (k.proc slot) (k'.proc slot) ∨
      (∃ c quantum, action = .setquantumPid c (k.proc slot).pid quantum ∧
        (setquantumPid k.proc (k.proc slot).pid quantum).2 = 0) ∨
      ∃ caller, .waited caller (k.proc slot).pid ∈ k.events action := by
  cases step.slotStep table slot with
  | kept _ keeps _ => exact .inl (keeps.slice started)
  | alloced free _ => exact absurd free started.1
  | reaped _ waited _ => exact .inr (.inr ⟨_, waited⟩)
  | @started c p _ at_ _ => exact absurd (table.forking p slot .filed at_).state started.2
  | selected _ keeps _ =>
    have slice := keeps.slice ⟨by simp [dispatched], by simp [dispatched]⟩
    exact .inl ⟨fun _ => slice.started ⟨by simp [dispatched], by simp [dispatched]⟩, slice.pid,
      slice.timeslice⟩
  | restarted _ holds succeeds _ =>
    subst holds
    exact .inr (.inl ⟨_, _, rfl, succeeds⟩)
  | counted woken _ after =>
    have slice := woken.keeps.slice started
    rw [after]
    exact .inl ⟨slice.started, slice.pid, slice.timeslice⟩
  | preempted _ _ after | exited _ after =>
    rw [after]
    exact .inl ⟨fun _ => ⟨by simp, by simp⟩, rfl, rfl⟩
  | elsewhere _ after | charged _ _ _ after | left _ _ after _ =>
    rw [after]
    exact .inl ⟨id, rfl, rfl⟩

/-! ## A quantum stays -/

/-- A started process of that pid and quantum. -/
def HasSlice (k : Kernel ncpu) (pid quantum : Int) : Prop :=
  ∃ slot, (k.proc slot).started ∧ (k.proc slot).pid = pid ∧ (k.proc slot).timeslice = quantum

theorem HasSlice.gettimeslice (has : HasSlice k pid quantum) (table : TableInv k) :
    gettimeslice k.proc pid = quantum := by
  obtain ⟨slot, started, isPid, isQuantum⟩ := has
  unfold Process.gettimeslice
  cases searched : findSlot fun slot =>
      decide ((k.proc slot).pid = pid ∧ (k.proc slot).state ≠ .unused) with
  | none =>
    have missed := findSlot_none searched slot
    simp [isPid, started.1] at missed
  | some found =>
    have accepted : (k.proc found).pid = pid ∧ (k.proc found).state ≠ .unused := by
      simpa using findSlot_accepts searched
    have same := table.pidDistinct found slot accepted.2 started.1 (accepted.1.trans isPid.symm)
    simp only [same, isQuantum]

theorem HasSlice.step {k' : Kernel ncpu} (has : HasSlice k pid quantum) (table : TableInv k)
    (quiet : Undisturbed pid k action) (taken : k.step action = some k') :
    HasSlice k' pid quantum := by
  obtain ⟨slot, started, rfl, rfl⟩ := has
  rcases sliceKept_of_step (Step.of_step taken) table started with
    kept | ⟨c, q, isSet, succeeds⟩ | ⟨caller, reaped⟩
  · exact ⟨slot, kept.started started, kept.pid, kept.timeslice⟩
  · exact absurd succeeds (quiet.1 c q isSet)
  · exact absurd reaped (quiet.2 caller)

theorem HasSlice.run {final : Kernel ncpu} (has : HasSlice k pid quantum) (table : TableInv k)
    {actions : List (Action ncpu)}
    (quiet : AllSteps Kernel.step (Undisturbed pid) k actions)
    (reaches : run Kernel.step k actions = some final) :
    Process.gettimeslice final.proc pid = quantum := by
  have kept := run_invariant_of_allSteps
    (fun k => TableInv k ∧ HasSlice k pid quantum)
    (fun holds undisturbed taken =>
      ⟨holds.1.step (Step.of_step taken), holds.2.step holds.1 undisturbed taken⟩)
    ⟨table, has⟩ quiet reaches
  exact kept.2.gettimeslice kept.1

/-- What a successful `setquantum_pid` leaves. -/
theorem HasSlice.of_set (succeeds : (setquantumPid k.proc pid quantum).2 = 0)
    (started : ∀ slot, (k.proc slot).pid = pid → (k.proc slot).state ≠ .embryo) :
    HasSlice { k with proc := (setquantumPid k.proc pid quantum).1 } pid quantum := by
  rcases setquantumPid_cases k.proc pid quantum with refused | ⟨found, _, isPid, used, set⟩
  · rw [refused] at succeeds
    cases succeeds
  · refine ⟨found, ?_, ?_, ?_⟩
    all_goals rw [set]; dsimp only; rw [Function.update_self]
    · exact ⟨used, started found isPid⟩
    · exact isPid

theorem setquantumPid_result (table : Table) (pid quantum : Int) :
    (setquantumPid table pid quantum).2 = 0 ∨
      (setquantumPid table pid quantum).2 = -1 ∧ (setquantumPid table pid quantum).1 = table := by
  rcases setquantumPid_cases table pid quantum with refused | ⟨_, _, _, _, set⟩
  · rw [refused]
    exact .inr ⟨rfl, rfl⟩
  · rw [set]
    exact .inl rfl

/-- The end of `fork` gives the process the default quantum, whatever was set before. -/
theorem HasSlice.of_forked {k' : Kernel ncpu} {slot : Slot} (step : Step k action k')
    (table : TableInv k) (embryo : (k.proc slot).state = .embryo)
    (runnable : (k'.proc slot).state = .runnable) :
    HasSlice k' (k.proc slot).pid defaultQuantum := by
  have notLive : (k.proc slot).state.live = false := by
    rw [embryo]
    rfl
  have notOn (c : Fin ncpu) : k.cpu c ≠ some slot := fun on => by
    rw [(table.running slot).mpr ⟨c, on⟩] at embryo
    cases embryo
  have stays (keeps : Keeps (k.proc slot) (k'.proc slot)) : False := by
    have live := keeps.live
    rw [runnable, notLive] at live
    cases live
  cases step.slotStep table slot with
  | kept _ keeps _ => exact (stays keeps).elim
  | started _ _ after =>
    refine ⟨slot, ?_, ?_, ?_⟩ <;> rw [after]
    · exact ⟨by simp [madeRunnable], by simp [madeRunnable]⟩
    all_goals rfl
  | counted woken _ after =>
    have live := woken.keeps.live
    rw [after] at runnable
    rw [runnable, notLive] at live
    cases live
  | alloced free _ => cases embryo.symm.trans free
  | reaped dead _ _ => cases embryo.symm.trans dead
  | selected ready _ _ => cases embryo.symm.trans ready
  | restarted _ _ _ after | elsewhere _ after =>
    rw [after] at runnable
    cases embryo.symm.trans runnable
  | charged on _ _ _ | preempted on _ _ | left on _ _ _ | exited on _ => exact absurd on (notOn _)

/-- What a call of `setquantum_pid` does. The quantum it sets on a process that has left `fork`
stays until it is set again or the process is reaped; a refused call changes nothing, and no call
changes the quantum of a process it does not name. What was set on a process before it left `fork`
is lost then. -/
theorem quantum_change_kept (ncpu : Nat) :
    ∀ k : Kernel ncpu, KernelReachable k →
      (∀ c pid quantum k', k.step (.setquantumPid c pid quantum) = some k' →
        ((setquantumPid k.proc pid quantum).2 = 0 →
          (∀ slot, (k.proc slot).pid = pid → (k.proc slot).state ≠ .embryo) →
            ∀ actions final, run Kernel.step k' actions = some final →
              AllSteps Kernel.step (Undisturbed pid) k' actions →
                gettimeslice final.proc pid = quantum) ∧
        ((setquantumPid k.proc pid quantum).2 ≠ 0 →
          (setquantumPid k.proc pid quantum).2 = -1 ∧ ∀ slot,
            (k'.proc slot).timeslice = (k.proc slot).timeslice ∧
              (k'.proc slot).ticksUsed = (k.proc slot).ticksUsed) ∧
        ∀ slot, (k.proc slot).pid ≠ pid →
          (k'.proc slot).timeslice = (k.proc slot).timeslice) ∧
      ∀ action k', k.step action = some k' → ∀ slot,
        ((k.proc slot).started → Undisturbed (k.proc slot).pid k action →
          (k'.proc slot).timeslice = (k.proc slot).timeslice) ∧
        ((k.proc slot).state = .embryo → (k'.proc slot).state = .runnable →
          gettimeslice k'.proc (k.proc slot).pid = defaultQuantum) := by
  intro k reached
  have table := reached.tableInv
  refine ⟨?_, ?_⟩
  · intro c pid quantum k' taken
    have after : k' = { k with proc := (setquantumPid k.proc pid quantum).1 } := by
      cases Step.of_step taken
      rfl
    refine ⟨?_, ?_, ?_⟩
    · intro succeeds started actions final reaches quiet
      have has := HasSlice.of_set succeeds started
      rw [← after] at has
      exact has.run (table.step (Step.of_step taken)) quiet reaches
    · intro fails
      obtain ⟨isMinusOne, unchanged⟩ := (setquantumPid_result k.proc pid quantum).resolve_left fails
      refine ⟨isMinusOne, ?_⟩
      intro slot
      rw [after]
      dsimp only
      rw [unchanged]
      exact ⟨rfl, rfl⟩
    · intro slot different
      rw [after]
      rcases setquantumPid_cases k.proc pid quantum with refused | ⟨found, _, isPid, _, set⟩
      · rw [refused]
      · have other : slot ≠ found := fun same => different (same ▸ isPid)
        rw [set]
        dsimp only
        rw [Function.update_of_ne other]
  · intro action k' taken slot
    refine ⟨?_, ?_⟩
    · intro started quiet
      rcases sliceKept_of_step (Step.of_step taken) table started with
        kept | ⟨c, quantum, isSet, succeeds⟩ | ⟨caller, reaped⟩
      · exact kept.timeslice
      · exact absurd succeeds (quiet.1 c quantum isSet)
      · exact absurd reaped (quiet.2 caller)
    · intro embryo runnable
      have has := HasSlice.of_forked (Step.of_step taken) table embryo runnable
      exact has.gettimeslice (table.step (Step.of_step taken))

/-- `init` gives itself a quantum of 50 ticks, and a tick later it has it. -/
theorem quantum_change_kept_init :
    ∃ k k' final : Kernel 1, KernelReachable k ∧ k.step (.setquantumPid 0 1 50) = some k' ∧
      run Kernel.step k' [.tick 0 false] = some final ∧
      gettimeslice final.proc 1 = 50 := by
  have ran : (run Kernel.step (Kernel.boot 1 0 0) [.scheduler 0]).bind (fun k =>
      (k.step (.setquantumPid 0 1 50)).bind fun k' =>
        (run Kernel.step k' [.tick 0 false]).map fun _ =>
          ((setquantumPid k.proc 1 50).2,
            decide (∀ slot, (k.proc slot).pid = 1 → (k.proc slot).state ≠ .embryo))) =
      some (0, true) := by
    decide +kernel
  obtain ⟨k, reaches, later⟩ := Option.bind_eq_some_iff.mp ran
  obtain ⟨k', taken, later⟩ := Option.bind_eq_some_iff.mp later
  obtain ⟨final, ticks, results⟩ := Option.map_eq_some_iff.mp later
  obtain ⟨succeeds, started⟩ := Prod.mk.inj results
  have reached : KernelReachable k := ⟨0, 0, _, reaches⟩
  refine ⟨k, k', final, reached, taken, ticks, ?_⟩
  refine ((quantum_change_kept 1 k reached).1 0 1 50 k' taken).1 succeeds (of_decide_eq_true started)
    [.tick 0 false] final ticks ⟨?_, fun _ _ => trivial⟩
  exact ⟨(fun _ _ isSet => nomatch isSet), fun _ => List.not_mem_nil⟩

/-- The steps of a `fork` on CPU 0 after `allocproc`. -/
def restOfFork : List (Action 2) :=
  [.forkKalloc 0 (some 1), .forkCopyuvm 0 true, .forkParent 0, .forkFiles 0, .forkFinish 0]

/-- A child on CPU 1 sets the quantum of a process that `init` is still forking: the call
returns 0, and the end of `fork` puts the old quantum back. -/
theorem quantum_of_embryo_lost :
    ∃ k k' final : Kernel 2, KernelReachable k ∧
      k.step (.setquantumPid 1 3 50) = some k' ∧ (setquantumPid k.proc 3 50).2 = 0 ∧
      run Kernel.step k' restOfFork = some final ∧
      AllSteps Kernel.step (Undisturbed 3) k' restOfFork ∧
      gettimeslice final.proc 3 = 10 := by
  have ran : (run Kernel.step (Kernel.boot 2 0 0)
      ([.scheduler 0, .forkAlloc 0] ++ restOfFork ++ [.scheduler 1, .forkAlloc 0])).bind (fun k =>
        (k.step (.setquantumPid 1 3 50)).bind fun k' =>
          (run Kernel.step k' restOfFork).map fun final =>
            ((setquantumPid k.proc 3 50).2, gettimeslice final.proc 3)) = some (0, 10) := by
    decide +kernel
  obtain ⟨k, reaches, later⟩ := Option.bind_eq_some_iff.mp ran
  obtain ⟨k', taken, later⟩ := Option.bind_eq_some_iff.mp later
  obtain ⟨final, finishes, results⟩ := Option.map_eq_some_iff.mp later
  obtain ⟨succeeds, lost⟩ := Prod.mk.inj results
  refine ⟨k, k', final, ⟨0, 0, _, reaches⟩, taken, succeeds, finishes, ?_, lost⟩
  refine ⟨?_, fun _ _ => ⟨?_, fun _ _ => ⟨?_, fun _ _ => ⟨?_, fun _ _ => ⟨?_, fun _ _ => trivial⟩⟩⟩⟩⟩
  all_goals refine ⟨(fun _ _ isSet => nomatch isSet), fun caller => ?_⟩
  all_goals simp only [Kernel.events, List.not_mem_nil, not_false_eq_true]
  split
  · simp
  · split <;> simp

end Xv6.Process
