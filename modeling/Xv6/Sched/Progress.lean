import Xv6.Process.Frame
import Xv6.Sched.RoundRobin
import Xv6.Sched.Quantum

/-!
A `RUNNABLE` process can be scheduled.

Owns: that one CPU alone, by timer ticks, by letting processes that are exiting finish,
and by turns of its scheduler, can reach the selection of any given `RUNNABLE` process
from any reachable state.

Does not own: fairness. The statement is that such a continuation exists, not that
every continuation contains it.
-/

namespace Xv6.Process

open TransitionSystem
open Function (update_self update_of_ne)

variable {ncpu : Nat}

/-- Steps of CPU `c` that no process outside `exit` asks for. -/
def Action.drives (c : Fin ncpu) : Action ncpu → Bool
  | .scheduler c' => decide (c' = c)
  | .tick c' user => decide (c' = c) && !user
  | .exitClose c' => decide (c' = c)
  | .exitCwd c' => decide (c' = c)
  | .exitFinish c' => decide (c' = c)
  | _ => false

/-- The scheduler's pointer and the `RUNNABLE` slots other than `q` are as before. -/
structure Untouched (q : Slot) (k k' : Kernel ncpu) : Prop where
  rrNext : k'.rrNext = k.rrNext
  slot : ∀ p, p ≠ q → (k.proc p).state = .runnable →
    (k'.proc p).state = .runnable ∧ k'.pc p = k.pc p

variable {k k' k'' : Kernel ncpu} {c : Fin ncpu} {p q : Slot}

theorem Untouched.refl (q : Slot) (k : Kernel ncpu) : Untouched q k k :=
  ⟨rfl, fun _ _ ready => ⟨ready, rfl⟩⟩

theorem Untouched.trans (first : Untouched q k k') (second : Untouched q k' k'') :
    Untouched q k k'' := by
  refine ⟨second.rrNext.trans first.rrNext, ?_⟩
  intro p different ready
  obtain ⟨middle, pc⟩ := first.slot p different ready
  obtain ⟨after, pc'⟩ := second.slot p different middle
  exact ⟨after, pc'.trans pc⟩

theorem Untouched.own {s : Proc} {pc' : Pc} :
    Untouched q k ((k.setProc q s).setPc q pc') := by
  refine ⟨rfl, ?_⟩
  intro p different ready
  simpa [update_of_ne different] using ready

/-- The CPU can be freed: there is a run of its own steps after which it is idle. -/
def Drains (k : Kernel ncpu) (c : Fin ncpu) (q : Slot) : Prop :=
  ∃ actions k', run Kernel.step k actions = some k' ∧
    (∀ action ∈ actions, action.drives c = true) ∧ k'.cpu c = none ∧ Untouched q k k'

theorem Drains.step {action : Action ncpu} (taken : k.step action = some k')
    (driven : action.drives c = true) (untouched : Untouched q k k') (later : Drains k' c q) :
    Drains k c q := by
  obtain ⟨actions, final, reaches, drives, idle, kept⟩ := later
  refine ⟨action :: actions, final, run_cons.mpr ⟨k', taken, reaches⟩, ?_, idle,
    untouched.trans kept⟩
  intro other member
  rcases List.mem_cons.mp member with same | member
  · rw [same]
    exact driven
  · exact drives other member

theorem Drains.done (idle : k.cpu c = none) : Drains k c q :=
  ⟨[], k, rfl, by simp, idle, Untouched.refl q k⟩

/-- The tick that ends a quantum frees the CPU. -/
theorem drains_by_lastTick (on : k.cpu c = some q) (open_ : (k.pc q).interruptible = true)
    (expired : (k.proc q).ticksUsed + 1 ≥ (k.proc q).timeslice) : Drains k c q := by
  have ticked := step_tick on open_
  rw [if_pos expired] at ticked
  refine Drains.step ticked (by simp [Action.drives]) ⟨rfl, ?_⟩
    (Drains.done (by simp [Kernel.yield]))
  intro p different ready
  simpa [Kernel.yield, update_of_ne different] using ready

/-- Ticks use the quantum up. -/
theorem drains_by_ticks (on : k.cpu c = some q) (open_ : (k.pc q).interruptible = true)
    {left : Nat} (bound : ((k.proc q).timeslice - (k.proc q).ticksUsed).toNat ≤ left) :
    Drains k c q := by
  induction left generalizing k with
  | zero => exact drains_by_lastTick on open_ (by omega)
  | succ left ih =>
    by_cases expired : (k.proc q).ticksUsed + 1 ≥ (k.proc q).timeslice
    · exact drains_by_lastTick on open_ expired
    · have ticked := step_tick on open_
      rw [if_neg expired] at ticked
      refine Drains.step ticked (by simp [Action.drives]) ⟨rfl, ?_⟩
        (ih on open_ ?_)
      · intro p different ready
        simpa [update_of_ne different] using ready
      · simp only [Kernel.setProc_proc, update_self, charged]
        omega

theorem drains_by_exitFinish (on : k.cpu c = some q) {trap : Bool}
    (at_ : k.pc q = .leaving trap) : Drains k c q := by
  have taken : k.step (.exitFinish c) = some (k.exitFinish c q) := by
    simp [Kernel.step, on, at_]
  refine Drains.step taken (by simp [Action.drives]) ⟨rfl, ?_⟩
    (Drains.done (by simp [Kernel.exitFinish]))
  intro p different ready
  have atMost : Woken _ ((k.exitFinish c q).proc p) := exitTable_other different
  have same := atMost.eq_of_not_sleeping (by simp [ready])
  refine ⟨by rw [same]; exact ready, ?_⟩
  simp [Kernel.exitFinish, update_of_ne different]

/-- A process in `exit` closes its files and leaves. -/
theorem drains_by_exit (inv : TableInv k) (on : k.cpu c = some q) {fd left : Nat} {trap : Bool}
    (at_ : k.pc q = .exiting fd trap) (count : fd + left = nofile) : Drains k c q := by
  induction left generalizing k fd with
  | zero =>
    have taken : k.step (.exitCwd c) = some (k.exitCwd q trap) := by
      simp only [Kernel.step, on, Option.bind_some, at_]
      rw [if_pos (by omega)]
    have next : (k.exitCwd q trap).pc q = .leaving trap := by
      simp [Kernel.exitCwd]
    have onStill : (k.exitCwd q trap).cpu c = some q := on
    exact Drains.step taken (by simp [Action.drives]) Untouched.own
      (drains_by_exitFinish onStill next)
  | succ left ih =>
    have isOpen : fd < nofile := by omega
    have taken : k.step (.exitClose c) = some (k.exitClose q ⟨fd, isOpen⟩ trap) := by
      simp only [Kernel.step, on, Option.bind_some, at_]
      rw [dif_pos isOpen]
    have after := inv.step (Step.of_step taken)
    refine Drains.step taken (by simp [Action.drives]) Untouched.own ?_
    have next : (k.exitClose q ⟨fd, isOpen⟩ trap).pc q = .exiting (fd + 1) trap := by
      simp [Kernel.exitClose]
    exact ih after on next (by omega)

theorem drains (inv : TableInv k) (on : k.cpu c = some q) : Drains k c q := by
  cases at_ : k.pc q with
  | exiting fd trap =>
    have done := inv.exitDone q
    rw [at_] at done
    exact drains_by_exit inv on at_ (Nat.add_sub_of_le done.2.1)
  | leaving trap => exact drains_by_exitFinish on at_
  | normal | waiting | forking => exact drains_by_ticks on (by rw [at_]; rfl) (le_refl _)

/-! ## The selection -/

/-- A pass of `wait` by `q` leaves every other `RUNNABLE` slot as it is. -/
theorem Untouched.waitLoop : Untouched q k (k.waitLoop c q) := by
  refine ⟨Kernel.waitLoop_rrNext k c q, ?_⟩
  intro p different ready
  refine ⟨?_, Kernel.waitLoop_pc different⟩
  unfold Kernel.waitLoop
  cases scanned : waitScan k.proc q with
  | reap child =>
    have notChild : p ≠ child := by
      intro same
      rw [same, (waitScan_reap scanned).2] at ready
      simp at ready
    simpa [update_of_ne notChild] using ready
  | fail => exact ready
  | sleep => simpa [Kernel.sleep, update_of_ne different] using ready

theorem Untouched.clearChan : Untouched q k (k.clearChan q) := by
  refine ⟨rfl, ?_⟩
  intro p different ready
  simpa [Kernel.clearChan, update_of_ne different] using ready

theorem Untouched.resume : Untouched q k (k.resume c q) := by
  unfold Kernel.resume
  cases (k.proc q).context with
  | forkret | yield => exact Untouched.refl q k
  | sleep =>
    simp only
    split
    · exact Untouched.clearChan.trans Untouched.waitLoop
    · exact Untouched.clearChan

/-- A turn that selects `q` leaves the other `RUNNABLE` slots as they are. -/
theorem scheduler_others (found : schedulerSearch k.proc k.rrNext = some q) (different : p ≠ q)
    (ready : (k.proc p).state = .runnable) :
    ((k.scheduler c).proc p).state = .runnable ∧ (k.scheduler c).pc p = k.pc p := by
  unfold Kernel.scheduler
  rw [found]
  have started : ((k.dispatch c q).proc p).state = .runnable := by
    simpa [Kernel.dispatch, update_of_ne different] using ready
  exact Untouched.resume.slot p different started

/-- A process that is not inside `wait` has the CPU after its selection. -/
theorem scheduler_runs (found : schedulerSearch k.proc k.rrNext = some p)
    (outside : k.pc p ≠ .waiting) : (k.scheduler c).cpu c = some p := by
  have on : (k.dispatch c p).cpu c = some p := update_self _ _ _
  unfold Kernel.scheduler
  rw [found]
  simp only [Kernel.resume]
  cases ((k.dispatch c p).proc p).context with
  | forkret => exact on
  | yield => exact on
  | sleep =>
    simp only
    rw [if_neg (show (k.dispatch c p).pc p ≠ .waiting from outside)]
    exact on

/-- The CPU can be made idle with `p` still `RUNNABLE` and the pointer where it is. -/
theorem idle_again (inv : TableInv k) (ready : (k.proc p).state = .runnable) :
    ∃ actions k', run Kernel.step k actions = some k' ∧
      (∀ action ∈ actions, action.drives c = true) ∧ k'.cpu c = none ∧
      k'.rrNext = k.rrNext ∧ (k'.proc p).state = .runnable ∧ k'.pc p = k.pc p := by
  cases occupied : k.cpu c with
  | none => exact ⟨[], k, rfl, by simp, occupied, rfl, ready, rfl⟩
  | some r =>
    have notP : p ≠ r := by
      intro isR
      have runs := inv.state_of_cpu occupied
      rw [← isR, ready] at runs
      simp at runs
    obtain ⟨actions, k', reaches, drives, free, untouched⟩ := drains inv occupied
    exact ⟨actions, k', reaches, drives, free, untouched.rrNext, untouched.slot p notP ready⟩

/-- From an idle CPU, its own steps lead to the selection of `p`. The induction is on the
circular distance from the pointer to `p`, which every other selection shortens. -/
theorem scheduled_from_idle (inv : TableInv k) (idle : k.cpu c = none)
    (ready : (k.proc p).state = .runnable) (outside : k.pc p = .normal) {bound : Nat}
    (near : CircularScan.distance k.rrNext p < bound) :
    ∃ actions k', run Kernel.step k actions = some k' ∧
      (∀ action ∈ actions, action.drives c = true) ∧ k'.cpu c = some p := by
  induction bound generalizing k with
  | zero => omega
  | succ bound ih =>
    have accepted : (fun slot => decide ((k.proc slot).state = .runnable)) p = true := by
      simpa using ready
    obtain ⟨q, found⟩ : ∃ q, schedulerSearch k.proc k.rrNext = some q :=
      CircularScan.scan_isSome accepted
    have taken : k.step (.scheduler c) = some (k.scheduler c) := by
      simp [Kernel.step, idle]
    by_cases same : q = p
    · rw [same] at found
      refine ⟨[.scheduler c], k.scheduler c, run_singleton.mpr taken,
        by simp [Action.drives], scheduler_runs found ?_⟩
      rw [outside]
      simp
    · have inv' := inv.step (Step.of_step taken)
      obtain ⟨ready', pc'⟩ := scheduler_others (c := c) found (Ne.symm same) ready
      have closer : CircularScan.distance (k.scheduler c).rrNext p < bound := by
        have shorter := CircularScan.distance_after_lt accepted found same
        rw [Kernel.scheduler_rrNext found]
        exact Nat.lt_of_lt_of_le shorter (by omega)
      obtain ⟨actions, k', reaches, drives, free, pointer, readyAfter, pcAfter⟩ :=
        idle_again (c := c) inv' ready'
      obtain ⟨rest, final, later, drivesLater, runs⟩ := ih (inv'.run reaches) free
        readyAfter (pcAfter.trans (pc'.trans outside)) (by rw [pointer]; exact closer)
      refine ⟨.scheduler c :: (actions ++ rest), final, ?_, ?_, runs⟩
      · exact run_cons.mpr
          ⟨_, taken, run_append.mpr ⟨k', reaches, later⟩⟩
      · intro action member
        rcases List.mem_cons.mp member with isTurn | member
        · simp [isTurn, Action.drives]
        · rcases List.mem_append.mp member with inFirst | inRest
          · exact drives action inFirst
          · exact drivesLater action inRest

end Xv6.Process
