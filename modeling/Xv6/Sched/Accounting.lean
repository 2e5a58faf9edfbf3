import Xv6.Sched.Quantum

/-!
What the kernel counts for each process.

Owns: the bounds between the quantum and the statistics of a process in every reachable state;
the tick at which a process is preempted; and, on one CPU, that each tick is counted once for
each process.

Does not own: how many ticks a selection can last (`Xv6.Sched.Quantum`).
-/

namespace Xv6.Process

open TransitionSystem

variable {ncpu : Nat}

/-! ## Quanta and counters -/

structure Counts (p : Proc) : Prop where
  quantum : p.state ≠ .unused → (1 ≤ p.timeslice ∧ p.timeslice ≤ 100) ∧
    0 ≤ p.ticksUsed ∧ p.ticksUsed < p.timeslice
  charged : p.stats.preemptions ≤ p.stats.cpuTicks
  switched : p.stats.preemptions ≤ p.stats.ctxSwitches
  running : p.state = .running → p.stats.preemptions < p.stats.ctxSwitches

variable {k k' : Kernel ncpu} {c : Fin ncpu} {p slot : Slot} {action : Action ncpu}

theorem Counts.keeps {before after : Proc} (counts : Counts before) (keeps : Keeps before after) :
    Counts after where
  quantum := by
    intro used
    obtain ⟨range, ticks⟩ := counts.quantum (keeps.used used)
    rw [keeps.timeslice]
    rcases keeps.ticksUsed with same | ⟨zero, -⟩
    · rw [same]
      exact ⟨range, ticks⟩
    · rw [zero]
      exact ⟨range, le_refl 0, by omega⟩
  charged := by
    rw [keeps.stats]
    exact counts.charged
  switched := by
    rw [keeps.stats]
    exact counts.switched
  running := by
    intro runs
    rw [keeps.stats]
    exact counts.running (keeps.running runs)

theorem Counts.fresh {after : Proc} (stats : after.stats = PStats.zero)
    (timeslice : after.timeslice = defaultQuantum) (ticksUsed : after.ticksUsed = 0)
    (waits : after.state ≠ .running) : Counts after := by
  refine ⟨fun _ => ?_, ?_, ?_, fun runs => absurd runs waits⟩
  · rw [timeslice, ticksUsed]
    decide
  · rw [stats]
    exact le_refl 0
  · rw [stats]
    exact le_refl 0

theorem Counts.step (counts : Counts (k.proc slot)) (table : TableInv k)
    (step : SlotStep k k' slot action) : Counts (k'.proc slot) := by
  cases step with
  | kept _ keeps _ => exact counts.keeps keeps
  | elsewhere _ after | left _ _ after _ =>
    rw [after]
    exact counts
  | alloced _ after | reaped _ _ after | started _ _ after =>
    rw [after]
    exact .fresh rfl rfl rfl fun runs => by cases runs
  | selected ready keeps _ =>
    obtain ⟨range, _⟩ := counts.quantum (by simp [ready])
    have chosen : Counts (dispatched (k.proc slot)) :=
      ⟨fun _ => ⟨range, le_refl 0, range.1⟩, counts.charged, Nat.le_succ_of_le counts.switched,
        fun _ => Nat.lt_succ_of_le counts.switched⟩
    exact chosen.keeps keeps
  | restarted range _ _ after =>
    rw [after]
    exact ⟨fun _ => ⟨range, le_refl 0, range.1⟩, counts.charged, counts.switched, counts.running⟩
  | charged on _ left after =>
    obtain ⟨range, ticks⟩ := counts.quantum (by simp [table.state_of_cpu on])
    rw [after]
    refine ⟨fun _ => ⟨range, ?_, left⟩, Nat.le_succ_of_le counts.charged, counts.switched,
      counts.running⟩
    simp only [Process.charged]
    omega
  | preempted on _ after =>
    have runs := table.state_of_cpu on
    obtain ⟨range, _⟩ := counts.quantum (by simp [runs])
    rw [after]
    exact ⟨fun _ => ⟨range, le_refl 0, range.1⟩, Nat.succ_le_succ counts.charged,
      counts.running runs, fun runs => by cases runs⟩
  | counted woken counted after =>
    have woken := counts.keeps woken.keeps
    rw [after]
    refine ⟨woken.quantum, ?_, ?_, ?_⟩ <;> simp only [counted.preemptions, counted.cpuTicks,
      counted.ctxSwitches]
    exacts [woken.charged, woken.switched, woken.running]
  | exited on after =>
    have used := counts.quantum (by simp [table.state_of_cpu on])
    rw [after]
    exact ⟨fun _ => used, counts.charged, counts.switched, fun runs => by cases runs⟩

theorem counts_of_reachable (reached : KernelReachable k) (slot : Slot) : Counts (k.proc slot) := by
  obtain ⟨stack, root, reaches⟩ := reached
  refine (reaches.invariant (fun k => TableInv k ∧ ∀ slot, Counts (k.proc slot)) ?_ ?_).2 slot
  · intro k action k' inv taken
    have step := Step.of_step taken
    exact ⟨inv.1.step step, fun slot => (inv.2 slot).step inv.1 (step.slotStep inv.1 slot)⟩
  · refine ⟨TableInv.boot ncpu stack root, fun slot => ?_⟩
    rw [Kernel.boot_proc]
    split
    · exact Counts.fresh rfl rfl rfl (nomatch ·)
    · exact ⟨fun used => absurd rfl used, le_refl 0, le_refl 0, (nomatch ·)⟩

/-! ## The tick that preempts -/

/-- `p` has CPU `c`, and the action does not set its quantum. -/
def InStretch (c : Fin ncpu) (p : Slot) (k : Kernel ncpu) : Action ncpu → Prop
  | .setquantumPid _ pid _ => k.cpu c = some p ∧ pid ≠ (k.proc p).pid
  | _ => k.cpu c = some p

instance (c : Fin ncpu) (p : Slot) (k : Kernel ncpu) (action : Action ncpu) :
    Decidable (InStretch c p k action) := by
  cases action <;> unfold InStretch <;> infer_instance

theorem InStretch.on (calm : InStretch c p k action) : k.cpu c = some p := by
  cases action with
  | setquantumPid _ _ _ => exact calm.1
  | _ => exact calm

/-- While `p` can be interrupted on CPU `c`, it has used the ticks it has received there. -/
theorem ticksUsed_of_run {actions : List (Action ncpu)} (table : TableInv k)
    (calm : AllSteps Kernel.step (InStretch c p) k actions)
    (reaches : run Kernel.step k actions = some k') (stays : k'.cpu c = some p)
    (open_ : (k'.pc p).interruptible = true) :
    (k.pc p).interruptible = true ∧
      (k'.proc p).ticksUsed = (k.proc p).ticksUsed + (actions.map (Action.ticksOn c)).sum := by
  induction actions generalizing k with
  | nil =>
    cases reaches
    exact ⟨open_, (Int.add_zero _).symm⟩
  | cons action rest ih =>
    obtain ⟨next, taken, reaches⟩ := run_cons.mp reaches
    have step := Step.of_step taken
    have calmRest := calm.2 next taken
    obtain ⟨openNext, later⟩ := ih (table.step step) calmRest reaches
    have onNext : next.cpu c = some p := by
      cases rest with
      | nil =>
        cases reaches
        exact stays
      | cons _ _ => exact calmRest.1.on
    refine ⟨(step.pcStep p).open_ ((table.step step).live_of_cpu onNext) openNext, ?_⟩
    cases step.held table calm.1.on onNext openNext with
    | ticks _ first _ =>
      rw [later, first, List.map_cons, List.sum_cons]
      omega
    | sets holds _ _ _ _ => exact absurd holds.symm calm.1.2

/-- In every reachable state the quanta and counters of a process keep their bounds. In a stretch
from a selection of `p` during which nobody sets its quantum, a tick makes `trap` call `yield`
exactly if it is the last of the quantum, unless `p` is killed and the tick finds it in user mode:
`trap` then calls `exit`, and counts nothing. -/
theorem quantum_counters {k : Kernel ncpu} (reached : KernelReachable k) :
    (∀ slot, (k.proc slot).state ≠ .unused →
      (1 ≤ (k.proc slot).timeslice ∧ (k.proc slot).timeslice ≤ 100) ∧
      (0 ≤ (k.proc slot).ticksUsed ∧ (k.proc slot).ticksUsed < (k.proc slot).timeslice) ∧
      (k.proc slot).stats.preemptions ≤ (k.proc slot).stats.cpuTicks ∧
      (k.proc slot).stats.preemptions ≤ (k.proc slot).stats.ctxSwitches ∧
      ((k.proc slot).state = .running →
        (k.proc slot).stats.preemptions < (k.proc slot).stats.ctxSwitches)) ∧
    ∀ c p actions (k₁ k₂ k₃ : Kernel ncpu) user,
      k.step (.scheduler c) = some k₁ → k₁.cpu c = some p →
      AllSteps Kernel.step (InStretch c p) k₁ actions →
      run Kernel.step k₁ actions = some k₂ → k₂.cpu c = some p →
      k₂.step (.tick c user) = some k₃ →
      (k₃.cpu c = none ↔
        ((actions.map (Action.ticksOn c)).sum + 1 : Int) = (k₂.proc p).timeslice ∧
          ¬(user = true ∧ (k₂.proc p).killed = true)) ∧
        (user = true → (k₂.proc p).killed = true →
          k₃.pc p = .exiting 0 true ∧ k₃.cpu c = some p ∧ k₃.proc p = k₂.proc p) := by
  refine ⟨?_, ?_⟩
  · intro slot used
    have counts := counts_of_reachable reached slot
    exact ⟨(counts.quantum used).1, (counts.quantum used).2, counts.charged, counts.switched,
      counts.running⟩
  · intro c p actions k₁ k₂ k₃ user taken selected calm reaches on ticked
    have reached₁ := reached.step taken
    have table₂ := reached₁.tableInv.run reaches
    have counts : Counts (k₂.proc p) := by
      obtain ⟨stack, root, start⟩ := reached₁
      exact counts_of_reachable ⟨stack, root, start.of_run reaches⟩ p
    cases Step.of_step ticked with
    | tick on' open_ _ ticked =>
      obtain rfl := Option.some.inj (on.symm.trans on')
      have ticks := (ticksUsed_of_run reached₁.tableInv calm reaches on open_).2
      rw [scheduler_ticksUsed reached.tableInv taken selected, Int.zero_add] at ticks
      obtain ⟨-, -, below⟩ := counts.quantum (by simp [table₂.state_of_cpu on])
      cases Kernel.Ticked.of_tick ticked with
      | leave inUser killed _ => simp [on, inUser, killed]
      | expire stays usedUp =>
        refine ⟨iff_of_true (by simp [Kernel.yield]) ⟨?_, stays⟩, fun inUser killed => ?_⟩
        · omega
        · exact absurd ⟨inUser, killed⟩ stays
      | charge stays left =>
        refine ⟨iff_of_false (by simp [on]) ?_, fun inUser killed => ?_⟩
        · rintro ⟨last, -⟩
          omega
        · exact absurd ⟨inUser, killed⟩ stays

/-- `init` forks a child, gives it a quantum of one tick, kills it and sleeps. -/
def killedChild : List (Action 1) :=
  [.scheduler 0, .forkAlloc 0, .forkKalloc 0 (some 1), .forkCopyuvm 0 true, .forkParent 0,
    .forkFiles 0, .forkFinish 0, .setquantumPid 0 2 1, .kill 0 2, .sleep 0 .ticks]

/-- The child returns from `forkret` to user mode, and the tick that uses up its quantum finds it
there. -/
theorem killedChild_ticked :
    ∃ k k₁ k₂ : Kernel 1, KernelReachable k ∧ k.step (.scheduler 0) = some k₁ ∧
      k₁.cpu 0 = some 1 ∧ (k₁.proc 1).timeslice = 1 ∧ (k₁.proc 1).killed = true ∧
      k₁.step (.tick 0 true) = some k₂ ∧ k₂.cpu 0 = some 1 := by
  have ran : (run Kernel.step (Kernel.boot 1 0 0) killedChild).bind (fun k =>
      (k.step (.scheduler 0)).bind fun k₁ => (k₁.step (.tick 0 true)).map fun k₂ =>
        (k₁.cpu 0, (k₁.proc 1).timeslice, (k₁.proc 1).killed, k₂.cpu 0)) =
      some (some 1, 1, true, some 1) := by
    decide +kernel
  obtain ⟨k, reaches, later⟩ := Option.bind_eq_some_iff.mp ran
  obtain ⟨k₁, taken, later⟩ := Option.bind_eq_some_iff.mp later
  obtain ⟨k₂, ticked, results⟩ := Option.map_eq_some_iff.mp later
  simp only [Prod.mk.injEq] at results
  obtain ⟨selected, quantum, killed, stays⟩ := results
  exact ⟨k, k₁, k₂, ⟨0, 0, _, reaches⟩, taken, selected, quantum, killed, ticked, stays⟩

/-- `init` keeps its CPU for nine ticks and loses it with the tenth; the killed child goes to
`exit`. -/
theorem quantum_counters_first :
    (∃ k₁ k₂ k₃ : Kernel 1, (Kernel.boot 1 0 0).step (.scheduler 0) = some k₁ ∧
      run Kernel.step k₁ (List.replicate 9 (.tick 0 true)) = some k₂ ∧
      k₂.step (.tick 0 true) = some k₃ ∧ k₃.cpu 0 = none) ∧
    ∃ k₁ k₂ : Kernel 1, (k₁.proc 1).killed = true ∧ k₁.step (.tick 0 true) = some k₂ ∧
      k₂.pc 1 = .exiting 0 true := by
  constructor
  · have ran : ((Kernel.boot 1 0 0).step (.scheduler 0)).bind (fun k₁ =>
        (run Kernel.step k₁ (List.replicate 9 (.tick 0 true))).bind fun k₂ =>
          (k₂.step (.tick 0 true)).map fun _ =>
            (k₁.cpu 0, k₂.cpu 0, (k₂.proc 0).timeslice, (k₂.proc 0).killed,
              decide (AllSteps Kernel.step (InStretch 0 0) k₁
                (List.replicate 9 (.tick 0 true))))) = some (some 0, some 0, 10, false, true) := by
      decide +kernel
    obtain ⟨k₁, taken, later⟩ := Option.bind_eq_some_iff.mp ran
    obtain ⟨k₂, reaches, later⟩ := Option.bind_eq_some_iff.mp later
    obtain ⟨k₃, ticked, results⟩ := Option.map_eq_some_iff.mp later
    simp only [Prod.mk.injEq, decide_eq_true_eq] at results
    obtain ⟨selected, on, quantum, alive, calm⟩ := results
    have reached : KernelReachable (Kernel.boot 1 0 0) := ⟨0, 0, Reachable.refl _⟩
    refine ⟨k₁, k₂, k₃, taken, reaches, ticked, ((quantum_counters reached).2 0 0 _ k₁ k₂ k₃ true
      taken selected calm reaches on ticked).1.mpr ⟨?_, by simp [alive]⟩⟩
    rw [quantum]
    decide
  · obtain ⟨k, k₁, k₂, reached, taken, selected, -, killed, ticked, -⟩ := killedChild_ticked
    exact ⟨k₁, k₂, killed, ticked, (((quantum_counters reached).2 0 1 [] k₁ k₁ k₂ true taken selected
      trivial rfl selected ticked).2 rfl killed).1⟩

/-- The child has used up its quantum, and keeps the CPU. -/
theorem killed_child_not_preempted :
    ∃ k k₁ k₂ : Kernel 1, KernelReachable k ∧ k.step (.scheduler 0) = some k₁ ∧
      k₁.cpu 0 = some 1 ∧ (k₁.proc 1).timeslice = 1 ∧ k₁.step (.tick 0 true) = some k₂ ∧
      k₂.cpu 0 = some 1 := by
  obtain ⟨k, k₁, k₂, reached, taken, selected, quantum, -, ticked, stays⟩ := killedChild_ticked
  exact ⟨k, k₁, k₂, reached, taken, selected, quantum, ticked, stays⟩

/-! ## One CPU -/

/-- The kernel on one CPU with its `ticks`. `since` has the value of `ticks` at which `userinit`
or `fork` made the process of a slot `RUNNABLE`. -/
structure Timed where
  kernel : Kernel 1
  ticks : BitVec 32
  since : Slot → BitVec 32

namespace Timed

/-- A timer interrupt, or anything else that the kernel does. -/
inductive Event where
  | run (action : Action 1)
  | timer (user : Bool)

def boot (stack root : Nat) : Timed where
  kernel := Kernel.boot 1 stack root
  ticks := 0
  since := fun _ => 0

/-- `trap` for the timer. Between its two halves the CPU can do nothing else. -/
def timer (t : Timed) (user : Bool) : Option Timed :=
  (t.kernel.step .clock).bind fun k =>
    match k.cpu 0 with
    | none => some { t with kernel := k, ticks := t.ticks + 1 }
    | some _ =>
      (k.step (.tick 0 user)).map fun k' => { t with kernel := k', ticks := t.ticks + 1 }

def step (t : Timed) : Event → Option Timed
  | .timer user => t.timer user
  | .run action =>
    if action.isTick = true ∨ action = .clock then none
    else (t.kernel.step action).map fun k =>
      { t with
        kernel := k
        since := fun slot =>
          if (t.kernel.proc slot).state = .embryo ∧ (k.proc slot).state = .runnable then t.ticks
          else t.since slot }

end Timed

/-- A process that has been made `RUNNABLE` and has not called `exit`. -/
def InService (k : Kernel ncpu) (slot : Slot) : Prop :=
  (k.proc slot).state.live = true ∧ (k.pc slot).inExit = false

/-- The three counters of ticks, as the words that the kernel adds up. -/
def PStats.times (stats : PStats) : BitVec 32 :=
  BitVec.ofNat 32 stats.cpuTicks + BitVec.ofNat 32 stats.sleepTicks +
    BitVec.ofNat 32 stats.runnableTicks

/-- One tick goes to the counter of the state in which it finds the process. -/
structure ChargedOnce (state : ProcState) (before after : PStats) : Prop where
  live : state.live = true
  cpuTicks : after.cpuTicks = before.cpuTicks + if state = .running then 1 else 0
  sleepTicks : after.sleepTicks = before.sleepTicks + if state = .sleeping then 1 else 0
  runnableTicks : after.runnableTicks = before.runnableTicks + if state = .runnable then 1 else 0

variable {t t' : Timed}

theorem ChargedOnce.times {state : ProcState} {before after : PStats}
    (charged : ChargedOnce state before after) : after.times = before.times + 1 := by
  have live := charged.live
  unfold PStats.times
  rw [charged.cpuTicks, charged.sleepTicks, charged.runnableTicks]
  cases state with
  | running | sleeping | runnable =>
    simp only [reduceCtorEq, if_true, if_false, Nat.add_zero, BitVec.ofNat_add]
    ac_rfl
  | _ => cases live

/-- A process in service after a step was in service before, unless the step made it so. -/
theorem InService.before {k k' : Kernel ncpu} {action : Action ncpu} (step : Step k action k')
    (serves : InService k' slot) (live : (k.proc slot).state.live = true) : InService k slot := by
  refine ⟨live, Bool.eq_false_iff.mpr fun inside => ?_⟩
  have still := (step.pcStep slot).exits serves.1 inside
  rw [serves.2] at still
  cases still

/-- The two halves of the timer interrupt charge a process once. -/
theorem ChargedOnce.of_counted {p : Proc} {stats final : PStats} (counts : Counted p stats)
    (live : p.state.live = true)
    (cpuTicks : final.cpuTicks = stats.cpuTicks + if p.state = .running then 1 else 0)
    (sleepTicks : final.sleepTicks = stats.sleepTicks)
    (runnableTicks : final.runnableTicks = stats.runnableTicks) :
    ChargedOnce p.state p.stats final where
  live := live
  cpuTicks := by rw [cpuTicks, counts.cpuTicks]
  sleepTicks := by rw [sleepTicks, counts.sleepTicks]
  runnableTicks := by rw [runnableTicks, counts.runnableTicks]

theorem Timed.timer_charges {user : Bool} (table : TableInv t.kernel)
    (taken : t.timer user = some t') (serves : InService t'.kernel slot) :
    InService t.kernel slot ∧
      ChargedOnce (wakeup1 t.kernel.proc (some .ticks) slot).state (t.kernel.proc slot).stats
        (t'.kernel.proc slot).stats := by
  obtain ⟨m, clocked, taken⟩ := Option.bind_eq_some_iff.mp taken
  have stepped := Step.of_step clocked
  have tableM := table.step stepped
  have woken := (wakeup1_woken t.kernel.proc (some .ticks) slot).keeps
  obtain ⟨stats, after, counts⟩ : ∃ stats,
      m.proc slot = { wakeup1 t.kernel.proc (some .ticks) slot with stats := stats } ∧
        Counted (wakeup1 t.kernel.proc (some .ticks) slot) stats := by
    cases stepped
    exact updateSleepStats_counted _ slot
  have idle (off : m.cpu 0 ≠ some slot) : (m.proc slot).state ≠ .running := by
    intro runs
    obtain ⟨c, on⟩ := (tableM.running slot).mp runs
    rw [Subsingleton.elim c 0] at on
    exact off on
  rw [← woken.stats]
  suffices halves : InService m slot ∧
      ChargedOnce (wakeup1 t.kernel.proc (some .ticks) slot).state
        (wakeup1 t.kernel.proc (some .ticks) slot).stats (t'.kernel.proc slot).stats from
    ⟨halves.1.before stepped (woken.live.symm.trans halves.2.live), halves.2⟩
  cases on : m.cpu 0 with
  | none =>
    rw [on] at taken
    cases taken
    have waits := idle (by simp [on])
    rw [after] at waits ⊢
    refine ⟨serves, .of_counted counts (by simpa [after] using serves.1) ?_ rfl rfl⟩
    rw [if_neg waits, Nat.add_zero]
  | some p =>
    rw [on] at taken
    obtain ⟨k', ticked, rfl⟩ := Option.map_eq_some_iff.mp taken
    have step := Step.of_step ticked
    cases step.slotStep tableM slot with
    | kept noTick _ _ => cases noTick
    | elsewhere other same =>
      have waits := idle other
      have live : (m.proc slot).state.live = true := same ▸ serves.1
      refine ⟨serves.before step live, ?_⟩
      rw [same]
      rw [after] at waits live ⊢
      refine .of_counted counts live ?_ rfl rfl
      rw [if_neg waits, Nat.add_zero]
    | reaped _ _ gone =>
      have live := serves.1
      rw [gone] at live
      cases live
    | left _ _ _ pc =>
      have out := serves.2
      rw [pc] at out
      cases out
    | charged on' _ _ same | preempted on' _ same =>
      have runs := tableM.state_of_cpu on'
      refine ⟨serves.before step (by rw [runs]; rfl), ?_⟩
      rw [same]
      rw [after] at runs ⊢
      refine .of_counted counts (by rw [runs]; rfl) ?_ rfl rfl
      rw [if_pos runs]
      rfl

structure TimedInv (t : Timed) : Prop where
  table : TableInv t.kernel
  times : ∀ slot, InService t.kernel slot →
    (t.kernel.proc slot).stats.times = t.ticks - t.since slot

theorem TimedInv.timer {user : Bool} (inv : TimedInv t) (taken : t.timer user = some t') :
    TimedInv t' := by
  have charges {slot : Slot} (serves : InService t'.kernel slot) :=
    Timed.timer_charges inv.table taken serves
  obtain ⟨m, clocked, taken⟩ := Option.bind_eq_some_iff.mp taken
  have tableM := inv.table.step (Step.of_step clocked)
  have later : TableInv t'.kernel ∧ t'.ticks = t.ticks + 1 ∧ t'.since = t.since := by
    cases on : m.cpu 0 with
    | none =>
      rw [on] at taken
      cases taken
      exact ⟨tableM, rfl, rfl⟩
    | some p =>
      rw [on] at taken
      obtain ⟨k', ticked, rfl⟩ := Option.map_eq_some_iff.mp taken
      exact ⟨tableM.step (Step.of_step ticked), rfl, rfl⟩
  refine ⟨later.1, fun slot serves => ?_⟩
  obtain ⟨before, charged⟩ := charges serves
  rw [charged.times, inv.times slot before, later.2.1, later.2.2]
  exact BitVec.sub_add_comm ..

/-- Between two timer interrupts nothing is charged, and `fork` starts from zero. -/
theorem TimedInv.run {action : Action 1} {k : Kernel 1} (inv : TimedInv t)
    (noTick : action.isTick = false) (noClock : action ≠ .clock)
    (taken : t.kernel.step action = some k) (serves : InService k slot) :
    (k.proc slot).stats.times = t.ticks -
      if (t.kernel.proc slot).state = .embryo ∧ (k.proc slot).state = .runnable then t.ticks
      else t.since slot := by
  have step := Step.of_step taken
  have live := serves.1
  have kept (alive : (t.kernel.proc slot).state.live = true)
      (same : (k.proc slot).stats.times = (t.kernel.proc slot).stats.times) :
      (k.proc slot).stats.times = t.ticks -
        if (t.kernel.proc slot).state = .embryo ∧ (k.proc slot).state = .runnable then t.ticks
        else t.since slot := by
    rw [same, inv.times slot (serves.before step alive), if_neg]
    rintro ⟨embryo, -⟩
    rw [embryo] at alive
    cases alive
  cases step.slotStep inv.table slot with
  | kept _ keeps _ => exact kept (keeps.live.symm.trans live) (by rw [keeps.stats])
  | selected ready keeps _ => exact kept (by rw [ready]; rfl) (by rw [keeps.stats]; rfl)
  | restarted _ _ _ after => exact kept (by rwa [after] at live) (by rw [after])
  | started on at_ after =>
    have embryo := (inv.table.forking _ _ _ at_).state
    rw [if_pos ⟨embryo, by rw [after]; rfl⟩, after, BitVec.sub_self]
    rfl
  | alloced _ after | reaped _ _ after | exited _ after =>
    rw [after] at live
    cases live
  | counted _ _ _ => exact absurd rfl noClock
  | _ => cases noTick

theorem TimedInv.step {event : Timed.Event} (inv : TimedInv t) (taken : t.step event = some t') :
    TimedInv t' := by
  cases event with
  | timer user => exact inv.timer taken
  | run action =>
    simp only [Timed.step, Option.ite_none_left_eq_some, not_or] at taken
    obtain ⟨⟨noTick, noClock⟩, taken⟩ := taken
    obtain ⟨k, stepped, rfl⟩ := Option.map_eq_some_iff.mp taken
    exact ⟨inv.table.step (Step.of_step stepped),
      fun slot => inv.run (Bool.eq_false_iff.mpr noTick) noClock stepped⟩

theorem TimedInv.boot (stack root : Nat) : TimedInv (Timed.boot stack root) where
  table := TableInv.boot 1 stack root
  times := by
    intro slot serves
    have live := serves.1
    simp only [Timed.boot, Kernel.boot_proc] at live ⊢
    by_cases first : slot = 0
    · rw [if_pos first]
      change PStats.zero.times = 0 - 0
      decide
    · rw [if_neg first] at live
      cases live

/-- On one CPU, the three counters of a process that has not called `exit` add up to the ticks
since it was made `RUNNABLE`. A timer interrupt charges one of them, by the state that `wakeup` on
`ticks` leaves the process in. -/
theorem ticks_charged_once {stack root : Nat} {t : Timed}
    (reached : Reachable Timed.step (Timed.boot stack root) t) :
    (∀ slot, InService t.kernel slot →
      BitVec.ofNat 32 (t.kernel.proc slot).stats.cpuTicks +
          BitVec.ofNat 32 (t.kernel.proc slot).stats.sleepTicks +
          BitVec.ofNat 32 (t.kernel.proc slot).stats.runnableTicks = t.ticks - t.since slot) ∧
    ∀ user t', t.step (.timer user) = some t' → ∀ slot, InService t'.kernel slot →
      ChargedOnce (wakeup1 t.kernel.proc (some .ticks) slot).state (t.kernel.proc slot).stats
        (t'.kernel.proc slot).stats := by
  have inv := reached.invariant TimedInv TimedInv.step (TimedInv.boot stack root)
  exact ⟨inv.times, fun user t' taken slot serves =>
    (Timed.timer_charges inv.table taken serves).2⟩

/-- `init` forks at tick 1, and by tick 2 its child has waited for one tick. -/
theorem ticks_charged_once_child :
    ∃ t : Timed, InService t.kernel 1 ∧ t.ticks = 2 ∧ t.since 1 = 1 ∧
      BitVec.ofNat 32 (t.kernel.proc 1).stats.cpuTicks +
          BitVec.ofNat 32 (t.kernel.proc 1).stats.sleepTicks +
          BitVec.ofNat 32 (t.kernel.proc 1).stats.runnableTicks = t.ticks - t.since 1 := by
  have ran : (run Timed.step (Timed.boot 0 0)
      [.run (.scheduler 0), .timer true, .run (.forkAlloc 0), .run (.forkKalloc 0 (some 1)),
        .run (.forkCopyuvm 0 true), .run (.forkParent 0), .run (.forkFiles 0), .run (.forkFinish 0),
        .timer true]).map (fun t => ((t.kernel.proc 1).state.live, (t.kernel.pc 1).inExit, t.ticks,
          t.since 1)) = some (true, false, 2, 1) := by
    decide +kernel
  obtain ⟨t, reaches, results⟩ := Option.map_eq_some_iff.mp ran
  simp only [Prod.mk.injEq] at results
  obtain ⟨live, outside, ticks, since⟩ := results
  exact ⟨t, ⟨live, outside⟩, ticks, since, (ticks_charged_once ⟨_, reaches⟩).1 1 ⟨live, outside⟩⟩

end Xv6.Process
