import Xv6.Process.Frame

/-!
The time quantum.

Owns: how many timer ticks a process can receive between its selection and the
moment it gives the CPU back, and the exact condition on `setquantum_pid` under
which that number stays within the largest quantum.

Does not own: the order of selections (`Xv6.Sched.RoundRobin`).

The measure is what is left of the quantum. Ticks received plus ticks left never
grow on a CPU, except when `setquantum_pid` restarts the quantum of a process that
is running.
-/

namespace Xv6.Process

open TransitionSystem
open Function (update_self update_of_ne)

variable {ncpu : Nat}

/-- The largest quantum `setquantum_pid` accepts. -/
def maxQuantum : Nat := 100

/-- Ticks received on each CPU since the last selection there. -/
def observeTicks (before : Kernel ncpu) (action : Action ncpu) (_after : Kernel ncpu)
    (since : Fin ncpu → Nat) : Fin ncpu → Nat :=
  match action with
  | .scheduler c =>
    match schedulerSearch before.proc before.rrNext with
    | some _ => Function.update since c 0
    | none => since
  | .tick c _ => Function.update since c (since c + 1)
  | _ => since

def Kernel.watchTicks :
    Kernel ncpu × (Fin ncpu → Nat) → Action ncpu → Option (Kernel ncpu × (Fin ncpu → Nat)) :=
  watch Kernel.step observeTicks

/-- The quantum that a successful `setquantum_pid` gives to a process on a CPU fits
into what the largest quantum leaves after the ticks already received. -/
def QuantumFits (watched : Kernel ncpu × (Fin ncpu → Nat)) : Action ncpu → Prop
  | .setquantumPid _ pid quantum =>
    (setquantumPid watched.1.proc pid quantum).2 = 0 →
      ∀ c p, watched.1.cpu c = some p → (watched.1.proc p).pid = pid →
        (watched.1.pc p).interruptible = true → watched.2 c + quantum ≤ maxQuantum
  | _ => True

instance (watched : Kernel ncpu × (Fin ncpu → Nat)) : DecidablePred (QuantumFits watched) := by
  rintro ⟨⟩ <;> unfold QuantumFits <;> infer_instance

structure QuantumInv (k : Kernel ncpu) (since : Fin ncpu → Nat) : Prop where
  quantum : ∀ slot, (k.proc slot).state ≠ .unused →
    1 ≤ (k.proc slot).timeslice ∧ (k.proc slot).timeslice ≤ maxQuantum
  bound : ∀ c, since c ≤ maxQuantum
  left : ∀ c p, k.cpu c = some p → (k.pc p).interruptible = true →
    (k.proc p).ticksUsed < (k.proc p).timeslice ∧
      since c + ((k.proc p).timeslice - (k.proc p).ticksUsed) ≤ maxQuantum

/-! ## Steps that leave every quantum alone -/

structure SameQuantum (k k' : Kernel ncpu) : Prop where
  slot : ∀ slot, (k'.proc slot).state ≠ .unused →
    (k.proc slot).state ≠ .unused ∧ (k'.proc slot).timeslice = (k.proc slot).timeslice
  onCpu : ∀ c p, k'.cpu c = some p → k.cpu c = some p ∧
    (k'.proc p).ticksUsed = (k.proc p).ticksUsed ∧
    ((k'.pc p).interruptible = true → (k.pc p).interruptible = true)

section Same

variable {k k' : Kernel ncpu} {c : Fin ncpu} {p : Slot} {since : Fin ncpu → Nat}
  {action : Action ncpu}

theorem QuantumInv.of_same (inv : QuantumInv k since) (table : TableInv k')
    (same : SameQuantum k k') : QuantumInv k' since where
  quantum := by
    intro slot used
    rw [(same.slot slot used).2]
    exact inv.quantum slot (same.slot slot used).1
  bound := inv.bound
  left := by
    intro c p on interruptible
    obtain ⟨before, ticks, open_⟩ := same.onCpu c p on
    have used := ProcState.live_ne_unused (table.live_of_cpu on)
    rw [ticks, (same.slot p used).2]
    exact inv.left c p before (open_ interruptible)

/-- The actions that leave every quantum and every count of ticks alone. -/
def Action.quiet : Action ncpu → Bool
  | .scheduler _ => false
  | .tick _ _ => false
  | .setquantumPid _ _ _ => false
  | .forkAlloc _ => false
  | .forkFinish _ => false
  | _ => true

theorem Step.sameQuantum (step : Step k action k') (table : TableInv k)
    (quiet : action.quiet = true) : SameQuantum k k' where
  slot := by
    intro slot used
    cases step.slotStep table slot with
    | kept _ keeps _ => exact ⟨keeps.used used, keeps.timeslice⟩
    | counted woken _ after =>
      rw [after] at used ⊢
      exact ⟨woken.keeps.used used, woken.keeps.timeslice⟩
    | reaped _ _ after =>
      rw [after] at used
      exact absurd rfl used
    | exited on after =>
      rw [after]
      exact ⟨ProcState.live_ne_unused (table.live_of_cpu on), rfl⟩
    | _ => cases quiet
  onCpu := by
    intro c p on
    have before := step.cpu_of_cpu (by rintro rfl; cases quiet) on
    have after := table.step step
    have runs := after.state_of_cpu on
    refine ⟨before, ?_, (step.pcStep p).open_ (after.live_of_cpu on)⟩
    cases step.slotStep table p with
    | kept _ keeps _ => exact keeps.ticksUsed.resolve_right fun reset => reset.2 runs
    | counted woken _ after =>
      rw [after, woken.eq_of_not_sleeping (by simp [table.state_of_cpu before])]
    | reaped _ _ after | exited _ after =>
      rw [after] at runs
      cases runs
    | _ => cases quiet

end Same

/-! ## The steps that touch a quantum -/

/-- The timer ticks of an action on CPU `c`. -/
def Action.ticksOn (c : Fin ncpu) : Action ncpu → Nat
  | .tick c' _ => if c' = c then 1 else 0
  | _ => 0

/-- What a step does to the quantum of a process that keeps its CPU and can be interrupted. -/
inductive HeldStep (k k' : Kernel ncpu) (c : Fin ncpu) (p : Slot) : Action ncpu → Prop where
  | ticks {action} (timeslice : (k'.proc p).timeslice = (k.proc p).timeslice)
      (ticksUsed : (k'.proc p).ticksUsed = (k.proc p).ticksUsed + action.ticksOn c)
      (left : action.ticksOn c = 0 ∨ (k'.proc p).ticksUsed < (k'.proc p).timeslice) :
      HeldStep k k' c p action
  | sets {c' pid quantum} (holds : (k.proc p).pid = pid)
      (range : 1 ≤ quantum ∧ quantum ≤ 100) (succeeds : (setquantumPid k.proc pid quantum).2 = 0)
      (timeslice : (k'.proc p).timeslice = quantum) (ticksUsed : (k'.proc p).ticksUsed = 0) :
      HeldStep k k' c p (.setquantumPid c' pid quantum)

section Steps

variable {k k' : Kernel ncpu} {c : Fin ncpu} {p : Slot} {since : Fin ncpu → Nat}
  {action : Action ncpu}

theorem Step.held (step : Step k action k') (table : TableInv k) (on : k.cpu c = some p)
    (stays : k'.cpu c = some p) (open_ : (k'.pc p).interruptible = true) :
    HeldStep k k' c p action := by
  have runs := table.state_of_cpu on
  have stillRuns := (table.step step).state_of_cpu stays
  have untouched {act : Action ncpu} (none_ : act.ticksOn c = 0) (after : k'.proc p = k.proc p) :
      HeldStep k k' c p act :=
    .ticks (by rw [after]) (by rw [after, none_]; exact (Int.add_zero _).symm) (.inl none_)
  cases step.slotStep table p with
  | kept noTick keeps _ =>
    have none_ : action.ticksOn c = 0 := by
      cases action with
      | tick _ _ => cases noTick
      | _ => rfl
    have same := keeps.ticksUsed.resolve_right fun reset => reset.2 stillRuns
    exact .ticks keeps.timeslice (by rw [same, none_]; exact (Int.add_zero _).symm) (.inl none_)
  | @elsewhere c' _ other after =>
    refine untouched (if_neg ?_) after
    rintro rfl
    exact other on
  | counted woken _ after =>
    refine .ticks ?_ ?_ (.inl rfl) <;> rw [after, woken.eq_of_not_sleeping (by simp [runs])]
    exact (Int.add_zero _).symm
  | restarted range holds succeeds after =>
    exact .sets holds range succeeds (by rw [after]) (by rw [after])
  | charged on' _ left after =>
    obtain rfl := table.oneCpu _ _ p on on'
    refine .ticks ?_ ?_ (.inr ?_) <;> rw [after]
    · rfl
    · simp [Process.charged, Action.ticksOn]
    · exact left
  | left _ _ _ pc =>
    rw [pc] at open_
    cases open_
  | alloced free _ => cases free.symm.trans runs
  | reaped dead _ _ => cases dead.symm.trans runs
  | selected ready _ _ => cases ready.symm.trans runs
  | started _ _ after | preempted _ _ after | exited _ after =>
    rw [after] at stillRuns
    cases stillRuns

/-- `scheduler` selects a process with its whole quantum. -/
theorem scheduler_ticksUsed (table : TableInv k) (taken : k.step (.scheduler c) = some k')
    (on : k'.cpu c = some p) : (k'.proc p).ticksUsed = 0 := by
  have step := Step.of_step taken
  have runs := (table.step step).state_of_cpu on
  have idle : k.cpu c = none := by
    cases step
    assumption
  cases step.slotStep table p with
  | selected _ keeps _ => exact keeps.ticksUsed.elim id And.left
  | kept _ keeps _ =>
    -- a process that runs already has another CPU, and keeps it
    obtain ⟨c', on'⟩ := (table.running p).mp (keeps.running runs)
    have different : c' ≠ c := by
      rintro rfl
      rw [idle] at on'
      cases on'
    have stays : k'.cpu c' = some p := by
      cases step
      rw [Kernel.scheduler_cpu different]
      exact on'
    exact absurd ((table.step step).oneCpu c' c p stays on) different
  | reaped _ _ after =>
    rw [after] at runs
    cases runs

theorem observeTicks_eq (other : action ≠ .scheduler c) :
    observeTicks k action k' since c = since c + action.ticksOn c := by
  cases action with
  | scheduler c' =>
    have different : c ≠ c' := fun same => other (by rw [same])
    cases searched : schedulerSearch k.proc k.rrNext with
    | none => simp [observeTicks, searched, Action.ticksOn]
    | some q => simp [observeTicks, searched, Action.ticksOn, update_of_ne different]
  | tick c' user =>
    simp only [observeTicks, Action.ticksOn]
    split
    · rename_i same
      rw [same, update_self]
    · rename_i different
      exact update_of_ne (Ne.symm different) _ _
  | _ => rfl

theorem observeTicks_turn (taken : k.step (.scheduler c) = some k') (on : k'.cpu c = some p) :
    observeTicks k (.scheduler c) k' since c = 0 := by
  cases Step.of_step taken with
  | scheduler idle =>
    cases searched : schedulerSearch k.proc k.rrNext with
    | none => simp [Kernel.scheduler, searched, idle] at on
    | some q => simp [observeTicks, searched]

theorem QuantumInv.quantum_step (inv : QuantumInv k since) (table : TableInv k)
    (step : Step k action k') {slot : Slot} (used : (k'.proc slot).state ≠ .unused) :
    1 ≤ (k'.proc slot).timeslice ∧ (k'.proc slot).timeslice ≤ maxQuantum := by
  have running {c : Fin ncpu} (on : k.cpu c = some slot) :=
    inv.quantum slot (ProcState.live_ne_unused (table.live_of_cpu on))
  cases step.slotStep table slot with
  | kept _ keeps _ =>
    rw [keeps.timeslice]
    exact inv.quantum slot (keeps.used used)
  | selected ready keeps _ =>
    rw [keeps.timeslice]
    exact inv.quantum slot (by simp [ready])
  | counted woken _ after =>
    rw [after] at used ⊢
    rw [woken.keeps.timeslice]
    exact inv.quantum slot (woken.keeps.used used)
  | elsewhere _ after =>
    rw [after] at used ⊢
    exact inv.quantum slot used
  | reaped _ _ after =>
    rw [after] at used
    exact absurd rfl used
  | restarted range _ _ after =>
    rw [after]
    exact range
  | alloced _ after | started _ _ after =>
    rw [after]
    change 1 ≤ defaultQuantum ∧ defaultQuantum ≤ maxQuantum
    decide
  | charged on _ _ after | preempted on _ after | left on _ after _ | exited on after =>
    rw [after]
    exact running on

theorem QuantumInv.step (inv : QuantumInv k since) (table : TableInv k)
    (fits : QuantumFits (k, since) action) (taken : k.step action = some k') :
    QuantumInv k' (observeTicks k action k' since) := by
  have step := Step.of_step taken
  have after := table.step step
  by_cases quiet : action.quiet = true
  · have unseen : observeTicks k action k' since = since := by
      cases action <;> first | rfl | cases quiet
    rw [unseen]
    exact inv.of_same after (step.sameQuantum table quiet)
  refine ⟨fun slot used => inv.quantum_step table step used, ?_, ?_⟩
  · intro c
    by_cases turn : action = .scheduler c
    · subst turn
      cases searched : schedulerSearch k.proc k.rrNext with
      | none => simpa [observeTicks, searched] using inv.bound c
      | some q => simp [observeTicks, searched]
    · rw [observeTicks_eq turn]
      cases step with
      | @tick _ c' p user on open_ _ _ =>
        have left := inv.left c' p on open_
        have bound := inv.bound c
        simp only [Action.ticksOn]
        split
        · rename_i same
          rw [← same]
          omega
        · exact bound
      | _ => exact inv.bound c
  · intro c p on open_
    by_cases turn : action = .scheduler c
    · subst turn
      rw [observeTicks_turn taken on, scheduler_ticksUsed table taken on]
      have range := inv.quantum_step table step (ProcState.live_ne_unused (after.live_of_cpu on))
      omega
    · have before := step.cpu_of_cpu turn on
      have wasOpen := (step.pcStep p).open_ (after.live_of_cpu on) open_
      obtain ⟨below, budget⟩ := inv.left c p before wasOpen
      rw [observeTicks_eq turn]
      cases step.held table before on open_ with
      | ticks timeslice ticksUsed left =>
        rw [timeslice] at left ⊢
        omega
      | sets holds range succeeds timeslice ticksUsed =>
        have room : (since c : Int) + _ ≤ maxQuantum := fits succeeds c p before holds wasOpen
        rw [timeslice, ticksUsed]
        simp only [Action.ticksOn]
        omega

theorem QuantumInv.boot (ncpu stack root : Nat) :
    QuantumInv (Kernel.boot ncpu stack root) (fun _ => 0) where
  quantum := by
    intro slot used
    rw [Kernel.boot_proc] at used ⊢
    by_cases first : slot = 0
    · simp [first, initcode, embryoOf, defaultQuantum, maxQuantum]
    · simp [first, Proc.zero] at used
  bound := fun _ => Nat.zero_le _
  left := by
    intro c p on
    simp [Kernel.boot] at on

end Steps

/-! ## Runs -/

section Runs

variable {k : Kernel ncpu} {c : Fin ncpu} {p : Slot} {since : Fin ncpu → Nat}

theorem quantumInv_of_run {stack root : Nat} {actions : List (Action ncpu)}
    (meets : AllSteps Kernel.watchTicks QuantumFits
      (Kernel.boot ncpu stack root, fun _ => 0) actions)
    (reaches : run Kernel.watchTicks
      (Kernel.boot ncpu stack root, fun _ => 0) actions = some (k, since)) :
    QuantumInv k since := by
  refine (run_invariant_of_allSteps
    (fun watched => TableInv watched.1 ∧ QuantumInv watched.1 watched.2) ?_
    ⟨TableInv.boot ncpu stack root, QuantumInv.boot ncpu stack root⟩ meets reaches).2
  intro before action after inv fits taken
  obtain ⟨stepped, observed⟩ := watch_eq_some.mp taken
  rw [observed]
  exact ⟨inv.1.step (Step.of_step stepped), inv.2.step inv.1 fits stepped⟩

/-- A tick in the kernel is charged, and the process goes on if its quantum allows. -/
theorem step_tick (on : k.cpu c = some p) (open_ : (k.pc p).interruptible = true) :
    k.step (.tick c false) =
      some (if (k.proc p).ticksUsed + 1 ≥ (k.proc p).timeslice then
        (k.setProc p (preempted (charged (k.proc p)))).yield c p
      else k.setProc p (charged (k.proc p))) := by
  simp only [Kernel.step, on, Option.bind_some, open_, Bool.false_eq_true, false_implies,
    and_self, if_true, Kernel.tick, false_and, if_false]
  rw [apply_ite some]
  rfl

/-- The ticks left in a quantum can all arrive. -/
theorem run_ticks (on : k.cpu c = some p) (open_ : (k.pc p).interruptible = true) {count : Nat}
    (left : (k.proc p).ticksUsed + count ≤ (k.proc p).timeslice) :
    ∃ final, run Kernel.watchTicks (k, since)
        (List.replicate count (.tick c false)) = some final ∧ final.2 c = since c + count := by
  induction count generalizing k since with
  | zero => exact ⟨(k, since), rfl, rfl⟩
  | succ count ih =>
    rw [List.replicate_succ]
    have ticked := step_tick on open_
    by_cases expired : (k.proc p).ticksUsed + 1 ≥ (k.proc p).timeslice
    · -- The last tick of the quantum: nothing is left to arrive.
      have last : count = 0 := by omega
      subst last
      rw [if_pos expired] at ticked
      refine ⟨_, watch_cons ticked rfl, ?_⟩
      simp [observeTicks]
    · rw [if_neg expired] at ticked
      have atP : (k.setProc p (charged (k.proc p))).proc p = charged (k.proc p) :=
        update_self _ _ _
      have room : ((k.setProc p (charged (k.proc p))).proc p).ticksUsed + count ≤
          ((k.setProc p (charged (k.proc p))).proc p).timeslice := by
        rw [atP]
        simp only [charged]
        omega
      have onStill : (k.setProc p (charged (k.proc p))).cpu c = some p := on
      obtain ⟨final, reaches, received⟩ := ih onStill open_ room
      refine ⟨final, watch_cons ticked reaches, ?_⟩
      rw [received]
      simp only [observeTicks, update_self]
      omega

/-- Restarting the quantum of a running process beyond what is left of the largest one
lets it receive too many ticks. -/
theorem run_excess (table : TableInv k) {pid quantum : Int} {k' : Kernel ncpu}
    (taken : k.step (.setquantumPid c pid quantum) = some k')
    (excess : ¬QuantumFits (k, since) (.setquantumPid c pid quantum)) :
    ∃ c' count final, run Kernel.watchTicks (k', since)
        (List.replicate count (.tick c' false)) = some final ∧ maxQuantum < final.2 c' := by
  have after : k' = { k with proc := (setquantumPid k.proc pid quantum).1 } := by
    cases Step.of_step taken
    rfl
  simp only [QuantumFits] at excess
  push Not at excess
  obtain ⟨succeeded, c', p, on, holds, open_, tooMany⟩ := excess
  rcases setquantumPid_cases k.proc pid quantum with
    refused | ⟨found, range, foundHolds, used, changed⟩
  · rw [refused] at succeeded
    simp at succeeded
  · have alive := ProcState.live_ne_unused (table.live_of_cpu on)
    have isFound : found = p := table.pidDistinct found p used alive (foundHolds.trans holds.symm)
    subst isFound
    rw [changed] at after
    have atFound : k'.proc found = { k.proc found with timeslice := quantum, ticksUsed := 0 } := by
      rw [after]
      exact update_self _ _ _
    have onStill : k'.cpu c' = some found := by
      rw [after]
      exact on
    have openStill : (k'.pc found).interruptible = true := by
      rw [after]
      exact open_
    have left : (k'.proc found).ticksUsed + quantum.toNat ≤ (k'.proc found).timeslice := by
      rw [atFound]
      simp only
      omega
    obtain ⟨final, reaches, received⟩ := run_ticks onStill openStill left
    exact ⟨c', quantum.toNat, final, reaches, by rw [received]; omega⟩

end Runs

/-- In a run whose `setquantum_pid` calls all fit, no process receives more than 100 ticks
between its selection and the moment it gives the CPU back; and after a call that does
not fit, ticks alone make it receive more. -/
theorem cpu_ticks_bounded (ncpu : Nat) :
    (∀ stack root actions (k : Kernel ncpu) since,
      AllSteps Kernel.watchTicks QuantumFits
        (Kernel.boot ncpu stack root, fun _ => 0) actions →
      run Kernel.watchTicks (Kernel.boot ncpu stack root, fun _ => 0) actions =
        some (k, since) →
      ∀ c, since c ≤ 100) ∧
    ∀ stack root actions (k k' : Kernel ncpu) since c pid quantum,
      run Kernel.watchTicks (Kernel.boot ncpu stack root, fun _ => 0) actions =
        some (k, since) →
      k.step (.setquantumPid c pid quantum) = some k' →
      ¬QuantumFits (k, since) (.setquantumPid c pid quantum) →
      ∃ c' count final, run Kernel.watchTicks (k', since)
        (List.replicate count (.tick c' false)) = some final ∧ 100 < final.2 c' := by
  constructor
  · intro stack root actions k since meets reaches
    exact (quantumInv_of_run meets reaches).bound
  · intro stack root actions k k' since c pid quantum reaches taken excess
    have reached : KernelReachable k := ⟨stack, root, actions, run_of_watch reaches⟩
    exact run_excess reached.tableInv taken excess

/-- `init` is selected, receives 9 ticks and gives itself a quantum of 100; after 99 more
ticks it still has the CPU. -/
theorem setquantum_extends_quantum :
    ∃ k since, run Kernel.watchTicks (Kernel.boot 1 0 0, fun _ => 0)
        (.scheduler 0 :: List.replicate 9 (.tick 0 true) ++
          .setquantumPid 0 1 100 :: List.replicate 99 (.tick 0 true)) = some (k, since) ∧
      k.cpu 0 = some 0 ∧ since 0 = 108 := by
  refine exists_of_view (fun watched => (watched.1.cpu 0, watched.2 0)) (some 0, 108)
    (by decide +kernel) fun k since _ same => ?_
  exact Prod.mk.inj same

/-- After 5 ticks `init` gives itself a quantum of 50, and receives 55. -/
theorem cpu_ticks_bounded_raised :
    ∃ k since, run Kernel.watchTicks (Kernel.boot 1 0 0, fun _ => 0)
        (.scheduler 0 :: List.replicate 5 (.tick 0 true) ++
          .setquantumPid 0 1 50 :: List.replicate 50 (.tick 0 true)) = some (k, since) ∧
      since 0 = 55 ∧ since 0 ≤ 100 := by
  refine exists_of_view (fun watched => watched.2 0) 55 (by decide +kernel)
    fun k since reaches same => ⟨same, (cpu_ticks_bounded 1).1 0 0 _ k since ?_ reaches 0⟩
  decide +kernel

end Xv6.Process
