import Mathlib

/-!
Runs of a machine given by a partial step function.

Owns: execution of a list of actions and its composition laws; the predicate
that every step of a run meets a side condition; reachability; the invariant
rule for runs; and monitors, which record history beside a machine without
restricting it.

Does not own: any particular machine, its actions, or its invariants.
-/

namespace TransitionSystem

-- Runs on one or two components number them in `Fin 1` and `Fin 2`.
instance neZero_one : NeZero (1 : Nat) := ⟨Nat.one_ne_zero⟩

instance neZero_two : NeZero (2 : Nat) := ⟨Nat.succ_ne_zero 1⟩

universe u v w

variable {State : Type u} {Action : Type v} {Memory : Type w} {state final start : State}
  {action : Action} {rest actions : List Action} {before after : State × Memory}

/-- Execute the actions in order. The run is `none` as soon as one of them is
not enabled. -/
def run (step : State → Action → Option State) : State → List Action → Option State
  | state, [] => some state
  | state, action :: rest => (step state action).bind fun next => run step next rest

/-- Every action of the run is taken in a state that allows it. -/
def AllSteps (step : State → Action → Option State) (allowed : State → Action → Prop) :
    State → List Action → Prop
  | _, [] => True
  | state, action :: rest =>
    allowed state action ∧
      ∀ next, step state action = some next → AllSteps step allowed next rest

instance decidableAllSteps (step : State → Action → Option State)
    (allowed : State → Action → Prop) [decidable : ∀ state action, Decidable (allowed state action)] :
    ∀ state actions, Decidable (AllSteps step allowed state actions)
  | _, [] => isTrue trivial
  | state, action :: rest =>
    match taken : step state action with
    | none => decidable_of_iff (allowed state action) (by simp [AllSteps, taken])
    | some next =>
      have := decidableAllSteps step allowed next rest
      decidable_of_iff (allowed state action ∧ AllSteps step allowed next rest)
        (by simp [AllSteps, taken])

/-- The states some run leads to. -/
def Reachable (step : State → Action → Option State) (start state : State) : Prop :=
  ∃ actions, run step start actions = some state

variable {step : State → Action → Option State} {allowed : State → Action → Prop}

@[simp] theorem run_nil (state : State) : run step state [] = some state := rfl

theorem run_cons :
    run step state (action :: rest) = some final ↔
      ∃ next, step state action = some next ∧ run step next rest = some final := by
  simp only [run, Option.bind_eq_some_iff]

theorem run_append {first second : List Action} :
    run step state (first ++ second) = some final ↔
      ∃ middle, run step state first = some middle ∧ run step middle second = some final := by
  induction first generalizing state with
  | nil => simp
  | cons action rest ih =>
    simp only [List.cons_append, run_cons, ih]
    constructor
    · rintro ⟨next, taken, middle, before, after⟩
      exact ⟨middle, ⟨next, taken, before⟩, after⟩
    · rintro ⟨middle, ⟨next, taken, before⟩, after⟩
      exact ⟨next, taken, middle, before, after⟩

theorem run_singleton : run step state [action] = some final ↔ step state action = some final := by
  simp [run_cons]

theorem run_snoc :
    run step state (actions ++ [action]) = some final ↔
      ∃ middle, run step state actions = some middle ∧ step middle action = some final := by
  simp only [run_append, run_singleton]

/-- What one allowed step preserves, a run of allowed steps preserves. -/
theorem run_invariant_of_allSteps (Invariant : State → Prop)
    (preserved : ∀ {before action after}, Invariant before → allowed before action →
      step before action = some after → Invariant after) (holds : Invariant state)
    (meets : AllSteps step allowed state actions) (reaches : run step state actions = some final) :
    Invariant final := by
  induction actions generalizing state with
  | nil =>
    simp only [run_nil, Option.some.injEq] at reaches
    exact reaches ▸ holds
  | cons action rest ih =>
    obtain ⟨next, taken, later⟩ := run_cons.mp reaches
    exact ih (preserved holds meets.1 taken) (meets.2 next taken) later

theorem allSteps_of_forall (each : ∀ action ∈ actions, ∀ state, allowed state action)
    (state : State) : AllSteps step allowed state actions := by
  induction actions generalizing state with
  | nil => trivial
  | cons action rest ih =>
    refine ⟨each action List.mem_cons_self state, fun next _ => ?_⟩
    exact ih (fun other member => each other (List.mem_cons_of_mem _ member)) next

/-- What one step preserves, a run preserves. -/
theorem run_invariant (Invariant : State → Prop)
    (preserved : ∀ {before action after}, Invariant before →
      step before action = some after → Invariant after) (holds : Invariant state)
    (reaches : run step state actions = some final) : Invariant final :=
  run_invariant_of_allSteps Invariant (fun inv _ taken => preserved inv taken) holds
    (allSteps_of_forall (fun _ _ _ => trivial) state) reaches

theorem Reachable.refl (start : State) : Reachable step start start := ⟨[], rfl⟩

theorem Reachable.of_run {middle : State} (reached : Reachable step start middle)
    (reaches : run step middle actions = some final) : Reachable step start final := by
  obtain ⟨earlier, before⟩ := reached
  exact ⟨earlier ++ actions, run_append.mpr ⟨middle, before, reaches⟩⟩

theorem Reachable.of_step {middle : State} (reached : Reachable step start middle)
    (taken : step middle action = some final) : Reachable step start final :=
  reached.of_run (run_singleton.mpr taken)

theorem Reachable.invariant (Invariant : State → Prop)
    (preserved : ∀ {before action after}, Invariant before →
      step before action = some after → Invariant after) (holds : Invariant start)
    (reached : Reachable step start state) : Invariant state := by
  obtain ⟨actions, reaches⟩ := reached
  exact run_invariant Invariant preserved holds reaches

/-! ## Monitors -/

/-- Run a machine beside a memory that `observe` updates at every step. -/
def watch (step : State → Action → Option State)
    (observe : State → Action → State → Memory → Memory) :
    State × Memory → Action → Option (State × Memory) :=
  fun watched action =>
    (step watched.1 action).map fun next => (next, observe watched.1 action next watched.2)

variable {observe : State → Action → State → Memory → Memory}

theorem watch_eq_some :
    watch step observe before action = some after ↔
      step before.1 action = some after.1 ∧
        after.2 = observe before.1 action after.1 before.2 := by
  obtain ⟨final, memory⟩ := after
  simp only [watch, Option.map_eq_some_iff, Prod.mk.injEq]
  constructor
  · rintro ⟨next, taken, rfl, rfl⟩
    exact ⟨taken, rfl⟩
  · rintro ⟨taken, rfl⟩
    exact ⟨final, taken, rfl, rfl⟩

/-- A step of the machine before a watched run. -/
theorem watch_cons {next : State} {memory : Memory} {final : State × Memory}
    (taken : step state action = some next)
    (later : run (watch step observe) (next, observe state action next memory) rest = some final) :
    run (watch step observe) (state, memory) (action :: rest) = some final :=
  run_cons.mpr ⟨_, watch_eq_some.mpr ⟨taken, rfl⟩, later⟩

/-- A watched run is a run of the machine. -/
theorem run_of_watch (reaches : run (watch step observe) before actions = some after) :
    run step before.1 actions = some after.1 := by
  induction actions generalizing before with
  | nil =>
    simp only [run_nil, Option.some.injEq] at reaches ⊢
    exact congrArg Prod.fst reaches
  | cons action rest ih =>
    obtain ⟨next, taken, later⟩ := run_cons.mp reaches
    exact run_cons.mpr ⟨next.1, (watch_eq_some.mp taken).1, ih later⟩

/-- Every run of the machine is watched: the monitor never blocks. -/
theorem watch_of_run (memory : Memory) (reaches : run step state actions = some final) :
    ∃ seen, run (watch step observe) (state, memory) actions = some (final, seen) := by
  induction actions generalizing state memory with
  | nil =>
    simp only [run_nil, Option.some.injEq] at reaches
    exact ⟨memory, by rw [reaches]; rfl⟩
  | cons action rest ih =>
    obtain ⟨next, taken, later⟩ := run_cons.mp reaches
    obtain ⟨seen, watched⟩ := ih (observe state action next memory) later
    exact ⟨seen, watch_cons taken watched⟩

/-- A watched run that is evaluated up to a view of where it leads. -/
theorem exists_of_view {α β γ : Type*} {reached : Option (α × β)} {Good : α → β → Prop}
    (view : α × β → γ) (value : γ) (evaluated : reached.map view = some value)
    (good : ∀ a b, reached = some (a, b) → view (a, b) = value → Good a b) :
    ∃ a b, reached = some (a, b) ∧ Good a b := by
  obtain ⟨⟨a, b⟩, reaches, same⟩ := Option.map_eq_some_iff.mp evaluated
  exact ⟨a, b, reaches, good a b reaches same⟩

end TransitionSystem
