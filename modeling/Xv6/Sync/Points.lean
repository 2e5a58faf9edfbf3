import Xv6.Sync.Model

/-!
The points of the code.

Owns: what each function holds at each of its points, checked against its code one
instruction at a time; the locks of a CPU and the counter `ncli` that counts them; and the
step of a CPU from one point to the next.

Does not own: what the other CPUs and the processes that do not run are doing
(`Xv6.Sync.Stack`).
-/

namespace Xv6.Sync

open Xv6.Process (Slot ProcState nproc)

variable {ncpu : Nat} {f : Frame} {instr : Instr}

/-! ## The points of the code -/

/-- The locks the CPU holds at a point, as far as the function itself knows. -/
def Frame.needs : Frame → List Lock
  | .client => []
  | .handler => []
  | .sleep _ lk .acquirePtable => [lk]
  | .sleep _ lk .releaseLk => [lk, .ptable]
  | .sleep _ _ .acquireLk => []
  | .sleep _ _ _ => [.ptable]
  | .wakeup _ => []
  | .wakeupLoop _ _ => [.ptable]
  | .wakeup1 _ _ => [.ptable]
  | .yield .acquire => []
  | .yield _ => [.ptable]
  | .exit .dead => []
  | .exit _ => [.ptable]
  | .forkret => [.ptable]
  | .scheduler .acquire => []
  | .scheduler _ => [.ptable]

/-- The value of `ncli` at a point, where it is determined. -/
def Frame.level : Frame → Option Nat
  | .sleep _ _ .clearChan => some 1
  | .sleep _ _ .releasePtable => some 1
  | .sleep _ _ .acquireLk => some 0
  | .scheduler .acquire => some 0
  | .scheduler _ => some 1
  | _ => none

/-- The state a process has given itself before it calls `sched`. -/
def Frame.switching : Frame → Option ProcState
  | .sleep _ _ .sched => some .sleeping
  | .yield .sched => some .runnable
  | .exit .sched => some .zombie
  | _ => none

/-- The points at which a process that is switched to goes on. -/
def Frame.resumes : Frame → Bool
  | .sleep _ _ .clearChan => true
  | .yield .release => true
  | .forkret => true
  | _ => false

def Frame.isScheduler : Frame → Bool
  | .scheduler _ => true
  | _ => false

/-- The exchange of locks is for a lock other than `ptable.lock`. -/
def Frame.Exchanges : Frame → Prop
  | .sleep _ lk .acquirePtable => lk ≠ .ptable
  | .sleep _ lk .releaseLk => lk ≠ .ptable
  | .sleep _ lk .releasePtable => lk ≠ .ptable
  | .sleep _ lk .acquireLk => lk ≠ .ptable
  | _ => True

/-- The points at which interrupts can be enabled. -/
def Frame.Interruptible (f : Frame) : Prop :=
  f.needs = [] ∧ ∀ n, f.level = some n → n = 0

/-- What lies directly under a frame. -/
def Frame.Over : Frame → List Frame → Prop
  | .client, below => below = []
  | .scheduler _, below => below = []
  | .handler, below => ∃ g rest, below = g :: rest ∧ g.Interruptible
  | _, below => ∃ g rest, below = g :: rest ∧ g.isClient = true

def Stacked : List Frame → Prop
  | [] => True
  | f :: rest => f.Exchanges ∧ f.Over rest ∧ Stacked rest

theorem Frame.switching_needs {state : ProcState} (switches : f.switching = some state) :
    Lock.ptable ∈ f.needs := by
  unfold Frame.switching at switches
  split at switches <;> simp_all [Frame.needs]

theorem Frame.Interruptible.switching (open_ : f.Interruptible) : f.switching = none := by
  cases switches : f.switching with
  | none => rfl
  | some state =>
    have member := Frame.switching_needs switches
    simp [open_.1] at member

theorem Frame.isClient_interruptible (client : f.isClient = true) : f.Interruptible := by
  cases f <;> simp_all [Frame.isClient, Frame.Interruptible, Frame.needs, Frame.level]

/-- A function that returns returns to client code. -/
theorem Stacked.below_client {rest : List Frame} (stacked : Stacked (f :: rest))
    (returns : f.code = some (instr, [])) : ∃ g below, rest = g :: below ∧ g.isClient = true := by
  have isOver := stacked.2.1
  cases f with
  | client | handler => simp [Frame.code] at returns
  | scheduler at_ => cases at_ <;> simp [Frame.code] at returns
  | _ => exact isOver

/-! ## Checking the code -/

/-- The locks held after an instruction. -/
def Instr.locksAfter : Instr → List Lock → List Lock
  | .acquire lk, held => lk :: held
  | .release lk, held => held.filter (· ≠ lk)
  | _, held => held

def Instr.levelAfter : Instr → Option Nat → Option Nat
  | .acquire _, level => level.map (· + 1)
  | .release _, level => level.map (· - 1)
  | _, level => level

def Instr.assigns : Instr → Option ProcState
  | .setState state => some state
  | _ => none

/-- The point `g` asks for no more than the instruction gives after the point `f`. -/
structure Follows (instr : Instr) (f g : Frame) : Prop where
  locks : ∀ l ∈ g.needs, l ∈ instr.locksAfter f.needs
  level : ∀ n, g.level = some n → instr.levelAfter f.level = some n
  before : f.switching = none
  after : g.switching = instr.assigns

theorem Follows.of_client {g : Frame} (client : g.isClient = true) (before : f.switching = none)
    (silent : instr.assigns = none) : Follows instr f g where
  locks := by simp [(Frame.isClient_interruptible client).1]
  level := by cases g <;> simp_all [Frame.isClient, Frame.level]
  before := before
  after := by rw [(Frame.isClient_interruptible client).switching, silent]

/-- A function that goes on after an instruction does so at a point the instruction
leads to, over the same stack. -/
theorem Frame.code_follows {g : Frame} {more rest : List Frame}
    (code : f.code = some (instr, g :: more)) (exchanges : f.Exchanges) (isOver : f.Over rest)
    (stays : instr ≠ .sched) : more = [] ∧ Follows instr f g ∧ g.Exchanges ∧ g.Over rest := by
  cases f with
  | client | handler | forkret => simp [Frame.code] at code
  | sleep chan lk at_ =>
    cases at_ with
    | acquireLk => simp [Frame.code] at code
    | sched =>
      cases code
      exact absurd rfl stays
    | clearChan =>
      by_cases same : lk = .ptable
      · simp [Frame.code, same] at code
      · simp only [Frame.code, if_neg same, Option.some.injEq, Prod.mk.injEq,
          List.cons.injEq] at code
        obtain ⟨rfl, rfl, rfl⟩ := code
        exact ⟨rfl, ⟨by simp [needs, Instr.locksAfter], by simp [level, Instr.levelAfter],
          rfl, rfl⟩, same, isOver⟩
    | acquirePtable =>
      cases code
      exact ⟨rfl, ⟨by simp [needs, Instr.locksAfter, or_comm], by simp [level], rfl, rfl⟩,
        exchanges, isOver⟩
    | releaseLk =>
      cases code
      have different : Lock.ptable ≠ lk := Ne.symm exchanges
      exact ⟨rfl, ⟨by simp [needs, Instr.locksAfter, different], by simp [level], rfl, rfl⟩,
        trivial, isOver⟩
    | releasePtable =>
      cases code
      exact ⟨rfl, ⟨by simp [needs], by simp [level, Instr.levelAfter], rfl, rfl⟩, exchanges,
        isOver⟩
    | setChan | setState =>
      cases code
      exact ⟨rfl, ⟨by simp [needs, Instr.locksAfter], by simp [level], rfl, rfl⟩, trivial,
        isOver⟩
  | wakeup chan =>
    cases code
    exact ⟨rfl, ⟨by simp [needs, Instr.locksAfter], by simp [level], rfl, rfl⟩, trivial, isOver⟩
  | wakeupLoop | wakeup1 =>
    simp only [Frame.code] at code
    split at code
    · cases code
      exact ⟨rfl, ⟨by simp [needs, Instr.locksAfter], by simp [level], rfl, rfl⟩, trivial, isOver⟩
    · simp at code
  | yield at_ =>
    cases at_ with
    | release => simp [Frame.code] at code
    | sched =>
      cases code
      exact absurd rfl stays
    | _ =>
      cases code
      exact ⟨rfl, ⟨by simp [needs, Instr.locksAfter], by simp [level], rfl, rfl⟩, trivial,
        isOver⟩
  | exit at_ =>
    cases at_ with
    | dead => simp [Frame.code] at code
    | sched =>
      cases code
      exact absurd rfl stays
    | setState =>
      cases code
      exact ⟨rfl, ⟨by simp [needs, Instr.locksAfter], by simp [level], rfl, rfl⟩, trivial,
        isOver⟩
  | scheduler at_ =>
    cases at_ <;> cases code <;>
      exact ⟨rfl, ⟨by simp [needs, Instr.locksAfter], by simp [level, Instr.levelAfter], rfl,
        rfl⟩, trivial, isOver⟩

/-- The same for a function that returns. -/
theorem Frame.code_returns (code : f.code = some (instr, [])) (stays : instr ≠ .sched) :
    f.switching = none ∧ instr.assigns = none := by
  cases f with
  | client | handler | wakeup => simp [Frame.code] at code
  | forkret =>
    cases code
    exact ⟨rfl, rfl⟩
  | sleep chan lk at_ =>
    cases at_ with
    | clearChan =>
      simp only [Frame.code, Option.some.injEq, Prod.mk.injEq] at code
      rw [← code.1]
      exact ⟨rfl, rfl⟩
    | acquireLk =>
      cases code
      exact ⟨rfl, rfl⟩
    | _ => simp [Frame.code] at code
  | yield at_ =>
    cases at_ <;> cases code
    exact ⟨rfl, rfl⟩
  | exit at_ | scheduler at_ => cases at_ <;> simp [Frame.code] at code
  | wakeupLoop chan i | wakeup1 chan i =>
    simp only [Frame.code] at code
    split at code
    · simp at code
    · cases code
      exact ⟨rfl, rfl⟩

/-- After an instruction other than `sched` the stack is well formed again, and its top
asks for no more than the instruction gives. -/
theorem Executes.follows {a : Action ncpu} {left rest : List Frame}
    (executes : Executes a f instr left) (stacked : Stacked (f :: rest)) (stays : instr ≠ .sched) :
    ∃ g below, left ++ rest = g :: below ∧ Follows instr f g ∧ Stacked (g :: below) := by
  cases executes with
  | acquire client | release client =>
    exact ⟨f, rest, rfl, .of_client client (Frame.isClient_interruptible client).switching rfl,
      stacked⟩
  | code code =>
    cases left with
    | nil =>
      obtain ⟨g, below, rfl, client⟩ := stacked.below_client code
      have silent := Frame.code_returns code stays
      exact ⟨g, below, rfl, .of_client client silent.1 silent.2, stacked.2.2⟩
    | cons g more =>
      obtain ⟨rfl, follows, exchanges, isOver⟩ :=
        Frame.code_follows code stacked.1 stacked.2.1 stays
      exact ⟨g, rest, rfl, follows, exchanges, isOver, stacked.2.2⟩

/-! ## The locks of a CPU -/

variable {m next : Machine ncpu} {c d : Fin ncpu} {instr : Instr} {f g : Frame}

/-- `ncli` counts the locks the CPU holds. -/
def Account (m : Machine ncpu) (c : Fin ncpu) : Prop :=
  ∃ held : Finset Lock, (∀ l, l ∈ held ↔ m.owner l = some c) ∧ m.ncli c = held.card

theorem Account.ncli_ne_zero (account : Account m c) {l : Lock} (holds : m.owner l = some c) :
    m.ncli c ≠ 0 := by
  obtain ⟨held, members, count⟩ := account
  have member := (members l).mpr holds
  rw [count]
  exact Finset.card_ne_zero_of_mem member

theorem Account.eq_of_ncli_one (account : Account m c) (level : m.ncli c = 1) {l other : Lock}
    (holds : m.owner l = some c) (alsoHolds : m.owner other = some c) : l = other := by
  obtain ⟨held, members, count⟩ := account
  have single : held.card ≤ 1 := by omega
  exact Finset.card_le_one.mp single l ((members l).mpr holds) other
    ((members other).mpr alsoHolds)

variable {lk : Lock}

theorem Account.take (account : Account m c) (free : m.owner lk = none) :
    Account (m.take c lk) c := by
  obtain ⟨held, members, count⟩ := account
  have absent : lk ∉ held := by simp [members, free]
  refine ⟨insert lk held, ?_, ?_⟩
  · intro l
    by_cases same : l = lk
    · simp [same, Machine.take]
    · simp [same, Machine.take, members]
  · simp [Machine.take, count, Finset.card_insert_of_notMem absent]

theorem Account.drop (account : Account m c) (holds : m.owner lk = some c) :
    Account (m.drop c lk) c := by
  obtain ⟨held, members, count⟩ := account
  refine ⟨held.erase lk, ?_, ?_⟩
  · intro l
    by_cases same : l = lk
    · simp [same, Machine.drop]
    · simp [same, Machine.drop, members]
  · simp [Machine.drop, count, Finset.card_erase_of_mem ((members lk).mpr holds)]

/-- The locks and the counter of a CPU are the same in two states. -/
def SameLocks (m next : Machine ncpu) (c : Fin ncpu) : Prop :=
  (∀ l, next.owner l = some c ↔ m.owner l = some c) ∧ next.ncli c = m.ncli c

theorem SameLocks.refl (m : Machine ncpu) (c : Fin ncpu) : SameLocks m m c :=
  ⟨fun _ => Iff.rfl, rfl⟩

theorem Account.same (account : Account m c) (same : SameLocks m next c) : Account next c := by
  obtain ⟨held, members, count⟩ := account
  refine ⟨held, ?_, ?_⟩
  · intro l
    rw [members, same.1]
  · rw [same.2, count]

theorem Machine.wake_eq (m : Machine ncpu) (chan : Chan) (q : Slot) :
    m.wake chan q = m ∨
      (m.proc q).state = .sleeping ∧
        m.wake chan q = m.setProc q { m.proc q with state := .runnable } := by
  by_cases asleep : (m.proc q).state = .sleeping ∧ (m.proc q).chan = chan
  · exact .inr ⟨asleep.1, by rw [Machine.wake, if_pos asleep]⟩
  · apply Or.inl
    rw [Machine.wake, if_neg asleep, Machine.setProc, Function.update_eq_self]

theorem Machine.wake_sameLocks (m : Machine ncpu) (chan : Chan) (q : Slot) (c : Fin ncpu) :
    SameLocks m (m.wake chan q) c := by
  rcases m.wake_eq chan q with same | ⟨-, same⟩ <;> rw [same] <;> exact .refl m c

theorem Effect.other (effect : Effect m c instr next) (different : d ≠ c) :
    SameLocks m next d := by
  cases effect with
  | @acquire lk free =>
    constructor
    · intro l
      by_cases same : l = lk
      · simp [Machine.take, same, free, different.symm]
      · simp [Machine.take, same]
    · simp [Machine.take, different]
  | @release lk holds =>
    constructor
    · intro l
      by_cases same : l = lk
      · simp [Machine.drop, same, holds, different.symm]
      · simp [Machine.drop, same]
    · simp [Machine.drop, different]
  | wake chan q => exact m.wake_sameLocks chan q d
  | setChan | setState | sched | skip => exact .refl m d

theorem Effect.account (effect : Effect m c instr next) (account : ∀ d, Account m d)
    (d : Fin ncpu) : Account next d := by
  by_cases same : d = c
  · subst same
    cases effect with
    | acquire free => exact (account d).take free
    | release holds => exact (account d).drop holds
    | wake chan q => exact (account d).same (m.wake_sameLocks chan q d)
    | setChan | setState | sched | skip => exact (account d).same (.refl m d)
  · exact (account d).same (effect.other same)

/-! ## The point a CPU is at -/

structure At (m : Machine ncpu) (c : Fin ncpu) (f : Frame) : Prop where
  locks : ∀ l ∈ f.needs, m.owner l = some c
  level : ∀ n, f.level = some n → m.ncli c = n
  state : ∀ p, m.running c = some p → (m.proc p).state = f.switching.getD .running

theorem At.state_running (here : At m c f) (calm : f.switching = none) {p : Slot}
    (on : m.running c = some p) : (m.proc p).state = .running := by
  rw [here.state p on, calm, Option.getD_none]

/-- Nothing is asked for at a point where interrupts are enabled. -/
theorem At.of_interruptible (open_ : f.Interruptible) (enabled : m.ncli c = 0)
    (runs : ∀ p, m.running c = some p → (m.proc p).state = .running) : At m c f where
  locks := by simp [open_.1]
  level n level := by rw [enabled, open_.2 n level]
  state p on := by rw [runs p on, open_.switching, Option.getD_none]

/-- A CPU with interrupts enabled is at such a point. -/
theorem At.interruptible (here : At m c f) (account : Account m c) (enabled : m.ncli c = 0) :
    f.Interruptible := by
  constructor
  · apply List.eq_nil_iff_forall_not_mem.mpr
    intro l member
    exact account.ncli_ne_zero (here.locks l member) enabled
  · intro n level
    rw [← here.level n level, enabled]

theorem At.setFrames (here : At m c f) (t : Thread ncpu) (frames : List Frame) :
    At (m.setFrames t frames) c f :=
  ⟨here.locks, here.level, here.state⟩

theorem At.same (here : At m c f) (locks : SameLocks m next c)
    (on : next.running c = m.running c)
    (states : ∀ p, m.running c = some p → (next.proc p).state = (m.proc p).state) :
    At next c f where
  locks l member := (locks.1 l).mpr (here.locks l member)
  level n level := by rw [locks.2, here.level n level]
  state p runs := by
    rw [on] at runs
    rw [states p runs, here.state p runs]

theorem Machine.wake_state_of_ne {chan : Chan} {q p : Slot}
    (awake : (m.proc p).state ≠ .sleeping ∨ p ≠ q) :
    ((m.wake chan q).proc p).state = (m.proc p).state := by
  rcases m.wake_eq chan q with same | ⟨asleep, same⟩
  · rw [same]
  · rw [same]
    have different : p ≠ q := by
      intro equal
      subst equal
      exact awake.elim (fun awake => awake asleep) (fun different => different rfl)
    simp [Machine.setProc, different]

theorem Machine.wake_running (m : Machine ncpu) (chan : Chan) (q : Slot) :
    (m.wake chan q).running = m.running := by
  rcases m.wake_eq chan q with same | ⟨-, same⟩
  · rw [same]
  · rw [same]
    rfl

/-- The step lemma for the CPU that executes: one instruction takes it from a point to
the next. -/
theorem Follows.at_ (follows : Follows instr f g) (here : At m c f)
    (effect : Effect m c instr next) (stays : instr ≠ .sched) : At next c g := by
  have running : ∀ p, m.running c = some p → (m.proc p).state = .running := fun p on =>
    here.state_running follows.before on
  have after := follows.after
  constructor
  · intro l member
    have kept := follows.locks l member
    cases effect with
    | @acquire lk free =>
      by_cases same : l = lk
      · simp [Machine.take, same]
      · simp only [Instr.locksAfter, List.mem_cons, same, false_or] at kept
        simp [Machine.take, same, here.locks l kept]
    | @release lk holds =>
      simp only [Instr.locksAfter, List.mem_filter, decide_eq_true_eq] at kept
      simp [Machine.drop, kept.2, here.locks l kept.1]
    | wake chan q => exact ((m.wake_sameLocks chan q c).1 l).mpr (here.locks l kept)
    | setChan | setState | skip => exact here.locks l kept
    | sched => exact absurd rfl stays
  · intro n level
    have counted := follows.level n level
    cases effect with
    | acquire free =>
      obtain ⟨k, levelBefore, rfl⟩ := Option.map_eq_some_iff.mp counted
      simp [Machine.take, here.level k levelBefore]
    | release holds =>
      obtain ⟨k, levelBefore, rfl⟩ := Option.map_eq_some_iff.mp counted
      simp [Machine.drop, here.level k levelBefore]
    | wake chan q => rw [(m.wake_sameLocks chan q c).2, here.level n counted]
    | setChan | setState | skip => exact here.level n counted
    | sched => exact absurd rfl stays
  · intro p on
    rw [after]
    cases effect with
    | acquire | release | skip => exact running p on
    | wake chan q =>
      rw [m.wake_running] at on
      rw [Machine.wake_state_of_ne (.inl (by simp [running p on])), running p on]
      rfl
    | @setChan q chan runs =>
      have same : q = p := Option.some.inj (runs.symm.trans on)
      subst same
      simp [Machine.setProc, Instr.assigns, running q runs]
    | @setState q state runs =>
      have same : q = p := Option.some.inj (runs.symm.trans on)
      subst same
      simp [Machine.setProc, Instr.assigns]
    | sched => exact absurd rfl stays

end Xv6.Sync
