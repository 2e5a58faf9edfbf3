import Xv6.Sync.Stack

/-!
The history of `sleep` and `wakeup`.

Owns: the history of a run, which notes who acquired a lock last, what each process last
called `sleep` for and whether a `wakeup` has answered that call; the invariant that ties
it to the machine; and what one step changes of the machine and of the history.

Does not own: that every step keeps the invariant (`Xv6.Sync.Wakeup`); the locks and the
stacks (`Xv6.Sync.Points`, `Xv6.Sync.Stack`).
-/

namespace Xv6.Sync

open Function (update_self update_of_ne)

open Xv6.Process (Slot ProcState nproc)
open TransitionSystem

variable {ncpu : Nat}

/-! ## History -/

/-- A call of `sleep`, with the time at which the caller acquired the lock it passes. -/
structure Call where
  chan : Chan
  lk : Lock
  since : Nat
deriving DecidableEq, Repr

structure History (ncpu : Nat) where
  clock : Nat
  /-- When a thread last acquired a lock. -/
  acquired : Thread ncpu → Lock → Nat
  /-- The last call of `sleep` of a process. -/
  call : Slot → Option Call
  /-- A `wakeup` or `wakeup1` that the last call must not miss has returned. -/
  woken : Slot → Bool

/-- A `wakeup` of `chan` by thread `t` must not be missed by the call: `t` acquired the
call's lock after the caller did. `ptable.lock` is held by every `wakeup1`. -/
def Call.answeredBy (call : Call) (h : History ncpu) (t : Thread ncpu) (chan : Chan) : Bool :=
  decide (call.chan = chan ∧ (call.lk = .ptable ∨ call.since < h.acquired t call.lk))

inductive Event where
  | sleep (p : Slot) (chan : Chan) (lk : Lock)
  /-- `wakeup` or `wakeup1` returns. -/
  | wakeup (chan : Chan)
deriving DecidableEq, Repr

/-- The number of slots that a `wakeup` or `wakeup1` has looked at. -/
def Frame.sweeps : Frame → Option (Chan × Nat)
  | .wakeupLoop chan i => some (chan, i)
  | .wakeup1 chan i => some (chan, i)
  | _ => none

/-- What an action is in the eyes of the history. -/
def Machine.event (m : Machine ncpu) : Action ncpu → Option Event
  | .op c (.sleep chan lk) => (m.running c).map fun p => .sleep p chan lk
  | .run c =>
    ((m.frames (m.thread c)).head?.bind Frame.sweeps).bind fun (chan, i) =>
      if i < nproc then none else some (.wakeup chan)
  | _ => none

def observe (before : Machine ncpu) (a : Action ncpu) (after : Machine ncpu)
    (h : History ncpu) : History ncpu where
  clock := h.clock + 1
  acquired t l :=
    if t = before.thread a.cpu ∧ before.owner l = none ∧ after.owner l = some a.cpu then
      h.clock + 1
    else h.acquired t l
  call :=
    match before.event a with
    | some (.sleep p chan lk) =>
      Function.update h.call p (some ⟨chan, lk, h.acquired (.proc p) lk⟩)
    | _ => h.call
  woken :=
    match before.event a with
    | some (.sleep p _ _) => Function.update h.woken p false
    | some (.wakeup chan) => fun p =>
      h.woken p || (h.call p).any (·.answeredBy h (before.thread a.cpu) chan)
    | none => h.woken

def History.start (ncpu : Nat) : History ncpu where
  clock := 0
  acquired _ _ := 0
  call _ := none
  woken _ := false

/-! ## Falling asleep -/

/-- The points of `sleep` before the process is SLEEPING. -/
def SleepPc.falling : SleepPc → Bool
  | .acquirePtable => true
  | .releaseLk => true
  | .setChan => true
  | .setState => true
  | _ => false

def Frame.falling : Frame → Bool
  | .sleep _ _ at_ => at_.falling
  | _ => false

def Asleep (m : Machine ncpu) (chan : Chan) (q : Slot) : Prop :=
  (m.proc q).state = .sleeping ∧ (m.proc q).chan = chan

/-- What the history knows at the point `f` of a CPU. -/
structure Knows (m : Machine ncpu) (h : History ncpu) (c : Fin ncpu) (f : Frame) : Prop where
  falling : ∀ {p chan lk at_}, m.running c = some p → f = .sleep chan lk at_ →
    at_.falling = true →
    ∃ since, h.call p = some ⟨chan, lk, since⟩ ∧ h.woken p = false ∧
      (at_ = .acquirePtable → since = h.acquired (.proc p) lk) ∧
      (at_ = .setState → (m.proc p).chan = chan)
  sweeping : ∀ {chan i}, f.sweeps = some (chan, i) → ∀ q : Slot, q.val < i → ¬ Asleep m chan q

structure SleepInv (m : Machine ncpu) (h : History ncpu) : Prop where
  clock : ∀ t l, h.acquired t l ≤ h.clock
  /-- The thread that holds a lock is the one that acquired it last. -/
  newest : ∀ {c l}, l ≠ .ptable → m.owner l = some c →
    ∀ t, t ≠ m.thread c → h.acquired t l < h.acquired (m.thread c) l
  asleep : ∀ p, (m.proc p).state = .sleeping →
    ∃ call, h.call p = some call ∧ call.chan = (m.proc p).chan ∧ h.woken p = false
  knows : ∀ {c f rest}, m.frames (m.thread c) = f :: rest → Knows m h c f

/-! ## What a step changes -/

variable {m next : Machine ncpu} {c d : Fin ncpu} {a : Action ncpu} {f g : Frame}
  {h : History ncpu}

variable {instr : Instr} {l : Lock}

theorem Effect.owner (effect : Effect m c instr next) (holds : next.owner l = some d) :
    m.owner l = some d ∨ d = c ∧ m.owner l = none := by
  cases effect with
  | @acquire lk free =>
    by_cases same : l = lk
    · subst same
      have isOwner : c = d := by simpa [Machine.take] using holds
      exact .inr ⟨isOwner.symm, free⟩
    · exact .inl (by simpa [Machine.take, same] using holds)
  | @release lk held =>
    by_cases same : l = lk
    · simp [Machine.drop, same] at holds
    · exact .inl (by simpa [Machine.drop, same] using holds)
  | wake chan q => exact .inl (((m.wake_sameLocks chan q d).1 l).mp holds)
  | setChan | setState | sched | skip => exact .inl holds

/-- A lock passes to no CPU but the one that acquires it. -/
theorem Step.owner (stepped : Step m a next) (holds : next.owner l = some d) :
    m.owner l = some d ∨ d = a.cpu ∧ m.owner l = none := by
  cases stepped with
  | exec top executes effect => exact effect.owner holds
  | _ => exact .inl holds

/-- A CPU that changes threads holds no lock but `ptable.lock`, and keeps that one. -/
theorem Step.thread (inv : StackInv m) (stepped : Step m a next) (d : Fin ncpu) :
    next.thread d = m.thread d ∨
      next.owner = m.owner ∧ ∀ l, m.owner l = some d → l = .ptable := by
  cases stepped with
  | @exec _ f rest left instr after top executes effect =>
    by_cases switches : instr = .sched
    · subst switches
      cases effect with
      | sched on holds level =>
        by_cases same : d = a.cpu
        · subst same
          exact .inr ⟨rfl, fun l owned => (inv.account _).eq_of_ncli_one level owned holds⟩
        · apply Or.inl
          apply Machine.thread_congr
          simp [Machine.setFrames, Machine.leave, same]
    · exact .inl (Machine.thread_congr (congrFun (effect.running switches) d))
  | @dispatch c p rest top found =>
    by_cases same : d = c
    · subst same
      have here := inv.here_of_top top
      refine .inr ⟨rfl, ?_⟩
      intro l owned
      exact (inv.account _).eq_of_ncli_one (here.level 1 rfl) owned
        (here.locks _ List.mem_cons_self)
    · apply Or.inl
      apply Machine.thread_congr
      simp [Machine.dispatch, same]
  | push | iret | move | start | panic => exact .inl rfl

/-- The other CPUs stay in the functions they are in. -/
theorem Step.other (inv : StackInv m) (stepped : Step m a next) (different : d ≠ a.cpu) :
    next.running d = m.running d ∧ next.frames (m.thread d) = m.frames (m.thread d) := by
  cases stepped with
  | @exec _ f rest left instr after top executes effect =>
    constructor
    · by_cases switches : instr = .sched
      · subst switches
        cases effect with
        | sched => simp [Machine.setFrames, Machine.leave, different]
      · exact congrFun (effect.running switches) d
    · rw [Machine.setFrames_of_ne (inv.thread_ne different), effect.frames]
  | @dispatch c p rest top found =>
    have elsewhere : m.thread d ≠ .cpu c := fun same =>
      different (Machine.thread_eq_cpu.mp same).2
    exact ⟨by simp [Machine.dispatch, show d ≠ c from different],
      Machine.setFrames_of_ne elsewhere⟩
  | push | iret =>
    exact ⟨rfl, Machine.setFrames_of_ne (inv.thread_ne different)⟩
  | @start c q f rest top client holds at_ =>
    have off := inv.not_running top (Frame.isClient_interruptible client).switching holds
      (p := q) (by simp [at_]) d
    exact ⟨rfl, Machine.setFrames_of_ne fun same => off (Machine.thread_eq_proc.mp same)⟩
  | move | panic => exact ⟨rfl, rfl⟩

variable {left : List Frame}

theorem Executes.setState_sleeping (executes : Executes a f (.setState .sleeping) left) :
    ∃ chan lk, f = .sleep chan lk .setState := by
  cases executes with
  | code code =>
    cases f with
    | sleep chan lk at_ =>
      cases at_ <;> cases code
      exact ⟨chan, lk, rfl⟩
    | wakeupLoop chan i | wakeup1 chan i =>
      simp only [Frame.code] at code
      split at code <;> cases code
    | yield at_ | exit at_ | scheduler at_ => cases at_ <;> cases code
    | _ => cases code

theorem Machine.wake_proc (m : Machine ncpu) (chan : Chan) (q p : Slot) :
    (m.wake chan q).proc p = m.proc p ∨
      (m.wake chan q).proc p = { m.proc p with state := .runnable } := by
  rcases m.wake_eq chan q with same | ⟨-, same⟩
  · exact .inl (by rw [same])
  · rw [same]
    by_cases equal : p = q
    · subst equal
      exact .inr (by simp [Machine.setProc])
    · exact .inl (by simp [Machine.setProc, equal])

/-- A process is SLEEPING because it was, or because it has just made itself so in `sleep`. -/
theorem Step.asleep (inv : StackInv m) (stepped : Step m a next) {q : Slot}
    (sleeps : (next.proc q).state = .sleeping) :
    (next.proc q).chan = (m.proc q).chan ∧
      ((m.proc q).state = .sleeping ∨ m.running a.cpu = some q ∧
        ∃ chan lk rest, m.frames (m.thread a.cpu) = .sleep chan lk .setState :: rest) := by
  have keep : next.proc q = m.proc q → (next.proc q).chan = (m.proc q).chan ∧
      ((m.proc q).state = .sleeping ∨ m.running a.cpu = some q ∧
        ∃ chan lk rest, m.frames (m.thread a.cpu) = .sleep chan lk .setState :: rest) := by
    intro same
    rw [same] at sleeps ⊢
    exact ⟨rfl, .inl sleeps⟩
  cases stepped with
  | @exec _ f rest left instr after top executes effect =>
    change (after.proc q).state = .sleeping at sleeps
    cases effect with
    | acquire | release | sched | skip => exact keep rfl
    | wake chan slot =>
      rcases m.wake_proc chan slot q with same | same
      · exact keep same
      · rw [same] at sleeps
        cases sleeps
    | @setChan p chan on =>
      by_cases same : q = p
      · -- The process that sets its channel is RUNNING.
        subst same
        have stacked := inv.stacked (m.thread a.cpu)
        rw [top] at stacked
        obtain ⟨g, below, -, follows, -⟩ := executes.follows stacked (by simp)
        have runs := (inv.here_of_top top).state_running follows.before on
        simp [Machine.setProc, runs] at sleeps
      · exact keep (update_of_ne same ..)
    | @setState p state on =>
      by_cases same : q = p
      · subst same
        have isSleep : state = .sleeping := by simpa [Machine.setProc] using sleeps
        subst isSleep
        obtain ⟨chan, lk, rfl⟩ := executes.setState_sleeping
        exact ⟨by simp [Machine.setProc, Machine.setFrames],
          .inr ⟨on, chan, lk, rest, top⟩⟩
      · exact keep (update_of_ne same ..)
  | @dispatch c p rest top found =>
    by_cases same : q = p
    · simp [Machine.dispatch, same] at sleeps
    · exact keep (update_of_ne same ..)
  | @move _ p before after f rest top client moved at_ =>
    by_cases same : q = p
    · subst same
      simp only [Machine.setProc, update_self] at sleeps
      cases moved <;> cases sleeps
    · exact keep (update_of_ne same ..)
  | @start c p f rest top client holds at_ =>
    by_cases same : q = p
    · simp [Machine.setProc, Machine.setFrames, same] at sleeps
    · exact keep (update_of_ne same ..)
  | push | iret | panic => exact keep rfl

/-- A process sets its own channel only. -/
theorem Step.chan (stepped : Step m a next) (q : Slot) :
    (next.proc q).chan = (m.proc q).chan ∨ m.running a.cpu = some q := by
  have keep {p : Slot} {proc : Proc} (sameChan : proc.chan = (m.proc p).chan) :
      (Function.update m.proc p proc q).chan = (m.proc q).chan :=
    Update.cases q sameChan fun _ => rfl
  cases stepped with
  | exec top executes effect =>
    cases effect with
    | @setChan p chan on =>
      by_cases same : q = p
      · exact .inr (same ▸ on)
      · exact .inl (congrArg Proc.chan (update_of_ne same ..))
    | setState state on => exact .inl (keep rfl)
    | wake chan slot =>
      rcases m.wake_proc chan slot q with same | same
      · exact .inl (congrArg Proc.chan same)
      · exact .inl (by simp [Machine.setFrames, same])
    | acquire | release | sched | skip => exact .inl rfl
  | dispatch | move | start => exact .inl (keep rfl)
  | push | iret | panic => exact .inl rfl

variable {p : Slot} {chan : Chan} {lk : Lock}

/-! ## Events -/

theorem Machine.event_sleep (event : m.event a = some (.sleep p chan lk)) :
    a = .op a.cpu (.sleep chan lk) ∧ m.running a.cpu = some p := by
  cases a with
  | run c =>
    obtain ⟨⟨woken, i⟩, -, found⟩ := Option.bind_eq_some_iff.mp event
    dsimp only at found
    split at found <;> cases found
  | interrupt c => cases event
  | op c o =>
    cases o with
    | sleep =>
      obtain ⟨q, on, same⟩ := Option.map_eq_some_iff.mp event
      cases same
      exact ⟨rfl, on⟩
    | _ => cases event

theorem Machine.event_wakeup (event : m.event a = some (.wakeup chan)) :
    a = .run a.cpu ∧ ∃ f rest i, m.frames (m.thread a.cpu) = f :: rest ∧
      f.sweeps = some (chan, i) ∧ nproc ≤ i := by
  cases a with
  | run c =>
    obtain ⟨⟨woken, i⟩, swept, found⟩ := Option.bind_eq_some_iff.mp event
    obtain ⟨f, top, sweeps⟩ := Option.bind_eq_some_iff.mp swept
    dsimp only at found
    split at found
    · cases found
    · rename_i finished
      cases found
      obtain ⟨rest, stack⟩ := List.head?_eq_some_iff.mp top
      exact ⟨rfl, f, rest, i, stack, sweeps, Nat.le_of_not_lt finished⟩
  | interrupt c => cases event
  | op c o =>
    cases o with
    | sleep =>
      obtain ⟨q, -, same⟩ := Option.map_eq_some_iff.mp event
      cases same
    | _ => cases event

/-- A call of `sleep` comes from client code that holds the lock. -/
theorem Step.sleep (stepped : Step m (.op c (.sleep chan lk)) next) :
    ∃ f rest, m.frames (m.thread c) = f :: rest ∧ f.isClient = true ∧ m.owner lk = some c ∧
      next = m.push c (.sleep chan lk (SleepPc.first lk)) := by
  cases stepped with
  | exec _ executes | panic _ executes => cases executes
  | move top client moved at_ => cases moved
  | @push _ f callee rest top called isOver =>
    cases called with
    | sleep on holds => exact ⟨f, rest, top, isOver.resolve_left (by simp), holds, rfl⟩

variable {i : Nat}

theorem Frame.sweeps_needs (sweeps : f.sweeps = some (chan, i)) : Lock.ptable ∈ f.needs := by
  cases f with
  | wakeupLoop | wakeup1 => exact List.mem_cons_self
  | _ => cases sweeps

/-- The loop of `wakeup1` goes on to the next slot. -/
theorem Frame.sweeps_inside (sweeps : f.sweeps = some (chan, i)) (inside : i < nproc)
    (code : f.code = some (instr, left)) :
    instr = .wake chan ⟨i, inside⟩ ∧ ∃ g, left = [g] ∧ g.sweeps = some (chan, i + 1) := by
  cases f with
  | wakeupLoop | wakeup1 =>
    cases sweeps
    simp only [Frame.code, inside, dite_true] at code
    cases code
    exact ⟨rfl, _, rfl, rfl⟩
  | _ => cases sweeps

/-- The loop of `wakeup1` is over. -/
theorem Frame.sweeps_done (sweeps : f.sweeps = some (chan, i)) (done : nproc ≤ i)
    (code : f.code = some (instr, left)) :
    left = [] ∧ (instr = .release .ptable ∨ instr = .skip) := by
  have outside : ¬ i < nproc := Nat.not_lt.mpr done
  cases f with
  | wakeupLoop =>
    cases sweeps
    simp only [Frame.code, outside, dite_false] at code
    cases code
    exact ⟨rfl, .inl rfl⟩
  | wakeup1 =>
    cases sweeps
    simp only [Frame.code, outside, dite_false] at code
    cases code
    exact ⟨rfl, .inr rfl⟩
  | _ => cases sweeps

/-- No process changes state or channel as `wakeup` returns. -/
theorem Step.returns_proc (stepped : Step m a next) (event : m.event a = some (.wakeup chan)) :
    next.proc = m.proc := by
  obtain ⟨isRun, f, rest, i, at_, sweeps, done⟩ := Machine.event_wakeup event
  rw [isRun] at stepped
  cases stepped with
  | exec top executes effect =>
    rw [show (Action.run a.cpu).cpu = a.cpu from rfl, at_] at top
    cases top
    cases executes with
    | code code =>
      rcases (Frame.sweeps_done sweeps done code).2 with rfl | rfl <;> cases effect <;> rfl
  | dispatch top found =>
    rw [at_] at top
    cases top
    cases sweeps
  | push top called isOver => cases called
  | move top client moved => cases moved
  | panic => rfl

theorem observe_call (others : ∀ chan lk, m.event a ≠ some (.sleep p chan lk)) :
    (observe m a next h).call p = h.call p := by
  cases event : m.event a with
  | none => simp only [observe, event]
  | some happened =>
    cases happened with
    | sleep q chan lk =>
      have different : p ≠ q := by
        intro same
        exact others chan lk (same ▸ event)
      simp only [observe, event, update_of_ne different]
    | wakeup chan => simp only [observe, event]

theorem observe_acquired {t : Thread ncpu} (kept : t ≠ m.thread a.cpu ∨ m.owner l ≠ none) :
    (observe m a next h).acquired t l = h.acquired t l := by
  apply if_neg
  intro took
  rcases kept with different | held
  · exact different took.1
  · exact held took.2.1

theorem observe_woken (asleep : h.woken p = false)
    (missed : ∀ chan call, m.event a = some (.wakeup chan) → h.call p = some call →
      call.answeredBy h (m.thread a.cpu) chan = false) : (observe m a next h).woken p = false := by
  cases event : m.event a with
  | none => simp only [observe, event, asleep]
  | some happened =>
    cases happened with
    | sleep q chan lk =>
      by_cases same : p = q
      · simp only [observe, event, same, update_self]
      · simp only [observe, event, update_of_ne same, asleep]
    | wakeup chan =>
      simp only [observe, event, asleep, Bool.false_or]
      cases called : h.call p with
      | none => rfl
      | some call => exact missed chan call event called

end Xv6.Sync
