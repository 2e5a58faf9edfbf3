import Xv6.Sync.Points

/-!
Stacks and context switches.

Owns: the invariant that every CPU is at a point of the code it can be at, that a process
runs on one CPU at most, and that a process no CPU runs stands where `sched` or `fork` left
it; and its preservation by every step.

Does not own: the points themselves (`Xv6.Sync.Points`); the pairing of `sleep` with
`wakeup` (`Xv6.Sync.Wakeup`).
-/

namespace Xv6.Sync

open Xv6.Process (Slot ProcState nproc)

variable {ncpu : Nat} {m next : Machine ncpu} {c d : Fin ncpu} {a : Action ncpu} {instr : Instr}
  {f g callee : Frame} {t : Thread ncpu} {p q : Slot} {left rest stack : List Frame}
  {before after : ProcState}

/-! ## The invariant -/

/-- Where a process that no CPU runs stands, in the two states in which it can be switched
to. -/
def Frame.Parks (f : Frame) : ProcState → Prop
  | .sleeping => ∃ chan lk, f = .sleep chan lk .clearChan
  | .runnable => f.resumes = true
  | _ => True

structure StackInv (m : Machine ncpu) : Prop where
  single : ∀ {c d p}, m.running c = some p → m.running d = some p → c = d
  stacked : ∀ t, Stacked (m.frames t)
  kinds : ∀ p, ∀ f ∈ m.frames (.proc p), f.isScheduler = false
  account : ∀ c, Account m c
  here : ∀ c, ∃ f rest, m.frames (m.thread c) = f :: rest ∧ At m c f
  /-- While a process runs, the scheduler of its CPU waits in `swtch`. -/
  away : ∀ {c p}, m.running c = some p → m.frames (.cpu c) = [.scheduler .back]
  parked : ∀ p, (∀ c, m.running c ≠ some p) →
    (m.proc p).state = .runnable ∨ (m.proc p).state = .sleeping →
      ∃ f rest, m.frames (.proc p) = f :: rest ∧ f.Parks (m.proc p).state

theorem Machine.setFrames_self (m : Machine ncpu) (t : Thread ncpu) (frames : List Frame) :
    (m.setFrames t frames).frames t = frames :=
  Function.update_self ..

theorem Machine.setFrames_of_ne {u : Thread ncpu} {frames : List Frame} (different : u ≠ t) :
    (m.setFrames t frames).frames u = m.frames u :=
  Function.update_of_ne different ..

theorem Machine.thread_of_running (on : m.running c = some p) : m.thread c = .proc p := by
  simp [Machine.thread, on]

theorem Machine.thread_eq_proc : m.thread c = .proc p ↔ m.running c = some p := by
  cases on : m.running c with
  | none | some => simp [Machine.thread, on]

theorem Machine.thread_eq_cpu : m.thread c = .cpu d ↔ m.running c = none ∧ c = d := by
  cases on : m.running c with
  | none | some => simp [Machine.thread, on]

theorem Machine.thread_congr (same : next.running c = m.running c) :
    next.thread c = m.thread c := by
  simp [Machine.thread, same]

theorem Effect.frames (effect : Effect m c instr next) : next.frames = m.frames := by
  cases effect with
  | wake chan q =>
    rcases m.wake_eq chan q with same | ⟨-, same⟩
    · rw [same]
    · rw [same]
      rfl
  | _ => rfl

theorem Effect.running (effect : Effect m c instr next) (stays : instr ≠ .sched) :
    next.running = m.running := by
  cases effect with
  | wake chan q => exact m.wake_running chan q
  | sched => exact absurd rfl stays
  | _ => rfl

/-- The processes whose state an instruction changes: the one that executes it, and one
that `wakeup1` finds asleep. -/
theorem Effect.state (effect : Effect m c instr next) (p : Slot) :
    (next.proc p).state = (m.proc p).state ∨ m.running c = some p ∨
      (∃ chan, instr = .wake chan p) ∧ (m.proc p).state = .sleeping ∧
        (next.proc p).state = .runnable := by
  cases effect with
  | acquire | release | sched | skip => exact .inl rfl
  | @setChan q chan on | @setState q state on =>
    by_cases same : p = q
    · subst same
      exact .inr (.inl on)
    · exact .inl (by simp [Machine.setProc, same])
  | wake chan q =>
    by_cases same : p = q
    · subst same
      rcases m.wake_eq chan p with same | ⟨asleep, same⟩
      · exact .inl (by rw [same])
      · exact .inr (.inr ⟨⟨chan, rfl⟩, asleep, by rw [same]; simp [Machine.setProc]⟩)
    · exact .inl (Machine.wake_state_of_ne (.inr same))

theorem Executes.wake_needs {chan : Chan} (executes : Executes a f (.wake chan q) left) :
    Lock.ptable ∈ f.needs ∧ f.switching = none := by
  cases executes with
  | code code =>
    cases f with
    | wakeupLoop | wakeup1 => simp [Frame.needs, Frame.switching]
    | sleep _ _ at_ | yield at_ | exit at_ | scheduler at_ =>
      cases at_ <;> simp [Frame.code] at code
    | _ => simp [Frame.code] at code

theorem Executes.kinds (executes : Executes a f instr left) (kind : f.isScheduler = false) :
    ∀ g ∈ left, g.isScheduler = false := by
  cases executes with
  | acquire client | release client => simpa using kind
  | code code =>
    intro g member
    cases f with
    | sleep chan lk at_ =>
      cases at_ with
      | clearChan =>
        cases code
        split at member <;> simp_all [Frame.isScheduler]
      | _ =>
        cases code
        simp_all [Frame.isScheduler]
    | wakeupLoop chan i | wakeup1 chan i =>
      simp only [Frame.code] at code
      split at code <;> cases code <;> simp_all [Frame.isScheduler]
    | yield at_ | exit at_ => cases at_ <;> cases code <;> simp_all [Frame.isScheduler]
    | scheduler at_ => cases kind
    | wakeup | forkret =>
      cases code
      simp_all [Frame.isScheduler]
    | client | handler => cases code

theorem Called.at_ (called : Called m a callee)
    (runs : ∀ p, m.running a.cpu = some p → (m.proc p).state = .running) : At m a.cpu callee := by
  cases called with
  | @sleep c p chan lk on holds =>
    by_cases same : lk = .ptable
    · subst same
      exact ⟨by simp [SleepPc.first, Frame.needs, Action.cpu, holds],
        by simp [SleepPc.first, Frame.level], runs⟩
    · have starts : SleepPc.first lk = .acquirePtable := if_neg same
      rw [starts]
      exact ⟨by simp [Frame.needs, Action.cpu, holds], by simp [Frame.level], runs⟩
  | wakeup1 holds | exit on holds =>
    exact ⟨by simp [Frame.needs, Action.cpu, holds], by simp [Frame.level], runs⟩
  | wakeup | yield | handler => exact ⟨by simp [Frame.needs], by simp [Frame.level], runs⟩

theorem Called.stacked (called : Called m a callee) (isOver : callee.callable f)
    (open_ : m.ncli a.cpu = 0 → f.Interruptible) (stacked : Stacked (f :: rest)) :
    Stacked (callee :: f :: rest) := by
  cases called with
  | @sleep c p chan lk on holds =>
    have client : f.isClient = true := isOver.resolve_left (by simp)
    refine ⟨?_, ⟨f, rest, rfl, client⟩, stacked⟩
    by_cases same : lk = .ptable
    · simp [SleepPc.first, same, Frame.Exchanges]
    · simp [SleepPc.first, same, Frame.Exchanges]
  | handler enabled => exact ⟨trivial, ⟨f, rest, rfl, open_ enabled⟩, stacked⟩
  | wakeup | wakeup1 | yield | exit =>
    have client : f.isClient = true := isOver.resolve_left (by simp)
    exact ⟨trivial, ⟨f, rest, rfl, client⟩, stacked⟩

theorem Called.kind (called : Called m a callee) : callee.isScheduler = false := by
  cases called <;> rfl

theorem Executes.sched (executes : Executes a f .sched left) (stacked : Stacked (f :: rest)) :
    ∃ g state, left = [g] ∧ f.switching = some state ∧ g.Parks state ∧ Stacked (g :: rest) := by
  have isOver := stacked.2.1
  have below := stacked.2.2
  cases executes with
  | code code =>
    cases f with
    | sleep chan lk at_ =>
      cases at_ <;> cases code
      exact ⟨_, _, rfl, rfl, ⟨chan, lk, rfl⟩, trivial, isOver, below⟩
    | yield at_ =>
      cases at_ <;> cases code
      exact ⟨_, _, rfl, rfl, rfl, trivial, isOver, below⟩
    | exit at_ =>
      cases at_ <;> cases code
      exact ⟨_, _, rfl, rfl, trivial, trivial, isOver, below⟩
    | wakeupLoop chan i | wakeup1 chan i =>
      simp only [Frame.code] at code
      split at code <;> cases code
    | scheduler at_ => cases at_ <;> cases code
    | _ => cases code

theorem Frame.resumes_at (resumes : f.resumes = true) (holds : m.owner .ptable = some c)
    (level : m.ncli c = 1) (on : m.running c = some p) (state : (m.proc p).state = .running) :
    At m c f := by
  have runs : ∀ q, m.running c = some q → (m.proc q).state = .running := by
    intro q runs
    rw [on] at runs
    cases runs
    exact state
  cases f with
  | sleep chan lk at_ =>
    cases at_ <;> simp only [Frame.resumes, Bool.false_eq_true] at resumes
    exact ⟨by simp [Frame.needs, holds], by simp [Frame.level, level], runs⟩
  | yield at_ =>
    cases at_ <;> simp only [Frame.resumes, Bool.false_eq_true] at resumes
    exact ⟨by simp [Frame.needs, holds], by simp [Frame.level], runs⟩
  | forkret => exact ⟨by simp [Frame.needs, holds], by simp [Frame.level], runs⟩
  | _ => simp [Frame.resumes] at resumes

namespace StackInv

theorem thread_ne (inv : StackInv m) (different : d ≠ c) : m.thread d ≠ m.thread c := by
  intro same
  cases on : m.running c with
  | none =>
    have idle : m.thread c = .cpu c := Machine.thread_eq_cpu.mpr ⟨on, rfl⟩
    exact different (Machine.thread_eq_cpu.mp (same.trans idle)).2
  | some p =>
    have runs := Machine.thread_eq_proc.mp (same.trans (Machine.thread_of_running on))
    exact different (inv.single runs on)

theorem here_of_top (inv : StackInv m) (top : m.frames (m.thread c) = f :: rest) : At m c f := by
  obtain ⟨g, below, at_, here⟩ := inv.here c
  rw [top] at at_
  cases at_
  exact here

/-- A process that runs and is not RUNNING is about to call `sched`. -/
theorem about_to_switch (inv : StackInv m) (on : m.running c = some p)
    (changed : (m.proc p).state ≠ .running) :
    ∃ f rest, m.frames (m.thread c) = f :: rest ∧ f.switching = some (m.proc p).state ∧
      m.owner .ptable = some c := by
  obtain ⟨f, rest, top, here⟩ := inv.here c
  refine ⟨f, rest, top, ?_⟩
  have state := here.state p on
  cases switches : f.switching with
  | none =>
    rw [switches] at state
    exact absurd state changed
  | some given =>
    rw [switches] at state
    exact ⟨congrArg some state.symm, here.locks _ (Frame.switching_needs switches)⟩

/-- A process whose state is not RUNNING runs nowhere, seen from a point of the code that
holds `ptable.lock` and is not about to switch. -/
theorem not_running (inv : StackInv m) (top : m.frames (m.thread c) = f :: rest)
    (calm : f.switching = none) (holds : m.owner .ptable = some c)
    (changed : (m.proc p).state ≠ .running) (d : Fin ncpu) : m.running d ≠ some p := by
  intro on
  obtain ⟨g, below, at_, switches, owner⟩ := inv.about_to_switch on changed
  have same : d = c := Option.some.inj (owner.symm.trans holds)
  subst same
  rw [top] at at_
  cases at_
  rw [calm] at switches
  cases switches

/-- A CPU whose thread, stack and locks a step leaves alone is where it was. -/
theorem here_other (inv : StackInv m) (running : next.running d = m.running d)
    (frames : next.frames (m.thread d) = m.frames (m.thread d)) (locks : SameLocks m next d)
    (states : ∀ p, m.running d = some p → (next.proc p).state = (m.proc p).state) :
    ∃ f rest, next.frames (next.thread d) = f :: rest ∧ At next d f := by
  obtain ⟨f, rest, top, here⟩ := inv.here d
  refine ⟨f, rest, ?_, here.same locks running states⟩
  rw [Machine.thread_congr running, frames, top]

theorem stacked_setFrames (inv : StackInv m) (stacked : Stacked stack) (u : Thread ncpu) :
    Stacked ((m.setFrames t stack).frames u) := by
  by_cases same : u = t
  · rw [same, Machine.setFrames_self]
    exact stacked
  · rw [Machine.setFrames_of_ne same]
    exact inv.stacked u

theorem kinds_setFrames (inv : StackInv m)
    (kinds : ∀ p, t = .proc p → ∀ f ∈ stack, f.isScheduler = false) (p : Slot) :
    ∀ f ∈ (m.setFrames t stack).frames (.proc p), f.isScheduler = false := by
  by_cases same : Thread.proc p = t
  · rw [same, Machine.setFrames_self]
    exact kinds p same.symm
  · rw [Machine.setFrames_of_ne same]
    exact inv.kinds p

/-- What may happen to the state of a process that no CPU runs. -/
def Drifts (before after : ProcState) : Prop :=
  after = before ∨ before = .sleeping ∧ after = .runnable ∨
    after ≠ .runnable ∧ after ≠ .sleeping

theorem Drifts.parks (drifts : Drifts before after) (ready : after = .runnable ∨ after = .sleeping) :
    (before = .runnable ∨ before = .sleeping) ∧ ∀ f : Frame, f.Parks before → f.Parks after := by
  rcases drifts with same | ⟨asleep, woken⟩ | gone
  · rw [← same]
    exact ⟨ready, fun _ parks => parks⟩
  · subst asleep woken
    refine ⟨.inr rfl, ?_⟩
    intro f parks
    obtain ⟨chan, lk, rfl⟩ := parks
    rfl
  · exact absurd ready (not_or.mpr gone)

/-- A step of one CPU that switches to no other thread, seen from the others. -/
structure Stays (m next : Machine ncpu) (c : Fin ncpu) : Prop where
  running : next.running = m.running
  frames : ∀ t, t ≠ m.thread c → next.frames t = m.frames t
  locks : ∀ d, d ≠ c → SameLocks m next d
  states : ∀ d p, d ≠ c → m.running d = some p → (next.proc p).state = (m.proc p).state
  drifts : ∀ p, (∀ d, m.running d ≠ some p) → Drifts (m.proc p).state (next.proc p).state

theorem of_stays (inv : StackInv m) (stays : Stays m next c) (account : ∀ d, Account next d)
    (kinds : ∀ p, m.running c = some p → ∀ f ∈ next.frames (.proc p), f.isScheduler = false)
    {g : Frame} (top : next.frames (m.thread c) = g :: rest) (stacked : Stacked (g :: rest))
    (here : At next c g) : StackInv next where
  single := by
    rw [stays.running]
    exact inv.single
  stacked t := by
    by_cases same : t = m.thread c
    · rw [same, top]
      exact stacked
    · rw [stays.frames t same]
      exact inv.stacked t
  kinds p := by
    by_cases on : m.running c = some p
    · exact kinds p on
    · have different : Thread.proc p ≠ m.thread c := fun same =>
        on (Machine.thread_eq_proc.mp same.symm)
      rw [stays.frames _ different]
      exact inv.kinds p
  account := account
  here d := by
    by_cases same : d = c
    · rw [Machine.thread_congr (congrFun stays.running d), same]
      exact ⟨g, rest, top, here⟩
    · exact inv.here_other (congrFun stays.running d) (stays.frames _ (inv.thread_ne same))
        (stays.locks d same) (fun p => stays.states d p same)
  away := by
    intro d p on
    rw [stays.running] at on
    have different : Thread.cpu d ≠ m.thread c := by
      intro same
      obtain ⟨idle, rfl⟩ := Machine.thread_eq_cpu.mp same.symm
      rw [idle] at on
      cases on
    rw [stays.frames _ different]
    exact inv.away on
  parked p off ready := by
    rw [stays.running] at off
    have different : Thread.proc p ≠ m.thread c := fun same =>
      off c (Machine.thread_eq_proc.mp same.symm)
    obtain ⟨readyBefore, parks⟩ := (stays.drifts p off).parks ready
    obtain ⟨f, below, at_, parked⟩ := inv.parked p off readyBefore
    exact ⟨f, below, by rw [stays.frames _ different, at_], parks f parked⟩

theorem stays_exec (inv : StackInv m) (top : m.frames (m.thread c) = f :: rest)
    (executes : Executes a f instr left) (effect : Effect m c instr next) (stays : instr ≠ .sched)
    (stack : List Frame) : Stays m (next.setFrames (m.thread c) stack) c where
  running := effect.running stays
  frames t different := by
    rw [Machine.setFrames_of_ne different, effect.frames]
  locks d different := effect.other different
  states d p different on := by
    rcases effect.state p with same | here | ⟨⟨chan, rfl⟩, asleep, -⟩
    · exact same
    · exact absurd (inv.single on here) different
    · have held := (inv.here_of_top top).locks _ executes.wake_needs.1
      exact absurd on (inv.not_running top executes.wake_needs.2 held (by simp [asleep]) d)
  drifts p off := by
    rcases effect.state p with same | here | ⟨-, asleep, woken⟩
    · exact .inl same
    · exact absurd here (off c)
    · exact .inr (.inl ⟨asleep, woken⟩)

theorem exec (inv : StackInv m) (top : m.frames (m.thread c) = f :: rest)
    (executes : Executes a f instr left) (effect : Effect m c instr next) (stays : instr ≠ .sched) :
    StackInv (next.setFrames (m.thread c) (left ++ rest)) := by
  have stacked := inv.stacked (m.thread c)
  rw [top] at stacked
  obtain ⟨g, below, stack, follows, restacked⟩ := executes.follows stacked stays
  have others := inv.stays_exec top executes effect stays (left ++ rest)
  apply inv.of_stays others (effect.account inv.account) _
    ((next.setFrames_self ..).trans stack) restacked ((follows.at_ (inv.here_of_top top) effect stays).setFrames _ _)
  intro p on h member
  rw [Machine.thread_of_running on] at top
  rw [Machine.thread_of_running on, Machine.setFrames_self] at member
  have kinds := inv.kinds p
  rw [top] at kinds
  rcases List.mem_append.mp member with new | old
  · exact executes.kinds (kinds f List.mem_cons_self) h new
  · exact kinds h (List.mem_cons_of_mem f old)

theorem stays_setFrames (m : Machine ncpu) (c : Fin ncpu) (stack : List Frame) :
    Stays m (m.setFrames (m.thread c) stack) c where
  running := rfl
  frames _ different := Machine.setFrames_of_ne different
  locks d _ := .refl m d
  states _ _ _ _ := rfl
  drifts _ _ := .inl rfl

theorem push (inv : StackInv m) (top : m.frames (m.thread a.cpu) = f :: rest)
    (called : Called m a callee) (isOver : callee.callable f) : StackInv (m.push a.cpu callee) := by
  have here := inv.here_of_top top
  have stacked := inv.stacked (m.thread a.cpu)
  rw [top] at stacked
  have open_ : m.ncli a.cpu = 0 → f.Interruptible := here.interruptible (inv.account a.cpu)
  have calm : f.switching = none := by
    rcases isOver with rfl | client
    · cases called with
      | handler enabled => exact (open_ enabled).switching
    · exact (Frame.isClient_interruptible client).switching
  unfold Machine.push
  rw [top]
  apply inv.of_stays (stays_setFrames m a.cpu _) (fun d => inv.account d) _ (m.setFrames_self ..)
    (called.stacked isOver open_ stacked)
    ((called.at_ fun p on => here.state_running calm on).setFrames _ _)
  intro p on g member
  rw [Machine.thread_of_running on, Machine.setFrames_self] at member
  rw [Machine.thread_of_running on] at top
  rcases List.mem_cons.mp member with rfl | old
  · exact called.kind
  · exact inv.kinds p g (top ▸ old)

theorem iret (inv : StackInv m) (top : m.frames (m.thread c) = .handler :: rest)
    (enabled : m.ncli c = 0) : StackInv (m.setFrames (m.thread c) rest) := by
  have stacked := inv.stacked (m.thread c)
  rw [top] at stacked
  obtain ⟨g, below, rfl, open_⟩ := stacked.2.1
  apply inv.of_stays (stays_setFrames m c _) (fun d => inv.account d) _ (m.setFrames_self ..)
    stacked.2.2
  · apply At.setFrames
    apply At.of_interruptible open_ enabled
    intro p on
    exact (inv.here_of_top top).state_running rfl on
  · intro p on h member
    rw [Machine.thread_of_running on, Machine.setFrames_self] at member
    rw [Machine.thread_of_running on] at top
    exact inv.kinds p h (by rw [top]; exact List.mem_cons_of_mem _ member)

/-- Client code moves no process that runs. -/
theorem moved_off (inv : StackInv m) (top : m.frames (m.thread a.cpu) = f :: rest)
    (client : f.isClient = true) (moved : Moved m a q before after)
    (at_ : (m.proc q).state = before) (d : Fin ncpu) : m.running d ≠ some q := by
  have calm := (Frame.isClient_interruptible client).switching
  cases moved with
  | alloc holds | reap holds | kill holds =>
    exact inv.not_running top calm holds (by simp [at_]) d
  | undo =>
    -- No lock is held here, but an EMBRYO is not about to switch either.
    intro on
    obtain ⟨g, below, -, switches, -⟩ := inv.about_to_switch on (by simp [at_])
    rw [at_] at switches
    unfold Frame.switching at switches
    split at switches <;> cases switches

theorem setProc_state {proc : Proc} (off : ∀ d, m.running d ≠ some q) (on : m.running d = some p) :
    ((m.setProc q proc).proc p).state = (m.proc p).state := by
  have different : p ≠ q := fun same => off d (same ▸ on)
  simp [Machine.setProc, different]

theorem move (inv : StackInv m) (top : m.frames (m.thread a.cpu) = f :: rest)
    (client : f.isClient = true) (moved : Moved m a q before after)
    (at_ : (m.proc q).state = before) :
    StackInv (m.setProc q { m.proc q with state := after }) := by
  have off := inv.moved_off top client moved at_
  have stays : Stays m (m.setProc q { m.proc q with state := after }) a.cpu := by
    refine ⟨rfl, fun _ _ => rfl, fun d _ => .refl m d, fun d p _ on => setProc_state off on, ?_⟩
    intro p _
    by_cases same : p = q
    · subst same
      simp only [Machine.setProc, Function.update_self, at_]
      cases moved <;> simp [Drifts]
    · exact .inl (by simp [Machine.setProc, same])
  have stacked := inv.stacked (m.thread a.cpu)
  rw [top] at stacked
  exact inv.of_stays stays inv.account (fun p _ => inv.kinds p) top stacked
    ((inv.here_of_top top).same (.refl m a.cpu) rfl fun p on => setProc_state off on)

theorem start (inv : StackInv m) (top : m.frames (m.thread c) = f :: rest)
    (client : f.isClient = true) (holds : m.owner .ptable = some c)
    (at_ : (m.proc q).state = .embryo) :
    StackInv ((m.setProc q { m.proc q with state := .runnable }).setFrames (.proc q)
      [.forkret, .client]) := by
  have off := inv.not_running top (Frame.isClient_interruptible client).switching holds
    (p := q) (by simp [at_])
  have threads : ∀ d, m.thread d ≠ .proc q := fun d same =>
    off d (Machine.thread_eq_proc.mp same)
  constructor
  · exact inv.single
  · exact inv.stacked_setFrames ⟨trivial, ⟨.client, [], rfl, rfl⟩, trivial, rfl, trivial⟩
  · exact inv.kinds_setFrames (by simp [Frame.isScheduler])
  · exact inv.account
  · intro d
    exact inv.here_other rfl (Machine.setFrames_of_ne (threads d)) (.refl m d)
      fun p on => setProc_state off on
  · intro d p on
    rw [Machine.setFrames_of_ne (by simp)]
    exact inv.away on
  · intro p offAfter ready
    by_cases same : p = q
    · subst same
      refine ⟨_, _, Machine.setFrames_self .., ?_⟩
      simp [Machine.setFrames, Machine.setProc, Frame.Parks, Frame.resumes]
    · rw [Machine.setFrames_of_ne (by simp [same])]
      simp only [Machine.setFrames, Machine.setProc, Function.update_of_ne same] at ready ⊢
      exact inv.parked p offAfter ready

theorem panic (inv : StackInv m) (c : Fin ncpu) : StackInv (m.panic c) :=
  { inv with
    here d := by
      obtain ⟨f, rest, top, here⟩ := inv.here d
      exact ⟨f, rest, top, here.locks, here.level, here.state⟩ }

theorem leave_running : (m.leave c).running d = some p ↔ d ≠ c ∧ m.running d = some p := by
  by_cases same : d = c
  · simp [Machine.leave, same]
  · simp [Machine.leave, same]

/-- A process switches to the scheduler of its CPU. -/
theorem leave (inv : StackInv m) (on : m.running c = some p) (top : m.frames (.proc p) = f :: rest)
    (holds : m.owner .ptable = some c) (level : m.ncli c = 1) (kind : g.isScheduler = false)
    (stacked : Stacked (g :: rest)) (parks : g.Parks (m.proc p).state) :
    StackInv ((m.leave c).setFrames (.proc p) (g :: rest)) := by
  constructor
  · intro d e q first second
    exact inv.single (leave_running.mp first).2 (leave_running.mp second).2
  · exact inv.stacked_setFrames stacked
  · apply inv.kinds_setFrames
    intro q same h member
    cases same
    rcases List.mem_cons.mp member with rfl | old
    · exact kind
    · exact inv.kinds p h (by rw [top]; exact List.mem_cons_of_mem f old)
  · exact inv.account
  · intro d
    by_cases same : d = c
    · subst same
      refine ⟨.scheduler .back, [], ?_, ?_, ?_, ?_⟩
      · simp [Machine.thread, Machine.setFrames, Machine.leave, inv.away on]
      · intro l member
        rw [List.mem_singleton.mp member]
        exact holds
      · intro n isLevel
        rw [← Option.some.inj isLevel]
        exact level
      · intro q runs
        exact absurd rfl (leave_running.mp runs).1
    · apply inv.here_other
      · simp [Machine.setFrames, Machine.leave, same]
      · apply Machine.setFrames_of_ne
        intro equal
        exact same (inv.single (Machine.thread_eq_proc.mp equal) on)
      · exact .refl m d
      · exact fun _ _ => rfl
  · intro d q runs
    rw [Machine.setFrames_of_ne (by simp)]
    exact inv.away (leave_running.mp runs).2
  · intro q off ready
    by_cases same : q = p
    · subst same
      exact ⟨g, rest, Machine.setFrames_self .., parks⟩
    · have offBefore : ∀ d, m.running d ≠ some q := by
        intro d runs
        apply off d
        apply leave_running.mpr
        refine ⟨?_, runs⟩
        intro equal
        rw [equal, on] at runs
        exact same (Option.some.inj runs).symm
      rw [Machine.setFrames_of_ne (by simp [same])]
      exact inv.parked q offBefore ready

theorem sched (inv : StackInv m) (top : m.frames (m.thread c) = f :: rest)
    (executes : Executes a f .sched left) (effect : Effect m c .sched next) :
    StackInv (next.setFrames (m.thread c) (left ++ rest)) := by
  have stacked := inv.stacked (m.thread c)
  rw [top] at stacked
  obtain ⟨g, state, rfl, switches, parks, restacked⟩ := executes.sched stacked
  cases effect with
  | @sched p on holds level =>
    have given : (m.proc p).state = state := by
      simpa [switches] using (inv.here_of_top top).state p on
    rw [Machine.thread_of_running on] at top ⊢
    have kind := inv.kinds p f (by rw [top]; exact List.mem_cons_self)
    exact inv.leave on top holds level (executes.kinds kind g List.mem_cons_self) restacked
      (given ▸ parks)

theorem dispatch_running :
    (m.dispatch c p rest).running d = some q ↔ d = c ∧ q = p ∨ d ≠ c ∧ m.running d = some q := by
  by_cases same : d = c
  · simp [Machine.dispatch, same, eq_comm]
  · simp [Machine.dispatch, same]

/-- The scheduler of a CPU switches to a process. -/
theorem dispatch (inv : StackInv m) (top : m.frames (m.thread c) = .scheduler .choose :: rest)
    (found : (m.proc p).state = .runnable) : StackInv (m.dispatch c p rest) := by
  have here := inv.here_of_top top
  have holds : m.owner .ptable = some c := here.locks _ List.mem_cons_self
  have off := inv.not_running top rfl holds (p := p) (by simp [found])
  have idle : m.running c = none := by
    cases on : m.running c with
    | none => rfl
    | some q =>
      rw [Machine.thread_of_running on] at top
      have kind := inv.kinds q _ (by rw [top]; exact List.mem_cons_self)
      cases kind
  have isCpu : m.thread c = .cpu c := Machine.thread_eq_cpu.mpr ⟨idle, rfl⟩
  have bottom : rest = [] := by
    have stacked := inv.stacked (m.thread c)
    rw [top] at stacked
    exact stacked.2.1
  subst bottom
  have parked := inv.parked p off (.inl found)
  rw [found] at parked
  obtain ⟨g, below, stack, resumes⟩ := parked
  have others : ∀ q, q ≠ p → (m.dispatch c p []).proc q = m.proc q := by
    intro q different
    simp [Machine.dispatch, different]
  constructor
  · intro d e q first second
    rcases dispatch_running.mp first with ⟨rfl, rfl⟩ | ⟨-, runs⟩
    · rcases dispatch_running.mp second with ⟨rfl, -⟩ | ⟨-, runs⟩
      · rfl
      · exact absurd runs (off e)
    · rcases dispatch_running.mp second with ⟨rfl, rfl⟩ | ⟨-, alsoRuns⟩
      · exact absurd runs (off d)
      · exact inv.single runs alsoRuns
  · exact inv.stacked_setFrames ⟨trivial, rfl, trivial⟩
  · exact inv.kinds_setFrames (by simp)
  · exact inv.account
  · intro d
    by_cases same : d = c
    · subst same
      have on : (m.dispatch d p []).running d = some p := dispatch_running.mpr (.inl ⟨rfl, rfl⟩)
      refine ⟨g, below, ?_, Frame.resumes_at resumes holds (here.level 1 rfl) on ?_⟩
      · rw [Machine.thread_of_running on]
        exact (Machine.setFrames_of_ne (by simp)).trans stack
      · simp [Machine.dispatch]
    · apply inv.here_other
      · simp [Machine.dispatch, same]
      · apply Machine.setFrames_of_ne
        rw [← isCpu]
        exact inv.thread_ne same
      · exact .refl m d
      · intro q on
        have different : q ≠ p := fun equal => off d (equal ▸ on)
        rw [others q different]
  · intro d q runs
    rcases dispatch_running.mp runs with ⟨rfl, -⟩ | ⟨different, on⟩
    · exact Machine.setFrames_self ..
    · apply Eq.trans _ (inv.away on)
      apply Machine.setFrames_of_ne
      simp [different]
  · intro q offAfter ready
    have different : q ≠ p := by
      intro equal
      exact offAfter c (dispatch_running.mpr (.inl ⟨rfl, equal⟩))
    have offBefore : ∀ d, m.running d ≠ some q := by
      intro d runs
      apply offAfter d
      apply dispatch_running.mpr
      refine .inr ⟨?_, runs⟩
      intro equal
      rw [equal, idle] at runs
      cases runs
    rw [others q different] at ready ⊢
    obtain ⟨h, rest, at_, parks⟩ := inv.parked q offBefore ready
    exact ⟨h, rest, (Machine.setFrames_of_ne (by simp)).trans at_, parks⟩

theorem step {a : Action ncpu} (inv : StackInv m) (stepped : Step m a next) :
    StackInv next := by
  cases stepped with
  | @exec _ f rest left instr after top executes effect =>
    by_cases switches : instr = .sched
    · subst switches
      exact inv.sched top executes effect
    · exact inv.exec top executes effect switches
  | dispatch top found => exact inv.dispatch top found
  | push top called isOver => exact inv.push top called isOver
  | iret top enabled => exact inv.iret top enabled
  | move top client moved at_ => exact inv.move top client moved at_
  | start top client holds at_ => exact inv.start top client holds at_
  | panic => exact inv.panic _

theorem boot (ncpu : Nat) : StackInv (boot ncpu) := by
  constructor
  · intro c d p on
    cases on
  · intro t
    cases t with
    | cpu c => exact ⟨trivial, rfl, trivial⟩
    | proc p =>
      by_cases first : p = 0
      · simp only [Sync.boot, first, if_true]
        exact ⟨trivial, ⟨.client, [], rfl, rfl⟩, trivial, rfl, trivial⟩
      · simp only [Sync.boot, first, if_false]
        trivial
  · intro p f member
    by_cases first : p = 0
    · simp only [Sync.boot, first, if_true, List.mem_cons, List.not_mem_nil, or_false] at member
      rcases member with rfl | rfl <;> rfl
    · simp [Sync.boot, first] at member
  · intro c
    exact ⟨∅, by simp [Sync.boot], rfl⟩
  · intro c
    refine ⟨.scheduler .acquire, [], rfl, by simp [Frame.needs], ?_, ?_⟩
    · intro n isLevel
      exact Option.some.inj isLevel
    · intro p on
      cases on
  · intro c p on
    cases on
  · intro p off ready
    by_cases first : p = 0
    · subst first
      exact ⟨.forkret, [.client], rfl, rfl⟩
    · simp [Sync.boot, first] at ready

end StackInv

end Xv6.Sync
