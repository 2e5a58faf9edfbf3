import Xv6.Sync.History

/-!
`sleep` and `wakeup`.

Owns: that every step keeps what the history knows; that `wakeup` returns; and that no
`wakeup` is lost.

Does not own: the history itself (`Xv6.Sync.History`).
-/

namespace Xv6.Sync

open Xv6.Process (Slot ProcState nproc)
open TransitionSystem

variable {ncpu : Nat} {m next : Machine ncpu} {c d : Fin ncpu} {a : Action ncpu} {f g : Frame}
  {h : History ncpu} {rest : List Frame} {p : Slot} {chan : Chan} {lk : Lock} {call : Call}
  {at_ : SleepPc} {instr : Instr}

/-! ## Preservation -/

/-- At most points there is nothing to know. -/
theorem Knows.of_inactive (calm : f.falling = false) (still : f.sweeps = none) :
    Knows m h c f where
  falling := by
    intro p chan lk at_ _ isSleep falling
    subst isSleep
    change at_.falling = false at calm
    rw [calm] at falling
    cases falling
  sweeping := by
    intro chan i sweeps
    rw [still] at sweeps
    cases sweeps

theorem Knows.of_interruptible (open_ : f.Interruptible) : Knows m h c f := by
  have none_ := open_.1
  apply Knows.of_inactive
  · cases f with
    | sleep chan lk at_ =>
      cases at_ with
      | acquireLk => rfl
      | _ => cases none_
    | _ => rfl
  · cases sweeps : f.sweeps with
    | none => rfl
    | some found =>
      have member := Frame.sweeps_needs sweeps
      simp [none_] at member

theorem Knows.of_client (client : f.isClient = true) : Knows m h c f :=
  .of_interruptible (Frame.isClient_interruptible client)

theorem Knows.of_resumes (resumes : f.resumes = true) : Knows m h c f := by
  apply Knows.of_inactive
  · cases f with
    | sleep chan lk at_ =>
      cases at_ with
      | clearChan => rfl
      | _ => cases resumes
    | _ => rfl
  · cases f <;> first | rfl | cases resumes

theorem Machine.event_none (top : m.frames (m.thread c) = f :: rest) (still : f.sweeps = none) :
    m.event (.run c) = none := by
  simp [Machine.event, top, still]

namespace SleepInv

theorem clock_step (sleeps : SleepInv m h) (t : Thread ncpu) (l : Lock) :
    (observe m a next h).acquired t l ≤ (observe m a next h).clock := by
  have bound := sleeps.clock t l
  simp only [observe]
  split <;> omega

theorem newest_step (sleeps : SleepInv m h) (inv : StackInv m) (stepped : Step m a next)
    {l : Lock} (different : l ≠ .ptable) (holds : next.owner l = some d) (t : Thread ncpu)
    (other : t ≠ next.thread d) :
    (observe m a next h).acquired t l < (observe m a next h).acquired (next.thread d) l := by
  rcases stepped.owner holds with held | ⟨isActor, free⟩
  · have sameThread : next.thread d = m.thread d := by
      rcases stepped.thread inv d with same | ⟨-, only⟩
      · exact same
      · exact absurd (only l held) different
    rw [sameThread] at other ⊢
    rw [observe_acquired (.inr (by simp [held])), observe_acquired (.inr (by simp [held]))]
    exact sleeps.newest different held t other
  · subst isActor
    have sameThread : next.thread a.cpu = m.thread a.cpu := by
      rcases stepped.thread inv a.cpu with same | ⟨sameOwner, -⟩
      · exact same
      · rw [sameOwner, free] at holds
        cases holds
    rw [sameThread] at other ⊢
    have now : (observe m a next h).acquired (m.thread a.cpu) l = h.clock + 1 :=
      if_pos ⟨rfl, free, holds⟩
    rw [observe_acquired (.inl other), now]
    exact Nat.lt_succ_of_le (sleeps.clock t l)

/-- The process that calls `sleep` is RUNNING. -/
theorem caller_running (inv : StackInv m) (stepped : Step m a next)
    (event : m.event a = some (.sleep p chan lk)) : (m.proc p).state = .running := by
  obtain ⟨isSleep, on⟩ := Machine.event_sleep event
  rw [isSleep] at stepped
  obtain ⟨f, rest, top, client, -⟩ := stepped.sleep
  exact (inv.here_of_top top).state_running (Frame.isClient_interruptible client).switching on

/-- A call that is asleep is not answered by the `wakeup` that returns: the loop has been
past its slot. -/
theorem asleep_missed (sleeps : SleepInv m h) (event : m.event a = some (.wakeup chan))
    (asleep : (m.proc p).state = .sleeping) (waits : call.chan = (m.proc p).chan) :
    call.answeredBy h (m.thread a.cpu) chan = false := by
  obtain ⟨-, f, rest, i, top, sweeps, done⟩ := Machine.event_wakeup event
  have swept := (sleeps.knows top).sweeping sweeps p (Nat.lt_of_lt_of_le p.isLt done)
  apply decide_eq_false
  intro answered
  exact swept ⟨asleep, waits.symm.trans answered.1⟩

theorem asleep_step (sleeps : SleepInv m h) (inv : StackInv m) (stepped : Step m a next)
    (p : Slot) (asleep : (next.proc p).state = .sleeping) :
    ∃ call, (observe m a next h).call p = some call ∧ call.chan = (next.proc p).chan ∧
      (observe m a next h).woken p = false := by
  obtain ⟨sameChan, before⟩ := stepped.asleep inv asleep
  have known : ∃ call, h.call p = some call ∧ call.chan = (m.proc p).chan ∧
      h.woken p = false := by
    rcases before with wasAsleep | ⟨on, chan, lk, rest, top⟩
    · exact sleeps.asleep p wasAsleep
    · obtain ⟨since, called, notWoken, -, waits⟩ := (sleeps.knows top).falling on rfl rfl
      exact ⟨_, called, (waits rfl).symm, notWoken⟩
  obtain ⟨call, called, waits, notWoken⟩ := known
  refine ⟨call, ?_, waits.trans sameChan.symm, ?_⟩
  · rw [observe_call, called]
    intro chan lk event
    -- A call of `sleep` leaves the table alone, so the caller would be asleep already.
    obtain ⟨isSleep, on⟩ := Machine.event_sleep event
    have running := caller_running inv stepped event
    rw [isSleep] at stepped
    obtain ⟨-, -, -, -, -, rfl⟩ := stepped.sleep
    change (m.proc p).state = .sleeping at asleep
    rw [running] at asleep
    cases asleep
  · apply observe_woken notWoken
    intro chan other event otherCalled
    rw [called] at otherCalled
    cases otherCalled
    rw [stepped.returns_proc event] at asleep
    exact sleeps.asleep_missed event asleep waits

/-- A call that is falling asleep is not answered either. Up to `acquire(&ptable.lock)` the
caller holds the lock it passes, so nobody has acquired it since; from there on it holds
`ptable.lock`, so nobody is in the loop. -/
theorem falling_missed (sleeps : SleepInv m h) (inv : StackInv m) (different : d ≠ a.cpu)
    {woken : Chan} (on : m.running d = some p)
    (top : m.frames (m.thread d) = .sleep chan lk at_ :: rest) (falling : at_.falling = true)
    (event : m.event a = some (.wakeup woken)) (called : h.call p = some call) :
    call.answeredBy h (m.thread a.cpu) woken = false := by
  obtain ⟨-, f, below, i, sweepTop, sweeps, -⟩ := Machine.event_wakeup event
  have sweeper := (inv.here_of_top sweepTop).locks _ (Frame.sweeps_needs sweeps)
  have here := inv.here_of_top top
  have inLoop : Lock.ptable ∉ (Frame.sleep chan lk at_).needs := by
    intro member
    exact different (Option.some.inj ((here.locks _ member).symm.trans sweeper))
  obtain ⟨since, sameCall, -, fresh, -⟩ := (sleeps.knows top).falling on rfl falling
  rw [called] at sameCall
  cases sameCall
  cases at_ with
  | acquirePtable =>
    have stacked := inv.stacked (m.thread d)
    rw [top] at stacked
    have exchanges : lk ≠ .ptable := stacked.1
    have holds : m.owner lk = some d := here.locks _ List.mem_cons_self
    have newest := sleeps.newest exchanges holds (m.thread a.cpu)
      (inv.thread_ne different).symm
    rw [Machine.thread_of_running on, ← fresh rfl] at newest
    apply decide_eq_false
    intro answered
    rcases answered.2 with isPtable | later
    · exact exchanges isPtable
    · exact Nat.lt_asymm newest later
  | releaseLk | setChan | setState => exact absurd (by simp [Frame.needs]) inLoop
  | _ => cases falling

theorem knows_other (sleeps : SleepInv m h) (inv : StackInv m) (stepped : Step m a next)
    (different : d ≠ a.cpu) (top : next.frames (next.thread d) = f :: rest) :
    Knows next (observe m a next h) d f := by
  obtain ⟨sameRunning, sameFrames⟩ := stepped.other inv different
  rw [Machine.thread_congr sameRunning, sameFrames] at top
  have knows := sleeps.knows top
  constructor
  · intro p chan lk at_ on isSleep falling
    subst isSleep
    rw [sameRunning] at on
    obtain ⟨since, called, notWoken, fresh, waits⟩ := knows.falling on rfl falling
    have elsewhere : m.running a.cpu ≠ some p := fun here =>
      different (inv.single on here)
    refine ⟨since, ?_, ?_, ?_, ?_⟩
    · rw [observe_call, called]
      intro chan lk event
      exact elsewhere (Machine.event_sleep event).2
    · apply observe_woken notWoken
      intro woken call event otherCalled
      exact sleeps.falling_missed inv different on top falling event otherCalled
    · intro first
      rw [fresh first, observe_acquired]
      exact .inl fun same => elsewhere (Machine.thread_eq_proc.mp same.symm)
    · intro last
      rw [(stepped.chan p).resolve_right elsewhere, waits last]
  · intro chan i sweeps q behind asleep
    obtain ⟨sameChan, before⟩ := stepped.asleep inv asleep.1
    rcases before with wasAsleep | ⟨-, _, _, _, falling⟩
    · exact knows.sweeping sweeps q behind ⟨wasAsleep, sameChan.symm.trans asleep.2⟩
    · have sweeper := (inv.here_of_top top).locks _ (Frame.sweeps_needs sweeps)
      have sleeper := (inv.here_of_top falling).locks .ptable List.mem_cons_self
      exact different (Option.some.inj (sweeper.symm.trans sleeper))

/-- `sleep` goes on from a point before it is SLEEPING. -/
theorem knows_sleep (sleeps : SleepInv m h) {before after : SleepPc}
    (top : m.frames (m.thread c) = .sleep chan lk before :: rest) (falling : before.falling = true)
    (running : next.running = m.running) (later : after ≠ .acquirePtable)
    (sets : after = .setState → ∀ p, m.running c = some p → (next.proc p).chan = chan) :
    Knows next (observe m (.run c) next h) c (.sleep chan lk after) where
  falling := by
    intro p _ _ _ on isSleep _
    cases isSleep
    rw [running] at on
    obtain ⟨since, called, notWoken, -, -⟩ := (sleeps.knows top).falling on rfl falling
    have quiet : m.event (.run c) = none := Machine.event_none top rfl
    refine ⟨since, ?_, ?_, ?_, ?_⟩
    · rw [observe_call (by simp [quiet]), called]
    · exact observe_woken notWoken (by simp [quiet])
    · exact fun first => absurd first later
    · exact fun last => sets last p on
  sweeping := by
    intro _ _ sweeps
    cases sweeps

/-- `wakeup1` goes on from a slot that it leaves awake. -/
theorem sweeping_wake (sleeps : SleepInv m h) {i : Nat} (top : m.frames (m.thread c) = f :: rest)
    (sweeps : f.sweeps = some (chan, i)) (inside : i < nproc) (q : Slot) (behind : q.val < i + 1) :
    ¬ Asleep (m.wake chan ⟨i, inside⟩) chan q := by
  intro asleep
  have unchanged : (m.wake chan ⟨i, inside⟩).proc q = m.proc q := by
    rcases m.wake_proc chan ⟨i, inside⟩ q with same | woken
    · exact same
    · have awake := asleep.1
      rw [woken] at awake
      cases awake
  have wasAsleep : Asleep m chan q := by
    unfold Asleep at asleep ⊢
    rwa [unchanged] at asleep
  by_cases last : q.val = i
  · have isSlot : q = ⟨i, inside⟩ := Fin.ext last
    have wakes : m.wake chan q = m.setProc q { m.proc q with state := .runnable } := by
      unfold Asleep at wasAsleep
      rw [Machine.wake, if_pos wasAsleep]
    rw [← isSlot, wakes] at asleep
    simp [Asleep, Machine.setProc] at asleep
  · exact (sleeps.knows top).sweeping sweeps q (by omega) wasAsleep

/-- A function goes on after one of its instructions. -/
theorem knows_code (sleeps : SleepInv m h) {more : List Frame} {t : Thread ncpu}
    {stack : List Frame} (top : m.frames (m.thread c) = f :: rest)
    (code : f.code = some (instr, g :: more)) (effect : Effect m c instr next)
    (stays : instr ≠ .sched) :
    Knows (next.setFrames t stack) (observe m (.run c) (next.setFrames t stack) h) c g := by
  have running : next.running = m.running := effect.running stays
  cases swept : f.sweeps with
  | some found =>
    obtain ⟨chan, i⟩ := found
    by_cases inside : i < nproc
    · obtain ⟨rfl, _, same, sweeps⟩ := Frame.sweeps_inside swept inside code
      cases same
      cases effect
      constructor
      · intro _ _ _ _ _ isSleep
        subst isSleep
        cases sweeps
      · intro _ _ found
        rw [sweeps] at found
        cases found
        exact sleeps.sweeping_wake top swept inside
    · cases (Frame.sweeps_done swept (Nat.le_of_not_lt inside) code).1
  | none =>
    cases f with
    | sleep chan lk at_ =>
      cases at_ with
      | acquirePtable | releaseLk =>
        cases code
        exact sleeps.knows_sleep top rfl running (by simp) (by simp)
      | setChan =>
        cases code
        refine sleeps.knows_sleep top rfl running (by simp) ?_
        intro _ p on
        cases effect with
        | setChan chan onCpu =>
          cases onCpu.symm.trans on
          simp [Machine.setProc, Machine.setFrames]
      | setState | releasePtable =>
        cases code
        exact .of_inactive rfl rfl
      | clearChan =>
        by_cases same : lk = .ptable
        · simp [Frame.code, same] at code
        · simp only [Frame.code, if_neg same] at code
          cases code
          exact .of_inactive rfl rfl
      | sched =>
        cases code
        exact absurd rfl stays
      | acquireLk => cases code
    | wakeup chan =>
      cases code
      constructor
      · intro _ _ _ _ _ isSleep
        cases isSleep
      · intro _ _ found q behind
        cases found
        exact absurd behind (Nat.not_lt_zero _)
    | wakeupLoop | wakeup1 => cases swept
    | yield at_ | exit at_ | scheduler at_ =>
      cases at_ <;> cases code <;> exact .of_inactive rfl rfl
    | client | handler | forkret => cases code

theorem knows_exec (sleeps : SleepInv m h) (inv : StackInv m) {left below : List Frame}
    (top : m.frames (m.thread a.cpu) = f :: rest) (executes : Executes a f instr left)
    (effect : Effect m a.cpu instr next) (stays : instr ≠ .sched)
    (newTop : left ++ rest = g :: below) :
    Knows (next.setFrames (m.thread a.cpu) (left ++ rest))
      (observe m a (next.setFrames (m.thread a.cpu) (left ++ rest)) h) a.cpu g := by
  cases executes with
  | acquire client | release client =>
    cases newTop
    exact .of_client client
  | @code c _ _ _ code =>
    cases left with
    | nil =>
      have stacked := inv.stacked (m.thread c)
      rw [show m.frames (m.thread c) = f :: rest from top] at stacked
      obtain ⟨_, _, isRest, client⟩ := stacked.below_client code
      rw [List.nil_append, isRest] at newTop
      cases newTop
      exact .of_client client
    | cons _ more =>
      cases newTop
      exact sleeps.knows_code top code effect stays

/-- `sleep` starts. -/
theorem knows_call (on : m.running c = some p) (holds : m.owner lk = some c)
    (running : next.running = m.running) :
    Knows next (observe m (.op c (.sleep chan lk)) next h) c
      (.sleep chan lk (SleepPc.first lk)) where
  falling := by
    intro q _ _ _ runs isSleep _
    cases isSleep
    rw [running] at runs
    cases on.symm.trans runs
    have event : m.event (.op c (.sleep chan lk)) = some (.sleep p chan lk) := by
      simp [Machine.event, on]
    refine ⟨h.acquired (.proc p) lk, ?_, ?_, ?_, ?_⟩
    · simp only [observe, event, Function.update_self]
    · simp only [observe, event, Function.update_self]
    · intro _
      rw [observe_acquired (.inr (by simp [holds]))]
    · intro isSetState
      by_cases same : lk = .ptable <;> simp [SleepPc.first, same] at isSetState
  sweeping := by
    intro _ _ sweeps
    cases sweeps

theorem knows_panic (sleeps : SleepInv m h) (inv : StackInv m) {left : List Frame}
    (top : m.frames (m.thread a.cpu) = f :: rest) (executes : Executes a f instr left) :
    Knows (m.panic a.cpu) (observe m a (m.panic a.cpu) h) a.cpu f := by
  cases executes with
  | acquire client | release client => exact .of_client client
  | @code c _ _ _ code =>
    have knows := sleeps.knows top
    constructor
    · intro p chan lk at_ on isSleep falling
      subst isSleep
      have quiet : m.event (.run c) = none := Machine.event_none top rfl
      obtain ⟨since, called, notWoken, fresh, waits⟩ := knows.falling on rfl falling
      refine ⟨since, ?_, ?_, ?_, waits⟩
      · rw [observe_call (by simp [quiet]), called]
      · exact observe_woken notWoken (by simp [quiet])
      · intro first
        subst first
        have holds := (inv.here_of_top top).locks lk List.mem_cons_self
        rw [fresh rfl, observe_acquired (.inr (by simp [holds]))]
    · exact knows.sweeping

theorem knows_self (sleeps : SleepInv m h) (inv : StackInv m) (stepped : Step m a next)
    (top : next.frames (next.thread a.cpu) = g :: rest) :
    Knows next (observe m a next h) a.cpu g := by
  cases stepped with
  | @exec _ f below left instr after topBefore executes effect =>
    by_cases switches : instr = .sched
    · subst switches
      cases effect with
      | @sched p on holds level =>
        -- The scheduler of the CPU goes on.
        have idle : ((m.leave a.cpu).setFrames (m.thread a.cpu) (left ++ below)).thread a.cpu =
            .cpu a.cpu := by
          simp [Machine.thread, Machine.setFrames, Machine.leave]
        have different : Thread.cpu a.cpu ≠ m.thread a.cpu := by
          rw [Machine.thread_of_running on]
          simp
        rw [idle, Machine.setFrames_of_ne different] at top
        cases (inv.away on).symm.trans top
        exact .of_inactive rfl rfl
    · have sameThread :
          (after.setFrames (m.thread a.cpu) (left ++ below)).thread a.cpu = m.thread a.cpu :=
        Machine.thread_congr (congrFun (effect.running switches) a.cpu)
      rw [sameThread, Machine.setFrames_self] at top
      exact sleeps.knows_exec inv topBefore executes effect switches top
  | panic topBefore executes panics =>
    cases topBefore.symm.trans top
    exact sleeps.knows_panic inv topBefore executes
  | @dispatch c p below topBefore found =>
    have holds := (inv.here_of_top topBefore).locks .ptable List.mem_cons_self
    have off := inv.not_running topBefore rfl holds (p := p) (by simp [found])
    have parked := inv.parked p off (.inl found)
    rw [found] at parked
    obtain ⟨_, _, stack, resumes⟩ := parked
    have on : (m.dispatch c p below).running c = some p :=
      StackInv.dispatch_running.mpr (.inl ⟨rfl, rfl⟩)
    have newTop : (m.dispatch c p below).frames (.proc p) = g :: rest := by
      rw [← Machine.thread_of_running on]
      exact top
    cases stack.symm.trans newTop
    exact .of_resumes resumes
  | @push _ f callee below topBefore called isOver =>
    cases (m.setFrames_self ..).symm.trans top
    cases called with
    | sleep on holds => exact knows_call on holds rfl
    | wakeup1 holds =>
      constructor
      · intro _ _ _ _ _ isSleep
        cases isSleep
      · intro _ _ found q behind
        cases found
        exact absurd behind (Nat.not_lt_zero _)
    | wakeup | yield | exit | handler => exact .of_inactive rfl rfl
  | @iret c below topBefore enabled =>
    have stacked := inv.stacked (m.thread c)
    rw [topBefore] at stacked
    obtain ⟨_, _, isRest, open_⟩ := stacked.2.1
    cases (m.setFrames_self ..).symm.trans top
    cases isRest
    exact .of_interruptible open_
  | move topBefore client moved at_ =>
    cases topBefore.symm.trans top
    exact .of_client client
  | @start c q f below topBefore client holds at_ =>
    have off := inv.not_running topBefore (Frame.isClient_interruptible client).switching holds
      (p := q) (by simp [at_]) c
    have different : m.thread c ≠ .proc q := fun same => off (Machine.thread_eq_proc.mp same)
    cases topBefore.symm.trans ((Machine.setFrames_of_ne different).symm.trans top)
    exact .of_client client

theorem step (sleeps : SleepInv m h) (inv : StackInv m) (stepped : Step m a next) :
    SleepInv next (observe m a next h) where
  clock := sleeps.clock_step
  newest := sleeps.newest_step inv stepped
  asleep := sleeps.asleep_step inv stepped
  knows := by
    intro d f rest top
    by_cases self : d = a.cpu
    · subst self
      exact sleeps.knows_self inv stepped top
    · exact sleeps.knows_other inv stepped self top

theorem boot (ncpu : Nat) : SleepInv (boot ncpu) (History.start ncpu) where
  clock _ _ := Nat.le_refl 0
  newest := by
    intro c l _ holds
    cases holds
  asleep p asleep := by
    by_cases first : p = 0 <;> simp [Sync.boot, first] at asleep
  knows := by
    intro c f rest top
    cases top
    exact .of_inactive rfl rfl

/-- The run lemma. -/
theorem of_run {actions : List (Action ncpu)} {final : Machine ncpu × History ncpu}
    (ran : run (watch Sync.step observe) (Sync.boot ncpu, History.start ncpu) actions =
      some final) :
    StackInv final.1 ∧ SleepInv final.1 final.2 := by
  apply run_invariant (fun watched => StackInv watched.1 ∧ SleepInv watched.1 watched.2) _ _ ran
  · intro before action after holds taken
    obtain ⟨stepped, remembered⟩ := watch_eq_some.mp taken
    rw [remembered]
    have inverted := Step.of_step stepped
    exact ⟨holds.1.step inverted, holds.2.step holds.1 inverted⟩
  · exact ⟨.boot ncpu, .boot ncpu⟩

end SleepInv

/-! ## Returning from sleep -/

/-- The two ways in which `sleep` returns. -/
theorem Frame.sleep_returns (code : (Frame.sleep chan lk at_).code = some (instr, [])) :
    lk = .ptable ∧ at_ = .clearChan ∧ instr = .setChan 0 ∨
      at_ = .acquireLk ∧ instr = .acquire lk := by
  cases at_ with
  | clearChan =>
    by_cases same : lk = .ptable
    · simp only [Frame.code, if_pos same] at code
      cases code
      exact .inl ⟨same, rfl, rfl⟩
    · simp [Frame.code, same] at code
  | acquireLk =>
    cases code
    exact .inr ⟨rfl, rfl⟩
  | _ => simp [Frame.code] at code

theorem StackInv.holds_on_return (inv : StackInv m)
    (top : m.frames (m.thread c) = .sleep chan lk at_ :: rest)
    (code : (Frame.sleep chan lk at_).code = some (instr, [])) (effect : Effect m c instr next) :
    next.running = m.running ∧ next.owner lk = some c ∧
      (lk ≠ .ptable → next.owner .ptable ≠ some c) := by
  have here := inv.here_of_top top
  rcases Frame.sleep_returns code with ⟨rfl, rfl, rfl⟩ | ⟨rfl, rfl⟩
  · cases effect
    exact ⟨rfl, here.locks _ List.mem_cons_self, fun different => absurd rfl different⟩
  · have nothing : m.owner .ptable ≠ some c := fun holds =>
      (inv.account c).ncli_ne_zero holds (here.level 0 rfl)
    cases effect
    refine ⟨rfl, by simp [Machine.take], ?_⟩
    intro different
    simpa [Machine.take, different.symm] using nothing

theorem StackInv.sleep_returns (inv : StackInv m) (stepped : Step m a next)
    (before : m.frames (.proc p) = .sleep chan lk at_ :: rest)
    (after : next.frames (.proc p) = rest) :
    ∃ c, next.running c = some p ∧ next.owner lk = some c ∧
      (lk ≠ .ptable → next.owner .ptable ≠ some c) := by
  have changed : next.frames (.proc p) ≠ m.frames (.proc p) := by
    rw [before, after]
    exact (List.cons_ne_self _ _).symm
  have onTop : ∀ {t : Thread ncpu} {machine : Machine ncpu} {stack : List Frame},
      machine.frames = m.frames → next = machine.setFrames t stack → t = .proc p := by
    intro t machine stack same isNext
    by_contra different
    apply changed
    rw [isNext, Machine.setFrames_of_ne (Ne.symm different), same]
  cases stepped with
  | @exec _ f below left instr next top executes effect =>
    have isProc := onTop effect.frames rfl
    have on := Machine.thread_eq_proc.mp isProc
    rw [isProc, Machine.setFrames_self] at after
    cases before.symm.trans (isProc ▸ top)
    have returns : left = [] := by simpa using after
    subst returns
    cases executes with
    | @code c _ _ _ code =>
      obtain ⟨running, holds, free⟩ := inv.holds_on_return top code effect
      exact ⟨c, (congrFun running c).trans on, holds, free⟩
  | panic | move => exact absurd rfl changed
  | dispatch top found => exact absurd (Machine.setFrames_of_ne (by simp)) changed
  | push top called isOver =>
    have isProc := onTop rfl rfl
    rw [Machine.push, isProc, Machine.setFrames_self, before] at after
    have longer := congrArg List.length after
    simp only [List.length_cons] at longer
    omega
  | iret top enabled =>
    have isProc := onTop rfl rfl
    rw [isProc, before] at top
    cases top
  | @start c q f below top client holds at_ =>
    have isProc := onTop (show (m.setProc q _).frames = m.frames from rfl) rfl
    rw [isProc, Machine.setFrames_self] at after
    -- Nothing rests on the frame `fork` starts a process with.
    have stacked := inv.stacked (.proc p)
    rw [before, ← after] at stacked
    obtain ⟨_, _, same, isClient⟩ := stacked.2.1
    cases same
    cases isClient

/-! ## Wakeup returns -/

/-- One round of the loop of `wakeup`. -/
theorem step_sweep {i : Nat} (alive : m.halted c = false)
    (top : m.frames (m.thread c) = .wakeupLoop chan i :: rest) (inside : i < nproc) :
    step m (.run c) = some ((m.wake chan ⟨i, inside⟩).setFrames (m.thread c)
      (.wakeupLoop chan (i + 1) :: rest)) := by
  simp [step, Action.cpu, alive, top, Machine.run, Frame.code, inside, Machine.exec,
    Machine.panics, Machine.effect]

theorem observe_quiet (quiet : m.event a = none) (owner : next.owner = m.owner) :
    (observe m a next h).call = h.call ∧ (observe m a next h).woken = h.woken ∧
      (observe m a next h).acquired = h.acquired := by
  refine ⟨by simp only [observe, quiet], by simp only [observe, quiet], ?_⟩
  funext t l
  apply if_neg
  intro took
  rw [owner, took.2.1] at took
  cases took.2.2

/-- The loop runs through the rest of the table, and the history stays as it is. -/
theorem run_sweep (k : Nat) :
    ∀ {m : Machine ncpu} {h : History ncpu} {i : Nat}, m.halted c = false →
      m.frames (m.thread c) = .wakeupLoop chan i :: rest → i + k = nproc →
      ∃ final, run (watch step observe) (m, h) (List.replicate k (.run c)) = some final ∧
        final.1.halted c = false ∧ final.1.thread c = m.thread c ∧
        final.1.owner = m.owner ∧
        final.1.frames (m.thread c) = .wakeupLoop chan nproc :: rest ∧
        final.2.call = h.call ∧ final.2.acquired = h.acquired := by
  induction k with
  | zero =>
    intro m h i alive top done
    have last : i = nproc := by omega
    exact ⟨(m, h), rfl, alive, rfl, rfl, last ▸ top, rfl, rfl⟩
  | succ k ih =>
    intro m h i alive top done
    have inside : i < nproc := by omega
    have taken := step_sweep alive top inside
    have quiet : m.event (.run c) = none := by simp [Machine.event, top, Frame.sweeps, inside]
    generalize isNext : (m.wake chan ⟨i, inside⟩).setFrames (m.thread c)
      (.wakeupLoop chan (i + 1) :: rest) = next at taken
    have owner : next.owner = m.owner := by
      rw [← isNext]
      rfl
    have thread : next.thread c = m.thread c := by
      rw [← isNext]
      rfl
    have nextTop : next.frames (next.thread c) = .wakeupLoop chan (i + 1) :: rest := by
      rw [thread, ← isNext, Machine.setFrames_self]
    have nextAlive : next.halted c = false := by
      rw [← isNext]
      exact alive
    obtain ⟨sameCall, -, sameAcquired⟩ := observe_quiet (h := h) quiet owner
    obtain ⟨final, later, stillAlive, sameThread, sameOwner, loop, call, acquired⟩ :=
      ih (h := observe m (.run c) next h) nextAlive nextTop (by omega)
    rw [thread] at sameThread loop
    exact ⟨final, watch_cons taken later, stillAlive, sameThread, sameOwner.trans owner, loop,
      call.trans sameCall, acquired.trans sameAcquired⟩

/-- A `wakeup` that has `ptable.lock` returns after one round for each slot, and has then
answered every call it had to. -/
theorem wakeup_returns (alive : m.halted c = false) (holds : m.owner .ptable = some c)
    (top : m.frames (m.thread c) = .wakeupLoop chan 0 :: rest) :
    ∃ final, run (watch step observe) (m, h) (List.replicate (nproc + 1) (.run c)) =
        some final ∧ final.1.frames (m.thread c) = rest ∧
      ∀ p call, h.call p = some call → call.answeredBy h (m.thread c) chan = true →
        final.2.woken p = true := by
  obtain ⟨⟨middle, seen⟩, ran, stillAlive, sameThread, sameOwner, loop, sameCall, sameAcquired⟩ :=
    run_sweep (h := h) nproc alive top (Nat.zero_add nproc)
  dsimp only at stillAlive sameThread sameOwner loop sameCall sameAcquired
  have loopTop : middle.frames (middle.thread c) = .wakeupLoop chan nproc :: rest := by
    rw [sameThread, loop]
  have released : middle.owner .ptable = some c := by rw [sameOwner, holds]
  have last : step middle (.run c) =
      some ((middle.drop c .ptable).setFrames (middle.thread c) rest) := by
    simp [step, Action.cpu, stillAlive, loopTop, Machine.run, Frame.code, Machine.exec,
      Machine.panics, Machine.effect, released]
  have event : middle.event (.run c) = some (.wakeup chan) := by
    simp [Machine.event, loopTop, Frame.sweeps]
  generalize isNext : (middle.drop c .ptable).setFrames (middle.thread c) rest = next at last
  have taken : watch step observe (middle, seen) (.run c) =
      some (next, observe middle (.run c) next seen) := watch_eq_some.mpr ⟨last, rfl⟩
  have whole := run_snoc.mpr ⟨_, ran, taken⟩
  rw [← List.replicate_succ'] at whole
  refine ⟨_, whole, ?_, ?_⟩
  · rw [← isNext, ← sameThread, Machine.setFrames_self]
  · intro p call called answered
    have stillAnswered : call.answeredBy seen (middle.thread c) chan = true := by
      rw [sameThread]
      simpa only [Call.answeredBy, sameAcquired] using answered
    have stillCalled : seen.call p = some call := by rw [sameCall, called]
    simp only [observe, event, stillCalled, Option.any_some, Action.cpu, stillAnswered,
      Bool.or_true]

/-! ## No wakeup is lost -/

/-- On any number of CPUs, in every run: a process is not SLEEPING in the call of `sleep`
that a `wakeup` has answered, where the caller of `wakeup` acquired the lock of that call
after the sleeper did, or the lock is `ptable.lock`; and `sleep` returns to a process that
holds its lock again, and not `ptable.lock` unless that is the lock. -/
theorem no_lost_wakeup {actions : List (Action ncpu)} {m : Machine ncpu} {h : History ncpu}
    (ran : run (watch step observe) (boot ncpu, History.start ncpu) actions = some (m, h)) :
    (∀ p, h.woken p = true → (m.proc p).state ≠ .sleeping) ∧
      ∀ a next p chan lk at_ rest, step m a = some next →
        m.frames (.proc p) = .sleep chan lk at_ :: rest → next.frames (.proc p) = rest →
        ∃ c, next.running c = some p ∧ next.owner lk = some c ∧
          (lk ≠ .ptable → next.owner .ptable ≠ some c) := by
  obtain ⟨inv, sleeps⟩ := SleepInv.of_run ran
  constructor
  · intro p woken asleep
    obtain ⟨_, -, -, notWoken⟩ := sleeps.asleep p asleep
    rw [woken] at notWoken
    cases notWoken
  · intro a next p chan lk at_ rest stepped before after
    exact inv.sleep_returns (Step.of_step stepped) before after

/-- The first process starts a second one and yields. The second sleeps on channel 7 with
lock 0, and the first takes that lock. -/
def sleepRun : List (Action 1) :=
  let run (n : Nat) := List.replicate n (Action.run (0 : Fin 1))
  let op (o : Op) := [Action.op (0 : Fin 1) o]
  run 3 ++ op (.acquire .ptable) ++ op (.alloc 1) ++ op (.start 1) ++ op (.release .ptable) ++
    op .yield ++ run 3 ++ run 4 ++ op (.acquire (.other 0)) ++ op (.sleep 7 (.other 0)) ++
    run 5 ++ run 4 ++ op (.acquire (.other 0))

/-- The first process calls `wakeup`, up to its loop. -/
def wakeupRun : List (Action 1) :=
  sleepRun ++ [.op 0 (.wakeup 7), .run 0]

/-- The first process kills the second and yields; the second is about to take the lock
again. -/
def returnRun : List (Action 1) :=
  sleepRun ++ [.op 0 (.release (.other 0)), .op 0 (.acquire .ptable), .op 0 (.kill 1),
    .op 0 (.release .ptable), .op 0 .yield] ++ List.replicate 8 (.run 0)

theorem no_lost_wakeup_oneCpu :
    (∃ m h, run (watch step observe) (boot 1, History.start 1)
        (wakeupRun ++ List.replicate (nproc + 1) (.run 0)) = some (m, h) ∧
      h.woken 1 = true ∧ (m.proc 1).state ≠ .sleeping) ∧
    ∃ m h next, run (watch step observe) (boot 1, History.start 1) returnRun = some (m, h) ∧
      step m (.run 0) = some next ∧
      m.frames (.proc 1) = [.sleep 7 (.other 0) .acquireLk, .client] ∧
      next.frames (.proc 1) = [.client] ∧
      ∃ c, next.running c = some 1 ∧ next.owner (.other 0) = some c ∧
        next.owner .ptable ≠ some c := by
  constructor
  · have shape : (run (watch step observe) (boot 1, History.start 1) wakeupRun).map
        (fun watched => (watched.1.halted 0, watched.1.owner .ptable,
          watched.1.frames (watched.1.thread 0),
          (watched.2.call 1).map fun call => call.answeredBy watched.2 (watched.1.thread 0) 7)) =
        some (false, some 0, [.wakeupLoop 7 0, .client], some true) := by
      decide +kernel
    obtain ⟨⟨middle, seen⟩, ran, observed⟩ := Option.map_eq_some_iff.mp shape
    simp only [Prod.mk.injEq] at observed
    obtain ⟨alive, holds, top, called⟩ := observed
    obtain ⟨call, isCall, answered⟩ := Option.map_eq_some_iff.mp called
    obtain ⟨⟨m, h⟩, later, -, wakes⟩ := wakeup_returns (h := seen) alive holds top
    have whole := run_append.mpr ⟨_, ran, later⟩
    have woken := wakes 1 call isCall answered
    exact ⟨m, h, whole, woken, (no_lost_wakeup whole).1 1 woken⟩
  · have shape : ((run (watch step observe) (boot 1, History.start 1) returnRun).bind
        fun watched => (step watched.1 (.run 0)).map fun next =>
          (watched.1.frames (.proc 1), next.frames (.proc 1))) =
        some ([.sleep 7 (.other 0) .acquireLk, .client], [.client]) := by
      decide +kernel
    obtain ⟨⟨m, h⟩, ran, continued⟩ := Option.bind_eq_some_iff.mp shape
    obtain ⟨next, stepped, seen⟩ := Option.map_eq_some_iff.mp continued
    simp only [Prod.mk.injEq] at seen
    obtain ⟨before, after⟩ := seen
    obtain ⟨c, on, holds, free⟩ :=
      (no_lost_wakeup ran).2 _ next 1 7 (.other 0) _ _ stepped before after
    exact ⟨m, h, next, ran, stepped, before, after, c, on, holds, free (by simp)⟩

end Xv6.Sync
