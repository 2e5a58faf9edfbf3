import Xv6.Process.ExitWait

/-!
What a step does to one slot.

Owns: which CPU's process carries out an action; what one step can do to a slot of the table, to
the point its process has reached, and to the CPU it has; and the frame facts that follow for
every other process: it stays live, it stays outside the calls it is outside of, and it does not
fall asleep.

Does not own: any invariant. The facts here are what the models built over the kernel
need to know about its steps.
-/

namespace Xv6.Process

open Function (update update_self update_of_ne)

variable {ncpu : Nat} {p : Slot} {before after q : Proc}

/-- The CPU whose process carries out the action as code of its own. Interrupts and the
scheduler are nobody's code, and a tick in the kernel only charges the process. -/
def Action.caller : Action ncpu → Option (Fin ncpu)
  | .scheduler _ => none
  | .tick c user => if user then some c else none
  | .wakeup _ => none
  | .clock => none
  | .sleep c _ => some c
  | .kill c _ => some c
  | .fault c => some c
  | .setquantumPid c _ _ => some c
  | .fdalloc c _ => some c
  | .fdclose c _ => some c
  | .chdir c _ => some c
  | .forkAlloc c => some c
  | .forkKalloc c _ => some c
  | .forkCopyuvm c _ => some c
  | .forkUndo c => some c
  | .forkParent c => some c
  | .forkFiles c => some c
  | .forkFinish c => some c
  | .exitCall c => some c
  | .exitClose c => some c
  | .exitCwd c => some c
  | .exitFinish c => some c
  | .wait c => some c

/-- The action is not code of the process in `slot`. -/
def Kernel.notBy (k : Kernel ncpu) (slot : Slot) (action : Action ncpu) : Prop :=
  ∀ c, action.caller = some c → k.cpu c ≠ some slot

section Frame

variable {k k' : Kernel ncpu} {slot : Slot} {action : Action ncpu}

theorem Kernel.waitLoop_pc {c : Fin ncpu} (different : slot ≠ p) :
    (k.waitLoop c p).pc slot = k.pc slot := by
  unfold Kernel.waitLoop
  cases waitScan k.proc p <;> simp [Kernel.sleep, update_of_ne different]

/-! ## The point a process has reached -/

def Pc.inExit : Pc → Bool
  | .exiting _ _ => true
  | .leaving _ => true
  | _ => false

/-- What a step does to the point of the process in `slot`. A live process with interrupts off
keeps them off, and `exit` does not return. -/
structure PcStep (k k' : Kernel ncpu) (slot : Slot) (action : Action ncpu) : Prop where
  outside : k.notBy slot action → k.pc slot = .normal → k'.pc slot = .normal
  open_ : (k'.proc slot).state.live = true → (k'.pc slot).interruptible = true →
    (k.pc slot).interruptible = true
  exits : (k'.proc slot).state.live = true → (k.pc slot).inExit = true →
    (k'.pc slot).inExit = true

theorem PcStep.kept (same : k'.pc slot = k.pc slot) : PcStep k k' slot action := by
  constructor <;> rw [same]
  all_goals exact fun _ => id

/-- The process that acts moves on. -/
theorem PcStep.move {c : Fin ncpu} {pc pc' : Pc} (moved : k'.pc = update k.pc p pc')
    (on : k.cpu c = some p) (caller : action.caller = some c) (at_ : k.pc p = pc)
    (open_ : (k'.proc p).state.live = true →
      (pc'.interruptible = true → pc.interruptible = true) ∧ (pc.inExit = true → pc'.inExit = true)) :
    PcStep k k' slot action := by
  by_cases same : slot = p
  · subst same
    refine ⟨fun other => absurd on (other c caller), ?_, ?_⟩
    all_goals rw [moved, update_self, at_]
    · exact fun live => (open_ live).1
    · exact fun live => (open_ live).2
  · exact .kept (by rw [moved, update_of_ne same])

/-- A process that resumes inside `wait` goes round its loop. -/
theorem PcStep.resumed {pc' : Pc} (moved : k'.pc = update k.pc p pc') (inWait : k.pc p = .waiting) :
    PcStep k k' slot action := by
  by_cases same : slot = p
  · subst same
    refine ⟨fun _ outside => ?_, fun _ _ => by rw [inWait]; rfl, fun _ exits => ?_⟩
    · rw [inWait] at outside
      cases outside
    · rw [inWait] at exits
      cases exits
  · exact .kept (by rw [moved, update_of_ne same])

theorem Kernel.waitLoop_pc_cases (k : Kernel ncpu) (c : Fin ncpu) (p : Slot) :
    ∃ pc', (k.waitLoop c p).pc = update k.pc p pc' := by
  unfold Kernel.waitLoop
  cases waitScan k.proc p with
  | reap | fail => exact ⟨.normal, rfl⟩
  | sleep => exact ⟨.waiting, rfl⟩

theorem PcStep.scheduler {c : Fin ncpu} : PcStep k (k.scheduler c) slot action := by
  unfold Kernel.scheduler
  cases schedulerSearch k.proc k.rrNext with
  | none => exact .kept rfl
  | some p =>
    simp only [Kernel.resume]
    cases ((k.dispatch c p).proc p).context with
    | forkret | yield => exact .kept rfl
    | sleep =>
      simp only
      split
      · rename_i inWait
        obtain ⟨pc', moved⟩ := ((k.dispatch c p).clearChan p).waitLoop_pc_cases c p
        exact .resumed moved inWait
      · exact .kept rfl

theorem Step.pcStep (step : Step k action k') (slot : Slot) : PcStep k k' slot action := by
  have left {pc pc' : Pc} (open_ : pc.interruptible = true) (outside : pc.inExit = false) :
      (pc'.interruptible = true → pc.interruptible = true) ∧ (pc.inExit = true → pc'.inExit = true) :=
    ⟨fun _ => open_, fun inside => nomatch outside.symm.trans inside⟩
  cases step with
  | scheduler idle => exact .scheduler
  | tick on open_ _ ticked =>
    cases Kernel.Ticked.of_tick ticked with
    | leave isUser _ _ =>
      exact .move rfl on (by simp [Action.caller, isUser]) rfl fun _ => ⟨fun _ => open_, fun _ => rfl⟩
    | expire | charge => exact .kept rfl
  | fdalloc on at_ =>
    unfold Kernel.fdalloc
    split <;> exact .kept rfl
  | @forkAlloc c p on at_ =>
    rcases k.forkAlloc_cases p with unchanged | ⟨np, _, changed⟩
    · exact .kept (by rw [unchanged])
    · rw [changed]
      exact .move rfl on rfl at_ fun _ => left rfl rfl
  | @forkKalloc c p np page on at_ => cases page <;> exact .move rfl on rfl at_ fun _ => left rfl rfl
  | @forkCopyuvm c p np copied on at_ =>
    cases copied <;> exact .move rfl on rfl at_ fun _ => left rfl rfl
  | exitClose on at_ | exitCwd on at_ => exact .move rfl on rfl at_ fun _ => ⟨id, id⟩
  | exitFinish on at_ =>
    refine .move rfl on rfl at_ fun live => ?_
    simp [Kernel.exitFinish, exitTable, ProcState.live] at live
  | @wait c p on at_ =>
    obtain ⟨pc', moved⟩ := k.waitLoop_pc_cases c p
    exact .move moved on rfl at_ fun _ => left rfl rfl
  | forkUndo on at_ _ | forkParent on at_ | forkFiles on at_ | forkFinish on at_
  | exitCall on at_ _ => exact .move rfl on rfl at_ fun _ => left rfl rfl
  | _ => exact .kept rfl

/-! ## The CPU a process has -/

theorem Kernel.waitLoop_cpu {c c' : Fin ncpu} (different : c ≠ c') :
    (k.waitLoop c' p).cpu c = k.cpu c := by
  unfold Kernel.waitLoop
  cases waitScan k.proc p <;> simp [Kernel.sleep, update_of_ne different]

theorem Kernel.scheduler_cpu {c c' : Fin ncpu} (different : c ≠ c') :
    (k.scheduler c').cpu c = k.cpu c := by
  unfold Kernel.scheduler
  cases schedulerSearch k.proc k.rrNext with
  | none => rfl
  | some p =>
    have chosen : (k.dispatch c' p).cpu c = k.cpu c := update_of_ne different _ _
    simp only [Kernel.resume]
    cases ((k.dispatch c' p).proc p).context with
    | forkret | yield => exact chosen
    | sleep =>
      simp only
      split
      · exact (Kernel.waitLoop_cpu different).trans chosen
      · exact chosen

/-- Only `scheduler` gives a CPU away. -/
theorem Step.cpu_of_cpu (step : Step k action k') {c : Fin ncpu} (other : action ≠ .scheduler c)
    (on : k'.cpu c = some p) : k.cpu c = some p := by
  have freed {c' : Fin ncpu} : update k.cpu c' none c = some p → k.cpu c = some p :=
    Update.cases c (fun on => nomatch on) fun _ => id
  cases step with
  | @scheduler c' idle =>
    rwa [Kernel.scheduler_cpu fun same => other (by rw [same])] at on
  | tick _ _ _ ticked =>
    cases Kernel.Ticked.of_tick ticked with
    | leave _ _ _ => exact on
    | expire _ _ => exact freed on
    | charge _ _ => exact on
  | fdalloc _ _ =>
    unfold Kernel.fdalloc at on
    split at on <;> exact on
  | @forkAlloc c' q _ _ =>
    rcases k.forkAlloc_cases q with unchanged | ⟨np, _, changed⟩
    · rwa [unchanged] at on
    · rwa [changed] at on
  | @forkKalloc c' q np page _ _ => cases page <;> exact on
  | @forkCopyuvm c' q np copied _ _ => cases copied <;> exact on
  | @wait c' q _ _ =>
    unfold Kernel.waitLoop at on
    split at on
    · exact on
    · exact on
    · exact freed on
  | sleep _ _ _ | exitFinish _ _ => exact freed on
  | _ => exact on

/-! ## The slot -/

/-- If `after` is asleep, so was `before`, on the same channel. -/
def AsleepFrom (before after : Proc) : Prop :=
  ∀ chan, after.state = .sleeping → after.chan = some chan →
    before.state = .sleeping ∧ before.chan = some chan

theorem AsleepFrom.refl (p : Proc) : AsleepFrom p p := fun _ asleep chan => ⟨asleep, chan⟩

theorem AsleepFrom.awake (awake : after.state ≠ .sleeping) :
    AsleepFrom before after := fun _ asleep => absurd asleep awake

theorem AsleepFrom.same (state : after.state = before.state) (chan : after.chan = before.chan) :
    AsleepFrom before after := by
  intro other asleep isChan
  exact ⟨state.symm.trans asleep, chan.symm.trans isChan⟩

theorem Woken.asleepFrom (woken : Woken before after) : AsleepFrom before after := by
  rcases woken with same | ⟨_, same⟩
  · rw [same]
    exact AsleepFrom.refl before
  · rw [same]
    exact AsleepFrom.awake (by simp)

/-- A store that counts nothing: the process stays what it is, falls asleep or wakes up. -/
structure Keeps (before after : Proc) : Prop where
  stats : after.stats = before.stats
  timeslice : after.timeslice = before.timeslice
  ticksUsed : after.ticksUsed = before.ticksUsed ∨ after.ticksUsed = 0 ∧ after.state ≠ .running
  started : before.state ≠ .unused → before.state ≠ .embryo →
    (after.state ≠ .unused ∧ after.state ≠ .embryo) ∧ after.pid = before.pid
  used : after.state ≠ .unused → before.state ≠ .unused
  live : after.state.live = before.state.live
  running : after.state = .running → before.state = .running

theorem Keeps.same (state : after.state = before.state) (pid : after.pid = before.pid)
    (timeslice : after.timeslice = before.timeslice)
    (ticksUsed : after.ticksUsed = before.ticksUsed) (stats : after.stats = before.stats) :
    Keeps before after := by
  refine ⟨stats, timeslice, .inl ticksUsed, ?_, ?_, ?_, ?_⟩ <;> rw [state]
  · exact fun used started => ⟨⟨used, started⟩, pid⟩
  · exact id
  · exact id

theorem Keeps.trans {first second third : Proc} (early : Keeps first second)
    (late : Keeps second third) : Keeps first third where
  stats := late.stats.trans early.stats
  timeslice := late.timeslice.trans early.timeslice
  ticksUsed := by
    rcases late.ticksUsed with same | reset
    · refine early.ticksUsed.imp same.trans fun reset => ⟨same.trans reset.1, ?_⟩
      exact fun runs => reset.2 (late.running runs)
    · exact .inr reset
  started := by
    intro used started
    obtain ⟨middle, pid⟩ := early.started used started
    obtain ⟨after, pid'⟩ := late.started middle.1 middle.2
    exact ⟨after, pid'.trans pid⟩
  used := fun used => early.used (late.used used)
  live := late.live.trans early.live
  running := fun runs => early.running (late.running runs)

/-- A live process goes to sleep, or is woken. -/
theorem Keeps.turn (alive : before.state.live = true) (stats : after.stats = before.stats)
    (timeslice : after.timeslice = before.timeslice) (pid : after.pid = before.pid)
    (ticksUsed : after.ticksUsed = 0) (state : after.state = .sleeping ∨ after.state = .runnable) :
    Keeps before after := by
  refine ⟨stats, timeslice, .inr ⟨ticksUsed, ?_⟩, fun _ _ => ⟨⟨?_, ?_⟩, pid⟩,
    fun _ => ProcState.live_ne_unused alive, ?_, ?_⟩
  case refine_4 =>
    rw [alive]
    rcases state with state | state <;> rw [state] <;> rfl
  all_goals rcases state with state | state <;> simp [state]

theorem Woken.keeps (woken : Woken before after) : Keeps before after := by
  rcases woken with same | ⟨asleep, same⟩
  · rw [same]
    exact .same rfl rfl rfl rfl rfl
  · rw [same]
    exact .turn (by rw [asleep]; rfl) rfl rfl rfl rfl (.inr rfl)

/-- The slot that `scheduler` selects, up to `swtch`. -/
def dispatched (p : Proc) : Proc :=
  { p with
    ticksUsed := 0
    state := .running
    stats := { p.stats with ctxSwitches := p.stats.ctxSwitches + 1 } }

/-- What `update_sleep_stats` counts for a process. -/
structure Counted (p : Proc) (stats : PStats) : Prop where
  cpuTicks : stats.cpuTicks = p.stats.cpuTicks
  ctxSwitches : stats.ctxSwitches = p.stats.ctxSwitches
  preemptions : stats.preemptions = p.stats.preemptions
  sleepTicks : stats.sleepTicks = p.stats.sleepTicks + if p.state = .sleeping then 1 else 0
  runnableTicks : stats.runnableTicks = p.stats.runnableTicks + if p.state = .runnable then 1 else 0

theorem updateSleepStats_counted (table : Table) (slot : Slot) :
    ∃ stats, updateSleepStats table slot = { table slot with stats := stats } ∧
      Counted (table slot) stats := by
  unfold updateSleepStats
  simp only
  split
  · rename_i asleep
    exact ⟨_, rfl, rfl, rfl, rfl, by rw [if_pos asleep], by simp [asleep]⟩
  · rename_i awake
    split
    · rename_i ready
      exact ⟨_, rfl, rfl, rfl, rfl, by rw [if_neg awake]; rfl, by rw [if_pos ready]⟩
    · rename_i waits
      exact ⟨_, rfl, rfl, rfl, rfl, by rw [if_neg awake]; rfl, by rw [if_neg waits]; rfl⟩

/-- The process falls asleep at most in `wait`, or as the action says. -/
def Awake (action : Action ncpu) (before after : Proc) : Prop :=
  ∀ chan, chan.isProc = false → (∀ c, action ≠ .sleep c chan) → after.state = .sleeping →
    after.chan = some chan → before.state = .sleeping ∧ before.chan = some chan

theorem AsleepFrom.awakeIn (from_ : AsleepFrom before after) : Awake action before after :=
  fun chan _ _ => from_ chan

def Action.isTick : Action ncpu → Bool
  | .tick _ _ => true
  | _ => false

/-- What one step can do to a slot. -/
inductive SlotStep (k k' : Kernel ncpu) (slot : Slot) : Action ncpu → Prop where
  | kept {act : Action ncpu} (noTick : act.isTick = false)
      (keeps : Keeps (k.proc slot) (k'.proc slot))
      (awake : Awake act (k.proc slot) (k'.proc slot)) : SlotStep k k' slot act
  | elsewhere {c user} (other : k.cpu c ≠ some slot) (after : k'.proc slot = k.proc slot) :
      SlotStep k k' slot (.tick c user)
  | alloced {c} (free : (k.proc slot).state = .unused)
      (after : k'.proc slot = embryoOf (k.proc slot) k.nextpid) : SlotStep k k' slot (.forkAlloc c)
  | reaped {act : Action ncpu} {caller : Int} (dead : (k.proc slot).state = .zombie)
      (waited : .waited caller (k.proc slot).pid ∈ k.events act)
      (after : k'.proc slot = reaped (k.proc slot)) : SlotStep k k' slot act
  | started {c p} (on : k.cpu c = some p) (at_ : k.pc p = .forking slot .filed)
      (after : k'.proc slot = madeRunnable (k.proc slot)) : SlotStep k k' slot (.forkFinish c)
  | selected {c} (ready : (k.proc slot).state = .runnable)
      (keeps : Keeps (dispatched (k.proc slot)) (k'.proc slot))
      (awake : Awake (.scheduler c) (k.proc slot) (k'.proc slot)) :
      SlotStep k k' slot (.scheduler c)
  | restarted {c pid quantum} (range : 1 ≤ quantum ∧ quantum ≤ 100) (holds : (k.proc slot).pid = pid)
      (succeeds : (setquantumPid k.proc pid quantum).2 = 0)
      (after : k'.proc slot = { k.proc slot with timeslice := quantum, ticksUsed := 0 }) :
      SlotStep k k' slot (.setquantumPid c pid quantum)
  | charged {c user} (on : k.cpu c = some slot)
      (stays : ¬(user = true ∧ (k.proc slot).killed = true))
      (left : (k.proc slot).ticksUsed + 1 < (k.proc slot).timeslice)
      (after : k'.proc slot = charged (k.proc slot)) : SlotStep k k' slot (.tick c user)
  | preempted {c user} (on : k.cpu c = some slot)
      (stays : ¬(user = true ∧ (k.proc slot).killed = true))
      (after : k'.proc slot =
        { preempted (charged (k.proc slot)) with state := .runnable, context := .yield }) :
      SlotStep k k' slot (.tick c user)
  | left {c user} (on : k.cpu c = some slot) (isKilled : user = true ∧ (k.proc slot).killed = true)
      (after : k'.proc slot = k.proc slot) (pc : k'.pc slot = .exiting 0 true) :
      SlotStep k k' slot (.tick c user)
  | counted {p stats} (woken : Woken (k.proc slot) p) (counts : Counted p stats)
      (after : k'.proc slot = { p with stats := stats }) : SlotStep k k' slot .clock
  | exited {c parent} (on : k.cpu c = some slot)
      (after : k'.proc slot = { k.proc slot with parent := parent, state := .zombie }) :
      SlotStep k k' slot (.exitFinish c)

theorem SlotStep.refl (noTick : action.isTick = false) (same : k'.proc slot = k.proc slot) :
    SlotStep k k' slot action := by
  refine .kept noTick ?_ ?_ <;> rw [same]
  · exact .same rfl rfl rfl rfl rfl
  · exact (AsleepFrom.refl _).awakeIn

/-- A store to one slot. -/
theorem SlotStep.store (noTick : action.isTick = false) (proc : k'.proc = update k.proc p q)
    (stored : k'.proc p = q → SlotStep k k' p action) : SlotStep k k' slot action := by
  by_cases same : slot = p
  · subst same
    exact stored (by rw [proc, update_self])
  · exact .refl noTick (by rw [proc, update_of_ne same])

/-- A store to fields that nothing here is about. -/
theorem SlotStep.plain (noTick : action.isTick = false) (proc : k'.proc = update k.proc p q)
    (state : q.state = (k.proc p).state) (pid : q.pid = (k.proc p).pid)
    (chan : q.chan = (k.proc p).chan) (timeslice : q.timeslice = (k.proc p).timeslice)
    (ticksUsed : q.ticksUsed = (k.proc p).ticksUsed) (stats : q.stats = (k.proc p).stats) :
    SlotStep k k' slot action := by
  refine .store noTick proc fun after => .kept noTick ?_ ?_ <;> rw [after]
  · exact .same state pid timeslice ticksUsed stats
  · exact (AsleepFrom.same state chan).awakeIn

/-- A pass of `wait` frees a zombie's slot, or puts its caller to sleep on its own slot. -/
theorem Kernel.waitLoop_slot {c : Fin ncpu} (runs : (k.proc p).state = .running) :
    Keeps (k.proc slot) ((k.waitLoop c p).proc slot) ∧
        Awake action (k.proc slot) ((k.waitLoop c p).proc slot) ∨
      (k.proc slot).state = .zombie ∧ (k.waitLoop c p).proc slot = reaped (k.proc slot) ∧
        .waited (k.proc p).pid (k.proc slot).pid ∈ k.waitEvents p := by
  have same : Keeps (k.proc slot) (k.proc slot) ∧ Awake action (k.proc slot) (k.proc slot) :=
    ⟨.same rfl rfl rfl rfl rfl, (AsleepFrom.refl _).awakeIn⟩
  unfold Kernel.waitLoop Kernel.waitEvents waitReturn
  cases scanned : waitScan k.proc p with
  | reap child =>
    simp only [Kernel.setPc_proc, Kernel.setProc_proc]
    refine Update.cases slot (.inr ?_) fun _ => .inl same
    exact ⟨(waitScan_reap scanned).2, rfl, List.mem_singleton_self _⟩
  | fail => exact .inl same
  | sleep =>
    simp only [Kernel.sleep, Kernel.setCpu_proc, Kernel.setProc_proc, Kernel.setPc_proc]
    refine Update.cases slot (.inl ⟨.turn (by rw [runs]; rfl) rfl rfl rfl rfl (.inl rfl), ?_⟩) ?_
    · rintro chan other - - isChan
      cases isChan
      cases other
    · exact fun _ => .inl same

/-- A turn of the scheduler, seen from the state `m` in which the process it selects resumes. -/
theorem SlotStep.turn {m : Kernel ncpu} {c : Fin ncpu} (ready : (k.proc p).state = .runnable)
    (chosen : Keeps (dispatched (k.proc p)) (m.proc p)) (runs : (m.proc p).state = .running)
    (others : slot ≠ p → m.proc slot = k.proc slot) (keeps : Keeps (m.proc slot) (k'.proc slot))
    (awake : Awake (.scheduler c) (m.proc slot) (k'.proc slot)) :
    SlotStep k k' slot (.scheduler c) := by
  by_cases same : slot = p
  · subst same
    refine .selected ready (chosen.trans keeps) ?_
    intro chan other quiet asleep isChan
    have before := (awake chan other quiet asleep isChan).1
    rw [runs] at before
    cases before
  · rw [others same] at keeps awake
    exact .kept rfl keeps awake

theorem SlotStep.scheduler {c : Fin ncpu} : SlotStep k (k.scheduler c) slot (.scheduler c) := by
  unfold Kernel.scheduler
  cases searched : schedulerSearch k.proc k.rrNext with
  | none => exact .refl rfl rfl
  | some p =>
    have ready : (k.proc p).state = .runnable := by
      simpa using CircularScan.scan_accepts searched
    have atP : (k.dispatch c p).proc p = dispatched (k.proc p) := update_self _ _ _
    have others (different : slot ≠ p) : (k.dispatch c p).proc slot = k.proc slot :=
      update_of_ne different _ _
    have clearP : ((k.dispatch c p).clearChan p).proc p = { dispatched (k.proc p) with chan := none } := by
      simp [Kernel.clearChan, atP]
    have clearOthers (different : slot ≠ p) :
        ((k.dispatch c p).clearChan p).proc slot = k.proc slot :=
      (update_of_ne different _ _).trans (others different)
    have cleared : Keeps (dispatched (k.proc p)) (((k.dispatch c p).clearChan p).proc p) := by
      rw [clearP]
      exact .same rfl rfl rfl rfl rfl
    have runs : (((k.dispatch c p).clearChan p).proc p).state = .running := by
      rw [clearP]
      rfl
    have selects : SlotStep k (k.dispatch c p) slot (.scheduler c) :=
      .turn ready (by rw [atP]; exact .same rfl rfl rfl rfl rfl) (by rw [atP]; rfl) others
        (.same rfl rfl rfl rfl rfl) (AsleepFrom.refl _).awakeIn
    have context : ((k.dispatch c p).proc p).context = (k.proc p).context := by
      rw [atP]
      rfl
    simp only [Kernel.resume, context]
    cases resumes : (k.proc p).context with
    | forkret | yield => exact selects
    | sleep =>
      simp only
      split
      · rename_i inWait
        rcases Kernel.waitLoop_slot runs with ⟨keeps, awake⟩ | ⟨dead, after, waited⟩
        · exact .turn ready cleared runs clearOthers keeps awake
        · have different : slot ≠ p := by
            intro same
            rw [same, runs] at dead
            cases dead
          have events : k.events (.scheduler c) = ((k.dispatch c p).clearChan p).waitEvents p := by
            simp only [Kernel.events, searched]
            exact if_pos ⟨resumes, inWait⟩
          rw [clearOthers different, ← events] at waited
          rw [clearOthers different] at dead after
          exact .reaped dead waited after
      · exact .turn ready cleared runs clearOthers (.same rfl rfl rfl rfl rfl)
          (AsleepFrom.refl _).awakeIn

theorem SlotStep.tick {c : Fin ncpu} {user : Bool} (on : k.cpu c = some p)
    (ticked : Kernel.Ticked k c p user k') : SlotStep k k' slot (.tick c user) := by
  by_cases same : slot = p
  · subst same
    cases ticked with
    | leave inUser killed _ => exact .left on ⟨inUser, killed⟩ rfl (update_self _ _ _)
    | expire stays _ => exact .preempted on stays (by simp [Kernel.yield])
    | charge stays left => exact .charged on stays left (update_self _ _ _)
  · refine .elsewhere (fun isSlot => same (Option.some.inj (isSlot.symm.trans on))) ?_
    cases ticked <;> simp [Kernel.yield, update_of_ne same]

theorem SlotStep.exit (table : TableInv k) {c : Fin ncpu} (on : k.cpu c = some p) :
    SlotStep k (k.exitFinish c p) slot (.exitFinish c) := by
  by_cases same : slot = p
  · subst same
    refine .exited on (exitTable_self ?_)
    rw [table.state_of_cpu on]
    simp
  · have woken : Woken _ ((k.exitFinish c p).proc slot) := exitTable_other same
    have passed := woken.keeps
    exact .kept rfl ⟨passed.stats, passed.timeslice, passed.ticksUsed, passed.started, passed.used,
      passed.live, passed.running⟩ fun chan _ _ => woken.asleepFrom chan

theorem Step.slotStep (step : Step k action k') (table : TableInv k) (slot : Slot) :
    SlotStep k k' slot action := by
  cases step with
  | scheduler idle => exact .scheduler
  | tick on _ _ ticked => exact .tick on (Kernel.Ticked.of_tick ticked)
  | @sleep c p chan on _ _ =>
    refine .store rfl rfl fun after => .kept rfl ?_ ?_ <;> rw [after]
    · exact .turn (table.live_of_cpu on) rfl rfl rfl rfl (.inl rfl)
    · intro other _ quiet _ isChan
      cases isChan
      exact absurd rfl (quiet c)
  | @wakeup chan =>
    have woken := wakeup1_woken k.proc (some chan) slot
    exact .kept rfl woken.keeps woken.asleepFrom.awakeIn
  | clock =>
    obtain ⟨stats, after, counts⟩ := updateSleepStats_counted (wakeup1 k.proc (some .ticks)) slot
    exact .counted (wakeup1_woken k.proc (some .ticks) slot) counts after
  | @kill c p pid on at_ =>
    rcases kill_cases k.proc pid with ⟨_, missed⟩ | ⟨found, _, hit⟩
    · exact .refl rfl (by rw [missed])
    · rw [hit]
      by_cases asleep : (k.proc found).state = .sleeping
      · refine .store rfl rfl fun after => .kept rfl ?_ ?_ <;> rw [after, killHit, if_pos asleep]
        · exact .turn (by rw [asleep]; rfl) rfl rfl rfl rfl (.inr rfl)
        · exact (AsleepFrom.awake (by simp)).awakeIn
      · refine .plain rfl rfl ?_ ?_ ?_ ?_ ?_ ?_ <;> rw [killHit, if_neg asleep]
  | @setquantumPid c p pid quantum on at_ =>
    rcases setquantumPid_cases k.proc pid quantum with refused | ⟨found, range, holds, _, changed⟩
    · exact .refl rfl (by rw [refused])
    · refine .store rfl (by rw [changed]) fun after => .restarted range holds (by rw [changed]) ?_
      exact after
  | fdalloc on at_ =>
    unfold Kernel.fdalloc
    split
    · exact .refl rfl rfl
    · exact .plain rfl rfl rfl rfl rfl rfl rfl rfl
  | @forkAlloc c p on at_ =>
    rcases k.forkAlloc_cases p with unchanged | ⟨np, free, changed⟩
    · exact .refl rfl (by rw [unchanged])
    · rw [changed]
      exact .store rfl rfl fun after => .alloced free after
  | @forkKalloc c p np page on at_ =>
    cases page with
    | none | some => exact .plain rfl rfl rfl rfl rfl rfl rfl rfl
  | @forkCopyuvm c p np copied on at_ =>
    cases copied with
    | true => exact .refl rfl rfl
    | false => exact .plain rfl rfl rfl rfl rfl rfl rfl rfl
  | @forkUndo c p np stage on at_ failed =>
    have embryo := (table.forking p np stage at_).state
    refine .store rfl rfl fun after => .kept rfl ?_ ?_ <;> rw [after]
    · exact ⟨rfl, rfl, .inl rfl, fun _ started => absurd embryo started, fun used => absurd rfl used,
        by rw [embryo]; rfl, fun runs => nomatch runs⟩
    · exact (AsleepFrom.awake (by simp [abandoned])).awakeIn
  | forkFinish on at_ => exact .store rfl rfl fun after => .started on at_ after
  | exitCall on at_ notInit => exact .refl rfl rfl
  | exitFinish on at_ => exact .exit table on
  | @wait c p on at_ =>
    rcases Kernel.waitLoop_slot (table.state_of_cpu on) with ⟨keeps, awake⟩ | ⟨dead, after, waited⟩
    · exact .kept rfl keeps awake
    · exact .reaped dead (by simpa only [Kernel.events, on] using waited) after
  | fault _ _ | fdclose _ _ | chdir _ _ | forkParent _ _ | forkFiles _ _ | exitClose _ _ _
  | exitCwd _ _ => exact .plain rfl rfl rfl rfl rfl rfl rfl rfl

/-! ## Other processes -/

/-- A live process stays live unless it acts itself. -/
theorem Step.live (step : Step k action k') (table : TableInv k) (other : k.notBy slot action)
    (alive : (k.proc slot).state.live = true) : (k'.proc slot).state.live = true := by
  cases step.slotStep table slot with
  | kept _ keeps _ => exact keeps.live.trans alive
  | alloced free _ => exact absurd free (ProcState.live_ne_unused alive)
  | reaped dead _ _ => exact absurd dead (ProcState.live_ne_zombie alive)
  | selected _ keeps _ => exact keeps.live
  | counted woken _ after =>
    rw [after]
    exact woken.keeps.live.trans alive
  | exited on _ => exact absurd on (other _ rfl)
  | started _ _ after | preempted _ _ after =>
    rw [after]
    rfl
  | elsewhere _ after | restarted _ _ _ after | charged _ _ _ after | left _ _ after _ =>
    rw [after]
    exact alive

/-- A process asleep on a channel that no `struct proc` stands for was asleep there
before, or has just called `sleep`. -/
theorem Step.asleep (step : Step k action k') (table : TableInv k) {chan : Chan}
    (other : chan.isProc = false) (quiet : ∀ c, action ≠ .sleep c chan)
    (asleep : (k'.proc slot).state = .sleeping) (isChan : (k'.proc slot).chan = some chan) :
    (k.proc slot).state = .sleeping ∧ (k.proc slot).chan = some chan := by
  cases step.slotStep table slot with
  | kept _ _ awake | selected _ _ awake => exact awake chan other quiet asleep isChan
  | counted woken _ after =>
    rw [after] at asleep isChan
    exact woken.asleepFrom chan asleep isChan
  | alloced _ after | reaped _ _ after | started _ _ after | preempted _ _ after | exited _ after =>
    rw [after] at asleep
    cases asleep
  | elsewhere _ after | restarted _ _ _ after | charged _ _ _ after | left _ _ after _ =>
    rw [after] at asleep isChan
    exact ⟨asleep, isChan⟩

end Frame

end Xv6.Process
