import Xv6.Process.Family

/-!
The exit/wait protocol.

Owns: the history of forks, exits and returns of `wait`, and the law it obeys; the
invariant that ties the history to the table; and the theorem that every run keeps
the parent relation and the law.

Does not own: the parent relation as such (`Xv6.Process.Family`).

Only the sections of `fork` and `exit` that change the family and the passes of
`wait` need an argument of their own (`FamilyStep`).
-/

namespace Xv6.Process

open TransitionSystem
open Function (update_self update_of_ne)

variable {ncpu : Nat} {action : Action ncpu} {caller : Int}

/-! ## The history of a run and its law -/

inductive Event where
  | forked (parent child : Int)
  | exited (pid : Int)
  | waited (caller result : Int)
deriving DecidableEq, Repr

/-- The event of one pass of `wait` by `p`, if the call returns. -/
def Kernel.waitEvents (k : Kernel ncpu) (p : Slot) : List Event :=
  match waitReturn k.proc p with
  | some result => [.waited (k.proc p).pid result]
  | none => []

/-- The events of a step, read from the state before it. A process that the
scheduler resumes inside `wait` makes a pass at once. -/
def Kernel.events (k : Kernel ncpu) : Action ncpu → List Event
  | .scheduler c =>
    match schedulerSearch k.proc k.rrNext with
    | none => []
    | some p =>
      if (k.proc p).context = .sleep ∧ k.pc p = .waiting then
        ((k.dispatch c p).clearChan p).waitEvents p
      else []
  | .wait c =>
    match k.cpu c with
    | none => []
    | some p => k.waitEvents p
  | .forkFinish c =>
    match k.cpu c with
    | none => []
    | some p =>
      match k.pc p with
      | .forking np _ => [.forked (k.proc p).pid (k.proc np).pid]
      | _ => []
  | .exitFinish c =>
    match k.cpu c with
    | none => []
    | some p => [.exited (k.proc p).pid]
  | _ => []

/-- The kernel with its history, latest event first. -/
def Kernel.record : Kernel ncpu × List Event → Action ncpu → Option (Kernel ncpu × List Event) :=
  watch Kernel.step fun before action _ history =>
    before.events action ++ history

/-- When an event may follow `earlier`. A pid is forked once, by a process that
has not exited, and exits once. `wait` returns a pid at most once, after that
process exited, and to the process that forked it or, once that one has exited,
to `init`, whose pid is 1. -/
def Event.Allowed (earlier : List Event) : Event → Prop
  | .forked parent child =>
    (∀ other, .forked other child ∉ earlier) ∧ .exited parent ∉ earlier
  | .exited pid => .exited pid ∉ earlier ∧ ∃ parent, .forked parent pid ∈ earlier
  | .waited caller result =>
    .exited caller ∉ earlier ∧
      (result = -1 ∨
        (∀ other, .waited other result ∉ earlier) ∧ .exited result ∈ earlier ∧
          ∃ parent, .forked parent result ∈ earlier ∧
            (caller = parent ∨ caller = 1 ∧ .exited parent ∈ earlier))

/-- Every event of the history was allowed when it happened. -/
def Lawful : List Event → Prop
  | [] => True
  | event :: earlier => event.Allowed earlier ∧ Lawful earlier

/-- The history and the table agree. -/
structure HistoryInv (k : Kernel ncpu) (history : List Event) : Prop where
  lawful : Lawful history
  forkedPid : ∀ parent pid, .forked parent pid ∈ history →
    (1 ≤ pid ∧ pid < k.nextpid) ∧ ∀ slot, (k.proc slot).pid = pid → (k.proc slot).state ≠ .embryo
  exitedPid : ∀ pid, .exited pid ∈ history →
    (1 ≤ pid ∧ pid < k.nextpid) ∧ ∀ slot, (k.proc slot).pid = pid →
      (k.proc slot).state ≠ .embryo ∧ (k.proc slot).state.live = false
  waitedPid : ∀ caller pid, .waited caller pid ∈ history →
    pid = -1 ∨ 1 ≤ pid ∧ pid < k.nextpid ∧ ∀ slot, (k.proc slot).pid ≠ pid
  zombieExited : ∀ slot, (k.proc slot).state = .zombie → .exited (k.proc slot).pid ∈ history
  forker : ∀ slot r, (k.proc slot).parent = some r → (k.proc slot).state ≠ .embryo →
    ∃ parent, .forked parent (k.proc slot).pid ∈ history ∧
      (parent = (k.proc r).pid ∨ r = k.initproc ∧ .exited parent ∈ history)

/-- The two invariants with the one they rest on. -/
structure ExitWaitInv (k : Kernel ncpu) (history : List Event) : Prop where
  table : TableInv k
  family : FamilyInv k
  history : HistoryInv k history

/-! ## What a step does to the family -/

/-- A step with its events: it leaves the family alone, or it is `kill` or one of the
sections of `fork` and `exit` that do not, or it is a pass of `wait` after a change
that does. -/
inductive FamilyStep (k : Kernel ncpu) : Action ncpu → List Event → Kernel ncpu → Prop where
  | plain {action k'} (kin : Kin k k') : FamilyStep k action [] k'
  | kill {c pid} : FamilyStep k (.kill c pid) [] { k with proc := (kill k.proc pid).1 }
  | alloc {c p} (on : k.cpu c = some p) : FamilyStep k (.forkAlloc c) [] (k.forkAlloc p)
  | undo {c p np stage} (on : k.cpu c = some p) (at_ : k.pc p = .forking np stage)
      (failed : stage = .noStack ∨ stage = .copyFailed) :
      FamilyStep k (.forkUndo c) [] (k.forkUndo p np)
  | parent {c p np} (at_ : k.pc p = .forking np .copied) :
      FamilyStep k (.forkParent c) [] (k.forkParent p np)
  | finish {c p np} (at_ : k.pc p = .forking np .filed) :
      FamilyStep k (.forkFinish c) [.forked (k.proc p).pid (k.proc np).pid] (k.forkFinish p np)
  | exit {c p trap} (on : k.cpu c = some p) (at_ : k.pc p = .leaving trap) :
      FamilyStep k (.exitFinish c) [.exited (k.proc p).pid] (k.exitFinish c p)
  | wait {action k' c p} (kin : Kin k k') (table : TableInv k') (on : k'.cpu c = some p) :
      FamilyStep k action (k'.waitEvents p) (k'.waitLoop c p)

variable {k k' : Kernel ncpu} {c : Fin ncpu} {p np : Slot} {q : Proc} {pc' : Pc} {nextpid : Int}
  {stage : ForkStage} {history : List Event}

/-- The scheduler's turn: a selection, and a pass of `wait` if the process resumes
inside it. -/
theorem FamilyStep.scheduler (inv : TableInv k) (idle : k.cpu c = none) :
    FamilyStep k (.scheduler c) (k.events (.scheduler c)) (k.scheduler c) := by
  simp only [Kernel.events, Kernel.scheduler]
  cases searched : schedulerSearch k.proc k.rrNext with
  | none => exact .plain (Kin.refl k)
  | some p =>
    have ready : (k.proc p).state = .runnable := by
      simpa using CircularScan.scan_accepts searched
    have started : Kin k (k.dispatch c p) := Kin.dispatch ready
    have table := inv.dispatch idle ready
    have on : (k.dispatch c p).cpu c = some p := update_self _ _ _
    have runs := table.state_of_cpu on
    have cleared : Kin k ((k.dispatch c p).clearChan p) :=
      started.trans (Kin.clearChan runs)
    have context : ((k.dispatch c p).proc p).context = (k.proc p).context := by
      simp [Kernel.dispatch]
    simp only [Kernel.resume, context]
    cases (k.proc p).context with
    | forkret | yield => simpa using FamilyStep.plain started
    | sleep =>
      by_cases inWait : k.pc p = .waiting
      · rw [if_pos ⟨rfl, inWait⟩]
        simp only
        rw [if_pos (show (k.dispatch c p).pc p = .waiting from inWait)]
        exact .wait cleared (table.clearChan on) on
      · rw [if_neg (fun both => inWait both.2)]
        simp only
        rw [if_neg (show ¬(k.dispatch c p).pc p = .waiting from inWait)]
        exact .plain cleared

theorem Step.family (inv : TableInv k) (step : Step k action k') :
    FamilyStep k action (k.events action) k' := by
  cases step with
  | scheduler idle => exact FamilyStep.scheduler inv idle
  | tick on _ _ ticked => exact .plain (Kin.tick (inv.state_of_cpu on) ticked)
  | sleep on _ other => exact .plain (Kin.sleep (inv.state_of_cpu on) other)
  | wakeup => exact .plain (Kin.ofTable (fun slot => (wakeup1_woken _ _ slot).kinSlot) rfl rfl rfl)
  | clock =>
    have woken : Kin k { k with proc := wakeup1 k.proc (some .ticks) } :=
      Kin.ofTable (fun slot => (wakeup1_woken _ _ slot).kinSlot) rfl rfl rfl
    exact .plain (woken.trans
      (Kin.ofTable (fun slot => updateSleepStats_kinSlot _ slot) rfl rfl rfl))
  | kill on at_ => exact .kill
  | fault on | fdclose on | chdir on =>
    exact .plain (Kin.ownRunning (inv.state_of_cpu on) rfl rfl rfl)
  | setquantumPid on at_ =>
    exact .plain (Kin.ofTable (setquantumPid_kinSlot k.proc _ _) rfl rfl rfl)
  | fdalloc on at_ =>
    unfold Kernel.fdalloc
    split
    · exact .plain (Kin.refl k)
    · exact .plain (Kin.ownRunning (inv.state_of_cpu on) rfl rfl rfl)
  | forkAlloc on at_ => exact .alloc on
  | @forkKalloc c p np page on at_ =>
    cases page with
    | none | some => exact .plain (Kin.forkStage inv at_ rfl rfl rfl rfl)
  | @forkCopyuvm c p np copied on at_ =>
    cases copied with
    | true => exact .plain (Kin.setPoint_forking at_)
    | false => exact .plain (Kin.forkStage inv at_ rfl rfl rfl rfl)
  | forkUndo on at_ failed => exact .undo on at_ failed
  | forkParent on at_ => exact .parent at_
  | forkFiles on at_ => exact .plain (Kin.forkStage inv at_ rfl rfl rfl rfl)
  | forkFinish on at_ =>
    simp only [Kernel.events, on, at_]
    exact .finish at_
  | exitCall on at_ notInit => exact .plain (Kin.setPoint (by simp))
  | exitClose on | exitCwd on =>
    exact .plain (Kin.ownPoint (inv.state_of_cpu on) rfl rfl rfl (by simp))
  | exitFinish on at_ =>
    simp only [Kernel.events, on]
    exact .exit on at_
  | wait on at_ =>
    simp only [Kernel.events, on]
    exact .wait (Kin.refl k) inv on

/-! ## The history under changes of the table -/

/-- What an event says about the table for good. -/
def Event.Tells (k : Kernel ncpu) : Event → Prop
  | .forked _ pid => (1 ≤ pid ∧ pid < k.nextpid) ∧
    ∀ slot, (k.proc slot).pid = pid → (k.proc slot).state ≠ .embryo
  | .exited pid => (1 ≤ pid ∧ pid < k.nextpid) ∧ ∀ slot, (k.proc slot).pid = pid →
    (k.proc slot).state ≠ .embryo ∧ (k.proc slot).state.live = false
  | .waited _ pid => pid = -1 ∨ 1 ≤ pid ∧ pid < k.nextpid ∧ ∀ slot, (k.proc slot).pid ≠ pid

theorem HistoryInv.tells (inv : HistoryInv k history) : ∀ event ∈ history, event.Tells k := by
  intro event member
  cases event with
  | forked parent pid => exact inv.forkedPid parent pid member
  | exited pid => exact inv.exitedPid pid member
  | waited caller pid => exact inv.waitedPid caller pid member

theorem HistoryInv.of_tells (lawful : Lawful history) (tells : ∀ event ∈ history, event.Tells k)
    (zombieExited : ∀ slot, (k.proc slot).state = .zombie → .exited (k.proc slot).pid ∈ history)
    (forker : ∀ slot r, (k.proc slot).parent = some r → (k.proc slot).state ≠ .embryo →
      ∃ parent, .forked parent (k.proc slot).pid ∈ history ∧
        (parent = (k.proc r).pid ∨ r = k.initproc ∧ .exited parent ∈ history)) :
    HistoryInv k history :=
  ⟨lawful, fun parent pid => tells (.forked parent pid), fun pid => tells (.exited pid),
    fun caller pid => tells (.waited caller pid), zombieExited, forker⟩

/-- A slot that holds an old pid held it before, and its process has not gone back. -/
structure Later (k k' : Kernel ncpu) : Prop where
  grows : k.nextpid ≤ k'.nextpid
  held : ∀ slot, 1 ≤ (k'.proc slot).pid → (k'.proc slot).pid < k.nextpid →
    (k.proc slot).pid = (k'.proc slot).pid ∧ ((k.proc slot).state ≠ .embryo →
      (k'.proc slot).state ≠ .embryo ∧
        ((k.proc slot).state.live = false → (k'.proc slot).state.live = false))

theorem Event.Tells.later {event : Event} (tells : event.Tells k) (later : Later k k') :
    event.Tells k' := by
  cases event with
  | forked parent pid =>
    obtain ⟨bounds, before⟩ := tells
    refine ⟨⟨bounds.1, bounds.2.trans_le later.grows⟩, fun slot holds => ?_⟩
    obtain ⟨same, stays⟩ := later.held slot (holds ▸ bounds.1) (holds ▸ bounds.2)
    exact (stays (before slot (same.trans holds))).1
  | exited pid =>
    obtain ⟨bounds, before⟩ := tells
    refine ⟨⟨bounds.1, bounds.2.trans_le later.grows⟩, fun slot holds => ?_⟩
    obtain ⟨same, stays⟩ := later.held slot (holds ▸ bounds.1) (holds ▸ bounds.2)
    obtain ⟨started, dead⟩ := before slot (same.trans holds)
    exact ⟨(stays started).1, (stays started).2 dead⟩
  | waited caller pid =>
    rcases tells with failed | ⟨positive, below, gone⟩
    · exact Or.inl failed
    · refine Or.inr ⟨positive, below.trans_le later.grows, fun slot holds => ?_⟩
      exact gone slot ((later.held slot (holds ▸ positive) (holds ▸ below)).1.trans holds)

theorem HistoryInv.later (inv : HistoryInv k history) (later : Later k k') :
    ∀ event ∈ history, event.Tells k' :=
  fun event member => (inv.tells event member).later later

theorem Later.phase {slot : Slot} (phase : (k'.proc slot).state.phase = (k.proc slot).state.phase)
    (started : (k.proc slot).state ≠ .embryo) : (k'.proc slot).state ≠ .embryo ∧
      ((k.proc slot).state.live = false → (k'.proc slot).state.live = false) := by
  rw [Ne, ProcState.embryo_of_phase phase, ProcState.live_of_phase phase]
  exact ⟨started, id⟩

/-- Who forked a process stays on record. -/
theorem forker_cons {event : Event} {pid other : Int} {isInit : Prop}
    (forker : ∃ parent, .forked parent pid ∈ history ∧
      (parent = other ∨ isInit ∧ .exited parent ∈ history)) :
    ∃ parent, .forked parent pid ∈ event :: history ∧
      (parent = other ∨ isInit ∧ .exited parent ∈ event :: history) := by
  obtain ⟨parent, forked, who⟩ := forker
  exact ⟨parent, List.mem_cons_of_mem _ forked,
    who.imp_right fun exited => ⟨exited.1, List.mem_cons_of_mem _ exited.2⟩⟩

theorem HistoryInv.of_same (inv : HistoryInv k history) (same : SameFamily k k') :
    HistoryInv k' history := by
  have later : Later k k' :=
    ⟨same.nextpid.ge, fun slot _ _ => ⟨(same.pid slot).symm, Later.phase (same.phase slot)⟩⟩
  refine .of_tells inv.lawful (inv.later later) ?_ ?_
  · intro slot dead
    rw [same.zombie] at dead
    rw [same.pid]
    exact inv.zombieExited slot dead
  · intro slot r parent started
    rw [same.parent] at parent
    rw [Ne, same.embryo] at started
    rw [same.pid, same.pid, same.initproc]
    exact inv.forker slot r parent started

/-- The same change as the history sees it: the slot holds an old pid only if it did
before, in the same phase. -/
theorem HistoryInv.child (inv : HistoryInv k history)
    (orphan : ∀ slot, (k.proc slot).parent ≠ some np) (grows : k.nextpid ≤ nextpid)
    (held : 1 ≤ q.pid → q.pid < k.nextpid →
      (k.proc np).pid = q.pid ∧ q.state.phase = (k.proc np).state.phase)
    (notZombie : q.state ≠ .zombie) (parent : ∀ r, q.parent = some r → q.state = .embryo) :
    HistoryInv (({ k with nextpid := nextpid }.setProc np q).setPc p pc') history := by
  have atNp : (({ k with nextpid := nextpid }.setProc np q).setPc p pc').proc np = q := by
    simp
  have elsewhere : ∀ slot, slot ≠ np →
      (({ k with nextpid := nextpid }.setProc np q).setPc p pc').proc slot = k.proc slot := by
    intro slot different
    simp [update_of_ne different]
  refine .of_tells inv.lawful (inv.later ⟨grows, ?_⟩) ?_ ?_
  · intro slot positive below
    by_cases same : slot = np
    · rw [same, atNp] at positive below
      obtain ⟨samePid, phase⟩ := held positive below
      rw [same]
      exact ⟨samePid.trans (congrArg Proc.pid atNp.symm), Later.phase (by rw [atNp, phase])⟩
    · rw [elsewhere slot same]
      exact ⟨rfl, fun started => ⟨started, id⟩⟩
  · intro slot dead
    by_cases same : slot = np
    · rw [same, atNp] at dead
      exact absurd dead notZombie
    · rw [elsewhere slot same] at dead ⊢
      exact inv.zombieExited slot dead
  · intro slot r isParent isStarted
    by_cases same : slot = np
    · rw [same, atNp] at isParent isStarted
      exact absurd (parent r isParent) isStarted
    · rw [elsewhere slot same] at isParent isStarted ⊢
      rw [elsewhere r (fun equal => orphan slot (equal ▸ isParent))]
      exact inv.forker slot r isParent isStarted

/-- A process that runs has not exited. -/
theorem HistoryInv.notExited (inv : HistoryInv k history)
    (alive : (k.proc p).state.live = true) : .exited (k.proc p).pid ∉ history := by
  intro member
  have dead := ((inv.exitedPid _ member).2 p rfl).2
  rw [alive] at dead
  simp at dead

theorem HistoryInv.exit (inv : HistoryInv k history) (family : FamilyInv k) (table : TableInv k)
    (on : k.cpu c = some p) (notInit : p ≠ k.initproc) :
    HistoryInv (k.exitFinish c p) (.exited (k.proc p).pid :: history) := by
  have alive := table.live_of_cpu on
  have used := ProcState.live_ne_unused alive
  have awake : (k.proc p).state ≠ .sleeping := by
    rw [table.state_of_cpu on]
    simp
  have pid : ∀ slot, ((k.exitFinish c p).proc slot).pid = (k.proc slot).pid :=
    exitTable_pid awake
  have phase : ∀ slot, slot ≠ p → ((k.exitFinish c p).proc slot).state.phase =
      (k.proc slot).state.phase := fun slot different => exitTable_phase different
  have self : ((k.exitFinish c p).proc p).state = .zombie := by
    rw [show (k.exitFinish c p).proc p = _ from exitTable_self awake]
  have ended : ((k.exitFinish c p).proc p).state ≠ .embryo ∧
      ((k.exitFinish c p).proc p).state.live = false := by
    rw [self]
    exact ⟨by simp, rfl⟩
  refine .of_tells ⟨⟨inv.notExited alive, ?_⟩, inv.lawful⟩
    (List.forall_mem_cons.mpr ⟨⟨table.pidRange p used, ?_⟩, inv.later ⟨le_refl _, ?_⟩⟩) ?_ ?_
  · obtain ⟨r, isParent⟩ := family.hasParent p notInit (Or.inl alive)
    obtain ⟨parent, forked, _⟩ := inv.forker p r isParent (ProcState.live_ne_embryo alive)
    exact ⟨parent, forked⟩
  · intro slot holds
    rw [pid] at holds
    by_cases same : slot = p
    · rw [same]
      exact ended
    · have free : (k.proc slot).state = .unused := by
        by_contra taken
        exact same (table.pidDistinct slot p taken used holds)
      rw [Ne, ProcState.embryo_of_phase (phase slot same),
        ProcState.live_of_phase (phase slot same), free]
      exact ⟨by simp, rfl⟩
  · intro slot _ _
    refine ⟨(pid slot).symm, ?_⟩
    by_cases same : slot = p
    · rw [same]
      exact fun _ => ⟨ended.1, fun _ => ended.2⟩
    · exact Later.phase (phase slot same)
  · intro slot dead
    rw [pid]
    by_cases same : slot = p
    · rw [same]
      exact List.mem_cons_self
    · rw [ProcState.zombie_of_phase (phase slot same)] at dead
      exact List.mem_cons_of_mem _ (inv.zombieExited slot dead)
  · intro slot r isParent isStarted
    rw [show ((k.exitFinish c p).proc slot).parent = _ from exitTable_parent awake slot]
      at isParent
    rw [pid, pid]
    have startedBefore : (k.proc slot).state ≠ .embryo := by
      by_cases same : slot = p
      · rw [same]
        exact ProcState.live_ne_embryo alive
      · rwa [Ne, ProcState.embryo_of_phase (phase slot same)] at isStarted
    rcases passTo_eq_some isParent with ⟨before, isInit⟩ | ⟨before, _⟩
    · obtain ⟨parent, forked, who⟩ := inv.forker slot p before startedBefore
      refine ⟨parent, List.mem_cons_of_mem _ forked, Or.inr ⟨isInit, ?_⟩⟩
      rcases who with isSelf | ⟨isInit', _⟩
      · rw [isSelf]
        exact List.mem_cons_self
      · exact absurd isInit' notInit
    · exact forker_cons (inv.forker slot r before startedBefore)

theorem HistoryInv.waited (inv : HistoryInv k history) {result : Int}
    (allowed : Event.Allowed history (.waited caller result)) (gone : result = -1 ∨
      1 ≤ result ∧ result < k.nextpid ∧ ∀ slot, (k.proc slot).pid ≠ result) :
    HistoryInv k (.waited caller result :: history) :=
  .of_tells ⟨allowed, inv.lawful⟩ (List.forall_mem_cons.mpr ⟨gone, inv.tells⟩)
    (fun slot dead => List.mem_cons_of_mem _ (inv.zombieExited slot dead))
    fun slot r isParent started => forker_cons (inv.forker slot r isParent started)

/-! ## `fork` -/

theorem ExitWaitInv.alloc (inv : ExitWaitInv k history) {c : Fin ncpu} (on : k.cpu c = some p) :
    FamilyInv (k.forkAlloc p) ∧ HistoryInv (k.forkAlloc p) history := by
  rcases k.forkAlloc_cases p with unchanged | ⟨np, free, changed⟩
  · rw [unchanged]
    exact ⟨inv.family, inv.history⟩
  · rw [changed]
    have clean := inv.table.clean np free
    have alive := inv.table.live_of_cpu on
    have notLive : (k.proc np).state.live = false := by
      rw [free]
      rfl
    have older := (inv.table.pidRange p (ProcState.live_ne_unused alive)).2
    constructor
    · refine inv.family.child inv.table notLive alive (by simp [embryoOf]) (by simp [embryoOf])
        ?_ (by simp [embryoOf, ProcState.live]) ?_ ?_ ?_
      · intro r isParent
        simp [embryoOf, clean.parent] at isParent
      · intro r isParent
        simp [clean.parent] at isParent
      · intro other stage same
        injection same with sameSlot
        exact ⟨sameSlot.symm, older⟩
      · intro r stage _ forking
        have embryo := (inv.table.forking r np stage forking).state
        rw [free] at embryo
        simp at embryo
    · refine inv.history.child (inv.family.orphan notLive) (by omega) ?_ (by simp [embryoOf])
        (fun _ _ => rfl)
      intro _ below
      simp [embryoOf] at below

/-- Only `p` works on the child it forks. -/
theorem TableInv.unforked (table : TableInv k) (at_ : k.pc p = .forking np stage) (r : Slot)
    (stage' : ForkStage) (different : r ≠ p) : k.pc r ≠ .forking np stage' := by
  intro forking
  exact different (table.oneForker r p np stage' stage forking at_)

theorem TableInv.embryo_notLive (table : TableInv k) (at_ : k.pc p = .forking np stage) :
    (k.proc np).state.live = false := by
  rw [(table.forking p np stage at_).state]
  rfl

theorem ExitWaitInv.undo (inv : ExitWaitInv k history) (at_ : k.pc p = .forking np stage)
    (failed : stage = .noStack ∨ stage = .copyFailed) :
    FamilyInv (k.forkUndo p np) ∧ HistoryInv (k.forkUndo p np) history := by
  have notLive := inv.table.embryo_notLive at_
  have alive := inv.table.live_of_pc (p := p) (by rw [at_]; simp)
  have noParent : (k.proc np).parent = none := by
    rw [(inv.table.forking p np stage at_).parent]
    rcases failed with same | same <;> rw [same] <;> rfl
  constructor
  · refine inv.family.child inv.table notLive alive (by simp [abandoned]) (by simp [abandoned])
      ?_ (by simp [abandoned, ProcState.live]) ?_ (by simp) (inv.table.unforked at_)
    · intro r isParent
      simp [abandoned, noParent] at isParent
    · intro r isParent
      simp [noParent] at isParent
  · refine inv.history.child (inv.family.orphan notLive) (le_refl _) ?_ (by simp [abandoned]) ?_
    · intro positive
      simp [abandoned] at positive
    · intro r isParent
      simp [abandoned, noParent] at isParent

theorem ExitWaitInv.parent (inv : ExitWaitInv k history) (at_ : k.pc p = .forking np .copied) :
    FamilyInv (k.forkParent p np) ∧ HistoryInv (k.forkParent p np) history := by
  have notLive := inv.table.embryo_notLive at_
  have alive := inv.table.live_of_pc (p := p) (by rw [at_]; simp)
  have embryo := inv.table.forking p np _ at_
  have older := inv.family.forkOlder p np _ at_
  constructor
  · refine inv.family.child inv.table notLive alive (by simp [embryo.state])
      (by simp [embryo.state]) ?_ (fun _ => rfl) ?_ ?_ (inv.table.unforked at_)
    · intro r isParent
      exact ⟨(Option.some.inj isParent).symm, older⟩
    · intro r isParent
      rw [embryo.parent] at isParent
      simp [ForkStage.hasParent] at isParent
    · intro other stage' same
      injection same with sameSlot
      exact ⟨sameSlot.symm, older⟩
  · exact inv.history.child (inv.family.orphan notLive) (le_refl _) (fun _ _ => ⟨rfl, rfl⟩)
      (by simp [embryo.state]) (fun _ _ => embryo.state)

theorem ExitWaitInv.finish (inv : ExitWaitInv k history) (at_ : k.pc p = .forking np .filed) :
    FamilyInv (k.forkFinish p np) ∧
      HistoryInv (k.forkFinish p np) (.forked (k.proc p).pid (k.proc np).pid :: history) := by
  have notLive := inv.table.embryo_notLive at_
  have alive := inv.table.live_of_pc (p := p) (by rw [at_]; simp)
  have embryo := inv.table.forking p np _ at_
  have older := inv.family.forkOlder p np _ at_
  have isParent : (k.proc np).parent = some p := by
    rw [embryo.parent]
    rfl
  have notSelf : p ≠ np := inv.table.child_ne at_ alive
  have bounds := inv.table.pidRange np (by rw [embryo.state]; simp)
  constructor
  · refine inv.family.child inv.table notLive alive (by simp [madeRunnable])
      (by simp [madeRunnable]) ?_ (fun _ => isParent) (fun _ isParent _ => isParent) (by simp)
      (inv.table.unforked at_)
    intro r isParent'
    rw [show (madeRunnable (k.proc np)).parent = some p from isParent] at isParent'
    exact ⟨(Option.some.inj isParent').symm, older⟩
  · have atNp : (k.forkFinish p np).proc np = madeRunnable (k.proc np) := update_self _ _ _
    have elsewhere : ∀ slot, slot ≠ np → (k.forkFinish p np).proc slot = k.proc slot :=
      fun slot different => update_of_ne different _ _
    have pid : ∀ slot, ((k.forkFinish p np).proc slot).pid = (k.proc slot).pid := by
      intro slot
      by_cases same : slot = np
      · rw [same, atNp]
        rfl
      · rw [elsewhere slot same]
    have started : ((k.forkFinish p np).proc np).state ≠ .embryo := by
      rw [atNp]
      simp [madeRunnable]
    refine .of_tells ⟨⟨?_, inv.history.notExited alive⟩, inv.history.lawful⟩
      (List.forall_mem_cons.mpr ⟨⟨bounds, ?_⟩, inv.history.later ⟨le_refl _, ?_⟩⟩) ?_ ?_
    · intro other member
      exact (inv.history.forkedPid other _ member).2 np rfl embryo.state
    · intro slot holds
      by_cases same : slot = np
      · rw [same]
        exact started
      · rw [pid] at holds
        rw [elsewhere slot same]
        intro isEmbryo
        exact same (inv.table.pidDistinct slot np (by rw [isEmbryo]; simp)
          (by rw [embryo.state]; simp) holds)
    · intro slot _ _
      refine ⟨(pid slot).symm, fun notEmbryo => ?_⟩
      by_cases same : slot = np
      · rw [same] at notEmbryo
        exact absurd embryo.state notEmbryo
      · rw [elsewhere slot same]
        exact ⟨notEmbryo, id⟩
    · intro slot dead
      by_cases same : slot = np
      · rw [same, atNp] at dead
        simp [madeRunnable] at dead
      · rw [elsewhere slot same] at dead ⊢
        exact List.mem_cons_of_mem _ (inv.history.zombieExited slot dead)
    · intro slot r isParent' isStarted
      by_cases same : slot = np
      · rw [same, atNp] at isParent'
        rw [show (madeRunnable (k.proc np)).parent = some p from isParent] at isParent'
        rw [same, pid, pid, ← Option.some.inj isParent']
        exact ⟨_, List.mem_cons_self, Or.inl rfl⟩
      · rw [elsewhere slot same] at isParent' isStarted
        rw [pid, pid]
        exact forker_cons (inv.history.forker slot r isParent' isStarted)

/-! ## `wait` -/

theorem ExitWaitInv.reap (inv : ExitWaitInv k history) (on : k.cpu c = some p) {child : Slot}
    (isChild : (k.proc child).parent = some p) (dead : (k.proc child).state = .zombie) :
    FamilyInv ((k.setProc child (reaped (k.proc child))).setPc p .normal) ∧
      HistoryInv ((k.setProc child (reaped (k.proc child))).setPc p .normal)
        (.waited (k.proc p).pid (k.proc child).pid :: history) := by
  have alive := inv.table.live_of_cpu on
  have notLive : (k.proc child).state.live = false := by
    rw [dead]
    rfl
  have used : (k.proc child).state ≠ .unused := by
    rw [dead]
    simp
  have bounds := inv.table.pidRange child used
  constructor
  · refine inv.family.child inv.table notLive alive (by simp [reaped]) (by simp [reaped])
      (by simp [reaped]) (by simp [reaped, ProcState.live]) ?_ (by simp) ?_
    · intro r isParent asleep
      rw [isChild] at isParent
      rw [← Option.some.inj isParent, inv.table.state_of_cpu on] at asleep
      simp at asleep
    · intro r stage _ forking
      have embryo := (inv.table.forking r child stage forking).state
      rw [dead] at embryo
      simp at embryo
  · have freed : HistoryInv ((k.setProc child (reaped (k.proc child))).setPc p .normal) history :=
      inv.history.child (inv.family.orphan notLive) (le_refl _)
        (fun positive => absurd positive (by simp [reaped])) (by simp [reaped])
        (by simp [reaped])
    obtain ⟨parent, forked, who⟩ := inv.history.forker child p isChild (by rw [dead]; simp)
    apply freed.waited
    · refine ⟨inv.history.notExited alive, Or.inr ⟨?_, inv.history.zombieExited child dead, parent,
        forked, ?_⟩⟩
      · intro other member
        rcases inv.history.waitedPid other _ member with failed | ⟨_, _, gone⟩
        · omega
        · exact gone child rfl
      · rcases who with same | ⟨isInit, exited⟩
        · exact Or.inl same.symm
        · refine Or.inr ⟨?_, exited⟩
          rw [isInit]
          exact inv.family.initPid
    · refine Or.inr ⟨bounds.1, bounds.2, ?_⟩
      intro slot
      by_cases same : slot = child
      · subst same
        simp only [Kernel.setPc_proc, Kernel.setProc_proc, update_self]
        simp only [reaped]
        omega
      · simp only [Kernel.setPc_proc, Kernel.setProc_proc, update_of_ne same]
        intro samePid
        by_cases free : (k.proc slot).state = .unused
        · rw [(inv.table.clean slot free).pid] at samePid
          omega
        · exact same (inv.table.pidDistinct slot child free used samePid)

theorem ExitWaitInv.sleepInWait (inv : ExitWaitInv k history) (on : k.cpu c = some p)
    (awaits : AwaitsChild k p) :
    FamilyInv ((k.setPc p .waiting).sleep c p (.proc p)) ∧
      HistoryInv ((k.setPc p .waiting).sleep c p (.proc p)) history := by
  have runs := inv.table.state_of_cpu on
  have atP : ((k.setPc p .waiting).sleep c p (.proc p)).proc p = _ := update_self _ _ _
  have elsewhere : ∀ slot, slot ≠ p →
      ((k.setPc p .waiting).sleep c p (.proc p)).proc slot = k.proc slot :=
    fun slot different => update_of_ne different _ _
  have same : SameFamily k ((k.setPc p .waiting).sleep c p (.proc p)) := by
    -- For the family, sleeping here is like sleeping on any other channel.
    have kin : Kin k ((k.setPc p .waiting).sleep c p .ticks) :=
      (Kin.setPoint (by simp)).trans (Kin.sleep (by simpa using runs) rfl)
    refine ⟨?_, ?_, ?_, rfl, rfl, kin.forking⟩
    all_goals
      intro slot
      by_cases isSelf : slot = p
      · rw [isSelf, atP]
        simp [runs, ProcState.phase]
      · rw [elsewhere slot isSelf]
  refine ⟨inv.family.of_same same ?_, inv.history.of_same same⟩
  intro slot r asleep chan
  by_cases isSelf : slot = p
  · rw [isSelf] at chan ⊢
    rw [atP] at chan
    have self : p = r := Chan.proc.inj (Option.some.inj chan)
    exact ⟨self.symm, awaits.of_same same (by rw [atP]; rfl)⟩
  · rw [elsewhere slot isSelf] at asleep chan
    obtain ⟨self, before⟩ := inv.family.asleep slot r asleep chan
    exact ⟨self, before.of_same same (by rw [elsewhere slot isSelf])⟩

/-- One pass of `wait`, with the event of its return. -/
theorem ExitWaitInv.waitLoop (inv : ExitWaitInv k history) (on : k.cpu c = some p) :
    FamilyInv (k.waitLoop c p) ∧ HistoryInv (k.waitLoop c p) (k.waitEvents p ++ history) := by
  unfold Kernel.waitLoop Kernel.waitEvents waitReturn
  cases scanned : waitScan k.proc p with
  | reap child =>
    have found := waitScan_reap scanned
    exact inv.reap on found.1 found.2
  | fail =>
    have kin : Kin k (k.setPc p .normal) := Kin.setPoint (by simp)
    refine ⟨inv.family.of_kin kin, ?_⟩
    apply (inv.history.of_same kin.sameFamily).waited
    · exact ⟨inv.history.notExited (inv.table.live_of_cpu on), Or.inl rfl⟩
    · exact Or.inl rfl
  | sleep => exact inv.sleepInWait on (waitScan_sleep scanned)

/-! ## Every run -/

theorem FamilyStep.keeps {events : List Event} (inv : ExitWaitInv k history)
    (step : FamilyStep k action events k') : FamilyInv k' ∧ HistoryInv k' (events ++ history) := by
  cases step with
  | plain kin => exact ⟨inv.family.of_kin kin, inv.history.of_same kin.sameFamily⟩
  | kill => exact ⟨inv.family.kill _, inv.history.of_same (SameFamily.kill k _)⟩
  | alloc on => exact inv.alloc on
  | undo _ at_ failed => exact inv.undo at_ failed
  | parent at_ => exact inv.parent at_
  | finish at_ => exact inv.finish at_
  | @exit c p trap on at_ =>
    have done := inv.table.exitDone p
    rw [at_] at done
    exact ⟨inv.family.exit inv.table on done.1,
      inv.history.exit inv.family inv.table on done.1⟩
  | wait kin table on =>
    have after : ExitWaitInv _ history :=
      ⟨table, inv.family.of_kin kin, inv.history.of_same kin.sameFamily⟩
    exact after.waitLoop on

theorem ExitWaitInv.step (inv : ExitWaitInv k history) (taken : k.step action = some k') :
    ExitWaitInv k' (k.events action ++ history) := by
  have step := Step.of_step taken
  have kept := (step.family inv.table).keeps inv
  exact ⟨inv.table.step step, kept.1, kept.2⟩

theorem ExitWaitInv.boot (ncpu stack root : Nat) :
    ExitWaitInv (Kernel.boot ncpu stack root) [] where
  table := TableInv.boot ncpu stack root
  family := by
    have parent : ∀ slot, ((Kernel.boot ncpu stack root).proc slot).parent = none := by
      intro slot
      rw [Kernel.boot_proc]
      by_cases first : slot = 0 <;> simp [first, initcode, embryoOf, Proc.zero]
    refine ⟨?_, parent _, ?_, ?_, ?_, ?_, ?_⟩
    · rw [Kernel.boot_proc]
      rfl
    · intro slot r isParent
      simp [parent] at isParent
    · intro slot r isParent
      simp [parent] at isParent
    · intro p np stage at_
      simp [Kernel.boot] at at_
    · intro slot notInit started
      rw [Kernel.boot_proc, if_neg (show slot ≠ 0 from notInit)] at started
      simp [Proc.zero, ProcState.live] at started
    · intro slot r asleep
      rw [Kernel.boot_proc] at asleep
      by_cases first : slot = 0 <;> simp [first, initcode, Proc.zero] at asleep
  history := by
    refine ⟨trivial, by simp, by simp, by simp, ?_, ?_⟩
    · intro slot dead
      rw [Kernel.boot_proc] at dead
      by_cases first : slot = 0 <;> simp [first, initcode, Proc.zero] at dead
    · intro slot r isParent
      rw [Kernel.boot_proc] at isParent
      by_cases first : slot = 0 <;>
        simp [first, initcode, embryoOf, Proc.zero] at isParent

theorem ExitWaitInv.of_run {stack root : Nat} {actions : List (Action ncpu)}
    (reaches : run Kernel.record (Kernel.boot ncpu stack root, []) actions =
      some (k, history)) : ExitWaitInv k history := by
  refine run_invariant (fun recorded => ExitWaitInv recorded.1 recorded.2) ?_
    (ExitWaitInv.boot ncpu stack root) reaches
  intro before action after inv taken
  obtain ⟨stepped, recorded⟩ := watch_eq_some.mp taken
  rw [recorded]
  exact inv.step stepped

/-- A return of -1 has one of the two reasons. -/
theorem waitEvents_fail (inv : TableInv k) {p : Slot}
    (member : .waited caller (-1) ∈ k.waitEvents p) :
    caller = (k.proc p).pid ∧
      ((∀ slot, (k.proc slot).parent ≠ some p) ∨ (k.proc p).killed = true) := by
  unfold Kernel.waitEvents waitReturn at member
  cases scanned : waitScan k.proc p with
  | reap child =>
    rw [scanned] at member
    have used : (k.proc child).state ≠ .unused := by
      rw [(waitScan_reap scanned).2]
      simp
    have positive := (inv.pidRange child used).1
    simp only [List.mem_singleton, Event.waited.injEq] at member
    omega
  | fail =>
    rw [scanned] at member
    simp only [List.mem_singleton, Event.waited.injEq, and_true] at member
    exact ⟨member, waitScan_fail scanned⟩
  | sleep =>
    rw [scanned] at member
    simp at member

/-- A return of -1 in a step, read back to the state before it. -/
theorem events_fail (inv : TableInv k) (taken : k.step action = some k')
    (member : .waited caller (-1) ∈ k.events action) :
    ∃ p, (k.proc p).pid = caller ∧ (k.proc p).state.live = true ∧
      ((∀ slot, (k.proc slot).parent ≠ some p) ∨ (k.proc p).killed = true) := by
  cases Step.of_step taken with
  | @scheduler c idle =>
    simp only [Kernel.events] at member
    cases searched : schedulerSearch k.proc k.rrNext with
    | none =>
      rw [searched] at member
      simp at member
    | some p =>
      rw [searched] at member
      have ready : (k.proc p).state = .runnable := by
        simpa using CircularScan.scan_accepts searched
      have table := inv.dispatch idle ready
      have on : (k.dispatch c p).cpu c = some p := update_self _ _ _
      have family : SameFamily k ((k.dispatch c p).clearChan p) :=
        ((Kin.dispatch ready).trans (Kin.clearChan (table.state_of_cpu on))).sameFamily
      have killed : (((k.dispatch c p).clearChan p).proc p).killed = (k.proc p).killed := by
        simp [Kernel.clearChan, Kernel.dispatch]
      simp only at member
      split at member
      · have reason := waitEvents_fail (table.clearChan on) member
        rw [family.pid, killed] at reason
        refine ⟨p, reason.1.symm, by rw [ready]; rfl, reason.2.imp_left ?_⟩
        intro noChild slot
        rw [← family.parent]
        exact noChild slot
      · simp at member
  | @wait c p on at_ =>
    simp only [Kernel.events, on] at member
    have reason := waitEvents_fail inv member
    exact ⟨p, reason.1.symm, inv.live_of_cpu on, reason.2⟩
  | forkFinish on at_ => simp [Kernel.events, on, at_] at member
  | exitFinish on at_ => simp [Kernel.events, on] at member
  | _ => simp [Kernel.events] at member

/-- The exit/wait protocol: at every state of a run (a) a started process other than
`init` has a live parent and following parents leads to `init`; (b) a process asleep in
`wait` has a child, none of them a zombie, and has not been killed; the history obeys
its law; and a `wait` that returns -1 next has no child or was killed. -/
theorem exit_wait_protocol {stack root : Nat} {actions : List (Action ncpu)}
    (reaches : run Kernel.record (Kernel.boot ncpu stack root, []) actions =
      some (k, history)) :
    (∀ slot, slot ≠ k.initproc →
      (k.proc slot).state = .sleeping ∨ (k.proc slot).state = .runnable ∨
        (k.proc slot).state = .running ∨ (k.proc slot).state = .zombie →
      (∃ r, (k.proc slot).parent = some r ∧ ((k.proc r).state = .sleeping ∨
        (k.proc r).state = .runnable ∨ (k.proc r).state = .running)) ∧
      Relation.ReflTransGen (fun child parent => (k.proc child).parent = some parent) slot
        k.initproc) ∧
    (∀ slot, (k.proc slot).state = .sleeping → (k.proc slot).chan = some (.proc slot) →
      (∃ child, (k.proc child).parent = some slot) ∧
      (∀ child, (k.proc child).parent = some slot → (k.proc child).state ≠ .zombie) ∧
      (k.proc slot).killed = false) ∧
    Lawful history ∧
    ∀ action k' caller, k.step action = some k' → .waited caller (-1) ∈ k.events action →
      ∃ p, (k.proc p).pid = caller ∧ (k.proc p).state.live = true ∧
        ((∀ slot, (k.proc slot).parent ≠ some p) ∨ (k.proc p).killed = true) := by
  have inv := ExitWaitInv.of_run reaches
  refine ⟨?_, ?_, inv.history.lawful, ?_⟩
  · intro slot notInit state
    have started : (k.proc slot).state.live = true ∨ (k.proc slot).state = .zombie := by
      rcases state with same | same | same | same <;> rw [same] <;> simp [ProcState.live]
    obtain ⟨r, isParent⟩ := inv.family.hasParent slot notInit started
    have alive := inv.family.parentLive slot r isParent
    refine ⟨⟨r, isParent, ?_⟩, inv.family.chain inv.table slot started⟩
    cases state : (k.proc r).state <;> simp_all [ProcState.live]
  · intro slot asleep chan
    have awaits := (inv.family.asleep slot slot asleep chan).2
    exact ⟨awaits.child, awaits.noZombie, awaits.notKilled⟩
  · intro action k' caller taken member
    exact events_fail inv.table taken member

/-- `init` forks, waits, and reaps its child once it has exited. -/
theorem exit_wait_protocol_reaps :
    ∃ (k : Kernel 1) (history : List Event),
      run Kernel.record (Kernel.boot 1 0 0, [])
        ([.scheduler 0, .forkAlloc 0, .forkKalloc 0 (some 1), .forkCopyuvm 0 true, .forkParent 0,
          .forkFiles 0, .forkFinish 0, .wait 0, .scheduler 0, .exitCall 0] ++
          List.replicate 16 (.exitClose 0) ++ [.exitCwd 0, .exitFinish 0, .scheduler 0]) =
        some (k, history) ∧
      history = [.waited 1 2, .exited 2, .forked 1 2] ∧ Lawful history := by
  refine exists_of_view Prod.snd [.waited 1 2, .exited 2, .forked 1 2] (by decide +kernel)
    fun k history reaches same => ?_
  exact ⟨same, (exit_wait_protocol reaches).2.2.1⟩

end Xv6.Process
