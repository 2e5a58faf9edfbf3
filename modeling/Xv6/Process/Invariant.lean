import Xv6.Process.Kernel

/-!
The process-table invariant.

Owns: what holds of the table whenever `ptable.lock` is free, with one
preservation lemma for each way the kernel changes the table, and the theorem
that every reachable state satisfies it.

Does not own: the parent relation and the exit/wait protocol
(`Xv6.Process.ExitWait`), or anything about quanta and semaphores.

The invariant is stronger than the statement it proves. It also says who owns
an `EMBRYO` slot and which of its fields `fork` has set so far, since the failure
paths of `fork` rely on the fields not yet set being null.
-/

namespace Xv6.Process

open Function (update update_self update_of_ne update_eq_self)

variable {ncpu : Nat} {state : ProcState} {k k' : Kernel ncpu} {p : Slot} {q : Proc} {pc' : Pc}
  {c : Fin ncpu}

/-- States of a process that has started and not exited. -/
def ProcState.live : ProcState → Bool
  | .sleeping => true
  | .runnable => true
  | .running => true
  | _ => false

/-- Stages of `fork` at which the child has no kernel stack. -/
def ForkStage.stackless : ForkStage → Bool
  | .alloced => true
  | .noStack => true
  | .copyFailed => true
  | _ => false

/-- Stages of `fork` at which `np->parent` has been stored. -/
def ForkStage.hasParent : ForkStage → Bool
  | .parented => true
  | .filed => true
  | _ => false

/-- What a free slot holds. -/
structure Clean (p : Proc) : Prop where
  pid : p.pid = 0
  parent : p.parent = none
  kstack : p.kstack = none
  ofile : ∀ fd, p.ofile fd = none

/-- What the slot of a child holds while `forker` is at `stage` of `fork`. -/
structure Embryo (forker : Slot) (stage : ForkStage) (p : Proc) : Prop where
  state : p.state = .embryo
  parent : p.parent = if stage.hasParent then some forker else none
  kstack : stage.stackless = true → p.kstack = none
  ofile : stage ≠ .filed → ∀ fd, p.ofile fd = none

/-- What `exit` has done by the time it reaches `pc`. -/
def ExitDone (initproc slot : Slot) (p : Proc) : Pc → Prop
  | .exiting fd _ =>
    slot ≠ initproc ∧ fd ≤ nofile ∧ ∀ index : Fin nofile, index.val < fd → p.ofile index = none
  | .leaving _ => slot ≠ initproc ∧ ∀ fd, p.ofile fd = none
  | _ => True

structure TableInv (k : Kernel ncpu) : Prop where
  running : ∀ slot, (k.proc slot).state = .running ↔ ∃ c, k.cpu c = some slot
  oneCpu : ∀ c c' slot, k.cpu c = some slot → k.cpu c' = some slot → c = c'
  pidRange : ∀ slot, (k.proc slot).state ≠ .unused →
    1 ≤ (k.proc slot).pid ∧ (k.proc slot).pid < k.nextpid
  pidDistinct : ∀ left right, (k.proc left).state ≠ .unused → (k.proc right).state ≠ .unused →
    (k.proc left).pid = (k.proc right).pid → left = right
  nextpidPos : 1 ≤ k.nextpid
  clean : ∀ slot, (k.proc slot).state = .unused → Clean (k.proc slot)
  owned : ∀ slot, (k.proc slot).state = .embryo → ∃ p stage, k.pc p = .forking slot stage
  forking : ∀ p np stage, k.pc p = .forking np stage → Embryo p stage (k.proc np)
  oneForker : ∀ p q np stage stage', k.pc p = .forking np stage → k.pc q = .forking np stage' →
    p = q
  outside : ∀ slot, (k.proc slot).state.live = false → k.pc slot = .normal
  exitDone : ∀ slot, ExitDone k.initproc slot (k.proc slot) (k.pc slot)
  zombieFiles : ∀ slot, (k.proc slot).state = .zombie → ∀ fd, (k.proc slot).ofile fd = none
  initLive : (k.proc k.initproc).state.live = true
  pointer : k.rrNext < nproc

/-! ## States and wakeups -/

theorem ProcState.live_ne_unused (alive : state.live = true) : state ≠ .unused := by
  rintro rfl
  cases alive

theorem ProcState.live_ne_embryo (alive : state.live = true) : state ≠ .embryo := by
  rintro rfl
  cases alive

theorem ProcState.live_ne_zombie (alive : state.live = true) : state ≠ .zombie := by
  rintro rfl
  cases alive

variable {before after : Proc}

theorem Similar.state_iff (similar : Similar before after) (notSleeping : state ≠ .sleeping)
    (notRunnable : state ≠ .runnable) : after.state = state ↔ before.state = state := by
  rcases similar.state with same | ⟨asleep, woken⟩
  · rw [same]
  · rw [asleep, woken]
    exact ⟨fun equal => absurd equal.symm notRunnable, fun equal => absurd equal.symm notSleeping⟩

theorem Similar.live (similar : Similar before after) :
    after.state.live = before.state.live := by
  rcases similar.state with same | ⟨asleep, woken⟩
  · rw [same]
  · rw [asleep, woken]
    rfl

theorem TableInv.state_of_cpu (inv : TableInv k) (on : k.cpu c = some p) :
    (k.proc p).state = .running :=
  (inv.running p).mpr ⟨c, on⟩

theorem TableInv.live_of_cpu (inv : TableInv k) (on : k.cpu c = some p) :
    (k.proc p).state.live = true := by
  rw [inv.state_of_cpu on]
  rfl

/-- The child of a running `fork` is another slot. -/
theorem TableInv.child_ne (inv : TableInv k) {np other : Slot} {stage : ForkStage}
    (at_ : k.pc p = .forking np stage) (alive : (k.proc other).state.live = true) :
    other ≠ np := by
  intro equal
  have embryo := (inv.forking p np stage at_).state
  rw [← equal] at embryo
  exact ProcState.live_ne_embryo alive embryo

theorem TableInv.live_of_pc (inv : TableInv k) (inside : k.pc p ≠ .normal) :
    (k.proc p).state.live = true := by
  by_contra dead
  exact inside (inv.outside p (by simpa using dead))

/-! ## Changes that leave the table's shape alone -/

/-- Wakeups, accounting and other stores to fields the invariant does not
mention. -/
theorem TableInv.of_similar (inv : TableInv k)
    (similar : ∀ slot, Similar (k.proc slot) (k'.proc slot)) (cpu : k'.cpu = k.cpu)
    (pc : k'.pc = k.pc) (nextpid : k'.nextpid = k.nextpid) (initproc : k'.initproc = k.initproc)
    (rrNext : k'.rrNext = k.rrNext) : TableInv k' where
  running := by
    intro slot
    rw [(similar slot).state_iff (by simp) (by simp), cpu]
    exact inv.running slot
  oneCpu := by
    rw [cpu]
    exact inv.oneCpu
  pidRange := by
    intro slot used
    rw [(similar slot).pid, nextpid]
    apply inv.pidRange slot
    rwa [Ne, (similar slot).state_iff (by simp) (by simp)] at used
  pidDistinct := by
    intro left right leftUsed rightUsed same
    rw [(similar left).pid, (similar right).pid] at same
    rw [Ne, (similar left).state_iff (by simp) (by simp)] at leftUsed
    rw [Ne, (similar right).state_iff (by simp) (by simp)] at rightUsed
    exact inv.pidDistinct left right leftUsed rightUsed same
  nextpidPos := by
    rw [nextpid]
    exact inv.nextpidPos
  clean := by
    intro slot free
    rw [(similar slot).state_iff (by simp) (by simp)] at free
    have clean := inv.clean slot free
    exact ⟨(similar slot).pid.trans clean.pid,
      ((similar slot).parent (Or.inl free)).trans clean.parent,
      (similar slot).kstack.trans clean.kstack, fun fd => by
        rw [(similar slot).ofile]
        exact clean.ofile fd⟩
  owned := by
    intro slot embryo
    rw [(similar slot).state_iff (by simp) (by simp)] at embryo
    rw [pc]
    exact inv.owned slot embryo
  forking := by
    intro p np stage at_
    rw [pc] at at_
    have embryo := inv.forking p np stage at_
    refine ⟨?_, ((similar np).parent (Or.inr embryo.state)).trans embryo.parent,
      fun stackless => ?_, fun unfiled fd => ?_⟩
    · rw [(similar np).state_iff (by simp) (by simp)]
      exact embryo.state
    · exact (similar np).kstack.trans (embryo.kstack stackless)
    · rw [(similar np).ofile]
      exact embryo.ofile unfiled fd
  oneForker := by
    rw [pc]
    exact inv.oneForker
  outside := by
    intro slot dead
    rw [(similar slot).live] at dead
    rw [pc]
    exact inv.outside slot dead
  exitDone := by
    intro slot
    have done := inv.exitDone slot
    rw [pc, initproc]
    unfold ExitDone at done ⊢
    rw [(similar slot).ofile]
    exact done
  zombieFiles := by
    intro slot dead fd
    rw [(similar slot).state_iff (by simp) (by simp)] at dead
    rw [(similar slot).ofile]
    exact inv.zombieFiles slot dead fd
  initLive := by
    rw [initproc, (similar k.initproc).live]
    exact inv.initLive
  pointer := by
    rw [rrNext]
    exact inv.pointer

/-- A live process changes: its own fields, its point in the code, its CPU. -/
theorem TableInv.own (inv : TableInv k) (proc : k'.proc = update k.proc p q)
    (pc : k'.pc = update k.pc p pc') (nextpid : k'.nextpid = k.nextpid)
    (initproc : k'.initproc = k.initproc) (pointer : k'.rrNext < nproc)
    (alive : (k.proc p).state.live = true) (pid : q.pid = (k.proc p).pid) (used : q.state ≠ .unused)
    (started : q.state ≠ .embryo)
    (forks : ∀ np stage, pc' = .forking np stage ↔ k.pc p = .forking np stage)
    (outside : q.state.live = false → pc' = .normal) (done : ExitDone k.initproc p q pc')
    (files : q.state = .zombie → ∀ fd, q.ofile fd = none)
    (init : p = k.initproc → q.state.live = true)
    (running : ∀ slot, (k'.proc slot).state = .running ↔ ∃ c, k'.cpu c = some slot)
    (oneCpu : ∀ c c' slot, k'.cpu c = some slot → k'.cpu c' = some slot → c = c') :
    TableInv k' := by
  -- The process keeps its pid, so ranges and distinctness carry over.
  have pidKept : ∀ slot, (k'.proc slot).pid = (k.proc slot).pid := by
    rw [proc]
    exact fun slot => Update.cases slot pid fun _ => rfl
  have usedKept : ∀ slot, (k'.proc slot).state ≠ .unused → (k.proc slot).state ≠ .unused := by
    rw [proc]
    exact fun slot => Update.cases slot (fun _ => ProcState.live_ne_unused alive) fun _ => id
  have forkKept : ∀ r np stage, k'.pc r = .forking np stage ↔ k.pc r = .forking np stage := by
    intro r np stage
    rw [pc]
    exact Update.cases r (forks np stage) fun _ => Iff.rfl
  refine ⟨running, oneCpu, ?_, ?_, ?_, ?_, ?_, ?_, ?_, ?_, ?_, ?_, ?_, pointer⟩
  · intro slot stillUsed
    rw [pidKept, nextpid]
    exact inv.pidRange slot (usedKept slot stillUsed)
  · intro left right leftUsed rightUsed equal
    rw [pidKept, pidKept] at equal
    exact inv.pidDistinct left right (usedKept left leftUsed) (usedKept right rightUsed) equal
  · rw [nextpid]
    exact inv.nextpidPos
  · rw [proc]
    exact fun slot => Update.cases slot (fun free => absurd free used) fun _ => inv.clean slot
  · rw [proc]
    refine fun slot => Update.cases slot (fun embryo => absurd embryo started) fun _ embryo => ?_
    obtain ⟨r, stage, at_⟩ := inv.owned slot embryo
    exact ⟨r, stage, (forkKept r slot stage).mpr at_⟩
  · intro r np stage at_
    have before := (forkKept r np stage).mp at_
    rw [proc, update_of_ne (inv.child_ne before alive).symm]
    exact inv.forking r np stage before
  · intro r r' np stage stage' first second
    exact inv.oneForker r r' np stage stage' ((forkKept r np stage).mp first)
      ((forkKept r' np stage').mp second)
  · rw [proc, pc]
    exact fun slot => Update.cases₂ slot outside fun _ => inv.outside slot
  · rw [proc, pc, initproc]
    exact fun slot => Update.cases₂ slot done fun _ => inv.exitDone slot
  · rw [proc]
    exact fun slot => Update.cases slot files fun _ => inv.zombieFiles slot
  · rw [proc, initproc]
    by_cases same : k.initproc = p
    · rw [same, update_self]
      exact init same.symm
    · rw [update_of_ne same]
      exact inv.initLive

/-- The running process changes its own fields or its point in the code. -/
theorem TableInv.ownRunning (inv : TableInv k) (on : k.cpu c = some p)
    (pid : q.pid = (k.proc p).pid) (state : q.state = (k.proc p).state)
    (forks : ∀ np stage, pc' = .forking np stage ↔ k.pc p = .forking np stage)
    (done : ExitDone k.initproc p q pc') : TableInv ((k.setProc p q).setPc p pc') := by
  have alive : q.state.live = true := by
    rw [state]
    exact inv.live_of_cpu on
  refine inv.own rfl rfl rfl rfl inv.pointer (inv.live_of_cpu on) pid
    (ProcState.live_ne_unused alive) (ProcState.live_ne_embryo alive) forks ?_ done ?_
    (fun _ => alive) ?_ inv.oneCpu
  · intro dead
    rw [alive] at dead
    simp at dead
  · exact fun dead => absurd dead (ProcState.live_ne_zombie alive)
  · simp only [Kernel.setPc_proc, Kernel.setProc_proc, Kernel.setPc_cpu, Kernel.setProc_cpu]
    refine fun slot => Update.cases slot ?_ fun _ => inv.running slot
    rw [state, inv.running p]

theorem TableInv.ownRunning_same (inv : TableInv k) (on : k.cpu c = some p)
    (pid : q.pid = (k.proc p).pid) (state : q.state = (k.proc p).state)
    (done : ExitDone k.initproc p q (k.pc p)) : TableInv (k.setProc p q) := by
  have kept := inv.ownRunning on pid state (fun _ _ => Iff.rfl) done
  have same : (k.setProc p q).setPc p (k.pc p) = k.setProc p q := Kernel.setPc_eq_self rfl
  rwa [same] at kept

theorem TableInv.freed_iff (inv : TableInv k) (on : k.cpu c = some p) (slot : Slot) :
    (∃ c', update k.cpu c none c' = some slot) ↔ slot ≠ p ∧ (k.proc slot).state = .running := by
  rw [Function.exists_update_iff k.cpu fun _ there => there = some slot, inv.running slot]
  constructor
  · rintro (new | ⟨c', isOther, there⟩)
    · cases new
    · refine ⟨?_, c', there⟩
      rintro rfl
      exact isOther (inv.oneCpu c' c slot there on)
  · rintro ⟨isOther, c', there⟩
    refine .inr ⟨c', ?_, there⟩
    rintro rfl
    exact isOther (Option.some.inj (there.symm.trans on))

theorem TableInv.given_iff (inv : TableInv k) (idle : k.cpu c = none) (slot : Slot) :
    (∃ c', update k.cpu c (some p) c' = some slot) ↔ slot = p ∨ (k.proc slot).state = .running := by
  rw [Function.exists_update_iff k.cpu fun _ there => there = some slot, inv.running slot]
  constructor
  · rintro (new | ⟨c', _, there⟩)
    · exact .inl (Option.some.inj new).symm
    · exact .inr ⟨c', there⟩
  · rintro (rfl | ⟨c', there⟩)
    · exact .inl rfl
    · refine .inr ⟨c', ?_, there⟩
      rintro rfl
      cases there.symm.trans idle

/-- The process on CPU `c` gives it back: it becomes `RUNNABLE`, `SLEEPING` or, at
the end of `exit`, a zombie. -/
theorem TableInv.release (inv : TableInv k) (on : k.cpu c = some p) (pid : q.pid = (k.proc p).pid)
    (used : q.state ≠ .unused) (started : q.state ≠ .embryo) (stopped : q.state ≠ .running)
    (forks : ∀ np stage, pc' = .forking np stage ↔ k.pc p = .forking np stage)
    (outside : q.state.live = false → pc' = .normal) (done : ExitDone k.initproc p q pc')
    (files : q.state = .zombie → ∀ fd, q.ofile fd = none)
    (init : p = k.initproc → q.state.live = true) :
    TableInv (((k.setProc p q).setPc p pc').setCpu c none) := by
  refine inv.own rfl rfl rfl rfl inv.pointer (inv.live_of_cpu on) pid used started forks outside
    done files init ?_ fun _ _ slot => Update.once (· = some slot) (inv.oneCpu · · slot) ?_
  · intro slot
    change (update k.proc p q slot).state = .running ↔ ∃ c', update k.cpu c none c' = some slot
    rw [inv.freed_iff on]
    refine Update.cases slot ?_ fun isOther => ?_
    · exact ⟨fun runs => absurd runs stopped, fun there => absurd rfl there.1⟩
    · exact ⟨fun runs => ⟨isOther, runs⟩, And.right⟩
  · exact fun _ _ _ contra => nomatch contra

theorem TableInv.yield (inv : TableInv k) (on : k.cpu c = some p) (pid : q.pid = (k.proc p).pid)
    (state : q.state = .runnable ∨ q.state = .sleeping) (files : q.ofile = (k.proc p).ofile) :
    TableInv ((k.setProc p q).setCpu c none) := by
  have alive : q.state.live = true := by
    rcases state with runnable | asleep
    · rw [runnable]; rfl
    · rw [asleep]; rfl
  have stopped : q.state ≠ .running := by
    rcases state with runnable | asleep
    · rw [runnable]; simp
    · rw [asleep]; simp
  have done : ExitDone k.initproc p q (k.pc p) := by
    have before := inv.exitDone p
    unfold ExitDone at before ⊢
    rw [files]
    exact before
  have kept := inv.release on pid (ProcState.live_ne_unused alive) (ProcState.live_ne_embryo alive)
    stopped (fun _ _ => Iff.rfl) (fun dead => by rw [alive] at dead; simp at dead) done
    (fun dead => absurd dead (ProcState.live_ne_zombie alive)) (fun _ => alive)
  have same : (k.setProc p q).setPc p (k.pc p) = k.setProc p q := Kernel.setPc_eq_self rfl
  rwa [same] at kept

theorem TableInv.sleep (inv : TableInv k) (on : k.cpu c = some p) (chan : Chan) :
    TableInv (k.sleep c p chan) := by
  unfold Kernel.sleep
  apply inv.yield on
  · rfl
  · exact Or.inr rfl
  · rfl

theorem TableInv.dispatch (inv : TableInv k) (idle : k.cpu c = none)
    (ready : (k.proc p).state = .runnable) : TableInv (k.dispatch c p) := by
  have alive : (k.proc p).state.live = true := by rw [ready]; rfl
  have proc : (k.dispatch c p).proc = update k.proc p _ := rfl
  refine inv.own proc (update_eq_self p k.pc).symm rfl rfl
    (Nat.mod_lt _ (by decide)) alive rfl (by simp) (by simp) (fun _ _ => Iff.rfl) ?_ ?_ ?_
    (fun _ => rfl) ?_ fun _ _ slot => Update.once (· = some slot) (inv.oneCpu · · slot) ?_
  · intro dead
    simp [ProcState.live] at dead
  · exact inv.exitDone p
  · intro dead
    simp at dead
  · intro slot
    change (update k.proc p _ slot).state = .running ↔ ∃ c', update k.cpu c (some p) c' = some slot
    rw [inv.given_iff idle]
    refine Update.cases slot ?_ fun isOther => ?_
    · exact ⟨fun _ => .inl rfl, fun _ => rfl⟩
    · exact ⟨.inr, fun either => either.resolve_left isOther⟩
  · rintro c' - there isNew
    cases isNew
    cases ready.symm.trans (inv.state_of_cpu there)

/-! ## Slots taken, filled and freed -/

/-- Process `p` changes a slot `np` that is not live: it takes it, fills it,
starts it, or frees it. -/
theorem TableInv.child (inv : TableInv k) {np : Slot} {nextpid' : Int}
    (alive : (k.proc p).state.live = true) (dormant : (k.proc np).state.live = false)
    (stopped : q.state ≠ .running) (notZombie : q.state ≠ .zombie) (grows : k.nextpid ≤ nextpid')
    (range : q.state ≠ .unused → 1 ≤ q.pid ∧ q.pid < nextpid')
    (fresh : q.state ≠ .unused → ∀ other, other ≠ np → (k.proc other).state ≠ .unused →
      q.pid ≠ (k.proc other).pid) (clean : q.state = .unused → Clean q)
    (owner : q.state = .embryo → ∃ stage, pc' = .forking np stage)
    (forks : ∀ other stage, pc' = .forking other stage → other = np ∧ Embryo p stage q)
    (mine : ∀ other stage, k.pc p = .forking other stage → other = np)
    (notTheirs : ∀ r stage, r ≠ p → k.pc r ≠ .forking np stage)
    (done : ExitDone k.initproc p (k.proc p) pc') :
    TableInv { k with
      proc := update k.proc np q
      pc := update k.pc p pc'
      nextpid := nextpid' } := by
  have asleep {slot : Slot} (isLive : (k.proc slot).state.live = true) : slot ≠ np := by
    rintro rfl
    cases dormant.symm.trans isLive
  have npNormal := inv.outside np dormant
  constructor <;> dsimp only
  case running =>
    refine fun slot => Update.cases slot ⟨fun runs => absurd runs stopped, ?_⟩ fun _ => inv.running slot
    rintro ⟨c, on⟩
    exact absurd rfl (asleep (inv.live_of_cpu on))
  case oneCpu => exact inv.oneCpu
  case pidRange =>
    refine fun slot => Update.cases slot range fun _ used => ?_
    have bounds := inv.pidRange slot used
    exact ⟨bounds.1, lt_of_lt_of_le bounds.2 grows⟩
  case pidDistinct =>
    intro left right
    refine Update.cases left ?_ fun isOld => ?_
    · refine Update.cases right (fun _ _ _ => rfl) fun isOld leftUsed rightUsed equal => ?_
      exact absurd equal (fresh leftUsed right isOld rightUsed)
    · refine Update.cases right (fun leftUsed rightUsed equal => ?_) fun _ => inv.pidDistinct left right
      exact absurd equal.symm (fresh rightUsed left isOld leftUsed)
  case nextpidPos => exact le_trans inv.nextpidPos grows
  case clean => exact fun slot => Update.cases slot clean fun _ => inv.clean slot
  case owned =>
    refine fun slot => Update.cases slot (fun embryo => ?_) fun isOld embryo => ?_
    · obtain ⟨stage, at_⟩ := owner embryo
      exact ⟨p, stage, (update_self p pc' k.pc).trans at_⟩
    · obtain ⟨r, stage, at_⟩ := inv.owned slot embryo
      have isOther : r ≠ p := by
        rintro rfl
        exact isOld (mine slot stage at_)
      exact ⟨r, stage, (update_of_ne isOther pc' k.pc).trans at_⟩
  case forking =>
    intro r slot stage
    refine Update.cases r (fun at_ => ?_) fun isOther at_ => ?_
    · obtain ⟨rfl, embryo⟩ := forks slot stage at_
      rw [update_self]
      exact embryo
    · have isOld : slot ≠ np := by
        rintro rfl
        exact notTheirs r stage isOther at_
      rw [update_of_ne isOld]
      exact inv.forking r slot stage at_
  case oneForker =>
    intro r r' slot stage stage'
    refine Update.cases r ?_ fun isOther => ?_
    · refine Update.cases r' (fun _ _ => rfl) fun isOther first second => ?_
      rw [(forks slot stage first).1] at second
      exact absurd second (notTheirs r' stage' isOther)
    · refine Update.cases r' (fun first second => ?_) fun _ => inv.oneForker r r' slot stage stage'
      rw [(forks slot stage' second).1] at first
      exact absurd first (notTheirs r stage isOther)
  case outside =>
    refine fun slot => Update.cases slot (fun _ => ?_) fun _ dead => ?_
    · rw [update_of_ne (asleep alive).symm]
      exact npNormal
    · have isOther : slot ≠ p := by
        rintro rfl
        cases dead.symm.trans alive
      rw [update_of_ne isOther]
      exact inv.outside slot dead
  case exitDone =>
    refine fun slot => Update.cases slot ?_ fun _ => ?_
    · rw [update_of_ne (asleep alive).symm, npNormal]
      trivial
    · exact Update.cases slot done fun _ => inv.exitDone slot
  case zombieFiles =>
    exact fun slot => Update.cases slot (fun dead => absurd dead notZombie) fun _ =>
      inv.zombieFiles slot
  case initLive =>
    rw [update_of_ne (asleep inv.initLive)]
    exact inv.initLive
  case pointer => exact inv.pointer

variable {np : Slot} {stage : ForkStage}

/-- A step of `fork` after `allocproc`: the child's slot gets `q`, and `fork` goes
on to `pc'`. -/
theorem TableInv.forkStep (inv : TableInv k) (at_ : k.pc p = .forking np stage)
    (stopped : q.state ≠ .running) (notZombie : q.state ≠ .zombie)
    (pid : q.state ≠ .unused → q.pid = (k.proc np).pid) (clean : q.state = .unused → Clean q)
    (owner : q.state = .embryo → ∃ stage, pc' = .forking np stage)
    (forks : ∀ other stage, pc' = .forking other stage → other = np ∧ Embryo p stage q)
    (done : ExitDone k.initproc p (k.proc p) pc') : TableInv ((k.setProc np q).setPc p pc') := by
  have embryo := (inv.forking p np stage at_).state
  have used : (k.proc np).state ≠ .unused := by rw [embryo]; simp
  apply inv.child (inv.live_of_pc (by rw [at_]; simp)) (by rw [embryo]; rfl) stopped notZombie
    (le_refl _) ?_ ?_ clean owner forks ?_ ?_ done
  · intro stillUsed
    rw [pid stillUsed]
    exact inv.pidRange np used
  · intro stillUsed other different otherUsed equal
    rw [pid stillUsed] at equal
    exact different (inv.pidDistinct np other used otherUsed equal).symm
  · intro other stage' atOther
    rw [at_] at atOther
    injection atOther with equal
    exact equal.symm
  · intro r stage' different atR
    exact different (inv.oneForker r p np stage' stage atR at_)

theorem TableInv.forkStage (inv : TableInv k) (at_ : k.pc p = .forking np stage)
    {stage' : ForkStage} (pid : q.pid = (k.proc np).pid) (embryo : Embryo p stage' q) :
    TableInv ((k.setProc np q).setPc p (.forking np stage')) := by
  apply inv.forkStep at_
  · rw [embryo.state]; simp
  · rw [embryo.state]; simp
  · exact fun _ => pid
  · intro free
    rw [embryo.state] at free
    simp at free
  · exact fun _ => ⟨stage', rfl⟩
  · intro other reached same
    injection same with sameSlot sameStage
    exact ⟨sameSlot.symm, sameStage ▸ embryo⟩
  · trivial

theorem TableInv.forkKalloc (inv : TableInv k) (at_ : k.pc p = .forking np .alloced)
    (page : Option Nat) : TableInv (k.forkKalloc p np page) := by
  have before := inv.forking p np .alloced at_
  have files := before.ofile (by simp)
  cases page with
  | none => exact inv.forkStage at_ rfl ⟨before.state, before.parent, fun _ => rfl, fun _ => files⟩
  | some address =>
    refine inv.forkStage at_ rfl ⟨before.state, before.parent, fun stackless => ?_, fun _ => files⟩
    simp [ForkStage.stackless] at stackless

theorem TableInv.forkCopyuvm (inv : TableInv k) (at_ : k.pc p = .forking np .stacked)
    (copied : Bool) : TableInv (k.forkCopyuvm p np copied) := by
  have before := inv.forking p np .stacked at_
  have files := before.ofile (by simp)
  unfold Kernel.forkCopyuvm
  cases copied with
  | true =>
    have embryo : Embryo p .copied (k.proc np) := by
      refine ⟨before.state, before.parent, fun stackless => ?_, fun _ => files⟩
      simp [ForkStage.stackless] at stackless
    have kept := inv.forkStage at_ rfl embryo
    have same : k.setProc np (k.proc np) = k := by
      unfold Kernel.setProc
      rw [update_eq_self]
    rwa [same] at kept
  | false =>
    exact inv.forkStage at_ rfl ⟨before.state, before.parent, fun _ => rfl, fun _ => files⟩

theorem TableInv.forkParent (inv : TableInv k) (at_ : k.pc p = .forking np .copied) :
    TableInv (k.forkParent p np) := by
  have before := inv.forking p np .copied at_
  refine inv.forkStage at_ rfl ⟨before.state, rfl, fun stackless => ?_, fun _ => ?_⟩
  · simp [ForkStage.stackless] at stackless
  · exact before.ofile (by simp)

theorem TableInv.forkFiles (inv : TableInv k) (at_ : k.pc p = .forking np .parented) :
    TableInv (k.forkFiles p np) := by
  have before := inv.forking p np .parented at_
  refine inv.forkStage at_ rfl ⟨before.state, before.parent, fun stackless => ?_, fun unfiled => ?_⟩
  · simp [ForkStage.stackless] at stackless
  · exact absurd rfl unfiled

/-- The failure paths put back a clean slot: neither has stored a parent or a
file yet, and both have cleared `kstack`. -/
theorem TableInv.forkUndo (inv : TableInv k) (at_ : k.pc p = .forking np stage)
    (failed : stage = .noStack ∨ stage = .copyFailed) : TableInv (k.forkUndo p np) := by
  have before := inv.forking p np stage at_
  have clean : Clean (abandoned (k.proc np)) := by
    rcases failed with noStack | copyFailed
    · subst stage
      exact ⟨rfl, before.parent, before.kstack rfl, before.ofile (by simp)⟩
    · subst stage
      exact ⟨rfl, before.parent, before.kstack rfl, before.ofile (by simp)⟩
  apply inv.forkStep at_
  · simp [abandoned]
  · simp [abandoned]
  · intro used
    exact absurd rfl used
  · exact fun _ => clean
  · intro embryo
    simp [abandoned] at embryo
  · intro other reached impossible
    simp at impossible
  · trivial

theorem TableInv.forkFinish (inv : TableInv k) (at_ : k.pc p = .forking np .filed) :
    TableInv (k.forkFinish p np) := by
  apply inv.forkStep at_
  · simp [madeRunnable]
  · simp [madeRunnable]
  · exact fun _ => rfl
  · intro free
    simp [madeRunnable] at free
  · intro embryo
    simp [madeRunnable] at embryo
  · intro other reached impossible
    simp at impossible
  · trivial

theorem TableInv.forkAlloc (inv : TableInv k) (on : k.cpu c = some p) (at_ : k.pc p = .normal) :
    TableInv (k.forkAlloc p) := by
  rcases k.forkAlloc_cases p with unchanged | ⟨np, free, changed⟩
  · rw [unchanged]
    exact inv
  · rw [changed]
    have clean := inv.clean np free
    have nextpidPos := inv.nextpidPos
    have grows : k.nextpid ≤ k.nextpid + 1 := by omega
    refine inv.child (inv.live_of_cpu on) (by rw [free]; rfl) (by simp [embryoOf])
      (by simp [embryoOf]) grows ?_ ?_ (by simp [embryoOf]) (fun _ => ⟨.alloced, rfl⟩) ?_ ?_
      ?_ trivial
    · intro _
      simp only [embryoOf, Kernel.setProc_nextpid]
      omega
    · intro _ other _ otherUsed equal
      have bounds := inv.pidRange other otherUsed
      simp only [embryoOf] at equal
      omega
    · intro other stage same
      injection same with sameSlot sameStage
      subst sameStage
      exact ⟨sameSlot.symm, rfl, clean.parent, fun _ => clean.kstack, fun _ => clean.ofile⟩
    · intro other stage atOther
      rw [at_] at atOther
      simp at atOther
    · intro r stage _ atR
      have embryo := (inv.forking r np stage atR).state
      rw [free] at embryo
      simp at embryo

variable {child : Slot}

theorem waitScan_reap {table : Table} (scanned : waitScan table p = .reap child) :
    (table child).parent = some p ∧ (table child).state = .zombie := by
  unfold waitScan at scanned
  split at scanned
  · rename_i found searched
    injection scanned with same
    subst same
    simpa using findSlot_accepts searched
  · dsimp only at scanned
    split at scanned <;> simp at scanned

theorem TableInv.reap (inv : TableInv k) (on : k.cpu c = some p)
    (notForking : ∀ np stage, k.pc p ≠ .forking np stage) (dead : (k.proc child).state = .zombie) :
    TableInv ((k.setProc child (reaped (k.proc child))).setPc p .normal) := by
  have files := inv.zombieFiles child dead
  refine inv.child (inv.live_of_cpu on) (by rw [dead]; rfl) (by simp [reaped])
    (by simp [reaped]) (le_refl _) (by simp [reaped]) (by simp [reaped])
    (fun _ => ⟨rfl, rfl, rfl, files⟩) (by simp [reaped]) (by simp) ?_ ?_ trivial
  · intro other stage atOther
    exact absurd atOther (notForking other stage)
  · intro r stage _ atR
    have embryo := (inv.forking r child stage atR).state
    rw [dead] at embryo
    simp at embryo

theorem TableInv.setPoint (inv : TableInv k) (on : k.cpu c = some p)
    (notForking : ∀ np stage, k.pc p ≠ .forking np stage)
    (newNotForking : ∀ np stage, pc' ≠ .forking np stage)
    (done : ExitDone k.initproc p (k.proc p) pc') : TableInv (k.setPc p pc') := by
  have kept := inv.ownRunning on rfl rfl
    (fun np stage => ⟨fun same => absurd same (newNotForking np stage),
      fun same => absurd same (notForking np stage)⟩) done
  have same : k.setProc p (k.proc p) = k := by
    unfold Kernel.setProc
    rw [update_eq_self]
  rwa [same] at kept

theorem TableInv.waitLoop (inv : TableInv k) (on : k.cpu c = some p)
    (notForking : ∀ np stage, k.pc p ≠ .forking np stage) : TableInv (k.waitLoop c p) := by
  unfold Kernel.waitLoop
  cases scanned : waitScan k.proc p with
  | reap child => exact inv.reap on notForking (waitScan_reap scanned).2
  | fail => exact inv.setPoint on notForking (by simp) trivial
  | sleep =>
    have inWait : TableInv (k.setPc p .waiting) :=
      inv.setPoint on notForking (by simp) trivial
    exact inWait.sleep on (.proc p)

theorem TableInv.clearChan (inv : TableInv k) (on : k.cpu c = some p) :
    TableInv (k.clearChan p) :=
  inv.ownRunning_same on rfl rfl (inv.exitDone p)

theorem TableInv.resume (inv : TableInv k) (on : k.cpu c = some p) : TableInv (k.resume c p) := by
  unfold Kernel.resume
  cases (k.proc p).context with
  | forkret => exact inv
  | yield => exact inv
  | sleep =>
    have awake := inv.clearChan on
    simp only
    split
    · rename_i inWait
      refine awake.waitLoop on ?_
      intro np stage forking
      rw [show (k.clearChan p).pc p = .waiting from inWait] at forking
      simp at forking
    · exact awake

theorem TableInv.scheduler (inv : TableInv k) (idle : k.cpu c = none) :
    TableInv (k.scheduler c) := by
  unfold Kernel.scheduler
  cases searched : schedulerSearch k.proc k.rrNext with
  | none => exact inv
  | some p =>
    have ready : (k.proc p).state = .runnable := by
      simpa using CircularScan.scan_accepts searched
    apply (inv.dispatch idle ready).resume
    show update k.cpu c (some p) c = some p
    rw [update_self]

theorem TableInv.tick (inv : TableInv k) (on : k.cpu c = some p) {user : Bool}
    (inUser : user = true → k.pc p = .normal) (ticked : k.tick c p user = some k') :
    TableInv k' := by
  cases Kernel.Ticked.of_tick ticked with
  | leave isUser killed notInit =>
    refine inv.setPoint on ?_ (by simp) ⟨notInit, Nat.zero_le _, fun _ below => absurd below (by simp)⟩
    intro np stage forking
    rw [inUser isUser] at forking
    simp at forking
  | expire stays usedUp =>
    unfold Kernel.yield
    have kept := inv.yield on (q := { preempted (charged (k.proc p)) with
      state := .runnable
      context := .yield }) rfl (Or.inl rfl) rfl
    simpa [Kernel.setProc] using kept
  | charge stays left => exact inv.ownRunning_same on rfl rfl (inv.exitDone p)

variable {action : Action ncpu}

/-! ## `exit`, and every step -/

/-- A child of a process that is not in `fork` has started. -/
theorem TableInv.child_started (inv : TableInv k)
    (notForking : ∀ np stage, k.pc p ≠ .forking np stage) {slot : Slot}
    (isChild : (k.proc slot).parent = some p) :
    (k.proc slot).state ≠ .unused ∧ (k.proc slot).state ≠ .embryo := by
  refine ⟨fun free => ?_, fun embryo => ?_⟩
  · rw [(inv.clean slot free).parent] at isChild
    simp at isChild
  · obtain ⟨forker, stage, at_⟩ := inv.owned slot embryo
    have parent := (inv.forking forker slot stage at_).parent
    rw [isChild] at parent
    split at parent
    · rw [Option.some.inj parent] at notForking
      exact notForking slot stage at_
    · simp at parent

theorem TableInv.exitFinish (inv : TableInv k) (on : k.cpu c = some p) {trap : Bool}
    (at_ : k.pc p = .leaving trap) : TableInv (k.exitFinish c p) := by
  have notForking : ∀ np stage, k.pc p ≠ .forking np stage := by
    intro np stage
    rw [at_]
    simp
  have done := inv.exitDone p
  rw [at_] at done
  have runs := inv.state_of_cpu on
  -- First the process becomes a zombie, then its children change parents.
  have dead : TableInv (((k.setProc p { k.proc p with state := .zombie }).setPc p
      .normal).setCpu c none) := by
    refine inv.release on rfl (by simp) (by simp) (by simp) ?_ (fun _ => rfl) trivial
      (fun _ => done.2) (fun isInit => absurd isInit done.1)
    intro np stage
    rw [at_]
    simp
  refine dead.of_similar ?_ (by simp [Kernel.exitFinish]) (by simp [Kernel.exitFinish])
    (by simp [Kernel.exitFinish]) (by simp [Kernel.exitFinish]) (by simp [Kernel.exitFinish])
  intro slot
  show Similar (update k.proc p { k.proc p with state := .zombie } slot)
    (exitTable k.proc p k.initproc slot)
  by_cases same : slot = p
  · rw [same, update_self, exitTable_self (by rw [runs]; simp)]
    exact ⟨rfl, fun notStarted => by simp at notStarted, rfl, rfl, Or.inl rfl⟩
  · rw [update_of_ne same]
    have changed : Similar _ (exitTable k.proc p k.initproc slot) :=
      (exitTable_other same).similar
    refine ⟨changed.pid, fun notStarted => ?_, changed.kstack, changed.ofile, changed.state⟩
    have kept := changed.parent notStarted
    rw [kept]
    unfold passTo
    rw [if_neg]
    intro isChild
    have started := inv.child_started notForking isChild
    exact notStarted.elim started.1 started.2

theorem killHit_similar (p : Proc) : Similar p (killHit p) := by
  unfold killHit
  split
  · rename_i asleep
    exact ⟨rfl, fun _ => rfl, rfl, rfl, Or.inr ⟨asleep, rfl⟩⟩
  · exact ⟨rfl, fun _ => rfl, rfl, rfl, Or.inl rfl⟩

theorem kill_similar (table : Table) (pid : Int) (slot : Slot) :
    Similar (table slot) ((kill table pid).1 slot) := by
  rcases kill_cases table pid with ⟨_, missed⟩ | ⟨found, _, hit⟩
  · rw [missed]
    exact Similar.refl _
  · rw [hit]
    exact update_related Similar.refl (killHit_similar _) slot

theorem setquantumPid_similar (table : Table) (pid quantum : Int) (slot : Slot) :
    Similar (table slot) ((setquantumPid table pid quantum).1 slot) := by
  rcases setquantumPid_cases table pid quantum with refused | ⟨found, _, _, _, changed⟩
  · rw [refused]
    exact Similar.refl _
  · rw [changed]
    refine update_related Similar.refl ?_ slot
    exact ⟨rfl, fun _ => rfl, rfl, rfl, Or.inl rfl⟩

theorem updateSleepStats_similar (table : Table) (slot : Slot) :
    Similar (table slot) (updateSleepStats table slot) := by
  unfold updateSleepStats
  simp only
  split
  · exact ⟨rfl, fun _ => rfl, rfl, rfl, Or.inl rfl⟩
  · split
    · exact ⟨rfl, fun _ => rfl, rfl, rfl, Or.inl rfl⟩
    · exact Similar.refl _

theorem TableInv.wakeup (inv : TableInv k) (chan : Option Chan) :
    TableInv { k with proc := wakeup1 k.proc chan } :=
  inv.of_similar (fun slot => (wakeup1_woken k.proc chan slot).similar) rfl rfl rfl rfl rfl

theorem TableInv.fdclose (inv : TableInv k) (on : k.cpu c = some p) (fd : Fin nofile)
    (forks : ∀ np stage, pc' = .forking np stage ↔ k.pc p = .forking np stage)
    (done : ExitDone k.initproc p
      { k.proc p with ofile := update (k.proc p).ofile fd none } pc') :
    TableInv ((k.fdclose p fd).setPc p pc') :=
  inv.ownRunning on rfl rfl forks done

/-- Every step of the kernel keeps the table invariant. -/
theorem TableInv.step (inv : TableInv k) (step : Step k action k') : TableInv k' := by
  cases step with
  | scheduler idle => exact inv.scheduler idle
  | tick on _ inUser ticked => exact inv.tick on inUser ticked
  | sleep on _ _ => exact inv.sleep on _
  | wakeup => exact inv.wakeup _
  | clock =>
    refine (inv.wakeup (some .ticks)).of_similar ?_ rfl rfl rfl rfl rfl
    exact fun slot => updateSleepStats_similar _ slot
  | kill on at_ => exact inv.of_similar (kill_similar k.proc _) rfl rfl rfl rfl rfl
  | fault on | chdir on => exact inv.ownRunning_same on rfl rfl (inv.exitDone _)
  | setquantumPid on at_ =>
    exact inv.of_similar (setquantumPid_similar k.proc _ _) rfl rfl rfl rfl rfl
  | fdalloc on at_ =>
    unfold Kernel.fdalloc
    split
    · exact inv
    · exact inv.ownRunning_same on rfl rfl (by rw [at_]; trivial)
  | fdclose on at_ => exact inv.ownRunning_same on rfl rfl (by rw [at_]; trivial)
  | forkAlloc on at_ => exact inv.forkAlloc on at_
  | forkKalloc on at_ => exact inv.forkKalloc at_ _
  | forkCopyuvm on at_ => exact inv.forkCopyuvm at_ _
  | forkUndo on at_ failed => exact inv.forkUndo at_ failed
  | forkParent on at_ => exact inv.forkParent at_
  | forkFiles on at_ => exact inv.forkFiles at_
  | forkFinish on at_ => exact inv.forkFinish at_
  | exitCall on at_ notInit =>
    refine inv.setPoint on ?_ (by simp) ⟨notInit, Nat.zero_le _, fun _ below => absurd below (by simp)⟩
    intro np stage
    rw [at_]
    simp
  | @exitClose c p fd trap on at_ isOpen =>
    have done := inv.exitDone p
    rw [at_] at done
    refine inv.fdclose on ⟨fd, isOpen⟩ ?_ ⟨done.1, isOpen, fun index below => ?_⟩
    · intro np stage
      rw [at_]
      simp
    · change update (k.proc p).ofile ⟨fd, isOpen⟩ none index = none
      refine Update.cases index rfl fun isOther => done.2.2 index ?_
      exact Nat.lt_of_le_of_ne (Nat.lt_succ_iff.mp below) fun equal => isOther (Fin.ext equal)
  | @exitCwd c p trap on at_ =>
    have done := inv.exitDone p
    rw [at_] at done
    refine inv.ownRunning on rfl rfl ?_ ⟨done.1, fun fd => done.2.2 fd fd.isLt⟩
    intro np stage
    rw [at_]
    simp
  | exitFinish on at_ => exact inv.exitFinish on at_
  | wait on at_ =>
    refine inv.waitLoop on ?_
    intro np stage
    rw [at_]
    simp

theorem TableInv.run (inv : TableInv k) {actions : List (Action ncpu)}
    (reaches : TransitionSystem.run Kernel.step k actions = some k') : TableInv k' := by
  refine TransitionSystem.run_invariant TableInv ?_ inv reaches
  intro before action after held taken
  exact held.step (Step.of_step taken)

theorem TableInv.boot (ncpu stack root : Nat) : TableInv (Kernel.boot ncpu stack root) where
  running := by
    intro slot
    rw [Kernel.boot_proc]
    by_cases first : slot = 0 <;> simp [first, initcode, Proc.zero, Kernel.boot]
  oneCpu := by
    intro c c' slot on
    simp [Kernel.boot] at on
  pidRange := by
    intro slot used
    rw [Kernel.boot_proc] at used ⊢
    by_cases first : slot = 0
    · simp [first, initcode, embryoOf, Kernel.boot]
    · simp [first, Proc.zero] at used
  pidDistinct := by
    intro left right leftUsed rightUsed _
    have atZero : ∀ slot, ((Kernel.boot ncpu stack root).proc slot).state ≠ .unused → slot = 0 := by
      intro slot used
      by_contra other
      rw [Kernel.boot_proc, if_neg other] at used
      exact used rfl
    rw [atZero left leftUsed, atZero right rightUsed]
  nextpidPos := by simp [Kernel.boot]
  clean := by
    intro slot free
    rw [Kernel.boot_proc] at free ⊢
    by_cases first : slot = 0
    · simp [first, initcode] at free
    · rw [if_neg first]
      exact ⟨rfl, rfl, rfl, fun _ => rfl⟩
  owned := by
    intro slot embryo
    rw [Kernel.boot_proc] at embryo
    by_cases first : slot = 0 <;> simp [first, initcode, Proc.zero] at embryo
  forking := by
    intro p np stage at_
    simp [Kernel.boot] at at_
  oneForker := by
    intro p q np stage stage' at_
    simp [Kernel.boot] at at_
  outside := fun _ _ => rfl
  exitDone := fun _ => trivial
  zombieFiles := by
    intro slot dead
    rw [Kernel.boot_proc] at dead
    by_cases first : slot = 0 <;> simp [first, initcode, Proc.zero] at dead
  initLive := by
    rw [Kernel.boot_proc]
    rfl
  pointer := by simp [Kernel.boot, nproc]

/-- The states reached from boot. -/
def KernelReachable (k : Kernel ncpu) : Prop :=
  ∃ stack root, TransitionSystem.Reachable Kernel.step (Kernel.boot ncpu stack root) k

theorem KernelReachable.step (reached : KernelReachable k) (taken : k.step action = some k') :
    KernelReachable k' := by
  obtain ⟨stack, root, reaches⟩ := reached
  exact ⟨stack, root, reaches.of_step taken⟩

theorem KernelReachable.tableInv (reached : KernelReachable k) : TableInv k := by
  obtain ⟨stack, root, actions, reaches⟩ := reached
  exact (TableInv.boot ncpu stack root).run reaches

/-- Between critical sections a slot is `RUNNING` exactly when one CPU points to
it, the pids in use are distinct and were handed out before, and a free slot holds
nothing. `nextpid` is not bounded here, so the statement covers every state before
the counter wraps. -/
theorem process_table_invariant {k : Kernel ncpu} (reached : KernelReachable k) :
    (∀ slot, (k.proc slot).state = .running ↔ ∃! c, k.cpu c = some slot) ∧
      (∀ c c' p p', c ≠ c' → k.cpu c = some p → k.cpu c' = some p' → p ≠ p') ∧
      (∀ c p, k.cpu c = some p → (k.proc p).state = .running) ∧
      (∀ slot, (k.proc slot).state ≠ .unused →
        1 ≤ (k.proc slot).pid ∧ (k.proc slot).pid < k.nextpid) ∧
      (∀ slot slot', slot ≠ slot' → (k.proc slot).state ≠ .unused →
        (k.proc slot').state ≠ .unused → (k.proc slot).pid ≠ (k.proc slot').pid) ∧
      ∀ slot, (k.proc slot).state = .unused →
        (k.proc slot).pid = 0 ∧ (k.proc slot).parent = none ∧ (k.proc slot).kstack = none ∧
          ∀ fd, (k.proc slot).ofile fd = none := by
  have inv := reached.tableInv
  refine ⟨?_, ?_, fun c p on => inv.state_of_cpu on, inv.pidRange, ?_, ?_⟩
  · intro slot
    rw [inv.running slot]
    constructor
    · intro ⟨c, on⟩
      exact ⟨c, on, fun c' on' => inv.oneCpu c' c slot on' on⟩
    · intro ⟨c, on, _⟩
      exact ⟨c, on⟩
  · intro c c' p p' different on on' same
    apply different
    exact inv.oneCpu c c' p on (same ▸ on')
  · intro slot slot' different used used' same
    exact different (inv.pidDistinct slot slot' used used' same)
  · intro slot free
    have clean := inv.clean slot free
    exact ⟨clean.pid, clean.parent, clean.kstack, clean.ofile⟩

theorem process_table_invariant_firstDispatch :
    ∃ k : Kernel 2, KernelReachable k ∧ (k.proc 0).state = .running ∧
      ∃! c, k.cpu c = some 0 := by
  have taken : (Kernel.boot 2 0 0).step (.scheduler 1) =
      some ((Kernel.boot 2 0 0).scheduler 1) := rfl
  have reached : KernelReachable ((Kernel.boot 2 0 0).scheduler 1) :=
    KernelReachable.step ⟨0, 0, TransitionSystem.Reachable.refl _⟩ taken
  have runs : (((Kernel.boot 2 0 0).scheduler 1).proc 0).state = .running := by
    decide
  exact ⟨_, reached, runs, ((process_table_invariant reached).1 0).mp runs⟩

end Xv6.Process
