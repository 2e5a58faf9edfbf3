import Xv6.Process.ExitWait

/-!
`kill` and who it hits.

Owns: the exact condition under which `kill(pid)` hits only a process with that pid;
the mark `killed` on slots whose process has not started; and the theorem that no
process is born killed in a run that never marks a free slot.

Does not own: what a killed process does next.

The loop of `kill` compares pids without looking at the state, a free slot has pid
0, and neither `allocproc` nor the failure paths of `fork` clear `killed`. A mark on
a free slot therefore passes to the slot's next occupant.
-/

namespace Xv6.Process

open TransitionSystem

variable {ncpu : Nat}

/-! ## One call -/

/-- `kill(pid)` succeeds exactly for the pid of a process, and changes nothing else. -/
def KillHitsTarget (table : Table) (pid : Int) : Prop :=
  ((kill table pid).2 = 0 ↔ ∃ slot, (table slot).state ≠ .unused ∧ (table slot).pid = pid) ∧
    ∀ slot, (kill table pid).1 slot ≠ table slot →
      (table slot).state ≠ .unused ∧ (table slot).pid = pid

theorem KillHitsTarget.of_found {table : Table} {pid : Int}
    (found : ∀ slot, (table slot).pid = pid → (table slot).state ≠ .unused) :
    KillHitsTarget table pid := by
  rcases kill_cases table pid with ⟨absent, missed⟩ | ⟨slot, holds, hit⟩
  · rw [KillHitsTarget, missed]
    refine ⟨⟨fun succeeded => absurd succeeded (by simp), ?_⟩, fun slot changed => ?_⟩
    · intro ⟨slot, _, holds⟩
      exact absurd holds (absent slot)
    · exact absurd rfl changed
  · rw [KillHitsTarget, hit]
    refine ⟨⟨fun _ => ⟨slot, found slot holds, holds⟩, fun _ => rfl⟩, ?_⟩
    intro other changed
    have same : other = slot := by
      by_contra different
      exact changed (Function.update_of_ne different _ _)
    rw [same]
    exact ⟨found slot holds, holds⟩

theorem TableInv.killHitsTarget_iff {k : Kernel ncpu} (inv : TableInv k) (pid : Int) :
    KillHitsTarget k.proc pid ↔ pid ≠ 0 ∨ ∀ slot, (k.proc slot).state ≠ .unused := by
  constructor
  · intro hits
    by_contra neither
    simp only [ne_eq, not_or, not_not, not_forall] at neither
    obtain ⟨zero, slot, free⟩ := neither
    have holds : (k.proc slot).pid = pid := (inv.clean slot free).pid.trans zero.symm
    have succeeded : (kill k.proc pid).2 = 0 := by
      rcases kill_cases k.proc pid with ⟨absent, _⟩ | ⟨_, _, hit⟩
      · exact absurd holds (absent slot)
      · rw [hit]
    obtain ⟨target, used, same⟩ := hits.1.mp succeeded
    have positive := (inv.pidRange target used).1
    omega
  · intro condition
    apply KillHitsTarget.of_found
    intro slot holds free
    rcases condition with nonzero | noneFree
    · exact nonzero (holds.symm.trans (inv.clean slot free).pid)
    · exact noneFree slot free

/-! ## Marks on slots that have not started -/

/-- The pids that a `kill` has named since `allocproc` gave them out. -/
def observeKills (before : Kernel ncpu) (action : Action ncpu) (_after : Kernel ncpu)
    (named : List Int) : List Int :=
  match action with
  | .kill _ pid => pid :: named
  | .forkAlloc _ => named.filter fun pid => decide (pid ≠ before.nextpid)
  | _ => named

/-- The step marks no free slot: a `kill(0)` finds no free slot, and a `fork` that fails
does not free a slot that was killed meanwhile. -/
def MarksNoFreeSlot (k : Kernel ncpu) : Action ncpu → Prop
  | .kill _ pid => pid ≠ 0 ∨ ∀ slot, (k.proc slot).state ≠ .unused
  | .forkUndo c =>
    ∀ p np stage, k.cpu c = some p → k.pc p = .forking np stage → (k.proc np).killed = false
  | _ => True

/-- A slot without a started process is marked only if its pid was named. -/
def MarkedByName (named : List Int) (p : Proc) : Prop :=
  (p.state = .unused → p.killed = false) ∧
    (p.state = .embryo → p.killed = true → p.pid ∈ named)

variable {named named' : List Int} {before after : Proc}

theorem MarkedByName.of_started (used : after.state ≠ .unused) (started : after.state ≠ .embryo) :
    MarkedByName named after :=
  ⟨fun free => absurd free used, fun embryo => absurd embryo started⟩

theorem MarkedByName.of_notKilled (unmarked : after.killed = false) : MarkedByName named after :=
  ⟨fun _ => unmarked, fun _ marked => by simp [unmarked] at marked⟩

theorem MarkedByName.of_same (marked : MarkedByName named before) (state : after.state = before.state)
    (killed : after.killed = before.killed) (pid : after.pid = before.pid) :
    MarkedByName named after := by
  unfold MarkedByName
  rw [state, killed, pid]
  exact marked

theorem ProcState.eq_of_phase {before after : ProcState} (same : after.phase = before.phase)
    (notLive : before.live = false) : after = before := by
  cases before <;> cases after <;> simp_all [ProcState.phase, ProcState.live]

theorem MarkedByName.of_kin (marked : MarkedByName named before) (kin : KinSlot before after) :
    MarkedByName named after := by
  by_cases alive : before.state.live = true
  · have liveAfter := (ProcState.live_of_phase kin.phase).trans alive
    exact .of_started (ProcState.live_ne_unused liveAfter) (ProcState.live_ne_embryo liveAfter)
  · have notLive : before.state.live = false := by simpa using alive
    exact marked.of_same (ProcState.eq_of_phase kin.phase notLive)
      (kin.killed.resolve_left alive) kin.pid

variable {k k' : Kernel ncpu} {c : Fin ncpu} {p : Slot}

/-- Only the pid about to be given out is forgotten, and no slot holds it yet. -/
theorem markedByName_observe (inv : TableInv k) (action : Action ncpu) (k' : Kernel ncpu)
    (marked : ∀ slot, MarkedByName named (k.proc slot)) (slot : Slot) :
    MarkedByName (observeKills k action k' named) (k.proc slot) := by
  refine ⟨(marked slot).1, ?_⟩
  intro embryo killed
  have member := (marked slot).2 embryo killed
  have below := (inv.pidRange slot (by rw [embryo]; simp)).2
  cases action with
  | kill c pid => exact List.mem_cons_of_mem _ member
  | forkAlloc c =>
    apply List.mem_filter.mpr
    exact ⟨member, by simpa using below.ne⟩
  | _ => exact member

theorem markedByName_update (marked : ∀ slot, MarkedByName named (k.proc slot)) {found : Slot}
    {q : Proc} (stored : MarkedByName named q) (slot : Slot) :
    MarkedByName named (Function.update k.proc found q slot) := by
  exact Update.cases slot stored fun _ => marked slot

theorem markedByName_kill (inv : TableInv k) (marked : ∀ slot, MarkedByName named (k.proc slot))
    {pid : Int} (allowed : pid ≠ 0 ∨ ∀ slot, (k.proc slot).state ≠ .unused)
    (member : pid ∈ named) (slot : Slot) : MarkedByName named ((kill k.proc pid).1 slot) := by
  rcases kill_cases k.proc pid with ⟨_, missed⟩ | ⟨found, holds, hit⟩
  · rw [missed]
    exact marked slot
  · rw [hit]
    apply markedByName_update marked
    have used : (k.proc found).state ≠ .unused := by
      intro free
      rcases allowed with nonzero | noneFree
      · exact nonzero (holds.symm.trans (inv.clean found free).pid)
      · exact noneFree found free
    unfold killHit
    split
    · exact .of_started (by simp) (by simp)
    · exact ⟨fun free => absurd free used, fun _ _ => holds ▸ member⟩

theorem markedByName_alloc (marked : ∀ slot, MarkedByName named (k.proc slot)) (slot : Slot) :
    MarkedByName named ((k.forkAlloc p).proc slot) := by
  rcases k.forkAlloc_cases p with unchanged | ⟨np, free, changed⟩
  · rw [unchanged]
    exact marked slot
  · rw [changed]
    apply markedByName_update marked
    exact .of_notKilled ((marked np).1 free)

theorem markedByName_exit (inv : TableInv k) (marked : ∀ slot, MarkedByName named (k.proc slot))
    (on : k.cpu c = some p) (slot : Slot) :
    MarkedByName named ((k.exitFinish c p).proc slot) := by
  have awake : (k.proc p).state ≠ .sleeping := by
    rw [inv.state_of_cpu on]
    simp
  show MarkedByName named (exitTable k.proc p k.initproc slot)
  by_cases same : slot = p
  · rw [same, exitTable_self awake]
    exact .of_started (by simp) (by simp)
  · have passed : MarkedByName named
        { k.proc slot with parent := passTo p k.initproc (k.proc slot).parent } :=
      (marked slot).of_same rfl rfl rfl
    exact passed.of_kin (exitTable_other same).kinSlot

theorem markedByName_waitLoop (marked : ∀ slot, MarkedByName named (k.proc slot)) (slot : Slot) :
    MarkedByName named ((k.waitLoop c p).proc slot) := by
  unfold Kernel.waitLoop
  cases waitScan k.proc p with
  | reap child => exact markedByName_update marked (.of_notKilled rfl) slot
  | fail => exact marked slot
  | sleep => exact markedByName_update marked (.of_started (by simp) (by simp)) slot

theorem markedByName_step {action : Action ncpu} (inv : TableInv k)
    (marked : ∀ slot, MarkedByName named (k.proc slot)) (allowed : MarksNoFreeSlot k action)
    (taken : k.step action = some k') (slot : Slot) :
    MarkedByName (observeKills k action k' named) (k'.proc slot) := by
  have kept := markedByName_observe inv action k' marked
  have family := (Step.of_step taken).family inv
  generalize k.events action = events at family
  cases family with
  | plain kin => exact (kept slot).of_kin (kin.slot slot)
  | kill => exact markedByName_kill inv kept allowed List.mem_cons_self slot
  | alloc on => exact markedByName_alloc kept slot
  | undo on at_ failed =>
    apply markedByName_update kept
    exact .of_notKilled (allowed _ _ _ on at_)
  | parent at_ =>
    apply markedByName_update kept
    exact (kept _).of_same rfl rfl rfl
  | finish at_ =>
    apply markedByName_update kept
    exact .of_started (by simp [madeRunnable]) (by simp [madeRunnable])
  | exit on at_ => exact markedByName_exit inv kept on slot
  | wait kin table on =>
    exact markedByName_waitLoop (fun other => (kept other).of_kin (kin.slot other)) slot

/-! ## The two parts together -/

/-- The kernel with the pids named by `kill`. -/
def Kernel.watchKills : Kernel ncpu × List Int → Action ncpu → Option (Kernel ncpu × List Int) :=
  watch Kernel.step observeKills

theorem markedByName_of_run {stack root : Nat} {actions : List (Action ncpu)} {k : Kernel ncpu}
    {named : List Int}
    (meets : AllSteps Kernel.watchKills
      (fun watched action => MarksNoFreeSlot watched.1 action)
      (Kernel.boot ncpu stack root, []) actions)
    (reaches : run Kernel.watchKills (Kernel.boot ncpu stack root, []) actions =
      some (k, named)) :
    ∀ slot, MarkedByName named (k.proc slot) := by
  refine (run_invariant_of_allSteps
    (fun watched => TableInv watched.1 ∧ ∀ slot, MarkedByName watched.2 (watched.1.proc slot))
    ?_ ⟨TableInv.boot ncpu stack root, ?_⟩ meets reaches).2
  · intro before action after inv allowed taken
    obtain ⟨stepped, observed⟩ := watch_eq_some.mp taken
    rw [observed]
    exact ⟨inv.1.step (Step.of_step stepped), markedByName_step inv.1 inv.2 allowed stepped⟩
  · intro slot
    apply MarkedByName.of_notKilled
    rw [Kernel.boot_proc]
    by_cases first : slot = 0 <;> simp [first, initcode, embryoOf, Proc.zero]

/-- In every reachable table `kill(pid)` hits only its target exactly when `pid` is not
0 or no slot is free; and in a run that marks no free slot, the process that `fork` makes
`RUNNABLE` next is marked only if its pid was named since `allocproc`. -/
theorem kill_hits_target_and_birth (ncpu : Nat) :
    (∀ k : Kernel ncpu, KernelReachable k → ∀ pid,
      (KillHitsTarget k.proc pid ↔ pid ≠ 0 ∨ ∀ slot, (k.proc slot).state ≠ .unused)) ∧
    ∀ stack root actions (k : Kernel ncpu) named,
      AllSteps Kernel.watchKills
        (fun watched action => MarksNoFreeSlot watched.1 action)
        (Kernel.boot ncpu stack root, []) actions →
      run Kernel.watchKills (Kernel.boot ncpu stack root, []) actions =
        some (k, named) →
      ∀ c p np, k.cpu c = some p → k.pc p = .forking np .filed →
        k.step (.forkFinish c) = some (k.forkFinish p np) ∧
          ((k.forkFinish p np).proc np).state = .runnable ∧
          (((k.forkFinish p np).proc np).killed = true →
            ((k.forkFinish p np).proc np).pid ∈ named) := by
  refine ⟨fun k reached pid => reached.tableInv.killHitsTarget_iff pid, ?_⟩
  intro stack root actions k named meets reaches c p np on at_
  have child : (k.forkFinish p np).proc np = madeRunnable (k.proc np) := Function.update_self _ _ _
  rw [child]
  refine ⟨by simp [Kernel.step, on, at_], rfl, ?_⟩
  intro killed
  have inv : TableInv k := by
    have reached : KernelReachable k := ⟨stack, root, actions, run_of_watch reaches⟩
    exact reached.tableInv
  exact (markedByName_of_run meets reaches np).2 (inv.forking p np _ at_).state killed

/-- `init` calls `kill(0)` and then `fork`. -/
def killZeroThenFork : List (Action 1) :=
  [.scheduler 0, .kill 0 0, .forkAlloc 0, .forkKalloc 0 (some 1), .forkCopyuvm 0 true,
    .forkParent 0, .forkFiles 0, .forkFinish 0]

/-- `kill(0)` returns 0 although no process has pid 0, and the child forked next, pid 2,
is `RUNNABLE` and killed although no `kill` named it. -/
theorem kill_zero_marks_free_slot :
    ((kill ((Kernel.boot 1 0 0).scheduler 0).proc 0).2 = 0 ∧
      ¬∃ slot, (((Kernel.boot 1 0 0).scheduler 0).proc slot).state ≠ .unused ∧
        (((Kernel.boot 1 0 0).scheduler 0).proc slot).pid = 0) ∧
    ∃ k named, run Kernel.watchKills (Kernel.boot 1 0 0, []) killZeroThenFork =
        some (k, named) ∧
      (k.proc 1).state = .runnable ∧ (k.proc 1).killed = true ∧ (k.proc 1).pid ∉ named := by
  refine ⟨by decide +kernel, ?_⟩
  refine exists_of_view (fun watched => ((watched.1.proc 1).state, (watched.1.proc 1).killed,
    (watched.1.proc 1).pid, watched.2)) (.runnable, true, 2, [0]) (by decide +kernel)
    fun k named _ same => ?_
  simp only [Prod.mk.injEq] at same
  obtain ⟨state, killed, pid, names⟩ := same
  exact ⟨state, killed, by rw [pid, names]; simp⟩

/-- The second way to mark a free slot: on two CPUs, a child of `init` kills the embryo
with pid 3 while the `fork` that made it fails, and the next child, pid 4, is born
killed in the same slot. -/
example :
    (run Kernel.watchKills (Kernel.boot 2 0 0, [])
      [.scheduler 0, .forkAlloc 0, .forkKalloc 0 (some 1), .forkCopyuvm 0 true, .forkParent 0,
        .forkFiles 0, .forkFinish 0, .scheduler 1, .forkAlloc 0, .kill 1 3, .forkKalloc 0 none,
        .forkUndo 0, .forkAlloc 0, .forkKalloc 0 (some 2), .forkCopyuvm 0 true, .forkParent 0,
        .forkFiles 0, .forkFinish 0]).map
      (fun watched => ((watched.1.proc 2).state, (watched.1.proc 2).killed,
        (watched.1.proc 2).pid, watched.2)) = some (.runnable, true, 4, [3]) := by
  decide +kernel

/-- `init` forks without any `kill`. -/
theorem kill_hits_target_and_birth_fork :
    ∃ k : Kernel 1, KillHitsTarget k.proc 1 ∧ ((k.forkFinish 0 1).proc 1).state = .runnable ∧
      ((k.forkFinish 0 1).proc 1).killed = false := by
  have ran : (run Kernel.watchKills (Kernel.boot 1 0 0, [])
      [.scheduler 0, .forkAlloc 0, .forkKalloc 0 (some 1), .forkCopyuvm 0 true, .forkParent 0,
        .forkFiles 0]).map
      (fun watched => (watched.1.cpu 0, watched.1.pc 0, watched.2)) =
        some (some 0, .forking 1 .filed, []) := by
    decide +kernel
  obtain ⟨⟨k, named⟩, reaches, same⟩ := Option.map_eq_some_iff.mp ran
  simp only [Prod.mk.injEq] at same
  obtain ⟨on, at_, names⟩ := same
  have reached : KernelReachable k := ⟨0, 0, _, run_of_watch reaches⟩
  have both := kill_hits_target_and_birth 1
  have birth := both.2 0 0 _ k named (by simp [AllSteps, MarksNoFreeSlot]) reaches
    0 0 1 on at_
  refine ⟨k, (both.1 k reached 1).mpr (Or.inl (by simp)), birth.2.1, ?_⟩
  by_contra killed
  have member := birth.2.2 (by simpa using killed)
  rw [names] at member
  simp at member

end Xv6.Process
