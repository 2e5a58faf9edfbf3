import Xv6.Process.Invariant

/-!
The parent relation.

Owns: who is whose parent, what a process asleep in `wait` may rely on, and the
preservation lemmas for changes of one child's slot, for `exit` and for the many
steps that parents, children and waiters cannot see (`Kin`).

Does not own: the shape of the table (`Xv6.Process.Invariant`), on which every
proof here rests, or the history of a run (`Xv6.Process.ExitWait`).
-/

namespace Xv6.Process

open Function (update update_self update_of_ne)

variable {ncpu : Nat} {before after : ProcState} {q : Proc} {pc' : Pc}
  {np slot curproc initproc r : Slot} {stage stage' : ForkStage} {table : Table}

/-- What a process asleep in `wait` relies on. -/
structure AwaitsChild (k : Kernel ncpu) (slot : Slot) : Prop where
  child : ∃ other, (k.proc other).parent = some slot
  noZombie : ∀ other, (k.proc other).parent = some slot → (k.proc other).state ≠ .zombie
  notKilled : (k.proc slot).killed = false

structure FamilyInv (k : Kernel ncpu) : Prop where
  initPid : (k.proc k.initproc).pid = 1
  initParent : (k.proc k.initproc).parent = none
  parentLive : ∀ slot r, (k.proc slot).parent = some r → (k.proc r).state.live = true
  older : ∀ slot r, (k.proc slot).parent = some r → (k.proc r).pid < (k.proc slot).pid
  forkOlder : ∀ p np stage, k.pc p = .forking np stage → (k.proc p).pid < (k.proc np).pid
  hasParent : ∀ slot, slot ≠ k.initproc → (k.proc slot).state.live = true ∨
    (k.proc slot).state = .zombie → ∃ r, (k.proc slot).parent = some r
  asleep : ∀ slot r, (k.proc slot).state = .sleeping → (k.proc slot).chan = some (.proc r) →
    r = slot ∧ AwaitsChild k slot

/-! ## Steps that the family does not see -/

/-- A state with the scheduling forgotten. -/
def ProcState.phase : ProcState → ProcState
  | .sleeping => .runnable
  | .running => .runnable
  | state => state

theorem ProcState.live_of_phase (same : after.phase = before.phase) : after.live = before.live := by
  cases before <;> cases after <;> simp_all [ProcState.phase, ProcState.live]

theorem ProcState.zombie_of_phase (same : after.phase = before.phase) :
    after = .zombie ↔ before = .zombie := by
  cases before <;> cases after <;> simp_all [ProcState.phase]

theorem ProcState.embryo_of_phase (same : after.phase = before.phase) :
    after = .embryo ↔ before = .embryo := by
  cases before <;> cases after <;> simp_all [ProcState.phase]

structure KinSlot (before after : Proc) : Prop where
  pid : after.pid = before.pid
  parent : after.parent = before.parent
  phase : after.state.phase = before.state.phase
  killed : before.state.live = true ∨ after.killed = before.killed
  asleep : ∀ r, after.state = .sleeping → after.chan = some (.proc r) →
    before.state = .sleeping ∧ before.chan = some (.proc r) ∧ after.killed = before.killed

structure Kin (k k' : Kernel ncpu) : Prop where
  slot : ∀ slot, KinSlot (k.proc slot) (k'.proc slot)
  nextpid : k'.nextpid = k.nextpid
  initproc : k'.initproc = k.initproc
  forking : ∀ p np stage, k'.pc p = .forking np stage → ∃ stage', k.pc p = .forking np stage'

/-- `Kin` without its clause on processes asleep in `wait`. -/
structure SameFamily (k k' : Kernel ncpu) : Prop where
  pid : ∀ slot, (k'.proc slot).pid = (k.proc slot).pid
  parent : ∀ slot, (k'.proc slot).parent = (k.proc slot).parent
  phase : ∀ slot, (k'.proc slot).state.phase = (k.proc slot).state.phase
  nextpid : k'.nextpid = k.nextpid
  initproc : k'.initproc = k.initproc
  forking : ∀ p np stage, k'.pc p = .forking np stage → ∃ stage', k.pc p = .forking np stage'

theorem KinSlot.refl (p : Proc) : KinSlot p p :=
  ⟨rfl, rfl, rfl, Or.inr rfl, fun _ asleep chan => ⟨asleep, chan, rfl⟩⟩

theorem KinSlot.awake {before after : Proc} (pid : after.pid = before.pid)
    (parent : after.parent = before.parent) (phase : after.state.phase = before.state.phase)
    (killed : before.state.live = true ∨ after.killed = before.killed)
    (awake : after.state ≠ .sleeping) : KinSlot before after :=
  ⟨pid, parent, phase, killed, fun _ asleep => absurd asleep awake⟩

variable {k k' k'' : Kernel ncpu} {p : Slot}

theorem Kin.refl (k : Kernel ncpu) : Kin k k :=
  ⟨fun _ => KinSlot.refl _, rfl, rfl, fun _ _ stage at_ => ⟨stage, at_⟩⟩

theorem Kin.trans (first : Kin k k') (second : Kin k' k'') : Kin k k'' where
  slot := by
    intro slot
    have one := first.slot slot
    have two := second.slot slot
    refine ⟨two.pid.trans one.pid, two.parent.trans one.parent, two.phase.trans one.phase,
      ?_, ?_⟩
    · rcases one.killed with alive | same
      · exact Or.inl alive
      · rw [← same, ← ProcState.live_of_phase one.phase]
        exact two.killed
    intro r asleep chan
    have middle := two.asleep r asleep chan
    have start := one.asleep r middle.1 middle.2.1
    exact ⟨start.1, start.2.1, middle.2.2.trans start.2.2⟩
  nextpid := second.nextpid.trans first.nextpid
  initproc := second.initproc.trans first.initproc
  forking := by
    intro p np stage at_
    obtain ⟨stage', middle⟩ := second.forking p np stage at_
    exact first.forking p np stage' middle

theorem Kin.ofTable (slots : ∀ slot, KinSlot (k.proc slot) (k'.proc slot))
    (nextpid : k'.nextpid = k.nextpid) (initproc : k'.initproc = k.initproc)
    (pc : k'.pc = k.pc) : Kin k k' := by
  refine ⟨slots, nextpid, initproc, ?_⟩
  intro p np stage at_
  rw [pc] at at_
  exact ⟨stage, at_⟩

theorem Kin.setProc (kin : KinSlot (k.proc p) q) : Kin k (k.setProc p q) := by
  refine Kin.ofTable ?_ rfl rfl rfl
  rw [Kernel.setProc_proc]
  exact fun slot => Update.cases slot kin fun _ => KinSlot.refl (k.proc slot)

theorem Kin.setPc
    (from_ : ∀ np stage, pc' = .forking np stage → ∃ stage', k.pc p = .forking np stage') :
    Kin k (k.setPc p pc') := by
  refine ⟨fun _ => KinSlot.refl _, rfl, rfl, ?_⟩
  intro q np stage
  rw [Kernel.setPc_pc]
  exact Update.cases q (from_ np stage) fun _ at_ => ⟨stage, at_⟩

theorem Kin.setPoint (outside : ∀ np stage, pc' ≠ .forking np stage) : Kin k (k.setPc p pc') :=
  Kin.setPc fun np stage at_ => absurd at_ (outside np stage)

theorem Kin.setCpu (c : Fin ncpu) (slot : Option Slot) : Kin k (k.setCpu c slot) :=
  Kin.ofTable (fun _ => KinSlot.refl _) rfl rfl rfl

theorem Woken.kinSlot {before after : Proc} (woken : Woken before after) :
    KinSlot before after := by
  rcases woken with same | ⟨asleep, same⟩
  · rw [same]
    exact KinSlot.refl before
  · rw [same]
    exact KinSlot.awake rfl rfl (by rw [asleep]; rfl) (Or.inr rfl) (by simp)

theorem Kin.sameFamily (kin : Kin k k') : SameFamily k k' :=
  ⟨fun slot => (kin.slot slot).pid, fun slot => (kin.slot slot).parent,
    fun slot => (kin.slot slot).phase, kin.nextpid, kin.initproc, kin.forking⟩

theorem SameFamily.live (same : SameFamily k k') (slot : Slot) :
    (k'.proc slot).state.live = (k.proc slot).state.live :=
  ProcState.live_of_phase (same.phase slot)

theorem SameFamily.zombie (same : SameFamily k k') (slot : Slot) :
    (k'.proc slot).state = .zombie ↔ (k.proc slot).state = .zombie :=
  ProcState.zombie_of_phase (same.phase slot)

theorem SameFamily.embryo (same : SameFamily k k') (slot : Slot) :
    (k'.proc slot).state = .embryo ↔ (k.proc slot).state = .embryo :=
  ProcState.embryo_of_phase (same.phase slot)

theorem AwaitsChild.of_same (awaits : AwaitsChild k p) (same : SameFamily k k')
    (killed : (k'.proc p).killed = (k.proc p).killed) : AwaitsChild k' p := by
  obtain ⟨child, isChild⟩ := awaits.child
  refine ⟨⟨child, by rw [same.parent, isChild]⟩, ?_, ?_⟩
  · intro other parent
    rw [same.parent] at parent
    rw [Ne, same.zombie]
    exact awaits.noZombie other parent
  · rw [killed]
    exact awaits.notKilled

theorem FamilyInv.of_same (inv : FamilyInv k) (same : SameFamily k k')
    (asleep : ∀ slot r, (k'.proc slot).state = .sleeping →
      (k'.proc slot).chan = some (.proc r) → r = slot ∧ AwaitsChild k' slot) :
    FamilyInv k' where
  initPid := by
    rw [same.initproc, same.pid]
    exact inv.initPid
  initParent := by
    rw [same.initproc, same.parent]
    exact inv.initParent
  parentLive := by
    intro slot r parent
    rw [same.parent] at parent
    rw [same.live]
    exact inv.parentLive slot r parent
  older := by
    intro slot r parent
    rw [same.parent] at parent
    rw [same.pid, same.pid]
    exact inv.older slot r parent
  forkOlder := by
    intro p np stage at_
    obtain ⟨stage', before⟩ := same.forking p np stage at_
    rw [same.pid, same.pid]
    exact inv.forkOlder p np stage' before
  hasParent := by
    intro slot notInit started
    rw [same.initproc] at notInit
    rw [same.live, same.zombie] at started
    rw [same.parent]
    exact inv.hasParent slot notInit started
  asleep := asleep

theorem FamilyInv.of_kin (inv : FamilyInv k) (kin : Kin k k') : FamilyInv k' := by
  apply inv.of_same kin.sameFamily
  intro slot r asleep chan
  have before := (kin.slot slot).asleep r asleep chan
  obtain ⟨self, awaits⟩ := inv.asleep slot r before.1 before.2.1
  exact ⟨self, awaits.of_same kin.sameFamily before.2.2⟩

variable {c : Fin ncpu}

theorem Kin.yield (runs : (k.proc p).state = .running) : Kin k (k.yield c p) := by
  apply Kin.trans (Kin.setProc _) (Kin.setCpu c none)
  refine KinSlot.awake rfl rfl ?_ (Or.inr rfl) (by simp)
  rw [runs]
  rfl

theorem Kin.sleep (runs : (k.proc p).state = .running) {chan : Chan}
    (other : chan.isProc = false) : Kin k (k.sleep c p chan) := by
  apply Kin.trans (Kin.setProc _) (Kin.setCpu c none)
  refine ⟨rfl, rfl, ?_, Or.inr rfl, ?_⟩
  · rw [runs]
    rfl
  · intro r _ same
    rw [Option.some.inj same] at other
    simp [Chan.isProc] at other

theorem Kin.dispatch (ready : (k.proc p).state = .runnable) : Kin k (k.dispatch c p) := by
  refine Kin.ofTable ?_ rfl rfl rfl
  intro slot
  simp only [Kernel.dispatch, Kernel.setCpu_proc, Kernel.setProc_proc, Function.update_apply]
  by_cases same : slot = p
  · rw [if_pos same, same]
    exact KinSlot.awake rfl rfl (by rw [ready]; rfl) (Or.inr rfl) (by simp)
  · rw [if_neg same]
    exact KinSlot.refl _

/-- A running process stores to fields of its own slot. -/
theorem Kin.ownRunning (runs : (k.proc p).state = .running) (pid : q.pid = (k.proc p).pid)
    (parent : q.parent = (k.proc p).parent) (state : q.state = (k.proc p).state) :
    Kin k (k.setProc p q) := by
  apply Kin.setProc
  apply KinSlot.awake pid parent (by rw [state])
  · exact Or.inl (by rw [runs]; rfl)
  · rw [state, runs]
    simp

theorem Kin.clearChan (runs : (k.proc p).state = .running) : Kin k (k.clearChan p) :=
  Kin.ownRunning runs rfl rfl rfl

theorem Kin.ownPoint (runs : (k.proc p).state = .running) (pid : q.pid = (k.proc p).pid)
    (parent : q.parent = (k.proc p).parent) (state : q.state = (k.proc p).state)
    (outside : ∀ np stage, pc' ≠ .forking np stage) : Kin k ((k.setProc p q).setPc p pc') :=
  (Kin.ownRunning runs pid parent state).trans (Kin.setPoint outside)

theorem Kin.tick (runs : (k.proc p).state = .running) {user : Bool}
    (ticked : k.tick c p user = some k') : Kin k k' := by
  cases Kernel.Ticked.of_tick ticked with
  | leave _ _ _ => exact Kin.setPoint (by simp)
  | expire _ _ =>
    have counted : Kin k (k.setProc p (preempted (charged (k.proc p)))) :=
      Kin.ownRunning runs rfl rfl rfl
    apply counted.trans
    apply Kin.yield
    simpa [preempted, charged] using runs
  | charge _ _ => exact Kin.ownRunning runs rfl rfl rfl

theorem setquantumPid_kinSlot (table : Table) (pid quantum : Int) (slot : Slot) :
    KinSlot (table slot) ((setquantumPid table pid quantum).1 slot) := by
  rcases setquantumPid_cases table pid quantum with refused | ⟨found, _, _, _, changed⟩
  · rw [refused]
    exact KinSlot.refl _
  · rw [changed]
    refine update_related KinSlot.refl ?_ slot
    exact ⟨rfl, rfl, rfl, Or.inr rfl, fun _ asleep chan => ⟨asleep, chan, rfl⟩⟩

theorem updateSleepStats_kinSlot (table : Table) (slot : Slot) :
    KinSlot (table slot) (updateSleepStats table slot) := by
  unfold updateSleepStats
  simp only
  split
  · exact ⟨rfl, rfl, rfl, Or.inr rfl, fun _ asleep chan => ⟨asleep, chan, rfl⟩⟩
  · split
    · exact ⟨rfl, rfl, rfl, Or.inr rfl, fun _ asleep chan => ⟨asleep, chan, rfl⟩⟩
    · exact KinSlot.refl _

/-- A store to a child's slot in `fork`, with the next stage. -/
theorem Kin.forkStage (inv : TableInv k) (at_ : k.pc p = .forking np stage)
    (pid : q.pid = (k.proc np).pid) (parent : q.parent = (k.proc np).parent)
    (state : q.state = (k.proc np).state) (killed : q.killed = (k.proc np).killed) :
    Kin k ((k.setProc np q).setPc p (.forking np stage')) := by
  have embryo := (inv.forking p np stage at_).state
  apply Kin.trans (Kin.setProc (KinSlot.awake pid parent (by rw [state]) (Or.inr killed) _))
  · apply Kin.setPc
    intro np' stage'' same
    injection same with sameSlot
    exact ⟨stage, by rw [← sameSlot]; exact at_⟩
  · rw [state, embryo]
    simp

theorem Kin.setPoint_forking (at_ : k.pc p = .forking np stage) :
    Kin k (k.setPc p (.forking np stage')) := by
  apply Kin.setPc
  intro np' stage'' same
  injection same with sameSlot
  exact ⟨stage, by rw [← sameSlot]; exact at_⟩

/-! ## `kill` -/

variable {pid : Int}

theorem killHit_phase (p : Proc) : (killHit p).state.phase = p.state.phase := by
  unfold killHit
  split
  · rename_i asleep
    rw [asleep]
    rfl
  · rfl

theorem SameFamily.kill (k : Kernel ncpu) (pid : Int) :
    SameFamily k { k with proc := (kill k.proc pid).1 } := by
  rcases kill_cases k.proc pid with ⟨_, missed⟩ | ⟨found, _, hit⟩
  · rw [missed]
    exact (Kin.refl k).sameFamily
  · rw [hit]
    have pids : ∀ p, (killHit p).pid = p.pid := fun p => by unfold killHit; split <;> rfl
    have parents : ∀ p, (killHit p).parent = p.parent := fun p => by unfold killHit; split <;> rfl
    refine ⟨?_, ?_, ?_, rfl, rfl, fun _ _ stage at_ => ⟨stage, at_⟩⟩
    · exact update_related (R := fun p q => q.pid = p.pid) (fun _ => rfl) (pids _)
    · exact update_related (R := fun p q => q.parent = p.parent) (fun _ => rfl) (parents _)
    · exact update_related (R := fun p q => q.state.phase = p.state.phase) (fun _ => rfl)
        (killHit_phase _)

/-- A process that `kill` leaves asleep is not its target. -/
theorem kill_asleep (asleep : ((kill table pid).1 slot).state = .sleeping) :
    (kill table pid).1 slot = table slot := by
  rcases kill_cases table pid with ⟨_, missed⟩ | ⟨found, _, hit⟩
  · rw [missed]
  · rw [hit] at asleep ⊢
    by_cases same : slot = found
    · rw [same] at asleep
      simp only [update_self] at asleep
      unfold killHit at asleep
      split at asleep
      · simp at asleep
      · contradiction
    · exact update_of_ne same _ _

theorem FamilyInv.kill (inv : FamilyInv k) (pid : Int) :
    FamilyInv { k with proc := (kill k.proc pid).1 } := by
  have same := SameFamily.kill k pid
  apply inv.of_same same
  intro slot r asleep chan
  have unchanged : (Xv6.Process.kill k.proc pid).1 slot = k.proc slot := kill_asleep asleep
  have asleepBefore : (k.proc slot).state = .sleeping := unchanged ▸ asleep
  have chanBefore : (k.proc slot).chan = some (.proc r) := unchanged ▸ chan
  obtain ⟨self, awaits⟩ := inv.asleep slot r asleepBefore chanBefore
  exact ⟨self, awaits.of_same same (congrArg Proc.killed unchanged)⟩

/-! ## `fork` and reaping: one slot that nobody depends on -/

variable {nextpid : Int}

theorem FamilyInv.orphan (inv : FamilyInv k) (notLive : (k.proc np).state.live = false)
    (slot : Slot) : (k.proc slot).parent ≠ some np := by
  intro isParent
  rw [inv.parentLive slot np isParent] at notLive
  simp at notLive

/-- The slot of a child that is not live becomes `q`, and its parent `p` goes on at
`pc'`. -/
theorem FamilyInv.child (inv : FamilyInv k) (table : TableInv k)
    (notLive : (k.proc np).state.live = false) (alive : (k.proc p).state.live = true)
    (awake : q.state ≠ .sleeping) (notZombie : q.state ≠ .zombie)
    (parent : ∀ r, q.parent = some r → r = p ∧ (k.proc p).pid < q.pid)
    (started : q.state.live = true → q.parent = some p)
    (kept : ∀ r, (k.proc np).parent = some r → (k.proc r).state = .sleeping → q.parent = some r)
    (forks : ∀ other stage, pc' = .forking other stage → other = np ∧ (k.proc p).pid < q.pid)
    (unforked : ∀ r stage, r ≠ p → k.pc r ≠ .forking np stage) :
    FamilyInv (({ k with nextpid := nextpid }.setProc np q).setPc p pc') := by
  have orphan := inv.orphan notLive
  have live_ne : ∀ slot, (k.proc slot).state.live = true → slot ≠ np := by
    intro slot slotLive same
    rw [same, notLive] at slotLive
    simp at slotLive
  have notSelf : p ≠ np := live_ne p alive
  have notInit : k.initproc ≠ np := live_ne k.initproc table.initLive
  have proc : (({ k with nextpid := nextpid }.setProc np q).setPc p pc').proc = update k.proc np q :=
    rfl
  have parents (slot r : Slot) : (update k.proc np q slot).parent = some r →
      (update k.proc np q r).state.live = true ∧
        (update k.proc np q r).pid < (update k.proc np q slot).pid := by
    refine Update.cases slot (fun isParent => ?_) fun _ isParent => ?_
    · obtain ⟨rfl, older⟩ := parent r isParent
      rw [update_of_ne notSelf]
      exact ⟨alive, older⟩
    · have isOld : r ≠ np := fun equal => orphan slot (equal ▸ isParent)
      rw [update_of_ne isOld]
      exact ⟨inv.parentLive slot r isParent, inv.older slot r isParent⟩
  refine ⟨?_, ?_, ?_, ?_, ?_, ?_, ?_⟩
  · exact (congrArg Proc.pid (update_of_ne notInit _ _)).trans inv.initPid
  · exact (congrArg Proc.parent (update_of_ne notInit _ _)).trans inv.initParent
  · exact fun slot r isParent => (parents slot r isParent).1
  · exact fun slot r isParent => (parents slot r isParent).2
  · intro r other stage
    rw [proc]
    change update k.pc p pc' r = _ → _
    refine Update.cases r (fun at_ => ?_) fun isOther at_ => ?_
    · rw [(forks other stage at_).1, update_self, update_of_ne notSelf]
      exact (forks other stage at_).2
    · have different : other ≠ np := fun equal => unforked r stage isOther (equal ▸ at_)
      have forker : r ≠ np := live_ne r (table.live_of_pc (by rw [at_]; simp))
      rw [update_of_ne different, update_of_ne forker]
      exact inv.forkOlder r other stage at_
  · intro slot slotNotInit
    rw [proc]
    refine Update.cases slot (fun isStarted => ?_) fun _ => inv.hasParent slot slotNotInit
    exact ⟨p, started (isStarted.resolve_right notZombie)⟩
  · intro slot r
    rw [proc]
    refine Update.cases slot (fun asleep => absurd asleep awake) fun isOther asleep chan => ?_
    obtain ⟨self, awaits⟩ := inv.asleep slot r asleep chan
    refine ⟨self, ?_, ?_, ?_⟩
    · obtain ⟨child, isChild⟩ := awaits.child
      refine ⟨child, ?_⟩
      revert isChild
      rw [proc]
      exact Update.cases child (fun isChild => kept slot isChild asleep) fun _ => id
    · rw [proc]
      exact fun child => Update.cases child (fun _ => notZombie) fun _ => awaits.noZombie child
    · rw [proc, update_of_ne isOther]
      exact awaits.notKilled

/-! ## `exit` -/

theorem exitTable_pid (awake : (table curproc).state ≠ .sleeping) (slot : Slot) :
    (exitTable table curproc initproc slot).pid = (table slot).pid := by
  by_cases same : slot = curproc
  · rw [same, exitTable_self awake]
  · exact (exitTable_other same).kinSlot.pid

theorem exitTable_parent (awake : (table curproc).state ≠ .sleeping) (slot : Slot) :
    (exitTable table curproc initproc slot).parent =
      passTo curproc initproc (table slot).parent := by
  by_cases same : slot = curproc
  · rw [same, exitTable_self awake]
  · exact (exitTable_other same).kinSlot.parent

theorem exitTable_phase (different : slot ≠ curproc) :
    (exitTable table curproc initproc slot).state.phase = (table slot).state.phase :=
  (exitTable_other different).kinSlot.phase

/-- The new parent is `init` in place of the process that exits. -/
theorem passTo_eq_some {parent : Option Slot} (passed : passTo curproc initproc parent = some r) :
    parent = some curproc ∧ r = initproc ∨ parent = some r ∧ r ≠ curproc := by
  unfold passTo at passed
  by_cases isChild : parent = some curproc
  · rw [if_pos isChild] at passed
    exact Or.inl ⟨isChild, (Option.some.inj passed).symm⟩
  · rw [if_neg isChild] at passed
    refine Or.inr ⟨passed, ?_⟩
    intro same
    exact isChild (same ▸ passed)

theorem passTo_other (different : r ≠ curproc) : passTo curproc initproc (some r) = some r := by
  unfold passTo
  rw [if_neg]
  intro same
  exact different (Option.some.inj same)

theorem FamilyInv.exit (inv : FamilyInv k) (table : TableInv k) (on : k.cpu c = some p)
    (notInit : p ≠ k.initproc) : FamilyInv (k.exitFinish c p) := by
  have awake : (k.proc p).state ≠ .sleeping := by
    rw [table.state_of_cpu on]
    simp
  have pid : ∀ slot, ((k.exitFinish c p).proc slot).pid = (k.proc slot).pid :=
    exitTable_pid awake
  have parent : ∀ slot, ((k.exitFinish c p).proc slot).parent =
      passTo p k.initproc (k.proc slot).parent := exitTable_parent awake
  have live : ∀ slot, slot ≠ p → ((k.exitFinish c p).proc slot).state.live =
      (k.proc slot).state.live :=
    fun slot different => ProcState.live_of_phase (exitTable_phase different)
  have zombie : ∀ slot, slot ≠ p → (((k.exitFinish c p).proc slot).state = .zombie ↔
      (k.proc slot).state = .zombie) :=
    fun slot different => ProcState.zombie_of_phase (exitTable_phase different)
  refine ⟨?_, ?_, ?_, ?_, ?_, ?_, ?_⟩
  · exact (pid _).trans inv.initPid
  · apply (parent _).trans
    rw [show (k.proc (k.exitFinish c p).initproc).parent = none from inv.initParent]
    rfl
  · intro slot r isParent
    rw [parent] at isParent
    rcases passTo_eq_some isParent with ⟨_, isInit⟩ | ⟨before, different⟩
    · rw [isInit, live _ notInit.symm]
      exact table.initLive
    · rw [live r different]
      exact inv.parentLive slot r before
  · intro slot r isParent
    rw [parent] at isParent
    rw [pid, pid]
    rcases passTo_eq_some isParent with ⟨before, isInit⟩ | ⟨before, _⟩
    · -- `init` has the smallest pid, and it is not its own child.
      rw [isInit, inv.initPid]
      have older := inv.older slot p before
      have running := (table.pidRange p (ProcState.live_ne_unused (table.live_of_cpu on))).1
      omega
    · exact inv.older slot r before
  · intro q np stage at_
    rw [pid, pid]
    apply inv.forkOlder q np stage
    by_cases same : q = p
    · subst same
      simp [Kernel.exitFinish] at at_
    · simpa [Kernel.exitFinish, update_of_ne same] using at_
  · intro slot slotNotInit started
    rw [parent]
    have before : ∃ r, (k.proc slot).parent = some r := by
      by_cases same : slot = p
      · rw [same]
        exact inv.hasParent p notInit (Or.inl (table.live_of_cpu on))
      · rw [live slot same, zombie slot same] at started
        exact inv.hasParent slot slotNotInit started
    obtain ⟨r, isParent⟩ := before
    rw [isParent]
    by_cases child : r = p
    · exact ⟨k.initproc, by rw [child]; exact if_pos rfl⟩
    · exact ⟨r, passTo_other child⟩
  · intro slot r asleep chan
    have different : slot ≠ p := by
      intro same
      rw [same] at asleep
      rw [show ((k.exitFinish c p).proc p) = _ from exitTable_self awake] at asleep
      simp at asleep
    -- A slot still asleep was not woken, so only its parent can have changed.
    have same : (k.exitFinish c p).proc slot =
        { k.proc slot with parent := passTo p k.initproc (k.proc slot).parent } := by
      have atMost : Woken _ (exitTable k.proc p k.initproc slot) := exitTable_other different
      rcases atMost with same | ⟨_, woken⟩
      · exact same
      · rw [show (k.exitFinish c p).proc slot = _ from woken] at asleep
        simp at asleep
    have asleepBefore : (k.proc slot).state = .sleeping := by
      rw [same] at asleep
      exact asleep
    have chanBefore : (k.proc slot).chan = some (.proc r) := by
      rw [same] at chan
      exact chan
    obtain ⟨self, awaits⟩ := inv.asleep slot r asleepBefore chanBefore
    rw [self] at chanBefore
    refine ⟨self, ?_, ?_, ?_⟩
    · obtain ⟨child, isChild⟩ := awaits.child
      exact ⟨child, by rw [parent, isChild]; exact passTo_other different⟩
    · intro other isChild dead
      rw [parent] at isChild
      by_cases isSelf : other = p
      · -- The parent of the exiting process was woken.
        rw [isSelf] at isChild
        rcases passTo_eq_some isChild with ⟨selfParent, _⟩ | ⟨before, _⟩
        · exact absurd (inv.older p p selfParent) (lt_irrefl _)
        · exact exitTable_parent_awake different (by rw [chanBefore, before]; rfl) asleep
      · rw [zombie other isSelf] at dead
        rcases passTo_eq_some isChild with ⟨before, isInit⟩ | ⟨before, _⟩
        · -- `init` was woken for the zombies it was given.
          exact exitTable_init_awake different (isInit ▸ chanBefore) before dead asleep
        · exact awaits.noZombie other before dead
    · rw [same]
      exact awaits.notKilled

/-! ## `wait`, and the chain of parents -/

theorem waitScan_fail (scanned : waitScan table p = .fail) :
    (∀ slot, (table slot).parent ≠ some p) ∨ (table p).killed = true := by
  unfold waitScan at scanned
  split at scanned
  · simp at scanned
  · simp only at scanned
    split at scanned
    · rename_i reason
      refine reason.imp_left ?_
      intro noKids slot isChild
      rw [Option.isSome_eq_false_iff, Option.isNone_iff_eq_none] at noKids
      have rejected := findSlot_none noKids slot
      simp [isChild] at rejected
    · simp at scanned

theorem waitScan_sleep (scanned : waitScan k.proc p = .sleep) : AwaitsChild k p := by
  unfold waitScan at scanned
  split at scanned
  · simp at scanned
  · rename_i noneDead
    simp only at scanned
    split at scanned
    · simp at scanned
    · rename_i stays
      rw [not_or, Bool.not_eq_false, Bool.not_eq_true] at stays
      obtain ⟨child, searched⟩ := Option.isSome_iff_exists.mp stays.1
      refine ⟨⟨child, by simpa using findSlot_accepts searched⟩, ?_, stays.2⟩
      intro other isChild dead
      have rejected := findSlot_none noneDead other
      simp [isChild, dead] at rejected

/-- Following parents leads to `init`: pids decrease along the way. -/
theorem FamilyInv.chain (inv : FamilyInv k) (table : TableInv k) (slot : Slot)
    (started : (k.proc slot).state.live = true ∨ (k.proc slot).state = .zombie) :
    Relation.ReflTransGen (fun child parent => (k.proc child).parent = some parent) slot
      k.initproc := by
  induction bound : (k.proc slot).pid.toNat using Nat.strong_induction_on generalizing slot with
  | _ bound' ih =>
    by_cases isInit : slot = k.initproc
    · rw [isInit]
    · obtain ⟨r, isParent⟩ := inv.hasParent slot isInit started
      have alive := inv.parentLive slot r isParent
      have older := inv.older slot r isParent
      have positive := (table.pidRange r (ProcState.live_ne_unused alive)).1
      have above := ih (k.proc r).pid.toNat (by omega) r (Or.inl alive) rfl
      exact Relation.ReflTransGen.head isParent above

end Xv6.Process
