import Xv6.Semaphore.Model

/-!
The semaphore contract.

Owns: the counts of completed operations on each semaphore, the law that ties them to
the stored value, and the invariant that a positive value leaves nobody asleep.

Does not own: fairness among waiters, or what happens to a waiter that is killed
(`Xv6.Semaphore.Killed`).
-/

namespace Xv6.Semaphore

open TransitionSystem
open Function (update update_self update_of_ne)

open Xv6.Process

variable {ncpu : Nat} {value init : BitVec 32} {sem : Sem} {count : Count} {semtable : SemTable}
  {action : SemAction ncpu}

/-! ## The history of a semaphore -/

/-- The initial value of an entry, once it has one, and the operations done since. -/
structure Count where
  init : Option (BitVec 32)
  signals : Nat
  waits : Nat
deriving DecidableEq, Repr

/-- The results of successful `sem_init` calls, oldest first, and the counts. -/
structure SemLog where
  returned : List (Fin nsem)
  count : Fin nsem → Count

def SemLog.empty : SemLog := ⟨[], fun _ => ⟨none, 0, 0⟩⟩

def SemLog.setCount (log : SemLog) (id : Fin nsem) (count : Count) : SemLog :=
  { log with count := Function.update log.count id count }

/-- The entry an action works on. -/
def SemKernel.target (s : SemKernel ncpu) : SemAction ncpu → Option (Fin nsem)
  | .semInit _ _ => freeEntry s.semtable
  | .waitPass c =>
    (s.kernel.cpu c).bind fun p =>
      match s.semPc p with
      | .waiting id => some id
      | _ => none
  | .signalPass c =>
    (s.kernel.cpu c).bind fun p =>
      match s.semPc p with
      | .signaling id => some id
      | _ => none
  | _ => none

/-- A wait is completed by the pass that finds a positive value. -/
def observeSem (before : SemKernel ncpu) (action : SemAction ncpu) (_after : SemKernel ncpu)
    (log : SemLog) : SemLog :=
  match before.target action with
  | none => log
  | some id =>
    match action with
    | .semInit _ value =>
      { log with returned := log.returned ++ [id] }.setCount id ⟨some value, 0, 0⟩
    | .waitPass _ =>
      if (before.semtable id).value.toInt ≤ 0 then log
      else log.setCount id { log.count id with waits := (log.count id).waits + 1 }
    | .signalPass _ => log.setCount id { log.count id with signals := (log.count id).signals + 1 }
    | _ => log

def SemKernel.record : SemKernel ncpu × SemLog → SemAction ncpu → Option (SemKernel ncpu × SemLog) :=
  watch SemKernel.step observeSem

/-! ## The law of one entry -/

theorem toInt_add_one_le (value : BitVec 32) : (value + 1).toInt ≤ value.toInt + 1 := by
  have low := BitVec.le_toInt value
  have high : value.toInt < 2 ^ 31 := BitVec.toInt_lt
  rw [BitVec.toInt_add, show (1 : BitVec 32).toInt = 1 from rfl]
  simp only [Int.bmod] at *
  omega

theorem toInt_sub_one (positive : 0 < value.toInt) : (value - 1).toInt = value.toInt - 1 := by
  have low := BitVec.le_toInt value
  have high : value.toInt < 2 ^ 31 := BitVec.toInt_lt
  rw [BitVec.toInt_sub, show (1 : BitVec 32).toInt = 1 from rfl]
  simp only [Int.bmod] at *
  omega

/-- The stored value is the balance modulo 2^32. It is at most the exact balance, since
a wrap only lowers it, and so a wait never makes the exact balance negative. -/
structure Balanced (sem : Sem) (count : Count) (init : BitVec 32) : Prop where
  value : sem.value = init + BitVec.ofNat 32 count.signals - BitVec.ofNat 32 count.waits
  below : sem.value.toInt ≤ init.toInt + count.signals - count.waits
  waits : (count.waits : Int) ≤ max init.toInt 0 + count.signals

theorem Balanced.start (init : BitVec 32) : Balanced ⟨init, true⟩ ⟨some init, 0, 0⟩ init := by
  refine ⟨by simp, by simp, ?_⟩
  simp

theorem Balanced.signal (balanced : Balanced sem count init) :
    Balanced { sem with value := sem.value + 1 } { count with signals := count.signals + 1 }
      init := by
  refine ⟨?_, ?_, ?_⟩
  · simp only
    rw [balanced.value, BitVec.ofNat_add]
    bv_omega
  · have wraps := toInt_add_one_le sem.value
    have below := balanced.below
    show (sem.value + 1).toInt ≤ init.toInt + ((count.signals + 1 : Nat) : Int) - count.waits
    omega
  · have waits := balanced.waits
    push_cast
    omega

theorem Balanced.wait (balanced : Balanced sem count init) (positive : 0 < sem.value.toInt) :
    Balanced { sem with value := sem.value - 1 } { count with waits := count.waits + 1 } init := by
  have below := balanced.below
  refine ⟨?_, ?_, ?_⟩
  · simp only
    rw [balanced.value, BitVec.ofNat_add]
    bv_omega
  · rw [toInt_sub_one positive]
    push_cast
    omega
  · push_cast
    omega

/-! ## The invariant -/

structure SemInv (s : SemKernel ncpu) (log : SemLog) : Prop where
  table : TableInv s.kernel
  inside : ∀ p, s.semPc p ≠ .outside →
    (s.kernel.proc p).state.live = true ∧ s.kernel.pc p = .normal
  checked : ∀ p id, s.semPc p = .waiting id ∨ s.semPc p = .signaling id →
    (s.semtable id).allocated = true
  asleep : ∀ p id, (s.kernel.proc p).state = .sleeping →
    (s.kernel.proc p).chan = some (.sem id) →
      s.semPc p = .waiting id ∧ (s.semtable id).value.toInt ≤ 0
  returned : ∀ id, id ∈ log.returned ↔ (s.semtable id).allocated = true
  distinct : log.returned.Nodup
  initialised : ∀ id ∈ log.returned, ∃ init, (log.count id).init = some init
  balanced : ∀ id init, (log.count id).init = some init →
    Balanced (s.semtable id) (log.count id) init

theorem freeEntry_free {id : Fin nsem} (found : freeEntry semtable = some id) :
    (semtable id).allocated = false := by
  simpa using List.find?_some found

theorem checkedId_allocated {id : Int} {index : Fin nsem}
    (checked : checkedId semtable id = some index) : (semtable index).allocated = true := by
  unfold checkedId at checked
  split at checked
  · simp only [Option.ite_none_right_eq_some, Option.some.injEq] at checked
    rw [← checked.2]
    exact checked.1
  · simp at checked

section Steps

variable {s s' : SemKernel ncpu} {log : SemLog} {c : Fin ncpu} {p : Slot} {id : Fin nsem}

theorem SemInv.kernel (inv : SemInv s log) {action : Action ncpu} {kernel : Kernel ncpu}
    (other : ∀ p, s.semPc p ≠ .outside → s.kernel.notBy p action)
    (quiet : usesSemChan action = false) (taken : s.kernel.step action = some kernel) :
    SemInv { s with kernel := kernel } log :=
  { inv with
    table := inv.table.step (Step.of_step taken)
    inside := by
      intro p inside
      obtain ⟨alive, normal⟩ := inv.inside p inside
      have step := Step.of_step taken
      exact ⟨step.live inv.table (other p inside) alive, (step.pcStep p).outside (other p inside) normal⟩
    asleep := by
      intro p id asleep chan
      have before := (Step.of_step taken).asleep inv.table
        (show (Chan.sem id).isProc = false from rfl) ?_ asleep chan
      · exact inv.asleep p id before.1 before.2
      · intro c same
        rw [same] at quiet
        simp [usesSemChan] at quiet }

theorem SemInv.semInit (inv : SemInv s log) :
    SemInv (s.semInit value) (observeSem s (.semInit c value) (s.semInit value) log) := by
  unfold SemKernel.semInit observeSem SemKernel.target
  cases found : freeEntry s.semtable with
  | none => exact inv
  | some id =>
    have free := freeEntry_free found
    have unused : ∀ p, s.semPc p ≠ .waiting id := by
      intro p waits
      rw [inv.checked p id (Or.inl waits)] at free
      simp at free
    refine ⟨inv.table, inv.inside, ?_, ?_, ?_, ?_, ?_, ?_⟩
    · intro p other inside
      change (update s.semtable id _ other).allocated = true
      exact Update.cases other rfl fun _ => inv.checked p other inside
    · intro p other asleep chan
      obtain ⟨waits, nonpositive⟩ := inv.asleep p other asleep chan
      have different : other ≠ id := fun same => unused p (same ▸ waits)
      refine ⟨waits, ?_⟩
      simpa [SemKernel.setSem, update_of_ne different] using nonpositive
    · intro other
      simp only [SemLog.setCount, List.mem_append, List.mem_singleton, SemKernel.setSem]
      refine Update.cases other (by simp) fun different => ?_
      rw [← inv.returned other]
      simp [different]
    · simp only [SemLog.setCount]
      rw [List.nodup_append]
      refine ⟨inv.distinct, by simp, ?_⟩
      intro other member last isLast equal
      rw [List.mem_singleton.mp isLast] at equal
      rw [equal, inv.returned id, free] at member
      simp at member
    · intro other member
      simp only [SemLog.setCount, List.mem_append, List.mem_singleton] at member ⊢
      refine Update.cases other ⟨value, rfl⟩ fun different => ?_
      exact inv.initialised other (member.resolve_right different)
    · intro other init
      simp only [SemLog.setCount, SemKernel.setSem]
      refine Update.cases₂ other (fun isInit => ?_) fun _ => inv.balanced other init
      cases isInit
      exact Balanced.start value

/-- A process on a CPU passes the test of a call. -/
theorem SemInv.enter (inv : SemInv s log) (on : s.kernel.cpu c = some p)
    (at_ : s.kernel.pc p = .normal) {semPc : SemPc}
    (checked : ∀ id, semPc = .waiting id ∨ semPc = .signaling id →
      (s.semtable id).allocated = true) : SemInv (s.setSemPc p semPc) log := by
  have runs := inv.table.state_of_cpu on
  refine ⟨inv.table, ?_, ?_, ?_, inv.returned, inv.distinct, inv.initialised, inv.balanced⟩
  · intro q
    change update s.semPc p semPc q ≠ _ → _
    exact Update.cases q (fun _ => ⟨inv.table.live_of_cpu on, at_⟩) fun _ => inv.inside q
  · intro q id
    change update s.semPc p semPc q = _ ∨ update s.semPc p semPc q = _ → _
    exact Update.cases q (checked id) fun _ => inv.checked q id
  · intro q id asleep chan
    have different : q ≠ p := by
      intro same
      have awake : (s.kernel.proc p).state = .sleeping := same ▸ asleep
      rw [runs] at awake
      simp at awake
    simpa [SemKernel.setSemPc, update_of_ne different] using inv.asleep q id asleep chan

/-- The value of an entry on which nobody sleeps changes with its count. -/
theorem SemInv.setEntry (inv : SemInv s log) (allocated : sem.allocated = (s.semtable id).allocated)
    (sameInit : count.init = (log.count id).init)
    (balanced : ∀ init, Balanced (s.semtable id) (log.count id) init → Balanced sem count init)
    (nobody : ∀ q, (s.kernel.proc q).state = .sleeping →
      (s.kernel.proc q).chan ≠ some (.sem id)) :
    SemInv (s.setSem id sem) (log.setCount id count) := by
  have kept (other : Fin nsem) : ((s.setSem id sem).semtable other).allocated =
      (s.semtable other).allocated := by
    change (update s.semtable id sem other).allocated = _
    exact Update.cases other allocated fun _ => rfl
  have inits (other : Fin nsem) : ((log.setCount id count).count other).init =
      (log.count other).init := by
    change (update log.count id count other).init = _
    exact Update.cases other sameInit fun _ => rfl
  refine ⟨inv.table, inv.inside, ?_, ?_, ?_, inv.distinct, ?_, ?_⟩
  · intro q other inside
    rw [kept]
    exact inv.checked q other inside
  · intro q other asleep chan
    have different : other ≠ id := fun same => nobody q asleep (same ▸ chan)
    simpa [SemKernel.setSem, update_of_ne different] using inv.asleep q other asleep chan
  · intro other
    rw [kept]
    exact inv.returned other
  · intro other member
    rw [inits]
    exact inv.initialised other member
  · intro other init isInit
    rw [inits] at isInit
    have before := inv.balanced other init isInit
    by_cases same : other = id
    · subst same
      simpa [SemKernel.setSem, SemLog.setCount] using balanced init before
    · simpa [SemKernel.setSem, SemLog.setCount, update_of_ne same] using before

theorem SemInv.waitPass (inv : SemInv s log) (on : s.kernel.cpu c = some p)
    (at_ : s.semPc p = .waiting id) :
    SemInv (s.waitPass c p id) (observeSem s (.waitPass c) (s.waitPass c p id) log) := by
  have normal := (inv.inside p (by rw [at_]; simp)).2
  have target : s.target (.waitPass c) = some id := by
    simp [SemKernel.target, on, at_]
  unfold SemKernel.waitPass observeSem
  rw [target]
  simp only
  by_cases nonpositive : (s.semtable id).value.toInt ≤ 0
  · -- The caller goes to sleep and will make another pass.
    rw [if_pos nonpositive, if_pos nonpositive]
    refine ⟨inv.table.sleep on (.sem id), ?_, inv.checked, ?_, inv.returned, inv.distinct,
      inv.initialised, inv.balanced⟩
    · intro q inside
      by_cases same : q = p
      · subst same
        exact ⟨by simp [Kernel.sleep, ProcState.live], normal⟩
      · simpa [Kernel.sleep, update_of_ne same] using inv.inside q inside
    · intro q other asleep chan
      by_cases same : q = p
      · subst same
        have isId : id = other := by simpa [Kernel.sleep] using chan
        subst isId
        exact ⟨at_, nonpositive⟩
      · simp only [Kernel.sleep, Kernel.setCpu_proc, Kernel.setProc_proc,
          update_of_ne same] at asleep chan
        exact inv.asleep q other asleep chan
  · -- A unit is taken; nobody sleeps on this entry.
    rw [if_neg nonpositive, if_neg nonpositive]
    have positive : 0 < (s.semtable id).value.toInt := by omega
    have left : SemInv (s.setSemPc p .outside) log := inv.enter on normal (by simp)
    refine left.setEntry rfl rfl (fun init balanced => balanced.wait positive) ?_
    intro q asleep chan
    exact nonpositive (left.asleep q id asleep chan).2

theorem SemInv.signalPass (inv : SemInv s log) (on : s.kernel.cpu c = some p)
    (at_ : s.semPc p = .signaling id) :
    SemInv (s.signalPass p id) (observeSem s (.signalPass c) (s.signalPass p id) log) := by
  have normal := (inv.inside p (by rw [at_]; simp)).2
  have target : s.target (.signalPass c) = some id := by
    simp [SemKernel.target, on, at_]
  unfold observeSem
  rw [target]
  simp only
  have left : SemInv (s.setSemPc p .outside) log := inv.enter on normal (by simp)
  have woken := wakeup1_woken s.kernel.proc (some (.sem id))
  have awake : SemInv { s.setSemPc p .outside with
      kernel := { s.kernel with proc := wakeup1 s.kernel.proc (some (.sem id)) } } log := by
    refine ⟨left.table.wakeup (some (.sem id)), ?_, left.checked, ?_, left.returned, left.distinct,
      left.initialised, left.balanced⟩
    · intro q inside
      obtain ⟨alive, outside⟩ := left.inside q inside
      exact ⟨(woken q).similar.live.trans alive, outside⟩
    · intro q other asleep chan
      have before := (woken q).asleepFrom (.sem other) asleep chan
      exact left.asleep q other before.1 before.2
  refine awake.setEntry rfl rfl (fun init balanced => balanced.signal) ?_
  intro q asleep chan
  exact wakeup1_awake ((woken q).asleepFrom (.sem id) asleep chan).2 asleep

theorem SemInv.step (inv : SemInv s log) (taken : s.step action = some s') :
    SemInv s' (observeSem s action s' log) := by
  cases SemStep.of_step taken with
  | kernel other quiet stepped => exact inv.kernel other quiet stepped
  | semInit on => exact inv.semInit
  | semWait on at_ outside =>
    unfold SemKernel.semWait
    split
    · exact inv
    · rename_i index checked
      refine inv.enter on at_ ?_
      intro id inside
      rcases inside with same | same
      · rw [← SemPc.waiting.inj same]
        exact checkedId_allocated checked
      · simp at same
  | semSignal on at_ outside =>
    unfold SemKernel.semSignal
    split
    · exact inv
    · rename_i index checked
      refine inv.enter on at_ ?_
      intro id inside
      rcases inside with same | same
      · simp at same
      · rw [← SemPc.signaling.inj same]
        exact checkedId_allocated checked
  | waitPass on at_ => exact inv.waitPass on at_
  | signalPass on at_ => exact inv.signalPass on at_

theorem SemInv.boot (ncpu stack root : Nat) :
    SemInv (SemKernel.boot ncpu stack root) SemLog.empty where
  table := TableInv.boot ncpu stack root
  inside := fun _ inside => absurd rfl inside
  checked := by
    intro p id inside
    simp [SemKernel.boot] at inside
  asleep := by
    intro p id asleep
    have awake : ((Kernel.boot ncpu stack root).proc p).state = .sleeping := asleep
    rw [Kernel.boot_proc] at awake
    by_cases first : p = 0 <;> simp [first, initcode, Proc.zero] at awake
  returned := by
    intro id
    simp [SemLog.empty, SemKernel.boot]
  distinct := List.nodup_nil
  initialised := by
    intro id member
    simp [SemLog.empty] at member
  balanced := by
    intro id init isInit
    simp [SemLog.empty] at isInit

theorem SemInv.of_run {stack root : Nat} {actions : List (SemAction ncpu)}
    (reaches : run SemKernel.record
      (SemKernel.boot ncpu stack root, SemLog.empty) actions = some (s, log)) : SemInv s log := by
  refine run_invariant (fun recorded => SemInv recorded.1 recorded.2) ?_
    (SemInv.boot ncpu stack root) reaches
  intro before action after inv taken
  obtain ⟨stepped, recorded⟩ := watch_eq_some.mp taken
  rw [recorded]
  exact inv.step stepped

/-- A step changes no entry but its own. -/
theorem SemStep.semtable_eq (step : SemStep s action s') {other : Fin nsem}
    (different : s.target action ≠ some other) : s'.semtable other = s.semtable other := by
  cases step with
  | kernel _ _ _ => rfl
  | semInit on =>
    simp only [SemKernel.target] at different
    unfold SemKernel.semInit
    cases found : freeEntry s.semtable with
    | none => rfl
    | some id =>
      have notId : other ≠ id := fun same => different (by rw [found, same])
      exact update_of_ne notId _ _
  | semWait on at_ outside =>
    unfold SemKernel.semWait
    split <;> rfl
  | semSignal on at_ outside =>
    unfold SemKernel.semSignal
    split <;> rfl
  | @waitPass c p id on at_ =>
    have notId : other ≠ id := by
      intro same
      exact different (by simp [SemKernel.target, on, at_, same])
    unfold SemKernel.waitPass
    split
    · rfl
    · exact update_of_ne notId _ _
  | @signalPass c p id on at_ =>
    have notId : other ≠ id := by
      intro same
      exact different (by simp [SemKernel.target, on, at_, same])
    exact update_of_ne notId _ _

end Steps

/-- The contract, at every state of every run: `sem_init` returned distinct ids; the value
of an initialised entry is its balance in 32-bit arithmetic and completed waits are covered
by the initial value and the signals; the next step changes no entry but its own; and a
positive value leaves nobody asleep on its entry. -/
theorem semaphore_contract {stack root : Nat} {actions : List (SemAction ncpu)}
    {s : SemKernel ncpu} {log : SemLog}
    (reaches : run SemKernel.record
      (SemKernel.boot ncpu stack root, SemLog.empty) actions = some (s, log)) :
    log.returned.Nodup ∧
    (∀ id ∈ log.returned, ∃ init, (log.count id).init = some init) ∧
    (∀ id init, (log.count id).init = some init →
      (s.semtable id).value =
        init + BitVec.ofNat 32 (log.count id).signals - BitVec.ofNat 32 (log.count id).waits ∧
      ((log.count id).waits : Int) ≤ max init.toInt 0 + (log.count id).signals) ∧
    (∀ action s' id, s.step action = some s' → s.target action ≠ some id →
      s'.semtable id = s.semtable id) ∧
    ∀ id, 0 < (s.semtable id).value.toInt → ∀ p,
      ¬((s.kernel.proc p).state = .sleeping ∧ (s.kernel.proc p).chan = some (.sem id)) := by
  have inv := SemInv.of_run reaches
  refine ⟨inv.distinct, inv.initialised, ?_, ?_, ?_⟩
  · intro id init isInit
    have balanced := inv.balanced id init isInit
    exact ⟨balanced.value, balanced.waits⟩
  · intro action s' id taken different
    exact (SemStep.of_step taken).semtable_eq different
  · intro id positive p ⟨asleep, chan⟩
    have nonpositive := (inv.asleep p id asleep chan).2
    omega

/-- `init` makes a semaphore of value 0; its child waits on it and gets the unit that
`init` signals. -/
def waitAndSignal : List (SemAction 2) :=
  [.kernel (.scheduler 0), .kernel (.forkAlloc 0), .kernel (.forkKalloc 0 (some 1)),
    .kernel (.forkCopyuvm 0 true), .kernel (.forkParent 0), .kernel (.forkFiles 0),
    .kernel (.forkFinish 0), .semInit 0 0, .kernel (.scheduler 1), .semWait 1 0, .waitPass 1,
    .semSignal 0 0, .signalPass 0, .kernel (.scheduler 1), .waitPass 1]

theorem semaphore_contract_waitAndSignal :
    ∃ (s : SemKernel 2) (log : SemLog),
      run SemKernel.record (SemKernel.boot 2 0 0, SemLog.empty) waitAndSignal =
        some (s, log) ∧
      log.returned = [0] ∧ log.count 0 = ⟨some 0, 1, 1⟩ ∧ (s.semtable 0).value = 0 ∧
      ((log.count 0).waits : Int) ≤ max (0 : BitVec 32).toInt 0 + (log.count 0).signals := by
  refine exists_of_view (fun recorded => (recorded.2.returned, recorded.2.count 0))
    ([0], ⟨some 0, 1, 1⟩) (by decide +kernel) fun s log reaches same => ?_
  simp only [Prod.mk.injEq] at same
  have law := (semaphore_contract reaches).2.2.1 0 0 (by rw [same.2])
  refine ⟨same.1, same.2, ?_, law.2⟩
  rw [law.1, same.2]
  rfl

end Xv6.Semaphore
