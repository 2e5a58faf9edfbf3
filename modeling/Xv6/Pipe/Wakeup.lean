import Xv6.Pipe.Stream

/-!
The wakeups of a pipe.

Owns: who waits on which channel and who owes it a wakeup; the invariant that a waiting
process is blocked or owed a wakeup; and when the pipe loses none.

Does not own: `sleep` and `wakeup` with the process table (`Xv6.Sync`).
-/

namespace Xv6.Pipe

open Function (update update_self update_of_ne)

open TransitionSystem

variable {n : Nat} {s next : State n} {p q : Fin n} {a : Action n} {pipe : Pipe} {before : Pc}
  {addr : Bytes} {count : Int}

/-! ## Waiting and owing -/

namespace Pc

/-- What a process has decided to wait for. -/
def waitsOn : Pc → Option Chan
  | .writeFull _ _ _ => some .nwrite
  | .writeSleep _ _ _ at_ => if at_ = .acquireLk then none else some .nwrite
  | .readSleep _ at_ => if at_ = .acquireLk then none else some .nread
  | _ => none

/-- The points from which a call goes on to `wakeup(chan)` before it gives `p->lock` back,
but for the `return -1` in the loop of `pipewrite`. -/
def owes (chan : Chan) : Pc → Bool
  | .writeLoop _ _ _ => decide (chan = .nread)
  | .writeFull _ _ _ => decide (chan = .nread)
  | .writeWake _ => decide (chan = .nread)
  | .readCopy _ _ => decide (chan = .nwrite)
  | .readWake _ _ => decide (chan = .nwrite)
  | .closeWake writable => decide (chan = if writable then .nread else .nwrite)
  | _ => false

/-- In the loop of `pipewrite`, with bytes left to write. -/
def writing : Pc → Bool
  | .writeLoop _ count i => decide (i < count)
  | _ => false

/-- The points at which a process holds `ptable.lock`. -/
def holdsPtable : Pc → Bool
  | .writeSleep _ _ _ .releaseLk => true
  | .writeSleep _ _ _ .setState => true
  | .readSleep _ .releaseLk => true
  | .readSleep _ .setState => true
  | _ => false

variable {pc : Pc} {chan : Chan} {at_ : SleepPc}

theorem holdsLock_of_owes (owes : pc.owes chan = true) : pc.holdsLock = true := by
  cases pc with
  | writeLoop | writeFull | writeWake | readCopy | readWake | closeWake => rfl
  | _ => cases owes

theorem owes_of_sleeps (sleeps : pc.sleeps = some (chan, at_)) (other : Chan) :
    pc.owes other = false := by
  cases pc with
  | writeSleep | readSleep => rfl
  | _ => cases sleeps

theorem waitsOn_of_sleeps (sleeps : pc.sleeps = some (chan, at_)) :
    pc.waitsOn = if at_ = .acquireLk then none else some chan := by
  cases pc with
  | writeSleep | readSleep =>
    cases sleeps
    rfl
  | _ => cases sleeps

theorem holdsPtable_of_sleeps (sleeps : pc.sleeps = some (chan, at_)) :
    pc.holdsPtable = true ↔ at_ = .releaseLk ∨ at_ = .setState := by
  cases pc with
  | writeSleep | readSleep =>
    cases sleeps
    cases at_ <;> simp [holdsPtable]
  | _ => cases sleeps

theorem not_owes_of_waitsOn (waits : pc.waitsOn = some chan) : pc.owes chan = false := by
  cases pc with
  | writeFull =>
    cases waits
    rfl
  | writeSleep | readSleep => rfl
  | _ => cases waits

/-- A waiting process holds a lock or is SLEEPING. -/
theorem waitsOn_cases (waits : pc.waitsOn = some chan) :
    pc.holdsLock = true ∨ pc.holdsPtable = true ∨ pc.sleeps = some (chan, .asleep) := by
  cases pc with
  | writeFull => exact .inl rfl
  | writeSleep _ _ _ at_ | readSleep _ at_ =>
    cases at_ with
    | acquirePtable | releaseLk => exact .inl rfl
    | setState => exact .inr (.inl rfl)
    | asleep =>
      cases waits
      exact .inr (.inr rfl)
    | acquireLk => cases waits
  | _ => cases waits

/-- `wakeup(chan)` ends the wait of the processes SLEEPING on `chan` and of no other. -/
theorem wake_cases (chan : Chan) (pc : Pc) :
    pc.wake chan = pc ∨
      pc.sleeps = some (chan, .asleep) ∧ (pc.wake chan).sleeps = some (chan, .acquireLk) := by
  unfold wake
  split
  · rename_i asleep
    exact .inr ⟨asleep, sleeps_setSleep .acquireLk asleep⟩
  · exact .inl rfl

end Pc

/-- What a waiting process has found. -/
def Blocked (pipe : Pipe) : Chan → Prop
  | .nread => pipe.empty = true ∧ pipe.writeopen = true
  | .nwrite => pipe.full = true ∧ pipe.readopen = true

structure WakeInv (s : State n) : Prop where
  locks : LockInv s
  ptable : ∀ p, (s.pc p).holdsPtable = true → s.ptable = some p
  /-- No process is in a call on a read end that is closed or being closed. -/
  readers : s.endOpen false ∨ s.endIdle false
  waits : ∀ p chan, (s.pc p).waitsOn = some chan →
    Blocked s.pipe chan ∨ ∃ q, (s.pc q).owes chan = true

/-! ## The read end -/

variable {pc : Pc} {chan : Chan} {at_ : SleepPc}

theorem Pc.usesRead_setSleep (at_ : SleepPc) (pc : Pc) :
    (pc.setSleep at_).usesRead = pc.usesRead := by
  cases pc <;> rfl

theorem Pc.closing_setSleep (writable : Bool) (at_ : SleepPc) (pc : Pc) :
    (pc.setSleep at_).closing writable = pc.closing writable := by
  cases pc <;> rfl

theorem Pc.usesRead_wake (chan : Chan) (pc : Pc) : (pc.wake chan).usesRead = pc.usesRead := by
  unfold wake
  split
  · exact usesRead_setSleep .acquireLk pc
  · rfl

theorem Pc.closing_wake (writable : Bool) (chan : Chan) (pc : Pc) :
    (pc.wake chan).closing writable = pc.closing writable := by
  unfold wake
  split
  · exact closing_setSleep writable .acquireLk pc
  · rfl

/-- No call on the read end starts, and none to close it. -/
theorem readers_mono (readers : s.endOpen false ∨ s.endIdle false)
    (readopen : next.pipe.readopen = s.pipe.readopen)
    (uses : ∀ q, (s.pc q).usesRead = false → (next.pc q).usesRead = false)
    (closing : ∀ q, (s.pc q).closing false = false → (next.pc q).closing false = false) :
    next.endOpen false ∨ next.endIdle false := by
  rcases readers with isOpen | idle
  · exact .inl ⟨readopen.trans isOpen.1, fun q => closing q (isOpen.2 q)⟩
  · exact .inr fun q => uses q (idle q)

theorem readers_update (readers : s.endOpen false ∨ s.endIdle false)
    (readopen : next.pipe.readopen = s.pipe.readopen)
    (update : next.pc = update s.pc p pc)
    (uses : (s.pc p).usesRead = false → pc.usesRead = false)
    (closing : (s.pc p).closing false = false → pc.closing false = false) :
    next.endOpen false ∨ next.endIdle false := by
  apply readers_mono readers readopen
  · rw [update]
    exact fun q => Update.cases q uses fun _ => id
  · rw [update]
    exact fun q => Update.cases q closing fun _ => id

theorem readers_woken (chan : Chan) (readers : s.endOpen false ∨ s.endIdle false) :
    State.endOpen { s with pc := fun q => (s.pc q).wake chan } false ∨
      State.endIdle { s with pc := fun q => (s.pc q).wake chan } false := by
  refine readers_mono readers rfl ?_ ?_
  · intro q before
    exact (Pc.usesRead_wake chan (s.pc q)).trans before
  · intro q before
    exact (Pc.closing_wake false chan (s.pc q)).trans before

theorem endIdle_update (idle : s.endIdle false) (update : next.pc = update s.pc p pc)
    (uses : pc.usesRead = false) : next.endIdle false := by
  intro q
  rw [update]
  exact Update.cases q uses fun _ => idle q

/-- An end is closed only when no process is in a call on it. -/
theorem readers_step (readers : s.endOpen false ∨ s.endIdle false) (stepped : Step s a next) :
    next.endOpen false ∨ next.endIdle false := by
  cases stepped with
  | write | store | leave => exact readers_update readers rfl rfl (fun _ => rfl) (fun _ => rfl)
  | @read p count idle isOpen =>
    refine .inl ⟨isOpen.1, ?_⟩
    intro q
    show (update s.pc p (.readAcquire count) q).closing false = false
    exact Update.cases q rfl fun _ => isOpen.2 q
  | @close p writable idle isOpen unused =>
    cases writable with
    | true => exact readers_update readers rfl rfl (fun _ => rfl) (fun _ => rfl)
    | false => exact .inr (endIdle_update unused rfl rfl)
  | @enter p pc free enters =>
    refine readers_update readers rfl rfl ?_ ?_ <;> generalize s.pc p = before at enters <;>
      cases enters <;> exact id
  | @test p pc tests =>
    refine readers_update readers rfl rfl ?_ ?_ <;> generalize s.pc p = before at tests <;>
      cases tests <;> exact id
  | fetch at_ inside some_ =>
    refine readers_update readers rfl rfl ?_ ?_
    · rw [at_]
      exact id
    · exact fun _ => rfl
  | @closeEnd p writable at_ =>
    cases writable with
    | true => exact readers_update readers rfl rfl (fun _ => rfl) (fun _ => rfl)
    | false =>
      rcases readers with isOpen | idle
      · have open_ := isOpen.2 p
        rw [at_] at open_
        cases open_
      · exact .inr (endIdle_update idle rfl rfl)
  | @wakeup p chan pc free wakes =>
    refine readers_update (readers_woken chan readers) rfl rfl ?_ ?_
    · show ((s.pc p).wake chan).usesRead = false → _
      rw [Pc.usesRead_wake]
      generalize s.pc p = before at wakes
      cases wakes <;> exact id
    · show ((s.pc p).wake chan).closing false = false → _
      rw [Pc.closing_wake]
      generalize s.pc p = before at wakes
      cases wakes <;> exact id
  | lockPtable | unlock | fallAsleep =>
    exact readers_update readers rfl rfl (Pc.usesRead_setSleep _ _).trans
      (Pc.closing_setSleep _ _ _).trans
  | kill free hit =>
    rcases hit with ⟨chan, sleeps, rfl⟩ | rfl
    · exact readers_update readers rfl rfl (Pc.usesRead_setSleep _ _).trans
        (Pc.closing_setSleep _ _ _).trans
    · exact readers_update readers rfl rfl id id

/-! ## Preservation -/

/-- A writer that returns `-1` from a full pipe leaves no reader waiting. -/
def NoReaderLeft (s : State n) : Action n → Prop
  | .run p =>
    (s.pc p).writing = true → s.pipe.full = true → s.killed p = true →
      ∀ q, (s.pc q).waitsOn ≠ some .nread
  | _ => True

instance (s : State n) : ∀ a, Decidable (NoReaderLeft s a)
  | .run _ => inferInstanceAs (Decidable (_ → _ → _ → ∀ _, _))
  | .write _ _ _ => isTrue trivial
  | .read _ _ => isTrue trivial
  | .close _ _ => isTrue trivial
  | .kill _ => isTrue trivial

namespace WakeInv

/-- A step that does not touch `ptable.lock`. -/
theorem ptable_update (inv : WakeInv s) (ptable : next.ptable = s.ptable)
    (update : next.pc = update s.pc p pc)
    (holds : pc.holdsPtable = true → (s.pc p).holdsPtable = true) (q : Fin n) :
    (next.pc q).holdsPtable = true → next.ptable = some q := by
  rw [ptable, update]
  exact Update.cases q (fun after => inv.ptable p (holds after)) fun _ => inv.ptable q

theorem waits_update (inv : WakeInv s) (keeps : ∀ chan, (s.pc p).owes chan = true →
      pc.owes chan = true ∨ ∀ q, q ≠ p → (s.pc q).waitsOn ≠ some chan)
    (blocked : ∀ chan, Blocked s.pipe chan → Blocked pipe chan ∨ pc.owes chan = true)
    (self : ∀ chan, pc.waitsOn = some chan →
      (s.pc p).waitsOn = some chan ∨ Blocked pipe chan) (q : Fin n) (chan : Chan)
    (waits : (update s.pc p pc q).waitsOn = some chan) :
    Blocked pipe chan ∨ ∃ r, (update s.pc p pc r).owes chan = true := by
  have owed (owes : pc.owes chan = true) : ∃ r, (update s.pc p pc r).owes chan = true :=
    ⟨p, by rw [update_self, owes]⟩
  -- A process that waited before the step is blocked still, or someone owes it a wakeup still.
  have carry (before : (s.pc q).waitsOn = some chan) :
      Blocked pipe chan ∨ ∃ r, (update s.pc p pc r).owes chan = true := by
    rcases inv.waits q chan before with isBlocked | ⟨r, owes⟩
    · exact (blocked chan isBlocked).imp_right owed
    · by_cases isSelf : r = p
      · subst isSelf
        rcases keeps chan owes with owes | none_
        · exact .inr (owed owes)
        · have same : q = r := by
            by_contra different
            exact none_ q different before
          rw [same] at before
          rw [Pc.not_owes_of_waitsOn before] at owes
          cases owes
      · exact .inr ⟨r, by rw [update_of_ne isSelf, owes]⟩
  by_cases isSelf : q = p
  · subst isSelf
    rw [update_self] at waits
    exact (self chan waits).elim carry .inl
  · rw [update_of_ne isSelf] at waits
    exact carry waits

/-- With `p->lock` held and `ptable.lock` free, the other processes that wait are SLEEPING. -/
theorem asleep_of_waits (inv : WakeInv s) (holds : (s.pc p).holdsLock = true)
    (free : s.ptable = none) (different : q ≠ p) (waits : (s.pc q).waitsOn = some chan) :
    (s.pc q).sleeps = some (chan, .asleep) := by
  rcases Pc.waitsOn_cases waits with holdsLock | holdsPtable | asleep
  · exact absurd (inv.locks.unique holds holdsLock) different
  · rw [inv.ptable q holdsPtable] at free
    cases free
  · exact asleep

theorem no_waiter_of_closed (inv : WakeInv s) (closed : s.pipe.readopen = false) (q : Fin n) :
    (s.pc q).waitsOn ≠ some .nread := by
  intro waits
  rcases inv.readers with isOpen | idle
  · have readopen : s.pipe.readopen = true := isOpen.1
    rw [closed] at readopen
    cases readopen
  · have unused : (s.pc q).usesRead = false := idle q
    cases at_ : s.pc q with
    | readSleep =>
      rw [at_] at unused
      cases unused
    | writeSleep addr count i point =>
      rw [at_] at waits
      cases point <;> cases waits
    | _ =>
      rw [at_] at waits
      cases waits

theorem woken (inv : WakeInv s) (chan : Chan) :
    WakeInv { s with pc := fun q => (s.pc q).wake chan } where
  locks := inv.locks.woken chan
  ptable q holds := by
    apply inv.ptable q
    rcases Pc.wake_cases chan (s.pc q) with same | ⟨_, woken⟩
    · exact same ▸ holds
    · have points := (Pc.holdsPtable_of_sleeps woken).mp holds
      simp at points
  readers := readers_woken chan inv.readers
  waits q other waits := by
    have before : (s.pc q).waitsOn = some other := by
      rcases Pc.wake_cases chan (s.pc q) with same | ⟨_, woken⟩
      · exact same ▸ waits
      · have none_ : ((s.pc q).wake chan).waitsOn = none := Pc.waitsOn_of_sleeps woken
        cases none_.symm.trans waits
    rcases inv.waits q other before with isBlocked | ⟨r, owes⟩
    · exact .inl isBlocked
    · right
      refine ⟨r, ?_⟩
      show ((s.pc r).wake chan).owes other = true
      rw [Pc.wake_of_holds chan (Pc.holdsLock_of_owes owes)]
      exact owes

theorem ptable_step (inv : WakeInv s) (stepped : Step s a next) :
    ∀ q, (next.pc q).holdsPtable = true → next.ptable = some q := by
  cases stepped with
  | write | read | close | store | fetch | closeEnd | leave =>
    exact inv.ptable_update rfl rfl (fun contra => by cases contra)
  | @enter p pc free enters =>
    refine inv.ptable_update rfl rfl ?_
    generalize s.pc p = before at enters
    cases enters <;> exact (fun contra => by cases contra)
  | @test p pc tests =>
    refine inv.ptable_update rfl rfl ?_
    generalize s.pc p = before at tests
    cases tests <;> exact (fun contra => by cases contra)
  | @wakeup p chan pc free wakes =>
    refine (inv.woken chan).ptable_update rfl rfl ?_
    generalize s.pc p = before at wakes
    cases wakes <;> exact (fun contra => by cases contra)
  | @lockPtable p chan free sleeps =>
    intro q
    change (update s.pc p _ q).holdsPtable = true → some p = some q
    refine Update.cases q (fun _ => rfl) fun _ holds => ?_
    rw [inv.ptable q holds] at free
    cases free
  | unlock sleeps =>
    refine inv.ptable_update rfl rfl ?_
    exact fun _ => (Pc.holdsPtable_of_sleeps sleeps).mpr (.inl rfl)
  | @fallAsleep p chan sleeps =>
    intro q
    change (update s.pc p _ q).holdsPtable = true → _
    refine Update.cases q (fun holds => ?_) fun isOther holds => ?_
    · rw [Pc.holdsPtable_of_sleeps (Pc.sleeps_setSleep .asleep sleeps)] at holds
      simp at holds
    · have self := inv.ptable p ((Pc.holdsPtable_of_sleeps sleeps).mpr (.inr rfl))
      exact absurd (Option.some.inj ((inv.ptable q holds).symm.trans self)) isOther
  | kill free hit =>
    refine inv.ptable_update rfl rfl ?_
    rcases hit with ⟨chan, sleeps, rfl⟩ | rfl
    · rw [Pc.holdsPtable_of_sleeps (Pc.sleeps_setSleep .acquireLk sleeps)]
      simp
    · exact id

/-- The test that ends in `return -1` is the one that forgets a wakeup. -/
theorem waits_test (inv : WakeInv s) (allowed : NoReaderLeft s (.run p)) (at_ : s.pc p = before)
    (tests : Tests s p before pc) (chan : Chan) (owes : before.owes chan = true) :
    pc.owes chan = true ∨ ∀ q, q ≠ p → (s.pc q).waitsOn ≠ some chan := by
  cases tests with
  | giveUp inside full gone =>
    right
    intro q _
    have isRead : chan = .nread := of_decide_eq_true owes
    rw [isRead]
    rcases gone with closed | killed
    · exact inv.no_waiter_of_closed closed q
    · have writing : (s.pc p).writing = true := by
        rw [at_]
        exact decide_eq_true inside
      exact allowed writing full killed q
  | full | written | copied => exact .inl owes
  | interrupted | wait | copy => cases owes

theorem blocked_test (tests : Tests s p before pc) (chan : Chan) (waits : pc.waitsOn = some chan) :
    Blocked s.pipe chan := by
  cases tests with
  | full inside full reader =>
    cases waits
    exact ⟨full, reader⟩
  | wait empty writer =>
    cases waits
    exact ⟨empty, writer⟩
  | _ => cases waits

/-- The steps of `sleep` before the lock is taken again: the process waits on. -/
theorem waits_sleep (inv : WakeInv s) {at_ to_ : SleepPc}
    (sleeps : (s.pc p).sleeps = some (chan, at_)) (before : at_ ≠ .acquireLk) :
    ∀ q other, (update s.pc p ((s.pc p).setSleep to_) q).waitsOn = some other →
      Blocked s.pipe other ∨
        ∃ r, (update s.pc p ((s.pc p).setSleep to_) r).owes other = true := by
  refine inv.waits_update ?_ (fun _ isBlocked => .inl isBlocked) ?_
  · intro other owes
    rw [Pc.owes_of_sleeps sleeps] at owes
    cases owes
  · intro other waits
    left
    rw [Pc.waitsOn_of_sleeps (Pc.sleeps_setSleep to_ sleeps)] at waits
    rw [Pc.waitsOn_of_sleeps sleeps, if_neg before]
    split at waits
    · cases waits
    · exact waits

theorem waits_wakeup (inv : WakeInv s) (free : s.ptable = none) (wakes : Wakes (s.pc p) chan pc) :
    ∀ q other, (update (fun q => (s.pc q).wake chan) p pc q).waitsOn = some other →
      Blocked s.pipe other ∨
        ∃ r, (update (fun q => (s.pc q).wake chan) p pc r).owes other = true := by
  have facts : (s.pc p).holdsLock = true ∧ (∀ other, (s.pc p).owes other = true → other = chan) ∧
      ∀ other, pc.waitsOn = some other → (s.pc p).waitsOn = some other := by
    generalize s.pc p = before at wakes
    cases wakes with
    | full => exact ⟨rfl, fun _ owes => of_decide_eq_true owes, fun _ waits => waits⟩
    | _ => exact ⟨rfl, fun _ owes => of_decide_eq_true owes, fun _ waits => by cases waits⟩
  obtain ⟨holds, only, waits⟩ := facts
  have self : (s.pc p).wake chan = s.pc p := Pc.wake_of_holds chan holds
  refine (inv.woken chan).waits_update ?_ (fun _ isBlocked => .inl isBlocked) ?_
  · intro other owes
    right
    intro q different stillWaits
    replace owes : ((s.pc p).wake chan).owes other = true := owes
    replace stillWaits : ((s.pc q).wake chan).waitsOn = some other := stillWaits
    rw [self] at owes
    rw [only other owes] at stillWaits
    rcases Pc.wake_cases chan (s.pc q) with same | ⟨asleep, woken⟩
    · rw [same] at stillWaits
      have asleep := inv.asleep_of_waits holds free different stillWaits
      have woken := Pc.sleeps_setSleep .acquireLk asleep
      have moved : (s.pc q).wake chan = (s.pc q).setSleep .acquireLk := by
        unfold Pc.wake
        rw [if_pos asleep]
      rw [← moved, same, asleep] at woken
      cases woken
    · rw [Pc.waitsOn_of_sleeps woken] at stillWaits
      cases stillWaits
  · intro other after
    left
    show ((s.pc p).wake chan).waitsOn = some other
    rw [self]
    exact waits other after

theorem waits_step (inv : WakeInv s) (allowed : NoReaderLeft s a) (stepped : Step s a next) :
    ∀ q chan, (next.pc q).waitsOn = some chan →
      Blocked next.pipe chan ∨ ∃ r, (next.pc r).owes chan = true := by
  cases stepped with
  | write idle | read idle | close idle =>
    refine inv.waits_update ?_ (fun _ isBlocked => .inl isBlocked) (fun _ waits => by cases waits)
    intro chan owes
    rw [idle] at owes
    cases owes
  | @enter p pc free enters =>
    have facts : (∀ chan, (s.pc p).owes chan = false) ∧ pc.waitsOn = none := by
      generalize s.pc p = before at enters
      cases enters <;> exact ⟨fun _ => rfl, rfl⟩
    refine inv.waits_update ?_ (fun _ isBlocked => .inl isBlocked) ?_
    · intro chan owes
      rw [facts.1] at owes
      cases owes
    · intro chan waits
      rw [facts.2] at waits
      cases waits
  | test tests =>
    refine inv.waits_update ?_ (fun _ isBlocked => .inl isBlocked) ?_
    · exact inv.waits_test allowed rfl tests
    · exact fun chan waits => .inr (blocked_test tests chan waits)
  | store at_ inside room =>
    refine inv.waits_update ?_ ?_ (fun _ waits => by cases waits)
    · intro chan owes
      rw [at_] at owes
      exact .inl owes
    · intro chan isBlocked
      cases chan with
      | nread => exact .inr rfl
      | nwrite =>
        rw [isBlocked.1] at room
        cases room
  | fetch at_ inside some_ =>
    refine inv.waits_update ?_ ?_ (fun _ waits => by cases waits)
    · intro chan owes
      rw [at_] at owes
      exact .inl owes
    · intro chan isBlocked
      cases chan with
      | nread =>
        rw [isBlocked.1] at some_
        cases some_
      | nwrite => exact .inr rfl
  | @closeEnd p writable at_ =>
    refine inv.waits_update ?_ ?_ (fun _ waits => by cases waits)
    · intro chan owes
      rw [at_] at owes
      cases owes
    · intro chan isBlocked
      cases writable <;> cases chan
      · exact .inl isBlocked
      · exact .inr rfl
      · exact .inr rfl
      · exact .inl isBlocked
  | wakeup free wakes => exact inv.waits_wakeup free wakes
  | lockPtable _ sleeps | unlock sleeps | fallAsleep sleeps =>
    exact inv.waits_sleep sleeps (by simp)
  | @leave p leaves =>
    refine inv.waits_update ?_ (fun _ isBlocked => .inl isBlocked) (fun _ waits => by cases waits)
    intro chan owes
    generalize s.pc p = before at leaves owes
    cases leaves <;> cases owes
  | kill free hit =>
    rcases hit with ⟨chan, sleeps, rfl⟩ | rfl
    · exact inv.waits_sleep sleeps (by simp)
    · exact inv.waits_update (fun _ owes => .inl owes) (fun _ isBlocked => .inl isBlocked)
        (fun _ waits => .inl waits)

theorem step (inv : WakeInv s) (allowed : NoReaderLeft s a) (stepped : Step s a next) :
    WakeInv next where
  locks := inv.locks.step stepped
  ptable := inv.ptable_step stepped
  readers := readers_step inv.readers stepped
  waits := inv.waits_step allowed stepped

theorem start (data : Fin pipesize → UInt8) (killed : Fin n → Bool) :
    WakeInv (Pipe.start data killed) where
  locks := LockInv.start data killed
  ptable _ holds := by cases holds
  readers := .inl ⟨rfl, fun _ => rfl⟩
  waits _ _ waits := by cases waits

end WakeInv

/-! ## The wakeups of a run -/

/-- With `p->lock` free, no process is SLEEPING that could go on. -/
def LosesNoWakeup (s : State n) : Prop :=
  s.lock = none →
    (s.pipe.empty = false ∨ s.pipe.writeopen = false →
      ∀ p, (s.pc p).sleeps ≠ some (.nread, .asleep)) ∧
    (s.pipe.full = false ∨ s.pipe.readopen = false →
      ∀ p, (s.pc p).sleeps ≠ some (.nwrite, .asleep))

theorem WakeInv.blocked_of_free (inv : WakeInv s) (free : s.lock = none) {chan : Chan}
    (asleep : (s.pc p).sleeps = some (chan, .asleep)) : Blocked s.pipe chan := by
  rcases inv.waits p chan (Pc.waitsOn_of_sleeps asleep) with isBlocked | ⟨q, owes⟩
  · exact isBlocked
  · rw [(inv.locks q).mp (Pc.holdsLock_of_owes owes)] at free
    cases free

theorem WakeInv.losesNoWakeup (inv : WakeInv s) : LosesNoWakeup s := by
  intro free
  constructor
  · intro ready p asleep
    have isBlocked := inv.blocked_of_free free asleep
    rw [isBlocked.1, isBlocked.2] at ready
    simp at ready
  · intro ready p asleep
    have isBlocked := inv.blocked_of_free free asleep
    rw [isBlocked.1, isBlocked.2] at ready
    simp at ready

/-- A killed writer in a full pipe returns `-1`, and gives the lock back without a wakeup. -/
theorem giveUp_steps {i : Nat} (at_ : s.pc p = .writeLoop addr count i) (inside : i < count)
    (full : s.pipe.full = true) (killed : s.killed p = true) :
    ∃ next, run step s [.run p, .run p] = some next ∧ next.lock = none ∧ next.pipe = s.pipe ∧
      ∀ q, q ≠ p → next.pc q = s.pc q := by
  refine ⟨(s.setPc p (.writeRelease (-1))).release p .idle, ?_, rfl, rfl, ?_⟩
  · have first : step s (.run p) = some (s.setPc p (.writeRelease (-1))) := by
      simp [step, State.run, at_, State.writeLoop, inside, full, killed]
    have second : step (s.setPc p (.writeRelease (-1))) (.run p) =
        some ((s.setPc p (.writeRelease (-1))).release p .idle) := by
      simp [step, State.run, State.setPc]
    exact run_cons.mpr ⟨_, first, run_singleton.mpr second⟩
  · intro q different
    simp [State.release, State.setPc, update_of_ne different]

/-- A reader that has given `p->lock` back in `sleep` is SLEEPING soon. -/
theorem falls_asleep (locks : LockInv s) (free : s.lock = none)
    (waits : (s.pc q).waitsOn = some .nread) :
    ∃ later next, run step s later = some next ∧ next.lock = none ∧ next.pipe = s.pipe ∧
      (next.pc q).sleeps = some (.nread, .asleep) := by
  rcases Pc.waitsOn_cases waits with holdsLock | holdsPtable | asleep
  · rw [(locks q).mp holdsLock] at free
    cases free
  · cases at_ : s.pc q with
    | readSleep count point =>
      rw [at_] at holdsPtable
      cases point with
      | setState =>
        refine ⟨[.run q], { s with ptable := none }.setPc q (.readSleep count .asleep), ?_,
          free, rfl, ?_⟩
        · rw [run_singleton]
          simp [step, State.run, at_, State.sleep, Pc.setSleep]
        · simp [State.setPc, Pc.sleeps]
      | releaseLk =>
        have holds : (s.pc q).holdsLock = true := by rw [at_]; rfl
        rw [(locks q).mp holds] at free
        cases free
      | _ => cases holdsPtable
    | writeSleep addr count i point =>
      rw [at_] at waits
      cases point <;> cases waits
    | _ =>
      rw [at_] at holdsPtable
      cases holdsPtable
  · exact ⟨[], s, rfl, free, rfl, asleep⟩

theorem WellFormed.empty_of_full (wf : WellFormed pipe) (full : pipe.full = true) :
    pipe.empty = false := by
  apply Bool.eq_false_iff.mpr
  intro empty
  have none_ := wf.empty_iff.mp empty
  rw [wf.full_iff.mp full] at none_
  cases none_

/-- A pipe loses no wakeup in a run in which no killed writer returns from a full pipe with a
reader left waiting; and it loses one soon after such a return. -/
theorem pipe_loses_no_wakeup {data : Fin pipesize → UInt8} {killed : Fin n → Bool}
    {actions : List (Action n)} {s : State n}
    (ran : run step (start data killed) actions = some s) :
    (AllSteps step NoReaderLeft (start data killed) actions → LosesNoWakeup s) ∧
      ∀ p, ¬ NoReaderLeft s (.run p) →
        ∃ later final, run step s later = some final ∧ ¬ LosesNoWakeup final := by
  constructor
  · intro meets
    have inv : WakeInv s :=
      run_invariant_of_allSteps WakeInv (fun inv allowed stepped =>
        inv.step allowed (Step.of_step stepped)) (WakeInv.start data killed) meets ran
    exact inv.losesNoWakeup
  · intro p leaves
    have watched : ∃ h, run (watch step observe) (start data killed, ⟨[], []⟩) actions =
        some (s, h) := watch_of_run _ ran
    obtain ⟨h, watched⟩ := watched
    have inv := StreamInv.run watched
    unfold NoReaderLeft at leaves
    push Not at leaves
    obtain ⟨writing, full, isKilled, q, waits⟩ := leaves
    cases at_ : s.pc p with
    | writeLoop addr count i =>
      rw [at_] at writing
      have inside : (i : Int) < count := of_decide_eq_true writing
      have different : q ≠ p := by
        intro isSelf
        rw [isSelf, at_] at waits
        cases waits
      obtain ⟨released, gaveUp, free, pipe, others⟩ := giveUp_steps at_ inside full isKilled
      have locks : LockInv released :=
        run_invariant LockInv (fun inv stepped => inv.step (Step.of_step stepped)) inv.locks
          gaveUp
      rw [← others q different] at waits
      obtain ⟨later, final, ran, stillFree, samePipe, asleep⟩ := falls_asleep locks free waits
      refine ⟨_, final, run_append.mpr ⟨released, gaveUp, ran⟩, ?_⟩
      intro losesNone
      apply (losesNone stillFree).1 (.inl _) q asleep
      rw [samePipe, pipe]
      exact inv.wf.empty_of_full full
    | _ =>
      rw [at_] at writing
      cases writing

/-- Process 1 sleeps in `piperead` until process 0 writes a byte. -/
def readThenWriteRun : List (Action 2) :=
  [.read 1 1, .run 1, .run 1, .run 1, .run 1, .run 1, .write 0 (fun _ => 0) 1, .run 0, .run 0,
    .run 0, .run 0, .run 0]

theorem pipe_loses_no_wakeup_readThenWrite :
    ∃ s : State 2,
      run step (start (fun _ => 0) (fun _ => false)) readThenWriteRun = some s ∧
        s.lock = none ∧ s.pipe.empty = false ∧ (s.pc 1).sleeps ≠ some (.nread, .asleep) := by
  have ends : ∃ s : State 2,
      run step (start (fun _ => 0) (fun _ => false)) readThenWriteRun = some s ∧
        s.lock = none ∧ s.pipe.empty = false :=
    ⟨_, rfl, rfl, rfl⟩
  have meets : AllSteps step NoReaderLeft (start (fun _ => 0) (fun _ => false))
      readThenWriteRun := by
    decide +kernel
  obtain ⟨s, ran, free, nonempty⟩ := ends
  have losesNone := (pipe_loses_no_wakeup ran).1 meets free
  exact ⟨s, ran, free, nonempty, losesNone.1 (.inl nonempty) 1⟩

/-! ## A run that loses a wakeup -/

/-- The loop of `pipewrite`, as long as there is room. -/
theorem run_store {i k : Nat} (wf : WellFormed s.pipe) (at_ : s.pc p = .writeLoop addr count i)
    (inside : (i + k : Nat) ≤ count) (room : used s.pipe + k ≤ pipesize) :
    ∃ next, run step s (List.replicate k (.run p)) = some next ∧
      next.pc p = .writeLoop addr count (i + k) ∧ WellFormed next.pipe ∧
      used next.pipe = used s.pipe + k ∧ next.killed = s.killed ∧
      ∀ q, q ≠ p → next.pc q = s.pc q := by
  induction k generalizing s i with
  | zero => exact ⟨s, rfl, at_, wf, rfl, rfl, fun _ _ => rfl⟩
  | succ k ih =>
    have notFull : s.pipe.full = false := by
      apply Bool.eq_false_iff.mpr
      intro full
      have all := wf.full_iff.mp full
      omega
    have more : (i : Int) < count := by omega
    have stored : step s (.run p) = some ({ s with pipe := s.pipe.store (addr i) }.setPc p
        (.writeLoop addr count (i + 1))) := by
      simp [step, State.run, at_, State.writeLoop, more, notFull]
    have usedStore := wf.used_store notFull (addr i)
    obtain ⟨next, ran, atNext, wfNext, usedNext, killed, others⟩ :=
      ih (s := { s with pipe := s.pipe.store (addr i) }.setPc p
        (.writeLoop addr count (i + 1))) (i := i + 1) (wf.store notFull (addr i))
        (update_self ..) (by omega)
        (show used (s.pipe.store (addr i)) + k ≤ pipesize by omega)
    refine ⟨next, run_cons.mpr ⟨_, stored, ran⟩, ?_, wfNext, ?_, killed, ?_⟩
    · rw [atNext]
      congr 1
      omega
    · rw [usedNext]
      show used (s.pipe.store (addr i)) + k = _
      omega
    · intro q different
      rw [others q different]
      exact update_of_ne different ..

/-- Process 1 sleeps in `piperead`; process 0 is killed and calls `pipewrite`. -/
def sleepingReaderRun : List (Action 2) :=
  [.read 1 1, .run 1, .run 1, .run 1, .run 1, .run 1, .kill 0,
    .write 0 (fun _ => 0) (pipesize + 1), .run 0]

/-- A killed writer fills the pipe, and the reader sleeps on. -/
theorem killed_writer_loses_wakeup :
    ∃ s : State 2,
      run step (start (fun _ => 0) (fun _ => false))
          (sleepingReaderRun ++ List.replicate pipesize (.run 0) ++ [.run 0, .run 0]) = some s ∧
        ¬ LosesNoWakeup s := by
  have begins : ∃ s : State 2,
      run step (start (fun _ => 0) (fun _ => false)) sleepingReaderRun = some s ∧
        s.pc 0 = .writeLoop (fun _ => 0) (pipesize + 1) 0 ∧
        (s.pc 1).sleeps = some (.nread, .asleep) ∧ s.killed 0 = true ∧
        s.pipe = Pipe.alloc fun _ => 0 :=
    ⟨_, rfl, rfl, rfl, rfl, rfl⟩
  obtain ⟨first, ran, at_, asleep, killed, pipe⟩ := begins
  have wf : WellFormed first.pipe := pipe ▸ WellFormed.alloc _
  have none_ : used first.pipe = 0 := by
    apply wf.empty_iff.mp
    rw [pipe]
    rfl
  obtain ⟨filled, stores, atEnd, wfFilled, all, sameKilled, others⟩ :=
    run_store (k := pipesize) wf at_ (by omega) (by omega)
  have full : filled.pipe.full = true := wfFilled.full_iff.mpr (by omega)
  rw [Nat.zero_add] at atEnd
  obtain ⟨final, gaveUp, free, samePipe, othersLeft⟩ :=
    giveUp_steps atEnd (by omega) full (sameKilled ▸ killed)
  refine ⟨final, run_append.mpr ⟨filled, run_append.mpr ⟨first, ran, stores⟩, gaveUp⟩, ?_⟩
  intro losesNone
  have nonempty : final.pipe.empty = false := samePipe ▸ wfFilled.empty_of_full full
  apply (losesNone free).1 (.inl nonempty) 1
  rw [othersLeft 1 (by decide), others 1 (by decide)]
  exact asleep

end Xv6.Pipe
