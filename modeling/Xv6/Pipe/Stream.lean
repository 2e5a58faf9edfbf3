import Xv6.Pipe.Model

/-!
The bytes that pass through a pipe.

Owns: the history of the bytes accepted and returned; the invariant that ties it to the ring
and to the reader in its copy loop; and the integrity of the stream.

Does not own: the ring itself (`RingBuffer`).
-/

namespace Xv6.Pipe

open Function (update update_self update_of_ne)

open TransitionSystem

variable {n : Nat} {s next : State n} {p q : Fin n} {pc : Pc} {found : Chan × SleepPc} {pipe : Pipe}

/-! ## History -/

structure History where
  /-- The bytes writes have stored, in order. -/
  accepted : List UInt8
  /-- The bytes reads have returned, in order. -/
  returned : List UInt8

def observe (before : State n) (a : Action n) (_after : State n) (h : History) : History :=
  match a with
  | .run p =>
    match before.pc p with
    | .writeLoop addr count i =>
      if i < count ∧ before.pipe.full = false then { h with accepted := h.accepted ++ [addr i] }
      else h
    | .readRelease _ (some got) => { h with returned := h.returned ++ got }
    | _ => h
  | _ => h

/-- The bytes a call of `piperead` has taken out of the ring and not yet returned. -/
def Pc.taken : Pc → List UInt8
  | .readCopy _ got => got
  | .readWake _ got => got
  | .readRelease _ (some got) => got
  | _ => []

/-- The bytes of the process that holds `p->lock`. -/
def State.inHand (s : State n) : List UInt8 :=
  match s.lock with
  | some p => (s.pc p).taken
  | none => []

/-- The bytes in the ring, oldest first. -/
def buffered (p : Pipe) : List UInt8 :=
  RingBuffer.contents uint p.data p.nread p.nwrite

/-- `p->nwrite - p->nread` -/
def used (p : Pipe) : Nat :=
  RingBuffer.count uint p.nread p.nwrite

/-- The counters are `uint`s and at most `PIPESIZE` apart. -/
structure WellFormed (p : Pipe) : Prop where
  readBound : p.nread < uint
  writeBound : p.nwrite < uint
  fits : used p ≤ pipesize

theorem pipesize_lt : pipesize < uint := by decide

theorem pipesize_dvd : pipesize ∣ uint := by decide

namespace WellFormed

variable {pipe : Pipe}

theorem full_iff (wf : WellFormed pipe) : pipe.full = true ↔ used pipe = pipesize := by
  rw [Pipe.full, decide_eq_true_iff]
  exact RingBuffer.full_iff wf.readBound wf.writeBound wf.fits pipesize_lt

theorem empty_iff (wf : WellFormed pipe) : pipe.empty = true ↔ used pipe = 0 := by
  rw [Pipe.empty, decide_eq_true_iff]
  exact RingBuffer.empty_iff wf.readBound wf.writeBound

theorem room (wf : WellFormed pipe) (notFull : pipe.full = false) : used pipe < pipesize := by
  have different : used pipe ≠ pipesize := by
    intro same
    rw [wf.full_iff.mpr same] at notFull
    cases notFull
  have fits := wf.fits
  omega

theorem some_ (wf : WellFormed pipe) (notEmpty : pipe.empty = false) : used pipe ≠ 0 := by
  intro none_
  rw [wf.empty_iff.mpr none_] at notEmpty
  cases notEmpty

theorem used_store (wf : WellFormed pipe) (notFull : pipe.full = false) (byte : UInt8) :
    used (pipe.store byte) = used pipe + 1 := by
  have room := wf.room notFull
  have modulus := pipesize_lt
  apply RingBuffer.count_write wf.readBound wf.writeBound
  show used pipe + 1 < uint
  omega

theorem used_fetch (wf : WellFormed pipe) (notEmpty : pipe.empty = false) :
    used pipe.fetch.2 + 1 = used pipe :=
  RingBuffer.count_read wf.readBound wf.writeBound (wf.some_ notEmpty)

theorem store (wf : WellFormed pipe) (notFull : pipe.full = false) (byte : UInt8) :
    WellFormed (pipe.store byte) where
  readBound := wf.readBound
  writeBound := Nat.mod_lt _ (by decide)
  fits := by
    rw [wf.used_store notFull]
    exact wf.room notFull

theorem fetch (wf : WellFormed pipe) (notEmpty : pipe.empty = false) :
    WellFormed pipe.fetch.2 where
  readBound := Nat.mod_lt _ (by decide)
  writeBound := wf.writeBound
  fits := by
    have fewer := wf.used_fetch notEmpty
    have fits := wf.fits
    omega

theorem close (wf : WellFormed pipe) (writable : Bool) : WellFormed (pipe.close writable) := by
  cases writable with
  | true | false => exact ⟨wf.readBound, wf.writeBound, wf.fits⟩

theorem alloc (data : Fin pipesize → UInt8) : WellFormed (Pipe.alloc data) := by
  have positive : 0 < uint := by decide
  refine ⟨positive, positive, ?_⟩
  show RingBuffer.count uint 0 0 ≤ pipesize
  decide

theorem buffered_store (wf : WellFormed pipe) (notFull : pipe.full = false) (byte : UInt8) :
    buffered (pipe.store byte) = buffered pipe ++ [byte] :=
  RingBuffer.contents_write wf.readBound wf.writeBound pipesize_dvd (wf.room notFull) pipesize_lt
    byte

theorem buffered_fetch (wf : WellFormed pipe) (notEmpty : pipe.empty = false) :
    buffered pipe = pipe.fetch.1 :: buffered pipe.fetch.2 :=
  RingBuffer.contents_read wf.readBound wf.writeBound pipesize_dvd (wf.some_ notEmpty)

end WellFormed

/-! ## The invariant -/

/-- What `piperead` has found out: past its first loop with nothing to read, the write end
is closed. -/
def Ended (pipe : Pipe) (pc : Pc) : Prop :=
  (∀ count, pc = .readCopy count [] → pipe.empty = true → pipe.writeopen = false) ∧
    ∀ count, pc = .readWake count [] ∨ pc = .readRelease count (some []) → 0 < count →
      pipe.empty = true ∧ pipe.writeopen = false

structure StreamInv (s : State n) (h : History) : Prop where
  locks : LockInv s
  wf : WellFormed s.pipe
  stream : h.returned ++ s.inHand ++ buffered s.pipe = h.accepted
  ended : ∀ p, Ended s.pipe (s.pc p)

theorem Pc.taken_wake (chan : Chan) (pc : Pc) : (pc.wake chan).taken = pc.taken := by
  unfold wake
  split
  · rename_i asleep
    cases pc with
    | writeSleep | readSleep => rfl
    | _ => cases asleep
  · rfl

theorem Pc.taken_of_sleeps (sleeps : pc.sleeps = some found) : pc.taken = [] := by
  cases pc with
  | writeSleep | readSleep => rfl
  | _ => cases sleeps

theorem inHand_congr (lock : next.lock = s.lock)
    (taken : ∀ q, (next.pc q).taken = (s.pc q).taken) : next.inHand = s.inHand := by
  unfold State.inHand
  rw [lock]
  cases s.lock with
  | none => rfl
  | some q => exact taken q

theorem taken_update (same : pc.taken = (s.pc p).taken) (q : Fin n) :
    (update s.pc p pc q).taken = (s.pc q).taken :=
  Update.cases q same fun _ => rfl

theorem inHand_of_holds (locks : LockInv s) (holds : (s.pc p).holdsLock = true) :
    s.inHand = (s.pc p).taken := by
  unfold State.inHand
  rw [(locks p).mp holds]

/-! ## Preservation -/

theorem Ended.of_other (copy : ∀ count, pc ≠ .readCopy count [])
    (wake : ∀ count, pc ≠ .readWake count []) (release : ∀ count, pc ≠ .readRelease count (some [])) :
    Ended pipe pc := by
  constructor
  · intro count at_
    exact absurd at_ (copy count)
  · intro count at_
    exact at_.elim (fun at_ => absurd at_ (wake count)) (fun at_ => absurd at_ (release count))

theorem Ended.of_sleeps (sleeps : pc.sleeps = some found) : Ended pipe pc := by
  cases pc with
  | writeSleep | readSleep => exact .of_other (by simp) (by simp) (by simp)
  | _ => cases sleeps

theorem Ended.of_not_holds (free : pc.holdsLock = false) : Ended pipe pc := by
  constructor
  · intro count at_
    rw [at_] at free
    cases free
  · intro count at_
    rcases at_ with at_ | at_ <;> rw [at_] at free <;> cases free

variable {h : History} {pc before : Pc}

theorem observe_enters (at_ : s.pc p = before) (enters : Enters before pc) :
    observe s (.run p) next h = h := by
  cases enters <;> simp [observe, at_]

theorem observe_tests (at_ : s.pc p = before) (tests : Tests s p before pc) :
    observe s (.run p) next h = h := by
  cases tests with
  | giveUp _ full | full _ full => simp [observe, at_, full]
  | written done => simp [observe, at_, done]
  | _ => simp [observe, at_]

variable {chan : Chan}

theorem observe_wakes (at_ : s.pc p = before) (wakes : Wakes before chan pc) :
    observe s (.run p) next h = h := by
  cases wakes <;> simp [observe, at_]

theorem observe_sleeps (sleeps : (s.pc p).sleeps = some found) : observe s (.run p) next h = h := by
  cases at_ : s.pc p with
  | writeSleep | readSleep => simp [observe, at_]
  | _ => simp [at_, Pc.sleeps] at sleeps

variable {count : Int}

namespace StreamInv

/-- A step that leaves the ring, the bytes in hand and the history as they are. -/
theorem quiet (inv : StreamInv s h) (locks : LockInv next) (pipe : next.pipe = s.pipe)
    (inHand : next.inHand = s.inHand) (ended : ∀ q, Ended s.pipe (next.pc q)) :
    StreamInv next h where
  locks := locks
  wf := by
    rw [pipe]
    exact inv.wf
  stream := by
    rw [inHand, pipe]
    exact inv.stream
  ended q := by
    rw [pipe]
    exact ended q

theorem ended_update (inv : StreamInv s h) (ended : Ended s.pipe pc) (q : Fin n) :
    Ended s.pipe (update s.pc p pc q) :=
  Update.cases q ended fun _ => inv.ended q

/-- The lock holder changes the pipe: no other process is at a point that reads it. -/
theorem ended_of_holder (inv : StreamInv s h) (holds : (s.pc p).holdsLock = true)
    (ended : Ended pipe pc) (q : Fin n) : Ended pipe (update s.pc p pc q) := by
  refine Update.cases q ended fun isOther => ?_
  apply Ended.of_not_holds
  apply Bool.eq_false_iff.mpr
  intro alsoHolds
  exact isOther (inv.locks.unique holds alsoHolds)

theorem ended_test (inv : StreamInv s h) (at_ : s.pc p = before) (tests : Tests s p before pc) :
    Ended s.pipe pc := by
  cases tests with
  | copy ready =>
    constructor
    · intro count isCopy empty
      exact ready empty
    · intro count other
      rcases other with other | other <;> cases other
  | copied done =>
    constructor
    · intro count isCopy
      cases isCopy
    · intro count isWake positive
      rcases isWake with isWake | isWake <;> cases isWake
      have empty := done positive
      exact ⟨empty, (inv.ended p).1 _ at_ empty⟩
  | _ => exact .of_other (by simp) (by simp) (by simp)

theorem ended_wake (inv : StreamInv s h) (at_ : s.pc p = before) (wakes : Wakes before chan pc) :
    Ended s.pipe pc := by
  cases wakes with
  | read =>
    constructor
    · intro count other
      cases other
    · intro count isRelease
      rcases isRelease with isRelease | isRelease <;> cases isRelease
      exact (inv.ended p).2 _ (.inl at_)
  | _ => exact .of_other (by simp) (by simp) (by simp)

theorem store (inv : StreamInv s h) {addr : Bytes} {i : Nat}
    (at_ : s.pc p = .writeLoop addr count i) (room : s.pipe.full = false)
    (locks : LockInv ({ s with pipe := s.pipe.store (addr i) }.setPc p
      (.writeLoop addr count (i + 1)))) :
    StreamInv ({ s with pipe := s.pipe.store (addr i) }.setPc p (.writeLoop addr count (i + 1)))
      { h with accepted := h.accepted ++ [addr i] } where
  locks := locks
  wf := inv.wf.store room (addr i)
  stream := by
    have inHand : ({ s with pipe := s.pipe.store (addr i) }.setPc p
        (.writeLoop addr count (i + 1))).inHand = s.inHand :=
      inHand_congr rfl (taken_update (by rw [at_]; rfl))
    rw [inHand]
    show _ ++ buffered (s.pipe.store (addr i)) = _
    rw [inv.wf.buffered_store room, ← List.append_assoc, inv.stream]
  ended := by
    have holds : (s.pc p).holdsLock = true := by rw [at_]; rfl
    exact inv.ended_of_holder holds (.of_other (by simp) (by simp) (by simp))

theorem fetch (inv : StreamInv s h) {got : List UInt8} (at_ : s.pc p = .readCopy count got)
    (some_ : s.pipe.empty = false) (locks : LockInv ({ s with pipe := s.pipe.fetch.2 }.setPc p
      (.readCopy count (got ++ [s.pipe.fetch.1])))) :
    StreamInv ({ s with pipe := s.pipe.fetch.2 }.setPc p
      (.readCopy count (got ++ [s.pipe.fetch.1]))) h where
  locks := locks
  wf := inv.wf.fetch some_
  stream := by
    have holds : (s.pc p).holdsLock = true := by rw [at_]; rfl
    have before : s.inHand = got := by rw [inHand_of_holds inv.locks holds, at_]; rfl
    have after : ({ s with pipe := s.pipe.fetch.2 }.setPc p
        (.readCopy count (got ++ [s.pipe.fetch.1]))).inHand = got ++ [s.pipe.fetch.1] := by
      simp [State.inHand, State.setPc, (inv.locks p).mp holds, Pc.taken]
    have stream := inv.stream
    rw [before, inv.wf.buffered_fetch some_] at stream
    rw [after, ← stream]
    show _ ++ buffered s.pipe.fetch.2 = _
    simp only [List.append_assoc, List.singleton_append]
  ended := by
    have holds : (s.pc p).holdsLock = true := by rw [at_]; rfl
    exact inv.ended_of_holder holds (.of_other (by simp) (by simp) (by simp))

theorem closeEnd (inv : StreamInv s h) {writable : Bool} (at_ : s.pc p = .closeSet writable)
    (locks : LockInv ({ s with pipe := s.pipe.close writable }.setPc p (.closeWake writable))) :
    StreamInv ({ s with pipe := s.pipe.close writable }.setPc p (.closeWake writable)) h where
  locks := locks
  wf := inv.wf.close writable
  stream := by
    have inHand : ({ s with pipe := s.pipe.close writable }.setPc p
        (.closeWake writable)).inHand = s.inHand :=
      inHand_congr rfl (taken_update (by rw [at_]; rfl))
    have ring : buffered (s.pipe.close writable) = buffered s.pipe := by
      cases writable <;> rfl
    rw [inHand]
    show _ ++ buffered (s.pipe.close writable) = _
    rw [ring, inv.stream]
  ended := by
    have holds : (s.pc p).holdsLock = true := by rw [at_]; rfl
    exact inv.ended_of_holder holds (.of_other (by simp) (by simp) (by simp))

/-- A call returns. -/
theorem leave (inv : StreamInv s h) (leaves : Leaves (s.pc p))
    (locks : LockInv (s.release p .idle)) :
    StreamInv (s.release p .idle) (observe s (.run p) (s.release p .idle) h) := by
  have holds : (s.pc p).holdsLock = true := by
    generalize s.pc p = before at leaves
    cases leaves <;> rfl
  have returned : (observe s (.run p) (s.release p .idle) h).returned =
      h.returned ++ (s.pc p).taken := by
    cases at_ : s.pc p with
    | readRelease count result => cases result <;> simp [observe, at_, Pc.taken]
    | writeRelease | closeRelease => simp [observe, at_, Pc.taken]
    | _ =>
      rw [at_] at leaves
      cases leaves
  have accepted : (observe s (.run p) (s.release p .idle) h).accepted = h.accepted := by
    cases at_ : s.pc p with
    | readRelease count result => cases result <;> simp [observe, at_]
    | writeRelease | closeRelease => simp [observe, at_]
    | _ =>
      rw [at_] at leaves
      cases leaves
  refine ⟨locks, inv.wf, ?_, inv.ended_update (.of_other (by simp) (by simp) (by simp))⟩
  have stream := inv.stream
  rw [inHand_of_holds inv.locks holds] at stream
  have inHand : (s.release p .idle).inHand = [] := rfl
  rw [returned, accepted, inHand, List.append_nil]
  exact stream

/-- A statement of a call that touches no byte. -/
theorem quiet_run (inv : StreamInv s h) (locks : LockInv next) (pipe : next.pipe = s.pipe)
    (lock : next.lock = s.lock) (update : next.pc = update s.pc p pc)
    (taken : pc.taken = (s.pc p).taken) (ended : Ended s.pipe pc) : StreamInv next h := by
  apply inv.quiet locks pipe
  · apply inHand_congr lock
    rw [update]
    exact taken_update taken
  · rw [update]
    exact inv.ended_update ended

theorem enter (inv : StreamInv s h) (free : s.lock = none) (enters : Enters (s.pc p) pc)
    (locks : LockInv ({ s with lock := some p }.setPc p pc)) :
    StreamInv ({ s with lock := some p }.setPc p pc) h := by
  have other : pc.taken = [] ∧ Ended s.pipe pc := by
    generalize s.pc p = before at enters
    cases enters <;> exact ⟨rfl, .of_other (by simp) (by simp) (by simp)⟩
  apply inv.quiet locks rfl
  · have before : s.inHand = [] := by
      unfold State.inHand
      rw [free]
    rw [before, ← other.1]
    show (update s.pc p pc p).taken = _
    rw [update_self]
  · exact inv.ended_update other.2

theorem wakeup (inv : StreamInv s h) (wakes : Wakes (s.pc p) chan pc)
    (locks : LockInv ({ s with pc := fun q => (s.pc q).wake chan }.setPc p pc)) :
    StreamInv ({ s with pc := fun q => (s.pc q).wake chan }.setPc p pc) h := by
  have woken : StreamInv { s with pc := fun q => (s.pc q).wake chan } h := by
    apply inv.quiet (inv.locks.woken chan) rfl
    · exact inHand_congr rfl fun q => Pc.taken_wake chan (s.pc q)
    · intro q
      cases holds : (s.pc q).holdsLock with
      | false =>
        apply Ended.of_not_holds
        exact (Pc.holdsLock_wake chan (s.pc q)).trans holds
      | true =>
        show Ended s.pipe ((s.pc q).wake chan)
        rw [Pc.wake_of_holds chan holds]
        exact inv.ended q
  apply woken.quiet_run locks rfl rfl rfl
  · show pc.taken = ((s.pc p).wake chan).taken
    rw [Pc.taken_wake]
    generalize s.pc p = before at wakes
    cases wakes <;> rfl
  · exact inv.ended_wake rfl wakes

theorem sleeps (inv : StreamInv s h) {at_ to_ : SleepPc}
    (sleeps : (s.pc p).sleeps = some (chan, at_)) (locks : LockInv next) (pipe : next.pipe = s.pipe)
    (lock : next.lock = s.lock ∨ at_ = .releaseLk ∧ next.lock = none)
    (update : next.pc = update s.pc p ((s.pc p).setSleep to_)) : StreamInv next h := by
  have after := Pc.sleeps_setSleep to_ sleeps
  have taken : ((s.pc p).setSleep to_).taken = (s.pc p).taken := by
    rw [Pc.taken_of_sleeps after, Pc.taken_of_sleeps sleeps]
  have ended : Ended s.pipe ((s.pc p).setSleep to_) := Ended.of_sleeps after
  rcases lock with lock | ⟨atRelease, lock⟩
  · exact inv.quiet_run locks pipe lock update taken ended
  · apply inv.quiet locks pipe
    · have holds := (Pc.holdsLock_of_sleeps sleeps).mpr (.inr atRelease)
      rw [inHand_of_holds inv.locks holds, Pc.taken_of_sleeps sleeps]
      unfold State.inHand
      rw [lock]
    · rw [update]
      exact inv.ended_update ended

theorem step {a : Action n} (inv : StreamInv s h) (stepped : Step s a next) :
    StreamInv next (observe s a next h) := by
  have locks := inv.locks.step stepped
  cases stepped with
  | write idle | read idle | close idle =>
    apply inv.quiet_run locks rfl rfl rfl
    · rw [idle]; rfl
    · exact .of_other (by simp) (by simp) (by simp)
  | enter free enters =>
    rw [observe_enters rfl enters]
    exact inv.enter free enters locks
  | @test p pc tests =>
    rw [observe_tests rfl tests]
    apply inv.quiet_run locks rfl rfl rfl
    · generalize s.pc p = before at tests
      cases tests <;> rfl
    · exact inv.ended_test rfl tests
  | store at_ inside room =>
    have observed := inv.store at_ room locks
    simpa [observe, at_, inside, room] using observed
  | fetch at_ inside some_ =>
    have observed := inv.fetch at_ some_ locks
    simpa [observe, at_] using observed
  | closeEnd at_ =>
    have observed := inv.closeEnd at_ locks
    simpa [observe, at_] using observed
  | wakeup free wakes =>
    rw [observe_wakes rfl wakes]
    exact inv.wakeup wakes locks
  | lockPtable _ sleeps | fallAsleep sleeps =>
    rw [observe_sleeps sleeps]
    exact inv.sleeps sleeps locks rfl (.inl rfl) rfl
  | unlock sleeps =>
    rw [observe_sleeps sleeps]
    exact inv.sleeps sleeps locks rfl (.inr ⟨rfl, rfl⟩) rfl
  | leave leaves => exact inv.leave leaves locks
  | kill free hit =>
    rcases hit with ⟨chan, sleeps, rfl⟩ | rfl
    · exact inv.sleeps sleeps locks rfl (.inl rfl) rfl
    · exact inv.quiet_run locks rfl rfl rfl rfl (inv.ended _)

theorem start (data : Fin pipesize → UInt8) (killed : Fin n → Bool) :
    StreamInv (Pipe.start data killed) ⟨[], []⟩ where
  locks := LockInv.start data killed
  wf := WellFormed.alloc data
  stream := by
    have positive : 0 < uint := by decide
    have ring : buffered (Pipe.alloc data) = [] := RingBuffer.contents_self data positive
    show [] ++ [] ++ buffered (Pipe.alloc data) = []
    rw [ring]
    rfl
  ended _ := Ended.of_not_holds rfl

theorem run {data : Fin pipesize → UInt8} {killed : Fin n → Bool} {actions : List (Action n)}
    (ran : TransitionSystem.run (watch Pipe.step observe) (Pipe.start data killed, ⟨[], []⟩) actions =
      some (s, h)) : StreamInv s h := by
  apply run_invariant (fun watched => StreamInv watched.1 watched.2) _ (start data killed) ran
  intro before a after inv stepped
  obtain ⟨moved, observed⟩ := watch_eq_some.mp stepped
  rw [observed]
  exact inv.step (Step.of_step moved)

end StreamInv

/-! ## Stream integrity -/

/-- A pipe passes its bytes on in order, loses none and adds none, and a read of some bytes
returns none only at the end of the stream. -/
theorem pipe_stream_integrity {data : Fin pipesize → UInt8} {killed : Fin n → Bool}
    {actions : List (Action n)} {s : State n} {h : History}
    (ran : run (watch step observe) (start data killed, ⟨[], []⟩) actions = some (s, h)) :
    used s.pipe ≤ pipesize ∧
      h.returned ++ s.inHand ++ buffered s.pipe = h.accepted ∧
      (s.lock = none → h.returned ++ buffered s.pipe = h.accepted) ∧
      ∀ p count, s.pc p = .readRelease count (some []) → 0 < count →
        s.pipe.empty = true ∧ s.pipe.writeopen = false := by
  have inv := StreamInv.run ran
  refine ⟨inv.wf.fits, inv.stream, ?_, ?_⟩
  · intro free
    have stream := inv.stream
    unfold State.inHand at stream
    rw [free, List.append_nil] at stream
    exact stream
  · intro p count returns positive
    exact (inv.ended p).2 count (.inr returns) positive

/-- One process writes three bytes and reads two of them. -/
def writeReadRun : List (Action 1) :=
  .write 0 (fun i => UInt8.ofNat (97 + i)) 3 :: List.replicate 7 (.run 0) ++
    .read 0 2 :: List.replicate 7 (.run 0)

theorem pipe_stream_integrity_writeRead :
    ∃ (s : State 1) (h : History),
      run (watch step observe) (start (fun _ => 0) (fun _ => false), ⟨[], []⟩) writeReadRun =
        some (s, h) ∧
      h.accepted = [97, 98, 99] ∧ h.returned = [97, 98] ∧ s.lock = none ∧
      h.returned ++ buffered s.pipe = h.accepted := by
  refine exists_of_view (fun watched => (watched.2.accepted, watched.2.returned, watched.1.lock))
    ([97, 98, 99], [97, 98], none) (by decide +kernel) fun s h ran observed => ?_
  simp only [Prod.mk.injEq] at observed
  obtain ⟨accepted, returned, free⟩ := observed
  exact ⟨accepted, returned, free, (pipe_stream_integrity ran).2.2.1 free⟩

end Xv6.Pipe
