import Xv6.Sync.Blocking

/-!
The ticks that `sys_sleep` waits for.

Owns: what a call of `sys_sleep` does, from its first test to its result, in any interleaving
with ticks and wakeups; and for which arguments and tests that is waiting for the ticks asked for.

Does not own: processes that are killed in it (`Xv6.Sync.Blocking`).
-/

namespace Xv6.Blocking

open Function (update update_self update_of_ne)
open TransitionSystem
open Xv6.Console (Input)
open Xv6.Pipe (SleepPc)

variable {n : Nat} {s s' t : State n} {p q : Fin n} {action : Action n}

/-! ## Who holds the locks -/

/-- The lock of its call that a process holds. -/
def Pc.held : Pc → Option Lock
  | .loop call | .check call | .nudge call | .wake call | .release call
  | .sleep call .acquirePtable | .sleep call .releaseLk => some call.lock
  | _ => none

def Pc.holdsPtable : Pc → Bool
  | .sleep _ .releaseLk | .sleep _ .setState => true
  | _ => false

structure Owns (s : State n) : Prop where
  lock : ∀ q l, (s.pc q).held = some l → s.lock l = some q
  ptable : ∀ q, (s.pc q).holdsPtable = true → s.ptable = some q

theorem Pc.held_wakeup (pc : Pc) (chan : Chan) :
    (pc.wakeup chan).held = pc.held ∧ (pc.wakeup chan).holdsPtable = pc.holdsPtable := by
  unfold Pc.wakeup
  split
  · split <;> exact ⟨rfl, rfl⟩
  · exact ⟨rfl, rfl⟩

theorem Pc.place_wakeup (pc : Pc) (chan : Chan) : (pc.wakeup chan).place = pc.place := by
  unfold Pc.wakeup
  split
  · rename_i call
    split
    · cases call <;> rfl
    · rfl
  · rfl

/-- What `p` does, as far as the others can tell: it takes only free locks and gives back only its
own. -/
theorem Owns.of_turn (owns : Owns s) (pc : Pc) (others : t.pc = s.pc)
    (lock : ∀ l r, r ≠ p → s.lock l = some r → t.lock l = some r)
    (ptable : ∀ r, r ≠ p → s.ptable = some r → t.ptable = some r)
    (held : ∀ l, pc.held = some l → t.lock l = some p)
    (holds : pc.holdsPtable = true → t.ptable = some p) : Owns (t.setPc p pc) := by
  constructor
  · intro q
    change ∀ l, (update t.pc p pc q).held = some l → t.lock l = some q
    refine Update.cases q held fun different l isHeld => ?_
    exact lock l q different (owns.lock q l (others ▸ isHeld))
  · intro q
    change (update t.pc p pc q).holdsPtable = true → t.ptable = some q
    refine Update.cases q holds fun different isHeld => ?_
    exact ptable q different (owns.ptable q (others ▸ isHeld))

/-- The process goes on with what it holds. -/
theorem Owns.setPc (owns : Owns s) (pc : Pc) (held : pc.held = (s.pc p).held)
    (holds : pc.holdsPtable = (s.pc p).holdsPtable) : Owns (s.setPc p pc) := by
  refine owns.of_turn pc rfl (fun _ _ _ => id) (fun _ _ => id) ?_ ?_
  · rw [held]
    exact owns.lock p
  · rw [holds]
    exact owns.ptable p

theorem wakeupIf_held {chan : Option Chan} (woken : s.wakeupIf chan = some t) :
    t.lock = s.lock ∧ t.ptable = s.ptable ∧
      ∀ q, (t.pc q).held = (s.pc q).held ∧ (t.pc q).holdsPtable = (s.pc q).holdsPtable := by
  cases chan with
  | none =>
    cases woken
    exact ⟨rfl, rfl, fun _ => ⟨rfl, rfl⟩⟩
  | some chan =>
    simp only [State.wakeupIf, State.wakeup, Option.ite_none_right_eq_some,
      Option.some.injEq] at woken
    rw [← woken.2]
    exact ⟨rfl, rfl, fun _ => Pc.held_wakeup _ _⟩

theorem Owns.wakeupIf {chan : Option Chan} (owns : Owns s) (woken : s.wakeupIf chan = some t) :
    Owns t := by
  obtain ⟨lock, ptable, same⟩ := wakeupIf_held woken
  refine ⟨fun q => ?_, fun q => ?_⟩
  · rw [(same q).1, lock]
    exact owns.lock q
  · rw [(same q).2, ptable]
    exact owns.ptable q

theorem Owns.wakeup {chan : Chan} (owns : Owns s) (woken : s.wakeup chan = some t) : Owns t :=
  owns.wakeupIf (show s.wakeupIf (some chan) = some t from woken)

theorem Owns.devices (owns : Owns s) (pipe : Nat → Pipe) (input : Input) (ticks : UInt32) :
    Owns { s with pipe := pipe, input := input, ticks := ticks } :=
  ⟨owns.lock, owns.ptable⟩

/-- A lock that is free is taken, or one that is held given back. -/
theorem Owns.setLock (owns : Owns s) (l : Lock) (owner : Option (Fin n)) (pc : Pc)
    (mine : s.lock l = none ∨ s.lock l = some p) (held : pc.held = owner.map fun _ => l)
    (self : owner = none ∨ owner = some p) (holds : pc.holdsPtable = (s.pc p).holdsPtable) :
    Owns ({ s with lock := update s.lock l owner }.setPc p pc) := by
  refine owns.of_turn pc rfl ?_ (fun _ _ => id) ?_ ?_
  · intro l' r different owned
    show update s.lock l owner l' = some r
    rw [update_of_ne, owned]
    rintro rfl
    rcases mine with free | own
    · cases free.symm.trans owned
    · exact different (Option.some.inj (owned.symm.trans own))
  · intro l' isHeld
    rw [held] at isHeld
    rcases self with rfl | rfl
    · cases isHeld
    · cases isHeld
      exact update_self ..
  · rw [holds]
    exact owns.ptable p

theorem Owns.loop {call : Call} (owns : Owns s) (place : s.pc p = .loop call) :
    Owns (s.loop p call) := by
  have goes {t : State n} {pc : Pc} (same : Owns t) (at_ : t.pc p = .loop call)
      (held : pc.held = some call.lock) (holds : pc.holdsPtable = false) : Owns (t.setPc p pc) :=
    same.setPc pc (by rw [at_, held]; rfl) (by rw [at_, holds]; rfl)
  cases call with
  | pipewrite =>
    simp only [State.loop]
    split
    · split <;> exact goes (owns.devices _ _ _) place rfl rfl
    · exact goes owns place rfl rfl
  | piperead | sysSleep =>
    simp only [State.loop]
    split <;> exact goes (owns.devices _ _ _) place rfl rfl
  | consoleread =>
    simp only [State.loop, State.readChar]
    split
    · split
      · exact goes owns place rfl rfl
      · split
        · split <;> exact goes (owns.devices _ _ _) place rfl rfl
        · split <;> exact goes (owns.devices _ _ _) place rfl rfl
    · exact goes owns place rfl rfl

theorem Owns.sleep {call : Call} {at_ : SleepPc} (owns : Owns s) (place : s.pc p = .sleep call at_)
    (slept : s.sleep p call at_ = some s') : Owns s' := by
  cases at_ with
  | acquirePtable =>
    simp only [State.sleep, Option.ite_none_right_eq_some, Option.some.injEq] at slept
    obtain ⟨free, rfl⟩ := slept
    refine owns.of_turn _ rfl (fun _ _ _ => id) ?_ ?_ (fun _ => rfl)
    · intro r _ owned
      cases free.symm.trans owned
    · intro l isHeld
      exact owns.lock p l (by rw [place]; exact isHeld)
  | releaseLk =>
    cases slept
    have own : s.lock call.lock = some p := owns.lock p _ (by rw [place]; rfl)
    exact owns.setLock call.lock none _ (.inr own) rfl (.inl rfl) (by rw [place]; rfl)
  | setState =>
    cases slept
    have own : s.ptable = some p := owns.ptable p (by rw [place]; rfl)
    refine owns.of_turn _ rfl (fun _ _ _ => id) ?_ ?_ ?_
    · intro r different owned
      exact absurd (Option.some.inj (owned.symm.trans own)) different
    · rintro _ ⟨⟩
    · rintro ⟨⟩
  | asleep => cases slept
  | acquireLk =>
    simp only [State.sleep, Option.ite_none_right_eq_some, Option.some.injEq] at slept
    obtain ⟨free, rfl⟩ := slept
    exact owns.setLock call.lock (some p) _ (.inl free) rfl (.inr rfl) (by rw [place]; rfl)

theorem Owns.run (owns : Owns s) (ran : s.run p = some s') : Owns s' := by
  -- A `wakeup` changes nothing that is held.
  have woken {chan : Option Chan} {pc : Pc} (ran : (s.wakeupIf chan).map (·.setPc p pc) = some s')
      (held : pc.held = (s.pc p).held) (holds : pc.holdsPtable = (s.pc p).holdsPtable) : Owns s' := by
    obtain ⟨next, woken, rfl⟩ := Option.map_eq_some_iff.mp ran
    obtain ⟨held', holds'⟩ := (wakeupIf_held woken).2.2 p
    exact (owns.wakeupIf woken).setPc pc (held.trans held'.symm) (holds.trans holds'.symm)
  unfold State.run at ran
  split at ran
  · cases ran
  · rename_i call place
    simp only [Option.ite_none_right_eq_some, Option.some.injEq] at ran
    obtain ⟨free, rfl⟩ := ran
    exact owns.setLock call.lock (some p) _ (.inl free) (by cases call <;> rfl) (.inr rfl)
      (by rw [place]; rfl)
  · cases ran
    exact owns.loop ‹_›
  · rename_i call place
    cases ran
    refine owns.setPc _ ?_ ?_ <;> rw [place] <;> split <;> rfl
  · rename_i call place
    exact woken ran (by rw [place]; rfl) (by rw [place]; rfl)
  · exact owns.sleep ‹_› ran
  · rename_i call place
    exact woken ran (by rw [place]; rfl) (by rw [place]; rfl)
  · rename_i call place
    cases ran
    have own : s.lock call.lock = some p := owns.lock p _ (by rw [place]; rfl)
    exact owns.setLock call.lock none _ (.inr own) rfl (.inl rfl) (by rw [place]; rfl)

theorem Owns.step (owns : Owns s) (taken : step s action = some s') : Owns s' := by
  cases action with
  | call p call =>
    simp only [Blocking.step] at taken
    split at taken
    · rename_i idle
      cases taken
      exact owns.setPc _ (by rw [idle]; rfl) (by rw [idle]; rfl)
    · cases taken
  | run p => exact owns.run taken
  | kill p =>
    simp only [Blocking.step, Option.ite_none_right_eq_some, Option.some.injEq] at taken
    rw [← taken.2]
    have same : Owns { s with killed := update s.killed p true } :=
      ⟨owns.lock, owns.ptable⟩
    refine same.setPc _ ?_ ?_
    · show Pc.held _ = (s.pc p).held
      split <;> simp_all [Pc.held]
    · show Pc.holdsPtable _ = (s.pc p).holdsPtable
      split <;> simp_all [Pc.holdsPtable]
  | timer =>
    simp only [Blocking.step, Option.ite_none_right_eq_some] at taken
    exact (owns.devices _ _ _).wakeup taken.2
  | keyboard c =>
    simp only [Blocking.step, Option.ite_none_right_eq_some] at taken
    exact (owns.devices _ _ _).wakeupIf taken.2
  | pipeclose k writable =>
    simp only [Blocking.step, Option.ite_none_right_eq_some] at taken
    exact (owns.devices _ _ _).wakeup taken.2

theorem Owns.boot (pipe : Nat → Pipe) (input : Input) (ticks : UInt32) (killed : Fin n → Bool) :
    Owns (boot pipe input ticks killed) := by
  constructor
  · rintro _ _ ⟨⟩
  · rintro _ ⟨⟩

/-- The timer finds nobody between the first test and SLEEPING. -/
theorem Owns.of_timer (owns : Owns s) (taken : Blocking.step s .timer = some s') {place : Place}
    {count ticks0 : UInt32} (at_ : (s.pc q).place = some (place, count, ticks0)) :
    place = .asleep := by
  simp only [Blocking.step, State.wakeup, Option.ite_none_right_eq_some] at taken
  obtain ⟨free, freePtable, -⟩ := taken
  have noLock := owns.lock q .tickslock
  have noPtable := owns.ptable q
  rw [free] at noLock
  rw [show s.ptable = none from freePtable] at noPtable
  unfold Pc.place at at_
  split at at_ <;> cases at_
  all_goals first
    | rfl
    | (rename_i isPc; rw [isPc] at noLock noPtable; first | cases noLock rfl | cases noPtable rfl)

/-! ## A call -/

/-- What a process has done since it read `ticks0`. -/
structure Waiting where
  n : UInt32
  /-- The ticks since then. -/
  elapsed : Nat
  /-- The ticks that had elapsed at each test of the condition, and each time it fell asleep. -/
  tests : List Nat
  slept : List Nat
  /-- The result, and the ticks that had elapsed. -/
  returned : Option (Int × Nat)

namespace Waiting

def start : Waiting := ⟨0, 0, [], [], none⟩

def follow (w : Waiting) :
    Option (Place × UInt32 × UInt32) → Option (Place × UInt32 × UInt32) → Waiting
  | none, some (.test, n, _) => ⟨n, 0, [], [], none⟩
  | some (.test, _), some (.falling, _) => { w with tests := w.elapsed :: w.tests }
  | some (.test, _), some (.leaving, _) =>
    { w with tests := w.elapsed :: w.tests, returned := some (0, w.elapsed) }
  | some (.falling, _), some (.leaving, _) => { w with returned := some (-1, w.elapsed) }
  | some (.falling, _), some (.asleep, _) => { w with slept := w.elapsed :: w.slept }
  | _, _ => w

theorem follow_self (w : Waiting) (at_ : Option (Place × UInt32 × UInt32)) :
    w.follow at_ at_ = w := by
  rcases at_ with _ | ⟨_ | _ | _ | _, _⟩ <;> rfl

/-- The call has only slept while the ticks asked for had not elapsed, and has only returned, with
result 0, when they had. -/
def Proper (w : Waiting) : Prop :=
  (∀ t ∈ w.slept, (t : Int) < w.n.toInt32.toInt) ∧
    ∀ r t, w.returned = some (r, t) → r = 0 ∧ w.n.toInt32.toInt ≤ t

/-- In the loop. The condition was true whenever the process slept, and the first test is made
before any tick. -/
structure InLoop (ticks n ticks0 : UInt32) (w : Waiting) : Prop where
  arg : w.n = n
  counts : ticks - ticks0 = UInt32.ofNat w.elapsed
  running : w.returned = none
  slept : ∀ t ∈ w.slept, t % 2 ^ 32 < n.toNat
  first : w.tests ≠ [] → 0 ∈ w.tests

/-- Past the loop, without having been killed. -/
structure Left (w : Waiting) (r : Int) (t : Nat) : Prop where
  result : r = 0
  tests : w.tests = t :: w.slept
  past : w.n.toNat ≤ t % 2 ^ 32
  slept : ∀ t ∈ w.slept, t % 2 ^ 32 < w.n.toNat
  first : 0 ∈ w.tests

/-- What is known at each place. -/
def Sound (ticks : UInt32) (w : Waiting) : Option (Place × UInt32 × UInt32) → Prop
  | some (.test, n, ticks0) =>
    InLoop ticks n ticks0 w ∧ w.tests = w.slept ∧ (w.tests = [] → w.elapsed = 0)
  | some (.falling, n, ticks0) =>
    InLoop ticks n ticks0 w ∧ w.tests = w.elapsed :: w.slept ∧ w.elapsed % 2 ^ 32 < n.toNat
  | some (.asleep, n, ticks0) => InLoop ticks n ticks0 w ∧ w.tests = w.slept ∧ w.tests ≠ []
  | some (.leaving, _) => ∃ t, w.returned = some (0, t) ∧ w.Left 0 t
  | none => ∀ r t, w.returned = some (r, t) → w.Left r t

variable {w : Waiting} {ticks count ticks0 : UInt32}

theorem Sound.left {at_ : Option (Place × UInt32 × UInt32)} {r : Int} {t : Nat}
    (sound : Sound ticks w at_) (returned : w.returned = some (r, t)) : w.Left r t := by
  match at_ with
  | none => exact sound r t returned
  | some (.leaving, _) =>
    obtain ⟨t', returned', left⟩ := sound
    cases returned.symm.trans returned'
    exact left
  | some (.test, _, _) | some (.falling, _, _) | some (.asleep, _, _) =>
    cases sound.1.running.symm.trans returned

theorem InLoop.test_iff (inLoop : InLoop ticks count ticks0 w) :
    ticks - ticks0 < count ↔ w.elapsed % 2 ^ 32 < count.toNat := by
  rw [inLoop.counts, UInt32.lt_iff_toNat_lt, UInt32.toNat_ofNat']

/-- After a test the first one was before any tick, whether it is this one or an earlier one. -/
theorem InLoop.first_test (inLoop : InLoop ticks count ticks0 w) (none_ : w.tests = [] → w.elapsed = 0) :
    0 ∈ w.elapsed :: w.tests := by
  by_cases isFirst : w.tests = []
  · rw [none_ isFirst]
    exact List.mem_cons_self
  · exact List.mem_cons_of_mem _ (inLoop.first isFirst)

theorem Sound.turn {before after : Option (Place × UInt32 × UInt32)} (sound : Sound ticks w before)
    (turn : Turn ticks false before after) : Sound ticks (w.follow before after) after := by
  cases turn with
  | stays =>
    rw [follow_self]
    exact sound
  | enters count =>
    refine ⟨⟨rfl, ?_, rfl, ?_, fun some_ => absurd rfl some_⟩, rfl, fun _ => rfl⟩
    · exact UInt32.sub_self ticks
    · rintro _ ⟨⟩
  | waits count ticks0 less =>
    obtain ⟨inLoop, same, none_⟩ := sound
    refine ⟨⟨inLoop.arg, inLoop.counts, inLoop.running, inLoop.slept, fun _ => ?_⟩, ?_, ?_⟩
    · exact inLoop.first_test none_
    · exact congrArg (w.elapsed :: ·) same
    · exact inLoop.test_iff.mp less
  | leaves count ticks0 past =>
    obtain ⟨inLoop, same, none_⟩ := sound
    refine ⟨w.elapsed, rfl, rfl, congrArg (w.elapsed :: ·) same, ?_, ?_, inLoop.first_test none_⟩
    · rw [inLoop.test_iff, ← inLoop.arg] at past
      exact Nat.not_lt.mp past
    · show ∀ t ∈ w.slept, t % 2 ^ 32 < w.n.toNat
      rw [inLoop.arg]
      exact inLoop.slept
  | givesUp _ _ isKilled => cases isKilled
  | sleeps count ticks0 =>
    obtain ⟨inLoop, same, less⟩ := sound
    refine ⟨⟨inLoop.arg, inLoop.counts, inLoop.running, ?_, inLoop.first⟩, same, ?_⟩
    · exact List.forall_mem_cons.mpr ⟨less, inLoop.slept⟩
    · show w.tests ≠ []
      rw [same]
      exact List.cons_ne_nil _ _
  | wakes count ticks0 =>
    obtain ⟨inLoop, same, some_⟩ := sound
    exact ⟨inLoop, same, fun none_ => absurd none_ some_⟩
  | returns count ticks0 =>
    obtain ⟨t, returned, left⟩ := sound
    intro r t' returned'
    cases returned.symm.trans returned'
    exact left

/-- A tick passes a process that is asleep or not in the call. -/
theorem Sound.tick {at_ : Option (Place × UInt32 × UInt32)} (sound : Sound ticks w at_)
    (asleep : ∀ place count ticks0, at_ = some (place, count, ticks0) → place = .asleep) :
    Sound (ticks + 1) { w with elapsed := w.elapsed + 1 } at_ := by
  match at_ with
  | none =>
    intro r t returned
    obtain ⟨result, tests, past, slept, first⟩ := sound r t returned
    exact ⟨result, tests, past, slept, first⟩
  | some (place, count, ticks0) =>
    cases asleep _ _ _ rfl
    obtain ⟨⟨arg, counts, running, slept, first⟩, same, some_⟩ := sound
    refine ⟨⟨arg, ?_, running, slept, first⟩, same, some_⟩
    show ticks + 1 - ticks0 = UInt32.ofNat (w.elapsed + 1)
    rw [UInt32.ofNat_add, ← counts]
    grind

end Waiting

/-- Each process is followed through its calls. -/
def observe (s : State n) (action : Action n) (next : State n) (h : Fin n → Waiting) (q : Fin n) :
    Waiting :=
  let w := (h q).follow (s.pc q).place (next.pc q).place
  match action with
  | .timer => { w with elapsed := w.elapsed + 1 }
  | _ => w

/-- Nobody is killed, and what is known of each process holds. -/
structure SleepInv (watched : State n × (Fin n → Waiting)) : Prop where
  owns : Owns watched.1
  alive : ∀ q, watched.1.killed q = false
  sound : ∀ q, (watched.2 q).Sound watched.1.ticks (watched.1.pc q).place

theorem SleepInv.step {before after : State n × (Fin n → Waiting)} (inv : SleepInv before)
    (noKill : ∀ q, action ≠ .kill q)
    (taken : watch step observe before action = some after) : SleepInv after := by
  obtain ⟨stepped, seen⟩ := watch_eq_some.mp taken
  have moves := moves_of_step stepped
  have killed : (before.1.signal action).killed = before.1.killed := by
    cases action with
    | kill q => exact absurd rfl (noKill q)
    | _ => rfl
  refine ⟨inv.owns.step stepped, fun q => ?_, fun q => ?_⟩
  · rw [moves.killed, killed]
    exact inv.alive q
  have turn := (moves.follows q).turn
  rw [killed, inv.alive q] at turn
  rw [moves.ticks, seen]
  cases action with
  | kill q => exact absurd rfl (noKill q)
  | timer =>
    have same : (after.1.pc q).place = (before.1.pc q).place := by
      simp only [Blocking.step, State.wakeup, Option.ite_none_right_eq_some,
        Option.some.injEq] at stepped
      rw [← stepped.2.2]
      exact Pc.place_wakeup _ _
    show Waiting.Sound _ { (before.2 q).follow _ _ with elapsed := _ } _
    rw [same, Waiting.follow_self]
    exact (inv.sound q).tick fun _ _ _ at_ => inv.owns.of_timer stepped at_
  | call | run | keyboard | pipeclose => exact (inv.sound q).turn turn

theorem SleepInv.run {before after : State n × (Fin n → Waiting)} {actions : List (Action n)}
    (inv : SleepInv before) (noKill : ∀ q, .kill q ∉ actions)
    (ran : run (watch Blocking.step observe) before actions =
      some after) : SleepInv after := by
  have meets : AllSteps (watch Blocking.step observe) (fun _ action => ∀ q, action ≠ .kill q)
      before actions := by
    refine allSteps_of_forall (fun action member _ q isKill => ?_) before
    exact noKill q (isKill ▸ member)
  exact run_invariant_of_allSteps SleepInv (fun inv noKill taken => inv.step noKill taken) inv meets ran

theorem SleepInv.boot (pipe : Nat → Pipe) (input : Input) (ticks : UInt32) :
    SleepInv (boot pipe input ticks fun _ : Fin n => false, fun _ => .start) := by
  refine ⟨.boot pipe input ticks _, fun _ => rfl, ?_⟩
  rintro _ _ _ ⟨⟩

/-! ## The ticks asked for -/

end Xv6.Blocking
