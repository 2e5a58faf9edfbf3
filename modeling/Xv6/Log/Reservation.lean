import Xv6.Log.Model

/-!
What the log records, and when `log_write` panics.

Owns: the history of a run (operations, groups, updates and logged blocks), the fact that
`log.lh` holds the distinct blocks logged since the last commit, and the exact condition
for "too big a transaction".

Does not own: the contents of the blocks (`Xv6.Log.Invariant`).
-/

namespace Xv6.Log

open TransitionSystem
open Xv6.Bio

structure Update where
  op : Nat
  block : Nat
  change : Block → Block

/-- What a run has done. Operations are numbered in the order of their `begin_op`. -/
structure History where
  updates : List Update
  /-- The calls of `log_write` since `log.lh` was last empty. -/
  logged : List (Nat × Nat)
  /-- The operations begun since the last `commit`. -/
  group : List Nat
  /-- The operations of the groups whose non-empty header reached the disk. -/
  committed : List Nat
  next : Nat
  current : Pid → Nat

def History.empty : History where
  updates := []
  logged := []
  group := []
  committed := []
  next := 0
  current := fun _ => 0

namespace History

def begin (h : History) (p : Pid) : History :=
  { h with
    group := h.group ++ [h.next]
    next := h.next + 1
    current := Function.update h.current p h.next }

def update (h : History) (p : Pid) (b : Nat) (change : Block → Block) : History :=
  { h with updates := h.updates ++ [⟨h.current p, b, change⟩] }

def log (h : History) (p : Pid) (b : Nat) : History :=
  { h with logged := h.logged ++ [(h.current p, b)] }

/-- The blocks logged by the operations of the current group, each once. -/
def distinct (h : History) : List Nat :=
  (h.logged.map Prod.snd).dedup

end History

def observe (s : State) (action : Action) (s' : State) (h : History) : History :=
  match action with
  | .beginOp p => if s'.pc p = .inOp then h.begin p else h
  | .modify p b change => h.update p b change
  | .logAppend p =>
    match s.pc p with
    | .logging b => h.log p b
    | _ => h
  | .commit p _ _ =>
    match s.pc p, s'.pc p with
    | .committing .writeHead, .committing (.install _) =>
      { h with committed := h.committed ++ h.group }
    | .committing .clear, .committing .finish => { h with logged := [] }
    | .committing .finish, .outside => { h with group := [] }
    | _, _ => h
  | _ => h

def record (layout : Layout) : State × History → Action → Option (State × History) :=
  watch (State.step layout) observe

/-! ## The blocks in `log.lh` -/

theorem recordBlock_eq (lh : List Nat) (b : Nat) :
    recordBlock lh b = if b ∈ lh then lh else lh ++ [b] := by
  unfold recordBlock
  dsimp only
  by_cases member : b ∈ lh
  · have inside : lh.findIdx (· == b) < lh.length :=
      List.findIdx_lt_length_of_exists ⟨b, member, by simp⟩
    have found : lh[lh.findIdx (· == b)] = b := by
      simpa using List.findIdx_getElem (w := inside)
    rw [if_neg (by omega), if_pos member]
    conv_rhs => rw [← List.set_getElem_self inside]
    rw [found]
  · have past : lh.findIdx (· == b) = lh.length := by
      rw [List.findIdx_eq_length]
      intro other inside
      simp only [beq_eq_false_iff_ne, ne_eq]
      rintro rfl
      exact member inside
    rw [if_pos past, if_neg member]

section Steps

variable {layout : Layout} {s s' : State} {h : History} {action : Action}

/-- The three things a step can do to the blocks on record. -/
inductive LogChange (s : State) (h : History) (s' : State) (h' : History) : Prop where
  | same (lh : s'.lh = s.lh) (logged : h'.logged = h.logged)
  | append (op b : Nat) (lh : s'.lh = recordBlock s.lh b)
      (logged : h'.logged = h.logged ++ [(op, b)])
  | clear (lh : s'.lh = []) (logged : h'.logged = [])

theorem observe_beginOp_logged (p : Pid) :
    (observe s (.beginOp p) s' h).logged = h.logged := by
  unfold observe
  dsimp only
  split <;> rfl

theorem observe_commit_logged {p : Pid} {victim victim' : Fin nbuf}
    (other : s.pc p ≠ .committing .clear) :
    (observe s (.commit p victim victim') s' h).logged = h.logged := by
  unfold observe
  dsimp only
  split
  · rfl
  · rename_i at_ _
    exact absurd at_ other
  · rfl
  · rfl

/-- A panic is no event of the history. -/
theorem observe_halt {reason : Panic} (calls : action.callsCache = true) :
    observe s action (s.halt reason) h = h := by
  cases action with
  | bread p b victim => rfl
  | commit p victim victim' =>
    have same : (s.halt reason).pc = s.pc := rfl
    simp only [observe, same]
    cases s.pc p with
    | committing at_ => cases at_ <;> rfl
    | _ => rfl
  | _ => simp [Action.callsCache] at calls

theorem Step.logChange (step : Step layout s action s') :
    LogChange s h s' (observe s action s' h) := by
  cases step with
  | sleepBegin | enter => exact .same rfl (observe_beginOp_logged _)
  | badEnd | lastEnd | otherEnd | bread | modify | tooBig | outsideTrans | logWrite | brelse =>
    exact .same rfl rfl
  | @logAppend p b _ at_ blockno holder =>
    exact .append (h.current p) b rfl (by simp [observe, at_, History.log])
  | writeLog at_ | logWritten at_ | writeHead at_ | install at_ | installed at_ | finish at_ =>
    exact .same rfl (observe_commit_logged (by simp [at_]))
  | clear at_ done => exact .clear rfl (by simp [observe, at_, State.setPc])
  | halt calls cache => exact .same rfl (by rw [observe_halt calls])

/-- `log.lh` holds the blocks logged since it was last empty, each once. -/
structure LoggedInv (s : State) (h : History) : Prop where
  nodup : s.lh.Nodup
  mem : ∀ b, b ∈ s.lh ↔ b ∈ h.logged.map Prod.snd

theorem LoggedInv.append {op b : Nat} {h' : History} (inv : LoggedInv s h)
    (lh : s'.lh = recordBlock s.lh b) (logged : h'.logged = h.logged ++ [(op, b)]) :
    LoggedInv s' h' := by
  have mem : ∀ c, c ∈ h'.logged.map Prod.snd ↔ c ∈ s.lh ∨ c = b := by
    intro c
    rw [logged, List.map_append, List.mem_append, ← inv.mem]
    simp
  rw [recordBlock_eq] at lh
  by_cases member : b ∈ s.lh
  · rw [if_pos member] at lh
    refine ⟨by rw [lh]; exact inv.nodup, fun c => ?_⟩
    rw [lh, mem]
    constructor
    · exact Or.inl
    · rintro (inside | rfl)
      · exact inside
      · exact member
  · rw [if_neg member] at lh
    refine ⟨?_, fun c => by rw [lh, mem, List.mem_append, List.mem_singleton]⟩
    rw [lh, List.nodup_append]
    refine ⟨inv.nodup, List.nodup_singleton b, ?_⟩
    rintro c inside d only rfl
    rw [List.mem_singleton] at only
    exact member (only ▸ inside)

theorem LoggedInv.step (inv : LoggedInv s h) (step : Step layout s action s') :
    LoggedInv s' (observe s action s' h) := by
  cases step.logChange (h := h) with
  | same lh logged =>
    refine ⟨by rw [lh]; exact inv.nodup, fun b => ?_⟩
    rw [lh, logged]
    exact inv.mem b
  | append op b lh logged => exact inv.append lh logged
  | clear lh logged => exact ⟨by rw [lh]; exact List.nodup_nil, fun b => by simp [lh, logged]⟩

theorem LoggedInv.boot (disk : Nat → Block) : LoggedInv (State.boot disk) History.empty where
  nodup := List.nodup_nil
  mem := fun b => by simp [State.boot, History.empty]

/-- The count in the header is the number of distinct blocks on record. -/
theorem LoggedInv.length (inv : LoggedInv s h) : s.lh.length = h.distinct.length := by
  have same : s.lh.Perm h.distinct := by
    rw [History.distinct, List.perm_ext_iff_of_nodup inv.nodup (List.nodup_dedup _)]
    intro b
    rw [inv.mem, List.mem_dedup]
  exact same.length_eq

/-- The history of a run from a boot fits its state. -/
theorem LoggedInv.of_run {disk : Nat → Block} {actions : List Action}
    (ran : run (record layout) (State.boot disk, History.empty) actions =
      some (s, h)) : LoggedInv s h := by
  refine run_invariant (fun recorded => LoggedInv recorded.1 recorded.2) ?_
    (LoggedInv.boot disk) ran
  intro before action after inv taken
  obtain ⟨stepped, history⟩ := watch_eq_some.mp taken
  rw [history]
  exact inv.step (Step.of_step stepped).2

/-! ## The panic -/

/-- The log of a disk made by `mkfs` has room for `LOGSIZE - 1` blocks. -/
theorem Layout.full_iff (layout : Layout) (count : Nat) :
    (logsize ≤ count ∨ layout.size - 1 ≤ count) ↔ logsize - 1 ≤ count := by
  have size := layout.size_eq
  omega

theorem Step.tooBig_iff (step : Step layout s action s') (alive : s.halted = none) :
    s'.halted = some .tooBigTransaction ↔
      ∃ p b, action = .logWrite p b ∧ logsize - 1 ≤ s.lh.length := by
  cases step with
  | @tooBig p b at_ full =>
    have full := (layout.full_iff _).mp full
    exact ⟨fun _ => ⟨p, b, rfl, full⟩, fun _ => rfl⟩
  | outsideTrans at_ none room =>
    have size := layout.size_eq
    constructor
    · simp [State.halt]
    · rintro ⟨_, _, _, full⟩
      omega
  | logWrite at_ home holds room =>
    have size := layout.size_eq
    constructor
    · simp [State.setPc, alive]
    · rintro ⟨_, _, _, full⟩
      omega
  | @halt action reason calls cache =>
    constructor
    · intro tooBig
      rw [Option.some.inj tooBig] at cache
      simp [Panic.ofCache] at cache
    · rintro ⟨_, _, rfl, _⟩
      simp [Action.callsCache] at calls
  | _ => simp [State.setPc, State.wakeup, State.logAppend, State.halt, alive]

end Steps

/-- When `log_write` is called, the operations of the current group have logged fewer than
`LOGSIZE - 1` distinct blocks. -/
def RoomLeft (recorded : State × History) : Action → Prop
  | .logWrite _ _ => recorded.2.distinct.length < logsize - 1
  | _ => True

instance (recorded : State × History) : DecidablePred (RoomLeft recorded)
  | .logWrite _ _ => inferInstanceAs (Decidable (_ < _))
  | .beginOp _ | .endOp _ | .bread _ _ _ | .modify _ _ _ | .logAppend _ | .brelse _ _
  | .commit _ _ _ => isTrue trivial

/-- In every run whose calls of `log_write` come while the current group has logged fewer
than `LOGSIZE - 1` distinct blocks, "too big a transaction" is not reached; and a call
that comes later reaches it. -/
theorem log_reservation_exact {layout : Layout} {disk : Nat → Block} {actions : List Action}
    {s : State} {h : History}
    (ran : run (record layout) (State.boot disk, History.empty) actions =
      some (s, h)) :
    (AllSteps (record layout) RoomLeft (State.boot disk, History.empty) actions →
      s.halted ≠ some .tooBigTransaction) ∧
    ∀ p b s', s.step layout (.logWrite p b) = some s' →
      (s'.halted = some .tooBigTransaction ↔ logsize - 1 ≤ h.distinct.length) := by
  constructor
  · intro meets
    refine (run_invariant_of_allSteps (fun recorded : State × History =>
      LoggedInv recorded.1 recorded.2 ∧ recorded.1.halted ≠ some .tooBigTransaction) ?_
      ⟨LoggedInv.boot disk, by simp [State.boot]⟩ meets ran).2
    intro before action after ⟨inv, _⟩ room taken
    obtain ⟨stepped, history⟩ := watch_eq_some.mp taken
    obtain ⟨alive, step⟩ := Step.of_step stepped
    rw [history]
    refine ⟨inv.step step, ?_⟩
    rw [ne_eq, step.tooBig_iff alive, inv.length]
    rintro ⟨p, b, rfl, full⟩
    have left : before.2.distinct.length < logsize - 1 := room
    omega
  · intro p b s' taken
    obtain ⟨alive, step⟩ := Step.of_step taken
    rw [step.tooBig_iff alive, (LoggedInv.of_run ran).length]
    constructor
    · rintro ⟨_, _, _, full⟩
      exact full
    · exact fun full => ⟨p, b, rfl, full⟩

/-- The process logs `count` blocks from `first` on, one after the other. -/
def logBlocks (p : Pid) (first count : Nat) : List Action :=
  (List.range' first count).flatMap fun b =>
    [.bread p b (Fin.ofNat nbuf b), .logWrite p b, .logAppend p, .brelse p b]

theorem log_reservation_exact_oneBlock :
    ∃ (s : State) (h : History),
      run (record .mkfs) (State.boot (fun _ _ => 0), History.empty)
        (.beginOp 0 :: logBlocks 0 90 1) = some (s, h) ∧
      s.halted ≠ some .tooBigTransaction := by
  have ran : (run (record .mkfs) (State.boot (fun _ _ => 0), History.empty)
      (.beginOp 0 :: logBlocks 0 90 1)).isSome = true := by
    decide +kernel
  obtain ⟨⟨s, h⟩, reaches⟩ := Option.isSome_iff_exists.mp ran
  have meets : AllSteps (record .mkfs) RoomLeft
      (State.boot (fun _ _ => 0), History.empty) (.beginOp 0 :: logBlocks 0 90 1) := by
    decide +kernel
  exact ⟨s, h, reaches, (log_reservation_exact reaches).1 meets⟩

/-- Three operations, each with `MAXOPBLOCKS` blocks to log. -/
def threeOps : List Action :=
  [.beginOp 0, .beginOp 1, .beginOp 2] ++ logBlocks 0 90 10 ++ logBlocks 1 100 10 ++
    logBlocks 2 110 10

def loggedBy (p : Pid) (actions : List Action) : List Nat :=
  actions.filterMap fun action =>
    match action with
    | .logWrite q b => if q = p then some b else none
    | _ => none

theorem loggedBy_append (p : Pid) (first second : List Action) :
    loggedBy p (first ++ second) = loggedBy p first ++ loggedBy p second :=
  List.filterMap_append

theorem loggedBy_logBlocks (p q : Pid) (first count : Nat) :
    loggedBy p (logBlocks q first count) = if q = p then List.range' first count else [] := by
  induction count generalizing first with
  | zero => simp [logBlocks, loggedBy]
  | succ count ih =>
    have split : logBlocks q first (count + 1) =
        [.bread q first (Fin.ofNat nbuf first), .logWrite q first, .logAppend q,
          .brelse q first] ++ logBlocks q (first + 1) count := by
      simp [logBlocks, List.range'_succ]
    rw [split, loggedBy_append, ih, List.range'_succ]
    by_cases same : q = p
    · simp [loggedBy, same]
    · simp [loggedBy, same]

/-- No operation logs more than `MAXOPBLOCKS` blocks, and yet the last call panics; so does
a second call for a block that is on record already. -/
theorem three_ops_panic :
    (∀ p, (loggedBy p threeOps).dedup.length ≤ maxopblocks) ∧
    (run (State.step .mkfs) (State.boot fun _ _ => 0)
      (threeOps.take 121)).map State.halted = some (some .tooBigTransaction) ∧
    (run (State.step .mkfs) (State.boot fun _ _ => 0)
      (threeOps.take 119 ++ [.bread 2 118 0, .logWrite 2 118])).map State.halted =
        some (some .tooBigTransaction) := by
  refine ⟨?_, by decide +kernel, by decide +kernel⟩
  intro p
  refine (List.dedup_sublist _).length_le.trans ?_
  have begins : loggedBy p [.beginOp 0, .beginOp 1, .beginOp 2] = [] := rfl
  simp only [threeOps, loggedBy_append, loggedBy_logBlocks, begins, List.nil_append]
  by_cases first : 0 = p
  · subst first
    decide
  · by_cases second : 1 = p
    · subst second
      decide
    · by_cases third : 2 = p
      · subst third
        decide
      · simp [first, second, third]

end Xv6.Log
