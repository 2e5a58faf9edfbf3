import Xv6.Log.Invariant

/-!
Who may start and end operations, and which commit an operation is part of.

Owns: the protocol of `begin_op`, `end_op` and `commit` over `outstanding`, `committing` and the
sleepers on `&log`; and a ledger of every `log_write`, from which it follows that a commit takes
all writes of an operation or none.

Does not own: what reaches the disk (`Xv6.Log.Invariant`, `Xv6.Log.Recovery`).
-/

namespace Xv6.Log

open TransitionSystem
open Function (update update_self update_of_ne)

open Xv6.Bio

/-- A call of `log_write`: its operation, and how many commits had begun before it. -/
structure Write where
  commit : Nat
  op : Nat
  block : Nat
deriving DecidableEq, Repr

/-- The writes of a run, and what `log.lh` held when each commit began. Operations are numbered
in the order of their `begin_op`. -/
structure Ledger where
  next : Nat
  current : Pid → Nat
  writes : List Write
  commits : List (List Nat)

namespace Ledger

def empty : Ledger := ⟨0, fun _ => 0, [], []⟩

def begin (l : Ledger) (p : Pid) : Ledger :=
  { l with next := l.next + 1, current := Function.update l.current p l.next }

def write (l : Ledger) (p : Pid) (b : Nat) : Ledger :=
  { l with writes := ⟨l.commits.length, l.current p, b⟩ :: l.writes }

def commit (l : Ledger) (lh : List Nat) : Ledger :=
  { l with commits := l.commits ++ [lh] }

/-- The blocks written for the commit of that number. -/
def Wrote (l : Ledger) (k b : Nat) : Prop :=
  ∃ w ∈ l.writes, w.commit = k ∧ w.block = b

end Ledger

def account (s : State) (action : Action) (s' : State) (l : Ledger) : Ledger :=
  match action with
  | .beginOp p => if s'.pc p = .inOp then l.begin p else l
  | .logAppend p =>
    match s.pc p with
    | .logging b => l.write p b
    | _ => l
  | .endOp _ => if s.committing = false ∧ s'.committing = true then l.commit s.lh else l
  | _ => l

/-! ## The ledger -/

structure LedgerInv (pc : Pid → Pc) (lh : List Nat) (at_ : Option CommitPc) (l : Ledger) : Prop where
  numbered : ∀ w ∈ l.writes, w.op < l.next ∧ w.commit ≤ l.commits.length
  current : ∀ p, (pc p).open = true → l.current p < l.next ∧
    ∀ w ∈ l.writes, w.op = l.current p → w.commit = l.commits.length
  oneCommit : ∀ w ∈ l.writes, ∀ w' ∈ l.writes, w.op = w'.op → w.commit = w'.commit
  past : ∀ k blocks, l.commits[k]? = some blocks → ∀ b, b ∈ blocks ↔ l.Wrote k b
  present : at_ = none → ∀ b, b ∈ lh ↔ l.Wrote l.commits.length b
  done : at_ ≠ none → ∀ w ∈ l.writes, w.commit < l.commits.length
  committing : ∀ point, at_ = some point → point ≠ .finish → l.commits.getLast? = some lh

variable {place : Pc} {point point' : CommitPc} {store : Store}

variable {pc pc' : Pid → Pc} {lh : List Nat} {at_ : Option CommitPc} {l : Ledger} {p : Pid}

theorem LedgerInv.of_pc (inv : LedgerInv pc lh at_ l)
    (opened : ∀ p, (pc' p).open = true → (pc p).open = true) : LedgerInv pc' lh at_ l :=
  { inv with current := fun p isOpen => inv.current p (opened p isOpen) }

theorem LedgerInv.begin (inv : LedgerInv pc lh none l) :
    LedgerInv (update pc p .inOp) lh none (l.begin p) :=
  { inv with
    numbered := by
      intro w member
      obtain ⟨op, commit⟩ := inv.numbered w member
      exact ⟨Nat.lt_succ_of_lt op, commit⟩
    current := by
      intro q
      simp only [Ledger.begin]
      refine Update.cases₂ q (fun _ => ⟨Nat.lt_succ_self _, ?_⟩) fun _ isOpen => ?_
      · intro w member isNew
        exact absurd isNew (Nat.ne_of_lt (inv.numbered w member).1)
      · obtain ⟨old, writes⟩ := inv.current q isOpen
        exact ⟨Nat.lt_succ_of_lt old, writes⟩ }

theorem Ledger.wrote_write (l : Ledger) (p : Pid) (b k c : Nat) :
    (l.write p b).Wrote k c ↔ l.commits.length = k ∧ b = c ∨ l.Wrote k c := by
  unfold Wrote write
  simp only [List.mem_cons, exists_eq_or_imp]

/-- `log_write` by a process with an open operation. -/
theorem LedgerInv.write (inv : LedgerInv pc lh none l) {b : Nat} (isOpen : (pc p).open = true) :
    LedgerInv (update pc p place) (recordBlock lh b) none (l.write p b) where
  numbered := by
    intro w member
    rcases List.mem_cons.mp member with rfl | member
    · exact ⟨(inv.current p isOpen).1, Nat.le_refl _⟩
    · exact inv.numbered w member
  current := by
    intro q opened
    have wasOpen : (pc q).open = true := by
      by_cases same : q = p
      · rw [same]
        exact isOpen
      · rwa [update_of_ne same] at opened
    refine ⟨(inv.current q wasOpen).1, ?_⟩
    intro w member same
    rcases List.mem_cons.mp member with rfl | member
    · rfl
    · exact (inv.current q wasOpen).2 w member same
  oneCommit := by
    intro w member w' member' same
    rcases List.mem_cons.mp member with rfl | member <;>
      rcases List.mem_cons.mp member' with rfl | member'
    · rfl
    · exact ((inv.current p isOpen).2 w' member' same.symm).symm
    · exact (inv.current p isOpen).2 w member same
    · exact inv.oneCommit w member w' member' same
  past := by
    intro k blocks found c
    have earlier : k < l.commits.length := (List.getElem?_eq_some_iff.mp found).1
    rw [Ledger.wrote_write, inv.past k blocks found c]
    constructor
    · exact .inr
    · rintro (⟨same, _⟩ | wrote)
      · omega
      · exact wrote
  present := by
    intro _ c
    have before := inv.present rfl c
    show c ∈ recordBlock lh b ↔ (l.write p b).Wrote l.commits.length c
    rw [Ledger.wrote_write, recordBlock_eq, ← before]
    by_cases member : b ∈ lh
    · rw [if_pos member]
      constructor
      · exact .inr
      · rintro (⟨_, rfl⟩ | inside)
        · exact member
        · exact inside
    · rw [if_neg member, List.mem_append, List.mem_singleton]
      constructor
      · rintro (inside | rfl)
        · exact .inr inside
        · exact .inl ⟨rfl, rfl⟩
      · rintro (⟨_, rfl⟩ | inside)
        · exact .inr rfl
        · exact .inl inside
  done := fun some_ => absurd rfl some_
  committing := fun _ some_ => nomatch some_

/-- A commit begins, with no operation open. -/
theorem LedgerInv.commit (inv : LedgerInv pc lh none l) (closed : ∀ q, (pc' q).open = false) :
    LedgerInv pc' lh (some point) (l.commit lh) where
  numbered := by
    intro w member
    obtain ⟨op, commit⟩ := inv.numbered w member
    refine ⟨op, ?_⟩
    simp only [Ledger.commit, List.length_append, List.length_singleton]
    omega
  current := by
    intro q isOpen
    rw [closed q] at isOpen
    cases isOpen
  oneCommit := inv.oneCommit
  past := by
    intro k blocks found b
    rcases Nat.lt_trichotomy k l.commits.length with earlier | same | later
    · simp only [Ledger.commit, List.getElem?_append_left earlier] at found
      exact inv.past k blocks found b
    · subst same
      simp only [Ledger.commit, List.getElem?_concat_length, Option.some.injEq] at found
      subst found
      exact inv.present rfl b
    · have inside := (List.getElem?_eq_some_iff.mp found).1
      simp only [Ledger.commit, List.length_append, List.length_singleton] at inside
      omega
  present := fun none_ => nomatch none_
  done := by
    intro _ w member
    have commit := (inv.numbered w member).2
    simp only [Ledger.commit, List.length_append, List.length_singleton]
    omega
  committing := fun _ _ _ => List.getLast?_concat

theorem LedgerInv.advance (inv : LedgerInv pc lh at_ l) (at_some : at_ = some point)
    (unfinished : point ≠ .finish) (opened : ∀ p, (pc' p).open = true → (pc p).open = true) :
    LedgerInv pc' lh (some point') l :=
  { inv.of_pc opened with
    present := fun none_ => nomatch none_
    done := fun _ => inv.done (by rw [at_some]; simp)
    committing := fun _ _ _ => inv.committing point at_some unfinished }

theorem LedgerInv.clear (inv : LedgerInv pc lh at_ l) (busy : at_ ≠ none)
    (opened : ∀ p, (pc' p).open = true → (pc p).open = true) :
    LedgerInv pc' [] (some .finish) l :=
  { inv.of_pc opened with
    present := fun none_ => nomatch none_
    done := fun _ => inv.done busy
    committing := fun _ isFinish unfinished => absurd (Option.some.inj isFinish).symm unfinished }

/-- The commit is over: nothing is written yet for the next. -/
theorem LedgerInv.finish (inv : LedgerInv pc [] at_ l) (busy : at_ ≠ none)
    (opened : ∀ p, (pc' p).open = true → (pc p).open = true) : LedgerInv pc' [] none l :=
  { inv.of_pc opened with
    present := by
      intro _ b
      constructor
      · exact fun member => absurd member List.not_mem_nil
      · rintro ⟨w, member, commit, _⟩
        exact absurd commit (Nat.ne_of_lt (inv.done busy w member))
    done := fun some_ => absurd rfl some_
    committing := fun _ some_ => nomatch some_ }

/-! ## The protocol -/

/-- `begin_op` has to wait. -/
def State.full (s : State) : Prop :=
  s.committing = true ∨ logsize < s.lh.length + (s.outstanding + 1) * maxopblocks

structure Admitted (s : State) (l : Ledger) (at_ : Option CommitPc) : Prop where
  control : Control s.pc s.outstanding s.committing at_
  ledger : LedgerInv s.pc s.lh at_ l
  nodup : s.lh.Nodup
  cleared : at_ = some .finish → s.lh = []
  asleep : ∀ p, s.pc p = .asleep → s.full
  alive : s.halted ≠ some .logCommitting

variable {layout : Layout} {s s' : State} {action : Action}

theorem Admitted.boot (disk : Nat → Block) : Admitted (State.boot disk) .empty none where
  control := Control.boot
  ledger :=
    { numbered := fun _ member => nomatch member
      current := fun _ isOpen => nomatch isOpen
      oneCommit := fun _ member => nomatch member
      past := fun _ _ found => nomatch found
      present := by
        intro _ b
        simp [State.boot, Ledger.Wrote, Ledger.empty]
      done := fun _ _ member => nomatch member
      committing := fun _ some_ => nomatch some_ }
  nodup := List.nodup_nil
  cleared := fun some_ => nomatch some_
  asleep := fun _ isAsleep => nomatch isAsleep
  alive := fun none_ => nomatch none_

/-- Steps of the buffer cache, and panics of other calls. -/
theorem Admitted.still (inv : Admitted s l at_) (pc : s'.pc = s.pc)
    (outstanding : s'.outstanding = s.outstanding) (committing : s'.committing = s.committing)
    (lh : s'.lh = s.lh) (alive : s'.halted ≠ some .logCommitting) : Admitted s' l at_ where
  control := by
    rw [pc, outstanding, committing]
    exact inv.control
  ledger := by
    rw [pc, lh]
    exact inv.ledger
  nodup := lh ▸ inv.nodup
  cleared := lh ▸ inv.cleared
  asleep := by
    intro q isAsleep
    rw [pc] at isAsleep
    unfold State.full
    rw [committing, lh, outstanding]
    exact inv.asleep q isAsleep
  alive := alive

theorem open_of_update {pc : Pid → Pc} (opened : place.open = true → (pc p).open = true) (q : Pid) :
    (update pc p place q).open = true → (pc q).open = true :=
  Update.cases q opened fun _ => id

theorem open_of_wakeup (s : State) (p q : Pid)
    (isOpen : (update s.wakeup.pc p .outside q).open = true) : (s.pc q).open = true := by
  rw [← s.wakeup_open q]
  refine open_of_update ?_ q isOpen
  intro outside
  cases outside

theorem asleep_of_setPc (awake : place ≠ .asleep) {q : Pid} :
    (s.setPc p place).pc q = .asleep → s.pc q = .asleep := by
  change update s.pc p place q = .asleep → _
  exact Update.cases q (fun isAsleep => absurd isAsleep awake) fun _ => id

theorem wakeup_awake (s : State) (q : Pid) : s.wakeup.pc q ≠ .asleep := by
  by_cases isAsleep : s.pc q = .asleep <;> simp [State.wakeup, isAsleep]

theorem Admitted.at_none (inv : Admitted s l at_) (idle : s.committing = false) : at_ = none := by
  cases at_ with
  | none => rfl
  | some point =>
    have busy := (inv.control.busy point rfl).1
    rw [idle] at busy
    cases busy

/-- The loop of `begin_op`: it goes to sleep only when it has to wait. -/
theorem Admitted.beginOp (inv : Admitted s l at_) (place : s.pc p = .outside ∨ s.pc p = .beginning) :
    Admitted (s.beginOp p) (account s (.beginOp p) (s.beginOp p) l) at_ := by
  have closed : (s.pc p).open = false := by rcases place with at_ | at_ <;> rw [at_] <;> rfl
  have notCommitting (point : CommitPc) : s.pc p ≠ .committing point := by
    rcases place with at_ | at_ <;> rw [at_] <;> simp
  by_cases waits : s.full
  · have sleeps : s.beginOp p = s.setPc p .asleep := by
      unfold State.beginOp
      rcases waits with busy | full
      · rw [if_pos busy]
      · rw [if_pos full, ite_self]
    have quiet : account s (.beginOp p) (s.setPc p .asleep) l = l := by
      simp [account, State.setPc]
    rw [sleeps, quiet]
    constructor
    · exact inv.control.move closed.symm fun point =>
        ⟨(fun none_ => by cases none_), fun commits => absurd commits (notCommitting point)⟩
    · exact inv.ledger.of_pc (open_of_update fun isOpen => by cases isOpen)
    · exact inv.nodup
    · exact inv.cleared
    · exact fun _ _ => waits
    · exact inv.alive
  · rw [State.full, not_or, not_lt, Bool.not_eq_true] at waits
    have enters : s.beginOp p = { s with outstanding := s.outstanding + 1 }.setPc p .inOp := by
      unfold State.beginOp
      rw [if_neg (by rw [waits.1]; simp), if_neg (not_lt.mpr waits.2)]
    have begins : account s (.beginOp p)
        ({ s with outstanding := s.outstanding + 1 }.setPc p .inOp) l = l.begin p := by
      simp [account, State.setPc]
    obtain rfl := inv.at_none waits.1
    rw [enters, begins]
    constructor
    · exact inv.control.enter closed
    · exact inv.ledger.begin
    · exact inv.nodup
    · exact inv.cleared
    · intro q isAsleep
      rcases inv.asleep q (asleep_of_setPc (by simp) isAsleep) with busy | full
      · exact .inl busy
      · right
        simp only [State.setPc]
        have more : (s.outstanding + 1) * maxopblocks ≤ (s.outstanding + 1 + 1) * maxopblocks :=
          Nat.mul_le_mul_right _ (Nat.le_succ _)
        omega
    · exact inv.alive

/-- `commit` goes on with `log.lh` as it was. -/
theorem Admitted.advance (inv : Admitted s l at_) (place : s.pc p = .committing point)
    (unfinished : point ≠ .finish) (later : point' ≠ .finish) :
    Admitted ({ s with store := store }.setPc p (.committing point')) l (some point') :=
  { inv with
    control := inv.control.advance place point'
    ledger := inv.ledger.advance (inv.control.at_some place) unfinished
      (open_of_update fun isOpen => nomatch isOpen)
    cleared := fun isFinish => absurd (Option.some.inj isFinish) later
    asleep := fun q isAsleep => inv.asleep q (asleep_of_setPc (by simp) isAsleep) }

/-- `end_op` of the last open operation. -/
theorem Admitted.lastEnd (inv : Admitted s l none) (place : s.pc p = .inOp)
    (last : s.outstanding - 1 = 0) (empty : point = .finish → s.lh = []) :
    Admitted ({ s with outstanding := s.outstanding - 1, committing := true }.setPc p
      (.committing point)) (l.commit s.lh) (some point) :=
  { inv with
    control := inv.control.start (by rw [place]; rfl) last point
    ledger := by
      apply inv.ledger.commit
      exact (inv.control.start (by rw [place]; rfl) last point).none_open last
    cleared := fun isFinish => empty (Option.some.inj isFinish)
    asleep := fun _ _ => .inl rfl }

/-- `end_op` of another one wakes every sleeper. -/
theorem Admitted.otherEnd (inv : Admitted s l none) (place : s.pc p = .inOp) :
    Admitted ({ s with outstanding := s.outstanding - 1 }.wakeup.setPc p .outside) l none := by
  have isOpen : (s.wakeup.pc p).open = true := by rw [s.wakeup_open, place]; rfl
  have woken : Control s.wakeup.pc s.outstanding s.committing none :=
    inv.control.of_pc s.wakeup_open s.wakeup_committing
  constructor
  · exact woken.leave isOpen
  · exact inv.ledger.of_pc (open_of_wakeup s p)
  · exact inv.nodup
  · exact inv.cleared
  · intro q isAsleep
    exact absurd (asleep_of_setPc (by simp) isAsleep) (wakeup_awake _ q)
  · exact inv.alive

theorem Admitted.logAppend (inv : Admitted s l at_) {b : Nat} {i : Fin nbuf}
    (place : s.pc p = .logging b) : Admitted (s.logAppend p b i) (l.write p b) at_ := by
  have isOpen : (s.pc p).open = true := by rw [place]; rfl
  obtain rfl := inv.control.at_none isOpen
  constructor
  · refine inv.control.move isOpen.symm fun point => ?_
    rw [place]
    simp
  · exact inv.ledger.write isOpen
  · show (recordBlock s.lh b).Nodup
    rw [recordBlock_eq]
    split
    · exact inv.nodup
    · rename_i absent
      exact List.nodup_append.mpr ⟨inv.nodup, List.nodup_singleton b, by
        intro c member d isNew same
        rw [List.mem_singleton] at isNew
        exact absent (isNew ▸ same ▸ member)⟩
  · exact fun none_ => nomatch none_
  · intro q isAsleep
    rcases inv.asleep q (asleep_of_setPc (by simp) isAsleep) with busy | full
    · exact .inl busy
    · right
      have grows : s.lh.length ≤ (recordBlock s.lh b).length := by
        rw [recordBlock_eq]
        split <;> simp
      show logsize < (recordBlock s.lh b).length + (s.outstanding + 1) * maxopblocks
      omega
  · exact inv.alive

theorem Admitted.clear (inv : Admitted s l at_) (place : s.pc p = .committing .clear) :
    Admitted ({ s with store := store, lh := [] }.setPc p (.committing .finish)) l (some .finish) where
  control := inv.control.advance place .finish
  ledger := inv.ledger.clear (by rw [inv.control.at_some place]; simp)
    (open_of_update fun isOpen => nomatch isOpen)
  nodup := List.nodup_nil
  cleared := fun _ => rfl
  asleep := fun _ _ => .inl (inv.control.busy .clear (inv.control.at_some place)).1
  alive := inv.alive

/-- The end of a commit wakes every sleeper. -/
theorem Admitted.finish (inv : Admitted s l at_) (place : s.pc p = .committing .finish) :
    Admitted ({ s with committing := false }.wakeup.setPc p .outside) l none := by
  obtain rfl := inv.control.at_some place
  have woken : Control s.wakeup.pc s.outstanding s.committing (some .finish) :=
    inv.control.of_pc s.wakeup_open s.wakeup_committing
  have empty := inv.cleared rfl
  constructor
  · exact woken.finish ((s.wakeup_committing p _).mpr place)
  · have ledger := inv.ledger
    rw [empty] at ledger
    show LedgerInv _ s.lh none l
    rw [empty]
    exact ledger.finish (by simp) (open_of_wakeup s p)
  · exact inv.nodup
  · exact fun none_ => nomatch none_
  · intro q isAsleep
    exact absurd (asleep_of_setPc (by simp) isAsleep) (wakeup_awake _ q)
  · exact inv.alive

theorem Admitted.step (inv : Admitted s l at_) (taken : s.step layout action = some s') :
    ∃ at', Admitted s' (account s action s' l) at' := by
  obtain ⟨notHalted, step⟩ := Step.of_step taken
  have begins {p : Pid} (isBegin : action = .beginOp p) : ∃ at', Admitted s' (account s action s' l) at' := by
    subst isBegin
    simp only [State.step, notHalted, if_true, State.act, Option.ite_none_right_eq_some,
      Option.some.injEq] at taken
    rw [← taken.2]
    exact ⟨at_, inv.beginOp taken.1⟩
  have keeps (reason : Panic) (other : reason ≠ .logCommitting) :
      (some reason : Option Panic) ≠ some .logCommitting :=
    fun same => other (Option.some.inj same)
  cases step with
  | sleepBegin | enter => exact begins rfl
  | @badEnd p place busy =>
    obtain rfl := inv.control.at_none (p := p) (by rw [place]; rfl)
    have idle := (inv.control.idle rfl).1
    rw [busy] at idle
    cases idle
  | @lastEnd p place settled idle last =>
    obtain rfl := inv.at_none idle
    have commits : account s (.endOp p)
        ({ s with outstanding := s.outstanding - 1, committing := true }.setPc p
          (.committing (if s.lh = [] then .finish else .writeLog 0))) l = l.commit s.lh := by
      simp [account, State.setPc, idle]
    rw [commits]
    refine ⟨_, inv.lastEnd place last ?_⟩
    intro isFinish
    by_contra notEmpty
    rw [if_neg notEmpty] at isFinish
    cases isFinish
  | @otherEnd p place settled idle more =>
    obtain rfl := inv.at_none idle
    have quiet : account s (.endOp p)
        ({ s with outstanding := s.outstanding - 1 }.wakeup.setPc p .outside) l = l := by
      simp [account, State.setPc, State.wakeup, idle]
    rw [quiet]
    exact ⟨none, inv.otherEnd place⟩
  | bread | modify | brelse => exact ⟨at_, inv.still rfl rfl rfl rfl inv.alive⟩
  | tooBig | outsideTrans => exact ⟨at_, inv.still rfl rfl rfl rfl (keeps _ (by simp))⟩
  | @halt action reason calls cache =>
    have quiet : account s action (s.halt reason) l = l := by
      cases action <;> first | rfl | cases calls
    rw [quiet]
    refine ⟨at_, inv.still rfl rfl rfl rfl (keeps reason ?_)⟩
    intro isLog
    rw [isLog] at cache
    cases cache
  | @logWrite p b place home holds room =>
    refine ⟨at_, ?_, ?_, inv.nodup, inv.cleared, ?_, inv.alive⟩
    · refine inv.control.move (by rw [place]; rfl) fun point => ?_
      rw [place]
      simp
    · exact inv.ledger.of_pc (open_of_update fun _ => by rw [place]; rfl)
    · exact fun q isAsleep => inv.asleep q (asleep_of_setPc (by simp) isAsleep)
  | @logAppend p b i place blockno holder =>
    have writes : account s (.logAppend p) (s.logAppend p b i) l = l.write p b := by
      simp [account, place]
    rw [writes]
    exact ⟨at_, inv.logAppend place⟩
  | writeLog place | logWritten place | writeHead place | install place | installed place =>
    exact ⟨_, inv.advance place (by simp) (by simp)⟩
  | clear place done => exact ⟨_, inv.clear place⟩
  | finish place => exact ⟨_, inv.finish place⟩

theorem Admitted.of_run {disk : Nat → Block} {actions : List Action}
    (ran : run (watch (State.step layout) account)
      (State.boot disk, .empty) actions = some (s, l)) : ∃ at_, Admitted s l at_ := by
  refine run_invariant
    (fun watched : State × Ledger => ∃ at_, Admitted watched.1 watched.2 at_) ?_
    ⟨none, Admitted.boot disk⟩ ran
  intro before action after ⟨at_, inv⟩ taken
  obtain ⟨stepped, ledger⟩ := watch_eq_some.mp taken
  rw [ledger]
  exact inv.step stepped

/-- The admission protocol: no operation is open while `commit` runs and `end_op` never finds one
running; the writes of an operation all fall into one commit, which holds exactly the blocks
written for it, each once; and nobody sleeps in `begin_op` who could go on. -/
theorem log_admission {layout : Layout} {disk : Nat → Block} {actions : List Action} {s : State}
    {l : Ledger}
    (ran : run (watch (State.step layout) account)
      (State.boot disk, .empty) actions = some (s, l)) :
    (s.committing = true → s.outstanding = 0 ∧ ∀ p, (s.pc p).open = false) ∧
      s.halted ≠ some .logCommitting ∧
      (∀ w ∈ l.writes, ∀ w' ∈ l.writes, w.op = w'.op → w.commit = w'.commit) ∧
      (∀ k blocks, l.commits[k]? = some blocks → ∀ b, b ∈ blocks ↔ l.Wrote k b) ∧
      (∀ p point, s.pc p = .committing point → point ≠ .finish → l.commits.getLast? = some s.lh) ∧
      s.lh.Nodup ∧
      (s.committing = false → s.lh.length + (s.outstanding + 1) * maxopblocks ≤ logsize →
        ∀ p, s.pc p ≠ .asleep) := by
  obtain ⟨at_, inv⟩ := Admitted.of_run ran
  refine ⟨?_, inv.alive, inv.ledger.oneCommit, inv.ledger.past, ?_, inv.nodup, ?_⟩
  · intro busy
    cases at_ with
    | none =>
      rw [(inv.control.idle rfl).1] at busy
      cases busy
    | some point =>
      have none_ := (inv.control.busy point rfl).2.1
      exact ⟨none_, inv.control.none_open none_⟩
  · intro p point place unfinished
    exact inv.ledger.committing point (inv.control.at_some place) unfinished
  · intro idle room p isAsleep
    rcases inv.asleep p isAsleep with busy | full
    · rw [idle] at busy
      cases busy
    · omega

theorem log_admission_oneBlock :
    ∃ s l, run (watch (State.step .mkfs) account)
        (State.boot (fun _ _ => 0), .empty) (.beginOp 0 :: logBlocks 0 90 1 ++ [.endOp 0]) =
          some (s, l) ∧
      s.committing = true ∧ s.outstanding = 0 ∧ l.commits.getLast? = some [90] := by
  refine exists_of_view (fun watched => (watched.1.committing, watched.1.lh, watched.1.pc 0))
    (true, [90], .committing (.writeLog 0)) (by decide +kernel) fun s l reaches same => ?_
  obtain ⟨busy, lh, place⟩ : s.committing = true ∧ s.lh = [90] ∧
      s.pc 0 = .committing (.writeLog 0) := by simpa using same
  obtain ⟨admitted, _, _, _, commits, _⟩ := log_admission reaches
  refine ⟨busy, (admitted busy).1, ?_⟩
  rw [← lh]
  exact commits 0 _ place (by simp)

end Xv6.Log
