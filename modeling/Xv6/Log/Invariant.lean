import Xv6.Log.Commit
import Xv6.Log.Reservation

/-!
The invariant of the log over whole runs.

Owns: which processes are inside an operation or a commit, which operations the history
knows, and `LogInv`, kept by every step of every process.

Does not own: the lemmas about single disk writes (`Xv6.Log.Commit`).
-/

namespace Xv6.Log

open Function (update_self update_of_ne)

open Xv6.Bio

/-! ## Who is where -/

/-- `outstanding` counts the open operations; a commit runs alone, and only when there are
none. -/
structure Control (pc : Pid → Pc) (outstanding : Nat) (committing : Bool)
    (at_ : Option CommitPc) : Prop where
  opened : ∃ procs : List Pid, procs.Nodup ∧ (∀ p, p ∈ procs ↔ (pc p).open = true) ∧
    outstanding = procs.length
  idle : at_ = none → committing = false ∧ ∀ p point, pc p ≠ .committing point
  busy : ∀ point, at_ = some point → committing = true ∧ outstanding = 0 ∧
    ∃ p, pc p = .committing point ∧ ∀ q other, pc q = .committing other → q = p

variable {place : Pc} {q : Pid} {h : History} {pc : Pid → Pc} {st : Store} {i : Fin nbuf}

variable {pc' : Pid → Pc} {outstanding : Nat} {committing : Bool} {at_ : Option CommitPc} {p : Pid}
  {point : CommitPc}

theorem Control.boot : Control (fun _ => .outside) 0 false none where
  opened := ⟨[], List.nodup_nil, by simp [Pc.open], rfl⟩
  idle := fun _ => ⟨rfl, by simp⟩
  busy := by simp

theorem Control.none_open (ctl : Control pc outstanding committing at_) (none : outstanding = 0)
    (p : Pid) : (pc p).open = false := by
  obtain ⟨procs, _, mem, count⟩ := ctl.opened
  have empty : procs = [] := List.length_eq_zero_iff.mp (count.symm.trans none)
  rw [empty] at mem
  by_contra isOpen
  exact List.not_mem_nil ((mem p).mpr (by simpa using isOpen))

/-- Operations are open only while no commit runs. -/
theorem Control.at_none (ctl : Control pc outstanding committing at_)
    (isOpen : (pc p).open = true) : at_ = none := by
  cases at_ with
  | none => rfl
  | some point =>
    have closed := ctl.none_open (ctl.busy point rfl).2.1 p
    rw [isOpen] at closed
    simp at closed

theorem Control.at_some (ctl : Control pc outstanding committing at_)
    (commits : pc p = .committing point) : at_ = some point := by
  cases at_ with
  | none => exact absurd commits ((ctl.idle rfl).2 p point)
  | some other =>
    obtain ⟨_, _, q, same, only⟩ := ctl.busy other rfl
    have isq := only p point commits
    rw [isq, same] at commits
    exact congrArg some (Pc.committing.inj commits)

/-- Where the processes are matters only as far as operations and commits go. -/
theorem Control.of_pc (ctl : Control pc outstanding committing at_)
    (sameOpen : ∀ p, (pc' p).open = (pc p).open)
    (sameCommit : ∀ p point, pc' p = .committing point ↔ pc p = .committing point) :
    Control pc' outstanding committing at_ where
  opened := by
    obtain ⟨procs, nodup, mem, count⟩ := ctl.opened
    exact ⟨procs, nodup, fun p => by rw [sameOpen, mem], count⟩
  idle := by
    intro isNone
    obtain ⟨flag, quiet⟩ := ctl.idle isNone
    exact ⟨flag, fun p point => by rw [ne_eq, sameCommit]; exact quiet p point⟩
  busy := by
    intro point isSome
    obtain ⟨flag, zero, p, here, only⟩ := ctl.busy point isSome
    refine ⟨flag, zero, p, (sameCommit p point).mpr here, fun q other commits => ?_⟩
    exact only q other ((sameCommit q other).mp commits)

/-- A process moves between places that are of one kind. -/
theorem Control.move (ctl : Control pc outstanding committing at_)
    (sameOpen : place.open = (pc p).open)
    (sameCommit : ∀ point, place = .committing point ↔ pc p = .committing point) :
    Control (Function.update pc p place) outstanding committing at_ := by
  apply ctl.of_pc
  · exact fun q => Update.cases q sameOpen fun _ => rfl
  · exact fun q point => Update.cases q (sameCommit point) fun _ => Iff.rfl

theorem Control.enter (ctl : Control pc outstanding committing none)
    (closed : (pc p).open = false) :
    Control (Function.update pc p .inOp) (outstanding + 1) committing none where
  opened := by
    obtain ⟨procs, nodup, mem, count⟩ := ctl.opened
    have absent : p ∉ procs := by
      rw [mem, closed]
      simp
    refine ⟨p :: procs, List.nodup_cons.mpr ⟨absent, nodup⟩, fun q => ?_, by simp [count]⟩
    by_cases same : q = p
    · simp [same, Pc.open]
    · simp [same, mem]
  idle := by
    intro isNone
    obtain ⟨flag, quiet⟩ := ctl.idle isNone
    exact ⟨flag, fun q point => Update.cases q (by simp) fun _ => quiet q point⟩
  busy := by simp

/-- An operation ends; the processes that are still inside one are counted. -/
theorem Control.opened_leave (ctl : Control pc outstanding committing none)
    (isOpen : (pc p).open = true) (leaves : place.open = false) :
    ∃ procs : List Pid, procs.Nodup ∧
      (∀ q, q ∈ procs ↔ (Function.update pc p place q).open = true) ∧
      outstanding - 1 = procs.length := by
  obtain ⟨procs, nodup, mem, count⟩ := ctl.opened
  have member : p ∈ procs := (mem p).mpr isOpen
  refine ⟨procs.erase p, nodup.erase p, fun q => ?_, ?_⟩
  · rw [nodup.mem_erase_iff]
    by_cases same : q = p
    · simp [same, leaves]
    · simp [same, mem]
  · rw [List.length_erase_of_mem member, count]

theorem Control.leave (ctl : Control pc outstanding committing none)
    (isOpen : (pc p).open = true) :
    Control (Function.update pc p .outside) (outstanding - 1) committing none where
  opened := ctl.opened_leave isOpen rfl
  idle := by
    intro isNone
    obtain ⟨flag, quiet⟩ := ctl.idle isNone
    exact ⟨flag, fun q other => Update.cases q (by simp) fun _ => quiet q other⟩
  busy := by simp

/-- The last open operation ends and commits. -/
theorem Control.start (ctl : Control pc outstanding committing none)
    (isOpen : (pc p).open = true) (last : outstanding - 1 = 0) (point : CommitPc) :
    Control (Function.update pc p (.committing point)) (outstanding - 1) true (some point) where
  opened := ctl.opened_leave isOpen rfl
  idle := by simp
  busy := by
    intro other same
    refine ⟨rfl, last, p, by simp [Option.some.inj same], fun q other commits => ?_⟩
    by_contra different
    rw [update_of_ne different] at commits
    exact (ctl.idle rfl).2 q other commits

theorem Control.advance (ctl : Control pc outstanding committing at_)
    (commits : pc p = .committing point) (point' : CommitPc) :
    Control (Function.update pc p (.committing point')) outstanding committing (some point') where
  opened := by
    obtain ⟨procs, nodup, mem, count⟩ := ctl.opened
    refine ⟨procs, nodup, fun q => ?_, count⟩
    rw [mem]
    exact Update.cases q (by simp [commits, Pc.open]) fun _ => Iff.rfl
  idle := by simp
  busy := by
    intro other same
    obtain ⟨flag, zero, r, _, only⟩ := ctl.busy point (ctl.at_some commits)
    refine ⟨flag, zero, p, by simp [Option.some.inj same], fun q other isCommit => ?_⟩
    by_contra different
    rw [update_of_ne different] at isCommit
    exact different ((only q other isCommit).trans (only p point commits).symm)

theorem Control.finish (ctl : Control pc outstanding committing at_)
    (commits : pc p = .committing point) :
    Control (Function.update pc p .outside) outstanding false none where
  opened := by
    obtain ⟨procs, nodup, mem, count⟩ := ctl.opened
    refine ⟨procs, nodup, fun q => ?_, count⟩
    rw [mem]
    exact Update.cases q (by simp [commits, Pc.open]) fun _ => Iff.rfl
  idle := by
    obtain ⟨_, _, r, _, only⟩ := ctl.busy point (ctl.at_some commits)
    refine fun _ => ⟨rfl, fun q other => Update.cases q (by simp) fun isOther isCommit => ?_⟩
    exact isOther ((only q other isCommit).trans (only p point commits).symm)
  busy := by simp

/-- The operation that ends last is the only one. -/
theorem Control.last_open (ctl : Control pc outstanding committing at_) (last : outstanding - 1 = 0)
    (isOpen : (pc p).open = true) (other : (pc q).open = true) : q = p := by
  obtain ⟨procs, nodup, mem, count⟩ := ctl.opened
  have member := (mem p).mpr isOpen
  have rest : procs.erase p = [] := by
    rw [← List.length_eq_zero_iff, List.length_erase_of_mem member]
    omega
  by_contra different
  have remains : q ∈ procs.erase p := nodup.mem_erase_iff.mpr ⟨different, (mem q).mpr other⟩
  rw [rest] at remains
  exact List.not_mem_nil remains

/-! ## Operations and contents -/

namespace History

/-- The updates of some operations, in the order in which they were made. -/
def applied (h : History) (ops : List Nat) : List (Nat × (Block → Block)) :=
  (h.updates.filter fun update => decide (update.op ∈ ops)).map fun update =>
    (update.block, update.change)

/-- The contents after exactly the operations of the committed groups. -/
def committedContent (h : History) (disk : Nat → Block) : Nat → Block :=
  RedoLog.replay disk (h.applied h.committed)

/-- The contents with the operations of the current group too. -/
def content (h : History) (disk : Nat → Block) : Nat → Block :=
  RedoLog.replay disk (h.applied (h.committed ++ h.group))

theorem applied_congr {ops ops' : List Nat}
    (same : ∀ update ∈ h.updates, update.op ∈ ops ↔ update.op ∈ ops') :
    h.applied ops = h.applied ops' := by
  unfold applied
  rw [List.filter_congr]
  intro update member
  simp [same update member]

end History

/-- The history numbers the operations of this run. -/
structure Numbered (pc : Pid → Pc) (h : History) : Prop where
  updates : ∀ update ∈ h.updates, update.op < h.next
  committed : ∀ op ∈ h.committed, op < h.next
  group : ∀ op ∈ h.group, op < h.next
  current : ∀ p, (pc p).open = true → h.current p ∈ h.group ∧ h.current p ∉ h.committed

variable {disk : Nat → Block}

theorem Numbered.boot : Numbered (fun _ => .outside) History.empty where
  updates := by simp [History.empty]
  committed := by simp [History.empty]
  group := by simp [History.empty]
  current := by simp [Pc.open]

theorem Numbered.of_pc (num : Numbered pc h)
    (opened : ∀ p, (pc' p).open = true → (pc p).open = true) : Numbered pc' h :=
  { num with current := fun p isOpen => num.current p (opened p isOpen) }

theorem Numbered.begin (num : Numbered pc h) :
    Numbered (Function.update pc p .inOp) (h.begin p) where
  updates := fun update member => Nat.lt_succ_of_lt (num.updates update member)
  committed := fun op member => Nat.lt_succ_of_lt (num.committed op member)
  group := by
    intro op member
    rcases List.mem_append.mp member with older | new
    · exact Nat.lt_succ_of_lt (num.group op older)
    · rw [List.mem_singleton.mp new]
      exact Nat.lt_succ_self _
  current := by
    intro q
    simp only [History.begin]
    refine Update.cases₂ q (fun _ => ⟨by simp, fun member => ?_⟩) fun _ isOpen => ?_
    · exact Nat.lt_irrefl _ (num.committed _ member)
    · obtain ⟨inGroup, fresh⟩ := num.current q isOpen
      exact ⟨List.mem_append_left _ inGroup, fresh⟩

theorem Numbered.begin_content (num : Numbered pc h) :
    (h.begin p).content disk = h.content disk := by
  unfold History.content
  have same : (h.begin p).applied (h.committed ++ (h.group ++ [h.next])) =
      h.applied (h.committed ++ h.group) := by
    apply History.applied_congr (h := h)
    intro update member
    have older := num.updates update member
    have different : update.op ≠ h.next := by omega
    simp [different]
  exact congrArg _ same

theorem Numbered.update (num : Numbered pc h) (isOpen : (pc p).open = true) (b : Nat)
    (change : Block → Block) : Numbered pc (h.update p b change) :=
  { num with
    updates := by
      intro update member
      rcases List.mem_append.mp member with older | new
      · exact num.updates update older
      · rw [List.mem_singleton.mp new]
        exact num.group _ (num.current p isOpen).1 }

theorem Numbered.update_content (num : Numbered pc h) (isOpen : (pc p).open = true) (b : Nat)
    (change : Block → Block) :
    (h.update p b change).content disk =
      Function.update (h.content disk) b (change (h.content disk b)) := by
  have inGroup := (num.current p isOpen).1
  have more : (h.update p b change).applied (h.committed ++ h.group) =
      h.applied (h.committed ++ h.group) ++ [(b, change)] := by
    simp [History.applied, History.update, List.filter_append, inGroup]
  unfold History.content
  exact (congrArg _ more).trans (RedoLog.replay_snoc _ _ _)

theorem Numbered.update_committed (num : Numbered pc h) (isOpen : (pc p).open = true) (b : Nat)
    (change : Block → Block) :
    (h.update p b change).committedContent disk = h.committedContent disk := by
  have fresh := (num.current p isOpen).2
  have same : (h.update p b change).applied h.committed = h.applied h.committed := by
    simp [History.applied, History.update, List.filter_append, fresh]
  exact congrArg _ same

theorem Numbered.of_log (num : Numbered pc h) (p : Pid) (b : Nat) : Numbered pc (h.log p b) :=
  ⟨num.updates, num.committed, num.group, num.current⟩

/-! ## The invariant -/

structure LogInv (layout : Layout) (disk : Nat → Block) (s : State) (h : History)
    (at_ : Option CommitPc) : Prop where
  control : Control s.pc s.outstanding s.committing at_
  numbered : Numbered s.pc h
  holding : Holding layout s.store s.lh (h.content disk) (h.committedContent disk) at_
  altered : ∀ p, s.store.AlteredBy p → (s.pc p).open = true
  logging : ∀ p b, s.pc p = .logging b → layout.Home b

variable {layout : Layout} {s s' : State} {action : Action}

theorem LogInv.boot (empty : headBlocks (disk layout.start) = []) :
    LogInv layout disk (State.boot disk) History.empty none where
  control := Control.boot
  numbered := Numbered.boot
  holding :=
    { rep := by
        have same : contentOf layout disk (History.empty.content disk) = disk := by
          funext b
          simp [contentOf, History.content, History.applied, History.empty]
        exact same.symm ▸ Represents.boot disk
      home := by simp [State.boot]
      nodup := List.nodup_nil
      busy := trivial
      dirty := by
        intro b
        constructor
        · rintro ⟨i, occupied, _⟩
          simp [State.boot, Store.boot] at occupied
        · simp [State.boot, pending]
      header := empty
      copies := by simp [State.boot]
      room := by simp [copied]
      durable := fun _ _ _ => rfl
      agreed := by simp [pastHead] }
  altered := by
    rintro p ⟨i, holder, _⟩
    simp [State.boot, Store.boot] at holder
  logging := by simp [State.boot]

/-- During a commit no block is changed and not on record. -/
theorem LogInv.settled (inv : LogInv layout disk s h at_) {point : CommitPc}
    (commits : s.pc p = .committing point) (q : Pid) : ¬s.store.AlteredBy q := by
  intro altered
  have none := (inv.control.busy point (inv.control.at_some commits)).2.1
  have closed := inv.control.none_open none q
  rw [inv.altered q altered] at closed
  simp at closed

theorem LogInv.halt (inv : LogInv layout disk s h at_) (reason : Panic) :
    LogInv layout disk (s.halt reason) h at_ :=
  ⟨inv.control, inv.numbered, inv.holding, inv.altered, inv.logging⟩

theorem altered_update (altered : ∀ q, st.AlteredBy q → (pc q).open = true)
    (kept : st.AlteredBy p → place.open = true) :
    ∀ q, st.AlteredBy q → (Function.update pc p place q).open = true :=
  fun q => Update.cases q kept fun _ => altered q

theorem logging_update (logging : ∀ q b, pc q = .logging b → layout.Home b)
    (home : ∀ b, place = .logging b → layout.Home b) :
    ∀ q b, Function.update pc p place q = .logging b → layout.Home b :=
  fun q b => Update.cases q (home b) fun _ => logging q b

theorem Numbered.move (num : Numbered pc h) (opened : place.open = true → (pc p).open = true) :
    Numbered (Function.update pc p place) h := by
  apply num.of_pc
  exact fun q => Update.cases q opened fun _ => id

/-- Processes move, and neither open an operation nor take part in a commit. -/
theorem LogInv.setPc (inv : LogInv layout disk s h at_) (sameOpen : place.open = (s.pc p).open)
    (sameCommit : ∀ point, place = .committing point ↔ s.pc p = .committing point)
    (home : ∀ b, place = .logging b → layout.Home b) :
    LogInv layout disk (s.setPc p place) h at_ where
  control := inv.control.move sameOpen sameCommit
  numbered := inv.numbered.move fun isOpen => sameOpen.symm.trans isOpen
  holding := inv.holding
  altered := altered_update inv.altered fun changed => sameOpen.trans (inv.altered p changed)
  logging := logging_update inv.logging home

theorem LogInv.wakeup (inv : LogInv layout disk s h at_) :
    LogInv layout disk s.wakeup h at_ where
  control := inv.control.of_pc s.wakeup_open s.wakeup_committing
  numbered := inv.numbered.of_pc fun q isOpen => (s.wakeup_open q).symm.trans isOpen
  holding := inv.holding
  altered := fun q changed => (s.wakeup_open q).trans (inv.altered q changed)
  logging := fun q b here => inv.logging q b ((s.wakeup_logging q b).mp here)

theorem LogInv.enter (inv : LogInv layout disk s h none)
    (place : s.pc p = .outside ∨ s.pc p = .beginning) :
    LogInv layout disk ({ s with outstanding := s.outstanding + 1 }.setPc p .inOp) (h.begin p)
      none where
  control := by
    apply inv.control.enter
    rcases place with outside | beginning
    · simp [outside, Pc.open]
    · simp [beginning, Pc.open]
  numbered := inv.numbered.begin
  holding := by
    rw [inv.numbered.begin_content]
    exact inv.holding
  altered := altered_update inv.altered fun _ => rfl
  logging := logging_update inv.logging (by simp)

/-- `end_op` while other operations are open. -/
theorem LogInv.leave (inv : LogInv layout disk s h none) (isOpen : s.pc p = .inOp)
    (settled : ¬s.store.AlteredBy p) :
    LogInv layout disk ({ s with outstanding := s.outstanding - 1 }.setPc p .outside) h none where
  control := inv.control.leave (by simp [isOpen, Pc.open])
  numbered := inv.numbered.move (by simp [Pc.open])
  holding := inv.holding
  altered := altered_update inv.altered fun changed => absurd changed settled
  logging := logging_update inv.logging (by simp)

/-- The last `end_op` of a group. -/
theorem LogInv.start (inv : LogInv layout disk s h none) (isOpen : s.pc p = .inOp)
    (settled : ¬s.store.AlteredBy p) (last : s.outstanding - 1 = 0) :
    ∃ at', LogInv layout disk
      ({ s with outstanding := s.outstanding - 1, committing := true }.setPc p
        (.committing (if s.lh = [] then .finish else .writeLog 0))) h at' := by
  have opened : (s.pc p).open = true := by simp [isOpen, Pc.open]
  have allSettled : ∀ q, ¬s.store.AlteredBy q := by
    intro q changed
    have same := inv.control.last_open last opened (inv.altered q changed)
    exact settled (same ▸ changed)
  refine ⟨some (if s.lh = [] then .finish else .writeLog 0), ?_⟩
  exact
    { control := inv.control.start opened last _
      numbered := inv.numbered.move (by simp [Pc.open])
      holding := by
        have holding := inv.holding
        by_cases empty : s.lh = []
        · simp only [if_pos empty]
          rw [empty] at holding
          exact empty.symm ▸ holding.startEmpty allSettled
        · simp only [if_neg empty]
          exact holding.start empty
      altered := altered_update inv.altered fun changed => absurd changed settled
      logging := logging_update inv.logging (by simp) }

/-- A process reads, changes or releases a buffer. -/
theorem LogInv.store (inv : LogInv layout disk s h at_) {store : Store}
    (holding : Holding layout store s.lh (h.content disk) (h.committedContent disk) at_)
    (altered : ∀ q, store.AlteredBy q → (s.pc q).open = true) :
    LogInv layout disk { s with store := store } h at_ :=
  ⟨inv.control, inv.numbered, holding, altered, inv.logging⟩

theorem brelse_alteredBy (changed : (st.brelse i).AlteredBy q) : st.AlteredBy q := by
  obtain ⟨j, holder, altered⟩ := changed
  have different : j ≠ i := by
    rintro rfl
    simp [Store.brelse, Store.setBuf] at holder
  rw [Store.brelse_cache_of_ne different] at holder altered
  exact ⟨j, holder, altered⟩

theorem modify_alteredBy {change : Block → Block} (holder : (st.cache i).holder = some p)
    (changed : (st.modify i change).AlteredBy q) : q = p ∨ st.AlteredBy q := by
  obtain ⟨j, held, altered⟩ := changed
  by_cases same : j = i
  · have held : (st.cache i).holder = some q := by
      simpa [Store.modify, Store.setBuf, same] using held
    exact Or.inl (Option.some.inj (held.symm.trans holder))
  · rw [Store.modify_cache_of_ne same] at held altered
    exact Or.inr ⟨j, held, altered⟩

theorem markDirty_alteredBy (changed : (st.markDirty i).AlteredBy q) : st.AlteredBy q := by
  obtain ⟨j, holder, altered⟩ := changed
  have different : j ≠ i := by
    rintro rfl
    simp [Store.markDirty, Store.setBuf] at altered
  rw [Store.markDirty, Store.setBuf_cache_of_ne different] at holder altered
  exact ⟨j, holder, altered⟩

theorem LogInv.modify (inv : LogInv layout disk s h at_) {b : Nat} (change : Block → Block)
    (place : s.pc p = .inOp) (home : layout.Home b) (blockno : (s.store.cache i).blockno = some b)
    (holder : (s.store.cache i).holder = some p) :
    LogInv layout disk { s with store := s.store.modify i change } (h.update p b change) at_ := by
  have isOpen : (s.pc p).open = true := by simp [place, Pc.open]
  obtain rfl := inv.control.at_none isOpen
  exact
    { inv with
      numbered := inv.numbered.update isOpen b change
      holding := by
        rw [inv.numbered.update_content isOpen, inv.numbered.update_committed isOpen]
        exact inv.holding.modify change home blockno (by simp [holder])
      altered := by
        intro q changed
        rcases modify_alteredBy holder changed with rfl | before
        · exact isOpen
        · exact inv.altered q before }

theorem LogInv.logAppend (inv : LogInv layout disk s h at_) {b : Nat} (place : s.pc p = .logging b)
    (blockno : (s.store.cache i).blockno = some b) :
    LogInv layout disk (s.logAppend p b i) (h.log p b) at_ := by
  have isOpen : (s.pc p).open = true := by simp [place, Pc.open]
  obtain rfl := inv.control.at_none isOpen
  have recorded : ∀ c, c ∈ recordBlock s.lh b ↔ c = b ∨ c ∈ s.lh := by
    intro c
    rw [recordBlock_eq]
    by_cases member : b ∈ s.lh
    · rw [if_pos member]
      exact ⟨Or.inr, fun either => either.elim (fun same => same ▸ member) id⟩
    · rw [if_neg member, List.mem_append, List.mem_singleton, or_comm]
  have nodup : (recordBlock s.lh b).Nodup := by
    rw [recordBlock_eq]
    by_cases member : b ∈ s.lh
    · rw [if_pos member]
      exact inv.holding.nodup
    · rw [if_neg member, ← List.concat_eq_append]
      exact inv.holding.nodup.concat member
  exact
    { control := inv.control.move isOpen.symm (by simp [place])
      numbered := (inv.numbered.move fun _ => isOpen).of_log p b
      holding := inv.holding.logAppend nodup recorded (inv.logging p b place) blockno
      altered := altered_update (fun q changed => inv.altered q (markDirty_alteredBy changed))
        fun _ => rfl
      logging := logging_update inv.logging (by simp) }

/-! ### The steps of `commit` -/

theorem LogInv.advance (inv : LogInv layout disk s h at_) {point point' : CommitPc} {h' : History}
    {store : Store} {lh : List Nat} (commits : s.pc p = .committing point)
    (numbered : Numbered s.pc h')
    (holding : Holding layout store lh (h'.content disk) (h'.committedContent disk) (some point'))
    (altered : ∀ q, store.AlteredBy q → s.store.AlteredBy q) :
    LogInv layout disk
      ({ s with store := store, lh := lh }.setPc p (.committing point')) h' (some point') where
  control := inv.control.advance commits point'
  numbered := numbered.move (by simp [Pc.open])
  holding := holding
  altered := fun q changed => absurd (altered q changed) (inv.settled commits q)
  logging := logging_update inv.logging (by simp)

/-- The operations of the group are committed. -/
def History.commit (h : History) : History :=
  { h with committed := h.committed ++ h.group }

theorem History.commit_content (h : History) :
    h.commit.content disk = h.content disk ∧ h.commit.committedContent disk = h.content disk := by
  constructor
  · unfold History.content
    have same : h.commit.applied (h.commit.committed ++ h.commit.group) =
        h.applied (h.committed ++ h.group) := by
      apply History.applied_congr (h := h)
      intro update _
      simp [History.commit]
    exact congrArg _ same
  · rfl

theorem Numbered.commit (num : Numbered pc h) (closed : ∀ q, (pc q).open = false) :
    Numbered pc h.commit :=
  { num with
    committed := by
      intro op member
      rcases List.mem_append.mp member with older | new
      · exact num.committed op older
      · exact num.group op new
    current := by
      intro q isOpen
      rw [closed q] at isOpen
      simp at isOpen }

theorem LogInv.finish (inv : LogInv layout disk s h (some .finish))
    (commits : s.pc p = .committing .finish) :
    LogInv layout disk ({ s with committing := false }.setPc p .outside) { h with group := [] }
      none where
  control := inv.control.finish commits
  numbered :=
    { updates := inv.numbered.updates
      committed := inv.numbered.committed
      group := by simp
      current := by
        have none := (inv.control.busy .finish rfl).2.1
        intro q isOpen
        by_cases same : q = p
        · simp [State.setPc, same, Pc.open] at isOpen
        · have closed := inv.control.none_open none q
          simp [State.setPc, same, closed] at isOpen }
  holding := by
    have same : History.content { h with group := [] } disk = h.committedContent disk := by
      simp [History.content, History.committedContent, History.applied]
    rw [same]
    exact inv.holding.finish
  altered := fun q changed => absurd changed (inv.settled commits q)
  logging := logging_update inv.logging (by simp)

variable {tail b : Nat} {store : Store} {victim victim' : Fin nbuf}

theorem LogInv.writeLog (inv : LogInv layout disk s h at_)
    (place : s.pc p = .committing (.writeLog tail)) (entry : s.lh[tail]? = some b)
    (done : writeLogBody s.store p (layout.start + tail + 1) b victim victim' = .done store) :
    LogInv layout disk
      ({ s with store := store }.setPc p (.committing (.writeLog (tail + 1)))) h
      (some (.writeLog (tail + 1))) := by
  obtain rfl := inv.control.at_some place
  exact inv.advance place inv.numbered (inv.holding.writeLog entry done)
    (writeLogBody_written inv.holding.rep done).alteredBy

theorem LogInv.writeHead (inv : LogInv layout disk s h at_)
    (place : s.pc p = .committing .writeHead)
    (done : Log.writeHead s.store p layout.start s.lh victim = .done store) :
    LogInv layout disk ({ s with store := store }.setPc p (.committing (.install 0))) h.commit
      (some (.install 0)) := by
  obtain rfl := inv.control.at_some place
  have none := (inv.control.busy .writeHead rfl).2.1
  apply inv.advance place (inv.numbered.commit (inv.control.none_open none))
  · rw [h.commit_content.1, h.commit_content.2]
    exact inv.holding.writeHead (inv.settled place) done
  · exact (writeHead_written inv.holding.rep done).alteredBy

theorem LogInv.install (inv : LogInv layout disk s h at_)
    (place : s.pc p = .committing (.install tail)) (entry : s.lh[tail]? = some b)
    (done : installBody s.store p (layout.start + tail + 1) b victim victim' = .done store) :
    LogInv layout disk
      ({ s with store := store }.setPc p (.committing (.install (tail + 1)))) h
      (some (.install (tail + 1))) := by
  obtain rfl := inv.control.at_some place
  exact inv.advance place inv.numbered (inv.holding.install entry done)
    (installBody_written inv.holding.rep done).alteredBy

theorem LogInv.clear (inv : LogInv layout disk s h at_) (place : s.pc p = .committing .clear)
    (done : Log.writeHead s.store p layout.start [] victim = .done store) :
    LogInv layout disk
      ({ s with store := store, lh := [] }.setPc p (.committing .finish)) { h with logged := [] }
      (some .finish) := by
  obtain rfl := inv.control.at_some place
  have numbered : Numbered s.pc { h with logged := [] } :=
    ⟨inv.numbered.updates, inv.numbered.committed, inv.numbered.group, inv.numbered.current⟩
  exact inv.advance place numbered (inv.holding.clear (inv.settled place) done)
    (writeHead_written inv.holding.rep done).alteredBy

theorem LogInv.at_none_of_idle (inv : LogInv layout disk s h at_) (idle : s.committing = false) :
    at_ = none := by
  cases at_ with
  | none => rfl
  | some point =>
    have busy := (inv.control.busy point rfl).1
    rw [idle] at busy
    simp at busy

/-- What one step of any process preserves. -/
theorem LogInv.step (inv : LogInv layout disk s h at_) (step : Step layout s action s') :
    ∃ at', LogInv layout disk s' (observe s action s' h) at' := by
  cases step with
  | @sleepBegin p place =>
    have quiet : observe s (.beginOp p) (s.setPc p .asleep) h = h := by
      simp [observe, State.setPc]
    rw [quiet]
    refine ⟨at_, inv.setPc ?_ ?_ (by simp)⟩ <;> rcases place with outside | beginning <;>
      simp_all [Pc.open]
  | @enter p place idle room =>
    obtain rfl := inv.at_none_of_idle idle
    have begun : observe s (.beginOp p)
        ({ s with outstanding := s.outstanding + 1 }.setPc p .inOp) h = h.begin p := by
      simp [observe, State.setPc]
    exact ⟨none, begun ▸ inv.enter place⟩
  | @badEnd p place busy =>
    obtain rfl := inv.control.at_none (p := p) (by simp [place, Pc.open])
    have idle := (inv.control.idle rfl).1
    rw [busy] at idle
    simp at idle
  | @lastEnd p place settled idle last =>
    obtain rfl := inv.at_none_of_idle idle
    exact inv.start place settled last
  | @otherEnd p place settled idle more =>
    obtain rfl := inv.at_none_of_idle idle
    exact ⟨none, inv.wakeup.leave (by simp [State.wakeup, place]) settled⟩
  | bread reads home got =>
    have fetched := inv.holding.rep.bread got
    exact ⟨at_, inv.store (inv.holding.bread got)
      fun q changed => inv.altered q (fetched.alteredBy changed)⟩
  | modify place home blockno holder => exact ⟨at_, inv.modify _ place home blockno holder⟩
  | tooBig | outsideTrans => exact ⟨at_, inv.halt _⟩
  | @logWrite p b place home holds room =>
    refine ⟨at_, inv.setPc (by simp [place, Pc.open]) (by simp [place]) ?_⟩
    intro c same
    rw [← Pc.logging.inj same]
    exact home
  | @logAppend p b i place blockno holder =>
    have logged : observe s (.logAppend p) (s.logAppend p b i) h = h.log p b := by
      simp [observe, place]
    exact ⟨at_, logged ▸ inv.logAppend place blockno⟩
  | brelse reads blockno holder unaltered =>
    exact ⟨at_, inv.store (inv.holding.brelse blockno unaltered)
      fun q changed => inv.altered q (brelse_alteredBy changed)⟩
  | @halt action reason calls cache => exact ⟨at_, (observe_halt calls).symm ▸ inv.halt reason⟩
  | @writeLog p tail b victim victim' store place entry done =>
    have quiet : observe s (.commit p victim victim')
        ({ s with store := store }.setPc p (.committing (.writeLog (tail + 1)))) h = h := by
      simp [observe, place, State.setPc]
    exact ⟨_, quiet ▸ inv.writeLog place entry done⟩
  | @logWritten p tail victim victim' place past =>
    have quiet : observe s (.commit p victim victim')
        (s.setPc p (.committing .writeHead)) h = h := by
      simp [observe, place, State.setPc]
    obtain rfl := inv.control.at_some place
    exact ⟨_, quiet ▸ inv.advance place inv.numbered (inv.holding.logWritten past)
      fun _ => id⟩
  | @writeHead p victim victim' store place done =>
    have commits : observe s (.commit p victim victim')
        ({ s with store := store }.setPc p (.committing (.install 0))) h = h.commit := by
      simp [observe, place, State.setPc, History.commit]
    exact ⟨_, commits ▸ inv.writeHead place done⟩
  | @install p tail b victim victim' store place entry done =>
    have quiet : observe s (.commit p victim victim')
        ({ s with store := store }.setPc p (.committing (.install (tail + 1)))) h = h := by
      simp [observe, place, State.setPc]
    exact ⟨_, quiet ▸ inv.install place entry done⟩
  | @installed p tail victim victim' place past =>
    have quiet : observe s (.commit p victim victim')
        (s.setPc p (.committing .clear)) h = h := by
      simp [observe, place, State.setPc]
    obtain rfl := inv.control.at_some place
    exact ⟨_, quiet ▸ inv.advance place inv.numbered (inv.holding.installed past)
      fun _ => id⟩
  | @clear p victim victim' store place done =>
    have clears : observe s (.commit p victim victim')
        ({ s with store := store, lh := [] }.setPc p (.committing .finish)) h =
          { h with logged := [] } := by
      simp [observe, place, State.setPc]
    exact ⟨_, clears ▸ inv.clear place done⟩
  | @finish p victim victim' place =>
    have closes : observe s (.commit p victim victim')
        ({ s with committing := false }.wakeup.setPc p .outside) h = { h with group := [] } := by
      simp [observe, place, State.setPc]
    obtain rfl := inv.control.at_some place
    exact ⟨none, closes ▸ inv.wakeup.finish ((s.wakeup_committing p _).mpr place)⟩

/-- What a run preserves. -/
theorem LogInv.of_run {actions : List Action}
    (empty : headBlocks (disk layout.start) = [])
    (ran : TransitionSystem.run (record layout) (State.boot disk, History.empty) actions =
      some (s, h)) : ∃ at_, LogInv layout disk s h at_ := by
  refine TransitionSystem.run_invariant
    (fun recorded => ∃ at_, LogInv layout disk recorded.1 recorded.2 at_) ?_
    ⟨none, LogInv.boot empty⟩ ran
  intro before action after ⟨at_, inv⟩ taken
  obtain ⟨stepped, history⟩ := TransitionSystem.watch_eq_some.mp taken
  rw [history]
  exact inv.step (Step.of_step stepped).2

end Xv6.Log
