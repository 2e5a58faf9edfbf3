import Xv6.Bio.Concurrent

/-!
What the buffer cache stands for.

Owns: the history of the last data stored in each block and of the blocks on record in the
log; the invariant that ties buffers, locks and disk to it; and the transparency of the cache.

Does not own: the log (`Xv6.Log`).
-/

open scoped BigOperators

namespace Xv6.Bcache

open Function (update update_self update_of_ne update_eq_self)

open TransitionSystem
open Xv6.Bio (Block nbuf fssize)

variable {n blockno : Nat} {s next : State n} {p q : Fin n} {i j : Fin nbuf} {buf : Buf n} {pc : Pc}
  {a : Action n} {h : History}

/-! ## History -/

structure History where
  /-- What a holder of a block stored there last; before that, what the disk held. -/
  latest : Nat → Block
  /-- A `bwrite` of the block has followed the last `log_write` of it. -/
  installed : Nat → Bool

def History.start (disk : Nat → Block) : History where
  latest := disk
  installed _ := false

def observe (before : State n) (a : Action n) (_after : State n) (h : History) : History :=
  match a with
  | .modify _ i change =>
    { h with latest :=
        Function.update h.latest (before.buf i).blockno (change (before.buf i).data) }
  | .logWrite _ i =>
    { h with installed := Function.update h.installed (before.buf i).blockno false }
  | .bwrite _ i =>
    { h with installed := Function.update h.installed (before.buf i).blockno true }
  | _ => h

/-- The block is on record in the log, and its `bwrite` in `install_trans` is still to come. -/
def Pending (s : State n) (h : History) (blockno : Nat) : Prop :=
  blockno ∈ s.lh ∧ h.installed blockno = false

/-- The block a buffer or the disk holds: what cache and disk stand for together. -/
def State.contents (s : State n) (blockno : Nat) : Block :=
  match s.order.find? fun i => (s.buf i).caches blockno && (s.buf i).valid with
  | some i => (s.buf i).data
  | none => s.disk blockno

/-! ## References -/

/-- In `bget` or `brelse`, with a reference to the buffer and without its lock. -/
def Pc.awaits (i : Fin nbuf) : Pc → Bool
  | .locking j _ => decide (j = i)
  | .releasing j => decide (j = i)
  | _ => false

/-- The references of a process to a buffer. -/
def State.refs (s : State n) (i : Fin nbuf) (p : Fin n) : Nat :=
  (if (s.buf i).lock = some p then 1 else 0) + if (s.pc p).awaits i = true then 1 else 0

/-- A process expects the buffer to be of this block. -/
def Pc.expects (i : Fin nbuf) (blockno : Nat) (pc : Pc) : Prop :=
  pc = .locking i blockno ∨ pc = .reading i blockno

structure RefInv (s : State n) : Prop where
  /-- The list has every buffer. -/
  complete : ∀ i, i ∈ s.order
  unique : ∀ i j blockno, (s.buf i).caches blockno = true → (s.buf j).caches blockno = true → i = j
  count : ∀ i, (s.buf i).refcnt = ∑ p, s.refs i p
  named : ∀ p i blockno, (s.pc p).expects i blockno → (s.buf i).caches blockno = true
  reader : ∀ p i blockno, s.pc p = .reading i blockno → (s.buf i).lock = some p
  onRoot : ∀ i p, (s.buf i).lock = some p → (s.buf i).dev = rootdev

namespace RefInv

/-- A buffer without references is neither locked nor waited for. -/
theorem unused (inv : RefInv s) (none_ : (s.buf i).refcnt = 0) (p : Fin n) :
    (s.buf i).lock ≠ some p ∧ (s.pc p).awaits i = false := by
  rw [inv.count i] at none_
  have zero := Tally.eq_zero_of_sum none_ p
  unfold State.refs at zero
  constructor
  · intro held
    simp [held] at zero
  · apply Bool.eq_false_iff.mpr
    intro awaits
    simp [awaits] at zero

theorem lock_none (inv : RefInv s) (none_ : (s.buf i).refcnt = 0) : (s.buf i).lock = none := by
  cases held : (s.buf i).lock with
  | none => rfl
  | some p => exact absurd held (inv.unused none_ p).1

theorem count_change (inv : RefInv s) (p : Fin n)
    (others : ∀ q, q ≠ p → next.refs i q = s.refs i q) :
    ∑ q, next.refs i q + s.refs i p = (s.buf i).refcnt + next.refs i p := by
  rw [inv.count i]
  exact Tally.sum_change p others

/-- A step of one process on one buffer that keeps the buffer's block. -/
theorem sameBlock (inv : RefInv s) (order : ∀ j, j ∈ next.order)
    (bufs : next.buf = update s.buf i buf) (pcs : next.pc = update s.pc p pc)
    (caches : buf.caches = (s.buf i).caches) (count : buf.refcnt + s.refs i p = (s.buf i).refcnt +
      ((if buf.lock = some p then 1 else 0) + if pc.awaits i = true then 1 else 0))
    (others : ∀ q, q ≠ p → (buf.lock = some q ↔ (s.buf i).lock = some q))
    (awaits : ∀ j, j ≠ i → pc.awaits j = (s.pc p).awaits j)
    (named : ∀ j blockno, pc.expects j blockno → (s.buf j).caches blockno = true)
    (reader : ∀ j blockno, pc = .reading j blockno → j = i ∧ buf.lock = some p)
    (onRoot : ∀ q, buf.lock = some q → buf.dev = rootdev) : RefInv next := by
  have cachesAll : ∀ j, (next.buf j).caches = (s.buf j).caches := by
    rw [bufs]
    exact fun j => Update.cases j caches fun _ => rfl
  have otherRefs : ∀ j q, q ≠ p → next.refs j q = s.refs j q := by
    intro j q different
    unfold State.refs
    rw [bufs, pcs, update_of_ne different]
    refine Update.cases j ?_ fun _ => rfl
    simp only [others q different]
  refine ⟨order, ?_, ?_, ?_, ?_, ?_⟩
  · intro j k blockno first second
    rw [cachesAll] at first second
    exact inv.unique j k blockno first second
  · intro j
    have change := inv.count_change p (otherRefs j)
    unfold State.refs at change count ⊢
    rw [bufs, pcs] at change ⊢
    rw [update_self] at change
    by_cases same : j = i
    · subst same
      rw [update_self] at change ⊢
      omega
    · rw [update_of_ne same] at change ⊢
      rw [awaits j same] at change
      omega
  · intro q j blockno
    rw [cachesAll, pcs]
    exact Update.cases q (named j blockno) fun _ => inv.named q j blockno
  · intro q j blockno
    rw [bufs, pcs]
    refine Update.cases q (fun reading => ?_) fun isOther reading => ?_
    · obtain ⟨rfl, held⟩ := reader j blockno reading
      rw [update_self]
      exact held
    · have held := inv.reader q j blockno reading
      revert held
      exact Update.cases j (others q isOther).mpr fun _ => id
  · intro j q
    rw [bufs]
    exact Update.cases j (onRoot q) fun _ => inv.onRoot j q

/-- A buffer without references gets another block. -/
theorem recycle (inv : RefInv s) (idle : s.pc p = .idle)
    (uncached : ∀ j, (s.buf j).caches blockno = false) (unused : (s.buf i).refcnt = 0)
    (order : next.order = s.order)
    (bufs : next.buf = update s.buf i ((s.buf i).assign blockno))
    (pcs : next.pc = update s.pc p (.locking i blockno)) : RefInv next := by
  have noLock := inv.lock_none unused
  have locks : ∀ j, (next.buf j).lock = (s.buf j).lock := by
    rw [bufs]
    exact fun j => Update.cases j rfl fun _ => rfl
  have cached : ∀ j other, (next.buf j).caches other = true →
      j = i ∧ other = blockno ∨ other ≠ blockno ∧ (s.buf j).caches other = true := by
    intro j other
    rw [bufs]
    refine Update.cases j (fun found => ?_) fun _ found => .inr ⟨?_, found⟩
    · exact .inl ⟨rfl, (Buf.caches_iff.mp found).2.symm⟩
    · rintro rfl
      cases found.symm.trans (uncached j)
  refine ⟨by rw [order]; exact inv.complete, ?_, ?_, ?_, ?_, ?_⟩
  · intro j k other first second
    rcases cached j other first, cached k other second with
      ⟨⟨isFirst, isNew⟩ | ⟨isOld, first⟩, ⟨isSecond, isNew'⟩ | ⟨isOld', second⟩⟩
    · rw [isFirst, isSecond]
    · exact absurd isNew isOld'
    · exact absurd isNew' isOld
    · exact inv.unique j k other first second
  · intro j
    have otherRefs : ∀ q, q ≠ p → next.refs j q = s.refs j q := by
      intro q different
      unfold State.refs
      rw [locks, pcs, update_of_ne different]
    have change := inv.count_change p otherRefs
    unfold State.refs at change ⊢
    rw [locks, pcs, update_self, idle] at change
    rw [locks, pcs, bufs]
    by_cases same : j = i
    · subst same
      rw [noLock, unused] at change
      rw [update_self, noLock]
      simpa [Pc.awaits, Buf.assign] using change.symm
    · rw [update_of_ne same]
      have after : Pc.awaits j (.locking i blockno) = Pc.awaits j .idle :=
        decide_eq_false (Ne.symm same)
      rw [after] at change
      omega
  · intro q j other
    rw [bufs, pcs]
    refine Update.cases q ?_ fun _ expects => ?_
    · rintro (locking | reading)
      · cases locking
        rw [update_self, Buf.caches_iff]
        exact ⟨rfl, rfl⟩
      · cases reading
    · have different : j ≠ i := by
        rintro rfl
        rcases expects with locking | reading
        · have free := (inv.unused unused q).2
          rw [locking] at free
          simp [Pc.awaits] at free
        · exact (inv.unused unused q).1 (inv.reader q j other reading)
      rw [update_of_ne different]
      exact inv.named q j other expects
  · intro q j other
    rw [pcs, locks]
    exact Update.cases q (fun reading => nomatch reading) fun _ => inv.reader q j other
  · intro j q
    rw [bufs]
    exact Update.cases j (fun _ => rfl) fun _ => inv.onRoot j q

/-- A step of a holder on a buffer's data and flags. -/
theorem ofHolder (inv : RefInv s) (order : next.order = s.order)
    (bufs : next.buf = update s.buf i buf) (pcs : next.pc = s.pc)
    (caches : buf.caches = (s.buf i).caches) (refcnt : buf.refcnt = (s.buf i).refcnt)
    (lock : buf.lock = (s.buf i).lock) (dev : buf.dev = (s.buf i).dev)
    (held : (s.buf i).lock = some p) (idle : s.pc p = .idle) : RefInv next := by
  refine inv.sameBlock (p := p) (by rw [order]; exact inv.complete) bufs
    (by rw [pcs, update_eq_self]) caches ?_ ?_ (fun _ _ => rfl) ?_ ?_ ?_
  · rw [refcnt, lock]
    rfl
  · intro q _
    rw [lock]
  · exact inv.named p
  · intro j blockno reading
    rw [idle] at reading
    cases reading
  · intro q _
    rw [dev]
    exact inv.onRoot i p held

theorem step (inv : RefInv s) (stepped : Step s a next) : RefInv next := by
  cases stepped with
  | @hit p blockno i idle cached =>
    refine inv.sameBlock inv.complete rfl rfl rfl ?_ (fun _ _ => Iff.rfl) ?_ ?_ ?_
      (inv.onRoot i)
    · simp [State.refs, idle, Pc.awaits]
      omega
    · intro j different
      rw [idle]
      exact decide_eq_false (Ne.symm different)
    · intro j other expects
      rcases expects with locking | reading
      · cases locking
        exact cached
      · cases reading
    · simp
  | recycle idle uncached unused clean =>
    exact inv.recycle idle (fun j => uncached j (inv.complete j)) unused rfl rfl rfl
  | @lock p blockno i at_ free =>
    have cached := inv.named p i blockno (.inl at_)
    refine inv.sameBlock inv.complete rfl rfl rfl ?_ ?_ ?_ ?_ ?_ ?_
    · simp [State.refs, at_, free, Pc.awaits]
    · intro q different
      simp [free, Ne.symm different]
    · intro j different
      rw [at_]
      exact (decide_eq_false (Ne.symm different)).symm
    · intro j other expects
      rcases expects with locking | reading
      · cases locking
      · cases reading
        exact cached
    · intro j other reading
      cases reading
      exact ⟨rfl, rfl⟩
    · intro q _
      exact (Buf.caches_iff.mp cached).1
  | @valid p blockno i at_ valid =>
    refine inv.sameBlock (i := i) (p := p) inv.complete (update_eq_self i s.buf).symm rfl
      rfl ?_ (fun _ _ => Iff.rfl) ?_ ?_ ?_ (inv.onRoot i)
    · simp [State.refs, at_, Pc.awaits]
    · intro j _
      rw [at_]
      rfl
    · simp [Pc.expects]
    · simp
  | @read p blockno i disk buf at_ invalid syncs =>
    have same : buf.caches = (s.buf i).caches ∧ buf.refcnt = (s.buf i).refcnt ∧
        buf.lock = (s.buf i).lock ∧ buf.dev = (s.buf i).dev := by
      cases syncs <;> exact ⟨rfl, rfl, rfl, rfl⟩
    obtain ⟨caches, refcnt, lock, dev⟩ := same
    refine inv.sameBlock inv.complete rfl rfl caches ?_ ?_ ?_ ?_ ?_ ?_
    · rw [refcnt, lock]
      simp [State.refs, at_, Pc.awaits]
    · intro q _
      rw [lock]
    · intro j _
      rw [at_]
      rfl
    · simp [Pc.expects]
    · simp
    · intro q held
      rw [lock] at held
      rw [dev]
      exact inv.onRoot i q held
  | @unref p i at_ =>
    have referenced : 0 < (s.buf i).refcnt := by
      have bound : s.refs i p ≤ ∑ q, s.refs i q := Tally.le_sum _ p
      rw [← inv.count i] at bound
      simp [State.refs, at_, Pc.awaits] at bound
      omega
    refine inv.sameBlock ?_ rfl rfl rfl ?_ (fun _ _ => Iff.rfl) ?_ ?_ ?_ (inv.onRoot i)
    · intro j
      show j ∈ if (s.buf i).refcnt - 1 = 0 then i :: s.order.erase i else s.order
      split
      · by_cases same : j = i
        · rw [same]
          exact List.mem_cons_self
        · exact List.mem_cons_of_mem i ((List.mem_erase_of_ne same).mpr (inv.complete j))
      · exact inv.complete j
    · simp [State.refs, at_, Pc.awaits]
      omega
    · intro j different
      rw [at_]
      exact (decide_eq_false (Ne.symm different)).symm
    · simp [Pc.expects]
    · simp
  | modify idle held | logWrite idle held | bwrite idle held =>
    exact inv.ofHolder rfl rfl rfl rfl rfl rfl rfl held idle
  | @brelse p i idle held passed =>
    refine inv.sameBlock inv.complete rfl rfl rfl ?_ ?_ ?_ ?_ ?_ ?_
    · simp [State.refs, idle, held, Pc.awaits]
    · intro q different
      simp [held, Ne.symm different]
    · intro j different
      rw [idle]
      exact decide_eq_false (Ne.symm different)
    · simp [Pc.expects]
    · simp
    · simp
  | clearLog idle => exact ⟨inv.complete, inv.unique, inv.count, inv.named, inv.reader, inv.onRoot⟩

theorem start (disk : Nat → Block) : RefInv (Bcache.start (n := n) disk) where
  complete i := List.mem_reverse.mpr (List.mem_finRange i)
  unique i j blockno cached _ := by
    rw [Buf.caches_iff] at cached
    cases cached.1
  count i := by simp [Bcache.start, State.refs, Pc.awaits]
  named p i blockno expects := by
    rcases expects with locking | reading <;> contradiction
  reader p i blockno reading := by cases reading
  onRoot i p held := by cases held

end RefInv

/-! ## Data -/

theorem mem_record {lh : List Nat} {other : Nat} (member : other ∈ record lh blockno) :
    other ∈ lh ∨ other = blockno := by
  unfold record at member
  split at member
  · exact .inl member
  · simpa using member

structure DataInv (s : State n) (h : History) : Prop where
  dirty : ∀ i, (s.buf i).dirty = true → (s.buf i).valid = true
  /-- A buffer `bread` has returned is valid. -/
  held : ∀ i p, (s.buf i).lock = some p → (∀ blockno, s.pc p ≠ .reading i blockno) →
    (s.buf i).valid = true
  altered : ∀ i, (s.buf i).altered = true → (s.buf i).lock ≠ none ∧ (s.buf i).valid = true
  data : ∀ i, (s.buf i).dev = rootdev → (s.buf i).valid = true →
    (s.buf i).data = h.latest (s.buf i).blockno
  /-- The disk has what no buffer still has to write. -/
  synced : ∀ blockno, (∀ i, (s.buf i).caches blockno = true →
    (s.buf i).dirty = false ∧ (s.buf i).altered = false) → s.disk blockno = h.latest blockno
  pinned : ∀ blockno, Pending s h blockno →
    ∃ i, (s.buf i).caches blockno = true ∧ (s.buf i).dirty = true

/-- Two buffers that differ in `refcnt` and the lock at most. -/
structure SameData (after before : Buf n) : Prop where
  dev : after.dev = before.dev
  blockno : after.blockno = before.blockno
  valid : after.valid = before.valid
  dirty : after.dirty = before.dirty
  data : after.data = before.data
  altered : after.altered = before.altered

theorem SameData.caches {after before : Buf n} (same : SameData after before) :
    after.caches = before.caches := by
  unfold Buf.caches
  rw [same.dev, same.blockno]

theorem SameData.update (same : SameData buf (s.buf i)) (j : Fin nbuf) :
    SameData (update s.buf i buf j) (s.buf j) :=
  Update.cases j same fun _ => ⟨rfl, rfl, rfl, rfl, rfl, rfl⟩

namespace DataInv

variable {h : History}

/-- A step on references and locks. -/
theorem quiet (inv : DataInv s h) (disk : next.disk = s.disk) (lh : next.lh = s.lh)
    (same : ∀ j, SameData (next.buf j) (s.buf j))
    (held : ∀ i p, (next.buf i).lock = some p → (∀ blockno, next.pc p ≠ .reading i blockno) →
      (s.buf i).valid = true)
    (altered : ∀ i, (s.buf i).altered = true → (next.buf i).lock ≠ none) : DataInv next h where
  dirty i := by
    rw [(same i).dirty, (same i).valid]
    exact inv.dirty i
  held i p locked returned := by
    rw [(same i).valid]
    exact held i p locked returned
  altered i := by
    rw [(same i).altered, (same i).valid]
    exact fun isAltered => ⟨altered i isAltered, (inv.altered i isAltered).2⟩
  data i := by
    rw [(same i).dev, (same i).valid, (same i).data, (same i).blockno]
    exact inv.data i
  synced blockno clean := by
    rw [disk]
    apply inv.synced blockno
    intro i cached
    have passed := clean i
    rw [(same i).caches, (same i).dirty, (same i).altered] at passed
    exact passed cached
  pinned blockno pending := by
    unfold Pending at pending
    rw [lh] at pending
    obtain ⟨i, cached, dirty⟩ := inv.pinned blockno pending
    refine ⟨i, ?_, ?_⟩
    · rw [(same i).caches]
      exact cached
    · rw [(same i).dirty]
      exact dirty

theorem recycle (inv : DataInv s h) (refs : RefInv s) (unused : (s.buf i).refcnt = 0)
    (clean : (s.buf i).dirty = false) (idle : s.pc p = .idle) (disk : next.disk = s.disk)
    (lh : next.lh = s.lh) (bufs : next.buf = update s.buf i ((s.buf i).assign blockno))
    (pcs : next.pc = update s.pc p (.locking i blockno)) : DataInv next h := by
  have free := refs.lock_none unused
  have unaltered : (s.buf i).altered = false := by
    apply Bool.eq_false_iff.mpr
    intro isAltered
    exact (inv.altered i isAltered).1 free
  refine ⟨?_, ?_, ?_, ?_, ?_, ?_⟩
  · rw [bufs]
    exact fun j => Update.cases j (fun isDirty => nomatch isDirty) fun _ => inv.dirty j
  · intro j q
    rw [bufs, pcs]
    refine Update.cases j (fun held _ => ?_) fun _ held returned => ?_
    · cases held.symm.trans free
    · refine inv.held j q held fun other reading => ?_
      have isOther : q ≠ p := by
        rintro rfl
        cases idle.symm.trans reading
      rw [update_of_ne isOther] at returned
      exact returned other reading
  · rw [bufs]
    refine fun j => Update.cases j (fun isAltered => ?_) fun _ => inv.altered j
    cases isAltered.symm.trans unaltered
  · rw [bufs]
    exact fun j => Update.cases j (fun _ valid => nomatch valid) fun _ => inv.data j
  · intro other passed
    rw [disk]
    refine inv.synced other fun j => ?_
    have result := passed j
    rw [bufs] at result
    by_cases same : j = i
    · rw [same]
      exact fun _ => ⟨clean, unaltered⟩
    · rw [update_of_ne same] at result
      exact result
  · intro other pending
    unfold Pending at pending
    rw [lh] at pending
    obtain ⟨j, cached, isDirty⟩ := inv.pinned other pending
    have different : j ≠ i := by
      rintro rfl
      cases clean.symm.trans isDirty
    refine ⟨j, ?_⟩
    rw [bufs, update_of_ne different]
    exact ⟨cached, isDirty⟩

/-- A step on the data and the flags of one buffer of the root device. No other buffer has
its block, so nothing changes for the other blocks. -/
theorem onBlock (inv : DataInv s h) (refs : RefInv s) {after : History}
    (bufs : next.buf = update s.buf i buf) (onRoot : (s.buf i).dev = rootdev)
    (caches : buf.caches = (s.buf i).caches) (blockno : buf.blockno = (s.buf i).blockno)
    (pcs : ∀ q j other, j ≠ i → s.pc q = .reading j other → next.pc q = .reading j other)
    (valid : buf.valid = true) (altered : buf.altered = true → buf.lock ≠ none)
    (data : buf.data = after.latest (s.buf i).blockno)
    (synced : buf.dirty = false → buf.altered = false →
      next.disk (s.buf i).blockno = after.latest (s.buf i).blockno)
    (pinned : Pending next after (s.buf i).blockno → buf.dirty = true)
    (others : ∀ other, other ≠ (s.buf i).blockno → next.disk other = s.disk other ∧
      after.latest other = h.latest other ∧ (Pending next after other → Pending s h other)) :
    DataInv next after := by
  have cachedSelf : (s.buf i).caches (s.buf i).blockno = true := Buf.caches_iff.mpr ⟨onRoot, rfl⟩
  refine ⟨?_, ?_, ?_, ?_, ?_, ?_⟩
  · rw [bufs]
    exact fun j => Update.cases j (fun _ => valid) fun _ => inv.dirty j
  · intro j q
    rw [bufs]
    refine Update.cases j (fun _ _ => valid) fun isOther held returned => ?_
    exact inv.held j q held fun other reading => returned other (pcs q j other isOther reading)
  · rw [bufs]
    exact fun j => Update.cases j (fun isAltered => ⟨altered isAltered, valid⟩) fun _ => inv.altered j
  · rw [bufs]
    refine fun j => Update.cases j (fun _ _ => ?_) fun isOther isRoot isValid => ?_
    · rw [blockno]
      exact data
    · have different : (s.buf j).blockno ≠ (s.buf i).blockno := fun same =>
        isOther (refs.unique j i _ (Buf.caches_iff.mpr ⟨isRoot, same⟩) cachedSelf)
      rw [(others _ different).2.1]
      exact inv.data j isRoot isValid
  · intro other passed
    rw [bufs] at passed
    by_cases same : other = (s.buf i).blockno
    · have clean := passed i
      rw [update_self, caches, same] at clean
      rw [same]
      exact synced (clean cachedSelf).1 (clean cachedSelf).2
    · rw [(others other same).1, (others other same).2.1]
      refine inv.synced other fun j cached => ?_
      have isOther : j ≠ i := by
        rintro rfl
        exact same (Buf.caches_iff.mp cached).2.symm
      have clean := passed j
      rw [update_of_ne isOther] at clean
      exact clean cached
  · intro other pending
    rw [bufs]
    by_cases same : other = (s.buf i).blockno
    · rw [same] at pending ⊢
      refine ⟨i, ?_⟩
      rw [update_self, caches]
      exact ⟨cachedSelf, pinned pending⟩
    · obtain ⟨j, cached, isDirty⟩ := inv.pinned other ((others other same).2.2 pending)
      have isOther : j ≠ i := by
        rintro rfl
        exact same (Buf.caches_iff.mp cached).2.symm
      refine ⟨j, ?_⟩
      rw [update_of_ne isOther]
      exact ⟨cached, isDirty⟩

/-- The disk has the block of a buffer that is still to be read. -/
theorem disk_latest (inv : DataInv s h) (refs : RefInv s) (onRoot : (s.buf i).dev = rootdev)
    (invalid : (s.buf i).valid = false) :
    s.disk (s.buf i).blockno = h.latest (s.buf i).blockno := by
  apply inv.synced
  intro j cached
  have same : j = i := refs.unique j i _ cached (Buf.caches_iff.mpr ⟨onRoot, rfl⟩)
  subst same
  constructor
  · apply Bool.eq_false_iff.mpr
    intro isDirty
    rw [inv.dirty j isDirty] at invalid
    cases invalid
  · apply Bool.eq_false_iff.mpr
    intro isAltered
    rw [(inv.altered j isAltered).2] at invalid
    cases invalid

theorem dirty_of_pending (inv : DataInv s h) (refs : RefInv s) (onRoot : (s.buf i).dev = rootdev)
    (pending : Pending s h (s.buf i).blockno) : (s.buf i).dirty = true := by
  obtain ⟨j, cached, isDirty⟩ := inv.pinned _ pending
  have same := refs.unique j i _ cached (Buf.caches_iff.mpr ⟨onRoot, rfl⟩)
  exact same ▸ isDirty

theorem held_valid (inv : DataInv s h) (returned : ∀ j blockno, s.pc p ≠ .reading j blockno)
    (i : Fin nbuf) (held : (s.buf i).lock = some p) : (s.buf i).valid = true :=
  inv.held i p held (returned i)

/-- One process moves, and the buffers it holds are valid. -/
theorem held_moved (inv : DataInv s h)
    (self : ∀ j, (s.buf j).lock = some p → (∀ blockno, pc ≠ .reading j blockno) →
      (s.buf j).valid = true) (pcs : next.pc = update s.pc p pc)
    (locks : ∀ j q, (next.buf j).lock = some q → (s.buf j).lock = some q ∨ q = p ∧
      ∃ blockno, pc = .reading j blockno) (j : Fin nbuf) (q : Fin n)
    (held : (next.buf j).lock = some q) (returned : ∀ blockno, next.pc q ≠ .reading j blockno) :
    (s.buf j).valid = true := by
  rw [pcs] at returned
  by_cases isSelf : q = p
  · subst isSelf
    rw [update_self] at returned
    rcases locks j q held with before | ⟨_, blockno, reading⟩
    · exact self j before returned
    · exact absurd reading (returned blockno)
  · rw [update_of_ne isSelf] at returned
    rcases locks j q held with before | ⟨same, _⟩
    · exact inv.held j q before returned
    · exact absurd same isSelf

theorem lock_update (lock : buf.lock = (s.buf i).lock) (j : Fin nbuf) :
    (update s.buf i buf j).lock = (s.buf j).lock :=
  Update.cases j lock fun _ => rfl

/-- One process moves and one reference count changes. -/
theorem counted (inv : DataInv s h) (disk : next.disk = s.disk) (lh : next.lh = s.lh)
    (bufs : next.buf = update s.buf i buf) (pcs : next.pc = update s.pc p pc)
    (same : SameData buf (s.buf i)) (lock : buf.lock = (s.buf i).lock)
    (self : ∀ j, (s.buf j).lock = some p → (∀ blockno, pc ≠ .reading j blockno) →
      (s.buf j).valid = true) : DataInv next h := by
  have locks : ∀ j, (next.buf j).lock = (s.buf j).lock := by
    intro j
    rw [bufs]
    exact lock_update lock j
  refine inv.quiet disk lh ?_ ?_ ?_
  · rw [bufs]
    exact same.update
  · exact inv.held_moved self pcs fun j q held => .inl (locks j ▸ held)
  · intro j isAltered
    rw [locks j]
    exact (inv.altered j isAltered).1

theorem step (inv : DataInv s h) (refs : RefInv s) (stepped : Step s a next) :
    DataInv next (observe s a next h) := by
  cases stepped with
  | @hit p blockno i idle cached =>
    refine inv.counted (i := i) (p := p) rfl rfl rfl rfl ⟨rfl, rfl, rfl, rfl, rfl, rfl⟩ rfl ?_
    exact fun j held _ => inv.held_valid (by simp [idle]) j held
  | recycle idle uncached unused clean =>
    exact inv.recycle refs unused clean idle rfl rfl rfl rfl
  | @lock p blockno i at_ free =>
    refine inv.quiet rfl rfl (SameData.update ⟨rfl, rfl, rfl, rfl, rfl, rfl⟩) ?_ ?_
    · refine inv.held_moved (p := p) ?_ rfl ?_
      · exact fun j held _ => inv.held_valid (by simp [at_]) j held
      · intro j q
        change (update s.buf i _ j).lock = some q → _
        refine Update.cases j (fun held => .inr ?_) fun _ => .inl
        exact ⟨(Option.some.inj held).symm, blockno, rfl⟩
    · intro j
      change _ → (update s.buf i _ j).lock ≠ none
      exact Update.cases j (fun _ => Option.some_ne_none p) fun _ isAltered => (inv.altered j isAltered).1
  | @valid p blockno i at_ valid =>
    refine inv.counted (i := i) (p := p) rfl rfl (update_eq_self i s.buf).symm rfl
      ⟨rfl, rfl, rfl, rfl, rfl, rfl⟩ rfl ?_
    intro j held _
    by_cases same : j = i
    · rw [same]
      exact valid
    · apply inv.held j p held
      intro other reading
      rw [at_] at reading
      cases reading
      exact same rfl
  | @read p blockno i disk buf at_ invalid syncs =>
    have cached := refs.named p i blockno (.inr at_)
    have onRoot : (s.buf i).dev = rootdev := (Buf.caches_iff.mp cached).1
    have latest := inv.disk_latest refs onRoot invalid
    cases syncs with
    | write dirty _ =>
      rw [inv.dirty i dirty] at invalid
      cases invalid
    | read clean _ =>
      refine inv.onBlock refs rfl onRoot rfl rfl ?_ rfl ?_ latest (fun _ _ => latest) ?_
        (fun _ _ => ⟨rfl, rfl, id⟩)
      · intro q j other different reading
        have isOther : q ≠ p := by
          intro same
          rw [same, at_] at reading
          cases reading
          exact different rfl
        exact (update_of_ne isOther ..).trans reading
      · intro isAltered
        exact (inv.altered i isAltered).1
      · exact inv.dirty_of_pending refs onRoot
  | @unref p i at_ =>
    refine inv.counted (i := i) (p := p) rfl rfl rfl rfl ⟨rfl, rfl, rfl, rfl, rfl, rfl⟩ rfl ?_
    exact fun j held _ => inv.held_valid (by simp [at_]) j held
  | @modify p i change idle held =>
    have onRoot := refs.onRoot i p held
    have valid := inv.held_valid (by simp [idle]) i held
    refine inv.onBlock refs rfl onRoot rfl rfl (fun _ _ _ _ reading => reading) valid ?_ ?_ ?_ ?_ ?_
    · intro _ unlocked
      cases held.symm.trans unlocked
    · simp [observe]
    · intro clean unaltered
      have dirty : (s.buf i).dirty = true := by simpa using unaltered
      cases dirty.symm.trans clean
    · exact inv.dirty_of_pending refs onRoot
    · intro other different
      exact ⟨rfl, update_of_ne different .., id⟩
  | @logWrite p i idle held =>
    have onRoot := refs.onRoot i p held
    have valid := inv.held_valid (by simp [idle]) i held
    refine inv.onBlock refs rfl onRoot rfl rfl (fun _ _ _ _ reading => reading) valid
      (fun contra => by cases contra) (inv.data i onRoot valid) (fun contra => by cases contra)
      (fun _ => rfl) ?_
    intro other different
    refine ⟨rfl, rfl, ?_⟩
    intro pending
    have recorded := mem_record pending.1
    exact ⟨recorded.resolve_right different, (update_of_ne different ..).symm.trans pending.2⟩
  | @bwrite p i idle held onRoot =>
    have valid := inv.held_valid (by simp [idle]) i held
    have data := inv.data i onRoot valid
    refine inv.onBlock refs rfl onRoot rfl rfl (fun _ _ _ _ reading => reading) rfl
      (fun contra => by cases contra) data ?_ ?_ ?_
    · intro _ _
      exact (update_self ..).trans data
    · intro pending
      simp [Pending, observe] at pending
    · intro other different
      refine ⟨update_of_ne different .., rfl, ?_⟩
      intro pending
      exact ⟨pending.1, (update_of_ne different ..).symm.trans pending.2⟩
  | @brelse p i idle held passed =>
    refine inv.quiet rfl rfl (SameData.update ⟨rfl, rfl, rfl, rfl, rfl, rfl⟩) ?_ ?_
    · refine inv.held_moved (p := p) ?_ rfl ?_
      · exact fun j held _ => inv.held_valid (by simp [idle]) j held
      · intro j q
        change (update s.buf i _ j).lock = some q → _
        exact Update.cases j (fun locked => nomatch locked) fun _ => .inl
    · intro j
      change _ → (update s.buf i _ j).lock ≠ none
      refine Update.cases j (fun isAltered => ?_) fun _ isAltered => (inv.altered j isAltered).1
      cases passed.symm.trans isAltered
  | clearLog idle =>
    refine ⟨inv.dirty, inv.held, inv.altered, inv.data, inv.synced, ?_⟩
    intro blockno pending
    cases pending.1

theorem start (disk : Nat → Block) : DataInv (Bcache.start (n := n) disk) (.start disk) where
  dirty i isDirty := by cases isDirty
  held i p held := by cases held
  altered i isAltered := by cases isAltered
  data i onRoot valid := by cases valid
  synced blockno _ := rfl
  pinned blockno pending := by cases pending.1

end DataInv

/-! ## Transparency -/

/-- Cache and disk stand for what was stored last. -/
theorem DataInv.contents (inv : DataInv s h) (refs : RefInv s) : s.contents = h.latest := by
  funext blockno
  unfold State.contents
  split
  · rename_i i found
    have accepted := List.find?_some found
    simp only [Bool.and_eq_true] at accepted
    obtain ⟨onRoot, isBlock⟩ := Buf.caches_iff.mp accepted.1
    rw [inv.data i onRoot accepted.2, isBlock]
  · rename_i notFound
    -- A buffer of the block that is not valid has nothing to write.
    apply inv.synced
    intro i cached
    have invalid := List.find?_eq_none.mp notFound i (refs.complete i)
    simp only [cached, Bool.true_and] at invalid
    constructor
    · apply Bool.eq_false_iff.mpr
      exact fun isDirty => invalid (inv.dirty i isDirty)
    · apply Bool.eq_false_iff.mpr
      exact fun isAltered => invalid (inv.altered i isAltered).2

theorem cacheInv_of_run {disk : Nat → Block} {actions : List (Action n)}
    (ran : run (watch step observe) (start disk, .start disk) actions = some (s, h)) :
    RefInv s ∧ DataInv s h := by
  apply run_invariant (fun watched => RefInv watched.1 ∧ DataInv watched.1 watched.2) _
    ⟨RefInv.start disk, DataInv.start disk⟩ ran
  intro before a after inv stepped
  obtain ⟨moved, observed⟩ := watch_eq_some.mp stepped
  have inverted := Step.of_step moved
  rw [observed]
  exact ⟨inv.1.step inverted, inv.2.step inv.1 inverted⟩

/-- The block of a buffer changes only in `bget`. -/
theorem Step.reassigned (stepped : Step s a next)
    (moved : (next.buf i).dev ≠ (s.buf i).dev ∨ (next.buf i).blockno ≠ (s.buf i).blockno) :
    (s.buf i).refcnt = 0 ∧ (s.buf i).dirty = false := by
  have unmoved : ∀ j (buf : Buf n), buf.dev = (s.buf j).dev → buf.blockno = (s.buf j).blockno →
      next.buf ≠ update s.buf j buf := by
    intro j buf dev blockno bufs
    rw [bufs] at moved
    by_cases same : i = j
    · rw [same, update_self, dev, blockno] at moved
      simp at moved
    · rw [update_of_ne same] at moved
      simp at moved
  cases stepped with
  | @recycle p blockno j idle uncached unused clean =>
    by_cases same : i = j
    · rw [same]
      exact ⟨unused, clean⟩
    · simp [State.setPc, State.setBuf, update_of_ne same] at moved
  | read at_ invalid syncs =>
    cases syncs with
    | write | read => exact absurd rfl (unmoved _ _ rfl rfl)
  | hit | lock | unref | modify | logWrite | bwrite | brelse =>
    exact absurd rfl (unmoved _ _ rfl rfl)
  | valid | clearLog => simp [State.setPc] at moved

/-- What `bread` returns. -/
theorem bread_returns (refs : RefInv s) (inv : DataInv s h) (at_ : s.pc p = .reading i blockno)
    (returned : step s (.run p) = some next) :
    (next.buf i).caches blockno = true ∧ (next.buf i).lock = some p ∧
      (next.buf i).data = h.latest blockno := by
  have inverted := Step.of_step returned
  have invNext := inv.step refs inverted
  have idle : next.pc p = .idle ∧ (next.buf i).caches = (s.buf i).caches ∧
      (next.buf i).lock = (s.buf i).lock := by
    cases inverted with
    | lock atLock => cases at_.symm.trans atLock
    | unref atRelease => cases at_.symm.trans atRelease
    | valid => exact ⟨update_self .., rfl, rfl⟩
    | read atRead invalid syncs =>
      cases at_.symm.trans atRead
      cases syncs <;> refine ⟨update_self .., ?_, ?_⟩ <;>
        simp only [State.setPc, State.setBuf, update_self] <;> rfl
  obtain ⟨idle, caches, lock⟩ := idle
  have cached := refs.named p i blockno (.inr at_)
  have held := refs.reader p i blockno at_
  rw [← caches] at cached
  rw [← lock] at held
  have valid := invNext.held_valid (by simp [idle]) i held
  have data := invNext.data i (Buf.caches_iff.mp cached).1 valid
  rw [(Buf.caches_iff.mp cached).2] at data
  exact ⟨cached, held, data⟩

/-- The buffer cache is transparent: one buffer a block, recycled only when it is unused and
clean; a block on record in the log stays until it is installed; and every `bread` returns
what was stored last, so that cache and disk are one map. -/
theorem buffer_cache_transparent {disk : Nat → Block} {actions : List (Action n)} {s : State n}
    {h : History}
    (ran : run (watch step observe) (start disk, .start disk) actions = some (s, h)) :
    (∀ i j blockno, (s.buf i).caches blockno = true → (s.buf j).caches blockno = true → i = j) ∧
      (∀ a next i, step s a = some next →
        (next.buf i).dev ≠ (s.buf i).dev ∨ (next.buf i).blockno ≠ (s.buf i).blockno →
        (s.buf i).refcnt = 0 ∧ (s.buf i).dirty = false ∧ (s.buf i).lock = none) ∧
      (∀ blockno, Pending s h blockno →
        ∃ i, (s.buf i).caches blockno = true ∧ (s.buf i).dirty = true) ∧
      (∀ p i blockno next, s.pc p = .reading i blockno → step s (.run p) = some next →
        (next.buf i).caches blockno = true ∧ (next.buf i).lock = some p ∧
          (next.buf i).data = h.latest blockno) ∧
      s.contents = h.latest := by
  obtain ⟨refs, inv⟩ := cacheInv_of_run ran
  refine ⟨refs.unique, ?_, inv.pinned, ?_, inv.contents refs⟩
  · intro a next i stepped moved
    obtain ⟨unused, clean⟩ := (Step.of_step stepped).reassigned moved
    exact ⟨unused, clean, refs.lock_none unused⟩
  · intro p i blockno next at_ returned
    exact bread_returns refs inv at_ returned

/-- Process 0 changes a block and passes it to the log; process 1 is about to get it. -/
def twoHoldersRun : List (Action 2) :=
  [.bread 0 5, .run 0, .run 0, .modify 0 0 (fun _ _ => 7), .logWrite 0 0, .brelse 0 0, .run 0,
    .bread 1 5, .run 1]

theorem buffer_cache_transparent_twoHolders :
    ∃ (s next : State 2) (h : History),
      run (watch step observe) (start (fun _ _ => 0), .start fun _ _ => 0) twoHoldersRun =
        some (s, h) ∧
      s.pc 1 = .reading 0 5 ∧ step s (.run 1) = some next ∧ (next.buf 0).data = h.latest 5 ∧
      h.latest 5 0 = 7 := by
  have shape : (run (watch step observe) (start (fun _ _ => 0), .start fun _ _ => 0)
      twoHoldersRun).map (fun watched : State 2 × History => (watched.1.pc 1,
        (step watched.1 (.run 1)).isSome, watched.2.latest 5 0)) =
      some (.reading 0 5, true, 7) := by
    decide +kernel
  obtain ⟨⟨s, h⟩, ran, observed⟩ := Option.map_eq_some_iff.mp shape
  simp only [Prod.mk.injEq] at observed
  obtain ⟨at_, returns, stored⟩ := observed
  obtain ⟨next, returned⟩ := Option.isSome_iff_exists.mp returns
  have returnedData := ((buffer_cache_transparent ran).2.2.2.1 1 0 5 next at_ returned).2.2
  exact ⟨s, next, h, ran, at_, returned, returnedData, stored⟩

end Xv6.Bcache
