import Xv6.Lib.Update

/-!
The buffer cache over the disk.

Owns: `bread`, `bwrite`, `brelse` and a holder's change to a buffer, and the statement
that cache and disk together stand for one map from block numbers to contents.

Does not own: which blocks are changed, and when (`Xv6.Log`).

A call that sleeps on a buffer's lock is not a step yet. The buffer that `bget` recycles
is an argument: any clean buffer nobody holds, of which the least recently used one is a
case.
-/

namespace Xv6.Bio

open Function (update_self update_of_ne)

def maxopblocks : Nat := 10

abbrev nbuf : Nat := maxopblocks * 3

instance : NeZero nbuf := ⟨by decide⟩

def fssize : Nat := 1000

abbrev Pid := Nat

/-- The 512 bytes of a block, as words. -/
abbrev Block := Fin 128 → BitVec 32

structure Buf where
  /-- None until the buffer is first used. -/
  blockno : Option Nat
  data : Block
  dirty : Bool
  /-- The owner of the sleep-lock; `refcnt` is 1 while there is one. -/
  holder : Option Pid
  /-- The holder has changed the data since it was read, and `B_DIRTY` is clear. No code
  reads this; it says which buffers still have to be passed to `log_write`. -/
  altered : Bool

structure Store where
  disk : Nat → Block
  cache : Fin nbuf → Buf

/-- The texts of `panic` in the log and in the buffer cache. -/
inductive Panic where
  /-- "bget: no buffers" -/
  | noBuffers
  /-- "incorrect blockno" -/
  | incorrectBlockno
  /-- "too big a transaction" -/
  | tooBigTransaction
  /-- "log_write outside of trans" -/
  | outsideTrans
  /-- "log.committing" -/
  | logCommitting
deriving DecidableEq, Repr

def Panic.ofCache : Panic → Bool
  | .noBuffers => true
  | .incorrectBlockno => true
  | _ => false

/-- A call sleeps, panics or is done. -/
inductive Outcome (α : Type) where
  | waits
  | panics (reason : Panic)
  | done (value : α)

namespace Outcome

variable {α β : Type}

def bind : Outcome α → (α → Outcome β) → Outcome β
  | .waits, _ => .waits
  | .panics reason, _ => .panics reason
  | .done value, next => next value

theorem bind_eq_done {outcome : Outcome α} {next : α → Outcome β} {value : β} :
    outcome.bind next = .done value ↔ ∃ middle, outcome = .done middle ∧ next middle = .done value := by
  cases outcome <;> simp [bind]

/-- The call panics in the buffer cache only. -/
def CachePanics (outcome : Outcome α) : Prop :=
  ∀ reason, outcome = .panics reason → reason.ofCache = true

theorem CachePanics.done (value : α) : (Outcome.done value).CachePanics := by
  intro reason panics
  cases panics

theorem CachePanics.bind {outcome : Outcome α} {next : α → Outcome β}
    (first : outcome.CachePanics) (rest : ∀ value, (next value).CachePanics) :
    (outcome.bind next).CachePanics := by
  cases outcome with
  | waits =>
    intro reason panics
    cases panics
  | panics reason =>
    intro other panics
    cases panics
    exact first reason rfl
  | done value => exact rest value

end Outcome

def Buf.recyclable (buf : Buf) : Bool :=
  buf.holder.isNone && !buf.dirty

namespace Store

def setBuf (st : Store) (i : Fin nbuf) (buf : Buf) : Store :=
  { st with cache := Function.update st.cache i buf }

/-- The first loop of `bget`. -/
def slotOf (st : Store) (b : Nat) : Option (Fin nbuf) :=
  (List.finRange nbuf).find? fun i => decide ((st.cache i).blockno = some b)

def bread (st : Store) (p : Pid) (b : Nat) (victim : Fin nbuf) : Outcome (Fin nbuf × Store) :=
  match st.slotOf b with
  | some i =>
    if (st.cache i).holder.isSome then .waits
    else .done (i, st.setBuf i { st.cache i with holder := some p })
  | none =>
    if ∀ i, (st.cache i).recyclable = false then .panics .noBuffers
    else if (st.cache victim).recyclable = false then .waits
    -- `iderw` reads the block.
    else if fssize ≤ b then .panics .incorrectBlockno
    else .done (victim, st.setBuf victim ⟨some b, st.disk b, false, some p, false⟩)

/-- The holder stores into `b->data`. -/
def modify (st : Store) (i : Fin nbuf) (change : Block → Block) : Store :=
  st.setBuf i
    { st.cache i with data := change (st.cache i).data, altered := !(st.cache i).dirty }

/-- The write reaches the disk, and `ideintr` clears `B_DIRTY`. -/
def bwrite (st : Store) (i : Fin nbuf) : Store :=
  match (st.cache i).blockno with
  | none => st
  | some b =>
    { disk := Function.update st.disk b (st.cache i).data
      cache := Function.update st.cache i { st.cache i with dirty := false, altered := false } }

def brelse (st : Store) (i : Fin nbuf) : Store :=
  st.setBuf i { st.cache i with holder := none }

/-- `b->flags |= B_DIRTY`. -/
def markDirty (st : Store) (i : Fin nbuf) : Store :=
  st.setBuf i { st.cache i with dirty := true, altered := false }

variable {st : Store} {i j : Fin nbuf} {change : Block → Block}

theorem setBuf_cache_of_ne {buf : Buf} (different : j ≠ i) :
    (st.setBuf i buf).cache j = st.cache j :=
  update_of_ne different _ _

theorem modify_cache_of_ne (different : j ≠ i) : (st.modify i change).cache j = st.cache j :=
  setBuf_cache_of_ne different

theorem brelse_cache_of_ne (different : j ≠ i) : (st.brelse i).cache j = st.cache j :=
  setBuf_cache_of_ne different

theorem bwrite_cache_of_ne (different : j ≠ i) : (st.bwrite i).cache j = st.cache j := by
  unfold bwrite
  split
  · rfl
  · exact update_of_ne different _ _

@[simp] theorem modify_blockno :
    ((st.modify i change).cache j).blockno = (st.cache j).blockno := by
  by_cases same : j = i
  · simp [modify, setBuf, same]
  · rw [modify_cache_of_ne same]

@[simp] theorem brelse_blockno : ((st.brelse i).cache j).blockno = (st.cache j).blockno := by
  by_cases same : j = i
  · simp [brelse, setBuf, same]
  · rw [brelse_cache_of_ne same]

@[simp] theorem bwrite_blockno : ((st.bwrite i).cache j).blockno = (st.cache j).blockno := by
  by_cases same : j = i
  · unfold bwrite
    split <;> simp [same]
  · rw [bwrite_cache_of_ne same]

@[simp] theorem modify_holder :
    ((st.modify i change).cache j).holder = (st.cache j).holder := by
  by_cases same : j = i
  · simp [modify, setBuf, same]
  · rw [modify_cache_of_ne same]

@[simp] theorem bwrite_holder : ((st.bwrite i).cache j).holder = (st.cache j).holder := by
  by_cases same : j = i
  · unfold bwrite
    split <;> simp [same]
  · rw [bwrite_cache_of_ne same]

@[simp] theorem brelse_holder :
    ((st.brelse i).cache j).holder = if j = i then none else (st.cache j).holder := by
  by_cases same : j = i
  · simp [brelse, setBuf, same]
  · rw [brelse_cache_of_ne same, if_neg same]

/-- After a boot the cache is empty. -/
def boot (disk : Nat → Block) : Store where
  disk := disk
  cache := fun _ => ⟨none, fun _ => 0, false, none, false⟩

/-- Block `b` has a buffer with this flag. -/
def Flagged (st : Store) (flag : Buf → Bool) (b : Nat) : Prop :=
  ∃ i, (st.cache i).blockno = some b ∧ flag (st.cache i) = true

def IsDirty (st : Store) (b : Nat) : Prop :=
  st.Flagged Buf.dirty b

def IsAltered (st : Store) (b : Nat) : Prop :=
  st.Flagged Buf.altered b

def Holds (st : Store) (p : Pid) (b : Nat) : Prop :=
  st.Flagged (fun buf => decide (buf.holder = some p)) b

/-- Nobody holds a buffer. -/
def Free (st : Store) : Prop :=
  ∀ i, (st.cache i).holder = none

/-- The process holds a buffer that it has changed and not passed on. -/
def AlteredBy (st : Store) (p : Pid) : Prop :=
  ∃ i, (st.cache i).holder = some p ∧ (st.cache i).altered = true

end Store

/-- Cache and disk stand for `content`: a block has at most one buffer, the buffer has the
block's content, and so has the disk unless the buffer still has to be written. -/
structure Represents (st : Store) (content : Nat → Block) : Prop where
  unique : ∀ i j b, (st.cache i).blockno = some b → (st.cache j).blockno = some b → i = j
  cached : ∀ i b, (st.cache i).blockno = some b → (st.cache i).data = content b
  synced : ∀ b, ¬st.IsDirty b → ¬st.IsAltered b → st.disk b = content b
  held : ∀ i, (st.cache i).altered = true → (st.cache i).holder ≠ none
  named : ∀ i, (st.cache i).dirty = true → (st.cache i).blockno ≠ none

/-! ## One buffer changes

Every operation stores into one slot. `Occupies` says that the slot is, or may become, the
only buffer of block `b`. -/

/-- The buffer may be given to another block. -/
def Buf.Idle (buf : Buf) : Prop :=
  buf.dirty = false ∧ buf.altered = false ∧ buf.holder = none

structure Occupies (st : Store) (i : Fin nbuf) (b : Nat) : Prop where
  alone : ∀ j, j ≠ i → (st.cache j).blockno ≠ some b
  kept : (st.cache i).blockno = some b ∨ (st.cache i).Idle

variable {st : Store} {content content' disk : Nat → Block} {i j : Fin nbuf} {b other : Nat}
  {buf : Buf} {p : Pid} {flag : Buf → Bool}

theorem Represents.occupies (rep : Represents st content) (at_ : (st.cache i).blockno = some b) :
    Occupies st i b where
  alone := fun j different occupied => different (rep.unique j i b occupied at_)
  kept := Or.inl at_

/-- The flags of `b` become those of the new buffer, and another block keeps its own. -/
theorem Occupies.flagged (occ : Occupies st i b) (at_ : buf.blockno = some b)
    (busy : ∀ buf, flag buf = true → ¬buf.Idle) :
    Store.Flagged ⟨disk, Function.update st.cache i buf⟩ flag other ↔
      (other = b ∧ flag buf = true) ∨ (other ≠ b ∧ st.Flagged flag other) := by
  constructor
  · rintro ⟨j, occupied, flagged⟩
    by_cases same : j = i
    · rw [same] at occupied flagged
      simp only [update_self, at_, Option.some.injEq] at occupied flagged
      exact Or.inl ⟨occupied.symm, flagged⟩
    · simp only [update_of_ne same] at occupied flagged
      refine Or.inr ⟨?_, j, occupied, flagged⟩
      rintro rfl
      exact occ.alone j same occupied
  · rintro (⟨rfl, flagged⟩ | ⟨different, j, occupied, flagged⟩)
    · exact ⟨i, by simpa using at_, by simpa using flagged⟩
    · have elsewhere : j ≠ i := by
        rintro rfl
        rcases occ.kept with same | idle
        · rw [same] at occupied
          exact different (Option.some.inj occupied).symm
        · exact busy _ flagged idle
      exact ⟨j, by simpa [elsewhere] using occupied, by simpa [elsewhere] using flagged⟩

theorem dirty_busy (buf : Buf) (dirty : buf.dirty = true) : ¬buf.Idle := by
  simp [Buf.Idle, dirty]

theorem altered_busy (buf : Buf) (altered : buf.altered = true) : ¬buf.Idle := by
  simp [Buf.Idle, altered]

theorem Represents.flagged_iff (rep : Represents st content)
    (at_ : (st.cache i).blockno = some b) : st.Flagged flag b ↔ flag (st.cache i) = true := by
  constructor
  · rintro ⟨j, occupied, flagged⟩
    rwa [rep.unique j i b occupied at_] at flagged
  · exact fun flagged => ⟨i, at_, flagged⟩

theorem Represents.flagged_same (rep : Represents st content)
    (at_ : (st.cache i).blockno = some b) (sameBlock : buf.blockno = some b)
    (busy : ∀ buf, flag buf = true → ¬buf.Idle) (sameFlag : flag buf = flag (st.cache i)) :
    Store.Flagged ⟨disk, Function.update st.cache i buf⟩ flag other ↔ st.Flagged flag other := by
  rw [(rep.occupies at_).flagged sameBlock busy, sameFlag]
  by_cases same : other = b
  · rw [same, rep.flagged_iff at_]
    simp
  · simp [same]

theorem Occupies.flagged_fresh (occ : Occupies st i b)
    (absent : ∀ j, (st.cache j).blockno ≠ some b) (at_ : buf.blockno = some b)
    (busy : ∀ buf, flag buf = true → ¬buf.Idle) (clear : flag buf = false) :
    Store.Flagged ⟨disk, Function.update st.cache i buf⟩ flag other ↔ st.Flagged flag other := by
  rw [occ.flagged at_ busy, clear]
  by_cases same : other = b
  · subst same
    have none : ¬st.Flagged flag other := fun ⟨j, occupied, _⟩ => absent j occupied
    simp [none]
  · simp [same]

/-- A store that changes one buffer and at most its block on the disk. -/
theorem Represents.update (rep : Represents st content) (occ : Occupies st i b)
    (at_ : buf.blockno = some b) (data : buf.data = content' b)
    (written : buf.dirty = false → buf.altered = false → disk b = content' b)
    (held : buf.altered = true → buf.holder ≠ none)
    (others : ∀ other, other ≠ b → content' other = content other ∧ disk other = st.disk other) :
    Represents ⟨disk, Function.update st.cache i buf⟩ content' where
  unique := by
    have only : ∀ j c, (Function.update st.cache i buf j).blockno = some c →
        if c = b then j = i else (st.cache j).blockno = some c := by
      intro j c
      refine Update.cases j (fun occupied => ?_) fun here occupied => ?_
      · rw [at_] at occupied
        simp [← Option.some.inj occupied]
      · have different : c ≠ b := by
          rintro rfl
          exact occ.alone j here occupied
        simpa [different] using occupied
    intro j k c first second
    have first := only j c first
    have second := only k c second
    by_cases same : c = b
    · simp only [same, if_true] at first second
      rw [first, second]
    · simp only [same, if_false] at first second
      exact rep.unique j k c first second
  cached := by
    intro j c
    dsimp only
    refine Update.cases j (fun occupied => ?_) fun elsewhere occupied => ?_
    · cases at_.symm.trans occupied
      exact data
    · have different : c ≠ b := by
        rintro rfl
        exact occ.alone j elsewhere occupied
      rw [(others c different).1]
      exact rep.cached j c occupied
  synced := by
    intro c notDirty notAltered
    rw [Store.IsDirty, occ.flagged at_ dirty_busy] at notDirty
    rw [Store.IsAltered, occ.flagged at_ altered_busy] at notAltered
    by_cases same : c = b
    · subst same
      simp only [true_and, ne_eq, not_true_eq_false, false_and, or_false,
        Bool.not_eq_true] at notDirty notAltered
      exact written notDirty notAltered
    · simp only [same, false_and, ne_eq, not_false_eq_true, true_and, false_or]
        at notDirty notAltered
      rw [(others c same).1]
      exact (others c same).2.trans (rep.synced c notDirty notAltered)
  held := by
    dsimp only
    exact fun j => Update.cases j held fun _ => rep.held j
  named := by
    dsimp only
    exact fun j => Update.cases j (by simp [at_]) fun _ => rep.named j

/-! ## The operations -/

variable {st' : Store} {c : Nat} {q : Pid}

theorem slotOf_eq_some {st : Store} (found : st.slotOf b = some i) :
    (st.cache i).blockno = some b := by
  simpa using List.find?_some found

theorem slotOf_eq_none (absent : st.slotOf b = none) (j : Fin nbuf) :
    (st.cache j).blockno ≠ some b := by
  have all := List.find?_eq_none.mp absent j (List.mem_finRange j)
  simpa using all

theorem bread_cases {victim : Fin nbuf} (got : st.bread p b victim = .done (i, st')) :
    ((st.cache i).blockno = some b ∧ (st.cache i).holder = none ∧
      st' = st.setBuf i { st.cache i with holder := some p }) ∨
    ((∀ j, (st.cache j).blockno ≠ some b) ∧ (st.cache i).recyclable = true ∧
      st' = st.setBuf i ⟨some b, st.disk b, false, some p, false⟩) := by
  unfold Store.bread at got
  split at got
  · rename_i slot found
    split at got
    · simp at got
    · rename_i free
      simp only [Outcome.done.injEq, Prod.mk.injEq] at got
      obtain ⟨rfl, rfl⟩ := got
      exact Or.inl ⟨slotOf_eq_some found, by simpa using free, rfl⟩
  · rename_i absent
    split at got
    · simp at got
    · split at got
      · simp at got
      · rename_i recyclable
        split at got
        · simp at got
        · simp only [Outcome.done.injEq, Prod.mk.injEq] at got
          obtain ⟨rfl, rfl⟩ := got
          exact Or.inr ⟨slotOf_eq_none absent, by simpa using recyclable, rfl⟩

theorem bread_cachePanics (st : Store) (p : Pid) (b : Nat) (victim : Fin nbuf) :
    (st.bread p b victim).CachePanics := by
  intro reason panics
  unfold Store.bread at panics
  split at panics
  · split at panics <;> simp at panics
  · split at panics
    · rw [← Outcome.panics.inj panics]
      rfl
    · split at panics
      · simp at panics
      · split at panics
        · rw [← Outcome.panics.inj panics]
          rfl
        · simp at panics

/-- What `bread` gives its caller: the locked buffer of the block, with its content. -/
structure Fetched (st : Store) (content : Nat → Block) (p : Pid) (b : Nat) (i : Fin nbuf)
    (st' : Store) : Prop where
  rep : Represents st' content
  disk : st'.disk = st.disk
  blockno : (st'.cache i).blockno = some b
  holder : (st'.cache i).holder = some p
  unaltered : (st'.cache i).altered = false
  free : (st.cache i).holder = none
  others : ∀ j, j ≠ i → st'.cache j = st.cache j
  dirty : ∀ c, st'.IsDirty c ↔ st.IsDirty c

theorem Represents.not_altered (rep : Represents st content) (free : (st.cache i).holder = none) :
    (st.cache i).altered = false := by
  by_contra altered
  exact rep.held i (by simpa using altered) free

theorem Represents.clean_synced (rep : Represents st content)
    (at_ : (st.cache i).blockno = some b) (clean : (st.cache i).dirty = false)
    (unaltered : (st.cache i).altered = false) : st.disk b = content b := by
  apply rep.synced b
  · rw [Store.IsDirty, rep.flagged_iff at_, clean]
    simp
  · rw [Store.IsAltered, rep.flagged_iff at_, unaltered]
    simp

theorem Represents.clean_slot (rep : Represents st content) (clean : ∀ b, ¬st.IsDirty b)
    (i : Fin nbuf) : (st.cache i).dirty = false := by
  by_contra dirty
  have dirty : (st.cache i).dirty = true := by simpa using dirty
  obtain ⟨b, occupied⟩ := Option.ne_none_iff_exists'.mp (rep.named i dirty)
  exact clean b ⟨i, occupied, dirty⟩

theorem Represents.uncached_synced (rep : Represents st content)
    (absent : ∀ j, (st.cache j).blockno ≠ some b) : st.disk b = content b :=
  rep.synced b (fun ⟨j, occupied, _⟩ => absent j occupied)
    (fun ⟨j, occupied, _⟩ => absent j occupied)

theorem Represents.idle_of_recyclable (rep : Represents st content)
    (recyclable : (st.cache i).recyclable = true) : (st.cache i).Idle := by
  simp only [Buf.recyclable, Bool.and_eq_true, Option.isNone_iff_eq_none,
    Bool.not_eq_true'] at recyclable
  exact ⟨recyclable.2, rep.not_altered recyclable.1, recyclable.1⟩

theorem Represents.bread {victim : Fin nbuf} (rep : Represents st content)
    (got : st.bread p b victim = .done (i, st')) : Fetched st content p b i st' := by
  rcases bread_cases got with ⟨at_, free, rfl⟩ | ⟨absent, recyclable, rfl⟩
  · have unaltered := rep.not_altered free
    have synced := rep.clean_synced at_
    exact
      { rep := rep.update (rep.occupies at_) at_ (rep.cached i b at_) synced (by simp)
          (fun _ _ => ⟨rfl, rfl⟩)
        disk := rfl
        blockno := by simpa [Store.setBuf] using at_
        holder := by simp [Store.setBuf]
        unaltered := by simpa [Store.setBuf] using unaltered
        free := free
        others := fun j different => by simp [Store.setBuf, different]
        dirty := fun c => rep.flagged_same at_ at_ dirty_busy rfl }
  · have idle := rep.idle_of_recyclable recyclable
    have occ : Occupies st i b := ⟨fun j _ => absent j, Or.inr idle⟩
    have synced := rep.uncached_synced absent
    exact
      { rep := rep.update occ rfl synced (fun _ _ => synced) (by simp) (fun _ _ => ⟨rfl, rfl⟩)
        disk := rfl
        blockno := by simp [Store.setBuf]
        holder := by simp [Store.setBuf]
        unaltered := by simp [Store.setBuf]
        free := idle.2.2
        others := fun j different => by simp [Store.setBuf, different]
        dirty := fun c => occ.flagged_fresh absent rfl dirty_busy rfl }

theorem Fetched.data (got : Fetched st content p b i st') : (st'.cache i).data = content b :=
  got.rep.cached i b got.blockno

theorem Fetched.alteredBy (got : Fetched st content p b i st') (altered : st'.AlteredBy q) :
    st.AlteredBy q := by
  obtain ⟨j, holder, altered⟩ := altered
  by_cases same : j = i
  · rw [same, got.unaltered] at altered
    simp at altered
  · rw [got.others j same] at holder altered
    exact ⟨j, holder, altered⟩

/-- With nothing held and nothing dirty, `bread` succeeds. A buffer that is held is no
hindrance when it is neither the block's nor the victim. -/
theorem bread_succeeds {victim : Fin nbuf} (inside : b < fssize)
    (unheld : ∀ j, (st.cache j).blockno = some b → (st.cache j).holder = none)
    (recyclable : (st.cache victim).recyclable = true) :
    ∃ i st', st.bread p b victim = .done (i, st') := by
  unfold Store.bread
  split
  · rename_i i found
    have free := unheld i (slotOf_eq_some found)
    simp [free]
  · have some : ¬∀ i, (st.cache i).recyclable = false := by
      intro none
      rw [none victim] at recyclable
      simp at recyclable
    rw [if_neg some, if_neg (by simp [recyclable]), if_neg (by omega)]
    exact ⟨victim, _, rfl⟩

theorem Represents.modify (rep : Represents st content) (change : Block → Block)
    (at_ : (st.cache i).blockno = some b) (held : (st.cache i).holder ≠ none) :
    Represents (st.modify i change) (Function.update content b (change (content b))) := by
  refine rep.update (rep.occupies at_) at_ ?_ ?_ (fun _ => held) ?_
  · rw [update_self, rep.cached i b at_]
  · intro clean unaltered
    have clean : (st.cache i).dirty = false := clean
    simp [clean] at unaltered
  · intro other different
    exact ⟨update_of_ne different _ _, rfl⟩

theorem Represents.bwrite (rep : Represents st content) (at_ : (st.cache i).blockno = some b) :
    Represents (st.bwrite i) content := by
  simp only [Store.bwrite, at_]
  refine rep.update (rep.occupies at_) rfl (rep.cached i b at_) ?_ (by simp) ?_
  · intro _ _
    rw [update_self, rep.cached i b at_]
  · intro other different
    exact ⟨rfl, update_of_ne different _ _⟩

theorem Represents.brelse (rep : Represents st content) (at_ : (st.cache i).blockno = some b)
    (unaltered : (st.cache i).altered = false) : Represents (st.brelse i) content :=
  rep.update (rep.occupies at_) at_ (rep.cached i b at_) (rep.clean_synced at_)
    (by simp [unaltered]) (fun _ _ => ⟨rfl, rfl⟩)

theorem Represents.markDirty (rep : Represents st content)
    (at_ : (st.cache i).blockno = some b) : Represents (st.markDirty i) content :=
  rep.update (rep.occupies at_) at_ (rep.cached i b at_) (by simp) (by simp)
    (fun _ _ => ⟨rfl, rfl⟩)

/-! ### What the operations do to the disk and to the flags -/

theorem bwrite_disk (rep : Represents st content) (at_ : (st.cache i).blockno = some b) :
    (st.bwrite i).disk = Function.update st.disk b (content b) := by
  simp only [Store.bwrite, at_, rep.cached i b at_]

theorem modify_isDirty (rep : Represents st content) (change : Block → Block)
    (at_ : (st.cache i).blockno = some b) : (st.modify i change).IsDirty c ↔ st.IsDirty c :=
  rep.flagged_same at_ at_ dirty_busy rfl

theorem bwrite_isDirty (rep : Represents st content) (at_ : (st.cache i).blockno = some b) :
    (st.bwrite i).IsDirty c ↔ c ≠ b ∧ st.IsDirty c := by
  simp only [Store.bwrite, at_]
  rw [Store.IsDirty, (rep.occupies at_).flagged rfl dirty_busy]
  simp [Store.IsDirty]

theorem brelse_isDirty (rep : Represents st content) (at_ : (st.cache i).blockno = some b) :
    (st.brelse i).IsDirty c ↔ st.IsDirty c :=
  rep.flagged_same at_ at_ dirty_busy rfl

theorem markDirty_isDirty (rep : Represents st content) (at_ : (st.cache i).blockno = some b) :
    (st.markDirty i).IsDirty c ↔ c = b ∨ st.IsDirty c := by
  have at' : ({ st.cache i with dirty := true, altered := false } : Buf).blockno = some b := at_
  rw [Store.IsDirty, Store.markDirty, Store.setBuf, (rep.occupies at_).flagged at' dirty_busy]
  by_cases same : c = b <;> simp [same, Store.IsDirty]

theorem Represents.boot (disk : Nat → Block) : Represents (Store.boot disk) disk where
  unique := by simp [Store.boot]
  cached := by simp [Store.boot]
  synced := fun _ _ _ => rfl
  held := by simp [Store.boot]
  named := by simp [Store.boot]

end Xv6.Bio
