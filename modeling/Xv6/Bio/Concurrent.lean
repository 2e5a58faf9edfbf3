import Xv6.Bio.Cache
import Xv6.Lib.Tally
import Xv6.Lib.TransitionSystem

/-!
The buffer cache as the processes share it.

Owns: the buffers with their reference counts, sleep-locks and flags, the list in order of
use, `bget`, `bread`, `bwrite`, `brelse` and `log_write` by any number of processes; and the
inversion of a step.

Does not own: what the cache stands for (`Xv6.Bio.Transparency`).

A step is a critical section of `bcache.lock`, the return from `acquiresleep`, the transfer
of a block, or something a process does to a buffer whose sleep-lock it holds. A step that
would panic is not there. `log.lh` may be emptied at any time.
-/

namespace Xv6.Bcache

open Xv6.Bio (Block nbuf fssize)

def rootdev : Nat := 1

variable {n : Nat}

structure Buf (n : Nat) where
  dev : Nat
  blockno : Nat
  /-- `B_VALID` -/
  valid : Bool
  /-- `B_DIRTY` -/
  dirty : Bool
  refcnt : Nat
  /-- The owner of the sleep-lock. -/
  lock : Option (Fin n)
  data : Block
  /-- The holder has changed the data of a buffer that is not dirty, and has passed it neither
  to `log_write` nor to `bwrite`. No code reads this. -/
  altered : Bool

inductive Pc where
  | idle
  /-- In `bget`, at `acquiresleep(&b->lock)`. -/
  | locking (i : Fin nbuf) (blockno : Nat)
  /-- In `bread`, back from `bget`. -/
  | reading (i : Fin nbuf) (blockno : Nat)
  /-- In `brelse`, past `releasesleep(&b->lock)`. -/
  | releasing (i : Fin nbuf)
deriving DecidableEq

structure State (n : Nat) where
  /-- `memdisk` -/
  disk : Nat → Block
  buf : Fin nbuf → Buf n
  /-- From `bcache.head.next` on. -/
  order : List (Fin nbuf)
  /-- `log.lh` -/
  lh : List Nat
  pc : Fin n → Pc

inductive Action (n : Nat) where
  | bread (p : Fin n) (blockno : Nat)
  | run (p : Fin n)
  /-- The holder stores into `b->data`. -/
  | modify (p : Fin n) (i : Fin nbuf) (change : Block → Block)
  | logWrite (p : Fin n) (i : Fin nbuf)
  | bwrite (p : Fin n) (i : Fin nbuf)
  | brelse (p : Fin n) (i : Fin nbuf)
  /-- `log.lh.n = 0` -/
  | clearLog (p : Fin n)

/-- `b->dev == dev && b->blockno == blockno` -/
def Buf.caches (buf : Buf n) (blockno : Nat) : Bool :=
  decide (buf.dev = rootdev ∧ buf.blockno = blockno)

/-- `b->refcnt == 0 && (b->flags & B_DIRTY) == 0` -/
def Buf.recyclable (buf : Buf n) : Bool :=
  decide (buf.refcnt = 0 ∧ buf.dirty = false)

/-- The buffer is taken for another block. -/
def Buf.assign (buf : Buf n) (blockno : Nat) : Buf n :=
  { buf with dev := rootdev, blockno := blockno, valid := false, dirty := false, refcnt := 1 }

/-- `iderw`, or nothing where it panics. -/
def iderw (disk : Nat → Block) (buf : Buf n) : Option ((Nat → Block) × Buf n) :=
  if buf.valid = true ∧ buf.dirty = false then none
  else if buf.dev ≠ 1 then none
  else if fssize ≤ buf.blockno then none
  else if buf.dirty then
    some (Function.update disk buf.blockno buf.data, { buf with dirty := false, valid := true })
  else some (disk, { buf with data := disk buf.blockno, valid := true })

namespace State

def setBuf (s : State n) (i : Fin nbuf) (buf : Buf n) : State n :=
  { s with buf := Function.update s.buf i buf }

def setPc (s : State n) (p : Fin n) (pc : Pc) : State n :=
  { s with pc := Function.update s.pc p pc }

/-- The critical section of `bget`. -/
def bget (s : State n) (p : Fin n) (blockno : Nat) : Option (State n) :=
  match s.order.find? fun i => (s.buf i).caches blockno with
  | some i =>
    some ((s.setBuf i { s.buf i with refcnt := (s.buf i).refcnt + 1 }).setPc p
      (.locking i blockno))
  | none =>
    match s.order.reverse.find? fun i => (s.buf i).recyclable with
    | some i =>
      some ((s.setBuf i ((s.buf i).assign blockno)).setPc p (.locking i blockno))
    | none => none

/-- `b->refcnt--`, and the buffer moves to the head of the list when nobody waits for it. -/
def unref (s : State n) (i : Fin nbuf) : State n :=
  { s.setBuf i { s.buf i with refcnt := (s.buf i).refcnt - 1 } with
    order := if (s.buf i).refcnt - 1 = 0 then i :: s.order.erase i else s.order }

def run (s : State n) (p : Fin n) : Option (State n) :=
  match s.pc p with
  | .idle => none
  | .locking i blockno =>
    if (s.buf i).lock = none then
      some ((s.setBuf i { s.buf i with lock := some p }).setPc p (.reading i blockno))
    else none
  | .reading i _ =>
    if (s.buf i).valid then some (s.setPc p .idle)
    else
      (iderw s.disk (s.buf i)).map fun synced =>
        ({ s with disk := synced.1 }.setBuf i synced.2).setPc p .idle
  | .releasing i => some ((s.unref i).setPc p .idle)

/-- `holdingsleep(&b->lock)`, by a process that is in no call of the cache. -/
def holds (s : State n) (p : Fin n) (i : Fin nbuf) : Bool :=
  decide (s.pc p = .idle ∧ (s.buf i).lock = some p)

end State

/-- The absorption of `log_write`. -/
def record (lh : List Nat) (blockno : Nat) : List Nat :=
  if blockno ∈ lh then lh else lh ++ [blockno]

def step (s : State n) : Action n → Option (State n)
  | .bread p blockno => if s.pc p = .idle then s.bget p blockno else none
  | .run p => s.run p
  | .modify p i change =>
    if s.holds p i then
      some (s.setBuf i { s.buf i with
        data := change (s.buf i).data, altered := !(s.buf i).dirty })
    else none
  | .logWrite p i =>
    if s.holds p i then
      some ({ s with lh := record s.lh (s.buf i).blockno }.setBuf i
        { s.buf i with dirty := true, altered := false })
    else none
  | .bwrite p i =>
    if s.holds p i then
      (iderw s.disk { s.buf i with dirty := true }).map fun synced =>
        { s with disk := synced.1 }.setBuf i { synced.2 with altered := false }
    else none
  | .brelse p i =>
    if s.holds p i = true ∧ (s.buf i).altered = false then
      some ((s.setBuf i { s.buf i with lock := none }).setPc p (.releasing i))
    else none
  | .clearLog p => if s.pc p = .idle then some { s with lh := [] } else none

/-- `binit`: no buffer is of the root device. -/
def start (disk : Nat → Block) : State n where
  disk := disk
  buf _ := ⟨0, 0, false, false, 0, none, fun _ => 0, false⟩
  order := (List.finRange nbuf).reverse
  lh := []
  pc _ := .idle

/-! ## Inversion -/

/-- A transfer between a buffer and the disk. -/
inductive Syncs (disk : Nat → Block) (buf : Buf n) : (Nat → Block) → Buf n → Prop
  | write (dirty : buf.dirty = true) (onRoot : buf.dev = rootdev) :
      Syncs disk buf (Function.update disk buf.blockno buf.data)
        { buf with dirty := false, valid := true }
  | read (clean : buf.dirty = false) (onRoot : buf.dev = rootdev) :
      Syncs disk buf disk { buf with data := disk buf.blockno, valid := true }

theorem Syncs.of_iderw {disk : Nat → Block} {buf : Buf n} {synced : (Nat → Block) × Buf n}
    (ran : iderw disk buf = some synced) : Syncs disk buf synced.1 synced.2 := by
  unfold iderw at ran
  split at ran
  · cases ran
  · split at ran
    · cases ran
    · rename_i onRoot
      split at ran
      · cases ran
      · split at ran
        · rename_i dirty
          cases ran
          exact .write dirty (not_not.mp onRoot)
        · rename_i clean
          cases ran
          exact .read (Bool.eq_false_iff.mpr clean) (not_not.mp onRoot)

inductive Step (s : State n) : Action n → State n → Prop
  | hit {p : Fin n} {blockno : Nat} {i : Fin nbuf} (idle : s.pc p = .idle)
      (cached : (s.buf i).caches blockno = true) :
      Step s (.bread p blockno)
        ((s.setBuf i { s.buf i with refcnt := (s.buf i).refcnt + 1 }).setPc p
          (.locking i blockno))
  | recycle {p : Fin n} {blockno : Nat} {i : Fin nbuf} (idle : s.pc p = .idle)
      (uncached : ∀ j ∈ s.order, (s.buf j).caches blockno = false)
      (unused : (s.buf i).refcnt = 0) (clean : (s.buf i).dirty = false) :
      Step s (.bread p blockno)
        ((s.setBuf i ((s.buf i).assign blockno)).setPc p (.locking i blockno))
  | lock {p : Fin n} {blockno : Nat} {i : Fin nbuf} (at_ : s.pc p = .locking i blockno)
      (free : (s.buf i).lock = none) :
      Step s (.run p)
        ((s.setBuf i { s.buf i with lock := some p }).setPc p (.reading i blockno))
  | valid {p : Fin n} {blockno : Nat} {i : Fin nbuf} (at_ : s.pc p = .reading i blockno)
      (valid : (s.buf i).valid = true) : Step s (.run p) (s.setPc p .idle)
  | read {p : Fin n} {blockno : Nat} {i : Fin nbuf} {disk : Nat → Block} {buf : Buf n}
      (at_ : s.pc p = .reading i blockno) (invalid : (s.buf i).valid = false)
      (syncs : Syncs s.disk (s.buf i) disk buf) :
      Step s (.run p) (({ s with disk := disk }.setBuf i buf).setPc p .idle)
  | unref {p : Fin n} {i : Fin nbuf} (at_ : s.pc p = .releasing i) :
      Step s (.run p) ((s.unref i).setPc p .idle)
  | modify {p : Fin n} {i : Fin nbuf} {change : Block → Block} (idle : s.pc p = .idle)
      (held : (s.buf i).lock = some p) :
      Step s (.modify p i change)
        (s.setBuf i { s.buf i with
          data := change (s.buf i).data, altered := !(s.buf i).dirty })
  | logWrite {p : Fin n} {i : Fin nbuf} (idle : s.pc p = .idle)
      (held : (s.buf i).lock = some p) :
      Step s (.logWrite p i)
        ({ s with lh := record s.lh (s.buf i).blockno }.setBuf i
          { s.buf i with dirty := true, altered := false })
  | bwrite {p : Fin n} {i : Fin nbuf} (idle : s.pc p = .idle)
      (held : (s.buf i).lock = some p) (onRoot : (s.buf i).dev = rootdev) :
      Step s (.bwrite p i)
        ({ s with disk := Function.update s.disk (s.buf i).blockno (s.buf i).data }.setBuf i
          { s.buf i with dirty := false, valid := true, altered := false })
  | brelse {p : Fin n} {i : Fin nbuf} (idle : s.pc p = .idle)
      (held : (s.buf i).lock = some p) (passed : (s.buf i).altered = false) :
      Step s (.brelse p i)
        ((s.setBuf i { s.buf i with lock := none }).setPc p (.releasing i))
  | clearLog {p : Fin n} (idle : s.pc p = .idle) : Step s (.clearLog p) { s with lh := [] }

variable {s next : State n} {p : Fin n} {i : Fin nbuf}

theorem State.holds_iff : s.holds p i = true ↔ s.pc p = .idle ∧ (s.buf i).lock = some p :=
  decide_eq_true_iff

theorem Buf.caches_iff {buf : Buf n} {blockno : Nat} :
    buf.caches blockno = true ↔ buf.dev = rootdev ∧ buf.blockno = blockno :=
  decide_eq_true_iff

theorem Step.of_bget {blockno : Nat} (idle : s.pc p = .idle)
    (got : s.bget p blockno = some next) : Step s (.bread p blockno) next := by
  unfold State.bget at got
  split at got
  · rename_i i found
    cases got
    have cached := List.find?_some found
    exact .hit idle cached
  · rename_i notFound
    split at got
    · rename_i i found
      cases got
      have accepted := List.find?_some found
      have recyclable : (s.buf i).refcnt = 0 ∧ (s.buf i).dirty = false :=
        of_decide_eq_true accepted
      refine .recycle idle ?_ recyclable.1 recyclable.2
      intro j member
      exact Bool.eq_false_iff.mpr (List.find?_eq_none.mp notFound j member)
    · cases got

theorem Step.of_run (ran : s.run p = some next) : Step s (.run p) next := by
  unfold State.run at ran
  split at ran
  · cases ran
  · rename_i i blockno at_
    simp only [Option.ite_none_right_eq_some, Option.some.injEq] at ran
    obtain ⟨free, rfl⟩ := ran
    exact .lock at_ free
  · rename_i i blockno at_
    split at ran
    · rename_i valid
      cases ran
      exact .valid at_ valid
    · rename_i invalid
      obtain ⟨synced, transferred, rfl⟩ := Option.map_eq_some_iff.mp ran
      exact .read at_ (Bool.eq_false_iff.mpr invalid) (.of_iderw transferred)
  · rename_i i at_
    cases ran
    exact .unref at_

theorem Step.of_bwrite (held : s.holds p i = true)
    (wrote : (iderw s.disk { s.buf i with dirty := true }).map (fun synced =>
      { s with disk := synced.1 }.setBuf i { synced.2 with altered := false }) = some next) :
    Step s (.bwrite p i) next := by
  obtain ⟨⟨disk, buf⟩, transferred, rfl⟩ := Option.map_eq_some_iff.mp wrote
  have syncs := Syncs.of_iderw transferred
  cases syncs with
  | write dirty onRoot =>
    exact .bwrite (State.holds_iff.mp held).1 (State.holds_iff.mp held).2 onRoot
  | read clean onRoot => cases clean

theorem Step.of_step {a : Action n} (stepped : step s a = some next) : Step s a next := by
  cases a with
  | run p => exact .of_run stepped
  | bread p blockno =>
    simp only [step, Option.ite_none_right_eq_some] at stepped
    exact .of_bget stepped.1 stepped.2
  | modify p i change =>
    simp only [step, Option.ite_none_right_eq_some, Option.some.injEq] at stepped
    obtain ⟨held, rfl⟩ := stepped
    exact .modify (State.holds_iff.mp held).1 (State.holds_iff.mp held).2
  | logWrite p i =>
    simp only [step, Option.ite_none_right_eq_some, Option.some.injEq] at stepped
    obtain ⟨held, rfl⟩ := stepped
    exact .logWrite (State.holds_iff.mp held).1 (State.holds_iff.mp held).2
  | bwrite p i =>
    simp only [step, Option.ite_none_right_eq_some] at stepped
    exact .of_bwrite stepped.1 stepped.2
  | brelse p i =>
    simp only [step, Option.ite_none_right_eq_some, Option.some.injEq] at stepped
    obtain ⟨⟨held, passed⟩, rfl⟩ := stepped
    exact .brelse (State.holds_iff.mp held).1 (State.holds_iff.mp held).2 passed
  | clearLog p =>
    simp only [step, Option.ite_none_right_eq_some, Option.some.injEq] at stepped
    obtain ⟨idle, rfl⟩ := stepped
    exact .clearLog idle

end Xv6.Bcache
