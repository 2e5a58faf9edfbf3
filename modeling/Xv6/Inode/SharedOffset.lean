import Xv6.Inode.FileWrite
import Xv6.Lib.TransitionSystem

/-!
Writers that share a file.

Owns: `filewrite` of any processes on one `struct file`, step by step, with the inode's lock; the
order of the pieces that they write; and that from the end of the file on these are all there, each
behind the one before.

Does not own: what one piece does to the file (`Xv6.Inode.ReadWrite`); where a write meets the limit
(`Xv6.Inode.FileWrite`); the sleep lock (`Xv6.Sync`).

`begin_op` and `end_op` are left out, which touch neither the file nor its offset.
-/

namespace Xv6.Inode.Shared

open Function (update update_self update_of_ne)

open Mkfs (Superblock Dinode bsize maxfile tDev FileType)
open Overwrite (overwrite)
open TransitionSystem (run watch AllSteps)

/-! ## The machine -/

/-- Where a call is in its loop. `r` is what `writei` has returned. -/
inductive Stage where
  | outside
  | locked
  | wrote (r : Int)
  | advanced (r : Int)
  deriving DecidableEq

structure Call where
  addr : List UInt8
  i : Nat
  stage : Stage
  /-- The loop was left at `r < 0`. -/
  failed : Bool
  deriving DecidableEq

/-- What the call returns. -/
def Call.result (c : Call) : Int :=
  if c.i = c.addr.length then c.addr.length else -1

structure State (Proc : Type) where
  off : Nat
  ip : Dinode
  v : Volume
  /-- The holder of the inode's lock. -/
  holder : Option Proc
  call : Proc → Option Call

inductive Action (Proc : Type) where
  | call (p : Proc) (addr : List UInt8)
  | lock (p : Proc)
  | write (p : Proc)
  | advance (p : Proc)
  | unlock (p : Proc)
  | ret (p : Proc)

variable {Proc : Type} [DecidableEq Proc]

def State.setCall (s : State Proc) (p : Proc) (c : Option Call) : State Proc :=
  { s with call := Function.update s.call p c }

/-- `filewrite` has called `iunlock`: `n1` is the length of the piece. -/
def Call.unlocked (c : Call) (r : Int) : Option Call :=
  if r < 0 then some { c with stage := .outside, failed := true }
  else if r ≠ (piece c.addr c.i).length then none
  else some { c with stage := .outside, i := c.i + (piece c.addr c.i).length }

def stepCall (devsw : Devsw) (sb : Superblock) (inum : Nat) (s : State Proc) (c : Call) :
    Action Proc → Option (State Proc)
  | .call _ _ => none
  | .lock p =>
    if c.stage = .outside ∧ c.failed = false ∧ c.i < c.addr.length ∧ s.holder = none then
      some { s.setCall p (some { c with stage := .locked }) with holder := some p }
    else none
  | .write p =>
    if c.stage = .locked then
      (writei devsw sb inum s.ip (piece c.addr c.i) s.off s.v).map fun (r, ip, v) =>
        { s.setCall p (some { c with stage := .wrote r }) with ip := ip, v := v }
    else none
  | .advance p =>
    match c.stage with
    | .wrote r =>
      some { s.setCall p (some { c with stage := .advanced r }) with
        off := if 0 < r then (s.off + r.toNat) % 2 ^ 32 else s.off }
    | _ => none
  | .unlock p =>
    match c.stage with
    | .advanced r => (c.unlocked r).map fun c => { s.setCall p (some c) with holder := none }
    | _ => none
  | .ret p =>
    if c.stage = .outside ∧ (c.failed = true ∨ c.addr.length ≤ c.i) then some (s.setCall p none)
    else none

def Action.proc : Action Proc → Proc
  | .call p _ => p
  | .lock p => p
  | .write p => p
  | .advance p => p
  | .unlock p => p
  | .ret p => p

def step (devsw : Devsw) (sb : Superblock) (inum : Nat) (s : State Proc) (a : Action Proc) :
    Option (State Proc) :=
  match s.call a.proc with
  | some c => stepCall devsw sb inum s c a
  | none =>
    match a with
    | .call p addr => some (s.setCall p (some ⟨addr, 0, .outside, false⟩))
    | _ => none

/-! ## History -/

structure History (Proc : Type) where
  /-- Who has taken the lock, in order. -/
  locked : List Proc
  /-- The pieces that were written, in order. -/
  chunks : List (Proc × List UInt8)
  /-- The calls that have returned: their buffers and results. -/
  returned : List (Proc × List UInt8 × Int)

def History.empty : History Proc := ⟨[], [], []⟩

/-- The piece that a call of `writei` has written, if it has. -/
def chunkOf (c : Call) (after : Option Call) : List (List UInt8) :=
  if after = some { c with stage := .wrote (piece c.addr c.i).length } then [piece c.addr c.i] else []

def observe (before : State Proc) (a : Action Proc) (after : State Proc) (h : History Proc) :
    History Proc :=
  match before.call a.proc, a with
  | some _, .lock p => { h with locked := h.locked ++ [p] }
  | some c, .write p =>
    { h with chunks := h.chunks ++ (chunkOf c (after.call p)).map fun bytes => (p, bytes) }
  | some c, .ret p => { h with returned := h.returned ++ [(p, c.addr, c.result)] }
  | _, _ => h

/-- No call of `writei` meets the limit. -/
def within (s : State Proc) : Action Proc → Bool
  | .write p => (s.call p).all fun c => s.off + (piece c.addr c.i).length ≤ maxfile * bsize
  | _ => true

/-! ## The invariant -/

/-- How much of the buffer is in the file. -/
def Call.done (c : Call) : Nat :=
  match c.stage with
  | .outside | .locked => c.i
  | .wrote _ | .advanced _ => c.i + (piece c.addr c.i).length

/-- What is in the file, but not yet counted in the offset. -/
def Call.owed (c : Call) : Nat :=
  match c.stage with
  | .wrote _ => (piece c.addr c.i).length
  | _ => 0

/-- The call that has the lock. -/
def State.inside (s : State Proc) : Option Call :=
  s.holder.bind s.call

def State.owed (s : State Proc) : Nat :=
  s.inside.elim 0 Call.owed

/-- Who has the lock and has not written yet. -/
def State.waiting (s : State Proc) : List Proc :=
  if s.inside.map Call.stage = some .locked then s.holder.toList else []

def State.doneBy (s : State Proc) (p : Proc) : List UInt8 :=
  (s.call p).elim [] fun c => c.addr.take c.done

/-- All that a process has written, piece by piece. -/
def History.writtenBy (h : History Proc) (p : Proc) : List UInt8 :=
  ((h.chunks.filter fun chunk => chunk.1 = p).map Prod.snd).flatten

/-- The buffers of the calls of a process that have returned. -/
def History.returnedBy (h : History Proc) (p : Proc) : List UInt8 :=
  ((h.returned.filter fun entry => entry.1 = p).map fun entry => entry.2.1).flatten

/-- All that was written. -/
def History.bytes (h : History Proc) : List UInt8 :=
  (h.chunks.map Prod.snd).flatten

/-- A call in progress. -/
structure CallOk (s : State Proc) (p : Proc) (c : Call) : Prop where
  low : c.i ≤ c.addr.length
  fine : c.failed = false
  inside : c.stage ≠ .outside → s.holder = some p ∧ c.i < c.addr.length
  result : ∀ r, c.stage = .wrote r ∨ c.stage = .advanced r → r = (piece c.addr c.i).length

/-- The file is what it was, and behind it all that was written; the offset is at its end but for
the piece that is being written. -/
structure Inv (sb : Superblock) (inum : Nat) (before : List UInt8) (s : State Proc) (h : History Proc) :
    Prop where
  file : File sb inum s.ip s.v
  notDevice : s.ip.type ≠ tDev
  content : content s.ip s.v.disk = before ++ h.bytes
  offset : s.off + s.owed = s.ip.size
  calls : ∀ p c, s.call p = some c → CallOk s p c
  holder : ∀ p, s.holder = some p → ∃ c, s.call p = some c ∧ c.stage ≠ .outside
  locked : h.locked = h.chunks.map Prod.fst ++ s.waiting
  written : ∀ p, h.writtenBy p = h.returnedBy p ++ s.doneBy p
  returned : ∀ entry ∈ h.returned, entry.2.2 = entry.2.1.length

section Steps

variable {sb : Superblock} {inum : Nat} {before : List UInt8} {s s' : State Proc} {h : History Proc}
  {p : Proc} {c : Call} {c' : Option Call}

omit [DecidableEq Proc] in
theorem inside_eq (holds : s.holder = some p) (calling : s.call p = some c) : s.inside = some c := by
  rw [State.inside, holds, Option.bind_some, calling]

theorem doneBy_update (calls : s'.call = update s.call p c') (q : Proc) :
    s'.doneBy q = if q = p then c'.elim [] fun c => c.addr.take c.done else s.doneBy q := by
  unfold State.doneBy
  rw [calls]
  by_cases same : q = p
  · rw [if_pos same, same, update_self]
  · rw [if_neg same, update_of_ne same]

/-- The other calls, when one changes and with it perhaps the lock. -/
theorem Inv.calls_update (inv : Inv sb inum before s h)
    (calls : s'.call = update s.call p c')
    (lock : s'.holder = s.holder ∨ s.holder = none ∨ s.holder = some p)
    (own : ∀ d, c' = some d → CallOk s' p d) (q : Proc) (d : Call) (calling : s'.call q = some d) :
    CallOk s' q d := by
  rw [calls] at calling
  by_cases same : q = p
  · subst same
    rw [update_self] at calling
    exact own d calling
  · rw [update_of_ne same] at calling
    have ok := inv.calls q d calling
    refine ⟨ok.low, ok.fine, ?_, ok.result⟩
    intro isInside
    obtain ⟨held, more⟩ := ok.inside isInside
    refine ⟨?_, more⟩
    rcases lock with unchanged | free | mine
    · rw [unchanged, held]
    · rw [free] at held
      cases held
    · rw [mine] at held
      exact absurd (Option.some.inj held).symm same

/-- A call that does not have the lock changes. -/
structure Aside (s s' : State Proc) (p : Proc) (c' : Option Call) : Prop where
  calls : s'.call = Function.update s.call p c'
  holder : s'.holder = s.holder
  other : s.holder ≠ some p
  same : s'.off = s.off ∧ s'.ip = s.ip ∧ s'.v = s.v

theorem Aside.inside (aside : Aside s s' p c') : s'.inside = s.inside := by
  unfold State.inside
  rw [aside.holder, aside.calls]
  cases held : s.holder with
  | none => rfl
  | some q =>
    have different : q ≠ p := by
      rintro rfl
      exact aside.other held
    rw [Option.bind_some, Option.bind_some, update_of_ne different]

theorem Aside.inv (aside : Aside s s' p c') (inv : Inv sb inum before s h) {h' : History Proc}
    (chunks : h'.chunks = h.chunks) (locked : h'.locked = h.locked)
    (own : ∀ d, c' = some d → CallOk s' p d)
    (written : ∀ q, h.returnedBy q ++ s.doneBy q = h'.returnedBy q ++ s'.doneBy q)
    (returned : ∀ entry ∈ h'.returned, entry.2.2 = entry.2.1.length) :
    Inv sb inum before s' h' := by
  obtain ⟨sameOff, sameIp, sameV⟩ := aside.same
  refine ⟨?_, ?_, ?_, ?_, inv.calls_update aside.calls (.inl aside.holder) own, ?_, ?_, ?_, returned⟩
  · rw [sameIp, sameV]
    exact inv.file
  · rw [sameIp]
    exact inv.notDevice
  · rw [sameIp, sameV, History.bytes, chunks]
    exact inv.content
  · rw [sameOff, sameIp, State.owed, aside.inside]
    exact inv.offset
  · intro q held
    rw [aside.holder] at held
    obtain ⟨c, calling, isInside⟩ := inv.holder q held
    have different : q ≠ p := by
      rintro rfl
      exact aside.other held
    exact ⟨c, by rw [aside.calls, update_of_ne different, calling], isInside⟩
  · rw [locked, chunks, State.waiting, aside.inside, aside.holder]
    exact inv.locked
  · intro q
    rw [← written q, ← inv.written q, History.writtenBy, History.writtenBy, chunks]

theorem returnedBy_append (h : History Proc) (p q : Proc) (addr : List UInt8) (r : Int) :
    History.returnedBy { h with returned := h.returned ++ [(p, addr, r)] } q =
      h.returnedBy q ++ if q = p then addr else [] := by
  unfold History.returnedBy
  rw [List.filter_append, List.map_append, List.flatten_append]
  by_cases same : q = p
  · simp [same]
  · have different : p ≠ q := fun eq => same eq.symm
    simp [same, different]

/-- A call begins. -/
theorem Inv.call (inv : Inv sb inum before s h) (idle : s.call p = none) (addr : List UInt8) :
    Inv sb inum before (s.setCall p (some ⟨addr, 0, .outside, false⟩)) h := by
  have other : s.holder ≠ some p := by
    intro held
    obtain ⟨c, calling, _⟩ := inv.holder p held
    rw [idle] at calling
    cases calling
  have aside : Aside s (s.setCall p (some ⟨addr, 0, .outside, false⟩)) p _ :=
    ⟨rfl, rfl, other, rfl, rfl, rfl⟩
  refine aside.inv inv rfl rfl ?_ ?_ inv.returned
  · rintro d ⟨⟩
    refine ⟨Nat.zero_le _, rfl, fun isInside => absurd rfl isInside, ?_⟩
    rintro r (same | same) <;> cases same
  · intro q
    rw [doneBy_update aside.calls]
    by_cases same : q = p
    · rw [if_pos same, same, State.doneBy, idle]
      rfl
    · rw [if_neg same]

/-- A call returns. -/
theorem Inv.ret (inv : Inv sb inum before s h) (calling : s.call p = some c) (isOutside : c.stage = .outside)
    (ends : c.failed = true ∨ c.addr.length ≤ c.i) :
    Inv sb inum before (s.setCall p none)
      { h with returned := h.returned ++ [(p, c.addr, c.result)] } := by
  have ok := inv.calls p c calling
  have whole : c.i = c.addr.length := by
    rcases ends with failed | reached
    · rw [ok.fine] at failed
      cases failed
    · exact Nat.le_antisymm ok.low reached
  have other : s.holder ≠ some p := by
    intro held
    obtain ⟨d, calling', isInside⟩ := inv.holder p held
    rw [calling] at calling'
    cases calling'
    exact isInside isOutside
  have aside : Aside s (s.setCall p none) p none := ⟨rfl, rfl, other, rfl, rfl, rfl⟩
  refine aside.inv inv rfl rfl (fun d none_ => nomatch none_) ?_ ?_
  · intro q
    rw [doneBy_update aside.calls, returnedBy_append]
    by_cases same : q = p
    · rw [if_pos same, if_pos same, same, State.doneBy, calling]
      simp [Call.done, isOutside, whole]
    · rw [if_neg same, if_neg same, List.append_nil]
  · intro entry member
    rcases List.mem_append.mp member with old | isNew
    · exact inv.returned entry old
    · rw [List.mem_singleton.mp isNew]
      exact if_pos whole

/-- A call goes on, and the file stays as it is. -/
theorem Inv.move (inv : Inv sb inum before s h) (calling : s.call p = some c) {d : Call}
    {h' : History Proc} (calls : s'.call = update s.call p (some d))
    (lock : s'.holder = s.holder ∨ s.holder = none ∨ s.holder = some p)
    (same : s'.ip = s.ip ∧ s'.v = s.v) (offset : s'.off + s'.owed = s.ip.size) (own : CallOk s' p d)
    (holder : ∀ q, s'.holder = some q → q = p ∧ d.stage ≠ .outside)
    (done : d.addr.take d.done = c.addr.take c.done) (chunks : h'.chunks = h.chunks)
    (returned : h'.returned = h.returned)
    (locked : h'.locked = h.chunks.map Prod.fst ++ s'.waiting) : Inv sb inum before s' h' := by
  obtain ⟨sameIp, sameV⟩ := same
  refine ⟨?_, ?_, ?_, ?_, ?_, ?_, ?_, ?_, ?_⟩
  · rw [sameIp, sameV]
    exact inv.file
  · rw [sameIp]
    exact inv.notDevice
  · rw [sameIp, sameV, History.bytes, chunks]
    exact inv.content
  · rw [sameIp]
    exact offset
  · refine inv.calls_update calls lock ?_
    rintro d' ⟨⟩
    exact own
  · intro q held
    obtain ⟨rfl, isInside⟩ := holder q held
    exact ⟨d, by rw [calls, update_self], isInside⟩
  · rw [locked, chunks]
  · intro q
    rw [doneBy_update calls, History.writtenBy, History.returnedBy, chunks, returned]
    refine (inv.written q).trans (congrArg (h.returnedBy q ++ ·) ?_)
    by_cases same : q = p
    · rw [if_pos same, same, State.doneBy, calling]
      exact done.symm
    · rw [if_neg same]
  · rw [returned]
    exact inv.returned

/-- A call takes the lock. -/
theorem Inv.lock (inv : Inv sb inum before s h) (calling : s.call p = some c)
    (isOutside : c.stage = .outside) (more : c.i < c.addr.length) (free : s.holder = none) :
    Inv sb inum before { s.setCall p (some { c with stage := .locked }) with holder := some p }
      { h with locked := h.locked ++ [p] } := by
  have ok := inv.calls p c calling
  have outside : s.inside = none := by rw [State.inside, free, Option.bind_none]
  have inside : State.inside { s.setCall p (some { c with stage := .locked }) with holder := some p } =
      some { c with stage := .locked } :=
    inside_eq rfl (update_self p _ s.call)
  have offset := inv.offset
  have locked := inv.locked
  rw [State.owed, outside] at offset
  rw [State.waiting, outside] at locked
  refine inv.move calling rfl (.inr (.inl free)) ⟨rfl, rfl⟩ ?_ ?_ ?_ ?_ rfl rfl ?_
  · rw [State.owed, inside]
    exact offset
  · refine ⟨ok.low, ok.fine, fun _ => ⟨rfl, more⟩, ?_⟩
    rintro r (same | same) <;> cases same
  · rintro q ⟨⟩
    exact ⟨rfl, by intro same; cases same⟩
  · rw [Call.done, Call.done, isOutside]
  · rw [State.waiting, inside, locked]
    simp

/-- The offset is moved over the piece. -/
theorem Inv.advance (inv : Inv sb inum before s h) (calling : s.call p = some c) {r : Int}
    (hasWritten : c.stage = .wrote r) :
    Inv sb inum before
      { s.setCall p (some { c with stage := .advanced r }) with
        off := if 0 < r then (s.off + r.toNat) % 2 ^ 32 else s.off } h := by
  have ok := inv.calls p c calling
  obtain ⟨held, more⟩ := ok.inside (by rw [hasWritten]; exact fun same => nomatch same)
  obtain rfl := ok.result r (.inl hasWritten)
  have inside := inside_eq held calling
  generalize after : ({ s.setCall p (some { c with stage := .advanced (piece c.addr c.i).length }) with
    off := if 0 < ((piece c.addr c.i).length : Int) then
      (s.off + ((piece c.addr c.i).length : Int).toNat) % 2 ^ 32 else s.off } : State Proc) = s'
  have calls : s'.call =
      update s.call p (some { c with stage := .advanced (piece c.addr c.i).length }) := by
    rw [← after]
    rfl
  have held' : s'.holder = some p := by
    rw [← after]
    exact held
  have inside' := inside_eq held' (show s'.call p = some { c with stage := .advanced _ } by
    rw [calls, update_self])
  have offset : s.off + (piece c.addr c.i).length = s.ip.size := by
    have sum := inv.offset
    rw [State.owed, inside, Option.elim_some, Call.owed, hasWritten] at sum
    exact sum
  have off : s'.off = s.off + (piece c.addr c.i).length := by
    have positive := maxChunk_pos
    have length := length_piece c.addr c.i
    have size := inv.file.size
    have limit : maxfile * bsize < 2 ^ 32 := by decide
    rw [← after]
    dsimp only
    rw [if_pos (by omega), Int.toNat_natCast, Nat.mod_eq_of_lt (by omega)]
  refine inv.move calling calls (.inr (.inr held)) ?_ ?_ ?_ ?_ ?_ rfl rfl ?_
  · rw [← after]
    exact ⟨rfl, rfl⟩
  · rw [State.owed, inside', off]
    exact offset
  · refine ⟨ok.low, ok.fine, fun _ => ⟨held', more⟩, ?_⟩
    rintro r (same | same)
    · cases same
    · cases same
      rfl
  · intro q isHolder
    rw [held'] at isHolder
    cases isHolder
    exact ⟨rfl, by intro same; cases same⟩
  · rw [Call.done, Call.done, hasWritten]
  · have locked := inv.locked
    rw [State.waiting, inside, Option.map_some, hasWritten] at locked
    rw [State.waiting, inside', locked]
    simp

/-- The lock is given back. -/
theorem Inv.unlock (inv : Inv sb inum before s h) (calling : s.call p = some c) {r : Int} {d : Call}
    (hasAdvanced : c.stage = .advanced r) (goesOn : c.unlocked r = some d) :
    Inv sb inum before { s.setCall p (some d) with holder := none } h := by
  have ok := inv.calls p c calling
  obtain ⟨held, more⟩ := ok.inside (by rw [hasAdvanced]; exact fun same => nomatch same)
  obtain rfl := ok.result r (.inr hasAdvanced)
  have inside := inside_eq held calling
  have length := length_piece c.addr c.i
  rw [Call.unlocked, if_neg (by omega), if_neg (fun different => different rfl)] at goesOn
  obtain rfl := Option.some.inj goesOn
  have offset := inv.offset
  have locked := inv.locked
  rw [State.owed, inside, Option.elim_some, Call.owed, hasAdvanced] at offset
  rw [State.waiting, inside, Option.map_some, hasAdvanced] at locked
  refine inv.move calling rfl (.inr (.inr held)) ⟨rfl, rfl⟩ offset ?_ (fun q none_ => nomatch none_) ?_
    rfl rfl ?_
  · refine ⟨?_, ok.fine, fun isInside => absurd rfl isInside, ?_⟩
    · show c.i + (piece c.addr c.i).length ≤ c.addr.length
      omega
    · rintro r (same | same) <;> cases same
  · rw [Call.done, Call.done, hasAdvanced]
  · rw [locked]
    simp [State.waiting, State.inside]

theorem writtenBy_append (h : History Proc) (p q : Proc) (bytes : List UInt8) :
    History.writtenBy { h with chunks := h.chunks ++ [(p, bytes)] } q =
      h.writtenBy q ++ if q = p then bytes else [] := by
  unfold History.writtenBy
  rw [List.filter_append, List.map_append, List.flatten_append]
  by_cases same : q = p
  · simp [same]
  · have different : p ≠ q := fun eq => same eq.symm
    simp [same, different]

theorem take_piece (addr : List UInt8) (i : Nat) :
    addr.take (i + (piece addr i).length) = addr.take i ++ piece addr i := by
  rw [List.take_add, length_piece]
  rfl

/-- A piece is written at the end of the file. -/
theorem Inv.write (inv : Inv sb inum before s h) (calling : s.call p = some c)
    (isLocked : c.stage = .locked) {ip : Dinode} {v : Volume}
    (written : Overwritten sb inum s.off (piece c.addr c.i) s.ip s.v ip v) :
    Inv sb inum before
      { s.setCall p (some { c with stage := .wrote (piece c.addr c.i).length }) with ip := ip, v := v }
      { h with chunks := h.chunks ++ [(p, piece c.addr c.i)] } := by
  have ok := inv.calls p c calling
  obtain ⟨held, more⟩ := ok.inside (by rw [isLocked]; exact fun same => nomatch same)
  have inside := inside_eq held calling
  have offset : s.off = s.ip.size := by
    have sum := inv.offset
    rw [State.owed, inside, Option.elim_some, Call.owed, isLocked] at sum
    exact sum
  generalize after : ({ s.setCall p (some { c with stage := .wrote (piece c.addr c.i).length }) with
    ip := ip, v := v } : State Proc) = s'
  have calls : s'.call =
      update s.call p (some { c with stage := .wrote (piece c.addr c.i).length }) := by
    rw [← after]
    rfl
  have held' : s'.holder = some p := by
    rw [← after]
    exact held
  have inside' : s'.inside = some { c with stage := .wrote (piece c.addr c.i).length } :=
    inside_eq held' (by rw [calls, update_self])
  obtain ⟨sameOff, isIp, isV⟩ : s'.off = s.off ∧ s'.ip = ip ∧ s'.v = v := by
    rw [← after]
    exact ⟨rfl, rfl, rfl⟩
  refine ⟨?_, ?_, ?_, ?_, ?_, ?_, ?_, ?_, inv.returned⟩
  · rw [isIp, isV]
    exact written.file
  · rw [isIp, written.same]
    exact inv.notDevice
  · have atEnd : s.off = (Inode.content s.ip s.v.disk).length := by
      rw [length_content]
      exact offset
    rw [isIp, isV, written.content, atEnd, Overwrite.overwrite_length, inv.content, History.bytes,
      History.bytes, List.map_append, List.flatten_append, List.append_assoc]
    simp
  · have size := written.size
    rw [sameOff, isIp, State.owed, inside', size]
    show s.off + (piece c.addr c.i).length = _
    omega
  · refine inv.calls_update calls (.inr (.inr held)) ?_
    rintro d ⟨⟩
    refine ⟨ok.low, ok.fine, fun _ => ⟨held', more⟩, ?_⟩
    rintro r (same | same)
    · cases same
      rfl
    · cases same
  · intro q isHolder
    rw [held'] at isHolder
    cases isHolder
    exact ⟨_, by rw [calls, update_self], by intro same; cases same⟩
  · have locked := inv.locked
    rw [State.waiting, inside, held] at locked
    rw [State.waiting, inside', locked]
    simp [isLocked]
  · intro q
    rw [doneBy_update calls, writtenBy_append, inv.written q]
    by_cases same : q = p
    · rw [if_pos same, if_pos same, same, State.doneBy, calling, List.append_assoc]
      simp [Call.done, isLocked, take_piece]
      rfl
    · rw [if_neg same, if_neg same, List.append_nil]
      rfl

theorem chunkOf_wrote (c : Call) :
    chunkOf c (some { c with stage := .wrote (piece c.addr c.i).length }) = [piece c.addr c.i] :=
  if_pos rfl

theorem Inv.step_call (devsw : Devsw) (inv : Inv sb inum before s h) {a : Action Proc}
    (below : within s a = true) (calling : s.call a.proc = some c)
    (taken : stepCall devsw sb inum s c a = some s') : Inv sb inum before s' (observe s a s' h) := by
  unfold observe
  rw [calling]
  cases a with
  | call p addr => cases taken
  | lock p =>
    obtain ⟨⟨isOutside, _, more, free⟩, same⟩ := Option.ite_none_right_eq_some.mp taken
    rw [← Option.some.inj same]
    exact inv.lock calling isOutside more free
  | write p =>
    obtain ⟨isLocked, ran⟩ := Option.ite_none_right_eq_some.mp taken
    have start : s.off ≤ s.ip.size := by
      have offset := inv.offset
      omega
    have short : s.off + (piece c.addr c.i).length ≤ maxfile * bsize := by
      have all : (s.call p).all (fun c => decide (s.off + (piece c.addr c.i).length ≤ maxfile * bsize)) =
          true := below
      rw [show s.call p = some c from calling] at all
      exact of_decide_eq_true all
    rcases writei_cases devsw inv.file inv.notDevice start short with ⟨failed, _⟩ | ⟨ip₁, v₁, ends, loop⟩
    · rw [failed] at ran
      cases ran
    · obtain ⟨ip, v, finished, written⟩ := loop.finish inv.file start short
      rw [ends, finished] at ran
      rw [← Option.some.inj ran]
      have recorded : (State.setCall s p
          (some { c with stage := .wrote (piece c.addr c.i).length })).call p = _ :=
        update_self p _ s.call
      dsimp only
      rw [recorded, chunkOf_wrote]
      exact inv.write calling isLocked written
  | advance p =>
    unfold stepCall at taken
    cases stage : c.stage with
    | wrote r =>
      rw [stage] at taken
      rw [← Option.some.inj taken]
      exact inv.advance calling stage
    | _ =>
      rw [stage] at taken
      cases taken
  | unlock p =>
    unfold stepCall at taken
    cases stage : c.stage with
    | advanced r =>
      rw [stage] at taken
      obtain ⟨d, goesOn, same⟩ := Option.map_eq_some_iff.mp taken
      rw [← same]
      exact inv.unlock calling stage goesOn
    | _ =>
      rw [stage] at taken
      cases taken
  | ret p =>
    obtain ⟨⟨isOutside, ends⟩, same⟩ := Option.ite_none_right_eq_some.mp taken
    rw [← Option.some.inj same]
    exact inv.ret calling isOutside ends

theorem Inv.step (devsw : Devsw) (inv : Inv sb inum before s h) {a : Action Proc}
    (below : within s a = true) (taken : step devsw sb inum s a = some s') :
    Inv sb inum before s' (observe s a s' h) := by
  unfold Shared.step at taken
  cases calling : s.call a.proc with
  | some c =>
    rw [calling] at taken
    exact inv.step_call devsw below calling taken
  | none =>
    rw [calling] at taken
    cases a with
    | call p addr =>
      rw [← Option.some.inj taken]
      unfold observe
      rw [calling]
      exact inv.call calling addr
    | _ => cases taken

end Steps

/-! ## Runs -/

/-- What the writers have done to a file with the contents `before`. -/
structure Appended (before : List UInt8) (s : State Proc) (h : History Proc) : Prop where
  content : content s.ip s.v.disk = before ++ h.bytes
  size : s.ip.size = before.length + h.bytes.length
  offset : s.holder = none → s.off = before.length + h.bytes.length
  /-- Each piece is behind those before it. -/
  ranges : ∀ earlier p bytes later, h.chunks = earlier ++ (p, bytes) :: later →
    ((Inode.content s.ip s.v.disk).drop
      (before.length + (earlier.map Prod.snd).flatten.length)).take bytes.length = bytes
  /-- The pieces are in the order in which the lock was taken. -/
  order : h.locked = h.chunks.map Prod.fst ++ s.waiting
  /-- The pieces of a process are its buffers, in order. -/
  calls : ∀ p, h.writtenBy p = h.returnedBy p ++ s.doneBy p
  returned : ∀ entry ∈ h.returned, entry.2.2 = entry.2.1.length

theorem Inv.appended {sb : Superblock} {inum : Nat} {before : List UInt8} {s : State Proc}
    {h : History Proc} (inv : Inv sb inum before s h) : Appended before s h := by
  have size : s.ip.size = before.length + h.bytes.length := by
    rw [← length_content s.ip s.v.disk, inv.content, List.length_append]
  refine ⟨inv.content, size, ?_, ?_, inv.locked, inv.written, inv.returned⟩
  · intro free
    have offset := inv.offset
    rw [State.owed, State.inside, free, Option.bind_none] at offset
    exact offset.trans size
  · intro earlier p bytes later chunks
    rw [inv.content, History.bytes, chunks, List.map_append, List.flatten_append, List.map_cons,
      List.flatten_cons, ← List.append_assoc, ← List.append_assoc, List.append_assoc,
      ← List.length_append, List.drop_left, List.take_left]

/-- Processes that write to one file, which has its offset at the end and does not meet the limit:
the pieces are all there, in the order in which the lock was taken. -/
theorem sharedWriters_append (devsw : Devsw) {sb : Superblock} {inum : Nat} {start : State Proc}
    (idle : ∀ p, start.call p = none) (free : start.holder = none)
    (file : File sb inum start.ip start.v) (isFile : start.ip.type = FileType.file.code)
    (atEnd : start.off = start.ip.size) {actions : List (Action Proc)} {s : State Proc}
    {h : History Proc}
    (below : AllSteps (watch (step devsw sb inum) observe) (fun watched a => within watched.1 a = true)
      (start, .empty) actions)
    (reaches : run (watch (step devsw sb inum) observe) (start, .empty) actions = some (s, h)) :
    Appended (content start.ip start.v.disk) s h := by
  have initially : Inv sb inum (content start.ip start.v.disk) start .empty := by
    have outside : start.inside = none := by rw [State.inside, free, Option.bind_none]
    refine ⟨file, by rw [isFile]; decide, (List.append_nil _).symm, ?_, ?_, ?_, ?_, ?_, ?_⟩
    · rw [State.owed, outside]
      exact atEnd
    · intro p c calling
      rw [idle p] at calling
      cases calling
    · intro p held
      rw [free] at held
      cases held
    · rw [State.waiting, outside]
      rfl
    · intro p
      rw [State.doneBy, idle p]
      rfl
    · exact fun entry member => nomatch member
  refine Inv.appended (TransitionSystem.run_invariant_of_allSteps
    (fun watched => Inv sb inum (content start.ip start.v.disk) watched.1 watched.2) ?_ initially
    below reaches)
  intro before a after inv below_ taken
  obtain ⟨moved, seen⟩ := TransitionSystem.watch_eq_some.mp taken
  rw [seen]
  exact inv.step devsw below_ moved

/-- Two processes and an empty file. -/
def twoWriters : State Bool :=
  ⟨0, emptyFile, smallVolume, none, fun _ => none⟩

def twoWrites : List (Action Bool) :=
  [.call true [1, 2], .call false [3], .lock false, .write false, .advance false, .unlock false,
    .lock true, .ret false, .write true, .advance true, .unlock true, .ret true]

theorem sharedWriters_twoWriters :
    ∃ s h, run (watch (step ⟨fun _ => none, fun _ => none⟩ smallSb 0) observe) (twoWriters, .empty)
        twoWrites = some (s, h) ∧
      content s.ip s.v.disk = [3, 1, 2] ∧ Appended (content emptyFile smallVolume.disk) s h := by
  refine TransitionSystem.exists_of_view (fun watched => watched.2.chunks)
    [(false, [3]), (true, [1, 2])] (by decide +kernel) fun s h reaches chunks => ?_
  have appended : Appended _ s h := sharedWriters_append ⟨fun _ => none, fun _ => none⟩ (fun _ => rfl) rfl
    smallVolume_file rfl rfl (by decide +kernel) reaches
  refine ⟨?_, appended⟩
  rw [appended.content, History.bytes, chunks]
  rfl

end Xv6.Inode.Shared
