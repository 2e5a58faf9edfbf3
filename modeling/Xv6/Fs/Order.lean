import Xv6.Fs.Calls
import Xv6.Fs.LinkSteps

/-!
What a process holds, and the order in which it takes locks.

Owns: references, locks and links in one; the logic of the calls, in which link counts and the
order of locks are optional; and that every operation keeps its invariant.

Does not own: that the calls obey the logic (`Xv6.Fs.Safe`).
-/

namespace Xv6.Fs

open Function (update comp_update)

open Interleave

variable {n : Nat}

/-- What a process holds in the middle of a call. -/
structure Hold (n : Nat) where
  refs : Refs n
  locks : Locks
  links : Links

namespace Hold

def idle : Hold n := ⟨.idle, .idle, .idle⟩

/-- The one lock held is that of a directory with an entry for the inode, `.` and `..` apart. -/
def Nested (h : Hold n) (i : Inum) : Prop :=
  ∃ j d e, h.locks.held = [(j, some d)] ∧ HasDir h.refs h.locks h.links j d ∧
    some e ∈ d.entries ∧ ¬Dotted e.name ∧ e.inum = i

/-- The one lock held is that of a directory, and the inode is a new one. -/
def Making (h : Hold n) (i : Inum) : Prop :=
  (∃ x, h.links.fresh = some (i, x)) ∧
    ∃ j d, h.locks.held = [(j, some d)] ∧ HasDir h.refs h.locks h.links j d

/-- The order of locks: `ilock` goes down the tree. `iput` keeps to no order. -/
def orderPre (h : Hold n) : Op n → Prop
  | .ilock i => h.locks.held = [] ∨ h.Nested i ∨ h.Making i
  | _ => True

def post (h : Hold n) (o : Op n) (answer : o.Ret) : Hold n where
  refs := h.refs.post o answer
  locks := h.locks.post o answer
  links := h.links.post h.locks o answer

end Hold

/-- With `g`, link counts and the order of locks are kept track of, besides references and
locks. -/
def logic (g : Bool) (n : Nat) : Logic (sig n) where
  Local := Hold n
  idle := .idle
  done h := h.refs.Done ∧ h.locks.held = [] ∧ (g = true → h.links.Done)
  pre h o := h.refs.pre o ∧ h.refs.reads o ∧ h.locks.pre o ∧
    (g = true → h.links.pre h.refs h.locks o ∧ h.orderPre o)
  fact h o answer := h.refs.fact o answer ∧ h.locks.fact o answer ∧
    (g = true → h.links.fact h.refs o answer)
  post := Hold.post

/-! ## The invariant -/

structure HoldInv (g : Bool) (s : State n) (holds : Fin n → Hold n) : Prop where
  counts : RefInv s (Hold.refs ∘ holds)
  owners : LockInv s (Hold.locks ∘ holds)
  tree : g = true → ∃ t, LinkInv s (Hold.refs ∘ holds) (Hold.links ∘ holds) t

/-- The condition on a step that link counts ask for. -/
def Allowed (c : Config (machine n)) : Action (machine n) → Prop
  | .call _ _ => True
  | .run p _ => ∀ o, c.next p = some o → RemovesUnused c.shared o

instance (s : State n) : DecidablePred (RemovesUnused s) := fun o => by
  cases o
  case clearEntry dp off =>
    exact decidable_of_iff (∀ e ∈ (s.inode dp).entries[off]?.join,
      (s.inode e.inum).type = .dir → s.ref e.inum = 1) (by simp [RemovesUnused, Option.join_eq_some_iff])
  all_goals exact isTrue trivial

instance (c : Config (machine n)) : DecidablePred (Allowed c)
  | .call _ _ => isTrue trivial
  | .run p _ =>
    let s : State n := c.shared
    let next : Option (Op n) := c.next p
    decidable_of_iff (∀ o ∈ next, RemovesUnused s o) Iff.rfl

variable {g : Bool} {s next : State n} {holds : Fin n → Hold n} {p : Fin n}

theorem HoldInv.returns (inv : HoldInv g s holds) (done : (logic g n).done (holds p)) :
    HoldInv g s (update holds p .idle) := by
  obtain ⟨refsDone, noLocks, linksDone⟩ := done
  constructor
  case counts =>
    rw [comp_update]
    exact inv.counts.returns refsDone
  case owners =>
    rw [comp_update]
    exact inv.owners.frame rfl rfl (fun _ => id) noLocks.symm
  case tree =>
    intro guarded
    obtain ⟨t, links⟩ := inv.tree guarded
    rw [comp_update, comp_update]
    exact ⟨t, links.returns refsDone (linksDone guarded)⟩

variable {o : Op n} {answer : o.Ret} {c : Config (machine n)}

/-- Every operation that meets its preconditions keeps the invariant. -/
theorem HoldInv.step (inv : HoldInv g c.shared holds) {choice : Bool}
    (isNext : c.next p = some o) (allowed : g = true → Allowed c (.run p choice))
    (ready : (machine n).ready c.shared p = true) (needs : (logic g n).pre (holds p) o)
    (executed : Fs.exec c.shared p choice o = some (answer, next)) :
    (logic g n).fact (holds p) o answer ∧
      HoldInv g next (update holds p ((holds p).post o answer)) := by
  obtain ⟨needsRefs, knows, needsLocks, needsLinks⟩ := needs
  have ran := Exec.of_exec executed
  have live : (c.shared.proc p).phase = .live := of_decide_eq_true ready
  obtain ⟨locksFact, owners⟩ := inv.owners.step needsLocks ran
  refine ⟨⟨inv.counts.fact ran, locksFact, ?_⟩, ?_⟩
  · intro guarded
    obtain ⟨t, links⟩ := inv.tree guarded
    exact links.fact ran
  · constructor
    case counts =>
      rw [comp_update]
      exact inv.counts.step live needsRefs knows ran
    case owners =>
      rw [comp_update]
      exact owners
    case tree =>
      intro guarded
      obtain ⟨t, links⟩ := inv.tree guarded
      rw [comp_update, comp_update]
      exact links.step inv.owners inv.counts live needsRefs knows needsLocks (needsLinks guarded).1
        (allowed guarded o isNext) ran

end Xv6.Fs
