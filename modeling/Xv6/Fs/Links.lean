import Xv6.Fs.Counts
import Xv6.Fs.Locks
import Xv6.Fs.Tree

/-!
Links to inodes while calls make and remove them.

Owns: what a process in the middle of a call owes to link counts and which inodes it has to
itself; what each operation needs and leaves of that; and the invariant that relates the link
counts to the tree of directories.

Does not own: that operations keep it (`Xv6.Fs.LinkSteps`).
-/

open Tally (hits)

namespace Xv6.Fs

variable {n : Nat}

structure Links where
  /-- Links that are counted but not there. -/
  owed : Multiset Inum
  /-- The directory the process is making or has removed. -/
  detached : Option Inum
  /-- An inode the process has a reference to and knows not to be a directory. -/
  plain : Option Inum
  /-- The inode that `ialloc` has just marked, and whether it has a reference to it. -/
  fresh : Option (Inum × IType × Bool)
  /-- The inode that was just seen to have no links. -/
  tested : Option Inum
  /-- The inode that was just seen to have no links and one reference. -/
  sole : Option Inum

namespace Links

def idle : Links := ⟨0, none, none, none, none, none⟩

structure Done (a : Links) : Prop where
  owed : a.owed = 0
  detached : a.detached = none
  plain : a.plain = none

/-- The process has an inode to itself, while it makes or frees it. -/
def Claims (a : Links) (i : Inum) : Prop :=
  (∃ x, a.fresh = some (i, x)) ∨ a.sole = some i

/-- Only what lasts beyond the next operation. -/
def lasting (a : Links) : Links :=
  ⟨a.owed, a.detached, a.plain, none, none, none⟩

theorem Done.lasting {a : Links} (done : a.Done) : a.lasting = idle := by
  rw [Links.lasting, done.owed, done.detached, done.plain]
  rfl

end Links

/-- What is known of a locked inode. -/
def Locks.find (k : Locks) (i : Inum) : Option Inode :=
  (k.held.find? fun lock => lock.1 = i).bind Prod.snd

/-- A directory in the tree that the process has locked. -/
structure HasDir (r : Refs n) (k : Locks) (a : Links) (dp : Inum) (d : Inode) : Prop where
  knows : k.Knows dp d
  member : dp ∈ r.inodes
  attached : a.detached ≠ some dp
  type : d.type = .dir

namespace Links

/-- What a new entry needs: it is in a directory that is being made, or names a file, or
completes a new directory. -/
def entryPre (r : Refs n) (k : Locks) (a : Links) (dp : Inum) (name : Name) (i : Inum) : Prop :=
  a.detached = some dp ∨
    (∃ d, HasDir r k a dp d) ∧ ¬Dotted name ∧ i ∈ a.owed ∧
      (a.detached ≠ some i ∧ (a.plain = some i ∨ ∃ d, k.Knows i d ∧ d.type ≠ .dir) ∨
        a.detached = some i ∧ dp ∈ a.owed.erase i ∧ ∃ d, k.Knows i d ∧ IsDir d i dp ∧ d.isEmpty = true)

/-- What removing an entry needs: the inode is locked, and empty if it is a directory. -/
def clearPre (r : Refs n) (k : Locks) (a : Links) (dp : Inum) (off : Nat) : Prop :=
  a.detached = none ∧ ∃ d e d', HasDir r k a dp d ∧ d.entries[off]? = some (some e) ∧
    ¬Dotted e.name ∧ k.Knows e.inum d' ∧ e.inum ∈ r.inodes ∧ (d'.type = .dir → d'.isEmpty = true)

/-- What an operation needs. -/
def pre (r : Refs n) (k : Locks) (a : Links) : Op n → Prop
  | .iget j => j = rootino ∨ (∃ type, a.fresh = some (j, type, false)) ∨
      ∃ dp d e, HasDir r k a dp d ∧ some e ∈ d.entries ∧ e.inum = j
  | .idup _ => a.detached = none
  | .getRef i => i ∈ r.inodes
  | .ifree i => a.sole = some i ∧ a.plain ≠ some i
  | .putRef i => (r.dying = some i → a.detached ≠ some i) ∧
      ∀ j, a.plain = some j → j ∈ (r.dropped i).inodes
  | .initLink i => i ∈ r.inodes ∧ ∃ type got, a.fresh = some (i, type, got)
  | .addLink i => i ∈ r.inodes
  | .dropLink i => i ∈ r.inodes ∧ i ∈ a.owed
  | .addEntry dp name i => dp ∈ r.inodes ∧ a.entryPre r k dp name i
  | .clearEntry dp off => a.clearPre r k dp off
  | .tryAlloc _ _ => a.detached = none
  | .setFile _ kind => ∀ i, kind.ip = some i → a.detached ≠ some i ∧ a.plain ≠ some i
  | .setCwd cwd => ∀ i, cwd = some i → a.plain ≠ some i
  | .setChildCwd _ i => a.detached ≠ some i ∧ a.plain ≠ some i
  | .leave => a.Done
  | _ => True

/-- The directory is no longer its own. -/
def attach (a : Links) (i : Inum) : Links :=
  { a with detached := a.detached.filter fun j => j ≠ i }

def gotten (a : Links) (i : Inum) : Links :=
  { a.lasting with
    fresh := match a.fresh with
      | some (j, type, _) => if j = i then some (j, type, true) else none
      | none => none }

def locked (a : Links) (i : Inum) : Links :=
  { a.lasting with fresh := a.fresh.filter fun fresh => fresh.1 = i }

/-- A link is counted that is not there. -/
def owing (a : Links) (i : Inum) : Links :=
  { a.lasting with owed := i ::ₘ a.owed }

/-- It is there, or no longer counted. -/
def paid (a : Links) (i : Inum) : Links :=
  { a.lasting with owed := a.owed.erase i, plain := none }

/-- A new directory is in the tree. -/
def joined (a : Links) (dp i : Inum) : Links :=
  { a.lasting with owed := (a.owed.erase i).erase dp, detached := none }

/-- A directory is no longer in the tree. -/
def parted (a : Links) (dp i : Inum) : Links :=
  { a.lasting with owed := i ::ₘ dp ::ₘ a.owed, detached := some i }

def addedLink (k : Locks) (a : Links) (i : Inum) : Links :=
  { a.owing i with
    plain := if (k.find i).any fun d => d.type ≠ .dir then some i else a.plain }

def addedEntry (a : Links) (dp i : Inum) : Links :=
  if a.detached = some dp then a.lasting
  else if a.detached = some i then a.joined dp i
  else a.paid i

/-- The entry of a locked directory, and whether it is for a directory. -/
def target (k : Locks) (dp : Inum) (off : Nat) : Option (Inum × Bool) :=
  match (k.find dp).bind fun d => d.entries[off]? with
  | some (some e) => some (e.inum, (k.find e.inum).any fun d => d.type = .dir)
  | _ => none

def clearedEntry (k : Locks) (a : Links) (dp : Inum) (off : Nat) : Links :=
  match target k dp off with
  | some (i, true) => a.parted dp i
  | some (i, false) => a.owing i
  | none => a.lasting

def marked (a : Links) (i : Inum) (type : IType) : Links :=
  { a.lasting with
    fresh := some (i, type, false), detached := if type = .dir then some i else a.detached }

/-- What an operation leaves. -/
def post (k : Locks) (a : Links) : (o : Op n) → o.Ret → Links
  | .iget i, _ => a.gotten i
  | .ilock i, _ => a.locked i
  | .noLinks i, unlinked => { a.lasting with tested := cond unlinked (some i) none }
  | .getRef i, r =>
    { a.lasting with sole := if (show Nat from r) = 1 ∧ a.tested = some i then some i else none }
  | .ifree i, _ => a.lasting.attach i
  | .putRef i, _ => a.lasting.attach i
  | .initLink i, _ => a.owing i
  | .addLink i, _ => a.addedLink k i
  | .dropLink i, _ => a.paid i
  | .addEntry dp _ i, _ => a.addedEntry dp i
  | .clearEntry dp off, _ => a.clearedEntry k dp off
  | .tryAlloc i type, marks => cond marks (a.marked i type) a.lasting
  | .leave, _ => idle
  | _, _ => a.lasting

/-- What the answer of an operation tells the process. -/
def fact (r : Refs n) (a : Links) : (o : Op n) → o.Ret → Prop
  | .ilock i, d => ∀ type got, a.fresh = some (i, type, got) → d = Inode.blank type
  | .getInode i, d => i ∈ r.inodes → a.detached ≠ some i → Inode.type d = .dir → ∃ up, IsDir d i up
  | _, _ => True

end Links

/-! ## The invariant -/

/-- The references of a process that are in use, which an inode that it frees is not. -/
def keeps (proc : Proc) (a : Refs n) (i : Inum) : Nat :=
  a.inodes.count i + hits (cond a.staleCwd none proc.cwd) i

theorem keeps_le (proc : Proc) (a : Refs n) (i : Inum) : keeps proc a i ≤ inodeHolds proc a i := by
  unfold keeps inodeHolds
  omega

/-- Nobody else has a reference to an inode. -/
def Alone (s : State n) (refs : Fin n → Refs n) (p : Fin n) (i : Inum) : Prop :=
  filesOn FileKind.ip s.file i = 0 ∧ ∀ q, q ≠ p → keeps (s.proc q) (refs q) i = 0

/-- An inode that no call may come to. -/
def Shut (s : State n) (t : Tree) (i : Inum) : Prop :=
  (s.inode i).type = .free ∨ (s.inode i).type = .dir ∧ i ∉ t.dirs

/-- What a process knows of inodes is so. -/
structure Own (s : State n) (refs : Fin n → Refs n) (t : Tree) (q : Fin n) (a : Links) : Prop where
  detached : ∀ i, a.detached = some i → (s.inode i).type = .dir ∧ i ∉ t.dirs
  plain : ∀ i, a.plain = some i →
    i ∈ (refs q).inodes ∧ (s.inode i).type ≠ .dir ∧ (s.inode i).type ≠ .free
  fresh : ∀ i type got, a.fresh = some (i, type, got) → s.inode i = .blank type ∧ type ≠ .free ∧
    (type = .dir → a.detached = some i) ∧ keeps (s.proc q) (refs q) i ≤ got.toNat
  tested : ∀ i, a.tested = some i → (s.inode i).nlink = 0 ∧ s.lock i = some q
  sole : ∀ i, a.sole = some i → ((s.inode i).nlink = 0 ∧ s.lock i = some q) ∧
    (s.inode i).type ≠ .free ∧ keeps (s.proc q) (refs q) i ≤ 1
  alone : ∀ i, a.Claims i → Alone s refs q i

structure LinkInv (s : State n) (refs : Fin n → Refs n) (links : Fin n → Links) (t : Tree) :
    Prop where
  good : t.Good s.inode
  exact : ∀ i, (s.inode i).nlink = (t.total s.inode i + ∑ p, (links p).owed.count i : Nat)
  free : ∀ i, (s.inode i).type = .free → (s.inode i).nlink = 0
  shut : ∀ i, Shut s t i → filesOn FileKind.ip s.file i = 0 ∧
    ∀ q, keeps (s.proc q) (refs q) i ≤ hits (links q).detached i
  own : ∀ q, Own s refs t q (links q)
  detachedOnce : ∀ q r i, (links q).detached = some i → (links r).detached = some i → q = r
  claimedOnce : ∀ q r i, (links q).Claims i → (links r).Claims i → q = r

end Xv6.Fs
