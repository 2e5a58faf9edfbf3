import Xv6.Fs.State

/-!
The references the processes hold.

Owns: what a process holds of inodes, files, pipes and the process table in the middle of a
call; and what each operation needs and leaves of it.

Does not own: the counts of the references (`Xv6.Fs.Counts`); locks and links.
-/

namespace Xv6.Fs

variable {n : Nat}

namespace FileKind

/-- The inode of a file. -/
def ip : FileKind → Option Inum
  | .inode i _ _ => some i
  | _ => Option.none

/-- The end of a pipe that a file is. -/
def pipeEnd : FileKind → Option (PipeNo × Bool)
  | .pipe p writable => some (p, writable)
  | _ => Option.none

end FileKind

/-- What a process holds in its local variables. -/
structure Refs (n : Nat) where
  /-- References to inodes. -/
  inodes : Multiset Inum
  /-- The inode that `iput` has freed and still has a reference to. -/
  dying : Option Inum
  /-- References to files. -/
  files : Multiset FileNo
  /-- New files whose type is not set yet. -/
  blank : Multiset FileNo
  /-- An entry of `ofile` that is no reference: one that is being closed, or one that `dup`
  has not counted yet. -/
  stale : Option (Fd × FileNo)
  /-- The current directory is no reference: it is being given up. -/
  staleCwd : Bool
  /-- Ends of pipes that no file has. -/
  ends : Multiset (PipeNo × Bool)
  /-- Pages of pipes that are to be freed. -/
  pages : Multiset PipeNo
  /-- The child that `fork` is making, the descriptors it has not got, and whether it has got
  its directory. -/
  child : Option (Fin n × List Fd × Bool)
  /-- The current directory, as just read. -/
  here : Option Inum
  /-- The file of a descriptor, as just read. -/
  got : Option FileNo
  /-- The inode of that file, as read. -/
  opened : Option Inum
  /-- The last descriptor the call has made. -/
  own : Option (Fd × FileNo)
  /-- Descriptors that are closed for good. -/
  shut : List Fd
  /-- There is no current directory any more. -/
  away : Bool

namespace Refs

/-- Between calls. -/
def idle : Refs n where
  inodes := 0
  dying := none
  files := 0
  blank := 0
  stale := none
  staleCwd := false
  ends := 0
  pages := 0
  child := none
  here := none
  got := none
  opened := none
  own := none
  shut := []
  away := false

/-- What a call may leave when it returns. -/
structure Done (a : Refs n) : Prop where
  inodes : a.inodes = 0
  dying : a.dying = none
  files : a.files = 0
  blank : a.blank = 0
  stale : a.stale = none
  staleCwd : a.staleCwd = false
  ends : a.ends = 0
  pages : a.pages = 0
  child : a.child = none

/-- What an operation needs to have been read just before. -/
def reads (a : Refs n) : Op n → Prop
  | .idup i => a.here = some i
  | .getFile f => a.got = some f
  | _ => True

/-- What an operation needs. -/
def pre (a : Refs n) : Op n → Prop
  | .ilock i => i ∈ a.inodes ∨ a.opened = some i
  | .acquiresleep i => i ∈ a.inodes
  | .ifree i => i ∈ a.inodes ∧ a.dying = none
  | .putRef i => a.dying = some i ∨ a.dying = none ∧ i ∈ a.inodes
  | .filedup f => (∀ entry, a.stale = some entry → entry.2 = f)
  | .dropFile f => f ∈ a.files
  | .setFile f kind =>
    f ∈ a.blank ∧ (∀ i, kind.ip = some i → i ∈ a.inodes) ∧
      ∀ e, kind.pipeEnd = some e → e ∈ a.ends
  | .getFd _ => a.stale = none
  | .oldFd _ => a.stale = none
  | .fdalloc _ => a.stale = none ∧ a.shut = []
  | .clearFd fd => (∀ entry, a.stale = some entry → entry.1 = fd)
  | .getCwd => a.staleCwd = false
  | .oldCwd => a.staleCwd = false
  | .setCwd cwd => a.staleCwd = true ∧ ∀ i, cwd = some i → i ∈ a.inodes
  | .closePipe p writable => (p, writable) ∈ a.ends
  | .kfree p => p ∈ a.pages
  | .allocproc => a.child = none
  | .setChildFd child fd f =>
    ∃ fds given, a.child = some (child, fds, given) ∧ fd ∈ fds ∧ f ∈ a.files ∧ a.blank = 0
  | .setChildCwd child i => ∃ fds, a.child = some (child, fds, false) ∧ i ∈ a.inodes
  | .startChild child => ∃ fds given, a.child = some (child, fds, given)
  | .dropChild child => a.child = some (child, List.finRange nofile, false)
  | .leave => a.Done ∧ (∀ fd, fd ∈ a.shut) ∧ a.away = true
  | _ => True

/-- One more, if there is one. -/
def cons {α : Type} : Option α → Multiset α → Multiset α
  | some x, rest => x ::ₘ rest
  | none, rest => rest

/-- One less, if there is one. -/
def without {α : Type} [DecidableEq α] : Option α → Multiset α → Multiset α
  | some x, rest => rest.erase x
  | none, rest => rest

/-- A new file, if there was one. -/
def allocated (a : Refs n) (found : Option FileNo) : Refs n :=
  { a with files := cons found a.files, blank := cons found a.blank }

/-- The critical section of `fileclose` has found what is to be closed. -/
def closing (a : Refs n) (f : FileNo) (found : Option FileKind) : Refs n :=
  { a with
    files := a.files.erase f
    blank := a.blank.erase f
    inodes := cons (found.bind FileKind.ip) a.inodes
    ends := cons (found.bind FileKind.pipeEnd) a.ends }

def filled (a : Refs n) (f : FileNo) (kind : FileKind) : Refs n :=
  { a with
    blank := a.blank.erase f
    inodes := without kind.ip a.inodes
    ends := without kind.pipeEnd a.ends }

/-- The entry of a descriptor becomes a reference of the call. -/
def taken (a : Refs n) (fd : Fd) (found : Option FileNo) : Refs n :=
  { a with
    stale := found.map fun f => (fd, f)
    files := cons found a.files
    shut := if found.isNone then fd :: a.shut else a.shut
    opened := none }

/-- The reference becomes the entry of a descriptor, or an entry of its own is made. -/
def entered (a : Refs n) (f : FileNo) (slot : Option Fd) : Refs n :=
  { a with
    files := without (slot.map fun _ => f) a.files
    stale := if f ∈ a.files then none else slot.map fun fd => (fd, f)
    own := (slot.map fun fd => (fd, f)).or a.own }

def cleared (a : Refs n) (fd : Fd) (found : Option FileNo) : Refs n :=
  { a with
    files := if a.stale.isSome then a.files else cons found a.files
    stale := none
    shut := fd :: a.shut
    own := none
    opened := none }

def counted (a : Refs n) (f : FileNo) : Refs n :=
  { a with files := if a.stale.isSome then a.files else f ::ₘ a.files, stale := none }

def dropped (a : Refs n) (i : Inum) : Refs n :=
  { a with inodes := if a.dying.isSome then a.inodes else a.inodes.erase i, dying := none }

def moved (a : Refs n) (cwd : Option Inum) : Refs n :=
  { a with
    staleCwd := false
    inodes := without cwd a.inodes
    away := cwd.isNone }

def piped (a : Refs n) (page : Option PipeNo) : Refs n :=
  { a with
    ends := cons (page.map fun p => (p, false)) (cons (page.map fun p => (p, true)) a.ends) }

def closed (a : Refs n) (p : PipeNo) (writable last : Bool) : Refs n :=
  { a with
    ends := a.ends.erase (p, writable)
    pages := if last then p ::ₘ a.pages else a.pages }

def freed (a : Refs n) (p : PipeNo) : Refs n :=
  { a with pages := a.pages.erase p }

def forking (a : Refs n) (slot : Option (Fin n)) : Refs n :=
  { a with child := slot.map fun child => (child, List.finRange nofile, false) }

def gaveFd (a : Refs n) (fd : Fd) (f : FileNo) : Refs n :=
  { a with
    files := a.files.erase f
    child := a.child.map fun made => (made.1, made.2.1.filter (· ≠ fd), made.2.2) }

def gaveCwd (a : Refs n) (i : Inum) : Refs n :=
  { a with
    inodes := a.inodes.erase i
    child := a.child.map fun made => (made.1, made.2.1, true) }

def change (a : Refs n) : (o : Op n) → o.Ret → Refs n
  | .iget i, _ => { a with inodes := i ::ₘ a.inodes }
  | .idup i, _ => { a with inodes := i ::ₘ a.inodes }
  | .ifree i, _ => { a with inodes := a.inodes.erase i, dying := some i }
  | .putRef i, _ => a.dropped i
  | .filealloc, found => a.allocated found
  | .filedup f, _ => a.counted f
  | .dropFile f, kind => a.closing f kind
  | .getFile _, kind => { a with opened := FileKind.ip kind }
  | .setFile f kind, _ => a.filled f kind
  | .getFd _, found => { a with got := found, opened := none }
  | .oldFd fd, found => a.taken fd found
  | .fdalloc f, slot => a.entered f slot
  | .clearFd fd, found => a.cleared fd found
  | .getCwd, i => { a with here := some i }
  | .oldCwd, i => { a with staleCwd := true, inodes := (show Inum from i) ::ₘ a.inodes }
  | .setCwd cwd, _ => a.moved cwd
  | .newPipe, page => a.piped page
  | .closePipe p writable, last => a.closed p writable last
  | .kfree p, _ => a.freed p
  | .allocproc, slot => a.forking slot
  | .setChildFd _ fd f, _ => a.gaveFd fd f
  | .setChildCwd _ i, _ => a.gaveCwd i
  | .startChild _, _ => { a with child := none }
  | .dropChild _, _ => { a with child := none }
  | .leave, _ => idle
  | _, _ => a

def forget (a : Refs n) : Refs n :=
  { a with here := none, got := none }

/-- What an operation leaves. -/
def post (a : Refs n) (o : Op n) (answer : o.Ret) : Refs n :=
  a.forget.change o answer

/-- What the answer of an operation tells the process. -/
def fact (a : Refs n) : (o : Op n) → o.Ret → Prop
  | .getRef i, r => a.inodes.count i ≤ (show Nat from r)
  | .dropFile f, found => f ∈ a.blank → (show Option FileKind from found) = none ∨ found = some .none
  | .clearFd fd, found => ∀ f, a.own = some (fd, f) → (show Option FileNo from found) = some f
  | _, _ => True

end Refs

end Xv6.Fs
