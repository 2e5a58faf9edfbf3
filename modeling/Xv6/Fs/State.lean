import Xv6.Lib.Interleave
import Xv6.Lib.SlotMap

/-!
The file system as the processes share it.

Owns: inodes with their directory entries, the inode cache with its reference counts and
sleep-locks, the file table, the ends of pipes and what each process has open; and the
operations on them, each a critical section of one lock or an access under a sleep-lock.

Does not own: the system calls (`Xv6.Fs.Calls`); blocks and file contents; the log (`Xv6.Log`).

The inode cache is write-through: a change to a field and the `iupdate` that follows it are
one operation, and an inode is the same in memory and on disk whenever it is valid. A cache
entry is named by its inode. An operation that would panic is not there; the panics for want
of a cache entry are left out, and `begin_op` never waits, which only gives more runs.
-/

namespace Xv6.Fs

open Function (update)

/-- As `mkfs` makes them. -/
def ninodes : Nat := 200

def nofile : Nat := 16

def nfile : Nat := 100

abbrev Inum := Fin ninodes

/-- `ROOTINO` -/
def rootino : Inum := ⟨1, by decide⟩

/-- A path element, as `skipelem` cuts it. -/
abbrev Name := String

abbrev Fd := Fin nofile

abbrev FileNo := Fin nfile

/-- A pipe's page is named by the call of `kalloc` it came from. -/
abbrev PipeNo := Nat

/-- `type` in an inode; `free` is 0. -/
inductive IType where
  | free
  | dir
  | file
  | dev
deriving DecidableEq, Repr

structure Dirent where
  name : Name
  inum : Inum
deriving DecidableEq, Repr

structure Inode where
  type : IType
  /-- A `short`, which cannot wrap: the 941 data blocks hold 32 entries each. -/
  nlink : Int
  /-- The contents of a directory; a slot with `inum == 0` is none. -/
  entries : List (Option Dirent)
deriving DecidableEq, Repr

namespace Inode

/-- What `ialloc` leaves. -/
def blank (type : IType) : Inode :=
  ⟨type, 0, []⟩

def slots (d : Inode) : SlotMap.Slots Name Inum :=
  d.entries.map (Option.map fun e => (e.name, e.inum))

/-- The loop of `dirlookup`: the inode number and the slot. -/
def lookup (d : Inode) (name : Name) : Option (Inum × Nat) :=
  SlotMap.find name 0 d.slots

/-- The slot `dirlink` writes: the first empty one, or a new one. -/
def insert (e : Dirent) : List (Option Dirent) → List (Option Dirent)
  | [] => [some e]
  | none :: rest => some e :: rest
  | some other :: rest => some other :: insert e rest

def addEntry (d : Inode) (e : Dirent) : Inode :=
  { d with entries := insert e d.entries }

/-- A zeroed directory entry. -/
def clearEntry (d : Inode) (off : Nat) : Inode :=
  { d with entries := d.entries.set off none }

/-- `isdirempty` -/
def isEmpty (d : Inode) : Bool :=
  (d.entries.drop 2).all fun slot => slot.isNone

end Inode

/-- `type` in a file, with the fields that go with it. -/
inductive FileKind where
  | none
  | pipe (p : PipeNo) (writable : Bool)
  | inode (ip : Inum) (readable writable : Bool)
deriving DecidableEq, Repr

structure File where
  ref : Nat
  kind : FileKind
deriving DecidableEq, Repr

structure PipeEnds where
  readopen : Bool
  writeopen : Bool
  /-- How often the page has been given to `kfree`. -/
  frees : Nat
deriving DecidableEq, Repr

inductive Phase where
  | unused
  | embryo
  | live
deriving DecidableEq, Repr

structure Proc where
  phase : Phase
  ofile : Fd → Option FileNo
  cwd : Option Inum

structure State (n : Nat) where
  inode : Inum → Inode
  ref : Inum → Nat
  valid : Inum → Bool
  /-- The owner of an inode's sleep-lock. -/
  lock : Inum → Option (Fin n)
  file : FileNo → File
  pipe : PipeNo → PipeEnds
  /-- The pipes made so far. -/
  npipes : Nat
  proc : Fin n → Proc
  /-- The transactions that are going on. -/
  outstanding : Nat

variable {n : Nat}

/-! ## Operations -/

inductive Op (n : Nat) where
  | iget (i : Inum)
  | idup (i : Inum)
  | ilock (i : Inum)
  /-- `acquiresleep(&ip->lock)` in `iput`. -/
  | acquiresleep (i : Inum)
  | releasesleep (i : Inum)
  /-- `ip->valid && ip->nlink == 0` -/
  | noLinks (i : Inum)
  /-- `r = ip->ref` -/
  | getRef (i : Inum)
  /-- `itrunc`, `ip->type = 0`, `iupdate`, `ip->valid = 0` -/
  | ifree (i : Inum)
  /-- `ip->ref--` -/
  | putRef (i : Inum)
  | getInode (i : Inum)
  /-- `ip->nlink = 1` -/
  | initLink (i : Inum)
  | addLink (i : Inum)
  | dropLink (i : Inum)
  | addEntry (dp : Inum) (name : Name) (i : Inum)
  | clearEntry (dp : Inum) (off : Nat)
  /-- One turn of the loop of `ialloc`. -/
  | tryAlloc (i : Inum) (type : IType)
  | filealloc
  | filedup (f : FileNo)
  /-- The critical section of `fileclose`. -/
  | dropFile (f : FileNo)
  | getFile (f : FileNo)
  | setFile (f : FileNo) (kind : FileKind)
  | getFd (fd : Fd)
  /-- The file of a descriptor that is being closed. -/
  | oldFd (fd : Fd)
  | fdalloc (f : FileNo)
  | clearFd (fd : Fd)
  | getCwd
  /-- The current directory, to be given up. -/
  | oldCwd
  | setCwd (cwd : Option Inum)
  /-- `kalloc` and the stores to the new pipe. -/
  | newPipe
  /-- The critical section of `pipeclose`. -/
  | closePipe (p : PipeNo) (writable : Bool)
  | kfree (p : PipeNo)
  | allocproc
  | setChildFd (child : Fin n) (fd : Fd) (f : FileNo)
  | setChildCwd (child : Fin n) (i : Inum)
  | startChild (child : Fin n)
  /-- `np->state = UNUSED` -/
  | dropChild (child : Fin n)
  /-- The end of `exit`. -/
  | leave
  | beginOp
  | endOp
  /-- Anything else a call may find. -/
  | choose
  | panic

def Op.Ret : Op n → Type
  | .ilock _ => Inode
  | .noLinks _ => Bool
  | .getRef _ => Nat
  | .getInode _ => Inode
  | .tryAlloc _ _ => Bool
  | .filealloc => Option FileNo
  | .dropFile _ => Option FileKind
  | .getFile _ => FileKind
  | .getFd _ => Option FileNo
  | .oldFd _ => Option FileNo
  | .fdalloc _ => Option Fd
  | .clearFd _ => Option FileNo
  | .getCwd => Inum
  | .oldCwd => Inum
  | .newPipe => Option PipeNo
  | .closePipe _ _ => Bool
  | .allocproc => Option (Fin n)
  | .choose => Bool
  | .panic => Empty
  | _ => Unit

abbrev sig (n : Nat) : Interleave.Signature := ⟨Op n, Op.Ret⟩

namespace State

def setInode (s : State n) (i : Inum) (d : Inode) : State n :=
  { s with inode := update s.inode i d }

def setRef (s : State n) (i : Inum) (ref : Nat) : State n :=
  { s with ref := update s.ref i ref }

def setValid (s : State n) (i : Inum) (valid : Bool) : State n :=
  { s with valid := update s.valid i valid }

def setLock (s : State n) (i : Inum) (owner : Option (Fin n)) : State n :=
  { s with lock := update s.lock i owner }

def setFile (s : State n) (f : FileNo) (file : File) : State n :=
  { s with file := update s.file f file }

def setPipe (s : State n) (p : PipeNo) (ends : PipeEnds) : State n :=
  { s with pipe := update s.pipe p ends }

def setProc (s : State n) (p : Fin n) (proc : Proc) : State n :=
  { s with proc := update s.proc p proc }

/-- A process changes an inode whose lock it holds. -/
def change (s : State n) (p : Fin n) (i : Inum) (d : Inode) : Option (Unit × State n) :=
  if s.lock i = some p then some ((), s.setInode i d) else none

end State

def Proc.setFd (proc : Proc) (fd : Fd) (f : Option FileNo) : Proc :=
  { proc with ofile := update proc.ofile fd f }

/-- `ip->ref++`, in a new entry if the inode is not cached. -/
def State.iget (s : State n) (i : Inum) : State n :=
  if s.ref i = 0 then (s.setRef i 1).setValid i false else s.setRef i (s.ref i + 1)

/-- `ilock` once the sleep-lock is free, and the inode it has locked; "ilock" and "ilock: no
type" are the panics. -/
def State.ilock (s : State n) (p : Fin n) (i : Inum) : Option (Inode × State n) :=
  if s.ref i = 0 ∨ s.lock i ≠ none then none
  else if s.valid i then some (s.inode i, s.setLock i (some p))
  else if (s.inode i).type = .free then none
  else some (s.inode i, (s.setLock i (some p)).setValid i true)

/-- The critical section of `fileclose`; the file it has to close, if it was the last
reference. -/
def State.dropFile (s : State n) (f : FileNo) : Option (Option FileKind × State n) :=
  if (s.file f).ref = 0 then none
  else if (s.file f).ref = 1 then some (some (s.file f).kind, s.setFile f ⟨0, .none⟩)
  else some (none, s.setFile f { s.file f with ref := (s.file f).ref - 1 })

def State.filealloc (s : State n) : Option FileNo × State n :=
  match (List.finRange nfile).find? fun f => (s.file f).ref = 0 with
  | some f => (some f, s.setFile f { s.file f with ref := 1 })
  | none => (none, s)

def State.fdalloc (s : State n) (p : Fin n) (f : FileNo) : Option Fd × State n :=
  match (List.finRange nofile).find? fun fd => ((s.proc p).ofile fd).isNone with
  | some fd => (some fd, s.setProc p ((s.proc p).setFd fd (some f)))
  | none => (none, s)

def State.allocproc (s : State n) : Option (Fin n) × State n :=
  match (List.finRange n).find? fun q => (s.proc q).phase = .unused with
  | some q => (some q, s.setProc q { s.proc q with phase := .embryo })
  | none => (none, s)

/-- The critical section of `pipeclose`; whether the page is to be freed. -/
def State.closePipe (s : State n) (p : PipeNo) (writable : Bool) : Bool × State n :=
  let ends :=
    if writable then { s.pipe p with writeopen := false }
    else { s.pipe p with readopen := false }
  (!ends.readopen && !ends.writeopen, s.setPipe p ends)

def exec (s : State n) (p : Fin n) (choice : Bool) : (o : Op n) → Option (o.Ret × State n)
  | .iget i => some ((), s.iget i)
  | .idup i => some ((), s.setRef i (s.ref i + 1))
  | .ilock i => s.ilock p i
  | .acquiresleep i => if s.lock i = none then some ((), s.setLock i (some p)) else none
  | .releasesleep i => if s.lock i = some p then some ((), s.setLock i none) else none
  | .noLinks i => some (s.valid i && decide ((s.inode i).nlink = 0), s)
  | .getRef i => some (s.ref i, s)
  | .ifree i =>
    if s.lock i = some p then some ((), (s.setInode i (.blank .free)).setValid i false) else none
  | .putRef i => some ((), s.setRef i (s.ref i - 1))
  | .getInode i => if s.lock i = some p then some (s.inode i, s) else none
  | .initLink i => s.change p i { s.inode i with nlink := 1 }
  | .addLink i => s.change p i { s.inode i with nlink := (s.inode i).nlink + 1 }
  | .dropLink i => s.change p i { s.inode i with nlink := (s.inode i).nlink - 1 }
  | .addEntry dp name i => s.change p dp ((s.inode dp).addEntry ⟨name, i⟩)
  | .clearEntry dp off => s.change p dp ((s.inode dp).clearEntry off)
  | .tryAlloc i type =>
    if (s.inode i).type = .free then some (true, s.setInode i (.blank type)) else some (false, s)
  | .filealloc => some s.filealloc
  | .filedup f =>
    if (s.file f).ref = 0 then none
    else some ((), s.setFile f { s.file f with ref := (s.file f).ref + 1 })
  | .dropFile f => s.dropFile f
  | .getFile f => some ((s.file f).kind, s)
  | .setFile f kind => some ((), s.setFile f { s.file f with kind := kind })
  | .getFd fd => some ((s.proc p).ofile fd, s)
  | .oldFd fd => some ((s.proc p).ofile fd, s)
  | .fdalloc f => some (s.fdalloc p f)
  | .clearFd fd => some ((s.proc p).ofile fd, s.setProc p ((s.proc p).setFd fd none))
  | .getCwd => (s.proc p).cwd.map fun i => (i, s)
  | .oldCwd => (s.proc p).cwd.map fun i => (i, s)
  | .setCwd cwd => some ((), s.setProc p { s.proc p with cwd := cwd })
  | .newPipe =>
    if choice then
      some (some s.npipes, { s.setPipe s.npipes ⟨true, true, 0⟩ with npipes := s.npipes + 1 })
    else some (none, s)
  | .closePipe q writable => some (s.closePipe q writable)
  | .kfree q => some ((), s.setPipe q { s.pipe q with frees := (s.pipe q).frees + 1 })
  | .allocproc => some s.allocproc
  | .setChildFd child fd f => some ((), s.setProc child ((s.proc child).setFd fd (some f)))
  | .setChildCwd child i => some ((), s.setProc child { s.proc child with cwd := some i })
  | .startChild child => some ((), s.setProc child { s.proc child with phase := .live })
  | .dropChild child => some ((), s.setProc child { s.proc child with phase := .unused })
  | .leave => some ((), s.setProc p { s.proc p with phase := .unused })
  | .beginOp => some ((), { s with outstanding := s.outstanding + 1 })
  | .endOp => some ((), { s with outstanding := s.outstanding - 1 })
  | .choose => some (choice, s)
  | .panic => none

/-! ## What an operation can do -/

/-- The successful executions of the operations, as `exec` has them. -/
inductive Exec (s : State n) (p : Fin n) : (o : Op n) → o.Ret → State n → Prop
  | igetNew (i) (uncached : s.ref i = 0) : Exec s p (.iget i) () ((s.setRef i 1).setValid i false)
  | igetOld (i) (cached : s.ref i ≠ 0) : Exec s p (.iget i) () (s.setRef i (s.ref i + 1))
  | idup (i) : Exec s p (.idup i) () (s.setRef i (s.ref i + 1))
  | ilockValid (i) (referenced : s.ref i ≠ 0) (unlocked : s.lock i = none) (valid : s.valid i = true) :
      Exec s p (.ilock i) (s.inode i) (s.setLock i (some p))
  | ilockRead (i) (referenced : s.ref i ≠ 0) (unlocked : s.lock i = none)
      (invalid : s.valid i = false) (typed : (s.inode i).type ≠ .free) :
      Exec s p (.ilock i) (s.inode i) ((s.setLock i (some p)).setValid i true)
  | acquiresleep (i) (unlocked : s.lock i = none) :
      Exec s p (.acquiresleep i) () (s.setLock i (some p))
  | releasesleep (i) (owner : s.lock i = some p) : Exec s p (.releasesleep i) () (s.setLock i none)
  | noLinks (i) : Exec s p (.noLinks i) (s.valid i && decide ((s.inode i).nlink = 0)) s
  | getRef (i) : Exec s p (.getRef i) (s.ref i) s
  | ifree (i) (owner : s.lock i = some p) :
      Exec s p (.ifree i) () ((s.setInode i (.blank .free)).setValid i false)
  | putRef (i) : Exec s p (.putRef i) () (s.setRef i (s.ref i - 1))
  | getInode (i) (owner : s.lock i = some p) : Exec s p (.getInode i) (s.inode i) s
  | initLink (i) (owner : s.lock i = some p) :
      Exec s p (.initLink i) () (s.setInode i { s.inode i with nlink := 1 })
  | addLink (i) (owner : s.lock i = some p) :
      Exec s p (.addLink i) () (s.setInode i { s.inode i with nlink := (s.inode i).nlink + 1 })
  | dropLink (i) (owner : s.lock i = some p) :
      Exec s p (.dropLink i) () (s.setInode i { s.inode i with nlink := (s.inode i).nlink - 1 })
  | addEntry (dp name i) (owner : s.lock dp = some p) :
      Exec s p (.addEntry dp name i) () (s.setInode dp ((s.inode dp).addEntry ⟨name, i⟩))
  | clearEntry (dp off) (owner : s.lock dp = some p) :
      Exec s p (.clearEntry dp off) () (s.setInode dp ((s.inode dp).clearEntry off))
  | tryAllocFree (i type) (free : (s.inode i).type = .free) :
      Exec s p (.tryAlloc i type) true (s.setInode i (.blank type))
  | tryAllocUsed (i type) (used : (s.inode i).type ≠ .free) : Exec s p (.tryAlloc i type) false s
  | fileallocFound (f) (free : (s.file f).ref = 0) :
      Exec s p .filealloc (some f) (s.setFile f { s.file f with ref := 1 })
  | fileallocFull : Exec s p .filealloc none s
  | filedup (f) (used : (s.file f).ref ≠ 0) :
      Exec s p (.filedup f) () (s.setFile f { s.file f with ref := (s.file f).ref + 1 })
  | dropFileLast (f) (last : (s.file f).ref = 1) :
      Exec s p (.dropFile f) (some (s.file f).kind) (s.setFile f ⟨0, .none⟩)
  | dropFileMore (f) (more : 1 < (s.file f).ref) :
      Exec s p (.dropFile f) none (s.setFile f { s.file f with ref := (s.file f).ref - 1 })
  | getFile (f) : Exec s p (.getFile f) (s.file f).kind s
  | setFile (f kind) : Exec s p (.setFile f kind) () (s.setFile f { s.file f with kind := kind })
  | getFd (fd) : Exec s p (.getFd fd) ((s.proc p).ofile fd) s
  | oldFd (fd) : Exec s p (.oldFd fd) ((s.proc p).ofile fd) s
  | fdallocFound (f fd) (empty : (s.proc p).ofile fd = none) :
      Exec s p (.fdalloc f) (some fd) (s.setProc p ((s.proc p).setFd fd (some f)))
  | fdallocFull (f) : Exec s p (.fdalloc f) none s
  | clearFd (fd) :
      Exec s p (.clearFd fd) ((s.proc p).ofile fd) (s.setProc p ((s.proc p).setFd fd none))
  | getCwd (i) (cwd : (s.proc p).cwd = some i) : Exec s p .getCwd i s
  | oldCwd (i) (cwd : (s.proc p).cwd = some i) : Exec s p .oldCwd i s
  | setCwd (cwd) : Exec s p (.setCwd cwd) () (s.setProc p { s.proc p with cwd := cwd })
  | newPipeMade :
      Exec s p .newPipe (some s.npipes)
        { s.setPipe s.npipes ⟨true, true, 0⟩ with npipes := s.npipes + 1 }
  | newPipeFull : Exec s p .newPipe none s
  | closePipe (q writable) :
      Exec s p (.closePipe q writable) (s.closePipe q writable).1 (s.closePipe q writable).2
  | kfree (q) : Exec s p (.kfree q) () (s.setPipe q { s.pipe q with frees := (s.pipe q).frees + 1 })
  | allocprocFound (q) (unused : (s.proc q).phase = .unused) :
      Exec s p .allocproc (some q) (s.setProc q { s.proc q with phase := .embryo })
  | allocprocFull : Exec s p .allocproc none s
  | setChildFd (child fd f) :
      Exec s p (.setChildFd child fd f) () (s.setProc child ((s.proc child).setFd fd (some f)))
  | setChildCwd (child i) :
      Exec s p (.setChildCwd child i) () (s.setProc child { s.proc child with cwd := some i })
  | startChild (child) :
      Exec s p (.startChild child) () (s.setProc child { s.proc child with phase := .live })
  | dropChild (child) :
      Exec s p (.dropChild child) () (s.setProc child { s.proc child with phase := .unused })
  | leave : Exec s p .leave () (s.setProc p { s.proc p with phase := .unused })
  | beginOp : Exec s p .beginOp () { s with outstanding := s.outstanding + 1 }
  | endOp : Exec s p .endOp () { s with outstanding := s.outstanding - 1 }
  | choose (choice) : Exec s p .choose choice s

theorem Exec.change {s next : State n} {p : Fin n} {i : Inum} {d : Inode} {answer : Unit}
    (ran : s.change p i d = some (answer, next)) : s.lock i = some p ∧ next = s.setInode i d := by
  simp only [State.change, Option.ite_none_right_eq_some, Option.some.injEq,
    Prod.mk.injEq] at ran
  exact ⟨ran.1, ran.2.2.symm⟩

theorem Exec.of_exec {s next : State n} {p : Fin n} {choice : Bool} {o : Op n} {answer : o.Ret}
    (ran : Fs.exec s p choice o = some (answer, next)) : Exec s p o answer next := by
  cases o with
  | iget i | tryAlloc i type | newPipe | acquiresleep i | releasesleep i | ifree i | getInode i
    | filedup f =>
    simp only [Fs.exec, State.iget] at ran
    split at ran <;> cases ran <;> constructor <;> assumption
  | initLink i | addLink i | dropLink i | addEntry dp name i | clearEntry dp off =>
    obtain ⟨owner, rfl⟩ := Exec.change ran
    constructor
    exact owner
  | ilock i =>
    simp only [Fs.exec, State.ilock] at ran
    split at ran
    · cases ran
    · rename_i locks
      rw [not_or, not_not] at locks
      split at ran
      · cases ran
        exact .ilockValid i locks.1 locks.2 ‹_›
      · split at ran
        · cases ran
        · cases ran
          exact .ilockRead i locks.1 locks.2 (Bool.not_eq_true _ ▸ ‹_›) ‹_›
  | filealloc =>
    simp only [Fs.exec, State.filealloc] at ran
    split at ran
    · rename_i f found
      cases ran
      exact .fileallocFound f (by simpa using List.find?_some found)
    · cases ran
      exact .fileallocFull
  | fdalloc f =>
    simp only [Fs.exec, State.fdalloc] at ran
    split at ran
    · rename_i fd found
      cases ran
      exact .fdallocFound f fd (by simpa using List.find?_some found)
    · cases ran
      exact .fdallocFull f
  | allocproc =>
    simp only [Fs.exec, State.allocproc] at ran
    split at ran
    · rename_i q found
      cases ran
      exact .allocprocFound q (by simpa using List.find?_some found)
    · cases ran
      exact .allocprocFull
  | dropFile f =>
    simp only [Fs.exec, State.dropFile] at ran
    split at ran
    · cases ran
    · split at ran
      · cases ran
        exact .dropFileLast f ‹_›
      · cases ran
        exact .dropFileMore f (by omega)
  | getCwd | oldCwd =>
    obtain ⟨i, cwd, same⟩ := Option.map_eq_some_iff.mp ran
    cases same
    constructor
    exact cwd
  | panic => cases ran
  | _ =>
    cases ran
    constructor

end Xv6.Fs
