import Xv6.Fs.State

/-!
The system calls of the file system.

Owns: the functions of `fs.c`, `file.c`, `sysfile.c`, `pipe.c`, `exec.c` and `proc.c` that
take and drop references, locks and links, as programs of operations; and the machine that
runs them.

Does not own: what holds of their runs.

Calls with arguments that cannot be fetched are left out: they touch no inode, file or process
(`mkdir`, `mknod` and `chdir` begin a transaction and end it). A result of 0 stands for any number
of bytes.
-/

namespace Xv6.Fs

open Interleave

variable {n : Nat}

/-- A program of operations on the file system. -/
abbrev M (n : Nat) := Prog (sig n)

/-- Perform one operation. -/
def perform (o : Op n) : M n o.Ret :=
  Prog.perform (S := sig n) o

def panic {α : Type} : M n α :=
  .op (.panic : Op n) nofun

/-! ## Inodes -/

def ilock (ip : Inum) : M n Unit := do
  let _ ← perform (.ilock ip)

def iunlock (ip : Inum) : M n Unit :=
  perform (.releasesleep ip)

def iput (ip : Inum) : M n Unit := do
  perform (.acquiresleep ip)
  let unlinked : Bool ← perform (.noLinks ip)
  if unlinked then
    let r : Nat ← perform (.getRef ip)
    if r = 1 then
      perform (.ifree ip)
      perform (.releasesleep ip)
      perform (.putRef ip)
    else
      perform (.releasesleep ip)
      perform (.putRef ip)
  else
    perform (.releasesleep ip)
    perform (.putRef ip)

def iunlockput (ip : Inum) : M n Unit := do
  iunlock ip
  iput ip

/-- The loop of `ialloc`. -/
def iallocFrom (type : IType) : List Inum → M n Inum
  | [] => panic
  | i :: rest => do
      let taken : Bool ← perform (.tryAlloc i type)
      if taken then
        perform (.iget i)
        return i
      else iallocFrom type rest

def ialloc (type : IType) : M n Inum :=
  iallocFrom type ((List.finRange ninodes).drop 1)

/-! ## Directories -/

def dirlookup (dp : Inum) (name : Name) : M n (Option (Inum × Nat)) := do
  let d : Inode ← perform (.getInode dp)
  if d.type = .dir then
    match d.lookup name with
    | some (i, off) =>
      perform (.iget i)
      return some (i, off)
    | none => return none
  else panic

/-- Whether the entry could be written. -/
def dirlink (dp : Inum) (name : Name) (inum : Inum) : M n Bool := do
  match ← dirlookup dp name with
  | some (ip, _) =>
    iput ip
    return false
  | none =>
    perform (.addEntry dp name inum)
    return true

/-! ## Paths -/

/-- A path, as `skipelem` takes it apart. -/
structure Path where
  absolute : Bool
  elems : List Name

/-- The loop of `namex`, from the inode the lookup has come to. With `parent` it returns the
directory and the last element. -/
def walk (parent : Bool) : Inum → List Name → M n (Option (Inum × Name))
  | ip, [] =>
    if parent then do
      iput ip
      return none
    else return some (ip, "")
  | ip, name :: rest => do
      ilock ip
      let d : Inode ← perform (.getInode ip)
      if d.type = .dir then
        if parent && rest.isEmpty then
          iunlock ip
          return some (ip, name)
        else
          match ← dirlookup ip name with
          | none =>
            iunlockput ip
            return none
          | some (next, _) =>
            iunlockput ip
            walk parent next rest
      else
        iunlockput ip
        return none

def namex (parent : Bool) (path : Path) : M n (Option (Inum × Name)) := do
  if path.absolute then
    perform (.iget rootino)
    walk parent rootino path.elems
  else
    let cwd : Inum ← perform .getCwd
    perform (.idup cwd)
    walk parent cwd path.elems

def namei (path : Path) : M n (Option (Inum × Name)) :=
  namex false path

def nameiparent (path : Path) : M n (Option (Inum × Name)) :=
  namex true path

/-! ## Files -/

def pipeclose (p : PipeNo) (writable : Bool) : M n Unit := do
  let last : Bool ← perform (.closePipe p writable)
  if last then perform (.kfree p)
  else return ()

def fileclose (f : FileNo) : M n Unit := do
  let closed : Option FileKind ← perform (.dropFile f)
  match closed with
  | none => return ()
  | some .none => return ()
  | some (.pipe p writable) => pipeclose p writable
  | some (.inode ip _ _) => do
      perform .beginOp
      iput ip
      perform .endOp

def pipealloc : M n (Option (FileNo × FileNo)) := do
  let first : Option FileNo ← perform .filealloc
  match first with
  | none => return none
  | some f0 =>
    let second : Option FileNo ← perform .filealloc
    match second with
    | none =>
      fileclose f0
      return none
    | some f1 =>
      let page : Option PipeNo ← perform .newPipe
      match page with
      | none =>
        fileclose f0
        fileclose f1
        return none
      | some p =>
        perform (.setFile f0 (.pipe p false))
        perform (.setFile f1 (.pipe p true))
        return some (f0, f1)

/-! ## System calls -/

def sysDup (fd : Fd) : M n Int := do
  let found : Option FileNo ← perform (.getFd fd)
  match found with
  | none => return -1
  | some f =>
    let copy : Option Fd ← perform (.fdalloc f)
    match copy with
    | none => return -1
    | some copy =>
      perform (.filedup f)
      return (copy.val : Int)

def sysClose (fd : Fd) : M n Int := do
  let found : Option FileNo ← perform (.oldFd fd)
  match found with
  | none => return -1
  | some f =>
    let _ ← perform (.clearFd fd)
    fileclose f
    return 0

/-- The `bad` label of `sys_link`. -/
def unlinkAgain (ip : Inum) : M n Int := do
  ilock ip
  perform (.dropLink ip)
  iunlockput ip
  perform .endOp
  return -1

def sysLink (old new : Path) : M n Int := do
  perform .beginOp
  match ← namei old with
  | none =>
    perform .endOp
    return -1
  | some (ip, _) =>
    ilock ip
    let d : Inode ← perform (.getInode ip)
    if d.type = .dir then
      iunlockput ip
      perform .endOp
      return -1
    else
      perform (.addLink ip)
      iunlock ip
      match ← nameiparent new with
      | none => unlinkAgain ip
      | some (dp, name) =>
        ilock dp
        if ← dirlink dp name ip then
          iunlockput dp
          iput ip
          perform .endOp
          return 0
        else
          iunlockput dp
          unlinkAgain ip

/-- `sys_unlink` past its checks, with both inodes locked. -/
def removeEntry (dp ip : Inum) (off : Nat) (type : IType) : M n Int := do
  perform (.clearEntry dp off)
  if type = .dir then
    perform (.dropLink dp)
    iunlockput dp
    perform (.dropLink ip)
    iunlockput ip
    perform .endOp
    return 0
  else
    iunlockput dp
    perform (.dropLink ip)
    iunlockput ip
    perform .endOp
    return 0

def sysUnlink (path : Path) : M n Int := do
  perform .beginOp
  match ← nameiparent path with
  | none =>
    perform .endOp
    return -1
  | some (dp, name) =>
    ilock dp
    if name = "." ∨ name = ".." then
      iunlockput dp
      perform .endOp
      return -1
    else
      match ← dirlookup dp name with
      | none =>
        iunlockput dp
        perform .endOp
        return -1
      | some (ip, off) =>
        ilock ip
        let d : Inode ← perform (.getInode ip)
        if d.nlink < 1 then panic
        else if d.type = .dir ∧ d.isEmpty = false then
          iunlockput ip
          iunlockput dp
          perform .endOp
          return -1
        else removeEntry dp ip off d.type

/-- `create` past its checks, with the directory and the new inode locked. -/
def fillInode (dp ip : Inum) (name : Name) (type : IType) : M n Unit := do
  perform (.initLink ip)
  if type = .dir then
    perform (.addLink dp)
    if ← dirlink ip "." ip then
      if ← dirlink ip ".." dp then
        if ← dirlink dp name ip then iunlockput dp
        else panic
      else panic
    else panic
  else
    if ← dirlink dp name ip then iunlockput dp
    else panic

/-- The inode is returned locked. -/
def create (path : Path) (type : IType) : M n (Option Inum) := do
  match ← nameiparent path with
  | none => return none
  | some (dp, name) =>
    ilock dp
    match ← dirlookup dp name with
    | some (ip, _) =>
      iunlockput dp
      ilock ip
      let d : Inode ← perform (.getInode ip)
      if type = .file ∧ d.type = .file then return some ip
      else
        iunlockput ip
        return none
    | none =>
      let ip ← ialloc type
      ilock ip
      fillInode dp ip name type
      return some ip

structure Omode where
  wronly : Bool
  rdwr : Bool
  create : Bool

/-- `sys_open` once it has the inode, locked. -/
def openInode (ip : Inum) (omode : Omode) : M n Int := do
  let allocated : Option FileNo ← perform .filealloc
  match allocated with
  | none =>
    iunlockput ip
    perform .endOp
    return -1
  | some f =>
    let slot : Option Fd ← perform (.fdalloc f)
    match slot with
    | none =>
      fileclose f
      iunlockput ip
      perform .endOp
      return -1
    | some fd =>
      iunlock ip
      perform .endOp
      perform (.setFile f (.inode ip (!omode.wronly) (omode.wronly || omode.rdwr)))
      return (fd.val : Int)

def sysOpen (path : Path) (omode : Omode) : M n Int := do
  perform .beginOp
  if omode.create then
    match ← create path .file with
    | none =>
      perform .endOp
      return -1
    | some ip => openInode ip omode
  else
    match ← namei path with
    | none =>
      perform .endOp
      return -1
    | some (ip, _) =>
      ilock ip
      let d : Inode ← perform (.getInode ip)
      if d.type = .dir ∧ (omode.wronly = true ∨ omode.rdwr = true) then
        iunlockput ip
        perform .endOp
        return -1
      else openInode ip omode

/-- `sys_mkdir` and `sys_mknod`. -/
def sysMake (path : Path) (type : IType) : M n Int := do
  perform .beginOp
  match ← create path type with
  | none =>
    perform .endOp
    return -1
  | some ip =>
    iunlockput ip
    perform .endOp
    return 0

def sysChdir (path : Path) : M n Int := do
  perform .beginOp
  match ← namei path with
  | none =>
    perform .endOp
    return -1
  | some (ip, _) =>
    ilock ip
    let d : Inode ← perform (.getInode ip)
    if d.type = .dir then
      iunlock ip
      let cwd : Inum ← perform .oldCwd
      iput cwd
      perform .endOp
      perform (.setCwd (some ip))
      return 0
    else
      iunlockput ip
      perform .endOp
      return -1

/-- `readi` or `writei` on a locked inode: the driver of a device, if there is one, gives the lock
back for a while. -/
def transfer (ip : Inum) : M n Bool := do
  let d : Inode ← perform (.getInode ip)
  let failed : Bool ← perform .choose
  if d.type = .dev ∧ failed = false then
    perform (.releasesleep ip)
    ilock ip
    let failed : Bool ← perform .choose
    return !failed
  else return !failed

/-- The reads of `exec` from the file, as long as they give what it asks for. -/
def execReads (ip : Inum) : Nat → M n Bool
  | 0 => return true
  | reads + 1 => do
      let ok ← transfer ip
      if ok then execReads ip reads
      else return false

/-- `exec` with its reads up to the last one: any of its checks on the image may fail. -/
def sysExec (path : Path) (reads : Nat) : M n Int := do
  perform .beginOp
  match ← namei path with
  | none =>
    perform .endOp
    return -1
  | some (ip, _) =>
    ilock ip
    let ok ← execReads ip reads
    iunlockput ip
    perform .endOp
    let bad : Bool ← perform .choose
    if ok && !bad then return 0
    else return -1

def sysPipe : M n Int := do
  match ← pipealloc with
  | none => return -1
  | some (rf, wf) =>
    let first : Option Fd ← perform (.fdalloc rf)
    match first with
    | none =>
      fileclose rf
      fileclose wf
      return -1
    | some fd0 =>
      let second : Option Fd ← perform (.fdalloc wf)
      match second with
      | none =>
        let _ ← perform (.clearFd fd0)
        fileclose rf
        fileclose wf
        return -1
      | some _ => return 0

/-- `fileread` of a descriptor. What passes through a pipe, and the waiting there, is left out. -/
def sysRead (fd : Fd) : M n Int := do
  let found : Option FileNo ← perform (.getFd fd)
  match found with
  | none => return -1
  | some f =>
    let kind : FileKind ← perform (.getFile f)
    match kind with
    | .inode ip true _ =>
      ilock ip
      let ok ← transfer ip
      iunlock ip
      if ok then return 0
      else return -1
    | .pipe _ false =>
      let failed : Bool ← perform .choose
      if failed then return -1
      else return 0
    | .none => panic
    | _ => return -1

/-- The loop of `filewrite`, one transaction a turn. -/
def writeChunks (ip : Inum) : Nat → M n Int
  | 0 => return 0
  | chunks + 1 => do
      perform .beginOp
      ilock ip
      let ok ← transfer ip
      iunlock ip
      perform .endOp
      if ok then writeChunks ip chunks
      else return -1

def sysWrite (fd : Fd) (chunks : Nat) : M n Int := do
  let found : Option FileNo ← perform (.getFd fd)
  match found with
  | none => return -1
  | some f =>
    let kind : FileKind ← perform (.getFile f)
    match kind with
    | .inode ip _ true => writeChunks ip chunks
    | .pipe _ true =>
      let failed : Bool ← perform .choose
      if failed then return -1
      else return 0
    | .none => panic
    | _ => return -1

/-- The loop of `fork` over the descriptors. -/
def forkFiles (child : Fin n) : List Fd → M n Unit
  | [] => return ()
  | fd :: rest => do
      let found : Option FileNo ← perform (.getFd fd)
      match found with
      | none => forkFiles child rest
      | some f =>
        perform (.filedup f)
        perform (.setChildFd child fd f)
        forkFiles child rest

def sysFork : M n Int := do
  let slot : Option (Fin n) ← perform .allocproc
  match slot with
  | none => return -1
  | some child =>
    let failed : Bool ← perform .choose
    if failed then
      perform (.dropChild child)
      return -1
    else
      forkFiles child (List.finRange nofile)
      let cwd : Inum ← perform .getCwd
      perform (.idup cwd)
      perform (.setChildCwd child cwd)
      perform (.startChild child)
      return 0

/-- The loop of `exit` over the descriptors. -/
def exitFiles : List Fd → M n Unit
  | [] => return ()
  | fd :: rest => do
      let found : Option FileNo ← perform (.oldFd fd)
      match found with
      | none => exitFiles rest
      | some f =>
        fileclose f
        let _ ← perform (.clearFd fd)
        exitFiles rest

def sysExit : M n Int := do
  exitFiles (List.finRange nofile)
  perform .beginOp
  let cwd : Inum ← perform .oldCwd
  iput cwd
  perform .endOp
  perform (.setCwd none)
  perform .leave
  return 0

/-! ## The machine -/

inductive Call where
  | dup (fd : Fd)
  | close (fd : Fd)
  | link (old new : Path)
  | unlink (path : Path)
  | open_ (path : Path) (omode : Omode)
  | mkdir (path : Path)
  | mknod (path : Path)
  | chdir (path : Path)
  | exec (path : Path) (reads : Nat)
  | pipe
  | read (fd : Fd)
  | write (fd : Fd) (chunks : Nat)
  | fork
  | exit

def body : Call → M n Int
  | .dup fd => sysDup fd
  | .close fd => sysClose fd
  | .link old new => sysLink old new
  | .unlink path => sysUnlink path
  | .open_ path omode => sysOpen path omode
  | .mkdir path => sysMake path .dir
  | .mknod path => sysMake path .dev
  | .chdir path => sysChdir path
  | .exec path reads => sysExec path reads
  | .pipe => sysPipe
  | .read fd => sysRead fd
  | .write fd chunks => sysWrite fd chunks
  | .fork => sysFork
  | .exit => sysExit

def machine (n : Nat) : Machine (sig n) where
  Shared := State n
  Thread := Fin n
  Choice := Bool
  Call := Call
  Result := Int
  exec := exec
  ready s p := decide ((s.proc p).phase = .live)
  body := body

instance : DecidableEq (machine n).Thread :=
  inferInstanceAs (DecidableEq (Fin n))

/-- The first process in the root directory of an image. -/
def boot (inode : Inum → Inode) (first : Fin n) : Config (machine n) where
  shared :=
    { inode := inode
      ref := fun i => if i = rootino then 1 else 0
      valid := fun _ => false
      lock := fun _ => none
      file := fun _ => ⟨0, .none⟩
      pipe := fun _ => ⟨false, false, 0⟩
      npipes := 0
      proc := fun p =>
        if p = first then ⟨.live, fun _ => none, some rootino⟩
        else ⟨.unused, fun _ => none, none⟩
      outstanding := 0 }
  prog _ := none

end Xv6.Fs
