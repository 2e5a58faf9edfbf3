import Mathlib

/-!
System-call arguments and user memory.

Owns: `argint`, `argptr` and `argstr`; the system calls that copy to or from user memory, with
the user addresses that each of them reads or writes; and that all of these are below `sz`.

Does not own: what the calls do to files and processes.
-/

namespace Xv6.Syscall

abbrev Word := BitVec 32

def kernbase : Nat := 2 ^ 31

def maxarg : Nat := 32

variable {α β : Type}

/-- Kernel code that returns a value or -1, with the user addresses it reads and writes. -/
structure Kern (α : Type) where
  touched : List Word
  result : Option α

def Kern.fail : Kern α := ⟨[], none⟩

instance : Monad Kern where
  pure value := ⟨[], some value⟩
  bind first rest :=
    match first.result with
    | none => ⟨first.touched, none⟩
    | some value => ⟨first.touched ++ (rest value).touched, (rest value).result⟩

def touch (addr : Word) (size : Nat) : Kern Unit :=
  ⟨(List.range size).map fun i => addr + BitVec.ofNat 32 i, some ()⟩

/-! ## Arguments -/

/-- The other side of a pipe or a device: how many bytes of a transfer at a user address it lets
through, and what it returns. -/
structure Peer where
  bytes : Word → Nat
  answer : Word → Option Word

/-- What a `struct file` stands for. -/
inductive Backing where
  | none
  | pipe (peer : Peer)
  | device (peer : Peer)
  | inode (size off : Word)

structure File where
  backing : Backing
  readable : Bool
  writable : Bool

/-- The process that makes the call, with its saved `esp`. -/
structure Caller where
  mem : Word → BitVec 8
  sz : Word
  esp : Word
  ofile : Nat → Option File

def Caller.word (p : Caller) (addr : Word) : Word :=
  p.mem (addr + 3) ++ p.mem (addr + 2) ++ p.mem (addr + 1) ++ p.mem addr

def fetchint (p : Caller) (addr : Word) : Kern Word :=
  if p.sz ≤ addr ∨ p.sz < addr + 4 then .fail
  else do
    touch addr 4
    return p.word addr

/-- The loop of `fetchstr` from `s` on. -/
def scan (p : Caller) (addr s : Word) : Kern Word :=
  if below : s < p.sz then do
    touch s 1
    if p.mem s = 0 then return s - addr
    else scan p addr (s + 1)
  else .fail
termination_by p.sz.toNat - s.toNat
decreasing_by bv_omega

/-- The string at `addr` and its length. -/
def fetchstr (p : Caller) (addr : Word) : Kern (Word × Word) :=
  if p.sz ≤ addr then .fail
  else do
    let length ← scan p addr addr
    return (addr, length)

def argint (p : Caller) (n : Word) : Kern Word :=
  fetchint p (p.esp + 4 + 4 * n)

def argptr (p : Caller) (n size : Word) : Kern Word := do
  let i ← argint p n
  if size.toInt < 0 ∨ p.sz ≤ i ∨ p.sz < i + size then .fail
  else return i

def argstr (p : Caller) (n : Word) : Kern (Word × Word) := do
  let addr ← argint p n
  fetchstr p addr

def argfd (p : Caller) (n : Word) : Kern File := do
  let fd ← argint p n
  if fd.toInt < 0 ∨ 16 ≤ fd.toInt then .fail
  else
    match p.ofile fd.toNat with
    | none => .fail
    | some f => return f

/-! ## Files -/

def Peer.transfer (peer : Peer) (addr n : Word) : Kern Word := do
  touch addr (min n.toInt.toNat (peer.bytes addr))
  match peer.answer addr with
  | none => .fail
  | some answer => return answer

/-- The loop of `readi` and `writei`: a piece of each block. -/
def pieces (ptr off : Word) (left : Nat) : Kern Unit :=
  if left = 0 then pure ()
  else
    let m := min left (512 - off.toNat % 512)
    do
      touch ptr m
      pieces (ptr + BitVec.ofNat 32 m) (off + BitVec.ofNat 32 m) (left - m)
termination_by left

def readi (size off dst n : Word) : Kern Word :=
  if size < off ∨ off + n < off then .fail
  else
    let n := if size < off + n then size - off else n
    do
      pieces dst off n.toNat
      return n

def writei (size off src n : Word) : Kern Word :=
  if size < off ∨ off + n < off ∨ 140 * 512 < off + n then .fail
  else do
    pieces src off n.toNat
    return n

def fileread (f : File) (addr n : Word) : Kern Word :=
  if f.readable = false then .fail
  else
    match f.backing with
    | .pipe peer | .device peer => peer.transfer addr n
    | .inode size off => readi size off addr n
    -- `panic`
    | .none => .fail

/-- The loop of `filewrite`. -/
def writeLoop (backing : Backing) (addr : Word) (n i : Nat) : Kern Unit :=
  if i < n then
    let n1 := min (n - i) 1536
    match backing with
    | .inode size off => do
      let r ← writei size off (addr + BitVec.ofNat 32 i) (BitVec.ofNat 32 n1)
      writeLoop (.inode (if size < off + r then off + r else size) (off + r)) addr n (i + n1)
    | .device peer => do
      let _ ← peer.transfer (addr + BitVec.ofNat 32 i) (BitVec.ofNat 32 n1)
      writeLoop (.device peer) addr n (i + n1)
    | _ => .fail
  else pure ()
termination_by n - i

def filewrite (f : File) (addr n : Word) : Kern Word :=
  if f.writable = false then .fail
  else
    match f.backing with
    | .pipe peer => peer.transfer addr n
    | backing => do
      writeLoop backing addr n.toInt.toNat 0
      return n

/-- Stores to the fields of a structure, each with its offset and size. -/
def store (ptr : Word) : List (Nat × Nat) → Kern Unit
  | [] => pure ()
  | (offset, size) :: rest => do
    touch (ptr + BitVec.ofNat 32 offset) size
    store ptr rest

def filestat (f : File) (st : Word) : Kern Word :=
  match f.backing with
  | .inode _ _ | .device _ => do
    store st [(4, 4), (8, 4), (0, 2), (12, 2), (16, 4)]
    return 0
  | _ => .fail

/-! ## System calls -/

/-- The arguments of `sys_read` and `sys_write`. -/
def sysTransfer (p : Caller) (code : File → Word → Word → Kern Word) : Kern Word := do
  let f ← argfd p 0
  let n ← argint p 2
  let addr ← argptr p 1 n
  code f addr n

def sysRead (p : Caller) : Kern Word := sysTransfer p fileread

def sysWrite (p : Caller) : Kern Word := sysTransfer p filewrite

def sysFstat (p : Caller) : Kern Word := do
  let f ← argfd p 0
  let st ← argptr p 1 20
  filestat f st

/-- `sys_pipe`, which may find no free pipe, file or descriptor. -/
def sysPipe (p : Caller) (found : Bool) : Kern Word := do
  let fd ← argptr p 0 8
  if found then
    store fd [(0, 4), (4, 4)]
    return 0
  else .fail

/-- `sys_getprocinfo`, for the lengths of the names of the processes by pid. `safestrcpy` copies
the name with its NUL and stores one more, as far as there is room. -/
def sysGetprocinfo (p : Caller) (names : Word → Option Nat) : Kern Word := do
  let pid ← argint p 0
  let pi ← argptr p 1 44
  if pi = 0 then .fail
  else
    match names pid with
    | none => .fail
    | some length => do
      store pi [(0, 4), (4, min (length + 2) 16), (20, 4), (24, 4), (28, 4), (32, 4), (36, 4), (40, 4)]
      return 0

def sysGetpstats (p : Caller) (exists_ : Word → Bool) : Kern Word := do
  let pid ← argint p 0
  let ps ← argptr p 1 20
  if ps ≠ 0 ∧ exists_ pid = true then
    store ps [(0, 20)]
    return 0
  else .fail

/-- The loop of `sys_exec` from entry `i` of `argv` on. -/
def walk (p : Caller) (uargv : Word) (i : Nat) : Kern (List Word) :=
  if maxarg ≤ i then .fail
  else do
    let uarg ← fetchint p (uargv + 4 * BitVec.ofNat 32 i)
    if uarg = 0 then return []
    else
      let _ ← fetchstr p uarg
      let rest ← walk p uargv (i + 1)
      return uarg :: rest
termination_by maxarg - i

/-- `sys_exec` up to the call of `exec`. -/
def sysExec (p : Caller) : Kern (List Word) := do
  let _ ← argstr p 0
  let uargv ← argint p 1
  walk p uargv 0

inductive Call where
  | read
  | write
  | fstat
  | pipe (found : Bool)
  | getprocinfo (names : Word → Option Nat)
  | getpstats (exists_ : Word → Bool)
  | exec

def Call.touched (p : Caller) : Call → List Word
  | .read => (sysRead p).touched
  | .write => (sysWrite p).touched
  | .fstat => (sysFstat p).touched
  | .pipe found => (sysPipe p found).touched
  | .getprocinfo names => (sysGetprocinfo p names).touched
  | .getpstats exists_ => (sysGetpstats p exists_).touched
  | .exec => (sysExec p).touched

/-! ## Below `sz` -/

/-- The code reads and writes below `sz` only, and a value that it returns is good. -/
structure Within (sz : Word) (good : α → Prop) (code : Kern α) : Prop where
  touched : ∀ a ∈ code.touched, a.toNat < sz.toNat
  result : ∀ value, code.result = some value → good value

section Rules

variable {sz : Word} {good : α → Prop}

theorem Within.fail : Within sz good .fail :=
  ⟨List.forall_mem_nil _, fun _ none_ => nomatch none_⟩

theorem Within.pure {value : α} (isGood : good value) : Within sz good (pure value : Kern α) := by
  refine ⟨List.forall_mem_nil _, fun other same => ?_⟩
  cases same
  exact isGood

theorem Within.bind {middle : β → Prop} {first : Kern β} {rest : β → Kern α}
    (before : Within sz middle first) (after : ∀ value, middle value → Within sz good (rest value)) :
    Within sz good (first >>= rest) := by
  obtain ⟨touched, result⟩ := first
  cases result with
  | none => exact ⟨before.touched, fun _ none_ => nomatch none_⟩
  | some value =>
    obtain ⟨later, returns⟩ := after value (before.result value rfl)
    exact ⟨List.forall_mem_append.mpr ⟨before.touched, later⟩, returns⟩

theorem Within.mono {weaker : α → Prop} {code : Kern α} (within : Within sz good code)
    (implies : ∀ value, good value → weaker value) : Within sz weaker code :=
  ⟨within.touched, fun value returns => implies value (within.result value returns)⟩

/-- `addr + i` does not wrap below `sz`. -/
theorem touch_within {addr : Word} {size : Nat} (inside : addr.toNat + size ≤ sz.toNat) :
    Within sz (fun _ => True) (touch addr size) := by
  refine ⟨fun a member => ?_, fun _ _ => trivial⟩
  obtain ⟨i, below, rfl⟩ := List.mem_map.mp member
  have := List.mem_range.mp below
  have := sz.isLt
  rw [BitVec.toNat_add, BitVec.toNat_ofNat]
  omega

end Rules

section Arguments

variable {p : Caller} (bounded : p.sz.toNat ≤ kernbase)

theorem scan_within {addr s : Word} (start : addr.toNat ≤ s.toNat) :
    Within p.sz (fun length => addr.toNat + length.toNat < p.sz.toNat ∧ p.mem (addr + length) = 0)
      (scan p addr s) := by
  fun_induction scan p addr s with
  | case1 s below ih =>
    refine (touch_within (by bv_omega)).bind fun _ _ => ?_
    split
    · rename_i isNul
      refine .pure ⟨by bv_omega, ?_⟩
      rwa [show addr + (s - addr) = s by bv_omega]
    · exact ih (by bv_omega)
  | case2 s above => exact .fail

theorem fetchstr_within (addr : Word) :
    Within p.sz (fun string => string.1.toNat + string.2.toNat < p.sz.toNat ∧
      p.mem (string.1 + string.2) = 0) (fetchstr p addr) := by
  unfold fetchstr
  split
  · exact .fail
  · exact (scan_within (Nat.le_refl addr.toNat)).bind fun _ ends => .pure ends

include bounded

/-- Below `KERNBASE` the sums in the checks do not wrap. -/
theorem fetchint_within (addr : Word) :
    Within p.sz (fun value => addr.toNat + 4 ≤ p.sz.toNat ∧ value = p.word addr)
      (fetchint p addr) := by
  unfold kernbase at bounded
  unfold fetchint
  split
  · exact .fail
  · have fits : addr.toNat + 4 ≤ p.sz.toNat := by bv_omega
    exact (touch_within fits).bind fun _ _ => .pure ⟨fits, rfl⟩

theorem argint_within (n : Word) :
    Within p.sz (fun _ => (p.esp + 4 + 4 * n).toNat + 4 ≤ p.sz.toNat) (argint p n) :=
  (fetchint_within bounded _).mono fun _ fits => fits.1

theorem argptr_within (n size : Word) :
    Within p.sz (fun addr => 0 ≤ size.toInt ∧ addr.toNat + size.toNat ≤ p.sz.toNat)
      (argptr p n size) := by
  refine (argint_within bounded n).bind fun i _ => ?_
  unfold kernbase at bounded
  split
  · exact .fail
  · rename_i checked
    rw [not_or, not_or, Int.not_lt] at checked
    have positive : size.toInt = size.toNat := by
      rw [BitVec.toInt_eq_toNat_of_lt]
      have := BitVec.toInt_eq_toNat_cond size
      split at this <;> omega
    have small := BitVec.toInt_lt (x := size)
    exact .pure ⟨checked.1, by bv_omega⟩

theorem argstr_within (n : Word) :
    Within p.sz (fun string => string.1.toNat + string.2.toNat < p.sz.toNat ∧
      p.mem (string.1 + string.2) = 0) (argstr p n) :=
  (argint_within bounded n).bind fun addr _ => fetchstr_within addr

theorem argfd_within (n : Word) : Within p.sz (fun _ => True) (argfd p n) := by
  refine (argint_within bounded n).bind fun fd _ => ?_
  split
  · exact .fail
  · split
    · exact .fail
    · exact .pure trivial

end Arguments

theorem toInt_toNat_le (n : Word) : n.toInt.toNat ≤ n.toNat := by
  have := BitVec.toInt_eq_toNat_cond n
  split at this <;> omega

section Files

variable {sz addr n : Word} (inside : addr.toNat + n.toNat ≤ sz.toNat)

theorem pieces_within {ptr off : Word} {left : Nat} (fits : ptr.toNat + left ≤ sz.toNat) :
    Within sz (fun _ => True) (pieces ptr off left) := by
  fun_induction pieces ptr off left with
  | case1 ptr off => exact .pure trivial
  | case2 ptr off left some_ m ih =>
    refine (touch_within (by omega)).bind fun _ _ => ih ?_
    have := sz.isLt
    rw [BitVec.toNat_add, BitVec.toNat_ofNat]
    omega

include inside

theorem transfer_within (peer : Peer) : Within sz (fun _ => True) (peer.transfer addr n) := by
  have := toInt_toNat_le n
  refine (touch_within (by omega)).bind fun _ _ => ?_
  split
  · exact .fail
  · exact .pure trivial

theorem readi_within (size off : Word) : Within sz (fun _ => True) (readi size off addr n) := by
  unfold readi
  split
  · exact .fail
  · refine (pieces_within ?_).bind fun _ _ => .pure trivial
    split <;> bv_omega

theorem writei_within (size off : Word) : Within sz (fun _ => True) (writei size off addr n) := by
  unfold writei
  split
  · exact .fail
  · exact (pieces_within inside).bind fun _ _ => .pure trivial

theorem fileread_within (f : File) : Within sz (fun _ => True) (fileread f addr n) := by
  unfold fileread
  split
  · exact .fail
  · split
    · exact transfer_within inside _
    · exact transfer_within inside _
    · exact readi_within inside _ _
    · exact .fail

omit inside

theorem writeLoop_within {backing : Backing} {n i : Nat} (fits : addr.toNat + n ≤ sz.toNat) :
    Within sz (fun _ => True) (writeLoop backing addr n i) := by
  have piece {i : Nat} (more : i < n) : (addr + BitVec.ofNat 32 i).toNat +
      (BitVec.ofNat 32 (min (n - i) 1536)).toNat ≤ sz.toNat := by
    have := sz.isLt
    rw [BitVec.toNat_add, BitVec.toNat_ofNat, BitVec.toNat_ofNat]
    omega
  fun_induction writeLoop backing addr n i with
  | case1 i more n1 size off ih => exact (writei_within (piece more) _ _).bind fun r _ => ih r
  | case2 i more n1 peer ih => exact (transfer_within (piece more) peer).bind fun _ _ => ih
  | case3 => exact .fail
  | case4 => exact .pure trivial

include inside

theorem filewrite_within (f : File) : Within sz (fun _ => True) (filewrite f addr n) := by
  unfold filewrite
  split
  · exact .fail
  · split
    · exact transfer_within inside _
    · have := toInt_toNat_le n
      exact (writeLoop_within (by omega)).bind fun _ _ => .pure trivial

end Files

theorem store_within {sz ptr : Word} {fields : List (Nat × Nat)} {size : Nat}
    (inside : ptr.toNat + size ≤ sz.toNat) (layout : ∀ field ∈ fields, field.1 + field.2 ≤ size) :
    Within sz (fun _ => True) (store ptr fields) := by
  induction fields with
  | nil => exact .pure trivial
  | cons field rest ih =>
    obtain ⟨fits, later⟩ := List.forall_mem_cons.mp layout
    refine (touch_within ?_).bind fun _ _ => ih later
    have := sz.isLt
    rw [BitVec.toNat_add, BitVec.toNat_ofNat]
    omega

/-- The walk ends at a null word among the first `MAXARG` entries, or fails. -/
theorem walk_within {p : Caller} (bounded : p.sz.toNat ≤ kernbase) (uargv : Word) (i : Nat) :
    Within p.sz (fun args => i + args.length < maxarg ∧
      p.word (uargv + 4 * BitVec.ofNat 32 (i + args.length)) = 0) (walk p uargv i) := by
  fun_induction walk p uargv i with
  | case1 i full => exact .fail
  | case2 i room ih =>
    refine (fetchint_within bounded _).bind fun uarg fetched => ?_
    split
    · rename_i isNull
      exact .pure ⟨Nat.not_le.mp room, fetched.2.symm.trans isNull⟩
    · refine (fetchstr_within uarg).bind fun _ _ => ih.bind fun rest ends => .pure ?_
      rwa [List.length_cons, Nat.add_comm rest.length, ← Nat.add_assoc]

theorem Call.within {p : Caller} (bounded : p.sz.toNat ≤ kernbase) (call : Call) :
    ∀ a ∈ call.touched p, a.toNat < p.sz.toNat := by
  have stores {n size : Word} {code : Word → Kern Word}
      (after : ∀ ptr, ptr.toNat + size.toNat ≤ p.sz.toNat → Within p.sz (fun _ => True) (code ptr)) :
      Within p.sz (fun _ => True) (argptr p n size >>= code) :=
    (argptr_within bounded n size).bind fun ptr checked => after ptr checked.2
  have file {code : File → Kern Word} (after : ∀ f, Within p.sz (fun _ => True) (code f)) :
      Within p.sz (fun _ => True) (argfd p 0 >>= code) :=
    (argfd_within bounded 0).bind fun f _ => after f
  have transfers {code : File → Word → Word → Kern Word}
      (after : ∀ f addr n, addr.toNat + n.toNat ≤ p.sz.toNat →
        Within p.sz (fun _ => True) (code f addr n)) :
      Within p.sz (fun _ => True) (sysTransfer p code) :=
    file fun f => (argint_within bounded 2).bind fun n _ => stores fun addr => after f addr n
  cases call with
  | read => exact (transfers fun f _ _ fits => fileread_within fits f).touched
  | write => exact (transfers fun f _ _ fits => filewrite_within fits f).touched
  | fstat =>
    refine (file fun f => stores fun st fits => ?_).touched
    unfold filestat
    split
    · exact (store_within fits (by decide)).bind fun _ _ => .pure trivial
    · exact (store_within fits (by decide)).bind fun _ _ => .pure trivial
    · exact .fail
  | pipe found =>
    refine (stores fun fd fits => ?_).touched
    split
    · exact (store_within fits (by decide)).bind fun _ _ => .pure trivial
    · exact .fail
  | getprocinfo names =>
    refine ((argint_within bounded 0).bind fun pid _ => stores fun pi fits => ?_).touched
    split
    · exact .fail
    · split
      · exact .fail
      · refine (store_within fits ?_).bind fun _ _ => .pure trivial
        simp
        omega
  | getpstats exists_ =>
    refine ((argint_within bounded 0).bind fun pid _ => stores fun ps fits => ?_).touched
    split
    · exact (store_within fits (by decide)).bind fun _ _ => .pure trivial
    · exact .fail
  | exec =>
    exact ((argstr_within bounded 0).bind fun _ _ => (argint_within bounded 1).bind fun uargv _ =>
      (walk_within bounded uargv 0).mono fun _ _ => trivial).touched

/-- For a process with `sz` up to `KERNBASE` the bytes that `argint`, `argptr` and `argstr` accept
are below `sz`, counted without wrapping, so are all user bytes that the system calls read or
write, and the walk of `sys_exec` ends within `MAXARG` entries. -/
theorem syscalls_below_sz (p : Caller) (bounded : p.sz.toNat ≤ kernbase) :
    (∀ n value, (argint p n).result = some value →
      (p.esp + 4 + 4 * n).toNat + 4 ≤ p.sz.toNat) ∧
    (∀ n size addr, (argptr p n size).result = some addr →
      0 ≤ size.toInt ∧ addr.toNat + size.toNat ≤ p.sz.toNat) ∧
    (∀ n addr length, (argstr p n).result = some (addr, length) →
      addr.toNat + length.toNat < p.sz.toNat ∧ p.mem (addr + length) = 0) ∧
    (∀ call : Call, ∀ a ∈ call.touched p, a.toNat < p.sz.toNat) ∧
    ∀ uargv args, (walk p uargv 0).result = some args →
      args.length < maxarg ∧ p.word (uargv + 4 * BitVec.ofNat 32 args.length) = 0 := by
  refine ⟨fun n => (argint_within bounded n).result, fun n size => (argptr_within bounded n size).result,
    fun n addr length => (argstr_within bounded n).result (addr, length), Call.within bounded, ?_⟩
  intro uargv args walked
  have ends := (walk_within bounded uargv 0).result args walked
  rwa [Nat.zero_add] at ends

/-- One page, with the stack pointer near its end. -/
theorem syscalls_below_onePage :
    (argint ⟨fun _ => 0, 4096, 4088, fun _ => none⟩ 0).result = some 0 ∧
      ((4088 : BitVec 32) + 4 + 4 * 0).toNat + 4 ≤ (4096 : BitVec 32).toNat := by
  have read : (argint ⟨fun _ => 0, 4096, 4088, fun _ => none⟩ 0).result = some 0 := by decide
  have within := (syscalls_below_sz ⟨fun _ => 0, 4096, 4088, fun _ => none⟩ (by decide)).1 0 0 read
  exact ⟨read, within⟩

end Xv6.Syscall
