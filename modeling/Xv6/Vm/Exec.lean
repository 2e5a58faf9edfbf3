import Xv6.Vm.Elf

/-!
The system call `exec`.

Owns: `exec`, with all its exits; that a failed call leaves the process and the machine as they
were; the image that a successful call builds; and which arguments make it look for a stack that
has no page table.

Does not own: path lookup (`Xv6.Fs`), which here answers with an inode or with none; the log, of
which only the calls of `begin_op` and `end_op` are counted.
-/

namespace Xv6.Vm

variable {Page : Type}

def maxarg : Nat := 32

structure Proc (Page : Type) extends Space Page where
  eip : Nat
  esp : Nat
  name : List UInt8
  ofile : Nat → Option Nat

/-- What the process holds of the file system. -/
structure Held where
  /-- Calls of `begin_op` that no `end_op` has answered. -/
  ops : Nat
  /-- References to the inode of the program. -/
  refs : Nat
  /-- Its lock. -/
  locked : Bool

structure World (Page : Type) where
  mem : Mem Page
  proc : Proc Page
  held : Held

/-- A panic, a read through a null pointer, or a return. -/
inductive Outcome (Page : Type) where
  | panic
  | fault
  | ret (r : Int) (w : World Page)

namespace Held

def beginOp (h : Held) : Held :=
  { h with ops := h.ops + 1 }

def endOp (h : Held) : Option Held :=
  if h.ops = 0 then none else some { h with ops := h.ops - 1 }

/-- `namei` has found the inode, and `ilock` has locked it. -/
def ilock (h : Held) : Held :=
  { h with refs := h.refs + 1, locked := true }

/-- The lock and the reference go back, in a transaction. -/
def iunlockput (h : Held) : Option Held :=
  if h.locked = false ∨ h.refs = 0 ∨ h.ops = 0 then none
  else some { h with refs := h.refs - 1, locked := false }

end Held

/-- The label `bad`: `inode` says whether `ip` is still set. -/
def bad (pgdir : Option (PageDir Page)) (m : Mem Page) (inode : Bool) (w : World Page) :
    Outcome Page :=
  match pgdir.elim (some m) fun d => d.freevm m with
  | none => .panic
  | some m =>
    if inode then
      match w.held.iunlockput.bind Held.endOp with
      | none => .panic
      | some held => .ret (-1) { w with mem := m, held := held }
    else .ret (-1) { w with mem := m }

/-- A word as bytes, the lowest first. -/
def wordBytes (x : Nat) : List UInt8 :=
  (List.range 4).map (Bytes.byte x)

/-- The return address, `argc`, `argv` and the pointers to the arguments, which end with 0. -/
def argWords (sp : Nat) (ustack : List Nat) : List Nat :=
  [0xffffffff, ustack.length, uint (sp - (ustack.length + 1) * 4)] ++ ustack ++ [0]

/-- How the loop over the arguments ends. -/
inductive Pushed (Page : Type) where
  | fault
  | bad (d : PageDir Page)
  | ok (sp : Nat) (ustack : List Nat) (d : PageDir Page)

/-- The loop over the arguments, with those pushed so far. -/
def pushArgs : List (List UInt8) → Nat → List Nat → PageDir Page → Pushed Page
  | [], sp, ustack, d => .ok sp ustack d
  | arg :: rest, sp, ustack, d =>
    if maxarg ≤ ustack.length then .bad d
    else
      let sp := uint (sp - (arg.length + 1)) / 4 * 4
      match d.copyout sp (arg ++ [0]) with
      | .fault => .fault
      | .failed d => .bad d
      | .ok d => pushArgs rest sp (ustack ++ [sp]) d

/-- The name of the program: what follows the last slash. -/
def lastName (path : List UInt8) : List UInt8 :=
  path.foldl (fun last c => if c = 47 then [] else last ++ [c]) []

/-- The end of `exec`: the vector of arguments is copied, and the process gets its image. -/
def commit (entry : Nat) (path : List UInt8) (sz sp : Nat) (ustack : List Nat) (d : PageDir Page)
    (m : Mem Page) (w : World Page) : Outcome Page :=
  let vector := argWords sp ustack
  let sp := uint (sp - (3 + ustack.length + 1) * 4)
  match d.copyout sp (vector.flatMap wordBytes) with
  | .fault => .fault
  | .failed d => bad (some d) m false w
  | .ok d =>
    match w.proc.pgdir.freevm m with
    | none => .panic
    | some m =>
      .ret 0
        { w with
          mem := m
          proc :=
            { w.proc with
              pgdir := d, sz := sz, eip := entry, esp := sp, name := (lastName path).take 15 } }

/-- `exec` from the arguments on. -/
def pushArguments (entry : Nat) (path : List UInt8) (argv : List (List UInt8)) (sz : Nat)
    (d : PageDir Page) (m : Mem Page) (w : World Page) : Outcome Page :=
  match pushArgs argv sz [] d with
  | .fault => .fault
  | .bad d => bad (some d) m false w
  | .ok sp ustack d => commit entry path sz sp ustack d m w

/-- `exec` from the allocation of the stack on. -/
def pushStack (entry : Nat) (path : List UInt8) (argv : List (List UInt8)) (sz : Nat)
    (d : PageDir Page) (m : Mem Page) (w : World Page) : Outcome Page :=
  match d.allocuvm sz ((sz + 2 * pgsize) % 2 ^ 32) m with
  | none => .panic
  | some (sz, d, m) =>
    if sz = 0 then bad (some d) m false w
    else
      match d.clearpteu ((sz - 2 * pgsize) / pgsize) with
      | none => .panic
      | some d => pushArguments entry path argv sz d m w

/-- `exec` with the inode locked. -/
def load (k : KernelMap) (path : List UInt8) (ip : Inode) (argv : List (List UInt8))
    (w : World Page) : Outcome Page :=
  match ip.readi 0 elfhdrSize with
  | (none, _) => bad none w.mem true w
  | (some bytes, ip) =>
    if bytes.length ≠ elfhdrSize then bad none w.mem true w
    else if (elfhdr bytes).magic ≠ elfMagic then bad none w.mem true w
    else
      match setupkvm k w.mem with
      | none => .panic
      | some (none, m) => bad none m true w
      | some (some d, m) =>
        match loadSegments (elfhdr bytes).phnum (elfhdr bytes).phoff 0 d ip m with
        | none => .panic
        | some (.bad d m) => bad (some d) m true w
        | some (.ok sz d _ m) =>
          match w.held.iunlockput.bind Held.endOp with
          | none => .panic
          | some held =>
            pushStack (elfhdr bytes).entry path argv (pgroundup sz) d m
              { w with held := held }

/-- `found` is what `namei` answers for the path. -/
def exec (k : KernelMap) (path : List UInt8) (found : Option Inode) (argv : List (List UInt8))
    (w : World Page) : Outcome Page :=
  let w := { w with held := w.held.beginOp }
  match found with
  | none =>
    match w.held.endOp with
    | none => .panic
    | some held => .ret (-1) { w with held := held }
  | some ip => load k path ip argv { w with held := w.held.ilock }

/-! ## Failed calls -/

/-- The process, the free pages and what is held of the file system are as before. -/
structure Unchanged (before after : World Page) : Prop where
  proc : after.proc = before.proc
  pool : after.mem.pool = before.mem.pool
  held : after.held = before.held

/-- A call that fails leaves everything as it was, and none ends in a panic. -/
structure Clean (before : World Page) (outcome : Outcome Page) : Prop where
  noPanic : outcome ≠ .panic
  unchanged : ∀ after, outcome = .ret (-1) after → Unchanged before after

theorem Clean.fault (before : World Page) : Clean before .fault :=
  ⟨(fun h => nomatch h), (fun _ h => nomatch h)⟩

theorem Clean.failed {before after : World Page} (unchanged : Unchanged before after) :
    Clean before (.ret (-1) after) := by
  refine ⟨(fun h => nomatch h), ?_⟩
  rintro _ ⟨⟩
  exact unchanged

theorem Clean.succeeded (before after : World Page) : Clean before (.ret 0 after) :=
  ⟨(fun h => nomatch h), (fun _ h => nomatch h)⟩

theorem Held.endOp_beginOp (h : Held) : h.beginOp.endOp = some h :=
  if_neg (Nat.succ_ne_zero h.ops)

theorem Held.release {h : Held} (unlocked : h.locked = false) :
    h.beginOp.ilock.iunlockput.bind Held.endOp = some h := by
  obtain ⟨ops, refs, locked⟩ := h
  cases unlocked
  rfl

variable {before w : World Page} {m : Mem Page} {d : PageDir Page}

/-- At the label `bad`, with the inode released. -/
theorem bad_released (wf : d.Wf) (kept : m.pool + d.pages = before.mem.pool)
    (proc : w.proc = before.proc) (held : w.held = before.held) :
    ∃ after, bad (some d) m false w = .ret (-1) after ∧ Unchanged before after := by
  obtain ⟨m', freed, pool⟩ := PageDir.freevm_spec wf m
  refine ⟨{ w with mem := m' }, ?_, proc, pool.trans kept, held⟩
  simp only [bad, Option.elim_some, freed]
  rfl

/-- At the label `bad`, with the inode locked. -/
theorem bad_locked (pgdir : Option (PageDir Page)) (unlocked : before.held.locked = false)
    (wf : ∀ d, pgdir = some d → d.Wf)
    (kept : m.pool + pgdir.elim 0 PageDir.pages = before.mem.pool)
    (proc : w.proc = before.proc) (held : w.held = before.held.beginOp.ilock) :
    ∃ after, bad pgdir m true w = .ret (-1) after ∧ Unchanged before after := by
  have freed : ∃ m', (pgdir.elim (some m) fun d => d.freevm m) = some m' ∧
      m'.pool = before.mem.pool := by
    cases pgdir with
    | none => exact ⟨m, rfl, (add_zero _).symm.trans kept⟩
    | some d =>
      obtain ⟨m', freed, pool⟩ := PageDir.freevm_spec (wf d rfl) m
      exact ⟨m', freed, pool.trans kept⟩
  obtain ⟨m', freed, pool⟩ := freed
  refine ⟨{ w with mem := m', held := before.held }, ?_, proc, pool, rfl⟩
  simp only [bad, freed, held, Held.release unlocked]
  rfl

variable {entry sz : Nat} {path : List UInt8} {ustack : List Nat}

theorem commit_clean {sp : Nat} (wf : d.Wf) (old : before.proc.pgdir.Wf)
    (kept : m.pool + d.pages = before.mem.pool) (proc : w.proc = before.proc)
    (held : w.held = before.held) : Clean before (commit entry path sz sp ustack d m w) := by
  unfold commit
  dsimp only
  generalize uint (sp - (3 + ustack.length + 1) * 4) = va
  generalize List.flatMap wordBytes _ = bytes
  rcases PageDir.copyout_rewritten d va bytes with fault | ⟨d', same, failed | copied⟩
  · rw [fault]
    exact Clean.fault before
  · obtain ⟨after, failed', left⟩ :=
      bad_released (same.wf wf) (by rw [same.pages]; exact kept) proc held
    rw [failed]
    dsimp only
    rw [failed']
    exact Clean.failed left
  · obtain ⟨m', freed, _⟩ := PageDir.freevm_spec old m
    rw [copied]
    simp only [proc, freed]
    exact Clean.succeeded _ _

theorem pushArgs_rewritten (args : List (List UInt8)) (sp : Nat) (ustack : List Nat)
    (d : PageDir Page) :
    pushArgs args sp ustack d = .fault ∨ ∃ d', d.Rewritten d' ∧
      (pushArgs args sp ustack d = .bad d' ∨ ∃ sp' ustack', pushArgs args sp ustack d = .ok sp' ustack' d') := by
  induction args generalizing sp ustack d with
  | nil => exact .inr ⟨d, PageDir.Rewritten.refl d, .inr ⟨sp, ustack, rfl⟩⟩
  | cons arg rest ih =>
    rw [pushArgs]
    split
    · exact .inr ⟨d, PageDir.Rewritten.refl d, .inl rfl⟩
    · dsimp only
      rcases PageDir.copyout_rewritten d (uint (sp - (arg.length + 1)) / 4 * 4) (arg ++ [0]) with
        fault | ⟨d', same, failed | copied⟩
      · rw [fault]
        exact .inl rfl
      · rw [failed]
        exact .inr ⟨d', same, .inl rfl⟩
      · rw [copied]
        dsimp only
        rcases ih (uint (sp - (arg.length + 1)) / 4 * 4) _ d' with
          fault | ⟨d'', same', result⟩
        · exact .inl fault
        · exact .inr ⟨d'', same.trans same', result⟩

/-! ## The stack -/

/-- A loaded address space of `n` pages, of which the last but one is not the user's. -/
structure Stacked (d : PageDir Page) (n : Nat) : Prop where
  wf : d.Wf
  two : 2 ≤ n
  user : n ≤ kernpage
  access : ∀ v, v < n → v ≠ n - 2 → d.uva2ka v = .ok
  guardPage : ∃ page w data, d.pte (n - 2) = some (.user page w false data)
  kernel : ∀ i, 512 ≤ i → ((d.table i).isSome = true ↔ kernelTable i)

variable {n : Nat}

theorem Stacked.rewritten {d' : PageDir Page} (stacked : Stacked d n) (same : d.Rewritten d') :
    Stacked d' n where
  wf := same.wf stacked.wf
  two := stacked.two
  user := stacked.user
  access := by
    intro v inside different
    rw [same.uva2ka]
    exact stacked.access v inside different
  guardPage := by
    obtain ⟨page, w, data, entry⟩ := stacked.guardPage
    rcases same.cases (n - 2) with ⟨none_, _⟩ | ⟨_, _, kernel, _⟩ | ⟨page', w', u', _, data', old, new⟩
    · rw [entry] at none_
      cases none_
    · rw [entry] at kernel
      cases kernel
    · rw [entry] at old
      cases old
      exact ⟨page, w, data', new⟩
  kernel := by
    rw [same.table]
    exact stacked.kernel

theorem Stacked.guard (stacked : Stacked d n) : d.uva2ka (n - 2) = .denied := by
  obtain ⟨page, w, data, entry⟩ := stacked.guardPage
  unfold PageDir.uva2ka
  rw [entry]
  cases there : d.table ((n - 2) / nptentries) with
  | none =>
    rw [stacked.wf.table _ there] at entry
    cases entry
  | some table => rfl

/-- Clearing the guard page. -/
theorem Stacked.of_loading (loading : Loading d (n * pgsize)) (two : 2 ≤ n) :
    ∃ d', d.clearpteu (n - 2) = some d' ∧ Stacked d' n ∧ d'.pages = d.pages ∧
      ∀ a, d'.byteAt a = d.byteAt a := by
  have pages : npages (n * pgsize) = n := by
    unfold npages pgsize
    omega
  have user : n ≤ kernpage := by
    rw [← pages]
    exact PageDir.npages_le_kernpage loading.user
  have bound : n ≤ 524288 := user
  obtain ⟨page, w, data, entry⟩ :=
    PageDir.uva2ka_eq_ok (loading.access (n - 2) (by rw [pages]; omega))
  have table : d.table ((n - 2) / nptentries) ≠ none := by
    intro absent
    rw [loading.wf.table _ absent] at entry
    cases entry
  have wf : (d.setPte (n - 2) (some (.user page w false data))).Wf :=
    loading.wf.setPte table (show n - 2 < kernpage from lt_of_lt_of_le (by omega) user)
  refine ⟨_, PageDir.clearpteu_eq loading.wf entry, ⟨wf, two, user, ?_, ?_, loading.kernel⟩,
    PageDir.pages_guard (lt_of_lt_of_le (show n - 2 < 1048576 by omega) le_rfl) entry,
    PageDir.byteAt_guard entry⟩
  · intro v inside different
    obtain ⟨page', w', data', entry'⟩ :=
      PageDir.uva2ka_eq_ok (loading.access v (by rw [pages]; exact inside))
    have others : (d.setPte (n - 2) (some (.user page w false data))).pte v =
        some (.user page' w' true data') :=
      (Function.update_of_ne different _ _).trans entry'
    exact PageDir.uva2ka_ok wf others
  · exact ⟨page, w, data, Function.update_self _ _ _⟩

theorem Loading.pgroundup (loading : Loading d sz) : Loading d (pgroundup sz) := by
  have same : npages (Vm.pgroundup sz) = npages sz := by
    unfold Vm.pgroundup npages pgsize
    omega
  refine ⟨loading.wf, ?_, ?_, ?_, loading.kernel⟩
  · intro v user
    rw [same]
    exact loading.sized v user
  · have bound := loading.user
    unfold Vm.pgroundup npages pgsize kernbase at *
    omega
  · rw [same]
    exact loading.access

theorem Loading.stackTop (loading : Loading d sz) :
    (Vm.pgroundup sz + 2 * pgsize) % 2 ^ 32 = (npages sz + 2) * pgsize := by
  have bound := loading.pgroundup.user
  unfold Vm.pgroundup pgsize kernbase at *
  omega

/-- What the allocation of the stack can do. -/
theorem stack_cases (loading : Loading d sz) (m : Mem Page) :
    (∃ d' m', d.allocuvm (pgroundup sz) ((npages sz + 2) * pgsize) m = some (0, d', m') ∧
      d'.Wf ∧ m'.pool + d'.pages = m.pool + d.pages) ∨
    ∃ d₁ d' m', d.allocuvm (pgroundup sz) ((npages sz + 2) * pgsize) m =
        some ((npages sz + 2) * pgsize, d₁, m') ∧
      d₁.clearpteu (npages sz) = some d' ∧ Stacked d' (npages sz + 2) ∧
      m'.pool + d'.pages = m.pool + d.pages ∧
      ∀ a, a / pgsize < npages sz → d'.byteAt a = d.byteAt a := by
  have rounded := loading.pgroundup
  have larger : max (pgroundup sz) ((npages sz + 2) * pgsize) = (npages sz + 2) * pgsize := by
    rw [max_eq_right]
    unfold pgroundup
    exact Nat.mul_le_mul_right _ (by omega)
  rcases allocuvm_loading rounded ((npages sz + 2) * pgsize) m with
    ⟨d', m', failed, wf, kept⟩ | ⟨d₁, m', grown, loading₁, kept, bytes⟩
  · exact .inl ⟨d', m', failed, wf, kept⟩
  · rw [larger] at grown loading₁ bytes
    obtain ⟨d', cleared, stacked, pages, same⟩ := Stacked.of_loading loading₁ (by omega)
    refine .inr ⟨d₁, d', m', grown, cleared, stacked, by rw [pages]; exact kept, ?_⟩
    intro a inside
    have pages₁ : npages ((npages sz + 2) * pgsize) = npages sz + 2 := by
      unfold npages pgsize
      omega
    have pages₂ : npages (pgroundup sz) = npages sz := by
      unfold pgroundup npages pgsize
      omega
    rw [same, bytes a (by rw [pages₁]; omega), pages₂, if_pos inside]

/-! ## A small program, and a process that runs it -/

/-- An ELF file with one segment: four bytes of code, loaded at 0 and followed by four zeros. -/
def tinyProgram : List UInt8 :=
  [0x7F, 0x45, 0x4C, 0x46] ++ List.replicate 24 0 ++ [52, 0, 0, 0] ++ List.replicate 12 0 ++ [1, 0] ++
    List.replicate 6 0 ++
    [1, 0, 0, 0, 84, 0, 0, 0] ++ List.replicate 8 0 ++ [4, 0, 0, 0, 8, 0, 0, 0] ++
    List.replicate 8 0 ++
    [0xEB, 0xFE, 0x90, 0x90]

theorem tinyProgram_small : tinyProgram.length < 2 ^ 32 := by decide

/-- A process of `n` pages, with 79 free pages left for others. -/
def caller (n : Nat) : World Nat where
  mem := ⟨List.range 79, []⟩
  proc :=
    { pgdir :=
        { page := 100
          table := fun i => if i * nptentries < n then some (101 + i) else none
          pte := fun v => if v < n then some (.user (10000 + v) true true fun _ => 0) else none }
      sz := n * pgsize
      eip := 0
      esp := 0
      name := []
      ofile := fun _ => none }
  held := ⟨0, 0, false⟩

theorem caller_wf (user : n ≤ kernpage) : (caller n).proc.pgdir.Wf := by
  have entry (v : Nat) : (caller n).proc.pgdir.pte v =
      if v < n then some (.user (10000 + v) true true fun _ => 0) else none := rfl
  refine ⟨?_, ?_, ?_⟩
  · intro v absent
    have past : ¬v / nptentries * nptentries < n := by
      intro inside
      rw [show (caller n).proc.pgdir.table (v / nptentries) = some (101 + v / nptentries) from
        if_pos inside] at absent
      cases absent
    rw [entry, if_neg]
    have low := Nat.div_mul_le_self v nptentries
    omega
  · intro v pa w isKernel
    rw [entry] at isKernel
    split at isKernel
    · cases isKernel
    · cases isKernel
  · intro v page w u data isUser
    rw [entry] at isUser
    split at isUser
    · omega
    · cases isUser

/-- A kernel with its data eight pages after the start of its text. -/
def someKernel : KernelMap where
  data := 264
  afterText := by decide
  inMemory := by decide

/-! ## The arguments -/

/-- The bytes of the stack that are used when one more argument is pushed. -/
def pushed (used : Nat) (arg : List UInt8) : Nat :=
  (used + arg.length + 4) / 4 * 4

/-- The bytes that all arguments take. -/
def argBytes (argv : List (List UInt8)) : Nat :=
  argv.foldl pushed 0

/-- The first argument that does not fit into the stack's page takes the stack pointer below 0
and around, to between the kernel's memory and its devices. -/
def Lost (sz : Nat) : Nat → List (List UInt8) → Prop
  | _, [] => False
  | used, arg :: rest =>
    if pushed used arg ≤ pgsize then Lost sz (pushed used arg) rest
    else
      sz + (2 ^ 32 - devspace) < pushed used arg ∧
        pushed used arg ≤ sz + (2 ^ 32 - (kernbase + phystop))

variable {used : Nat} {arg : List UInt8}

/-- Where the stack pointer goes. -/
theorem sp_pushed (two : 2 ≤ n) (user : n ≤ kernpage) (aligned : used % 4 = 0)
    (inPage : used ≤ pgsize) (length : arg.length < kernbase) :
    uint ((n * pgsize - used : Nat) - (arg.length + 1)) / 4 * 4 =
      if pushed used arg ≤ n * pgsize then n * pgsize - pushed used arg
      else 2 ^ 32 + n * pgsize - pushed used arg := by
  have bound : n ≤ 524288 := user
  unfold uint pushed pgsize kernbase at *
  split <;> omega

theorem le_foldl_pushed (used : Nat) (argv : List (List UInt8)) : used ≤ argv.foldl pushed used := by
  induction argv generalizing used with
  | nil => exact le_rfl
  | cons arg rest ih =>
    apply le_trans _ (ih (pushed used arg))
    unfold pushed
    omega

/-- Above the user's memory no page is the user's, and only the kernel's tables are there. -/
theorem Stacked.uva2ka_kernel {v : Nat} (stacked : Stacked d n) (kernel : kernpage ≤ v) :
    d.uva2ka v = if kernelTable (v / nptentries) then .denied else .fault := by
  have high : 512 ≤ v / nptentries := by
    have low : 524288 ≤ v := kernel
    unfold nptentries
    omega
  have tables := stacked.kernel _ high
  have denied : d.uva2ka v ≠ .ok := by
    intro isOk
    obtain ⟨page, w, data, entry⟩ := PageDir.uva2ka_eq_ok isOk
    exact absurd (stacked.wf.kernel v page w true data entry) (Nat.not_lt.mpr kernel)
  split
  · rename_i there
    cases reach : d.uva2ka v with
    | fault =>
      rw [PageDir.uva2ka_eq_fault] at reach
      rw [← tables, reach] at there
      cases there
    | denied => rfl
    | ok => exact absurd reach denied
  · rename_i absent
    rw [PageDir.uva2ka_eq_fault]
    rw [← tables, Bool.not_eq_true, Option.isSome_eq_false_iff, Option.isNone_iff_eq_none] at absent
    exact absent

/-- An argument that fits into the stack's page is copied there. -/
theorem copyout_fits (stacked : Stacked d n) (fits : pushed used arg ≤ pgsize) :
    d.copyout (n * pgsize - pushed used arg) (arg ++ [0]) =
      .ok (d.store (n - 1) (pgsize - pushed used arg) (arg ++ [0])) := by
  have two := stacked.two
  have length : (arg ++ [0]).length = arg.length + 1 := List.length_append
  have room : arg.length + 1 ≤ pushed used arg := by
    unfold pushed
    omega
  have page : (n * pgsize - pushed used arg) / pgsize = n - 1 := by
    unfold pgsize at *
    omega
  have offset : (n * pgsize - pushed used arg) % pgsize = pgsize - pushed used arg := by
    unfold pgsize at *
    omega
  have inPage : (n * pgsize - pushed used arg) % pgsize + (arg ++ [0]).length ≤ pgsize := by
    rw [offset, length]
    omega
  have reach : d.uva2ka ((n * pgsize - pushed used arg) / pgsize) = .ok := by
    rw [page]
    exact stacked.access (n - 1) (by omega) (by omega)
  rw [PageDir.copyout_inPage (List.append_ne_nil_of_right_ne_nil _ (List.cons_ne_nil _ _)) inPage
    reach, page, offset]

/-- An argument that does not fit is not copied. -/
theorem copyout_tooLong (stacked : Stacked d n) (aligned : used % 4 = 0) (inPage : used ≤ pgsize)
    (length : arg.length < kernbase) (tooLong : pgsize < pushed used arg) :
    if n * pgsize + (2 ^ 32 - devspace) < pushed used arg ∧
        pushed used arg ≤ n * pgsize + (2 ^ 32 - (kernbase + phystop)) then
      d.copyout (uint ((n * pgsize - used : Nat) - (arg.length + 1)) / 4 * 4) (arg ++ [0]) = .fault
    else ∃ d',
      d.copyout (uint ((n * pgsize - used : Nat) - (arg.length + 1)) / 4 * 4) (arg ++ [0]) =
        .failed d' := by
  have two := stacked.two
  have bound : n ≤ 524288 := stacked.user
  have size : (arg ++ [0]).length = arg.length + 1 := List.length_append
  rw [sp_pushed two stacked.user aligned inPage length]
  by_cases below : pushed used arg ≤ n * pgsize
  · -- the bytes run through the guard page
    rw [if_pos below, if_neg (by unfold devspace; omega)]
    apply PageDir.copyout_blocked (by simp) (w := n - 2)
    · unfold pgsize at *
      omega
    · rw [size]
      unfold pushed pgsize at *
      omega
    · exact lt_of_lt_of_le (show n - 2 < 1048576 by omega) le_rfl
    · intro v _ inside
      by_cases isGuard : v = n - 2
      · rw [isGuard, stacked.guard]
        exact fun h => nomatch h
      · rw [stacked.access v (by omega) isGuard]
        exact fun h => nomatch h
    · exact stacked.guard
  · -- the stack pointer is in the kernel's part
    rw [if_neg below]
    have kernel : kernpage ≤ (2 ^ 32 + n * pgsize - pushed used arg) / pgsize := by
      show 524288 ≤ _
      unfold pushed pgsize kernbase at *
      omega
    have reach := stacked.uva2ka_kernel kernel
    have table : kernelTable ((2 ^ 32 + n * pgsize - pushed used arg) / pgsize / nptentries) ↔
        ¬(n * pgsize + (2 ^ 32 - devspace) < pushed used arg ∧
          pushed used arg ≤ n * pgsize + (2 ^ 32 - (kernbase + phystop))) := by
      have low : 524288 ≤ (2 ^ 32 + n * pgsize - pushed used arg) / pgsize := kernel
      unfold kernelTable pgsize nptentries devspace kernbase phystop at *
      omega
    split
    · rename_i lost
      rw [if_neg (by rw [table, not_not]; exact lost)] at reach
      rw [PageDir.copyout_cons (by simp), reach]
    · rename_i notLost
      rw [if_pos (table.mpr notLost)] at reach
      refine ⟨d, ?_⟩
      rw [PageDir.copyout_cons (by simp), reach]

/-- What the loop over the arguments does. -/
theorem pushArgs_spec {args : List (List UInt8)} (stacked : Stacked d n) (aligned : used % 4 = 0)
    (inPage : used ≤ pgsize) (few : ustack.length + args.length ≤ maxarg)
    (lengths : ∀ arg ∈ args, arg.length < kernbase) :
    (Lost (n * pgsize) used args ∧ pgsize < args.foldl pushed used ∧
      pushArgs args (n * pgsize - used) ustack d = .fault) ∨
    (¬Lost (n * pgsize) used args ∧ pgsize < args.foldl pushed used ∧
      ∃ d', pushArgs args (n * pgsize - used) ustack d = .bad d') ∨
    (¬Lost (n * pgsize) used args ∧ args.foldl pushed used ≤ pgsize ∧
      args.foldl pushed used % 4 = 0 ∧ ∃ ustack' d',
      pushArgs args (n * pgsize - used) ustack d =
        .ok (n * pgsize - args.foldl pushed used) ustack' d' ∧
      ustack'.length = ustack.length + args.length ∧ d.Rewritten d' ∧
      ∀ a, a / pgsize < n - 1 → d'.byteAt a = d.byteAt a) := by
  induction args generalizing used ustack d with
  | nil =>
    exact .inr (.inr ⟨fun lost => lost, inPage, aligned, ustack, d, rfl, rfl,
      PageDir.Rewritten.refl d, fun _ _ => rfl⟩)
  | cons arg rest ih =>
    have length := lengths arg List.mem_cons_self
    rw [List.length_cons] at few
    rw [pushArgs, if_neg (by omega), Lost, List.foldl_cons]
    dsimp only
    by_cases fits : pushed used arg ≤ pgsize
    · have two := stacked.two
      have same := PageDir.rewritten_store d (n - 1) (pgsize - pushed used arg) (arg ++ [0])
      have sp : uint ((n * pgsize - used : Nat) - (arg.length + 1)) / 4 * 4 =
          n * pgsize - pushed used arg := by
        rw [sp_pushed two stacked.user aligned inPage length, if_pos]
        unfold pgsize at *
        omega
      rw [if_pos fits, sp, copyout_fits stacked fits]
      dsimp only
      have few' : (ustack ++ [n * pgsize - pushed used arg]).length + rest.length ≤ maxarg := by
        rw [List.length_append, List.length_singleton]
        omega
      rcases ih (stacked.rewritten same) (by unfold pushed; omega) fits few'
        (fun other member => lengths other (List.mem_cons_of_mem _ member)) with
        lost | bad | ⟨notLost, total, aligned', ustack', d', ran, count, same', bytes⟩
      · exact .inl lost
      · exact .inr (.inl bad)
      · refine .inr (.inr ⟨notLost, total, aligned', ustack', d', ran, ?_, same.trans same', ?_⟩)
        · rw [count, List.length_append, List.length_singleton, List.length_cons]
          omega
        · intro a inside
          obtain ⟨page, w, data, entry⟩ := PageDir.uva2ka_eq_ok
            (stacked.access (n - 1) (by omega) (by omega))
          rw [bytes a inside, PageDir.byteAt_store entry, if_neg (by omega)]
    · have more : pgsize < rest.foldl pushed (pushed used arg) :=
        lt_of_lt_of_le (Nat.lt_of_not_le fits) (le_foldl_pushed _ _)
      have copied := copyout_tooLong stacked aligned inPage length (Nat.lt_of_not_le fits)
      rw [if_neg fits]
      split at copied
      · rename_i lost
        rw [copied]
        exact .inl ⟨lost, more, rfl⟩
      · rename_i notLost
        obtain ⟨d', failed⟩ := copied
        rw [failed]
        exact .inr (.inl ⟨notLost, more, d', rfl⟩)

/-- Copying the vector of arguments. -/
theorem vector_cases {argc : Nat} {bytes : List UInt8} (stacked : Stacked d n)
    (inPage : used ≤ pgsize) (few : argc ≤ maxarg) (length : bytes.length = (argc + 4) * 4) :
    (pgsize < used + (argc + 4) * 4 ∧
      d.copyout (uint ((n * pgsize - used : Nat) - (3 + argc + 1) * 4)) bytes = .failed d) ∨
    ∃ d', d.copyout (uint ((n * pgsize - used : Nat) - (3 + argc + 1) * 4)) bytes = .ok d' ∧
      d.Rewritten d' ∧ (∀ a, a / pgsize < n - 1 → d'.byteAt a = d.byteAt a) ∧
      used + (argc + 4) * 4 ≤ pgsize ∧
      d' = d.store (n - 1) (pgsize - used - (argc + 4) * 4) bytes := by
  have two := stacked.two
  have bound : n ≤ 524288 := stacked.user
  have sp : uint ((n * pgsize - used : Nat) - (3 + argc + 1) * 4) =
      n * pgsize - used - (argc + 4) * 4 := by
    unfold uint pgsize maxarg at *
    omega
  have some_ : bytes ≠ [] := by
    rintro rfl
    rw [List.length_nil] at length
    omega
  rw [sp]
  by_cases fits : used + (argc + 4) * 4 ≤ pgsize
  · have page : (n * pgsize - used - (argc + 4) * 4) / pgsize = n - 1 := by
      unfold pgsize at *
      omega
    have offset : (n * pgsize - used - (argc + 4) * 4) % pgsize = pgsize - used - (argc + 4) * 4 := by
      unfold pgsize at *
      omega
    have room : (n * pgsize - used - (argc + 4) * 4) % pgsize + bytes.length ≤ pgsize := by
      rw [length]
      unfold pgsize at *
      omega
    have access := stacked.access (n - 1) (by omega) (by omega)
    obtain ⟨page', w, data, entry⟩ := PageDir.uva2ka_eq_ok access
    refine .inr ⟨_, PageDir.copyout_inPage some_ room (by rw [page]; exact access),
      PageDir.rewritten_store _ _ _ _, ?_, fits, by rw [page, offset]⟩
    intro a inside
    rw [page, PageDir.byteAt_store entry, if_neg (by omega)]
  · have page : (n * pgsize - used - (argc + 4) * 4) / pgsize = n - 2 := by
      unfold pgsize maxarg at *
      omega
    refine .inl ⟨Nat.lt_of_not_le fits, ?_⟩
    rw [PageDir.copyout_cons some_, page, stacked.guard]

theorem flatMap_wordBytes_length (words : List Nat) :
    (words.flatMap wordBytes).length = words.length * 4 := by
  induction words with
  | nil => rfl
  | cons word rest ih =>
    rw [List.flatMap_cons, List.length_append, ih, List.length_cons]
    show 4 + rest.length * 4 = _
    omega

/-! ## From the file to the arguments -/

/-- The program is loaded and has a stack: `exec` comes to the arguments with a page table of `n`
pages. -/
def Prepared (k : KernelMap) (ip : Inode) (mem : Mem Page) (entry n : Nat) (d : PageDir Page)
    (m : Mem Page) : Prop :=
  ∃ bytes ip₁ d₀ m₀ sz d₁ ip₂ m₁ d₂, ip.readi 0 elfhdrSize = (some bytes, ip₁) ∧
    bytes.length = elfhdrSize ∧ (elfhdr bytes).magic = elfMagic ∧
    setupkvm k mem = some (some d₀, m₀) ∧
    loadSegments (elfhdr bytes).phnum (elfhdr bytes).phoff 0 d₀ ip₁ m₀ = some (.ok sz d₁ ip₂ m₁) ∧
    entry = (elfhdr bytes).entry ∧ n = npages sz + 2 ∧
    d₁.allocuvm (pgroundup sz) (n * pgsize) m₁ = some (n * pgsize, d₂, m) ∧
    d₂.clearpteu (n - 2) = some d

/-- The segments of a program file. -/
def fileSegments (data : List UInt8) : List Proghdr :=
  segments data (elfhdr (data.take elfhdrSize)).phoff (elfhdr (data.take elfhdrSize)).phnum

/-- The size of the address space for a program file: its image, a guard page and a stack. -/
def imageSize (data : List UInt8) : Nat :=
  pgroundup (imageEnd (fileSegments data)) + 2 * pgsize

/-- The address space in which `exec` comes to the arguments. -/
structure Ready (ip : Inode) (mem : Mem Page) (n : Nat) (d : PageDir Page) (m : Mem Page) : Prop where
  stacked : Stacked d n
  pages : m.pool + d.pages = mem.pool
  image : ∀ data small, ip = .file data small → n * pgsize = imageSize data ∧
    ∀ a, a < imageEnd (fileSegments data) → d.byteAt a = some (imageByte data (fileSegments data) a)

variable {ip : Inode}

/-- The addresses of the image are in the pages before the guard page. -/
theorem Ready.of_image {mem m : Mem Page} {d₁ d : PageDir Page}
    (stacked : Stacked d (npages sz + 2)) (pages : m.pool + d.pages = mem.pool)
    (same : ∀ a, a / pgsize < npages sz → d.byteAt a = d₁.byteAt a)
    (image : ∀ data small, ip = .file data small → Image data (fileSegments data) sz d₁) :
    Ready ip mem (npages sz + 2) d m where
  stacked := stacked
  pages := pages
  image := by
    intro data small isFile
    have built := image data small isFile
    constructor
    · rw [imageSize, ← built.size, Nat.add_mul]
      rfl
    · intro a inside
      rw [← built.size] at inside
      have page : a / pgsize < npages sz := by
        by_contra past
        exact absurd (le_of_npages_le past) (Nat.not_le.mpr inside)
      rw [same a page]
      exact built.bytes a page

/-- `exec` fails, or comes to the arguments. -/
theorem load_cases (k : KernelMap) (path : List UInt8) (ip : Inode) (argv : List (List UInt8))
    (unlocked : before.held.locked = false) (proc : w.proc = before.proc)
    (mem : w.mem.pool = before.mem.pool) (held : w.held = before.held.beginOp.ilock) :
    ((∀ entry n d m, ¬Prepared k ip w.mem entry n d m) ∧
      ∃ after, load k path ip argv w = .ret (-1) after ∧ Unchanged before after) ∨
    ∃ entry n d m, Prepared k ip w.mem entry n d m ∧ Ready ip w.mem n d m ∧
      load k path ip argv w =
        pushArguments entry path argv (n * pgsize) d m { w with held := before.held } := by
  have atBad {m : Mem Page} (kept : m.pool = before.mem.pool) :
      ∃ after, bad none m true w = .ret (-1) after ∧ Unchanged before after :=
    bad_locked none unlocked (fun _ h => nomatch h) ((add_zero _).trans kept) proc held
  unfold load
  rcases read : ip.readi 0 elfhdrSize with ⟨bytes, ip₁⟩
  cases bytes with
  | none =>
    refine .inl ⟨?_, atBad mem⟩
    rintro _ _ _ _ ⟨_, _, _, _, _, _, _, _, _, read', _⟩
    rw [read] at read'
    cases read'
  | some bytes =>
    dsimp only
    split
    · rename_i short
      refine .inl ⟨?_, atBad mem⟩
      rintro _ _ _ _ ⟨_, _, _, _, _, _, _, _, _, read', whole, _⟩
      rw [read] at read'
      cases read'
      exact short whole
    rename_i whole
    rw [not_not] at whole
    split
    · rename_i other
      refine .inl ⟨?_, atBad mem⟩
      rintro _ _ _ _ ⟨_, _, _, _, _, _, _, _, _, read', _, magic, _⟩
      rw [read] at read'
      cases read'
      exact other magic
    rename_i magic
    rw [not_not] at magic
    rcases setupkvm_cases k w.mem with ⟨m₁, failed, same⟩ | ⟨d₀, m₀, made, wf, bare, kept⟩
    · rw [failed]
      refine .inl ⟨?_, atBad (same.trans mem)⟩
      rintro _ _ _ _ ⟨_, _, _, _, _, _, _, _, _, _, _, _, made, _⟩
      rw [failed] at made
      cases made
    rw [made]
    dsimp only
    obtain ⟨r, loaded, good, built⟩ := loadSegments_spec ip₁ (Loading.bare wf bare) m₀
    rw [loaded]
    rw [kept] at good
    cases r with
    | bad d' m' =>
      refine .inl ⟨?_, bad_locked (some d') unlocked (by rintro _ ⟨⟩; exact good.1)
        (good.2.trans mem) proc held⟩
      rintro _ _ _ _ ⟨_, _, _, _, _, _, _, _, _, read', _, _, made', loaded', _⟩
      rw [read] at read'
      cases read'
      rw [made] at made'
      cases made'
      rw [loaded] at loaded'
      cases loaded'
    | ok sz d₁ ip₂ m₁ =>
      dsimp only
      rw [held, Held.release unlocked]
      dsimp only
      have loading : Loading d₁ sz := good.1
      have kept₁ : m₁.pool + d₁.pages = w.mem.pool := good.2
      have positive : (npages sz + 2) * pgsize ≠ 0 := by
        unfold pgsize
        omega
      unfold pushStack
      rw [loading.stackTop]
      rcases stack_cases loading m₁ with
        ⟨d₂, m₂, failed, wf₂, kept₂⟩ | ⟨d₂, d, m, grown, cleared, stacked, kept₂, bytes₂⟩
      · rw [failed]
        dsimp only
        rw [if_pos rfl]
        refine .inl ⟨?_, bad_released wf₂ ((kept₂.trans kept₁).trans mem) proc rfl⟩
        rintro _ _ _ _ ⟨_, _, _, _, _, _, _, _, _, read', _, _, made', loaded', _, rfl, grown, _⟩
        rw [read] at read'
        cases read'
        rw [made] at made'
        cases made'
        rw [loaded] at loaded'
        cases loaded'
        rw [failed] at grown
        exact positive (congrArg Prod.fst (Option.some.inj grown)).symm
      · have guard : ((npages sz + 2) * pgsize - 2 * pgsize) / pgsize = npages sz := by
          unfold pgsize
          omega
        refine .inr ⟨(elfhdr bytes).entry, npages sz + 2, d, m, ⟨bytes, ip₁, d₀, m₀, sz, d₁, ip₂,
          m₁, d₂, read, whole, magic, made, loaded, rfl, rfl, grown, cleared⟩, ?_, ?_⟩
        · apply Ready.of_image stacked (kept₂.trans kept₁) bytes₂
          rintro data small rfl
          obtain ⟨rfl, rfl, _⟩ := readi_file read
          exact built data small rfl [] (Image.nil data d₀) sz d₁ ip₂ m₁ rfl
        · rw [grown]
          dsimp only
          rw [if_neg positive, guard, cleared]

/-- `exec` fails, or comes to the arguments with the process as before. -/
theorem exec_cases (k : KernelMap) (path : List UInt8) (ip : Inode) (argv : List (List UInt8))
    (unlocked : before.held.locked = false) :
    ((∀ entry n d m, ¬Prepared k ip before.mem entry n d m) ∧
      ∃ after, exec k path (some ip) argv before = .ret (-1) after ∧ Unchanged before after) ∨
    ∃ entry n d m, Prepared k ip before.mem entry n d m ∧ Ready ip before.mem n d m ∧
      exec k path (some ip) argv before =
        pushArguments entry path argv (n * pgsize) d m before :=
  load_cases k path ip argv unlocked (w := { before with held := before.held.beginOp.ilock })
    rfl rfl rfl

/-- The small program can be loaded wherever 79 pages are free. -/
theorem tinyProgram_prepared (k : KernelMap) {m : Mem Page} (has : m.Has 79) :
    ∃ d m', Prepared k (.file tinyProgram tinyProgram_small) m 0 3 d m' := by
  obtain ⟨read, whole⟩ :=
    readi_inFile tinyProgram_small (show 0 + elfhdrSize ≤ tinyProgram.length by decide)
  obtain ⟨read', whole'⟩ :=
    readi_inFile tinyProgram_small (show 52 + proghdrSize ≤ tinyProgram.length by decide)
  -- the kernel's part
  obtain ⟨d₀, m₀, made, left₀⟩ := setupkvm_of_has k (has.mono (show 6 + 73 ≤ 79 by omega))
  rcases setupkvm_cases k m with ⟨_, failed, _⟩ | ⟨_, _, made', wf, bare, _⟩
  · rw [made] at failed
    cases failed
  rw [made] at made'
  cases made'
  -- the segment
  obtain ⟨d₁, m₁, loaded, loading₁, left₁⟩ := loadSegment_of_has tinyProgram_small
    (proghdr ((tinyProgram.drop 52).take proghdrSize)) (n := 4) (Loading.bare wf bare)
    (by decide) (by decide) (by decide) (by decide) (by decide) (by decide) left₀
  have isLoad : (proghdr ((tinyProgram.drop 52).take proghdrSize)).type = elfProgLoad := by decide
  have segments : loadSegments 1 52 0 d₀ (.file tinyProgram tinyProgram_small) m₀ =
      some (.ok 8 d₁ (.file tinyProgram tinyProgram_small) m₁) := by
    rw [loadSegments, read']
    dsimp only
    rw [if_neg (not_not.mpr whole'), if_neg (not_not.mpr isLoad), loaded]
    rfl
  -- the stack
  have loading : Loading d₁ 8 := loading₁
  obtain ⟨_, _, grown, _⟩ := PageDir.allocuvm_of_has (n := 0) loading.pgroundup.wf
    loading.pgroundup.sized (show pgroundup 8 ≤ 3 * pgsize by decide)
    (show 3 * pgsize < kernbase by decide) left₁
  rcases stack_cases loading m₁ with ⟨_, _, failed, _⟩ | ⟨d₂, d, m', grown', cleared, _⟩
  · rw [show (npages 8 + 2) * pgsize = 3 * pgsize from rfl, grown] at failed
    cases failed
  · exact ⟨d, m', _, _, d₀, m₀, 8, d₁, _, m₁, d₂, read, whole, by decide, made, segments, by decide,
      by decide, grown', cleared⟩

variable {argv : List (List UInt8)}

/-! ## All or nothing -/

theorem pushArguments_clean (wf : d.Wf) (old : before.proc.pgdir.Wf)
    (kept : m.pool + d.pages = before.mem.pool) (proc : w.proc = before.proc)
    (held : w.held = before.held) : Clean before (pushArguments entry path argv sz d m w) := by
  unfold pushArguments
  rcases pushArgs_rewritten argv sz [] d with
    fault | ⟨d', same, failed | ⟨sp, ustack, copied⟩⟩
  · rw [fault]
    exact Clean.fault before
  · obtain ⟨after, failed', left⟩ := bad_released (same.wf wf) (by rw [same.pages, kept]) proc held
    simp only [failed, failed']
    exact Clean.failed left
  · rw [copied]
    exact commit_clean (same.wf wf) old (by rw [same.pages, kept]) proc held

/-- A call of `exec` that returns -1 has changed nothing, whatever file, arguments and memory it
met: the process, the free pages, the inode and the log are as before. No call panics. -/
theorem exec_all_or_nothing (k : KernelMap) (path : List UInt8) (found : Option Inode)
    (argv : List (List UInt8)) (before : World Page) (unlocked : before.held.locked = false)
    (old : before.proc.pgdir.Wf) :
    exec k path found argv before ≠ .panic ∧
      ∀ after, exec k path found argv before = .ret (-1) after → Unchanged before after := by
  have clean : Clean before (exec k path found argv before) := by
    cases found with
    | none =>
      unfold exec
      dsimp only
      rw [Held.endOp_beginOp]
      exact Clean.failed ⟨rfl, rfl, rfl⟩
    | some ip =>
      rcases exec_cases k path ip argv unlocked with
        ⟨_, after, failed, left⟩ | ⟨entry, n, d, m, _, ready, reaches⟩
      · rw [failed]
        exact Clean.failed left
      · rw [reaches]
        exact pushArguments_clean ready.stacked.wf old ready.pages rfl rfl
  exact ⟨clean.noPanic, clean.unchanged⟩

/-- The caller while others take all pages but the next one. -/
def shortCaller : World Nat :=
  { caller 1 with mem := ⟨List.range 79, [false, true]⟩ }

/-- Where pages are short, `setupkvm` gets its directory and no page for the first table. -/
theorem exec_all_or_nothing_caller :
    exec someKernel [] (some (.file tinyProgram tinyProgram_small)) [] (caller 1) ≠ .panic ∧
      ∃ after, exec someKernel [] (some (.file tinyProgram tinyProgram_small)) [] shortCaller =
        .ret (-1) after ∧ Unchanged shortCaller after := by
  refine ⟨(exec_all_or_nothing _ _ _ _ (caller 1) rfl (caller_wf (by decide))).1, ?_⟩
  have short : (setupkvm someKernel shortCaller.mem).map (fun made => made.1.isSome) =
      some false := by
    decide +kernel
  rcases exec_cases someKernel [] (.file tinyProgram tinyProgram_small) []
      (show shortCaller.held.locked = false from rfl) with
    ⟨_, after, failed, _⟩ | ⟨_, _, _, _, ⟨_, _, _, _, _, _, _, _, _, _, _, _, made, _⟩, _⟩
  · exact ⟨after, failed, (exec_all_or_nothing _ _ _ _ shortCaller rfl
      (caller_wf (by decide))).2 after failed⟩
  · rw [made] at short
    cases short

/-! ## The image of a successful call -/

/-- What `sys_exec` passes on: fewer arguments than `argv` has room for, each of which ends inside
the caller's memory. -/
structure Accepted (argv : List (List UInt8)) (p : Proc Page) : Prop where
  few : argv.length < maxarg
  inside : ∀ arg ∈ argv, arg.length < p.sz
  user : p.sz ≤ kernbase

theorem Accepted.lengths {p : Proc Page} (accepted : Accepted argv p) :
    ∀ arg ∈ argv, arg.length < kernbase :=
  fun arg member => lt_of_lt_of_le (accepted.inside arg member) accepted.user

theorem argWords_length (sp : Nat) (ustack : List Nat) :
    (argWords sp ustack).length = ustack.length + 4 := by
  simp only [argWords, List.length_append, List.length_cons, List.length_nil]
  omega

/-- What `exec` does with the arguments: it loses the stack, runs out of it, or gives the process
its image, with the vector of arguments stored below the strings. -/
theorem pushArguments_cases (stacked : Stacked d n) (few : argv.length ≤ maxarg)
    (lengths : ∀ arg ∈ argv, arg.length < kernbase) :
    (Lost (n * pgsize) 0 argv ∧ pgsize < argBytes argv ∧
      pushArguments entry path argv (n * pgsize) d m w = .fault) ∨
    (¬Lost (n * pgsize) 0 argv ∧ pgsize < argBytes argv + (argv.length + 4) * 4 ∧ ∃ d',
      d.Rewritten d' ∧ pushArguments entry path argv (n * pgsize) d m w = bad (some d') m false w) ∨
    (¬Lost (n * pgsize) 0 argv ∧ argBytes argv + (argv.length + 4) * 4 ≤ pgsize ∧ ∃ ustack d' final,
      pushArgs argv (n * pgsize) [] d = .ok (n * pgsize - argBytes argv) ustack d' ∧
      final = d'.store (n - 1) (pgsize - argBytes argv - (argv.length + 4) * 4)
        ((argWords (n * pgsize - argBytes argv) ustack).flatMap wordBytes) ∧
      d.Rewritten final ∧ (∀ a, a / pgsize < n - 1 → final.byteAt a = d.byteAt a) ∧
      pushArguments entry path argv (n * pgsize) d m w =
        match w.proc.pgdir.freevm m with
        | none => .panic
        | some m =>
            .ret 0
              { w with
                mem := m
                proc :=
                  { w.proc with
                    pgdir := final, sz := n * pgsize, eip := entry
                    esp := uint ((n * pgsize - argBytes argv : Nat) - (3 + argv.length + 1) * 4)
                    name := (lastName path).take 15 } }) := by
  have few' : ([] : List Nat).length + argv.length ≤ maxarg := by
    rw [List.length_nil, Nat.zero_add]
    exact few
  unfold pushArguments
  rcases pushArgs_spec stacked (Nat.zero_mod 4) (Nat.zero_le pgsize) few' lengths with
    ⟨lost, tooLong, fault⟩ | ⟨notLost, tooLong, d', failed⟩ |
      ⟨notLost, inPage, _, ustack, d', pushes, count, same, bytes⟩
  · rw [Nat.sub_zero] at fault
    exact .inl ⟨lost, tooLong, by rw [fault]⟩
  · rw [Nat.sub_zero] at failed
    have same : d.Rewritten d' := by
      rcases pushArgs_rewritten argv (n * pgsize) [] d with
        fault | ⟨d₂, same, failed' | ⟨_, _, copied⟩⟩
      · cases failed.symm.trans fault
      · cases failed.symm.trans failed'
        exact same
      · cases failed.symm.trans copied
    exact .inr (.inl ⟨notLost, Nat.lt_add_right _ tooLong, d', same, by rw [failed]⟩)
  · rw [Nat.sub_zero] at pushes
    rw [List.length_nil, Nat.zero_add] at count
    rw [pushes, ← count]
    dsimp only [commit]
    rcases vector_cases (stacked.rewritten same) inPage (count ▸ few)
      ((flatMap_wordBytes_length (argWords (n * pgsize - argBytes argv) ustack)).trans
        (congrArg (· * 4) (argWords_length _ _))) with
      ⟨tooLong, failed⟩ | ⟨final, copied, same', bytes', fits, stored⟩
    · refine .inr (.inl ⟨notLost, tooLong, d', same, ?_⟩)
      rw [argBytes] at failed
      rw [failed]
    · refine .inr (.inr ⟨notLost, fits, ustack, d', final, rfl, stored, same.trans same',
        fun a inside => (bytes' a inside).trans (bytes a inside), ?_⟩)
      rw [argBytes] at copied
      rw [copied]
      rfl

theorem bad_cases (pgdir : Option (PageDir Page)) (m : Mem Page) (inode : Bool) (w : World Page) :
    bad pgdir m inode w = .panic ∨ ∃ after, bad pgdir m inode w = .ret (-1) after := by
  unfold bad
  split
  · exact .inl rfl
  · split
    · split
      · exact .inl rfl
      · exact .inr ⟨_, rfl⟩
    · exact .inr ⟨_, rfl⟩

/-- A call that succeeds has stored the arguments, and keeps all that is below the stack's page. -/
theorem pushArguments_succeeded {after : World Page} (stacked : Stacked d n)
    (few : argv.length ≤ maxarg) (lengths : ∀ arg ∈ argv, arg.length < kernbase)
    (ran : pushArguments entry path argv (n * pgsize) d m w = .ret 0 after) :
    argBytes argv + (argv.length + 4) * 4 ≤ pgsize ∧ ∃ ustack d',
      pushArgs argv (n * pgsize) [] d = .ok (n * pgsize - argBytes argv) ustack d' ∧
      after.proc.pgdir = d'.store (n - 1) (pgsize - argBytes argv - (argv.length + 4) * 4)
        ((argWords (n * pgsize - argBytes argv) ustack).flatMap wordBytes) ∧
      after.proc.esp = uint ((n * pgsize - argBytes argv : Nat) - (3 + argv.length + 1) * 4) ∧
      after.proc.sz = n * pgsize ∧ d.Rewritten after.proc.pgdir ∧
      ∀ a, a / pgsize < n - 1 → after.proc.pgdir.byteAt a = d.byteAt a := by
  rcases pushArguments_cases stacked few lengths with
    ⟨_, _, fault⟩ | ⟨_, _, d', _, failed⟩ | ⟨_, fits, ustack, d', final, pushes, stored, same, bytes, ends⟩
  · cases fault.symm.trans ran
  · rcases bad_cases (some d') m false w with panics | ⟨_, returns⟩
    · cases (failed.trans panics).symm.trans ran
    · cases (failed.trans returns).symm.trans ran
  · rw [ends] at ran
    split at ran
    · cases ran
    · cases ran
      exact ⟨fits, ustack, d', pushes, stored, rfl, rfl, same, bytes⟩

/-- `exec` builds exactly the image that the file describes, with a guard page and a stack above
it. -/
theorem exec_builds_image (k : KernelMap) (path data : List UInt8) (small : data.length < 2 ^ 32)
    (argv : List (List UInt8)) (before after : World Page) (unlocked : before.held.locked = false)
    (accepted : Accepted argv before.proc)
    (ran : exec k path (some (.file data small)) argv before = .ret 0 after) :
    after.proc.sz = pgroundup (imageEnd (fileSegments data)) + 2 * pgsize ∧
    (∀ v, v * pgsize < after.proc.sz → ∃ page w u contents,
      after.proc.pgdir.pte v = some (.user page w u contents) ∧
        (u = true ↔ v * pgsize ≠ pgroundup (imageEnd (fileSegments data)))) ∧
    ∀ a, a < imageEnd (fileSegments data) →
      after.proc.pgdir.byteAt a = some (imageByte data (fileSegments data) a) := by
  rcases exec_cases k path (.file data small) argv unlocked with
    ⟨_, after', failed, _⟩ | ⟨entry, n, d, m, _, ready, reaches⟩
  · rw [failed] at ran
    cases ran
  · rw [reaches] at ran
    have stacked := ready.stacked
    have two := stacked.two
    obtain ⟨size, image⟩ := ready.image data small rfl
    obtain ⟨_, _, _, _, _, _, sz, same, bytes⟩ :=
      pushArguments_succeeded stacked accepted.few.le accepted.lengths ran
    have below : (n - 2) * pgsize = pgroundup (imageEnd (fileSegments data)) := by
      rw [Nat.sub_mul, size, imageSize, Nat.add_sub_cancel]
    refine ⟨sz.trans size, ?_, ?_⟩
    · intro v inside
      rw [sz] at inside
      rw [← below]
      have stacked' := stacked.rewritten same
      have page : v < n := Nat.lt_of_mul_lt_mul_right inside
      by_cases isGuard : v = n - 2
      · obtain ⟨page', w, contents, entry'⟩ := stacked'.guardPage
        exact ⟨page', w, false, contents, by rw [isGuard]; exact entry', by simp [isGuard]⟩
      · obtain ⟨page', w, contents, entry'⟩ :=
          PageDir.uva2ka_eq_ok (stacked'.access v page isGuard)
        refine ⟨page', w, true, contents, entry', ?_⟩
        simp only [true_iff]
        intro equal
        exact isGuard (Nat.eq_of_mul_eq_mul_right (by decide) equal)
    · intro a inside
      rw [← image a inside]
      apply bytes
      have covered : imageEnd (fileSegments data) ≤ (n - 2) * pgsize := by
        rw [below]
        unfold pgroundup npages pgsize
        omega
      have page : a / pgsize < n - 2 := Nat.div_lt_of_lt_mul (by rw [Nat.mul_comm]; omega)
      omega

/-- A program that can be loaded runs, when its arguments fit into the stack's page. -/
theorem exec_fits {k : KernelMap} (path : List UInt8) (unlocked : before.held.locked = false)
    (old : before.proc.pgdir.Wf) (prepared : Prepared k ip before.mem entry n d m)
    (few : argv.length ≤ maxarg) (lengths : ∀ arg ∈ argv, arg.length < kernbase)
    (fits : argBytes argv + (argv.length + 4) * 4 ≤ pgsize) :
    ∃ after, exec k path (some ip) argv before = .ret 0 after := by
  rcases exec_cases k path ip argv unlocked with
    ⟨notPrepared, _⟩ | ⟨entry', n', d', m', _, ready, reaches⟩
  · exact absurd prepared (notPrepared entry n d m)
  rw [reaches]
  rcases pushArguments_cases ready.stacked few lengths with
    ⟨_, tooLong, _⟩ | ⟨_, tooLong, _⟩ | ⟨_, _, _, _, _, _, _, _, _, ends⟩
  · exact absurd tooLong (by omega)
  · exact absurd tooLong (by omega)
  · obtain ⟨m₁, freed, _⟩ := PageDir.freevm_spec old m'
    rw [ends, freed]
    exact ⟨_, rfl⟩

theorem exec_builds_image_tinyProgram :
    ∃ after, exec someKernel [] (some (.file tinyProgram tinyProgram_small)) [] (caller 1) =
        .ret 0 after ∧
      after.proc.sz = 3 * pgsize ∧ after.proc.pgdir.byteAt 0 = some 0xEB ∧
      after.proc.pgdir.byteAt 7 = some 0 := by
  have has : (caller 1).mem.Has 79 := ⟨rfl, by decide⟩
  obtain ⟨d, m, prepared⟩ := tinyProgram_prepared someKernel has
  have accepted : Accepted [] (caller 1).proc :=
    ⟨by decide, fun _ member => absurd member List.not_mem_nil, by decide⟩
  obtain ⟨after, ran⟩ := exec_fits [] rfl (caller_wf (by decide)) prepared accepted.few.le
    accepted.lengths (by decide)
  obtain ⟨size, _, bytes⟩ := exec_builds_image someKernel [] tinyProgram tinyProgram_small []
    (caller 1) after rfl accepted ran
  refine ⟨after, ran, ?_, ?_, ?_⟩
  · rw [size]
    decide
  · rw [bytes 0 (by decide)]
    decide
  · rw [bytes 7 (by decide)]
    decide

/-! ## Arguments that lose the stack -/

/-- No argument is copied through a missing page table, and arguments that are too long for the
stack make the call fail. -/
def CopiesArguments (k : KernelMap) (path : List UInt8) (ip : Inode) (argv : List (List UInt8))
    (before : World Page) : Prop :=
  exec k path (some ip) argv before ≠ .fault ∧
    (pgsize < argBytes argv → ∃ after, exec k path (some ip) argv before = .ret (-1) after)

variable {k : KernelMap} {data : List UInt8} {small : data.length < 2 ^ 32}

theorem exec_lost (path : List UInt8) (unlocked : before.held.locked = false)
    (accepted : Accepted argv before.proc)
    (prepared : Prepared k (.file data small) before.mem entry n d m)
    (lost : Lost (imageSize data) 0 argv) :
    exec k path (some (.file data small)) argv before = .fault := by
  rcases exec_cases k path (.file data small) argv unlocked with
    ⟨notPrepared, _⟩ | ⟨entry', n', d', m', _, ready, reaches⟩
  · exact absurd prepared (notPrepared entry n d m)
  rw [← (ready.image data small rfl).1] at lost
  rcases pushArguments_cases ready.stacked accepted.few.le accepted.lengths with
    ⟨_, _, fault⟩ | ⟨notLost, _⟩ | ⟨notLost, _⟩
  · rw [reaches, fault]
  · exact absurd lost notLost
  · exact absurd lost notLost

theorem copiesArguments_of_not_lost (path : List UInt8) (unlocked : before.held.locked = false)
    (accepted : Accepted argv before.proc)
    (prepared : Prepared k (.file data small) before.mem entry n d m)
    (notLost : ¬Lost (imageSize data) 0 argv) :
    CopiesArguments k path (.file data small) argv before := by
  unfold CopiesArguments
  rcases exec_cases k path (.file data small) argv unlocked with
    ⟨notPrepared, _⟩ | ⟨entry', n', d', m', _, ready, reaches⟩
  · exact absurd prepared (notPrepared entry n d m)
  rw [← (ready.image data small rfl).1] at notLost
  rw [reaches]
  rcases pushArguments_cases ready.stacked accepted.few.le accepted.lengths with
    ⟨lost, _⟩ | ⟨_, _, d₁, same, failed⟩ | ⟨_, fits, _, _, _, _, _, _, _, ends⟩
  · exact absurd lost notLost
  · -- too long for the stack: the call fails
    obtain ⟨after, returns, _⟩ := bad_released (w := before) (same.wf ready.stacked.wf)
      (by rw [same.pages]; exact ready.pages) rfl rfl
    rw [failed, returns]
    exact ⟨(fun h => nomatch h), fun _ => ⟨after, rfl⟩⟩
  · refine ⟨?_, fun tooLong => absurd tooLong (by omega)⟩
    rw [ends]
    split <;> exact fun h => nomatch h

/-- For a program that can be loaded, `exec` copies its arguments or fails, exactly when they do
not take the stack pointer to where there is no page table. -/
theorem exec_arguments_iff (k : KernelMap) (path data : List UInt8) (small : data.length < 2 ^ 32)
    (argv : List (List UInt8)) (before : World Page) (unlocked : before.held.locked = false)
    (accepted : Accepted argv before.proc)
    (loadable : ∃ entry n d m, Prepared k (.file data small) before.mem entry n d m) :
    CopiesArguments k path (.file data small) argv before ↔ ¬Lost (imageSize data) 0 argv := by
  obtain ⟨entry, n, d, m, prepared⟩ := loadable
  constructor
  · intro copies lost
    exact copies.1 (exec_lost path unlocked accepted prepared lost)
  · exact copiesArguments_of_not_lost path unlocked accepted prepared

theorem exec_arguments_tinyProgram :
    CopiesArguments someKernel [] (.file tinyProgram tinyProgram_small) [[0x68, 0x69]] (caller 1) := by
  have has : (caller 1).mem.Has 79 := ⟨rfl, by decide⟩
  obtain ⟨d, m, prepared⟩ := tinyProgram_prepared someKernel has
  have accepted : Accepted [[0x68, 0x69]] (caller 1).proc := by
    refine ⟨by decide, ?_, by decide⟩
    intro arg member
    rw [List.mem_singleton] at member
    rw [member]
    decide
  refine (exec_arguments_iff someKernel [] tinyProgram tinyProgram_small [[0x68, 0x69]] (caller 1)
    rfl accepted ⟨0, 3, d, m, prepared⟩).mpr ?_
  rw [Lost, if_pos (by decide)]
  exact fun lost => lost

/-- An argument of more than 32 megabytes, from a process that has so much memory. -/
def longArgument : List UInt8 :=
  List.replicate 33570816 0x61

theorem longArgument_accepted : Accepted [longArgument] (caller 8200).proc := by
  refine ⟨by decide, ?_, by decide⟩
  intro arg member
  rw [List.mem_singleton] at member
  rw [member, longArgument, List.length_replicate]
  decide

/-- The long argument makes `exec` read through a null pointer. -/
theorem exec_loses_stack :
    Accepted [longArgument] (caller 8200).proc ∧
      (∃ d m, Prepared someKernel (.file tinyProgram tinyProgram_small) (caller 8200).mem 0 3 d m) ∧
      ¬CopiesArguments someKernel [] (.file tinyProgram tinyProgram_small) [longArgument]
        (caller 8200) := by
  have has : (caller 8200).mem.Has 79 := ⟨rfl, by decide⟩
  obtain ⟨d, m, prepared⟩ := tinyProgram_prepared someKernel has
  refine ⟨longArgument_accepted, ⟨d, m, prepared⟩, ?_⟩
  intro copies
  apply copies.1
  apply exec_lost [] rfl longArgument_accepted prepared
  have size : pushed 0 longArgument = 33570820 := by
    rw [pushed, longArgument, List.length_replicate]
  rw [Lost, size, if_neg (by decide)]
  decide

end Xv6.Vm
