import Xv6.Process.Table
import Xv6.Vm.Resize
import Xv6.Vm.Supply
import Xv6.Vm.UserMem

/-!
Fork.

Owns: `copyuvm`; `allocproc` and `fork` on the process table with the memory they take; that the
child of a successful call has a copy of its parent's memory in pages of its own; and that a
failed call leaves no trace.

Does not own: when the child runs (`Xv6.Process.Kernel`); the counts of references in every
interleaving (`Xv6.Fs.Counts`).

Of `struct proc`, `chan` and `killed` are left out, which neither function reads or writes.
-/

open scoped BigOperators

namespace Xv6.Vm

open Process (Slot ProcState Context PStats nofile defaultQuantum findSlot)

variable {Page : Type} {d : PageDir Page} {page : Page} {pool left : Multiset Page}

/-! ## Copying an address space -/

/-- What `copyuvm` reads of a page: its flags and contents. Where there is none it panics. -/
def PageDir.look (d : PageDir Page) (v : Nat) : Option (Bool × Bool × Contents) :=
  match d.pte v with
  | some (.user _ w u data) => some (w, u, data)
  | _ => none

def copyuvm (k : KernelMap) (parent : PageDir Page) (sz : Nat) (m : Mem Page) :
    Option (Option (PageDir Page) × Mem Page) :=
  match setupkvm k m with
  | none => none
  | some (none, m) => some (none, m)
  | some (some d, m) =>
    match PageDir.fillFrom parent.look (npages sz) 0 d m with
    | none => none
    | some (.done, d, m) => some (some d, m)
    | some (.noPage, d, m) => (d.freevm m).map fun m => (none, m)
    | some (.noTable mem, d, m) => (d.freevm (kfree mem m)).map fun m => (none, m)

/-! ## Processes -/

structure Trapframe where
  eax : Nat
  others : List Nat
deriving DecidableEq, Repr

structure Task (Page : Type) where
  sz : Nat
  pgdir : Option (PageDir Page)
  kstack : Option Page
  state : ProcState
  pid : Int
  parent : Option Slot
  tf : Trapframe
  context : Context
  ofile : Fin nofile → Option Nat
  cwd : Option Nat
  name : String
  timeslice : Int
  ticksUsed : Int
  stats : PStats

structure Kernel (Page : Type) where
  mem : Mem Page
  task : Slot → Task Page
  nextpid : Int
  /-- `ref` of each `struct file`. -/
  fileRef : Nat → Nat
  /-- `ref` of each `struct inode`. -/
  inodeRef : Nat → Nat

namespace Kernel

def setTask (s : Kernel Page) (p : Slot) (task : Task Page) : Kernel Page :=
  { s with task := Function.update s.task p task }

/-- The slot is given back: `state` and `pid` under `ptable.lock`. -/
def giveUp (s : Kernel Page) (p : Slot) : Kernel Page :=
  s.setTask p { s.task p with state := .unused, pid := 0 }

/-- The critical section of `allocproc`. -/
def claim (s : Kernel Page) (p : Slot) : Kernel Page :=
  { s.setTask p
      { s.task p with
        state := .embryo
        pid := s.nextpid
        timeslice := defaultQuantum
        ticksUsed := 0
        stats := PStats.zero } with
    nextpid := s.nextpid + 1 }

def allocproc (s : Kernel Page) : Option Slot × Kernel Page :=
  match findSlot fun p => (s.task p).state = .unused with
  | none => (none, s)
  | some p =>
    let s := s.claim p
    match kalloc s.mem with
    | (none, m) =>
      (none, { s.setTask p { s.task p with kstack := none } with mem := m }.giveUp p)
    | (some kstack, m) =>
      (some p,
        { s.setTask p { s.task p with kstack := some kstack, context := .forkret } with mem := m })

def filedup (s : Kernel Page) (f : Nat) : Kernel Page :=
  { s with fileRef := Function.update s.fileRef f (s.fileRef f + 1) }

def idup (s : Kernel Page) (i : Nat) : Kernel Page :=
  { s with inodeRef := Function.update s.inodeRef i (s.inodeRef i + 1) }

/-- The loop of `fork` over the open files. -/
def copyFiles (cur np : Slot) : List (Fin nofile) → Kernel Page → Kernel Page
  | [], s => s
  | fd :: rest, s =>
    match (s.task cur).ofile fd with
    | none => copyFiles cur np rest s
    | some f =>
      let s := s.filedup f
      copyFiles cur np rest
        (s.setTask np { s.task np with ofile := Function.update (s.task np).ofile fd (some f) })

/-- `fork` once the child has its memory. -/
def finishFork (s : Kernel Page) (cur np : Slot) : Kernel Page :=
  let s := s.setTask np
    { s.task np with
      sz := (s.task cur).sz, parent := some cur, tf := { (s.task cur).tf with eax := 0 } }
  let s := copyFiles cur np (List.finRange nofile) s
  let s := (s.task cur).cwd.elim s s.idup
  s.setTask np
    { s.task np with
      cwd := (s.task cur).cwd
      name := (s.task cur).name
      timeslice := defaultQuantum
      ticksUsed := 0
      stats := PStats.zero
      state := .runnable }

/-- The child's memory could not be copied. -/
def undoFork (s : Kernel Page) (np : Slot) : Kernel Page :=
  let mem := (s.task np).kstack.elim s.mem fun kstack => kfree kstack s.mem
  { s.setTask np { s.task np with pgdir := none, kstack := none } with mem := mem }.giveUp np

def fork (k : KernelMap) (s : Kernel Page) (cur : Slot) : Option (Int × Kernel Page) :=
  match s.allocproc with
  | (none, s) => some (-1, s)
  | (some np, s) =>
    match (s.task cur).pgdir with
    | none => none
    | some parent =>
      match copyuvm k parent (s.task cur).sz s.mem with
      | none => none
      | some (none, m) => some (-1, { s with mem := m }.undoFork np)
      | some (some child, m) =>
        let s := { s.setTask np { s.task np with pgdir := some child } with mem := m }
        some ((s.task np).pid, s.finishFork cur np)

end Kernel

/-! ## The copy -/

/-- A write to a physical page, as an entry shows it. -/
def Pte.poke [DecidableEq Page] (page : Page) (start : Nat) (bytes : List UInt8) : Pte Page → Pte Page
  | .kernel pa w => .kernel pa w
  | .user other w u data =>
    .user other w u (if other = page then data.write start bytes else data)

namespace PageDir

def poke [DecidableEq Page] (d : PageDir Page) (page : Page) (start : Nat) (bytes : List UInt8) :
    PageDir Page :=
  { d with pte := fun v => (d.pte v).map (Pte.poke page start bytes) }

/-- A page that is not mapped can be written unseen. -/
theorem poke_of_unmapped [DecidableEq Page]
    (unmapped : ∀ v other w u data, d.pte v = some (.user other w u data) → other ≠ page)
    (start : Nat) (bytes : List UInt8) : d.poke page start bytes = d := by
  have entries : (fun v => (d.pte v).map (Pte.poke page start bytes)) = d.pte := by
    funext v
    cases entry : d.pte v with
    | none => rfl
    | some pte =>
      cases pte with
      | kernel pa w => rfl
      | user other w u data =>
        rw [Option.map_some, Pte.poke, if_neg (unmapped v other w u data entry)]
  unfold poke
  rw [entries]

/-- The same contents and flags at every page of the first `sz` bytes, and nothing above. -/
structure CopyOf (parent child : PageDir Page) (sz : Nat) : Prop where
  same : ∀ v, v < npages sz → ∃ page page' w u data,
    parent.pte v = some (.user page w u data) ∧ child.pte v = some (.user page' w u data)
  above : ∀ v, npages sz ≤ v → v < kernpage → child.pte v = none

/-- Whatever is written through one of the page tables, the other one does not show. -/
def Isolated [DecidableEq Page] (d d' : PageDir Page) : Prop :=
  ∀ v page w u data, d.pte v = some (.user page w u data) →
    ∀ start bytes, d'.poke page start bytes = d'

theorem exists_pages (wf : d.Wf) {v : Nat} {w u : Bool} {data : Contents}
    (entry : d.pte v = some (.user page w u data)) : ∃ rest, d.pages = {page} + rest := by
  have inside : v ∈ Finset.range vpages := by
    have user : v < kernpage := wf.kernel v page w u data entry
    have high : kernpage ≤ vpages := by decide
    rw [Finset.mem_range]
    omega
  have split := Finset.add_sum_erase (Finset.range vpages) (fun v => mapped (d.pte v)) inside
  refine ⟨{d.page} + d.tables + ∑ x ∈ (Finset.range vpages).erase v, mapped (d.pte x), ?_⟩
  rw [pages_eq, PageDir.data, ← split, entry]
  exact add_left_comm _ _ _

theorem twice_le (page : Page) (a b c : Multiset Page) :
    page ::ₘ page ::ₘ 0 ≤ a + ({page} + b) + ({page} + c) := by
  have regroup : a + ({page} + b) + ({page} + c) = {page} + {page} + (a + b + c) := by
    ac_rfl
  rw [regroup]
  exact Multiset.le_add_right _ _

/-- Pages from different places are different. -/
theorem pages_apart {d' : PageDir Page} (distinct : Distinct (pool + d.pages)) (wf : d.Wf)
    (wf' : d'.Wf) (kept : left + d'.pages = pool) {v v' : Nat} {page' : Page} {w u w' u' : Bool}
    {data data' : Contents} (entry : d.pte v = some (.user page w u data))
    (entry' : d'.pte v' = some (.user page' w' u' data')) : page ≠ page' := by
  rintro rfl
  obtain ⟨rest, pages⟩ := exists_pages wf entry
  obtain ⟨rest', pages'⟩ := exists_pages wf' entry'
  apply distinct page
  rw [← kept, pages, pages']
  exact twice_le page left rest' rest

theorem isolated_of_distinct [DecidableEq Page] {d' : PageDir Page}
    (distinct : Distinct (pool + d.pages)) (wf : d.Wf) (wf' : d'.Wf) (kept : left + d'.pages = pool) :
    Isolated d d' ∧ Isolated d' d := by
  constructor
  · intro v page w u data entry start bytes
    refine poke_of_unmapped ?_ start bytes
    intro v' other w' u' data' entry' same
    exact pages_apart distinct wf wf' kept entry entry' same.symm
  · intro v page w u data entry start bytes
    refine poke_of_unmapped ?_ start bytes
    intro v' other w' u' data' entry' same
    exact pages_apart distinct wf wf' kept entry' entry same

end PageDir

theorem copyuvm_cases (k : KernelMap) {parent : PageDir Page} {sz : Nat} (user : sz ≤ kernbase)
    (present : ∀ v, v < npages sz → ∃ page w u data, parent.pte v = some (.user page w u data))
    (m : Mem Page) :
    (∃ m', copyuvm k parent sz m = some (none, m') ∧ m'.pool = m.pool) ∨
      ∃ child m', copyuvm k parent sz m = some (some child, m') ∧ child.Wf ∧
        parent.CopyOf child sz ∧ m'.pool + child.pages = m.pool := by
  unfold copyuvm
  rcases setupkvm_cases k m with ⟨m₁, failed, same⟩ | ⟨d, m₁, made, wf, bare, kept⟩
  · rw [failed]
    exact .inl ⟨m₁, rfl, same⟩
  rw [made]
  dsimp only
  have bound := PageDir.npages_le_kernpage user
  have found : ∀ u, 0 ≤ u → u < 0 + npages sz →
      parent.look u = some ((parent.look u).getD (true, true, fun _ => 0)) := by
    intro u _ inside
    obtain ⟨page, w, us, data, entry⟩ := present u (by omega)
    rw [PageDir.look, entry]
    rfl
  obtain ⟨out, d', m', ran, wf', _, others, kept', all⟩ :=
    PageDir.fillFrom_spec _ wf (show 0 + npages sz ≤ kernpage by omega) found
      (fun u _ inside => bare.empty u (by omega)) m₁
  rw [ran]
  rw [kept] at kept'
  cases out with
  | done =>
    obtain ⟨page, copied⟩ := all rfl
    rw [PageDir.inHand, add_zero] at kept'
    refine .inr ⟨d', m', rfl, wf', ⟨?_, ?_⟩, kept'⟩
    · intro v inside
      obtain ⟨page', w, u, data, entry⟩ := present v inside
      refine ⟨page', page v, w, u, data, entry, ?_⟩
      rw [copied.pte, if_pos ⟨Nat.zero_le v, by omega⟩, PageDir.filled, PageDir.look, entry]
      rfl
    · intro v past below
      rw [copied.pte, if_neg (by omega)]
      exact bare.empty v below
  | noPage =>
    obtain ⟨m₂, freed, pool⟩ := PageDir.freevm_spec wf' m'
    rw [PageDir.inHand, add_zero] at kept'
    refine .inl ⟨m₂, ?_, pool.trans kept'⟩
    simp only [freed, Option.map_some]
  | noTable mem =>
    obtain ⟨m₂, freed, pool⟩ := PageDir.freevm_spec wf' (kfree mem m')
    refine .inl ⟨m₂, ?_, ?_⟩
    · simp only [freed, Option.map_some]
    · rw [pool, pool_kfree]
      exact kept'

/-- `copyuvm` succeeds if it has enough pages. -/
theorem copyuvm_of_has (k : KernelMap) {parent : PageDir Page} {sz n : Nat} (user : sz ≤ kernbase)
    (present : ∀ v, v < npages sz → ∃ page w u data, parent.pte v = some (.user page w u data))
    {m : Mem Page} (has : m.Has (n + 2 * npages sz + 73)) :
    ∃ child m', copyuvm k parent sz m = some (some child, m') := by
  obtain ⟨d, m₁, made, left⟩ := setupkvm_of_has k has
  rcases setupkvm_cases k m with ⟨_, failed, _⟩ | ⟨_, _, made', wf, bare, _⟩
  · cases made.symm.trans failed
  cases made.symm.trans made'
  have bound := PageDir.npages_le_kernpage user
  obtain ⟨d', m', filled, _⟩ := PageDir.fillFrom_of_has parent.look wf
    (show 0 + npages sz ≤ kernpage by omega) (fun u _ inside => by
      obtain ⟨page, w, us, data, entry⟩ := present u (by omega)
      rw [PageDir.look, entry]
      rfl) (fun u _ inside => bare.empty u (by omega)) left
  refine ⟨d', m', ?_⟩
  rw [copyuvm, made]
  dsimp only
  rw [filled]

variable {s s' : Kernel Page} {np : Slot}

/-! ## The call -/

namespace Kernel

/-- A failed call: what was taken is given back, and the unused slot that `allocproc` had found is
unused again. -/
structure Undone (s s' : Kernel Page) (np : Slot) : Prop where
  pool : s'.mem.pool = s.mem.pool
  files : s'.fileRef = s.fileRef
  inodes : s'.inodeRef = s.inodeRef
  before : (s.task np).state = .unused
  state : (s'.task np).state = .unused
  pid : (s'.task np).pid = 0
  kstack : (s'.task np).kstack = none
  others : ∀ p, p ≠ np → s'.task p = s.task p

/-- The slot `np` is being made a process, on a kernel stack of its own. -/
structure Embryo (s s' : Kernel Page) (np : Slot) (stack : Page) : Prop where
  unused : (s.task np).state = .unused
  pid : (s'.task np).pid = s.nextpid
  kstack : (s'.task np).kstack = some stack
  others : ∀ p, p ≠ np → s'.task p = s.task p
  files : s'.fileRef = s.fileRef
  inodes : s'.inodeRef = s.inodeRef
  pool : s.mem.pool = s'.mem.pool + {stack}

theorem allocproc_cases (s : Kernel Page) :
    (∃ s', s.allocproc = (none, s') ∧ (s' = s ∨ ∃ np, Undone s s' np)) ∨
      ∃ np kstack s', s.allocproc = (some np, s') ∧ Embryo s s' np kstack := by
  unfold allocproc
  cases found : findSlot fun p => decide ((s.task p).state = .unused) with
  | none => exact .inl ⟨s, rfl, .inl rfl⟩
  | some np =>
    have unused : (s.task np).state = .unused :=
      of_decide_eq_true (Process.findSlot_accepts found)
    dsimp only
    rcases kalloc_cases (s.claim np).mem with ⟨m, taken, pool⟩ | ⟨kstack, m, taken, pool⟩
    · rw [taken]
      refine .inl ⟨_, rfl, .inr ⟨np, pool, rfl, rfl, unused, ?_, ?_, ?_, ?_⟩⟩
      · simp [giveUp, setTask]
      · simp [giveUp, setTask]
      · simp [giveUp, setTask]
      · intro p different
        simp [giveUp, setTask, claim, different]
    · rw [taken]
      refine .inr ⟨np, kstack, _, rfl, unused, ?_, ?_, ?_, rfl, rfl, pool⟩
      · simp [setTask, claim]
      · simp [setTask]
      · intro p different
        simp [setTask, claim, different]

/-- What the later steps of a successful `fork` leave alone. -/
structure Frame (s s' : Kernel Page) (np : Slot) : Prop where
  mem : s'.mem = s.mem
  pgdir : (s'.task np).pgdir = (s.task np).pgdir
  sz : (s'.task np).sz = (s.task np).sz
  others : ∀ p, p ≠ np → s'.task p = s.task p

theorem Frame.trans {s'' : Kernel Page} (first : Frame s s' np) (second : Frame s' s'' np) :
    Frame s s'' np :=
  ⟨second.mem.trans first.mem, second.pgdir.trans first.pgdir, second.sz.trans first.sz,
    fun p different => (second.others p different).trans (first.others p different)⟩

theorem Frame.of_setTask {task : Task Page} (tasks : s'.task = s.task) (mem : s'.mem = s.mem)
    (pgdir : task.pgdir = (s.task np).pgdir) (sz : task.sz = (s.task np).sz) :
    Frame s (s'.setTask np task) np := by
  refine ⟨mem, ?_, ?_, ?_⟩
  · simp [setTask, pgdir]
  · simp [setTask, sz]
  · intro p different
    simp [setTask, different, tasks]

theorem copyFiles_frame (cur np : Slot) (fds : List (Fin nofile)) (s : Kernel Page) :
    Frame s (copyFiles cur np fds s) np := by
  induction fds generalizing s with
  | nil => exact ⟨rfl, rfl, rfl, fun _ _ => rfl⟩
  | cons fd rest ih =>
    rw [copyFiles]
    cases (s.task cur).ofile fd with
    | none => exact ih s
    | some f =>
      refine Frame.trans ?_ (ih _)
      exact Frame.of_setTask rfl rfl rfl rfl

theorem finishFork_frame (s : Kernel Page) (cur np : Slot) :
    Frame (s.setTask np { s.task np with sz := (s.task cur).sz }) (s.finishFork cur np) np := by
  have parted : Frame (s.setTask np { s.task np with sz := (s.task cur).sz })
      (s.setTask np { s.task np with
        sz := (s.task cur).sz, parent := some cur, tf := { (s.task cur).tf with eax := 0 } }) np := by
    refine ⟨rfl, ?_, ?_, ?_⟩
    · simp [setTask]
    · simp [setTask]
    · intro p different
      simp [setTask, different]
  have dup (t : Kernel Page) (cwd : Option Nat) :
      (cwd.elim t t.idup).task = t.task ∧ (cwd.elim t t.idup).mem = t.mem := by
    cases cwd with
    | none | some => exact ⟨rfl, rfl⟩
  unfold finishFork
  refine (parted.trans (copyFiles_frame cur np (List.finRange nofile) _)).trans ?_
  refine Frame.of_setTask (dup _ _).1 (dup _ _).2 ?_ ?_
  · exact congrArg (fun task => (task np).pgdir) (dup _ _).1
  · exact congrArg (fun task => (task np).sz) (dup _ _).1

theorem undoFork_undone {kstack : Page} {m : Mem Page} (embryo : Embryo s s' np kstack)
    (pool : m.pool = s'.mem.pool) : Undone s ({ s' with mem := m }.undoFork np) np := by
  refine ⟨?_, embryo.files, embryo.inodes, embryo.unused, ?_, ?_, ?_, ?_⟩
  · have given : ({ s' with mem := m }.undoFork np).mem = kfree kstack m := by
      simp [undoFork, giveUp, setTask, embryo.kstack]
    rw [given, pool_kfree, pool]
    exact embryo.pool.symm
  · simp [undoFork, giveUp, setTask]
  · simp [undoFork, giveUp, setTask]
  · simp [undoFork, giveUp, setTask]
  · intro p different
    simp [undoFork, giveUp, setTask, different, embryo.others p different]

/-- The child `np` of a successful call, with the page table that `copyuvm` has made. -/
structure Child [DecidableEq Page] (s s' : Kernel Page) (cur np : Slot)
    (parent child : PageDir Page) : Prop where
  before : (s.task np).state = .unused
  others : ∀ p, p ≠ np → s'.task p = s.task p
  pgdir : (s'.task np).pgdir = some child
  sz : (s'.task np).sz = (s.task cur).sz
  copy : parent.CopyOf child (s.task cur).sz
  outward : parent.Isolated child
  inward : child.Isolated parent

/-- Whichever allocations fail, `fork` returns. If `allocproc` has a slot, `copyuvm` decides: when
it succeeds the child has a copy of the memory in pages of its own, and when it fails there is no
trace of the call. -/
theorem fork_copies_or_undoes [DecidableEq Page] (k : KernelMap) (s : Kernel Page) (cur : Slot)
    {parent : PageDir Page} (used : (s.task cur).state ≠ .unused)
    (pgdir : (s.task cur).pgdir = some parent) (wf : parent.Wf)
    (user : (s.task cur).sz ≤ kernbase)
    (present : ∀ v, v < npages (s.task cur).sz →
      ∃ page w u data, parent.pte v = some (.user page w u data))
    (distinct : Distinct (s.mem.pool + parent.pages)) :
    (∀ s₁, s.allocproc = (none, s₁) → s.fork k cur = some (-1, s₁) ∧
      (s₁ = s ∨ ∃ np, Undone s s₁ np ∧ s₁.task cur = s.task cur)) ∧
    ∀ np s₁, s.allocproc = (some np, s₁) →
      ∃ made m s', copyuvm k parent (s.task cur).sz s₁.mem = some (made, m) ∧
        s'.task cur = s.task cur ∧
        match made with
        | none => s.fork k cur = some (-1, s') ∧ Undone s s' np
        | some child => s.fork k cur = some (s.nextpid, s') ∧ Child s s' cur np parent child := by
  have apart {np : Slot} (unused : (s.task np).state = .unused) : cur ≠ np := by
    rintro rfl
    exact used unused
  unfold fork
  rcases s.allocproc_cases with ⟨s₁, failed, undone⟩ | ⟨np, kstack, s₁, taken, embryo⟩
  · rw [failed]
    refine ⟨?_, fun _ _ impossible => by cases impossible⟩
    rintro _ ⟨⟩
    refine ⟨rfl, undone.imp_right ?_⟩
    rintro ⟨np, undone⟩
    exact ⟨np, undone, undone.others cur (apart undone.before)⟩
  rw [taken]
  refine ⟨(fun _ impossible => by cases impossible), ?_⟩
  rintro _ _ ⟨⟩
  have different := apart embryo.unused
  have same := embryo.others cur different
  dsimp only
  rw [same, pgdir]
  dsimp only
  rcases copyuvm_cases k user present s₁.mem with
    ⟨m, failed, pool⟩ | ⟨child, m, copied, childWf, copy, pool⟩
  · rw [failed]
    refine ⟨none, m, _, rfl, ?_, rfl, undoFork_undone embryo pool⟩
    simp [undoFork, giveUp, setTask, different, same]
  · rw [copied]
    have frame := finishFork_frame
      { s₁.setTask np { s₁.task np with pgdir := some child } with mem := m } cur np
    have others : ∀ p, p ≠ np → (Kernel.finishFork
        { s₁.setTask np { s₁.task np with pgdir := some child } with mem := m } cur np).task p =
          s.task p := by
      intro p distinctSlots
      rw [frame.others p distinctSlots]
      simp [setTask, distinctSlots, embryo.others p distinctSlots]
    have kept : m.pool + {kstack} + child.pages = s.mem.pool := by
      rw [embryo.pool, ← pool]
      exact add_right_comm _ _ _
    obtain ⟨outward, inward⟩ := PageDir.isolated_of_distinct distinct wf childWf kept
    refine ⟨some child, m, _, rfl, others cur different, ?_, embryo.unused, others, ?_, ?_,
      copy, outward, inward⟩
    · simp [setTask, embryo.pid]
    · rw [frame.pgdir]
      simp [setTask]
    · rw [frame.sz]
      simp [setTask, different, same]

/-! ## A process of one page -/

theorem onePage_pages : onePage.pages = {0} + {1} + {2} := by
  have tables : onePage.tables = {1} :=
    (Finset.sum_eq_single 0 (fun i _ different => congrArg one (if_neg different))
      (fun missing => absurd (Finset.mem_range.mpr (by decide)) missing)).trans rfl
  have data : onePage.data = {2} :=
    (Finset.sum_eq_single 0 (fun v _ different => congrArg PageDir.mapped (if_neg different))
      (fun missing => absurd (Finset.mem_range.mpr (by decide)) missing)).trans rfl
  rw [PageDir.pages_eq, tables, data]
  rfl

def onePageTask : Task Nat where
  sz := 1
  pgdir := some onePage
  kstack := some 3
  state := .running
  pid := 1
  parent := none
  tf := ⟨0, []⟩
  context := .forkret
  ofile := fun _ => none
  cwd := some 0
  name := "init"
  timeslice := defaultQuantum
  ticksUsed := 0
  stats := PStats.zero

def onePageKernel (mem : Mem Nat) : Kernel Nat where
  mem := mem
  task := fun p => if p = 0 then onePageTask else { onePageTask with state := .unused, pid := 0 }
  nextpid := 2
  fileRef := fun _ => 0
  inodeRef := fun _ => 1

theorem onePage_present (v : Nat) (inside : v < npages onePageTask.sz) :
    ∃ page w u data, onePage.pte v = some (.user page w u data) := by
  have isZero : v = 0 := by
    have one_ : npages onePageTask.sz = 1 := by decide
    omega
  subst isZero
  exact ⟨2, true, true, _, rfl⟩

/-- With 76 pages free the call succeeds. When other processes have all pages after the kernel
stack, it fails. -/
theorem fork_onePageKernel :
    (∃ child s', (onePageKernel ⟨List.range' 4 76, []⟩).fork ⟨257, by decide, by decide⟩ 0 =
      some (2, s') ∧ Child (onePageKernel ⟨List.range' 4 76, []⟩) s' 0 1 onePage child) ∧
    ∃ s', (onePageKernel ⟨[4, 5, 6], [false, true]⟩).fork ⟨257, by decide, by decide⟩ 0 =
      some (-1, s') ∧ Undone (onePageKernel ⟨[4, 5, 6], [false, true]⟩) s' 1 := by
  have used (mem : Mem Nat) : ((onePageKernel mem).task 0).state ≠ .unused := by
    intro unused
    cases unused
  constructor
  · obtain ⟨made, m, s', copied, -, forked⟩ := (fork_copies_or_undoes ⟨257, by decide, by decide⟩
      (onePageKernel ⟨List.range' 4 76, []⟩) 0 (used _) rfl onePage_wf (by decide) onePage_present
      (by
        rw [onePage_pages]
        exact Multiset.nodup_iff_le.mp (by decide))).2 1 _ rfl
    obtain ⟨child, m', copied'⟩ := copyuvm_of_has (n := 0) ⟨257, by decide, by decide⟩
      (show onePageTask.sz ≤ kernbase by decide) onePage_present
      (m := ⟨List.range' 5 75, []⟩) ⟨rfl, by decide⟩
    cases copied'.symm.trans copied
    exact ⟨child, s', forked⟩
  · obtain ⟨made, m, s', copied, -, forked⟩ := (fork_copies_or_undoes ⟨257, by decide, by decide⟩
      (onePageKernel ⟨[4, 5, 6], [false, true]⟩) 0 (used _) rfl onePage_wf (by decide) onePage_present
      (by
        rw [onePage_pages]
        exact Multiset.nodup_iff_le.mp (by decide))).2 1 _ rfl
    cases copied
    exact ⟨s', forked⟩

end Kernel

end Xv6.Vm
