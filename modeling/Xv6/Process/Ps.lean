import Xv6.Process.Invariant

/-!
The process monitor `ps` and the system call it reads the table with.

Owns: `getprocinfo`, the loop of `ps` over the candidate pids with the row it prints for each, and
for which tables the rows are the processes.

Does not own: `printf`. A row is what `ps` hands to it.
-/

namespace Xv6.Process

structure ProcInfo where
  pid : Int
  name : String
  state : Int
  timeslice : Int
  cpuTicks : UInt32
  sleepTicks : UInt32
  ctxSwitches : UInt32
  preemptions : UInt32
deriving DecidableEq, Repr

/-- The value of the C enumeration. -/
def ProcState.toInt : ProcState → Int
  | .unused => 0
  | .embryo => 1
  | .sleeping => 2
  | .runnable => 3
  | .running => 4
  | .zombie => 5

/-- What `getprocinfo` copies out of the slot it finds; `safestrcpy` leaves room for the NUL in the
16 bytes of the name. -/
def ProcInfo.of (p : Proc) : ProcInfo where
  pid := p.pid
  name := String.ofList (p.name.toList.take 15)
  state := p.state.toInt
  timeslice := p.timeslice
  cpuTicks := UInt32.ofNat p.stats.cpuTicks
  sleepTicks := UInt32.ofNat p.stats.sleepTicks
  ctxSwitches := UInt32.ofNat p.stats.ctxSwitches
  preemptions := UInt32.ofNat p.stats.preemptions

/-- `none` is the result -1. -/
def getprocinfo (table : Table) (pid : Int) : Option ProcInfo :=
  (findSlot fun slot => decide ((table slot).pid = pid ∧ (table slot).state ≠ .unused)).map
    fun slot => ProcInfo.of (table slot)

/-- A row of the listing: the arguments of `printf`, as its format shows them. -/
structure Row where
  pid : Int
  name : String
  st : String
  timeslice : Int
  cpuTicks : Int
  sleepTicks : Int
  ctxSwitches : Int
  preemptions : Int
deriving DecidableEq, Repr

def statename (state : Int) : String :=
  if 0 ≤ state ∧ state ≤ 5 then
    ["unused", "embryo", "sleep ", "runble", "run   ", "zombie"].getD state.toNat ""
  else "?     "

/-- An `uint` printed with `%d`. -/
def shown (count : UInt32) : Int :=
  count.toInt32.toInt

def Row.of (info : ProcInfo) : Row where
  pid := info.pid
  name := info.name
  st := statename info.state
  timeslice := info.timeslice
  cpuTicks := shown info.cpuTicks
  sleepTicks := shown info.sleepTicks
  ctxSwitches := shown info.ctxSwitches
  preemptions := shown info.preemptions

/-- `for(int pid = 1; pid <= 64; pid++)` -/
def pids : List Int :=
  (List.range 64).map fun i : Nat => (i : Int) + 1

def ps (table : Table) : List Row :=
  pids.filterMap fun pid => (getprocinfo table pid).map Row.of

/-- The slots `ps` is to show. -/
def used (table : Table) : List Slot :=
  (List.finRange nproc).filter fun slot => decide ((table slot).state ≠ .unused)

/-- The word for a state. -/
def ProcState.text : ProcState → String
  | .unused => "unused"
  | .embryo => "embryo"
  | .sleeping => "sleep "
  | .runnable => "runble"
  | .running => "run   "
  | .zombie => "zombie"

/-- The row is about the process: its pid, 15 characters of its name, its state, quantum and
counters, which are printed as signed numbers of 32 bits. -/
structure Shows (row : Row) (p : Proc) : Prop where
  pid : row.pid = p.pid
  name : row.name = String.ofList (p.name.toList.take 15)
  st : row.st = p.state.text
  timeslice : row.timeslice = p.timeslice
  cpuTicks : row.cpuTicks = (BitVec.ofNat 32 p.stats.cpuTicks).toInt
  sleepTicks : row.sleepTicks = (BitVec.ofNat 32 p.stats.sleepTicks).toInt
  ctxSwitches : row.ctxSwitches = (BitVec.ofNat 32 p.stats.ctxSwitches).toInt
  preemptions : row.preemptions = (BitVec.ofNat 32 p.stats.preemptions).toInt

theorem shows_rowOf (p : Proc) : Shows (Row.of (ProcInfo.of p)) p := by
  refine ⟨rfl, rfl, ?_, rfl, rfl, rfl, rfl, rfl⟩
  show statename p.state.toInt = p.state.text
  cases p.state <;> rfl

variable {ncpu : Nat} {k : Kernel ncpu} {table : Table} {slot : Slot} {pid : Int}

theorem mem_pids : pid ∈ pids ↔ 1 ≤ pid ∧ pid ≤ 64 := by
  simp only [pids, List.mem_map, List.mem_range]
  constructor
  · rintro ⟨i, below, rfl⟩
    omega
  · intro range
    exact ⟨(pid - 1).toNat, by omega, by omega⟩

/-- A row shows the pid that was asked for. -/
theorem pid_of_mem_ps {row : Row} (shown : row ∈ ps table) : row.pid ∈ pids := by
  simp only [ps, getprocinfo, List.mem_filterMap, Option.map_map, Option.map_eq_some_iff] at shown
  obtain ⟨pid, asked, slot, found, rfl⟩ := shown
  rw [← (of_decide_eq_true (findSlot_accepts found)).1] at asked
  exact asked

theorem mem_used : slot ∈ used table ↔ (table slot).state ≠ .unused := by
  simp [used]

/-- The slot whose pid is asked for, where the pids in use are distinct. -/
theorem TableInv.findPid (inv : TableInv k) :
    findSlot (fun slot => decide ((k.proc slot).pid = pid ∧ (k.proc slot).state ≠ .unused)) =
        some slot ↔
      (k.proc slot).pid = pid ∧ (k.proc slot).state ≠ .unused := by
  constructor
  · intro found
    exact of_decide_eq_true (findSlot_accepts found)
  · rintro ⟨rfl, isUsed⟩
    cases found : findSlot fun other =>
        decide ((k.proc other).pid = (k.proc slot).pid ∧ (k.proc other).state ≠ .unused) with
    | none => exact absurd ⟨rfl, isUsed⟩ (of_decide_eq_false (findSlot_none found slot))
    | some other =>
      obtain ⟨same, otherUsed⟩ := of_decide_eq_true (findSlot_accepts found)
      rw [inv.pidDistinct other slot otherUsed isUsed same]

/-- The rows of `ps` are the processes of a reachable table, each once and with its own values,
exactly if no process has a pid above 64. -/
theorem ps_shows_iff (reached : KernelReachable k) :
    (∃ slots, slots.Perm (used k.proc) ∧
      List.Forall₂ (fun row slot => Shows row (k.proc slot)) (ps k.proc) slots) ↔
      ∀ slot, (k.proc slot).state ≠ .unused → (k.proc slot).pid ≤ 64 := by
  have inv := reached.tableInv
  constructor
  · rintro ⟨slots, all, rows⟩ slot isUsed
    obtain ⟨i, inside, isSlot⟩ := List.mem_iff_getElem.mp (all.mem_iff.mpr (mem_used.mpr isUsed))
    have shows := rows.get (rows.length_eq ▸ inside) inside
    have printed := pid_of_mem_ps (List.get_mem (ps k.proc) ⟨i, rows.length_eq ▸ inside⟩)
    rw [shows.pid, List.get_eq_getElem, isSlot] at printed
    exact (mem_pids.mp printed).2
  · intro low
    have rows : ps k.proc = (pids.filterMap fun pid => findSlot fun slot =>
        decide ((k.proc slot).pid = pid ∧ (k.proc slot).state ≠ .unused)).map
          fun slot => Row.of (ProcInfo.of (k.proc slot)) := by
      rw [List.map_filterMap]
      simp only [ps, getprocinfo, Option.map_map]
      rfl
    rw [rows]
    refine ⟨_, ?_, List.forall₂_map_left_iff.mpr (List.forall₂_same.mpr fun _ _ => shows_rowOf _)⟩
    rw [List.perm_ext_iff_of_nodup]
    · intro slot
      simp only [List.mem_filterMap, inv.findPid, mem_used]
      constructor
      · rintro ⟨pid, -, -, isUsed⟩
        exact isUsed
      · intro isUsed
        exact ⟨_, mem_pids.mpr ⟨(inv.pidRange slot isUsed).1, low slot isUsed⟩, rfl, isUsed⟩
    · refine List.Nodup.filterMap ?_ (List.nodup_range.map fun i j same => by omega)
      intro pid pid' slot found found'
      rw [← (inv.findPid.mp found).1, ← (inv.findPid.mp found').1]
    · exact (List.nodup_finRange nproc).filter _

/-- `init` and a child of it. -/
theorem ps_shows_child :
    ∃ k : Kernel 1, (k.proc 1).pid = 2 ∧ ∃ slots, slots.Perm (used k.proc) ∧
      List.Forall₂ (fun row slot => Shows row (k.proc slot)) (ps k.proc) slots := by
  have ran : (TransitionSystem.run Kernel.step (Kernel.boot 1 0 0)
      [.scheduler 0, .forkAlloc 0, .forkKalloc 0 (some 0), .forkCopyuvm 0 true, .forkParent 0,
        .forkFiles 0, .forkFinish 0]).map (fun k => ((k.proc 1).pid,
          decide (∀ slot, (k.proc slot).state ≠ .unused → (k.proc slot).pid ≤ 64))) =
        some (2, true) := by
    decide +kernel
  obtain ⟨k, reaches, same⟩ := Option.map_eq_some_iff.mp ran
  obtain ⟨pid, low⟩ := Prod.mk.inj same
  exact ⟨k, pid, (ps_shows_iff ⟨0, 0, _, reaches⟩).mpr (of_decide_eq_true low)⟩

/-- After 63 calls of `fork` for which there was no memory, the next child has pid 65, and no row
shows it. -/
theorem ps_misses_child :
    ∃ k : Kernel 1, KernelReachable k ∧ (k.proc 1).state = .runnable ∧ (k.proc 1).pid = 65 ∧
      ∀ row ∈ ps k.proc, row.pid ≠ 65 := by
  have ran : (TransitionSystem.run Kernel.step (Kernel.boot 1 0 0)
      (.scheduler 0 :: (List.replicate 63 [.forkAlloc 0, .forkKalloc 0 none, .forkUndo 0]).flatten ++
        [.forkAlloc 0, .forkKalloc 0 (some 0), .forkCopyuvm 0 true, .forkParent 0, .forkFiles 0,
          .forkFinish 0])).map (fun k => ((k.proc 1).state, (k.proc 1).pid)) =
        some (.runnable, 65) := by
    decide +kernel
  obtain ⟨k, reaches, same⟩ := Option.map_eq_some_iff.mp ran
  obtain ⟨runnable, pid⟩ := Prod.mk.inj same
  refine ⟨k, ⟨0, 0, _, reaches⟩, runnable, pid, ?_⟩
  intro row shown same
  have low := (mem_pids.mp (pid_of_mem_ps shown)).2
  omega

end Xv6.Process
