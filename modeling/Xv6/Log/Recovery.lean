import Xv6.Log.Invariant

/-!
Crashes and `recover_from_log`.

Owns: recovery, with a crash possible before each of its disk writes; the fact that it
always completes; and crash atomicity of the log.

Does not own: the state of the disk before the first crash (`Xv6.Log.Commit`).
-/

namespace Xv6.Log

open TransitionSystem
open Function (update update_self update_of_ne)

open Xv6.Bio

inductive RecoveryPc where
  | readHead
  | install (tail : Nat)
  | clear
  | done
deriving DecidableEq, Repr

structure Recovery where
  store : Store
  lh : List Nat
  pc : RecoveryPc

inductive RecoveryAction where
  | step (victim victim' : Fin nbuf)
  | crash
deriving DecidableEq

namespace Recovery

/-- The first process runs `initlog`. -/
def initPid : Pid := 1

/-- A boot starts over, with what is on the disk. -/
def boot (disk : Nat → Block) : Recovery :=
  ⟨Store.boot disk, [], .readHead⟩

def after {α : Type} (outcome : Outcome α) (next : α → Recovery) : Option Recovery :=
  match outcome with
  | .done value => some (next value)
  | _ => none

/-- One step of `recover_from_log`, with at most one disk write. -/
def proceed (layout : Layout) (r : Recovery) (victim victim' : Fin nbuf) : Option Recovery :=
  match r.pc with
  | .readHead =>
    after (readHead r.store initPid layout.start victim) fun got => ⟨got.2, got.1, .install 0⟩
  | .install tail =>
    match r.lh[tail]? with
    | some b =>
      after (installBody r.store initPid (layout.start + tail + 1) b victim victim')
        fun store => ⟨store, r.lh, .install (tail + 1)⟩
    | none => some { r with pc := .clear }
  | .clear =>
    after (writeHead r.store initPid layout.start [] victim) fun store => ⟨store, [], .done⟩
  | .done => none

def step (layout : Layout) (r : Recovery) : RecoveryAction → Option Recovery
  | .step victim victim' => r.proceed layout victim victim'
  | .crash => some (boot r.store.disk)

end Recovery

theorem recovery_after_eq_some {α : Type} {outcome : Outcome α} {next : α → Recovery}
    {r : Recovery} (taken : Recovery.after outcome next = some r) :
    ∃ value, outcome = .done value ∧ next value = r := by
  cases outcome with
  | waits | panics => simp [Recovery.after] at taken
  | done value => exact ⟨value, rfl, Option.some.inj taken⟩

/-! ## What recovery preserves -/

/-- The first `tail` blocks of the log are in their home places. -/
def InstalledUpTo (layout : Layout) (disk : Nat → Block) (lh : List Nat) (tail : Nat) : Prop :=
  ∀ i b, lh[i]? = some b → i < tail → disk b = disk (layout.start + i + 1)

/-- Every home block has its committed content. -/
def Settled (layout : Layout) (disk committed : Nat → Block) : Prop :=
  ∀ b, layout.Home b → disk b = committed b

def RecoveryPoint (layout : Layout) (committed : Nat → Block) (r : Recovery) : Prop :=
  match r.pc with
  | .readHead => True
  | .install tail => r.lh = headBlocks (r.store.disk layout.start) ∧
      InstalledUpTo layout r.store.disk r.lh tail
  | .clear => Settled layout r.store.disk committed
  | .done => headBlocks (r.store.disk layout.start) = [] ∧
      Settled layout r.store.disk committed

structure RecoveryInv (layout : Layout) (committed : Nat → Block) (r : Recovery) : Prop where
  rep : Represents r.store r.store.disk
  clean : ∀ b, ¬r.store.IsDirty b
  free : r.store.Free
  recoverable : Recoverable layout r.store.disk committed
  point : RecoveryPoint layout committed r

variable {layout : Layout} {disk committed : Nat → Block} {b tail : Nat}

theorem Recoverable.ne_start (rec : Recoverable layout disk committed)
    (member : b ∈ headBlocks (disk layout.start)) : layout.start ≠ b := by
  rintro rfl
  exact layout.start_notHome (rec.home _ member)

theorem Recoverable.ne_logBlock (rec : Recoverable layout disk committed)
    (member : b ∈ headBlocks (disk layout.start)) {i : Nat}
    (inside : i < (headBlocks (disk layout.start)).length) : layout.start + i + 1 ≠ b := by
  have room := rec.room
  rintro rfl
  exact layout.logBlock_notHome i (by omega) (rec.home _ member)

/-- Installing a block does not change the log. -/
theorem Recoverable.logEntries_update (rec : Recoverable layout disk committed)
    (member : b ∈ headBlocks (disk layout.start)) (value : Block) :
    logEntries layout (update disk b value) = logEntries layout disk := by
  unfold logEntries
  rw [update_of_ne (rec.ne_start member)]
  apply List.map_congr_left
  intro entry found
  have inside := (List.getElem?_eq_some_iff.mp (List.mem_zipIdx_iff_getElem?.mp found)).1
  simp only
  rw [update_of_ne (rec.ne_logBlock member inside)]

theorem Recoverable.install (rec : Recoverable layout disk committed)
    (member : b ∈ headBlocks (disk layout.start)) (value : Block) :
    Recoverable layout (update disk b value) committed := by
  have header : update disk b value layout.start = disk layout.start :=
    update_of_ne (rec.ne_start member) _ _
  refine ⟨by rw [header]; exact rec.home, by rw [header]; exact rec.nodup,
    by rw [header]; exact rec.room, fun c home => ?_⟩
  rw [rec.logEntries_update member, RedoLog.install_update_of_mem]
  · exact rec.content c home
  · rwa [logEntries_fst]

/-- When every block of the log is in its place, the home blocks are as committed. -/
theorem Recoverable.settled (rec : Recoverable layout disk committed)
    (past : (headBlocks (disk layout.start)).length ≤ tail)
    (installed : InstalledUpTo layout disk (headBlocks (disk layout.start)) tail) :
    Settled layout disk committed := by
  intro b home
  rw [← rec.content b home]
  by_cases member : b ∈ headBlocks (disk layout.start)
  · obtain ⟨i, inside, same⟩ := List.getElem_of_mem member
    have entry : (headBlocks (disk layout.start))[i]? = some b :=
      List.getElem?_eq_some_iff.mpr ⟨inside, same⟩
    rw [installed i b entry (by omega)]
    refine (RedoLog.install_of_mem ?_ (mem_logEntries entry)).symm
    rw [logEntries_fst]
    exact rec.nodup
  · rw [RedoLog.install_of_notMem]
    rwa [logEntries_fst]

theorem Recoverable.of_settled (empty : headBlocks (disk layout.start) = [])
    (settled : Settled layout disk committed) : Recoverable layout disk committed where
  home := by simp [empty]
  nodup := by simp [empty]
  room := by
    rw [empty]
    exact Nat.pos_of_neZero nbuf
  content := by
    intro b home
    simp only [logEntries, empty, List.zipIdx_nil, List.map_nil]
    exact settled b home

theorem InstalledUpTo.next (rec : Recoverable layout disk committed)
    (installed : InstalledUpTo layout disk (headBlocks (disk layout.start)) tail)
    (entry : (headBlocks (disk layout.start))[tail]? = some b) :
    InstalledUpTo layout (update disk b (disk (layout.start + tail + 1)))
      (headBlocks (disk layout.start)) (tail + 1) := by
  have member := List.mem_of_getElem? entry
  intro i c found before
  have inside := (List.getElem?_eq_some_iff.mp found).1
  rw [update_of_ne (rec.ne_logBlock member inside)]
  by_cases last : i = tail
  · rw [last, entry] at found
    rw [← Option.some.inj found, update_self, last]
  · have different : c ≠ b := by
      rintro rfl
      exact last ((List.getElem?_inj inside rec.nodup).mp (found.trans entry.symm))
    rw [update_of_ne different]
    exact installed i c found (by omega)

variable {victim victim' : Fin nbuf} {store : Store}

variable {r r' : Recovery}

theorem RecoveryInv.boot (rec : Recoverable layout disk committed) :
    RecoveryInv layout committed (Recovery.boot disk) where
  rep := Represents.boot disk
  clean := by
    rintro b ⟨i, occupied, _⟩
    simp [Recovery.boot, Store.boot] at occupied
  free := fun _ => rfl
  recoverable := rec
  point := trivial

theorem RecoveryInv.readHead (inv : RecoveryInv layout committed r) {lh : List Nat}
    (done : Log.readHead r.store Recovery.initPid layout.start victim = .done (lh, store)) :
    RecoveryInv layout committed ⟨store, lh, .install 0⟩ := by
  obtain ⟨blocks, rep, disk, dirty⟩ := readHead_blocks inv.rep done
  exact
    { rep := by
        rw [disk]
        exact rep
      clean := fun b isDirty => inv.clean b ((dirty b).mp isDirty)
      free := readHead_free inv.rep inv.free done
      recoverable := by
        rw [disk]
        exact inv.recoverable
      point := by
        refine ⟨?_, fun i b _ before => absurd before (Nat.not_lt_zero i)⟩
        rw [disk]
        exact blocks }

theorem RecoveryInv.install (inv : RecoveryInv layout committed r) {tail b : Nat}
    (place : r.pc = .install tail) (entry : r.lh[tail]? = some b)
    (done : installBody r.store Recovery.initPid (layout.start + tail + 1) b victim victim' =
      .done store) : RecoveryInv layout committed ⟨store, r.lh, .install (tail + 1)⟩ := by
  have point := inv.point
  rw [RecoveryPoint, place] at point
  obtain ⟨same, installed⟩ := point
  rw [same] at entry installed
  have member := List.mem_of_getElem? entry
  have written := installBody_written inv.rep done
  exact
    { rep := by
        rw [written.disk]
        exact written.rep
      clean := fun c isDirty => inv.clean c ((written.dirty c).mp isDirty).2
      free := installBody_free inv.rep inv.free done
      recoverable := by
        rw [written.disk]
        exact inv.recoverable.install member _
      point := by
        have next := installed.next inv.recoverable entry
        rw [RecoveryPoint, written.disk,
          update_of_ne (inv.recoverable.ne_start member), same]
        exact ⟨rfl, next⟩ }

theorem RecoveryInv.installed (inv : RecoveryInv layout committed r) {tail : Nat}
    (place : r.pc = .install tail) (past : r.lh.length ≤ tail) :
    RecoveryInv layout committed { r with pc := .clear } := by
  have point := inv.point
  rw [RecoveryPoint, place] at point
  obtain ⟨same, installed⟩ := point
  rw [same] at installed past
  exact ⟨inv.rep, inv.clean, inv.free, inv.recoverable, inv.recoverable.settled past installed⟩

theorem RecoveryInv.clear (inv : RecoveryInv layout committed r) (place : r.pc = .clear)
    (done : writeHead r.store Recovery.initPid layout.start [] victim = .done store) :
    RecoveryInv layout committed ⟨store, [], .done⟩ := by
  have settled := inv.point
  rw [RecoveryPoint, place] at settled
  have written := writeHead_written inv.rep done
  have header : headBlocks (store.disk layout.start) = [] := by
    rw [written.disk, update_self]
    exact headBlocks_clear _
  have settled' : Settled layout store.disk committed := by
    intro b home
    have different : b ≠ layout.start := by
      intro same
      exact layout.start_notHome (same ▸ home)
    rw [written.disk, update_of_ne different]
    exact settled b home
  exact
    { rep := by
        rw [written.disk]
        exact written.rep
      clean := fun c isDirty => inv.clean c ((written.dirty c).mp isDirty).2
      free := writeHead_free inv.rep inv.free done
      recoverable := Recoverable.of_settled header settled'
      point := ⟨header, settled'⟩ }

theorem RecoveryInv.proceed (inv : RecoveryInv layout committed r)
    (taken : r.proceed layout victim victim' = some r') : RecoveryInv layout committed r' := by
  unfold Recovery.proceed at taken
  split at taken
  · obtain ⟨⟨lh, store⟩, done, rfl⟩ := recovery_after_eq_some taken
    exact inv.readHead done
  · rename_i tail place
    split at taken
    · rename_i b entry
      obtain ⟨store, done, rfl⟩ := recovery_after_eq_some taken
      exact inv.install place entry done
    · rename_i past
      rw [← Option.some.inj taken]
      exact inv.installed place (List.getElem?_eq_none_iff.mp past)
  · rename_i place
    obtain ⟨store, done, rfl⟩ := recovery_after_eq_some taken
    exact inv.clear place done
  · simp at taken

/-- A crash loses nothing that recovery needs. -/
theorem RecoveryInv.step (inv : RecoveryInv layout committed r) {action : RecoveryAction}
    (taken : r.step layout action = some r') : RecoveryInv layout committed r' := by
  cases action with
  | step victim victim' => exact inv.proceed taken
  | crash =>
    rw [← Option.some.inj taken]
    exact RecoveryInv.boot inv.recoverable

/-! ## Recovery completes -/

/-- Some run of recovery, with no crash in it, reaches the end. -/
def Completes (layout : Layout) (r : Recovery) : Prop :=
  ∃ victims r', run
      (fun r (victim : Fin nbuf × Fin nbuf) => r.proceed layout victim.1 victim.2) r victims =
    some r' ∧ r'.pc = .done

theorem Completes.of_proceed (taken : r.proceed layout victim victim' = some r')
    (later : Completes layout r') : Completes layout r := by
  obtain ⟨victims, last, reaches, done⟩ := later
  exact ⟨(victim, victim') :: victims, last, run_cons.mpr ⟨r', taken, reaches⟩,
    done⟩

theorem RecoveryInv.completes_clear (inv : RecoveryInv layout committed r)
    (place : r.pc = .clear) : Completes layout r := by
  have inside := layout.inside
  have size := layout.size_nbuf
  have buffers : nbuf = 30 := rfl
  obtain ⟨store, done⟩ := writeHead_completes (p := Recovery.initPid) [] inv.rep inv.free inv.clean
    (show layout.start < fssize by omega)
  have taken : r.proceed layout 0 0 = some ⟨store, [], .done⟩ := by
    simp [Recovery.proceed, place, done, Recovery.after]
  exact Completes.of_proceed taken ⟨[], _, rfl, rfl⟩

/-- The induction is on the number of blocks still to install. -/
theorem RecoveryInv.completes_install {left tail : Nat} (inv : RecoveryInv layout committed r)
    (place : r.pc = .install tail) (remaining : r.lh.length - tail = left) :
    Completes layout r := by
  induction left generalizing r tail with
  | zero =>
    have past : r.lh.length ≤ tail := by omega
    have taken : r.proceed layout 0 0 = some { r with pc := .clear } := by
      simp [Recovery.proceed, place, List.getElem?_eq_none past]
    exact Completes.of_proceed taken ((inv.installed place past).completes_clear rfl)
  | succ left ih =>
    have inside : tail < r.lh.length := by omega
    have entry : r.lh[tail]? = some r.lh[tail] := List.getElem?_eq_getElem inside
    have point := inv.point
    rw [RecoveryPoint, place] at point
    have same := point.1
    have room := inv.recoverable.room
    have area := layout.inside
    have size := layout.size_nbuf
    have member : r.lh[tail] ∈ headBlocks (r.store.disk layout.start) := by
      rw [← same]
      exact List.getElem_mem inside
    rw [← same] at room
    obtain ⟨victim, victim', store, done⟩ :=
      installBody_completes (p := Recovery.initPid) inv.rep inv.free inv.clean
        (show layout.start + tail + 1 < fssize by omega)
        (inv.recoverable.home _ member).1
        (inv.recoverable.ne_logBlock member (by rw [← same]; exact inside))
    have taken : r.proceed layout victim victim' =
        some ⟨store, r.lh, .install (tail + 1)⟩ := by
      simp [Recovery.proceed, place, entry, done, Recovery.after]
    apply Completes.of_proceed taken
    apply ih (inv.install place entry done) rfl
    show r.lh.length - (tail + 1) = left
    omega

theorem RecoveryInv.completes (inv : RecoveryInv layout committed r) : Completes layout r := by
  have inside := layout.inside
  have size := layout.size_nbuf
  have buffers : nbuf = 30 := rfl
  cases place : r.pc with
  | readHead =>
    obtain ⟨lh, store, done⟩ := readHead_completes (p := Recovery.initPid) inv.rep inv.free
      inv.clean (show layout.start < fssize by omega)
    have taken : r.proceed layout 0 0 = some ⟨store, lh, .install 0⟩ := by
      simp [Recovery.proceed, place, done, Recovery.after]
    exact Completes.of_proceed taken ((inv.readHead done).completes_install rfl rfl)
  | install tail => exact inv.completes_install place rfl
  | clear => exact inv.completes_clear place
  | done => exact ⟨[], r, rfl, place⟩

/-- Crash atomicity. Take any run from a disk with an empty log, cut it at any point, and
let recovery run, crash and run again any number of times. Where recovery has come to its
end, every home block has the content after exactly the operations of the committed
groups, and the log is empty again; recovery can always come to its end; and an operation
that is still open belongs to no committed group. -/
theorem log_crash_atomic {layout : Layout} {disk : Nat → Block} {actions : List Action}
    {s : State} {h : History} {restarts : List RecoveryAction} {r : Recovery}
    (empty : headBlocks (disk layout.start) = [])
    (ran : run (record layout) (State.boot disk, History.empty) actions =
      some (s, h))
    (recovers : run (Recovery.step layout) (Recovery.boot s.store.disk) restarts =
      some r) :
    (r.pc = .done → headBlocks (r.store.disk layout.start) = [] ∧
      ∀ b, layout.Home b →
        r.store.disk b = RedoLog.replay disk (h.applied h.committed) b) ∧
    Completes layout r ∧
    ∀ p, (s.pc p).open = true → h.current p ∉ h.committed := by
  obtain ⟨at_, inv⟩ := LogInv.of_run empty ran
  have recovery : RecoveryInv layout (h.committedContent disk) r :=
    run_invariant (RecoveryInv layout (h.committedContent disk))
      (fun before taken => before.step taken)
      (RecoveryInv.boot inv.holding.recoverable) recovers
  refine ⟨?_, recovery.completes, fun p isOpen => (inv.numbered.current p isOpen).2⟩
  intro done
  have point := recovery.point
  rwa [RecoveryPoint, done] at point

/-- One operation sets every word of block 90 to 1, and its header reaches the disk. -/
def commitOne : List Action :=
  [.beginOp 0, .bread 0 90 0, .modify 0 90 (fun _ _ => 1), .logWrite 0 90, .logAppend 0,
    .brelse 0 90, .endOp 0, .commit 0 1 0, .commit 0 1 0, .commit 0 2 0]

/-- The first recovery crashes after it has read the header. -/
def crashOnce : List RecoveryAction :=
  [.step 0 1, .crash, .step 0 1, .step 1 2, .step 1 2, .step 1 2]

theorem log_crash_atomic_oneBlock :
    ∃ (s : State) (h : History) (r : Recovery),
      run (record .mkfs) (State.boot (fun _ _ => 0), History.empty) commitOne =
        some (s, h) ∧
      run (Recovery.step .mkfs) (Recovery.boot s.store.disk) crashOnce = some r ∧
      s.store.disk 90 0 = 0 ∧ r.store.disk 90 0 = 1 := by
  have ran : (run (record .mkfs) (State.boot (fun _ _ => 0), History.empty)
      commitOne).map (fun recorded => (recorded.1.store.disk 90 0,
        recorded.2.committedContent (fun _ _ => 0) 90 0,
        (run (Recovery.step .mkfs) (Recovery.boot recorded.1.store.disk)
          crashOnce).map Recovery.pc)) = some (0, 1, some .done) := by
    decide +kernel
  obtain ⟨⟨s, h⟩, reaches, same⟩ := Option.map_eq_some_iff.mp ran
  simp only [Prod.mk.injEq] at same
  obtain ⟨before, content, ended⟩ := same
  obtain ⟨r, recovers, done⟩ := Option.map_eq_some_iff.mp ended
  have empty : headBlocks ((fun _ _ => 0 : Nat → Block) Layout.mkfs.start) = [] := by
    decide +kernel
  have atomic := (log_crash_atomic empty reaches recovers).1 done
  have home : Layout.mkfs.Home 90 := by decide
  refine ⟨s, h, r, reaches, recovers, before, ?_⟩
  rw [atomic.2 90 home]
  exact content

end Xv6.Log
