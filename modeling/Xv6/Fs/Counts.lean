import Xv6.Fs.FileCounts

/-!
Counts of references.

Owns: the invariant that the count of every inode and pipe end is the number of its holders, a
process in the middle of a call being a holder of what its variables hold; what a process knows
of its own entry; and that every operation keeps both.

Does not own: which operations the calls perform.
-/

open Tally (hits hits_none hits_self hits_other)

namespace Xv6.Fs

open Function (update update_self update_of_ne update_eq_self)

variable {n : Nat} {s next : State n} {held : Fin n → Refs n} {p q : Fin n} {a : Refs n} {i : Inum}
  {proc : Proc} {o : Op n} {answer : o.Ret} {f : FileNo}

/-! ## What the files refer to -/

/-- The files of which `view` gives `x`: those on an inode, or those on an end of a pipe. -/
def filesOn {α : Type} [DecidableEq α] (view : FileKind → Option α) (file : FileNo → File) (x : α) : Nat :=
  ∑ f, hits (view (file f).kind) x

section FilesOn

variable {α : Type} [DecidableEq α] (view : FileKind → Option α) (x : α)

theorem filesOn_set (s : State n) (f : FileNo) (file : File) :
    filesOn view (s.setFile f file).file x + hits (view (s.file f).kind) x =
      filesOn view s.file x + hits (view file.kind) x :=
  Tally.sum_update (fun file : File => hits (view file.kind) x) s.file f file

theorem filesOn_sameKind (f : FileNo) (ref : Nat) :
    filesOn view (s.setFile f { s.file f with ref := ref }).file x = filesOn view s.file x := by
  exact Nat.add_right_cancel (filesOn_set view x s f { s.file f with ref := ref })

end FilesOn

/-! ## Inodes -/

/-- The references of one process to an inode. -/
def inodeHolds (proc : Proc) (a : Refs n) (i : Inum) : Nat :=
  a.inodes.count i + hits a.dying i + hits (cond a.staleCwd none proc.cwd) i

structure InodeInv (s : State n) (held : Fin n → Refs n) : Prop where
  ref : ∀ i, s.ref i = filesOn FileKind.ip s.file i + ∑ p, inodeHolds (s.proc p) (held p) i

/-- A step that sets entries of the table but no current directory. -/
theorem setProc_cwd (same : proc.cwd = (s.proc q).cwd) (r : Fin n) :
    ((s.setProc q proc).proc r).cwd = (s.proc r).cwd := by
  by_cases isSelf : r = q
  · rw [isSelf, setProc_self, same]
  · rw [setProc_other isSelf]

namespace InodeInv

variable (inv : InodeInv s held)

include inv

theorem change (others : ∀ q, q ≠ p → (next.proc q).cwd = (s.proc q).cwd)
    (tally : ∀ i, next.ref i + filesOn FileKind.ip s.file i + inodeHolds (s.proc p) (held p) i =
      s.ref i + filesOn FileKind.ip next.file i + inodeHolds (next.proc p) a i) :
    InodeInv next (update held p a) := by
  refine ⟨?_⟩
  intro i
  have same : ∀ q, q ≠ p → inodeHolds (next.proc q) (update held p a q) i =
      inodeHolds (s.proc q) (held q) i := by
    intro q other
    unfold inodeHolds
    rw [update_of_ne other, others q other]
  have changed := Tally.sum_change p same
  have before := inv.ref i
  have self := tally i
  rw [update_self] at changed
  omega

/-- Nothing changes that has to do with the counts of inodes. -/
theorem frame (proc : ∀ q, (next.proc q).cwd = (s.proc q).cwd)
    (ref : next.ref = s.ref)
    (files : ∀ i, filesOn FileKind.ip next.file i = filesOn FileKind.ip s.file i)
    (inodes : a.inodes = (held p).inodes) (dying : a.dying = (held p).dying)
    (stale : a.staleCwd = (held p).staleCwd) : InodeInv next (update held p a) := by
  refine inv.change (fun q _ => proc q) ?_
  intro i
  unfold inodeHolds
  rw [ref, files, proc, inodes, dying, stale]

theorem holds_le (q : Fin n) (i : Inum) :
    inodeHolds (s.proc q) (held q) i ≤ s.ref i := by
  have bound := Tally.le_sum (fun r => inodeHolds (s.proc r) (held r) i) q
  have counted := inv.ref i
  omega

/-- A reference is added to an inode and to the variables of a process. -/
theorem take (proc : next.proc = s.proc)
    (file : next.file = s.file) (ref : next.ref = update s.ref i (s.ref i + 1)) :
    InodeInv next (update held p { held p with inodes := i ::ₘ (held p).inodes }) := by
  refine inv.change (fun q _ => by rw [proc]) ?_
  intro j
  have counted : (i ::ₘ (held p).inodes).count j = (held p).inodes.count j + hits (some i) j :=
    count_cons (some i) _ j
  simp only [inodeHolds, proc, file, ref, counted, Tally.update_succ]
  omega

theorem putRef (needs : (held p).dying = some i ∨ (held p).dying = none ∧ i ∈ (held p).inodes) :
    InodeInv (s.setRef i (s.ref i - 1)) (update held p ((held p).dropped i)) := by
  have tally (j : Inum) : inodeHolds (s.proc p) ((held p).dropped i) j + hits (some i) j =
      inodeHolds (s.proc p) (held p) j := by
    cases needs with
    | inl dying =>
      simp only [inodeHolds, Refs.dropped, dying, Option.isSome_some, if_true, hits_none]
      omega
    | inr kept =>
      have erased := count_erase kept.2 j
      simp only [inodeHolds, Refs.dropped, kept.1, Option.isSome_none, Bool.false_eq_true,
        if_false, hits_none]
      omega
  have positive : 0 < s.ref i := by
    have self := tally i
    have bound := inv.holds_le p i
    rw [hits_self] at self
    omega
  refine inv.change (fun _ _ => rfl) ?_
  intro j
  have self := tally j
  have counted : (s.setRef i (s.ref i - 1)).ref j + hits (some i) j = s.ref j :=
    Tally.update_pred positive j
  dsimp only [State.setRef] at counted ⊢
  omega

/-- `fork` gives its directory to the child. -/
theorem setChildCwd {c : Fin n} (different : c ≠ p)
    (idle : held c = .idle) (empty : (s.proc c).cwd = none) (member : i ∈ (held p).inodes) :
    InodeInv (s.setProc c { s.proc c with cwd := some i })
      (update held p ((held p).gaveCwd i)) := by
  refine ⟨?_⟩
  intro j
  have others : ∀ q, q ≠ p → q ≠ c →
      inodeHolds ((s.setProc c { s.proc c with cwd := some i }).proc q)
        (update held p ((held p).gaveCwd i) q) j = inodeHolds (s.proc q) (held q) j := by
    intro q notSelf notChild
    rw [setProc_other notChild, update_of_ne notSelf]
  have changed := Tally.sum_change_two (Ne.symm different) others
  rw [setProc_self, setProc_other (Ne.symm different), update_self,
    update_of_ne different, idle] at changed
  have self : inodeHolds (s.proc p) ((held p).gaveCwd i) j + hits (some i) j =
      inodeHolds (s.proc p) (held p) j := by
    have erased := count_erase member j
    simp only [inodeHolds, Refs.gaveCwd]
    omega
  have child : inodeHolds { s.proc c with cwd := some i } (.idle : Refs n) j =
      inodeHolds (s.proc c) (.idle : Refs n) j + hits (some i) j := by
    simp only [inodeHolds, Refs.idle, empty, cond_false, hits_none, Multiset.count_zero,
      Nat.zero_add]
  have before := inv.ref j
  dsimp only [State.setProc] at changed child ⊢
  omega

theorem step (slots : ProcInv s held) (files : FileInv s held)
    (live : (s.proc p).phase = .live) (needs : (held p).pre o) (executed : Exec s p o answer next) :
    InodeInv next (update held p ((held p).change o answer)) := by
  cases executed
  case igetNew i uncached =>
    refine inv.take rfl rfl ?_
    rw [uncached]
    rfl
  case igetOld | idup => exact inv.take rfl rfl rfl
  case putRef i => exact inv.putRef needs
  case ifree i owner =>
    refine inv.change (fun _ _ => rfl) ?_
    intro j
    have erased := count_erase needs.1 j
    simp only [inodeHolds, Refs.change, needs.2, State.setInode, State.setValid, hits_none]
    omega
  case fileallocFound f free | filedup f used | dropFileMore f more =>
    exact inv.frame (fun _ => rfl) rfl (fun i => filesOn_sameKind _ i f _) rfl rfl rfl
  case dropFileLast f last =>
    refine inv.change (fun _ _ => rfl) ?_
    intro j
    have changed := filesOn_set FileKind.ip j s f ⟨0, .none⟩
    simp only [inodeHolds, Refs.change, Refs.closing, count_cons, Option.bind_some]
    rw [show FileKind.ip .none = none from rfl, hits_none] at changed
    simp only [State.setFile] at changed ⊢
    omega
  case setFile f kind =>
    refine inv.change (fun _ _ => rfl) ?_
    intro j
    have changed := filesOn_set FileKind.ip j s f { s.file f with kind := kind }
    have erased := count_without needs.2.1 j
    rw [files.blank p f needs.1, show FileKind.ip .none = none from rfl, hits_none] at changed
    simp only [inodeHolds, Refs.change, Refs.filled, State.setFile] at changed ⊢
    omega
  case oldCwd i cwd =>
    refine inv.change (fun _ _ => rfl) ?_
    intro j
    have notStale : (held p).staleCwd = false := needs
    have counted : (i ::ₘ (held p).inodes).count j = (held p).inodes.count j + hits (some i) j :=
      count_cons (some i) _ j
    simp only [inodeHolds, Refs.change, cwd, notStale, cond_false, cond_true, hits_none, counted]
    omega
  case setCwd cwd =>
    refine inv.change (fun q other => by rw [setProc_other other]) ?_
    intro j
    have erased := count_without needs.2 j
    rw [setProc_self]
    simp only [inodeHolds, Refs.change, Refs.moved, needs.1, cond_false, cond_true, hits_none,
      State.setProc]
    omega
  case setChildCwd c i =>
    obtain ⟨fds, isChild, member⟩ := needs
    exact inv.setChildCwd (not_self live (slots.dead isChild)) (slots.asleep (slots.dead isChild))
      ((slots.child p c fds false isChild).cwd rfl) member
  case leave =>
    refine inv.frame (setProc_cwd rfl) rfl (fun _ => rfl) ?_ ?_ ?_
    · exact needs.1.inodes.symm
    · exact needs.1.dying.symm
    · exact needs.1.staleCwd.symm
  case fdallocFound | clearFd | allocprocFound | setChildFd | startChild | dropChild =>
    exact inv.frame (setProc_cwd rfl) rfl (fun _ => rfl) rfl rfl rfl
  all_goals exact inv.frame (fun _ => rfl) rfl (fun _ => rfl) rfl rfl rfl

end InodeInv

/-! ## Pipes -/

namespace PipeEnds

/-- One end, by the `writable` that closes it. -/
def isOpen (ends : PipeEnds) (writable : Bool) : Bool :=
  cond writable ends.writeopen ends.readopen

def allClosed (ends : PipeEnds) : Bool :=
  !ends.readopen && !ends.writeopen

end PipeEnds

/-- The times that the page of a pipe is to be freed. -/
def State.due (s : State n) (q : PipeNo) : Nat :=
  (decide (q < s.npipes) && (s.pipe q).allClosed).toNat

structure PipeInv (s : State n) (held : Fin n → Refs n) : Prop where
  /-- An open end has one holder. -/
  ends : ∀ e, ((s.pipe e.1).isOpen e.2).toNat =
    filesOn FileKind.pipeEnd s.file e + ∑ p, (held p).ends.count e
  /-- The page of a closed pipe is freed once. -/
  frees : ∀ q, (s.pipe q).frees + ∑ p, (held p).pages.count q = s.due q
  fresh : ∀ q, s.npipes ≤ q → s.pipe q = ⟨false, false, 0⟩

namespace PipeInv

variable (inv : PipeInv s held)

include inv

theorem change (ends : ∀ e, ((next.pipe e.1).isOpen e.2).toNat + filesOn FileKind.pipeEnd s.file e +
      (held p).ends.count e = ((s.pipe e.1).isOpen e.2).toNat +
        filesOn FileKind.pipeEnd next.file e + a.ends.count e)
    (frees : ∀ q, (next.pipe q).frees + a.pages.count q + s.due q =
      (s.pipe q).frees + (held p).pages.count q + next.due q)
    (fresh : ∀ q, next.npipes ≤ q → next.pipe q = ⟨false, false, 0⟩) :
    PipeInv next (update held p a) := by
  refine ⟨?_, ?_, fresh⟩
  · intro e
    have changed := Tally.sum_update (fun b : Refs n => b.ends.count e) held p a
    have before := inv.ends e
    have self := ends e
    omega
  · intro q
    have changed := Tally.sum_update (fun b : Refs n => b.pages.count q) held p a
    have before := inv.frees q
    have self := frees q
    omega

/-- The files and the variables change, the pipes do not. -/
theorem files (pipe : next.pipe = s.pipe)
    (npipes : next.npipes = s.npipes) (pages : a.pages = (held p).pages)
    (tally : ∀ e, filesOn FileKind.pipeEnd s.file e + (held p).ends.count e =
      filesOn FileKind.pipeEnd next.file e + a.ends.count e) :
    PipeInv next (update held p a) := by
  refine inv.change ?_ ?_ ?_
  · intro e
    rw [pipe, Nat.add_assoc, tally, Nat.add_assoc]
  · intro q
    rw [State.due, State.due, pipe, npipes, pages]
  · rw [pipe, npipes]
    exact inv.fresh

theorem frame (pipe : next.pipe = s.pipe)
    (npipes : next.npipes = s.npipes)
    (files : ∀ e, filesOn FileKind.pipeEnd next.file e = filesOn FileKind.pipeEnd s.file e)
    (ends : a.ends = (held p).ends) (pages : a.pages = (held p).pages) :
    PipeInv next (update held p a) :=
  inv.files pipe npipes pages fun e => by rw [files, ends]

theorem open_of_mem {e : PipeNo × Bool} (member : e ∈ (held p).ends) :
    (s.pipe e.1).isOpen e.2 = true ∧ e.1 < s.npipes := by
  have counted := Multiset.one_le_count_iff_mem.mpr member
  have bound := Tally.le_sum (fun r => (held r).ends.count e) p
  have before := inv.ends e
  have isOpen : (s.pipe e.1).isOpen e.2 = true := by
    rw [← Bool.toNat_eq_one]
    have atMost := Bool.toNat_le ((s.pipe e.1).isOpen e.2)
    omega
  refine ⟨isOpen, ?_⟩
  by_contra unmade
  rw [inv.fresh e.1 (Nat.le_of_not_lt unmade), PipeEnds.isOpen, Bool.cond_self] at isOpen
  cases isOpen

theorem newPipe :
    PipeInv { s.setPipe s.npipes ⟨true, true, 0⟩ with npipes := s.npipes + 1 }
      (update held p ((held p).piped (some s.npipes))) := by
  have new := inv.fresh s.npipes le_rfl
  refine inv.change ?_ ?_ ?_
  · rintro ⟨q, writable⟩
    dsimp only [State.setPipe]
    by_cases same : q = s.npipes
    · subst same
      rw [update_self, new]
      cases writable <;> simp [Refs.piped, count_cons, hits, PipeEnds.isOpen] <;> omega
    · rw [update_of_ne same]
      simp [Refs.piped, count_cons, hits, Ne.symm same]
  · intro q
    dsimp only [State.due, State.setPipe]
    by_cases same : q = s.npipes
    · subst same
      rw [update_self, new]
      simp [Refs.piped, PipeEnds.allClosed]
    · have made : q < s.npipes + 1 ↔ q < s.npipes :=
        ⟨fun below => lt_of_le_of_ne (Nat.le_of_lt_succ below) same, Nat.lt_succ_of_lt⟩
      simp only [update_of_ne same, made]
      rfl
  · intro q unmade
    exact (update_of_ne (Nat.ne_of_gt unmade) _ _).trans (inv.fresh q (Nat.le_of_succ_le unmade))

theorem closePipe {q : PipeNo} {writable : Bool}
    (member : (q, writable) ∈ (held p).ends) :
    PipeInv (s.closePipe q writable).2
      (update held p ((held p).closed q writable (s.closePipe q writable).1)) := by
  obtain ⟨wasOpen, made⟩ := inv.open_of_mem member
  refine inv.change ?_ ?_ ?_
  · rintro ⟨r, other⟩
    have erased : ((held p).closed q writable (s.closePipe q writable).1).ends.count (r, other) +
      hits (some (q, writable)) (r, other) = (held p).ends.count (r, other) := count_erase member _
    dsimp only [State.closePipe, State.setPipe] at erased ⊢
    by_cases same : r = q
    · subst same
      rw [update_self]
      cases writable <;> cases other <;> simp_all [PipeEnds.isOpen, hits] <;> omega
    · rw [update_of_ne same]
      rw [hits_other fun eq => same (congrArg Prod.fst eq).symm] at erased
      omega
  · intro r
    dsimp only [State.closePipe, State.due, State.setPipe]
    by_cases same : r = q
    · subst same
      rw [update_self]
      cases writable <;>
        simp_all [PipeEnds.isOpen, PipeEnds.allClosed, Refs.closed] <;> split <;> simp_all [Nat.add_assoc]
    · have others (last : Bool) :
          ((held p).closed q writable last).pages.count r = (held p).pages.count r := by
        cases last with
        | false => rfl
        | true => exact Multiset.count_cons_of_ne same _
      rw [update_of_ne same, others]
  · intro r unmade
    exact (update_of_ne (Nat.ne_of_gt (lt_of_lt_of_le made unmade)) _ _).trans (inv.fresh r unmade)

theorem kfree {q : PipeNo} (member : q ∈ (held p).pages) :
    PipeInv (s.setPipe q { s.pipe q with frees := (s.pipe q).frees + 1 })
      (update held p ((held p).freed q)) := by
  have made : q < s.npipes := by
    have counted := Multiset.one_le_count_iff_mem.mpr member
    have bound := Tally.le_sum (fun r => (held r).pages.count q) p
    have before := inv.frees q
    by_contra unmade
    rw [State.due, decide_eq_false unmade, Bool.false_and, Bool.toNat_false] at before
    omega
  refine inv.change ?_ ?_ ?_
  · intro e
    dsimp only [State.setPipe]
    by_cases same : e.1 = q
    · rw [same, update_self]
      rfl
    · rw [update_of_ne same]
      rfl
  · intro r
    have erased : ((held p).freed q).pages.count r + hits (some q) r = (held p).pages.count r :=
      count_erase member r
    dsimp only [State.due, State.setPipe]
    by_cases same : r = q
    · subst same
      rw [hits_self] at erased
      rw [update_self]
      dsimp only [PipeEnds.allClosed]
      omega
    · rw [hits_other (Ne.symm same)] at erased
      rw [update_of_ne same]
      omega
  · intro r unmade
    exact (update_of_ne (Nat.ne_of_gt (lt_of_lt_of_le made unmade)) _ _).trans (inv.fresh r unmade)

theorem step (files : FileInv s held) (needs : (held p).pre o)
    (executed : Exec s p o answer next) :
    PipeInv next (update held p ((held p).change o answer)) := by
  cases executed
  case newPipeMade => exact inv.newPipe
  case closePipe q writable => exact inv.closePipe needs
  case kfree q => exact inv.kfree needs
  case fileallocFound f free | filedup f used | dropFileMore f more =>
    exact inv.frame rfl rfl (fun e => filesOn_sameKind _ e f _) rfl rfl
  case dropFileLast f last =>
    refine inv.files rfl rfl rfl ?_
    intro e
    have changed := filesOn_set FileKind.pipeEnd e s f ⟨0, .none⟩
    rw [show FileKind.pipeEnd .none = none from rfl, hits_none] at changed
    simp only [Refs.change, Refs.closing, count_cons, Option.bind_some]
    omega
  case setFile f kind =>
    refine inv.files rfl rfl rfl ?_
    intro e
    have changed := filesOn_set FileKind.pipeEnd e s f { s.file f with kind := kind }
    have erased := count_without needs.2.2 e
    rw [files.blank p f needs.1, show FileKind.pipeEnd .none = none from rfl, hits_none] at changed
    simp only [Refs.change, Refs.filled] at changed ⊢
    omega
  case leave =>
    exact inv.frame rfl rfl (fun _ => rfl) needs.1.ends.symm needs.1.pages.symm
  all_goals exact inv.frame rfl rfl (fun _ => rfl) rfl rfl

end PipeInv

/-! ## What a process has read -/

/-- The process still has what it has read of its own entry. -/
structure Reads (proc : Proc) (file : FileNo → File) (a : Refs n) : Prop where
  here : ∀ i, a.here = some i → proc.cwd = some i ∧ a.staleCwd = false
  got : ∀ f, a.got = some f → ∃ fd, proc.ofile fd = some f ∧ a.stale ≠ some (fd, f)
  opened : ∀ i, a.opened = some i →
    ∃ fd f, proc.ofile fd = some f ∧ a.stale ≠ some (fd, f) ∧ (file f).kind.ip = some i

/-- A step that reads nothing but the inode of a file. -/
theorem Reads.of_opened {file : FileNo → File} (here : a.here = none) (got : a.got = none)
    (opened : ∀ i, a.opened = some i →
      ∃ fd f, proc.ofile fd = some f ∧ a.stale ≠ some (fd, f) ∧ (file f).kind.ip = some i) :
    Reads proc file a := by
  refine ⟨?_, ?_, opened⟩
  · rw [here]
    exact nofun
  · rw [got]
    exact nofun

theorem Reads.idle (proc : Proc) (file : FileNo → File) : Reads proc file (.idle : Refs n) :=
  .of_opened rfl rfl (by intros; contradiction)

theorem Reads.files {file after : FileNo → File} (reads : Reads proc file a)
    (kept : ∀ fd f i, proc.ofile fd = some f → a.stale ≠ some (fd, f) →
      (file f).kind.ip = some i → (after f).kind.ip = some i) : Reads proc after a where
  here := reads.here
  got := reads.got
  opened i isOpened := by
    obtain ⟨fd, f, found, fresh, ip⟩ := reads.opened i isOpened
    exact ⟨fd, f, found, fresh, kept fd f i found fresh ip⟩

/-- A step that reads nothing forgets what was read, but for the inode of a file. -/
theorem Reads.forget {file : FileNo → File} {b : Refs n} (reads : Reads proc file a)
    (here : b.here = none) (got : b.got = none) (opened : b.opened = a.opened)
    (stale : b.stale = a.stale) : Reads proc file b := by
  refine .of_opened here got ?_
  rw [opened, stale]
  exact reads.opened

/-- A descriptor that is a reference keeps its file in use. -/
theorem FileInv.ref_pos (inv : FileInv s held) {fd : Fd} (found : (s.proc q).ofile fd = some f)
    (fresh : (held q).stale ≠ some (fd, f)) : 0 < (s.file f).ref := by
  have counted : slot (s.proc q).ofile (held q).stale f fd = 1 := by
    rw [slot, if_neg fresh, found, hits_self]
  have bound := Tally.le_sum (slot (s.proc q).ofile (held q).stale f) fd
  have heldHere := inv.holds_le q f
  unfold fileHolds at heldHere
  omega

theorem setFile_kind (f g : FileNo) (ref : Nat) :
    ((s.setFile f { s.file f with ref := ref }).file g).kind = (s.file g).kind :=
  setFile_cases g rfl fun _ => rfl

/-- A file on an inode stays on it as long as a descriptor has it. -/
theorem kind_kept (files : FileInv s held) (needs : (held p).pre o)
    (executed : Exec s p o answer next)
    (after : FileInv next (update held p ((held p).post o answer))) {fd : Fd}
    (found : (next.proc q).ofile fd = some f)
    (fresh : (update held p ((held p).post o answer) q).stale ≠ some (fd, f))
    (ip : (s.file f).kind.ip = some i) : (next.file f).kind.ip = some i := by
  cases executed
  case setFile g kind =>
    revert ip
    refine setFile_cases f (fun ip => ?_) fun _ => id
    rw [files.blank p g needs.1] at ip
    cases ip
  case dropFileLast g last =>
    have used := after.ref_pos found fresh
    revert ip used
    exact setFile_cases f (fun _ used => absurd used (Nat.lt_irrefl 0)) fun _ ip _ => ip
  case dropFileMore | fileallocFound | filedup =>
    rw [setFile_kind]
    exact ip
  all_goals exact ip

/-- A step changes the entry of another process only while that one is not running. -/
theorem ProcInv.others (slots : ProcInv s held) (needs : (held p).pre o)
    (executed : Exec s p o answer next) (other : q ≠ p) :
    next.proc q = s.proc q ∨ held q = .idle := by
  have dead {c : Fin n} (dead : (s.proc c).phase ≠ .live) (proc : Proc) :
      (s.setProc c proc).proc q = s.proc q ∨ held q = .idle := by
    by_cases same : q = c
    · subst same
      exact .inr (slots.asleep dead)
    · exact .inl (setProc_other same _)
  cases executed
  case allocprocFound c unused => exact dead (by rw [unused]; decide) _
  case setChildFd c fd f =>
    obtain ⟨fds, given, isChild, -⟩ := needs
    exact dead (slots.dead isChild) _
  case setChildCwd c i =>
    obtain ⟨fds, isChild, -⟩ := needs
    exact dead (slots.dead isChild) _
  case startChild c =>
    obtain ⟨fds, given, isChild⟩ := needs
    exact dead (slots.dead isChild) _
  case dropChild c => exact dead (slots.dead needs) _
  case fdallocFound | clearFd | setCwd | leave => exact .inl (setProc_other other _)
  all_goals exact .inl rfl

/-- The running process, whose own entry is as the step leaves it. -/
theorem Reads.self (reads : Reads (s.proc p) s.file (held p)) (live : (s.proc p).phase = .live)
    (slots : ProcInv s held) (needs : (held p).pre o) (knows : (held p).reads o)
    (executed : Exec s p o answer next) : Reads (next.proc p) s.file ((held p).post o answer) := by
  have child {c : Fin n} (dead : (s.proc c).phase ≠ .live) (proc : Proc) :
      (s.setProc c proc).proc p = s.proc p :=
    setProc_other (not_self live dead).symm _
  cases executed
  case getCwd i cwd =>
    refine ⟨?_, (by intros; contradiction), reads.opened⟩
    intro j same
    cases same
    exact ⟨cwd, needs⟩
  case getFd fd =>
    have fresh : (held p).stale = none := needs
    refine ⟨(by intros; contradiction), ?_, (by intros; contradiction)⟩
    intro f found
    refine ⟨fd, found, ?_⟩
    rw [show ((held p).post (.getFd fd) ((s.proc p).ofile fd)).stale = none from fresh]
    simp
  case getFile f =>
    refine .of_opened rfl rfl ?_
    intro i ip
    obtain ⟨fd, found, fresh⟩ := reads.got f knows
    exact ⟨fd, f, found, fresh, ip⟩
  case oldFd fd => exact .of_opened rfl rfl (by intros; contradiction)
  case fdallocFound f fd empty =>
    rw [setProc_self]
    refine .of_opened rfl rfl ?_
    intro i isOpened
    obtain ⟨fd', g, found, -, ip⟩ := reads.opened i isOpened
    have different : fd' ≠ fd := by
      intro same
      rw [same, empty] at found
      cases found
    refine ⟨fd', g, ?_, ?_, ip⟩
    · rw [Proc.setFd_other _ different]
      exact found
    · simp only [Refs.post, Refs.change, Refs.entered]
      split
      · simp
      · intro same
        cases same
        exact different rfl
  case fdallocFull f =>
    refine reads.forget rfl rfl rfl ?_
    simp only [Refs.post, Refs.change, Refs.entered, Option.map_none, ite_self, needs.1]
  case filedup f used =>
    refine .of_opened rfl rfl ?_
    intro i isOpened
    obtain ⟨fd, g, found, -, ip⟩ := reads.opened i isOpened
    exact ⟨fd, g, found, by simp [Refs.post, Refs.change, Refs.counted], ip⟩
  case clearFd fd =>
    rw [setProc_self]
    exact .of_opened rfl rfl (by intros; contradiction)
  case setCwd cwd =>
    rw [setProc_self]
    exact .of_opened rfl rfl reads.opened
  case leave => exact .idle _ _
  case allocprocFound c unused =>
    rw [child (by rw [unused]; decide)]
    exact reads.forget rfl rfl rfl rfl
  case setChildFd c fd f =>
    obtain ⟨fds, given, isChild, -⟩ := needs
    rw [child (slots.dead isChild)]
    exact reads.forget rfl rfl rfl rfl
  case setChildCwd c i =>
    obtain ⟨fds, isChild, -⟩ := needs
    rw [child (slots.dead isChild)]
    exact reads.forget rfl rfl rfl rfl
  case startChild c =>
    obtain ⟨fds, given, isChild⟩ := needs
    rw [child (slots.dead isChild)]
    exact reads.forget rfl rfl rfl rfl
  case dropChild c =>
    rw [child (slots.dead needs)]
    exact reads.forget rfl rfl rfl rfl
  all_goals exact reads.forget rfl rfl rfl rfl

/-! ## All references -/

/-- The references of all processes and their counts. -/
structure RefInv (s : State n) (held : Fin n → Refs n) : Prop where
  slots : ProcInv s held
  files : FileInv s held
  inodes : InodeInv s held
  pipes : PipeInv s held
  reads : ∀ q, Reads (s.proc q) s.file (held q)

/-- What was just read does not matter to the counts. -/
theorem RefInv.forget (inv : RefInv s held) (live : (s.proc p).phase = .live) :
    ProcInv s (update held p (held p).forget) ∧
      FileInv s (update held p (held p).forget) ∧
      InodeInv s (update held p (held p).forget) ∧
      PipeInv s (update held p (held p).forget) :=
  ⟨inv.slots.frame live rfl rfl rfl, inv.files.frame (fun _ => rfl) rfl rfl rfl rfl,
    inv.inodes.frame (fun _ => rfl) rfl (fun _ => rfl) rfl rfl rfl,
    inv.pipes.frame rfl rfl (fun _ => rfl) rfl rfl⟩

theorem RefInv.step (inv : RefInv s held) (live : (s.proc p).phase = .live) (needs : (held p).pre o)
    (knows : (held p).reads o) (executed : Exec s p o answer next) :
    RefInv next (update held p ((held p).post o answer)) := by
  obtain ⟨slots, files, inodes, pipes⟩ := inv.forget live
  have self : update held p (held p).forget p = (held p).forget := update_self _ _ _
  have needs' : (update held p (held p).forget p).pre o := by
    rw [self]
    cases o with
    | leave =>
      obtain ⟨done, rest⟩ := needs
      exact ⟨{ done with }, rest⟩
    | _ => exact needs
  have slots' := slots.step live needs' executed
  have files' := files.step slots live needs' executed
  have inodes' := inodes.step slots files live needs' executed
  have pipes' := pipes.step files needs' executed
  rw [self, Function.update_idem] at slots' files' inodes' pipes'
  refine ⟨slots', files', inodes', pipes', ?_⟩
  intro q
  by_cases isSelf : q = p
  · subst isSelf
    have self := (inv.reads q).self live inv.slots needs knows executed
    rw [update_self]
    refine self.files fun fd f i found fresh ip => ?_
    exact kind_kept inv.files needs executed files' found (by rwa [update_self]) ip
  · cases inv.slots.others needs executed isSelf with
    | inl same =>
      rw [update_of_ne isSelf, same]
      refine (inv.reads q).files fun fd f i found fresh ip => ?_
      have stillFound : (next.proc q).ofile fd = some f := by
        rw [same]
        exact found
      exact kind_kept inv.files needs executed files' stillFound
        (by rwa [update_of_ne isSelf]) ip
    | inr idle =>
      rw [update_of_ne isSelf, idle]
      exact .idle _ _

/-- A call that has given everything back is the same as no call. -/
theorem RefInv.returns (inv : RefInv s held) (done : (held p).Done) :
    RefInv s (update held p .idle) := by
  refine ⟨?_, ?_, ?_, ?_, ?_⟩
  · by_cases live : (s.proc p).phase = .live
    · exact inv.slots.change live (fun _ _ => rfl) (.idle (inv.slots.entry p).unused) done.child.symm
    · rw [← inv.slots.asleep live, update_eq_self]
      exact inv.slots
  · exact inv.files.frame (fun _ => rfl) rfl done.files.symm done.blank.symm done.stale.symm
  · exact inv.inodes.frame (fun _ => rfl) rfl (fun _ => rfl) done.inodes.symm done.dying.symm
      done.staleCwd.symm
  · exact inv.pipes.frame rfl rfl (fun _ => rfl) done.ends.symm done.pages.symm
  · exact fun q => Update.cases q (.idle _ _) fun _ => inv.reads q

/-- What the answers say about what a process holds. -/
theorem RefInv.fact (inv : RefInv s held) (executed : Exec s p o answer next) :
    (held p).fact o answer := by
  cases executed
  case getRef i =>
    have bound := inv.inodes.holds_le p i
    unfold inodeHolds at bound
    exact le_trans (by omega) bound
  case dropFileLast f last =>
    intro new
    rw [inv.files.blank p f new]
    exact .inr rfl
  case dropFileMore f more => exact fun _ => .inl rfl
  case clearFd fd => exact fun f isOwn => (inv.slots.entry p).own fd f isOwn
  all_goals trivial

end Xv6.Fs
