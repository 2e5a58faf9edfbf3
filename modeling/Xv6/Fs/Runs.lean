import Xv6.Fs.SafeCalls

/-!
Runs of the file system.

Owns: the images the system boots from; that the invariant of the logic holds in every run from
boot; and what this says of the references: the counts are exact whenever no call is in
progress, and no call comes to a panic over a count.

Does not own: the invariant (`Xv6.Fs.Order`); links and locks (`Xv6.Fs.Outcome`).
-/

open Tally (hits hits_none hits_other)

namespace Xv6.Fs

open Interleave
open TransitionSystem (AllSteps run)

variable {n : Nat} {g : Bool} {inode : Inum → Inode} {first : Fin n} {c : Config (machine n)}
  {actions : List (Action (machine n))} {t : Tree}

/-! ## Boot -/

/-- What `mkfs` makes: a tree of directories in which every inode in use has its links, and the
others have none. -/
structure Image (inode : Inum → Inode) (t : Tree) : Prop where
  good : t.Good inode
  exact : ∀ i, (inode i).nlink = t.total inode i
  free : ∀ i, (inode i).type = .free ↔ (inode i).nlink = 0

theorem boot_cwd (q : Fin n) :
    ((boot inode first).shared.proc q).cwd = if q = first then some rootino else none := by
  simp only [boot]
  split <;> rfl

theorem boot_ofile (q : Fin n) (fd : Fd) : ((boot inode first).shared.proc q).ofile fd = none := by
  simp only [boot]
  split <;> rfl

theorem boot_counts : RefInv (boot inode first).shared fun _ => .idle := by
  have noFile {α : Type} [DecidableEq α] (view : FileKind → Option α) (none_ : view .none = none)
      (x : α) : filesOn view (boot inode first).shared.file x = 0 := by
    simp [filesOn, boot, none_]
  refine ⟨?_, ?_, ?_, ?_, fun q => .idle _ _⟩
  · refine ⟨fun q => .idle fun unused => ⟨boot_ofile q, ?_⟩, ?_, ?_⟩
    · rw [boot_cwd]
      refine if_neg ?_
      rintro rfl
      simp [boot] at unused
    all_goals simp [Refs.idle]
  · constructor
    case ref =>
      intro f
      simp only [fileHolds, Refs.idle, slot_fresh, boot_ofile, hits_none, Multiset.count_zero,
        Finset.sum_const_zero, Nat.add_zero]
      rfl
    all_goals simp [Refs.idle, boot]
  · refine ⟨fun i => ?_⟩
    rw [noFile _ rfl]
    simp only [inodeHolds, Refs.idle, cond_false, boot_cwd, Multiset.count_zero, hits_none]
    by_cases isRoot : i = rootino
    · simp [boot, isRoot, apply_ite (hits · rootino)]
    · simp [boot, isRoot, apply_ite (hits · i), hits_other (Ne.symm isRoot)]
  · refine ⟨fun e => ?_, fun q => ?_, fun q _ => rfl⟩
    · rw [noFile _ rfl]
      simp [boot, PipeEnds.isOpen, Refs.idle]
    · simp [boot, Refs.idle, State.due]

theorem boot_links (image : Image inode t) :
    LinkInv (boot inode first).shared (fun _ => .idle) (fun _ => .idle) t := by
  refine ⟨image.good, ?_, fun i => (image.free i).mp, ?_, fun q => .of_lasting rfl ?_ ?_, ?_, ?_⟩
  · intro i
    simp [Links.idle, boot, image.exact i]
  · intro i shut
    have notRoot : rootino ≠ i := by
      rintro rfl
      have isDir := (image.good.isDir rootino image.good.root).type
      rcases shut with free | ⟨_, outside⟩
      · cases isDir.symm.trans free
      · exact outside image.good.root
    refine ⟨by simp [filesOn, boot, FileKind.ip], fun q => ?_⟩
    rw [keeps, boot_cwd, apply_ite (cond _ none), apply_ite (hits · i)]
    simp [Refs.idle, hits_other notRoot]
  all_goals simp [Links.idle, Links.Claims]

/-- The invariant holds at boot. -/
theorem boot_holds (image : g = true → ∃ t, Image inode t) :
    (logic g n).Holds (HoldInv g) (boot inode first) := by
  refine .start ⟨boot_counts, ⟨?_, ?_, ?_, ?_⟩, ?_⟩ fun _ => rfl
  · intro i p
    exact iff_of_false (Option.some_ne_none p).symm List.not_mem_nil
  · intro p
    exact List.nodup_nil
  · intro p i d knows
    cases knows
  · intro i valid
    cases valid
  · intro guarded
    obtain ⟨t, image⟩ := image guarded
    exact ⟨t, boot_links image⟩

/-- One step keeps the invariant. -/
theorem holds_step {action : Action (machine n)} {next : Config (machine n)}
    (holds : (logic g n).Holds (HoldInv g) c) (allowed : g = true → Allowed c action)
    (stepped : step c action = some next) : (logic g n).Holds (HoldInv g) next := by
  refine Logic.Holds.step (fun c action => g = true → Allowed c action) ?_ ?_ ?_ holds allowed
    stepped
  · intro _ _ call _
    exact body_safe call
  · intro _ _ _ inv done
    exact inv.returns done
  · intro _ _ _ _ _ _ _ inv isNext meets ready needs executed
    exact inv.step isNext meets ready needs executed

/-- A run of allowed steps from an image leads here. -/
def Reached (c : Config (machine n)) : Prop :=
  ∃ inode t first actions, Image inode t ∧ AllSteps step Allowed (boot inode first) actions ∧
    run step (boot inode first) actions = some c

theorem Reached.holds (reached : Reached c) : (logic true n).Holds (HoldInv true) c := by
  obtain ⟨inode, t, first, actions, image, allowed, ran⟩ := reached
  refine TransitionSystem.run_invariant_of_allSteps _ ?_ (boot_holds fun _ => ⟨t, image⟩) allowed ran
  intro _ _ _ holds allowed taken
  exact holds_step holds (fun _ => allowed) taken

/-- When no call is in progress no process holds anything in variables. -/
theorem idle_of_quiet (holds : (logic g n).Holds (HoldInv g) c) (quiet : c.quiet) :
    HoldInv g c.shared fun _ => .idle := by
  obtain ⟨locals, inv, covers⟩ := holds
  have idle : locals = fun _ => .idle := by
    funext p
    have covered := covers p
    rw [quiet p] at covered
    exact covered
  rw [idle] at inv
  exact inv

/-! ## References -/

/-- References and locks need no condition on the steps. -/
theorem plain_of_run (ran : run step (boot inode first) actions = some c) :
    (logic false n).Holds (HoldInv false) c := by
  refine TransitionSystem.run_invariant _ ?_ (boot_holds fun guarded => by cases guarded) ran
  intro _ action _ holds taken
  exact holds_step holds (fun guarded => by cases guarded) taken

/-- Every count is the number of what it counts. -/
structure CountsExact (s : State n) : Prop where
  file : ∀ f, (s.file f).ref = (Finset.univ.filter fun entry : Fin n × Fd =>
    (s.proc entry.1).ofile entry.2 = some f).card
  closed : ∀ f, (s.file f).ref = 0 → (s.file f).kind = .none
  pipeEnd : ∀ q writable, (s.pipe q).isOpen writable = true ↔
    ∃ f, 0 < (s.file f).ref ∧ (s.file f).kind = .pipe q writable
  page : ∀ q < s.npipes, (s.pipe q).frees = (s.pipe q).allClosed.toNat
  inode : ∀ i, s.ref i = (Finset.univ.filter fun f => (s.file f).kind.ip = some i).card +
    (Finset.univ.filter fun p => (s.proc p).cwd = some i).card

theorem filesOn_ne_zero {α : Type} [DecidableEq α] {view : FileKind → Option α}
    {file : FileNo → File} {x : α} :
    filesOn view file x ≠ 0 ↔ ∃ f, view (file f).kind = some x := by
  simp [filesOn, hits]

/-- Whenever no system call is in progress, in any interleaving of any calls, the count of a file
is the number of descriptors, the count of an inode that of files and current directories, an end
of a pipe is open as long as its file is, and the page is freed once, when both are closed. -/
theorem counts_exact_when_quiet
    (ran : run step (boot inode first) actions = some c) (quiet : c.quiet) :
    CountsExact c.shared := by
  have inv : RefInv c.shared fun _ => .idle := (idle_of_quiet (plain_of_run ran) quiet).counts
  constructor
  case file =>
    intro f
    rw [inv.files.ref f, Finset.card_filter, Fintype.sum_prod_type]
    simp [fileHolds, Refs.idle, slot_fresh, hits]
  case closed => exact inv.files.free
  case pipeEnd =>
    intro q writable
    have counted := inv.pipes.ends (q, writable)
    have isEnd (f : FileNo) : (c.shared.file f).kind.pipeEnd = some (q, writable) ↔
        0 < (c.shared.file f).ref ∧ (c.shared.file f).kind = .pipe q writable := by
      have free := inv.files.free f
      cases kind : (c.shared.file f).kind <;> simp_all [FileKind.pipeEnd, Nat.pos_iff_ne_zero]
    simp only [Refs.idle, Multiset.count_zero, Finset.sum_const_zero, Nat.add_zero] at counted
    rw [← exists_congr isEnd, ← filesOn_ne_zero, ← counted]
    simp
  case page =>
    intro q made
    have counted := inv.pipes.frees q
    simp only [Refs.idle, Multiset.count_zero, Finset.sum_const_zero, Nat.add_zero, State.due, made,
      decide_true, Bool.true_and] at counted
    exact counted
  case inode =>
    intro i
    rw [inv.inodes.ref i]
    simp only [inodeHolds, Refs.idle, cond_false]
    simp [filesOn, hits]

/-! ## Runs of two processes -/

/-- A root with nothing in it. -/
def emptyImage : Inum → Inode :=
  Function.update (fun _ => .blank .free) rootino
    ⟨.dir, 1, [some ⟨".", rootino⟩, some ⟨"..", rootino⟩]⟩

set_option maxRecDepth 4000 in
theorem emptyImage_image : Image emptyImage ⟨{rootino}, id, fun _ => 0⟩ := by
  refine ⟨⟨by simp, rfl, ?_, by simp, by simp, by decide⟩, by decide, by decide⟩
  intro j member
  cases Finset.mem_singleton.mp member
  exact ⟨rfl, [], rfl, by simp⟩

/-- Some steps of one call after the other, with the answer to the choices of each. -/
def script (calls : List (Fin 2 × Call × Bool × Nat)) : List (Action (machine 2)) :=
  calls.flatMap fun (p, call, choice, steps) => .call p call :: List.replicate steps (.run p choice)

/-- Where they lead. -/
def after (calls : List (Fin 2 × Call × Bool × Nat)) : Config (machine 2) :=
  (run step (boot emptyImage 0) (script calls)).getD (boot emptyImage 0)

section After

variable {calls : List (Fin 2 × Call × Bool × Nat)}

theorem after_ran (possible : (run step (boot emptyImage 0) (script calls)).isSome = true) :
    run step (boot emptyImage 0) (script calls) = some (after calls) := by
  obtain ⟨c, ran⟩ := Option.isSome_iff_exists.mp possible
  rw [after, ran, Option.getD_some]

theorem after_reached (possible : (run step (boot emptyImage 0) (script calls)).isSome = true)
    (allowed : AllSteps step Allowed (boot emptyImage 0) (script calls)) : Reached (after calls) :=
  ⟨_, _, _, _, emptyImage_image, allowed, after_ran possible⟩

theorem quiet_of_isNone {c : Config (machine 2)} (done : ∀ p : Fin 2, (c.prog p).isNone = true) :
    c.quiet :=
  fun p => Option.isNone_iff_eq_none.mp (done p)

end After

/-- A process opens a file, makes a pipe and forks. The child closes the end it reads from and the
parent the other. -/
def pipeCalls : List (Fin 2 × Call × Bool × Nat) :=
  [(0, .open_ ⟨true, ["f"]⟩ ⟨false, true, true⟩, false, 25), (0, .pipe, true, 8),
    (0, .fork, false, 29), (1, .close ⟨1, by decide⟩, false, 4),
    (0, .close ⟨2, by decide⟩, false, 4)]

theorem counts_exact_pipeCalls :
    (after pipeCalls).shared.npipes = 1 ∧ CountsExact (after pipeCalls).shared := by
  refine ⟨by decide +kernel, ?_⟩
  exact counts_exact_when_quiet (after_ran (by decide +kernel))
    (quiet_of_isNone (by decide +kernel))

end Xv6.Fs
