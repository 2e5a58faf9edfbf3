import Xv6.Fs.Slots
import Xv6.Lib.Tally

/-!
Counts of references to files.

Owns: the invariant that the count of a file is the number of its holders, descriptors and
running calls alike.

Does not own: what the files refer to (`Xv6.Fs.Counts`).
-/

open Tally (hits hits_none hits_self hits_other)

namespace Xv6.Fs

open Function (update update_self update_of_ne)

variable {n : Nat} {s next : State n} {held : Fin n → Refs n} {p q : Fin n} {a : Refs n} {fd : Fd}
  {g f : FileNo}

section Hits

variable {α : Type} [DecidableEq α]

theorem count_cons (found : Option α) (rest : Multiset α) (y : α) :
    (Refs.cons found rest).count y = rest.count y + hits found y := by
  cases found with
  | none => rfl
  | some x =>
    rw [Refs.cons, Multiset.count_cons, hits]
    simp only [Option.some.injEq, eq_comm]

theorem count_erase {rest : Multiset α} {x : α} (member : x ∈ rest) (y : α) :
    (rest.erase x).count y + hits (some x) y = rest.count y := by
  by_cases same : x = y
  · subst same
    have counted := Multiset.one_le_count_iff_mem.mpr member
    rw [Multiset.count_erase_self, hits_self]
    omega
  · rw [Multiset.count_erase_of_ne (Ne.symm same), hits_other same]
    rfl

theorem count_without {found : Option α} {rest : Multiset α}
    (member : ∀ x, found = some x → x ∈ rest) (y : α) :
    (Refs.without found rest).count y + hits found y = rest.count y := by
  cases found with
  | none => rfl
  | some x => exact count_erase (member x rfl) y

end Hits

/-! ## Files -/

/-- Whether a descriptor is a reference to a file. -/
def slot (ofile : Fd → Option FileNo) (stale : Option (Fd × FileNo)) (f : FileNo) (fd : Fd) : Nat :=
  if stale = some (fd, f) then 0 else hits (ofile fd) f

theorem slot_fresh (ofile : Fd → Option FileNo) (f : FileNo) (fd : Fd) :
    slot ofile none f fd = hits (ofile fd) f := rfl

theorem slot_stale {ofile : Fd → Option FileNo} (entered : ofile fd = some g) (f : FileNo) :
    slot ofile (some (fd, g)) f fd = 0 := by
  by_cases same : g = f
  · subst same
    exact if_pos rfl
  · rw [slot, entered, hits_other same, ite_self]

/-- The references of one process to a file. -/
def fileHolds (proc : Proc) (a : Refs n) (f : FileNo) : Nat :=
  a.files.count f + ∑ fd, slot proc.ofile a.stale f fd

structure FileInv (s : State n) (held : Fin n → Refs n) : Prop where
  ref : ∀ f, (s.file f).ref = ∑ p, fileHolds (s.proc p) (held p) f
  free : ∀ f, (s.file f).ref = 0 → (s.file f).kind = .none
  blank : ∀ p f, f ∈ (held p).blank → (s.file f).kind = .none
  blankHeld : ∀ p f, (held p).blank.count f ≤ fileHolds (s.proc p) (held p) f
  blankOnce : ∀ f, ∑ p, (held p).blank.count f ≤ 1

/-- One descriptor changes, the only one that may be stale. -/
theorem fileHolds_change (proc after : Proc) (a b : Refs n) (fd : Fd) (f : FileNo)
    (others : ∀ other, other ≠ fd → after.ofile other = proc.ofile other)
    (stale : ∀ entry, a.stale = some entry → entry.1 = fd)
    (staleAfter : ∀ entry, b.stale = some entry → entry.1 = fd) :
    fileHolds after b f + a.files.count f + slot proc.ofile a.stale f fd =
      fileHolds proc a f + b.files.count f + slot after.ofile b.stale f fd := by
  have kept : ∀ other, other ≠ fd →
      slot after.ofile b.stale f other = slot proc.ofile a.stale f other := by
    intro other different
    have fresh : a.stale ≠ some (other, f) := fun isStale => different (stale _ isStale)
    have freshAfter : b.stale ≠ some (other, f) := fun isStale => different (staleAfter _ isStale)
    simp only [slot, others other different, fresh, freshAfter]
  have changed := Tally.sum_change fd kept
  unfold fileHolds
  omega

theorem mem_blank_of_le (fewer : a.blank ≤ (held p).blank) (q : Fin n) (f : FileNo) :
    f ∈ (update held p a q).blank → f ∈ (held q).blank :=
  Update.cases q (Multiset.mem_of_le fewer) fun _ => id

/-- Only one file changes. -/
@[elab_as_elim]
theorem setFile_cases {file : File} {motive : FileNo → File → Prop} (g : FileNo)
    (self : motive f file) (other : g ≠ f → motive g (s.file g)) :
    motive g ((s.setFile f file).file g) := by
  change motive g (update s.file f file g)
  exact Update.cases g self other

variable {proc : Proc}

theorem fileHolds_counted (stale : ∀ fd g, a.stale = some (fd, g) → proc.ofile fd = some g)
    (needs : ∀ entry, a.stale = some entry → entry.2 = f) (g : FileNo) :
    fileHolds proc (a.counted f) g = fileHolds proc a g + hits (some f) g := by
  cases isStale : a.stale with
  | none =>
    have counted : (f ::ₘ a.files).count g = a.files.count g + hits (some f) g :=
      count_cons (some f) a.files g
    simp only [fileHolds, Refs.counted, isStale, Option.isSome_none, Bool.false_eq_true, if_false]
    omega
  | some entry =>
    obtain ⟨fd, f'⟩ := entry
    have entered := stale fd f' isStale
    have same : f' = f := needs _ isStale
    subst same
    have changed := fileHolds_change proc proc a (a.counted f') fd g (fun _ _ => rfl)
      (fun e same => by rw [isStale] at same; cases same; rfl) (fun e none_ => by cases none_)
    have files : (a.counted f').files = a.files := by
      simp only [Refs.counted, isStale, Option.isSome_some, if_true]
    rw [isStale, slot_stale entered, show (a.counted f').stale = none from rfl, slot_fresh, entered,
      files] at changed
    omega

theorem fileHolds_taken (fd : Fd) (fresh : a.stale = none) (g : FileNo) :
    fileHolds proc (a.taken fd (proc.ofile fd)) g = fileHolds proc a g := by
  have changed := fileHolds_change proc proc a (a.taken fd (proc.ofile fd)) fd g (fun _ _ => rfl)
    (fun e same => by rw [fresh] at same; cases same)
    (fun e same => by
      obtain ⟨f, -, isEntry⟩ := Option.map_eq_some_iff.mp same
      rw [← isEntry])
  have counted : (a.taken fd (proc.ofile fd)).files.count g = a.files.count g + hits (proc.ofile fd) g :=
    count_cons (proc.ofile fd) a.files g
  have after : slot proc.ofile (a.taken fd (proc.ofile fd)).stale g fd = 0 := by
    cases found : proc.ofile fd with
    | none =>
      rw [show (a.taken fd none).stale = none from rfl, slot_fresh, found]
      rfl
    | some f => exact slot_stale found g
  rw [fresh, slot_fresh, after] at changed
  omega

theorem fileHolds_entered (f : FileNo) (fresh : a.stale = none) (empty : proc.ofile fd = none)
    (g : FileNo) :
    fileHolds (proc.setFd fd (some f)) (a.entered f (some fd)) g = fileHolds proc a g := by
  have changed := fileHolds_change proc (proc.setFd fd (some f)) a (a.entered f (some fd)) fd g
    (fun _ different => Proc.setFd_other _ different _)
    (fun e same => by rw [fresh] at same; cases same)
    (fun e same => by
      simp only [Refs.entered] at same
      split at same
      · cases same
      · cases same
        rfl)
  rw [fresh, slot_fresh, empty, hits_none,
    show (a.entered f (some fd)).files = a.files.erase f from rfl] at changed
  by_cases member : f ∈ a.files
  · have stale : (a.entered f (some fd)).stale = none := if_pos member
    have erased := count_erase member g
    rw [stale, slot_fresh, Proc.setFd_self] at changed
    omega
  · have stale : (a.entered f (some fd)).stale = some (fd, f) := if_neg member
    rw [stale, slot_stale (Proc.setFd_self _ _ _), Multiset.erase_of_notMem member] at changed
    omega

theorem fileHolds_cleared (fd : Fd)
    (stale : ∀ fd g, a.stale = some (fd, g) → proc.ofile fd = some g)
    (needs : ∀ entry, a.stale = some entry → entry.1 = fd) (g : FileNo) :
    fileHolds (proc.setFd fd none) (a.cleared fd (proc.ofile fd)) g = fileHolds proc a g := by
  have changed := fileHolds_change proc (proc.setFd fd none) a (a.cleared fd (proc.ofile fd)) fd g
    (fun _ different => Proc.setFd_other _ different _) needs (fun e none_ => by cases none_)
  rw [show (a.cleared fd (proc.ofile fd)).stale = none from rfl, slot_fresh, Proc.setFd_self,
    hits_none] at changed
  cases isStale : a.stale with
  | none =>
    have files : (a.cleared fd (proc.ofile fd)).files = Refs.cons (proc.ofile fd) a.files := by
      simp only [Refs.cleared, isStale, Option.isSome_none, Bool.false_eq_true, if_false]
    rw [isStale, slot_fresh, files, count_cons] at changed
    omega
  | some entry =>
    obtain ⟨fd', f⟩ := entry
    cases needs _ isStale
    have files : (a.cleared fd' (proc.ofile fd')).files = a.files := by
      simp only [Refs.cleared, isStale, Option.isSome_some, if_true]
    rw [isStale, slot_stale (stale fd' f isStale), files] at changed
    omega

/-- A step that sets entries of the table but no descriptor. -/
theorem setProc_ofile (same : proc.ofile = (s.proc q).ofile) (r : Fin n) :
    ((s.setProc q proc).proc r).ofile = (s.proc r).ofile := by
  by_cases isSelf : r = q
  · rw [isSelf, setProc_self, same]
  · rw [setProc_other isSelf]

namespace FileInv

variable (inv : FileInv s held)

include inv

/-- One process changes what it holds. -/
theorem change (others : ∀ q, q ≠ p → (next.proc q).ofile = (s.proc q).ofile)
    (tally : ∀ f, (next.file f).ref + fileHolds (s.proc p) (held p) f =
      (s.file f).ref + fileHolds (next.proc p) a f)
    (free : ∀ f, (next.file f).ref = 0 → (next.file f).kind = .none)
    (blank : ∀ q f, f ∈ (update held p a q).blank → (next.file f).kind = .none)
    (blankHeld : ∀ f, a.blank.count f ≤ fileHolds (next.proc p) a f)
    (blankOnce : ∀ f, ∑ q, (update held p a q).blank.count f ≤ 1) :
    FileInv next (update held p a) := by
  have same (q : Fin n) (other : q ≠ p) (f : FileNo) :
      fileHolds (next.proc q) (update held p a q) f = fileHolds (s.proc q) (held q) f := by
    unfold fileHolds
    rw [update_of_ne other, others q other]
  refine ⟨?_, free, blank, ?_, blankOnce⟩
  · intro f
    have changed := Tally.sum_change p fun q other => same q other f
    have before := inv.ref f
    have self := tally f
    rw [update_self] at changed
    omega
  · intro q f
    by_cases isSelf : q = p
    · subst isSelf
      rw [update_self]
      exact blankHeld f
    · rw [same q isSelf, update_of_ne isSelf]
      exact inv.blankHeld q f

/-- A process has no more new files than before. -/
theorem blankOnce_of_le (fewer : a.blank ≤ (held p).blank) (f : FileNo) :
    ∑ q, (update held p a q).blank.count f ≤ 1 := by
  refine le_trans (Finset.sum_le_sum fun q _ => ?_) (inv.blankOnce f)
  exact Update.cases q (Multiset.count_le_of_le f fewer) fun _ => le_rfl

/-- The references move between the variables and the descriptors of one process. -/
theorem shuffle (others : ∀ q, q ≠ p → (next.proc q).ofile = (s.proc q).ofile) (files : next.file = s.file)
    (blanks : a.blank = (held p).blank)
    (tally : ∀ f, fileHolds (next.proc p) a f = fileHolds (s.proc p) (held p) f) :
    FileInv next (update held p a) := by
  refine inv.change others ?_ ?_ ?_ ?_ (inv.blankOnce_of_le blanks.le)
  · intro f
    rw [files, tally]
  · intro f
    rw [files]
    exact inv.free f
  · intro q f new
    rw [files]
    exact inv.blank q f (mem_blank_of_le blanks.le q f new)
  · intro f
    rw [blanks, tally]
    exact inv.blankHeld p f

/-- Nothing changes that has to do with files. -/
theorem frame (proc : ∀ q, (next.proc q).ofile = (s.proc q).ofile)
    (file : next.file = s.file) (files : a.files = (held p).files)
    (blank : a.blank = (held p).blank) (stale : a.stale = (held p).stale) :
    FileInv next (update held p a) := by
  refine inv.shuffle (fun q _ => proc q) file blank ?_
  intro f
  unfold fileHolds
  rw [proc, files, stale]

theorem holds_le (q : Fin n) (f : FileNo) :
    fileHolds (s.proc q) (held q) f ≤ (s.file f).ref := by
  rw [inv.ref f]
  exact Tally.le_sum (fun r => fileHolds (s.proc r) (held r) f) q

/-- The new files of a process are in use. -/
theorem blank_pos (new : f ∈ (held q).blank) :
    0 < (s.file f).ref := by
  have counted := Multiset.one_le_count_iff_mem.mpr new
  have heldHere := inv.blankHeld q f
  have bound := inv.holds_le q f
  omega

theorem filealloc (free : (s.file f).ref = 0) :
    FileInv (s.setFile f { s.file f with ref := 1 })
      (update held p ((held p).allocated (some f))) := by
  have noBlank (q : Fin n) : (held q).blank.count f = 0 := by
    have heldHere := inv.blankHeld q f
    have bound := inv.holds_le q f
    omega
  refine inv.change (fun _ _ => rfl) ?_ ?_ ?_ ?_ ?_
  · intro g
    simp only [fileHolds, Refs.allocated, count_cons]
    refine setFile_cases g ?_ fun different => ?_
    · rw [hits_self]
      simp only [free, State.setFile]
      omega
    · rw [hits_other (Ne.symm different)]
      rfl
  · exact fun g => setFile_cases g nofun fun _ => inv.free g
  · intro q g
    refine setFile_cases g (fun _ => inv.free f free) fun different => ?_
    refine Update.cases q (fun new => ?_) fun _ => inv.blank q g
    exact inv.blank p g ((Multiset.mem_cons.mp new).resolve_left different)
  · intro g
    have before := inv.blankHeld p g
    simp only [fileHolds, Refs.allocated, count_cons, State.setFile] at before ⊢
    omega
  · intro g
    have changed := Tally.sum_update (fun b : Refs n => b.blank.count g) held p
      ((held p).allocated (some f))
    have before := inv.blankOnce g
    have self : ((held p).allocated (some f)).blank.count g =
        (held p).blank.count g + hits (some f) g := count_cons (some f) _ g
    by_cases same : g = f
    · subst same
      have none_ : ∑ q, (held q).blank.count g = 0 := Finset.sum_eq_zero fun q _ => noBlank q
      rw [hits_self] at self
      omega
    · rw [hits_other (Ne.symm same)] at self
      omega

/-- `fileclose` gives one reference back. -/
theorem dropFile {file : File} (member : f ∈ (held p).files)
    (ref : file.ref + 1 = (s.file f).ref) (free : file.ref = 0 → file.kind = .none)
    (blank : (s.file f).kind = .none → file.kind = .none) (found : Option FileKind) :
    FileInv (s.setFile f file) (update held p ((held p).closing f found)) := by
  have fewer : ((held p).closing f found).blank ≤ (held p).blank := Multiset.erase_le _ _
  have tally (g : FileNo) : fileHolds (s.proc p) ((held p).closing f found) g + hits (some f) g =
      fileHolds (s.proc p) (held p) g := by
    have erased := count_erase member g
    simp only [fileHolds, Refs.closing]
    omega
  refine inv.change (fun _ _ => rfl) ?_ (fun g => setFile_cases g free fun _ => inv.free g) ?_ ?_
    (inv.blankOnce_of_le fewer)
  · intro g
    have own := tally g
    change _ = _ + fileHolds (s.proc p) _ g
    revert own
    refine setFile_cases g ?_ fun different => ?_ <;> intro own
    · rw [hits_self] at own
      omega
    · rw [hits_other (Ne.symm different)] at own
      omega
  · intro q g new
    have old := inv.blank q g (mem_blank_of_le fewer q g new)
    revert old
    exact setFile_cases g blank fun _ => id
  · intro g
    have before := inv.blankHeld p g
    have own := tally g
    change ((held p).blank.erase f).count g ≤ fileHolds (s.proc p) _ g
    by_cases same : f = g
    · subst same
      rw [hits_self] at own
      rw [Multiset.count_erase_self]
      omega
    · rw [hits_other same] at own
      rw [Multiset.count_erase_of_ne (Ne.symm same)]
      omega

/-- The type of a new file is set. -/
theorem setFile (new : f ∈ (held p).blank) (kind : FileKind) :
    FileInv (s.setFile f { s.file f with kind := kind })
      (update held p ((held p).filled f kind)) := by
  have fewer : ((held p).filled f kind).blank ≤ (held p).blank := Multiset.erase_le _ _
  refine inv.change (fun _ _ => rfl) (fun g => setFile_cases g rfl fun _ => rfl) (fun g => ?_) ?_ ?_
    (inv.blankOnce_of_le fewer)
  · exact setFile_cases g (fun none_ => absurd none_ (inv.blank_pos new).ne') fun _ => inv.free g
  · intro q g isNew
    have old := inv.blank q g (mem_blank_of_le fewer q g isNew)
    revert isNew
    refine setFile_cases g (fun isNew => ?_) fun _ _ => old
    have changed := Tally.sum_update (fun b : Refs n => b.blank.count f) held p
      ((held p).filled f kind)
    have once := inv.blankOnce f
    have erased : ((held p).filled f kind).blank.count f + hits (some f) f =
        (held p).blank.count f := count_erase new f
    have counted := Multiset.one_le_count_iff_mem.mpr isNew
    have bound := Tally.le_sum
      (fun r => (update held p ((held p).filled f kind) r).blank.count f) q
    rw [hits_self] at erased
    omega
  · intro g
    exact le_trans (Multiset.count_le_of_le g fewer) (inv.blankHeld p g)

/-- `fork` gives a reference to the child. -/
theorem setChildFd {c : Fin n} (different : c ≠ p)
    (idle : held c = .idle) (empty : (s.proc c).ofile fd = none) (member : f ∈ (held p).files)
    (noBlank : (held p).blank = 0) :
    FileInv (s.setProc c ((s.proc c).setFd fd (some f)))
      (update held p ((held p).gaveFd fd f)) := by
  have fewer : ((held p).gaveFd fd f).blank ≤ (held p).blank := le_rfl
  have self (g : FileNo) : fileHolds (s.proc p) ((held p).gaveFd fd f) g + hits (some f) g =
      fileHolds (s.proc p) (held p) g := by
    have erased := count_erase member g
    simp only [fileHolds, Refs.gaveFd]
    omega
  have child (g : FileNo) : fileHolds ((s.proc c).setFd fd (some f)) (held c) g =
      fileHolds (s.proc c) (held c) g + hits (some f) g := by
    have changed := fileHolds_change (s.proc c) ((s.proc c).setFd fd (some f)) (held c) (held c)
      fd g (fun _ other => Proc.setFd_other _ other _) (fun e none_ => by rw [idle] at none_; cases none_)
      (fun e none_ => by rw [idle] at none_; cases none_)
    rw [show (held c).stale = none by rw [idle]; rfl, slot_fresh, slot_fresh, empty, hits_none,
      Proc.setFd_self] at changed
    omega
  refine ⟨?_, inv.free, ?_, ?_, inv.blankOnce_of_le fewer⟩
  · intro g
    have others : ∀ q, q ≠ p → q ≠ c →
        fileHolds ((s.setProc c ((s.proc c).setFd fd (some f))).proc q)
          (update held p ((held p).gaveFd fd f) q) g = fileHolds (s.proc q) (held q) g := by
      intro q notSelf notChild
      rw [setProc_other notChild, update_of_ne notSelf]
    have changed := Tally.sum_change_two (Ne.symm different) others
    have before := inv.ref g
    have gave := self g
    have got := child g
    rw [setProc_self, setProc_other (Ne.symm different), update_self,
      update_of_ne different] at changed
    simp only [State.setProc] at changed ⊢
    omega
  · intro q g new
    exact inv.blank q g (mem_blank_of_le fewer q g new)
  · intro q g
    by_cases isSelf : q = p
    · subst isSelf
      rw [update_self, show ((held q).gaveFd fd f).blank = (held q).blank from rfl, noBlank]
      exact Nat.zero_le _
    · rw [update_of_ne isSelf]
      by_cases isChild : q = c
      · rw [isChild, idle]
        exact Nat.zero_le _
      · rw [setProc_other isChild]
        exact inv.blankHeld q g

theorem filedup (slots : ProcInv s held)
    (needs : ∀ entry, (held p).stale = some entry → entry.2 = f) :
    FileInv (s.setFile f { s.file f with ref := (s.file f).ref + 1 })
      (update held p ((held p).counted f)) := by
  have fewer : ((held p).counted f).blank ≤ (held p).blank := le_rfl
  have counted := fileHolds_counted (slots.entry p).stale needs
  refine inv.change (fun _ _ => rfl) ?_ (fun g => setFile_cases g nofun fun _ => inv.free g) ?_ ?_
    (inv.blankOnce_of_le fewer)
  · intro g
    change _ = _ + fileHolds (s.proc p) _ g
    rw [counted]
    refine setFile_cases g ?_ fun different => ?_
    · rw [hits_self]
      simp only
      omega
    · rw [hits_other (Ne.symm different), Nat.add_zero]
  · intro q g new
    have old := inv.blank q g (mem_blank_of_le fewer q g new)
    revert old
    exact setFile_cases g id fun _ => id
  · intro g
    refine le_trans (inv.blankHeld p g) ?_
    change _ ≤ fileHolds (s.proc p) _ g
    rw [counted]
    exact Nat.le_add_right _ _

theorem step (slots : ProcInv s held)
    (live : (s.proc p).phase = .live) {o : Op n} {answer : o.Ret} (needs : (held p).pre o)
    (executed : Exec s p o answer next) :
    FileInv next (update held p ((held p).change o answer)) := by
  cases executed
  case fileallocFound f free => exact inv.filealloc free
  case filedup f used => exact inv.filedup slots needs
  case dropFileLast f last => exact inv.dropFile needs last.symm (fun _ => rfl) (fun _ => rfl) _
  case dropFileMore f more =>
    refine inv.dropFile needs ?_ ?_ ?_ none
    · simp only
      omega
    · simp only
      omega
    · exact id
  case setFile f kind => exact inv.setFile needs.1 kind
  case oldFd fd => exact inv.shuffle (fun _ _ => rfl) rfl rfl (fileHolds_taken fd needs)
  case fdallocFound f fd empty =>
    refine inv.shuffle (fun q other => by rw [setProc_other other]) rfl rfl ?_
    rw [setProc_self]
    exact fileHolds_entered f needs.1 empty
  case fdallocFull f =>
    refine inv.frame (fun _ => rfl) rfl rfl rfl ?_
    simp only [Refs.change, Refs.entered, Option.map_none, ite_self, needs.1]
  case clearFd fd =>
    refine inv.shuffle (fun q other => by rw [setProc_other other]) rfl rfl ?_
    rw [setProc_self]
    exact fileHolds_cleared fd (slots.entry p).stale needs
  case setChildFd c fd f =>
    obtain ⟨fds, given, isChild, left, member, noBlank⟩ := needs
    exact inv.setChildFd (not_self live (slots.dead isChild)) (slots.asleep (slots.dead isChild))
      ((slots.child p c fds given isChild).ofile fd left) member noBlank
  case leave =>
    refine inv.frame (setProc_ofile rfl) rfl ?_ ?_ ?_
    · exact needs.1.files.symm
    · exact needs.1.blank.symm
    · exact needs.1.stale.symm
  case setCwd | allocprocFound | setChildCwd | startChild | dropChild =>
    exact inv.frame (setProc_ofile rfl) rfl rfl rfl rfl
  all_goals exact inv.frame (fun _ => rfl) rfl rfl rfl rfl

end FileInv

end Xv6.Fs
