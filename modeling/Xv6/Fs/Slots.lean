import Xv6.Fs.Refs

/-!
The entries of the process table.

Owns: what holds of the entries while processes fork and exit: an entry that does not run holds
nothing in variables, an unused one is empty, and a child is made by one parent.

Does not own: the counts of what the entries refer to (`Xv6.Fs.Counts`).
-/

namespace Xv6.Fs

open Function (update update_self update_of_ne)

variable {n : Nat} {s next : State n} {held : Fin n → Refs n} {p c : Fin n} {a r : Refs n}
  {proc : Proc}

/-- What holds of one entry of the table and what its process holds. -/
structure EntryInv (proc : Proc) (r : Refs n) : Prop where
  asleep : proc.phase ≠ .live → r = .idle
  unused : proc.phase = .unused → (∀ fd, proc.ofile fd = none) ∧ proc.cwd = none
  stale : ∀ fd f, r.stale = some (fd, f) → proc.ofile fd = some f
  own : ∀ fd f, r.own = some (fd, f) → proc.ofile fd = some f
  shut : ∀ fd ∈ r.shut, proc.ofile fd = none
  away : r.away = true → proc.cwd = none

/-- The entry of a child that has not got the descriptors `fds`, nor its directory unless it was
`given` one. -/
structure Embryo (proc : Proc) (fds : List Fd) (given : Bool) : Prop where
  phase : proc.phase = .embryo
  ofile : ∀ fd ∈ fds, proc.ofile fd = none
  cwd : given = false → proc.cwd = none

structure ProcInv (s : State n) (held : Fin n → Refs n) : Prop where
  entry : ∀ q, EntryInv (s.proc q) (held q)
  child : ∀ q c fds given, (held q).child = some (c, fds, given) → Embryo (s.proc c) fds given
  childOnce : ∀ q r c d e, (held q).child = some (c, d) → (held r).child = some (c, e) → q = r

theorem setProc_self (q : Fin n) (proc : Proc) : (s.setProc q proc).proc q = proc :=
  update_self _ _ _

theorem setProc_other {q r : Fin n} (other : r ≠ q) (proc : Proc) :
    (s.setProc q proc).proc r = s.proc r :=
  update_of_ne other _ _

/-- An entry that does not run holds nothing, so it may change. -/
theorem EntryInv.idle (unused : proc.phase = .unused →
    (∀ fd, proc.ofile fd = none) ∧ proc.cwd = none) : EntryInv proc (.idle : Refs n) := by
  refine ⟨fun _ => rfl, unused, ?_, ?_, ?_, ?_⟩ <;> simp [Refs.idle]

/-- What a process holds of its own entry. -/
def Refs.ofEntry (r : Refs n) : Option (Fd × FileNo) × Option (Fd × FileNo) × List Fd × Bool :=
  (r.stale, r.own, r.shut, r.away)

/-- A running process keeps what it holds of its entry. -/
theorem EntryInv.same (entry : EntryInv proc r) (live : proc.phase = .live)
    (same : a.ofEntry = r.ofEntry) : EntryInv proc a := by
  simp only [Refs.ofEntry, Prod.mk.injEq] at same
  obtain ⟨stale, own, shut, away⟩ := same
  refine ⟨absurd live, entry.unused, ?_, ?_, ?_, ?_⟩
  · rw [stale]
    exact entry.stale
  · rw [own]
    exact entry.own
  · rw [shut]
    exact entry.shut
  · rw [away]
    exact entry.away

section Changes

variable (inv : ProcInv s held)

include inv

theorem ProcInv.asleep (dead : (s.proc p).phase ≠ .live) : held p = .idle :=
  (inv.entry p).asleep dead

/-- A child that is being made does not run. -/
theorem ProcInv.dead {d : List Fd × Bool} (isChild : (held p).child = some (c, d)) :
    (s.proc c).phase ≠ .live := by
  rw [(inv.child p c d.1 d.2 isChild).phase]
  decide

omit inv in
theorem not_self (live : (s.proc p).phase = .live) (dead : (s.proc c).phase ≠ .live) : c ≠ p := by
  rintro rfl
  exact dead live

/-- A running process changes its own entry of the table and what it holds. -/
theorem ProcInv.change (live : (s.proc p).phase = .live)
    (others : ∀ q, q ≠ p → next.proc q = s.proc q) (entry : EntryInv (next.proc p) a)
    (child : a.child = (held p).child) : ProcInv next (update held p a) := by
  have children (q : Fin n) : (update held p a q).child = (held q).child :=
    Update.cases q child fun _ => rfl
  refine ⟨fun q => Update.cases q entry fun isOther => others q isOther ▸ inv.entry q, ?_, ?_⟩
  · intro q c fds given isChild
    rw [children] at isChild
    rw [others c (not_self live (inv.dead isChild))]
    exact inv.child q c fds given isChild
  · intro q r c d e isChild alsoChild
    rw [children] at isChild alsoChild
    exact inv.childOnce q r c d e isChild alsoChild

/-- Nothing changes that has to do with processes. -/
theorem ProcInv.frame (live : (s.proc p).phase = .live) (proc : next.proc = s.proc)
    (child : a.child = (held p).child) (same : a.ofEntry = (held p).ofEntry) :
    ProcInv next (update held p a) := by
  refine inv.change live (fun q _ => by rw [proc]) ?_ child
  rw [proc]
  exact (inv.entry p).same live same

/-- A running process changes the entry of the child it makes. -/
theorem ProcInv.changeChild (live : (s.proc p).phase = .live) (dead : (s.proc c).phase ≠ .live)
    (owner : ∀ q d, (held q).child = some (c, d) → q = p)
    (unused : proc.phase = .unused → (∀ fd, proc.ofile fd = none) ∧ proc.cwd = none)
    (child : ∀ d fds given, a.child = some (d, fds, given) → d = c ∧ Embryo proc fds given)
    (same : a.ofEntry = (held p).ofEntry) : ProcInv (s.setProc c proc) (update held p a) := by
  refine ⟨?_, ?_, ?_⟩
  · intro q
    refine Update.cases q ?_ fun _ => ?_
    · rw [setProc_other (not_self live dead).symm]
      exact (inv.entry p).same live same
    · by_cases isChild : q = c
      · subst isChild
        rw [setProc_self, inv.asleep dead]
        exact .idle unused
      · rw [setProc_other isChild]
        exact inv.entry q
  · intro q d fds given
    refine Update.cases q (fun isChild => ?_) fun notSelf isChild => ?_
    · obtain ⟨rfl, embryo⟩ := child d fds given isChild
      rw [setProc_self]
      exact embryo
    · have different : d ≠ c := by
        rintro rfl
        exact notSelf (owner q _ isChild)
      rw [setProc_other different]
      exact inv.child q d fds given isChild
  · intro q r d e1 e2
    refine Update.cases q ?_ fun notSelf => ?_
    · refine Update.cases r (fun _ _ => rfl) fun notSelf isChild alsoChild => ?_
      obtain ⟨rfl, -⟩ := child d e1.1 e1.2 isChild
      exact absurd (owner r _ alsoChild) notSelf
    · refine Update.cases r (fun isChild alsoChild => ?_) fun _ => inv.childOnce q r d e1 e2
      obtain ⟨rfl, -⟩ := child d e2.1 e2.2 alsoChild
      exact absurd (owner q _ isChild) notSelf

/-- So it does with a child that it has made before. -/
theorem ProcInv.changeMade (live : (s.proc p).phase = .live) {d : List Fd × Bool}
    (isChild : (held p).child = some (c, d))
    (unused : proc.phase = .unused → (∀ fd, proc.ofile fd = none) ∧ proc.cwd = none)
    (child : ∀ d fds given, a.child = some (d, fds, given) → d = c ∧ Embryo proc fds given)
    (same : a.ofEntry = (held p).ofEntry) : ProcInv (s.setProc c proc) (update held p a) :=
  inv.changeChild live (inv.dead isChild) (fun q d also => inv.childOnce q p c d _ also isChild)
    unused child same

end Changes

theorem Proc.setFd_self (proc : Proc) (fd : Fd) (f : Option FileNo) :
    (proc.setFd fd f).ofile fd = f :=
  update_self _ _ _

theorem Proc.setFd_other (proc : Proc) {fd other : Fd} (different : other ≠ fd)
    (f : Option FileNo) : (proc.setFd fd f).ofile other = proc.ofile other :=
  update_of_ne different _ _

theorem ProcInv.step (inv : ProcInv s held) (live : (s.proc p).phase = .live) {o : Op n}
    {answer : o.Ret} (needs : (held p).pre o) (executed : Exec s p o answer next) :
    ProcInv next (update held p ((held p).change o answer)) := by
  have entry := inv.entry p
  have own (proc : Proc) (q : Fin n) (other : q ≠ p) : (s.setProc p proc).proc q = s.proc q :=
    setProc_other other proc
  have used {proc : Proc} (same : proc.phase = (s.proc p).phase) (unused : proc.phase = .unused) :
      (∀ fd, proc.ofile fd = none) ∧ proc.cwd = none :=
    nomatch live.symm.trans (same.symm.trans unused)
  cases executed
  case oldFd fd =>
    refine inv.change live (fun _ _ => rfl) ⟨absurd live, entry.unused, ?_, entry.own, ?_, entry.away⟩ rfl
    · intro fd' f isStale
      simp only [Refs.change, Refs.taken, Option.map_eq_some_iff] at isStale
      obtain ⟨g, found, same⟩ := isStale
      cases same
      exact found
    · intro fd' closed
      simp only [Refs.change, Refs.taken] at closed
      split at closed
      · rename_i empty
        cases closed with
        | head => exact Option.isNone_iff_eq_none.mp empty
        | tail _ old => exact entry.shut fd' old
      · exact entry.shut fd' closed
  case fdallocFound f fd empty =>
    refine inv.change live (own _) ?_ rfl
    rw [setProc_self]
    refine ⟨absurd live, used rfl, ?_, ?_, ?_, entry.away⟩
    · intro fd' g isStale
      simp only [Refs.change, Refs.entered] at isStale
      split at isStale
      · cases isStale
      · cases isStale
        rw [Proc.setFd_self]
    · intro fd' g isOwn
      cases isOwn
      rw [Proc.setFd_self]
    · intro fd' closed
      simp only [Refs.change, Refs.entered, needs.2] at closed
      cases closed
  case fdallocFull f =>
    refine inv.change live (fun _ _ => rfl)
      ⟨absurd live, entry.unused, ?_, entry.own, entry.shut, entry.away⟩ rfl
    intro fd' g isStale
    simp only [Refs.change, Refs.entered, Option.map_none] at isStale
    split at isStale <;> cases isStale
  case clearFd fd =>
    refine inv.change live (own _) ?_ rfl
    rw [setProc_self]
    refine ⟨absurd live, used rfl, nofun, nofun,
      ?_, entry.away⟩
    intro fd' closed
    by_cases same : fd' = fd
    · rw [same, Proc.setFd_self]
    · rw [Proc.setFd_other _ same]
      cases closed with
      | head => exact absurd rfl same
      | tail _ old => exact entry.shut fd' old
  case filedup f used =>
    exact inv.change live (fun _ _ => rfl) ⟨absurd live, entry.unused, nofun,
      entry.own, entry.shut, entry.away⟩ rfl
  case setCwd cwd =>
    refine inv.change live (own _) ?_ rfl
    rw [setProc_self]
    exact ⟨absurd live, used rfl, entry.stale, entry.own, entry.shut, Option.isNone_iff_eq_none.mp⟩
  case leave =>
    obtain ⟨done, closed, isAway⟩ := needs
    refine inv.change live (own _) ?_ done.child.symm
    rw [setProc_self]
    exact .idle fun _ => ⟨fun fd => entry.shut fd (closed fd), entry.away isAway⟩
  case allocprocFound c unused =>
    refine inv.changeChild live (by rw [unused]; decide) ?_ nofun ?_ rfl
    · intro q d isChild
      have made := (inv.child q c d.1 d.2 isChild).phase
      rw [unused] at made
      cases made
    · intro d fds given isChild
      cases isChild
      have empty := (inv.entry c).unused unused
      exact ⟨rfl, rfl, fun fd _ => empty.1 fd, fun _ => empty.2⟩
  case allocprocFull =>
    exact inv.frame live rfl needs.symm rfl
  case setChildFd c fd f =>
    obtain ⟨fds, given, isChild, -⟩ := needs
    have before := inv.child p c fds given isChild
    refine inv.changeMade live isChild (fun unused => nomatch before.phase.symm.trans unused) ?_ rfl
    intro d fds' given' isNow
    simp only [Refs.change, Refs.gaveFd, isChild, Option.map_some] at isNow
    cases isNow
    refine ⟨rfl, before.phase, ?_, before.cwd⟩
    intro fd' left
    have isLeft := List.mem_filter.mp left
    rw [Proc.setFd_other _ (of_decide_eq_true isLeft.2)]
    exact before.ofile fd' isLeft.1
  case setChildCwd c i =>
    obtain ⟨fds, isChild, -⟩ := needs
    have before := inv.child p c fds false isChild
    refine inv.changeMade live isChild (fun unused => nomatch before.phase.symm.trans unused) ?_ rfl
    intro d fds' given' isNow
    simp only [Refs.change, Refs.gaveCwd, isChild, Option.map_some] at isNow
    cases isNow
    exact ⟨rfl, before.phase, before.ofile, nofun⟩
  case startChild c =>
    obtain ⟨fds, given, isChild⟩ := needs
    exact inv.changeMade live isChild nofun nofun rfl
  case dropChild c =>
    have before := inv.child p c _ _ needs
    refine inv.changeMade live needs ?_ nofun rfl
    exact fun _ => ⟨fun fd => before.ofile fd (List.mem_finRange fd), before.cwd rfl⟩
  all_goals exact inv.frame live rfl rfl rfl

end Xv6.Fs
