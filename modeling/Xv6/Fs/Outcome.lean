import Xv6.Fs.Runs

/-!
What holds in every run of the file system.

Owns: exact link counts and a tree below the root, and no entry without its inode, in the runs
that remove no directory in use, with a run for each that does and breaks it; and what a circle of
processes that wait for inode locks looks like, with a run into one.

Does not own: the invariant behind them (`Xv6.Fs.Order`, `Xv6.Fs.Runs`).
-/

open Tally (hits_other)

namespace Xv6.Fs

open Interleave
open Relation (ReflTransGen TransGen)
open TransitionSystem (run)

variable {n : Nat} {inode : Inum → Inode} {p q : Fin n} {c : Config (machine n)}
  {t : Tree} {i : Inum} {s : State n}

/-! ## Links -/

/-- A directory has an entry for an inode. -/
def Names (inode : Inum → Inode) (dp i : Inum) : Prop :=
  (inode dp).type = .dir ∧ ∃ e, some e ∈ (inode dp).entries ∧ e.inum = i

/-- The entry that is counted. -/
theorem Inode.exists_of_names {d : Inode} (positive : 0 < d.names i) :
    ∃ e, some e ∈ d.entries ∧ ¬Dotted e.name ∧ e.inum = i := by
  obtain ⟨slot, member, isNamed⟩ := List.countP_pos_iff.mp positive
  cases slot with
  | none => cases isNamed
  | some e => exact ⟨e, member, of_decide_eq_true isNamed⟩

/-- From the root every directory of the tree is reached. -/
theorem Tree.Good.reaches (good : t.Good inode) {j : Inum} (member : j ∈ t.dirs) :
    ReflTransGen (Names inode) rootino j := by
  induction level : t.rank j using Nat.strong_induction_on generalizing j with
  | _ _ ih =>
    by_cases isRoot : j = rootino
    · rw [isRoot]
    · have above := good.up j member
      obtain ⟨e, entry, -, same⟩ := Inode.exists_of_names (good.named member isRoot)
      exact (ih _ (level ▸ good.rank j member isRoot) above rfl).tail
        ⟨(good.isDir _ above).type, e, entry, same⟩

/-- Every link count is the number of entries for the inode, and what has a link is found. -/
structure LinksExact (inode : Inum → Inode) : Prop where
  nlink : ∀ i, (inode i).nlink = ∑ j ∈ Finset.univ.filter (fun j =>
    (inode j).type = .dir ∧ 0 < (inode j).nlink), (inode j).links i
  reached : ∀ i, 0 < (inode i).nlink → ReflTransGen (Names inode) rootino i

theorem LinkInv.dirs (inv : LinkInv s (fun _ => .idle) (fun _ => .idle) t) :
    t.dirs = Finset.univ.filter fun j => (s.inode j).type = .dir ∧ 0 < (s.inode j).nlink := by
  ext j
  have counted := inv.exact j
  simp only [Links.idle, Multiset.count_zero, Finset.sum_const_zero, Nat.add_zero] at counted
  simp only [Finset.mem_filter, Finset.mem_univ, true_and]
  constructor
  · intro member
    have positive := inv.good.total_pos member
    exact ⟨(inv.good.isDir j member).type, by omega⟩
  · rintro ⟨isDir, positive⟩
    exact inv.good.mem_of_total isDir (by omega)

/-- Link counts are exact whenever no call is in progress, in any interleaving in which no
directory is removed that something else refers to. -/
theorem links_exact_when_quiet (reached : Reached c) (quiet : c.quiet) :
    LinksExact c.shared.inode := by
  obtain ⟨t, inv⟩ := (idle_of_quiet reached.holds quiet).tree rfl
  replace inv : LinkInv c.shared (fun _ => .idle) (fun _ => .idle) t := inv
  have counted (i : Inum) : (c.shared.inode i).nlink = t.total c.shared.inode i := by
    simpa [Links.idle] using inv.exact i
  refine ⟨fun i => ?_, fun i positive => ?_⟩
  · rw [counted, ← inv.dirs]
    simp [Tree.total]
  · have linked : 0 < t.total c.shared.inode i := by
      have exact_ := counted i
      omega
    rw [inv.good.total_eq] at linked
    obtain ⟨j, member, positive⟩ :=
      Finset.exists_ne_zero_of_sum_ne_zero (Nat.pos_iff_ne_zero.mp linked)
    by_cases isUp : t.up j = i
    · rw [← isUp]
      exact inv.good.reaches (inv.good.up j member)
    · rw [hits_other isUp, Nat.add_zero] at positive
      obtain ⟨e, entry, -, same⟩ := Inode.exists_of_names (Nat.pos_of_ne_zero positive)
      exact (inv.good.reaches member).tail ⟨(inv.good.isDir j member).type, e, entry, same⟩

/-- Two directories are made and one of them removed, and a file gets a second name. -/
def removeCalls : List (Fin 2 × Call × Bool × Nat) :=
  [(0, .mkdir ⟨true, ["a"]⟩, false, 31), (0, .mkdir ⟨true, ["a", "b"]⟩, false, 41),
    (0, .unlink ⟨true, ["a", "b"]⟩, false, 36),
    (0, .open_ ⟨true, ["a", "f"]⟩ ⟨false, true, true⟩, false, 35),
    (0, .link ⟨true, ["a", "f"]⟩ ⟨true, ["g"]⟩, false, 42)]

theorem removeCalls_reached : Reached (after removeCalls) :=
  after_reached (by decide +kernel) (by decide +kernel)

theorem links_exact_removeCalls : LinksExact (after removeCalls).shared.inode :=
  links_exact_when_quiet removeCalls_reached (quiet_of_isNone (by decide +kernel))

/-- A process makes a file in its current directory, which it has removed. -/
def removedCwdCalls : List (Fin 2 × Call × Bool × Nat) :=
  [(0, .mkdir ⟨true, ["a"]⟩, false, 31), (0, .chdir ⟨true, ["a"]⟩, false, 22),
    (0, .unlink ⟨true, ["a"]⟩, false, 26),
    (0, .open_ ⟨false, ["f"]⟩ ⟨false, true, true⟩, false, 28)]

/-- The file has a link count of 1, and no directory with links has an entry for it. -/
theorem links_wrong_removedCwd :
    run step (boot emptyImage 0) (script removedCwdCalls) = some (after removedCwdCalls) ∧
      (after removedCwdCalls).quiet ∧ ¬LinksExact (after removedCwdCalls).shared.inode := by
  refine ⟨after_ran (by decide +kernel), quiet_of_isNone (by decide +kernel), fun exact => ?_⟩
  have wrong := exact.nlink ⟨3, by decide⟩
  revert wrong
  decide +kernel

/-! ## Entries -/

/-- Every entry of a directory that is linked or referred to names an inode in use, and `..` a
directory. -/
def EntriesLead (s : State n) : Prop :=
  ∀ j e, (s.inode j).type = .dir → 0 < (s.inode j).nlink ∨ 0 < s.ref j →
    some e ∈ (s.inode j).entries →
      (s.inode e.inum).type ≠ .free ∧ (e.name = ".." → (s.inode e.inum).type = .dir)

theorem LinkInv.entriesLead (inv : LinkInv s (fun _ => .idle) (fun _ => .idle) t)
    (counts : InodeInv s fun _ => .idle) : EntriesLead s := by
  intro j e isDir known entry
  have member : j ∈ t.dirs := by
    by_contra outside
    obtain ⟨noFile, noHolder⟩ := inv.shut j (.inr ⟨isDir, outside⟩)
    have unheld (q : Fin n) : inodeHolds (s.proc q) .idle j = 0 := Nat.le_zero.mp (noHolder q)
    have counted := counts.ref j
    simp only [noFile, unheld, Finset.sum_const_zero] at counted
    rw [inv.dirs, Finset.mem_filter] at outside
    rcases known with linked | referred
    · exact outside ⟨Finset.mem_univ j, isDir, linked⟩
    · omega
  obtain ⟨rest, entries, plain⟩ := (inv.good.isDir j member).shape
  have leads {k : Inum} (inTree : k ∈ t.dirs) : (s.inode k).type ≠ .free ∧ (s.inode k).type = .dir := by
    have type := (inv.good.isDir k inTree).type
    exact ⟨by rw [type]; decide, type⟩
  rw [entries] at entry
  rcases List.mem_cons.mp entry with same | entry
  · cases same
    exact ⟨(leads member).1, fun isUp => absurd isUp (by simp)⟩
  · rcases List.mem_cons.mp entry with same | entry
    · cases same
      exact ⟨(leads (inv.good.up j member)).1, fun _ => (leads (inv.good.up j member)).2⟩
    · have isPlain := plain e entry
      refine ⟨fun free => ?_, fun isUp => absurd (.inr isUp) isPlain⟩
      have named := Inode.names_pos (d := s.inode j) (by simp [entries, entry]) isPlain
      have bound := inv.good.names_le member e.inum
      have counted := inv.exact e.inum
      have none_ := inv.free e.inum free
      omega

/-- `ilock` never finds an inode without a type, and no entry is left behind, in any
interleaving in which no directory is removed that something else refers to. -/
theorem lookups_find_inodes (reached : Reached c) :
    (∀ p i, c.next p = some (.ilock i) → 0 < c.shared.ref i ∧ (c.shared.inode i).type ≠ .free) ∧
      (c.quiet → EntriesLead c.shared) := by
  constructor
  · obtain ⟨locals, inv, covers⟩ := reached.holds
    obtain ⟨t, links⟩ := inv.tree rfl
    intro p i isNext
    have needs := (covers p).needs isNext
    rcases needs.1 with member | isOpened
    · have kept := LinkInv.keeps_pos (c.shared.proc p) member
      have bound := (keeps_le _ _ i).trans (inv.counts.inodes.holds_le p i)
      exact ⟨kept.trans_le bound, links.not_free member⟩
    · obtain ⟨fd, f, entry, fresh, onInode⟩ := (inv.counts.reads p).opened i isOpened
      have counted := inv.counts.inodes.ref i
      have used := filesOn_ne_zero.mpr ⟨f, onInode⟩
      refine ⟨by omega, fun free => used (links.shut i (.inl free)).1⟩
  · intro quiet
    have idle := idle_of_quiet reached.holds quiet
    obtain ⟨t, links⟩ := idle.tree rfl
    exact links.entriesLead idle.counts.inodes

/-- The lock an operation takes, and whether it is `ilock`. -/
def Op.takes : Op n → Option (Inum × Bool)
  | .ilock i => some (i, true)
  | .acquiresleep i => some (i, false)
  | _ => none

theorem next_of_takes (isIlock : Bool) (takes : (c.next p).bind Op.takes = some (i, isIlock)) :
    c.next p = some (cond isIlock (.ilock i) (.acquiresleep i) : Op n) := by
  obtain ⟨o, isNext, takes⟩ := Option.bind_eq_some_iff.mp takes
  rw [isNext]
  cases o <;> cases takes <;> rfl

/-- Then the process forks, and the child has looked up the file by its first name. -/
def lookupCalls : List (Fin 2 × Call × Bool × Nat) :=
  removeCalls ++
    [(0, .fork, false, 25), (1, .open_ ⟨true, ["a", "f"]⟩ ⟨false, false, false⟩, false, 20)]

theorem lookups_lookupCalls : EntriesLead (after removeCalls).shared ∧
    (after lookupCalls).next (1 : Fin 2) = some (.ilock ⟨3, by decide⟩ : Op 2) ∧
      ((after lookupCalls).shared.inode ⟨3, by decide⟩).type ≠ .free := by
  have isNext : (after lookupCalls).next (1 : Fin 2) = some (.ilock ⟨3, by decide⟩ : Op 2) :=
    next_of_takes true (by decide +kernel)
  have reached : Reached (after lookupCalls) :=
    after_reached (by decide +kernel) (by decide +kernel)
  exact ⟨(lookups_find_inodes removeCalls_reached).2 (quiet_of_isNone (by decide +kernel)), isNext,
    ((lookups_find_inodes reached).1 _ _ isNext).2⟩

/-- A process removes its current directory and then the one above, and looks up `..`. -/
def removedParentCalls : List (Fin 2 × Call × Bool × Nat) :=
  [(0, .mkdir ⟨true, ["a"]⟩, false, 31), (0, .mkdir ⟨true, ["a", "b"]⟩, false, 41),
    (0, .chdir ⟨true, ["a", "b"]⟩, false, 31), (0, .unlink ⟨true, ["a", "b"]⟩, false, 35),
    (0, .unlink ⟨true, ["a"]⟩, false, 27)]

/-- The entry `..` is left behind, and the next lookup comes to the panic of `ilock`. -/
theorem entries_dangle_removedParent :
    run step (boot emptyImage 0) (script removedParentCalls) = some (after removedParentCalls) ∧
      (after removedParentCalls).quiet ∧ ¬EntriesLead (after removedParentCalls).shared ∧
      (∃ c, run step (after removedParentCalls) (script [(0, .chdir ⟨false, [".."]⟩, false, 13)]) = some c ∧
        c.next (0 : Fin 2) = some (.ilock ⟨2, by decide⟩ : Op 2) ∧
        (c.shared.inode ⟨2, by decide⟩).type = .free) := by
  refine ⟨after_ran (by decide +kernel), quiet_of_isNone (by decide +kernel), fun leads => ?_, ?_⟩
  · exact (leads ⟨3, by decide⟩ ⟨"..", ⟨2, by decide⟩⟩ (by decide +kernel) (.inr (by decide +kernel))
      (by decide +kernel)).1 (by decide +kernel)
  · refine ⟨_, (Option.some_get (by decide +kernel)).symm, next_of_takes true (by decide +kernel), ?_⟩
    decide +kernel

/-! ## Locks -/

/-- A process is about to take a lock that another one, or it itself, holds. -/
def Waits (c : Config (machine n)) (p q : Fin n) : Prop :=
  ∃ i, (c.next p = some (.ilock i : Op n) ∨ c.next p = some (.acquiresleep i : Op n)) ∧
    c.shared.lock i = some q

/-- A process about to take a lock in `ilock` that holds one: it holds the lock of a directory, and
wants that of an entry or of a new inode. -/
theorem HoldInv.nested {holds : Fin n → Hold n} (inv : HoldInv true c.shared holds)
    (covers : ∀ q, (logic true n).Covers (holds q) (c.prog q)) {j : Inum}
    (isNext : c.next q = some (.ilock i : Op n)) (owner : c.shared.lock j = some q) :
    (∃ d, (holds q).locks.held = [(j, some d)] ∧
      HasDir (holds q).refs (holds q).locks (holds q).links j d) ∧
      ((holds q).Nested i ∨ (holds q).Making i) := by
  have holdsLock : j ∈ (holds q).locks.keys := (inv.owners.owner j q).mp owner
  have some_ : (holds q).locks.held ≠ [] := by
    intro none_
    simp [Locks.keys, none_] at holdsLock
  have needs : (holds q).orderPre (.ilock i : Op n) := (((covers q).needs isNext).2.2.2 rfl).2
  have way : (holds q).Nested i ∨ (holds q).Making i := needs.resolve_left some_
  refine ⟨?_, way⟩
  have single : ∃ k d, (holds q).locks.held = [(k, some d)] ∧
      HasDir (holds q).refs (holds q).locks (holds q).links k d := by
    rcases way with ⟨k, d, e, held, has, -⟩ | ⟨-, k, d, held, has⟩ <;> exact ⟨k, d, held, has⟩
  obtain ⟨k, d, held, has⟩ := single
  simp only [Locks.keys, held, List.map_cons, List.map_nil, List.mem_singleton] at holdsLock
  subst holdsLock
  exact ⟨d, held, has⟩

/-- Along the processes that wait for each other in `ilock`, the locks lie deeper and deeper in the
tree. -/
theorem HoldInv.deeper {holds : Fin n → Hold n} (inv : HoldInv true c.shared holds)
    (covers : ∀ q, (logic true n).Covers (holds q) (c.prog q))
    (links : LinkInv c.shared (Hold.refs ∘ holds) (Hold.links ∘ holds) t) {r : Fin n} {j k : Inum}
    (first : c.shared.lock i = some q) (second : c.next q = some (.ilock j : Op n))
    (taken : c.shared.lock j = some r) (third : c.next r = some (.ilock k : Op n)) :
    t.rank i < t.rank j := by
  obtain ⟨⟨d, held, has⟩, way⟩ := inv.nested covers second first
  obtain ⟨⟨d', held', has'⟩, -⟩ := inv.nested covers third taken
  obtain ⟨known, inTree⟩ := links.hasDir inv.owners has
  obtain ⟨known', inTree'⟩ := links.hasDir inv.owners has'
  have isDir : (c.shared.inode j).type = .dir := (links.good.isDir j inTree').type
  rcases way with ⟨i', d'', e, held'', -, entry, plain, rfl⟩ | ⟨⟨x, isFresh⟩, -⟩
  · cases held.symm.trans held''
    have named := Inode.names_pos entry plain
    rw [← known] at named
    obtain ⟨-, notRoot, isUp⟩ := links.good.child inTree named isDir
    have below := links.good.rank e.inum inTree' notRoot
    rwa [isUp] at below
  · by_cases same : q = r
    · subst same
      cases held.symm.trans held'
      obtain ⟨blank, -, detached, -⟩ := (links.own q).fresh i x.1 x.2 isFresh
      rw [blank] at isDir
      exact absurd (detached isDir) has.attached
    · have kept := LinkInv.keeps_pos (c.shared.proc r) has'.member
      exact absurd (.inl ⟨x, isFresh⟩) (links.not_claims (.inr (.inr kept)) same)

/-- A process that waits in `iput`, for a lock that a process holds, while it holds one itself. -/
def WaitsInIput (c : Config (machine n)) (q r : Fin n) : Prop :=
  ∃ i j, c.next q = some (.acquiresleep i : Op n) ∧ c.shared.lock i = some r ∧
    c.shared.lock j = some q

/-- Processes that wait for each other, or for themselves, in a circle do so because of `iput`: one
of them holds the lock of an inode and waits there for that of another, which the next one holds.
In any interleaving in which no directory is removed that something else refers to. -/
theorem circle_waits_in_iput (reached : Reached c) (p : Fin n)
    (circle : TransGen (Waits c) p p) :
    ∃ q r, WaitsInIput c q r ∧ TransGen (Waits c) p q ∧ TransGen (Waits c) r p := by
  obtain ⟨holds, inv, covers⟩ := reached.holds
  obtain ⟨t, links⟩ := inv.tree rfl
  by_contra none_
  -- Otherwise every process on the circle waits in `ilock`, for a lock that lies deeper than the one
  -- the process before it waits for.
  have inIlock {q r : Fin n} (reaches : TransGen (Waits c) p q) (waits : Waits c q r)
      (back : TransGen (Waits c) r p) :
      ∃ i, c.next q = some (.ilock i : Op n) ∧ c.shared.lock i = some r := by
    obtain ⟨i, isNext | isNext, owner⟩ := waits
    · exact ⟨i, isNext, owner⟩
    · obtain ⟨u, -, j, -, owner'⟩ := TransGen.tail'_iff.mp reaches
      exact absurd ⟨q, r, ⟨i, j, isNext, owner, owner'⟩, reaches, back⟩ none_
  let level (q : Fin n) := (((c.next q).bind Op.takes).map fun lock => t.rank lock.1).getD 0
  have rises {q r : Fin n} (reaches : TransGen (Waits c) p q) (waits : Waits c q r)
      (back : TransGen (Waits c) r p) : level q < level r := by
    obtain ⟨i, first, owner⟩ := inIlock reaches waits back
    obtain ⟨u, waits', back'⟩ := TransGen.head'_iff.mp back
    have around := TransGen.trans_right back' circle
    obtain ⟨j, second, owner'⟩ := inIlock (reaches.tail waits) waits' around
    obtain ⟨v, waits'', back''⟩ := TransGen.head'_iff.mp around
    obtain ⟨k, third, -⟩ := inIlock ((reaches.tail waits).tail waits') waits'' (.trans_right back'' circle)
    simp only [level, first, second]
    exact inv.deeper covers links owner second owner' third
  have along {q : Fin n} (reaches : TransGen (Waits c) p q) :
      TransGen (Waits c) q p → level p < level q := by
    induction reaches with
    | single waits => exact rises circle waits
    | tail before waits ih =>
      intro back
      exact (ih (.head waits back)).trans (rises before waits back)
  exact absurd (along circle circle) (lt_irrefl _)

/-- A process makes a file, and has given back the lock of the root; a process that it has forked
holds it, and waits for the new file to remove it. -/
def deadlockCalls : List (Fin 2 × Call × Bool × Nat) :=
  [(0, .fork, false, 23), (0, .open_ ⟨true, ["f"]⟩ ⟨false, true, true⟩, false, 15),
    (1, .unlink ⟨true, ["f"]⟩, false, 8)]

theorem deadlockCalls_circle : TransGen (Waits (after deadlockCalls)) (0 : Fin 2) 0 := by
  have first : Waits (after deadlockCalls) (0 : Fin 2) (1 : Fin 2) :=
    ⟨rootino, .inr (next_of_takes false (by decide +kernel)), by decide +kernel⟩
  have second : Waits (after deadlockCalls) (1 : Fin 2) (0 : Fin 2) :=
    ⟨⟨2, by decide⟩, .inl (next_of_takes true (by decide +kernel)), by decide +kernel⟩
  exact .tail (.single first) second

/-- `open` and `unlink` in a deadlock. -/
theorem circle_deadlockCalls : TransGen (Waits (after deadlockCalls)) (0 : Fin 2) 0 ∧
    ∃ q r, WaitsInIput (after deadlockCalls) q r := by
  obtain ⟨q, r, waits, -⟩ := circle_waits_in_iput
    (after_reached (by decide +kernel) (by decide +kernel)) 0 deadlockCalls_circle
  exact ⟨deadlockCalls_circle, q, r, waits⟩

/-- `link("/x", "/.")` after `/x` is made: `dirlink` finds the entry `.` of the root, and gives the
root back while it is locked. -/
def linkCalls : List (Fin 2 × Call × Bool × Nat) :=
  [(0, .open_ ⟨true, ["x"]⟩ ⟨false, true, true⟩, false, 25),
    (0, .link ⟨true, ["x"]⟩ ⟨true, ["."]⟩, false, 22)]

theorem link_waits_for_itself :
    Reached (after linkCalls) ∧ Waits (after linkCalls) (0 : Fin 2) (0 : Fin 2) :=
  ⟨after_reached (by decide +kernel) (by decide +kernel),
    rootino, .inr (next_of_takes false (by decide +kernel)), by decide +kernel⟩

end Xv6.Fs
