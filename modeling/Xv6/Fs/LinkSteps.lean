import Xv6.Fs.LinkChanges

/-!
The links through every operation.

Owns: that each operation keeps the link counts in step with the tree, when a directory is only
removed while nothing else refers to it.

Does not own: which operations the calls perform (`Xv6.Fs.Safe`).
-/

open Tally (hits hits_none hits_self)

namespace Xv6.Fs

open Function (update)

variable {n : Nat} {s next : State n} {refs : Fin n → Refs n} {locks : Fin n → Locks}
  {links : Fin n → Links} {t : Tree} {p : Fin n} {r : Refs n} {a : Links}

/-- The condition on a step: a directory is only removed while nothing else refers to it. -/
def RemovesUnused (s : State n) : Op n → Prop
  | .clearEntry dp off => ∀ e, (s.inode dp).entries[off]? = some (some e) →
      (s.inode e.inum).type = .dir → s.ref e.inum = 1
  | _ => True

theorem LockInv.find (owners : LockInv s locks) {i : Inum} {d : Inode} (knows : (locks p).Knows i d) :
    (locks p).find i = some d := by
  unfold Locks.find
  cases found : (locks p).held.find? fun lock => decide (lock.1 = i) with
  | none =>
    have isNot := List.find?_eq_none.mp found _ knows
    simp at isNot
  | some lock =>
    have isKey : lock.1 = i := by simpa using List.find?_some found
    have same := List.inj_on_of_nodup_map (owners.once p) (List.mem_of_find?_eq_some found) knows
      isKey
    rw [same]
    rfl

namespace LinkInv

variable (inv : LinkInv s refs links t)

include inv

theorem fact {o : Op n} {answer : o.Ret}
    (executed : Exec s p o answer next) : (links p).fact (refs p) o answer := by
  cases executed
  case ilockValid i referenced unlocked valid | ilockRead i referenced unlocked invalid typed =>
    exact fun type got isFresh => ((inv.own p).fresh i type got isFresh).1
  case getInode i owner =>
    intro member attached isDir
    have inTree : i ∈ t.dirs := by
      by_contra outside
      exact inv.not_shut_of_keeps (LinkInv.keeps_pos _ member) attached (.inr ⟨isDir, outside⟩)
    exact ⟨t.up i, inv.good.isDir i inTree⟩
  all_goals trivial

/-- `iget`, which the process has found a way to. -/
theorem iget (owners : LockInv s locks) {i : Inum}
    (needs : (links p).pre (refs p) (locks p) (.iget i : Op n)) :
    LinkInv s (update refs p ((refs p).post (.iget i) ()))
      (update links p ((links p).gotten i)) t := by
  rcases needs with rfl | ⟨type, isFresh⟩ | ⟨dp, d, e, has, member, rfl⟩
  · exact inv.igetLinked (inv.good.total_pos inv.good.root) ⟨rfl, rfl⟩
  · exact inv.igetFresh isFresh ⟨rfl, rfl⟩
  · obtain ⟨known, inTree⟩ := inv.hasDir owners has
    rw [← known] at member
    exact inv.igetLinked (inv.entry_linked inTree member) ⟨rfl, rfl⟩

theorem addEntry (owners : LockInv s locks) {dp i : Inum}
    {name : Name} (owner : s.lock dp = some p) (member : dp ∈ (refs p).inodes)
    (needs : (links p).entryPre (refs p) (locks p) dp name i) (refsSame : LinkInv.SameRefs r (refs p)) :
    ∃ t', LinkInv (s.setInode dp ((s.inode dp).addEntry ⟨name, i⟩)) (update refs p r)
      (update links p ((links p).addedEntry dp i)) t' := by
  by_cases isOwn : (links p).detached = some dp
  · rw [Links.addedEntry, if_pos isOwn]
    exact ⟨t, inv.addOwn owner member isOwn refsSame⟩
  · rw [Links.addedEntry, if_neg isOwn]
    obtain ⟨⟨d, has⟩, notDotted, owes, kind⟩ := needs.resolve_left isOwn
    obtain ⟨-, inTree⟩ := inv.hasDir owners has
    rcases kind with ⟨notOwn, isFile⟩ | ⟨isNew, owesParent, d', knows, isDir, empty⟩
    · rw [if_neg notOwn]
      refine ⟨t, inv.addFile owner member inTree notDotted ?_ owes refsSame⟩
      rcases isFile with isPlain | ⟨d', knows, isFile⟩
      · exact ((inv.own p).plain i isPlain).2.1
      · rw [(owners.known p i d' knows).1]
        exact isFile
    · rw [if_pos isNew]
      have known := (owners.known p i d' knows).1
      refine ⟨_, inv.addDir owner member inTree notDotted isNew ?_ ?_ owes owesParent refsSame⟩
      · rw [known]
        exact isDir
      · rw [known]
        exact empty

theorem clearEntry (owners : LockInv s locks)
    (counts : InodeInv s refs) {dp : Inum} {off : Nat} (owner : s.lock dp = some p)
    (needs : (links p).clearPre (refs p) (locks p) dp off)
    (unused : RemovesUnused s (.clearEntry dp off : Op n)) (refsSame : LinkInv.SameRefs r (refs p)) :
    ∃ t', LinkInv (s.setInode dp ((s.inode dp).clearEntry off)) (update refs p r)
      (update links p ((links p).clearedEntry (locks p) dp off)) t' := by
  obtain ⟨noOther, d, e, d', has, found, notDotted, knows, hasRef, empty⟩ := needs
  obtain ⟨known, inTree⟩ := inv.hasDir owners has
  have known' := (owners.known p e.inum d' knows).1
  have target : Links.target (locks p) dp off = some (e.inum, decide (d'.type = .dir)) := by
    unfold Links.target
    rw [owners.find has.knows, Option.bind_some, found]
    simp only [owners.find knows, Option.any_some]
  rw [← known] at found
  rw [Links.clearedEntry, target]
  by_cases isDir : d'.type = .dir
  · rw [decide_eq_true isDir]
    rw [← known'] at isDir empty
    exact ⟨_, inv.clearDir counts owner has.member inTree found notDotted isDir (empty isDir) hasRef
      (unused e found isDir) noOther refsSame⟩
  · rw [decide_eq_false isDir]
    rw [← known'] at isDir
    exact ⟨t, inv.clearFile owner has.member inTree found notDotted isDir refsSame⟩

theorem getRef (counts : InodeInv s refs) {i : Inum}
    (member : i ∈ (refs p).inodes) :
    LinkInv s (update refs p ((refs p).post (.getRef i) (s.ref i)))
      (update links p ((links p).post (locks p) (.getRef i : Op n) (s.ref i))) t := by
  refine inv.looks rfl (fun _ _ _ => id) rfl rfl ⟨rfl, rfl⟩ rfl nofun nofun ?_
  intro j isSole
  simp only [Links.post] at isSole
  split at isSole
  · rename_i found
    cases isSole
    have tested := (inv.own p).tested i found.2
    have kept := LinkInv.keeps_pos (s.proc p) member
    obtain ⟨isAlone, once⟩ := LinkInv.alone_of_ref counts found.1 member
    exact ⟨tested, inv.not_free member, isAlone, once, kept⟩
  · cases isSole

theorem step (owners : LockInv s locks) (counts : RefInv s refs)
    (live : (s.proc p).phase = .live) {o : Op n} {answer : o.Ret} (needsRefs : (refs p).pre o)
    (knows : (refs p).reads o) (needsLocks : (locks p).pre o)
    (needs : (links p).pre (refs p) (locks p) o) (unused : RemovesUnused s o)
    (executed : Exec s p o answer next) :
    ∃ t', LinkInv next (update refs p ((refs p).post o answer))
      (update links p ((links p).post (locks p) o answer)) t' := by
  have locksOther {i : Inum} (unlocked : s.lock i = none) (q : Fin n) (j : Inum) (_ : q ≠ p)
      (owner : s.lock j = some q) : (s.setLock i (some p)).lock j = some q := by
    have different : j ≠ i := by
      intro same
      rw [same, unlocked] at owner
      cases owner
    exact (Function.update_of_ne different _ _).trans owner
  cases executed
  case igetNew | igetOld => exact ⟨t, LinkInv.cached (inv.iget owners needs) rfl rfl rfl rfl⟩
  case idup i =>
    obtain ⟨cwd, notStale⟩ := (counts.reads p).here i knows
    exact ⟨t, LinkInv.cached (inv.idup cwd notStale needs ⟨rfl, rfl⟩) rfl rfl rfl rfl⟩
  case ilockValid i referenced unlocked valid | ilockRead i referenced unlocked invalid typed =>
    refine ⟨t, inv.looks rfl (locksOther unlocked) rfl rfl ⟨rfl, rfl⟩ rfl ?_ nofun nofun⟩
    intro x isFresh
    exact (Option.filter_eq_some_iff.mp isFresh).1
  case acquiresleep i unlocked =>
    exact ⟨t, inv.frame rfl (locksOther unlocked) (fun _ => rfl) (fun _ => rfl) ⟨rfl, rfl⟩⟩
  case releasesleep i owner =>
    refine ⟨t, inv.frame rfl ?_ (fun _ => rfl) (fun _ => rfl) ⟨rfl, rfl⟩⟩
    intro q j isOther owned
    have different : j ≠ i := by
      intro same
      rw [same, owner] at owned
      exact isOther (Option.some.inj owned).symm
    exact (Function.update_of_ne different _ _).trans owned
  case noLinks i =>
    refine ⟨t, inv.looks rfl (fun _ _ _ => id) rfl rfl ⟨rfl, rfl⟩ rfl nofun ?_ nofun⟩
    intro j isTested
    simp only [Links.post] at isTested
    cases isUnlinked : (s.valid i && decide ((s.inode i).nlink = 0)) with
    | false =>
      rw [isUnlinked] at isTested
      cases isTested
    | true =>
      rw [isUnlinked] at isTested
      cases isTested
      exact ⟨of_decide_eq_true (Bool.and_eq_true_iff.mp isUnlinked).2,
        (owners.owner i p).mpr needsLocks⟩
  case getRef i => exact ⟨t, inv.getRef counts.inodes needs⟩
  case ifree i owner =>
    exact ⟨t, LinkInv.cached (inv.ifree needs.1 needs.2 needsRefs.1 rfl rfl) rfl rfl rfl rfl⟩
  case putRef i =>
    exact ⟨t, LinkInv.cached (inv.putRef needsRefs needs.1 needs.2 rfl rfl) rfl rfl rfl rfl⟩
  case initLink i owner =>
    obtain ⟨member, type, got, isFresh⟩ := needs
    obtain ⟨blank, typed, -⟩ := (inv.own p).fresh i type got isFresh
    refine ⟨t, inv.recount owner member (by rw [blank]; exact typed) ⟨rfl, rfl⟩ ?_ ?_ rfl (inv.own p).plain rfl⟩
    · rw [blank, show ((links p).post (locks p) (.initLink i : Op n) ()).owed = i ::ₘ (links p).owed
        from rfl, Multiset.count_cons_self]
      simp only [Inode.blank]
      omega
    · intro j different
      exact Multiset.count_cons_of_ne different _
  case addLink i owner =>
    obtain ⟨d, known⟩ := needsLocks
    have isKnown := owners.known p i d known
    refine ⟨t, inv.recount owner needs (by rw [isKnown.1]; exact isKnown.2) ⟨rfl, rfl⟩ ?_ ?_ rfl ?_ rfl⟩
    · rw [show ((links p).post (locks p) (.addLink i : Op n) ()).owed = i ::ₘ (links p).owed from rfl,
        Multiset.count_cons_self]
      omega
    · intro j different
      exact Multiset.count_cons_of_ne different _
    · intro j isPlain
      simp only [Links.post, Links.addedLink, owners.find known, Option.any_some] at isPlain
      split at isPlain
      · rename_i isFile
        cases isPlain
        rw [isKnown.1]
        exact ⟨needs, of_decide_eq_true isFile, isKnown.2⟩
      · exact (inv.own p).plain j isPlain
  case dropLink i owner =>
    obtain ⟨d, known⟩ := needsLocks
    have isKnown := owners.known p i d known
    refine ⟨t, inv.recount owner needs.1 (by rw [isKnown.1]; exact isKnown.2) ⟨rfl, rfl⟩ ?_ ?_ rfl
      nofun rfl⟩
    · have erased := count_erase needs.2 i
      rw [hits_self] at erased
      rw [show ((links p).post (locks p) (.dropLink i : Op n) ()).owed = (links p).owed.erase i from rfl]
      omega
    · intro j different
      exact Multiset.count_erase_of_ne different _
  case addEntry dp name i owner => exact inv.addEntry owners owner needs.1 needs.2 ⟨rfl, rfl⟩
  case clearEntry dp off owner => exact inv.clearEntry owners counts.inodes owner needs unused ⟨rfl, rfl⟩
  case tryAllocFree i type free => exact ⟨t, inv.tryAlloc free needsLocks needs ⟨rfl, rfl⟩⟩
  case dropFileLast f last => exact ⟨t, inv.dropFile rfl rfl rfl⟩
  case dropFileMore f more | fileallocFound f free | filedup f used =>
    exact ⟨t, inv.frame rfl (fun _ _ _ => id) (fun i => filesOn_sameKind _ i f _)
      (fun _ => rfl) ⟨rfl, rfl⟩⟩
  case setFile f kind =>
    exact ⟨t, inv.setFile (counts.files.blank p f needsRefs.1) needsRefs.2.1 needs rfl rfl⟩
  case oldCwd i cwd =>
    have notStale : (refs p).staleCwd = false := needsRefs
    refine ⟨t, inv.moveCwd (fun _ _ => rfl) ?_ rfl rfl rfl ?_⟩
    · intro j
      have counted := count_cons (some i) (refs p).inodes j
      unfold keeps
      rw [notStale, cwd, cond_false]
      show (Refs.cons (some i) (refs p).inodes).count j + hits none j = _
      rw [counted, hits_none]
      omega
    · intro j isPlain
      exact Multiset.mem_cons_of_mem ((inv.own p).plain j isPlain).1
  case setCwd cwd =>
    refine ⟨t, inv.moveCwd (fun q isOther => setProc_other isOther _) ?_ rfl rfl rfl ?_⟩
    · intro j
      have erased := count_without needsRefs.2 j
      unfold keeps
      rw [needsRefs.1, setProc_self]
      show (Refs.without cwd (refs p).inodes).count j + hits cwd j = (refs p).inodes.count j + 0
      omega
    · intro j isPlain
      exact LinkInv.mem_without ((inv.own p).plain j isPlain).1 fun isCwd => needs j isCwd isPlain
  case setChildCwd c i =>
    obtain ⟨fds, isChild, member⟩ := needsRefs
    have different : c ≠ p := not_self live (counts.slots.dead isChild)
    exact ⟨t, inv.setChildCwd different member needs.1 needs.2 rfl rfl⟩
  case leave =>
    have done : (refs p).Done := needsRefs.1
    have nothing : (links p).lasting = .idle := Links.Done.lasting needs
    have kept : LinkInv (s.setProc p { s.proc p with phase := .unused })
        (update refs p .idle) (update links p (links p).lasting) t :=
      inv.frame rfl (fun _ _ _ => id) (fun _ => rfl) (setProc_cwd rfl)
        ⟨done.inodes.symm, done.staleCwd.symm⟩
    rw [nothing] at kept
    exact ⟨t, kept⟩
  case fdallocFound | clearFd | allocprocFound | setChildFd | startChild | dropChild =>
    exact ⟨t, inv.frame rfl (fun _ _ _ => id) (fun _ => rfl) (setProc_cwd rfl) ⟨rfl, rfl⟩⟩
  all_goals
    exact ⟨t, inv.frame rfl (fun _ _ _ => id) (fun _ => rfl) (fun _ => rfl) ⟨rfl, rfl⟩⟩

/-- A call that owes nothing is the same as no call. -/
theorem returns (refsDone : (refs p).Done)
    (done : (links p).Done) :
    LinkInv s (update refs p .idle) (update links p .idle) t := by
  rw [← done.lasting]
  exact inv.frame rfl (fun _ _ _ => id) (fun _ => rfl) (fun _ => rfl)
    ⟨refsDone.inodes.symm, refsDone.staleCwd.symm⟩

end LinkInv

end Xv6.Fs
