import Xv6.Fs.Links

/-!
Links while references come and go.

Owns: that taking and giving back references to inodes keeps the link counts in step with the
tree, as references are taken through links only.

Does not own: changes to inodes (`Xv6.Fs.LinkChanges`).
-/

open Tally (hits hits_none hits_self hits_other)

namespace Xv6.Fs

open Function (update update_self update_of_ne)

variable {n : Nat} {s next : State n} {refs refs' : Fin n → Refs n} {locks : Fin n → Locks}
  {links : Fin n → Links} {t t' : Tree} {p q : Fin n} {r : Refs n} {a : Links} {i dp j : Inum}
  {f : FileNo}

theorem Alone.update_self (isAlone : Alone s refs p i) (r : Refs n) :
    Alone s (update refs p r) p i := by
  refine ⟨isAlone.1, ?_⟩
  intro q isOther
  rw [update_of_ne isOther]
  exact isAlone.2 q isOther

/-- What another process knows stays so, if the step leaves alone what it claims and has locked. -/
theorem Own.carry (own : Own s refs t q a) (refsSame : refs' q = refs q)
    (detached : ∀ i, a.detached = some i → (next.inode i).type = .dir ∧ i ∉ t'.dirs)
    (plain : ∀ i, a.plain = some i → (next.inode i).type = (s.inode i).type)
    (claimed : ∀ i, a.Claims i → next.inode i = s.inode i ∧ Alone next refs' q i ∧
      keeps (next.proc q) (refs q) i ≤ keeps (s.proc q) (refs q) i)
    (locked : ∀ i, (s.inode i).nlink = 0 ∧ s.lock i = some q →
      (next.inode i).nlink = 0 ∧ next.lock i = some q) : Own next refs' t' q a where
  detached := detached
  plain i isPlain := by
    rw [plain i isPlain, refsSame]
    exact own.plain i isPlain
  fresh i type got isFresh := by
    obtain ⟨blank, typed, isDetached, bound⟩ := own.fresh i type got isFresh
    obtain ⟨same, -, less⟩ := claimed i (.inl ⟨_, isFresh⟩)
    rw [same, refsSame]
    exact ⟨blank, typed, isDetached, less.trans bound⟩
  tested i isTested := locked i (own.tested i isTested)
  sole i isSole := by
    obtain ⟨isLast, typed, once⟩ := own.sole i isSole
    obtain ⟨same, -, less⟩ := claimed i (.inr isSole)
    refine ⟨locked i isLast, ?_⟩
    rw [same, refsSame]
    exact ⟨typed, less.trans once⟩
  alone i claims := (claimed i claims).2.1

theorem Links.not_claims_lasting (a : Links) (i : Inum) : ¬a.lasting.Claims i := by
  rintro (⟨x, none_⟩ | none_) <;> cases none_

/-- A process that only has what lasts. -/
theorem Own.of_lasting (brief : a = a.lasting)
    (detached : ∀ i, a.detached = some i → (s.inode i).type = .dir ∧ i ∉ t.dirs)
    (plain : ∀ i, a.plain = some i →
      i ∈ (refs q).inodes ∧ (s.inode i).type ≠ .dir ∧ (s.inode i).type ≠ .free) :
    Own s refs t q a := by
  refine ⟨detached, plain, ?_, ?_, ?_, fun i claims => ?_⟩
  · rw [brief]
    rintro _ _ _ ⟨⟩
  · rw [brief]
    rintro _ ⟨⟩
  · rw [brief]
    rintro _ ⟨⟩
  · rw [brief] at claims
    exact absurd claims (a.not_claims_lasting i)

namespace LinkInv

section Facts

variable (inv : LinkInv s refs links t)

include inv

theorem nlink_pos (linked : 0 < t.total s.inode i) : 0 < (s.inode i).nlink := by
  rw [inv.exact i]
  exact Int.natCast_pos.mpr (Nat.add_pos_left linked _)

theorem not_shut (linked : 0 < t.total s.inode i) : ¬Shut s t i := by
  rintro (free | ⟨dir, outside⟩)
  · have positive := inv.nlink_pos linked
    rw [inv.free i free] at positive
    exact absurd positive (lt_irrefl 0)
  · exact outside (inv.good.mem_of_total dir linked)

/-- What a process has a reference to is open to it, but for its own directory. -/
theorem not_shut_of_keeps (kept : 0 < keeps (s.proc p) (refs p) i)
    (other : (links p).detached ≠ some i) : ¬Shut s t i := by
  intro shut
  have bound := (inv.shut i shut).2 p
  rw [hits, if_neg other] at bound
  omega

omit inv in
theorem keeps_pos (proc : Proc) (member : i ∈ r.inodes) : 0 < keeps proc r i := by
  have counted := Multiset.one_le_count_iff_mem.mpr member
  unfold keeps
  omega

theorem not_free (member : i ∈ (refs p).inodes) : (s.inode i).type ≠ .free := by
  intro free
  refine inv.not_shut_of_keeps (keeps_pos _ member) (fun isDetached => ?_) (.inl free)
  cases free.symm.trans ((inv.own p).detached i isDetached).1

theorem hasDir (owners : LockInv s locks) {d : Inode}
    (has : HasDir (refs p) (locks p) (links p) dp d) : s.inode dp = d ∧ dp ∈ t.dirs := by
  have known := (owners.known p dp d has.knows).1
  refine ⟨known, ?_⟩
  by_contra outside
  refine inv.not_shut_of_keeps (keeps_pos _ has.member) has.attached (.inr ⟨?_, outside⟩)
  rw [known]
  exact has.type

/-- An entry of a directory in the tree is a link, `.` included. -/
theorem entry_linked {e : Dirent} (inTree : dp ∈ t.dirs)
    (member : some e ∈ (s.inode dp).entries) : 0 < t.total s.inode e.inum := by
  obtain ⟨rest, entries, plainRest⟩ := (inv.good.isDir dp inTree).shape
  have found := member
  rw [entries] at member
  cases member with
  | head => exact inv.good.total_pos inTree
  | tail _ member =>
    cases member with
    | head => exact inv.good.up_le inTree
    | tail _ member =>
      exact lt_of_lt_of_le (Inode.names_pos found (plainRest e member))
        (inv.good.names_le inTree _)

/-- An inode that a process has to itself is in use, without links. -/
theorem unlinked_of_claims (claims : (links q).Claims i) :
    (s.inode i).nlink = 0 ∧ (s.inode i).type ≠ .free := by
  rcases claims with ⟨x, isFresh⟩ | isSole
  · obtain ⟨blank, typed, -⟩ := (inv.own q).fresh i x.1 x.2 isFresh
    rw [blank]
    exact ⟨rfl, typed⟩
  · obtain ⟨⟨unlinked, -⟩, typed, -⟩ := (inv.own q).sole i isSole
    exact ⟨unlinked, typed⟩

/-- What is linked, open in a file or referenced by another process is nobody's own. -/
theorem not_claims (shared : 0 < (s.inode i).nlink ∨ 0 < filesOn FileKind.ip s.file i ∨
      0 < keeps (s.proc p) (refs p) i) (isOther : q ≠ p) : ¬(links q).Claims i := by
  intro claims
  obtain ⟨noFile, alone⟩ := (inv.own q).alone i claims
  have unlinked := (inv.unlinked_of_claims claims).1
  have unkept := alone p isOther.symm
  omega

/-- A process that claims an inode stays alone with it if another one's references do not grow. -/
theorem alone_of_less (claims : (links q).Claims i) (isOther : q ≠ p)
    (file : next.file = s.file) (proc : next.proc = s.proc)
    (less : keeps (s.proc p) r i ≤ keeps (s.proc p) (refs p) i) :
    Alone next (update refs p r) q i := by
  obtain ⟨files, alone⟩ := (inv.own q).alone i claims
  refine ⟨file ▸ files, fun q' isOther' => ?_⟩
  rw [proc]
  refine Update.cases q' ?_ fun _ => alone q' isOther'
  exact Nat.le_zero.mp (less.trans (alone p isOther.symm).le)

/-- One process changes what it owes and knows. -/
theorem of_own (good : t'.Good next.inode) (exact_ : ∀ i, (next.inode i).nlink =
      (t'.total next.inode i + ∑ q, (update links p a q).owed.count i : Nat))
    (free : ∀ i, (next.inode i).type = .free → (next.inode i).nlink = 0)
    (shut : ∀ i, Shut next t' i → filesOn FileKind.ip next.file i = 0 ∧
      keeps (next.proc p) (refs' p) i ≤ hits a.detached i ∧
      ∀ q, q ≠ p → keeps (next.proc q) (refs' q) i ≤ hits (links q).detached i)
    (self : Own next refs' t' p a) (others : ∀ q, q ≠ p → Own next refs' t' q (links q))
    (detached : ∀ q i, q ≠ p → (links q).detached = some i → a.detached ≠ some i)
    (claims : ∀ q i, q ≠ p → (links q).Claims i → ¬a.Claims i) :
    LinkInv next refs' (update links p a) t' := by
  refine ⟨good, exact_, free, fun i isShut => ?_, fun q => Update.cases q self (others q),
    fun _ _ i => Update.once (fun b : Links => b.detached = some i) (inv.detachedOnce · · i)
      (detached · i),
    fun _ _ i => Update.once (fun b : Links => b.Claims i) (inv.claimedOnce · · i) (claims · i)⟩
  obtain ⟨files, selfLess, othersLess⟩ := shut i isShut
  exact ⟨files, fun q => Update.cases q selfLess (othersLess q)⟩

/-- An inode that a process may come to. -/
def Open (s : State n) (links : Fin n → Links) (t : Tree) (p : Fin n) (i : Inum) : Prop :=
  ¬Shut s t i ∧ ∀ q, q ≠ p → ¬(links q).Claims i

theorem open_of_linked (linked : 0 < t.total s.inode i) : Open s links t p i :=
  ⟨inv.not_shut linked, fun _ => inv.not_claims (.inl (inv.nlink_pos linked))⟩

theorem open_of_keeps (kept : 0 < keeps (s.proc p) (refs p) i)
    (other : (links p).detached ≠ some i) : Open s links t p i :=
  ⟨inv.not_shut_of_keeps kept other, fun _ => inv.not_claims (.inr (.inr kept))⟩

omit inv in
theorem owed_sum (links : Fin n → Links) (p : Fin n) (a : Links) (j : Inum) :
    ∑ q, (update links p a q).owed.count j + (links p).owed.count j =
      ∑ q, (links q).owed.count j + a.owed.count j :=
  Tally.sum_update (fun b : Links => b.owed.count j) links p a

/-- The inodes stay as they are. References and files may only grow at inodes that are open, or
the process's own, and that nobody else has to itself. -/
theorem still (inode : next.inode = s.inode)
    (lock : ∀ q i, q ≠ p → s.lock i = some q → next.lock i = some q)
    (files : ∀ i, filesOn FileKind.ip next.file i ≤ filesOn FileKind.ip s.file i ∨
      Open s links t p i)
    (others : ∀ q i, q ≠ p → keeps (next.proc q) (refs q) i ≤ keeps (s.proc q) (refs q) i ∨
      Open s links t p i)
    (self : ∀ i, keeps (next.proc p) r i ≤ keeps (s.proc p) (refs p) i ∨ Open s links t p i ∨
      keeps (next.proc p) r i ≤ hits a.detached i ∧ (links p).Claims i)
    (owed : a.owed = (links p).owed)
    (detached : ∀ i, (links p).detached = some i → a.detached = some i ∨
      keeps (next.proc p) r i = 0)
    (wasDetached : ∀ i, a.detached = some i → (links p).detached = some i)
    (own : Own next (update refs p r) t p a)
    (claims : ∀ i, a.Claims i → (links p).Claims i ∨ 0 < keeps (s.proc p) (refs p) i) :
    LinkInv next (update refs p r) (update links p a) t := by
  have alone (q : Fin n) (i : Inum) (isOther : q ≠ p) (isClaimed : (links q).Claims i) :
      Alone next (update refs p r) q i ∧
        keeps (next.proc q) (refs q) i ≤ keeps (s.proc q) (refs q) i := by
    have isAlone := (inv.own q).alone i isClaimed
    have isShut : ¬Open s links t p i := fun isOpen => isOpen.2 q isOther isClaimed
    refine ⟨⟨?_, ?_⟩, (others q i isOther).resolve_right isShut⟩
    · exact Nat.le_zero.mp (isAlone.1 ▸ (files i).resolve_right isShut)
    · intro q' isOther'
      refine Update.cases q' ?_ fun notSelf => ?_
      · rcases self i with less | isOpen | isOwn
        · exact Nat.le_zero.mp (isAlone.2 p isOther.symm ▸ less)
        · exact absurd isOpen isShut
        · exact absurd (inv.claimedOnce q p i isClaimed isOwn.2) isOther
      · exact Nat.le_zero.mp (isAlone.2 q' isOther' ▸ (others q' i notSelf).resolve_right isShut)
  refine inv.of_own (inode ▸ inv.good) (fun i => ?_) (inode ▸ inv.free) (fun i isShut => ?_) own
    (fun q isOther => (inv.own q).carry (update_of_ne isOther ..) ?_ ?_ ?_ ?_) ?_ ?_
  · have sum := owed_sum links p a i
    rw [owed] at sum
    rw [inode, inv.exact i]
    omega
  · rw [Shut, inode] at isShut
    have notOpen : ¬Open s links t p i := fun isOpen => isOpen.1 isShut
    have before := inv.shut i isShut
    refine ⟨Nat.le_zero.mp (before.1 ▸ (files i).resolve_right notOpen), ?_, fun q isOther => ?_⟩
    · rw [update_self]
      rcases self i with less | isOpen | isOwn
      · have bound := le_trans less (before.2 p)
        by_cases isDetached : (links p).detached = some i
        · rcases detached i isDetached with still | none_
          · rwa [still, ← isDetached]
          · rw [none_]
            exact Nat.zero_le _
        · rw [hits, if_neg isDetached] at bound
          exact le_trans bound (Nat.zero_le _)
      · exact absurd isOpen notOpen
      · exact isOwn.1
    · rw [update_of_ne isOther]
      exact le_trans ((others q i isOther).resolve_right notOpen) (before.2 q)
  · rw [inode]
    exact (inv.own q).detached
  · intro i _
    rw [inode]
  · intro i isClaimed
    exact ⟨by rw [inode], alone q i isOther isClaimed⟩
  · rw [inode]
    exact fun i isLast => ⟨isLast.1, lock q i isOther isLast.2⟩
  · intro q i isOther isDetached now
    exact isOther (inv.detachedOnce q p i isDetached (wasDetached i now))
  · intro q i isOther isClaimed now
    rcases claims i now with was | kept
    · exact isOther (inv.claimedOnce q p i isClaimed was)
    · exact inv.not_claims (.inr (.inr kept)) isOther isClaimed

/-- A step after which the process only has what lasts. -/
theorem lasting (inode : next.inode = s.inode)
    (lock : ∀ q i, q ≠ p → s.lock i = some q → next.lock i = some q)
    (files : ∀ i, filesOn FileKind.ip next.file i ≤ filesOn FileKind.ip s.file i ∨
      Open s links t p i)
    (others : ∀ q i, q ≠ p → keeps (next.proc q) (refs q) i ≤ keeps (s.proc q) (refs q) i ∨
      Open s links t p i)
    (self : ∀ i, keeps (next.proc p) r i ≤ keeps (s.proc p) (refs p) i ∨ Open s links t p i)
    (plain : ∀ i, (links p).plain = some i → i ∈ r.inodes) :
    LinkInv next (update refs p r) (update links p (links p).lasting) t := by
  refine inv.still inode lock files others (fun i => (self i).imp_right .inl) rfl (fun _ => .inl)
    (fun _ => id) (.of_lasting rfl ?_ fun i isPlain => ?_)
    fun i claims => absurd claims ((links p).not_claims_lasting i)
  · rw [inode]
    exact (inv.own p).detached
  · rw [inode, update_self]
    exact ⟨plain i isPlain, ((inv.own p).plain i isPlain).2⟩

end Facts

/-- The references in use stay the same. -/
structure SameRefs (r before : Refs n) : Prop where
  inodes : r.inodes = before.inodes
  stale : r.staleCwd = before.staleCwd

theorem SameRefs.keeps {before : Refs n} (same : SameRefs r before) {proc after : Proc}
    (cwd : after.cwd = proc.cwd) (i : Inum) : keeps after r i = keeps proc before i := by
  unfold Fs.keeps
  rw [cwd, same.inodes, same.stale]

/-- A reference is taken to an inode. -/
structure Takes (refs : Fin n → Refs n) (p : Fin n) (i : Inum) (r : Refs n) : Prop where
  inodes : r.inodes = i ::ₘ (refs p).inodes
  stale : r.staleCwd = (refs p).staleCwd

theorem Takes.keeps_other (takes : Takes refs p i r) (proc : Proc) (different : j ≠ i) :
    keeps proc r j = keeps proc (refs p) j := by
  unfold keeps
  rw [takes.inodes, takes.stale, Multiset.count_cons_of_ne different]

section Steps

variable (inv : LinkInv s refs links t)

include inv

/-- Nothing changes that has to do with links. -/
theorem frame (inode : next.inode = s.inode)
    (lock : ∀ q i, q ≠ p → s.lock i = some q → next.lock i = some q)
    (files : ∀ i, filesOn FileKind.ip next.file i = filesOn FileKind.ip s.file i)
    (cwd : ∀ q, (next.proc q).cwd = (s.proc q).cwd) (same : SameRefs r (refs p)) :
    LinkInv next (update refs p r) (update links p (links p).lasting) t := by
  refine inv.lasting inode lock (fun i => .inl (files i).le) ?_ ?_ ?_
  · intro q i _
    exact .inl (SameRefs.keeps ⟨rfl, rfl⟩ (cwd q) i).le
  · intro i
    exact .inl (same.keeps (cwd p) i).le
  · intro i isPlain
    rw [same.inodes]
    exact ((inv.own p).plain i isPlain).1

/-- Links have nothing to do with the inode cache. -/
theorem cached (inode : next.inode = s.inode) (lock : next.lock = s.lock)
    (file : next.file = s.file) (proc : next.proc = s.proc) : LinkInv next refs links t := by
  cases s
  cases next
  cases inode
  cases lock
  cases file
  cases proc
  exact ⟨inv.good, inv.exact, inv.free, inv.shut, fun q => (inv.own q).carry rfl
    (inv.own q).detached (fun _ _ => rfl) (fun i claims => ⟨rfl, (inv.own q).alone i claims, le_rfl⟩)
    fun _ => id, inv.detachedOnce, inv.claimedOnce⟩

/-- A reference is taken to an inode that is open. -/
theorem take (isOpen : Open s links t p i) (takes : Takes refs p i r) :
    LinkInv s (update refs p r) (update links p (links p).lasting) t := by
  refine inv.lasting rfl (fun _ _ _ => id) (fun _ => .inl le_rfl) (fun _ _ _ => .inl le_rfl) ?_ ?_
  · intro j
    by_cases same : j = i
    · exact .inr (same ▸ isOpen)
    · exact .inl (takes.keeps_other _ same).le
  · intro j isPlain
    rw [takes.inodes]
    exact Multiset.mem_cons_of_mem ((inv.own p).plain j isPlain).1

theorem idup (here : (s.proc p).cwd = some i) (notStale : (refs p).staleCwd = false)
    (none_ : (links p).detached = none) (takes : Takes refs p i r) :
    LinkInv s (update refs p r) (update links p (links p).lasting) t := by
  refine inv.take (inv.open_of_keeps ?_ (by rw [none_]; simp)) takes
  unfold keeps
  rw [notStale, here, cond_false, hits_self]
  exact Nat.succ_pos _

/-- A reference is taken through a link of the tree. -/
theorem igetLinked (linked : 0 < t.total s.inode i) (takes : Takes refs p i r) :
    LinkInv s (update refs p r) (update links p ((links p).gotten i)) t := by
  have same : (links p).gotten i = (links p).lasting := by
    simp only [Links.gotten]
    split
    · rename_i j type got isFresh
      have different : j ≠ i := by
        rintro rfl
        have positive := inv.nlink_pos linked
        rw [(inv.unlinked_of_claims (.inl ⟨_, isFresh⟩)).1] at positive
        exact absurd positive (lt_irrefl 0)
      rw [if_neg different]
      rfl
    · rfl
  rw [same]
  exact inv.take (inv.open_of_linked linked) takes

/-- `ialloc` takes a reference to the inode it has marked. -/
theorem igetFresh {type : IType} (isFresh : (links p).fresh = some (i, type, false))
    (takes : Takes refs p i r) :
    LinkInv s (update refs p r) (update links p ((links p).gotten i)) t := by
  obtain ⟨blank, typed, isDetached, bound⟩ := (inv.own p).fresh i type false isFresh
  have claims : (links p).Claims i := .inl ⟨_, isFresh⟩
  have newFresh : ((links p).gotten i).fresh = some (i, type, true) := by
    simp only [Links.gotten, isFresh, if_true]
  have keepsSelf : keeps (s.proc p) r i ≤ 1 := by
    have none_ : keeps (s.proc p) (refs p) i = 0 := Nat.le_zero.mp bound
    unfold keeps at none_ ⊢
    rw [takes.inodes, takes.stale, Multiset.count_cons_self]
    omega
  have isClaimed (j : Inum) (now : ((links p).gotten i).Claims j) : j = i := by
    rcases now with ⟨x, isNow⟩ | none_
    · rw [newFresh] at isNow
      cases isNow
      rfl
    · cases none_
  refine inv.still rfl (fun _ _ _ => id) (fun _ => .inl le_rfl) (fun _ _ _ => .inl le_rfl) ?_ rfl
    (fun _ => .inl) (fun _ => id) ⟨(inv.own p).detached, ?_, ?_, ?_, ?_, ?_⟩ ?_
  · intro j
    by_cases same : j = i
    · subst same
      by_cases isDir : type = .dir
      · refine .inr (.inr ⟨?_, claims⟩)
        rw [show ((links p).gotten j).detached = some j from isDetached isDir, hits_self]
        exact keepsSelf
      · refine .inr (.inl ⟨?_, fun q isOther isClaimed => ?_⟩)
        · rw [Shut, blank]
          exact fun isShut => isShut.elim typed fun dir => isDir dir.1
        · exact isOther (inv.claimedOnce q p j isClaimed claims)
    · exact .inl (takes.keeps_other _ same).le
  · intro j isPlain
    rw [update_self, takes.inodes]
    exact ((inv.own p).plain j isPlain).imp_left Multiset.mem_cons_of_mem
  · intro j type' got isNow
    rw [newFresh] at isNow
    cases isNow
    rw [update_self]
    exact ⟨blank, typed, isDetached, keepsSelf⟩
  · rintro _ ⟨⟩
  · rintro _ ⟨⟩
  · intro j now
    rw [isClaimed j now]
    exact ((inv.own p).alone i claims).update_self r
  · intro j now
    rw [isClaimed j now]
    exact .inl claims

/-- Steps of a process that change no reference. -/
theorem looks (inode : next.inode = s.inode)
    (lock : ∀ q i, q ≠ p → s.lock i = some q → next.lock i = some q) (file : next.file = s.file)
    (proc : next.proc = s.proc) (refsSame : SameRefs r (refs p))
    (same : a.lasting = (links p).lasting)
    (fresh : ∀ x, a.fresh = some x → (links p).fresh = some x)
    (tested : ∀ i, a.tested = some i → (s.inode i).nlink = 0 ∧ next.lock i = some p)
    (sole : ∀ i, a.sole = some i → ((s.inode i).nlink = 0 ∧ next.lock i = some p) ∧
      (s.inode i).type ≠ .free ∧ Alone s refs p i ∧ keeps (s.proc p) (refs p) i ≤ 1 ∧
      0 < keeps (s.proc p) (refs p) i) :
    LinkInv next (update refs p r) (update links p a) t := by
  simp only [Links.lasting, Links.mk.injEq, and_true] at same
  obtain ⟨owed, detached, plain⟩ := same
  have kept (i : Inum) : keeps (next.proc p) r i = keeps (s.proc p) (refs p) i :=
    refsSame.keeps (by rw [proc]) i
  have claims (i : Inum) (now : a.Claims i) : Alone s refs p i ∧
      ((links p).Claims i ∨ 0 < keeps (s.proc p) (refs p) i) := by
    rcases now with ⟨x, isFresh⟩ | isSole
    · have was : (links p).Claims i := .inl ⟨x, fresh _ isFresh⟩
      exact ⟨(inv.own p).alone i was, .inl was⟩
    · obtain ⟨-, -, isAlone, -, positive⟩ := sole i isSole
      exact ⟨isAlone, .inr positive⟩
  refine inv.still inode lock (fun i => .inl (by rw [file])) (fun q i _ => .inl (by rw [proc]))
    (fun i => .inl (kept i).le) owed (fun i isDetached => .inl (detached.trans isDetached))
    (fun i isDetached => detached.symm.trans isDetached) ⟨?_, ?_, ?_, ?_, ?_, ?_⟩
    fun i now => (claims i now).2
  · rw [inode, detached]
    exact (inv.own p).detached
  · rw [inode, plain, update_self, refsSame.inodes]
    exact (inv.own p).plain
  · intro i type got isFresh
    rw [inode, update_self, detached, kept]
    exact (inv.own p).fresh i type got (fresh _ isFresh)
  · rw [inode]
    exact tested
  · intro i isSole
    obtain ⟨isLast, typed, -, once, -⟩ := sole i isSole
    rw [inode, update_self, kept]
    exact ⟨isLast, typed, once⟩
  · intro i now
    rw [Alone, file, proc]
    exact (claims i now).1.update_self r

/-- A reference is given back. -/
theorem putRef (needs : (refs p).dying = some i ∨ (refs p).dying = none ∧ i ∈ (refs p).inodes)
    (dying : (refs p).dying = some i → (links p).detached ≠ some i)
    (plain : ∀ j, (links p).plain = some j → j ∈ r.inodes)
    (inodes : r.inodes = ((refs p).dropped i).inodes) (stale : r.staleCwd = (refs p).staleCwd) :
    LinkInv s (update refs p r) (update links p ((links p).lasting.attach i)) t := by
  have fewer : r.inodes ≤ (refs p).inodes := by
    rw [inodes]
    simp only [Refs.dropped]
    split
    · exact le_rfl
    · exact Multiset.erase_le _ _
  have less (j : Inum) : keeps (s.proc p) r j ≤ keeps (s.proc p) (refs p) j := by
    have counted := Multiset.count_le_of_le j fewer
    unfold keeps
    rw [stale]
    omega
  have was (j : Inum) (isDetached : ((links p).lasting.attach i).detached = some j) :
      (links p).detached = some j := (Option.filter_eq_some_iff.mp isDetached).1
  refine inv.still rfl (fun _ _ _ => id) (fun _ => .inl le_rfl) (fun _ _ _ => .inl le_rfl)
    (fun j => .inl (less j)) rfl ?_ was (.of_lasting rfl ?_ ?_)
    fun j claims => absurd claims (((links p).lasting.attach i).not_claims_lasting j)
  · intro j isDetached
    by_cases same : j = i
    · subst same
      right
      -- its only reference is the one given back
      have bound := (inv.shut j (.inr ((inv.own p).detached j isDetached))).2 p
      rw [isDetached, hits_self] at bound
      have member := (needs.resolve_left fun isDying => dying isDying isDetached)
      have counted := Multiset.one_le_count_iff_mem.mpr member.2
      unfold keeps at bound ⊢
      rw [stale, inodes]
      simp only [Refs.dropped, member.1, Option.isSome_none, Bool.false_eq_true, if_false,
        Multiset.count_erase_self]
      omega
    · exact .inl (Option.filter_eq_some_iff.mpr ⟨isDetached, decide_eq_true same⟩)
  · intro j isDetached
    exact (inv.own p).detached j (was j isDetached)
  · intro j isPlain
    rw [update_self]
    exact ⟨plain j isPlain, ((inv.own p).plain j isPlain).2⟩

/-- `fileclose` takes the reference of the file over. -/
theorem dropFile {file : File} (lost : file.kind.ip = none)
    (inodes : r.inodes = Refs.cons (s.file f).kind.ip (refs p).inodes)
    (stale : r.staleCwd = (refs p).staleCwd) :
    LinkInv (s.setFile f file) (update refs p r) (update links p (links p).lasting) t := by
  have changed (i : Inum) := filesOn_set FileKind.ip i s f file
  simp only [lost, hits_none] at changed
  refine inv.lasting rfl (fun _ _ _ => id) ?_ (fun _ _ _ => .inl le_rfl) ?_ ?_
  · intro i
    have change := changed i
    exact .inl (by omega)
  · intro i
    by_cases isIp : (s.file f).kind.ip = some i
    · right
      have filed := changed i
      rw [isIp, hits_self] at filed
      refine ⟨fun isShut => ?_, fun q => inv.not_claims (.inr (.inl (by omega)))⟩
      have none_ := (inv.shut i isShut).1
      omega
    · left
      unfold keeps
      rw [inodes, stale, count_cons, hits, if_neg isIp]
      exact le_rfl
  · intro i isPlain
    have member := ((inv.own p).plain i isPlain).1
    rw [inodes]
    cases (s.file f).kind.ip with
    | none => exact member
    | some _ => exact Multiset.mem_cons_of_mem member

omit inv in
/-- A plain inode that is not given away stays. -/
theorem mem_without {x : Option Inum} (member : i ∈ r.inodes) (kept : x ≠ some i) :
    i ∈ Refs.without x r.inodes := by
  cases x with
  | none => exact member
  | some j => exact (Multiset.mem_erase_of_ne fun same => kept (congrArg some same.symm)).mpr member

/-- The reference of a process becomes that of a file. -/
theorem setFile {kind : FileKind} (blank : (s.file f).kind = .none)
    (members : ∀ i, kind.ip = some i → i ∈ (refs p).inodes)
    (others : ∀ i, kind.ip = some i → (links p).detached ≠ some i ∧ (links p).plain ≠ some i)
    (inodes : r.inodes = Refs.without kind.ip (refs p).inodes)
    (stale : r.staleCwd = (refs p).staleCwd) :
    LinkInv (s.setFile f { s.file f with kind := kind }) (update refs p r)
      (update links p (links p).lasting) t := by
  refine inv.lasting rfl (fun _ _ _ => id) ?_ (fun _ _ _ => .inl le_rfl) ?_ ?_
  · intro i
    have change := filesOn_set FileKind.ip i s f { s.file f with kind := kind }
    rw [blank, show FileKind.ip .none = none from rfl, hits_none] at change
    by_cases isIp : kind.ip = some i
    · exact .inr (inv.open_of_keeps (keeps_pos _ (members i isIp)) (others i isIp).1)
    · have none_ : hits (FileKind.ip { s.file f with kind := kind }.kind) i = 0 := if_neg isIp
      exact .inl (by omega)
  · intro i
    have erased := count_without members i
    left
    unfold keeps
    rw [inodes, stale]
    show _ + hits (cond _ none (s.proc p).cwd) i ≤ _
    omega
  · intro i isPlain
    rw [inodes]
    exact mem_without ((inv.own p).plain i isPlain).1 fun isIp => (others i isIp).2 isPlain

/-- The current directory becomes a variable or a variable the current directory. -/
theorem moveCwd (proc : ∀ q, q ≠ p → next.proc q = s.proc q)
    (same : ∀ i, keeps (next.proc p) r i = keeps (s.proc p) (refs p) i)
    (inode : next.inode = s.inode) (lock : next.lock = s.lock) (file : next.file = s.file)
    (plain : ∀ i, (links p).plain = some i → i ∈ r.inodes) :
    LinkInv next (update refs p r) (update links p (links p).lasting) t :=
  inv.lasting inode (fun q j _ owner => by rw [lock, owner]) (fun _ => .inl (by rw [file]))
    (fun q _ isOther => .inl (by rw [proc q isOther])) (fun i => .inl (same i).le) plain

/-- `fork` gives its directory to the child. -/
theorem setChildCwd {c : Fin n} (different : c ≠ p) (member : i ∈ (refs p).inodes)
    (detached : (links p).detached ≠ some i) (notPlain : (links p).plain ≠ some i)
    (inodes : r.inodes = (refs p).inodes.erase i) (stale : r.staleCwd = (refs p).staleCwd) :
    LinkInv (s.setProc c { s.proc c with cwd := some i }) (update refs p r)
      (update links p (links p).lasting) t := by
  refine inv.lasting rfl (fun _ _ _ => id) (fun _ => .inl le_rfl) ?_ ?_ ?_
  · intro q j isOther
    by_cases same : j = i
    · exact .inr (same ▸ inv.open_of_keeps (keeps_pos _ member) detached)
    · left
      by_cases isChild : q = c
      · subst isChild
        rw [setProc_self]
        unfold keeps
        have none_ : hits (some i) j = 0 := hits_other (Ne.symm same)
        cases (refs q).staleCwd with
        | true => exact le_rfl
        | false =>
          simp only [cond_false, none_]
          omega
      · rw [setProc_other isChild]
  · intro j
    have erased := count_erase member j
    left
    rw [setProc_other (Ne.symm different)]
    unfold keeps
    rw [inodes, stale]
    omega
  · intro j isPlain
    rw [inodes]
    exact mem_without (x := some i) ((inv.own p).plain j isPlain).1
      fun same => notPlain (same ▸ isPlain)

end Steps

end LinkInv

end Xv6.Fs
