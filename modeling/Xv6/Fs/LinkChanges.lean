import Xv6.Fs.LinkRefs

/-!
Links while inodes change.

Owns: that changing link counts, making and removing entries, and marking and freeing inodes
keeps the link counts in step with the tree.

Does not own: which operation makes which change (`Xv6.Fs.LinkSteps`).
-/

open Tally (hits hits_self)

namespace Xv6.Fs

open Function (update update_self update_of_ne)

variable {n off : Nat} {s next : State n} {refs : Fin n → Refs n} {locks : Fin n → Locks}
  {links : Fin n → Links} {t t' : Tree} {p : Fin n} {r : Refs n} {a : Links} {i dp : Inum} {d : Inode}
  {name : Name} {e : Dirent}

namespace LinkInv

section Changes

variable (inv : LinkInv s refs links t)

include inv

/-- One inode changes, and maybe the tree. -/
theorem set (good : t'.Good (update s.inode i d)) (exact_ : ∀ j, (update s.inode i d j).nlink =
      (t'.total (update s.inode i d) j + ∑ q, (update links p a q).owed.count j : Nat))
    (free : d.type = .free → d.nlink = 0)
    (less : ∀ j, keeps (s.proc p) r j ≤ keeps (s.proc p) (refs p) j)
    (shut : ∀ j, Shut (s.setInode i d) t' j →
      Shut s t j ∧ ((links p).detached = some j → a.detached = some j) ∨
        Alone s refs p j ∧ keeps (s.proc p) r j ≤ hits a.detached j)
    (own : Own (s.setInode i d) (update refs p r) t' p a)
    (others : ∀ q, q ≠ p → ¬(links q).Claims i ∧
      ((links q).plain = some i → d.type = (s.inode i).type) ∧
      (s.lock i = some q → (s.inode i).nlink = 0 → d.nlink = 0))
    (detached : ∀ q j, q ≠ p → (links q).detached = some j →
      ((s.setInode i d).inode j).type = .dir ∧ j ∉ t'.dirs ∧ a.detached ≠ some j)
    (claims : ∀ q j, q ≠ p → (links q).Claims j → ¬a.Claims j) :
    LinkInv (s.setInode i d) (update refs p r) (update links p a) t' := by
  have other {j : Inum} (different : j ≠ i) : (s.setInode i d).inode j = s.inode j :=
    update_of_ne different _ _
  have self : (s.setInode i d).inode i = d := update_self ..
  refine inv.of_own good exact_ (fun j isFree => ?_) (fun j isShut => ?_) own
    (fun q isOther => (inv.own q).carry (update_of_ne isOther ..) ?_ ?_ ?_ ?_)
    (fun q j isOther isDetached => (detached q j isOther isDetached).2.2) claims
  · by_cases same : j = i
    · subst same
      rw [self] at isFree ⊢
      exact free isFree
    · rw [other same] at isFree ⊢
      exact inv.free j isFree
  · rcases shut j isShut with ⟨wasShut, still⟩ | ⟨isAlone, bound⟩
    · have before := inv.shut j wasShut
      refine ⟨before.1, ?_, fun q isOther => by rw [update_of_ne isOther]; exact before.2 q⟩
      rw [update_self]
      refine (less j).trans ((before.2 p).trans ?_)
      by_cases isDetached : (links p).detached = some j
      · rw [isDetached, still isDetached]
      · rw [hits, if_neg isDetached]
        exact Nat.zero_le _
    · refine ⟨isAlone.1, by rw [update_self]; exact bound, fun q isOther => ?_⟩
      rw [update_of_ne isOther]
      exact (isAlone.2 q isOther).le.trans (Nat.zero_le _)
  · intro j isDetached
    have after := detached q j isOther isDetached
    exact ⟨after.1, after.2.1⟩
  · intro j isPlain
    by_cases same : j = i
    · subst same
      rw [self]
      exact (others q isOther).2.1 isPlain
    · rw [other same]
  · intro j isClaimed
    have different : j ≠ i := fun same => (others q isOther).1 (same ▸ isClaimed)
    exact ⟨other different, inv.alone_of_less isClaimed isOther rfl rfl (less j), le_rfl⟩
  · rintro j ⟨unlinked, owner⟩
    refine ⟨?_, owner⟩
    by_cases same : j = i
    · subst same
      rw [self]
      exact (others q isOther).2.2 owner unlinked
    · rw [other same]
      exact unlinked

/-- The owner of a lock changes the inode, and maybe the tree. -/
theorem modify (owner : s.lock i = some p) (member : i ∈ (refs p).inodes)
    (type : d.type = (s.inode i).type) (typed : (s.inode i).type ≠ .free)
    (refsSame : SameRefs r (refs p)) (good : t'.Good (update s.inode i d))
    (exact_ : ∀ j, (update s.inode i d j).nlink =
      (t'.total (update s.inode i d) j + ∑ q, (update links p a q).owed.count j : Nat))
    (shut : ∀ j, (s.inode j).type = .dir → j ∉ t'.dirs →
      j ∉ t.dirs ∧ ((links p).detached = some j → a.detached = some j) ∨
        Alone s refs p j ∧ keeps (s.proc p) (refs p) j ≤ hits a.detached j)
    (detached : ∀ j, a.detached = some j → (s.inode j).type = .dir ∧ j ∉ t'.dirs)
    (others : ∀ q j, q ≠ p → (links q).detached = some j → j ∉ t'.dirs ∧ a.detached ≠ some j)
    (plain : ∀ j, a.plain = some j →
      j ∈ (refs p).inodes ∧ (s.inode j).type ≠ .dir ∧ (s.inode j).type ≠ .free)
    (brief : a = a.lasting) : LinkInv (s.setInode i d) (update refs p r) (update links p a) t' := by
  have types (j : Inum) : ((s.setInode i d).inode j).type = (s.inode j).type := by
    change (update s.inode i d j).type = _
    exact Update.cases j type fun _ => rfl
  have same (j : Inum) : keeps (s.proc p) r j = keeps (s.proc p) (refs p) j := refsSame.keeps rfl j
  refine inv.set good exact_ (fun free => absurd (type.symm.trans free) typed) (fun j => (same j).le)
    (fun j isShut => ?_) (.of_lasting brief ?_ ?_) (fun q isOther => ⟨?_, fun _ => type, ?_⟩)
    (fun q j isOther isDetached => ?_) fun q j _ _ claims => ?_
  · rw [Shut, types] at isShut
    rcases isShut with free | ⟨dir, outside⟩
    · refine .inl ⟨.inl free, fun isDetached => ?_⟩
      cases free.symm.trans ((inv.own p).detached j isDetached).1
    · rw [same]
      exact (shut j dir outside).imp_left (And.imp_left fun wasOutside => .inr ⟨dir, wasOutside⟩)
  · intro j
    rw [types]
    exact detached j
  · intro j
    rw [types, update_self, refsSame.inodes]
    exact plain j
  · exact inv.not_claims (.inr (.inr (keeps_pos (s.proc p) member))) isOther
  · intro owned
    exact absurd (Option.some.inj (owned.symm.trans owner)) isOther
  · rw [types]
    exact ⟨((inv.own q).detached j isDetached).1, others q j isOther isDetached⟩
  · rw [brief] at claims
    exact a.not_claims_lasting j claims

/-- The tree stays, and so do the directories of the processes. -/
theorem modify_sameTree (owner : s.lock i = some p)
    (member : i ∈ (refs p).inodes) (type : d.type = (s.inode i).type)
    (typed : (s.inode i).type ≠ .free) (refsSame : SameRefs r (refs p))
    (good : t.Good (update s.inode i d)) (exact_ : ∀ j, (update s.inode i d j).nlink =
      (t.total (update s.inode i d) j + ∑ q, (update links p a q).owed.count j : Nat))
    (detached : a.detached = (links p).detached) (plain : ∀ j, a.plain = some j →
      j ∈ (refs p).inodes ∧ (s.inode j).type ≠ .dir ∧ (s.inode j).type ≠ .free)
    (brief : a = a.lasting) : LinkInv (s.setInode i d) (update refs p r) (update links p a) t := by
  refine inv.modify owner member type typed refsSame good exact_ ?_ ?_ ?_ plain brief
  · intro j _ outside
    exact .inl ⟨outside, fun isDetached => detached.trans isDetached⟩
  · intro j isDetached
    exact (inv.own p).detached j (detached.symm.trans isDetached)
  · intro q j isOther isDetached
    refine ⟨((inv.own q).detached j isDetached).2, ?_⟩
    rw [detached]
    intro also
    exact isOther (inv.detachedOnce q p j isDetached also)

/-- Only the link count changes. -/
theorem recount {nlink : Int} (owner : s.lock i = some p)
    (member : i ∈ (refs p).inodes) (typed : (s.inode i).type ≠ .free)
    (refsSame : SameRefs r (refs p))
    (self : nlink + (links p).owed.count i = (s.inode i).nlink + a.owed.count i)
    (rest : ∀ j, j ≠ i → a.owed.count j = (links p).owed.count j)
    (detached : a.detached = (links p).detached) (plain : ∀ j, a.plain = some j →
      j ∈ (refs p).inodes ∧ (s.inode j).type ≠ .dir ∧ (s.inode j).type ≠ .free)
    (brief : a = a.lasting) :
    LinkInv (s.setInode i { s.inode i with nlink := nlink }) (update refs p r)
      (update links p a) t := by
  have same (j : Inum) : (update s.inode i { s.inode i with nlink := nlink } j).type =
      (s.inode j).type ∧ (update s.inode i { s.inode i with nlink := nlink } j).entries =
        (s.inode j).entries :=
    Update.cases j ⟨rfl, rfl⟩ fun _ => ⟨rfl, rfl⟩
  obtain ⟨good, total⟩ := inv.good.keep (fun j _ => same j)
    (fun c dir => .inl ((same c).1 ▸ dir))
  refine inv.modify_sameTree owner member rfl typed refsSame good ?_ detached plain brief
  intro j
  have sum := owed_sum links p a j
  have before := inv.exact j
  rw [total]
  by_cases isSame : j = i
  · subst isSame
    rw [update_self]
    show nlink = _
    omega
  · rw [update_of_ne isSame]
    have unchanged := rest j isSame
    omega

omit inv in
theorem nlink_addEntry (inode : Inum → Inode) (dp j : Inum) (e : Dirent) :
    (update inode dp ((inode dp).addEntry e) j).nlink = (inode j).nlink :=
  Update.cases j rfl fun _ => rfl

omit inv in
theorem nlink_clearEntry (inode : Inum → Inode) (dp j : Inum) (off : Nat) :
    (update inode dp ((inode dp).clearEntry off) j).nlink = (inode j).nlink :=
  Update.cases j rfl fun _ => rfl

/-- An entry is made in a directory that is not in the tree yet. -/
theorem addOwn (owner : s.lock dp = some p)
    (member : dp ∈ (refs p).inodes) (isOwn : (links p).detached = some dp)
    (refsSame : SameRefs r (refs p)) :
    LinkInv (s.setInode dp ((s.inode dp).addEntry ⟨name, i⟩)) (update refs p r)
      (update links p (links p).lasting) t := by
  obtain ⟨dir, outside⟩ := (inv.own p).detached dp isOwn
  have unchanged (j : Inum) (inTree : j ∈ t.dirs) :
      update s.inode dp ((s.inode dp).addEntry ⟨name, i⟩) j = s.inode j := by
    refine update_of_ne ?_ _ _
    intro same
    rw [same] at inTree
    exact outside inTree
  have types (c : Inum) : (update s.inode dp ((s.inode dp).addEntry ⟨name, i⟩) c).type =
      (s.inode c).type :=
    Update.cases c rfl fun _ => rfl
  obtain ⟨good, total⟩ := inv.good.keep
    (fun j inTree => by rw [unchanged j inTree]; exact ⟨rfl, rfl⟩)
    (fun c isDir => .inl (types c ▸ isDir))
  refine inv.modify_sameTree owner member rfl (by rw [dir]; decide) refsSame good ?_ rfl
    (inv.own p).plain rfl
  intro j
  have sum := owed_sum links p (links p).lasting j
  rw [show (links p).lasting.owed = (links p).owed from rfl] at sum
  have before := inv.exact j
  rw [total, nlink_addEntry]
  omega

/-- An entry for a file is made in a directory of the tree. -/
theorem addFile (owner : s.lock dp = some p)
    (member : dp ∈ (refs p).inodes) (inTree : dp ∈ t.dirs) (notDotted : ¬Dotted name)
    (isFile : (s.inode i).type ≠ .dir) (owes : i ∈ (links p).owed) (refsSame : SameRefs r (refs p)) :
    LinkInv (s.setInode dp ((s.inode dp).addEntry ⟨name, i⟩)) (update refs p r)
      (update links p ((links p).paid i)) t := by
  obtain ⟨good, total⟩ := inv.good.addFile inTree notDotted isFile
  have dir := (inv.good.isDir dp inTree).type
  refine inv.modify_sameTree owner member rfl (by rw [dir]; decide) refsSame good ?_ rfl
    nofun rfl
  intro j
  have sum := owed_sum links p ((links p).paid i) j
  have erased : ((links p).paid i).owed.count j + hits (some i) j = (links p).owed.count j :=
    count_erase owes j
  have before := inv.exact j
  rw [total, nlink_addEntry]
  omega

/-- The entry of a file is removed from a directory of the tree. -/
theorem clearFile (owner : s.lock dp = some p)
    (member : dp ∈ (refs p).inodes) (inTree : dp ∈ t.dirs)
    (found : (s.inode dp).entries[off]? = some (some e)) (notDotted : ¬Dotted e.name)
    (isFile : (s.inode e.inum).type ≠ .dir) (refsSame : SameRefs r (refs p)) :
    LinkInv (s.setInode dp ((s.inode dp).clearEntry off)) (update refs p r)
      (update links p ((links p).owing e.inum)) t := by
  obtain ⟨good, total⟩ := inv.good.clearFile inTree found notDotted isFile
  have dir := (inv.good.isDir dp inTree).type
  refine inv.modify_sameTree owner member rfl (by rw [dir]; decide) refsSame good ?_ rfl
    (inv.own p).plain rfl
  intro j
  have sum := owed_sum links p ((links p).owing e.inum) j
  have added : ((links p).owing e.inum).owed.count j =
      (links p).owed.count j + hits (some e.inum) j := count_cons (some e.inum) _ j
  have before := inv.exact j
  have cleared := total j
  rw [nlink_clearEntry]
  omega

/-- The entry that completes a new directory is made. -/
theorem addDir {ip : Inum} (owner : s.lock dp = some p)
    (member : dp ∈ (refs p).inodes) (inTree : dp ∈ t.dirs) (notDotted : ¬Dotted name)
    (isOwn : (links p).detached = some ip) (isNew : IsDir (s.inode ip) ip dp)
    (empty : (s.inode ip).isEmpty = true) (owes : ip ∈ (links p).owed)
    (owesParent : dp ∈ (links p).owed.erase ip) (refsSame : SameRefs r (refs p)) :
    LinkInv (s.setInode dp ((s.inode dp).addEntry ⟨name, ip⟩)) (update refs p r)
      (update links p ((links p).joined dp ip)) (t.grow dp ip) := by
  obtain ⟨-, outside⟩ := (inv.own p).detached ip isOwn
  obtain ⟨good, total⟩ := inv.good.addDir inTree notDotted outside isNew empty
  have dir := (inv.good.isDir dp inTree).type
  refine inv.modify owner member rfl (by rw [dir]; decide) refsSame good ?_ ?_
    nofun ?_ (inv.own p).plain rfl
  · intro j
    have sum := owed_sum links p ((links p).joined dp ip) j
    have erased := count_erase owes j
    have erasedParent : ((links p).joined dp ip).owed.count j + hits (some dp) j =
        ((links p).owed.erase ip).count j := count_erase owesParent j
    have before := inv.exact j
    rw [total, nlink_addEntry]
    omega
  · intro j _ isOutside
    have notIn : j ∉ t.dirs := fun isIn => isOutside (Finset.mem_insert_of_mem isIn)
    refine .inl ⟨notIn, ?_⟩
    intro isDetached
    rw [isOwn] at isDetached
    cases isDetached
    exact absurd (Finset.mem_insert_self _ _) isOutside
  · intro q j isOther isDetached
    refine ⟨?_, by simp [Links.joined]⟩
    intro isIn
    cases Finset.mem_insert.mp isIn with
    | inl same =>
      rw [same] at isDetached
      exact isOther (inv.detachedOnce q p ip isDetached isOwn)
    | inr old => exact ((inv.own q).detached j isDetached).2 old

omit inv in
/-- A process that has the one reference to an inode is alone with it. -/
theorem alone_of_ref (counts : InodeInv s refs) (ref : s.ref i = 1) (member : i ∈ (refs p).inodes) :
    Alone s refs p i ∧ keeps (s.proc p) (refs p) i ≤ 1 := by
  have counted := counts.ref i
  have split := Finset.add_sum_erase Finset.univ (fun q => inodeHolds (s.proc q) (refs q) i)
    (Finset.mem_univ p)
  have own := keeps_pos (s.proc p) member
  have ownHolds := keeps_le (s.proc p) (refs p) i
  refine ⟨⟨by omega, ?_⟩, by omega⟩
  intro q isOther
  have zero : ∑ q ∈ Finset.univ.erase p, inodeHolds (s.proc q) (refs q) i = 0 := by omega
  have holds := Finset.sum_eq_zero_iff.mp zero q (Finset.mem_erase.mpr ⟨isOther, Finset.mem_univ q⟩)
  have bound := keeps_le (s.proc q) (refs q) i
  omega

/-- The entry of a directory is removed, to which nothing else refers. -/
theorem clearDir (counts : InodeInv s refs)
    (owner : s.lock dp = some p) (member : dp ∈ (refs p).inodes) (inTree : dp ∈ t.dirs)
    (found : (s.inode dp).entries[off]? = some (some e)) (notDotted : ¬Dotted e.name)
    (isDir : (s.inode e.inum).type = .dir) (empty : (s.inode e.inum).isEmpty = true)
    (hasRef : e.inum ∈ (refs p).inodes) (ref : s.ref e.inum = 1)
    (noOther : (links p).detached = none) (refsSame : SameRefs r (refs p)) :
    LinkInv (s.setInode dp ((s.inode dp).clearEntry off)) (update refs p r)
      (update links p ((links p).parted dp e.inum)) (t.prune e.inum) := by
  obtain ⟨wasIn, good, total⟩ := inv.good.clearDir inTree found notDotted isDir empty
  have dir := (inv.good.isDir dp inTree).type
  refine inv.modify owner member rfl (by rw [dir]; decide) refsSame good ?_ ?_ ?_ ?_
    (inv.own p).plain rfl
  · intro j
    have sum := owed_sum links p ((links p).parted dp e.inum) j
    have added : ((links p).parted dp e.inum).owed.count j =
        (links p).owed.count j + hits (some dp) j + hits (some e.inum) j := by
      rw [← count_cons (some dp), ← count_cons (some e.inum)]
      rfl
    have before := inv.exact j
    have cleared := total j
    rw [nlink_clearEntry]
    omega
  · intro j _ outside
    by_cases same : j = e.inum
    · subst same
      obtain ⟨isAlone, once⟩ := alone_of_ref counts ref hasRef
      refine .inr ⟨isAlone, ?_⟩
      rw [show ((links p).parted dp e.inum).detached = some e.inum from rfl, hits_self]
      exact once
    · refine .inl ⟨fun isIn => outside (Finset.mem_erase.mpr ⟨same, isIn⟩), ?_⟩
      rw [noOther]
      exact nofun
  · intro j isDetached
    cases isDetached
    exact ⟨isDir, Finset.notMem_erase _ _⟩
  · intro q j isOther isDetached
    have outside := ((inv.own q).detached j isDetached).2
    refine ⟨fun isIn => outside (Finset.mem_of_mem_erase isIn), ?_⟩
    intro same
    cases same
    exact outside wasIn

/-- An inode without links is marked or freed. -/
theorem blanked (unlinked : (s.inode i).nlink = 0) (outside : i ∉ t.dirs) (type : IType)
    (a : Links) (owed : a.owed = (links p).owed) : t.Good (update s.inode i (.blank type)) ∧
      ∀ j, (update s.inode i (.blank type) j).nlink =
        (t.total (update s.inode i (.blank type)) j + ∑ q, (update links p a q).owed.count j : Nat) := by
  have unnamed : t.total s.inode i = 0 := by
    have before := inv.exact i
    omega
  have same : ∀ j ∈ t.dirs, (update s.inode i (.blank type) j).type = (s.inode j).type ∧
      (update s.inode i (.blank type) j).entries = (s.inode j).entries :=
    fun j => Update.cases j (absurd · outside) fun _ _ => ⟨rfl, rfl⟩
  obtain ⟨good, total⟩ := inv.good.keep same
    fun c => Update.cases c (fun _ => .inr unnamed) fun _ => .inl
  refine ⟨good, fun j => ?_⟩
  have sum := owed_sum links p a j
  have before := inv.exact j
  rw [owed] at sum
  have same : (update s.inode i (.blank type) j).nlink = (s.inode j).nlink :=
    Update.cases j unlinked.symm fun _ => rfl
  rw [same, total]
  omega

/-- `ialloc` marks a free inode. -/
theorem tryAlloc {type : IType} (free : (s.inode i).type = .free) (typed : type ≠ .free)
    (noOther : (links p).detached = none) (refsSame : SameRefs r (refs p)) :
    LinkInv (s.setInode i (.blank type)) (update refs p r)
      (update links p ((links p).marked i type)) t := by
  have self : (s.setInode i (.blank type)).inode i = .blank type := update_self _ _ _
  have other {j : Inum} (used : (s.inode j).type ≠ .free) :
      (s.setInode i (.blank type)).inode j = s.inode j :=
    update_of_ne (by rintro rfl; exact used free) _ _
  have outside : i ∉ t.dirs := by
    intro inTree
    cases free.symm.trans (inv.good.isDir i inTree).type
  have undetached (q : Fin n) : (links q).detached ≠ some i := by
    intro isDetached
    cases free.symm.trans ((inv.own q).detached i isDetached).1
  have noKeeps (q : Fin n) : keeps (s.proc q) (refs q) i = 0 := by
    have bound := (inv.shut i (.inl free)).2 q
    rw [hits, if_neg (undetached q)] at bound
    exact Nat.le_zero.mp bound
  have same (j : Inum) : keeps (s.proc p) r j = keeps (s.proc p) (refs p) j := refsSame.keeps rfl j
  have newDetached (j : Inum) (isDetached : ((links p).marked i type).detached = some j) :
      j = i ∧ type = .dir := by
    simp only [Links.marked, noOther] at isDetached
    split at isDetached
    · cases isDetached
      exact ⟨rfl, ‹_›⟩
    · cases isDetached
  have isClaimed (j : Inum) (claims : ((links p).marked i type).Claims j) : j = i := by
    rcases claims with ⟨x, isFresh⟩ | none_
    · cases isFresh
      rfl
    · cases none_
  obtain ⟨good, exact_⟩ := inv.blanked (inv.free i free) outside type ((links p).marked i type) rfl
  refine inv.set good exact_ (fun isFree => absurd isFree typed) (fun j => (same j).le)
    (fun j isShut => .inl ⟨?_, fun isDetached => ?_⟩) ⟨?_, ?_, ?_, ?_, ?_, ?_⟩
    (fun q isOther => ⟨?_, fun isPlain => ?_, fun _ _ => rfl⟩) (fun q j isOther isDetached => ?_)
    fun q j _ wasClaimed claims => ?_
  · by_cases same : j = i
    · exact same ▸ .inl free
    · rwa [Shut, show (s.setInode i (.blank type)).inode j = s.inode j from update_of_ne same _ _]
        at isShut
  · rw [noOther] at isDetached
    cases isDetached
  · intro j isDetached
    obtain ⟨rfl, isDir⟩ := newDetached j isDetached
    rw [self]
    exact ⟨isDir, outside⟩
  · intro j isPlain
    have before := (inv.own p).plain j isPlain
    rw [other before.2.2, update_self, refsSame.inodes]
    exact before
  · intro j type' got isFresh
    cases isFresh
    rw [update_self]
    exact ⟨self, typed, fun isDir => if_pos isDir, ((same i).trans (noKeeps p)).le⟩
  · rintro _ ⟨⟩
  · rintro _ ⟨⟩
  · intro j claims
    rw [isClaimed j claims]
    refine ⟨(inv.shut i (.inl free)).1, fun q isOther => ?_⟩
    rw [update_of_ne isOther]
    exact noKeeps q
  · exact fun claims => (inv.unlinked_of_claims claims).2 free
  · exact absurd free ((inv.own q).plain i isPlain).2.2
  · have before := (inv.own q).detached j isDetached
    rw [other (by rw [before.1]; decide)]
    refine ⟨before.1, before.2, fun isNew => ?_⟩
    obtain ⟨rfl, -⟩ := newDetached j isNew
    exact undetached q isDetached
  · rw [isClaimed j claims] at wasClaimed
    exact (inv.unlinked_of_claims wasClaimed).2 free

/-- `iput` frees an inode that nobody else refers to. -/
theorem ifree (isSole : (links p).sole = some i) (notPlain : (links p).plain ≠ some i)
    (member : i ∈ (refs p).inodes) (inodes : r.inodes = (refs p).inodes.erase i)
    (stale : r.staleCwd = (refs p).staleCwd) :
    LinkInv (s.setInode i (.blank .free)) (update refs p r)
      (update links p ((links p).lasting.attach i)) t := by
  obtain ⟨⟨unlinked, owner⟩, typed, once⟩ := (inv.own p).sole i isSole
  have isAlone := (inv.own p).alone i (.inr isSole)
  have kept := keeps_pos (s.proc p) member
  have other {j : Inum} (different : j ≠ i) : (s.setInode i (.blank .free)).inode j = s.inode j :=
    update_of_ne different _ _
  have outside : i ∉ t.dirs := by
    intro inTree
    have positive := inv.nlink_pos (inv.good.total_pos inTree)
    omega
  have keepsSelf : keeps (s.proc p) r i = 0 := by
    have counted := Multiset.one_le_count_iff_mem.mpr member
    unfold keeps at once ⊢
    rw [inodes, stale, Multiset.count_erase_self]
    omega
  have less (j : Inum) : keeps (s.proc p) r j ≤ keeps (s.proc p) (refs p) j := by
    have fewer := Multiset.count_le_of_le j (Multiset.erase_le i (refs p).inodes)
    unfold keeps
    rw [inodes, stale]
    omega
  have newDetached (j : Inum) (isDetached : ((links p).lasting.attach i).detached = some j) :
      (links p).detached = some j ∧ j ≠ i := by
    have found := Option.filter_eq_some_iff.mp isDetached
    exact ⟨found.1, of_decide_eq_true found.2⟩
  obtain ⟨good, exact_⟩ := inv.blanked unlinked outside .free ((links p).lasting.attach i) rfl
  refine inv.set good exact_ (fun _ => rfl) less (fun j isShut => ?_) (.of_lasting rfl ?_ ?_)
    (fun q isOther => ⟨?_, fun isPlain => ?_, fun _ _ => rfl⟩) (fun q j isOther isDetached => ?_)
    fun q j _ _ => ((links p).lasting.attach i).not_claims_lasting j
  · by_cases same : j = i
    · subst same
      exact .inr ⟨isAlone, keepsSelf ▸ Nat.zero_le _⟩
    · rw [Shut, other same] at isShut
      exact .inl ⟨isShut, fun isDetached =>
        Option.filter_eq_some_iff.mpr ⟨isDetached, decide_eq_true same⟩⟩
  · intro j isDetached
    obtain ⟨was, different⟩ := newDetached j isDetached
    rw [other different]
    exact (inv.own p).detached j was
  · intro j isPlain
    have different : j ≠ i := fun same => notPlain (same ▸ isPlain)
    rw [other different, update_self, inodes]
    exact ((inv.own p).plain j isPlain).imp_left (Multiset.mem_erase_of_ne different).mpr
  · exact inv.not_claims (.inr (.inr kept)) isOther
  · have alsoKept := keeps_pos (s.proc q) ((inv.own q).plain i isPlain).1
    exact absurd (isAlone.2 q isOther) alsoKept.ne'
  · have before := (inv.own q).detached j isDetached
    have different : j ≠ i := by
      rintro rfl
      have bound := (inv.shut j (.inr before)).2 p
      have isOwn : (links p).detached = some j := by
        by_contra isNot
        rw [hits, if_neg isNot] at bound
        omega
      exact isOther (inv.detachedOnce q p j isDetached isOwn)
    rw [other different]
    exact ⟨before.1, before.2, fun isNew =>
      isOther (inv.detachedOnce q p j isDetached (newDetached j isNew).1)⟩

end Changes

end LinkInv

end Xv6.Fs
