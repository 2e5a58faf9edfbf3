import Xv6.Fs.State
import Xv6.Lib.Tally

/-!
The tree of directories in a set of inodes.

Owns: directories with their `.` and `..`, the tree they form below the root, the number of
entries that name an inode, and how making and removing entries changes both.

Does not own: which process makes or removes an entry (`Xv6.Fs.Links`).
-/

open Tally (hits hits_self hits_other)

namespace Xv6.Fs

open Function (update update_self update_of_ne)

/-- `.` or `..` -/
def Dotted (name : Name) : Prop :=
  name = "." ∨ name = ".."

instance (name : Name) : Decidable (Dotted name) :=
  inferInstanceAs (Decidable (_ ∨ _))

variable {off : Nat} {e : Dirent} {name : Name} {d : Inode} {i j dp : Inum}

namespace Inode

/-- The number of entries of a directory that name an inode, `.` and `..` apart. -/
def names (d : Inode) (i : Inum) : Nat :=
  d.entries.countP fun slot => slot.any fun e => decide (¬Dotted e.name ∧ e.inum = i)

/-- The number of entries of a directory that name an inode, `.` apart. -/
def links (d : Inode) (i : Inum) : Nat :=
  d.entries.countP fun slot => slot.any fun e => decide (e.name ≠ "." ∧ e.inum = i)

section Slots

variable (counted : Option Dirent → Bool)

theorem countP_insert (empty : counted none = false) (e : Dirent) (entries : List (Option Dirent)) :
    (insert e entries).countP counted = entries.countP counted + (counted (some e)).toNat := by
  induction entries with
  | nil => cases isCounted : counted (some e) <;> simp [insert, isCounted]
  | cons slot rest ih =>
    cases slot with
    | none => cases isCounted : counted (some e) <;> simp [insert, empty, isCounted]
    | some other =>
      simp only [insert, List.countP_cons, ih]
      omega

theorem countP_clear (empty : counted none = false) {entries : List (Option Dirent)}
    (found : entries[off]? = some (some e)) :
    (entries.set off none).countP counted + (counted (some e)).toNat = entries.countP counted := by
  induction entries generalizing off with
  | nil => cases found
  | cons slot rest ih =>
    cases off with
    | zero =>
      cases found
      cases isCounted : counted (some e) <;> simp [empty, isCounted]
    | succ off =>
      have shorter := ih (show rest[off]? = some (some e) from found)
      simp only [List.set_cons_succ, List.countP_cons]
      omega

end Slots

theorem names_addEntry (d : Inode) (plain : ¬Dotted name) (i c : Inum) :
    (d.addEntry ⟨name, i⟩).names c = d.names c + hits (some i) c := by
  rw [names, addEntry, countP_insert _ rfl, names]
  by_cases same : i = c
  · simp [same, plain]
  · simp [same, hits_other same]

theorem names_clearEntry (found : d.entries[off]? = some (some e)) (plain : ¬Dotted e.name)
    (c : Inum) : (d.clearEntry off).names c + hits (some e.inum) c = d.names c := by
  have counted := countP_clear
    (fun slot => slot.any fun e => decide (¬Dotted e.name ∧ e.inum = c)) rfl found
  rw [names, clearEntry, names, ← counted]
  by_cases same : e.inum = c
  · simp [same, plain]
  · simp [same, hits_other same]

theorem names_pos (member : some e ∈ d.entries) (plain : ¬Dotted e.name) : 0 < d.names e.inum :=
  List.countP_pos_iff.mpr ⟨some e, member, by simpa using plain⟩

/-- What `dirlookup` finds is an entry of that name. -/
theorem lookup_some (found : d.lookup name = some (i, off)) :
    ∃ e, d.entries[off]? = some (some e) ∧ e.name = name ∧ e.inum = i := by
  have at_ := (SlotMap.find_some found).2
  rw [slots, List.getElem?_map, Option.map_eq_some_iff] at at_
  obtain ⟨_ | e, isSlot, same⟩ := at_
  · cases same
  · cases same
    exact ⟨e, isSlot, rfl, rfl⟩

end Inode

/-- A directory, its inode and that of its `..`. -/
structure IsDir (d : Inode) (ino up : Inum) : Prop where
  type : d.type = .dir
  shape : ∃ rest, d.entries = some ⟨".", ino⟩ :: some ⟨"..", up⟩ :: rest ∧
    ∀ e, some e ∈ rest → ¬Dotted e.name

namespace IsDir

variable {d : Inode} {ino up : Inum}

theorem addEntry (isDir : IsDir d ino up) (plain : ¬Dotted name) (i : Inum) :
    IsDir (d.addEntry ⟨name, i⟩) ino up := by
  obtain ⟨rest, entries, plainRest⟩ := isDir.shape
  refine ⟨isDir.type, Inode.insert ⟨name, i⟩ rest, ?_, ?_⟩
  · rw [Inode.addEntry, entries]
    rfl
  · intro e member
    have cases_ : some e ∈ rest ∨ e = ⟨name, i⟩ := by
      clear entries plainRest
      induction rest with
      | nil => exact .inr (Option.some.inj (List.mem_singleton.mp member))
      | cons slot rest ih =>
        cases slot with
        | none =>
          cases member with
          | head => exact .inr rfl
          | tail _ old => exact .inl (List.mem_cons_of_mem _ old)
        | some other =>
          cases member with
          | head => exact .inl List.mem_cons_self
          | tail _ old =>
            exact (ih old).imp (List.mem_cons_of_mem _) id
    cases cases_ with
    | inl old => exact plainRest e old
    | inr new =>
      rw [new]
      exact plain

/-- An entry other than `.` and `..` is in a slot after theirs. -/
theorem slot_of_plain (isDir : IsDir d ino up) (found : d.entries[off]? = some (some e))
    (plain : ¬Dotted e.name) : ∃ k, off = k + 2 := by
  obtain ⟨rest, entries, -⟩ := isDir.shape
  rw [entries] at found
  match off, found with
  | 0, found =>
    cases found
    exact absurd (.inl rfl) plain
  | 1, found =>
    cases found
    exact absurd (.inr rfl) plain
  | k + 2, _ => exact ⟨k, rfl⟩

theorem clearEntry (isDir : IsDir d ino up) (found : d.entries[off]? = some (some e))
    (plain : ¬Dotted e.name) : IsDir (d.clearEntry off) ino up := by
  obtain ⟨k, rfl⟩ := isDir.slot_of_plain found plain
  obtain ⟨rest, entries, plainRest⟩ := isDir.shape
  refine ⟨isDir.type, rest.set k none, ?_, ?_⟩
  · rw [Inode.clearEntry, entries]
    rfl
  · intro e member
    cases List.mem_or_eq_of_mem_set member with
    | inl old => exact plainRest e old
    | inr none_ => cases none_

theorem links (isDir : IsDir d ino up) (i : Inum) : d.links i = d.names i + hits (some up) i := by
  obtain ⟨rest, entries, plainRest⟩ := isDir.shape
  have same : rest.countP (fun slot => slot.any fun e => decide (e.name ≠ "." ∧ e.inum = i)) =
      rest.countP fun slot => slot.any fun e => decide (¬Dotted e.name ∧ e.inum = i) := by
    refine List.countP_congr fun slot member => ?_
    cases slot with
    | none => rfl
    | some e =>
      have plain := plainRest e member
      have notSelf : e.name ≠ "." := fun isSelf => plain (.inl isSelf)
      simp [plain, notSelf]
  rw [Inode.links, Inode.names, entries, List.countP_cons, List.countP_cons, List.countP_cons,
    List.countP_cons, same]
  by_cases isUp : up = i
  · simp [isUp, Dotted]
  · simp [isUp, Dotted, hits_other isUp]

/-- An empty directory names nothing. -/
theorem names_of_isEmpty (isDir : IsDir d ino up) (empty : d.isEmpty = true) (i : Inum) :
    d.names i = 0 := by
  obtain ⟨rest, entries, -⟩ := isDir.shape
  rw [Inode.isEmpty, entries] at empty
  refine List.countP_eq_zero.mpr fun slot member => ?_
  rw [entries] at member
  cases member with
  | head => simp [Dotted]
  | tail _ member =>
    cases member with
    | head => simp [Dotted]
    | tail _ member =>
      have none_ := List.all_eq_true.mp empty slot member
      rw [Option.isNone_iff_eq_none.mp none_]
      simp

/-- A name that a directory does not have is neither `.` nor `..`. -/
theorem plain_of_lookup (isDir : IsDir d ino up) (absent : d.lookup name = none) :
    ¬Dotted name := by
  obtain ⟨rest, entries, -⟩ := isDir.shape
  intro dotted
  cases dotted with
  | inl isSelf => simp [Inode.lookup, Inode.slots, entries, isSelf, SlotMap.find] at absent
  | inr isUp => simp [Inode.lookup, Inode.slots, entries, isUp, SlotMap.find] at absent

end IsDir

/-! ## The tree -/

/-- The directories below the root. -/
structure Tree where
  dirs : Finset Inum
  /-- Where `..` leads. -/
  up : Inum → Inum
  /-- A level that grows on the way down. -/
  rank : Inum → Nat

namespace Tree

structure Good (t : Tree) (inode : Inum → Inode) : Prop where
  root : rootino ∈ t.dirs
  rootUp : t.up rootino = rootino
  isDir : ∀ j ∈ t.dirs, IsDir (inode j) j (t.up j)
  up : ∀ j ∈ t.dirs, t.up j ∈ t.dirs
  rank : ∀ j ∈ t.dirs, j ≠ rootino → t.rank (t.up j) < t.rank j
  /-- A directory has one name, in the directory above it. -/
  names : ∀ j ∈ t.dirs, ∀ c, (inode c).type = .dir →
    (inode j).names c = if c ∈ t.dirs ∧ c ≠ rootino ∧ t.up c = j then 1 else 0

/-- The links of the tree to an inode. -/
def total (t : Tree) (inode : Inum → Inode) (i : Inum) : Nat :=
  ∑ j ∈ t.dirs, (inode j).links i

variable {t : Tree} {inode after : Inum → Inode}

theorem total_replace (inode : Inum → Inode) (d : Inode) (member : dp ∈ t.dirs) (c : Inum) :
    t.total (update inode dp d) c + (inode dp).links c = t.total inode c + d.links c := by
  have others : ∀ j ∈ t.dirs, j ≠ dp →
      (update inode dp d j).links c = (inode j).links c := by
    intro j _ different
    rw [update_of_ne different]
  have changed := Tally.sum_change_on member others
  rw [update_self] at changed
  exact changed

/-- The tree with a new directory. -/
def grow (t : Tree) (dp ip : Inum) : Tree where
  dirs := insert ip t.dirs
  up := Function.update t.up ip dp
  rank := Function.update t.rank ip (t.rank dp + 1)

/-- The tree without a directory. -/
def prune (t : Tree) (ip : Inum) : Tree :=
  { t with dirs := t.dirs.erase ip }

namespace Good

variable (good : t.Good inode)

include good

theorem named (member : j ∈ t.dirs) (notRoot : j ≠ rootino) :
    0 < (inode (t.up j)).names j := by
  rw [good.names _ (good.up j member) j (good.isDir j member).type, if_pos ⟨member, notRoot, rfl⟩]
  exact Nat.one_pos

theorem child (member : j ∈ t.dirs) {c : Inum}
    (named : 0 < (inode j).names c) (dir : (inode c).type = .dir) :
    c ∈ t.dirs ∧ c ≠ rootino ∧ t.up c = j := by
  by_contra isNot
  rw [good.names j member c dir, if_neg isNot] at named
  exact absurd named (Nat.lt_irrefl 0)

theorem total_eq (i : Inum) :
    t.total inode i = ∑ j ∈ t.dirs, ((inode j).names i + hits (some (t.up j)) i) :=
  Finset.sum_congr rfl fun j member => (good.isDir j member).links i

theorem names_le (member : j ∈ t.dirs) (i : Inum) :
    (inode j).names i ≤ t.total inode i := by
  rw [good.total_eq]
  refine le_trans (Nat.le_add_right _ (hits (some (t.up j)) i)) ?_
  exact Finset.single_le_sum (f := fun j => (inode j).names i + hits (some (t.up j)) i)
    (fun _ _ => Nat.zero_le _) member

theorem up_le (member : j ∈ t.dirs) : 1 ≤ t.total inode (t.up j) := by
  rw [good.total_eq]
  refine le_trans ?_ (Finset.single_le_sum
    (f := fun k => (inode k).names (t.up j) + hits (some (t.up k)) (t.up j))
    (fun _ _ => Nat.zero_le _) member)
  simp only [hits_self]
  exact Nat.le_add_left _ _

/-- A directory of the tree has a link. -/
theorem total_pos (member : j ∈ t.dirs) : 0 < t.total inode j := by
  by_cases isRoot : j = rootino
  · have bound := good.up_le good.root
    rw [good.rootUp] at bound
    rw [isRoot]
    exact bound
  · exact lt_of_lt_of_le (good.named member isRoot) (good.names_le (good.up j member) j)

/-- What the tree links to that is a directory is in the tree. -/
theorem mem_of_total {c : Inum} (isDir : (inode c).type = .dir)
    (linked : 0 < t.total inode c) : c ∈ t.dirs := by
  rw [good.total_eq] at linked
  obtain ⟨j, member, positive⟩ := Finset.exists_ne_zero_of_sum_ne_zero (Nat.pos_iff_ne_zero.mp linked)
  by_cases isUp : t.up j = c
  · rw [← isUp]
    exact good.up j member
  · rw [hits_other isUp, Nat.add_zero] at positive
    exact (good.child member (Nat.pos_of_ne_zero positive) isDir).1

/-- Inodes change, but no entry of the tree does. -/
theorem keep (same : ∀ j ∈ t.dirs, (after j).type = (inode j).type ∧ (after j).entries = (inode j).entries)
    (newDir : ∀ c, (after c).type = .dir → (inode c).type = .dir ∨ t.total inode c = 0) :
    t.Good after ∧ ∀ c, t.total after c = t.total inode c := by
  refine ⟨⟨good.root, good.rootUp, ?_, good.up, good.rank, ?_⟩, ?_⟩
  · intro j member
    have before := good.isDir j member
    refine ⟨(same j member).1.trans before.type, ?_⟩
    rw [(same j member).2]
    exact before.shape
  · intro j member c isDir
    rw [Inode.names, (same j member).2]
    rcases newDir c isDir with was | none_
    · exact good.names j member c was
    · rw [if_neg fun inTree => (good.total_pos inTree.1).ne' none_]
      exact Nat.le_zero.mp (none_ ▸ good.names_le member c)
  · intro c
    refine Finset.sum_congr rfl fun j member => ?_
    rw [Inode.links, (same j member).2, Inode.links]

/-- A directory of the tree changes, but names the same directories. -/
theorem replace (member : dp ∈ t.dirs) (isDir : IsDir d dp (t.up dp))
    (names : ∀ c, (inode c).type = .dir → d.names c = (inode dp).names c) :
    t.Good (update inode dp d) := by
  have type (c : Inum) : (update inode dp d c).type = (inode c).type :=
    Update.cases c (isDir.type.trans (good.isDir dp member).type.symm) fun _ => rfl
  refine ⟨good.root, good.rootUp, ?_, good.up, good.rank, ?_⟩
  · exact fun j isMember => Update.cases j isDir fun _ => good.isDir j isMember
  · intro j isMember c dir
    rw [type] at dir
    rw [← good.names j isMember c dir]
    exact Update.cases j (names c dir) fun _ => rfl

/-- An entry for a file is made. -/
theorem addFile (member : dp ∈ t.dirs) (plain : ¬Dotted name)
    (isFile : (inode i).type ≠ .dir) :
    t.Good (update inode dp ((inode dp).addEntry ⟨name, i⟩)) ∧
      ∀ c, t.total (update inode dp ((inode dp).addEntry ⟨name, i⟩)) c =
        t.total inode c + hits (some i) c := by
  have isDir := good.isDir dp member
  refine ⟨good.replace member (isDir.addEntry plain i) ?_, ?_⟩
  · intro c dir
    have different : i ≠ c := by
      intro same
      rw [same] at isFile
      exact isFile dir
    rw [Inode.names_addEntry _ plain, hits_other different, Nat.add_zero]
  · intro c
    have changed := total_replace inode ((inode dp).addEntry ⟨name, i⟩) member c
    rw [isDir.links, (isDir.addEntry plain i).links, Inode.names_addEntry _ plain] at changed
    omega

/-- The entry of a file is removed. -/
theorem clearFile (member : dp ∈ t.dirs)
    (found : (inode dp).entries[off]? = some (some e)) (plain : ¬Dotted e.name)
    (isFile : (inode e.inum).type ≠ .dir) :
    t.Good (update inode dp ((inode dp).clearEntry off)) ∧
      ∀ c, t.total (update inode dp ((inode dp).clearEntry off)) c + hits (some e.inum) c =
        t.total inode c := by
  have isDir := good.isDir dp member
  refine ⟨good.replace member (isDir.clearEntry found plain) ?_, ?_⟩
  · intro c dir
    have different : e.inum ≠ c := by
      intro same
      rw [same] at isFile
      exact isFile dir
    have cleared := Inode.names_clearEntry found plain c
    rw [hits_other different] at cleared
    exact cleared
  · intro c
    have changed := total_replace inode ((inode dp).clearEntry off) member c
    have cleared := Inode.names_clearEntry found plain c
    rw [isDir.links, (isDir.clearEntry found plain).links] at changed
    omega

/-- The entry for a new, empty directory is made. -/
theorem addDir {ip : Inum} (member : dp ∈ t.dirs) (plain : ¬Dotted name)
    (new : ip ∉ t.dirs) (isNew : IsDir (inode ip) ip dp) (empty : (inode ip).isEmpty = true) :
    (t.grow dp ip).Good (update inode dp ((inode dp).addEntry ⟨name, ip⟩)) ∧
      ∀ c, (t.grow dp ip).total (update inode dp ((inode dp).addEntry ⟨name, ip⟩)) c =
        t.total inode c + hits (some ip) c + hits (some dp) c := by
  have old {j : Inum} (isMember : j ∈ t.dirs) : j ≠ ip := by
    rintro rfl
    exact new isMember
  have upOld {j : Inum} (isMember : j ∈ t.dirs) : (t.grow dp ip).up j = t.up j :=
    update_of_ne (old isMember) _ _
  have upNew : (t.grow dp ip).up ip = dp := update_self _ _ _
  have atNew : update inode dp ((inode dp).addEntry ⟨name, ip⟩) ip = inode ip :=
    update_of_ne (old member).symm _ _
  have namesNew (c : Inum) : (inode ip).names c = 0 := isNew.names_of_isEmpty empty c
  refine ⟨⟨Finset.mem_insert_of_mem good.root, ?_, ?_, ?_, ?_, ?_⟩, ?_⟩
  · rw [upOld good.root]
    exact good.rootUp
  · intro j isMember
    rcases Finset.mem_insert.mp isMember with rfl | isOld
    · rw [atNew, upNew]
      exact isNew
    · rw [upOld isOld]
      exact Update.cases j ((good.isDir dp member).addEntry plain ip) fun _ => good.isDir j isOld
  · intro j isMember
    refine Finset.mem_insert_of_mem ?_
    rcases Finset.mem_insert.mp isMember with rfl | isOld
    · rw [upNew]
      exact member
    · rw [upOld isOld]
      exact good.up j isOld
  · intro j isMember isNotRoot
    have rankOld {k : Inum} (isOld : k ∈ t.dirs) : (t.grow dp ip).rank k = t.rank k :=
      update_of_ne (old isOld) _ _
    rcases Finset.mem_insert.mp isMember with rfl | isOld
    · rw [upNew, rankOld member, show (t.grow dp j).rank j = t.rank dp + 1 from update_self _ _ _]
      exact Nat.lt_succ_self _
    · rw [upOld isOld, rankOld isOld, rankOld (good.up j isOld)]
      exact good.rank j isOld isNotRoot
  · intro j isMember c dir
    have isDir : (inode c).type = .dir := by
      revert dir
      exact Update.cases c id fun _ => id
    rcases Finset.mem_insert.mp isMember with rfl | isOld
    · -- nothing is in the new directory
      rw [atNew, namesNew, if_neg]
      rintro ⟨inTree, -, isUp⟩
      rcases Finset.mem_insert.mp inTree with rfl | inTree
      · exact old member (upNew.symm.trans isUp)
      · exact new (isUp ▸ upOld inTree ▸ good.up c inTree)
    · have before := good.names j isOld c isDir
      have after : (update inode dp ((inode dp).addEntry ⟨name, ip⟩) j).names c =
          (inode j).names c + (if j = dp then hits (some ip) c else 0) := by
        refine Update.cases j ?_ fun different => ?_
        · rw [if_pos rfl]
          exact Inode.names_addEntry _ plain ip c
        · rw [if_neg different]
          rfl
      rw [after, before]
      by_cases isIp : c = ip
      · subst isIp
        rw [if_neg fun inTree => new inTree.1, upNew, hits_self]
        simp [Tree.grow, (old good.root).symm, eq_comm]
      · rw [hits_other (Ne.symm isIp), ite_self]
        simp [Tree.grow, isIp]
  · intro c
    have changed := total_replace inode ((inode dp).addEntry ⟨name, ip⟩) member c
    have isDir := good.isDir dp member
    have links := isNew.links c
    rw [isDir.links, (isDir.addEntry plain ip).links, Inode.names_addEntry _ plain] at changed
    rw [total, show (t.grow dp ip).dirs = insert ip t.dirs from rfl, Finset.sum_insert new, atNew]
    rw [namesNew] at links
    unfold total at changed ⊢
    omega

/-- The entry of an empty directory is removed. -/
theorem clearDir (member : dp ∈ t.dirs)
    (found : (inode dp).entries[off]? = some (some e)) (plain : ¬Dotted e.name)
    (dir : (inode e.inum).type = .dir) (empty : (inode e.inum).isEmpty = true) :
    e.inum ∈ t.dirs ∧
      (t.prune e.inum).Good (update inode dp ((inode dp).clearEntry off)) ∧
      ∀ c, (t.prune e.inum).total (update inode dp ((inode dp).clearEntry off)) c +
        hits (some e.inum) c + hits (some dp) c = t.total inode c := by
  have isNamed : 0 < (inode dp).names e.inum :=
    Inode.names_pos (List.mem_of_getElem? found) plain
  obtain ⟨inTree, notRoot, isUp⟩ := good.child member isNamed dir
  have isDir := good.isDir e.inum inTree
  have isDirDp := good.isDir dp member
  have noNames (c : Inum) : (inode e.inum).names c = 0 := isDir.names_of_isEmpty empty c
  have different : dp ≠ e.inum := by
    intro same
    have lower := good.rank e.inum inTree notRoot
    rw [isUp, same] at lower
    exact absurd lower (Nat.lt_irrefl _)
  refine ⟨inTree, ⟨Finset.mem_erase.mpr ⟨notRoot.symm, good.root⟩, good.rootUp, ?_, ?_, ?_, ?_⟩, ?_⟩
  · intro j isMember
    have isOld := Finset.mem_of_mem_erase isMember
    exact Update.cases j (isDirDp.clearEntry found plain) fun _ => good.isDir j isOld
  · intro j isMember
    have isOld := Finset.mem_of_mem_erase isMember
    refine Finset.mem_erase.mpr ⟨fun isUp => ?_, good.up j isOld⟩
    by_cases isRoot : j = rootino
    · exact notRoot (isUp.symm.trans (isRoot ▸ good.rootUp))
    · have positive := good.named isOld isRoot
      rw [show t.up j = e.inum from isUp, noNames] at positive
      exact absurd positive (Nat.lt_irrefl 0)
  · exact fun j isMember => good.rank j (Finset.mem_of_mem_erase isMember)
  · intro j isMember c isDirC
    have before := good.names j (Finset.mem_of_mem_erase isMember) c (by
      revert isDirC
      exact Update.cases c id fun _ => id)
    have after : (update inode dp ((inode dp).clearEntry off) j).names c +
        (if j = dp then hits (some e.inum) c else 0) = (inode j).names c := by
      refine Update.cases j ?_ fun different => ?_
      · rw [if_pos rfl]
        exact Inode.names_clearEntry found plain c
      · rw [if_neg different]
        rfl
    rw [before] at after
    by_cases isGone : c = e.inum
    · -- its only name was the entry that is gone
      subst isGone
      rw [hits_self, isUp] at after
      simp only [prune, Finset.mem_erase, ne_eq, not_true, false_and, if_false]
      by_cases isDp : j = dp
      · simp [isDp, inTree, notRoot] at after
        rw [isDp, update_self, after]
      · simpa [isDp, Ne.symm isDp] using after
    · rw [hits_other (Ne.symm isGone), ite_self, Nat.add_zero] at after
      rw [after]
      simp [prune, isGone]
  · intro c
    have changed := total_replace inode ((inode dp).clearEntry off) member c
    have erased : (update inode dp ((inode dp).clearEntry off) e.inum).links c +
        (t.prune e.inum).total (update inode dp ((inode dp).clearEntry off)) c =
          t.total (update inode dp ((inode dp).clearEntry off)) c :=
      Finset.add_sum_erase t.dirs
        (fun j => (update inode dp ((inode dp).clearEntry off) j).links c) inTree
    have gone := Inode.names_clearEntry found plain c
    rw [isDirDp.links, (isDirDp.clearEntry found plain).links] at changed
    rw [update_of_ne different.symm, isDir.links, noNames, isUp] at erased
    omega

end Good

end Tree

end Xv6.Fs
