import Xv6.Inode.ReadWrite
import Xv6.Lib.Tally

/-!
The inode cache.

Owns: `iget`, `idup`, `ilock`, `iunlock`, `iput` and `itrunc` of the kernel, as one process runs
them; the references to an inode; and what the calls do to references and locks while no inode is
freed.

Does not own: several processes (`Xv6.Fs.State`); path names (`Xv6.Dir.Namei`).

A call that panics, or waits for a lock that nobody will release, has no result.
-/

open scoped BigOperators

namespace Xv6.Icache

open Inode (Volume iupdate bfree)
open Mkfs (Dinode Superblock dinodeAt ndirect nindirect)

/-! ## The kernel -/

def ninode : Nat := 50

/-- `struct inode`; there is one device. -/
structure Entry where
  inum : Nat
  ref : Nat
  /-- The lock is held. -/
  locked : Bool
  valid : Bool
  /-- The fields that are copied from the disk. -/
  ip : Dinode

/-- `icache.inode`, of which the first `NINODE` entries are there, and the disk. -/
structure State where
  inode : Nat → Entry
  v : Volume

def State.set (s : State) (k : Nat) (e : Entry) : State :=
  { s with inode := Function.update s.inode k e }

/-- An entry for the inode, with one more reference to it. -/
def iget (s : State) (inum : Nat) : Option (Nat × State) :=
  match (List.range ninode).find? fun k => 0 < (s.inode k).ref ∧ (s.inode k).inum = inum with
  | some k => some (k, s.set k { s.inode k with ref := (s.inode k).ref + 1 })
  | none =>
    match (List.range ninode).find? fun k => (s.inode k).ref = 0 with
    | some k => some (k, s.set k { s.inode k with inum := inum, ref := 1, valid := false })
    | none => none

def idup (s : State) (k : Nat) : State :=
  s.set k { s.inode k with ref := (s.inode k).ref + 1 }

def ilock (sb : Superblock) (s : State) (k : Nat) : Option State :=
  let e := s.inode k
  if e.ref < 1 ∨ e.locked then none
  else if e.valid then some (s.set k { e with locked := true })
  else
    let dip := dinodeAt s.v.disk sb e.inum
    if dip.type = 0 then none
    else some (s.set k { e with locked := true, valid := true, ip := dip })

def iunlock (s : State) (k : Nat) : Option State :=
  let e := s.inode k
  if ¬e.locked ∨ e.ref < 1 then none else some (s.set k { e with locked := false })

/-- The blocks of the inode are freed, and the inode is written back. -/
def itrunc (sb : Superblock) (inum : Nat) (ip : Dinode) (v : Volume) : Option (Dinode × Volume) := do
  let (ip, v) ← (List.range ndirect).foldlM (fun (ip, v) i =>
    if ip.addrs i = 0 then some (ip, v)
    else (bfree sb (ip.addrs i) v).map fun v => (ip.setAddr i 0, v)) (ip, v)
  let (ip, v) ←
    if ip.addrs ndirect = 0 then some (ip, v)
    else do
      let a := v.disk (ip.addrs ndirect)
      let v ← (List.range nindirect).foldlM (fun v j =>
        if Bytes.get a (4 * j) 4 = 0 then some v else bfree sb (Bytes.get a (4 * j) 4) v) v
      let v ← bfree sb (ip.addrs ndirect) v
      some (ip.setAddr ndirect 0, v)
  let ip := { ip with size := 0 }
  some (ip, iupdate sb inum ip v)

/-- The last reference to an inode without links frees it. -/
def iput (sb : Superblock) (s : State) (k : Nat) : Option State :=
  let e := s.inode k
  if e.locked then none
  else if e.valid ∧ e.ip.nlink = 0 ∧ e.ref = 1 then
    (itrunc sb e.inum e.ip s.v).map fun (ip, v) =>
      let ip := { ip with type := 0 }
      State.set ⟨s.inode, iupdate sb e.inum ip v⟩ k { e with ref := e.ref - 1, valid := false, ip := ip }
  else some (s.set k { e with ref := e.ref - 1 })

def iunlockput (sb : Superblock) (s : State) (k : Nat) : Option State :=
  (iunlock s k).bind fun s => iput sb s k

/-! ## References -/

/-- The references to inode `i` that an entry counts. -/
def Entry.count (e : Entry) (i : Nat) : Nat :=
  if e.inum = i then e.ref else 0

/-- The references to an inode. -/
def State.refs (s : State) (i : Nat) : Nat :=
  ∑ k ∈ Finset.range ninode, (s.inode k).count i

/-- The inodes that have an entry. -/
def State.inUse (s : State) : Finset Nat :=
  ((Finset.range ninode).filter fun k => (s.inode k).ref ≠ 0).image fun k => (s.inode k).inum

/-- Entry `k` is for inode `i`. -/
structure State.Points (s : State) (k i : Nat) : Prop where
  below : k < ninode
  ref : (s.inode k).ref ≠ 0
  inum : (s.inode k).inum = i

/-- An inode has one entry, which is as the disk where it is valid, and the lock of one entry at
most is held. -/
structure Coherent (sb : Superblock) (held : Option Nat) (s : State) : Prop where
  distinct : ∀ k l i, s.Points k i → s.Points l i → k = l
  locked : ∀ k, k < ninode → ((s.inode k).locked = true ↔ held = some k)
  valid : ∀ k i, s.Points k i → (s.inode k).valid = true →
    (s.inode k).ip = dinodeAt s.v.disk sb i ∧ (s.inode k).ip.type ≠ 0

variable {sb : Superblock} {held held' : Option Nat} {s : State} {k l i j : Nat} {e : Entry}

@[simp] theorem State.set_self : (s.set k e).inode k = e :=
  Function.update_self ..

theorem State.set_other (different : l ≠ k) : (s.set k e).inode l = s.inode l :=
  Function.update_of_ne different ..

theorem points_set_other (different : l ≠ k) : (s.set k e).Points l j ↔ s.Points l j := by
  have same := State.set_other (s := s) (e := e) different
  constructor
  · rintro ⟨below, ref, inum⟩
    rw [same] at ref inum
    exact ⟨below, ref, inum⟩
  · rintro ⟨below, ref, inum⟩
    exact ⟨below, by rwa [same], by rwa [same]⟩

/-- One entry is replaced. -/
theorem refs_set (s : State) (below : k < ninode) (e : Entry) (i : Nat) :
    (s.set k e).refs i + (s.inode k).count i = s.refs i + e.count i := by
  have others : ∀ l ∈ Finset.range ninode, l ≠ k →
      ((s.set k e).inode l).count i = (s.inode l).count i := by
    intro l _ different
    rw [State.set_other different]
  have changed := Tally.sum_change_on (Finset.mem_range.mpr below) others
  rw [State.set_self] at changed
  exact changed

theorem mem_inUse : i ∈ s.inUse ↔ ∃ k, s.Points k i := by
  rw [State.inUse, Finset.mem_image]
  constructor
  · rintro ⟨k, member, inum⟩
    obtain ⟨inside, ref⟩ := Finset.mem_filter.mp member
    exact ⟨k, Finset.mem_range.mp inside, ref, inum⟩
  · rintro ⟨k, below, ref, inum⟩
    exact ⟨k, Finset.mem_filter.mpr ⟨Finset.mem_range.mpr below, ref⟩, inum⟩

theorem card_inUse_le (s : State) : s.inUse.card ≤ ninode := by
  refine Finset.card_image_le.trans ((Finset.card_filter_le _ _).trans ?_)
  rw [Finset.card_range]

theorem refs_ne_zero : s.refs i ≠ 0 ↔ ∃ k, s.Points k i := by
  rw [State.refs, Ne, Finset.sum_eq_zero_iff, not_forall]
  constructor
  · rintro ⟨k, counted⟩
    rw [Classical.not_imp, Entry.count] at counted
    obtain ⟨inside, counted⟩ := counted
    split at counted
    · next inum => exact ⟨k, Finset.mem_range.mp inside, counted, inum⟩
    · exact absurd rfl counted
  · rintro ⟨k, below, ref, inum⟩
    refine ⟨k, fun zero => ref ?_⟩
    have isZero := zero (Finset.mem_range.mpr below)
    rwa [Entry.count, if_pos inum] at isZero

/-- The entry for an inode counts all references to it. -/
theorem Coherent.refs (coherent : Coherent sb held s) (points : s.Points k i) :
    s.refs i = (s.inode k).ref := by
  rw [State.refs, Finset.sum_eq_single k]
  · exact if_pos points.inum
  · intro l inside different
    rw [Entry.count]
    split
    · next inum =>
        by_contra ref
        exact different (coherent.distinct l k i ⟨Finset.mem_range.mp inside, ref, inum⟩ points)
    · rfl
  · intro outside
    exact absurd (Finset.mem_range.mpr points.below) outside

/-- An entry is replaced by one that no other is for the same inode as. -/
theorem Coherent.set (coherent : Coherent sb held s)
    (alone : e.ref ≠ 0 → ∀ l, l ≠ k → ¬s.Points l e.inum)
    (lock : e.locked = true ↔ held' = some k)
    (locks : ∀ l, l ≠ k → (held' = some l ↔ held = some l))
    (valid : e.ref ≠ 0 → e.valid = true →
      e.ip = dinodeAt s.v.disk sb e.inum ∧ e.ip.type ≠ 0) :
    Coherent sb held' (s.set k e) := by
  refine ⟨?_, ?_, ?_⟩
  · intro l m j first second
    by_cases isL : l = k
    · by_cases isM : m = k
      · rw [isL, isM]
      · have ref := first.ref
        have inum := first.inum
        rw [isL, State.set_self] at ref inum
        exact absurd (inum ▸ (points_set_other isM).mp second) (alone ref m isM)
    · by_cases isM : m = k
      · have ref := second.ref
        have inum := second.inum
        rw [isM, State.set_self] at ref inum
        exact absurd (inum ▸ (points_set_other isL).mp first) (alone ref l isL)
      · exact coherent.distinct l m j ((points_set_other isL).mp first)
          ((points_set_other isM).mp second)
  · intro l inside
    by_cases same : l = k
    · rw [same, State.set_self]
      exact lock
    · rw [State.set_other same, locks l same]
      exact coherent.locked l inside
  · intro l j points isValid
    by_cases same : l = k
    · have ref := points.ref
      have inum := points.inum
      rw [same, State.set_self] at ref inum isValid ⊢
      rw [← inum]
      exact valid ref isValid
    · rw [State.set_other same] at isValid ⊢
      exact coherent.valid l j ((points_set_other same).mp points) isValid

/-- No other entry is for the inode of an entry in use. -/
theorem Coherent.alone (coherent : Coherent sb held s) (points : s.Points k i) :
    ∀ l, l ≠ k → ¬s.Points l i :=
  fun l different other => different (coherent.distinct l k i other points)

/-- There is an entry that is not in use. -/
theorem Coherent.exists_free_iff (coherent : Coherent sb held s) :
    (∃ k, k < ninode ∧ (s.inode k).ref = 0) ↔ s.inUse.card < ninode := by
  have injective : Set.InjOn (fun k => (s.inode k).inum)
      ((Finset.range ninode).filter fun k => (s.inode k).ref ≠ 0) := by
    intro k first l second same
    obtain ⟨inK, refK⟩ := Finset.mem_filter.mp first
    obtain ⟨inL, refL⟩ := Finset.mem_filter.mp second
    exact coherent.distinct k l _ ⟨Finset.mem_range.mp inK, refK, same⟩
      ⟨Finset.mem_range.mp inL, refL, rfl⟩
  have most := Finset.card_filter_le (Finset.range ninode) fun k => (s.inode k).ref ≠ 0
  have all_ := Finset.card_filter_eq_iff (s := Finset.range ninode) (p := fun k => (s.inode k).ref ≠ 0)
  rw [Finset.card_range] at most all_
  rw [State.inUse, Finset.card_image_of_injOn injective, lt_iff_le_and_ne, and_iff_right most, Ne,
    all_, not_forall]
  constructor
  · rintro ⟨k, below, free⟩
    exact ⟨k, fun inUse => inUse (Finset.mem_range.mpr below) free⟩
  · rintro ⟨k, free⟩
    rw [Classical.not_imp, not_not] at free
    exact ⟨k, Finset.mem_range.mp free.1, free.2⟩

/-! ## Calls that free no inode -/

variable {s' : State}

/-- A new reference to inode `i`, by entry `k`. -/
structure Taken (s : State) (i k : Nat) (s' : State) : Prop where
  disk : s'.v = s.v
  points : s'.Points k i
  keeps : ∀ l j, s.Points l j → s'.Points l j
  refs : ∀ j, s'.refs j = s.refs j + if j = i then 1 else 0

/-- One reference to inode `i` less. -/
structure Dropped (s : State) (i : Nat) (s' : State) : Prop where
  disk : s'.v = s.v
  keeps : ∀ l j, s.Points l j → (j = i → 1 < s.refs i) → s'.Points l j
  refs : ∀ j, s'.refs j + (if j = i then 1 else 0) = s.refs j

/-- The same references. -/
structure Alike (s s' : State) : Prop where
  disk : s'.v = s.v
  points : ∀ l j, s'.Points l j ↔ s.Points l j
  refs : ∀ j, s'.refs j = s.refs j

/-- An entry gets other values, but not another inode. -/
theorem refs_set_same {e : Entry} (points : s.Points k i) (inum : e.inum = (s.inode k).inum)
    (j : Nat) : (s.set k e).refs j + (if j = i then (s.inode k).ref else 0) =
      s.refs j + if j = i then e.ref else 0 := by
  have changed := refs_set s points.below e j
  rw [Entry.count, Entry.count, inum, points.inum] at changed
  rw [if_congr (eq_comm (a := j)) rfl rfl, if_congr (eq_comm (a := j)) rfl rfl]
  exact changed

/-- An entry gets other values, but not another inode or count. -/
theorem alike_set {e : Entry} (points : s.Points k i) (inum : e.inum = (s.inode k).inum)
    (ref : e.ref = (s.inode k).ref) : Alike s (s.set k e) := by
  refine ⟨rfl, ?_, ?_⟩
  · intro l j
    by_cases same : l = k
    · rw [same]
      constructor
      · rintro ⟨below, used, isInum⟩
        rw [State.set_self] at used isInum
        exact ⟨below, ref ▸ used, inum ▸ isInum⟩
      · rintro ⟨below, used, isInum⟩
        exact ⟨below, by rwa [State.set_self, ref], by rwa [State.set_self, inum]⟩
    · exact points_set_other same
  · intro j
    have changed := refs_set_same points inum j
    rw [ref] at changed
    exact Nat.add_right_cancel changed

/-- One more reference by an entry. -/
theorem taken_set {e : Entry} (points : s.Points k i) (inum : e.inum = (s.inode k).inum)
    (ref : e.ref = (s.inode k).ref + 1) : Taken s i k (s.set k e) := by
  have after : (s.set k e).Points k i := by
    refine ⟨points.below, ?_, ?_⟩
    · rw [State.set_self, ref]
      exact Nat.succ_ne_zero _
    · rw [State.set_self, inum, points.inum]
  refine ⟨rfl, after, ?_, ?_⟩
  · intro l j before
    by_cases same : l = k
    · have isInum : j = i := by rw [← before.inum, ← points.inum, same]
      rwa [same, isInum]
    · exact (points_set_other same).mpr before
  · intro j
    have changed := refs_set_same points inum j
    rw [ref] at changed
    by_cases same : j = i
    · rw [if_pos same, if_pos same] at changed
      rw [if_pos same]
      omega
    · rw [if_neg same, if_neg same] at changed
      rw [if_neg same]
      omega

/-- One reference by an entry less. -/
theorem dropped_set {e : Entry} (points : s.Points k i) (inum : e.inum = (s.inode k).inum)
    (ref : e.ref = (s.inode k).ref - 1) (count : s.refs i = (s.inode k).ref) :
    Dropped s i (s.set k e) := by
  refine ⟨rfl, ?_, ?_⟩
  · intro l j before others
    by_cases same : l = k
    · have isInum : j = i := by rw [← before.inum, ← points.inum, same]
      have more := others isInum
      rw [same]
      refine ⟨points.below, ?_, ?_⟩
      · rw [State.set_self, ref]
        exact Nat.sub_ne_zero_of_lt (by omega)
      · rw [State.set_self, inum, isInum, points.inum]
    · exact (points_set_other same).mpr before
  · intro j
    have used := points.ref
    have changed := refs_set_same points inum j
    rw [ref] at changed
    by_cases same : j = i
    · rw [if_pos same, if_pos same] at changed
      rw [if_pos same]
      omega
    · rw [if_neg same, if_neg same] at changed
      rw [if_neg same]
      omega

theorem Coherent.idup (coherent : Coherent sb held s) (points : s.Points k i) :
    Coherent sb held (idup s k) ∧ Taken s i k (idup s k) := by
  refine ⟨coherent.set ?_ ?_ (fun _ _ => Iff.rfl) ?_, taken_set points rfl rfl⟩
  · intro _
    rw [points.inum]
    exact coherent.alone points
  · exact coherent.locked k points.below
  · intro _ isValid
    rw [points.inum]
    exact coherent.valid k i points isValid

/-- The first entry in use for the inode. -/
theorem find_points {k : Nat}
    (found : ((List.range ninode).find? fun k => 0 < (s.inode k).ref ∧ (s.inode k).inum = i) = some k) :
    s.Points k i := by
  have inside := List.mem_of_find?_eq_some found
  have matches_ := List.find?_some found
  rw [decide_eq_true_iff] at matches_
  exact ⟨List.mem_range.mp inside, matches_.1.ne', matches_.2⟩

theorem find_not_points
    (missing : ((List.range ninode).find? fun k => 0 < (s.inode k).ref ∧ (s.inode k).inum = i) = none)
    (k : Nat) : ¬s.Points k i := by
  intro points
  have different := List.find?_eq_none.mp missing k (List.mem_range.mpr points.below)
  rw [decide_eq_true_iff] at different
  exact different ⟨Nat.pos_of_ne_zero points.ref, points.inum⟩

theorem find_free (found : ((List.range ninode).find? fun k => (s.inode k).ref = 0) = some k) :
    k < ninode ∧ (s.inode k).ref = 0 := by
  have matches_ := List.find?_some found
  rw [decide_eq_true_iff] at matches_
  exact ⟨List.mem_range.mp (List.mem_of_find?_eq_some found), matches_⟩

/-- An entry that is not in use is taken. -/
theorem Coherent.recycle (coherent : Coherent sb held s) (below : k < ninode)
    (free : (s.inode k).ref = 0) (absent : ∀ l, ¬s.Points l i) :
    Coherent sb held (s.set k { s.inode k with inum := i, ref := 1, valid := false }) ∧
      Taken s i k (s.set k { s.inode k with inum := i, ref := 1, valid := false }) := by
  refine ⟨coherent.set (fun _ l _ => absent l) (coherent.locked k below) (fun _ _ => Iff.rfl)
    (fun _ isValid => nomatch isValid), rfl, ?_, ?_, ?_⟩
  · exact ⟨below, by rw [State.set_self]; exact Nat.one_ne_zero, by rw [State.set_self]⟩
  · intro l j before
    have different : l ≠ k := by
      rintro rfl
      exact before.ref free
    exact (points_set_other different).mpr before
  · intro j
    have changed := refs_set s below { s.inode k with inum := i, ref := 1, valid := false } j
    have none_ : (s.inode k).count j = 0 := by
      rw [Entry.count, free]
      exact ite_self 0
    rw [none_, Nat.add_zero, Entry.count] at changed
    rw [changed]
    exact congrArg _ (if_congr eq_comm rfl rfl)

/-- With this inode the cache has entries enough. -/
theorem Coherent.iget_some (coherent : Coherent sb held s) (i : Nat)
    (room : (insert i s.inUse).card ≤ ninode) :
    ∃ k s', iget s i = some (k, s') ∧ Coherent sb held s' ∧ Taken s i k s' := by
  rw [iget]
  cases found : (List.range ninode).find? fun k => 0 < (s.inode k).ref ∧ (s.inode k).inum = i with
  | some k =>
    have points := find_points found
    exact ⟨k, _, rfl, coherent.idup points⟩
  | none =>
    have absent := find_not_points found
    have notIn : i ∉ s.inUse := by
      rw [mem_inUse, not_exists]
      exact absent
    rw [Finset.card_insert_of_notMem notIn] at room
    cases empty : (List.range ninode).find? fun k => (s.inode k).ref = 0 with
    | some k =>
      obtain ⟨below, free⟩ := find_free empty
      exact ⟨k, _, rfl, coherent.recycle below free absent⟩
    | none =>
      obtain ⟨k, below, free⟩ := coherent.exists_free_iff.mpr room
      have used := List.find?_eq_none.mp empty k (List.mem_range.mpr below)
      exact absurd (decide_eq_true free) used

/-- Without an entry for this inode the kernel panics. -/
theorem Coherent.iget_none (coherent : Coherent sb held s) (i : Nat)
    (full : ninode < (insert i s.inUse).card) : iget s i = none := by
  have most := card_inUse_le s
  have notIn : i ∉ s.inUse := by
    intro member
    rw [Finset.insert_eq_of_mem member] at full
    omega
  rw [Finset.card_insert_of_notMem notIn] at full
  rw [iget]
  cases found : (List.range ninode).find? fun k => 0 < (s.inode k).ref ∧ (s.inode k).inum = i with
  | some k => exact absurd (mem_inUse.mpr ⟨k, find_points found⟩) notIn
  | none =>
    cases empty : (List.range ninode).find? fun k => (s.inode k).ref = 0 with
    | some k =>
      obtain ⟨below, free⟩ := find_free empty
      have room := coherent.exists_free_iff.mp ⟨k, below, free⟩
      omega
    | none => rfl

/-- An inode that is allocated can be locked. -/
theorem Coherent.ilock_some (coherent : Coherent sb none s) (points : s.Points k i)
    (allocated : (dinodeAt s.v.disk sb i).type ≠ 0) :
    ∃ s', ilock sb s k = some s' ∧ Coherent sb (some k) s' ∧ Alike s s' ∧
      (s'.inode k).ip = dinodeAt s.v.disk sb i := by
  have unlocked : (s.inode k).locked ≠ true := fun isLocked =>
    nomatch (coherent.locked k points.below).mp isLocked
  have locks : ∀ l, l ≠ k → (some k = some l ↔ none = some l) := fun l different =>
    iff_of_false (fun same => different (Option.some.inj same).symm) (fun same => nomatch same)
  have alone := coherent.alone points
  rw [← points.inum] at alone
  rw [ilock, if_neg (by rw [not_or]; exact ⟨by have := points.ref; omega, unlocked⟩)]
  by_cases isValid : (s.inode k).valid = true
  · obtain ⟨same, type⟩ := coherent.valid k i points isValid
    rw [if_pos isValid]
    refine ⟨_, rfl, coherent.set (fun _ => alone) (iff_of_true rfl rfl) locks ?_,
      alike_set points rfl rfl, ?_⟩
    · intro _ _
      rw [points.inum]
      exact ⟨same, type⟩
    · rw [State.set_self]
      exact same
  · rw [if_neg isValid, points.inum, if_neg allocated]
    refine ⟨_, rfl, coherent.set ?_ (iff_of_true rfl rfl) locks ?_,
      alike_set points points.inum.symm rfl, ?_⟩
    · intro _
      exact points.inum ▸ alone
    · intro _ _
      exact ⟨rfl, allocated⟩
    · rw [State.set_self]

/-- "ilock: no type" -/
theorem Coherent.ilock_none (coherent : Coherent sb none s) (points : s.Points k i)
    (free : (dinodeAt s.v.disk sb i).type = 0) : ilock sb s k = none := by
  rw [ilock]
  split
  · rfl
  · split
    · next isValid =>
        obtain ⟨same, type⟩ := coherent.valid k i points isValid
        exact absurd (same ▸ free) type
    · rw [points.inum, if_pos free]

theorem Coherent.iunlock (coherent : Coherent sb (some k) s) (points : s.Points k i) :
    ∃ s', iunlock s k = some s' ∧ Coherent sb none s' ∧ Alike s s' := by
  have isLocked := (coherent.locked k points.below).mpr rfl
  have alone := coherent.alone points
  rw [← points.inum] at alone
  rw [Icache.iunlock, if_neg (by rw [not_or, not_not]; exact ⟨isLocked, by have := points.ref; omega⟩)]
  refine ⟨_, rfl, coherent.set (fun _ => alone) (iff_of_false Bool.false_ne_true nofun) ?_ ?_,
    alike_set points rfl rfl⟩
  · intro l different
    exact iff_of_false nofun fun same => different (Option.some.inj same).symm
  · intro _ isValid
    rw [points.inum]
    exact coherent.valid k i points isValid

/-- A reference is dropped that is not the last one to an inode without links. -/
theorem Coherent.iput (coherent : Coherent sb none s) (points : s.Points k i)
    (live : (dinodeAt s.v.disk sb i).nlink ≠ 0 ∨ 1 < s.refs i) :
    ∃ s', iput sb s k = some s' ∧ Coherent sb none s' ∧ Dropped s i s' := by
  have unlocked : (s.inode k).locked ≠ true := fun isLocked =>
    nomatch (coherent.locked k points.below).mp isLocked
  have alone := coherent.alone points
  rw [← points.inum] at alone
  have count := coherent.refs points
  have notLast : ¬((s.inode k).valid = true ∧ (s.inode k).ip.nlink = 0 ∧ (s.inode k).ref = 1) := by
    rintro ⟨isValid, noLinks, isLast⟩
    rw [(coherent.valid k i points isValid).1] at noLinks
    rcases live with linked | more
    · exact linked noLinks
    · omega
  rw [Icache.iput, if_neg unlocked, if_neg notLast]
  refine ⟨_, rfl, coherent.set (fun _ => alone) (coherent.locked k points.below)
    (fun _ _ => Iff.rfl) ?_, dropped_set points rfl rfl count⟩
  intro _ isValid
  rw [points.inum]
  exact coherent.valid k i points isValid

theorem Coherent.iunlockput (coherent : Coherent sb (some k) s) (points : s.Points k i)
    (live : (dinodeAt s.v.disk sb i).nlink ≠ 0 ∨ 1 < s.refs i) :
    ∃ s', iunlockput sb s k = some s' ∧ Coherent sb none s' ∧ Dropped s i s' := by
  obtain ⟨s₁, unlocked, coherent₁, alike⟩ := coherent.iunlock points
  rw [← alike.disk, ← alike.refs] at live
  obtain ⟨s', put_, coherent', dropped⟩ := coherent₁.iput ((alike.points k i).mpr points) live
  refine ⟨s', ?_, coherent', dropped.disk.trans alike.disk, ?_, ?_⟩
  · rw [Icache.iunlockput, unlocked]
    exact put_
  · intro l j before others
    rw [← alike.refs] at others
    exact dropped.keeps l j ((alike.points l j).mpr before) others
  · intro j
    rw [dropped.refs, alike.refs]

end Xv6.Icache
