import Xv6.Dir.Entries
import Xv6.Lib.TransitionSystem

/-!
A directory is a finite map.

Owns: any sequence of calls of `dirlookup`, `dirlink` and clearing on one directory; the map from
names to inode numbers that the directory stands for; and that after any sequence the three do to
the bytes what they should do to the map.

Does not own: the search through the entries (`Xv6.Dir.Entries`); several directories
(`Xv6.Fs.Tree`).
-/

namespace Xv6.Dir

open Inode (Volume Devsw Room neededBy content)
open Mkfs (Superblock Dinode bsize maxfile direntBytes)
open SlotMap (find firstEmpty Distinct)
open TransitionSystem (run AllSteps)

structure State where
  dp : Dinode
  v : Volume

inductive Op where
  | lookup (name : Nat → UInt8)
  | link (name : Nat → UInt8) (target : Nat)
  | clear (name : Nat → UInt8)

def step (devsw : Devsw) (sb : Superblock) (inum : Nat) (s : State) : Op → Option State
  | .lookup name => (dirlookup devsw sb s.dp name s.v).map fun (_, dp, v) => ⟨dp, v⟩
  | .link name target => (dirlink devsw sb inum s.dp name target s.v).map fun (_, dp, v) => ⟨dp, v⟩
  | .clear name => (clearEntry devsw sb inum s.dp name s.v).map fun (_, dp, v) => ⟨dp, v⟩

/-! ## The map -/

def State.slots (s : State) : List Slot :=
  slotsOf s.dp s.v

/-- The inode number for a name. -/
def State.map (s : State) : List UInt8 → Option Nat :=
  SlotMap.lookup s.slots

/-- What a call does to the map: a name that is there stays as it is. -/
def Op.next (m : List UInt8 → Option Nat) : Op → List UInt8 → Option Nat
  | .lookup _ => m
  | .link name target =>
    if (m (nameOf name)).isSome then m else Function.update m (nameOf name) (some target)
  | .clear name => Function.update m (nameOf name) none

/-- A link is to an inode, the directory is not at the maximum size, and there is a block for a new
entry if the directory has to grow. -/
def Allowed (sb : Superblock) (s : State) : Op → Prop
  | .link name target =>
    (0 < target ∧ target < 2 ^ 16) ∧ s.dp.size + direntSize ≤ maxfile * bsize ∧
      (s.map (nameOf name) = none → none ∉ s.slots →
        Room sb (neededBy s.dp.size direntSize) s.dp s.v.disk)
  | _ => True

/-- A directory without two entries of one name. -/
structure Good (sb : Superblock) (inum : Nat) (s : State) : Prop where
  dir : Directory sb inum s.dp s.v
  distinct : Distinct s.slots

/-- An entry is in the first slot that was empty, or behind the last one. -/
structure Linked (s : State) (name : Nat → UInt8) (target : Nat) (s' : State) : Prop where
  map : s'.map = Function.update s.map (nameOf name) (some target)
  slots : ∀ j, s'.slots[j]? =
    if j = firstEmpty 0 s.slots then some (some (nameOf name, target)) else s.slots[j]?
  reuses : none ∈ s.slots → s'.dp.size = s.dp.size
  grows : none ∉ s.slots → s'.dp.size = s.dp.size + direntSize

variable {sb : Superblock} {inum : Nat} {s : State}

theorem Good.lookup (good : Good sb inum s) (devsw : Devsw) (name : Nat → UInt8) :
    ∃ found, dirlookup devsw sb s.dp name s.v = some (found, s.dp, s.v) ∧
      found.map Prod.fst = s.map (nameOf name) ∧
      ∀ i off, found = some (i, off) →
        ∃ k, off = k * direntSize ∧ s.slots[k]? = some (some (nameOf name, i)) := by
  refine ⟨_, dirlookup_eq devsw good.dir name, ?_, ?_⟩
  · rw [located, Option.map_map]
    rfl
  · intro i off found
    obtain ⟨⟨value, k⟩, search, same⟩ := Option.map_eq_some_iff.mp found
    obtain ⟨rfl, rfl⟩ := Prod.mk.inj same
    exact ⟨k, rfl, (SlotMap.find_some search).2⟩

/-- The slot that `dirlink` takes. -/
theorem firstEmpty_cases (slots : List Slot) :
    (none ∈ slots ∧ firstEmpty 0 slots < slots.length ∧ slots[firstEmpty 0 slots]? = some none) ∨
      (none ∉ slots ∧ firstEmpty 0 slots = slots.length) := by
  obtain ⟨_, high, at_, before⟩ := SlotMap.firstEmpty_spec slots 0
  rw [Nat.zero_add] at high at_
  rw [Nat.sub_zero] at at_ before
  by_cases below : firstEmpty 0 slots < slots.length
  · exact .inl ⟨List.mem_of_getElem? (at_ below), below, at_ below⟩
  · have isEnd : firstEmpty 0 slots = slots.length := by omega
    refine .inr ⟨?_, isEnd⟩
    intro member
    obtain ⟨j, inside, found⟩ := List.mem_iff_getElem.mp member
    refine before j (by omega) ?_
    rw [List.getElem?_eq_getElem inside, found]

/-- A name that is there is not linked again. -/
theorem Good.link_present (good : Good sb inum s) (devsw : Devsw) {name : Nat → UInt8} (target : Nat)
    (present : (s.map (nameOf name)).isSome = true) :
    dirlink devsw sb inum s.dp name target s.v = some (-1, s.dp, s.v) := by
  obtain ⟨found, looked, same, _⟩ := good.lookup devsw name
  rw [← same] at present
  rw [dirlink, looked]
  cases found with
  | none => cases present
  | some _ => rfl

/-- An entry stored in the first empty slot makes the directory larger only if no slot was empty. -/
theorem Stored.size_cases {dp dp' : Dinode} {v v' : Volume} {slot : Slot}
    (stored : Stored sb inum (firstEmpty 0 (slotsOf dp v)) slot dp v dp' v')
    (dir : Directory sb inum dp v) :
    (none ∈ slotsOf dp v → dp'.size = dp.size) ∧
      (none ∉ slotsOf dp v → dp'.size = dp.size + direntSize) := by
  rw [stored.size]
  rcases firstEmpty_cases (slotsOf dp v) with ⟨hasEmpty, below, _⟩ | ⟨noEmpty, isEnd⟩
  · refine ⟨fun _ => ?_, absurd hasEmpty⟩
    have least := Nat.mul_le_mul_right direntSize (Nat.succ_le_of_lt below)
    rw [Nat.succ_mul, ← dir.size_eq] at least
    exact Nat.max_eq_left least
  · refine ⟨fun hasEmpty => absurd hasEmpty noEmpty, fun _ => ?_⟩
    rw [isEnd, ← dir.size_eq]
    exact Nat.max_eq_right (Nat.le_add_right _ _)

/-- A name that is not there is linked. -/
theorem Good.link_absent (good : Good sb inum s) (devsw : Devsw) {name : Nat → UInt8} {target : Nat}
    (allowed : Allowed sb s (.link name target)) (absent : s.map (nameOf name) = none) :
    ∃ s', dirlink devsw sb inum s.dp name target s.v = some (0, s'.dp, s'.v) ∧ Good sb inum s' ∧
      Linked s name target s' := by
  obtain ⟨⟨positive, small⟩, short, room⟩ := allowed
  obtain ⟨found, looked, same, _⟩ := good.lookup devsw name
  rw [absent] at same
  obtain rfl := Option.map_eq_none_iff.mp same
  have high : firstEmpty 0 s.slots ≤ s.slots.length := by
    obtain ⟨_, high, _, _⟩ := SlotMap.firstEmpty_spec s.slots 0
    rwa [Nat.zero_add] at high
  have enough : s.slots.length ≤ 0 + s.dp.size := by
    rw [State.slots, length_slotsOf, Nat.zero_add]
    exact Nat.div_le_self _ _
  have search := findEmpty_eq devsw good.dir enough (Nat.zero_le _)
  rw [Nat.zero_mul, List.drop_zero] at search
  have bound : firstEmpty 0 s.slots * direntSize + direntSize ≤ maxfile * bsize := by
    have size := good.dir.size_eq
    have least := Nat.mul_le_mul_right direntSize high
    rw [State.slots] at least ⊢
    omega
  have length : (direntBytes target (strncpy name 0 dirsiz)).length = direntSize := by
    rw [direntBytes, List.length_cons, List.length_cons, length_strncpy]
    rfl
  have full : firstEmpty 0 s.slots = s.slots.length → none ∉ s.slots := by
    intro isEnd
    rcases firstEmpty_cases s.slots with ⟨_, below, _⟩ | ⟨full, _⟩
    · exact absurd isEnd below.ne
    · exact full
  obtain ⟨dp', v', ran, stored⟩ := writeEntry_spec devsw good.dir high length bound
    fun isEnd => room absent (full isEnd)
  have slots := stored.slots
  rw [slotOf_direntBytes positive small] at slots
  have free : ∀ entry, s.slots[firstEmpty 0 s.slots]? ≠ some (some entry) := by
    intro entry at_
    rcases firstEmpty_cases s.slots with ⟨_, _, isEmpty⟩ | ⟨_, isEnd⟩
    · rw [isEmpty] at at_
      cases at_
    · rw [isEnd, List.getElem?_eq_none le_rfl] at at_
      cases at_
  obtain ⟨distinct, map⟩ := SlotMap.store_spec good.distinct absent free slots
  obtain ⟨reuses, grows⟩ := stored.size_cases good.dir
  refine ⟨⟨dp', v'⟩, ?_, ⟨stored.dir, distinct⟩, map, slots, reuses, grows⟩
  rw [dirlink, looked]
  dsimp only
  rw [search]
  exact ran

/-- A name is cleared, if it is there. -/
theorem Good.clear (good : Good sb inum s) (devsw : Devsw) (name : Nat → UInt8) :
    ∃ r s', clearEntry devsw sb inum s.dp name s.v = some (r, s'.dp, s'.v) ∧ Good sb inum s' ∧
      s'.map = Function.update s.map (nameOf name) none ∧ s'.dp.size = s.dp.size ∧
      (r = -1 ↔ s.map (nameOf name) = none) ∧ (r = -1 → s' = s) := by
  obtain ⟨found, looked, same, at_⟩ := good.lookup devsw name
  rw [clearEntry, looked]
  cases found with
  | none =>
    have absent : s.map (nameOf name) = none := same.symm
    refine ⟨-1, s, rfl, good, ?_, rfl, iff_of_true rfl absent, fun _ => rfl⟩
    rw [← absent, Function.update_eq_self]
  | some entry =>
    obtain ⟨i, off⟩ := entry
    obtain ⟨k, rfl, there⟩ := at_ i off rfl
    have inside : k < s.slots.length := (List.getElem?_eq_some_iff.mp there).1
    have size := good.dir.size_eq
    have limit := good.dir.file.size
    have least := Nat.mul_le_mul_right direntSize (Nat.succ_le_of_lt inside)
    rw [Nat.succ_mul] at least
    change (slotsOf s.dp s.v).length * direntSize ≥ _ at least
    rw [← size] at least
    obtain ⟨dp', v', ran, stored⟩ := writeEntry_spec devsw good.dir inside.le
      (show (List.replicate direntSize (0 : UInt8)).length = direntSize from List.length_replicate)
      (by omega) fun isEnd => absurd isEnd inside.ne
    have slots := stored.slots
    rw [slotOf_cleared] at slots
    obtain ⟨distinct, map⟩ := SlotMap.clear_spec good.distinct there slots
    refine ⟨0, ⟨dp', v'⟩, ran, ⟨stored.dir, distinct⟩, map, ?_, iff_of_false (by decide) ?_,
      fun isError => absurd isError (by decide)⟩
    · show dp'.size = s.dp.size
      rw [stored.size]
      exact Nat.max_eq_left least
    · intro absent
      rw [absent] at same
      cases same

/-! ## Any calls -/

/-- The directory stands for a map, for each of the three calls. -/
structure IsMap (devsw : Devsw) (sb : Superblock) (inum : Nat) (s : State) : Prop where
  whole : s.dp.size % direntSize = 0
  unique : ∀ j k, j < s.dp.size / direntSize → k < s.dp.size / direntSize →
    inumOf (entryAt (content s.dp s.v.disk) j) ≠ 0 → inumOf (entryAt (content s.dp s.v.disk) k) ≠ 0 →
    namecmp (nameField (entryAt (content s.dp s.v.disk) j))
      (nameField (entryAt (content s.dp s.v.disk) k)) = 0 → j = k
  lookup : ∀ name, ∃ found, dirlookup devsw sb s.dp name s.v = some (found, s.dp, s.v) ∧
    found.map Prod.fst = s.map (nameOf name) ∧
    ∀ i off, found = some (i, off) →
      ∃ k, off = k * direntSize ∧ s.slots[k]? = some (some (nameOf name, i))
  link : ∀ name target, Allowed sb s (.link name target) →
    ∃ r s', dirlink devsw sb inum s.dp name target s.v = some (r, s'.dp, s'.v) ∧
      (r = -1 ↔ (s.map (nameOf name)).isSome = true) ∧ (r = -1 → s' = s) ∧
      (r ≠ -1 → r = 0 ∧ Linked s name target s')
  clear : ∀ name, ∃ r s', clearEntry devsw sb inum s.dp name s.v = some (r, s'.dp, s'.v) ∧
    s'.map = Function.update s.map (nameOf name) none ∧ s'.dp.size = s.dp.size ∧
    (r = -1 ↔ s.map (nameOf name) = none) ∧ (r = -1 → s' = s)

theorem Good.unique (good : Good sb inum s) {j k : Nat} (insideJ : j < s.dp.size / direntSize)
    (insideK : k < s.dp.size / direntSize) (fullJ : inumOf (entryAt (content s.dp s.v.disk) j) ≠ 0)
    (fullK : inumOf (entryAt (content s.dp s.v.disk) k) ≠ 0)
    (same : namecmp (nameField (entryAt (content s.dp s.v.disk) j))
      (nameField (entryAt (content s.dp s.v.disk) k)) = 0) : j = k := by
  have at_ {i : Nat} (inside : i < s.dp.size / direntSize)
      (full : inumOf (entryAt (content s.dp s.v.disk) i) ≠ 0) :
      s.slots[i]? = some (some (nameOf (nameField (entryAt (content s.dp s.v.disk) i)),
        inumOf (entryAt (content s.dp s.v.disk) i))) := by
    rw [State.slots, slotsOf, getElem?_slots (by rwa [Inode.length_content]), slotOf, if_neg full]
  have second := at_ insideK fullK
  rw [← (namecmp_eq_zero_iff _ _).mp same] at second
  exact good.distinct j k _ _ _ (at_ insideJ fullJ) second

theorem Good.isMap (good : Good sb inum s) (devsw : Devsw) : IsMap devsw sb inum s where
  whole := good.dir.whole
  unique _ _ insideJ insideK fullJ fullK same := good.unique insideJ insideK fullJ fullK same
  lookup := good.lookup devsw
  link name target allowed := by
    cases present : (s.map (nameOf name)).isSome with
    | true =>
      exact ⟨-1, s, good.link_present devsw target present, iff_of_true rfl rfl, fun _ => rfl,
        fun different => absurd rfl different⟩
    | false =>
      obtain ⟨s', ran, _, linked⟩ := good.link_absent devsw allowed (Option.isNone_iff_eq_none.mp
        (by rw [← Option.not_isSome, present]; rfl))
      exact ⟨0, s', ran, iff_of_false (by decide) (by decide), fun isError => absurd isError (by decide),
        fun _ => ⟨rfl, linked⟩⟩
  clear name := by
    obtain ⟨r, s', ran, _, rest⟩ := good.clear devsw name
    exact ⟨r, s', ran, rest⟩

/-- One call. -/
theorem Good.step (good : Good sb inum s) (devsw : Devsw) {op : Op} (allowed : Allowed sb s op) :
    ∃ s', step devsw sb inum s op = some s' ∧ Good sb inum s' ∧ s'.map = op.next s.map := by
  cases op with
  | lookup name =>
    obtain ⟨found, looked, _⟩ := good.lookup devsw name
    exact ⟨s, by rw [Dir.step, looked]; rfl, good, rfl⟩
  | link name target =>
    cases present : (s.map (nameOf name)).isSome with
    | true =>
      refine ⟨s, ?_, good, (if_pos present).symm⟩
      rw [Dir.step, good.link_present devsw target present]
      rfl
    | false =>
      obtain ⟨s', ran, good', linked⟩ := good.link_absent devsw allowed
        (Option.isNone_iff_eq_none.mp (by rw [← Option.not_isSome, present]; rfl))
      refine ⟨s', ?_, good', ?_⟩
      · rw [Dir.step, ran]
        rfl
      · rw [linked.map, Op.next, if_neg (by rw [present]; decide)]
  | clear name =>
    obtain ⟨r, s', ran, good', map, _⟩ := good.clear devsw name
    refine ⟨s', ?_, good', map⟩
    rw [Dir.step, ran]
    rfl

end Xv6.Dir
