import Xv6.Dir.Names
import Xv6.Inode.ReadWrite
import Xv6.Lib.SlotMap

/-!
The entries of a directory.

Owns: `dirlookup` and `dirlink` of the kernel, and how `sys_unlink` clears an entry; a directory as
a list of slots; and what the three do with the slots.

Does not own: a directory after many such calls (`Xv6.Dir.Map`); the reference that `dirlookup`
returns (`Xv6.Fs.Refs`).
-/

namespace Xv6.Dir

open Inode (Volume Devsw File Overwritten Room neededBy content readi writei)
open Mkfs (Superblock Dinode bsize ndirect maxfile place tDev FileType direntBytes)
open Overwrite (overwrite)
open SlotMap (find firstEmpty)

/-! ## The kernel -/

/-- `sizeof(struct dirent)`. -/
def direntSize : Nat := 16

/-- `de.inum`. -/
def inumOf (de : List UInt8) : Nat :=
  Bytes.get (pointer de) 0 2

/-- `de.name`. -/
def nameField (de : List UInt8) : Nat → UInt8 :=
  fun i => pointer de (i + 2)

/-- The loop of `dirlookup`: the inode's number and the offset. -/
def dirlookupFrom (devsw : Devsw) (sb : Superblock) (name : Nat → UInt8) :
    Nat → Nat → Dinode → Volume → Option (Option (Nat × Nat) × Dinode × Volume)
  | 0, _, ip, v => some (none, ip, v)
  | fuel + 1, off, ip, v =>
    if off < ip.size then
      match readi devsw sb ip off direntSize v with
      | none => none
      | some (r, de, ip, v) =>
        if r ≠ direntSize then none
        else if inumOf de = 0 then dirlookupFrom devsw sb name fuel (off + direntSize) ip v
        else if namecmp name (nameField de) = 0 then some (some (inumOf de, off), ip, v)
        else dirlookupFrom devsw sb name fuel (off + direntSize) ip v
    else some (none, ip, v)

def dirlookup (devsw : Devsw) (sb : Superblock) (dp : Dinode) (name : Nat → UInt8) (v : Volume) :
    Option (Option (Nat × Nat) × Dinode × Volume) :=
  if dp.type ≠ FileType.dir.code then none else dirlookupFrom devsw sb name dp.size 0 dp v

/-- The loop of `dirlink`: the offset of an empty entry, or of the end. -/
def findEmpty (devsw : Devsw) (sb : Superblock) :
    Nat → Nat → Dinode → Volume → Option (Nat × Dinode × Volume)
  | 0, off, ip, v => some (off, ip, v)
  | fuel + 1, off, ip, v =>
    if off < ip.size then
      match readi devsw sb ip off direntSize v with
      | none => none
      | some (r, de, ip, v) =>
        if r ≠ direntSize then none
        else if inumOf de = 0 then some (off, ip, v)
        else findEmpty devsw sb fuel (off + direntSize) ip v
    else some (off, ip, v)

/-- An entry is written; the kernel panics if that fails. -/
def writeEntry (devsw : Devsw) (sb : Superblock) (inum : Nat) (dp : Dinode) (de : List UInt8)
    (off : Nat) (v : Volume) : Option (Int × Dinode × Volume) :=
  match writei devsw sb inum dp de off v with
  | none => none
  | some (r, dp, v) => if r ≠ direntSize then none else some (0, dp, v)

/-- `dirlink(dp, name, target)`, where `dp` is the inode `inum`. -/
def dirlink (devsw : Devsw) (sb : Superblock) (inum : Nat) (dp : Dinode) (name : Nat → UInt8)
    (target : Nat) (v : Volume) : Option (Int × Dinode × Volume) :=
  match dirlookup devsw sb dp name v with
  | none => none
  | some (some _, dp, v) => some (-1, dp, v)
  | some (none, dp, v) =>
    match findEmpty devsw sb dp.size 0 dp v with
    | none => none
    | some (off, dp, v) =>
      writeEntry devsw sb inum dp (direntBytes target (strncpy name 0 dirsiz)) off v

/-- How `sys_unlink` looks for an entry and clears it. -/
def clearEntry (devsw : Devsw) (sb : Superblock) (inum : Nat) (dp : Dinode) (name : Nat → UInt8)
    (v : Volume) : Option (Int × Dinode × Volume) :=
  match dirlookup devsw sb dp name v with
  | none => none
  | some (none, dp, v) => some (-1, dp, v)
  | some (some (_, off), dp, v) =>
    writeEntry devsw sb inum dp (List.replicate direntSize 0) off v

/-! ## Slots -/

/-- An entry: its name and its inode's number, if it is not empty. -/
abbrev Slot := Option (List UInt8 × Nat)

def slotOf (de : List UInt8) : Slot :=
  if inumOf de = 0 then none else some (nameOf (nameField de), inumOf de)

/-- The bytes of an entry. -/
def entryAt (bytes : List UInt8) (k : Nat) : List UInt8 :=
  (bytes.drop (k * direntSize)).take direntSize

def slots (bytes : List UInt8) : List Slot :=
  (List.range (bytes.length / direntSize)).map fun k => slotOf (entryAt bytes k)

theorem length_slots (bytes : List UInt8) : (slots bytes).length = bytes.length / direntSize := by
  rw [slots, List.length_map, List.length_range]

theorem getElem?_slots {bytes : List UInt8} {k : Nat} (inside : k < bytes.length / direntSize) :
    (slots bytes)[k]? = some (slotOf (entryAt bytes k)) := by
  rw [slots, List.getElem?_map, List.getElem?_range inside, Option.map_some]

theorem drop_slots {bytes : List UInt8} {k : Nat} (inside : k < bytes.length / direntSize) :
    (slots bytes).drop k = slotOf (entryAt bytes k) :: (slots bytes).drop (k + 1) := by
  have below : k < (slots bytes).length := by rwa [length_slots]
  rw [List.drop_eq_getElem_cons below]
  congr 1
  have at_ := getElem?_slots inside
  rw [List.getElem?_eq_getElem below] at at_
  exact Option.some.inj at_

/-! ## Reading -/

/-- A directory whose size is a number of entries. -/
structure Directory (sb : Superblock) (inum : Nat) (dp : Dinode) (v : Volume) : Prop where
  file : File sb inum dp v
  isDir : dp.type = FileType.dir.code
  whole : dp.size % direntSize = 0

variable {sb : Superblock} {inum : Nat} {dp dp' : Dinode} {v v' : Volume} {k : Nat}

theorem Directory.notDevice (dir : Directory sb inum dp v) : dp.type ≠ tDev := by
  rw [dir.isDir]
  decide

/-- The slots of the directory. -/
def slotsOf (dp : Dinode) (v : Volume) : List Slot :=
  slots (content dp v.disk)

theorem length_slotsOf (dp : Dinode) (v : Volume) :
    (slotsOf dp v).length = dp.size / direntSize := by
  rw [slotsOf, length_slots, Inode.length_content]

theorem Directory.size_eq (dir : Directory sb inum dp v) :
    dp.size = (slotsOf dp v).length * direntSize := by
  rw [length_slotsOf, Nat.mul_comm]
  have whole := Nat.div_add_mod dp.size direntSize
  rw [dir.whole] at whole
  exact whole.symm

theorem Directory.readi_entry (devsw : Devsw) (dir : Directory sb inum dp v)
    (inside : k < (slotsOf dp v).length) :
    readi devsw sb dp (k * direntSize) direntSize v =
      some ((direntSize : Int), entryAt (content dp v.disk) k, dp, v) := by
  have size := dir.size_eq
  have limit := dir.file.size
  have least := Nat.mul_le_mul_right direntSize (Nat.succ_le_of_lt inside)
  have small : maxfile * bsize + direntSize < 2 ^ 32 := by decide
  rw [Nat.succ_mul] at least
  rw [Inode.readi_reads devsw dir.file dir.notDevice (by omega) (by omega),
    Nat.min_eq_left (by omega), Nat.add_sub_cancel_left]
  rfl

/-- What is found is at the offset of its slot. -/
def located (found : Option (Nat × Nat)) : Option (Nat × Nat) :=
  found.map fun (inum, k) => (inum, k * direntSize)

/-- What the loop of `dirlookup` finds. -/
theorem dirlookupFrom_eq (devsw : Devsw) (dir : Directory sb inum dp v) (name : Nat → UInt8) {fuel : Nat}
    (enough : (slotsOf dp v).length ≤ k + fuel) :
    dirlookupFrom devsw sb name fuel (k * direntSize) dp v =
      some (located (find (nameOf name) k ((slotsOf dp v).drop k)), dp, v) := by
  induction fuel generalizing k with
  | zero =>
    rw [dirlookupFrom, List.drop_of_length_le (by omega)]
    rfl
  | succ fuel ih =>
    have size := dir.size_eq
    rw [dirlookupFrom]
    by_cases inside : k < (slotsOf dp v).length
    · have below := Nat.mul_lt_mul_of_pos_right inside (show 0 < direntSize by decide)
      have next := @ih (k + 1) (by omega)
      rw [Nat.succ_mul] at next
      rw [if_pos (by omega), dir.readi_entry devsw inside, slotsOf,
        drop_slots (by rwa [← length_slots])]
      dsimp only
      rw [if_neg (fun different => different rfl), next, slotOf]
      by_cases isEmpty : inumOf (entryAt (content dp v.disk) k) = 0
      · rw [if_pos isEmpty, if_pos isEmpty]
        rfl
      · rw [if_neg isEmpty, if_neg isEmpty, find]
        by_cases same : nameOf name = nameOf (nameField (entryAt (content dp v.disk) k))
        · rw [if_pos ((namecmp_eq_zero_iff _ _).mpr same), if_pos same]
          rfl
        · rw [if_neg (fun equal => same ((namecmp_eq_zero_iff _ _).mp equal)), if_neg same]
          rfl
    · have past := Nat.mul_le_mul_right direntSize (Nat.le_of_not_lt inside)
      rw [if_neg (by omega), List.drop_of_length_le (by omega)]
      rfl

theorem dirlookup_eq (devsw : Devsw) (dir : Directory sb inum dp v) (name : Nat → UInt8) :
    dirlookup devsw sb dp name v = some (located (find (nameOf name) 0 (slotsOf dp v)), dp, v) := by
  have enough : (slotsOf dp v).length ≤ 0 + dp.size := by
    rw [length_slotsOf, Nat.zero_add]
    exact Nat.div_le_self _ _
  have found := dirlookupFrom_eq devsw dir name enough
  rw [Nat.zero_mul, List.drop_zero] at found
  rw [dirlookup, if_neg (fun different => different dir.isDir), found]

/-- What the loop of `dirlink` finds. -/
theorem findEmpty_eq (devsw : Devsw) (dir : Directory sb inum dp v) {fuel : Nat}
    (enough : (slotsOf dp v).length ≤ k + fuel) (start : k ≤ (slotsOf dp v).length) :
    findEmpty devsw sb fuel (k * direntSize) dp v =
      some (firstEmpty k ((slotsOf dp v).drop k) * direntSize, dp, v) := by
  induction fuel generalizing k with
  | zero =>
    rw [findEmpty, List.drop_of_length_le (by omega)]
    rfl
  | succ fuel ih =>
    have size := dir.size_eq
    rw [findEmpty]
    by_cases inside : k < (slotsOf dp v).length
    · have below := Nat.mul_lt_mul_of_pos_right inside (show 0 < direntSize by decide)
      have next := @ih (k + 1) (by omega) (by omega)
      rw [Nat.succ_mul] at next
      rw [if_pos (by omega), dir.readi_entry devsw inside, slotsOf,
        drop_slots (by rwa [← length_slots])]
      dsimp only
      rw [if_neg (fun different => different rfl), next, slotOf]
      by_cases isEmpty : inumOf (entryAt (content dp v.disk) k) = 0
      · rw [if_pos isEmpty, if_pos isEmpty]
        rfl
      · rw [if_neg isEmpty, if_neg isEmpty]
        rfl
    · have past := Nat.mul_le_mul_right direntSize (Nat.le_of_not_lt inside)
      rw [if_neg (by omega), List.drop_of_length_le (by omega)]
      rfl

/-! ## Writing -/

variable {bytes de : List UInt8} {j : Nat}

theorem entryAt_overwrite_self (whole : bytes.length % direntSize = 0)
    (inside : k ≤ bytes.length / direntSize) (length : de.length = direntSize) :
    entryAt (overwrite bytes (k * direntSize) de) k = de := by
  have start : k * direntSize ≤ bytes.length := by
    unfold direntSize at *
    omega
  apply List.ext_getElem?
  intro i
  by_cases below : i < direntSize
  · rw [entryAt, List.getElem?_take_of_lt below, List.getElem?_drop,
      Overwrite.getElem?_overwrite start, if_pos (by omega), Nat.add_sub_cancel_left]
  · rw [List.getElem?_eq_none (by rw [entryAt, List.length_take]; omega),
      List.getElem?_eq_none (by omega)]

theorem entryAt_overwrite_other (whole : bytes.length % direntSize = 0)
    (inside : k ≤ bytes.length / direntSize) (length : de.length = direntSize) (different : j ≠ k) :
    entryAt (overwrite bytes (k * direntSize) de) j = entryAt bytes j := by
  have start : k * direntSize ≤ bytes.length := by
    unfold direntSize at *
    omega
  apply List.ext_getElem?
  intro i
  by_cases below : i < direntSize
  · rw [entryAt, entryAt, List.getElem?_take_of_lt below, List.getElem?_take_of_lt below,
      List.getElem?_drop, List.getElem?_drop, Overwrite.getElem?_overwrite start, if_neg]
    unfold direntSize at *
    omega
  · rw [List.getElem?_eq_none (by rw [entryAt, List.length_take]; omega),
      List.getElem?_eq_none (by rw [entryAt, List.length_take]; omega)]

/-- The slots after an entry is written, which may be a new one at the end. -/
theorem slots_overwrite (whole : bytes.length % direntSize = 0)
    (inside : k ≤ bytes.length / direntSize) (length : de.length = direntSize) (j : Nat) :
    (slots (overwrite bytes (k * direntSize) de))[j]? =
      if j = k then some (slotOf de) else (slots bytes)[j]? := by
  have total : (overwrite bytes (k * direntSize) de).length =
      max bytes.length (k * direntSize + direntSize) := by
    rw [Overwrite.length_overwrite (by unfold direntSize at *; omega), length]
  by_cases same : j = k
  · have below : k < (overwrite bytes (k * direntSize) de).length / direntSize := by
      rw [total]
      unfold direntSize
      omega
    rw [if_pos same, same, getElem?_slots below, entryAt_overwrite_self whole inside length]
  · rw [if_neg same]
    by_cases below : j < bytes.length / direntSize
    · have below' : j < (overwrite bytes (k * direntSize) de).length / direntSize := by
        rw [total]
        unfold direntSize at *
        omega
      rw [getElem?_slots below, getElem?_slots below',
        entryAt_overwrite_other whole inside length same]
    · have past : (overwrite bytes (k * direntSize) de).length / direntSize ≤ j := by
        rw [total]
        unfold direntSize at *
        omega
      rw [List.getElem?_eq_none (by rwa [length_slots]),
        List.getElem?_eq_none (by rw [length_slots]; omega)]

theorem inumOf_direntBytes {target : Nat} (small : target < 2 ^ 16) (name : List UInt8) :
    inumOf (direntBytes target name) = target := by
  have bytes : ∀ i, i < 2 → pointer (direntBytes target name) (0 + i) = Bytes.byte target i := by
    intro i below
    obtain rfl | rfl : i = 0 ∨ i = 1 := by omega
    · rfl
    · rfl
  rw [inumOf, Bytes.get_of_bytes bytes]
  exact Nat.mod_eq_of_lt small

/-- The entry that `dirlink` writes. -/
theorem slotOf_direntBytes {target : Nat} (positive : 0 < target) (small : target < 2 ^ 16)
    (name : Nat → UInt8) :
    slotOf (direntBytes target (strncpy name 0 dirsiz)) = some (nameOf name, target) := by
  have field : nameField (direntBytes target (strncpy name 0 dirsiz)) = pointer (strncpy name 0 dirsiz) := rfl
  rw [slotOf, inumOf_direntBytes small, if_neg (by omega), field, nameOf_strncpy]

theorem slotOf_cleared : slotOf (List.replicate direntSize 0) = none := by
  decide

/-- An entry is written to slot `k`. -/
structure Stored (sb : Superblock) (inum : Nat) (k : Nat) (slot : Slot) (dp : Dinode) (v : Volume)
    (dp' : Dinode) (v' : Volume) : Prop where
  dir : Directory sb inum dp' v'
  slots : ∀ j, (slotsOf dp' v')[j]? = if j = k then some slot else (slotsOf dp v)[j]?
  size : dp'.size = max dp.size (k * direntSize + direntSize)
  others : ∀ i, i < sb.ninodes → i ≠ inum → Mkfs.dinodeAt v'.disk sb i = Mkfs.dinodeAt v.disk sb i ∧
    content (Mkfs.dinodeAt v.disk sb i) v'.disk = content (Mkfs.dinodeAt v.disk sb i) v.disk

theorem writeEntry_spec (devsw : Devsw) (dir : Directory sb inum dp v)
    (inside : k ≤ (slotsOf dp v).length) (length : de.length = direntSize)
    (short : k * direntSize + direntSize ≤ maxfile * bsize)
    (room : k = (slotsOf dp v).length → Room sb (neededBy dp.size direntSize) dp v.disk) :
    ∃ dp' v', writeEntry devsw sb inum dp de (k * direntSize) v = some (0, dp', v') ∧
      Stored sb inum k (slotOf de) dp v dp' v' := by
  have size := dir.size_eq
  have start : k * direntSize ≤ dp.size := by
    rw [size]
    exact Nat.mul_le_mul_right direntSize inside
  have enough : Room sb (neededBy (k * direntSize) de.length) dp v.disk := by
    rw [length]
    by_cases isEnd : k = (slotsOf dp v).length
    · rw [isEnd, ← size]
      exact room isEnd
    · have least := Nat.mul_le_mul_right direntSize (Nat.succ_le_of_lt (lt_of_le_of_ne inside isEnd))
      rw [Nat.succ_mul] at least
      exact dir.file.room_inside (by omega)
  obtain ⟨dp', v', ran, written⟩ := Inode.writei_overwrites devsw dir.file dir.notDevice start
    (by rw [length]; exact short) enough
  have newSize := written.size
  rw [length] at ran newSize
  refine ⟨dp', v', ?_, ⟨written.file, ?_, ?_⟩, ?_, newSize, written.others⟩
  · rw [writeEntry, ran]
    rfl
  · rw [written.same]
    exact dir.isDir
  · have whole := dir.whole
    rw [newSize]
    unfold direntSize at *
    omega
  · intro j
    have whole : (content dp v.disk).length % direntSize = 0 := by
      rw [Inode.length_content]
      exact dir.whole
    rw [slotsOf, written.content]
    exact slots_overwrite whole (by rw [← length_slots]; exact inside) length j

end Xv6.Dir
