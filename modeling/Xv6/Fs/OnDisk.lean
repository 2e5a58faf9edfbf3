import Xv6.Dir.Map
import Xv6.Fs.State

/-!
The directories of the machine, on the disk.

Owns: that `dirlookup` and `dirlink` find and leave in the blocks of a directory what they find
and leave in the slots of its inode in the machine.

Does not own: the disk (`Xv6.Dir.Entries`, `Xv6.Dir.Map`); the machine (`Xv6.Fs.Calls`).
-/

namespace Xv6.Fs

open Dir (nameOf direntSize)
open SlotMap (firstEmpty)

variable {encode : Name → List UInt8} {d : Inode} {e : Dirent} {name : Name} {bytes : Nat → UInt8}
  {sb : Mkfs.Superblock} {inum : Nat} {s : Dir.State}

/-- The slots, with the bytes that a name has on the disk. -/
def Inode.stored (encode : Name → List UInt8) (d : Inode) : SlotMap.Slots (List UInt8) Nat :=
  d.slots.map (Option.map (Prod.map encode Fin.val))

theorem getElem?_addEntry (n j : Nat) :
    ((d.addEntry e).stored encode)[j]? =
      if n + j = firstEmpty n (d.stored encode) then some (some (encode e.name, e.inum.val))
      else (d.stored encode)[j]? := by
  obtain ⟨type, nlink, entries⟩ := d
  induction entries generalizing n j with
  | nil => cases j <;> simp [Inode.stored, Inode.slots, Inode.addEntry, Inode.insert, firstEmpty]
  | cons slot rest ih =>
    cases slot with
    | none => cases j <;> simp [Inode.stored, Inode.slots, Inode.addEntry, Inode.insert, firstEmpty]
    | some other =>
      let after : Inode := ⟨type, nlink, rest⟩
      show (some (encode other.name, other.inum.val) :: (after.addEntry e).stored encode)[j]? =
        if n + j = firstEmpty (n + 1) (after.stored encode) then _
        else (some (encode other.name, other.inum.val) :: after.stored encode)[j]?
      cases j with
      | zero =>
        have past := (SlotMap.firstEmpty_spec (after.stored encode) (n + 1)).1
        rw [if_neg (by omega)]
        rfl
      | succ j =>
        rw [List.getElem?_cons_succ, List.getElem?_cons_succ, ih (n + 1) j, Nat.add_right_comm,
          Nat.add_assoc n]

/-- `dirlookup` finds on the disk what it finds in the machine. -/
theorem dirlookup_onDisk (devsw : Xv6.Inode.Devsw) (good : Dir.Good sb inum s)
    (same : s.slots = d.stored encode) (injective : Function.Injective encode)
    (named : nameOf bytes = encode name) :
    Dir.dirlookup devsw sb s.dp bytes s.v =
      some ((d.lookup name).map fun (i, off) => (i.val, off * direntSize), s.dp, s.v) := by
  rw [Dir.dirlookup_eq devsw good.dir, named, show Dir.slotsOf s.dp s.v = _ from same,
    Inode.stored, SlotMap.find_map injective, Dir.located, Option.map_map]
  rfl

/-- `dirlink` leaves the slots on the disk that it leaves in the machine. -/
theorem dirlink_onDisk (devsw : Xv6.Inode.Devsw) (good : Dir.Good sb inum s)
    (same : s.slots = d.stored encode) (injective : Function.Injective encode)
    (named : nameOf bytes = encode e.name) (allowed : Dir.Allowed sb s (.link bytes e.inum.val))
    (absent : d.lookup e.name = none) :
    ∃ s', Dir.dirlink devsw sb inum s.dp bytes e.inum.val s.v = some (0, s'.dp, s'.v) ∧
      Dir.Good sb inum s' ∧ s'.slots = (d.addEntry e).stored encode := by
  have unknown : s.map (nameOf bytes) = none := by
    rw [Dir.State.map, SlotMap.lookup, same, named, Inode.stored, SlotMap.find_map injective]
    exact congrArg _ (congrArg _ absent)
  obtain ⟨s', linked, good', at_⟩ := good.link_absent devsw allowed unknown
  refine ⟨s', linked, good', List.ext_getElem? fun j => ?_⟩
  rw [at_.slots, same, named, getElem?_addEntry 0 j, Nat.zero_add]

end Xv6.Fs
