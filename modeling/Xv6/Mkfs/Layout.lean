import Xv6.Lib.Bytes

/-!
The disk that `mkfs` writes.

Owns: the layout of the disk; inodes as 64 bytes in a block; `rsect`, `wsect`, `rinode` and
`winode` of `mkfs`; how the kernel reads the super block and an inode; and that it finds in an
inode what was written there.

Does not own: the contents of files (`Xv6.Mkfs.Append`).

`mkfs` reads and writes all numbers through `xint` and `xshort`, so that they are on the disk with
the lowest byte first, whatever the host. A read past the end of the image makes `mkfs` exit
with 1; that has no result here.
-/

namespace Xv6.Mkfs

open Bytes (byte get put copy)

def bsize : Nat := 512

def ndirect : Nat := 12

def nindirect : Nat := 128

def maxfile : Nat := ndirect + nindirect

def fssize : Nat := 1000

def ninodes : Nat := 200

/-- Inodes per block. -/
def ipb : Nat := 8

def nlog : Nat := 30

def nbitmap : Nat := fssize / (bsize * 8) + 1

def ninodeblocks : Nat := ninodes / ipb + 1

/-- The blocks before the first data block. -/
def nmeta : Nat := 2 + nlog + ninodeblocks + nbitmap

abbrev Sector := Nat → UInt8

abbrev Disk := Nat → Sector

def rsect (disk : Disk) (sec : Nat) : Option Sector :=
  if sec < fssize then some (disk sec) else none

theorem rsect_some {disk : Disk} {sec : Nat} {buf : Sector} :
    rsect disk sec = some buf ↔ sec < fssize ∧ disk sec = buf := by
  rw [rsect, Option.ite_none_right_eq_some, Option.some.injEq]

def wsect (disk : Disk) (sec : Nat) (buf : Sector) : Disk :=
  Function.update disk sec buf

/-! ## The super block -/

structure Superblock where
  size : Nat
  nblocks : Nat
  ninodes : Nat
  nlog : Nat
  logstart : Nat
  inodestart : Nat
  bmapstart : Nat
  deriving DecidableEq

/-- The super block of `mkfs`. -/
def sb : Superblock where
  size := fssize
  nblocks := fssize - nmeta
  ninodes := Mkfs.ninodes
  nlog := Mkfs.nlog
  logstart := 2
  inodestart := 2 + Mkfs.nlog
  bmapstart := 2 + Mkfs.nlog + ninodeblocks

/-- Block 1 as `mkfs` writes it. -/
def sbSector (sb : Superblock) : Sector :=
  put (put (put (put (put (put (put (fun _ => 0) 0 4 sb.size) 4 4 sb.nblocks) 8 4 sb.ninodes)
    12 4 sb.nlog) 16 4 sb.logstart) 20 4 sb.inodestart) 24 4 sb.bmapstart

/-- The kernel's `readsb`. -/
def readsb (disk : Disk) : Superblock where
  size := get (disk 1) 0 4
  nblocks := get (disk 1) 4 4
  ninodes := get (disk 1) 8 4
  nlog := get (disk 1) 12 4
  logstart := get (disk 1) 16 4
  inodestart := get (disk 1) 20 4
  bmapstart := get (disk 1) 24 4

/-- The kernel reads the super block that was written. -/
theorem readsb_sbSector {disk : Disk} (written : disk 1 = sbSector sb) : readsb disk = sb := by
  unfold readsb
  rw [written]
  decide

/-! ## Inodes -/

structure Dinode where
  type : Nat
  major : Nat
  minor : Nat
  nlink : Nat
  size : Nat
  addrs : Nat → Nat

/-- The numbers fit into their fields. -/
structure Dinode.Fits (d : Dinode) : Prop where
  type : d.type < 2 ^ 16
  major : d.major < 2 ^ 16
  minor : d.minor < 2 ^ 16
  nlink : d.nlink < 2 ^ 16
  size : d.size < 2 ^ 32
  addrs : ∀ i, d.addrs i < 2 ^ 32
  beyond : ∀ i, ndirect < i → d.addrs i = 0

/-- The 64 bytes of an inode. -/
def Dinode.bytes (d : Dinode) : Nat → UInt8 :=
  fun i =>
    if i < 2 then byte d.type i
    else if i < 4 then byte d.major (i - 2)
    else if i < 6 then byte d.minor (i - 4)
    else if i < 8 then byte d.nlink (i - 6)
    else if i < 12 then byte d.size (i - 8)
    else byte (d.addrs ((i - 12) / 4)) ((i - 12) % 4)

def dinodeSize : Nat := 64

/-- The inode in a slot of a block. -/
def loadDinode (s : Sector) (slot : Nat) : Dinode where
  type := get s (slot * dinodeSize + 0) 2
  major := get s (slot * dinodeSize + 2) 2
  minor := get s (slot * dinodeSize + 4) 2
  nlink := get s (slot * dinodeSize + 6) 2
  size := get s (slot * dinodeSize + 8) 4
  addrs := fun i => if i ≤ ndirect then get s (slot * dinodeSize + (12 + 4 * i)) 4 else 0

def storeDinode (s : Sector) (slot : Nat) (d : Dinode) : Sector :=
  copy s (slot * dinodeSize) dinodeSize d.bytes

/-- Reading the fields from the 64 bytes. -/
theorem Dinode.get_bytes {d : Dinode} (fits : d.Fits) :
    get d.bytes 0 2 = d.type ∧ get d.bytes 2 2 = d.major ∧ get d.bytes 4 2 = d.minor ∧
      get d.bytes 6 2 = d.nlink ∧ get d.bytes 8 4 = d.size ∧
      ∀ i, i ≤ ndirect → get d.bytes (12 + 4 * i) 4 = d.addrs i := by
  have short {x off : Nat} (small : x < 2 ^ 16)
      (bytes : ∀ i, i < 2 → d.bytes (off + i) = byte x i) : get d.bytes off 2 = x :=
    (Bytes.get_of_bytes bytes).trans (Nat.mod_eq_of_lt small)
  have word {x off : Nat} (small : x < 2 ^ 32)
      (bytes : ∀ i, i < 4 → d.bytes (off + i) = byte x i) : get d.bytes off 4 = x :=
    (Bytes.get_of_bytes bytes).trans (Nat.mod_eq_of_lt small)
  refine ⟨short fits.type ?_, short fits.major ?_, short fits.minor ?_, short fits.nlink ?_,
    word fits.size ?_, ?_⟩
  · intro i inside
    rw [Dinode.bytes, if_pos (by omega), Nat.zero_add]
  · intro i inside
    rw [Dinode.bytes, if_neg (by omega), if_pos (by omega), Nat.add_sub_cancel_left]
  · intro i inside
    rw [Dinode.bytes, if_neg (by omega), if_neg (by omega), if_pos (by omega),
      Nat.add_sub_cancel_left]
  · intro i inside
    rw [Dinode.bytes, if_neg (by omega), if_neg (by omega), if_neg (by omega), if_pos (by omega),
      Nat.add_sub_cancel_left]
  · intro i inside
    rw [Dinode.bytes, if_neg (by omega), if_neg (by omega), if_neg (by omega), if_neg (by omega),
      if_pos (by omega), Nat.add_sub_cancel_left]
  · intro j _
    apply word (fits.addrs j)
    intro i inside
    rw [Dinode.bytes, if_neg (by omega), if_neg (by omega), if_neg (by omega), if_neg (by omega),
      if_neg (by omega), show (12 + 4 * j + i - 12) / 4 = j by omega,
      show (12 + 4 * j + i - 12) % 4 = i by omega]

theorem load_store_same {s : Sector} {slot : Nat} {d : Dinode} (fits : d.Fits) :
    loadDinode (storeDinode s slot d) slot = d := by
  obtain ⟨type, major, minor, nlink, size, addrs⟩ := Dinode.get_bytes fits
  have field {off width : Nat} (inside : off + width ≤ dinodeSize) :
      get (storeDinode s slot d) (slot * dinodeSize + off) width = get d.bytes off width :=
    Bytes.get_copy inside
  unfold loadDinode
  rw [field (by decide), field (by decide), field (by decide), field (by decide),
    field (by decide), type, major, minor, nlink, size]
  congr 1
  funext i
  split
  · rename_i inside
    rw [field (by unfold ndirect dinodeSize at *; omega), addrs i inside]
  · rename_i outside
    exact (fits.beyond i (by omega)).symm

theorem load_store_other {s : Sector} {slot other : Nat} (d : Dinode) (different : other ≠ slot) :
    loadDinode (storeDinode s slot d) other = loadDinode s other := by
  have field {off width : Nat} (inside : off + width ≤ dinodeSize) :
      get (storeDinode s slot d) (other * dinodeSize + off) width =
        get s (other * dinodeSize + off) width := by
    apply Bytes.get_copy_other
    unfold dinodeSize at *
    omega
  unfold loadDinode
  rw [field (by decide), field (by decide), field (by decide), field (by decide),
    field (by decide)]
  congr 1
  funext i
  split
  · rename_i inside
    rw [field (by unfold ndirect dinodeSize at *; omega)]
  · rfl

/-- `IBLOCK`: the block of an inode. -/
def iblock (inum : Nat) (sb : Superblock) : Nat :=
  inum / ipb + sb.inodestart

/-- The inode with a number. -/
def dinodeAt (disk : Disk) (sb : Superblock) (inum : Nat) : Dinode :=
  loadDinode (disk (iblock inum sb)) (inum % ipb)

def rinode (disk : Disk) (inum : Nat) : Option Dinode :=
  (rsect disk (iblock inum sb)).map fun buf => loadDinode buf (inum % ipb)

def winode (disk : Disk) (inum : Nat) (d : Dinode) : Option Disk :=
  (rsect disk (iblock inum sb)).map fun buf =>
    wsect disk (iblock inum sb) (storeDinode buf (inum % ipb) d)

/-- The inode blocks are before the bitmap. -/
theorem iblock_bounds {inum : Nat} (valid : inum < ninodes) :
    2 + nlog ≤ iblock inum sb ∧ iblock inum sb + 1 < nmeta := by
  have sbStart : sb.inodestart = 32 := rfl
  have start : nmeta = 59 := rfl
  unfold iblock ninodes ipb nlog at *
  omega

theorem rinode_eq {disk : Disk} {inum : Nat} (valid : inum < ninodes) :
    rinode disk inum = some (dinodeAt disk sb inum) := by
  have bounds := iblock_bounds valid
  have size : nmeta < fssize := by decide
  rw [rinode, rsect, if_pos (by omega)]
  rfl

/-- What `winode` leaves. -/
theorem winode_spec (disk : Disk) {inum : Nat} {d : Dinode} (valid : inum < ninodes) (fits : d.Fits) :
    ∃ disk', winode disk inum d = some disk' ∧
      (∀ other, dinodeAt disk' sb other = if other = inum then d else dinodeAt disk sb other) ∧
      ∀ b, b ≠ iblock inum sb → disk' b = disk b := by
  have bounds := iblock_bounds valid
  have size : nmeta < fssize := by decide
  refine ⟨wsect disk (iblock inum sb) (storeDinode (disk (iblock inum sb)) (inum % ipb) d), ?_, ?_, ?_⟩
  · rw [winode, rsect, if_pos (by omega)]
    rfl
  · intro other
    unfold dinodeAt wsect
    by_cases sameBlock : iblock other sb = iblock inum sb
    · rw [sameBlock, Function.update_self]
      by_cases same : other = inum
      · rw [if_pos same, same, load_store_same fits]
      · rw [if_neg same, load_store_other]
        unfold iblock ipb at *
        omega
    · rw [Function.update_of_ne sameBlock, if_neg]
      intro same
      exact sameBlock (by rw [same])
  · intro b different
    exact Function.update_of_ne different _ _

end Xv6.Mkfs
