import Xv6.Inode.Blocks

/-!
The blocks of a file.

Owns: `bmap` of the kernel; when the blocks of the files on a disk are sound; that a place in a
file that has no block is given a free one, with nothing else changed; and what a function that
changes one file leaves as it was.

Does not own: what is in the blocks (`Xv6.Inode.ReadWrite`).
-/

namespace Xv6.Inode

open Function (update update_self update_of_ne)

open Bytes (get put)
open Mkfs (Sector Disk Superblock Dinode bsize ndirect nindirect maxfile iblock dinodeAt place)

/-- "Load indirect block, allocating if necessary." -/
def loadIndirect (sb : Superblock) (ip : Dinode) (v : Volume) : Option (Dinode × Volume) :=
  if ip.addrs ndirect = 0 then
    (balloc sb v).map fun (addr, v) => (ip.setAddr ndirect addr, v)
  else some (ip, v)

/-- The block for block `bn` of a file. Where there is none it is allocated; the kernel panics if
none is free or the file is at its end. -/
def bmap (sb : Superblock) (ip : Dinode) (bn : Nat) (v : Volume) : Option (Nat × Dinode × Volume) :=
  if bn < ndirect then
    if ip.addrs bn = 0 then
      (balloc sb v).map fun (addr, v) => (addr, ip.setAddr bn addr, v)
    else some (ip.addrs bn, ip, v)
  else if bn - ndirect < nindirect then
    (loadIndirect sb ip v).bind fun (ip, v) =>
      let bp := v.disk (ip.addrs ndirect)
      if get bp (4 * (bn - ndirect)) 4 = 0 then
        (balloc sb v).map fun (addr, v) =>
          (addr, ip, v.logWrite (ip.addrs ndirect) (put bp (4 * (bn - ndirect)) 4 addr))
      else some (get bp (4 * (bn - ndirect)) 4, ip, v)
  else none

/-! ## Sound disks -/

/-- Blocks that are not for files: the boot block, those with inodes and the bitmap. -/
def Reserved (sb : Superblock) (b : Nat) : Prop :=
  b = 0 ∨ (∃ i, i < sb.ninodes ∧ b = iblock i sb) ∨ ∃ c, c < sb.size ∧ b = bblock c sb

structure Layout (sb : Superblock) : Prop where
  size : sb.size ≤ 2 ^ 32
  apart : ∀ i c, i < sb.ninodes → c < sb.size → iblock i sb ≠ bblock c sb

/-- Every block of a file is in use, for one place in one file. -/
structure Sound (sb : Superblock) (files : Nat → Dinode) (disk : Disk) : Prop where
  fits : ∀ i, i < sb.ninodes → (files i).Fits
  reserved : ∀ b, b < sb.size → Reserved sb b → used sb disk b
  data : ∀ i y, i < sb.ninodes → y ≤ maxfile → place (files i) disk y ≠ 0 →
    place (files i) disk y < sb.size ∧ used sb disk (place (files i) disk y) ∧
      ¬Reserved sb (place (files i) disk y)
  apart : ∀ i j x y, i < sb.ninodes → j < sb.ninodes → x ≤ maxfile → y ≤ maxfile →
    place (files i) disk x = place (files j) disk y → place (files i) disk x ≠ 0 → i = j ∧ x = y

/-- What a sound disk is sound by. -/
theorem Sound.congr {sb : Superblock} {files files' : Nat → Dinode} {disk disk' : Disk}
    (sound : Sound sb files disk) (fits : ∀ i, i < sb.ninodes → (files' i).Fits)
    (marks : ∀ c, c < sb.size → (used sb disk' c ↔ used sb disk c))
    (places : ∀ i z, i < sb.ninodes → z ≤ maxfile →
      place (files' i) disk' z = place (files i) disk z) : Sound sb files' disk' := by
  refine ⟨fits, ?_, ?_, ?_⟩
  · intro c below reserved
    exact (marks c below).mpr (sound.reserved c below reserved)
  · intro i z valid bound
    rw [places i z valid bound]
    intro there
    obtain ⟨below, inUse, notReserved⟩ := sound.data i z valid bound there
    exact ⟨below, (marks _ below).mpr inUse, notReserved⟩
  · intro i j x z validI validJ boundX boundZ
    rw [places i x validI boundX, places j z validJ boundZ]
    exact sound.apart i j x z validI validJ boundX boundZ

variable {k c z : Nat} {touched' : Finset Nat}

variable {sb : Superblock} {files : Nat → Dinode} {v v' : Volume} {inum y b : Nat}

/-- A free block is nothing else. -/
theorem Sound.fresh (sound : Sound sb files v.disk) (below : b < sb.size)
    (free : ¬used sb v.disk b) :
    ¬Reserved sb b ∧ ∀ i y, i < sb.ninodes → y ≤ maxfile → place (files i) v.disk y ≠ b := by
  have notReserved : ¬Reserved sb b := fun reserved => free (sound.reserved b below reserved)
  refine ⟨notReserved, ?_⟩
  rintro i y valid bound rfl
  refine free (sound.data i y valid bound ?_).2.1
  intro isZero
  exact notReserved (.inl isZero)

/-- A place in a file gets a free block. -/
structure Assigned (sb : Superblock) (ip : Dinode) (v : Volume) (y b : Nat) (ip' : Dinode)
    (v' : Volume) : Prop where
  below : b < sb.size
  free : ¬used sb v.disk b
  marks : ∀ c, c < sb.size → (used sb v'.disk c ↔ c = b ∨ used sb v.disk c)
  places : ∀ z, z ≤ maxfile → place ip' v'.disk z = if z = y then b else place ip v.disk z
  others : ∀ c, c ≠ b → c ≠ bblock b sb →
    (place ip' v'.disk maxfile ≠ 0 → c ≠ place ip' v'.disk maxfile) → v'.disk c = v.disk c
  same : ip' = { ip with addrs := ip'.addrs }
  fits : ip'.Fits
  logged : ∀ c, c ∈ v'.logged → c ∈ v.logged ∨ c = b ∨ c = bblock b sb ∨
    c = place ip' v'.disk maxfile ∧ place ip' v'.disk maxfile ≠ 0 ∧ ndirect ≤ y ∧ y < maxfile

theorem Sound.bitmap_ne (sound : Sound sb files v.disk) (made : Allocated sb v b v')
    (below : c < sb.size) : bblock c sb ≠ b := by
  rintro rfl
  exact (sound.fresh made.below made.free).1 (.inr (.inr ⟨c, below, rfl⟩))

/-- The block of addresses is not touched by `balloc`. -/
theorem Allocated.indirect (made : Allocated sb v b v') (sound : Sound sb files v.disk)
    (valid : inum < sb.ninodes) (there : (files inum).addrs ndirect ≠ 0) :
    (files inum).addrs ndirect ≠ b ∧ (files inum).addrs ndirect ≠ bblock b sb := by
  have at_ : place (files inum) v.disk maxfile = (files inum).addrs ndirect :=
    Mkfs.place_maxfile _ _
  have notFresh := (sound.fresh made.below made.free).2 inum maxfile valid le_rfl
  have notReserved := (sound.data inum maxfile valid le_rfl (by rwa [at_])).2.2
  rw [at_] at notFresh notReserved
  refine ⟨notFresh, ?_⟩
  intro isBitmap
  exact notReserved (.inr (.inr ⟨b, made.below, isBitmap⟩))

theorem Allocated.logged_cases (made : Allocated sb v b v') (member : c ∈ v'.logged) :
    c ∈ v.logged ∨ c = b ∨ c = bblock b sb := by
  rw [made.logged, List.mem_cons, List.mem_cons] at member
  tauto

/-- An address in the inode: of a data block, or of the block of addresses. -/
theorem Allocated.assignAddr (made : Allocated sb v b v') (layout : Layout sb)
    (sound : Sound sb files v.disk) (valid : inum < sb.ninodes)
    (slot : k < ndirect ∧ y = k ∨ k = ndirect ∧ y = maxfile) (absent : (files inum).addrs k = 0) :
    Assigned sb (files inum) v y b ((files inum).setAddr k b) v' := by
  have small : b < 2 ^ 32 := lt_of_lt_of_le made.below layout.size
  refine ⟨made.below, made.free, fun c below => made.used_iff (fun _ => sound.bitmap_ne made) below,
    ?_, fun c different notBitmap _ => made.others different notBitmap, rfl,
    (sound.fits inum valid).setAddr (by omega) small, ?_⟩
  · intro z bound
    rcases slot with ⟨direct, rfl⟩ | ⟨rfl, rfl⟩
    · by_cases same : z = y
      · rw [if_pos same, same, Mkfs.place_direct direct, Dinode.setAddr_self]
      · rw [if_neg same]
        apply Mkfs.place_congr
        · intro _
          exact Dinode.setAddr_other same
        · exact Dinode.setAddr_other (by omega)
        · intro there
          obtain ⟨notFresh, notBitmap⟩ := made.indirect sound valid there
          exact made.others notFresh notBitmap
    · by_cases same : z = maxfile
      · rw [if_pos same, same, Mkfs.place_maxfile, Dinode.setAddr_self]
      · rw [if_neg same]
        by_cases direct : z < ndirect
        · rw [Mkfs.place_direct direct, Mkfs.place_direct direct, Dinode.setAddr_other (by omega)]
        · have fresh : ((files inum).setAddr ndirect b).addrs ndirect ≠ 0 := by
            rw [Dinode.setAddr_self]
            rintro rfl
            exact (sound.fresh made.below made.free).1 (.inl rfl)
          rw [Mkfs.place_indirect (by omega) (by omega) fresh, Dinode.setAddr_self, made.zeroed,
            Mkfs.place_of_no_indirect (by omega) (by omega) absent]
          exact Bytes.get_zero fun _ _ _ => rfl
  · intro c member
    rcases made.logged_cases member with old | isBlock | isBitmap
    · exact .inl old
    · exact .inr (.inl isBlock)
    · exact .inr (.inr (.inl isBitmap))

/-- An address in the block of addresses. -/
theorem Allocated.assignEntry (made : Allocated sb v b v') (layout : Layout sb)
    (sound : Sound sb files v.disk) (valid : inum < sb.ninodes) (low : ndirect ≤ y)
    (high : y < maxfile) (there : (files inum).addrs ndirect ≠ 0) :
    Assigned sb (files inum) v y b (files inum)
      (v'.logWrite ((files inum).addrs ndirect)
        (put (v.disk ((files inum).addrs ndirect)) (4 * (y - ndirect)) 4 b)) := by
  have small : b < 2 ^ 32 := lt_of_lt_of_le made.below layout.size
  obtain ⟨notFresh, notBitmap⟩ := made.indirect sound valid there
  have notReserved := (sound.data inum maxfile valid le_rfl
    (by rwa [Mkfs.place_maxfile])).2.2
  rw [Mkfs.place_maxfile] at notReserved
  refine ⟨made.below, made.free, ?_, ?_, ?_, rfl, sound.fits inum valid, ?_⟩
  · intro c below
    rw [← made.used_iff (fun _ => sound.bitmap_ne made) below, used, used, Volume.logWrite_other]
    intro isIndirect
    exact notReserved (.inr (.inr ⟨c, below, isIndirect.symm⟩))
  · intro z bound
    by_cases direct : z < ndirect
    · rw [Mkfs.place_direct direct, Mkfs.place_direct direct, if_neg (by omega)]
    · by_cases isLast : z = maxfile
      · rw [isLast, Mkfs.place_maxfile, Mkfs.place_maxfile, if_neg (by omega)]
      · rw [Mkfs.place_indirect (by omega) (by omega) there, Volume.logWrite_self]
        by_cases same : z = y
        · rw [if_pos same, same, Bytes.get_put_same]
          exact Nat.mod_eq_of_lt small
        · rw [if_neg same, Mkfs.place_indirect (by omega) (by omega) there,
            Bytes.get_put_other (by omega)]
  · intro c different isData notIndirect
    rw [Mkfs.place_maxfile] at notIndirect
    rw [Volume.logWrite_other v' (notIndirect there), made.others different isData]
  · intro c member
    rw [Mkfs.place_maxfile]
    rcases List.mem_cons.mp member with isIndirect | member
    · exact .inr (.inr (.inr ⟨isIndirect, there, low, high⟩))
    · rcases made.logged_cases member with old | isBlock | isBitmap
      · exact .inl old
      · exact .inr (.inl isBlock)
      · exact .inr (.inr (.inl isBitmap))

namespace Assigned

variable {ip' : Dinode}

/-- A block that was in use keeps its bytes, unless it has the file's addresses. -/
theorem block_eq (assigned : Assigned sb (files inum) v y b ip' v') (sound : Sound sb files v.disk)
    (valid : inum < sb.ninodes) {i : Nat} (validOther : i < sb.ninodes) (bound : z ≤ maxfile)
    (there : place (files i) v.disk z ≠ 0) (other : ¬(i = inum ∧ z = maxfile)) :
    v'.disk (place (files i) v.disk z) = v.disk (place (files i) v.disk z) := by
  have notFresh := (sound.fresh assigned.below assigned.free).2 i z validOther bound
  have notReserved := (sound.data i z validOther bound there).2.2
  apply assigned.others _ notFresh
  · intro isBitmap
    exact notReserved (.inr (.inr ⟨b, assigned.below, isBitmap⟩))
  · rw [assigned.places maxfile le_rfl]
    intro _
    split
    · exact notFresh
    · intro same
      exact other (sound.apart i inum z maxfile validOther valid bound le_rfl same there)

/-- The places of all files. -/
theorem place_eq (assigned : Assigned sb (files inum) v y b ip' v') (sound : Sound sb files v.disk)
    (valid : inum < sb.ninodes) {i : Nat} (validOther : i < sb.ninodes) (bound : z ≤ maxfile) :
    place (update files inum ip' i) v'.disk z =
      if i = inum ∧ z = y then b else place (files i) v.disk z := by
  by_cases same : i = inum
  · rw [same, update_self, assigned.places z bound]
    simp only [true_and]
  · rw [update_of_ne same, if_neg fun both => same both.1]
    apply Mkfs.place_congr (fun _ => rfl) rfl
    intro there
    rw [← Mkfs.place_maxfile (files i) v.disk] at there ⊢
    exact assigned.block_eq sound valid validOther le_rfl there fun both => same both.1

theorem sound (assigned : Assigned sb (files inum) v y b ip' v') (sound : Sound sb files v.disk)
    (valid : inum < sb.ninodes) : Sound sb (update files inum ip') v'.disk := by
  obtain ⟨notReserved, notPlace⟩ := sound.fresh assigned.below assigned.free
  refine ⟨?_, ?_, ?_, ?_⟩
  · exact fun i validOther => Update.cases i assigned.fits fun _ => sound.fits i validOther
  · intro c below reserved
    exact (assigned.marks c below).mpr (.inr (sound.reserved c below reserved))
  · intro i z validOther bound
    rw [assigned.place_eq sound valid validOther bound]
    split
    · intro _
      exact ⟨assigned.below, (assigned.marks b assigned.below).mpr (.inl rfl), notReserved⟩
    · intro there
      obtain ⟨below, inUse, data⟩ := sound.data i z validOther bound there
      exact ⟨below, (assigned.marks _ below).mpr (.inr inUse), data⟩
  · intro i j x z validI validJ boundX boundZ
    rw [assigned.place_eq sound valid validI boundX, assigned.place_eq sound valid validJ boundZ]
    by_cases first : i = inum ∧ x = y
    · by_cases second : j = inum ∧ z = y
      · intro _ _
        exact ⟨first.1.trans second.1.symm, first.2.trans second.2.symm⟩
      · rw [if_pos first, if_neg second]
        intro same
        exact absurd same.symm (notPlace j z validJ boundZ)
    · rw [if_neg first]
      by_cases second : j = inum ∧ z = y
      · rw [if_pos second]
        intro same
        exact absurd same (notPlace i x validI boundX)
      · rw [if_neg second]
        exact sound.apart i j x z validI validJ boundX boundZ

end Assigned

/-! ## Changes to one file -/

/-- The places in `needed` that have no block yet can all be given one. -/
def Room (sb : Superblock) (needed : Finset Nat) (ip : Dinode) (disk : Disk) : Prop :=
  (needed.filter fun z => place ip disk z = 0).card ≤ (freeBlocks sb disk).card

instance (sb : Superblock) (needed : Finset Nat) (ip : Dinode) (disk : Disk) :
    Decidable (Room sb needed ip disk) :=
  inferInstanceAs (Decidable (_ ≤ _))

/-- The place had no block before. -/
def New (ip : Dinode) (v : Volume) (ip' : Dinode) (v' : Volume) (z : Nat) : Prop :=
  z ≤ maxfile ∧ place ip v.disk z = 0 ∧ place ip' v'.disk z ≠ 0

/-- Why a block was passed to `log_write`. -/
inductive Reason (sb : Superblock) (touched : Finset Nat) (ip : Dinode) (v : Volume) (ip' : Dinode)
    (v' : Volume) : Nat → Prop where
  | data {z : Nat} (written : z ∈ touched) (there : place ip' v'.disk z ≠ 0) :
      Reason sb touched ip v ip' v' (place ip' v'.disk z)
  | zeroed {z : Nat} (isNew : New ip v ip' v' z) : Reason sb touched ip v ip' v' (place ip' v'.disk z)
  | bitmap {z : Nat} (isNew : New ip v ip' v' z) :
      Reason sb touched ip v ip' v' (bblock (place ip' v'.disk z) sb)
  | addresses (there : place ip' v'.disk maxfile ≠ 0) {z : Nat} (isNew : New ip v ip' v' z)
      (low : ndirect ≤ z) (high : z < maxfile) :
      Reason sb touched ip v ip' v' (place ip' v'.disk maxfile)

/-- The file `inum` changes: it may get blocks at the places in `needed`, and the bytes of its blocks
in `touched` may change. -/
structure Changed (sb : Superblock) (files : Nat → Dinode) (inum : Nat) (needed touched : Finset Nat)
    (ip : Dinode) (v : Volume) (ip' : Dinode) (v' : Volume) : Prop where
  sound : Sound sb (Function.update files inum ip') v'.disk
  same : ip' = { ip with addrs := ip'.addrs }
  keeps : ∀ z, z ≤ maxfile → place ip v.disk z ≠ 0 → place ip' v'.disk z = place ip v.disk z
  only : ∀ z, New ip v ip' v' z → z ∈ needed
  inodes : ∀ i, i < sb.ninodes → v'.disk (iblock i sb) = v.disk (iblock i sb)
  places : ∀ i z, i < sb.ninodes → i ≠ inum → z ≤ maxfile →
    place (files i) v'.disk z = place (files i) v.disk z
  others : ∀ i z, i < sb.ninodes → i ≠ inum → z < maxfile → place (files i) v.disk z ≠ 0 →
    v'.disk (place (files i) v.disk z) = v.disk (place (files i) v.disk z)
  untouched : ∀ z, z < maxfile → z ∉ touched → place ip v.disk z ≠ 0 →
    v'.disk (place ip v.disk z) = v.disk (place ip v.disk z)
  logged : ∀ c, c ∈ v'.logged → c ∈ v.logged ∨ Reason sb touched ip v ip' v' c
  room : ∀ all, needed ⊆ all → (∀ z ∈ all, z ≤ maxfile) → Room sb all ip v.disk →
    Room sb all ip' v'.disk

variable {needed touched : Finset Nat} {ip ip' ip'' : Dinode} {v'' : Volume}

theorem Changed.refl (sound : Sound sb (update files inum ip) v.disk)
    (needed touched : Finset Nat) : Changed sb files inum needed touched ip v ip v := by
  refine ⟨sound, rfl, fun _ _ _ => rfl, ?_, fun _ _ => rfl, fun _ _ _ _ _ => rfl,
    fun _ _ _ _ _ _ => rfl, fun _ _ _ _ => rfl, fun _ member => .inl member, fun _ _ _ enough => enough⟩
  intro z isNew
  exact absurd isNew.2.1 isNew.2.2

theorem New.of_first (keeps : ∀ z, z ≤ maxfile → place ip' v'.disk z ≠ 0 →
      place ip'' v''.disk z = place ip' v'.disk z) (isNew : New ip v ip' v' z) :
    New ip v ip'' v'' z ∧ place ip'' v''.disk z = place ip' v'.disk z := by
  have same := keeps z isNew.1 isNew.2.2
  exact ⟨⟨isNew.1, isNew.2.1, by rw [same]; exact isNew.2.2⟩, same⟩

theorem New.of_second (keeps : ∀ z, z ≤ maxfile → place ip v.disk z ≠ 0 →
      place ip' v'.disk z = place ip v.disk z) (isNew : New ip' v' ip'' v'' z) :
    New ip v ip'' v'' z := by
  refine ⟨isNew.1, ?_, isNew.2.2⟩
  by_contra there
  have same := keeps z isNew.1 there
  exact there (same.symm.trans isNew.2.1)

theorem Reason.of_first (small : ∀ z ∈ touched, z < maxfile)
    (keeps : ∀ z, z ≤ maxfile → place ip' v'.disk z ≠ 0 →
      place ip'' v''.disk z = place ip' v'.disk z) (reason : Reason sb touched ip v ip' v' c) :
    Reason sb touched ip v ip'' v'' c := by
  cases reason with
  | @data z written there =>
    have same := keeps z (small z written).le there
    rw [← same] at there ⊢
    exact .data written there
  | zeroed isNew =>
    obtain ⟨later, same⟩ := isNew.of_first keeps
    rw [← same]
    exact .zeroed later
  | bitmap isNew =>
    obtain ⟨later, same⟩ := isNew.of_first keeps
    rw [← same]
    exact .bitmap later
  | addresses there isNew low high =>
    have same := keeps maxfile le_rfl there
    rw [← same] at there ⊢
    exact .addresses there (isNew.of_first keeps).1 low high

theorem Reason.of_second (keeps : ∀ z, z ≤ maxfile → place ip v.disk z ≠ 0 →
      place ip' v'.disk z = place ip v.disk z) (reason : Reason sb touched ip' v' ip'' v'' c) :
    Reason sb touched ip v ip'' v'' c := by
  cases reason with
  | data written there => exact .data written there
  | zeroed isNew => exact .zeroed (isNew.of_second keeps)
  | bitmap isNew => exact .bitmap (isNew.of_second keeps)
  | addresses there isNew low high => exact .addresses there (isNew.of_second keeps) low high

theorem Changed.trans (first : Changed sb files inum needed touched ip v ip' v')
    (second : Changed sb files inum needed touched ip' v' ip'' v'')
    (small : ∀ z ∈ touched, z < maxfile) : Changed sb files inum needed touched ip v ip'' v'' where
  sound := second.sound
  same := by rw [second.same, first.same]
  keeps z bound there := by
    have before := first.keeps z bound there
    rw [second.keeps z bound (by rwa [before]), before]
  only z isNew := by
    by_cases early : place ip' v'.disk z = 0
    · exact second.only z ⟨isNew.1, early, isNew.2.2⟩
    · exact first.only z ⟨isNew.1, isNew.2.1, early⟩
  inodes i valid := (second.inodes i valid).trans (first.inodes i valid)
  places i z valid other bound :=
    (second.places i z valid other bound).trans (first.places i z valid other bound)
  others i z valid other bound there := by
    have before := first.places i z valid other bound.le
    rw [← first.others i z valid other bound there, ← before]
    exact second.others i z valid other bound (by rwa [before])
  untouched z bound notTouched there := by
    have before := first.keeps z bound.le there
    rw [← first.untouched z bound notTouched there, ← before]
    exact second.untouched z bound notTouched (by rwa [before])
  logged c member := by
    rcases second.logged c member with early | reason
    · rcases first.logged c early with old | reason
      · exact .inl old
      · exact .inr (reason.of_first small second.keeps)
    · exact .inr (reason.of_second first.keeps)
  room all le bounds enough := second.room all le bounds (first.room all le bounds enough)

theorem Reason.mono (le : touched ⊆ touched') (reason : Reason sb touched ip v ip' v' c) :
    Reason sb touched' ip v ip' v' c := by
  cases reason with
  | data written there => exact .data (le written) there
  | zeroed isNew => exact .zeroed isNew
  | bitmap isNew => exact .bitmap isNew
  | addresses there isNew low high => exact .addresses there isNew low high

theorem Changed.mono (le : touched ⊆ touched')
    (changed : Changed sb files inum needed touched ip v ip' v') :
    Changed sb files inum needed touched' ip v ip' v' :=
  { changed with
    untouched := fun z bound outside => changed.untouched z bound fun member => outside (le member)
    logged := fun c member => (changed.logged c member).imp_right fun reason => reason.mono le }

theorem not_room {y : Nat} (member : y ∈ needed) (absent : place ip v.disk y = 0)
    (full : freeBlocks sb v.disk = ∅) : ¬Room sb needed ip v.disk := by
  intro room
  rw [Room, full, Finset.card_empty, Nat.le_zero, Finset.card_eq_zero] at room
  exact Finset.notMem_empty y (room ▸ Finset.mem_filter.mpr ⟨member, absent⟩)

theorem Assigned.room {y b : Nat} (assigned : Assigned sb ip v y b ip' v') (nonzero : b ≠ 0)
    (small : ∀ z ∈ needed, z ≤ maxfile) (member : y ∈ needed) (absent : place ip v.disk y = 0)
    (room : Room sb needed ip v.disk) : Room sb needed ip' v'.disk := by
  have missing : (needed.filter fun z => place ip' v'.disk z = 0) =
      (needed.filter fun z => place ip v.disk z = 0).erase y := by
    ext z
    rw [Finset.mem_erase, Finset.mem_filter, Finset.mem_filter]
    by_cases isNeeded : z ∈ needed
    · rw [assigned.places z (small z isNeeded)]
      by_cases same : z = y
      · simp [same, nonzero]
      · simp [same]
    · simp [isNeeded]
  have taken : b ∈ freeBlocks sb v.disk :=
    Finset.mem_filter.mpr ⟨Finset.mem_range.mpr assigned.below, assigned.free⟩
  rw [Room, missing, freeBlocks_erase assigned.marks,
    Finset.card_erase_of_mem (Finset.mem_filter.mpr ⟨member, absent⟩),
    Finset.card_erase_of_mem taken]
  exact Nat.sub_le_sub_right room 1

/-- A new block is a change. -/
theorem Assigned.changed {y b : Nat} (assigned : Assigned sb ip v y b ip' v') (layout : Layout sb)
    (sound : Sound sb (update files inum ip) v.disk) (valid : inum < sb.ninodes)
    (bound : y ≤ maxfile) (absent : place ip v.disk y = 0) (member : y ∈ needed)
    (touched : Finset Nat) : Changed sb files inum needed touched ip v ip' v' := by
  obtain ⟨notReserved, notPlace⟩ := sound.fresh assigned.below assigned.free
  have assigned_ : Assigned sb (update files inum ip inum) v y b ip' v' := by
    rwa [update_self]
  have at_ : place ip' v'.disk y = b := by
    rw [assigned.places y bound, if_pos rfl]
  have nonzero : b ≠ 0 := fun isZero => notReserved (.inl isZero)
  have isNew : New ip v ip' v' y := by
    refine ⟨bound, absent, ?_⟩
    rw [at_]
    exact nonzero
  refine ⟨?_, assigned.same, ?_, ?_, ?_, ?_, ?_, ?_, ?_, fun all le bounds enough =>
    assigned.room nonzero bounds (le member) absent enough⟩
  · have after := assigned_.sound sound valid
    rwa [Function.update_idem] at after
  · intro z within there
    rw [assigned.places z within, if_neg]
    rintro rfl
    exact there absent
  · intro z new_
    by_contra outside
    refine new_.2.2 ?_
    rw [assigned.places z new_.1, if_neg, new_.2.1]
    rintro rfl
    exact outside member
  · intro i validOther
    apply assigned.others
    · exact fun same => notReserved (.inr (.inl ⟨i, validOther, same.symm⟩))
    · exact layout.apart i b validOther assigned.below
    · rw [assigned.places maxfile le_rfl]
      split
      · exact fun _ same => notReserved (.inr (.inl ⟨i, validOther, same.symm⟩))
      · intro there same
        have data := sound.data inum maxfile valid le_rfl
        rw [update_self] at data
        exact (data there).2.2 (.inr (.inl ⟨i, validOther, same.symm⟩))
  · intro i z validOther other within
    have eq := assigned_.place_eq sound valid validOther within
    rwa [update_of_ne other, update_of_ne other,
      if_neg fun both => other both.1] at eq
  · intro i z validOther other within
    have eq := assigned_.block_eq sound valid validOther within.le
    rw [update_of_ne other] at eq
    exact fun there => eq there fun both => other both.1
  · intro z within _
    have eq := assigned_.block_eq sound valid valid within.le
    rw [update_self] at eq
    exact fun there => eq there fun both => within.ne both.2
  · intro c logged
    rcases assigned.logged c logged with old | rfl | rfl | ⟨rfl, there, low, high⟩
    · exact .inl old
    · rw [← at_]
      exact .inr (.zeroed isNew)
    · rw [← at_]
      exact .inr (.bitmap isNew)
    · exact .inr (.addresses there isNew low high)

/-! ## What `bmap` does -/

variable {bn : Nat}

theorem bmap_present (bound : bn < maxfile) (there : place ip v.disk bn ≠ 0) :
    bmap sb ip bn v = some (place ip v.disk bn, ip, v) := by
  rw [bmap]
  by_cases direct : bn < ndirect
  · rw [Mkfs.place_direct direct] at there ⊢
    rw [if_pos direct, if_neg there]
  · have low := Nat.le_of_not_lt direct
    have indirect : ip.addrs ndirect ≠ 0 := fun absent =>
      there (Mkfs.place_of_no_indirect low bound absent)
    rw [Mkfs.place_indirect low bound indirect] at there ⊢
    rw [if_neg direct, if_pos (by unfold maxfile at bound; omega), loadIndirect, if_neg indirect,
      Option.bind_some]
    dsimp only
    rw [if_neg there]

theorem loadIndirect_cases (layout : Layout sb)
    (sound : Sound sb (update files inum ip) v.disk) (valid : inum < sb.ninodes)
    (member : maxfile ∈ needed) (touched : Finset Nat) :
    (loadIndirect sb ip v = none ∧ ¬Room sb needed ip v.disk) ∨
      ∃ ip' v', loadIndirect sb ip v = some (ip', v') ∧ ip'.addrs ndirect ≠ 0 ∧
        Changed sb files inum needed touched ip v ip' v' ∧
        ∀ z, z < maxfile → place ip' v'.disk z = place ip v.disk z := by
  unfold loadIndirect
  by_cases absent : ip.addrs ndirect = 0
  · rw [if_pos absent]
    have empty : place ip v.disk maxfile = 0 := by rw [Mkfs.place_maxfile, absent]
    rcases balloc_cases sb v with ⟨failed, full⟩ | ⟨b, v', ran, made⟩
    · rw [failed]
      exact .inl ⟨rfl, not_room member empty full⟩
    have assigned := made.assignAddr layout sound valid (.inr ⟨rfl, rfl⟩)
      (by rw [update_self]; exact absent)
    rw [update_self] at assigned
    rw [ran]
    refine .inr ⟨ip.setAddr ndirect b, v', rfl, ?_,
      assigned.changed layout sound valid le_rfl empty member touched, ?_⟩
    · rw [Dinode.setAddr_self]
      exact fun isZero => (sound.fresh made.below made.free).1 (.inl isZero)
    · intro z below
      rw [assigned.places z below.le, if_neg below.ne]
  · rw [if_neg absent]
    exact .inr ⟨ip, v, rfl, absent, .refl sound needed touched, fun _ _ => rfl⟩

/-- `bmap` returns the block of a place, which it has allocated if there was none. -/
theorem bmap_cases (layout : Layout sb) (sound : Sound sb (update files inum ip) v.disk)
    (valid : inum < sb.ninodes) (bound : bn < maxfile) (small : ∀ z ∈ needed, z ≤ maxfile)
    (member : bn ∈ needed) (indirect : ndirect ≤ bn → maxfile ∈ needed)
    (smallTouched : ∀ z ∈ touched, z < maxfile) :
    (bmap sb ip bn v = none ∧ ¬Room sb needed ip v.disk) ∨
      ∃ ip' v', bmap sb ip bn v = some (place ip' v'.disk bn, ip', v') ∧
        place ip' v'.disk bn ≠ 0 ∧ Changed sb files inum needed touched ip v ip' v' := by
  by_cases there : place ip v.disk bn = 0
  case neg => exact .inr ⟨ip, v, bmap_present bound there, there, .refl sound needed touched⟩
  rw [bmap]
  by_cases direct : bn < ndirect
  · have absent := there
    rw [Mkfs.place_direct direct] at absent
    rw [if_pos direct, if_pos absent]
    rcases balloc_cases sb v with ⟨failed, full⟩ | ⟨b, v', ran, made⟩
    · rw [failed]
      exact .inl ⟨rfl, not_room member there full⟩
    have assigned := made.assignAddr layout sound valid (.inl ⟨direct, rfl⟩)
      (by rw [update_self]; exact absent)
    rw [update_self] at assigned
    have at_ : place (ip.setAddr bn b) v'.disk bn = b := by
      rw [assigned.places bn bound.le, if_pos rfl]
    rw [ran]
    refine .inr ⟨ip.setAddr bn b, v', ?_, ?_,
      assigned.changed layout sound valid bound.le there member touched⟩
    · rw [at_]
      rfl
    · rw [at_]
      exact fun isZero => (sound.fresh made.below made.free).1 (.inl isZero)
  · have low := Nat.le_of_not_lt direct
    rw [if_neg direct, if_pos (by unfold maxfile at bound; omega)]
    rcases loadIndirect_cases layout sound valid (indirect low) touched with
      ⟨failed, full⟩ | ⟨ip₁, v₁, loaded, hasIndirect, changed, same⟩
    · rw [failed]
      exact .inl ⟨rfl, full⟩
    have absent : place ip₁ v₁.disk bn = 0 := (same bn bound).trans there
    have entry := absent
    rw [Mkfs.place_indirect low bound hasIndirect] at entry
    rw [loaded, Option.bind_some]
    dsimp only
    rw [if_pos entry]
    rcases balloc_cases sb v₁ with ⟨failed, full⟩ | ⟨b, v₂, ran, made⟩
    · rw [failed]
      refine .inl ⟨rfl, fun enough => not_room member absent full ?_⟩
      exact changed.room needed (Finset.Subset.refl needed) small enough
    have assigned := made.assignEntry layout changed.sound valid low bound
      (by rw [update_self]; exact hasIndirect)
    rw [update_self] at assigned
    have at_ := assigned.places bn bound.le
    rw [if_pos rfl] at at_
    rw [ran]
    refine .inr ⟨ip₁, _, ?_, ?_, changed.trans
      (assigned.changed layout changed.sound valid bound.le absent member touched) smallTouched⟩
    · rw [at_]
      rfl
    · rw [at_]
      exact fun isZero => (changed.sound.fresh made.below made.free).1 (.inl isZero)

end Xv6.Inode
