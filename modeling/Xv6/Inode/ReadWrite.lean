import Xv6.Inode.Map
import Xv6.Lib.Overwrite

/-!
Files are arrays of bytes.

Owns: `iupdate`, `readi` and `writei` of the kernel; the contents of a file; and that `readi` reads
them and `writei` overwrites them, with no other file changed, as long as there are free blocks.

Does not own: writes of any length through a file descriptor (`Xv6.Inode.FileWrite`); whether the
log has room for the blocks that are written (`Xv6.Inode.Reservation`).
-/

namespace Xv6.Inode

open Function (update update_self update_of_ne update_eq_self)

open Mkfs (Sector Disk Superblock Dinode bsize ndirect maxfile div_lt_maxfile iblock ipb dinodeAt
  storeDinode place tDev fill)
open Overwrite (overwrite)

/-! ## The kernel -/

/-- `devsw`: for each major number the functions of a driver, where there are any. -/
structure Devsw where
  read : Nat → Option (Nat → Int × List UInt8)
  write : Nat → Option (List UInt8 → Int)

def ndev : Nat := 10

/-- The loop of `readi`, for `n` more bytes. -/
def readLoop (sb : Superblock) : Nat → Nat → Nat → Dinode → Volume →
    Option (List UInt8 × Dinode × Volume)
  | 0, _, _, ip, v => some ([], ip, v)
  | fuel + 1, off, n, ip, v =>
    if n = 0 then some ([], ip, v)
    else
      match bmap sb ip (off / bsize) v with
      | none => none
      | some (addr, ip, v) =>
        let m := min n (bsize - off % bsize)
        let bytes := (List.range m).map fun k => v.disk addr (off % bsize + k)
        (readLoop sb fuel (off + m) (n - m) ip v).map fun (rest, after) => (bytes ++ rest, after)

/-- What `readi` returns, and the bytes that it copies to `dst`. A negative `major` is here a large
one. -/
def readi (devsw : Devsw) (sb : Superblock) (ip : Dinode) (off n : Nat) (v : Volume) :
    Option (Int × List UInt8 × Dinode × Volume) :=
  if ip.type = tDev then
    if ndev ≤ ip.major then some (-1, [], ip, v)
    else
      match devsw.read ip.major with
      | none => some (-1, [], ip, v)
      | some read => some ((read n).1, (read n).2, ip, v)
  else if ip.size < off ∨ (off + n) % 2 ^ 32 < off then some (-1, [], ip, v)
  else
    let n := if ip.size < (off + n) % 2 ^ 32 then ip.size - off else n
    (readLoop sb n off n ip v).map fun (bytes, after) => (n, bytes, after)

/-- The loop of `writei`, for the bytes of `src`; it ends with `off` behind the last of them. -/
def writeLoop (sb : Superblock) : Nat → Nat → List UInt8 → Dinode → Volume →
    Option (Nat × Dinode × Volume)
  | 0, off, _, ip, v => some (off, ip, v)
  | fuel + 1, off, src, ip, v =>
    if src = [] then some (off, ip, v)
    else
      match bmap sb ip (off / bsize) v with
      | none => none
      | some (addr, ip, v) =>
        let m := min src.length (bsize - off % bsize)
        writeLoop sb fuel (off + m) (src.drop m) ip
          (v.logWrite addr (fill (v.disk addr) (off % bsize) (src.take m)))

def iupdate (sb : Superblock) (inum : Nat) (ip : Dinode) (v : Volume) : Volume :=
  v.logWrite (iblock inum sb) (storeDinode (v.disk (iblock inum sb)) (inum % ipb) ip)

/-- `writei` after its loop: the inode is written back if the file has grown. -/
def finishWrite (sb : Superblock) (inum off : Nat) (src : List UInt8) (ip : Dinode) (v : Volume) :
    Int × Dinode × Volume :=
  if 0 < src.length ∧ ip.size < off then
    let ip := { ip with size := off }
    (src.length, ip, iupdate sb inum ip v)
  else (src.length, ip, v)

def writei (devsw : Devsw) (sb : Superblock) (inum : Nat) (ip : Dinode) (src : List UInt8) (off : Nat)
    (v : Volume) : Option (Int × Dinode × Volume) :=
  if ip.type = tDev then
    if ndev ≤ ip.major then some (-1, ip, v)
    else
      match devsw.write ip.major with
      | none => some (-1, ip, v)
      | some write => some (write src, ip, v)
  else if ip.size < off ∨ (off + src.length) % 2 ^ 32 < off then some (-1, ip, v)
  else if maxfile * bsize < (off + src.length) % 2 ^ 32 then some (-1, ip, v)
  else
    (writeLoop sb src.length off src ip v).map fun (off, ip, v) => finishWrite sb inum off src ip v

/-! ## Contents -/

/-- A byte of a file. A hole reads as zero. -/
def byteAt (ip : Dinode) (disk : Disk) (k : Nat) : UInt8 :=
  if place ip disk (k / bsize) = 0 then 0 else disk (place ip disk (k / bsize)) (k % bsize)

def content (ip : Dinode) (disk : Disk) : List UInt8 :=
  (List.range ip.size).map (byteAt ip disk)

/-- A file without holes, and its inode in memory. -/
structure File (sb : Superblock) (inum : Nat) (ip : Dinode) (v : Volume) : Prop where
  layout : Layout sb
  valid : inum < sb.ninodes
  agrees : dinodeAt v.disk sb inum = ip
  sound : Sound sb (dinodeAt v.disk sb) v.disk
  sizes : ∀ i, i < sb.ninodes → (dinodeAt v.disk sb i).size ≤ maxfile * bsize
  noHoles : ∀ b, b * bsize < ip.size → place ip v.disk b ≠ 0

variable {sb : Superblock} {files : Nat → Dinode} {inum off : Nat} {needed touched : Finset Nat}
  {src first second : List UInt8} {ip ip' ip'' d : Dinode} {v v' v'' : Volume} {disk : Disk}
  {k fuel n i c z bn : Nat}

theorem File.size (file : File sb inum ip v) :
    ip.size ≤ maxfile * bsize := by
  rw [← file.agrees]
  exact file.sizes inum file.valid

theorem length_content (ip : Dinode) (disk : Disk) : (content ip disk).length = ip.size := by
  rw [content, List.length_map, List.length_range]

theorem getElem?_content (inside : k < ip.size) :
    (content ip disk)[k]? = some (byteAt ip disk k) := by
  rw [content, List.getElem?_map, List.getElem?_range inside, Option.map_some]

theorem div_mul_le (k : Nat) : k / bsize * bsize ≤ k :=
  Nat.div_mul_le_self k bsize

theorem File.there (file : File sb inum ip v) (inside : k < ip.size) :
    k / bsize < maxfile ∧ place ip v.disk (k / bsize) ≠ 0 :=
  ⟨div_lt_maxfile (lt_of_lt_of_le inside file.size),
    file.noHoles _ (lt_of_le_of_lt (div_mul_le k) inside)⟩

/-- What one round of `readi` reads. -/
theorem block_bytes {m : Nat} (inside : off + m ≤ ip.size) (within : off % bsize + m ≤ bsize)
    (there : place ip v.disk (off / bsize) ≠ 0) :
    (List.range m).map (fun k => v.disk (place ip v.disk (off / bsize)) (off % bsize + k)) =
      ((content ip v.disk).drop off).take m := by
  apply List.ext_getElem?
  intro k
  by_cases below : k < m
  · have position : (off + k) / bsize = off / bsize ∧ (off + k) % bsize = off % bsize + k := by
      unfold bsize at *
      omega
    rw [List.getElem?_map, List.getElem?_range below, List.getElem?_take_of_lt below,
      List.getElem?_drop, getElem?_content (by omega), byteAt, position.1, position.2, if_neg there]
    rfl
  · rw [List.getElem?_eq_none (by rw [List.length_map, List.length_range]; omega),
      List.getElem?_eq_none (by rw [List.length_take]; omega)]

theorem readLoop_eq (file : File sb inum ip v) (enough : n ≤ fuel) (inside : off + n ≤ ip.size) :
    readLoop sb fuel off n ip v = some (((content ip v.disk).drop off).take n, ip, v) := by
  induction fuel generalizing off n with
  | zero =>
    obtain rfl := Nat.le_zero.mp enough
    rw [readLoop, List.take_zero]
  | succ fuel ih =>
    rw [readLoop]
    by_cases none_ : n = 0
    · rw [if_pos none_, none_, List.take_zero]
    · obtain ⟨bound, there⟩ := file.there (show off < ip.size by omega)
      rw [if_neg none_, bmap_present bound there]
      have small := Nat.mod_lt off (show 0 < bsize by decide)
      generalize count : min n (bsize - off % bsize) = m
      have moves : 0 < m ∧ m ≤ n ∧ off % bsize + m ≤ bsize := by omega
      dsimp only
      rw [ih (by omega) (by omega), Option.map_some,
        block_bytes (by omega) moves.2.2 there, ← List.drop_drop, ← List.take_add,
        Nat.add_sub_of_le moves.2.1]

/-! ## Writing a block -/

/-- A data block has no addresses. -/
theorem Sound.place_logWrite (sound : Sound sb files v.disk) (valid : inum < sb.ninodes)
    (bound : bn < maxfile) (data : Sector) (validOther : i < sb.ninodes) (z : Nat) :
    place (files i) (v.logWrite (place (files inum) v.disk bn) data).disk z =
      place (files i) v.disk z := by
  apply Mkfs.place_congr (fun _ => rfl) rfl
  intro indirect
  rw [← Mkfs.place_maxfile (files i) v.disk] at indirect ⊢
  apply Volume.logWrite_other
  intro same
  have both := sound.apart i inum maxfile bn validOther valid le_rfl bound.le same indirect
  exact bound.ne both.2.symm

/-- A data block has no bits of the bitmap. -/
theorem Sound.used_logWrite (sound : Sound sb files v.disk) (valid : inum < sb.ninodes)
    (bound : bn < maxfile) (there : place (files inum) v.disk bn ≠ 0) (data : Sector)
    (below : c < sb.size) :
    used sb (v.logWrite (place (files inum) v.disk bn) data).disk c ↔ used sb v.disk c := by
  rw [used, used, Volume.logWrite_other]
  intro isBitmap
  exact (sound.data inum bn valid bound.le there).2.2 (.inr (.inr ⟨c, below, isBitmap.symm⟩))

theorem Sound.logWrite (sound : Sound sb files v.disk) (valid : inum < sb.ninodes)
    (bound : bn < maxfile) (there : place (files inum) v.disk bn ≠ 0) (data : Sector) :
    Sound sb files (v.logWrite (place (files inum) v.disk bn) data).disk := by
  apply sound.congr sound.fits
  · exact fun c below => sound.used_logWrite valid bound there data below
  · exact fun i z validOther _ => sound.place_logWrite valid bound data validOther z

theorem place_logWrite (sound : Sound sb (update files inum ip) v.disk)
    (valid : inum < sb.ninodes) (bound : bn < maxfile) (data : Sector) (z : Nat) :
    place ip (v.logWrite (place ip v.disk bn) data).disk z = place ip v.disk z := by
  have own := sound.place_logWrite valid bound data valid z
  rwa [update_self] at own

theorem Room.logWrite (room : Room sb needed ip v.disk)
    (sound : Sound sb (update files inum ip) v.disk) (valid : inum < sb.ninodes)
    (bound : bn < maxfile) (there : place ip v.disk bn ≠ 0) (data : Sector) :
    Room sb needed ip (v.logWrite (place ip v.disk bn) data).disk := by
  have there_ : place (update files inum ip inum) v.disk bn ≠ 0 := by
    rwa [update_self]
  have free : freeBlocks sb (v.logWrite (place ip v.disk bn) data).disk = freeBlocks sb v.disk := by
    apply Finset.filter_congr
    intro c below
    have marks := sound.used_logWrite valid bound there_ data (Finset.mem_range.mp below)
    rw [update_self] at marks
    rw [marks]
  have places : (needed.filter fun z =>
      place ip (v.logWrite (place ip v.disk bn) data).disk z = 0) =
        needed.filter fun z => place ip v.disk z = 0 := by
    apply Finset.filter_congr
    intro z _
    rw [place_logWrite sound valid bound]
  rw [Room, free, places]
  exact room

/-- New bytes in a block of the file. -/
theorem Changed.logWrite (sound : Sound sb (update files inum ip) v.disk)
    (valid : inum < sb.ninodes) (bound : bn < maxfile) (there : place ip v.disk bn ≠ 0)
    (written : bn ∈ touched) (data : Sector) :
    Changed sb files inum needed touched ip v ip (v.logWrite (place ip v.disk bn) data) := by
  have own := fun z => place_logWrite sound valid bound data z
  have there_ : place (update files inum ip inum) v.disk bn ≠ 0 := by
    rwa [update_self]
  have notReserved := (sound.data inum bn valid bound.le there_).2.2
  have after := sound.logWrite valid bound there_ data
  rw [update_self] at after notReserved
  refine ⟨after, rfl, fun z _ _ => own z, ?_, ?_, ?_, ?_, ?_, ?_, fun all _ _ enough =>
    enough.logWrite sound valid bound there data⟩
  · intro z isNew
    exact absurd isNew.2.1 (by rw [← own z]; exact isNew.2.2)
  · intro i validOther
    apply Volume.logWrite_other
    exact fun same => notReserved (.inr (.inl ⟨i, validOther, same.symm⟩))
  · intro i z validOther other _
    have eq := sound.place_logWrite valid bound data validOther z
    rwa [update_self, update_of_ne other] at eq
  · intro i z validOther other within isThere
    apply Volume.logWrite_other
    intro same
    have apart := sound.apart i inum z bn validOther valid within.le bound.le
    rw [update_self, update_of_ne other] at apart
    exact other (apart same isThere).1
  · intro z within notTouched isThere
    apply Volume.logWrite_other
    intro same
    have apart := sound.apart inum inum z bn valid valid within.le bound.le
    rw [update_self] at apart
    have isBn := (apart same isThere).2
    subst isBn
    exact notTouched written
  · intro c member
    rcases List.mem_cons.mp member with rfl | old
    · have reason : Reason sb touched ip v ip (v.logWrite (place ip v.disk bn) data)
          (place ip (v.logWrite (place ip v.disk bn) data).disk bn) :=
        .data written (by rw [own bn]; exact there)
      rw [own bn] at reason
      exact .inr reason
    · exact .inl old

/-! ## The loop of `writei` -/

/-- The bytes of `src` were written from `off` on. -/
structure Written (sb : Superblock) (files : Nat → Dinode) (inum : Nat) (needed touched : Finset Nat)
    (off : Nat) (src : List UInt8) (ip : Dinode) (v : Volume) (ip' : Dinode) (v' : Volume) :
    Prop where
  changed : Changed sb files inum needed touched ip v ip' v'
  mapped : ∀ k, off ≤ k → k < off + src.length → place ip' v'.disk (k / bsize) ≠ 0
  bytes : ∀ k, off ≤ k → k < off + src.length → some (byteAt ip' v'.disk k) = src[k - off]?
  rest : ∀ k, k / bsize < maxfile → ¬(off ≤ k ∧ k < off + src.length) →
    place ip v.disk (k / bsize) ≠ 0 → byteAt ip' v'.disk k = byteAt ip v.disk k

theorem byteAt_eq (there : place ip v.disk (off / bsize) ≠ 0) :
    byteAt ip v.disk off = v.disk (place ip v.disk (off / bsize)) (off % bsize) :=
  if_neg there

theorem Written.nil (sound : Sound sb (update files inum ip) v.disk) :
    Written sb files inum needed touched off [] ip v ip v := by
  refine ⟨.refl sound needed touched, ?_, ?_, fun _ _ _ _ => rfl⟩
  · intro k low high
    exact absurd high (by simpa using low)
  · intro k low high
    exact absurd high (by simpa using low)

theorem Written.trans (one : Written sb files inum needed touched off first ip v ip' v') {later : Nat}
    (at_ : later = off + first.length)
    (two : Written sb files inum needed touched later second ip' v' ip'' v'')
    (small : ∀ z ∈ touched, z < maxfile) (bound : off + first.length ≤ maxfile * bsize) :
    Written sb files inum needed touched off (first ++ second) ip v ip'' v'' := by
  subst at_
  have keeps : ∀ k, k / bsize < maxfile → place ip' v'.disk (k / bsize) ≠ 0 →
      place ip'' v''.disk (k / bsize) = place ip' v'.disk (k / bsize) :=
    fun k below there => two.changed.keeps _ below.le there
  refine ⟨one.changed.trans two.changed small, ?_, ?_, ?_⟩
  · intro k low high
    rw [List.length_append] at high
    by_cases early : k < off + first.length
    · have there := one.mapped k low early
      rw [keeps k (div_lt_maxfile (by omega)) there]
      exact there
    · exact two.mapped k (by omega) (by omega)
  · intro k low high
    rw [List.length_append] at high
    by_cases early : k < off + first.length
    · have there := one.mapped k low early
      rw [two.rest k (div_lt_maxfile (by omega)) (by omega) there, one.bytes k low early,
        List.getElem?_append_left (by omega)]
    · rw [two.bytes k (by omega) (by omega), List.getElem?_append_right (by omega), Nat.sub_sub]
  · intro k below outside there
    rw [List.length_append] at outside
    have after : place ip' v'.disk (k / bsize) ≠ 0 := by
      rw [one.changed.keeps _ below.le there]
      exact there
    rw [two.rest k below (by omega) after, one.rest k below (by omega) there]

/-- One round: `bmap` has found a block, and the bytes are within it. -/
theorem Written.round (valid : inum < sb.ninodes)
    (changed : Changed sb files inum needed ∅ ip v ip' v') (bound : off / bsize < maxfile)
    (there : place ip' v'.disk (off / bsize) ≠ 0) (written : off / bsize ∈ touched)
    (small : ∀ z ∈ touched, z < maxfile) (within : off % bsize + src.length ≤ bsize) :
    Written sb files inum needed touched off src ip v ip'
      (v'.logWrite (place ip' v'.disk (off / bsize))
        (fill (v'.disk (place ip' v'.disk (off / bsize))) (off % bsize) src)) := by
  generalize stored : fill (v'.disk (place ip' v'.disk (off / bsize))) (off % bsize) src = data
  have own := fun z => place_logWrite changed.sound valid bound data z
  have same_ : ∀ k, off ≤ k → k < off + src.length →
      k / bsize = off / bsize ∧ k % bsize = off % bsize + (k - off) := by
    intro k low high
    unfold bsize at *
    omega
  refine ⟨(changed.mono (Finset.empty_subset touched)).trans
    (.logWrite changed.sound valid bound there written data) small, ?_, ?_, ?_⟩
  · intro k low high
    rw [own, (same_ k low high).1]
    exact there
  · intro k low high
    obtain ⟨block, position⟩ := same_ k low high
    have inside : k - off < src.length := by omega
    rw [byteAt_eq (by rw [own, block]; exact there), own, block, Volume.logWrite_self, ← stored,
      fill, position, if_pos (by omega), Nat.add_sub_cancel_left, List.getElem?_eq_getElem inside,
      Option.getD_some]
  · intro k below outside isThere
    have kept := changed.keeps _ below.le isThere
    have old := changed.untouched _ below (Finset.notMem_empty _) isThere
    rw [byteAt_eq isThere, byteAt_eq (by rw [own, kept]; exact isThere), own, kept]
    by_cases block : k / bsize = off / bsize
    · rw [← kept, block, Volume.logWrite_self, ← stored, fill]
      rw [block] at kept old
      rw [kept, old]
      by_cases before : off % bsize ≤ k % bsize
      · have past : src.length ≤ k % bsize - off % bsize := by
          unfold bsize at *
          omega
        rw [if_pos before, List.getElem?_eq_none past, Option.getD_none]
      · rw [if_neg before]
    · rw [Volume.logWrite_other, old]
      intro same
      have apart := changed.sound.apart inum inum (k / bsize) (off / bsize) valid valid below.le bound.le
      rw [update_self, kept] at apart
      exact block (apart same isThere).2

theorem writeLoop_cases (layout : Layout sb) (valid : inum < sb.ninodes)
    (smallNeeded : ∀ z ∈ needed, z ≤ maxfile) (smallTouched : ∀ z ∈ touched, z < maxfile)
    (enough : src.length ≤ fuel) (short : off + src.length ≤ maxfile * bsize)
    (covers : ∀ k, off ≤ k → k < off + src.length →
      k / bsize ∈ needed ∧ k / bsize ∈ touched ∧ (ndirect ≤ k / bsize → maxfile ∈ needed))
    (sound : Sound sb (update files inum ip) v.disk) :
    (writeLoop sb fuel off src ip v = none ∧ ¬Room sb needed ip v.disk) ∨
      ∃ ip' v', writeLoop sb fuel off src ip v = some (off + src.length, ip', v') ∧
        Written sb files inum needed touched off src ip v ip' v' := by
  induction fuel generalizing off src ip v with
  | zero =>
    obtain rfl := List.length_eq_zero_iff.mp (Nat.le_zero.mp enough)
    exact .inr ⟨ip, v, rfl, .nil sound⟩
  | succ fuel ih =>
    rw [writeLoop]
    by_cases none_ : src = []
    · subst none_
      exact .inr ⟨ip, v, rfl, .nil sound⟩
    · have some_ : 0 < src.length := List.length_pos_iff.mpr none_
      obtain ⟨isNeeded, isTouched, indirect⟩ := covers off le_rfl (by omega)
      have bound : off / bsize < maxfile := div_lt_maxfile (by omega)
      rw [if_neg none_]
      rcases bmap_cases layout sound valid bound smallNeeded isNeeded indirect
          (fun _ member => absurd member (Finset.notMem_empty _)) with
        ⟨failed, full⟩ | ⟨ip₁, v₁, mapped, there, changed⟩
      · rw [failed]
        exact .inl ⟨rfl, full⟩
      rw [mapped]
      have inBlock := Nat.mod_lt off (show 0 < bsize by decide)
      generalize count : min src.length (bsize - off % bsize) = m
      have moves : 0 < m ∧ m ≤ src.length ∧ off % bsize + m ≤ bsize := by omega
      have length : (src.take m).length = m := by
        rw [List.length_take, Nat.min_eq_left moves.2.1]
      have round := Written.round valid changed bound there isTouched smallTouched
        (show off % bsize + (src.take m).length ≤ bsize by omega)
      have left : (src.drop m).length = src.length - m := List.length_drop
      dsimp only
      rcases @ih (off + m) (src.drop m) ip₁ _ (by omega) (by omega)
          (fun k low high => covers k (by omega) (by omega)) round.changed.sound with
        ⟨failed, full⟩ | ⟨ip₂, v₂, ran, rest⟩
      · refine .inl ⟨failed, fun enough => full ?_⟩
        exact round.changed.room needed (Finset.Subset.refl needed) smallNeeded enough
      · refine .inr ⟨ip₂, v₂, ?_, ?_⟩
        · rw [ran, left, Nat.add_assoc, Nat.add_sub_of_le moves.2.1]
        · have whole := round.trans (congrArg (off + ·) length.symm) rest smallTouched (by omega)
          rwa [List.take_append_drop] at whole

/-! ## The inode on the disk -/

theorem dinodeAt_fits (disk : Disk) (sb : Superblock) (i : Nat) : (dinodeAt disk sb i).Fits := by
  refine ⟨Bytes.get_lt _ _ _, Bytes.get_lt _ _ _, Bytes.get_lt _ _ _, Bytes.get_lt _ _ _,
    Bytes.get_lt _ _ _, ?_, ?_⟩
  · intro k
    unfold dinodeAt Mkfs.loadDinode
    dsimp only
    split
    · exact Bytes.get_lt _ _ _
    · decide
  · intro k beyond
    exact if_neg (by omega)

theorem dinodeAt_iupdate (fits : ip.Fits) (i : Nat) :
    dinodeAt (iupdate sb inum ip v).disk sb i = if i = inum then ip else dinodeAt v.disk sb i := by
  unfold dinodeAt iupdate
  by_cases sameBlock : iblock i sb = iblock inum sb
  · rw [sameBlock, Volume.logWrite_self]
    by_cases same : i = inum
    · rw [if_pos same, same, Mkfs.load_store_same fits]
    · rw [if_neg same, Mkfs.load_store_other]
      unfold iblock ipb at *
      omega
  · rw [Volume.logWrite_other v sameBlock, if_neg]
    intro same
    exact sameBlock (by rw [same])

/-- Inodes and data are in different blocks. -/
theorem Sound.iupdate_block (sound : Sound sb files v.disk) (valid : inum < sb.ninodes)
    (validOther : i < sb.ninodes) (bound : z ≤ maxfile) (there : place (files i) v.disk z ≠ 0) :
    (iupdate sb inum ip v).disk (place (files i) v.disk z) = v.disk (place (files i) v.disk z) := by
  apply Volume.logWrite_other
  intro same
  exact (sound.data i z validOther bound there).2.2 (.inr (.inl ⟨inum, valid, same⟩))

theorem Sound.iupdate_place (sound : Sound sb files v.disk) (valid : inum < sb.ninodes)
    (validOther : i < sb.ninodes) (z : Nat) :
    place (files i) (iupdate sb inum ip v).disk z = place (files i) v.disk z := by
  apply Mkfs.place_congr (fun _ => rfl) rfl
  intro indirect
  rw [← Mkfs.place_maxfile (files i) v.disk] at indirect ⊢
  exact sound.iupdate_block valid validOther le_rfl indirect

theorem Layout.iupdate_used (layout : Layout sb) (valid : inum < sb.ninodes) (below : c < sb.size) :
    used sb (iupdate sb inum ip v).disk c ↔ used sb v.disk c := by
  rw [used, used, iupdate, Volume.logWrite_other]
  exact (layout.apart inum c valid below).symm

/-! ## `writei` -/

/-- The blocks of a file that have a byte of a write. -/
def touchedBy (off n : Nat) : Finset Nat :=
  (Finset.range maxfile).filter fun z => off < (z + 1) * bsize ∧ z * bsize < off + n

/-- The places of a file that a write needs a block for. -/
def neededBy (off n : Nat) : Finset Nat :=
  if ndirect * bsize < off + n then insert maxfile (touchedBy off n) else touchedBy off n

theorem mem_touchedBy :
    z ∈ touchedBy off n ↔ z < maxfile ∧ off < (z + 1) * bsize ∧ z * bsize < off + n := by
  rw [touchedBy, Finset.mem_filter, Finset.mem_range]

theorem mem_neededBy :
    z ∈ neededBy off n ↔ z ∈ touchedBy off n ∨ z = maxfile ∧ ndirect * bsize < off + n := by
  unfold neededBy
  split
  · rename_i indirect
    rw [Finset.mem_insert]
    tauto
  · rename_i direct
    tauto

theorem neededBy_le (member : z ∈ neededBy off n) : z ≤ maxfile := by
  rcases mem_neededBy.mp member with isTouched | ⟨rfl, _⟩
  · exact (mem_touchedBy.mp isTouched).1.le
  · exact le_rfl

theorem covers_touchedBy (short : off + n ≤ maxfile * bsize) (low : off ≤ k) (high : k < off + n) :
    k / bsize ∈ neededBy off n ∧ k / bsize ∈ touchedBy off n ∧
      (ndirect ≤ k / bsize → maxfile ∈ neededBy off n) := by
  have below : k < (k / bsize + 1) * bsize :=
    (Nat.div_lt_iff_lt_mul (by decide)).mp (Nat.lt_succ_self _)
  have above := div_mul_le k
  have isTouched : k / bsize ∈ touchedBy off n :=
    mem_touchedBy.mpr ⟨div_lt_maxfile (by omega), by omega, by omega⟩
  refine ⟨mem_neededBy.mpr (.inl isTouched), isTouched, ?_⟩
  intro indirect
  refine mem_neededBy.mpr (.inr ⟨rfl, ?_⟩)
  have least := Nat.mul_le_mul_right bsize indirect
  omega

/-- The bytes of `src` are in the file, and nothing else has changed. -/
structure Overwritten (sb : Superblock) (inum off : Nat) (src : List UInt8) (ip : Dinode) (v : Volume)
    (ip' : Dinode) (v' : Volume) : Prop where
  file : File sb inum ip' v'
  content : content ip' v'.disk = overwrite (content ip v.disk) off src
  size : ip'.size = max ip.size (off + src.length)
  same : ip' = { ip with size := ip'.size, addrs := ip'.addrs }
  others : ∀ i, i < sb.ninodes → i ≠ inum → dinodeAt v'.disk sb i = dinodeAt v.disk sb i ∧
    Inode.content (dinodeAt v.disk sb i) v'.disk = Inode.content (dinodeAt v.disk sb i) v.disk
  room : ∀ all, neededBy off src.length ⊆ all → (∀ z ∈ all, z ≤ maxfile) → Room sb all ip v.disk →
    Room sb all ip' v'.disk

theorem File.sound_update (file : File sb inum ip v) :
    Sound sb (update (dinodeAt v.disk sb) inum ip) v.disk := by
  rw [← file.agrees, update_eq_self]
  exact file.sound

theorem File.writeLoop (file : File sb inum ip v) (short : off + src.length ≤ maxfile * bsize) :
    (writeLoop sb src.length off src ip v = none ∧ ¬Room sb (neededBy off src.length) ip v.disk) ∨
      ∃ ip' v', writeLoop sb src.length off src ip v = some (off + src.length, ip', v') ∧
        Written sb (dinodeAt v.disk sb) inum (neededBy off src.length) (touchedBy off src.length) off
          src ip v ip' v' :=
  writeLoop_cases file.layout file.valid (fun _ => neededBy_le)
    (fun _ member => (mem_touchedBy.mp member).1) le_rfl short
    (fun _ => covers_touchedBy short) file.sound_update

/-- Within the file all blocks are there. -/
theorem File.place_needed (file : File sb inum ip v) (inside : off + n ≤ ip.size)
    (member : z ∈ neededBy off n) : place ip v.disk z ≠ 0 := by
  rcases mem_neededBy.mp member with isTouched | ⟨rfl, indirect⟩
  · exact file.noHoles z (lt_of_lt_of_le (mem_touchedBy.mp isTouched).2.2 inside)
  · intro absent
    rw [Mkfs.place_maxfile] at absent
    refine file.noHoles ndirect (by omega) ?_
    exact Mkfs.place_of_no_indirect le_rfl (by decide) absent

theorem File.room_inside (file : File sb inum ip v) (inside : off + n ≤ ip.size) :
    Room sb (neededBy off n) ip v.disk := by
  have none_ : ((neededBy off n).filter fun z => place ip v.disk z = 0) = ∅ :=
    Finset.filter_eq_empty_iff.mpr fun z member => file.place_needed inside member
  rw [Room, none_, Finset.card_empty]
  exact Nat.zero_le _

/-- Within the file nothing is allocated. -/
theorem Written.same_inode (file : File sb inum ip v)
    (written : Written sb (dinodeAt v.disk sb) inum (neededBy off src.length)
      (touchedBy off src.length) off src ip v ip' v') (inside : off + src.length ≤ ip.size) :
    ip' = ip := by
  have places : ∀ z, z ≤ maxfile → place ip' v'.disk z = place ip v.disk z := by
    intro z bound
    by_cases there : place ip v.disk z = 0
    · by_contra changed
      have isNew : New ip v ip' v' z := ⟨bound, there, fun isZero => changed (isZero.trans there.symm)⟩
      exact file.place_needed inside (written.changed.only z isNew) there
    · exact written.changed.keeps z bound there
  have addrs : ip'.addrs = ip.addrs := by
    funext k
    rcases Nat.lt_trichotomy k ndirect with direct | rfl | beyond
    · have eq := places k (by unfold maxfile; omega)
      rwa [Mkfs.place_direct direct, Mkfs.place_direct direct] at eq
    · have eq := places maxfile le_rfl
      rwa [Mkfs.place_maxfile, Mkfs.place_maxfile] at eq
    · have fits := written.changed.sound.fits inum file.valid
      have before := dinodeAt_fits v.disk sb inum
      rw [update_self] at fits
      rw [file.agrees] at before
      rw [fits.beyond k beyond, before.beyond k beyond]
  rw [written.changed.same, addrs]

/-- The contents of two files that agree byte by byte. -/
theorem content_congr {d' : Dinode} {disk' : Disk} (size : d'.size = d.size)
    (bytes : ∀ k, k < d.size → byteAt d' disk' k = byteAt d disk k) :
    content d' disk' = content d disk := by
  rw [content, content, size]
  exact List.map_congr_left fun k member => bytes k (List.mem_range.mp member)

/-- The contents after a write. -/
theorem Written.content (file : File sb inum ip v) {needed touched : Finset Nat}
    (written : Written sb (dinodeAt v.disk sb) inum needed touched off src ip v ip' v')
    (start : off ≤ ip.size) (size : d.size = max ip.size (off + src.length))
    (bytes : ∀ k, k < d.size → byteAt d disk k = byteAt ip' v'.disk k) :
    content d disk = overwrite (content ip v.disk) off src := by
  have inside : off ≤ (Inode.content ip v.disk).length := by
    rw [length_content]
    exact start
  apply List.ext_getElem?
  intro k
  rw [Overwrite.getElem?_overwrite inside]
  by_cases below : k < d.size
  · rw [getElem?_content below, bytes k below]
    by_cases isNew : off ≤ k ∧ k < off + src.length
    · rw [if_pos isNew, written.bytes k isNew.1 isNew.2]
    · have old : k < ip.size := by omega
      obtain ⟨bound, there⟩ := file.there old
      rw [if_neg isNew, written.rest k bound isNew there, getElem?_content old]
  · rw [List.getElem?_eq_none (by rw [length_content]; omega), if_neg (by omega),
      List.getElem?_eq_none (by rw [length_content]; omega)]

theorem place_addrs {d' : Dinode} (same : d.addrs = d'.addrs) (disk : Disk) :
    place d disk = place d' disk := by
  funext z
  rw [place, place, same]

/-- What is left after the loop: the inode `d`, and a disk that has the blocks of the files as the
loop has left them. -/
theorem Written.overwritten (file : File sb inum ip v) {touched : Finset Nat}
    (written : Written sb (dinodeAt v.disk sb) inum (neededBy off src.length) touched off src ip v ip'
      v') (start : off ≤ ip.size) (short : off + src.length ≤ maxfile * bsize) {w : Volume}
    (addrs : d.addrs = ip'.addrs) (same : d = { ip with size := d.size, addrs := d.addrs })
    (size : d.size = max ip.size (off + src.length)) (inodes : ∀ i, i < sb.ninodes →
      dinodeAt w.disk sb i = if i = inum then d else dinodeAt v.disk sb i)
    (places : ∀ i z, i < sb.ninodes →
      place (update (dinodeAt v.disk sb) inum ip' i) w.disk z =
        place (update (dinodeAt v.disk sb) inum ip' i) v'.disk z)
    (blocks : ∀ i z, i < sb.ninodes → z < maxfile →
      place (update (dinodeAt v.disk sb) inum ip' i) v'.disk z ≠ 0 →
      w.disk (place (update (dinodeAt v.disk sb) inum ip' i) v'.disk z) =
        v'.disk (place (update (dinodeAt v.disk sb) inum ip' i) v'.disk z))
    (marks : ∀ c, c < sb.size → (used sb w.disk c ↔ used sb v'.disk c)) :
    Overwritten sb inum off src ip v d w := by
  have own : ∀ z, place d w.disk z = place ip' v'.disk z := by
    intro z
    have eq := places inum z file.valid
    rwa [update_self, ← place_addrs addrs] at eq
  have total : d.size ≤ maxfile * bsize := by
    have old := file.size
    omega
  refine ⟨⟨file.layout, file.valid, ?_, ?_, ?_, ?_⟩, ?_, size, same, ?_, ?_⟩
  · rw [inodes inum file.valid, if_pos rfl]
  · apply written.changed.sound.congr (fun i _ => dinodeAt_fits _ _ i) marks
    intro i z valid _
    rw [inodes i valid]
    by_cases isOwn : i = inum
    · rw [if_pos isOwn, isOwn, update_self, own]
    · have eq := places i z valid
      rw [if_neg isOwn]
      rwa [update_of_ne isOwn] at eq ⊢
  · intro i valid
    rw [inodes i valid]
    split
    · exact total
    · exact file.sizes i valid
  · intro b below
    rw [own]
    by_cases old : b * bsize < ip.size
    · have bound : b < maxfile := Nat.lt_of_mul_lt_mul_right (lt_of_lt_of_le old file.size)
      have there := file.noHoles b old
      rw [written.changed.keeps b bound.le there]
      exact there
    · have mapped := written.mapped (b * bsize) (by omega) (by omega)
      rwa [Nat.mul_div_cancel _ (by decide)] at mapped
  · apply written.content file start size
    intro k below
    have bound : k / bsize < maxfile := div_lt_maxfile (by omega)
    have eq := blocks inum (k / bsize) file.valid bound
    rw [update_self] at eq
    rw [byteAt, byteAt, own]
    split
    · rfl
    · rename_i there
      rw [eq there]
  · intro i valid other
    rw [inodes i valid, if_neg other]
    refine ⟨rfl, content_congr rfl ?_⟩
    intro k below
    have bound : k / bsize < maxfile := div_lt_maxfile (lt_of_lt_of_le below (file.sizes i valid))
    have before := written.changed.places i (k / bsize) valid other bound.le
    have after := places i (k / bsize) valid
    have data := blocks i (k / bsize) valid bound
    rw [update_of_ne other] at after data
    rw [byteAt, byteAt, after, before]
    rw [before] at data
    split
    · rfl
    · rename_i there
      rw [data there, written.changed.others i _ valid other bound there]
  · intro all le bounds enough
    have free : freeBlocks sb w.disk = freeBlocks sb v'.disk :=
      Finset.filter_congr fun c below => not_congr (marks c (Finset.mem_range.mp below))
    have missing : (all.filter fun z => place d w.disk z = 0) =
        all.filter fun z => place ip' v'.disk z = 0 :=
      Finset.filter_congr fun z _ => by rw [own]
    rw [Room, free, missing]
    exact written.changed.room all le bounds enough

/-- Within the limits `writei` fails for want of blocks only. -/
theorem writei_cases (devsw : Devsw) (file : File sb inum ip v) (notDevice : ip.type ≠ tDev)
    (start : off ≤ ip.size) (short : off + src.length ≤ maxfile * bsize) :
    (writei devsw sb inum ip src off v = none ∧ ¬Room sb (neededBy off src.length) ip v.disk) ∨
      ∃ ip' v', writei devsw sb inum ip src off v =
          some (finishWrite sb inum (off + src.length) src ip' v') ∧
        Written sb (dinodeAt v.disk sb) inum (neededBy off src.length) (touchedBy off src.length) off
          src ip v ip' v' := by
  have limit : maxfile * bsize < 2 ^ 32 := by decide
  rw [writei, if_neg notDevice, Nat.mod_eq_of_lt (by omega), if_neg (by omega), if_neg (by omega)]
  rcases file.writeLoop short with ⟨failed, full⟩ | ⟨ip₁, v₁, ran, written⟩
  · rw [failed]
    exact .inl ⟨rfl, full⟩
  · rw [ran]
    exact .inr ⟨ip₁, v₁, rfl, written⟩

theorem Written.finish (file : File sb inum ip v)
    (written : Written sb (dinodeAt v.disk sb) inum (neededBy off src.length)
      (touchedBy off src.length) off src ip v ip' v') (start : off ≤ ip.size)
    (short : off + src.length ≤ maxfile * bsize) :
    ∃ d w, finishWrite sb inum (off + src.length) src ip' v' = ((src.length : Int), d, w) ∧
      Overwritten sb inum off src ip v d w := by
  have limit : maxfile * bsize < 2 ^ 32 := by decide
  unfold finishWrite
  have sizeKept : ip'.size = ip.size := by rw [written.changed.same]
  have inodes : ∀ i, i < sb.ninodes → dinodeAt v'.disk sb i = dinodeAt v.disk sb i := by
    intro i valid
    rw [dinodeAt, dinodeAt, written.changed.inodes i valid]
  dsimp only
  rw [sizeKept]
  by_cases grows : 0 < src.length ∧ ip.size < off + src.length
  · rw [if_pos grows]
    refine ⟨_, _, rfl, ?_⟩
    have fits : ({ ip' with size := off + src.length } : Dinode).Fits := by
      have old := written.changed.sound.fits inum file.valid
      rw [update_self] at old
      exact { old with size := show off + src.length < 2 ^ 32 by omega }
    refine written.overwritten file start short (show _ = ip'.addrs from rfl) ?_ ?_ ?_ ?_ ?_ ?_
    · rw [written.changed.same]
    · show off + src.length = _
      omega
    · intro i valid
      rw [dinodeAt_iupdate fits, inodes i valid]
    · exact fun i z valid => written.changed.sound.iupdate_place file.valid valid z
    · exact fun i z valid bound there =>
        written.changed.sound.iupdate_block file.valid valid bound.le there
    · exact fun c below => file.layout.iupdate_used file.valid below
  · rw [if_neg grows]
    have inside : off + src.length ≤ ip.size := by omega
    obtain rfl := written.same_inode file inside
    refine ⟨ip', v', rfl, ?_⟩
    apply written.overwritten file start short rfl rfl
    · omega
    · intro i valid
      rw [inodes i valid]
      split
      · rename_i isOwn
        rw [isOwn, file.agrees]
      · rfl
    · exact fun _ _ _ => rfl
    · exact fun _ _ _ _ _ => rfl
    · exact fun _ _ => Iff.rfl

/-- `writei` overwrites the contents. -/
theorem writei_overwrites (devsw : Devsw) (file : File sb inum ip v) (notDevice : ip.type ≠ tDev)
    (start : off ≤ ip.size) (short : off + src.length ≤ maxfile * bsize)
    (room : Room sb (neededBy off src.length) ip v.disk) :
    ∃ ip' v', writei devsw sb inum ip src off v = some ((src.length : Int), ip', v') ∧
      Overwritten sb inum off src ip v ip' v' := by
  rcases writei_cases devsw file notDevice start short with ⟨_, full⟩ | ⟨ip₁, v₁, ran, written⟩
  · exact absurd room full
  · obtain ⟨ip', v', ends, overwritten⟩ := written.finish file start short
    exact ⟨ip', v', ran.trans (congrArg some ends), overwritten⟩

/-- The checks of `writei`. -/
theorem writei_rejects (devsw : Devsw) (notDevice : ip.type ≠ tDev) (offFits : off < 2 ^ 32)
    (srcFits : src.length < 2 ^ 32)
    (outside : ip.size < off ∨ 2 ^ 32 ≤ off + src.length ∨ maxfile * bsize < off + src.length) :
    writei devsw sb inum ip src off v = some (-1, ip, v) := by
  rw [writei, if_neg notDevice]
  by_cases early : ip.size < off ∨ (off + src.length) % 2 ^ 32 < off
  · rw [if_pos early]
  · rw [if_neg early, if_pos (by omega)]

theorem readi_rejects (devsw : Devsw) (notDevice : ip.type ≠ tDev) (offFits : off < 2 ^ 32)
    (nFits : n < 2 ^ 32) (outside : ip.size < off ∨ 2 ^ 32 ≤ off + n) :
    readi devsw sb ip off n v = some (-1, [], ip, v) := by
  rw [readi, if_neg notDevice, if_pos (by omega)]

theorem readi_reads (devsw : Devsw) (file : File sb inum ip v) (notDevice : ip.type ≠ tDev)
    (start : off ≤ ip.size) (noWrap : off + n < 2 ^ 32) :
    readi devsw sb ip off n v =
      some (((min (off + n) ip.size - off : Nat) : Int), ((content ip v.disk).drop off).take n, ip, v) := by
  rw [readi, if_neg notDevice, Nat.mod_eq_of_lt noWrap, if_neg (by omega)]
  dsimp only
  by_cases clipped : ip.size < off + n
  · rw [if_pos clipped, readLoop_eq file le_rfl (by omega), Option.map_some,
      Nat.min_eq_right clipped.le, List.take_of_length_le, List.take_of_length_le]
    · rw [List.length_drop, length_content]
      omega
    · rw [List.length_drop, length_content]
  · rw [if_neg clipped, readLoop_eq file le_rfl (by omega), Option.map_some,
      Nat.min_eq_left (by omega), Nat.add_sub_cancel_left]

/-- A file without holes is an array of bytes: `writei` overwrites a part of it, where the part is
within or at the end of the array and within the limit, and `readi` reads a part of it. -/
theorem readi_writei_byteArray (devsw : Devsw) (file : File sb inum ip v) (notDevice : ip.type ≠ tDev)
    {off n : Nat} {src : List UInt8} (offFits : off < 2 ^ 32) (nFits : n < 2 ^ 32)
    (srcFits : src.length < 2 ^ 32) :
    (ip.size < off ∨ 2 ^ 32 ≤ off + src.length ∨ maxfile * bsize < off + src.length →
      writei devsw sb inum ip src off v = some (-1, ip, v)) ∧
    (¬(ip.size < off ∨ 2 ^ 32 ≤ off + src.length ∨ maxfile * bsize < off + src.length) →
      Room sb (neededBy off src.length) ip v.disk →
      ∃ ip' v', writei devsw sb inum ip src off v = some ((src.length : Int), ip', v') ∧
        Overwritten sb inum off src ip v ip' v') ∧
    (ip.size < off ∨ 2 ^ 32 ≤ off + n → readi devsw sb ip off n v = some (-1, [], ip, v)) ∧
    (¬(ip.size < off ∨ 2 ^ 32 ≤ off + n) →
      readi devsw sb ip off n v = some (((min (off + n) ip.size - off : Nat) : Int),
        ((content ip v.disk).drop off).take n, ip, v)) := by
  refine ⟨writei_rejects devsw notDevice offFits srcFits, ?_,
    readi_rejects devsw notDevice offFits nFits, ?_⟩
  · intro inside
    exact writei_overwrites devsw file notDevice (by omega) (by omega)
  · intro inside
    exact readi_reads devsw file notDevice (by omega) (by omega)

/-! ## A small disk -/

/-- One block of inodes, one of the bitmap, and enough for one file. -/
def smallSb : Superblock where
  size := 200
  nblocks := 196
  ninodes := 1
  nlog := 0
  logstart := 2
  inodestart := 2
  bmapstart := 3

section SmallSb

variable {count i c b : Nat}

theorem iblock_smallSb (few : i < Mkfs.ipb) : iblock i { smallSb with ninodes := count } = 2 := by
  rw [iblock, Nat.div_eq_of_lt few]
  rfl

theorem bblock_smallSb (below : c < 200) : bblock c { smallSb with ninodes := count } = 3 := by
  rw [bblock, Nat.div_eq_of_lt (by unfold bpb bsize; omega)]
  rfl

theorem smallSb_layout (few : count ≤ Mkfs.ipb) : Layout { smallSb with ninodes := count } := by
  refine ⟨(by decide : smallSb.size ≤ 2 ^ 32), fun i c valid below => ?_⟩
  rw [iblock_smallSb (lt_of_lt_of_le valid few), bblock_smallSb below]
  decide

theorem reserved_smallSb (few : count ≤ Mkfs.ipb)
    (reserved : Reserved { smallSb with ninodes := count } b) : b < 4 := by
  rcases reserved with rfl | ⟨i, valid, rfl⟩ | ⟨c, below, rfl⟩
  · decide
  · rw [iblock_smallSb (lt_of_lt_of_le valid few)]
    decide
  · rw [bblock_smallSb below]
    decide

end SmallSb

/-- An empty file or directory, and no block in use but the first four. -/
def blankVolume (type : Mkfs.FileType) : Volume :=
  ⟨fun b i => if b = 2 ∧ i = 0 then UInt8.ofNat type.code else if b = 3 ∧ i = 0 then 15 else 0, []⟩

def blankInode (type : Mkfs.FileType) : Dinode :=
  ⟨type.code, 0, 0, 0, 0, fun _ => 0⟩

theorem blankVolume_inode (type : Mkfs.FileType) :
    dinodeAt (blankVolume type).disk smallSb 0 = blankInode type := by
  have addrs : (dinodeAt (blankVolume type).disk smallSb 0).addrs = fun _ => 0 := by
    funext k
    unfold dinodeAt Mkfs.loadDinode
    dsimp only
    split
    · apply Bytes.get_zero
      intro i low _
      have past : i ≠ 0 := by omega
      show (if 2 = 2 ∧ i = 0 then UInt8.ofNat type.code else if 2 = 3 ∧ i = 0 then 15 else 0) = 0
      simp [past]
    · rfl
  have eta : dinodeAt (blankVolume type).disk smallSb 0 =
      ⟨type.code, 0, 0, 0, 0, (dinodeAt (blankVolume type).disk smallSb 0).addrs⟩ := by
    cases type <;> rfl
  rw [eta, addrs]
  rfl

/-- An inode without blocks. -/
theorem place_of_addrs (none_ : ∀ k, ip.addrs k = 0) (disk : Disk) (z : Nat) :
    place ip disk z = 0 := by
  unfold place
  split
  · exact none_ z
  · split
    · exact none_ ndirect
    · rw [if_pos (none_ ndirect)]

theorem blankVolume_file (type : Mkfs.FileType) :
    File smallSb 0 (blankInode type) (blankVolume type) := by
  have only : ∀ i, i < smallSb.ninodes → i = 0 := fun i valid => Nat.lt_one_iff.mp valid
  have noPlace : ∀ i z, i < smallSb.ninodes →
      place (dinodeAt (blankVolume type).disk smallSb i) (blankVolume type).disk z = 0 := by
    intro i z valid
    rw [only i valid, blankVolume_inode, place_of_addrs fun _ => rfl]
  refine ⟨smallSb_layout (by decide), by decide, blankVolume_inode type, ⟨?_, ?_, ?_, ?_⟩, ?_, ?_⟩
  · exact fun i _ => dinodeAt_fits _ _ i
  · have firstFour : ∀ b, b < 4 → used smallSb (blankVolume type).disk b := by
      cases type <;> decide
    exact fun b _ reserved => firstFour b (reserved_smallSb (by decide) reserved)
  · intro i y valid _ there
    exact absurd (noPlace i y valid) there
  · intro i j x y valid _ _ _ _ there
    exact absurd (noPlace i x valid) there
  · intro i valid
    rw [only i valid, blankVolume_inode]
    exact Nat.zero_le _
  · intro b below
    exact absurd below (Nat.not_lt_zero _)

def smallVolume : Volume := blankVolume .file

def emptyFile : Dinode := blankInode .file

theorem smallVolume_file : File smallSb 0 emptyFile smallVolume :=
  blankVolume_file .file

/-- Three bytes are written into the empty file. -/
theorem readi_writei_smallVolume :
    ∃ ip' v', writei ⟨fun _ => none, fun _ => none⟩ smallSb 0 emptyFile [1, 2, 3] 0 smallVolume =
      some (3, ip', v') ∧ content ip' v'.disk = [1, 2, 3] := by
  obtain ⟨-, written, -⟩ := @readi_writei_byteArray smallSb 0 emptyFile smallVolume
    ⟨fun _ => none, fun _ => none⟩ smallVolume_file (by decide) 0 0 [1, 2, 3] (by decide) (by decide)
    (by decide)
  obtain ⟨ip', v', ran, overwritten⟩ := written (by decide) (by decide +kernel)
  exact ⟨ip', v', ran, overwritten.content⟩

end Xv6.Inode
