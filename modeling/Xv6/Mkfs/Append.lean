import Xv6.Lib.Tally
import Xv6.Mkfs.Layout

/-!
Appending to files.

Owns: `ialloc` and `iappend` of `mkfs`; the blocks that belong to a file, and the invariant that
every block from the first data block on belongs to one place in one file; and that `iappend`
appends, for as long as there are blocks.

Does not own: reading files back (`Xv6.Mkfs.ReadBack`); what `mkfs` appends (`Xv6.Mkfs.Image`).
-/

open scoped BigOperators

namespace Xv6.Mkfs

open Function (update update_self update_of_ne update_eq_self)

open Bytes (byte get put copy)

structure State where
  disk : Disk
  freeinode : Nat
  freeblock : Nat

inductive FileType where
  | dir
  | file
  deriving DecidableEq

/-- `T_DIR` and `T_FILE`. -/
def FileType.code : FileType → Nat
  | .dir => 1
  | .file => 2

def blank (type : Nat) : Dinode :=
  ⟨type, 0, 0, 1, 0, fun _ => 0⟩

def ialloc (type : FileType) (s : State) : Option (Nat × State) :=
  (winode s.disk s.freeinode (blank type.code)).map fun disk =>
    (s.freeinode, { s with disk := disk, freeinode := s.freeinode + 1 })

/-! ## The loop of `iappend` -/

def Dinode.setAddr (d : Dinode) (k b : Nat) : Dinode :=
  { d with addrs := Function.update d.addrs k b }

@[simp] theorem Dinode.setAddr_self (d : Dinode) (k b : Nat) : (d.setAddr k b).addrs k = b := by
  simp only [setAddr, update_self]

variable {d d' : Dinode} {j b y free i len more : Nat} {disk disk' : Disk}

theorem Dinode.setAddr_other {k : Nat} (different : j ≠ k) :
    (d.setAddr k b).addrs j = d.addrs j := by
  simp only [setAddr, update_of_ne different]

/-- The block for block `fbn` of the file, which is allocated if there is none. -/
def mapBlock (fbn : Nat) (din : Dinode) (disk : Disk) (freeblock : Nat) :
    Option (Nat × Dinode × Disk × Nat) :=
  if fbn < ndirect then
    if din.addrs fbn = 0 then
      some (freeblock, din.setAddr fbn freeblock, disk, freeblock + 1)
    else some (din.addrs fbn, din, disk, freeblock)
  else
    let fresh := din.addrs ndirect = 0
    let din := if fresh then din.setAddr ndirect freeblock else din
    let freeblock := if fresh then freeblock + 1 else freeblock
    let indirect := din.addrs ndirect
    match rsect disk indirect with
    | none => none
    | some buf =>
      if get buf (4 * (fbn - ndirect)) 4 = 0 then
        some (freeblock, din, wsect disk indirect (put buf (4 * (fbn - ndirect)) 4 freeblock),
          freeblock + 1)
      else some (get buf (4 * (fbn - ndirect)) 4, din, disk, freeblock)

/-- `bcopy` into a block. -/
def fill (buf : Sector) (start : Nat) (bytes : List UInt8) : Sector :=
  fun i => if start ≤ i then (bytes[i - start]?).getD (buf i) else buf i

def appendFrom : Nat → Nat → List UInt8 → Dinode → Disk → Nat → Option (Nat × Dinode × Disk × Nat)
  | 0, off, _, din, disk, freeblock => some (off, din, disk, freeblock)
  | fuel + 1, off, p, din, disk, freeblock =>
    if p = [] then some (off, din, disk, freeblock)
    else
      let fbn := off / bsize
      if maxfile ≤ fbn then none
      else
        match mapBlock fbn din disk freeblock with
        | none => none
        | some (x, din, disk, freeblock) =>
          let n1 := min p.length ((fbn + 1) * bsize - off)
          match rsect disk x with
          | none => none
          | some buf =>
            appendFrom fuel (off + n1) (p.drop n1) din
              (wsect disk x (fill buf (off - fbn * bsize) (p.take n1))) freeblock

def iappend (inum : Nat) (p : List UInt8) (s : State) : Option State :=
  match rinode s.disk inum with
  | none => none
  | some din =>
    match appendFrom p.length din.size p din s.disk s.freeblock with
    | none => none
    | some (off, din, disk, freeblock) =>
      (winode disk inum { din with size := off }).map fun disk =>
        { s with disk := disk, freeblock := freeblock }

/-! ## The blocks of a file -/

/-- The blocks of a file: those with its contents, and after them the one with addresses. -/
def place (d : Dinode) (disk : Disk) (y : Nat) : Nat :=
  if y < ndirect then d.addrs y
  else if y = maxfile then d.addrs ndirect
  else if d.addrs ndirect = 0 then 0
  else get (disk (d.addrs ndirect)) (4 * (y - ndirect)) 4

theorem place_direct (direct : y < ndirect) : place d disk y = d.addrs y := by
  rw [place, if_pos direct]

theorem place_maxfile (d : Dinode) (disk : Disk) : place d disk maxfile = d.addrs ndirect := by
  rw [place, if_neg (by decide), if_pos rfl]

theorem place_indirect (low : ndirect ≤ y) (high : y < maxfile) (there : d.addrs ndirect ≠ 0) :
    place d disk y = get (disk (d.addrs ndirect)) (4 * (y - ndirect)) 4 := by
  rw [place, if_neg (by omega), if_neg (by omega), if_neg there]

theorem place_of_no_indirect (low : ndirect ≤ y) (high : y < maxfile) (absent : d.addrs ndirect = 0) :
    place d disk y = 0 := by
  rw [place, if_neg (by omega), if_neg (by omega), if_pos absent]

/-- The places of a file are in its inode and on its own block of addresses. -/
theorem place_congr (direct : y < ndirect → d'.addrs y = d.addrs y)
    (indirect : d'.addrs ndirect = d.addrs ndirect)
    (same : d.addrs ndirect ≠ 0 → disk' (d.addrs ndirect) = disk (d.addrs ndirect)) :
    place d' disk' y = place d disk y := by
  unfold place
  rw [indirect]
  split
  · rename_i isDirect
    exact direct isDirect
  · split
    · rfl
    · split
      · rfl
      · rename_i there
        rw [same there]

/-- Every data block is at one place, and no place has any other block. -/
structure Owned (at_ : Nat → Nat → Nat) (free : Nat) : Prop where
  range : ∀ i y, y ≤ maxfile → at_ i y ≠ 0 → nmeta ≤ at_ i y ∧ at_ i y < free
  distinct : ∀ i j x y, x ≤ maxfile → y ≤ maxfile → at_ i x = at_ j y → at_ i x ≠ 0 → i = j ∧ x = y
  onto : ∀ b, nmeta ≤ b → b < free → ∃ i y, y ≤ maxfile ∧ at_ i y = b

/-- A place is given the next free block. -/
def assign (at_ : Nat → Nat → Nat) (i y b : Nat) : Nat → Nat → Nat :=
  fun j x => if j = i ∧ x = y then b else at_ j x

theorem Owned.assign {at_ : Nat → Nat → Nat} (owned : Owned at_ free) (data : nmeta ≤ free)
    (place : y ≤ maxfile) (empty : at_ i y = 0) : Owned (assign at_ i y free) (free + 1) := by
  refine ⟨?_, ?_, ?_⟩
  · intro j x bound some_
    unfold Mkfs.assign at *
    split
    · omega
    · rename_i other
      rw [if_neg other] at some_
      have old := owned.range j x bound some_
      omega
  · intro j k x z boundX boundZ same some_
    unfold Mkfs.assign at *
    by_cases first : j = i ∧ x = y
    · by_cases second : k = i ∧ z = y
      · omega
      · rw [if_pos first] at same some_
        rw [if_neg second] at same
        have old := owned.range k z boundZ (by omega)
        omega
    · by_cases second : k = i ∧ z = y
      · rw [if_neg first, if_pos second] at same
        rw [if_neg first] at some_
        have old := owned.range j x boundX some_
        omega
      · rw [if_neg first] at same some_
        rw [if_neg second] at same
        exact owned.distinct j k x z boundX boundZ same some_
  · intro b low high
    by_cases isNew : b = free
    · exact ⟨i, y, place, by rw [Mkfs.assign, if_pos ⟨rfl, rfl⟩, isNew]⟩
    · obtain ⟨j, x, bound, found⟩ := owned.onto b low (by omega)
      refine ⟨j, x, bound, ?_⟩
      rw [Mkfs.assign, if_neg]
      · exact found
      · rintro ⟨rfl, rfl⟩
        have start : nmeta = 59 := rfl
        omega

/-! ## The invariant -/

/-- The inodes and the blocks hold the contents of the files, and nothing else is in use. -/
structure Kept (files : Nat → Dinode) (disk : Disk) (free : Nat) (content : Nat → List UInt8) :
    Prop where
  fits : ∀ i, (files i).Fits
  length : ∀ i, (content i).length ≤ maxfile * bsize
  mapped : ∀ i b, b < maxfile → (place (files i) disk b ≠ 0 ↔ b * bsize < (content i).length)
  indirect : ∀ i, (files i).addrs ndirect ≠ 0 ↔ ndirect * bsize < (content i).length
  owned : Owned (fun i => place (files i) disk) free
  bytes : ∀ i b o, b * bsize < (content i).length → o < bsize →
    disk (place (files i) disk b) o = (content i).getD (b * bsize + o) 0
  fresh : ∀ b, free ≤ b → ∀ o, o < bsize → disk b o = 0
  data : nmeta ≤ free

/-- The blocks that one more byte needs after `len` bytes. -/
def newBlocks (len : Nat) : Nat :=
  (if len % bsize = 0 then 1 else 0) + if len = ndirect * bsize then 1 else 0

/-- What `mapBlock` does for the end of a file: the places of the file, and the blocks that are
changed. -/
structure BlockMapped (d : Dinode) (disk : Disk) (free len x : Nat) (d' : Dinode) (disk' : Disk) :
    Prop where
  fits : d'.Fits
  type : d'.type = d.type
  size : d'.size = d.size
  places : ∀ y, y ≤ maxfile → place d' disk' y =
    if y = len / bsize then x
    else if y = maxfile ∧ len = ndirect * bsize then free
    else place d disk y
  others : ∀ b, b ≠ d'.addrs ndirect → disk' b = disk b
  before : ∀ b, b < nmeta → disk' b = disk b
  notIndirect : x ≠ d'.addrs ndirect
  old : len % bsize ≠ 0 → x = place d disk (len / bsize)
  new : len % bsize = 0 → x = free + if len = ndirect * bsize then 1 else 0

theorem lt_of_partly (partly : len % bsize ≠ 0) (high : b ≤ len / bsize) : b * bsize < len := by
  have whole := Nat.div_add_mod len bsize
  have least := Nat.mul_le_mul_left bsize high
  rw [Nat.mul_comm b]
  omega

theorem div_lt_maxfile (short : len < maxfile * bsize) : len / bsize < maxfile :=
  Nat.div_lt_of_lt_mul (by rw [Nat.mul_comm]; exact short)

theorem lt_maxfile_of_partly (le : len ≤ maxfile * bsize) (partly : len % bsize ≠ 0) :
    len < maxfile * bsize := by
  apply lt_of_le_of_ne le
  rintro rfl
  exact partly (Nat.mul_mod_left _ _)

theorem ne_full_of_partly (partly : len % bsize ≠ 0) : len ≠ ndirect * bsize := by
  rintro rfl
  exact partly (Nat.mul_mod_left _ _)

theorem ne_full_of_direct (direct : len / bsize < ndirect) : len ≠ ndirect * bsize := by
  rintro rfl
  rw [Nat.mul_div_cancel _ (by decide)] at direct
  exact lt_irrefl _ direct

section MapBlock

variable {files : Nat → Dinode} {content : Nat → List UInt8}

/-- The last block of the file is there already. -/
theorem mapBlock_old (kept : Kept files disk free content) (partly : (content i).length % bsize ≠ 0)
    (room : free ≤ fssize) :
    ∃ x, mapBlock ((content i).length / bsize) (files i) disk free =
        some (x, files i, disk, free) ∧
      BlockMapped (files i) disk free (content i).length x (files i) disk := by
  have inside := lt_of_partly partly le_rfl
  have below := div_lt_maxfile (lt_maxfile_of_partly (kept.length i) partly)
  have there := (kept.mapped i _ below).mpr inside
  have notFull := ne_full_of_partly partly
  have mapped : BlockMapped (files i) disk free (content i).length
      (place (files i) disk ((content i).length / bsize)) (files i) disk := by
    refine ⟨kept.fits i, rfl, rfl, ?_, fun _ _ => rfl, fun _ _ => rfl, ?_, fun _ => rfl,
      fun whole => absurd whole partly⟩
    · intro y _
      split
      · rename_i same
        rw [same]
      · rw [if_neg (fun h => notFull h.2)]
    · intro same
      rw [← place_maxfile (files i) disk] at same
      have equal := (kept.owned.distinct i i _ _ below.le le_rfl same there).2
      omega
  refine ⟨_, ?_, mapped⟩
  unfold mapBlock
  by_cases direct : (content i).length / bsize < ndirect
  · rw [place_direct direct] at there ⊢
    rw [if_pos direct, if_neg there]
  · have indirect : (files i).addrs ndirect ≠ 0 := by
      rw [kept.indirect]
      exact lt_of_partly partly (Nat.le_of_not_lt direct)
    have block := (kept.owned.range i maxfile le_rfl (by rw [place_maxfile]; exact indirect)).2
    rw [place_maxfile] at block
    rw [place_indirect (by omega) below indirect] at there ⊢
    rw [if_neg direct]
    dsimp only
    rw [if_neg indirect, if_neg indirect, rsect, if_pos (by omega)]
    dsimp only
    rw [if_neg there]

theorem place_end (kept : Kept files disk free content) (whole : (content i).length % bsize = 0)
    (below : (content i).length / bsize < maxfile) :
    place (files i) disk ((content i).length / bsize) = 0 := by
  by_contra there
  have inside := (kept.mapped i _ below).mp there
  rw [Nat.div_mul_cancel (Nat.dvd_of_mod_eq_zero whole)] at inside
  exact lt_irrefl _ inside

/-- The next free block is at no place. -/
theorem free_ne_addr (kept : Kept files disk free content) : free ≠ (files i).addrs ndirect := by
  intro same
  have start : 0 < nmeta := by decide
  have data := kept.data
  have range := (kept.owned.range i maxfile le_rfl (by rw [place_maxfile, ← same]; omega)).2
  rw [place_maxfile, ← same] at range
  exact lt_irrefl _ range

theorem Dinode.Fits.setAddr (fits : d.Fits) {k : Nat} (inside : k ≤ ndirect) (small : b < 2 ^ 32) :
    (d.setAddr k b).Fits :=
  { fits with
    addrs := by
      intro j
      by_cases isHere : j = k
      · rw [isHere, Dinode.setAddr_self]
        exact small
      · rw [Dinode.setAddr_other isHere]
        exact fits.addrs j
    beyond := by
      intro j outside
      rw [Dinode.setAddr_other (by omega)]
      exact fits.beyond j outside }

/-- A new block among the first ones. -/
theorem mapBlock_direct (kept : Kept files disk free content)
    (whole : (content i).length % bsize = 0) (direct : (content i).length / bsize < ndirect)
    (room : free < fssize) :
    ∃ d', mapBlock ((content i).length / bsize) (files i) disk free =
        some (free, d', disk, free + 1) ∧
      BlockMapped (files i) disk free (content i).length free d' disk := by
  have below : (content i).length / bsize < maxfile := lt_trans direct (by decide)
  have notFull := ne_full_of_direct direct
  have empty := place_end kept whole below
  rw [place_direct direct] at empty
  have sameIndirect : ((files i).setAddr ((content i).length / bsize) free).addrs ndirect =
      (files i).addrs ndirect := Dinode.setAddr_other (Nat.ne_of_gt direct)
  refine ⟨(files i).setAddr ((content i).length / bsize) free,
    ?_, (kept.fits i).setAddr direct.le (lt_trans room (by decide)), rfl, rfl, ?_, fun _ _ => rfl, fun _ _ => rfl, ?_,
    fun partly => absurd whole partly, fun _ => by rw [if_neg notFull, Nat.add_zero]⟩
  · rw [mapBlock, if_pos direct, if_pos empty]
  · intro y bound
    by_cases isEnd : y = (content i).length / bsize
    · rw [if_pos isEnd, isEnd, place_direct direct, Dinode.setAddr_self]
    · rw [if_neg isEnd, if_neg (fun h => notFull h.2)]
      exact place_congr (fun _ => Dinode.setAddr_other isEnd) sameIndirect fun _ => rfl
  · rw [sameIndirect]
    exact free_ne_addr kept

/-- A new block among the later ones, perhaps the first of them. -/
theorem mapBlock_indirect (kept : Kept files disk free content)
    (whole : (content i).length % bsize = 0) (later : ndirect ≤ (content i).length / bsize)
    (below : (content i).length / bsize < maxfile)
    (room : free + newBlocks (content i).length ≤ fssize) :
    ∃ x d' disk', mapBlock ((content i).length / bsize) (files i) disk free =
        some (x, d', disk', free + newBlocks (content i).length) ∧
      BlockMapped (files i) disk free (content i).length x d' disk' := by
  have length := Nat.div_mul_cancel (Nat.dvd_of_mod_eq_zero whole)
  have freshIff : (files i).addrs ndirect = 0 ↔ (content i).length = ndirect * bsize := by
    rw [← not_iff_not, ← ne_eq, kept.indirect i]
    have least := Nat.mul_le_mul_right bsize later
    omega
  have data := kept.data
  have start : 0 < nmeta := by decide
  -- the block of addresses: a new one, or that of the file
  obtain ⟨ind, d', free', atNdirect, direct, ready, newFree, inRange, apart, entries, oldInd⟩ :
      ∃ ind d' free', d'.addrs ndirect = ind ∧
        (∀ y, y < ndirect → d'.addrs y = (files i).addrs y) ∧
        (d' = if (files i).addrs ndirect = 0 then (files i).setAddr ndirect free else files i) ∧
        free' = free + (if (content i).length = ndirect * bsize then 1 else 0) ∧
        (nmeta ≤ ind ∧ ind < free') ∧ (free' ≠ ind) ∧
        (∀ y, ndirect ≤ y → y < maxfile →
          get (disk ind) (4 * (y - ndirect)) 4 = place (files i) disk y) ∧
        (ind = if (content i).length = ndirect * bsize then free else (files i).addrs ndirect) := by
    by_cases fresh : (files i).addrs ndirect = 0
    · have full := freshIff.mp fresh
      refine ⟨free, (files i).setAddr ndirect free, free + 1, Dinode.setAddr_self _ _ _, ?_, ?_, ?_,
        by omega, by omega, ?_, ?_⟩
      · exact fun y isDirect => Dinode.setAddr_other (Nat.ne_of_lt isDirect)
      · rw [if_pos fresh]
      · rw [if_pos full]
      · intro y low high
        rw [place_of_no_indirect low high fresh]
        apply Bytes.get_zero
        intro o _ inside
        apply kept.fresh free le_rfl
        have offset : y < 140 := high
        unfold ndirect at inside
        unfold bsize
        omega
      · rw [if_pos full]
    · have notFull := fun full => fresh (freshIff.mpr full)
      have range := kept.owned.range i maxfile le_rfl (by rw [place_maxfile]; exact fresh)
      rw [place_maxfile] at range
      refine ⟨(files i).addrs ndirect, files i, free, rfl, fun _ _ => rfl, ?_, ?_, range,
        Nat.ne_of_gt range.2, ?_, ?_⟩
      · rw [if_neg fresh]
      · rw [if_neg notFull, Nat.add_zero]
      · exact fun y low high => (place_indirect low high fresh).symm
      · rw [if_neg notFull]
  have total : free + newBlocks (content i).length = free' + 1 := by
    rw [newBlocks, if_pos whole, newFree]
    omega
  rw [total] at room ⊢
  have zero : get (disk ind) (4 * ((content i).length / bsize - ndirect)) 4 = 0 := by
    rw [entries _ later below]
    exact place_end kept whole below
  have small : free' < 256 ^ 4 := lt_of_lt_of_le (Nat.lt_of_succ_le room) (by decide)
  refine ⟨free', d', wsect disk ind (put (disk ind) (4 * ((content i).length / bsize - ndirect)) 4
    free'), ?_, ?_, ?_, ?_, ?_, ?_, ?_, ?_, fun partly => absurd whole partly, fun _ => newFree⟩
  · unfold mapBlock
    rw [if_neg (Nat.not_lt.mpr later)]
    dsimp only
    rw [← ready, atNdirect, rsect, if_pos (by omega)]
    dsimp only
    have next : (if (files i).addrs ndirect = 0 then free + 1 else free) = free' := by
      rw [newFree]
      by_cases fresh : (files i).addrs ndirect = 0
      · rw [if_pos fresh, if_pos (freshIff.mp fresh)]
      · rw [if_neg fresh, if_neg fun full => fresh (freshIff.mpr full), Nat.add_zero]
    rw [if_pos zero, next]
  · rw [ready]
    split
    · exact (kept.fits i).setAddr le_rfl (lt_of_lt_of_le (by omega : _ < fssize) (by decide))
    · exact kept.fits i
  · rw [ready]
    split <;> rfl
  · rw [ready]
    split <;> rfl
  · intro y bound
    by_cases isEnd : y = (content i).length / bsize
    · rw [if_pos isEnd, isEnd, place_indirect later below (by rw [atNdirect]; omega),
        atNdirect, wsect, update_self, Bytes.get_put_same, Nat.mod_eq_of_lt small]
    · rw [if_neg isEnd]
      by_cases isDirect : y < ndirect
      · rw [if_neg (fun h => by rw [h.1] at isDirect; exact absurd isDirect (by decide)),
          place_direct isDirect, place_direct isDirect, direct y isDirect]
      · by_cases isLast : y = maxfile
        · rw [isLast, place_maxfile, place_maxfile, atNdirect, oldInd]
          simp only [true_and]
        · have inside : y < maxfile := lt_of_le_of_ne bound isLast
          rw [if_neg (fun h => isLast h.1), ← entries y (Nat.le_of_not_lt isDirect) inside,
            place_indirect (Nat.le_of_not_lt isDirect) inside (by rw [atNdirect]; omega),
            atNdirect, wsect, update_self, Bytes.get_put_other]
          omega
  · intro b different
    rw [atNdirect] at different
    exact update_of_ne different _ _
  · intro b low
    exact update_of_ne (by omega) _ _
  · rw [atNdirect]
    exact apart

theorem mapBlock_spec (kept : Kept files disk free content)
    (short : (content i).length < maxfile * bsize)
    (room : free + newBlocks (content i).length ≤ fssize) :
    ∃ x d' disk', mapBlock ((content i).length / bsize) (files i) disk free =
        some (x, d', disk', free + newBlocks (content i).length) ∧
      BlockMapped (files i) disk free (content i).length x d' disk' := by
  by_cases whole : (content i).length % bsize = 0
  · by_cases direct : (content i).length / bsize < ndirect
    · have notFull := ne_full_of_direct direct
      have one_ : newBlocks (content i).length = 1 := by
        rw [newBlocks, if_pos whole, if_neg notFull]
      rw [one_] at room ⊢
      obtain ⟨d', ran, mapped⟩ := mapBlock_direct kept whole direct room
      exact ⟨free, d', disk, ran, mapped⟩
    · exact mapBlock_indirect kept whole (Nat.le_of_not_lt direct) (div_lt_maxfile short) room
  · have notFull := ne_full_of_partly whole
    have none_ : newBlocks (content i).length = 0 := by
      rw [newBlocks, if_neg whole, if_neg notFull]
    rw [none_] at room ⊢
    obtain ⟨x, ran, mapped⟩ := mapBlock_old kept whole room
    exact ⟨x, files i, disk, ran, mapped⟩

/-! ## One round of the loop -/

theorem Owned.congr {at_ at' : Nat → Nat → Nat} (owned : Owned at_ free)
    (same : ∀ i y, y ≤ maxfile → at' i y = at_ i y) : Owned at' free := by
  refine ⟨?_, ?_, ?_⟩
  · intro i y bound
    rw [same i y bound]
    exact owned.range i y bound
  · intro i j y z boundY boundZ
    rw [same i y boundY, same j z boundZ]
    exact owned.distinct i j y z boundY boundZ
  · intro b low high
    obtain ⟨i, y, bound, found⟩ := owned.onto b low high
    exact ⟨i, y, bound, by rw [same i y bound, found]⟩

/-- Which blocks of a file are there when it has grown within block `len / bsize`. -/
theorem grown_iff (some_ : 0 < more) (fits : len % bsize + more ≤ bsize) (other : b ≠ len / bsize) :
    b * bsize < len ↔ b * bsize < len + more := by
  unfold bsize at *
  omega

theorem grown_end (some_ : 0 < more) (fits : len % bsize + more ≤ bsize) :
    len / bsize * bsize < len + more ∧ len + more ≤ (len / bsize + 1) * bsize := by
  unfold bsize at *
  omega

theorem block_inside {o : Nat} (before : b * bsize < len) (other : b ≠ len / bsize)
    (offset : o < bsize) : b * bsize + o < len := by
  have atMost : b ≤ len / bsize := (Nat.le_div_iff_mul_le (by decide)).mpr before.le
  have next := Nat.mul_le_mul_right bsize (Nat.succ_le_of_lt (lt_of_le_of_ne atMost other))
  have inside := Nat.div_mul_le_self len bsize
  rw [Nat.succ_mul] at next
  omega

/-- Filling the block appends. -/
theorem fill_end {old c : List UInt8} {buf : Sector}
    (bytes : ∀ o, o < bsize → buf o = old.getD (old.length / bsize * bsize + o) 0) (o : Nat)
    (offset : o < bsize) :
    fill buf (old.length % bsize) c o = (old ++ c).getD (old.length / bsize * bsize + o) 0 := by
  have whole := Nat.div_add_mod old.length bsize
  rw [Nat.mul_comm] at whole
  unfold fill
  by_cases after : old.length % bsize ≤ o
  · have past : old.length ≤ old.length / bsize * bsize + o := by omega
    rw [if_pos after, bytes o offset, List.getD_eq_default old 0 past,
      List.getD_append_right _ _ _ _ past, List.getD_eq_getElem?_getD]
    congr 2
    omega
  · rw [if_neg after, bytes o offset, List.getD_append _ _ _ _ (by omega)]

/-- The files and the disk after a round. -/
def written (disk : Disk) (x start : Nat) (c : List UInt8) : Disk :=
  wsect disk x (fill (disk x) start c)

variable {x : Nat} {d' : Dinode} {disk' : Disk} (kept : Kept files disk free content)
  (mapped : BlockMapped (files i) disk free (content i).length x d' disk')
  (short : (content i).length < maxfile * bsize)

include kept mapped

/-- The block that is written holds the end of the file, and zeros after it. -/
theorem BlockMapped.oldByte (o : Nat) (offset : o < bsize) :
    disk x o = (content i).getD ((content i).length / bsize * bsize + o) 0 := by
  by_cases whole : (content i).length % bsize = 0
  · have past : (content i).length ≤ (content i).length / bsize * bsize + o := by
      rw [Nat.div_mul_cancel (Nat.dvd_of_mod_eq_zero whole)]
      exact Nat.le_add_right _ _
    rw [kept.fresh x (by rw [mapped.new whole]; exact Nat.le_add_right _ _) o offset,
      List.getD_eq_default _ _ past]
  · rw [mapped.old whole]
    exact kept.bytes i _ o (lt_of_partly whole le_rfl) offset

include short

/-- The block that is written is none of the others. -/
theorem BlockMapped.ne_of_place (bound : y ≤ maxfile)
    (there : place (files j) disk y ≠ 0) (other : ¬(j = i ∧ y = (content i).length / bsize)) :
    place (files j) disk y ≠ x := by
  intro same
  by_cases whole : (content i).length % bsize = 0
  · have range := (kept.owned.range j y bound there).2
    have new := mapped.new whole
    omega
  · rw [mapped.old whole] at same
    exact other (kept.owned.distinct j i y _ bound (div_lt_maxfile short).le same there)

/-- The block of addresses of another file is not changed. -/
theorem BlockMapped.ne_indirect (bound : y ≤ maxfile)
    (there : place (files j) disk y ≠ 0) (other : ¬(j = i ∧ y = maxfile)) :
    place (files j) disk y ≠ d'.addrs ndirect := by
  have below := div_lt_maxfile short
  intro same
  rw [← place_maxfile d' disk', mapped.places maxfile le_rfl, if_neg (Nat.ne_of_gt below)] at same
  split at same
  · have range := (kept.owned.range j y bound there).2
    omega
  · exact other (kept.owned.distinct j i y maxfile bound le_rfl same there)

/-- The places after a round. -/
theorem BlockMapped.place_after (start : Nat) (c : List UInt8)
    (bound : y ≤ maxfile) :
    place (update files i d' j) (written disk' x start c) y =
      if j = i ∧ y = (content i).length / bsize then x
      else if j = i ∧ y = maxfile ∧ (content i).length = ndirect * bsize then free
      else place (files j) disk y := by
  by_cases same : j = i
  · subst same
    rw [update_self]
    have kept' : place d' (written disk' x start c) y = place d' disk' y :=
      place_congr (fun _ => rfl) rfl fun _ => update_of_ne mapped.notIndirect.symm _ _
    rw [kept', mapped.places y bound]
    simp only [true_and]
  · rw [update_of_ne same, if_neg (fun h => same h.1), if_neg (fun h => same h.1)]
    apply place_congr (fun _ => rfl) rfl
    intro there
    rw [← place_maxfile (files j) disk] at there
    have notX := mapped.ne_of_place kept short le_rfl there (fun h => same h.1)
    have notInd := mapped.ne_indirect kept short le_rfl there (fun h => same h.1)
    rw [place_maxfile] at notX notInd
    rw [written, wsect, update_of_ne notX, mapped.others _ notInd]

/-- The owners after a round. -/
theorem BlockMapped.owned (start : Nat) (c : List UInt8) :
    Owned (fun j => place (update files i d' j) (written disk' x start c))
      (free + newBlocks (content i).length) := by
  have below := div_lt_maxfile short
  have after {j y : Nat} (bound : y ≤ maxfile) :=
    mapped.place_after kept short start c (j := j) bound
  by_cases whole : (content i).length % bsize = 0
  · have empty := place_end kept whole below
    by_cases full : (content i).length = ndirect * bsize
    · -- a block of addresses, and a block
      have absent : place (files i) disk maxfile = 0 := by
        rw [place_maxfile]
        by_contra there
        exact absurd ((kept.indirect i).mp there) (by rw [full]; exact lt_irrefl _)
      have first := kept.owned.assign kept.data le_rfl absent
      have second := first.assign (Nat.le_succ_of_le kept.data) below.le
        (i := i) (by rw [assign, if_neg (fun h => absurd h.2 (Nat.ne_of_lt below))]; exact empty)
      rw [newBlocks, if_pos whole, if_pos full]
      apply second.congr
      intro j y bound
      rw [after bound, mapped.new whole, if_pos full]
      simp only [assign, full, and_true]
    · have first := kept.owned.assign kept.data below.le empty
      rw [newBlocks, if_pos whole, if_neg full]
      apply first.congr
      intro j y bound
      rw [after bound, mapped.new whole, if_neg full]
      simp only [assign, full, and_false, if_false, Nat.add_zero]
  · have notFull := ne_full_of_partly whole
    rw [newBlocks, if_neg whole, if_neg notFull]
    apply kept.owned.congr
    intro j y bound
    rw [after bound, mapped.old whole]
    split
    · rename_i isEnd
      rw [isEnd.1, isEnd.2]
    · rw [if_neg (fun h => notFull h.2.2)]

theorem BlockMapped.ne_zero : x ≠ 0 := by
  by_cases whole : (content i).length % bsize = 0
  · have data := kept.data
    have start : 0 < nmeta := by decide
    have new := mapped.new whole
    omega
  · rw [mapped.old whole, kept.mapped i _ (div_lt_maxfile short)]
    exact lt_of_partly whole le_rfl

/-- One round keeps the invariant for the longer file. -/
theorem Kept.step {c : List UInt8} (some_ : 0 < c.length)
    (fits : (content i).length % bsize + c.length ≤ bsize) :
    Kept (update files i d') (written disk' x ((content i).length % bsize) c)
      (free + newBlocks (content i).length) (update content i (content i ++ c)) := by
  have below := div_lt_maxfile short
  obtain ⟨startsInside, endsInside⟩ := grown_end some_ fits
  have length : (content i ++ c).length = (content i).length + c.length := List.length_append
  have after {j y : Nat} (bound : y ≤ maxfile) :=
    mapped.place_after kept short ((content i).length % bsize) c (j := j) bound
  have afterBlock {j b : Nat} (bound : b < maxfile) :
      place (update files i d' j) (written disk' x ((content i).length % bsize) c) b =
        if j = i ∧ b = (content i).length / bsize then x else place (files j) disk b := by
    rw [after bound.le]
    split
    · rfl
    · rw [if_neg fun h => absurd h.2.1 (Nat.ne_of_lt bound)]
  have notZero := mapped.ne_zero kept short
  have owned := mapped.owned kept short ((content i).length % bsize) c
  have lengths : ∀ j, (update content i (content i ++ c) j).length ≤ maxfile * bsize := by
    refine fun j => Update.cases j ?_ fun _ => kept.length j
    rw [length]
    exact le_trans endsInside (Nat.mul_le_mul_right _ below)
  refine ⟨?_, lengths, ?_, ?_, owned, ?_, ?_, Nat.le_add_right_of_le kept.data⟩
  · exact fun j => Update.cases j mapped.fits fun _ => kept.fits j
  · intro j b bound
    rw [afterBlock bound]
    by_cases same : j = i
    · subst same
      rw [update_self, length]
      by_cases isEnd : b = (content j).length / bsize
      · rw [if_pos ⟨rfl, isEnd⟩, isEnd]
        exact iff_of_true notZero startsInside
      · rw [if_neg (fun h => isEnd h.2), kept.mapped j b bound]
        exact grown_iff some_ fits isEnd
    · rw [update_of_ne same, if_neg (fun h => same h.1)]
      exact kept.mapped j b bound
  · intro j
    rw [← place_maxfile _ (written disk' x ((content i).length % bsize) c), after le_rfl,
      if_neg (fun h => absurd h.2 (Nat.ne_of_gt below))]
    by_cases same : j = i
    · subst same
      rw [update_self, length]
      by_cases full : (content j).length = ndirect * bsize
      · rw [if_pos ⟨rfl, rfl, full⟩, full]
        have data := kept.data
        have start : 0 < nmeta := by decide
        exact iff_of_true (by omega) (by omega)
      · rw [if_neg (fun h => full h.2.2), place_maxfile, kept.indirect]
        by_cases isEnd : ndirect = (content j).length / bsize
        · have inside := lt_of_le_of_ne (Nat.div_mul_le_self (content j).length bsize)
            (by rw [← isEnd]; exact fun h => full h.symm)
          rw [← isEnd] at inside startsInside
          exact iff_of_true inside startsInside
        · exact grown_iff some_ fits isEnd
    · rw [update_of_ne same, if_neg (fun h => same h.1), place_maxfile]
      exact kept.indirect j
  · intro j b o inside offset
    have bound : b < maxfile := Nat.lt_of_mul_lt_mul_right (lt_of_lt_of_le inside (lengths j))
    rw [afterBlock bound]
    by_cases isEnd : j = i ∧ b = (content i).length / bsize
    · obtain ⟨rfl, rfl⟩ := isEnd
      rw [if_pos ⟨rfl, rfl⟩, update_self, written, wsect, update_self,
        mapped.others x mapped.notIndirect]
      exact fill_end (mapped.oldByte kept) o offset
    · have before : b * bsize < (content j).length := by
        by_cases same : j = i
        · subst same
          rw [update_self, length] at inside
          exact (grown_iff some_ fits fun h => isEnd ⟨rfl, h⟩).mpr inside
        · rw [update_of_ne same] at inside
          exact inside
      have there := (kept.mapped j b bound).mpr before
      have notX := mapped.ne_of_place kept short bound.le there isEnd
      have notInd := mapped.ne_indirect kept short bound.le there
        fun h => absurd h.2 (Nat.ne_of_lt bound)
      rw [if_neg isEnd, written, wsect, update_of_ne notX, mapped.others _ notInd,
        kept.bytes j b o before offset]
      by_cases same : j = i
      · subst same
        rw [update_self]
        exact (List.getD_append _ _ _ _ (block_inside before (fun h => isEnd ⟨rfl, h⟩) offset)).symm
      · rw [update_of_ne same]
  · intro b high o offset
    have data := kept.data
    have start : 0 < nmeta := by decide
    have notX : b ≠ x := by
      have range := owned.range i ((content i).length / bsize) below.le
        (by rw [afterBlock below, if_pos ⟨rfl, rfl⟩]; exact notZero)
      rw [afterBlock below, if_pos ⟨rfl, rfl⟩] at range
      omega
    have notInd : b ≠ d'.addrs ndirect := by
      intro same
      have range := owned.range i maxfile le_rfl
        (by rw [update_self, place_maxfile, ← same]; omega)
      rw [update_self, place_maxfile, ← same] at range
      omega
    rw [written, wsect, update_of_ne notX, mapped.others b notInd]
    exact kept.fresh b (by omega) o offset

/-- A round writes no block before the data blocks. -/
theorem BlockMapped.written_before (start : Nat) (c : List UInt8) :
    nmeta ≤ x ∧ x < free + newBlocks (content i).length ∧
      ∀ b, b < nmeta → written disk' x start c b = disk b := by
  have below := div_lt_maxfile short
  have atEnd := mapped.place_after kept short start c (j := i) below.le
  rw [if_pos ⟨rfl, rfl⟩] at atEnd
  have range := (mapped.owned kept short start c).range i _ below.le
    (by rw [atEnd]; exact mapped.ne_zero kept short)
  rw [atEnd] at range
  refine ⟨range.1, range.2, ?_⟩
  intro b low
  rw [written, wsect, update_of_ne (by omega), mapped.before b low]

end MapBlock

/-! ## The loop -/

/-- The blocks of a file of `len` bytes. -/
def blocksFor (len : Nat) : Nat :=
  (len + bsize - 1) / bsize + if ndirect * bsize < len then 1 else 0

theorem blocksFor_mono {a : Nat} (le : a ≤ b) : blocksFor a ≤ blocksFor b := by
  have quotient : (a + bsize - 1) / bsize ≤ (b + bsize - 1) / bsize :=
    Nat.div_le_div_right (by omega)
  unfold blocksFor
  split
  · rw [if_pos (by omega)]
    omega
  · omega

theorem blocksFor_add (some_ : 0 < more) (fits : len % bsize + more ≤ bsize) :
    blocksFor (len + more) = blocksFor len + newBlocks len := by
  unfold blocksFor newBlocks bsize ndirect at *
  by_cases whole : len % 512 = 0
  · rw [if_pos whole]
    by_cases full : len = 12 * 512
    · subst full
      rw [if_pos (by omega), if_neg (by omega), if_pos rfl]
      omega
    · rw [if_neg full]
      by_cases later : 12 * 512 < len
      · rw [if_pos later, if_pos (by omega)]
        omega
      · rw [if_neg later, if_neg (by omega)]
        omega
  · have notFull : len ≠ 12 * 512 := by omega
    rw [if_neg whole, if_neg notFull]
    by_cases later : 12 * 512 < len
    · rw [if_pos later, if_pos (by omega)]
      omega
    · rw [if_neg later, if_neg (by omega)]
      omega

/-- How much one round writes. -/
theorem round_bounds {left n1 : Nat} (count : min left ((len / bsize + 1) * bsize - len) = n1)
    (positive : 0 < left) : (0 < n1 ∧ n1 ≤ left) ∧ len % bsize + n1 ≤ bsize := by
  have whole := Nat.div_add_mod len bsize
  have small := Nat.mod_lt len (show 0 < bsize by decide)
  rw [Nat.succ_mul, Nat.mul_comm] at count
  omega

variable {files : Nat → Dinode} {fuel : Nat} {content : Nat → List UInt8} {p : List UInt8}

/-- One round appends the bytes that go to one block. -/
theorem appendFrom_round (kept : Kept files disk free content) (fuel : Nat) (some_ : p ≠ [])
    (notFull : (content i).length < maxfile * bsize)
    (room : free + newBlocks (content i).length ≤ fssize) :
    ∃ n1 d' disk', (0 < n1 ∧ n1 ≤ p.length) ∧ (content i).length % bsize + n1 ≤ bsize ∧
      appendFrom (fuel + 1) (content i).length p (files i) disk free =
        appendFrom fuel ((content i).length + n1) (p.drop n1) d' disk'
          (free + newBlocks (content i).length) ∧
      Kept (update files i d') disk' (free + newBlocks (content i).length)
        (update content i (content i ++ p.take n1)) ∧
      d'.type = (files i).type ∧ ∀ b, b < nmeta → disk' b = disk b := by
  have positive : 0 < p.length := List.length_pos_iff.mpr some_
  generalize count : min p.length (((content i).length / bsize + 1) * bsize -
    (content i).length) = n1
  obtain ⟨moves, fits⟩ := round_bounds count positive
  have size : (p.take n1).length = n1 := by
    rw [List.length_take]
    omega
  obtain ⟨x, d', disk', ran, mapped⟩ := mapBlock_spec kept notFull room
  obtain ⟨_, inside, before⟩ := mapped.written_before kept notFull
    ((content i).length % bsize) (p.take n1)
  have offset : (content i).length - (content i).length / bsize * bsize =
      (content i).length % bsize := by
    have whole := Nat.div_add_mod (content i).length bsize
    rw [Nat.mul_comm] at whole
    omega
  refine ⟨n1, d', written disk' x ((content i).length % bsize) (p.take n1), moves, fits, ?_,
    kept.step mapped notFull (by omega) (by omega), mapped.type, before⟩
  rw [appendFrom, if_neg some_]
  dsimp only
  rw [if_neg (Nat.not_le.mpr (div_lt_maxfile notFull)), count, ran]
  dsimp only
  rw [rsect, if_pos (by omega), offset]
  rfl

/-- The loop of `iappend` appends, when the file stays small enough and there are blocks. -/
theorem appendFrom_spec (kept : Kept files disk free content) (enough : p.length ≤ fuel)
    (short : (content i).length + p.length ≤ maxfile * bsize)
    (room : free + blocksFor ((content i).length + p.length) ≤
      fssize + blocksFor (content i).length) :
    ∃ d' disk' free',
      appendFrom fuel (content i).length p (files i) disk free =
        some ((content i).length + p.length, d', disk', free') ∧
      Kept (update files i d') disk' free' (update content i (content i ++ p)) ∧
      free' + blocksFor (content i).length = free + blocksFor ((content i).length + p.length) ∧
      d'.type = (files i).type ∧ ∀ b, b < nmeta → disk' b = disk b := by
  induction fuel generalizing files disk free content p with
  | zero =>
    obtain rfl := List.length_eq_zero_iff.mp (Nat.le_zero.mp enough)
    refine ⟨files i, disk, free, rfl, ?_, rfl, rfl, fun _ _ => rfl⟩
    rw [update_eq_self, List.append_nil, update_eq_self]
    exact kept
  | succ fuel ih =>
    by_cases empty : p = []
    · subst empty
      refine ⟨files i, disk, free, by rw [appendFrom, if_pos rfl]; rfl, ?_, rfl, rfl,
        fun _ _ => rfl⟩
      rw [update_eq_self, List.append_nil, update_eq_self]
      exact kept
    · have positive : 0 < p.length := List.length_pos_iff.mpr empty
      have least := blocksFor_add one_pos
        (Nat.succ_le_of_lt (Nat.mod_lt (content i).length (show 0 < bsize by decide)))
      have larger := blocksFor_mono (show (content i).length + 1 ≤
        (content i).length + p.length by omega)
      obtain ⟨n1, d₁, disk₁, moves, fits, round, kept₁, type₁, before₁⟩ :=
        appendFrom_round (i := i) kept fuel empty (by omega) (by omega)
      have blocks := blocksFor_add moves.1 fits
      have rest : (content i).length + n1 + (p.drop n1).length =
          (content i).length + p.length := by
        rw [List.length_drop]
        omega
      have length₁ : (update content i (content i ++ p.take n1) i).length =
          (content i).length + n1 := by
        rw [update_self, List.length_append, List.length_take]
        omega
      have same : update files i d₁ i = d₁ := update_self _ _ _
      obtain ⟨d', disk', free', ran', kept', used, type, before'⟩ :=
        ih (p := p.drop n1) kept₁
          (by rw [List.length_drop]; omega) (by rw [length₁, rest]; exact short)
          (by rw [length₁, rest]; omega)
      rw [length₁, rest, same] at ran'
      rw [length₁, rest] at used
      rw [Function.update_idem, Function.update_idem, update_self, List.append_assoc,
        List.take_append_drop] at kept'
      rw [same] at type
      refine ⟨d', disk', free', round.trans ran', kept', by omega, type.trans type₁, ?_⟩
      intro b low
      exact (before' b low).trans (before₁ b low)

/-- A round that ends has found the blocks. -/
theorem mapBlock_room (kept : Kept files disk free content) (below : free ≤ fssize)
    (short : (content i).length < maxfile * bsize) {x free' : Nat}
    (ran : mapBlock ((content i).length / bsize) (files i) disk free =
      some (x, d', disk', free')) (inside : x < fssize) :
    free + newBlocks (content i).length ≤ fssize := by
  by_contra tooFew
  have inFile := div_lt_maxfile short
  have whole : (content i).length % bsize = 0 := by
    by_contra partly
    rw [newBlocks, if_neg partly, if_neg (ne_full_of_partly partly)] at tooFew
    omega
  have absent := place_end kept whole inFile
  rw [newBlocks, if_pos whole] at tooFew
  unfold mapBlock at ran
  by_cases direct : (content i).length / bsize < ndirect
  · -- the next block is the only one that is needed, and it is read
    rw [place_direct direct] at absent
    rw [if_pos direct, if_pos absent] at ran
    cases ran
    rw [if_neg (ne_full_of_direct direct)] at tooFew
    omega
  · rw [if_neg direct] at ran
    dsimp only at ran
    by_cases fresh : (files i).addrs ndirect = 0
    · rw [if_pos fresh, if_pos fresh, Dinode.setAddr_self] at ran
      split at ran
      · cases ran
      next buf found =>
        obtain ⟨_, rfl⟩ := rsect_some.mp found
        rw [if_pos (Bytes.get_zero fun k _ high => kept.fresh free le_rfl k (by
          unfold bsize maxfile ndirect nindirect at *
          omega))] at ran
        cases ran
        split at tooFew <;> omega
    · rw [if_neg fresh, if_neg fresh] at ran
      rw [place_indirect (Nat.le_of_not_lt direct) inFile fresh] at absent
      have notFull : (content i).length ≠ ndirect * bsize := fun full =>
        lt_irrefl _ (full ▸ (kept.indirect i).mp fresh)
      rw [if_neg notFull] at tooFew
      split at ran
      · cases ran
      next buf found =>
        obtain ⟨_, rfl⟩ := rsect_some.mp found
        rw [if_pos absent] at ran
        cases ran
        omega

/-- A call that returns has found room. -/
theorem appendFrom_room (kept : Kept files disk free content) (below : free ≤ fssize)
    (enough : p.length ≤ fuel) {r : Nat × Dinode × Disk × Nat}
    (ran : appendFrom fuel (content i).length p (files i) disk free = some r) :
    (content i).length + p.length ≤ maxfile * bsize ∧
      free + blocksFor ((content i).length + p.length) ≤ fssize + blocksFor (content i).length := by
  induction fuel generalizing files disk free content p with
  | zero =>
    obtain rfl := List.length_eq_zero_iff.mp (Nat.le_zero.mp enough)
    exact ⟨kept.length i, Nat.add_le_add_right below _⟩
  | succ fuel ih =>
    by_cases empty : p = []
    · subst empty
      exact ⟨kept.length i, Nat.add_le_add_right below _⟩
    · have notFull : (content i).length < maxfile * bsize := by
        by_contra full
        rw [appendFrom, if_neg empty] at ran
        dsimp only at ran
        rw [if_pos ((Nat.le_div_iff_mul_le (by decide)).mpr (Nat.le_of_not_lt full))] at ran
        cases ran
      have room : free + newBlocks (content i).length ≤ fssize := by
        have stays := ran
        rw [appendFrom, if_neg empty] at stays
        dsimp only at stays
        rw [if_neg (Nat.not_le.mpr (div_lt_maxfile notFull))] at stays
        split at stays
        · cases stays
        next x d' disk' free' found =>
          split at stays
          · cases stays
          next buf readBlock =>
            exact mapBlock_room kept below notFull found (rsect_some.mp readBlock).1
      obtain ⟨n1, d₁, disk₁, moves, fits, round, kept₁, -, -⟩ :=
        appendFrom_round (i := i) kept fuel empty notFull room
      have blocks := blocksFor_add moves.1 fits
      have rest : (content i).length + n1 + (p.drop n1).length =
          (content i).length + p.length := by
        rw [List.length_drop]
        omega
      have length₁ : (update content i (content i ++ p.take n1) i).length =
          (content i).length + n1 := by
        rw [update_self, List.length_append, List.length_take]
        omega
      have result := ih (p := p.drop n1) kept₁ room
        (by rw [List.length_drop]; omega)
        (by rw [length₁, update_self]; exact round.symm.trans ran)
      rw [length₁, rest] at result
      omega

/-! ## Whole calls -/

/-- Writing inodes does not matter to the files, as long as their addresses stay. -/
theorem Kept.inodes {files' : Nat → Dinode} (kept : Kept files disk free content)
    (fits : ∀ i, (files' i).Fits) (addrs : ∀ i, (files' i).addrs = (files i).addrs)
    (data : ∀ b, nmeta ≤ b → disk' b = disk b) : Kept files' disk' free content := by
  have same (i y : Nat) : place (files' i) disk' y = place (files i) disk y := by
    apply place_congr (fun _ => by rw [addrs]) (by rw [addrs])
    intro there
    apply data
    rw [← place_maxfile (files i) disk] at there ⊢
    exact (kept.owned.range i maxfile le_rfl there).1
  refine ⟨fits, kept.length, ?_, ?_, kept.owned.congr fun i y _ => same i y, ?_, ?_, kept.data⟩
  · intro i b bound
    rw [same]
    exact kept.mapped i b bound
  · intro i
    rw [addrs]
    exact kept.indirect i
  · intro i b o inside offset
    have bound : b < maxfile := Nat.lt_of_mul_lt_mul_right (lt_of_lt_of_le inside (kept.length i))
    have there := (kept.mapped i b bound).mpr inside
    rw [same, data _ (kept.owned.range i b bound.le there).1]
    exact kept.bytes i b o inside offset
  · intro b high o offset
    rw [data b (le_trans kept.data high)]
    exact kept.fresh b high o offset

/-- The blocks that all files take. -/
def used (content : Nat → List UInt8) : Nat :=
  ∑ i ∈ Finset.range ninodes, blocksFor (content i).length

theorem used_update (valid : i < ninodes) (content : Nat → List UInt8) (c : List UInt8) :
    used (update content i c) + blocksFor (content i).length =
      used content + blocksFor c.length := by
  have others : ∀ other ∈ Finset.range ninodes, other ≠ i →
      blocksFor (update content i c other).length = blocksFor (content other).length := by
    intro other _ different
    rw [update_of_ne different]
  have change := Tally.sum_change_on (Finset.mem_range.mpr valid) others
  rw [update_self] at change
  exact change

/-- The state of `mkfs` between calls. -/
structure Good (s : State) (files : Nat → Dinode) (content : Nat → List UInt8) : Prop where
  kept : Kept files s.disk s.freeblock content
  inodes : ∀ i, i < ninodes → dinodeAt s.disk sb i = files i
  size : ∀ i, (files i).size = (content i).length
  unused : ∀ i, i = 0 ∨ s.freeinode ≤ i → content i = [] ∧ (files i).addrs = fun _ => 0
  superblock : s.disk 1 = sbSector sb
  blocks : s.freeblock = nmeta + used content
  room : s.freeblock ≤ fssize
  first : 0 < s.freeinode
  types : ∀ i, 0 < i → i < s.freeinode → ∃ type : FileType, (files i).type = type.code

theorem blank_fits {type : Nat} (small : type < 2 ^ 16) : (blank type).Fits :=
  ⟨small, Nat.two_pow_pos 16, Nat.two_pow_pos 16, Nat.one_lt_two_pow (by decide),
    Nat.two_pow_pos 32, fun _ => Nat.two_pow_pos 32, fun _ _ => rfl⟩

theorem code_small (type : FileType) : type.code < 2 ^ 16 := by
  cases type <;> decide

variable {s : State}

theorem Good.ialloc (good : Good s files content) (valid : s.freeinode < ninodes)
    (type : FileType) :
    ∃ s', ialloc type s = some (s.freeinode, s') ∧ s'.freeinode = s.freeinode + 1 ∧
      Good s' (update files s.freeinode (blank type.code)) content := by
  obtain ⟨disk', ran, inodes, others⟩ :=
    winode_spec s.disk valid (blank_fits (code_small type))
  have bounds := iblock_bounds valid
  have start : nmeta = 59 := rfl
  obtain ⟨empty, noAddrs⟩ := good.unused s.freeinode (.inr le_rfl)
  have addrs : ∀ i, (update files s.freeinode (blank type.code) i).addrs =
      (files i).addrs := by
    refine fun i => Update.cases i ?_ fun _ => rfl
    rw [noAddrs]
    rfl
  refine ⟨{ s with disk := disk', freeinode := s.freeinode + 1 }, ?_, rfl, ?_⟩
  · rw [Mkfs.ialloc, ran]
    rfl
  · refine ⟨?_, ?_, ?_, ?_, ?_, good.blocks, good.room, Nat.succ_pos _, ?_⟩
    · apply good.kept.inodes _ addrs fun b high => others b (by omega)
      exact fun i => Update.cases i (blank_fits (code_small type)) fun _ => good.kept.fits i
    · intro i inside
      rw [inodes]
      by_cases same : i = s.freeinode
      · rw [if_pos same, same, update_self]
      · rw [if_neg same, update_of_ne same]
        exact good.inodes i inside
    · refine fun i => Update.cases i ?_ fun _ => good.size i
      rw [empty]
      rfl
    · intro i notUsed
      rw [addrs]
      apply good.unused
      dsimp only at notUsed
      omega
    · rw [← good.superblock]
      apply others
      unfold nlog at bounds
      omega
    · intro i positive below
      refine Update.cases i ⟨type, rfl⟩ fun isOther => good.types i positive ?_
      exact Nat.lt_of_le_of_ne (Nat.lt_succ_iff.mp below) isOther

variable {inum : Nat}

/-- What a call of `iappend` needs, and what it leaves. -/
theorem Good.iappend (good : Good s files content) (low : 0 < inum) (high : inum < s.freeinode)
    (valid : inum < ninodes) (short : (content inum).length + p.length ≤ maxfile * bsize)
    (room : nmeta + used (update content inum (content inum ++ p)) ≤ fssize) :
    ∃ s' d', iappend inum p s = some s' ∧ s'.freeinode = s.freeinode ∧
      d'.type = (files inum).type ∧
      Good s' (update files inum d')
        (update content inum (content inum ++ p)) := by
  have change := used_update valid content (content inum ++ p)
  rw [List.length_append] at change
  have blocks := good.blocks
  obtain ⟨d', disk', free', ran, kept, taken, type, before⟩ :=
    appendFrom_spec good.kept le_rfl short (by omega)
  have fits : Dinode.Fits { d' with size := (content inum).length + p.length } := by
    have old := kept.fits inum
    rw [update_self] at old
    have small : maxfile * bsize < 2 ^ 32 := by decide
    exact ⟨old.type, old.major, old.minor, old.nlink, lt_of_le_of_lt short small, old.addrs,
      old.beyond⟩
  obtain ⟨disk'', wrote, inodes, others⟩ := winode_spec disk' valid fits
  have bounds := iblock_bounds valid
  have start : nmeta = 59 := rfl
  have logs : nlog = 30 := rfl
  refine ⟨{ s with disk := disk'', freeblock := free' },
    { d' with size := (content inum).length + p.length }, ?_, rfl, type, ?_⟩
  · rw [Mkfs.iappend, rinode_eq valid, good.inodes inum valid]
    dsimp only
    rw [good.size, ran]
    dsimp only
    rw [wrote]
    rfl
  · refine ⟨?_, ?_, ?_, ?_, ?_, ?_, ?_, good.first, ?_⟩
    · apply kept.inodes _ _ fun b data => others b (by omega)
      · exact fun i => Update.cases i fits fun _ => good.kept.fits i
      · exact fun i => Update.cases₂ i rfl fun _ => rfl
    · intro i inside
      rw [inodes]
      by_cases same : i = inum
      · rw [if_pos same, same, update_self]
      · rw [if_neg same, update_of_ne same, ← good.inodes i inside, dinodeAt, dinodeAt,
          before _ (by have := iblock_bounds inside; omega)]
    · exact fun i => Update.cases₂ i List.length_append.symm fun _ => good.size i
    · intro i notUsed
      have different : i ≠ inum := by
        dsimp only at notUsed
        omega
      rw [update_of_ne different, update_of_ne different]
      exact good.unused i notUsed
    · exact (others 1 (by omega)).trans ((before 1 (by omega)).trans good.superblock)
    · dsimp only
      omega
    · dsimp only
      omega
    · intro i positive below
      refine Update.cases i ?_ fun _ => good.types i positive below
      obtain ⟨kind, isKind⟩ := good.types inum low high
      exact ⟨kind, type.trans isKind⟩

/-- A call of `iappend` that returns had what it needs. -/
theorem Good.iappend_room (good : Good s files content) (valid : inum < ninodes) {s' : State}
    (ran : Mkfs.iappend inum p s = some s') :
    (content inum).length + p.length ≤ maxfile * bsize ∧
      nmeta + used (update content inum (content inum ++ p)) ≤ fssize := by
  have change := used_update valid content (content inum ++ p)
  rw [List.length_append] at change
  have blocks := good.blocks
  rw [Mkfs.iappend, rinode_eq valid, good.inodes inum valid] at ran
  dsimp only at ran
  rw [good.size] at ran
  split at ran
  · cases ran
  next appended =>
    have result := appendFrom_room good.kept good.room le_rfl appended
    omega

/-! ## The start -/

/-- The image when the first inode is allocated: zeroes and the super block. -/
def State.start : State where
  disk := wsect (fun _ _ => 0) 1 (sbSector sb)
  freeinode := 1
  freeblock := nmeta

def Dinode.zero : Dinode :=
  ⟨0, 0, 0, 0, 0, fun _ => 0⟩

theorem loadDinode_zero (slot : Nat) : loadDinode (fun _ => 0) slot = Dinode.zero := by
  have none_ (off width : Nat) : get (fun _ => 0) off width = 0 := Bytes.get_zero fun _ _ _ => rfl
  simp only [loadDinode, none_, ite_self, Dinode.zero]

theorem place_zero (disk : Disk) (y : Nat) : place Dinode.zero disk y = 0 := by
  unfold place
  split
  · rfl
  · split
    · rfl
    · exact if_pos rfl

theorem Good.start : Good State.start (fun _ => Dinode.zero) fun _ => [] := by
  have past {b : Nat} (high : b ≠ 1) : State.start.disk b = fun _ => 0 := by
    simp only [State.start, wsect, update_of_ne high]
  have first : 1 < nmeta := by decide
  refine ⟨⟨fun _ => ⟨?_, ?_, ?_, ?_, ?_, fun _ => ?_, fun _ _ => rfl⟩, fun _ => Nat.zero_le _, ?_, ?_,
    ⟨?_, ?_, ?_⟩, ?_, ?_, le_rfl⟩, ?_, fun _ => rfl, fun _ _ => ⟨rfl, rfl⟩, ?_, ?_, ?_, ?_, ?_⟩
  all_goals try exact Nat.two_pow_pos _
  · intro i b _
    simp only [place_zero, ne_eq, not_true_eq_false, List.length_nil, Nat.not_lt_zero]
  · intro i
    simp only [Dinode.zero, ne_eq, not_true_eq_false, List.length_nil, Nat.not_lt_zero]
  · intro i y _ there
    exact absurd (place_zero _ _) there
  · intro i j x y _ _ _ there
    exact absurd (place_zero _ _) there
  · intro b low high
    exact absurd (lt_of_le_of_lt low high) (lt_irrefl _)
  · intro i b o inside
    exact absurd inside (Nat.not_lt_zero _)
  · intro b high o _
    rw [past (by change nmeta ≤ b at high; omega)]
  · intro i valid
    have bounds := iblock_bounds valid
    rw [dinodeAt, past (by omega), loadDinode_zero]
  · simp only [State.start, wsect, update_self]
  · simp only [used, List.length_nil, show blocksFor 0 = 0 from rfl, Finset.sum_const_zero,
      Nat.add_zero]
    rfl
  · decide
  · exact one_pos
  · intro i low high
    change i < 1 at high
    omega

end Xv6.Mkfs
