import Xv6.Mkfs.Image

/-!
Blocks of the file system.

Owns: what the blocks of the disk hold, as `bread` shows it, and which of them were passed to
`log_write`; the bitmap of the blocks in use; `bzero`, `balloc` and `bfree` of the kernel; and that
`balloc` takes one free block for as long as there is one.

Does not own: the buffer cache and the log behind `bread` and `log_write` (`Xv6.Bio`, `Xv6.Log`);
the blocks that `mkfs` marks (`Xv6.Mkfs.Image`).
-/

namespace Xv6.Inode

open Function (update_self update_of_ne)

open Mkfs (Sector Disk Superblock bsize marked)

structure Volume where
  disk : Disk
  /-- The arguments of `log_write`, the last one first. -/
  logged : List Nat

/-- A buffer is changed and passed to `log_write`. -/
def Volume.logWrite (v : Volume) (b : Nat) (data : Sector) : Volume :=
  ⟨Function.update v.disk b data, b :: v.logged⟩

@[simp] theorem Volume.logWrite_self (v : Volume) (b : Nat) (data : Sector) :
    (v.logWrite b data).disk b = data := by
  simp only [Volume.logWrite, update_self]

theorem Volume.logWrite_other (v : Volume) {b c : Nat} (different : c ≠ b) (data : Sector) :
    (v.logWrite b data).disk c = v.disk c := by
  simp only [Volume.logWrite, update_of_ne different]

/-- `BPB`: bits in a block of the bitmap. -/
def bpb : Nat := bsize * 8

/-- `BBLOCK`: the block of the bitmap with the bit for `b`. -/
def bblock (b : Nat) (sb : Superblock) : Nat :=
  b / bpb + sb.bmapstart

/-- The block is marked in the bitmap. -/
def used (sb : Superblock) (disk : Disk) (b : Nat) : Prop :=
  marked (disk (bblock b sb)) (b % bpb)

instance (buf : Sector) (b : Nat) : Decidable (marked buf b) :=
  inferInstanceAs (Decidable (_ ≠ _))

instance (sb : Superblock) (disk : Disk) (b : Nat) : Decidable (used sb disk b) :=
  inferInstanceAs (Decidable (marked _ _))

/-! ## Allocation -/

def bzero (v : Volume) (bno : Nat) : Volume :=
  v.logWrite bno fun _ => 0

/-- `bp->data[bi/8] |= m`. -/
def setBit (buf : Sector) (bi : Nat) : Sector :=
  Function.update buf (bi / 8) (UInt8.ofNat ((buf (bi / 8)).toNat ||| 1 <<< (bi % 8)))

/-- The inner loop of `balloc`: the first bit that is clear. -/
def findBit (buf : Sector) (bits : Nat) : Option Nat :=
  (List.range bits).find? fun bi => !decide (marked buf bi)

/-- The outer loop of `balloc` from `b`. -/
def findBlock (sb : Superblock) (disk : Disk) : Nat → Nat → Option (Nat × Nat)
  | 0, _ => none
  | fuel + 1, b =>
    if b < sb.size then
      match findBit (disk (bblock b sb)) (min bpb (sb.size - b)) with
      | some bi => some (b, bi)
      | none => findBlock sb disk fuel (b + bpb)
    else none

/-- Without a free block `balloc` panics. -/
def balloc (sb : Superblock) (v : Volume) : Option (Nat × Volume) :=
  match findBlock sb v.disk sb.size 0 with
  | none => none
  | some (b, bi) =>
    let v := v.logWrite (bblock b sb) (setBit (v.disk (bblock b sb)) bi)
    some (b + bi, bzero v (b + bi))

/-- `bp->data[bi/8] &= ~m`. -/
def clearBit (buf : Sector) (bi : Nat) : Sector :=
  Function.update buf (bi / 8) (buf (bi / 8) &&& ~~~UInt8.ofNat (1 <<< (bi % 8)))

/-- The kernel panics if the block is free. -/
def bfree (sb : Superblock) (b : Nat) (v : Volume) : Option Volume :=
  if marked (v.disk (bblock b sb)) (b % bpb) then
    some (v.logWrite (bblock b sb) (clearBit (v.disk (bblock b sb)) (b % bpb)))
  else none

/-! ## Bits -/

theorem marked_setBit {buf : Sector} {bi b : Nat} :
    marked (setBit buf bi) b ↔ b = bi ∨ marked buf b := by
  rw [Mkfs.marked_iff_testBit, Mkfs.marked_iff_testBit, setBit]
  by_cases sameByte : b / 8 = bi / 8
  · have width : b % 8 < 8 := Nat.mod_lt b (by decide)
    rw [sameByte, update_self, UInt8.toNat_ofNat', Nat.testBit_mod_two_pow,
      decide_eq_true width, Bool.true_and, Nat.testBit_or, Bool.or_eq_true, Nat.one_shiftLeft,
      Nat.testBit_two_pow, decide_eq_true_iff, or_comm]
    have position : bi % 8 = b % 8 ↔ b = bi := by omega
    rw [position]
  · have different : b ≠ bi := by
      rintro rfl
      exact sameByte rfl
    rw [update_of_ne sameByte, or_iff_right different]

theorem findBit_some {buf : Sector} {bits bi : Nat} (found : findBit buf bits = some bi) :
    bi < bits ∧ ¬marked buf bi := by
  have clear := List.find?_some found
  have inside := List.mem_of_find?_eq_some found
  rw [Bool.not_eq_true', decide_eq_false_iff_not] at clear
  exact ⟨List.mem_range.mp inside, clear⟩

theorem findBit_none {buf : Sector} {bits bi : Nat} (missing : findBit buf bits = none)
    (inside : bi < bits) : marked buf bi := by
  have set_ := List.find?_eq_none.mp missing bi (List.mem_range.mpr inside)
  rw [Bool.not_eq_true', decide_eq_false_iff_not, not_not] at set_
  exact set_

variable {sb : Superblock} {disk : Disk} {b bi : Nat}

theorem div_mod_of_aligned (aligned : b % bpb = 0) (small : bi < bpb) :
    (b + bi) / bpb = b / bpb ∧ (b + bi) % bpb = bi := by
  have whole := Nat.div_add_mod b bpb
  rw [aligned, Nat.add_zero] at whole
  have positive : 0 < bpb := by decide
  constructor
  · rw [← whole, Nat.mul_add_div positive, Nat.mul_div_cancel_left _ positive,
      Nat.div_eq_of_lt small, Nat.add_zero]
  · rw [← whole, Nat.mul_add_mod, Nat.mod_eq_of_lt small]

theorem findBlock_some {fuel start : Nat} (aligned : start % bpb = 0)
    (found : findBlock sb disk fuel start = some (b, bi)) :
    b % bpb = 0 ∧ bi < bpb ∧ b + bi < sb.size ∧ ¬marked (disk (bblock b sb)) bi := by
  induction fuel generalizing start with
  | zero => cases found
  | succ fuel ih =>
    rw [findBlock] at found
    split at found
    · split at found
      · rename_i inside _ bit clear
        cases found
        obtain ⟨small, free⟩ := findBit_some clear
        exact ⟨aligned, by omega, by omega, free⟩
      · exact ih (by rw [Nat.add_mod_right, aligned]) found
    · cases found

/-- The search ends with nothing only where every block is in use. -/
theorem findBlock_none {fuel start : Nat} (aligned : start % bpb = 0)
    (enough : sb.size ≤ start + fuel) (missing : findBlock sb disk fuel start = none) {c : Nat}
    (low : start ≤ c) (high : c < sb.size) : used sb disk c := by
  induction fuel generalizing start with
  | zero => omega
  | succ fuel ih =>
    have positive : 0 < bpb := by decide
    rw [findBlock, if_pos (by omega)] at missing
    split at missing
    · cases missing
    · rename_i absent
      by_cases near : c - start < bpb
      · obtain ⟨quotient, remainder⟩ := div_mod_of_aligned aligned near
        rw [Nat.add_sub_of_le low] at quotient remainder
        rw [used, bblock, quotient, remainder]
        exact findBit_none absent (by omega)
      · exact ih (by rw [Nat.add_mod_right, aligned]) (by omega) missing (by omega)

/-! ## The blocks in use -/

/-- The free blocks. -/
def freeBlocks (sb : Superblock) (disk : Disk) : Finset Nat :=
  (Finset.range sb.size).filter fun b => ¬used sb disk b

theorem freeBlocks_erase {sb : Superblock} {disk disk' : Disk} {b : Nat}
    (marks : ∀ c, c < sb.size → (used sb disk' c ↔ c = b ∨ used sb disk c)) :
    freeBlocks sb disk' = (freeBlocks sb disk).erase b := by
  ext c
  simp only [freeBlocks, Finset.mem_erase, Finset.mem_filter, Finset.mem_range]
  constructor
  · rintro ⟨below, free⟩
    rw [marks c below, not_or] at free
    exact ⟨free.1, below, free.2⟩
  · rintro ⟨different, below, free⟩
    refine ⟨below, ?_⟩
    rw [marks c below, not_or]
    exact ⟨different, free⟩

/-- What `balloc` does when it returns `b`. -/
structure Allocated (sb : Superblock) (v : Volume) (b : Nat) (v' : Volume) : Prop where
  below : b < sb.size
  free : ¬used sb v.disk b
  disk : v'.disk = Function.update (Function.update v.disk (bblock b sb)
    (setBit (v.disk (bblock b sb)) (b % bpb))) b fun _ => 0
  logged : v'.logged = b :: bblock b sb :: v.logged

/-- What `balloc` can do. -/
theorem balloc_cases (sb : Superblock) (v : Volume) :
    (balloc sb v = none ∧ freeBlocks sb v.disk = ∅) ∨
      ∃ b v', balloc sb v = some (b, v') ∧ Allocated sb v b v' := by
  unfold balloc
  cases found : findBlock sb v.disk sb.size 0 with
  | none =>
    refine .inl ⟨rfl, ?_⟩
    apply Finset.filter_eq_empty_iff.mpr
    intro b below free
    refine free (findBlock_none (Nat.zero_mod bpb) ?_ found (Nat.zero_le b) ?_)
    · omega
    · exact Finset.mem_range.mp below
  | some place =>
    obtain ⟨b, bi⟩ := place
    obtain ⟨aligned, small, below, clear⟩ := findBlock_some (Nat.zero_mod bpb) found
    obtain ⟨quotient, remainder⟩ := div_mod_of_aligned aligned small
    have block : bblock (b + bi) sb = bblock b sb := by
      rw [bblock, bblock, quotient]
    refine .inr ⟨b + bi, _, rfl, below, ?_, ?_, ?_⟩
    · rw [used, block, remainder]
      exact clear
    · rw [block, remainder]
      rfl
    · rw [block]
      rfl

namespace Allocated

variable {v v' : Volume}

theorem zeroed (made : Allocated sb v b v') : v'.disk b = fun _ => 0 := by
  rw [made.disk, update_self]

theorem others (made : Allocated sb v b v') {c : Nat} (different : c ≠ b)
    (notBitmap : c ≠ bblock b sb) : v'.disk c = v.disk c := by
  rw [made.disk, update_of_ne different, update_of_ne notBitmap]

/-- One block more is marked, if it is not one of the bitmap. -/
theorem used_iff (made : Allocated sb v b v') (data : ∀ c, c < sb.size → bblock c sb ≠ b) {c : Nat}
    (below : c < sb.size) : used sb v'.disk c ↔ c = b ∨ used sb v.disk c := by
  rw [used, used, made.disk, update_of_ne (data c below)]
  by_cases same : bblock c sb = bblock b sb
  · have bit : c % bpb = b % bpb ↔ c = b := by
      have quotient : c / bpb = b / bpb := Nat.add_right_cancel same
      have first := Nat.div_add_mod c bpb
      have second := Nat.div_add_mod b bpb
      constructor
      · intro remainder
        rw [← first, ← second, quotient, remainder]
      · rintro rfl
        rfl
    rw [same, update_self, marked_setBit, bit]
  · have different : c ≠ b := by
      rintro rfl
      exact same rfl
    rw [update_of_ne same, or_iff_right different]

end Allocated

end Xv6.Inode
