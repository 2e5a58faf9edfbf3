import Xv6.Bio.Cache
import Xv6.Inode.ReadWrite

/-!
How many blocks a write logs.

Owns: the blocks that one `writei` passes to `log_write`, counted; and that for a piece of
`filewrite` they fit into what `begin_op` has reserved.

Does not own: the reservation (`Xv6.Log.Reservation`); the pieces (`Xv6.Inode.FileWrite`).
-/

namespace Xv6.Inode

open Bio (maxopblocks)
open Mkfs (Superblock Dinode bsize ndirect maxfile iblock dinodeAt place tDev)

/-- `max` of `filewrite`: what a piece may have at most. -/
def maxChunk : Nat := (maxopblocks - 1 - 1 - 2) / 2 * 512

section Count

variable {sb : Superblock} {inum off n : Nat} {src : List UInt8} {ip ip' : Dinode} {v v' : Volume}

/-- The blocks of the file that are written and had to be allocated. -/
def newBlocks (off n : Nat) (ip : Dinode) (v : Volume) : Finset Nat :=
  (touchedBy off n).filter fun z => place ip v.disk z = 0

/-- Where the blocks that are logged can be. -/
def logSet (sb : Superblock) (inum off n : Nat) (ip : Dinode) (v : Volume) (ip' : Dinode) (v' : Volume) :
    Finset Nat :=
  (touchedBy off n).image (place ip' v'.disk) ∪
    (newBlocks off n ip v).image (fun z => bblock (place ip' v'.disk z) sb) ∪
    {place ip' v'.disk maxfile, bblock (place ip' v'.disk maxfile) sb, iblock inum sb}

/-- Every reason to log a block is one of the write's. -/
theorem Reason.mem_logSet
    (only : ∀ z, New ip v ip' v' z → z ∈ neededBy off n) {c : Nat}
    (reason : Reason sb (touchedBy off n) ip v ip' v' c) : c ∈ logSet sb inum off n ip v ip' v' := by
  have split {z : Nat} (isNew : New ip v ip' v' z) : z ∈ newBlocks off n ip v ∨ z = maxfile := by
    rcases mem_neededBy.mp (only z isNew) with isTouched | ⟨isLast, _⟩
    · exact .inl (Finset.mem_filter.mpr ⟨isTouched, isNew.2.1⟩)
    · exact .inr isLast
  simp only [logSet, Finset.mem_union, Finset.mem_insert, Finset.mem_singleton, Finset.mem_image]
  cases reason with
  | data written there => exact .inl (.inl ⟨_, written, rfl⟩)
  | zeroed isNew =>
    rcases split isNew with isBlock | rfl
    · exact .inl (.inl ⟨_, (Finset.mem_filter.mp isBlock).1, rfl⟩)
    · exact .inr (.inl rfl)
  | bitmap isNew =>
    rcases split isNew with isBlock | rfl
    · exact .inl (.inr ⟨_, isBlock, rfl⟩)
    · exact .inr (.inr (.inl rfl))
  | addresses there isNew low high => exact .inr (.inl rfl)

/-- The bytes of a piece are in consecutive blocks. -/
theorem touchedBy_subset (last : Nat) (ends : off % bsize + n ≤ last * bsize) :
    touchedBy off n ⊆ Finset.Ico (off / bsize) (off / bsize + last) := by
  intro z member
  obtain ⟨_, low, high⟩ := mem_touchedBy.mp member
  rw [Finset.mem_Ico]
  constructor
  · exact Nat.lt_succ_iff.mp ((Nat.div_lt_iff_lt_mul (by decide)).mpr low)
  · have whole := Nat.div_add_mod off bsize
    rw [Nat.mul_comm] at whole
    have past : off + n ≤ (off / bsize + last) * bsize := by
      rw [Nat.add_mul]
      omega
    exact Nat.lt_of_mul_lt_mul_right (lt_of_lt_of_le high past)

/-- A piece that starts within a block finds this block allocated. -/
theorem touched_new_le (file : File sb inum ip v) (start : off ≤ ip.size) (chunk : n ≤ maxChunk) :
    (touchedBy off n).card + (newBlocks off n ip v).card ≤ 7 := by
  have size : maxChunk = 3 * bsize := by decide
  have inBlock := Nat.mod_lt off (show 0 < bsize by decide)
  have fewer : (newBlocks off n ip v).card ≤ (touchedBy off n).card :=
    Finset.card_le_card (Finset.filter_subset _ _)
  by_cases aligned : off % bsize = 0
  · have three : touchedBy off n ⊆ _ := touchedBy_subset 3 (by omega)
    have count := Finset.card_le_card three
    rw [Nat.card_Ico] at count
    omega
  · have four : touchedBy off n ⊆ _ := touchedBy_subset 4 (by omega)
    have later : newBlocks off n ip v ⊆ Finset.Ico (off / bsize + 1) (off / bsize + 4) := by
      intro z member
      obtain ⟨isTouched, absent⟩ := Finset.mem_filter.mp member
      have within := four isTouched
      rw [Finset.mem_Ico] at within ⊢
      have notFirst : z ≠ off / bsize := by
        rintro rfl
        refine file.noHoles _ (lt_of_lt_of_le ?_ start) absent
        have whole := Nat.div_add_mod off bsize
        rw [Nat.mul_comm] at whole
        omega
      omega
    have count := Finset.card_le_card four
    have countNew := Finset.card_le_card later
    rw [Nat.card_Ico] at count countNew
    omega

theorem card_logSet_le (file : File sb inum ip v) (start : off ≤ ip.size) (chunk : n ≤ maxChunk) :
    (logSet sb inum off n ip v ip' v').card ≤ maxopblocks := by
  have data : ((touchedBy off n).image (place ip' v'.disk)).card ≤ (touchedBy off n).card :=
    Finset.card_image_le
  have bits : ((newBlocks off n ip v).image fun z => bblock (place ip' v'.disk z) sb).card ≤
      (newBlocks off n ip v).card := Finset.card_image_le
  have few := touched_new_le file start chunk
  have three : Finset.card {place ip' v'.disk maxfile, bblock (place ip' v'.disk maxfile) sb,
      iblock inum sb} ≤ 3 := Finset.card_le_three
  have first := Finset.card_union_le ((touchedBy off n).image (place ip' v'.disk))
    ((newBlocks off n ip v).image fun z => bblock (place ip' v'.disk z) sb)
  have second := Finset.card_union_le
    ((touchedBy off n).image (place ip' v'.disk) ∪
      (newBlocks off n ip v).image fun z => bblock (place ip' v'.disk z) sb)
    {place ip' v'.disk maxfile, bblock (place ip' v'.disk maxfile) sb, iblock inum sb}
  unfold logSet maxopblocks
  omega

/-- After the loop only the inode's block is logged. -/
theorem finishWrite_logged {c : Nat}
    (member : c ∈ (finishWrite sb inum off src ip v).2.2.logged) :
    c ∈ v.logged ∨ c = iblock inum sb := by
  unfold finishWrite at member
  split at member
  · rcases List.mem_cons.mp member with isInode | old
    · exact .inr isInode
    · exact .inl old
  · exact .inl member

/-- A piece of a write, at any offset of a file without holes, logs no more blocks than one
operation may. -/
theorem writei_logs_at_most (devsw : Devsw) (file : File sb inum ip v) (notDevice : ip.type ≠ tDev)
    (fresh : v.logged = []) (start : off ≤ ip.size) (chunk : src.length ≤ maxChunk)
    (short : off + src.length ≤ maxfile * bsize) {r : Int}
    (ran : writei devsw sb inum ip src off v = some (r, ip', v')) :
    v'.logged.dedup.length ≤ maxopblocks := by
  rcases writei_cases devsw file notDevice start short with ⟨failed, _⟩ | ⟨ip₁, v₁, ends, written⟩
  · rw [failed] at ran
    cases ran
  have finished := Option.some.inj (ends.symm.trans ran)
  have logged : v'.logged.toFinset ⊆ logSet sb inum off src.length ip v ip₁ v₁ := by
    intro c member
    rw [List.mem_toFinset] at member
    have isLogged : c ∈ (finishWrite sb inum (off + src.length) src ip₁ v₁).2.2.logged := by
      rw [finished]
      exact member
    rcases finishWrite_logged isLogged with early | rfl
    · rcases written.changed.logged c early with old | reason
      · rw [fresh] at old
        cases old
      · exact reason.mem_logSet written.changed.only
    · unfold logSet
      simp
  rw [← List.card_toFinset]
  exact le_trans (Finset.card_le_card logged) (card_logSet_le file start chunk)

end Count

theorem writei_logs_smallVolume :
    ∃ ip' v', writei ⟨fun _ => none, fun _ => none⟩ smallSb 0 emptyFile [1, 2, 3] 0 smallVolume =
      some (3, ip', v') ∧ v'.logged.dedup.length ≤ maxopblocks := by
  obtain ⟨ip', v', ran, _⟩ := @writei_overwrites smallSb 0 0 [1, 2, 3] emptyFile smallVolume
    ⟨fun _ => none, fun _ => none⟩ smallVolume_file (by decide) (by decide) (by decide)
    (by decide +kernel)
  exact ⟨ip', v', ran, writei_logs_at_most _ smallVolume_file (by decide) rfl (by decide) (by decide)
    (by decide) ran⟩

end Xv6.Inode
