import Xv6.Inode.Reservation

/-!
Writes in pieces.

Owns: `filewrite` of the kernel on an inode; what the pieces of a write come to; and when
`filewrite` does the same as one call of `writei`.

Does not own: writers that share a file (`Xv6.Inode.SharedOffset`); `pipewrite` (`Xv6.Pipe`).
-/

namespace Xv6.Inode

open Mkfs (Superblock Dinode bsize ndirect maxfile dinodeAt place tDev FileType)
open Overwrite (overwrite)

inductive FdType where
  | none
  | pipe
  | inode
  deriving DecidableEq

/-- `struct file`, of which the pipe and the inode are elsewhere. -/
structure OpenFile where
  type : FdType
  writable : Bool
  off : Nat
  deriving DecidableEq

/-- The loop of `filewrite`: the number of bytes written, and the offset. `filewrite` panics if
`writei` has written less than the piece. -/
def writeChunks (devsw : Devsw) (sb : Superblock) (inum : Nat) (addr : List UInt8) :
    Nat → Nat → Nat → Dinode → Volume → Option (Nat × Nat × Dinode × Volume)
  | 0, i, off, ip, v => some (i, off, ip, v)
  | fuel + 1, i, off, ip, v =>
    if i < addr.length then
      let n1 := min (addr.length - i) maxChunk
      match writei devsw sb inum ip ((addr.drop i).take n1) off v with
      | none => none
      | some (r, ip, v) =>
        let off := if 0 < r then (off + r.toNat) % 2 ^ 32 else off
        if r < 0 then some (i, off, ip, v)
        else if r ≠ n1 then none
        else writeChunks devsw sb inum addr fuel (i + n1) off ip v
    else some (i, off, ip, v)

/-- What `filewrite` returns, the file, and the inode; on a pipe it is `pipewrite`. -/
def filewrite (devsw : Devsw) (pipewrite : List UInt8 → Int) (sb : Superblock) (inum : Nat)
    (f : OpenFile) (addr : List UInt8) (ip : Dinode) (v : Volume) :
    Option (Int × OpenFile × Dinode × Volume) :=
  if f.writable = false then some (-1, f, ip, v)
  else
    match f.type with
    | .pipe => some (pipewrite addr, f, ip, v)
    | .inode =>
      (writeChunks devsw sb inum addr addr.length 0 f.off ip v).map fun (i, off, ip, v) =>
        (if i = addr.length then (addr.length : Int) else -1, { f with off := off }, ip, v)
    | .none => none

variable {addr : List UInt8} {fuel i : Nat}

/-! ## The pieces -/

section Pieces

variable {sb : Superblock} {inum off n : Nat} {ip ip' : Dinode} {v v' : Volume}

theorem Room.mono {needed all : Finset Nat} {disk : Mkfs.Disk} (le : needed ⊆ all)
    (room : Room sb all ip disk) : Room sb needed ip disk :=
  le_trans (Finset.card_le_card (Finset.filter_subset_filter _ le)) room

theorem neededBy_subset {off' n' : Nat} (start : off ≤ off') (ends : off' + n' ≤ off + n) :
    neededBy off' n' ⊆ neededBy off n := by
  intro z member
  rw [mem_neededBy, mem_touchedBy] at member ⊢
  omega

/-- What the loop of `filewrite` comes to: it stops at the end of the buffer, or after some whole
pieces, before the one that would pass the limit. -/
structure Pieces (sb : Superblock) (inum : Nat) (addr : List UInt8) (i off : Nat) (ip : Dinode)
    (v : Volume) (j off' : Nat) (ip' : Dinode) (v' : Volume) : Prop where
  file : File sb inum ip' v'
  low : i ≤ j
  high : j ≤ addr.length
  offset : off' = off + (j - i)
  content : content ip' v'.disk = overwrite (content ip v.disk) off ((addr.drop i).take (j - i))
  within : off' ≤ maxfile * bsize
  stops : j = addr.length ∨ (∃ count, j - i = count * maxChunk) ∧
    maxfile * bsize < off' + min (addr.length - j) maxChunk

theorem maxChunk_pos : 0 < maxChunk := by decide

section Stops

variable {j off' : Nat}

theorem Pieces.all (pieces : Pieces sb inum addr i off ip v j off' ip' v') :
    j = addr.length ↔ off + (addr.length - i) ≤ maxfile * bsize := by
  have low := pieces.low
  have high := pieces.high
  have offset := pieces.offset
  have within := pieces.within
  rcases pieces.stops with whole | ⟨-, passes⟩
  · omega
  · have positive := maxChunk_pos
    omega

theorem Pieces.nothing (pieces : Pieces sb inum addr i off ip v j off' ip' v') :
    j = i ↔ i = addr.length ∨ maxfile * bsize < off + min (addr.length - i) maxChunk := by
  have low := pieces.low
  have high := pieces.high
  have offset := pieces.offset
  have within := pieces.within
  rcases pieces.stops with whole | ⟨⟨count, pieces_⟩, passes⟩
  · omega
  · cases count with
    | zero => simp only [Nat.zero_mul] at pieces_; omega
    | succ count =>
      rw [Nat.succ_mul] at pieces_
      have positive := maxChunk_pos
      omega

end Stops

/-- The piece of the buffer at `i`. -/
def piece (addr : List UInt8) (i : Nat) : List UInt8 :=
  (addr.drop i).take (min (addr.length - i) maxChunk)

theorem length_piece (addr : List UInt8) (i : Nat) :
    (piece addr i).length = min (addr.length - i) maxChunk := by
  rw [piece, List.length_take, List.length_drop, Nat.min_assoc, Nat.min_comm maxChunk,
    ← Nat.min_assoc, Nat.min_self]

theorem writeChunks_continues (devsw : Devsw) (more : i < addr.length)
    (small : off + (piece addr i).length < 2 ^ 32)
    (ran : writei devsw sb inum ip (piece addr i) off v =
      some (((piece addr i).length : Int), ip', v')) :
    writeChunks devsw sb inum addr (fuel + 1) i off ip v =
      writeChunks devsw sb inum addr fuel (i + (piece addr i).length) (off + (piece addr i).length)
        ip' v' := by
  have positive := maxChunk_pos
  have some_ : (0 : Int) < ((piece addr i).length : Int) := by
    rw [length_piece]
    omega
  have length : ((min (addr.length - i) maxChunk : Nat) : Int) = ((piece addr i).length : Int) :=
    congrArg Nat.cast (length_piece addr i).symm
  rw [writeChunks, if_pos more]
  change (match writei devsw sb inum ip (piece addr i) off v with
    | none => none
    | some (r, ip, v) => _) = _
  rw [ran]
  dsimp only
  rw [length, if_pos some_, if_neg some_.le.not_gt, if_neg (fun different => different rfl),
    Int.toNat_natCast, Nat.mod_eq_of_lt small, ← length_piece]

theorem writeChunks_stops (devsw : Devsw) (more : i < addr.length)
    (ran : writei devsw sb inum ip (piece addr i) off v = some (-1, ip, v)) :
    writeChunks devsw sb inum addr (fuel + 1) i off ip v = some (i, off, ip, v) := by
  rw [writeChunks, if_pos more]
  change (match writei devsw sb inum ip (piece addr i) off v with
    | none => none
    | some (r, ip, v) => _) = _
  rw [ran]
  rfl

/-- Nothing is written. -/
theorem Pieces.stop (file : File sb inum ip v) (low : i ≤ addr.length)
    (within : off ≤ maxfile * bsize)
    (stops : i = addr.length ∨ maxfile * bsize < off + min (addr.length - i) maxChunk) :
    Pieces sb inum addr i off ip v i off ip v := by
  refine ⟨file, le_rfl, low, by omega, ?_, within, stops.imp_right fun passes => ⟨⟨0, by omega⟩, passes⟩⟩
  rw [Nat.sub_self, List.take_zero, Overwrite.overwrite_nil]

/-- One piece, and then the rest. -/
theorem Pieces.cons {j off' : Nat} {ip'' : Dinode} {v'' : Volume} (more : i < addr.length)
    (start : off ≤ ip.size) (within : off + (piece addr i).length ≤ maxfile * bsize)
    (written : Overwritten sb inum off (piece addr i) ip v ip' v')
    (rest : Pieces sb inum addr (i + (piece addr i).length) (off + (piece addr i).length) ip' v' j off'
      ip'' v'') : Pieces sb inum addr i off ip v j off' ip'' v'' := by
  have positive := maxChunk_pos
  have length := length_piece addr i
  have low := rest.low
  have offset := rest.offset
  have high := rest.high
  refine ⟨rest.file, by omega, rest.high, by omega, ?_, rest.within, ?_⟩
  case refine_2 =>
    by_cases whole : j = addr.length
    · exact .inl whole
    · obtain ⟨⟨count, later⟩, passes⟩ := rest.stops.resolve_left whole
      refine .inr ⟨⟨count + 1, ?_⟩, passes⟩
      rw [Nat.succ_mul]
      omega
  have inside : off ≤ (Inode.content ip v.disk).length := by
    rw [length_content]
    exact start
  rw [rest.content, written.content, Overwrite.overwrite_append inside]
  congr 1
  have parts : (addr.drop i).take (j - i) =
      piece addr i ++ ((addr.drop i).drop (piece addr i).length).take
        (j - i - (piece addr i).length) := by
    rw [piece] at length ⊢
    rw [length, ← List.take_add, Nat.add_sub_of_le (by rw [piece, length] at low; omega)]
  rw [parts, List.drop_drop, Nat.sub_sub]

theorem writeChunks_spec (devsw : Devsw) (file : File sb inum ip v) (notDevice : ip.type ≠ tDev)
    (start : off ≤ ip.size) (low : i ≤ addr.length) (enough : addr.length - i ≤ fuel)
    (fits : addr.length < 2 ^ 31)
    (room : Room sb (neededBy off (min (addr.length - i) (maxfile * bsize - off))) ip v.disk) :
    ∃ j off' ip' v', writeChunks devsw sb inum addr fuel i off ip v = some (j, off', ip', v') ∧
      Pieces sb inum addr i off ip v j off' ip' v' := by
  have limit : maxfile * bsize < 2 ^ 31 := by decide
  have positive := maxChunk_pos
  induction fuel generalizing i off ip v with
  | zero =>
    have size := file.size
    exact ⟨i, off, ip, v, rfl, .stop file low (by omega) (.inl (by omega))⟩
  | succ fuel ih =>
    have size := file.size
    by_cases more : i < addr.length
    case neg =>
      rw [writeChunks, if_neg more]
      exact ⟨i, off, ip, v, rfl, .stop file low (by omega) (.inl (by omega))⟩
    have length := length_piece addr i
    by_cases within : off + (piece addr i).length ≤ maxfile * bsize
    · obtain ⟨ip₁, v₁, ran, written⟩ := writei_overwrites devsw file notDevice start within
        (room.mono (neededBy_subset le_rfl (by omega)))
      rw [writeChunks_continues devsw more (by omega) ran]
      have sameType : ip₁.type = ip.type := by rw [written.same]
      have grown := written.size
      have left := written.room _ (neededBy_subset le_rfl (by omega)) (fun _ => neededBy_le) room
      obtain ⟨j, off', ip', v', rest, pieces⟩ := ih written.file
        (by rwa [sameType]) (show off + (piece addr i).length ≤ ip₁.size by omega)
        (show i + (piece addr i).length ≤ addr.length by omega) (by omega)
        (left.mono (neededBy_subset (by omega) (by omega)))
      exact ⟨j, off', ip', v', rest, pieces.cons more start within written⟩
    · rw [writeChunks_stops devsw more]
      · exact ⟨i, off, ip, v, rfl, .stop file low (by omega) (.inr (by omega))⟩
      · exact writei_rejects devsw notDevice (by omega) (by omega) (.inr (.inr (by omega)))

/-! ## One call of `writei` -/

/-- What `filewrite` has returned and left is what one call of `writei` returns and leaves; and where
it returns an error it has left everything as it was. -/
structure Agrees (f : OpenFile) (ip : Dinode) (v : Volume) (r : Int) (f' : OpenFile) (ip' : Dinode)
    (v' : Volume) (r₁ : Int) (ip₁ : Dinode) (v₁ : Volume) : Prop where
  result : r = r₁
  content : content ip' v'.disk = content ip₁ v₁.disk
  size : ip'.size = ip₁.size
  advance : 0 ≤ r → (f'.off : Int) = f.off + r
  unchanged : r = -1 → Inode.content ip' v'.disk = Inode.content ip v.disk ∧ ip'.size = ip.size ∧
    f'.off = f.off

variable {f : OpenFile} {addr : List UInt8}

/-- What `filewrite` comes to. -/
theorem filewrite_pieces (devsw : Devsw) (pipewrite : List UInt8 → Int) (writable : f.writable = true)
    (isInode : f.type = .inode) (file : File sb inum ip v) (notDevice : ip.type ≠ tDev)
    (start : f.off ≤ ip.size) (fits : addr.length < 2 ^ 31)
    (room : Room sb (neededBy f.off (min addr.length (maxfile * bsize - f.off))) ip v.disk) :
    ∃ j off' ip' v', filewrite devsw pipewrite sb inum f addr ip v =
        some (if j = addr.length then (addr.length : Int) else -1, { f with off := off' }, ip', v') ∧
      Pieces sb inum addr 0 f.off ip v j off' ip' v' := by
  obtain ⟨j, off', ip', v', ran, pieces⟩ := writeChunks_spec devsw file notDevice start
    (Nat.zero_le addr.length) (Nat.sub_le addr.length 0) fits room
  refine ⟨j, off', ip', v', ?_, pieces⟩
  rw [filewrite, if_neg (by rw [writable]; decide), isInode]
  dsimp only
  rw [ran]
  rfl

/-- A write that fails half way has moved the offset. -/
theorem Pieces.not_agrees {j off' : Nat} {r₁ : Int} {ip₁ : Dinode} {v₁ : Volume}
    (pieces : Pieces sb inum addr 0 f.off ip v j off' ip' v')
    (passes : maxfile * bsize < f.off + addr.length)
    (first : f.off + min addr.length maxChunk ≤ maxfile * bsize) :
    ¬Agrees f ip v (if j = addr.length then (addr.length : Int) else -1) { f with off := off' } ip' v' r₁
      ip₁ v₁ := by
  have all := pieces.all
  have nothing := pieces.nothing
  have offset := pieces.offset
  have positive := maxChunk_pos
  rw [if_neg (by omega)]
  intro agrees
  have same : off' = f.off := (agrees.unchanged rfl).2.2
  omega

/-- `filewrite` does the same as one call of `writei` exactly where the whole write is within the
limit or its first piece is not. Otherwise both fail, and the pieces before the limit stay. -/
theorem filewrite_agrees_iff (devsw : Devsw) (pipewrite : List UInt8 → Int)
    (writable : f.writable = true) (isInode : f.type = .inode) (file : File sb inum ip v)
    (isFile : ip.type = FileType.file.code) (start : f.off ≤ ip.size) (fits : addr.length < 2 ^ 31)
    (room : Room sb (neededBy f.off (min addr.length (maxfile * bsize - f.off))) ip v.disk) :
    ∃ r f' ip' v' r₁ ip₁ v₁,
      filewrite devsw pipewrite sb inum f addr ip v = some (r, f', ip', v') ∧
      writei devsw sb inum ip addr f.off v = some (r₁, ip₁, v₁) ∧
      (Agrees f ip v r f' ip' v' r₁ ip₁ v₁ ↔
        f.off + addr.length ≤ maxfile * bsize ∨
          maxfile * bsize < f.off + min addr.length maxChunk) ∧
      (f.off + min addr.length maxChunk ≤ maxfile * bsize →
        maxfile * bsize < f.off + addr.length →
          r = -1 ∧ r₁ = -1 ∧ ip₁ = ip ∧ v₁ = v ∧ ∃ j off', 0 < j ∧ j < addr.length ∧
            f' = { f with off := off' } ∧ Pieces sb inum addr 0 f.off ip v j off' ip' v') := by
  have notDevice : ip.type ≠ tDev := by
    rw [isFile]
    decide
  have limit : maxfile * bsize < 2 ^ 31 := by decide
  have size := file.size
  obtain ⟨j, off', ip', v', ran, pieces⟩ :=
    filewrite_pieces devsw pipewrite writable isInode file notDevice start fits room
  have all := pieces.all
  have nothing := pieces.nothing
  have offset := pieces.offset
  have content := pieces.content
  rw [List.drop_zero, Nat.sub_zero] at content
  have length (d : Dinode) (w : Volume) : d.size = (Inode.content d w.disk).length :=
    (length_content d w.disk).symm
  by_cases within : f.off + addr.length ≤ maxfile * bsize
  · obtain ⟨ip₁, v₁, wrote, written⟩ := writei_overwrites devsw file notDevice start within
      (room.mono (neededBy_subset le_rfl (by omega)))
    have whole : j = addr.length := by omega
    have same : Inode.content ip' v'.disk = Inode.content ip₁ v₁.disk := by
      rw [content, written.content, whole, List.take_length]
    refine ⟨_, _, ip', v', _, ip₁, v₁, ran, wrote, iff_of_true ?_ (.inl within),
      fun _ passes => absurd within (by omega)⟩
    rw [if_pos whole]
    refine ⟨rfl, same, ?_, ?_, ?_⟩
    · rw [length ip' v', length ip₁ v₁, same]
    · intro _
      show (off' : Int) = f.off + addr.length
      omega
    · intro negative
      omega
  · have rejected : writei devsw sb inum ip addr f.off v = some (-1, ip, v) :=
      writei_rejects devsw notDevice (by omega) (by omega) (.inr (.inr (by omega)))
    refine ⟨_, _, ip', v', _, ip, v, ran, rejected, ?_⟩
    by_cases first : f.off + min addr.length maxChunk ≤ maxfile * bsize
    · refine ⟨iff_of_false (pieces.not_agrees (by omega) first) (by omega), fun _ _ => ?_⟩
      have high := pieces.high
      exact ⟨if_neg (by omega), rfl, rfl, rfl, j, off', by omega, by omega, rfl, pieces⟩
    · refine ⟨iff_of_true ?_ (.inr (by omega)), fun fits' => absurd fits' first⟩
      have none_ : j = 0 := by omega
      have same : Inode.content ip' v'.disk = Inode.content ip v.disk := by
        rw [content, none_, List.take_zero, Overwrite.overwrite_nil]
      have sameSize : ip'.size = ip.size := by rw [length ip' v', length ip v, same]
      rw [if_neg (by omega)]
      refine ⟨rfl, same, sameSize, fun positive => absurd positive (by decide), fun _ =>
        ⟨same, sameSize, ?_⟩⟩
      show off' = f.off
      omega

end Pieces

/-- Three pieces are written to an empty file; and of a buffer of one byte more than a file can have,
46 pieces. -/
theorem filewrite_agrees_smallVolume :
    (∃ r f' ip' v' r₁ ip₁ v₁,
      filewrite ⟨fun _ => none, fun _ => none⟩ (fun _ => -1) smallSb 0 ⟨.inode, true, 0⟩
        (List.replicate 4000 7) emptyFile smallVolume = some (r, f', ip', v') ∧
      writei ⟨fun _ => none, fun _ => none⟩ smallSb 0 emptyFile (List.replicate 4000 7) 0 smallVolume =
        some (r₁, ip₁, v₁) ∧
      Agrees ⟨.inode, true, 0⟩ emptyFile smallVolume r f' ip' v' r₁ ip₁ v₁) ∧
    ∃ f' ip' v', filewrite ⟨fun _ => none, fun _ => none⟩ (fun _ => -1) smallSb 0 ⟨.inode, true, 0⟩
      (List.replicate 71681 7) emptyFile smallVolume = some (-1, f', ip', v') ∧
        f'.off = 46 * 1536 := by
  have limit : maxfile * bsize = 71680 := by decide
  have chunk : maxChunk = 1536 := by decide
  constructor
  · have length : (List.replicate 4000 (7 : UInt8)).length = 4000 := List.length_replicate
    obtain ⟨r, f', ip', v', r₁, ip₁, v₁, ran, wrote, agrees, -⟩ := @filewrite_agrees_iff smallSb 0
      emptyFile smallVolume ⟨.inode, true, 0⟩ (List.replicate 4000 7) ⟨fun _ => none, fun _ => none⟩
      (fun _ => -1) rfl rfl smallVolume_file rfl (by decide) (by rw [length]; decide)
      (by rw [length]; decide +kernel)
    exact ⟨r, f', ip', v', r₁, ip₁, v₁, ran, wrote, agrees.mpr (.inl (by rw [length]; decide))⟩
  · have length : (List.replicate 71681 (7 : UInt8)).length = 71681 := List.length_replicate
    obtain ⟨r, f', ip', v', r₁, ip₁, v₁, ran, -, -, fails⟩ := @filewrite_agrees_iff smallSb 0
      emptyFile smallVolume ⟨.inode, true, 0⟩ (List.replicate 71681 7) ⟨fun _ => none, fun _ => none⟩
      (fun _ => -1) rfl rfl smallVolume_file rfl (by decide) (by rw [length]; decide)
      (by rw [length]; decide +kernel)
    obtain ⟨rfl, -, -, -, j, off', -, short, rfl, pieces⟩ :=
      fails (by rw [length, limit, chunk]; decide) (by rw [length, limit]; decide)
    refine ⟨_, ip', v', ran, ?_⟩
    have offset := pieces.offset
    have within := pieces.within
    obtain ⟨⟨count, whole⟩, passes⟩ := pieces.stops.resolve_left short.ne
    rw [limit] at within
    rw [length, limit, chunk] at passes
    rw [chunk] at whole
    show off' = 46 * 1536
    rw [length] at short
    simp only [Nat.sub_zero, Nat.zero_add] at *
    omega

/-- A buffer of one byte more than a file can have is written to an empty file: `writei` refuses it,
and `filewrite` fails too, but only after most of the bytes have been written. -/
theorem filewrite_limit_disagrees :
    ∃ f' ip' v', filewrite ⟨fun _ => none, fun _ => none⟩ (fun _ => -1) smallSb 0 ⟨.inode, true, 0⟩
        (List.replicate 71681 0) emptyFile smallVolume = some (-1, f', ip', v') ∧
      writei ⟨fun _ => none, fun _ => none⟩ smallSb 0 emptyFile (List.replicate 71681 0) 0
        smallVolume = some (-1, emptyFile, smallVolume) ∧
      ¬Agrees ⟨.inode, true, 0⟩ emptyFile smallVolume (-1) f' ip' v' (-1) emptyFile smallVolume := by
  have length : (List.replicate 71681 (0 : UInt8)).length = 71681 := List.length_replicate
  have limit : maxfile * bsize = 71680 := by decide
  have chunk : maxChunk = 1536 := by decide
  obtain ⟨j, off', ip', v', ran, pieces⟩ := @filewrite_pieces smallSb 0 emptyFile smallVolume
    ⟨.inode, true, 0⟩ (List.replicate 71681 0) ⟨fun _ => none, fun _ => none⟩ (fun _ => -1) rfl rfl
    smallVolume_file (by decide) (by decide) (by rw [length]; decide)
    (by rw [length]; decide +kernel)
  have all := pieces.all
  have different : ¬Agrees ⟨.inode, true, 0⟩ emptyFile smallVolume _ _ ip' v' (-1) emptyFile
      smallVolume :=
    pieces.not_agrees (by rw [length, limit]; decide) (by rw [length, limit, chunk]; decide)
  rw [if_neg (by rw [length] at all ⊢; omega)] at ran different
  refine ⟨_, ip', v', ran, ?_, different⟩
  exact writei_rejects _ (by decide) (by decide) (by rw [length]; decide)
    (.inr (.inr (by rw [length, limit]; decide)))

end Xv6.Inode
