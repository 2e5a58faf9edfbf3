import Xv6.Inode.Cache
import Xv6.Vm.Elf
import Xv6.Syscall.UserMemory

/-!
The other models of `ilock`, `bmap` and `readi`.

Owns: that what `mkfs` has written is read back as the kernel reads it, that `exec` reads the
content of the file, and that the system call for a read returns what `readi` returns.

Does not own: the kernel's `ilock`, `bmap` and `readi` (`Xv6.Inode.Cache`, `Xv6.Inode.Map`,
`Xv6.Inode.ReadWrite`).
-/

namespace Xv6.Inode

open Mkfs (Disk Dinode Superblock bsize tDev readsb)

variable {devsw : Devsw} {sb : Superblock} {ip : Dinode} {v : Volume} {disk : Disk}
  {inum bn b fuel off n : Nat} {bytes : List UInt8}

/-! ## Read back -/

theorem bind_ok {α β : Type} {first : Mkfs.Outcome α} {rest : α → Mkfs.Outcome β} {y : β}
    (done : (first >>= rest) = .ok y) : ∃ x, first = .ok x ∧ rest x = .ok y := by
  cases first with
  | ok x => exact ⟨x, rfl, done⟩
  | _ => cases done

theorem bread_ok {β : Type} {rest : Mkfs.Sector → Mkfs.Outcome β} {y : β}
    (done : (Mkfs.bread disk b >>= rest) = .ok y) : rest (disk b) = .ok y := by
  obtain ⟨bp, read, later⟩ := bind_ok done
  unfold Mkfs.bread at read
  split at read
  · cases read
  · cases read
    exact later

theorem bmap_of_readBack (found : Mkfs.bmap ip v.disk bn = .ok b) : bmap sb ip bn v = some (b, ip, v) := by
  unfold Mkfs.bmap at found
  unfold bmap loadIndirect
  split at found
  · next direct =>
    rw [if_pos direct]
    split at found
    · cases found
    · next there =>
      cases found
      rw [if_neg there]
  · next indirect =>
    rw [if_neg indirect]
    split at found
    · next inside =>
      rw [if_pos inside]
      split at found
      · cases found
      · next there =>
        have entry := bread_ok found
        rw [if_neg there, Option.bind_some]
        dsimp only
        split at entry
        · cases entry
        · next present =>
          cases entry
          rw [if_neg present]
    · cases found

/-- The bytes that are read back are those that the loop of `readi` copies, and it changes
nothing. -/
theorem readLoop_of_readBack (done : Mkfs.readLoop ip v.disk fuel off n = .ok bytes) :
    readLoop sb fuel off n ip v = some (bytes, ip, v) := by
  induction fuel generalizing off n bytes with
  | zero =>
    cases done
    rfl
  | succ fuel ih =>
    unfold Mkfs.readLoop at done
    unfold readLoop
    split at done
    · next none_ =>
      cases done
      rw [if_pos none_]
    · next some_ =>
      rw [if_neg some_]
      obtain ⟨addr, found, rest⟩ := bind_ok done
      obtain ⟨_, later, whole⟩ := bind_ok (bread_ok rest)
      cases whole
      rw [bmap_of_readBack found]
      dsimp only
      rw [ih later]
      rfl

theorem readi_of_readBack (done : Mkfs.readi ip v.disk off n = .ok bytes) :
    ∃ count : Nat, readi devsw sb ip off n v = some ((count : Int), bytes, ip, v) := by
  unfold Mkfs.readi at done
  unfold readi
  split at done
  · cases done
  · next notDevice =>
    rw [if_neg notDevice]
    split at done
    · cases done
    · next inside =>
      rw [if_neg inside]
      dsimp only at done ⊢
      rw [readLoop_of_readBack done]
      exact ⟨_, rfl⟩

/-- The inode that is read back is the one that `ilock` reads into an entry that is not valid. -/
theorem ilock_of_readBack {s : Icache.State} {k : Nat} (read : Mkfs.ilock s.v.disk (s.inode k).inum = .ok ip)
    (ref : 1 ≤ (s.inode k).ref) (unlocked : (s.inode k).locked = false)
    (stale : (s.inode k).valid = false) :
    Icache.ilock (readsb s.v.disk) s k =
      some (s.set k { s.inode k with locked := true, valid := true, ip := ip }) := by
  have loaded := bread_ok read
  dsimp only at loaded
  split at loaded
  · cases loaded
  · next inUse =>
    cases loaded
    unfold Icache.ilock
    dsimp only
    rw [if_neg (by simp [unlocked]; omega), if_neg (by simp [stale])]
    exact if_neg inUse

/-! ## The content -/

/-- `exec` reads from a file what `readi` reads. -/
theorem readi_eq_exec (file : File sb inum ip v) (notDevice : ip.type ≠ tDev) (offFits : off < 2 ^ 32)
    (nFits : n < 2 ^ 32) (small : (content ip v.disk).length < 2 ^ 32) :
    ∃ r, readi devsw sb ip off n v =
        some (r, ((Vm.Inode.file (content ip v.disk) small).readi off n).1.getD [], ip, v) ∧
      (r = -1 ↔ ((Vm.Inode.file (content ip v.disk) small).readi off n).1 = none) := by
  simp only [Vm.Inode.readi, length_content]
  by_cases outside : ip.size < off ∨ 2 ^ 32 ≤ off + n
  · refine ⟨-1, ?_⟩
    rw [readi_rejects devsw notDevice offFits nFits outside, if_pos (by omega)]
    exact ⟨rfl, iff_of_true rfl rfl⟩
  · rw [readi_reads devsw file notDevice (by omega) (by omega), if_neg (by omega)]
    exact ⟨_, rfl, iff_of_false (by omega) (by rintro ⟨⟩)⟩

theorem pieces_result (ptr off : Syscall.Word) (left : Nat) :
    (Syscall.pieces ptr off left).result = some () := by
  fun_induction Syscall.pieces with
  | case1 => rfl
  | case2 _ _ _ _ _ ih => exact ih

/-- The system call returns the count that `readi` returns. -/
theorem readi_eq_syscall (file : File sb inum ip v) (notDevice : ip.type ≠ tDev)
    (dst off n : Syscall.Word) :
    ∃ r bytes, readi devsw sb ip off.toNat n.toNat v = some (r, bytes, ip, v) ∧
      (Syscall.readi (BitVec.ofNat 32 ip.size) off dst n).result.map (fun w => (w.toNat : Int)) =
        if r = -1 then none else some r := by
  have size : ip.size < 2 ^ 32 := file.size.trans_lt (by decide)
  have sized : (BitVec.ofNat 32 ip.size).toNat = ip.size := by
    rw [BitVec.toNat_ofNat, Nat.mod_eq_of_lt size]
  have offFits := off.isLt
  have nFits := n.isLt
  unfold Syscall.readi
  by_cases outside : ip.size < off.toNat ∨ 2 ^ 32 ≤ off.toNat + n.toNat
  · rw [readi_rejects devsw notDevice offFits nFits outside,
      if_pos (by simp only [BitVec.lt_def, BitVec.toNat_add, sized]; omega)]
    exact ⟨-1, [], rfl, rfl⟩
  · rw [readi_reads devsw file notDevice (by omega) (by omega),
      if_neg (by simp only [BitVec.lt_def, BitVec.toNat_add, sized]; omega)]
    have counted : ((min (off.toNat + n.toNat) ip.size - off.toNat : Nat) : Int) ≠ -1 := by omega
    refine ⟨_, _, rfl, ?_⟩
    rw [if_neg counted]
    simp only [Bind.bind, pieces_result]
    refine congrArg some (congrArg Nat.cast ?_)
    split
    · next clipped =>
      rw [BitVec.lt_def, BitVec.toNat_add, sized] at clipped
      rw [BitVec.toNat_sub, sized]
      omega
    · next whole =>
      rw [BitVec.lt_def, BitVec.toNat_add, sized] at whole
      omega

end Xv6.Inode
