import Xv6.Mkfs.Append

/-!
The kernel reads what `mkfs` has written.

Owns: `ilock`, `bmap` and `readi` of the kernel on a disk image; that they read a file that is kept
on the image; and that after any calls of `ialloc` and `iappend` they read what was appended.

Does not own: the image that `main` of `mkfs` builds (`Xv6.Mkfs.Image`); `bmap` where there is no
block yet.
-/

namespace Xv6.Mkfs

open Bytes (get)

/-! ## The kernel -/

/-- How a function of the kernel ends. -/
inductive Outcome (α : Type) where
  | ok (value : α)
  /-- It returns -1. -/
  | error
  /-- `readi` calls the driver of a device. -/
  | device
  /-- `bmap` has found no block and calls `balloc`. -/
  | hole
  | panic
  deriving DecidableEq

namespace Outcome

variable {α β : Type}

def bind : Outcome α → (α → Outcome β) → Outcome β
  | ok value, rest => rest value
  | error, _ => error
  | device, _ => device
  | hole, _ => hole
  | panic, _ => panic

instance : Monad Outcome where
  pure := ok
  bind := bind

@[simp] theorem ok_bind (value : α) (rest : α → Outcome β) : (ok value >>= rest) = rest value := rfl

end Outcome

/-- `bread`, with the check that `iderw` makes. -/
def bread (disk : Disk) (blockno : Nat) : Outcome Sector :=
  if fssize ≤ blockno then .panic else .ok (disk blockno)

theorem bread_eq {disk : Disk} {blockno : Nat} (inside : blockno < fssize) :
    bread disk blockno = .ok (disk blockno) := by
  rw [bread, if_neg (Nat.not_le.mpr inside)]

/-- The inode that `ilock` reads, with the super block that `iinit` has read. -/
def ilock (disk : Disk) (inum : Nat) : Outcome Dinode := do
  let bp ← bread disk (iblock inum (readsb disk))
  let ip := loadDinode bp (inum % ipb)
  if ip.type = 0 then .panic else .ok ip

def bmap (ip : Dinode) (disk : Disk) (bn : Nat) : Outcome Nat :=
  if bn < ndirect then
    if ip.addrs bn = 0 then .hole else .ok (ip.addrs bn)
  else if bn - ndirect < nindirect then
    if ip.addrs ndirect = 0 then .hole
    else do
      let bp ← bread disk (ip.addrs ndirect)
      if get bp (4 * (bn - ndirect)) 4 = 0 then .hole else .ok (get bp (4 * (bn - ndirect)) 4)
  else .panic

/-- The loop of `readi`, for `n` more bytes. -/
def readLoop (ip : Dinode) (disk : Disk) : Nat → Nat → Nat → Outcome (List UInt8)
  | 0, _, _ => .ok []
  | fuel + 1, off, n =>
    if n = 0 then .ok []
    else do
      let addr ← bmap ip disk (off / bsize)
      let bp ← bread disk addr
      let m := min n (bsize - off % bsize)
      let rest ← readLoop ip disk fuel (off + m) (n - m)
      .ok ((List.range m).map (fun k => bp (off % bsize + k)) ++ rest)

/-- `T_DEV`. -/
def tDev : Nat := 3

/-- The bytes that `readi` copies to `dst`. -/
def readi (ip : Dinode) (disk : Disk) (off n : Nat) : Outcome (List UInt8) :=
  if ip.type = tDev then .device
  else if ip.size < off ∨ (off + n) % 2 ^ 32 < off then .error
  else
    let n := if ip.size < (off + n) % 2 ^ 32 then ip.size - off else n
    readLoop ip disk n off n

variable {calls : List Call} {content : Nat → List UInt8} {s : State} {files : Nat → Dinode}

/-! ## Reading a file -/

variable {disk : Disk} {free i : Nat}

/-- `bmap` finds the block that `iappend` has mapped. -/
theorem bmap_eq (kept : Kept files disk free content) (room : free ≤ fssize) {b : Nat}
    (inside : b * bsize < (content i).length) :
    bmap (files i) disk b = .ok (place (files i) disk b) := by
  have bound : b < maxfile := Nat.lt_of_mul_lt_mul_right (lt_of_lt_of_le inside (kept.length i))
  have there := (kept.mapped i b bound).mpr inside
  rw [bmap]
  by_cases direct : b < ndirect
  · rw [place_direct direct] at there ⊢
    rw [if_pos direct, if_neg there]
  · have low := Nat.le_of_not_lt direct
    have indirect : (files i).addrs ndirect ≠ 0 := by
      intro absent
      exact there (place_of_no_indirect low bound absent)
    have range := kept.owned.range i maxfile le_rfl (by rw [place_maxfile]; exact indirect)
    rw [place_maxfile] at range
    rw [place_indirect low bound indirect] at there ⊢
    rw [if_neg direct, if_pos (by unfold maxfile at bound; omega), if_neg indirect,
      bread_eq (by omega), Outcome.ok_bind, if_neg there]

/-- What one round of `readi` reads. -/
theorem block_bytes (kept : Kept files disk free content) {off m : Nat}
    (inside : off + m ≤ (content i).length) (small : off % bsize + m ≤ bsize) (some_ : 0 < m) :
    (List.range m).map (fun k => disk (place (files i) disk (off / bsize)) (off % bsize + k)) =
      ((content i).drop off).take m := by
  have whole := Nat.div_add_mod off bsize
  rw [Nat.mul_comm] at whole
  apply List.ext_getElem
  · rw [List.length_map, List.length_range, List.length_take, List.length_drop]
    omega
  · intro k below _
    rw [List.length_map, List.length_range] at below
    rw [List.getElem_map, List.getElem_range, List.getElem_take, List.getElem_drop,
      kept.bytes i _ _ (by omega) (by omega), ← Nat.add_assoc, whole,
      List.getD_eq_getElem _ _ (by omega)]

theorem readLoop_eq (kept : Kept files disk free content) (room : free ≤ fssize) {fuel off n : Nat}
    (enough : n ≤ fuel) (inside : off + n ≤ (content i).length) :
    readLoop (files i) disk fuel off n = .ok (((content i).drop off).take n) := by
  induction fuel generalizing off n with
  | zero =>
    obtain rfl := Nat.le_zero.mp enough
    rw [readLoop, List.take_zero]
  | succ fuel ih =>
    rw [readLoop]
    by_cases none_ : n = 0
    · rw [if_pos none_, none_, List.take_zero]
    · have whole := Nat.div_add_mod off bsize
      have small := Nat.mod_lt off (show 0 < bsize by decide)
      rw [Nat.mul_comm] at whole
      have before : off / bsize * bsize < (content i).length := by omega
      have bound : off / bsize < maxfile :=
        Nat.lt_of_mul_lt_mul_right (lt_of_lt_of_le before (kept.length i))
      have range := kept.owned.range i _ bound.le ((kept.mapped i _ bound).mpr before)
      rw [if_neg none_, bmap_eq kept room before, Outcome.ok_bind, bread_eq (by omega),
        Outcome.ok_bind]
      generalize count : min n (bsize - off % bsize) = m
      have moves : 0 < m ∧ m ≤ n ∧ off % bsize + m ≤ bsize := by omega
      dsimp only
      rw [ih (by omega) (by omega), Outcome.ok_bind,
        block_bytes kept (by omega) moves.2.2 moves.1, ← List.drop_drop,
        ← List.take_add, Nat.add_sub_of_le moves.2.1]

/-- `readi` reads a file. -/
theorem readi_eq (kept : Kept files disk free content) (room : free ≤ fssize)
    (notDevice : (files i).type ≠ tDev) (size : (files i).size = (content i).length) {off n : Nat}
    (start : off ≤ (content i).length) (noWrap : off + n < 2 ^ 32) :
    readi (files i) disk off n = .ok (((content i).drop off).take n) := by
  rw [readi, if_neg notDevice, Nat.mod_eq_of_lt noWrap, size, if_neg (by omega)]
  dsimp only
  split
  · rw [readLoop_eq kept room le_rfl (by omega), List.take_of_length_le, List.take_of_length_le]
    · rw [List.length_drop]
      omega
    · rw [List.length_drop]
  · exact readLoop_eq kept room le_rfl (by omega)

/-! ## Any calls -/

inductive Call where
  | ialloc (type : FileType)
  | iappend (inum : Nat) (p : List UInt8)

def Call.run : Call → State → Option State
  | .ialloc type, s => (Mkfs.ialloc type s).map Prod.snd
  | .iappend inum p, s => Mkfs.iappend inum p s

def runCalls : List Call → State → Option State
  | [], s => some s
  | call :: calls, s => (call.run s).bind (runCalls calls)

/-- The number of inodes that the calls allocate. -/
def allocated : List Call → Nat
  | [] => 0
  | .ialloc _ :: calls => allocated calls + 1
  | .iappend _ _ :: calls => allocated calls

/-- What the calls append to an inode. -/
def appended : List Call → Nat → List UInt8
  | [], _ => []
  | .ialloc _ :: calls, i => appended calls i
  | .iappend inum p :: calls, i => if i = inum then p ++ appended calls i else appended calls i

/-- There are inodes for all calls of `ialloc`, and each `iappend` is to an allocated inode, when
`freeinode` is the next one. -/
def Valid : List Call → Nat → Prop
  | [], _ => True
  | .ialloc _ :: calls, freeinode => freeinode < ninodes ∧ Valid calls (freeinode + 1)
  | .iappend inum _ :: calls, freeinode => (0 < inum ∧ inum < freeinode) ∧ Valid calls freeinode

/-- The files fit on the disk. -/
structure FitsOn (content : Nat → List UInt8) : Prop where
  short : ∀ i, (content i).length ≤ maxfile * bsize
  room : nmeta + used content ≤ fssize

/-- The number of bytes that the calls append. -/
def total : List Call → Nat
  | [] => 0
  | .ialloc _ :: calls => total calls
  | .iappend _ p :: calls => p.length + total calls

theorem appended_length_le (calls : List Call) (i : Nat) :
    (appended calls i).length ≤ total calls := by
  induction calls with
  | nil => exact le_rfl
  | cons call calls ih =>
    cases call with
    | ialloc type => exact ih
    | iappend inum p =>
      rw [appended, total]
      split
      · rw [List.length_append]
        exact Nat.add_le_add_left ih _
      · exact le_trans ih (Nat.le_add_left _ _)

/-- Calls that append little fit if there are blocks. -/
theorem fitsOn_of_size (short : total calls ≤ maxfile * bsize)
    (room : nmeta + used (appended calls) ≤ fssize) : FitsOn (appended calls) :=
  ⟨fun i => le_trans (appended_length_le calls i) short, room⟩

theorem used_mono {content' : Nat → List UInt8}
    (grows : ∀ i, (content i).length ≤ (content' i).length) : used content ≤ used content' :=
  Finset.sum_le_sum fun i _ => blocksFor_mono (grows i)

theorem appended_iappend (content : Nat → List UInt8) (inum : Nat) (p : List UInt8)
    (calls : List Call) (i : Nat) :
    Function.update content inum (content inum ++ p) i ++ appended calls i =
      content i ++ appended (.iappend inum p :: calls) i := by
  rw [appended]
  by_cases same : i = inum
  · rw [if_pos same, same, Function.update_self, List.append_assoc]
  · rw [if_neg same, Function.update_of_ne same]

/-- Calls that fit succeed and append. -/
theorem runCalls_good (good : Good s files content) (inodes : s.freeinode ≤ ninodes)
    (valid : Valid calls s.freeinode) (fits : FitsOn fun i => content i ++ appended calls i) :
    ∃ s' files', runCalls calls s = some s' ∧ s'.freeinode = s.freeinode + allocated calls ∧
      s'.freeinode ≤ ninodes ∧ Good s' files' fun i => content i ++ appended calls i := by
  induction calls generalizing s files content with
  | nil =>
    refine ⟨s, files, rfl, rfl, inodes, ?_⟩
    simp only [appended, List.append_nil]
    exact good
  | cons call calls ih =>
    cases call with
    | ialloc type =>
      obtain ⟨inside, later⟩ := valid
      obtain ⟨s₁, ran, next, good₁⟩ := good.ialloc inside type
      rw [← next] at later
      obtain ⟨s', files', ran', count, inodes', good'⟩ :=
        ih good₁ (by omega) later fits
      refine ⟨s', files', ?_, by rw [allocated]; omega, inodes', good'⟩
      rw [runCalls, Call.run, ran]
      exact ran'
    | iappend inum p =>
      have step := appended_iappend content inum p calls
      simp only [← step] at fits ⊢
      have short := fits.short inum
      rw [Function.update_self, List.length_append, List.length_append] at short
      have grows : used (Function.update content inum (content inum ++ p)) ≤
          used fun i => Function.update content inum (content inum ++ p) i ++ appended calls i := by
        apply used_mono
        intro i
        rw [List.length_append]
        exact Nat.le_add_right _ _
      have room := fits.room
      obtain ⟨⟨low, high⟩, later⟩ := valid
      obtain ⟨s₁, d, ran, next, -, good₁⟩ := good.iappend low high (by omega) (by omega)
        (le_trans (Nat.add_le_add_left grows _) room)
      rw [← next] at later
      obtain ⟨s', files', ran', count, inodes', good'⟩ :=
        ih good₁ (by omega) later fits
      refine ⟨s', files', ?_, by rw [allocated]; omega, inodes', good'⟩
      rw [runCalls, Call.run, ran]
      exact ran'

/-- Calls that succeed fit. -/
theorem runCalls_fits {s' : State} (good : Good s files content) (inodes : s.freeinode ≤ ninodes)
    (valid : Valid calls s.freeinode) (ran : runCalls calls s = some s') :
    FitsOn fun i => content i ++ appended calls i := by
  induction calls generalizing s files content with
  | nil =>
    simp only [appended, List.append_nil]
    exact ⟨good.kept.length, good.blocks ▸ good.room⟩
  | cons call calls ih =>
    rw [runCalls, Option.bind_eq_some_iff] at ran
    obtain ⟨s₂, first, rest⟩ := ran
    cases call with
    | ialloc type =>
      obtain ⟨inside, later⟩ := valid
      obtain ⟨s₁, ran₁, next, good₁⟩ := good.ialloc inside type
      rw [Call.run, ran₁] at first
      cases first
      rw [← next] at later
      exact ih good₁ (by omega) later rest
    | iappend inum p =>
      simp only [← appended_iappend content inum p calls]
      obtain ⟨⟨low, high⟩, later⟩ := valid
      obtain ⟨short, room⟩ := good.iappend_room (by omega) first
      obtain ⟨s₁, d, ran₁, next, -, good₁⟩ := good.iappend low high (by omega) short room
      cases ran₁.symm.trans first
      rw [← next] at later
      exact ih good₁ (by omega) later rest

theorem ilock_eq (good : Good s files content) {inum : Nat} (low : 0 < inum)
    (high : inum < s.freeinode) (valid : inum < ninodes) :
    ilock s.disk inum = .ok (files inum) := by
  obtain ⟨type, isType⟩ := good.types inum low high
  have bounds := iblock_bounds valid
  have size : nmeta < fssize := by decide
  have inode := good.inodes inum valid
  rw [dinodeAt] at inode
  rw [ilock, readsb_sbSector good.superblock, bread_eq (by omega), Outcome.ok_bind]
  dsimp only
  rw [inode, if_neg]
  rw [isType]
  cases type <;> decide

/-- After any calls of `mkfs` that fit, the kernel reads from each inode what was appended to it. -/
theorem readi_appended (calls : List Call) (valid : Valid calls 1) (fits : FitsOn (appended calls)) :
    ∃ s, runCalls calls .start = some s ∧ ∀ inum, 0 < inum → inum ≤ allocated calls →
      ∃ ip, ilock s.disk inum = .ok ip ∧ ip.size = (appended calls inum).length ∧
        ∀ off n, off ≤ ip.size → off + n < 2 ^ 32 →
          readi ip s.disk off n = .ok (((appended calls inum).drop off).take n) := by
  have fromEmpty : FitsOn fun i => [] ++ appended calls i := fits
  obtain ⟨s, files, ran, count, inodes, good⟩ :=
    runCalls_good Good.start (by decide) valid fromEmpty
  have first : State.start.freeinode = 1 := rfl
  refine ⟨s, ran, ?_⟩
  intro inum low allocatedInum
  have high : inum < s.freeinode := by omega
  have inside : inum < ninodes := by omega
  have size : (files inum).size = (appended calls inum).length := good.size inum
  refine ⟨files inum, ilock_eq good low high inside, size, ?_⟩
  intro off n start noWrap
  obtain ⟨type, isType⟩ := good.types inum low high
  apply readi_eq good.kept good.room _ (good.size inum) (size ▸ start) noWrap
  rw [isType]
  cases type <;> decide

/-- A file that is written in two pieces, with a directory in between. -/
def twoPieces : List Call :=
  [.ialloc .file, .iappend 1 [104, 105], .ialloc .dir, .iappend 2 [46], .iappend 1 [33]]

theorem readi_appended_twoPieces :
    Valid twoPieces 1 ∧ FitsOn (appended twoPieces) ∧
      ∃ s, runCalls twoPieces .start = some s ∧ ∀ inum, 0 < inum → inum ≤ allocated twoPieces →
        ∃ ip, ilock s.disk inum = .ok ip ∧ ip.size = (appended twoPieces inum).length ∧
          ∀ off n, off ≤ ip.size → off + n < 2 ^ 32 →
            readi ip s.disk off n = .ok (((appended twoPieces inum).drop off).take n) := by
  have valid : Valid twoPieces 1 := by
    simp only [twoPieces, Valid]
    decide
  have fits : FitsOn (appended twoPieces) := fitsOn_of_size (by decide) (by decide +kernel)
  exact ⟨valid, fits, readi_appended twoPieces valid fits⟩

end Xv6.Mkfs
