import Xv6.Mkfs.ReadBack

/-!
The image that `mkfs` builds.

Owns: `main` and `balloc` of `mkfs`; what a well-formed image is; and when `mkfs` builds one.

Does not own: the host's files, which are given as what `open` and `read` return.
-/

namespace Xv6.Mkfs

open Function (update_self update_of_ne)

open Bytes (byte)

/-! ## The program -/

/-- An argument of `mkfs`, and what the host returns for it. -/
structure InputFile where
  path : List UInt8
  /-- The string ends where the path does. -/
  terminated : 0 ∉ path
  /-- What `open` gives: the buffers that `read` returns. -/
  opened : Option (List (List UInt8))

def dirsiz : Nat := 14

/-- The bytes of a `struct dirent`. -/
def direntBytes (inum : Nat) (name : List UInt8) : List UInt8 :=
  byte inum 0 :: byte inum 1 :: name

/-- A directory entry, whose name `strncpy` has copied. -/
def dirent (inum : Nat) (name : List UInt8) : List UInt8 :=
  direntBytes inum ((List.range dirsiz).map fun k => name.getD k 0)

/-- `"."`. -/
def dot : List UInt8 := [46]

/-- `".."`. -/
def dotdot : List UInt8 := [46, 46]

/-- The path without a leading `_`. -/
def InputFile.name (f : InputFile) : List UInt8 :=
  if f.path.head? = some 95 then f.path.tail else f.path

def appendReads (inum : Nat) : List (List UInt8) → State → Option State
  | [], s => some s
  | buf :: reads, s =>
    if buf = [] then some s else (iappend inum buf s).bind (appendReads inum reads)

def addFile (rootino : Nat) (f : InputFile) (s : State) : Option State :=
  if 47 ∈ f.path then none
  else
    match f.opened with
    | none => none
    | some reads => do
        let (inum, s) ← ialloc .file s
        let s ← iappend rootino (dirent inum f.name) s
        appendReads inum reads s

def addFiles (rootino : Nat) : List InputFile → State → Option State
  | [], s => some s
  | f :: fs, s => (addFile rootino f s).bind (addFiles rootino fs)

/-- The loop of `balloc`. -/
def markUsed : Nat → Sector
  | 0 => fun _ => 0
  | i + 1 => Function.update (markUsed i) (i / 8)
      (UInt8.ofNat ((markUsed i (i / 8)).toNat ||| 1 <<< (i % 8)))

def balloc (used : Nat) (disk : Disk) : Option Disk :=
  if used < bsize * 8 then some (wsect disk sb.bmapstart (markUsed used)) else none

/-- The end of `main`: the size of the root directory and the bitmap. -/
def finish (rootino : Nat) (s : State) : Option State := do
  let din ← rinode s.disk rootino
  let disk ← winode s.disk rootino { din with size := (din.size / bsize + 1) * bsize }
  let disk ← balloc s.freeblock disk
  some { s with disk := disk }

def rootIno : Nat := 1

/-- `main`, from when the image is zeroed to `exit(0)`. -/
def main (files : List InputFile) : Option State := do
  let (rootino, s) ← ialloc .dir .start
  if rootino ≠ rootIno then none
  else do
    let s ← iappend rootino (dirent rootino dot) s
    let s ← iappend rootino (dirent rootino dotdot) s
    let s ← addFiles rootino files s
    finish rootino s

/-! ## The calls that it makes -/

/-- The buffers that are appended. -/
def chunks (reads : List (List UInt8)) : List (List UInt8) :=
  reads.takeWhile fun buf => buf ≠ []

def InputFile.accepted (f : InputFile) : Bool :=
  47 ∉ f.path && f.opened.isSome

def fileCalls : Nat → List InputFile → List Call
  | _, [] => []
  | inum, f :: fs =>
    .ialloc .file :: .iappend rootIno (dirent inum f.name) ::
      ((chunks (f.opened.getD [])).map (.iappend inum) ++ fileCalls (inum + 1) fs)

def mainCalls (files : List InputFile) : List Call :=
  .ialloc .dir :: .iappend rootIno (dirent rootIno dot) :: .iappend rootIno (dirent rootIno dotdot) ::
    fileCalls 2 files

variable {inum b len : Nat} {s s' : State} {reads : List (List UInt8)} {f : InputFile}
  {files : List InputFile}

theorem iappend_freeinode {p : List UInt8} (ran : iappend inum p s = some s') :
    s'.freeinode = s.freeinode := by
  unfold iappend at ran
  split at ran
  · cases ran
  · split at ran
    · cases ran
    · obtain ⟨disk, _, rfl⟩ := Option.map_eq_some_iff.mp ran
      rfl

theorem ialloc_some {type : FileType} (ran : ialloc type s = some (inum, s')) :
    inum = s.freeinode ∧ s'.freeinode = inum + 1 := by
  obtain ⟨disk, _, same⟩ := Option.map_eq_some_iff.mp ran
  cases same
  exact ⟨rfl, rfl⟩

theorem runCalls_append (first rest : List Call) (s : State) :
    runCalls (first ++ rest) s = (runCalls first s).bind (runCalls rest) := by
  induction first generalizing s with
  | nil => rfl
  | cons call first ih =>
    rw [List.cons_append, runCalls, runCalls, Option.bind_assoc]
    congr 1
    funext s'
    exact ih s'

theorem appendReads_eq (inum : Nat) (reads : List (List UInt8)) (s : State) :
    appendReads inum reads s = runCalls ((chunks reads).map (.iappend inum)) s := by
  induction reads generalizing s with
  | nil => rfl
  | cons buf reads ih =>
    rw [appendReads, chunks]
    by_cases isEnd : buf = []
    · rw [if_pos isEnd, List.takeWhile_cons_of_neg (by simpa using isEnd)]
      rfl
    · rw [if_neg isEnd, List.takeWhile_cons_of_pos (by simpa using isEnd), List.map_cons, runCalls]
      congr 1
      funext s'
      exact ih s'

theorem appendReads_freeinode (ran : appendReads inum reads s = some s') :
    s'.freeinode = s.freeinode := by
  induction reads generalizing s with
  | nil =>
    cases ran
    rfl
  | cons buf reads ih =>
    rw [appendReads] at ran
    split at ran
    · cases ran
      rfl
    · obtain ⟨s₁, first, rest⟩ := Option.bind_eq_some_iff.mp ran
      rw [ih rest, iappend_freeinode first]

theorem addFile_eq (noSlash : 47 ∉ f.path) (opens : f.opened = some reads) (s : State) :
    addFile rootIno f s =
      runCalls (.ialloc .file :: .iappend rootIno (dirent s.freeinode f.name) ::
        (chunks reads).map (.iappend s.freeinode)) s := by
  rw [addFile, if_neg noSlash, opens, runCalls, Call.run]
  cases made : ialloc .file s with
  | none => rfl
  | some result =>
    obtain ⟨inum, s₁⟩ := result
    obtain ⟨rfl, -⟩ := ialloc_some made
    change (iappend rootIno (dirent s.freeinode f.name) s₁).bind (appendReads s.freeinode reads) =
      runCalls _ s₁
    rw [runCalls, Call.run]
    congr 1
    funext s₂
    exact appendReads_eq s.freeinode reads s₂

theorem addFile_freeinode {rootino : Nat} (ran : addFile rootino f s = some s') :
    s'.freeinode = s.freeinode + 1 := by
  unfold addFile at ran
  split at ran
  · cases ran
  · split at ran
    · cases ran
    · obtain ⟨⟨inum, s₁⟩, made, rest⟩ := Option.bind_eq_some_iff.mp ran
      obtain ⟨s₂, entered, copied⟩ := Option.bind_eq_some_iff.mp rest
      obtain ⟨rfl, next⟩ := ialloc_some made
      rw [appendReads_freeinode copied, iappend_freeinode entered, next]

theorem addFiles_eq (files : List InputFile) (s : State) :
    addFiles rootIno files s =
      if files.all InputFile.accepted then runCalls (fileCalls s.freeinode files) s else none := by
  induction files generalizing s with
  | nil => rfl
  | cons f fs ih =>
    rw [addFiles, List.all_cons]
    by_cases slash : 47 ∈ f.path
    · have refused : f.accepted = false := by simp [InputFile.accepted, slash]
      rw [addFile, if_pos slash, refused]
      rfl
    · cases opens : f.opened with
      | none =>
        have refused : f.accepted = false := by simp [InputFile.accepted, opens]
        rw [addFile, if_neg slash, opens, refused]
        rfl
      | some reads =>
        have accepted : f.accepted = true := by simp [InputFile.accepted, opens, slash]
        have calls : fileCalls s.freeinode (f :: fs) =
            (.ialloc .file :: .iappend rootIno (dirent s.freeinode f.name) ::
              (chunks reads).map (.iappend s.freeinode)) ++ fileCalls (s.freeinode + 1) fs := by
          rw [fileCalls, opens]
          rfl
        rw [accepted, Bool.true_and, calls, runCalls_append, ← addFile_eq slash opens]
        cases made : addFile rootIno f s with
        | none => simp
        | some s₁ =>
          rw [← addFile_freeinode made]
          exact ih s₁

/-- `main` makes its calls and finishes. -/
theorem main_eq (files : List InputFile) :
    main files =
      if files.all InputFile.accepted then
        (runCalls (mainCalls files) .start).bind (finish rootIno)
      else none := by
  rw [main, mainCalls, runCalls, Call.run]
  cases made : ialloc .dir .start with
  | none => simp
  | some result =>
    obtain ⟨inum, s₁⟩ := result
    obtain ⟨rfl, next⟩ := ialloc_some made
    change (iappend rootIno (dirent rootIno dot) s₁).bind (fun s =>
      (iappend rootIno (dirent rootIno dotdot) s).bind fun s =>
        (addFiles rootIno files s).bind (finish rootIno)) =
      if files.all InputFile.accepted then (runCalls _ s₁).bind (finish rootIno) else none
    rw [runCalls, Call.run]
    cases first : iappend rootIno (dirent rootIno dot) s₁ with
    | none => simp
    | some s₂ =>
      rw [Option.bind_some, Option.bind_some, runCalls, Call.run]
      cases second : iappend rootIno (dirent rootIno dotdot) s₂ with
      | none => simp
      | some s₃ =>
        have count : s₃.freeinode = 2 := by
          rw [iappend_freeinode second, iappend_freeinode first, next]
          rfl
        rw [Option.bind_some, Option.bind_some, addFiles_eq, count]
        split
        · rfl
        · rfl

/-! ## The root directory -/

/-- The entries for the files. -/
def entries : Nat → List InputFile → List UInt8
  | _, [] => []
  | inum, f :: fs => dirent inum f.name ++ entries (inum + 1) fs

/-- What the root directory should hold. -/
def rootEntries (files : List InputFile) : List UInt8 :=
  dirent rootIno dot ++ (dirent rootIno dotdot ++ entries 2 files)

theorem dirent_length (inum : Nat) (name : List UInt8) : (dirent inum name).length = 16 := by
  rw [dirent, direntBytes, List.length_cons, List.length_cons, List.length_map, List.length_range]
  rfl

theorem entries_length (inum : Nat) (files : List InputFile) :
    (entries inum files).length = 16 * files.length := by
  induction files generalizing inum with
  | nil => rfl
  | cons f fs ih =>
    rw [entries, List.length_append, dirent_length, ih, List.length_cons]
    omega

theorem rootEntries_length (files : List InputFile) :
    (rootEntries files).length = 16 * (files.length + 2) := by
  rw [rootEntries, List.length_append, List.length_append, dirent_length, dirent_length,
    entries_length]
  omega

theorem rootEntries_full (files : List InputFile) :
    (rootEntries files).length % bsize = 0 ↔ (files.length + 2) % 32 = 0 := by
  rw [rootEntries_length]
  unfold bsize
  omega

theorem appended_chunks {i : Nat} (other : i ≠ inum) (bufs : List (List UInt8)) (calls : List Call) :
    appended (bufs.map (.iappend inum) ++ calls) i = appended calls i := by
  induction bufs with
  | nil => rfl
  | cons buf bufs ih =>
    rw [List.map_cons, List.cons_append, appended, if_neg other, ih]

theorem appended_fileCalls (later : rootIno < inum) (files : List InputFile) :
    appended (fileCalls inum files) rootIno = entries inum files := by
  induction files generalizing inum with
  | nil => rfl
  | cons f fs ih =>
    rw [fileCalls, appended, appended, if_pos rfl, appended_chunks (Nat.ne_of_lt later),
      ih (Nat.lt_succ_of_lt later), entries]

theorem appended_mainCalls (files : List InputFile) :
    appended (mainCalls files) rootIno = rootEntries files := by
  rw [mainCalls, appended, appended, if_pos rfl, appended, if_pos rfl,
    appended_fileCalls (by decide), rootEntries]

theorem Valid.chunks {freeinode : Nat} (low : 0 < inum) (high : inum < freeinode)
    (bufs : List (List UInt8)) {calls : List Call} (valid : Valid calls freeinode) :
    Valid (bufs.map (.iappend inum) ++ calls) freeinode := by
  induction bufs with
  | nil => exact valid
  | cons buf bufs ih => exact ⟨⟨low, high⟩, ih⟩

theorem fileCalls_valid (later : rootIno < inum) (few : inum + files.length ≤ ninodes) :
    Valid (fileCalls inum files) inum := by
  induction files generalizing inum with
  | nil => trivial
  | cons f fs ih =>
    rw [List.length_cons] at few
    have rest := ih (Nat.lt_succ_of_lt later) (by omega)
    exact ⟨by omega, ⟨Nat.one_pos, by omega⟩,
      Valid.chunks (by omega) (Nat.lt_succ_self inum) _ rest⟩

theorem mainCalls_valid (few : files.length + 1 < ninodes) : Valid (mainCalls files) 1 :=
  ⟨by decide, by decide, by decide, fileCalls_valid (by decide) (by omega)⟩

/-! ## The bitmap -/

/-- The test that the kernel makes of a block's bit. -/
def marked (buf : Sector) (b : Nat) : Prop :=
  (buf (b / 8)).toNat &&& 1 <<< (b % 8) ≠ 0

theorem marked_iff_testBit {buf : Sector} :
    marked buf b ↔ (buf (b / 8)).toNat.testBit (b % 8) = true := by
  rw [marked, Nat.one_shiftLeft, Nat.and_two_pow]
  cases (buf (b / 8)).toNat.testBit (b % 8) with
  | false => simp
  | true => simp

theorem marked_markUsed {used : Nat} : marked (markUsed used) b ↔ b < used := by
  induction used with
  | zero => simp [marked, markUsed]
  | succ i ih =>
    rw [marked_iff_testBit] at ih ⊢
    rw [markUsed]
    by_cases sameByte : b / 8 = i / 8
    · have width : b % 8 < 8 := Nat.mod_lt b (by decide)
      rw [sameByte, update_self, UInt8.toNat_ofNat', Nat.testBit_mod_two_pow,
        decide_eq_true width, Bool.true_and, Nat.testBit_or, Bool.or_eq_true, ← sameByte,
        ih, Nat.one_shiftLeft, Nat.testBit_two_pow, decide_eq_true_iff]
      omega
    · rw [update_of_ne sameByte, ih]
      omega

/-! ## The finished image -/

/-- The root inode with the size that `main` gives it. -/
def rootFixed (d : Dinode) : Dinode :=
  { d with size := (d.size / bsize + 1) * bsize }

/-- The inodes after the size of the root directory is set. -/
def fixedFiles (files : Nat → Dinode) : Nat → Dinode :=
  Function.update files rootIno (rootFixed (files rootIno))

theorem fixedFiles_addrs (files : Nat → Dinode) (i : Nat) :
    (fixedFiles files i).addrs = (files i).addrs := by
  unfold fixedFiles
  exact Update.cases i rfl fun _ => rfl

theorem finish_spec {files : Nat → Dinode} {content : Nat → List UInt8}
    (good : Good s files content) :
    ∃ s', finish rootIno s = some s' ∧ s'.freeblock = s.freeblock ∧
      Kept (fixedFiles files) s'.disk s.freeblock content ∧
      (∀ i, i < ninodes → dinodeAt s'.disk sb i = fixedFiles files i) ∧
      s'.disk 1 = sbSector sb ∧ s'.disk sb.bmapstart = markUsed s.freeblock := by
  have valid : rootIno < ninodes := by decide
  have start : nmeta = 59 := rfl
  have bitmapBlock : sb.bmapstart = 58 := rfl
  have logs : nlog = 30 := rfl
  have bounds := iblock_bounds valid
  have fits : (rootFixed (files rootIno)).Fits := by
    have old := good.kept.fits rootIno
    have length := good.kept.length rootIno
    rw [← good.size] at length
    have quotient : (files rootIno).size / bsize ≤ maxfile :=
      Nat.div_le_of_le_mul (by rw [Nat.mul_comm]; exact length)
    have small : (maxfile + 1) * bsize < 2 ^ 32 := by decide
    exact ⟨old.type, old.major, old.minor, old.nlink,
      lt_of_le_of_lt (Nat.mul_le_mul_right bsize (Nat.succ_le_succ quotient)) small, old.addrs,
      old.beyond⟩
  obtain ⟨disk, wrote, inodes, others⟩ := winode_spec s.disk valid fits
  have size : s.freeblock < bsize * 8 := lt_of_le_of_lt good.room (by decide)
  have data (b : Nat) (different : b ≠ sb.bmapstart) :
      wsect disk sb.bmapstart (markUsed s.freeblock) b = disk b :=
    update_of_ne different _ _
  have bitmap : wsect disk sb.bmapstart (markUsed s.freeblock) sb.bmapstart = markUsed s.freeblock :=
    update_self _ _ _
  refine ⟨{ s with disk := wsect disk sb.bmapstart (markUsed s.freeblock) }, ?_, rfl, ?_, ?_, ?_,
    bitmap⟩
  · rw [finish, rinode_eq valid, good.inodes rootIno valid]
    change (winode s.disk rootIno (rootFixed (files rootIno))).bind (fun disk =>
      (balloc s.freeblock disk).bind fun disk => some { s with disk := disk }) = _
    rw [wrote, Option.bind_some, balloc, if_pos size, Option.bind_some]
  · apply good.kept.inodes _ (fixedFiles_addrs files)
    · intro b high
      dsimp only
      rw [data b (by omega), others b (by omega)]
    · unfold fixedFiles
      exact fun i => Update.cases i fits fun _ => good.kept.fits i
  · intro i inside
    have bounds := iblock_bounds inside
    have sameInode : dinodeAt (wsect disk sb.bmapstart (markUsed s.freeblock)) sb i =
        dinodeAt disk sb i := by
      rw [dinodeAt, dinodeAt, data _ (by omega)]
    dsimp only
    rw [sameInode, inodes, fixedFiles]
    by_cases same : i = rootIno
    · rw [if_pos same, same, update_self]
    · rw [if_neg same, update_of_ne same, good.inodes i inside]
  · dsimp only
    rw [data 1 (by decide), others 1 (by omega)]
    exact good.superblock

/-- What the image should be: `files` are the arguments, and `freeblock` is the next free block. -/
structure WellFormed (files : List InputFile) (disk : Disk) (freeblock : Nat) : Prop where
  superblock : readsb disk = sb
  small : ∀ i, i < ninodes → (dinodeAt disk sb i).size ≤ maxfile * bsize
  mapped : ∀ i b, i < ninodes → b < maxfile →
    (place (dinodeAt disk sb i) disk b ≠ 0 ↔ b < ((dinodeAt disk sb i).size + bsize - 1) / bsize)
  range : ∀ i y, i < ninodes → y ≤ maxfile → place (dinodeAt disk sb i) disk y ≠ 0 →
    nmeta ≤ place (dinodeAt disk sb i) disk y ∧ place (dinodeAt disk sb i) disk y < fssize
  distinct : ∀ i j x y, i < ninodes → j < ninodes → x ≤ maxfile → y ≤ maxfile →
    place (dinodeAt disk sb i) disk x = place (dinodeAt disk sb j) disk y →
    place (dinodeAt disk sb i) disk x ≠ 0 → i = j ∧ x = y
  bitmap : ∀ b, b < bsize * 8 → (marked (disk sb.bmapstart) b ↔ b < freeblock)
  inUse : ∀ b, b < freeblock ↔
    b < nmeta ∨ ∃ i y, i < ninodes ∧ y ≤ maxfile ∧ place (dinodeAt disk sb i) disk y = b ∧ b ≠ 0
  root : ∀ off, off < (dinodeAt disk sb rootIno).size →
    disk (place (dinodeAt disk sb rootIno) disk (off / bsize)) (off % bsize) =
      (rootEntries files).getD off 0

theorem below_ceil {size : Nat} : b < (size + bsize - 1) / bsize ↔ b * bsize < size := by
  unfold bsize
  omega

/-- What a run of `main` builds, before it finishes. -/
theorem main_built (few : files.length + 1 < ninodes) (ran : main files = some s) :
    ∃ s₁ inodes, Good s₁ inodes (appended (mainCalls files)) ∧ s₁.freeinode ≤ ninodes ∧
      finish rootIno s₁ = some s := by
  rw [main_eq] at ran
  obtain ⟨_, ran⟩ := Option.ite_none_right_eq_some.mp ran
  obtain ⟨s₁, called, finished⟩ := Option.bind_eq_some_iff.mp ran
  have fits : FitsOn fun i => [] ++ appended (mainCalls files) i :=
    runCalls_fits Good.start (by decide) (mainCalls_valid few) called
  obtain ⟨s₂, inodes, called₂, -, bound, good⟩ :=
    runCalls_good Good.start (by decide) (mainCalls_valid few) fits
  cases called₂.symm.trans called
  exact ⟨s₁, inodes, good, bound, finished⟩

variable {disk : Disk} {free : Nat} {inodes : Nat → Dinode} {content : Nat → List UInt8}

/-- The size of an inode, and of the root directory. -/
theorem fixedFiles_size (sizes : ∀ i, (inodes i).size = (content i).length) (i : Nat) :
    (fixedFiles inodes i).size =
      if i = rootIno then ((content i).length / bsize + 1) * bsize else (content i).length := by
  unfold fixedFiles
  by_cases same : i = rootIno
  · rw [if_pos same, same, update_self, rootFixed, sizes]
  · rw [if_neg same, update_of_ne same, sizes]

/-- The blocks of the root directory are those of its new size, if its last block is not full. -/
theorem mapped_iff (partly : len % bsize ≠ 0) :
    b * bsize < (len / bsize + 1) * bsize ↔ b * bsize < len := by
  unfold bsize at *
  omega

/-- If it is full, one block is missing. -/
theorem not_mapped (whole : len % bsize = 0) :
    len / bsize * bsize < (len / bsize + 1) * bsize ∧ ¬len / bsize * bsize < len := by
  unfold bsize at *
  omega

/-- No other inode has a block. -/
theorem Kept.inode_lt (kept : Kept inodes disk free content)
    (unused : ∀ i, ninodes ≤ i → content i = []) {i y : Nat} (bound : y ≤ maxfile)
    (there : place (inodes i) disk y ≠ 0) : i < ninodes := by
  by_contra outside
  have empty := unused i (Nat.le_of_not_lt outside)
  rcases Nat.lt_or_eq_of_le bound with inside | isIndirect
  · have before := (kept.mapped i y inside).mp there
    rw [empty] at before
    exact Nat.not_lt_zero _ before
  · rw [isIndirect, place_maxfile, kept.indirect, empty] at there
    exact Nat.not_lt_zero _ there

/-- The image is well formed when the blocks of the root directory are those of its size. -/
theorem wellFormed_of_partly (kept : Kept (fixedFiles inodes) disk free content)
    (at_ : ∀ i, i < ninodes → dinodeAt disk sb i = fixedFiles inodes i)
    (sizes : ∀ i, (inodes i).size = (content i).length)
    (unused : ∀ i, ninodes ≤ i → content i = []) (written : disk 1 = sbSector sb)
    (bitmap : disk sb.bmapstart = markUsed free) (room : free ≤ fssize)
    (isRoot : content rootIno = rootEntries files) (few : files.length + 1 < ninodes)
    (partly : (rootEntries files).length % bsize ≠ 0) : WellFormed files disk free := by
  have rootSize : (fixedFiles inodes rootIno).size =
      ((rootEntries files).length / bsize + 1) * bsize := by
    rw [fixedFiles_size sizes, if_pos rfl, isRoot]
  have mapped : ∀ i b, b * bsize < (fixedFiles inodes i).size ↔ b * bsize < (content i).length := by
    intro i b
    rw [fixedFiles_size sizes]
    split
    · rename_i same
      rw [same, isRoot]
      exact mapped_iff partly
    · rfl
  have start : 0 < nmeta := by decide
  refine ⟨readsb_sbSector written, ?_, ?_, ?_, ?_, ?_, ?_, ?_⟩
  · intro i inside
    rw [at_ i inside, fixedFiles_size sizes]
    split
    · rename_i same
      rw [same, isRoot, rootEntries_length]
      unfold ninodes at few
      unfold bsize maxfile ndirect nindirect
      omega
    · exact kept.length i
  · intro i b inside bound
    rw [at_ i inside, kept.mapped i b bound, below_ceil, mapped]
  · intro i y inside bound there
    rw [at_ i inside] at there ⊢
    obtain ⟨low, high⟩ := kept.owned.range i y bound there
    exact ⟨low, lt_of_lt_of_le high room⟩
  · intro i j x y insideI insideJ boundX boundY same there
    rw [at_ i insideI, at_ j insideJ] at same
    rw [at_ i insideI] at there
    exact kept.owned.distinct i j x y boundX boundY same there
  · intro b _
    rw [bitmap]
    exact marked_markUsed
  · intro b
    constructor
    · intro inUse
      rcases Nat.lt_or_ge b nmeta with low | high
      · exact .inl low
      · obtain ⟨i, y, bound, there⟩ := kept.owned.onto b high inUse
        have inside := kept.inode_lt unused bound (by rw [there]; omega)
        exact .inr ⟨i, y, inside, bound, by rw [at_ i inside]; exact there, by omega⟩
    · rintro (low | ⟨i, y, inside, bound, there, notZero⟩)
      · exact lt_of_lt_of_le low kept.data
      · rw [at_ i inside] at there
        rw [← there] at notZero ⊢
        exact (kept.owned.range i y bound notZero).2
  · intro off below
    have valid : rootIno < ninodes := by decide
    have whole := Nat.div_add_mod off bsize
    rw [Nat.mul_comm] at whole
    have before := (mapped rootIno (off / bsize)).mp (by rw [at_ _ valid] at below; omega)
    rw [at_ _ valid, kept.bytes rootIno _ _ before (Nat.mod_lt _ (by decide)), whole, isRoot]

/-- When the last block of the root directory is full, its size has a block that it has not. -/
theorem main_hole (few : files.length + 1 < ninodes) (ran : main files = some s)
    (full : (files.length + 2) % 32 = 0) : ¬WellFormed files s.disk s.freeblock := by
  intro wellFormed
  obtain ⟨s₁, inodes, good, -, finished⟩ := main_built few ran
  obtain ⟨s₂, finished₂, free, kept, at_, written, bitmap⟩ := finish_spec good
  cases finished₂.symm.trans finished
  have isRoot := appended_mainCalls files
  have valid : rootIno < ninodes := by decide
  obtain ⟨inside, missing⟩ := not_mapped ((rootEntries_full files).mpr full)
  have inFile : (rootEntries files).length / bsize < maxfile := by
    rw [rootEntries_length]
    unfold ninodes at few
    unfold bsize maxfile ndirect nindirect
    omega
  have block := wellFormed.mapped rootIno ((rootEntries files).length / bsize) valid inFile
  rw [at_ _ valid, kept.mapped _ _ inFile, isRoot, below_ceil, fixedFiles_size good.size,
    if_pos rfl, isRoot] at block
  exact missing (block.mpr inside)

/-- `mkfs` builds a well-formed image exactly if the entries do not fill the last block of the root
directory. -/
theorem main_wellFormed_iff (files : List InputFile) (few : files.length + 1 < ninodes) (s : State)
    (ran : main files = some s) :
    WellFormed files s.disk s.freeblock ↔ (files.length + 2) % 32 ≠ 0 := by
  constructor
  · intro wellFormed full
    exact main_hole few ran full wellFormed
  · intro notFull
    obtain ⟨s₁, inodes, good, bound, finished⟩ := main_built few ran
    obtain ⟨s₂, finished₂, free, kept, at_, written, bitmap⟩ := finish_spec good
    cases finished₂.symm.trans finished
    rw [free]
    apply wellFormed_of_partly kept at_ good.size _ written bitmap good.room
      (appended_mainCalls files) few (fun full => notFull ((rootEntries_full files).mp full))
    intro i outside
    exact (good.unused i (.inr (le_trans bound outside))).1

/-- `mkfs` exits with 0 when the files fit. -/
theorem main_of_fits (accepted : files.all InputFile.accepted = true)
    (few : files.length + 1 < ninodes) (fits : FitsOn (appended (mainCalls files))) :
    ∃ s, main files = some s := by
  have fromEmpty : FitsOn fun i => [] ++ appended (mainCalls files) i := fits
  obtain ⟨s, inodes, called, -, -, good⟩ :=
    runCalls_good Good.start (by decide) (mainCalls_valid few) fromEmpty
  obtain ⟨s', finished, -⟩ := finish_spec good
  exact ⟨s', by rw [main_eq, if_pos accepted, called, Option.bind_some, finished]⟩

/-- The arguments `_cat`, with two bytes. -/
def oneFile : List InputFile :=
  [⟨[95, 99, 97, 116], by decide, some [[104, 105]]⟩]

theorem main_wellFormed_oneFile :
    oneFile.length + 1 < ninodes ∧ ∃ s, main oneFile = some s ∧
      (WellFormed oneFile s.disk s.freeblock ↔ (oneFile.length + 2) % 32 ≠ 0) := by
  have few : oneFile.length + 1 < ninodes := by decide
  obtain ⟨s, ran⟩ := main_of_fits (by decide) few
    (fitsOn_of_size (by decide +kernel) (by decide +kernel))
  exact ⟨few, s, ran, main_wellFormed_iff oneFile few s ran⟩

/-- Thirty empty files. -/
def thirtyFiles : List InputFile :=
  List.replicate 30 ⟨[97], by decide, some []⟩

theorem main_thirtyFiles :
    thirtyFiles.length + 1 < ninodes ∧ ∃ s, main thirtyFiles = some s ∧
      ¬WellFormed thirtyFiles s.disk s.freeblock := by
  have few : thirtyFiles.length + 1 < ninodes := by decide
  obtain ⟨s, ran⟩ := main_of_fits (by decide) few
    (fitsOn_of_size (by decide +kernel) (by decide +kernel))
  exact ⟨few, s, ran, main_hole few ran (by decide)⟩

end Xv6.Mkfs
