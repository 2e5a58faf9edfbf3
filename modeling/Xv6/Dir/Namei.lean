import Xv6.Dir.Entries
import Xv6.Dir.Path
import Xv6.Inode.Cache

/-!
Path lookup.

Owns: `namex`, `namei` and `nameiparent` of the kernel, as one process runs them while no other
uses the file system; the walk that a path stands for; and that the calls make this walk, where
they do not panic, and leave the references and locks as they should.

Does not own: `skipelem` (`Xv6.Dir.Path`); one directory (`Xv6.Dir.Entries`); the inode cache
(`Xv6.Inode.Cache`).
-/

namespace Xv6.Dir

open Icache (iget idup ilock iunlock iput iunlockput ninode Coherent Alike)
open Inode (Volume Devsw)
open Mkfs (Superblock Dinode Disk FileType bsize dinodeAt iblock loadDinode place rootIno storeDinode)

/-! ## The kernel -/

/-- `dirlookup(dp, name, 0)`, for an entry `dp` of the inode cache. -/
def dirlookupIp (devsw : Devsw) (sb : Superblock) (s : Icache.State) (dp : Nat)
    (name : Nat → UInt8) : Option (Option Nat × Icache.State) :=
  match dirlookup devsw sb (s.inode dp).ip name s.v with
  | none => none
  | some (found, ip, v) =>
    let s := Icache.State.set ⟨s.inode, v⟩ dp { s.inode dp with ip := ip }
    match found with
    | none => some (none, s)
    | some (inum, _) => (iget s inum).map fun (next, s) => (some next, s)

/-- The loop of `namex`, with the bytes that it leaves in `name`. -/
def namexFrom (devsw : Devsw) (sb : Superblock) (nameiparent : Bool) :
    Nat → Icache.State → Nat → List UInt8 → (Nat → UInt8) →
      Option (Option Nat × (Nat → UInt8) × Icache.State)
  | 0, _, _, _, _ => none
  | fuel + 1, s, ip, path, name =>
    match skipelem path name with
    | none =>
      if nameiparent then (iput sb s ip).map fun s => (none, name, s)
      else some (some ip, name, s)
    | some (path, name) =>
      match ilock sb s ip with
      | none => none
      | some s =>
        if (s.inode ip).ip.type ≠ FileType.dir.code then
          (iunlockput sb s ip).map fun s => (none, name, s)
        else if nameiparent ∧ path = [] then
          (iunlock s ip).map fun s => (some ip, name, s)
        else
          match dirlookupIp devsw sb s ip name with
          | none => none
          | some (none, s) => (iunlockput sb s ip).map fun s => (none, name, s)
          | some (some next, s) =>
            match iunlockput sb s ip with
            | none => none
            | some s => namexFrom devsw sb nameiparent fuel s next path name

/-- `namex`, for a process with the working directory `cwd`. Every pass takes a byte from the path
at least. -/
def namex (devsw : Devsw) (sb : Superblock) (s : Icache.State) (cwd : Nat) (path : List UInt8)
    (nameiparent : Bool) (name : Nat → UInt8) : Option (Option Nat × (Nat → UInt8) × Icache.State) :=
  if path.head? = some slash then
    match iget s rootIno with
    | none => none
    | some (ip, s) => namexFrom devsw sb nameiparent (path.length + 1) s ip path name
  else namexFrom devsw sb nameiparent (path.length + 1) (idup s cwd) cwd path name

/-- `namei`, with what is in its variable `name` when it is called. -/
def namei (devsw : Devsw) (sb : Superblock) (s : Icache.State) (cwd : Nat) (path : List UInt8)
    (name : Nat → UInt8) : Option (Option Nat × Icache.State) :=
  (namex devsw sb s cwd path false name).map fun (ip, _, s) => (ip, s)

def nameiparent (devsw : Devsw) (sb : Superblock) (s : Icache.State) (cwd : Nat)
    (path : List UInt8) (name : Nat → UInt8) :
    Option (Option Nat × (Nat → UInt8) × Icache.State) :=
  namex devsw sb s cwd path true name

/-! ## Walks -/

/-- The inode that `dirlookup` finds for a name, if inode `i` is a directory. -/
def entry (devsw : Devsw) (sb : Superblock) (v : Volume) (i : Nat) (name : List UInt8) :
    Option Nat :=
  if (dinodeAt v.disk sb i).type = FileType.dir.code then
    match dirlookup devsw sb (dinodeAt v.disk sb i) (pointer name) v with
    | some (some (inum, _), _) => some inum
    | _ => none
  else none

/-- One name after the other is looked up. -/
def walk (devsw : Devsw) (sb : Superblock) (v : Volume) (start : Nat) (names : List (List UInt8)) :
    Option Nat :=
  names.foldlM (entry devsw sb v) start

/-- Where a path begins. -/
def start (s : Icache.State) (cwd : Nat) (path : List UInt8) : Nat :=
  if path.head? = some slash then rootIno else (s.inode cwd).inum

/-- An inode that has a link or is referred to. -/
def Live (sb : Superblock) (s : Icache.State) (i : Nat) : Prop :=
  (dinodeAt s.v.disk sb i).nlink ≠ 0 ∨ s.refs i ≠ 0

/-- No process uses the file system. An entry of a directory may be for an inode that is free: a
directory that was removed, but is still the working directory of a process, has such an entry
`..` after its parent was removed too. -/
structure Quiescent (sb : Superblock) (s : Icache.State) (cwd : Nat) : Prop where
  coherent : Coherent sb none s
  directories : ∀ i, i < sb.ninodes → (dinodeAt s.v.disk sb i).type = FileType.dir.code →
    Directory sb i (dinodeAt s.v.disk sb i) s.v
  entries : ∀ i name j, i < sb.ninodes → Live sb s i →
    (dinodeAt s.v.disk sb i).type = FileType.dir.code →
    some (name, j) ∈ slotsOf (dinodeAt s.v.disk sb i) s.v →
    j < sb.ninodes ∧ ((dinodeAt s.v.disk sb j).type ≠ 0 → Live sb s j)
  root : rootIno < sb.ninodes ∧ Live sb s rootIno
  cwd : (s.inode cwd).inum < sb.ninodes ∧ s.Points cwd (s.inode cwd).inum

/-- What a call leaves behind that returns entry `r`, which is for inode `target`. -/
structure Returned (s : Icache.State) (target r : Option Nat) (s' : Icache.State) : Prop where
  result : Option.Rel s'.Points r target
  disk : s'.v = s.v
  refs : ∀ j, s'.refs j = s.refs j + if target = some j then 1 else 0
  locks : ∀ k, k < ninode → (s'.inode k).locked = (s.inode k).locked

/-- The lookup of a path is a fold over its names. -/
structure LooksUp (devsw : Devsw) (sb : Superblock) (s : Icache.State) (cwd : Nat)
    (path : List UInt8) : Prop where
  namei : ∀ name, ∃ r s', namei devsw sb s cwd path name = some (r, s') ∧
    Returned s (walk devsw sb s.v (start s cwd path) (names path)) r s'
  fails : walk devsw sb s.v (start s cwd path) (names path) = none ↔
    ∃ front name back i, names path = front ++ name :: back ∧
      walk devsw sb s.v (start s cwd path) front = some i ∧
      ((dinodeAt s.v.disk sb i).type ≠ FileType.dir.code ∨
        ∃ after, dirlookup devsw sb (dinodeAt s.v.disk sb i) (pointer name) s.v = some (none, after))
  parent : names path ≠ [] → ∀ name, ∃ r name' s' target,
    nameiparent devsw sb s cwd path name = some (r, name', s') ∧ Returned s target r s' ∧
      (∀ i, target = some i ↔ walk devsw sb s.v (start s cwd path) (names path).dropLast = some i ∧
        (dinodeAt s.v.disk sb i).type = FileType.dir.code) ∧
      (target = none → walk devsw sb s.v (start s cwd path) (names path) = none) ∧
      ∀ i, target = some i → ∃ found after,
        dirlookup devsw sb (dinodeAt s.v.disk sb i) name' s.v = some (found, after) ∧
          found.map Prod.fst = walk devsw sb s.v (start s cwd path) (names path)
  noParent : names path = [] → ∀ name, ∃ name' s',
    nameiparent devsw sb s cwd path name = some (none, name', s') ∧ Returned s none none s'

/-- Every inode that a part of the way leads to is allocated if the way goes on, and has an entry
in the inode cache or finds one there while the inode before it has one. -/
def Passable (devsw : Devsw) (sb : Superblock) (s : Icache.State) : Nat → List (List UInt8) → Prop
  | _, [] => True
  | i, name :: names =>
    (dinodeAt s.v.disk sb i).type ≠ 0 ∧ ∀ j, entry devsw sb s.v i name = some j →
      (insert j (insert i s.inUse)).card ≤ ninode ∧ Passable devsw sb s j names

/-- The way of a path from where it begins. -/
def Clear (devsw : Devsw) (sb : Superblock) (s : Icache.State) (cwd : Nat) (path : List UInt8) :
    Prop :=
  (insert (start s cwd path) s.inUse).card ≤ ninode ∧
    Passable devsw sb s (start s cwd path) (names path)

/-! ## One directory -/

variable {devsw : Devsw} {sb : Superblock} {v : Volume} {s : Icache.State} {cwd i j : Nat}

theorem Directory.entry_eq_lookup (dir : Directory sb i (dinodeAt v.disk sb i) v)
    (name : List UInt8) : entry devsw sb v i name =
      SlotMap.lookup (slotsOf (dinodeAt v.disk sb i) v) (nameOf (pointer name)) := by
  rw [entry, if_pos dir.isDir, dirlookup_eq devsw dir, SlotMap.lookup]
  cases SlotMap.find (nameOf (pointer name)) 0 (slotsOf (dinodeAt v.disk sb i) v) <;> rfl

/-- What `dirlookup` finds depends on the name only. -/
theorem Directory.entry_eq (devsw : Devsw) (dir : Directory sb i (dinodeAt v.disk sb i) v)
    (name : Nat → UInt8) :
    ∃ found, dirlookup devsw sb (dinodeAt v.disk sb i) name v =
        some (found, dinodeAt v.disk sb i, v) ∧
      found.map Prod.fst = entry devsw sb v i (nameOf name) := by
  refine ⟨_, dirlookup_eq devsw dir name, ?_⟩
  rw [dir.entry_eq_lookup, nameOf_pointer_nameOf, located, Option.map_map]
  rfl

theorem entry_notDir {name : List UInt8}
    (notDir : (dinodeAt v.disk sb i).type ≠ FileType.dir.code) : entry devsw sb v i name = none :=
  if_neg notDir

theorem entry_allocated {name : List UInt8} (found : entry devsw sb v i name = some j) :
    (dinodeAt v.disk sb i).type ≠ 0 := by
  intro isFree
  rw [entry_notDir (by rw [isFree]; decide)] at found
  cases found

theorem Quiescent.entry_next (quiescent : Quiescent sb s cwd) (valid : i < sb.ninodes)
    (live : Live sb s i) {name : List UInt8} (found : entry devsw sb s.v i name = some j) :
    j < sb.ninodes ∧ ((dinodeAt s.v.disk sb j).type ≠ 0 → Live sb s j) := by
  by_cases isDir : (dinodeAt s.v.disk sb i).type = FileType.dir.code
  · have dir := quiescent.directories i valid isDir
    rw [entry, if_pos isDir, dirlookup_eq devsw dir] at found
    cases search : SlotMap.find (nameOf (pointer name)) 0 (slotsOf (dinodeAt s.v.disk sb i) s.v) with
    | none =>
      rw [search] at found
      cases found
    | some at_ =>
      obtain ⟨inum, k⟩ := at_
      rw [search] at found
      cases found
      exact quiescent.entries i _ j valid live isDir
        (List.mem_of_getElem? (SlotMap.find_some search).2)
  · rw [entry_notDir isDir] at found
    cases found

/-! ## References on the way -/

/-- The references are as before but for one to `target`, and nothing is locked. -/
structure After (sb : Superblock) (s₀ : Icache.State) (target : Option Nat) (s : Icache.State) :
    Prop where
  coherent : Coherent sb none s
  disk : s.v = s₀.v
  refs : ∀ j, s.refs j = s₀.refs j + if target = some j then 1 else 0

variable {s₀ : Icache.State} {k : Nat} {target r : Option Nat}

theorem After.returned (after : After sb s₀ target s) (coherent : Coherent sb none s₀)
    (result : Option.Rel s.Points r target) : Returned s₀ target r s := by
  refine ⟨result, after.disk, after.refs, ?_⟩
  intro k below
  rw [Bool.eq_iff_iff, after.coherent.locked k below, coherent.locked k below]

theorem inUse_eq (refs : ∀ x, s.refs x = s₀.refs x + if x = i then 1 else 0) :
    s.inUse = insert i s₀.inUse := by
  ext x
  rw [Finset.mem_insert, Icache.mem_inUse, Icache.mem_inUse, ← Icache.refs_ne_zero,
    ← Icache.refs_ne_zero, refs]
  by_cases same : x = i
  · rw [if_pos same]
    exact iff_of_true (Nat.succ_ne_zero _) (.inl same)
  · rw [if_neg same, Nat.add_zero, or_iff_right same]

/-- With a reference more, none to a live inode is the last one before it is freed. -/
theorem Live.notLast (live : Live sb s₀ i) (disk : s.v = s₀.v) (more : s₀.refs i < s.refs i) :
    (dinodeAt s.v.disk sb i).nlink ≠ 0 ∨ 1 < s.refs i := by
  rw [disk]
  exact live.imp_right fun used => by omega

/-- The way goes on from inode `i`, or ends there; in either case its lock and the reference to it
are given back. -/
theorem leave (coherent : Coherent sb (some k) s) (disk : s.v = s₀.v) (points : s.Points k i)
    (live : Live sb s₀ i)
    (refs : ∀ x, s.refs x =
      s₀.refs x + (if x = i then 1 else 0) + if target = some x then 1 else 0) :
    ∃ s', iunlockput sb s k = some s' ∧ After sb s₀ target s' ∧
      ∀ l j, target = some j → s.Points l j → s'.Points l j := by
  have own := refs i
  rw [if_pos rfl] at own
  obtain ⟨s', put_, coherent', dropped⟩ :=
    coherent.iunlockput points (live.notLast disk (by omega))
  refine ⟨s', put_, ⟨coherent', dropped.disk.trans disk, ?_⟩, ?_⟩
  · intro x
    have changed := dropped.refs x
    rw [refs x] at changed
    omega
  · intro l j isTarget before
    refine dropped.keeps l j before ?_
    rintro rfl
    rw [if_pos isTarget] at own
    omega

theorem After.refs_of_some (after : After sb s₀ (some i) s) (x : Nat) :
    s.refs x = s₀.refs x + if x = i then 1 else 0 := by
  rw [after.refs, if_congr (Option.some_inj.trans eq_comm) rfl rfl]

/-- `dirlookup` in a directory that is locked. -/
theorem dirlookupIp_eq (devsw : Devsw) (dir : Directory sb i (dinodeAt s.v.disk sb i) s.v)
    (loaded : (s.inode k).ip = dinodeAt s.v.disk sb i) (name : Nat → UInt8) :
    dirlookupIp devsw sb s k name =
      match entry devsw sb s.v i (nameOf name) with
      | none => some (none, s)
      | some j => (iget s j).map fun (next, s) => (some next, s) := by
  obtain ⟨found, looked, same⟩ := dir.entry_eq devsw name
  have unchanged : Icache.State.set ⟨s.inode, s.v⟩ k
      { s.inode k with ip := dinodeAt s.v.disk sb i } = s := by
    rw [← loaded]
    exact congrArg (Icache.State.mk · s.v) (Function.update_eq_self k s.inode)
  rw [dirlookupIp, loaded, looked, ← same]
  dsimp only
  rw [unchanged]
  cases found <;> rfl

/-! ## One pass of the loop -/

variable {fuel : Nat} {nameiparent : Bool} {path part : List UInt8} {parts : List (List UInt8)}
  {name : Nat → UInt8}

/-- The loop stands at inode `i`, which entry `k` of the cache points to, with this path left. -/
structure Standing (sb : Superblock) (s₀ : Icache.State) (cwd i k : Nat) (path : List UInt8)
    (parts : List (List UInt8)) (s : Icache.State) : Prop where
  quiescent : Quiescent sb s₀ cwd
  after : After sb s₀ (some i) s
  points : s.Points k i
  valid : i < sb.ninodes
  live : (dinodeAt s₀.v.disk sb i).type ≠ 0 → Live sb s₀ i
  noZero : 0 ∉ path
  left : components path = parts

/-- The inode is free. -/
theorem namexFrom_free (at_ : Standing sb s₀ cwd i k path (part :: parts) s)
    (free : (dinodeAt s₀.v.disk sb i).type = 0) :
    namexFrom devsw sb nameiparent (fuel + 1) s k path name = none := by
  obtain ⟨rest, name', skipped, _⟩ := skipelem_cons at_.noZero at_.left name
  rw [← at_.after.disk] at free
  rw [namexFrom, skipped]
  dsimp only
  rw [at_.after.coherent.ilock_none at_.points free]

/-- The inode is not a directory, or has no entry of this name. -/
theorem namexFrom_missing (at_ : Standing sb s₀ cwd i k path (part :: parts) s)
    (allocated : (dinodeAt s₀.v.disk sb i).type ≠ 0)
    (missing : entry devsw sb s₀.v i (part.take dirsiz) = none)
    (goesOn : (dinodeAt s₀.v.disk sb i).type = FileType.dir.code →
      ¬(nameiparent = true ∧ parts = [])) :
    ∃ name' s', namexFrom devsw sb nameiparent (fuel + 1) s k path name = some (none, name', s') ∧
      After sb s₀ none s' := by
  obtain ⟨quiescent, after, points, valid, live, noZero, next⟩ := at_
  obtain ⟨rest, name', skipped, isPart, _, isLast, _⟩ := skipelem_cons noZero next name
  have live := live allocated
  rw [← after.disk] at allocated
  obtain ⟨s₁, locked, coherent, alike, loaded⟩ := after.coherent.ilock_some points allocated
  have disk : s₁.v = s₀.v := alike.disk.trans after.disk
  have refs : ∀ x, s₁.refs x =
      s₀.refs x + (if x = i then 1 else 0) + if (none : Option Nat) = some x then 1 else 0 := by
    intro x
    rw [alike.refs, after.refs_of_some x, if_neg (show ¬none = some x from nofun), Nat.add_zero]
  obtain ⟨s₂, put_, after', _⟩ := leave coherent disk ((alike.points k i).mpr points) live refs
  refine ⟨name', s₂, ?_, after'⟩
  rw [← alike.disk] at loaded
  rw [namexFrom, skipped]
  dsimp only
  rw [locked]
  dsimp only
  by_cases isDir : (dinodeAt s₀.v.disk sb i).type = FileType.dir.code
  · rw [if_neg (by rw [loaded, disk, not_not]; exact isDir),
      if_neg (fun both => goesOn isDir ⟨both.1, isLast.mp both.2⟩),
      dirlookupIp_eq devsw (by rw [disk]; exact quiescent.directories i valid isDir) loaded, disk,
      isPart, missing]
    dsimp only
    rw [put_]
    rfl
  · rw [if_pos (by rw [loaded, disk]; exact isDir), put_]
    rfl

/-- `nameiparent` stops one level early. -/
theorem namexFrom_stops (at_ : Standing sb s₀ cwd i k path [part] s)
    (isDir : (dinodeAt s₀.v.disk sb i).type = FileType.dir.code) :
    ∃ name' s', namexFrom devsw sb true (fuel + 1) s k path name = some (some k, name', s') ∧
      After sb s₀ (some i) s' ∧ s'.Points k i ∧ nameOf name' = part.take dirsiz := by
  obtain ⟨_, after, points, _, _, noZero, next⟩ := at_
  obtain ⟨rest, name', skipped, isPart, _, isLast, _⟩ := skipelem_cons noZero next name
  have allocated : (dinodeAt s.v.disk sb i).type ≠ 0 := by
    rw [after.disk, isDir]
    decide
  obtain ⟨s₁, locked, coherent, alike, loaded⟩ := after.coherent.ilock_some points allocated
  obtain ⟨s₂, unlocked, coherent', alike'⟩ := coherent.iunlock ((alike.points k i).mpr points)
  refine ⟨name', s₂, ?_, ⟨coherent', ?_, ?_⟩, ?_, isPart⟩
  · rw [namexFrom, skipped]
    dsimp only
    rw [locked]
    dsimp only
    rw [if_neg (by rw [loaded, after.disk, not_not]; exact isDir),
      if_pos ⟨rfl, isLast.mpr rfl⟩, unlocked]
    rfl
  · rw [alike'.disk, alike.disk, after.disk]
  · intro x
    rw [alike'.refs, alike.refs, after.refs]
  · exact (alike'.points k i).mpr ((alike.points k i).mpr points)

/-- The directory has an entry of this name. -/
theorem namexFrom_found (at_ : Standing sb s₀ cwd i k path (part :: parts) s)
    (found : entry devsw sb s₀.v i (part.take dirsiz) = some j)
    (goesOn : ¬(nameiparent = true ∧ parts = [])) :
    ∃ s₁ rest name', Coherent sb (some k) s₁ ∧ Alike s s₁ ∧ components rest = parts ∧ 0 ∉ rest ∧
      namexFrom devsw sb nameiparent (fuel + 1) s k path name =
        match iget s₁ j with
        | none => none
        | some (l, s₂) =>
            match iunlockput sb s₂ k with
            | none => none
            | some s₃ => namexFrom devsw sb nameiparent fuel s₃ l rest name' := by
  obtain ⟨quiescent, after, points, valid, _, noZero, next⟩ := at_
  obtain ⟨rest, name', skipped, isPart, others, isLast, noZero'⟩ := skipelem_cons noZero next name
  have isDir : (dinodeAt s₀.v.disk sb i).type = FileType.dir.code := by
    by_contra notDir
    rw [entry_notDir notDir] at found
    cases found
  have allocated : (dinodeAt s.v.disk sb i).type ≠ 0 := by
    rw [after.disk, isDir]
    decide
  obtain ⟨s₁, locked, coherent, alike, loaded⟩ := after.coherent.ilock_some points allocated
  have disk : s₁.v = s₀.v := alike.disk.trans after.disk
  refine ⟨s₁, rest, name', coherent, alike, others, noZero', ?_⟩
  rw [← alike.disk] at loaded
  rw [namexFrom, skipped]
  dsimp only
  rw [locked]
  dsimp only
  rw [if_neg (by rw [loaded, disk, not_not]; exact isDir),
    if_neg (fun both => goesOn ⟨both.1, isLast.mp both.2⟩),
    dirlookupIp_eq devsw (by rw [disk]; exact quiescent.directories i valid isDir) loaded, disk,
    isPart, found]
  dsimp only
  cases iget s₁ j with
  | none => rfl
  | some result => rfl

/-- The cache has no entry for the next inode. -/
theorem namexFrom_full (at_ : Standing sb s₀ cwd i k path (part :: parts) s)
    (found : entry devsw sb s₀.v i (part.take dirsiz) = some j)
    (goesOn : ¬(nameiparent = true ∧ parts = []))
    (full : ninode < (insert j (insert i s₀.inUse)).card) :
    namexFrom devsw sb nameiparent (fuel + 1) s k path name = none := by
  obtain ⟨s₁, rest, name', coherent, alike, _, _, pass⟩ := namexFrom_found at_ found goesOn
  rw [← inUse_eq fun x => (alike.refs x).trans (at_.after.refs_of_some x)] at full
  rw [pass, coherent.iget_none j full]

/-- The way goes on from the next inode. -/
theorem namexFrom_enters (at_ : Standing sb s₀ cwd i k path (part :: parts) s)
    (found : entry devsw sb s₀.v i (part.take dirsiz) = some j)
    (goesOn : ¬(nameiparent = true ∧ parts = []))
    (room : (insert j (insert i s₀.inUse)).card ≤ ninode) :
    ∃ l s' rest name', namexFrom devsw sb nameiparent (fuel + 1) s k path name =
        namexFrom devsw sb nameiparent fuel s' l rest name' ∧
      Standing sb s₀ cwd j l rest parts s' := by
  obtain ⟨s₁, rest, name', coherent, alike, others, noZero', pass⟩ :=
    namexFrom_found at_ found goesOn
  obtain ⟨quiescent, after, points, valid, live, _, _⟩ := at_
  have live := live (entry_allocated found)
  obtain ⟨valid', live'⟩ := quiescent.entry_next valid live found
  have refs₁ : ∀ x, s₁.refs x = s₀.refs x + if x = i then 1 else 0 :=
    fun x => (alike.refs x).trans (after.refs_of_some x)
  rw [← inUse_eq refs₁] at room
  obtain ⟨l, s₂, got, coherent₂, taken⟩ := coherent.iget_some j room
  have disk : s₂.v = s₀.v := taken.disk.trans (alike.disk.trans after.disk)
  have refs₂ : ∀ x, s₂.refs x =
      s₀.refs x + (if x = i then 1 else 0) + if some j = some x then 1 else 0 := by
    intro x
    rw [taken.refs, refs₁, if_congr (Option.some_inj.trans eq_comm) rfl rfl]
  have points₂ := taken.keeps k i ((alike.points k i).mpr points)
  obtain ⟨s₃, put_, after', keeps⟩ := leave coherent₂ disk points₂ live refs₂
  refine ⟨l, s₃, rest, name', ?_, quiescent, after', keeps l j rfl taken.points, valid', live',
    noZero', others⟩
  rw [pass, got]
  dsimp only
  rw [put_]

/-! ## The loop -/

theorem walk_cons (devsw : Devsw) (sb : Superblock) (v : Volume) (i : Nat) (name : List UInt8)
    (names : List (List UInt8)) :
    walk devsw sb v i (name :: names) =
      (entry devsw sb v i name).bind fun j => walk devsw sb v j names := by
  rw [walk, List.foldlM_cons]
  rfl

/-- The loop of `namei` makes the walk. -/
theorem namexFrom_walk (at_ : Standing sb s₀ cwd i k path parts s) (enough : parts.length < fuel)
    (passable : Passable devsw sb s₀ i (parts.map (List.take dirsiz))) (name : Nat → UInt8) :
    ∃ r name' s', namexFrom devsw sb false fuel s k path name = some (r, name', s') ∧
      After sb s₀ (walk devsw sb s₀.v i (parts.map (List.take dirsiz))) s' ∧
      Option.Rel s'.Points r (walk devsw sb s₀.v i (parts.map (List.take dirsiz))) := by
  induction parts generalizing path name fuel s k i with
  | nil =>
    cases fuel with
    | zero => exact absurd enough (Nat.not_lt_zero _)
    | succ fuel =>
      refine ⟨some k, name, s, ?_, at_.after, .some at_.points⟩
      rw [namexFrom, skipelem_nil at_.left]
      rfl
  | cons part parts ih =>
    cases fuel with
    | zero => exact absurd enough (Nat.not_lt_zero _)
    | succ fuel =>
      obtain ⟨allocated, onward⟩ := passable
      have goesOn : ¬(false = true ∧ parts = []) := fun both => Bool.false_ne_true both.1
      rw [List.map_cons, walk_cons]
      cases found : entry devsw sb s₀.v i (part.take dirsiz) with
      | none =>
        obtain ⟨name', s', ran, after'⟩ :=
          namexFrom_missing at_ allocated found (fun _ => goesOn)
        exact ⟨none, name', s', ran, after', .none⟩
      | some j =>
        obtain ⟨room, passable'⟩ := onward j found
        obtain ⟨l, s', rest, name', pass, next⟩ := namexFrom_enters at_ found goesOn room
        rw [pass]
        exact ih next (Nat.lt_of_succ_lt_succ enough) passable' name'

/-- Where the way is not clear, the kernel panics. -/
theorem namexFrom_panics (at_ : Standing sb s₀ cwd i k path parts s)
    (blocked : ¬Passable devsw sb s₀ i (parts.map (List.take dirsiz))) (name : Nat → UInt8) :
    namexFrom devsw sb false fuel s k path name = none := by
  induction parts generalizing path name fuel s k i with
  | nil => exact absurd trivial blocked
  | cons part parts ih =>
    cases fuel with
    | zero => rfl
    | succ fuel =>
      have goesOn : ¬(false = true ∧ parts = []) := fun both => Bool.false_ne_true both.1
      by_cases allocated : (dinodeAt s₀.v.disk sb i).type = 0
      · exact namexFrom_free at_ allocated
      · rw [List.map_cons, Passable, not_and] at blocked
        have onward := blocked allocated
        rw [not_forall] at onward
        obtain ⟨j, onward⟩ := onward
        rw [Classical.not_imp, not_and] at onward
        obtain ⟨found, onward⟩ := onward
        by_cases room : (insert j (insert i s₀.inUse)).card ≤ ninode
        · obtain ⟨l, s', rest, name', pass, next⟩ := namexFrom_enters at_ found goesOn room
          rw [pass]
          exact ih next (onward room) name'
        · exact namexFrom_full at_ found goesOn (Nat.lt_of_not_le room)

/-- `nameiparent` has no last name to return. -/
theorem namexFrom_nil (at_ : Standing sb s₀ cwd i k path [] s) (live : Live sb s₀ i)
    (name : Nat → UInt8) :
    ∃ s', namexFrom devsw sb true (fuel + 1) s k path name = some (none, name, s') ∧
      After sb s₀ none s' := by
  obtain ⟨_, after, points, _, _, _, same⟩ := at_
  have own := after.refs_of_some i
  rw [if_pos rfl] at own
  obtain ⟨s', put_, coherent, dropped⟩ :=
    after.coherent.iput points (live.notLast after.disk (by omega))
  refine ⟨s', ?_, coherent, dropped.disk.trans after.disk, ?_⟩
  · rw [namexFrom, skipelem_nil same]
    dsimp only
    rw [if_pos rfl, put_]
    rfl
  · intro x
    have changed := dropped.refs x
    rw [after.refs_of_some x] at changed
    rw [if_neg (show ¬none = some x from nofun)]
    omega

/-- What `nameiparent` returns for a walk along `names` from inode `i`. -/
structure Parent (devsw : Devsw) (sb : Superblock) (v : Volume) (i : Nat)
    (names : List (List UInt8)) (target : Option Nat) (name : Nat → UInt8) : Prop where
  isDir : ∀ p, target = some p ↔
    walk devsw sb v i names.dropLast = some p ∧ (dinodeAt v.disk sb p).type = FileType.dir.code
  fails : target = none → walk devsw sb v i names = none
  last : ∀ p, target = some p →
    p < sb.ninodes ∧ entry devsw sb v p (nameOf name) = walk devsw sb v i names

/-- The pass for the last name returns with its directory, or fails where there is none. -/
theorem namexFrom_parent_last (at_ : Standing sb s₀ cwd i k path [part] s)
    (allocated : (dinodeAt s₀.v.disk sb i).type ≠ 0) :
    ∃ r name' s' target, namexFrom devsw sb true (fuel + 1) s k path name = some (r, name', s') ∧
      After sb s₀ target s' ∧ Option.Rel s'.Points r target ∧
      Parent devsw sb s₀.v i [part.take dirsiz] target name' := by
  by_cases isDir : (dinodeAt s₀.v.disk sb i).type = FileType.dir.code
  · obtain ⟨name', s', ran, after', points', isLast⟩ :=
      namexFrom_stops at_ isDir
    refine ⟨some k, name', s', some i, ran, after', .some points', ?_, nofun, ?_⟩
    · intro p
      refine ⟨?_, And.left⟩
      rintro ⟨⟩
      exact ⟨rfl, isDir⟩
    · rintro p ⟨⟩
      refine ⟨at_.valid, ?_⟩
      rw [isLast, walk_cons]
      exact (Option.bind_fun_some _).symm
  · obtain ⟨name', s', ran, after'⟩ := namexFrom_missing at_ allocated (entry_notDir isDir)
      (fun isDir' => absurd isDir' isDir)
    refine ⟨none, name', s', none, ran, after', .none, ?_, ?_, nofun⟩
    · intro p
      refine iff_of_false nofun ?_
      rintro ⟨⟨⟩, isDir'⟩
      exact isDir isDir'
    · intro _
      rw [walk_cons, entry_notDir isDir]
      rfl

/-- The loop of `nameiparent` makes the walk up to the last name. -/
theorem namexFrom_parent (at_ : Standing sb s₀ cwd i k path parts s)
    (notEmpty : parts ≠ []) (enough : parts.length < fuel)
    (passable : Passable devsw sb s₀ i (parts.map (List.take dirsiz))) (name : Nat → UInt8) :
    ∃ r name' s' target, namexFrom devsw sb true fuel s k path name = some (r, name', s') ∧
      After sb s₀ target s' ∧ Option.Rel s'.Points r target ∧
      Parent devsw sb s₀.v i (parts.map (List.take dirsiz)) target name' := by
  induction parts generalizing path name fuel s k i with
  | nil => exact absurd rfl notEmpty
  | cons part parts ih =>
    cases fuel with
    | zero => exact absurd enough (Nat.not_lt_zero _)
    | succ fuel =>
      obtain ⟨allocated, onward⟩ := passable
      cases parts with
      | nil =>
        exact namexFrom_parent_last at_ allocated
      | cons second parts =>
        have goesOn : ¬(true = true ∧ second :: parts = []) :=
          fun both => List.cons_ne_nil _ _ both.2
        have front : ((part :: second :: parts).map (List.take dirsiz)).dropLast =
            part.take dirsiz :: ((second :: parts).map (List.take dirsiz)).dropLast := rfl
        cases found : entry devsw sb s₀.v i (part.take dirsiz) with
        | none =>
          obtain ⟨name', s', ran, after'⟩ :=
            namexFrom_missing at_ allocated found (fun _ => goesOn)
          refine ⟨none, name', s', none, ran, after', .none, ?_, ?_, nofun⟩
          · intro p
            rw [front, walk_cons, found]
            exact iff_of_false nofun (fun both => nomatch both.1)
          · intro _
            rw [List.map_cons, walk_cons, found]
            rfl
        | some j =>
          obtain ⟨room, passable'⟩ := onward j found
          obtain ⟨l, s', rest, name', pass, next⟩ := namexFrom_enters at_ found goesOn room
          obtain ⟨r, name'', s'', target, ran, after', result, isDir, fails, last⟩ :=
            ih next (List.cons_ne_nil _ _) (Nat.lt_of_succ_lt_succ enough) passable' name'
          rw [pass]
          refine ⟨r, name'', s'', target, ran, after', result, ?_, ?_, ?_⟩
          · intro p
            rw [front, walk_cons, found]
            exact isDir p
          · intro isNone
            rw [List.map_cons, walk_cons, found]
            exact fails isNone
          · intro p isTarget
            rw [List.map_cons, walk_cons, found]
            exact last p isTarget

/-- Where the walk fails. -/
theorem walk_eq_none_iff {v : Volume} {names : List (List UInt8)} :
    walk devsw sb v i names = none ↔ ∃ front name back p, names = front ++ name :: back ∧
      walk devsw sb v i front = some p ∧ entry devsw sb v p name = none := by
  induction names generalizing i with
  | nil =>
    refine iff_of_false nofun ?_
    rintro ⟨front, name, back, p, same, _⟩
    exact List.append_ne_nil_of_right_ne_nil front (List.cons_ne_nil _ _) same.symm
  | cons name names ih =>
    rw [walk_cons]
    cases found : entry devsw sb v i name with
    | none => exact iff_of_true rfl ⟨[], name, names, i, rfl, rfl, found⟩
    | some j =>
      rw [Option.bind_some, ih]
      constructor
      · rintro ⟨front, last, back, p, rfl, arrives, missing⟩
        refine ⟨name :: front, last, back, p, rfl, ?_, missing⟩
        rw [walk_cons, found]
        exact arrives
      · rintro ⟨front, last, back, p, same, arrives, missing⟩
        cases front with
        | nil =>
          obtain ⟨rfl, -⟩ := List.cons.inj same
          cases arrives
          rw [missing] at found
          cases found
        | cons first front =>
          obtain ⟨rfl, rest⟩ := List.cons.inj same
          rw [walk_cons, found] at arrives
          exact ⟨front, last, back, p, rest, arrives, missing⟩

theorem Quiescent.walk_valid (quiescent : Quiescent sb s₀ cwd) (valid : i < sb.ninodes)
    (live : (dinodeAt s₀.v.disk sb i).type ≠ 0 → Live sb s₀ i) {names : List (List UInt8)}
    (arrives : walk devsw sb s₀.v i names = some j) : j < sb.ninodes := by
  induction names generalizing i with
  | nil =>
    cases arrives
    exact valid
  | cons name names ih =>
    rw [walk_cons] at arrives
    obtain ⟨next, found, arrives'⟩ := Option.bind_eq_some_iff.mp arrives
    obtain ⟨valid', live'⟩ := quiescent.entry_next valid (live (entry_allocated found)) found
    exact ih valid' live' arrives'

/-- An entry is missing in what is not a directory, and where `dirlookup` finds none. -/
theorem Quiescent.entry_eq_none_iff (quiescent : Quiescent sb s₀ cwd) (valid : i < sb.ninodes)
    (name : List UInt8) : entry devsw sb s₀.v i name = none ↔
      (dinodeAt s₀.v.disk sb i).type ≠ FileType.dir.code ∨ ∃ after,
        dirlookup devsw sb (dinodeAt s₀.v.disk sb i) (pointer name) s₀.v = some (none, after) := by
  by_cases isDir : (dinodeAt s₀.v.disk sb i).type = FileType.dir.code
  · rw [or_iff_right (not_not.mpr isDir), entry, if_pos isDir,
      dirlookup_eq devsw (quiescent.directories i valid isDir)]
    cases located (SlotMap.find (nameOf (pointer name)) 0
      (slotsOf (dinodeAt s₀.v.disk sb i) s₀.v)) with
    | none => exact iff_of_true rfl ⟨_, rfl⟩
    | some found => exact iff_of_false nofun (fun ⟨_, same⟩ => nomatch same)
  · exact iff_of_true (entry_notDir isDir) (.inl isDir)

/-! ## The calls -/

theorem Quiescent.start (quiescent : Quiescent sb s cwd) (path : List UInt8) :
    start s cwd path < sb.ninodes ∧ Live sb s (start s cwd path) := by
  rw [Dir.start]
  split
  · exact quiescent.root
  · exact ⟨quiescent.cwd.1, .inr (Icache.refs_ne_zero.mpr ⟨cwd, quiescent.cwd.2⟩)⟩

/-- `namex` begins with a reference to where the path begins. -/
theorem namex_begins (devsw : Devsw) (quiescent : Quiescent sb s cwd)
    (room : (insert (start s cwd path) s.inUse).card ≤ ninode) :
    ∃ k s₁, After sb s (some (start s cwd path)) s₁ ∧ s₁.Points k (start s cwd path) ∧
      ∀ nameiparent name, namex devsw sb s cwd path nameiparent name =
        namexFrom devsw sb nameiparent (path.length + 1) s₁ k path name := by
  have after {k i : Nat} {s₁ : Icache.State} (coherent : Coherent sb none s₁)
      (taken : Icache.Taken s i k s₁) : After sb s (some i) s₁ := by
    refine ⟨coherent, taken.disk, fun x => ?_⟩
    rw [taken.refs, if_congr (Option.some_inj.trans eq_comm) rfl rfl]
  by_cases absolute : path.head? = some slash
  · rw [start, if_pos absolute] at room ⊢
    obtain ⟨k, s₁, got, coherent, taken⟩ := quiescent.coherent.iget_some rootIno room
    refine ⟨k, s₁, after coherent taken, taken.points, fun nameiparent name => ?_⟩
    rw [namex, if_pos absolute, got]
  · rw [start, if_neg absolute] at room ⊢
    obtain ⟨coherent, taken⟩ := quiescent.coherent.idup quiescent.cwd.2
    refine ⟨cwd, idup s cwd, after coherent taken, taken.points, fun nameiparent name => ?_⟩
    rw [namex, if_neg absolute]

/-- Without an entry for the root the kernel panics; the working directory has one. -/
theorem namex_full (devsw : Devsw) (quiescent : Quiescent sb s cwd)
    (full : ninode < (insert (start s cwd path) s.inUse).card) (nameiparent : Bool)
    (name : Nat → UInt8) : namex devsw sb s cwd path nameiparent name = none := by
  by_cases absolute : path.head? = some slash
  · rw [start, if_pos absolute] at full
    rw [namex, if_pos absolute, quiescent.coherent.iget_none rootIno full]
  · have most := Icache.card_inUse_le s
    rw [start, if_neg absolute, Finset.insert_eq_of_mem
      (Icache.mem_inUse.mpr ⟨cwd, quiescent.cwd.2⟩)] at full
    omega

/-- The way is clear. -/
theorem Quiescent.looksUp (quiescent : Quiescent sb s cwd) (noZero : 0 ∉ path)
    (clear : Clear devsw sb s cwd path) : LooksUp devsw sb s cwd path := by
  obtain ⟨room, passable⟩ := clear
  obtain ⟨valid, live⟩ := quiescent.start path
  obtain ⟨k, s₁, after, points, begins⟩ := namex_begins devsw quiescent room
  have at_ : Standing sb s cwd _ k path _ s₁ :=
    ⟨quiescent, after, points, valid, fun _ => live, noZero, rfl⟩
  have enough : (components path).length < path.length + 1 :=
    Nat.lt_succ_of_le (length_components path)
  refine ⟨?_, ?_, ?_, ?_⟩
  · intro name
    obtain ⟨r, name', s', ran, after', result⟩ := namexFrom_walk at_ enough passable name
    refine ⟨r, s', ?_, after'.returned quiescent.coherent result⟩
    rw [Dir.namei, begins, ran]
    rfl
  · rw [walk_eq_none_iff]
    refine exists_congr fun front => exists_congr fun name => exists_congr fun back =>
      exists_congr fun p => and_congr_right fun _ => and_congr_right fun arrives => ?_
    exact quiescent.entry_eq_none_iff (quiescent.walk_valid valid (fun _ => live) arrives) name
  · intro notEmpty name
    have someParts : components path ≠ [] := fun isEmpty => notEmpty (by rw [names, isEmpty]; rfl)
    obtain ⟨r, name', s', target, ran, after', result, isDir, fails, last⟩ :=
      namexFrom_parent at_ someParts enough passable name
    refine ⟨r, name', s', target, ?_, after'.returned quiescent.coherent result, isDir, fails, ?_⟩
    · rw [Dir.nameiparent, begins, ran]
    · intro p isTarget
      obtain ⟨valid', same⟩ := last p isTarget
      obtain ⟨found, looked, isEntry⟩ := (quiescent.directories p valid'
        ((isDir p).mp isTarget).2).entry_eq devsw name'
      exact ⟨found, _, looked, isEntry.trans same⟩
  · intro isEmpty name
    rw [List.map_eq_nil_iff.mp isEmpty] at at_
    obtain ⟨s', ran, after'⟩ := namexFrom_nil at_ live name
    refine ⟨name, s', ?_, after'.returned quiescent.coherent .none⟩
    rw [Dir.nameiparent, begins, ran]

/-- The way is not clear. -/
theorem Quiescent.namei_panics (quiescent : Quiescent sb s cwd) (noZero : 0 ∉ path)
    (blocked : ¬Clear devsw sb s cwd path) (name : Nat → UInt8) :
    namei devsw sb s cwd path name = none := by
  obtain ⟨valid, live⟩ := quiescent.start path
  have panics : namex devsw sb s cwd path false name = none := by
    by_cases room : (insert (Dir.start s cwd path) s.inUse).card ≤ ninode
    · obtain ⟨k, s₁, after, points, begins⟩ := namex_begins devsw quiescent room
      rw [begins]
      exact namexFrom_panics ⟨quiescent, after, points, valid, fun _ => live, noZero, rfl⟩
        (fun passable => blocked ⟨room, passable⟩) name
    · exact namex_full devsw quiescent (Nat.lt_of_not_le room) false name
  rw [namei, panics]
  rfl

/-- `skipelem` takes the names of a path, and `namei` is the fold of `dirlookup` over them wherever
the kernel does not panic on the way. -/
theorem namei_folds_iff (devsw : Devsw) (sb : Superblock) (noZero : 0 ∉ path) :
    (∀ name list, Elements path name list ↔ list = names path) ∧
      ∀ s cwd, Quiescent sb s cwd →
        (LooksUp devsw sb s cwd path ↔ Clear devsw sb s cwd path) := by
  refine ⟨elements_iff noZero, fun s cwd quiescent => ⟨?_, quiescent.looksUp noZero⟩⟩
  intro looksUp
  by_contra blocked
  obtain ⟨r, s', ran, _⟩ := looksUp.namei fun _ => 0
  rw [quiescent.namei_panics noZero blocked] at ran
  cases ran

/-! ## A directory that was removed with its parent -/

def treeSb : Superblock :=
  { Inode.smallSb with ninodes := 4 }

/-- A directory of two entries in block `b`. -/
def dirInode (nlink b : Nat) : Dinode :=
  ⟨FileType.dir.code, 0, 0, nlink, 2 * direntSize, fun k => if k = 0 then b else 0⟩

def freeInode : Dinode :=
  ⟨0, 0, 0, 0, 0, fun _ => 0⟩

/-- The root, and a directory without links. -/
def treeInode : Nat → Dinode
  | 1 => dirInode 1 4
  | 2 => dirInode 0 5
  | _ => freeInode

/-- Inode 3 was the parent of inode 2. -/
def treeDisk : Disk := fun b =>
  if b = 2 then
    storeDinode (storeDinode (fun _ => 0) 1 (treeInode 1)) 2 (treeInode 2)
  else if b = 3 then Mkfs.markUsed 6
  else if b = 4 then pointer (Mkfs.dirent 1 Mkfs.dot ++ Mkfs.dirent 1 Mkfs.dotdot)
  else if b = 5 then pointer (Mkfs.dirent 2 Mkfs.dot ++ Mkfs.dirent 3 Mkfs.dotdot)
  else fun _ => 0

/-- Inode 2 is the working directory of one process, and the root that of another. -/
def removedCwd : Icache.State where
  inode k :=
    if k = 0 then ⟨2, 1, false, true, treeInode 2⟩
    else if k = 1 then ⟨1, 1, false, false, freeInode⟩
    else ⟨0, 0, false, false, freeInode⟩
  v := ⟨treeDisk, []⟩

theorem dirInode_fits {nlink b : Nat} (links : nlink < 2 ^ 16) (block : b < 2 ^ 32) :
    (dirInode nlink b).Fits := by
  refine ⟨(by decide : FileType.dir.code < 2 ^ 16), Nat.two_pow_pos 16, Nat.two_pow_pos 16, links,
    (by decide : 2 * direntSize < 2 ^ 32), ?_, ?_⟩
  · intro k
    show (if k = 0 then b else 0) < 2 ^ 32
    split
    · exact block
    · decide
  · intro k beyond
    exact if_neg (by omega)

theorem loadDinode_zero (slot : Nat) : loadDinode (fun _ => 0) slot = freeInode := by
  have zero (off width : Nat) : Bytes.get (fun _ => 0) off width = 0 :=
    Bytes.get_zero fun _ _ _ => rfl
  unfold loadDinode
  simp only [zero, ite_self]
  rfl

theorem treeDisk_inode {i : Nat} (valid : i < 4) : dinodeAt treeDisk treeSb i = treeInode i := by
  have block : treeDisk (iblock i treeSb) =
      storeDinode (storeDinode (fun _ => 0) 1 (treeInode 1)) 2 (treeInode 2) := by
    rw [iblock, Nat.div_eq_of_lt (by unfold Mkfs.ipb; omega)]
    rfl
  rw [dinodeAt, block, Nat.mod_eq_of_lt (by unfold Mkfs.ipb; omega)]
  by_cases second : i = 2
  · rw [second]
    exact Mkfs.load_store_same (dirInode_fits (by decide) (by decide))
  · rw [Mkfs.load_store_other _ second]
    by_cases first : i = 1
    · rw [first]
      exact Mkfs.load_store_same (dirInode_fits (by decide) (by decide))
    · rw [Mkfs.load_store_other _ first, loadDinode_zero]
      obtain rfl | rfl : i = 0 ∨ i = 3 := by omega
      · rfl
      · rfl

theorem dirInode_place (nlink b : Nat) (disk : Disk) (z : Nat) :
    place (dirInode nlink b) disk z = if z = 0 then b else 0 := by
  rw [place]
  split
  · rfl
  · next beyond =>
      have past : z ≠ 0 := by
        rintro rfl
        exact beyond (by decide)
      rw [if_neg past]
      split
      · rfl
      · exact if_pos rfl

/-- The blocks of the two directories. -/
theorem treeInode_place {i z : Nat} {disk : Disk} (valid : i < 4)
    (there : place (treeInode i) disk z ≠ 0) :
    (i = 1 ∨ i = 2) ∧ z = 0 ∧ place (treeInode i) disk z = i + 3 := by
  have entries {nlink b : Nat} (there : place (dirInode nlink b) disk z ≠ 0) :
      z = 0 ∧ place (dirInode nlink b) disk z = b := by
    rw [dirInode_place] at there ⊢
    split at there
    · next isFirst => exact ⟨isFirst, if_pos isFirst⟩
    · exact absurd rfl there
  obtain rfl | rfl | rfl | rfl : i = 0 ∨ i = 1 ∨ i = 2 ∨ i = 3 := by omega
  · exact absurd (Inode.place_of_addrs (fun _ => rfl) disk z) there
  · exact ⟨.inl rfl, entries there⟩
  · exact ⟨.inr rfl, entries there⟩
  · exact absurd (Inode.place_of_addrs (fun _ => rfl) disk z) there

theorem treeDisk_sound : Inode.Sound treeSb (dinodeAt treeDisk treeSb) treeDisk := by
  have used : ∀ c, c < 6 → Inode.used treeSb treeDisk c := by
    decide
  have low {b : Nat} (reserved : Inode.Reserved treeSb b) : b < 4 :=
    Inode.reserved_smallSb (by decide) reserved
  refine ⟨fun i _ => Inode.dinodeAt_fits _ _ i, ?_, ?_, ?_⟩
  · intro b _ reserved
    have first := low reserved
    exact used b (by omega)
  · intro i z valid _ there
    rw [treeDisk_inode valid] at there ⊢
    obtain ⟨which, _, at_⟩ := treeInode_place valid there
    rw [at_]
    have small : i + 3 < 6 := by omega
    refine ⟨lt_of_lt_of_le small (by decide), used _ small, fun reserved => ?_⟩
    have first := low reserved
    omega
  · intro i j x z validI validJ _ _ same there
    rw [treeDisk_inode validI] at same there
    rw [treeDisk_inode validJ] at same
    obtain ⟨_, isFirst, at_⟩ := treeInode_place validI there
    rw [same] at there
    obtain ⟨_, isFirst', at_'⟩ := treeInode_place validJ there
    rw [same, at_'] at at_
    exact ⟨by omega, by rw [isFirst, isFirst']⟩

theorem treeInode_dir {i : Nat} (valid : i < 4) (isDir : (treeInode i).type = FileType.dir.code) :
    i = 1 ∨ i = 2 := by
  obtain rfl | rfl | rfl | rfl : i = 0 ∨ i = 1 ∨ i = 2 ∨ i = 3 := by omega
  · cases isDir
  · exact .inl rfl
  · exact .inr rfl
  · cases isDir

theorem treeDisk_directory {i : Nat} (which : i = 1 ∨ i = 2) :
    Directory treeSb i (dinodeAt treeDisk treeSb i) removedCwd.v := by
  have valid : i < 4 := by omega
  have sizes : ∀ i, i < 4 → (treeInode i).size ≤ Mkfs.maxfile * bsize := by
    decide
  have isDir : (treeInode i).type = FileType.dir.code := by
    rcases which with rfl | rfl <;> rfl
  have size : (treeInode i).size = 2 * direntSize := by
    rcases which with rfl | rfl <;> rfl
  rw [treeDisk_inode valid]
  refine ⟨⟨Inode.smallSb_layout (by decide), valid, treeDisk_inode valid, treeDisk_sound, ?_, ?_⟩, isDir, ?_⟩
  · intro j valid'
    rw [show dinodeAt removedCwd.v.disk treeSb j = treeInode j from treeDisk_inode valid']
    exact sizes j valid'
  · intro b below
    rw [size] at below
    have isFirst : b = 0 := by
      unfold bsize direntSize at below
      omega
    rw [isFirst]
    rcases which with rfl | rfl
    · decide
    · decide
  · rw [size]
    rfl

theorem removedCwd_slots :
    slotsOf (treeInode 1) removedCwd.v = [some ([46], 1), some ([46, 46], 1)] ∧
      slotsOf (treeInode 2) removedCwd.v = [some ([46], 2), some ([46, 46], 3)] := by
  decide +kernel

theorem removedCwd_inode {i : Nat} (valid : i < 4) :
    dinodeAt removedCwd.v.disk treeSb i = treeInode i :=
  treeDisk_inode valid

theorem removedCwd_points {k i : Nat} (points : removedCwd.Points k i) :
    k = 0 ∧ i = 2 ∨ k = 1 ∧ i = 1 := by
  obtain ⟨_, ref, inum⟩ := points
  by_cases first : k = 0
  · subst first
    exact .inl ⟨rfl, inum.symm⟩
  · by_cases second : k = 1
    · subst second
      exact .inr ⟨rfl, inum.symm⟩
    · refine absurd ?_ ref
      show (if k = 0 then _ else if k = 1 then _ else _ : Icache.Entry).ref = 0
      rw [if_neg first, if_neg second]

theorem removedCwd_coherent : Coherent treeSb none removedCwd := by
  refine ⟨?_, ?_, ?_⟩
  · intro k l i first second
    rcases removedCwd_points first with ⟨_, _⟩ | ⟨_, _⟩ <;>
      rcases removedCwd_points second with ⟨_, _⟩ | ⟨_, _⟩ <;> omega
  · intro k _
    refine iff_of_false ?_ nofun
    show ¬(if k = 0 then _ else if k = 1 then _ else _ : Icache.Entry).locked = true
    split
    · exact Bool.false_ne_true
    · split <;> exact Bool.false_ne_true
  · intro k i points isValid
    rcases removedCwd_points points with ⟨rfl, rfl⟩ | ⟨rfl, rfl⟩
    · exact ⟨(treeDisk_inode (show 2 < 4 by decide)).symm, nofun⟩
    · cases isValid

theorem removedCwd_live {i : Nat} (which : i = 1 ∨ i = 2) : Live treeSb removedCwd i := by
  refine .inr (Icache.refs_ne_zero.mpr ?_)
  rcases which with rfl | rfl
  · exact ⟨1, by decide, nofun, rfl⟩
  · exact ⟨0, by decide, nofun, rfl⟩

theorem removedCwd_quiescent : Quiescent treeSb removedCwd 0 := by
  refine ⟨removedCwd_coherent, ?_, ?_, ⟨by decide, removedCwd_live (.inl rfl)⟩,
    by decide, by decide, nofun, rfl⟩
  · intro i valid isDir
    rw [removedCwd_inode valid] at isDir
    exact treeDisk_directory (treeInode_dir valid isDir)
  · intro i name j valid _ isDir member
    rw [removedCwd_inode valid] at isDir member
    obtain ⟨root, removed⟩ := removedCwd_slots
    have entries : i = 1 ∧ j = 1 ∨ i = 2 ∧ (j = 2 ∨ j = 3) := by
      rcases treeInode_dir valid isDir with rfl | rfl
      · rw [root] at member
        simp only [List.mem_cons, Option.some.injEq, Prod.mk.injEq, List.not_mem_nil, or_false]
          at member
        omega
      · rw [removed] at member
        simp only [List.mem_cons, Option.some.injEq, Prod.mk.injEq, List.not_mem_nil, or_false]
          at member
        omega
    have inside : j < 4 := by omega
    refine ⟨inside, fun allocated => removedCwd_live ?_⟩
    rw [removedCwd_inode inside] at allocated
    have notFree : j ≠ 3 := by
      rintro rfl
      exact allocated rfl
    omega

/-- `open("../x")` in a directory that was removed, and whose parent was removed after it. -/
theorem namei_removedCwd :
    Quiescent treeSb removedCwd 0 ∧
      namei ⟨fun _ => none, fun _ => none⟩ treeSb removedCwd 0 [46, 46, 47, 120] (fun _ => 0) = none ∧
      ¬LooksUp ⟨fun _ => none, fun _ => none⟩ treeSb removedCwd 0 [46, 46, 47, 120] := by
  have blocked : ¬Clear ⟨fun _ => none, fun _ => none⟩ treeSb removedCwd 0 [46, 46, 47, 120] := by
    intro clear
    have way : Passable ⟨fun _ => none, fun _ => none⟩ treeSb removedCwd 2 [[46, 46], [120]] := clear.2
    have parent : entry ⟨fun _ => none, fun _ => none⟩ treeSb removedCwd.v 2 [46, 46] = some 3 := by
      rw [(treeDisk_directory (.inr rfl)).entry_eq_lookup, removedCwd_inode (by decide),
        removedCwd_slots.2]
      rfl
    exact (way.2 3 parent).2.1 (by rw [removedCwd_inode (by decide)]; rfl)
  have panics := removedCwd_quiescent.namei_panics (by decide) blocked (fun _ => 0)
  refine ⟨removedCwd_quiescent, panics, fun looksUp => ?_⟩
  obtain ⟨r, s', ran, _⟩ := looksUp.namei fun _ => 0
  rw [panics] at ran
  cases ran

/-- `open("/.././x")` in the same directory. -/
theorem namei_folds_removedCwd :
    LooksUp ⟨fun _ => none, fun _ => none⟩ treeSb removedCwd 0 [47, 46, 46, 47, 46, 47, 120] := by
  have allocated : (dinodeAt removedCwd.v.disk treeSb 1).type ≠ 0 := by
    rw [removedCwd_inode (by decide)]
    decide
  have room (j : Nat) : (insert j (insert 1 removedCwd.inUse)).card ≤ ninode :=
    (Finset.card_insert_le _ _).trans (by decide +kernel)
  have root (name : List UInt8) :
      entry ⟨fun _ => none, fun _ => none⟩ treeSb removedCwd.v 1 name =
        SlotMap.lookup [some ([46], 1), some ([46, 46], 1)] (nameOf (pointer name)) := by
    rw [(treeDisk_directory (.inl rfl)).entry_eq_lookup, removedCwd_inode (by decide),
      removedCwd_slots.1]
  refine ((namei_folds_iff _ treeSb (by decide)).2 removedCwd 0 removedCwd_quiescent).mpr ⟨?_, ?_⟩
  · decide +kernel
  · show Passable ⟨fun _ => none, fun _ => none⟩ treeSb removedCwd 1 [[46, 46], [46], [120]]
    refine ⟨allocated, fun j found => ⟨room j, ?_⟩⟩
    rw [root] at found
    cases found
    refine ⟨allocated, fun j found => ⟨room j, ?_⟩⟩
    rw [root] at found
    cases found
    exact ⟨allocated, fun j _ => ⟨room j, trivial⟩⟩

end Xv6.Dir
