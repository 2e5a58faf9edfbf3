import Xv6.Fs.Safe

/-!
The system calls in the logic of references, locks and links.

Owns: that every system call can run from what a process holds between calls, and gives back what
it has taken.

Does not own: the functions that the calls use (`Xv6.Fs.Safe`).
-/

namespace Xv6.Fs

open Interleave
open Multiset (mem_cons_self mem_cons_of_mem mem_singleton_self erase_cons_head cons_swap)

variable {n : Nat} {g : Bool} {β α : Type} {L : Links} {d : Inode}
  {final : β → Hold n → Prop} {rest : Unit → M n β} {ip : Inum} {path : Path}
  {Q : Unit → Hold n → Prop} {a : Refs n} {f : FileNo} {fd : Fd} {omode : Omode}

/-- What a call may hold when it returns. -/
abbrev Done (g : Bool) {α : Type} : α → Hold n → Prop :=
  fun _ h => (logic g n).done h

theorem idle_done : (Refs.idle.still 0 : Refs n).Done :=
  ⟨rfl, rfl, rfl, rfl, rfl, rfl, rfl, rfl, rfl⟩

theorem done_of (value : α) (done : a.Done) : Done g value (⟨a, ⟨[]⟩, .idle⟩ : Hold n) :=
  ⟨done, rfl, fun _ => ⟨rfl, rfl, rfl⟩⟩

section Transactions

variable {f : Refs n} {I : Multiset Inum}

theorem beginOp_safe (after : Safe g final (holding f I [] L.lasting) (rest ())) :
    Safe g final (holding f I [] L) (perform .beginOp >>= rest) := by
  refine Safe.perform (needs_refs trivial rfl) ?_
  rintro ⟨⟩ -
  exact after

theorem endOp_safe (after : Safe g final (holding f I [] L.lasting) (rest ())) :
    Safe g final (holding f I [] L) (perform .endOp >>= rest) := by
  refine Safe.perform (needs_refs trivial rfl) ?_
  rintro ⟨⟩ -
  exact after

end Transactions

/-- A call ends its transaction and returns. -/
theorem finish_safe (value : Int) :
    Safe g (Done g) (holding (.idle : Refs n) 0 [] .idle) (do
      perform .endOp
      return value) :=
  endOp_safe (done_of value idle_done)

theorem noPlain {J : Multiset Inum} (none_ : L.plain = none) (_ : g = true) (j : Inum)
    (isPlain : L.plain = some j) : j ∈ J := by
  rw [none_] at isPlain
  cases isPlain

/-- A call releases its only inode, ends its transaction and returns. -/
theorem leave_safe {i : Inum} (value : Int) :
    Safe g (Done g) (holding (.idle : Refs n) (i ::ₘ 0) [(i, some d)] .idle) (do
      iunlockput i
      perform .endOp
      return value) := by
  refine .bind (iunlockputOne_safe (noPlain rfl) ?_)
  exact finish_safe value

/-! ## Links -/

section Drop

variable {f : Refs n} {I : Multiset Inum} {K : List (Inum × Option Inode)} {i : Inum}

theorem without_modify (K : List (Inum × Option Inode)) (i : Inum) (g : Inode → Inode) :
    without ((Locks.mk K).modify i g).held i = without K i := by
  unfold Locks.modify without
  induction K with
  | nil => rfl
  | cons lock K ih =>
    by_cases same : lock.1 = i
    · simp only [List.map_cons, same, if_true]
      rw [List.filter_cons_of_neg (by simp), List.filter_cons_of_neg (by simp [same])]
      exact ih
    · simp only [List.map_cons, same, if_false]
      rw [List.filter_cons_of_pos (by simpa using same), List.filter_cons_of_pos (by simpa using same)]
      exact congrArg _ ih

theorem Held.modify (held : Held K i d) (g : Inode → Inode) :
    Held ((Locks.mk K).modify i g).held i (g d) := by
  intro known
  simp only [Locks.modify, List.mem_map]
  constructor
  · rintro ⟨⟨j, old⟩, member, same⟩
    by_cases isKey : j = i
    · subst isKey
      rw [if_pos rfl] at same
      rw [(held old).mp member] at same
      exact (Prod.mk.inj same).2.symm
    · rw [if_neg isKey] at same
      exact absurd (Prod.mk.inj same).1 isKey
  · rintro rfl
    exact ⟨(i, some d), held.knows, by simp⟩

/-- A link is taken away, and the inode is given back, which frees it if it was the last one. -/
theorem dropput_safe (held : Held K i d) (owes : g = true → i ∈ L.owed)
    (after : Safe g final (holding f I (without K i) ((L.paid i).attach i)) (rest ())) :
    Safe g final (holding f (i ::ₘ I) K L)
      (perform (.dropLink i) >>= fun _ => iunlockput i >>= rest) := by
  refine Safe.perform (needs_locks ⟨d, held.knows⟩
    (fun guarded => ⟨mem_cons_self i I, owes guarded⟩) rfl) ?_
  rintro ⟨⟩ -
  change Safe g final (holding f (i ::ₘ I)
    ((Locks.mk K).modify i fun d => { d with nlink := d.nlink - 1 }).held (L.paid i)) _
  refine .bind (iunlockput_safe (held.modify fun d => { d with nlink := d.nlink - 1 })
    (noPlain rfl) ?_)
  rw [without_modify]
  exact after

end Drop

/-- A file that a call is making another link to. -/
abbrev linking (ip : Inum) : Links :=
  ⟨{ip}, none, some ip, none, none, none⟩

theorem unlinkAgain_safe :
    Safe g (Done g) (holding (.idle : Refs n) {ip} [] (linking ip)) (unlinkAgain ip) := by
  unfold unlinkAgain
  refine .bind (ilockOne_safe (by simp) fun d => ?_)
  refine dropput_safe (held_one ip d) (fun _ => mem_singleton_self ip) ?_
  have settled : (((linking ip).locked ip).paid ip).attach ip = .idle := by
    simp [Links.paid, Links.locked, Links.lasting, Links.attach, Links.idle]
  rw [without_one, settled]
  exact finish_safe (-1)

theorem sysLink_safe {old new : Path} :
    Safe g (Done g) (.idle : Hold n) (sysLink old new) := by
  unfold sysLink
  refine beginOp_safe (f := .idle) (I := 0) ?_
  refine .bind (namex_safe rfl rfl rfl (noPlain rfl) (finish_safe (-1)) ?_)
  intro ip _
  refine .bind (ilockOne_safe (by simp) fun d => ?_)
  refine getInode_safe (held_one ip d) ?_
  intro _
  refine Safe.ite (fun _ => leave_safe (-1)) fun isFile => ?_
  refine Safe.perform (needs_locks ⟨d, List.mem_cons_self⟩ (fun _ => mem_cons_self ip 0) rfl) ?_
  rintro ⟨⟩ -
  have added : Links.addedLink ⟨[(ip, some d)]⟩ .idle ip = linking ip := by
    simp [Links.addedLink, Locks.find, isFile, Links.owing, Links.lasting, Links.idle]
  have locks : (Locks.mk [(ip, some d)]).modify ip (fun d => { d with nlink := d.nlink + 1 }) =
      ⟨[(ip, some { d with nlink := d.nlink + 1 })]⟩ := by
    simp [Locks.modify]
  change Safe g (Done g) ⟨Refs.idle.still {ip},
    (Locks.mk [(ip, some d)]).modify ip fun d => { d with nlink := d.nlink + 1 },
    Links.addedLink ⟨[(ip, some d)]⟩ .idle ip⟩ _
  rw [added, locks]
  refine .bind (iunlockOne_safe ?_)
  have keepsPlain {J : Multiset Inum} (member : ip ∈ J) (_ : g = true) (j : Inum)
      (isPlain : (linking ip).plain = some j) : j ∈ J := by
    cases isPlain
    exact member
  refine .bind (namex_safe rfl rfl rfl (keepsPlain (mem_singleton_self ip))
    unlinkAgain_safe ?_)
  intro dp name
  have hasDir : dp ∈ dp ::ₘ ({ip} : Multiset Inum) := mem_cons_self dp _
  have hasFile : ip ∈ dp ::ₘ ({ip} : Multiset Inum) :=
    mem_cons_of_mem (mem_singleton_self ip)
  refine .bind (ilockOne_safe (by simp) fun b => ?_)
  refine .bind (dirlink_safe hasDir rfl (keepsPlain hasFile) ?_ ?_ ?_)
  · intro guarded looked lookup
    have attached (i : Inum) : ((linking ip).lasting.locked dp).detached ≠ some i :=
      (Option.some_ne_none i).symm
    obtain ⟨up, isDir⟩ := looked.isDir guarded (attached dp)
    exact .inr ⟨⟨b, List.mem_cons_self, hasDir, attached dp, looked.type⟩,
      isDir.plain_of_lookup lookup, mem_singleton_self ip, .inl ⟨attached ip, .inl rfl⟩⟩
  · refine .bind (iunlockputOne_safe (keepsPlain (mem_singleton_self ip)) ?_)
    exact unlinkAgain_safe
  · refine .bind (iunlockput_safe (held_one dp _) (noPlain rfl) ?_)
    rw [without_one]
    have settled : (((((linking ip).lasting.locked dp).lasting.addedEntry dp ip).lasting.attach
        dp).lasting.attach ip) = .idle := by
      simp [Links.addedEntry, Links.paid, Links.locked, Links.lasting, Links.attach, Links.idle]
    refine .bind (iput_safe (noPlain rfl) fun _ => ?_)
    rw [settled]
    exact finish_safe 0

/-- `sys_unlink` past its checks. -/
theorem removeEntry_safe {dp : Inum} {a b : Inode} {off : Nat} {e : Dirent} (different : ip ≠ dp)
    (entry : b.entries[off]? = some (some e)) (isEntry : e.inum = ip) (notDotted : ¬Dotted e.name)
    (dirType : b.type = .dir) (empty : a.type = .dir → a.isEmpty = true) :
    Safe g (Done g) (holding (.idle : Refs n) (ip ::ₘ dp ::ₘ 0) [(ip, some a), (dp, some b)] .idle) (removeEntry dp ip off a.type) := by
  obtain ⟨first, second⟩ := mem_two ip dp 0
  unfold removeEntry
  refine Safe.perform (needs_locks ⟨b, (held_second different).knows⟩ ?_ rfl) ?_
  · intro _
    refine ⟨rfl, b, e, a, ⟨(held_second different).knows, second, nofun, dirType⟩, entry,
      notDotted, ?_, ?_, empty⟩
    · rw [isEntry]
      exact (held_first different).knows
    · rw [isEntry]
      exact first
  rintro ⟨⟩ -
  have target : Links.target ⟨[(ip, some a), (dp, some b)]⟩ dp off =
      some (ip, decide (a.type = .dir)) := by
    unfold Links.target
    rw [find_second different, Option.bind_some, entry]
    simp [isEntry, Locks.find]
  change Safe g (Done g) ⟨Refs.idle.still (ip ::ₘ dp ::ₘ 0),
    (Locks.mk [(ip, some a), (dp, some b)]).modify dp fun d => d.clearEntry off,
    Links.clearedEntry ⟨[(ip, some a), (dp, some b)]⟩ .idle dp off⟩ _
  rw [modify_second different, Links.clearedEntry, target]
  refine Safe.ite ?_ ?_
  · intro isDir
    rw [decide_eq_true isDir, cons_swap]
    refine dropput_safe (held_second different)
      (fun _ => mem_cons_of_mem (mem_cons_self dp 0)) ?_
    have left : ((Links.idle.parted dp ip).paid dp).attach dp = owing {ip} (some ip) := by
      simp [Links.parted, Links.paid, Links.lasting, Links.attach, Links.idle, different]
    rw [without_second _ _ different, left]
    refine dropput_safe (held_one ip a) (fun _ => mem_singleton_self ip) ?_
    have settled : ((owing {ip} (some ip)).paid ip).attach ip = .idle := by
      simp [Links.paid, Links.lasting, Links.attach, Links.idle]
    rw [without_one, settled]
    exact finish_safe 0
  · intro isFile
    rw [decide_eq_false isFile, cons_swap]
    refine .bind (iunlockput_safe (held_second different) (noPlain rfl) ?_)
    rw [without_second _ _ different]
    refine dropput_safe (held_one ip a) (fun _ => mem_cons_self ip 0) ?_
    have settled : (((Links.idle.owing ip).lasting.attach dp).paid ip).attach ip = .idle := by
      simp [Links.owing, Links.paid, Links.lasting, Links.attach, Links.idle]
    rw [without_one, settled]
    exact finish_safe 0

theorem sysUnlink_safe : Safe g (Done g) (.idle : Hold n) (sysUnlink path) := by
  unfold sysUnlink
  refine beginOp_safe (f := .idle) (I := 0) ?_
  refine .bind (namex_safe rfl rfl rfl (noPlain rfl) (finish_safe (-1)) ?_)
  intro dp name
  have hasDir : dp ∈ dp ::ₘ (0 : Multiset Inum) := mem_cons_self dp 0
  refine .bind (ilockOne_safe (by simp) fun b => ?_)
  refine Safe.ite (fun _ => leave_safe (-1)) fun notDotted => ?_
  refine .bind (dirlookup_safe (held_one dp b) hasDir nofun ?_ ?_)
  · intro _ _
    exact leave_safe (-1)
  intro off e looked _ atSlot named
  have plainName : ¬Dotted e.name := by
    rw [named]
    exact notDotted
  refine .bind (ilock_safe (.inl (mem_cons_self e.inum _)) ?_ ?_)
  · intro _
    exact .inr (.inl ⟨dp, b, e, rfl,
      ⟨List.mem_cons_self, mem_cons_of_mem hasDir, nofun, looked.type⟩,
      List.mem_of_getElem? atSlot, plainName, rfl⟩)
  intro a notHeld _ _
  have different : e.inum ≠ dp := by simpa using notHeld
  refine getInode_safe (held_first different) ?_
  intro _
  refine Safe.ite (fun _ => Safe.panic) fun _ => ?_
  refine Safe.ite ?_ ?_
  · intro _
    refine .bind (iunlockput_safe (held_first different) (noPlain rfl) ?_)
    rw [show without [(e.inum, some a), (dp, some b)] e.inum = [(dp, some b)] from
      filter_cons_bare (by simpa using different)]
    exact leave_safe (-1)
  · intro removable
    refine removeEntry_safe different atSlot rfl plainName looked.type ?_
    intro isDir
    by_contra notEmpty
    exact removable ⟨isDir, Bool.not_eq_true _ ▸ notEmpty⟩

/-! ## Files -/

/-- `fileclose` gives back a reference to a file, and what the file has if it was the last one. -/
theorem fileclose_safe (member : f ∈ a.files) (dying : a.dying = none)
    (after : Q () ⟨{ a.forget with files := a.files.erase f, blank := a.blank.erase f },
      ⟨[]⟩, .idle⟩) : Safe g Q ⟨a, ⟨[]⟩, .idle⟩ (fileclose f) := by
  unfold fileclose
  refine Safe.perform (needs_refs member rfl) ?_
  rintro (found : Option FileKind) -
  match found with
  | none => exact after
  | some .none => exact after
  | some (.pipe p writable) =>
    refine Safe.perform (needs_refs (mem_cons_self _ _) rfl) ?_
    rintro (last : Bool) -
    have ends : ((p, writable) ::ₘ a.ends).erase (p, writable) = a.ends := erase_cons_head _ _
    cases last with
    | false =>
      change Q () ⟨{ a.forget with
        files := a.files.erase f
        blank := a.blank.erase f
        ends := ((p, writable) ::ₘ a.ends).erase (p, writable) }, ⟨[]⟩, .idle⟩
      rw [ends]
      exact after
    | true =>
      refine Safe.last (needs_refs (mem_cons_self _ _) rfl) ?_
      rintro ⟨⟩ -
      change Q () ⟨{ a.forget with
        files := a.files.erase f
        blank := a.blank.erase f
        ends := ((p, writable) ::ₘ a.ends).erase (p, writable)
        pages := (p ::ₘ a.pages).erase p }, ⟨[]⟩, .idle⟩
      rw [ends, erase_cons_head]
      exact after
  | some (.inode ip readable writable) =>
    obtain ⟨inodes, dying, files, blank, stale, staleCwd, ends, pages, child, here, got, opened, own, shut,
      away⟩ := a
    subst dying
    refine beginOp_safe
      (f := ⟨inodes, none, files.erase f, blank.erase f, stale, staleCwd, ends, pages, child, none, none,
        opened, own, shut, away⟩) (I := ip ::ₘ inodes) ?_
    refine .bind (iput_safe (noPlain rfl) fun _ => ?_)
    refine Safe.last (needs_refs trivial rfl) ?_
    rintro ⟨⟩ -
    exact after

theorem sysDup_safe : Safe g (Done g) (.idle : Hold n) (sysDup fd) := by
  unfold sysDup
  refine Safe.perform (needs_refs rfl rfl) ?_
  rintro (_ | f) -
  · exact done_of (-1) idle_done
  refine Safe.perform (needs_refs ⟨rfl, rfl⟩ rfl) ?_
  rintro (_ | copy) -
  · refine done_of (-1) ⟨rfl, rfl, rfl, rfl, ?_, rfl, rfl, rfl, rfl⟩
    change (if f ∈ (0 : Multiset FileNo) then none else none) = none
    exact ite_self _
  have stale : (if f ∈ (0 : Multiset FileNo) then none else some (copy, f)) = some (copy, f) :=
    if_neg (Multiset.notMem_zero f)
  refine Safe.perform (needs_refs ?_ rfl) ?_
  · intro entry isStale
    have same := stale.symm.trans isStale
    cases same
    rfl
  · rintro ⟨⟩ -
    refine done_of (copy.val : Int) ⟨rfl, rfl, ?_, rfl, rfl, rfl, rfl, rfl, rfl⟩
    change (if (if f ∈ (0 : Multiset FileNo) then none else some (copy, f)).isSome
      then (0 : Multiset FileNo).erase f else f ::ₘ (0 : Multiset FileNo).erase f) = 0
    rw [stale]
    rfl

theorem sysClose_safe : Safe g (Done g) (.idle : Hold n) (sysClose fd) := by
  unfold sysClose
  refine Safe.perform (needs_refs rfl rfl) ?_
  rintro (_ | f) -
  · exact done_of (-1) ⟨rfl, rfl, rfl, rfl, rfl, rfl, rfl, rfl, rfl⟩
  refine Safe.perform (needs_refs ?_ rfl) ?_
  · intro entry isStale
    cases isStale
    rfl
  rintro (_ : Option FileNo) -
  refine .bind (fileclose_safe (mem_cons_self f 0) rfl ?_)
  refine done_of 0 ⟨rfl, rfl, ?_, rfl, rfl, rfl, rfl, rfl, rfl⟩
  exact erase_cons_head f 0

/-- A file that `filealloc` has just found is closed without further ado. -/
theorem closeBlank_safe {K : List (Inum × Option Inode)} (member : f ∈ a.files)
    (isBlank : f ∈ a.blank)
    (after : Q () ⟨{ a.forget with files := a.files.erase f, blank := a.blank.erase f }, ⟨K⟩,
      L.lasting⟩) : Safe g Q ⟨a, ⟨K⟩, L⟩ (fileclose f) := by
  unfold fileclose
  refine Safe.perform (needs_refs member rfl) ?_
  rintro (found : Option FileKind) ⟨isNone, -⟩
  rcases isNone isBlank with same | same
  · have found_ : found = none := same
    subst found_
    exact after
  · have found_ : found = some .none := same
    subst found_
    exact after

theorem openInode_safe :
    Safe g (Done g) (holding (.idle : Refs n) {ip} [(ip, some d)] .idle)
      (openInode ip omode) := by
  have hasInode : ip ∈ ({ip} : Multiset Inum) := mem_singleton_self ip
  unfold openInode
  refine Safe.perform (needs_refs trivial rfl) ?_
  rintro (_ | f) -
  · change Safe g (Done g) (holding (.idle : Refs n) {ip} [(ip, some d)] .idle) _
    exact leave_safe (-1)
  have hasFile : f ∈ f ::ₘ (0 : Multiset FileNo) := mem_cons_self f 0
  refine Safe.perform (needs_refs ⟨rfl, rfl⟩ rfl) ?_
  rintro (_ | fd) -
  · change Safe g (Done g) ⟨{ (Refs.idle.still {ip} : Refs n) with
      files := f ::ₘ 0
      blank := f ::ₘ 0
      stale := if f ∈ f ::ₘ (0 : Multiset FileNo) then none else none }, ⟨[(ip, some d)]⟩,
      .idle⟩ _
    rw [ite_self]
    refine .bind (closeBlank_safe hasFile hasFile ?_)
    rw [erase_cons_head]
    exact leave_safe (-1)
  change Safe g (Done g) ⟨{ (Refs.idle.still {ip} : Refs n) with
    files := (f ::ₘ (0 : Multiset FileNo)).erase f
    blank := f ::ₘ 0
    stale := if f ∈ f ::ₘ (0 : Multiset FileNo) then none else some (fd, f)
    own := some (fd, f) }, ⟨[(ip, some d)]⟩, .idle⟩ _
  rw [if_pos hasFile, erase_cons_head]
  refine .bind (iunlock_safe
    (f := { (Refs.idle : Refs n) with blank := f ::ₘ 0, own := some (fd, f) }) (I := {ip})
    (held_one ip d) ?_)
  rw [without_one]
  refine endOp_safe ?_
  refine Safe.perform ⟨⟨hasFile, ?_, nofun⟩, trivial, trivial, ?_⟩ ?_
  · intro i isIp
    cases isIp
    exact hasInode
  · exact fun _ => ⟨fun i _ => ⟨nofun, nofun⟩, trivial⟩
  · rintro ⟨⟩ -
    refine done_of (fd.val : Int) ⟨?_, rfl, rfl, ?_, rfl, rfl, rfl, rfl, rfl⟩
    · exact Multiset.erase_singleton ip
    · exact erase_cons_head f 0

theorem sysOpen_safe : Safe g (Done g) (.idle : Hold n) (sysOpen path omode) := by
  unfold sysOpen
  refine beginOp_safe (f := .idle) (I := 0) ?_
  refine Safe.ite ?_ ?_
  · intro _
    exact .bind (create_safe nofun rfl (finish_safe (-1))
      fun _ _ => openInode_safe)
  · intro _
    refine .bind (namex_safe rfl rfl rfl (noPlain rfl) (finish_safe (-1)) ?_)
    intro ip _
    refine .bind (ilockOne_safe (by simp) fun d => ?_)
    refine getInode_safe (held_one ip d) ?_
    intro _
    refine Safe.ite (fun _ => leave_safe (-1)) fun _ => ?_
    exact openInode_safe

theorem sysMake_safe {type : IType} (typed : type ≠ .free) :
    Safe g (Done g) (.idle : Hold n) (sysMake path type) := by
  unfold sysMake
  refine beginOp_safe (f := .idle) (I := 0) ?_
  refine .bind (create_safe typed rfl (finish_safe (-1)) ?_)
  intro ip d
  exact leave_safe 0

theorem sysChdir_safe : Safe g (Done g) (.idle : Hold n) (sysChdir path) := by
  unfold sysChdir
  refine beginOp_safe (f := .idle) (I := 0) ?_
  refine .bind (namex_safe rfl rfl rfl (noPlain rfl) (finish_safe (-1)) ?_)
  intro ip _
  refine .bind (ilockOne_safe (by simp) fun d => ?_)
  refine getInode_safe (held_one ip d) ?_
  intro _
  refine Safe.ite ?_ ?_
  · intro _
    refine .bind (iunlockOne_safe ?_)
    refine Safe.perform (needs_refs rfl rfl) ?_
    rintro (cwd : Inum) -
    refine .bind (iput_safe (f := { (Refs.idle : Refs n) with staleCwd := true })
      (I := ip ::ₘ 0) (noPlain rfl) fun _ => ?_)
    refine endOp_safe ?_
    refine Safe.perform ⟨⟨rfl, ?_⟩, trivial, trivial, fun _ => ⟨(fun i _ => nofun), trivial⟩⟩ ?_
    · intro i isCwd
      cases isCwd
      exact mem_cons_self ip 0
    · rintro ⟨⟩ -
      refine done_of 0 ⟨?_, rfl, rfl, rfl, rfl, rfl, rfl, rfl, rfl⟩
      exact erase_cons_head ip 0
  · intro _
    exact leave_safe (-1)

/-! ## Reading and writing -/

section Transfer

variable {f : Refs n} {I : Multiset Inum}

theorem transfer_safe {Q : Bool → Hold n → Prop} (member : ip ∈ I ∨ f.opened = some ip)
    (after : ∀ ok d, Q ok (holding f I [(ip, some d)] .idle)) :
    Safe g Q (holding f I [(ip, some d)] .idle) (transfer ip) := by
  unfold transfer
  refine getInode_safe (held_one ip d) fun _ => ?_
  refine Safe.perform (needs_refs trivial rfl) ?_
  rintro (failed : Bool) -
  refine Safe.ite ?_ fun _ => after (!failed) d
  intro _
  refine .bind (iunlockOne_safe (f := f) (I := I) ?_)
  refine .bind (ilockOne_safe member fun d => ?_)
  refine Safe.perform (needs_refs trivial rfl) ?_
  rintro (failed : Bool) -
  exact after (!failed) d

theorem execReads_safe {Q : Bool → Hold n → Prop} (reads : Nat)
    (after : ∀ ok d, Q ok (holding f (ip ::ₘ I) [(ip, some d)] .idle)) :
    Safe g Q (holding f (ip ::ₘ I) [(ip, some d)] .idle) (execReads ip reads) := by
  induction reads generalizing d with
  | zero => exact after true d
  | succ reads ih =>
    unfold execReads
    refine .bind (transfer_safe (.inl (mem_cons_self ip I)) fun ok d => ?_)
    exact Safe.ite (fun _ => ih) fun _ => after false d

end Transfer

theorem sysExec_safe {reads : Nat} : Safe g (Done g) (.idle : Hold n) (sysExec path reads) := by
  unfold sysExec
  refine beginOp_safe (f := .idle) (I := 0) ?_
  refine .bind (namex_safe rfl rfl rfl (noPlain rfl) (finish_safe (-1)) ?_)
  intro ip _
  refine .bind (ilockOne_safe (by simp) fun d => ?_)
  refine .bind (execReads_safe reads fun ok d => ?_)
  refine .bind (iunlockputOne_safe (I := 0) (noPlain rfl) ?_)
  refine endOp_safe ?_
  refine Safe.perform (needs_refs trivial rfl) ?_
  rintro (bad : Bool) -
  exact Safe.ite (fun _ => done_of 0 idle_done) fun _ => done_of (-1) idle_done

/-- A process that has a descriptor for the inode. -/
def reading (n : Nat) (ip : Inum) : Refs n :=
  { Refs.idle with opened := some ip }

theorem reading_done : ((reading n ip).still 0).Done :=
  ⟨rfl, rfl, rfl, rfl, rfl, rfl, rfl, rfl, rfl⟩

/-- The result of a transfer through a pipe. -/
theorem chosen_safe (done : a.forget.Done) : Safe g (Done g) (⟨a, ⟨[]⟩, .idle⟩ : Hold n) (do
    let failed : Bool ← perform .choose
    if failed then return -1
    else return (0 : Int)) := by
  refine Safe.perform (needs_refs trivial rfl) ?_
  rintro (failed : Bool) -
  exact Safe.ite (fun _ => done_of (-1) done) fun _ => done_of 0 done

theorem sysRead_safe : Safe g (Done g) (.idle : Hold n) (sysRead fd) := by
  unfold sysRead
  refine Safe.perform (needs_refs rfl rfl) ?_
  rintro (_ | f) -
  · exact done_of (-1) idle_done
  refine Safe.perform ⟨trivial, rfl, trivial, fun _ => ⟨trivial, trivial⟩⟩ ?_
  rintro (kind : FileKind) -
  match kind with
  | .none => exact Safe.panic
  | .pipe _ true | .inode _ false _ =>
    exact done_of (-1) ⟨rfl, rfl, rfl, rfl, rfl, rfl, rfl, rfl, rfl⟩
  | .pipe _ false => exact chosen_safe ⟨rfl, rfl, rfl, rfl, rfl, rfl, rfl, rfl, rfl⟩
  | .inode ip true writable =>
    change Safe g (Done g) (holding (reading n ip) 0 [] .idle) _
    refine .bind (ilockOne_safe (.inr rfl) fun d => ?_)
    refine .bind (transfer_safe (.inr rfl) fun ok d => ?_)
    refine .bind (iunlockOne_safe ?_)
    exact Safe.ite (fun _ => done_of 0 reading_done) fun _ => done_of (-1) reading_done

/-- The loop of `filewrite`: a turn leaves what it has found. -/
theorem writeChunks_safe (chunks : Nat) :
    Safe g (Done g) (holding (reading n ip) 0 [] .idle) (writeChunks ip chunks) := by
  induction chunks with
  | zero => exact done_of 0 reading_done
  | succ chunks ih =>
    unfold writeChunks
    refine beginOp_safe ?_
    refine .bind (ilockOne_safe (.inr rfl) fun d => ?_)
    refine .bind (transfer_safe (.inr rfl) fun ok d => ?_)
    refine .bind (iunlockOne_safe ?_)
    refine endOp_safe ?_
    exact Safe.ite (fun _ => ih) fun _ => done_of (-1) reading_done

theorem sysWrite_safe {chunks : Nat} : Safe g (Done g) (.idle : Hold n) (sysWrite fd chunks) := by
  unfold sysWrite
  refine Safe.perform (needs_refs rfl rfl) ?_
  rintro (_ | f) -
  · exact done_of (-1) idle_done
  refine Safe.perform ⟨trivial, rfl, trivial, fun _ => ⟨trivial, trivial⟩⟩ ?_
  rintro (kind : FileKind) -
  match kind with
  | .none => exact Safe.panic
  | .pipe _ false | .inode _ _ false =>
    exact done_of (-1) ⟨rfl, rfl, rfl, rfl, rfl, rfl, rfl, rfl, rfl⟩
  | .pipe _ true => exact chosen_safe ⟨rfl, rfl, rfl, rfl, rfl, rfl, rfl, rfl, rfl⟩
  | .inode ip readable true => exact writeChunks_safe chunks

/-! ## Pipes -/

theorem erase_second [DecidableEq α] (x y : α) (rest : Multiset α) :
    (y ::ₘ x ::ₘ rest).erase x = y ::ₘ rest := by
  rw [cons_swap, erase_cons_head]

/-- Two files, some of which may be new, are closed. -/
theorem closeBoth_safe {f0 f1 : FileNo} (files : a.files = f0 ::ₘ f1 ::ₘ 0) (dying : a.dying = none)
    (after : Safe g final ⟨{ a.forget with
      files := 0, blank := (a.blank.erase f0).erase f1 }, ⟨[]⟩, .idle⟩ (rest ())) :
    Safe g final ⟨a, ⟨[]⟩, .idle⟩
      (fileclose f0 >>= fun _ => fileclose f1 >>= rest) := by
  have first : f0 ∈ a.files := files ▸ mem_cons_self f0 _
  refine .bind (fileclose_safe first dying ?_)
  rw [files, erase_cons_head]
  refine .bind (fileclose_safe (mem_cons_self f1 0) dying ?_)
  change Safe g final ⟨{ a.forget with
    files := (f1 ::ₘ (0 : Multiset FileNo)).erase f1, blank := (a.blank.erase f0).erase f1 },
    ⟨[]⟩, .idle⟩ _
  rw [erase_cons_head]
  exact after

theorem pipealloc_safe {Q : Option (FileNo × FileNo) → Hold n → Prop}
    (fails : ∀ a, Refs.Done a → Q none ⟨a, ⟨[]⟩, .idle⟩)
    (made : ∀ f0 f1, Q (some (f0, f1))
      ⟨{ Refs.idle with files := f1 ::ₘ f0 ::ₘ 0 }, ⟨[]⟩, .idle⟩) :
    Safe g Q (.idle : Hold n) pipealloc := by
  unfold pipealloc
  refine Safe.perform (needs_refs trivial rfl) ?_
  rintro (_ | f0) -
  · exact fails _ ⟨rfl, rfl, rfl, rfl, rfl, rfl, rfl, rfl, rfl⟩
  refine Safe.perform (needs_refs trivial rfl) ?_
  rintro (_ | f1) -
  · refine .bind (fileclose_safe (mem_cons_self f0 0) rfl ?_)
    have closed : (f0 ::ₘ (0 : Multiset FileNo)).erase f0 = 0 := erase_cons_head f0 0
    exact fails _ ⟨rfl, rfl, closed, closed, rfl, rfl, rfl, rfl, rfl⟩
  refine Safe.perform (needs_refs trivial rfl) ?_
  rintro (_ | p) -
  · refine closeBoth_safe (cons_swap f1 f0 0) rfl ?_
    refine fails _ ⟨rfl, rfl, rfl, ?_, rfl, rfl, rfl, rfl, rfl⟩
    change ((f1 ::ₘ f0 ::ₘ (0 : Multiset FileNo)).erase f0).erase f1 = 0
    rw [erase_second, erase_cons_head]
  change Safe g Q ⟨{ (Refs.idle : Refs n) with
    files := f1 ::ₘ f0 ::ₘ 0
    blank := f1 ::ₘ f0 ::ₘ 0
    ends := (p, false) ::ₘ (p, true) ::ₘ 0 }, ⟨[]⟩, .idle⟩ _
  refine Safe.perform ⟨⟨?_, nofun, ?_⟩, trivial, trivial, fun _ => ⟨nofun, trivial⟩⟩ ?_
  · exact mem_cons_of_mem (mem_cons_self f0 0)
  · intro e isEnd
    cases isEnd
    exact mem_cons_self (p, false) ((p, true) ::ₘ 0)
  rintro ⟨⟩ -
  change Safe g Q ⟨{ (Refs.idle : Refs n) with
    files := f1 ::ₘ f0 ::ₘ 0
    blank := (f1 ::ₘ f0 ::ₘ (0 : Multiset FileNo)).erase f0
    ends := ((p, false) ::ₘ (p, true) ::ₘ (0 : Multiset (PipeNo × Bool))).erase (p, false) },
    ⟨[]⟩, .idle⟩ _
  rw [erase_second, erase_cons_head]
  refine Safe.perform ⟨⟨mem_cons_self f1 0, nofun, ?_⟩, trivial, trivial,
    fun _ => ⟨nofun, trivial⟩⟩ ?_
  · intro e isEnd
    cases isEnd
    exact mem_cons_self (p, true) 0
  rintro ⟨⟩ -
  change Q (some (f0, f1)) ⟨{ (Refs.idle : Refs n) with
    files := f1 ::ₘ f0 ::ₘ 0
    blank := (f1 ::ₘ (0 : Multiset FileNo)).erase f1
    ends := ((p, true) ::ₘ (0 : Multiset (PipeNo × Bool))).erase (p, true) },
    ⟨[]⟩, .idle⟩
  rw [erase_cons_head, erase_cons_head]
  exact made f0 f1

theorem sysPipe_safe : Safe g (Done g) (.idle : Hold n) sysPipe := by
  unfold sysPipe
  refine .bind (pipealloc_safe (fun a done => done_of (-1) done) ?_)
  intro rf wf
  have hasRf : rf ∈ wf ::ₘ rf ::ₘ (0 : Multiset FileNo) :=
    mem_cons_of_mem (mem_cons_self rf 0)
  have hasWf : wf ∈ wf ::ₘ (0 : Multiset FileNo) := mem_cons_self wf 0
  refine Safe.perform (needs_refs ⟨rfl, rfl⟩ rfl) ?_
  rintro (_ | fd0) -
  · refine closeBoth_safe (cons_swap wf rf 0) rfl ?_
    exact done_of (-1) ⟨rfl, rfl, rfl, rfl, if_pos hasRf, rfl, rfl, rfl, rfl⟩
  change Safe g (Done g) ⟨{ (Refs.idle : Refs n) with
    files := (wf ::ₘ rf ::ₘ (0 : Multiset FileNo)).erase rf
    stale := if rf ∈ wf ::ₘ rf ::ₘ (0 : Multiset FileNo) then none else some (fd0, rf)
    own := some (fd0, rf) }, ⟨[]⟩, .idle⟩ _
  rw [if_pos hasRf, erase_second]
  refine Safe.perform (needs_refs ⟨rfl, rfl⟩ rfl) ?_
  rintro (_ | fd1) -
  · refine Safe.perform (needs_refs ?_ rfl) ?_
    · intro entry isStale
      cases (if_pos hasWf).symm.trans isStale
    rintro (found : Option FileNo) ⟨isOwn, -⟩
    have found_ : found = some rf := isOwn rf rfl
    subst found_
    refine closeBoth_safe ?_ rfl ?_
    · change (if (if wf ∈ wf ::ₘ (0 : Multiset FileNo) then none else none :
          Option (Fd × FileNo)).isSome then wf ::ₘ 0 else rf ::ₘ wf ::ₘ 0) = rf ::ₘ wf ::ₘ 0
      rw [if_pos hasWf]
      rfl
    · exact done_of (-1) ⟨rfl, rfl, rfl, rfl, rfl, rfl, rfl, rfl, rfl⟩
  refine done_of 0 ⟨rfl, rfl, ?_, rfl, if_pos hasWf, rfl, rfl, rfl, rfl⟩
  exact erase_cons_head wf 0

/-! ## Fork and exit -/

/-- `fork`, with the descriptors that the child has not got. -/
def forking (child : Fin n) (fds : List Fd) : Refs n :=
  { (Refs.idle : Refs n) with child := some (child, fds, false) }

/-- The loop of `fork`: the descriptors that are still to come are among those that the child has
not got. -/
theorem forkFiles_safe (child : Fin n) (rest : List Fd) (nodup : rest.Nodup) {fds : List Fd}
    (missing : ∀ fd ∈ rest, fd ∈ fds)
    (after : ∀ fds, Q () ⟨forking child fds, ⟨[]⟩, .idle⟩) :
    Safe g Q ⟨forking child fds, ⟨[]⟩, .idle⟩ (forkFiles child rest) := by
  induction rest generalizing fds with
  | nil => exact after fds
  | cons fd rest ih =>
    obtain ⟨notIn, nodup⟩ := List.nodup_cons.mp nodup
    unfold forkFiles
    refine Safe.perform (needs_refs rfl rfl) ?_
    rintro (_ | f) -
    · exact ih nodup fun other member =>
        missing other (List.mem_cons_of_mem fd member)
    refine Safe.perform (needs_refs nofun rfl) ?_
    rintro ⟨⟩ -
    refine Safe.perform (needs_refs ⟨fds, false, rfl, missing fd List.mem_cons_self, ?_, rfl⟩ rfl) ?_
    · exact mem_cons_self f 0
    rintro ⟨⟩ -
    change Safe g Q ⟨{ forking child (fds.filter (· ≠ fd)) with
      files := (f ::ₘ (0 : Multiset FileNo)).erase f }, ⟨[]⟩, .idle⟩ _
    rw [erase_cons_head]
    refine ih nodup ?_
    intro other member
    have different : other ≠ fd := fun same => notIn (same ▸ member)
    exact List.mem_filter.mpr
      ⟨missing other (List.mem_cons_of_mem fd member), decide_eq_true different⟩

theorem sysFork_safe : Safe g (Done g) (.idle : Hold n) sysFork := by
  unfold sysFork
  refine Safe.perform (needs_refs rfl rfl) ?_
  rintro (_ | child) -
  · exact done_of (-1) idle_done
  refine Safe.perform (needs_refs trivial rfl) ?_
  rintro (failed : Bool) -
  refine Safe.ite ?_ ?_
  · intro _
    refine Safe.perform (needs_refs rfl rfl) ?_
    rintro ⟨⟩ -
    exact done_of (-1) idle_done
  · intro _
    refine .bind (forkFiles_safe child (List.finRange nofile)
      (List.nodup_finRange nofile) (fun _ member => member) ?_)
    intro fds
    refine Safe.perform (needs_refs rfl rfl) ?_
    rintro (cwd : Inum) -
    refine Safe.perform ⟨trivial, rfl, trivial, fun _ => ⟨rfl, trivial⟩⟩ ?_
    rintro ⟨⟩ -
    refine Safe.perform ⟨⟨fds, rfl, mem_cons_self cwd 0⟩, trivial, trivial,
      fun _ => ⟨⟨nofun, nofun⟩, trivial⟩⟩ ?_
    rintro ⟨⟩ -
    refine Safe.perform (needs_refs ⟨fds, true, rfl⟩ rfl) ?_
    rintro ⟨⟩ -
    refine done_of 0 ⟨?_, rfl, rfl, rfl, rfl, rfl, rfl, rfl, rfl⟩
    exact erase_cons_head cwd 0

/-- `exit`, with the descriptors that are closed. -/
def exiting (n : Nat) (shut : List Fd) : Refs n :=
  { Refs.idle with shut := shut }

theorem exitFiles_safe (fds : List Fd) {shut : List Fd}
    (after : Q () ⟨exiting n (fds.reverse ++ shut), ⟨[]⟩, .idle⟩) :
    Safe g Q ⟨exiting n shut, ⟨[]⟩, .idle⟩ (exitFiles fds) := by
  induction fds generalizing shut with
  | nil => exact after
  | cons fd rest ih =>
    have turned : (fd :: rest).reverse ++ shut = rest.reverse ++ fd :: shut := by simp
    rw [turned] at after
    unfold exitFiles
    refine Safe.perform (needs_refs rfl rfl) ?_
    rintro (_ | f) -
    · exact ih after
    refine .bind (fileclose_safe (mem_cons_self f 0) rfl ?_)
    refine Safe.perform (needs_refs ?_ rfl) ?_
    · intro entry isStale
      cases isStale
      rfl
    rintro (_ : Option FileNo) -
    change Safe g Q ⟨{ exiting n (fd :: shut) with
      files := (f ::ₘ (0 : Multiset FileNo)).erase f }, ⟨[]⟩, .idle⟩ _
    rw [erase_cons_head]
    exact ih after

theorem sysExit_safe : Safe g (Done g) (.idle : Hold n) sysExit := by
  unfold sysExit
  refine .bind (exitFiles_safe (List.finRange nofile) ?_)
  have all : ∀ fd, fd ∈ (List.finRange nofile).reverse ++ [] := fun fd => by simp
  generalize (List.finRange nofile).reverse ++ [] = closed at all ⊢
  refine beginOp_safe (f := exiting n closed) (I := 0) ?_
  refine Safe.perform (needs_refs rfl rfl) ?_
  rintro (cwd : Inum) -
  refine .bind (iput_safe (f := { exiting n closed with staleCwd := true }) (I := 0)
    (noPlain rfl) fun _ => ?_)
  refine endOp_safe ?_
  refine Safe.perform ⟨⟨rfl, nofun⟩, trivial, trivial, fun _ => ⟨nofun, trivial⟩⟩ ?_
  rintro ⟨⟩ -
  refine Safe.perform ⟨⟨⟨rfl, rfl, rfl, rfl, rfl, rfl, rfl, rfl, rfl⟩, all, rfl⟩, trivial, rfl,
    fun _ => ⟨⟨rfl, rfl, rfl⟩, trivial⟩⟩ ?_
  rintro ⟨⟩ -
  exact done_of 0 idle_done

/-! ## Every call -/

theorem body_safe (call : Call) :
    Safe g (Done g) (.idle : Hold n) (body call) := by
  cases call with
  | dup fd => exact sysDup_safe
  | close fd => exact sysClose_safe
  | link old new => exact sysLink_safe
  | unlink path => exact sysUnlink_safe
  | open_ path omode => exact sysOpen_safe
  | mkdir | mknod => exact sysMake_safe nofun
  | chdir path => exact sysChdir_safe
  | exec path reads => exact sysExec_safe
  | pipe => exact sysPipe_safe
  | read fd => exact sysRead_safe
  | write fd chunks => exact sysWrite_safe
  | fork => exact sysFork_safe
  | exit => exact sysExit_safe

end Xv6.Fs
