import Xv6.Fs.Order

/-!
The functions of `fs.c` in the logic of references, locks and links.

Owns: what each function on inodes, directories and paths needs of the process that calls it, and
what it leaves.

Does not own: the system calls (`Xv6.Fs.SafeCalls`).
-/

namespace Xv6.Fs

open Interleave
open Multiset (mem_cons_self mem_cons_of_mem erase_cons_head cons_swap)

variable {n : Nat} {g : Bool} {α β : Type} {o : Op n} {final : β → Hold n → Prop} {h : Hold n}
  {known : Option Inode} {Q : Unit → Hold n → Prop} {d : Inode} {j i dp ip : Inum} {name : Name}
  {a : Links} {parent : Bool} {path : Path} {type : IType} {p : Prop}

/-- A process that holds `h` can run the program, and ends in `final`. -/
abbrev Safe (g : Bool) (final : α → Hold n → Prop) (h : Hold n) (program : M n α) : Prop :=
  (logic g n).Safe final h program

/-- An operation that changes or reads a locked inode. -/
theorem needs_locks (locks : h.locks.pre o)
    (links : g = true → h.links.pre h.refs h.locks o)
    (free : (h.refs.pre o ∧ h.refs.reads o ∧ h.orderPre o) = (True ∧ True ∧ True)) :
    (logic g n).pre h o := by
  obtain ⟨refs, reads, order⟩ := free.mpr ⟨trivial, trivial, trivial⟩
  exact ⟨refs, reads, locks, fun guarded => ⟨links guarded, order⟩⟩

/-- An operation that looks only at the references. -/
theorem needs_refs (refs : h.refs.pre o)
    (free : (h.refs.reads o ∧ h.locks.pre o ∧ h.links.pre h.refs h.locks o ∧ h.orderPre o) =
      (True ∧ True ∧ True ∧ True)) : (logic g n).pre h o := by
  obtain ⟨reads, locks, links⟩ := free.mpr ⟨trivial, trivial, trivial, trivial⟩
  exact ⟨refs, reads, locks, fun _ => links⟩

theorem Safe.perform {rest : o.Ret → M n β} (needs : (logic g n).pre h o)
    (after : ∀ answer, (logic g n).fact h o answer → Safe g final (h.post o answer) (rest answer)) :
    Safe g final h (Fs.perform o >>= rest) :=
  ⟨needs, after⟩

theorem Safe.last {final : o.Ret → Hold n → Prop} (needs : (logic g n).pre h o)
    (after : ∀ answer, (logic g n).fact h o answer → final answer (h.post o answer)) :
    Safe g final h (Fs.perform o) :=
  ⟨needs, after⟩

theorem Safe.ite {c : Prop} [Decidable c] {final : α → Hold n → Prop} {first second : M n α}
    (pos : c → Safe g final h first) (neg : ¬c → Safe g final h second) :
    Safe g final h (if c then first else second) := by
  split
  · exact pos ‹_›
  · exact neg ‹_›

/-- A call that panics needs nothing more. -/
theorem Safe.panic {final : α → Hold n → Prop} : Safe g final h (Fs.panic : M n α) :=
  ⟨needs_refs trivial rfl, nofun⟩

/-! ## What a process holds between operations on inodes -/

/-- With these references to inodes, and nothing just read. -/
def Refs.still (f : Refs n) (inodes : Multiset Inum) : Refs n :=
  { f with inodes := inodes, dying := none, here := none, got := none }

def holding (f : Refs n) (inodes : Multiset Inum) (held : List (Inum × Option Inode))
    (links : Links) : Hold n :=
  ⟨f.still inodes, ⟨held⟩, links⟩

/-- The file that a call makes a link to is referred to. -/
abbrev PlainIn (g : Bool) (L : Links) (I : Multiset Inum) : Prop :=
  g = true → ∀ j, L.plain = some j → j ∈ I

section Inodes

variable {f : Refs n} {I : Multiset Inum} {K : List (Inum × Option Inode)}
  {L : Links} {i : Inum}

theorem filter_cons_bare (notHeld : i ∉ K.map Prod.fst) :
    ((i, known) :: K).filter (fun lock => lock.1 ≠ i) = K := by
  rw [List.filter_cons_of_neg (by simp), List.filter_eq_self]
  intro lock member
  refine decide_eq_true fun same => notHeld ?_
  rw [← same]
  exact List.mem_map_of_mem member

theorem Links.attach_attach (a : Links) (i : Inum) : (a.attach i).attach i = a.attach i := by
  unfold Links.attach
  cases a.detached with
  | none => rfl
  | some j =>
    by_cases same : j = i
    · simp [Option.filter, same]
    · simp [Option.filter, same]

/-! ### `iput` -/

/-- The lock that `iput` has taken is given back. -/
theorem releaseBare_safe {rest : Unit → M n β} {a : Refs n} (notHeld : i ∉ K.map Prod.fst)
    (after : Safe g final ⟨a.forget, ⟨K⟩, L.lasting⟩ (rest ())) :
    Safe g final ⟨a, ⟨(i, none) :: K⟩, L⟩ (perform (.releasesleep i) >>= rest) := by
  refine Safe.perform ⟨trivial, trivial, List.mem_cons_self, fun _ => ⟨trivial, trivial⟩⟩ ?_
  rintro ⟨⟩ -
  change Safe g final ⟨a.forget, ⟨((i, none) :: K).filter fun lock => lock.1 ≠ i⟩, L.lasting⟩
    (rest ())
  rw [filter_cons_bare notHeld]
  exact after

/-- The end of `iput` when the inode stays. -/
theorem putRef_safe (plain : PlainIn g L I) (notHeld : i ∉ K.map Prod.fst)
    (after : Q () (holding f I K (L.lasting.attach i))) :
    Safe g Q (holding f (i ::ₘ I) ((i, none) :: K) L) (do
      perform (.releasesleep i)
      perform (.putRef i)) := by
  refine releaseBare_safe notHeld ?_
  have dropped : (f.still (i ::ₘ I)).dropped i = f.still I := by
    simp [Refs.dropped, Refs.still]
  refine Safe.last ⟨.inr ⟨rfl, mem_cons_self i I⟩, trivial, trivial, ?_⟩ ?_
  · intro guarded
    refine ⟨⟨(fun dying => by cases (show (none : Option Inum) = some i from dying)), ?_⟩, trivial⟩
    intro j isPlain
    change j ∈ ((f.still (i ::ₘ I)).dropped i).inodes
    rw [dropped]
    exact plain guarded j isPlain
  · rintro ⟨⟩ -
    change Q () ⟨(f.still (i ::ₘ I)).dropped i, ⟨K⟩, L.lasting.attach i⟩
    rw [dropped]
    exact after

/-- The end of `iput` when the inode is freed. -/
theorem ifree_safe (sole : L.sole = some i)
    (plain : g = true → ∀ j, L.plain = some j → j ∈ I ∧ j ≠ i) (notHeld : i ∉ K.map Prod.fst)
    (after : Q () (holding f I K (L.lasting.attach i))) :
    Safe g Q (holding f (i ::ₘ I) ((i, none) :: K) L) (do
      perform (.ifree i)
      perform (.releasesleep i)
      perform (.putRef i)) := by
  refine Safe.perform ⟨⟨mem_cons_self i I, rfl⟩, trivial, List.mem_cons_self, ?_⟩ ?_
  · intro guarded
    exact ⟨⟨sole, fun isPlain => (plain guarded i isPlain).2 rfl⟩, trivial⟩
  · rintro ⟨⟩ -
    change Safe g Q ⟨{ f.still ((i ::ₘ I).erase i) with dying := some i }, ⟨(i, none) :: K⟩,
      L.lasting.attach i⟩ _
    rw [erase_cons_head]
    refine releaseBare_safe notHeld ?_
    refine Safe.last ⟨.inl rfl, trivial, trivial, ?_⟩ ?_
    · intro guarded
      refine ⟨⟨fun _ isDetached => ?_, fun j isPlain => (plain guarded j isPlain).1⟩, trivial⟩
      have notSelf := (Option.filter_eq_some_iff.mp
        (show L.detached.filter (fun j => j ≠ i) = some i from isDetached)).2
      exact of_decide_eq_true notSelf rfl
    · rintro ⟨⟩ -
      change Q () ⟨f.still I, ⟨K⟩, (L.lasting.attach i).attach i⟩
      rw [Links.attach_attach]
      exact after

theorem iput_safe (plain : PlainIn g L I)
    (after : i ∉ K.map Prod.fst → Q () (holding f I K (L.lasting.attach i))) :
    Safe g Q (holding f (i ::ₘ I) K L) (iput i) := by
  unfold iput
  refine Safe.perform ⟨mem_cons_self i I, trivial, trivial, fun _ => ⟨trivial, trivial⟩⟩ ?_
  rintro ⟨⟩ ⟨-, notHeld, -⟩
  have after := after notHeld
  refine Safe.perform ⟨trivial, trivial, List.mem_cons_self, fun _ => ⟨trivial, trivial⟩⟩ ?_
  rintro (unlinked : Bool) -
  cases unlinked with
  | false => exact putRef_safe plain notHeld after
  | true =>
    refine Safe.perform ⟨trivial, trivial, trivial, fun _ => ⟨mem_cons_self i I, trivial⟩⟩ ?_
    rintro (ref : Nat) ⟨bound, -, -⟩
    refine Safe.ite ?_ ?_
    · intro last
      refine ifree_safe (if_pos ⟨last, rfl⟩) ?_ notHeld after
      intro guarded j isPlain
      have member := plain guarded j isPlain
      refine ⟨member, ?_⟩
      rintro rfl
      have counted : (j ::ₘ I).count j ≤ ref := bound
      have two := Multiset.one_le_count_iff_mem.mpr member
      rw [Multiset.count_cons_self] at counted
      omega
    · intro _
      exact putRef_safe plain notHeld after

/-! ### Locks -/

/-- The lock of an inode is among those held, with what is known of the inode. -/
def Held (K : List (Inum × Option Inode)) (i : Inum) (d : Inode) : Prop :=
  ∀ known, (i, known) ∈ K ↔ known = some d

theorem held_cons (notHeld : i ∉ K.map Prod.fst) : Held ((i, some d) :: K) i d := by
  intro known
  rw [List.mem_cons, Prod.mk.injEq]
  constructor
  · rintro (⟨-, same⟩ | member)
    · exact same
    · exact absurd (List.mem_map_of_mem member) notHeld
  · intro same
    exact .inl ⟨rfl, same⟩

theorem held_one (i : Inum) (d : Inode) : Held [(i, some d)] i d :=
  held_cons List.not_mem_nil

theorem Held.cons (held : Held K i d) (other : i ≠ j) : Held ((j, known) :: K) i d := by
  intro found
  rw [List.mem_cons, held found, Prod.mk.injEq]
  exact ⟨fun either => either.resolve_left fun same => other same.1, .inr⟩

theorem Held.knows (held : Held K i d) : (i, some d) ∈ K :=
  (held _).mpr rfl

/-- The locks without one of them. -/
abbrev without (K : List (Inum × Option Inode)) (i : Inum) : List (Inum × Option Inode) :=
  K.filter fun lock => lock.1 ≠ i

theorem without_one (i : Inum) (known : Option Inode) : without [(i, known)] i = [] :=
  filter_cons_bare List.not_mem_nil

theorem without_second (known other : Option Inode) (different : j ≠ i) :
    without [(j, other), (i, known)] i = [(j, other)] := by
  rw [without, List.filter_cons_of_pos (by simpa using different)]
  exact congrArg _ (without_one i known)

theorem iunlock_safe (held : Held K i d) (after : Q () (holding f I (without K i) L.lasting)) :
    Safe g Q (holding f I K L) (iunlock i) := by
  refine Safe.last ⟨trivial, trivial, List.mem_map_of_mem held.knows,
    fun _ => ⟨trivial, trivial⟩⟩ ?_
  rintro ⟨⟩ -
  exact after

theorem iunlockput_safe (held : Held K i d) (plain : PlainIn g L I)
    (after : Q () (holding f I (without K i) (L.lasting.attach i))) :
    Safe g Q (holding f (i ::ₘ I) K L) (iunlockput i) := by
  unfold iunlockput
  refine .bind (iunlock_safe held ?_)
  exact iput_safe plain fun _ => after

theorem ilock_safe (member : i ∈ I ∨ f.opened = some i)
    (order : g = true → (holding f I K L).orderPre (.ilock i : Op n))
    (after : ∀ d, i ∉ K.map Prod.fst → d.type ≠ .free →
      (g = true → ∀ type got, L.fresh = some (i, type, got) → d = .blank type) →
      Q () (holding f I ((i, some d) :: K) (L.locked i))) :
    Safe g Q (holding f I K L) (ilock i) := by
  unfold ilock
  refine Safe.perform ⟨member, trivial, trivial, fun guarded => ⟨trivial, order guarded⟩⟩ ?_
  rintro (d : Inode) ⟨-, ⟨notHeld, typed⟩, isFresh⟩
  exact after d notHeld typed isFresh

/-- What a process learns from an inode it has locked. -/
theorem getInode_safe {rest : Inode → M n β} (held : Held K i d)
    (after : (g = true → i ∈ I → L.detached ≠ some i → d.type = .dir → ∃ up, IsDir d i up) →
      Safe g final (holding f I K L.lasting) (rest d)) :
    Safe g final (holding f I K L) (perform (.getInode i) >>= rest) := by
  refine Safe.perform ⟨trivial, trivial, ⟨d, held.knows⟩, fun _ => ⟨trivial, trivial⟩⟩ ?_
  rintro (found : Inode) ⟨-, knows, isDir⟩
  obtain rfl := Option.some.inj ((held _).mp knows)
  exact after isDir

/-! ### One lock -/

/-- `ilock` of a process that holds no lock. -/
theorem ilockOne_safe (member : i ∈ I ∨ f.opened = some i)
    (after : ∀ d, Q () (holding f I [(i, some d)] (L.locked i))) :
    Safe g Q (holding f I [] L) (ilock i) :=
  ilock_safe member (fun _ => .inl rfl) fun d _ _ _ => after d

theorem iunlockOne_safe (after : Q () (holding f I [] L.lasting)) :
    Safe g Q (holding f I [(i, some d)] L) (iunlock i) := by
  refine iunlock_safe (held_one i d) ?_
  rw [without_one]
  exact after

theorem iunlockputOne_safe (plain : PlainIn g L I)
    (after : Q () (holding f I [] (L.lasting.attach i))) :
    Safe g Q (holding f (i ::ₘ I) [(i, some d)] L) (iunlockput i) := by
  refine iunlockput_safe (held_one i d) plain ?_
  rw [without_one]
  exact after

/-! ### Directories -/

/-- What `dirlookup` learns of a directory. -/
structure Looked (g : Bool) (L : Links) (dp : Inum) (d : Inode) : Prop where
  type : d.type = .dir
  isDir : g = true → L.detached ≠ some dp → ∃ up, IsDir d dp up

theorem dirlookup_safe {Q : Option (Inum × Nat) → Hold n → Prop} (held : Held K dp d)
    (member : dp ∈ I)
    (leads : g = true → ∀ x, d.lookup name = some x → L.detached ≠ some dp)
    (absent : Looked g L dp d → d.lookup name = none → Q none (holding f I K L.lasting))
    (found : ∀ off e, Looked g L dp d → d.lookup name = some (e.inum, off) →
      d.entries[off]? = some (some e) → e.name = name →
      Q (some (e.inum, off)) (holding f (e.inum ::ₘ I) K L.lasting)) :
    Safe g Q (holding f I K L) (dirlookup dp name) := by
  unfold dirlookup
  refine getInode_safe held ?_
  intro isDir
  refine Safe.ite ?_ ?_
  · intro type
    have looked : Looked g L dp d := ⟨type, fun guarded attached => isDir guarded member attached type⟩
    match result : d.lookup name with
    | none => exact absent looked result
    | some (i, off) =>
      obtain ⟨e, atSlot, named, rfl⟩ := Inode.lookup_some result
      refine Safe.perform ⟨trivial, trivial, trivial, ?_⟩ ?_
      · intro guarded
        exact ⟨.inr (.inr ⟨dp, d, e, ⟨held.knows, member, leads guarded _ result, type⟩,
          List.mem_of_getElem? atSlot, rfl⟩), trivial⟩
      · rintro ⟨⟩ -
        exact found off e looked result atSlot named
  · intro _
    exact Safe.panic

/-- `dirlink` of a name that is not there, as far as link counts are kept track of. -/
theorem dirlink_absent_safe {Q : Bool → Hold n → Prop} (held : Held K dp d) (member : dp ∈ I)
    (lookup : g = true → d.lookup name = none)
    (entry : g = true → L.lasting.entryPre (f.still I) ⟨K⟩ dp name j)
    (refused : g = false → ∀ links, Q false (holding f I K links))
    (after : Q true (holding f I ((Locks.mk K).modify dp fun d => d.addEntry ⟨name, j⟩).held
      (L.lasting.addedEntry dp j))) :
    Safe g Q (holding f I K L) (dirlink dp name j) := by
  unfold dirlink
  refine .bind (dirlookup_safe held member ?_ ?_ ?_)
  · intro guarded x found
    rw [lookup guarded] at found
    cases found
  · intro looked _
    refine Safe.perform (needs_locks ⟨d, held.knows⟩ (fun guarded => ⟨member, entry guarded⟩)
      rfl) ?_
    rintro ⟨⟩ -
    exact after
  · intro off e looked found _ _
    cases isGuarded : g with
    | true =>
      rw [lookup isGuarded] at found
      cases found
    | false =>
      refine .bind (iput_safe ?_ fun _ => refused isGuarded _)
      simp [PlainIn]

theorem Links.attach_of_none (none_ : a.detached = none) (i : Inum) : a.attach i = a := by
  unfold Links.attach
  rw [none_, Option.filter_none, ← none_]

theorem Links.fresh_of_lasting (lasting : a.lasting = a) : a.fresh = none := by
  rw [← lasting]
  rfl

theorem Links.locked_of_lasting (lasting : a.lasting = a) (i : Inum) : a.locked i = a := by
  unfold Links.locked
  rw [Links.fresh_of_lasting lasting]
  exact lasting

theorem Links.gotten_of_lasting (lasting : a.lasting = a) (i : Inum) : a.gotten i = a := by
  unfold Links.gotten
  rw [Links.fresh_of_lasting lasting]
  exact lasting

/-- `dirlink` with only the directory locked. -/
theorem dirlink_safe {Q : Bool → Hold n → Prop} (member : dp ∈ I) (detached : L.detached = none)
    (plain : PlainIn g L I)
    (entry : g = true → Looked g L dp d → d.lookup name = none →
      L.lasting.entryPre (f.still I) ⟨[(dp, some d)]⟩ dp name j)
    (exists_ : Q false (holding f I [(dp, some d)] L.lasting))
    (after : Q true (holding f I [(dp, some (d.addEntry ⟨name, j⟩))]
      (L.lasting.addedEntry dp j))) :
    Safe g Q (holding f I [(dp, some d)] L) (dirlink dp name j) := by
  have attached (i : Inum) : L.detached ≠ some i := by
    rw [detached]
    rintro ⟨⟩
  unfold dirlink
  refine .bind (dirlookup_safe (held_one dp d) member (fun _ _ _ => attached dp) ?_ ?_)
  · intro looked lookup
    refine Safe.perform (needs_locks ⟨d, List.mem_cons_self⟩ (fun guarded => ⟨member, entry guarded
      looked lookup⟩) rfl) ?_
    rintro ⟨⟩ -
    have locks : ((Locks.mk [(dp, some d)]).modify dp fun d => d.addEntry ⟨name, j⟩) =
        ⟨[(dp, some (d.addEntry ⟨name, j⟩))]⟩ := by
      simp [Locks.modify]
    change Q true ⟨f.still I, (Locks.mk [(dp, some d)]).modify dp fun d => d.addEntry ⟨name, j⟩,
      L.lasting.addedEntry dp j⟩
    rw [locks]
    exact after
  · intro off e _ _ _ _
    refine .bind (iput_safe plain fun _ => ?_)
    rw [Links.attach_of_none (show L.lasting.lasting.detached = none from detached)]
    exact exists_

/-! ### Paths -/

/-- The loop of `namex`, which comes to an inode with a reference to it or gives up. -/
theorem walk_safe {Q : Option (Inum × Name) → Hold n → Prop} {elems : List Name}
    (lasting : L.lasting = L) (detached : L.detached = none)
    (plain : PlainIn g L I)
    (fails : Q none (holding f I [] L))
    (found : ∀ dp name, Q (some (dp, name)) (holding f (dp ::ₘ I) [] L)) :
    Safe g Q (holding f (ip ::ₘ I) [] L) (walk parent ip elems) := by
  have attach (i : Inum) : L.lasting.attach i = L := by
    rw [lasting, Links.attach_of_none detached]
  induction elems generalizing ip with
  | nil =>
    unfold walk
    refine Safe.ite ?_ ?_
    · intro _
      refine .bind (iput_safe plain fun _ => ?_)
      rw [attach]
      exact fails
    · intro _
      exact found ip ""
  | cons name rest ih =>
    unfold walk
    refine .bind (ilockOne_safe (by simp) fun d => ?_)
    rw [Links.locked_of_lasting lasting]
    refine getInode_safe (held_one ip d) ?_
    intro _
    rw [lasting]
    have attached : L.detached ≠ some ip := by
      rw [detached]
      exact nofun
    refine Safe.ite ?_ ?_
    · intro _
      refine Safe.ite ?_ ?_
      · intro _
        refine .bind (iunlockOne_safe ?_)
        rw [lasting]
        exact found ip name
      · intro _
        refine .bind (dirlookup_safe (held_one ip d) (mem_cons_self ip I)
          (fun _ _ _ => attached) ?_ ?_)
        · intro _ _
          rw [lasting]
          refine .bind (iunlockputOne_safe plain ?_)
          rw [attach]
          exact fails
        · intro off e _ _ _ _
          rw [lasting, cons_swap]
          refine .bind (iunlockput_safe (held_one ip d) ?_ ?_)
          · intro guarded j isPlain
            exact mem_cons_of_mem (plain guarded j isPlain)
          · rw [without_one, attach]
            exact ih
    · intro _
      refine .bind (iunlockputOne_safe plain ?_)
      rw [attach]
      exact fails

theorem namex_safe {Q : Option (Inum × Name) → Hold n → Prop} (hasCwd : f.staleCwd = false)
    (lasting : L.lasting = L) (detached : L.detached = none)
    (plain : PlainIn g L I)
    (fails : Q none (holding f I [] L))
    (found : ∀ dp name, Q (some (dp, name)) (holding f (dp ::ₘ I) [] L)) :
    Safe g Q (holding f I [] L) (namex parent path) := by
  unfold namex
  refine Safe.ite ?_ ?_
  · intro _
    refine Safe.perform ⟨trivial, trivial, trivial, fun _ => ⟨.inl rfl, trivial⟩⟩ ?_
    rintro ⟨⟩ -
    have gotten : L.gotten rootino = L := Links.gotten_of_lasting lasting rootino
    change Safe g Q (holding f (rootino ::ₘ I) [] (L.gotten rootino)) _
    rw [gotten]
    exact walk_safe lasting detached plain fails found
  · intro _
    refine Safe.perform (needs_refs hasCwd rfl) ?_
    rintro (cwd : Inum) -
    refine Safe.perform ⟨trivial, rfl, trivial, fun _ => ⟨detached, trivial⟩⟩ ?_
    rintro ⟨⟩ -
    change Safe g Q (holding f (cwd ::ₘ I) [] L.lasting.lasting) _
    rw [lasting, lasting]
    exact walk_safe lasting detached plain fails found

/-! ### New inodes -/

/-- What `ialloc` leaves: the new inode is the process's own. -/
def allocatedLinks (L : Links) (i : Inum) (type : IType) : Links :=
  ⟨L.owed, if type = .dir then some i else L.detached, L.plain, some (i, type, true), none, none⟩

theorem iallocFrom_safe {Q : Inum → Hold n → Prop} {inums : List Inum} (typed : type ≠ .free)
    (lasting : L.lasting = L) (detached : L.detached = none)
    (after : ∀ i, (∀ d, (i, some d) ∉ K) →
      Q i (holding f (i ::ₘ I) K (allocatedLinks L i type))) :
    Safe g Q (holding f I K L) (iallocFrom type inums) := by
  induction inums with
  | nil => exact Safe.panic
  | cons i rest ih =>
    unfold iallocFrom
    refine Safe.perform ⟨trivial, trivial, typed, fun _ => ⟨detached, trivial⟩⟩ ?_
    rintro (taken : Bool) ⟨-, isNew, -⟩
    cases taken with
    | false =>
      change Safe g Q (holding f I K L.lasting) _
      rw [lasting]
      exact ih
    | true =>
      have notKnown : ∀ d, (i, some d) ∉ K := isNew rfl
      refine Safe.perform ⟨trivial, trivial, trivial,
        fun _ => ⟨.inr (.inl ⟨type, rfl⟩), trivial⟩⟩ ?_
      rintro ⟨⟩ -
      have gotten : ((L.marked i type).gotten i) = allocatedLinks L i type := by
        simp [Links.marked, Links.gotten, Links.lasting, allocatedLinks]
      change Q i (holding f (i ::ₘ I) K ((L.marked i type).gotten i))
      rw [gotten]
      exact after i notKnown

theorem ialloc_safe {Q : Inum → Hold n → Prop} (typed : type ≠ .free) (lasting : L.lasting = L)
    (detached : L.detached = none) (after : ∀ i, (∀ d, (i, some d) ∉ K) →
      Q i (holding f (i ::ₘ I) K (allocatedLinks L i type))) :
    Safe g Q (holding f I K L) (ialloc type) :=
  iallocFrom_safe typed lasting detached after

/-! ### `create` -/

section Two

variable {ip dp : Inum} {a b : Inode} (different : ip ≠ dp)

include different

theorem modify_first (g : Inode → Inode) :
    (Locks.mk [(ip, some a), (dp, some b)]).modify ip g =
      ⟨[(ip, some (g a)), (dp, some b)]⟩ := by
  simp [Locks.modify, different.symm]

theorem modify_second (g : Inode → Inode) :
    (Locks.mk [(ip, some a), (dp, some b)]).modify dp g =
      ⟨[(ip, some a), (dp, some (g b))]⟩ := by
  simp [Locks.modify, different]

theorem find_second : (Locks.mk [(ip, some a), (dp, some b)]).find dp = some b := by
  simp [Locks.find, different]

theorem held_first : Held [(ip, some a), (dp, some b)] ip a :=
  held_cons (by simpa using different)

theorem held_second : Held [(ip, some a), (dp, some b)] dp b :=
  (held_one dp b).cons different.symm

end Two

theorem mem_two (ip dp : Inum) (I : Multiset Inum) : ip ∈ ip ::ₘ dp ::ₘ I ∧ dp ∈ ip ::ₘ dp ::ₘ I :=
  ⟨mem_cons_self _ _, mem_cons_of_mem (mem_cons_self _ _)⟩

/-- The links of a process that only owes some. -/
abbrev owing (owed : Multiset Inum) (detached : Option Inum) : Links :=
  ⟨owed, detached, none, none, none, none⟩

/-- The last entry of a new inode that is no directory, and the directory is given back. -/
theorem linkFile_safe {a b : Inode} (different : ip ≠ dp) (lookup : b.lookup name = none)
    (typed : g = true → a.type ≠ .dir)
    (isDir : g = true → b.type = .dir ∧ ¬Dotted name)
    (after : ∀ a, Q () (holding f (ip ::ₘ I) [(ip, some a)] .idle)) :
    Safe g Q (holding f (ip ::ₘ dp ::ₘ I) [(ip, some a), (dp, some b)] (owing {ip} none))
      (do if ← dirlink dp name ip then iunlockput dp else panic) := by
  obtain ⟨first, second⟩ := mem_two ip dp I
  refine .bind (dirlink_absent_safe (held_second different) second (fun _ => lookup) ?_
    (fun _ _ => Safe.panic) ?_)
  · intro guarded
    obtain ⟨type, notDotted⟩ := isDir guarded
    refine .inr ⟨⟨b, (held_second different).knows, second, nofun, type⟩, notDotted,
      Multiset.mem_singleton_self ip, .inl ⟨nofun, .inr ⟨a, ?_, typed guarded⟩⟩⟩
    exact (held_first different).knows
  · rw [modify_second different, cons_swap]
    refine iunlockput_safe (held_second different) nofun ?_
    rw [without_second _ _ different]
    have paid : ((owing {ip} none).lasting.addedEntry dp ip).lasting.attach dp = .idle := by
      simp [Links.addedEntry, Links.paid, Links.lasting, Links.attach, Links.idle]
    rw [paid]
    exact after a

/-- The entries of a new directory, and the entry for it. -/
theorem linkDir_safe {a b : Inode} (different : ip ≠ dp) (lookup : b.lookup name = none)
    (isNew : g = true → a = { Inode.blank .dir with nlink := 1 })
    (isDir : g = true → b.type = .dir ∧ ¬Dotted name)
    (after : ∀ a, Q () (holding f (ip ::ₘ I) [(ip, some a)] .idle)) :
    Safe g Q (holding f (ip ::ₘ dp ::ₘ I) [(ip, some a), (dp, some b)]
        (owing (dp ::ₘ {ip}) (some ip)))
      (do
        if ← dirlink ip "." ip then
          if ← dirlink ip ".." dp then
            if ← dirlink dp name ip then iunlockput dp
            else panic
          else panic
        else panic) := by
  obtain ⟨first, second⟩ := mem_two ip dp I
  -- an entry in the new directory itself changes no link count
  have own {j : Inum} : (owing (dp ::ₘ {ip}) (some ip)).lasting.addedEntry ip j =
      owing (dp ::ₘ {ip}) (some ip) := by
    simp [Links.addedEntry, Links.lasting]
  refine .bind (dirlink_absent_safe (held_first different) first ?_
    (fun _ => .inl rfl) (fun _ _ => Safe.panic) ?_)
  · intro guarded
    rw [isNew guarded]
    rfl
  rw [modify_first different, own]
  refine .bind (dirlink_absent_safe (held_first different) first ?_
    (fun _ => .inl rfl) (fun _ _ => Safe.panic) ?_)
  · intro guarded
    rw [isNew guarded]
    rfl
  rw [modify_first different, own]
  refine .bind (dirlink_absent_safe (held_second different) second (fun _ => lookup) ?_
    (fun _ _ => Safe.panic) ?_)
  · intro guarded
    obtain ⟨type, notDotted⟩ := isDir guarded
    refine .inr ⟨⟨b, (held_second different).knows, second, ?_, type⟩, notDotted,
      mem_cons_of_mem (Multiset.mem_singleton_self ip), .inr ⟨rfl, ?_, _,
        (held_first different).knows, ⟨?_, ?_⟩, ?_⟩⟩
    · exact fun same => different (Option.some.inj same)
    · rw [Multiset.mem_erase_of_ne different.symm]
      exact mem_cons_self dp {ip}
    · rw [isNew guarded]
      rfl
    · rw [isNew guarded]
      exact ⟨[], rfl, (by intros; contradiction)⟩
    · rw [isNew guarded]
      rfl
  · rw [modify_second different, cons_swap]
    refine iunlockput_safe (held_second different) (fun _ j isPlain => ?_) ?_
    · simp [Links.addedEntry, Links.joined, Links.lasting, different] at isPlain
    rw [without_second _ _ different]
    have settled : ((dp ::ₘ {ip} : Multiset Inum).erase ip).erase dp = 0 := by
      rw [Multiset.erase_comm, erase_cons_head, Multiset.erase_singleton]
    have joined : ((owing (dp ::ₘ {ip}) (some ip)).lasting.addedEntry dp ip).lasting.attach dp =
        .idle := by
      simp [Links.addedEntry, Links.joined, Links.lasting, Links.attach, Links.idle, different, settled]
    rw [joined]
    exact after _

/-- `create` with the directory and the new inode locked. -/
theorem fillInode_safe {a b : Inode} (different : ip ≠ dp) (lookup : b.lookup name = none)
    (isNew : g = true → a = .blank type) (dirType : b.type = .dir)
    (notDotted : g = true → ¬Dotted name)
    (after : ∀ a, Q () (holding f (ip ::ₘ I) [(ip, some a)] .idle)) :
    Safe g Q (holding f (ip ::ₘ dp ::ₘ I) [(ip, some a), (dp, some b)]
        (allocatedLinks .idle ip type)) (fillInode dp ip name type) := by
  obtain ⟨first, second⟩ := mem_two ip dp I
  unfold fillInode
  refine Safe.perform (needs_locks ⟨a, (held_first different).knows⟩
    (fun _ => ⟨first, type, true, rfl⟩) rfl) ?_
  rintro ⟨⟩ -
  have locks := modify_first (a := a) (b := b) different fun d => { d with nlink := 1 }
  change Safe g Q ⟨f.still (ip ::ₘ dp ::ₘ I),
    (Locks.mk [(ip, some a), (dp, some b)]).modify ip fun d => { d with nlink := 1 },
    owing {ip} (if type = .dir then some ip else none)⟩ _
  rw [locks]
  refine Safe.ite ?_ ?_
  · intro isDir
    rw [if_pos isDir]
    refine Safe.perform (needs_locks ⟨b, (held_second different).knows⟩ (fun _ => second) rfl) ?_
    rintro ⟨⟩ -
    have added : Links.addedLink ⟨[(ip, some { a with nlink := 1 }), (dp, some b)]⟩
        (owing {ip} (some ip)) dp = owing (dp ::ₘ {ip}) (some ip) := by
      simp [Links.addedLink, find_second different, dirType, Links.owing, Links.lasting]
    change Safe g Q ⟨f.still (ip ::ₘ dp ::ₘ I),
      (Locks.mk [(ip, some { a with nlink := 1 }), (dp, some b)]).modify dp
        fun d => { d with nlink := d.nlink + 1 },
      Links.addedLink ⟨[(ip, some { a with nlink := 1 }), (dp, some b)]⟩
        (owing {ip} (some ip)) dp⟩ _
    rw [added, modify_second different]
    refine linkDir_safe different lookup ?_ (fun guarded => ⟨dirType, notDotted guarded⟩) after
    intro guarded
    rw [isNew guarded, isDir]
  · intro isFile
    rw [if_neg isFile]
    refine linkFile_safe different lookup ?_ (fun guarded => ⟨dirType, notDotted guarded⟩) after
    intro guarded
    rw [isNew guarded]
    exact isFile

/-- `create` gives up, or returns an inode that it has locked. -/
theorem create_safe {Q : Option Inum → Hold n → Prop} (typed : type ≠ .free)
    (hasCwd : f.staleCwd = false) (fails : Q none (holding f I [] .idle))
    (found : ∀ ip d, Q (some ip) (holding f (ip ::ₘ I) [(ip, some d)] .idle)) :
    Safe g Q (holding f I [] .idle) (create path type) := by
  have noPlain {J : Multiset Inum} (_ : g = true) (j : Inum)
      (isPlain : Links.idle.plain = some j) : j ∈ J := by cases isPlain
  unfold create
  refine .bind (namex_safe hasCwd rfl rfl noPlain fails ?_)
  intro dp name
  have attached : (Links.idle.locked dp).detached ≠ some dp := (Option.some_ne_none dp).symm
  refine .bind (ilockOne_safe (by simp) fun b => ?_)
  refine .bind (dirlookup_safe (held_one dp b) (mem_cons_self dp I) (fun _ _ _ => attached) ?_ ?_)
  · intro looked lookup
    refine .bind (ialloc_safe typed rfl rfl ?_)
    intro ip notKnown
    have different : ip ≠ dp := by
      rintro rfl
      exact notKnown b List.mem_cons_self
    refine .bind (ilock_safe (.inl (mem_cons_self ip _)) ?_ ?_)
    · intro _
      refine .inr (.inr ⟨⟨_, rfl⟩, dp, b, rfl,
        List.mem_cons_self, mem_cons_of_mem (mem_cons_self dp I), ?_, looked.type⟩)
      intro isOwn
      simp only [holding, allocatedLinks] at isOwn
      split at isOwn
      · exact different (Option.some.inj isOwn)
      · cases isOwn
    · intro a _ _ isNew
      have links : (allocatedLinks .idle ip type).locked ip = allocatedLinks .idle ip type := by
        simp [Links.locked, Links.lasting, allocatedLinks]
      have isBlank : g = true → a = .blank type :=
        fun guarded => isNew guarded type true rfl
      change Safe g Q (holding f (ip ::ₘ dp ::ₘ I) [(ip, some a), (dp, some b)]
        ((allocatedLinks .idle ip type).locked ip)) _
      rw [links]
      refine .bind (fillInode_safe different lookup isBlank looked.type ?_ (found ip))
      intro guarded
      obtain ⟨up, isDir⟩ := looked.isDir guarded attached
      exact isDir.plain_of_lookup lookup
  · intro off e looked _ _ _
    rw [cons_swap]
    refine .bind (iunlockputOne_safe noPlain ?_)
    refine .bind (ilockOne_safe (by simp) fun d => ?_)
    refine getInode_safe (held_one e.inum d) ?_
    intro _
    refine Safe.ite (fun _ => found e.inum d) fun _ => ?_
    refine .bind (iunlockputOne_safe noPlain ?_)
    exact fails

end Inodes

end Xv6.Fs
