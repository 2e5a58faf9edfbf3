import Xv6.Fs.State

/-!
The inode locks a process holds.

Owns: the sleep-locks a process holds and what it knows of the inodes under them; what each
operation needs and leaves of them; and the invariant that a lock has one owner and that the
owner knows the inode as it is.

Does not own: in which order locks are taken (`Xv6.Fs.Order`).
-/

namespace Xv6.Fs

open Function (update)

variable {n : Nat} {a : Locks} {i : Inum} {d : Inode}

structure Locks where
  /-- The locks held, each with the inode if `ilock` took it; `iput` only takes the lock. -/
  held : List (Inum × Option Inode)

namespace Locks

def idle : Locks := ⟨[]⟩

def keys (a : Locks) : List Inum :=
  a.held.map Prod.fst

/-- The process has locked the inode and knows it. -/
def Knows (a : Locks) (i : Inum) (d : Inode) : Prop :=
  (i, some d) ∈ a.held

/-- What an operation needs. -/
def pre (a : Locks) : Op n → Prop
  | .releasesleep i | .noLinks i => i ∈ a.keys
  | .ifree i => (i, none) ∈ a.held
  | .getInode i | .initLink i | .addLink i | .dropLink i => ∃ d, a.Knows i d
  | .addEntry dp _ _ | .clearEntry dp _ => ∃ d, a.Knows dp d
  | .tryAlloc _ type => type ≠ .free
  | .leave => a.held = []
  | _ => True

/-- What the answer of an operation tells the process. -/
def fact (a : Locks) : (o : Op n) → o.Ret → Prop
  | .ilock i, d => i ∉ a.keys ∧ Inode.type d ≠ .free
  | .acquiresleep i, _ => i ∉ a.keys
  | .getInode i, d => a.Knows i d
  | .tryAlloc i _, marks => (show Bool from marks) = true → ∀ d, ¬a.Knows i d
  | _, _ => True

/-- The process has changed an inode it knows. -/
def modify (a : Locks) (i : Inum) (f : Inode → Inode) : Locks :=
  ⟨a.held.map fun lock => if lock.1 = i then (lock.1, lock.2.map f) else lock⟩

/-- What an operation leaves. -/
def post (a : Locks) : (o : Op n) → o.Ret → Locks
  | .ilock i, d => ⟨(i, some d) :: a.held⟩
  | .acquiresleep i, _ => ⟨(i, none) :: a.held⟩
  | .releasesleep i, _ => ⟨a.held.filter fun lock => lock.1 ≠ i⟩
  | .initLink i, _ => a.modify i fun d => { d with nlink := 1 }
  | .addLink i, _ => a.modify i fun d => { d with nlink := d.nlink + 1 }
  | .dropLink i, _ => a.modify i fun d => { d with nlink := d.nlink - 1 }
  | .addEntry dp name i, _ => a.modify dp fun d => d.addEntry ⟨name, i⟩
  | .clearEntry dp off, _ => a.modify dp fun d => d.clearEntry off
  | _, _ => a

theorem keys_modify (a : Locks) (i : Inum) (f : Inode → Inode) : (a.modify i f).keys = a.keys := by
  simp only [keys, modify, List.map_map]
  refine List.map_congr_left fun lock _ => ?_
  simp only [Function.comp_apply]
  split <;> rfl

theorem mem_modify {j : Inum} {f : Inode → Inode} (knows : (a.modify i f).Knows j d) :
    ∃ e, a.Knows j e ∧ d = if j = i then f e else e := by
  obtain ⟨⟨k, known⟩, member, same⟩ := List.mem_map.mp knows
  by_cases isKey : k = i
  · rw [if_pos isKey] at same
    obtain ⟨rfl, found⟩ := Prod.mk.inj same
    obtain ⟨e, rfl, rfl⟩ := Option.map_eq_some_iff.mp found
    exact ⟨e, member, (if_pos isKey).symm⟩
  · rw [if_neg isKey] at same
    cases same
    exact ⟨d, member, (if_neg isKey).symm⟩

theorem Knows.key (knows : a.Knows i d) : i ∈ a.keys :=
  List.mem_map.mpr ⟨_, knows, rfl⟩

end Locks

/-! ## The invariant -/

structure LockInv (s : State n) (held : Fin n → Locks) : Prop where
  owner : ∀ i p, s.lock i = some p ↔ i ∈ (held p).keys
  once : ∀ p, (held p).keys.Nodup
  known : ∀ p i d, (held p).Knows i d → s.inode i = d ∧ d.type ≠ .free
  valid : ∀ i, s.valid i = true → (s.inode i).type ≠ .free

variable {s next : State n} {held : Fin n → Locks} {p : Fin n} {a : Locks}

namespace LockInv

variable (inv : LockInv s held)

include inv

/-- A process that knows a locked inode knows it alone. -/
theorem known_unique {q : Fin n} (knows : (held q).Knows i d)
    (owner : s.lock i = some p) : q = p := by
  have isOwner := (inv.owner i q).mpr knows.key
  rw [owner] at isOwner
  exact (Option.some.inj isOwner).symm

/-- The locks stay as they are, the inodes that others know too. -/
theorem keep (lock : next.lock = s.lock) (keys : a.keys = (held p).keys)
    (others : ∀ q i d, q ≠ p → (held q).Knows i d → next.inode i = s.inode i)
    (self : ∀ i d, a.Knows i d → next.inode i = d ∧ d.type ≠ .free)
    (valid : ∀ i, next.valid i = true → (next.inode i).type ≠ .free) :
    LockInv next (update held p a) := by
  have sameKeys (q : Fin n) : (update held p a q).keys = (held q).keys :=
    Update.cases q keys fun _ => rfl
  refine ⟨?_, ?_, ?_, valid⟩
  · intro i q
    rw [lock, sameKeys]
    exact inv.owner i q
  · intro q
    rw [sameKeys]
    exact inv.once q
  · intro q i d
    refine Update.cases q (self i d) fun isOther knows => ?_
    rw [others q i d isOther knows]
    exact inv.known q i d knows

/-- Nothing changes that has to do with locks. -/
theorem frame (lock : next.lock = s.lock) (inode : next.inode = s.inode)
    (valid : ∀ i, next.valid i = true → s.valid i = true) (same : a.held = (held p).held) :
    LockInv next (update held p a) := by
  refine inv.keep lock (by rw [Locks.keys, same, Locks.keys]) ?_ ?_ ?_
  · intro q i d _ _
    rw [inode]
  · intro i d knows
    rw [Locks.Knows, same] at knows
    rw [inode]
    exact inv.known p i d knows
  · intro i isValid
    rw [inode]
    exact inv.valid i (valid i isValid)

/-- An inode changes that no other process knows. -/
theorem set (lock : next.lock = s.lock)
    (inode : next.inode = update s.inode i d) (keys : a.keys = (held p).keys)
    (unknown : ∀ q e, q ≠ p → ¬(held q).Knows i e)
    (self : ∀ e, a.Knows i e → d = e ∧ e.type ≠ .free)
    (others : ∀ j e, j ≠ i → a.Knows j e → (held p).Knows j e)
    (valid : ∀ j, next.valid j = true → (update s.inode i d j).type ≠ .free) :
    LockInv next (update held p a) := by
  refine inv.keep lock keys ?_ ?_ (by rw [inode]; exact valid)
  · rw [inode]
    refine fun q j e isOther => Update.cases j (fun knows => ?_) fun _ _ => rfl
    exact absurd knows (unknown q e isOther)
  · rw [inode]
    refine fun j e => Update.cases j (self e) fun different knows => ?_
    exact inv.known p j e (others j e different knows)

/-- The owner of a lock changes the inode but not its type. -/
theorem modify (f : Inode → Inode) (owner : s.lock i = some p)
    (type : ∀ d, (f d).type = d.type) :
    LockInv (s.setInode i (f (s.inode i))) (update held p ((held p).modify i f)) := by
  refine inv.set rfl rfl (Locks.keys_modify _ _ _)
    (fun q _ isOther knows => isOther (inv.known_unique knows owner)) ?_ ?_ ?_
  · intro d knows
    obtain ⟨e, known, rfl⟩ := Locks.mem_modify knows
    rw [if_pos rfl, type, (inv.known p i e known).1]
    exact ⟨rfl, (inv.known p i e known).2⟩
  · intro j d different knows
    obtain ⟨e, known, rfl⟩ := Locks.mem_modify knows
    rw [if_neg different]
    exact known
  · refine fun j => Update.cases j (fun isValid => ?_) fun _ => inv.valid j
    rw [type]
    exact inv.valid i isValid

/-- A free lock is taken. -/
theorem take {known : Option Inode} (unlocked : s.lock i = none)
    (lock : next.lock = update s.lock i (some p)) (inode : next.inode = s.inode)
    (valid : ∀ i, next.valid i = true → (s.inode i).type ≠ .free)
    (facts : ∀ d, known = some d → s.inode i = d ∧ d.type ≠ .free) :
    i ∉ (held p).keys ∧
      LockInv next (update held p ⟨(i, known) :: (held p).held⟩) := by
  have noOwner (q : Fin n) : i ∉ (held q).keys := by
    intro member
    have owner := (inv.owner i q).mpr member
    rw [unlocked] at owner
    cases owner
  refine ⟨noOwner p, ?_, ?_, ?_, ?_⟩
  · intro j q
    rw [lock]
    refine Update.cases q ?_ fun isOther => ?_
    · rw [Locks.keys, List.map_cons, List.mem_cons]
      refine Update.cases j ⟨fun _ => .inl rfl, fun _ => rfl⟩ fun different => ?_
      rw [inv.owner j p]
      exact ⟨.inr, fun member => member.resolve_left different⟩
    · refine Update.cases j ⟨?_, fun member => absurd member (noOwner q)⟩ fun _ => inv.owner j q
      exact fun owner => absurd (Option.some.inj owner).symm isOther
  · refine fun q => Update.cases q ?_ fun _ => inv.once q
    exact List.nodup_cons.mpr ⟨noOwner p, inv.once p⟩
  · intro q j d
    rw [inode]
    refine Update.cases q (fun knows => ?_) fun _ => inv.known q j d
    cases knows with
    | head => exact facts d rfl
    | tail _ old => exact inv.known p j d old
  · intro j isValid
    rw [inode]
    exact valid j isValid

/-- A lock is given back. -/
theorem release (owner : s.lock i = some p) :
    LockInv (s.setLock i none)
      (update held p ⟨(held p).held.filter fun lock => lock.1 ≠ i⟩) := by
  have left (j : Inum) : j ∈ ((held p).held.filter fun lock => lock.1 ≠ i).map Prod.fst ↔
      j ∈ (held p).keys ∧ j ≠ i := by
    simp only [Locks.keys, List.mem_map, List.mem_filter, decide_eq_true_eq]
    constructor
    · rintro ⟨lock, ⟨member, different⟩, rfl⟩
      exact ⟨⟨lock, member, rfl⟩, different⟩
    · rintro ⟨⟨lock, member, rfl⟩, different⟩
      exact ⟨lock, ⟨member, different⟩, rfl⟩
  refine ⟨?_, ?_, ?_, inv.valid⟩
  · intro j q
    dsimp only [State.setLock]
    refine Update.cases q ?_ fun isOther => ?_
    · rw [Locks.keys, left]
      refine Update.cases j ⟨nofun, fun member => absurd rfl member.2⟩ ?_
      intro different
      rw [inv.owner j p]
      exact ⟨fun member => ⟨member, different⟩, And.left⟩
    · refine Update.cases j ⟨nofun, fun member => ?_⟩ fun _ => inv.owner j q
      have isOwner := (inv.owner i q).mpr member
      rw [owner] at isOwner
      exact absurd (Option.some.inj isOwner).symm isOther
  · refine fun q => Update.cases q ?_ fun _ => inv.once q
    exact (List.filter_sublist.map Prod.fst).nodup (inv.once p)
  · intro q j d
    refine Update.cases q (fun knows => ?_) fun _ => inv.known q j d
    exact inv.known p j d (List.mem_of_mem_filter knows)

/-- The lock of an inode is held once, with or without the inode. -/
theorem not_known (bare : (i, none) ∈ (held p).held) (d : Inode) :
    ¬(held p).Knows i d := by
  intro knows
  have same := List.inj_on_of_nodup_map (inv.once p) bare knows rfl
  cases same

theorem ifree (owner : s.lock i = some p)
    (bare : (i, none) ∈ (held p).held) :
    LockInv ((s.setInode i (.blank .free)).setValid i false)
      (update held p (held p)) := by
  refine inv.set rfl rfl rfl (fun q _ isOther knows => isOther (inv.known_unique knows owner))
    (fun d knows => absurd knows (inv.not_known bare d)) (fun _ _ _ => id) ?_
  intro j
  change update s.valid i false j = true → (update s.inode i _ j).type ≠ .free
  exact Update.cases₂ j nofun fun _ => inv.valid j

theorem tryAlloc {type : IType} (free : (s.inode i).type = .free)
    (typed : type ≠ .free) :
    LockInv (s.setInode i (.blank type)) (update held p (held p)) := by
  have unknown (q : Fin n) (d : Inode) (knows : (held q).Knows i d) : False := by
    obtain ⟨rfl, used⟩ := inv.known q i d knows
    exact used free
  refine inv.set rfl rfl rfl (fun q d _ => unknown q d) (fun d knows => (unknown p d knows).elim)
    (fun _ _ _ => id) fun j isValid => ?_
  exact Update.cases j typed fun _ => inv.valid j isValid

theorem step {o : Op n} {answer : o.Ret} (needs : (held p).pre o)
    (executed : Exec s p o answer next) :
    (held p).fact o answer ∧ LockInv next (update held p ((held p).post o answer)) := by
  cases executed
  case igetNew i uncached =>
    refine ⟨trivial, inv.frame rfl rfl ?_ rfl⟩
    intro j
    change update s.valid i false j = true → _
    exact Update.cases j nofun fun _ => id
  case ilockValid i referenced unlocked valid =>
    have typed := inv.valid i valid
    have taken : i ∉ (held p).keys ∧ LockInv (s.setLock i (some p))
        (update held p ⟨(i, some (s.inode i)) :: (held p).held⟩) := by
      refine inv.take unlocked rfl rfl inv.valid ?_
      intro d same
      cases same
      exact ⟨rfl, typed⟩
    exact ⟨⟨taken.1, typed⟩, taken.2⟩
  case ilockRead i referenced unlocked invalid typed =>
    have taken : i ∉ (held p).keys ∧ LockInv ((s.setLock i (some p)).setValid i true)
        (update held p ⟨(i, some (s.inode i)) :: (held p).held⟩) := by
      refine inv.take unlocked rfl rfl ?_ ?_
      · intro j
        change update s.valid i true j = true → _
        exact Update.cases j (fun _ => typed) fun _ => inv.valid j
      · intro d same
        cases same
        exact ⟨rfl, typed⟩
    exact ⟨⟨taken.1, typed⟩, taken.2⟩
  case acquiresleep i unlocked =>
    exact inv.take unlocked rfl rfl inv.valid nofun
  case releasesleep i owner => exact ⟨trivial, inv.release owner⟩
  case ifree i owner => exact ⟨trivial, inv.ifree owner needs⟩
  case getInode i owner =>
    obtain ⟨d, knows⟩ := needs
    refine ⟨?_, inv.frame rfl rfl (fun _ => id) rfl⟩
    rw [(inv.known p i d knows).1]
    exact knows
  case initLink i owner =>
    exact ⟨trivial, inv.modify (fun d => { d with nlink := 1 }) owner fun _ => rfl⟩
  case addLink i owner =>
    exact ⟨trivial, inv.modify (fun d => { d with nlink := d.nlink + 1 }) owner fun _ => rfl⟩
  case dropLink i owner =>
    exact ⟨trivial, inv.modify (fun d => { d with nlink := d.nlink - 1 }) owner fun _ => rfl⟩
  case addEntry dp name i owner =>
    exact ⟨trivial, inv.modify (fun d => d.addEntry ⟨name, i⟩) owner fun _ => rfl⟩
  case clearEntry dp off owner =>
    exact ⟨trivial, inv.modify (fun d => d.clearEntry off) owner fun _ => rfl⟩
  case tryAllocFree i type free =>
    refine ⟨?_, inv.tryAlloc free needs⟩
    intro _ d knows
    obtain ⟨rfl, used⟩ := inv.known p i d knows
    exact used free
  case tryAllocUsed i type used => exact ⟨nofun, inv.frame rfl rfl (fun _ => id) rfl⟩
  all_goals exact ⟨trivial, inv.frame rfl rfl (fun _ => id) rfl⟩

end LockInv

end Xv6.Fs
