import Xv6.Bio.Cache

/-!
The log on the disk.

Owns: where the log lies, the format of its header block, and the bodies of `write_head`,
`read_head` and of the loops in `write_log` and `install_trans`, each of which writes one
block.

Does not own: the order in which they run (`Xv6.Log.Model`, `Xv6.Log.Recovery`).
-/

namespace Xv6.Log

open Xv6.Bio

def logsize : Nat := maxopblocks * 3

/-- The part of the superblock that the log uses. `mkfs` makes the log `LOGSIZE` blocks
long, which is also the number of buffers. -/
structure Layout where
  start : Nat
  size : Nat
  size_eq : size = logsize
  inside : start + size ≤ fssize

/-- `mkfs` puts the log after the boot block and the superblock. -/
def Layout.mkfs : Layout where
  start := 2
  size := logsize
  size_eq := rfl
  inside := by decide

/-- A block of the file system outside the log area. -/
def Layout.Home (layout : Layout) (b : Nat) : Prop :=
  b < fssize ∧ (b < layout.start ∨ layout.start + layout.size ≤ b)

instance (layout : Layout) (b : Nat) : Decidable (layout.Home b) :=
  inferInstanceAs (Decidable (_ ∧ _))

/-! ## The header block -/

/-- `struct logheader`: a count and then the block numbers. -/
def headBlocks (block : Block) : List Nat :=
  ((List.finRange 127).take (block 0).toInt.toNat).map fun i => (block i.succ).toNat

/-- The stores of `write_head` into the header block. -/
def fillHead (lh : List Nat) (block : Block) : Block :=
  Fin.cases (BitVec.ofNat 32 lh.length) fun i =>
    match lh[i.val]? with
    | some b => BitVec.ofNat 32 b
    | none => block i.succ

variable {lh : List Nat} {start logBlock home : Nat} {victim victim' : Fin nbuf}

theorem headBlocks_fillHead (short : lh.length ≤ 127) (small : ∀ b ∈ lh, b < 2 ^ 32) (block : Block) :
    headBlocks (fillHead lh block) = lh := by
  have count : (fillHead lh block 0).toInt.toNat = lh.length := by
    have word : (BitVec.ofNat 32 lh.length).toNat = lh.length := by
      rw [BitVec.toNat_ofNat]
      omega
    rw [fillHead, Fin.cases_zero, BitVec.toInt_eq_toNat_of_lt (by omega), word]
    exact Int.toNat_natCast _
  apply List.ext_getElem
  · simp [headBlocks, count, short]
  · intro i _ inside
    have bound : i < 127 := by omega
    simp only [headBlocks, count, List.getElem_map, List.getElem_take, List.getElem_finRange]
    simp only [fillHead, Fin.cases_succ, Fin.val_cast, inside, List.getElem?_eq_getElem,
      BitVec.toNat_ofNat]
    exact Nat.mod_eq_of_lt (small _ (List.getElem_mem inside))

theorem headBlocks_clear (block : Block) : headBlocks (fillHead [] block) = [] :=
  headBlocks_fillHead (by simp) (by simp) block

/-! ## The bodies that write one block -/

def writeHead (st : Store) (p : Pid) (start : Nat) (lh : List Nat) (victim : Fin nbuf) :
    Outcome Store :=
  (st.bread p start victim).bind fun (i, st) =>
    .done (((st.modify i (fillHead lh)).bwrite i).brelse i)

def readHead (st : Store) (p : Pid) (start : Nat) (victim : Fin nbuf) :
    Outcome (List Nat × Store) :=
  (st.bread p start victim).bind fun (i, st) =>
    .done (headBlocks (st.cache i).data, st.brelse i)

/-- The loop body of `write_log`: the cached home block goes to the log. -/
def writeLogBody (st : Store) (p : Pid) (logBlock home : Nat) (victim victim' : Fin nbuf) :
    Outcome Store :=
  (st.bread p logBlock victim).bind fun (dst, st) =>
    (st.bread p home victim').bind fun (src, st) =>
      .done ((((st.modify dst fun _ => (st.cache src).data).bwrite dst).brelse src).brelse dst)

/-- The loop body of `install_trans`: the log block goes home. -/
def installBody (st : Store) (p : Pid) (logBlock home : Nat) (victim victim' : Fin nbuf) :
    Outcome Store :=
  (st.bread p logBlock victim).bind fun (lbuf, st) =>
    (st.bread p home victim').bind fun (dbuf, st) =>
      .done ((((st.modify dbuf fun _ => (st.cache lbuf).data).bwrite dbuf).brelse lbuf).brelse dbuf)

theorem writeHead_cachePanics (st : Store) (p : Pid) (start : Nat) (lh : List Nat)
    (victim : Fin nbuf) : (writeHead st p start lh victim).CachePanics :=
  (bread_cachePanics _ _ _ _).bind fun _ => .done _

theorem writeLogBody_cachePanics (st : Store) (p : Pid) (logBlock home : Nat)
    (victim victim' : Fin nbuf) : (writeLogBody st p logBlock home victim victim').CachePanics :=
  (bread_cachePanics _ _ _ _).bind fun _ => (bread_cachePanics _ _ _ _).bind fun _ => .done _

theorem installBody_cachePanics (st : Store) (p : Pid) (logBlock home : Nat)
    (victim victim' : Fin nbuf) : (installBody st p logBlock home victim victim').CachePanics :=
  (bread_cachePanics _ _ _ _).bind fun _ => (bread_cachePanics _ _ _ _).bind fun _ => .done _

/-- One block has been written, in the cache and on the disk. -/
structure Written (st : Store) (content : Nat → Block) (b : Nat) (value : Block) (st' : Store) :
    Prop where
  rep : Represents st' (Function.update content b value)
  disk : st'.disk = Function.update st.disk b value
  dirty : ∀ c, st'.IsDirty c ↔ c ≠ b ∧ st.IsDirty c
  alteredBy : ∀ q, st'.AlteredBy q → st.AlteredBy q

section Bodies

variable {st st₁ st' : Store} {content : Nat → Block} {p : Pid} {b c : Nat} {value : Block}
  {i j : Fin nbuf}

theorem bwrite_unaltered (at_ : (st.cache i).blockno = some b) :
    ((st.bwrite i).cache i).altered = false := by
  simp [Store.bwrite, at_]

theorem Written.overwrite (rep : Represents st content) (change : Block → Block)
    (at_ : (st.cache i).blockno = some b) (held : (st.cache i).holder ≠ none) :
    Written st content b (change (content b)) ((st.modify i change).bwrite i) := by
  have changed := rep.modify change at_ held
  have at' : ((st.modify i change).cache i).blockno = some b := by
    simpa using at_
  refine ⟨changed.bwrite at', ?_, ?_, ?_⟩
  · rw [bwrite_disk changed at', Function.update_self]
    rfl
  · intro c
    rw [bwrite_isDirty changed at', modify_isDirty rep change at_]
  · rintro q ⟨j, holder, altered⟩
    have different : j ≠ i := by
      rintro rfl
      rw [bwrite_unaltered at'] at altered
      simp at altered
    rw [Store.bwrite_cache_of_ne different, Store.modify_cache_of_ne different] at holder altered
    exact ⟨j, holder, altered⟩

theorem Written.brelse (written : Written st content b value st')
    (at_ : (st'.cache j).blockno = some c) (unaltered : (st'.cache j).altered = false) :
    Written st content b value (st'.brelse j) where
  rep := written.rep.brelse at_ unaltered
  disk := written.disk
  dirty := fun other => (brelse_isDirty written.rep at_).trans (written.dirty other)
  alteredBy := by
    rintro q ⟨k, holder, altered⟩
    have different : k ≠ j := by
      rintro rfl
      simp [Store.brelse, Store.setBuf] at holder
    rw [Store.brelse_cache_of_ne different] at holder altered
    exact written.alteredBy q ⟨k, holder, altered⟩

/-- A store written after some blocks have been fetched is written from the start. -/
theorem Written.of_fetched (got : Fetched st content p c i st₁)
    (written : Written st₁ content b value st') : Written st content b value st' where
  rep := written.rep
  disk := by rw [written.disk, got.disk]
  dirty := fun other => by rw [written.dirty, got.dirty]
  alteredBy := fun q altered => got.alteredBy (written.alteredBy q altered)

theorem writeHead_written (rep : Represents st content)
    (done : writeHead st p start lh victim = .done st') :
    Written st content start (fillHead lh (content start)) st' := by
  obtain ⟨⟨i, st₁⟩, fetched, last⟩ := Outcome.bind_eq_done.mp done
  have got := rep.bread fetched
  rw [← Outcome.done.inj last]
  have held : (st₁.cache i).holder ≠ none := by
    rw [got.holder]
    simp
  have written := Written.overwrite got.rep (fillHead lh) got.blockno held
  have released := written.brelse (j := i) (c := start) (by simpa using got.blockno)
    (bwrite_unaltered (b := start) (by simpa using got.blockno))
  exact released.of_fetched got

theorem readHead_blocks (rep : Represents st content)
    (done : readHead st p start victim = .done (lh, st')) :
    lh = headBlocks (content start) ∧ Represents st' content ∧ st'.disk = st.disk ∧
      (∀ c, st'.IsDirty c ↔ st.IsDirty c) := by
  obtain ⟨⟨i, st₁⟩, fetched, last⟩ := Outcome.bind_eq_done.mp done
  have got := rep.bread fetched
  simp only [Outcome.done.injEq, Prod.mk.injEq] at last
  obtain ⟨rfl, rfl⟩ := last
  refine ⟨by rw [got.data], got.rep.brelse got.blockno got.unaltered, got.disk, fun c => ?_⟩
  rw [brelse_isDirty got.rep got.blockno, got.dirty]

/-- The two buffers that a loop body locks. -/
theorem fetched_twice {first second : Nat} {st₂ : Store} (rep : Represents st content)
    (one : st.bread p first victim = .done (i, st₁))
    (two : st₁.bread p second victim' = .done (j, st₂)) :
    Fetched st content p first i st₁ ∧ Fetched st₁ content p second j st₂ ∧ i ≠ j := by
  have got := rep.bread one
  have got' := got.rep.bread two
  refine ⟨got, got', ?_⟩
  rintro rfl
  have free := got'.free
  rw [got.holder] at free
  simp at free

/-- Copy one locked buffer to another, write it and release both. -/
theorem Written.copy {src dst : Fin nbuf} (rep : Represents st content)
    (srcAt : (st.cache src).blockno = some c) (srcUnaltered : (st.cache src).altered = false)
    (dstAt : (st.cache dst).blockno = some b) (held : (st.cache dst).holder = some p)
    (different : src ≠ dst) :
    Written st content b (content c)
      ((((st.modify dst fun _ => (st.cache src).data).bwrite dst).brelse src).brelse dst) := by
  have written := Written.overwrite rep (fun _ => (st.cache src).data) dstAt (by simp [held])
  rw [rep.cached src c srcAt] at written ⊢
  have once := written.brelse (j := src) (c := c) (by simpa using srcAt) (by
    rw [Store.bwrite_cache_of_ne different, Store.modify_cache_of_ne different]
    exact srcUnaltered)
  apply once.brelse (c := b)
  · simpa using dstAt
  · rw [Store.brelse_cache_of_ne different.symm]
    exact bwrite_unaltered (b := b) (by simpa using dstAt)

theorem writeLogBody_written (rep : Represents st content)
    (done : writeLogBody st p logBlock home victim victim' = .done st') :
    Written st content logBlock (content home) st' := by
  obtain ⟨⟨dst, st₁⟩, one, rest⟩ := Outcome.bind_eq_done.mp done
  obtain ⟨⟨src, st₂⟩, two, last⟩ := Outcome.bind_eq_done.mp rest
  obtain ⟨got, got', different⟩ := fetched_twice rep one two
  rw [← Outcome.done.inj last]
  have still := got'.others dst different
  have copied := Written.copy got'.rep got'.blockno got'.unaltered
    (by rw [still]; exact got.blockno) (by rw [still]; exact got.holder) different.symm
  exact (copied.of_fetched got').of_fetched got

theorem installBody_written (rep : Represents st content)
    (done : installBody st p logBlock home victim victim' = .done st') :
    Written st content home (content logBlock) st' := by
  obtain ⟨⟨lbuf, st₁⟩, one, rest⟩ := Outcome.bind_eq_done.mp done
  obtain ⟨⟨dbuf, st₂⟩, two, last⟩ := Outcome.bind_eq_done.mp rest
  obtain ⟨got, got', different⟩ := fetched_twice rep one two
  rw [← Outcome.done.inj last]
  have still := got'.others lbuf different
  have copied := Written.copy got'.rep (by rw [still]; exact got.blockno)
    (by rw [still]; exact got.unaltered) got'.blockno got'.holder different
  exact (copied.of_fetched got').of_fetched got

/-- The log block needs a buffer next to those of the dirty blocks. -/
theorem writeLogBody_room {blocks : List Nat} (rep : Represents st content)
    (done : writeLogBody st p logBlock home victim victim' = .done st')
    (dirty : ∀ b ∈ blocks, st.IsDirty b) (nodup : blocks.Nodup) (outside : logBlock ∉ blocks) :
    blocks.length < nbuf := by
  obtain ⟨⟨dst, st₁⟩, one, _⟩ := Outcome.bind_eq_done.mp done
  have got := rep.bread one
  have cached : ∀ b ∈ logBlock :: blocks, ∃ i, (st₁.cache i).blockno = some b := by
    intro b member
    rcases List.mem_cons.mp member with rfl | member
    · exact ⟨dst, got.blockno⟩
    · obtain ⟨i, occupied, _⟩ := (got.dirty b).mpr (dirty b member)
      exact ⟨i, occupied⟩
  -- Distinct blocks have distinct buffers.
  have distinct : (logBlock :: blocks).Nodup := List.nodup_cons.mpr ⟨outside, nodup⟩
  have : Nonempty (Fin nbuf) := ⟨dst⟩
  choose! slot occupied using cached
  have injective : ((logBlock :: blocks).map slot).Nodup := by
    apply List.Nodup.map_on _ distinct
    intro b member c member' same
    have one := occupied b member
    rw [same, occupied c member'] at one
    exact (Option.some.inj one).symm
  have bound := injective.length_le_card
  simp only [List.length_map, List.length_cons, Fintype.card_fin] at bound
  omega

/-! ### The bodies complete and leave no buffer locked -/

theorem writeHead_free (rep : Represents st content) (free : st.Free)
    (done : writeHead st p start lh victim = .done st') : st'.Free := by
  obtain ⟨⟨i, st₁⟩, fetched, last⟩ := Outcome.bind_eq_done.mp done
  have got := rep.bread fetched
  rw [← Outcome.done.inj last]
  intro j
  by_cases same : j = i
  · simp [same]
  · simpa [same, got.others j same] using free j

theorem readHead_free (rep : Represents st content) (free : st.Free)
    (done : readHead st p start victim = .done (lh, st')) : st'.Free := by
  obtain ⟨⟨i, st₁⟩, fetched, last⟩ := Outcome.bind_eq_done.mp done
  have got := rep.bread fetched
  simp only [Outcome.done.injEq, Prod.mk.injEq] at last
  rw [← last.2]
  intro j
  by_cases same : j = i
  · simp [same]
  · simpa [same, got.others j same] using free j

theorem installBody_free (rep : Represents st content) (free : st.Free)
    (done : installBody st p logBlock home victim victim' = .done st') : st'.Free := by
  obtain ⟨⟨lbuf, st₁⟩, one, rest⟩ := Outcome.bind_eq_done.mp done
  obtain ⟨⟨dbuf, st₂⟩, two, last⟩ := Outcome.bind_eq_done.mp rest
  obtain ⟨got, got', _⟩ := fetched_twice rep one two
  rw [← Outcome.done.inj last]
  intro j
  by_cases second : j = dbuf
  · simp [second]
  · by_cases first : j = lbuf
    · simp [first]
    · simpa [second, first, got'.others j second, got.others j first] using free j

theorem recyclable_of_free (free : (st.cache i).holder = none) (clean : (st.cache i).dirty = false) :
    (st.cache i).recyclable = true := by
  simp [Buf.recyclable, free, clean]

theorem installBody_completes (rep : Represents st content) (free : st.Free)
    (clean : ∀ b, ¬st.IsDirty b) (logInside : logBlock < fssize) (homeInside : home < fssize)
    (different : logBlock ≠ home) :
    ∃ victim victim' st', installBody st p logBlock home victim victim' = .done st' := by
  obtain ⟨lbuf, st₁, one⟩ := bread_succeeds (p := p) logInside (fun j _ => free j)
    (recyclable_of_free (free 0) (rep.clean_slot clean 0))
  have got := rep.bread one
  obtain ⟨victim', other⟩ : ∃ victim' : Fin nbuf, victim' ≠ lbuf := by
    by_cases zero : lbuf = 0
    · exact ⟨1, by rw [zero]; decide⟩
    · exact ⟨0, Ne.symm zero⟩
  have unheld : ∀ j, (st₁.cache j).blockno = some home → (st₁.cache j).holder = none := by
    intro j occupied
    have elsewhere : j ≠ lbuf := by
      rintro rfl
      rw [got.blockno] at occupied
      exact different (Option.some.inj occupied)
    rw [got.others j elsewhere]
    exact free j
  have recyclable : (st₁.cache victim').recyclable = true := by
    rw [got.others victim' other]
    exact recyclable_of_free (free victim') (rep.clean_slot clean victim')
  obtain ⟨dbuf, st₂, two⟩ := bread_succeeds (p := p) homeInside unheld recyclable
  exact ⟨0, victim', _, Outcome.bind_eq_done.mpr
    ⟨_, one, Outcome.bind_eq_done.mpr ⟨_, two, rfl⟩⟩⟩

theorem writeHead_completes (lh : List Nat) (rep : Represents st content) (free : st.Free)
    (clean : ∀ b, ¬st.IsDirty b) (inside : start < fssize) :
    ∃ st', writeHead st p start lh 0 = .done st' := by
  obtain ⟨i, st₁, one⟩ := bread_succeeds (p := p) inside (fun j _ => free j)
    (recyclable_of_free (free 0) (rep.clean_slot clean 0))
  exact ⟨_, Outcome.bind_eq_done.mpr ⟨_, one, rfl⟩⟩

theorem readHead_completes (rep : Represents st content) (free : st.Free)
    (clean : ∀ b, ¬st.IsDirty b) (inside : start < fssize) :
    ∃ lh st', readHead st p start 0 = .done (lh, st') := by
  obtain ⟨i, st₁, one⟩ := bread_succeeds (p := p) inside (fun j _ => free j)
    (recyclable_of_free (free 0) (rep.clean_slot clean 0))
  exact ⟨_, _, Outcome.bind_eq_done.mpr ⟨_, one, rfl⟩⟩

end Bodies

end Xv6.Log
