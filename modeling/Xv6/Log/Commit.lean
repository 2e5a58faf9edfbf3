import Xv6.Lib.RedoLog
import Xv6.Log.Model

/-!
What the disk holds at every step of a commit.

Owns: `Holding`, the relation between the store, `log.lh`, the contents that the
operations have produced and the contents that are committed, at every point of `commit`;
one lemma for each step that keeps it; and what it says about a crash.

Does not own: which process takes the step (`Xv6.Log.Invariant`), what recovery does
(`Xv6.Log.Recovery`).
-/

namespace Xv6.Log

open Function (update update_self update_of_ne update_eq_self)

open Xv6.Bio

/-- Home blocks as the operations have left them; the log area as it is on the disk. -/
def contentOf (layout : Layout) (disk current : Nat → Block) : Nat → Block :=
  fun b => if layout.Home b then current b else disk b

/-! ## The points of a commit -/

/-- The blocks that are dirty in the cache. -/
def pending (lh : List Nat) : Option CommitPc → List Nat
  | none => lh
  | some (.writeLog _) => lh
  | some .writeHead => lh
  | some (.install tail) => lh.drop tail
  | some .clear => []
  | some .finish => []

/-- The blocks that the header on the disk names. -/
def onDisk (lh : List Nat) : Option CommitPc → List Nat
  | some (.install _) => lh
  | some .clear => lh
  | _ => []

/-- How many blocks have been copied to the log. -/
def copied (lh : List Nat) : Option CommitPc → Nat
  | none => 0
  | some (.writeLog tail) => tail
  | some .writeHead => lh.length
  | some (.install _) => lh.length
  | some .clear => lh.length
  | some .finish => 0

/-- The header of this group has been written. -/
def pastHead : Option CommitPc → Bool
  | some (.install _) => true
  | some .clear => true
  | some .finish => true
  | _ => false

/-- `commit` runs on a non-empty log. -/
def Busy (lh : List Nat) : Option CommitPc → Prop
  | none => True
  | some .finish => lh = []
  | some _ => lh ≠ []

/-- The store at point `at_` of a commit: `current` is what the operations have produced,
`committed` what a crash now has to leave. -/
structure Holding (layout : Layout) (st : Store) (lh : List Nat) (current committed : Nat → Block)
    (at_ : Option CommitPc) : Prop where
  rep : Represents st (contentOf layout st.disk current)
  home : ∀ b ∈ lh, layout.Home b
  nodup : lh.Nodup
  busy : Busy lh at_
  dirty : ∀ b, st.IsDirty b ↔ b ∈ pending lh at_
  header : headBlocks (st.disk layout.start) = onDisk lh at_
  copies : ∀ i b, lh[i]? = some b → i < copied lh at_ →
    st.disk (layout.start + i + 1) = current b
  room : 0 < copied lh at_ → lh.length < nbuf
  durable : ∀ b, layout.Home b → b ∉ onDisk lh at_ → st.disk b = committed b
  agreed : pastHead at_ = true → ∀ b, layout.Home b → current b = committed b

/-! ## The log area -/

variable {layout : Layout} {disk current : Nat → Block} {b : Nat} {value : Block}

theorem Layout.size_nbuf (layout : Layout) : layout.size = nbuf :=
  layout.size_eq

theorem Layout.start_notHome (layout : Layout) : ¬layout.Home layout.start := by
  have size := layout.size_nbuf
  have buffers : 0 < nbuf := Nat.pos_of_neZero nbuf
  rintro ⟨_, below | above⟩ <;> omega

theorem Layout.logBlock_notHome (layout : Layout) (tail : Nat) (inside : tail + 1 < nbuf) :
    ¬layout.Home (layout.start + tail + 1) := by
  have size := layout.size_nbuf
  rintro ⟨_, below | above⟩ <;> omega

theorem contentOf_home (home : layout.Home b) : contentOf layout disk current b = current b :=
  if_pos home

theorem contentOf_log (outside : ¬layout.Home b) : contentOf layout disk current b = disk b :=
  if_neg outside

theorem contentOf_update_log (outside : ¬layout.Home b) :
    update (contentOf layout disk current) b value =
      contentOf layout (update disk b value) current := by
  funext c
  by_cases same : c = b
  · rw [same, update_self, contentOf_log outside, update_self]
  · simp [update_of_ne same, contentOf]

theorem contentOf_update_home (home : layout.Home b) :
    update (contentOf layout disk current) b value =
      contentOf layout disk (update current b value) := by
  funext c
  by_cases same : c = b
  · rw [same, update_self, contentOf_home home, update_self]
  · simp [update_of_ne same, contentOf]

theorem contentOf_congr {disk' current' : Nat → Block}
    (sameHome : ∀ b, layout.Home b → current b = current' b)
    (sameLog : ∀ b, ¬layout.Home b → disk b = disk' b) :
    contentOf layout disk current = contentOf layout disk' current' := by
  funext b
  by_cases home : layout.Home b
  · rw [contentOf_home home, contentOf_home home, sameHome b home]
  · rw [contentOf_log home, contentOf_log home, sameLog b home]

/-! ## Operations -/

variable {st st' : Store} {lh : List Nat} {committed : Nat → Block} {at_ : Option CommitPc}
  {p : Pid} {i : Fin nbuf}

/-- Nobody holds a changed block that is not on record. -/
theorem not_isAltered {content : Nat → Block} (rep : Represents st content)
    (settled : ∀ p, ¬st.AlteredBy p) (b : Nat) : ¬st.IsAltered b := by
  rintro ⟨i, _, altered⟩
  obtain ⟨p, holder⟩ := Option.ne_none_iff_exists'.mp (rep.held i altered)
  exact settled p ⟨i, holder, altered⟩

theorem Holding.synced (inv : Holding layout st lh current committed at_)
    (settled : ∀ p, ¬st.AlteredBy p) (home : layout.Home b) (clean : b ∉ pending lh at_) :
    st.disk b = current b := by
  have synced := inv.rep.synced b (by rwa [inv.dirty]) (not_isAltered inv.rep settled b)
  rwa [contentOf_home home] at synced

/-- A step that changes no content, no flag and no block of the disk. -/
theorem Holding.of_same (inv : Holding layout st lh current committed at_)
    (rep : Represents st' (contentOf layout st.disk current)) (disk : st'.disk = st.disk)
    (dirty : ∀ b, st'.IsDirty b ↔ st.IsDirty b) :
    Holding layout st' lh current committed at_ :=
  { inv with
    rep := by rwa [disk]
    dirty := fun b => (dirty b).trans (inv.dirty b)
    header := by rw [disk]; exact inv.header
    copies := by rw [disk]; exact inv.copies
    durable := by rw [disk]; exact inv.durable }

theorem Holding.bread {victim : Fin nbuf} (inv : Holding layout st lh current committed at_)
    (got : st.bread p b victim = .done (i, st')) :
    Holding layout st' lh current committed at_ :=
  have fetched := inv.rep.bread got
  inv.of_same fetched.rep fetched.disk fetched.dirty

theorem Holding.brelse (inv : Holding layout st lh current committed at_)
    (blockno : (st.cache i).blockno = some b) (unaltered : (st.cache i).altered = false) :
    Holding layout (st.brelse i) lh current committed at_ :=
  inv.of_same (inv.rep.brelse blockno unaltered) rfl fun _ => brelse_isDirty inv.rep blockno

/-- An operation changes a block. No group is being committed then. -/
theorem Holding.modify (inv : Holding layout st lh current committed none)
    (change : Block → Block) (home : layout.Home b) (blockno : (st.cache i).blockno = some b)
    (held : (st.cache i).holder ≠ none) :
    Holding layout (st.modify i change) lh (update current b (change (current b)))
      committed none :=
  { inv with
    rep := by
      have rep := inv.rep.modify change blockno held
      rwa [contentOf_home home, contentOf_update_home home] at rep
    busy := trivial
    dirty := fun c => (modify_isDirty inv.rep change blockno).trans (inv.dirty c)
    copies := fun _ _ _ inside => absurd inside (Nat.not_lt_zero _)
    room := fun inside => absurd inside (Nat.lt_irrefl _)
    agreed := by simp [pastHead] }

theorem Holding.logAppend (inv : Holding layout st lh current committed none)
    {lh' : List Nat} (nodup : lh'.Nodup) (recorded : ∀ c, c ∈ lh' ↔ c = b ∨ c ∈ lh)
    (home : layout.Home b) (blockno : (st.cache i).blockno = some b) :
    Holding layout (st.markDirty i) lh' current committed none :=
  { inv with
    rep := inv.rep.markDirty blockno
    home := by
      intro c member
      rcases (recorded c).mp member with rfl | member
      · exact home
      · exact inv.home c member
    nodup := nodup
    busy := trivial
    dirty := by
      intro c
      rw [markDirty_isDirty inv.rep blockno, inv.dirty]
      exact (recorded c).symm
    copies := fun _ _ _ inside => absurd inside (Nat.not_lt_zero _)
    room := fun inside => absurd inside (Nat.lt_irrefl _)
    agreed := by simp [pastHead] }

/-- The last operation of a group ends. -/
theorem Holding.start (inv : Holding layout st lh current committed none) (busy : lh ≠ []) :
    Holding layout st lh current committed (some (.writeLog 0)) :=
  { inv with
    busy := busy
    agreed := by simp [pastHead] }

/-- The last operation of a group that has logged nothing ends. -/
theorem Holding.startEmpty (inv : Holding layout st [] current committed none)
    (settled : ∀ p, ¬st.AlteredBy p) :
    Holding layout st [] current committed (some .finish) :=
  { inv with
    busy := rfl
    agreed := by
      intro _ b home
      rw [← inv.synced settled home (by simp [pending])]
      exact inv.durable b home (by simp [onDisk]) }

/-! ## The steps of `commit` -/

variable {tail : Nat} {victim victim' : Fin nbuf}

/-- Each copy goes to the log area. With as many blocks as buffers the first copy finds no
buffer, so there is a log block for each of them. -/
theorem Holding.writeLog_room
    (inv : Holding layout st lh current committed (some (.writeLog tail)))
    (done : writeLogBody st p (layout.start + tail + 1) b victim victim' = .done st') :
    lh.length < nbuf := by
  by_cases first : tail = 0
  · subst first
    have outside : ¬layout.Home (layout.start + 0 + 1) := layout.logBlock_notHome 0 (by decide)
    refine writeLogBody_room inv.rep done (fun c member => ?_) inv.nodup ?_
    · rw [inv.dirty]
      exact member
    · exact fun member => outside (inv.home _ member)
  · exact inv.room (Nat.pos_of_ne_zero first)

theorem Holding.writeLog (inv : Holding layout st lh current committed (some (.writeLog tail)))
    (entry : lh[tail]? = some b)
    (done : writeLogBody st p (layout.start + tail + 1) b victim victim' = .done st') :
    Holding layout st' lh current committed (some (.writeLog (tail + 1))) := by
  obtain ⟨inside, _⟩ := List.getElem?_eq_some_iff.mp entry
  have room := inv.writeLog_room done
  have outside : ¬layout.Home (layout.start + tail + 1) := layout.logBlock_notHome tail (by omega)
  have written := writeLogBody_written inv.rep done
  rw [contentOf_home (inv.home b (List.mem_of_getElem? entry))] at written
  have elsewhere : ∀ c, c ≠ layout.start + tail + 1 → st'.disk c = st.disk c := by
    intro c different
    rw [written.disk, update_of_ne different]
  have homeElsewhere : ∀ c, layout.Home c → c ≠ layout.start + tail + 1 := by
    rintro c home rfl
    exact outside home
  exact
    { inv with
      rep := by
        rw [written.disk, ← contentOf_update_log outside]
        exact written.rep
      dirty := by
        intro c
        rw [written.dirty, inv.dirty]
        exact and_iff_right_of_imp fun member => homeElsewhere c (inv.home c member)
      header := by
        rw [elsewhere _ (by omega)]
        exact inv.header
      copies := by
        intro i c found before
        by_cases last : i = tail
        · rw [last, entry] at found
          rw [last, written.disk, update_self, Option.some.inj found]
        · have before : i < tail + 1 := before
          rw [elsewhere _ (by omega)]
          exact inv.copies i c found (show i < tail by omega)
      room := fun _ => room
      durable := by
        intro c home absent
        rw [elsewhere c (homeElsewhere c home)]
        exact inv.durable c home absent
      agreed := by simp [pastHead] }

theorem Holding.logWritten
    (inv : Holding layout st lh current committed (some (.writeLog tail)))
    (past : lh.length ≤ tail) : Holding layout st lh current committed (some .writeHead) :=
  { inv with
    copies := fun i b found inside => inv.copies i b found (lt_of_lt_of_le inside past)
    room := fun inside => inv.room (lt_of_lt_of_le inside past)
    agreed := by simp [pastHead] }

/-- The header is written: from here on the group is committed. -/
theorem Holding.writeHead (inv : Holding layout st lh current committed (some .writeHead))
    (settled : ∀ p, ¬st.AlteredBy p)
    (done : writeHead st p layout.start lh victim = .done st') :
    Holding layout st' lh current current (some (.install 0)) := by
  have outside := layout.start_notHome
  have written := writeHead_written inv.rep done
  have elsewhere : ∀ c, c ≠ layout.start → st'.disk c = st.disk c := by
    intro c different
    rw [written.disk, update_of_ne different]
  have homeElsewhere : ∀ c, layout.Home c → c ≠ layout.start := by
    rintro c home rfl
    exact outside home
  have room : lh.length < nbuf := inv.room (List.length_pos_iff.mpr inv.busy)
  exact
    { inv with
      rep := by
        rw [written.disk, ← contentOf_update_log outside]
        exact written.rep
      dirty := by
        intro c
        rw [written.dirty, inv.dirty]
        exact and_iff_right_of_imp fun member => homeElsewhere c (inv.home c member)
      header := by
        rw [written.disk, update_self]
        apply headBlocks_fillHead
        · have buffers : nbuf = 30 := rfl
          omega
        · intro b member
          have bound := (inv.home b member).1
          have blocks : fssize = 1000 := rfl
          omega
      copies := by
        intro i b found inside
        rw [elsewhere _ (by omega)]
        exact inv.copies i b found inside
      room := fun _ => room
      durable := by
        intro c home absent
        rw [elsewhere c (homeElsewhere c home)]
        exact inv.synced settled home absent
      agreed := fun _ _ _ => rfl }

theorem Holding.install (inv : Holding layout st lh current committed (some (.install tail)))
    (entry : lh[tail]? = some b)
    (done : installBody st p (layout.start + tail + 1) b victim victim' = .done st') :
    Holding layout st' lh current committed (some (.install (tail + 1))) := by
  obtain ⟨inside, same⟩ := List.getElem?_eq_some_iff.mp entry
  have member : b ∈ lh := List.mem_of_getElem? entry
  have home := inv.home b member
  have room : lh.length < nbuf := inv.room (List.length_pos_iff.mpr inv.busy)
  have written := installBody_written inv.rep done
  -- The log block has the content that the operations produced.
  rw [contentOf_log (layout.logBlock_notHome tail (by omega)),
    inv.copies tail b entry inside] at written
  have elsewhere : ∀ c, ¬layout.Home c → st'.disk c = st.disk c := by
    intro c outside
    rw [written.disk, update_of_ne]
    rintro rfl
    exact outside home
  exact
    { inv with
      rep := by
        have rep := written.rep
        rw [contentOf_update_home home, update_eq_self] at rep
        rwa [contentOf_congr (fun _ _ => rfl) fun c outside => elsewhere c outside]
      dirty := by
        intro c
        have split : lh.drop tail = b :: lh.drop (tail + 1) := by
          rw [List.drop_eq_getElem_cons inside, same]
        have nodup : (b :: lh.drop (tail + 1)).Nodup := by
          rw [← split]
          exact inv.nodup.drop
        rw [written.dirty, inv.dirty, pending, pending, split, List.mem_cons]
        constructor
        · rintro ⟨different, rfl | later⟩
          · exact absurd rfl different
          · exact later
        · intro later
          refine ⟨?_, Or.inr later⟩
          rintro rfl
          exact (List.nodup_cons.mp nodup).1 later
      header := by
        rw [elsewhere _ layout.start_notHome]
        exact inv.header
      copies := by
        intro i c found before
        have before : i < lh.length := before
        rw [elsewhere _ (layout.logBlock_notHome i (by omega))]
        exact inv.copies i c found before
      room := fun _ => room
      durable := by
        intro c homeOther absent
        rw [written.disk, update_of_ne]
        · exact inv.durable c homeOther absent
        · rintro rfl
          exact absent member }

theorem Holding.installed
    (inv : Holding layout st lh current committed (some (.install tail)))
    (past : lh.length ≤ tail) : Holding layout st lh current committed (some .clear) :=
  { inv with
    dirty := by
      intro b
      rw [inv.dirty, pending, pending, List.drop_of_length_le past] }

theorem Holding.clear (inv : Holding layout st lh current committed (some .clear))
    (settled : ∀ p, ¬st.AlteredBy p)
    (done : Log.writeHead st p layout.start [] victim = .done st') :
    Holding layout st' [] current committed (some .finish) := by
  have outside := layout.start_notHome
  have written := writeHead_written inv.rep done
  exact
    { rep := by
        rw [written.disk, ← contentOf_update_log outside]
        exact written.rep
      home := by simp
      nodup := List.nodup_nil
      busy := rfl
      dirty := by
        intro c
        rw [written.dirty, inv.dirty]
        simp [pending]
      header := by
        rw [written.disk, update_self]
        exact headBlocks_clear _
      copies := by simp
      room := by simp [copied]
      durable := by
        intro c home _
        rw [written.disk, update_of_ne, inv.synced settled home (by simp [pending])]
        · exact inv.agreed rfl c home
        · rintro rfl
          exact outside home
      agreed := inv.agreed }

/-- The next group starts from what is committed. -/
theorem Holding.finish (inv : Holding layout st lh current committed (some .finish)) :
    Holding layout st lh committed committed none :=
  { inv with
    rep := by
      rw [← contentOf_congr (inv.agreed rfl) fun _ _ => rfl]
      exact inv.rep
    busy := trivial
    dirty := by
      intro b
      have empty : lh = [] := inv.busy
      rw [inv.dirty, empty]
      rfl
    copies := fun _ _ _ inside => absurd inside (Nat.not_lt_zero _)
    room := fun inside => absurd inside (Nat.lt_irrefl _)
    agreed := by simp [pastHead] }

/-! ## A crash -/

/-- What the log on the disk would install. -/
def logEntries (layout : Layout) (disk : Nat → Block) : List (Nat × Block) :=
  (headBlocks (disk layout.start)).zipIdx.map fun (b, i) => (b, disk (layout.start + i + 1))

/-- Installing the log of this disk leaves `committed` in every home block. -/
structure Recoverable (layout : Layout) (disk committed : Nat → Block) : Prop where
  home : ∀ b ∈ headBlocks (disk layout.start), layout.Home b
  nodup : (headBlocks (disk layout.start)).Nodup
  room : (headBlocks (disk layout.start)).length < nbuf
  content : ∀ b, layout.Home b →
    RedoLog.install disk (logEntries layout disk) b = committed b

theorem logEntries_fst (layout : Layout) (disk : Nat → Block) :
    (logEntries layout disk).map Prod.fst = headBlocks (disk layout.start) := by
  simp [logEntries, List.map_map, Function.comp_def]

theorem mem_logEntries {tail : Nat}
    (entry : (headBlocks (disk layout.start))[tail]? = some b) :
    (b, disk (layout.start + tail + 1)) ∈ logEntries layout disk := by
  apply List.mem_map.mpr
  exact ⟨(b, tail), List.mem_zipIdx_iff_getElem?.mpr entry, rfl⟩

/-- The header names no block, or all blocks of a group that is committed and copied. -/
theorem onDisk_cases (lh : List Nat) (at_ : Option CommitPc) :
    onDisk lh at_ = [] ∨
      onDisk lh at_ = lh ∧ pastHead at_ = true ∧ copied lh at_ = lh.length := by
  cases at_ with
  | none => exact Or.inl rfl
  | some at_ =>
    cases at_ with
    | writeLog | writeHead | finish => exact Or.inl rfl
    | install | clear => exact Or.inr ⟨rfl, rfl, rfl⟩

/-- At every point of a run the disk is recoverable. -/
theorem Holding.recoverable (inv : Holding layout st lh current committed at_) :
    Recoverable layout st.disk committed := by
  have outside : ∀ b, layout.Home b → b ∉ onDisk lh at_ →
      RedoLog.install st.disk (logEntries layout st.disk) b = committed b := by
    intro b home absent
    rw [RedoLog.install_of_notMem]
    · exact inv.durable b home absent
    · rwa [logEntries_fst, inv.header]
  rcases onDisk_cases lh at_ with empty | ⟨all, past, whole⟩
  · have header : headBlocks (st.disk layout.start) = [] := inv.header.trans empty
    rw [empty] at outside
    exact
      { home := by simp [header]
        nodup := by simp [header]
        room := by
          rw [header]
          exact Nat.pos_of_neZero nbuf
        content := fun b home => outside b home (by simp) }
  · have header : headBlocks (st.disk layout.start) = lh := inv.header.trans all
    exact
      { home := by
          rw [header]
          exact inv.home
        nodup := by
          rw [header]
          exact inv.nodup
        room := by
          rw [header]
          by_cases empty : lh = []
          · rw [empty]
            exact Nat.pos_of_neZero nbuf
          · exact inv.room (by rw [whole]; exact List.length_pos_iff.mpr empty)
        content := by
          intro b home
          by_cases member : b ∈ lh
          · obtain ⟨tail, inside, same⟩ := List.getElem_of_mem member
            have entry : lh[tail]? = some b := List.getElem?_eq_some_iff.mpr ⟨inside, same⟩
            have logged : (b, st.disk (layout.start + tail + 1)) ∈ logEntries layout st.disk :=
              mem_logEntries (by rw [header]; exact entry)
            have distinct : ((logEntries layout st.disk).map Prod.fst).Nodup := by
              rw [logEntries_fst, header]
              exact inv.nodup
            rw [RedoLog.install_of_mem distinct logged,
              inv.copies tail b entry (by rw [whole]; exact inside)]
            exact inv.agreed past b home
          · exact outside b home (by rwa [all]) }

end Xv6.Log
