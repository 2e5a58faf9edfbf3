import Mathlib

/-!
Circular search with a rotating start.

Owns: the search that starts at a pointer, goes once round a table and stops at
the first accepted index; the distance of an index ahead of the pointer; and
the bounded-bypass argument for a pointer that is moved just past each index
found.

Does not own: what the table holds or how it changes between two searches. The
bypass lemmas assume only that the awaited index is accepted at every search.
-/

namespace CircularScan

variable {size start base pointer : Nat} [NeZero size] {index awaited : Fin size}
  {accept : Fin size → Bool} {found : List (Fin size)}

/-- The index `offset` places after `start`, going round. -/
def place (start offset : Nat) : Fin size :=
  ⟨(start + offset) % size, Nat.mod_lt _ (Nat.pos_of_neZero size)⟩

/-- The first accepted index met from `start` on, once round the table. -/
def scan (accept : Fin size → Bool) (start : Nat) : Option (Fin size) :=
  ((List.range size).map (place start)).find? accept

/-- How many places `index` lies ahead of `start`, going round. -/
def distance (start : Nat) (index : Fin size) : Nat :=
  (index.val + (size - start % size)) % size

theorem distance_lt (start : Nat) (index : Fin size) : distance start index < size :=
  Nat.mod_lt _ (Nat.pos_of_neZero size)

theorem place_distance (start : Nat) (index : Fin size) :
    place start (distance start index) = index := by
  have below := Nat.mod_lt start (Nat.pos_of_neZero size)
  apply Fin.ext
  simp only [place, distance]
  have whole : start % size + (index.val + (size - start % size)) = index.val + size := by omega
  calc
    (start + (index.val + (size - start % size)) % size) % size =
        (start % size + (index.val + (size - start % size))) % size := by
      rw [Nat.add_mod_mod, Nat.mod_add_mod]
    _ = index.val := by
      rw [whole, Nat.add_mod_right, Nat.mod_eq_of_lt index.isLt]

theorem distance_place {offset : Nat} (below : offset < size) :
    distance start (place start offset : Fin size) = offset := by
  have startBelow := Nat.mod_lt start (Nat.pos_of_neZero size)
  simp only [distance, place]
  rw [Nat.add_mod start offset, Nat.mod_eq_of_lt below]
  by_cases stays : start % size + offset < size
  · rw [Nat.mod_eq_of_lt stays]
    have whole : start % size + offset + (size - start % size) = offset + size := by omega
    rw [whole, Nat.add_mod_right, Nat.mod_eq_of_lt below]
  · have reduced : (start % size + offset) % size = start % size + offset - size := by
      rw [Nat.mod_eq_sub_mod (by omega), Nat.mod_eq_of_lt (by omega)]
    rw [reduced]
    have whole : start % size + offset - size + (size - start % size) = offset := by omega
    rw [whole, Nat.mod_eq_of_lt below]

omit [NeZero size] in
theorem distance_mod (start : Nat) (index : Fin size) :
    distance (start % size) index = distance start index := by
  simp only [distance, Nat.mod_mod]

theorem distance_injective (start : Nat) :
    Function.Injective (distance start : Fin size → Nat) := by
  intro left right same
  rw [← place_distance start left, ← place_distance start right, same]

theorem place_add (start first second : Nat) :
    (place (start + first) second : Fin size) = place start (first + second) := by
  simp only [place, Nat.add_assoc]

/-- Moving the start forward shortens every distance that reaches further. -/
theorem distance_add {advance : Nat} (ahead : advance ≤ distance start index) :
    distance (start + advance) index = distance start index - advance := by
  have below := distance_lt start index
  have placed : (place (start + advance) (distance start index - advance) : Fin size) = index := by
    rw [place_add, Nat.add_sub_cancel' ahead, place_distance]
  conv_lhs => rw [← placed]
  exact distance_place (by omega)

theorem scan_none (found : scan accept start = none) (index : Fin size) : accept index = false := by
  have all := List.find?_eq_none.mp found index (by
    rw [List.mem_map]
    exact ⟨distance start index, List.mem_range.mpr (distance_lt start index),
      place_distance start index⟩)
  simpa using all

theorem scan_accepts (found : scan accept start = some index) : accept index = true :=
  List.find?_some found

/-- The search stops at the nearest accepted index. -/
theorem scan_nearest {other : Fin size} (found : scan accept start = some index)
    (accepted : accept other = true) : distance start index ≤ distance start other := by
  obtain ⟨-, earlier, later, split, skipped⟩ := List.find?_eq_some_iff_append.mp found
  by_contra nearer
  push Not at nearer
  have otherPlace : ((List.range size).map (place start : Nat → Fin size))[distance start other]? =
      some other := by
    rw [List.getElem?_map, List.getElem?_range (distance_lt start other), Option.map_some,
      place_distance]
  have indexPosition : earlier.length = distance start index := by
    have atPosition : ((List.range size).map (place start : Nat → Fin size))[earlier.length]? =
        some index := by
      rw [split, List.getElem?_append_right (le_refl _)]
      simp
    rw [List.getElem?_map, Option.map_eq_some_iff] at atPosition
    obtain ⟨offset, atOffset, placed⟩ := atPosition
    obtain ⟨inRange, rfl⟩ := List.getElem?_eq_some_iff.mp atOffset
    rw [List.getElem_range] at placed
    rw [← placed, distance_place (by simpa using inRange)]
  have member : other ∈ earlier := by
    rw [split, List.getElem?_append_left (by omega)] at otherPlace
    exact List.mem_of_getElem? otherPlace
  have rejected := skipped other member
  simp [accepted] at rejected

theorem scan_isSome (accepted : accept index = true) : ∃ found, scan accept start = some found := by
  cases searched : scan accept start with
  | none => simp [scan_none searched index] at accepted
  | some found => exact ⟨found, rfl⟩

/-! ## Bounded bypass -/

/-- The pointer has moved from `base` towards the awaited index without passing
it, and every index found on the way was met once, in order of distance. -/
structure Bypassing (base : Nat) (awaited : Fin size) (pointer : Nat)
    (found : List (Fin size)) : Prop where
  advance : ∃ moved, pointer % size = (base + moved) % size ∧
    moved ≤ distance base awaited ∧ ∀ index ∈ found, distance base index < moved
  ordered : found.Pairwise fun earlier later => distance base earlier < distance base later

omit [NeZero size] in
theorem bypassing_start (base : Nat) (awaited : Fin size) : Bypassing base awaited base [] :=
  ⟨⟨0, rfl, Nat.zero_le _, by simp⟩, List.Pairwise.nil⟩

/-- One search that finds another index moves the pointer towards the awaited
one. -/
theorem Bypassing.step (state : Bypassing base awaited pointer found)
    (accepted : accept awaited = true) (selected : scan accept pointer = some index)
    (different : index ≠ awaited) :
    Bypassing base awaited ((index.val + 1) % size) (found ++ [index]) := by
  obtain ⟨⟨moved, same, bound, before⟩, ordered⟩ := state
  have shifted : ∀ other : Fin size, distance pointer other = distance (base + moved) other := by
    intro other
    rw [← distance_mod pointer, same, distance_mod]
  have awaitedAhead := distance_add bound
  have nearest := scan_nearest selected accepted
  rw [shifted, shifted, awaitedAhead] at nearest
  have awaitedBelow := distance_lt base awaited
  -- Measured from `base`, the index found lies beyond everything found before.
  have indexPlace : (place base (moved + distance (base + moved) index) : Fin size) = index := by
    rw [← place_add, place_distance]
  have indexDistance : distance base index = moved + distance (base + moved) index := by
    conv_lhs => rw [← indexPlace]
    exact distance_place (by omega)
  have notReached : distance base index ≠ distance base awaited :=
    fun equal => different (distance_injective base equal)
  refine ⟨⟨distance base index + 1, ?_, by omega, ?_⟩, ?_⟩
  · have value : index.val = (base + distance base index) % size := by
      conv_lhs => rw [← place_distance base index]
      rfl
    rw [value, Nat.mod_mod, ← Nat.add_assoc, Nat.mod_add_mod]
  · intro other member
    rcases List.mem_append.mp member with earlier | last
    · have := before other earlier
      omega
    · rw [List.mem_singleton.mp last]
      omega
  · rw [List.pairwise_append]
    refine ⟨ordered, List.pairwise_singleton _ _, ?_⟩
    intro other member last isLast
    rw [List.mem_singleton.mp isLast]
    have := before other member
    omega

/-- A search that finds another index brings the pointer closer to one it accepts. -/
theorem distance_after_lt (accepted : accept awaited = true)
    (selected : scan accept pointer = some index) (different : index ≠ awaited) :
    distance ((index.val + 1) % size) awaited < distance pointer awaited := by
  obtain ⟨⟨moved, same, bound, before⟩, -⟩ :=
    (bypassing_start pointer awaited).step accepted selected different
  have passed := before index (by simp)
  rw [← distance_mod ((index.val + 1) % size), same, distance_mod, distance_add bound]
  omega

omit [NeZero size] in
theorem Bypassing.nodup (state : Bypassing base awaited pointer found) : found.Nodup := by
  refine state.ordered.imp ?_
  intro left right less equal
  rw [equal] at less
  exact lt_irrefl _ less

omit [NeZero size] in
theorem Bypassing.awaited_notMem (state : Bypassing base awaited pointer found) :
    awaited ∉ found := by
  obtain ⟨⟨moved, -, bound, before⟩, -⟩ := state
  intro member
  have := before awaited member
  omega

omit [NeZero size] in
/-- At most every other index is found before the awaited one. -/
theorem Bypassing.length_le (state : Bypassing base awaited pointer found) :
    found.length ≤ size - 1 := by
  have distinct : (awaited :: found).Nodup :=
    List.nodup_cons.mpr ⟨state.awaited_notMem, state.nodup⟩
  have bound := List.Nodup.length_le_card distinct
  simp only [List.length_cons, Fintype.card_fin] at bound
  omega

end CircularScan
