import Mathlib

/-!
Ring buffers with free-running counters.

Owns: a table of `size` cells read at one counter and written at another, both kept modulo
`modulus`; how many items lie between them, the list of these items, and what writing and
reading one item does to it.

Does not own: who reads and writes.
-/

namespace RingBuffer

variable {Item : Type*} {size modulus : Nat} [NeZero size]

/-- The cell a counter points to. -/
def cell (counter : Nat) : Fin size :=
  ⟨counter % size, Nat.mod_lt _ (Nat.pos_of_neZero size)⟩

/-- How far the write counter is ahead of the read counter. -/
def count (modulus nread nwrite : Nat) : Nat :=
  (nwrite + (modulus - nread)) % modulus

/-- The value of a counter before its last step. -/
def previous (modulus counter : Nat) : Nat :=
  if counter = 0 then modulus - 1 else counter - 1

/-- The items written and not yet read, oldest first. -/
def contents (modulus : Nat) (data : Fin size → Item) (nread nwrite : Nat) : List Item :=
  (List.range (count modulus nread nwrite)).map fun k => data (cell (nread + k))

section Counters

variable {nread nwrite : Nat} (readBound : nread < modulus) (writeBound : nwrite < modulus)

include readBound writeBound

theorem count_eq : count modulus nread nwrite =
    if nread ≤ nwrite then nwrite - nread else nwrite + modulus - nread := by
  unfold count
  split
  · have shifted : nwrite + (modulus - nread) = (nwrite - nread) + modulus := by omega
    rw [shifted, Nat.add_mod_right, Nat.mod_eq_of_lt (by omega)]
  · rw [Nat.mod_eq_of_lt (by omega)]
    omega

theorem empty_iff : nread = nwrite ↔ count modulus nread nwrite = 0 := by
  rw [count_eq readBound writeBound]
  split <;> omega

omit [NeZero size] in
theorem full_iff (fits : count modulus nread nwrite ≤ size) (room : size < modulus) :
    nwrite = (nread + size) % modulus ↔ count modulus nread nwrite = size := by
  rw [count_eq readBound writeBound] at fits ⊢
  by_cases wraps : nread + size < modulus
  · rw [Nat.mod_eq_of_lt wraps]
    split at fits <;> split <;> omega
  · have reduced : (nread + size) % modulus = nread + size - modulus := by
      rw [Nat.mod_eq_sub_mod (by omega), Nat.mod_eq_of_lt (by omega)]
    rw [reduced]
    split at fits <;> split <;> omega

theorem count_write (room : count modulus nread nwrite + 1 < modulus) :
    count modulus nread ((nwrite + 1) % modulus) = count modulus nread nwrite + 1 := by
  have nextBound : (nwrite + 1) % modulus < modulus := Nat.mod_lt _ (by omega)
  rw [count_eq readBound writeBound] at room
  rw [count_eq readBound nextBound, count_eq readBound writeBound]
  by_cases wraps : nwrite + 1 < modulus
  · rw [Nat.mod_eq_of_lt wraps]
    split at room <;> split <;> omega
  · have last : nwrite + 1 = modulus := by omega
    rw [last, Nat.mod_self]
    split at room <;> split <;> omega

theorem count_read (some_ : count modulus nread nwrite ≠ 0) :
    count modulus ((nread + 1) % modulus) nwrite + 1 = count modulus nread nwrite := by
  have nextBound : (nread + 1) % modulus < modulus := Nat.mod_lt _ (by omega)
  rw [count_eq readBound writeBound] at some_
  rw [count_eq nextBound writeBound, count_eq readBound writeBound]
  by_cases wraps : nread + 1 < modulus
  · rw [Nat.mod_eq_of_lt wraps]
    split at some_ <;> split <;> omega
  · have last : nread + 1 = modulus := by omega
    rw [last, Nat.mod_self]
    split at some_ <;> split <;> omega

section Contents

variable {data : Fin size → Item} (divides : size ∣ modulus)

include divides

omit readBound writeBound in
/-- The counters may be reduced before they are used as indices. -/
theorem cell_mod (counter : Nat) : (cell (counter % modulus) : Fin size) = cell counter := by
  apply Fin.ext
  exact Nat.mod_mod_of_dvd counter divides

omit writeBound in
theorem cell_count :
    (cell (nread + count modulus nread nwrite) : Fin size) = cell nwrite := by
  have shifted : nread + (nwrite + (modulus - nread)) = nwrite + modulus := by omega
  have reduced : (nread + count modulus nread nwrite) % modulus = nwrite % modulus := by
    unfold count
    rw [Nat.add_mod_mod, shifted, Nat.add_mod_right]
  rw [← cell_mod divides, reduced, cell_mod divides]

omit writeBound in
/-- No cell that holds an item is the one written next. -/
theorem cell_ne {k : Nat} (room : count modulus nread nwrite < size)
    (inside : k < count modulus nread nwrite) :
    (cell (nread + k) : Fin size) ≠ cell nwrite := by
  intro same
  have ahead : (cell (nread + count modulus nread nwrite) : Fin size) = cell nwrite :=
    cell_count readBound divides
  rw [← ahead] at same
  have equal : (nread + k) % size = (nread + count modulus nread nwrite) % size :=
    congrArg Fin.val same
  have distance : (count modulus nread nwrite - k) % size = 0 := by
    have divided := Nat.sub_mod_eq_zero_of_mod_eq equal.symm
    have shifted : nread + count modulus nread nwrite - (nread + k) =
        count modulus nread nwrite - k := by omega
    rwa [shifted] at divided
  rw [Nat.mod_eq_of_lt (by omega)] at distance
  omega

theorem contents_write (room : count modulus nread nwrite < size) (fits : size < modulus)
    (item : Item) :
    contents modulus (Function.update data (cell nwrite) item) nread ((nwrite + 1) % modulus) =
      contents modulus data nread nwrite ++ [item] := by
  unfold contents
  rw [count_write readBound writeBound (by omega), List.range_succ, List.map_append,
    List.map_singleton, cell_count readBound divides, Function.update_self]
  congr 1
  apply List.map_congr_left
  intro k member
  rw [List.mem_range] at member
  exact Function.update_of_ne (cell_ne readBound divides room member) ..

theorem contents_read (some_ : count modulus nread nwrite ≠ 0) :
    contents modulus data nread nwrite =
      data (cell nread) :: contents modulus data ((nread + 1) % modulus) nwrite := by
  unfold contents
  rw [← count_read readBound writeBound some_, List.range_succ_eq_map, List.map_cons,
    List.map_map]
  congr 1
  apply List.map_congr_left
  intro k _
  have shifted : (cell ((nread + 1) % modulus + k) : Fin size) = cell (nread + (k + 1)) := by
    rw [← cell_mod divides, Nat.mod_add_mod, cell_mod divides]
    congr 1
    omega
  exact congrArg data shifted.symm

end Contents

end Counters

section Between

variable {nread middle nwrite : Nat} (readBound : nread < modulus) (middleBound : middle < modulus)
  (writeBound : nwrite < modulus)

include readBound middleBound writeBound

/-- The counter in the middle splits the distance. -/
theorem count_split (fits : count modulus nread middle + count modulus middle nwrite < modulus) :
    count modulus nread nwrite = count modulus nread middle + count modulus middle nwrite := by
  rw [count_eq readBound middleBound, count_eq middleBound writeBound] at fits ⊢
  rw [count_eq readBound writeBound]
  split at fits <;> split at fits <;> split <;> omega

/-- The distance from the middle, from the distances to the start. -/
theorem count_of_add {extra : Nat}
    (farther : count modulus nread nwrite = count modulus nread middle + extra) :
    count modulus middle nwrite = extra := by
  rw [count_eq readBound middleBound, count_eq readBound writeBound] at farther
  rw [count_eq middleBound writeBound]
  split at farther <;> split at farther <;> split <;> omega

theorem contents_split {data : Fin size → Item} (divides : size ∣ modulus)
    (fits : count modulus nread middle + count modulus middle nwrite < modulus) :
    contents modulus data nread nwrite =
      contents modulus data nread middle ++ contents modulus data middle nwrite := by
  unfold contents
  rw [count_split readBound middleBound writeBound fits, List.range_add, List.map_append,
    List.map_map]
  congr 1
  apply List.map_congr_left
  intro k _
  have reached : (cell (nread + count modulus nread middle) : Fin size) = cell middle :=
    cell_count readBound divides
  have shifted : (cell (middle + k) : Fin size) =
      cell (nread + count modulus nread middle + k) := by
    apply Fin.ext
    change (middle + k) % size = (nread + count modulus nread middle + k) % size
    rw [Nat.add_mod, ← show (nread + count modulus nread middle) % size = middle % size from
      congrArg Fin.val reached, ← Nat.add_mod]
  rw [Function.comp_apply, shifted, Nat.add_assoc]

omit middleBound writeBound in
/-- A write at the end leaves the items before the middle. -/
theorem contents_update {data : Fin size → Item} (divides : size ∣ modulus)
    (within : count modulus nread middle ≤ count modulus nread nwrite)
    (room : count modulus nread nwrite < size) (item : Item) :
    contents modulus (Function.update data (cell nwrite) item) nread middle =
      contents modulus data nread middle := by
  apply List.map_congr_left
  intro k member
  rw [List.mem_range] at member
  exact Function.update_of_ne (cell_ne readBound divides room (Nat.lt_of_lt_of_le member within)) ..

end Between

theorem previous_lt {counter : Nat} (bound : counter < modulus) : previous modulus counter < modulus := by
  unfold previous
  split <;> omega

section Unwrite

variable {nread nwrite : Nat} (readBound : nread < modulus) (writeBound : nwrite < modulus)
  (some_ : count modulus nread nwrite ≠ 0)

include readBound writeBound some_

/-- The last item is taken back. -/
theorem count_unwrite :
    count modulus nread (previous modulus nwrite) + 1 = count modulus nread nwrite := by
  have nextBound := previous_lt writeBound
  rw [count_eq readBound writeBound] at some_
  rw [count_eq readBound nextBound, count_eq readBound writeBound]
  unfold previous
  split at some_ <;> split <;> split <;> omega

theorem contents_unwrite {data : Fin size → Item} (divides : size ∣ modulus) :
    contents modulus data nread nwrite =
      contents modulus data nread (previous modulus nwrite) ++
        [data (cell (previous modulus nwrite))] := by
  unfold contents
  rw [← count_unwrite readBound writeBound some_, List.range_succ, List.map_append,
    List.map_singleton, cell_count readBound divides]

end Unwrite

/-- A step back undoes a step. -/
theorem previous_step {counter : Nat} (bound : counter < modulus) :
    previous modulus ((counter + 1) % modulus) = counter := by
  unfold previous
  by_cases last : counter + 1 = modulus
  · rw [last, Nat.mod_self, if_pos rfl]
    omega
  · rw [Nat.mod_eq_of_lt (by omega), if_neg (Nat.succ_ne_zero counter), Nat.add_sub_cancel]

theorem length_contents (data : Fin size → Item) (nread nwrite : Nat) :
    (contents modulus data nread nwrite).length = count modulus nread nwrite := by
  simp [contents]

theorem contents_self (data : Fin size → Item) {index : Nat} (bound : index < modulus) :
    contents modulus data index index = [] := by
  have none_ : count modulus index index = 0 := (empty_iff bound bound).mp rfl
  simp [contents, none_]

end RingBuffer
