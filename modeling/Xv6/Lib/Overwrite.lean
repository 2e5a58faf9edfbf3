import Mathlib

/-!
Writing into the middle of a list.

Owns: a list of which a part is written over, and which grows when the part ends behind it; its
length and its elements; and that writing in pieces is writing at once.

Does not own: where the list is kept.
-/

namespace Overwrite

variable {α : Type*} {content : List α} {off : Nat}

/-- `data` in the place of what `content` has from `off` on. -/
def overwrite (content : List α) (off : Nat) (data : List α) : List α :=
  content.take off ++ data ++ content.drop (off + data.length)

theorem length_overwrite (inside : off ≤ content.length) (data : List α) :
    (overwrite content off data).length = max content.length (off + data.length) := by
  rw [overwrite, List.length_append, List.length_append, List.length_take, List.length_drop]
  omega

@[simp] theorem overwrite_nil (content : List α) (off : Nat) : overwrite content off [] = content := by
  rw [overwrite, List.append_nil, List.length_nil, Nat.add_zero, List.take_append_drop]

/-- At the end of the list there is nothing to write over. -/
theorem overwrite_length (content data : List α) :
    overwrite content content.length data = content ++ data := by
  rw [overwrite, List.take_length, List.drop_of_length_le (by omega), List.append_nil]

theorem getElem?_overwrite (inside : off ≤ content.length) (data : List α) (k : Nat) :
    (overwrite content off data)[k]? =
      if off ≤ k ∧ k < off + data.length then data[k - off]? else content[k]? := by
  have front : (content.take off).length = off := by
    rw [List.length_take, Nat.min_eq_left inside]
  rw [overwrite, List.append_assoc]
  by_cases before : k < off
  · rw [List.getElem?_append_left (by omega), List.getElem?_take_of_lt before, if_neg (by omega)]
  · rw [List.getElem?_append_right (by omega), front]
    by_cases within : k - off < data.length
    · rw [List.getElem?_append_left within, if_pos (by omega)]
    · rw [List.getElem?_append_right (by omega), List.getElem?_drop, if_neg (by omega),
        show off + data.length + (k - off - data.length) = k by omega]

/-- A write that is made in two pieces. -/
theorem overwrite_append (inside : off ≤ content.length) (first second : List α) :
    overwrite (overwrite content off first) (off + first.length) second =
      overwrite content off (first ++ second) := by
  have within : off + first.length ≤ (overwrite content off first).length := by
    rw [length_overwrite inside]
    exact Nat.le_max_right _ _
  apply List.ext_getElem?
  intro k
  rw [getElem?_overwrite within, getElem?_overwrite inside, getElem?_overwrite inside,
    List.length_append]
  by_cases later : off + first.length ≤ k ∧ k < off + first.length + second.length
  · rw [if_pos later, if_pos (by omega), List.getElem?_append_right (by omega), Nat.sub_sub]
  · rw [if_neg later]
    by_cases early : off ≤ k ∧ k < off + first.length
    · rw [if_pos early, if_pos (by omega), List.getElem?_append_left (by omega)]
    · rw [if_neg early, if_neg (by omega)]

end Overwrite
