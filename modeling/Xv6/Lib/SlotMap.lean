import Mathlib

/-!
A finite map in slots.

Owns: a list of slots, each empty or with a key and a value; the search for a key and for an empty
slot; that with distinct keys the slots are a map; and how the map changes when one slot is written.

Does not own: how slots are stored.
-/

namespace SlotMap

variable {Key Value : Type*}

abbrev Slots (Key Value : Type*) := List (Option (Key × Value))

/-- The first slot with a key, where the first slot is number `n`. -/
def find [DecidableEq Key] (key : Key) : Nat → Slots Key Value → Option (Value × Nat)
  | _, [] => none
  | n, some (other, value) :: rest =>
    if key = other then some (value, n) else find key (n + 1) rest
  | n, none :: rest => find key (n + 1) rest

/-- The first empty slot, or the end. -/
def firstEmpty : Nat → Slots Key Value → Nat
  | n, [] => n
  | n, some _ :: rest => firstEmpty (n + 1) rest
  | n, none :: _ => n

def lookup [DecidableEq Key] (slots : Slots Key Value) (key : Key) : Option Value :=
  (find key 0 slots).map Prod.fst

/-- No key is in two slots. -/
def Distinct (slots : Slots Key Value) : Prop :=
  ∀ (j k : Nat) (key : Key) (x y : Value), slots[j]? = some (some (key, x)) → slots[k]? = some (some (key, y)) → j = k

section Search

variable [DecidableEq Key] {slots : Slots Key Value} {key : Key} {x : Value} {n k : Nat}

theorem find_some (found : find key n slots = some (x, k)) :
    n ≤ k ∧ slots[k - n]? = some (some (key, x)) := by
  induction slots generalizing n with
  | nil => cases found
  | cons slot rest ih =>
    have later (next : find key (n + 1) rest = some (x, k)) :
        n ≤ k ∧ (slot :: rest)[k - n]? = some (some (key, x)) := by
      obtain ⟨low, at_⟩ := ih next
      refine ⟨by omega, ?_⟩
      rw [show k - n = k - (n + 1) + 1 by omega, List.getElem?_cons_succ]
      exact at_
    match slot with
    | none => exact later found
    | some (other, value) =>
      rw [find] at found
      by_cases same : key = other
      · rw [if_pos same] at found
        obtain ⟨rfl, rfl⟩ := Prod.mk.inj (Option.some.inj found)
        rw [Nat.sub_self, same]
        exact ⟨Nat.le_refl _, rfl⟩
      · rw [if_neg same] at found
        exact later found

theorem find_none (missing : find key n slots = none) (k : Nat) (x : Value) :
    slots[k]? ≠ some (some (key, x)) := by
  induction slots generalizing n k with
  | nil => exact fun at_ => nomatch at_
  | cons slot rest ih =>
    have later (next : find key (n + 1) rest = none) (other : slot ≠ some (key, x)) :
        (slot :: rest)[k]? ≠ some (some (key, x)) := by
      cases k with
      | zero => exact fun at_ => other (Option.some.inj at_)
      | succ k => exact ih next k
    match slot with
    | none => exact later missing fun same => nomatch same
    | some (other, value) =>
      rw [find] at missing
      by_cases same : key = other
      · rw [if_pos same] at missing
        cases missing
      · rw [if_neg same] at missing
        refine later missing fun isKey => same ?_
        exact (Prod.mk.inj (Option.some.inj isKey)).1.symm

/-- What is found is all there is. -/
theorem lookup_eq_some_iff (distinct : Distinct slots) :
    lookup slots key = some x ↔ ∃ k : Nat, slots[k]? = some (some (key, x)) := by
  unfold lookup
  constructor
  · intro found
    obtain ⟨⟨value, k⟩, search, rfl⟩ := Option.map_eq_some_iff.mp found
    exact ⟨k, (find_some search).2⟩
  · rintro ⟨k, at_⟩
    cases search : find key 0 slots with
    | none => exact absurd at_ (find_none search k x)
    | some found =>
      obtain ⟨value, j⟩ := found
      have other := (find_some search).2
      rw [Nat.sub_zero] at other
      obtain rfl := distinct j k key value x other at_
      rw [other] at at_
      have same := (Prod.mk.inj (Option.some.inj (Option.some.inj at_))).2
      exact congrArg some same

theorem lookup_eq_none_iff (distinct : Distinct slots) :
    lookup slots key = none ↔ ∀ (k : Nat) (x : Value), slots[k]? ≠ some (some (key, x)) := by
  constructor
  · intro missing k x at_
    have found := (lookup_eq_some_iff distinct).mpr ⟨k, at_⟩
    rw [missing] at found
    cases found
  · intro absent
    cases found : lookup slots key with
    | none => rfl
    | some x =>
      obtain ⟨k, at_⟩ := (lookup_eq_some_iff distinct).mp found
      exact absurd at_ (absent k x)

/-- Slots whose keys and values are stored in another form. -/
theorem find_map {Key' Value' : Type*} [DecidableEq Key'] {encode : Key → Key'}
    (injective : Function.Injective encode) (store : Value → Value') :
    find (encode key) n (slots.map (Option.map (Prod.map encode store))) =
      (find key n slots).map (Prod.map store id) := by
  induction slots generalizing n with
  | nil => rfl
  | cons slot rest ih =>
    match slot with
    | none => exact ih
    | some (other, value) =>
      simp only [List.map_cons, Option.map_some, Prod.map_apply, find, injective.eq_iff, ih]
      split <;> rfl

omit [DecidableEq Key] in
theorem firstEmpty_spec (slots : Slots Key Value) (n : Nat) :
    n ≤ firstEmpty n slots ∧ firstEmpty n slots ≤ n + slots.length ∧
      (firstEmpty n slots < n + slots.length → slots[firstEmpty n slots - n]? = some none) ∧
      ∀ j, j < firstEmpty n slots - n → slots[j]? ≠ some none := by
  induction slots generalizing n with
  | nil => exact ⟨Nat.le_refl _, Nat.le_refl _, fun below => absurd below (Nat.lt_irrefl n),
      fun j below => absurd below (by rw [firstEmpty]; omega)⟩
  | cons slot rest ih =>
    match slot with
    | none =>
      refine ⟨Nat.le_refl _, Nat.le_add_right _ _, fun _ => ?_, fun j below => absurd below ?_⟩
      · rw [firstEmpty, Nat.sub_self]
        rfl
      · rw [firstEmpty]
        omega
    | some entry =>
      obtain ⟨low, high, at_, before⟩ := ih (n + 1)
      rw [firstEmpty, List.length_cons]
      refine ⟨by omega, by omega, ?_, ?_⟩
      · intro below
        rw [show firstEmpty (n + 1) rest - n = firstEmpty (n + 1) rest - (n + 1) + 1 by omega,
          List.getElem?_cons_succ]
        exact at_ (by omega)
      · intro j below
        cases j with
        | zero => exact fun same => nomatch same
        | succ j => exact before j (by omega)

end Search

section Write

variable [DecidableEq Key] {slots slots' : Slots Key Value} {key : Key} {x : Value} {k : Nat}

/-- A new key in a slot that had none. -/
theorem store_spec (distinct : Distinct slots) (absent : lookup slots key = none)
    (free : ∀ entry, slots[k]? ≠ some (some entry))
    (written : ∀ j, slots'[j]? = if j = k then some (some (key, x)) else slots[j]?) :
    Distinct slots' ∧ lookup slots' = Function.update (lookup slots) key (some x) := by
  have none_ := (lookup_eq_none_iff distinct).mp absent
  have distinct' : Distinct slots' := by
    intro i j other y z first second
    rw [written] at first second
    by_cases isI : i = k
    · by_cases isJ : j = k
      · exact isI.trans isJ.symm
      · rw [if_pos isI] at first
        rw [if_neg isJ] at second
        obtain ⟨rfl, rfl⟩ := Prod.mk.inj (Option.some.inj (Option.some.inj first))
        exact absurd second (none_ j z)
    · rw [if_neg isI] at first
      by_cases isJ : j = k
      · rw [if_pos isJ] at second
        obtain ⟨rfl, rfl⟩ := Prod.mk.inj (Option.some.inj (Option.some.inj second))
        exact absurd first (none_ i y)
      · rw [if_neg isJ] at second
        exact distinct i j other y z first second
  refine ⟨distinct', ?_⟩
  funext other
  by_cases same : other = key
  · rw [same, Function.update_self, lookup_eq_some_iff distinct']
    exact ⟨k, by rw [written, if_pos rfl]⟩
  · rw [Function.update_of_ne same]
    apply Option.ext
    intro y
    rw [lookup_eq_some_iff distinct', lookup_eq_some_iff distinct]
    constructor
    · rintro ⟨j, at_⟩
      rw [written] at at_
      by_cases isSlot : j = k
      · rw [if_pos isSlot] at at_
        exact absurd (Prod.mk.inj (Option.some.inj (Option.some.inj at_))).1.symm same
      · rw [if_neg isSlot] at at_
        exact ⟨j, at_⟩
    · rintro ⟨j, at_⟩
      refine ⟨j, ?_⟩
      rw [written, if_neg]
      · exact at_
      · rintro rfl
        exact free _ at_

/-- The slot of a key is emptied. -/
theorem clear_spec (distinct : Distinct slots) (there : slots[k]? = some (some (key, x)))
    (written : ∀ j, slots'[j]? = if j = k then some none else slots[j]?) :
    Distinct slots' ∧ lookup slots' = Function.update (lookup slots) key none := by
  have kept {j : Nat} {entry : Key × Value} (at_ : slots'[j]? = some (some entry)) :
      j ≠ k ∧ slots[j]? = some (some entry) := by
    rw [written] at at_
    by_cases isSlot : j = k
    · rw [if_pos isSlot] at at_
      cases at_
    · rw [if_neg isSlot] at at_
      exact ⟨isSlot, at_⟩
  have distinct' : Distinct slots' := fun i j other y z first second =>
    distinct i j other y z (kept first).2 (kept second).2
  refine ⟨distinct', ?_⟩
  funext other
  by_cases same : other = key
  · rw [same, Function.update_self, lookup_eq_none_iff distinct']
    intro j y at_
    obtain ⟨notSlot, before⟩ := kept at_
    exact notSlot (distinct j k key y x before there)
  · rw [Function.update_of_ne same]
    apply Option.ext
    intro y
    rw [lookup_eq_some_iff distinct', lookup_eq_some_iff distinct]
    constructor
    · rintro ⟨j, at_⟩
      exact ⟨j, (kept at_).2⟩
    · rintro ⟨j, at_⟩
      refine ⟨j, ?_⟩
      rw [written, if_neg]
      · exact at_
      · rintro rfl
        rw [there] at at_
        exact same (Prod.mk.inj (Option.some.inj (Option.some.inj at_))).1.symm

end Write

end SlotMap
