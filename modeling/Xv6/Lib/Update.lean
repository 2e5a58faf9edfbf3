import Mathlib

/-!
Maps of which one value changes.

Owns: the case rules for what is said of a changed map at a point: it holds of the new value, and
of the old map everywhere else.

Does not own: what the maps hold.
-/

namespace Update

open Function (update update_self update_of_ne)

variable {ι α β : Type*} [DecidableEq ι] {f : ι → α} {g : ι → β} {i : ι} {a : α} {b : β}

@[elab_as_elim]
theorem cases {motive : ι → α → Prop} (j : ι) (self : motive i a)
    (other : j ≠ i → motive j (f j)) : motive j (update f i a j) := by
  by_cases same : j = i
  · subst same
    rw [update_self]
    exact self
  · rw [update_of_ne same]
    exact other same

/-- Two maps change at one point. -/
@[elab_as_elim]
theorem cases₂ {motive : ι → α → β → Prop} (j : ι) (self : motive i a b)
    (other : j ≠ i → motive j (f j) (g j)) : motive j (update f i a j) (update g i b j) := by
  by_cases same : j = i
  · subst same
    rw [update_self, update_self]
    exact self
  · rw [update_of_ne same, update_of_ne same]
    exact other same

/-- What at most one point has, and no other if the new value has it, at most one point has. -/
theorem once (Has : α → Prop) (old : ∀ j k, Has (f j) → Has (f k) → j = k)
    (new : ∀ j, j ≠ i → Has (f j) → ¬Has a) {j k : ι} :
    Has (update f i a j) → Has (update f i a k) → j = k := by
  refine cases j ?_ fun isOther => ?_
  · refine cases k (fun _ _ => rfl) fun isOther isNew isOld => ?_
    exact absurd isNew (new k isOther isOld)
  · refine cases k (fun isOld isNew => ?_) fun _ => old j k
    exact absurd isNew (new j isOther isOld)

end Update
