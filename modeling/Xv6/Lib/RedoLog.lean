import Xv6.Lib.Update

/-!
Redo logs over an arbitrary store.

Owns: installing a list of entries into a store, replaying a list of updates, and the
absorption law that makes a redo log safe to install again after a partial install.

Does not own: how entries are laid out on a disk, or when they are written.
-/

namespace RedoLog

open Function (update_self update_of_ne)

variable {ι β : Type} [DecidableEq ι] {store store' : ι → β} {entries : List (ι × β)}

/-- Write the entries into the store, first to last. -/
def install (store : ι → β) : List (ι × β) → ι → β
  | [] => store
  | entry :: rest => install (Function.update store entry.1 entry.2) rest

theorem install_of_notMem {index : ι} (absent : index ∉ entries.map Prod.fst) :
    install store entries index = store index := by
  induction entries generalizing store with
  | nil => rfl
  | cons entry rest ih =>
    simp only [List.map_cons, List.mem_cons, not_or] at absent
    rw [install, ih absent.2, update_of_ne absent.1]

theorem install_of_mem {index : ι} {value : β} (nodup : (entries.map Prod.fst).Nodup)
    (member : (index, value) ∈ entries) : install store entries index = value := by
  induction entries generalizing store with
  | nil => simp at member
  | cons entry rest ih =>
    simp only [List.map_cons, List.nodup_cons] at nodup
    rcases List.mem_cons.mp member with rfl | later
    · rw [install, install_of_notMem nodup.1, update_self]
    · exact ih nodup.2 later

/-- What the entries overwrite does not matter. -/
theorem install_congr (agree : ∀ index ∉ entries.map Prod.fst, store index = store' index) :
    install store entries = install store' entries := by
  induction entries generalizing store store' with
  | nil => exact funext fun index => agree index (by simp)
  | cons entry rest ih =>
    apply ih
    intro index absent
    exact Update.cases₂ index rfl fun other => agree index (by simp [other, absent])

/-- A write to a place that the entries overwrite is absorbed: the reason why a partial
install can be followed by a full one. -/
theorem install_update_of_mem {index : ι} (value : β) (member : index ∈ entries.map Prod.fst) :
    install (Function.update store index value) entries = install store entries := by
  apply install_congr
  intro other absent
  apply update_of_ne
  rintro rfl
  exact absent member

/-! ## Updates -/

/-- Apply a list of updates, first to last. -/
def replay (store : ι → β) (updates : List (ι × (β → β))) : ι → β :=
  updates.foldl (fun current update =>
    Function.update current update.1 (update.2 (current update.1))) store

@[simp] theorem replay_nil : replay store [] = store :=
  rfl

theorem replay_snoc (updates : List (ι × (β → β))) (index : ι) (change : β → β) :
    replay store (updates ++ [(index, change)]) =
      Function.update (replay store updates) index (change (replay store updates index)) := by
  simp [replay]

end RedoLog
