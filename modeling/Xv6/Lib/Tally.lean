import Xv6.Lib.Update

/-!
Counts kept in step with the holders they count.

Owns: how a sum over all holders changes when one or two holders change, what a sum of zero
says, and the holder of one thing or of none.

Does not own: what is held.
-/

open scoped BigOperators

namespace Tally

open Function (update update_self update_of_ne)

variable {Holder : Type*} [Fintype Holder] [DecidableEq Holder] {before after : Holder → Nat}

omit [Fintype Holder] in
/-- One of some holders changes; what is held need not be a number. -/
theorem sum_change_on {Amount : Type*} [AddCommMonoid Amount] {before after : Holder → Amount}
    {holders : Finset Holder} {holder : Holder} (member : holder ∈ holders)
    (others : ∀ other ∈ holders, other ≠ holder → after other = before other) :
    ∑ other ∈ holders, after other + before holder =
      ∑ other ∈ holders, before other + after holder := by
  have rest : ∑ other ∈ holders.erase holder, after other =
      ∑ other ∈ holders.erase holder, before other :=
    Finset.sum_congr rfl fun other isRest =>
      others other (Finset.mem_of_mem_erase isRest) (Finset.ne_of_mem_erase isRest)
  rw [← Finset.add_sum_erase _ after member, ← Finset.add_sum_erase _ before member, rest]
  ac_rfl

/-- One holder changes. -/
theorem sum_change (holder : Holder) (others : ∀ other, other ≠ holder → after other = before other) :
    ∑ other, after other + before holder = ∑ other, before other + after holder :=
  sum_change_on (Finset.mem_univ holder) fun other _ => others other

/-- What one holder has is replaced. -/
theorem sum_update {Value : Type*} (amount : Value → Nat) (held : Holder → Value) (holder : Holder)
    (value : Value) :
    ∑ other, amount (update held holder value other) + amount (held holder) =
      ∑ other, amount (held other) + amount value := by
  have others : ∀ other, other ≠ holder →
      (amount ∘ update held holder value) other = (amount ∘ held) other := by
    intro other isOther
    rw [Function.comp_apply, Function.comp_apply, update_of_ne isOther]
  have changed := sum_change holder others
  simp only [Function.comp_apply, update_self] at changed
  exact changed

/-- Two holders change. -/
theorem sum_change_two {first second : Holder} (different : first ≠ second)
    (others : ∀ other, other ≠ first → other ≠ second → after other = before other) :
    ∑ other, after other + (before first + before second) =
      ∑ other, before other + (after first + after second) := by
  have one : ∑ other, update before first (after first) other + before first =
      ∑ other, before other + update before first (after first) first :=
    sum_change first fun other isOther => update_of_ne isOther _ _
  have two : ∑ other, after other + update before first (after first) second =
      ∑ other, update before first (after first) other + after second := by
    refine sum_change second fun other isOther => ?_
    exact Update.cases other rfl fun isFirst => others other isFirst isOther
  rw [update_self] at one
  rw [update_of_ne different.symm] at two
  omega

omit [DecidableEq Holder] in
theorem le_sum (before : Holder → Nat) (holder : Holder) : before holder ≤ ∑ other, before other :=
  Finset.single_le_sum (fun _ _ => Nat.zero_le _) (Finset.mem_univ holder)

omit [DecidableEq Holder] in
/-- A sum of zero has no holder. -/
theorem eq_zero_of_sum (none_ : ∑ other, before other = 0) (holder : Holder) :
    before holder = 0 := by
  have bound : before holder ≤ ∑ other, before other := le_sum before holder
  omega

/-! ## Indicators -/

/-- One, if it is this one. -/
def hits {α : Type} [DecidableEq α] (found : Option α) (x : α) : Nat :=
  if found = some x then 1 else 0

section Hits

variable {α : Type} [DecidableEq α]

@[simp] theorem hits_none (x : α) : hits none x = 0 := rfl

@[simp] theorem hits_self (x : α) : hits (some x) x = 1 :=
  if_pos rfl

theorem hits_other {x y : α} (different : x ≠ y) : hits (some x) y = 0 :=
  if_neg fun same => different (Option.some.inj same)

theorem update_succ (count : α → Nat) (x y : α) :
    update count x (count x + 1) y = count y + hits (some x) y := by
  refine Update.cases y ?_ fun different => ?_
  · rw [hits_self]
  · rw [hits_other (Ne.symm different), Nat.add_zero]

theorem update_pred {count : α → Nat} {x : α} (positive : 0 < count x) (y : α) :
    update count x (count x - 1) y + hits (some x) y = count y := by
  refine Update.cases y ?_ fun different => ?_
  · rw [hits_self, Nat.sub_add_cancel positive]
  · rw [hits_other (Ne.symm different), Nat.add_zero]

end Hits

end Tally
