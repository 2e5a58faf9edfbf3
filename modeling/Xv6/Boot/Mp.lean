import Xv6.Lib.Bytes

/-!
The walk through the MP configuration table.

Owns: the checks of `mpconfig` on a table, and `mpinit`; the processor entries of a table; and for
which tables the loop over the entries ends.

Does not own: how `mpsearch` finds the table; the mode switch of the interrupt controller.

A table is the memory from `conf` on. A result of `none` is a loop that has not ended yet.
-/

namespace Xv6.Mp

def ncpu : Nat := 8

/-- `sizeof(struct mpconf)`. -/
def confSize : Nat := 44

/-! ## The program -/

def sum (addr : Nat → UInt8) : Nat → UInt8
  | 0 => 0
  | len + 1 => sum addr len + addr len

/-- The table's `length` field. -/
def length (conf : Nat → UInt8) : Nat :=
  Bytes.get conf 4 2

def mpconfig (conf : Nat → UInt8) : Bool :=
  ((List.range 4).map conf = [80, 67, 77, 80]) && (conf 6 = 1 || conf 6 = 4) &&
    sum conf (length conf) = 0

structure State where
  /-- The `apicid` fields of the first `ncpu` entries of `cpus`. -/
  cpus : List UInt8
  ioapicid : UInt8
  ismp : Bool
deriving DecidableEq, Repr

/-- One pass of the loop. In the last case `break` leaves the `switch` only. -/
def pass (conf : Nat → UInt8) (p : Nat) (s : State) : Nat × State :=
  if conf p = 0 then
    (p + 20, if s.cpus.length < ncpu then { s with cpus := s.cpus ++ [conf (p + 1)] } else s)
  else if conf p = 2 then (p + 8, { s with ioapicid := conf (p + 1) })
  else if conf p = 1 ∨ conf p = 3 ∨ conf p = 4 then (p + 8, s)
  else (p, { s with ismp := false })

def loop (conf : Nat → UInt8) : Nat → Nat → State → Option State
  | 0, _, _ => none
  | fuel + 1, p, s =>
    if p < length conf then loop conf fuel (pass conf p s).1 (pass conf p s).2 else some s

inductive Outcome where
  | expectSmp
  | notSuitable
  | done (s : State)
deriving DecidableEq, Repr

def mpinit (fuel : Nat) (conf : Nat → UInt8) : Option Outcome :=
  if mpconfig conf then
    (loop conf fuel confSize ⟨[], 0, true⟩).map fun s => if s.ismp then .done s else .notSuitable
  else some .expectSmp

/-! ## The entries -/

/-- The entries from `p` to the end have known types, and these are the ids of the processors. -/
inductive Walk (conf : Nat → UInt8) : Nat → List UInt8 → Prop where
  | stop {p : Nat} (isEnd : length conf ≤ p) : Walk conf p []
  | processor {p : Nat} {ids : List UInt8} (inside : p < length conf) (type : conf p = 0)
      (rest : Walk conf (p + 20) ids) : Walk conf p (conf (p + 1) :: ids)
  | other {p : Nat} {ids : List UInt8} (inside : p < length conf) (type : conf p ≠ 0)
      (known : conf p ≤ 4) (rest : Walk conf (p + 8) ids) : Walk conf p ids

/-- No entry of an unknown type is reached. -/
def Known (conf : Nat → UInt8) : Prop :=
  ∃ ids, Walk conf confSize ids

/-- `mpinit` ends as it should. -/
def Ends (conf : Nat → UInt8) : Prop :=
  ∃ fuel outcome, mpinit fuel conf = some outcome ∧
    match outcome with
    | .done s => ∃ ids, Walk conf confSize ids ∧ s.cpus = ids.take ncpu
    | .notSuitable => ¬Known conf
    | .expectSmp => False

section Loop

variable {conf : Nat → UInt8} {p fuel : Nat} {ids : List UInt8} {s s' : State}

theorem pass_other (type : conf p ≠ 0) (known : conf p ≤ 4) :
    (pass conf p s).1 = p + 8 ∧ (pass conf p s).2.cpus = s.cpus ∧
      (pass conf p s).2.ismp = s.ismp := by
  unfold pass
  rw [if_neg type]
  by_cases isIoapic : conf p = 2
  · rw [if_pos isIoapic]
    exact ⟨rfl, rfl, rfl⟩
  · have isOther : conf p = 1 ∨ conf p = 3 ∨ conf p = 4 := by
      generalize conf p = b at *
      grind
    rw [if_neg isIoapic, if_pos isOther]
    exact ⟨rfl, rfl, rfl⟩

/-- The loop ends at the end of a walk, with the processors that fit into `cpus`. -/
theorem loop_of_walk (walk : Walk conf p ids) (s : State) :
    ∃ fuel s', loop conf fuel p s = some s' ∧ s'.ismp = s.ismp ∧
      s'.cpus = s.cpus ++ ids.take (ncpu - s.cpus.length) := by
  induction walk generalizing s with
  | @stop p isEnd =>
    refine ⟨1, s, ?_, rfl, ?_⟩
    · rw [loop, if_neg (Nat.not_lt.mpr isEnd)]
    · rw [List.take_nil, List.append_nil]
  | @processor p ids inside type _ ih =>
    obtain ⟨fuel, s', ran, same, cpus⟩ := ih (pass conf p s).2
    refine ⟨fuel + 1, s', ?_, ?_, ?_⟩
    · rw [loop, if_pos inside, ← ran]
      simp only [pass, if_pos type]
    · rw [same, pass, if_pos type]
      dsimp only
      split <;> rfl
    · rw [cpus, pass, if_pos type]
      by_cases room : s.cpus.length < ncpu
      · obtain ⟨left, fits⟩ : ∃ left, ncpu - s.cpus.length = left + 1 :=
          Nat.exists_eq_succ_of_ne_zero (by omega)
        simp only [if_pos room, List.length_append, List.length_singleton, Nat.sub_add_eq, fits]
        simp
      · simp only [if_neg room]
        rw [Nat.sub_eq_zero_of_le (Nat.not_lt.mp room)]
        rfl
  | @other p ids inside type known _ ih =>
    obtain ⟨next, sameCpus, sameIsmp⟩ := pass_other (s := s) type known
    obtain ⟨fuel, s', ran, same, cpus⟩ := ih (pass conf p s).2
    refine ⟨fuel + 1, s', ?_, same.trans sameIsmp, ?_⟩
    · rw [loop, if_pos inside, next, ran]
    · rw [cpus, sameCpus]

/-- A loop that ends has walked to the end. -/
theorem walk_of_loop (ran : loop conf fuel p s = some s') : ∃ ids, Walk conf p ids := by
  induction fuel generalizing p s with
  | zero => cases ran
  | succ fuel ih =>
    rw [loop] at ran
    split at ran
    · next inside =>
      obtain ⟨ids, walk⟩ := ih ran
      by_cases type : conf p = 0
      · refine ⟨conf (p + 1) :: ids, .processor inside type ?_⟩
        rwa [pass, if_pos type] at walk
      · by_cases known : conf p ≤ 4
        · refine ⟨ids, .other inside type known ?_⟩
          rwa [(pass_other type known).1] at walk
        · -- The pass has not moved.
          refine ⟨ids, ?_⟩
          have stays : (pass conf p s).1 = p := by
            unfold pass
            grind
          rwa [stays] at walk
    · next isEnd => exact ⟨[], .stop (Nat.not_lt.mp isEnd)⟩

/-- On a table that `mpconfig` accepts, `mpinit` ends as it should exactly if it reaches no entry of
an unknown type. -/
theorem mpinit_ends_iff (accepted : mpconfig conf = true) : Ends conf ↔ Known conf := by
  constructor
  · rintro ⟨fuel, outcome, ran, _⟩
    rw [mpinit, if_pos accepted] at ran
    obtain ⟨s, looped, _⟩ := Option.map_eq_some_iff.mp ran
    exact walk_of_loop looped
  · rintro ⟨ids, walk⟩
    obtain ⟨fuel, s, ran, ismp, cpus⟩ := loop_of_walk walk ⟨[], 0, true⟩
    refine ⟨fuel, .done s, ?_, ids, walk, cpus⟩
    rw [mpinit, if_pos accepted, ran]
    exact congrArg some (if_pos ismp)

end Loop

/-- A table with these entries. -/
def table (length checksum : UInt8) (entries : List UInt8) (i : Nat) : UInt8 :=
  ([80, 67, 77, 80, length, 0, 4, checksum] ++ List.replicate 36 0 ++ entries).getD i 0

/-- Two processors, with a bus and an I/O APIC between them. -/
def twoCpus : Nat → UInt8 :=
  table 100 77 ([0, 7] ++ List.replicate 18 0 ++ [1, 0, 0, 0, 0, 0, 0, 0] ++
    [2, 9, 0, 0, 0, 0, 0, 0] ++ [0, 8])

theorem mpinit_ends_twoCpus :
    Ends twoCpus ∧ mpinit 5 twoCpus = some (.done ⟨[7, 8], 9, true⟩) := by
  refine ⟨(mpinit_ends_iff (by decide +kernel)).mpr ⟨[7, 8], ?_⟩, by decide +kernel⟩
  refine .processor (by decide) (by decide) (.other (by decide) (by decide) (by decide) ?_)
  refine .other (by decide) (by decide) (by decide) (.processor (by decide) (by decide) (.stop ?_))
  decide

/-- On an entry of type 5 the loop stays where it is. -/
theorem mpinit_unknownEntry :
    mpconfig (table 45 154 [5]) = true ∧ ∀ fuel, mpinit fuel (table 45 154 [5]) = none := by
  have stays (fuel : Nat) (s : State) : loop (table 45 154 [5]) fuel confSize s = none := by
    induction fuel generalizing s with
    | zero => rfl
    | succ fuel ih => exact ih _
  refine ⟨by decide +kernel, fun fuel => ?_⟩
  rw [mpinit, stays]
  rfl

end Xv6.Mp
