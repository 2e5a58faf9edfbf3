import Xv6.Vm.PageTable

/-!
Enough memory.

Owns: how many free pages the functions of `vm.c` need so that none of them fails.

Does not own: what they do otherwise (`Xv6.Vm.PageTable`).
-/

namespace Xv6.Vm

variable {Page : Type}

/-- There are `n` free pages, and other processes leave them alone. -/
structure Mem.Has (m : Mem Page) (n : Nat) : Prop where
  refuses : m.refuses = []
  free : n ≤ m.free.length

theorem Mem.Has.mono {m : Mem Page} {n n' : Nat} (has : m.Has n) (le : n' ≤ n) : m.Has n' :=
  ⟨has.refuses, le_trans le has.free⟩

theorem kalloc_of_has {m : Mem Page} {n : Nat} (has : m.Has (n + 1)) :
    ∃ page m', kalloc m = (some page, m') ∧ m'.Has n := by
  obtain ⟨free, refuses⟩ := m
  obtain ⟨none_, enough⟩ := has
  subst none_
  cases free with
  | nil => cases enough
  | cons page free => exact ⟨page, ⟨free, []⟩, rfl, rfl, Nat.le_of_succ_le_succ enough⟩

namespace PageDir

variable {d : PageDir Page} {m : Mem Page} {v n : Nat}

/-- The pages that it takes to have a table for a virtual page. -/
def lacks (d : PageDir Page) (v : Nat) : Nat :=
  if (d.table (v / nptentries)).isSome then 0 else 1

theorem lacks_le_one (d : PageDir Page) (v : Nat) : d.lacks v ≤ 1 := by
  unfold lacks
  split <;> omega

theorem walkAlloc_of_has (has : m.Has (n + d.lacks v)) :
    ∃ d' m', d.walkAlloc v m = (true, d', m') ∧ m'.Has n := by
  unfold walkAlloc
  cases table : d.table (v / nptentries) with
  | some page => exact ⟨d, m, rfl, has.mono (Nat.le_add_right n _)⟩
  | none =>
    have one_ : d.lacks v = 1 := by
      rw [lacks, table]
      rfl
    rw [one_] at has
    obtain ⟨page, m', found, left⟩ := kalloc_of_has has
    rw [found]
    exact ⟨_, m', rfl, left⟩

theorem mappages_one_of_has (entry : Nat → Pte Page) (wf : d.Wf) (inside : v < vpages)
    (unmapped : d.pte v = none) (fits : Fits v (entry v)) (has : m.Has (n + d.lacks v)) :
    ∃ d' m', d.mappages entry 1 v m = some (true, d', m') ∧ m'.Has n ∧ d'.Wf ∧
      Mapped d d' v 1 entry := by
  obtain ⟨d₁, m₁, walked, left⟩ := walkAlloc_of_has has
  have ran := mappages_one wf inside unmapped entry fits m
  rw [mappages, walked] at ran ⊢
  dsimp only [mappages] at ran ⊢
  split at ran
  · rcases ran with ⟨_, impossible, _⟩ | ⟨_, _, impossible, _⟩
    · cases impossible
    · cases impossible
  · rename_i free
    rw [if_neg free]
    rcases ran with ⟨_, impossible, _⟩ | ⟨d', m', mapped, wf', first, _⟩
    · cases impossible
    · cases mapped
      exact ⟨_, _, rfl, left, wf', first⟩

/-- Mapping pages needs the tables for them. -/
theorem mappages_of_has (entry : Nat → Pte Page) {count : Nat} (wf : d.Wf)
    (inside : v + (count + 1) ≤ vpages)
    (unmapped : ∀ u, v ≤ u → u < v + (count + 1) → d.pte u = none)
    (fits : ∀ u, v ≤ u → u < v + (count + 1) → Fits u (entry u))
    (has : m.Has (n + d.lacks v + ((v + count) / nptentries - v / nptentries))) :
    ∃ d' m', d.mappages entry (count + 1) v m = some (true, d', m') ∧ m'.Has n := by
  induction count generalizing d v m with
  | zero =>
    rw [Nat.add_zero, Nat.sub_self, Nat.add_zero] at has
    obtain ⟨d', m', ran, left, _⟩ := mappages_one_of_has entry wf (by omega)
      (unmapped v le_rfl (by omega)) (fits v le_rfl (by omega)) has
    exact ⟨d', m', ran, left⟩
  | succ count ih =>
    rw [Nat.add_right_comm] at has
    obtain ⟨d', m', ran, left, wf', first⟩ := mappages_one_of_has entry wf (by omega)
      (unmapped v le_rfl (by omega)) (fits v le_rfl (by omega)) has
    rw [mappages_succ, ran]
    apply ih wf' (by omega)
    · intro u low high
      rw [first.pte, if_neg (by omega)]
      exact unmapped u (by omega) (by omega)
    · exact fun u low high => fits u (by omega) (by omega)
    · apply left.mono
      by_cases sameTable : (v + 1) / nptentries = v / nptentries
      · -- the table was made for the page before
        have none_ : d'.lacks (v + 1) = 0 := by
          rw [lacks, sameTable, if_pos]
          exact (first.table _).mpr (.inr ⟨v, le_rfl, by omega, rfl⟩)
        rw [none_, sameTable, Nat.add_right_comm v 1 count]
        exact le_rfl
      · have atMost := d'.lacks_le_one (v + 1)
        unfold nptentries at *
        omega

/-- Each user page needs itself and perhaps a table. -/
theorem fillFrom_of_has (look : Nat → Option (Bool × Bool × Contents)) {count : Nat} (wf : d.Wf)
    (user : v + count ≤ kernpage) (found : ∀ u, v ≤ u → u < v + count → (look u).isSome = true)
    (unmapped : ∀ u, v ≤ u → u < v + count → d.pte u = none) (has : m.Has (n + 2 * count)) :
    ∃ d' m', fillFrom look count v d m = some (.done, d', m') ∧ m'.Has n := by
  induction count generalizing v d m with
  | zero => exact ⟨d, m, rfl, has⟩
  | succ count ih =>
    obtain ⟨page, m₁, allocated, left⟩ := kalloc_of_has
      (has.mono (show n + 2 * count + 1 + 1 ≤ n + 2 * (count + 1) by omega))
    obtain ⟨⟨w, us, data⟩, isFound⟩ := Option.isSome_iff_exists.mp (found v le_rfl (by omega))
    have inside : v < vpages := lt_of_lt_of_le (by omega : v < kernpage) (by decide)
    have tables : m₁.Has (n + 2 * count + d.lacks v) := by
      have atMost := d.lacks_le_one v
      exact left.mono (by omega)
    obtain ⟨d', m', ran, left', wf', first⟩ := mappages_one_of_has
      (fun _ => .user page w us data) wf inside (unmapped v le_rfl (by omega))
      (show v < kernpage by omega) tables
    rw [fillFrom, isFound]
    dsimp only
    rw [allocated]
    dsimp only
    rw [ran]
    refine ih wf' (by omega) (fun u low high => found u (by omega) (by omega)) ?_ left'
    intro u low high
    rw [first.pte, if_neg (by omega)]
    exact unmapped u (by omega) (by omega)

theorem allocuvm_of_has {oldsz newsz : Nat} (wf : d.Wf) (sized : d.Sized oldsz)
    (le : oldsz ≤ newsz) (user : newsz < kernbase)
    (has : m.Has (n + 2 * (npages newsz - npages oldsz))) :
    ∃ d' m', d.allocuvm oldsz newsz m = some (newsz, d', m') ∧ m'.Has n := by
  have more := npages_mono le
  have bound := npages_le_kernpage user.le
  obtain ⟨d', m', ran, left⟩ := fillFrom_of_has (fun _ => some (true, true, fun _ => 0)) wf
    (show npages oldsz + (npages newsz - npages oldsz) ≤ kernpage by omega) (fun _ _ _ => rfl)
    (fun u low high => sized.none low (by omega)) has
  refine ⟨d', m', ?_, left⟩
  rw [allocuvm, if_neg (Nat.not_le.mpr user), if_neg (Nat.not_lt.mpr le), allocFrom_eq, ran]

end PageDir

/-- The pages that are enough for the tables of a kernel map. -/
def tablePages (ranges : List (Nat × Nat × Nat × Bool)) : Nat :=
  (ranges.map fun range => range.2.1 / nptentries + 2).sum

theorem mapKernel_of_has {ranges : List (Nat × Nat × Nat × Bool)} {low n : Nat} {d : PageDir Page}
    {m : Mem Page} (wf : d.Wf) (kernel : kernpage ≤ low) (ascending : Ascending low ranges)
    (unmapped : ∀ u, low ≤ u → d.pte u = none) (has : m.Has (n + tablePages ranges)) :
    ∃ d' m', mapKernel ranges d m = some (true, d', m') ∧ m'.Has n := by
  induction ranges generalizing low d m with
  | nil => exact ⟨d, m, rfl, has⟩
  | cons range rest ih =>
    obtain ⟨v, count, pa, w⟩ := range
    obtain ⟨above, inside, restAscending⟩ := ascending
    have share : n + tablePages ((v, count, pa, w) :: rest) =
        n + tablePages rest + (count / nptentries + 2) := by
      simp only [tablePages, List.map_cons, List.sum_cons]
      omega
    rw [share] at has
    have mapsAll : ∃ d' m', d.mappages (fun u => .kernel (pa + (u - v)) w) count v m =
        some (true, d', m') ∧ m'.Has (n + tablePages rest) := by
      cases count with
      | zero => exact ⟨d, m, rfl, has.mono (Nat.le_add_right _ _)⟩
      | succ count =>
        apply PageDir.mappages_of_has _ wf inside
        · exact fun u low' _ => unmapped u (by omega)
        · exact fun u low' _ => le_trans kernel (by omega)
        · apply has.mono
          have atMost := d.lacks_le_one v
          unfold nptentries
          omega
    obtain ⟨d', m', ran, left⟩ := mapsAll
    obtain ⟨all, d₁, m₁, ran₁, wf', _, mapped⟩ := PageDir.mappages_kernel
      (fun u => .kernel (pa + (u - v)) w) wf inside
      (fun u low' _ => unmapped u (by omega)) (fun u low' _ => le_trans kernel (by omega))
      (fun _ => rfl) m
    rw [ran] at ran₁
    cases ran₁
    have first := mapped rfl
    rw [mapKernel, ran]
    apply ih wf' (show kernpage ≤ v + count by omega) restAscending _ left
    intro u low'
    rw [first.pte, if_neg (by omega)]
    exact unmapped u (by omega)

/-- `setupkvm` needs at most 73 pages. -/
theorem setupkvm_of_has (k : KernelMap) {m : Mem Page} {n : Nat} (has : m.Has (n + 73)) :
    ∃ d m', setupkvm k m = some (some d, m') ∧ m'.Has n := by
  have enough : tablePages k.kmap ≤ 72 := by
    have afterText := k.afterText
    have inMemory := k.inMemory
    simp only [tablePages, KernelMap.kmap, List.map_cons, List.map_nil, List.sum_cons, List.sum_nil,
      phystop, pgsize, devspace, vpages, nptentries] at *
    omega
  obtain ⟨page, m₁, found, left⟩ := kalloc_of_has has
  have wf : (⟨page, fun _ => none, fun _ => none⟩ : PageDir Page).Wf :=
    ⟨fun _ _ => rfl, (fun _ _ _ h => by cases h), (fun _ _ _ _ _ h => by cases h)⟩
  obtain ⟨d, m', ran, left'⟩ := mapKernel_of_has wf le_rfl (kmap_ascending k) (fun _ _ => rfl)
    (left.mono (show n + tablePages k.kmap ≤ n + 72 by omega))
  refine ⟨d, m', ?_, left'⟩
  rw [setupkvm, found]
  dsimp only
  rw [ran]

end Xv6.Vm
