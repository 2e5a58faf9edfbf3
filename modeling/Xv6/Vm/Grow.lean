import Xv6.Vm.Resize

/-!
Growing and shrinking a process.

Owns: `growproc`; what it does to the size and to the user pages of a process; and the sizes for
which it does what its caller asked for.

Does not own: the page tables (`Xv6.Vm.PageTable`).

The size is unsigned, and `growproc` adds a signed number to it. The functions it calls return
the new size, or 0 when they fail, so that a process cannot shrink to nothing.
-/

namespace Xv6.Vm

/-- A number as an `uint`. -/
def uint (x : Int) : Nat :=
  (x % 2 ^ 32).toNat

/-- The address space of a process. -/
structure Space (Page : Type) where
  pgdir : PageDir Page
  sz : Nat

variable {Page : Type} {p : Space Page} {n : Int}

/-- The end of `growproc`, with what `allocuvm` or `deallocuvm` returned. -/
def Space.resize (p : Space Page) :
    Option (Nat × PageDir Page × Mem Page) → Option (Int × Space Page × Mem Page)
  | none => none
  | some (sz, pgdir, m) =>
    if sz = 0 then some (-1, { p with pgdir := pgdir }, m) else some (0, ⟨pgdir, sz⟩, m)

def growproc (p : Space Page) (n : Int) (m : Mem Page) : Option (Int × Space Page × Mem Page) :=
  if 0 < n then p.resize (p.pgdir.allocuvm p.sz (uint (p.sz + n)) m)
  else if n < 0 then p.resize (p.pgdir.deallocuvm p.sz (uint (p.sz + n)) m)
  else some (0, p, m)

/-- The user pages of a process are those of its size. -/
structure Space.Valid (p : Space Page) : Prop where
  wf : p.pgdir.Wf
  sized : p.pgdir.Sized p.sz
  user : p.sz < kernbase

/-- A call of `growproc` that changes the size as asked, or else nothing. -/
def GrowsExactly (p : Space Page) (n : Int) (m : Mem Page) : Prop :=
  ∃ r p' m', growproc p n m = some (r, p', m') ∧ (r = 0 ∨ r = -1) ∧
    (r = 0 → (p'.sz : Int) = p.sz + n ∧ p'.pgdir.Sized p'.sz) ∧
    (r = -1 → p'.sz = p.sz ∧ ∀ v, v < kernpage → p'.pgdir.pte v = p.pgdir.pte v)

/-! ## Sizes -/

theorem uint_of_nonneg {x : Int} (low : 0 ≤ x) (high : x < 2 ^ 32) : (uint x : Int) = x := by
  unfold uint
  omega

/-- A sum below 0 wraps around to a size above every process. -/
theorem le_uint_of_neg {x : Int} (low : -2 ^ 31 ≤ x) (negative : x < 0) : kernbase ≤ uint x := by
  unfold uint kernbase
  omega

namespace PageDir

variable {d d' : PageDir Page} {oldsz newsz : Nat}

theorem Sized.grow {page : Nat → Page} (sized : d.Sized oldsz) (le : oldsz ≤ newsz)
    (mapped : Mapped d d' (npages oldsz) (npages newsz - npages oldsz) (fresh page)) :
    d'.Sized newsz := by
  have more := npages_mono le
  intro v user
  rw [mapped.pte]
  split
  · simp only [Option.isSome_some, true_iff]
    omega
  · rw [sized v user]
    omega

theorem Sized.shrink (sized : d.Sized oldsz) (le : newsz ≤ oldsz)
    (cleared : Cleared d d' (npages newsz) (npages oldsz)) : d'.Sized newsz := by
  have less := npages_mono le
  intro v user
  rw [cleared.pte]
  split
  · simp only [Option.isSome_none, Bool.false_eq_true, false_iff]
    omega
  · rw [sized v user]
    omega

end PageDir

/-! ## The three directions -/

theorem grow_up (valid : p.Valid) (positive : 0 < n) (int : n < 2 ^ 31) (m : Mem Page) :
    GrowsExactly p n m := by
  have user := valid.user
  unfold kernbase at user
  have sum : (uint (p.sz + n) : Int) = p.sz + n := uint_of_nonneg (by omega) (by omega)
  unfold GrowsExactly growproc
  rw [if_pos positive]
  rcases PageDir.allocuvm_cases valid.wf valid.sized m (uint (p.sz + n)) with
    ⟨d', m', failed, wf', same, kept⟩ | ⟨less, _⟩ |
    ⟨le, below, page, d', m', grown, wf', mapped, kept⟩
  · rw [failed]
    exact ⟨-1, _, m', rfl, .inr rfl, (fun h => nomatch h), fun _ => ⟨rfl, fun v _ => congrFun same v⟩⟩
  · omega
  · have different : uint (p.sz + n) ≠ 0 := by omega
    rw [grown, Space.resize, if_neg different]
    exact ⟨0, _, m', rfl, .inl rfl, fun _ => ⟨sum, valid.sized.grow le mapped⟩, (fun h => nomatch h)⟩

theorem grow_down (valid : p.Valid) (negative : n < 0) (positive : 0 < p.sz + n) (m : Mem Page) :
    GrowsExactly p n m := by
  have user := valid.user
  unfold kernbase at user
  have sum : (uint (p.sz + n) : Int) = p.sz + n := uint_of_nonneg (by omega) (by omega)
  have less : uint (p.sz + n) < p.sz := by omega
  unfold GrowsExactly growproc
  rw [if_neg (by omega), if_pos negative]
  obtain ⟨d', m', freed, wf', cleared, kept⟩ :=
    PageDir.deallocuvm_spec valid.wf less (Nat.le_of_lt valid.user) m
  have different : uint (p.sz + n) ≠ 0 := by omega
  rw [freed, Space.resize, if_neg different]
  exact ⟨0, _, m', rfl, .inl rfl, fun _ => ⟨sum, valid.sized.shrink less.le cleared⟩,
    (fun h => nomatch h)⟩

/-- Shrinking below nothing: the new size wraps around, and the process stays as it is. -/
theorem grow_wrapped (valid : p.Valid) (int : -2 ^ 31 ≤ n) (negative : p.sz + n < 0)
    (m : Mem Page) : growproc p n m = some (if p.sz = 0 then -1 else 0, p, m) := by
  have above := le_uint_of_neg (x := p.sz + n) (by omega) negative
  have user := valid.user
  unfold growproc
  rw [if_neg (by omega), if_pos (by omega), PageDir.deallocuvm, if_pos (by omega), Space.resize]
  split <;> rfl

/-- Shrinking to nothing: the pages are gone, and the result is that of a failure. -/
theorem grow_to_zero (valid : p.Valid) (some_ : 0 < p.sz) (m : Mem Page) :
    ∃ d' m', growproc p (-p.sz) m = some (-1, { p with pgdir := d' }, m') ∧ d'.pte 0 = none := by
  have zero : uint (p.sz + -p.sz) = 0 := by
    unfold uint
    omega
  obtain ⟨d', m', freed, wf', cleared, kept⟩ :=
    PageDir.deallocuvm_spec valid.wf some_ (Nat.le_of_lt valid.user) m
  refine ⟨d', m', ?_, ?_⟩
  · unfold growproc
    rw [if_neg (by omega), if_pos (by omega), zero, freed]
    rfl
  · rw [cleared.pte, if_pos]
    unfold npages pgsize
    omega

/-- `growproc` does what it is asked for, or fails and changes nothing, exactly when it is not
asked to take away all that the process has or more. -/
theorem growproc_exact_iff (valid : p.Valid) (low : -2 ^ 31 ≤ n) (high : n < 2 ^ 31)
    (m : Mem Page) : GrowsExactly p n m ↔ 0 ≤ n ∨ 0 < p.sz + n ∨ p.sz = 0 := by
  constructor
  · rintro ⟨r, p', m', ran, _, success, failure⟩
    by_contra asked
    rcases lt_or_eq_of_le (show p.sz + n ≤ 0 by omega) with below | isZero
    · rw [grow_wrapped valid low below m, if_neg (by omega)] at ran
      cases ran
      have size := (success rfl).1
      omega
    · obtain rfl : n = -p.sz := by omega
      obtain ⟨d', m'', ran', gone⟩ := grow_to_zero valid (by omega) m
      rw [ran'] at ran
      cases ran
      have kept := (failure rfl).2 0 (by decide)
      have mapped := (valid.sized 0 (by decide)).mpr (by unfold npages pgsize; omega)
      rw [← kept, gone] at mapped
      cases mapped
  · intro asked
    rcases lt_trichotomy n 0 with negative | rfl | positive
    · by_cases left : 0 < p.sz + n
      · exact grow_down valid negative left m
      · have empty : p.sz = 0 := by omega
        refine ⟨-1, p, m, ?_, .inr rfl, (fun h => nomatch h), fun _ => ⟨rfl, fun _ _ => rfl⟩⟩
        rw [grow_wrapped valid low (by omega) m, if_pos empty]
    · refine ⟨0, p, m, rfl, .inl rfl, fun _ => ⟨(add_zero _).symm, valid.sized⟩,
        (fun h => nomatch h)⟩
    · exact grow_up valid positive high m

/-! ## A process of one page -/

def onePageSpace : Space Nat :=
  ⟨onePage, pgsize⟩

theorem onePageSpace_valid : onePageSpace.Valid where
  wf := onePage_wf
  sized := by
    intro v user
    simp only [onePageSpace, onePage]
    split
    · rename_i isFirst
      subst isFirst
      decide
    · rename_i notFirst
      have one_ : npages pgsize = 1 := by decide
      rw [one_]
      simp
      omega
  user := by decide

theorem growproc_exact_onePage : onePageSpace.Valid ∧ GrowsExactly onePageSpace (-1) ⟨[], []⟩ :=
  ⟨onePageSpace_valid, (growproc_exact_iff onePageSpace_valid (by decide) (by decide) ⟨[], []⟩).mpr
    (.inr (.inl (by decide)))⟩

/-- Giving back the only page fails, and the page is gone. -/
theorem growproc_gives_back_all :
    onePageSpace.Valid ∧ ¬GrowsExactly onePageSpace (-4096) ⟨[], []⟩ := by
  refine ⟨onePageSpace_valid, ?_⟩
  rintro ⟨r, p', m', ran, _, success, failure⟩
  obtain ⟨d', m'', ran', gone⟩ := grow_to_zero onePageSpace_valid (by decide) ⟨[], []⟩
  rw [show (-(onePageSpace.sz : Int)) = -4096 from rfl] at ran'
  rw [ran'] at ran
  cases ran
  have kept := (failure rfl).2 0 (by decide)
  rw [show onePageSpace.pgdir.pte 0 = some (.user 2 true true fun _ => 7) from rfl] at kept
  rw [gone] at kept
  cases kept

end Xv6.Vm
