import Xv6.Vm.PageTable

/-!
Growing an address space and undoing it.

Owns: where the pages are that `allocuvm` takes; that a failed call leaves every translation; and
that `deallocuvm` undoes a successful one.

Does not own: the loops (`Xv6.Vm.PageTable`); `sbrk` (`Xv6.Vm.Grow`).
-/

open scoped BigOperators

namespace Xv6.Vm

variable {Page : Type}

/-- No page is in two places. -/
def Distinct (pages : Multiset Page) : Prop :=
  ∀ page, ¬page ::ₘ page ::ₘ 0 ≤ pages

namespace PageDir

/-- The pages that hold the tables. -/
def tables (d : PageDir Page) : Multiset Page :=
  ∑ i ∈ Finset.range nptentries, one (d.table i)

/-- The user's pages. -/
def data (d : PageDir Page) : Multiset Page :=
  ∑ v ∈ Finset.range vpages, mapped (d.pte v)

/-- The pages from `v` to `last`. -/
def newPages (page : Nat → Page) (v last : Nat) : Multiset Page :=
  ∑ u ∈ Finset.Ico v last, {page u}

variable {d d' : PageDir Page} {m m' : Mem Page} {v last oldsz newsz : Nat} {page : Nat → Page}

theorem pages_eq (d : PageDir Page) : d.pages = {d.page} + d.tables + d.data := rfl

/-- The data pages of a table to which pages were added. -/
theorem Mapped.data {count : Nat} (what : Nat → Bool × Bool × Contents) (inside : v + count ≤ vpages)
    (mapped_ : Mapped d d' v count (filled what page))
    (unmapped : ∀ u, v ≤ u → u < v + count → d.pte u = none) :
    d'.data = d.data + newPages page v (v + count) := by
  have entry (u : Nat) : mapped (d'.pte u) =
      mapped (d.pte u) + if u ∈ Finset.Ico v (v + count) then {page u} else 0 := by
    rw [mapped_.pte]
    by_cases isNew : v ≤ u ∧ u < v + count
    · rw [if_pos isNew, if_pos (Finset.mem_Ico.mpr isNew), unmapped u isNew.1 isNew.2]
      exact (zero_add _).symm
    · rw [if_neg isNew, if_neg (fun member => isNew (Finset.mem_Ico.mp member)), add_zero]
  have subset : Finset.Ico v (v + count) ⊆ Finset.range vpages := by
    intro u member
    rw [Finset.mem_Ico] at member
    rw [Finset.mem_range]
    omega
  unfold PageDir.data newPages
  rw [Finset.sum_congr rfl fun u _ => entry u, Finset.sum_add_distrib, Finset.sum_ite_mem,
    Finset.inter_eq_right.mpr subset]

/-- Pages that are in one place each are different. -/
theorem newPages_injective {all : Multiset Page} (distinct : Distinct all)
    (part : newPages page v last ≤ all) {u w : Nat} (uInside : v ≤ u ∧ u < last)
    (wInside : v ≤ w ∧ w < last) (same : page u = page w) : u = w := by
  by_contra different
  have subset : ({u, w} : Finset Nat) ⊆ Finset.Ico v last := by
    intro x member
    rw [Finset.mem_insert, Finset.mem_singleton] at member
    rw [Finset.mem_Ico]
    rcases member with rfl | rfl
    · exact uInside
    · exact wInside
  have two := Finset.sum_le_sum_of_subset (f := fun x => ({page x} : Multiset Page)) subset
  rw [Finset.sum_pair different, same] at two
  exact distinct (page w) (le_trans two part)

/-! ## Failure and success -/

/-- No translation has changed, and no page but those of tables is missing from the free list. -/
structure Untouched (d d' : PageDir Page) (m m' : Mem Page) : Prop where
  pte : d'.pte = d.pte
  pool : m'.pool + d'.tables = m.pool + d.tables

/-- Zeroed pages were added, each a page of its own. -/
structure Added (d d' : PageDir Page) (v last : Nat) (page : Nat → Page) : Prop where
  pte : ∀ u, d'.pte u = if v ≤ u ∧ u < last then some (.user (page u) true true fun _ => 0) else d.pte u
  distinct : ∀ u w, v ≤ u ∧ u < last → v ≤ w ∧ w < last → page u = page w → u = w

/-- What two sums have in common around a part of them. -/
theorem cancel_around {a b page x y rest : Multiset Page}
    (same : a + (page + x + rest) = b + (page + y + rest)) : a + x = b + y := by
  have regroup (c z : Multiset Page) : c + (page + z + rest) = c + z + (page + rest) := by
    ac_rfl
  rw [regroup, regroup] at same
  exact add_right_cancel same

theorem cancel_added {a b common rest added : Multiset Page}
    (same : a + (common + rest) = b + (common + (rest + added))) : a = b + added := by
  have regroup : b + (common + (rest + added)) = b + added + (common + rest) := by
    ac_rfl
  rw [regroup] at same
  exact add_right_cancel same

theorem le_inner (a b c x : Multiset Page) : x ≤ a + (b + (c + x)) := by
  rw [← add_assoc, ← add_assoc]
  exact Multiset.le_add_left x _

theorem untouched_of_kept (page_ : d'.page = d.page) (pte : d'.pte = d.pte)
    (kept : m'.pool + d'.pages = m.pool + d.pages) : Untouched d d' m m' := by
  have data : d'.data = d.data := by
    unfold PageDir.data
    rw [pte]
  refine ⟨pte, ?_⟩
  rw [pages_eq, pages_eq, page_, data] at kept
  exact cancel_around kept

section Dealloc

variable (wf : d'.Wf) (le : oldsz ≤ newsz) (user : newsz < kernbase)
  (unmapped : ∀ u, npages oldsz ≤ u → u < npages oldsz + (npages newsz - npages oldsz) → d.pte u = none)
  (grown : Mapped d d' (npages oldsz) (npages newsz - npages oldsz) (fresh page))

include wf le user unmapped grown

/-- `deallocuvm` takes away what was added. -/
theorem deallocuvm_undoes (m' : Mem Page) : ∃ d'' m'',
    d'.deallocuvm newsz oldsz m' = some (oldsz, d'', m'') ∧ d''.pte = d.pte ∧
      m''.pool = m'.pool + newPages page (npages oldsz) (npages newsz) := by
  have more := npages_mono le
  have bound := npages_le_kernpage user.le
  have total : npages oldsz + (npages newsz - npages oldsz) = npages newsz := by omega
  rcases Nat.lt_or_eq_of_le le with less | rfl
  · obtain ⟨d'', m'', freed, _, cleared, kept⟩ := deallocuvm_spec wf less user.le m'
    have pte : d''.pte = d.pte := by
      funext u
      rw [cleared.pte, grown.pte, total]
      by_cases isNew : npages oldsz ≤ u ∧ u < npages newsz
      · rw [if_pos isNew]
        exact (unmapped u isNew.1 (by omega)).symm
      · rw [if_neg isNew, if_neg isNew]
    refine ⟨d'', m'', freed, pte, ?_⟩
    have inside : npages oldsz + (npages newsz - npages oldsz) ≤ vpages := by
      have high : kernpage ≤ vpages := by decide
      omega
    have data : d'.data = d''.data + newPages page (npages oldsz) (npages newsz) := by
      have added := Mapped.data (fun _ => (true, true, fun _ => 0)) inside grown unmapped
      rw [total] at added
      rw [added]
      unfold PageDir.data
      rw [pte]
    have tables : d''.tables = d'.tables := by
      unfold PageDir.tables
      rw [cleared.table]
    rw [pages_eq, pages_eq, cleared.page, tables, data] at kept
    exact cancel_added kept
  · refine ⟨d', m', ?_, ?_, ?_⟩
    · rw [deallocuvm, if_pos le_rfl]
    · funext u
      rw [grown.pte, if_neg (by omega)]
    · rw [newPages, Finset.Ico_self, Finset.sum_empty, add_zero]

end Dealloc

/-- Growing fails without a trace, or adds exactly the pages that are missing, and `deallocuvm`
takes exactly those away again. -/
theorem allocuvm_deallocuvm (wf : d.Wf)
    (bare : ∀ v, npages oldsz ≤ v → v < kernpage → d.pte v = none) (le : oldsz ≤ newsz) (m : Mem Page)
    (distinct : Distinct (m.pool + d.pages)) :
    ∃ r d' m', d.allocuvm oldsz newsz m = some (r, d', m') ∧ (r = 0 ∨ r = newsz) ∧
      (r = 0 → Untouched d d' m m') ∧
      (r = newsz → ∃ page, Added d d' (npages oldsz) (npages newsz) page ∧
        ∃ d'' m'', d'.deallocuvm newsz oldsz m' = some (oldsz, d'', m'') ∧ d''.pte = d.pte ∧
          m''.pool = m'.pool + newPages page (npages oldsz) (npages newsz)) := by
  have more := npages_mono le
  have total : npages oldsz + (npages newsz - npages oldsz) = npages newsz := by omega
  rcases allocuvm_outcomes wf bare m newsz with ⟨positive, d', m', failed, _, page_, same, kept⟩ |
    ⟨shrinks, _⟩ | ⟨_, user, page, d', m', grew, wf', grown, kept⟩
  · refine ⟨0, d', m', failed, .inl rfl, fun _ => untouched_of_kept page_ same kept, ?_⟩
    intro isZero
    omega
  · omega
  · have bound := npages_le_kernpage user.le
    have unmapped : ∀ u, npages oldsz ≤ u → u < npages oldsz + (npages newsz - npages oldsz) →
        d.pte u = none := fun u low high => bare u low (by omega)
    refine ⟨newsz, d', m', grew, .inr rfl, ?_, ?_⟩
    · rintro rfl
      refine untouched_of_kept grown.page ?_ kept
      funext u
      rw [grown.pte, if_neg]
      have none_ : npages 0 = 0 := by decide
      omega
    · intro _
      refine ⟨page, ⟨?_, ?_⟩, deallocuvm_undoes wf' le user unmapped grown m'⟩
      · intro u
        rw [grown.pte, total]
        rfl
      · intro u w uInside wInside
        have inside : npages oldsz + (npages newsz - npages oldsz) ≤ vpages := by
          have high : kernpage ≤ vpages := by decide
          omega
        have added := Mapped.data (fun _ => (true, true, fun _ => 0)) inside grown unmapped
        rw [total] at added
        have part : newPages page (npages oldsz) (npages newsz) ≤ m'.pool + d'.pages := by
          rw [pages_eq, added]
          exact le_inner _ _ _ _
        rw [kept] at part
        exact newPages_injective distinct part uInside wInside

end PageDir

/-- A page directory without tables. -/
def emptyDir : PageDir Nat :=
  ⟨0, fun _ => none, fun _ => none⟩

theorem emptyDir_wf : emptyDir.Wf :=
  ⟨fun _ _ => rfl, (fun _ _ _ h => nomatch h), fun _ _ _ _ _ h => nomatch h⟩

theorem emptyDir_pages : emptyDir.pages = {0} := by
  rw [PageDir.pages_of_sized_zero emptyDir_wf fun _ _ => rfl]
  have none_ : ∑ i ∈ Finset.range nptentries, one (emptyDir.table i) = 0 :=
    Finset.sum_eq_zero fun _ _ => rfl
  rw [none_]
  exact add_zero _

/-- One byte needs a page and a table. -/
theorem allocuvm_deallocuvm_emptyDir :
    ∃ r d' m', emptyDir.allocuvm 0 1 ⟨[1, 2], []⟩ = some (r, d', m') ∧ r = 1 ∧
      ∃ page, PageDir.Added emptyDir d' 0 1 page := by
  have distinct : Distinct ((⟨[1, 2], []⟩ : Mem Nat).pool + emptyDir.pages) := by
    rw [emptyDir_pages]
    exact Multiset.nodup_iff_le.mp (by decide)
  obtain ⟨r, d', m', ran, _, _, grows⟩ := PageDir.allocuvm_deallocuvm (d := emptyDir) emptyDir_wf
    (fun _ _ _ => rfl) (Nat.zero_le 1) ⟨[1, 2], []⟩ distinct
  have isOne : r = 1 := congrArg (fun result => (result.map Prod.fst).getD 0) ran.symm
  obtain ⟨page, added, _⟩ := grows isOne
  exact ⟨r, d', m', ran, isOne, page, added⟩

/-- A page directory with one table and one user page. -/
def onePage : PageDir Nat :=
  ⟨0, fun i => if i = 0 then some 1 else none,
    fun v => if v = 0 then some (.user 2 true true fun _ => 7) else none⟩

theorem onePage_wf : onePage.Wf := by
  refine ⟨?_, ?_, ?_⟩
  · intro v missing
    have different : v ≠ 0 := by
      rintro rfl
      cases missing
    exact if_neg different
  · intro v pa w entry
    simp only [onePage] at entry
    split at entry <;> cases entry
  · intro v page w u data entry
    by_cases isZero : v = 0
    · rw [isZero]
      decide
    · cases (if_neg isZero).symm.trans entry

end Xv6.Vm
