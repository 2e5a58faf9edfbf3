import Xv6.Lib.Tally

/-!
Page tables.

Owns: `kalloc` and `kfree` on the free list; page tables as a process has them, with the pages
they are made of and the contents of the user pages; the functions of `vm.c` that build, grow,
shrink and free them; and what each function maps and where every page is afterwards.

Does not own: who calls them (`Xv6.Vm.Grow`, `Xv6.Vm.Exec`).

A page is named and carries its contents while it is mapped; that no page is in two places at
once is what `PageDir.pages` counts. A directory and its tables are two maps: the page of each
table, and the entry of each virtual page. A panic has no result.
-/

open scoped BigOperators

namespace Xv6.Vm

open Function (update_self update_of_ne)

def pgsize : Nat := 4096

/-- Entries of a page table, and of a page directory. -/
def nptentries : Nat := 1024

def kernbase : Nat := 0x80000000

def phystop : Nat := 0xE000000

def devspace : Nat := 0xFE000000

/-- The pages it takes to hold `sz` bytes: `PGROUNDUP(sz) / PGSIZE`. -/
def npages (sz : Nat) : Nat :=
  (sz + pgsize - 1) / pgsize

def pgroundup (sz : Nat) : Nat :=
  npages sz * pgsize

/-- The first virtual page of the kernel. -/
def kernpage : Nat := kernbase / pgsize

/-- The number of virtual pages. -/
def vpages : Nat := 2 ^ 20

variable {Page : Type}

/-! ## The allocator -/

structure Mem (Page : Type) where
  free : List Page
  /-- For each coming call of `kalloc`, whether other processes have all pages just then. -/
  refuses : List Bool

def kalloc (m : Mem Page) : Option Page × Mem Page :=
  match m.refuses, m.free with
  | true :: rest, free => (none, ⟨free, rest⟩)
  | refuses, [] => (none, ⟨[], refuses.tail⟩)
  | refuses, page :: free => (some page, ⟨free, refuses.tail⟩)

def kfree (page : Page) (m : Mem Page) : Mem Page :=
  { m with free := page :: m.free }

/-! ## Page tables -/

abbrev Contents := Nat → UInt8

inductive Pte (Page : Type) where
  | kernel (pa : Nat) (w : Bool)
  | user (page : Page) (w u : Bool) (data : Contents)

/-- The page of the allocator that an entry maps. -/
def Pte.page : Pte Page → Option Page
  | .kernel _ _ => none
  | .user page _ _ _ => some page

structure PageDir (Page : Type) where
  page : Page
  table : Nat → Option Page
  pte : Nat → Option (Pte Page)

namespace PageDir

/-- A new table, zeroed. -/
def addTable (d : PageDir Page) (i : Nat) (table : Page) : PageDir Page :=
  { d with
    table := Function.update d.table i (some table)
    pte := fun v => if v / nptentries = i then none else d.pte v }

def setPte (d : PageDir Page) (v : Nat) (pte : Option (Pte Page)) : PageDir Page :=
  { d with pte := Function.update d.pte v pte }

/-- `walkpgdir(pgdir, va, 1)`: whether there is an entry for the page. -/
def walkAlloc (d : PageDir Page) (v : Nat) (m : Mem Page) : Bool × PageDir Page × Mem Page :=
  match d.table (v / nptentries) with
  | some _ => (true, d, m)
  | none =>
    match kalloc m with
    | (none, m) => (false, d, m)
    | (some table, m) => (true, d.addTable (v / nptentries) table, m)

/-- The loop of `mappages` over `count` pages, and whether it mapped them all; the panic is
"remap". -/
def mappages (entry : Nat → Pte Page) :
    Nat → Nat → PageDir Page → Mem Page → Option (Bool × PageDir Page × Mem Page)
  | 0, _, d, m => some (true, d, m)
  | count + 1, v, d, m =>
    match d.walkAlloc v m with
    | (false, d, m) => some (false, d, m)
    | (true, d, m) =>
      if (d.pte v).isSome then none
      else mappages entry count (v + 1) (d.setPte v (some (entry v))) m

/-- The loop of `deallocuvm` from page `v`. Where there is no table it goes on at the next one. -/
def deallocFrom : Nat → Nat → Nat → PageDir Page → Mem Page → Option (PageDir Page × Mem Page)
  | 0, _, _, d, m => some (d, m)
  | fuel + 1, v, last, d, m =>
    if v < last then
      match d.table (v / nptentries) with
      | none => deallocFrom fuel ((v / nptentries + 1) * nptentries) last d m
      | some _ =>
        match d.pte v with
        | none => deallocFrom fuel (v + 1) last d m
        | some (.kernel _ _) => none
        | some (.user page _ _ _) =>
          deallocFrom fuel (v + 1) last (d.setPte v none) (kfree page m)
    else some (d, m)

def deallocuvm (d : PageDir Page) (oldsz newsz : Nat) (m : Mem Page) :
    Option (Nat × PageDir Page × Mem Page) :=
  if oldsz ≤ newsz then some (oldsz, d, m)
  else
    (deallocFrom (npages oldsz) (npages newsz) (npages oldsz) d m).map fun rest => (newsz, rest)

/-- How the loop of `allocuvm` ends; without a table it still has the page it wanted to map. -/
inductive Alloc (Page : Type) where
  | done
  | noPage
  | noTable (mem : Page)

def allocFrom : Nat → Nat → PageDir Page → Mem Page → Option (Alloc Page × PageDir Page × Mem Page)
  | 0, _, d, m => some (.done, d, m)
  | count + 1, v, d, m =>
    match kalloc m with
    | (none, m) => some (.noPage, d, m)
    | (some page, m) =>
      match mappages (fun _ => .user page true true fun _ => 0) 1 v d m with
      | none => none
      | some (false, d, m) => some (.noTable page, d, m)
      | some (true, d, m) => allocFrom count (v + 1) d m

/-- The new size, or 0. -/
def allocuvm (d : PageDir Page) (oldsz newsz : Nat) (m : Mem Page) :
    Option (Nat × PageDir Page × Mem Page) :=
  if kernbase ≤ newsz then some (0, d, m)
  else if newsz < oldsz then some (oldsz, d, m)
  else
    match allocFrom (npages newsz - npages oldsz) (npages oldsz) d m with
    | none => none
    | some (.done, d, m) => some (newsz, d, m)
    | some (.noPage, d, m) => (d.deallocuvm newsz oldsz m).map fun rest => (0, rest.2)
    | some (.noTable mem, d, m) =>
      (d.deallocuvm newsz oldsz m).map fun rest => (0, rest.2.1, kfree mem rest.2.2)

/-- The loop of `freevm` over the directory. -/
def freeTables (d : PageDir Page) (m : Mem Page) : Mem Page :=
  (List.range nptentries).foldl
    (fun m i =>
      match d.table i with
      | none => m
      | some table => kfree table m) m

def freevm (d : PageDir Page) (m : Mem Page) : Option (Mem Page) :=
  (d.deallocuvm kernbase 0 m).map fun rest => kfree rest.2.1.page (rest.2.1.freeTables rest.2.2)

end PageDir

/-- Where the linker has put the kernel's data: its physical page. -/
structure KernelMap where
  data : Nat
  afterText : 256 < data
  inMemory : data < phystop / pgsize

/-- `kmap`: the first virtual page, the number of pages, the first physical page, and whether
they are writable. -/
def KernelMap.kmap (k : KernelMap) : List (Nat × Nat × Nat × Bool) :=
  [(kernpage, 256, 0, true),
    (kernpage + 256, k.data - 256, 256, false),
    (kernpage + k.data, phystop / pgsize - k.data, k.data, true),
    (devspace / pgsize, vpages - devspace / pgsize, devspace / pgsize, true)]

/-- The loop of `setupkvm` over `kmap`, and whether all of it was mapped. -/
def mapKernel : List (Nat × Nat × Nat × Bool) → PageDir Page → Mem Page →
    Option (Bool × PageDir Page × Mem Page)
  | [], d, m => some (true, d, m)
  | (v, count, pa, w) :: rest, d, m =>
    match d.mappages (fun u => .kernel (pa + (u - v)) w) count v m with
    | none => none
    | some (false, d, m) => some (false, d, m)
    | some (true, d, m) => mapKernel rest d m

def setupkvm (k : KernelMap) (m : Mem Page) : Option (Option (PageDir Page) × Mem Page) :=
  match kalloc m with
  | (none, m) => some (none, m)
  | (some page, m) =>
    match mapKernel k.kmap ⟨page, fun _ => none, fun _ => none⟩ m with
    | none => none
    | some (false, d, m) => (d.freevm m).map fun m => (none, m)
    | some (true, d, m) => some (some d, m)

/-! ## Where the pages are -/

/-- A page, or none. -/
def one : Option Page → Multiset Page
  | none => 0
  | some page => {page}

/-- The pages of the free list. -/
def Mem.pool (m : Mem Page) : Multiset Page :=
  m.free

theorem pool_kfree (page : Page) (m : Mem Page) : (kfree page m).pool = m.pool + {page} := by
  show ((page :: m.free : List Page) : Multiset Page) = m.free + {page}
  rw [← Multiset.cons_coe, ← Multiset.singleton_add, add_comm]

/-- What `kalloc` can do. -/
theorem kalloc_cases (m : Mem Page) :
    (∃ m', kalloc m = (none, m') ∧ m'.pool = m.pool) ∨
      ∃ page m', kalloc m = (some page, m') ∧ m.pool = m'.pool + {page} := by
  have taken (page : Page) (free : List Page) :
      ((page :: free : List Page) : Multiset Page) = free + {page} := by
    rw [← Multiset.cons_coe, ← Multiset.singleton_add, add_comm]
  obtain ⟨free, refuses⟩ := m
  match refuses, free with
  | true :: rest, free => exact .inl ⟨⟨free, rest⟩, rfl, rfl⟩
  | [], [] => exact .inl ⟨⟨[], []⟩, rfl, rfl⟩
  | false :: rest, [] => exact .inl ⟨⟨[], rest⟩, rfl, rfl⟩
  | [], page :: free => exact .inr ⟨page, ⟨free, []⟩, rfl, taken page free⟩
  | false :: rest, page :: free => exact .inr ⟨page, ⟨free, rest⟩, rfl, taken page free⟩

variable {i count sz oldsz : Nat} {d d' : PageDir Page}

namespace PageDir

/-- The page an entry maps, if it is one of the allocator's. -/
def mapped (pte : Option (Pte Page)) : Multiset Page :=
  one (pte.bind Pte.page)

/-- All pages that a page table is made of or maps. -/
def pages (d : PageDir Page) : Multiset Page :=
  {d.page} + ∑ i ∈ Finset.range nptentries, one (d.table i) +
    ∑ v ∈ Finset.range vpages, mapped (d.pte v)

/-- An entry is in a table; user pages are below the kernel, and the kernel's above. -/
structure Wf (d : PageDir Page) : Prop where
  table : ∀ v, d.table (v / nptentries) = none → d.pte v = none
  user : ∀ v pa w, d.pte v = some (.kernel pa w) → kernpage ≤ v
  kernel : ∀ v page w u data, d.pte v = some (.user page w u data) → v < kernpage

variable {d : PageDir Page} {m : Mem Page} {v : Nat}

theorem pages_setPte (d : PageDir Page) (inside : v < vpages) (pte : Option (Pte Page)) :
    (d.setPte v pte).pages + mapped (d.pte v) = d.pages + mapped pte := by
  have others : ∀ u ∈ Finset.range vpages, u ≠ v →
      mapped ((d.setPte v pte).pte u) = mapped (d.pte u) := by
    intro u _ different
    simp only [setPte, update_of_ne different]
  have changed := Tally.sum_change_on (Finset.mem_range.mpr inside) others
  have stored : (d.setPte v pte).pte v = pte := update_self _ _ _
  rw [stored] at changed
  show {d.page} + ∑ i ∈ Finset.range nptentries, one (d.table i) +
    ∑ u ∈ Finset.range vpages, mapped ((d.setPte v pte).pte u) + mapped (d.pte v) = _
  rw [add_assoc, changed, ← add_assoc]
  rfl

theorem addTable_pte (wf : d.Wf) (absent : d.table i = none) (table : Page) :
    (d.addTable i table).pte = d.pte := by
  funext u
  simp only [addTable]
  split
  · rename_i same
    rw [wf.table u (by rw [same]; exact absent)]
  · rfl

theorem pages_addTable (wf : d.Wf) (inside : i < nptentries) (absent : d.table i = none)
    (table : Page) : (d.addTable i table).pages = d.pages + {table} := by
  have others : ∀ j ∈ Finset.range nptentries, j ≠ i →
      one ((d.addTable i table).table j) = one (d.table j) := by
    intro j _ different
    simp only [addTable, update_of_ne different]
  have changed := Tally.sum_change_on (Finset.mem_range.mpr inside) others
  have stored : (d.addTable i table).table i = some table := update_self _ _ _
  rw [stored, absent, show (one none : Multiset Page) = 0 from rfl, add_zero,
    show one (some table) = {table} from rfl] at changed
  unfold pages
  rw [addTable_pte wf absent table, changed, show (d.addTable i table).page = d.page from rfl,
    ← add_assoc, add_right_comm]

theorem Wf.addTable (wf : d.Wf) (absent : d.table i = none) (table : Page) :
    (d.addTable i table).Wf := by
  have same := addTable_pte wf absent table
  refine ⟨?_, ?_, ?_⟩
  · intro u noTable
    rw [same]
    apply wf.table
    by_cases isNew : u / nptentries = i
    · rw [isNew]
      exact absent
    · simpa [PageDir.addTable, update_of_ne isNew] using noTable
  · rw [same]
    exact wf.user
  · rw [same]
    exact wf.kernel

/-- The entry is of the kind that belongs at the page. -/
def Fits (v : Nat) : Pte Page → Prop
  | .kernel _ _ => kernpage ≤ v
  | .user _ _ _ _ => v < kernpage

theorem Wf.setPte (wf : d.Wf) {pte : Pte Page} (table : d.table (v / nptentries) ≠ none)
    (fits : Fits v pte) : (d.setPte v (some pte)).Wf := by
  have entry (u : Nat) : (d.setPte v (some pte)).pte u = if u = v then some pte else d.pte u := by
    simp only [PageDir.setPte, Function.update_apply]
  refine ⟨?_, ?_, ?_⟩
  · intro u noTable
    rw [entry]
    split
    · rename_i same
      exact absurd noTable (same ▸ table)
    · exact wf.table u noTable
  · intro u pa w isKernel
    rw [entry] at isKernel
    split at isKernel
    · rename_i same
      cases isKernel
      exact same ▸ fits
    · exact wf.user u pa w isKernel
  · intro u page w user data isUser
    rw [entry] at isUser
    split at isUser
    · rename_i same
      cases isUser
      exact same ▸ fits
    · exact wf.kernel u page w user data isUser

theorem Wf.clear (wf : d.Wf) (v : Nat) : (d.setPte v none).Wf := by
  have entry (u : Nat) : (d.setPte v none).pte u = if u = v then none else d.pte u := by
    simp only [PageDir.setPte, Function.update_apply]
  refine ⟨?_, ?_, ?_⟩
  · intro u noTable
    rw [entry, wf.table u noTable, ite_self]
  · intro u pa w isKernel
    rw [entry, Option.ite_none_left_eq_some] at isKernel
    exact wf.user u pa w isKernel.2
  · intro u page w user data isUser
    rw [entry, Option.ite_none_left_eq_some] at isUser
    exact wf.kernel u page w user data isUser.2

/-! ## Mapping pages -/

/-- The pages from `v` on are mapped as `entry` says, in tables that are there or new. -/
structure Mapped (d d' : PageDir Page) (v count : Nat) (entry : Nat → Pte Page) : Prop where
  page : d'.page = d.page
  pte : ∀ u, d'.pte u = if v ≤ u ∧ u < v + count then some (entry u) else d.pte u
  table : ∀ i, (d'.table i).isSome = true ↔
    (d.table i).isSome = true ∨ ∃ u, v ≤ u ∧ u < v + count ∧ u / nptentries = i

theorem Mapped.refl (d : PageDir Page) (v : Nat) (entry : Nat → Pte Page) : Mapped d d v 0 entry where
  page := rfl
  pte := by
    intro u
    rw [if_neg (by omega)]
  table := by
    intro i
    constructor
    · exact .inl
    · rintro (old | ⟨u, low, high, _⟩)
      · exact old
      · omega

theorem Mapped.cons {d'' : PageDir Page} {v : Nat} {entry : Nat → Pte Page}
    (first : Mapped d d' v 1 entry) (rest : Mapped d' d'' (v + 1) count entry) :
    Mapped d d'' v (count + 1) entry where
  page := rest.page.trans first.page
  pte := by
    intro u
    rw [rest.pte, first.pte]
    by_cases isFirst : u = v
    · rw [if_neg (by omega), if_pos (by omega), if_pos (by omega)]
    · by_cases inside : v + 1 ≤ u ∧ u < v + 1 + count
      · rw [if_pos inside, if_pos (by omega)]
      · rw [if_neg inside, if_neg (by omega), if_neg (by omega)]
  table := by
    intro i
    rw [rest.table, first.table]
    constructor
    · rintro ((old | ⟨u, low, high, same⟩) | ⟨u, low, high, same⟩)
      · exact .inl old
      · exact .inr ⟨u, low, by omega, same⟩
      · exact .inr ⟨u, by omega, by omega, same⟩
    · rintro (old | ⟨u, low, high, same⟩)
      · exact .inl (.inl old)
      · by_cases isFirst : u = v
        · exact .inl (.inr ⟨u, low, by omega, same⟩)
        · exact .inr ⟨u, by omega, by omega, same⟩

theorem div_nptentries {u : Nat} (inside : u < vpages) : u / nptentries < nptentries := by
  unfold vpages at inside
  unfold nptentries
  omega

/-- `walkpgdir` with `alloc` finds or makes a table, and maps nothing. -/
theorem walkAlloc_cases (wf : d.Wf) (inside : v < vpages) (m : Mem Page) :
    (∃ m', d.walkAlloc v m = (false, d, m') ∧ m'.pool = m.pool) ∨
      ∃ d' m', d.walkAlloc v m = (true, d', m') ∧ d'.Wf ∧ d'.page = d.page ∧ d'.pte = d.pte ∧
        (∀ i, (d'.table i).isSome = true ↔ (d.table i).isSome = true ∨ i = v / nptentries) ∧
        m'.pool + d'.pages = m.pool + d.pages := by
  unfold walkAlloc
  cases present : d.table (v / nptentries) with
  | some table =>
    refine .inr ⟨d, m, rfl, wf, rfl, rfl, ?_, rfl⟩
    intro i
    constructor
    · exact .inl
    · rintro (old | rfl)
      · exact old
      · rw [present]
        rfl
  | none =>
    rcases kalloc_cases m with ⟨m', refused, same⟩ | ⟨table, m', found, taken⟩
    · rw [refused]
      exact .inl ⟨m', rfl, same⟩
    · rw [found]
      refine .inr ⟨_, m', rfl, wf.addTable present table, rfl, addTable_pte wf present table, ?_, ?_⟩
      · intro i
        by_cases isNew : i = v / nptentries
        · simp [addTable, isNew]
        · simp [addTable, isNew]
      · rw [pages_addTable wf (div_nptentries inside) present, taken, add_assoc,
          add_comm d.pages]

/-- Mapping one page. -/
theorem mappages_one (wf : d.Wf) (inside : v < vpages) (unmapped : d.pte v = none)
    (entry : Nat → Pte Page) (fits : Fits v (entry v)) (m : Mem Page) :
    (∃ m', d.mappages entry 1 v m = some (false, d, m') ∧ m'.pool = m.pool) ∨
      ∃ d' m', d.mappages entry 1 v m = some (true, d', m') ∧ d'.Wf ∧ Mapped d d' v 1 entry ∧
        m'.pool + d'.pages = m.pool + d.pages + one (entry v).page := by
  unfold mappages
  rcases walkAlloc_cases wf inside m with ⟨m', walked, same⟩ | ⟨d', m', walked, wf', page, pte, tables, kept⟩
  · rw [walked]
    exact .inl ⟨m', rfl, same⟩
  · rw [walked]
    have free : d'.pte v = none := by rw [pte, unmapped]
    have table : d'.table (v / nptentries) ≠ none := by
      have isSome := (tables (v / nptentries)).mpr (.inr rfl)
      intro none_
      rw [none_] at isSome
      cases isSome
    simp only [free, Option.isSome_none, Bool.false_eq_true, if_false, mappages]
    refine .inr ⟨_, m', rfl, wf'.setPte table fits, ⟨page, ?_, ?_⟩, ?_⟩
    · intro u
      by_cases same : u = v
      · subst same
        rw [if_pos (by omega)]
        exact update_self _ _ _
      · rw [if_neg (by omega), ← pte]
        exact update_of_ne same _ _
    · intro i
      rw [show (d'.setPte v (some (entry v))).table = d'.table from rfl, tables]
      constructor
      · rintro (old | rfl)
        · exact .inl old
        · exact .inr ⟨v, le_rfl, by omega, rfl⟩
      · rintro (old | ⟨u, low, high, rfl⟩)
        · exact .inl old
        · obtain rfl : u = v := by omega
          exact .inr rfl
    · have stored := d'.pages_setPte inside (some (entry v))
      rw [free] at stored
      have pages : (d'.setPte v (some (entry v))).pages = d'.pages + one (entry v).page := by
        rw [← show mapped (some (entry v)) = one (entry v).page from rfl, ← stored]
        exact (add_zero _).symm
      rw [pages, ← add_assoc, kept]

theorem mappages_succ (entry : Nat → Pte Page) (count : Nat) (d : PageDir Page) (m : Mem Page) :
    d.mappages entry (count + 1) v m =
      match d.mappages entry 1 v m with
      | none => none
      | some (false, d, m) => some (false, d, m)
      | some (true, d, m) => d.mappages entry count (v + 1) m := by
  rw [mappages, mappages]
  split
  · rfl
  · split
    · rfl
    · rfl

/-- Mapping pages that are not the allocator's. A failure leaves the pages that are mapped by
then. -/
theorem mappages_kernel (entry : Nat → Pte Page) (wf : d.Wf) (inside : v + count ≤ vpages)
    (unmapped : ∀ u, v ≤ u → u < v + count → d.pte u = none)
    (fits : ∀ u, v ≤ u → u < v + count → Fits u (entry u)) (notOurs : ∀ u, (entry u).page = none)
    (m : Mem Page) :
    ∃ all d' m', d.mappages entry count v m = some (all, d', m') ∧ d'.Wf ∧
      m'.pool + d'.pages = m.pool + d.pages ∧ (all = true → Mapped d d' v count entry) := by
  induction count generalizing v d m with
  | zero => exact ⟨true, d, m, rfl, wf, rfl, fun _ => Mapped.refl d v entry⟩
  | succ count ih =>
    have oneStep := mappages_one wf (by omega) (unmapped v le_rfl (by omega)) entry
      (fits v le_rfl (by omega)) m
    rw [mappages_succ]
    rcases oneStep with ⟨m', failed, same⟩ | ⟨d', m', mapped, wf', first, kept⟩
    · rw [failed]
      exact ⟨false, d, m', rfl, wf, by rw [same], fun h => nomatch h⟩
    · rw [mapped]
      have unmapped' : ∀ u, v + 1 ≤ u → u < v + 1 + count → d'.pte u = none := by
        intro u low high
        rw [first.pte, if_neg (by omega)]
        exact unmapped u (by omega) (by omega)
      obtain ⟨all, d'', m'', rest, wf'', kept', restMapped⟩ := ih wf' (by omega)
        unmapped' (fun u low high => fits u (by omega) (by omega)) m'
      refine ⟨all, d'', m'', rest, wf'', ?_, fun isAll => first.cons (restMapped isAll)⟩
      rw [kept', kept, notOurs]
      exact add_zero _

/-! ## Freeing pages -/

/-- The user pages from `v` to `last` are no longer mapped. -/
structure Cleared (d d' : PageDir Page) (v last : Nat) : Prop where
  page : d'.page = d.page
  table : d'.table = d.table
  pte : ∀ u, d'.pte u = if v ≤ u ∧ u < last then none else d.pte u

theorem Cleared.skip {v w last : Nat} (less : v ≤ w) (absent : ∀ u, v ≤ u → u < w → d.pte u = none)
    (rest : Cleared d d' w last) : Cleared d d' v last where
  page := rest.page
  table := rest.table
  pte := by
    intro u
    rw [rest.pte]
    by_cases later : w ≤ u
    · simp only [later, le_trans less later, true_and]
    · by_cases inside : v ≤ u ∧ u < last
      · rw [if_neg (by omega), if_pos inside]
        exact absent u inside.1 (by omega)
      · rw [if_neg (by omega), if_neg inside]

theorem Cleared.step {v last : Nat} (less : v < last)
    (rest : Cleared (d.setPte v none) d' (v + 1) last) : Cleared d d' v last where
  page := rest.page
  table := rest.table
  pte := by
    intro u
    rw [rest.pte]
    by_cases isFirst : u = v
    · subst isFirst
      rw [if_neg (by omega), if_pos (by omega)]
      exact update_self _ _ _
    · have others : (d.setPte v none).pte u = d.pte u := update_of_ne isFirst _ _
      rw [others]
      by_cases inside : v ≤ u ∧ u < last
      · rw [if_pos inside, if_pos (by omega)]
      · rw [if_neg inside, if_neg (by omega)]

theorem deallocFrom_spec {fuel last : Nat} (wf : d.Wf) (user : last ≤ kernpage)
    (enough : last ≤ v + fuel) (m : Mem Page) :
    ∃ d' m', deallocFrom fuel v last d m = some (d', m') ∧ d'.Wf ∧ Cleared d d' v last ∧
      m'.pool + d'.pages = m.pool + d.pages := by
  have nothing (past : last ≤ v) : Cleared d d v last :=
    ⟨rfl, rfl, fun u => by rw [if_neg (by omega)]⟩
  induction fuel generalizing v d m with
  | zero => exact ⟨d, m, rfl, wf, nothing (by omega), rfl⟩
  | succ fuel ih =>
    rw [deallocFrom]
    split
    next less =>
      split
      next absent =>
        -- no table: every page up to the next one is unmapped
        have ahead : v < (v / nptentries + 1) * nptentries := by
          unfold nptentries
          omega
        obtain ⟨d', m', freed, wf', cleared, kept⟩ := ih
          (v := (v / nptentries + 1) * nptentries) wf (by omega) m
          (fun past => ⟨rfl, rfl, fun u => by rw [if_neg (by omega)]⟩)
        refine ⟨d', m', freed, wf', cleared.skip ahead.le ?_, kept⟩
        intro u low high
        have same : u / nptentries = v / nptentries := by
          unfold nptentries at high ⊢
          omega
        exact wf.table u (by rw [same]; exact absent)
      next table present =>
        cases entry : d.pte v with
        | none =>
          obtain ⟨d', m', freed, wf', cleared, kept⟩ := ih
            (v := v + 1) wf (by omega) m
            (fun past => ⟨rfl, rfl, fun u => by rw [if_neg (by omega)]⟩)
          refine ⟨d', m', freed, wf', cleared.skip (Nat.le_succ v) ?_, kept⟩
          intro u low high
          obtain rfl : u = v := by omega
          exact entry
        | some pte =>
          cases pte with
          | kernel pa w => exact absurd (wf.user v pa w entry) (by omega)
          | user page w u data =>
            obtain ⟨d', m', freed, wf', cleared, kept⟩ := ih
              (v := v + 1) (wf.clear v) (by omega) (kfree page m)
              (fun past => ⟨rfl, rfl, fun u => by rw [if_neg (by omega)]⟩)
            refine ⟨d', m', freed, wf', cleared.step less, ?_⟩
            have bound : v < vpages := lt_of_lt_of_le (lt_of_lt_of_le less user) (by decide)
            have pages := d.pages_setPte bound none
            rw [entry] at pages
            have moved : (d.setPte v none).pages + {page} = d.pages :=
              pages.trans (add_zero _)
            rw [kept, pool_kfree, ← moved, add_right_comm, add_assoc]
    next past => exact ⟨d, m, rfl, wf, nothing (by omega), rfl⟩

theorem npages_mono {a b : Nat} (le : a ≤ b) : npages a ≤ npages b :=
  Nat.div_le_div_right (by unfold pgsize; omega)

theorem npages_le_kernpage (le : sz ≤ kernbase) : npages sz ≤ kernpage := by
  unfold npages kernpage kernbase pgsize at *
  omega

theorem deallocuvm_spec {newsz : Nat} (wf : d.Wf) (less : newsz < oldsz) (user : oldsz ≤ kernbase)
    (m : Mem Page) :
    ∃ d' m', d.deallocuvm oldsz newsz m = some (newsz, d', m') ∧ d'.Wf ∧
      Cleared d d' (npages newsz) (npages oldsz) ∧ m'.pool + d'.pages = m.pool + d.pages := by
  obtain ⟨d', m', freed, wf', cleared, kept⟩ := deallocFrom_spec (v := npages newsz) wf
    (npages_le_kernpage user) (Nat.le_add_left (npages oldsz) (npages newsz)) m
  refine ⟨d', m', ?_, wf', cleared, kept⟩
  rw [deallocuvm, if_neg (by omega), freed]
  rfl

/-! ## Adding pages -/

/-- A new user page: writable, and zeroed. -/
def fresh (page : Nat → Page) (u : Nat) : Pte Page :=
  .user (page u) true true fun _ => 0

/-- The page that the loop of `allocuvm` still has in its hands. -/
def inHand : Alloc Page → Multiset Page
  | .done => 0
  | .noPage => 0
  | .noTable mem => {mem}

/-- Each page from `v` on is allocated and mapped with what `look` finds for it: the loops of
`allocuvm` and `copyuvm`. -/
def fillFrom (look : Nat → Option (Bool × Bool × Contents)) :
    Nat → Nat → PageDir Page → Mem Page → Option (Alloc Page × PageDir Page × Mem Page)
  | 0, _, d, m => some (.done, d, m)
  | count + 1, v, d, m =>
    match look v with
    | none => none
    | some (w, u, data) =>
      match kalloc m with
      | (none, m) => some (.noPage, d, m)
      | (some page, m) =>
        match mappages (fun _ => .user page w u data) 1 v d m with
        | none => none
        | some (false, d, m) => some (.noTable page, d, m)
        | some (true, d, m) => fillFrom look count (v + 1) d m

theorem allocFrom_eq (count v : Nat) (d : PageDir Page) (m : Mem Page) :
    allocFrom count v d m = fillFrom (fun _ => some (true, true, fun _ => 0)) count v d m := by
  induction count generalizing v d m with
  | zero => rfl
  | succ count ih =>
    rw [allocFrom, fillFrom]
    dsimp only
    split
    · rfl
    · split
      · rfl
      · rfl
      · exact ih _ _ _

/-- A user page with what was found for it. -/
def filled (what : Nat → Bool × Bool × Contents) (page : Nat → Page) (u : Nat) : Pte Page :=
  .user (page u) (what u).1 (what u).2.1 (what u).2.2

/-- Mapping one page by hand and the rest by the loop. -/
theorem Mapped.consFilled {d'' : PageDir Page} {page : Page} {pages : Nat → Page}
    {what : Nat → Bool × Bool × Contents}
    (first : Mapped d d' v 1 fun _ => .user page (what v).1 (what v).2.1 (what v).2.2)
    (rest : Mapped d' d'' (v + 1) count (filled what pages)) :
    Mapped d d'' v (count + 1) (filled what (Function.update pages v page)) := by
  have firstFilled : Mapped d d' v 1 (filled what (Function.update pages v page)) := by
    refine ⟨first.page, ?_, first.table⟩
    intro u
    rw [first.pte]
    split
    · obtain rfl : u = v := by omega
      rw [filled, update_self]
    · rfl
  refine firstFilled.cons ⟨rest.page, ?_, rest.table⟩
  intro u
  rw [rest.pte]
  split
  · rw [filled, filled, update_of_ne (by omega)]
  · rfl

theorem fillFrom_spec {look : Nat → Option (Bool × Bool × Contents)}
    (what : Nat → Bool × Bool × Contents) (wf : d.Wf) (user : v + count ≤ kernpage)
    (found : ∀ u, v ≤ u → u < v + count → look u = some (what u))
    (unmapped : ∀ u, v ≤ u → u < v + count → d.pte u = none) (m : Mem Page) :
    ∃ out d' m', fillFrom look count v d m = some (out, d', m') ∧ d'.Wf ∧ d'.page = d.page ∧
      (∀ u, ¬(v ≤ u ∧ u < v + count) → d'.pte u = d.pte u) ∧
      m'.pool + inHand out + d'.pages = m.pool + d.pages ∧
      (out = .done → ∃ page, Mapped d d' v count (filled what page)) := by
  induction count generalizing v d m with
  | zero =>
    refine ⟨.done, d, m, rfl, wf, rfl, fun _ _ => rfl, by rw [inHand, add_zero], ?_⟩
    exact fun _ => ⟨fun _ => d.page, Mapped.refl d v _⟩
  | succ count ih =>
    rw [fillFrom, found v le_rfl (by omega)]
    dsimp only
    rcases kalloc_cases m with ⟨m', refused, same⟩ | ⟨page, m', taken_, taken⟩
    · rw [refused]
      exact ⟨.noPage, d, m', rfl, wf, rfl, fun _ _ => rfl, by rw [inHand, add_zero, same],
        fun h => nomatch h⟩
    · rw [taken_]
      have inside : v < vpages := lt_of_lt_of_le (by omega : v < kernpage) (by decide)
      rcases mappages_one wf inside (unmapped v le_rfl (by omega))
        (fun _ => .user page (what v).1 (what v).2.1 (what v).2.2) (show v < kernpage by omega) m' with
        ⟨m'', failed, same⟩ | ⟨d', m'', mapped, wf', first, kept⟩
      · simp only [failed]
        exact ⟨.noTable page, d, m'', rfl, wf, rfl, fun _ _ => rfl, by rw [inHand, same, ← taken],
          fun h => nomatch h⟩
      · simp only [mapped]
        have unmapped' : ∀ u, v + 1 ≤ u → u < v + 1 + count → d'.pte u = none := by
          intro u low high
          rw [first.pte, if_neg (by omega)]
          exact unmapped u (by omega) (by omega)
        obtain ⟨out, d'', m₃, rest, wf'', page_, others, kept', all⟩ :=
          ih wf' (by omega) (fun u low high => found u (by omega) (by omega))
            unmapped' m''
        refine ⟨out, d'', m₃, rest, wf'', page_.trans first.page, ?_, ?_, ?_⟩
        · intro u outside
          rw [others u (by omega), first.pte, if_neg (by omega)]
        · rw [kept', kept, taken]
          exact add_right_comm _ _ _
        · intro isDone
          obtain ⟨pages, restMapped⟩ := all isDone
          exact ⟨_, first.consFilled restMapped⟩

theorem allocFrom_spec (wf : d.Wf) (user : v + count ≤ kernpage)
    (unmapped : ∀ u, v ≤ u → u < v + count → d.pte u = none) (m : Mem Page) :
    ∃ out d' m', allocFrom count v d m = some (out, d', m') ∧ d'.Wf ∧ d'.page = d.page ∧
      (∀ u, ¬(v ≤ u ∧ u < v + count) → d'.pte u = d.pte u) ∧
      m'.pool + inHand out + d'.pages = m.pool + d.pages ∧
      (out = .done → ∃ page, Mapped d d' v count (fresh page)) := by
  rw [allocFrom_eq]
  exact fillFrom_spec (fun _ => (true, true, fun _ => 0)) wf user (fun _ _ _ => rfl) unmapped m

/-- The user pages are those of the first `sz` bytes. -/
def Sized (d : PageDir Page) (sz : Nat) : Prop :=
  ∀ v, v < kernpage → ((d.pte v).isSome = true ↔ v < npages sz)

theorem Sized.none (sized : d.Sized sz) (past : npages sz ≤ v) (user : v < kernpage) :
    d.pte v = none := by
  cases entry : d.pte v with
  | none => rfl
  | some pte =>
    have inside := (sized v user).mp (by rw [entry]; rfl)
    omega

/-- What `allocuvm` can do where nothing is mapped above the old size. -/
theorem allocuvm_outcomes (wf : d.Wf) (bare : ∀ v, npages oldsz ≤ v → v < kernpage → d.pte v = none)
    (m : Mem Page) (newsz : Nat) :
    (0 < newsz ∧ ∃ d' m', d.allocuvm oldsz newsz m = some (0, d', m') ∧ d'.Wf ∧ d'.page = d.page ∧
      d'.pte = d.pte ∧ m'.pool + d'.pages = m.pool + d.pages) ∨
    (newsz < oldsz ∧ d.allocuvm oldsz newsz m = some (oldsz, d, m)) ∨
    (oldsz ≤ newsz ∧ newsz < kernbase ∧ ∃ page d' m',
      d.allocuvm oldsz newsz m = some (newsz, d', m') ∧ d'.Wf ∧
      Mapped d d' (npages oldsz) (npages newsz - npages oldsz) (fresh page) ∧
      m'.pool + d'.pages = m.pool + d.pages) := by
  unfold allocuvm
  by_cases tooBig : kernbase ≤ newsz
  · rw [if_pos tooBig]
    have positive : 0 < kernbase := by decide
    exact .inl ⟨by omega, d, m, rfl, wf, rfl, rfl, rfl⟩
  rw [if_neg tooBig]
  by_cases shrinks : newsz < oldsz
  · rw [if_pos shrinks]
    exact .inr (.inl ⟨shrinks, rfl⟩)
  rw [if_neg shrinks]
  have more := npages_mono (Nat.le_of_not_lt shrinks)
  have bound := npages_le_kernpage (Nat.le_of_not_le tooBig)
  obtain ⟨out, d', m', ran, wf', page_, others, kept, all⟩ := allocFrom_spec wf
    (show npages oldsz + (npages newsz - npages oldsz) ≤ kernpage by omega)
    (fun u low high => bare u low (by omega)) m
  rw [ran]
  -- a failure gives back what the loop has mapped
  have undone (failed : out ≠ .done) : 0 < newsz ∧ ∃ d'' m'', d'.deallocuvm newsz oldsz m' =
      some (oldsz, d'', m'') ∧ d''.Wf ∧ d''.page = d.page ∧ d''.pte = d.pte ∧
      m''.pool + d''.pages = m'.pool + d'.pages := by
    have grows : oldsz < newsz := by
      apply lt_of_le_of_ne (Nat.le_of_not_lt shrinks)
      intro same
      subst same
      rw [Nat.sub_self] at ran
      cases ran
      exact failed rfl
    obtain ⟨d'', m'', freed, wf'', cleared, kept'⟩ :=
      deallocuvm_spec wf' grows (Nat.le_of_not_le tooBig) m'
    refine ⟨by omega, d'', m'', freed, wf'', cleared.page.trans page_, ?_, kept'⟩
    funext u
    rw [cleared.pte]
    split
    · exact (bare u (by omega) (by omega)).symm
    · exact others u (by omega)
  cases out with
  | done =>
    obtain ⟨page, mapped⟩ := all rfl
    rw [inHand, add_zero] at kept
    exact .inr (.inr ⟨Nat.le_of_not_lt shrinks, Nat.lt_of_not_le tooBig, page, d', m', rfl, wf',
      mapped, kept⟩)
  | noPage =>
    obtain ⟨positive, d'', m'', freed, wf'', samePage, same, kept'⟩ := undone (by simp)
    rw [inHand, add_zero] at kept
    refine .inl ⟨positive, d'', m'', ?_, wf'', samePage, same, kept'.trans kept⟩
    simp only [freed, Option.map_some]
  | noTable mem =>
    obtain ⟨positive, d'', m'', freed, wf'', samePage, same, kept'⟩ := undone (by simp)
    refine .inl ⟨positive, d'', kfree mem m'', ?_, wf'', samePage, same, ?_⟩
    · simp only [freed, Option.map_some]
    · rw [pool_kfree, add_right_comm, kept', ← kept, inHand, add_right_comm]

/-- What `allocuvm` can do for a process of the old size. -/
theorem allocuvm_cases (wf : d.Wf) (sized : d.Sized oldsz) (m : Mem Page) (newsz : Nat) :
    (∃ d' m', d.allocuvm oldsz newsz m = some (0, d', m') ∧ d'.Wf ∧ d'.pte = d.pte ∧
      m'.pool + d'.pages = m.pool + d.pages) ∨
    (newsz < oldsz ∧ d.allocuvm oldsz newsz m = some (oldsz, d, m)) ∨
    (oldsz ≤ newsz ∧ newsz < kernbase ∧ ∃ page d' m',
      d.allocuvm oldsz newsz m = some (newsz, d', m') ∧ d'.Wf ∧
      Mapped d d' (npages oldsz) (npages newsz - npages oldsz) (fresh page) ∧
      m'.pool + d'.pages = m.pool + d.pages) := by
  rcases allocuvm_outcomes wf (fun v past user => sized.none past user) m newsz with
    ⟨_, d', m', failed, wf', _, same, kept⟩ | other
  · exact .inl ⟨d', m', failed, wf', same, kept⟩
  · exact .inr other

/-! ## Freeing a page table -/

theorem freeTables_pool (d : PageDir Page) (m : Mem Page) :
    (d.freeTables m).pool = m.pool + ∑ i ∈ Finset.range nptentries, one (d.table i) := by
  unfold freeTables
  generalize nptentries = count
  induction count with
  | zero => rw [Finset.sum_range_zero, add_zero]; rfl
  | succ count ih =>
    rw [List.range_succ, List.foldl_append, Finset.sum_range_succ, ← add_assoc,
      ← ih, List.foldl_cons, List.foldl_nil]
    cases d.table count with
    | none => exact (add_zero _).symm
    | some table => exact pool_kfree _ _

/-- The pages of a page table without user pages. -/
theorem pages_of_sized_zero (wf : d.Wf) (empty : ∀ v, v < kernpage → d.pte v = none) :
    d.pages = {d.page} + ∑ i ∈ Finset.range nptentries, one (d.table i) := by
  have none_ : ∑ v ∈ Finset.range vpages, mapped (d.pte v) = 0 := by
    apply Finset.sum_eq_zero
    intro v _
    cases entry : d.pte v with
    | none => rfl
    | some pte =>
      cases pte with
      | kernel pa w => rfl
      | user page w u data =>
        have impossible := empty v (wf.kernel v page w u data entry)
        rw [entry] at impossible
        cases impossible
  rw [pages, none_, add_zero]

theorem freevm_spec (wf : d.Wf) (m : Mem Page) :
    ∃ m', d.freevm m = some m' ∧ m'.pool = m.pool + d.pages := by
  obtain ⟨d', m', freed, wf', cleared, kept⟩ :=
    deallocuvm_spec wf (show 0 < kernbase by decide) le_rfl m
  refine ⟨kfree d'.page (d'.freeTables m'), ?_, ?_⟩
  · rw [freevm, freed]
    rfl
  · have empty : ∀ v, v < kernpage → d'.pte v = none := by
      intro v user
      rw [cleared.pte, if_pos ⟨Nat.zero_le v, lt_of_lt_of_le user (by decide)⟩]
    rw [← kept, pool_kfree, freeTables_pool, pages_of_sized_zero wf' empty, add_assoc]
    exact congrArg _ (add_comm _ _)

end PageDir

/-! ## The kernel's part -/

/-- Which entries of a directory the kernel's part needs. -/
def kernelTable (i : Nat) : Prop :=
  512 ≤ i ∧ i < 568 ∨ 1016 ≤ i ∧ i < 1024

instance (i : Nat) : Decidable (kernelTable i) :=
  inferInstanceAs (Decidable (_ ∨ _))

/-- A page table as `setupkvm` makes it, with nothing below the kernel. -/
structure PageDir.Bare (d : PageDir Page) : Prop where
  empty : ∀ v, v < kernpage → d.pte v = none
  table : ∀ i, (d.table i).isSome = true ↔ kernelTable i

/-- The ranges of a kernel map are in order and above the kernel's start. -/
def Ascending : Nat → List (Nat × Nat × Nat × Bool) → Prop
  | _, [] => True
  | low, (v, count, _, _) :: rest => low ≤ v ∧ v + count ≤ vpages ∧ Ascending (v + count) rest

/-- The pages of a range of the kernel map. -/
def InRange (range : Nat × Nat × Nat × Bool) (u : Nat) : Prop :=
  range.1 ≤ u ∧ u < range.1 + range.2.1

theorem mapKernel_spec {ranges : List (Nat × Nat × Nat × Bool)} {low : Nat} (wf : d.Wf)
    (kernel : kernpage ≤ low) (ascending : Ascending low ranges)
    (unmapped : ∀ u, low ≤ u → d.pte u = none) (m : Mem Page) :
    ∃ all d' m', mapKernel ranges d m = some (all, d', m') ∧ d'.Wf ∧
      m'.pool + d'.pages = m.pool + d.pages ∧
      (all = true → (∀ u, u < kernpage → d'.pte u = d.pte u) ∧
        ∀ i, (d'.table i).isSome = true ↔ (d.table i).isSome = true ∨
          ∃ range ∈ ranges, ∃ u, InRange range u ∧ u / nptentries = i) := by
  induction ranges generalizing low d m with
  | nil => exact ⟨true, d, m, rfl, wf, rfl, fun _ => ⟨fun _ _ => rfl, fun i => by simp⟩⟩
  | cons range rest ih =>
    obtain ⟨v, count, pa, w⟩ := range
    obtain ⟨above, inside, restAscending⟩ := ascending
    obtain ⟨all, d', m', ran, wf', kept, mapped⟩ := PageDir.mappages_kernel
      (fun u => .kernel (pa + (u - v)) w) wf inside
      (fun u low' _ => unmapped u (by omega)) (fun u low' _ => le_trans kernel (by omega))
      (fun _ => rfl) m
    rw [mapKernel, ran]
    cases all with
    | false => exact ⟨false, d', m', rfl, wf', kept, fun h => nomatch h⟩
    | true =>
      have first := mapped rfl
      obtain ⟨all, d'', m'', ran', wf'', kept', restMapped⟩ := ih
        wf' (show kernpage ≤ v + count by omega) restAscending
        (fun u low' => by rw [first.pte, if_neg (by omega)]; exact unmapped u (by omega)) m'
      refine ⟨all, d'', m'', ran', wf'', kept'.trans kept, ?_⟩
      intro isAll
      obtain ⟨user, tables⟩ := restMapped isAll
      constructor
      · intro u below
        rw [user u below, first.pte, if_neg (by omega)]
      · intro i
        rw [tables, first.table]
        simp only [List.mem_cons, exists_eq_or_imp, InRange, or_assoc, and_assoc]

theorem kmap_tables (k : KernelMap) (i : Nat) :
    (∃ range ∈ k.kmap, ∃ u, InRange range u ∧ u / nptentries = i) ↔ kernelTable i := by
  have afterText := k.afterText
  have inMemory := k.inMemory
  simp only [KernelMap.kmap, List.mem_cons, List.not_mem_nil, or_false, exists_eq_or_imp,
    exists_eq_left, InRange, kernelTable, kernpage, kernbase, pgsize, phystop, devspace, vpages,
    nptentries] at *
  constructor
  · rintro (⟨u, range, rfl⟩ | ⟨u, range, rfl⟩ | ⟨u, range, rfl⟩ | ⟨u, range, rfl⟩)
    all_goals omega
  · rintro (⟨low, high⟩ | ⟨low, high⟩)
    · by_cases isFirst : i = 512
      · exact .inl ⟨512 * 1024, by omega, by omega⟩
      · by_cases inText : i * 1024 < 524288 + k.data
        · exact .inr (.inl ⟨i * 1024, by omega, by omega⟩)
        · exact .inr (.inr (.inl ⟨i * 1024, by omega, by omega⟩))
    · exact .inr (.inr (.inr ⟨i * 1024, by omega, by omega⟩))

theorem kmap_ascending (k : KernelMap) : Ascending kernpage k.kmap := by
  have afterText := k.afterText
  have inMemory := k.inMemory
  simp only [KernelMap.kmap, Ascending, kernpage, kernbase, pgsize, phystop, devspace,
    vpages, and_true] at *
  omega

/-- What `setupkvm` can do. -/
theorem setupkvm_cases (k : KernelMap) (m : Mem Page) :
    (∃ m', setupkvm k m = some (none, m') ∧ m'.pool = m.pool) ∨
      ∃ d m', setupkvm k m = some (some d, m') ∧ d.Wf ∧ d.Bare ∧ m'.pool + d.pages = m.pool := by
  unfold setupkvm
  rcases kalloc_cases m with ⟨m', refused, same⟩ | ⟨page, m', found, taken⟩
  · rw [refused]
    exact .inl ⟨m', rfl, same⟩
  · rw [found]
    have wf : (⟨page, fun _ => none, fun _ => none⟩ : PageDir Page).Wf :=
      ⟨fun _ _ => rfl, (fun _ _ _ h => nomatch h), (fun _ _ _ _ _ h => nomatch h)⟩
    have pages : (⟨page, fun _ => none, fun _ => none⟩ : PageDir Page).pages = {page} := by
      rw [PageDir.pages_of_sized_zero wf fun _ _ => rfl]
      have none_ : ∑ i ∈ Finset.range nptentries, one (none : Option Page) = 0 :=
        Finset.sum_eq_zero fun _ _ => rfl
      exact (congrArg _ none_).trans (add_zero _)
    obtain ⟨all, d, m'', ran, wf', kept, mapped⟩ :=
      mapKernel_spec wf le_rfl (kmap_ascending k) (fun _ _ => rfl) m'
    rw [pages, ← taken] at kept
    simp only [ran]
    cases all with
    | false =>
      obtain ⟨m₃, freed, pool⟩ := PageDir.freevm_spec wf' m''
      refine .inl ⟨m₃, ?_, pool.trans kept⟩
      simp only [freed, Option.map_some]
    | true =>
      obtain ⟨user, tables⟩ := mapped rfl
      refine .inr ⟨d, m'', rfl, wf', ⟨user, ?_⟩, kept⟩
      intro i
      rw [tables, ← kmap_tables k i]
      simp

end Xv6.Vm
