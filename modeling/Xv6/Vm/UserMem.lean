import Xv6.Vm.PageTable

/-!
The bytes of user memory.

Owns: what is stored at a user address; `uva2ka`, `copyout` and `clearpteu`; that stores change
contents only; and when `copyout` copies, fails, or looks for an address that has no page table.

Does not own: page tables (`Xv6.Vm.PageTable`); what is copied (`Xv6.Vm.Elf`, `Xv6.Vm.Exec`).
-/

namespace Xv6.Vm

open Function (update_self update_of_ne)

variable {Page : Type} {page : Page} {w u : Bool} {data : Contents} {va : Nat} {buf : List UInt8}

def Contents.write (data : Contents) (start : Nat) (bytes : List UInt8) : Contents :=
  fun i => if start ≤ i then (bytes[i - start]?).getD (data i) else data i

/-- An entry without the contents of its page. -/
def Pte.wiped : Pte Page → Pte Page
  | .kernel pa w => .kernel pa w
  | .user page w u _ => .user page w u fun _ => 0

namespace PageDir

/-- The byte at a user address. -/
def byteAt (d : PageDir Page) (a : Nat) : Option UInt8 :=
  match d.pte (a / pgsize) with
  | some (.user _ _ _ data) => some (data (a % pgsize))
  | _ => none

/-- `memmove` into the page at a virtual page. -/
def store (d : PageDir Page) (v start : Nat) (bytes : List UInt8) : PageDir Page :=
  match d.pte v with
  | some (.user page w u data) => d.setPte v (some (.user page w u (data.write start bytes)))
  | _ => d

/-- How `uva2ka` ends: it reads through the null pointer that `walkpgdir` returns where there is
no table, or finds no page for the user, or finds one. -/
inductive Reach where
  | fault
  | denied
  | ok
  deriving DecidableEq

def uva2ka (d : PageDir Page) (v : Nat) : Reach :=
  match d.table (v / nptentries), d.pte v with
  | none, _ => .fault
  | some _, some (.user _ _ true _) => .ok
  | some _, _ => .denied

inductive Copied (Page : Type) where
  | fault
  | failed (d : PageDir Page)
  | ok (d : PageDir Page)

/-- The loop of `copyout`, with the bytes that are left. -/
def copyoutFrom : Nat → Nat → List UInt8 → PageDir Page → Copied Page
  | 0, _, _, d => .ok d
  | fuel + 1, va, buf, d =>
    if buf = [] then .ok d
    else
      match d.uva2ka (va / pgsize) with
      | .fault => .fault
      | .denied => .failed d
      | .ok =>
        let n := pgsize - va % pgsize
        copyoutFrom fuel ((va / pgsize * pgsize + pgsize) % 2 ^ 32) (buf.drop n)
          (d.store (va / pgsize) (va % pgsize) (buf.take n))

def copyout (d : PageDir Page) (va : Nat) (buf : List UInt8) : Copied Page :=
  copyoutFrom buf.length va buf d

/-- The panic is that there is no table. -/
def clearpteu (d : PageDir Page) (v : Nat) : Option (PageDir Page) :=
  match d.table (v / nptentries), d.pte v with
  | none, _ => none
  | some _, some (.user page w _ data) => some (d.setPte v (some (.user page w false data)))
  | some _, _ => some d

/-! ## Changing contents only -/

/-- The same pages are mapped in the same way. -/
structure Rewritten (d d' : PageDir Page) : Prop where
  page : d'.page = d.page
  table : d'.table = d.table
  pte : ∀ v, (d'.pte v).map Pte.wiped = (d.pte v).map Pte.wiped

variable {d d' d'' : PageDir Page} {v : Nat}

namespace Rewritten

theorem refl (d : PageDir Page) : Rewritten d d :=
  ⟨rfl, rfl, fun _ => rfl⟩

theorem trans (first : Rewritten d d') (second : Rewritten d' d'') : Rewritten d d'' :=
  ⟨second.page.trans first.page, second.table.trans first.table,
    fun v => (second.pte v).trans (first.pte v)⟩

/-- What an entry is, apart from contents. -/
theorem cases (same : Rewritten d d') (v : Nat) :
    d.pte v = none ∧ d'.pte v = none ∨
    (∃ pa w, d.pte v = some (.kernel pa w) ∧ d'.pte v = some (.kernel pa w)) ∨
    ∃ page w u data data', d.pte v = some (.user page w u data) ∧
      d'.pte v = some (.user page w u data') := by
  have equal := same.pte v
  cases before : d.pte v with
  | none =>
    rw [before, Option.map_none, Option.map_eq_none_iff] at equal
    exact .inl ⟨rfl, equal⟩
  | some pte =>
    rw [before, Option.map_some, Option.map_eq_some_iff] at equal
    obtain ⟨pte', after, wiped⟩ := equal
    cases pte with
    | kernel pa w =>
      cases pte' with
      | kernel pa' w' => exact .inr (.inl ⟨pa, w, rfl, after.trans (congrArg some wiped)⟩)
      | user page w u data => cases wiped
    | user page w u data =>
      cases pte' with
      | kernel pa' w' => cases wiped
      | user page' w' u' data' =>
        simp only [Pte.wiped, Pte.user.injEq, and_true] at wiped
        obtain ⟨rfl, rfl, rfl⟩ := wiped
        exact .inr (.inr ⟨page', w', u', data, data', rfl, after⟩)

theorem wf (same : Rewritten d d') (wf : d.Wf) : d'.Wf := by
  refine ⟨?_, ?_, ?_⟩
  · intro v absent
    rw [same.table] at absent
    rcases same.cases v with ⟨_, none_⟩ | ⟨pa, w, before, _⟩ | ⟨page, w, u, data, data', before, _⟩
    · exact none_
    · rw [wf.table v absent] at before
      cases before
    · rw [wf.table v absent] at before
      cases before
  · intro v pa w isKernel
    rcases same.cases v with ⟨_, none_⟩ | ⟨pa', w', before, _⟩ | ⟨page, w', u, data, data', _, after⟩
    · rw [none_] at isKernel
      cases isKernel
    · exact wf.user v pa' w' before
    · rw [after] at isKernel
      cases isKernel
  · intro v page w u data isUser
    rcases same.cases v with ⟨_, none_⟩ | ⟨pa', w', _, after⟩ | ⟨page', w', u', data', _, before, _⟩
    · rw [none_] at isUser
      cases isUser
    · rw [after] at isUser
      cases isUser
    · exact wf.kernel v page' w' u' data' before

theorem pages (same : Rewritten d d') : d'.pages = d.pages := by
  have mapped : ∀ v ∈ Finset.range vpages, mapped (d'.pte v) = mapped (d.pte v) := by
    intro v _
    rcases same.cases v with ⟨before, after⟩ | ⟨pa, w, before, after⟩ |
      ⟨page, w, u, data, data', before, after⟩
    all_goals simp only [before, after, PageDir.mapped, Option.bind_some, Option.bind_none, Pte.page]
  unfold PageDir.pages
  rw [same.page, same.table, Finset.sum_congr rfl mapped]

theorem sized {sz : Nat} (same : Rewritten d d') (sized : d.Sized sz) : d'.Sized sz := by
  intro v user
  rw [← sized v user]
  rcases same.cases v with ⟨before, after⟩ | ⟨pa, w, before, after⟩ |
    ⟨page, w, u, data, data', before, after⟩
  all_goals simp only [before, after, Option.isSome_some, Option.isSome_none]

theorem uva2ka (same : Rewritten d d') (v : Nat) : d'.uva2ka v = d.uva2ka v := by
  unfold PageDir.uva2ka
  rw [same.table]
  rcases same.cases v with ⟨before, after⟩ | ⟨pa, w, before, after⟩ |
    ⟨page, w, u, data, data', before, after⟩
  · rw [before, after]
  · rw [before, after]
  · rw [before, after]
    cases d.table (v / nptentries) with
    | none => rfl
    | some table => cases u <;> rfl

end Rewritten

theorem rewritten_store (d : PageDir Page) (v start : Nat) (bytes : List UInt8) :
    Rewritten d (d.store v start bytes) := by
  unfold store
  split
  · rename_i page w u data entry
    refine ⟨rfl, rfl, ?_⟩
    intro x
    change (Function.update d.pte v _ x).map Pte.wiped = _
    refine Update.cases x ?_ fun _ => rfl
    simp only [entry, Option.map_some, Pte.wiped]
  · exact Rewritten.refl d

/-- The bytes after a store. -/
theorem byteAt_store (entry : d.pte v = some (.user page w u data)) (start : Nat)
    (bytes : List UInt8) (a : Nat) :
    (d.store v start bytes).byteAt a =
      if a / pgsize = v ∧ start ≤ a % pgsize ∧ a % pgsize < start + bytes.length then
        bytes[a % pgsize - start]?
      else d.byteAt a := by
  unfold byteAt store
  simp only [entry]
  by_cases isHere : a / pgsize = v
  · rw [isHere]
    simp only [setPte, update_self, entry, Contents.write, true_and]
    by_cases inside : start ≤ a % pgsize ∧ a % pgsize < start + bytes.length
    · have bound : a % pgsize - start < bytes.length := by omega
      rw [if_pos inside, if_pos inside.1, List.getElem?_eq_getElem bound]
      rfl
    · rw [if_neg inside]
      split
      · rw [List.getElem?_eq_none (by omega)]
        rfl
      · rfl
  · rw [if_neg (by simp [isHere])]
    simp only [setPte, update_of_ne isHere]

/-! ## Copying out -/

/-- What `copyout` leaves when it returns. -/
theorem copyoutFrom_rewritten {fuel : Nat} :
    copyoutFrom fuel va buf d = .fault ∨ ∃ d', Rewritten d d' ∧
      (copyoutFrom fuel va buf d = .failed d' ∨ copyoutFrom fuel va buf d = .ok d') := by
  induction fuel generalizing va buf d with
  | zero => exact .inr ⟨d, Rewritten.refl d, .inr rfl⟩
  | succ fuel ih =>
    rw [copyoutFrom]
    split
    · exact .inr ⟨d, Rewritten.refl d, .inr rfl⟩
    · cases d.uva2ka (va / pgsize) with
      | fault => exact .inl rfl
      | denied => exact .inr ⟨d, Rewritten.refl d, .inl rfl⟩
      | ok =>
        rcases ih with fault | ⟨d', rest, result⟩
        · exact .inl fault
        · exact .inr ⟨d', (rewritten_store d _ _ _).trans rest, result⟩

theorem copyout_rewritten (d : PageDir Page) (va : Nat) (buf : List UInt8) :
    copyout d va buf = .fault ∨ ∃ d', Rewritten d d' ∧
      (copyout d va buf = .failed d' ∨ copyout d va buf = .ok d') :=
  copyoutFrom_rewritten

theorem copyout_cons (some_ : buf ≠ []) :
    copyout d va buf =
      match d.uva2ka (va / pgsize) with
      | .fault => .fault
      | .denied => .failed d
      | .ok =>
          copyoutFrom (buf.length - 1) ((va / pgsize * pgsize + pgsize) % 2 ^ 32)
            (buf.drop (pgsize - va % pgsize))
            (d.store (va / pgsize) (va % pgsize) (buf.take (pgsize - va % pgsize))) := by
  obtain ⟨byte, rest, rfl⟩ := List.exists_cons_of_ne_nil some_
  rw [copyout, List.length_cons, copyoutFrom, if_neg some_]
  rfl

/-- Bytes that fit in one page. -/
theorem copyout_inPage (some_ : buf ≠ []) (fits : va % pgsize + buf.length ≤ pgsize)
    (reach : d.uva2ka (va / pgsize) = .ok) :
    copyout d va buf = .ok (d.store (va / pgsize) (va % pgsize) buf) := by
  rw [copyout_cons some_, reach, List.take_of_length_le (by omega), List.drop_of_length_le (by omega)]
  show copyoutFrom _ _ [] _ = _
  cases buf.length - 1 with
  | zero => rfl
  | succ fuel => rw [copyoutFrom, if_pos rfl]

theorem next_page {p w : Nat} (ahead : p < w) (inside : w < vpages) :
    (p * pgsize + pgsize) % 2 ^ 32 = (p + 1) * pgsize := by
  have bound : w < 1048576 := inside
  unfold pgsize
  omega

/-- Bytes that run into a page that is not the user's. -/
theorem copyoutFrom_blocked {fuel w : Nat} (enough : buf.length ≤ fuel) (some_ : buf ≠ [])
    (low : va / pgsize ≤ w) (high : w * pgsize < va + buf.length) (inside : w < vpages)
    (tables : ∀ v, va / pgsize ≤ v → v ≤ w → d.uva2ka v ≠ .fault) (denied : d.uva2ka w = .denied) :
    ∃ d', copyoutFrom fuel va buf d = .failed d' := by
  induction fuel generalizing va buf d with
  | zero => exact absurd (List.length_eq_zero_iff.mp (Nat.le_zero.mp enough)) some_
  | succ fuel ih =>
    rw [copyoutFrom, if_neg some_]
    cases reach : d.uva2ka (va / pgsize) with
    | fault => exact absurd reach (tables _ le_rfl low)
    | denied => exact ⟨d, rfl⟩
    | ok =>
      have ahead : va / pgsize < w := by
        apply lt_of_le_of_ne low
        intro same
        rw [same, denied] at reach
        cases reach
      have rewritten := rewritten_store d (va / pgsize) (va % pgsize)
        (buf.take (pgsize - va % pgsize))
      have length : (buf.drop (pgsize - va % pgsize)).length =
          buf.length - (pgsize - va % pgsize) := List.length_drop
      have positive : 0 < pgsize - va % pgsize := by
        unfold pgsize
        omega
      have left : w * pgsize < (va / pgsize + 1) * pgsize +
          (buf.length - (pgsize - va % pgsize)) := by
        unfold pgsize at *
        omega
      have next : (va / pgsize + 1) * pgsize / pgsize = va / pgsize + 1 :=
        Nat.mul_div_cancel _ (by decide)
      rw [next_page ahead inside]
      apply ih
      · rw [length]
        omega
      · intro empty
        rw [empty, List.length_nil] at length
        rw [← length, Nat.add_zero] at left
        exact absurd (Nat.lt_of_mul_lt_mul_right left) (Nat.not_lt.mpr ahead)
      · rw [next]
        exact ahead
      · rw [length]
        exact left
      · intro v after before
        rw [next] at after
        rw [rewritten.uva2ka]
        exact tables v (by omega) before
      · rw [rewritten.uva2ka]
        exact denied

theorem copyout_blocked {w : Nat} (some_ : buf ≠ []) (low : va / pgsize ≤ w)
    (high : w * pgsize < va + buf.length) (inside : w < vpages)
    (tables : ∀ v, va / pgsize ≤ v → v ≤ w → d.uva2ka v ≠ .fault) (denied : d.uva2ka w = .denied) :
    ∃ d', copyout d va buf = .failed d' :=
  copyoutFrom_blocked le_rfl some_ low high inside tables denied

/-! ## The guard page -/

theorem clearpteu_eq (wf : d.Wf) (entry : d.pte v = some (.user page w u data)) :
    d.clearpteu v = some (d.setPte v (some (.user page w false data))) := by
  unfold clearpteu
  cases table : d.table (v / nptentries) with
  | none =>
    rw [wf.table v table] at entry
    cases entry
  | some table => rw [entry]

theorem pages_guard (inside : v < vpages) (entry : d.pte v = some (.user page w u data)) :
    (d.setPte v (some (.user page w false data))).pages = d.pages := by
  have changed := d.pages_setPte inside (some (.user page w false data))
  rw [entry] at changed
  exact add_right_cancel changed

theorem byteAt_guard (entry : d.pte v = some (.user page w u data)) (a : Nat) :
    (d.setPte v (some (.user page w false data))).byteAt a = d.byteAt a := by
  unfold byteAt
  by_cases isHere : a / pgsize = v
  · rw [isHere]
    simp only [setPte, update_self, entry]
  · simp only [setPte, update_of_ne isHere]

/-! ## Reaching a page -/

theorem uva2ka_eq_ok : d.uva2ka v = .ok → ∃ page w data, d.pte v = some (.user page w true data) := by
  unfold uva2ka
  split
  · exact fun h => nomatch h
  · rename_i page w data _ entry
    exact fun _ => ⟨page, w, data, entry⟩
  · exact fun h => nomatch h

theorem uva2ka_ok (wf : d.Wf) (entry : d.pte v = some (.user page w true data)) :
    d.uva2ka v = .ok := by
  unfold uva2ka
  cases table : d.table (v / nptentries) with
  | none =>
    rw [wf.table v table] at entry
    cases entry
  | some table => rw [entry]

theorem uva2ka_eq_fault : d.uva2ka v = .fault ↔ d.table (v / nptentries) = none := by
  unfold uva2ka
  cases d.table (v / nptentries) with
  | none => simp
  | some table =>
    simp only [reduceCtorEq, iff_false]
    split
    all_goals simp_all

end PageDir

end Xv6.Vm
