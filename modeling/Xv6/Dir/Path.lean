import Xv6.Dir.Names

/-!
Paths.

Owns: `skipelem` of the kernel; the components of a path; and that calls of `skipelem` take the
components one after the other, each cut to `DIRSIZ` bytes.

Does not own: the inodes that a path leads to (`Xv6.Dir.Namei`).

A path is the bytes before the zero at its end, and a pointer into it what is left of them.
-/

namespace Xv6.Dir

/-! ## The kernel -/

def slash : UInt8 := 47

/-- `memmove(name, s, n)`. -/
def memmove (name : Nat → UInt8) (s : List UInt8) (n : Nat) : Nat → UInt8 :=
  fun i => if i < n then pointer s i else name i

/-- What is in `name` after an element is copied there. A short element gets a zero behind it, and
what was in `name` before stays behind that. -/
def setName (name : Nat → UInt8) (elem : List UInt8) : Nat → UInt8 :=
  if dirsiz ≤ elem.length then memmove name elem dirsiz
  else Function.update (memmove name elem elem.length) elem.length 0

/-- The path behind the element, and `name`. -/
def skipelem (path : List UInt8) (name : Nat → UInt8) : Option (List UInt8 × (Nat → UInt8)) :=
  match path.dropWhile (· == slash) with
  | [] => none
  | c :: s =>
    let elem := (c :: s).takeWhile (· != slash)
    let path := (c :: s).dropWhile (· != slash)
    some (path.dropWhile (· == slash), setName name elem)

/-- The names that calls of `skipelem` leave in `name`, up to the call that returns 0. -/
inductive Elements : List UInt8 → (Nat → UInt8) → List (List UInt8) → Prop
  | done {path : List UInt8} {name : Nat → UInt8} (isEnd : skipelem path name = none) :
      Elements path name []
  | next {path rest : List UInt8} {name name' : Nat → UInt8} {names : List (List UInt8)}
      (skipped : skipelem path name = some (rest, name')) (others : Elements rest name' names) :
      Elements path name (nameOf name' :: names)

/-! ## Components -/

/-- The longest parts of a path without a slash. -/
def components (path : List UInt8) : List (List UInt8) :=
  (path.splitOn slash).filter fun part => part ≠ []

/-- The components cut to `DIRSIZ` bytes. -/
def names (path : List UInt8) : List (List UInt8) :=
  (components path).map (List.take dirsiz)

theorem components_slash (path : List UInt8) : components (slash :: path) = components path := by
  rw [components, List.splitOn_eq_splitOnP, List.splitOnP_cons_eq_if_modifyHead,
    if_pos (beq_self_eq_true slash)]
  rfl

theorem components_dropWhile (path : List UInt8) :
    components (path.dropWhile (· == slash)) = components path := by
  induction path with
  | nil => rfl
  | cons c path ih =>
    rw [List.dropWhile_cons]
    split
    · next isSlash =>
        rw [beq_iff_eq.mp isSlash, components_slash, ih]
    · rfl

variable {part rest path : List UInt8} {c : UInt8}

/-- A component at the front of the path. -/
theorem components_append (noSlash : slash ∉ part) (notEmpty : part ≠ [])
    (ends : rest = [] ∨ ∃ path, rest = slash :: path) :
    components (part ++ rest) = part :: components rest := by
  have isPart : ∀ c ∈ part, (c == slash) = false := by
    rintro c member
    exact beq_eq_false_iff_ne.mpr fun same => noSlash (same ▸ member)
  rcases ends with rfl | ⟨path, rfl⟩
  · rw [List.append_nil, components, List.splitOn_eq_splitOnP, List.splitOnP_eq_singleton isPart,
      List.filter_cons_of_pos (by simpa using notEmpty)]
    rfl
  · rw [components_slash, components, List.splitOn_eq_splitOnP,
      List.splitOnP_append_cons_of_forall_mem isPart slash (beq_self_eq_true slash),
      List.filter_cons_of_pos (by simpa using notEmpty)]
    rfl

theorem head_dropWhile {p : UInt8 → Bool} (left : path.dropWhile p = c :: rest) : p c = false := by
  have stopped := List.head?_dropWhile_not p path
  rw [left] at stopped
  exact stopped

/-- The path at its first component. -/
theorem components_takeWhile {s : List UInt8} (start : path.dropWhile (· == slash) = c :: s) :
    components path =
      (c :: s).takeWhile (· != slash) :: components ((c :: s).dropWhile (· != slash)) := by
  have notSlash : (c != slash) = true := by
    rw [bne, head_dropWhile start]
    rfl
  have noSlash : slash ∉ (c :: s).takeWhile (· != slash) := by
    intro member
    have different := List.mem_takeWhile_imp member
    rw [bne_self_eq_false] at different
    cases different
  have notEmpty : (c :: s).takeWhile (· != slash) ≠ [] := by
    rw [List.takeWhile_cons, if_pos notSlash]
    exact List.cons_ne_nil _ _
  have ends : (c :: s).dropWhile (· != slash) = [] ∨
      ∃ rest, (c :: s).dropWhile (· != slash) = slash :: rest := by
    cases left : (c :: s).dropWhile (· != slash) with
    | nil => exact .inl rfl
    | cons d rest =>
      have isSlash := head_dropWhile left
      rw [bne_eq_false_iff_eq] at isSlash
      exact .inr ⟨rest, by rw [isSlash]⟩
  rw [← components_dropWhile path, start, ← components_append noSlash notEmpty ends,
    List.takeWhile_append_dropWhile]

theorem length_components (path : List UInt8) : (components path).length ≤ path.length := by
  induction size : path.length using Nat.strong_induction_on generalizing path with
  | _ n ih =>
    have kept : (path.dropWhile (· == slash)).length ≤ path.length :=
      (List.dropWhile_suffix _).length_le
    cases start : path.dropWhile (· == slash) with
    | nil =>
      rw [← components_dropWhile, start]
      exact Nat.zero_le _
    | cons c s =>
      have notSlash : (c != slash) = true := by
        rw [bne, head_dropWhile start]
        rfl
      rw [start, List.length_cons] at kept
      have left : (s.dropWhile (· != slash)).length ≤ s.length :=
        (List.dropWhile_suffix _).length_le
      have shorter := ih _ (by omega) (s.dropWhile (· != slash)) rfl
      rw [components_takeWhile start, List.length_cons, List.dropWhile_cons, if_pos notSlash]
      omega

/-! ## Elements -/

/-- A name that stands at `i`, with a zero behind it where there is place for one. -/
theorem upToNul_eq_take {bytes : List UInt8} (noZero : 0 ∉ bytes) {p : Nat → UInt8} {i n : Nat}
    (same : ∀ k, k < bytes.length → k < n → p (i + k) = pointer bytes k)
    (ends : bytes.length < n → p (i + bytes.length) = 0) : upToNul p i n = bytes.take n := by
  induction n generalizing bytes i with
  | zero => rfl
  | succ n ih =>
    rw [upToNul]
    cases bytes with
    | nil =>
      have isEnd : p i = 0 := ends (Nat.succ_pos n)
      rw [if_pos isEnd]
      rfl
    | cons b bytes =>
      rw [List.mem_cons, not_or] at noZero
      have first : p i = b := same 0 (Nat.succ_pos _) (Nat.succ_pos n)
      rw [first, if_neg (Ne.symm noZero.1), List.take_succ_cons]
      refine congrArg _ (ih noZero.2 ?_ ?_)
      · intro k inside below
        rw [Nat.add_right_comm]
        exact same (k + 1) (Nat.succ_lt_succ inside) (Nat.succ_lt_succ below)
      · intro short
        rw [Nat.add_right_comm]
        exact ends (Nat.succ_lt_succ short)

/-- The name is the element, whatever was in `name` before. -/
theorem nameOf_setName {elem : List UInt8} (noZero : 0 ∉ elem) (name : Nat → UInt8) :
    nameOf (setName name elem) = elem.take dirsiz := by
  apply upToNul_eq_take noZero
  · intro k inside below
    rw [Nat.zero_add, setName]
    split
    · exact if_pos below
    · rw [Function.update_of_ne inside.ne]
      exact if_pos inside
  · intro short
    rw [Nat.zero_add, setName, if_neg (Nat.not_le_of_lt short), Function.update_self]

theorem skipelem_nil (isEnd : components path = []) (name : Nat → UInt8) :
    skipelem path name = none := by
  rw [skipelem]
  cases start : path.dropWhile (· == slash) with
  | nil => rfl
  | cons c s =>
    rw [components_takeWhile start] at isEnd
    cases isEnd

/-- What is left of the path does not begin with a slash, so that the last element is seen. -/
theorem skipelem_cons {parts : List (List UInt8)} (noZero : 0 ∉ path)
    (next : components path = part :: parts) (name : Nat → UInt8) :
    ∃ rest name', skipelem path name = some (rest, name') ∧ nameOf name' = part.take dirsiz ∧
      components rest = parts ∧ (rest = [] ↔ parts = []) ∧ 0 ∉ rest := by
  rw [skipelem]
  cases start : path.dropWhile (· == slash) with
  | nil =>
    rw [← components_dropWhile, start] at next
    cases next
  | cons c s =>
    have noZero' : 0 ∉ c :: s := fun zero => noZero ((List.dropWhile_suffix _).subset (start ▸ zero))
    rw [components_takeWhile start] at next
    obtain ⟨rfl, rfl⟩ := List.cons.inj next
    refine ⟨_, _, rfl, ?_, components_dropWhile _, ?_, ?_⟩
    · exact nameOf_setName (fun zero => noZero' ((List.takeWhile_prefix _).subset zero)) name
    · cases left : ((c :: s).dropWhile (· != slash)).dropWhile (· == slash) with
      | nil =>
        rw [← components_dropWhile, left]
        exact iff_of_true rfl rfl
      | cons d rest =>
        rw [components_takeWhile left]
        exact iff_of_false (List.cons_ne_nil _ _) (List.cons_ne_nil _ _)
    · intro zero
      exact noZero' ((List.dropWhile_suffix _).subset ((List.dropWhile_suffix _).subset zero))

/-- Calls of `skipelem` come to an end, and take the components. -/
theorem elements_of_names (noZero : 0 ∉ path) (name : Nat → UInt8) :
    Elements path name (names path) := by
  rw [names]
  generalize same : components path = parts
  induction parts generalizing path name with
  | nil => exact .done (skipelem_nil same name)
  | cons part parts ih =>
    obtain ⟨rest, name', skipped, isPart, others, _, noZero'⟩ := skipelem_cons noZero same name
    rw [List.map_cons, ← isPart]
    exact .next skipped (ih noZero' name' others)

theorem Elements.unique {name : Nat → UInt8} {first second : List (List UInt8)}
    (one : Elements path name first) (other : Elements path name second) : first = second := by
  induction one generalizing second with
  | done isEnd =>
    cases other with
    | done => rfl
    | next skipped =>
      rw [isEnd] at skipped
      cases skipped
  | next skipped _ ih =>
    cases other with
    | done isEnd =>
      rw [isEnd] at skipped
      cases skipped
    | next skipped' others =>
      rw [skipped] at skipped'
      cases skipped'
      rw [ih others]

theorem elements_iff (noZero : 0 ∉ path) (name : Nat → UInt8) (list : List (List UInt8)) :
    Elements path name list ↔ list = names path := by
  constructor
  · intro elements
    exact elements.unique (elements_of_names noZero name)
  · rintro rfl
    exact elements_of_names noZero name

/-- The name in a field is a name of its own. -/
theorem nameOf_pointer_nameOf (p : Nat → UInt8) : nameOf (pointer (nameOf p)) = nameOf p := by
  have general : ∀ n i, 0 ∉ upToNul p i n ∧ (upToNul p i n).length ≤ n := by
    intro n
    induction n with
    | zero => exact fun _ => ⟨List.not_mem_nil, Nat.le_refl 0⟩
    | succ n ih =>
      intro i
      rw [upToNul]
      split
      · exact ⟨List.not_mem_nil, Nat.zero_le _⟩
      · next notZero =>
          obtain ⟨noZero, short⟩ := ih (i + 1)
          exact ⟨List.not_mem_cons_of_ne_of_not_mem (Ne.symm notZero) noZero, Nat.succ_le_succ short⟩
  obtain ⟨noZero, short⟩ := general dirsiz 0
  refine (upToNul_eq_take noZero ?_ ?_).trans (List.take_of_length_le short)
  · intro k _ _
    rw [Nat.zero_add]
    rfl
  · intro _
    rw [Nat.zero_add, pointer]
    exact List.getD_eq_default _ _ (Nat.le_refl _)

example : names [47, 47, 97, 47, 47, 98, 98, 47] = [[97], [98, 98]] := by
  decide

end Xv6.Dir
