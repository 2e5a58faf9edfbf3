import Xv6.Grep.Match

/-!
The lines of `grep`.

Owns: the loop of `grep` over what `read` returns; the lines of an input; and which sequences of
reads give `grep` every line whole.

Does not own: which lines match (`Xv6.Grep.Match`).

The state of the loop is what `buf` holds between two reads, its first `m` bytes.
-/

namespace Xv6.Grep

def newline : UInt8 := 10

def bufSize : Nat := 1024

/-! ## The program -/

/-- The offset of the first `c` before the end of the string. -/
def strchr (c : UInt8) : List UInt8 → Option Nat
  | [] => none
  | b :: s => if b = 0 then none else if b = c then some 0 else (strchr c s).map (· + 1)

/-- The inner loop from `p` on: the lines it visits, and where it leaves `p`. -/
def scan : Nat → List UInt8 → List (List UInt8) × List UInt8
  | 0, p => ([], p)
  | fuel + 1, p =>
    match strchr newline p with
    | none => ([], p)
    | some q =>
      let (lines, rest) := scan fuel (p.drop (q + 1))
      (p.take q :: lines, rest)

/-- What is written for a line. -/
def writes (pattern line : List UInt8) : List UInt8 :=
  if match_ pattern line then line ++ [newline] else []

/-- What the buffer keeps: nothing if `p == buf`, and otherwise what is left from `p` on. -/
def kept (buf : List UInt8) : List UInt8 :=
  let p := (scan buf.length buf).2
  if p.length = buf.length then [] else p

/-- What is written while `read` returns these pieces, and then 0. -/
def grep (pattern : List UInt8) : List UInt8 → List (List UInt8) → List UInt8
  | _, [] => []
  | m, piece :: pieces =>
    let buf := m ++ piece
    (scan buf.length buf).1.flatMap (writes pattern) ++ grep pattern (kept buf) pieces

/-- Every piece is what `read` may return for `sizeof(buf)-m-1` bytes. -/
def Served : List UInt8 → List (List UInt8) → Prop
  | _, [] => True
  | m, piece :: pieces =>
    piece ≠ [] ∧ piece.length ≤ bufSize - m.length - 1 ∧ Served (kept (m ++ piece)) pieces

/-! ## Lines -/

/-- The lines of an input that a newline ends, without it. -/
def terminated (input : List UInt8) : List (List UInt8) :=
  (input.splitOn newline).dropLast

/-- The lines that match, in order. -/
def selected (pattern input : List UInt8) : List UInt8 :=
  (terminated input).flatMap (writes pattern)

theorem terminated_none {p : List UInt8} (noLine : newline ∉ p) : terminated p = [] := by
  rw [terminated, List.splitOn_eq_splitOnP, List.splitOnP_eq_singleton]
  · rfl
  · intro b member
    exact beq_eq_false_iff_ne.mpr fun same => noLine (same ▸ member)

theorem terminated_cons {line : List UInt8} (isLine : newline ∉ line) (p : List UInt8) :
    terminated (line ++ newline :: p) = line :: terminated p := by
  have others : ∀ b ∈ line, (b == newline) = false := by
    intro b member
    exact beq_eq_false_iff_ne.mpr fun same => isLine (same ▸ member)
  rw [terminated, terminated, List.splitOn_eq_splitOnP, List.splitOn_eq_splitOnP,
    List.splitOnP_append_cons_of_forall_mem others newline (beq_self_eq_true newline),
    List.dropLast_cons_of_ne_nil (List.splitOnP_ne_nil _ _)]

/-- An input has no newline, or begins with a line. -/
theorem line_induction {motive : List UInt8 → Prop}
    (last : ∀ p, newline ∉ p → motive p)
    (next : ∀ line p, newline ∉ line → motive p → motive (line ++ newline :: p))
    (input : List UInt8) : motive input := by
  induction size : input.length using Nat.strongRecOn generalizing input with
  | _ n ih =>
    by_cases member : newline ∈ input
    · obtain ⟨line, p, rfl, isLine⟩ := List.eq_append_cons_of_mem member
      refine next line p isLine (ih p.length ?_ p rfl)
      rw [← size, List.length_append, List.length_cons]
      omega
    · exact last input member

theorem strchr_none {p : List UInt8} (noLine : newline ∉ p) : strchr newline p = none := by
  induction p with
  | nil => rfl
  | cons b p ih =>
    have different : b ≠ newline := fun same => noLine (same ▸ List.mem_cons_self)
    rw [strchr, if_neg different, ih fun member => noLine (List.mem_cons_of_mem b member)]
    exact ite_self none

theorem strchr_line {line p : List UInt8} (noZero : 0 ∉ line) (isLine : newline ∉ line) :
    strchr newline (line ++ newline :: p) = some line.length := by
  induction line with
  | nil => rfl
  | cons b line ih =>
    rw [List.mem_cons, not_or] at noZero isLine
    rw [List.cons_append, strchr, if_neg (Ne.symm noZero.1), if_neg (Ne.symm isLine.1),
      ih noZero.2 isLine.2]
    rfl

/-- The lines of an input with their newlines. -/
def whole (input : List UInt8) : List UInt8 :=
  (terminated input).flatMap (· ++ [newline])

theorem whole_cons {line : List UInt8} (isLine : newline ∉ line) (p : List UInt8) :
    whole (line ++ newline :: p) = line ++ newline :: whole p := by
  rw [whole, terminated_cons isLine, List.flatMap_cons, List.append_assoc]
  rfl

/-- The inner loop visits the lines, and leaves what no newline ends. -/
theorem scan_spec {fuel : Nat} {p : List UInt8} (noZero : 0 ∉ p) (enough : p.length ≤ fuel) :
    (scan fuel p).1 = terminated p ∧ newline ∉ (scan fuel p).2 ∧ whole p ++ (scan fuel p).2 = p ∧
      ∀ more, terminated (p ++ more) = terminated p ++ terminated ((scan fuel p).2 ++ more) := by
  induction p using line_induction generalizing fuel with
  | last p noLine =>
    have stops : scan fuel p = ([], p) := by
      cases fuel with
      | zero => rfl
      | succ fuel => rw [scan, strchr_none noLine]
    rw [stops, whole, terminated_none noLine]
    exact ⟨rfl, noLine, rfl, fun _ => rfl⟩
  | next line p isLine ih =>
    rw [List.mem_append, List.mem_cons, not_or, not_or] at noZero
    rw [List.length_append, List.length_cons] at enough
    obtain ⟨fuel, rfl⟩ : ∃ fuel', fuel = fuel' + 1 := ⟨fuel - 1, by omega⟩
    obtain ⟨visits, leaves, joined, append⟩ := @ih fuel noZero.2.2 (by omega)
    have goesOn : scan (fuel + 1) (line ++ newline :: p) =
        (line :: (scan fuel p).1, (scan fuel p).2) := by
      rw [scan, strchr_line noZero.1 isLine]
      simp
    rw [goesOn, terminated_cons isLine, whole_cons isLine]
    refine ⟨by rw [visits], leaves, ?_, fun more => ?_⟩
    · rw [List.append_assoc, List.cons_append, joined]
    · rw [List.append_assoc, List.cons_append, terminated_cons isLine, append]
      rfl

variable {buf : List UInt8}

theorem kept_none (noZero : 0 ∉ buf) (noLine : newline ∉ buf) : kept buf = [] := by
  obtain ⟨_, _, joined, _⟩ := scan_spec noZero (Nat.le_refl _)
  rw [whole, terminated_none noLine, List.flatMap_nil, List.nil_append] at joined
  exact if_pos (congrArg List.length joined)

theorem kept_line (noZero : 0 ∉ buf) (hasLine : newline ∈ buf) :
    kept buf = (scan buf.length buf).2 := by
  obtain ⟨_, leaves, joined, _⟩ := scan_spec noZero (Nat.le_refl _)
  refine if_neg fun same => leaves ?_
  have lengths := congrArg List.length joined
  rw [List.length_append, same] at lengths
  have noLines : whole buf = [] := List.eq_nil_of_length_eq_zero (by omega)
  rw [noLines, List.nil_append] at joined
  rw [joined]
  exact hasLine

/-- What the buffer keeps is the end of what it held, without a newline. -/
theorem kept_suffix (noZero : 0 ∉ buf) : newline ∉ kept buf ∧ 0 ∉ kept buf := by
  by_cases hasLine : newline ∈ buf
  · obtain ⟨_, leaves, joined, _⟩ := scan_spec noZero (Nat.le_refl _)
    rw [kept_line noZero hasLine]
    refine ⟨leaves, fun member => noZero ?_⟩
    rw [← joined]
    exact List.mem_append_right _ member
  · rw [kept_none noZero hasLine]
    exact ⟨List.not_mem_nil, List.not_mem_nil⟩

/-! ## Reads -/

/-- Every read that is followed by a newline brings one itself. -/
def LineByLine : List (List UInt8) → Prop
  | [] => True
  | piece :: pieces => (newline ∈ pieces.flatten → newline ∈ piece) ∧ LineByLine pieces

variable {m : List UInt8} {pieces : List (List UInt8)}

/-- Without a newline nothing is written. -/
theorem grep_none (pattern : List UInt8) (noZero : 0 ∉ m ++ pieces.flatten)
    (noLine : newline ∉ m ++ pieces.flatten) : grep pattern m pieces = [] := by
  induction pieces generalizing m with
  | nil => rfl
  | cons piece pieces ih =>
    rw [List.flatten_cons, ← List.append_assoc, List.mem_append, not_or] at noZero noLine
    rw [grep, (scan_spec noZero.1 (Nat.le_refl _)).1, terminated_none noLine.1, kept_none noZero.1 noLine.1]
    exact ih noZero.2 noLine.2

/-- Line by line, `grep` sees every line. -/
theorem grep_selected (pattern : List UInt8) (noZero : 0 ∉ m ++ pieces.flatten)
    (noLine : newline ∉ m) (lineByLine : LineByLine pieces) :
    grep pattern m pieces = selected pattern (m ++ pieces.flatten) := by
  induction pieces generalizing m with
  | nil =>
    rw [List.flatten_nil, List.append_nil, selected, terminated_none noLine]
    rfl
  | cons piece pieces ih =>
    by_cases hasLine : newline ∈ piece
    · rw [List.flatten_cons, ← List.append_assoc, List.mem_append, not_or] at noZero
      have hasLine' : newline ∈ m ++ piece := List.mem_append_right m hasLine
      obtain ⟨visits, leaves, joined, append⟩ := scan_spec noZero.1 (Nat.le_refl _)
      have later := @ih (kept (m ++ piece)) (by simp [kept_suffix noZero.1, noZero.2])
        (kept_suffix noZero.1).1 lineByLine.2
      rw [grep, later, visits, List.flatten_cons, ← List.append_assoc, selected, selected, append,
        List.flatMap_append, kept_line noZero.1 hasLine']
    · have noLines : newline ∉ m ++ (piece :: pieces).flatten := by
        rw [List.flatten_cons, List.mem_append, List.mem_append, not_or, not_or]
        exact ⟨noLine, hasLine, fun later => hasLine (lineByLine.1 later)⟩
      rw [grep_none pattern noZero noLines, selected, terminated_none noLines]
      rfl

theorem writes_nil (line : List UInt8) : writes [] line = line ++ [newline] :=
  if_pos (by cases line <;> rfl)

theorem selected_nil (input : List UInt8) : selected [] input = whole input := by
  unfold selected whole
  simp only [funext writes_nil]

/-- What has no newline joins the line behind it. -/
theorem whole_append {p more : List UInt8} (noLine : newline ∉ p) (hasLine : newline ∈ more) :
    whole (p ++ more) = p ++ whole more := by
  obtain ⟨line, rest, rfl, isLine⟩ := List.eq_append_cons_of_mem hasLine
  have joined : newline ∉ p ++ line := by simp [noLine, isLine]
  rw [← List.append_assoc, whole_cons joined, whole_cons isLine, List.append_assoc]

/-- With the empty pattern, `grep` writes as much as there is in lines only if it reads them line by
line. -/
theorem grep_nil_length (noZero : 0 ∉ m ++ pieces.flatten) (noLine : newline ∉ m)
    (served : Served m pieces) :
    (grep [] m pieces).length ≤ (whole (m ++ pieces.flatten)).length ∧
      ((grep [] m pieces).length = (whole (m ++ pieces.flatten)).length → LineByLine pieces) := by
  induction pieces generalizing m with
  | nil => exact ⟨Nat.zero_le _, fun _ => trivial⟩
  | cons piece pieces ih =>
    obtain ⟨notEmpty, _, served'⟩ := served
    have noZero' := noZero
    rw [List.flatten_cons, ← List.append_assoc, List.mem_append, not_or] at noZero'
    have after := kept_suffix noZero'.1
    obtain ⟨most, exact_⟩ := @ih (kept (m ++ piece)) (by simp [after, noZero'.2]) after.1 served'
    obtain ⟨visits, _, _, append⟩ := scan_spec noZero'.1 (Nat.le_refl _)
    by_cases hasLine : newline ∈ piece
    · have total : (whole (m ++ (piece :: pieces).flatten)).length =
          (whole (m ++ piece)).length + (whole (kept (m ++ piece) ++ pieces.flatten)).length := by
        rw [kept_line noZero'.1 (List.mem_append_right m hasLine), List.flatten_cons,
          ← List.append_assoc, whole, append, List.flatMap_append, List.length_append]
        rfl
      have written : (grep [] m (piece :: pieces)).length =
          (whole (m ++ piece)).length + (grep [] (kept (m ++ piece)) pieces).length := by
        rw [grep, visits, List.length_append, ← selected_nil]
        rfl
      rw [total, written]
      exact ⟨by omega, fun same => ⟨fun _ => hasLine, exact_ (by omega)⟩⟩
    · have noLine' : newline ∉ m ++ piece := by simp [noLine, hasLine]
      rw [kept_none noZero'.1 noLine'] at most exact_
      have written : (grep [] m (piece :: pieces)).length = (grep [] [] pieces).length := by
        rw [grep, visits, terminated_none noLine', kept_none noZero'.1 noLine']
        rfl
      rw [written, List.flatten_cons, ← List.append_assoc]
      by_cases later : newline ∈ pieces.flatten
      · have lost := List.length_pos_iff.mpr notEmpty
        rw [whole_append noLine' later, List.length_append, List.length_append]
        rw [List.nil_append] at most
        exact ⟨by omega, fun same => by omega⟩
      · have nothing : newline ∉ [] ++ pieces.flatten := later
        rw [grep_none [] (by simpa using noZero'.2) nothing]
        refine ⟨Nat.zero_le _, fun _ => ⟨fun there => absurd there later, ?_⟩⟩
        refine exact_ ?_
        rw [grep_none [] (by simpa using noZero'.2) nothing, whole, terminated_none nothing]
        rfl

/-- `grep` writes the lines that match, whatever the pattern, exactly if every read that is followed
by a newline brings one itself. -/
theorem grep_selects_iff {pieces : List (List UInt8)} (noZero : 0 ∉ pieces.flatten)
    (served : Served [] pieces) :
    (∀ pattern, grep pattern [] pieces = selected pattern pieces.flatten) ↔ LineByLine pieces := by
  constructor
  · intro selects
    refine (grep_nil_length noZero List.not_mem_nil served).2 ?_
    rw [selects, selected_nil]
    rfl
  · intro lineByLine pattern
    exact grep_selected pattern noZero List.not_mem_nil lineByLine

/-- The line `cd` comes in two reads, after a line of the first and before one of the second. -/
theorem grep_selects_twoLines :
    grep [100] [] [[97, 98, newline, 99], [100, newline, 98, newline]] =
      selected [100] [97, 98, newline, 99, 100, newline, 98, newline] :=
  (grep_selects_iff (show 0 ∉ [[97, 98, newline, 99], [100, newline, 98, newline]].flatten by decide)
    ⟨by decide, by decide, by decide, by decide, trivial⟩).mpr ⟨by decide, by decide, trivial⟩ [100]

/-- The line `ab` comes in two reads: its first byte is lost. -/
theorem grep_twoReads :
    Served [] [[97], [98, newline]] ∧ terminated [97, 98, newline] = [[97, 98]] ∧
      match_ [97] [97, 98] = true ∧ grep [97] [] [[97], [98, newline]] = [] := by
  refine ⟨⟨by decide, by decide, by decide, by decide, trivial⟩, ?_, by decide, by decide⟩
  exact terminated_cons (show newline ∉ [97, 98] by decide) []

end Xv6.Grep
