import Mathlib

/-!
The matcher of `grep`.

Owns: `match`, `matchhere` and `matchstar`; the items that a pattern stands for, with the pieces of
text that match them; and that the matcher finds a match exactly if there is one.

Does not own: how `grep` finds the lines (`Xv6.Grep.Lines`).

A string is the list of its bytes before the terminating NUL, so that `*text == '\0'` is `[]`.
-/

namespace Xv6.Grep

def caret : UInt8 := 94

def dollar : UInt8 := 36

def star : UInt8 := 42

def dot : UInt8 := 46

/-! ## The program -/

/-- The loop of `matchstar`, where `here` is `matchhere(re, ·)`. -/
def matchstar (c : UInt8) (here : List UInt8 → Bool) : List UInt8 → Bool
  | [] => here []
  | t :: text => here (t :: text) || ((t = c || c = dot) && matchstar c here text)

/-- The last test of `matchhere`, where `here` is `matchhere(re+1, ·)`. -/
def matchone (c : UInt8) (here : List UInt8 → Bool) : List UInt8 → Bool
  | [] => false
  | t :: text => (c = dot || c = t) && here text

def matchhere : List UInt8 → List UInt8 → Bool
  | [], _ => true
  | [c], text => if c = dollar then text.isEmpty else matchone c (matchhere []) text
  | c :: d :: re, text =>
    if d = star then matchstar c (matchhere re) text else matchone c (matchhere (d :: re)) text

/-- The loop of `match`. -/
def matchAny (here : List UInt8 → Bool) : List UInt8 → Bool
  | [] => here []
  | t :: text => here (t :: text) || matchAny here text

def match_ (re text : List UInt8) : Bool :=
  match re with
  | [] => matchAny (matchhere []) text
  | c :: rest => if c = caret then matchhere rest text else matchAny (matchhere (c :: rest)) text

/-! ## What a pattern means -/

inductive Item where
  | one (c : UInt8)
  | many (c : UInt8)
  | ending
deriving DecidableEq, Repr

/-- The items of a pattern, read from left to right. -/
def items : List UInt8 → List Item
  | [] => []
  | [c] => [if c = dollar then .ending else .one c]
  | c :: d :: re => if d = star then .many c :: items re else .one c :: items (d :: re)

/-- A character of a pattern stands for itself, and a dot for any character. -/
def Stands (c t : UInt8) : Prop :=
  c = dot ∨ c = t

/-- The piece, with `after` behind it, matches the item. -/
def Item.Matches : Item → List UInt8 → List UInt8 → Prop
  | .one c, piece, _ => ∃ t, piece = [t] ∧ Stands c t
  | .many c, piece, _ => ∀ t ∈ piece, Stands c t
  | .ending, piece, after => piece = [] ∧ after = []

/-- The string splits into consecutive pieces that match the items. -/
inductive Splits (after : List UInt8) : List Item → List UInt8 → Prop where
  | nil : Splits after [] []
  | cons {item : Item} {rest : List Item} {piece string : List UInt8}
      (first : item.Matches piece (string ++ after)) (others : Splits after rest string) :
      Splits after (item :: rest) (piece ++ string)

/-- Some beginning of the text matches the items. -/
def Begins (pattern : List Item) (text : List UInt8) : Prop :=
  ∃ string after, text = string ++ after ∧ Splits after pattern string

/-- The text has what the pattern asks for: at its beginning if the pattern starts with a caret. -/
def Meets (re text : List UInt8) : Prop :=
  if re.head? = some caret then Begins (items re.tail) text
  else ∃ before rest, text = before ++ rest ∧ Begins (items re) rest

/-! ## Correctness -/

theorem begins_nil (text : List UInt8) : Begins [] text :=
  ⟨[], text, rfl, .nil⟩

variable {rest : List Item} {text : List UInt8} {c : UInt8}

/-- The first item takes a piece, and what is left begins with the others. -/
theorem begins_cons {item : Item} :
    Begins (item :: rest) text ↔
      ∃ piece left, text = piece ++ left ∧ item.Matches piece left ∧ Begins rest left := by
  constructor
  · rintro ⟨_, after, rfl, splits⟩
    cases splits with
    | @cons _ _ piece string first others =>
      exact ⟨piece, string ++ after, List.append_assoc .., first, string, after, rfl, others⟩
  · rintro ⟨piece, _, rfl, first, string, after, rfl, others⟩
    exact ⟨piece ++ string, after, (List.append_assoc ..).symm, .cons first others⟩

theorem begins_one :
    Begins (.one c :: rest) text ↔ ∃ t left, text = t :: left ∧ Stands c t ∧ Begins rest left := by
  rw [begins_cons]
  constructor
  · rintro ⟨_, left, rfl, ⟨t, rfl, stands⟩, begins⟩
    exact ⟨t, left, rfl, stands, begins⟩
  · rintro ⟨t, left, rfl, stands, begins⟩
    exact ⟨[t], left, rfl, ⟨t, rfl, stands⟩, begins⟩

theorem begins_ending : Begins [.ending] text ↔ text = [] := by
  rw [begins_cons]
  constructor
  · rintro ⟨_, _, rfl, ⟨rfl, rfl⟩, _⟩
    rfl
  · rintro rfl
    exact ⟨[], [], rfl, ⟨rfl, rfl⟩, begins_nil []⟩

/-- A starred item takes nothing, or one character and then goes on. -/
theorem begins_many :
    Begins (.many c :: rest) text ↔
      Begins rest text ∨ ∃ t left, text = t :: left ∧ Stands c t ∧ Begins (.many c :: rest) left := by
  constructor
  · intro begins
    obtain ⟨piece, left, rfl, first, others⟩ := begins_cons.mp begins
    cases piece with
    | nil => exact .inl others
    | cons t piece =>
      refine .inr ⟨t, piece ++ left, rfl, first t List.mem_cons_self, ?_⟩
      exact begins_cons.mpr ⟨piece, left, rfl,
        fun u member => first u (List.mem_cons_of_mem t member), others⟩
  · rintro (begins | ⟨t, _, rfl, stands, begins⟩)
    · exact begins_cons.mpr ⟨[], text, rfl, List.forall_mem_nil _, begins⟩
    · obtain ⟨piece, left, rfl, first, others⟩ := begins_cons.mp begins
      refine begins_cons.mpr ⟨t :: piece, left, rfl, ?_, others⟩
      intro u member
      rcases List.mem_cons.mp member with rfl | member
      · exact stands
      · exact first u member

variable {here : List UInt8 → Bool}

theorem matchone_iff (correct : ∀ text, here text = true ↔ Begins rest text) (text : List UInt8) :
    matchone c here text = true ↔ Begins (.one c :: rest) text := by
  rw [begins_one]
  cases text <;> simp [matchone, Stands, correct]

theorem matchstar_iff (correct : ∀ text, here text = true ↔ Begins rest text) (text : List UInt8) :
    matchstar c here text = true ↔ Begins (.many c :: rest) text := by
  induction text with
  | nil =>
    rw [matchstar, correct, begins_many]
    simp
  | cons t text ih =>
    rw [matchstar, begins_many, Bool.or_eq_true, correct, Bool.and_eq_true, ih]
    refine or_congr_right ?_
    simp [Stands, or_comm, eq_comm (a := t)]

theorem matchhere_iff (re text : List UInt8) :
    matchhere re text = true ↔ Begins (items re) text := by
  -- The items are read as `matchhere` recurses: one character at a time, or two for a starred one.
  induction re using items.induct generalizing text with
  | case1 => exact iff_of_true (by rw [matchhere]) (begins_nil text)
  | case2 c =>
    rw [items, matchhere]
    by_cases isDollar : c = dollar
    · rw [if_pos isDollar, if_pos isDollar, begins_ending, List.isEmpty_iff]
    · rw [if_neg isDollar, if_neg isDollar]
      exact matchone_iff (fun text => iff_of_true (by rw [matchhere]) (begins_nil text)) text
  | case3 c re ih =>
    rw [items, matchhere, if_pos rfl, if_pos rfl]
    exact matchstar_iff ih text
  | case4 c d re notStar ih =>
    rw [items, matchhere, if_neg notStar, if_neg notStar]
    exact matchone_iff ih text

theorem matchAny_iff (here : List UInt8 → Bool) (text : List UInt8) :
    matchAny here text = true ↔ ∃ before rest, text = before ++ rest ∧ here rest = true := by
  induction text with
  | nil => simp [matchAny]
  | cons t text ih =>
    rw [matchAny, Bool.or_eq_true, ih]
    constructor
    · rintro (found | ⟨before, rest, rfl, found⟩)
      · exact ⟨[], t :: text, rfl, found⟩
      · exact ⟨t :: before, rest, rfl, found⟩
    · rintro ⟨before, rest, same, found⟩
      cases before with
      | nil =>
        subst same
        exact .inl found
      | cons _ before =>
        cases same
        exact .inr ⟨before, rest, rfl, found⟩

/-- The matcher decides whether the text has what the pattern asks for. -/
theorem match_iff_meets (re text : List UInt8) : match_ re text = true ↔ Meets re text := by
  have anywhere (re : List UInt8) : matchAny (matchhere re) text = true ↔
      ∃ before rest, text = before ++ rest ∧ Begins (items re) rest := by
    rw [matchAny_iff]
    simp only [matchhere_iff]
  unfold match_ Meets
  cases re with
  | nil => exact anywhere []
  | cons c re =>
    by_cases isCaret : c = caret
    · simp only [isCaret, if_true, List.head?_cons, List.tail_cons]
      exact matchhere_iff re text
    · simp only [isCaret, if_false, List.head?_cons, Option.some.injEq]
      exact anywhere (c :: re)

end Xv6.Grep
