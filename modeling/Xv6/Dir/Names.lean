import Mathlib

/-!
Names of directory entries.

Owns: `strncmp`, `strncpy` and `namecmp` of the kernel; the bytes that count in a field of `DIRSIZ`
bytes; and that two fields compare equal where these bytes are the same.

Does not own: entries (`Xv6.Dir.Entries`); the names that a path is made of (`Xv6.Dir.Path`).

A pointer is what can be read from there on.
-/

namespace Xv6.Dir

def dirsiz : Nat := 14

/-! ## Strings -/

/-- `strncmp` of `n` bytes from `i` on. -/
def strncmp (p q : Nat → UInt8) (i : Nat) : Nat → Int
  | 0 => 0
  | n + 1 =>
    if p i ≠ 0 ∧ p i = q i then strncmp p q (i + 1) n
    else ((p i).toNat : Int) - (q i).toNat

/-- The `n` bytes that `strncpy` writes. -/
def strncpy (t : Nat → UInt8) (i : Nat) : Nat → List UInt8
  | 0 => []
  | n + 1 => if t i = 0 then List.replicate (n + 1) 0 else t i :: strncpy t (i + 1) n

def namecmp (s t : Nat → UInt8) : Int :=
  strncmp s t 0 dirsiz

/-! ## What a name is -/

/-- The bytes before the first zero among `n` bytes from `i` on. -/
def upToNul (p : Nat → UInt8) (i : Nat) : Nat → List UInt8
  | 0 => []
  | n + 1 => if p i = 0 then [] else p i :: upToNul p (i + 1) n

/-- The name in a field of `DIRSIZ` bytes, which has a zero behind it or fills the field. -/
def nameOf (p : Nat → UInt8) : List UInt8 :=
  upToNul p 0 dirsiz

/-- The bytes of a list as a pointer shows them. -/
def pointer (bytes : List UInt8) : Nat → UInt8 :=
  fun i => bytes.getD i 0

theorem strncmp_eq_zero_iff (p q : Nat → UInt8) (i n : Nat) :
    strncmp p q i n = 0 ↔ upToNul p i n = upToNul q i n := by
  induction n generalizing i with
  | zero => exact iff_of_true rfl rfl
  | succ n ih =>
    rw [strncmp, upToNul, upToNul]
    by_cases same : p i = q i
    · rw [← same]
      by_cases isNul : p i = 0
      · rw [if_neg (fun both => both.1 isNul), if_pos isNul, if_pos isNul, isNul]
        exact iff_of_true (Int.sub_self _) rfl
      · rw [if_pos ⟨isNul, rfl⟩, if_neg isNul, if_neg isNul, ih, List.cons.injEq]
        exact ⟨fun rest => ⟨rfl, rest⟩, And.right⟩
    · rw [if_neg (fun both => same both.2)]
      refine iff_of_false ?_ ?_
      · intro zero
        exact same (UInt8.toNat_inj.mp (by omega))
      · intro lists
        by_cases isNul : p i = 0
        · rw [if_pos isNul] at lists
          by_cases isNul' : q i = 0
          · exact same (isNul.trans isNul'.symm)
          · rw [if_neg isNul'] at lists
            cases lists
        · rw [if_neg isNul] at lists
          by_cases isNul' : q i = 0
          · rw [if_pos isNul'] at lists
            cases lists
          · rw [if_neg isNul'] at lists
            exact same (List.cons.inj lists).1

/-- `namecmp` compares names. -/
theorem namecmp_eq_zero_iff (s t : Nat → UInt8) : namecmp s t = 0 ↔ nameOf s = nameOf t :=
  strncmp_eq_zero_iff s t 0 dirsiz

theorem length_strncpy (t : Nat → UInt8) (i n : Nat) : (strncpy t i n).length = n := by
  induction n generalizing i with
  | zero => rfl
  | succ n ih =>
    rw [strncpy]
    split
    · exact List.length_replicate
    · rw [List.length_cons, ih]

theorem upToNul_congr {p q : Nat → UInt8} {i j n : Nat} (same : ∀ k, k < n → p (i + k) = q (j + k)) :
    upToNul p i n = upToNul q j n := by
  induction n generalizing i j with
  | zero => rfl
  | succ n ih =>
    have first := same 0 (Nat.succ_pos n)
    rw [Nat.add_zero, Nat.add_zero] at first
    rw [upToNul, upToNul, first]
    split
    · rfl
    · refine congrArg _ (ih fun k below => ?_)
      have next := same (k + 1) (Nat.succ_lt_succ below)
      rwa [Nat.add_comm k 1, ← Nat.add_assoc, ← Nat.add_assoc] at next

/-- A copy has the same name, whatever is behind the name that was copied. -/
theorem upToNul_strncpy (t : Nat → UInt8) (i n : Nat) :
    upToNul (pointer (strncpy t i n)) 0 n = upToNul t i n := by
  induction n generalizing i with
  | zero => rfl
  | succ n ih =>
    rw [strncpy, upToNul, upToNul]
    by_cases isNul : t i = 0
    · rw [if_pos isNul, if_pos isNul]
      exact if_pos rfl
    · have first : pointer (t i :: strncpy t (i + 1) n) 0 = t i := rfl
      rw [if_neg isNul, if_neg isNul, first, if_neg isNul, ← ih (i + 1)]
      refine congrArg _ (upToNul_congr fun k _ => ?_)
      rw [Nat.zero_add, Nat.zero_add, Nat.add_comm 1 k]
      rfl

theorem nameOf_strncpy (t : Nat → UInt8) : nameOf (pointer (strncpy t 0 dirsiz)) = nameOf t :=
  upToNul_strncpy t 0 dirsiz

end Xv6.Dir
