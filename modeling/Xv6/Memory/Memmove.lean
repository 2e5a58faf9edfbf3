import Mathlib

/-!
`memmove` of the kernel and of the user library.

Owns: both functions on a 32-bit address space, and what each of them leaves in memory.

Does not own: the other functions of `string.c` and `ulib.c`.
-/

namespace Xv6.Memory

open Function (update update_self update_of_ne)

abbrev Word := BitVec 32

abbrev Mem := Word → BitVec 8

/-- Rounds of `*d++ = *s++`. -/
def copyUp (mem : Mem) (d s : Word) : Nat → Mem
  | 0 => mem
  | n + 1 =>
    let mem := copyUp mem d s n
    update mem (d + BitVec.ofNat 32 n) (mem (s + BitVec.ofNat 32 n))

/-- Rounds of `*--d = *--s`. -/
def copyDown (mem : Mem) (d s : Word) : Nat → Mem
  | 0 => mem
  | n + 1 =>
    let mem := copyDown mem d s n
    update mem (d - BitVec.ofNat 32 (n + 1)) (mem (s - BitVec.ofNat 32 (n + 1)))

/-- `memmove` of `string.c`. -/
def memmove (mem : Mem) (dst src n : Word) : Mem :=
  if src < dst ∧ dst < src + n then copyDown mem (dst + n) (src + n) n.toNat
  else copyUp mem dst src n.toNat

/-- `memmove` of `ulib.c`, with `n` an `int`. -/
def ulibMemmove (mem : Mem) (dst src n : Word) : Mem :=
  copyUp mem dst src n.toInt.toNat

/-- The destination holds what the source held, and nothing else has changed. -/
structure Moved (mem after : Mem) (dst src : Word) (n : Nat) : Prop where
  bytes : ∀ i < n, after (dst + BitVec.ofNat 32 i) = mem (src + BitVec.ofNat 32 i)
  rest : ∀ a, (∀ i < n, a ≠ dst + BitVec.ofNat 32 i) → after a = mem a

variable {mem : Mem} {dst src : Word} {n i : Nat}

theorem toNat_offset (inside : dst.toNat + i < 2 ^ 32) :
    (dst + BitVec.ofNat 32 i).toNat = dst.toNat + i := by
  rw [BitVec.toNat_add, BitVec.toNat_ofNat]
  omega

theorem offset_ne {j : Nat} (first : dst.toNat + i < 2 ^ 32) (second : src.toNat + j < 2 ^ 32)
    (different : dst.toNat + i ≠ src.toNat + j) :
    dst + BitVec.ofNat 32 i ≠ src + BitVec.ofNat 32 j := by
  intro same
  have equal := congrArg BitVec.toNat same
  rw [toNat_offset first, toNat_offset second] at equal
  exact different equal

/-! ## Forwards -/

theorem copyUp_rest {a : Word} (outside : ∀ i < n, a ≠ dst + BitVec.ofNat 32 i) :
    copyUp mem dst src n a = mem a := by
  induction n with
  | zero => rfl
  | succ n ih =>
    rw [copyUp, update_of_ne (outside n (Nat.lt_succ_self n))]
    exact ih fun i below => outside i (Nat.lt_succ_of_lt below)

/-- A round that reads what no earlier round has written. -/
theorem copyUp_source (fitsDst : dst.toNat + n < 2 ^ 32) (fitsSrc : src.toNat + n < 2 ^ 32)
    (apart : ∀ i < n, src.toNat + n ≠ dst.toNat + i) :
    copyUp mem dst src n (src + BitVec.ofNat 32 n) = mem (src + BitVec.ofNat 32 n) :=
  copyUp_rest fun i below => offset_ne fitsSrc (by omega) (apart i below)

/-- Behind its start, the source is repeated. -/
theorem copyUp_bytes (fitsDst : dst.toNat + n ≤ 2 ^ 32) (fitsSrc : src.toNat + n ≤ 2 ^ 32)
    (below : i < n) :
    copyUp mem dst src n (dst + BitVec.ofNat 32 i) =
      mem (src + BitVec.ofNat 32 (if src < dst then i % (dst.toNat - src.toNat) else i)) := by
  induction n generalizing i with
  | zero => cases below
  | succ n ih =>
    by_cases last : i = n
    · subst last
      rw [copyUp, update_self]
      by_cases after : src < dst
      · rw [if_pos after]
        have after : src.toNat < dst.toNat := after
        by_cases early : i < dst.toNat - src.toNat
        · rw [Nat.mod_eq_of_lt early]
          exact copyUp_source (by omega) (by omega) (by omega)
        · -- The byte has been written already, one period before.
          have again := ih (i := i - (dst.toNat - src.toNat)) (by omega) (by omega) (by omega)
          rw [if_pos (show src < dst from after), ← Nat.mod_eq_sub_mod (by omega)] at again
          rw [← again]
          congr 1
          apply BitVec.eq_of_toNat_eq
          rw [toNat_offset (by omega), toNat_offset (by omega)]
          omega
      · rw [if_neg after]
        have before : ¬src.toNat < dst.toNat := after
        exact copyUp_source (by omega) (by omega) (by omega)
    · rw [copyUp, update_of_ne (offset_ne (by omega) (by omega) (by omega))]
      exact ih (by omega) (by omega) (by omega)

theorem copyUp_moved_iff (fitsDst : dst.toNat + n ≤ 2 ^ 32) (fitsSrc : src.toNat + n ≤ 2 ^ 32) :
    Moved mem (copyUp mem dst src n) dst src n ↔ (src < dst → ∀ i < n,
      mem (src + BitVec.ofNat 32 (i % (dst.toNat - src.toNat))) = mem (src + BitVec.ofNat 32 i)) := by
  constructor
  · intro moved after i below
    rw [← moved.bytes i below, copyUp_bytes fitsDst fitsSrc below, if_pos after]
  · intro repeats
    refine ⟨fun i below => ?_, fun a => copyUp_rest⟩
    rw [copyUp_bytes fitsDst fitsSrc below]
    split
    · exact repeats ‹_› i below
    · rfl

/-! ## Backwards -/

theorem offset_back (p : Word) {n : Word} (below : i < n.toNat) :
    p + n - BitVec.ofNat 32 (i + 1) = p + BitVec.ofNat 32 (n.toNat - (i + 1)) := by
  apply BitVec.eq_of_toNat_eq
  simp only [BitVec.toNat_sub, BitVec.toNat_add, BitVec.toNat_ofNat]
  omega

theorem copyDown_rest {a : Word} (outside : ∀ i < n, a ≠ dst - BitVec.ofNat 32 (i + 1)) :
    copyDown mem dst src n a = mem a := by
  induction n with
  | zero => rfl
  | succ n ih =>
    rw [copyDown, update_of_ne (outside n (Nat.lt_succ_self n))]
    exact ih fun i below => outside i (Nat.lt_succ_of_lt below)

/-- With the end of the destination above that of the source, no round reads what an earlier one
has written. -/
theorem copyDown_bytes {n : Word} {k : Nat} (after : src.toNat < dst.toNat)
    (fits : dst.toNat + n.toNat ≤ 2 ^ 32) (rounds : k ≤ n.toNat) (low : n.toNat - k ≤ i)
    (high : i < n.toNat) :
    copyDown mem (dst + n) (src + n) k (dst + BitVec.ofNat 32 i) = mem (src + BitVec.ofNat 32 i) := by
  induction k with
  | zero => omega
  | succ k ih =>
    rw [copyDown, offset_back dst rounds, offset_back src rounds]
    by_cases last : i = n.toNat - (k + 1)
    · rw [← last, update_self]
      refine copyDown_rest fun j earlier => ?_
      rw [offset_back dst (by omega)]
      exact offset_ne (by omega) (by omega) (by omega)
    · rw [update_of_ne (offset_ne (by omega) (by omega) (by omega))]
      exact ih (by omega) (by omega)

theorem copyDown_moved {n : Word} (after : src.toNat < dst.toNat)
    (fits : dst.toNat + n.toNat ≤ 2 ^ 32) :
    Moved mem (copyDown mem (dst + n) (src + n) n.toNat) dst src n.toNat where
  bytes _ below := copyDown_bytes after fits (Nat.le_refl _) (by omega) below
  rest a outside := by
    refine copyDown_rest fun i below => ?_
    rw [offset_back dst below]
    exact outside _ (by omega)

/-! ## Both -/

/-- The kernel's `memmove` moves the bytes wherever the ranges lie. The one of the user library does
so unless the destination starts inside the source, which has to repeat itself then. -/
theorem memmove_moves_iff (mem : Mem) (dst src n : Word) (fitsDst : dst.toNat + n.toNat ≤ 2 ^ 32)
    (fitsSrc : src.toNat + n.toNat ≤ 2 ^ 32) :
    Moved mem (memmove mem dst src n) dst src n.toNat ∧
    (0 ≤ n.toInt → (Moved mem (ulibMemmove mem dst src n) dst src n.toNat ↔
      (src < dst → ∀ i < n.toNat, mem (src + BitVec.ofNat 32 (i % (dst.toNat - src.toNat))) =
        mem (src + BitVec.ofNat 32 i)))) := by
  constructor
  · unfold memmove
    split
    · rename_i overlaps
      exact copyDown_moved overlaps.1 fitsDst
    · rename_i apart
      refine (copyUp_moved_iff fitsDst fitsSrc).mpr fun after i below => ?_
      have after : src.toNat < dst.toNat := after
      rw [Nat.mod_eq_of_lt]
      by_contra late
      refine apart ⟨after, ?_⟩
      rw [BitVec.lt_def, BitVec.toNat_add]
      omega
  · intro positive
    have rounds : n.toInt.toNat = n.toNat := by
      rw [BitVec.toInt_eq_toNat_cond] at positive ⊢
      split at positive <;> omega
    rw [ulibMemmove, rounds]
    exact copyUp_moved_iff fitsDst fitsSrc

theorem memmove_moves_up : Moved (fun a => a.setWidth 8) (memmove (fun a => a.setWidth 8) 1 0 2) 1 0 2 :=
  (memmove_moves_iff _ 1 0 2 (by decide) (by decide)).1

/-- The bytes 0 and 1, moved up by one place, become 0 and 0. -/
theorem ulibMemmove_smears :
    ¬Moved (fun a => a.setWidth 8) (ulibMemmove (fun a => a.setWidth 8) 1 0 2) 1 0 2 := by
  intro moved
  exact absurd (moved.bytes 1 (by decide)) (by decide)

end Xv6.Memory
