import Mathlib

/-!
Numbers in bytes.

Owns: the bytes of a number, the lowest first; reading a number back from a store of bytes, and
writing one or a block of bytes into it; and how reads and writes at the same or at different
places compose.

Does not own: what the store is and where its fields are.
-/

namespace Bytes

/-- The byte of a number at a place. -/
def byte (x i : Nat) : UInt8 :=
  UInt8.ofNat (x / 256 ^ i)

/-- The number in `width` bytes from `off`. -/
def get (s : Nat → UInt8) (off : Nat) : Nat → Nat
  | 0 => 0
  | width + 1 => (s off).toNat + 256 * get s (off + 1) width

/-- A number is written into `width` bytes from `off`. -/
def put (s : Nat → UInt8) (off width x : Nat) : Nat → UInt8 :=
  fun i => if off ≤ i ∧ i < off + width then byte x (i - off) else s i

/-- `width` bytes are copied to `off`. -/
def copy (s : Nat → UInt8) (off width : Nat) (block : Nat → UInt8) : Nat → UInt8 :=
  fun i => if off ≤ i ∧ i < off + width then block (i - off) else s i

variable {s s' : Nat → UInt8} {off off' width width' x : Nat}

theorem get_congr (same : ∀ i, off ≤ i → i < off + width → s i = s' i) :
    get s off width = get s' off width := by
  induction width generalizing off with
  | zero => rfl
  | succ width ih =>
    rw [get, get, same off (Nat.le_refl off) (by omega),
      ih fun i low high => same i (by omega) (by omega)]

/-- Reading the bytes of a number. -/
theorem get_of_bytes (bytes : ∀ i, i < width → s (off + i) = byte x i) :
    get s off width = x % 256 ^ width := by
  induction width generalizing off x with
  | zero => rw [get, Nat.pow_zero, Nat.mod_one]
  | succ width ih =>
    have rest : get s (off + 1) width = x / 256 % 256 ^ width := by
      apply ih
      intro i inside
      rw [Nat.add_assoc, Nat.add_comm 1 i, bytes (i + 1) (by omega), byte, byte, Nat.pow_succ',
        Nat.div_div_eq_div_mul]
    have first : (s off).toNat = x % 256 := by
      rw [← Nat.add_zero off, bytes 0 (by omega), byte, Nat.pow_zero, Nat.div_one]
      exact UInt8.toNat_ofNat'
    rw [get, rest, first, Nat.pow_succ', Nat.mod_mul]

theorem get_put_same (s : Nat → UInt8) (off width x : Nat) :
    get (put s off width x) off width = x % 256 ^ width := by
  apply get_of_bytes
  intro i inside
  rw [put, if_pos (by omega), Nat.add_sub_cancel_left]

theorem get_put_other (apart : off' + width' ≤ off ∨ off + width ≤ off') :
    get (put s off width x) off' width' = get s off' width' := by
  apply get_congr
  intro i low high
  rw [put, if_neg (by omega)]

theorem get_copy {block : Nat → UInt8} (inside : off' + width' ≤ width) :
    get (copy s off width block) (off + off') width' = get block off' width' := by
  induction width' generalizing off' with
  | zero => rfl
  | succ width' ih =>
    rw [get, get, Nat.add_assoc, ih (by omega), copy, if_pos (by omega),
      Nat.add_sub_cancel_left]

theorem get_copy_other {block : Nat → UInt8} (apart : off' + width' ≤ off ∨ off + width ≤ off') :
    get (copy s off width block) off' width' = get s off' width' := by
  apply get_congr
  intro i low high
  rw [copy, if_neg (by omega)]

/-- A store of zeros. -/
theorem get_zero (zero : ∀ i, off ≤ i → i < off + width → s i = 0) : get s off width = 0 := by
  induction width generalizing off with
  | zero => rfl
  | succ width ih =>
    rw [get, zero off (Nat.le_refl off) (by omega),
      ih fun i low high => zero i (by omega) (by omega)]
    rfl

theorem get_lt (s : Nat → UInt8) (off width : Nat) : get s off width < 256 ^ width := by
  induction width generalizing off with
  | zero => exact Nat.one_pos
  | succ width ih =>
    have small := (s off).toNat_lt
    have rest := ih (off + 1)
    rw [get, Nat.pow_succ]
    omega

end Bytes
