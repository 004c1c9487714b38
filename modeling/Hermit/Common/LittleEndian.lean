import Mathlib

/-!
# Little-endian numbers

`to_le_bytes` and `from_le_bytes` of the unsigned integer types, for any width.
-/

namespace Hermit.Common

/-- The `width` lowest bytes of a number, the lowest first. -/
def toLeBytes : ℕ → ℕ → List UInt8
  | 0, _ => []
  | width + 1, n => UInt8.ofNat n :: toLeBytes width (n / 256)

/-- The number whose bytes these are, the lowest first. -/
def fromLeBytes : List UInt8 → ℕ
  | [] => 0
  | b :: bytes => b.toNat + 256 * fromLeBytes bytes

@[simp] theorem length_toLeBytes (width n : ℕ) : (toLeBytes width n).length = width := by
  induction width generalizing n with
  | zero => rfl
  | succ width ih => simp [toLeBytes, ih]

/-- A number that has no more than `width` bytes is read back. -/
theorem fromLeBytes_toLeBytes {width n : ℕ} (h : n < 256 ^ width) :
    fromLeBytes (toLeBytes width n) = n := by
  induction width generalizing n with
  | zero =>
    rw [pow_zero] at h
    rw [toLeBytes, fromLeBytes]
    omega
  | succ width ih =>
    have hrest : n / 256 < 256 ^ width := by
      rw [Nat.div_lt_iff_lt_mul (by omega)]
      rwa [pow_succ] at h
    rw [toLeBytes, fromLeBytes, ih hrest]
    have hlow : (UInt8.ofNat n).toNat = n % 256 := UInt8.toNat_ofNat
    rw [hlow]
    omega

example : toLeBytes 4 515 = [3, 2, 0, 0] := by decide

end Hermit.Common
