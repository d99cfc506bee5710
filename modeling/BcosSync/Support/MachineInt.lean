import Mathlib.Algebra.Group.Int.Defs
import Mathlib.Algebra.Group.Nat.Defs

/-!
# Machine integers

Conversions of an exact integer to `size_t`, to `int64_t` and to `int32_t`,
with the range facts the callers need.  They are written with `%` so that
`omega` can work with them directly.
-/

namespace MachineInt

/-- Conversion to a 64-bit unsigned integer. -/
def toSize (x : ℤ) : ℕ := (x % 2 ^ 64).toNat

/-- Conversion to a 64-bit signed integer. -/
def toInt64 (x : ℤ) : ℤ := (x + 2 ^ 63) % 2 ^ 64 - 2 ^ 63

/-- Conversion to a 32-bit signed integer. -/
def toInt32 (x : ℤ) : ℤ := (x + 2 ^ 31) % 2 ^ 32 - 2 ^ 31

theorem toSize_lt (x : ℤ) : toSize x < 2 ^ 64 := by
  unfold toSize
  omega

theorem toInt64_range (x : ℤ) :
    -2 ^ 63 ≤ toInt64 x ∧ toInt64 x < 2 ^ 63 := by
  unfold toInt64
  omega

theorem toInt32_range (x : ℤ) :
    -2 ^ 31 ≤ toInt32 x ∧ toInt32 x < 2 ^ 31 := by
  unfold toInt32
  omega

theorem toSize_of_range {x : ℤ} (h₀ : 0 ≤ x) (h₁ : x < 2 ^ 64) :
    (toSize x : ℤ) = x := by
  unfold toSize
  omega

theorem toSize_eq_zero {x : ℤ} (h : -2 ^ 63 ≤ x ∧ x < 2 ^ 63)
    (hzero : toSize x = 0) : x = 0 := by
  unfold toSize at hzero
  omega

theorem toInt64_of_range {x : ℤ} (h₀ : -2 ^ 63 ≤ x) (h₁ : x < 2 ^ 63) :
    toInt64 x = x := by
  unfold toInt64
  omega

/-- A signed integer is read back from its 64 bits. -/
theorem toInt64_toSize {x : ℤ} (h : -2 ^ 63 ≤ x ∧ x < 2 ^ 63) :
    toInt64 (toSize x) = x := by
  unfold toInt64 toSize
  omega

theorem toInt32_toSize {x : ℤ} (h : -2 ^ 31 ≤ x ∧ x < 2 ^ 31) :
    toInt32 (toSize x) = x := by
  unfold toInt32 toSize
  omega

end MachineInt
