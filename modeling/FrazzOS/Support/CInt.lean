import Mathlib.Tactic.Common

/-!
# Support — CInt

The conversions C makes between a 64-bit unsigned value, written here as a natural number below
`2⁶⁴`, and a 32-bit `int`, written as an integer.  Truncation to `int` keeps the value modulo
`2³²` (`toInt32`); the conversion back extends the sign (`toUInt64`).
-/

namespace CInt

/-- `(int)x`: the representative of `x` modulo `2³²` in `[-2³¹, 2³¹)`. -/
def toInt32 (x : Int) : Int :=
  if x % 4294967296 < 2147483648 then x % 4294967296 else x % 4294967296 - 4294967296

/-- `(uint64_t)x` of a signed `x`. -/
def toUInt64 (x : Int) : Nat := (x % 18446744073709551616).toNat

theorem toInt32_of_range {x : Int} (h₀ : -2147483648 ≤ x) (h₁ : x < 2147483648) :
    toInt32 x = x := by
  unfold toInt32; split <;> omega

theorem toInt32_range (x : Int) : -2147483648 ≤ toInt32 x ∧ toInt32 x < 2147483648 := by
  unfold toInt32; split <;> omega

/-- A value below `2³²` truncates to `0` only when it is `0`. -/
theorem toInt32_eq_zero {x : Nat} (h : x < 4294967296) : toInt32 x = 0 ↔ x = 0 := by
  unfold toInt32; split <;> omega

theorem toUInt64_natCast {x : Nat} (h : x < 18446744073709551616) : toUInt64 x = x := by
  unfold toUInt64; omega

theorem toUInt64_of_neg {x : Int} (h₀ : -18446744073709551616 ≤ x) (h₁ : x < 0) :
    (toUInt64 x : Int) = x + 18446744073709551616 := by
  unfold toUInt64; omega

theorem toUInt64_lt (x : Int) : toUInt64 x < 18446744073709551616 := by
  unfold toUInt64; omega

end CInt
