import Mathlib

/-!
# C integers

Conversions to the fixed-width integer types of C on a 64-bit machine, as functions on `Int`:
`int` has 32 bits, `long` and `ssize_t` have 64, `size_t` is unsigned. Each is the identity on
the range of its type.
-/

namespace Tlpi.Lib

def INT_MAX : Int := 2 ^ 31 - 1
def SSIZE_MAX : Nat := 2 ^ 63 - 1

/-- Conversion to `int`. -/
def toInt32 (x : Int) : Int := Int.bmod x (2 ^ 32)

/-- Conversion to `long` or `ssize_t`. -/
def toInt64 (x : Int) : Int := Int.bmod x (2 ^ 64)

/-- Conversion to `size_t` or `unsigned long long`. -/
def toUInt64 (x : Int) : Nat := (x % 2 ^ 64).toNat

theorem toInt32_of_range {x : Int} (h1 : -2 ^ 31 ≤ x) (h2 : x < 2 ^ 31) : toInt32 x = x := by
  unfold toInt32
  apply Int.bmod_eq_of_le <;> norm_num <;> omega

theorem toInt32_le (x : Int) : toInt32 x ≤ INT_MAX := by
  have h : Int.bmod x (2 ^ 32) < ((2 ^ 32 : Nat) + 1) / 2 := Int.bmod_lt (by norm_num)
  unfold toInt32 INT_MAX
  omega

theorem toInt32_sub (x y : Int) : toInt32 (toInt32 x - y) = toInt32 (x - y) := Int.bmod_sub_bmod

theorem toInt64_of_range {x : Int} (h1 : -2 ^ 63 ≤ x) (h2 : x < 2 ^ 63) : toInt64 x = x := by
  unfold toInt64
  apply Int.bmod_eq_of_le <;> norm_num <;> omega

theorem toUInt64_of_range {x : Int} (h1 : 0 ≤ x) (h2 : x < 2 ^ 64) : toUInt64 x = x.toNat := by
  unfold toUInt64
  rw [Int.emod_eq_of_lt h1 h2]

theorem toUInt64_natCast {n : Nat} (h : n < 2 ^ 64) : toUInt64 n = n := by
  rw [toUInt64_of_range (by omega) (by omega), Int.toNat_natCast]

end Tlpi.Lib
