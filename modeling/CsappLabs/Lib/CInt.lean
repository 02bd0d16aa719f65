/-
# Machine integers as integers

A 32-bit machine integer is the integer it stands for; an operation of the
machine is the operation on integers followed by a reduction.  `int32` is the
reduction of `int` and `u32` that of `unsigned` and `size_t` on a 32-bit
target.  `addInt` is a sum that must not leave the range of `int`.  `alignDown` is the
mask `x & ~(k - 1)`.  `toSizeT` is an `int` turned into a `size_t`, and `schar` a byte
read as a `char`, which is signed on this target.
-/

import Mathlib.Data.Int.Notation
import Mathlib.Tactic.Ring

namespace Lib
namespace CInt

/-- The `int` congruent to `x` modulo `2^32`. -/
def int32 (x : ℤ) : ℤ := (x + 2 ^ 31) % 2 ^ 32 - 2 ^ 31

theorem int32_of_bounds {x : ℤ} (h1 : -2 ^ 31 ≤ x) (h2 : x < 2 ^ 31) : int32 x = x := by
  unfold int32; omega

/-- Adding to a reduced sum. -/
theorem int32_add (x y : ℤ) : int32 (int32 x + y) = int32 (x + y) := by
  unfold int32
  omega

/-- The `unsigned` congruent to `x` modulo `2^32`. -/
def u32 (x : ℕ) : ℕ := x % 2 ^ 32

theorem u32_of_lt {x : ℕ} (h : x < 2 ^ 32) : u32 x = x := Nat.mod_eq_of_lt h

theorem u32_lt (x : ℕ) : u32 x < 2 ^ 32 := Nat.mod_lt _ (by norm_num)

/-- `a + b` of two `unsigned`. -/
def add32 (a b : ℕ) : ℕ := u32 (a + b)

theorem add32_of_lt {a b : ℕ} (h : a + b < 2 ^ 32) : add32 a b = a + b := u32_of_lt h

/-- `a - b` of two `unsigned`. -/
def sub32 (a b : ℕ) : ℕ := u32 (a + 2 ^ 32 - b)

theorem sub32_of_le {a b : ℕ} (h : b ≤ a) (ha : a < 2 ^ 32) : sub32 a b = a - b := by
  unfold sub32 u32
  omega

theorem sub32_of_lt {a b : ℕ} (h : a < b) (hb : b < 2 ^ 32) : sub32 a b = a + 2 ^ 32 - b := by
  unfold sub32 u32
  omega

/-- `a + b` of two `int`s that are not negative, if it is an `int`. -/
def addInt (a b : ℕ) : Option ℕ := if a + b < 2 ^ 31 then some (a + b) else none

theorem addInt_of_lt {a b : ℕ} (h : a + b < 2 ^ 31) : addInt a b = some (a + b) := if_pos h

/-- `x & ~(k - 1)` for a power of two `k`: `x` rounded down to a multiple of `k`. -/
def alignDown (k x : ℕ) : ℕ := x - x % k

theorem alignDown_le (k x : ℕ) : alignDown k x ≤ x := Nat.sub_le _ _

theorem dvd_alignDown (k x : ℕ) : k ∣ alignDown k x := Nat.dvd_sub_mod x

/-- The `size_t` of an `int`. -/
def toSizeT (x : ℤ) : ℕ := (x % 2 ^ 32).toNat

theorem toSizeT_natCast {n : ℕ} (h : n < 2 ^ 32) : toSizeT n = n := by
  unfold toSizeT
  omega

/-- The value of a byte as a `signed char`. -/
def schar (c : UInt8) : ℤ := if c.toNat < 128 then c.toNat else c.toNat - 256

/-- The byte `n` as a `signed char` is `n` again for a small `n` only. -/
theorem schar_ofNat {n : ℕ} (h : n < 256) : schar (UInt8.ofNat n) = n ↔ n < 128 := by
  have hn : (UInt8.ofNat n).toNat = n := by simp; omega
  rw [schar, hn]
  split_ifs with hlt <;> omega

end CInt
end Lib
