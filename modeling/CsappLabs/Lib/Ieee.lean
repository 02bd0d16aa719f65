/-
# Binary floating point numbers

The interchange formats of IEEE 754: a word has a sign, an exponent and a fraction, and is
read as a natural number.  The words with the largest exponent are the infinities and the
NaNs.  A finite word stands for its significand times a power of two; words with the
exponent `0` are denormal, and their significand has no hidden bit.

Values are exact rationals.  `truncate` rounds a rational toward zero.
-/

import Mathlib.Algebra.Order.Field.Power
import Mathlib.Algebra.Order.Floor.Ring
import Mathlib.Data.Rat.Floor
import Mathlib.Tactic.FieldSimp
import Mathlib.Tactic.Linarith
import Mathlib.Tactic.Positivity
import Mathlib.Tactic.Ring

namespace Lib
namespace Ieee

/-- A format, by the widths of its exponent and its fraction. -/
structure Format where
  exponentBits : ℕ
  fractionBits : ℕ

/-- binary32 -/
def single : Format := { exponentBits := 8, fractionBits := 23 }

namespace Format

variable (f : Format) (w : ℕ)

def negative : Bool := w / 2 ^ (f.exponentBits + f.fractionBits) % 2 = 1

def exponent : ℕ := w / 2 ^ f.fractionBits % 2 ^ f.exponentBits

def fraction : ℕ := w % 2 ^ f.fractionBits

def bias : ℤ := 2 ^ (f.exponentBits - 1) - 1

/-- The exponent of the infinities and the NaNs. -/
def top : ℕ := 2 ^ f.exponentBits - 1

def IsFinite : Prop := f.exponent w ≠ f.top

def IsInf : Prop := f.exponent w = f.top ∧ f.fraction w = 0

def IsNaN : Prop := f.exponent w = f.top ∧ f.fraction w ≠ 0

instance : Decidable (f.IsFinite w) := inferInstanceAs (Decidable (_ ≠ _))

instance : Decidable (f.IsInf w) := inferInstanceAs (Decidable (_ ∧ _))

instance : Decidable (f.IsNaN w) := inferInstanceAs (Decidable (_ ∧ _))

/-- The fraction, with the hidden bit of a normal number. -/
def significand : ℕ :=
  if f.exponent w = 0 then f.fraction w else 2 ^ f.fractionBits + f.fraction w

/-- The power of two that the significand is multiplied with. -/
def scale : ℤ := (max (f.exponent w) 1 : ℕ) - f.bias - f.fractionBits

/-- The absolute value of a finite word. -/
def magnitude : ℚ := f.significand w * 2 ^ f.scale w

/-- The value of a finite word. -/
def value : ℚ := if f.negative w then -f.magnitude w else f.magnitude w

/-- The largest finite number. -/
def maxFinite : ℚ :=
  (2 ^ (f.fractionBits + 1) - 1) * 2 ^ ((f.top : ℤ) - 1 - f.bias - f.fractionBits)

end Format

variable {f : Format} {w w' : ℕ}

namespace Format

theorem fraction_lt (f : Format) (w : ℕ) : f.fraction w < 2 ^ f.fractionBits :=
  Nat.mod_lt _ (by positivity)

theorem exponent_le_top (f : Format) (w : ℕ) : f.exponent w ≤ f.top :=
  Nat.le_sub_one_of_lt (Nat.mod_lt _ (by positivity))

theorem magnitude_nonneg (f : Format) (w : ℕ) : 0 ≤ f.magnitude w := by
  unfold magnitude
  positivity

theorem abs_value (f : Format) (w : ℕ) : |f.value w| = f.magnitude w := by
  unfold value
  split_ifs
  · rw [abs_neg, abs_of_nonneg (f.magnitude_nonneg w)]
  · exact abs_of_nonneg (f.magnitude_nonneg w)

theorem significand_le (f : Format) (w : ℕ) :
    (f.significand w : ℚ) ≤ 2 ^ (f.fractionBits + 1) - 1 := by
  have hlt := f.fraction_lt w
  have hle : f.significand w + 1 ≤ 2 ^ (f.fractionBits + 1) := by
    unfold significand
    split_ifs <;> rw [pow_succ] <;> omega
  have hcast : ((f.significand w + 1 : ℕ) : ℚ) ≤ (2 ^ (f.fractionBits + 1) : ℕ) :=
    Nat.cast_le.2 hle
  push_cast at hcast
  linarith

/-! ### Doubling -/

/-- No finite number is larger. -/
theorem magnitude_le_maxFinite (hw : f.IsFinite w) (htop : 2 ≤ f.top) :
    f.magnitude w ≤ f.maxFinite := by
  have hle := f.exponent_le_top w
  have hne : f.exponent w ≠ f.top := hw
  have hscale : f.scale w ≤ (f.top : ℤ) - 1 - f.bias - f.fractionBits := by
    unfold scale
    omega
  have hpow : (2 : ℚ) ^ f.scale w ≤ 2 ^ ((f.top : ℤ) - 1 - f.bias - f.fractionBits) :=
    zpow_le_zpow_right₀ (by norm_num) hscale
  exact mul_le_mul (f.significand_le w) hpow (by positivity)
    ((Nat.cast_nonneg _).trans (f.significand_le w))

/-- Twice a number is larger than each finite one from the last exponent on. -/
theorem maxFinite_lt_two_mul (hw : f.exponent w + 1 = f.top) (h1 : f.exponent w ≠ 0) :
    f.maxFinite < 2 * f.magnitude w := by
  have hscale : f.scale w = (f.top : ℤ) - 1 - f.bias - f.fractionBits := by
    unfold scale
    omega
  have hsig : (2 : ℚ) ^ (f.fractionBits + 1) ≤ 2 * f.significand w := by
    rw [significand, if_neg h1, pow_succ]
    push_cast
    have hfr : (0 : ℚ) ≤ f.fraction w := Nat.cast_nonneg _
    linarith
  rw [maxFinite, magnitude, hscale, ← mul_assoc]
  have hpos : (0 : ℚ) < 2 ^ ((f.top : ℤ) - 1 - f.bias - f.fractionBits) := by positivity
  exact mul_lt_mul_of_pos_right (by linarith) hpos

/-- A denormal number is doubled by doubling its fraction, which may carry. -/
theorem two_mul_of_denormal (hw : f.exponent w = 0)
    (hsig : f.significand w' = 2 * f.fraction w) (hexp : f.exponent w' ≤ 1) :
    f.magnitude w' = 2 * f.magnitude w := by
  have hscale : f.scale w' = f.scale w := by
    unfold scale
    omega
  rw [magnitude, magnitude, hscale, hsig, significand, if_pos hw]
  push_cast
  ring

/-- A normal number is doubled by counting up its exponent. -/
theorem two_mul_of_normal (hw : f.exponent w ≠ 0) (hexp : f.exponent w' = f.exponent w + 1)
    (hfrac : f.fraction w' = f.fraction w) : f.magnitude w' = 2 * f.magnitude w := by
  have hsig : f.significand w' = f.significand w := by
    rw [significand, significand, if_neg (by omega), if_neg hw, hfrac]
  have hscale : f.scale w' = f.scale w + 1 := by
    unfold scale
    omega
  rw [magnitude, magnitude, hscale, hsig, zpow_add_one₀ (by norm_num)]
  ring

/-! ### Powers of two -/

/-- A normal number without a fraction is a power of two. -/
theorem magnitude_of_fraction_zero (hw : f.exponent w ≠ 0) (hfrac : f.fraction w = 0) :
    f.magnitude w = 2 ^ ((f.exponent w : ℤ) - f.bias) := by
  have hscale : f.scale w = (f.exponent w : ℤ) - f.bias - f.fractionBits := by
    unfold scale
    omega
  rw [magnitude, significand, if_neg hw, hfrac, hscale, Nat.add_zero, Nat.cast_pow, Nat.cast_ofNat,
    ← zpow_natCast, ← zpow_add₀ (by norm_num)]
  congr 1
  omega

theorem magnitude_of_denormal (hw : f.exponent w = 0) :
    f.magnitude w = f.fraction w * 2 ^ (1 - f.bias - f.fractionBits) := by
  have hscale : f.scale w = 1 - f.bias - f.fractionBits := by
    unfold scale
    omega
  rw [magnitude, significand, if_pos hw, hscale]

/-- No number but zero is smaller than the last bit of a denormal one. -/
theorem le_magnitude (hw : f.magnitude w ≠ 0) : 2 ^ (1 - f.bias - f.fractionBits) ≤ f.magnitude w := by
  have hsig : f.significand w ≠ 0 := fun h => hw (by rw [magnitude, h, Nat.cast_zero, zero_mul])
  have hone : (1 : ℚ) ≤ f.significand w := Nat.one_le_cast.2 (Nat.one_le_iff_ne_zero.2 hsig)
  have hscale : 1 - f.bias - f.fractionBits ≤ f.scale w := by
    unfold scale
    omega
  have hpow : (2 : ℚ) ^ (1 - f.bias - f.fractionBits) ≤ 2 ^ f.scale w :=
    zpow_le_zpow_right₀ (by norm_num) hscale
  calc (2 : ℚ) ^ (1 - f.bias - f.fractionBits) ≤ 1 * 2 ^ f.scale w := by rwa [one_mul]
    _ ≤ f.magnitude w := mul_le_mul_of_nonneg_right hone (by positivity)

end Format

/-! ### Rounding toward zero -/

/-- The integer part. -/
def truncate (v : ℚ) : ℤ := if v < 0 then ⌈v⌉ else ⌊v⌋

theorem truncate_value (f : Format) (w : ℕ) :
    truncate (f.value w) = if f.negative w then -⌊f.magnitude w⌋ else ⌊f.magnitude w⌋ := by
  have hnn := f.magnitude_nonneg w
  unfold Format.value truncate
  split_ifs with hneg hlt hlt
  · exact Int.ceil_neg
  · have hzero : f.magnitude w = 0 := by linarith
    simp [hzero]
  · linarith
  · rfl

end Ieee
end Lib
