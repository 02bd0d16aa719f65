/-
# The other puzzles

The remaining functions of `datalab/bits.c`, each of them with the operators that its rules
allow.  An `int` is a word of 32 bits, `truth` is what a condition of C is as an `int`.

`isLessOrEqual` subtracts only if the signs are the same, so that no difference overflows;
`isTmax` moves `-1` away before the test that it would pass.  `floatPower2` writes the exponent
of a normal number, or the one bit of a denormal one.
-/

import CsappLabs.DataLab.Float

namespace CsappLabs
namespace DataLab

open Lib Lib.Ieee

/-- A condition as an `int`. -/
def truth (p : Prop) [Decidable p] : BitVec 32 := if p then 1 else 0

def bitXor (x y : BitVec 32) : BitVec 32 := ~~~(x &&& y) &&& ~~~(~~~x &&& ~~~y)

def tmin : BitVec 32 := 0x1 <<< 31

def isTmax (x : BitVec 32) : BitVec 32 :=
  let new_x := lnot (x + 1) + x
  lnot ((new_x + 1) ^^^ ~~~new_x)

def allOddBits (x : BitVec 32) : BitVec 32 :=
  let tmp : BitVec 32 := ((0xAA <<< 8 ||| 0xAA) <<< 8 ||| 0xAA) <<< 8 ||| 0xAA
  lnot ((tmp &&& x) ^^^ tmp)

def negate (x : BitVec 32) : BitVec 32 := ~~~x + 1

def isAsciiDigit (x : BitVec 32) : BitVec 32 :=
  lnot (x.sshiftRight 3 ^^^ 0x06) ||| lnot (x.sshiftRight 1 ^^^ 0x1C)

def conditional (x y z : BitVec 32) : BitVec 32 :=
  let tmp := ~~~(lnot x) + 1
  (~~~tmp &&& y) ||| (tmp &&& z)

def isLessOrEqual (x y : BitVec 32) : BitVec 32 :=
  let sign_x := x.sshiftRight 31
  let sign_y := y.sshiftRight 31
  let cond_1 := (sign_x ^^^ sign_y) &&& (sign_x &&& 1)
  let cond_2 := lnot (sign_x ^^^ sign_y) &&& lnot ((y + (~~~x + 1)).sshiftRight 31 &&& 1)
  cond_1 ||| cond_2

def logicalNeg (x : BitVec 32) : BitVec 32 := (x ||| (~~~x + 1)).sshiftRight 31 + 1

def floatPower2 (x : BitVec 32) : BitVec 32 :=
  if 127 < x.toInt then 0x7f800000
  else if -126 ≤ x.toInt ∧ x.toInt ≤ 127 then (x + 127) <<< 23
  else if -149 ≤ x.toInt ∧ x.toInt ≤ -127 then (0x1 : BitVec 32) <<< (x + 149)
  else 0

variable {x y z : BitVec 32}

/-! ### Integers -/

theorem lnot_eq_truth (x : BitVec 32) : lnot x = truth (x = 0) := rfl

theorem lnot_xor (x y : BitVec 32) : lnot (x ^^^ y) = truth (x = y) := by
  rw [lnot_eq_truth]
  simp only [truth, show (0 : BitVec 32) = 0#32 from rfl, BitVec.xor_eq_zero_iff]

theorem truth_congr {p q : Prop} [Decidable p] [Decidable q] (h : p ↔ q) : truth p = truth q := by
  simp only [truth, h]

/-- The sign, copied into all bits. -/
theorem sign_eq (x : BitVec 32) : x.sshiftRight 31 = if x.toInt < 0 then -1 else 0 := by
  have hlo := x.le_toInt
  have hhi := x.toInt_lt
  apply BitVec.eq_of_toInt_eq
  rw [BitVec.toInt_sshiftRight, Int.shiftRight_eq_div_pow]
  split_ifs
  · rw [show (-1 : BitVec 32).toInt = -1 by decide]
    omega
  · rw [show (0 : BitVec 32).toInt = 0 by decide]
    omega

theorem bitXor_eq (x y : BitVec 32) : bitXor x y = x ^^^ y := by
  ext i hi
  simp only [bitXor, BitVec.getElem_and, BitVec.getElem_not, BitVec.getElem_xor]
  cases x[i] <;> cases y[i] <;> rfl

theorem toInt_tmin : tmin.toInt = -2 ^ 31 := by decide

/-- Two words are one more than their complement: the largest and `-1`. -/
theorem add_one_eq_not_iff (x : BitVec 32) :
    x + 1 = ~~~x ↔ x.toNat = 2 ^ 31 - 1 ∨ x.toNat = 2 ^ 32 - 1 := by
  have hlt := x.isLt
  have hone : (1 : BitVec 32).toNat = 1 := rfl
  rw [← BitVec.toNat_inj, BitVec.toNat_add, BitVec.toNat_not, hone]
  omega

theorem isTmax_eq (x : BitVec 32) : isTmax x = truth (x.toInt = 2 ^ 31 - 1) := by
  have hlt := x.isLt
  have hint := BitVec.toInt_eq_toNat_cond x
  unfold isTmax
  rw [lnot_xor, lnot_eq_truth]
  by_cases hx : x = -1
  · subst hx
    decide
  · have hne : x + 1 ≠ 0 := by bv_omega
    have hnat : x.toNat ≠ 2 ^ 32 - 1 := by bv_omega
    have hzero : (0 : BitVec 32) + x = x := BitVec.zero_add x
    have hno : truth (x + 1 = 0) = 0 := if_neg hne
    rw [hno, hzero]
    refine truth_congr ((add_one_eq_not_iff x).trans ?_)
    split_ifs at hint <;> omega

theorem allOddBits_eq (x : BitVec 32) :
    allOddBits x = truth (∀ i < 32, i % 2 = 1 → x.getLsbD i = true) := by
  have hmask : ∀ i < 32, (0xAAAAAAAA : BitVec 32).getLsbD i = decide (i % 2 = 1) := by decide
  have htmp : (((0xAA <<< 8 ||| 0xAA) <<< 8 ||| 0xAA) <<< 8 ||| 0xAA : BitVec 32) = 0xAAAAAAAA := by
    decide
  unfold allOddBits
  rw [lnot_xor, htmp]
  refine truth_congr ⟨fun h i hi hodd => ?_, fun h => ?_⟩
  · have hbit : (0xAAAAAAAA &&& x).getLsbD i = (0xAAAAAAAA : BitVec 32).getLsbD i := by rw [h]
    rwa [BitVec.getLsbD_and, hmask i hi, decide_eq_true hodd, Bool.true_and] at hbit
  · refine BitVec.eq_of_getLsbD_eq fun i hi => ?_
    rw [BitVec.getLsbD_and, hmask i hi]
    by_cases hodd : i % 2 = 1
    · simp [hodd, h i hi hodd]
    · simp [hodd]

theorem negate_eq (x : BitVec 32) : negate x = -x := (BitVec.neg_eq_not_add x).symm

theorem sshiftRight_eq_iff {k : ℕ} {c : BitVec 32} (x : BitVec 32) :
    x.sshiftRight k = c ↔ x.toInt / 2 ^ k = c.toInt := by
  rw [← BitVec.toInt_inj, BitVec.toInt_sshiftRight, Int.shiftRight_eq_div_pow, Nat.cast_pow,
    Nat.cast_ofNat]

theorem isAsciiDigit_eq (x : BitVec 32) :
    isAsciiDigit x = truth (0x30 ≤ x.toInt ∧ x.toInt ≤ 0x39) := by
  have h3 : x.sshiftRight 3 = 0x06 ↔ 48 ≤ x.toInt ∧ x.toInt ≤ 55 := by
    rw [sshiftRight_eq_iff, show (0x06 : BitVec 32).toInt = 6 by decide]
    omega
  have h1 : x.sshiftRight 1 = 0x1C ↔ 56 ≤ x.toInt ∧ x.toInt ≤ 57 := by
    rw [sshiftRight_eq_iff, show (0x1C : BitVec 32).toInt = 28 by decide]
    omega
  unfold isAsciiDigit
  rw [lnot_xor, lnot_xor, truth_congr h3, truth_congr h1]
  unfold truth
  split_ifs <;> first | rfl | omega

theorem conditional_eq (x y z : BitVec 32) : conditional x y z = if x ≠ 0 then y else z := by
  have h0 : ~~~(0 : BitVec 32) + 1 = 0 := by decide
  have h1 : ~~~(1 : BitVec 32) + 1 = BitVec.allOnes 32 := by decide
  unfold conditional
  by_cases hx : x = 0
  · rw [if_neg (not_not_intro hx), show lnot x = 1 from if_pos hx, h1]
    simp only [BitVec.not_allOnes, BitVec.zero_and, BitVec.zero_or, BitVec.allOnes_and]
  · rw [if_pos hx, show lnot x = 0 from if_neg hx, h0]
    show ~~~0#32 &&& y ||| 0#32 &&& z = y
    simp only [BitVec.not_zero, BitVec.zero_and, BitVec.or_zero, BitVec.allOnes_and]

/-- The difference of two numbers with the same sign. -/
theorem toInt_sub_of_sign (h : x.toInt < 0 ↔ y.toInt < 0) :
    (y + (~~~x + 1)).toInt = y.toInt - x.toInt := by
  have hx := And.intro x.le_toInt x.toInt_lt
  have hy := And.intro y.le_toInt y.toInt_lt
  rw [show ~~~x + 1 = -x from negate_eq x, ← BitVec.sub_eq_add_neg, BitVec.toInt_sub]
  exact Int.bmod_eq_of_le (by omega) (by omega)

/-- **`isLessOrEqual`** is the comparison, also where the difference overflows. -/
theorem isLessOrEqual_eq (x y : BitVec 32) : isLessOrEqual x y = truth (x.toInt ≤ y.toInt) := by
  unfold isLessOrEqual
  rw [sign_eq, sign_eq, sign_eq]
  by_cases hsame : x.toInt < 0 ↔ y.toInt < 0
  · rw [toInt_sub_of_sign hsame]
    by_cases hx : x.toInt < 0
    · by_cases hle : x.toInt ≤ y.toInt
      · rw [if_pos hx, if_pos (hsame.1 hx), if_neg (by omega), truth, if_pos hle]
        decide
      · rw [if_pos hx, if_pos (hsame.1 hx), if_pos (by omega), truth, if_neg hle]
        decide
    · by_cases hle : x.toInt ≤ y.toInt
      · rw [if_neg hx, if_neg (mt hsame.2 hx), if_neg (by omega), truth, if_pos hle]
        decide
      · rw [if_neg hx, if_neg (mt hsame.2 hx), if_pos (by omega), truth, if_neg hle]
        decide
  · -- the sign of the difference does not matter
    by_cases hx : x.toInt < 0
    · have htrue : truth (x.toInt ≤ y.toInt) = 1 := if_pos (by omega)
      rw [if_pos hx, if_neg (by tauto), htrue]
      split_ifs <;> decide
    · have hfalse : truth (x.toInt ≤ y.toInt) = 0 := if_neg (by omega)
      rw [if_neg hx, if_pos (by tauto), hfalse]
      split_ifs <;> decide

theorem logicalNeg_eq (x : BitVec 32) : logicalNeg x = lnot x := by
  unfold logicalNeg
  rw [sign_eq, show ~~~x + 1 = -x from negate_eq x]
  by_cases hx : x = 0
  · subst hx
    decide
  · have hneg : (x ||| -x).toInt < 0 := by
      have hne : x.toInt ≠ 0 := fun h => hx (BitVec.eq_of_toInt_eq (h.trans (by decide)))
      have hmsb : (x ||| -x).msb = true := by
        rw [BitVec.msb_or, BitVec.msb_eq_toInt, BitVec.msb_eq_toInt, Bool.or_eq_true,
          decide_eq_true_eq, decide_eq_true_eq, BitVec.toInt_neg]
        have hlo := x.le_toInt
        have hhi := x.toInt_lt
        by_cases hlt : x.toInt < 0
        · exact .inl hlt
        · rw [Int.bmod_eq_of_le (by omega) (by omega)]
          exact .inr (by omega)
      rw [BitVec.msb_eq_toInt] at hmsb
      exact of_decide_eq_true hmsb
    rw [if_pos hneg, show lnot x = 0 from if_neg hx]
    decide

/-- **The puzzles** compute what their comments say, for all words. -/
theorem puzzles_eq (x y z : BitVec 32) :
    bitXor x y = x ^^^ y ∧ tmin.toInt = -2 ^ 31 ∧ isTmax x = truth (x.toInt = 2 ^ 31 - 1) ∧
      allOddBits x = truth (∀ i < 32, i % 2 = 1 → x.getLsbD i = true) ∧ negate x = -x ∧
      isAsciiDigit x = truth (0x30 ≤ x.toInt ∧ x.toInt ≤ 0x39) ∧
      conditional x y z = (if x ≠ 0 then y else z) ∧
      isLessOrEqual x y = truth (x.toInt ≤ y.toInt) ∧ logicalNeg x = truth (x = 0) :=
  ⟨bitXor_eq x y, toInt_tmin, isTmax_eq x, allOddBits_eq x, negate_eq x, isAsciiDigit_eq x,
    conditional_eq x y z, isLessOrEqual_eq x y, logicalNeg_eq x⟩

/-! ### Powers of two -/

/-- What `2.0^x` is as a single: exact where there is one, `+INF` above the largest and `0`
below the smallest. -/
structure Powers (x : ℤ) (r : ℕ) : Prop where
  sign : single.negative r = false
  exact : (∃ w, single.IsFinite w ∧ single.value w = 2 ^ x) →
    single.IsFinite r ∧ single.value r = 2 ^ x
  overflow : single.maxFinite < 2 ^ x → single.IsInf r
  underflow : (∀ w, single.IsFinite w → 0 < single.value w → 2 ^ x < single.value w) → r = 0

theorem value_of_sign {w : ℕ} (h : single.negative w = false) :
    single.value w = single.magnitude w := by
  rw [Format.value, h]
  rfl

/-- A word with the value is the result. -/
theorem Powers.of_value {e : ℤ} {r : ℕ} (hr : single.IsFinite r) (hsign : single.negative r = false)
    (hmag : single.magnitude r = 2 ^ e) : Powers e r := by
  have hvalue : single.value r = 2 ^ e := (value_of_sign hsign).trans hmag
  have hle := Format.magnitude_le_maxFinite hr (by decide)
  refine ⟨hsign, fun _ => ⟨hr, hvalue⟩, fun hlt => ?_, fun hall => ?_⟩
  · exact absurd (hmag ▸ hle) hlt.not_ge
  · have hpos : (0 : ℚ) < 2 ^ e := by positivity
    exact absurd (hall r hr (hvalue ▸ hpos)) (by rw [hvalue]; exact lt_irrefl _)

/-- The exponent of a normal number alone. -/
theorem powers_of_normal {e : ℤ} (h1 : -126 ≤ e) (h2 : e ≤ 127) :
    Powers e ((e + 127).toNat * 8388608) := by
  obtain ⟨n, hn⟩ := Int.eq_ofNat_of_zero_le (by omega : 0 ≤ e + 127)
  rw [hn, Int.toNat_natCast]
  have hexp : single.exponent (n * 8388608) = n := by
    rw [single_exponent]
    omega
  have hfrac : single.fraction (n * 8388608) = 0 := by
    rw [single_fraction]
    omega
  refine .of_value ?_ ?_ ?_
  · rw [Format.IsFinite, hexp, single_top]
    omega
  · rw [single_negative, decide_eq_false_iff_not]
    omega
  · rw [Format.magnitude_of_fraction_zero (by rw [hexp]; omega) hfrac, hexp]
    congr 1
    show (n : ℤ) - 127 = e
    omega

/-- One bit of a denormal number. -/
theorem powers_of_denormal {k : ℕ} (hk : k < 23) : Powers (k - 149) (2 ^ k) := by
  have hlt : 2 ^ k < 2 ^ 23 := Nat.pow_lt_pow_right (by norm_num) hk
  generalize hm : 2 ^ k = m at hlt
  have hexp : single.exponent m = 0 := by
    rw [single_exponent]
    omega
  have hfrac : single.fraction m = m := by
    rw [single_fraction]
    omega
  refine .of_value ?_ ?_ ?_
  · rw [Format.IsFinite, hexp, single_top]
    omega
  · rw [single_negative, decide_eq_false_iff_not]
    omega
  · rw [Format.magnitude_of_denormal hexp, hfrac, ← hm, Nat.cast_pow, Nat.cast_ofNat,
      ← zpow_natCast, ← zpow_add₀ (by norm_num)]
    rfl

theorem toNat_floatPower2 (x : BitVec 32) : (floatPower2 x).toNat =
    if 127 < x.toInt then 0x7f800000
    else if -126 ≤ x.toInt then (x.toInt + 127).toNat * 8388608
    else if -149 ≤ x.toInt then 2 ^ (x.toInt + 149).toNat
    else 0 := by
  have hlt := x.isLt
  have hlo := x.le_toInt
  have hint := BitVec.toInt_eq_toNat_cond x
  -- a sum that is not negative is its own word
  have hadd : ∀ c : ℕ, c < 256 → 0 ≤ x.toInt + c → x.toInt ≤ 127 →
      (x + BitVec.ofNat 32 c).toNat = (x.toInt + c).toNat := by
    intro c hc h0 h127
    rw [BitVec.toNat_add, BitVec.toNat_ofNat]
    split_ifs at hint <;> omega
  unfold floatPower2
  by_cases h1 : 127 < x.toInt
  · rw [if_pos h1, if_pos h1]
    rfl
  rw [if_neg h1, if_neg h1]
  by_cases h2 : -126 ≤ x.toInt
  · have hsum := hadd 127 (by norm_num) (by omega) (by omega)
    rw [if_pos ⟨h2, by omega⟩, if_pos h2, BitVec.toNat_shiftLeft, Nat.shiftLeft_eq]
    show (x + 127#32).toNat * 8388608 % 4294967296 = _
    rw [hsum]
    push_cast
    omega
  rw [if_neg (fun h => h2 h.1), if_neg h2]
  by_cases h3 : -149 ≤ x.toInt
  · have hsum := hadd 149 (by norm_num) (by omega) (by omega)
    have hpow : 2 ^ (x.toInt + 149).toNat < 2 ^ 32 := Nat.pow_lt_pow_right (by norm_num) (by omega)
    rw [if_pos ⟨h3, by omega⟩, if_pos h3]
    show (1#32 <<< (x + 149#32)).toNat = _
    rw [BitVec.shiftLeft_eq', BitVec.toNat_shiftLeft, hsum, Nat.shiftLeft_eq]
    show 1 * 2 ^ (x.toInt + 149).toNat % 2 ^ 32 = _
    rw [one_mul, Nat.mod_eq_of_lt hpow]
  · rw [if_neg (fun h => h3 h.1), if_neg h3]
    rfl

/-- The smallest positive number. -/
theorem magnitude_one : single.magnitude 1 = 2 ^ (-149 : ℤ) := by
  rw [Format.magnitude_of_denormal (by decide), show single.fraction 1 = 1 from rfl, Nat.cast_one,
    one_mul]
  rfl

/-- **`floatPower2`** is the power of two, for every exponent. -/
theorem floatPower2_powers (x : BitVec 32) : Powers x.toInt (floatPower2 x).toNat := by
  have hone : single.value 1 = 2 ^ (-149 : ℤ) := (value_of_sign (by decide)).trans magnitude_one
  have hfin : single.IsFinite 1 := by decide
  have hmono : ∀ {e e' : ℤ}, e ≤ e' → (2 : ℚ) ^ e ≤ 2 ^ e' := fun h =>
    zpow_le_zpow_right₀ (by norm_num) h
  rw [toNat_floatPower2]
  generalize x.toInt = e
  by_cases h1 : 127 < e
  · have hmax : single.maxFinite < 2 ^ e := by
      refine lt_of_lt_of_le ?_ (hmono (by omega : (128 : ℤ) ≤ e))
      norm_num [Format.maxFinite, single, Format.top, Format.bias]
    rw [if_pos h1]
    refine ⟨by decide, fun hpow => ?_, fun _ => by decide, fun hall => ?_⟩
    · obtain ⟨w, hw, hv⟩ := hpow
      have hle := Format.magnitude_le_maxFinite hw (by decide)
      rw [← single.abs_value, hv, abs_of_pos (by positivity)] at hle
      exact absurd hle hmax.not_ge
    · have hlt := hall 1 hfin (by rw [hone]; positivity)
      rw [hone] at hlt
      exact absurd (hmono (by omega : (-149 : ℤ) ≤ e)) hlt.not_ge
  rw [if_neg h1]
  by_cases h2 : -126 ≤ e
  · rw [if_pos h2]
    exact powers_of_normal h2 (by omega)
  rw [if_neg h2]
  by_cases h3 : -149 ≤ e
  · have hk : (((e + 149).toNat : ℤ) - 149) = e := by omega
    have hpow := powers_of_denormal (k := (e + 149).toNat) (by omega)
    rw [hk] at hpow
    rw [if_pos h3]
    exact hpow
  · rw [if_neg h3]
    have hlt : (2 : ℚ) ^ e < 2 ^ (-149 : ℤ) := zpow_lt_zpow_right₀ (by norm_num) (by omega)
    refine ⟨by decide, fun hpow => ?_, fun hlarge => ?_, fun _ => rfl⟩
    · obtain ⟨w, hw, hv⟩ := hpow
      have hmag : single.magnitude w = 2 ^ e := by
        rw [← single.abs_value, hv, abs_of_pos (by positivity)]
      have hle := Format.le_magnitude (f := single) (w := w) (by rw [hmag]; positivity)
      rw [hmag] at hle
      exact absurd hlt (not_lt.2 hle)
    · have hle := Format.magnitude_le_maxFinite hfin (by decide)
      rw [magnitude_one] at hle
      exact absurd (hle.trans_lt (hlarge.trans hlt)) (lt_irrefl _)

end DataLab
end CsappLabs
