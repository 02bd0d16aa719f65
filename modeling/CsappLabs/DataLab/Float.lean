/-
# Floating point numbers as words

`floatScale2` and `floatFloat2Int` of `datalab/bits.c`, which take and return the words of
`float`s.

`floatScale2` doubles in three ways.  A denormal number is moved up by one bit, and the bit
that leaves the fraction makes it normal; a normal number gets the next exponent.  Behind
the last exponent of a finite number that makes an infinity only if the fraction is `0`,
and a NaN otherwise (`floatScale2_iff`).

`floatFloat2Int` computes the power of two of the exponent and returns it with the sign.
The fraction is not looked at, so numbers with an integer part that is no power of two
are converted to a smaller one (`floatFloat2Int_iff`).
-/

import CsappLabs.DataLab.Bits
import CsappLabs.Lib.Ieee

namespace CsappLabs
namespace DataLab

open Lib.Ieee

/-- `floatScale2` -/
def floatScale2 (uf : BitVec 32) : BitVec 32 :=
  if lnot (((uf <<< 1) >>> 24) ^^^ 0x000000ff) ≠ 0 then uf
  else if lnot (((uf <<< 1) >>> 24) ^^^ 0) ≠ 0 then ((uf >>> 31) <<< 31) + (uf <<< 1)
  else uf + 0x00800000

/-- The loop of `floatFloat2Int`, with `E` rounds left. -/
def powerLoop : ℕ → BitVec 32 → BitVec 32
  | 0, pow2E => pow2E
  | E + 1, pow2E => powerLoop E (pow2E * 2)

/-- `floatFloat2Int` -/
def floatFloat2Int (uf : BitVec 32) : BitVec 32 :=
  let E := (((uf <<< 1) >>> 24) - 127).toInt
  if 31 ≤ E then 0x80000000
  else if E < 0 then 0
  else
    let pow2E := powerLoop E.toNat 1
    if uf >>> 31 ≠ 0 then -pow2E else pow2E

/-! ### The fields of a word -/

theorem single_exponent (w : ℕ) : single.exponent w = w / 8388608 % 256 := rfl

theorem single_fraction (w : ℕ) : single.fraction w = w % 8388608 := rfl

theorem single_negative (w : ℕ) : single.negative w = decide (w / 2147483648 % 2 = 1) := rfl

theorem single_top : single.top = 255 := rfl

variable {uf : BitVec 32}

theorem toNat_exponent (uf : BitVec 32) :
    ((uf <<< 1) >>> 24).toNat = single.exponent uf.toNat := by
  have hlt := uf.isLt
  rw [BitVec.toNat_ushiftRight, BitVec.toNat_shiftLeft, Nat.shiftLeft_eq,
    Nat.shiftRight_eq_div_pow, single_exponent]
  omega

theorem lnot_ne_zero_iff {x : BitVec 32} : lnot x ≠ 0 ↔ x = 0 := by
  unfold lnot
  split_ifs with h
  · exact iff_of_true (by decide) h
  · exact iff_of_false (fun hne => hne rfl) h

theorem lnot_xor_ne_zero_iff {x y : BitVec 32} : lnot (x ^^^ y) ≠ 0 ↔ x.toNat = y.toNat := by
  rw [lnot_ne_zero_iff, BitVec.toNat_inj]
  exact BitVec.xor_eq_zero_iff

/-- **What `floatScale2` does**, by the exponent. -/
theorem floatScale2_cases (uf : BitVec 32) :
    single.exponent uf.toNat = 255 ∧ floatScale2 uf = uf ∨
      single.exponent uf.toNat = 0 ∧
        floatScale2 uf = ((uf >>> 31) <<< 31) + (uf <<< 1) ∨
      single.exponent uf.toNat ≠ 0 ∧ single.exponent uf.toNat ≤ 254 ∧
        floatScale2 uf = uf + 0x00800000 := by
  have hle := single.exponent_le_top uf.toNat
  rw [single_top] at hle
  unfold floatScale2
  simp only [lnot_xor_ne_zero_iff, toNat_exponent]
  split_ifs with h1 h2
  · exact .inl ⟨h1, rfl⟩
  · exact .inr (.inl ⟨h2, rfl⟩)
  · refine .inr (.inr ⟨h2, ?_, rfl⟩)
    have h1' : single.exponent uf.toNat ≠ 255 := h1
    omega

/-! ### Doubling -/

/-- The word `r` is twice the number of the word `uf`. -/
structure Doubles (uf r : ℕ) : Prop where
  nan : single.IsNaN uf → r = uf
  inf : single.IsInf uf → r = uf
  finite : single.IsFinite uf → |2 * single.value uf| ≤ single.maxFinite →
    single.IsFinite r ∧ single.value r = 2 * single.value uf ∧
      single.negative r = single.negative uf
  overflow : single.IsFinite uf → single.maxFinite < |2 * single.value uf| →
    single.IsInf r ∧ single.negative r = single.negative uf

theorem abs_two_mul_value (w : ℕ) : |2 * single.value w| = 2 * single.magnitude w := by
  rw [abs_mul, single.abs_value, abs_of_pos (by norm_num)]

/-- A finite word with the sign and twice the magnitude. -/
theorem Doubles.of_magnitude {w r : ℕ} (hw : single.IsFinite w) (hr : single.IsFinite r)
    (hsign : single.negative r = single.negative w)
    (hmag : single.magnitude r = 2 * single.magnitude w) : Doubles w r := by
  refine ⟨fun h => absurd h.1 hw, fun h => absurd h.1 hw, fun _ _ => ⟨hr, ?_, hsign⟩,
    fun _ hlt => ?_⟩
  · rw [Format.value, Format.value, hsign, hmag]
    split_ifs <;> ring
  · rw [abs_two_mul_value, ← hmag] at hlt
    exact absurd (Format.magnitude_le_maxFinite hr (by decide)) hlt.not_ge

/-- A denormal number is doubled. -/
theorem doubles_of_denormal (h : single.exponent uf.toNat = 0) :
    Doubles uf.toNat (((uf >>> 31) <<< 31) + (uf <<< 1)).toNat := by
  have hlt := uf.isLt
  have hr : (((uf >>> 31) <<< 31) + (uf <<< 1)).toNat =
      uf.toNat / 2147483648 * 2147483648 + 2 * single.fraction uf.toNat := by
    rw [single_exponent] at h
    rw [BitVec.toNat_add, BitVec.toNat_shiftLeft, BitVec.toNat_shiftLeft, BitVec.toNat_ushiftRight,
      Nat.shiftLeft_eq, Nat.shiftLeft_eq, Nat.shiftRight_eq_div_pow, single_fraction]
    omega
  rw [hr]
  have hfrac := single.fraction_lt uf.toNat
  have hw : single.IsFinite uf.toNat := by
    rw [Format.IsFinite, h]
    decide
  rw [show (2 : ℕ) ^ single.fractionBits = 8388608 from rfl] at hfrac
  generalize hfr : single.fraction uf.toNat = fr at hfrac
  have hexp : single.exponent (uf.toNat / 2147483648 * 2147483648 + 2 * fr) = fr / 4194304 := by
    rw [single_exponent]
    omega
  refine .of_magnitude hw ?_ ?_ (Format.two_mul_of_denormal h ?_ ?_)
  · rw [Format.IsFinite, hexp, single_top]
    omega
  · rw [single_negative, single_negative, decide_eq_decide]
    omega
  · rw [Format.significand, hexp, hfr, single_fraction,
      show (2 : ℕ) ^ single.fractionBits = 8388608 from rfl]
    split_ifs <;> omega
  · omega

/-- The fields behind a normal number with the next exponent. -/
theorem next_exponent (h : single.exponent uf.toNat ≤ 254) :
    single.exponent (uf + 0x00800000).toNat = single.exponent uf.toNat + 1 ∧
      single.fraction (uf + 0x00800000).toNat = single.fraction uf.toNat ∧
      single.negative (uf + 0x00800000).toNat = single.negative uf.toNat := by
  have hlt := uf.isLt
  have hr : (uf + 0x00800000).toNat = uf.toNat + 8388608 := by
    rw [single_exponent] at h
    rw [BitVec.toNat_add, show (0x00800000 : BitVec 32).toNat = 8388608 from rfl]
    omega
  rw [hr]
  rw [single_exponent] at h
  refine ⟨?_, ?_, ?_⟩
  · rw [single_exponent, single_exponent]
    omega
  · rw [single_fraction, single_fraction]
    omega
  · rw [single_negative, single_negative, decide_eq_decide]
    omega

/-- **When `floatScale2` doubles**: always, except for the finite numbers of the largest
exponent that have a fraction. -/
theorem floatScale2_iff (uf : BitVec 32) :
    Doubles uf.toNat (floatScale2 uf).toNat ↔
      (single.exponent uf.toNat = 254 → single.fraction uf.toNat = 0) := by
  rcases floatScale2_cases uf with ⟨hexp, hr⟩ | ⟨hexp, hr⟩ | ⟨hne, hle, hr⟩
  · rw [hr]
    refine iff_of_true ⟨fun _ => rfl, fun _ => rfl, fun h => absurd hexp h, fun h => absurd hexp h⟩
      fun h => ?_
    omega
  · rw [hr]
    exact iff_of_true (doubles_of_denormal hexp) fun h => by omega
  · have hw : single.IsFinite uf.toNat := by
      rw [Format.IsFinite, single_top]
      omega
    obtain ⟨hexp, hfrac, hsign⟩ := next_exponent hle
    rw [hr]
    by_cases hlast : single.exponent uf.toNat = 254
    · -- the next exponent is that of the infinities
      have hmax := Format.maxFinite_lt_two_mul (f := single) (w := uf.toNat)
        (by rw [single_top]; omega) hne
      have htop : single.exponent (uf + 0x00800000).toNat = single.top := by
        rw [hexp, hlast]
        rfl
      constructor
      · intro hd _
        have hinf := (hd.overflow hw (by rwa [abs_two_mul_value])).1
        exact hfrac.symm.trans hinf.2
      · intro hzero
        refine ⟨fun h => absurd h.1 hw, fun h => absurd h.1 hw, fun _ hle => ?_, fun _ _ => ?_⟩
        · rw [abs_two_mul_value] at hle
          exact absurd hle hmax.not_ge
        · exact ⟨⟨htop, hfrac.trans (hzero hlast)⟩, hsign⟩
    · refine iff_of_true (.of_magnitude hw ?_ hsign (Format.two_mul_of_normal hne hexp hfrac))
        fun h => absurd h hlast
      rw [Format.IsFinite, hexp, single_top]
      omega

/-- Twice the largest number is a NaN. -/
theorem floatScale2_nan : ¬Doubles 0x7f7fffff (floatScale2 0x7f7fffff).toNat := by
  rw [show (0x7f7fffff : ℕ) = (0x7f7fffff : BitVec 32).toNat from rfl, floatScale2_iff]
  decide

/-! ### Truncation -/

/-- The word `r` is the integer part of the number of the word `uf`, if it is an `int`. -/
structure Truncates (uf : ℕ) (r : BitVec 32) : Prop where
  fits : single.IsFinite uf → -2 ^ 31 ≤ truncate (single.value uf) →
    truncate (single.value uf) < 2 ^ 31 → r.toInt = truncate (single.value uf)
  invalid : ¬single.IsFinite uf ∨ truncate (single.value uf) < -2 ^ 31 ∨
    2 ^ 31 ≤ truncate (single.value uf) → r = 0x80000000

/-- The loop computes the power. -/
theorem powerLoop_toNat (E : ℕ) {p : BitVec 32} (h : p.toNat * 2 ^ E < 2 ^ 32) :
    (powerLoop E p).toNat = p.toNat * 2 ^ E := by
  induction E generalizing p with
  | zero => simp [powerLoop]
  | succ E ih =>
    have htwo : (p * 2).toNat = p.toNat * 2 := by
      have hle : p.toNat * 2 ≤ p.toNat * 2 ^ (E + 1) :=
        Nat.mul_le_mul_left _ (Nat.le_self_pow (Nat.succ_ne_zero E) 2)
      rw [BitVec.toNat_mul]
      exact Nat.mod_eq_of_lt (hle.trans_lt h)
    rw [powerLoop, ih] <;> rw [htwo, mul_assoc, ← pow_succ']
    exact h

/-- The magnitude of a normal number, by its exponent. -/
theorem magnitude_eq {w E : ℕ} (h : single.exponent w = 127 + E) :
    single.magnitude w = 2 ^ E + single.fraction w * 2 ^ E / 2 ^ 23 := by
  have hscale : single.scale w = E - 23 := by
    rw [Format.scale, h, show single.bias = 127 from rfl,
      show (single.fractionBits : ℤ) = 23 from rfl]
    omega
  rw [Format.magnitude, Format.significand, if_neg (by omega), hscale,
    show single.fractionBits = 23 from rfl, zpow_sub₀ (by norm_num), zpow_natCast]
  push_cast
  field_simp
  ring

/-- Below the exponent of `1`, the magnitude is less than `1`. -/
theorem magnitude_lt_one {w : ℕ} (h : single.exponent w < 127) : single.magnitude w < 1 := by
  have hsig := single.significand_le w
  have hscale : single.scale w ≤ -24 := by
    rw [Format.scale, show single.bias = 127 from rfl,
      show (single.fractionBits : ℤ) = 23 from rfl]
    omega
  have hpow : (2 : ℚ) ^ single.scale w ≤ 2 ^ (-24 : ℤ) :=
    zpow_le_zpow_right₀ (by norm_num) hscale
  rw [show single.fractionBits + 1 = 24 from rfl] at hsig
  calc single.magnitude w ≤ (2 ^ 24 - 1) * 2 ^ (-24 : ℤ) :=
        mul_le_mul hsig hpow (by positivity) (by norm_num)
    _ < 1 := by norm_num

/-- The integer part of the magnitude of a normal number. -/
theorem floor_magnitude {w E : ℕ} (h : single.exponent w = 127 + E) :
    ⌊single.magnitude w⌋ = 2 ^ E + (single.fraction w * 2 ^ E / 2 ^ 23 : ℕ) := by
  have hcast : single.magnitude w =
      (2 ^ E : ℕ) + (single.fraction w * 2 ^ E : ℕ) / (2 ^ 23 : ℕ) := by
    rw [magnitude_eq h]
    push_cast
    rfl
  rw [hcast, Int.floor_natCast_add, Rat.floor_natCast_div_natCast]
  push_cast
  rfl

/-- The exponent as the code computes it. -/
theorem toInt_exponent (uf : BitVec 32) :
    (((uf <<< 1) >>> 24) - 127).toInt = single.exponent uf.toNat - 127 := by
  have hexp := toNat_exponent uf
  have hle := single.exponent_le_top uf.toNat
  rw [single_top] at hle
  rw [BitVec.toInt_eq_toNat_cond, BitVec.toNat_sub, hexp, show (127 : BitVec 32).toNat = 127 from rfl]
  split_ifs <;> omega

theorem negative_iff (uf : BitVec 32) : single.negative uf.toNat = true ↔ uf >>> 31 ≠ 0 := by
  have hlt := uf.isLt
  rw [single_negative, decide_eq_true_eq, Ne, ← BitVec.toNat_inj, BitVec.toNat_ushiftRight,
    Nat.shiftRight_eq_div_pow, show (0 : BitVec 32).toNat = 0 from rfl]
  omega

/-- A power of two below `2^31`, with a sign. -/
theorem toInt_signed {p : BitVec 32} (hp : p.toNat < 2 ^ 31) :
    p.toInt = p.toNat ∧ (-p).toInt = -p.toNat := by
  rw [BitVec.toInt_eq_toNat_cond, BitVec.toInt_eq_toNat_cond, BitVec.toNat_neg]
  constructor <;> split_ifs <;> omega

/-- The numbers of a larger exponent are no `int`s, or the least one. -/
theorem truncates_of_large {w : ℕ} (h : 158 ≤ single.exponent w) : Truncates w 0x80000000 := by
  obtain ⟨E, hE⟩ := Nat.exists_eq_add_of_le (show 127 ≤ single.exponent w by omega)
  have hpow : (2 : ℤ) ^ 31 ≤ 2 ^ E := pow_le_pow_right₀ (by norm_num) (by omega)
  have hfloor := floor_magnitude hE
  refine ⟨fun _ hlo hhi => ?_, fun _ => rfl⟩
  rw [truncate_value] at hlo hhi ⊢
  rw [show (0x80000000 : BitVec 32).toInt = -2 ^ 31 from rfl]
  split_ifs at hlo hhi ⊢ <;> omega

/-- Numbers between `-1` and `1`. -/
theorem truncates_of_small {w : ℕ} (h : single.exponent w < 127) : Truncates w 0 := by
  have hfloor : ⌊single.magnitude w⌋ = 0 :=
    Int.floor_eq_zero_iff.2 ⟨single.magnitude_nonneg w, magnitude_lt_one h⟩
  have hzero : truncate (single.value w) = 0 := by
    rw [truncate_value, hfloor]
    split_ifs <;> rfl
  have hw : single.IsFinite w := by
    rw [Format.IsFinite, single_top]
    omega
  refine ⟨fun _ _ _ => by rw [hzero]; rfl, ?_⟩
  rw [hzero]
  rintro (hn | hn | hn)
  · exact absurd hw hn
  · omega
  · omega

/-- Between them, the result is right if the fraction is moved out. -/
theorem truncates_iff_of_normal {E : ℕ} (h : single.exponent uf.toNat = 127 + E) (hE : E ≤ 30) :
    Truncates uf.toNat
        (if uf >>> 31 ≠ 0 then -powerLoop E 1 else powerLoop E 1) ↔
      single.fraction uf.toNat * 2 ^ E < 2 ^ 23 := by
  have hfloor := floor_magnitude h
  have hpow : 2 ^ E ≤ 2 ^ 30 := Nat.pow_le_pow_right (by norm_num) hE
  have hp : (powerLoop E 1).toNat = 2 ^ E := by
    rw [powerLoop_toNat] <;> rw [show (1 : BitVec 32).toNat = 1 from rfl, one_mul]
    omega
  obtain ⟨hpos, hneg⟩ := toInt_signed (p := powerLoop E 1) (by omega)
  have hquot : single.fraction uf.toNat * 2 ^ E / 2 ^ 23 < 2 ^ E := by
    rw [Nat.div_lt_iff_lt_mul (by norm_num), mul_comm]
    exact Nat.mul_lt_mul_of_pos_left (single.fraction_lt _) (by positivity)
  have hw : single.IsFinite uf.toNat := by
    rw [Format.IsFinite, single_top]
    omega
  have hcast : ((2 ^ E : ℕ) : ℤ) = 2 ^ E := by push_cast; rfl
  rw [hp, hcast] at hpos hneg
  rw [← Nat.div_eq_zero_iff_lt (show 0 < 2 ^ 23 by norm_num)]
  generalize single.fraction uf.toNat * 2 ^ E / 2 ^ 23 = q at hfloor hquot
  rw [← Nat.cast_lt (α := ℤ), hcast] at hquot
  have hle : (2 : ℤ) ^ E ≤ 2 ^ 30 := pow_le_pow_right₀ (by norm_num) hE
  have htr : truncate (single.value uf.toNat) =
      if uf >>> 31 ≠ 0 then -(2 ^ E + (q : ℤ)) else 2 ^ E + q := by
    rw [truncate_value, hfloor]
    simp only [negative_iff]
  have hr : (if uf >>> 31 ≠ 0 then -powerLoop E 1 else powerLoop E 1).toInt =
      if uf >>> 31 ≠ 0 then -2 ^ E else 2 ^ E := by
    split_ifs <;> assumption
  constructor
  · intro ht
    have hfits := ht.fits hw
    rw [hr, htr] at hfits
    split_ifs at hfits <;> omega
  · rintro rfl
    refine ⟨fun _ _ _ => ?_, ?_⟩
    · rw [hr, htr]
      split_ifs <;> simp
    · rw [htr]
      rintro (hn | hn | hn)
      · exact absurd hw hn
      · split_ifs at hn <;> omega
      · split_ifs at hn <;> omega

/-- **When `floatFloat2Int` truncates**: below `1`, from `2^31` on, and in between if the
fraction is less than one unit, so that the integer part is a power of two. -/
theorem floatFloat2Int_iff (uf : BitVec 32) :
    Truncates uf.toNat (floatFloat2Int uf) ↔
      single.exponent uf.toNat < 127 ∨ 158 ≤ single.exponent uf.toNat ∨
        single.fraction uf.toNat * 2 ^ (single.exponent uf.toNat - 127) < 2 ^ 23 := by
  unfold floatFloat2Int
  simp only [toInt_exponent]
  split_ifs with hlarge hsmall hsign
  · exact iff_of_true (truncates_of_large (by omega)) (.inr (.inl (by omega)))
  · exact iff_of_true (truncates_of_small (by omega)) (.inl (by omega))
  all_goals
    obtain ⟨E, hE⟩ := Nat.exists_eq_add_of_le (show 127 ≤ single.exponent uf.toNat by omega)
    have hnat : ((single.exponent uf.toNat : ℤ) - 127).toNat = E := by omega
    have hiff := truncates_iff_of_normal hE (by omega)
    rw [hnat, hE, Nat.add_sub_cancel_left]
  · rw [if_pos hsign] at hiff
    rw [hiff]
    omega
  · rw [if_neg hsign] at hiff
    rw [hiff]
    omega

/-- `3.0` is converted to `2`. -/
theorem floatFloat2Int_three : ¬Truncates 0x40400000 (floatFloat2Int 0x40400000) := by
  rw [show (0x40400000 : ℕ) = (0x40400000 : BitVec 32).toNat from rfl, floatFloat2Int_iff]
  decide

end DataLab
end CsappLabs
