/-
# Counting the bits of an integer

`howManyBits` of `datalab/bits.c`.  An `int` is a word of 32 bits; `>>` of an `int` copies
the sign.

A negative number is turned into its complement, which needs as many bits.  Of the number
`y` that is left the position of the highest bit is found by halving: if there are bits
from `k` on, `k` is counted and they are moved down.  A step takes from the length
`Nat.size y` what it counts (`size_shiftRight`), and after five steps the number is its own
length.  One bit more is for the sign.
-/

import Mathlib.Data.Nat.Size
import Mathlib.Order.Bounds.Basic
import Mathlib.Tactic.IntervalCases
import Mathlib.Tactic.Positivity
import Mathlib.Tactic.Ring

namespace CsappLabs
namespace DataLab

/-- `!x` -/
def lnot (x : BitVec 32) : BitVec 32 := if x = 0 then 1 else 0

/-- `howManyBits` -/
def howManyBits (x : BitVec 32) : BitVec 32 :=
  let x := x.sshiftRight 31 ^^^ x
  let m16 := lnot (lnot (x.sshiftRight 16)) <<< 4
  let x := x.sshiftRight' m16
  let m8 := lnot (lnot (x.sshiftRight 8)) <<< 3
  let x := x.sshiftRight' m8
  let m4 := lnot (lnot (x.sshiftRight 4)) <<< 2
  let x := x.sshiftRight' m4
  let m2 := lnot (lnot (x.sshiftRight 2)) <<< 1
  let x := x.sshiftRight' m2
  let m1 := lnot (lnot (x.sshiftRight 1))
  let x := x.sshiftRight' m1
  let m0 := x
  m16 + m8 + m4 + m2 + m1 + m0 + 1

/-! ### The length of a number -/

/-- Bits moved down are taken from the length. -/
theorem size_shiftRight {y k : ℕ} (h : y >>> k ≠ 0) : y.size = k + (y >>> k).size := by
  have hle : ∀ n, y.size ≤ k + n ↔ (y >>> k).size ≤ n := fun n => by
    rw [Nat.size_le, Nat.size_le, Nat.shiftRight_eq_div_pow, Nat.div_lt_iff_lt_mul (by positivity),
      pow_add, mul_comm]
  have hpos := Nat.size_pos.2 (Nat.pos_of_ne_zero h)
  have hup := (hle _).2 le_rfl
  obtain ⟨n, hn⟩ : ∃ n, y.size = k + n := by
    refine Nat.exists_eq_add_of_le (le_of_not_gt fun hlt => ?_)
    have hzero := (hle 0).1 hlt.le
    omega
  have hdown := (hle n).1 hn.le
  omega

theorem size_of_lt_two {y : ℕ} (h : y < 2) : y.size = y := by
  interval_cases y <;> rfl

/-! ### A step of the search -/

variable {x y : BitVec 32} {k j : ℕ}

theorem lnot_lnot (x : BitVec 32) : lnot (lnot x) = if x = 0 then 0 else 1 := by
  unfold lnot
  split_ifs with h1 h2 h3 <;> simp_all

/-- What a step counts: `k` if there is a bit from `k` on. -/
theorem counted (hy : y.msb = false) (hk : 2 ^ j = k) (hj : j < 32) :
    (lnot (lnot (y.sshiftRight k)) <<< j).toNat = if y.toNat >>> k = 0 then 0 else k := by
  have hzero : y.sshiftRight k = 0 ↔ y.toNat >>> k = 0 := by
    rw [← BitVec.toNat_inj, BitVec.toNat_sshiftRight_of_msb_false hy]
    rfl
  have hlt : 2 ^ j < 2 ^ 32 := Nat.pow_lt_pow_right (by norm_num) hj
  rw [lnot_lnot]
  split_ifs with h1 h2 h2
  · simp
  · exact absurd (hzero.1 h1) h2
  · exact absurd (hzero.2 h2) h1
  · rw [BitVec.toNat_shiftLeft, Nat.shiftLeft_eq, ← hk]
    exact (Nat.mod_eq_of_lt (by simpa using hlt)).trans (by simp)

/-- **A step** halves the range and takes from the length what it counts. -/
theorem step {m : BitVec 32} (hy : y.msb = false) (hlt : y.toNat < 2 ^ (2 * k))
    (hm : m.toNat = if y.toNat >>> k = 0 then 0 else k) :
    (y.sshiftRight' m).msb = false ∧ (y.sshiftRight' m).toNat < 2 ^ k ∧
      y.toNat.size = m.toNat + (y.sshiftRight' m).toNat.size ∧ m.toNat ≤ k := by
  refine ⟨by rw [BitVec.msb_sshiftRight', hy], ?_⟩
  rw [BitVec.toNat_sshiftRight'_of_msb_false hy, hm]
  split_ifs with h
  · rw [Nat.shiftRight_eq_div_pow, Nat.div_eq_zero_iff_lt (by positivity)] at h
    exact ⟨h, (Nat.zero_add _).symm, Nat.zero_le _⟩
  · refine ⟨?_, size_shiftRight h, le_rfl⟩
    rwa [Nat.shiftRight_eq_div_pow, Nat.div_lt_iff_lt_mul (by positivity), ← pow_add, ← two_mul]

/-! ### The result -/

/-- Folding a number to one without a sign. -/
theorem fold_bounds (x : BitVec 32) (n : ℕ) :
    (x.sshiftRight 31 ^^^ x).msb = false ∧
      (-2 ^ n ≤ x.toInt ∧ x.toInt < 2 ^ n ↔ (x.sshiftRight 31 ^^^ x).toNat < 2 ^ n) := by
  have hx := x.isLt
  have hcast : ((2 ^ n : ℕ) : ℤ) = 2 ^ n := by push_cast; rfl
  rw [← hcast]
  generalize 2 ^ n = b
  cases hm : x.msb with
  | false =>
    have hlt := BitVec.msb_eq_false_iff_two_mul_lt.1 hm
    have hsign : x.sshiftRight 31 = 0 := by
      rw [← BitVec.toNat_inj, BitVec.toNat_sshiftRight_of_msb_false hm, Nat.shiftRight_eq_div_pow]
      exact Nat.div_eq_of_lt (by omega)
    rw [hsign, show (0 : BitVec 32) ^^^ x = x from BitVec.zero_xor, BitVec.toInt_eq_msb_cond, hm]
    refine ⟨rfl, ?_⟩
    simp only [Bool.false_eq_true, if_false]
    omega
  | true =>
    have hge : 2 ^ 31 ≤ x.toNat := by simpa [BitVec.msb_eq_decide] using hm
    have hsign : x.sshiftRight 31 = BitVec.allOnes 32 := by
      rw [← BitVec.toNat_inj, BitVec.toNat_sshiftRight_of_msb_true hm, Nat.shiftRight_eq_div_pow,
        Nat.div_eq_of_lt (by omega)]
      rfl
    rw [hsign, BitVec.allOnes_xor, BitVec.toInt_eq_msb_cond, hm, BitVec.toNat_not]
    refine ⟨by rw [BitVec.msb_not, hm]; rfl, ?_⟩
    simp only [if_true]
    omega

/-- The result is one more than the length of the folded number. -/
theorem howManyBits_eq (x : BitVec 32) :
    (howManyBits x).toNat = (x.sshiftRight 31 ^^^ x).toNat.size + 1 := by
  have h₀ := (fold_bounds x 31).1
  have hlt := BitVec.msb_eq_false_iff_two_mul_lt.1 h₀
  unfold howManyBits
  generalize x.sshiftRight 31 ^^^ x = y₀ at h₀ hlt
  dsimp only
  have c16 := counted (j := 4) h₀ rfl (by norm_num)
  generalize lnot (lnot (y₀.sshiftRight 16)) <<< 4 = m16 at c16
  obtain ⟨h₁, hlt₁, hs₁, hle₁⟩ := step h₀ (k := 16) (by omega) c16
  generalize y₀.sshiftRight' m16 = y₁ at h₁ hlt₁ hs₁
  have c8 := counted (j := 3) h₁ rfl (by norm_num)
  generalize lnot (lnot (y₁.sshiftRight 8)) <<< 3 = m8 at c8
  obtain ⟨h₂, hlt₂, hs₂, hle₂⟩ := step h₁ (k := 8) hlt₁ c8
  generalize y₁.sshiftRight' m8 = y₂ at h₂ hlt₂ hs₂
  have c4 := counted (j := 2) h₂ rfl (by norm_num)
  generalize lnot (lnot (y₂.sshiftRight 4)) <<< 2 = m4 at c4
  obtain ⟨h₃, hlt₃, hs₃, hle₃⟩ := step h₂ (k := 4) hlt₂ c4
  generalize y₂.sshiftRight' m4 = y₃ at h₃ hlt₃ hs₃
  have c2 := counted (j := 1) h₃ rfl (by norm_num)
  generalize lnot (lnot (y₃.sshiftRight 2)) <<< 1 = m2 at c2
  obtain ⟨h₄, hlt₄, hs₄, hle₄⟩ := step h₃ (k := 2) hlt₃ c2
  generalize y₃.sshiftRight' m2 = y₄ at h₄ hlt₄ hs₄
  have c1 := counted (j := 0) h₄ rfl (by norm_num)
  rw [BitVec.shiftLeft_zero] at c1
  generalize lnot (lnot (y₄.sshiftRight 1)) = m1 at c1
  obtain ⟨-, hlt₅, hs₅, hle₅⟩ := step h₄ (k := 1) hlt₄ c1
  have hs₆ := size_of_lt_two hlt₅
  have hone : (1 : BitVec 32).toNat = 1 := rfl
  simp only [BitVec.toNat_add, hone]
  omega

/-- **`howManyBits` is the least width** of a two's complement that holds the number. -/
theorem howManyBits_isLeast (x : BitVec 32) :
    IsLeast {n : ℕ | 1 ≤ n ∧ -2 ^ (n - 1) ≤ x.toInt ∧ x.toInt < 2 ^ (n - 1)}
      (howManyBits x).toNat := by
  rw [howManyBits_eq]
  refine ⟨⟨Nat.le_add_left .., ?_⟩, ?_⟩
  · rw [(fold_bounds x _).2, Nat.add_sub_cancel]
    exact Nat.lt_size_self _
  · rintro n ⟨hn, hb⟩
    have hsize := Nat.size_le.2 ((fold_bounds x _).2.1 hb)
    omega

example : howManyBits 298 = 10 ∧ howManyBits (-5) = 4 ∧ howManyBits 0x80000000 = 32 := by decide

end DataLab
end CsappLabs
