/-
# Texts and the conversions of `scanf`

A text is the list of its bytes; a C string is the list of its bytes in front of
the terminating NUL.  `integer` is a conversion to a number, `%d` in base 10 and
`%lx` in base 16, and `word` is `%s`.  Each skips white space and takes the longest
input that is a number or the beginning of one (a word); the conversion fails if
that is not a number itself, and what was taken is gone all the same.

`decimalInt` is the text that `printf` makes of a number with `%d`.
-/

import CsappLabs.Lib.CInt
import Mathlib.Data.List.TakeWhile
import Mathlib.Data.Nat.Digits.Lemmas

namespace Lib
namespace Scanf

open CInt

/-- The bytes of a string constant. -/
def bytes (s : String) : List UInt8 := s.toList.map Char.toUInt8

/-- `isspace` -/
def isSpace (c : UInt8) : Bool := c = 32 ∨ 9 ≤ c ∧ c ≤ 13

/-- White space in a format. -/
def skipSpace (s : List UInt8) : List UInt8 := s.dropWhile isSpace

/-- The value of a digit, up to base 16. -/
def digit (c : UInt8) : Option ℕ :=
  if 48 ≤ c ∧ c ≤ 57 then some (c.toNat - 48)
  else if 97 ≤ c ∧ c ≤ 102 then some (c.toNat - 87)
  else if 65 ≤ c ∧ c ≤ 70 then some (c.toNat - 55)
  else none

def isDigit (base : ℕ) (c : UInt8) : Bool := (digit c).any (· < base)

/-- The number that digits stand for. -/
def value (base : ℕ) (ds : List UInt8) : ℕ :=
  ds.foldl (fun n c => n * base + (digit c).getD 0) 0

/-- A sign, and what is left. -/
def sign : List UInt8 → ℤ × List UInt8
  | [] => (1, [])
  | c :: s => if c = 45 then (-1, s) else if c = 43 then (1, s) else (1, c :: s)

/-- What is left behind the `0x` that a number in base 16 may have. -/
def hexPrefix (base : ℕ) : List UInt8 → List UInt8
  | c :: x :: s => if base = 16 ∧ c = 48 ∧ (x = 120 ∨ x = 88) then s else c :: x :: s
  | s => s

/-- `%d` or `%lx`: the number, if there is one, and the text not taken. -/
def integer (base : ℕ) (s : List UInt8) : Option ℤ × List UInt8 :=
  let signed := sign (skipSpace s)
  let s := hexPrefix base signed.2
  let ds := s.takeWhile (isDigit base)
  (if ds = [] then none else some (signed.1 * value base ds), s.dropWhile (isDigit base))

/-- `%s`: the word, if there is one, and the text not taken. -/
def word (s : List UInt8) : Option (List UInt8) × List UInt8 :=
  let s := skipSpace s
  let w := s.takeWhile (!isSpace ·)
  (if w = [] then none else some w, s.dropWhile (!isSpace ·))

/-- The `unsigned long` that `%lx` stores for a number. -/
def toULong (n : ℤ) : ℕ := if n.natAbs < 2 ^ 64 then (n % 2 ^ 64).toNat else 2 ^ 64 - 1

/-- The `int` that `%d` stores for a number: that of the nearest `long`. -/
def toInt (n : ℤ) : ℤ := int32 (max (-2 ^ 63) (min n (2 ^ 63 - 1)))

/-- A number in decimal digits. -/
def decimal (n : ℕ) : List UInt8 :=
  if n = 0 then [48] else (Nat.digits 10 n).reverse.map fun d => UInt8.ofNat (48 + d)

/-- `%d` of `printf`. -/
def decimalInt (n : ℤ) : List UInt8 :=
  if n < 0 then 45 :: decimal n.natAbs else decimal n.natAbs

variable {s t : List UInt8} {c : UInt8} {n base : ℕ}

theorem length_skipSpace (s : List UInt8) : (skipSpace s).length ≤ s.length :=
  (List.dropWhile_suffix _).length_le

theorem skipSpace_cons (h : isSpace c = false) : skipSpace (c :: s) = c :: s := by
  rw [skipSpace, List.dropWhile_cons_of_neg (by simp [h])]

/-- A word up to the end of the text. -/
theorem word_eq (hs : s ≠ []) (h : ∀ c ∈ s, isSpace c = false) : word s = (some s, []) := by
  obtain ⟨c, t, rfl⟩ := List.exists_cons_of_ne_nil hs
  have htake : (c :: t).takeWhile (!isSpace ·) = c :: t :=
    List.takeWhile_eq_self_iff.2 fun d hd => by simp [h d hd]
  have hdrop : (c :: t).dropWhile (!isSpace ·) = [] :=
    List.dropWhile_eq_nil_iff.2 fun d hd => by simp [h d hd]
  simp only [word, skipSpace_cons (h c (by simp)), htake, hdrop]
  rfl

theorem length_sign (s : List UInt8) : (sign s).2.length ≤ s.length := by
  cases s with
  | nil => exact le_rfl
  | cons c s =>
    simp only [sign]
    split_ifs <;> simp

theorem length_hexPrefix (base : ℕ) (s : List UInt8) : (hexPrefix base s).length ≤ s.length := by
  unfold hexPrefix
  split
  · split_ifs
    · simp only [List.length_cons]
      omega
    · exact le_rfl
  · exact le_rfl

/-- A conversion takes a part of the text. -/
theorem length_integer (base : ℕ) (s : List UInt8) : (integer base s).2.length ≤ s.length :=
  calc (integer base s).2.length
      ≤ (hexPrefix base (sign (skipSpace s)).2).length := (List.dropWhile_suffix _).length_le
    _ ≤ (sign (skipSpace s)).2.length := length_hexPrefix base _
    _ ≤ (skipSpace s).length := length_sign _
    _ ≤ s.length := length_skipSpace s

/-! ### Decimal numbers -/

theorem digit_ofNat (h : n < 10) : digit (UInt8.ofNat (48 + n)) = some n := by
  interval_cases n <;> rfl

theorem isDigit_ofNat (h : n < 10) : isDigit 10 (UInt8.ofNat (48 + n)) = true := by
  rw [isDigit, digit_ofNat h]
  simpa using h

/-- A digit is neither white space nor a sign. -/
theorem ne_of_isDigit (h : isDigit base c = true) : isSpace c = false ∧ c ≠ 45 ∧ c ≠ 43 := by
  have h48 : 48 ≤ c.toNat := by
    by_contra hlt
    have hnone : digit c = none := by
      unfold digit
      rw [if_neg, if_neg, if_neg]
      all_goals
        rintro ⟨h1, -⟩
        exact hlt (le_trans (by decide) (UInt8.le_iff_toNat_le.1 h1))
    simp [isDigit, hnone] at h
  refine ⟨?_, ?_, ?_⟩
  · simp only [isSpace, decide_eq_false_iff_not, not_or, not_and, UInt8.le_iff_toNat_le]
    refine ⟨?_, fun _ => ?_⟩
    · rintro rfl
      exact absurd h48 (by decide)
    · rw [show (13 : UInt8).toNat = 13 from rfl]
      omega
  all_goals
    rintro rfl
    exact absurd h48 (by decide)

theorem decimal_ne_nil (n : ℕ) : decimal n ≠ [] := by
  unfold decimal
  split_ifs with h
  · simp
  · simpa using Nat.digits_ne_nil_iff_ne_zero.2 h

theorem isDigit_of_mem_decimal (h : c ∈ decimal n) : isDigit 10 c = true := by
  unfold decimal at h
  split_ifs at h
  · obtain rfl := List.mem_singleton.1 h
    rfl
  · obtain ⟨d, hd, rfl⟩ := List.mem_map.1 h
    exact isDigit_ofNat (Nat.digits_lt_base (by norm_num) (List.mem_reverse.1 hd))

theorem value_concat (base : ℕ) (s : List UInt8) (c : UInt8) :
    value base (s ++ [c]) = value base s * base + (digit c).getD 0 := by
  simp [value]

/-- The digits of a number stand for it. -/
theorem value_decimal (n : ℕ) : value 10 (decimal n) = n := by
  have hvalue : ∀ ds : List ℕ, (∀ d ∈ ds, d < 10) →
      value 10 (ds.reverse.map fun d => UInt8.ofNat (48 + d)) = Nat.ofDigits 10 ds := by
    intro ds
    induction ds with
    | nil => exact fun _ => rfl
    | cons d ds ih =>
      intro h
      obtain ⟨hd, hds⟩ := List.forall_mem_cons.1 h
      rw [List.reverse_cons, List.map_append, List.map_singleton, value_concat, ih hds,
        digit_ofNat hd, Option.getD_some, Nat.ofDigits_cons]
      ring
  unfold decimal
  split_ifs with h
  · rw [h]
    rfl
  · rw [hvalue _ fun d => Nat.digits_lt_base (by norm_num), Nat.ofDigits_digits]

/-- **A number is read back**, whatever stands behind its digits. -/
theorem integer_decimal (n : ℕ) (h : ∀ c ∈ t.head?, isDigit 10 c = false) :
    integer 10 (decimal n ++ t) = (some (n : ℤ), t) := by
  obtain ⟨c, s, hs⟩ := List.exists_cons_of_ne_nil (decimal_ne_nil n)
  have hc : c ∈ decimal n := by simp [hs]
  obtain ⟨hspace, hminus, hplus⟩ := ne_of_isDigit (isDigit_of_mem_decimal hc)
  have hsign : sign (skipSpace (decimal n ++ t)) = (1, decimal n ++ t) := by
    rw [hs, List.cons_append, skipSpace_cons hspace]
    simp [sign, hminus, hplus]
  have hprefix : hexPrefix 10 (decimal n ++ t) = decimal n ++ t := by
    rcases decimal n ++ t with _ | ⟨c, _ | ⟨x, s⟩⟩ <;> simp [hexPrefix]
  have htake : (decimal n ++ t).takeWhile (isDigit 10) = decimal n := by
    rw [List.takeWhile_append_of_pos fun c => isDigit_of_mem_decimal]
    cases t with
    | nil => simp
    | cons d t => simp [h d rfl]
  have hdrop : (decimal n ++ t).dropWhile (isDigit 10) = t := by
    rw [List.dropWhile_append_of_pos fun c => isDigit_of_mem_decimal]
    cases t with
    | nil => rfl
    | cons d t => simp [h d rfl]
  simp only [integer, hsign, hprefix, htake, hdrop, if_neg (decimal_ne_nil n), value_decimal, one_mul]

/-- **A number with a sign is read back.** -/
theorem integer_decimalInt (n : ℤ) (h : ∀ c ∈ t.head?, isDigit 10 c = false) :
    integer 10 (decimalInt n ++ t) = (some n, t) := by
  have hdigits := integer_decimal (t := t) n.natAbs h
  unfold decimalInt
  split_ifs with hneg
  · -- behind the sign the digits are those of the absolute value
    obtain ⟨c, s, hs⟩ := List.exists_cons_of_ne_nil (decimal_ne_nil n.natAbs)
    have hc : c ∈ decimal n.natAbs := by simp [hs]
    obtain ⟨hspace, hminus, hplus⟩ := ne_of_isDigit (isDigit_of_mem_decimal hc)
    have hpos : sign (skipSpace (decimal n.natAbs ++ t)) = (1, decimal n.natAbs ++ t) := by
      rw [hs, List.cons_append, skipSpace_cons hspace]
      simp [sign, hminus, hplus]
    have hsign : sign (skipSpace (45 :: decimal n.natAbs ++ t)) = (-1, decimal n.natAbs ++ t) := by
      rw [List.cons_append, skipSpace_cons (by decide)]
      rfl
    simp only [integer, hpos, one_mul, Prod.mk.injEq] at hdigits
    obtain ⟨hvalue, hrest⟩ := hdigits
    split_ifs at hvalue with hnil
    have habs := Option.some.inj hvalue
    simp only [integer, hsign, if_neg hnil, habs, hrest]
    rw [Int.neg_one_mul, Int.ofNat_natAbs_of_nonpos hneg.le, Int.neg_neg]
  · rw [hdigits, Int.natAbs_of_nonneg (not_lt.1 hneg)]

/-- White space in front of a number. -/
theorem integer_space (h : isSpace c = true) (s : List UInt8) :
    integer base (c :: s) = integer base s := by
  have hskip : skipSpace (c :: s) = skipSpace s := by
    rw [skipSpace, List.dropWhile_cons_of_pos (by simp [h]), skipSpace]
  unfold integer
  rw [hskip]

/-- White space in front of a word. -/
theorem word_space (h : isSpace c = true) (s : List UInt8) : word (c :: s) = word s := by
  have hskip : skipSpace (c :: s) = skipSpace s := by
    rw [skipSpace, List.dropWhile_cons_of_pos (by simp [h]), skipSpace]
  unfold word
  rw [hskip]

/-- A word up to white space. -/
theorem word_append {w : List UInt8} (hw : w ≠ []) (h : ∀ c ∈ w, isSpace c = false)
    (hc : isSpace c = true) (t : List UInt8) : word (w ++ c :: t) = (some w, c :: t) := by
  obtain ⟨d, v, rfl⟩ := List.exists_cons_of_ne_nil hw
  have hskip : skipSpace (d :: v ++ c :: t) = d :: v ++ c :: t := by
    rw [List.cons_append, skipSpace_cons (h d (by simp))]
  have htake : (d :: v ++ c :: t).takeWhile (!isSpace ·) = d :: v := by
    rw [List.takeWhile_append_of_pos fun e he => by simp [h e he],
      List.takeWhile_cons_of_neg (by simp [hc]), List.append_nil]
  have hdrop : (d :: v ++ c :: t).dropWhile (!isSpace ·) = c :: t := by
    rw [List.dropWhile_append_of_pos fun e he => by simp [h e he],
      List.dropWhile_cons_of_neg (by simp [hc])]
  simp only [word, hskip, htake, hdrop]
  rfl

end Scanf
end Lib
