/-
# Strings in an array of bytes

An array of `char` with the functions of `string.h` that walk through it.  An
index is what a pointer into the array is in C.  Every access is checked: a
function is `none` where it would read or write a byte that the array does not
have.  The walks are all `scan`: go on to the first byte with some property.

What a walk finds is read off a decomposition of the contents (`scan_eq`), and
`Holds` is the decomposition of an array that has a string at its beginning.
-/

import Mathlib.Data.List.TakeWhile

namespace Lib

/-- The contents of `char a[n]`. -/
structure CharArray (n : ℕ) where
  bytes : List UInt8
  length_eq : bytes.length = n

namespace CharArray

variable {n m : ℕ}

/-- The array that begins with these bytes and has NULs behind them. -/
def ofBytes (s : List UInt8) (h : s.length ≤ n) : CharArray n :=
  ⟨s ++ List.replicate (n - s.length) 0, by
    simp only [List.length_append, List.length_replicate]; omega⟩

/-- `a[i]` -/
def read (a : CharArray n) (i : ℕ) : Option UInt8 := a.bytes[i]?

/-- `a[i] = c` -/
def write (a : CharArray n) (i : ℤ) (c : UInt8) : Option (CharArray n) :=
  if 0 ≤ i ∧ i < n then
    some ⟨a.bytes.set i.toNat c, (List.length_set ..).trans a.length_eq⟩
  else none

/-- These bytes, written from `a[0]` on. -/
def fill (a : CharArray n) (s : List UInt8) (h : s.length ≤ n) : CharArray n :=
  ⟨s ++ a.bytes.drop s.length, by
    simp only [List.length_append, List.length_drop, a.length_eq]; omega⟩

/-- `while (!p(a[i])) i++` -/
def scan (a : CharArray n) (p : UInt8 → Bool) (i : ℕ) : Option ℕ :=
  ((a.bytes.drop i).findIdx? p).map (i + ·)

/-- The bytes at `a + i` up to the next NUL. -/
def string (a : CharArray n) (i : ℕ) : List UInt8 := (a.bytes.drop i).takeWhile (· ≠ 0)

/-- `strlen(a)` -/
def strlen (a : CharArray n) : Option ℕ := a.scan (· = 0) 0

/-- `strchr(a + i, c)`; the inner `none` is `NULL`. -/
def strchr (a : CharArray n) (i : ℕ) (c : UInt8) : Option (Option ℕ) := do
  let j ← a.scan (fun b => b == 0 || b == c) i
  let b ← a.read j
  return if b = c then some j else none

/-- `strcpy(a, src)` -/
def strcpy (a : CharArray n) (src : CharArray m) : Option (CharArray n) := do
  let len ← src.strlen
  if h : (src.bytes.take (len + 1)).length ≤ n then some (a.fill _ h) else none

/-- What `fgets` takes from the input for an array of `n + 1` bytes. -/
def fgetsLine (n : ℕ) (input : List UInt8) : List UInt8 :=
  (input.take n).takeWhile (· ≠ 10) ++ ((input.take n).dropWhile (· ≠ 10)).take 1

theorem length_fgetsLine (n : ℕ) (input : List UInt8) : (fgetsLine n input).length ≤ n := by
  have h : ((input.take n).takeWhile (· ≠ 10)).length + ((input.take n).dropWhile (· ≠ 10)).length
      = (input.take n).length := by
    rw [← List.length_append, List.takeWhile_append_dropWhile]
  have htake : (input.take n).length ≤ n := List.length_take_le ..
  simp only [fgetsLine, List.length_append, List.length_take]
  simp only [List.length_take] at h htake
  omega

/-- `fgets(a, n + 1, stdin)`: the array, the input not taken, and `feof(stdin)`.
Where nothing is left of the input the array stays as it was. -/
def fgets (a : CharArray (n + 1)) (input : List UInt8) :
    CharArray (n + 1) × List UInt8 × Bool :=
  let s := fgetsLine n input
  (if input = [] then a else a.fill (s ++ [0]) (by
      rw [List.length_append]; exact Nat.succ_le_succ (length_fgetsLine n input)),
    input.drop s.length, input.length < n ∧ 10 ∉ input)

/-- The array begins with the string `s`. -/
def Holds (a : CharArray n) (s : List UInt8) : Prop :=
  0 ∉ s ∧ ∃ r, a.bytes = s ++ 0 :: r

/-! ### Where the walks end -/

variable {a : CharArray n} {p s r : List UInt8} {c : UInt8} {i : ℕ}

theorem drop_eq (h : a.bytes = p ++ s) : a.bytes.drop p.length = s := by
  rw [h, List.drop_left]

theorem read_eq (h : a.bytes = p ++ c :: r) : a.read p.length = some c := by
  simp [read, h]

/-- A walk ends at the first byte with the property. -/
theorem scan_eq {f : UInt8 → Bool} (h : a.bytes = p ++ s ++ c :: r)
    (hs : ∀ b ∈ s, f b = false) (hc : f c = true) :
    a.scan f p.length = some (p ++ s).length := by
  have hfind : (s ++ c :: r).findIdx? f = some s.length := by
    rw [List.findIdx?_append, List.findIdx?_eq_none_iff.2 hs, List.findIdx?_cons, if_pos hc]
    simp
  rw [scan, drop_eq (h.trans (List.append_assoc ..)), hfind, List.length_append]
  rfl

theorem takeWhile_eq (hs : 0 ∉ s) : (s ++ 0 :: r).takeWhile (· ≠ 0) = s := by
  rw [List.takeWhile_append_of_pos]
  · simp
  · intro b hb
    simpa using fun h0 : b = 0 => hs (h0 ▸ hb)

theorem string_eq (h : a.bytes = p ++ s ++ 0 :: r) (hs : 0 ∉ s) :
    a.string p.length = s := by
  rw [string, drop_eq (h.trans (List.append_assoc ..)), takeWhile_eq hs]

/-- The first byte of the string at an index, or the NUL of an empty one. -/
theorem read_eq_head (h : i < n) : a.read i = some ((a.string i).head?.getD 0) := by
  have hi : i < a.bytes.length := by rwa [a.length_eq]
  rw [read, string, List.drop_eq_getElem_cons hi, List.getElem?_eq_getElem hi,
    List.takeWhile_cons]
  split_ifs with h0
  · rfl
  · simpa using h0

theorem write_eq {d : UInt8} (h : a.bytes = p ++ c :: r) :
    ∃ a', a.write p.length d = some a' ∧ a'.bytes = p ++ d :: r := by
  have hlt : p.length < n := by
    have := a.length_eq
    simp only [h, List.length_append, List.length_cons] at this
    omega
  refine ⟨⟨a.bytes.set p.length d, (List.length_set ..).trans a.length_eq⟩, ?_, ?_⟩
  · rw [write, if_pos (by omega)]
    rfl
  · simp [h]

/-- `strchr` finds the first `c` in the string. -/
theorem strchr_eq_some (h : a.bytes = p ++ s ++ c :: r) (h0 : 0 ∉ s) (hc : c ∉ s) :
    a.strchr p.length c = some (some (p ++ s).length) := by
  have hscan : a.scan (fun b => b == 0 || b == c) p.length = some (p ++ s).length := by
    refine scan_eq h (fun b hb => ?_) (by simp)
    simpa using ⟨fun e => h0 (e ▸ hb), fun e => hc (e ▸ hb)⟩
  rw [strchr, hscan]
  simp [read_eq h, -List.length_append]

/-- `strchr` is `NULL` where the string has no `c`. -/
theorem strchr_eq_none (h : a.bytes = p ++ s ++ 0 :: r) (h0 : 0 ∉ s) (hc : c ∉ s)
    (hc0 : c ≠ 0) : a.strchr p.length c = some none := by
  have hscan : a.scan (fun b => b == 0 || b == c) p.length = some (p ++ s).length := by
    refine scan_eq h (fun b hb => ?_) (by simp)
    simpa using ⟨fun e => h0 (e ▸ hb), fun e => hc (e ▸ hb)⟩
  rw [strchr, hscan]
  simp [read_eq h, hc0.symm, -List.length_append]

/-! ### Arrays that begin with a string -/

theorem Holds.string (h : a.Holds s) : a.string 0 = s := by
  obtain ⟨h0, r, hpost⟩ := h
  exact string_eq (p := []) hpost h0

theorem Holds.strlen (h : a.Holds s) : a.strlen = some s.length := by
  obtain ⟨h0, r, hpost⟩ := h
  refine scan_eq (p := []) hpost (fun b hb => ?_) (by simp)
  simpa using fun e : b = 0 => h0 (e ▸ hb)

theorem Holds.length_lt (h : a.Holds s) : s.length < n := by
  obtain ⟨-, r, hpost⟩ := h
  have := a.length_eq
  simp only [hpost, List.length_append, List.length_cons] at this
  omega

/-- `strcpy` brings the string, if it fits. -/
theorem Holds.strcpy {src : CharArray m} (h : src.Holds s) (hn : s.length < n) :
    ∃ a', a.strcpy src = some a' ∧ a'.Holds s := by
  have hlen := h.strlen
  obtain ⟨h0, r, hpost⟩ := h
  have htake : src.bytes.take (s.length + 1) = s ++ [0] := by
    rw [hpost, List.take_append]
    simp [List.take_of_length_le]
  have hle : (src.bytes.take (s.length + 1)).length ≤ n := by
    simp only [htake, List.length_append, List.length_singleton]
    omega
  refine ⟨a.fill _ hle, ?_, h0, a.bytes.drop (src.bytes.take (s.length + 1)).length, ?_⟩
  · rw [CharArray.strcpy, hlen]
    exact dif_pos hle
  · simp only [fill, htake, List.append_assoc, List.singleton_append]

/-- A text with a NUL behind it makes the string up to its first NUL. -/
theorem holds_takeWhile (h : a.bytes = s ++ 0 :: r) : a.Holds (s.takeWhile (· ≠ 0)) := by
  by_cases h0 : 0 ∈ s
  · obtain ⟨u, v, rfl, hu⟩ := List.eq_append_cons_of_mem h0
    rw [takeWhile_eq hu]
    exact ⟨hu, v ++ 0 :: r, by rw [h, List.append_assoc, List.cons_append]⟩
  · have hs : s.takeWhile (· ≠ 0) = s :=
      List.takeWhile_eq_self_iff.2 fun b hb => by simpa using fun e : b = 0 => h0 (e ▸ hb)
    rw [hs]
    exact ⟨h0, r, h⟩

theorem holds_ofBytes (h : s.length < n) (h0 : 0 ∉ s) : (ofBytes s h.le : CharArray n).Holds s := by
  refine ⟨h0, List.replicate (n - s.length - 1) 0, ?_⟩
  rw [ofBytes, ← List.replicate_succ, Nat.sub_add_cancel (by omega)]

/-- A line that fits is taken with its newline. -/
theorem fgetsLine_eq (h : 10 ∉ s) (hs : s.length < n) :
    fgetsLine n (s ++ 10 :: r) = s ++ [10] := by
  have htake : (s ++ 10 :: r).take n = s ++ 10 :: r.take (n - s.length - 1) := by
    rw [List.take_append, List.take_of_length_le hs.le, List.take_cons (by omega)]
  have hall : ∀ b ∈ s, decide (b ≠ 10) = true := fun b hb => by
    simpa using fun e : b = 10 => h (e ▸ hb)
  rw [fgetsLine, htake, List.takeWhile_append_of_pos hall, List.dropWhile_append_of_pos hall]
  simp

theorem fgets_eq {a : CharArray (n + 1)} (h : 10 ∉ s) (hs : s.length < n) :
    (a.fgets (s ++ 10 :: r)).2 = (r, false) := by
  have hdrop : (s ++ 10 :: r).drop (s ++ [10]).length = r := by
    rw [List.append_cons s 10 r, List.drop_left]
  have hmem : 10 ∈ s ++ 10 :: r := List.mem_append_right _ List.mem_cons_self
  simp only [fgets, fgetsLine_eq h hs, hdrop, hmem, not_true_eq_false, and_false, decide_false]

/-- What `fgets` leaves in the array is the line up to its first NUL. -/
theorem holds_fgets {a : CharArray (n + 1)} {input : List UInt8} (h : input ≠ []) :
    (a.fgets input).1.Holds ((fgetsLine n input).takeWhile (· ≠ 0)) := by
  rw [fgets, if_neg h]
  exact holds_takeWhile (r := a.bytes.drop (fgetsLine n input ++ [0]).length)
    (by simp [fill])

end CharArray
end Lib
