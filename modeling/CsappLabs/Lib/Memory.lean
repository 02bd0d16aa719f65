/-
# Bytes and words

A memory is a function from addresses to bytes.  A word is four bytes, the least
significant first, and what is known of aligned words is what is known of an
array: a word just stored is read back, and another one is as it was
(`load_store`).
-/

import CsappLabs.Lib.CInt

namespace Lib

/-- The contents of the memory. -/
abbrev Memory := ℕ → UInt8

namespace Memory

/-- The word at `a`. -/
def load (m : Memory) (a : ℕ) : ℕ :=
  (m a).toNat + 2 ^ 8 * (m (a + 1)).toNat + 2 ^ 16 * (m (a + 2)).toNat
    + 2 ^ 24 * (m (a + 3)).toNat

/-- The memory with the word `v` at `a`. -/
def store (m : Memory) (a v : ℕ) : Memory := fun i =>
  if i = a then UInt8.ofNat v
  else if i = a + 1 then UInt8.ofNat (v / 2 ^ 8)
  else if i = a + 2 then UInt8.ofNat (v / 2 ^ 16)
  else if i = a + 3 then UInt8.ofNat (v / 2 ^ 24)
  else m i

/-- `memset(a, c, n)` -/
def fill (m : Memory) (a : ℕ) (c : UInt8) (n : ℕ) : Memory := fun i =>
  if a ≤ i ∧ i < a + n then c else m i

/-- `memcpy(dst, src, n)`, one byte after the other. -/
def copy (m : Memory) (dst src : ℕ) : ℕ → Memory
  | 0 => m
  | n + 1 => Function.update (copy m dst src n) (dst + n) (copy m dst src n (src + n))

variable {m m' : Memory} {a b i n v : ℕ}

theorem load_lt (m : Memory) (a : ℕ) : load m a < 2 ^ 32 := by
  have h0 := (m a).toNat_lt
  have h1 := (m (a + 1)).toNat_lt
  have h2 := (m (a + 2)).toNat_lt
  have h3 := (m (a + 3)).toNat_lt
  unfold load
  omega

/-- A word depends on its four bytes only. -/
theorem load_congr (h : ∀ i, a ≤ i → i < a + 4 → m' i = m i) : load m' a = load m a := by
  unfold load
  rw [h a (by omega) (by omega), h (a + 1) (by omega) (by omega), h (a + 2) (by omega) (by omega),
    h (a + 3) (by omega) (by omega)]

/-- The bytes beside the word are as they were. -/
theorem store_of_not_mem (h : i < a ∨ a + 4 ≤ i) : store m a v i = m i := by
  unfold store
  rw [if_neg (by omega), if_neg (by omega), if_neg (by omega), if_neg (by omega)]

/-- The bytes of the word are those of its value. -/
theorem store_congr (hi : a ≤ i) (hi' : i < a + 4) : store m a v i = store m' a v i := by
  unfold store
  split_ifs
  · rfl
  · rfl
  · rfl
  · rfl
  · omega

theorem load_store_self (m : Memory) (a v : ℕ) : load (store m a v) a = v % 2 ^ 32 := by
  have h0 : store m a v a = UInt8.ofNat v := if_pos rfl
  have h1 : store m a v (a + 1) = UInt8.ofNat (v / 2 ^ 8) := by
    unfold store
    rw [if_neg (by omega), if_pos rfl]
  have h2 : store m a v (a + 2) = UInt8.ofNat (v / 2 ^ 16) := by
    unfold store
    rw [if_neg (by omega), if_neg (by omega), if_pos rfl]
  have h3 : store m a v (a + 3) = UInt8.ofNat (v / 2 ^ 24) := by
    unfold store
    rw [if_neg (by omega), if_neg (by omega), if_neg (by omega), if_pos rfl]
  unfold load
  rw [h0, h1, h2, h3]
  simp only [UInt8.toNat_ofNat']
  omega

/-- **Aligned words** do not overlap. -/
theorem load_store (ha : 4 ∣ a) (hb : 4 ∣ b) :
    load (store m a v) b = if b = a then v % 2 ^ 32 else load m b := by
  split_ifs with h
  · rw [h, load_store_self]
  · exact load_congr fun i hi hi' => store_of_not_mem (by omega)

/-- The word stored last counts. -/
theorem store_store (m : Memory) (a v v' : ℕ) : store (store m a v) a v' = store m a v' := by
  funext i
  unfold store
  split_ifs <;> rfl

/-- Words apart can be stored in any order. -/
theorem store_comm {v' : ℕ} (h : a + 4 ≤ b ∨ b + 4 ≤ a) :
    store (store m a v) b v' = store (store m b v') a v := by
  funext i
  by_cases ha : a ≤ i ∧ i < a + 4
  · rw [store_of_not_mem (a := b) (by omega)]
    exact store_congr ha.1 ha.2
  · rw [store_of_not_mem (a := a) (m := store m b v') (by omega)]
    by_cases hb : b ≤ i ∧ i < b + 4
    · exact (store_congr hb.1 hb.2).symm
    · rw [store_of_not_mem (a := b) (by omega), store_of_not_mem (a := b) (by omega),
        store_of_not_mem (by omega)]

theorem fill_of_not_mem {c : UInt8} (h : i < a ∨ a + n ≤ i) : fill m a c n i = m i :=
  if_neg (by omega)

theorem copy_of_not_mem {dst src : ℕ} (h : i < dst ∨ dst + n ≤ i) : copy m dst src n i = m i := by
  induction n with
  | zero => rfl
  | succ n ih =>
    rw [copy, Function.update_of_ne (by omega), ih (by omega)]

/-- What is copied is the source, as far as the destination does not reach into it. -/
theorem copy_of_mem {dst src k : ℕ} (hk : k < n) (hd : src + k < dst ∨ dst + n ≤ src + k) :
    copy m dst src n (dst + k) = m (src + k) := by
  induction n with
  | zero => omega
  | succ n ih =>
    rw [copy]
    by_cases h : k = n
    · subst h
      rw [Function.update_self, copy_of_not_mem (by omega)]
    · rw [Function.update_of_ne (by omega), ih (by omega) (by omega)]

end Memory
end Lib
