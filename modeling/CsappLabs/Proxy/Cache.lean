/-
# The object cache

The global `cache` of `proxylab/proxy.c` and the functions that read and write
its lines: `cache_init`, `find_cache_hit`, the choice of a line in
`write_cache` and its locked section, and the buffering of a reply in `doit`.

A C string is the list of its bytes in front of the terminating NUL, and
`strcmp` compares such lists.  The array `buf` of a line keeps the bytes a
shorter `strcpy` leaves behind, since a hit sends `size` bytes of it whatever
they are.  Times are `int`s and wrap around.

The arrays of a line have `MAX_OBJECT_SIZE` and `MAXLINE` bytes, one behind the
other, and `strcpy` knows neither bound: a line stands for the one of the source
where the calls fit it (`WriteCall.Fits`).
-/

import CsappLabs.Lib.CInt
import Mathlib.Data.List.FinRange

namespace CsappLabs
namespace Proxy

open Lib.CInt

def MAX_OBJECT_SIZE : ℤ := 102400

abbrev MAXLINE : ℕ := 8192

abbrev CACHE_LINE : ℕ := 10

/-- One line of the cache; `buf i` is byte `i` of its array, and `url` the string in the
array behind it. -/
structure CacheLine where
  buf : ℕ → UInt8
  url : List UInt8
  size : ℤ
  valid : Bool
  timestamp : ℤ

/-- The cache without its semaphores. -/
structure Cache where
  line : Fin CACHE_LINE → CacheLine
  readcnt : ℤ
  currentTime : ℤ

/-- `cache_init`; the global starts with zeroed arrays. -/
def cacheInit : Cache where
  line _ := { buf := fun _ => 0, url := [], size := 0, valid := false, timestamp := 0 }
  readcnt := 0
  currentTime := 0

/-- `find_cache_hit`: the last valid line with this url, `none` for `-1`. -/
def findCacheHit (c : Cache) (url : List UInt8) : Option (Fin CACHE_LINE) :=
  (List.finRange CACHE_LINE).foldl
    (fun ret i => if (c.line i).valid ∧ (c.line i).url = url then some i else ret) none

/-- The first loop of `write_cache`: the first invalid line. -/
def findFree (c : Cache) : Option (Fin CACHE_LINE) :=
  (List.finRange CACHE_LINE).find? fun i => !(c.line i).valid

/-- The second loop of `write_cache`: `max_time` and the line it belongs to. -/
def findOldest (c : Cache) : ℤ × Option (Fin CACHE_LINE) :=
  (List.finRange CACHE_LINE).foldl
    (fun acc i =>
      if (c.line i).valid ∧ int32 (c.currentTime - (c.line i).timestamp) > acc.1 then
        (int32 (c.currentTime - (c.line i).timestamp), some i)
      else acc)
    (0, none)

/-- The line `write_cache` decides to write, `none` for `-1`. -/
def chooseLine (c : Cache) : Option (Fin CACHE_LINE) :=
  match findFree c with
  | some i => some i
  | none => (findOldest c).2

/-- `strcpy(dst, src)` into an array with room for `src` and its NUL. -/
def strcpy (dst : ℕ → UInt8) (src : List UInt8) : ℕ → UInt8 := fun i =>
  if h : i < src.length then src[i] else if i = src.length then 0 else dst i

/-- The arguments of a call of `write_cache`. -/
structure WriteCall where
  buf : List UInt8
  url : List UInt8
  size : ℤ
  deriving DecidableEq

/-- The strings and their NULs fit the arrays of a line. -/
structure WriteCall.Fits (w : WriteCall) : Prop where
  buf : (w.buf.length : ℤ) < MAX_OBJECT_SIZE
  url : w.url.length < MAXLINE

instance (w : WriteCall) : Decidable w.Fits :=
  decidable_of_iff ((w.buf.length : ℤ) < MAX_OBJECT_SIZE ∧ w.url.length < MAXLINE)
    ⟨fun h => ⟨h.1, h.2⟩, fun h => ⟨h.buf, h.url⟩⟩

/-- The section of `write_cache` between `P` and `V`.  With `idx = -1` the
stores go to memory in front of the lines and change none of them. -/
def writeLine (c : Cache) (idx : Option (Fin CACHE_LINE)) (w : WriteCall) : Cache :=
  let time := int32 (c.currentTime + 1)
  { c with
    currentTime := time
    line := match idx with
      | none => c.line
      | some i => Function.update c.line i
          { buf := strcpy (c.line i).buf w.buf, url := w.url, size := w.size, valid := true,
            timestamp := time } }

/-- What the reply loop of `doit` collects: `strcat` of every chunk to `buf`, whatever the
size of `buf`, and the sum of the lengths in the `int` `cache_size`. -/
def bufferReply (url : List UInt8) (chunks : List (List UInt8)) : WriteCall where
  buf := chunks.foldl (fun buf message => buf ++ message.takeWhile (· ≠ 0)) []
  url := url
  size := chunks.foldl (fun (n : ℤ) message => int32 (n + message.length)) 0

/-- The line holds the object of this call: its string, its url and its size. -/
structure Stores (l : CacheLine) (w : WriteCall) : Prop where
  valid : l.valid = true
  url : l.url = w.url
  size : l.size = w.size
  buf : ∀ i (h : i < w.buf.length), l.buf i = w.buf[i]
  nul : l.buf w.buf.length = 0

/-! ### What the loops find -/

/-- The string that a reply leaves in `buf`. -/
theorem bufferReply_buf (url : List UInt8) (chunks : List (List UInt8)) :
    (bufferReply url chunks).buf = chunks.flatMap fun message => message.takeWhile (· ≠ 0) :=
  List.flatMap_eq_foldl.symm

/-- What a reply counts. -/
theorem bufferReply_size (url : List UInt8) (chunks : List (List UInt8)) :
    (bufferReply url chunks).size = int32 chunks.flatten.length := by
  have hfold : ∀ n : ℤ, chunks.foldl (fun (n : ℤ) message => int32 (n + message.length)) (int32 n) =
      int32 (n + chunks.flatten.length) := by
    induction chunks with
    | nil => simp
    | cons message chunks ih =>
      intro n
      rw [List.foldl_cons, int32_add, ih, List.flatten_cons, List.length_append]
      push_cast
      rw [add_assoc]
  have hzero : int32 0 = 0 := by decide
  have h := hfold 0
  rwa [hzero, zero_add] at h

/-- A loop over the lines that keeps the last one satisfying a test returns a
line that satisfies it. -/
theorem foldl_last_spec {α : Type*} (p : α → Prop) [DecidablePred p] (l : List α)
    (r : Option α) {i : α}
    (h : l.foldl (fun ret i => if p i then some i else ret) r = some i) : r = some i ∨ p i := by
  induction l generalizing r with
  | nil => exact .inl h
  | cons a l ih =>
    rcases ih _ h with ha | hi
    · simp only at ha
      by_cases hpa : p a
      · rw [if_pos hpa] at ha
        exact .inr (Option.some.inj ha ▸ hpa)
      · rw [if_neg hpa] at ha
        exact .inl ha
    · exact .inr hi

/-- **A hit is a valid line with the url.** -/
theorem findCacheHit_spec {c : Cache} {url : List UInt8} {i : Fin CACHE_LINE}
    (h : findCacheHit c url = some i) : (c.line i).valid = true ∧ (c.line i).url = url := by
  rcases foldl_last_spec (fun i => (c.line i).valid = true ∧ (c.line i).url = url) _ _ h with h | h
  · exact absurd h (by simp)
  · exact h

/-- **The written line stores the object.** -/
theorem stores_writeLine (c : Cache) (i : Fin CACHE_LINE) (w : WriteCall) :
    Stores ((writeLine c (some i) w).line i) w := by
  simp only [writeLine, Function.update_self]
  refine ⟨rfl, rfl, rfl, fun k hk => ?_, ?_⟩
  · simp [strcpy, hk]
  · simp [strcpy]

/-- Every other line keeps its contents. -/
theorem writeLine_line_of_ne {c : Cache} {idx : Option (Fin CACHE_LINE)} {w : WriteCall}
    {j : Fin CACHE_LINE} (h : idx ≠ some j) : (writeLine c idx w).line j = c.line j := by
  cases idx with
  | none => rfl
  | some i => exact Function.update_of_ne (fun e => h (congrArg some e.symm)) _ _

@[simp] theorem writeLine_readcnt (c : Cache) (idx : Option (Fin CACHE_LINE)) (w : WriteCall) :
    (writeLine c idx w).readcnt = c.readcnt := rfl

end Proxy
end CsappLabs
