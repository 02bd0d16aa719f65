/-
# Replies that do not fit

The reply loop of `doit` of `proxylab/proxy.c` appends every chunk to `buf` with
`strcat`, and nothing looks at how much of the array is left: `cache_size` is
compared with `MAX_OBJECT_SIZE` once the server has closed the connection, and
`MAXLINE` with nothing at all.  So `buf` overflows as soon as the text of the reply,
the part of every chunk in front of its first NUL, has `MAXLINE` bytes
(`reply_in_bounds_iff`).

The test in `write_cache` leaves no room for the NUL either.  A line of the cache
overflows with an object of `MAX_OBJECT_SIZE` bytes that has no NUL in it, and below
`2^31` bytes with no other (`line_overflow_iff`).
-/

import CsappLabs.Proxy.Message

namespace CsappLabs
namespace Proxy

open Lib.CInt

/-- The bytes that `strcat` takes of the chunks. -/
def replyText (chunks : List (List UInt8)) : List UInt8 := chunks.flatMap cstr

/-- After every `strcat`, the string and its NUL are within `buf`. -/
def BufFits (url : List UInt8) (chunks : List (List UInt8)) : Prop :=
  ∀ pre, pre <+: chunks → (bufferReply url pre).buf.length + 1 ≤ MAXLINE

/-- An object that `write_cache` accepts is within a line, with its NUL. -/
def LineFits (url : List UInt8) (chunks : List (List UInt8)) : Prop :=
  (bufferReply url chunks).size ≤ MAX_OBJECT_SIZE →
    ((bufferReply url chunks).buf.length : ℤ) + 1 ≤ MAX_OBJECT_SIZE

variable {url : List UInt8} {chunks pre : List (List UInt8)}

theorem bufferReply_buf_eq (url : List UInt8) (chunks : List (List UInt8)) :
    (bufferReply url chunks).buf = replyText chunks := bufferReply_buf url chunks

/-- The text only grows. -/
theorem length_replyText_le (h : pre <+: chunks) :
    (replyText pre).length ≤ (replyText chunks).length := by
  obtain ⟨rest, rfl⟩ := h
  rw [replyText, replyText, List.flatMap_append, List.length_append]
  exact Nat.le_add_right _ _

/-- There is no more text than there are bytes. -/
theorem length_replyText_le_flatten (chunks : List (List UInt8)) :
    (replyText chunks).length ≤ chunks.flatten.length := by
  induction chunks with
  | nil => exact le_rfl
  | cons message chunks ih =>
    rw [replyText, List.flatMap_cons, List.flatten_cons, List.length_append, List.length_append]
    exact Nat.add_le_add (length_cstr_le message) ih

/-- **All bytes are text** exactly if none is a NUL. -/
theorem length_replyText_eq_iff (chunks : List (List UInt8)) :
    (replyText chunks).length = chunks.flatten.length ↔ 0 ∉ chunks.flatten := by
  induction chunks with
  | nil => exact iff_of_true rfl (by simp)
  | cons message chunks ih =>
    have hle := length_cstr_le message
    have hrest := length_replyText_le_flatten chunks
    have hpre : cstr message <+: message := List.takeWhile_prefix _
    have hself : cstr message = message ↔ (cstr message).length = message.length :=
      ⟨congrArg _, hpre.eq_of_length⟩
    rw [List.flatten_cons, List.mem_append, not_or, ← ih, ← cstr_eq_self_iff, hself, replyText,
      List.flatMap_cons, List.length_append, List.length_append]
    change (_ + (replyText chunks).length = _) ↔ _
    omega

theorem bufFits_iff : BufFits url chunks ↔ (replyText chunks).length < MAXLINE := by
  constructor
  · intro h
    have hall := h chunks List.prefix_rfl
    rwa [bufferReply_buf_eq] at hall
  · intro h pre hpre
    rw [bufferReply_buf_eq]
    exact lt_of_le_of_lt (length_replyText_le hpre) h

theorem lineFits_iff : LineFits url chunks ↔
    ((replyText chunks).length : ℤ) < MAX_OBJECT_SIZE ∨
      MAX_OBJECT_SIZE < int32 chunks.flatten.length := by
  rw [LineFits, bufferReply_buf_eq, bufferReply_size]
  omega

/-- **The boundary.** -/
theorem line_overflow_iff (h : chunks.flatten.length < 2 ^ 31) :
    ¬LineFits url chunks ↔
      (chunks.flatten.length : ℤ) = MAX_OBJECT_SIZE ∧ 0 ∉ chunks.flatten := by
  have hle := length_replyText_le_flatten chunks
  rw [lineFits_iff, int32_of_bounds (by omega) (by omega), ← length_replyText_eq_iff]
  omega

/-- **A reply stays in bounds** exactly if it has fewer than `MAXLINE` bytes of text.
Of the lines of the cache alone, there is more to say. -/
theorem reply_in_bounds_iff (url : List UInt8) (chunks : List (List UInt8)) :
    (BufFits url chunks ∧ LineFits url chunks ↔ (replyText chunks).length < MAXLINE) ∧
      (LineFits url chunks ↔ ((replyText chunks).length : ℤ) < MAX_OBJECT_SIZE ∨
        MAX_OBJECT_SIZE < int32 chunks.flatten.length) := by
  refine ⟨?_, lineFits_iff⟩
  rw [bufFits_iff, lineFits_iff, and_iff_left_iff_imp]
  intro h
  have hmax : MAXLINE = 8192 := rfl
  have hobj : MAX_OBJECT_SIZE = 102400 := rfl
  omega

/-- **A reply of `MAXLINE` bytes** without a newline: `write_cache` accepts it, and the
second `strcat` writes behind `buf`. -/
theorem reply_overflows :
    (bufferReply [117] [List.replicate 8191 65, [65]]).size ≤ MAX_OBJECT_SIZE ∧
      ¬(BufFits [117] [List.replicate 8191 65, [65]] ∧
        LineFits [117] [List.replicate 8191 65, [65]]) := by
  have htext : ∀ n, (replyText [List.replicate n 65, [65]]).length = n + 1 := fun n => by
    simp [replyText, cstr]
  constructor
  · rw [bufferReply_size]
    simp only [List.flatten_cons, List.flatten_nil, List.append_nil, List.length_append,
      List.length_replicate, List.length_singleton]
    decide
  · rintro ⟨hbuf, -⟩
    rw [bufFits_iff, htext] at hbuf
    exact lt_irrefl _ hbuf

end Proxy
end CsappLabs
