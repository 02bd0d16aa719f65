/-
# The request to the server

`construct_message` of `proxylab/proxy.c`.  It prints the lines of the request one
behind the other into `message`, `count` being the sum of the lengths that `snprintf`
returns: those of the texts, whether they fit or not.  So once the lines do not fit,
`count` passes `MAXLINE`, `message + count` is behind the array, and `MAXLINE - count`
is a huge `size_t` (`message_bounds_iff`).

`message` is indexed by `ℤ`, offsets outside `[0, MAXLINE)` being memory beyond the
array.  `calls` lists the calls of `snprintf`; it plays no part in the steps.
-/

import CsappLabs.Proxy.Replies
import CsappLabs.Proxy.Url

namespace CsappLabs
namespace Proxy

open Lib.CInt Lib.Scanf

/-- A call `snprintf(message + offset, size, …)` that prints `text`. -/
structure PrintCall where
  offset : ℤ
  size : ℕ
  text : List UInt8

/-- The array `message`, `count`, and the calls of `snprintf` so far. -/
structure Message where
  message : ℤ → UInt8
  count : ℤ
  calls : List PrintCall

/-- An `int` as a `size_t`. -/
def sizeT (x : ℤ) : ℕ := (x % 2 ^ 64).toNat

/-- What `snprintf(message + offset, size, …)` leaves of `text` in memory. -/
def snprintf (message : ℤ → UInt8) (offset : ℤ) (size : ℕ) (text : List UInt8) : ℤ → UInt8 :=
  fun i =>
    if offset ≤ i ∧ i < offset + (text.take (size - 1)).length then text.getD (i - offset).toNat 0
    else if 0 < size ∧ i = offset + (text.take (size - 1)).length then 0
    else message i

/-- `snprintf(message + count, MAXLINE - count, …)` -/
def Message.call (m : Message) (text : List UInt8) : Message :=
  { m with
    message := snprintf m.message m.count (sizeT (MAXLINE - m.count)) text
    calls := m.calls ++ [⟨m.count, sizeT (MAXLINE - m.count), text⟩] }

/-- `count += snprintf(message + count, MAXLINE - count, …)` -/
def Message.print (m : Message) (text : List UInt8) : Message :=
  { m.call text with count := int32 (m.count + text.length) }

/-- The string in an array of bytes. -/
def cstr (s : List UInt8) : List UInt8 := s.takeWhile (· ≠ 0)

/-- `tolower` -/
def toLower (c : UInt8) : UInt8 := if 65 ≤ c ∧ c ≤ 90 then c + 32 else c

/-- `!strncasecmp(s, t, strlen(t))` -/
def strncasecmp (s t : List UInt8) : Bool :=
  ((cstr s).take t.length).map toLower = t.map toLower

/-- The client's line is not passed on. -/
def dropsLine (tmp : List UInt8) : Bool :=
  strncasecmp tmp (bytes "Host") || strncasecmp tmp (bytes "User-Agent") ||
    strncasecmp tmp (bytes "Connection") || strncasecmp tmp (bytes "Proxy-Connection")

/-- The loop over the client's lines. -/
def copyLines (m : Message) : List (List UInt8) → Message
  | [] => m
  | tmp :: lines =>
    if cstr tmp = bytes "\r\n" then m
    else if dropsLine tmp then copyLines m lines
    else copyLines (m.print (cstr tmp)) lines

def user_agent_hdr : List UInt8 :=
  bytes "User-Agent: Mozilla/5.0 (X11; Linux x86_64; rv:10.0.3) Gecko/20120305 Firefox/10.0.3\r\n"

/-- `construct_message`, where `rp` has the rest of what the client sent. -/
def constructMessage (message : ℤ → UInt8) (urlStorage : URLStorage) (rp : List UInt8) : Message :=
  let m : Message := ⟨message, 0, []⟩
  let m := m.print (bytes "GET " ++ urlStorage.filename ++ bytes " HTTP/1.0\r\n")
  let m := m.print (bytes "Host: " ++ urlStorage.hostname ++ bytes "\r\n")
  let m := m.print (bytes "User-Agent: " ++ user_agent_hdr)
  let m := m.print (bytes "Connection: close\r\n")
  let m := m.print (bytes "Proxy-Connection: close\r\n")
  (copyLines m (readLines rp.length rp)).call (bytes "\r\n")

variable {m : Message} {message : ℤ → UInt8} {u : URLStorage} {rp t : List UInt8}
  {ts lines : List (List UInt8)} {n : ℕ}

/-! ### The texts printed -/

theorem length_cstr_le (t : List UInt8) : (cstr t).length ≤ t.length :=
  (List.takeWhile_sublist _).length_le

theorem cstr_eq_self_iff : cstr t = t ↔ 0 ∉ t := by
  rw [cstr, List.takeWhile_eq_self_iff]
  exact ⟨fun h hz => absurd (h 0 hz) (by decide), fun h c hc =>
    decide_eq_true fun hc0 => h (hc0 ▸ hc)⟩

/-- The lines that the proxy adds. -/
def proxyLines (u : URLStorage) : List (List UInt8) :=
  [bytes "GET " ++ u.filename ++ bytes " HTTP/1.0\r\n", bytes "Host: " ++ u.hostname ++ bytes "\r\n",
    bytes "User-Agent: " ++ user_agent_hdr, bytes "Connection: close\r\n",
    bytes "Proxy-Connection: close\r\n"]

/-- What is printed of the client's lines. -/
def copiedLines (lines : List (List UInt8)) : List (List UInt8) :=
  ((lines.takeWhile fun tmp => cstr tmp ≠ bytes "\r\n").filter (!dropsLine ·)).map cstr

theorem copyLines_eq (m : Message) (lines : List (List UInt8)) :
    copyLines m lines = (copiedLines lines).foldl Message.print m := by
  induction lines generalizing m with
  | nil => rfl
  | cons tmp lines ih =>
    unfold copyLines copiedLines
    by_cases hend : cstr tmp = bytes "\r\n"
    · simp [hend]
    · rw [if_neg hend, List.takeWhile_cons_of_pos (by simpa using hend)]
      cases hdrop : dropsLine tmp with
      | true => simpa [hdrop, copiedLines] using ih m
      | false => simpa [hdrop, copiedLines] using ih (m.print (cstr tmp))

/-- The message is made of these texts and the blank line. -/
theorem constructMessage_eq (message : ℤ → UInt8) (u : URLStorage) (rp : List UInt8) :
    constructMessage message u rp =
      ((proxyLines u ++ copiedLines (readLines rp.length rp)).foldl Message.print
        ⟨message, 0, []⟩).call (bytes "\r\n") := by
  rw [List.foldl_append, ← copyLines_eq]
  rfl

/-! ### Bounds -/

/-- The call starts in the array and is given no more than the rest of it. -/
def PrintCall.InBounds (c : PrintCall) : Prop :=
  0 ≤ c.offset ∧ c.offset < MAXLINE ∧ (c.size : ℤ) ≤ MAXLINE - c.offset

/-- `snprintf` writes `size` bytes at most. -/
theorem snprintf_of_not_mem {offset i : ℤ} {size : ℕ} {text : List UInt8}
    (h : i < offset ∨ offset + size ≤ i) : snprintf message offset size text i = message i := by
  have hlen : (text.take (size - 1)).length ≤ size - 1 := List.length_take_le _ _
  rw [snprintf, if_neg, if_neg]
  · omega
  · omega

theorem sizeT_of_lt {x : ℤ} (h0 : 0 ≤ x) (h : x < 2 ^ 64) : (sizeT x : ℤ) = x := by
  rw [sizeT, Int.emod_eq_of_lt h0 h, Int.toNat_of_nonneg h0]

/-- A call is in bounds exactly if `count` is. -/
theorem inBounds_iff (h0 : 0 ≤ m.count) :
    PrintCall.InBounds ⟨m.count, sizeT (MAXLINE - m.count), t⟩ ↔ m.count < MAXLINE := by
  refine ⟨fun h => h.2.1, fun h => ⟨h0, h, ?_⟩⟩
  have hmax : ((MAXLINE : ℕ) : ℤ) = 8192 := rfl
  exact (sizeT_of_lt (by omega) (by omega)).le

/-- The calls made before stay in the list. -/
theorem calls_kept (ts : List (List UInt8)) (m : Message) :
    m.calls ⊆ (ts.foldl Message.print m).calls := by
  induction ts generalizing m with
  | nil => exact List.Subset.refl _
  | cons t ts ih => exact fun c hc => ih (m.print t) (List.mem_append_left _ hc)

/-- **The texts fit** exactly if every call is in bounds. -/
theorem calls_inBounds_iff (hts : ∀ t ∈ ts, t.length < 2 ^ 30) (h0 : 0 ≤ m.count)
    (h31 : m.count < 2 ^ 31) (hm : ∀ c ∈ m.calls, c.InBounds) :
    (∀ c ∈ ((ts.foldl Message.print m).call t).calls, c.InBounds) ↔
      m.count + ts.flatten.length < MAXLINE := by
  have hmax : ((MAXLINE : ℕ) : ℤ) = 8192 := rfl
  induction ts generalizing m with
  | nil =>
    simp only [List.foldl_nil, Message.call, List.forall_mem_append, List.forall_mem_singleton,
      inBounds_iff h0, List.flatten_nil, List.length_nil, Nat.cast_zero, add_zero]
    exact and_iff_right hm
  | cons s ts ih =>
    obtain ⟨hs, hts⟩ := List.forall_mem_cons.1 hts
    have hcalls : (m.print s).calls = m.calls ++ [⟨m.count, sizeT (MAXLINE - m.count), s⟩] := rfl
    rw [List.foldl_cons, List.flatten_cons, List.length_append]
    by_cases hlt : m.count < MAXLINE
    · have hcount : (m.print s).count = m.count + s.length :=
        int32_of_bounds (by omega) (by omega)
      have hin : ∀ c ∈ (m.print s).calls, c.InBounds := by
        rw [hcalls, List.forall_mem_append, List.forall_mem_singleton, inBounds_iff h0]
        exact ⟨hm, hlt⟩
      refine (ih hts (by omega) (by omega) hin).trans ?_
      rw [hcount]
      push_cast
      omega
    · -- the call that starts behind the array stays in the list
      refine iff_of_false (fun hall => hlt ?_) (by push_cast; omega)
      have hmem := calls_kept ts (m.print s) (hcalls ▸ List.mem_concat_self)
      exact (inBounds_iff h0).1 (hall _ (List.mem_append_left _ hmem))

/-- What is in bounds does not change the memory beyond the array. -/
theorem message_of_not_mem {i : ℤ} (hi : i < 0 ∨ MAXLINE ≤ i)
    (h : ∀ c ∈ ((ts.foldl Message.print m).call t).calls, c.InBounds) :
    ((ts.foldl Message.print m).call t).message i = m.message i := by
  have hcall : ∀ {m : Message} {s : List UInt8},
      PrintCall.InBounds ⟨m.count, sizeT (MAXLINE - m.count), s⟩ →
        (m.call s).message i = m.message i := by
    intro m s hc
    obtain ⟨h0, -, hsize⟩ := hc
    dsimp only at h0 hsize
    exact snprintf_of_not_mem (by omega)
  induction ts generalizing m with
  | nil => exact hcall (h _ List.mem_concat_self)
  | cons s ts ih =>
    rw [List.foldl_cons] at h ⊢
    have hmem := calls_kept ts (m.print s) List.mem_concat_self
    exact (ih h).trans (hcall (s := s) (h _ (List.mem_append_left _ hmem)))

/-- A line read is not longer than the room for it. -/
theorem length_readlineb_le (n : ℕ) (r : List UInt8) : (readlineb n r).1.length ≤ n := by
  induction n generalizing r with
  | zero => exact le_rfl
  | succ n ih =>
    cases r with
    | nil => exact Nat.zero_le _
    | cons c r =>
      unfold readlineb
      split_ifs
      · simp
      · simpa using ih r

theorem length_of_mem_readLines {l : List UInt8} (h : l ∈ readLines n rp) : l.length < MAXLINE := by
  induction n generalizing rp with
  | zero => simp [readLines] at h
  | succ n ih =>
    cases rp with
    | nil => simp [readLines] at h
    | cons c r =>
      rw [readLines, List.mem_cons] at h
      rcases h with rfl | h
      · exact Nat.lt_of_le_sub_one (by decide) (length_readlineb_le _ _)
      · exact ih h

theorem length_proxyLines (u : URLStorage) :
    (proxyLines u).flatten.length = u.filename.length + u.hostname.length + 165 := by
  have h1 : (bytes "GET ").length = 4 ∧ (bytes " HTTP/1.0\r\n").length = 11 := by decide
  have h2 : (bytes "Host: ").length = 6 ∧ (bytes "\r\n").length = 2 := by decide
  have h3 : (bytes "User-Agent: ").length = 12 ∧ user_agent_hdr.length = 86 := by decide
  have h4 : (bytes "Connection: close\r\n").length = 19 ∧
    (bytes "Proxy-Connection: close\r\n").length = 25 := by decide
  simp only [proxyLines, List.flatten_cons, List.flatten_nil, List.length_append, List.length_nil,
    h1, h2, h3, h4]
  omega

/-- The texts are far below the range of `int`. -/
theorem length_texts (rp : List UInt8) (hf : u.filename.length < MAXLINE)
    (hh : u.hostname.length < MAXLINE) :
    ∀ t ∈ proxyLines u ++ copiedLines (readLines rp.length rp), t.length < 2 ^ 30 := by
  have hmax : MAXLINE = 8192 := rfl
  intro t ht
  rcases List.mem_append.1 ht with ht | ht
  · have hle := (List.sublist_flatten_of_mem ht).length_le
    rw [length_proxyLines] at hle
    omega
  · obtain ⟨l, hl, rfl⟩ := List.mem_map.1 ht
    have hlen := length_of_mem_readLines
      ((List.takeWhile_sublist _).subset (List.mem_of_mem_filter hl))
    have hle : (cstr l).length ≤ l.length := (List.takeWhile_sublist _).length_le
    omega

/-- The lines of the proxy and those passed on leave room for the NUL of a string. -/
def Fits (u : URLStorage) (rp : List UInt8) : Prop :=
  (proxyLines u ++ copiedLines (readLines rp.length rp)).flatten.length < MAXLINE

theorem inBounds_iff_fits (message : ℤ → UInt8) (rp : List UInt8)
    (hf : u.filename.length < MAXLINE) (hh : u.hostname.length < MAXLINE) :
    (∀ c ∈ (constructMessage message u rp).calls, c.InBounds) ↔ Fits u rp := by
  rw [constructMessage_eq, calls_inBounds_iff (length_texts rp hf hh) le_rfl (by norm_num) (by simp),
    zero_add, Nat.cast_lt, Fits]

/-- **The message stays in its array** exactly if the proxy's lines and the client's
lines that are passed on have less than `MAXLINE` bytes. -/
theorem message_bounds_iff (message : ℤ → UInt8) (rp : List UInt8)
    (hf : u.filename.length < MAXLINE) (hh : u.hostname.length < MAXLINE) :
    ((∀ c ∈ (constructMessage message u rp).calls, c.InBounds) ∧
      ∀ i : ℤ, i < 0 ∨ MAXLINE ≤ i → (constructMessage message u rp).message i = message i) ↔
      Fits u rp := by
  rw [← inBounds_iff_fits message rp hf hh]
  refine ⟨And.left, fun h => ⟨h, fun i hi => ?_⟩⟩
  rw [constructMessage_eq] at h ⊢
  exact message_of_not_mem hi h

theorem message_bounds_iff_accept :
    ((∀ c ∈ (constructMessage (fun _ => 0) ⟨bytes "h", bytes "80", bytes "/"⟩
      (bytes "Accept: a\r\n\r\n")).calls, c.InBounds) ∧
      ∀ i : ℤ, i < 0 ∨ MAXLINE ≤ i → (constructMessage (fun _ => 0)
        ⟨bytes "h", bytes "80", bytes "/"⟩ (bytes "Accept: a\r\n\r\n")).message i = 0) ↔
      Fits ⟨bytes "h", bytes "80", bytes "/"⟩ (bytes "Accept: a\r\n\r\n") :=
  message_bounds_iff _ _ (by decide) (by decide)

/-- With 8100 bytes of file name the lines of the proxy alone do not fit. -/
theorem message_not_inBounds :
    ¬∀ c ∈ (constructMessage (fun _ => 0) ⟨bytes "h", bytes "80", 47 :: List.replicate 8099 97⟩
      (bytes "\r\n")).calls, c.InBounds := by
  have hlen : (47 :: List.replicate 8099 (97 : UInt8)).length = 8100 := by
    rw [List.length_cons, List.length_replicate]
  have hmax : MAXLINE = 8192 := rfl
  rw [inBounds_iff_fits _ _ (by rw [hlen]; decide) (by decide), Fits, List.flatten_append,
    List.length_append, length_proxyLines, hlen]
  omega

end Proxy
end CsappLabs
