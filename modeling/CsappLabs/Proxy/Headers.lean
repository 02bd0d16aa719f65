/-
# The client's headers

`construct_message` of `proxylab/proxy.c` is to pass on the client's header lines except
those that the proxy writes itself.  It leaves out the lines that begin with one of the
four names, in any case, so also a line `Hostname: …`; and it passes on a line as a
string, up to a NUL (`headers_iff`).
-/

import CsappLabs.Proxy.Message

namespace CsappLabs
namespace Proxy

open Lib.CInt Lib.Scanf

variable {m : Message} {u : URLStorage} {s t l rest body : List UInt8} {lines : List (List UInt8)}
  {n : ℕ}

/-! ### Reading lines -/

/-- A line with its newline, as `Rio_readlineb` returns it. -/
def IsLine (l : List UInt8) : Prop := l.length < MAXLINE ∧ ∃ t, l = t ++ [10] ∧ 10 ∉ t

theorem readlineb_line (rest : List UInt8) (ht : 10 ∉ t) (hn : t.length < n) :
    readlineb n (t ++ 10 :: rest) = (t ++ [10], rest) := by
  induction t generalizing n with
  | nil =>
    obtain ⟨n, rfl⟩ := Nat.exists_eq_add_one_of_ne_zero (by omega : n ≠ 0)
    simp [readlineb]
  | cons c t ih =>
    obtain ⟨n, rfl⟩ := Nat.exists_eq_add_one_of_ne_zero (by omega : n ≠ 0)
    rw [List.mem_cons, not_or] at ht
    rw [List.cons_append, readlineb, if_neg (Ne.symm ht.1),
      ih ht.2 (by simpa using hn)]
    rfl

/-- **The lines are read** one after the other. -/
theorem readLines_lines (rest : List UInt8) (hl : ∀ l ∈ lines, IsLine l)
    (hn : (lines.flatten ++ rest).length ≤ n) :
    ∃ n', rest.length ≤ n' ∧ readLines n (lines.flatten ++ rest) = lines ++ readLines n' rest := by
  induction lines generalizing n with
  | nil => exact ⟨n, hn, rfl⟩
  | cons l lines ih =>
    obtain ⟨⟨hlen, t, rfl, ht⟩, hls⟩ := List.forall_mem_cons.1 hl
    have hstream : ((t ++ [10]) :: lines).flatten ++ rest = t ++ 10 :: (lines.flatten ++ rest) := by
      simp
    rw [List.length_append, List.length_singleton] at hlen
    rw [hstream, List.length_append, List.length_cons] at hn
    obtain ⟨k, rfl⟩ := Nat.exists_eq_add_one_of_ne_zero (by omega : n ≠ 0)
    obtain ⟨n', hn', he⟩ := ih (n := k) hls (by omega)
    refine ⟨n', hn', ?_⟩
    have hread := readlineb_line (lines.flatten ++ rest) ht
      (Nat.lt_sub_of_add_lt hlen : t.length < MAXLINE - 1)
    obtain ⟨c, r, hcr⟩ :=
      List.exists_cons_of_ne_nil (l := t ++ 10 :: (lines.flatten ++ rest)) (by simp)
    rw [hstream, hcr, readLines, ← hcr, hread, he, List.cons_append]

/-- As a string, no other line is the blank line. -/
theorem cstr_ne_blank (hl : IsLine l) (hne : l ≠ bytes "\r\n") : cstr l ≠ bytes "\r\n" := by
  obtain ⟨-, t, rfl, ht⟩ := hl
  intro he
  have hpre : cstr (t ++ [10]) <+: t ++ [10] := List.takeWhile_prefix _
  rw [he] at hpre
  obtain ⟨r, hr⟩ := hpre
  rcases t with _ | ⟨c, _ | ⟨d, t⟩⟩
  · exact absurd (congrArg List.length hr) (by simp [bytes])
  · obtain rfl : 13 = c := (List.cons.inj hr).1
    exact hne rfl
  · obtain rfl : 10 = d := (List.cons.inj (List.cons.inj hr).2).1
    exact ht (by simp)

/-- The client's lines up to the blank one are copied. -/
theorem copiedLines_stream (hl : ∀ l ∈ lines, IsLine l ∧ l ≠ bytes "\r\n") (body : List UInt8) :
    copiedLines (readLines (lines.flatten ++ (bytes "\r\n" ++ body)).length
      (lines.flatten ++ (bytes "\r\n" ++ body))) = (lines.filter (!dropsLine ·)).map cstr := by
  obtain ⟨n', hn', he⟩ := readLines_lines (bytes "\r\n" ++ body) (fun l h => (hl l h).1) le_rfl
  obtain ⟨k, rfl⟩ := Nat.exists_eq_add_one_of_ne_zero
    (show n' ≠ 0 by rw [List.length_append, show (bytes "\r\n").length = 2 from rfl] at hn'; omega)
  have hblank : readLines (k + 1) (bytes "\r\n" ++ body) = bytes "\r\n" :: readLines k body := rfl
  have htake : (lines ++ bytes "\r\n" :: readLines k body).takeWhile
      (fun tmp => decide (cstr tmp ≠ bytes "\r\n")) = lines := by
    rw [List.takeWhile_append_of_pos fun l h => decide_eq_true (cstr_ne_blank (hl l h).1 (hl l h).2),
      List.takeWhile_cons_of_neg (by decide), List.append_nil]
  rw [he, hblank, copiedLines, htake]

/-! ### The text in memory -/

/-- The message so far is `s`, in front of `count`. -/
structure Prints (m : Message) (s : List UInt8) : Prop where
  count : m.count = s.length
  text : ∀ i (h : i < s.length), m.message i = s[i]

theorem snprintf_fits {message : ℤ → UInt8} {offset i : ℤ} (h : t.length < n) :
    snprintf message offset n t i =
      if offset ≤ i ∧ i < offset + t.length then t.getD (i - offset).toNat 0
      else if i = offset + t.length then 0 else message i := by
  rw [snprintf, List.take_of_length_le (by omega)]
  simp [Nat.zero_lt_of_lt h]

/-- A call that fits writes its text and a NUL behind it. -/
theorem Prints.call (h : Prints m s) (hlt : s.length + t.length < MAXLINE) :
    (∀ i (h : i < (s ++ t).length), (m.call t).message i = (s ++ t)[i]) ∧
      (m.call t).message (s ++ t).length = 0 := by
  have hmax : ((MAXLINE : ℕ) : ℤ) = 8192 := rfl
  have hcount := h.count
  have hsize := sizeT_of_lt (x := MAXLINE - m.count) (by omega) (by omega)
  have hcall : ∀ i, (m.call t).message i =
      if (s.length : ℤ) ≤ i ∧ i < s.length + t.length then t.getD (i - s.length).toNat 0
      else if i = s.length + t.length then 0 else m.message i := fun i =>
    hcount ▸ snprintf_fits (by omega)
  constructor
  · intro i hi
    rw [List.length_append] at hi
    rw [hcall]
    by_cases his : i < s.length
    · rw [if_neg (by omega), if_neg (by omega), h.text i his, List.getElem_append_left his]
    · rw [if_pos (by omega), List.getElem_append_right (by omega), ← Int.ofNat_sub (by omega),
        Int.toNat_natCast, List.getD_eq_getElem?_getD, List.getElem?_eq_getElem (by omega)]
      rfl
  · rw [hcall, List.length_append, if_neg (by omega), if_pos (by push_cast; rfl)]

theorem Prints.print (h : Prints m s) (hlt : s.length + t.length < MAXLINE) :
    Prints (m.print t) (s ++ t) := by
  have hmax : MAXLINE = 8192 := rfl
  refine ⟨?_, (h.call hlt).1⟩
  show int32 (m.count + t.length) = _
  rw [h.count, List.length_append, int32_of_bounds (by omega) (by omega)]
  push_cast
  rfl

theorem Prints.foldl {ts : List (List UInt8)} (h : Prints m s)
    (hlt : s.length + ts.flatten.length < MAXLINE) :
    Prints (ts.foldl Message.print m) (s ++ ts.flatten) := by
  induction ts generalizing m s with
  | nil => simpa using h
  | cons t ts ih =>
    rw [List.flatten_cons, List.length_append] at hlt
    rw [List.foldl_cons, List.flatten_cons, ← List.append_assoc]
    exact ih (h.print (by omega)) (by rw [List.length_append]; omega)

/-- A string in memory, up to its NUL. -/
theorem cstring_eq {buf : ℕ → UInt8} {i : ℕ} (hs : ∀ k (h : k < s.length), buf (i + k) = s[k])
    (hnul : buf (i + s.length) = 0) (hz : 0 ∉ s) (hn : s.length < n) : cstring buf n i = s := by
  induction s generalizing i n with
  | nil =>
    obtain ⟨n, rfl⟩ := Nat.exists_eq_add_one_of_ne_zero (by omega : n ≠ 0)
    rw [cstring, if_pos (by simpa using hnul)]
  | cons c s ih =>
    obtain ⟨n, rfl⟩ := Nat.exists_eq_add_one_of_ne_zero (by omega : n ≠ 0)
    rw [List.mem_cons, not_or] at hz
    have hc : buf i = c := hs 0 (Nat.succ_pos _)
    have hnext : ∀ k, i + 1 + k = i + (k + 1) := fun k => by omega
    rw [cstring, hc, if_neg (Ne.symm hz.1), ih ?_ ?_ hz.2 (by simpa using hn)]
    · intro k hk
      rw [hnext]
      exact hs (k + 1) (Nat.succ_lt_succ hk)
    · rw [hnext]
      exact hnul

/-- The string `message`, which `doit` sends to the server. -/
def Message.string (m : Message) : List UInt8 := cstring (fun i => m.message i) MAXLINE 0

theorem Prints.string (h : Prints m s) (hlt : s.length + t.length < MAXLINE) (hz : 0 ∉ s ++ t) :
    (m.call t).string = s ++ t := by
  obtain ⟨htext, hnul⟩ := h.call hlt
  refine cstring_eq (fun k hk => ?_) ?_ hz (by rwa [List.length_append])
  · rw [Nat.zero_add]
    exact htext k hk
  · rw [Nat.zero_add]
    exact hnul

/-- The lines of the proxy have no NUL if the strings of the url have none. -/
theorem nul_not_mem_proxyLines (hf : 0 ∉ u.filename) (hh : 0 ∉ u.hostname) :
    0 ∉ (proxyLines u).flatten := by
  have h1 : 0 ∉ bytes "GET " ∧ 0 ∉ bytes " HTTP/1.0\r\n" := by decide
  have h2 : 0 ∉ bytes "Host: " ∧ 0 ∉ bytes "\r\n" := by decide
  have h3 : 0 ∉ bytes "User-Agent: " ∧ 0 ∉ user_agent_hdr := by decide
  have h4 : 0 ∉ bytes "Connection: close\r\n" ∧ 0 ∉ bytes "Proxy-Connection: close\r\n" := by
    decide
  simp only [proxyLines, List.flatten_cons, List.flatten_nil, List.mem_append, hf, hh, h1, h2, h3,
    h4, List.not_mem_nil, or_self, not_false_eq_true]

theorem nul_not_mem_copied (ls : List (List UInt8)) : 0 ∉ (ls.map cstr).flatten := by
  intro hm
  obtain ⟨s, hs, h0⟩ := List.mem_flatten.1 hm
  obtain ⟨l, -, rfl⟩ := List.mem_map.1 hs
  exact absurd (List.mem_takeWhile_imp h0) (by decide)

/-- The lines that are passed on. -/
def passedOn (lines : List (List UInt8)) : List UInt8 :=
  ((lines.filter (!dropsLine ·)).map cstr).flatten

/-- **The message** is the proxy's lines, the client's and the blank line, if they fit. -/
theorem string_constructMessage (message : ℤ → UInt8) (body : List UInt8) (hf : 0 ∉ u.filename)
    (hh : 0 ∉ u.hostname) (hl : ∀ l ∈ lines, IsLine l ∧ l ≠ bytes "\r\n")
    (hfit : ((proxyLines u).flatten ++ passedOn lines ++ bytes "\r\n").length < MAXLINE) :
    (constructMessage message u (lines.flatten ++ (bytes "\r\n" ++ body))).string =
      (proxyLines u).flatten ++ passedOn lines ++ bytes "\r\n" := by
  have hflat : (proxyLines u ++ (lines.filter (!dropsLine ·)).map cstr).flatten =
      (proxyLines u).flatten ++ passedOn lines := List.flatten_append
  rw [List.length_append] at hfit
  have hprints : Prints ⟨message, 0, []⟩ [] := ⟨rfl, fun i hi => absurd hi (Nat.not_lt_zero i)⟩
  have hall := hprints.foldl (by rw [hflat, List.length_nil]; omega)
  rw [hflat, List.nil_append] at hall
  rw [constructMessage_eq, copiedLines_stream hl body, hall.string hfit]
  simp only [List.mem_append, nul_not_mem_proxyLines hf hh, passedOn, nul_not_mem_copied, false_or]
  decide

/-! ### The names -/

/-- The field name of a header line, in lower case. -/
def fieldName (l : List UInt8) : List UInt8 := (l.takeWhile (· ≠ 58)).map toLower

/-- The line has one of the names that the proxy writes itself. -/
def IsOwn (l : List UInt8) : Prop :=
  fieldName l ∈ [bytes "host", bytes "user-agent", bytes "connection", bytes "proxy-connection"]

instance (l : List UInt8) : Decidable (IsOwn l) := inferInstanceAs (Decidable (_ ∈ _))

theorem strncasecmp_of_fieldName (hl : fieldName l = t.map toLower) (h0 : 0 ∉ t.map toLower) :
    strncasecmp l t = true := by
  obtain ⟨r, hr⟩ := List.takeWhile_prefix (fun c : UInt8 => decide (c ≠ 58)) (l := l)
  have hz : ∀ c ∈ l.takeWhile (· ≠ 58), decide (c ≠ 0) = true := fun c hc =>
    decide_eq_true fun hc0 => h0 <| hl ▸ List.mem_map.2 ⟨c, hc, by rw [hc0]; rfl⟩
  have hlen : (l.takeWhile (· ≠ 58)).length = t.length := by
    simpa [fieldName] using congrArg List.length hl
  have htake : (cstr l).take t.length = l.takeWhile (· ≠ 58) := by
    rw [← hlen]
    conv_lhs => rw [cstr, ← hr, List.takeWhile_append_of_pos hz]
    exact List.take_left' (by rw [hr])
  rw [strncasecmp, htake]
  exact decide_eq_true hl

/-- The proxy's own names are left out. -/
theorem dropsLine_of_isOwn (h : IsOwn l) : dropsLine l = true := by
  simp only [IsOwn, List.mem_cons, List.not_mem_nil, or_false] at h
  simp only [dropsLine, Bool.or_eq_true]
  rcases h with h | h | h | h
  · exact .inl (.inl (.inl (strncasecmp_of_fieldName h (by decide))))
  · exact .inl (.inl (.inr (strncasecmp_of_fieldName h (by decide))))
  · exact .inl (.inr (strncasecmp_of_fieldName h (by decide)))
  · exact .inr (strncasecmp_of_fieldName h (by decide))

/-- The client's lines that are to be passed on. -/
def headers (lines : List (List UInt8)) : List UInt8 := (lines.filter (¬IsOwn ·)).flatten

theorem headers_own (ls : List (List UInt8)) (h : IsOwn l) : headers (l :: ls) = headers ls := by
  simp [headers, h]

theorem headers_other (ls : List (List UInt8)) (h : ¬IsOwn l) :
    headers (l :: ls) = l ++ headers ls := by
  simp [headers, h]

theorem passedOn_drop (ls : List (List UInt8)) (h : dropsLine l = true) :
    passedOn (l :: ls) = passedOn ls := by
  simp [passedOn, h]

theorem passedOn_keep (ls : List (List UInt8)) (h : dropsLine l = false) :
    passedOn (l :: ls) = cstr l ++ passedOn ls := by
  simp [passedOn, h]

/-- No more is passed on than should be. -/
theorem length_passedOn_le (lines : List (List UInt8)) :
    (passedOn lines).length ≤ (headers lines).length := by
  induction lines with
  | nil => exact le_rfl
  | cons l lines ih =>
    by_cases how : IsOwn l
    · rw [headers_own _ how, passedOn_drop _ (dropsLine_of_isOwn how)]
      exact ih
    · rw [headers_other _ how, List.length_append]
      cases hdrop : dropsLine l with
      | true =>
        rw [passedOn_drop _ hdrop]
        omega
      | false =>
        have := length_cstr_le l
        rw [passedOn_keep _ hdrop, List.length_append]
        omega

/-- **The lines passed on are those that should be**, exactly if none of these is left out
or cut at a NUL. -/
theorem passedOn_eq_iff (hne : ∀ l ∈ lines, l ≠ []) :
    passedOn lines = headers lines ↔ ∀ l ∈ lines, ¬IsOwn l → dropsLine l = false ∧ 0 ∉ l := by
  induction lines with
  | nil => simp [passedOn, headers]
  | cons l lines ih =>
    obtain ⟨hl, hls⟩ := List.forall_mem_cons.1 hne
    have hle := length_passedOn_le lines
    rw [List.forall_mem_cons, ← ih hls]
    by_cases how : IsOwn l
    · simp [headers_own _ how, passedOn_drop _ (dropsLine_of_isOwn how), how]
    · rw [headers_other _ how]
      cases hdrop : dropsLine l with
      | true =>
        -- the line is missing, and nothing else makes up for it
        rw [passedOn_drop _ hdrop]
        refine iff_of_false (fun he => ?_) (by simp [how])
        have hpos := List.length_pos_iff.2 hl
        have hlen := congrArg List.length he
        rw [List.length_append] at hlen
        omega
      | false =>
        rw [passedOn_keep _ hdrop]
        by_cases hz : 0 ∈ l
        · refine iff_of_false (fun he => ?_) (by simp [how, hz])
          have hlen := congrArg List.length he
          have hcstr := length_cstr_le l
          rw [List.length_append, List.length_append] at hlen
          refine cstr_eq_self_iff.1 ?_ hz
          have hpre : cstr l <+: l := List.takeWhile_prefix _
          exact hpre.eq_of_length (by omega)
        · simp [cstr_eq_self_iff.2 hz, how, hz]

/-- What `construct_message` is to make of a request. -/
def request (u : URLStorage) (lines : List (List UInt8)) : List UInt8 :=
  (proxyLines u).flatten ++ headers lines ++ bytes "\r\n"

/-- **The message is the request**, exactly if no line with another name begins with one
of the four names or has a NUL in it. -/
theorem headers_iff (message : ℤ → UInt8) (body : List UInt8) (hf : 0 ∉ u.filename)
    (hh : 0 ∉ u.hostname) (hl : ∀ l ∈ lines, IsLine l ∧ l ≠ bytes "\r\n")
    (hfit : (request u lines).length < MAXLINE) :
    (constructMessage message u (lines.flatten ++ (bytes "\r\n" ++ body))).string =
        request u lines ↔
      ∀ l ∈ lines, ¬IsOwn l → dropsLine l = false ∧ 0 ∉ l := by
  have hle := length_passedOn_le lines
  have hne : ∀ l ∈ lines, l ≠ [] := by
    rintro l hm rfl
    obtain ⟨⟨-, t, ht, -⟩, -⟩ := hl _ hm
    exact absurd ht (by simp)
  rw [request, List.length_append, List.length_append] at hfit
  rw [string_constructMessage message body hf hh hl (by
    rw [List.length_append, List.length_append]
    omega), request, ← passedOn_eq_iff hne, List.append_left_inj, List.append_right_inj]

theorem headers_iff_accept :
    (constructMessage (fun _ => 0) ⟨bytes "h", bytes "80", bytes "/"⟩
      ([bytes "Accept: a\r\n", bytes "HOST: b\r\n"].flatten ++ (bytes "\r\n" ++ []))).string =
        request ⟨bytes "h", bytes "80", bytes "/"⟩ [bytes "Accept: a\r\n", bytes "HOST: b\r\n"] ↔
      ∀ l ∈ [bytes "Accept: a\r\n", bytes "HOST: b\r\n"], ¬IsOwn l →
        dropsLine l = false ∧ 0 ∉ l := by
  refine headers_iff _ _ (by decide) (by decide) ?_ (by decide +kernel)
  intro l hl
  simp only [List.mem_cons, List.not_mem_nil, or_false] at hl
  rcases hl with rfl | rfl
  · exact ⟨⟨by decide, bytes "Accept: a\r", rfl, by decide⟩, by decide⟩
  · exact ⟨⟨by decide, bytes "HOST: b\r", rfl, by decide⟩, by decide⟩

/-- A header `Hostname` is not passed on. -/
theorem hostname_dropped :
    (constructMessage (fun _ => 0) ⟨bytes "h", bytes "80", bytes "/"⟩
      ([bytes "Hostname: b\r\n"].flatten ++ (bytes "\r\n" ++ []))).string ≠
        request ⟨bytes "h", bytes "80", bytes "/"⟩ [bytes "Hostname: b\r\n"] := by
  rw [string_constructMessage _ _ (by decide) (by decide) ?_ (by decide +kernel)]
  · decide +kernel
  · intro l hl
    obtain rfl := List.mem_singleton.1 hl
    exact ⟨⟨by decide, bytes "Hostname: b\r", rfl, by decide⟩, by decide⟩

end Proxy
end CsappLabs
