/-
# Parsing the url

`parse_url` of `proxylab/proxy.c`.  A string is the list of its bytes in front of the
terminating NUL, and a pointer into a string is the rest of the string from there on, so
that a NUL stored at a pointer leaves the string `before` it.  A null pointer that is
read gives no result.

The port is what follows the first `:` behind the `//`, so without a port this must not
be a `:` of the path (`parseUrl_iff`).
-/

import CsappLabs.Lib.Scanf

namespace CsappLabs
namespace Proxy

open Lib.Scanf

/-- `URLStorage`; its arrays hold strings. -/
structure URLStorage where
  hostname : List UInt8
  port : List UInt8
  filename : List UInt8
  deriving DecidableEq

/-- `strstr(s, t)` -/
def strstr (t : List UInt8) : List UInt8 → Option (List UInt8)
  | [] => if t = [] then some [] else none
  | c :: s => if t <+: c :: s then some (c :: s) else strstr t s

/-- `index(s, c)` -/
def index (s : List UInt8) (c : UInt8) : Option (List UInt8) :=
  if c ∈ s then some (s.dropWhile (· ≠ c)) else none

/-- The string `s` once a NUL is stored at its rest `u`. -/
def before (s u : List UInt8) : List UInt8 := s.take (s.length - u.length)

/-- `parse_url`; the storage and `portNum` are not initialised. -/
def parseUrl (urlStorage : URLStorage) (portNum : ℤ) (url : List UInt8) : Option URLStorage :=
  match strstr (bytes "//") url with
  | none =>
    (index url 47).map fun idx =>
      { urlStorage with filename := urlStorage.filename ++ idx, port := bytes "80" }
  | some ptr =>
    let host := ptr.drop 2
    match index host 58 with
    | some port =>
      -- `sscanf(port + 1, "%d%s", …)` goes on to the word if there is a number
      let number := integer 10 (port.drop 1)
      some {
        hostname := before host port
        port := decimalInt ((number.1.map toInt).getD portNum)
        filename := (number.1.bind fun _ => (word number.2).1).getD urlStorage.filename }
    | none =>
      (index host 47).map fun idx => {
        hostname := before host idx
        port := bytes "80"
        filename := (word idx).1.getD urlStorage.filename }

/-- `http://`, a host, maybe a port, and a path. -/
def composeUrl (host : List UInt8) (port : Option ℕ) (path : List UInt8) : List UInt8 :=
  bytes "http://" ++ (host ++ (port.elim [] (fun p => 58 :: decimal p) ++ path))

variable {host path s t : List UInt8} {c : UInt8} {portNum : ℤ} {urlStorage : URLStorage} {p : ℕ}

/-! ### Searches -/

theorem index_append (h : c ∉ s) : index (s ++ c :: t) c = some (c :: t) := by
  have hs : ∀ d ∈ s, decide (d ≠ c) = true := fun d hd =>
    decide_eq_true fun he => h (he ▸ hd)
  rw [index, if_pos (by simp), List.dropWhile_append_of_pos hs,
    List.dropWhile_cons_of_neg (by simp)]

theorem index_eq_none (h : c ∉ s) : index s c = none := if_neg h

theorem before_append (s t : List UInt8) : before (s ++ t) t = s := by
  rw [before, List.length_append, Nat.add_sub_cancel, List.take_left]

/-! ### Urls -/

/-- What the parts of a url may be. -/
structure UrlParts (host : List UInt8) (port : Option ℕ) (path : List UInt8) : Prop where
  host_ne : host ≠ []
  host_bytes : ∀ c ∈ host, c ≠ 47 ∧ c ≠ 58 ∧ isSpace c = false
  port : ∀ p ∈ port, 1 ≤ p ∧ p ≤ 65535
  path_slash : path.head? = some 47
  path_bytes : ∀ c ∈ path, isSpace c = false

theorem UrlParts.path_cons {port : Option ℕ} (h : UrlParts host port path) :
    ∃ t, path = 47 :: t := by
  have hne : path ≠ [] := fun hn => by simpa [hn] using h.path_slash
  obtain ⟨c, t, rfl⟩ := List.exists_cons_of_ne_nil hne
  exact ⟨t, congrArg (· :: t) (Option.some.inj h.path_slash)⟩

theorem UrlParts.slash_not_mem {port : Option ℕ} (h : UrlParts host port path) : 47 ∉ host :=
  fun hm => (h.host_bytes _ hm).1 rfl

theorem UrlParts.colon_not_mem {port : Option ℕ} (h : UrlParts host port path) : 58 ∉ host :=
  fun hm => (h.host_bytes _ hm).2.1 rfl

/-- Behind the first `//`, the parts follow. -/
theorem parseUrl_compose (port : Option ℕ) : parseUrl urlStorage portNum (composeUrl host port path) =
    let rest := host ++ (port.elim [] (fun p => 58 :: decimal p) ++ path)
    match index rest 58 with
    | some u =>
      let number := integer 10 (u.drop 1)
      some {
        hostname := before rest u
        port := decimalInt ((number.1.map toInt).getD portNum)
        filename := (number.1.bind fun _ => (word number.2).1).getD urlStorage.filename }
    | none =>
      (index rest 47).map fun idx => {
        hostname := before rest idx
        port := bytes "80"
        filename := (word idx).1.getD urlStorage.filename } := by
  have hfind : strstr (bytes "//") (composeUrl host port path) =
      some (47 :: 47 :: (host ++ (port.elim [] (fun p => 58 :: decimal p) ++ path))) := by
    rw [composeUrl, show bytes "http://" = [104, 116, 116, 112, 58, 47, 47] from rfl,
      show bytes "//" = [47, 47] from rfl]
    simp [strstr]
  rw [parseUrl, hfind]
  rfl

/-- With a port, the number is the port and the word behind it the path. -/
theorem parseUrl_port (h : UrlParts host (some p) path) :
    parseUrl urlStorage portNum (composeUrl host (some p) path) = some ⟨host, decimal p, path⟩ := by
  obtain ⟨t, rfl⟩ := h.path_cons
  obtain ⟨-, hp⟩ := h.port p rfl
  have hint : integer 10 (decimal p ++ 47 :: t) = (some (p : ℤ), 47 :: t) :=
    integer_decimal p fun c hc => by
      obtain rfl := Option.some.inj hc
      rfl
  have hto : toInt (p : ℤ) = p := by
    unfold toInt Lib.CInt.int32
    omega
  have hdec : decimalInt (p : ℤ) = decimal p := by
    rw [decimalInt, if_neg (by omega), Int.natAbs_natCast]
  rw [parseUrl_compose]
  simp only [Option.elim_some, List.cons_append, index_append h.colon_not_mem, List.drop_succ_cons,
    List.drop_zero, hint, Option.map_some, Option.getD_some, hto, hdec, before_append,
    Option.bind_some, word_eq (List.cons_ne_nil _ _) h.path_bytes]

/-- Without one, and without a `:` in the path, the path begins at the first `/`. -/
theorem parseUrl_no_colon (h : UrlParts host none path) (hc : 58 ∉ path) :
    parseUrl urlStorage portNum (composeUrl host none path) = some ⟨host, bytes "80", path⟩ := by
  obtain ⟨t, rfl⟩ := h.path_cons
  have hnone : index (host ++ 47 :: t) 58 = none :=
    index_eq_none fun hm => (List.mem_append.1 hm).elim h.colon_not_mem hc
  rw [parseUrl_compose]
  simp only [Option.elim_none, List.nil_append, hnone, index_append h.slash_not_mem, Option.map_some,
    before_append, word_eq (List.cons_ne_nil _ _) h.path_bytes, Option.getD_some]

/-- A `:` of the path ends the host name, which has a part of the path then. -/
theorem parseUrl_colon (h : UrlParts host none path) (hc : 58 ∈ path) {u : URLStorage}
    (hu : parseUrl urlStorage portNum (composeUrl host none path) = some u) : u.hostname ≠ host := by
  obtain ⟨v, t, rfl, hv⟩ := List.eq_append_cons_of_mem hc
  have hne : v ≠ [] := by
    rintro rfl
    exact absurd h.path_slash (by simp)
  have hnot : 58 ∉ host ++ v := fun hm => (List.mem_append.1 hm).elim h.colon_not_mem hv
  rw [parseUrl_compose] at hu
  simp only [Option.elim_none, List.nil_append, ← List.append_assoc, index_append hnot,
    before_append] at hu
  obtain rfl := Option.some.inj hu
  simpa using hne

/-- **Parsing inverts composing** exactly if there is a port or no `:` in the path. -/
theorem parseUrl_iff {port : Option ℕ} (h : UrlParts host port path) (urlStorage : URLStorage)
    (portNum : ℤ) :
    parseUrl urlStorage portNum (composeUrl host port path) =
        some ⟨host, port.elim (bytes "80") decimal, path⟩ ↔
      port.isSome ∨ 58 ∉ path := by
  cases port with
  | some p => simp [parseUrl_port h]
  | none =>
    by_cases hc : 58 ∈ path
    · simp only [Option.elim_none, Option.isSome_none, Bool.false_eq_true, false_or, hc,
        not_true_eq_false, iff_false]
      exact fun hu => parseUrl_colon h hc hu rfl
    · simp [parseUrl_no_colon h hc, hc]

theorem parseUrl_iff_port :
    parseUrl ⟨[], [], []⟩ 0 (composeUrl (bytes "h") (some 8080) (bytes "/a:1")) =
        some ⟨bytes "h", bytes "8080", bytes "/a:1"⟩ ↔ (some 8080).isSome ∨ 58 ∉ bytes "/a:1" :=
  parseUrl_iff ⟨by decide, by decide +kernel, by decide, by decide, by decide +kernel⟩ _ _

/-- In `http://h/a:1` the host name becomes `h/a`. -/
theorem parseUrl_colon_path : UrlParts (bytes "h") none (bytes "/a:1") ∧
    parseUrl ⟨[], [], []⟩ 0 (composeUrl (bytes "h") none (bytes "/a:1")) =
      some ⟨bytes "h/a", bytes "1", []⟩ ∧
    parseUrl ⟨[], [], []⟩ 0 (composeUrl (bytes "h") none (bytes "/a:1")) ≠
      some ⟨bytes "h", bytes "80", bytes "/a:1"⟩ :=
  ⟨⟨by decide, by decide +kernel, by decide, by decide, by decide +kernel⟩, by decide, by decide⟩

end Proxy
end CsappLabs
