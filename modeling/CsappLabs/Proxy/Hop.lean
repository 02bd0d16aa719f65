/-
# A request through the proxy

`doit` of `proxylab/proxy.c` up to the connection to the server, and the Tiny server behind
it.  The proxy takes the host and the port out of the url, and sends a request line of its
own, its own header lines and those of the client that it does not replace.

The server looks at the uri and at the end of the header lines only, so it answers as it
would without the proxy (`request_through_proxy`).
-/

import CsappLabs.Proxy.Tiny

namespace CsappLabs
namespace Proxy

open Lib.Scanf Tiny

/-- What `doit` does with a request that the cache does not have. -/
inductive Action
  /-- `raise_error` with the code 501 -/
  | refuse (method : List UInt8)
  /-- `Open_clientfd(hostname, port)`, and the message for the server -/
  | connect (urlStorage : URLStorage) (message : List UInt8)
  deriving DecidableEq

/-- `doit` up to the connection, on a miss.  `old`, `buf`, `urlStorage`, `portNum` and `message`
are not initialised; `rp` is what the client sends. -/
def contact (old : RequestLine) (buf : List UInt8) (urlStorage : URLStorage) (portNum : ℤ)
    (message : ℤ → UInt8) (rp : List UInt8) : Option Action :=
  let line := readlineb (MAXLINE - 1) rp
  let req := scanRequest old (cstr (if rp = [] then buf else line.1))
  if !strcasecmp req.method (bytes "GET") then some (.refuse req.method)
  else (parseUrl urlStorage portNum req.uri).map fun u =>
    .connect u (constructMessage message u line.2).string

variable {host path method version : List UInt8} {port : Option ℕ} {lines : List (List UInt8)}
  {u : URLStorage}

/-- What `parse_url` is to find. -/
def urlParts (host : List UInt8) (port : Option ℕ) (path : List UInt8) : URLStorage :=
  ⟨host, port.elim (bytes "80") decimal, path⟩

/-- A request that a client makes of the proxy, and that fits its arrays. -/
structure GetRequest (method host : List UInt8) (port : Option ℕ) (path version : List UInt8)
    (lines : List (List UInt8)) : Prop where
  get : strcasecmp method (bytes "GET") = true
  word_method : Word method
  word_version : Word version
  parts : UrlParts host port path
  colon : port.isSome ∨ 58 ∉ path
  plain : 0 ∉ host ∧ 0 ∉ path
  short : (requestLine method (composeUrl host port path) version).length < MAXLINE
  headers : ∀ l ∈ lines, IsHeader l
  fits : ((proxyLines (urlParts host port path)).flatten ++ passedOn lines ++
    bytes "\r\n").length < MAXLINE

/-- The header lines that the server gets. -/
def serverLines (u : URLStorage) (lines : List (List UInt8)) : List (List UInt8) :=
  (proxyLines u).tail ++ lines.filter (!dropsLine ·)

theorem word_path (h : UrlParts host port path) (hz : 0 ∉ path) : Word path := by
  obtain ⟨t, ht⟩ := h.path_cons
  exact ⟨by simp [ht], fun c hc => ⟨h.path_bytes c hc, fun h0 => hz (h0 ▸ hc)⟩⟩

theorem word_decimal (p : ℕ) : Word (decimal p) := by
  refine ⟨decimal_ne_nil p, fun c hc => ?_⟩
  have hd := isDigit_of_mem_decimal hc
  refine ⟨(ne_of_isDigit hd).1, ?_⟩
  rintro rfl
  exact absurd hd (by decide)

/-- A url is one word. -/
theorem word_composeUrl (h : UrlParts host port path) (hz : 0 ∉ host ∧ 0 ∉ path) :
    Word (composeUrl host port path) := by
  have hbytes : Word (bytes "http://") := by decide
  have hhost : ∀ c ∈ host, isSpace c = false ∧ c ≠ 0 := fun c hc =>
    ⟨(h.host_bytes c hc).2.2, fun h0 => hz.1 (h0 ▸ hc)⟩
  have hport : ∀ c ∈ port.elim [] (fun p => 58 :: decimal p), isSpace c = false ∧ c ≠ 0 := by
    cases port with
    | none => simp
    | some p => exact List.forall_mem_cons.2 ⟨by decide, (word_decimal p).2⟩
  have hpath := (word_path h hz.2).2
  refine ⟨by simp [composeUrl, bytes], fun c hc => ?_⟩
  simp only [composeUrl, List.mem_append] at hc
  rcases hc with hc | hc | hc | hc
  · exact hbytes.2 c hc
  · exact hhost c hc
  · exact hport c hc
  · exact hpath c hc

/-- The proxy finds the parts of the url. -/
theorem parseUrl_urlParts (h : GetRequest method host port path version lines)
    (urlStorage : URLStorage) (portNum : ℤ) :
    parseUrl urlStorage portNum (composeUrl host port path) = some (urlParts host port path) := by
  cases port with
  | none => exact parseUrl_no_colon h.parts (h.colon.resolve_left (by simp))
  | some p => exact parseUrl_port h.parts

/-- The first line of the message is a request line. -/
theorem proxyLines_flatten (u : URLStorage) : (proxyLines u).flatten =
    requestLine (bytes "GET") u.filename (bytes "HTTP/1.0") ++ (proxyLines u).tail.flatten := by
  have hget : bytes "GET " = bytes "GET" ++ [32] := rfl
  have hversion : bytes " HTTP/1.0\r\n" = 32 :: (bytes "HTTP/1.0" ++ bytes "\r\n") := rfl
  simp only [proxyLines, requestLine, List.tail_cons, List.flatten_cons, hget, hversion,
    List.append_assoc, List.cons_append, List.nil_append]

/-- What is passed on are whole lines. -/
theorem passedOn_eq (hl : ∀ l ∈ lines, IsHeader l) :
    passedOn lines = (lines.filter (!dropsLine ·)).flatten := by
  rw [passedOn, List.map_congr_left fun l hm =>
    cstr_eq_self_iff.2 (hl l (List.mem_of_mem_filter hm)).2.1, List.map_id']

/-- The lines of the proxy are header lines. -/
theorem isHeader_proxyLines (hh : ∀ c ∈ u.hostname, isSpace c = false ∧ c ≠ 0)
    (hfit : (proxyLines u).flatten.length < MAXLINE) : ∀ l ∈ (proxyLines u).tail, IsHeader l := by
  intro l hl
  have hlen : l.length < MAXLINE :=
    lt_of_le_of_lt (List.sublist_flatten_of_mem (List.mem_of_mem_tail hl)).length_le hfit
  suffices hend : (∃ t, l = t ++ [10] ∧ 10 ∉ t) ∧ 0 ∉ l ∧ l ≠ bytes "\r\n" from
    ⟨⟨hlen, hend.1⟩, hend.2⟩
  simp only [proxyLines, List.tail_cons, List.mem_cons, List.not_mem_nil, or_false] at hl
  rcases hl with rfl | rfl | rfl | rfl
  · have hnl : 10 ∉ u.hostname := fun hm => absurd (hh _ hm).1 (by decide)
    have hz : 0 ∉ u.hostname := fun hm => (hh _ hm).2 rfl
    have hname : 10 ∉ bytes "Host: " ∧ 0 ∉ bytes "Host: " := by decide
    have hend : bytes "\r\n" = [13, 10] := rfl
    refine ⟨⟨bytes "Host: " ++ u.hostname ++ [13], by simp [hend], ?_⟩, ?_, ?_⟩
    · simp [hnl, hname]
    · simp [hz, hname, hend]
    · simp [bytes]
  · exact ⟨⟨(bytes "User-Agent: " ++ user_agent_hdr).dropLast, by decide, by decide⟩, by decide,
      by decide⟩
  · exact ⟨⟨bytes "Connection: close\r", by decide, by decide⟩, by decide, by decide⟩
  · exact ⟨⟨bytes "Proxy-Connection: close\r", by decide, by decide⟩, by decide, by decide⟩

/-- **The proxy sends** a request for the path, with these header lines. -/
theorem contact_eq (h : GetRequest method host port path version lines) (old : RequestLine)
    (buf : List UInt8) (urlStorage : URLStorage) (portNum : ℤ) (message : ℤ → UInt8)
    (body : List UInt8) :
    contact old buf urlStorage portNum message
        (requestLine method (composeUrl host port path) version ++
          (lines.flatten ++ (bytes "\r\n" ++ body))) =
      some (.connect (urlParts host port path)
        (requestLine (bytes "GET") path (bytes "HTTP/1.0") ++
          ((serverLines (urlParts host port path) lines).flatten ++ (bytes "\r\n" ++ [])))) := by
  have hurl := word_composeUrl h.parts h.plain
  obtain ⟨hread, hcstr⟩ := readlineb_requestLine h.word_method hurl h.word_version h.short
    (lines.flatten ++ (bytes "\r\n" ++ body))
  have hne : requestLine method (composeUrl host port path) version ++
      (lines.flatten ++ (bytes "\r\n" ++ body)) ≠ [] := by simp [requestLine]
  have hstring := string_constructMessage (u := urlParts host port path) message body h.plain.2
    h.plain.1 (fun l hl => ⟨(h.headers l hl).1, (h.headers l hl).2.2⟩) h.fits
  rw [contact]
  simp only [hread, if_neg hne, hcstr, scanRequest_line h.word_method hurl h.word_version, h.get,
    parseUrl_urlParts h, Option.map_some, hstring, Bool.not_true, Bool.false_eq_true, if_false]
  rw [proxyLines_flatten, passedOn_eq h.headers, serverLines, List.flatten_append,
    List.append_nil, List.append_assoc, List.append_assoc, List.append_assoc]
  rfl

end Proxy
end CsappLabs
