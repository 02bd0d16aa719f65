/-
# The Tiny server

`doit` of `proxylab/tiny/tiny.c`.  The server reads a request line and then lines up to
the blank one, and takes the file name from the uri alone.  At the end of the stream
`Rio_readlineb` leaves the array as it was, so without a blank line
`read_requesthdrs` compares the same line for ever, which is no result here.

`files` is what `stat` and the programs under `cgi-bin` do.  A file of no bytes cannot be
mapped, and `Mmap` ends the server then.
-/

import CsappLabs.Proxy.Headers

namespace CsappLabs
namespace Tiny

open Lib.CInt Lib.Scanf Proxy

/-- The strings that `sscanf(buf, "%s %s %s", …)` fills. -/
structure RequestLine where
  method : List UInt8
  uri : List UInt8
  version : List UInt8
  deriving DecidableEq

/-- `sscanf(buf, "%s %s %s", method, uri, version)`; what is not reached keeps its string. -/
def scanRequest (old : RequestLine) (buf : List UInt8) : RequestLine :=
  match word buf with
  | (none, _) => old
  | (some method, s) =>
    match word s with
    | (none, _) => { old with method := method }
    | (some uri, s) => ⟨method, uri, (word s).1.getD old.version⟩

/-- `!strcasecmp(s, t)` -/
def strcasecmp (s t : List UInt8) : Bool := s.map toLower = t.map toLower

/-- What `stat` says of a file, its bytes, and what it prints as a program, given
`QUERY_STRING`. -/
structure File where
  content : List UInt8
  regular : Bool
  readable : Bool
  executable : Bool
  run : List UInt8 → List UInt8

/-- What has been sent to the client, and whether the server goes on. -/
structure Reply where
  sent : List UInt8
  alive : Bool
  deriving DecidableEq

def clienterror (cause errnum shortmsg longmsg : List UInt8) : List UInt8 :=
  bytes "HTTP/1.0 " ++ errnum ++ bytes " " ++ shortmsg ++ bytes "\r\n" ++
    bytes "Content-type: text/html\r\n\r\n" ++
    bytes "<html><title>Tiny Error</title>" ++
    bytes "<body bgcolor=ffffff>\r\n" ++
    (errnum ++ bytes ": " ++ shortmsg ++ bytes "\r\n") ++
    (bytes "<p>" ++ longmsg ++ bytes ": " ++ cause ++ bytes "\r\n") ++
    bytes "<hr><em>The Tiny Web server</em>\r\n"

/-- `read_requesthdrs`, where `buf` has the line read last and `rp` what follows. -/
def readRequesthdrs : ℕ → List UInt8 → List UInt8 → Option (List UInt8)
  | _, buf, [] => if cstr buf = bytes "\r\n" then some [] else none
  | 0, _, _ :: _ => none
  | n + 1, _, c :: rest =>
    let line := readlineb (MAXLINE - 1) (c :: rest)
    if cstr line.1 = bytes "\r\n" then some line.2 else readRequesthdrs n line.1 line.2

/-- `parse_uri`: whether the content is static, `filename`, and `cgiargs`. -/
def parseUri (uri : List UInt8) : Bool × List UInt8 × List UInt8 :=
  if (strstr (bytes "cgi-bin") uri).isNone then
    (true, bytes "." ++ uri ++ (if uri.getLast? = some 47 then bytes "home.html" else []), [])
  else
    match index uri 63 with
    | some ptr => (false, bytes "." ++ before uri ptr, ptr.drop 1)
    | none => (false, bytes "." ++ uri, [])

def getFiletype (filename : List UInt8) : List UInt8 :=
  if (strstr (bytes ".html") filename).isSome then bytes "text/html"
  else if (strstr (bytes ".gif") filename).isSome then bytes "image/gif"
  else if (strstr (bytes ".png") filename).isSome then bytes "image/png"
  else if (strstr (bytes ".jpg") filename).isSome then bytes "image/jpeg"
  else bytes "text/plain"

/-- `serve_static`; the size of the file becomes an `int`. -/
def serveStatic (filename content : List UInt8) : Reply :=
  let filesize := int32 content.length
  let header := bytes "HTTP/1.0 200 OK\r\n" ++ bytes "Server: Tiny Web Server\r\n" ++
    (bytes "Content-length: " ++ decimalInt filesize ++ bytes "\r\n") ++
    (bytes "Content-type: " ++ getFiletype filename ++ bytes "\r\n\r\n")
  if 0 < filesize then ⟨header ++ content.take filesize.toNat, true⟩ else ⟨header, false⟩

/-- `serve_dynamic` -/
def serveDynamic (f : File) (cgiargs : List UInt8) : Reply :=
  ⟨bytes "HTTP/1.0 200 OK\r\n" ++ bytes "Server: Tiny Web Server\r\n" ++ f.run cgiargs, true⟩

/-- `doit` from `parse_uri` on. -/
def serve (files : List UInt8 → Option File) (uri : List UInt8) : Reply :=
  let (isStatic, filename, cgiargs) := parseUri uri
  match files filename with
  | none =>
    ⟨clienterror filename (bytes "404") (bytes "Not found") (bytes "Tiny couldn't find this file"),
      true⟩
  | some f =>
    if isStatic then
      if !f.regular || !f.readable then
        ⟨clienterror filename (bytes "403") (bytes "Forbidden")
          (bytes "Tiny couldn't read the file"), true⟩
      else serveStatic filename f.content
    else if !f.regular || !f.executable then
      ⟨clienterror filename (bytes "403") (bytes "Forbidden")
        (bytes "Tiny couldn't run the CGI program"), true⟩
    else serveDynamic f cgiargs

/-- `doit`; `old` and `buf` are what the arrays of `doit` and `read_requesthdrs` held, and `rp`
is what the client sends. -/
def doit (files : List UInt8 → Option File) (old : RequestLine) (buf rp : List UInt8) :
    Option Reply :=
  if rp = [] then some ⟨[], true⟩
  else
    let line := readlineb (MAXLINE - 1) rp
    let req := scanRequest old (cstr line.1)
    if !strcasecmp req.method (bytes "GET") then
      some ⟨clienterror req.method (bytes "501") (bytes "Not Implemented")
        (bytes "Tiny does not implement this method"), true⟩
    else (readRequesthdrs line.2.length buf line.2).map fun _ => serve files req.uri

variable {files : List UInt8 → Option File} {old : RequestLine} {buf w rest body : List UInt8}
  {method uri version : List UInt8} {lines : List (List UInt8)} {n : ℕ}

/-! ### Requests -/

/-- Bytes that `%s` takes as one word. -/
def Word (w : List UInt8) : Prop := w ≠ [] ∧ ∀ c ∈ w, isSpace c = false ∧ c ≠ 0

instance (w : List UInt8) : Decidable (Word w) :=
  decidable_of_iff (w ≠ [] ∧ w.all (fun c => !isSpace c && c != 0) = true) (by simp [Word])

/-- A header line, with its newline, as it is sent. -/
def IsHeader (l : List UInt8) : Prop := IsLine l ∧ 0 ∉ l ∧ l ≠ bytes "\r\n"

/-- The first line of a request. -/
def requestLine (method uri version : List UInt8) : List UInt8 :=
  method ++ 32 :: (uri ++ 32 :: (version ++ bytes "\r\n"))

theorem Word.nul_not_mem (hw : Word w) : 0 ∉ w := fun h => (hw.2 0 h).2 rfl

theorem Word.newline_not_mem (hw : Word w) : 10 ∉ w := fun h =>
  absurd (hw.2 10 h).1 (by decide)

theorem Word.word_append (hw : Word w) {c : UInt8} (hc : isSpace c = true) (rest : List UInt8) :
    word (w ++ c :: rest) = (some w, c :: rest) :=
  Lib.Scanf.word_append hw.1 (fun d hd => (hw.2 d hd).1) hc rest

/-- The words of a request line are found. -/
theorem scanRequest_line (hm : Word method) (hu : Word uri) (hv : Word version) :
    scanRequest old (requestLine method uri version) = ⟨method, uri, version⟩ := by
  have hspace : isSpace 32 = true := rfl
  have hversion : word (version ++ bytes "\r\n") = (some version, bytes "\r\n") :=
    hv.word_append rfl [10]
  rw [scanRequest, requestLine, hm.word_append hspace]
  simp only [word_space hspace, hu.word_append hspace, hversion, Option.getD_some]

/-- It has one newline, at its end, and no NUL. -/
theorem requestLine_eq (hm : Word method) (hu : Word uri) (hv : Word version) :
    ∃ t, requestLine method uri version = t ++ [10] ∧ 10 ∉ t ∧ 0 ∉ t := by
  refine ⟨method ++ 32 :: (uri ++ 32 :: (version ++ [13])), ?_, ?_, ?_⟩
  · simp [requestLine, show bytes "\r\n" = [13, 10] from rfl]
  · simp [hm.newline_not_mem, hu.newline_not_mem, hv.newline_not_mem]
  · simp [hm.nul_not_mem, hu.nul_not_mem, hv.nul_not_mem]

/-- It is what `Rio_readlineb` returns first. -/
theorem readlineb_requestLine (hm : Word method) (hu : Word uri) (hv : Word version)
    (hlen : (requestLine method uri version).length < MAXLINE) (rest : List UInt8) :
    readlineb (MAXLINE - 1) (requestLine method uri version ++ rest) =
        (requestLine method uri version, rest) ∧
      cstr (requestLine method uri version) = requestLine method uri version := by
  obtain ⟨t, ht, hnl, hz⟩ := requestLine_eq hm hu hv
  rw [ht, List.length_append, List.length_singleton] at hlen
  rw [ht]
  refine ⟨?_, cstr_eq_self_iff.2 (by simp [hz])⟩
  rw [List.append_assoc]
  exact readlineb_line rest hnl (by omega)

/-! ### Headers -/

/-- The lines are read up to the blank one. -/
theorem readRequesthdrs_lines (hl : ∀ l ∈ lines, IsHeader l) (body : List UInt8)
    (hn : lines.length < n) :
    readRequesthdrs n buf (lines.flatten ++ (bytes "\r\n" ++ body)) = some body := by
  induction lines generalizing n buf with
  | nil =>
    obtain ⟨n, rfl⟩ := Nat.exists_eq_add_one_of_ne_zero (Nat.ne_zero_of_lt hn)
    rfl
  | cons l lines ih =>
    obtain ⟨⟨⟨hlen, t, rfl, ht⟩, hz, hne⟩, hls⟩ := List.forall_mem_cons.1 hl
    obtain ⟨n, rfl⟩ := Nat.exists_eq_add_one_of_ne_zero (Nat.ne_zero_of_lt hn)
    rw [List.length_append, List.length_singleton] at hlen
    have hread := readlineb_line (lines.flatten ++ (bytes "\r\n" ++ body)) ht
      (Nat.lt_sub_of_add_lt hlen : t.length < MAXLINE - 1)
    have hstream : ((t ++ [10]) :: lines).flatten ++ (bytes "\r\n" ++ body) =
        t ++ 10 :: (lines.flatten ++ (bytes "\r\n" ++ body)) := by simp
    obtain ⟨c, r, hcr⟩ :=
      List.exists_cons_of_ne_nil (l := t ++ 10 :: (lines.flatten ++ (bytes "\r\n" ++ body)))
        (by simp)
    rw [hstream, hcr, readRequesthdrs, ← hcr, hread]
    simp only [cstr_eq_self_iff.2 hz, if_neg hne]
    exact ih hls (Nat.lt_of_succ_lt_succ hn)

theorem length_le_flatten (hl : ∀ l ∈ lines, IsHeader l) : lines.length ≤ lines.flatten.length := by
  rw [List.length_flatten, ← List.length_map List.length]
  refine List.length_le_sum_of_one_le _ fun k hk => ?_
  obtain ⟨l, hm, rfl⟩ := List.mem_map.1 hk
  obtain ⟨⟨-, t, rfl, -⟩, -⟩ := hl l hm
  simp

/-- **A request is answered** by what the server has under its uri. -/
theorem doit_get (hget : strcasecmp method (bytes "GET") = true) (hm : Word method) (hu : Word uri)
    (hv : Word version) (hlen : (requestLine method uri version).length < MAXLINE)
    (hl : ∀ l ∈ lines, IsHeader l) (body : List UInt8) :
    doit files old buf
        (requestLine method uri version ++ (lines.flatten ++ (bytes "\r\n" ++ body))) =
      some (serve files uri) := by
  obtain ⟨hread, hcstr⟩ := readlineb_requestLine hm hu hv hlen
    (lines.flatten ++ (bytes "\r\n" ++ body))
  have hne : requestLine method uri version ++ (lines.flatten ++ (bytes "\r\n" ++ body)) ≠ [] := by
    simp [requestLine]
  have hcount : lines.length < (lines.flatten ++ (bytes "\r\n" ++ body)).length := by
    rw [List.length_append, List.length_append, show (bytes "\r\n").length = 2 from rfl]
    exact Nat.lt_of_le_of_lt (length_le_flatten hl) (by omega)
  rw [doit, if_neg hne]
  simp only [hread, hcstr, scanRequest_line hm hu hv, hget, readRequesthdrs_lines hl body hcount]
  rfl

end Tiny
end CsappLabs
