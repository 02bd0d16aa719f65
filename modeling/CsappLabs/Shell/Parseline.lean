/-
# The words of a command line

`parseline` of `shelllab/tsh.c`, with the `fgets` of `main` that reads the line.
The command line is copied to a static array and cut up there: every delimiter
becomes a NUL, and `argv` gets the indices at which the arguments begin.
`parseline` is `none` where it would leave one of its two arrays.

`arguments` reads the same text byte by byte, with the argument begun so far in
hand, and never looks ahead.  `parseline_eq_some` says that `parseline` gives
just these arguments, provided that there are fewer than `MAXARGS` and that the
line is not empty; otherwise it writes in front of the static array or behind
`argv` (`parseline_nil`, `parseline_eq_none`).
-/

import CsappLabs.Lib.CString
import CsappLabs.Lib.Scanf

namespace CsappLabs
namespace Shell

open Lib

abbrev MAXLINE : ℕ := 1024

abbrev MAXARGS : ℕ := 128

/-- `while (*buf && (*buf == ' ')) buf++` -/
def skipSpaces (a : CharArray MAXLINE) (buf : ℕ) : Option ℕ :=
  a.scan (fun b => !(b != 0 && b == 32)) buf

/-- `buf` behind a quote and `delim` at the next one, or `delim` at the next space. -/
def findDelim (a : CharArray MAXLINE) (buf : ℕ) : Option (ℕ × Option ℕ) := do
  if (← a.read buf) = 39 then
    return (buf + 1, ← a.strchr (buf + 1) 39)
  else
    return (buf, ← a.strchr buf 32)

/-- What stands in front of the loop and at its end. -/
def nextArgument (a : CharArray MAXLINE) (buf : ℕ) : Option (ℕ × Option ℕ) := do
  findDelim a (← skipSpaces a buf)

/-- `while (delim)` and `argv[argc] = NULL`, with the cells that are left in `argv`:
the array and what is stored in these cells, `none` for `NULL`. -/
def parseLoop : ℕ → CharArray MAXLINE → ℕ → Option ℕ →
    Option (CharArray MAXLINE × List (Option ℕ))
  | 0, _, _, _ => none
  | _ + 1, a, _, none => some (a, [none])
  | room + 1, a, buf, some delim => do
    let a ← a.write delim 0
    let next ← nextArgument a (delim + 1)
    let r ← parseLoop room a next.1 next.2
    return (r.1, some buf :: r.2)

/-- The arguments from `buf` on. -/
def parseFrom (room : ℕ) (a : CharArray MAXLINE) (buf : ℕ) :
    Option (CharArray MAXLINE × List (Option ℕ)) := do
  let next ← nextArgument a buf
  parseLoop room a next.1 next.2

/-- The static array and `argv` after `parseline`, and what it returns. -/
structure Parsed where
  array : CharArray MAXLINE
  argv : List (Option ℕ)
  bg : Bool

/-- What follows the loop: `bg`, and `argv[--argc] = NULL` for the `&`. -/
def parseBg (array : CharArray MAXLINE) (argv : List (Option ℕ)) : Option Parsed :=
  let argc := argv.length - 1
  if argc = 0 then some ⟨array, argv, true⟩
  else do
    let last ← argv.getD (argc - 1) none
    if (← array.read last) = 38 then return ⟨array, argv.set (argc - 1) none, true⟩
    else return ⟨array, argv, false⟩

/-- `parseline` -/
def parseline (array cmdline : CharArray MAXLINE) : Option Parsed := do
  let array ← array.strcpy cmdline
  let len ← array.strlen
  let array ← array.write ((len : ℤ) - 1) 32
  let r ← parseFrom MAXARGS array 0
  parseBg r.1 r.2

/-- The line `main` reads; `none` where it meets the end of the input and exits. -/
def readLine (cmdline : CharArray MAXLINE) (input : List UInt8) :
    Option (CharArray MAXLINE × List UInt8) :=
  let r := cmdline.fgets input
  if r.2.2 then none else some (r.1, r.2.1)

/-- `argv` has these words and then `NULL`. -/
def Parsed.Yields (r : Parsed) (words : List (List UInt8)) : Prop :=
  words.map some ++ [none] <+: r.argv.map (Option.map r.array.string)

/-! ### The arguments of a text -/

/-- Between two arguments, or in one that goes on to the byte `delim`. -/
inductive Place where
  | between
  | word (delim : UInt8) (taken : List UInt8)

/-- The arguments that a text ends, read from some place on. -/
def arguments : Place → List UInt8 → List (List UInt8)
  | _, [] => []
  | .between, c :: s =>
    if c = 32 then arguments .between s
    else if c = 39 then arguments (.word 39 []) s
    else arguments (.word 32 [c]) s
  | .word delim w, c :: s =>
    if c = delim then w :: arguments .between s else arguments (.word delim (w ++ [c])) s

/-- The arguments of a command line, whose last byte is read as a space. -/
def lineArguments (s : List UInt8) : List (List UInt8) := arguments .between (s.dropLast ++ [32])

/-- The arguments without a last one that begins with `&`, and whether there was
one; a blank line counts as if there were. -/
def request (words : List (List UInt8)) : List (List UInt8) × Bool :=
  match words.getLast? with
  | none => ([], true)
  | some w => if w.head? = some 38 then (words.dropLast, true) else (words, false)

variable {s u w : List UInt8} {c q : UInt8}

theorem arguments_word (h : q ∉ u) :
    arguments (.word q w) (u ++ q :: s) = (w ++ u) :: arguments .between s := by
  induction u generalizing w with
  | nil => simp [arguments]
  | cons c u ih =>
    have hc : c ≠ q := fun e => h (by simp [e])
    rw [List.cons_append, arguments, if_neg hc, ih fun hu => h (List.mem_cons_of_mem _ hu)]
    simp

theorem arguments_word_of_not_mem (h : q ∉ u) : arguments (.word q w) u = [] := by
  induction u generalizing w with
  | nil => rfl
  | cons c u ih =>
    have hc : c ≠ q := fun e => h (by simp [e])
    rw [arguments, if_neg hc, ih fun hu => h (List.mem_cons_of_mem _ hu)]

theorem arguments_spaces (h : ∀ b ∈ u, b = 32) :
    arguments .between (u ++ s) = arguments .between s := by
  induction u with
  | nil => rfl
  | cons c u ih =>
    rw [List.cons_append, arguments, if_pos (h c (by simp)), ih fun b hb => h b (by simp [hb])]

theorem arguments_quote : arguments .between (39 :: s) = arguments (.word 39 []) s := rfl

/-- The first byte of an argument without quotes is one of its bytes. -/
theorem arguments_bare (h1 : c ≠ 32) (h2 : c ≠ 39) :
    arguments .between (c :: s) = arguments (.word 32 []) (c :: s) := by
  rw [arguments, if_neg h1, if_neg h2, arguments, if_neg h1, List.nil_append]

/-! ### The next argument in the array -/

variable {a : CharArray MAXLINE} {p t r : List UInt8}

theorem skipSpaces_eq (h : a.bytes = p ++ s ++ c :: r) (hs : ∀ b ∈ s, b = 32)
    (hc : c ≠ 32) : skipSpaces a p.length = some (p ++ s).length :=
  CharArray.scan_eq h (fun b hb => by simp [hs b hb]) (by simp [hc])

/-- A text up to the delimiter `q`, in the array and byte by byte. -/
theorem strchr_cases (h : a.bytes = p ++ u ++ 0 :: r) (h0 : 0 ∉ u) (hq : q ≠ 0) :
    (∃ w v, u = w ++ q :: v ∧ arguments (.word q []) u = w :: arguments .between v ∧
      a.strchr p.length q = some (some (p ++ w).length)) ∨
    (arguments (.word q []) u = [] ∧ a.strchr p.length q = some none) := by
  by_cases hmem : q ∈ u
  · obtain ⟨w, v, rfl, hw⟩ := List.eq_append_cons_of_mem hmem
    refine .inl ⟨w, v, rfl, arguments_word hw, CharArray.strchr_eq_some (r := v ++ 0 :: r) ?_
      (fun hw0 => h0 (List.mem_append_left _ hw0)) hw⟩
    simp [h]
  · exact .inr ⟨arguments_word_of_not_mem hmem, CharArray.strchr_eq_none h h0 hmem hq⟩

/-- `findDelim` at the first byte that is no space. -/
theorem findDelim_cases (h : a.bytes = p ++ t ++ 0 :: r) (h0 : 0 ∉ t)
    (hsp : t.head? ≠ some 32) :
    (∃ lead w q v, t = lead ++ w ++ q :: v ∧ arguments .between t = w :: arguments .between v ∧
      findDelim a p.length = some ((p ++ lead).length, some (p ++ lead ++ w).length)) ∨
    (arguments .between t = [] ∧ ∃ buf, findDelim a p.length = some (buf, none)) := by
  by_cases hquote : t.head? = some 39
  · obtain ⟨u, rfl⟩ := List.head?_eq_some_iff.1 hquote
    have hread : a.read p.length = some 39 :=
      CharArray.read_eq (r := u ++ 0 :: r) (by simp [h])
    have hfind : findDelim a p.length
        = (a.strchr (p ++ [39]).length 39).map ((p ++ [39]).length, ·) := by
      simp [findDelim, hread, Option.map_eq_bind]
    rcases strchr_cases (a := a) (p := p ++ [39]) (u := u) (q := 39) (r := r)
      (by simp [h]) (fun hu => h0 (List.mem_cons_of_mem _ hu)) (by decide)
      with ⟨w, v, rfl, harg, hchr⟩ | ⟨harg, hchr⟩
    · exact .inl ⟨[39], w, 39, v, rfl, arguments_quote.trans harg, by rw [hfind, hchr]; rfl⟩
    · exact .inr ⟨arguments_quote.trans harg, _, by rw [hfind, hchr]; rfl⟩
  · have hfind : findDelim a p.length = (a.strchr p.length 32).map (p.length, ·) := by
      obtain ⟨c, r', hc, hc39⟩ : ∃ c r', a.bytes = p ++ c :: r' ∧ c ≠ 39 := by
        cases t with
        | nil => exact ⟨0, r, by simpa using h, by decide⟩
        | cons c t => exact ⟨c, t ++ 0 :: r, by simpa using h, by simpa using hquote⟩
      simp [findDelim, CharArray.read_eq hc, hc39, Option.map_eq_bind]
    have harg : arguments .between t = arguments (.word 32 []) t := by
      cases t with
      | nil => rfl
      | cons c t => exact arguments_bare (by simpa using hsp) (by simpa using hquote)
    rcases strchr_cases h h0 (by decide : (32 : UInt8) ≠ 0)
      with ⟨w, v, rfl, hw, hchr⟩ | ⟨hw, hchr⟩
    · exact .inl ⟨[], w, 32, v, rfl, harg.trans hw, by rw [hfind, hchr, List.append_nil]; rfl⟩
    · exact .inr ⟨harg.trans hw, _, by rw [hfind, hchr]; rfl⟩

/-- **The next argument** is the first of the text that is left. -/
theorem nextArgument_cases (h : a.bytes = p ++ t ++ 0 :: r) (h0 : 0 ∉ t) :
    (∃ lead w q v, t = lead ++ w ++ q :: v ∧ arguments .between t = w :: arguments .between v ∧
      nextArgument a p.length = some ((p ++ lead).length, some (p ++ lead ++ w).length)) ∨
    (arguments .between t = [] ∧ ∃ buf, nextArgument a p.length = some (buf, none)) := by
  obtain ⟨sp, t', rfl, hall, hhead⟩ :
      ∃ sp t', t = sp ++ t' ∧ (∀ b ∈ sp, b = 32) ∧ t'.head? ≠ some 32 := by
    refine ⟨t.takeWhile (· = 32), t.dropWhile (· = 32),
      List.takeWhile_append_dropWhile.symm, fun b hb => ?_, fun hc => ?_⟩
    · simpa using List.mem_takeWhile_imp hb
    · have := List.head?_dropWhile_not (· = (32 : UInt8)) t
      simp [hc] at this
  have h' : a.bytes = (p ++ sp) ++ t' ++ 0 :: r := by simp [h]
  have hskip : skipSpaces a p.length = some (p ++ sp).length := by
    cases t' with
    | nil => exact skipSpaces_eq (r := r) (by simpa using h') hall (by decide)
    | cons c t' =>
      exact skipSpaces_eq (r := t' ++ 0 :: r) (by simpa using h') hall (by simpa using hhead)
  have hnext : nextArgument a p.length = findDelim a (p ++ sp).length := by
    rw [nextArgument, hskip]
    rfl
  rw [hnext, arguments_spaces hall]
  rcases findDelim_cases h' (fun h' => h0 (List.mem_append_right _ h')) hhead
    with ⟨lead, w, q, v, rfl, harg, hfind⟩ | hnone
  · exact .inl ⟨sp ++ lead, w, q, v, by simp, harg, by simpa using hfind⟩
  · exact .inr hnone

/-! ### The loop -/

theorem parseLoop_succ {room buf delim : ℕ} {a₁ : CharArray MAXLINE}
    (h : a.write delim 0 = some a₁) :
    parseLoop (room + 1) a buf (some delim)
      = (parseFrom room a₁ (delim + 1)).map fun r => (r.1, some buf :: r.2) := by
  simp only [parseLoop, h, parseFrom, Option.bind_eq_bind, Option.bind_some, Option.map_eq_bind,
    Option.bind_assoc]
  rfl

/-- One turn of the loop: the argument is stored, and the text behind it is left. -/
theorem parseFrom_succ (h : a.bytes = p ++ t ++ 0 :: r) (h0 : 0 ∉ t) (room : ℕ) :
    (∃ lead w v a₁, arguments .between t = w :: arguments .between v ∧ 0 ∉ w ∧ 0 ∉ v ∧
      a₁.bytes = p ++ lead ++ w ++ [0] ++ v ++ 0 :: r ∧
      parseFrom (room + 1) a p.length
        = (parseFrom room a₁ (p ++ lead ++ w ++ [0]).length).map
            fun r => (r.1, some (p ++ lead).length :: r.2)) ∨
    (arguments .between t = [] ∧ parseFrom (room + 1) a p.length = some (a, [none])) := by
  rcases nextArgument_cases h h0 with ⟨lead, w, q, v, rfl, harg, hnext⟩ | ⟨harg, buf, hnext⟩
  · obtain ⟨a₁, hwrite, hbytes⟩ := CharArray.write_eq (a := a) (p := p ++ lead ++ w)
      (c := q) (d := 0) (r := v ++ 0 :: r) (by simp [h])
    refine .inl ⟨lead, w, v, a₁, harg, fun hw => h0 (by simp [hw]), fun hv => h0 (by simp [hv]),
      by simp [hbytes], ?_⟩
    have hlen : (p ++ lead ++ w ++ [0]).length = (p ++ lead ++ w).length + 1 := List.length_append
    rw [parseFrom, hnext, Option.bind_eq_bind, Option.bind_some, parseLoop_succ hwrite, hlen]
  · exact .inr ⟨harg, by rw [parseFrom, hnext]; rfl⟩

/-- **The loop stores the arguments** of the text that is left, if `argv` has room
for them and for `NULL`.  The array in front stays as it is, which keeps the
arguments cut off before. -/
theorem parseFrom_eq_some {room : ℕ} (h : a.bytes = p ++ t ++ 0 :: r) (h0 : 0 ∉ t)
    (hroom : (arguments .between t).length < room) :
    ∃ (a' : CharArray MAXLINE) (ptrs : List ℕ),
      parseFrom room a p.length = some (a', ptrs.map some ++ [none]) ∧ p <+: a'.bytes ∧
      ptrs.map a'.string = arguments .between t ∧ ∀ i ∈ ptrs, i < MAXLINE := by
  induction room generalizing a p t with
  | zero => omega
  | succ room ih =>
    rcases parseFrom_succ h h0 room with ⟨lead, w, v, a₁, harg, hw0, hv0, hbytes, hstep⟩ |
      ⟨harg, hstep⟩
    · obtain ⟨a', ptrs, hfrom, ⟨rest, hrest⟩, hstr, hlt⟩ := ih hbytes hv0
        (by rw [harg, List.length_cons] at hroom; omega)
      have hw : a'.string (p ++ lead).length = w :=
        CharArray.string_eq (r := rest) (by simp [← hrest]) hw0
      have hbound : (p ++ lead).length < MAXLINE := by
        have hlen := a'.length_eq
        simp only [← hrest, List.length_append, List.length_singleton] at hlen
        rw [List.length_append]
        omega
      refine ⟨a', (p ++ lead).length :: ptrs, by rw [hstep, hfrom]; rfl,
        ⟨lead ++ w ++ [0] ++ rest, by simp [← hrest]⟩, by rw [List.map_cons, hw, hstr, harg], ?_⟩
      exact List.forall_mem_cons.2 ⟨hbound, hlt⟩
    · exact ⟨a, [], hstep, ⟨t ++ 0 :: r, by simp [h]⟩, by rw [harg]; rfl, by simp⟩

/-- **The loop leaves `argv`** if there is no room for an argument or for `NULL`. -/
theorem parseFrom_eq_none {room : ℕ} (h : a.bytes = p ++ t ++ 0 :: r) (h0 : 0 ∉ t)
    (hroom : room ≤ (arguments .between t).length) : parseFrom room a p.length = none := by
  induction room generalizing a p t with
  | zero =>
    rw [parseFrom]
    rcases nextArgument a p.length with _ | next
    · rfl
    · rfl
  | succ room ih =>
    rcases parseFrom_succ h h0 room with ⟨lead, w, v, a₁, harg, -, hv0, hbytes, hstep⟩ |
      ⟨harg, hstep⟩
    · rw [hstep, ih hbytes hv0 (by rw [harg, List.length_cons] at hroom; omega)]
      rfl
    · rw [harg, List.length_nil] at hroom
      omega

/-! ### The whole line -/

variable {array line : CharArray MAXLINE}

/-- The static array holds the line, a space at its end, when the loop begins. -/
theorem parseline_eq (array : CharArray MAXLINE) (h : line.Holds s) (hs : s ≠ []) :
    ∃ (a : CharArray MAXLINE) (rest : List UInt8),
      a.bytes = [] ++ (s.dropLast ++ [32]) ++ 0 :: rest ∧ 0 ∉ s.dropLast ++ [32] ∧
      parseline array line
        = (parseFrom MAXARGS a ([] : List UInt8).length).bind fun r => parseBg r.1 r.2 := by
  obtain ⟨a₀, hcopy, hholds⟩ := h.strcpy (a := array) h.length_lt
  have hlen := hholds.strlen
  obtain ⟨h0, r, hpost⟩ := hholds
  obtain ⟨a₁, hwrite, hbytes⟩ := CharArray.write_eq (a := a₀) (p := s.dropLast)
    (c := s.getLast hs) (d := 32) (r := 0 :: r)
    (by rw [hpost, List.append_cons s.dropLast, List.dropLast_append_getLast hs])
  have hidx : (s.length : ℤ) - 1 = (s.dropLast.length : ℕ) := by
    have := List.length_pos_iff.2 hs
    rw [List.length_dropLast]
    omega
  refine ⟨a₁, r, by simp [hbytes], ?_, ?_⟩
  · simpa using fun hmem => h0 (List.mem_of_mem_dropLast hmem)
  · simp only [parseline, hcopy, hlen, hidx, hwrite, Option.bind_eq_bind, Option.bind_some,
      List.length_nil]

/-- **An empty line** makes `parseline` write in front of its array. -/
theorem parseline_nil (h : line.Holds []) : parseline array line = none := by
  obtain ⟨a₀, hcopy, hholds⟩ := h.strcpy (a := array) h.length_lt
  have hwrite : a₀.write (((0 : ℕ) : ℤ) - 1) 32 = none := if_neg (by omega)
  simp only [parseline, hcopy, hholds.strlen, List.length_nil, hwrite, Option.bind_eq_bind,
    Option.bind_some, Option.bind_none]

/-- **Too many arguments** make it write behind `argv`. -/
theorem parseline_eq_none (h : line.Holds s) (hs : s ≠ [])
    (hlen : MAXARGS ≤ (lineArguments s).length) : parseline array line = none := by
  obtain ⟨a, rest, hbytes, h0, hline⟩ := parseline_eq array h hs
  rw [hline, parseFrom_eq_none hbytes h0 hlen]
  rfl

/-- What follows the loop takes a last argument that begins with `&` away. -/
theorem parseBg_eq {ptrs : List ℕ} (h : ∀ i ∈ ptrs, i < MAXLINE) :
    ∃ r, parseBg a (ptrs.map some ++ [none]) = some r ∧
      r.argv.length = ptrs.length + 1 ∧ r.Yields (request (ptrs.map a.string)).1 ∧
      r.bg = (request (ptrs.map a.string)).2 := by
  rcases List.eq_nil_or_concat ptrs with rfl | ⟨ps, p, rfl⟩
  · exact ⟨⟨a, [none], true⟩, rfl, rfl, List.prefix_rfl, rfl⟩
  · have hread := CharArray.read_eq_head (a := a) (h p (by simp))
    by_cases hamp : (a.string p).head? = some 38
    · refine ⟨⟨a, ps.map some ++ [none, none], true⟩, ?_, ?_, ?_, ?_⟩
      · simp [parseBg, hread, hamp]
      · simp
      · simp [request, hamp, Parsed.Yields]
      · simp [request, hamp]
    · have hne : (a.string p).head?.getD 0 ≠ 38 := by
        cases hhead : (a.string p).head? with
        | none => decide
        | some c => simpa [hhead] using hamp
      refine ⟨⟨a, ps.map some ++ [some p, none], false⟩, ?_, ?_, ?_, ?_⟩
      · simp [parseBg, hread, hne]
      · simp
      · simp [request, hamp, Parsed.Yields]
      · simp [request, hamp]

/-- **`parseline` gives the arguments of the line** if `argv` has room for them. -/
theorem parseline_eq_some (array : CharArray MAXLINE) (h : line.Holds s) (hs : s ≠ [])
    (hlen : (lineArguments s).length < MAXARGS) :
    ∃ r, parseline array line = some r ∧ r.argv.length ≤ MAXARGS ∧
      r.Yields (request (lineArguments s)).1 ∧ r.bg = (request (lineArguments s)).2 := by
  obtain ⟨a, rest, hbytes, h0, hline⟩ := parseline_eq array h hs
  obtain ⟨a', ptrs, hfrom, -, hstr, hlt⟩ := parseFrom_eq_some hbytes h0 hlen
  obtain ⟨r, hr, hargv, hyields, hbg⟩ := parseBg_eq (a := a') hlt
  rw [← lineArguments] at hstr
  rw [hstr] at hyields hbg
  have hptrs : ptrs.length = (lineArguments s).length := by rw [← hstr, List.length_map]
  refine ⟨r, ?_, by omega, hyields, hbg⟩
  rw [hline, hfrom]
  exact hr

end Shell
end CsappLabs
