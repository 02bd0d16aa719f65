/-
# Command lines that are typed

The lines that `main` of `shelllab/tsh.c` hands to `parseline`, and those that a
user writes with arguments in mind.

`parseline` stays in its arrays on a line that `fgets` has read exactly if the
line does not begin with a NUL and has at most 127 arguments
(`parseline_inBounds_iff`).  A `TypedLine` has its arguments bare or between
single quotes with spaces around them, and `parseline` gives them back
(`parseline_typedLine`).
-/

import CsappLabs.Shell.Parseline

namespace CsappLabs
namespace Shell

open Lib Lib.Scanf

variable {array cmdline line : CharArray MAXLINE} {input rest s : List UInt8}

/-! ### Lines read by `fgets` -/

/-- The string that `fgets` makes of the input. -/
def lineText (input : List UInt8) : List UInt8 :=
  (CharArray.fgetsLine (MAXLINE - 1) input).takeWhile (· ≠ 0)

/-- `static char array[MAXLINE]` before its first use. -/
def zeros : CharArray MAXLINE := CharArray.ofBytes [] (Nat.zero_le _)

theorem readLine_holds (h : readLine cmdline input = some (line, rest)) :
    line.Holds (lineText input) := by
  have hne : input ≠ [] := by
    rintro rfl
    simp [readLine, CharArray.fgets] at h
  have hline : (cmdline.fgets input).1 = line := by
    rw [readLine] at h
    split_ifs at h
    exact congrArg Prod.fst (Option.some.inj h)
  rw [← hline]
  exact CharArray.holds_fgets hne

/-- `main` reads a line that fits, whatever comes after it. -/
theorem readLine_eq_some (cmdline : CharArray MAXLINE) (rest : List UInt8) (h : 10 ∉ s)
    (hs : s.length + 1 < MAXLINE) :
    ∃ line, readLine cmdline (s ++ 10 :: rest) = some (line, rest) ∧
      line.Holds ((s ++ [10]).takeWhile (· ≠ 0)) := by
  have hs' : s.length < MAXLINE - 1 := by omega
  refine ⟨(cmdline.fgets (s ++ 10 :: rest)).1, ?_, ?_⟩
  · rw [readLine, CharArray.fgets_eq h hs']
    rfl
  · rw [← CharArray.fgetsLine_eq (r := rest) h hs']
    exact CharArray.holds_fgets (by simp)

/-- **`parseline` stays in its arrays** on a line that `main` has read exactly if the
line does not begin with a NUL and leaves a cell of `argv` for the last `NULL`. -/
theorem parseline_inBounds_iff (h : readLine cmdline input = some (line, rest)) :
    (∃ r, parseline array line = some r ∧ r.argv.length ≤ MAXARGS) ↔
      lineText input ≠ [] ∧ (lineArguments (lineText input)).length < MAXARGS := by
  have hholds := readLine_holds h
  constructor
  · rintro ⟨r, hr, -⟩
    have hne : lineText input ≠ [] := by
      intro hnil
      rw [parseline_nil (hnil ▸ hholds)] at hr
      exact nomatch hr
    refine ⟨hne, ?_⟩
    by_contra hlen
    rw [parseline_eq_none hholds hne (not_lt.1 hlen)] at hr
    exact nomatch hr
  · rintro ⟨hne, hlen⟩
    obtain ⟨r, hr, hargv, -⟩ := parseline_eq_some array hholds hne hlen
    exact ⟨r, hr, hargv⟩

theorem parseline_inBounds_ls : ∃ r,
    parseline zeros (zeros.fgets (bytes "ls -l\n")).1 = some r ∧ r.argv.length ≤ MAXARGS :=
  (parseline_inBounds_iff
    (rfl : readLine zeros (bytes "ls -l\n") = some (_, []))).2 (by decide)

/-! ### Lines with arguments in mind -/

/-- No NUL, newline or single quote. -/
def Plain (s : List UInt8) : Prop := ∀ c ∈ s, c ≠ 0 ∧ c ≠ 10 ∧ c ≠ 39

instance (s : List UInt8) : Decidable (Plain s) := List.decidableBAll _ s

/-- An argument: its text, and whether it is written between single quotes. -/
structure Arg where
  text : List UInt8
  quoted : Bool
  plain : Plain text
  bare : quoted = false → text ≠ [] ∧ 32 ∉ text

/-- The argument as it is written. -/
def Arg.written (arg : Arg) : List UInt8 :=
  if arg.quoted then 39 :: arg.text ++ [39] else arg.text

/-- `&` -/
def Arg.amp : Arg where
  text := [38]
  quoted := false
  plain := by decide
  bare := by decide

/-- Arguments with the number of spaces behind each, and the spaces in front of them. -/
structure TypedLine where
  lead : ℕ
  parts : List (Arg × ℕ)
  /-- one or more spaces between arguments -/
  spaced : ∀ p ∈ parts.dropLast, 1 ≤ p.2

namespace TypedLine

def args (l : TypedLine) : List Arg := l.parts.map Prod.fst

/-- The line without its newline. -/
def text (l : TypedLine) : List UInt8 :=
  List.replicate l.lead 32 ++ l.parts.flatMap fun p => p.1.written ++ List.replicate p.2 32

end TypedLine

/-- An argument is read as it was meant, up to the space behind it. -/
theorem arguments_written (arg : Arg) :
    arguments .between (arg.written ++ 32 :: s) = arg.text :: arguments .between s := by
  unfold Arg.written
  split_ifs with hq
  · have h39 : 39 ∉ arg.text := fun h => (arg.plain 39 h).2.2 rfl
    rw [List.append_assoc, List.cons_append, arguments_quote, List.singleton_append,
      arguments_word h39]
    rfl
  · obtain ⟨hne, h32⟩ := arg.bare (by simpa using hq)
    obtain ⟨c, u, hc⟩ := List.exists_cons_of_ne_nil hne
    have hc32 : c ≠ 32 := fun e => h32 (by simp [hc, e])
    have hc39 : c ≠ 39 := (arg.plain c (by simp [hc])).2.2
    rw [hc, List.cons_append, arguments_bare hc32 hc39, ← List.cons_append, ← hc,
      arguments_word h32]
    rfl

theorem arguments_parts {parts : List (Arg × ℕ)} (h : ∀ p ∈ parts.dropLast, 1 ≤ p.2) :
    arguments .between
        ((parts.flatMap fun p => p.1.written ++ List.replicate p.2 32) ++ [32])
      = parts.map (·.1.text) := by
  induction parts with
  | nil => rfl
  | cons p parts ih =>
    obtain ⟨arg, k⟩ := p
    cases parts with
    | nil =>
      have hspace : List.replicate k (32 : UInt8) ++ [32] = 32 :: (List.replicate k 32 ++ []) := by
        rw [List.append_nil, ← List.replicate_succ', List.replicate_succ]
      simp only [List.flatMap_cons, List.flatMap_nil, List.append_nil, List.append_assoc, hspace,
        List.map_cons, List.map_nil]
      rw [arguments_written, ← List.append_nil (List.replicate k 32), arguments_spaces (by simp)]
      rfl
    | cons p' parts =>
      obtain ⟨j, rfl⟩ : ∃ j, k = j + 1 := Nat.exists_eq_succ_of_ne_zero
        (Nat.one_le_iff_ne_zero.1 (h (arg, k) (by simp)))
      rw [List.flatMap_cons, List.replicate_succ, List.append_assoc, List.append_assoc,
        List.cons_append, arguments_written, arguments_spaces (by simp),
        ih fun p hp => h p (List.mem_cons_of_mem _ hp)]
      rfl

/-- **The arguments of a typed line** are those it was written with. -/
theorem lineArguments_typedLine (l : TypedLine) :
    lineArguments (l.text ++ [10]) = l.args.map Arg.text := by
  rw [lineArguments, List.dropLast_concat, TypedLine.text, List.append_assoc,
    arguments_spaces (by simp), arguments_parts l.spaced, TypedLine.args, List.map_map]
  rfl

/-- **`parseline` undoes the quoting.**  For fewer than 127 arguments, bare or quoted,
`argv` holds them and then `NULL`; the result is `0` unless the last one begins with
`&`, and `1` if a further `&` stands behind them, which is not kept. -/
theorem parseline_typedLine (args : List Arg) (hne : args ≠ []) (hlen : args.length < 127) :
    (∀ l : TypedLine, l.args = args → (args.getLast hne).text.head? ≠ some 38 →
      ∀ array line : CharArray MAXLINE, line.Holds (l.text ++ [10]) →
        ∃ r, parseline array line = some r ∧ r.Yields (args.map Arg.text) ∧ r.bg = false) ∧
    (∀ l : TypedLine, l.args = args ++ [Arg.amp] →
      ∀ array line : CharArray MAXLINE, line.Holds (l.text ++ [10]) →
        ∃ r, parseline array line = some r ∧ r.Yields (args.map Arg.text) ∧ r.bg = true) := by
  have hmax : MAXARGS = 128 := rfl
  have hline {l : TypedLine} {ws : List (List UInt8)} (hl : l.args.map Arg.text = ws)
      (hws : ws.length < MAXARGS) (array : CharArray MAXLINE) {line : CharArray MAXLINE}
      (h : line.Holds (l.text ++ [10])) :
      ∃ r, parseline array line = some r ∧ r.Yields (request ws).1 ∧ r.bg = (request ws).2 := by
    rw [← hl, ← lineArguments_typedLine] at hws ⊢
    obtain ⟨r, hr, -, hyields, hbg⟩ := parseline_eq_some array h (by simp) hws
    exact ⟨r, hr, hyields, hbg⟩
  constructor
  · intro l hl hlast array line h
    have hreq : request (args.map Arg.text) = (args.map Arg.text, false) := by
      rw [request, List.getLast?_map, List.getLast?_eq_some_getLast hne]
      exact if_neg hlast
    have := hline (congrArg (List.map Arg.text) hl) (by rw [List.length_map]; omega) array h
    rwa [hreq] at this
  · intro l hl array line h
    have hreq : request ((args ++ [Arg.amp]).map Arg.text) = (args.map Arg.text, true) := by
      simp [request, Arg.amp]
    have := hline (congrArg (List.map Arg.text) hl)
      (by rw [List.length_map, List.length_append, List.length_singleton]; omega) array h
    rwa [hreq] at this

theorem parseline_typedLine_quoted :
    (∃ r, parseline zeros (CharArray.ofBytes (bytes " ls ''  'a b'\n") (by decide)) = some r ∧
      r.Yields [bytes "ls", [], bytes "a b"] ∧ r.bg = false) ∧
    ∃ r, parseline zeros (CharArray.ofBytes (bytes "ls '' 'a b' &\n") (by decide)) = some r ∧
      r.Yields [bytes "ls", [], bytes "a b"] ∧ r.bg = true := by
  have h := parseline_typedLine [⟨bytes "ls", false, by decide, by decide⟩,
    ⟨[], true, by decide, by decide⟩, ⟨bytes "a b", true, by decide, by decide⟩] (by simp)
    (by decide)
  constructor
  · refine h.1 ⟨1, [(_, 1), (_, 2), (_, 0)], by decide⟩ rfl (by decide) zeros _ ?_
    exact CharArray.holds_ofBytes (s := bytes " ls ''  'a b'\n") (by decide) (by decide)
  · refine h.2 ⟨0, [(_, 1), (_, 1), (_, 1), (_, 0)], by decide⟩ rfl zeros _ ?_
    exact CharArray.holds_ofBytes (s := bytes "ls '' 'a b' &\n") (by decide) (by decide)

/-- A typed line with more arguments leaves `argv`. -/
theorem parseline_typedLine_eq_none {l : TypedLine} (h : line.Holds (l.text ++ [10]))
    (hlen : MAXARGS ≤ l.args.length) : parseline array line = none :=
  parseline_eq_none h (by simp) (by rwa [lineArguments_typedLine, List.length_map])

/-- There is no NUL and no newline in a typed line. -/
theorem TypedLine.plain (l : TypedLine) {c : UInt8} (h : c ∈ l.text) : c ≠ 0 ∧ c ≠ 10 := by
  simp only [TypedLine.text, List.mem_append, List.mem_replicate, List.mem_flatMap] at h
  rcases h with ⟨-, rfl⟩ | ⟨p, -, hw | ⟨-, rfl⟩⟩
  · decide
  · unfold Arg.written at hw
    split_ifs at hw
    · simp only [List.cons_append, List.mem_cons, List.mem_append, List.not_mem_nil, or_false] at hw
      rcases hw with rfl | hw | rfl
      · decide
      · exact ⟨(p.1.plain c hw).1, (p.1.plain c hw).2.1⟩
      · decide
    · exact ⟨(p.1.plain c hw).1, (p.1.plain c hw).2.1⟩
  · decide

/-- `main` hands a typed line that fits to `parseline` as it is. -/
theorem readLine_typedLine (cmdline : CharArray MAXLINE) (rest : List UInt8) (l : TypedLine)
    (hlen : l.text.length + 1 < MAXLINE) :
    ∃ line, readLine cmdline (l.text ++ 10 :: rest) = some (line, rest) ∧
      line.Holds (l.text ++ [10]) := by
  obtain ⟨line, hread, hholds⟩ := readLine_eq_some cmdline rest
    (fun h => (l.plain h).2 rfl) hlen
  have h0 : (l.text ++ [10]).takeWhile (· ≠ 0) = l.text ++ [10] := by
    refine List.takeWhile_eq_self_iff.2 fun c hc => ?_
    rcases List.mem_append.1 hc with hc | hc
    · simpa using (l.plain hc).1
    · simp [List.mem_singleton.1 hc]
  exact ⟨line, hread, h0 ▸ hholds⟩

/-- The line `a a … a`. -/
def repeatedArg (n : ℕ) : TypedLine where
  lead := 0
  parts := List.replicate n (⟨[97], false, by decide, by decide⟩, 1)
  spaced := fun p hp => by simp [List.eq_of_mem_replicate (List.mem_of_mem_dropLast hp)]

theorem length_repeatedArg (n : ℕ) : (repeatedArg n).text.length = 2 * n := by
  simp [repeatedArg, TypedLine.text, Arg.written, List.flatMap_replicate, mul_comm]

/-- A NUL in front of the newline, and a line of 128 arguments. -/
theorem parseline_overflows :
    (∃ line, readLine zeros [0, 10] = some (line, []) ∧ parseline zeros line = none) ∧
    (∃ line, readLine zeros ((repeatedArg 128).text ++ [10]) = some (line, []) ∧
      parseline zeros line = none) := by
  constructor
  · obtain ⟨line, hread, hholds⟩ := readLine_eq_some zeros [] (s := [0]) (by decide)
      (by decide)
    exact ⟨line, hread, parseline_nil hholds⟩
  · obtain ⟨line, hread, hholds⟩ := readLine_typedLine zeros [] (repeatedArg 128)
      (by rw [length_repeatedArg]; decide)
    refine ⟨line, hread, parseline_typedLine_eq_none hholds ?_⟩
    rw [TypedLine.args, List.length_map]
    exact List.length_replicate.ge

end Shell
end CsappLabs
