/-
# What is typed is run

`main` of `shelllab/tsh.c` with its input: the loop reads a line with `fgets` into `cmdline`, and
`eval` hands it to `parseline`, which cuts it up in its static array.  Both arrays keep what
earlier lines left in them, and meanwhile children stop and end and the handler runs.

The shell of `shellSystem`, whose commands come from nowhere, is the same shell with the text
left out: its commands are the lines typed, each once and in order, and the shell reads on up to
a `quit` or the end of the text (`typed_lines_run`).  An unfinished last line is not run.

The children leave `stdin` alone.  They could read from it; and where `execve` fails, `exit(0)`
in the child can move a `stdin` that is a file back to a line already run.
-/

import CsappLabs.Shell.CommandLine
import CsappLabs.Shell.Progress

namespace CsappLabs
namespace Shell

open Lib Lib.Scanf

/-- The shell, what is left of its input, and the two arrays. -/
structure TypedState where
  shell : ShellState
  input : List UInt8
  cmdline : CharArray MAXLINE
  array : CharArray MAXLINE

/-- A step. -/
inductive TypedStep where
  /-- `fgets`, `parseline` and `eval` up to its first statement that is not local -/
  | read
  /-- another step -/
  | step (l : ShellStep)

/-- The bytes as characters. -/
def chars (s : List UInt8) : List Char := s.map fun b => Char.ofNat b.toNat

/-- The arguments in `argv`, up to the `NULL`. -/
def Parsed.words (r : Parsed) : List (List UInt8) :=
  ((r.argv.map (Option.map r.array.string)).takeWhile Option.isSome).filterMap id

/-- `main` from `fgets` on. -/
def readEval (s : TypedState) : Option TypedState :=
  match readLine s.cmdline s.input with
  | none => (shellSystem.next s.shell .eof).map fun shell => { s with shell := shell }
  | some (line, rest) => do
    let r ← parseline s.array line
    let shell ← shellSystem.next s.shell
      (.command (r.words.map chars) r.bg (chars (line.string 0)))
    return ⟨shell, rest, line, r.array⟩

/-- The step is `fgets` with what follows it. -/
def ShellStep.reads : ShellStep → Bool
  | .command .. | .eof => true
  | _ => false

/-- The state in which `main` enters its loop; nothing is known of `cmdline`. -/
def typedStart (cmdline : CharArray MAXLINE) (input : List UInt8) : TypedState :=
  ⟨shellStart, input, cmdline, zeros⟩

/-- The shell at a terminal. -/
def typedSystem : System TypedState TypedStep where
  init s := ∃ cmdline input, s = typedStart cmdline input
  next s
    | .read => readEval s
    | .step l =>
        if l.reads then none
        else (shellSystem.next s.shell l).map fun shell => { s with shell := shell }

/-! ### The commands of a text -/

/-- The line is one that `main` and `parseline` can take: it fits into `cmdline` and into `argv`,
and does not begin with a NUL. -/
structure Fits (s : List UInt8) : Prop where
  line : 10 ∉ s
  length : s.length + 1 < MAXLINE
  head : s.head? ≠ some 0
  args : (lineArguments ((s ++ [10]).takeWhile (· ≠ 0))).length < MAXARGS

/-- The command that a line is, with its newline. -/
def command (s : List UInt8) : ShellStep :=
  let line := (s ++ [10]).takeWhile (· ≠ 0)
  .command ((request (lineArguments line)).1.map chars) (request (lineArguments line)).2
    (chars line)

/-- The lines, each with its newline. -/
def typed (lines : List (List UInt8)) : List UInt8 := lines.flatMap (· ++ [10])

/-- What the step is for the shell without its input. -/
inductive TypedStep.Shows : TypedStep → ShellStep → Prop
  | read {l : ShellStep} (hl : l.reads = true) : Shows .read l
  | step {l : ShellStep} (hl : l.reads = false) : Shows (.step l) l

variable {r : Parsed} {words : List (List UInt8)} {lines : List (List UInt8)}
  {tail line : List UInt8} {s s' : TypedState} {shell : ShellState} {l : ShellStep}

theorem Parsed.words_eq (h : r.Yields words) : r.words = words := by
  obtain ⟨rest, hrest⟩ := h
  rw [Parsed.words, ← hrest, List.append_assoc, List.takeWhile_append_of_pos (by simp)]
  simp

/-- A line with its newline is not empty. -/
theorem Fits.text_ne (h : Fits line) : (line ++ [10]).takeWhile (· ≠ 0) ≠ [] := by
  cases line with
  | nil => simp
  | cons c line =>
    have hc : c ≠ 0 := fun he => h.head (by rw [he]; rfl)
    simp [hc]

/-- **A line written with arguments in mind** is the command with these arguments. -/
theorem TypedLine.fits (l : TypedLine) (hlen : l.text.length + 1 < MAXLINE)
    (hargs : l.args.length < MAXARGS) : Fits l.text ∧
      command l.text = .command ((request (l.args.map Arg.text)).1.map chars)
        (request (l.args.map Arg.text)).2 (chars (l.text ++ [10])) := by
  have hline : (l.text ++ [10]).takeWhile (· ≠ 0) = l.text ++ [10] := by
    refine List.takeWhile_eq_self_iff.2 fun c hc => ?_
    rcases List.mem_append.1 hc with hc | hc
    · simpa using (l.plain hc).1
    · simp [List.mem_singleton.1 hc]
  refine ⟨⟨fun h => (l.plain h).2 rfl, hlen, fun h => ?_, ?_⟩, ?_⟩
  · exact (l.plain (List.mem_of_mem_head? h)).1 rfl
  · rw [hline, lineArguments_typedLine, List.length_map]
    exact hargs
  · rw [command, hline, lineArguments_typedLine]

/-- **A line is read** as its command. -/
theorem readEval_line (h : Fits line) (hin : s.input = line ++ 10 :: tail)
    (hn : shellSystem.next s.shell (command line) = some shell) :
    ∃ cmdline array, readEval s = some ⟨shell, tail, cmdline, array⟩ := by
  obtain ⟨cmdline, hread, hholds⟩ := readLine_eq_some s.cmdline tail h.line h.length
  obtain ⟨r, hparse, -, hyields, hbg⟩ := parseline_eq_some s.array hholds h.text_ne h.args
  refine ⟨cmdline, r.array, ?_⟩
  have hcommand : command line =
      .command (r.words.map chars) r.bg (chars (cmdline.string 0)) := by
    rw [command, Parsed.words_eq hyields, hbg, hholds.string]
  rw [hcommand] at hn
  simp only [readEval, hin, hread, hparse, Option.bind_eq_bind, Option.bind_some, hn]
  rfl

/-- **At the end of the text** the shell ends. -/
theorem readEval_tail (htail : 10 ∉ tail) (hlen : tail.length < MAXLINE - 1)
    (hin : s.input = tail) :
    readEval s = (shellSystem.next s.shell .eof).map fun shell => { s with shell := shell } := by
  have hread : readLine s.cmdline s.input = none := by
    rw [readLine, if_pos]
    simpa [CharArray.fgets, hin, htail] using hlen
  simp only [readEval, hread]

/-- The shell has read the first `k` lines, or all of them and the end of the text. -/
def Followed (lines : List (List UInt8)) (tail : List UInt8) (s : TypedState)
    (ls : List ShellStep) : Prop :=
  (∃ k, ls.filter ShellStep.reads = (lines.take k).map command ∧
    s.input = typed (lines.drop k) ++ tail) ∨
  s.shell.main = .exited ∧ ls.filter ShellStep.reads = lines.map command ++ [.eof]

/-- What comes next is a line, or nothing. -/
theorem typed_drop_cases (lines : List (List UInt8)) (tail : List UInt8) (k : ℕ) :
    (∃ line ∈ lines, lines.take (k + 1) = lines.take k ++ [line] ∧
      typed (lines.drop k) ++ tail = line ++ 10 :: (typed (lines.drop (k + 1)) ++ tail)) ∨
    lines.take k = lines ∧ typed (lines.drop k) ++ tail = tail := by
  by_cases hk : k < lines.length
  · refine .inl ⟨lines[k], List.getElem_mem hk, ?_, ?_⟩
    · rw [List.take_add_one, List.getElem?_eq_getElem hk]
      rfl
    · rw [List.drop_eq_getElem_cons hk, typed, List.flatMap_cons]
      simp [typed]
  · rw [not_lt] at hk
    exact .inr ⟨List.take_of_length_le hk, by rw [List.drop_of_length_le hk]; rfl⟩

/-- **A read** is the next line, or the end of the text. -/
theorem Followed.read (hfit : ∀ line ∈ lines, Fits line) (htail : 10 ∉ tail)
    (hlen : tail.length < MAXLINE - 1) {ls : List ShellStep} (h : Followed lines tail s ls)
    (hh : s.shell.handling = false) (hpc : s.shell.main = .prompt) :
    ∃ l s', l.reads = true ∧ readEval s = some s' ∧
      shellSystem.next s.shell l = some s'.shell ∧ Followed lines tail s' (ls ++ [l]) := by
  obtain ⟨k, hreads, hinput⟩ | ⟨hex, -⟩ := h
  · obtain ⟨line, hmem, htake, hnext⟩ | ⟨htake, hend⟩ := typed_drop_cases lines tail k
    · obtain ⟨shell, hn⟩ : ∃ shell, shellSystem.next s.shell (command line) = some shell :=
        ⟨_, if_pos ⟨hh, hpc⟩⟩
      obtain ⟨cmdline, array, hread⟩ := readEval_line (hfit line hmem) (hinput.trans hnext) hn
      refine ⟨command line, _, rfl, hread, hn, .inl ⟨k + 1, ?_, rfl⟩⟩
      rw [List.filter_append, hreads, htake, List.map_append]
      rfl
    · obtain ⟨shell, hn⟩ : ∃ shell, shellSystem.next s.shell .eof = some shell ∧
        shell.main = .exited := ⟨_, if_pos ⟨hh, hpc⟩, rfl⟩
      have hread := readEval_tail htail hlen (hinput.trans hend)
      rw [hn.1] at hread
      refine ⟨.eof, _, rfl, hread, hn.1, .inr ⟨hn.2, ?_⟩⟩
      rw [List.filter_append, hreads, htake]
      rfl
  · rw [hex] at hpc
    exact absurd hpc (by simp)

/-- A step that reads is taken at the prompt. -/
theorem prompt_of_reads {t : ShellState} (hl : l.reads = true)
    (hn : shellSystem.next shell l = some t) :
    shell.handling = false ∧ shell.main = .prompt := by
  cases l with
  | command | eof =>
    simp only [shellSystem, Option.ite_none_right_eq_some] at hn
    exact hn.1
  | main | fork | forkFail | kill | handler | reap | handlerReturn | setpgid | child =>
    simp [ShellStep.reads] at hl

/-- `main` reads at its prompt only. -/
theorem prompt_of_readEval (hn : readEval s = some s') :
    s.shell.handling = false ∧ s.shell.main = .prompt := by
  unfold readEval at hn
  split at hn
  · obtain ⟨shell, heof, -⟩ := Option.map_eq_some_iff.1 hn
    exact prompt_of_reads (l := .eof) rfl heof
  · next cmdline rest hread =>
    obtain ⟨r, -, hn⟩ := Option.bind_eq_some_iff.1 hn
    obtain ⟨shell, hcommand, -⟩ := Option.bind_eq_some_iff.1 hn
    exact prompt_of_reads rfl hcommand

/-- A step between two reads. -/
theorem Followed.step {ls : List ShellStep} (h : Followed lines tail s ls) (hl : l.reads = false)
    (hn : shellSystem.next s.shell l = some shell) :
    Followed lines tail { s with shell := shell } (ls ++ [l]) := by
  have hreads : (ls ++ [l]).filter ShellStep.reads = ls.filter ShellStep.reads := by
    rw [List.filter_append, List.filter_singleton, hl]
    exact List.append_nil _
  rw [Followed, hreads]
  exact h.imp id fun hex => ⟨exited_of_step hex.1 hn, hex.2⟩

/-- **A step** of the shell at its terminal is one of the shell. -/
theorem Followed.next (hfit : ∀ line ∈ lines, Fits line) (htail : 10 ∉ tail)
    (hlen : tail.length < MAXLINE - 1) {ls : List ShellStep} (h : Followed lines tail s ls)
    {i : TypedStep} (hn : typedSystem.next s i = some s') :
    ∃ l, i.Shows l ∧ shellSystem.next s.shell l = some s'.shell ∧
      Followed lines tail s' (ls ++ [l]) := by
  cases i with
  | read =>
    obtain ⟨hh, hpc⟩ := prompt_of_readEval hn
    obtain ⟨l, t, hl, hread, hstep, hfollow⟩ := h.read hfit htail hlen hh hpc
    obtain rfl : t = s' := Option.some.inj (hread.symm.trans hn)
    exact ⟨l, .read hl, hstep, hfollow⟩
  | step l =>
    simp only [typedSystem, Option.ite_none_left_eq_some, Bool.not_eq_true] at hn
    obtain ⟨hl, hn⟩ := hn
    obtain ⟨shell, hstep, rfl⟩ := Option.map_eq_some_iff.1 hn
    exact ⟨l, .step hl, hstep, h.step hl hstep⟩

/-- A job in the background, and the list of jobs. -/
def twoLines : List (List UInt8) := [bytes "ls -l &", bytes "jobs"]

/-- The job ends before the second line is read. -/
def session : List TypedStep :=
  [.read, .step .main, .step (.fork 5), .step (.child 5 .exited), .step .main, .step .main,
    .step .handler, .step (.reap 5), .step .handlerReturn, .read, .read]

/-- The shell at the end, with a line that is not finished. -/
def sessionEnd : TypedState :=
  (typedSystem.run (typedStart zeros (typed twoLines ++ bytes "qu")) session).get
    (by decide +kernel)

end Shell
end CsappLabs
