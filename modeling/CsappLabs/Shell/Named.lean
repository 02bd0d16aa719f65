/-
# The job that `fg` and `bg` name

`do_bgfg` of `shelllab/tsh.c` reads its argument as a pid, or behind a `%` as a job
id, and looks for a job.  `Names` says what the argument stands for without the
code: digits, read in base 10 and reduced to an `int` as `atoi` does, and a live
job with that pid or id.  Ids count from `1`; an `int` that has overflowed is none.

The handler stays out here: it can take the job away between the lookup and the
assignment (`coherent_iff`).  In a run without it `do_bgfg` does nothing if the
argument names no live job, and otherwise it signals and changes the first that it
names (`doBgfg_named`).  The lookups would take an entry for a job that is free but has
an id, or has a negative pid; no entry of the list ever does (`numbered_of_reach`).
-/

import CsappLabs.Shell.Children
import Mathlib.Data.Nat.Digits.Defs

namespace CsappLabs
namespace Shell

open Lib Lib.CInt

/-! ### What an argument stands for -/

/-- A string of digits. -/
def IsDigitString (s : List Char) : Prop := ∀ c ∈ s, '0' ≤ c ∧ c ≤ '9'

/-- The number of a digit string, as an `int`. -/
def denoted (s : List Char) : ℤ :=
  int32 (Nat.ofDigits 10 (s.reverse.map fun c => c.toNat - '0'.toNat) : ℕ)

/-- The job is live and has the pid, or behind a `%` the positive id, that the argument
denotes. -/
def Names (arg : List Char) (j : Job) : Prop :=
  j.pid ≠ 0 ∧
    match arg with
    | '%' :: digits => IsDigitString digits ∧ 0 < j.jid ∧ j.jid = denoted digits
    | digits => IsDigitString digits ∧ j.pid = denoted digits

/-- The first job that the argument names. -/
def FirstNamed (t : JobTable) (arg : List Char) (job : Fin MAXJOBS) : Prop :=
  Names arg (t.job job) ∧ ∀ i < job, ¬Names arg (t.job i)

/-- An entry is free and has no id, or has a positive pid. -/
def Numbered (t : JobTable) : Prop :=
  ∀ i, (t.job i).pid = 0 ∧ (t.job i).jid = 0 ∨ 0 < (t.job i).pid

theorem isDigits_iff {s : List Char} : isDigits s = true ↔ IsDigitString s := by
  simp only [isDigits, List.all_eq_true, Char.isDigit, Bool.and_eq_true, decide_eq_true_eq]
  rfl

/-- `atoi` reads a number in base 10. -/
theorem atoi_eq_denoted (s : List Char) : atoi s = denoted s := by
  unfold atoi denoted
  congr 1
  induction s using List.reverseRecOn with
  | nil => rfl
  | append_singleton s c ih =>
    rw [List.foldl_append, List.foldl_cons, List.foldl_nil, ih, List.reverse_append,
      List.reverse_singleton, List.singleton_append, List.map_cons, Nat.ofDigits_cons]
    push_cast
    exact add_comm ..

variable {t : JobTable} {cmd : BgFg} {arg : List Char} {rest : List (List Char)}
  {job : Fin MAXJOBS} {n : ℤ}

/-- Where `do_bgfg` begins, and what its argument stands for there. -/
theorem doBgfg_cases (cmd : BgFg) (arg : List Char) (rest : List (List Char)) :
    (doBgfg cmd (arg :: rest) = .prompt ∧ ∀ j, ¬Names arg j) ∨
    (∃ n, doBgfg cmd (arg :: rest) = .getJid cmd n ∧
      ∀ j, Names arg j ↔ j.pid ≠ 0 ∧ 0 < j.jid ∧ j.jid = n) ∨
    ∃ n, doBgfg cmd (arg :: rest) = .getPid cmd n ∧ ∀ j, Names arg j ↔ j.pid ≠ 0 ∧ j.pid = n := by
  unfold doBgfg Names
  split
  · exact absurd ‹_› (by simp)
  · next digits _ heq =>
    obtain ⟨rfl, -⟩ := List.cons.inj heq
    by_cases hd : isDigits digits = true
    · refine .inr (.inl ⟨atoi digits, if_pos hd, fun j => ?_⟩)
      simp only [isDigits_iff.1 hd, true_and, atoi_eq_denoted]
    · refine .inl ⟨if_neg hd, fun j h => hd (isDigits_iff.2 h.2.1)⟩
  · next digits _ hno heq =>
    obtain ⟨rfl, -⟩ := List.cons.inj heq
    by_cases hd : isDigits arg = true
    · refine .inr (.inr ⟨atoi arg, if_pos hd, fun j => ?_⟩)
      split
      · exact (hno _ rfl).elim
      · simp only [isDigits_iff.1 hd, true_and, atoi_eq_denoted]
    · refine .inl ⟨if_neg hd, fun j h => ?_⟩
      split at h
      · exact (hno _ rfl).elim
      · exact hd (isDigits_iff.2 h.2.1)

/-! ### The lookups -/

/-- The first entry with a property has it, and no entry in front of it. -/
theorem firstSlot_first {p : Job → Prop} [DecidablePred p] (h : firstSlot t p = some job) :
    p (t.job job) ∧ ∀ i < job, ¬p (t.job i) := by
  obtain ⟨hp, as, bs, hsplit, has⟩ := List.find?_eq_some_iff_append.1 h
  refine ⟨by simpa using hp, fun i hi => ?_⟩
  have hsorted : (as ++ job :: bs).Pairwise (· < ·) := hsplit ▸ List.pairwise_lt_finRange MAXJOBS
  have hmem : i ∈ as ++ job :: bs := hsplit ▸ List.mem_finRange i
  rcases List.mem_append.1 hmem with hmem | hmem
  · simpa using has i hmem
  · rcases List.mem_cons.1 hmem with rfl | hmem
    · exact absurd hi (lt_irrefl i)
    · have := (List.pairwise_cons.1 (List.pairwise_append.1 hsorted).2.1).1 i hmem
      exact absurd hi this.asymm

/-- A loop over the list finds the first job that the argument names. -/
theorem firstSlot_named {p : Job → Prop} [DecidablePred p]
    (hp : ∀ i, p (t.job i) ↔ Names arg (t.job i)) :
    (∀ job, firstSlot t p = some job → FirstNamed t arg job) ∧
      (firstSlot t p = none → ∀ i, ¬Names arg (t.job i)) := by
  refine ⟨fun job h => ?_, fun h i hi => firstSlot_eq_none.1 h i ((hp i).2 hi)⟩
  obtain ⟨hjob, hlt⟩ := firstSlot_first h
  exact ⟨(hp job).1 hjob, fun i hi hn => hlt i hi ((hp i).2 hn)⟩

/-- A lookup by a number that no free entry has, where jobs with a positive one are named. -/
theorem lookup_named {f : Job → ℤ} (hf : ∀ i, 0 < f (t.job i) → (t.job i).pid ≠ 0)
    (hn : ∀ i, Names arg (t.job i) ↔ (t.job i).pid ≠ 0 ∧ 0 < f (t.job i) ∧ f (t.job i) = n) :
    (∀ job, (if n < 1 then none else firstSlot t fun j => f j = n) = some job →
        FirstNamed t arg job) ∧
      ((if n < 1 then none else firstSlot t fun j => f j = n) = none →
        ∀ i, ¬Names arg (t.job i)) := by
  split_ifs with h
  · refine ⟨fun _ he => absurd he (by simp), fun _ i hi => ?_⟩
    have := ((hn i).1 hi).2
    omega
  · refine firstSlot_named fun i => ?_
    rw [hn i]
    exact ⟨fun he => ⟨hf i (by omega), by omega, he⟩, fun he => he.2.2⟩

theorem getjobjid_named (ht : Numbered t)
    (hn : ∀ j, Names arg j ↔ j.pid ≠ 0 ∧ 0 < j.jid ∧ j.jid = n) :
    (∀ job, getjobjid t n = some job → FirstNamed t arg job) ∧
      (getjobjid t n = none → ∀ i, ¬Names arg (t.job i)) :=
  lookup_named (fun i => by have := ht i; omega) fun i => hn _

theorem getjobpid_named (ht : Numbered t) (hn : ∀ j, Names arg j ↔ j.pid ≠ 0 ∧ j.pid = n) :
    (∀ job, getjobpid t n = some job → FirstNamed t arg job) ∧
      (getjobpid t n = none → ∀ i, ¬Names arg (t.job i)) := by
  refine lookup_named (f := Job.pid) (fun i h => h.ne') fun i => (hn _).trans ?_
  have := ht i
  omega

theorem FirstNamed.unique {job' : Fin MAXJOBS} (h : FirstNamed t arg job)
    (h' : FirstNamed t arg job') : job = job' := by
  rcases lt_trichotomy job job' with hlt | he | hlt
  · exact absurd h.1 (h'.2 job hlt)
  · exact he
  · exact absurd h'.1 (h.2 job' hlt)

/-! ### The list of a run -/

/-- An entry is replaced by a free one or by one with a positive pid. -/
theorem Numbered.update {t' : JobTable} {j : Job} (h : Numbered t)
    (hjob : t'.job = Function.update t.job job j)
    (hj : j.pid = 0 ∧ j.jid = 0 ∨ 0 < j.pid) : Numbered t' := by
  intro i
  rw [hjob]
  by_cases hi : i = job
  · rwa [hi, Function.update_self]
  · rw [Function.update_of_ne hi]
    exact h i

theorem Numbered.setJobState (h : Numbered t) (job : Fin MAXJOBS) (state : JobState) :
    Numbered (setJobState t job state) :=
  h.update rfl (h job)

theorem Numbered.deletejob (h : Numbered t) (pid : ℤ) : Numbered (deletejob t pid).1 := by
  rcases deletejob_cases t pid with ⟨he, -⟩ | ⟨i, -, -, hjob, -⟩
  · rwa [he]
  · exact h.update hjob (.inl ⟨rfl, rfl⟩)

theorem Numbered.addjob (h : Numbered t) (pid : ℤ) (state : JobState) (cmdline : List Char) :
    Numbered (addjob t pid state cmdline).1 := by
  rcases addjob_cases t pid state cmdline with ⟨he, -⟩ | ⟨i, hpid, -, -, hjob, -⟩
  · rwa [he]
  · exact h.update hjob (.inr (by simp only; omega))

/-- **The list of every run** has no entry with an id and no pid, and no negative pid. -/
theorem numbered_of_reach {s : ShellState} (h : shellSystem.Reach s) : Numbered s.table := by
  refine h.induct (P := fun s => Numbered s.table) ?_ ?_
  · rintro s rfl
    exact fun i => .inl ⟨rfl, rfl⟩
  · intro s l s' _ ht _ hn
    have hr := relists_of_next hn
    generalize s'.table = t' at hr ⊢
    cases hr with
    | same => exact ht
    | add => exact ht.addjob _ _ _
    | delete pid => exact ht.deletejob pid
    | assign job state => exact ht.setJobState job state

/-! ### Runs of `do_bgfg` without the handler -/

/-- No handler starts, and `main` reads no further line. -/
def ShellStep.quiet : ShellStep → Bool
  | .handler | .command .. | .eof => false
  | _ => true

/-- The process group that a step signals. -/
def sends (s : ShellState) : ShellStep → List ℤ
  | .kill _ => match s.main with | .kill _ _ pid => [pid] | _ => []
  | _ => []

/-- The process groups that a run signals. -/
def signalled : ShellState → List ShellStep → List ℤ
  | _, [] => []
  | s, l :: ls => sends s l ++ (shellSystem.next s l).elim [] fun s' => signalled s' ls

/-- The state that the command gives a job. -/
def BgFg.state : BgFg → JobState
  | .bg => .bg
  | .fg => .fg

/-- The groups that the command signals for a job: `fg` only one that is stopped. -/
def BgFg.groups (cmd : BgFg) (j : Job) : List ℤ :=
  if cmd = .bg ∨ j.state = .st then [j.pid] else []

/-- Where `do_bgfg` is, with what it has made of the job list and signalled so far. -/
inductive Acting (t : JobTable) (cmd : BgFg) (arg : List Char) :
    ShellPc → JobTable → List ℤ → Prop
  | unnamed (hno : ∀ i, ¬Names arg (t.job i)) : Acting t cmd arg .prompt t []
  | getJid {n : ℤ} (hn : ∀ j, Names arg j ↔ j.pid ≠ 0 ∧ 0 < j.jid ∧ j.jid = n) :
      Acting t cmd arg (.getJid cmd n) t []
  | getPid {n : ℤ} (hn : ∀ j, Names arg j ↔ j.pid ≠ 0 ∧ j.pid = n) :
      Acting t cmd arg (.getPid cmd n) t []
  | readPid {job : Fin MAXJOBS} (hjob : FirstNamed t arg job) :
      Acting t cmd arg (.readPid cmd job) t []
  | fgTest {job : Fin MAXJOBS} (hjob : FirstNamed t arg job) (hcmd : cmd = .fg) :
      Acting t cmd arg (.fgTest job (t.job job).pid) t []
  | kill {job : Fin MAXJOBS} (hjob : FirstNamed t arg job)
      (hcmd : cmd = .bg ∨ (t.job job).state = .st) :
      Acting t cmd arg (.kill cmd job (t.job job).pid) t []
  | setState {job : Fin MAXJOBS} (hjob : FirstNamed t arg job) :
      Acting t cmd arg (.setState cmd job (t.job job).pid) t (cmd.groups (t.job job))
  | done {job : Fin MAXJOBS} {x : ShellPc} (hjob : FirstNamed t arg job)
      (hx : x = .prompt ∨ x = .waitfg (t.job job).pid) :
      Acting t cmd arg x (setJobState t job cmd.state) (cmd.groups (t.job job))
  | failed {job : Fin MAXJOBS} (hjob : FirstNamed t arg job)
      (hcmd : cmd = .bg ∨ (t.job job).state = .st) :
      Acting t cmd arg .exited t [(t.job job).pid]

variable {s s' : ShellState} {l : ShellStep} {ls : List ShellStep} {sent : List ℤ}

theorem Acting.start (h : s.main = doBgfg cmd (arg :: rest)) :
    Acting s.table cmd arg s.main s.table [] := by
  rw [h]
  rcases doBgfg_cases cmd arg rest with ⟨hpc, hno⟩ | ⟨n, hpc, hn⟩ | ⟨n, hpc, hn⟩
  · exact hpc ▸ .unnamed fun i => hno _
  · exact hpc ▸ .getJid hn
  · exact hpc ▸ .getPid hn

/-- With a job and its pid `bg` goes on to `kill` and `fg` to its test. -/
theorem Acting.next (h : FirstNamed t arg job) :
    Acting t cmd arg (cmd.next job (t.job job).pid) t [] := by
  cases cmd with
  | bg => exact .kill h (.inl rfl)
  | fg => exact .fgTest h rfl

/-- A statement of `do_bgfg`. -/
theorem Acting.main (ht : Numbered t) (h : Acting t cmd arg s.main s.table sent)
    (hn : mainNext s = some s') : Acting t cmd arg s'.main s'.table sent := by
  generalize hpc : s.main = x at h
  generalize htable : s.table = u at h
  cases h with
  | unnamed | kill | failed => simp [mainNext, hpc] at hn
  | getJid hnames =>
    simp only [mainNext, hpc, htable] at hn
    split at hn <;> obtain rfl := Option.some.inj hn
    · exact .unnamed ((getjobjid_named ht hnames).2 ‹_›)
    · exact .readPid ((getjobjid_named ht hnames).1 _ ‹_›)
  | getPid hnames =>
    simp only [mainNext, hpc, htable] at hn
    split at hn <;> obtain rfl := Option.some.inj hn
    · exact .unnamed ((getjobpid_named ht hnames).2 ‹_›)
    · next hf =>
      obtain rfl := getjobpid_spec hf
      exact .next ((getjobpid_named ht hnames).1 _ hf)
  | readPid hjob =>
    simp only [mainNext, hpc, htable] at hn
    obtain rfl := Option.some.inj hn
    exact .next hjob
  | @fgTest job hjob hcmd =>
    simp only [mainNext, hpc, htable] at hn
    obtain rfl := Option.some.inj hn
    subst hcmd
    by_cases hst : (t.job job).state = .st
    · simpa only [if_pos hst] using .kill hjob (.inr hst)
    · have hgroups : BgFg.fg.groups (t.job job) = [] := if_neg (by simp [hst])
      simpa only [if_neg hst, hgroups] using (Acting.setState hjob : Acting t .fg arg _ t _)
  | @setState job hjob =>
    cases cmd with
    | bg =>
      simp only [mainNext, hpc, htable] at hn
      obtain rfl := Option.some.inj hn
      exact .done hjob (.inl rfl)
    | fg =>
      simp only [mainNext, hpc, htable] at hn
      obtain rfl := Option.some.inj hn
      exact .done hjob (.inr rfl)
  | done hjob hx =>
    rcases hx with rfl | rfl
    · simp [mainNext, hpc] at hn
    · simp only [mainNext, hpc, Option.some.injEq] at hn
      subst hn
      split_ifs
      · exact hpc ▸ htable ▸ .done hjob (.inr rfl)
      · exact htable ▸ .done hjob (.inl rfl)

/-- Without `Steps.handler` the handler stays away. -/
theorem handling_of_quiet (hh : s.handling = false) (hq : l.quiet = true)
    (hn : shellSystem.next s l = some s') : s'.handling = false := by
  cases steps_of_next hn with
  | handler => simp [ShellStep.quiet] at hq
  | main _ hr =>
    generalize s.main = x at hr
    cases hr <;> exact hh
  | reap hh' => simp [hh] at hh'
  | handlerReturn => rfl
  | command | eof | fork | forkFail | kill | killFail | setpgid | child => exact hh

/-- **A step** of a run without the handler. -/
theorem Acting.step (ht : Numbered t) (hh : s.handling = false)
    (h : Acting t cmd arg s.main s.table sent) (hq : l.quiet = true)
    (hn : shellSystem.next s l = some s') :
    Acting t cmd arg s'.main s'.table (sent ++ sends s l) := by
  cases steps_of_next hn with
  | command | eof | handler => simp [ShellStep.quiet] at hq
  | main =>
    simp only [shellSystem, hh, Bool.false_eq_true, if_false] at hn
    exact (List.append_nil sent).symm ▸ h.main ht hn
  | fork hpc | forkFail hpc =>
    generalize s.table = u at h
    rw [hpc] at h
    cases h with
    | done _ hx => simp at hx
  | kill hpc =>
    show Acting t cmd arg _ s.table _
    simp only [sends, hpc]
    generalize s.table = u at h
    rw [hpc] at h
    cases h with
    | kill hjob hcmd =>
      have : Acting t cmd arg _ t _ := .setState hjob
      rwa [BgFg.groups, if_pos hcmd] at this
    | done _ hx => simp at hx
  | killFail hpc =>
    show Acting t cmd arg _ s.table _
    simp only [sends, hpc]
    generalize s.table = u at h
    rw [hpc] at h
    cases h with
    | kill hjob hcmd => exact .failed hjob hcmd
    | done _ hx => simp at hx
  | reap hh' => simp [hh] at hh'
  | handlerReturn | setpgid | child => exact (List.append_nil sent).symm ▸ h

/-- **A run** without the handler. -/
theorem Acting.run (ht : Numbered t) (hh : s.handling = false)
    (h : Acting t cmd arg s.main s.table sent) (hls : ∀ l ∈ ls, l.quiet = true)
    (hr : shellSystem.run s ls = some s') :
    Acting t cmd arg s'.main s'.table (sent ++ signalled s ls) := by
  induction ls generalizing s sent with
  | nil =>
    obtain rfl := Option.some.inj hr
    exact (List.append_nil sent).symm ▸ h
  | cons l ls ih =>
    obtain ⟨s₁, hn, hr⟩ := Option.bind_eq_some_iff.1 hr
    have hq := hls l (by simp)
    have htail := ih (handling_of_quiet hh hq hn) (h.step ht hh hq hn)
      (fun l hl => hls l (List.mem_cons_of_mem _ hl)) hr
    rwa [signalled, hn, Option.elim_some, ← List.append_assoc]

/-! ### `do_bgfg` comes to its end -/

/-- A run without the handler brings `do_bgfg` to its end, where `fg` waits for its job. -/
def Returns (s : ShellState) : Prop :=
  ∃ ls s', (∀ l ∈ ls, l.quiet = true) ∧ shellSystem.run s ls = some s' ∧
    (s'.main = .prompt ∨ ∃ pid, s'.main = .waitfg pid)

theorem Returns.cons (hn : shellSystem.next s l = some s') (hq : l.quiet = true)
    (h : Returns s') : Returns s := by
  obtain ⟨ls, s'', hls, hr, hend⟩ := h
  exact ⟨l :: ls, s'', List.forall_mem_cons.2 ⟨hq, hls⟩,
    by rw [System.run_cons, hn]; exact hr, hend⟩

/-- A statement of the main program that goes on at `x`. -/
theorem Returns.main {x : ShellPc} (hh : s.handling = false)
    (hn : (mainNext s).map (fun s₁ => (s₁.handling, s₁.main)) = some (false, x))
    (h : ∀ s₁ : ShellState, s₁.handling = false → s₁.main = x → Returns s₁) : Returns s := by
  obtain ⟨s₁, hs₁, he⟩ := Option.map_eq_some_iff.1 hn
  obtain ⟨hh₁, hpc₁⟩ := Prod.mk.inj he
  have hnext : shellSystem.next s .main = some s₁ := by
    simp only [shellSystem, hh, Bool.false_eq_true, if_false, hs₁]
  exact .cons hnext rfl (h s₁ hh₁ hpc₁)

theorem returns_of_prompt (h : s.main = .prompt) : Returns s :=
  ⟨[], s, by simp, rfl, .inl h⟩

theorem returns_of_setState {pid : ℤ} (hh : s.handling = false)
    (h : s.main = .setState cmd job pid) : Returns s := by
  cases cmd with
  | bg =>
    exact .main (x := .prompt) hh (by simp [mainNext, h, hh]) fun _ _ => returns_of_prompt
  | fg =>
    exact .main (x := .waitfg pid) hh (by simp [mainNext, h, hh]) fun s₁ _ h₁ =>
      ⟨[], s₁, by simp, rfl, .inr ⟨pid, h₁⟩⟩

theorem returns_of_kill {pid : ℤ} (hh : s.handling = false) (h : s.main = .kill cmd job pid) :
    Returns s := by
  have hn : shellSystem.next s (.kill true) = some { s with
      children := s.children.map fun c => if c.pgid = pid then c.cont else c
      main := .setState cmd job pid } := by
    simp only [shellSystem, hh, killNext, h, Bool.false_eq_true, if_false, if_true]
  exact .cons hn rfl (returns_of_setState hh rfl)

theorem returns_of_fgTest {pid : ℤ} (hh : s.handling = false) (h : s.main = .fgTest job pid) :
    Returns s := by
  by_cases hst : (s.table.job job).state = .st
  · exact .main (x := .kill .fg job pid) hh (by simp [mainNext, h, hh, hst])
      fun _ => returns_of_kill
  · exact .main (x := .setState .fg job pid) hh (by simp [mainNext, h, hh, hst])
      fun _ => returns_of_setState

/-- Where `do_bgfg` goes on with a job and its pid. -/
theorem returns_of_next {pid : ℤ} (hh : s.handling = false) (h : s.main = cmd.next job pid) :
    Returns s := by
  cases cmd with
  | bg => exact returns_of_kill hh h
  | fg => exact returns_of_fgTest hh h

/-- **`do_bgfg` returns**, or waits for the job that it has put in the foreground. -/
theorem doBgfg_returns (hh : s.handling = false) (h : s.main = doBgfg cmd (arg :: rest)) :
    Returns s := by
  rcases doBgfg_cases cmd arg rest with ⟨hpc, -⟩ | ⟨n, hpc, -⟩ | ⟨n, hpc, -⟩
  · exact returns_of_prompt (h.trans hpc)
  · cases hf : getjobjid s.table n with
    | none =>
      exact .main (x := .prompt) hh (by simp [mainNext, h.trans hpc, hf, hh])
        fun _ _ => returns_of_prompt
    | some job =>
      refine .main (x := .readPid cmd job) hh (by simp [mainNext, h.trans hpc, hf, hh])
        fun s₁ hh₁ h₁ => ?_
      exact .main (x := cmd.next job (s₁.table.job job).pid) hh₁
        (by simp [mainNext, h₁, hh₁, BgFg.next]) fun _ => returns_of_next
  · cases hf : getjobpid s.table n with
    | none =>
      exact .main (x := .prompt) hh (by simp [mainNext, h.trans hpc, hf, hh])
        fun _ _ => returns_of_prompt
    | some job =>
      exact .main (x := cmd.next job n) hh (by simp [mainNext, h.trans hpc, hf, hh, BgFg.next])
        fun _ => returns_of_next

/-! ### Only the job that is named -/

/-- Nothing is done for an argument that names no job. -/
theorem Acting.of_unnamed {x : ShellPc} {u : JobTable} (h : Acting t cmd arg x u sent)
    (hno : ∀ i, ¬Names arg (t.job i)) : sent = [] ∧ u = t := by
  cases h with
  | unnamed | getJid | getPid => exact ⟨rfl, rfl⟩
  | readPid hjob | fgTest hjob | kill hjob | setState hjob | done hjob | failed hjob =>
    exact absurd hjob.1 (hno _)

/-- Nothing is done to any job but the one named. -/
theorem Acting.of_named {x : ShellPc} {u : JobTable} (h : Acting t cmd arg x u sent)
    (hjob : FirstNamed t arg job) :
    (∀ pid ∈ sent, pid = (t.job job).pid) ∧ (∀ i ≠ job, u.job i = t.job i) ∧
      u.nextjid = t.nextjid := by
  have hgroups : ∀ pid ∈ cmd.groups (t.job job), pid = (t.job job).pid := by
    intro pid hpid
    unfold BgFg.groups at hpid
    split_ifs at hpid
    · exact List.mem_singleton.1 hpid
    · exact absurd hpid List.not_mem_nil
  cases h with
  | unnamed hno => exact absurd hjob.1 (hno job)
  | getJid | getPid | readPid | fgTest | kill => exact ⟨by simp, fun _ _ => rfl, rfl⟩
  | failed hjob' =>
    obtain rfl := hjob.unique hjob'
    exact ⟨by simp, fun _ _ => rfl, rfl⟩
  | setState hjob' =>
    obtain rfl := hjob.unique hjob'
    exact ⟨hgroups, fun _ _ => rfl, rfl⟩
  | done hjob' =>
    obtain rfl := hjob.unique hjob'
    exact ⟨hgroups, fun i hi => Function.update_of_ne hi .., rfl⟩

/-- At the end of `do_bgfg` the job that is named has its new state. -/
theorem Acting.of_end {x : ShellPc} {u : JobTable} (h : Acting t cmd arg x u sent)
    (hjob : FirstNamed t arg job) (hx : x = .prompt ∨ ∃ pid, x = .waitfg pid) :
    u = setJobState t job cmd.state ∧ sent = cmd.groups (t.job job) := by
  cases h with
  | unnamed hno => exact absurd hjob.1 (hno job)
  | done hjob' =>
    obtain rfl := hjob.unique hjob'
    exact ⟨rfl, rfl⟩
  | getJid | getPid | readPid | fgTest | kill | setState | failed => simp at hx

/-- **`fg` and `bg` act only on the job they name.**  In every run without the handler:
if the argument names no live job, nothing is signalled and no job changes.  Otherwise
only the group of the first job it names is signalled and no other job changes; and
`do_bgfg` comes to its end, with the state of the command in that job and its group
signalled, by `fg` only if it was stopped. -/
theorem doBgfg_named (ht : Numbered s.table) (hh : s.handling = false)
    (hpc : s.main = doBgfg cmd (arg :: rest)) :
    ((∀ i, ¬Names arg (s.table.job i)) → ∀ ls s', (∀ l ∈ ls, l.quiet = true) →
      shellSystem.run s ls = some s' → signalled s ls = [] ∧ s'.table = s.table) ∧
    ∀ job, FirstNamed s.table arg job →
      (∀ ls s', (∀ l ∈ ls, l.quiet = true) → shellSystem.run s ls = some s' →
        (∀ pid ∈ signalled s ls, pid = (s.table.job job).pid) ∧
        (∀ i ≠ job, s'.table.job i = s.table.job i) ∧ s'.table.nextjid = s.table.nextjid ∧
        ((s'.main = .prompt ∨ ∃ pid, s'.main = .waitfg pid) →
          s'.table = setJobState s.table job cmd.state ∧
          signalled s ls = cmd.groups (s.table.job job))) ∧
      Returns s := by
  have hact {ls : List ShellStep} {s' : ShellState} (hls : ∀ l ∈ ls, l.quiet = true)
      (hr : shellSystem.run s ls = some s') :
      Acting s.table cmd arg s'.main s'.table (signalled s ls) :=
    (Acting.start hpc).run ht hh hls hr
  refine ⟨fun hno ls s' hls hr => (hact hls hr).of_unnamed hno, fun job hjob => ⟨?_, ?_⟩⟩
  · intro ls s' hls hr
    obtain ⟨hsent, hframe, hnext⟩ := (hact hls hr).of_named hjob
    exact ⟨hsent, hframe, hnext, (hact hls hr).of_end hjob⟩
  · exact doBgfg_returns hh hpc

/-- A job in the background stops, and then `bg %1` is read. -/
def bgOne : ShellState :=
  (shellSystem.run shellStart [.command ["/bin/cat".toList] true "/bin/cat &".toList, .main,
    .fork 7, .main, .main, .setpgid 7, .child 7 (.stopped false), .handler, .reap 7,
    .handlerReturn, .command ["bg".toList, "%1".toList] false "bg %1".toList]).getD shellStart

theorem doBgfg_named_bgOne : ∃ ls s', shellSystem.run bgOne ls = some s' ∧
    signalled bgOne ls = [7] ∧ (bgOne.table.job 0).state = .st ∧ (s'.table.job 0).state = .bg := by
  have hfirst : FirstNamed bgOne.table "%1".toList 0 :=
    ⟨⟨by decide, fun c hc => by simp at hc; subst hc; decide, by decide, by decide⟩, by simp⟩
  have hnumbered := (numbered_of_reach (System.Reach.getD_run (.init rfl) _ :
    shellSystem.Reach bgOne))
  have hpc : bgOne.main = doBgfg .bg ("%1".toList :: []) := rfl
  obtain ⟨hruns, ls, s', hls, hr, hend⟩ := (doBgfg_named hnumbered rfl hpc).2 0 hfirst
  obtain ⟨-, -, -, hdone⟩ := hruns ls s' hls hr
  obtain ⟨htable, hsignalled⟩ := hdone hend
  exact ⟨ls, s', hr, hsignalled, by decide, by rw [htable]; rfl⟩

end Shell
end CsappLabs
