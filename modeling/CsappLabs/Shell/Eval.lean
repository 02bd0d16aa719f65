/-
# The shell, its children and its handler

The read/eval loop of `shelllab/tsh.c` together with the processes it has
forked and `sigchld_handler`.  Every statement of `eval`, `do_bgfg` and `waitfg`
that touches the job list, the signal mask or another process is a step of its
own; so is every iteration of the handler's `waitpid` loop.  The handler can
start between any two steps of the main program while `SIGCHLD` is not blocked,
and then the main program rests until the handler returns.  Children exit, are
killed, stop and continue at any time; this covers the signals that
`sigint_handler` and `sigtstp_handler` forward.

A command line enters as the result of `parseline`, any words and any value of
`bg`.  The kernel gives a child a pid that no unreaped child has.  Printing is
left out: it reads the job list and changes nothing.

A child carries the return value of the `addjob` called for it (`added`).  No
step reads it.
-/

import CsappLabs.Lib.CInt
import CsappLabs.Shell.Jobs

namespace CsappLabs
namespace Shell

open Lib Lib.CInt

/-- What a child is doing. -/
inductive ChildState where
  | running
  /-- stopped; `waitpid` has reported it or not -/
  | stopped (reported : Bool)
  | exited
  | signaled
  deriving DecidableEq

/-- A forked child that has not been reaped after its termination. -/
structure Child where
  pid : ℤ
  /-- it has run `setpgid(0, 0)` -/
  leader : Bool
  state : ChildState
  added : Option Bool
  deriving DecidableEq

namespace Child

/-- The process group; `0` stands for the shell's own. -/
def pgid (c : Child) : ℤ := if c.leader then c.pid else 0

/-- `SIGCONT`: a stopped child runs again, and a stop not reported yet never is. -/
def cont (c : Child) : Child :=
  match c.state with
  | .stopped _ => { c with state := .running }
  | _ => c

/-- `waitpid(-1, &status, WNOHANG | WUNTRACED)` can report the child. -/
def waitable (c : Child) : Bool :=
  match c.state with
  | .running => false
  | .stopped reported => !reported
  | .exited | .signaled => true

end Child

/-- The `argv[0]` of `do_bgfg`. -/
inductive BgFg where
  | bg
  | fg
  deriving DecidableEq

/-- The next statement of the main program. -/
inductive ShellPc where
  /-- `fgets` in `main` -/
  | prompt
  /-- `sigprocmask(SIG_BLOCK, &sig_mask_child, &oldset)` -/
  | evalBlock (bg : Bool) (cmdline : List Char)
  /-- `fork()` -/
  | evalFork (bg : Bool) (cmdline : List Char)
  /-- `addjob(jobs, pid, bg == 1 ? BG : FG, cmdline)` -/
  | evalAdd (pid : ℤ) (bg : Bool) (cmdline : List Char)
  /-- `sigprocmask(SIG_SETMASK, &oldset, NULL)` -/
  | evalUnblock (pid : ℤ) (bg : Bool)
  /-- `while (pid == fgpid(jobs))` -/
  | waitfg (pid : ℤ)
  /-- `job = getjobjid(jobs, jid)` -/
  | getJid (cmd : BgFg) (jid : ℤ)
  /-- `pid = job->pid` -/
  | readPid (cmd : BgFg) (job : Fin MAXJOBS)
  /-- `job = getjobpid(jobs, pid)` -/
  | getPid (cmd : BgFg) (pid : ℤ)
  /-- `if (job->state == ST)` of `fg` -/
  | fgTest (job : Fin MAXJOBS) (pid : ℤ)
  /-- `kill(-pid, SIGCONT)` -/
  | kill (cmd : BgFg) (job : Fin MAXJOBS) (pid : ℤ)
  /-- `job->state = BG` or `job->state = FG` -/
  | setState (cmd : BgFg) (job : Fin MAXJOBS) (pid : ℤ)
  /-- the shell has exited or crashed -/
  | exited
  deriving DecidableEq

/-- The shell: the job list, the unreaped children, whether `SIGCHLD` is blocked
and was blocked in `oldset`, whether the handler runs, and the main program. -/
structure ShellState where
  table : JobTable
  children : List Child
  blocked : Bool
  oldset : Bool
  handling : Bool
  main : ShellPc

/-- A step. -/
inductive ShellStep where
  /-- `fgets` and `parseline` -/
  | command (argv : List (List Char)) (bg : Bool) (cmdline : List Char)
  /-- end of file on `stdin` -/
  | eof
  /-- the next statement of the main program -/
  | main
  /-- `fork()` returns this pid -/
  | fork (pid : ℤ)
  /-- `fork()` returns `-1` -/
  | forkFail
  /-- `kill(-pid, SIGCONT)` returns `0` or `-1` -/
  | kill (ok : Bool)
  /-- `sigchld_handler` starts -/
  | handler
  /-- its `waitpid` returns this pid -/
  | reap (pid : ℤ)
  /-- its `waitpid` returns no pid -/
  | handlerReturn
  /-- the child runs `setpgid(0, 0)` -/
  | setpgid (pid : ℤ)
  /-- the child's state changes -/
  | child (pid : ℤ) (state : ChildState)
  deriving DecidableEq

/-! ### The main program -/

/-- The digits of `"0123456789"`. -/
def isDigits (s : List Char) : Bool := s.all Char.isDigit

/-- `atoi` of a string of digits. -/
def atoi (s : List Char) : ℤ :=
  int32 (s.foldl (fun n c => 10 * n + (c.toNat - 48 : ℕ)) 0)

/-- `do_bgfg` up to the lookup of the job. -/
def doBgfg (cmd : BgFg) : List (List Char) → ShellPc
  | [] => .prompt
  | ('%' :: digits) :: _ => if isDigits digits then .getJid cmd (atoi digits) else .prompt
  | digits :: _ => if isDigits digits then .getPid cmd (atoi digits) else .prompt

/-- `eval` with `builtin_cmd`, up to the first statement that is not local. -/
def eval (argv : List (List Char)) (bg : Bool) (cmdline : List Char) : ShellPc :=
  match argv with
  | [] => .prompt
  | cmd :: args =>
    if cmd = "quit".toList then .exited
    else if cmd = "jobs".toList then .prompt
    else if cmd = "bg".toList then doBgfg .bg args
    else if cmd = "fg".toList then doBgfg .fg args
    else .evalBlock bg cmdline

/-- `job->state = state` -/
def setJobState (t : JobTable) (job : Fin MAXJOBS) (state : JobState) : JobTable :=
  { t with job := Function.update t.job job { t.job job with state := state } }

/-- The state a child's `addjob` is recorded in. -/
def recordAdd (pid : ℤ) (ret : Bool) (c : Child) : Child :=
  if c.pid = pid then { c with added := some ret } else c

/-- A statement of the main program that involves no choice of the kernel. -/
def mainNext (s : ShellState) : Option ShellState :=
  match s.main with
  | .prompt | .evalFork .. | .kill .. | .exited => none
  | .evalBlock bg cmdline =>
      some { s with oldset := s.blocked, blocked := true, main := .evalFork bg cmdline }
  | .evalAdd pid bg cmdline =>
      let r := addjob s.table pid (if bg then .bg else .fg) cmdline
      some { s with
        table := r.1
        children := s.children.map (recordAdd pid r.2)
        main := .evalUnblock pid bg }
  | .evalUnblock pid bg =>
      some { s with blocked := s.oldset, main := if bg then .prompt else .waitfg pid }
  | .waitfg pid => some (if pid = fgpid s.table then s else { s with main := .prompt })
  | .getJid cmd jid =>
      match getjobjid s.table jid with
      | none => some { s with main := .prompt }
      | some job => some { s with main := .readPid cmd job }
  | .readPid cmd job =>
      let pid := (s.table.job job).pid
      some { s with main := match cmd with | .bg => .kill .bg job pid | .fg => .fgTest job pid }
  | .getPid cmd pid =>
      match getjobpid s.table pid with
      | none => some { s with main := .prompt }
      | some job =>
        some { s with main := match cmd with | .bg => .kill .bg job pid | .fg => .fgTest job pid }
  | .fgTest job pid =>
      some { s with
        main := if (s.table.job job).state = .st then .kill .fg job pid else .setState .fg job pid }
  | .setState .bg job _ => some { s with table := setJobState s.table job .bg, main := .prompt }
  | .setState .fg job pid =>
      some { s with table := setJobState s.table job .fg, main := .waitfg pid }

/-- `kill(-pid, SIGCONT)`: it cannot fail while the group has a member, and the
shell exits when it fails. -/
def killNext (s : ShellState) (ok : Bool) : Option ShellState :=
  match s.main with
  | .kill cmd job pid =>
      if ok then
        some { s with
          children := s.children.map fun c => if c.pgid = pid then c.cont else c
          main := .setState cmd job pid }
      else if pid = 0 ∨ s.children.any (fun c => c.pgid = pid) then none
      else some { s with main := .exited }
  | _ => none

/-! ### The handler -/

/-- An iteration of the loop of `sigchld_handler` in which `waitpid` returns `pid`.
The branches for a killed and for a stopped child read `job`, and the shell
crashes where it is `NULL`. -/
def reapNext (s : ShellState) (pid : ℤ) : Option ShellState :=
  match s.children.find? fun c => c.pid = pid with
  | none => none
  | some c =>
    match c.state with
    | .exited =>
        some { s with
          table := (deletejob s.table pid).1
          children := s.children.filter fun c => c.pid ≠ pid }
    | .signaled =>
        match getjobpid s.table pid with
        | none =>
            some { s with children := s.children.filter fun c => c.pid ≠ pid, main := .exited }
        | some _ =>
            some { s with
              table := (deletejob s.table pid).1
              children := s.children.filter fun c => c.pid ≠ pid }
    | .stopped false =>
        let children := s.children.map fun c =>
          if c.pid = pid then { c with state := .stopped true } else c
        match getjobpid s.table pid with
        | none => some { s with children := children, main := .exited }
        | some job => some { s with table := setJobState s.table job .st, children := children }
    | _ => none

/-! ### The children -/

/-- A child can go from one state to the other by itself or by a signal. -/
def ChildState.canGo : ChildState → ChildState → Bool
  | .running, .stopped false | .stopped _, .running => true
  | .running, .exited => true
  | .running, .signaled | .stopped _, .signaled => true
  | _, _ => false

/-- The state after `initjobs`. -/
def shellStart : ShellState :=
  { table := initjobs, children := [], blocked := false, oldset := false, handling := false
    main := .prompt }

/-- The shell with its children under an arbitrary scheduler. -/
def shellSystem : System ShellState ShellStep where
  init s := s = shellStart
  next s
    | .command argv bg cmdline =>
        if s.handling = false ∧ s.main = .prompt then
          some { s with main := eval argv bg cmdline }
        else none
    | .eof =>
        if s.handling = false ∧ s.main = .prompt then some { s with main := .exited } else none
    | .main => if s.handling then none else mainNext s
    | .fork pid =>
        match s.main with
        | .evalFork bg cmdline =>
            if s.handling = false ∧ 1 ≤ pid ∧ ∀ c ∈ s.children, c.pid ≠ pid then
              some { s with
                children := ⟨pid, false, .running, none⟩ :: s.children
                main := .evalAdd pid bg cmdline }
            else none
        | _ => none
    | .forkFail =>
        match s.main with
        | .evalFork bg cmdline =>
            if s.handling then none else some { s with main := .evalAdd (-1) bg cmdline }
        | _ => none
    | .kill ok => if s.handling then none else killNext s ok
    | .handler =>
        if s.handling = false ∧ s.blocked = false ∧ s.main ≠ .exited then
          some { s with handling := true }
        else none
    | .reap pid => if s.handling ∧ s.main ≠ .exited then reapNext s pid else none
    | .handlerReturn =>
        if s.handling ∧ s.main ≠ .exited ∧ ∀ c ∈ s.children, c.waitable = false then
          some { s with handling := false }
        else none
    | .setpgid pid =>
        some { s with
          children := s.children.map fun c =>
            if c.pid = pid ∧ c.state = .running then { c with leader := true } else c }
    | .child pid state =>
        if s.children.any fun c => c.pid = pid ∧ c.state.canGo state then
          some { s with
            children := s.children.map fun c => if c.pid = pid then { c with state := state } else c }
        else none

/-! ### What a step does -/

/-- Where `do_bgfg` goes on with a job and its pid. -/
def BgFg.next (cmd : BgFg) (job : Fin MAXJOBS) (pid : ℤ) : ShellPc :=
  match cmd with
  | .bg => .kill .bg job pid
  | .fg => .fgTest job pid

/-- What a statement of the main program makes of the state, by its place. -/
inductive MainRuns (s : ShellState) : ShellPc → ShellState → Prop
  | evalBlock {bg : Bool} {cmdline : List Char} : MainRuns s (.evalBlock bg cmdline)
      { s with oldset := s.blocked, blocked := true, main := .evalFork bg cmdline }
  | evalAdd {pid : ℤ} {bg : Bool} {cmdline : List Char} : MainRuns s (.evalAdd pid bg cmdline)
      { s with
        table := (addjob s.table pid (if bg then .bg else .fg) cmdline).1
        children := s.children.map
          (recordAdd pid (addjob s.table pid (if bg then .bg else .fg) cmdline).2)
        main := .evalUnblock pid bg }
  | evalUnblock {pid : ℤ} {bg : Bool} : MainRuns s (.evalUnblock pid bg)
      { s with blocked := s.oldset, main := if bg then .prompt else .waitfg pid }
  | wait {pid : ℤ} (hw : pid = fgpid s.table) : MainRuns s (.waitfg pid) s
  | waited {pid : ℤ} (hw : pid ≠ fgpid s.table) : MainRuns s (.waitfg pid) { s with main := .prompt }
  | noJid {cmd : BgFg} {jid : ℤ} : MainRuns s (.getJid cmd jid) { s with main := .prompt }
  | getJid {cmd : BgFg} {jid : ℤ} {job : Fin MAXJOBS} :
      MainRuns s (.getJid cmd jid) { s with main := .readPid cmd job }
  | readPid {cmd : BgFg} {job : Fin MAXJOBS} :
      MainRuns s (.readPid cmd job) { s with main := cmd.next job (s.table.job job).pid }
  | noPid {cmd : BgFg} {pid : ℤ} : MainRuns s (.getPid cmd pid) { s with main := .prompt }
  | getPid {cmd : BgFg} {pid : ℤ} {job : Fin MAXJOBS} (hf : getjobpid s.table pid = some job) :
      MainRuns s (.getPid cmd pid) { s with main := cmd.next job pid }
  | fgTest {job : Fin MAXJOBS} {pid : ℤ} {x : ShellPc}
      (hx : x = .kill .fg job pid ∨ x = .setState .fg job pid) :
      MainRuns s (.fgTest job pid) { s with main := x }
  | setBg {job : Fin MAXJOBS} {pid : ℤ} : MainRuns s (.setState .bg job pid)
      { s with table := setJobState s.table job .bg, main := .prompt }
  | setFg {job : Fin MAXJOBS} {pid : ℤ} : MainRuns s (.setState .fg job pid)
      { s with table := setJobState s.table job .fg, main := .waitfg pid }

theorem mainRuns_of_next {s s' : ShellState} (hn : mainNext s = some s') :
    MainRuns s s.main s' := by
  cases hpc : s.main with
  | prompt | evalFork | kill | exited => simp [mainNext, hpc] at hn
  | waitfg pid =>
    simp only [mainNext, hpc, Option.some.injEq] at hn
    split_ifs at hn with hw <;> subst hn
    · exact .wait hw
    · exact .waited hw
  | getJid cmd jid | getPid cmd pid =>
    simp only [mainNext, hpc] at hn
    split at hn <;> obtain rfl := Option.some.inj hn <;> constructor
    all_goals assumption
  | fgTest job pid =>
    simp only [mainNext, hpc, Option.some.injEq] at hn
    subst hn
    refine .fgTest ?_
    split_ifs
    · exact .inl rfl
    · exact .inr rfl
  | setState cmd job pid =>
    cases cmd <;> simp only [mainNext, hpc, Option.some.injEq] at hn <;> subst hn <;> constructor
  | evalBlock | evalAdd | evalUnblock | readPid =>
    simp only [mainNext, hpc, Option.some.injEq] at hn
    subst hn
    constructor

/-- What an iteration of the handler makes of the state. -/
inductive Reaps (s : ShellState) (pid : ℤ) : ShellState → Prop
  | exited {c : Child} (hf : s.children.find? (fun c => c.pid = pid) = some c)
      (hst : c.state = .exited) : Reaps s pid { s with
        table := (deletejob s.table pid).1
        children := s.children.filter fun c => c.pid ≠ pid }
  | signaled {c : Child} (hf : s.children.find? (fun c => c.pid = pid) = some c)
      (hst : c.state = .signaled) : Reaps s pid { s with
        table := (deletejob s.table pid).1
        children := s.children.filter fun c => c.pid ≠ pid }
  | signaledCrash {c : Child} (hf : s.children.find? (fun c => c.pid = pid) = some c)
      (hst : c.state = .signaled) (hno : getjobpid s.table pid = none) : Reaps s pid { s with
        children := s.children.filter fun c => c.pid ≠ pid
        main := .exited }
  | stopped {c : Child} {job : Fin MAXJOBS}
      (hf : s.children.find? (fun c => c.pid = pid) = some c) (hst : c.state = .stopped false)
      (hjob : getjobpid s.table pid = some job) : Reaps s pid { s with
        table := setJobState s.table job .st
        children := s.children.map fun c =>
          if c.pid = pid then { c with state := .stopped true } else c }
  | stoppedCrash {c : Child} (hf : s.children.find? (fun c => c.pid = pid) = some c)
      (hst : c.state = .stopped false) (hno : getjobpid s.table pid = none) : Reaps s pid { s with
        children := s.children.map fun c =>
          if c.pid = pid then { c with state := .stopped true } else c
        main := .exited }

theorem reaps_of_next {s s' : ShellState} {pid : ℤ} (hn : reapNext s pid = some s') :
    Reaps s pid s' := by
  unfold reapNext at hn
  cases hf : s.children.find? fun c => c.pid = pid with
  | none => simp [hf] at hn
  | some c =>
    simp only [hf] at hn
    cases hst : c.state with
    | running => simp [hst] at hn
    | exited =>
      simp only [hst, Option.some.injEq] at hn
      subst hn
      exact .exited hf hst
    | signaled =>
      simp only [hst] at hn
      split at hn <;> obtain rfl := Option.some.inj hn
      · exact .signaledCrash hf hst ‹_›
      · exact .signaled hf hst
    | stopped reported =>
      cases reported with
      | true => simp [hst] at hn
      | false =>
        simp only [hst] at hn
        split at hn <;> obtain rfl := Option.some.inj hn
        · exact .stoppedCrash hf hst ‹_›
        · exact .stopped hf hst ‹_›

/-- What a step makes of the state. -/
inductive Steps (s : ShellState) : ShellStep → ShellState → Prop
  | command {argv : List (List Char)} {bg : Bool} {cmdline : List Char} (hpc : s.main = .prompt) :
      Steps s (.command argv bg cmdline) { s with main := eval argv bg cmdline }
  | eof (hpc : s.main = .prompt) : Steps s .eof { s with main := .exited }
  | main {s' : ShellState} (hh : s.handling = false) (hr : MainRuns s s.main s') : Steps s .main s'
  | fork {pid : ℤ} {bg : Bool} {cmdline : List Char} (hpc : s.main = .evalFork bg cmdline)
      (hpid : 1 ≤ pid) (hnew : ∀ c ∈ s.children, c.pid ≠ pid) : Steps s (.fork pid) { s with
        children := ⟨pid, false, .running, none⟩ :: s.children
        main := .evalAdd pid bg cmdline }
  | forkFail {bg : Bool} {cmdline : List Char} (hpc : s.main = .evalFork bg cmdline) :
      Steps s .forkFail { s with main := .evalAdd (-1) bg cmdline }
  | kill {cmd : BgFg} {job : Fin MAXJOBS} {pid : ℤ} (hpc : s.main = .kill cmd job pid) :
      Steps s (.kill true) { s with
        children := s.children.map fun c => if c.pgid = pid then c.cont else c
        main := .setState cmd job pid }
  | killFail {cmd : BgFg} {job : Fin MAXJOBS} {pid : ℤ} (hpc : s.main = .kill cmd job pid) :
      Steps s (.kill false) { s with main := .exited }
  | handler (hb : s.blocked = false) : Steps s .handler { s with handling := true }
  | reap {pid : ℤ} {s' : ShellState} (hh : s.handling = true) (hne : s.main ≠ .exited)
      (hr : Reaps s pid s') : Steps s (.reap pid) s'
  | handlerReturn : Steps s .handlerReturn { s with handling := false }
  | setpgid {pid : ℤ} : Steps s (.setpgid pid) { s with
      children := s.children.map fun c =>
        if c.pid = pid ∧ c.state = .running then { c with leader := true } else c }
  | child {pid : ℤ} {state : ChildState} : Steps s (.child pid state) { s with
      children := s.children.map fun c => if c.pid = pid then { c with state := state } else c }

/-- **Every step** is one of these. -/
theorem steps_of_next {s s' : ShellState} {l : ShellStep} (hn : shellSystem.next s l = some s') :
    Steps s l s' := by
  cases l with
  | command | eof =>
    simp only [shellSystem, Option.ite_none_right_eq_some, Option.some.injEq] at hn
    obtain ⟨⟨-, hpc⟩, rfl⟩ := hn
    constructor
    exact hpc
  | main =>
    simp only [shellSystem, Option.ite_none_left_eq_some, Bool.not_eq_true] at hn
    exact .main hn.1 (mainRuns_of_next hn.2)
  | fork pid =>
    simp only [shellSystem] at hn
    split at hn
    · next bg cmdline hpc =>
      rw [Option.ite_none_right_eq_some, Option.some.injEq] at hn
      obtain ⟨⟨-, hpid, hnew⟩, rfl⟩ := hn
      exact .fork hpc hpid hnew
    · exact absurd hn (by simp)
  | forkFail =>
    simp only [shellSystem] at hn
    split at hn
    · next bg cmdline hpc =>
      rw [Option.ite_none_left_eq_some, Option.some.injEq] at hn
      obtain ⟨-, rfl⟩ := hn
      exact .forkFail hpc
    · exact absurd hn (by simp)
  | kill ok =>
    simp only [shellSystem, Option.ite_none_left_eq_some] at hn
    obtain ⟨-, hn⟩ := hn
    unfold killNext at hn
    split at hn
    · next cmd job pid hpc =>
      cases ok with
      | true =>
        obtain rfl := Option.some.inj hn
        exact .kill hpc
      | false =>
        simp only [Bool.false_eq_true, if_false] at hn
        split_ifs at hn
        obtain rfl := Option.some.inj hn
        exact .killFail hpc
    · exact absurd hn (by simp)
  | handler =>
    simp only [shellSystem, Option.ite_none_right_eq_some, Option.some.injEq] at hn
    obtain ⟨⟨-, hb, -⟩, rfl⟩ := hn
    exact .handler hb
  | reap pid =>
    simp only [shellSystem, Option.ite_none_right_eq_some] at hn
    exact .reap hn.1.1 hn.1.2 (reaps_of_next hn.2)
  | handlerReturn | child =>
    simp only [shellSystem, Option.ite_none_right_eq_some, Option.some.injEq] at hn
    obtain ⟨-, rfl⟩ := hn
    constructor
  | setpgid pid =>
    obtain rfl := Option.some.inj hn
    constructor

/-- What a step makes of the job list. -/
inductive Relists (s : ShellState) (l : ShellStep) : JobTable → Prop
  | same : Relists s l s.table
  | add {pid : ℤ} {bg : Bool} {cmdline : List Char} (hl : l = .main)
      (hpc : s.main = .evalAdd pid bg cmdline) :
      Relists s l (addjob s.table pid (if bg then .bg else .fg) cmdline).1
  | delete (pid : ℤ) : Relists s l (deletejob s.table pid).1
  | assign (job : Fin MAXJOBS) (state : JobState) : Relists s l (setJobState s.table job state)

/-- **The job list after a step**: one call on it, or an assignment to a state. -/
theorem relists_of_next {s s' : ShellState} {l : ShellStep} (hn : shellSystem.next s l = some s') :
    Relists s l s'.table := by
  cases steps_of_next hn with
  | main _ hr =>
    generalize hpc : s.main = x at hr
    cases hr with
    | evalAdd => exact .add rfl hpc
    | setBg | setFg => exact .assign ..
    | evalBlock | evalUnblock | wait | waited | noJid | getJid | readPid | noPid | getPid
    | fgTest => exact .same
  | reap _ _ hr =>
    cases hr with
    | exited | signaled => exact .delete _
    | stopped => exact .assign ..
    | signaledCrash | stoppedCrash => exact .same
  | command | eof | fork | forkFail | kill | killFail | handler | handlerReturn | setpgid
  | child => exact .same

end Shell
end CsappLabs
