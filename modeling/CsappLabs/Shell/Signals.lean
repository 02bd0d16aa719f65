/-
# What the signal handlers find

`sigchld_handler` of `shelllab/tsh.c` looks up the job of the child that it reaps
and reads it when the child was killed or has stopped.  `sigint_handler` and
`sigtstp_handler` pass their signal on to the process group of the foreground job.

Both rely on something that `eval` leaves open.  `eval` does not look at what
`addjob` returns, so a child forked while the list is full has no job
(`handler_finds_job`); and it leaves it to the child to make its process group, so
until the child has run that far the group is not there (`ctrl_reaches_job`).
-/

import CsappLabs.Shell.Children

namespace CsappLabs
namespace Shell

open Lib

/-- The child has not terminated. -/
def Child.alive (c : Child) : Bool :=
  match c.state with
  | .running | .stopped _ => true
  | _ => false

/-- `sigint_handler` and `sigtstp_handler`: the living processes that their
`kill(-pid, sig)` reaches, the members of the process group. -/
def ctrlHandler (s : ShellState) : List ℤ :=
  let pid := fgpid s.table
  if pid > 0 then (s.children.filter fun c => c.alive ∧ c.pgid = pid).map Child.pid else []

variable {s s' : ShellState} {l : ShellStep}

/-! ### Children from step to step -/

/-- Where a child of the state after a step comes from. -/
inductive Descends (s : ShellState) : ShellStep → Child → Prop
  | newborn {l : ShellStep} {c' : Child} (hadd : c'.added = none) : Descends s l c'
  | kept {l : ShellStep} {c c' : Child} (hc : c ∈ s.children) (hpid : c'.pid = c.pid)
      (hlead : c.leader = true → c'.leader = true) (hadd : c'.added = c.added) : Descends s l c'
  | added {c c' : Child} {bg : Bool} {cmdline : List Char} (hc : c ∈ s.children)
      (hmain : s.main = .evalAdd c.pid bg cmdline) (hpid : c'.pid = c.pid)
      (hlead : c'.leader = c.leader)
      (hadd : c'.added = some (addjob s.table c.pid (if bg then .bg else .fg) cmdline).2) :
      Descends s .main c'

/-- A child that is still there. -/
theorem Descends.of_mem {c : Child} (hc : c ∈ s.children) : Descends s l c :=
  .kept hc rfl id rfl

/-- A step that changes what children do. -/
theorem Descends.of_map {f : Child → Child} {c' : Child}
    (hf : ∀ c, (f c).pid = c.pid ∧ (c.leader = true → (f c).leader = true) ∧ (f c).added = c.added)
    (hc : c' ∈ s.children.map f) : Descends s l c' := by
  obtain ⟨c, hmem, rfl⟩ := List.mem_map.1 hc
  exact .kept hmem (hf c).1 (hf c).2.1 (hf c).2.2

/-- A statement of the main program. -/
theorem descends_of_mainRuns (hr : MainRuns s s.main s') {c' : Child} (hc : c' ∈ s'.children) :
    Descends s .main c' := by
  generalize hpc : s.main = x at hr
  cases hr with
  | @evalAdd pid bg cmdline =>
    obtain ⟨c, hmem, rfl⟩ := List.mem_map.1 hc
    by_cases hpid : c.pid = pid
    · subst hpid
      exact .added hmem hpc (by simp [recordAdd]) (by simp [recordAdd]) (by simp [recordAdd])
    · have he : recordAdd pid (addjob s.table pid (if bg then .bg else .fg) cmdline).2 c = c :=
        if_neg hpid
      rw [he]
      exact .of_mem hmem
  | evalBlock | evalUnblock | wait | waited | noJid | getJid | readPid | noPid | getPid | fgTest
  | setBg | setFg => exact .of_mem hc

/-- An iteration of `sigchld_handler`. -/
theorem descends_of_reaps {pid : ℤ} (hr : Reaps s pid s') {c' : Child}
    (hc : c' ∈ s'.children) : Descends s l c' := by
  cases hr with
  | exited | signaled | signaledCrash => exact .of_mem (List.mem_filter.1 hc).1
  | stopped | stoppedCrash => exact .of_map (fun c => by split_ifs <;> exact ⟨rfl, id, rfl⟩) hc

/-- **Every child** is new, was there before, or has just been added. -/
theorem descends_of_next (hn : shellSystem.next s l = some s') {c' : Child}
    (hc : c' ∈ s'.children) : Descends s l c' := by
  cases steps_of_next hn with
  | command | eof | forkFail | killFail | handler | handlerReturn => exact .of_mem hc
  | main _ hr => exact descends_of_mainRuns hr hc
  | fork =>
    rcases List.mem_cons.1 hc with rfl | hc
    · exact .newborn rfl
    · exact .of_mem hc
  | kill =>
    refine .of_map (fun c => ?_) hc
    split_ifs
    · unfold Child.cont
      split <;> exact ⟨rfl, id, rfl⟩
    · exact ⟨rfl, id, rfl⟩
  | reap _ _ hr => exact descends_of_reaps hr hc
  | setpgid =>
    exact .of_map (fun c => by split_ifs <;> exact ⟨rfl, fun _ => by first | rfl | assumption, rfl⟩) hc
  | child => exact .of_map (fun c => by split_ifs <;> exact ⟨rfl, id, rfl⟩) hc

/-! ### The job of a reaped child -/

/-- The handler reads the job of the child that it reaps: `waitpid` reports that the
child was killed or has stopped. -/
def ReadsJob (s : ShellState) (pid : ℤ) : Prop :=
  ∃ c ∈ s.children, c.pid = pid ∧ (c.state = .signaled ∨ c.state = .stopped false)

/-- If the step reaps a child and reads its job, the job is there. -/
def FindsJob (s : ShellState) (l : ShellStep) : Prop :=
  ∀ pid, l = .reap pid → ReadsJob s pid → getjobpid s.table pid ≠ none

/-- If the step reaps a child and reads its job, `addjob` has entered the child. -/
def ReapsAdded (s : ShellState) (l : ShellStep) : Prop :=
  ∀ pid, l = .reap pid → ReadsJob s pid → ∃ c ∈ s.children, c.pid = pid ∧ c.added = some true

/-- If the step adds a child, the list has a free entry. -/
def AddsToFree (s : ShellState) (l : ShellStep) : Prop :=
  l = .main → ∀ pid bg cmdline, s.main = .evalAdd pid bg cmdline → 1 ≤ pid →
    ∃ i, (s.table.job i).pid = 0

/-- **The handler finds the job** exactly if the child was entered. -/
theorem findsJob_iff (h : shellSystem.Reach s) (hn : shellSystem.next s l = some s') :
    FindsJob s l ↔ ReapsAdded s l := by
  obtain ⟨hm, hl⟩ := ledger_exact h
  have hkid : ∀ c ∈ s.children, (c.pid, c.added) ∈ s.ledger.kids := fun c hc =>
    List.mem_map.2 ⟨c, hc, rfl⟩
  refine forall_congr' fun pid => forall_congr' fun hpid => forall_congr' fun hread => ?_
  subst hpid
  simp only [shellSystem, Option.ite_none_right_eq_some] at hn
  -- the handler runs, so no child is about to be added
  have hpc : s.main.inBlock = false := hm.blocked.symm.trans (hm.handling hn.1.1)
  obtain ⟨c, hc, rfl, -⟩ := hread
  have hpos := hl.pos _ (hkid c hc)
  constructor
  · intro hfind
    obtain ⟨i, hi⟩ := Option.ne_none_iff_exists'.1 hfind
    have hown := hl.owned i (by
      show (s.table.job i).pid ≠ 0
      rw [getjobpid_spec hi]
      omega)
    obtain ⟨d, hd, he⟩ := List.mem_map.1 hown
    obtain ⟨hpid, hadd⟩ := Prod.mk.inj he
    exact ⟨d, hd, hpid.trans (getjobpid_spec hi), hadd⟩
  · rintro ⟨d, hd, hpid, hadd⟩ hnone
    have hlist := hkid d hd
    rw [hpid, hadd] at hlist
    obtain ⟨i, hi⟩ := hl.listed _ hlist
    exact getjobpid_none hpos hnone i hi

/-- Where every job finds a free entry, `addjob` never refuses a child. -/
theorem added_of_reachBy (h : shellSystem.ReachBy AddsToFree s) :
    ∀ c ∈ s.children, c.added ≠ some false := by
  refine h.induct (P := fun s => ∀ c ∈ s.children, c.added ≠ some false) ?_ ?_
  · rintro s rfl c hc
    exact absurd hc List.not_mem_nil
  · intro s l s' hr ih hok hn c' hc'
    obtain ⟨-, hl⟩ := ledger_exact hr.reach
    cases descends_of_next hn hc' with
    | newborn hadd => simp [hadd]
    | kept hc hpid hlead hadd => exact hadd ▸ ih _ hc
    | @added c _ bg cmdline hc hmain hpid hlead hadd =>
      have hpos := hl.pos _ (List.mem_map.2 ⟨c, hc, rfl⟩)
      obtain ⟨i, hi⟩ := hok rfl _ _ _ hmain hpos
      rcases addjob_cases s.table c.pid (if bg then .bg else .fg) cmdline with
        ⟨-, hlt | hfull⟩ | ⟨k, -, -, htrue, -⟩
      · simp only at hpos
        omega
      · exact absurd hi (hfull i)
      · rw [hadd, htrue]
        simp

/-- **When the handler finds its job.**  In every state reached, whatever the next
step: the handler finds the job of a child whose killing or stopping it reaps exactly
if `addjob` has entered the child; and it has if the run always found a free entry. -/
theorem handler_finds_job (h : shellSystem.Reach s) (hn : shellSystem.next s l = some s') :
    (FindsJob s l ↔ ReapsAdded s l) ∧ (shellSystem.ReachBy AddsToFree s → FindsJob s l) := by
  refine ⟨findsJob_iff h hn, fun hby => (findsJob_iff h hn).2 ?_⟩
  rintro pid rfl ⟨c, hc, hpid, -⟩
  simp only [shellSystem, Option.ite_none_right_eq_some] at hn
  obtain ⟨hm, -⟩ := ledger_exact h
  refine ⟨c, hc, hpid, ?_⟩
  have hnone := added_ne_none h (hm.handling hn.1.1) hc
  have hfalse := added_of_reachBy hby c hc
  rcases hadd : c.added with _ | _ | _
  · exact absurd hadd hnone
  · exact absurd hadd hfalse
  · rfl

/-- A job in the foreground stops, and the handler runs. -/
def stoppedJob : ShellState :=
  (shellSystem.run shellStart [.command ["/bin/vi".toList] false "/bin/vi".toList, .main, .fork 5,
    .setpgid 5, .main, .main, .child 5 (.stopped false), .handler]).getD shellStart

theorem handler_finds_job_stopped :
    ReadsJob stoppedJob 5 ∧ (FindsJob stoppedJob (.reap 5) ↔ ReapsAdded stoppedJob (.reap 5)) :=
  ⟨⟨⟨5, true, .stopped false, some true⟩, by decide, by decide⟩,
    (handler_finds_job (System.Reach.getD_run (.init rfl) _)
      (Option.some_get (by decide : (shellSystem.next stoppedJob (.reap 5)).isSome)).symm).1⟩

/-- Seventeen jobs are started in the background, and the last one is killed. -/
def seventeenJobs : List ShellStep :=
  (List.range 17).flatMap (fun i => [.command ["/bin/cat".toList] true "/bin/cat &".toList, .main,
    .fork (i + 1), .main, .main]) ++ [.child 17 .signaled, .handler]

/-- **A child without a job.**  The handler reaps the child with pid `17` and reads
through a null pointer. -/
theorem handler_misses_job :
    ∃ s, shellSystem.run shellStart seventeenJobs = some s ∧ s.handling = true ∧
      (shellSystem.next s (.reap 17)).isSome ∧ ReadsJob s 17 ∧ getjobpid s.table 17 = none :=
  ⟨_, rfl, by decide, by decide, ⟨⟨17, false, .signaled, some false⟩, by decide, by decide⟩,
    by decide⟩

/-! ### The process group of the foreground job -/

/-- While the process of the foreground job lives, the signal handlers reach it. -/
def ReachesJob (s : ShellState) : Prop :=
  ∀ c ∈ s.children, c.alive = true → 0 < fgpid s.table → c.pid = fgpid s.table →
    c.pid ∈ ctrlHandler s

/-- While the process of the foreground job lives, it has run `setpgid(0, 0)`. -/
def JobLeads (s : ShellState) : Prop :=
  ∀ c ∈ s.children, c.alive = true → 0 < fgpid s.table → c.pid = fgpid s.table → c.leader = true

/-- If the step adds a child, the child has run `setpgid(0, 0)`. -/
def AddsLeader (s : ShellState) (l : ShellStep) : Prop :=
  l = .main → ∀ pid bg cmdline, s.main = .evalAdd pid bg cmdline →
    ∀ c ∈ s.children, c.pid = pid → c.leader = true

/-- **The signal is delivered** exactly if the group is there. -/
theorem reachesJob_iff (h : shellSystem.Reach s) : ReachesJob s ↔ JobLeads s := by
  obtain ⟨-, hl⟩ := ledger_exact h
  refine forall_congr' fun c => forall_congr' fun hc => forall_congr' fun halive =>
    forall_congr' fun hfg => forall_congr' fun hpid => ?_
  rw [ctrlHandler, if_pos hfg, List.mem_map]
  constructor
  · rintro ⟨d, hd, hdc⟩
    obtain ⟨hd, hgroup⟩ := List.mem_filter.1 hd
    obtain ⟨-, hgroup⟩ := of_decide_eq_true hgroup
    -- only a leader is in a group other than the shell's
    have hlead : d.leader = true := by
      by_contra hno
      rw [Child.pgid, if_neg hno] at hgroup
      omega
    have hnd : (s.children.map Child.pid).Nodup := by
      simpa [ShellState.ledger, List.map_map, Function.comp_def] using hl.pids
    exact List.inj_on_of_nodup_map hnd hd hc hdc ▸ hlead
  · intro hlead
    refine ⟨c, List.mem_filter.2 ⟨hc, decide_eq_true ⟨halive, ?_⟩⟩, rfl⟩
    rw [Child.pgid, if_pos hlead, hpid]

/-- Where children lead their groups before they are added, every job's process does. -/
theorem leads_of_reachBy (h : shellSystem.ReachBy AddsLeader s) :
    ∀ c ∈ s.children, c.added ≠ none → c.leader = true := by
  refine h.induct (P := fun s => ∀ c ∈ s.children, c.added ≠ none → c.leader = true) ?_ ?_
  · rintro s rfl c hc
    exact absurd hc List.not_mem_nil
  · intro s l s' _ ih hok hn c' hc' hadd'
    cases descends_of_next hn hc' with
    | newborn hadd => exact absurd hadd hadd'
    | kept hc hpid hlead hadd => exact hlead (ih _ hc (hadd ▸ hadd'))
    | added hc hmain hpid hlead hadd => exact hlead.trans (hok rfl _ _ _ hmain _ hc rfl)

/-- The foreground job is a child that has been added. -/
theorem added_of_fgpid (h : shellSystem.Reach s) {c : Child} (hc : c ∈ s.children)
    (hpos : 0 < fgpid s.table) (hpid : c.pid = fgpid s.table) : c.added = some true := by
  obtain ⟨-, hl⟩ := ledger_exact h
  unfold fgpid at hpos hpid
  split at hpid
  · next i hi =>
    rw [hi] at hpos
    have hown := hl.owned i (ne_of_gt hpos)
    have hmem : (c.pid, c.added) ∈ s.ledger.kids := List.mem_map.2 ⟨c, hc, rfl⟩
    rw [hpid] at hmem
    exact hl.unique hmem hown
  · next hnone =>
    rw [hnone] at hpos
    exact absurd hpos (lt_irrefl 0)

/-- **When ctrl-c and ctrl-z reach the foreground job.**  In every state reached, the
handlers of the two signals reach the process of the foreground job exactly if it
has made its process group; and it has if in the run every child made its group
before it was added to the list. -/
theorem ctrl_reaches_job (h : shellSystem.Reach s) :
    (ReachesJob s ↔ JobLeads s) ∧ (shellSystem.ReachBy AddsLeader s → ReachesJob s) := by
  refine ⟨reachesJob_iff h, fun hby => (reachesJob_iff h).2 ?_⟩
  rintro c hc - hpos hpid
  refine leads_of_reachBy hby c hc ?_
  rw [added_of_fgpid h hc hpos hpid]
  simp

theorem ctrl_reaches_job_stopped :
    fgpid stoppedJob.table = 5 ∧ (ReachesJob stoppedJob ↔ JobLeads stoppedJob) :=
  ⟨by decide, (ctrl_reaches_job (System.Reach.getD_run (.init rfl) _)).1⟩

/-- **A signal is lost.**  The parent waits for the job in the foreground before
the child has run `setpgid(0, 0)`. -/
theorem ctrl_misses_job :
    ∃ s, shellSystem.run shellStart [.command ["/bin/vi".toList] false "/bin/vi".toList, .main,
        .fork 5, .main, .main] = some s ∧ s.main = .waitfg 5 ∧ fgpid s.table = 5 ∧
      ctrlHandler s = [] ∧ ¬ReachesJob s := by
  refine ⟨_, rfl, by decide, by decide, by decide, fun h => ?_⟩
  exact absurd (h ⟨5, false, .running, some true⟩ (by decide) rfl (by decide) (by decide)) (by decide)

end Shell
end CsappLabs
