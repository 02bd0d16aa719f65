/-
# The shell comes back to its prompt

Whatever its children have done, the shell of `shelllab/tsh.c` is to be able to read the next
command again, or to end.  It can, with one exception: `do_bgfg` reads `job->pid` in a
statement of its own, and if the handler has cleared the entry meanwhile, the pid read is `0`.
Then `fg` waits while `fgpid(jobs)` is `0`, which it is as long as no job is in the foreground,
and no job can be put there (`ready_unless_lost`).
-/

import Mathlib.Order.Interval.Set.Infinite
import CsappLabs.Shell.Sweep

namespace CsappLabs
namespace Shell

open Lib

/-- The shell has ended, or it reads the next command. -/
def Ready (s : ShellState) : Prop := s.main = .exited ∨ s.main = .prompt ∧ s.handling = false

/-- The pid that the main program is to wait for. -/
def ShellPc.awaits : ShellPc → Option ℤ
  | .evalAdd pid false _ | .evalUnblock pid false | .fgTest _ pid | .kill .fg _ pid
  | .setState .fg _ pid | .waitfg pid => some pid
  | _ => none

/-- `fg` has read the pid `0`, or is to read it. -/
def Lost (s : ShellState) : Prop :=
  s.main.awaits = some 0 ∨ ∃ job, s.main = .readPid .fg job ∧
    ((s.table.job job).pid = 0 ∨
      s.handling = true ∧ ∃ c ∈ s.children, c.pid = (s.table.job job).pid ∧ c.done = true)

variable {s s' t : ShellState} {l : ShellStep} {pid : ℤ} {c : Child} {cmd : BgFg}
  {job : Fin MAXJOBS}

/-! ### Waiting for the foreground job -/

/-- Ordinary steps lead back to the prompt. -/
def ComesBack (s : ShellState) : Prop := shellSystem.CanReach Ordinary Ready s

theorem comesBack_of_prompt (hh : s.handling = false) (hpc : s.main = .prompt) : ComesBack s :=
  .here (.inr ⟨hpc, hh⟩)

theorem next_main (hh : s.handling = false) (hn : mainNext s = some s') :
    shellSystem.next s .main = some s' := by
  simp only [shellSystem, hh, Bool.false_eq_true, if_false, hn]

/-- A statement of the main program. -/
theorem ComesBack.main (hh : s.handling = false) (hn : mainNext s = some s')
    (h : ComesBack s') : ComesBack s :=
  .step (ordinary_of_ne (by simp) (by simp)) (next_main hh hn) h

/-- The state after a statement of the main program other than an assignment to `job->state`. -/
theorem reachBy_main (h : shellSystem.ReachBy AssignsLive s) (hh : s.handling = false)
    (hn : mainNext s = some s') (hne : ∀ cmd job pid, s.main ≠ .setState cmd job pid) :
    shellSystem.ReachBy AssignsLive s' :=
  h.step (fun _ cmd job pid hpc => absurd hpc (hne cmd job pid)) (next_main hh hn)

/-- `waitfg` returns when another job, or none, is in the foreground. -/
theorem comesBack_of_waited (hh : s.handling = false) (hpc : s.main = .waitfg pid)
    (hne : pid ≠ fgpid s.table) : ComesBack s := by
  have hn : mainNext s = some { s with main := .prompt } := by
    simp only [mainNext, hpc, if_neg hne]
  exact ComesBack.main hh hn (comesBack_of_prompt hh rfl)

/-- The foreground job has an entry. -/
theorem fgpid_spec {t : JobTable} (h : fgpid t ≠ 0) :
    ∃ i, (t.job i).state = .fg ∧ (t.job i).pid = fgpid t := by
  unfold fgpid at h ⊢
  cases hf : firstSlot t fun j => j.state = .fg with
  | none => simp [hf] at h
  | some i => exact ⟨i, firstSlot_spec hf, rfl⟩

/-- A child can be brought to its end. -/
theorem exists_done (h : shellSystem.ReachBy AssignsLive s) (hc : c ∈ s.children) :
    shellSystem.CanReach Ordinary (fun t => shellSystem.ReachBy AssignsLive t ∧
      t.table = s.table ∧ t.main = s.main ∧ t.handling = s.handling ∧ t.blocked = s.blocked ∧
      ∃ d ∈ t.children, d.pid = c.pid ∧ d.done = true) s := by
  have hend : ∀ state, c.state.canGo state = true →
      (Child.mk c.pid c.leader state c.added).done = true → shellSystem.CanReach Ordinary
        (fun t => shellSystem.ReachBy AssignsLive t ∧ t.table = s.table ∧ t.main = s.main ∧
          t.handling = s.handling ∧ t.blocked = s.blocked ∧
          ∃ d ∈ t.children, d.pid = c.pid ∧ d.done = true) s := by
    intro state hgo hdone
    have hn : shellSystem.next s (.child c.pid state) = some { s with
        children := s.children.map fun d =>
          if d.pid = c.pid then { d with state := state } else d } :=
      if_pos (List.any_eq_true.2 ⟨c, hc, by simp [hgo]⟩)
    refine .step (ordinary_of_ne (by simp) (by simp)) hn (.here ?_)
    refine ⟨h.step (assignsLive_of_ne (by simp)) hn, rfl, rfl, rfl, rfl, _,
      List.mem_map.2 ⟨c, hc, if_pos rfl⟩, rfl, hdone⟩
  cases hst : c.state with
  | running => exact hend .exited (by rw [hst]; rfl) rfl
  | stopped reported => exact hend .signaled (by rw [hst]; rfl) rfl
  | exited | signaled =>
    exact .here ⟨h, rfl, rfl, rfl, rfl, c, hc, rfl, by rw [Child.done, hst]⟩

/-- **The foreground job ends**, and `waitfg` returns. -/
theorem comesBack_of_waitfg (h : shellSystem.ReachBy AssignsLive s) (hh : s.handling = false)
    (hpc : s.main = .waitfg pid) (hpid : pid ≠ 0) : ComesBack s := by
  by_cases hfg : pid = fgpid s.table
  swap
  · exact comesBack_of_waited hh hpc hfg
  obtain ⟨i, -, hi⟩ := fgpid_spec (hfg ▸ hpid)
  obtain ⟨hm, hl⟩ := ledger_exact h.reach
  have hmem := hl.owned i (show (s.table.job i).pid ≠ 0 from hi.trans hfg.symm ▸ hpid)
  obtain ⟨c, hc, he⟩ := List.mem_map.1 hmem
  have hcp : c.pid = pid := (congrArg Prod.fst he).trans (hi.trans hfg.symm)
  have hb : s.blocked = false := by rw [hm.blocked, hpc]; rfl
  refine (exists_done h hc).trans ?_
  rintro t ⟨ht, -, hmain, hth, htb, d, hd, hdp, hdone⟩
  have hne : t.main ≠ .exited := by rw [hmain, hpc]; simp
  have hn : shellSystem.next t .handler = some { t with handling := true } :=
    if_pos ⟨hth.trans hh, htb.trans hb, hne⟩
  refine .step (ordinary_of_ne (by simp) (by simp)) hn ?_
  refine (canReach_swept (h := ht.step (assignsLive_of_ne (by simp)) hn) rfl hne).trans ?_
  rintro u (hex | hu)
  · exact .here (.inl hex)
  · refine comesBack_of_waited hu.handling (hu.main.trans (hmain.trans hpc)) fun hw => ?_
    obtain ⟨k, -, hk⟩ := fgpid_spec (t := u.table) (by rwa [← hw])
    exact hu.gone d hd hdone k (by rw [hk, ← hw, hdp, hcp])

/-! ### From each place of the main program -/

/-- The assignments of `do_bgfg`. -/
theorem comesBack_of_setState (h : shellSystem.ReachBy AssignsLive s) (hh : s.handling = false)
    (hpc : s.main = .setState cmd job pid) (hpid : cmd = .fg → pid ≠ 0) : ComesBack s := by
  cases cmd with
  | bg =>
    have hn : mainNext s = some { s with
        table := setJobState s.table job .bg
        main := .prompt } := by simp only [mainNext, hpc]
    exact ComesBack.main hh hn (comesBack_of_prompt hh rfl)
  | fg =>
    have hn : mainNext s = some { s with
        table := setJobState s.table job .fg
        main := .waitfg pid } := by simp only [mainNext, hpc]
    refine ComesBack.main hh hn ?_
    by_cases hlive : (s.table.job job).pid = 0
    · -- the entry has been cleared: no other is in the foreground, and `fgpid` is `0`
      refine comesBack_of_waited hh rfl fun hw => hpid rfl (hw.trans ?_)
      by_contra hne
      obtain ⟨k, hk, hkp⟩ := fgpid_spec hne
      have hno := (foreground_of_reachBy h).no_fg (by simp [hpc]) (by rw [hpc]; rfl) k
      by_cases hkj : k = job
      · subst hkj
        exact hne (hkp.symm.trans ((setJobState_pid ..).trans hlive))
      · exact hno (by simpa only [setJobState, Function.update_of_ne hkj] using hk)
    · refine comesBack_of_waitfg (h.step (fun _ cmd' job' pid' hpc' => ?_) (next_main hh hn)) hh
        rfl (hpid rfl)
      obtain ⟨-, rfl, -⟩ := ShellPc.setState.inj (hpc.symm.trans hpc')
      exact hlive

/-- `kill(-pid, SIGCONT)` -/
theorem comesBack_of_kill (h : shellSystem.ReachBy AssignsLive s) (hh : s.handling = false)
    (hpc : s.main = .kill cmd job pid) (hpid : cmd = .fg → pid ≠ 0) : ComesBack s := by
  by_cases hany : pid = 0 ∨ s.children.any (fun c => c.pgid = pid) = true
  · have hn : shellSystem.next s (.kill true) = some { s with
        children := s.children.map fun c => if c.pgid = pid then c.cont else c
        main := .setState cmd job pid } := by
      simp only [shellSystem, hh, killNext, hpc, Bool.false_eq_true, if_false, if_true]
    have hok : Ordinary s (.kill true) := by
      refine ⟨by simp, fun _ cmd' job' pid' hpc' hne => ?_⟩
      obtain ⟨-, -, rfl⟩ := ShellPc.kill.inj (hpc.symm.trans hpc')
      simpa using hany.resolve_left hne
    exact .step hok hn (comesBack_of_setState (h.step (assignsLive_of_ne (by simp)) hn) hh rfl hpid)
  · have hn : shellSystem.next s (.kill false) = some { s with main := .exited } := by
      simp only [shellSystem, hh, killNext, hpc, Bool.false_eq_true, if_false, if_neg hany]
    exact .step (ordinary_of_ne (by simp) (by simp)) hn (.here (.inl rfl))

/-- `do_bgfg` with a job and its pid. -/
theorem comesBack_of_next (h : shellSystem.ReachBy AssignsLive s) (hh : s.handling = false)
    (hpc : s.main = cmd.next job pid) (hpid : cmd = .fg → pid ≠ 0) : ComesBack s := by
  cases cmd with
  | bg => exact comesBack_of_kill h hh hpc hpid
  | fg =>
    have hno : ∀ cmd' job' pid', s.main ≠ .setState cmd' job' pid' := by simp [hpc, BgFg.next]
    by_cases hst : (s.table.job job).state = .st
    · have hn : mainNext s = some { s with main := .kill .fg job pid } := by
        simp only [mainNext, hpc, BgFg.next, if_pos hst]
      exact ComesBack.main hh hn (comesBack_of_kill (reachBy_main h hh hn hno) hh rfl hpid)
    · have hn : mainNext s = some { s with main := .setState .fg job pid } := by
        simp only [mainNext, hpc, BgFg.next, if_neg hst]
      exact ComesBack.main hh hn (comesBack_of_setState (reachBy_main h hh hn hno) hh rfl hpid)

/-- `pid = job->pid` -/
theorem comesBack_of_readPid (h : shellSystem.ReachBy AssignsLive s) (hh : s.handling = false)
    (hpc : s.main = .readPid cmd job) (hpid : cmd = .fg → (s.table.job job).pid ≠ 0) :
    ComesBack s := by
  have hn : mainNext s = some { s with main := cmd.next job (s.table.job job).pid } := by
    cases cmd <;> simp only [mainNext, hpc, BgFg.next]
  exact ComesBack.main hh hn
    (comesBack_of_next (reachBy_main h hh hn (by simp [hpc])) hh rfl hpid)

/-- The lookup of a job by its id. -/
theorem comesBack_of_getJid {jid : ℤ} (h : shellSystem.ReachBy AssignsLive s)
    (hh : s.handling = false) (hpc : s.main = .getJid cmd jid) : ComesBack s := by
  cases hf : getjobjid s.table jid with
  | none =>
    have hn : mainNext s = some { s with main := .prompt } := by simp only [mainNext, hpc, hf]
    exact ComesBack.main hh hn (comesBack_of_prompt hh rfl)
  | some job =>
    have hn : mainNext s = some { s with main := .readPid cmd job } := by
      simp only [mainNext, hpc, hf]
    have hjid : 1 ≤ (s.table.job job).jid := by
      rw [getjobjid] at hf
      split_ifs at hf
      have := firstSlot_spec hf
      omega
    have hpid : (s.table.job job).pid ≠ 0 := by
      rcases (foreground_of_reachBy h).slots job with ⟨-, hz, -⟩ | ⟨hp, -⟩ <;> omega
    exact ComesBack.main hh hn
      (comesBack_of_readPid (reachBy_main h hh hn (by simp [hpc])) hh rfl fun _ => hpid)

/-- The lookup of a job by its pid. -/
theorem comesBack_of_getPid (h : shellSystem.ReachBy AssignsLive s) (hh : s.handling = false)
    (hpc : s.main = .getPid cmd pid) : ComesBack s := by
  cases hf : getjobpid s.table pid with
  | none =>
    have hn : mainNext s = some { s with main := .prompt } := by simp only [mainNext, hpc, hf]
    exact ComesBack.main hh hn (comesBack_of_prompt hh rfl)
  | some job =>
    have hn : mainNext s = some { s with main := cmd.next job pid } := by
      cases cmd <;> simp only [mainNext, hpc, hf, BgFg.next]
    have hpid := getjobpid_pos hf
    exact ComesBack.main hh hn
      (comesBack_of_next (reachBy_main h hh hn (by simp [hpc])) hh rfl fun _ => by omega)

/-- The end of `eval`. -/
theorem comesBack_of_evalUnblock {bg : Bool} (h : shellSystem.ReachBy AssignsLive s)
    (hh : s.handling = false) (hpc : s.main = .evalUnblock pid bg) (hpid : bg = false → pid ≠ 0) :
    ComesBack s := by
  have hn : mainNext s = some { s with
      blocked := s.oldset
      main := if bg then .prompt else .waitfg pid } := by simp only [mainNext, hpc]
  refine ComesBack.main hh hn ?_
  cases bg with
  | true => exact comesBack_of_prompt hh rfl
  | false => exact comesBack_of_waitfg (reachBy_main h hh hn (by simp [hpc])) hh rfl (hpid rfl)

/-- `addjob` -/
theorem comesBack_of_evalAdd {bg : Bool} {cmdline : List Char}
    (h : shellSystem.ReachBy AssignsLive s) (hh : s.handling = false)
    (hpc : s.main = .evalAdd pid bg cmdline) (hpid : bg = false → pid ≠ 0) : ComesBack s := by
  have hn : mainNext s = some { s with
      table := (addjob s.table pid (if bg then .bg else .fg) cmdline).1
      children := s.children.map
        (recordAdd pid (addjob s.table pid (if bg then .bg else .fg) cmdline).2)
      main := .evalUnblock pid bg } := by simp only [mainNext, hpc]
  exact ComesBack.main hh hn
    (comesBack_of_evalUnblock (reachBy_main h hh hn (by simp [hpc])) hh rfl hpid)

/-- `fork()` -/
theorem comesBack_of_evalFork {bg : Bool} {cmdline : List Char}
    (h : shellSystem.ReachBy AssignsLive s) (hh : s.handling = false)
    (hpc : s.main = .evalFork bg cmdline) : ComesBack s := by
  obtain ⟨pid, hpid, hnew⟩ := (Set.Ici_infinite (1 : ℤ)).exists_notMem_finset
    (s.children.map Child.pid).toFinset
  have hfresh : ∀ c ∈ s.children, c.pid ≠ pid := fun c hc he =>
    hnew (List.mem_toFinset.2 (List.mem_map.2 ⟨c, hc, he⟩))
  have hpos : 1 ≤ pid := hpid
  have hn : shellSystem.next s (.fork pid) = some { s with
      children := ⟨pid, false, .running, none⟩ :: s.children
      main := .evalAdd pid bg cmdline } := by
    simp only [shellSystem, hpc]
    exact if_pos ⟨hh, hpos, hfresh⟩
  exact .step (ordinary_of_ne (by simp) (by simp)) hn
    (comesBack_of_evalAdd (h.step (assignsLive_of_ne (by simp)) hn) hh rfl fun _ => by omega)

/-- **The main program comes back to the prompt** from every place, unless `fg` is lost. -/
theorem comesBack_of_main (h : shellSystem.ReachBy AssignsLive s) (hh : s.handling = false)
    (hlost : ¬Lost s) : ComesBack s := by
  have hawait : ∀ {pid}, s.main.awaits = some pid → pid ≠ 0 := by
    rintro pid he rfl
    exact hlost (.inl he)
  cases hpc : s.main with
  | prompt => exact comesBack_of_prompt hh hpc
  | exited => exact .here (.inl hpc)
  | evalBlock bg cmdline =>
    have hn : mainNext s = some { s with
        oldset := s.blocked
        blocked := true
        main := .evalFork bg cmdline } := by simp only [mainNext, hpc]
    exact ComesBack.main hh hn (comesBack_of_evalFork (reachBy_main h hh hn (by simp [hpc])) hh rfl)
  | evalFork bg cmdline => exact comesBack_of_evalFork h hh hpc
  | evalAdd pid bg cmdline =>
    exact comesBack_of_evalAdd h hh hpc fun hbg => hawait (by rw [hpc, hbg]; rfl)
  | evalUnblock pid bg =>
    exact comesBack_of_evalUnblock h hh hpc fun hbg => hawait (by rw [hpc, hbg]; rfl)
  | waitfg pid => exact comesBack_of_waitfg h hh hpc (hawait (by rw [hpc]; rfl))
  | getJid cmd jid => exact comesBack_of_getJid h hh hpc
  | readPid cmd job =>
    refine comesBack_of_readPid h hh hpc fun hcmd hz => ?_
    exact hlost (.inr ⟨job, hcmd ▸ hpc, .inl hz⟩)
  | getPid cmd pid => exact comesBack_of_getPid h hh hpc
  | fgTest job pid =>
    have hnext : s.main = BgFg.fg.next job pid := hpc
    exact comesBack_of_next h hh hnext fun _ => hawait (by rw [hpc]; rfl)
  | kill cmd job pid =>
    exact comesBack_of_kill h hh hpc fun hcmd => hawait (by rw [hpc, hcmd]; rfl)
  | setState cmd job pid =>
    exact comesBack_of_setState h hh hpc fun hcmd => hawait (by rw [hpc, hcmd]; rfl)

/-- The handler does not lose `fg`. -/
theorem Swept.not_lost (ht : Swept s t) (hh : s.handling = true) (hlost : ¬Lost s) : ¬Lost t := by
  rintro (ha | ⟨job, hpc, hz | ⟨hth, -⟩⟩)
  · exact hlost (.inl (ht.main ▸ ha))
  · refine hlost (.inr ⟨job, ht.main ▸ hpc, ?_⟩)
    rcases ht.kept job with he | ⟨-, c, hc, hp, hd⟩
    · exact .inl (he.symm.trans hz)
    · exact .inr ⟨hh, c, hc, hp, hd⟩
  · exact absurd (hth.symm.trans ht.handling) (by simp)

theorem comesBack_of_not_lost (h : shellSystem.ReachBy AssignsLive s) (hlost : ¬Lost s) :
    ComesBack s := by
  cases hh : s.handling with
  | false => exact comesBack_of_main h hh hlost
  | true =>
    by_cases hne : s.main = .exited
    · exact .here (.inl hne)
    · refine (canReach_swept h hh hne).trans ?_
      rintro t (hex | ht)
      · exact .here (.inl hex)
      · exact comesBack_of_main ht.reach ht.handling (ht.not_lost hh hlost)

/-! ### `fg` with the pid `0` -/

/-- `fg` waits for the pid `0`, or will; what is in the foreground has been cleared. -/
structure Hung (s : ShellState) : Prop where
  reach : shellSystem.Reach s
  lost : Lost s
  fg : ∀ i, (s.table.job i).state = .fg → (s.table.job i).pid = 0
  held : ∀ job, s.main.held = some (job, 0) → (s.table.job job).pid = 0

theorem Lost.ne_exited (h : Lost s) : s.main ≠ .exited ∧ s.main ≠ .prompt := by
  rcases h with ha | ⟨job, hpc, -⟩
  · exact ⟨fun hpc => by simp [hpc, ShellPc.awaits] at ha, fun hpc => by
      simp [hpc, ShellPc.awaits] at ha⟩
  · exact ⟨by simp [hpc], by simp [hpc]⟩

/-- The foreground job is waited for. -/
theorem ShellPc.awaits_of_fgOwner {x : ShellPc} (h : x.fgOwner = some pid) :
    x.awaits = some pid := by
  cases x with
  | evalUnblock pid bg =>
    cases bg with
    | true => simp [ShellPc.fgOwner] at h
    | false => exact h
  | waitfg => exact h
  | _ => exact absurd h (by simp [ShellPc.fgOwner])

/-- Where `fg` is lost, it waits for no other pid. -/
theorem Lost.fgOwner (h : Lost s) (ho : s.main.fgOwner = some pid) : pid = 0 := by
  rcases h with ha | ⟨job, hpc, -⟩
  · exact Option.some.inj ((ShellPc.awaits_of_fgOwner ho).symm.trans ha)
  · exact absurd ho (by simp [hpc, ShellPc.fgOwner])

theorem hung_of_lost (h : shellSystem.ReachBy AssignsLive s) (hlost : Lost s) : Hung s where
  reach := h.reach
  lost := hlost
  fg i hi := hlost.fgOwner ((foreground_of_reachBy h).owner hlost.ne_exited.1 i hi)
  held job hj := by
    by_contra hne
    exact hne ((foreground_of_reachBy h).held job 0 hj hne)

/-- Without an entry of a live job in the foreground, `fgpid` is `0`. -/
theorem Hung.fgpid_eq (h : Hung s) : fgpid s.table = 0 := by
  by_contra hne
  obtain ⟨i, hi, hp⟩ := fgpid_spec hne
  exact hne (hp.symm.trans (h.fg i hi))

/-- A statement of the main program. -/
theorem Hung.main (h : Hung s) (hh : s.handling = false) (hr : MainRuns s s.main s')
    (hreach : shellSystem.Reach s') : Hung s' := by
  obtain ⟨-, hlost, hfg, hheld⟩ := id h
  generalize hpc : s.main = x at hr
  have hawait : ∀ {p}, x.awaits = some p → p = 0 := by
    rintro p hp
    rcases hlost with ha | ⟨job, hpc', -⟩
    · exact Option.some.inj (hp.symm.trans (hpc ▸ ha))
    · rw [← hpc, hpc'] at hp
      exact absurd hp (by simp [ShellPc.awaits])
  have hgo : x.awaits = some 0 ∨ ∃ job, x = .readPid .fg job ∧ (s.table.job job).pid = 0 := by
    rcases hlost with ha | ⟨job, hpc', hz | ⟨ht, -⟩⟩
    · exact .inl (hpc ▸ ha)
    · exact .inr ⟨job, hpc.symm.trans hpc', hz⟩
    · exact absurd (ht.symm.trans hh) (by simp)
  cases hr with
  | evalBlock | noJid | getJid | noPid | getPid | setBg =>
    exact absurd hgo (by simp [ShellPc.awaits])
  | @evalAdd pid bg cmdline =>
    cases bg with
    | true => exact absurd hgo (by simp [ShellPc.awaits])
    | false =>
      obtain rfl := hawait rfl
      have he : (addjob s.table 0 .fg cmdline).1 = s.table := by rw [addjob, if_pos (by omega)]
      refine ⟨hreach, .inl rfl, fun i hi => ?_, fun _ hj => absurd hj (by simp [ShellPc.held])⟩
      simp only [Bool.false_eq_true, if_false, he] at hi ⊢
      exact hfg i hi
  | @evalUnblock pid bg =>
    cases bg with
    | true => exact absurd hgo (by simp [ShellPc.awaits])
    | false =>
      obtain rfl := hawait rfl
      exact ⟨hreach, .inl rfl, hfg, fun _ hj => absurd hj (by simp [ShellPc.held])⟩
  | wait => exact h
  | waited hw => exact absurd ((hawait rfl).trans h.fgpid_eq.symm) hw
  | @readPid cmd job =>
    rcases hgo with ha | ⟨job', hx, hz⟩
    · exact absurd ha (by simp [ShellPc.awaits])
    · obtain ⟨rfl, rfl⟩ := ShellPc.readPid.inj hx
      refine ⟨hreach, .inl (by rw [hz]; rfl), hfg, fun k hk => ?_⟩
      obtain ⟨rfl, -⟩ := Prod.mk.inj (Option.some.inj hk)
      exact hz
  | @fgTest job pid y hx =>
    obtain rfl := hawait rfl
    have hk : y.awaits = some 0 ∧ y.held = some (job, 0) := by
      rcases hx with rfl | rfl <;> exact ⟨rfl, rfl⟩
    exact ⟨hreach, .inl hk.1, hfg, fun k hj => hheld k (by rw [hpc]; exact hk.2.symm.trans hj)⟩
  | @setFg job pid =>
    obtain rfl := hawait rfl
    refine ⟨hreach, .inl rfl, fun i hi => ?_, fun _ hj => absurd hj (by simp [ShellPc.held])⟩
    rw [setJobState_pid]
    by_cases hij : i = job
    · exact hij ▸ hheld job (by rw [hpc]; rfl)
    · exact hfg i (by simpa only [setJobState, Function.update_of_ne hij] using hi)

/-- The handler puts no job in the foreground. -/
theorem reaps_fg (hr : Reaps s pid s') (i : Fin MAXJOBS) (hi : (s'.table.job i).state = .fg) :
    s'.table.job i = s.table.job i := by
  have hdelete : ∀ t, t = (deletejob s.table pid).1 → (t.job i).state = .fg →
      t.job i = s.table.job i := by
    rintro t rfl hi
    rcases deletejob_cases s.table pid with ⟨he, -⟩ | ⟨k, -, -, hjob, -⟩
    · rw [he]
    · rw [hjob] at hi ⊢
      by_cases hik : i = k
      · subst hik
        exact absurd hi (by simp [clearjob])
      · exact Function.update_of_ne hik ..
  cases hr with
  | exited | signaled => exact hdelete _ rfl hi
  | signaledCrash | stoppedCrash => rfl
  | @stopped _ job =>
    by_cases hij : i = job
    · subst hij
      exact absurd hi (by simp [setJobState])
    · exact Function.update_of_ne hij ..

/-- An iteration of the handler. -/
theorem Hung.reap (h : Hung s) (hr : Reaps s pid s') (hreach : shellSystem.Reach s') :
    s'.main = .exited ∨ Hung s' := by
  obtain ⟨c, hc, rfl⟩ : ∃ c ∈ s.children, c.pid = pid := by
    cases hr with
    | exited hf | signaled hf | signaledCrash hf | stopped hf | stoppedCrash hf =>
      exact ⟨_, List.mem_of_find?_eq_some hf, by simpa using List.find?_some hf⟩
  refine (reaped_of_reaps h.reach hc hr).imp_right fun hR => ?_
  have hzero : ∀ {i}, (s.table.job i).pid = 0 → (s'.table.job i).pid = 0 := by
    intro i hz
    rcases hR.kept i with he | ⟨hz', -⟩
    · exact he.trans hz
    · exact hz'
  refine ⟨hreach, ?_, fun i hi => ?_, fun job hj => hzero (h.held job (hR.main ▸ hj))⟩
  · rcases h.lost with ha | ⟨job, hpc, hz | ⟨hh, d, hd, hp, hdd⟩⟩
    · exact .inl (hR.main ▸ ha)
    · exact .inr ⟨job, hR.main.trans hpc, .inl (hzero hz)⟩
    · refine .inr ⟨job, hR.main.trans hpc, ?_⟩
      rcases hR.kept job with he | ⟨hz, -⟩
      · rcases hR.still d hd hdd with rfl | hd'
        · exact absurd (he.trans hp.symm) (hR.gone hdd job)
        · exact .inr ⟨hR.handling.trans hh, d, hd', hp.trans he.symm, hdd⟩
      · exact .inl hz
  · have he := reaps_fg hr i hi
    rw [he] at hi ⊢
    exact h.fg i hi

/-- The children leave `fg` lost. -/
theorem Hung.children (h : Hung s) {cs : List Child}
    (hreach : shellSystem.Reach { s with children := cs })
    (hkeep : ∀ c ∈ s.children, c.done = true → ∃ d ∈ cs, d.pid = c.pid ∧ d.done = true) :
    Hung { s with children := cs } := by
  refine ⟨hreach, ?_, h.fg, h.held⟩
  rcases h.lost with ha | ⟨job, hpc, hz | ⟨hh, c, hc, hp, hd⟩⟩
  · exact .inl ha
  · exact .inr ⟨job, hpc, .inl hz⟩
  · obtain ⟨d, hdm, hdp, hdd⟩ := hkeep c hc hd
    exact .inr ⟨job, hpc, .inr ⟨hh, d, hdm, hdp.trans hp, hdd⟩⟩

/-- **What every step keeps**, unless the shell ends. -/
theorem Hung.step (h : Hung s) (hn : shellSystem.next s l = some s') :
    s'.main = .exited ∨ Hung s' := by
  have hreach := h.reach.step hn
  -- the places where `fg` cannot be lost
  have hno : ∀ {x : ShellPc}, x.awaits = none → (∀ job, x ≠ .readPid .fg job) → s.main ≠ x := by
    rintro x ha hx rfl
    rcases h.lost with hl | ⟨job, hpc, -⟩
    · exact absurd (ha.symm.trans hl) (by simp)
    · exact hx job hpc
  cases hs : steps_of_next hn with
  | command hpc | eof hpc | fork hpc | forkFail hpc => exact absurd hpc (hno rfl (by simp))
  | main hh hr => exact .inr (h.main hh hr hreach)
  | @kill cmd job pid hpc =>
    cases cmd with
    | bg => exact absurd hpc (hno rfl (by simp))
    | fg =>
      obtain rfl : pid = 0 := by
        rcases h.lost with ha | ⟨job', hpc', -⟩
        · simpa [hpc, ShellPc.awaits] using ha
        · exact absurd (hpc.symm.trans hpc') (by simp)
      exact .inr ⟨hreach, .inl rfl, h.fg, fun k hk => h.held k (by rw [hpc]; exact hk)⟩
  | killFail => exact .inl rfl
  | handler =>
    refine .inr ⟨hreach, ?_, h.fg, h.held⟩
    exact h.lost.imp_right fun ⟨job, hpc, hz⟩ => ⟨job, hpc, hz.imp_right fun hc => ⟨rfl, hc.2⟩⟩
  | reap _ _ hr => exact h.reap hr hreach
  | handlerReturn =>
    simp only [shellSystem, Option.ite_none_right_eq_some] at hn
    refine .inr ⟨hreach, ?_, h.fg, h.held⟩
    rcases h.lost with ha | ⟨job, hpc, hz | ⟨-, c, hc, -, hd⟩⟩
    · exact .inl ha
    · exact .inr ⟨job, hpc, .inl hz⟩
    · exact absurd (hn.1.2.2 c hc) (by simp [waitable_of_done hd])
  | setpgid =>
    refine .inr (h.children hreach fun c hc hd => ⟨_, List.mem_map_of_mem hc, ?_⟩)
    split_ifs <;> exact ⟨rfl, hd⟩
  | @child pid state =>
    simp only [shellSystem, Option.ite_none_right_eq_some] at hn
    obtain ⟨e, he, hep, hego⟩ : ∃ e ∈ s.children, e.pid = pid ∧ e.state.canGo state = true := by
      simpa using hn.1
    refine .inr (h.children hreach fun c hc hd => ⟨_, List.mem_map_of_mem hc, ?_⟩)
    have hne : c.pid ≠ pid := by
      intro hp
      obtain rfl := List.inj_on_of_nodup_map (children_pids h.reach).1 hc he (hp.trans hep.symm)
      cases hst : c.state <;> simp [Child.done, hst, ChildState.canGo] at hd hego
    rw [if_neg hne]
    exact ⟨rfl, hd⟩

/-- A shell that has ended stays so. -/
theorem exited_of_step (h : s.main = .exited) (hn : shellSystem.next s l = some s') :
    s'.main = .exited := by
  cases steps_of_next hn with
  | command hpc | eof hpc | fork hpc | forkFail hpc | kill hpc => simp [h] at hpc
  | main _ hr => rw [h] at hr; cases hr
  | reap _ hne => exact absurd h hne
  | killFail => rfl
  | handler | handlerReturn | setpgid | child => exact h

/-- **When the shell comes back to its prompt.**  In every state of a run that assigns to live
entries only: unless `fg` is lost, ordinary steps lead to the next command or to the end of the
shell; where `fg` is lost, no step ever leads to the next command. -/
theorem ready_unless_lost (h : shellSystem.ReachBy AssignsLive s) :
    (¬Lost s → shellSystem.CanReach Ordinary Ready s) ∧
      (Lost s → ∀ ls s', shellSystem.run s ls = some s' → s'.main ≠ .prompt) := by
  refine ⟨comesBack_of_not_lost h, fun hlost ls s' hr => ?_⟩
  have hend : s'.main = .exited ∨ Hung s' := by
    refine System.run_induct (P := fun s => s.main = .exited ∨ Hung s) (fun u l u' hu hn => ?_)
      (.inr (hung_of_lost h hlost)) hr
    rcases hu with hex | hu
    · exact .inl (exited_of_step hex hn)
    · exact hu.step hn
  rcases hend with hex | hu
  · rw [hex]
    simp
  · exact hu.lost.ne_exited.2

/-- The entry that `do_bgfg` is about to assign to. -/
def ShellPc.target : ShellPc → Option (Fin MAXJOBS)
  | .setState _ job _ => some job
  | _ => none

theorem assignsLive_iff :
    (l = .main → ∀ job ∈ s.main.target, (s.table.job job).pid ≠ 0) ↔ AssignsLive s l := by
  refine imp_congr_right fun _ => ⟨fun h cmd job pid hpc => h job (by rw [hpc]; rfl), ?_⟩
  intro h job hj
  cases hpc : s.main <;> rw [hpc] at hj <;> simp [ShellPc.target] at hj
  exact hj ▸ h _ _ _ hpc

instance (s : ShellState) (l : ShellStep) : Decidable (AssignsLive s l) :=
  decidable_of_iff _ assignsLive_iff

/-- A job in the background is named to `fg`, and is reaped before its pid is read. -/
def staleFg : ShellState :=
  (shellSystem.runBy AssignsLive shellStart [.command ["/bin/ls".toList] true "/bin/ls &".toList,
    .main, .fork 5, .main, .main, .command ["fg".toList, "%1".toList] false "fg %1".toList, .main,
    .child 5 .exited, .handler, .reap 5, .handlerReturn]).getD shellStart

/-- A job in the foreground, which has stopped. -/
def stoppedFg : ShellState :=
  (shellSystem.runBy AssignsLive shellStart [.command ["/bin/vi".toList] false "/bin/vi".toList,
    .main, .fork 5, .main, .main, .child 5 (.stopped false), .handler]).getD shellStart

/-- `ready_unless_lost` for a job that has ended before its pid is read, and for one that has
stopped. -/
theorem ready_unless_lost_stale :
    (Lost staleFg ∧ ∀ ls s', shellSystem.run staleFg ls = some s' → s'.main ≠ .prompt) ∧
      stoppedFg.main = .waitfg 5 ∧ shellSystem.CanReach Ordinary Ready stoppedFg := by
  have hstale : Lost staleFg := .inr ⟨0, by decide, .inl (by decide)⟩
  have hstop : ¬Lost stoppedFg := by
    have hpc : stoppedFg.main = .waitfg 5 := by decide
    simp [Lost, hpc, ShellPc.awaits]
  exact ⟨⟨hstale, (ready_unless_lost (System.ReachBy.getD_runBy (.init rfl) _)).2 hstale⟩,
    by decide, (ready_unless_lost (System.ReachBy.getD_runBy (.init rfl) _)).1 hstop⟩

end Shell
end CsappLabs
