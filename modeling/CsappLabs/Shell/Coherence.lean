/-
# When the job list is coherent

An entry of the job list should be clear or hold a job, and one job at most
should be in the foreground.  `eval` keeps this by blocking `SIGCHLD`, and
`waitfg` is what remembers the foreground job: an entry in state `FG` has the pid
that the main program waits for (`Foreground`).

`do_bgfg` blocks nothing.  Between its lookup and `job->state = BG` or `FG` the
handler can delete the job, and then the assignment marks a clear entry.  And the `int`
`nextjid` overflows in the end, if the list never is empty; a job can then get an id that
is not positive.  The list is coherent throughout a run exactly if neither happens
(`coherent_iff`).
-/

import CsappLabs.Shell.Children

namespace CsappLabs
namespace Shell

open Lib

/-- The entry is free, as `clearjob` leaves it. -/
def Job.Clear (j : Job) : Prop := j.pid = 0 ∧ j.jid = 0 ∧ j.state = .undefined

/-- The entry holds a job. -/
def Job.Populated (j : Job) : Prop := 0 < j.pid ∧ 0 < j.jid ∧ j.state ≠ .undefined

/-- The entry is in use, with any id. -/
def Job.Used (j : Job) : Prop := 0 < j.pid ∧ j.state ≠ .undefined

/-- Every entry is clear or populated, and at most one is in the foreground. -/
def Coherent (t : JobTable) : Prop :=
  (∀ i, (t.job i).Clear ∨ (t.job i).Populated) ∧
    ∀ i j, (t.job i).state = .fg → (t.job j).state = .fg → i = j

/-- If the step is an assignment to `job->state` in `do_bgfg`, the entry is live. -/
def AssignsLive (s : ShellState) (l : ShellStep) : Prop :=
  l = .main → ∀ cmd job pid, s.main = .setState cmd job pid → (s.table.job job).pid ≠ 0

/-- If the step is an `addjob` that fills a free entry, `nextjid` has not overflowed. -/
def AddsPositive (s : ShellState) (l : ShellStep) : Prop :=
  l = .main → ∀ pid bg cmdline, s.main = .evalAdd pid bg cmdline → 1 ≤ pid →
    (∃ i, (s.table.job i).pid = 0) → 0 < s.table.nextjid

namespace ShellPc

/-- The pid of the foreground job that the main program waits for. -/
def fgOwner : ShellPc → Option ℤ
  | evalUnblock pid false | waitfg pid => some pid
  | _ => none

/-- The entry that `do_bgfg` holds a pointer to, and its pid. -/
def held : ShellPc → Option (Fin MAXJOBS × ℤ)
  | fgTest job pid | kill _ job pid | setState _ job pid => some (job, pid)
  | _ => none

theorem fgOwner_eval (argv : List (List Char)) (bg : Bool) (cmdline : List Char) :
    (eval argv bg cmdline).fgOwner = none ∧ (eval argv bg cmdline).held = none := by
  unfold eval
  split
  · exact ⟨rfl, rfl⟩
  · split_ifs <;> first | exact ⟨rfl, rfl⟩ | (unfold doBgfg; split <;> try split_ifs) <;>
      exact ⟨rfl, rfl⟩

end ShellPc

/-- The job list, as the place of the main program says. -/
structure Foreground (t : JobTable) (x : ShellPc) : Prop where
  slots : ∀ i, (t.job i).Clear ∨ (t.job i).Used
  one : ∀ i j, (t.job i).state = .fg → (t.job j).state = .fg → i = j
  owner : x ≠ .exited → ∀ i, (t.job i).state = .fg → x.fgOwner = some (t.job i).pid
  held : ∀ job pid, x.held = some (job, pid) → (t.job job).pid ≠ 0 → (t.job job).pid = pid

namespace Foreground

variable {t t' : JobTable} {x y : ShellPc}

/-- Where nobody waits, no job is in the foreground. -/
theorem no_fg (h : Foreground t x) (hx : x ≠ .exited) (ho : x.fgOwner = none) (i : Fin MAXJOBS) :
    (t.job i).state ≠ .fg := fun hi => absurd (ho.symm.trans (h.owner hx i hi)) (by simp)

/-- The main program moves on and keeps waiting for the same job. -/
theorem goto (h : Foreground t x) (hx : x ≠ .exited)
    (hy : y ≠ .exited → y.fgOwner = x.fgOwner)
    (hheld : ∀ job pid, y.held = some (job, pid) → (t.job job).pid ≠ 0 → (t.job job).pid = pid) :
    Foreground t y :=
  ⟨h.slots, h.one, fun hne i hi => (hy hne).trans (h.owner hx i hi), hheld⟩

/-- The handler clears entries or takes them out of the foreground. -/
theorem shrink (h : Foreground t x)
    (ht : ∀ i, t'.job i = t.job i ∨ (t'.job i).Clear ∨
      (t'.job i).Used ∧ (t'.job i).pid = (t.job i).pid ∧ (t'.job i).state ≠ .fg) :
    Foreground t' x := by
  have hfg : ∀ i, (t'.job i).state = .fg → t'.job i = t.job i := by
    intro i hi
    rcases ht i with he | ⟨-, -, hu⟩ | ⟨-, -, hne⟩
    · exact he
    · exact absurd (hi.symm.trans hu) (by decide)
    · exact absurd hi hne
  refine ⟨fun i => ?_, fun i j hi hj => ?_, fun hx i hi => ?_, fun job pid hxj hpid => ?_⟩
  · rcases ht i with he | hc | ⟨hp, -⟩
    · exact he ▸ h.slots i
    · exact .inl hc
    · exact .inr hp
  · exact h.one i j (hfg i hi ▸ hi) (hfg j hj ▸ hj)
  · have he := hfg i hi
    rw [he] at hi ⊢
    exact h.owner hx i hi
  · rcases ht job with he | ⟨hz, -⟩ | ⟨-, he, -⟩
    · rw [he] at hpid ⊢
      exact h.held job pid hxj hpid
    · exact absurd hz hpid
    · rw [he] at hpid ⊢
      exact h.held job pid hxj hpid

/-- `addjob` in `eval`. -/
theorem add {pid : ℤ} {bg : Bool} {cmdline : List Char} (h : Foreground t (.evalAdd pid bg cmdline)) :
    Foreground (addjob t pid (if bg then .bg else .fg) cmdline).1 (.evalUnblock pid bg) := by
  have hno := h.no_fg (by simp) rfl
  rcases addjob_cases t pid (if bg then .bg else .fg) cmdline with
    ⟨he, -⟩ | ⟨k, hpid, -, -, hjob, -⟩
  · rw [he]
    exact ⟨h.slots, h.one, fun _ i hi => absurd hi (hno i), fun job p hj => absurd hj (by
      simp [ShellPc.held])⟩
  · have hfg : ∀ i, ((addjob t pid (if bg then .bg else .fg) cmdline).1.job i).state = .fg →
        i = k ∧ bg = false := by
      intro i hi
      rw [hjob] at hi
      by_cases hik : i = k
      · subst hik
        cases bg <;> simp_all
      · rw [Function.update_of_ne hik] at hi
        exact absurd hi (hno i)
    refine ⟨fun i => ?_, fun i j hi hj => ?_, fun _ i hi => ?_, fun job p hj => ?_⟩
    · rw [hjob]
      by_cases hik : i = k
      · subst hik
        rw [Function.update_self]
        exact .inr ⟨by simp only; omega, by cases bg <;> simp⟩
      · rw [Function.update_of_ne hik]
        exact h.slots i
    · exact (hfg i hi).1.trans (hfg j hj).1.symm
    · obtain ⟨rfl, rfl⟩ := hfg i hi
      rw [hjob, Function.update_self]
      rfl
    · exact absurd hj (by simp [ShellPc.held])

/-- Assigning `job->state` to a live entry. -/
theorem assign {cmd : BgFg} {job : Fin MAXJOBS} {pid : ℤ} (h : Foreground t (.setState cmd job pid))
    (hlive : (t.job job).pid ≠ 0) {state : JobState} (hstate : state = .bg ∨ state = .fg)
    (hy : (state = .fg → y = .waitfg pid) ∧ y.held = none) :
    Foreground (setJobState t job state) y := by
  have hno := h.no_fg (by simp) rfl
  have hpid := h.held job pid rfl hlive
  have hfg : ∀ i, ((setJobState t job state).job i).state = .fg → i = job ∧ state = .fg := by
    intro i hi
    by_cases hij : i = job
    · subst hij
      exact ⟨rfl, by simpa [setJobState] using hi⟩
    · simp only [setJobState, Function.update_of_ne hij] at hi
      exact absurd hi (hno i)
  refine ⟨fun i => ?_, fun i j hi hj => ?_, fun _ i hi => ?_, fun k p hk => ?_⟩
  · by_cases hij : i = job
    · subst hij
      rcases h.slots i with ⟨hz, -⟩ | ⟨hp, -⟩
      · exact absurd hz hlive
      · refine .inr ⟨by simpa [setJobState] using hp, ?_⟩
        rcases hstate with rfl | rfl <;> simp [setJobState]
    · simpa only [setJobState, Function.update_of_ne hij] using h.slots i
  · exact (hfg i hi).1.trans (hfg j hj).1.symm
  · obtain ⟨rfl, hst⟩ := hfg i hi
    rw [hy.1 hst, setJobState_pid, hpid]
    rfl
  · exact absurd (hy.2.symm.trans hk) (by simp)

/-- `waitfg` returns when no job is in the foreground. -/
theorem wait {pid : ℤ} (h : Foreground t (.waitfg pid)) (hne : pid ≠ fgpid t) :
    Foreground t .prompt := by
  refine ⟨h.slots, h.one, fun _ i hi => ?_, fun job p hj => absurd hj (by simp [ShellPc.held])⟩
  obtain ⟨k, hk, hfg⟩ := exists_firstSlot (t := t) (p := fun j => j.state = .fg) hi
  refine absurd ?_ hne
  rw [fgpid, hk]
  exact Option.some.inj (h.owner (by simp) k hfg)

end Foreground

variable {s s' : ShellState}

/-- A statement of the main program. -/
theorem mainRuns_foreground (h : Foreground s.table s.main) (hok : AssignsLive s .main)
    (hr : MainRuns s s.main s') : Foreground s'.table s'.main := by
  generalize hpc : s.main = x at hr
  cases hr with
  | evalBlock | noJid | getJid | noPid =>
    exact h.goto (by simp [hpc]) (fun _ => by rw [hpc]; rfl) fun _ _ hj =>
      absurd hj (by simp [ShellPc.held])
  | evalAdd => exact (hpc ▸ h).add
  | @evalUnblock pid bg =>
    cases bg <;>
      exact h.goto (by simp [hpc]) (fun _ => by rw [hpc]; rfl) fun _ _ hj =>
        absurd hj (by simp [ShellPc.held])
  | wait => exact h
  | waited hw => exact (hpc ▸ h).wait hw
  | @readPid cmd job =>
    cases cmd <;> refine h.goto (by simp [hpc]) (fun _ => by rw [hpc]; rfl) ?_ <;>
      · rintro _ _ hj -
        obtain ⟨rfl, rfl⟩ := Prod.mk.inj (Option.some.inj hj)
        rfl
  | @getPid cmd pid job hf =>
    have hjob : (s.table.job job).pid = pid := getjobpid_spec hf
    cases cmd <;> refine h.goto (by simp [hpc]) (fun _ => by rw [hpc]; rfl) ?_ <;>
      · rintro _ _ hj -
        obtain ⟨rfl, rfl⟩ := Prod.mk.inj (Option.some.inj hj)
        exact hjob
  | fgTest hx =>
    refine h.goto (by simp [hpc]) (fun _ => by rw [hpc]; rcases hx with rfl | rfl <;> rfl)
      fun job' pid' hj hne => ?_
    refine h.held job' pid' ?_ hne
    rw [hpc, ← hj]
    rcases hx with rfl | rfl <;> rfl
  | setBg =>
    have hlive := hok rfl _ _ _ hpc
    rw [hpc] at h
    exact h.assign hlive (.inl rfl) ⟨fun he => absurd he (by simp), rfl⟩
  | setFg =>
    have hlive := hok rfl _ _ _ hpc
    rw [hpc] at h
    exact h.assign hlive (.inr rfl) ⟨fun _ => rfl, rfl⟩

/-- An iteration of the handler. -/
theorem reaps_foreground (h : Foreground s.table s.main) (hne : s.main ≠ .exited) {pid : ℤ}
    (hr : Reaps s pid s') : Foreground s'.table s'.main := by
  -- a crash leaves the list as it is
  have hcrash : Foreground s.table .exited := h.goto hne (fun hx => absurd rfl hx) fun _ _ hj =>
    absurd hj (by simp [ShellPc.held])
  have hdelete : Foreground (deletejob s.table pid).1 s.main := by
    refine h.shrink fun i => ?_
    rcases deletejob_cases s.table pid with ⟨he, -⟩ | ⟨k, -, -, hjob, -⟩
    · exact .inl (by rw [he])
    · rw [hjob]
      by_cases hik : i = k
      · subst hik
        exact .inr (.inl (by rw [Function.update_self]; exact ⟨rfl, rfl, rfl⟩))
      · exact .inl (Function.update_of_ne hik ..)
  have hstop : ∀ k, getjobpid s.table pid = some k → Foreground (setJobState s.table k .st) s.main := by
    intro k hk
    refine h.shrink fun i => ?_
    by_cases hik : i = k
    · subst hik
      rcases h.slots i with ⟨hz, -⟩ | ⟨hp, -⟩
      · have := getjobpid_pos hk
        have := getjobpid_spec hk
        omega
      · refine .inr (.inr ⟨⟨?_, ?_⟩, setJobState_pid .., ?_⟩)
        · simpa only [setJobState_pid] using hp
        · simp [setJobState]
        · simp [setJobState]
    · exact .inl (Function.update_of_ne hik ..)
  cases hr with
  | exited | signaled => exact hdelete
  | signaledCrash | stoppedCrash => exact hcrash
  | stopped _ _ hjob => exact hstop _ hjob

/-- Every step that assigns to a live entry at most. -/
theorem step_foreground (h : Foreground s.table s.main) {l : ShellStep} (hok : AssignsLive s l)
    (hn : shellSystem.next s l = some s') : Foreground s'.table s'.main := by
  cases steps_of_next hn with
  | @command argv bg cmdline hpc =>
    have he := ShellPc.fgOwner_eval argv bg cmdline
    exact h.goto (by simp [hpc]) (fun _ => by rw [hpc, he.1]; rfl) fun _ _ hj =>
      absurd (he.2.symm.trans hj) (by simp)
  | eof hpc | killFail hpc =>
    exact h.goto (by simp [hpc]) (fun hx => absurd rfl hx) fun _ _ hj =>
      absurd hj (by simp [ShellPc.held])
  | main _ hr => exact mainRuns_foreground h hok hr
  | fork hpc | forkFail hpc =>
    exact h.goto (by simp [hpc]) (fun _ => by rw [hpc]; rfl) fun _ _ hj =>
      absurd hj (by simp [ShellPc.held])
  | kill hpc =>
    exact h.goto (by simp [hpc]) (fun _ => by rw [hpc]; rfl) fun job' pid' hj =>
      h.held job' pid' (by rw [hpc]; exact hj)
  | reap _ hne hr => exact reaps_foreground h hne hr
  | setpgid | handler | handlerReturn | child => exact h

/-- Runs that assign to live entries only keep the list coherent. -/
theorem foreground_of_reachBy (h : shellSystem.ReachBy AssignsLive s) :
    Foreground s.table s.main := by
  refine h.induct (P := fun s => Foreground s.table s.main) ?_ fun _ _ _ _ hf hok hn =>
    step_foreground hf hok hn
  rintro s rfl
  have hno : ∀ i, (shellStart.table.job i).state ≠ .fg := fun i => by decide +revert
  exact ⟨fun i => .inl ⟨rfl, rfl, rfl⟩, fun i _ hi => absurd hi (hno i),
    fun _ i hi => absurd hi (hno i),
    fun _ _ hj => absurd hj (by simp [shellStart, ShellPc.held])⟩

/-! ### Positive ids -/

/-- The ids of the live entries are positive. -/
def PositiveIds (t : JobTable) : Prop := ∀ i, (t.job i).pid ≠ 0 → 0 < (t.job i).jid

theorem PositiveIds.update {t t' : JobTable} {k : Fin MAXJOBS} {j : Job} (h : PositiveIds t)
    (hk : t'.job = Function.update t.job k j) (hj : j.pid ≠ 0 → 0 < j.jid) : PositiveIds t' := by
  intro i
  rw [hk]
  by_cases hi : i = k
  · rwa [hi, Function.update_self]
  · rw [Function.update_of_ne hi]
    exact h i

/-- Runs in which `nextjid` has not overflowed where it is used give positive ids. -/
theorem positiveIds_of_reachBy (h : shellSystem.ReachBy AddsPositive s) : PositiveIds s.table := by
  refine h.induct (P := fun s => PositiveIds s.table) ?_ ?_
  · rintro s rfl i hi
    exact absurd rfl hi
  · intro s l s' _ hids hok hn
    have hr := relists_of_next hn
    generalize s'.table = t' at hr ⊢
    cases hr with
    | same => exact hids
    | @add pid bg cmdline hl hpc =>
      rcases addjob_cases s.table pid (if bg then .bg else .fg) cmdline with
        ⟨he, -⟩ | ⟨k, hpid, hfree, -, hjob, -⟩
      · rwa [he]
      · exact hids.update hjob fun _ => hok hl pid bg cmdline hpc hpid ⟨k, hfree⟩
    | delete pid =>
      rcases deletejob_cases s.table pid with ⟨he, -⟩ | ⟨k, -, -, hjob, -⟩
      · rwa [he]
      · exact hids.update hjob fun h => absurd rfl h
    | assign job state => exact hids.update rfl (hids job)

/-- An entry that `addjob` fills has the id `nextjid`. -/
theorem addsPositive_of_coherent {l : ShellStep} (hn : shellSystem.next s l = some s')
    (hc : Coherent s'.table) : AddsPositive s l := by
  rintro rfl pid bg cmdline hpc hpid ⟨k, hk⟩
  simp only [shellSystem, Option.ite_none_left_eq_some, mainNext, hpc, Option.some.injEq] at hn
  obtain ⟨-, rfl⟩ := hn
  rcases addjob_cases s.table pid (if bg then .bg else .fg) cmdline with
    ⟨-, h | h⟩ | ⟨i, -, -, -, hjob, -⟩
  · omega
  · exact absurd hk (h k)
  · have hnew := hc.1 i
    simp only [hjob, Function.update_self] at hnew
    rcases hnew with ⟨hz, -⟩ | ⟨-, hjid, -⟩
    · exact absurd hz (show 0 < pid by omega).ne'
    · exact hjid

/-- An assignment makes no entry clear. -/
theorem assignsLive_of_coherent {l : ShellStep} (hn : shellSystem.next s l = some s')
    (hc : Coherent s'.table) : AssignsLive s l := by
  rintro rfl cmd job pid hpc hz
  simp only [shellSystem, Option.ite_none_left_eq_some] at hn
  -- the entry has no pid, and a state that a clear entry does not have
  have hstate : (s'.table.job job).state ≠ .undefined ∧ (s'.table.job job).pid = 0 := by
    cases cmd <;> simp only [mainNext, hpc, Option.some.injEq] at hn <;> rw [← hn.2] <;>
      exact ⟨by simp [setJobState], by rw [setJobState_pid, hz]⟩
  rcases hc.1 job with ⟨-, -, hu⟩ | ⟨hp, -, -⟩
  · exact hstate.1 hu
  · omega

/-- **When the job list is coherent.**  Along every run of the shell, every entry
is clear or populated and at most one job is in the foreground in every state,
exactly if `do_bgfg` never assigns to the state of an entry that has been
cleared, and `nextjid` is positive whenever `addjob` fills an entry. -/
theorem coherent_iff {ls : List ShellStep} (hr : shellSystem.run shellStart ls = some s) :
    (∀ p q, ls = p ++ q → ∀ u, shellSystem.run shellStart p = some u → Coherent u.table) ↔
      ∀ p l q, ls = p ++ l :: q → ∀ u, shellSystem.run shellStart p = some u →
        AssignsLive u l ∧ AddsPositive u l := by
  refine System.forall_prefix_iff (P := fun u => Coherent u.table) (fun u hu => ?_) ?_ rfl hr
  · have hf := foreground_of_reachBy (hu.mono fun _ _ h => h.1)
    have hids := positiveIds_of_reachBy (hu.mono fun _ _ h => h.2)
    refine ⟨fun i => (hf.slots i).imp_right fun ⟨hpid, hstate⟩ => ?_, hf.one⟩
    exact ⟨hpid, hids i hpid.ne', hstate⟩
  · intro u l u' _ _ hn hc
    exact ⟨assignsLive_of_coherent hn hc, addsPositive_of_coherent hn hc⟩

/-- A job is started in the background and named to `bg`; it exits and is reaped
before `job->state = BG`. -/
def bgAfterReap : List ShellStep :=
  [.command ["/bin/ls".toList] true "/bin/ls &".toList, .main, .fork 5, .main, .main, .setpgid 5,
    .command ["bg".toList, "%1".toList] false "bg %1".toList, .main, .main, .child 5 .exited,
    .kill true, .handler, .reap 5, .handlerReturn, .main]

/-- The list need not be coherent: an entry without a job can be in state `BG`. -/
theorem not_coherent :
    ∃ s, shellSystem.run shellStart bgAfterReap = some s ∧
      s.table.job 0 = { clearjob with state := .bg } ∧ ¬Coherent s.table := by
  refine ⟨_, rfl, by decide, fun h => ?_⟩
  rcases h.1 0 with ⟨-, -, hu⟩ | ⟨hp, -, -⟩
  · exact absurd hu (by decide)
  · exact absurd hp (by decide)

/-- `coherent_iff` for a job run in the foreground until it stops. -/
theorem coherent_iff_stopped :
    (∀ p q, [.command ["/bin/vi".toList] false "/bin/vi".toList, .main, .fork 5, .main, .main,
          .child 5 (.stopped false), .handler, .reap 5, .handlerReturn, .main] = p ++ q →
        ∀ u, shellSystem.run shellStart p = some u → Coherent u.table) ↔
      ∀ p l q, [.command ["/bin/vi".toList] false "/bin/vi".toList, .main, .fork 5, .main, .main,
          .child 5 (.stopped false), .handler, .reap 5, .handlerReturn, .main] = p ++ l :: q →
        ∀ u, shellSystem.run shellStart p = some u → AssignsLive u l ∧ AddsPositive u l :=
  coherent_iff (s := (shellSystem.run shellStart [.command ["/bin/vi".toList] false "/bin/vi".toList,
    .main, .fork 5, .main, .main, .child 5 (.stopped false), .handler, .reap 5, .handlerReturn,
    .main]).getD shellStart) rfl

end Shell
end CsappLabs
