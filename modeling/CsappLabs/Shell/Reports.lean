/-
# Job states and the last report

When the handler of `shelllab/tsh.c` reaps a stop it sets the state of the job to
`ST`, and `do_bgfg` sets it to `BG` or `FG` when it has sent `SIGCONT`.  `Watched`
adds to the shell which children are halted as far as the shell knows: a stop is
the last thing that was reaped for them, and the shell has sent them no `SIGCONT`
since.

`do_bgfg` tests the state, sends the signal and assigns the state without blocking
`SIGCHLD`.  A stop that is reaped just before the assignment is overwritten, and
`waitfg` then waits for a stopped job.  The states follow the reports exactly if
this never happens (`states_follow_iff`).
-/

import CsappLabs.Shell.Children

namespace CsappLabs
namespace Shell

open Lib

/-- The shell, and the pids that are halted. -/
structure Watched extends ShellState where
  halted : ℤ → Bool

/-- The halted pids after a step. -/
def Watched.watch (u : Watched) : ShellStep → ℤ → Bool
  | .fork pid => Function.update u.halted pid false
  | .reap pid =>
      match u.children.find? fun c => c.pid = pid with
      | some c => Function.update u.halted pid (c.state = .stopped false)
      | none => u.halted
  | .kill true =>
      match u.main with
      | .kill _ _ pid => Function.update u.halted pid false
      | _ => u.halted
  | _ => u.halted

/-- The shell under watch. -/
def watchSystem : System Watched ShellStep where
  init u := u.toShellState = shellStart ∧ u.halted = fun _ => false
  next u l := (shellSystem.next u.toShellState l).map fun s => { s with halted := u.watch l }

/-- The main program is between the lookup of `do_bgfg` and its assignment. -/
def ShellPc.inBgfg : ShellPc → Bool
  | readPid .. | fgTest .. | kill .. | setState .. => true
  | _ => false

/-- A halted job is in state `ST`, unless `do_bgfg` is at work. -/
def StatesFollow (u : Watched) : Prop :=
  u.main.inBgfg = false → ∀ i, (u.table.job i).pid ≠ 0 →
    u.halted (u.table.job i).pid = true → (u.table.job i).state = .st

/-- If the step assigns the state of a job in `do_bgfg`, the job is not halted. -/
def AssignsRunning (u : Watched) (l : ShellStep) : Prop :=
  l = .main → ∀ cmd job pid, u.main = .setState cmd job pid → (u.table.job job).pid ≠ 0 →
    u.halted (u.table.job job).pid = false

/-- The invariant: halted jobs are in state `ST` all the time, and a child about to be
added is not halted. -/
structure Follows (u : Watched) : Prop where
  states : ∀ i, (u.table.job i).pid ≠ 0 → u.halted (u.table.job i).pid = true →
    (u.table.job i).state = .st
  adding : ∀ pid, u.main.adding = some pid → u.halted pid = false
  pos : ∀ pid, u.halted pid = true → 1 ≤ pid

variable {u u' : Watched} {l : ShellStep}

/-- A step of the shell under watch. -/
theorem watch_next (hn : watchSystem.next u l = some u') :
    ∃ s, shellSystem.next u.toShellState l = some s ∧ u' = { s with halted := u.watch l } := by
  obtain ⟨s, hs, rfl⟩ := Option.map_eq_some_iff.1 hn
  exact ⟨s, hs, rfl⟩

/-- The shell under watch is the shell. -/
theorem reach_of_watched (h : watchSystem.Reach u) : shellSystem.Reach u.toShellState := by
  have hsim : ∃ s, shellSystem.Reach s ∧ u.toShellState = s := by
    refine System.ReachBy.simulate (S := watchSystem) (T := shellSystem)
      (R := fun u s => u.toShellState = s) ?_ ?_ h
    · exact fun u hu => ⟨_, hu.1, rfl⟩
    · rintro u _ l u' rfl - hn
      obtain ⟨s, hs, rfl⟩ := watch_next hn
      exact ⟨_, hs, rfl⟩
  obtain ⟨_, hs, rfl⟩ := hsim
  exact hs

namespace Follows

variable {t : JobTable} {halted : ℤ → Bool} {x : ShellPc} {pid : ℤ}

/-- A step that leaves the entries alone or clears them, and halts nobody. -/
theorem mono {s : ShellState} (h : Follows u)
    (hjob : ∀ i, (s.table.job i).pid ≠ 0 → s.table.job i = u.table.job i)
    (hhalt : ∀ pid, halted pid = true → u.halted pid = true)
    (hadd : ∀ pid, s.main.adding = some pid → halted pid = false) :
    Follows { s with halted := halted } := by
  refine ⟨fun i hi hh => ?_, hadd, fun pid hp => h.pos pid (hhalt pid hp)⟩
  have he := hjob i hi
  simp only at hi hh ⊢
  rw [he] at hi hh ⊢
  exact h.states i hi (hhalt _ hh)

/-- A step that touches neither the entries nor the watch. -/
theorem same {s : ShellState} (h : Follows u) (ht : s.table = u.table)
    (hadd : s.main.adding = none) : Follows { s with halted := u.halted } :=
  h.mono (fun i _ => by rw [ht]) (fun _ hp => hp) fun pid hp => absurd (hadd.symm.trans hp) (by simp)

/-- A child has just been added. -/
theorem add {s : ShellState} {state : JobState} {cmdline : List Char} (h : Follows u)
    (hadd : u.main.adding = some pid) (ht : s.table = (addjob u.table pid state cmdline).1)
    (hmain : s.main.adding = none) : Follows { s with halted := u.halted } := by
  rcases addjob_cases u.table pid state cmdline with ⟨he, -⟩ | ⟨k, hpid, -, -, hjob, -⟩
  · exact h.same (by rw [ht, he]) hmain
  · refine ⟨fun i hi hh => ?_, fun p hp => absurd (hmain.symm.trans hp) (by simp), h.pos⟩
    simp only [ht, hjob] at hi hh ⊢
    by_cases hik : i = k
    · subst hik
      rw [Function.update_self] at hh
      exact absurd hh (by simp [h.adding pid hadd])
    · rw [Function.update_of_ne hik] at hi hh ⊢
      exact h.states i hi hh

/-- The state of a job that is not halted is assigned. -/
theorem assign {s : ShellState} {job : Fin MAXJOBS} {state : JobState} (h : Follows u)
    (hlive : (u.table.job job).pid ≠ 0 → u.halted (u.table.job job).pid = false)
    (ht : s.table = setJobState u.table job state) (hmain : s.main.adding = none) :
    Follows { s with halted := u.halted } := by
  refine ⟨fun i hi hh => ?_, fun p hp => absurd (hmain.symm.trans hp) (by simp), h.pos⟩
  simp only [ht, setJobState_pid] at hi hh ⊢
  by_cases hij : i = job
  · subst hij
    exact absurd hh (by simp [hlive hi])
  · rw [setJobState]
    simp only [Function.update_of_ne hij]
    exact h.states i hi hh

/-- A stop is reaped. -/
theorem stop {s : ShellState} {k : Fin MAXJOBS} (h : Follows u) (hpid : 1 ≤ pid)
    (huniq : ∀ i, (u.table.job i).pid = pid → i = k)
    (ht : s.table = setJobState u.table k .st) (hmain : s.main.adding = none) :
    Follows { s with halted := Function.update u.halted pid true } := by
  refine ⟨fun i hi hh => ?_, fun p hp => absurd (hmain.symm.trans hp) (by simp), fun p hp => ?_⟩
  · simp only [ht, setJobState_pid] at hi hh ⊢
    by_cases hik : i = k
    · subst hik
      simp [setJobState]
    · have hne : (u.table.job i).pid ≠ pid := fun he => hik (huniq i he)
      rw [Function.update_of_ne hne] at hh
      rw [setJobState]
      simp only [Function.update_of_ne hik]
      exact h.states i hi hh
  · simp only at hp
    by_cases he : p = pid
    · exact he ▸ hpid
    · rw [Function.update_of_ne he] at hp
      exact h.pos p hp

end Follows

/-- A pid that is no longer halted. -/
theorem unhalt {halted : ℤ → Bool} {pid p : ℤ} (h : Function.update halted pid false p = true) :
    halted p = true := by
  by_cases he : p = pid
  · rw [he, Function.update_self] at h
    exact absurd h (by simp)
  · rwa [Function.update_of_ne he] at h

/-- A statement of the main program. -/
theorem follows_of_mainRuns (h : Follows u) (hok : AssignsRunning u .main) {s : ShellState}
    (hr : MainRuns u.toShellState u.main s) : Follows { s with halted := u.halted } := by
  generalize hpc : u.main = x at hr
  cases hr with
  | evalAdd => exact h.add (by rw [hpc]; rfl) rfl rfl
  | setBg | setFg => exact h.assign (hok rfl _ _ _ hpc) rfl rfl
  | wait => exact h.same rfl (by rw [hpc]; rfl)
  | @evalUnblock pid bg => cases bg <;> exact h.same rfl rfl
  | @readPid cmd | @getPid cmd => cases cmd <;> exact h.same rfl rfl
  | fgTest hx => exact h.same rfl (by rcases hx with rfl | rfl <;> rfl)
  | evalBlock | waited | noJid | getJid | noPid => exact h.same rfl rfl

/-- An iteration of the handler. -/
theorem follows_of_reaps (h : Follows u) (hreach : shellSystem.Reach u.toShellState)
    (hh : u.handling = true) {pid : ℤ} {s : ShellState} (hr : Reaps u.toShellState pid s) :
    Follows { s with halted := u.watch (.reap pid) } := by
  obtain ⟨hm, hl⟩ := ledger_exact hreach
  have hadd : u.main.adding = none :=
    ShellPc.adding_eq_none (hm.blocked.symm.trans (hm.handling hh))
  have hpos : ∀ {c}, u.children.find? (fun c => c.pid = pid) = some c → 1 ≤ pid := fun hf =>
    hl.pos _ (List.mem_map.2 ⟨_, (find_pid hf).1, rfl⟩) |>.trans_eq (find_pid hf).2
  have hwatch : ∀ {c}, u.children.find? (fun c => c.pid = pid) = some c → u.watch (.reap pid) =
      Function.update u.halted pid (c.state = .stopped false) := fun hf => by
    simp only [Watched.watch, hf]
  -- a terminated child leaves the entries alone or clears one
  have hgone : ∀ i, ((deletejob u.table pid).1.job i).pid ≠ 0 →
      (deletejob u.table pid).1.job i = u.table.job i := by
    intro i hi
    rcases deletejob_cases u.table pid with ⟨he, -⟩ | ⟨k, -, -, hjob, -⟩
    · rw [he]
    · rw [hjob] at hi ⊢
      by_cases hik : i = k
      · rw [hik, Function.update_self] at hi
        exact absurd rfl hi
      · rw [Function.update_of_ne hik]
  have hend : ∀ {s : ShellState}, (∀ i, (s.table.job i).pid ≠ 0 → s.table.job i = u.table.job i) →
      s.main.adding = none → Follows { s with halted := Function.update u.halted pid false } :=
    fun ht hx => h.mono ht (fun _ => unhalt) fun p hp => absurd (hx.symm.trans hp) (by simp)
  cases hr with
  | exited hf hst | signaled hf hst =>
    rw [hwatch hf, hst]
    exact hend hgone hadd
  | signaledCrash hf hst =>
    rw [hwatch hf, hst]
    exact hend (fun _ _ => rfl) rfl
  | @stopped c k hf hst hk =>
    have hkp := getjobpid_spec hk
    have hpid := hpos hf
    rw [hwatch hf, hst]
    refine h.stop hpid (fun i hi => hl.distinct i k ?_ (hi.trans hkp.symm)) rfl hadd
    show (u.table.job i).pid ≠ 0
    omega
  | stoppedCrash hf hst hnone =>
    rw [hwatch hf, hst]
    -- no entry has the pid
    refine ⟨fun i hi hh => ?_, fun p hp => by simp [ShellPc.adding] at hp, fun p hp => ?_⟩
    · have hne := getjobpid_none (hpos hf) hnone i
      simp only [decide_true, Function.update_of_ne hne] at hh
      exact h.states i hi hh
    · simp only [decide_true] at hp
      by_cases he : p = pid
      · exact he ▸ hpos hf
      · rw [Function.update_of_ne he] at hp
        exact h.pos p hp

/-- **Every step** that does not overwrite a stop. -/
theorem follows_next (h : Follows u) (hreach : shellSystem.Reach u.toShellState)
    (hok : AssignsRunning u l) (hn : watchSystem.next u l = some u') : Follows u' := by
  obtain ⟨s, hs, rfl⟩ := watch_next hn
  cases steps_of_next hs with
  | @command argv bg cmdline => exact h.same rfl (ShellPc.adding_eval argv bg cmdline).1
  | eof | killFail => exact h.same rfl rfl
  | main _ hr => exact follows_of_mainRuns h hok hr
  | @fork pid =>
    refine h.mono (fun _ _ => rfl) (fun _ => unhalt) fun p hp => ?_
    obtain rfl : pid = p := Option.some.inj hp
    exact Function.update_self ..
  | forkFail =>
    refine h.mono (fun _ _ => rfl) (fun _ hp => hp) fun p hp => ?_
    obtain rfl : -1 = p := Option.some.inj hp
    by_contra hhalt
    have := h.pos (-1) (by simpa [Watched.watch] using hhalt)
    omega
  | kill hpc =>
    simp only [Watched.watch, hpc]
    exact h.mono (fun _ _ => rfl) (fun _ => unhalt) fun p hp => by simp [ShellPc.adding] at hp
  | reap hh _ hr => exact follows_of_reaps h hreach hh hr
  | setpgid | handler | handlerReturn | child =>
    exact h.mono (fun _ _ => rfl) (fun _ hp => hp) h.adding

/-- Runs that do not overwrite a stop. -/
theorem follows_of_reachBy (h : watchSystem.ReachBy AssignsRunning u) : Follows u := by
  refine h.induct (P := Follows) ?_ fun u l u' hr hf hok hn =>
    follows_next hf (reach_of_watched hr.reach) hok hn
  rintro u ⟨hs, hh⟩
  have hno : ∀ pid, u.halted pid ≠ true := fun pid => by simp [hh]
  exact ⟨fun i _ hi => absurd hi (hno _), fun pid _ => by simp [hh], fun pid hp => absurd hp (hno pid)⟩

/-- **When job states follow the reports.**  Along every run of the shell, outside of
`do_bgfg` every halted job is in state `ST`, exactly if `do_bgfg` never assigns the
state of a job that is halted. -/
theorem states_follow_iff {u₀ : Watched} {ls : List ShellStep} (h₀ : watchSystem.init u₀)
    (hr : watchSystem.run u₀ ls = some u) :
    (∀ p q, ls = p ++ q → ∀ v, watchSystem.run u₀ p = some v → StatesFollow v) ↔
      ∀ p l q, ls = p ++ l :: q → ∀ v, watchSystem.run u₀ p = some v → AssignsRunning v l := by
  refine System.forall_prefix_iff (P := StatesFollow)
    (fun v hv _ => (follows_of_reachBy hv).states) ?_ h₀ hr
  rintro v l v' - - hn hP rfl cmd job pid hpc hlive
  by_contra hhalt
  obtain ⟨s, hs, rfl⟩ := watch_next hn
  simp only [shellSystem, Option.ite_none_left_eq_some] at hs
  -- the job is halted after the assignment, too, and not in state `ST`
  have hstate : s.main.inBgfg = false ∧ (s.table.job job).pid = (v.table.job job).pid ∧
      (s.table.job job).state ≠ .st := by
    cases cmd <;> simp only [mainNext, hpc, Option.some.injEq] at hs <;> rw [← hs.2] <;>
      exact ⟨rfl, setJobState_pid .., by simp [setJobState]⟩
  refine hstate.2.2 (hP hstate.1 job ?_ ?_)
  · show (s.table.job job).pid ≠ 0
    rwa [hstate.2.1]
  · show v.halted (s.table.job job).pid = true
    rw [hstate.2.1]
    simpa using hhalt

/-- The shell under watch before the first command. -/
def watchStart : Watched := { shellStart with halted := fun _ => false }

/-- A job in the background is stopped, and continued with `bg`. -/
def stopAndBg : List ShellStep :=
  [.command ["/bin/cat".toList] true "/bin/cat &".toList, .main, .fork 5, .main, .main, .setpgid 5,
    .child 5 (.stopped false), .handler, .reap 5, .handlerReturn,
    .command ["bg".toList, "%1".toList] false "bg %1".toList, .main, .main, .kill true, .main]

theorem states_follow_iff_stopAndBg :
    (∀ p q, stopAndBg = p ++ q → ∀ v, watchSystem.run watchStart p = some v → StatesFollow v) ↔
      ∀ p l q, stopAndBg = p ++ l :: q → ∀ v, watchSystem.run watchStart p = some v →
        AssignsRunning v l :=
  have h₀ : watchSystem.init watchStart := ⟨rfl, rfl⟩
  states_follow_iff (u := (watchSystem.run watchStart stopAndBg).getD watchStart) h₀ rfl

/-- A running job is named to `fg`; it stops and is reaped after the test of its
state. -/
def stopBeforeFg : List ShellStep :=
  [.command ["/bin/cat".toList] true "/bin/cat &".toList, .main, .fork 5, .main, .main, .setpgid 5,
    .command ["fg".toList, "%1".toList] false "fg %1".toList, .main, .main, .main,
    .child 5 (.stopped false), .handler, .reap 5, .handlerReturn, .main]

/-- **A stop is lost**: the shell waits for a job that is stopped. -/
theorem stop_lost :
    ∃ u, watchSystem.run watchStart stopBeforeFg = some u ∧ u.main = .waitfg 5 ∧
      u.halted 5 = true ∧ (u.table.job 0).pid = 5 ∧ (u.table.job 0).state = .fg ∧
      ¬StatesFollow u := by
  refine ⟨_, rfl, by decide, by decide, by decide, by decide, fun h => ?_⟩
  exact absurd (h (by decide) 0 (by decide) (by decide)) (by decide)

end Shell
end CsappLabs
