/-
# The handler comes to its end

`sigchld_handler` reaps every child that `waitpid` has something to report of, and returns.
What a run of it to its end does to the job list is one structure (`Swept`): an entry is kept,
or it is cleared because its child has terminated, and no terminated child keeps an entry.
-/

import CsappLabs.Lib.Progress
import CsappLabs.Shell.Coherence

namespace CsappLabs
namespace Shell

open Lib

/-- `fork()` does not fail, and `kill(-pid, SIGCONT)` returns `0` only if there is such a
group. -/
def Ordinary (s : ShellState) (l : ShellStep) : Prop :=
  l ≠ .forkFail ∧ (l = .kill true → ∀ cmd job pid, s.main = .kill cmd job pid → pid ≠ 0 →
    ∃ c ∈ s.children, c.pgid = pid)

/-- The child has terminated. -/
def Child.done (c : Child) : Bool :=
  match c.state with
  | .exited | .signaled => true
  | _ => false

variable {s s' t : ShellState} {l : ShellStep} {pid : ℤ} {c : Child}

/-- What a run of the handler to its end does to the state. -/
structure Swept (s t : ShellState) : Prop where
  reach : shellSystem.ReachBy AssignsLive t
  handling : t.handling = false
  main : t.main = s.main
  kept : ∀ i, (t.table.job i).pid = (s.table.job i).pid ∨
    (t.table.job i).pid = 0 ∧ ∃ c ∈ s.children, c.pid = (s.table.job i).pid ∧ c.done = true
  gone : ∀ c ∈ s.children, c.done = true → ∀ i, (t.table.job i).pid ≠ c.pid

theorem assignsLive_of_ne (h : l ≠ .main) : AssignsLive s l := fun he => absurd he h

theorem ordinary_of_ne (hf : l ≠ .forkFail) (hk : l ≠ .kill true) : Ordinary s l :=
  ⟨hf, fun he => absurd he hk⟩

/-- The children have different pids, which are positive. -/
theorem children_pids (h : shellSystem.Reach s) :
    (s.children.map Child.pid).Nodup ∧ ∀ c ∈ s.children, 1 ≤ c.pid := by
  obtain ⟨-, hl⟩ := ledger_exact h
  refine ⟨?_, fun c hc => hl.pos (c.pid, c.added) (List.mem_map.2 ⟨c, hc, rfl⟩)⟩
  have hnd := hl.pids
  rwa [ShellState.ledger, List.map_map] at hnd

/-- A child is found by its pid. -/
theorem find_child (h : shellSystem.Reach s) (hc : c ∈ s.children) :
    s.children.find? (fun d => d.pid = c.pid) = some c := by
  obtain ⟨hnd, -⟩ := children_pids h
  cases hf : s.children.find? (fun d => decide (d.pid = c.pid)) with
  | none => exact absurd (decide_eq_true rfl) (List.find?_eq_none.1 hf c hc)
  | some d =>
    have hd : d.pid = c.pid := by simpa using List.find?_some hf
    rw [List.inj_on_of_nodup_map hnd (List.mem_of_find?_eq_some hf) hc hd]

/-- A child that `waitpid` can report is reaped. -/
theorem exists_reap (h : shellSystem.Reach s) (hh : s.handling = true) (hne : s.main ≠ .exited)
    (hc : c ∈ s.children) (hw : c.waitable = true) :
    ∃ s', shellSystem.next s (.reap c.pid) = some s' := by
  have hf := find_child h hc
  have hn : shellSystem.next s (.reap c.pid) = reapNext s c.pid := if_pos ⟨hh, hne⟩
  rw [hn, reapNext, hf]
  cases hst : c.state with
  | running => simp [Child.waitable, hst] at hw
  | exited => simp [hst]
  | signaled => cases getjobpid s.table c.pid <;> simp [hst]
  | stopped reported =>
    cases reported with
    | true => simp [Child.waitable, hst] at hw
    | false => cases getjobpid s.table c.pid <;> simp [hst]

/-- The pids of the entries after `deletejob`. -/
theorem deletejob_pid (h : shellSystem.Reach s) (hpid : 1 ≤ pid) (i : Fin MAXJOBS) :
    ((deletejob s.table pid).1.job i).pid =
      if (s.table.job i).pid = pid then 0 else (s.table.job i).pid := by
  obtain ⟨-, hl⟩ := ledger_exact h
  rcases deletejob_cases s.table pid with ⟨he, hno⟩ | ⟨k, -, hk, hjob, -⟩
  · rw [he, if_neg (hno.resolve_left (by omega) i)]
  · rw [hjob]
    by_cases hik : i = k
    · subst hik
      rw [Function.update_self, if_pos hk]
      rfl
    · have hne : (s.table.job i).pid ≠ pid := fun he =>
        hik (hl.distinct i k (by show (s.table.job i).pid ≠ 0; omega) (he.trans hk.symm))
      rw [Function.update_of_ne hik, if_neg hne]

theorem countP_lt_countP {α : Type*} {p q : α → Bool} {l : List α} {x : α}
    (hle : ∀ y ∈ l, q y = true → p y = true) (hx : x ∈ l) (hp : p x = true) (hq : q x = false) :
    l.countP q < l.countP p := by
  obtain ⟨u, v, rfl⟩ := List.append_of_mem hx
  have hu : u.countP q ≤ u.countP p := List.countP_mono_left fun y hy => hle y (by simp [hy])
  have hv : v.countP q ≤ v.countP p := List.countP_mono_left fun y hy => hle y (by simp [hy])
  rw [List.countP_append, List.countP_append, List.countP_cons, List.countP_cons, hp, hq]
  simp only [if_true, Bool.false_eq_true, if_false]
  omega

/-- One child is reaped. -/
structure Reaped (s : ShellState) (c : Child) (s' : ShellState) : Prop where
  main : s'.main = s.main
  handling : s'.handling = s.handling
  fewer : s'.children.countP Child.waitable < s.children.countP Child.waitable
  kept : ∀ i, (s'.table.job i).pid = (s.table.job i).pid ∨
    (s'.table.job i).pid = 0 ∧ c.pid = (s.table.job i).pid ∧ c.done = true
  gone : c.done = true → ∀ i, (s'.table.job i).pid ≠ c.pid
  still : ∀ d ∈ s.children, d.done = true → d = c ∨ d ∈ s'.children
  back : ∀ d ∈ s'.children, d.done = true → d ∈ s.children

/-- A terminated child is taken out, and its entry is cleared. -/
theorem reaped_delete (h : shellSystem.Reach s) (hc : c ∈ s.children) (hd : c.done = true)
    (hw : c.waitable = true) : Reaped s c { s with
      table := (deletejob s.table c.pid).1
      children := s.children.filter fun d => d.pid ≠ c.pid } where
  main := rfl
  handling := rfl
  fewer := by
    rw [List.countP_filter]
    exact countP_lt_countP (fun d _ hd => (Bool.and_eq_true_iff.1 hd).1) hc hw (by simp)
  kept i := by
    rw [deletejob_pid h ((children_pids h).2 c hc)]
    split_ifs with he
    · exact .inr ⟨rfl, he.symm, hd⟩
    · exact .inl rfl
  gone _ i := by
    have hpos := (children_pids h).2 c hc
    rw [deletejob_pid h hpos]
    split_ifs with he
    · omega
    · exact he
  still d hdm _ := by
    by_cases he : d.pid = c.pid
    · exact .inl (List.inj_on_of_nodup_map (children_pids h).1 hdm hc he)
    · exact .inr (List.mem_filter.2 ⟨hdm, decide_eq_true he⟩)
  back d hdm _ := (List.mem_filter.1 hdm).1

/-- A stop is reported. -/
theorem reaped_stop (h : shellSystem.Reach s) (hc : c ∈ s.children)
    (hst : c.state = .stopped false) (job : Fin MAXJOBS) : Reaped s c { s with
      table := setJobState s.table job .st
      children := s.children.map fun d =>
        if d.pid = c.pid then { d with state := .stopped true } else d } := by
  have hdone : c.done = false := by rw [Child.done, hst]
  have hone : ∀ d ∈ s.children, d.pid = c.pid → d = c := fun d hd he =>
    List.inj_on_of_nodup_map (children_pids h).1 hd hc he
  refine ⟨rfl, rfl, ?_, fun i => .inl (setJobState_pid ..), fun hd => ?_, fun d hd hdd => .inr ?_,
    fun d hd hdd => ?_⟩
  · rw [List.countP_map]
    refine countP_lt_countP (fun d _ hd => ?_) hc (by rw [Child.waitable, hst]; rfl) ?_
    · by_cases he : d.pid = c.pid
      · simp [he, Child.waitable] at hd
      · simpa [he] using hd
    · simp [Child.waitable]
  · exact absurd hd (by simp [hdone])
  · refine List.mem_map.2 ⟨d, hd, if_neg fun he => ?_⟩
    rw [hone d hd he, hdone] at hdd
    exact absurd hdd (by simp)
  · obtain ⟨e, he, rfl⟩ := List.mem_map.1 hd
    by_cases hp : e.pid = c.pid
    · simp [hp, Child.done] at hdd
    · rwa [if_neg hp]

/-- Reaping one child: the shell crashes, or the child is reaped. -/
theorem reaped_of_reaps (h : shellSystem.Reach s) (hc : c ∈ s.children)
    (hr : Reaps s c.pid s') : s'.main = .exited ∨ Reaped s c s' := by
  have hfind := find_child h hc
  have hsame : ∀ {d : Child}, s.children.find? (fun d => d.pid = c.pid) = some d → d = c :=
    fun hf => (Option.some.inj (hfind.symm.trans hf)).symm
  cases hr with
  | exited hf hst =>
    obtain rfl := hsame hf
    exact .inr (reaped_delete h hc (by rw [Child.done, hst]) (by rw [Child.waitable, hst]))
  | signaled hf hst =>
    obtain rfl := hsame hf
    exact .inr (reaped_delete h hc (by rw [Child.done, hst]) (by rw [Child.waitable, hst]))
  | signaledCrash | stoppedCrash => exact .inl rfl
  | stopped hf hst =>
    obtain rfl := hsame hf
    exact .inr (reaped_stop h hc hst _)

theorem waitable_of_done (h : c.done = true) : c.waitable = true := by
  cases hst : c.state <;> simp [Child.done, hst] at h <;> simp [Child.waitable, hst]

theorem Swept.of_reaped (h : shellSystem.Reach s) (hc : c ∈ s.children) (hr : Reaped s c s')
    (ht : Swept s' t) : Swept s t := by
  refine ⟨ht.reach, ht.handling, ht.main.trans hr.main, fun i => ?_, fun d hd hdd i => ?_⟩
  · rcases hr.kept i with he | ⟨hz, hpid, hdone⟩
    · rw [← he]
      exact (ht.kept i).imp_right fun ⟨hz, d, hd, hp, hdd⟩ => ⟨hz, d, hr.back d hd hdd, hp, hdd⟩
    · refine .inr ⟨?_, c, hc, hpid, hdone⟩
      rcases ht.kept i with he | ⟨hz', -⟩
      · exact he.trans hz
      · exact hz'
  · rcases hr.still d hd hdd with rfl | hd
    · have hpos := (children_pids h).2 d hc
      rcases ht.kept i with he | ⟨hz, -⟩
      · exact he ▸ hr.gone hdd i
      · omega
    · exact ht.gone d hd hdd i

/-- **The handler comes to its end**, or the shell crashes in it. -/
theorem canReach_swept (h : shellSystem.ReachBy AssignsLive s) (hh : s.handling = true)
    (hne : s.main ≠ .exited) :
    shellSystem.CanReach Ordinary (fun t => t.main = .exited ∨ Swept s t) s := by
  generalize hn : s.children.countP Child.waitable = n
  induction n using Nat.strong_induction_on generalizing s with
  | _ n ih =>
    by_cases hall : ∃ c ∈ s.children, c.waitable = true
    · obtain ⟨c, hc, hw⟩ := hall
      obtain ⟨s₁, hs₁⟩ := exists_reap h.reach hh hne hc hw
      have hr : Reaps s c.pid s₁ := by
        cases steps_of_next hs₁ with
        | reap _ _ hr => exact hr
      have h₁ := h.step (assignsLive_of_ne (by simp)) hs₁
      refine .step (ordinary_of_ne (by simp) (by simp)) hs₁ ?_
      rcases reaped_of_reaps h.reach hc hr with hex | hR
      · exact .here (.inl hex)
      · refine (ih _ (hn ▸ hR.fewer) h₁ (hR.handling.trans hh) (hR.main ▸ hne) rfl).trans ?_
        rintro t (hex | ht)
        · exact .here (.inl hex)
        · exact .here (.inr (ht.of_reaped h.reach hc hR))
    · have hno : ∀ c ∈ s.children, c.waitable = false := fun c hc =>
        Bool.eq_false_iff.2 fun hw => hall ⟨c, hc, hw⟩
      have hret : shellSystem.next s .handlerReturn = some { s with handling := false } :=
        if_pos ⟨hh, hne, hno⟩
      refine .step (ordinary_of_ne (by simp) (by simp)) hret (.here (.inr ?_))
      refine ⟨h.step (assignsLive_of_ne (by simp)) hret, rfl, rfl, fun _ => .inl rfl, ?_⟩
      exact fun c hc hd => absurd (waitable_of_done hd) (by simp [hno c hc])

end Shell
end CsappLabs
