/-
# No stale and no missing job

What the job list is for: it lists the children that have not been reaped, so
that the shell can find a job by its pid as long as the pid means that job.

`Ledger` is this part of the shell's state by itself: the pids in the entries,
the unreaped children with what became of their `addjob`, and the pid the main
program is about to add.  A ledger changes in four ways (`LedgerStep`), and each
of them keeps it exact (`Ledger.Exact`).  A step of the shell is a step of its
ledger or leaves it alone (`step_ledger`); here it matters that `eval` holds
`SIGCHLD` back from `fork` to `addjob`, since a child reaped in between would be
added after it is gone.
-/

import CsappLabs.Shell.Eval
import Mathlib.Data.List.Nodup

namespace CsappLabs
namespace Shell

open Lib

/-! ### The ledger -/

/-- The pids of the entries, the unreaped children with the results of their
`addjob`, and the pid about to be added. -/
structure Ledger where
  entry : Fin MAXJOBS → ℤ
  kids : List (ℤ × Option Bool)
  adding : Option ℤ

/-- A change of the ledger. -/
inductive LedgerStep : Ledger → Ledger → Prop
  /-- `fork` returns a pid no unreaped child has -/
  | fork {l : Ledger} {pid : ℤ} (hpid : 1 ≤ pid) (hnew : ∀ k ∈ l.kids, k.1 ≠ pid)
      (hadd : l.adding = none) :
      LedgerStep l ⟨l.entry, (pid, none) :: l.kids, some pid⟩
  /-- `fork` fails -/
  | forkFail {l : Ledger} (hadd : l.adding = none) : LedgerStep l { l with adding := some (-1) }
  /-- `addjob` fills a free entry -/
  | add {l : Ledger} {pid : ℤ} {i : Fin MAXJOBS} (hpid : 1 ≤ pid) (hfree : l.entry i = 0)
      (hadd : l.adding = some pid) :
      LedgerStep l ⟨Function.update l.entry i pid,
        l.kids.map fun k => if k.1 = pid then (k.1, some true) else k, none⟩
  /-- `addjob` refuses -/
  | addFull {l : Ledger} {pid : ℤ} (hadd : l.adding = some pid) :
      LedgerStep l ⟨l.entry, l.kids.map fun k => if k.1 = pid then (k.1, some false) else k, none⟩
  /-- a terminated child is reaped, and its entry cleared -/
  | reap {l : Ledger} {pid : ℤ} {entry : Fin MAXJOBS → ℤ} (hadd : l.adding = none)
      (hentry : (∀ i, l.entry i ≠ pid) ∧ entry = l.entry ∨
        ∃ i, l.entry i = pid ∧ entry = Function.update l.entry i 0) :
      LedgerStep l ⟨entry, l.kids.filter fun k => k.1 ≠ pid, none⟩

/-- The ledger lists exactly the children that are there. -/
structure Ledger.Exact (l : Ledger) : Prop where
  pids : (l.kids.map Prod.fst).Nodup
  pos : ∀ k ∈ l.kids, 1 ≤ k.1
  distinct : ∀ i j, l.entry i ≠ 0 → l.entry i = l.entry j → i = j
  owned : ∀ i, l.entry i ≠ 0 → (l.entry i, some true) ∈ l.kids
  listed : ∀ pid, (pid, some true) ∈ l.kids → ∃ i, l.entry i = pid
  newborn : ∀ pid, (pid, none) ∈ l.kids → l.adding = some pid
  born : ∀ pid, l.adding = some pid → 1 ≤ pid → (pid, none) ∈ l.kids

namespace Ledger.Exact

variable {l l' : Ledger} {pid : ℤ}

/-- A pid determines what became of its `addjob`. -/
theorem unique (h : l.Exact) {a b : Option Bool} (ha : (pid, a) ∈ l.kids)
    (hb : (pid, b) ∈ l.kids) : a = b :=
  congrArg Prod.snd (List.inj_on_of_nodup_map h.pids ha hb rfl)

/-- A pid about to be added is in no entry. -/
theorem not_entered (h : l.Exact) (hadd : l.adding = some pid) (hpid : 1 ≤ pid)
    (i : Fin MAXJOBS) : l.entry i ≠ pid := by
  intro hi
  have hown := h.owned i (by omega)
  rw [hi] at hown
  exact absurd (h.unique hown (h.born pid hadd hpid)) (by simp)

/-- Recording the result of an `addjob` changes no pid. -/
theorem map_fst_record (ks : List (ℤ × Option Bool)) (r : Bool) :
    (ks.map fun k => if k.1 = pid then (k.1, some r) else k).map Prod.fst = ks.map Prod.fst := by
  rw [List.map_map]
  refine List.map_congr_left fun k _ => ?_
  by_cases hk : k.1 = pid <;> simp [hk]

/-- What a recorded list contains. -/
theorem mem_record {ks : List (ℤ × Option Bool)} {r : Bool} {p : ℤ} {a : Option Bool} :
    (p, a) ∈ (ks.map fun k => if k.1 = pid then (k.1, some r) else k) ↔
      p = pid ∧ a = some r ∧ (∃ b, (p, b) ∈ ks) ∨ p ≠ pid ∧ (p, a) ∈ ks := by
  rw [List.mem_map]
  constructor
  · rintro ⟨⟨q, b⟩, hmem, he⟩
    by_cases hq : q = pid
    · rw [if_pos hq] at he
      obtain ⟨rfl, rfl⟩ := Prod.mk.inj he
      exact .inl ⟨hq, rfl, b, hmem⟩
    · rw [if_neg hq] at he
      obtain ⟨rfl, rfl⟩ := Prod.mk.inj he
      exact .inr ⟨hq, hmem⟩
  · rintro (⟨rfl, rfl, b, hmem⟩ | ⟨hne, hmem⟩)
    · exact ⟨(p, b), hmem, if_pos rfl⟩
    · exact ⟨(p, a), hmem, if_neg hne⟩

/-- A newborn child is not in any entry yet. -/
theorem fork (h : l.Exact) (hpid : 1 ≤ pid) (hnew : ∀ k ∈ l.kids, k.1 ≠ pid)
    (hadd : l.adding = none) : Ledger.Exact ⟨l.entry, (pid, none) :: l.kids, some pid⟩ where
  pids := by
    rw [List.map_cons, List.nodup_cons]
    refine ⟨fun hmem => ?_, h.pids⟩
    obtain ⟨k, hk, he⟩ := List.mem_map.1 hmem
    exact hnew k hk he
  pos := List.forall_mem_cons.2 ⟨hpid, h.pos⟩
  distinct := h.distinct
  owned i hi := List.mem_cons_of_mem _ (h.owned i hi)
  listed p hp := by
    rcases List.mem_cons.1 hp with he | hp
    · exact absurd (congrArg Prod.snd he) (by simp)
    · exact h.listed p hp
  newborn p hp := by
    rcases List.mem_cons.1 hp with he | hp
    · exact congrArg some (congrArg Prod.fst he).symm
    · exact absurd (h.newborn p hp) (by simp [hadd])
  born p hp _ := Option.some.inj hp ▸ List.mem_cons_self

/-- Filling a free entry with the newborn child. -/
theorem add (h : l.Exact) {i : Fin MAXJOBS} (hpid : 1 ≤ pid) (hfree : l.entry i = 0)
    (hadd : l.adding = some pid) :
    Ledger.Exact ⟨Function.update l.entry i pid,
      l.kids.map fun k => if k.1 = pid then (k.1, some true) else k, none⟩ where
  pids := by simpa only [map_fst_record] using h.pids
  pos k hk := by
    obtain ⟨p, a⟩ := k
    rcases mem_record.1 hk with ⟨rfl, -⟩ | ⟨-, hk⟩
    · exact hpid
    · exact h.pos _ hk
  distinct j k hj hjk := by
    have hno := h.not_entered hadd hpid
    simp only [Function.update_apply] at hj hjk
    split_ifs at hj hjk with h1 h2 h2
    · exact h1.trans h2.symm
    · exact absurd hjk.symm (hno k)
    · exact absurd hjk (hno j)
    · exact h.distinct j k hj hjk
  owned j hj := by
    simp only [Function.update_apply] at hj ⊢
    refine mem_record.2 ?_
    split_ifs at hj ⊢ with hji
    · exact .inl ⟨rfl, rfl, none, h.born pid hadd hpid⟩
    · exact .inr ⟨h.not_entered hadd hpid j, h.owned j hj⟩
  listed p hp := by
    rcases mem_record.1 hp with ⟨rfl, -⟩ | ⟨-, hp⟩
    · exact ⟨i, Function.update_self ..⟩
    · obtain ⟨j, hj⟩ := h.listed p hp
      have hp1 : 1 ≤ p := h.pos _ hp
      have hji : j ≠ i := by
        rintro rfl
        omega
      exact ⟨j, (Function.update_of_ne hji ..).trans hj⟩
  newborn p hp := by
    rcases mem_record.1 hp with ⟨-, hp, -⟩ | ⟨hne, hp⟩
    · exact absurd hp (by simp)
    · exact absurd (Option.some.inj (hadd.symm.trans (h.newborn p hp))).symm hne
  born p hp := absurd hp (by simp)

/-- A refused `addjob` leaves the child without an entry. -/
theorem addFull (h : l.Exact) (hadd : l.adding = some pid) :
    Ledger.Exact ⟨l.entry,
      l.kids.map fun k => if k.1 = pid then (k.1, some false) else k, none⟩ where
  pids := by simpa only [map_fst_record] using h.pids
  pos k hk := by
    obtain ⟨p, a⟩ := k
    rcases mem_record.1 hk with ⟨-, -, b, hb⟩ | ⟨-, hk⟩
    · exact h.pos (p, b) hb
    · exact h.pos _ hk
  distinct := h.distinct
  owned j hj := by
    have hown := h.owned j hj
    refine mem_record.2 (.inr ⟨?_, hown⟩)
    by_cases hpid : 1 ≤ pid
    · exact h.not_entered hadd hpid j
    · have hj1 : 1 ≤ l.entry j := h.pos _ hown
      show l.entry j ≠ pid
      omega
  listed p hp := by
    rcases mem_record.1 hp with ⟨-, hp, -⟩ | ⟨-, hp⟩
    · exact absurd hp (by simp)
    · exact h.listed p hp
  newborn p hp := by
    rcases mem_record.1 hp with ⟨-, hp, -⟩ | ⟨hne, hp⟩
    · exact absurd hp (by simp)
    · exact absurd (Option.some.inj (hadd.symm.trans (h.newborn p hp))).symm hne
  born p hp := absurd hp (by simp)

/-- Reaping a child and clearing its entry. -/
theorem reap (h : l.Exact) {entry : Fin MAXJOBS → ℤ} (hadd : l.adding = none)
    (hentry : (∀ i, l.entry i ≠ pid) ∧ entry = l.entry ∨
      ∃ i, l.entry i = pid ∧ entry = Function.update l.entry i 0) :
    Ledger.Exact ⟨entry, l.kids.filter fun k => k.1 ≠ pid, none⟩ := by
  -- an entry that is left is as it was, and is not the reaped child's
  have hkeep : ∀ j, entry j ≠ 0 → entry j = l.entry j ∧ l.entry j ≠ pid := by
    rcases hentry with ⟨hno, rfl⟩ | ⟨i, hi, rfl⟩ <;> intro j hj
    · exact ⟨rfl, hno j⟩
    · have hji : j ≠ i := by rintro rfl; exact hj (Function.update_self ..)
      rw [Function.update_of_ne hji] at hj ⊢
      exact ⟨rfl, fun he => hji (h.distinct j i hj (he.trans hi.symm))⟩
  have hleft : ∀ j, l.entry j ≠ pid → entry j = l.entry j := by
    rcases hentry with ⟨-, rfl⟩ | ⟨i, hi, rfl⟩ <;> intro j hj
    · rfl
    · exact Function.update_of_ne (by rintro rfl; exact hj hi) ..
  refine ⟨?_, ?_, ?_, ?_, ?_, ?_, ?_⟩
  · exact h.pids.sublist (List.filter_sublist.map _)
  · exact fun k hk => h.pos k (List.mem_of_mem_filter hk)
  · intro j k hj hjk
    simp only at hj hjk
    obtain ⟨hj', -⟩ := hkeep j hj
    obtain ⟨hk', -⟩ := hkeep k (hjk ▸ hj)
    exact h.distinct j k (hj' ▸ hj) (by rw [← hj', hjk, hk'])
  · intro j hj
    obtain ⟨hj', hne⟩ := hkeep j hj
    simp only at hj ⊢
    rw [hj'] at hj ⊢
    exact List.mem_filter.2 ⟨h.owned j hj, by simpa using hne⟩
  · intro p hp
    obtain ⟨hp, hne⟩ := List.mem_filter.1 hp
    obtain ⟨j, hj⟩ := h.listed p hp
    exact ⟨j, (hleft j (by rw [hj]; simpa using hne)).trans hj⟩
  · intro p hp
    exact absurd (h.newborn p (List.mem_of_mem_filter hp)) (by simp [hadd])
  · exact fun p hp => absurd hp (by simp)

/-- **A step keeps the ledger exact.** -/
theorem step (h : l.Exact) (hs : LedgerStep l l') : l'.Exact := by
  cases hs with
  | fork hpid hnew hadd => exact h.fork hpid hnew hadd
  | forkFail hadd =>
    refine ⟨h.pids, h.pos, h.distinct, h.owned, h.listed, fun p hp => ?_, fun p hp hpos => ?_⟩
    · exact absurd (h.newborn p hp) (by simp [hadd])
    · obtain rfl := Option.some.inj hp
      exact absurd hpos (by norm_num)
  | add hpid hfree hadd => exact h.add hpid hfree hadd
  | addFull hadd => exact h.addFull hadd
  | reap hadd hentry => exact h.reap hadd hentry

end Ledger.Exact

/-! ### The shell keeps a ledger -/

namespace ShellPc

/-- The pid between `fork` and `addjob`. -/
def adding : ShellPc → Option ℤ
  | evalAdd pid _ _ => some pid
  | _ => none

/-- The section of `eval` with `SIGCHLD` blocked. -/
def inBlock : ShellPc → Bool
  | evalFork .. | evalAdd .. | evalUnblock .. => true
  | _ => false

theorem adding_eq_none {x : ShellPc} (h : x.inBlock = false) : x.adding = none := by
  cases x with
  | evalAdd => exact absurd h (by simp [inBlock])
  | _ => rfl

@[simp] theorem adding_eval (argv : List (List Char)) (bg : Bool) (cmdline : List Char) :
    (eval argv bg cmdline).adding = none ∧ (eval argv bg cmdline).inBlock = false := by
  unfold eval
  split
  · exact ⟨rfl, rfl⟩
  · split_ifs <;> first | exact ⟨rfl, rfl⟩ | (unfold doBgfg; split <;> try split_ifs) <;>
      exact ⟨rfl, rfl⟩

end ShellPc

variable {s s' : ShellState}

/-- The ledger of the shell. -/
def ShellState.ledger (s : ShellState) : Ledger where
  entry i := (s.table.job i).pid
  kids := s.children.map fun c => (c.pid, c.added)
  adding := s.main.adding

/-- `SIGCHLD` is blocked from `eval`'s first `sigprocmask` to its second, and the
handler does not run there. -/
structure Masked (s : ShellState) : Prop where
  blocked : s.blocked = s.main.inBlock
  oldset : s.oldset = false
  handling : s.handling = true → s.blocked = false

/-- Setting a job's state changes no pid. -/
@[simp] theorem setJobState_pid (t : JobTable) (k i : Fin MAXJOBS) (state : JobState) :
    ((setJobState t k state).job i).pid = (t.job i).pid := by
  unfold setJobState
  by_cases h : i = k
  · subst h; simp
  · simp [Function.update_of_ne h]

/-- What a step does to the mask and the ledger. -/
def Keeps (s s' : ShellState) : Prop :=
  Masked s' ∧ (s'.ledger = s.ledger ∨ LedgerStep s.ledger s'.ledger)

/-- A step outside the blocked section that changes no pid. -/
theorem Masked.quiet (hm : Masked s) {t : JobTable} {cs : List Child} {x : ShellPc}
    (hpc : s.main.inBlock = false) (hx : x.inBlock = false)
    (ht : ∀ i, (t.job i).pid = (s.table.job i).pid)
    (hcs : cs.map (fun c => (c.pid, c.added)) = s.children.map fun c => (c.pid, c.added)) :
    Keeps s { s with table := t, children := cs, main := x } := by
  refine ⟨⟨?_, hm.oldset, hm.handling⟩, .inl ?_⟩
  · exact hm.blocked.trans (hpc.trans hx.symm)
  · simp only [ShellState.ledger, ht, hcs, ShellPc.adding_eq_none hpc, ShellPc.adding_eq_none hx]

/-- A step of the children that changes no pid. -/
theorem Masked.children (hm : Masked s) {cs : List Child}
    (hcs : cs.map (fun c => (c.pid, c.added)) = s.children.map fun c => (c.pid, c.added)) :
    Keeps s { s with children := cs } :=
  ⟨⟨hm.blocked, hm.oldset, hm.handling⟩, .inl (by simp only [ShellState.ledger, hcs])⟩

/-- Changing what children do changes no pid. -/
theorem map_ident {cs : List Child} {f : Child → Child}
    (hf : ∀ c ∈ cs, (f c).pid = c.pid ∧ (f c).added = c.added) :
    (cs.map f).map (fun c => (c.pid, c.added)) = cs.map fun c => (c.pid, c.added) := by
  rw [List.map_map]
  refine List.map_congr_left fun c hc => ?_
  simp [hf c hc]

/-- **A statement of the main program** keeps the mask and steps the ledger. -/
theorem mainRuns_keeps (hm : Masked s) (hh : s.handling = false) (hr : MainRuns s s.main s') :
    Keeps s s' := by
  have hblock := hm.blocked
  generalize hpc : s.main = x at hr
  cases hr with
  | evalBlock =>
    rw [hpc] at hblock
    exact ⟨⟨rfl, hblock, fun h => absurd (hh.symm.trans h) (by simp)⟩,
      .inl (by simp [ShellState.ledger, hpc, ShellPc.adding])⟩
  | @evalAdd pid bg cmdline =>
    rw [hpc] at hblock
    refine ⟨⟨hblock, hm.oldset, hm.handling⟩, .inr ?_⟩
    have hadd : s.ledger.adding = some pid := by simp [ShellState.ledger, hpc, ShellPc.adding]
    have hrec : ∀ r, (s.children.map (recordAdd pid r)).map (fun c => (c.pid, c.added)) =
        s.ledger.kids.map fun k => if k.1 = pid then (k.1, some r) else k := by
      intro r
      simp only [ShellState.ledger, List.map_map]
      refine List.map_congr_left fun c _ => ?_
      by_cases hc : c.pid = pid <;> simp [recordAdd, hc]
    rcases addjob_cases s.table pid (if bg then .bg else .fg) cmdline with
      ⟨he, -⟩ | ⟨i, hpid, hfree, hret, hjob, -⟩
    · rw [he]
      have := LedgerStep.addFull hadd
      rwa [← hrec] at this
    · have := LedgerStep.add (i := i) hpid hfree hadd
      rw [← hrec] at this
      convert this using 1
      simp only [ShellState.ledger, hret, hjob, Ledger.mk.injEq]
      refine ⟨funext fun k => ?_, trivial, rfl⟩
      by_cases hk : k = i
      · subst hk; simp
      · simp [Function.update_of_ne hk]
  | @evalUnblock pid bg =>
    refine ⟨⟨?_, hm.oldset, fun _ => hm.oldset⟩, .inl ?_⟩
    · cases bg <;> exact hm.oldset
    · cases bg <;> simp [ShellState.ledger, hpc, ShellPc.adding]
  | wait => exact ⟨hm, .inl rfl⟩
  | waited | noJid | getJid | noPid =>
    exact hm.quiet (by rw [hpc]; rfl) rfl (fun _ => rfl) rfl
  | @readPid cmd | @getPid cmd =>
    exact hm.quiet (by rw [hpc]; rfl) (by cases cmd <;> rfl) (fun _ => rfl) rfl
  | fgTest hx =>
    exact hm.quiet (by rw [hpc]; rfl) (by rcases hx with rfl | rfl <;> rfl) (fun _ => rfl) rfl
  | setBg | setFg => exact hm.quiet (by rw [hpc]; rfl) rfl (fun i => setJobState_pid ..) rfl

/-- A child found by its pid. -/
theorem find_pid {cs : List Child} {pid : ℤ} {c : Child}
    (h : cs.find? (fun c => c.pid = pid) = some c) : c ∈ cs ∧ c.pid = pid :=
  ⟨List.mem_of_find?_eq_some h, by simpa using List.find?_some h⟩

/-- No entry has the pid that `getjobpid` does not find. -/
theorem getjobpid_none {t : JobTable} {pid : ℤ} (hpid : 1 ≤ pid) (h : getjobpid t pid = none)
    (i : Fin MAXJOBS) : (t.job i).pid ≠ pid := by
  rw [getjobpid, if_neg (by omega)] at h
  exact firstSlot_eq_none.1 h i

/-- **An iteration of the handler** keeps the mask and steps the ledger. -/
theorem reaps_keeps (hm : Masked s) (hh : s.handling = true)
    (hpos : ∀ c ∈ s.children, 1 ≤ c.pid) {pid : ℤ} (hr : Reaps s pid s') :
    Keeps s s' := by
  have hpc : s.main.inBlock = false := hm.blocked.symm.trans (hm.handling hh)
  have hadd : s.ledger.adding = none := ShellPc.adding_eq_none hpc
  -- the two ways a termination is reaped: with the entry deleted, or without one
  have hreap : 1 ≤ pid → ∀ t x, x.inBlock = false →
      (t = (deletejob s.table pid).1 ∨ t = s.table ∧ ∀ i, (s.table.job i).pid ≠ pid) →
      Keeps s { s with
        table := t, children := s.children.filter fun c => c.pid ≠ pid, main := x } := by
    intro hpid t x hx ht
    refine ⟨⟨hm.blocked.trans (hpc.trans hx.symm), hm.oldset, hm.handling⟩, .inr ?_⟩
    have hentry : (∀ i, s.ledger.entry i ≠ pid) ∧ (fun i => (t.job i).pid) = s.ledger.entry ∨
        ∃ i, s.ledger.entry i = pid ∧
          (fun i => (t.job i).pid) = Function.update s.ledger.entry i 0 := by
      rcases ht with rfl | ⟨rfl, hno⟩
      · rcases deletejob_cases s.table pid with ⟨he, hlt | hno⟩ | ⟨i, -, hi, hjob, -⟩
        · omega
        · exact .inl ⟨hno, by rw [he]; rfl⟩
        · refine .inr ⟨i, hi, funext fun k => ?_⟩
          rw [hjob]
          by_cases hk : k = i
          · subst hk; simp [clearjob]
          · simp [Function.update_of_ne hk, ShellState.ledger]
      · exact .inl ⟨hno, rfl⟩
    have := LedgerStep.reap hadd hentry
    convert this using 1
    simp only [ShellState.ledger, ShellPc.adding_eq_none hx, Ledger.mk.injEq]
    refine ⟨trivial, ?_, trivial⟩
    rw [List.filter_map]
    rfl
  have hpid : ∀ {c}, s.children.find? (fun c => c.pid = pid) = some c → 1 ≤ pid := fun hf =>
    (find_pid hf).2 ▸ hpos _ (find_pid hf).1
  have hstop : (s.children.map fun c => if c.pid = pid then { c with state := .stopped true }
      else c).map (fun c => (c.pid, c.added)) = s.children.map fun c => (c.pid, c.added) :=
    map_ident fun c _ => by split_ifs <;> exact ⟨rfl, rfl⟩
  cases hr with
  | exited hf | signaled hf => exact hreap (hpid hf) _ _ hpc (.inl rfl)
  | signaledCrash hf _ hno =>
    exact hreap (hpid hf) _ _ rfl (.inr ⟨rfl, getjobpid_none (hpid hf) hno⟩)
  | stopped => exact hm.quiet hpc hpc (fun i => setJobState_pid ..) hstop
  | stoppedCrash => exact hm.quiet hpc rfl (fun _ => rfl) hstop

/-- **Every step** keeps the mask and steps the ledger. -/
theorem step_keeps (hm : Masked s) (hpos : ∀ c ∈ s.children, 1 ≤ c.pid) {l : ShellStep}
    (hn : shellSystem.next s l = some s') : Keeps s s' := by
  have hblock := hm.blocked
  cases steps_of_next hn with
  | command hpc => exact hm.quiet (by rw [hpc]; rfl) (ShellPc.adding_eval ..).2 (fun _ => rfl) rfl
  | eof hpc => exact hm.quiet (by rw [hpc]; rfl) rfl (fun _ => rfl) rfl
  | main hh hr => exact mainRuns_keeps hm hh hr
  | fork hpc hpid hnew =>
    rw [hpc] at hblock
    refine ⟨⟨hblock, hm.oldset, hm.handling⟩, .inr ?_⟩
    refine LedgerStep.fork (l := s.ledger) hpid ?_ (by simp [ShellState.ledger, hpc, ShellPc.adding])
    intro k hk
    obtain ⟨c, hc, rfl⟩ := List.mem_map.1 hk
    exact hnew c hc
  | forkFail hpc =>
    rw [hpc] at hblock
    refine ⟨⟨hblock, hm.oldset, hm.handling⟩, .inr ?_⟩
    exact LedgerStep.forkFail (l := s.ledger) (by simp [ShellState.ledger, hpc, ShellPc.adding])
  | kill hpc =>
    refine hm.quiet (by rw [hpc]; rfl) rfl (fun _ => rfl) (map_ident fun c _ => ?_)
    split_ifs
    · unfold Child.cont
      split <;> exact ⟨rfl, rfl⟩
    · exact ⟨rfl, rfl⟩
  | killFail hpc => exact hm.quiet (by rw [hpc]; rfl) rfl (fun _ => rfl) rfl
  | handler hb => exact ⟨⟨hm.blocked, hm.oldset, fun _ => hb⟩, .inl rfl⟩
  | reap hh _ hr => exact reaps_keeps hm hh hpos hr
  | handlerReturn => exact ⟨⟨hm.blocked, hm.oldset, fun h => absurd h (by simp)⟩, .inl rfl⟩
  | setpgid | child => exact hm.children (map_ident fun c _ => by split_ifs <;> exact ⟨rfl, rfl⟩)

/-- **In every state reached** the mask is right and the ledger exact. -/
theorem ledger_exact (h : shellSystem.Reach s) : Masked s ∧ s.ledger.Exact := by
  refine System.ReachBy.induct (P := fun s => Masked s ∧ s.ledger.Exact) ?_ ?_ h
  · rintro s rfl
    refine ⟨⟨rfl, rfl, fun h => absurd h (by decide)⟩, ?_⟩
    refine ⟨List.nodup_nil, ?_, ?_, ?_, ?_, ?_, ?_⟩
    · exact fun k hk => absurd hk List.not_mem_nil
    · exact fun i j hi => absurd rfl hi
    · exact fun i hi => absurd rfl hi
    · exact fun p hp => absurd hp List.not_mem_nil
    · exact fun p hp => absurd hp List.not_mem_nil
    · exact fun p hp => absurd hp (by simp [ShellState.ledger, shellStart, ShellPc.adding])
  · rintro s l s' - ⟨hm, hl⟩ - hn
    have hpos : ∀ c ∈ s.children, 1 ≤ c.pid := fun c hc =>
      hl.pos (c.pid, c.added) (List.mem_map.2 ⟨c, hc, rfl⟩)
    obtain ⟨hm', he | hs⟩ := step_keeps hm hpos hn
    · exact ⟨hm', he ▸ hl⟩
    · exact ⟨hm', hl.step hs⟩

/-- The `addjob` of a child returns true if it finds a free entry, and only then. -/
theorem added_iff_free (hpos : ∀ c ∈ s.children, 1 ≤ c.pid) {pid : ℤ} {bg : Bool}
    {cmdline : List Char} (hpc : s.main = .evalAdd pid bg cmdline)
    (hn : shellSystem.next s .main = some s') {c : Child} (hc : c ∈ s'.children)
    (hpid : c.pid = pid) : c.added = some true ↔ ∃ i, (s.table.job i).pid = 0 := by
  simp only [shellSystem, Option.ite_none_left_eq_some, mainNext, hpc, Option.some.injEq] at hn
  obtain ⟨-, rfl⟩ := hn
  obtain ⟨c₀, hc₀, rfl⟩ := List.mem_map.1 hc
  have hpid₀ : c₀.pid = pid := by
    unfold recordAdd at hpid
    split_ifs at hpid <;> exact hpid
  have hpid1 : 1 ≤ pid := hpid₀ ▸ hpos c₀ hc₀
  rw [recordAdd, if_pos hpid₀]
  rcases addjob_cases s.table pid (if bg then .bg else .fg) cmdline with
    ⟨he, hlt | hfull⟩ | ⟨i, -, hfree, hret, -⟩
  · omega
  · rw [he]
    refine ⟨fun h => absurd h (by simp), fun h => ?_⟩
    obtain ⟨i, hi⟩ := h
    exact absurd hi (hfull i)
  · rw [hret]
    exact ⟨fun _ => ⟨i, hfree⟩, fun _ => rfl⟩

/-- While `SIGCHLD` is not blocked, `addjob` has been called for every unreaped child. -/
theorem added_ne_none (h : shellSystem.Reach s) (hb : s.blocked = false) {c : Child}
    (hc : c ∈ s.children) : c.added ≠ none := by
  obtain ⟨hm, hl⟩ := ledger_exact h
  intro hnone
  have hnew := hl.newborn c.pid (List.mem_map.2 ⟨c, hc, by rw [hnone]⟩)
  have hpc : s.main.inBlock = false := hm.blocked.symm.trans hb
  exact absurd ((ShellPc.adding_eq_none hpc).symm.trans hnew) (by simp)

/-- **No stale and no missing job.**  In every state reached, the pids of the live
entries are pairwise distinct and belong to unreaped children; and while `SIGCHLD`
is not blocked, `addjob` has been called for every unreaped child, and the child
has an entry if the call returned true.  A call does so exactly if it finds a free entry. -/
theorem jobs_match_children (h : shellSystem.Reach s) :
    (∀ i j, (s.table.job i).pid ≠ 0 → (s.table.job i).pid = (s.table.job j).pid → i = j) ∧
      (∀ i, (s.table.job i).pid ≠ 0 → ∃ c ∈ s.children, c.pid = (s.table.job i).pid) ∧
      (s.blocked = false → ∀ c ∈ s.children, c.added ≠ none ∧
        (c.added = some true → ∃ i, (s.table.job i).pid = c.pid)) ∧
      ∀ pid bg cmdline s', s.main = .evalAdd pid bg cmdline → shellSystem.next s .main = some s' →
        ∀ c ∈ s'.children, c.pid = pid →
          (c.added = some true ↔ ∃ i, (s.table.job i).pid = 0) := by
  obtain ⟨-, hl⟩ := ledger_exact h
  have hkid : ∀ c ∈ s.children, (c.pid, c.added) ∈ s.ledger.kids := fun c hc =>
    List.mem_map.2 ⟨c, hc, rfl⟩
  refine ⟨hl.distinct, fun i hi => ?_, fun hb c hc => ⟨added_ne_none h hb hc, fun hadd => ?_⟩, ?_⟩
  · obtain ⟨c, hc, he⟩ := List.mem_map.1 (hl.owned i hi)
    exact ⟨c, hc, congrArg Prod.fst he⟩
  · exact hl.listed c.pid (hadd ▸ hkid c hc)
  · intro pid bg cmdline s' hpc hn c hc hpid
    exact added_iff_free (fun c hc => hl.pos _ (hkid c hc)) hpc hn hc hpid

/-- A job put in the background, which exits before it is added. -/
def earlyExit : ShellState :=
  (shellSystem.run shellStart [.command ["/bin/ls".toList] true "/bin/ls &".toList, .main, .fork 5,
    .child 5 .exited]).getD shellStart

theorem jobs_match_children_earlyExit :
    ∃ s₁ s₂, shellSystem.next earlyExit .main = some s₁ ∧ shellSystem.next s₁ .main = some s₂ ∧
      (∀ c ∈ s₁.children, c.pid = 5 → c.added = some true) ∧
      ∃ i, (s₂.table.job i).pid = 5 := by
  have hreach : shellSystem.Reach earlyExit := .getD_run (.init rfl) _
  refine ⟨_, _, rfl, rfl, fun c hc hpid => ?_, ?_⟩
  · exact ((jobs_match_children hreach).2.2.2 5 true "/bin/ls &".toList _ rfl rfl c hc hpid).2
      ⟨0, rfl⟩
  · exact ((jobs_match_children ((hreach.step (i := .main) rfl).step (i := .main) rfl)).2.2.1 rfl
      ⟨5, false, .exited, some true⟩ (by decide)).2 rfl

end Shell
end CsappLabs
