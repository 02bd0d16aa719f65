/-
# The job table

The job list of `shelllab/tsh.c` and the helper routines that manipulate it.
The table is the array `jobs` together with the global `nextjid`; an index of
the array is what the C code points to, and `none` is its `NULL`.

The loops `for (i = 0; i < MAXJOBS; i++)` that return at the first entry with
some property are `firstSlot`.

Job ids are handed out by two rules that do not agree.  `addjob` counts up and
wraps to `1` past `MAXJOBS`; `deletejob` restarts the count behind the largest
id in use.  After a wrap the count can run into an id that is still in use, and
then two jobs share one.  Ids are `int`s, and the count behind the largest id grows
with every round of `addjob` and `deletejob` on a table that never is empty, until it
overflows.  Ids are positive and distinct exactly as long as neither happens
(`jids_unique_iff`).
-/

import CsappLabs.Lib.CInt
import CsappLabs.Lib.System
import Mathlib.Data.List.FinRange

namespace CsappLabs
namespace Shell

open Lib Lib.CInt

abbrev MAXJOBS : ℕ := 16

/-- Job states; `undefined` marks a free entry. -/
inductive JobState where
  | undefined
  | fg
  | bg
  | st
  deriving DecidableEq

/-- An entry of the job list. -/
structure Job where
  pid : ℤ
  jid : ℤ
  state : JobState
  cmdline : List Char
  deriving DecidableEq

/-- The array `jobs` and the counter `nextjid`. -/
structure JobTable where
  job : Fin MAXJOBS → Job
  nextjid : ℤ

/-- `clearjob` -/
def clearjob : Job := { pid := 0, jid := 0, state := .undefined, cmdline := [] }

/-- `initjobs`, with the initial value of `nextjid`. -/
def initjobs : JobTable := { job := fun _ => clearjob, nextjid := 1 }

/-- The first entry with a property. -/
def firstSlot (t : JobTable) (p : Job → Prop) [DecidablePred p] : Option (Fin MAXJOBS) :=
  (List.finRange MAXJOBS).find? fun i => p (t.job i)

/-- `maxjid` -/
def maxjid (t : JobTable) : ℤ :=
  (List.finRange MAXJOBS).foldl (fun max i => if (t.job i).jid > max then (t.job i).jid else max) 0

/-- `addjob`, with its return value; the `int` `nextjid` wraps. -/
def addjob (t : JobTable) (pid : ℤ) (state : JobState) (cmdline : List Char) : JobTable × Bool :=
  if pid < 1 then (t, false)
  else
    match firstSlot t fun j => j.pid = 0 with
    | some i =>
        ({ job := Function.update t.job i ⟨pid, t.nextjid, state, cmdline⟩
           nextjid := if int32 (t.nextjid + 1) > MAXJOBS then 1 else int32 (t.nextjid + 1) }, true)
    | none => (t, false)

/-- `deletejob`, with its return value. -/
def deletejob (t : JobTable) (pid : ℤ) : JobTable × Bool :=
  if pid < 1 then (t, false)
  else
    match firstSlot t fun j => j.pid = pid with
    | some i =>
        let t' := { t with job := Function.update t.job i clearjob }
        ({ t' with nextjid := int32 (maxjid t' + 1) }, true)
    | none => (t, false)

/-- `fgpid` -/
def fgpid (t : JobTable) : ℤ :=
  match firstSlot t fun j => j.state = .fg with
  | some i => (t.job i).pid
  | none => 0

/-- `getjobpid` -/
def getjobpid (t : JobTable) (pid : ℤ) : Option (Fin MAXJOBS) :=
  if pid < 1 then none else firstSlot t fun j => j.pid = pid

/-- `getjobjid` -/
def getjobjid (t : JobTable) (jid : ℤ) : Option (Fin MAXJOBS) :=
  if jid < 1 then none else firstSlot t fun j => j.jid = jid

/-! ### What the loops find -/

variable {t t' : JobTable} {p : Job → Prop} [DecidablePred p]

theorem firstSlot_spec {i : Fin MAXJOBS} (h : firstSlot t p = some i) : p (t.job i) := by
  simpa using List.find?_some h

theorem firstSlot_eq_none : firstSlot t p = none ↔ ∀ i, ¬p (t.job i) := by
  simp [firstSlot]

theorem exists_firstSlot {i : Fin MAXJOBS} (h : p (t.job i)) :
    ∃ k, firstSlot t p = some k ∧ p (t.job k) := by
  cases hf : firstSlot t p with
  | none => exact absurd h (firstSlot_eq_none.1 hf i)
  | some k => exact ⟨k, rfl, firstSlot_spec hf⟩

/-- `getjobpid` finds an entry with the pid it is given. -/
theorem getjobpid_spec {pid : ℤ} {i : Fin MAXJOBS} (h : getjobpid t pid = some i) :
    (t.job i).pid = pid := by
  rw [getjobpid] at h
  split_ifs at h
  exact firstSlot_spec h

theorem getjobpid_pos {pid : ℤ} {i : Fin MAXJOBS} (h : getjobpid t pid = some i) : 1 ≤ pid := by
  rw [getjobpid] at h
  split_ifs at h
  omega

/-- **What `addjob` does**: nothing, or fill a free entry with the next id. -/
theorem addjob_cases (t : JobTable) (pid : ℤ) (state : JobState) (cmdline : List Char) :
    (addjob t pid state cmdline = (t, false) ∧ (pid < 1 ∨ ∀ i, (t.job i).pid ≠ 0)) ∨
      ∃ i, 1 ≤ pid ∧ (t.job i).pid = 0 ∧
        (addjob t pid state cmdline).2 = true ∧
        (addjob t pid state cmdline).1.job =
          Function.update t.job i ⟨pid, t.nextjid, state, cmdline⟩ ∧
        (addjob t pid state cmdline).1.nextjid =
          if int32 (t.nextjid + 1) > MAXJOBS then 1 else int32 (t.nextjid + 1) := by
  by_cases hpid : pid < 1
  · exact .inl ⟨by rw [addjob, if_pos hpid], .inl hpid⟩
  · cases hf : firstSlot t fun j => j.pid = 0 with
    | none => exact .inl ⟨by rw [addjob, if_neg hpid, hf], .inr (firstSlot_eq_none.1 hf)⟩
    | some i =>
      refine .inr ⟨i, by omega, firstSlot_spec hf, ?_⟩
      rw [addjob, if_neg hpid, hf]
      exact ⟨rfl, rfl, rfl⟩

/-- **What `deletejob` does**: nothing, or clear an entry with this pid and
restart the ids behind the largest one left. -/
theorem deletejob_cases (t : JobTable) (pid : ℤ) :
    (deletejob t pid = (t, false) ∧ (pid < 1 ∨ ∀ i, (t.job i).pid ≠ pid)) ∨
      ∃ i, 1 ≤ pid ∧ (t.job i).pid = pid ∧
        (deletejob t pid).1.job = Function.update t.job i clearjob ∧
        (deletejob t pid).1.nextjid = int32 (maxjid (deletejob t pid).1 + 1) := by
  by_cases hpid : pid < 1
  · exact .inl ⟨by rw [deletejob, if_pos hpid], .inl hpid⟩
  · cases hf : firstSlot t fun j => j.pid = pid with
    | none => exact .inl ⟨by rw [deletejob, if_neg hpid, hf], .inr (firstSlot_eq_none.1 hf)⟩
    | some i =>
      refine .inr ⟨i, by omega, firstSlot_spec hf, ?_⟩
      rw [deletejob, if_neg hpid, hf]
      exact ⟨rfl, rfl⟩

/-! ### Job ids -/

/-- A call on the job list. -/
inductive JobCall where
  | add (pid : ℤ) (state : JobState) (cmdline : List Char)
  | delete (pid : ℤ)

/-- Calls of `addjob` and `deletejob`; no live pid is added again. -/
def jobSystem : System JobTable JobCall where
  init t := t = initjobs
  next t
    | .add pid state cmdline =>
        if ∀ i, (t.job i).pid ≠ 0 → (t.job i).pid ≠ pid then some (addjob t pid state cmdline).1
        else none
    | .delete pid => some (deletejob t pid).1

/-- The ids of the live entries are positive and pairwise distinct. -/
def JidsUnique (t : JobTable) : Prop :=
  (∀ i, (t.job i).pid ≠ 0 → 0 < (t.job i).jid) ∧
    ∀ i j, (t.job i).pid ≠ 0 → (t.job j).pid ≠ 0 → (t.job i).jid = (t.job j).jid → i = j

/-- If the call adds a job, `nextjid` has not overflowed and is not the id of a live entry. -/
def FreshJid (t : JobTable) : JobCall → Prop
  | .add pid _ _ => 1 ≤ pid → (∃ i, (t.job i).pid = 0) →
      0 < t.nextjid ∧ ∀ i, (t.job i).pid ≠ 0 → (t.job i).jid ≠ t.nextjid
  | .delete _ => True

/-- Filling a free entry with a fresh positive id keeps the ids unique. -/
theorem JidsUnique.update (h : JidsUnique t) {k : Fin MAXJOBS} {j : Job}
    (hk : t'.job = Function.update t.job k j)
    (hpos : j.pid ≠ 0 → 0 < j.jid)
    (hfresh : j.pid ≠ 0 → ∀ i, i ≠ k → (t.job i).pid ≠ 0 → (t.job i).jid ≠ j.jid) :
    JidsUnique t' := by
  refine ⟨fun i hi => ?_, fun i i' hi hi' he => ?_⟩
  · rw [hk] at *
    by_cases hik : i = k
    · subst hik
      simp only [Function.update_self] at *
      exact hpos hi
    · simp only [Function.update_of_ne hik] at *
      exact h.1 i hi
  · rw [hk] at hi hi' he
    by_cases hik : i = k <;> by_cases hik' : i' = k
    · exact hik.trans hik'.symm
    · subst hik
      simp only [Function.update_self, Function.update_of_ne hik'] at hi hi' he
      exact absurd he.symm (hfresh hi i' hik' hi')
    · subst hik'
      simp only [Function.update_self, Function.update_of_ne hik] at hi hi' he
      exact absurd he (hfresh hi' i hik hi)
    · simp only [Function.update_of_ne hik, Function.update_of_ne hik'] at hi hi' he
      exact h.2 i i' hi hi' he

/-- Calls that find a fresh id keep the ids unique. -/
theorem jidsUnique_of_reachBy (h : jobSystem.ReachBy FreshJid t) : JidsUnique t := by
  refine h.induct (P := JidsUnique) ?_ ?_
  · rintro t rfl
    exact ⟨fun i hi => absurd rfl hi, fun i j hi => absurd rfl hi⟩
  · rintro t c t' - hu hok hn
    cases c with
    | add pid state cmdline =>
      simp only [jobSystem, Option.ite_none_right_eq_some, Option.some.injEq] at hn
      obtain ⟨-, rfl⟩ := hn
      rcases addjob_cases t pid state cmdline with ⟨he, -⟩ | ⟨i, hpid, hfree, -, hjob, -⟩
      · rw [he]; exact hu
      · obtain ⟨hpos, hfresh⟩ := hok hpid ⟨i, hfree⟩
        exact hu.update hjob (fun _ => hpos) fun _ k _ hk => hfresh k hk
    | delete pid =>
      obtain rfl := Option.some.inj hn
      rcases deletejob_cases t pid with ⟨he, -⟩ | ⟨i, -, -, hjob, -⟩
      · rw [he]; exact hu
      · exact hu.update hjob (fun h => absurd rfl h) fun h => absurd rfl h

/-- **When job ids are unique.**  Along every sequence of calls, the live ids are
positive and distinct in every state exactly if every `addjob` that fills an
entry finds `nextjid` positive and not in use. -/
theorem jids_unique_iff {cs : List JobCall} {t : JobTable}
    (hr : jobSystem.run initjobs cs = some t) :
    (∀ p q, cs = p ++ q → ∀ u, jobSystem.run initjobs p = some u → JidsUnique u) ↔
      ∀ p c q, cs = p ++ c :: q → ∀ u, jobSystem.run initjobs p = some u → FreshJid u c := by
  refine System.forall_prefix_iff (fun s hs => jidsUnique_of_reachBy hs) ?_ rfl hr
  intro s c s' _ _ hn hu'
  cases c with
  | delete pid => trivial
  | add pid state cmdline =>
    rintro hpid ⟨k, hk⟩
    simp only [jobSystem, Option.ite_none_right_eq_some, Option.some.injEq] at hn
    obtain ⟨-, rfl⟩ := hn
    rcases addjob_cases s pid state cmdline with ⟨-, h | h⟩ | ⟨f, -, hfree, -, hjob, -⟩
    · omega
    · exact absurd hk (h k)
    · have hnew : (addjob s pid state cmdline).1.job f = ⟨pid, s.nextjid, state, cmdline⟩ := by
        rw [hjob, Function.update_self]
      have hlive : ((addjob s pid state cmdline).1.job f).pid ≠ 0 := by
        rw [hnew]
        exact (show 0 < pid by omega).ne'
      refine ⟨by simpa only [hnew] using hu'.1 f hlive, fun i hi heq => ?_⟩
      -- the new entry takes the id of entry `i`
      have hif : i ≠ f := fun e => hi (e ▸ hfree)
      have hold : (addjob s pid state cmdline).1.job i = s.job i := by
        rw [hjob, Function.update_of_ne hif]
      exact hif (hu'.2 i f (by rwa [hold]) hlive (by rw [hold, hnew, heq]))

/-- `jids_unique_iff` for a job added, deleted and added again. -/
theorem jids_unique_iff_addAgain :
    (∀ p q, [.add 7 .fg [], .delete 7, .add 7 .bg []] = p ++ q →
        ∀ u, jobSystem.run initjobs p = some u → JidsUnique u) ↔
      ∀ p c q, [.add 7 .fg [], .delete 7, .add 7 .bg []] = p ++ c :: q →
        ∀ u, jobSystem.run initjobs p = some u → FreshJid u c :=
  jids_unique_iff (t := ((jobSystem.run initjobs
    [.add 7 .fg [], .delete 7, .add 7 .bg []]).getD initjobs)) rfl

/-- With unique ids, `getjobjid` finds the one live entry with the id. -/
theorem getjobjid_eq (h : JidsUnique t) {jid : ℤ} {i j : Fin MAXJOBS}
    (hi : getjobjid t jid = some i) (hlive : (t.job i).pid ≠ 0) (hj : (t.job j).pid ≠ 0)
    (hjid : (t.job j).jid = jid) : j = i := by
  rw [getjobjid] at hi
  split_ifs at hi
  exact h.2 j i hj hlive (hjid.trans (firstSlot_spec hi).symm)

/-- Fifteen jobs, the second deleted, and two more: the ids `1` to `15`, then
`16`, which wraps the counter, then `1` again. -/
def wrapCalls : List JobCall :=
  (List.range 15).map (fun i => .add (i + 1) .bg []) ++ [.delete 2, .add 16 .bg [], .add 17 .bg []]

/-- Two live jobs can have one id. -/
theorem jids_not_unique :
    ∃ t, jobSystem.run initjobs wrapCalls = some t ∧ ¬JidsUnique t := by
  refine ⟨_, rfl, fun h => ?_⟩
  have := h.2 0 15 (by decide) (by decide) (by decide +kernel)
  exact absurd this (by decide)

end Shell
end CsappLabs
