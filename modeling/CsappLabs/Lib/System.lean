/-
# Labelled systems and their runs

A program under an arbitrary scheduler is a set of initial states and a partial
step function: `next s i` is the state after the step labelled `i`, or `none`
where the step is not enabled in `s`.  All nondeterminism sits in the label, so
a run is a list of labels and can be computed (`System.run`).

`System.ReachBy ok` collects the states of the runs whose every step meets a
condition `ok` on the state before the step and its label.  `System.Reach` is
the case without condition.  An invariant is proved once per step
(`System.ReachBy.induct`), and a simulation carries reachability from one
system to another (`System.ReachBy.simulate`).
-/

import Mathlib.Data.List.Induction
import Mathlib.Tactic.TypeStar

namespace Lib

/-- A labelled system: its initial states, and the state each label leads to
from a state where it is enabled. -/
structure System (σ : Type*) (ι : Type*) where
  init : σ → Prop
  next : σ → ι → Option σ

namespace System

variable {σ τ ι : Type*} {S : System σ ι} {ok : σ → ι → Prop}

/-- The states of the runs whose every step meets `ok`. -/
inductive ReachBy (S : System σ ι) (ok : σ → ι → Prop) : σ → Prop
  | init {s : σ} : S.init s → ReachBy S ok s
  | step {s s' : σ} {i : ι} : ReachBy S ok s → ok s i → S.next s i = some s' → ReachBy S ok s'

/-- The states of all runs. -/
def Reach (S : System σ ι) : σ → Prop := S.ReachBy fun _ _ => True

/-- **The invariant rule.**  What holds initially and is preserved by every
step that meets `ok` holds in every state reached; the step may use that its
first state is itself reached. -/
theorem ReachBy.induct {P : σ → Prop} (h0 : ∀ s, S.init s → P s)
    (hstep : ∀ s i s', S.ReachBy ok s → P s → ok s i → S.next s i = some s' → P s') {s : σ}
    (h : S.ReachBy ok s) : P s := by
  induction h with
  | init h => exact h0 _ h
  | step hr hok hn ih => exact hstep _ _ _ hr ih hok hn

/-- A weaker condition reaches at least as much. -/
theorem ReachBy.mono {ok' : σ → ι → Prop} (hok : ∀ s i, ok s i → ok' s i) {s : σ}
    (h : S.ReachBy ok s) : S.ReachBy ok' s :=
  h.induct (fun _ h0 => .init h0) fun _ i _ _ ih h hn => .step ih (hok _ i h) hn

theorem ReachBy.reach {s : σ} (h : S.ReachBy ok s) : S.Reach s := h.mono fun _ _ _ => trivial

theorem Reach.step {s s' : σ} {i : ι} (h : S.Reach s) (hn : S.next s i = some s') :
    S.Reach s' := ReachBy.step h trivial hn

/-- **The simulation rule.**  A relation that covers the initial states and is
kept by the steps meeting `ok`, the second system taking the step with the same
label, relates every state reached to a reached one. -/
theorem ReachBy.simulate {T : System τ ι} {R : σ → τ → Prop}
    (h0 : ∀ s, S.init s → ∃ t, T.init t ∧ R s t)
    (hstep : ∀ s t i s', R s t → ok s i → S.next s i = some s' →
      ∃ t', T.next t i = some t' ∧ R s' t') {s : σ} (h : S.ReachBy ok s) :
    ∃ t, T.Reach t ∧ R s t := by
  refine h.induct (P := fun s => ∃ t, T.Reach t ∧ R s t) (fun s hs => ?_) ?_
  · obtain ⟨t, ht, hR⟩ := h0 s hs
    exact ⟨t, .init ht, hR⟩
  · rintro s i s' - ⟨t, ht, hR⟩ hok hn
    obtain ⟨t', hn', hR'⟩ := hstep s t i s' hR hok hn
    exact ⟨t', ht.step hn', hR'⟩

/-- The system with only the labels that pass a test. -/
def restrict (S : System σ ι) (p : ι → Bool) : System σ ι where
  init := S.init
  next s i := if p i then S.next s i else none

/-- The runs with some labels only are runs. -/
theorem ReachBy.of_restrict {p : ι → Bool} {s : σ} (h : (S.restrict p).ReachBy ok s) :
    S.ReachBy (fun s i => ok s i ∧ p i = true) s := by
  refine h.induct (fun _ h0 => .init h0) fun s i s' _ ih hok hn => ?_
  obtain ⟨hp, hn⟩ := Option.ite_none_right_eq_some.1 hn
  exact .step ih ⟨hok, hp⟩ hn

/-- The state after a list of labels. -/
def run (S : System σ ι) : σ → List ι → Option σ
  | s, [] => some s
  | s, i :: is => (S.next s i).bind fun s' => S.run s' is

@[simp] theorem run_nil (s : σ) : S.run s [] = some s := rfl

theorem run_cons (s : σ) (i : ι) (is : List ι) :
    S.run s (i :: is) = (S.next s i).bind fun s' => S.run s' is := rfl

/-- A run of a concatenation runs one list after the other. -/
theorem run_append (s : σ) (is js : List ι) :
    S.run s (is ++ js) = (S.run s is).bind fun s' => S.run s' js := by
  induction is generalizing s with
  | nil => rfl
  | cons i is ih =>
    simp only [List.cons_append, run_cons, Option.bind_assoc]
    exact congrArg _ (funext fun s' => ih s')

/-- The state after one more label. -/
theorem run_concat {s s' : σ} {is : List ι} (h : S.run s is = some s') (i : ι) :
    S.run s (is ++ [i]) = S.next s' i := by
  rw [run_append, h, Option.bind_some, run_cons]
  cases S.next s' i <;> rfl

/-- A computed run from a reached state ends in a reached state. -/
theorem Reach.run {s s' : σ} {is : List ι} (h : S.Reach s) (hr : S.run s is = some s') :
    S.Reach s' := by
  induction is generalizing s with
  | nil => exact Option.some.inj hr ▸ h
  | cons i is ih =>
    obtain ⟨s₁, hn, hr⟩ := Option.bind_eq_some_iff.1 hr
    exact ih (h.step hn) hr

/-- The end of a computed run, or its start where the run is not enabled, is
reached. -/
theorem Reach.getD_run {s : σ} (h : S.Reach s) (is : List ι) : S.Reach ((S.run s is).getD s) := by
  cases hr : S.run s is with
  | none => exact h
  | some s' => exact h.run hr

/-- The state after a list of labels, if every step of it meets `ok`. -/
def runBy (S : System σ ι) (ok : σ → ι → Prop) [∀ s i, Decidable (ok s i)] :
    σ → List ι → Option σ
  | s, [] => some s
  | s, i :: is => if ok s i then (S.next s i).bind fun s' => S.runBy ok s' is else none

/-- The end of a computed run whose steps meet `ok` is reached by such steps. -/
theorem ReachBy.getD_runBy [∀ s i, Decidable (ok s i)] {s : σ} (h : S.ReachBy ok s)
    (is : List ι) : S.ReachBy ok ((S.runBy ok s is).getD s) := by
  suffices hrun : ∀ s', S.runBy ok s is = some s' → S.ReachBy ok s' by
    cases hr : S.runBy ok s is with
    | none => exact h
    | some s' => exact hrun s' hr
  induction is generalizing s with
  | nil => exact fun s' hr => Option.some.inj hr ▸ h
  | cons i is ih =>
    intro s' hr
    rw [runBy, Option.ite_none_right_eq_some] at hr
    obtain ⟨hok, hr⟩ := hr
    obtain ⟨s₁, hn, hr⟩ := Option.bind_eq_some_iff.1 hr
    exact ih (h.step hok hn) s' hr

/-- **Reached states are the ends of runs.** -/
theorem reachBy_iff {s : σ} : S.ReachBy ok s ↔ ∃ s₀ is, S.init s₀ ∧ S.run s₀ is = some s ∧
    ∀ p i q, is = p ++ i :: q → ∀ t, S.run s₀ p = some t → ok t i := by
  constructor
  · intro h
    refine h.induct (P := fun s => ∃ s₀ is, S.init s₀ ∧ S.run s₀ is = some s ∧
      ∀ p i q, is = p ++ i :: q → ∀ t, S.run s₀ p = some t → ok t i) ?_ ?_
    · exact fun s h => ⟨s, [], h, rfl, fun p i q hp => by simp at hp⟩
    · rintro s i s' - ⟨s₀, is, h₀, hr, hall⟩ hok hn
      refine ⟨s₀, is ++ [i], h₀, (run_concat hr i).trans hn, fun p j q hp t ht => ?_⟩
      rcases List.eq_nil_or_concat q with rfl | ⟨q, k, rfl⟩
      · obtain ⟨rfl, hij⟩ := List.append_inj' hp rfl
        obtain rfl : s = t := Option.some.inj (hr.symm.trans ht)
        exact (List.cons.inj hij).1 ▸ hok
      · rw [List.concat_eq_append, ← List.cons_append, ← List.append_assoc] at hp
        exact hall p j q (List.append_inj' hp rfl).1 t ht
  · rintro ⟨s₀, is, h₀, hr, hall⟩
    induction is using List.reverseRecOn generalizing s with
    | nil => exact Option.some.inj hr ▸ .init h₀
    | append_singleton is i ih =>
      rw [run_append] at hr
      obtain ⟨t, ht, hn⟩ := Option.bind_eq_some_iff.1 hr
      rw [run_cons] at hn
      obtain ⟨s₁, hn, hs⟩ := Option.bind_eq_some_iff.1 hn
      have hpre := ih ht fun p j q hp u hu =>
        hall p j (q ++ [i]) (by rw [hp, List.append_assoc, List.cons_append]) u hu
      exact Option.some.inj hs ▸ .step hpre (hall is i [] rfl t ht) hn

/-- **Where a property of runs breaks.**  If steps meeting `ok` reach only states
with `P`, and a step from a state with `P` that does not meet `ok` leaves `P`,
then along every run `P` holds throughout exactly if every step meets `ok`. -/
theorem forall_prefix_iff {P : σ → Prop} (hP : ∀ s, S.ReachBy ok s → P s)
    (hbad : ∀ s i s', S.Reach s → P s → S.next s i = some s' → P s' → ok s i) {s₀ s : σ}
    {is : List ι} (h₀ : S.init s₀) (hr : S.run s₀ is = some s) :
    (∀ p q, is = p ++ q → ∀ t, S.run s₀ p = some t → P t) ↔
      ∀ p i q, is = p ++ i :: q → ∀ t, S.run s₀ p = some t → ok t i := by
  constructor
  · rintro hall p i q rfl t ht
    rw [run_append, ht, Option.bind_some, run_cons] at hr
    obtain ⟨t', hn, -⟩ := Option.bind_eq_some_iff.1 hr
    have ht' : S.run s₀ (p ++ [i]) = some t' := (run_concat ht i).trans hn
    exact hbad t i t' (.run (.init h₀) ht) (hall p (i :: q) rfl t ht) hn
      (hall (p ++ [i]) q (by simp) t' ht')
  · rintro hall p q rfl t ht
    refine hP t (reachBy_iff.2 ⟨s₀, p, h₀, ht, ?_⟩)
    rintro p' i q' rfl u hu
    exact hall p' i (q' ++ q) (by simp) u hu

end System

end Lib
