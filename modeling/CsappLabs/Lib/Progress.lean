/-
# What can still be reached

`CanReach ok P s` says that from `s` a state with `P` is reached by some steps that meet
`ok`.  It is what is left of progress where the scheduler is arbitrary: the system is not
stuck in `s`.  The opposite is an invariant of the runs from `s` (`run_induct`).

Where a rank drops with every step, all runs end (`length_add_rank_le`).
-/

import CsappLabs.Lib.System

namespace Lib
namespace System

variable {σ ι : Type*} {S : System σ ι} {ok : σ → ι → Prop} {P Q : σ → Prop} {s s' : σ} {i : ι}

/-- A state with `P` can be reached by steps that meet `ok`. -/
inductive CanReach (S : System σ ι) (ok : σ → ι → Prop) (P : σ → Prop) : σ → Prop
  | here {s : σ} : P s → CanReach S ok P s
  | step {s s' : σ} {i : ι} : ok s i → S.next s i = some s' → CanReach S ok P s' →
      CanReach S ok P s

/-- From what can be reached, more can be reached. -/
theorem CanReach.trans (h : S.CanReach ok Q s) (hQ : ∀ t, Q t → S.CanReach ok P t) :
    S.CanReach ok P s := by
  induction h with
  | here h => exact hQ _ h
  | step hok hn _ ih => exact .step hok hn ih

/-- What can be reached is the end of a run. -/
theorem CanReach.exists_run (h : S.CanReach ok P s) : ∃ is s', S.run s is = some s' ∧ P s' := by
  induction h with
  | here h => exact ⟨[], _, rfl, h⟩
  | @step s s' i _ hn _ ih =>
    obtain ⟨is, s'', hr, hP⟩ := ih
    exact ⟨i :: is, s'', by rw [run_cons, hn, Option.bind_some, hr], hP⟩

/-- What every step keeps is kept by the runs from a state. -/
theorem run_induct (hstep : ∀ s i s', P s → S.next s i = some s' → P s') {is : List ι}
    (h : P s) (hr : S.run s is = some s') : P s' := by
  induction is generalizing s with
  | nil => exact Option.some.inj hr ▸ h
  | cons i is ih =>
    obtain ⟨t, hn, hr⟩ := Option.bind_eq_some_iff.1 hr
    exact ih (hstep s i t h hn) hr

/-- **A rank that drops** with the steps of some labels bounds the runs of these. -/
theorem length_add_rank_le {p : ι → Prop} {rank : σ → ℕ}
    (hstep : ∀ s i s', P s → p i → S.next s i = some s' → P s' ∧ rank s' < rank s)
    {is : List ι} (h : P s) (hp : ∀ i ∈ is, p i) (hr : S.run s is = some s') :
    P s' ∧ is.length + rank s' ≤ rank s := by
  induction is generalizing s with
  | nil =>
    obtain rfl := Option.some.inj hr
    exact ⟨h, by rw [List.length_nil]; omega⟩
  | cons i is ih =>
    rw [List.forall_mem_cons] at hp
    obtain ⟨t, hn, hr⟩ := Option.bind_eq_some_iff.1 hr
    obtain ⟨ht, hlt⟩ := hstep s i t h hp.1 hn
    obtain ⟨hs', hle⟩ := ih ht hp.2 hr
    exact ⟨hs', by rw [List.length_cons]; omega⟩

end System
end Lib
