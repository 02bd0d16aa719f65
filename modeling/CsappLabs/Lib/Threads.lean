/-
# Adding up over threads

Any number of threads, each at some place of its program: a function `pc` from a
finite type of threads to places.  A weight on places says how much a thread at
that place contributes to a resource: `1` where it holds a lock, say, and `0`
elsewhere.  `total w pc` adds the weights up.  One thread moving changes the
total by what the move does to that thread alone (`total_update`), and two
threads together contribute at most the total (`add_le_total`); what a proof
needs about numbers of waiting, reading or holding threads follows.
-/

import Mathlib.Algebra.BigOperators.Group.Finset.Piecewise
import Mathlib.Algebra.Order.BigOperators.Group.Finset
import Mathlib.Data.Fintype.BigOperators

namespace Lib
namespace Threads

variable {τ π : Type*} [Fintype τ]

/-- The weights of the places of all threads, added up. -/
def total (w : π → ℕ) (pc : τ → π) : ℕ := ∑ t, w (pc t)

/-- A thread contributes at most the total. -/
theorem le_total (w : π → ℕ) (pc : τ → π) (t : τ) : w (pc t) ≤ total w pc :=
  Finset.single_le_sum (f := fun t => w (pc t)) (fun _ _ => Nat.zero_le _) (Finset.mem_univ t)

/-- A bound on the weights bounds the total. -/
theorem total_le {w : π → ℕ} {k : ℕ} (h : ∀ x, w x ≤ k) (pc : τ → π) :
    total w pc ≤ Fintype.card τ * k :=
  (Finset.sum_le_sum fun t _ => h (pc t)).trans_eq (Finset.sum_const_nat fun _ _ => rfl)

/-- A total of zero: no thread contributes. -/
theorem total_eq_zero {w : π → ℕ} {pc : τ → π} : total w pc = 0 ↔ ∀ t, w (pc t) = 0 := by
  simp [total]

/-- A positive total comes from a thread. -/
theorem exists_of_total_pos {w : π → ℕ} {pc : τ → π} (h : 0 < total w pc) :
    ∃ t, 0 < w (pc t) := by
  by_contra hn
  push Not at hn
  exact h.ne' (total_eq_zero.2 fun t => Nat.le_zero.1 (hn t))

/-- The total of an indicator is the number of threads in the set. -/
theorem total_indicator (p : π → Prop) [DecidablePred p] (pc : τ → π) :
    total (fun x => if p x then 1 else 0) pc = (Finset.univ.filter fun t => p (pc t)).card := by
  rw [total, Finset.card_filter]

variable [DecidableEq τ]

/-- **One thread moves.**  The new total with the thread's old weight is the old
total with its new weight. -/
theorem total_update (w : π → ℕ) (pc : τ → π) (t : τ) (x : π) :
    total w (Function.update pc t x) + w (pc t) = total w pc + w x := by
  have hsum : ∀ f : τ → π, total w f = (∑ u ∈ Finset.univ.erase t, w (f u)) + w (f t) :=
    fun f => (Finset.sum_erase_add _ _ (Finset.mem_univ t)).symm
  have hrest : (∑ u ∈ Finset.univ.erase t, w (Function.update pc t x u)) =
      ∑ u ∈ Finset.univ.erase t, w (pc u) :=
    Finset.sum_congr rfl fun u hu => by
      rw [Function.update_of_ne (Finset.ne_of_mem_erase hu)]
  rw [hsum, hsum pc, hrest, Function.update_self]
  omega

/-- Two threads together contribute at most the total. -/
theorem add_le_total (w : π → ℕ) (pc : τ → π) {t u : τ} (h : t ≠ u) :
    w (pc t) + w (pc u) ≤ total w pc := by
  rw [total, ← Finset.sum_erase_add _ _ (Finset.mem_univ t), Nat.add_comm]
  exact Nat.add_le_add_right (Finset.single_le_sum (f := fun t => w (pc t))
    (fun _ _ => Nat.zero_le _) (Finset.mem_erase.2 ⟨h.symm, Finset.mem_univ u⟩)) _

/-- What exceeds one thread's weight comes from another thread. -/
theorem exists_ne_of_lt_total {w : π → ℕ} {pc : τ → π} {t : τ} (h : w (pc t) < total w pc) :
    ∃ u, u ≠ t ∧ 0 < w (pc u) := by
  by_contra hn
  push Not at hn
  have hz : ∑ u ∈ Finset.univ.erase t, w (pc u) = 0 :=
    Finset.sum_eq_zero fun u hu => Nat.le_zero.1 (hn u (Finset.ne_of_mem_erase hu))
  rw [total, ← Finset.sum_erase_add _ _ (Finset.mem_univ t), hz, Nat.zero_add] at h
  exact lt_irrefl _ h

end Threads
end Lib
