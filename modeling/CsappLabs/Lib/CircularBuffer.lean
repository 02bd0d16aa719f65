/-
# A queue in a circular array

Positions `0, 1, 2, …` of an unbounded queue are stored in cells by a map
`slot : ℕ → κ` that is injective on every window of `N` consecutive positions
(`WindowInjective`), such as `i ↦ i % N`.  A queue `q` whose first element has
position `front + 1` is held by the array if cell `slot (front + 1 + j)` holds
`q[j]` and the queue has at most `N` elements (`Holds`).

`occ` is the array seen through the queue: `occ k` is the element waiting in
cell `k`, if one is.  Appending goes to a cell that no element occupies
(`Holds.push`), taking reads the cell of the first element (`Holds.pop`), and
in both cases the array holds the queue that results.
-/

import Mathlib.Data.List.Basic
import Mathlib.Logic.Function.Basic

namespace Lib
namespace CircularBuffer

variable {κ α : Type*} {slot : ℕ → κ} {N front : ℕ}
  {data : κ → α} {occ : κ → Option α} {q : List α} {x : α}

/-- Any `N` consecutive positions lie in different cells. -/
def WindowInjective (slot : ℕ → κ) (N : ℕ) : Prop :=
  ∀ i j, i < j → j < i + N → slot i ≠ slot j

/-- Two positions of one window in the same cell are equal. -/
theorem WindowInjective.eq (h : WindowInjective slot N) {i j : ℕ} (hij : slot i = slot j)
    (h1 : j < i + N) (h2 : i < j + N) : i = j := by
  rcases Nat.lt_trichotomy i j with hlt | rfl | hlt
  · exact absurd hij (h i j hlt h1)
  · rfl
  · exact absurd hij.symm (h j i hlt h2)

/-- The array `data` holds the queue `q` behind position `front`, and `occ` is
the element waiting in each cell. -/
structure Holds (slot : ℕ → κ) (N : ℕ) (data : κ → α) (occ : κ → Option α) (front : ℕ)
    (q : List α) : Prop where
  length_le : q.length ≤ N
  data_eq : ∀ j y, q[j]? = some y → data (slot (front + 1 + j)) = y
  occ_iff : ∀ k y, occ k = some y ↔ ∃ j, q[j]? = some y ∧ k = slot (front + 1 + j)

/-- The empty queue is held by every array. -/
theorem Holds.empty (slot : ℕ → κ) (N : ℕ) (data : κ → α) (front : ℕ) :
    Holds slot N data (fun _ => none) front [] :=
  ⟨Nat.zero_le _, fun j y h => by simp at h, fun k y => by simp⟩

/-- The cell behind the last element is free while there is room. -/
theorem Holds.occ_next (hs : WindowInjective slot N) (h : Holds slot N data occ front q)
    (hlt : q.length < N) : occ (slot (front + 1 + q.length)) = none := by
  rw [Option.eq_none_iff_forall_ne_some]
  intro y hy
  obtain ⟨j, hj, hk⟩ := (h.occ_iff _ _).1 hy
  have hjl : j < q.length := (List.getElem?_eq_some_iff.1 hj).1
  exact hs (front + 1 + j) (front + 1 + q.length) (by omega) (by omega) hk.symm

/-- The first element sits in its cell, and waits there. -/
theorem Holds.head (h : Holds slot N data occ front (x :: q)) :
    data (slot (front + 1)) = x ∧ occ (slot (front + 1)) = some x :=
  ⟨h.data_eq 0 x rfl, (h.occ_iff _ _).2 ⟨0, rfl, rfl⟩⟩

/-- An element of a queue with one more at its end is an old one or the new one. -/
theorem getElem?_concat {j : ℕ} {y : α} :
    (q ++ [x])[j]? = some y ↔ q[j]? = some y ∨ j = q.length ∧ x = y := by
  rcases Nat.lt_trichotomy j q.length with hj | rfl | hj
  · simp [List.getElem?_append_left hj, Nat.ne_of_lt hj]
  · simp
  · have h1 : (q ++ [x])[j]? = none := List.getElem?_eq_none (by simp; omega)
    have h2 : q[j]? = none := List.getElem?_eq_none (by omega)
    simp [h1, h2, Nat.ne_of_gt hj]

variable [DecidableEq κ]

/-- **Appending an element.**  Writing it to the cell behind the last element
gives an array that holds the longer queue. -/
theorem Holds.push (hs : WindowInjective slot N) (h : Holds slot N data occ front q)
    (hlt : q.length < N) (x : α) :
    Holds slot N (Function.update data (slot (front + 1 + q.length)) x)
      (Function.update occ (slot (front + 1 + q.length)) (some x)) front (q ++ [x]) := by
  have hne : ∀ {j y}, q[j]? = some y → slot (front + 1 + j) ≠ slot (front + 1 + q.length) := by
    intro j y hj
    have hjl : j < q.length := (List.getElem?_eq_some_iff.1 hj).1
    exact hs _ _ (by omega) (by omega)
  refine ⟨by rw [List.length_append]; exact hlt, fun j y hj => ?_, fun k y => ?_⟩
  · rcases getElem?_concat.1 hj with hj | ⟨rfl, rfl⟩
    · rw [Function.update_of_ne (hne hj)]
      exact h.data_eq j y hj
    · exact Function.update_self ..
  · by_cases hk : k = slot (front + 1 + q.length)
    · subst hk
      rw [Function.update_self]
      constructor
      · intro hxy
        exact ⟨q.length, getElem?_concat.2 (.inr ⟨rfl, Option.some.inj hxy⟩), rfl⟩
      · rintro ⟨j, hj, hk⟩
        rcases getElem?_concat.1 hj with hj | ⟨-, rfl⟩
        · exact absurd hk.symm (hne hj)
        · rfl
    · rw [Function.update_of_ne hk, h.occ_iff]
      constructor
      · rintro ⟨j, hj, hkj⟩
        exact ⟨j, getElem?_concat.2 (.inl hj), hkj⟩
      · rintro ⟨j, hj, hkj⟩
        rcases getElem?_concat.1 hj with hj | ⟨rfl, -⟩
        · exact ⟨j, hj, hkj⟩
        · exact absurd hkj hk

/-- **Taking the first element.**  The array holds the rest of the queue, whose
first element is one position further. -/
theorem Holds.pop (hs : WindowInjective slot N) (h : Holds slot N data occ front (x :: q)) :
    Holds slot N data (Function.update occ (slot (front + 1)) none) (front + 1) q := by
  have hlen := h.length_le
  rw [List.length_cons] at hlen
  have hpos : ∀ j, front + 1 + 1 + j = front + 1 + (j + 1) := fun j => by omega
  refine ⟨by omega, fun j y hj => ?_, fun k y => ?_⟩
  · rw [hpos]
    exact h.data_eq (j + 1) y (by rwa [List.getElem?_cons_succ])
  · by_cases hk : k = slot (front + 1)
    · subst hk
      rw [Function.update_self]
      refine ⟨fun h => absurd h (by simp), ?_⟩
      rintro ⟨j, hj, hk⟩
      have hjl : j < q.length := (List.getElem?_eq_some_iff.1 hj).1
      exact absurd hk (hs _ _ (by omega) (by omega))
    · rw [Function.update_of_ne hk, h.occ_iff]
      constructor
      · rintro ⟨j, hj, hkj⟩
        cases j with
        | zero => exact absurd hkj hk
        | succ j => exact ⟨j, by rwa [List.getElem?_cons_succ] at hj, by rw [hkj, hpos]⟩
      · rintro ⟨j, hj, hkj⟩
        exact ⟨j + 1, by rwa [List.getElem?_cons_succ], by rw [hkj, hpos]⟩

end CircularBuffer
end Lib
