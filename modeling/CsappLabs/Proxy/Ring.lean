/-
# Cells outside the ring

`produce` and `consume` of `proxylab/proxy.c` never reduce their counters, and
the remainder of a negative `int` is not positive.  The counters themselves only
depend on how many connections were put and taken, however many there were
(`Counted`), so the cells come in one order, `ringCells`.  It leaves the array
with the connection after the first `2^31`.
-/

import CsappLabs.Proxy.Buffer

namespace CsappLabs
namespace Proxy

open Lib Lib.CInt Lib.Threads

/-- The threads that `main` creates. -/
abbrev NTHREAD : ℕ := 16

/-- The cell that a critical section uses. -/
def Event.cell : Event → ℤ
  | .put k _ | .take k _ => k

/-- The cells of the puts, in order. -/
def putCells (log : List Event) : List ℤ :=
  log.filterMap fun | .put k _ => some k | .take _ _ => none

/-- The cells of the takes, in order. -/
def takeCells (log : List Event) : List ℤ :=
  log.filterMap fun | .put _ _ => none | .take k _ => some k

/-- The cells of a counter that starts at `0` and is incremented `n` times. -/
def ringCells (n : ℕ) : List ℤ := (List.range n).map fun k : ℕ => cell (int32 (k + 1))

@[simp] theorem putCells_concat_put (log : List Event) (k x : ℤ) :
    putCells (log ++ [.put k x]) = putCells log ++ [k] := by simp [putCells]

@[simp] theorem putCells_concat_take (log : List Event) (k x : ℤ) :
    putCells (log ++ [.take k x]) = putCells log := by simp [putCells]

@[simp] theorem takeCells_concat_put (log : List Event) (k x : ℤ) :
    takeCells (log ++ [.put k x]) = takeCells log := by simp [takeCells]

@[simp] theorem takeCells_concat_take (log : List Event) (k x : ℤ) :
    takeCells (log ++ [.take k x]) = takeCells log ++ [k] := by simp [takeCells]

theorem forall_cells (log : List Event) (p : ℤ → Prop) :
    (∀ e ∈ log, p e.cell) ↔ (∀ k ∈ putCells log, p k) ∧ ∀ k ∈ takeCells log, p k := by
  induction log with
  | nil => simp [putCells, takeCells]
  | cons e log ih =>
    rw [List.forall_mem_cons, ih]
    cases e with
    | put k x => simp [Event.cell, putCells, takeCells, and_assoc]
    | take k x => simp [Event.cell, putCells, takeCells, and_left_comm]

/-! ### The cells of a counter -/

theorem ringCells_succ (n : ℕ) : ringCells (n + 1) = ringCells n ++ [cell (int32 (n + 1))] := by
  rw [ringCells, List.range_succ, List.map_append, List.map_singleton]
  rfl

/-- As long as the counter is not negative, or the most negative `int`. -/
theorem cell_int32_bounds {n : ℕ} (h : n ≤ 2 ^ 31) :
    0 ≤ cell (int32 n) ∧ cell (int32 n) < BUFFER_SIZE := by
  rcases h.lt_or_eq with h | rfl
  · rw [int32_of_bounds (by omega) (by omega), cell_eq_slot, slot]
    have := Nat.mod_lt n (show 0 < BUFFER_SIZE by decide)
    omega
  · decide

/-- **The counter leaves the ring** behind `2^31`. -/
theorem forall_ringCells_iff (n : ℕ) :
    (∀ k ∈ ringCells n, 0 ≤ k ∧ k < BUFFER_SIZE) ↔ n ≤ 2 ^ 31 := by
  rw [ringCells, List.forall_mem_map]
  constructor
  · intro h
    by_contra hn
    have hneg := (h (2 ^ 31) (List.mem_range.2 (not_le.1 hn))).1
    exact absurd hneg (by decide)
  · intro h k hk
    rw [List.mem_range] at hk
    exact_mod_cast cell_int32_bounds (show k + 1 ≤ 2 ^ 31 by omega)

/-! ### The counters of a run -/

variable {τ : Type*} [Fintype τ] {s s' : BufferState τ}

/-- What the counters, the cells and `items` say about the numbers of puts and
takes, however many they are. -/
structure Counted (s : BufferState τ) : Prop where
  front : s.front = int32 (takes s.log).length
  tail : s.tail = int32 (puts s.log).length
  putCells : putCells s.log = ringCells (puts s.log).length
  takeCells : takeCells s.log = ringCells (takes s.log).length
  items : s.items + s.main.unannounced + total ConsumePc.entitled s.worker + (takes s.log).length =
    (puts s.log).length

/-- A step outside the critical sections. -/
theorem Counted.move (h : Counted s) (hf : s'.front = s.front) (ht : s'.tail = s.tail)
    (hl : s'.log = s.log)
    (hi : s'.items + s'.main.unannounced + total ConsumePc.entitled s'.worker =
      s.items + s.main.unannounced + total ConsumePc.entitled s.worker) : Counted s' := by
  obtain ⟨hfront, htail, hput, htake, hitems⟩ := h
  rw [← hl] at hfront htail hput htake hitems
  exact ⟨hf.trans hfront, ht.trans htail, hput, htake, by rw [hi, hitems]⟩

/-- **A line of `produce`.** -/
theorem Counted.produceNext (h : Counted s) (hn : produceNext s = some s') : Counted s' := by
  have hp := produces_of_next hn
  generalize hm : s.main = x at hp
  cases hp with
  | put =>
    have htail : int32 (s.tail + 1) = int32 ((puts s.log).length + 1) := by
      rw [h.tail, int32_add]
    have hitems := h.items
    simp only [hm, ProducePc.unannounced] at hitems
    constructor
    · simpa using h.front
    · simpa using htail
    · simp only [putCells_concat_put, puts_concat_put, List.length_append, List.length_singleton,
        ringCells_succ, h.putCells, htail]
    · simpa using h.takeCells
    · simp only [ProducePc.unannounced, puts_concat_put, takes_concat_put, List.length_append,
        List.length_singleton]
      omega
  | pSlots | pMutex | vMutex | vItems =>
    exact h.move rfl rfl rfl (by simp only [hm, ProducePc.unannounced])

variable [DecidableEq τ] {t : τ}

/-- A worker passes a semaphore. -/
theorem Counted.moveWorker (h : Counted s) (t : τ) (x : ConsumePc) (mutex slots items : ℕ)
    (hi : items + x.entitled = s.items + (s.worker t).entitled) :
    Counted { s with
      mutex := mutex, slots := slots, items := items
      worker := Function.update s.worker t x } := by
  have hent := total_update ConsumePc.entitled s.worker t x
  exact h.move rfl rfl rfl (by simp only; omega)

/-- **A line of `consume`.** -/
theorem Counted.consumeNext (h : Counted s) (hn : consumeNext s t = some s') : Counted s' := by
  have hc := consumes_of_next hn
  generalize hw : s.worker t = x at hc
  cases hc with
  | take =>
    have hfront : int32 (s.front + 1) = int32 ((takes s.log).length + 1) := by
      rw [h.front, int32_add]
    have hitems := h.items
    have hent := total_update ConsumePc.entitled s.worker t
      (.vMutex (s.data (cell (int32 (s.front + 1)))))
    simp only [hw, ConsumePc.entitled] at hent
    constructor
    · simpa using hfront
    · simpa using h.tail
    · simpa using h.putCells
    · simp only [takeCells_concat_take, takes_concat_take, List.length_append,
        List.length_singleton, ringCells_succ, h.takeCells, hfront]
    · simp only [puts_concat_take, takes_concat_take, List.length_append, List.length_singleton]
      omega
  | idle | pMutex | vMutex | vSlots =>
    exact h.moveWorker t _ _ _ _ (by simp only [hw, ConsumePc.entitled])
  | pItems hpos =>
    refine h.moveWorker t _ s.mutex s.slots _ ?_
    simp only [hw, ConsumePc.entitled]
    omega

/-- **Every run** counts its connections. -/
theorem counted_of_reach (h : (bufferSystem τ).Reach s) : Counted s := by
  refine h.induct (P := Counted) ?_ ?_
  · rintro s rfl
    have hzero : int32 0 = 0 := by decide
    refine ⟨hzero.symm, hzero.symm, rfl, rfl, ?_⟩
    simp [bufferStart, initBuffer, total, ProducePc.unannounced, ConsumePc.entitled, takes, puts]
  · intro s i s' _ ih _ hn
    cases i with
    | accept item =>
      obtain ⟨hm, rfl⟩ := accept_of_next hn
      exact ih.move rfl rfl rfl (by simp only [hm, ProducePc.unannounced])
    | main => exact ih.produceNext hn
    | worker t => exact ih.consumeNext hn

/-- **The indices are valid** exactly up to the `2^31`-st connection. -/
theorem ring_indices_iff (h : (bufferSystem τ).Reach s) :
    (∀ e ∈ s.log, 0 ≤ e.cell ∧ e.cell < BUFFER_SIZE) ↔ (puts s.log).length ≤ 2 ^ 31 := by
  have hc := counted_of_reach h
  have hitems := hc.items
  rw [forall_cells s.log fun k => 0 ≤ k ∧ k < BUFFER_SIZE, hc.putCells, hc.takeCells,
    forall_ringCells_iff, forall_ringCells_iff]
  omega

theorem ring_indices_iff_handover :
    (∀ e ∈ handover.log, 0 ≤ e.cell ∧ e.cell < BUFFER_SIZE) ↔ (puts handover.log).length ≤ 2 ^ 31 :=
  ring_indices_iff (.getD_run (.init rfl) _)

/-! ### A long run -/

/-- A connection is accepted and worker `0` takes it. -/
def round (item : ℤ) : List (BufferStep (Fin NTHREAD)) :=
  [.accept item, .main, .main, .main, .main, .main,
    .worker 0, .worker 0, .worker 0, .worker 0, .worker 0, .worker 0]

/-- No connection is under way. -/
structure Resting (s : BufferState (Fin NTHREAD)) : Prop where
  main : s.main = .idle
  worker : s.worker 0 = .idle
  mutex : s.mutex = 1
  slots : s.slots = BUFFER_SIZE
  items : s.items = 0

/-- **One round** is possible, and puts one connection. -/
theorem Resting.run_round {s : BufferState (Fin NTHREAD)} (h : Resting s) (item : ℤ) :
    ∃ s', (bufferSystem (Fin NTHREAD)).run s (round item) = some s' ∧ Resting s' ∧
      (puts s'.log).length = (puts s.log).length + 1 := by
  obtain ⟨hm, hw, hmutex, hslots, hitems⟩ := h
  simp only [round, System.run, bufferSystem, produceNext, consumeNext, hm, hw, hmutex, hslots,
    hitems, BUFFER_SIZE, Function.update_self, Function.update_idem, Option.bind_some, if_true,
    Nat.succ_pos]
  exact ⟨_, rfl, ⟨rfl, by simp, rfl, rfl, rfl⟩, by simp [puts]⟩

/-- **Any number of rounds.** -/
theorem run_rounds (n : ℕ) (item : ℤ) :
    ∃ s, (bufferSystem (Fin NTHREAD)).run (bufferStart (Fin NTHREAD))
        (List.replicate n (round item)).flatten = some s ∧
      Resting s ∧ (puts s.log).length = n := by
  induction n with
  | zero => exact ⟨_, rfl, ⟨rfl, rfl, rfl, rfl, rfl⟩, rfl⟩
  | succ n ih =>
    obtain ⟨s, hs, hrest, hlen⟩ := ih
    obtain ⟨s', hs', hrest', hlen'⟩ := hrest.run_round item
    refine ⟨s', ?_, hrest', hlen' ▸ hlen ▸ rfl⟩
    rw [List.replicate_succ', List.flatten_append, List.flatten_singleton, System.run_append, hs,
      Option.bind_some, hs']

/-- **After `2^31 + 1` connections**, one at a time, an index has been negative. -/
theorem ring_index_negative :
    ∃ s, (bufferSystem (Fin NTHREAD)).run (bufferStart (Fin NTHREAD))
        (List.replicate (2 ^ 31 + 1) (round 4)).flatten = some s ∧
      ¬∀ e ∈ s.log, 0 ≤ e.cell ∧ e.cell < BUFFER_SIZE := by
  obtain ⟨s, hs, -, hlen⟩ := run_rounds (2 ^ 31 + 1) 4
  have hreach : (bufferSystem (Fin NTHREAD)).Reach s := .run (.init rfl) hs
  have hc := counted_of_reach hreach
  refine ⟨s, hs, fun h => ?_⟩
  rw [forall_cells s.log fun k => 0 ≤ k ∧ k < BUFFER_SIZE, hc.putCells, forall_ringCells_iff,
    hlen] at h
  exact absurd h.1 (Nat.not_succ_le_self _)

end Proxy
end CsappLabs
