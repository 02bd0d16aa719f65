/-
# The sets of the simulator

An access reads and writes the lines of one set and adds to the counts, so the
sets are slots that are stepped by the set index (`Lib.Keyed`).  A trace is then
its parts set by set: the lines of a set are those that the accesses to this set
alone leave, and the counts are the sums over the sets.
-/

import CsappLabs.CacheLab.Lines
import CsappLabs.Lib.Keyed
import Mathlib.Algebra.BigOperators.Pi

namespace CsappLabs
namespace CacheLab

open Lib Lib.CInt Lib.Keyed

variable {p : Params} {sim sim' : Sim} {lines : List Line} {a k : ℕ} {as : List ℕ}
  {trace : List Record}

/-- What an access adds to the hits, the misses and the evictions. -/
def Outcome.counts : Outcome → ℕ × ℕ × ℕ
  | .hit => (1, 0, 0)
  | .cold => (0, 1, 0)
  | .full => (0, 1, 1)

/-- One access as a step of its set. -/
def setStep (p : Params) (address : ℕ) (lines : List Line) : Option (List Line × ℕ × ℕ × ℕ) :=
  (accessSet (p.tag address) lines).2.map fun lines' =>
    (lines', (accessSet (p.tag address) lines).1.counts)

/-- The simulator with other lines, and with more on its counts. -/
def Sim.after (sim : Sim) (r : (ℕ → List Line) × ℕ × ℕ × ℕ) : Sim where
  sets := r.1
  hitCount := sim.hitCount + r.2.1
  missCount := sim.missCount + r.2.2.1
  evictionCount := sim.evictionCount + r.2.2.2

/-- An access is the step of its set. -/
theorem accessCache_setStep (p : Params) (sim : Sim) (a : ℕ) :
    (accessCache p sim a).map Prod.fst = (setStep p a (sim.sets (p.sIndex a))).map fun r =>
      sim.after (Function.update sim.sets (p.sIndex a) r.1, r.2) := by
  rw [accessCache, setStep, Option.map_map, Option.map_map]
  refine Option.map_congr fun lines _ => ?_
  cases (accessSet (p.tag a) (sim.sets (p.sIndex a))).1 <;> rfl

theorem after_after (sim : Sim) (r r' : (ℕ → List Line) × ℕ × ℕ × ℕ) :
    (sim.after r).after r' = sim.after (r'.1, r.2 + r'.2) := by
  simp only [Sim.after, Prod.fst_add, Prod.snd_add, Nat.add_assoc]

/-- **The accesses are a run of the slots.** -/
theorem accessAll_runAll (p : Params) (sim : Sim) (as : List ℕ) :
    (accessAll p sim as).map Prod.fst =
      (runAll p.sIndex (setStep p) sim.sets as).map sim.after := by
  induction as generalizing sim with
  | nil => rfl
  | cons a as ih =>
    have hstep := accessCache_setStep p sim a
    rw [accessAll, runAll]
    cases he : accessCache p sim a with
    | none =>
      have hs : setStep p a (sim.sets (p.sIndex a)) = none := by simpa [he, eq_comm] using hstep
      rw [hs]
      rfl
    | some r =>
      rw [he, eq_comm] at hstep
      obtain ⟨⟨lines', c⟩, hs, hr⟩ := Option.map_eq_some_iff.1 hstep
      have hall := ih r.1
      rw [← hr] at hall
      rw [hs]
      simp only [Option.bind_eq_bind, Option.bind_some, Option.map_bind, Option.map_map]
      rw [← hr]
      cases hb : accessAll p (sim.after (Function.update sim.sets (p.sIndex a) lines', c)) as with
      | none =>
        rw [hb] at hall
        have hn : runAll p.sIndex (setStep p) (Function.update sim.sets (p.sIndex a) lines') as
            = none := by simpa [Sim.after, eq_comm] using hall
        rw [hn]
        rfl
      | some r' =>
        rw [hb, eq_comm] at hall
        obtain ⟨r'', hn, hr'⟩ := Option.map_eq_some_iff.1 hall
        have hn' : runAll p.sIndex (setStep p) (Function.update sim.sets (p.sIndex a) lines') as
            = some r'' := hn
        rw [hn']
        show some r'.1 = some (sim.after (r''.1, c + r''.2))
        rw [← hr', after_after]

/-- The runs of the slots that end, with the simulator at their end. -/
theorem accessAll_fst_eq_some (p : Params) (sim sim' : Sim) (as : List ℕ) :
    (accessAll p sim as).map Prod.fst = some sim' ↔
      ∃ r, runAll p.sIndex (setStep p) sim.sets as = some r ∧ sim' = sim.after r := by
  rw [accessAll_runAll, Option.map_eq_some_iff]
  simp only [eq_comm]

/-- No access goes to a set that does not exist. -/
theorem ofKey_sIndex_of_le (hk : p.S ≤ k) (as : List ℕ) : ofKey p.sIndex k as = [] := by
  refine List.filter_eq_nil_iff.2 fun a _ => ?_
  simpa using ((p.sIndex_lt a).trans_le hk).ne

/-- **Sets are independent.**  From blank lines, every set ends with the lines that
the accesses to it alone leave, and the counts are those of the sets added up; a
trace with the same accesses to every set, in the same order, ends in the same
state. -/
theorem sets_independent (hE : 1 ≤ p.E) (h0 : Blank p sim) (trace : List Record) :
    ∃ (sim' : Sim) (logs : List String) (part : ℕ → Sim),
      readLoop p sim trace = some (sim', logs) ∧
      (∀ k, ∃ log, accessAll p sim (ofKey p.sIndex k (trace.flatMap Record.accesses)) =
        some (part k, log)) ∧
      (∀ k, sim'.sets k = (part k).sets k) ∧
      sim'.hitCount = ∑ k ∈ Finset.range p.S, (part k).hitCount ∧
      sim'.missCount = ∑ k ∈ Finset.range p.S, (part k).missCount ∧
      sim'.evictionCount = ∑ k ∈ Finset.range p.S, (part k).evictionCount ∧
      ∀ trace' : List Record,
        (∀ k < p.S, ofKey p.sIndex k (trace'.flatMap Record.accesses) =
          ofKey p.sIndex k (trace.flatMap Record.accesses)) →
        ∃ logs', readLoop p sim trace' = some (sim', logs') := by
  have haged : ∀ k, Aged p.E (p.history [] k) (sim.sets k) := h0.aged
  obtain ⟨sim', log, hall, -, -⟩ :=
    accessAll_counted hE (trace.flatMap Record.accesses) h0.counted haged
  have hacc := readLoop_accessAll p sim trace
  rw [hall, Option.map_some] at hacc
  obtain ⟨⟨sim'', logs⟩, hread, rfl⟩ := Option.map_eq_some_iff.1 hacc
  obtain ⟨⟨sets, m⟩, hrun, rfl⟩ := (accessAll_fst_eq_some p sim _ _).1 (congrArg _ hall)
  have hK : ∀ a ∈ trace.flatMap Record.accesses, p.sIndex a ∈ Finset.range p.S :=
    fun a _ => Finset.mem_range.2 (p.sIndex_lt a)
  obtain ⟨c, hc, rfl⟩ := (runAll_eq_some hK).1 hrun
  obtain ⟨hhit, hmiss, hevict⟩ := h0.counts
  refine ⟨_, logs, fun k => sim.after (Function.update sim.sets k (sets k), c k), hread,
    fun k => ?_, fun k => ?_, ?_, ?_, ?_, fun trace' hsame => ?_⟩
  · have hk := (accessAll_fst_eq_some p sim _ _).2 ⟨_, runAll_ofKey (hc k), rfl⟩
    obtain ⟨⟨sim₁, log⟩, he, rfl⟩ := Option.map_eq_some_iff.1 hk
    exact ⟨log, he⟩
  · show sets k = Function.update sim.sets k (sets k) k
    rw [Function.update_self]
  · simp only [Sim.after, hhit, Nat.zero_add, Prod.fst_sum]
  · simp only [Sim.after, hmiss, Nat.zero_add, Prod.fst_sum, Prod.snd_sum]
  · simp only [Sim.after, hevict, Nat.zero_add, Prod.snd_sum]
  · have hrun' := hrun
    have hall : ∀ k, ofKey p.sIndex k (trace'.flatMap Record.accesses) =
        ofKey p.sIndex k (trace.flatMap Record.accesses) := by
      intro k
      rcases Nat.lt_or_ge k p.S with hk | hk
      · exact hsame k hk
      · rw [ofKey_sIndex_of_le hk, ofKey_sIndex_of_le hk]
    rw [← runAll_congr hall] at hrun'
    have hread' := (accessAll_fst_eq_some p sim _ _).2 ⟨_, hrun', rfl⟩
    rw [← readLoop_accessAll] at hread'
    obtain ⟨⟨sim₁, logs'⟩, he, rfl⟩ := Option.map_eq_some_iff.1 hread'
    exact ⟨logs', he⟩

/-- Two accesses to different sets, in either order. -/
theorem sets_independent_swap :
    ∃ sim' logs logs',
      readLoop ⟨1, 1, 0⟩ ⟨fun _ => [⟨false, 3, 9⟩], 0, 0, 0⟩ [⟨'L', 4⟩, ⟨'M', 5⟩, ⟨'S', 4⟩] =
        some (sim', logs) ∧
      readLoop ⟨1, 1, 0⟩ ⟨fun _ => [⟨false, 3, 9⟩], 0, 0, 0⟩ [⟨'M', 5⟩, ⟨'L', 4⟩, ⟨'S', 4⟩] =
        some (sim', logs') := by
  obtain ⟨sim', logs, -, hread, -, -, -, -, -, hsame⟩ :=
    @sets_independent ⟨1, 1, 0⟩ ⟨fun _ => [⟨false, 3, 9⟩], 0, 0, 0⟩ (by decide)
      ⟨fun _ => rfl, by simp, rfl, rfl, rfl⟩ [⟨'L', 4⟩, ⟨'M', 5⟩, ⟨'S', 4⟩]
  obtain ⟨logs', hread'⟩ := hsame [⟨'M', 5⟩, ⟨'L', 4⟩, ⟨'S', 4⟩] (by decide)
  exact ⟨sim', logs, logs', hread, hread'⟩

end CacheLab
end CsappLabs
