/-
# The lines of the simulator and its counts

The first loop of `access_cache` stops at the first invalid line, which is right
because the valid lines of a set stand before the invalid ones.  This holds
whatever the counters are, and so do the identities of the counts: an access is a
hit or a miss, and a miss that does not evict fills a line.
-/

import CsappLabs.CacheLab.Counters
import Mathlib.Algebra.BigOperators.Group.Finset.Piecewise

namespace CsappLabs
namespace CacheLab

open Lib Lib.CInt

variable {p : Params} {sim sim' : Sim} {lines lines' : List Line} {tag a n : ℕ} {past : List ℕ}
  {o : Outcome}

/-- The valid lines stand before the invalid ones. -/
theorem exists_prefix (h : lines.Pairwise fun l m => m.valid = true → l.valid = true) :
    ∃ v r, lines = v ++ r ∧ (∀ l ∈ v, l.valid = true) ∧ ∀ l ∈ r, l.valid = false := by
  induction lines with
  | nil => exact ⟨[], [], rfl, by simp, by simp⟩
  | cons l ls ih =>
    obtain ⟨hl, hls⟩ := List.pairwise_cons.1 h
    cases hval : l.valid with
    | true =>
      obtain ⟨v, r, rfl, hv, hr⟩ := ih hls
      exact ⟨l :: v, r, rfl, List.forall_mem_cons.2 ⟨hval, hv⟩, hr⟩
    | false =>
      refine ⟨[], l :: ls, rfl, by simp, List.forall_mem_cons.2 ⟨hval, fun m hm => ?_⟩⟩
      by_contra hm'
      exact absurd (hl m hm (by simpa using hm')) (by simp [hval])

/-- The number of valid lines over all sets. -/
def Sim.validLines (p : Params) (sim : Sim) : ℕ :=
  ∑ k ∈ Finset.range p.S, (resident (sim.sets k)).length

/-- The lines and the counts after `n` accesses. -/
structure Counted (p : Params) (n : ℕ) (sim : Sim) : Prop where
  length : ∀ k, (sim.sets k).length = p.E
  prefixed : ∀ k, ∃ v r, sim.sets k = v ++ r ∧ (∀ l ∈ v, l.valid = true) ∧ ∀ l ∈ r, l.valid = false
  tags : ∀ k, (resident (sim.sets k)).Nodup
  accesses : sim.hitCount + sim.missCount = n
  evictions : sim.missCount = sim.evictionCount + sim.validLines p

/-- What the loops of the next access find in a set. -/
structure Scans (E tag : ℕ) (lines : List Line) : Prop where
  hit : (firstLoop tag lines).1 = .hit ↔ ∃ l ∈ lines, l.valid = true ∧ l.tag = tag
  evict : (firstLoop tag lines).1 = .full → (∀ l ∈ lines, l.valid = true) ∧
    ∃ i < E, (secondLoop 0 none (-1) (firstLoop tag lines).2).1 = some i

/-- A cold start fills a line, and the other accesses do not. -/
theorem Access.length_resident (ha : Access tag lines o lines') :
    (resident lines').length = (resident lines).length + if o = .cold then 1 else 0 := by
  cases ha with
  | hit hv hl ht =>
    rw [resident_access rfl, resident_append, resident_cons_valid hl]
    simp
  | cold hv hl =>
    rw [resident_access rfl, resident_append, resident_cons_invalid hl]
    simp [Nat.add_assoc]
  | @full v r l hall hv hr =>
    rw [resident_access rfl, resident_append, resident_cons_valid (hall l (by simp)).1]
    simp

/-- **The scan** never misses a resident tag, and it finds a victim in a full set. -/
theorem Aged.scans {E : ℕ} {hist : List ℕ} (hE : 1 ≤ E) (h : Aged E hist lines) (tag : ℕ) :
    Scans E tag lines := by
  have hlen := h.length
  have hne : lines ≠ [] := by
    rintro rfl
    rw [List.length_nil] at hlen
    omega
  obtain ⟨o, lines', he, ha⟩ := accessSet_access tag hne h.nonneg
  have ho : (firstLoop tag lines).1 = o := by
    have := congrArg Prod.fst he
    rw [accessSet] at this
    cases hf : (firstLoop tag lines).1 <;> simpa [hf] using this
  constructor
  · rw [ho, (h.outcome ha).1, mem_resident]
  · intro hfull
    rcases split_lines tag lines with hall | ⟨v, l, r, rfl, hv, hl⟩
    · have hfirst : firstLoop tag lines = (.full, lines) := by
        have := firstLoop_append (r := []) hall
        simpa [firstLoop] using this
      refine ⟨fun l hl => (hall l hl).1, ?_⟩
      rw [hfirst]
      rcases secondLoop_fst lines 0 none (-1) with ⟨-, hle⟩ | ⟨v, l, r, rfl, hi, -⟩
      · obtain ⟨l, hl⟩ := List.exists_mem_of_ne_nil lines hne
        have := hle l hl
        have := h.nonneg l hl (hall l hl).1
        omega
      · refine ⟨0 + v.length, ?_, hi⟩
        rw [List.length_append, List.length_cons] at hlen
        omega
    · rw [firstLoop_append hv, firstLoop] at hfull
      split_ifs at hfull with hval
      exact absurd (hl hval) ‹_›

/-- One more access in the counts. -/
theorem Counted.next (hc : Counted p n sim)
    (hA' : ∀ k, Aged p.E (p.history (a :: past) k) (sim'.sets k))
    (ha : Access (p.tag a) (sim.sets (p.sIndex a)) o lines')
    (hs : sim' = { sim with sets := Function.update sim.sets (p.sIndex a) lines' }.count o) :
    Counted p (n + 1) sim' := by
  have hsets : sim'.sets = Function.update sim.sets (p.sIndex a) lines' := by
    rw [hs, count_sets]
  have hk : p.sIndex a ∈ Finset.range p.S := Finset.mem_range.2 (p.sIndex_lt a)
  have hvalid : sim'.validLines p = sim.validLines p + if o = .cold then 1 else 0 := by
    have hupd : (fun k => (resident (sim'.sets k)).length) = Function.update
        (fun k => (resident (sim.sets k)).length) (p.sIndex a) (resident lines').length := by
      funext k
      rw [hsets]
      by_cases hka : k = p.sIndex a
      · subst hka
        simp
      · simp [hka]
    rw [Sim.validLines, hupd, Finset.sum_update_of_mem hk, Sim.validLines,
      Finset.sum_eq_add_sum_sdiff_singleton_of_mem hk, ha.length_resident]
    omega
  have hcount := hc.accesses
  have hevict := hc.evictions
  refine ⟨fun k => (hA' k).length, fun k => exists_prefix (hA' k).prefixed,
    fun k => (hA' k).tags, ?_, ?_⟩
  · rw [hs]
    cases o <;> simp only [Sim.count] <;> omega
  · rw [hvalid, hs]
    cases o <;> simp [Sim.count] <;> omega

/-- Blank lines before the first access. -/
theorem Blank.counted (h : Blank p sim) : Counted p 0 sim := by
  have hno : sim.validLines p = 0 := Finset.sum_eq_zero fun k _ => by rw [h.resident k]; rfl
  obtain ⟨hhit, hmiss, hevict⟩ := h.counts
  refine ⟨h.length, fun k => exists_prefix (h.aged k).prefixed, fun k => (h.aged k).tags, ?_, ?_⟩
  · rw [hhit, hmiss]
  · rw [hmiss, hevict, hno]

/-- **Accesses one after the other** keep the lines in order and are counted. -/
theorem accessAll_counted (hE : 1 ≤ p.E) (as : List ℕ) (hc : Counted p n sim)
    (hA : ∀ k, Aged p.E (p.history past k) (sim.sets k)) :
    ∃ sim' log, accessAll p sim as = some (sim', log) ∧ Counted p (n + as.length) sim' ∧
      ∀ a, Scans p.E (p.tag a) (sim'.sets (p.sIndex a)) := by
  induction as generalizing sim past n with
  | nil => exact ⟨sim, "", rfl, hc, fun a => (hA _).scans hE _⟩
  | cons a as ih =>
    obtain ⟨o, lines', ha, hr⟩ := accessCache_access hE hA a
    have hA' := aged_update hA ha
    obtain ⟨sim', log, he, hc', hscan⟩ := ih (hc.next hA' ha rfl) hA'
    refine ⟨sim', o.log ++ log, accessAll_cons_eq_some.2 ⟨_, _, _, hr, he, rfl⟩, ?_, hscan⟩
    rw [List.length_cons, Nat.add_comm as.length, ← Nat.add_assoc]
    exact hc'

/-- **The lines and the counts of a trace.**  From blank lines, the reading loop
ends with its accesses counted, and so it is after every access of it; the next
access then finds its tag if it is there, and a victim if the set is full. -/
theorem trace_counted (hE : 1 ≤ p.E) (h0 : Blank p sim) (trace : List Record) :
    (∃ sim' logs, readLoop p sim trace = some (sim', logs) ∧
        Counted p (trace.flatMap Record.accesses).length sim') ∧
      ∀ as rest, trace.flatMap Record.accesses = as ++ rest →
        ∃ sim' log, accessAll p sim as = some (sim', log) ∧ Counted p as.length sim' ∧
          ∀ a, Scans p.E (p.tag a) (sim'.sets (p.sIndex a)) := by
  have hall : ∀ as, ∃ sim' log, accessAll p sim as = some (sim', log) ∧
      Counted p as.length sim' ∧ ∀ a, Scans p.E (p.tag a) (sim'.sets (p.sIndex a)) := by
    intro as
    have hA : ∀ k, Aged p.E (p.history [] k) (sim.sets k) := h0.aged
    obtain ⟨sim', log, he, hc, hscan⟩ := accessAll_counted hE as h0.counted hA
    rw [Nat.zero_add] at hc
    exact ⟨sim', log, he, hc, hscan⟩
  refine ⟨?_, fun as _ _ => hall as⟩
  obtain ⟨sim', log, he, hc, -⟩ := hall (trace.flatMap Record.accesses)
  have hread := readLoop_run (p := p) ⟨sim, []⟩ trace
  rw [← accessAll_run, he] at hread
  obtain ⟨⟨sim'', logs⟩, hr, rfl⟩ := Option.map_eq_some_iff.1 hread
  exact ⟨_, logs, hr, hc⟩

/-- Four accesses to one set of one line. -/
theorem trace_counted_oneLine :
    ∃ sim' logs, readLoop ⟨0, 1, 0⟩ ⟨fun _ => [⟨false, 3, 9⟩], 0, 0, 0⟩
        [⟨'M', 5⟩, ⟨'I', 4⟩, ⟨'S', 6⟩, ⟨'L', 5⟩] = some (sim', logs) ∧
      Counted ⟨0, 1, 0⟩ 4 sim' :=
  (@trace_counted ⟨0, 1, 0⟩ ⟨fun _ => [⟨false, 3, 9⟩], 0, 0, 0⟩ (by decide)
    ⟨fun _ => rfl, by simp, rfl, rfl, rfl⟩ [⟨'M', 5⟩, ⟨'I', 4⟩, ⟨'S', 6⟩, ⟨'L', 5⟩]).1

end CacheLab
end CsappLabs
