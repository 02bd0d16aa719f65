/-
# What `malloc` leaves in the lines

`main` takes the lines of every set from `malloc` and does not write them before
the first access, which reads `valid`, `tag` and `lru_counter`.  A line found
invalid is not looked at further: its tag and its counter never count, and neither
does anything else of what `malloc` returned where all lines are invalid
(`Alike`).  The flag itself does count.  Sets found full of valid lines end with
as many misses as evictions, and sets found empty with more misses, so the counts
of a trace follow from the trace alone only if it makes no access
(`counts_determined_iff`).
-/

import CsappLabs.CacheLab.Lines

namespace CsappLabs
namespace CacheLab

open Lib Lib.CInt

variable {p : Params} {sim sim' sim₁ : Sim} {lines lines' : List Line} {tag a : ℕ} {as : List ℕ}
  {o : Outcome} {log : String} {trace : List Record}

/-- What the memory of the lines can hold: the fields are `int`s. -/
structure Contents (p : Params) (sets : ℕ → List Line) : Prop where
  length : ∀ k, (sets k).length = p.E
  tag : ∀ k, ∀ l ∈ sets k, l.tag < 2 ^ 32
  counter : ∀ k, ∀ l ∈ sets k, -2 ^ 31 ≤ l.lruCounter ∧ l.lruCounter < 2 ^ 31

/-- The simulator of `main` before the first record. -/
def start (sets : ℕ → List Line) : Sim :=
  { sets := sets, hitCount := 0, missCount := 0, evictionCount := 0 }

/-- The counts that `main` prints. -/
def summary (p : Params) (sets : ℕ → List Line) (trace : List Record) : Option (ℕ × ℕ × ℕ) :=
  (readLoop p (start sets) trace).map fun r => (r.1.hitCount, r.1.missCount, r.1.evictionCount)

/-- The counts are those of the accesses of the trace. -/
theorem summary_eq (p : Params) (sets : ℕ → List Line) (trace : List Record) :
    summary p sets trace = ((accessAll p (start sets) (trace.flatMap Record.accesses)).map
      Prod.fst).map fun sim => (sim.hitCount, sim.missCount, sim.evictionCount) := by
  rw [← readLoop_accessAll, Option.map_map]
  rfl

/-! ### Misses and evictions -/

/-- An access adds to the misses what it adds to the evictions, or more. -/
theorem accessCache_slack (h : accessCache p sim a = some (sim₁, log)) :
    sim.missCount + sim₁.evictionCount ≤ sim₁.missCount + sim.evictionCount := by
  rw [accessCache, Option.map_eq_some_iff] at h
  obtain ⟨lines', -, h⟩ := h
  obtain ⟨rfl, -⟩ := Prod.mk.inj h
  cases (accessSet (p.tag a) (sim.sets (p.sIndex a))).1 <;> simp only [Sim.count] <;> omega

theorem accessAll_slack (h : accessAll p sim as = some (sim', log)) :
    sim.missCount + sim'.evictionCount ≤ sim'.missCount + sim.evictionCount := by
  induction as generalizing sim log with
  | nil =>
    obtain ⟨rfl, -⟩ := Prod.mk.inj (Option.some.inj h)
    exact le_rfl
  | cons a as ih =>
    obtain ⟨sim₁, log₁, log₂, he, hall, -⟩ := accessAll_cons_eq_some.1 h
    have := accessCache_slack he
    have := ih hall
    omega

/-- **From blank lines**, a trace with an access misses without an eviction. -/
theorem Blank.evictions_lt (hE : 1 ≤ p.E) (h0 : Blank p sim)
    (h : accessAll p sim (a :: as) = some (sim', log)) : sim'.evictionCount < sim'.missCount := by
  have hA : ∀ k, Aged p.E (p.history [] k) (sim.sets k) := h0.aged
  obtain ⟨o, lines', ha, he⟩ := accessCache_access hE hA a
  have hout := (hA _).outcome ha
  rw [h0.resident] at hout
  obtain rfl : o = .cold := by
    cases o with
    | hit => exact absurd (hout.1.1 rfl) List.not_mem_nil
    | cold => rfl
    | full => exact absurd (hout.2.1 rfl).2 (Nat.not_le.2 hE)
  obtain ⟨sim₁, log₁, log₂, he', hall, -⟩ := accessAll_cons_eq_some.1 h
  obtain ⟨rfl, -⟩ := Prod.mk.inj (Option.some.inj (he.symm.trans he'))
  obtain ⟨-, hmiss, hevict⟩ := h0.counts
  have := accessAll_slack hall
  simp only [Sim.count] at this
  omega

/-- All lines valid, with counters that are not negative. -/
structure AllValid (p : Params) (sim : Sim) : Prop where
  length : ∀ k, (sim.sets k).length = p.E
  valid : ∀ k, ∀ l ∈ sim.sets k, l.valid = true ∧ 0 ≤ l.lruCounter

/-- **From valid lines**, an access that misses evicts. -/
theorem AllValid.accessCache (hE : 1 ≤ p.E) (h : AllValid p sim) (a : ℕ) :
    ∃ sim₁ log, CacheLab.accessCache p sim a = some (sim₁, log) ∧ AllValid p sim₁ ∧
      sim₁.missCount + sim.evictionCount = sim.missCount + sim₁.evictionCount := by
  have hvalid := h.valid (p.sIndex a)
  have hne : sim.sets (p.sIndex a) ≠ [] := by
    intro he
    have hlen := h.length (p.sIndex a)
    rw [he, List.length_nil] at hlen
    omega
  obtain ⟨o, lines', he, ha⟩ := accessSet_access (p.tag a) hne fun l hl _ => (hvalid l hl).2
  have hage : ∀ v : List Line, (∀ l ∈ v, l.valid = true ∧ 0 ≤ l.lruCounter) →
      ∀ l ∈ v.map Line.age, l.valid = true ∧ 0 ≤ l.lruCounter := by
    intro v hv l hl
    obtain ⟨m, hm, rfl⟩ := List.mem_map.1 hl
    exact ⟨(hv m hm).1, Int.add_nonneg (hv m hm).2 (by decide)⟩
  -- the line looked for is in place, and the others are older by one
  have hnew : lines'.length = (sim.sets (p.sIndex a)).length ∧
      (∀ l ∈ lines', l.valid = true ∧ 0 ≤ l.lruCounter) ∧ o ≠ .cold := by
    generalize sim.sets (p.sIndex a) = lines at hvalid ha
    cases ha with
    | @hit v r l hv hl ht =>
      refine ⟨by simp, ?_, by decide⟩
      obtain ⟨hv, hr⟩ := List.forall_mem_append.1 hvalid
      exact List.forall_mem_append.2 ⟨hage v hv, List.forall_mem_cons.2
        ⟨⟨rfl, (by decide : (0 : ℤ) ≤ 0 + 1)⟩, hage r (List.forall_mem_cons.1 hr).2⟩⟩
    | @cold v r l hv hl => exact absurd (hvalid l (by simp)).1 (by simp [hl])
    | @full v r l hall hv hr =>
      refine ⟨by simp, ?_, by decide⟩
      obtain ⟨hv, hr⟩ := List.forall_mem_append.1 hvalid
      exact List.forall_mem_append.2 ⟨hage v hv, List.forall_mem_cons.2
        ⟨⟨rfl, le_rfl⟩, hage r (List.forall_mem_cons.1 hr).2⟩⟩
  obtain ⟨hlen, hval, ho⟩ := hnew
  refine ⟨{ sim with sets := Function.update sim.sets (p.sIndex a) lines' }.count o, o.log, ?_,
    ⟨fun k => ?_, fun k => ?_⟩, ?_⟩
  · rw [CacheLab.accessCache]
    simp only [he, Option.map_some]
  · rw [count_sets]
    by_cases hk : k = p.sIndex a
    · subst hk
      simpa only [Function.update_self] using hlen.trans (h.length _)
    · simpa only [Function.update_of_ne hk] using h.length k
  · rw [count_sets]
    by_cases hk : k = p.sIndex a
    · subst hk
      simpa only [Function.update_self] using hval
    · simpa only [Function.update_of_ne hk] using h.valid k
  · cases o with
    | hit => rfl
    | cold => exact absurd rfl ho
    | full =>
      show sim.missCount + 1 + sim.evictionCount = sim.missCount + (sim.evictionCount + 1)
      omega

theorem AllValid.accessAll (hE : 1 ≤ p.E) (h : AllValid p sim) (as : List ℕ) :
    ∃ sim' log, CacheLab.accessAll p sim as = some (sim', log) ∧
      sim'.missCount + sim.evictionCount = sim.missCount + sim'.evictionCount := by
  induction as generalizing sim with
  | nil => exact ⟨sim, "", rfl, rfl⟩
  | cons a as ih =>
    obtain ⟨sim₁, log₁, he, h₁, hcount₁⟩ := h.accessCache hE a
    obtain ⟨sim', log₂, hall, hcount⟩ := ih h₁
    refine ⟨sim', _, accessAll_cons_eq_some.2 ⟨_, _, _, he, hall, rfl⟩, ?_⟩
    omega

/-! ### What does not count -/

/-- Lines with the same flags, and the same where they are valid. -/
def AlikeLines : List Line → List Line → Prop :=
  List.Forall₂ fun l m => l.valid = m.valid ∧ (l.valid = true → l = m)

/-- Two simulators that differ in invalid lines only. -/
structure Alike (sim sim' : Sim) : Prop where
  lines : ∀ k, AlikeLines (sim.sets k) (sim'.sets k)
  hits : sim.hitCount = sim'.hitCount
  misses : sim.missCount = sim'.missCount
  evictions : sim.evictionCount = sim'.evictionCount

theorem AlikeLines.age (h : AlikeLines lines lines') :
    AlikeLines (lines.map Line.age) (lines'.map Line.age) := by
  refine List.forall₂_map_left_iff.2 (List.forall₂_map_right_iff.2 (h.imp ?_))
  rintro l m ⟨hval, heq⟩
  exact ⟨hval, fun hl => by rw [heq hl]⟩

/-- **The first loop** goes the same way, and a set without an invalid line is the
same set. -/
theorem AlikeLines.firstLoop (h : AlikeLines lines lines') (tag : ℕ) :
    (firstLoop tag lines).1 = (firstLoop tag lines').1 ∧
      AlikeLines (firstLoop tag lines).2 (firstLoop tag lines').2 ∧
      ((firstLoop tag lines).1 = .full → lines = lines') := by
  induction h with
  | nil => exact ⟨rfl, .nil, fun _ => rfl⟩
  | @cons l m ls ms hlm h ih =>
    obtain ⟨hval, heq⟩ := hlm
    simp only [CacheLab.firstLoop, ← hval]
    split_ifs with hl ht ht'
    · obtain rfl := heq hl
      exact ⟨rfl, .cons ⟨rfl, fun _ => rfl⟩ h, fun hf => absurd hf (by decide)⟩
    · exact absurd (heq hl ▸ ht) ht'
    · exact absurd (heq hl ▸ ‹m.tag = tag›) ht
    · obtain rfl := heq hl
      exact ⟨ih.1, .cons ⟨rfl, fun _ => rfl⟩ ih.2.1, fun hf => by rw [ih.2.2 hf]⟩
    · exact ⟨rfl, .cons ⟨rfl, fun _ => rfl⟩ h, fun hf => absurd hf (by decide)⟩

/-- An access to alike sets leaves alike sets, or is defined for neither. -/
theorem AlikeLines.accessSet (h : AlikeLines lines lines') (tag : ℕ) :
    (accessSet tag lines).1 = (accessSet tag lines').1 ∧
      Option.Rel AlikeLines (accessSet tag lines).2 (accessSet tag lines').2 := by
  obtain ⟨hout, hlines, hfull⟩ := h.firstLoop tag
  have hrefl : ∀ v : List Line, AlikeLines v v := fun v =>
    List.forall₂_same.2 fun l _ => ⟨rfl, fun _ => rfl⟩
  cases ho : (CacheLab.firstLoop tag lines).1 with
  | full =>
    obtain rfl := hfull ho
    refine ⟨rfl, ?_⟩
    cases (CacheLab.accessSet tag lines).2 with
    | none => exact .none
    | some v => exact .some (hrefl v)
  | hit =>
    rw [ho] at hout
    simp only [CacheLab.accessSet, ho, ← hout, secondLoop_snd]
    exact ⟨trivial, .some hlines.age⟩
  | cold =>
    rw [ho] at hout
    simp only [CacheLab.accessSet, ho, ← hout, secondLoop_snd]
    exact ⟨trivial, .some hlines.age⟩

/-- **An access** does not tell alike simulators apart. -/
theorem Alike.accessCache (h : Alike sim sim') (p : Params) (a : ℕ) :
    Option.Rel (fun r r' => Alike r.1 r'.1) (accessCache p sim a) (accessCache p sim' a) := by
  obtain ⟨hout, hrel⟩ := (h.lines (p.sIndex a)).accessSet (p.tag a)
  rw [CacheLab.accessCache, CacheLab.accessCache, ← hout]
  generalize (CacheLab.accessSet (p.tag a) (sim.sets (p.sIndex a))).2 = x at hrel
  generalize (CacheLab.accessSet (p.tag a) (sim'.sets (p.sIndex a))).2 = y at hrel
  generalize (CacheLab.accessSet (p.tag a) (sim.sets (p.sIndex a))).1 = o
  cases hrel with
  | none => exact .none
  | some hlines =>
    refine .some ⟨fun k => ?_, ?_, ?_, ?_⟩
    · rw [count_sets, count_sets]
      by_cases hk : k = p.sIndex a
      · subst hk
        simpa only [Function.update_self] using hlines
      · simpa only [Function.update_of_ne hk] using h.lines k
    · cases o <;> simp only [Sim.count, h.hits]
    · cases o <;> simp only [Sim.count, h.misses]
    · cases o <;> simp only [Sim.count, h.evictions]

theorem Alike.accessAll (h : Alike sim sim') (p : Params) (as : List ℕ) :
    Option.Rel (fun r r' => Alike r.1 r'.1) (accessAll p sim as) (accessAll p sim' as) := by
  induction as generalizing sim sim' with
  | nil => exact .some h
  | cons a as ih =>
    rw [CacheLab.accessAll, CacheLab.accessAll]
    have hrel := h.accessCache p a
    generalize CacheLab.accessCache p sim a = x at hrel
    generalize CacheLab.accessCache p sim' a = y at hrel
    cases hrel with
    | none => exact .none
    | @some r r' h₁ =>
      have hall := ih h₁
      simp only [Option.bind_eq_bind, Option.bind_some]
      generalize CacheLab.accessAll p r.1 as = x at hall
      generalize CacheLab.accessAll p r'.1 as = y at hall
      cases hall with
      | none => exact .none
      | some h₂ => exact .some h₂

/-- **The counts** do not depend on what invalid lines hold. -/
theorem summary_congr {sets sets' : ℕ → List Line} (h : ∀ k, AlikeLines (sets k) (sets' k))
    (p : Params) (trace : List Record) : summary p sets trace = summary p sets' trace := by
  have halike : Alike (start sets) (start sets') := ⟨h, rfl, rfl, rfl⟩
  have hrel := halike.accessAll p (trace.flatMap Record.accesses)
  rw [summary_eq, summary_eq]
  generalize CacheLab.accessAll p (start sets) (trace.flatMap Record.accesses) = x at hrel
  generalize CacheLab.accessAll p (start sets') (trace.flatMap Record.accesses) = y at hrel
  cases hrel with
  | none => rfl
  | some h =>
    simp only [Option.map_some, h.hits, h.misses, h.evictions]

/-! ### What does -/

/-- Lines that can come from `malloc`: all invalid, or all valid. -/
theorem contents_replicate (p : Params) (valid : Bool) :
    Contents p fun _ => List.replicate p.E { valid := valid, tag := 0, lruCounter := 0 } := by
  refine ⟨fun k => List.length_replicate, fun k l hl => ?_, fun k l hl => ?_⟩
  · rw [List.eq_of_mem_replicate hl]
    exact Nat.two_pow_pos 32
  · rw [List.eq_of_mem_replicate hl]
    exact (by decide : -2 ^ 31 ≤ (0 : ℤ) ∧ (0 : ℤ) < 2 ^ 31)

/-- **The counts follow from the trace** exactly if it makes no access: then the
loop ends with the same counts whatever `malloc` left in the lines, and otherwise
it does not.  Where two contents have the same flags and the same valid lines the
counts are the same for every trace. -/
theorem counts_determined_iff (p : Params) (trace : List Record) :
    ((∀ sets sets', Contents p sets → Contents p sets' →
        ∃ counts, summary p sets trace = some counts ∧ summary p sets' trace = some counts) ↔
      trace.flatMap Record.accesses = []) ∧
    ∀ sets sets', (∀ k, AlikeLines (sets k) (sets' k)) →
      summary p sets trace = summary p sets' trace := by
  refine ⟨⟨fun h => ?_, fun hnone sets sets' _ _ => ?_⟩,
    fun sets sets' h => summary_congr h p trace⟩
  · obtain ⟨counts, hinvalid, hvalid⟩ :=
      h _ _ (contents_replicate p false) (contents_replicate p true)
    simp only [summary_eq, Option.map_map, Option.map_eq_some_iff, Function.comp_apply,
      Prod.exists] at hinvalid hvalid
    obtain ⟨sim, log, hrun, rfl⟩ := hinvalid
    obtain ⟨sim', log', hrun', hcounts⟩ := hvalid
    obtain ⟨hhit, hmiss, hevict⟩ : sim'.hitCount = sim.hitCount ∧
        sim'.missCount = sim.missCount ∧ sim'.evictionCount = sim.evictionCount := by
      simpa using hcounts
    by_contra hne
    obtain ⟨a, as, has⟩ := List.exists_cons_of_ne_nil hne
    rw [has] at hrun hrun'
    rcases Nat.eq_zero_or_pos p.E with hE | hE
    · -- without lines an access has no result
      obtain ⟨sim₁, log₁, log₂, he, -⟩ := accessAll_cons_eq_some.1 hrun
      simp [accessCache, start, hE, accessSet, firstLoop, secondLoop] at he
    · have hblank : Blank p (start fun _ => List.replicate p.E ⟨false, 0, 0⟩) :=
        ⟨fun k => List.length_replicate, fun k l hl => by rw [List.eq_of_mem_replicate hl],
          rfl, rfl, rfl⟩
      have hfull : AllValid p (start fun _ => List.replicate p.E ⟨true, 0, 0⟩) :=
        ⟨fun k => List.length_replicate, fun k l hl => by
          rw [List.eq_of_mem_replicate hl]
          exact ⟨rfl, le_rfl⟩⟩
      have hlt := hblank.evictions_lt hE hrun
      obtain ⟨sim₁, log₁, hrun₁, heq⟩ := hfull.accessAll hE (a :: as)
      obtain ⟨rfl, -⟩ := Prod.mk.inj (Option.some.inj (hrun'.symm.trans hrun₁))
      simp only [start] at heq
      omega
  · refine ⟨(0, 0, 0), ?_, ?_⟩
    · rw [summary_eq, hnone]
      rfl
    · rw [summary_eq, hnone]
      rfl

/-- **Two contents, two results**: one load is a miss, or a hit if the line of its
set is found valid with its tag. -/
theorem counts_differ :
    Contents ⟨0, 1, 0⟩ (fun _ => [⟨false, 5, 0⟩]) ∧ Contents ⟨0, 1, 0⟩ (fun _ => [⟨true, 5, 0⟩]) ∧
      summary ⟨0, 1, 0⟩ (fun _ => [⟨false, 5, 0⟩]) [⟨'L', 5⟩] = some (0, 1, 0) ∧
      summary ⟨0, 1, 0⟩ (fun _ => [⟨true, 5, 0⟩]) [⟨'L', 5⟩] = some (1, 0, 0) :=
  ⟨⟨fun _ => rfl, by simp, by simp⟩, ⟨fun _ => rfl, by simp, by simp⟩, by decide, by decide⟩

end CacheLab
end CsappLabs
