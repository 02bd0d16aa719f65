/-
# What the counters say about the past

In every run of the simulator, whatever it evicts, the counter of a line never
contradicts the order of last access: of two valid lines of a set the one
accessed earlier has at least the counter of the other (`Aged.recency`).  The
counters can be equal, because an eviction sets the new line to `0` after the
ageing loop and a hit before it.

The history of a set is the list of the tags accessed there, most recent first.
-/

import CsappLabs.CacheLab.Csim
import CsappLabs.Lib.System
import Mathlib.Data.List.Nodup

namespace CsappLabs
namespace CacheLab

open Lib Lib.CInt

/-! ### What one access does to a set -/

/-- The second loop adds one to the counter. -/
def Line.age (l : Line) : Line := { l with lruCounter := l.lruCounter + 1 }

/-- The line that holds a tag just brought in. -/
def newLine (tag : ℕ) : Line := { valid := true, tag := tag, lruCounter := 0 }

variable {tag : ℕ} {lines lines' v r : List Line}

/-- Valid lines with other tags are passed over. -/
theorem firstLoop_append (hv : ∀ l ∈ v, l.valid = true ∧ l.tag ≠ tag) :
    firstLoop tag (v ++ r) = ((firstLoop tag r).1, v ++ (firstLoop tag r).2) := by
  induction v with
  | nil => rfl
  | cons l v ih =>
    obtain ⟨⟨hval, hne⟩, hv⟩ := List.forall_mem_cons.1 hv
    rw [List.cons_append, firstLoop, if_pos hval, if_neg hne, ih hv, List.cons_append]

/-- A set splits at the line where the first loop ends. -/
theorem split_lines (tag : ℕ) (lines : List Line) :
    (∀ l ∈ lines, l.valid = true ∧ l.tag ≠ tag) ∨
      ∃ v l r, lines = v ++ l :: r ∧ (∀ l ∈ v, l.valid = true ∧ l.tag ≠ tag) ∧
        (l.valid = true → l.tag = tag) := by
  induction lines with
  | nil => exact .inl fun l hl => absurd hl List.not_mem_nil
  | cons l ls ih =>
    by_cases hl : l.valid = true → l.tag = tag
    · exact .inr ⟨[], l, ls, rfl, fun l hl => absurd hl List.not_mem_nil, hl⟩
    · have hl : l.valid = true ∧ l.tag ≠ tag := by grind
      rcases ih with ih | ⟨v, l', r, rfl, hv, hl'⟩
      · exact .inl (List.forall_mem_cons.2 ⟨hl, ih⟩)
      · exact .inr ⟨l :: v, l', r, rfl, List.forall_mem_cons.2 ⟨hl, hv⟩, hl'⟩

/-- The second loop ages every line. -/
theorem secondLoop_snd (i : ℕ) (e : Option ℕ) (m : ℤ) :
    (secondLoop i e m lines).2 = lines.map Line.age := by
  induction lines generalizing i e m with
  | nil => rfl
  | cons l ls ih =>
    simp only [secondLoop, List.map_cons, Line.age]
    split_ifs <;> rw [ih]

/-- **The victim** is the first of the lines with the biggest counter, if a
counter is bigger than the one to start with. -/
theorem secondLoop_fst (lines : List Line) (i : ℕ) (e : Option ℕ) (m : ℤ) :
    (secondLoop i e m lines).1 = e ∧ (∀ l ∈ lines, l.lruCounter ≤ m) ∨
      ∃ v l r, lines = v ++ l :: r ∧ (secondLoop i e m lines).1 = some (i + v.length) ∧
        m < l.lruCounter ∧ (∀ x ∈ v, x.lruCounter < l.lruCounter) ∧
        ∀ x ∈ r, x.lruCounter ≤ l.lruCounter := by
  induction lines generalizing i e m with
  | nil => exact .inl ⟨rfl, fun l hl => absurd hl List.not_mem_nil⟩
  | cons l ls ih =>
    simp only [secondLoop]
    split_ifs with hm
    · right
      rcases ih (i + 1) (some i) l.lruCounter with ⟨he, hle⟩ | ⟨v, x, r, rfl, he, hx, hv, hr⟩
      · exact ⟨[], l, ls, rfl, he, hm, fun x hx => absurd hx List.not_mem_nil, hle⟩
      · refine ⟨l :: v, x, r, rfl, ?_, hm.trans hx, List.forall_mem_cons.2 ⟨hx, hv⟩, hr⟩
        rw [he, List.length_cons]
        congr 1
        omega
    · rcases ih (i + 1) e m with ⟨he, hle⟩ | ⟨v, x, r, rfl, he, hx, hv, hr⟩
      · exact .inl ⟨he, List.forall_mem_cons.2 ⟨by omega, hle⟩⟩
      · refine .inr ⟨l :: v, x, r, rfl, ?_, hx, List.forall_mem_cons.2 ⟨by omega, hv⟩, hr⟩
        rw [he, List.length_cons]
        congr 1
        omega

/-- What an access does to a set. -/
inductive Access (tag : ℕ) : List Line → Outcome → List Line → Prop
  /-- the line matches; it is aged from `0` -/
  | hit {v r : List Line} {l : Line} (hv : ∀ l ∈ v, l.valid = true ∧ l.tag ≠ tag)
      (hl : l.valid = true) (ht : l.tag = tag) :
      Access tag (v ++ l :: r) .hit (v.map Line.age ++ (newLine tag).age :: r.map Line.age)
  /-- the first invalid line is filled, and aged from `0` -/
  | cold {v r : List Line} {l : Line} (hv : ∀ l ∈ v, l.valid = true ∧ l.tag ≠ tag)
      (hl : l.valid = false) :
      Access tag (v ++ l :: r) .cold (v.map Line.age ++ (newLine tag).age :: r.map Line.age)
  /-- the first line with the biggest counter is replaced after the ageing -/
  | full {v r : List Line} {l : Line}
      (hall : ∀ x ∈ v ++ l :: r, x.valid = true ∧ x.tag ≠ tag)
      (hv : ∀ x ∈ v, x.lruCounter < l.lruCounter) (hr : ∀ x ∈ r, x.lruCounter ≤ l.lruCounter) :
      Access tag (v ++ l :: r) .full (v.map Line.age ++ newLine tag :: r.map Line.age)

/-- Every access to a set with a counter that is not negative has one of these effects. -/
theorem accessSet_access (tag : ℕ) (hne : lines ≠ [])
    (hpos : ∀ l ∈ lines, l.valid = true → 0 ≤ l.lruCounter) :
    ∃ o lines', accessSet tag lines = (o, some lines') ∧ Access tag lines o lines' := by
  rcases split_lines tag lines with hall | ⟨v, l, r, rfl, hv, hl⟩
  · have hfirst : firstLoop tag lines = (.full, lines) := by
      have := firstLoop_append (r := []) hall
      simpa [firstLoop] using this
    rcases secondLoop_fst lines 0 none (-1) with ⟨-, hle⟩ | ⟨v, l, r, rfl, he, -, hv, hr⟩
    · -- no counter is bigger than `-1`
      obtain ⟨l, hl⟩ := List.exists_mem_of_ne_nil lines hne
      have := hle l hl
      have := hpos l hl (hall l hl).1
      omega
    · refine ⟨_, _, ?_, .full hall hv hr⟩
      rw [accessSet, hfirst]
      have hlen : v.length = (v.map Line.age).length := (List.length_map _).symm
      simp only [he, secondLoop_snd, Option.map_some, Nat.zero_add]
      rw [List.map_append, hlen, List.map_cons, List.set_append_right _ _ le_rfl, Nat.sub_self]
      rfl
  · cases hval : l.valid with
    | true =>
      obtain rfl := hl hval
      refine ⟨_, _, ?_, .hit hv hval rfl⟩
      have hfirst : firstLoop l.tag (v ++ l :: r) = (.hit, v ++ newLine l.tag :: r) := by
        rw [firstLoop_append hv, firstLoop, if_pos hval, if_pos rfl]
        simp [newLine, ← hval]
      rw [accessSet, hfirst]
      simp [secondLoop_snd]
    | false =>
      refine ⟨_, _, ?_, .cold hv hval⟩
      have hfirst : firstLoop tag (v ++ l :: r) = (.cold, v ++ newLine tag :: r) := by
        rw [firstLoop_append hv, firstLoop, hval]
        simp [newLine]
      rw [accessSet, hfirst]
      simp [secondLoop_snd]

/-! ### The tags of a set -/

/-- The tags of the valid lines. -/
def resident (lines : List Line) : List ℕ := (lines.filter Line.valid).map Line.tag

theorem resident_append (v r : List Line) : resident (v ++ r) = resident v ++ resident r := by
  rw [resident, List.filter_append, List.map_append]
  rfl

theorem resident_cons_valid {l : Line} (hl : l.valid = true) (r : List Line) :
    resident (l :: r) = l.tag :: resident r := by
  rw [resident, List.filter_cons_of_pos hl, List.map_cons]
  rfl

theorem resident_cons_invalid {l : Line} (hl : l.valid = false) (r : List Line) :
    resident (l :: r) = resident r := by
  rw [resident, List.filter_cons_of_neg (by simp [hl])]
  rfl

theorem resident_age (v : List Line) : resident (v.map Line.age) = resident v := by
  rw [resident, resident, List.filter_map, List.map_map]
  rfl

theorem mem_resident {x : ℕ} : x ∈ resident lines ↔ ∃ l ∈ lines, l.valid = true ∧ l.tag = x := by
  simp [resident, and_assoc]

theorem length_resident_le (lines : List Line) : (resident lines).length ≤ lines.length := by
  rw [resident, List.length_map]
  exact List.length_filter_le ..

/-- The tags after an access. -/
theorem resident_access {v r : List Line} {l : Line} (hl : l.valid = true) :
    resident (v.map Line.age ++ l :: r.map Line.age) = resident v ++ l.tag :: resident r := by
  rw [resident_append, resident_cons_valid hl, resident_age, resident_age]

/-! ### The invariant -/

/-- What holds of the lines of a set with history `hist`. -/
structure Aged (E : ℕ) (hist : List ℕ) (lines : List Line) : Prop where
  length : lines.length = E
  prefixed : lines.Pairwise fun l m => m.valid = true → l.valid = true
  tags : (resident lines).Nodup
  past : ∀ x ∈ resident lines, x ∈ hist
  nonneg : ∀ l ∈ lines, l.valid = true → 0 ≤ l.lruCounter
  recency : ∀ l ∈ lines, ∀ m ∈ lines, l.valid = true → m.valid = true →
    hist.idxOf l.tag < hist.idxOf m.tag → l.lruCounter ≤ m.lruCounter

namespace Aged

variable {E : ℕ} {hist : List ℕ} {o : Outcome}

/-- Past an invalid line all lines are invalid. -/
theorem invalid_after {l : Line} (h : Aged E hist (v ++ l :: r)) (hl : l.valid = false) :
    ∀ m ∈ r, m.valid = false := by
  intro m hm
  have hpair := (List.pairwise_cons.1 (List.pairwise_append.1 h.prefixed).2.1).1 m hm
  by_contra hval
  exact absurd (hpair (by simpa using hval)) (by simp [hl])

/-- A tag brought in is resident nowhere before. -/
theorem cold_not_mem {l : Line} (h : Aged E hist (v ++ l :: r))
    (hv : ∀ l ∈ v, l.valid = true ∧ l.tag ≠ tag) (hl : l.valid = false) :
    tag ∉ resident (v ++ l :: r) := by
  rw [mem_resident]
  rintro ⟨m, hm, hval, ht⟩
  rcases List.mem_append.1 hm with hm | hm
  · exact (hv m hm).2 ht
  · rcases List.mem_cons.1 hm with rfl | hm
    · exact absurd hl (by simp [hval])
    · exact absurd (h.invalid_after hl m hm) (by simp [hval])

/-- The loop ends in a hit exactly if the tag is resident, and without a line
exactly if it is not and the set is full. -/
theorem outcome (h : Aged E hist lines) (ha : Access tag lines o lines') :
    (o = .hit ↔ tag ∈ resident lines) ∧
      (o = .full ↔ tag ∉ resident lines ∧ E ≤ (resident lines).length) := by
  have hlines := h.length
  cases ha with
  | @hit v r l hv hl ht =>
    have hmem : tag ∈ resident (v ++ l :: r) := mem_resident.2 ⟨l, by simp, hl, ht⟩
    exact ⟨⟨fun _ => hmem, fun _ => rfl⟩, ⟨fun h => absurd h (by decide), fun h => absurd hmem h.1⟩⟩
  | @cold v r l hv hl =>
    have hno := h.cold_not_mem hv hl
    refine ⟨⟨fun h => absurd h (by decide), fun h => absurd h hno⟩,
      ⟨fun h => absurd h (by decide), fun hE => absurd hE.2 ?_⟩⟩
    rw [List.length_append, List.length_cons] at hlines
    rw [resident_append, resident_cons_invalid hl, List.length_append]
    have := length_resident_le v
    have := length_resident_le r
    omega
  | @full v r l hall hv hr =>
    have hno : tag ∉ resident (v ++ l :: r) := by
      rw [mem_resident]
      rintro ⟨x, hx, -, he⟩
      exact (hall x hx).2 he
    refine ⟨⟨fun h => absurd h (by decide), fun h => absurd h hno⟩,
      ⟨fun _ => ⟨hno, ?_⟩, fun _ => rfl⟩⟩
    rw [← hlines, resident, List.length_map, List.filter_eq_self.2 fun x hx => (hall x hx).1]

/-- After an access, a valid line is the one accessed, or an old line with one
more on its counter. -/
theorem mem_access (h : Aged E hist lines) (ha : Access tag lines o lines') {m : Line}
    (hm : m ∈ lines') (hval : m.valid = true) :
    m.tag = tag ∧ 0 ≤ m.lruCounter ∧ m.lruCounter ≤ 1 ∨
      ∃ l ∈ lines, l.valid = true ∧ l.tag ≠ tag ∧ m = l.age := by
  cases ha with
  | @hit v r l hv hl ht =>
    simp only [List.mem_append, List.mem_cons, List.mem_map] at hm
    rcases hm with ⟨x, hx, rfl⟩ | rfl | ⟨x, hx, rfl⟩
    · exact .inr ⟨x, by simp [hx], hval, (hv x hx).2, rfl⟩
    · exact .inl ⟨rfl, by simp [newLine, Line.age], by simp [newLine, Line.age]⟩
    · refine .inr ⟨x, by simp [hx], hval, fun he => ?_, rfl⟩
      -- the tag would stand twice in the set
      have hnd := h.tags
      rw [resident_append, resident_cons_valid hl, List.nodup_append] at hnd
      exact (List.nodup_cons.1 hnd.2.1).1 (mem_resident.2 ⟨x, hx, hval, he.trans ht.symm⟩)
  | @cold v r l hv hl =>
    simp only [List.mem_append, List.mem_cons, List.mem_map] at hm
    rcases hm with ⟨x, hx, rfl⟩ | rfl | ⟨x, hx, rfl⟩
    · exact .inr ⟨x, by simp [hx], hval, (hv x hx).2, rfl⟩
    · exact .inl ⟨rfl, by simp [newLine, Line.age], by simp [newLine, Line.age]⟩
    · exact absurd (h.invalid_after hl x hx) (by simpa [Line.age] using hval)
  | @full v r l hall hv hr =>
    simp only [List.mem_append, List.mem_cons, List.mem_map] at hm
    rcases hm with ⟨x, hx, rfl⟩ | rfl | ⟨x, hx, rfl⟩
    · exact .inr ⟨x, by simp [hx], hval, (hall x (by simp [hx])).2, rfl⟩
    · exact .inl ⟨rfl, by simp [newLine], by simp [newLine]⟩
    · exact .inr ⟨x, by simp [hx], hval, (hall x (by simp [hx])).2, rfl⟩

/-- **An access keeps the invariant**, and adds its tag to the history. -/
theorem access (h : Aged E hist lines) (ha : Access tag lines o lines') :
    Aged E (tag :: hist) lines' := by
  have hmem := fun m hm hval => h.mem_access ha (m := m) hm hval
  refine ⟨?_, ?_, ?_, ?_, ?_, ?_⟩
  · rw [← h.length]
    cases ha <;> simp
  · have hage : ∀ ls : List Line, ls.Pairwise (fun l m => m.valid = true → l.valid = true) →
        (ls.map Line.age).Pairwise fun l m => m.valid = true → l.valid = true := fun ls hls =>
      List.pairwise_map.2 hls
    have hnew : ∀ {v r : List Line} {l n : Line}, Aged E hist (v ++ l :: r) → n.valid = true →
        (∀ x ∈ v, x.valid = true) →
        (v.map Line.age ++ n :: r.map Line.age).Pairwise fun l m => m.valid = true → l.valid = true := by
      intro v r l n h hn hv
      have hp := List.pairwise_append.1 h.prefixed
      refine List.pairwise_append.2 ⟨hage v hp.1, List.pairwise_cons.2 ⟨fun _ _ _ => hn,
        hage r (List.pairwise_cons.1 hp.2.1).2⟩, fun x hx _ _ _ => ?_⟩
      obtain ⟨y, hy, rfl⟩ := List.mem_map.1 hx
      exact hv y hy
    cases ha with
    | hit hv hl ht => exact hnew h rfl fun x hx => (hv x hx).1
    | cold hv hl => exact hnew h rfl fun x hx => (hv x hx).1
    | full hall hv hr => exact hnew h rfl fun x hx => (hall x (by simp [hx])).1
  · have hnd := h.tags
    cases ha with
    | hit hv hl ht =>
      rw [resident_append, resident_cons_valid hl, ht] at hnd
      rwa [resident_access rfl]
    | cold hv hl =>
      have hno := h.cold_not_mem hv hl
      rw [resident_append, resident_cons_invalid hl] at hnd hno
      rw [resident_access rfl]
      exact List.perm_middle.nodup_iff.2 (List.nodup_cons.2 ⟨hno, hnd⟩)
    | @full v r l hall hv hr =>
      have hno : tag ∉ resident (v ++ l :: r) := by
        rw [mem_resident]
        rintro ⟨x, hx, -, he⟩
        exact (hall x hx).2 he
      rw [resident_append, resident_cons_valid (hall l (by simp)).1] at hnd hno
      rw [resident_access rfl]
      have hnd' := (List.nodup_cons.1 (List.perm_middle.nodup_iff.1 hnd)).2
      refine List.perm_middle.nodup_iff.2 (List.nodup_cons.2 ⟨fun hx => hno ?_, hnd'⟩)
      simp only [List.mem_append, List.mem_cons] at hx ⊢
      tauto
  · intro x hx
    obtain ⟨m, hm, hval, rfl⟩ := mem_resident.1 hx
    rcases hmem m hm hval with ⟨ht, -⟩ | ⟨l, hl, hlv, -, rfl⟩
    · exact ht ▸ List.mem_cons_self
    · exact List.mem_cons_of_mem _ (h.past _ (mem_resident.2 ⟨l, hl, hlv, rfl⟩))
  · intro m hm hval
    rcases hmem m hm hval with ⟨-, hc, -⟩ | ⟨l, hl, hlv, -, rfl⟩
    · exact hc
    · have := h.nonneg l hl hlv
      show 0 ≤ l.lruCounter + 1
      omega
  · intro l hl m hm hlv hmv hidx
    rcases hmem m hm hmv with ⟨ht, -⟩ | ⟨y, hy, hyv, hyt, rfl⟩
    · rw [ht, List.idxOf_cons_self] at hidx
      exact absurd hidx (Nat.not_lt_zero _)
    · have hy0 := h.nonneg y hy hyv
      show l.lruCounter ≤ y.lruCounter + 1
      rcases hmem l hl hlv with ⟨-, -, hc⟩ | ⟨x, hx, hxv, hxt, rfl⟩
      · omega
      · have hle : x.lruCounter ≤ y.lruCounter := by
          refine h.recency x hx y hy hxv hyv ?_
          simp only [Line.age, List.idxOf_cons_ne _ hxt.symm, List.idxOf_cons_ne _ hyt.symm] at hidx
          omega
        show x.lruCounter + 1 ≤ y.lruCounter + 1
        omega

end Aged

/-! ### Runs -/

/-- The simulator with the addresses accessed so far, most recent first. -/
structure Traced extends Sim where
  past : List ℕ

/-- The simulator, one access at a time. -/
def csimSystem (p : Params) : System Traced ℕ where
  init u := Fresh p u.toSim ∧ u.past = []
  next u address := (accessCache p u.toSim address).map fun r =>
    { r.1 with past := address :: u.past }

/-- The history of set `k`: the tags accessed there, most recent first. -/
def Params.history (p : Params) (past : List ℕ) (k : ℕ) : List ℕ :=
  (past.filter fun address => p.sIndex address = k).map p.tag

theorem history_cons_self (p : Params) (past : List ℕ) (a : ℕ) :
    p.history (a :: past) (p.sIndex a) = p.tag a :: p.history past (p.sIndex a) := by
  rw [Params.history, List.filter_cons_of_pos (by simp), List.map_cons]
  rfl

theorem history_cons_ne {p : Params} {a k : ℕ} (h : k ≠ p.sIndex a) (past : List ℕ) :
    p.history (a :: past) k = p.history past k := by
  rw [Params.history, List.filter_cons_of_neg (by simpa using h.symm)]
  rfl

variable {p : Params} {u u' : Traced} {sim sim' : Sim} {past : List ℕ} {a : ℕ} {o : Outcome}

/-- **One access** changes one set, as `Access` says, and counts. -/
theorem accessCache_access (hE : 1 ≤ p.E)
    (h : ∀ k, Aged p.E (p.history past k) (sim.sets k)) (a : ℕ) :
    ∃ o lines', Access (p.tag a) (sim.sets (p.sIndex a)) o lines' ∧
      accessCache p sim a = some
        ({ sim with sets := Function.update sim.sets (p.sIndex a) lines' }.count o, o.log) := by
  have hk := h (p.sIndex a)
  have hne : sim.sets (p.sIndex a) ≠ [] := by
    intro he
    have := hk.length
    rw [he, List.length_nil] at this
    omega
  obtain ⟨o, lines', he, ha⟩ := accessSet_access (p.tag a) hne hk.nonneg
  refine ⟨o, lines', ha, ?_⟩
  rw [accessCache]
  simp only [he, Option.map_some]

/-- The same as a step of the system. -/
theorem csim_next (hE : 1 ≤ p.E)
    (h : ∀ k, Aged p.E (p.history u.past k) (u.sets k)) (a : ℕ) :
    ∃ o lines', Access (p.tag a) (u.sets (p.sIndex a)) o lines' ∧
      (csimSystem p).next u a = some
        { { u.toSim with sets := Function.update u.sets (p.sIndex a) lines' }.count o with
          past := a :: u.past } := by
  obtain ⟨o, lines', ha, he⟩ := accessCache_access hE h a
  refine ⟨o, lines', ha, ?_⟩
  show ((accessCache p u.toSim a).map fun r => _) = _
  rw [he, Option.map_some]

@[simp] theorem count_sets (sim : Sim) (o : Outcome) : (sim.count o).sets = sim.sets := by
  cases o <;> rfl

theorem Fresh.blank {sim : Sim} (h : Fresh p sim) : Blank p sim :=
  ⟨h.length, fun k l hl => (h.invalid k l hl).1, h.counts⟩

/-- A blank set has no tags. -/
theorem Blank.resident {sim : Sim} (h : Blank p sim) (k : ℕ) :
    CacheLab.resident (sim.sets k) = [] := by
  rw [List.eq_nil_iff_forall_not_mem]
  intro x hx
  obtain ⟨l, hl, hv, -⟩ := mem_resident.1 hx
  exact absurd (h.invalid k l hl) (by simp [hv])

/-- Blank lines have no past. -/
theorem Blank.aged {sim : Sim} (h : Blank p sim) (k : ℕ) : Aged p.E [] (sim.sets k) := by
  have hno := h.resident k
  have hinv : ∀ l ∈ sim.sets k, l.valid ≠ true := fun l hl => by simp [h.invalid k l hl]
  refine ⟨h.length k, ?_, by simp [hno], by simp [hno], fun l hl hv => absurd hv (hinv l hl),
    fun l hl _ _ hv => absurd hv (hinv l hl)⟩
  exact List.pairwise_of_forall_mem_list fun _ _ m hm hv => absurd hv (hinv m hm)

/-- An access adds its tag to the history of its set. -/
theorem aged_update (hA : ∀ k, Aged p.E (p.history past k) (sim.sets k))
    (ha : Access (p.tag a) (sim.sets (p.sIndex a)) o lines') (k : ℕ) :
    Aged p.E (p.history (a :: past) k)
      (({ sim with sets := Function.update sim.sets (p.sIndex a) lines' }.count o).sets k) := by
  rw [count_sets]
  by_cases hk : k = p.sIndex a
  · subst hk
    rw [history_cons_self]
    simpa only [Function.update_self] using (hA _).access ha
  · rw [history_cons_ne hk]
    simpa only [Function.update_of_ne hk] using hA k

/-- The same for a step of the system. -/
theorem aged_next (hA : ∀ k, Aged p.E (p.history u.past k) (u.sets k))
    (hn : (csimSystem p).next u a = some u') (hE : 1 ≤ p.E) (k : ℕ) :
    Aged p.E (p.history u'.past k) (u'.sets k) := by
  obtain ⟨o, lines', ha, hn'⟩ := csim_next hE hA a
  obtain rfl := Option.some.inj (hn'.symm.trans hn)
  exact aged_update hA ha k

/-- **The counters follow the past** in every state reached. -/
theorem aged_of_reach (hE : 1 ≤ p.E) (h : (csimSystem p).Reach u) (k : ℕ) :
    Aged p.E (p.history u.past k) (u.sets k) := by
  refine System.ReachBy.induct
    (P := fun u => ∀ k, Aged p.E (p.history u.past k) (u.sets k)) ?_ ?_ h k
  · rintro u ⟨hf, hpast⟩ k
    rw [hpast]
    exact hf.blank.aged k
  · exact fun u a u' _ hA _ hn => aged_next hA hn hE

/-- A run never gets stuck. -/
theorem run_isSome (hE : 1 ≤ p.E) (h : (csimSystem p).Reach u) (as : List ℕ) :
    ∃ u', (csimSystem p).run u as = some u' ∧ u'.past = as.reverse ++ u.past := by
  induction as generalizing u with
  | nil => exact ⟨u, rfl, rfl⟩
  | cons a as ih =>
    obtain ⟨o, lines', -, hn⟩ := csim_next hE (aged_of_reach hE h) a
    obtain ⟨u', hr, hpast⟩ := ih (h.step hn)
    refine ⟨u', by rw [System.run_cons, hn]; exact hr, ?_⟩
    rw [hpast, List.reverse_cons, List.append_assoc]
    rfl

/-- The first access of several. -/
theorem accessAll_cons_eq_some {as : List ℕ} {log : String} :
    accessAll p sim (a :: as) = some (sim', log) ↔
      ∃ sim₁ log₁ log₂, accessCache p sim a = some (sim₁, log₁) ∧
        accessAll p sim₁ as = some (sim', log₂) ∧ log = log₁ ++ log₂ := by
  constructor
  · intro h
    obtain ⟨⟨sim₁, log₁⟩, he, h⟩ := Option.bind_eq_some_iff.1 h
    obtain ⟨⟨sim₂, log₂⟩, hall, h⟩ := Option.bind_eq_some_iff.1 h
    obtain ⟨rfl, rfl⟩ := Prod.mk.inj (Option.some.inj h)
    exact ⟨sim₁, log₁, log₂, he, hall, rfl⟩
  · rintro ⟨sim₁, log₁, log₂, he, hall, rfl⟩
    simp only [accessAll, he, hall, Option.bind_eq_bind, Option.bind_some]
    rfl

/-- **Accesses one after the other** follow the past as well. -/
theorem accessAll_aged (hE : 1 ≤ p.E) (as : List ℕ)
    (hA : ∀ k, Aged p.E (p.history past k) (sim.sets k)) :
    ∃ sim' log, accessAll p sim as = some (sim', log) ∧
      ∀ k, Aged p.E (p.history (as.reverse ++ past) k) (sim'.sets k) := by
  induction as generalizing sim past with
  | nil => exact ⟨sim, "", rfl, hA⟩
  | cons a as ih =>
    obtain ⟨o, lines', ha, he⟩ := accessCache_access hE hA a
    obtain ⟨sim', log, hall, hA'⟩ := ih (aged_update hA ha)
    refine ⟨sim', o.log ++ log, accessAll_cons_eq_some.2 ⟨_, _, _, he, hall, rfl⟩, ?_⟩
    rwa [List.reverse_cons, List.append_assoc]

/-- The reading loop makes the accesses of its records, one after the other. -/
theorem accessAll_run (u : Traced) (as : List ℕ) :
    (accessAll p u.toSim as).map Prod.fst = ((csimSystem p).run u as).map Traced.toSim := by
  induction as generalizing u with
  | nil => rfl
  | cons a as ih =>
    rw [System.run_cons, accessAll]
    cases he : accessCache p u.toSim a with
    | none => simp [csimSystem, he]
    | some r =>
      have hn : (csimSystem p).next u a = some { r.1 with past := a :: u.past } := by
        simp [csimSystem, he]
      have := ih { r.1 with past := a :: u.past }
      rw [hn, Option.bind_some, ← this]
      simp only [Option.bind_eq_bind, Option.bind_some, Option.map_bind]
      cases accessAll p r.1 as <;> rfl

theorem readLoop_run (u : Traced) (rs : List Record) :
    (readLoop p u.toSim rs).map Prod.fst =
      ((csimSystem p).run u (rs.flatMap Record.accesses)).map Traced.toSim := by
  induction rs generalizing u with
  | nil => rfl
  | cons r rs ih =>
    have hr := accessAll_run (p := p) u r.accesses
    rw [List.flatMap_cons, System.run_append, readLoop]
    cases hrun : (csimSystem p).run u r.accesses with
    | none =>
      rw [hrun] at hr
      have : accessAll p u.toSim r.accesses = none := by simpa using hr
      simp [this]
    | some u' =>
      rw [hrun] at hr
      obtain ⟨⟨sim, log⟩, he, hsim⟩ := Option.map_eq_some_iff.1 hr
      obtain rfl : sim = u'.toSim := hsim
      rw [he, Option.bind_some, ← ih u']
      simp only [Option.bind_eq_bind, Option.bind_some, Option.map_bind]
      cases readLoop p u'.toSim rs <;> rfl

/-- The reading loop is the run of its accesses. -/
theorem readLoop_accessAll (p : Params) (sim : Sim) (trace : List Record) :
    (readLoop p sim trace).map Prod.fst =
      (accessAll p sim (trace.flatMap Record.accesses)).map Prod.fst := by
  rw [readLoop_run (p := p) ⟨sim, []⟩ trace, ← accessAll_run]

end CacheLab
end CsappLabs
