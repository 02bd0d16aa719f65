/-
# The simulator and an LRU cache

The reference keeps for every set the list of its tags in order of last access
(`lruAccess`).  The simulator agrees with it as long as its victims are the least
recently accessed lines, and that fails in one situation only: another line has
the same counter and stands before it (`Evicts`).  The tie arises when a tag is
brought in by an eviction, its line left at counter `0`, and the next access to
the set hits a line, left at `1` for one access less.

`lru_counts` says that this is the exact condition: where it is met throughout
the counts agree, and the counts agree up to every point of a trace, whatever
the next access, only if it is met throughout.
-/

import CsappLabs.CacheLab.Counters
import CsappLabs.Lib.Recency

namespace CsappLabs
namespace CacheLab

open Lib Lib.CInt Lib.Recency

/-! ### The reference -/

/-- For every set the resident tags, most recently accessed first. -/
structure LruCache where
  sets : ℕ → List ℕ
  hitCount : ℕ
  missCount : ℕ
  evictionCount : ℕ

/-- One access: a hit, a miss into a set with room, or a miss that evicts the
least recently accessed tag. -/
def lruAccess (p : Params) (c : LruCache) (address : ℕ) : LruCache :=
  let k := address / 2 ^ p.b % 2 ^ p.s
  let t := address / 2 ^ (p.s + p.b)
  { sets := Function.update c.sets k (touch p.E t (c.sets k))
    hitCount := if t ∈ c.sets k then c.hitCount + 1 else c.hitCount
    missCount := if t ∈ c.sets k then c.missCount else c.missCount + 1
    evictionCount :=
      if t ∉ c.sets k ∧ p.E ≤ (c.sets k).length then c.evictionCount + 1 else c.evictionCount }

/-- An access to the set that the simulator accesses. -/
theorem lruAccess_eq {p : Params} (hd : p.Defined) (c : LruCache) (a : ℕ) :
    lruAccess p c a =
      let k := p.sIndex a
      let t := a / 2 ^ (p.s + p.b)
      { sets := Function.update c.sets k (touch p.E t (c.sets k))
        hitCount := if t ∈ c.sets k then c.hitCount + 1 else c.hitCount
        missCount := if t ∈ c.sets k then c.missCount else c.missCount + 1
        evictionCount :=
          if t ∉ c.sets k ∧ p.E ≤ (c.sets k).length then c.evictionCount + 1
          else c.evictionCount } := by
  rw [hd.sIndex_eq]
  rfl

/-- The sets after an access. -/
theorem lruAccess_sets {p : Params} (hd : p.Defined) (c : LruCache) (a k : ℕ) :
    (lruAccess p c a).sets k =
      if k = p.sIndex a then touch p.E (a / 2 ^ (p.s + p.b)) (c.sets k) else c.sets k := by
  rw [lruAccess_eq hd]
  by_cases hk : k = p.sIndex a
  · subst hk
    rw [if_pos rfl]
    exact Function.update_self ..
  · rw [if_neg hk]
    exact Function.update_of_ne hk ..

/-- The empty cache. -/
def lruInit : LruCache := { sets := fun _ => [], hitCount := 0, missCount := 0, evictionCount := 0 }

/-- The cache after a list of accesses. -/
def lru (p : Params) (as : List ℕ) : LruCache := as.foldl (lruAccess p) lruInit

theorem lru_concat (p : Params) (as : List ℕ) (a : ℕ) :
    lru p (as ++ [a]) = lruAccess p (lru p as) a := by
  rw [lru, List.foldl_append]
  rfl

/-- The tag of the address fits in 32 bits. -/
def Params.Fits (p : Params) (address : ℕ) : Prop := address / 2 ^ (p.s + p.b) < 2 ^ 32

instance (p : Params) (address : ℕ) : Decidable (p.Fits address) :=
  inferInstanceAs (Decidable (_ < _))

theorem tag_of_fits {p : Params} {a : ℕ} (hd : p.Defined) (h : p.Fits a) :
    p.tag a = a / 2 ^ (p.s + p.b) :=
  (hd.tag_eq a).trans (u32_of_lt h)

/-! ### One set -/

variable {E : ℕ} {hist ref : List ℕ} {lines lines' : List Line} {tag : ℕ} {o : Outcome}

/-- If the access has to evict, no line before the least recently accessed one
has the same counter. -/
def EvictsOldest (tag : ℕ) (hist : List ℕ) (lines : List Line) : Prop :=
  (∀ l ∈ lines, l.valid = true ∧ l.tag ≠ tag) →
    lines.Pairwise fun l m =>
      (∀ x ∈ lines, hist.idxOf x.tag ≤ hist.idxOf m.tag) → l.lruCounter ≠ m.lruCounter

/-- The reference has the tags of the set, in order of last access. -/
structure Follows (E : ℕ) (hist : List ℕ) (lines : List Line) (ref : List ℕ) : Prop where
  aged : Aged E hist lines
  perm : (resident lines).Perm ref
  order : ref.Pairwise fun x y => hist.idxOf x < hist.idxOf y

namespace Follows

theorem nodup (h : Follows E hist lines ref) : ref.Nodup := h.perm.nodup_iff.1 h.aged.tags

/-- A hit in the simulator is a hit in the reference, and so is an eviction. -/
theorem outcome (h : Follows E hist lines ref) (ha : Access tag lines o lines') :
    (o = .hit ↔ tag ∈ ref) ∧ (o = .full ↔ tag ∉ ref ∧ E ≤ ref.length) := by
  rw [← h.perm.mem_iff, ← h.perm.length_eq]
  exact h.aged.outcome ha

/-- The tag that is last in the reference was accessed longest ago. -/
theorem idxOf_le_last (h : Follows E hist lines ref) {z : ℕ} {init : List ℕ}
    (hz : ref = init ++ [z]) {x : ℕ} (hx : x ∈ ref) (hne : x ≠ z) : hist.idxOf x < hist.idxOf z := by
  have ho := h.order
  rw [hz] at ho hx
  have hx : x ∈ init := by simpa [hne] using hx
  exact (List.pairwise_append.1 ho).2.2 x hx z (by simp)

/-- **The victim.**  The first line with the biggest counter is the least recently
accessed one exactly if no line before that one has its counter. -/
theorem victim_iff {v r : List Line} {l : Line} (h : Follows E hist (v ++ l :: r) ref)
    (hall : ∀ x ∈ v ++ l :: r, x.valid = true ∧ x.tag ≠ tag)
    (hv : ∀ x ∈ v, x.lruCounter < l.lruCounter) (hr : ∀ x ∈ r, x.lruCounter ≤ l.lruCounter)
    {z : ℕ} {init : List ℕ} (hz : ref = init ++ [z]) :
    l.tag = z ↔ EvictsOldest tag hist (v ++ l :: r) := by
  have hres : ∀ x ∈ v ++ l :: r, x.tag ∈ ref := fun x hx =>
    h.perm.mem_iff.1 (mem_resident.2 ⟨x, hx, (hall x hx).1, rfl⟩)
  -- a line accessed no later than any other holds the last tag
  have hlast : ∀ m ∈ v ++ l :: r, (∀ x ∈ v ++ l :: r, hist.idxOf x.tag ≤ hist.idxOf m.tag) →
      m.tag = z := by
    intro m hm hold
    by_contra hne
    have hzr : z ∈ resident (v ++ l :: r) := h.perm.mem_iff.2 (by simp [hz])
    obtain ⟨x, hx, -, rfl⟩ := mem_resident.1 hzr
    have := h.idxOf_le_last hz (hres m hm) hne
    have := hold x hx
    omega
  have hnd := h.aged.tags
  rw [resident_append, resident_cons_valid (hall l (by simp)).1, List.nodup_append,
    List.nodup_cons] at hnd
  obtain ⟨-, ⟨hlr, -⟩, hvl⟩ := hnd
  constructor
  · rintro rfl -
    have hnv : ∀ m ∈ v, m.tag ≠ l.tag := fun m hm =>
      hvl m.tag (mem_resident.2 ⟨m, hm, (hall m (by simp [hm])).1, rfl⟩) l.tag (by simp)
    have hnr : ∀ m ∈ r, m.tag ≠ l.tag := fun m hm he =>
      hlr (mem_resident.2 ⟨m, hm, (hall m (by simp [hm])).1, he⟩)
    refine List.pairwise_append.2 ⟨?_, List.pairwise_cons.2 ⟨?_, ?_⟩, ?_⟩
    · exact List.pairwise_of_forall_mem_list fun _ _ m hm hold =>
        absurd (hlast m (by simp [hm]) hold) (hnv m hm)
    · exact fun m hm hold => absurd (hlast m (by simp [hm]) hold) (hnr m hm)
    · exact List.pairwise_of_forall_mem_list fun _ _ m hm hold =>
        absurd (hlast m (by simp [hm]) hold) (hnr m hm)
    · intro x hx m hm hold
      rcases List.mem_cons.1 hm with rfl | hm
      · exact (hv x hx).ne
      · exact absurd (hlast m (by simp [hm]) hold) (hnr m hm)
  · intro hev
    by_contra hne
    have hpair := (List.pairwise_cons.1 (List.pairwise_append.1 (hev hall)).2.1).1
    have hzr : z ∈ resident (v ++ l :: r) := h.perm.mem_iff.2 (by simp [hz])
    obtain ⟨x, hx, hxv, rfl⟩ := mem_resident.1 hzr
    have hle := h.aged.recency l (by simp) x hx (hall l (by simp)).1 hxv
      (h.idxOf_le_last hz (hres l (by simp)) hne)
    have hold : ∀ y ∈ v ++ l :: r, hist.idxOf y.tag ≤ hist.idxOf x.tag := by
      intro y hy
      by_cases he : y.tag = x.tag
      · rw [he]
      · exact (h.idxOf_le_last hz (hres y hy) he).le
    rcases List.mem_append.1 hx with hx | hx
    · exact absurd hle (by have := hv x hx; omega)
    · rcases List.mem_cons.1 hx with rfl | hx
      · exact hne rfl
      · exact hpair x hx hold (le_antisymm hle (hr x hx))

/-- **One access to a set.**  The simulator keeps the tags that the reference keeps
exactly if it evicts the oldest. -/
theorem access_perm_iff (hE : 1 ≤ E) (h : Follows E hist lines ref)
    (ha : Access tag lines o lines') :
    (resident lines').Perm (touch E tag ref) ↔ EvictsOldest tag hist lines := by
  have hout := h.outcome ha
  have hperm := h.perm
  cases ha with
  | @hit v r l hv hl ht =>
    refine iff_of_true ?_ fun hall => absurd ht (hall l (by simp)).2
    rw [touch_of_mem (hout.1.1 rfl), resident_access rfl]
    rw [resident_append, resident_cons_valid hl, ht] at hperm
    exact hperm.trans (List.perm_cons_erase (hout.1.1 rfl))
  | @cold v r l hv hl =>
    refine iff_of_true ?_ fun hall => absurd (hall l (by simp)).1 (by simp [hl])
    have hno : tag ∉ ref := fun hmem => absurd (hout.1.2 hmem) (by decide)
    have hlt : ref.length < E := by
      by_contra hge
      exact absurd (hout.2.2 ⟨hno, by omega⟩) (by decide)
    rw [touch_of_lt hno hlt, resident_access rfl]
    rw [resident_append, resident_cons_invalid hl] at hperm
    exact List.perm_middle.trans (hperm.cons tag)
  | @full v r l hall hv hr =>
    obtain ⟨hno, hfull⟩ := hout.2.1 rfl
    have hne : ref ≠ [] := by
      rintro rfl
      exact absurd hfull (by simp; omega)
    have hz := (List.dropLast_append_getLast hne).symm
    rw [← h.victim_iff hall hv hr hz, touch_of_full hno hfull, resident_access rfl]
    rw [resident_append, resident_cons_valid (hall l (by simp)).1] at hperm
    -- what is left without the victim is what is left without the last tag
    have hleft : (l.tag :: (resident v ++ resident r)).Perm (ref.getLast hne :: ref.dropLast) :=
      (List.perm_middle.symm.trans hperm).trans
        ((List.Perm.of_eq hz).trans (List.perm_append_singleton ..))
    constructor
    · intro hp
      have hp := List.Perm.cons_inv ((List.perm_middle.symm.trans hp))
      have hlast := (hleft.mem_iff (a := ref.getLast hne)).2 (by simp)
      rcases List.mem_cons.1 hlast with he | hmem
      · exact he.symm
      · have hnd := h.nodup
        rw [hz, List.nodup_append] at hnd
        exact absurd rfl (hnd.2.2 _ (hp.mem_iff.1 hmem) _ (by simp))
    · intro he
      rw [he] at hleft
      exact List.perm_middle.trans (hleft.cons_inv.cons tag)

end Follows

/-! ### Runs -/

variable {p : Params} {sim : Sim} {u u' : Traced} {as : List ℕ} {a : ℕ}

/-- **The reference is in order of last access**, and keeps tags accessed only. -/
theorem lru_ordered (hd : p.Defined) (hfit : ∀ a ∈ as, p.Fits a) (k : ℕ) :
    ((lru p as).sets k).Nodup ∧
      (((lru p as).sets k).Pairwise fun x y =>
        (p.history as.reverse k).idxOf x < (p.history as.reverse k).idxOf y) ∧
      ∀ x ∈ (lru p as).sets k, x ∈ p.history as.reverse k := by
  induction as using List.reverseRecOn with
  | nil => exact ⟨List.nodup_nil, List.Pairwise.nil, fun x hx => absurd hx List.not_mem_nil⟩
  | append_singleton as a ih =>
    obtain ⟨hnd, hord, hpast⟩ := ih fun x hx => hfit x (by simp [hx])
    have htag := tag_of_fits hd (hfit a (by simp))
    rw [lru_concat, lruAccess_sets hd, List.reverse_append, List.reverse_singleton,
      List.singleton_append]
    by_cases hk : k = p.sIndex a
    · subst hk
      rw [if_pos rfl, ← htag, history_cons_self]
      refine ⟨nodup_touch hnd, touch_pairwise_idxOf hnd hord, fun x hx => ?_⟩
      obtain ⟨r, he, hsub, -⟩ := exists_touch p.E (p.tag a) hnd
      rw [he] at hx
      rcases List.mem_cons.1 hx with rfl | hx
      · exact List.mem_cons_self
      · exact List.mem_cons_of_mem _ (hpast x (hsub.subset hx))
    · rw [if_neg hk, history_cons_ne hk]
      exact ⟨hnd, hord, hpast⟩

/-- The counts are those of the reference. -/
def CountsAgree (sim : Sim) (c : LruCache) : Prop :=
  sim.hitCount = c.hitCount ∧ sim.missCount = c.missCount ∧ sim.evictionCount = c.evictionCount

/-- The simulator is where the reference is after the same accesses. -/
def Matches (p : Params) (u : Traced) : Prop :=
  CountsAgree u.toSim (lru p u.past.reverse) ∧
    ∀ k, (resident (u.sets k)).Perm ((lru p u.past.reverse).sets k)

/-- The condition of `EvictsOldest` for the next access. -/
def Evicts (p : Params) (u : Traced) (a : ℕ) : Prop :=
  EvictsOldest (p.tag a) (p.history u.past (p.sIndex a)) (u.sets (p.sIndex a))

/-- A set of a matching simulator follows the reference. -/
theorem Matches.follows (hd : p.Defined) (hE : 1 ≤ p.E) (h : Matches p u)
    (hr : (csimSystem p).Reach u) (hfit : ∀ a ∈ u.past, p.Fits a) (k : ℕ) :
    Follows p.E (p.history u.past k) (u.sets k) ((lru p u.past.reverse).sets k) := by
  refine ⟨aged_of_reach hE hr k, h.2 k, ?_⟩
  have hrev : ∀ a ∈ u.past.reverse, p.Fits a := fun a ha => hfit a (List.mem_reverse.1 ha)
  have hord := (lru_ordered hd hrev k).2.1
  rwa [List.reverse_reverse] at hord

/-- **One access** of a matching simulator: the counts agree after it, and the
simulator still matches exactly if it evicts the oldest. -/
theorem Matches.next (hd : p.Defined) (hE : 1 ≤ p.E) (h : Matches p u)
    (hr : (csimSystem p).Reach u) (hfit : ∀ x ∈ a :: u.past, p.Fits x)
    (hn : (csimSystem p).next u a = some u') :
    CountsAgree u'.toSim (lru p u'.past.reverse) ∧ (Matches p u' ↔ Evicts p u a) := by
  obtain ⟨hfa, hfp⟩ := List.forall_mem_cons.1 hfit
  have hf := h.follows hd hE hr hfp
  obtain ⟨o, lines', ha, hn'⟩ := csim_next hE (aged_of_reach hE hr) a
  obtain rfl := Option.some.inj (hn'.symm.trans hn)
  have htag := tag_of_fits hd hfa
  have hperm := (hf (p.sIndex a)).access_perm_iff hE ha
  obtain ⟨hhit, hfull⟩ := (hf (p.sIndex a)).outcome ha
  have hlru : lru p (a :: u.past).reverse = lruAccess p (lru p u.past.reverse) a := by
    rw [List.reverse_cons, lru_concat]
  rw [htag] at hhit hfull hperm
  have hcounts : CountsAgree
      ({ u.toSim with sets := Function.update u.sets (p.sIndex a) lines' }.count o)
      (lruAccess p (lru p u.past.reverse) a) := by
    obtain ⟨h1, h2, h3⟩ := h.1
    rw [lruAccess_eq hd]
    refine ⟨?_, ?_, ?_⟩
    · show _ = if _ ∈ (lru p u.past.reverse).sets (p.sIndex a) then _ else _
      rw [← h1]
      cases o <;> simp_all [Sim.count]
    · show _ = if _ ∈ (lru p u.past.reverse).sets (p.sIndex a) then _ else _
      rw [← h2]
      cases o <;> simp_all [Sim.count]
    · show _ = if _ ∉ (lru p u.past.reverse).sets (p.sIndex a) ∧
        p.E ≤ ((lru p u.past.reverse).sets (p.sIndex a)).length then _ else _
      rw [← h3]
      cases o <;> simp_all [Sim.count]
  have hcsim : ∀ k, ((({ u.toSim with
      sets := Function.update u.sets (p.sIndex a) lines' } : Sim).count o).sets k) =
        if k = p.sIndex a then lines' else u.sets k := fun k => by
    rw [count_sets]
    exact Function.update_apply ..
  refine ⟨by rw [hlru]; exact hcounts, ?_⟩
  rw [Evicts, htag, ← hperm]
  refine ⟨fun hm => ?_, fun hp => ⟨by rw [hlru]; exact hcounts, fun k => ?_⟩⟩
  · have := hm.2 (p.sIndex a)
    rwa [hlru, lruAccess_sets hd, if_pos rfl, hcsim, if_pos rfl] at this
  · rw [hlru, lruAccess_sets hd, hcsim]
    split_ifs with hk
    · rw [hk]
      exact hp
    · exact h.2 k

/-- Where the counts agree and will agree after every access, the simulator matches. -/
theorem matches_of_agree (hd : p.Defined) (hE : 1 ≤ p.E) (hr : (csimSystem p).Reach u)
    (hfit : ∀ a ∈ u.past, p.Fits a) (hc : CountsAgree u.toSim (lru p u.past.reverse))
    (hnext : ∀ a u', p.Fits a → (csimSystem p).next u a = some u' →
      u'.hitCount = (lru p u'.past.reverse).hitCount) : Matches p u := by
  have hrev : ∀ a ∈ u.past.reverse, p.Fits a := fun a ha => hfit a (List.mem_reverse.1 ha)
  refine ⟨hc, fun k => ?_⟩
  have hA := aged_of_reach hE hr
  obtain ⟨hnd, -, hpast⟩ := lru_ordered hd hrev k
  rw [List.reverse_reverse] at hpast
  refine (List.perm_ext_iff_of_nodup (hA k).tags hnd).2 fun x => ?_
  -- it is enough to look at tags that have been accessed: access one of them again
  suffices hmem : x ∈ p.history u.past k →
      (x ∈ resident (u.sets k) ↔ x ∈ (lru p u.past.reverse).sets k) from
    ⟨fun hx => (hmem ((hA k).past x hx)).1 hx, fun hx => (hmem (hpast x hx)).2 hx⟩
  intro hx
  obtain ⟨a, hmem, rfl⟩ := List.mem_map.1 hx
  obtain ⟨ha, hk⟩ := List.mem_filter.1 hmem
  obtain rfl : p.sIndex a = k := of_decide_eq_true hk
  obtain ⟨o, lines', hacc, hn⟩ := csim_next hE hA a
  have hhit := hnext a _ (hfit a ha) hn
  rw [List.reverse_cons, lru_concat, lruAccess_eq hd] at hhit
  change (({ u.toSim with sets := Function.update u.sets (p.sIndex a) lines' } : Sim).count
    o).hitCount = if a / 2 ^ (p.s + p.b) ∈ (lru p u.past.reverse).sets (p.sIndex a) then _ else _
    at hhit
  rw [← tag_of_fits hd (hfit a ha), ← hc.1] at hhit
  rw [← ((hA (p.sIndex a)).outcome hacc).1]
  cases o <;> simp only [Sim.count] at hhit <;> split_ifs at hhit with hin <;>
    first | exact iff_of_true rfl hin | exact iff_of_false (by decide) hin | omega

/-! ### The counts of a trace -/

/-- On the trace, the reading loop ends with the counts of the reference. -/
def Agrees (p : Params) (sim : Sim) (trace : List Record) : Prop :=
  ∃ sim' logs, readLoop p sim trace = some (sim', logs) ∧
    CountsAgree sim' (lru p (trace.flatMap Record.accesses))

/-- Every access of the list that has to evict meets the condition. -/
def EvictsThroughout (p : Params) (sim : Sim) (as : List ℕ) : Prop :=
  ∀ q a r, as = q ++ a :: r → ∀ u, (csimSystem p).run ⟨sim, []⟩ q = some u → Evicts p u a

/-- A trace that loads the addresses. -/
def loads (as : List ℕ) : List Record := as.map fun a => { accessType := 'L', address := a }

theorem accesses_loads (as : List ℕ) : (loads as).flatMap Record.accesses = as := by
  induction as with
  | nil => rfl
  | cons a as ih =>
    rw [loads, List.map_cons, List.flatMap_cons]
    show [a] ++ (loads as).flatMap Record.accesses = a :: as
    rw [ih, List.singleton_append]

theorem agrees_iff {trace : List Record} :
    Agrees p sim trace ↔ ∃ u, (csimSystem p).run ⟨sim, []⟩ (trace.flatMap Record.accesses) = some u ∧
      CountsAgree u.toSim (lru p (trace.flatMap Record.accesses)) := by
  have hrun := readLoop_run (p := p) ⟨sim, []⟩ trace
  constructor
  · rintro ⟨sim', logs, he, hc⟩
    rw [show readLoop p (Traced.toSim ⟨sim, []⟩) trace = some (sim', logs) from he] at hrun
    obtain ⟨u, hu, rfl⟩ := Option.map_eq_some_iff.1 hrun.symm
    exact ⟨u, hu, hc⟩
  · rintro ⟨u, hu, hc⟩
    rw [hu] at hrun
    obtain ⟨⟨sim', logs⟩, he, rfl⟩ := Option.map_eq_some_iff.1 hrun
    exact ⟨_, logs, he, hc⟩

/-- Runs whose evictions meet the condition match the reference. -/
theorem matches_of_reachBy (hd : p.Defined) (hE : 1 ≤ p.E)
    (hu : (csimSystem p).ReachBy (fun u a => (∀ x ∈ a :: u.past, p.Fits x) → Evicts p u a) u) :
    (∀ a ∈ u.past, p.Fits a) → Matches p u := by
  refine hu.induct (P := fun u => (∀ a ∈ u.past, p.Fits a) → Matches p u) ?_ ?_
  · rintro u ⟨hf, hpast⟩ -
    rw [Matches, hpast]
    refine ⟨hf.counts, fun k => ?_⟩
    have hno : resident (u.sets k) = [] := hf.blank.resident k
    rw [hno]
    exact .refl _
  · intro u a u' hr hm hok hn hfit'
    obtain ⟨o, lines', -, hn'⟩ := csim_next hE (aged_of_reach hE hr.reach) a
    have hpast : u'.past = a :: u.past := by rw [← Option.some.inj (hn'.symm.trans hn)]
    rw [hpast] at hfit'
    have hm := hm (List.forall_mem_cons.1 hfit').2
    exact (hm.next hd hE hr.reach hfit' hn).2.2 (hok hfit')

/-- Along accesses that fit, the simulator matches everywhere exactly if every
eviction meets the condition. -/
theorem matches_iff (hd : p.Defined) (hE : 1 ≤ p.E) (h0 : Fresh p sim)
    (hfit : ∀ a ∈ as, p.Fits a) :
    (∀ q r, as = q ++ r → ∀ u, (csimSystem p).run ⟨sim, []⟩ q = some u → Matches p u) ↔
      EvictsThroughout p sim as := by
  have hinit : (csimSystem p).init ⟨sim, []⟩ := ⟨h0, rfl⟩
  obtain ⟨u, hu, -⟩ := run_isSome hE (.init hinit) as
  -- the condition and the property, for states whose past fits
  have hiff : (∀ q r, as = q ++ r → ∀ u, (csimSystem p).run ⟨sim, []⟩ q = some u →
        (∀ a ∈ u.past, p.Fits a) → Matches p u) ↔
      ∀ q a r, as = q ++ a :: r → ∀ u, (csimSystem p).run ⟨sim, []⟩ q = some u →
        (∀ x ∈ a :: u.past, p.Fits x) → Evicts p u a := by
    refine System.forall_prefix_iff (P := fun u => (∀ a ∈ u.past, p.Fits a) → Matches p u)
      (fun u hu => ?_) (fun u a u' hr hP hn hP' => ?_) hinit hu
    · exact matches_of_reachBy hd hE hu
    · intro hf
      have hpast : u'.past = a :: u.past := by
        obtain ⟨o, lines', -, hn'⟩ := csim_next hE (aged_of_reach hE hr) a
        rw [← Option.some.inj (hn'.symm.trans hn)]
      rw [hpast] at hP'
      exact ((hP (List.forall_mem_cons.1 hf).2).next hd hE hr hf hn).2.1 (hP' hf)
  have hpast : ∀ q r, as = q ++ r → ∀ u, (csimSystem p).run ⟨sim, []⟩ q = some u →
      ∀ a ∈ u.past, p.Fits a := by
    rintro q r rfl u hu a ha
    obtain ⟨u', hu', hp⟩ := run_isSome hE (.init hinit) q
    obtain rfl := Option.some.inj (hu'.symm.trans hu)
    rw [hp, List.append_nil, List.mem_reverse] at ha
    exact hfit a (List.mem_append_left r ha)
  constructor
  · intro hm q a r he u hu
    refine hiff.1 (fun q r he u hu _ => hm q r he u hu) q a r he u hu ?_
    exact List.forall_mem_cons.2 ⟨hfit a (by simp [he]), hpast q _ he u hu⟩
  · intro hok q r he u hu
    exact hiff.2 (fun q a r he u hu _ => hok q a r he u hu) q r he u hu (hpast q r he u hu)

/-- **When the simulator is an LRU cache.**  With shifts that are defined, from fresh lines
and on a trace whose tags fit, the counts are those of an LRU cache if every eviction meets the
condition; and they are so up to every point of the trace, whatever is accessed
next, only then. -/
theorem lru_counts (hd : p.Defined) (hE : 1 ≤ p.E) (h0 : Fresh p sim) {trace : List Record}
    (hfit : ∀ a ∈ trace.flatMap Record.accesses, p.Fits a) :
    (EvictsThroughout p sim (trace.flatMap Record.accesses) → Agrees p sim trace) ∧
      (EvictsThroughout p sim (trace.flatMap Record.accesses) ↔
        ∀ q r, trace.flatMap Record.accesses = q ++ r → ∀ a, p.Fits a →
          Agrees p sim (loads (q ++ [a]))) := by
  have hinit : (csimSystem p).init ⟨sim, []⟩ := ⟨h0, rfl⟩
  generalize hacc : trace.flatMap Record.accesses = as at hfit
  have hrun : ∀ q, ∃ u, (csimSystem p).run ⟨sim, []⟩ q = some u ∧ u.past.reverse = q ∧
      (csimSystem p).Reach u := by
    intro q
    obtain ⟨u, hu, hp⟩ := run_isSome hE (.init hinit) q
    exact ⟨u, hu, by simp [hp], System.Reach.run (.init hinit) hu⟩
  refine ⟨fun hok => ?_, fun hok q r he a ha => ?_, fun hall => ?_⟩
  · obtain ⟨u, hu, hp, -⟩ := hrun as
    rw [agrees_iff, hacc]
    have hm := (matches_iff hd hE h0 hfit).2 hok as [] (by simp) u hu
    exact ⟨u, hu, hp ▸ hm.1⟩
  · -- the next access has the same outcome, whatever it evicts
    obtain ⟨u, hu, hp, hr⟩ := hrun q
    have hm := (matches_iff hd hE h0 hfit).2 hok q r he u hu
    obtain ⟨u', hu', hp', -⟩ := hrun (q ++ [a])
    have hn := (System.run_concat hu a).symm.trans hu'
    have hfq : ∀ x ∈ a :: u.past, p.Fits x := by
      refine List.forall_mem_cons.2 ⟨ha, fun x hx => hfit x ?_⟩
      rw [he, ← hp]
      exact List.mem_append_left r (List.mem_reverse.2 hx)
    rw [agrees_iff, accesses_loads]
    exact ⟨u', hu', hp' ▸ (hm.next hd hE hr hfq hn).1⟩
  · refine (matches_iff hd hE h0 hfit).1 fun q r he u hu => ?_
    obtain ⟨u', hu', hp, hr⟩ := hrun q
    obtain rfl := Option.some.inj (hu'.symm.trans hu)
    have hfq : ∀ x ∈ u'.past, p.Fits x := fun x hx =>
      hfit x (he ▸ List.mem_append_left r (hp ▸ List.mem_reverse.2 hx))
    refine matches_of_agree hd hE hr hfq ?_ fun a u'' ha hn => ?_
    · -- the counts agree so far: nothing was accessed, or the last access says so
      rw [hp]
      rcases List.eq_nil_or_concat q with rfl | ⟨q, b, rfl⟩
      · obtain rfl := Option.some.inj hu
        exact h0.counts
      · rw [List.concat_eq_append] at he hu ⊢
        have hb : p.Fits b := hfit b (by simp [he])
        obtain ⟨v, hv, hc⟩ := agrees_iff.1 (hall q (b :: r) (by simp [he]) b hb)
        rw [accesses_loads] at hv hc
        obtain rfl := Option.some.inj (hv.symm.trans hu)
        exact hc
    · obtain ⟨v, hv, hc⟩ := agrees_iff.1 (hall q r he a ha)
      rw [accesses_loads] at hv hc
      obtain rfl := Option.some.inj (hv.symm.trans ((System.run_concat hu a).trans hn))
      have hpast : v.past = a :: u'.past := by
        obtain ⟨o, lines', -, hn'⟩ := csim_next hE (aged_of_reach hE hr) a
        rw [← Option.some.inj (hn'.symm.trans hn)]
      rw [hpast, List.reverse_cons, hp]
      exact hc.1

/-- One set of two lines, for blocks of one byte. -/
def twoLines : Params := { s := 0, E := 2, b := 0 }

/-- The simulator on it before the first access. -/
def twoLinesSim : Sim :=
  { sets := fun _ => List.replicate 2 { valid := false, tag := 0, lruCounter := 0 }
    hitCount := 0, missCount := 0, evictionCount := 0 }

/-- Every eviction of these accesses meets the condition. -/
theorem evictsThroughout_twoLines : EvictsThroughout twoLines twoLinesSim [5, 7, 5, 9] := by
  intro q a r he u hu
  rcases q with _ | ⟨b₁, _ | ⟨b₂, _ | ⟨b₃, _ | ⟨b₄, q⟩⟩⟩⟩ <;>
    simp only [List.nil_append, List.cons_append, List.cons.injEq] at he
  · obtain ⟨rfl, -⟩ := he
    obtain rfl := Option.some.inj hu
    unfold Evicts EvictsOldest
    decide
  · obtain ⟨rfl, rfl, -⟩ := he
    obtain rfl := Option.some.inj hu
    unfold Evicts EvictsOldest
    decide
  · obtain ⟨rfl, rfl, rfl, -⟩ := he
    obtain rfl := Option.some.inj hu
    unfold Evicts EvictsOldest
    decide
  · obtain ⟨rfl, rfl, rfl, rfl, -⟩ := he
    obtain rfl := Option.some.inj hu
    unfold Evicts EvictsOldest
    decide
  · simp at he

/-- `5` is accessed again, and `9` evicts `7`. -/
theorem lru_counts_twoLines :
    (readLoop twoLines twoLinesSim (loads [5, 7, 5, 9])).map (fun r => r.1.evictionCount) = some 1 ∧
      Agrees twoLines twoLinesSim (loads [5, 7, 5, 9]) ∧
      ∀ q r, [5, 7, 5, 9] = q ++ r → ∀ a, twoLines.Fits a →
        Agrees twoLines twoLinesSim (loads (q ++ [a])) := by
  have hfresh : Fresh twoLines twoLinesSim :=
    ⟨fun _ => rfl, fun _ => by simp [twoLinesSim], rfl, rfl, rfl⟩
  have hfit : ∀ a ∈ (loads [5, 7, 5, 9]).flatMap Record.accesses, twoLines.Fits a := by decide
  obtain ⟨hcounts, hiff⟩ := lru_counts (by decide) (by decide) hfresh hfit
  exact ⟨by decide, hcounts evictsThroughout_twoLines, hiff.1 evictsThroughout_twoLines⟩

/-- Tag `3` evicts `2` and is left at counter `0`; the next access hits `1` and
leaves it at `1`.  Now both counters are `1`, and `4` evicts `1`, which is first. -/
theorem lru_counts_differ : ¬Agrees twoLines twoLinesSim (loads [1, 2, 1, 3, 1, 4, 1]) := by
  rintro ⟨sim', logs, he, hhit, -⟩
  have hsim : (readLoop twoLines twoLinesSim (loads [1, 2, 1, 3, 1, 4, 1])).map
      (fun r => r.1.hitCount) = some 2 := by decide
  have hlru : (lru twoLines ((loads [1, 2, 1, 3, 1, 4, 1]).flatMap Record.accesses)).hitCount = 3 := by
    decide
  rw [he, Option.map_some, Option.some.injEq] at hsim
  exact absurd (hsim.symm.trans (hhit.trans hlru)) (by decide)

end CacheLab
end CsappLabs
