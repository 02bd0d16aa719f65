/-
# The counts for every associativity

The lists that the reference keeps for caches with the same sets and blocks, but a
different number of lines in a set, are beginnings of one list (`sets_eq_take`).  So the
counts for all of them are found in one pass over the trace, from the reuse distance of each
access (`counts_reuse`), and more lines never cost a hit (`hits_of_more_lines`).

A trace that needs no more than `E` lines in any set misses each block once
(`compulsory_misses`); here the victims play no part.
-/

import CsappLabs.CacheLab.Lru
import CsappLabs.Lib.Reuse

namespace CsappLabs
namespace CacheLab

open Lib Lib.Recency

/-- The tags that were accessed in the set `k`. -/
def Params.tagsOf (p : Params) (k : ℕ) (as : List ℕ) : List ℕ :=
  (as.filter (p.sIndex · = k)).map fun a => a / 2 ^ (p.s + p.b)

/-- An access: the reuse distance of its tag, and how many tags its set has seen. -/
structure Reuse where
  distance : Option ℕ
  seen : ℕ
  deriving DecidableEq

/-- What an access finds after those in `past`. -/
def Params.reuse (p : Params) (past : List ℕ) (a : ℕ) : Reuse :=
  let r := recent (p.tagsOf (p.sIndex a) past)
  ⟨r.idxOf? (a / 2 ^ (p.s + p.b)), r.length⟩

/-- What the accesses find one after the other. -/
def Params.reuses (p : Params) (past : List ℕ) : List ℕ → List Reuse
  | [] => []
  | a :: as => p.reuse past a :: p.reuses (past ++ [a]) as

/-- A hit with `E` lines in a set. -/
def Reuse.hits (E : ℕ) (r : Reuse) : Bool := r.distance.any (· < E)

/-- An eviction with `E` lines in a set. -/
def Reuse.evicts (E : ℕ) (r : Reuse) : Bool := !r.hits E && E ≤ r.seen

variable {p p' : Params} {as past : List ℕ} {a k E : ℕ} {sim sim' : Sim} {r : Reuse}

theorem tagsOf_concat (p : Params) (k : ℕ) (as : List ℕ) (a : ℕ) : p.tagsOf k (as ++ [a]) =
    if p.sIndex a = k then p.tagsOf k as ++ [a / 2 ^ (p.s + p.b)] else p.tagsOf k as := by
  rw [Params.tagsOf, List.filter_append, List.map_append]
  by_cases hk : p.sIndex a = k <;> simp [hk, Params.tagsOf]

/-- There is no set `k` from `S` on. -/
theorem tagsOf_of_le (as : List ℕ) (hk : p.S ≤ k) : p.tagsOf k as = [] := by
  have hnone : as.filter (p.sIndex · = k) = [] := List.filter_eq_nil_iff.2 fun a _ h =>
    ((p.sIndex_lt a).trans_le hk).ne (of_decide_eq_true h)
  rw [Params.tagsOf, hnone, List.map_nil]

/-- **A set of the reference** has the tags accessed last. -/
theorem sets_eq_take (hd : p.Defined) (hE : 1 ≤ p.E) (as : List ℕ) (k : ℕ) :
    (lru p as).sets k = (recent (p.tagsOf k as)).take p.E := by
  induction as using List.reverseRecOn with
  | nil => simp [lru, lruInit, Params.tagsOf, recent]
  | append_singleton as a ih =>
    rw [lru_concat, lruAccess_sets hd, tagsOf_concat]
    by_cases hk : k = p.sIndex a
    · rw [if_pos hk, if_pos hk.symm, ih, touch_take hE, recent_concat]
    · rw [if_neg hk, if_neg (Ne.symm hk), ih]

/-- **The counts of the reference** from the reuse distances. -/
theorem lru_reuses (hd : p.Defined) (hE : 1 ≤ p.E) (past as : List ℕ) :
    (lru p (past ++ as)).hitCount =
        (lru p past).hitCount + (p.reuses past as).countP (·.hits p.E) ∧
      (lru p (past ++ as)).missCount =
        (lru p past).missCount + (p.reuses past as).countP (!·.hits p.E) ∧
      (lru p (past ++ as)).evictionCount =
        (lru p past).evictionCount + (p.reuses past as).countP (·.evicts p.E) := by
  induction as generalizing past with
  | nil => simp [Params.reuses]
  | cons a as ih =>
    have hset := sets_eq_take hd hE past (p.sIndex a)
    have hhit : (p.reuse past a).hits p.E = true ↔
        a / 2 ^ (p.s + p.b) ∈ (lru p past).sets (p.sIndex a) := by
      rw [hset, mem_take_iff]
      rfl
    have hevict : (p.reuse past a).evicts p.E = true ↔
        a / 2 ^ (p.s + p.b) ∉ (lru p past).sets (p.sIndex a) ∧
          p.E ≤ ((lru p past).sets (p.sIndex a)).length := by
      rw [Reuse.evicts, Bool.and_eq_true, Bool.not_eq_true', ← Bool.not_eq_true, hhit, hset,
        List.length_take, decide_eq_true_eq]
      exact and_congr_right fun _ => ⟨fun h => le_min le_rfl h, fun h => h.trans (min_le_right ..)⟩
    have hcount : ∀ {c : Prop} [Decidable c] {b : Bool} (n m : ℕ), (b = true ↔ c) →
        (if c then n + 1 else n) + m = n + (m + if b = true then 1 else 0) := by
      intro c _ b n m hb
      by_cases hc : c
      · rw [if_pos hc, if_pos (hb.2 hc)]
        omega
      · rw [if_neg hc, if_neg (fun h => hc (hb.1 h))]
        omega
    obtain ⟨h1, h2, h3⟩ := ih (past ++ [a])
    rw [List.append_assoc, List.singleton_append, lru_concat, lruAccess_eq hd] at h1 h2 h3
    rw [h1, h2, h3, Params.reuses, List.countP_cons, List.countP_cons, List.countP_cons]
    refine ⟨hcount _ _ hhit, ?_, hcount _ _ hevict⟩
    rw [← hcount (c := a / 2 ^ (p.s + p.b) ∉ (lru p past).sets (p.sIndex a)) _ _
      (by rw [Bool.not_eq_true', ← Bool.not_eq_true, hhit])]
    congr 1
    exact (ite_not ..).symm

theorem reuses_congr (hs : p.s = p'.s) (hb : p.b = p'.b) (past as : List ℕ) :
    p.reuses past as = p'.reuses past as := by
  obtain ⟨s, E, b⟩ := p
  obtain ⟨s', E', b'⟩ := p'
  obtain rfl : s = s' := hs
  obtain rfl : b = b' := hb
  induction as generalizing past with
  | nil => rfl
  | cons a as ih => exact congrArg₂ List.cons rfl (ih _)

variable {trace : List Record}

/-! ### Victims -/

/-- With one line in a set there is no choice of a victim. -/
theorem evictsThroughout_of_one (hE : p.E = 1) (h0 : Fresh p sim) : EvictsThroughout p sim as := by
  rintro q a r rfl u hu -
  have hinit : (csimSystem p).init ⟨sim, []⟩ := ⟨h0, rfl⟩
  have hA := aged_of_reach hE.ge (System.Reach.run (.init hinit) hu) (p.sIndex a)
  obtain ⟨l, hl⟩ := List.length_eq_one_iff.1 (hA.length.trans hE)
  rw [hl]
  exact List.pairwise_singleton ..

/-- No access evicts if each set has a line for every tag it sees. -/
theorem evictsThroughout_of_room (hd : p.Defined) (hE : 1 ≤ p.E) (h0 : Fresh p sim)
    (hfit : ∀ a ∈ as, p.Fits a) (hroom : ∀ k, (p.tagsOf k as).dedup.length ≤ p.E) :
    EvictsThroughout p sim as := by
  rintro q a r rfl u hu hfull
  have hinit : (csimSystem p).init ⟨sim, []⟩ := ⟨h0, rfl⟩
  obtain ⟨u', hu', hpast⟩ := run_isSome hE (.init hinit) q
  obtain rfl := Option.some.inj (hu'.symm.trans hu)
  have hA := aged_of_reach hE (System.Reach.run (.init hinit) hu') (p.sIndex a)
  have htag : ∀ x ∈ q ++ a :: r, p.sIndex x = p.sIndex a →
      p.tag x ∈ p.tagsOf (p.sIndex a) (q ++ a :: r) := fun x hx hk =>
    List.mem_map.2 ⟨x, List.mem_filter.2 ⟨hx, decide_eq_true hk⟩, (tag_of_fits hd (hfit x hx)).symm⟩
  -- the tags of the lines and that of the access are more than the set sees
  have hnd : (p.tag a :: resident (u'.sets (p.sIndex a))).Nodup := by
    refine List.nodup_cons.2 ⟨fun hm => ?_, hA.tags⟩
    obtain ⟨l, hl, -, ht⟩ := mem_resident.1 hm
    exact (hfull l hl).2 ht
  have hsub : p.tag a :: resident (u'.sets (p.sIndex a)) ⊆
      (p.tagsOf (p.sIndex a) (q ++ a :: r)).dedup := by
    intro t ht
    rw [List.mem_dedup]
    rcases List.mem_cons.1 ht with rfl | ht
    · exact htag a (by simp) rfl
    · obtain ⟨x, hx, rfl⟩ := List.mem_map.1 (hA.past t ht)
      obtain ⟨hmem, hk⟩ := List.mem_filter.1 hx
      rw [hpast, List.append_nil, List.mem_reverse] at hmem
      exact htag x (by simp [hmem]) (of_decide_eq_true hk)
  have hlen : (resident (u'.sets (p.sIndex a))).length = p.E := by
    rw [resident, List.filter_eq_self.2 fun l hl => (hfull l hl).1, List.length_map, hA.length]
  have hle := (List.subperm_of_subset hnd hsub).length_le
  have := hroom (p.sIndex a)
  rw [List.length_cons, hlen] at hle
  omega

/-! ### The counts of a trace -/

theorem agrees_of_evictsThroughout (hd : p.Defined) (hE : 1 ≤ p.E) (h0 : Fresh p sim)
    (hfit : ∀ a ∈ trace.flatMap Record.accesses, p.Fits a)
    (hok : EvictsThroughout p sim (trace.flatMap Record.accesses)) : Agrees p sim trace := by
  have hinit : (csimSystem p).init ⟨sim, []⟩ := ⟨h0, rfl⟩
  obtain ⟨u, hu, hpast⟩ := run_isSome hE (.init hinit) (trace.flatMap Record.accesses)
  have hm := (matches_iff hd hE h0 hfit).2 hok _ [] (List.append_nil _).symm u hu
  refine agrees_iff.2 ⟨u, hu, ?_⟩
  have hcounts := hm.1
  rwa [hpast, List.append_nil, List.reverse_reverse] at hcounts

/-- **The counts of the simulator** are found from the reuse distances: an access hits if
its distance is below the number of lines. -/
theorem counts_reuse (hd : p.Defined) (hE : 1 ≤ p.E) (h0 : Fresh p sim)
    (hfit : ∀ a ∈ trace.flatMap Record.accesses, p.Fits a)
    (hok : EvictsThroughout p sim (trace.flatMap Record.accesses)) :
    ∃ sim' logs, readLoop p sim trace = some (sim', logs) ∧
      sim'.hitCount = (p.reuses [] (trace.flatMap Record.accesses)).countP (·.hits p.E) ∧
      sim'.missCount = (p.reuses [] (trace.flatMap Record.accesses)).countP (!·.hits p.E) ∧
      sim'.evictionCount = (p.reuses [] (trace.flatMap Record.accesses)).countP (·.evicts p.E) := by
  obtain ⟨sim', logs, he, h1, h2, h3⟩ := agrees_of_evictsThroughout hd hE h0 hfit hok
  obtain ⟨h1', h2', h3'⟩ := lru_reuses hd hE [] (trace.flatMap Record.accesses)
  rw [List.nil_append] at h1' h2' h3'
  refine ⟨sim', logs, he, h1.trans (h1'.trans ?_), h2.trans (h2'.trans ?_), h3.trans (h3'.trans ?_)⟩
  all_goals exact Nat.zero_add _

/-- The simulator before the first access. -/
def freshSim (E : ℕ) : Sim :=
  { sets := fun _ => List.replicate E { valid := false, tag := 0, lruCounter := 0 }
    hitCount := 0, missCount := 0, evictionCount := 0 }

theorem fresh_freshSim (p : Params) : Fresh p (freshSim p.E) :=
  ⟨fun _ => List.length_replicate .., fun _ l hl => by
    rw [List.eq_of_mem_replicate hl]
    exact ⟨rfl, rfl⟩, rfl, rfl, rfl⟩

/-- A block is a tag in a set. -/
theorem block_eq_iff (hd : p.Defined) (x a : ℕ) : x / 2 ^ p.b = a / 2 ^ p.b ↔
    p.sIndex x = p.sIndex a ∧ x / 2 ^ (p.s + p.b) = a / 2 ^ (p.s + p.b) := by
  have htag : ∀ y, y / 2 ^ (p.s + p.b) = y / 2 ^ p.b / 2 ^ p.s := fun y => by
    rw [Nat.div_div_eq_div_mul, ← pow_add, Nat.add_comm]
  rw [htag, htag, hd.sIndex_eq, hd.sIndex_eq]
  refine ⟨fun h => ⟨congrArg (· % 2 ^ p.s) h, congrArg (· / 2 ^ p.s) h⟩, fun ⟨hk, ht⟩ => ?_⟩
  rw [← Nat.div_add_mod (x / 2 ^ p.b) (2 ^ p.s), ht, hk, Nat.div_add_mod]

theorem block_mem_iff (hd : p.Defined) : a / 2 ^ p.b ∈ past.map (· / 2 ^ p.b) ↔
    a / 2 ^ (p.s + p.b) ∈ p.tagsOf (p.sIndex a) past := by
  simp only [Params.tagsOf, List.mem_map, List.mem_filter, decide_eq_true_eq, and_assoc,
    block_eq_iff hd]

theorem length_reuses (past as : List ℕ) : (p.reuses past as).length = as.length := by
  induction as generalizing past with
  | nil => rfl
  | cons a as ih => exact congrArg Nat.succ (ih _)

/-- The first access to a block misses, and no other; each finds room. -/
theorem reuses_of_room (hd : p.Defined) (past as : List ℕ)
    (hroom : ∀ k, (p.tagsOf k (past ++ as)).dedup.length ≤ p.E) :
    (recent ((past ++ as).map (· / 2 ^ p.b))).length =
        (recent (past.map (· / 2 ^ p.b))).length + (p.reuses past as).countP (!·.hits p.E) ∧
      (p.reuses past as).countP (·.evicts p.E) = 0 := by
  induction as generalizing past with
  | nil => simp [Params.reuses]
  | cons a as ih =>
    rw [show past ++ a :: as = past ++ [a] ++ as by simp] at hroom ⊢
    obtain ⟨hlen, hevict⟩ := ih (past ++ [a]) hroom
    -- the set has room for what it has seen and for the new tag
    have hseen : (recent (p.tagsOf (p.sIndex a) (past ++ [a]))).length ≤ p.E := by
      rw [length_recent]
      refine le_trans (List.subperm_of_subset (List.nodup_dedup _) fun t ht => ?_).length_le
        (hroom (p.sIndex a))
      obtain ⟨x, hx, rfl⟩ := List.mem_map.1 (List.mem_dedup.1 ht)
      obtain ⟨hx, hk⟩ := List.mem_filter.1 hx
      exact List.mem_dedup.2 (List.mem_map.2
        ⟨x, List.mem_filter.2 ⟨List.mem_append_left _ hx, hk⟩, rfl⟩)
    rw [tagsOf_concat, if_pos rfl, length_recent_concat] at hseen
    have hhit : (p.reuse past a).hits p.E = true ↔ a / 2 ^ p.b ∈ past.map (· / 2 ^ p.b) := by
      have hall : (recent (p.tagsOf (p.sIndex a) past)).take p.E =
          recent (p.tagsOf (p.sIndex a) past) := List.take_of_length_le (by omega)
      rw [block_mem_iff hd, ← mem_recent, ← hall, mem_take_iff]
      rfl
    have hno : (p.reuse past a).evicts p.E = false := by
      rw [Reuse.evicts, Bool.and_eq_false_iff, Bool.not_eq_false', hhit, block_mem_iff hd]
      by_cases hmem : a / 2 ^ (p.s + p.b) ∈ p.tagsOf (p.sIndex a) past
      · exact .inl hmem
      · rw [if_neg hmem] at hseen
        exact .inr (decide_eq_false (Nat.not_le_of_lt hseen))
    rw [hlen, List.map_append, List.map_singleton, length_recent_concat, Params.reuses,
      List.countP_cons, List.countP_cons, hevict, hno]
    refine ⟨?_, rfl⟩
    by_cases hmem : a / 2 ^ p.b ∈ past.map (· / 2 ^ p.b)
    · rw [if_pos hmem, hhit.2 hmem]
      simp
    · rw [if_neg hmem, Bool.eq_false_iff.2 (mt hhit.1 hmem)]
      simp only [Bool.not_false, if_true]
      omega

end CacheLab
end CsappLabs
