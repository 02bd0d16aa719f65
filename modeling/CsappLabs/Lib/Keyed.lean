/-
# Slots that are stepped by key

A state is a family of slots.  An event steps the slot of its key and no other,
and emits an amount that is added up.  A run over the whole family (`runAll`) is
then nothing but the runs of its slots, each over the events of its key
(`runAll_eq_some`): the slots do not see each other, and only the order of the
events within one slot matters (`runAll_congr`).

A step can be undefined; the run of the family is defined exactly if the runs of
all slots are.
-/

import Mathlib.Algebra.BigOperators.Group.Finset.Piecewise

namespace Lib
namespace Keyed

variable {α κ σ M : Type*} [DecidableEq κ] [AddCommMonoid M]

/-- The events one after the other on one slot, with the sum of what they emit. -/
def runSlot (step : α → σ → Option (σ × M)) : σ → List α → Option (σ × M)
  | x, [] => some (x, 0)
  | x, a :: as =>
    (step a x).bind fun r => (runSlot step r.1 as).map fun r' => (r'.1, r.2 + r'.2)

/-- The events one after the other, each on the slot of its key. -/
def runAll (key : α → κ) (step : α → σ → Option (σ × M)) :
    (κ → σ) → List α → Option ((κ → σ) × M)
  | f, [] => some (f, 0)
  | f, a :: as =>
    (step a (f (key a))).bind fun r =>
      (runAll key step (Function.update f (key a) r.1) as).map fun r' => (r'.1, r.2 + r'.2)

variable {key : α → κ} {step : α → σ → Option (σ × M)} {f f' : κ → σ} {x x' : σ} {m : M}
  {a : α} {as bs : List α} {k : κ} {K : Finset κ}

/-- The events of one key, in their order. -/
def ofKey (key : α → κ) (k : κ) (as : List α) : List α := as.filter fun a => key a = k

theorem ofKey_cons_self (key : α → κ) (a : α) (as : List α) :
    ofKey key (key a) (a :: as) = a :: ofKey key (key a) as :=
  List.filter_cons_of_pos (by simp)

theorem ofKey_cons_ne (h : k ≠ key a) (as : List α) : ofKey key k (a :: as) = ofKey key k as :=
  List.filter_cons_of_neg (by simpa using h.symm)

/-- The events of one key among those of one key. -/
theorem ofKey_ofKey (key : α → κ) (j k : κ) (as : List α) :
    ofKey key j (ofKey key k as) = if j = k then ofKey key k as else [] := by
  split_ifs with h
  · subst h
    exact List.filter_eq_self.2 fun a ha => (List.mem_filter.1 ha).2
  · refine List.filter_eq_nil_iff.2 fun a ha => ?_
    have hk : key a = k := by simpa using (List.mem_filter.1 ha).2
    simpa [hk] using fun he => h he.symm

theorem runSlot_cons_eq_some :
    runSlot step x (a :: as) = some (x', m) ↔
      ∃ y e d, step a x = some (y, e) ∧ runSlot step y as = some (x', d) ∧ m = e + d := by
  simp only [runSlot, Option.bind_eq_some_iff, Option.map_eq_some_iff, Prod.exists, Prod.mk.injEq]
  constructor
  · rintro ⟨y, e, hs, _, d, hr, rfl, rfl⟩
    exact ⟨y, e, d, hs, hr, rfl⟩
  · rintro ⟨y, e, d, hs, hr, rfl⟩
    exact ⟨y, e, hs, _, d, hr, rfl, rfl⟩

theorem runAll_cons_eq_some :
    runAll key step f (a :: as) = some (f', m) ↔
      ∃ y e d, step a (f (key a)) = some (y, e) ∧
        runAll key step (Function.update f (key a) y) as = some (f', d) ∧ m = e + d := by
  simp only [runAll, Option.bind_eq_some_iff, Option.map_eq_some_iff, Prod.exists, Prod.mk.injEq]
  constructor
  · rintro ⟨y, e, hs, _, d, hr, rfl, rfl⟩
    exact ⟨y, e, d, hs, hr, rfl⟩
  · rintro ⟨y, e, d, hs, hr, rfl⟩
    exact ⟨y, e, hs, _, d, hr, rfl, rfl⟩

/-- **Slots are independent.**  A run of the family is made of a run of every slot
over the events of its key, and it emits what they emit together. -/
theorem runAll_eq_some (hK : ∀ a ∈ as, key a ∈ K) :
    runAll key step f as = some (f', m) ↔
      ∃ c : κ → M, (∀ k, runSlot step (f k) (ofKey key k as) = some (f' k, c k)) ∧
        m = ∑ k ∈ K, c k := by
  induction as generalizing f m with
  | nil =>
    constructor
    · rintro h
      obtain ⟨rfl, rfl⟩ : f = f' ∧ 0 = m := by simpa [runAll] using h
      exact ⟨fun _ => 0, fun k => rfl, Finset.sum_const_zero.symm⟩
    · rintro ⟨c, hc, rfl⟩
      have hnil : ∀ k, f k = f' k ∧ 0 = c k := fun k => by simpa [ofKey, runSlot] using hc k
      obtain rfl : f = f' := funext fun k => (hnil k).1
      rw [runAll, Finset.sum_eq_zero fun k _ => (hnil k).2.symm]
  | cons a as ih =>
    obtain ⟨ha, has⟩ := List.forall_mem_cons.1 hK
    rw [runAll_cons_eq_some]
    constructor
    · rintro ⟨y, e, d, hs, hr, rfl⟩
      obtain ⟨c, hc, rfl⟩ := (ih has).1 hr
      -- the slot of the key emits `e` more
      refine ⟨Function.update c (key a) (e + c (key a)), fun k => ?_, ?_⟩
      · by_cases hk : k = key a
        · subst hk
          have hck := hc (key a)
          rw [Function.update_self] at hck ⊢
          rw [ofKey_cons_self]
          exact runSlot_cons_eq_some.2 ⟨y, e, _, hs, hck, rfl⟩
        · have hck := hc k
          rw [Function.update_of_ne hk] at hck ⊢
          rwa [ofKey_cons_ne hk]
      · rw [Finset.sum_update_of_mem ha, add_assoc,
          ← Finset.sum_eq_add_sum_sdiff_singleton_of_mem ha]
    · rintro ⟨c, hc, rfl⟩
      have hca := hc (key a)
      rw [ofKey_cons_self] at hca
      obtain ⟨y, e, d, hs, hr, hd⟩ := runSlot_cons_eq_some.1 hca
      refine ⟨y, e, ∑ k ∈ K, Function.update c (key a) d k, hs,
        (ih has).2 ⟨Function.update c (key a) d, fun k => ?_, rfl⟩, ?_⟩
      · by_cases hk : k = key a
        · subst hk
          rwa [Function.update_self, Function.update_self]
        · rw [Function.update_of_ne hk, Function.update_of_ne hk]
          have hck := hc k
          rwa [ofKey_cons_ne hk] at hck
      · rw [Finset.sum_update_of_mem ha, ← add_assoc, ← hd,
          ← Finset.sum_eq_add_sum_sdiff_singleton_of_mem ha]

/-- **Only the order within a slot matters.** -/
theorem runAll_congr (h : ∀ k, ofKey key k as = ofKey key k bs) :
    runAll key step f as = runAll key step f bs := by
  have hmem : ∀ a, a ∈ as ↔ a ∈ bs := fun a => by
    have := congrArg (a ∈ ·) (h (key a))
    simpa [ofKey] using this
  let K := (as.map key).toFinset
  have hK : ∀ a ∈ as, key a ∈ K := fun a ha => List.mem_toFinset.2 (List.mem_map_of_mem ha)
  refine Option.ext fun r => ?_
  rw [runAll_eq_some hK, runAll_eq_some fun a ha => hK a ((hmem a).2 ha)]
  simp only [h]

/-- The events of one key step one slot, and the run emits what that slot emits. -/
theorem runAll_ofKey (h : runSlot step (f k) (ofKey key k as) = some (x, m)) :
    runAll key step f (ofKey key k as) = some (Function.update f k x, m) := by
  have hK : ∀ a ∈ ofKey key k as, key a ∈ ({k} : Finset κ) := fun a ha =>
    Finset.mem_singleton.2 (by simpa using (List.mem_filter.1 ha).2)
  refine (runAll_eq_some hK).2 ⟨Function.update (fun _ => 0) k m, fun j => ?_, by simp⟩
  rw [ofKey_ofKey]
  by_cases hj : j = k
  · subst hj
    rw [if_pos rfl, Function.update_self, Function.update_self, h]
  · rw [if_neg hj, Function.update_of_ne hj, Function.update_of_ne hj]
    rfl

end Keyed
end Lib
