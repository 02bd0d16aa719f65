/-
# When the simulator counts a hit

An access leaves its tag in its set, whichever way it went, so the second access
of an `M` record is a hit: the log of a record is never longer than that of an
eviction and a hit (`modify_hits`).

The converse, that a hit goes back to an access to the same memory block, is a
question of the tag.  A tag is narrowed to 32 bits, so two blocks can have the
same tag and the same set; then the second is counted as a hit after the first.
Over addresses where this does not happen a hit has an earlier access to its
block, and over others it need not (`hits_same_block_iff`).  From `s = 32` on it
happens for every `b`, since the mask `(1 << s) - 1` is an `int`.
-/

import CsappLabs.CacheLab.Lines

namespace CsappLabs
namespace CacheLab

open Lib Lib.CInt

variable {p : Params} {sim sim' : Sim} {lines lines' : List Line} {tag a x : ℕ} {past as : List ℕ}
  {o : Outcome}

/-! ### After an access -/

/-- **An access leaves its tag in the set.** -/
theorem Access.mem_resident (ha : Access tag lines o lines') : tag ∈ resident lines' := by
  cases ha with
  | hit hv hl ht =>
    rw [resident_access rfl]
    exact List.mem_append_right _ List.mem_cons_self
  | cold hv hl =>
    rw [resident_access rfl]
    exact List.mem_append_right _ List.mem_cons_self
  | full hall hv hr =>
    rw [resident_access rfl]
    exact List.mem_append_right _ List.mem_cons_self

/-- An access is counted as a hit exactly if its tag is resident. -/
theorem accessCache_hit (hE : 1 ≤ p.E) (hA : ∀ k, Aged p.E (p.history past k) (sim.sets k))
    (a : ℕ) :
    ∃ (o : Outcome) (sim' : Sim), accessCache p sim a = some (sim', o.log) ∧
      p.tag a ∈ resident (sim'.sets (p.sIndex a)) ∧
      (∀ k, Aged p.E (p.history (a :: past) k) (sim'.sets k)) ∧
      (o = .hit ↔ p.tag a ∈ resident (sim.sets (p.sIndex a))) ∧
      sim'.hitCount = sim.hitCount + if o = .hit then 1 else 0 := by
  obtain ⟨o, lines', ha, he⟩ := accessCache_access hE hA a
  refine ⟨o, _, he, ?_, aged_update hA ha, ((hA _).outcome ha).1, ?_⟩
  · rw [count_sets]
    simpa only [Function.update_self] using ha.mem_resident
  · cases o <;> rfl

/-- **The second of two accesses to an address is a hit.** -/
theorem accessCache_twice (hE : 1 ≤ p.E) (hA : ∀ k, Aged p.E (p.history past k) (sim.sets k))
    (a : ℕ) :
    ∃ (o : Outcome) (sim₁ sim₂ : Sim), accessCache p sim a = some (sim₁, o.log) ∧
      p.tag a ∈ resident (sim₁.sets (p.sIndex a)) ∧
      accessCache p sim₁ a = some (sim₂, Outcome.hit.log) ∧
      sim₂.hitCount = sim₁.hitCount + 1 := by
  obtain ⟨o, sim₁, he, hres, hA₁, -⟩ := accessCache_hit hE hA a
  obtain ⟨o₂, sim₂, he₂, -, -, ho₂, hcount⟩ := accessCache_hit hE hA₁ a
  obtain rfl := ho₂.2 hres
  exact ⟨o, sim₁, sim₂, he, hres, he₂, hcount⟩

/-! ### The log of a record -/

theorem Outcome.length_log_le (o : Outcome) : o.log.length ≤ 14 := by
  cases o <;> decide

/-- **The log of a record**: at most the text of an eviction and that of a hit. -/
theorem accessAll_log (hE : 1 ≤ p.E) (hA : ∀ k, Aged p.E (p.history past k) (sim.sets k))
    (r : Record) :
    ∃ sim' log, accessAll p sim r.accesses = some (sim', log) ∧ log.length ≤ 18 := by
  obtain ⟨o, sim₁, sim₂, he, -, he₂, -⟩ := accessCache_twice hE hA r.address
  have hone : accessAll p sim [r.address] = some (sim₁, o.log ++ "") :=
    accessAll_cons_eq_some.2 ⟨_, _, _, he, rfl, rfl⟩
  have htwo : accessAll p sim [r.address, r.address] =
      some (sim₂, o.log ++ (Outcome.hit.log ++ "")) :=
    accessAll_cons_eq_some.2 ⟨_, _, _, he, accessAll_cons_eq_some.2 ⟨_, _, _, he₂, rfl, rfl⟩, rfl⟩
  have hlen := o.length_log_le
  have hhit : Outcome.hit.log.length = 4 := by decide
  unfold Record.accesses
  split_ifs
  · refine ⟨_, _, hone, ?_⟩
    rw [String.append_empty]
    omega
  · refine ⟨_, _, htwo, ?_⟩
    rw [String.append_empty, String.length_append]
    omega
  · refine ⟨_, _, hone, ?_⟩
    rw [String.append_empty]
    omega
  · exact ⟨sim, "", rfl, by decide⟩

/-- The logs of the reading loop. -/
theorem readLoop_logs (hE : 1 ≤ p.E) (hA : ∀ k, Aged p.E (p.history past k) (sim.sets k))
    (trace : List Record) :
    ∃ sim' logs, readLoop p sim trace = some (sim', logs) ∧ ∀ log ∈ logs, log.length ≤ 18 := by
  induction trace generalizing sim past with
  | nil => exact ⟨sim, [], rfl, fun log hlog => absurd hlog List.not_mem_nil⟩
  | cons r trace ih =>
    obtain ⟨sim₁, log, he, hlen⟩ := accessAll_log hE hA r
    obtain ⟨sim₁', log', he', hA₁⟩ := accessAll_aged hE r.accesses hA
    obtain ⟨rfl, rfl⟩ := Prod.mk.inj (Option.some.inj (he.symm.trans he'))
    obtain ⟨sim', logs, hread, hlogs⟩ := ih hA₁
    refine ⟨sim', log :: logs, ?_, List.forall_mem_cons.2 ⟨hlen, hlogs⟩⟩
    simp only [readLoop, he, hread, Option.bind_eq_bind, Option.bind_some]
    rfl

/-- **A modify record ends in a hit and its log fits.**  From blank lines, after
any accesses: one more access leaves its tag in its set and the same access again
is a hit; whatever record comes next, the text appended has at most 18 characters,
and so has the text of every record of a trace. -/
theorem modify_hits (hE : 1 ≤ p.E) (h0 : Blank p sim) :
    (∀ as, ∃ sim₁ log, accessAll p sim as = some (sim₁, log) ∧
      (∀ a, ∃ (o : Outcome) (sim₂ sim₃ : Sim), accessCache p sim₁ a = some (sim₂, o.log) ∧
        p.tag a ∈ resident (sim₂.sets (p.sIndex a)) ∧
        accessCache p sim₂ a = some (sim₃, Outcome.hit.log) ∧
        sim₃.hitCount = sim₂.hitCount + 1) ∧
      ∀ r : Record, ∃ sim₂ accessLog, accessAll p sim₁ r.accesses = some (sim₂, accessLog) ∧
        accessLog.length ≤ 18) ∧
    ∀ trace, ∃ sim' logs, readLoop p sim trace = some (sim', logs) ∧
      ∀ accessLog ∈ logs, accessLog.length ≤ 18 := by
  have hA : ∀ k, Aged p.E (p.history [] k) (sim.sets k) := h0.aged
  refine ⟨fun as => ?_, readLoop_logs hE hA⟩
  obtain ⟨sim₁, log, he, hA₁⟩ := accessAll_aged hE as hA
  exact ⟨sim₁, log, he, accessCache_twice hE hA₁, accessAll_log hE hA₁⟩

/-- The longest log: an eviction and a hit. -/
theorem modify_hits_eviction :
    ∃ sim' logs, readLoop ⟨0, 1, 0⟩ ⟨fun _ => [⟨false, 3, 9⟩], 0, 0, 0⟩
        [⟨'L', 5⟩, ⟨'M', 6⟩] = some (sim', logs) ∧ ∀ accessLog ∈ logs, accessLog.length ≤ 18 :=
  (@modify_hits ⟨0, 1, 0⟩ ⟨fun _ => [⟨false, 3, 9⟩], 0, 0, 0⟩ (by decide)
    ⟨fun _ => rfl, by simp, rfl, rfl, rfl⟩).2 [⟨'L', 5⟩, ⟨'M', 6⟩]

example :
    (readLoop ⟨0, 1, 0⟩ ⟨fun _ => [⟨false, 3, 9⟩], 0, 0, 0⟩ [⟨'L', 5⟩, ⟨'M', 6⟩]).map Prod.snd =
    some ["miss ", "miss eviction hit "] := by decide

/-! ### Hits and memory blocks -/

/-- An access of the trace is counted as a hit only after an access to its block. -/
def HitsSameBlock (p : Params) (sim : Sim) (trace : List Record) : Prop :=
  ∀ as a rest, trace.flatMap Record.accesses = as ++ a :: rest →
    ∀ sim₁ log₁ sim₂ log₂, accessAll p sim as = some (sim₁, log₁) →
      accessCache p sim₁ a = some (sim₂, log₂) → sim₂.hitCount = sim₁.hitCount + 1 →
        ∃ x ∈ as, x / 2 ^ p.b = a / 2 ^ p.b

/-- Addresses with the same set index and the same tag are in one block. -/
def Params.Distinguishes (p : Params) (A : Set ℕ) : Prop :=
  ∀ x ∈ A, ∀ a ∈ A, p.sIndex x = p.sIndex a → p.tag x = p.tag a → x / 2 ^ p.b = a / 2 ^ p.b

/-- A tag in the history of a set goes back to an address accessed there. -/
theorem mem_history {k : ℕ} (hx : x ∈ p.history past k) :
    ∃ y ∈ past, p.sIndex y = k ∧ p.tag y = x := by
  obtain ⟨y, hy, rfl⟩ := List.mem_map.1 hx
  obtain ⟨hy, hk⟩ := List.mem_filter.1 hy
  exact ⟨y, hy, by simpa using hk, rfl⟩

/-- **A hit** goes back to an access with the same tag to the same set. -/
theorem exists_of_hit (hE : 1 ≤ p.E) (h0 : Blank p sim) {sim₁ sim₂ : Sim} {log₁ log₂ : String}
    (h₁ : accessAll p sim as = some (sim₁, log₁)) (h₂ : accessCache p sim₁ a = some (sim₂, log₂))
    (hhit : sim₂.hitCount = sim₁.hitCount + 1) :
    ∃ x ∈ as, p.sIndex x = p.sIndex a ∧ p.tag x = p.tag a := by
  have hA : ∀ k, Aged p.E (p.history [] k) (sim.sets k) := h0.aged
  obtain ⟨sim₁', log₁', he₁, hA₁⟩ := accessAll_aged hE as hA
  obtain ⟨rfl, rfl⟩ := Prod.mk.inj (Option.some.inj (h₁.symm.trans he₁))
  obtain ⟨o, sim₂', he₂, -, -, ho, hcount⟩ := accessCache_hit hE hA₁ a
  obtain ⟨rfl, rfl⟩ := Prod.mk.inj (Option.some.inj (h₂.symm.trans he₂))
  have hres : p.tag a ∈ resident (sim₁.sets (p.sIndex a)) := by
    refine ho.1 ?_
    by_contra hne
    rw [if_neg hne] at hcount
    omega
  obtain ⟨x, hx, hk, ht⟩ := mem_history ((hA₁ _).past _ hres)
  exact ⟨x, by simpa using hx, hk, ht⟩

/-- Two loads, the second with the tag and in the set of the first: it is a hit. -/
theorem block_of_hitsSameBlock (hE : 1 ≤ p.E) (h0 : Blank p sim)
    (h : HitsSameBlock p sim [⟨'L', x⟩, ⟨'L', a⟩]) (hk : p.sIndex x = p.sIndex a)
    (ht : p.tag x = p.tag a) : x / 2 ^ p.b = a / 2 ^ p.b := by
  have hA : ∀ k, Aged p.E (p.history [] k) (sim.sets k) := h0.aged
  obtain ⟨o₁, sim₁, he₁, hres, hA₁, -⟩ := accessCache_hit hE hA x
  obtain ⟨o₂, sim₂, he₂, -, -, ho₂, hcount⟩ := accessCache_hit hE hA₁ a
  rw [hk, ht] at hres
  rw [if_pos (ho₂.2 hres)] at hcount
  have hone : accessAll p sim [x] = some (sim₁, o₁.log ++ "") :=
    accessAll_cons_eq_some.2 ⟨_, _, _, he₁, rfl, rfl⟩
  obtain ⟨y, hy, hblock⟩ := h [x] a [] rfl _ _ _ _ hone he₂ hcount
  exact List.mem_singleton.1 hy ▸ hblock

/-- With 32 bits or more in set index and offset, the tag loses nothing. -/
theorem distinguishes_of_le (hd : p.Defined) (h : 32 ≤ p.s + p.b) :
    p.Distinguishes {a | a < 2 ^ 64} := by
  have hfit : ∀ x ∈ {a | a < 2 ^ 64}, p.tag x = x / 2 ^ (p.s + p.b) := by
    intro x hx
    rw [hd.tag_eq]
    refine u32_of_lt (Nat.div_lt_of_lt_mul (hx.trans_le ?_))
    calc 2 ^ 64 = 2 ^ 32 * 2 ^ 32 := by decide
      _ ≤ 2 ^ (p.s + p.b) * 2 ^ 32 :=
        Nat.mul_le_mul_right _ (Nat.pow_le_pow_right (by decide) h)
  have hdiv : ∀ x, x / 2 ^ (p.s + p.b) = x / 2 ^ p.b / 2 ^ p.s := fun x => by
    rw [Nat.div_div_eq_div_mul, ← Nat.pow_add, Nat.add_comm]
  intro x hx a ha hk ht
  rw [hd.sIndex_eq, hd.sIndex_eq] at hk
  rw [hfit x hx, hfit a ha, hdiv, hdiv] at ht
  calc x / 2 ^ p.b = 2 ^ p.s * (x / 2 ^ p.b / 2 ^ p.s) + x / 2 ^ p.b % 2 ^ p.s :=
        (Nat.div_add_mod ..).symm
    _ = 2 ^ p.s * (a / 2 ^ p.b / 2 ^ p.s) + a / 2 ^ p.b % 2 ^ p.s := by
        rw [ht, hk]
    _ = a / 2 ^ p.b := Nat.div_add_mod ..

/-- Two addresses, the first of them `0`, that are not taken for each other. -/
theorem Params.Distinguishes.ne_zero {A : Set ℕ} (h : p.Distinguishes A) (h0 : 0 ∈ A) (ha : a ∈ A)
    (hblock : a / 2 ^ p.b ≠ 0) : ¬(p.sIndex a = 0 ∧ p.tag a = 0) := by
  rintro ⟨hk, ht⟩
  have hk0 : p.sIndex 0 = 0 := by rw [Params.sIndex_eq, Nat.zero_div, Nat.zero_mod]
  have ht0 : p.tag 0 = 0 := by rw [Params.tag, Nat.zero_div]; decide
  have := h 0 h0 a ha (hk0.trans hk.symm) (ht0.trans ht.symm)
  rw [Nat.zero_div] at this
  exact hblock this.symm

/-- With fewer, the first address of a block and one `2^32` tags further are taken
for each other. -/
theorem le_of_distinguishes (hd : p.Defined) (h : p.Distinguishes {a | a < 2 ^ 64}) :
    32 ≤ p.s + p.b := by
  by_contra hlt
  have hpos : ∀ n, 0 < 2 ^ n := Nat.two_pow_pos
  have hblock : 2 ^ (32 + (p.s + p.b)) / 2 ^ p.b = 2 ^ (32 + p.s) := by
    rw [← Nat.add_assoc, Nat.pow_add, Nat.mul_div_cancel _ (hpos _)]
  refine h.ne_zero (hpos 64) (a := 2 ^ (32 + (p.s + p.b))) ?_ ?_ ⟨?_, ?_⟩
  · exact Nat.pow_lt_pow_right (by decide) (by omega)
  · rw [hblock]
    exact (hpos _).ne'
  · rw [hd.sIndex_eq, hblock, Nat.pow_add, Nat.mul_mod_left]
  · rw [hd.tag_eq, Nat.pow_add, Nat.mul_div_cancel _ (hpos _)]
    decide

/-- With 32 bits or more in the set index, the mask leaves the upper ones out. -/
theorem lt_of_distinguishes (hs : p.s + p.b < 64) (h : p.Distinguishes {a | a < 2 ^ 64}) :
    p.s < 32 := by
  by_contra hge
  have hpos : ∀ n, 0 < 2 ^ n := Nat.two_pow_pos
  have hblock : 2 ^ (p.s % 32 + p.b) / 2 ^ p.b = 2 ^ (p.s % 32) := by
    rw [Nat.pow_add, Nat.mul_div_cancel _ (hpos _)]
  refine h.ne_zero (hpos 64) (a := 2 ^ (p.s % 32 + p.b)) ?_ ?_ ⟨?_, ?_⟩
  · exact Nat.pow_lt_pow_right (by decide) (by omega)
  · rw [hblock]
    exact (hpos _).ne'
  · have hb : p.b % 64 = p.b := Nat.mod_eq_of_lt (by omega)
    rw [Params.sIndex_eq, hb, hblock, Params.S, Nat.mod_self]
  · have hsb : (p.s + p.b) % 64 = p.s + p.b := Nat.mod_eq_of_lt hs
    rw [Params.tag, hsb, Nat.div_eq_of_lt (Nat.pow_lt_pow_right (by decide) (by omega))]
    decide

/-- **When the simulator distinguishes memory blocks.**  Over the traces with
addresses in `A` every hit has an earlier access to its block exactly if no two
addresses of `A` in different blocks have the same set index and the same tag.  Over
all traces of 64-bit addresses, with less than 64 bits in set index and offset, this is
so exactly if they have 32 or more, and the set index has less than 32. -/
theorem hits_same_block_iff (hE : 1 ≤ p.E) (h0 : Blank p sim) :
    (∀ A : Set ℕ,
      (∀ trace, (∀ a ∈ trace.flatMap Record.accesses, a ∈ A) → HitsSameBlock p sim trace) ↔
        p.Distinguishes A) ∧
    (p.s + p.b < 64 → ((∀ trace, (∀ a ∈ trace.flatMap Record.accesses, a < 2 ^ 64) →
      HitsSameBlock p sim trace) ↔ p.s < 32 ∧ 32 ≤ p.s + p.b)) := by
  have hiff : ∀ A : Set ℕ,
      (∀ trace, (∀ a ∈ trace.flatMap Record.accesses, a ∈ A) → HitsSameBlock p sim trace) ↔
        p.Distinguishes A := by
    intro A
    constructor
    · intro h x hx a ha
      refine block_of_hitsSameBlock hE h0 (h _ ?_)
      simp [Record.accesses, hx, ha]
    · intro hA trace htrace as a rest heq sim₁ log₁ sim₂ log₂ h₁ h₂ hhit
      rw [heq] at htrace
      obtain ⟨x, hx, hk, ht⟩ := exists_of_hit hE h0 h₁ h₂ hhit
      exact ⟨x, hx, hA x (htrace x (by simp [hx])) a (htrace a (by simp)) hk ht⟩
  refine ⟨hiff, fun hs => (hiff {a | a < 2 ^ 64}).trans ⟨fun h => ?_, fun ⟨hlt, hle⟩ => ?_⟩⟩
  · have hlt := lt_of_distinguishes hs h
    exact ⟨hlt, le_of_distinguishes ⟨hlt, hs⟩ h⟩
  · exact distinguishes_of_le ⟨hlt, hs⟩ hle

/-- With `2 ^ 16` sets of blocks of `2 ^ 16` bytes the third load is the only hit. -/
theorem hits_same_block_wide :
    HitsSameBlock ⟨16, 1, 16⟩ ⟨fun _ => [⟨false, 3, 9⟩], 0, 0, 0⟩
      [⟨'L', 0⟩, ⟨'L', 2 ^ 40⟩, ⟨'L', 2 ^ 40 + 5⟩] :=
  ((@hits_same_block_iff ⟨16, 1, 16⟩ ⟨fun _ => [⟨false, 3, 9⟩], 0, 0, 0⟩ (by decide)
    ⟨fun _ => rfl, by simp, rfl, rfl, rfl⟩).2 (by decide)).2 (by decide) _ (by decide)

/-- **Two blocks taken for each other**: with 16 sets of blocks of 16 bytes, the
address `2^40` is a hit after `0`. -/
theorem hit_other_block :
    ¬ HitsSameBlock ⟨4, 1, 4⟩ ⟨fun _ => [⟨false, 0, 0⟩], 0, 0, 0⟩ [⟨'L', 0⟩, ⟨'L', 2 ^ 40⟩] := by
  intro h
  obtain ⟨x, hx, hblock⟩ := h [0] (2 ^ 40) [] rfl _ _ _ _ rfl rfl (by decide)
  obtain rfl := List.mem_singleton.1 hx
  exact absurd hblock (by decide)

end CacheLab
end CsappLabs
