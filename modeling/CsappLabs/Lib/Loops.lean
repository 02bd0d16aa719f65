/-
# Counting loops

`forLoop` is `for (i = lo; cond; i += d) body`, where `i` is an `int` that is not
negative and the body acts on a state.  It has no result (`none`) where the condition
or the body has none, and where `i` would pass the range of `int`; so it always ends.

A program that appends to a log what it does `Passes` a list if it appends this list
and keeps an invariant.  A loop passes what its rounds pass, one after the other.

A range cut into blocks is the range again (`flatMap_blocks`), and a rectangle cut into
rectangular blocks has the same points (`tiles_perm`), in another order.
-/

import CsappLabs.Lib.CInt
import Mathlib.Algebra.Order.Floor.Div
import Mathlib.Data.List.ProdSigma
import Mathlib.Data.Multiset.Bind
import Mathlib.Data.PNat.Basic

namespace Lib
namespace Loops

open CInt

variable {σ β : Type*} {cond : ℕ → Option Bool} {d : ℕ+} {body : ℕ → σ → Option σ}
  {f g : σ → Option σ} {i m : ℕ} {s s' : σ} {l l' : List β}

/-- `for (i = lo; cond; i += d) body` from `i` on. -/
def forLoop (cond : ℕ → Option Bool) (d : ℕ+) (body : ℕ → σ → Option σ) (i : ℕ) (s : σ) :
    Option σ :=
  (cond i).bind fun go =>
    if go then
      (body i s).bind fun s =>
        if i + d < 2 ^ 31 then forLoop cond d body (i + d) s else none
    else some s
termination_by 2 ^ 31 - i
decreasing_by
  have := d.pos
  omega

theorem forLoop_false (h : cond i = some false) : forLoop cond d body i s = some s := by
  unfold forLoop
  simp [h]

theorem forLoop_true (h : cond i = some true) (hb : body i s = some s') (hi : i + d < 2 ^ 31) :
    forLoop cond d body i s = forLoop cond d body (i + d) s' := by
  rw [forLoop, h, Option.bind_some, if_pos rfl, hb, Option.bind_some, if_pos hi]

/-- A loop with a result has run each of its rounds. -/
theorem exists_round (h : forLoop cond d body i s = some s')
    (hc : ∀ r ≤ m, cond (i + d * r) = some true) :
    ∃ t t', body (i + d * m) t = some t' := by
  induction m generalizing i s with
  | zero =>
    have h0 := hc 0 le_rfl
    rw [Nat.mul_zero, Nat.add_zero] at h0 ⊢
    unfold forLoop at h
    rw [h0, Option.bind_some, if_pos rfl] at h
    obtain ⟨t, ht, -⟩ := Option.bind_eq_some_iff.1 h
    exact ⟨s, t, ht⟩
  | succ m ih =>
    have h0 := hc 0 (Nat.zero_le _)
    rw [Nat.mul_zero, Nat.add_zero] at h0
    unfold forLoop at h
    rw [h0, Option.bind_some, if_pos rfl] at h
    obtain ⟨t, -, ht⟩ := Option.bind_eq_some_iff.1 h
    obtain ⟨-, ht⟩ := Option.ite_none_right_eq_some.1 ht
    have hnext : ∀ r, i + d + d * r = i + d * (r + 1) := fun r => by ring
    rw [← hnext]
    exact ih ht fun r hr => hnext r ▸ hc (r + 1) (Nat.succ_le_succ hr)

/-- A loop on a state that another loop sees a part of. -/
theorem forLoop_map {τ : Type*} {π : σ → τ} {body' : ℕ → τ → Option τ}
    (h : ∀ i s, (body i s).map π = body' i (π s)) (i : ℕ) (s : σ) :
    (forLoop cond d body i s).map π = forLoop cond d body' i (π s) := by
  induction i, s using forLoop.induct d with
  | case1 i s ih =>
    unfold forLoop
    cases hc : cond i with
    | none => rfl
    | some go =>
      cases go with
      | false => rfl
      | true =>
        simp only [Option.bind_some, if_true, ← h]
        cases hb : body i s with
        | none => rfl
        | some s₁ =>
          simp only [Option.bind_some, Option.map_some]
          split_ifs with hi
          · exact ih s₁ hi
          · rfl

/-! ### What a program passes -/

/-- The program appends `l` to the log and keeps the invariant. -/
def Passes (inv : σ → Prop) (log : σ → List β) (f : σ → Option σ) (l : List β) : Prop :=
  ∀ s, inv s → ∃ s', f s = some s' ∧ inv s' ∧ log s' = log s ++ l

variable {inv : σ → Prop} {log : σ → List β}

theorem Passes.bind (hf : Passes inv log f l) (hg : Passes inv log g l') :
    Passes inv log (fun s => (f s).bind g) (l ++ l') := by
  intro s hs
  obtain ⟨s₁, h₁, hi₁, hl₁⟩ := hf s hs
  obtain ⟨s₂, h₂, hi₂, hl₂⟩ := hg s₁ hi₁
  refine ⟨s₂, ?_, hi₂, by rw [hl₂, hl₁, List.append_assoc]⟩
  simp only [h₁, Option.bind_some, h₂]

/-- **The loop rule.**  With `m` rounds, each of which passes what `p` says. -/
theorem Passes.forLoop {p : ℕ → List β} (hc : ∀ r < m, cond (i + d * r) = some true)
    (hend : cond (i + d * m) = some false) (hi : i + d * m < 2 ^ 31)
    (hbody : ∀ r < m, Passes inv log (body (i + d * r)) (p (i + d * r))) :
    Passes inv log (Loops.forLoop cond d body i) ((List.range' i m d).flatMap p) := by
  induction m generalizing i with
  | zero =>
    intro s hs
    exact ⟨s, forLoop_false (by simpa using hend), hs, by simp⟩
  | succ m ih =>
    intro s hs
    have h0 := hc 0 (Nat.succ_pos _)
    have hb0 := hbody 0 (Nat.succ_pos _)
    rw [Nat.mul_zero, Nat.add_zero] at h0 hb0
    obtain ⟨t, ht, hit, hlt⟩ := hb0 s hs
    have hnext : ∀ r, i + d + d * r = i + d * (r + 1) := fun r => by ring
    obtain ⟨t', ht', hit', hlt'⟩ := ih (i := i + d)
      (fun r hr => hnext r ▸ hc (r + 1) (Nat.succ_lt_succ hr)) (hnext m ▸ hend)
      (hnext m ▸ hi) (fun r hr => hnext r ▸ hbody (r + 1) (Nat.succ_lt_succ hr)) t hit
    refine ⟨t', ?_, hit', ?_⟩
    · rw [forLoop_true h0 ht, ht']
      have := Nat.le_mul_of_pos_right (d : ℕ) m.succ_pos
      rw [Nat.succ_eq_add_one] at this
      omega
    · rw [hlt', hlt, List.range'_succ, List.flatMap_cons, List.append_assoc]

/-- `for (k = i; k < e; k++)` -/
theorem Passes.between {p : ℕ → List β} {e : ℕ} (hc : ∀ k, cond k = some (decide (k < e)))
    (hi : i ≤ e) (he : e < 2 ^ 31) (hbody : ∀ k, i ≤ k → k < e → Passes inv log (body k) (p k)) :
    Passes inv log (Loops.forLoop cond 1 body i) ((List.range' i (e - i)).flatMap p) := by
  refine Passes.forLoop (d := 1) (fun r hr => ?_) ?_ ?_ fun r hr => ?_
  · rw [hc, PNat.one_coe, Nat.one_mul, decide_eq_true (by omega)]
  · rw [hc, PNat.one_coe, Nat.one_mul, decide_eq_false (by omega)]
  · rw [PNat.one_coe]
    omega
  · rw [PNat.one_coe, Nat.one_mul]
    exact hbody _ (by omega) (by omega)

/-- The rounds of `for (i = 0; i < n; i += d)`. -/
theorem lt_ceilDiv_iff {k n r : ℕ} (hk : 0 < k) : r < n ⌈/⌉ k ↔ k * r < n := by
  rw [← not_le, ceilDiv_le_iff_le_mul hk, not_le]

theorem mul_ceilDiv_lt {k n : ℕ} (hk : 0 < k) : k * (n ⌈/⌉ k) < n + k := by
  cases h : n ⌈/⌉ k with
  | zero => omega
  | succ r =>
    have := (lt_ceilDiv_iff hk).1 (h ▸ r.lt_succ_self : r < n ⌈/⌉ k)
    rw [Nat.mul_succ]
    omega

/-- `for (i = 0; i < n; i += d)` -/
theorem Passes.upto {p : ℕ → List β} {n : ℕ} (hn : n + d ≤ 2 ^ 31)
    (hbody : ∀ i < n, (d : ℕ) ∣ i → Passes inv log (body i) (p i)) :
    Passes inv log (Loops.forLoop (fun i => some (i < n)) d body 0)
      ((List.range' 0 (n ⌈/⌉ (d : ℕ)) d).flatMap p) := by
  have hround : ∀ r, r < n ⌈/⌉ (d : ℕ) ↔ 0 + d * r < n := fun r => by
    rw [lt_ceilDiv_iff d.pos, Nat.zero_add]
  refine Passes.forLoop (fun r hr => ?_) ?_ ?_ fun r hr => hbody _ ((hround r).1 hr) (by simp)
  · rw [decide_eq_true ((hround r).1 hr)]
  · rw [decide_eq_false ((hround _).not.1 (lt_irrefl _))]
  · have := mul_ceilDiv_lt (n := n) d.pos
    omega

/-! ### Blocks -/

/-- The blocks of length `d` of the first `n` numbers, the last one maybe shorter. -/
theorem flatMap_blocks (d n m : ℕ) :
    (List.range' 0 m d).flatMap (fun i => List.range' i (min d (n - i))) =
      List.range (min (d * m) n) := by
  induction m with
  | zero => simp
  | succ m ih =>
    rw [List.range'_concat, List.flatMap_append, ih, Nat.zero_add, List.flatMap_singleton,
      List.range_eq_range', List.range_eq_range', Nat.mul_succ]
    rcases Nat.le_total (d * m) n with h | h
    · have hrow := @List.range'_append_1 0 (d * m) (min d (n - d * m))
      rw [Nat.zero_add] at hrow
      rw [Nat.min_eq_left h, hrow]
      congr 1
      omega
    · rw [Nat.sub_eq_zero_of_le h, Nat.min_eq_right h, Nat.min_zero, List.range'_zero,
        List.append_nil]
      congr 1
      omega

/-- **The points of a rectangle**, block after block and row after row in each block. -/
theorem tiles_perm {α γ : Type*} (is js : List ℕ) (rows : ℕ → List α) (cols : ℕ → List γ) :
    (is.flatMap fun i => js.flatMap fun j => (rows i).flatMap fun k => (cols j).map fun l =>
      (k, l)).Perm (is.flatMap rows ×ˢ js.flatMap cols) := by
  have hswap : ∀ i, (js.flatMap fun j => (rows i).flatMap fun k => (cols j).map fun l =>
      (k, l)).Perm ((rows i).flatMap fun k => (js.flatMap cols).map fun l => (k, l)) := by
    intro i
    rw [← Multiset.coe_eq_coe]
    simp only [← Multiset.coe_bind, List.map_flatMap]
    exact Multiset.bind_bind _ _
  have hprod : is.flatMap rows ×ˢ js.flatMap cols =
      is.flatMap fun i => (rows i).flatMap fun k => (js.flatMap cols).map fun l => (k, l) :=
    List.flatMap_assoc
  rw [hprod]
  exact List.Perm.flatMap_left _ fun i _ => hswap i

/-- **Two loops over blocks** pass each point of the rectangle once, if the blocks do. -/
theorem Passes.tiles {log : σ → List (ℕ × ℕ)} {block : ℕ → ℕ → σ → Option σ} {n n' : ℕ}
    (hn : n + d ≤ 2 ^ 31) (hn' : n' + d ≤ 2 ^ 31)
    (hblock : ∀ i < n, (d : ℕ) ∣ i → ∀ j < n', (d : ℕ) ∣ j → Passes inv log (block i j)
      ((List.range' i (min d (n - i))).flatMap fun k =>
        (List.range' j (min d (n' - j))).map fun l => (k, l))) :
    ∃ l, l.Perm (List.range n ×ˢ List.range n') ∧
      Passes inv log (Loops.forLoop (fun i => some (i < n)) d
        (fun i => Loops.forLoop (fun j => some (j < n')) d (block i) 0) 0) l := by
  refine ⟨_, ?_, Passes.upto hn fun i hi hdi => Passes.upto hn' fun j hj hdj =>
    hblock i hi hdi j hj hdj⟩
  have hall : ∀ n : ℕ, min ((d : ℕ) * (n ⌈/⌉ (d : ℕ))) n = n := fun n =>
    Nat.min_eq_right ((ceilDiv_le_iff_le_mul d.pos).1 le_rfl)
  refine (tiles_perm _ _ _ _).trans ?_
  rw [flatMap_blocks, flatMap_blocks, hall, hall]

end Loops
end Lib
