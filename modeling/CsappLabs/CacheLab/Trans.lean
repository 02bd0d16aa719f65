/-
# The transpose functions

`transpose_submit` and `trans` of `cachelab/trans.c`.  `A` has `N` rows of `M` numbers
and `B` has `M` rows of `N`; an access that is not to an element of its matrix has no
result, and neither has a sum that is not an `int`.

`visited` lists the pairs `(k, l)` of the stores `B[l][k] = A[k][l]`, in order.  It
plays no part in the steps.

The loops visit blocks, and blocks make up the whole matrix.  For `M = 32` and `M = 64`
the loops are made for a square matrix, whatever `N` is.
-/

import CsappLabs.CacheLab.Csim
import CsappLabs.Lib.Loops
import Mathlib.LinearAlgebra.Matrix.Defs

namespace CsappLabs
namespace CacheLab

open Lib Lib.CInt Lib.Loops

variable {M N : ℕ}

/-- The matrix `B`, and the stores to it so far. -/
structure Target (M N : ℕ) where
  B : Matrix (Fin M) (Fin N) ℤ
  visited : List (ℕ × ℕ)

/-- `A[k][l]` -/
def load (A : Matrix (Fin N) (Fin M) ℤ) (k l : ℕ) : Option ℤ :=
  if h : k < N ∧ l < M then some (A ⟨k, h.1⟩ ⟨l, h.2⟩) else none

/-- `B[l][k] = v` -/
def store (l k : ℕ) (v : ℤ) (s : Target M N) : Option (Target M N) :=
  if l < M ∧ k < N then
    some {
      B := fun y x => if (x : ℕ) = k ∧ (y : ℕ) = l then v else s.B y x
      visited := s.visited ++ [(k, l)] }
  else none

/-- `trans` -/
def trans (A : Matrix (Fin N) (Fin M) ℤ) (s : Target M N) : Option (Target M N) :=
  forLoop (fun i => some (i < N)) 1
    (fun i => forLoop (fun j => some (j < M)) 1
      (fun j s => do
        let tmp ← load A i j
        store j i tmp s) 0) 0 s

/-- The body of the loops for `M = 32`. -/
def move8 (A : Matrix (Fin N) (Fin M) ℤ) (j k : ℕ) (s : Target M N) : Option (Target M N) := do
  let v1 ← load A k j
  let v2 ← load A k (j + 1)
  let v3 ← load A k (j + 2)
  let v4 ← load A k (j + 3)
  let v5 ← load A k (j + 4)
  let v6 ← load A k (j + 5)
  let v7 ← load A k (j + 6)
  let v8 ← load A k (j + 7)
  let s ← store j k v1 s
  let s ← store (j + 1) k v2 s
  let s ← store (j + 2) k v3 s
  let s ← store (j + 3) k v4 s
  let s ← store (j + 4) k v5 s
  let s ← store (j + 5) k v6 s
  let s ← store (j + 6) k v7 s
  store (j + 7) k v8 s

/-- The body of the loops for `M = 64`. -/
def move4 (A : Matrix (Fin N) (Fin M) ℤ) (j k : ℕ) (s : Target M N) : Option (Target M N) := do
  let v1 ← load A k j
  let v2 ← load A k (j + 1)
  let v3 ← load A k (j + 2)
  let v4 ← load A k (j + 3)
  let s ← store j k v1 s
  let s ← store (j + 1) k v2 s
  let s ← store (j + 2) k v3 s
  store (j + 3) k v4 s

/-- The loops for `M = 32` and `M = 64`: blocks of `d` columns and `d` rows, as far as
`n`. -/
def squareLoops (n : ℕ) (d : ℕ+) (move : ℕ → ℕ → Target M N → Option (Target M N))
    (s : Target M N) : Option (Target M N) :=
  forLoop (fun i => some (i < n)) d
    (fun i => forLoop (fun j => some (j < n)) d
      (fun j => forLoop (fun k => (addInt i d).map (k < ·)) 1 (move j) i) 0) 0 s

/-- `transpose_submit` -/
def transposeSubmit (A : Matrix (Fin N) (Fin M) ℤ) (s : Target M N) : Option (Target M N) :=
  if M = 32 then squareLoops 32 8 (move8 A) s
  else if M = 64 then squareLoops M 4 (move4 A) s
  else
    forLoop (fun i => some (i < N)) 17
      (fun i => forLoop (fun j => some (j < M)) 17
        (fun j => forLoop (fun k => (addInt i 17).map fun e => k < e && k < N) 1
          (fun k => forLoop (fun l => (addInt j 17).map fun e => l < e && l < M) 1
            (fun l s => do
              let v ← load A k l
              store l k v s) j) i) 0) 0 s

variable {A : Matrix (Fin N) (Fin M) ℤ} {B : Matrix (Fin M) (Fin N) ℤ} {s s' : Target M N}
  {j k l n m : ℕ} {d : ℕ+}

/-! ### The matrix -/

/-- The entries stored are those of `A`, the others are as before. -/
def Moved (A : Matrix (Fin N) (Fin M) ℤ) (B : Matrix (Fin M) (Fin N) ℤ) (s : Target M N) : Prop :=
  ∀ (l : Fin M) (k : Fin N), s.B l k = if ((k : ℕ), (l : ℕ)) ∈ s.visited then A k l else B l k

theorem load_of_lt (hk : k < N) (hl : l < M) : load A k l = some (A ⟨k, hk⟩ ⟨l, hl⟩) :=
  dif_pos ⟨hk, hl⟩

/-- A store of the element of `A`. -/
theorem passes_store (hk : k < N) (hl : l < M) :
    Passes (Moved A B) Target.visited (store l k (A ⟨k, hk⟩ ⟨l, hl⟩)) [(k, l)] := by
  intro s hs
  refine ⟨_, if_pos ⟨hl, hk⟩, fun y x => ?_, rfl⟩
  have hold := hs y x
  simp only [List.mem_append, List.mem_singleton, Prod.mk.injEq]
  by_cases h : (x : ℕ) = k ∧ (y : ℕ) = l
  · obtain ⟨rfl, rfl⟩ := h
    simp
  · simpa [h] using hold

theorem passes_move (hk : k < N) (hl : l < M) :
    Passes (Moved A B) Target.visited (fun s => do let v ← load A k l; store l k v s)
      [(k, l)] := by
  simp only [load_of_lt hk hl, Option.bind_eq_bind, Option.bind_some]
  exact passes_store hk hl

/-- The moves of a part of a row, one after the other. -/
def moveRow (A : Matrix (Fin N) (Fin M) ℤ) (k : ℕ) (ls : List ℕ) (s : Target M N) :
    Option (Target M N) :=
  ls.foldlM (fun s l => (load A k l).bind fun v => store l k v s) s

theorem passes_moveRow (hk : k < N) (hj : j + n ≤ M) :
    Passes (Moved A B) Target.visited (moveRow A k (List.range' j n))
      ((List.range' j n).map fun l => (k, l)) := by
  induction n generalizing j with
  | zero => exact fun s hs => ⟨s, rfl, hs, (List.append_nil _).symm⟩
  | succ n ih => exact (passes_move hk (by omega)).bind (ih (by omega))

/-- Eight loads and eight stores. -/
theorem passes_move8 (hk : k < N) (hj : j + 8 ≤ M) :
    Passes (Moved A B) Target.visited (move8 A j k) ((List.range' j 8).map fun l => (k, l)) := by
  have hrow : move8 A j k = moveRow A k (List.range' j 8) := by
    funext s
    simp [move8, moveRow, List.range', load_of_lt hk, show j < M by omega, show j + 1 < M by omega,
      show j + 2 < M by omega, show j + 3 < M by omega, show j + 4 < M by omega,
      show j + 5 < M by omega, show j + 6 < M by omega, show j + 7 < M by omega]
  exact hrow ▸ passes_moveRow hk hj

/-- Four loads and four stores. -/
theorem passes_move4 (hk : k < N) (hj : j + 4 ≤ M) :
    Passes (Moved A B) Target.visited (move4 A j k) ((List.range' j 4).map fun l => (k, l)) := by
  have hrow : move4 A j k = moveRow A k (List.range' j 4) := by
    funext s
    simp [move4, moveRow, List.range', load_of_lt hk, show j < M by omega, show j + 1 < M by omega,
      show j + 2 < M by omega, show j + 3 < M by omega]
  exact hrow ▸ passes_moveRow hk hj

/-! ### The loops -/

/-- The result of a program that passes the pairs of the first `n` rows and `m` columns. -/
theorem moved_of_passes {f : Target M N → Option (Target M N)} {L : List (ℕ × ℕ)}
    (hf : Passes (Moved A B) Target.visited f L) (hL : L.Perm (List.range n ×ˢ List.range m)) :
    ∃ s, f ⟨B, []⟩ = some s ∧ s.visited = L ∧
      ∀ l k, s.B l k = if (k : ℕ) < n ∧ (l : ℕ) < m then A k l else B l k := by
  obtain ⟨s, he, hs, hv⟩ := hf ⟨B, []⟩ fun l k => by simp
  rw [List.nil_append] at hv
  refine ⟨s, he, hv, fun l k => ?_⟩
  rw [hs l k, hv]
  simp only [hL.mem_iff, List.mem_product, List.mem_range]

/-- The program keeps to `A` and `B`, and leaves the transpose of `A` in `B`. -/
def Transposes (f : Target M N → Option (Target M N)) (A : Matrix (Fin N) (Fin M) ℤ)
    (B : Matrix (Fin M) (Fin N) ℤ) : Prop :=
  ∃ s, f ⟨B, []⟩ = some s ∧ s.B = A.transpose

/-- **`trans` transposes.** -/
theorem trans_transposes (A : Matrix (Fin N) (Fin M) ℤ) (B : Matrix (Fin M) (Fin N) ℤ)
    (hM : M < 2 ^ 31) (hN : N < 2 ^ 31) : Transposes (trans A) A B := by
  have hpass : Passes (Moved A B) Target.visited (trans A)
      ((List.range' 0 (N - 0)).flatMap fun i => (List.range' 0 (M - 0)).flatMap fun j =>
        [(i, j)]) :=
    Passes.between (fun _ => rfl) (Nat.zero_le _) hN fun i _ hi =>
      Passes.between (fun _ => rfl) (Nat.zero_le _) hM fun j _ hj => passes_move hi hj
  have hrange : ((List.range' 0 (N - 0)).flatMap fun i => (List.range' 0 (M - 0)).flatMap fun j =>
      [(i, j)]) = List.range N ×ˢ List.range M := by
    simp only [Nat.sub_zero, ← List.range_eq_range', ← List.map_eq_flatMap]
    rfl
  obtain ⟨s, he, -, hB⟩ := moved_of_passes hpass (.of_eq hrange)
  refine ⟨s, he, Matrix.ext fun l k => ?_⟩
  rw [hB, if_pos ⟨k.isLt, l.isLt⟩, Matrix.transpose_apply]

/-- The loops over a block of rows and columns. -/
theorem passes_block {i d' d'' : ℕ} {f : ℕ → ℕ → Target M N → Option (Target M N)}
    {condk condl : ℕ → Option Bool}
    (hk : ∀ k, condk k = some (decide (k < i + d')))
    (hl : ∀ l, condl l = some (decide (l < j + d'')))
    (hi : i + d' < 2 ^ 31) (hj : j + d'' < 2 ^ 31)
    (hf : ∀ k l, k < i + d' → l < j + d'' → Passes (Moved A B) Target.visited (f k l) [(k, l)]) :
    Passes (Moved A B) Target.visited (forLoop condk 1 (fun k => forLoop condl 1 (f k) j) i)
      ((List.range' i d').flatMap fun k => (List.range' j d'').map fun l => (k, l)) := by
  have hrow := Passes.between hk (Nat.le_add_right i d') hi fun k _ hk' =>
    Passes.between hl (Nat.le_add_right j d'') hj fun l _ hl' => hf k l hk' hl'
  simpa only [Nat.add_sub_cancel_left, ← List.map_eq_flatMap] using hrow

/-- **The blocked loops** visit every pair once, for matrices of other widths. -/
theorem transposeSubmit_eq (A : Matrix (Fin N) (Fin M) ℤ) (B : Matrix (Fin M) (Fin N) ℤ)
    (hM : M + 17 < 2 ^ 31) (hN : N + 17 < 2 ^ 31) (h32 : M ≠ 32) (h64 : M ≠ 64) :
    ∃ s, transposeSubmit A ⟨B, []⟩ = some s ∧ s.B = A.transpose ∧
      s.visited.Perm (List.range N ×ˢ List.range M) := by
  -- a block ends behind 17 rows or columns, or at the edge of the matrix
  have hcond : ∀ n i, i < n → n + 17 < 2 ^ 31 → ∀ k,
      (addInt i 17).map (fun e => decide (k < e) && decide (k < n)) =
        some (decide (k < i + min 17 (n - i))) := by
    intro n i hi hn k
    rw [addInt_of_lt (by omega), Option.map_some, ← Bool.decide_and]
    exact congrArg some (decide_eq_decide.2 (by omega))
  obtain ⟨L, hL, hpass⟩ := Passes.tiles (d := 17) hN.le hM.le fun i hi _ j hj _ =>
    passes_block (A := A) (B := B) (hcond N i hi hN) (hcond M j hj hM) (by omega) (by omega)
      fun k l hk hl => passes_move (by omega) (by omega)
  obtain ⟨s, he, hv, hB⟩ := moved_of_passes hpass hL
  refine ⟨s, ?_, Matrix.ext fun l k => ?_, hv ▸ hL⟩
  · rw [← he, transposeSubmit, if_neg h32, if_neg h64]
  · rw [hB, if_pos ⟨k.isLt, l.isLt⟩, Matrix.transpose_apply]

/-- **The loops for a square** visit every pair of its rows and columns once. -/
theorem squareLoops_eq {move : ℕ → ℕ → Target M N → Option (Target M N)} (hd : (d : ℕ) ∣ n)
    (hn : n + d ≤ 2 ^ 31) (hmove : ∀ k < n, ∀ j, j + d ≤ n →
      Passes (Moved A B) Target.visited (move j k) ((List.range' j d).map fun l => (k, l))) :
    ∃ s, squareLoops n d move ⟨B, []⟩ = some s ∧
      ∀ l k, s.B l k = if (k : ℕ) < n ∧ (l : ℕ) < n then A k l else B l k := by
  have hfit : ∀ i < n, (d : ℕ) ∣ i → i + d ≤ n := fun i hi hdi =>
    Nat.add_le_of_le_sub' hi.le (Nat.le_of_dvd (by omega) (Nat.dvd_sub hd hdi))
  have hd1 := d.pos
  obtain ⟨L, hL, hpass⟩ : ∃ L, L.Perm (List.range n ×ˢ List.range n) ∧
      Passes (Moved A B) Target.visited (squareLoops n d move) L := by
    refine Passes.tiles hn hn fun i hi hdi j hj hdj => ?_
    have hi' := hfit i hi hdi
    have hj' := hfit j hj hdj
    have hrow : Passes (Moved A B) Target.visited
        (forLoop (fun k => (addInt i d).map (k < ·)) 1 (move j) i) _ :=
      Passes.between (fun k => by rw [addInt_of_lt (by omega), Option.map_some])
        (Nat.le_add_right i d) (by omega) fun k _ hk => hmove k (by omega) j hj'
    rw [Nat.min_eq_left (by omega), Nat.min_eq_left (by omega)]
    simpa only [Nat.add_sub_cancel_left] using hrow
  obtain ⟨s, he, -, hB⟩ := moved_of_passes hpass hL
  exact ⟨s, he, hB⟩

/-- With fewer rows they come to the row behind the last one. -/
theorem squareLoops_none {move : ℕ → ℕ → Target M N → Option (Target M N)}
    (hn : n + d ≤ 2 ^ 31) (hN : N < n) (hmove : ∀ t, move 0 N t = none) :
    squareLoops n d move s = none := by
  by_contra hsome
  obtain ⟨s', he⟩ := Option.ne_none_iff_exists'.1 hsome
  have hle := Nat.mul_div_le N d
  have hlt := Nat.lt_mul_div_succ N d.pos
  rw [Nat.mul_succ] at hlt
  obtain ⟨t, t', ht⟩ := exists_round (m := N / d) he fun r hr => by
    have := Nat.mul_le_mul_left (d : ℕ) hr
    simp only [Option.some.injEq, decide_eq_true_eq]
    omega
  obtain ⟨u, u', hu⟩ := exists_round (m := 0) ht fun r hr => by
    obtain rfl := Nat.le_zero.1 hr
    simp only [Option.some.injEq, decide_eq_true_eq]
    omega
  obtain ⟨v, v', hv⟩ := exists_round (m := N - d * (N / d)) hu fun r hr => by
    rw [addInt_of_lt (by omega), Option.map_some, PNat.one_coe]
    exact congrArg some (decide_eq_true (by omega))
  have hk : 0 + d * (N / d) + ((1 : ℕ+) : ℕ) * (N - d * (N / d)) = N := by
    rw [PNat.one_coe]
    omega
  rw [hk, Nat.mul_zero, Nat.zero_add, hmove] at hv
  simp at hv

/-- **The loops for a square** transpose a square matrix.  With more rows they leave the
others out. -/
theorem squareLoops_transposes_iff {move : ℕ → ℕ → Target M N → Option (Target M N)}
    (hd : (d : ℕ) ∣ M) (hM : M + d ≤ 2 ^ 31) (hnone : N < M → ∀ t, move 0 N t = none)
    (hmove : ∀ k < N, ∀ j, j + d ≤ M →
      Passes (Moved A B) Target.visited (move j k) ((List.range' j d).map fun l => (k, l))) :
    Transposes (squareLoops M d move) A B ↔
      M ≤ N ∧ ∀ (l : Fin M) (k : Fin N), M ≤ (k : ℕ) → B l k = A k l := by
  rcases Nat.lt_or_ge N M with h | h
  · simp [Transposes, squareLoops_none hM h (hnone h), Nat.not_le.2 h]
  · obtain ⟨s, he, hB⟩ := squareLoops_eq hd hM fun k hk => hmove k (hk.trans_le h)
    constructor
    · rintro ⟨s', he', hB'⟩
      refine ⟨h, fun l k hk => ?_⟩
      obtain rfl := Option.some.inj (he.symm.trans he')
      have hlk := hB l k
      rw [if_neg (by omega), hB', Matrix.transpose_apply] at hlk
      exact hlk.symm
    · rintro ⟨-, hold⟩
      refine ⟨s, he, Matrix.ext fun l k => ?_⟩
      rw [hB, Matrix.transpose_apply]
      split_ifs with hk
      · rfl
      · exact hold l k (by omega)

/-- Behind the last row there is nothing to read. -/
theorem load_none (j : ℕ) : load A N j = none := dif_neg fun h => lt_irrefl N h.1

theorem transposeSubmit_iff (hM : M = 32 ∨ M = 64) (A : Matrix (Fin N) (Fin M) ℤ)
    (B : Matrix (Fin M) (Fin N) ℤ) : Transposes (transposeSubmit A) A B ↔
      M ≤ N ∧ ∀ (l : Fin M) (k : Fin N), M ≤ (k : ℕ) → B l k = A k l := by
  rcases hM with rfl | rfl
  · have hloops : transposeSubmit A = squareLoops 32 8 (move8 A) := by
      funext s
      rw [transposeSubmit, if_pos rfl]
    rw [hloops]
    refine squareLoops_transposes_iff (by decide) (by decide) (fun _ t => ?_) fun k hk j hj => ?_
    · simp [move8, load_none]
    · rw [PNat.val_ofNat] at hj
      exact passes_move8 hk (by omega)
  · have hloops : transposeSubmit A = squareLoops 64 4 (move4 A) := by
      funext s
      rw [transposeSubmit, if_neg (by decide), if_pos rfl]
    rw [hloops]
    refine squareLoops_transposes_iff (by decide) (by decide) (fun _ t => ?_) fun k hk j hj => ?_
    · simp [move4, load_none]
    · rw [PNat.val_ofNat] at hj
      exact passes_move4 hk (by omega)

/-- **The tuned loops** do what `trans` does exactly on a square matrix: with fewer rows
they read behind `A`, and with more they leave rows out, which changes nothing only if
these were in `B` before. -/
theorem tuned_iff (hM : M = 32 ∨ M = 64) (hN : N < 2 ^ 31) :
    (∀ (A : Matrix (Fin N) (Fin M) ℤ) (B : Matrix (Fin M) (Fin N) ℤ),
      Transposes (trans A) A B ∧ (Transposes (transposeSubmit A) A B ↔
        M ≤ N ∧ ∀ (l : Fin M) (k : Fin N), M ≤ (k : ℕ) → B l k = A k l)) ∧
    ((∀ (A : Matrix (Fin N) (Fin M) ℤ) (B : Matrix (Fin M) (Fin N) ℤ),
      Transposes (transposeSubmit A) A B) ↔ N = M) := by
  have hM' : 0 < M ∧ M < 2 ^ 31 := by omega
  refine ⟨fun A B => ⟨trans_transposes A B hM'.2 hN, transposeSubmit_iff hM A B⟩,
    fun hall => ?_, fun h A B => ?_⟩
  · obtain ⟨hle, hrest⟩ := (transposeSubmit_iff hM _ _).1 (hall (Matrix.of fun _ _ => 1) 0)
    by_contra hne
    exact absurd (hrest ⟨0, hM'.1⟩ ⟨M, by omega⟩ le_rfl) (by norm_num)
  · exact (transposeSubmit_iff hM A B).2 ⟨h.ge, fun l k hk => by omega⟩

/-- Thirty-two rows of 32 different numbers. -/
def square : Matrix (Fin 32) (Fin 32) ℤ := .of fun k l => 32 * (k : ℤ) + l

theorem tuned_iff_square : Transposes (transposeSubmit square) square 0 :=
  (tuned_iff (.inl rfl) (by decide)).2.2 rfl square 0

/-- Of one row, `transpose_submit` goes on to read the next; of 33 it leaves out the last. -/
theorem tuned_not_transposes :
    ¬Transposes (transposeSubmit (M := 32) (N := 1) (.of fun _ _ => 1)) (.of fun _ _ => 1) 0 ∧
      ¬Transposes (transposeSubmit (M := 32) (N := 33) (.of fun _ _ => 1)) (.of fun _ _ => 1) 0 := by
  constructor <;> rw [transposeSubmit_iff (.inl rfl)]
  · exact fun h => absurd h.1 (by decide)
  · exact fun h => absurd (h.2 0 32 le_rfl) (by decide)

/-- **The blocked loops** visit every pair of a row and a column once, and no other,
and leave in `B` what `trans` leaves. -/
theorem blocked_transposes (hM : M + 17 < 2 ^ 31) (hN : N + 17 < 2 ^ 31) (h32 : M ≠ 32)
    (h64 : M ≠ 64) (A : Matrix (Fin N) (Fin M) ℤ) (B : Matrix (Fin M) (Fin N) ℤ) :
    ∃ s, transposeSubmit A ⟨B, []⟩ = some s ∧ s.visited.Nodup ∧
      (∀ k l, (k, l) ∈ s.visited ↔ k < N ∧ l < M) ∧
      ∃ s', trans A ⟨B, []⟩ = some s' ∧ s.B = s'.B ∧ s.B = A.transpose := by
  obtain ⟨s, he, hB, hL⟩ := transposeSubmit_eq A B hM hN h32 h64
  obtain ⟨s', he', hB'⟩ := trans_transposes A B (by omega) (by omega)
  refine ⟨s, he, hL.nodup_iff.2 (List.nodup_range.product List.nodup_range), fun k l => ?_,
    s', he', hB.trans hB'.symm, hB⟩
  rw [hL.mem_iff, List.mem_product, List.mem_range, List.mem_range]

/-- Three rows of two different numbers. -/
def numbered : Matrix (Fin 3) (Fin 2) ℤ := .of fun k l => 2 * (k : ℤ) + l

theorem blocked_transposes_numbered : ∃ s, transposeSubmit numbered ⟨0, []⟩ = some s ∧
    s.visited.Nodup ∧ (∀ k l, (k, l) ∈ s.visited ↔ k < 3 ∧ l < 2) ∧
    ∃ s', trans numbered ⟨0, []⟩ = some s' ∧ s.B = s'.B ∧ s.B = numbered.transpose :=
  blocked_transposes (by decide) (by decide) (by decide) (by decide) numbered 0

/-! ### The accesses

`transpose_submit` once more, on matrices that lie in memory: `A` at the address `a` and `B` at
`b`.  Each load and store of an element is a record of the trace, as `csim` reads it.  The
local variables are registers, and no records. -/

/-- The matrix `B`, with the records so far. -/
structure Recorded (M N : ℕ) extends Target M N where
  trace : List Record

/-- `A[k][l]` -/
def loadAt (A : Matrix (Fin N) (Fin M) ℤ) (a k l : ℕ) (s : Recorded M N) :
    Option (ℤ × Recorded M N) :=
  (load A k l).map fun v => (v, { s with trace := s.trace ++ [⟨'L', a + 4 * (M * k + l)⟩] })

/-- `B[l][k] = v` -/
def storeAt (b l k : ℕ) (v : ℤ) (s : Recorded M N) : Option (Recorded M N) :=
  (store l k v s.toTarget).map fun t =>
    { t with trace := s.trace ++ [⟨'S', b + 4 * (N * l + k)⟩] }

/-- The body of the loops for `M = 32`. -/
def move8At (A : Matrix (Fin N) (Fin M) ℤ) (a b j k : ℕ) (s : Recorded M N) :
    Option (Recorded M N) := do
  let (v1, s) ← loadAt A a k j s
  let (v2, s) ← loadAt A a k (j + 1) s
  let (v3, s) ← loadAt A a k (j + 2) s
  let (v4, s) ← loadAt A a k (j + 3) s
  let (v5, s) ← loadAt A a k (j + 4) s
  let (v6, s) ← loadAt A a k (j + 5) s
  let (v7, s) ← loadAt A a k (j + 6) s
  let (v8, s) ← loadAt A a k (j + 7) s
  let s ← storeAt b j k v1 s
  let s ← storeAt b (j + 1) k v2 s
  let s ← storeAt b (j + 2) k v3 s
  let s ← storeAt b (j + 3) k v4 s
  let s ← storeAt b (j + 4) k v5 s
  let s ← storeAt b (j + 5) k v6 s
  let s ← storeAt b (j + 6) k v7 s
  storeAt b (j + 7) k v8 s

/-- The body of the loops for `M = 64`. -/
def move4At (A : Matrix (Fin N) (Fin M) ℤ) (a b j k : ℕ) (s : Recorded M N) :
    Option (Recorded M N) := do
  let (v1, s) ← loadAt A a k j s
  let (v2, s) ← loadAt A a k (j + 1) s
  let (v3, s) ← loadAt A a k (j + 2) s
  let (v4, s) ← loadAt A a k (j + 3) s
  let s ← storeAt b j k v1 s
  let s ← storeAt b (j + 1) k v2 s
  let s ← storeAt b (j + 2) k v3 s
  storeAt b (j + 3) k v4 s

/-- The loops for `M = 32` and `M = 64`. -/
def squareLoopsAt (n : ℕ) (d : ℕ+) (move : ℕ → ℕ → Recorded M N → Option (Recorded M N))
    (s : Recorded M N) : Option (Recorded M N) :=
  forLoop (fun i => some (i < n)) d
    (fun i => forLoop (fun j => some (j < n)) d
      (fun j => forLoop (fun k => (addInt i d).map (k < ·)) 1 (move j) i) 0) 0 s

/-- `transpose_submit` -/
def transposeSubmitAt (A : Matrix (Fin N) (Fin M) ℤ) (a b : ℕ) (s : Recorded M N) :
    Option (Recorded M N) :=
  if M = 32 then squareLoopsAt 32 8 (move8At A a b) s
  else if M = 64 then squareLoopsAt M 4 (move4At A a b) s
  else
    forLoop (fun i => some (i < N)) 17
      (fun i => forLoop (fun j => some (j < M)) 17
        (fun j => forLoop (fun k => (addInt i 17).map fun e => k < e && k < N) 1
          (fun k => forLoop (fun l => (addInt j 17).map fun e => l < e && l < M) 1
            (fun l s => do
              let (v, s) ← loadAt A a k l s
              storeAt b l k v s) j) i) 0) 0 s

variable {a b : ℕ} {v : ℤ} {s : Recorded M N}

/-! ### Without the trace -/

variable {t : Target M N}

theorem storeAt_target (ht : s.toTarget = t) :
    (storeAt b l k v s).map Recorded.toTarget = store l k v t := by
  subst ht
  rw [storeAt, Option.map_map]
  cases store l k v s.toTarget <;> rfl

/-- A load, and what is done with the value. -/
theorem loadAt_bind_target {f : ℤ × Recorded M N → Option (Recorded M N)}
    {g : ℤ → Option (Target M N)} (ht : s.toTarget = t)
    (h : ∀ v s', s'.toTarget = t → (f (v, s')).map Recorded.toTarget = g v) :
    ((loadAt A a k l s).bind f).map Recorded.toTarget = (load A k l).bind g := by
  unfold loadAt
  cases load A k l with
  | none => rfl
  | some v => exact h v _ ht

/-- A store, and what is done then. -/
theorem storeAt_bind_target {f : Recorded M N → Option (Recorded M N)}
    {g : Target M N → Option (Target M N)} (ht : s.toTarget = t)
    (h : ∀ s' t', s'.toTarget = t' → (f s').map Recorded.toTarget = g t') :
    ((storeAt b l k v s).bind f).map Recorded.toTarget = (store l k v t).bind g := by
  subst ht
  unfold storeAt
  cases store l k v s.toTarget with
  | none => rfl
  | some t' => exact h _ t' rfl

theorem move4At_target : (move4At A a b j k s).map Recorded.toTarget = move4 A j k s.toTarget := by
  refine loadAt_bind_target rfl fun v1 s1 h1 => loadAt_bind_target h1 fun v2 s2 h2 => ?_
  refine loadAt_bind_target h2 fun v3 s3 h3 => loadAt_bind_target h3 fun v4 s4 h4 => ?_
  refine storeAt_bind_target h4 fun s5 t5 h5 => storeAt_bind_target h5 fun s6 t6 h6 => ?_
  exact storeAt_bind_target h6 fun s7 t7 h7 => storeAt_target h7

theorem move8At_target : (move8At A a b j k s).map Recorded.toTarget = move8 A j k s.toTarget := by
  refine loadAt_bind_target rfl fun v1 s1 h1 => loadAt_bind_target h1 fun v2 s2 h2 => ?_
  refine loadAt_bind_target h2 fun v3 s3 h3 => loadAt_bind_target h3 fun v4 s4 h4 => ?_
  refine loadAt_bind_target h4 fun v5 s5 h5 => loadAt_bind_target h5 fun v6 s6 h6 => ?_
  refine loadAt_bind_target h6 fun v7 s7 h7 => loadAt_bind_target h7 fun v8 s8 h8 => ?_
  refine storeAt_bind_target h8 fun s9 t9 h9 => storeAt_bind_target h9 fun s10 t10 h10 => ?_
  refine storeAt_bind_target h10 fun s11 t11 h11 => storeAt_bind_target h11 fun s12 t12 h12 => ?_
  refine storeAt_bind_target h12 fun s13 t13 h13 => storeAt_bind_target h13 fun s14 t14 h14 => ?_
  exact storeAt_bind_target h14 fun s15 t15 h15 => storeAt_target h15

theorem squareLoopsAt_target {move : ℕ → ℕ → Recorded M N → Option (Recorded M N)}
    {move' : ℕ → ℕ → Target M N → Option (Target M N)}
    (h : ∀ j k s, (move j k s).map Recorded.toTarget = move' j k s.toTarget) :
    (squareLoopsAt n d move s).map Recorded.toTarget = squareLoops n d move' s.toTarget :=
  forLoop_map (fun _ => forLoop_map (fun j => forLoop_map (h j) _) _) _ _

/-- **The trace plays no part**: the matrix is that of `transpose_submit`. -/
theorem transposeSubmitAt_target : (transposeSubmitAt A a b s).map Recorded.toTarget =
    transposeSubmit A s.toTarget := by
  unfold transposeSubmitAt transposeSubmit
  split_ifs
  · exact squareLoopsAt_target fun _ _ _ => move8At_target
  · exact squareLoopsAt_target fun _ _ _ => move4At_target
  · refine forLoop_map (fun _ => forLoop_map (fun _ => forLoop_map (fun _ =>
      forLoop_map (fun _ s => ?_) _) _) _) _ _
    exact loadAt_bind_target rfl fun v s' hs => storeAt_target hs

/-! ### The trace -/

/-- The function makes these records. -/
abbrev Emits (f : Recorded M N → Option (Recorded M N)) (rs : List Record) : Prop :=
  Passes (fun _ => True) Recorded.trace f rs

/-- The loads of a part of a row of `A`, and the stores to a part of a column of `B`. -/
def rowTrace (M N a b n j k : ℕ) : List Record :=
  (List.range' j n).map (fun l => ⟨'L', a + 4 * (M * k + l)⟩) ++
    (List.range' j n).map fun l => ⟨'S', b + 4 * (N * l + k)⟩

theorem emits_loadAt {f : ℤ × Recorded M N → Option (Recorded M N)} {rs : List Record} (hk : k < N)
    (hl : l < M) (h : ∀ v, Emits (fun s => f (v, s)) rs) :
    Emits (fun s => (loadAt A a k l s).bind f) (⟨'L', a + 4 * (M * k + l)⟩ :: rs) := by
  intro s _
  obtain ⟨s', he, -, ht⟩ := h (A ⟨k, hk⟩ ⟨l, hl⟩)
    { s with trace := s.trace ++ [⟨'L', a + 4 * (M * k + l)⟩] } trivial
  refine ⟨s', ?_, trivial, by rw [ht, List.append_assoc, List.singleton_append]⟩
  simp only [loadAt, load_of_lt hk hl, Option.map_some, Option.bind_some, he]

theorem emits_storeAt (hk : k < N) (hl : l < M) (v : ℤ) :
    Emits (storeAt (M := M) (N := N) b l k v) [⟨'S', b + 4 * (N * l + k)⟩] := by
  intro s _
  obtain ⟨t, ht⟩ : ∃ t, store l k v s.toTarget = some t := ⟨_, if_pos ⟨hl, hk⟩⟩
  refine ⟨{ t with trace := s.trace ++ [⟨'S', b + 4 * (N * l + k)⟩] }, ?_, trivial, rfl⟩
  rw [storeAt, ht, Option.map_some]

theorem emits_move4At (hk : k < N) (hj : j + 4 ≤ M) :
    Emits (move4At A a b j k) (rowTrace M N a b 4 j k) := by
  have hstore : ∀ v1 v2 v3 v4, Emits (M := M) (N := N) (fun s => do
      let s ← storeAt b j k v1 s
      let s ← storeAt b (j + 1) k v2 s
      let s ← storeAt b (j + 2) k v3 s
      storeAt b (j + 3) k v4 s) ((List.range' j 4).map fun l => ⟨'S', b + 4 * (N * l + k)⟩) :=
    fun v1 v2 v3 v4 => (emits_storeAt hk (by omega) v1).bind <|
      (emits_storeAt hk (by omega) v2).bind <| (emits_storeAt hk (by omega) v3).bind <|
        emits_storeAt hk (by omega) v4
  exact emits_loadAt hk (by omega) fun v1 => emits_loadAt hk (by omega) fun v2 =>
    emits_loadAt hk (by omega) fun v3 => emits_loadAt hk (by omega) fun v4 => hstore v1 v2 v3 v4

theorem emits_move8At (hk : k < N) (hj : j + 8 ≤ M) :
    Emits (move8At A a b j k) (rowTrace M N a b 8 j k) := by
  have hstore : ∀ v1 v2 v3 v4 v5 v6 v7 v8, Emits (M := M) (N := N) (fun s => do
      let s ← storeAt b j k v1 s
      let s ← storeAt b (j + 1) k v2 s
      let s ← storeAt b (j + 2) k v3 s
      let s ← storeAt b (j + 3) k v4 s
      let s ← storeAt b (j + 4) k v5 s
      let s ← storeAt b (j + 5) k v6 s
      let s ← storeAt b (j + 6) k v7 s
      storeAt b (j + 7) k v8 s) ((List.range' j 8).map fun l => ⟨'S', b + 4 * (N * l + k)⟩) :=
    fun v1 v2 v3 v4 v5 v6 v7 v8 => (emits_storeAt hk (by omega) v1).bind <|
      (emits_storeAt hk (by omega) v2).bind <| (emits_storeAt hk (by omega) v3).bind <|
        (emits_storeAt hk (by omega) v4).bind <| (emits_storeAt hk (by omega) v5).bind <|
          (emits_storeAt hk (by omega) v6).bind <| (emits_storeAt hk (by omega) v7).bind <|
            emits_storeAt hk (by omega) v8
  exact emits_loadAt hk (by omega) fun v1 => emits_loadAt hk (by omega) fun v2 =>
    emits_loadAt hk (by omega) fun v3 => emits_loadAt hk (by omega) fun v4 =>
      emits_loadAt hk (by omega) fun v5 => emits_loadAt hk (by omega) fun v6 =>
        emits_loadAt hk (by omega) fun v7 => emits_loadAt hk (by omega) fun v8 =>
          hstore v1 v2 v3 v4 v5 v6 v7 v8

/-- **The trace of the loops for a square**: block after block, row after row. -/
theorem emits_squareLoopsAt {move : ℕ → ℕ → Recorded M N → Option (Recorded M N)}
    {p : ℕ → ℕ → List Record} (hd : (d : ℕ) ∣ n) (hn : n + d ≤ 2 ^ 31)
    (hmove : ∀ k < n, ∀ j, j + d ≤ n → Emits (move j k) (p j k)) :
    Emits (squareLoopsAt n d move)
      ((List.range' 0 (n ⌈/⌉ (d : ℕ)) d).flatMap fun i =>
        (List.range' 0 (n ⌈/⌉ (d : ℕ)) d).flatMap fun j => (List.range' i d).flatMap (p j)) := by
  have hfit : ∀ i < n, (d : ℕ) ∣ i → i + d ≤ n := fun i hi hdi =>
    Nat.add_le_of_le_sub' hi.le (Nat.le_of_dvd (by omega) (Nat.dvd_sub hd hdi))
  refine Passes.upto hn fun i hi hdi => Passes.upto hn fun j hj hdj => ?_
  have hi' := hfit i hi hdi
  have hj' := hfit j hj hdj
  have hrow : Emits (forLoop (fun k => (addInt i d).map (k < ·)) 1 (move j) i) _ :=
    Passes.between (fun k => by rw [addInt_of_lt (by omega), Option.map_some])
      (Nat.le_add_right i d) (by omega) fun k _ hk => hmove k (by omega) j hj'
  simpa only [Nat.add_sub_cancel_left] using hrow

end CacheLab
end CsappLabs
