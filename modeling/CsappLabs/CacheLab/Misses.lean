/-
# The misses of the tuned transposes

`transpose_submit` is rated by its misses in a direct mapped cache of 1 KB with blocks of 32
bytes.  For the sizes it is tuned for, their number does not depend on where the two matrices
lie: 284 for 32 rows of 32 numbers and 1696 for 64 rows of 64.

A block of the loops is a tile: a row of `A` goes to one cache block, and a column of `B` to one
in each row.  A row and a block of the column that share a set cost a miss each time, and over
the tiles of one strip each row meets this once (`conflicts32`, `conflicts64`).
-/

import Mathlib.Data.Nat.ModEq
import CsappLabs.CacheLab.Reuse
import CsappLabs.CacheLab.Trans
import CsappLabs.Lib.DirectMapped

namespace CsappLabs
namespace CacheLab

open Lib Lib.Loops Lib.Recency Lib.DirectMapped

variable {p : Params} {past as : List ℕ} {sim : Sim} {trace : List Record} {a b x y : ℕ}

/-! ### One line in a set -/

/-- The set of a block. -/
def Params.setOf (p : Params) (block : ℕ) : ℕ := block % 2 ^ p.s

/-- A block is held if its tag is the last one in its set. -/
theorem holds_iff_recent (hd : p.Defined) (past : List ℕ) (a : ℕ) :
    Holds p.setOf (run p.setOf (fun _ => none) (past.map (· / 2 ^ p.b))) (a / 2 ^ p.b) ↔
      (recent (p.tagsOf (p.sIndex a) past)).head? = some (a / 2 ^ (p.s + p.b)) := by
  induction past using List.reverseRecOn with
  | nil => simp [Holds, run, recent, Params.tagsOf]
  | append_singleton past x ih =>
    rw [List.map_append, run_append, List.map_singleton]
    refine (holds_access (y := x / 2 ^ p.b)).trans ?_
    rw [ih, tagsOf_concat, block_eq_iff hd, Params.setOf, Params.setOf, ← hd.sIndex_eq,
      ← hd.sIndex_eq]
    by_cases hk : p.sIndex x = p.sIndex a
    · rw [if_pos hk, recent_concat, List.head?_cons, Option.some.injEq]
      simp only [hk, true_and, ne_eq, not_true, false_and, or_false]
      exact eq_comm
    · rw [if_neg hk]
      simp [Ne.symm hk]

theorem countP_reuses (hd : p.Defined) (past as : List ℕ) : (p.reuses past as).countP (!·.hits 1) =
    misses p.setOf (run p.setOf (fun _ => none) (past.map (· / 2 ^ p.b)))
      (as.map (· / 2 ^ p.b)) := by
  induction as generalizing past with
  | nil => rfl
  | cons a as ih =>
    have hhit : (p.reuse past a).hits 1 = true ↔
        Holds p.setOf (run p.setOf (fun _ => none) (past.map (· / 2 ^ p.b))) (a / 2 ^ p.b) := by
      rw [holds_iff_recent hd]
      have htake : (p.reuse past a).hits 1 = true ↔ a / 2 ^ (p.s + p.b) ∈
          (recent (p.tagsOf (p.sIndex a) past)).take 1 := mem_take_iff.symm
      rw [htake]
      cases recent (p.tagsOf (p.sIndex a) past) <;> simp [eq_comm]
    have hrest := ih (past ++ [a])
    rw [List.map_append, run_append] at hrest
    rw [Params.reuses, List.countP_cons, List.map_cons, misses, hrest, Nat.add_comm]
    refine congrArg (· + _) ?_
    by_cases h : (p.reuse past a).hits 1 = true
    · rw [if_pos (hhit.1 h), h]
      rfl
    · rw [if_neg (mt hhit.2 h), Bool.eq_false_iff.2 h]
      rfl

/-- **With one line in a set** the misses are those of a direct mapped cache. -/
theorem direct_counts (hd : p.Defined) (hE : p.E = 1) (h0 : Fresh p sim)
    (hfit : ∀ a ∈ trace.flatMap Record.accesses, p.Fits a) :
    ∃ sim' logs, readLoop p sim trace = some (sim', logs) ∧
      sim'.missCount = misses p.setOf (fun _ => none)
        ((trace.flatMap Record.accesses).map (· / 2 ^ p.b)) ∧
      sim'.hitCount + sim'.missCount = (trace.flatMap Record.accesses).length := by
  obtain ⟨sim', logs, he, h1, h2, -⟩ :=
    counts_reuse hd hE.ge h0 hfit (evictsThroughout_of_one hE h0)
  refine ⟨sim', logs, he, ?_, ?_⟩
  · rw [h2, hE, countP_reuses hd]
    rfl
  · rw [h1, h2, ← length_reuses (p := p) [] (trace.flatMap Record.accesses)]
    rw [List.length_eq_countP_add_countP (·.hits p.E)]
    simp

/-! ### The blocks of the trace -/

variable {w d i j k l n col col' : ℕ}

/-- The cache blocks of a part of a column, in a matrix at the block `x` with `w` blocks in a
row. -/
def column (w d x i col : ℕ) : List ℕ := (List.range' i d).map fun k => x + w * k + col

/-- The blocks that a row of a tile accesses. -/
theorem blocks_rowTrace (hj : j % 8 + n + 1 ≤ 8) :
    ((rowTrace (8 * w) (8 * w) (32 * x) (32 * y) (n + 1) j k).flatMap Record.accesses).map
      (· / 2 ^ 5) = row n (column w (n + 1) y j (k / 8)) (x + w * k + j / 8) := by
  have hload : ∀ l ∈ List.range' j (n + 1),
      (32 * x + 4 * (8 * w * k + l)) / 2 ^ 5 = x + w * k + j / 8 := by
    intro l hl
    have := List.mem_range'_1.1 hl
    rw [show 32 * x + 4 * (8 * w * k + l) = 4 * l + 32 * (x + w * k) by ring]
    omega
  have hstore : ∀ l, (32 * y + 4 * (8 * w * l + k)) / 2 ^ 5 = y + w * l + k / 8 := by
    intro l
    rw [show 32 * y + 4 * (8 * w * l + k) = 4 * k + 32 * (y + w * l) by ring]
    omega
  have haccess : ∀ t : List Record, (∀ r ∈ t, r.accessType = 'L' ∨ r.accessType = 'S') →
      t.flatMap Record.accesses = t.map Record.address := by
    intro t ht
    rw [List.map_eq_flatMap]
    refine List.flatMap_congr fun r hr => ?_
    rcases ht r hr with h | h <;> simp [Record.accesses, h]
  rw [haccess _ fun r hr => ?_, rowTrace, List.map_append, List.map_append, List.map_map,
    List.map_map, List.map_map, List.map_map]
  · refine congrArg₂ (· ++ ·) ?_ (List.map_congr_left fun l _ => hstore l)
    exact (List.map_congr_left hload).trans (by rw [List.map_const', List.length_range'])
  · simp only [rowTrace, List.mem_append, List.mem_map] at hr
    rcases hr with ⟨l, -, rfl⟩ | ⟨l, -, rfl⟩
    · exact .inl rfl
    · exact .inr rfl

/-- **The blocks of a tile.** -/
theorem blocks_tile (hi : i % 8 + n + 1 ≤ 8) (hj : j % 8 + n + 1 ≤ 8) :
    (((List.range' i (n + 1)).flatMap
      (rowTrace (8 * w) (8 * w) (32 * x) (32 * y) (n + 1) j)).flatMap
        Record.accesses).map (· / 2 ^ 5) =
      tile n (column w (n + 1) x i (j / 8)) (column w (n + 1) y j (i / 8)) := by
  rw [List.flatMap_assoc, List.map_flatMap, tile, column.eq_def w (n + 1) x, List.flatMap_map]
  refine List.flatMap_congr fun k hk => ?_
  have := List.mem_range'_1.1 hk
  rw [blocks_rowTrace hj, show k / 8 = i / 8 by omega]

/-- The blocks of the loops. -/
theorem blocks_loops {is : List ℕ} (his : ∀ i ∈ is, i % 8 + n + 1 ≤ 8) :
    ((is.flatMap fun i => is.flatMap fun j => (List.range' i (n + 1)).flatMap
      (rowTrace (8 * w) (8 * w) (32 * x) (32 * y) (n + 1) j)).flatMap Record.accesses).map
        (· / 2 ^ 5) = is.flatMap fun i => is.flatMap fun j =>
          tile n (column w (n + 1) x i (j / 8)) (column w (n + 1) y j (i / 8)) := by
  rw [List.flatMap_assoc, List.map_flatMap]
  refine List.flatMap_congr fun i hi => ?_
  rw [List.flatMap_assoc, List.map_flatMap]
  exact List.flatMap_congr fun j hj => blocks_tile (his i hi) (his j hj)

/-! ### Tiles in the cache -/

/-- 32 sets of one line of 32 bytes. -/
abbrev oneKB : Params := ⟨5, 1, 5⟩

theorem mem_column : b ∈ column w d x i col ↔ ∃ k, (i ≤ k ∧ k < i + d) ∧ x + w * k + col = b := by
  simp only [column, List.mem_map, List.mem_range'_1]

theorem length_column : (column w d x i col).length = d := by
  rw [column, List.length_map, List.length_range']

/-- The blocks of a column go to different sets. -/
theorem nodup_column (hw : 0 < w) (hd : w * d ≤ 32) :
    ((column w d x i col).map oneKB.setOf).Nodup := by
  rw [column, List.map_map]
  refine List.Nodup.map_on (fun k hk k' hk' he => ?_) List.nodup_range'
  obtain ⟨hk, hkd⟩ := List.mem_range'_1.1 hk
  obtain ⟨hk', hkd'⟩ := List.mem_range'_1.1 hk'
  have hmod : x + w * k + col ≡ x + w * k' + col [MOD 32] := he
  have hmod : w * k ≡ w * k' [MOD 32] := (hmod.add_right_cancel' _).add_left_cancel' _
  have hlt : ∀ {u v : ℕ}, u ≤ v → i ≤ u → v < i + d → w * u ≡ w * v [MOD 32] → u = v := by
    intro u v huv hu hv hm
    have hdvd := (Nat.modEq_iff_dvd' (Nat.mul_le_mul_left w huv)).1 hm
    rw [← Nat.mul_sub] at hdvd
    have hsmall : w * (v - u) < 32 :=
      lt_of_lt_of_le ((Nat.mul_lt_mul_left hw).2 (by omega : v - u < d)) hd
    have hzero := Nat.eq_zero_of_dvd_of_lt hdvd hsmall
    rcases Nat.mul_eq_zero.1 hzero with h | h <;> omega
  rcases Nat.le_total k k' with h | h
  · exact hlt h hk hkd' hmod
  · exact (hlt h hk' hkd hmod.symm).symm

theorem conflicts_column (w d y j col a : ℕ) : conflicts oneKB.setOf (column w d y j col) a =
    (List.range d).countP fun l => (y + w * (j + l) + col) % 32 = a % 32 := by
  rw [conflicts, column, List.map_map, List.range'_eq_map_range, List.map_map, List.count,
    List.countP_map]
  rfl

theorem mem_steps {m : ℕ} (hd : 0 < d) (hi : i ∈ List.range' 0 m d) : i % d = 0 ∧ i < d * m := by
  obtain ⟨r, hr, rfl⟩ := List.mem_range'.1 hi
  rw [Nat.zero_add]
  exact ⟨Nat.mul_mod_right .., (Nat.mul_lt_mul_left hd).2 hr⟩

/-- **Over the tiles of a strip** a row has one conflict. -/
theorem conflicts32 (x y col : ℕ) :
    ((List.range' 0 4 8).map fun j => conflicts oneKB.setOf (column 4 8 y j col) (x + j / 8)).sum =
      1 := by
  have hone : ∀ z < 32, ((List.range' 0 4 8).map fun j => (List.range 8).countP fun l =>
      4 * l = (z + j / 8) % 32).sum = 1 := by decide
  rw [← hone ((x + 31 * (y + col)) % 32) (Nat.mod_lt _ (by decide))]
  refine congrArg List.sum (List.map_congr_left fun j hj => ?_)
  rw [conflicts_column]
  refine List.countP_congr fun l hl => ?_
  have hl := List.mem_range.1 hl
  have := mem_steps (by decide) hj
  simp only [decide_eq_true_eq]
  omega

/-- Sums over the parts of a strip, in another order. -/
theorem sum_swap {js ks : List ℕ} {f : ℕ → ℕ → ℕ} {m q : ℕ}
    (h : ∀ k ∈ ks, (js.map fun j => f j k).sum = q) :
    (js.map fun j => m + (ks.map (f j)).sum).sum = js.length * m + ks.length * q := by
  induction ks with
  | nil => simp
  | cons k ks ih =>
    rw [List.forall_mem_cons] at h
    simp only [List.map_cons, List.sum_cons, Nat.add_left_comm m]
    rw [List.sum_map_add, h.1, ih h.2, List.length_cons]
    ring

theorem column_succ (w d x i col : ℕ) :
    column w (d + 1) x i col = (x + w * i + col) :: column w d x (i + 1) col := by
  rw [column, column, List.range'_succ, List.map_cons]

/-! ### 32 rows of 32 numbers -/

/-- The tile of the rows from `i` and the columns from `j`. -/
def tile32 (x y i j : ℕ) : List ℕ := tile 7 (column 4 8 x i (j / 8)) (column 4 8 y j (i / 8))

/-- The blocks of a tile are in no other tile. -/
theorem tile32_unique {i' j' : ℕ} (hxy : x + 128 ≤ y ∨ y + 128 ≤ x)
    (hi : i ∈ List.range' 0 4 8) (hi' : i' ∈ List.range' 0 4 8) (hj : j ∈ List.range' 0 4 8)
    (hj' : j' ∈ List.range' 0 4 8) (h : b ∈ tile32 x y i j) (h' : b ∈ tile32 x y i' j') :
    i = i' ∧ j = j' := by
  have := mem_steps (by decide) hi
  have := mem_steps (by decide) hi'
  have := mem_steps (by decide) hj
  have := mem_steps (by decide) hj'
  simp only [tile32, mem_tile, mem_column] at h h'
  obtain ⟨k, hk, rfl⟩ | ⟨-, k, hk, rfl⟩ := h <;> obtain ⟨k', hk', he⟩ | ⟨-, k', hk', he⟩ := h' <;>
    omega

/-- A tile that is accessed for the first time. -/
theorem misses_tile32 {c : ℕ → Option ℕ} (hxy : x + 128 ≤ y ∨ y + 128 ≤ x)
    (hi : i ∈ List.range' 0 4 8) (hj : j ∈ List.range' 0 4 8)
    (hnew : ∀ b ∈ tile32 x y i j, ¬Holds oneKB.setOf c b) :
    misses oneKB.setOf c (tile32 x y i j) = 16 + ((List.range' (i + 1) 7).map fun k =>
      conflicts oneKB.setOf (column 4 8 y j (i / 8)) (x + 4 * k + j / 8)).sum := by
  have hrows : column 4 8 x i (j / 8) = (x + 4 * i + j / 8) :: column 4 7 x (i + 1) (j / 8) :=
    column_succ ..
  have hab : ∀ a ∈ column 4 8 x i (j / 8), a ∉ column 4 8 y j (i / 8) := by
    intro a ha hb
    have := mem_steps (by decide) hi
    have := mem_steps (by decide) hj
    obtain ⟨k, hk, rfl⟩ := mem_column.1 ha
    obtain ⟨k', hk', he⟩ := mem_column.1 hb
    omega
  have hnd : ((column 4 8 x i (j / 8)).map oneKB.setOf).Nodup :=
    nodup_column (by decide) (by decide)
  have hcol : ∀ b ∈ column 4 8 y j (i / 8), b ∈ tile32 x y i j := fun b hb =>
    mem_tile.2 (.inr ⟨by rw [hrows]; simp, hb⟩)
  have hrow : ∀ a ∈ column 4 8 x i (j / 8), a ∈ tile32 x y i j := fun a ha => mem_tile.2 (.inl ha)
  rw [tile32] at hnew hcol hrow ⊢
  rw [hrows] at hnew hcol hrow hab hnd ⊢
  rw [misses_tile_fresh (nodup_column (by decide) (by decide)) hnd hab
    (fun b hb => hnew b (hcol b hb)) (fun a ha => hnew a (hrow a ha)), List.length_cons,
    length_column, length_column, column.eq_def 4 7, List.map_map]
  rfl

/-- **284 misses** for 32 rows of 32 numbers. -/
theorem misses32 (hxy : x + 128 ≤ y ∨ y + 128 ≤ x) :
    misses oneKB.setOf (fun _ => none) ((List.range' 0 4 8).flatMap fun i =>
      (List.range' 0 4 8).flatMap (tile32 x y i)) = 284 := by
  have hnd : (List.range' 0 4 8).Nodup := by decide
  rw [misses_flatMap (m := fun _ => 71) hnd fun pre i hi hpre hnew => ?_]
  · rfl
  rw [misses_flatMap (m := fun j => 16 + ((List.range' (i + 1) 7).map fun k =>
    conflicts oneKB.setOf (column 4 8 y j (i / 8)) (x + 4 * k + j / 8)).sum) hnd
    fun pre' j hj hpre' hnew' => ?_]
  · rw [sum_swap fun k _ => conflicts32 (x + 4 * k) y (i / 8)]
    rfl
  refine misses_tile32 hxy hi hj fun b hb hheld => ?_
  rw [← run_append] at hheld
  rcases List.mem_append.1 (mem_of_holds hheld) with h | h
  · obtain ⟨i', hi', h⟩ := List.mem_flatMap.1 h
    obtain ⟨j', hj', h⟩ := List.mem_flatMap.1 h
    obtain ⟨rfl, -⟩ := tile32_unique hxy hi (hpre hi') hj hj' hb h
    exact hnew hi'
  · obtain ⟨j', hj', h⟩ := List.mem_flatMap.1 h
    obtain ⟨-, rfl⟩ := tile32_unique hxy hi hi hj (hpre' hj') hb h
    exact hnew' hj'

theorem length_tile (n : ℕ) (as bs : List ℕ) :
    (tile n as bs).length = as.length * (n + 1 + bs.length) := by
  simp [tile, row, List.length_flatMap]

/-- The tuned transposes with the simulator on their trace. -/
theorem tuned_counts {rs : List Record} {blocks : List ℕ} (hn : n = 32 ∨ n = 64)
    (A B : Matrix (Fin n) (Fin n) ℤ) (hemit : Emits (transposeSubmitAt A a b) rs)
    (hblocks : (rs.flatMap Record.accesses).map (· / 2 ^ 5) = blocks)
    (hfit : ∀ z ∈ blocks, z < 2 ^ 37) (h0 : Fresh oneKB sim) :
    ∃ s sim' logs, transposeSubmitAt A a b ⟨⟨B, []⟩, []⟩ = some s ∧ s.B = A.transpose ∧
      readLoop oneKB sim s.trace = some (sim', logs) ∧
      sim'.missCount = misses oneKB.setOf (fun _ => none) blocks ∧
      sim'.hitCount + sim'.missCount = blocks.length := by
  obtain ⟨s, hrun, -, ht⟩ := hemit ⟨⟨B, []⟩, []⟩ trivial
  rw [List.nil_append] at ht
  have hB : s.B = A.transpose := by
    obtain ⟨s', he', hB'⟩ := (transposeSubmit_iff hn A B).2 ⟨le_rfl, fun l k hk => by omega⟩
    have hmap := transposeSubmitAt_target (A := A) (a := a) (b := b) (s := ⟨⟨B, []⟩, []⟩)
    rw [hrun, he', Option.map_some] at hmap
    rw [← hB', ← Option.some.inj hmap]
  have hfits : ∀ z ∈ s.trace.flatMap Record.accesses, oneKB.Fits z := by
    intro z hz
    have hlt := hfit (z / 2 ^ 5) (hblocks ▸ ht ▸ List.mem_map_of_mem hz)
    show z / 2 ^ 10 < 2 ^ 32
    omega
  obtain ⟨sim', logs, hread, hmiss, hsum⟩ := direct_counts (p := oneKB) (by decide) rfl h0 hfits
  refine ⟨s, sim', logs, hrun, hB, hread, ?_, ?_⟩
  · rw [hmiss, ht, ← hblocks]
  · rw [hsum, ht, ← hblocks, List.length_map]

/-- A matrix of different numbers. -/
def counting (n : ℕ) : Matrix (Fin n) (Fin n) ℤ := fun k l => n * (k : ℕ) + (l : ℕ)

/-- The tile of the rows from `i` and the columns from `j`. -/
def tile64 (x y i j : ℕ) : List ℕ := tile 3 (column 8 4 x i (j / 8)) (column 8 4 y j (i / 8))

/-- Two tiles, which read the same cache blocks of `A`. -/
def pair64 (x y i j : ℕ) : List ℕ := tile64 x y i j ++ tile64 x y i (j + 4)

theorem flatMap_pair64 (x y i : ℕ) : (List.range' 0 16 4).flatMap (tile64 x y i) =
    (List.range' 0 8 8).flatMap (pair64 x y i) := by
  have hsteps : List.range' 0 16 4 = (List.range' 0 8 8).flatMap fun j => [j, j + 4] := by decide
  rw [hsteps, List.flatMap_assoc]
  refine List.flatMap_congr fun j _ => ?_
  rw [List.flatMap_cons, List.flatMap_singleton, pair64]

/-- **Over the pairs of a strip** a row has one conflict. -/
theorem conflicts64 (x y col : ℕ) :
    ((List.range' 0 8 8).map fun j => conflicts oneKB.setOf (column 8 4 y j col) (x + j / 8)).sum =
      1 := by
  have hone : ∀ z < 32, ((List.range' 0 8 8).map fun j => (List.range 4).countP fun l =>
      8 * l = (z + j / 8) % 32).sum = 1 := by decide
  rw [← hone ((x + 31 * (y + col)) % 32) (Nat.mod_lt _ (by decide))]
  refine congrArg List.sum (List.map_congr_left fun j hj => ?_)
  rw [conflicts_column]
  refine List.countP_congr fun l hl => ?_
  have hl := List.mem_range.1 hl
  have := mem_steps (by decide) hj
  simp only [decide_eq_true_eq]
  omega

/-- A block of `B` in the upper half of a group of eight rows is not held between the pairs. -/
theorem not_holds_pair64 {c : ℕ → Option ℕ} (hxy : x + 512 ≤ y ∨ y + 512 ≤ x)
    (hi : i ∈ List.range' 0 16 4) (hj : j ∈ List.range' 0 8 8) (hl : l < 64 ∧ l % 8 < 4)
    (hcol : col < 8) (h : ¬Holds oneKB.setOf c (y + 8 * l + col)) :
    ¬Holds oneKB.setOf (run oneKB.setOf c (pair64 x y i j)) (y + 8 * l + col) := by
  have := mem_steps (by decide) hi
  have := mem_steps (by decide) hj
  have hsecond : y + 8 * l + col ∉ tile64 x y i (j + 4) := by
    intro hmem
    simp only [tile64, mem_tile, mem_column] at hmem
    obtain ⟨k, hk, he⟩ | ⟨-, k, hk, he⟩ := hmem <;> omega
  rw [pair64, run_append]
  by_cases hfirst : y + 8 * l + col ∈ tile64 x y i j
  · -- the second tile takes it out
    have hmem : y + 8 * (l + 4) + col ∈ tile64 x y i (j + 4) := by
      simp only [tile64, mem_tile, mem_column] at hfirst ⊢
      obtain ⟨k, hk, he⟩ | ⟨-, k, hk, he⟩ := hfirst
      · omega
      · refine .inr ⟨by simp [column, List.range'], k + 4, ?_, ?_⟩ <;> omega
    refine not_holds_run_of_mem hmem ?_ hsecond
    show (y + 8 * (l + 4) + col) % 32 = (y + 8 * l + col) % 32
    omega
  · exact not_holds_run (not_holds_run h hfirst) hsecond

/-- A pair of tiles whose rows are accessed for the first time. -/
theorem misses_pair64 {c : ℕ → Option ℕ} (hxy : x + 512 ≤ y ∨ y + 512 ≤ x)
    (hi : i ∈ List.range' 0 16 4) (hj : j ∈ List.range' 0 8 8)
    (hnew : ∀ a ∈ column 8 4 x i (j / 8), ¬Holds oneKB.setOf c a)
    (hnone : ∀ b ∈ column 8 4 y j (i / 8), ¬Holds oneKB.setOf c b) :
    misses oneKB.setOf c (pair64 x y i j) =
      12 + ((i :: (List.replicate 3 (List.range' (i + 1) 3)).flatten).map fun k =>
        conflicts oneKB.setOf (column 8 4 y j (i / 8)) (x + 8 * k + j / 8)).sum := by
  have := mem_steps (by decide) hi
  have := mem_steps (by decide) hj
  have hrows : column 8 4 x i (j / 8) = (x + 8 * i + j / 8) :: column 8 3 x (i + 1) (j / 8) :=
    column_succ ..
  have hab : ∀ j', j' < 61 → ∀ a ∈ column 8 4 x i (j / 8), a ∉ column 8 4 y j' (i / 8) := by
    intro j' hj' a ha hb
    obtain ⟨k, hk, rfl⟩ := mem_column.1 ha
    obtain ⟨k', hk', he⟩ := mem_column.1 hb
    omega
  have hnd : ((column 8 4 x i (j / 8)).map oneKB.setOf).Nodup :=
    nodup_column (by decide) (by decide)
  have hmap : (column 8 4 y (j + 4) (i / 8)).map oneKB.setOf =
      (column 8 4 y j (i / 8)).map oneKB.setOf := by
    rw [column, column, List.range'_eq_map_range, List.range'_eq_map_range]
    simp only [List.map_map]
    refine List.map_congr_left fun l _ => ?_
    show (y + 8 * (j + 4 + l) + i / 8) % 32 = (y + 8 * (j + l) + i / 8) % 32
    omega
  have hbb : ∀ b ∈ column 8 4 y (j + 4) (i / 8), b ∉ column 8 4 y j (i / 8) := by
    intro b hb hb'
    obtain ⟨k, hk, rfl⟩ := mem_column.1 hb
    obtain ⟨k', hk', he⟩ := mem_column.1 hb'
    omega
  have hab1 := hab j (by omega)
  have hab2 := hab (j + 4) (by omega)
  rw [pair64, tile64, tile64, show (j + 4) / 8 = j / 8 by omega]
  rw [hrows] at hnew hab1 hab2 hnd ⊢
  rw [misses_tile_pair hmap (nodup_column (by decide) (by decide)) hnd hab1 hab2 hbb hnone hnew,
    List.length_cons, length_column, length_column, column.eq_def 8 3, List.map_map]
  simp only [List.replicate, List.flatten_cons, List.flatten_nil, List.append_nil, List.map_cons,
    List.map_append, List.sum_cons, List.sum_append, Function.comp_def]
  omega

/-- **1696 misses** for 64 rows of 64 numbers. -/
theorem misses64 (hxy : x + 512 ≤ y ∨ y + 512 ≤ x) :
    misses oneKB.setOf (fun _ => none) ((List.range' 0 16 4).flatMap fun i =>
      (List.range' 0 16 4).flatMap (tile64 x y i)) = 1696 := by
  have hnd : (List.range' 0 16 4).Nodup := by decide
  have hnd' : (List.range' 0 8 8).Nodup := by decide
  simp only [flatMap_pair64]
  rw [misses_flatMap (m := fun _ => 106) hnd fun pre i hi hpre hnew => ?_]
  · rfl
  rw [misses_flatMap (m := fun j => 12 +
    ((i :: (List.replicate 3 (List.range' (i + 1) 3)).flatten).map
      fun k => conflicts oneKB.setOf (column 8 4 y j (i / 8)) (x + 8 * k + j / 8)).sum) hnd'
    fun pre' j hj hpre' hnew' => ?_]
  · rw [sum_swap fun k _ => conflicts64 (x + 8 * k) y (i / 8)]
    rfl
  have := mem_steps (by decide) hi
  have := mem_steps (by decide) hj
  refine misses_pair64 hxy hi hj (fun a ha hheld => ?_) fun b hb => ?_
  · -- the rows are read in this pair only
    obtain ⟨k, hk, rfl⟩ := mem_column.1 ha
    have hunique : ∀ i' ∈ List.range' 0 16 4, ∀ j' ∈ List.range' 0 8 8,
        x + 8 * k + j / 8 ∈ pair64 x y i' j' → i = i' ∧ j = j' := by
      intro i' hi' j' hj' h
      have := mem_steps (by decide) hi'
      have := mem_steps (by decide) hj'
      simp only [pair64, tile64, List.mem_append, mem_tile, mem_column] at h
      obtain (⟨k', hk', he⟩ | ⟨-, k', hk', he⟩) | (⟨k', hk', he⟩ | ⟨-, k', hk', he⟩) := h <;> omega
    rw [← run_append] at hheld
    rcases List.mem_append.1 (mem_of_holds hheld) with h | h
    · obtain ⟨i', hi', h⟩ := List.mem_flatMap.1 h
      obtain ⟨j', hj', h⟩ := List.mem_flatMap.1 h
      obtain ⟨rfl, -⟩ := hunique i' (hpre hi') j' hj' h
      exact hnew hi'
    · obtain ⟨j', hj', h⟩ := List.mem_flatMap.1 h
      obtain ⟨-, rfl⟩ := hunique i hi j' (hpre' hj') h
      exact hnew' hj'
  · obtain ⟨l, hl, rfl⟩ := mem_column.1 hb
    have hkeep : ∀ i' ∈ List.range' 0 16 4, ∀ j' ∈ List.range' 0 8 8, ∀ c,
        ¬Holds oneKB.setOf c (y + 8 * l + i / 8) →
          ¬Holds oneKB.setOf (run oneKB.setOf c (pair64 x y i' j')) (y + 8 * l + i / 8) :=
      fun i' hi' j' hj' c => not_holds_pair64 hxy hi' hj' (by omega) (by omega)
    refine not_holds_flatMap (fun j' hj' => hkeep i hi j' (hpre' hj')) ?_
    refine not_holds_flatMap (fun i' hi' c => ?_) (by simp [Holds])
    exact not_holds_flatMap (hkeep i' (hpre hi'))

end CacheLab
end CsappLabs
