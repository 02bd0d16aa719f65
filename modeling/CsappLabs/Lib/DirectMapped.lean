/-
# Direct mapped caches

Each set holds one block, the last one accessed of those that go there.  `misses` counts the
accesses to blocks that are not held.

Blocked loops read a block of one array and then write the blocks of a column of another, row
after row (`tile`).  What a tile misses is found from the conflicts, the pairs of a row and a
block of the column that share a set (`misses_tile`), wherever the arrays lie.
-/

import Mathlib.Algebra.GroupWithZero.Nat
import Mathlib.Data.List.Induction
import Mathlib.Data.List.Nodup
import Mathlib.Logic.Function.Basic
import Mathlib.Tactic.TypeStar

namespace Lib
namespace DirectMapped

variable {β κ ι : Type*} [DecidableEq κ]

/-- The cache after an access. -/
def access (set : β → κ) (c : κ → Option β) (x : β) : κ → Option β :=
  Function.update c (set x) (some x)

/-- The cache after some accesses. -/
def run (set : β → κ) (c : κ → Option β) (xs : List β) : κ → Option β :=
  xs.foldl (access set) c

/-- The block is held. -/
def Holds (set : β → κ) (c : κ → Option β) (x : β) : Prop := c (set x) = some x

instance [DecidableEq β] (set : β → κ) (c : κ → Option β) (x : β) : Decidable (Holds set c x) :=
  inferInstanceAs (Decidable (c (set x) = some x))

/-- How many of the accesses are to blocks that are not held. -/
def misses [DecidableEq β] (set : β → κ) : (κ → Option β) → List β → ℕ
  | _, [] => 0
  | c, x :: xs => (if Holds set c x then 0 else 1) + misses set (access set c x) xs

variable {set : β → κ} {c : κ → Option β} {x y a : β} {xs ys as bs : List β}

theorem run_append : run set c (xs ++ ys) = run set (run set c xs) ys := List.foldl_append

theorem run_cons : run set c (x :: xs) = run set (access set c x) xs := rfl

/-- **What an access does.** -/
theorem holds_access :
    Holds set (access set c y) x ↔ x = y ∨ set x ≠ set y ∧ Holds set c x := by
  unfold Holds access
  by_cases hk : set x = set y
  · rw [hk, Function.update_self, Option.some.injEq]
    exact ⟨fun h => .inl h.symm, fun h => (h.resolve_right fun hn => hn.1 rfl).symm⟩
  · rw [Function.update_of_ne hk]
    exact ⟨fun h => .inr ⟨hk, h⟩, fun h => h.elim (fun he => absurd (he ▸ rfl) hk) And.right⟩

/-- A block stays as long as the accesses to its set are to itself. -/
theorem holds_run (h : Holds set c x) (hx : ∀ y ∈ ys, set y = set x → y = x) :
    Holds set (run set c ys) x := by
  induction ys generalizing c with
  | nil => exact h
  | cons y ys ih =>
    refine ih (holds_access.2 ?_) fun z hz => hx z (List.mem_cons_of_mem _ hz)
    by_cases hk : set x = set y
    · exact .inl (hx y List.mem_cons_self hk.symm).symm
    · exact .inr ⟨hk, h⟩

/-- A block that is accessed, and then only itself in its set, is held. -/
theorem holds_run_of_mem (hmem : x ∈ ys) (hx : ∀ y ∈ ys, set y = set x → y = x) :
    Holds set (run set c ys) x := by
  induction ys generalizing c with
  | nil => exact absurd hmem List.not_mem_nil
  | cons y ys ih =>
    have hrest : ∀ z ∈ ys, set z = set x → z = x := fun z hz => hx z (List.mem_cons_of_mem _ hz)
    rcases List.mem_cons.1 hmem with rfl | hmem
    · rw [run_cons]
      exact holds_run (holds_access.2 (.inl rfl)) hrest
    · exact ih hmem hrest

/-- Other accesses do not bring a block. -/
theorem not_holds_run (h : ¬Holds set c x) (hx : x ∉ ys) : ¬Holds set (run set c ys) x := by
  induction ys generalizing c with
  | nil => exact h
  | cons y ys ih =>
    obtain ⟨hne, hx⟩ := List.mem_cons.not.trans not_or |>.1 hx
    have hy : ¬Holds set (access set c y) x := fun hh =>
      h ((holds_access.1 hh).resolve_left hne).2
    exact ih hy hx

/-- An access to the same set takes a block out. -/
theorem not_holds_run_of_mem (hmem : y ∈ ys) (hk : set y = set x) (hx : x ∉ ys) :
    ¬Holds set (run set c ys) x := by
  induction ys generalizing c with
  | nil => exact absurd hmem List.not_mem_nil
  | cons z ys ih =>
    obtain ⟨hne, hxs⟩ := List.mem_cons.not.trans not_or |>.1 hx
    rcases List.mem_cons.1 hmem with rfl | hmem
    · have hy : ¬Holds set (access set c y) x := fun hh =>
        ((holds_access.1 hh).resolve_left hne).1 hk.symm
      rw [run_cons]
      exact not_holds_run hy hxs
    · exact ih hmem hxs

/-- A block that none of the parts brings is not held after them. -/
theorem not_holds_flatMap {is : List ι} {p : ι → List β}
    (h : ∀ i ∈ is, ∀ c, ¬Holds set c x → ¬Holds set (run set c (p i)) x) (hc : ¬Holds set c x) :
    ¬Holds set (run set c (is.flatMap p)) x := by
  induction is generalizing c with
  | nil => exact hc
  | cons i is ih =>
    rw [List.forall_mem_cons] at h
    rw [List.flatMap_cons, run_append]
    exact ih h.2 (h.1 c hc)

/-- What is held has been accessed. -/
theorem mem_of_holds (h : Holds set (run set (fun _ => none) ys) x) : x ∈ ys := by
  by_contra hx
  exact not_holds_run (by simp [Holds]) hx h

/-! ### Accesses in a row -/

/-- Accesses to one block. -/
theorem access_access : access set (access set c x) x = access set c x :=
  Function.update_idem ..

theorem run_replicate (n : ℕ) : run set c (List.replicate (n + 1) x) = access set c x := by
  induction n generalizing c with
  | zero => rfl
  | succ n ih => rw [List.replicate_succ, run_cons, ih, access_access]

/-! ### Tiles -/

/-- A row of a tile: the block `a` some times, and then the blocks of the column. -/
def row (n : ℕ) (bs : List β) (a : β) : List β := List.replicate (n + 1) a ++ bs

/-- The rows `as`, each with the column `bs`. -/
def tile (n : ℕ) (as bs : List β) : List β := as.flatMap (row n bs)

/-- How many blocks of the column share the set of a row. -/
def conflicts (set : β → κ) (bs : List β) (a : β) : ℕ := (bs.map set).count (set a)

/-- No block of the column shares the set of a row. -/
def Apart (set : β → κ) (bs : List β) (a : β) : Prop := set a ∉ bs.map set

instance (set : β → κ) (bs : List β) (a : β) : Decidable (Apart set bs a) :=
  inferInstanceAs (Decidable (set a ∉ bs.map set))

variable {n : ℕ}

theorem mem_row : x ∈ row n bs a ↔ x = a ∨ x ∈ bs := by simp [row]

theorem mem_tile : x ∈ tile n as bs ↔ x ∈ as ∨ as ≠ [] ∧ x ∈ bs := by
  simp only [tile, List.mem_flatMap, mem_row]
  constructor
  · rintro ⟨a, ha, rfl | hx⟩
    · exact .inl ha
    · exact .inr ⟨List.ne_nil_of_mem ha, hx⟩
  · rintro (hx | ⟨hne, hx⟩)
    · exact ⟨x, hx, .inl rfl⟩
    · obtain ⟨a, ha⟩ := List.exists_mem_of_ne_nil _ hne
      exact ⟨a, ha, .inr hx⟩

omit [DecidableEq κ] in
theorem Apart.set_ne (h : Apart set bs a) (hx : x ∈ bs) : set x ≠ set a := fun hk =>
  h (List.mem_map.2 ⟨x, hx, hk⟩)

theorem conflicts_eq (hbs : (bs.map set).Nodup) (a : β) :
    conflicts set bs a = if Apart set bs a then 0 else 1 := by
  rw [conflicts, hbs.count]
  by_cases h : set a ∈ bs.map set <;> simp [Apart, h]

theorem sum_conflicts (hbs : (bs.map set).Nodup) (as : List β) :
    (as.map (conflicts set bs)).sum = as.countP fun a => ¬Apart set bs a := by
  induction as with
  | nil => rfl
  | cons a as ih =>
    rw [List.map_cons, List.sum_cons, ih, conflicts_eq hbs, List.countP_cons, Nat.add_comm]
    by_cases h : Apart set bs a <;> simp [h]

/-- The blocks of the column are held after a row. -/
theorem holds_row (hbs : (bs.map set).Nodup) (hx : x ∈ bs) :
    Holds set (run set c (row n bs a)) x := by
  rw [row, run_append]
  exact holds_run_of_mem hx fun y hy hk => List.inj_on_of_nodup_map hbs hy hx hk

/-- **After a tile** the rows without a conflict are held. -/
theorem holds_tile (has : (as.map set).Nodup) (hab : ∀ a ∈ as, a ∉ bs) (hx : x ∈ as) :
    Holds set (run set c (tile n as bs)) x ↔ Apart set bs x := by
  constructor
  · rintro h hmem
    obtain ⟨b, hb, hk⟩ := List.mem_map.1 hmem
    -- the column is accessed after the last row
    obtain ⟨as', a, rfl⟩ := List.eq_nil_or_concat as |>.resolve_left (List.ne_nil_of_mem hx)
    rw [tile, List.concat_eq_append, List.flatMap_append, List.flatMap_singleton, run_append, row,
      run_append] at h
    exact not_holds_run_of_mem hb hk (hab x hx) h
  · intro hap
    refine holds_run_of_mem (mem_tile.2 (.inl hx)) fun y hy hk => ?_
    rcases mem_tile.1 hy with hy | ⟨-, hy⟩
    · exact List.inj_on_of_nodup_map has hy hx hk
    · exact absurd hk (hap.set_ne hy)

/-- The blocks of the column are held after a tile. -/
theorem holds_tile_column (hbs : (bs.map set).Nodup) (hne : as ≠ []) (hx : x ∈ bs) :
    Holds set (run set c (tile n as bs)) x := by
  obtain ⟨as', a, rfl⟩ := List.eq_nil_or_concat as |>.resolve_left hne
  rw [tile, List.concat_eq_append, List.flatMap_append, List.flatMap_singleton, run_append]
  exact holds_row hbs hx

/-! ### Counting -/

variable [DecidableEq β]

theorem misses_append :
    misses set c (xs ++ ys) = misses set c xs + misses set (run set c xs) ys := by
  induction xs generalizing c with
  | nil => exact (Nat.zero_add _).symm
  | cons x xs ih => rw [List.cons_append, misses, ih, misses, run_cons, Nat.add_assoc]

/-- Parts, one after the other: what each misses after those before it. -/
theorem misses_flatMap {is : List ι} {p : ι → List β} {m : ι → ℕ} (hnd : is.Nodup)
    (h : ∀ pre i, i ∈ is → pre ⊆ is → i ∉ pre →
      misses set (run set c (pre.flatMap p)) (p i) = m i) :
    misses set c (is.flatMap p) = (is.map m).sum := by
  induction is generalizing c with
  | nil => rfl
  | cons i is ih =>
    obtain ⟨hi, hnd⟩ := List.nodup_cons.1 hnd
    have hrest := ih (c := run set c (p i)) hnd fun pre j hj hsub hnew => by
      have hpre := h (i :: pre) j (List.mem_cons_of_mem _ hj) (List.cons_subset_cons i hsub)
        fun hm => (List.mem_cons.1 hm).elim (fun he => hi (he ▸ hj)) hnew
      rwa [List.flatMap_cons, run_append] at hpre
    rw [List.flatMap_cons, misses_append, List.map_cons, List.sum_cons, hrest]
    exact congrArg (· + _) (h [] i List.mem_cons_self (List.nil_subset _) List.not_mem_nil)

theorem misses_replicate (n : ℕ) :
    misses set c (List.replicate (n + 1) x) = if Holds set c x then 0 else 1 := by
  induction n generalizing c with
  | zero => rfl
  | succ n ih =>
    rw [List.replicate_succ, misses, ih, if_pos (holds_access.2 (.inl rfl)), Nat.add_zero]

/-- Accesses to blocks of different sets. -/
theorem misses_of_nodup (h : (xs.map set).Nodup) :
    misses set c xs = xs.countP fun x => ¬Holds set c x := by
  induction xs generalizing c with
  | nil => rfl
  | cons x xs ih =>
    rw [List.map_cons, List.nodup_cons] at h
    have hrest : ∀ y ∈ xs, (decide (¬Holds set (access set c x) y) = true ↔
        decide (¬Holds set c y) = true) := by
      intro y hy
      have hk : set y ≠ set x := fun hk => h.1 (hk ▸ List.mem_map_of_mem hy)
      have hne : y ≠ x := fun he => hk (he ▸ rfl)
      rw [decide_eq_true_iff, decide_eq_true_iff, holds_access]
      exact not_congr ⟨fun hh => (hh.resolve_left hne).2, fun hh => .inr ⟨hk, hh⟩⟩
    rw [misses, ih h.2, List.countP_congr hrest, List.countP_cons, Nat.add_comm]
    congr 1
    by_cases hx : Holds set c x <;> simp [hx]

theorem misses_row : misses set c (row n bs a) =
    (if Holds set c a then 0 else 1) + misses set (access set c a) bs := by
  rw [row, misses_append, misses_replicate, run_replicate]

/-- A row leaves the other rows as they are, if those that are held have no conflict. -/
theorem holds_row_iff (hne : set x ≠ set a) (hx : x ∉ bs)
    (hapart : Holds set c x → Apart set bs x) :
    Holds set (run set c (row n bs a)) x ↔ Holds set c x := by
  have hxa : x ≠ a := fun he => hne (he ▸ rfl)
  refine ⟨fun h => ?_, fun h => holds_run h fun y hy hk => ?_⟩
  · by_contra hno
    exact not_holds_run hno (by rw [mem_row]; exact not_or.2 ⟨hxa, hx⟩) h
  · rcases mem_row.1 hy with rfl | hy
    · exact absurd hk.symm hne
    · exact absurd hk ((hapart h).set_ne hy)

/-- **What the rows miss**, once the column is held: the rows that are not held, and the blocks
that a row has taken out. -/
theorem misses_rows (hbs : (bs.map set).Nodup) (has : (as.map set).Nodup) (hab : ∀ a ∈ as, a ∉ bs)
    (hheld : ∀ b ∈ bs, Holds set c b) :
    misses set c (tile n as bs) =
      as.countP (fun a => ¬Holds set c a) + (as.map (conflicts set bs)).sum := by
  induction as generalizing c with
  | nil => rfl
  | cons a as ih =>
    rw [List.map_cons, List.nodup_cons] at has
    rw [List.forall_mem_cons] at hab
    -- the blocks of the column that the row takes out
    have hcol : bs.countP (fun b => ¬Holds set (access set c a) b) = conflicts set bs a := by
      rw [conflicts, List.count, List.countP_map]
      refine List.countP_congr fun b hb => ?_
      have hne : b ≠ a := fun he => hab.1 (he ▸ hb)
      have hiff : ¬Holds set (access set c a) b ↔ set b = set a := by
        rw [holds_access]
        constructor
        · exact fun h => by_contra fun hk => h (.inr ⟨hk, hheld b hb⟩)
        · rintro hk (he | ⟨hk', -⟩)
          · exact hne he
          · exact hk' hk
      simpa using hiff
    have hrest : as.countP (fun x => ¬Holds set (run set c (row n bs a)) x) =
        as.countP (fun x => ¬Holds set c x) := by
      refine List.countP_congr fun x hx => ?_
      have hne : set x ≠ set a := fun hk => has.1 (hk ▸ List.mem_map_of_mem hx)
      have hiff := holds_row_iff (n := n) (c := c) hne (hab.2 x hx) fun h hmem => by
        obtain ⟨b, hb, hk⟩ := List.mem_map.1 hmem
        have he : b = x := by
          have h1 := hheld b hb
          rw [Holds, hk] at h1
          exact Option.some.inj (h1.symm.trans h)
        exact hab.2 x hx (he ▸ hb)
      simp [hiff]
    rw [tile, List.flatMap_cons, misses_append, misses_row, misses_of_nodup hbs, hcol]
    rw [show as.flatMap (row n bs) = tile n as bs from rfl, ih has.2 hab.2 fun b => holds_row hbs,
      hrest, List.countP_cons, List.map_cons, List.sum_cons]
    by_cases h : Holds set c a <;> simp [h] <;> omega

/-- **What a tile misses** whose column is not held, and whose rows that are held have no
conflict: also the column once. -/
theorem misses_tile (hbs : (bs.map set).Nodup) (has : ((a :: as).map set).Nodup)
    (hab : ∀ x ∈ a :: as, x ∉ bs) (hnone : ∀ b ∈ bs, ¬Holds set c b)
    (hapart : ∀ x ∈ a :: as, Holds set c x → Apart set bs x) :
    misses set c (tile n (a :: as) bs) = (a :: as).countP (fun x => ¬Holds set c x) + bs.length +
      (as.map (conflicts set bs)).sum := by
  rw [List.map_cons, List.nodup_cons] at has
  rw [List.forall_mem_cons] at hab hapart
  have hcol : bs.countP (fun b => ¬Holds set (access set c a) b) = bs.length := by
    refine List.countP_eq_length.2 fun b hb => decide_eq_true fun hh => ?_
    rcases holds_access.1 hh with he | ⟨-, hh⟩
    · exact hab.1 (he ▸ hb)
    · exact hnone b hb hh
  have hrest : as.countP (fun x => ¬Holds set (run set c (row n bs a)) x) =
      as.countP (fun x => ¬Holds set c x) := by
    refine List.countP_congr fun x hx => ?_
    have hne : set x ≠ set a := fun hk => has.1 (hk ▸ List.mem_map_of_mem hx)
    have hiff := holds_row_iff (n := n) (c := c) hne (hab.2 x hx) (hapart.2 x hx)
    simp [hiff]
  rw [tile, List.flatMap_cons, misses_append, misses_row, misses_of_nodup hbs, hcol,
    show as.flatMap (row n bs) = tile n as bs from rfl,
    misses_rows hbs has.2 hab.2 fun b => holds_row hbs, hrest, List.countP_cons]
  by_cases h : Holds set c a <;> simp [h] <;> omega

/-- A tile that is accessed for the first time. -/
theorem misses_tile_fresh (hbs : (bs.map set).Nodup) (has : ((a :: as).map set).Nodup)
    (hab : ∀ x ∈ a :: as, x ∉ bs) (hnone : ∀ b ∈ bs, ¬Holds set c b)
    (hfresh : ∀ x ∈ a :: as, ¬Holds set c x) :
    misses set c (tile n (a :: as) bs) =
      (a :: as).length + bs.length + (as.map (conflicts set bs)).sum := by
  rw [misses_tile hbs has hab hnone fun x hx h => absurd h (hfresh x hx)]
  congr 2
  exact List.countP_eq_length.2 fun x hx => decide_eq_true (hfresh x hx)

/-- **Two tiles** with the same rows, whose columns go to the same sets. -/
theorem misses_tile_pair {bs' : List β} (hmap : bs'.map set = bs.map set)
    (hbs : (bs.map set).Nodup) (has : ((a :: as).map set).Nodup)
    (hab : ∀ x ∈ a :: as, x ∉ bs) (hab' : ∀ x ∈ a :: as, x ∉ bs') (hbb : ∀ b ∈ bs', b ∉ bs)
    (hnone : ∀ b ∈ bs, ¬Holds set c b) (hfresh : ∀ x ∈ a :: as, ¬Holds set c x) :
    misses set c (tile n (a :: as) bs ++ tile n (a :: as) bs') =
      (a :: as).length + 2 * bs.length + conflicts set bs a +
        3 * (as.map (conflicts set bs)).sum := by
  have hconf : conflicts set bs' = conflicts set bs := funext fun x => by
    rw [conflicts, conflicts, hmap]
  have hlen : bs'.length = bs.length := by
    rw [← List.length_map set, hmap, List.length_map]
  have hapart : ∀ x, Apart set bs' x ↔ Apart set bs x := fun x => by rw [Apart, Apart, hmap]
  have hnone' : ∀ b ∈ bs', ¬Holds set (run set c (tile n (a :: as) bs)) b := by
    intro b hb hh
    obtain ⟨b', hb', hk⟩ : ∃ b' ∈ bs, set b' = set b := by
      simpa [hmap] using List.mem_map_of_mem (f := set) hb
    have hheld : Holds set (run set c (tile n (a :: as) bs)) b' :=
      holds_tile_column hbs (by simp) hb'
    rw [Holds, hk] at hheld
    exact hbb b hb (Option.some.inj (hh.symm.trans hheld) ▸ hb')
  have hrows : (a :: as).countP (fun x => ¬Holds set (run set c (tile n (a :: as) bs)) x) =
      ((a :: as).map (conflicts set bs)).sum := by
    rw [sum_conflicts hbs]
    exact List.countP_congr fun x hx => by simp [holds_tile has hab hx]
  rw [misses_append, misses_tile_fresh hbs has hab hnone hfresh,
    misses_tile (hmap ▸ hbs) has hab' hnone' fun x hx h =>
      (hapart x).2 ((holds_tile has hab hx).1 h), hrows, hconf, hlen, List.map_cons, List.sum_cons]
  omega

end DirectMapped
end Lib
