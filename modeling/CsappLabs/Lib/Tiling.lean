/-
# Intervals that tile a range

A list of items, each with an address and a size, tiles `[a, e)` if each item
starts where the one before ends.  Items of such a list are in the range, apart
from each other, and determined by their addresses; a part of the list tiles a
part of the range (`tiles_append`), so replacing it is a local matter.  Intervals that
are pairwise apart, in any order, are together not longer than a range around them
(`sum_le_of_apart`).
-/

import Mathlib.Data.Nat.Notation
import Mathlib.Tactic.TypeStar
import Mathlib.Algebra.Order.Group.Nat
import Mathlib.Data.Nat.Basic
import Mathlib.Data.List.Nodup
import Mathlib.Algebra.GroupWithZero.Nat
import Mathlib.Order.Interval.Finset.Nat

namespace Lib
namespace Tiling

variable {β : Type*} {addr size : β → ℕ}

/-- The items of the list follow each other from `a` to `e`. -/
def Tiles (addr size : β → ℕ) : ℕ → List β → ℕ → Prop
  | a, [], e => a = e
  | a, b :: l, e => addr b = a ∧ Tiles addr size (a + size b) l e

variable {a e e' k m : ℕ} {b c : β} {l u v : List β}

theorem tiles_append :
    Tiles addr size a (u ++ v) e ↔ ∃ m, Tiles addr size a u m ∧ Tiles addr size m v e := by
  induction u generalizing a with
  | nil => simp only [List.nil_append, Tiles, exists_eq_left']
  | cons b u ih => simp only [List.cons_append, Tiles, ih, and_assoc, exists_and_left]

/-- A tiling splits at each of its items. -/
theorem tiles_split :
    Tiles addr size a (u ++ b :: v) e ↔
      Tiles addr size a u (addr b) ∧ Tiles addr size (addr b + size b) v e := by
  rw [tiles_append]
  constructor
  · rintro ⟨m, hu, rfl, hv⟩
    exact ⟨hu, hv⟩
  · rintro ⟨hu, hv⟩
    exact ⟨_, hu, rfl, hv⟩

theorem Tiles.end_unique (h : Tiles addr size a l e) (h' : Tiles addr size a l e') : e = e' := by
  induction l generalizing a with
  | nil => exact h.symm.trans h'
  | cons b l ih => exact ih h.2 h'.2

theorem Tiles.le (h : Tiles addr size a l e) : a ≤ e := by
  induction l generalizing a with
  | nil => exact h.le
  | cons b l ih => exact (Nat.le_add_right _ _).trans (ih h.2)

/-- It depends on the sizes of the items only. -/
theorem Tiles.congr {size' : β → ℕ} (h : Tiles addr size a l e)
    (hs : ∀ b ∈ l, size' b = size b) : Tiles addr size' a l e := by
  induction l generalizing a with
  | nil => exact h
  | cons b l ih =>
    obtain ⟨hb, hl⟩ := List.forall_mem_cons.1 hs
    refine ⟨h.1, ?_⟩
    rw [hb]
    exact ih h.2 hl

theorem tiles_map {γ : Type*} (g : γ → β) {l : List γ} :
    Tiles addr size a (l.map g) e ↔ Tiles (addr ∘ g) (size ∘ g) a l e := by
  induction l generalizing a with
  | nil => exact Iff.rfl
  | cons b l ih => exact and_congr_right fun _ => ih

/-- The items are in the range. -/
theorem Tiles.mem (h : Tiles addr size a l e) (hb : b ∈ l) :
    a ≤ addr b ∧ addr b + size b ≤ e := by
  obtain ⟨u, v, rfl⟩ := List.append_of_mem hb
  obtain ⟨hu, hv⟩ := tiles_split.1 h
  exact ⟨hu.le, hv.le⟩

/-- Two items are the same or apart. -/
theorem Tiles.apart (h : Tiles addr size a l e) (hb : b ∈ l) (hc : c ∈ l) :
    b = c ∨ addr b + size b ≤ addr c ∨ addr c + size c ≤ addr b := by
  obtain ⟨u, v, rfl⟩ := List.append_of_mem hb
  obtain ⟨hu, hv⟩ := tiles_split.1 h
  rcases List.mem_append.1 hc with hc | hc
  · exact .inr (.inr (hu.mem hc).2)
  · rcases List.mem_cons.1 hc with rfl | hc
    · exact .inl rfl
    · exact .inr (.inl (hv.mem hc).1)

theorem Tiles.apart_of_ne (h : Tiles addr size a l e) (hb : b ∈ l) (hc : c ∈ l) (hne : b ≠ c) :
    addr b + size b ≤ addr c ∨ addr c + size c ≤ addr b :=
  (h.apart hb hc).resolve_left hne

/-- An item of positive size is determined by its address. -/
theorem Tiles.inj (h : Tiles addr size a l e) (hpos : ∀ x ∈ l, 0 < size x) (hb : b ∈ l)
    (hc : c ∈ l) (he : addr b = addr c) : b = c := by
  have hb0 := hpos b hb
  have hc0 := hpos c hc
  rcases h.apart hb hc with h | h | h
  · exact h
  · omega
  · omega

/-- The addresses are different. -/
theorem Tiles.nodup (h : Tiles addr size a l e) (hpos : ∀ x ∈ l, 0 < size x) :
    (l.map addr).Nodup := by
  induction l generalizing a with
  | nil => exact List.nodup_nil
  | cons b l ih =>
    obtain ⟨hb, hl⟩ := List.forall_mem_cons.1 hpos
    refine List.nodup_cons.2 ⟨fun hm => ?_, ih h.2 hl⟩
    obtain ⟨c, hc, hcb⟩ := List.mem_map.1 hm
    have hle := (h.2.mem hc).1
    have hba := h.1
    omega

/-- Sizes that are multiples of `k` keep the addresses multiples of `k`. -/
theorem Tiles.dvd (h : Tiles addr size a l e) (ha : k ∣ a) (hk : ∀ x ∈ l, k ∣ size x) :
    k ∣ e ∧ ∀ x ∈ l, k ∣ addr x := by
  induction l generalizing a with
  | nil => exact ⟨h ▸ ha, fun x hx => absurd hx List.not_mem_nil⟩
  | cons b l ih =>
    obtain ⟨hb, hl⟩ := List.forall_mem_cons.1 hk
    obtain ⟨he, hx⟩ := ih h.2 (Nat.dvd_add ha hb) hl
    exact ⟨he, List.forall_mem_cons.2 ⟨h.1 ▸ ha, hx⟩⟩

/-- The items cover the range. -/
theorem Tiles.cover {i : ℕ} (h : Tiles addr size a l e) (hlo : a ≤ i) (hhi : i < e) :
    ∃ b ∈ l, addr b ≤ i ∧ i < addr b + size b := by
  induction l generalizing a with
  | nil => exact absurd hhi (not_lt.2 (h ▸ hlo))
  | cons b l ih =>
    obtain ⟨rfl, hl⟩ := h
    by_cases hi : i < addr b + size b
    · exact ⟨b, List.mem_cons_self, hlo, hi⟩
    · obtain ⟨c, hc, hci⟩ := ih hl (not_lt.1 hi)
      exact ⟨c, List.mem_cons_of_mem _ hc, hci⟩

/-- Items of positive size that are their addresses are determined by the range. -/
theorem Tiles.unique {size : ℕ → ℕ} {l l' : List ℕ} (h : Tiles id size a l e)
    (h' : Tiles id size a l' e) (hl : ∀ x ∈ l, 0 < size x) (hl' : ∀ x ∈ l', 0 < size x) :
    l = l' := by
  induction l generalizing a l' with
  | nil =>
    cases l' with
    | nil => rfl
    | cons c l' =>
      have hc := hl' c List.mem_cons_self
      have hle := h'.2.le
      have he : a = e := h
      omega
  | cons b l ih =>
    cases l' with
    | nil =>
      have hb := hl b List.mem_cons_self
      have hle := h.2.le
      have he : a = e := h'
      omega
    | cons c l' =>
      obtain rfl : b = a := h.1
      obtain rfl : c = b := h'.1
      rw [ih h.2 h'.2 (fun x hx => hl x (List.mem_cons_of_mem _ hx)) fun x hx =>
        hl' x (List.mem_cons_of_mem _ hx)]

/-- A lower bound for the sizes bounds the number of items. -/
theorem Tiles.length_le (h : Tiles addr size a l e) (hk : ∀ x ∈ l, k ≤ size x) :
    a + k * l.length ≤ e := by
  induction l generalizing a with
  | nil => exact h.le
  | cons b l ih =>
    obtain ⟨hb, hl⟩ := List.forall_mem_cons.1 hk
    have := ih h.2 hl
    rw [List.length_cons, Nat.mul_succ]
    omega

/-- Intervals that are pairwise apart are not longer together than what they lie in. -/
theorem sum_le_of_apart (addr size : β → ℕ) {lo hi : ℕ} {l : List β}
    (hin : ∀ x ∈ l, lo ≤ addr x ∧ addr x + size x ≤ hi)
    (hap : l.Pairwise fun x y => addr x + size x ≤ addr y ∨ addr y + size y ≤ addr x) :
    (l.map size).sum ≤ hi - lo := by
  -- the points of the intervals, counted
  have hpoints : ∃ s : Finset ℕ, s.card = (l.map size).sum ∧
      ∀ i ∈ s, ∃ x ∈ l, addr x ≤ i ∧ i < addr x + size x := by
    clear hin
    induction l with
    | nil => exact ⟨∅, rfl, by simp⟩
    | cons x l ih =>
      obtain ⟨hx, hap⟩ := List.pairwise_cons.1 hap
      obtain ⟨s, hs, hmem⟩ := ih hap
      have hdisj : Disjoint (Finset.Ico (addr x) (addr x + size x)) s := by
        refine Finset.disjoint_left.2 fun i hi his => ?_
        obtain ⟨y, hy, hlo, hhi⟩ := hmem i his
        have := hx y hy
        have := Finset.mem_Ico.1 hi
        omega
      refine ⟨Finset.Ico (addr x) (addr x + size x) ∪ s, ?_, fun i hi => ?_⟩
      · rw [Finset.card_union_of_disjoint hdisj, Nat.card_Ico, hs, List.map_cons, List.sum_cons,
          Nat.add_sub_cancel_left]
      · rcases Finset.mem_union.1 hi with hi | hi
        · exact ⟨x, by simp, Finset.mem_Ico.1 hi⟩
        · obtain ⟨y, hy, hyi⟩ := hmem i hi
          exact ⟨y, by simp [hy], hyi⟩
  obtain ⟨s, hs, hmem⟩ := hpoints
  have hsub : s ⊆ Finset.Ico lo hi := fun i hi => by
    obtain ⟨x, hx, hlo, hhi⟩ := hmem i hi
    have := hin x hx
    exact Finset.mem_Ico.2 (by omega)
  rw [← hs, ← Nat.card_Ico]
  exact Finset.card_le_card hsub

end Tiling
end Lib
