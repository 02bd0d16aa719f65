/-
# Lists in order of last access

A cache of `cap` keys that evicts the least recently accessed one can be kept as
the list of its keys, most recent first: an access moves a key to the front, and
a key brought into a full list pushes out the last (`touch`).

That the list is in order of last access is a statement about the whole history:
a key stands before another exactly if its last access is closer
(`touch_pairwise_idxOf`).  Any order that an access extends in the same way is
followed by the list as well (`touch_pairwise`).
-/

import Mathlib.Data.List.Nodup
import Mathlib.Data.List.Perm.Basic

namespace Lib
namespace Recency

variable {α : Type*} [DecidableEq α]

/-- The list after an access to `a`. -/
def touch (cap : ℕ) (a : α) (l : List α) : List α :=
  if a ∈ l then a :: l.erase a
  else if l.length < cap then a :: l
  else a :: l.dropLast

variable {cap : ℕ} {a x : α} {l hist : List α}

theorem touch_of_mem (h : a ∈ l) : touch cap a l = a :: l.erase a := if_pos h

theorem touch_of_lt (h : a ∉ l) (hl : l.length < cap) : touch cap a l = a :: l := by
  rw [touch, if_neg h, if_pos hl]

theorem touch_of_full (h : a ∉ l) (hl : cap ≤ l.length) : touch cap a l = a :: l.dropLast := by
  rw [touch, if_neg h, if_neg (by omega)]

/-- Behind its head, the new list is a part of the old one without the key. -/
theorem exists_touch (cap : ℕ) (a : α) (hnd : l.Nodup) :
    ∃ r, touch cap a l = a :: r ∧ r.Sublist l ∧ a ∉ r := by
  unfold touch
  split_ifs with h hl
  · exact ⟨l.erase a, rfl, List.erase_sublist, hnd.not_mem_erase⟩
  · exact ⟨l, rfl, .refl l, h⟩
  · exact ⟨l.dropLast, rfl, List.dropLast_sublist l, fun hm => h ((List.dropLast_sublist l).subset hm)⟩

theorem nodup_touch (hnd : l.Nodup) : (touch cap a l).Nodup := by
  obtain ⟨r, he, hsub, ha⟩ := exists_touch cap a hnd
  rw [he, List.nodup_cons]
  exact ⟨ha, hnd.sublist hsub⟩

/-- **The order rule.**  A list in some order is after the access in any order
that keeps the old keys as they were and puts the key accessed before them. -/
theorem touch_pairwise {R R' : α → α → Prop} (hnd : l.Nodup) (h : l.Pairwise R)
    (hkeep : ∀ x ∈ l, ∀ y ∈ l, x ≠ a → y ≠ a → R x y → R' x y)
    (hfront : ∀ y ∈ l, y ≠ a → R' a y) : (touch cap a l).Pairwise R' := by
  obtain ⟨r, he, hsub, ha⟩ := exists_touch cap a hnd
  rw [he, List.pairwise_cons]
  have hne : ∀ y ∈ r, y ≠ a := fun y hy he => ha (he ▸ hy)
  refine ⟨fun y hy => hfront y (hsub.subset hy) (hne y hy), ?_⟩
  exact (h.sublist hsub).imp_of_mem fun hx hy hR =>
    hkeep _ (hsub.subset hx) _ (hsub.subset hy) (hne _ hx) (hne _ hy) hR

/-- **The list is in order of last access.** -/
theorem touch_pairwise_idxOf (hnd : l.Nodup)
    (h : l.Pairwise fun x y => hist.idxOf x < hist.idxOf y) :
    (touch cap a l).Pairwise fun x y => (a :: hist).idxOf x < (a :: hist).idxOf y := by
  refine touch_pairwise hnd h (fun x _ y _ hx hy hxy => ?_) fun y _ hy => ?_
  · rw [List.idxOf_cons_ne _ hx.symm, List.idxOf_cons_ne _ hy.symm]
    omega
  · rw [List.idxOf_cons_self, List.idxOf_cons_ne _ hy.symm]
    omega

end Recency
end Lib
