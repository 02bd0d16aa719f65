/-
# Doubly linked lists

The links of a list are two functions, `nxt` and `prv`.  `Seg nxt prv x l y` says
that they lead from `x` over the nodes of `l` to `y` and back; a circular list
through `head` is `Seg nxt prv head l head`.

A segment depends on few of the links (`Seg.congr`), so taking a node out and
putting one in are local: `Seg.unlink` and `Seg.link` ask for the new links at
the neighbours and for the old ones elsewhere in the list.
-/

import Mathlib.Data.List.Nodup
import Mathlib.Tactic.TypeStar

namespace Lib
namespace Links

variable {α : Type*}

/-- The links from `x` over `l` to `y`, both ways. -/
def Seg (nxt prv : α → α) : α → List α → α → Prop
  | x, [], y => nxt x = y ∧ prv y = x
  | x, b :: l, y => nxt x = b ∧ prv b = x ∧ Seg nxt prv b l y

variable {nxt prv nxt' prv' : α → α} {x y b : α} {l u v : List α}

/-- The nodes of a ring are the same from either end. -/
theorem mem_ring : x ∈ l ++ [y] ↔ x ∈ y :: l := (List.perm_append_singleton y l).mem_iff

theorem mem_middle (b : α) (h : x ∈ u ++ v) : x ∈ u ++ b :: v :=
  ((List.Sublist.refl u).append (List.sublist_cons_self b v)).subset h

theorem mem_of_mem_middle (h : x ∈ u ++ b :: v) (hne : x ≠ b) : x ∈ u ++ v := by
  rcases List.mem_append.1 h with h | h
  · exact List.mem_append_left v h
  · exact List.mem_append_right u ((List.mem_cons.1 h).resolve_left hne)

theorem erase_middle [DecidableEq α] (hnd : (u ++ b :: v).Nodup) :
    (u ++ b :: v).erase b = u ++ v := by
  have hbu : b ∉ u := fun hm => (List.nodup_append.1 hnd).2.2 b hm b List.mem_cons_self rfl
  rw [List.erase_append_right _ hbu, List.erase_cons_head]

/-- A segment splits at each of its nodes. -/
theorem seg_append : Seg nxt prv x (u ++ b :: v) y ↔ Seg nxt prv x u b ∧ Seg nxt prv b v y := by
  induction u generalizing x with
  | nil => simp only [List.nil_append, Seg, and_assoc]
  | cons c u ih => simp only [List.cons_append, Seg, ih, and_assoc]

/-- A segment depends on the forward links of all its nodes but the last and on
the backward links of all but the first. -/
theorem Seg.congr (h : Seg nxt prv x l y) (hn : ∀ a ∈ x :: l, nxt' a = nxt a)
    (hp : ∀ a ∈ l ++ [y], prv' a = prv a) : Seg nxt' prv' x l y := by
  induction l generalizing x with
  | nil => exact ⟨(hn x (by simp)).trans h.1, (hp y (by simp)).trans h.2⟩
  | cons b l ih =>
    refine ⟨(hn x (by simp)).trans h.1, (hp b (by simp)).trans h.2.1, ih h.2.2 ?_ ?_⟩
    · exact fun a ha => hn a (List.mem_cons_of_mem _ ha)
    · exact fun a ha => hp a (List.mem_cons_of_mem _ ha)

/-- The forward links determine the nodes before the end. -/
theorem Seg.unique (h : Seg nxt prv x l y) (h' : Seg nxt' prv' x v y) (hn : ∀ a, nxt' a = nxt a)
    (hl : y ∉ l) (hv : y ∉ v) : l = v := by
  induction l generalizing x v with
  | nil =>
    cases v with
    | nil => rfl
    | cons c v =>
      obtain rfl : c = y := (h'.1.symm.trans (hn x)).trans h.1
      exact absurd List.mem_cons_self hv
  | cons b l ih =>
    cases v with
    | nil =>
      obtain rfl : b = y := (h.1.symm.trans (hn x).symm).trans h'.1
      exact absurd List.mem_cons_self hl
    | cons c v =>
      obtain rfl : b = c := (h.1.symm.trans (hn x).symm).trans h'.1
      rw [ih h.2.2 h'.2.2 (fun hm => hl (List.mem_cons_of_mem _ hm)) fun hm =>
        hv (List.mem_cons_of_mem _ hm)]

/-- The first forward link. -/
theorem Seg.nxt_eq (h : Seg nxt prv x l y) : nxt x = (l ++ [y]).head (by simp) := by
  cases l with
  | nil => exact h.1
  | cons b l => exact h.1

/-- The last backward link. -/
theorem Seg.prv_eq (h : Seg nxt prv x l y) : prv y = (x :: l).getLast (by simp) := by
  induction l generalizing x with
  | nil => exact h.2
  | cons b l ih => exact (ih h.2.2).trans (List.getLast_cons (List.cons_ne_nil b l)).symm

theorem Seg.nxt_mem (h : Seg nxt prv x l y) : nxt x ∈ l ++ [y] := by
  rw [h.nxt_eq]
  exact List.head_mem _

theorem Seg.prv_mem (h : Seg nxt prv x l y) : prv y ∈ x :: l := by
  rw [h.prv_eq]
  exact List.getLast_mem _

/-- Two sets of links with the same segment agree on it. -/
theorem Seg.links_eq (h : Seg nxt prv x l y) (h' : Seg nxt' prv' x l y) :
    (∀ a ∈ x :: l, nxt' a = nxt a) ∧ ∀ a ∈ l ++ [y], prv' a = prv a := by
  induction l generalizing x with
  | nil => simp [h.1, h.2, h'.1, h'.2]
  | cons b l ih =>
    obtain ⟨hn, hp⟩ := ih h.2.2 h'.2.2
    constructor
    · exact List.forall_mem_cons.2 ⟨h'.1.trans h.1.symm, hn⟩
    · exact List.forall_mem_cons.2 ⟨h'.2.1.trans h.2.1.symm, hp⟩

/-- The links of a segment undo each other. -/
theorem Seg.prv_nxt (h : Seg nxt prv x l y) : ∀ a ∈ x :: l, prv (nxt a) = a := by
  induction l generalizing x with
  | nil =>
    intro a ha
    obtain rfl := List.mem_singleton.1 ha
    rw [h.1, h.2]
  | cons b l ih =>
    intro a ha
    rcases List.mem_cons.1 ha with rfl | ha
    · rw [h.1, h.2.1]
    · exact ih h.2.2 a ha

theorem Seg.nxt_prv (h : Seg nxt prv x l y) : ∀ a ∈ l ++ [y], nxt (prv a) = a := by
  induction l generalizing x with
  | nil =>
    intro a ha
    obtain rfl := List.mem_singleton.1 ha
    rw [h.2, h.1]
  | cons b l ih =>
    intro a ha
    rcases List.mem_cons.1 ha with rfl | ha
    · rw [h.2.1, h.1]
    · exact ih h.2.2 a ha

/-- **Taking a node out.** -/
theorem Seg.unlink (h : Seg nxt prv x (u ++ b :: v) y) (hnd : (x :: (u ++ b :: v)).Nodup)
    (hy : y ∉ u ++ b :: v) (hn : nxt' (prv b) = nxt b) (hp : prv' (nxt b) = prv b)
    (hn' : ∀ a ∈ x :: (u ++ v), a ≠ prv b → nxt' a = nxt a)
    (hp' : ∀ a ∈ u ++ v ++ [y], a ≠ nxt b → prv' a = prv a) : Seg nxt' prv' x (u ++ v) y := by
  obtain ⟨hu, hv⟩ := seg_append.1 h
  have hmemn := hv.nxt_mem
  induction u generalizing x with
  | nil =>
    -- the node is the first, and `x` is linked to its successor
    have hx : prv b = x := hu.2
    rw [hx] at hn hp hn'
    simp only [List.nil_append, List.nodup_cons, List.mem_cons, not_or] at hnd hy hn' hp' ⊢
    cases v with
    | nil =>
      have hby : nxt b = y := hv.1
      exact ⟨hn.trans hby, hby ▸ hp⟩
    | cons c v =>
      have hbc : nxt b = c := hv.1
      rw [hbc] at hn hp hp'
      simp only [List.mem_cons, not_or] at hnd hy
      refine ⟨hn, hp, hv.2.2.congr (fun a ha => hn' a (.inr ha) ?_) fun a ha => hp' a ?_ ?_⟩
      · rintro rfl
        rcases List.mem_cons.1 ha with rfl | ha
        · exact hnd.1.2.1 rfl
        · exact hnd.1.2.2 ha
      · exact List.mem_cons_of_mem _ ha
      · rintro rfl
        rcases List.mem_append.1 ha with ha | ha
        · exact (List.nodup_cons.1 hnd.2.2).1 ha
        · exact hy.2.1 (List.mem_singleton.1 ha).symm
  | cons d u ih =>
    have hmemp := hu.2.2.prv_mem
    obtain ⟨hxd, hdx, hu'⟩ := hu
    have hnd' := (List.nodup_cons.1 hnd).2
    refine ⟨?_, ?_, ih (h := h.2.2) hnd' (fun hm => hy (List.mem_cons_of_mem _ hm)) ?_ ?_ hu'⟩
    · -- `x` is not the predecessor of the node
      rw [hn' x (by simp) ?_, hxd]
      intro hxb
      rw [← hxb] at hmemp
      refine (List.nodup_cons.1 hnd).1 ?_
      rcases List.mem_cons.1 hmemp with rfl | hm
      · simp
      · simp [hm]
    · rw [hp' d (by simp) ?_, hdx]
      intro hdb
      rw [← hdb] at hmemn
      rcases List.mem_append.1 hmemn with hm | hm
      · exact (List.nodup_cons.1 hnd').1 (by simp [hm])
      · exact hy (by simp [List.mem_singleton.1 hm])
    · exact fun a ha => hn' a (List.mem_cons_of_mem _ ha)
    · exact fun a ha => hp' a (List.mem_cons_of_mem _ ha)

/-- **Putting a node in**, behind the first. -/
theorem Seg.link (h : Seg nxt prv x l y) (hnd : l.Nodup) (hx : x ∉ l) (hy : y ∉ l)
    (hn : nxt' x = b) (hp : prv' b = x) (hnb : nxt' b = nxt x) (hpb : prv' (nxt x) = b)
    (hn' : ∀ a ∈ l, a ≠ x → nxt' a = nxt a)
    (hp' : ∀ a ∈ l ++ [y], a ≠ nxt x → prv' a = prv a) : Seg nxt' prv' x (b :: l) y := by
  refine ⟨hn, hp, ?_⟩
  cases l with
  | nil =>
    have hxy : nxt x = y := h.1
    exact ⟨hnb.trans hxy, hxy ▸ hpb⟩
  | cons c l =>
    have hxc : nxt x = c := h.1
    rw [hxc] at hnb hpb hp'
    simp only [List.mem_cons, not_or] at hx hy
    refine ⟨hnb, hpb, h.2.2.congr (fun a ha => hn' a ha ?_) fun a ha => hp' a ?_ ?_⟩
    · rintro rfl
      rcases List.mem_cons.1 ha with rfl | ha
      · exact hx.1 rfl
      · exact hx.2 ha
    · exact List.mem_cons_of_mem _ ha
    · rintro rfl
      rcases List.mem_append.1 ha with ha | ha
      · exact (List.nodup_cons.1 hnd).1 ha
      · exact hy.1 (List.mem_singleton.1 ha).symm

end Links
end Lib
