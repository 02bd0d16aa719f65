/-
# Merging neighbours in the order of a list

Items that stand side by side (`B a b`: `b` is right behind `a`) are also kept in a
list, in any order.  A walk over the list visits its items, and a visit merges the item
with the one behind it, and with the one before it if that is tagged.  What is merged
is one item, in the place of the first one and no longer tagged, and the walk goes on
behind it in the list (`Visit`, `After`).  Where the one before is further on in the
list, the items between are left out.

If no item with another one behind is ever left out (`Clear`), then the walk merges
everything exactly if of three items side by side the second stands before the first in
the list: `Ready` and `Stuck` are what the visits preserve in the two cases.
-/

import Mathlib.Data.List.Nodup
import Mathlib.Tactic.TypeStar

namespace Lib
namespace Visits

variable {α : Type*} {B B' : α → α → Prop} {T T' : α → Prop} {a b c d f l p x y : α}
  {fs ns ns' u v M : List α}

/-! ### The order of a list -/

/-- Two items of a list stand in one of the two orders. -/
theorem pair_total (ha : a ∈ ns) (hb : b ∈ ns) (hne : a ≠ b) :
    [a, b].Sublist ns ∨ [b, a].Sublist ns := by
  obtain ⟨u, v, rfl⟩ := List.append_of_mem ha
  rcases List.mem_append.1 hb with hb | hb
  · exact .inr ((List.singleton_sublist.2 hb).append (List.singleton_sublist.2 (by simp)))
  · have hbv := (List.mem_cons.1 hb).resolve_left hne.symm
    exact .inl (((List.singleton_sublist.2 hbv).cons_cons a).trans (List.sublist_append_right u _))

/-- The order is kept in a part of the list. -/
theorem pair_part (hnd : ns.Nodup) (hs : ns'.Sublist ns) (h : [a, b].Sublist ns) (ha : a ∈ ns')
    (hb : b ∈ ns') : [a, b].Sublist ns' := by
  obtain ⟨u, v, rfl, hau, hbv⟩ := List.cons_sublist_iff.1 h
  obtain ⟨u', v', rfl, hu, hv⟩ := List.sublist_append_iff.1 hs
  have hapart := (List.nodup_append.1 hnd).2.2
  have hau' : a ∈ u' := by
    refine (List.mem_append.1 ha).resolve_right fun hm => ?_
    exact hapart a hau a (hv.subset hm) rfl
  have hbv' : b ∈ v' := by
    refine (List.mem_append.1 hb).resolve_left fun hm => ?_
    exact hapart b (hu.subset hm) b (List.singleton_sublist.1 hbv) rfl
  exact (List.singleton_sublist.2 hau').append (List.singleton_sublist.2 hbv')

/-- Nothing stands before the head. -/
theorem not_before_head (hnd : (c :: ns).Nodup) (hne : a ≠ c) : ¬[a, c].Sublist (c :: ns) := by
  intro h
  cases h with
  | cons _ h => exact (List.nodup_cons.1 hnd).1 (h.subset (by simp))
  | cons_cons _ h => exact hne rfl

/-! ### A visit -/

/-- Items side by side, all of them in the list. -/
structure Chain (B : α → α → Prop) (fs : List α) : Prop where
  mem : ∀ {a b}, B a b → a ∈ fs ∧ b ∈ fs
  left : ∀ {a b c}, B a c → B b c → a = b
  right : ∀ {a b c}, B a b → B a c → b = c
  ne : ∀ {a b}, B a b → a ≠ b
  ne_third : ∀ {a b c}, B a b → B b c → a ≠ c

/-- What a visit of `c` merges: the items `M`, from `f` to `l`. -/
inductive Visit (B : α → α → Prop) (T : α → Prop) (c : α) : α → α → List α → Prop
  | none : (∀ p, B p c → ¬T p) → (∀ n, ¬B c n) → Visit B T c c c [c]
  | next {n : α} : (∀ p, B p c → ¬T p) → B c n → Visit B T c c n [c, n]
  | prev {p : α} : B p c → T p → (∀ n, ¬B c n) → Visit B T c p c [p, c]
  | both {p n : α} : B p c → T p → B c n → Visit B T c p n [p, c, n]

/-- The items after it. -/
structure After (B : α → α → Prop) (T : α → Prop) (f l : α) (M : List α)
    (B' : α → α → Prop) (T' : α → Prop) : Prop where
  link : ∀ a b, B' a b ↔ a = f ∧ B l b ∨ a ∉ M ∧ B a b
  tag : ∀ a, T' a → T a ∧ (a = f → M = [f])

namespace Visit

theorem mem_first (hv : Visit B T c f l M) : f ∈ M := by
  cases hv <;> simp

theorem mem_visited (hv : Visit B T c f l M) : c ∈ M := by
  cases hv <;> simp

/-- The first item merged is the one visited, or a tagged one before it. -/
theorem first_eq (hv : Visit B T c f l M) : f = c ∨ T f ∧ B f c := by
  cases hv with
  | none _ _ => exact .inl rfl
  | next _ _ => exact .inl rfl
  | prev hp ht _ => exact .inr ⟨ht, hp⟩
  | both hp ht _ => exact .inr ⟨ht, hp⟩

/-- What is merged is entered at its first item. -/
theorem enter (hv : Visit B T c f l M) (hC : Chain B fs) (hab : B a b) (ha : a ∉ M)
    (hb : b ∈ M) : b = f := by
  cases hv with
  | none _ _ => exact List.mem_singleton.1 hb
  | next _ hn =>
    refine (List.mem_pair.1 hb).resolve_right ?_
    rintro rfl
    exact ha (hC.left hab hn ▸ by simp)
  | prev hp _ _ =>
    refine (List.mem_pair.1 hb).resolve_right ?_
    rintro rfl
    exact ha (hC.left hab hp ▸ by simp)
  | both hp _ hn =>
    simp only [List.mem_cons, List.not_mem_nil, or_false] at hb
    rcases hb with rfl | rfl | rfl
    · rfl
    · exact absurd (hC.left hab hp ▸ by simp) ha
    · exact absurd (hC.left hab hn ▸ by simp) ha

theorem last_eq (hv : Visit B T c f l M) (ha : a ∈ M) (hc : a ≠ c) (hf : a ≠ f) : a = l := by
  cases hv with
  | none _ _ => exact List.mem_singleton.1 ha
  | next _ _ => exact (List.mem_pair.1 ha).resolve_left hc
  | prev _ _ _ => exact (List.mem_pair.1 ha).resolve_left hf
  | both _ _ _ =>
    simp only [List.mem_cons, List.not_mem_nil, or_false] at ha
    exact (ha.resolve_left hf).resolve_left hc

end Visit

/-! ### What the visits preserve -/

/-- No visit leaves out an item with another one behind. -/
def Clear (B : α → α → Prop) (T : α → Prop) (ns : List α) : Prop :=
  ∀ p b x y, T p → B p b → B x y → ¬[b, x, p].Sublist ns

/-- Of three items side by side the second stands before the first. -/
def Sorted (B : α → α → Prop) (ns : List α) : Prop :=
  ∀ a b c, B a b → B b c → [b, a].Sublist ns

/-- The items that are left are enough to merge everything. -/
structure Ready (B : α → α → Prop) (T : α → Prop) (ns : List α) : Prop where
  first : ∀ a b, B a b → a ∈ ns
  sorted : Sorted B ns
  clear : Clear B T ns

/-- Some items will not be merged: three of them stand in the wrong order, or the first
of two is behind and not tagged. -/
structure Stuck (B : α → α → Prop) (T : α → Prop) (ns : List α) : Prop where
  tagged : ∀ a b, T a → B a b → a ∈ ns
  clear : Clear B T ns
  bad : (∃ a b c, B a b ∧ B b c ∧ [a, b].Sublist ns) ∨ ∃ a b, B a b ∧ ¬T a ∧ a ∉ ns

/-- An item with another one behind is not left out. -/
theorem Clear.kept (hcl : Clear B T (c :: ns)) (hv : Visit B T c f l M) (hnd : (c :: ns).Nodup)
    (hr : c :: ns = u ++ f :: v) (hdb : B d b) (hd : d ∈ c :: ns) (hdM : d ∉ M) : d ∈ v := by
  rw [hr] at hd
  rcases List.mem_append.1 hd with hd | hd
  · cases u with
    | nil => exact absurd hd List.not_mem_nil
    | cons c' u =>
      obtain ⟨rfl, hns⟩ := List.cons.inj hr
      rcases List.mem_cons.1 hd with rfl | hd
      · exact absurd hv.mem_visited hdM
      · have hf : f ≠ c := by
          rintro rfl
          exact (List.nodup_cons.1 hnd).1 (hns ▸ by simp)
        obtain ⟨ht, hfc⟩ := hv.first_eq.resolve_left hf
        refine absurd ?_ (hcl f c d b ht hfc hdb)
        rw [hns]
        exact (((List.singleton_sublist.2 hd).append
          (List.singleton_sublist.2 (by simp)))).cons_cons c
  · refine (List.mem_cons.1 hd).resolve_left ?_
    rintro rfl
    exact hdM hv.mem_first

section Step

variable [DecidableEq α] (hC : Chain B fs) (hnd : (c :: ns).Nodup) (hv : Visit B T c f l M)
  (ha : After B T f l M B' T') (hr : c :: ns = u ++ f :: v)

include hr in
theorem rest_sublist : (v.filter (· ∉ M)).Sublist (c :: ns) := by
  rw [hr]
  exact List.filter_sublist.trans
    ((List.sublist_cons_self f v).trans (List.sublist_append_right u _))

include hC hnd hv ha hr in
/-- **A visit of a list in order.** -/
theorem Ready.step (hI : Ready B T (c :: ns)) : Ready B' T' (v.filter (· ∉ M)) := by
  have hlast : ∀ b, ¬B l b := by
    intro b hb
    cases hv with
    | none _ hn => exact hn b hb
    | next _ hn => exact not_before_head hnd (hC.ne hn).symm (hI.sorted _ _ _ hn hb)
    | prev _ _ hn => exact hn b hb
    | both _ _ hn => exact not_before_head hnd (hC.ne hn).symm (hI.sorted _ _ _ hn hb)
  have hlink : ∀ {a b}, B' a b → a ∉ M ∧ B a b := fun h =>
    ((ha.link _ _).1 h).resolve_left fun hl => hlast _ hl.2
  have hmem : ∀ {a b}, B' a b → a ∈ v.filter (· ∉ M) := by
    intro a b h
    obtain ⟨haM, hab⟩ := hlink h
    exact List.mem_filter.2 ⟨hI.clear.kept hv hnd hr hab (hI.first a b hab) haM, by simpa using haM⟩
  have hsub := rest_sublist (M := M) hr
  refine ⟨fun a b h => hmem h, fun a b d h h' => ?_, fun p b x y ht h h' hs => ?_⟩
  · exact pair_part hnd hsub (hI.sorted a b d (hlink h).2 (hlink h').2) (hmem h') (hmem h)
  · exact hI.clear p b x y (ha.tag p ht).1 (hlink h).2 (hlink h').2 (hs.trans hsub)

include hC hnd hv ha hr in
/-- **A visit of a list with items in the wrong order.** -/
theorem Stuck.step (hI : Stuck B T (c :: ns)) : Stuck B' T' (v.filter (· ∉ M)) := by
  have hsub := rest_sublist (M := M) hr
  have hfM : f ∉ v.filter (· ∉ M) := fun hm => by
    simpa [hv.mem_first] using (List.mem_filter.1 hm).2
  have hkeep : ∀ {a b}, a ∉ M → B a b → B' a b := fun haM h => (ha.link _ _).2 (.inr ⟨haM, h⟩)
  have hkept : ∀ {a b}, B a b → a ∈ c :: ns → a ∉ M → a ∈ v.filter (· ∉ M) := fun h hm haM =>
    List.mem_filter.2 ⟨hI.clear.kept hv hnd hr h hm haM, by simpa using haM⟩
  -- a tagged item is not a new one
  have hlink : ∀ {a b}, T' a → B' a b → a ∉ M ∧ B a b := by
    intro a b ht h
    refine ((ha.link a b).1 h).resolve_left ?_
    rintro ⟨rfl, hb⟩
    have hone := (ha.tag a ht).2 rfl
    cases hv with
    | none _ hn => exact hn b hb
    | next _ _ => simp at hone
    | prev _ _ _ => simp at hone
    | both _ _ _ => simp at hone
  -- an item behind the merged ones cannot be merged
  have hnew : ∀ {d}, M ≠ [f] → B l d → ∃ a b, B' a b ∧ ¬T' a ∧ a ∉ v.filter (· ∉ M) := fun hM h =>
    ⟨f, _, (ha.link _ _).2 (.inl ⟨rfl, h⟩), fun ht => hM ((ha.tag f ht).2 rfl), hfM⟩
  refine ⟨fun a b ht h => ?_, fun p b x y ht h h' hs => ?_, ?_⟩
  · obtain ⟨haM, hab⟩ := hlink ht h
    exact hkept hab (hI.tagged a b (ha.tag a ht).1 hab) haM
  · rcases (ha.link x y).1 h' with ⟨rfl, -⟩ | ⟨-, hxy⟩
    · exact hfM (hs.subset (by simp))
    · exact hI.clear p b x y (ha.tag p ht).1 (hlink ht h).2 hxy (hs.trans hsub)
  · rcases hI.bad with ⟨a, b, d, hab, hbd, hs⟩ | ⟨a, b, hab, ht, hm⟩
    · by_cases haM : a ∈ M
      · refine .inr ?_
        cases hv with
        | none _ hn =>
          obtain rfl := List.mem_singleton.1 haM
          exact absurd hab (hn b)
        | next _ hn =>
          rcases List.mem_pair.1 haM with rfl | rfl
          · obtain rfl := hC.right hn hab
            exact hnew (by simp) hbd
          · exact hnew (by simp) hab
        | prev hp _ hn =>
          rcases List.mem_pair.1 haM with rfl | rfl
          · obtain rfl := hC.right hp hab
            exact absurd hbd (hn d)
          · exact absurd hab (hn b)
        | both hp _ hn =>
          simp only [List.mem_cons, List.not_mem_nil, or_false] at haM
          rcases haM with rfl | rfl | rfl
          · obtain rfl := hC.right hp hab
            exact absurd hs (not_before_head hnd (hC.ne hp))
          · obtain rfl := hC.right hn hab
            exact hnew (by simp) hbd
          · exact hnew (by simp) hab
      · have hac : a ≠ c := fun he => haM (he ▸ hv.mem_visited)
        by_cases hbM : b ∈ M
        · -- the second one is the first of those merged, and the walk jumps over the first
          obtain rfl : b = f := hv.enter hC hab haM hbM
          have hbc : b ≠ c := fun he => not_before_head hnd hac (he ▸ hs)
          obtain ⟨ht, hbc'⟩ := hv.first_eq.resolve_left hbc
          refine absurd ?_ (hI.clear b c a b ht hbc' hab)
          cases hs with
          | cons _ hs => exact hs.cons_cons c
          | cons_cons _ _ => exact absurd rfl hac
        · refine .inl ⟨a, b, d, hkeep haM hab, hkeep hbM hbd, ?_⟩
          exact pair_part hnd hsub hs (hkept hab (hs.subset (by simp)) haM)
            (hkept hbd (hs.subset (by simp)) hbM)
    · refine .inr ?_
      by_cases haM : a ∈ M
      · have hac : a ≠ c := fun he => hm (he ▸ List.mem_cons_self)
        have haf : a ≠ f := by
          rintro rfl
          exact ht (hv.first_eq.resolve_left hac).1
        obtain rfl := hv.last_eq haM hac haf
        exact hnew (fun hone => haf (by simpa [hone] using haM)) hab
      · exact ⟨a, b, hkeep haM hab, fun ht' => ht (ha.tag a ht').1, fun hm' => hm (hsub.subset hm')⟩

end Step

/-- A walk over a list in order starts ready, and it ends with nothing to merge. -/
theorem Ready.init (hC : Chain B fs) (hs : Sorted B fs) (hcl : Clear B T fs) : Ready B T fs :=
  ⟨fun _ _ h => (hC.mem h).1, hs, hcl⟩

theorem Ready.done (hI : Ready B T []) (a b : α) : ¬B a b := fun h =>
  absurd (hI.first a b h) List.not_mem_nil

/-- A walk over a list in the wrong order starts stuck, and something stays unmerged. -/
theorem Stuck.init (hC : Chain B fs) (hs : ¬Sorted B fs) (hcl : Clear B T fs) : Stuck B T fs := by
  refine ⟨fun _ _ _ h => (hC.mem h).1, hcl, .inl ?_⟩
  simp only [Sorted, not_forall] at hs
  obtain ⟨a, b, c, hab, hbc, hs⟩ := hs
  exact ⟨a, b, c, hab, hbc, (pair_total (hC.mem hab).1 (hC.mem hab).2 (hC.ne hab)).resolve_right hs⟩

theorem Stuck.done (hI : Stuck B T []) : ∃ a b, B a b := by
  rcases hI.bad with ⟨a, b, _, hab, -, -⟩ | ⟨a, b, hab, -⟩
  · exact ⟨a, b, hab⟩
  · exact ⟨a, b, hab⟩

end Visits
end Lib
