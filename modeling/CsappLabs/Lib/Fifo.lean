/-
# Queues of keys

A cache of `cap` keys that pushes out the key that came in first can be kept as the
list of its keys in the order in which they came in (`push`).  Accesses to a key that
is there change nothing, so in general the first key of the queue is not the one
accessed longest ago.  As long as it is whenever a key is pushed out, the queue has
the same keys as the list in order of last access (`queue_perm_recent`).
-/

import CsappLabs.Lib.Recency

namespace Lib
namespace Fifo

open Recency

variable {α : Type*} [DecidableEq α]

/-- The queue after an access to `a`. -/
def push (cap : ℕ) (a : α) (l : List α) : List α :=
  if a ∈ l then l else (l ++ [a]).drop (l.length + 1 - cap)

/-- The queue after the accesses `hist`, the last one first. -/
def queue (cap : ℕ) (hist : List α) : List α := hist.foldr (push cap) []

/-- The number of accesses since the last one to `a`. -/
def age (hist : List α) (a : α) : ℕ := hist.idxOf a

/-- The last accesses to all other keys came after the last one to the first key. -/
def OldestFirst (hist l : List α) : Prop := ∀ a ∈ l.head?, ∀ b ∈ l.tail, age hist b < age hist a

variable {cap : ℕ} {a x : α} {l r hist : List α}

@[simp] theorem age_cons_self (a : α) (hist : List α) : age (a :: hist) a = 0 :=
  List.idxOf_cons_self

theorem age_cons_ne (h : x ≠ a) : age (a :: hist) x = age hist x + 1 :=
  List.idxOf_cons_ne _ h.symm

@[simp] theorem queue_cons (cap : ℕ) (a : α) (hist : List α) :
    queue cap (a :: hist) = push cap a (queue cap hist) := rfl

theorem push_of_mem (h : a ∈ l) : push cap a l = l := if_pos h

theorem push_of_lt (h : a ∉ l) (hl : l.length < cap) : push cap a l = l ++ [a] := by
  rw [push, if_neg h, Nat.sub_eq_zero_of_le hl, List.drop_zero]

theorem push_of_full (h : a ∉ x :: l) (hl : (x :: l).length = cap) :
    push cap a (x :: l) = l ++ [a] := by
  rw [push, if_neg h, hl, Nat.add_sub_cancel_left, List.cons_append, List.drop_one, List.tail_cons]

theorem nodup_push (h : l.Nodup) : (push cap a l).Nodup := by
  unfold push
  split_ifs with ha
  · exact h
  · refine List.Nodup.sublist (List.drop_sublist _ _) ?_
    exact List.nodup_append.2 ⟨h, List.nodup_singleton a, fun x hx y hy hxy =>
      ha (List.mem_singleton.1 hy ▸ hxy ▸ hx)⟩

theorem nodup_queue (cap : ℕ) (hist : List α) : (queue cap hist).Nodup := by
  induction hist with
  | nil => exact List.nodup_nil
  | cons a hist ih => exact nodup_push ih

/-- The list after the accesses `hist`, in order of last access. -/
def recent (cap : ℕ) (hist : List α) : List α := hist.foldr (touch cap) []

@[simp] theorem recent_cons (cap : ℕ) (a : α) (hist : List α) :
    recent cap (a :: hist) = touch cap a (recent cap hist) := rfl

theorem recent_spec (cap : ℕ) (hist : List α) :
    (recent cap hist).Nodup ∧ (recent cap hist).Pairwise fun x y => age hist x < age hist y := by
  induction hist with
  | nil => exact ⟨List.nodup_nil, List.Pairwise.nil⟩
  | cons a hist ih => exact ⟨nodup_touch ih.1, touch_pairwise_idxOf ih.1 ih.2⟩

theorem length_queue_le (cap : ℕ) (hist : List α) : (queue cap hist).length ≤ cap := by
  induction hist with
  | nil => exact Nat.zero_le cap
  | cons a hist ih =>
    rw [queue_cons, push]
    split_ifs
    · exact ih
    · rw [List.length_drop, List.length_append, List.length_singleton]
      omega

/-- The key accessed longest ago is the last one in order of last access. -/
theorem last_eq_of_oldestFirst {y : α} (hperm : (x :: l).Perm (r ++ [y]))
    (hr : (r ++ [y]).Pairwise fun x y => age hist x < age hist y)
    (hold : OldestFirst hist (x :: l)) : y = x := by
  by_contra hne
  have hx : x ∈ r := by
    have hmem := hperm.mem_iff.1 List.mem_cons_self
    exact (List.mem_append.1 hmem).resolve_right fun h => hne (List.mem_singleton.1 h).symm
  have hy : y ∈ l := by
    have hmem := hperm.mem_iff.2 (List.mem_append_right r (List.mem_singleton_self y))
    exact (List.mem_cons.1 hmem).resolve_left hne
  have hlast := (List.pairwise_append.1 hr).2.2 x hx y (List.mem_singleton_self y)
  exact Nat.lt_asymm hlast (hold x rfl y hy)

/-- **The two orders push out the same key** where the first key of the queue is the
one accessed longest ago. -/
theorem push_perm_touch (hperm : (x :: l).Perm r)
    (hr : r.Pairwise fun x y => age hist x < age hist y)
    (hold : OldestFirst hist (x :: l)) (ha : a ∉ x :: l) (hl : (x :: l).length = cap) :
    (push cap a (x :: l)).Perm (touch cap a r) := by
  rcases List.eq_nil_or_concat r with rfl | ⟨s, y, rfl⟩
  · exact absurd hperm.length_eq (Nat.succ_ne_zero _)
  rw [List.concat_eq_append] at *
  obtain rfl := last_eq_of_oldestFirst hperm hr hold
  have hs : l.Perm s := by
    have hcons := hperm.trans List.perm_append_comm
    exact hcons.cons_inv
  rw [push_of_full ha hl, touch_of_full (fun h => ha (hperm.mem_iff.2 h))
    (Nat.le_of_eq (hl.symm.trans hperm.length_eq)), List.dropLast_concat]
  exact List.perm_append_comm.trans (hs.cons a)

/-- **A queue that acts as the order of last access.** -/
theorem queue_perm_recent (hcap : 0 < cap)
    (h : ∀ p a q, hist = p ++ a :: q → a ∉ queue cap q → (queue cap q).length = cap →
      OldestFirst q (queue cap q)) : (queue cap hist).Perm (recent cap hist) := by
  induction hist with
  | nil => exact .refl _
  | cons a hist ih =>
    have hperm := ih fun p b q hp => h (a :: p) b q (by rw [hp, List.cons_append])
    have hmem := hperm.mem_iff (a := a)
    rw [queue_cons, recent_cons]
    by_cases ha : a ∈ queue cap hist
    · rw [push_of_mem ha, touch_of_mem (hmem.1 ha)]
      exact hperm.trans (List.perm_cons_erase (hmem.1 ha))
    · rcases Nat.lt_or_eq_of_le (length_queue_le cap hist) with hlt | hfull
      · rw [push_of_lt ha hlt, touch_of_lt (fun h => ha (hmem.2 h)) (hperm.length_eq ▸ hlt)]
        exact List.perm_append_comm.trans (hperm.cons a)
      · have hold := h [] a hist rfl ha hfull
        obtain ⟨x, l, hq⟩ := List.exists_cons_of_length_pos (hfull.symm ▸ hcap)
        rw [hq] at hperm ha hfull hold ⊢
        exact push_perm_touch hperm (recent_spec cap hist).2 hold ha hfull

end Fifo
end Lib
