/-
# Reuse distances

The keys in order of last access are one list (`recent`), and a cache of `cap` keys that
evicts the least recently accessed one holds its first `cap` keys (`touch_take`).  So the
caches of all capacities hold beginnings of the same list, and an access hits exactly in
those that are bigger than the position of its key, its reuse distance.
-/

import CsappLabs.Lib.Recency
import Mathlib.Data.List.Induction
import Mathlib.Data.List.Basic
import Mathlib.Data.List.Dedup

namespace Lib
namespace Recency

variable {α : Type*} [DecidableEq α] {cap : ℕ} {a x : α} {l as : List α}

/-- The keys accessed, the last one first. -/
def recent (as : List α) : List α := as.foldl (fun l a => a :: l.erase a) []

theorem recent_concat (as : List α) (a : α) : recent (as ++ [a]) = a :: (recent as).erase a := by
  rw [recent, List.foldl_append]
  rfl

theorem nodup_recent (as : List α) : (recent as).Nodup := by
  induction as using List.reverseRecOn with
  | nil => exact List.nodup_nil
  | append_singleton as a ih =>
    rw [recent_concat, List.nodup_cons]
    exact ⟨ih.not_mem_erase, ih.erase a⟩

theorem mem_recent : x ∈ recent as ↔ x ∈ as := by
  induction as using List.reverseRecOn with
  | nil => rfl
  | append_singleton as a ih =>
    rw [recent_concat, List.mem_cons, (nodup_recent as).mem_erase_iff, ih, List.mem_append,
      List.mem_singleton]
    by_cases hx : x = a <;> simp [hx]

/-- It has each key once. -/
theorem length_recent (as : List α) : (recent as).length = as.dedup.length :=
  ((List.perm_ext_iff_of_nodup (nodup_recent as) (List.nodup_dedup as)).2 fun x => by
    rw [mem_recent, List.mem_dedup]).length_eq

theorem length_recent_concat (as : List α) (a : α) :
    (recent (as ++ [a])).length = (recent as).length + if a ∈ as then 0 else 1 := by
  rw [recent_concat, List.length_cons]
  split_ifs with h
  · rw [List.length_erase_of_mem (mem_recent.2 h)]
    exact Nat.sub_add_cancel (List.length_pos_of_mem (mem_recent.2 h))
  · rw [List.erase_of_not_mem (mt mem_recent.1 h)]

/-- The first keys, without one of them. -/
theorem erase_take (h : a ∈ l.take cap) : (l.take cap).erase a = (l.erase a).take (cap - 1) := by
  induction l generalizing cap with
  | nil => simp at h
  | cons b l ih =>
    obtain _ | cap := cap
    · simp at h
    · rw [List.take_succ_cons] at h ⊢
      rw [Nat.add_sub_cancel]
      by_cases hb : b = a
      · rw [hb, List.erase_cons_head, List.erase_cons_head]
      · have hmem : a ∈ l.take cap := (List.mem_cons.1 h).resolve_left (Ne.symm hb)
        obtain ⟨k, rfl⟩ : ∃ k, cap = k + 1 := Nat.exists_eq_add_one_of_ne_zero (by
          rintro rfl
          simp at hmem)
        rw [List.erase_cons_tail (by simpa using hb), List.erase_cons_tail (by simpa using hb),
          List.take_succ_cons, ih hmem, Nat.add_sub_cancel]

/-- A key that comes later does not change them. -/
theorem take_erase {n : ℕ} (h : a ∉ l.take (n + 1)) : (l.erase a).take n = l.take n := by
  induction l generalizing n with
  | nil => rfl
  | cons b l ih =>
    rw [List.take_succ_cons, List.mem_cons, not_or] at h
    rw [List.erase_cons_tail (by simpa using Ne.symm h.1)]
    cases n with
    | zero => rfl
    | succ n => rw [List.take_succ_cons, List.take_succ_cons, ih h.2]

/-- **A cache holds the first keys** of the list, whatever its capacity. -/
theorem touch_take (hcap : 1 ≤ cap) (l : List α) (a : α) :
    touch cap a (l.take cap) = (a :: l.erase a).take cap := by
  obtain ⟨n, rfl⟩ := Nat.exists_eq_add_of_le' hcap
  rw [List.take_succ_cons]
  by_cases hmem : a ∈ l.take (n + 1)
  · rw [touch_of_mem hmem, erase_take hmem, Nat.add_sub_cancel]
  · rw [take_erase hmem]
    by_cases hlen : l.length < n + 1
    · rw [touch_of_lt hmem (by rw [List.length_take]; omega),
        List.take_of_length_le (Nat.le_of_lt hlen), List.take_of_length_le (Nat.le_of_lt_succ hlen)]
    · rw [touch_of_full hmem (by rw [List.length_take]; omega), List.dropLast_eq_take,
        List.length_take, List.take_take, show min (min (n + 1) l.length - 1) (n + 1) = n by omega]

/-- The position of a key in the list. -/
theorem mem_take_iff : a ∈ l.take cap ↔ (l.idxOf? a).any (· < cap) = true := by
  induction l generalizing cap with
  | nil => simp
  | cons b l ih =>
    cases cap with
    | zero => cases (b :: l).idxOf? a <;> simp
    | succ n =>
      rw [List.take_succ_cons, List.mem_cons, ih, List.idxOf?_cons]
      by_cases hb : b = a
      · simp [hb]
      · rw [if_neg (by simpa using hb)]
        cases l.idxOf? a <;> simp [Ne.symm hb]

end Recency
end Lib
