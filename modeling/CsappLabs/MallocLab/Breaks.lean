/-
# The break

`mem_brk` moves only in `mem_sbrk`, and only forwards.  So a call that returns never
makes the heap smaller, whatever the heap contains.
-/

import CsappLabs.MallocLab.Resize

namespace CsappLabs
namespace MallocLab

open Lib Lib.CInt Lib.Memory

variable {L : Layout} {h h' : Heap} {b p n fuel : ℕ} {r : Heap × Option ℕ}

theorem bind_eq_ok {ε α β : Type} {x : Except ε α} {f : α → Except ε β} {c : β}
    (h : (x >>= f) = .ok c) : ∃ a, x = .ok a ∧ f a = .ok c := by
  cases x with
  | error e => exact absurd h (by simp [error_bind])
  | ok a => exact ⟨a, rfl, h⟩

@[simp] theorem removeFromList_brk : (removeFromList h b).brk = h.brk := rfl

@[simp] theorem insertToList_brk : (insertToList h b p).brk = h.brk := rfl

@[simp] theorem splitBlock_brk {a : Bool} : (splitBlock L h b n a).brk = h.brk := by
  cases a <;> rfl

@[simp] theorem coalesce_brk {a : Bool} : (coalesce L h b a).1.brk = h.brk := by
  cases a <;> unfold coalesce <;> simp only <;> split_ifs <;> rfl

@[simp] theorem mmFree_brk : (mmFree L h p).brk = h.brk := by
  unfold mmFree
  simp only
  split_ifs
  · rfl
  · exact insertToList_brk.trans coalesce_brk
  · exact coalesce_brk

theorem findFitLoop_brk (he : findFitLoop L h n fuel b = .ok r) : r.1.brk = h.brk := by
  induction fuel generalizing b with
  | zero => exact absurd he (by simp [findFitLoop])
  | succ fuel ih =>
    rw [findFitLoop] at he
    split at he
    · exact congrArg (fun r => r.1.brk) (Except.ok.inj he).symm
    · split at he
      · exact absurd he (by simp)
      · split at he
        · split at he
          · exact absurd he (by simp)
          · obtain rfl := Except.ok.inj he
            refine removeFromList_brk.trans ?_
            split
            · exact splitBlock_brk
            · rfl
        · exact ih he

theorem coalesceLoop_brk (he : coalesceLoop L fuel h b = .ok h') : h'.brk = h.brk := by
  induction fuel generalizing h b with
  | zero => exact absurd he (by simp [coalesceLoop])
  | succ fuel ih =>
    rw [coalesceLoop] at he
    split_ifs at he
    · exact congrArg Heap.brk (Except.ok.inj he).symm
    · exact (ih he).trans coalesce_brk

theorem addBlock_brk (he : addBlock L h n = .ok h') : h'.brk = h.brk + n := by
  unfold addBlock at he
  simp only at he
  cases hs : memSbrk L h n with
  | none => rw [hs] at he; exact absurd he (by simp)
  | some x =>
    obtain ⟨-, hx⟩ := Option.ite_none_left_eq_some.1 hs
    obtain rfl := Option.some.inj hx
    rw [hs] at he
    simp only at he
    by_cases hout : L.memStart + MAX_HEAP < h.brk + n
    · rw [if_pos hout] at he
      exact absurd he (by simp)
    · rw [if_neg hout] at he
      obtain rfl := Except.ok.inj he
      have hheap := L.heap_lt
      exact add32_of_lt (by omega)

theorem expandHeap_brk (he : expandHeap L h n = .ok h') : h'.brk = h.brk + n := by
  unfold expandHeap at he
  split_ifs at he
  · exact absurd he (by simp [throw, throwThe, MonadExceptOf.throw, error_bind])
  · obtain ⟨h₁, hloop, hadd⟩ := bind_eq_ok he
    rw [addBlock_brk hadd, coalesceLoop_brk hloop]

/-- **`mm_malloc` never moves the break back.** -/
theorem mmMalloc_brk (he : mmMalloc L h n = .ok r) : h.brk ≤ r.1.brk := by
  unfold mmMalloc at he
  obtain ⟨⟨h₁, block⟩, hf, he⟩ := bind_eq_ok he
  have hbrk : h₁.brk = h.brk := findFitLoop_brk hf
  cases block with
  | some block =>
    obtain rfl := Except.ok.inj he
    exact hbrk.ge
  | none =>
    obtain ⟨h₂, hexp, he⟩ := bind_eq_ok he
    obtain ⟨⟨h₃, block⟩, hf', he⟩ := bind_eq_ok he
    have hbrk₂ := expandHeap_brk hexp
    have hbrk₃ : h₃.brk = h₂.brk := findFitLoop_brk hf'
    have hle : h.brk ≤ h₃.brk := by omega
    cases block with
    | some block => obtain rfl := Except.ok.inj he; exact hle
    | none => obtain rfl := Except.ok.inj he; exact hle

theorem reallocMove_brk (he : reallocMove L h p n = .ok r) : h.brk ≤ r.1.brk := by
  unfold reallocMove at he
  obtain ⟨⟨h₁, q⟩, hm, he⟩ := bind_eq_ok he
  have hbrk : h.brk ≤ h₁.brk := mmMalloc_brk hm
  cases q with
  | none => obtain rfl := Except.ok.inj he; exact hbrk
  | some q =>
    obtain rfl := Except.ok.inj he
    show h.brk ≤ (mmFree L { h₁ with mem := Memory.copy h₁.mem q p n } p).brk
    rw [mmFree_brk]
    exact hbrk

@[simp] theorem clearLinks_brk : (clearLinks h b).brk = h.brk := rfl

@[simp] theorem absorbNext_brk {c : ℕ} : (absorbNext h b c).brk = h.brk := rfl

theorem setAllocated_brk : (h.setAllocated b).brk = h.brk := rfl

theorem reallocMerge_brk {c : ℕ} (he : reallocMerge L h p n b c = .ok r) : h.brk ≤ r.1.brk := by
  rw [reallocMerge_eq] at he
  split at he
  · split at he
    · obtain rfl := Except.ok.inj he
      exact (setAllocated_brk.trans (splitBlock_brk.trans absorbNext_brk)).ge
    · exact absorbNext_brk.ge.trans (reallocMove_brk he)
  · exact reallocMove_brk he

theorem reallocBlock_brk (he : reallocBlock L h p n b = .ok r) : h.brk ≤ r.1.brk := by
  cases ha : h.isAllocated b with
  | false =>
    rw [reallocBlock, if_pos ha] at he
    exact absurd he (by simp [throw, throwThe, MonadExceptOf.throw, error_bind])
  | true =>
    rw [reallocBlock_eq ha] at he
    split at he
    · obtain rfl := Except.ok.inj he
      exact (setAllocated_brk.trans (splitBlock_brk.trans clearLinks_brk)).ge
    · split at he
      · obtain ⟨h₁, hexp, he⟩ := bind_eq_ok he
        obtain rfl := Except.ok.inj he
        have hbrk := expandHeap_brk hexp
        rw [clearLinks_brk] at hbrk
        exact (Nat.le_add_right ..).trans_eq hbrk.symm
      · exact clearLinks_brk.ge.trans (reallocMerge_brk he)

/-- **`mm_realloc` never moves the break back.** -/
theorem mmRealloc_brk (he : mmRealloc L h p n = .ok r) : h.brk ≤ r.1.brk := by
  unfold mmRealloc at he
  split_ifs at he
  · exact mmMalloc_brk he
  · obtain rfl := Except.ok.inj he
    exact mmFree_brk.ge
  · exact reallocBlock_brk he

end MallocLab
end CsappLabs
