/-
# What is copied to the new block

In case 4 `mm_realloc` copies as many bytes as are asked for, not as many as
the old block has.  A block that was absorbed in case 3 counts as a part of the
old one; still, a request for more than that reads beyond it (`copy_own_iff`).
-/

import CsappLabs.MallocLab.Realloc
import CsappLabs.MallocLab.Sizes

namespace CsappLabs
namespace MallocLab

open Lib Lib.CInt Lib.Memory Lib.Tiling Lib.Links

variable {L : Layout} {w : World} {h h' h₀ : Heap} {bs pre post : List Blk} {fs : List ℕ}
  {b c : Blk} {a n p q : ℕ}

/-! ### Where the copy is made -/

/-- The block behind `block` is free, as case 3 of `mm_realloc` sees it. -/
def nextFree (L : Layout) (h : Heap) (block : ℕ) : Prop :=
  add32 block (h.blockSize block) ≠ L.head ∧
    h.isAllocated (add32 block (h.blockSize block)) = false ∧
    h.size (add32 block (h.blockSize block)) ≠ 0

instance (L : Layout) (h : Heap) (block : ℕ) : Decidable (nextFree L h block) :=
  inferInstanceAs (Decidable (_ ∧ _ ∧ _))

/-- The block with the one behind it, if that is free. -/
def withNext (L : Layout) (h : Heap) (block : ℕ) : Heap :=
  if nextFree L h block then absorbNext h block (add32 block (h.blockSize block)) else h

/-- The heap in which `mm_realloc` comes to its case 4, if it does. -/
def moveHeap (L : Layout) (h : Heap) (ptr size : ℕ) : Option Heap :=
  let block := sub32 ptr SIZEOF_BLOCK
  if ptr = 0 ∨ size = 0 ∨ h.isAllocated block = false then none
  else
    let h := clearLinks h block
    if add32 (getBlockSize size) SIZE_OF_BLOCK < h.blockSize block then none
    else if add32 block (h.blockSize block) = sub32 h.brk 4 ∧
        SIZE_OF_BLOCK < sub32 (getBlockSize size) (h.blockSize block) then none
    else if nextFree L h block ∧
        add32 (getBlockSize size) SIZE_OF_BLOCK < (withNext L h block).blockSize block then none
    else some (withNext L h block)

/-- **Case 4 is run in this heap**, and where there is none `mm_realloc` returns
from one of the cases 1 to 3. -/
theorem mmRealloc_moveHeap (hp : p ≠ 0) (hn : n ≠ 0) (hb : sub32 p SIZEOF_BLOCK = a)
    (ha : h.isAllocated a = true) :
    mmRealloc L h p n = match moveHeap L h p n with
      | some h => reallocMove L h p n
      | none =>
        if add32 (getBlockSize n) SIZE_OF_BLOCK < (clearLinks h a).blockSize a then
          .ok ((splitBlock L (clearLinks h a) a (getBlockSize n) true).setAllocated a, some p)
        else match directGrowth h p n with
          | some e => expandHeap L (clearLinks h a) e >>= fun h =>
              .ok (((removeFromList h (h.next L.head)).setSize a (getBlockSize n)).setAllocated a,
                some p)
          | none => .ok ((splitBlock L (withNext L (clearLinks h a) a) a
              (getBlockSize n) true).setAllocated a, some p) := by
  have hnot : ¬(p = 0 ∨ n = 0 ∨ h.isAllocated a = false) := by simp [hp, hn, ha]
  have hsize : (clearLinks h a).blockSize a = h.blockSize a :=
    clearLinks_blockSize h (hb ▸ u32_lt _)
  have hbrk : (clearLinks h a).brk = h.brk := rfl
  rw [mmRealloc_directGrowth hp hn hb ha, directGrowth, moveHeap]
  simp only [hb, if_neg hnot, ← hsize, ← hbrk, reallocMerge_eq]
  generalize clearLinks h a = h₀
  by_cases hcut : add32 (getBlockSize n) SIZE_OF_BLOCK < h₀.blockSize a
  · simp only [if_pos hcut]
  · simp only [if_neg hcut]
    by_cases hlast : add32 a (h₀.blockSize a) = sub32 h₀.brk 4 ∧
        SIZE_OF_BLOCK < sub32 (getBlockSize n) (h₀.blockSize a)
    · simp only [if_pos hlast]
    · simp only [if_neg hlast]
      by_cases hfree : nextFree L h₀ a
      · have hwith : withNext L h₀ a = absorbNext h₀ a (add32 a (h₀.blockSize a)) := if_pos hfree
        rw [if_pos (show _ ∧ _ ∧ _ from hfree), hwith]
        by_cases hcut' : add32 (getBlockSize n) SIZE_OF_BLOCK <
            (absorbNext h₀ a (add32 a (h₀.blockSize a))).blockSize a
        · rw [if_pos hcut', if_pos ⟨hfree, hcut'⟩]
        · rw [if_neg hcut', if_neg fun hc => hcut' hc.2]
      · have hwith : withNext L h₀ a = h₀ := if_neg hfree
        rw [if_neg (show ¬(_ ∧ _ ∧ _) from hfree), hwith, if_neg fun hc => hfree hc.1]

/-- The copy is made in the heap that `mm_malloc` leaves, to the block that it returns. -/
theorem mmRealloc_copies (hm : moveHeap L h p n = some h₀)
    (hc : mmMalloc L h₀ n = .ok (h', some q)) :
    mmRealloc L h p n = .ok (mmFree L { h' with mem := h'.mem.copy q p n } p, some q) := by
  have hnot : ¬(p = 0 ∨ n = 0 ∨ h.isAllocated (sub32 p SIZEOF_BLOCK) = false) := by
    intro hnone
    rw [moveHeap] at hm
    simp only [if_pos hnone] at hm
    exact absurd hm (by simp)
  obtain ⟨hp, hnot⟩ := not_or.1 hnot
  obtain ⟨hn, ha⟩ := not_or.1 hnot
  rw [mmRealloc_moveHeap hp hn rfl (by simpa using ha), hm]
  exact reallocMove_ok hc

/-! ### What it copies -/

/-- The copy of `size` bytes from `ptr` to `newPtr` reads the payload area of the
block at `ptr`, below the break, and nothing that it writes. -/
structure CopiesOwn (h : Heap) (ptr size newPtr : ℕ) : Prop where
  payload : ptr + size ≤ ptr - 12 + h.blockSize (ptr - 12) - 4
  brk : ptr + size ≤ h.brk
  apart : ptr + size ≤ newPtr ∨ newPtr + size ≤ ptr

/-- The size of the block at `a`, and of the one behind it if that is free. -/
def extent (h : Heap) (a : ℕ) : ℕ :=
  h.blockSize a +
    if h.isAllocated (a + h.blockSize a) = false then h.blockSize (a + h.blockSize a) else 0

/-- The block in the row as case 4 finds it. -/
theorem WellFormed.moveHeap_ok (hW : WellFormed L h (pre ++ b :: post) fs) (hb : b.alloc = true)
    (hm : moveHeap L h (b.addr + 12) n = some h₀) :
    ∃ b' post' fs', WellFormed L h₀ (pre ++ b' :: post') fs' ∧ b'.addr = b.addr ∧
      b'.alloc = true ∧ b'.size = extent h b.addr := by
  have hB := hW.blocks
  have halloc : h.isAllocated b.addr = true := (hB.isAllocated_eq (by simp)).trans hb
  obtain ⟨hW₁, -⟩ := hW.clearLinks_ok (b := b) (by simp) hb
  have hh₀ : withNext L (clearLinks h b.addr) b.addr = h₀ := by
    rw [moveHeap, hB.sub32_payload (by simp)] at hm
    simp only at hm
    split_ifs at hm
    all_goals exact Option.some.inj hm
  rw [extent, hB.blockSize_eq (b := b) (by simp)]
  generalize clearLinks h b.addr = h₁ at hW₁ hh₀
  by_cases hfree : ∃ y post', post = y :: post' ∧ y.alloc = false
  · rw [if_pos (hB.behind_free_iff.2 hfree)]
    have hnext : nextFree L h₁ b.addr := (nextFree_iff hW₁.blocks).2 hfree
    rw [withNext, if_pos hnext] at hh₀
    obtain ⟨y, post, rfl, hy⟩ := hfree
    have hya : y.addr = b.addr + b.size := (tiles_split.1 hB.row).2.1
    rw [nextBlock_eq hW₁.blocks] at hh₀
    rw [← hya, hB.blockSize_eq (b := y) (by simp)]
    exact ⟨b.absorb y, post, _, hh₀ ▸ (hW₁.absorbNext_ok hy).1, rfl, hb, rfl⟩
  · rw [if_neg fun hf => hfree (hB.behind_free_iff.1 hf)]
    have hnext : ¬nextFree L h₁ b.addr := fun hf => hfree ((nextFree_iff hW₁.blocks).1 hf)
    rw [withNext, if_neg hnext] at hh₀
    exact ⟨b, post, fs, hh₀ ▸ hW₁, rfl, hb, rfl⟩

/-- The bytes copied are those of the block if it has as many. -/
theorem WellFormed.copiesOwn_iff (hW : WellFormed L h (pre ++ b :: post) fs) (hb : b.alloc = true)
    (hc : mmMalloc L h n = .ok (h', some q)) :
    CopiesOwn h (b.addr + 12) n q ↔ n + 16 ≤ b.size := by
  have hB := hW.blocks
  have hbm := hB.mem (b := b) (by simp)
  have hbrk := hB.brk
  have hheap := L.heap_lt
  have hmax : MAX_HEAP = 20971520 := rfl
  have hsize := hB.blockSize_eq (b := b) (by simp)
  constructor
  · rintro ⟨hpay, -, -⟩
    rw [Nat.add_sub_cancel, hsize] at hpay
    omega
  · intro hle
    obtain ⟨hg, -⟩ := getBlockSize_bounds (n := n) (by omega)
    refine ⟨?_, by omega, ?_⟩
    · rw [Nat.add_sub_cancel, hsize]
      omega
    rcases mmMalloc_ok hW (n := n) (by omega) with
      ⟨-, -, _, _, _, he, -⟩ | ⟨h₁, pre₁, c, post₁, fs₁, he, hm, -, hW₁⟩
    · exact absurd (he.symm.trans hc) (by simp)
    · obtain rfl : c.addr + 12 = q := by
        have heq := he.symm.trans hc
        simp only [Except.ok.injEq, Prod.mk.injEq, Option.some.injEq] at heq
        exact heq.2
      obtain ⟨hcf, hcs, -⟩ := hm.size_bounds
      -- the old block is another block of the row
      have hbmem : b ∈ allocated (pre₁ ++ post₁) := by
        have hd : b ∈ allocated (pre ++ b :: post) := List.mem_filter.2 ⟨by simp, hb⟩
        rw [← hm.allocated_eq] at hd
        simpa [allocated, hcf] using hd
      have hne : b.addr ≠ c.addr :=
        hW₁.blocks.addr_ne (c := { c with alloc := true }) (List.mem_filter.1 hbmem).1
      have hbrow := (List.mem_filter.1 (allocated_cons { c with alloc := true } hbmem)).1
      rcases hW₁.blocks.apart_of_ne hbrow (c := { c with alloc := true }) (by simp) hne with h | h
      · simp only at h
        omega
      · simp only at h
        omega

/-- **When the copy stays within the old block.**  After any careful run, and for
every size, exactly if the block has that many bytes of payload, a free block behind it
included. -/
theorem copy_own_iff (hw : (mmSystem L).ReachBy Careful w) (hp : w.Holds p)
    (hm : moveHeap L w.heap p n = some h) (hc : mmMalloc L h n = .ok (h', some q)) :
    CopiesOwn h p n q ↔ n + 16 ≤ extent w.heap (p - 12) := by
  obtain ⟨bs, fs, hV⟩ := valid_of_careful hw
  obtain ⟨pre, b, post, rfl, hb, rfl⟩ := hV.exists_block hp
  obtain ⟨b', post', fs', hW, ha, hb', hsize⟩ := hV.toWellFormed.moveHeap_ok hb hm
  rw [Nat.add_sub_cancel, ← hsize, ← ha]
  exact hW.copiesOwn_iff hb' hc

/-- 95 bytes in place of 100, in a block that is too small to be cut. -/
theorem copy_own_iff_smaller :
    let w := ((mmSystem .low).runBy Careful (.first .low fun _ => 7)
      [.malloc 100, .malloc 1]).getD (.first .low fun _ => 7)
    ∃ h h' q, moveHeap .low w.heap 148 95 = some h ∧ mmMalloc .low h 95 = .ok (h', some q) ∧
      CopiesOwn h 148 95 q := by
  intro w
  have hw : (mmSystem .low).ReachBy Careful w :=
    System.ReachBy.getD_runBy (.init (init_first _ _)) _
  have hfacts : w.Holds 148 ∧ 95 + 16 ≤ extent w.heap (148 - 12) ∧
      ((moveHeap .low w.heap 148 95).bind fun h => (mmMalloc .low h 95).toOption.bind
        fun r => r.2).isSome := by decide +kernel
  clear_value w
  obtain ⟨hp, hle, hmove⟩ := hfacts
  obtain ⟨q, hq⟩ := Option.isSome_iff_exists.1 hmove
  obtain ⟨h, hm, hq⟩ := Option.bind_eq_some_iff.1 hq
  obtain ⟨⟨h', r⟩, hc, rfl⟩ := Option.bind_eq_some_iff.1 hq
  have hc := toOption_eq_some.1 hc
  exact ⟨h, h', q, hm, hc, (copy_own_iff hw hp hm hc).2 hle⟩

/-- 200 bytes in place of 100: the copy goes on with the block behind. -/
theorem copy_reads_beyond : ∃ w : World, (mmSystem .low).ReachBy Careful w ∧
    w.live = [(264, 50), (148, 100)] ∧ w.heap.blockSize 136 = 116 ∧
    ∃ h h' q, moveHeap .low w.heap 148 200 = some h ∧
      mmMalloc .low h 200 = .ok (h', some q) ∧ h.blockSize 136 = 116 ∧ ¬CopiesOwn h 148 200 q := by
  have h₀ : (mmSystem .low).ReachBy Careful (.first .low fun _ => 7) := .init (init_first _ _)
  have hw := h₀.getD_runBy [.malloc 100, .malloc 50]
  generalize hrun : ((mmSystem .low).runBy Careful (.first .low fun _ => 7)
    [.malloc 100, .malloc 50]).getD (.first .low fun _ => 7) = w at hw
  have hfacts : w.live = [(264, 50), (148, 100)] ∧ w.heap.blockSize 136 = 116 ∧
      ((moveHeap .low w.heap 148 200).bind fun h => (mmMalloc .low h 200).toOption.bind
        fun r => r.2.map fun q => (q, h.blockSize 136)) = some (332, 116) := by
    rw [← hrun]
    decide +kernel
  obtain ⟨hlive, hsize, hmove⟩ := hfacts
  obtain ⟨h, hm, hq⟩ := Option.bind_eq_some_iff.1 hmove
  obtain ⟨⟨h', r⟩, hc, hq⟩ := Option.bind_eq_some_iff.1 hq
  obtain ⟨q, hr, hqs⟩ := Option.map_eq_some_iff.1 hq
  obtain ⟨rfl, hsize'⟩ := Prod.mk.inj hqs
  obtain rfl : r = some 332 := hr
  refine ⟨w, hw, hlive, hsize, h, h', 332, hm, toOption_eq_some.1 hc, hsize', ?_⟩
  rintro ⟨hpay, -, -⟩
  rw [show 148 - 12 = 136 from rfl, hsize'] at hpay
  omega

end MallocLab
end CsappLabs
