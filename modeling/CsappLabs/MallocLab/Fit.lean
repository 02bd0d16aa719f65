/-
# Finding a block

`find_fit` takes the first listed block that is large enough out of the list and
cuts off the rest of it where that is worth a block of its own (`Found`).  The
block is still marked free then, and `SET_ALLOCATED` completes the step
(`Rep.allocate`).

`split_block` writes the tags of the two parts (`splitTags_ok`) and links the
second one into the list, where its first part was found or at the front.
-/

import CsappLabs.MallocLab.Expand

namespace CsappLabs
namespace MallocLab

open Lib Lib.CInt Lib.Memory Lib.Tiling Lib.Links

variable {L : Layout} {h h' : Heap} {bs pre post : List Blk} {fs fs' u w : List ℕ} {b c : Blk}
  {a size : ℕ}

/-! ### Splitting -/

namespace Blk

/-- The first part of a split block. -/
def front (c : Blk) (size : ℕ) : Blk := ⟨c.addr, size, false, true⟩

/-- The second part. -/
def rest (c : Blk) (size : ℕ) : Blk := ⟨c.addr + size, c.size - size, false, true⟩

end Blk

/-- The words that `split_block` writes for the tags. -/
def SplitWord (c : Blk) (size : ℕ) : Set ℕ :=
  {q | q = c.addr ∨ q = c.addr + size - 4 ∨ q = c.addr + size ∨ q = c.addr + c.size - 4}

/-- The tags that `split_block` writes, before it links the second part into the list. -/
theorem splitBlock_words (hc4 : 4 ∣ c.addr) (hc4' : 4 ∣ c.size) (hlt : c.addr + c.size < 2 ^ 32)
    (hsize : h.blockSize c.addr = c.size) (hs : 4 ∣ size) (h16 : 16 ≤ size)
    (hle : size + 16 ≤ c.size) (fromAllocated : Bool) :
    ∃ h₁, splitBlock L h c.addr size fromAllocated =
        (if fromAllocated then insertToList h₁ (c.addr + size) L.head
          else insertToList h₁ (c.addr + size) c.addr) ∧
      Within (SplitWord c size) h h₁ ∧
      (h₁.read c.addr = size ∧ h₁.read (c.addr + size - 4) = size) ∧
      h₁.read (c.addr + size) = c.size - size ∧
      h₁.read (c.addr + c.size - 4) = c.size - size := by
  have hadd : add32 c.addr size = c.addr + size := add32_of_lt (by omega)
  have hsub : sub32 (h.blockSize c.addr) size = c.size - size := by
    rw [hsize, sub32_of_le (by omega) (by omega)]
  -- the second part
  let h₁ : Heap := h.write (c.addr + size) (c.size - size)
  have hread₁ : h₁.read (c.addr + size) = c.size - size := Heap.read_write_self (by omega)
  have hsize₁ : h₁.blockSize (c.addr + size) = c.size - size :=
    Heap.blockSize_of_read hread₁ (by omega)
  have hfoot₁ : h₁.footer (c.addr + size) = c.addr + c.size - 4 := by
    rw [Heap.footer_of_read hread₁ (by omega) (by omega) (by omega)]
    omega
  let h₂ : Heap := h₁.write (c.addr + c.size - 4) (c.size - size)
  have hfree₂ : h₂.setFree (c.addr + size) = h₂.write (c.addr + size) (c.size - size) := by
    have hread₂ : h₂.read (c.addr + size) = c.size - size := by
      rw [Heap.read_write_of_ne (by omega) (by omega) (by omega), hread₁]
    exact congrArg _ (Heap.blockSize_of_read hread₂ (by omega))
  -- the first part
  let h₃ : Heap := (h₂.write (c.addr + size) (c.size - size)).write c.addr size
  have hread₃ : h₃.read c.addr = size := Heap.read_write_self (by omega)
  have hfoot₃ : h₃.footer c.addr = c.addr + size - 4 :=
    Heap.footer_of_read hread₃ hs (by omega) (by omega)
  let h₄ : Heap := h₃.write (c.addr + size - 4) size
  have hw : Within (SplitWord c size) h h₄ := by
    have hw₁ : Within (SplitWord c size) h h₁ :=
      (Within.refl _ h).write_mem (by omega) (.inr (.inr (.inl rfl)))
    have hw₂ : Within (SplitWord c size) h h₂ := hw₁.write_mem (by omega) (.inr (.inr (.inr rfl)))
    have hw₃ : Within (SplitWord c size) h h₃ :=
      (hw₂.write_mem (by omega) (.inr (.inr (.inl rfl)))).write_mem hc4 (.inl rfl)
    exact hw₃.write_mem (by omega) (.inr (.inl rfl))
  have hsplit : splitBlock L h c.addr size fromAllocated =
      (if fromAllocated then insertToList h₄ (c.addr + size) L.head
        else insertToList h₄ (c.addr + size) c.addr) := by
    have heq : splitBlock L h c.addr size fromAllocated =
        (let k := ((h₁.write (h₁.footer (c.addr + size)) (h₁.blockSize (c.addr + size))).setFree
            (c.addr + size)).setSize c.addr size
          let k := k.write (k.footer c.addr) size
          if fromAllocated then insertToList k (c.addr + size) L.head
          else insertToList k (c.addr + size) c.addr) := by
      rw [splitBlock]
      simp only [hadd, hsub]
      rfl
    rw [heq, hfoot₁, hsize₁, hfree₂]
    show (if fromAllocated then insertToList (h₃.write (h₃.footer c.addr) size) _ _
      else insertToList (h₃.write (h₃.footer c.addr) size) _ _) = _
    rw [hfoot₃]
  have hfar : ∀ q, 4 ∣ q → c.addr + size ≤ q →
      h₄.read q = (h₂.write (c.addr + size) (c.size - size)).read q := fun q hq hle => by
    rw [Heap.read_write_of_ne (by omega) hq (by omega),
      Heap.read_write_of_ne hc4 hq (by omega)]
  refine ⟨h₄, hsplit, hw, ⟨?_, Heap.read_write_self (by omega)⟩, ?_, ?_⟩
  · rw [Heap.read_write_of_ne (by omega) hc4 (by omega), hread₃]
  · rw [hfar _ (by omega) le_rfl, Heap.read_write_self (by omega)]
  · rw [hfar _ (by omega) (by omega), Heap.read_write_of_ne (by omega) (by omega) (by omega),
      Heap.read_write_self (by omega)]

/-- **The tags of a split.** -/
theorem splitTags_ok (hB : Blocks L h (pre ++ [c] ++ post)) (hs : 4 ∣ size) (h16 : 16 ≤ size)
    (hle : size + 16 ≤ c.size) (fromAllocated : Bool) :
    ∃ h₁, splitBlock L h c.addr size fromAllocated =
        (if fromAllocated then insertToList h₁ (c.addr + size) L.head
          else insertToList h₁ (c.addr + size) c.addr) ∧
      Blocks L h₁ (pre ++ [c.front size, c.rest size] ++ post) ∧ Within (SplitWord c size) h h₁ := by
  have hc := hB.mem (b := c) (by simp)
  obtain ⟨h₁, hsplit, hw, hfront, hrest⟩ := splitBlock_words hc.1 (by omega) (by omega)
    (hB.blockSize_eq (b := c) (by simp)) hs h16 hle fromAllocated
  have hrow : Row c.addr [c] (c.addr + c.size) := ⟨rfl, rfl⟩
  have hrow' : Row c.addr [c.front size, c.rest size] (c.addr + c.size) :=
    ⟨rfl, rfl, show c.addr + size + (c.size - size) = c.addr + c.size by omega⟩
  refine ⟨h₁, hsplit, hB.splice hrow (by simp) hrow' hw ?_ ?_ ?_, hw⟩
  · rintro q (rfl | rfl | rfl | rfl) - <;> omega
  · simp only [Sized, List.mem_cons, List.not_mem_nil, or_false, forall_eq_or_imp, forall_eq,
      Blk.front, Blk.rest]
    omega
  · simp only [List.mem_cons, List.not_mem_nil, or_false, forall_eq_or_imp, forall_eq]
    refine ⟨hfront, hrest.1, ?_⟩
    show h₁.read (c.addr + size + (c.size - size) - 4) = c.size - size
    rw [show c.addr + size + (c.size - size) - 4 = c.addr + c.size - 4 by omega]
    exact hrest.2

/-! ### The list -/

namespace Rep

/-- Nodes are inside blocks. -/
theorem inner_head (hR : Rep L h bs fs) : ∀ x ∈ L.head :: fs, Inner L bs x := by
  intro x hx
  rcases List.mem_cons.1 hx with rfl | hx
  · exact .inl rfl
  · exact hR.inner hx

/-- A block that is not listed is apart from the nodes. -/
theorem apart (hR : Rep L h bs fs) (hb : b ∈ bs) (hbf : b.addr ∉ fs) :
    b.addr ∉ L.head :: fs ∧ ∀ x ∈ L.head :: fs, Apart b.addr x := by
  have hbm := hR.blocks.mem hb
  have hnot : b.addr ∉ L.head :: fs := by
    intro hm
    rcases List.mem_cons.1 hm with he | hm
    · have := hR.blocks.apart_head hb
      omega
    · exact hbf hm
  refine ⟨hnot, fun x hx => ?_⟩
  rcases hR.node_apart hb hx fun he => hnot (he ▸ hx) with h | h
  · exact .inr (.inr h)
  · exact .inr (.inl (by omega))

/-- The words of a new node are outside the payload areas. -/
theorem insert_outside (hR : Rep L h bs fs) (hb : b ∈ bs) :
    LinkWord (b.addr :: L.head :: fs) ⊆ Outside bs := by
  rintro q ⟨x, hx, hq⟩
  rcases List.mem_cons.1 hx with rfl | hx
  · exact hR.blocks.outside_header hb (by omega) (by omega)
  · exact hR.link_outside ⟨x, hx, hq⟩

/-- Inserting a node changes no block. -/
theorem insert_blocks (hR : Rep L h bs fs) (hb : b ∈ bs)
    (hw : Within (LinkWord (b.addr :: L.head :: fs)) h h') : Blocks L h' bs := by
  refine hR.blocks.link_frame (fun x hx => ?_) hw
  have := hR.blocks.mem hb
  rcases List.mem_cons.1 hx with rfl | hx
  · exact .inr ⟨b, hb, le_rfl, by omega⟩
  · exact hR.inner_head x hx

/-- **`insert_to_list`** of a free block at the front. -/
theorem insert_front (hR : Rep L h bs fs) (hb : b ∈ bs) (hf : b.alloc = false)
    (hbf : b.addr ∉ fs) :
    Rep L (insertToList h b.addr L.head) bs (b.addr :: fs) ∧
      Keeps bs h (insertToList h b.addr L.head) := by
  obtain ⟨hnew, hap⟩ := hR.apart hb hbf
  have hnode := hR.blocks.node hb
  have hw := hR.listed.within_insert List.mem_cons_self hnode hnew hap
  refine ⟨⟨hR.insert_blocks hb hw, hR.listed.insert_front hnode hnew hap, fun a ha => ?_⟩,
    hw.mono (hR.insert_outside hb)⟩
  rcases List.mem_cons.1 ha with rfl | ha
  · exact ⟨b, hb, rfl, hf⟩
  · exact hR.free a ha

/-- **`insert_to_list`** of a free block behind a listed one. -/
theorem insert_after (hR : Rep L h bs (u ++ a :: w)) (hb : b ∈ bs) (hf : b.alloc = false)
    (hbf : b.addr ∉ u ++ a :: w) :
    Rep L (insertToList h b.addr a) bs (u ++ a :: b.addr :: w) ∧
      Keeps bs h (insertToList h b.addr a) := by
  obtain ⟨hnew, hap⟩ := hR.apart hb hbf
  have hnode := hR.blocks.node hb
  have hw := hR.listed.within_insert (p := a) (by simp) hnode hnew hap
  refine ⟨⟨hR.insert_blocks hb hw, hR.listed.insert_after hnode hnew hap, fun x hx => ?_⟩,
    hw.mono (hR.insert_outside hb)⟩
  by_cases hxb : x = b.addr
  · exact ⟨b, hb, hxb.symm, hf⟩
  · refine hR.free x ?_
    simp only [List.mem_append, List.mem_cons] at hx ⊢
    tauto

/-- **`remove_from_list`** of a listed block. -/
theorem remove (hR : Rep L h bs (u ++ a :: w)) :
    Rep L (removeFromList h a) bs (u ++ w) ∧ Keeps bs h (removeFromList h a) := by
  have ha : a ∈ u ++ a :: w := by simp
  have hw := hR.listed.within_remove ha
  exact ⟨⟨hR.blocks.link_frame hR.inner_head hw, hR.listed.remove_middle, fun x hx =>
    hR.free x (mem_middle a hx)⟩, hw.mono hR.link_outside⟩

/-- The tags of a split keep the list. -/
theorem splitTags (hR : Rep L h (pre ++ [c] ++ post) fs) (hs : 4 ∣ size) (h16 : 16 ≤ size)
    (hle : size + 16 ≤ c.size) (hw : Within (SplitWord c size) h h')
    (hB : Blocks L h' (pre ++ [c.front size, c.rest size] ++ post)) :
    Rep L h' (pre ++ [c.front size, c.rest size] ++ post) fs := by
  have hc := hR.blocks.mem (b := c) (by simp)
  refine ⟨hB, hR.listed.frame hw ?_, fun a ha => ?_⟩
  · rintro q hq - ⟨x, hx, hqx⟩
    by_cases hxc : x = c.addr
    · rcases hq with rfl | rfl | rfl | rfl <;> omega
    · have := hR.node_apart (by simp) hx hxc
      rcases hq with rfl | rfl | rfl | rfl <;> omega
  · obtain ⟨d, hd, rfl, hf⟩ := hR.free a ha
    simp only [List.mem_append, List.mem_singleton] at hd
    rcases hd with (hd | rfl) | hd
    · exact ⟨d, by simp [hd], rfl, hf⟩
    · exact ⟨d.front size, by simp, rfl, rfl⟩
    · exact ⟨d, by simp [hd], rfl, hf⟩

/-- **`split_block`** of a listed block. -/
theorem split (hR : Rep L h (pre ++ [c] ++ post) (u ++ c.addr :: w)) (hcf : c.alloc = false)
    (hs : 4 ∣ size) (h16 : 16 ≤ size) (hle : size + 16 ≤ c.size) :
    Rep L (splitBlock L h c.addr size false) (pre ++ [c.front size, c.rest size] ++ post)
        (u ++ c.addr :: (c.addr + size) :: w) ∧
      Keeps (pre ++ [c] ++ post) h (splitBlock L h c.addr size false) := by
  have hc := hR.blocks.mem (b := c) (by simp)
  obtain ⟨h₁, he, hB, hw⟩ := splitTags_ok hR.blocks hs h16 hle false
  have hR₁ := hR.splitTags hs h16 hle hw hB
  have hk₁ : Keeps (pre ++ [c] ++ post) h h₁ := by
    refine hw.mono ?_
    rintro q (rfl | rfl | rfl | rfl) <;>
      exact hR.blocks.outside_free (b := c) (by simp) hcf (by omega) (by omega)
  have hnew : (c.rest size).addr ∉ u ++ c.addr :: w :=
    hR.inside_not_listed (b := c) (by simp) (by simp only [Blk.rest]; omega)
      (by simp only [Blk.rest]; omega)
  obtain ⟨hR₂, hk₂⟩ := hR₁.insert_after (b := c.rest size) (by simp) rfl hnew
  have hout : Outside (pre ++ [c.front size, c.rest size] ++ post) =
      Outside (pre ++ [c] ++ post) :=
    outside_congr (by simp [allocated, Blk.front, Blk.rest, hcf])
  rw [he]
  exact ⟨hR₂, hk₁.trans (hk₂.mono hout.subset)⟩

end Rep

/-! ### `find_fit` -/

/-- The block that `find_fit` takes out of the list `fs` of the row `bs`: the
new row is `pre ++ c :: post` with the block `c` found, and `fs'` is the new list. -/
inductive Found (size : ℕ) : List Blk → List ℕ → List Blk → Blk → List Blk → List ℕ → Prop
  | whole {pre : List Blk} {c : Blk} {post : List Blk} {u w : List ℕ} :
    (∀ b ∈ pre ++ c :: post, b.addr ∈ u → b.size < size) → c.alloc = false →
      size ≤ c.size → c.size ≤ size + 16 →
      Found size (pre ++ c :: post) (u ++ c.addr :: w) pre c post (u ++ w)
  | split {pre : List Blk} {c : Blk} {post : List Blk} {u w : List ℕ} :
    (∀ b ∈ pre ++ c :: post, b.addr ∈ u → b.size < size) → c.alloc = false →
      size + 16 < c.size →
      Found size (pre ++ c :: post) (u ++ c.addr :: w) pre (c.front size) (c.rest size :: post)
        (u ++ (c.addr + size) :: w)

/-- **The loop of `find_fit`** finds the first block that is large enough. -/
theorem findFitLoop_ok {fuel : ℕ} (hW : WellFormed L h bs (u ++ w)) (hs : 4 ∣ size)
    (h16 : 16 ≤ size) (hu : ∀ b ∈ bs, b.addr ∈ u → b.size < size) (hfuel : w.length < fuel) :
    (findFitLoop L h size fuel ((w ++ [L.head]).head (by simp)) = .ok (h, none) ∧
        ∀ b ∈ bs, b.addr ∈ u ++ w → b.size < size) ∨
      ∃ h' pre c post fs',
        findFitLoop L h size fuel ((w ++ [L.head]).head (by simp)) = .ok (h', some c.addr) ∧
        Found size bs (u ++ w) pre c post fs' ∧ Rep L h' (pre ++ c :: post) fs' ∧
        Keeps bs h h' := by
  induction fuel generalizing u w with
  | zero => omega
  | succ fuel ih =>
    cases w with
    | nil => exact .inl ⟨if_pos rfl, by simpa using hu⟩
    | cons a w =>
      have ha : a ∈ u ++ a :: w := by simp
      have hhead : a ≠ L.head := fun he => hW.head_not_mem (he ▸ ha)
      obtain ⟨pre, c, post, rfl, rfl, hcf⟩ := hW.exists_split ha
      have hc := hW.blocks.mem (b := c) (by simp)
      have hsize : h.blockSize c.addr = c.size := hW.blocks.blockSize_eq (by simp)
      have halloc : ¬h.isAllocated c.addr = true := by
        rw [hW.blocks.isAllocated_eq (by simp), hcf]
        exact Bool.false_ne_true
      show (findFitLoop L h size (fuel + 1) c.addr = _ ∧ _) ∨ ∃ h' pre' c' post' fs',
        findFitLoop L h size (fuel + 1) c.addr = _ ∧ _
      rw [findFitLoop, if_neg hhead, if_neg halloc, hsize]
      by_cases hfit : size ≤ c.size
      · have hword : h.size c.addr = c.size := by
          show h.read c.addr = c.size
          rw [(hW.blocks.tagged c (by simp)).1, Blk.header, hcf]
          rfl
        have hassert : ¬(h.size c.addr % 4 ≠ 0 ∨ size % 4 ≠ 0) := by
          rw [hword]
          omega
        have hadd : add32 size SIZE_OF_BLOCK = size + 16 := by
          have hmax : MAX_HEAP = 20971520 := rfl
          have hbrk := hW.blocks.brk
          exact add32_of_lt (by show size + 16 < _; omega)
        rw [if_pos hfit, if_neg hassert, hadd]
        refine .inr ?_
        by_cases hsplit : size + 16 < c.size
        · have hR : Rep L h (pre ++ [c] ++ post) (u ++ c.addr :: w) := by simpa using hW.toRep
          obtain ⟨hR₁, hk₁⟩ := hR.split hcf hs h16 hsplit.le
          obtain ⟨hR₂, hk₂⟩ := hR₁.remove
          have hout : Outside (pre ++ [c.front size, c.rest size] ++ post) =
              Outside (pre ++ [c] ++ post) :=
            outside_congr (by simp [allocated, Blk.front, Blk.rest, hcf])
          rw [if_pos hsplit]
          refine ⟨_, pre, c.front size, c.rest size :: post, _, rfl, .split hu hcf hsplit, ?_, ?_⟩
          · simpa using hR₂
          · simpa using hk₁.trans (hk₂.mono hout.subset)
        · obtain ⟨hR₁, hk₁⟩ := hW.toRep.remove
          rw [if_neg hsplit]
          exact ⟨_, pre, c, post, _, rfl, .whole hu hcf hfit (not_lt.1 hsplit), hR₁, hk₁⟩
      · have hu' : ∀ b ∈ pre ++ c :: post, b.addr ∈ u ++ [c.addr] → b.size < size := by
          intro b hb hm
          rcases List.mem_append.1 hm with hm | hm
          · exact hu b hb hm
          · obtain rfl := hW.blocks.inj hb (by simp) (List.mem_singleton.1 hm)
            exact not_le.1 hfit
        rw [if_neg hfit, hW.next_eq]
        simpa using ih (u := u ++ [c.addr]) (w := w) (by simpa using hW) hu'
          (Nat.lt_of_succ_lt_succ hfuel)

/-- **`find_fit` is first fit.** -/
theorem findFit_ok (hW : WellFormed L h bs fs) (hs : 4 ∣ size) (h16 : 16 ≤ size) :
    (findFit L h size = .ok (h, none) ∧ ∀ b ∈ bs, b.alloc = false → b.size < size) ∨
      ∃ h' pre c post fs', findFit L h size = .ok (h', some c.addr) ∧
        Found size bs fs pre c post fs' ∧ Rep L h' (pre ++ c :: post) fs' ∧ Keeps bs h h' := by
  have hlen := hW.length_le
  have hfuel : fs.length < MAX_HEAP + 1 := by omega
  have hnext : h.next L.head = (fs ++ [L.head]).head (by simp) := hW.listed.ring.nxt_eq
  rw [findFit, hnext]
  rcases findFitLoop_ok (u := []) hW hs h16 (by simp) hfuel with ⟨he, hnone⟩ | hfound
  · exact .inl ⟨he, fun b hb hf => hnone b hb (hW.complete b hb hf)⟩
  · exact .inr hfound

namespace Found

/-- The block found is free, large enough and not much larger. -/
theorem size_bounds (hf : Found size bs fs pre c post fs') :
    c.alloc = false ∧ size ≤ c.size ∧ c.size ≤ size + 16 := by
  cases hf with
  | whole hu hcf hle hle' => exact ⟨hcf, hle, hle'⟩
  | split hu hcf hlt => exact ⟨rfl, le_rfl, Nat.le_add_right _ _⟩

/-- Some free block was large enough. -/
theorem exists_fit (hf : Found size bs fs pre c post fs') :
    ∃ b ∈ bs, b.alloc = false ∧ size ≤ b.size := by
  cases hf with
  | @whole pre c post u w hsmall hcf hle hle' => exact ⟨c, by simp, hcf, hle⟩
  | @split pre c post u w hsmall hcf hlt => exact ⟨c, by simp, hcf, by omega⟩

theorem allocated_eq (hf : Found size bs fs pre c post fs') :
    allocated (pre ++ c :: post) = allocated bs := by
  cases hf with
  | whole hu hcf hle hle' => rfl
  | split hu hcf hlt => simp [allocated, Blk.front, Blk.rest, hcf]

/-- The block found is no longer listed, and the other free blocks are. -/
theorem complete (hf : Found size bs fs pre c post fs') (hW : WellFormed L h bs fs)
    (h16 : 16 ≤ size) :
    c.addr ∉ fs' ∧ ∀ b ∈ pre ++ post, b.alloc = false → b.addr ∈ fs' := by
  have hnd := hW.nodup_list
  cases hf with
  | @whole pre c post u w hu hcf hle hle' =>
    refine ⟨(List.nodup_cons.1 (List.perm_middle.nodup_iff.1 hnd)).1, fun b hb hbf => ?_⟩
    exact mem_of_mem_middle (hW.complete_rest b hb hbf) (hW.blocks.addr_ne hb)
  | @split pre c post u w hu hcf hlt =>
    have hne : c.addr ≠ c.addr + size := by omega
    refine ⟨?_, fun b hb hbf => ?_⟩
    · have hnot := (List.nodup_cons.1 (List.perm_middle.nodup_iff.1 hnd)).1
      show c.addr ∉ u ++ (c.addr + size) :: w
      simp only [List.mem_append, List.mem_cons] at hnot ⊢
      tauto
    · by_cases hrest : b = c.rest size
      · subst hrest
        exact List.mem_append_right u List.mem_cons_self
      · have hb' := mem_of_mem_middle hb hrest
        have hbm := mem_of_mem_middle (hW.complete_rest b hb' hbf) (hW.blocks.addr_ne hb')
        exact mem_middle _ hbm

end Found

/-! ### The block in use -/

/-- The header of a block that is not listed can change. -/
theorem Rep.mark (hR : Rep L h (pre ++ c :: post) fs) (hnot : c.addr ∉ fs) (alloc : Bool) :
    Rep L (h.write c.addr (c.size + alloc.toNat)) (pre ++ { c with alloc := alloc } :: post) fs ∧
      Keeps (pre ++ c :: post) h (h.write c.addr (c.size + alloc.toNat)) := by
  have hR' : Rep L h (pre ++ [c] ++ post) fs := by simpa using hR
  have hc := hR'.blocks.mem (b := c) (by simp)
  have hb := alloc.toNat_le
  have hw : Within {c.addr} h (h.write c.addr (c.size + alloc.toNat)) := Within.write hc.1
  have hrow : Row c.addr [c] (c.addr + c.size) := ⟨rfl, rfl⟩
  have hrow' : Row c.addr [{ c with alloc := alloc }] (c.addr + c.size) := ⟨rfl, rfl⟩
  have htag := hR'.blocks.tagged c (by simp)
  have hB : Blocks L (h.write c.addr (c.size + alloc.toNat))
      (pre ++ [{ c with alloc := alloc }] ++ post) := by
    refine hR'.blocks.splice hrow (by simp) hrow' hw ?_ ?_ ?_
    · rintro q rfl -
      omega
    · simp only [Sized, List.mem_singleton, forall_eq]
      exact ⟨hc.2.1, hc.2.2.1⟩
    · simp only [List.mem_singleton, forall_eq]
      have hfoot : (h.write c.addr (c.size + alloc.toNat)).read (c.addr + c.size - 4) =
          h.read (c.addr + c.size - 4) := Heap.read_write_of_ne hc.1 (by omega) (by omega)
      exact ⟨Heap.read_write_self (by omega), hfoot.trans htag.2⟩
  refine ⟨⟨by simpa using hB, hR.listed.frame hw ?_, fun a ha => ?_⟩, hw.mono ?_⟩
  · rintro q rfl - ⟨x, hx, hq⟩
    have := hR'.node_apart (b := c) (by simp) hx fun he => (hR'.apart (by simp) hnot).1 (he ▸ hx)
    omega
  · obtain ⟨d, hd, rfl, hf⟩ := hR.free a ha
    simp only [List.mem_append, List.mem_cons] at hd
    rcases hd with hd | rfl | hd
    · exact ⟨d, by simp [hd], rfl, hf⟩
    · exact absurd ha hnot
    · exact ⟨d, by simp [hd], rfl, hf⟩
  · rintro q rfl
    exact hR.blocks.outside_header (b := c) (by simp) le_rfl (by omega)

/-- `SET_ALLOCATED` and `SET_FREE` write the header. -/
theorem Blocks.set_eq (hB : Blocks L h bs) (hc : c ∈ bs) :
    h.setAllocated c.addr = h.write c.addr (c.size + true.toNat) ∧
      h.setFree c.addr = h.write c.addr (c.size + false.toNat) := by
  have hsize : alignDown 2 (h.size c.addr) = c.size := hB.blockSize_eq hc
  rw [Heap.setAllocated, Heap.setFree, hsize]
  exact ⟨rfl, rfl⟩

end MallocLab
end CsappLabs
