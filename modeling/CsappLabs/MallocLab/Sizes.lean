/-
# Sizes that wrap

`get_block_size` computes modulo `2 ^ 32`, and so does the test of case 1 of
`mm_realloc`: the largest sizes become small ones, and are served by small blocks
(`huge_size_served`).

A size that does not wrap is served by a block for it, or the call ends the
program (`sizes_answered`).  No block is modified then, unless `expand_heap` has
merged free blocks before it found that there is no memory, or `mm_realloc` has
taken in the free block behind.
-/

import CsappLabs.MallocLab.Footers
import CsappLabs.MallocLab.Payloads

namespace CsappLabs
namespace MallocLab

open Lib Lib.CInt Lib.Memory Lib.Tiling Lib.Links

variable {L : Layout} {w : World} {h h' : Heap} {bs bs' pre post : List Blk} {fs fs' : List ℕ}
  {b c : Blk} {a n p q : ℕ}

/-! ### What a call achieves -/

/-- A block of the heap starts at `a`. -/
def IsBlock (L : Layout) (h : Heap) (a : ℕ) : Prop := ∃ as, Walk L h as ∧ a ∈ as

/-- No block is modified: neither its tags, nor the links of a free block, nor the
payload area of a block in use.  The links of a block in use mean nothing. -/
structure Unmodified (L : Layout) (h h' : Heap) : Prop where
  brk : h'.brk = h.brk
  tags : ∀ a, IsBlock L h a →
    h'.read a = h.read a ∧ h'.read (h.footer a) = h.read (h.footer a)
  links : ∀ a, a = L.head ∨ IsBlock L h a ∧ h.isAllocated a = false →
    h'.next a = h.next a ∧ h'.prev a = h.prev a
  payload : ∀ a, IsBlock L h a → h.isAllocated a = true →
    ∀ i, a + 12 ≤ i → i < a + h.blockSize a - 4 → h'.mem i = h.mem i

/-- The request for `n` bytes in place of the block at `p` is served by a block for
them, and the other blocks in use are large enough as well; or it fails, and no
block is modified. -/
def Answered (L : Layout) (w : World) (p n : ℕ) : Except Fault (Heap × Option ℕ) → Prop
  | .ok (h', some q) => ∀ x ∈ (q, n) :: w.without p,
      IsBlock L h' (x.1 - 12) ∧ h'.isAllocated (x.1 - 12) = true ∧
        x.2 + 16 ≤ h'.blockSize (x.1 - 12)
  | .ok (h', none) => Unmodified L w.heap h'
  | .error (.exit h') => Unmodified L w.heap h'
  | .error (.overrun h') => Unmodified L w.heap h'
  | .error _ => False

/-! ### When it does -/

/-- A free block other than the one at `next` has at least this size. -/
def FitsElsewhere (L : Layout) (h : Heap) (size next : ℕ) : Prop :=
  ∃ c, IsBlock L h c ∧ c ≠ next ∧ h.isAllocated c = false ∧ size ≤ h.blockSize c

/-- `mm_realloc` of the block at `a` finds the memory that it needs, in one of its cases. -/
inductive Served (L : Layout) (h : Heap) (a n : ℕ) : Prop
  | shrink : getBlockSize n + 16 < h.blockSize a → Served L h a n
  | grow : a + h.blockSize a = h.brk - 4 → h.blockSize a + 16 < getBlockSize n →
      Room L h.brk (getBlockSize n - h.blockSize a) → Served L h a n
  | merge : h.isAllocated (a + h.blockSize a) = false →
      getBlockSize n + 16 < h.blockSize a + h.blockSize (a + h.blockSize a) → Served L h a n
  | move : (a + h.blockSize a = h.brk - 4 →
        h.blockSize a ≤ getBlockSize n ∧ getBlockSize n ≤ h.blockSize a + 16) →
      Room L h.brk (growth n) ∨ FitsElsewhere L h (getBlockSize n) (a + h.blockSize a) →
      Served L h a n

/-- The size does not wrap in `mm_malloc`, which finds the memory or has nothing to merge. -/
def MallocAnswers (L : Layout) (h : Heap) (n : ℕ) : Prop :=
  n + 19 < 2 ^ 32 ∧
    (HasFit L h (getBlockSize n) ∨ Room L h.brk (growth n) ∨ ¬AdjacentFree L h)

/-- The size does not wrap in `mm_realloc` of the block at `a`, which finds the
memory or has nothing to merge. -/
def ReallocAnswers (L : Layout) (h : Heap) (a n : ℕ) : Prop :=
  n ≠ 0 ∧ n + 35 < 2 ^ 32 ∧
    (Served L h a n ∨ ¬AdjacentFree L h ∧ h.isAllocated (a + h.blockSize a) = true)

/-! ### From the row to the memory -/

theorem Blocks.isBlock_iff (hB : Blocks L h bs) : IsBlock L h a ↔ ∃ b ∈ bs, b.addr = a := by
  constructor
  · rintro ⟨as, hw, ha⟩
    obtain rfl := hw.unique hB.walk
    exact List.mem_map.1 ha
  · exact fun ha => ⟨_, hB.walk, List.mem_map.2 ha⟩

/-- The word behind a block is the header of the next one, or the epilogue. -/
theorem Blocks.behind_free_iff (hB : Blocks L h (pre ++ b :: post)) :
    h.isAllocated (b.addr + b.size) = false ↔ ∃ y post', post = y :: post' ∧ y.alloc = false := by
  have hrow := (tiles_split.1 hB.row).2
  cases post with
  | nil =>
    refine iff_of_false ?_ (by simp)
    rw [hB.last_iff.1 rfl]
    show ¬decide (h.read (h.brk - 4) % 2 = 1) = false
    rw [hB.epilogue]
    decide
  | cons y post =>
    have hy : y.addr = b.addr + b.size := hrow.1
    rw [← hy, hB.isAllocated_eq (by simp)]
    simp

/-- The same row and the same list. -/
theorem WellFormed.unmodified (hW : WellFormed L h bs fs) (hW' : WellFormed L h' bs fs)
    (hp : Preserves bs h h') : Unmodified L h h' := by
  have hB := hW.blocks
  have hB' := hW'.blocks
  refine ⟨?_, fun a ha => ?_, fun a ha => ?_, fun a ha hal i hi hi' => ?_⟩
  · have hend := hB.row.end_unique hB'.row
    have hbrk := hB.brk
    have hbrk' := hB'.brk
    omega
  · obtain ⟨b, hb, rfl⟩ := hB.isBlock_iff.1 ha
    have ht := hB.tagged b hb
    have ht' := hB'.tagged b hb
    rw [hB.footer_eq hb]
    exact ⟨ht'.1.trans ht.1.symm, ht'.2.trans ht.2.symm⟩
  · obtain ⟨hnext, hprev⟩ := hW.listed.ring.links_eq hW'.listed.ring
    have hmem : a = L.head ∨ a ∈ fs := by
      refine ha.imp_right fun ⟨hblock, hf⟩ => ?_
      obtain ⟨b, hb, rfl⟩ := hB.isBlock_iff.1 hblock
      exact hW.complete b hb ((hB.isAllocated_eq hb).symm.trans hf)
    refine ⟨hnext a (List.mem_cons.2 hmem), hprev a ?_⟩
    exact List.mem_append.2 (hmem.symm.imp_right List.mem_singleton.2)
  · obtain ⟨b, hb, rfl⟩ := hB.isBlock_iff.1 ha
    rw [hB.isAllocated_eq hb] at hal
    rw [hB.blockSize_eq hb] at hi'
    exact hp b (List.mem_filter.2 ⟨hb, hal⟩) i hi hi'

/-- Blocks in use with room for what was asked for are an answer. -/
theorem Shaped.answered (hS : Shaped L h' bs' fs') (ho : Owned bs' ((q, n) :: w.without p)) :
    Answered L w p n (.ok (h', some q)) := by
  intro x hx
  obtain ⟨d, hd, hxd, hroom⟩ := ho.block x hx
  obtain ⟨hd, hda⟩ := List.mem_filter.1 hd
  obtain ⟨hsize, halloc⟩ := hS.header d hd
  rw [hxd, Nat.add_sub_cancel]
  exact ⟨⟨_, hS.exact.walk, List.mem_map_of_mem hd⟩, halloc.trans hda, hroom.trans hsize.ge⟩

/-- To end without memory and without a change is an answer. -/
theorem Unmodified.answered (hu : Unmodified L w.heap h) (e : ℕ) :
    Answered L w p n (.error (h.shortage e)) := by
  unfold Heap.shortage
  split_ifs
  · exact hu
  · exact hu

/-- **`mm_malloc`** of a size that does not wrap. -/
theorem Valid.malloc_answered (hV : Valid L w bs fs) (hn : MallocAnswers L w.heap n) :
    Answered L w 0 n (mmMalloc L w.heap n) := by
  obtain ⟨hfit, hmem⟩ := hn
  obtain ⟨hsize, -⟩ := getBlockSize_bounds hfit
  rw [hV.blocks.hasFit_iff, hV.blocks.adjacentFree_iff] at hmem
  rcases mmMalloc_ok hV.toWellFormed (n := n) (by omega) with
    ⟨hno, hr, h₁, bs', fs', he, hpass, hW, hk⟩ | ⟨h', pre, c, post, fs', he, hm, -, hW⟩
  · rw [he]
    have hadj := (hmem.resolve_left (not_not.2 hno)).resolve_left hr
    obtain ⟨rfl, rfl⟩ := hpass.keep hadj
    exact (hV.toWellFormed.unmodified hW (hV.blocks.preserves hk)).answered _
  · rw [he]
    have hc := hm.size_bounds
    refine hW.shaped.answered ?_
    rw [hV.without_zero]
    refine hV.owned.cons hW.blocks (fun b hb => ?_) rfl (by simp only; omega)
    rw [← hm.allocated_eq] at hb
    simpa [allocated, hc.1] using hb

/-- The memory that was found is not refused. -/
theorem Served.not_refused (hs : Served L h b.addr n) (hB : Blocks L h (pre ++ b :: post))
    (hb : b.alloc = true) {e : ℕ} : ¬Refused L h.brk n pre b post fs e bs' fs' := by
  have hlast := hB.last_iff
  have hfree := hB.behind_free_iff
  have hsize := hB.blockSize_eq (b := b) (by simp)
  intro hr
  cases hs with
  | shrink hlt =>
    rw [hsize] at hlt
    cases hr with
    | wrap hlt' hle _ => omega
    | last hlt' _ _ => omega
    | move hle _ _ _ _ _ => omega
    | absorb _ hle _ _ _ => omega
  | grow hend hlt hroom =>
    rw [hsize] at hend hlt hroom
    obtain rfl := hlast.2 hend
    cases hr with
    | wrap hlt' _ _ => omega
    | last _ hno _ => exact hno hroom
    | move _ _ hle _ _ _ => exact absurd (hle rfl).2 (by omega)
  | merge hnext hlt =>
    rw [hsize] at hnext hlt
    obtain ⟨y, post, rfl, hy⟩ := hfree.1 hnext
    have hya : y.addr = b.addr + b.size := (tiles_split.1 hB.row).2.1
    rw [← hya, hB.blockSize_eq (b := y) (by simp)] at hlt
    cases hr with
    | move _ hno _ _ _ _ => exact absurd (hno y rfl) (by simp [hy])
    | absorb _ hle _ _ _ => omega
  | move hend hmem =>
    rw [hsize] at hend hmem
    have helse : ¬Room L h.brk (growth n) → ∃ d ∈ pre ++ b :: post,
        d.addr ≠ b.addr + b.size ∧ d.alloc = false ∧ getBlockSize n ≤ d.size := by
      intro hr
      obtain ⟨c, hc, hne, hcf, hle⟩ := hmem.resolve_left hr
      obtain ⟨d, hd, rfl⟩ := hB.isBlock_iff.1 hc
      rw [hB.isAllocated_eq hd] at hcf
      rw [hB.blockSize_eq hd] at hle
      exact ⟨d, hd, hne, hcf, hle⟩
    cases hr with
    | wrap hlt _ _ => exact absurd (hend (hlast.1 rfl)).1 (by omega)
    | last hlt _ _ => exact absurd (hend (hlast.1 rfl)).2 (by omega)
    | move _ _ _ hno hr _ =>
      obtain ⟨d, hd, -, hdf, hle⟩ := helse hr
      exact absurd hle (not_le.2 (hno d hd hdf))
    | @absorb y post _ _ _ hy _ hno hr _ =>
      obtain ⟨d, hd, hne, hdf, hle⟩ := helse hr
      have hya : y.addr = b.addr + b.size := (tiles_split.1 hB.row).2.1
      refine absurd hle (not_le.2 (hno d ?_ hdf))
      simp only [List.mem_append, List.mem_cons] at hd ⊢
      rcases hd with hd | rfl | rfl | hd
      · exact .inl hd
      · exact absurd hb (by simp [hdf])
      · exact absurd hya hne
      · exact .inr (.inr hd)

/-- With nothing to merge, a refusal leaves the row as it is. -/
theorem Refused.keep {e : ℕ} (hr : Refused L h.brk n pre b post fs e bs' fs')
    (hno : ¬Adjacent (pre ++ b :: post)) (hpost : NoNext post) :
    bs' = pre ++ b :: post ∧ fs' = fs := by
  cases hr with
  | wrap _ _ hp => exact hp.keep hno
  | last _ _ hp => exact hp.keep hno
  | move _ _ _ _ _ hp => exact hp.keep hno
  | @absorb y _ _ _ _ hy _ _ _ _ => exact absurd (hpost y rfl) (by simp [hy])

/-- **`mm_realloc`** of a size that does not wrap. -/
theorem Valid.realloc_answered (hV : Valid L w bs fs) (hp : w.Holds p)
    (hn : ReallocAnswers L w.heap (p - 12) n) : Answered L w p n (mmRealloc L w.heap p n) := by
  obtain ⟨pre, b, post, rfl, hb, rfl⟩ := hV.exists_block hp
  rw [Nat.add_sub_cancel] at hn
  obtain ⟨hn0, hfit, hmem⟩ := hn
  rcases hV.toWellFormed.mmRealloc_ok hb hn0 hfit with
    ⟨h₁, e, bs', fs', he, hr, hW, -, hpres⟩ | ⟨h', bs', fs', c, he, hR, -⟩
  · rw [he]
    obtain ⟨hadj, hnext⟩ := hmem.resolve_left fun hs => hs.not_refused hV.blocks hb hr
    rw [hV.blocks.adjacentFree_iff] at hadj
    rw [hV.blocks.blockSize_eq (b := b) (by simp)] at hnext
    have hpost : NoNext post := by
      rw [noNext_iff, ← hV.blocks.behind_free_iff]
      simp [hnext]
    obtain ⟨rfl, rfl⟩ := hr.keep hadj hpost
    exact (hV.toWellFormed.unmodified hW hpres).answered e
  · rw [he]
    exact hR.shaped.answered (hR.owned hV)

/-- **Every size is answered** that does not wrap, after any careful run: by a block
that is large enough, or by the end of the program. -/
theorem sizes_answered (hw : (mmSystem L).ReachBy Careful w) :
    (∀ n, MallocAnswers L w.heap n → Answered L w 0 n (mmMalloc L w.heap n)) ∧
      ∀ p n, w.Holds p → ReallocAnswers L w.heap (p - 12) n →
        Answered L w p n (mmRealloc L w.heap p n) := by
  obtain ⟨bs, fs, hV⟩ := valid_of_careful hw
  exact ⟨fun n => hV.malloc_answered, fun p n => hV.realloc_answered⟩

/-- A new block behind the others, and a block moved there. -/
theorem sizes_answered_grow :
    let w := ((mmSystem .low).runBy Careful (.first .low fun _ => 7)
      [.malloc 4000, .malloc 50]).getD (.first .low fun _ => 7)
    Answered .low w 0 100 (mmMalloc .low w.heap 100) ∧
      Answered .low w 148 5000 (mmRealloc .low w.heap 148 5000) := by
  intro w
  have hw : (mmSystem .low).ReachBy Careful w :=
    System.ReachBy.getD_runBy (.init (init_first _ _)) _
  have hfacts : w.Holds 148 ∧ Room .low w.heap.brk (growth 100) ∧
      Room .low w.heap.brk (growth 5000) ∧
      136 + w.heap.blockSize 136 ≠ w.heap.brk - 4 := by decide +kernel
  clear_value w
  obtain ⟨hp, hr, hr', hlast⟩ := hfacts
  obtain ⟨hmalloc, hrealloc⟩ := sizes_answered hw
  have hserved : Served .low w.heap 136 5000 := .move (fun he => absurd he hlast) (.inl hr')
  constructor
  · exact hmalloc 100 ⟨by decide, .inr (.inl hr)⟩
  · exact hrealloc 148 5000 hp ⟨by decide, by decide, .inl hserved⟩

theorem not_answered_of_small {r : Except Fault (Heap × Option ℕ)} {s : ℕ}
    (hr : r.toOption.map (fun x => (x.2, x.1.blockSize (q - 12))) = some (some q, s))
    (hs : s < n + 16) : ¬Answered L w p n r := by
  obtain ⟨⟨h', r⟩, hx, he⟩ := Option.map_eq_some_iff.1 hr
  obtain rfl := toOption_eq_some.1 hx
  obtain ⟨rfl, hsize⟩ := Prod.mk.inj he
  intro ha
  obtain ⟨-, -, hroom⟩ := ha (q, n) List.mem_cons_self
  simp only at hroom hsize
  omega

/-- `2 ^ 32 - 1` bytes are served by a block of 16 bytes, as a new block and in place
of a block with 100 bytes in use. -/
theorem huge_size_served : ∃ w : World, (mmSystem .low).ReachBy Careful w ∧
    w.live = [(148, 100)] ∧ getBlockSize (2 ^ 32 - 1) = 16 ∧
    (mmMalloc .low w.heap (2 ^ 32 - 1)).toOption.map
      (fun x => (x.2, x.1.blockSize (264 - 12))) = some (some 264, 16) ∧
    (mmRealloc .low w.heap 148 (2 ^ 32 - 1)).toOption.map
      (fun x => (x.2, x.1.blockSize (148 - 12))) = some (some 148, 16) ∧
    ¬Answered .low w 0 (2 ^ 32 - 1) (mmMalloc .low w.heap (2 ^ 32 - 1)) ∧
    ¬Answered .low w 148 (2 ^ 32 - 1) (mmRealloc .low w.heap 148 (2 ^ 32 - 1)) := by
  have h₀ : (mmSystem .low).ReachBy Careful (.first .low fun _ => 7) := .init (init_first _ _)
  have hw := h₀.getD_runBy [.malloc 100]
  generalize hrun : ((mmSystem .low).runBy Careful (.first .low fun _ => 7)
    [.malloc 100]).getD (.first .low fun _ => 7) = w at hw
  have hfacts : w.live = [(148, 100)] ∧ getBlockSize (2 ^ 32 - 1) = 16 ∧
      (mmMalloc .low w.heap (2 ^ 32 - 1)).toOption.map
        (fun x => (x.2, x.1.blockSize (264 - 12))) = some (some 264, 16) ∧
      (mmRealloc .low w.heap 148 (2 ^ 32 - 1)).toOption.map
        (fun x => (x.2, x.1.blockSize (148 - 12))) = some (some 148, 16) := by
    rw [← hrun]
    decide +kernel
  obtain ⟨hlive, hsize, hmalloc, hrealloc⟩ := hfacts
  exact ⟨w, hw, hlive, hsize, hmalloc, hrealloc, not_answered_of_small hmalloc (by decide),
    not_answered_of_small hrealloc (by decide)⟩

end MallocLab
end CsappLabs
