/-
# The rounds of the pass

The loop of `expand_heap` goes on from the block that `coalesce` returns, which stands
anywhere in the list, and takes blocks out of the list as it goes.  From every tiled heap
with an exact list, whose footers hold `0` or the size (`Footed`), it ends; each block that
it comes to is in the list of that moment (`rounds_end`).

Each round brings the end nearer in one of two ways: there are fewer free blocks, or there
are as many and less of the list is left.  No round touches an allocated block, and the
free bytes are the others, so they stay the same as well.
-/

import CsappLabs.MallocLab.FirstFit
import Mathlib.Logic.Relation

namespace CsappLabs
namespace MallocLab

open Lib Lib.CInt Lib.Memory Lib.Tiling Lib.Links

variable {L : Layout} {g h h' : Heap} {bs bs' : List Blk} {as as' fs fs' : List ℕ} {a c i : ℕ}
  {s s' : Heap × ℕ}

/-! ### The footers in the memory -/

/-- A tiled heap with an exact list, behind the prologue of `mm_init`; a footer holds `0`
or the size of its block. -/
structure Footed (L : Layout) (h : Heap) (as fs : List ℕ) : Prop extends Exact L h as fs where
  brk : L.memStart + 12 ≤ h.brk ∧ h.brk ≤ L.memStart + MAX_HEAP
  prologue : h.read L.memStart = 9 ∧ h.read (L.memStart + 4) = 8
  footer : ∀ a ∈ as, h.read (h.footer a) = 0 ∨ h.read (h.footer a) = h.blockSize a

/-- The block at an address, as the memory shows it. -/
def blockAt (h : Heap) (a : ℕ) : Blk :=
  { addr := a, size := h.blockSize a, alloc := h.isAllocated a
    tagged := h.read (h.footer a) = h.blockSize a }

theorem map_blockAt (h : Heap) (as : List ℕ) : (as.map (blockAt h)).map Blk.addr = as := by
  rw [List.map_map]
  exact List.map_id as

theorem read_eq_header (h : Heap) (a : ℕ) : h.read a = (blockAt h a).header := by
  show h.read a = alignDown 2 (h.read a) + (decide (h.read a % 2 = 1)).toNat
  rw [alignDown]
  by_cases hodd : h.read a % 2 = 1
  · rw [decide_eq_true hodd, Bool.toNat_true]
    omega
  · rw [decide_eq_false hodd, Bool.toNat_false]
    omega

theorem Exact.footer_eq (hE : Exact L h as fs) (hbrk : h.brk ≤ L.memStart + MAX_HEAP)
    (ha : a ∈ as) : h.footer a = a + h.blockSize a - 4 := by
  have hheap := L.heap_lt
  have hba := hE.block ha
  rw [Heap.footer, add32_of_lt (by omega), sub32_of_le (by omega) (by omega)]

namespace Footed

/-- The row of the blocks. -/
theorem wellFormed (hF : Footed L h as fs) : WellFormed L h (as.map (blockAt h)) fs := by
  have hE := hF.toExact
  have hrow : Row (L.memStart + 8) (as.map (blockAt h)) (h.brk - 4) :=
    (tiles_map _).2 hE.walk.tiles
  have hepi : h.read (h.brk - 4) = 1 := by
    have hsize : alignDown 2 (h.read (h.brk - 4)) = 0 := hE.epilogue.1
    have hodd : h.read (h.brk - 4) % 2 = 1 := of_decide_eq_true hE.epilogue.2
    unfold alignDown at hsize
    omega
  refine ⟨⟨⟨hF.brk, hrow, ?_, ?_, hF.prologue, hepi⟩, hE.listed hF.brk.2, fun a ha => ?_⟩, ?_⟩
  · intro b hb
    obtain ⟨a, ha, rfl⟩ := List.mem_map.1 hb
    exact hE.sized a ha
  · intro b hb
    obtain ⟨a, ha, rfl⟩ := List.mem_map.1 hb
    refine ⟨read_eq_header h a, ?_⟩
    have hfoot := hE.footer_eq hF.brk.2 ha
    show h.read (a + h.blockSize a - 4) = if decide _ = true then _ else _
    rw [← hfoot]
    split_ifs with ht
    · exact of_decide_eq_true ht
    · exact (hF.footer a ha).resolve_right fun he => ht (decide_eq_true he)
  · obtain ⟨ham, hfree⟩ := (hE.free a).1 ha
    exact ⟨blockAt h a, List.mem_map_of_mem ham, rfl, hfree⟩
  · intro b hb hfree
    obtain ⟨a, ha, rfl⟩ := List.mem_map.1 hb
    exact (hE.free a).2 ⟨ha, hfree⟩

end Footed

theorem WellFormed.footed (hW : WellFormed L h bs fs) : Footed L h (bs.map Blk.addr) fs := by
  refine ⟨hW.exact, hW.blocks.brk, hW.blocks.prologue, fun a ha => ?_⟩
  obtain ⟨b, hb, rfl⟩ := List.mem_map.1 ha
  rw [hW.blocks.footer_eq hb, hW.blocks.blockSize_eq hb, (hW.blocks.tagged b hb).2, Blk.tag]
  split_ifs
  · exact .inr rfl
  · exact .inl rfl

/-! ### What no round changes -/

/-- The bytes of the free blocks. -/
def freeBytes (h : Heap) (fs : List ℕ) : Set ℕ := {i | ∃ a ∈ fs, a ≤ i ∧ i < a + h.blockSize a}

/-- The addresses of the allocated blocks. -/
def inUse (h : Heap) (as : List ℕ) : List ℕ := as.filter h.isAllocated

/-- The blocks in use are the same: their headers, payloads and footers. -/
structure SameBlocks (h h' : Heap) (as as' : List ℕ) : Prop where
  addrs : inUse h' as' = inUse h as
  words : ∀ a ∈ inUse h as, h'.read a = h.read a ∧ h'.read (h'.footer a) = h.read (h.footer a)
  payload : ∀ a ∈ inUse h as, ∀ i, a + 12 ≤ i → i < a + h.blockSize a - 4 → h'.mem i = h.mem i

/-- The free bytes are those between the blocks in use. -/
theorem Exact.mem_freeBytes (hE : Exact L h as fs) :
    i ∈ freeBytes h fs ↔ L.memStart + 8 ≤ i ∧ i < h.brk - 4 ∧
      ∀ a ∈ inUse h as, ¬(a ≤ i ∧ i < a + h.blockSize a) := by
  constructor
  · rintro ⟨a, ha, hlo, hhi⟩
    have hba := hE.block (hE.mem ha)
    refine ⟨by omega, by omega, fun d hd hdi => ?_⟩
    obtain ⟨hdm, hda⟩ := List.mem_filter.1 hd
    have hne : a ≠ d := by
      rintro rfl
      exact absurd hda (by simp [((hE.free a).1 ha).2])
    have hap := hE.walk.apart (hE.mem ha) hdm hne
    omega
  · rintro ⟨hlo, hhi, hnot⟩
    obtain ⟨a, ⟨ha, hai⟩, -⟩ := hE.walk.owner hlo hhi
    refine ⟨a, (hE.free a).2 ⟨ha, ?_⟩, hai⟩
    by_contra hused
    exact hnot a (List.mem_filter.2 ⟨ha, by simpa using hused⟩) hai

theorem freeBytes_eq (hE : Exact L h as fs) (hE' : Exact L h' as' fs') (hbrk : h'.brk = h.brk)
    (hs : SameBlocks h h' as as') : freeBytes h' fs' = freeBytes h fs := by
  ext i
  rw [hE.mem_freeBytes, hE'.mem_freeBytes, hbrk, hs.addrs]
  refine and_congr_right fun _ => and_congr_right fun _ => forall₂_congr fun a ha => ?_
  rw [show h'.blockSize a = h.blockSize a from congrArg (alignDown 2) (hs.words a ha).1]

theorem inUse_map (hB : Blocks L h bs) : inUse h (bs.map Blk.addr) = (allocated bs).map Blk.addr := by
  rw [inUse, List.filter_map, allocated]
  refine congrArg (List.map Blk.addr) (List.filter_congr fun b hb => ?_)
  exact hB.isAllocated_eq hb

/-- Rows with the same allocated blocks, and the payloads kept. -/
theorem sameBlocks_of_allocated (hB : Blocks L h bs) (hB' : Blocks L h' bs')
    (ha : allocated bs' = allocated bs) (hk : Keeps bs h h') :
    SameBlocks h h' (bs.map Blk.addr) (bs'.map Blk.addr) := by
  have hmem : ∀ b ∈ allocated bs, b ∈ bs ∧ b ∈ bs' := fun b hb =>
    ⟨(List.mem_filter.1 hb).1, (List.mem_filter.1 (ha ▸ hb)).1⟩
  constructor
  · rw [inUse_map hB, inUse_map hB', ha]
  · intro a hm
    rw [inUse_map hB] at hm
    obtain ⟨b, hb, rfl⟩ := List.mem_map.1 hm
    obtain ⟨hb₁, hb₂⟩ := hmem b hb
    rw [hB.footer_eq hb₁, hB'.footer_eq hb₂, (hB.tagged b hb₁).1, (hB'.tagged b hb₂).1,
      (hB.tagged b hb₁).2, (hB'.tagged b hb₂).2]
    exact ⟨rfl, rfl⟩
  · intro a hm i hi hi'
    rw [inUse_map hB] at hm
    obtain ⟨b, hb, rfl⟩ := List.mem_map.1 hm
    rw [hB.blockSize_eq (hmem b hb).1] at hi'
    exact hB.preserves hk b hb i hi hi'

/-! ### The rounds -/

/-- A round of the loop, at `coalesce_block`. -/
inductive Round (L : Layout) : Heap × ℕ → Heap × ℕ → Prop
  | round {h : Heap} {block : ℕ} (hne : block ≠ L.head) :
    Round L (h, block) ((coalesce L h block false).1,
      (coalesce L h block false).1.next (coalesce L h block false).2)

/-- The loop is at a node of the list: `head`, or a free block. -/
def AtNode (L : Layout) (s : Heap × ℕ) : Prop :=
  ∃ as fs, Footed L s.1 as fs ∧ s.2 ∈ L.head :: fs

theorem AtNode.round (hs : AtNode L s) (hr : Round L s s') : AtNode L s' := by
  obtain ⟨as, fs, hF, hc⟩ := hs
  cases hr with
  | @round h block hne =>
    obtain ⟨pre, b, post, hrow, rfl, hb⟩ :=
      hF.wellFormed.exists_split ((List.mem_cons.1 hc).resolve_left hne)
    have hW := hF.wellFormed
    rw [hrow] at hW
    obtain ⟨bs', fs', -, hW', hr, -⟩ := hW.coalesce_listed hb
    refine ⟨_, fs', hW'.footed, ?_⟩
    exact (hW'.listed.links_mem hr).1

/-- **The pass ends, on free blocks.**  From every tiled heap with an exact list and
footers that hold `0` or the size, the loop of `expand_heap` ends; each block that it comes
to is in the list of that moment; and afterwards the heap is tiled again, with the same
free bytes and the same blocks in use. -/
theorem rounds_end (hF : Footed L h as fs) :
    (∀ s, Relation.ReflTransGen (Round L) (h, h.next L.head) s →
      ∃ as' fs', Footed L s.1 as' fs' ∧ (s.2 ≠ L.head → s.2 ∈ fs')) ∧
    ∃ h' as' fs', coalesceLoop L (MAX_HEAP * MAX_HEAP) h (h.next L.head) = .ok h' ∧
      Footed L h' as' fs' ∧ freeBytes h' fs' = freeBytes h fs ∧ SameBlocks h h' as as' := by
  have hW := hF.wellFormed
  constructor
  · intro s hs
    have hnode : AtNode L s := by
      induction hs with
      | refl => exact ⟨as, fs, hF, hW.listed.next_head_mem⟩
      | tail _ hr ih => exact ih.round hr
    obtain ⟨as', fs', hF', hm⟩ := hnode
    exact ⟨as', fs', hF', fun hne => (List.mem_cons.1 hm).resolve_left hne⟩
  · obtain ⟨h', bs', fs', hloop, ha, hW', hk⟩ := hW.pass_rule
      (Q := fun bs₁ _ _ => allocated bs₁ = allocated (as.map (blockAt h)))
      (fun _ hb hc _ hQ => (hc.allocated_eq hb).trans hQ) rfl
    have hsame := sameBlocks_of_allocated hW.blocks hW'.blocks ha hk
    rw [map_blockAt] at hsame
    exact ⟨h', _, fs', hloop, hW'.footed, freeBytes_eq hF.toExact hW'.exact hk.1 hsame, hsame⟩

/-- Two blocks are taken, the first is given back, and a smaller one is taken from it. -/
theorem rounds_end_split :
    let w := (((mmSystem .low).restrict Call.basic).run (.first .low fun _ => 7)
      [.malloc 100, .malloc 1, .free 148, .malloc 40]).getD (.first .low fun _ => 7)
    ∃ as fs h' as' fs', Footed .low w.heap as fs ∧
      coalesceLoop .low (MAX_HEAP * MAX_HEAP) w.heap (w.heap.next Layout.low.head) = .ok h' ∧
        Footed .low h' as' fs' ∧ freeBytes h' fs' = freeBytes w.heap fs ∧
          SameBlocks w.heap h' as as' := by
  intro w
  have h₀ := reach_first .low fun _ => 7
  obtain ⟨bs, fs, hV⟩ := valid_of_reach (h₀.getD_run
    [.malloc 100, .malloc 1, .free 148, .malloc 40])
  have hF := hV.toWellFormed.footed
  obtain ⟨-, h', as', fs', hend⟩ := rounds_end hF
  exact ⟨_, fs, h', as', fs', hF, hend⟩

end MallocLab
end CsappLabs
