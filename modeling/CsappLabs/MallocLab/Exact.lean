/-
# Tiling and exactness

The invariant in the words of the memory.  `Walk` steps through the heap by
`BLOCK_SIZE`, from the prologue to the epilogue, and `Exact` says that the blocks
visited tile the heap and that the circular list through `head` has exactly the
free ones.

Every run of `mm_malloc` and `mm_free` keeps this, and the allocated blocks are those
that the program holds (`heap_exact`).  It does not depend on the footers, which
`coalesce` may have cleared.
-/

import CsappLabs.MallocLab.Runs

namespace CsappLabs
namespace MallocLab

open Lib Lib.CInt Lib.Memory Lib.Tiling Lib.Links

variable {L : Layout} {w : World} {h : Heap} {bs : List Blk} {fs as : List ℕ} {a c : ℕ}

/-- Stepping by `BLOCK_SIZE` from behind the prologue visits `as` and ends at the
last word of the heap. -/
structure Walk (L : Layout) (h : Heap) (as : List ℕ) : Prop where
  tiles : Tiles id h.blockSize (L.memStart + 8) as (h.brk - 4)
  pos : ∀ a ∈ as, 0 < h.blockSize a

/-- The blocks `as` tile the heap, and the list through `head` has the free ones. -/
structure Exact (L : Layout) (h : Heap) (as fs : List ℕ) : Prop where
  walk : Walk L h as
  sized : ∀ a ∈ as, 4 ∣ h.blockSize a ∧ 16 ≤ h.blockSize a
  epilogue : h.blockSize (h.brk - 4) = 0 ∧ h.isAllocated (h.brk - 4) = true
  ring : Seg h.next h.prev L.head fs L.head
  links : ∀ b ∈ L.head :: fs, h.prev (h.next b) = b ∧ h.next (h.prev b) = b
  nodup : fs.Nodup
  free : ∀ a, a ∈ fs ↔ a ∈ as ∧ h.isAllocated a = false

theorem Walk.unique {as' : List ℕ} (hw : Walk L h as) (hw' : Walk L h as') : as = as' :=
  hw.tiles.unique hw'.tiles hw.pos hw'.pos

/-- Two visited blocks do not overlap. -/
theorem Walk.apart (hw : Walk L h as) (ha : a ∈ as) (hc : c ∈ as) (hne : a ≠ c) :
    a + h.blockSize a ≤ c ∨ c + h.blockSize c ≤ a :=
  hw.tiles.apart_of_ne ha hc hne

/-- Each byte of the heap is in one block. -/
theorem Walk.owner (hw : Walk L h as) {i : ℕ} (hlo : L.memStart + 8 ≤ i) (hhi : i < h.brk - 4) :
    ∃! a, a ∈ as ∧ a ≤ i ∧ i < a + h.blockSize a := by
  obtain ⟨a, ha, hai⟩ := hw.tiles.cover hlo hhi
  refine ⟨a, ⟨ha, hai⟩, fun c ⟨hc, hci⟩ => ?_⟩
  simp only [id_eq] at hai
  by_contra hne
  have hap := hw.apart ha hc (Ne.symm hne)
  omega

/-- The walk over a row. -/
theorem Blocks.walk (hB : Blocks L h bs) : Walk L h (bs.map Blk.addr) := by
  constructor
  · exact (tiles_map _).2 (hB.row.congr fun b hb => hB.blockSize_eq hb)
  · intro a ha
    obtain ⟨b, hb, rfl⟩ := List.mem_map.1 ha
    rw [hB.blockSize_eq hb]
    exact lt_of_lt_of_le (by norm_num) (hB.sized b hb).2

/-- A row with its free blocks is exact. -/
theorem WellFormed.exact (hW : WellFormed L h bs fs) : Exact L h (bs.map Blk.addr) fs := by
  have hring := hW.listed.ring
  refine ⟨hW.blocks.walk, fun a ha => ?_, ?_, hring, fun b hb => ⟨hring.prv_nxt b hb, ?_⟩,
    hW.nodup_list, fun a => ⟨fun ha => ?_, fun ⟨ha, hf⟩ => ?_⟩⟩
  · obtain ⟨b, hb, rfl⟩ := List.mem_map.1 ha
    rw [hW.blocks.blockSize_eq hb]
    exact hW.blocks.sized b hb
  · show alignDown 2 (h.read (h.brk - 4)) = 0 ∧ decide (h.read (h.brk - 4) % 2 = 1) = true
    rw [hW.blocks.epilogue]
    exact ⟨rfl, rfl⟩
  · exact hring.nxt_prv b (mem_ring.2 hb)
  · obtain ⟨b, hb, rfl, hf⟩ := hW.free a ha
    exact ⟨List.mem_map_of_mem hb, (hW.blocks.isAllocated_eq hb).trans hf⟩
  · obtain ⟨b, hb, rfl⟩ := List.mem_map.1 ha
    exact hW.complete b hb ((hW.blocks.isAllocated_eq hb).symm.trans hf)

/-- It depends on the headers, the epilogue and the links. -/
theorem Exact.congr (hE : Exact L h as fs) {h' : Heap} (hbrk : h'.brk = h.brk)
    (hread : ∀ a, a ∈ as ∨ a = h.brk - 4 → h'.read a = h.read a)
    (hlink : ∀ a ∈ L.head :: fs, h'.next a = h.next a ∧ h'.prev a = h.prev a) :
    Exact L h' as fs := by
  have hsize : ∀ a, a ∈ as ∨ a = h.brk - 4 → h'.blockSize a = h.blockSize a := fun a ha =>
    congrArg (alignDown 2) (hread a ha)
  have halloc : ∀ a, a ∈ as ∨ a = h.brk - 4 → h'.isAllocated a = h.isAllocated a := fun a ha =>
    congrArg (fun v => decide (v % 2 = 1)) (hread a ha)
  have hring : Seg h'.next h'.prev L.head fs L.head := by
    exact hE.ring.congr (fun a ha => (hlink a ha).1) fun a ha => (hlink a (mem_ring.1 ha)).2
  refine ⟨⟨?_, fun a ha => ?_⟩, fun a ha => ?_, ?_, hring, fun b hb => ⟨hring.prv_nxt b hb, ?_⟩,
    hE.nodup, fun a => ?_⟩
  · rw [hbrk]
    exact hE.walk.tiles.congr fun a ha => hsize a (.inl ha)
  · rw [hsize a (.inl ha)]
    exact hE.walk.pos a ha
  · rw [hsize a (.inl ha)]
    exact hE.sized a ha
  · rw [hbrk, hsize _ (.inr rfl), halloc _ (.inr rfl)]
    exact hE.epilogue
  · exact hring.nxt_prv b (mem_ring.2 hb)
  · rw [hE.free a]
    exact and_congr_right fun ha => by rw [halloc a (.inl ha)]

/-- The blocks in use are all the allocated blocks of the row. -/
def AllHeld (bs : List Blk) (w : World) : Prop := ∀ b ∈ allocated bs, w.Holds (b.addr + 12)

theorem AllHeld.holds_iff (hh : AllHeld bs w) (hV : Valid L w bs fs) {p : ℕ} :
    w.Holds p ↔ ∃ a ∈ bs.map Blk.addr, w.heap.isAllocated a = true ∧ p = a + 12 := by
  constructor
  · intro hp
    obtain ⟨pre, b, post, rfl, hb, rfl⟩ := hV.exists_block hp
    refine ⟨b.addr, List.mem_map_of_mem (by simp), ?_, rfl⟩
    rw [hV.blocks.isAllocated_eq (b := b) (by simp), hb]
  · rintro ⟨a, ha, hal, rfl⟩
    obtain ⟨b, hb, rfl⟩ := List.mem_map.1 ha
    exact hh b (List.mem_filter.2 ⟨hb, (hV.blocks.isAllocated_eq hb).symm.trans hal⟩)

/-- A block in use stays in use when another one is given back. -/
theorem World.Holds.without {p q : ℕ} {w' : World} (hp : w.Holds p)
    (hl : w'.live = w.without q) (hne : p ≠ q) : w'.Holds p := by
  obtain ⟨x, hx, rfl⟩ := hp
  refine ⟨x, ?_, rfl⟩
  rw [hl]
  exact List.mem_filter.2 ⟨hx, by simpa using hne⟩

/-- The block that `mm_malloc` takes is in use, and the others still are. -/
theorem AllHeld.malloced {w' : World} {pre post : List Blk} {c : Blk} {fs' : List ℕ} {n brk : ℕ}
    {brk' : ℕ} (hh : AllHeld bs w) (hm : Malloced L n brk bs fs pre c post fs' brk')
    (hl : w'.live = (c.addr + 12, n) :: w.live) :
    AllHeld (pre ++ { c with alloc := true } :: post) w' := by
  intro b hb
  unfold World.Holds
  rw [hl]
  obtain ⟨hb, ha⟩ := List.mem_filter.1 hb
  by_cases hbc : b.addr = c.addr
  · exact ⟨_, List.mem_cons_self .., by rw [hbc]⟩
  · have hold : b ∈ allocated bs := by
      rw [← hm.allocated_eq]
      exact allocated_cons c (allocated_of_ne hb ha hbc)
    obtain ⟨x, hx, hxb⟩ := hh b hold
    exact ⟨x, List.mem_cons_of_mem _ hx, hxb⟩

/-- The block that `mm_free` gives back is the only one that is not in use any more. -/
theorem AllHeld.freed {w' : World} {pre post bs' : List Blk} {b : Blk} {fs' : List ℕ}
    (hh : AllHeld (pre ++ b :: post) w) (hB : Blocks L h (pre ++ b :: post))
    (hf : Freed pre b post fs bs' fs') (hl : w'.live = w.without (b.addr + 12)) :
    AllHeld bs' w' := by
  intro d hd
  obtain ⟨fs₁, r, hc, -⟩ := hf
  rw [hc.allocated_eq rfl] at hd
  obtain ⟨hd, hda⟩ := List.mem_filter.1 hd
  have hdm : d ∈ pre ++ post := mem_of_mem_middle hd (by rintro rfl; simp at hda)
  have hold : d ∈ allocated (pre ++ b :: post) :=
    allocated_cons b (List.mem_filter.2 ⟨hdm, hda⟩)
  exact (hh d hold).without hl fun hdb => hB.addr_ne hdm (by omega)

/-- **No call leaks a block.** -/
theorem Valid.allHeld (hV : Valid L w bs fs) (hh : AllHeld bs w) {c : Call} (hc : c.basic = true)
    (hp : w.Permits c) {w' : World} (hcall : w.call L c = .ok w') :
    ∃ bs' fs', Valid L w' bs' fs' ∧ AllHeld bs' w' := by
  cases c with
  | reset =>
    obtain ⟨w₁, he, -, -, hV'⟩ := hV.reset
    obtain rfl := Except.ok.inj (he.symm.trans hcall)
    exact ⟨_, _, hV', fun b hb => absurd hb (by simp [allocated, firstBlock])⟩
  | malloc n =>
    rcases hV.malloc hp with
      ⟨-, -, h₁, bs', fs', he, -⟩ | ⟨w₁, pre, c, post, fs', he, hm, hl, hV', -⟩
    · exact absurd (he.symm.trans hcall) (by simp)
    · obtain rfl := Except.ok.inj (he.symm.trans hcall)
      exact ⟨_, _, hV', hh.malloced hm hl⟩
  | free p =>
    by_cases h0 : p = 0
    · subst h0
      obtain rfl := Except.ok.inj (hV.free_null.symm.trans hcall)
      exact ⟨_, _, hV, hh⟩
    · obtain ⟨pre, b, post, rfl, hb, rfl⟩ := hV.exists_block (hp.resolve_left h0)
      obtain ⟨w₁, bs', fs', he, hf, hl, -, hV', -⟩ := hV.free_block hb
      obtain rfl := Except.ok.inj (he.symm.trans hcall)
      exact ⟨_, _, hV', hh.freed hV.blocks hf hl⟩
  | realloc p n => exact absurd hc (by simp [Call.basic])
  | store a v =>
    obtain ⟨w₁, he, hl, -, hV'⟩ := hV.store hp
    obtain rfl := Except.ok.inj (he.symm.trans hcall)
    refine ⟨_, _, hV', fun b hb => ?_⟩
    unfold World.Holds
    rw [hl]
    exact hh b hb

/-- Along a run. -/
theorem allHeld_of_reach (hw : ((mmSystem L).restrict Call.basic).Reach w) :
    ∃ bs fs, Valid L w bs fs ∧ AllHeld bs w := by
  refine hw.of_restrict.induct (P := fun w => ∃ bs fs, Valid L w bs fs ∧ AllHeld bs w)
    (fun w hi => ?_) ?_
  · refine ⟨_, _, (valid_of_init hi).1, fun b hb => absurd hb (by simp [allocated, firstBlock])⟩
  · rintro w c w' - ⟨bs, fs, hV, hh⟩ ⟨-, hc⟩ hn
    obtain ⟨hp, he⟩ := next_eq_some.1 hn
    exact hV.allHeld hh hc hp he

/-- **Tiling and exactness** in every state of a run of `mm_malloc` and `mm_free`, with the
allocated blocks those that the program holds.  A call that does not return has found no
memory. -/
theorem heap_exact (hw : ((mmSystem L).restrict Call.basic).Reach w) :
    (∃ as fs, Exact L w.heap as fs ∧
      (∀ i, L.memStart + 8 ≤ i → i < w.heap.brk - 4 →
        ∃! a, a ∈ as ∧ a ≤ i ∧ i < a + w.heap.blockSize a) ∧
      ∀ p, w.Holds p ↔ ∃ a ∈ as, w.heap.isAllocated a = true ∧ p = a + 12) ∧
      ∀ c, c.basic = true → w.Permits c → ∀ e, w.call L c = .error e → e.NoMemory := by
  obtain ⟨bs, fs, hV, hh⟩ := allHeld_of_reach hw
  have hE := hV.toWellFormed.exact
  refine ⟨⟨_, fs, hE, fun i => hE.walk.owner, fun p => ?_⟩, fun c hc hp => (hV.basic hc hp).fault⟩
  exact hh.holds_iff hV

/-- Two blocks are taken, and the first one is given back. -/
theorem heap_exact_free : (((mmSystem .low).restrict Call.basic).run (.first .low fun _ => 7)
      [.malloc 100, .malloc 1, .store 153 9, .free 148]).isSome ∧
    ∃ w : World, w = (((mmSystem .low).restrict Call.basic).run (.first .low fun _ => 7)
        [.malloc 100, .malloc 1, .store 153 9, .free 148]).getD (.first .low fun _ => 7) ∧
      ∃ as fs, Exact .low w.heap as fs ∧
        ∀ p, w.Holds p ↔ ∃ a ∈ as, w.heap.isAllocated a = true ∧ p = a + 12 := by
  have h0 := reach_first .low fun _ => 7
  obtain ⟨⟨as, fs, hE, -, hheld⟩, -⟩ := heap_exact (h0.getD_run _)
  exact ⟨by decide +kernel, _, rfl, as, fs, hE, hheld⟩

end MallocLab
end CsappLabs
