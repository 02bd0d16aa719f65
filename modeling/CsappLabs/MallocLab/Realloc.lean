/-
# `mm_realloc`

After any run of `mm_malloc` and `mm_free`, one `mm_realloc` is correct exactly if
the block size for `n` bytes does not wrap when the test of case 1 adds
`SIZE_OF_BLOCK` to it (`realloc_correct_iff`).  Past that, `mm_realloc` cuts the
block at an address before it.

The call of `expand_heap` in `mm_realloc` itself is for the difference of two
sizes.  The test of case 1 lets a request through that is up to 16 bytes smaller
than the block, and if the block is the last one, the difference wraps
(`directGrowth_iff`).
-/

import CsappLabs.MallocLab.Resize

namespace CsappLabs
namespace MallocLab

open Lib Lib.CInt Lib.Memory Lib.Tiling Lib.Links

variable {L : Layout} {w : World} {h h' : Heap} {bs pre post : List Blk} {fs : List ℕ} {b c : Blk}
  {a e m n p q : ℕ}

/-! ### One call -/

/-- What `mm_realloc` of the block at `p` achieves: `n` bytes at `q`, with the
first of the `m` bytes at `p`. -/
structure Reallocated (L : Layout) (w : World) (p m n : ℕ) (h' : Heap) (q : ℕ) : Prop where
  bytes : ∀ i, i < m → i < n → h'.mem (q + i) = w.heap.mem (p + i)
  others : ∀ x ∈ w.live, x.1 ≠ p → ∀ i, x.1 ≤ i → i < x.1 + x.2 → h'.mem i = w.heap.mem i
  exact : ∃ as fs, Exact L h' as fs ∧ q - 12 ∈ as ∧ ∀ x ∈ w.live, x.1 ≠ p → x.1 - 12 ∈ as
  alloc : h'.isAllocated (q - 12) = true ∧
    ∀ x ∈ w.live, x.1 ≠ p → h'.isAllocated (x.1 - 12) = true
  room : n + 16 ≤ h'.blockSize (q - 12)
  apart : ∀ x ∈ w.live, x.1 ≠ p → q - 12 + h'.blockSize (q - 12) ≤ x.1 - 12 ∨
    x.1 - 12 + h'.blockSize (x.1 - 12) ≤ q - 12

/-- The block of the row that belongs to another block in use. -/
theorem Valid.other_block (hV : Valid L w (pre ++ b :: post) fs) {x : ℕ × ℕ} (hx : x ∈ w.live)
    (hne : x.1 ≠ b.addr + 12) :
    ∃ d ∈ allocated (pre ++ post), x.1 = d.addr + 12 ∧ x.2 + 16 ≤ d.size :=
  (hV.owned.without hV.blocks).block x (List.mem_filter.2 ⟨hx, by simpa using hne⟩)

/-- What is achieved for the blocks of the row is achieved for the blocks in use. -/
theorem Resized.reallocated {bs' : List Blk} {fs' : List ℕ}
    (hV : Valid L w (pre ++ b :: post) fs) (hm : m + 16 ≤ b.size)
    (hR : Resized L w.heap h' (pre ++ post) b n bs' fs' c) :
    Reallocated L w (b.addr + 12) m n h' (c.addr + 12) := by
  have hE := hR.shaped.exact
  obtain ⟨hcm, hca⟩ := List.mem_filter.1 hR.mem
  have hc := hR.shaped.header c hcm
  have hother : ∀ x ∈ w.live, x.1 ≠ b.addr + 12 → ∃ d ∈ bs', d.alloc = true ∧
      x.1 = d.addr + 12 ∧ d.addr ≠ c.addr := by
    intro x hx hne
    obtain ⟨d, hd, hxd, -⟩ := hV.other_block hx hne
    obtain ⟨hd', hdc⟩ := hR.keep d hd
    exact ⟨d, (List.mem_filter.1 hd').1, (List.mem_filter.1 hd').2, hxd, hdc⟩
  refine ⟨fun i hi hin => hR.bytes i hin (by omega), fun x hx hne i hi hi' => ?_,
    ⟨_, fs', hE, List.mem_map_of_mem hcm, fun x hx hne => ?_⟩,
    ⟨hc.2.trans hca, fun x hx hne => ?_⟩, ?_, fun x hx hne => ?_⟩
  · obtain ⟨d, hd, hxd, hroom⟩ := hV.other_block hx hne
    exact hR.preserves d hd i (by omega) (by omega)
  · obtain ⟨d, hd, -, hxd, -⟩ := hother x hx hne
    rw [hxd]
    exact List.mem_map_of_mem hd
  · obtain ⟨d, hd, hda, hxd, -⟩ := hother x hx hne
    rw [hxd]
    exact (hR.shaped.header d hd).2.trans hda
  · rw [Nat.add_sub_cancel, hc.1]
    exact hR.room
  · obtain ⟨d, hd, -, hxd, hdc⟩ := hother x hx hne
    rw [hxd, Nat.add_sub_cancel, Nat.add_sub_cancel]
    exact hE.walk.apart (List.mem_map_of_mem hcm) (List.mem_map_of_mem hd) (Ne.symm hdc)

/-- A block of the heap is not larger than the heap. -/
theorem Walk.size_le {as : List ℕ} (hw : Walk L h as) (ha : a ∈ as) :
    L.memStart + 12 + h.blockSize a ≤ h.brk := by
  have hpos := hw.pos a ha
  have hmem := hw.tiles.mem ha
  simp only [id_eq] at hmem
  omega

/-- What wraps in case 1: `mm_realloc` returns, and the block is not one for `n` bytes. -/
theorem Valid.realloc_wraps (hV : Valid L w bs fs) (hp : (p, m) ∈ w.live) (hn : n + 19 < 2 ^ 32)
    (hwrap : 2 ^ 32 ≤ n + 35) :
    ∃ h', mmRealloc L w.heap p n = .ok (h', some p) ∧ ¬Reallocated L w p m n h' p := by
  obtain ⟨pre, b, post, rfl, hb, rfl⟩ := hV.exists_block ⟨_, hp, rfl⟩
  obtain ⟨hsize, hsize'⟩ := getBlockSize_bounds hn
  have h4 := dvd_getBlockSize n
  have hbm := hV.blocks.mem (b := b) (by simp)
  have hsub := hV.blocks.sub32_payload (b := b) (by simp)
  have halloc : w.heap.isAllocated b.addr = true :=
    (hV.blocks.isAllocated_eq (by simp)).trans hb
  obtain ⟨hW₀, hk₀⟩ := hV.toWellFormed.clearLinks_ok (b := b) (by simp) hb
  have hbs : (clearLinks w.heap b.addr).blockSize b.addr = b.size :=
    hW₀.blocks.blockSize_eq (by simp)
  have htest : add32 (getBlockSize n) SIZE_OF_BLOCK < b.size := by
    have h16 : SIZE_OF_BLOCK = 16 := rfl
    have hadd : add32 (getBlockSize n) 16 = (getBlockSize n + 16) % 2 ^ 32 := rfl
    rw [h16, hadd]
    omega
  have hn0 : n ≠ 0 := by omega
  refine ⟨(splitBlock L (clearLinks w.heap b.addr) b.addr (getBlockSize n) true).setAllocated b.addr,
    ?_, fun hR => ?_⟩
  · rw [mmRealloc, if_neg (Nat.succ_ne_zero _), if_neg hn0, hsub, reallocBlock_eq halloc, hbs,
      if_pos htest]
  · -- no block of the heap is so large
    obtain ⟨as, fs', hE, hmem, -⟩ := hR.exact
    have hle := hE.walk.size_le hmem
    have hroom := hR.room
    have hbrk : ((splitBlock L (clearLinks w.heap b.addr) b.addr (getBlockSize n)
        true).setAllocated b.addr).brk = w.heap.brk := rfl
    rw [hbrk] at hle
    have hmax : MAX_HEAP = 20971520 := rfl
    have hheap := hV.blocks.brk
    omega

/-- **One reallocation is correct**, after any run of `mm_malloc` and `mm_free`,
exactly if the size does not wrap in the test of case 1. -/
theorem realloc_correct_iff (hw : ((mmSystem L).restrict Call.basic).Reach w)
    (hp : (p, m) ∈ w.live) (hn0 : 0 < n) (hn : n + 19 < 2 ^ 32) :
    (∀ h' q, mmRealloc L w.heap p n = .ok (h', some q) → Reallocated L w p m n h' q) ↔
      n + 35 < 2 ^ 32 := by
  obtain ⟨bs, fs, hV⟩ := valid_of_reach hw
  constructor
  · intro hall
    by_contra hwrap
    obtain ⟨h', he, hnot⟩ := hV.realloc_wraps hp hn (not_lt.1 hwrap)
    exact hnot (hall h' p he)
  · intro hfit h' q he
    obtain ⟨pre, b, post, rfl, hb, rfl⟩ := hV.exists_block ⟨_, hp, rfl⟩
    obtain ⟨d, hd, hda, hroom⟩ := hV.owned.block _ hp
    obtain rfl : d = b := hV.blocks.inj (List.mem_filter.1 hd).1 (by simp) (by simp at hda; omega)
    rcases hV.toWellFormed.mmRealloc_ok hb (by omega) hfit with
      ⟨h₁, e, bs', fs', he', -⟩ | ⟨h₁, bs', fs', c, he', hR, -⟩
    · exact absurd (he'.symm.trans he) (by simp)
    · obtain ⟨rfl, hq⟩ := Prod.mk.inj (Except.ok.inj (he'.symm.trans he))
      obtain rfl := Option.some.inj hq
      exact hR.reallocated hV hroom

/-- A block is resized where another one is behind it. -/
theorem realloc_correct_grows :
    let w := (((mmSystem .low).restrict Call.basic).run (.first .low fun _ => 7)
      [.malloc 100, .malloc 50, .store 150 9]).getD (.first .low fun _ => 7)
    (mmRealloc .low w.heap 148 200).toOption.map Prod.snd = some (some 332) ∧
      ∀ h' q, mmRealloc .low w.heap 148 200 = .ok (h', some q) →
        Reallocated .low w 148 100 200 h' q := by
  intro w
  have h₀ := reach_first .low fun _ => 7
  have hw : ((mmSystem .low).restrict Call.basic).Reach w := h₀.getD_run _
  have hlive : (148, 100) ∈ w.live := by decide +kernel
  exact ⟨by decide +kernel, (realloc_correct_iff hw hlive (by decide) (by decide)).2 (by decide)⟩

/-- The block of one byte is resized to `2 ^ 32 - 20` bytes. -/
theorem realloc_wraps_small : ∃ w : World, ((mmSystem .low).restrict Call.basic).Reach w ∧
    (148, 1) ∈ w.live ∧ 2 ^ 32 - 20 + 19 < 2 ^ 32 ∧
    ∃ h', mmRealloc .low w.heap 148 (2 ^ 32 - 20) = .ok (h', some 148) ∧
      ¬Reallocated .low w 148 1 (2 ^ 32 - 20) h' 148 := by
  have h₀ := reach_first .low fun _ => 7
  have hw := h₀.getD_run [.malloc 1]
  have hlive : (148, 1) ∈ ((((mmSystem .low).restrict Call.basic).run (.first .low fun _ => 7)
      [.malloc 1]).getD (.first .low fun _ => 7)).live := by decide +kernel
  obtain ⟨bs, fs, hV⟩ := valid_of_reach hw
  exact ⟨_, hw, hlive, by decide, hV.realloc_wraps hlive (by decide) (by decide)⟩

/-! ### The size for `expand_heap` -/

/-- The size with which `mm_realloc` itself calls `expand_heap`. -/
def directGrowth (h : Heap) (ptr size : ℕ) : Option ℕ :=
  let block := sub32 ptr SIZEOF_BLOCK
  let reallocBlockSize := getBlockSize size
  if ptr = 0 ∨ size = 0 ∨ h.isAllocated block = false then none
  else if add32 reallocBlockSize SIZE_OF_BLOCK < h.blockSize block then none
  else if add32 block (h.blockSize block) = sub32 h.brk 4 ∧
      SIZE_OF_BLOCK < sub32 reallocBlockSize (h.blockSize block) then
    some (sub32 reallocBlockSize (h.blockSize block))
  else none

/-- The links are not the size. -/
theorem clearLinks_blockSize (h : Heap) (ha : a < 2 ^ 32) :
    (clearLinks h a).blockSize a = h.blockSize a := by
  have hadd : ∀ k, k < 12 → add32 a k = a + k ∧ a + k < 2 ^ 32 ∨
      add32 a k + 2 ^ 32 = a + k := by
    intro k hk
    have he : add32 a k = (a + k) % 2 ^ 32 := rfl
    omega
  have h4 := hadd 4 (by omega)
  have h8 := hadd 8 (by omega)
  have hread : (clearLinks h a).read a = h.read a := by
    refine load_congr fun i hi hi' => ?_
    show store (store h.mem (add32 a 8) 0) (add32 a 4) 0 i = h.mem i
    rw [store_of_not_mem (by omega), store_of_not_mem (by omega)]
  exact congrArg (alignDown 2) hread

/-- Where `mm_realloc` of the block `a` calls `expand_heap` itself, and where not. -/
theorem mmRealloc_directGrowth (hp : p ≠ 0) (hn : n ≠ 0) (hb : sub32 p SIZEOF_BLOCK = a)
    (ha : h.isAllocated a = true) :
    mmRealloc L h p n = match directGrowth h p n with
      | some e => expandHeap L (clearLinks h a) e >>= fun h =>
          .ok (((removeFromList h (h.next L.head)).setSize a (getBlockSize n)).setAllocated a, some p)
      | none =>
        if add32 (getBlockSize n) SIZE_OF_BLOCK < h.blockSize a then
          .ok ((splitBlock L (clearLinks h a) a (getBlockSize n) true).setAllocated a, some p)
        else reallocMerge L (clearLinks h a) p n a (add32 a (h.blockSize a)) := by
  have hbrk : (clearLinks h a).brk = h.brk := rfl
  have hsize : (clearLinks h a).blockSize a = h.blockSize a :=
    clearLinks_blockSize h (hb ▸ u32_lt _)
  have hnot : ¬(p = 0 ∨ n = 0 ∨ h.isAllocated a = false) := by simp [hp, hn, ha]
  rw [mmRealloc, if_neg hp, if_neg hn, hb, reallocBlock_eq ha, hsize, hbrk, directGrowth]
  simp only [hb, if_neg hnot]
  split_ifs
  · rfl
  · rfl
  · rfl

/-- Growing the block at `block` never uses a wrapped size. -/
def GrowsByDifference (h : Heap) (ptr size block : ℕ) : Prop :=
  (∀ e, directGrowth h ptr size = some e →
      h.blockSize block < getBlockSize size ∧ e = getBlockSize size - h.blockSize block) ∧
    (getBlockSize size ≤ h.blockSize block → directGrowth h ptr size = none)

/-- **When the difference is one.**  In any heap, `mm_realloc` calls `expand_heap`
itself with a wrapped size exactly if the block is the last one and up to 16 bytes
larger than the block asked for. -/
theorem directGrowth_iff (hp : p ≠ 0) (hn : 0 < n) (hb : sub32 p SIZEOF_BLOCK = a)
    (ha : h.isAllocated a = true) :
    GrowsByDifference h p n a ↔
      ¬(add32 a (h.blockSize a) = sub32 h.brk 4 ∧ getBlockSize n < h.blockSize a ∧
        h.blockSize a ≤ add32 (getBlockSize n) SIZE_OF_BLOCK) := by
  have hsize : h.blockSize a < 2 ^ 32 := lt_of_le_of_lt (alignDown_le ..) (h.read_lt _)
  have hgb : getBlockSize n < 2 ^ 32 := lt_of_le_of_lt (alignDown_le ..) (u32_lt _)
  have hnot : ¬(p = 0 ∨ n = 0 ∨ h.isAllocated a = false) := by simp [hp, hn.ne', ha]
  have h16 : SIZE_OF_BLOCK = 16 := rfl
  unfold GrowsByDifference directGrowth
  simp only [hb, if_neg hnot, h16]
  generalize h.blockSize a = size at *
  generalize getBlockSize n = asked at *
  have hadd : add32 asked 16 = (asked + 16) % 2 ^ 32 := rfl
  rcases Nat.lt_or_ge asked size with hlt | hge
  · -- the difference wraps
    have hsub := sub32_of_lt hlt hsize
    rw [hsub]
    constructor
    · rintro ⟨hall, -⟩ ⟨hlast, -, hle⟩
      rw [if_neg (not_lt.2 hle), if_pos ⟨hlast, by omega⟩] at hall
      exact absurd (hall _ rfl).1 (by omega)
    · intro hnot'
      have hnone : (if add32 asked 16 < size then none
          else if add32 a size = sub32 h.brk 4 ∧ 16 < asked + 2 ^ 32 - size then
            some (asked + 2 ^ 32 - size) else none) = none := by
        split_ifs with h1 h2
        · rfl
        · exact absurd ⟨h2.1, hlt, not_lt.1 h1⟩ hnot'
        · rfl
      exact ⟨fun e he => absurd (hnone.symm.trans he) (by simp), fun _ => hnone⟩
  · have hsub := sub32_of_le hge hgb
    rw [hsub]
    refine iff_of_true ⟨fun e he => ?_, fun hle => ?_⟩ fun hc => absurd hc.2.1 (by omega)
    · split_ifs at he with h1 h2
      obtain rfl := Option.some.inj he
      exact ⟨by omega, rfl⟩
    · split_ifs with h1 h2
      · rfl
      · exact absurd h2.2 (by omega)
      · rfl

/-- A block that is not the last one. -/
theorem directGrowth_iff_apart :
    let w := (((mmSystem .low).restrict Call.basic).run (.first .low fun _ => 7)
      [.malloc 100]).getD (.first .low fun _ => 7)
    GrowsByDifference w.heap 148 90 136 := by
  intro w
  have hsize : w.heap.isAllocated 136 = true ∧
      ¬(add32 136 (w.heap.blockSize 136) = sub32 w.heap.brk 4) := by decide +kernel
  exact (directGrowth_iff (by decide) (by decide) (by decide) hsize.1).2 fun h => hsize.2 h.1

/-- The last block has 4092 bytes, and 4088 are enough. -/
theorem directGrowth_wraps : ∃ w : World, ((mmSystem .low).restrict Call.basic).Reach w ∧
    (148, 4076) ∈ w.live ∧ w.heap.blockSize 136 = 4092 ∧ getBlockSize 4070 = 4088 ∧
    directGrowth w.heap 148 4070 = some (2 ^ 32 - 4) ∧ ¬GrowsByDifference w.heap 148 4070 136 ∧
    ∃ h', mmRealloc .low w.heap 148 4070 = .error (.exit h') := by
  have h₀ := reach_first .low fun _ => 7
  have hw := h₀.getD_run [.malloc 4076]
  generalize hrun : (((mmSystem .low).restrict Call.basic).run (.first .low fun _ => 7)
    [.malloc 4076]).getD (.first .low fun _ => 7) = w at hw
  have hfacts : (148, 4076) ∈ w.live ∧ w.heap.blockSize 136 = 4092 ∧
      getBlockSize 4070 = 4088 ∧ directGrowth w.heap 148 4070 = some (2 ^ 32 - 4) := by
    rw [← hrun]
    decide +kernel
  obtain ⟨hlive, hsize, hasked, hgrow⟩ := hfacts
  refine ⟨w, hw, hlive, hsize, hasked, hgrow, fun hall => ?_, ?_⟩
  · have hlt := (hall.1 _ hgrow).1
    rw [hsize, hasked] at hlt
    exact absurd hlt (by decide)
  · have hexit : (match mmRealloc .low w.heap 148 4070 with
        | .error (.exit _) => true
        | _ => false) = true := by
      rw [← hrun]
      decide +kernel
    cases hm : mmRealloc .low w.heap 148 4070 with
    | ok r => simp [hm] at hexit
    | error e =>
      cases e with
      | exit h' => exact ⟨h', rfl⟩
      | assert | overrun | fuel => simp [hm] at hexit

end MallocLab
end CsappLabs
