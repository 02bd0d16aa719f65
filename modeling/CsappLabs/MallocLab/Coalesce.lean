/-
# Merging blocks

`Rep L h bs fs` says that the memory holds the row of blocks `bs` and the list
`fs` of free blocks.  `coalesce` merges a free block with its free neighbours,
with one restriction: the block before it is found by its footer, and only if
the footer has not been cleared.  `Coalesce` is this as a relation on rows and
lists, and `coalesce_rep` says that the memory follows it.

A merge writes the tags of the new block first and takes the absorbed blocks out
of the list after that, so in between nodes of the list lie inside a block
(`Loose`).  `clear_block` runs last and clears the footer just written, which is
why the merged block ends up without its tag.
-/

import CsappLabs.MallocLab.FreeList

namespace CsappLabs
namespace MallocLab

open Lib Lib.CInt Lib.Memory Lib.Tiling

variable {L : Layout} {h h' : Heap} {bs pre ys post : List Blk} {fs ns : List ℕ} {x y z b c : Blk}
  {a q n lo hi s : ℕ} {W : Set ℕ}

/-- The address is that of `head`, or of a node inside a block. -/
def Inner (L : Layout) (bs : List Blk) (a : ℕ) : Prop :=
  a = L.head ∨ ∃ c ∈ bs, c.addr ≤ a ∧ a + 16 ≤ c.addr + c.size

/-- The memory holds a row of blocks and a list of nodes inside them. -/
structure Loose (L : Layout) (h : Heap) (bs : List Blk) (fs : List ℕ) : Prop where
  blocks : Blocks L h bs
  listed : Listed L h fs
  inner : ∀ a ∈ fs, Inner L bs a

/-- The memory holds a row of blocks and a list of free blocks. -/
structure Rep (L : Layout) (h : Heap) (bs : List Blk) (fs : List ℕ) : Prop where
  blocks : Blocks L h bs
  listed : Listed L h fs
  free : ∀ a ∈ fs, ∃ b ∈ bs, b.addr = a ∧ b.alloc = false

namespace Blocks

/-- A block can be a node. -/
theorem node (hB : Blocks L h bs) (hb : b ∈ bs) : Node b.addr := by
  have := hB.mem hb
  have := hB.brk
  have := L.heap_lt
  exact ⟨by omega, by omega⟩

/-- From the payload back to the block. -/
theorem sub32_payload (hB : Blocks L h bs) (hb : b ∈ bs) :
    sub32 (b.addr + 12) SIZEOF_BLOCK = b.addr := by
  have hlt : b.addr + 12 < 2 ^ 32 := (hB.node hb).2
  exact (sub32_of_le (Nat.le_add_left ..) hlt).trans (Nat.add_sub_cancel ..)

/-- `head` is outside the heap. -/
theorem apart_head (hB : Blocks L h bs) (hb : b ∈ bs) :
    L.head + 12 ≤ b.addr ∨ b.addr + b.size + 4 ≤ L.head := by
  have := hB.mem hb
  have := hB.brk
  rcases L.head_apart with h | h
  · exact .inl (by omega)
  · exact .inr (by omega)

/-- The link words of inner nodes are no tags. -/
theorem link_not_tag (hB : Blocks L h bs) (hns : ∀ a ∈ ns, Inner L bs a) (hq : q ∈ LinkWord ns) :
    ¬Tag L h bs q := by
  obtain ⟨a, ha, hqa⟩ := hq
  have hbrk := hB.brk
  have hap := L.head_apart
  intro ht
  rcases hns a ha with rfl | ⟨c, hc, hlo, hhi⟩
  · rcases ht with ht | ht | ht | ⟨b, hb, ht⟩
    · omega
    · omega
    · omega
    · have := hB.mem hb
      have := hB.apart_head hb
      omega
  · have hcm := hB.mem hc
    rcases ht with ht | ht | ht | ⟨b, hb, ht⟩
    · omega
    · omega
    · omega
    · have := hB.mem hb
      rcases hB.row.apart hb hc with rfl | h | h <;> omega

/-- Writing link words of inner nodes changes no block. -/
theorem link_frame (hB : Blocks L h bs) (hns : ∀ a ∈ ns, Inner L bs a)
    (hw : Within (LinkWord ns) h h') : Blocks L h' bs :=
  hB.frame hw fun _ hq _ => hB.link_not_tag hns hq

end Blocks

namespace Rep

theorem inner (hR : Rep L h bs fs) (ha : a ∈ fs) : Inner L bs a := by
  obtain ⟨b, hb, rfl, -⟩ := hR.free a ha
  have := hR.blocks.mem hb
  exact .inr ⟨b, hb, le_rfl, by omega⟩

theorem loose (hR : Rep L h bs fs) : Loose L h bs fs := ⟨hR.blocks, hR.listed, fun _ => hR.inner⟩

/-- The links of the free list are outside the payload areas. -/
theorem link_outside (hR : Rep L h bs fs) : LinkWord (L.head :: fs) ⊆ Outside bs := by
  rintro q ⟨a, ha, hqa⟩
  rcases List.mem_cons.1 ha with rfl | ha
  · have hap := L.head_apart
    have hbrk := hR.blocks.brk
    exact hR.blocks.outside_heap (by omega)
  · obtain ⟨b, hb, rfl, -⟩ := hR.free a ha
    exact hR.blocks.outside_header hb (by omega) (by omega)

/-- A listed node is not in the range of another block. -/
theorem node_apart (hR : Rep L h bs fs) (hb : b ∈ bs) (ha : a ∈ L.head :: fs) (hne : a ≠ b.addr) :
    a + 12 ≤ b.addr ∨ b.addr + b.size ≤ a := by
  rcases List.mem_cons.1 ha with rfl | ha
  · rcases hR.blocks.apart_head hb with h | h
    · exact .inl h
    · exact .inr (by omega)
  · obtain ⟨c, hc, rfl, -⟩ := hR.free a ha
    have := hR.blocks.mem hc
    rcases hR.blocks.apart_of_ne hb hc hne.symm with h | h
    · exact .inr h
    · exact .inl (by omega)

/-- No node is listed in the middle of a block. -/
theorem inside_not_listed (hR : Rep L h bs fs) (hb : b ∈ bs) (hlo : b.addr < a)
    (hhi : a < b.addr + b.size) : a ∉ fs := by
  intro ha
  have hap := hR.node_apart hb (List.mem_cons_of_mem _ ha) hlo.ne'
  omega

end Rep

/-! ### The steps of a merge -/

/-- Writing the tags of a merge of `x` with the blocks `ys` behind it. -/
def mergeTags (h : Heap) (x : Blk) (hi : ℕ) : Heap :=
  ((h.write (x.addr + x.size - 4) 0).write x.addr (hi - x.addr + x.alloc.toNat)).write (hi - 4)
    (hi - x.addr)

/-- The merged block. -/
def merged (x : Blk) (hi : ℕ) : Blk := { x with size := hi - x.addr, tagged := true }

/-- The words that `mergeTags` writes. -/
theorem within_mergeTags (hx : 4 ∣ x.addr) (hs : 4 ∣ x.size) (hhi : 4 ∣ hi) :
    Within {q | q = x.addr + x.size - 4 ∨ q = x.addr ∨ q = hi - 4} h (mergeTags h x hi) := by
  refine .write_mem (.write_mem (.write_mem (.refl _ h) ?_ (.inl rfl)) hx (.inr (.inl rfl)))
    ?_ (.inr (.inr rfl))
  all_goals omega

/-- **The tags of a merge.** -/
theorem Blocks.merge (hB : Blocks L h (pre ++ (x :: ys) ++ post)) (hne : ys ≠ [])
    (hys : Row (x.addr + x.size) ys hi) :
    Blocks L (mergeTags h x hi) (pre ++ [merged x hi] ++ post) := by
  have hx := hB.mem (b := x) (by simp)
  have hlt := L.heap_lt
  have hbrk := hB.brk
  have hle := hys.le
  -- the last block of `ys` ends at `hi`
  obtain ⟨y, hy, hylt⟩ : ∃ y ∈ ys, x.addr + x.size + 16 ≤ hi ∧ hi + 4 ≤ h.brk := by
    obtain ⟨y, hy⟩ := List.exists_mem_of_ne_nil ys hne
    have hym := hB.mem (b := y) (by simp [hy])
    have hyr := hys.mem hy
    refine ⟨y, hy, by omega, ?_⟩
    have hrow := hB.row
    rw [List.append_assoc, List.cons_append] at hrow
    obtain ⟨m, hm, hpost⟩ := tiles_append.1 (tiles_split.1 hrow).2
    obtain rfl := hm.end_unique hys
    have := hpost.le
    omega
  have hhi : 4 ∣ hi := by
    refine (hys.dvd (k := 4) (by omega) fun c hc => ?_).1
    exact (hB.sized c (by simp [hc])).1
  have hrow : Row x.addr (x :: ys) hi := ⟨rfl, hys⟩
  refine hB.splice hrow (by simp) ⟨rfl, ?_⟩
    (within_mergeTags hx.1 hx.2.1 hhi) ?_ ?_ ?_
  · show x.addr + (hi - x.addr) = hi
    omega
  · rintro q (rfl | rfl | rfl) - <;> omega
  · simp only [Sized, List.mem_singleton, forall_eq, merged]
    omega
  · simp only [List.mem_singleton, forall_eq]
    have hb := x.alloc.toNat_le
    refine ⟨?_, ?_⟩
    · show (mergeTags h x hi).read x.addr = _
      rw [mergeTags, Heap.read_write_of_ne (by omega) (by omega) (by omega),
        Heap.read_write_self (by omega)]
      rfl
    · show (mergeTags h x hi).read (x.addr + (hi - x.addr) - 4) = _
      rw [show x.addr + (hi - x.addr) - 4 = hi - 4 by omega, mergeTags,
        Heap.read_write_self (by omega)]
      rfl

/-- **The merge on a heap** keeps the list, and the nodes absorbed are inside. -/
theorem Rep.merge (hR : Rep L h (pre ++ (x :: ys) ++ post) fs) (hne : ys ≠ [])
    (hys : Row (x.addr + x.size) ys hi) :
    Loose L (mergeTags h x hi) (pre ++ [merged x hi] ++ post) fs := by
  have hB := hR.blocks
  have hx := hB.mem (b := x) (by simp)
  have hle := hys.le
  have hhi : 4 ∣ hi := by
    refine (hys.dvd (k := 4) (by omega) fun c hc => ?_).1
    exact (hB.sized c (by simp [hc])).1
  refine ⟨hB.merge hne hys, hR.listed.frame
    (within_mergeTags hx.1 hx.2.1 hhi) ?_, fun a ha => ?_⟩
  · -- the words written are tags of the old row
    intro q hq hq4 hlink
    refine hB.link_not_tag ?_ hlink ?_
    · intro a ha
      rcases List.mem_cons.1 ha with rfl | ha
      · exact .inl rfl
      · exact hR.inner ha
    · rcases hq with rfl | rfl | rfl
      · exact .inr (.inr (.inr ⟨x, by simp, .inr rfl⟩))
      · exact .inr (.inr (.inr ⟨x, by simp, .inl rfl⟩))
      · obtain ⟨init, y, rfl⟩ := List.eq_nil_or_concat ys |>.resolve_left hne
        rw [List.concat_eq_append] at hys
        obtain ⟨-, hy⟩ := tiles_split.1 hys
        obtain rfl : y.addr + y.size = hi := hy
        exact .inr (.inr (.inr ⟨y, by simp, .inr rfl⟩))
  · obtain ⟨c, hc, rfl, -⟩ := hR.free a ha
    have hcm := hB.mem hc
    simp only [List.mem_append, List.mem_cons] at hc
    rcases hc with (hc | rfl | hc) | hc
    · exact .inr ⟨c, by simp [hc], le_rfl, by omega⟩
    · exact .inr ⟨merged c hi, by simp, le_rfl, by simp only [merged]; omega⟩
    · have hcr := hys.mem hc
      exact .inr ⟨merged x hi, by simp, by simp only [merged]; omega, by simp only [merged]; omega⟩
    · exact .inr ⟨c, by simp [hc], le_rfl, by omega⟩

/-- Taking a node out of the list. -/
theorem Loose.remove (hl : Loose L h bs fs) (ha : a ∈ fs) :
    Loose L (removeFromList h a) bs (fs.erase a) := by
  refine ⟨hl.blocks.link_frame (fun c hc => ?_) (hl.listed.within_remove ha), hl.listed.remove ha,
    fun c hc => hl.inner c (List.mem_of_mem_erase hc)⟩
  rcases List.mem_cons.1 hc with rfl | hc
  · exact .inl rfl
  · exact hl.inner c hc

/-- The words that `clear_block` writes. -/
theorem within_clearBlock (ha : Node a) (hs : 4 ∣ s) (h16 : 16 ≤ s) (hlt : a + s < 2 ^ 32)
    (hread : h.read a = s) :
    Within {q | q = a + s - 4 ∨ q = a ∨ q = a + 4 ∨ q = a + 8} h (clearBlock h a) ∧
      (clearBlock h a).read (a + s - 4) = 0 := by
  obtain ⟨h4, -⟩ := id ha
  have hfoot : h.footer a = a + s - 4 := Heap.footer_of_read hread hs (by omega) hlt
  rw [clearBlock]
  simp only [hfoot, ha.setPrev_eq, ha.setNext_eq]
  constructor
  · refine .write_mem (.write_mem (.write_mem (.write_mem (.refl _ h) ?_ (.inl rfl))
      h4 (.inr (.inl rfl))) ?_ (.inr (.inr (.inl rfl)))) ?_ (.inr (.inr (.inr rfl)))
    all_goals omega
  · rw [Heap.read_write_of_ne (by omega) (by omega) (by omega),
      Heap.read_write_of_ne (by omega) (by omega) (by omega), Heap.setSize,
      Heap.read_write_of_ne (by omega) (by omega) (by omega), Heap.read_write_self (by norm_num)]

/-- **`clear_block` of an absorbed block** clears the footer of the block that
absorbed it, if both end together. -/
theorem Loose.clear (hl : Loose L h (pre ++ [z] ++ post) fs) (ha : 4 ∣ a) (hs : 4 ∣ s)
    (h16 : 16 ≤ s) (hlo : z.addr + 16 ≤ a) (hhi : a + s ≤ z.addr + z.size) (hread : h.read a = s)
    (hap : ∀ c ∈ L.head :: fs, c + 12 ≤ a ∨ a + s ≤ c) :
    Loose L (clearBlock h a)
      (pre ++ [{ z with tagged := z.tagged && a + s != z.addr + z.size }] ++ post) fs := by
  have hz := hl.blocks.mem (b := z) (by simp)
  have htag := hl.blocks.tagged z (by simp)
  have hnode : Node a := ⟨ha, by omega⟩
  obtain ⟨hw, hzero⟩ := within_clearBlock hnode hs h16 (by omega) hread
  have hrow : Row z.addr [z] (z.addr + z.size) := ⟨rfl, rfl⟩
  refine ⟨hl.blocks.splice hrow (by simp) ⟨rfl, rfl⟩ hw ?_ ?_ ?_, hl.listed.frame hw ?_, fun c hc => ?_⟩
  · rintro q (rfl | rfl | rfl | rfl) - <;> omega
  · simp only [Sized, List.mem_singleton, forall_eq]
    exact ⟨hz.2.1, hz.2.2.1⟩
  · simp only [List.mem_singleton, forall_eq]
    refine ⟨(hw.read hz.1 ?_).trans htag.1, ?_⟩
    · rintro (hq | hq | hq | hq) <;> omega
    · show (clearBlock h a).read (z.addr + z.size - 4) = _
      by_cases he : a + s = z.addr + z.size
      · rw [← he, hzero]
        simp [Blk.tag, he]
      · rw [hw.read (by omega) ?_, htag.2]
        · simp [Blk.tag, he]
        · rintro (hq | hq | hq | hq) <;> omega
  · rintro q hq - ⟨c, hc, hqc⟩
    have := hap c hc
    rcases hq with rfl | rfl | rfl | rfl <;> omega
  · rcases hl.inner c hc with rfl | ⟨d, hd, hdlo, hdhi⟩
    · exact .inl rfl
    · simp only [List.mem_append, List.mem_singleton] at hd
      rcases hd with (hd | rfl) | hd
      · exact .inr ⟨d, by simp [hd], hdlo, hdhi⟩
      · exact .inr ⟨{ d with tagged := d.tagged && a + s != d.addr + d.size }, by simp, hdlo, hdhi⟩
      · exact .inr ⟨d, by simp [hd], hdlo, hdhi⟩

/-! ### The neighbours -/

/-- `coalesce` sees a free block behind exactly if there is one. -/
theorem nextFree_iff (hB : Blocks L h (pre ++ b :: post)) :
    (add32 b.addr (h.blockSize b.addr) ≠ L.head ∧
        h.isAllocated (add32 b.addr (h.blockSize b.addr)) = false ∧
        h.size (add32 b.addr (h.blockSize b.addr)) ≠ 0) ↔
      ∃ n post', post = n :: post' ∧ n.alloc = false := by
  have hb := hB.mem (b := b) (by simp)
  obtain ⟨-, hpost⟩ := tiles_split.1 hB.row
  rw [hB.blockSize_eq (b := b) (by simp), add32_of_lt hb.2.2.2.2.2]
  cases post with
  | nil =>
    -- the word behind the last block is the epilogue
    have he : b.addr + b.size = h.brk - 4 := hpost
    have hepi : h.read (b.addr + b.size) = 1 := he ▸ hB.epilogue
    refine iff_of_false (fun hf => ?_) (by simp)
    have hfree : decide (h.read (b.addr + b.size) % 2 = 1) = false := hf.2.1
    rw [hepi] at hfree
    exact absurd hfree (by decide)
  | cons n post =>
    have hn : n ∈ pre ++ b :: n :: post := by simp
    have hna : n.addr = b.addr + b.size := hpost.1
    have hnm := hB.mem hn
    have hap := hB.apart_head hn
    rw [← hna, hB.isAllocated_eq hn]
    constructor
    · exact fun hf => ⟨n, post, rfl, hf.2.1⟩
    · rintro ⟨n', post', he, hf⟩
      obtain ⟨rfl, rfl⟩ := List.cons.inj he
      refine ⟨by omega, hf, ?_⟩
      show h.read n.addr ≠ 0
      rw [(hB.tagged n hn).1, Blk.header]
      omega

/-- `coalesce` sees a free block before exactly if there is one with its tag. -/
theorem prevFree_iff (hB : Blocks L h (pre ++ b :: post)) :
    (0 < h.read (sub32 b.addr 4) ∧
        sub32 b.addr (h.read (sub32 b.addr 4)) ≠ L.head ∧
        h.isAllocated (sub32 b.addr (h.read (sub32 b.addr 4))) = false ∧
        h.size (sub32 b.addr (h.read (sub32 b.addr 4))) ≠ 0) ↔
      ∃ pre' p, pre = pre' ++ [p] ∧ p.alloc = false ∧ p.tagged = true := by
  have hb := hB.mem (b := b) (by simp)
  have hlt := hB.node (b := b) (by simp)
  obtain ⟨hpre, -⟩ := tiles_split.1 hB.row
  have h4 : sub32 b.addr 4 = b.addr - 4 := sub32_of_le (by omega) (by have := hlt.2; omega)
  rw [h4]
  rcases List.eq_nil_or_concat pre with rfl | ⟨pre, p, rfl⟩
  · -- the word before the first block is the footer of the prologue
    have he : L.memStart + 8 = b.addr := hpre
    have hfoot : h.read (b.addr - 4) = 8 := by
      rw [← he]
      exact hB.prologue.2
    have hpro : sub32 b.addr 8 = L.memStart := by
      rw [sub32_of_le (by omega) (by have := hlt.2; omega)]
      omega
    refine iff_of_false (fun hf => ?_) (by simp)
    have hfree : decide (h.read (sub32 b.addr (h.read (b.addr - 4))) % 2 = 1) = false := hf.2.2.1
    rw [hfoot, hpro, hB.prologue.1] at hfree
    exact absurd hfree (by decide)
  · rw [List.concat_eq_append] at hB hpre ⊢
    have hp : p ∈ pre ++ [p] ++ b :: post := by simp
    have hpm := hB.mem hp
    obtain ⟨-, hpe⟩ := tiles_split.1 hpre
    have hpb : p.addr + p.size = b.addr := hpe
    have hap := hB.apart_head hp
    have hfoot : h.read (b.addr - 4) = p.tag := by
      rw [← hpb]
      exact (hB.tagged p hp).2
    rw [hfoot, Blk.tag]
    cases htag : p.tagged with
    | false =>
      refine iff_of_false (fun hf => absurd hf.1 (by simp)) ?_
      rintro ⟨pre', p', he, -, ht⟩
      obtain ⟨-, hpp⟩ := List.append_inj' he rfl
      obtain rfl := (List.cons.inj hpp).1
      exact absurd ht (by simp [htag])
    | true =>
      have hsub : sub32 b.addr p.size = p.addr := by
        rw [sub32_of_le (by omega) (by have := hlt.2; omega)]
        omega
      simp only [if_true, hsub]
      rw [hB.isAllocated_eq hp]
      constructor
      · exact fun hf => ⟨pre, p, rfl, hf.2.2.1, htag⟩
      · rintro ⟨pre', p', he, hfree, -⟩
        obtain ⟨-, hpp⟩ := List.append_inj' he rfl
        obtain rfl := (List.cons.inj hpp).1
        refine ⟨by omega, by omega, hfree, ?_⟩
        show h.read p.addr ≠ 0
        rw [(hB.tagged p hp).1, Blk.header]
        omega

/-! ### A merge step by step -/

/-- The code's way of writing the tags of a merge. -/
theorem mergeTags_eq (hB : Blocks L h (pre ++ (x :: ys) ++ post)) (hne : ys ≠ [])
    (hys : Row (x.addr + x.size) ys hi) {v : ℕ} (hv : v = hi - x.addr + x.alloc.toNat) :
    (((h.write (h.footer x.addr) 0).setSize x.addr v).write
        (((h.write (h.footer x.addr) 0).setSize x.addr v).footer x.addr)
        (((h.write (h.footer x.addr) 0).setSize x.addr v).blockSize x.addr)) =
      mergeTags h x hi := by
  have hx := hB.mem (b := x) (by simp)
  have hM := hB.merge hne hys
  have hm := hM.mem (b := merged x hi) (by simp)
  have hle := hys.le
  simp only [merged] at hm
  have hb := x.alloc.toNat_le
  have hfoot : h.footer x.addr = x.addr + x.size - 4 := hB.footer_eq (by simp)
  have hsize : ((h.write (x.addr + x.size - 4) 0).setSize x.addr v).blockSize x.addr =
      hi - x.addr := by
    show alignDown 2 (((h.write (x.addr + x.size - 4) 0).write x.addr v).read x.addr) = _
    rw [Heap.read_write_self (by omega), hv, alignDown]
    omega
  rw [hfoot, Heap.footer, hsize, add32_of_lt hm.2.2.2.2.2, sub32_of_le (by omega) (by omega),
    mergeTags, ← hv, show x.addr + (hi - x.addr) - 4 = hi - 4 by omega]
  rfl

/-- What the code reads for the new size, the first footer being cleared. -/
theorem Blocks.sizes (hB : Blocks L h (pre ++ (x :: ys) ++ post))
    (hys : Row (x.addr + x.size) ys hi) :
    (h.write (h.footer x.addr) 0).size x.addr = x.header ∧
      ∀ y ∈ ys, (h.write (h.footer x.addr) 0).blockSize y.addr = y.size := by
  have hx := hB.mem (b := x) (by simp)
  have hfoot : h.footer x.addr = x.addr + x.size - 4 := hB.footer_eq (by simp)
  rw [hfoot]
  constructor
  · show (h.write (x.addr + x.size - 4) 0).read x.addr = x.header
    rw [Heap.read_write_of_ne (by omega) hx.1 (by omega)]
    exact (hB.tagged x (by simp)).1
  · intro y hy
    have hym := hB.mem (b := y) (by simp [hy])
    have hyr := hys.mem hy
    have hread : (h.write (x.addr + x.size - 4) 0).read y.addr = h.read y.addr :=
      Heap.read_write_of_ne (by omega) hym.1 (by omega)
    have hy' := hB.blockSize_eq (b := y) (by simp [hy])
    rw [← hy']
    show alignDown 2 ((h.write (x.addr + x.size - 4) 0).read y.addr) = alignDown 2 (h.read y.addr)
    rw [hread]

/-- A merge on the way from `h₀` with the list `gs`: the blocks `todo` have been
absorbed and still have their headers. -/
structure Absorbing (L : Layout) (h₀ : Heap) (gs : List ℕ) (pre : List Blk) (x : Blk)
    (ys post : List Blk) (hi : ℕ) (h : Heap) (todo : List Blk) (t : Bool) (fs : List ℕ) :
    Prop where
  loose : Loose L h (pre ++ [{ merged x hi with tagged := t }] ++ post) fs
  keeps : Keeps (pre ++ (x :: ys) ++ post) h₀ h
  header : ∀ y ∈ todo, y ∈ ys ∧ h.read y.addr = y.size
  sub : ∀ a ∈ fs, a ∈ gs

namespace Absorbing

variable {h₀ : Heap} {gs : List ℕ} {todo : List Blk} {t : Bool}

/-- After the tags. -/
theorem start (hR : Rep L h₀ (pre ++ (x :: ys) ++ post) gs) (hne : ys ≠ [])
    (hys : Row (x.addr + x.size) ys hi) (hfree : ∀ y ∈ ys, y.alloc = false) :
    Absorbing L h₀ gs pre x ys post hi (mergeTags h₀ x hi) ys true gs := by
  have hB := hR.blocks
  have hx := hB.mem (b := x) (by simp)
  have hhi : 4 ∣ hi := by
    refine (hys.dvd (k := 4) (by omega) fun c hc => ?_).1
    exact (hB.sized c (by simp [hc])).1
  have hw := within_mergeTags (h := h₀) hx.1 hx.2.1 hhi
  refine ⟨hR.merge hne hys, hw.mono ?_, fun y hy => ⟨hy, ?_⟩, fun a ha => ha⟩
  · rintro q (rfl | rfl | rfl)
    · exact hB.outside_footer (by simp)
    · exact hB.outside_header (b := x) (by simp) le_rfl (by omega)
    · obtain ⟨init, y, rfl⟩ := List.eq_nil_or_concat ys |>.resolve_left hne
      rw [List.concat_eq_append] at hys
      obtain ⟨-, hy⟩ := tiles_split.1 hys
      obtain rfl : y.addr + y.size = hi := hy
      exact hB.outside_footer (by simp)
  · have hym := hB.mem (b := y) (by simp [hy])
    have hyr := hys.mem hy
    rw [hw.read hym.1 ?_, (hB.tagged y (by simp [hy])).1, Blk.header, hfree y hy]
    · rfl
    · rintro (hq | hq | hq) <;> omega

/-- After taking a block out of the list. -/
theorem remove (hR : Rep L h₀ (pre ++ (x :: ys) ++ post) gs)
    (hA : Absorbing L h₀ gs pre x ys post hi h todo t fs) (ha : a ∈ fs) :
    Absorbing L h₀ gs pre x ys post hi (removeFromList h a) todo t (fs.erase a) := by
  have hw : Within (LinkWord (L.head :: gs)) h (removeFromList h a) := by
    refine (hA.loose.listed.within_remove ha).mono ?_
    rintro q ⟨c, hc, hq⟩
    refine ⟨c, ?_, hq⟩
    rcases List.mem_cons.1 hc with rfl | hc
    · exact List.mem_cons_self
    · exact List.mem_cons_of_mem _ (hA.sub c hc)
  refine ⟨hA.loose.remove ha, hA.keeps.trans (hw.mono hR.link_outside), fun y hy => ?_,
    fun c hc => hA.sub c (List.mem_of_mem_erase hc)⟩
  obtain ⟨hyys, hread⟩ := hA.header y hy
  have hym := hR.blocks.mem (b := y) (by simp [hyys])
  refine ⟨hyys, (hw.read hym.1 fun hm => ?_).trans hread⟩
  -- the header of an absorbed block was a tag, and links are not
  refine hR.blocks.link_not_tag (fun c hc => ?_) hm (.inr (.inr (.inr ⟨y, by simp [hyys], .inl rfl⟩)))
  rcases List.mem_cons.1 hc with rfl | hc
  · exact .inl rfl
  · exact hR.inner hc

/-- After clearing a block that is no longer listed. -/
theorem clear (hR : Rep L h₀ (pre ++ (x :: ys) ++ post) gs) (hys : Row (x.addr + x.size) ys hi)
    (hfree : ∀ y ∈ ys, y.alloc = false)
    (hA : Absorbing L h₀ gs pre x ys post hi h todo t fs) (hy : y ∈ todo) (hyf : y.addr ∉ fs)
    (todo' : List Blk) (htodo : ∀ c ∈ todo', c ∈ todo ∧ c ≠ y) :
    Absorbing L h₀ gs pre x ys post hi (clearBlock h y.addr) todo' (t && y.addr + y.size != hi)
      fs := by
  have hB := hR.blocks
  obtain ⟨hyys, hread⟩ := hA.header y hy
  have hx := hB.mem (b := x) (by simp)
  have hyB : y ∈ pre ++ (x :: ys) ++ post := by simp [hyys]
  have hym := hB.mem hyB
  have hyr := hys.mem hyys
  obtain ⟨hw, -⟩ := within_clearBlock (hB.node hyB) hym.2.1 hym.2.2.1 hym.2.2.2.2.2 hread
  have hap : ∀ c ∈ L.head :: fs, c + 12 ≤ y.addr ∨ y.addr + y.size ≤ c := by
    intro c hc
    refine hR.node_apart hyB ?_ ?_
    · rcases List.mem_cons.1 hc with rfl | hc
      · exact List.mem_cons_self
      · exact List.mem_cons_of_mem _ (hA.sub c hc)
    · rintro rfl
      rcases List.mem_cons.1 hc with hc | hc
      · have := hB.apart_head hyB
        omega
      · exact hyf hc
  have hloose := hA.loose.clear hym.1 hym.2.1 hym.2.2.1 (by simp only [merged]; omega)
    (by simp only [merged]; omega) hread hap
  refine ⟨?_, hA.keeps.trans (hw.mono ?_), fun c hc => ?_, hA.sub⟩
  · have hend : x.addr + (hi - x.addr) = hi := by omega
    simpa only [merged, hend] using hloose
  · rintro q (rfl | rfl | rfl | rfl) <;>
      exact hB.outside_free hyB (hfree y hyys) (by omega) (by omega)
  · obtain ⟨hct, hcy⟩ := htodo c hc
    obtain ⟨hcys, hcread⟩ := hA.header c hct
    have hcm := hB.mem (b := c) (by simp [hcys])
    have hapc := hB.row.apart hyB (c := c) (by simp [hcys])
    refine ⟨hcys, (hw.read hcm.1 ?_).trans hcread⟩
    rcases hapc with rfl | h | h
    · exact absurd rfl hcy
    · rintro (hq | hq | hq | hq) <;> omega
    · rintro (hq | hq | hq | hq) <;> omega

/-- When all absorbed blocks are out of the list, it is one of free blocks. -/
theorem rep (hR : Rep L h₀ (pre ++ (x :: ys) ++ post) gs)
    (hA : Absorbing L h₀ gs pre x ys post hi h todo t fs) (hys : ∀ y ∈ ys, y.addr ∉ fs) :
    Rep L h (pre ++ [{ merged x hi with tagged := t }] ++ post) fs := by
  refine ⟨hA.loose.blocks, hA.loose.listed, fun a ha => ?_⟩
  obtain ⟨c, hc, rfl, hfree⟩ := hR.free a (hA.sub a ha)
  simp only [List.mem_append, List.mem_cons] at hc
  rcases hc with (hc | rfl | hc) | hc
  · exact ⟨c, by simp [hc], rfl, hfree⟩
  · exact ⟨{ merged c hi with tagged := t }, by simp, rfl, hfree⟩
  · exact absurd ha (hys c hc)
  · exact ⟨c, by simp [hc], rfl, hfree⟩

/-- A block just freed is not in the list, and others are taken out. -/
theorem removeUnless (hR : Rep L h₀ (pre ++ (x :: ys) ++ post) gs)
    (hA : Absorbing L h₀ gs pre x ys post hi h todo t fs) {fromAllocated : Bool}
    (hflag : fromAllocated = true ↔ a ∉ fs) :
    Absorbing L h₀ gs pre x ys post hi (if fromAllocated then h else removeFromList h a) todo t
      (fs.erase a) := by
  cases fromAllocated with
  | true =>
    rw [List.erase_of_not_mem (hflag.1 rfl)]
    exact hA
  | false => exact hA.remove hR (by_contra fun ha => absurd (hflag.2 ha) (by simp))

end Absorbing

/-! ### `coalesce` -/

/-- The block `x` after it has absorbed `y`. -/
def Blk.absorb (x y : Blk) : Blk := { x with size := x.size + y.size, tagged := false }

/-- No free block before `coalesce` can see. -/
def NoPrev (pre : List Blk) : Prop := ∀ p ∈ pre.getLast?, p.alloc = true ∨ p.tagged = false

/-- No free block behind. -/
def NoNext (post : List Blk) : Prop := ∀ n ∈ post.head?, n.alloc = true

theorem noNext_iff : NoNext post ↔ ¬∃ n post', post = n :: post' ∧ n.alloc = false := by
  cases post with
  | nil => simp [NoNext]
  | cons n post => simp [NoNext]

theorem noPrev_iff : NoPrev pre ↔
    ¬∃ pre' p, pre = pre' ++ [p] ∧ p.alloc = false ∧ p.tagged = true := by
  rcases List.eq_nil_or_concat pre with rfl | ⟨pre, p, rfl⟩
  · simp [NoPrev]
  · simp only [NoPrev, List.concat_eq_append, List.getLast?_append, List.getLast?_singleton,
      Option.some_or, Option.mem_some, forall_eq']
    constructor
    · rintro hp ⟨pre', p', he, hf, ht⟩
      obtain ⟨-, hpp⟩ := List.append_inj' he rfl
      obtain rfl := (List.cons.inj hpp).1
      rcases hp with hp | hp
      · exact absurd hp (by simp [hf])
      · exact absurd hp (by simp [ht])
    · intro hp
      cases hf : p.alloc with
      | true => exact .inl rfl
      | false =>
        cases ht : p.tagged with
        | false => exact .inr rfl
        | true => exact absurd ⟨pre, p, rfl, hf, ht⟩ hp

/-- What `coalesce` does at `b` in the row `pre ++ b :: post` with the list `fs`:
the new row, the new list and the address that it returns. -/
inductive Coalesced : List Blk → Blk → List Blk → List ℕ → List Blk → List ℕ → ℕ → Prop
  | both {pre : List Blk} {p b n : Blk} {post : List Blk} {fs : List ℕ} :
    p.alloc = false → p.tagged = true → n.alloc = false →
      Coalesced (pre ++ [p]) b (n :: post) fs (pre ++ (p.absorb b).absorb n :: post)
        ((fs.erase n.addr).erase b.addr) p.addr
  | prev {pre : List Blk} {p b : Blk} {post : List Blk} {fs : List ℕ} :
    p.alloc = false → p.tagged = true → NoNext post →
      Coalesced (pre ++ [p]) b post fs (pre ++ p.absorb b :: post) (fs.erase b.addr) p.addr
  | next {pre : List Blk} {b n : Blk} {post : List Blk} {fs : List ℕ} :
    NoPrev pre → n.alloc = false →
      Coalesced pre b (n :: post) fs (pre ++ b.absorb n :: post) (fs.erase n.addr) b.addr
  | none {pre : List Blk} {b : Blk} {post : List Blk} {fs : List ℕ} :
    NoPrev pre → NoNext post → Coalesced pre b post fs (pre ++ b :: post) fs b.addr

/-- The address of the block behind. -/
theorem nextBlock_eq (hB : Blocks L h (pre ++ b :: y :: post)) :
    add32 b.addr (h.blockSize b.addr) = y.addr := by
  have hb := hB.mem (b := b) (by simp)
  obtain ⟨-, hpost⟩ := tiles_split.1 hB.row
  rw [hB.blockSize_eq (b := b) (by simp), add32_of_lt hb.2.2.2.2.2]
  exact hpost.1.symm

/-- The address of the block before, found by its footer. -/
theorem prevBlock_eq (hB : Blocks L h (pre ++ [x] ++ b :: post)) (ht : x.tagged = true) :
    sub32 b.addr (h.read (sub32 b.addr 4)) = x.addr := by
  have hx := hB.mem (b := x) (by simp)
  have hlt := (hB.node (b := b) (by simp)).2
  obtain ⟨hpre, -⟩ := tiles_split.1 hB.row
  obtain ⟨-, hxe⟩ := tiles_split.1 hpre
  have hxb : x.addr + x.size = b.addr := hxe
  have hfoot : h.read (b.addr - 4) = x.size := by
    rw [← hxb]
    refine (hB.tagged x (by simp)).2.trans ?_
    rw [Blk.tag, if_pos ht]
  rw [sub32_of_le (b := 4) (by omega) (by omega), hfoot, sub32_of_le (by omega) (by omega)]
  omega

section Cases

variable {p n : Blk}

/-- The branch of `coalesce` with two free neighbours. -/
theorem coalesce_both (hR : Rep L h (pre ++ (p :: [b, n]) ++ post) fs) (hb : b.alloc = false)
    (hp : p.alloc = false) (hn : n.alloc = false) (hnf : n.addr ∈ fs)
    {fromAllocated : Bool} (hflag : fromAllocated = true ↔ b.addr ∉ fs) :
    let h₁ := h.write (h.footer p.addr) 0
    let h₂ := h₁.setSize p.addr
      (add32 (h₁.size p.addr) (add32 (h₁.blockSize b.addr) (h₁.blockSize n.addr)))
    let h₃ := removeFromList (h₂.write (h₂.footer p.addr) (h₂.blockSize p.addr)) n.addr
    let h₄ := if fromAllocated then h₃ else removeFromList h₃ b.addr
    let h₅ := clearBlock (clearBlock h₄ n.addr) b.addr
    Rep L h₅ (pre ++ [(p.absorb b).absorb n] ++ post) ((fs.erase n.addr).erase b.addr) ∧
      Keeps (pre ++ (p :: [b, n]) ++ post) h h₅ := by
  intro h₁ h₂ h₃ h₄ h₅
  have hB := hR.blocks
  have hpm := hB.mem (b := p) (by simp)
  have hbm := hB.mem (b := b) (by simp)
  have hnm := hB.mem (b := n) (by simp)
  have hnd : fs.Nodup := (List.nodup_cons.1 hR.listed.nodup).2
  -- the three blocks follow each other
  have hrow := hB.row
  rw [List.append_assoc] at hrow
  obtain ⟨hba, hna, -⟩ := (tiles_split.1 hrow).2
  have hys : Row (p.addr + p.size) [b, n] (n.addr + n.size) :=
    ⟨hba, hna, show p.addr + p.size + b.size + n.size = n.addr + n.size by omega⟩
  have hne : b.addr ≠ n.addr := by omega
  obtain ⟨hsize, hsizes⟩ := hB.sizes hys
  have htags : h₂.write (h₂.footer p.addr) (h₂.blockSize p.addr) =
      mergeTags h p (n.addr + n.size) := by
    refine mergeTags_eq hB (by simp) hys ?_
    have hbn : add32 b.size n.size = b.size + n.size := add32_of_lt (by omega)
    rw [hsize, hsizes b (by simp), hsizes n (by simp), Blk.header, hp, Bool.toNat_false, hbn,
      add32_of_lt (by omega)]
    omega
  have hA := Absorbing.start hR (by simp) hys (by simp [hb, hn])
  rw [← htags] at hA
  have hA3 := hA.remove hR hnf
  have hflag' : fromAllocated = true ↔ b.addr ∉ fs.erase n.addr := by
    rw [hflag, List.mem_erase_of_ne hne]
  have hA4 := hA3.removeUnless hR hflag'
  have hbf : b.addr ∉ (fs.erase n.addr).erase b.addr := (hnd.erase _).not_mem_erase
  have hnf' : n.addr ∉ (fs.erase n.addr).erase b.addr :=
    fun hm => hnd.not_mem_erase (List.mem_of_mem_erase hm)
  have hbn : b ≠ n := fun he => hne (by rw [he])
  have hA5 := hA4.clear hR hys (by simp [hb, hn]) (y := n) (by simp) hnf' [b] (by simp [hbn])
  have hA6 := hA5.clear hR hys (by simp [hb, hn]) (y := b) (by simp) hbf [] (by simp)
  refine ⟨?_, hA6.keeps⟩
  have hrep := hA6.rep hR (by simp [hbf, hnf'])
  rw [show (true && n.addr + n.size != n.addr + n.size && b.addr + b.size != n.addr + n.size) =
    false by simp] at hrep
  have he : n.addr + n.size - p.addr = p.size + b.size + n.size := by omega
  simpa only [merged, Blk.absorb, he] using hrep

/-- A block absorbs the free block behind it: the other two branches of `coalesce`,
and case 3 of `mm_realloc`. -/
theorem absorb_rep (hR : Rep L h (pre ++ (x :: [y]) ++ post) fs) (hy : y.alloc = false)
    {fromAllocated : Bool} (hflag : fromAllocated = true ↔ y.addr ∉ fs) :
    let h₁ := h.write (h.footer x.addr) 0
    let h₂ := h₁.setSize x.addr (add32 (h₁.size x.addr) (h₁.blockSize y.addr))
    let h₃ := h₂.write (h₂.footer x.addr) (h₂.blockSize x.addr)
    let h₄ := clearBlock (if fromAllocated then h₃ else removeFromList h₃ y.addr) y.addr
    Rep L h₄ (pre ++ [x.absorb y] ++ post) (fs.erase y.addr) ∧
      Keeps (pre ++ (x :: [y]) ++ post) h h₄ := by
  intro h₁ h₂ h₃ h₄
  have hB := hR.blocks
  have hxm := hB.mem (b := x) (by simp)
  have hym := hB.mem (b := y) (by simp)
  have hnd : fs.Nodup := (List.nodup_cons.1 hR.listed.nodup).2
  have hrow := hB.row
  rw [List.append_assoc] at hrow
  obtain ⟨hya, -⟩ := (tiles_split.1 hrow).2
  have hys : Row (x.addr + x.size) [y] (y.addr + y.size) :=
    ⟨hya, show x.addr + x.size + y.size = y.addr + y.size by omega⟩
  obtain ⟨hsize, hsizes⟩ := hB.sizes hys
  have halloc := x.alloc.toNat_le
  have htags : h₃ = mergeTags h x (y.addr + y.size) := by
    refine mergeTags_eq hB (by simp) hys ?_
    rw [hsize, hsizes y (by simp), Blk.header, add32_of_lt (by omega)]
    omega
  have hA := Absorbing.start hR (by simp) hys (by simp [hy])
  rw [← htags] at hA
  have hyf : y.addr ∉ fs.erase y.addr := hnd.not_mem_erase
  have hA4 := (hA.removeUnless hR hflag).clear hR hys (by simp [hy]) (y := y) (by simp) hyf []
    (by simp)
  refine ⟨?_, hA4.keeps⟩
  have hrep := hA4.rep hR (by simp [hyf])
  rw [show (true && y.addr + y.size != y.addr + y.size) = false by simp] at hrep
  have he : y.addr + y.size - x.addr = x.size + y.size := by omega
  simpa only [merged, Blk.absorb, he] using hrep

end Cases

/-- **`coalesce` merges a free block with its free neighbours.** -/
theorem coalesce_rep (hR : Rep L h (pre ++ b :: post) fs) (hb : b.alloc = false)
    (hfree : ∀ c ∈ pre ++ post, c.alloc = false → c.addr ∈ fs) {fromAllocated : Bool}
    (hflag : fromAllocated = true ↔ b.addr ∉ fs) :
    ∃ bs' fs', Coalesced pre b post fs bs' fs' (coalesce L h b.addr fromAllocated).2 ∧
      Rep L (coalesce L h b.addr fromAllocated).1 bs' fs' ∧
      Keeps (pre ++ b :: post) h (coalesce L h b.addr fromAllocated).1 := by
  have hB := hR.blocks
  have hbm := hB.mem (b := b) (by simp)
  have hprev := prevFree_iff hB
  have hnext := nextFree_iff hB
  unfold coalesce
  dsimp only
  by_cases hp : ∃ pre' p, pre = pre' ++ [p] ∧ p.alloc = false ∧ p.tagged = true
  · rw [if_congr (and_iff_right (hprev.2 hp)) rfl rfl, if_pos (hprev.2 hp)]
    obtain ⟨pre, p, rfl, hpf, hpt⟩ := hp
    rw [prevBlock_eq hB hpt]
    by_cases hn : ∃ n post', post = n :: post' ∧ n.alloc = false
    · rw [if_pos (hnext.2 hn)]
      obtain ⟨n, post, rfl, hnf⟩ := hn
      have hnm : n.addr ∈ fs := hfree n (by simp) hnf
      rw [nextBlock_eq hB]
      have hR' : Rep L h (pre ++ (p :: [b, n]) ++ post) fs := by simpa using hR
      obtain ⟨hrep, hkeep⟩ := coalesce_both hR' hb hpf hnf hnm hflag
      exact ⟨_, _, .both hpf hpt hnf, by simpa using hrep, by simpa using hkeep⟩
    · rw [if_neg fun hf => hn (hnext.1 hf)]
      have hR' : Rep L h (pre ++ (p :: [b]) ++ post) fs := by simpa using hR
      obtain ⟨hrep, hkeep⟩ := absorb_rep hR' hb hflag
      exact ⟨_, _, .prev hpf hpt (noNext_iff.2 hn), by simpa using hrep, by simpa using hkeep⟩
  · rw [if_neg fun hf => hp (hprev.1 hf.1), if_neg fun hf => hp (hprev.1 hf)]
    have hno : NoPrev pre := noPrev_iff.2 hp
    by_cases hn : ∃ n post', post = n :: post' ∧ n.alloc = false
    · rw [if_pos (hnext.2 hn)]
      obtain ⟨n, post, rfl, hnf⟩ := hn
      have hnm : n.addr ∈ fs := hfree n (by simp) hnf
      rw [nextBlock_eq hB]
      have hR' : Rep L h (pre ++ (b :: [n]) ++ post) fs := by simpa using hR
      have hflag' : false = true ↔ n.addr ∉ fs := by simp [hnm]
      obtain ⟨hrep, hkeep⟩ := absorb_rep hR' hnf hflag'
      exact ⟨_, _, .next hno hnf, by simpa using hrep, by simpa using hkeep⟩
    · rw [if_neg fun hf => hn (hnext.1 hf)]
      exact ⟨_, _, .none hno (noNext_iff.2 hn), hR, .refl _ _⟩

end MallocLab
end CsappLabs
