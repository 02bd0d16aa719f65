/-
# First fit

What `find_fit` does in every heap that is tiled, with an exact free list: it takes
the first listed block that is large enough, whole or split, and it touches
nothing else but the links of the two neighbours in the list (`findFit_first`).
The footers of the heap may hold anything.
-/

import CsappLabs.MallocLab.Exact

namespace CsappLabs
namespace MallocLab

open Lib Lib.CInt Lib.Memory Lib.Tiling Lib.Links

variable {L : Layout} {h h' h₁ h₂ : Heap} {as fs u v : List ℕ} {W : Set ℕ}
  {a d i q x size fuel : ℕ}

/-! ### The blocks and the nodes -/

/-- Bytes outside the words of `W` are as they were. -/
theorem Within.mem_eq (hw : Within W h h') (hi : ∀ q ∈ W, 4 ∣ q → ¬(q ≤ i ∧ i < q + 4)) :
    h'.mem i = h.mem i := by
  refine hw.2 (i - i % 4) (by omega) (fun hm => ?_) i (by omega) (by omega)
  exact hi _ hm (by omega) ⟨by omega, by omega⟩

namespace Exact

/-- Where a block can be. -/
theorem block (hE : Exact L h as fs) (ha : a ∈ as) : 4 ∣ a ∧ L.memStart + 8 ≤ a ∧
    4 ∣ h.blockSize a ∧ 16 ≤ h.blockSize a ∧ a + h.blockSize a ≤ h.brk - 4 := by
  have hstart := L.start_dvd
  obtain ⟨hlo, hhi⟩ := hE.walk.tiles.mem ha
  obtain ⟨-, h4⟩ := hE.walk.tiles.dvd (k := 4) (by omega) fun b hb => (hE.sized b hb).1
  obtain ⟨hs4, hs⟩ := hE.sized a ha
  exact ⟨h4 a ha, hlo, hs4, hs, hhi⟩

theorem mem (hE : Exact L h as fs) (ha : a ∈ fs) : a ∈ as := ((hE.free a).1 ha).1

/-- The word `size` of a free block. -/
theorem read_eq (hE : Exact L h as fs) (ha : a ∈ fs) : h.read a = h.blockSize a := by
  have hfree := ((hE.free a).1 ha).2
  have hodd : ¬h.read a % 2 = 1 := of_decide_eq_false hfree
  show h.read a = h.read a - h.read a % 2
  omega

/-- A node is apart from a block, or it is the block itself. -/
theorem node_apart (hE : Exact L h as fs) (hbrk : h.brk ≤ L.memStart + MAX_HEAP) (ha : a ∈ as)
    (hx : x ∈ L.head :: fs) (hne : x ≠ a) : x + 12 ≤ a ∨ a + h.blockSize a ≤ x := by
  have hba := hE.block ha
  rcases List.mem_cons.1 hx with rfl | hx
  · have := L.head_apart
    omega
  · have hbx := hE.block (hE.mem hx)
    have hap := hE.walk.apart ha (hE.mem hx) hne.symm
    omega

/-- The list of an exact heap. -/
theorem listed (hE : Exact L h as fs) (hbrk : h.brk ≤ L.memStart + MAX_HEAP) : Listed L h fs := by
  have hheap := L.heap_lt
  have hmax : MAX_HEAP = 20971520 := rfl
  have hap := L.head_apart
  have hnode : ∀ x ∈ L.head :: fs, Node x := by
    intro x hx
    rcases List.mem_cons.1 hx with rfl | hx
    · exact L.node_head
    · have := hE.block (hE.mem hx)
      exact ⟨this.1, by omega⟩
  refine ⟨hE.ring, List.nodup_cons.2 ⟨fun hm => ?_, hE.nodup⟩, hnode, fun x hx y hy => ?_⟩
  · have := hE.block (hE.mem hm)
    omega
  · by_cases he : y = x
    · exact .inl he.symm
    rcases List.mem_cons.1 hx with rfl | hx
    · have hy' := (List.mem_cons.1 hy).resolve_left he
      have := hE.block (hE.mem hy')
      rcases hE.node_apart hbrk (hE.mem hy') (x := L.head) (by simp) (Ne.symm he) with h | h
      · exact .inr (.inl h)
      · exact .inr (.inr (by omega))
    · have := hE.block (hE.mem hx)
      rcases hE.node_apart hbrk (hE.mem hx) hy he with h | h
      · exact .inr (.inr h)
      · exact .inr (.inl (by omega))

/-- The memory determines the list. -/
theorem unique (hE : Exact L h as fs) (hbrk : h.brk ≤ L.memStart + MAX_HEAP) {as' fs' : List ℕ}
    (hE' : Exact L h as' fs') : fs = fs' :=
  hE.ring.unique hE'.ring (fun _ => rfl) (List.nodup_cons.1 (hE.listed hbrk).nodup).1
    (List.nodup_cons.1 (hE'.listed hbrk).nodup).1

/-- There are fewer nodes than bytes. -/
theorem length_le (hE : Exact L h as fs) (hbrk : h.brk ≤ L.memStart + MAX_HEAP) :
    fs.length ≤ MAX_HEAP := by
  have hsub := (List.subperm_of_subset hE.nodup fun a ha => hE.mem ha).length_le
  have hlen := hE.walk.tiles.length_le fun a ha => (hE.sized a ha).2
  omega

/-- No header is a link of a node. -/
theorem header_not_link (hE : Exact L h as fs) (hbrk : h.brk ≤ L.memStart + MAX_HEAP)
    (hd : d ∈ as) (hx : x ∈ L.head :: fs) : d ≠ x + 4 ∧ d ≠ x + 8 := by
  have hbd := hE.block hd
  by_cases hxd : x = d
  · omega
  · have := hE.node_apart hbrk hd hx hxd
    omega

/-! ### The search -/

/-- The first tests of `find_fit` let a listed block through. -/
theorem listed_block (hE : Exact L h as fs) (hbrk : h.brk ≤ L.memStart + MAX_HEAP) (ha : a ∈ fs) :
    a ≠ L.head ∧ ¬h.isAllocated a = true := by
  refine ⟨?_, by simp [((hE.free a).1 ha).2]⟩
  rintro rfl
  exact (List.nodup_cons.1 (hE.listed hbrk).nodup).1 ha

/-- Blocks that are too small are passed by. -/
theorem findFitLoop_skip (hE : Exact L h as fs) (hbrk : h.brk ≤ L.memStart + MAX_HEAP)
    {t : List ℕ} (hfs : fs = t ++ (u ++ v)) (hu : ∀ b ∈ u, h.blockSize b < size)
    (fuel : ℕ) :
    findFitLoop L h size (u.length + fuel) ((u ++ v ++ [L.head]).head (by simp)) =
      findFitLoop L h size fuel ((v ++ [L.head]).head (by simp)) := by
  induction u generalizing t with
  | nil => simp
  | cons a u ih =>
    have ha : a ∈ fs := by simp [hfs]
    obtain ⟨hhead, halloc⟩ := hE.listed_block hbrk ha
    have hsmall : ¬size ≤ h.blockSize a := not_le.2 (hu a List.mem_cons_self)
    have hnext : h.next a = (u ++ v ++ [L.head]).head (by simp) := by
      have hring := hE.ring
      rw [hfs, List.cons_append] at hring
      exact (seg_append.1 hring).2.nxt_eq
    show findFitLoop L h size (u.length + 1 + fuel) a = _
    rw [Nat.add_right_comm, findFitLoop, if_neg hhead, if_neg halloc, if_neg hsmall, hnext]
    refine ih (t := t ++ [a]) ?_ fun b hb => hu b (List.mem_cons_of_mem _ hb)
    rw [hfs, List.append_assoc]
    rfl

/-- A block that is large enough is taken. -/
theorem findFitLoop_take (hE : Exact L h as fs) (hbrk : h.brk ≤ L.memStart + MAX_HEAP)
    (hs : 4 ∣ size) (ha : a ∈ fs) (hfit : size ≤ h.blockSize a) :
    findFitLoop L h size (fuel + 1) a =
      .ok (removeFromList
        (if size + 16 < h.blockSize a then splitBlock L h a size false else h) a, some a) := by
  obtain ⟨hhead, halloc⟩ := hE.listed_block hbrk ha
  have hba := hE.block (hE.mem ha)
  have hassert : ¬(h.size a % 4 ≠ 0 ∨ size % 4 ≠ 0) := by
    have hword : h.size a = h.blockSize a := hE.read_eq ha
    omega
  have hadd : add32 size SIZE_OF_BLOCK = size + 16 := by
    have hheap := L.heap_lt
    have hmax : MAX_HEAP = 20971520 := rfl
    have hpos := L.start_pos
    exact add32_of_lt (by show size + 16 < _; omega)
  rw [findFitLoop, if_neg hhead, if_neg halloc, if_pos hfit, if_neg hassert, hadd]

end Exact

/-! ### What is taken -/

/-- A free block with this size in its header and in its footer. -/
def FreeBlock (h : Heap) (a size : ℕ) : Prop :=
  h.blockSize a = size ∧ h.isAllocated a = false ∧ h.read (h.footer a) = size

theorem freeBlock_of_read (hr : h.read a = size) (hr' : h.read (a + size - 4) = size)
    (h4 : 4 ∣ size) (h16 : 16 ≤ size) (hlt : a + size < 2 ^ 32) : FreeBlock h a size := by
  refine ⟨Heap.blockSize_of_read hr h4, ?_, ?_⟩
  · show decide (h.read a % 2 = 1) = false
    rw [hr]
    exact decide_eq_false (by omega)
  · rw [Heap.footer_of_read hr h4 (by omega) hlt, hr']

/-- What `find_fit` leaves when it takes the block `a` out of the list `u ++ a :: v`.
The block is whole, or a new free block with the rest of it stands in its place. -/
structure Taken (L : Layout) (h h' : Heap) (as : List ℕ) (size : ℕ) (u : List ℕ) (a : ℕ)
    (v : List ℕ) : Prop where
  brk : h'.brk = h.brk
  frame : ∀ i, ¬(a ≤ i ∧ i < a + h.blockSize a) → ¬(h.prev a + 8 ≤ i ∧ i < h.prev a + 12) →
    ¬(h.next a + 4 ≤ i ∧ i < h.next a + 8) → h'.mem i = h.mem i
  whole : h.blockSize a ≤ size + 16 → h'.read a = h.read a ∧ Walk L h' as ∧
    Seg h'.next h'.prev L.head (u ++ v) L.head
  split : size + 16 < h.blockSize a → 20 ≤ h.blockSize a - size ∧ FreeBlock h' a size ∧
    FreeBlock h' (a + size) (h.blockSize a - size) ∧
    (∃ pre post, as = pre ++ a :: post ∧ Walk L h' (pre ++ a :: (a + size) :: post)) ∧
    Seg h'.next h'.prev L.head (u ++ (a + size) :: v) L.head

/-- The words that may change. -/
def TakenWord (h : Heap) (a : ℕ) : Set ℕ :=
  {q | a ≤ q ∧ q < a + h.blockSize a ∨ q = h.prev a + 8 ∨ q = h.next a + 4}

theorem taken_frame (hw : Within (TakenWord h a) h h') (h4 : 4 ∣ a) (hs4 : 4 ∣ h.blockSize a)
    (hi : ¬(a ≤ i ∧ i < a + h.blockSize a)) (hi' : ¬(h.prev a + 8 ≤ i ∧ i < h.prev a + 12))
    (hi'' : ¬(h.next a + 4 ≤ i ∧ i < h.next a + 8)) : h'.mem i = h.mem i := by
  refine hw.mem_eq ?_
  rintro q (hq | rfl | rfl) hq4
  · omega
  · exact hi'
  · exact hi''

namespace Exact

/-- The headers of the other blocks do not change. -/
theorem blockSize_eq (hE : Exact L h as fs) (hbrk : h.brk ≤ L.memStart + MAX_HEAP)
    (hw : Within (TakenWord h a) h h') (ha : a ∈ fs) (hd : d ∈ as) (hne : d ≠ a) :
    h'.blockSize d = h.blockSize d := by
  obtain ⟨hnm, hpm⟩ := (hE.listed hbrk).links_mem ha
  have hbd := hE.block hd
  have hba := hE.block (hE.mem ha)
  refine congrArg (alignDown 2) (hw.read hbd.1 ?_)
  rintro (hq | hq | hq)
  · have hap := hE.walk.apart (hE.mem ha) hd hne.symm
    omega
  · exact (hE.header_not_link hbrk hd hpm).2 hq
  · exact (hE.header_not_link hbrk hd hnm).1 hq

/-- The block is taken whole. -/
theorem take_whole (hE : Exact L h as (u ++ a :: v)) (hbrk : h.brk ≤ L.memStart + MAX_HEAP) :
    Within (TakenWord h a) h (removeFromList h a) ∧ (removeFromList h a).read a = h.read a ∧
      Walk L (removeFromList h a) as ∧
      Seg (removeFromList h a).next (removeFromList h a).prev L.head (u ++ v) L.head := by
  have ha : a ∈ u ++ a :: v := by simp
  have hl := hE.listed hbrk
  obtain ⟨hnm, hpm⟩ := hl.links_mem ha
  have hwords := hl.remove_words ha
  have hring := hl.remove_middle.ring
  generalize removeFromList h a = h' at hwords hring
  have hw : Within (TakenWord h a) h h' := hwords.mono fun q hq => .inr hq
  have hread : h'.read a = h.read a := by
    refine hwords.read (hE.block (hE.mem ha)).1 ?_
    rintro (hq | hq)
    · exact (hE.header_not_link hbrk (hE.mem ha) hpm).2 hq
    · exact (hE.header_not_link hbrk (hE.mem ha) hnm).1 hq
  have hsize : ∀ d ∈ as, h'.blockSize d = h.blockSize d := by
    intro d hd
    by_cases hda : d = a
    · subst hda
      exact congrArg (alignDown 2) hread
    · exact hE.blockSize_eq hbrk hw ha hd hda
  refine ⟨hw, hread, ⟨?_, fun d hd => ?_⟩, hring⟩
  · rw [hw.1]
    exact hE.walk.tiles.congr hsize
  · rw [hsize d hd]
    exact hE.walk.pos d hd

/-- A node in the middle of a block is apart from the listed ones. -/
theorem inside_apart (hE : Exact L h as fs) (hbrk : h.brk ≤ L.memStart + MAX_HEAP) (ha : a ∈ as)
    (h16 : 16 ≤ size) (hlt : size + 16 < h.blockSize a) (hx : x ∈ L.head :: fs) :
    a + size ≠ x ∧ Apart (a + size) x := by
  by_cases hxa : x = a
  · exact ⟨by omega, .inr (.inr (by omega))⟩
  · rcases hE.node_apart hbrk ha hx hxa with h | h
    · exact ⟨by omega, .inr (.inr (by omega))⟩
    · exact ⟨by omega, .inr (.inl (by omega))⟩

/-- The block is split, and its rest stands in the list in its place. -/
theorem take_split (hE : Exact L h as (u ++ a :: v)) (hbrk : h.brk ≤ L.memStart + MAX_HEAP)
    (hs : 4 ∣ size) (h16 : 16 ≤ size) (hlt : size + 16 < h.blockSize a) :
    ∃ h', removeFromList (splitBlock L h a size false) a = h' ∧ Within (TakenWord h a) h h' ∧
      (h'.read a = size ∧ h'.read (a + size - 4) = size) ∧
      (h'.read (a + size) = h.blockSize a - size ∧
        h'.read (a + h.blockSize a - 4) = h.blockSize a - size) ∧
      Seg h'.next h'.prev L.head (u ++ (a + size) :: v) L.head := by
  have hheap := L.heap_lt
  have hmax : MAX_HEAP = 20971520 := rfl
  have ha : a ∈ u ++ a :: v := by simp
  have hba := hE.block (hE.mem ha)
  have hl := hE.listed hbrk
  -- the links are no tags of the two parts
  have htag : ∀ q ∈ SplitWord ⟨a, h.blockSize a, false, true⟩ size,
      q = a ∨ q = a + size - 4 ∨ q = a + size ∨ q = a + h.blockSize a - 4 := fun q hq => hq
  have hlink : ∀ q ∈ SplitWord ⟨a, h.blockSize a, false, true⟩ size,
      q ∉ LinkWord ((a + size) :: L.head :: (u ++ a :: v)) := by
    rintro q hq ⟨x, hx, hqx⟩
    have hq := htag q hq
    rcases List.mem_cons.1 hx with rfl | hx
    · omega
    · by_cases hxa : x = a
      · omega
      · have := hE.node_apart hbrk (hE.mem ha) hx hxa
        omega
  have hdvd : ∀ q ∈ SplitWord ⟨a, h.blockSize a, false, true⟩ size, 4 ∣ q := by
    intro q hq
    have hq := htag q hq
    omega
  obtain ⟨h₁, hsplit, hw₁, hfront, hrest⟩ := splitBlock_words (L := L) (h := h)
    (c := ⟨a, h.blockSize a, false, true⟩) hba.1 hba.2.2.1 (by simp only; omega) rfl hs h16
    hlt.le false
  simp only at hsplit hfront hrest
  have hl₁ : Listed L h₁ (u ++ a :: v) := hl.frame hw₁ fun q hq _ ⟨x, hx, hqx⟩ =>
    hlink q hq ⟨x, List.mem_cons_of_mem _ hx, hqx⟩
  -- the second part is put behind the first
  have hnode : Node (a + size) := ⟨by omega, by omega⟩
  have hapart : ∀ x ∈ L.head :: (u ++ a :: v), a + size ≠ x ∧ Apart (a + size) x :=
    fun x hx => hE.inside_apart hbrk (hE.mem ha) h16 hlt hx
  have hnew : a + size ∉ L.head :: (u ++ a :: v) := fun hm => (hapart _ hm).1 rfl
  have hl₂ := hl₁.insert_after hnode hnew fun x hx => (hapart x hx).2
  have hw₂ := hl₁.insert_words (p := a) (by simp) hnode hnew fun x hx => (hapart x hx).2
  have hk₂ := hl₁.within_insert (p := a) (by simp) hnode hnew fun x hx => (hapart x hx).2
  have hsplit' : splitBlock L h a size false = insertToList h₁ (a + size) a := hsplit
  rw [hsplit']
  generalize insertToList h₁ (a + size) a = h₂ at hl₂ hw₂ hk₂
  -- the first part is taken out
  have ha₂ : a ∈ u ++ a :: (a + size) :: v := by simp
  have hring := hl₂.remove_middle.ring
  have hw₃ := hl₂.remove_words ha₂
  have hk₃ := hl₂.within_remove ha₂
  have hnext₁ : h₁.next a = h.next a := by
    rw [(seg_append.1 hl₁.ring).2.nxt_eq, (seg_append.1 hE.ring).2.nxt_eq]
  have hprev₂ : h₂.prev a = h.prev a := by
    rw [(seg_append.1 hl₂.ring).1.prv_eq, (seg_append.1 hE.ring).1.prv_eq]
  have hnext₂ : h₂.next a = a + size := (seg_append.1 hl₂.ring).2.1
  rw [hnext₁] at hw₂
  rw [hprev₂, hnext₂] at hw₃
  refine ⟨_, rfl, ?_, ?_⟩
  · refine (hw₁.mono ?_).trans ((hw₂.mono ?_).trans (hw₃.mono ?_))
    · intro q hq
      have hq := htag q hq
      exact .inl (by omega)
    · rintro q (hq | rfl | rfl)
      · exact .inl (by omega)
      · exact .inl (by omega)
      · exact .inr (.inr rfl)
    · rintro q (rfl | rfl)
      · exact .inr (.inl rfl)
      · exact .inl (by omega)
  · generalize removeFromList h₂ a = h₃ at hring hk₃
    have hread : ∀ q ∈ SplitWord ⟨a, h.blockSize a, false, true⟩ size, h₃.read q = h₁.read q := by
      intro q hq
      have hnot := hlink q hq
      rw [hk₃.read (hdvd q hq) fun ⟨x, hx, hqx⟩ => hnot ⟨x, ?_, hqx⟩, hk₂.read (hdvd q hq) hnot]
      by_cases hxn : x = a + size
      · exact hxn ▸ List.mem_cons_self
      · refine List.mem_cons_of_mem _ ?_
        simpa using mem_of_mem_middle (u := L.head :: (u ++ [a])) (by simpa using hx) hxn
    rw [hread a (.inl rfl), hread (a + size - 4) (.inr (.inl rfl)),
      hread (a + size) (.inr (.inr (.inl rfl))),
      hread (a + h.blockSize a - 4) (.inr (.inr (.inr rfl)))]
    exact ⟨hfront, hrest, hring⟩

/-- The walk over the two parts. -/
theorem walk_split (hE : Exact L h as fs) (ha : a ∈ as) (hbrk : h'.brk = h.brk)
    (hsize : ∀ d ∈ as, d ≠ a → h'.blockSize d = h.blockSize d)
    (hfront : h'.blockSize a = size) (hrest : h'.blockSize (a + size) = h.blockSize a - size)
    (h0 : 0 < size) (hlt : size < h.blockSize a) :
    ∃ pre post, as = pre ++ a :: post ∧ Walk L h' (pre ++ a :: (a + size) :: post) := by
  obtain ⟨pre, post, rfl⟩ := List.append_of_mem ha
  obtain ⟨hpre, hpost⟩ := tiles_split.1 hE.walk.tiles
  have hnd : (pre ++ a :: post).Nodup := by
    simpa using hE.walk.tiles.nodup hE.walk.pos
  have hnot : a ∉ pre ++ post := (List.nodup_middle.1 hnd |> List.nodup_cons.1).1
  have hne : ∀ d ∈ pre ++ post, d ≠ a := fun d hd he => hnot (he ▸ hd)
  have hkeep : ∀ d ∈ pre ++ post, h'.blockSize d = h.blockSize d := by
    intro d hd
    exact hsize d (mem_middle a hd) (hne d hd)
  refine ⟨pre, post, rfl, ⟨tiles_split.2 ⟨?_, ?_, ?_⟩, fun d hd => ?_⟩⟩
  · exact hpre.congr fun d hd => hkeep d (List.mem_append_left _ hd)
  · rw [hfront]
    rfl
  · simp only [id_eq] at hpost ⊢
    rw [hfront, hrest, hbrk, show a + size + (h.blockSize a - size) = a + h.blockSize a by omega]
    exact hpost.congr fun d hd => hkeep d (List.mem_append_right _ hd)
  · simp only [List.mem_append, List.mem_cons] at hd
    rcases hd with hd | rfl | rfl | hd
    · rw [hkeep d (List.mem_append_left _ hd)]
      exact hE.walk.pos d (by simp [hd])
    · omega
    · omega
    · rw [hkeep d (List.mem_append_right _ hd)]
      exact hE.walk.pos d (by simp [hd])

/-- No block is large enough. -/
theorem findFit_none (hE : Exact L h as fs) (hbrk : h.brk ≤ L.memStart + MAX_HEAP)
    (hsmall : ∀ a ∈ fs, h.blockSize a < size) : findFit L h size = .ok (h, none) := by
  have hlen := hE.length_le hbrk
  obtain ⟨fuel, hfuel⟩ : ∃ fuel, MAX_HEAP + 1 = fs.length + (fuel + 1) :=
    ⟨MAX_HEAP - fs.length, by omega⟩
  have hnext : h.next L.head = (fs ++ [] ++ [L.head]).head (by simp) := by
    simpa using hE.ring.nxt_eq
  rw [findFit, hfuel, hnext, hE.findFitLoop_skip hbrk (t := []) (by simp) hsmall]
  exact if_pos rfl

/-- The first block that is large enough. -/
theorem findFit_take (hE : Exact L h as (u ++ a :: v)) (hbrk : h.brk ≤ L.memStart + MAX_HEAP)
    (hs : 4 ∣ size) (h16 : 16 ≤ size) (hu : ∀ b ∈ u, h.blockSize b < size)
    (hfit : size ≤ h.blockSize a) :
    ∃ h', findFit L h size = .ok (h', some a) ∧ Taken L h h' as size u a v := by
  have hheap := L.heap_lt
  have hmax : MAX_HEAP = 20971520 := rfl
  have ha : a ∈ u ++ a :: v := by simp
  have hba := hE.block (hE.mem ha)
  have hlen := hE.length_le hbrk
  rw [List.length_append, List.length_cons] at hlen
  obtain ⟨fuel, hfuel⟩ : ∃ fuel, MAX_HEAP + 1 = u.length + (fuel + 1) :=
    ⟨MAX_HEAP - u.length, by omega⟩
  rw [findFit, hfuel, hE.ring.nxt_eq, hE.findFitLoop_skip hbrk (t := []) rfl hu]
  show ∃ h', findFitLoop L h size (fuel + 1) a = _ ∧ _
  rw [hE.findFitLoop_take hbrk hs ha hfit]
  by_cases hlt : size + 16 < h.blockSize a
  · obtain ⟨h', he, hw, ⟨hfront, hfront'⟩, ⟨hrest, hrest'⟩, hring⟩ := hE.take_split hbrk hs h16 hlt
    rw [if_pos hlt, he]
    have hfree : FreeBlock h' a size := freeBlock_of_read hfront hfront' hs h16 (by omega)
    have hfree' : FreeBlock h' (a + size) (h.blockSize a - size) := by
      refine freeBlock_of_read hrest ?_ (by omega) (by omega) (by omega)
      rw [show a + size + (h.blockSize a - size) - 4 = a + h.blockSize a - 4 by omega]
      exact hrest'
    refine ⟨h', rfl, hw.1, fun i => taken_frame hw hba.1 hba.2.2.1,
      fun hle => absurd hle (by omega), fun _ => ⟨by omega, hfree, hfree', ?_, hring⟩⟩
    exact hE.walk_split (hE.mem ha) hw.1 (fun d hd hne => hE.blockSize_eq hbrk hw ha hd hne)
      hfree.1 hfree'.1 (by omega) (by omega)
  · obtain ⟨hw, hread, hwalk, hring⟩ := hE.take_whole hbrk
    rw [if_neg hlt]
    generalize removeFromList h a = h' at hw hread hwalk hring
    exact ⟨h', rfl, hw.1, fun i => taken_frame hw hba.1 hba.2.2.1, fun _ => ⟨hread, hwalk, hring⟩,
      fun hlt' => absurd hlt' hlt⟩

end Exact

/-- **`find_fit` is first fit**, in every tiled heap with an exact free list: it returns
`NULL`, with the heap as it was, exactly if every listed block is too small, and it
takes the first block that is large enough. -/
theorem findFit_first (hE : Exact L h as fs) (hbrk : h.brk ≤ L.memStart + MAX_HEAP)
    (hs : 4 ∣ size) (h16 : 16 ≤ size) :
    (findFit L h size = .ok (h, none) ↔ ∀ a ∈ fs, h.blockSize a < size) ∧
      ∀ u a v, fs = u ++ a :: v → (∀ b ∈ u, h.blockSize b < size) → size ≤ h.blockSize a →
        ∃ h', findFit L h size = .ok (h', some a) ∧ Taken L h h' as size u a v := by
  have hsome : ∀ u a v, fs = u ++ a :: v → (∀ b ∈ u, h.blockSize b < size) →
      size ≤ h.blockSize a →
        ∃ h', findFit L h size = .ok (h', some a) ∧ Taken L h h' as size u a v := by
    rintro u a v rfl hu hfit
    exact hE.findFit_take hbrk hs h16 hu hfit
  refine ⟨⟨fun hnone => ?_, hE.findFit_none hbrk⟩, hsome⟩
  by_contra hfit
  push Not at hfit
  obtain ⟨a, hfind⟩ : ∃ a, fs.find? (fun a => size ≤ h.blockSize a) = some a := by
    simpa [← Option.isSome_iff_exists] using hfit
  obtain ⟨ha, u, v, hfs, hu⟩ := List.find?_eq_some_iff_append.1 hfind
  obtain ⟨h', he, -⟩ := hsome u a v hfs (by simpa using hu) (by simpa using ha)
  exact absurd (hnone.symm.trans he) (by simp)

/-- The block of 116 bytes that was given back last is split. -/
theorem findFit_first_split :
    let w := (((mmSystem .low).restrict Call.basic).run (.first .low fun _ => 7)
      [.malloc 100, .malloc 1, .free 148]).getD (.first .low fun _ => 7)
    ∃ h' as v, findFit .low w.heap 64 = .ok (h', some 136) ∧
      Taken .low w.heap h' as 64 [] 136 v := by
  intro w
  have h₀ := reach_first .low fun _ => 7
  have hw : ((mmSystem .low).restrict Call.basic).Reach w := h₀.getD_run _
  have hfacts : w.heap.brk ≤ Layout.low.memStart + MAX_HEAP ∧
      w.heap.next Layout.low.head = 136 ∧ 64 ≤ w.heap.blockSize 136 := by decide +kernel
  clear_value w
  obtain ⟨hbrk, hnext, hfit⟩ := hfacts
  obtain ⟨as, fs, hE⟩ : ∃ as fs, Exact .low w.heap as fs :=
    (valid_of_reach hw).elim fun _ ⟨fs, hV⟩ => ⟨_, fs, hV.toWellFormed.exact⟩
  obtain ⟨v, rfl⟩ : ∃ v, fs = 136 :: v := by
    have hring := hE.ring.nxt_eq
    rw [hnext] at hring
    cases fs with
    | nil => exact absurd hring (by decide)
    | cons b v => exact ⟨v, by rw [show b = 136 from hring.symm]⟩
  obtain ⟨-, hsome⟩ := findFit_first hE hbrk (show 4 ∣ 64 by decide) (by decide)
  obtain ⟨h', he, hT⟩ := hsome [] 136 v rfl (by simp) hfit
  exact ⟨h', as, v, he, hT⟩

end MallocLab
end CsappLabs
