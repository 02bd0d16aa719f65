/-
# The steps of `mm_realloc`

`mm_realloc` resizes a block where it is, by cutting off its end (case 1), by
adding memory behind the last block (case 2) or by taking in the free block behind
(case 3), or it moves the payload to another block (case 4).  `Resized` says what
all of them achieve.

Case 2 does not write a footer: the word in its place is the size of the memory
that was added.  So the row that case 2 leaves is known up to its footers only
(`Shaped`), and the invariant is lost.
-/

import CsappLabs.MallocLab.Exact

namespace CsappLabs
namespace MallocLab

open Lib Lib.CInt Lib.Memory Lib.Tiling Lib.Links

variable {L : Layout} {h h' : Heap} {bs pre post : List Blk} {fs : List ℕ} {b c d y : Blk}
  {n s : ℕ}

/-! ### Preparing the block -/

/-- `mm_realloc` clears the links of the block. -/
def clearLinks (h : Heap) (block : ℕ) : Heap := (h.setNext block 0).setPrev block 0

theorem WellFormed.clearLinks_ok (hW : WellFormed L h bs fs) (hb : b ∈ bs) (ha : b.alloc = true) :
    WellFormed L (clearLinks h b.addr) bs fs ∧ Keeps bs h (clearLinks h b.addr) := by
  have hbm := hW.blocks.mem hb
  have hnode := hW.blocks.node hb
  have hnot := hW.toRep.apart hb (hW.not_listed hb ha)
  have hw : Within (LinkWord [b.addr]) h (clearLinks h b.addr) :=
    (hnode.within_setNext (by simp) h 0).trans (hnode.within_setPrev (by simp) _ 0)
  have hword : ∀ q ∈ LinkWord [b.addr], q = b.addr + 4 ∨ q = b.addr + 8 := by
    rintro q ⟨x, hx, hq⟩
    obtain rfl := List.mem_singleton.1 hx
    exact hq
  refine ⟨⟨⟨hW.blocks.link_frame (fun x hx => ?_) hw, hW.listed.frame hw ?_, hW.free⟩,
    hW.complete⟩, hw.mono fun q hq => ?_⟩
  · obtain rfl := List.mem_singleton.1 hx
    exact .inr ⟨b, hb, le_rfl, by omega⟩
  · rintro q hq - ⟨x, hx, hqx⟩
    have := hword q hq
    rcases hW.toRep.node_apart hb hx (fun he => hnot.1 (he ▸ hx)) with h | h
    · omega
    · omega
  · have := hword q hq
    exact hW.blocks.outside_header hb (by omega) (by omega)

/-! ### Cutting off the end -/

theorem Within.symm {W : Set ℕ} (hw : Within W h h') : Within W h' h :=
  ⟨hw.1.symm, fun q hq hW i hi hi' => (hw.2 q hq hW i hi hi').symm⟩

theorem Preserves.symm (hp : Preserves bs h h') : Preserves bs h' h :=
  fun b hb i hi hi' => (hp b hb i hi hi').symm

/-- The links of the list are outside a block that is not listed. -/
theorem Rep.link_outside_mark (hR : Rep L h (pre ++ c :: post) fs) (hnot : c.addr ∉ fs) :
    LinkWord (L.head :: fs) ⊆ Outside (pre ++ { c with alloc := true } :: post) := by
  rintro q hq d hd ha
  simp only [List.mem_append, List.mem_cons] at hd
  rcases hd with hd | rfl | hd
  · exact hR.link_outside hq d (by simp [hd]) ha
  · obtain ⟨x, hx, hqx⟩ := hq
    have hc := hR.blocks.mem (b := c) (by simp)
    have hne : x ≠ c.addr := fun he => (hR.apart (by simp) hnot).1 (he ▸ hx)
    rcases hR.node_apart (by simp) hx hne with h | h
    · exact .inl (by simp only; omega)
    · exact .inr (by simp only; omega)
  · exact hR.link_outside hq d (by simp [hd]) ha

/-- The tags of the two parts of a block in use are outside. -/
theorem Blocks.split_outside (hB : Blocks L h (pre ++ b :: post)) (h16 : 16 ≤ s)
    (hle : s + 16 ≤ b.size) :
    SplitWord b s ⊆ Outside (pre ++ { b.front s with alloc := true } :: b.rest s :: post) := by
  rintro q hq d hd ha
  have hother : d ∈ pre ++ post → q < d.addr + 12 ∨ d.addr + d.size - 4 ≤ q := by
    intro hmem
    have hdm := hB.mem (mem_middle b hmem)
    rcases hB.apart_of_ne (b := b) (by simp) (mem_middle b hmem) (hB.addr_ne hmem).symm with h | h
    · rcases hq with rfl | rfl | rfl | rfl <;> omega
    · rcases hq with rfl | rfl | rfl | rfl <;> omega
  simp only [List.mem_append, List.mem_cons] at hd
  rcases hd with hd | rfl | rfl | hd
  · exact hother (by simp [hd])
  · rcases hq with rfl | rfl | rfl | rfl <;> simp only [Blk.front] <;> omega
  · exact absurd ha (by simp [Blk.rest])
  · exact hother (by simp [hd])

/-- **`split_block` of a block in use**, as in the cases 1 and 3. -/
theorem WellFormed.shrink (hW : WellFormed L h (pre ++ b :: post) fs) (hb : b.alloc = true)
    (hs : 4 ∣ s) (h16 : 16 ≤ s) (hle : s + 16 ≤ b.size) :
    WellFormed L ((splitBlock L h b.addr s true).setAllocated b.addr)
        (pre ++ { b.front s with alloc := true } :: b.rest s :: post) ((b.addr + s) :: fs) ∧
      Preserves (pre ++ { b.front s with alloc := true } :: post) h
        ((splitBlock L h b.addr s true).setAllocated b.addr) ∧
      ((splitBlock L h b.addr s true).setAllocated b.addr).brk = h.brk := by
  have hW' : WellFormed L h (pre ++ [b] ++ post) fs := by simpa using hW
  have hbm := hW.blocks.mem (b := b) (by simp)
  have hnot := hW.not_listed (b := b) (by simp) hb
  -- the tags, the list, the mark
  obtain ⟨h₁, he, hB₁, hw₁⟩ := splitTags_ok hW'.blocks hs h16 hle true
  have hR₁ := hW'.toRep.splitTags hs h16 hle hw₁ hB₁
  have hnew : (b.rest s).addr ∉ fs :=
    hW.toRep.inside_not_listed (b := b) (by simp) (by simp only [Blk.rest]; omega)
      (by simp only [Blk.rest]; omega)
  obtain ⟨hnew', hap⟩ := hR₁.apart (b := b.rest s) (by simp) hnew
  have hnode := hR₁.blocks.node (b := b.rest s) (by simp)
  have hw₂ := hR₁.listed.within_insert List.mem_cons_self hnode hnew' hap
  obtain ⟨hR₂, -⟩ := hR₁.insert_front (b := b.rest s) (by simp) rfl hnew
  have hfront : (b.front s).addr ∉ (b.rest s).addr :: fs := by
    intro hm
    rcases List.mem_cons.1 hm with he | hm
    · have he' : b.addr = b.addr + s := he
      omega
    · exact hnot hm
  have hR₂' : Rep L (insertToList h₁ (b.addr + s) L.head)
      (pre ++ b.front s :: b.rest s :: post) ((b.addr + s) :: fs) := by
    rw [show pre ++ b.front s :: b.rest s :: post = pre ++ [b.front s, b.rest s] ++ post by simp]
    exact hR₂
  obtain ⟨hR₃, -⟩ := hR₂'.mark hfront true
  have hset := (hR₂'.blocks.set_eq (c := b.front s) (by simp)).1
  rw [if_pos rfl] at he
  rw [he]
  have hset' : (insertToList h₁ (b.addr + s) L.head).setAllocated b.addr =
      (insertToList h₁ (b.addr + s) L.head).write b.addr (s + true.toNat) := hset
  rw [hset']
  have hB₃ : Blocks L ((insertToList h₁ (b.addr + s) L.head).write b.addr (s + true.toNat))
      (pre ++ { b.front s with alloc := true } :: b.rest s :: post) := hR₃.blocks
  -- nothing is written into the payload areas
  have hsub₂ := hR₂'.link_outside_mark hfront
  have hk : Keeps (pre ++ { b.front s with alloc := true } :: b.rest s :: post) h
      ((insertToList h₁ (b.addr + s) L.head).write b.addr (s + true.toNat)) := by
    refine (hw₁.mono (hW.blocks.split_outside h16 hle)).trans
      ((hw₂.mono ?_).trans ((Within.write hbm.1).mono ?_))
    · rintro q ⟨x, hx, hq⟩
      refine hsub₂ ⟨x, ?_, hq⟩
      simp only [List.mem_cons] at hx ⊢
      exact or_left_comm.1 hx
    · rintro q rfl
      exact hB₃.outside_header (b := { b.front s with alloc := true }) (by simp) le_rfl
        (by simp only [Blk.front]; omega)
  refine ⟨⟨hR₃, fun d hd hdf => ?_⟩, ?_, hk.1⟩
  · simp only [List.mem_append, List.mem_cons] at hd
    rcases hd with hd | rfl | rfl | hd
    · exact List.mem_cons_of_mem _ (hW.complete d (by simp [hd]) hdf)
    · exact absurd hdf (by simp)
    · exact List.mem_cons_self
    · exact List.mem_cons_of_mem _ (hW.complete d (by simp [hd]) hdf)
  · refine (hB₃.preserves hk.symm).symm.mono fun d hd => ?_
    rw [List.append_cons] at hd ⊢
    exact allocated_cons _ hd

/-! ### Taking in the block behind -/

/-- The tags of case 3, with the free block `next` behind. -/
def absorbNext (h : Heap) (block next : ℕ) : Heap :=
  let h := h.write (h.footer block) 0
  let h := h.setSize block (add32 (h.size block) (h.blockSize next))
  let h := h.write (h.footer block) (h.blockSize block)
  let h := removeFromList h next
  clearBlock h next

/-- **Case 3** before the split. -/
theorem WellFormed.absorbNext_ok (hW : WellFormed L h (pre ++ b :: y :: post) fs)
    (hy : y.alloc = false) :
    WellFormed L (absorbNext h b.addr y.addr) (pre ++ b.absorb y :: post) (fs.erase y.addr) ∧
      Keeps (pre ++ b :: y :: post) h (absorbNext h b.addr y.addr) := by
  have hR : Rep L h (pre ++ (b :: [y]) ++ post) fs := by simpa using hW.toRep
  have hyf : y.addr ∈ fs := hW.complete y (by simp) hy
  have hflag : false = true ↔ y.addr ∉ fs := by simp [hyf]
  obtain ⟨hR', hk⟩ := absorb_rep hR hy hflag
  rw [show pre ++ [b.absorb y] ++ post = pre ++ b.absorb y :: post by simp] at hR'
  rw [show pre ++ (b :: [y]) ++ post = pre ++ b :: y :: post by simp] at hk
  have hB : Blocks L h ((pre ++ [b]) ++ y :: post) := by simpa using hW.blocks
  have hlisted : ∀ d ∈ (pre ++ [b]) ++ post, d.alloc = false → d.addr ∈ fs.erase y.addr := by
    intro d hd hdf
    have hd' : d ∈ pre ++ b :: y :: post := by simpa using mem_middle y hd
    exact (List.mem_erase_of_ne (hB.addr_ne hd)).2 (hW.complete d hd' hdf)
  refine ⟨⟨hR', fun d hd hdf => ?_⟩, hk⟩
  simp only [List.mem_append, List.mem_cons] at hd
  rcases hd with hd | rfl | hd
  · exact hlisted d (by simp [hd]) hdf
  · exact hlisted b (by simp) hdf
  · exact hlisted d (by simp [hd]) hdf

/-! ### What is achieved -/

/-- The row and the list, known up to the footers. -/
structure Shaped (L : Layout) (h : Heap) (bs : List Blk) (fs : List ℕ) : Prop where
  exact : Exact L h (bs.map Blk.addr) fs
  header : ∀ b ∈ bs, h.blockSize b.addr = b.size ∧ h.isAllocated b.addr = b.alloc

theorem WellFormed.shaped (hW : WellFormed L h bs fs) : Shaped L h bs fs :=
  ⟨hW.exact, fun _ hb => ⟨hW.blocks.blockSize_eq hb, hW.blocks.isAllocated_eq hb⟩⟩

/-- The block `b` between the blocks `others` has become the block `c` for `n`
bytes, in the row `bs`. -/
structure Resized (L : Layout) (h h' : Heap) (others : List Blk) (b : Blk) (n : ℕ)
    (bs : List Blk) (fs : List ℕ) (c : Blk) : Prop where
  shaped : Shaped L h' bs fs
  mem : c ∈ allocated bs
  room : n + 16 ≤ c.size
  keep : ∀ d ∈ allocated others, d ∈ allocated bs ∧ d.addr ≠ c.addr
  preserves : Preserves others h h'
  bytes : ∀ k < n, k + 16 < b.size → h'.mem (c.addr + 12 + k) = h.mem (b.addr + 12 + k)

/-! ### Moving the payload -/

/-- **`memcpy` into a block in use** keeps the invariant. -/
theorem WellFormed.copy (hW : WellFormed L h bs fs) (hc : c ∈ bs) (ha : c.alloc = true)
    (hn : n + 16 ≤ c.size) (src : ℕ) :
    WellFormed L { h with mem := h.mem.copy (c.addr + 12) src n } bs fs := by
  have hcm := hW.blocks.mem hc
  have hw : Within {q | c.addr + 12 ≤ q ∧ q < c.addr + c.size - 4} h
      { h with mem := h.mem.copy (c.addr + 12) src n } := by
    refine ⟨rfl, fun q hq hne i hi hi' => copy_of_not_mem ?_⟩
    have hne' : ¬(c.addr + 12 ≤ q ∧ q < c.addr + c.size - 4) := hne
    omega
  refine hW.payload hw fun q hq _ hout => ?_
  have hq' : c.addr + 12 ≤ q ∧ q < c.addr + c.size - 4 := hq
  have := hout c hc ha
  omega

/-- The other blocks are as they were. -/
theorem Blocks.copy_other (hB : Blocks L h bs) (hc : c ∈ bs) (hd : d ∈ bs) (hne : d.addr ≠ c.addr)
    (hn : n + 16 ≤ c.size) (src : ℕ) {i : ℕ} (hi : d.addr ≤ i) (hi' : i < d.addr + d.size) :
    h.mem.copy (c.addr + 12) src n i = h.mem i := by
  refine copy_of_not_mem ?_
  rcases hB.apart_of_ne hd hc hne with hap | hap
  · exact .inl (by omega)
  · exact .inr (by omega)

/-- The payload of another block is copied as far as both reach. -/
theorem Blocks.copy_payload (hB : Blocks L h bs) (hc : c ∈ bs) (hd : d ∈ bs)
    (hne : d.addr ≠ c.addr) (hn : n + 16 ≤ c.size) {k : ℕ} (hk : k < n) (hkd : k + 16 < d.size) :
    h.mem.copy (c.addr + 12) (d.addr + 12) n (c.addr + 12 + k) = h.mem (d.addr + 12 + k) := by
  refine copy_of_mem hk ?_
  rcases hB.apart_of_ne hd hc hne with hap | hap
  · exact .inl (by omega)
  · exact .inr (by omega)

theorem reallocMove_error {p : ℕ} {e : Fault} (he : mmMalloc L h n = .error e) :
    reallocMove L h p n = .error e := by
  rw [reallocMove, he, error_bind]

theorem reallocMove_ok {p q : ℕ} (he : mmMalloc L h n = .ok (h', some q)) :
    reallocMove L h p n =
      .ok (mmFree L { h' with mem := h'.mem.copy q p n } p, some q) := by
  rw [reallocMove, he, ok_bind]
  rfl

/-- **Case 4.** -/
theorem WellFormed.move (hW : WellFormed L h (pre ++ b :: post) fs) (hb : b.alloc = true)
    (hn : n + 19 < 2 ^ 32) :
    (NoFit (getBlockSize n) (pre ++ b :: post) ∧ ¬Room L h.brk (growth n) ∧ ∃ h₁ bs' fs',
        reallocMove L h (b.addr + 12) n = .error (h₁.shortage (growth n)) ∧
        Pass (pre ++ b :: post) fs fs bs' fs' ∧ WellFormed L h₁ bs' fs' ∧
        Keeps (pre ++ b :: post) h h₁) ∨
      ∃ h' bs' fs' c, reallocMove L h (b.addr + 12) n = .ok (h', some (c.addr + 12)) ∧
        WellFormed L h' bs' fs' ∧ Resized L h h' (pre ++ post) b n bs' fs' c := by
  obtain ⟨hsize, -⟩ := getBlockSize_bounds hn
  rcases mmMalloc_ok hW (n := n) (by omega) with
    ⟨hno, hr, h₁, bs', fs', he, hpass, hW₁, hk⟩ | ⟨h₁, pre₁, c, post₁, fs₁, he, hm, hp₁, hW₁⟩
  · exact .inl ⟨hno, hr, h₁, bs', fs', reallocMove_error he, hpass, hW₁, hk⟩
  · obtain ⟨hcf, hcs, -⟩ := hm.size_bounds
    have hcm := hW₁.blocks.mem (b := { c with alloc := true }) (by simp)
    simp only at hcm
    have hroom : n + 16 ≤ ({ c with alloc := true } : Blk).size := by
      simp only
      omega
    -- the old block is one of the others
    have hsame : ∀ d ∈ allocated (pre ++ b :: post), d ∈ allocated (pre₁ ++ post₁) := by
      intro d hd
      rw [← hm.allocated_eq] at hd
      simpa [allocated, hcf] using hd
    have hbmem := hsame b (List.mem_filter.2 ⟨by simp, hb⟩)
    have hne : ∀ d ∈ allocated (pre₁ ++ post₁), d.addr ≠ c.addr := fun d hd =>
      hW₁.blocks.addr_ne (c := { c with alloc := true }) (List.mem_filter.1 hd).1
    have hbrow : b ∈ pre₁ ++ { c with alloc := true } :: post₁ :=
      (List.mem_filter.1 (allocated_cons _ hbmem)).1
    -- the payload is copied
    have hok := reallocMove_ok (p := b.addr + 12) he
    have hW₂ := hW₁.copy (c := { c with alloc := true }) (n := n) (by simp) rfl
      hroom (b.addr + 12)
    obtain ⟨h₂, hh₂⟩ : ∃ h₂ : Heap,
        h₂ = { h₁ with mem := h₁.mem.copy (c.addr + 12) (b.addr + 12) n } := ⟨_, rfl⟩
    simp only at hW₂
    rw [← hh₂] at hok hW₂
    have hcopy : ∀ d ∈ allocated (pre₁ ++ post₁), ∀ i, d.addr ≤ i → i < d.addr + d.size →
        h₂.mem i = h₁.mem i := by
      intro d hd i hi hi'
      have hd' := (List.mem_filter.1 (allocated_cons { c with alloc := true } hd)).1
      rw [hh₂]
      exact hW₁.blocks.copy_other (c := { c with alloc := true }) (by simp) hd' (hne d hd) hroom _
        hi hi'
    -- the old block is freed
    obtain ⟨pre₂, post₂, hrow⟩ := List.append_of_mem hbrow
    rw [hrow] at hW₂
    obtain ⟨bs', fs', ⟨fs₃, r, hc, -⟩, hW₃, hp₃, -⟩ := mmFree_ok hW₂ hb
    generalize mmFree L h₂ (b.addr + 12) = h₃ at hok hW₃ hp₃
    have halloc : allocated bs' = allocated (pre₂ ++ post₂) := by
      rw [hc.allocated_eq rfl]
      simp [allocated]
    have hkeep : ∀ d ∈ pre₁ ++ { c with alloc := true } :: post₁, d.alloc = true →
        d.addr ≠ b.addr → d ∈ allocated (pre₂ ++ post₂) :=
      fun d hd => allocated_of_ne (hrow ▸ hd)
    have hcb : c.addr ≠ b.addr := (hne b hbmem).symm
    have hcmem : { c with alloc := true } ∈ allocated (pre₂ ++ post₂) :=
      hkeep _ (by simp) rfl hcb
    have hbnot : ∀ d ∈ allocated (pre ++ post), d.addr ≠ b.addr := fun d hd =>
      hW.blocks.addr_ne (List.mem_filter.1 hd).1
    have hothers : ∀ d ∈ allocated (pre ++ post),
        d ∈ allocated (pre₁ ++ post₁) ∧ d ∈ allocated (pre₂ ++ post₂) := by
      intro d hd
      have hd₁ := hsame d (allocated_cons b hd)
      have hd₁' := List.mem_filter.1 (allocated_cons { c with alloc := true } hd₁)
      exact ⟨hd₁, hkeep d hd₁'.1 hd₁'.2 (hbnot d hd)⟩
    refine .inr ⟨h₃, bs', fs', { c with alloc := true }, hok, hW₃, hW₃.shaped, halloc ▸ hcmem,
      hroom, fun d hd => ?_, fun d hd i hi hi' => ?_, fun k hk hkb => ?_⟩
    · exact ⟨halloc ▸ (hothers d hd).2, hne d (hothers d hd).1⟩
    · obtain ⟨hd₁, hd₂⟩ := hothers d hd
      calc h₃.mem i = h₂.mem i := hp₃ d hd₂ i hi hi'
        _ = h₁.mem i := hcopy d hd₁ i (by omega) (by omega)
        _ = h.mem i := hp₁ d (allocated_cons b hd) i hi hi'
    · have hbm := hW.blocks.mem (b := b) (by simp)
      have hsrc := hW₁.blocks.copy_payload (c := { c with alloc := true }) (by simp) hbrow hcb.symm
        hroom hk hkb
      calc h₃.mem (c.addr + 12 + k) = h₂.mem (c.addr + 12 + k) :=
            hp₃ _ hcmem _ (by simp only; omega) (by simp only; omega)
        _ = h₁.mem (b.addr + 12 + k) := by rw [hh₂]; exact hsrc
        _ = h.mem (b.addr + 12 + k) :=
            hp₁ b (List.mem_filter.2 ⟨by simp, hb⟩) _ (by omega) (by omega)

/-! ### Adding memory behind the last block -/

theorem Heap.write_comm (h : Heap) {p q : ℕ} (hpq : p + 4 ≤ q ∨ q + 4 ≤ p) (v v' : ℕ) :
    (h.write p v).write q v' = (h.write q v').write p v := by
  unfold Heap.write
  rw [store_comm hpq]

/-- Writing a size and marking the block. -/
theorem setAllocated_setSize (h : Heap) {a : ℕ} (hs : 4 ∣ s) (hlt : s < 2 ^ 32) :
    (h.setSize a s).setAllocated a = h.write a (s + 1) := by
  have hread : (h.write a s).read a = s := Heap.read_write_self hlt
  show (h.write a s).write a (alignDown 2 ((h.write a s).read a) + 1) = _
  rw [hread, Heap.write_write, alignDown]
  congr 1
  omega

/-- A block in use that was the last one is the last one after the loop of `expand_heap`. -/
theorem Pass.last {h₁ : Heap} {bs₁ : List Blk} {fs₁ : List ℕ}
    (hp : Pass (pre ++ [b]) fs fs bs₁ fs₁) (hW : WellFormed L h (pre ++ [b]) fs)
    (hW₁ : WellFormed L h₁ bs₁ fs₁) (hbrk : h₁.brk = h.brk) (hb : b.alloc = true) :
    ∃ u, bs₁ = u ++ [b] := by
  have hmem : b ∈ allocated bs₁ := by
    rw [hp.allocated_eq]
    exact List.mem_filter.2 ⟨by simp, hb⟩
  obtain ⟨u, v, rfl⟩ := List.append_of_mem (List.mem_filter.1 hmem).1
  have hend : b.addr + b.size = h.brk - 4 := (tiles_split.1 hW.blocks.row).2
  cases v with
  | nil => exact ⟨u, rfl⟩
  | cons x v =>
    have hx := (hW₁.blocks.sized x (by simp)).2
    have hrow := (tiles_split.1 hW₁.blocks.row).2.mem (b := x) (by simp)
    omega

/-- **Case 2** when there is memory: the block and the new one behind it become
one, except for the footer. -/
theorem WellFormed.takeNew {e : ℕ} (hW : WellFormed L h (pre ++ [b] ++ [newBlock (b.addr + b.size + 4) e])
      ((b.addr + b.size) :: fs)) (hb : b.alloc = true)
    (hh' : h' = (removeFromList h (b.addr + b.size)).write b.addr (b.size + e + 1)) :
    Shaped L h' (pre ++ [merged b (b.addr + b.size + e)]) fs ∧ Preserves (pre ++ [b]) h h' := by
  have hbm := hW.blocks.mem (b := b) (by simp)
  obtain ⟨hR, hk⟩ := hW.toRep.remove (u := [])
  rw [List.nil_append] at hR
  generalize removeFromList h (b.addr + b.size) = h₃ at hR hk hh'
  have hrow : pre ++ [b] ++ [newBlock (b.addr + b.size + 4) e] =
      pre ++ (b :: [newBlock (b.addr + b.size + 4) e]) ++ [] := by simp
  have hR' : Rep L h₃ (pre ++ (b :: [newBlock (b.addr + b.size + 4) e]) ++ []) fs := hrow ▸ hR
  have hys : Row (b.addr + b.size) [newBlock (b.addr + b.size + 4) e] (b.addr + b.size + e) :=
    ⟨rfl, rfl⟩
  have hnm := hW.blocks.mem (b := newBlock (b.addr + b.size + 4) e) (by simp)
  simp only [newBlock] at hnm
  -- as if the tags of a merge had been written
  have hM := hR'.merge (by simp) hys
  rw [List.append_nil] at hM
  have hnew : b.addr + b.size ∉ fs := (List.nodup_cons.1 hW.nodup_list).1
  have hfree : ∀ a ∈ fs, ∃ d ∈ pre, d.addr = a ∧ d.alloc = false := by
    intro a ha
    obtain ⟨d, hd, hda, hdf⟩ := hW.free a (List.mem_cons_of_mem _ ha)
    simp only [List.mem_append, List.mem_singleton] at hd
    rcases hd with (hd | rfl) | rfl
    · exact ⟨d, hd, hda, hdf⟩
    · exact absurd hb (by simp [hdf])
    · have hda' : b.addr + b.size = a := hda
      exact absurd ha (hda' ▸ hnew)
  have hWm : WellFormed L (mergeTags h₃ b (b.addr + b.size + e))
      (pre ++ [merged b (b.addr + b.size + e)]) fs := by
    refine ⟨⟨hM.blocks, hM.listed, fun a ha => ?_⟩, fun d hd hdf => ?_⟩
    · obtain ⟨d, hd, hda⟩ := hfree a ha
      exact ⟨d, by simp [hd], hda⟩
    · simp only [List.mem_append, List.mem_singleton] at hd
      rcases hd with hd | rfl
      · have hmem := hW.complete d (by simp [hd]) hdf
        refine (List.mem_cons.1 hmem).resolve_left fun hda => ?_
        have hne := hW.blocks.addr_ne (b := d) (by simp [hd])
        exact hne hda
      · exact absurd hb (by simp [merged] at hdf; simp [hdf])
  have htags : mergeTags h₃ b (b.addr + b.size + e) =
      (h'.write (b.addr + b.size - 4) 0).write (b.addr + b.size + e - 4) (b.size + e) := by
    have hsize : b.addr + b.size + e - b.addr = b.size + e := by omega
    rw [mergeTags, hsize, hb, Heap.write_comm h₃ (by omega), hh']
    rfl
  have hread : ∀ q, 4 ∣ q → q ≠ b.addr + b.size - 4 → q ≠ b.addr + b.size + e - 4 →
      h'.read q = (mergeTags h₃ b (b.addr + b.size + e)).read q := by
    intro q hq h1 h2
    rw [htags, Heap.read_write_of_ne (by omega) hq h2, Heap.read_write_of_ne (by omega) hq h1]
  have hhead : ∀ d ∈ pre ++ [merged b (b.addr + b.size + e)],
      h'.read d.addr = (mergeTags h₃ b (b.addr + b.size + e)).read d.addr := by
    intro d hd
    have hdm := hWm.blocks.mem hd
    rcases hWm.blocks.row.apart hd (c := merged b (b.addr + b.size + e)) (by simp) with rfl | h | h
    · exact hread _ hdm.1 (by simp only [merged]; omega) (by simp only [merged]; omega)
    · simp only [merged] at h
      exact hread _ hdm.1 (by omega) (by omega)
    · simp only [merged] at h
      exact hread _ hdm.1 (by omega) (by omega)
  have hbrk : h'.brk = (mergeTags h₃ b (b.addr + b.size + e)).brk := by
    rw [hh']
    rfl
  have hend : b.addr + (b.addr + b.size + e - b.addr) =
      (mergeTags h₃ b (b.addr + b.size + e)).brk - 4 := (tiles_split.1 hWm.blocks.row).2
  rw [← hbrk] at hend
  refine ⟨⟨hWm.exact.congr hbrk (fun a ha => ?_) fun a ha => ?_, fun d hd => ?_⟩, ?_⟩
  · rcases ha with ha | rfl
    · obtain ⟨d, hd, rfl⟩ := List.mem_map.1 ha
      exact hhead d hd
    · rw [← hbrk]
      exact hread _ (by omega) (by omega) (by omega)
  · have hnode := hWm.listed.node a ha
    have ha4 := hnode.1
    have hne : a ≠ b.addr := by
      rintro rfl
      exact (hWm.toRep.apart (b := merged b (b.addr + b.size + e)) (by simp)
        (hWm.not_listed (b := merged b (b.addr + b.size + e)) (by simp) hb)).1 ha
    have hap := hWm.toRep.node_apart (b := merged b (b.addr + b.size + e)) (by simp) ha hne
    simp only [merged] at hap
    rw [hnode.next_eq, hnode.next_eq, hnode.prev_eq, hnode.prev_eq]
    exact ⟨hread _ (by omega) (by omega) (by omega), hread _ (by omega) (by omega) (by omega)⟩
  · have hh := hhead d hd
    have hs := hWm.shaped.header d hd
    exact ⟨(congrArg (alignDown 2) hh).trans hs.1,
      (congrArg (fun v => decide (v % 2 = 1)) hh).trans hs.2⟩
  · have hw : Within {b.addr} h₃ h' := hh' ▸ Within.write hbm.1
    refine ((hW.blocks.preserves hk).trans (hR.blocks.preserves (hw.mono ?_))).mono fun d hd => ?_
    · rintro q rfl
      exact hR.blocks.outside_header (b := b) (by simp) le_rfl (by omega)
    · obtain ⟨hd, ha⟩ := List.mem_filter.1 hd
      exact List.mem_filter.2 ⟨List.mem_append_left _ hd, ha⟩

/-- **Case 2.** -/
theorem WellFormed.grow {e : ℕ} (hW : WellFormed L h (pre ++ [b]) fs) (hb : b.alloc = true)
    (he4 : 4 ∣ e) (he : 16 < e) (hn : n + 16 ≤ b.size + e) :
    ∃ h₁ bs₁ fs₁, Pass (pre ++ [b]) fs fs bs₁ fs₁ ∧ WellFormed L h₁ bs₁ fs₁ ∧
      Keeps (pre ++ [b]) h h₁ ∧
      (¬Room L h.brk e ∧ expandHeap L h e = .error (h₁.shortage e) ∨
        Room L h.brk e ∧ ∃ h₂, expandHeap L h e = .ok h₂ ∧ ∃ bs' c,
          c.addr = b.addr ∧ c.size = b.size + e ∧
          Resized L h (((removeFromList h₂ (h₂.next L.head)).setSize b.addr
            (b.size + e)).setAllocated b.addr) pre b n bs' fs₁ c) := by
  have hbm := hW.blocks.mem (b := b) (by simp)
  have hend : b.addr + b.size = h.brk - 4 := (tiles_split.1 hW.blocks.row).2
  obtain ⟨h₁, bs₁, fs₁, hpass, hW₁, hk₁, hexp⟩ := expandHeap_ok hW he4 he
  refine ⟨h₁, bs₁, fs₁, hpass, hW₁, hk₁, ?_⟩
  rcases hexp with hexit | ⟨hr, h₂, he₂, hbrk₂, hp₂, hW₂⟩
  · exact .inl hexit
  · obtain ⟨u, rfl⟩ := hpass.last hW hW₁ hk₁.1 hb
    rw [← hend, show h.brk = b.addr + b.size + 4 by omega] at hW₂
    have hnext : h₂.next L.head = b.addr + b.size := hW₂.listed.ring.1
    have hnm := hW₂.blocks.mem (b := newBlock (b.addr + b.size + 4) e) (by simp)
    simp only [newBlock] at hnm
    obtain ⟨hS, hp⟩ := hW₂.takeNew hb rfl
    refine .inr ⟨hr, h₂, he₂, ?_⟩
    rw [hnext, setAllocated_setSize _ (by omega) (by omega)]
    generalize (removeFromList h₂ (b.addr + b.size)).write b.addr (b.size + e + 1) = h₃ at hS hp
    have hsame := hpass.allocated_eq
    have hmemb : b ∈ allocated (pre ++ [b]) := List.mem_filter.2 ⟨by simp, hb⟩
    have hsub : ∀ d ∈ allocated pre, d ∈ allocated (pre ++ [b]) := fun d hd =>
      List.mem_filter.2 ⟨List.mem_append_left _ (List.mem_filter.1 hd).1, (List.mem_filter.1 hd).2⟩
    have hsize : b.addr + b.size + e - b.addr = b.size + e := by omega
    refine ⟨_, merged b (b.addr + b.size + e), rfl, hsize, hS,
      List.mem_filter.2 ⟨by simp, hb⟩, ?_, fun d hd => ⟨?_, ?_⟩, fun d hd i hi hi' => ?_,
      fun k _ hk => ?_⟩
    · show n + 16 ≤ b.addr + b.size + e - b.addr
      omega
    · have hd' := hsub d hd
      rw [← hsame] at hd'
      obtain ⟨hd₁, hda⟩ := List.mem_filter.1 hd'
      have hne := hW.blocks.addr_ne (b := d)
        (List.mem_append_left _ (List.mem_filter.1 hd).1)
      refine List.mem_filter.2 ⟨?_, hda⟩
      simp only [List.mem_append, List.mem_singleton] at hd₁ ⊢
      exact hd₁.imp_right fun he => absurd (congrArg _ he) hne
    · exact hW.blocks.addr_ne (b := d)
        (List.mem_append_left _ (List.mem_filter.1 hd).1)
    · exact (hp d (hsame ▸ hsub d hd) i hi hi').trans (hp₂ d (hsub d hd) i hi hi')
    · show h₃.mem (b.addr + 12 + k) = h.mem (b.addr + 12 + k)
      exact (hp b (hsame ▸ hmemb) _ (by omega) (by omega)).trans
        (hp₂ b hmemb _ (by omega) (by omega))

/-! ### The cases together -/

/-- The block is the last one if the epilogue is behind it. -/
theorem Blocks.last_iff (hB : Blocks L h (pre ++ b :: post)) :
    post = [] ↔ b.addr + b.size = h.brk - 4 := by
  have hrow := (tiles_split.1 hB.row).2
  cases post with
  | nil => exact iff_of_true rfl hrow
  | cons x post =>
    have hx := (hB.sized x (by simp)).2
    have hxm := hrow.mem (b := x) (by simp)
    refine iff_of_false (by simp) ?_
    omega

/-- `mm_realloc` of a block in use, as one expression. -/
theorem reallocBlock_eq {p a : ℕ} (ha : h.isAllocated a = true) :
    reallocBlock L h p n a =
      if add32 (getBlockSize n) SIZE_OF_BLOCK < (clearLinks h a).blockSize a then
        .ok ((splitBlock L (clearLinks h a) a (getBlockSize n) true).setAllocated a, some p)
      else if add32 a ((clearLinks h a).blockSize a) = sub32 (clearLinks h a).brk 4 ∧
          SIZE_OF_BLOCK < sub32 (getBlockSize n) ((clearLinks h a).blockSize a) then
        expandHeap L (clearLinks h a) (sub32 (getBlockSize n) ((clearLinks h a).blockSize a)) >>=
          fun h => .ok (((removeFromList h (h.next L.head)).setSize a
            (getBlockSize n)).setAllocated a, some p)
      else reallocMerge L (clearLinks h a) p n a (add32 a ((clearLinks h a).blockSize a)) := by
  have hnot : ¬h.isAllocated a = false := by simp [ha]
  rw [reallocBlock, if_neg hnot]
  unfold clearLinks
  dsimp only
  generalize (h.setNext a 0).setPrev a 0 = h₀
  split_ifs
  · rfl
  · rfl
  · rfl

/-- Case 3 and on, as one expression. -/
theorem reallocMerge_eq {p a next : ℕ} :
    reallocMerge L h p n a next =
      if next ≠ L.head ∧ h.isAllocated next = false ∧ h.size next ≠ 0 then
        if add32 (getBlockSize n) SIZE_OF_BLOCK < (absorbNext h a next).blockSize a then
          .ok ((splitBlock L (absorbNext h a next) a (getBlockSize n) true).setAllocated a, some p)
        else reallocMove L (absorbNext h a next) p n
      else reallocMove L h p n := rfl

/-- Why `mm_realloc` ends without memory for the last argument of `expand_heap`, here before the
row and the list that it leaves then. -/
inductive Refused (L : Layout) (brk n : ℕ) :
    List Blk → Blk → List Blk → List ℕ → ℕ → List Blk → List ℕ → Prop
  | wrap {pre : List Blk} {b : Blk} {fs : List ℕ} {bs' : List Blk} {fs' : List ℕ} :
    getBlockSize n < b.size → b.size ≤ getBlockSize n + 16 → Pass (pre ++ [b]) fs fs bs' fs' →
      Refused L brk n pre b [] fs (getBlockSize n + 2 ^ 32 - b.size) bs' fs'
  | last {pre : List Blk} {b : Blk} {fs : List ℕ} {bs' : List Blk} {fs' : List ℕ} :
    b.size + 16 < getBlockSize n → ¬Room L brk (getBlockSize n - b.size) →
      Pass (pre ++ [b]) fs fs bs' fs' →
      Refused L brk n pre b [] fs (getBlockSize n - b.size) bs' fs'
  | move {pre : List Blk} {b : Blk} {post : List Blk} {fs : List ℕ} {bs' : List Blk}
    {fs' : List ℕ} :
    b.size ≤ getBlockSize n + 16 → NoNext post →
      (post = [] → b.size ≤ getBlockSize n ∧ getBlockSize n ≤ b.size + 16) →
      NoFit (getBlockSize n) (pre ++ b :: post) → ¬Room L brk (growth n) →
      Pass (pre ++ b :: post) fs fs bs' fs' → Refused L brk n pre b post fs (growth n) bs' fs'
  | absorb {pre : List Blk} {b y : Blk} {post : List Blk} {fs : List ℕ} {bs' : List Blk}
    {fs' : List ℕ} :
    y.alloc = false → b.size + y.size ≤ getBlockSize n + 16 →
      NoFit (getBlockSize n) (pre ++ b.absorb y :: post) → ¬Room L brk (growth n) →
      Pass (pre ++ b.absorb y :: post) (fs.erase y.addr) (fs.erase y.addr) bs' fs' →
      Refused L brk n pre b (y :: post) fs (growth n) bs' fs'

/-- How `mm_realloc` of the block `b` ends: there is no memory, or the block is resized.
Only case 2 breaks the invariant. -/
def Reallocs (L : Layout) (h : Heap) (pre : List Blk) (b : Blk) (post : List Blk) (fs : List ℕ)
    (n : ℕ) (r : Except Fault (Heap × Option ℕ)) : Prop :=
  (∃ h₁ e bs' fs', r = .error (h₁.shortage e) ∧ Refused L h.brk n pre b post fs e bs' fs' ∧
      WellFormed L h₁ bs' fs' ∧ h₁.brk = h.brk ∧ Preserves (pre ++ b :: post) h h₁) ∨
    ∃ h' bs' fs' c, r = .ok (h', some (c.addr + 12)) ∧
      Resized L h h' (pre ++ post) b n bs' fs' c ∧
      (¬(post = [] ∧ b.size + 16 < getBlockSize n) → WellFormed L h' bs' fs')

/-- Changes that keep the payload areas do not matter. -/
theorem Resized.of_preserves {h₀ : Heap} {bs' : List Blk} {fs' : List ℕ}
    (hr : Resized L h₀ h' (pre ++ post) b n bs' fs' c) (hp : Preserves (pre ++ b :: post) h h₀)
    (hb : b.alloc = true) : Resized L h h' (pre ++ post) b n bs' fs' c := by
  refine ⟨hr.shaped, hr.mem, hr.room, hr.keep, (hp.mono fun d hd => allocated_cons b hd).trans
    hr.preserves, fun k hk hkb => (hr.bytes k hk hkb).trans ?_⟩
  exact hp b (List.mem_filter.2 ⟨by simp, hb⟩) _ (by omega) (by omega)

theorem WellFormed.reallocMove_ok (hW : WellFormed L h (pre ++ b :: post) fs) (hb : b.alloc = true)
    (hn : n + 19 < 2 ^ 32) (hle : b.size ≤ getBlockSize n + 16) (hno : NoNext post)
    (hlast : post = [] → b.size ≤ getBlockSize n ∧ getBlockSize n ≤ b.size + 16) :
    Reallocs L h pre b post fs n (reallocMove L h (b.addr + 12) n) := by
  rcases hW.move hb hn with ⟨hf, hr, h₁, bs', fs', he, hpass, hW₁, hk⟩ | ⟨h', bs', fs', c, he, hW', hR⟩
  · exact .inl ⟨h₁, _, bs', fs', he, .move hle hno hlast hf hr hpass, hW₁, hk.1,
      hW.blocks.preserves hk⟩
  · exact .inr ⟨h', bs', fs', c, he, hR, fun _ => hW'⟩

/-- The part of the block that is cut off was not asked for. -/
theorem WellFormed.split_ok (hW : WellFormed L h (pre ++ b :: post) fs) (hb : b.alloc = true)
    (hn : n + 19 < 2 ^ 32) (hlt : getBlockSize n + 16 < b.size) :
    ∃ h' bs' fs', h' = (splitBlock L h b.addr (getBlockSize n) true).setAllocated b.addr ∧
      WellFormed L h' bs' fs' ∧
      Resized L h h' (pre ++ post) b n bs' fs' { b.front (getBlockSize n) with alloc := true } := by
  obtain ⟨hsize, -⟩ := getBlockSize_bounds hn
  obtain ⟨hW', hp, -⟩ := hW.shrink hb (dvd_getBlockSize n) (by omega) hlt.le
  refine ⟨_, _, _, rfl, hW', hW'.shaped, List.mem_filter.2 ⟨by simp, rfl⟩, hsize, fun d hd => ⟨?_, ?_⟩,
    hp.mono fun d hd => allocated_cons _ hd, fun k hk hkb => ?_⟩
  · exact allocated_cons _ (allocated_cons _ hd)
  · exact hW.blocks.addr_ne (List.mem_filter.1 hd).1
  · refine hp { b.front (getBlockSize n) with alloc := true } (List.mem_filter.2 ⟨by simp, rfl⟩) _ ?_ ?_
    · exact Nat.le_add_right _ _
    · show b.addr + 12 + k < b.addr + getBlockSize n - 4
      omega

/-- The payload area of a block is a part of that of the block that has absorbed another. -/
theorem Preserves.of_absorb (hp : Preserves (pre ++ b.absorb y :: post) h h')
    (hy : y.alloc = false) : Preserves (pre ++ b :: y :: post) h h' := by
  intro d hd i hi hi'
  obtain ⟨hd, hda⟩ := List.mem_filter.1 hd
  simp only [List.mem_append, List.mem_cons] at hd
  rcases hd with hd | rfl | rfl | hd
  · exact hp d (List.mem_filter.2 ⟨by simp [hd], hda⟩) i hi hi'
  · refine hp (d.absorb y) (List.mem_filter.2 ⟨by simp, hda⟩) i hi ?_
    show i < d.addr + (d.size + y.size) - 4
    omega
  · exact absurd hda (by simp [hy])
  · exact hp d (List.mem_filter.2 ⟨by simp [hd], hda⟩) i hi hi'

/-- What is achieved with the absorbed block is achieved with the block. -/
theorem Resized.of_absorb {h₀ : Heap} {bs' : List Blk} {fs' : List ℕ}
    (hr : Resized L h₀ h' (pre ++ post) (b.absorb y) n bs' fs' c)
    (hp : Preserves (pre ++ b :: y :: post) h h₀) (hb : b.alloc = true) (hy : y.alloc = false) :
    Resized L h h' (pre ++ y :: post) b n bs' fs' c := by
  have hsame : ∀ d ∈ allocated (pre ++ y :: post), d ∈ allocated (pre ++ post) := by
    intro d hd
    obtain ⟨hd, hda⟩ := List.mem_filter.1 hd
    refine List.mem_filter.2 ⟨mem_of_mem_middle hd ?_, hda⟩
    rintro rfl
    exact absurd hda (by simp [hy])
  refine ⟨hr.shaped, hr.mem, hr.room, fun d hd => hr.keep d (hsame d hd),
    (hp.mono fun d hd => allocated_cons b hd).trans (hr.preserves.mono hsame), fun k hk hkb => ?_⟩
  have hkb' : k + 16 < (b.absorb y).size := Nat.lt_add_right _ hkb
  have hbytes : h'.mem (c.addr + 12 + k) = h₀.mem (b.addr + 12 + k) := hr.bytes k hk hkb'
  exact hbytes.trans (hp b (List.mem_filter.2 ⟨by simp, hb⟩) _ (by omega) (by omega))

/-- **The cases 3 and 4.** -/
theorem WellFormed.reallocMerge_ok (hW : WellFormed L h (pre ++ b :: post) fs) (hb : b.alloc = true)
    (hn : n + 35 < 2 ^ 32) (hle : b.size ≤ getBlockSize n + 16)
    (hlast : post = [] → b.size ≤ getBlockSize n ∧ getBlockSize n ≤ b.size + 16) :
    Reallocs L h pre b post fs n
      (reallocMerge L h (b.addr + 12) n b.addr (add32 b.addr (h.blockSize b.addr))) := by
  obtain ⟨hsize, hsize'⟩ := getBlockSize_bounds (n := n) (by omega)
  have hadd := add32_getBlockSize hn
  rw [reallocMerge_eq, hadd]
  by_cases hnext : ∃ y post', post = y :: post' ∧ y.alloc = false
  · rw [if_pos ((nextFree_iff hW.blocks).2 hnext)]
    obtain ⟨y, post, rfl, hy⟩ := hnext
    rw [nextBlock_eq hW.blocks]
    obtain ⟨hW', hk⟩ := hW.absorbNext_ok hy
    have hp := hW.blocks.preserves hk
    have hbrk := hk.1
    generalize absorbNext h b.addr y.addr = h₀ at hW' hp hbrk
    have hbig : h₀.blockSize b.addr = b.size + y.size :=
      hW'.blocks.blockSize_eq (b := b.absorb y) (by simp)
    rw [hbig]
    by_cases hlt : getBlockSize n + 16 < b.size + y.size
    · rw [if_pos hlt]
      obtain ⟨h', bs', fs', rfl, hW'', hR⟩ := hW'.split_ok hb (by omega) hlt
      exact .inr ⟨_, bs', fs', { (b.absorb y).front (getBlockSize n) with alloc := true }, rfl,
        hR.of_absorb hp hb hy, fun _ => hW''⟩
    · rw [if_neg hlt]
      rcases hW'.move hb (n := n) (by omega) with
        ⟨hf, hr, h₁, bs', fs', he, hpass, hW₁, hk₁⟩ | ⟨h', bs', fs', c, he, hW'', hR⟩
      · refine .inl ⟨h₁, _, bs', fs', he, .absorb hy (not_lt.1 hlt) hf (hbrk ▸ hr) hpass, hW₁,
          hk₁.1.trans hbrk, ?_⟩
        exact hp.trans ((hW'.blocks.preserves hk₁).of_absorb hy)
      · exact .inr ⟨h', bs', fs', c, he, hR.of_absorb hp hb hy, fun _ => hW''⟩
  · rw [if_neg fun hf => hnext ((nextFree_iff hW.blocks).1 hf)]
    exact hW.reallocMove_ok hb (by omega) hle (noNext_iff.2 hnext) hlast

/-- **`mm_realloc` of a block in use**, if the size does not wrap in the test of case 1. -/
theorem WellFormed.mmRealloc_ok (hW : WellFormed L h (pre ++ b :: post) fs) (hb : b.alloc = true)
    (hn0 : n ≠ 0) (hn : n + 35 < 2 ^ 32) :
    Reallocs L h pre b post fs n (mmRealloc L h (b.addr + 12) n) := by
  obtain ⟨hsize, hsize'⟩ := getBlockSize_bounds (n := n) (by omega)
  have h4 := dvd_getBlockSize n
  have hadd := add32_getBlockSize hn
  have hbm := hW.blocks.mem (b := b) (by simp)
  have hsub := hW.blocks.sub32_payload (b := b) (by simp)
  have halloc : h.isAllocated b.addr = true :=
    (hW.blocks.isAllocated_eq (by simp)).trans hb
  rw [mmRealloc, if_neg (Nat.succ_ne_zero _), if_neg hn0, hsub, reallocBlock_eq halloc]
  obtain ⟨hW₀, hk₀⟩ := hW.clearLinks_ok (b := b) (by simp) hb
  have hp₀ := hW.blocks.preserves hk₀
  have hbrk₀ := hk₀.1
  generalize clearLinks h b.addr = h₀ at hW₀ hp₀ hbrk₀
  -- the links of the block are no payload
  suffices hsuff : Reallocs L h₀ pre b post fs n _ by
    rcases hsuff with ⟨h₁, e, bs', fs', he, hr, hW₁, hbrk, hp⟩ | ⟨h', bs', fs', c, he, hR, hW'⟩
    · exact .inl ⟨h₁, e, bs', fs', he, hbrk₀ ▸ hr, hW₁, hbrk.trans hbrk₀, hp₀.trans hp⟩
    · exact .inr ⟨h', bs', fs', c, he, hR.of_preserves hp₀ hb, hW'⟩
  have hbs : h₀.blockSize b.addr = b.size := hW₀.blocks.blockSize_eq (by simp)
  by_cases hcut : getBlockSize n + 16 < b.size
  · rw [hadd, hbs, if_pos hcut]
    obtain ⟨h', bs', fs', rfl, hW', hR⟩ := hW₀.split_ok hb (by omega) hcut
    exact .inr ⟨_, bs', fs', { b.front (getBlockSize n) with alloc := true }, rfl, hR, fun _ => hW'⟩
  · rw [hadd, hbs, if_neg hcut]
    have hle := not_lt.1 hcut
    have hb₀ := hW₀.blocks.brk
    have hlt := L.heap_lt
    have hepi : sub32 h₀.brk 4 = h₀.brk - 4 := sub32_of_le (by omega) (by omega)
    have hnext : add32 b.addr b.size = b.addr + b.size := add32_of_lt hbm.2.2.2.2.2
    have hend := hW₀.blocks.last_iff
    have hfour : 4 ∣ b.size := hbm.2.1
    rw [hepi, hnext]
    by_cases hin : b.addr + b.size = h₀.brk - 4 ∧ SIZE_OF_BLOCK < sub32 (getBlockSize n) b.size
    · rw [if_pos hin]
      obtain ⟨hpost, hextra⟩ := hin
      obtain rfl := hend.2 hpost
      rcases Nat.lt_or_ge (getBlockSize n) b.size with hwrap | hge
      · have hsub' : sub32 (getBlockSize n) b.size = getBlockSize n + 2 ^ 32 - b.size :=
          sub32_of_lt hwrap (by omega)
        rw [hsub']
        have he4 : 4 ∣ getBlockSize n + 2 ^ 32 - b.size := by omega
        have he16 : 16 < getBlockSize n + 2 ^ 32 - b.size := by omega
        obtain ⟨h₁, bs', fs', hpass, hW₁, hk, hexp⟩ := expandHeap_ok hW₀ he4 he16
        rcases hexp with ⟨-, he⟩ | ⟨⟨h31, -⟩, -⟩
        · refine .inl ⟨h₁, _, bs', fs', ?_, .wrap hwrap hle hpass, hW₁, hk.1,
            hW₀.blocks.preserves hk⟩
          rw [he, error_bind]
        · omega
      · have hsub' : sub32 (getBlockSize n) b.size = getBlockSize n - b.size :=
          sub32_of_le hge (by omega)
        have hextra' : 16 < getBlockSize n - b.size := hsub' ▸ hextra
        rw [hsub']
        obtain ⟨h₁, bs', fs', hpass, hW₁, hk, hgrow⟩ :=
          hW₀.grow hb (n := n) (e := getBlockSize n - b.size) (by omega) hextra' (by omega)
        rcases hgrow with ⟨hr, he⟩ | ⟨hr, h₂, he, bs'', c, hca, hcs, hR⟩
        · refine .inl ⟨h₁, _, bs', fs', ?_, .last (by omega) hr hpass, hW₁, hk.1,
            hW₀.blocks.preserves hk⟩
          rw [he, error_bind]
        · rw [he, ok_bind]
          rw [show b.size + (getBlockSize n - b.size) = getBlockSize n by omega] at hR
          exact .inr ⟨_, bs'', fs', c, by rw [hca], by rwa [List.append_nil],
            fun hno => absurd ⟨rfl, by omega⟩ hno⟩
    · rw [if_neg hin, ← hnext, ← hbs]
      refine hW₀.reallocMerge_ok hb hn hle fun hpost => ?_
      have hno : ¬16 < sub32 (getBlockSize n) b.size := fun h16 => hin ⟨hend.1 hpost, h16⟩
      rcases Nat.lt_or_ge (getBlockSize n) b.size with hwrap | hge
      · rw [sub32_of_lt hwrap (by omega)] at hno
        omega
      · rw [sub32_of_le hge (by omega)] at hno
        omega

end MallocLab
end CsappLabs
