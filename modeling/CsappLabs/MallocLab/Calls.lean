/-
# `mm_malloc` and `mm_free`

Both keep the invariant, and both leave the payload areas of the other blocks
alone.  `Malloced` and `Freed` say what becomes of the row and of the list.

`mm_malloc` returns unless there is no memory left: a block just added is the
first of the list and large enough.
-/

import CsappLabs.MallocLab.Fit

namespace CsappLabs
namespace MallocLab

open Lib Lib.CInt Lib.Memory Lib.Tiling Lib.Links

variable {L : Layout} {h h' h₁ : Heap} {bs bs' pre post : List Blk} {fs fs' : List ℕ} {b c : Blk}
  {n p r size : ℕ}

theorem ok_bind {ε α β : Type} (a : α) (f : α → Except ε β) : (Except.ok a >>= f) = f a := rfl

theorem error_bind {ε α β : Type} (e : ε) (f : α → Except ε β) :
    ((Except.error e : Except ε α) >>= f) = .error e := rfl

/-! ### Sizes -/

theorem dvd_getBlockSize (n : ℕ) : 4 ∣ getBlockSize n := dvd_alignDown ..

/-- A size that does not wrap leaves room for the header and the footer. -/
theorem getBlockSize_bounds (hn : n + 19 < 2 ^ 32) :
    n + 16 ≤ getBlockSize n ∧ getBlockSize n ≤ n + 19 := by
  have h16 : add32 n SIZE_OF_BLOCK = n + 16 := add32_of_lt (by show n + 16 < _; omega)
  rw [getBlockSize, h16, add32_of_lt (by omega), alignDown]
  omega

/-- The sum in the test of case 1 of `mm_realloc`. -/
theorem add32_getBlockSize (hn : n + 35 < 2 ^ 32) :
    add32 (getBlockSize n) SIZE_OF_BLOCK = getBlockSize n + 16 := by
  have hle := (getBlockSize_bounds (n := n) (by omega)).2
  exact add32_of_lt (by show getBlockSize n + 16 < _; omega)

/-! ### `mm_malloc` -/

theorem mmMalloc_fit (hf : findFit L h (getBlockSize n) = .ok (h', some p)) :
    mmMalloc L h n = .ok (h'.setAllocated p, some (add32 p SIZEOF_BLOCK)) := by
  rw [mmMalloc]
  simp only [hf, ok_bind]
  rfl

/-- The size by which `mm_malloc` expands the heap. -/
def growth (n : ℕ) : ℕ :=
  if getBlockSize n > EXPAND_HEAP_SIZE then getBlockSize n else EXPAND_HEAP_SIZE

theorem getBlockSize_le_growth (n : ℕ) : getBlockSize n ≤ growth n := by
  unfold growth
  split_ifs with hgt
  · exact le_rfl
  · exact not_lt.1 hgt

theorem mmMalloc_exit (hf : findFit L h (getBlockSize n) = .ok (h₁, none))
    {e : Fault} (he : expandHeap L h₁ (growth n) = .error e) : mmMalloc L h n = .error e := by
  unfold growth at he
  rw [mmMalloc]
  simp only [hf, ok_bind, he, error_bind]

theorem mmMalloc_grow {h₂ : Heap} (hf : findFit L h (getBlockSize n) = .ok (h₁, none))
    (he : expandHeap L h₁ (growth n) = .ok h₂)
    (hf' : findFit L h₂ (getBlockSize n) = .ok (h', some p)) :
    mmMalloc L h n = .ok (h'.setAllocated p, some (add32 p SIZEOF_BLOCK)) := by
  unfold growth at he
  rw [mmMalloc]
  simp only [hf, ok_bind, he, hf']
  rfl

/-- No free block is large enough. -/
def NoFit (size : ℕ) (bs : List Blk) : Prop := ∀ b ∈ bs, b.alloc = false → b.size < size

/-- What `mm_malloc` does to a heap with the break `brk`: the row is then
`pre ++ c :: post`, with `c` in use, and the last number is the new break. -/
inductive Malloced (L : Layout) (n brk : ℕ) :
    List Blk → List ℕ → List Blk → Blk → List Blk → List ℕ → ℕ → Prop
  | fit {bs : List Blk} {fs : List ℕ} {pre : List Blk} {c : Blk} {post : List Blk}
    {fs' : List ℕ} :
    Found (getBlockSize n) bs fs pre c post fs' → Malloced L n brk bs fs pre c post fs' brk
  | grow {bs : List Blk} {fs : List ℕ} {bs₁ : List Blk} {fs₁ : List ℕ} {pre : List Blk} {c : Blk}
    {post : List Blk} {fs' : List ℕ} :
    NoFit (getBlockSize n) bs → Room L brk (growth n) → Pass bs fs fs bs₁ fs₁ →
      Found (getBlockSize n) (bs₁ ++ [newBlock brk (growth n)]) ((brk - 4) :: fs₁) pre c post fs' →
      Malloced L n brk bs fs pre c post fs' (brk + growth n)

namespace Malloced

variable {brk brk' : ℕ}

theorem size_bounds (hm : Malloced L n brk bs fs pre c post fs' brk') :
    c.alloc = false ∧ getBlockSize n ≤ c.size ∧ c.size ≤ getBlockSize n + 16 := by
  cases hm with
  | fit hf => exact hf.size_bounds
  | grow _ _ _ hf => exact hf.size_bounds

/-- There was a fit, or room for one more block. -/
theorem fit_or_room (hm : Malloced L n brk bs fs pre c post fs' brk') :
    ¬NoFit (getBlockSize n) bs ∨ Room L brk (growth n) := by
  cases hm with
  | fit hf =>
    obtain ⟨d, hd, hdf, hle⟩ := hf.exists_fit
    exact .inl fun hno => absurd hle (not_le.2 (hno d hd hdf))
  | grow _ hr _ _ => exact .inr hr

theorem allocated_eq (hm : Malloced L n brk bs fs pre c post fs' brk') :
    allocated (pre ++ c :: post) = allocated bs := by
  cases hm with
  | fit hf => exact hf.allocated_eq
  | grow _ _ hp hf =>
    refine hf.allocated_eq.trans (Eq.trans ?_ hp.allocated_eq)
    simp [allocated, newBlock]

end Malloced

/-- Marking the block found. -/
theorem Found.allocate (hf : Found size bs fs pre c post fs') (hW : WellFormed L h bs fs)
    (h16 : 16 ≤ size) (hR : Rep L h' (pre ++ c :: post) fs') :
    WellFormed L (h'.setAllocated c.addr) (pre ++ { c with alloc := true } :: post) fs' ∧
      Keeps (pre ++ c :: post) h' (h'.setAllocated c.addr) := by
  obtain ⟨hnot, hfree⟩ := hf.complete hW h16
  obtain ⟨hR', hk⟩ := hR.mark hnot true
  rw [(hR.blocks.set_eq (c := c) (by simp)).1]
  refine ⟨⟨hR', fun d hd hdf => ?_⟩, hk⟩
  simp only [List.mem_append, List.mem_cons] at hd
  rcases hd with hd | rfl | hd
  · exact hfree d (by simp [hd]) hdf
  · exact absurd hdf (by simp)
  · exact hfree d (by simp [hd]) hdf

/-- **`mm_malloc`** returns a block, or it ends because there is no memory left. -/
theorem mmMalloc_ok (hW : WellFormed L h bs fs) (h16 : 16 ≤ getBlockSize n) :
    (NoFit (getBlockSize n) bs ∧ ¬Room L h.brk (growth n) ∧ ∃ h₁ bs' fs',
        mmMalloc L h n = .error (h₁.shortage (growth n)) ∧ Pass bs fs fs bs' fs' ∧
        WellFormed L h₁ bs' fs' ∧ Keeps bs h h₁) ∨
      ∃ h' pre c post fs', mmMalloc L h n = .ok (h', some (c.addr + 12)) ∧
        Malloced L n h.brk bs fs pre c post fs' h'.brk ∧ Preserves bs h h' ∧
        WellFormed L h' (pre ++ { c with alloc := true } :: post) fs' := by
  have hs := dvd_getBlockSize n
  have hptr : ∀ {h'' : Heap} {bs'' : List Blk} {d : Blk}, Blocks L h'' bs'' → d ∈ bs'' →
      add32 d.addr SIZEOF_BLOCK = d.addr + 12 := fun hB hd =>
    add32_of_lt (by have := (hB.node hd).2; exact this)
  rcases findFit_ok hW hs h16 with ⟨hf, hnone⟩ | ⟨h₁, pre, c, post, fs', hf, hfound, hR, hk⟩
  · -- there is no fit, and the heap grows
    have hg4 : 4 ∣ growth n := by
      unfold growth
      split_ifs
      · exact hs
      · decide
    have hg := getBlockSize_le_growth n
    have hg16 : 16 < growth n := by
      have hexp : EXPAND_HEAP_SIZE = 4096 := rfl
      unfold growth
      split_ifs
      · omega
      · omega
    obtain ⟨h₁, bs₁, fs₁, hpass, hW₁, hk₁, hexp⟩ := expandHeap_ok hW hg4 hg16
    rcases hexp with ⟨hr, he⟩ | ⟨hr, h₂, he, hbrk, hp₂, hW₂⟩
    · exact .inl ⟨hnone, hr, h₁, bs₁, fs₁, mmMalloc_exit hf he, hpass, hW₁, hk₁⟩
    · rcases findFit_ok hW₂ hs h16 with ⟨hf₂, hnone₂⟩ | ⟨h₃, pre, c, post, fs', hf₂, hfound, hR, hk⟩
      · -- the new block is large enough
        have := hnone₂ (newBlock h.brk (growth n)) (by simp) rfl
        exact absurd hg (not_le.2 this)
      · obtain ⟨hW₃, hk₃⟩ := hfound.allocate hW₂ h16 hR
        have hk' := hk.trans (hk₃.mono (outside_congr hfound.allocated_eq).subset)
        refine .inr ⟨_, pre, c, post, fs', (hptr hR.blocks (d := c) (by simp)) ▸
          mmMalloc_grow hf he hf₂, ?_, ?_, hW₃⟩
        · rw [hk'.1, hbrk]
          exact .grow hnone hr hpass hfound
        · refine hp₂.trans ((hW₂.blocks.preserves hk').mono fun b hb => ?_)
          rw [allocated, List.filter_append]
          exact List.mem_append_left _ (show b ∈ allocated bs₁ from hpass.allocated_eq ▸ hb)
  · obtain ⟨hW₂, hk₂⟩ := hfound.allocate hW h16 hR
    have hk' := hk.trans (hk₂.mono (outside_congr hfound.allocated_eq).subset)
    refine .inr ⟨_, pre, c, post, fs', (hptr hR.blocks (d := c) (by simp)) ▸ mmMalloc_fit hf, ?_,
      hW.blocks.preserves hk', hW₂⟩
    rw [hk'.1]
    exact .fit hfound

/-! ### `mm_free` -/

/-- What `mm_free` does to the row `pre ++ b :: post`. -/
def Freed (pre : List Blk) (b : Blk) (post : List Blk) (fs : List ℕ) (bs' : List Blk)
    (fs' : List ℕ) : Prop :=
  ∃ fs₁ r, Coalesced pre { b with alloc := false } post fs bs' fs₁ r ∧
    fs' = if r = b.addr then b.addr :: fs₁ else fs₁

/-- The block that `coalesce` returns is one of the row, and free. -/
theorem Coalesced.exists_result (hc : Coalesced pre b post fs bs' fs' r) (hb : b.alloc = false) :
    ∃ d ∈ bs', d.addr = r ∧ d.alloc = false := by
  cases hc with
  | @both pre p _ n post _ hp ht hn => exact ⟨(p.absorb b).absorb n, by simp, rfl, hp⟩
  | @prev pre p _ post _ hp ht hn => exact ⟨p.absorb b, by simp, rfl, hp⟩
  | @next pre _ n post _ hp hn => exact ⟨b.absorb n, by simp, rfl, hb⟩
  | none hp hn => exact ⟨b, by simp, rfl, hb⟩

theorem allocated_cons (b : Blk) (hc : c ∈ allocated (pre ++ post)) :
    c ∈ allocated (pre ++ b :: post) := by
  obtain ⟨hc, ha⟩ := List.mem_filter.1 hc
  exact List.mem_filter.2 ⟨mem_middle b hc, ha⟩

theorem allocated_of_ne (hc : c ∈ pre ++ b :: post) (ha : c.alloc = true) (hne : c.addr ≠ b.addr) :
    c ∈ allocated (pre ++ post) := by
  have hcb : c ≠ b := fun he => hne (congrArg _ he)
  refine List.mem_filter.2 ⟨?_, ha⟩
  rcases List.mem_append.1 hc with hc | hc
  · exact List.mem_append_left _ hc
  · exact List.mem_append_right _ ((List.mem_cons.1 hc).resolve_left hcb)

/-- A block in use is not listed. -/
theorem WellFormed.not_listed (hW : WellFormed L h bs fs) (hb : b ∈ bs) (ha : b.alloc = true) :
    b.addr ∉ fs := by
  intro hm
  obtain ⟨d, hd, hda, hdf⟩ := hW.free _ hm
  obtain rfl := hW.blocks.inj hd hb hda
  exact absurd ha (by simp [hdf])

/-- **`mm_free`** keeps the invariant. -/
theorem mmFree_ok (hW : WellFormed L h (pre ++ b :: post) fs) (hb : b.alloc = true) :
    ∃ bs' fs', Freed pre b post fs bs' fs' ∧ WellFormed L (mmFree L h (b.addr + 12)) bs' fs' ∧
      Preserves (pre ++ post) h (mmFree L h (b.addr + 12)) ∧
      (mmFree L h (b.addr + 12)).brk = h.brk := by
  have hbm := hW.blocks.mem (b := b) (by simp)
  have hnode := hW.blocks.node (b := b) (by simp)
  have hbf := hW.not_listed (b := b) (by simp) hb
  -- the block is marked free
  have hsub := hW.blocks.sub32_payload (b := b) (by simp)
  obtain ⟨hR, hk₁⟩ := hW.toRep.mark hbf false
  have hset := (hW.blocks.set_eq (c := b) (by simp)).2
  have hflag : true = true ↔ b.addr ∉ fs := by simp [hbf]
  obtain ⟨bs', fs₁, hc, hR₁, hk₂⟩ := coalesce_rep hR rfl hW.complete_rest hflag
  rw [← hset] at hR hk₁ hc hR₁ hk₂
  have hfree : mmFree L h (b.addr + 12) =
      if (coalesce L (h.setFree b.addr) b.addr true).2 = b.addr then
        insertToList (coalesce L (h.setFree b.addr) b.addr true).1
          (coalesce L (h.setFree b.addr) b.addr true).2 L.head
      else (coalesce L (h.setFree b.addr) b.addr true).1 := by
    rw [mmFree, if_neg (Nat.succ_ne_zero _), hsub]
  generalize coalesce L (h.setFree b.addr) b.addr true = x at hfree hc hR₁ hk₂
  have hnd := hR.blocks.nodup
  have hcomplete := hc.complete hnd hW.complete_rest
  have hpres : Preserves (pre ++ post) h x.1 := by
    have hp := (hW.blocks.preserves hk₁).mono fun d hd => allocated_cons b hd
    exact hp.trans ((hR.blocks.preserves hk₂).mono fun d hd => allocated_cons _ hd)
  have hbrk : x.1.brk = h.brk := hk₂.1.trans hk₁.1
  rw [hfree]
  rcases hc.result hnd hW.complete_rest with ⟨hr, hiff⟩ | ⟨hr, hmem⟩
  · obtain ⟨d, hd, hda, hdf⟩ := hc.exists_result rfl
    have hdn : d.addr ∉ fs₁ := by
      rw [hda, hr]
      exact fun hm => hbf (hiff.1 hm)
    obtain ⟨hR₂, hk₃⟩ := hR₁.insert_front hd hdf hdn
    rw [if_pos hr]
    rw [hda] at hR₂ hk₃
    refine ⟨bs', _ :: fs₁, ⟨fs₁, _, hc, ?_⟩, ⟨hR₂, fun e he hef => ?_⟩, ?_,
      hk₃.1.trans hbrk⟩
    · rw [if_pos hr, hr]
    · exact List.mem_cons.2 (hcomplete e he hef)
    · refine hpres.trans ((hR₁.blocks.preserves hk₃).mono fun e he => ?_)
      rw [hc.allocated_eq rfl]
      exact allocated_cons _ he
  · rw [if_neg hr]
    refine ⟨bs', fs₁, ⟨fs₁, _, hc, (if_neg hr).symm⟩, ⟨hR₁, fun e he hef => ?_⟩, hpres, hbrk⟩
    rcases hcomplete e he hef with he' | he'
    · exact he' ▸ hmem
    · exact he'

end MallocLab
end CsappLabs
