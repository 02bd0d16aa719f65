/-
# Freeing a block between free ones

`mm_free` is to merge the block with the free block before it and the one behind
it.  The one behind is found by the size of the block, the one before by its
footer.  So the bytes freed lie in one free block together with both neighbours
exactly if the footer of a free block before has not been cleared by an earlier
merge (`free_merges_iff`).
-/

import CsappLabs.MallocLab.Footers

namespace CsappLabs
namespace MallocLab

open Lib Lib.CInt Lib.Memory Lib.Tiling

variable {L : Layout} {w : World} {h : Heap} {bs bs' pre post : List Blk} {fs fs' : List ℕ}
  {b : Blk} {a lo hi : ℕ}

/-! ### In the memory -/

/-- The block before, if it is free. -/
def freeBefore (h : Heap) (pre : List ℕ) : Option ℕ := pre.getLast?.filter (!h.isAllocated ·)

/-- The block behind, if it is free. -/
def freeBehind (h : Heap) (post : List ℕ) : Option ℕ := post.head?.filter (!h.isAllocated ·)

/-- `[lo, hi)` is a free block, on the free list once, with no free block next to it. -/
def FreeSpan (L : Layout) (h : Heap) (lo hi : ℕ) : Prop :=
  ∃ as fs, Exact L h as fs ∧ lo ∈ as ∧ h.isAllocated lo = false ∧ lo + h.blockSize lo = hi ∧
    fs.count lo = 1 ∧ ¬FreeBeside L h lo

/-- Freeing the block at `a` gives a free block together with the free neighbours. -/
def Merges (L : Layout) (h h' : Heap) (pre : List ℕ) (a : ℕ) (post : List ℕ) : Prop :=
  FreeSpan L h' ((freeBefore h pre).getD a)
    ((freeBehind h post).getD a + h.blockSize ((freeBehind h post).getD a))

/-! ### In the row -/

/-- The same in a row. -/
def RowSpan (bs : List Blk) (lo hi : ℕ) : Prop :=
  ∃ pre d post, bs = pre ++ d :: post ∧ d.alloc = false ∧ d.addr = lo ∧ d.stop = hi ∧
    ¬Near pre post

/-- The last block, if it is free. -/
def lastFree (pre : List Blk) : Option Blk := pre.getLast?.filter (!·.alloc)

/-- The first block, if it is free. -/
def firstFree (post : List Blk) : Option Blk := post.head?.filter (!·.alloc)

/-- The free neighbours have no other free neighbour. -/
structure Alone (pre post : List Blk) : Prop where
  before : ∀ pre' p, pre = pre' ++ [p] → p.alloc = false → ∀ q ∈ pre'.getLast?, q.alloc = true
  behind : ∀ n post', post = n :: post' → n.alloc = false → ∀ m ∈ post'.head?, m.alloc = true

theorem lastFree_concat {p : Blk} (hp : p.alloc = false) : lastFree (pre ++ [p]) = some p := by
  simp [lastFree, hp]

theorem firstFree_cons {n : Blk} (hn : n.alloc = false) : firstFree (n :: post) = some n := by
  simp [firstFree, hn]

theorem firstFree_of_noNext (hn : NoNext post) : firstFree post = none := by
  cases post with
  | nil => rfl
  | cons n post => simp [firstFree, hn n rfl]

theorem lastFree_eq_none : lastFree pre = none ↔ ∀ p ∈ pre.getLast?, p.alloc = true := by
  simp [lastFree]

theorem not_near_iff : ¬Near pre post ↔
    (∀ p ∈ pre.getLast?, p.alloc = true) ∧ ∀ n ∈ post.head?, n.alloc = true := by
  simp [Near]

/-- A free block before that `coalesce` does not see has no tag. -/
theorem NoPrev.lastFree (hp : NoPrev pre) :
    lastFree pre = none ∨ ∃ pre' p, pre = pre' ++ [p] ∧ CsappLabs.MallocLab.lastFree pre = some p ∧
      p.tagged = false := by
  rcases List.eq_nil_or_concat pre with rfl | ⟨pre, p, rfl⟩
  · exact .inl rfl
  · rw [List.concat_eq_append] at hp ⊢
    cases ha : p.alloc with
    | true => exact .inl (by simp [CsappLabs.MallocLab.lastFree, ha])
    | false =>
      refine .inr ⟨pre, p, rfl, lastFree_concat ha, ?_⟩
      exact (hp p (by simp)).resolve_left (by simp [ha])

/-- A block that is still there does not reach further than before. -/
theorem RowSpan.stop_eq (hs : RowSpan bs b.addr hi) (hB : Blocks L h bs) (hb : b ∈ bs) :
    b.stop = hi := by
  obtain ⟨u, d, v, rfl, -, hda, hstop, -⟩ := hs
  obtain rfl := hB.inj (b := d) (c := b) (by simp) hb hda
  exact hstop

/-- **What `mm_free` merges**: with the free neighbours standing alone, the freed
bytes end up in one free block with them exactly if the block before has its tag. -/
theorem Freed.rowSpan_iff {h' : Heap} (hf : Freed pre b post fs bs' fs')
    (hB : Blocks L h (pre ++ b :: post)) (hB' : Blocks L h' bs') (halone : Alone pre post) :
    RowSpan bs' ((lastFree pre).getD b).addr ((firstFree post).getD b).stop ↔
      ∀ p ∈ lastFree pre, p.tagged = true := by
  obtain ⟨fs₁, r, hc, -⟩ := hf
  have h16 := (hB.sized b (by simp)).2
  -- a free block before without its tag stays a block of its own
  have hleft : ∀ {pre' rest : List Blk} {p : Blk} {hi : ℕ}, pre = pre' ++ [p] →
      bs' = pre ++ rest → b.addr < hi → ¬RowSpan bs' p.addr hi := by
    rintro pre' rest p hi rfl rfl hlt hs
    have hpb : p.addr + p.size = b.addr := (tiles_split.1 (tiles_split.1 hB.row).1).2
    have hstop : p.addr + p.size = hi := hs.stop_eq hB' (by simp)
    omega
  cases hc with
  | @both pre p _ n post _ hp ht hn =>
    have hrow := hB.row
    rw [List.append_assoc] at hrow
    obtain ⟨hba, hna, -⟩ := (tiles_split.1 hrow).2
    rw [lastFree_concat hp, firstFree_cons hn]
    refine iff_of_true ⟨pre, _, post, rfl, hp, rfl, ?_,
      not_near_iff.2 ⟨halone.before pre p rfl hp, halone.behind n post rfl hn⟩⟩ (by simp [ht])
    show p.addr + (p.size + b.size + n.size) = n.addr + n.size
    omega
  | @prev pre p _ post _ hp ht hn =>
    have hrow := hB.row
    rw [List.append_assoc] at hrow
    obtain ⟨hba, -⟩ := (tiles_split.1 hrow).2
    rw [lastFree_concat hp, firstFree_of_noNext hn]
    refine iff_of_true ⟨pre, _, post, rfl, hp, rfl, ?_,
      not_near_iff.2 ⟨halone.before pre p rfl hp, hn⟩⟩ (by simp [ht])
    show p.addr + (p.size + b.size) = b.addr + b.size
    omega
  | @next pre _ n post _ hp hn =>
    have hna : n.addr = b.addr + b.size := (tiles_split.1 hB.row).2.1
    rw [firstFree_cons hn]
    rcases hp.lastFree with hnone | ⟨pre', p, hpre, hsome, hu⟩
    · rw [hnone]
      refine iff_of_true ⟨pre, _, post, rfl, rfl, rfl, ?_,
        not_near_iff.2 ⟨lastFree_eq_none.1 hnone, halone.behind n post rfl hn⟩⟩ (by simp)
      show b.addr + (b.size + n.size) = n.addr + n.size
      omega
    · rw [hsome]
      refine iff_of_false (hleft hpre rfl ?_) (by simp [hu])
      show b.addr < n.addr + n.size
      omega
  | none hp hn =>
    rw [firstFree_of_noNext hn]
    rcases hp.lastFree with hnone | ⟨pre', p, hpre, hsome, hu⟩
    · rw [hnone]
      exact iff_of_true ⟨pre, _, post, rfl, rfl, rfl, rfl,
        not_near_iff.2 ⟨lastFree_eq_none.1 hnone, hn⟩⟩ (by simp)
    · rw [hsome]
      refine iff_of_false (hleft hpre rfl ?_) (by simp [hu])
      show b.addr < b.addr + b.size
      omega

/-! ### From the row to the memory -/

theorem freeBefore_eq (hB : Blocks L h bs) (pre : List Blk) (hpre : ∀ p ∈ pre, p ∈ bs) :
    freeBefore h (pre.map Blk.addr) = (lastFree pre).map Blk.addr := by
  rcases List.eq_nil_or_concat pre with rfl | ⟨pre, p, rfl⟩
  · rfl
  · have hp := hB.isAllocated_eq (hpre p (by simp))
    cases ha : p.alloc <;> simp [freeBefore, lastFree, Option.filter_some, hp, ha]

theorem freeBehind_eq (hB : Blocks L h bs) (post : List Blk) (hpost : ∀ n ∈ post, n ∈ bs) :
    freeBehind h (post.map Blk.addr) = (firstFree post).map Blk.addr := by
  cases post with
  | nil => rfl
  | cons n post =>
    have hn := hB.isAllocated_eq (hpost n (by simp))
    cases ha : n.alloc <;> simp [freeBehind, firstFree, Option.filter_some, hn, ha]

theorem WellFormed.freeSpan_iff (hW : WellFormed L h bs fs) :
    FreeSpan L h lo hi ↔ RowSpan bs lo hi := by
  constructor
  · rintro ⟨as, fs', hE, hmem, hfree, hhi, -, hnear⟩
    obtain rfl := hE.walk.unique hW.blocks.walk
    obtain ⟨d, hd, rfl⟩ := List.mem_map.1 hmem
    obtain ⟨pre, post, rfl⟩ := List.append_of_mem hd
    rw [hW.blocks.isAllocated_eq hd] at hfree
    rw [hW.blocks.blockSize_eq hd] at hhi
    exact ⟨pre, d, post, rfl, hfree, rfl, hhi, fun h => hnear (hW.blocks.freeBeside_iff.2 h)⟩
  · rintro ⟨pre, d, post, rfl, hfree, rfl, hhi, hnear⟩
    have hd : d ∈ pre ++ d :: post := by simp
    refine ⟨_, fs, hW.exact, List.mem_map_of_mem hd, (hW.blocks.isAllocated_eq hd).trans hfree, ?_,
      List.count_eq_one_of_mem hW.nodup_list (hW.complete d hd hfree),
      fun h => hnear (hW.blocks.freeBeside_iff.1 h)⟩
    rw [hW.blocks.blockSize_eq hd]
    exact hhi

/-- The free neighbours stand alone in the row if they do in the memory. -/
theorem Blocks.alone (hB : Blocks L h (pre ++ b :: post))
    (halone : ∀ c, freeBefore h (pre.map Blk.addr) = some c ∨
      freeBehind h (post.map Blk.addr) = some c → ¬FreeBeside L h c) : Alone pre post := by
  constructor
  · rintro pre p rfl hp
    have hbefore := freeBefore_eq hB (pre ++ [p]) fun q hq => by simp at hq ⊢; tauto
    rw [lastFree_concat hp] at hbefore
    have hno := halone p.addr (.inl hbefore)
    rw [List.append_assoc, List.singleton_append] at hB
    exact (not_near_iff.1 fun h => hno (hB.freeBeside_iff.2 h)).1
  · rintro n post rfl hn
    have hbehind := freeBehind_eq hB (n :: post) fun q hq => by simp at hq ⊢; tauto
    rw [firstFree_cons hn] at hbehind
    have hno := halone n.addr (.inr hbehind)
    rw [List.append_cons] at hB
    exact (not_near_iff.1 fun h => hno (hB.freeBeside_iff.2 h)).2

/-- **When freeing merges with both neighbours.**  In every state of a run of
`mm_malloc` and `mm_free`, for a block in use whose free neighbours stand alone:
after `mm_free` its bytes lie in one free block together with them, on the list once
and next to no other free block, exactly if a free block before has its size in its
footer. -/
theorem free_merges_iff (hw : ((mmSystem L).restrict Call.basic).Reach w) {ptr : ℕ}
    (hp : w.Holds ptr) :
    ∃ pre post, Walk L w.heap (pre ++ (ptr - 12) :: post) ∧
      ((∀ c, freeBefore w.heap pre = some c ∨ freeBehind w.heap post = some c →
          ¬FreeBeside L w.heap c) →
        (Merges L w.heap (mmFree L w.heap ptr) pre (ptr - 12) post ↔
          ∀ p, freeBefore w.heap pre = some p →
            w.heap.read (w.heap.footer p) = w.heap.blockSize p)) := by
  obtain ⟨bs, fs, hV⟩ := valid_of_reach hw
  obtain ⟨pre, b, post, rfl, hb, rfl⟩ := hV.exists_block hp
  have hB := hV.blocks
  obtain ⟨bs', fs', hf, hW', -⟩ := mmFree_ok hV.toWellFormed hb
  have hbefore := freeBefore_eq hB pre fun q hq => by simp [hq]
  have hbehind := freeBehind_eq hB post fun q hq => by simp [hq]
  rw [Nat.add_sub_cancel]
  refine ⟨pre.map Blk.addr, post.map Blk.addr, by simpa using hB.walk, fun halone => ?_⟩
  -- the range to be freed, in the row
  have hlo : (freeBefore w.heap (pre.map Blk.addr)).getD b.addr = ((lastFree pre).getD b).addr := by
    rw [hbefore]
    cases lastFree pre <;> rfl
  have hend : (freeBehind w.heap (post.map Blk.addr)).getD b.addr =
      ((firstFree post).getD b).addr := by
    rw [hbehind]
    cases firstFree post <;> rfl
  have hmem : (firstFree post).getD b ∈ pre ++ b :: post := by
    cases hn : firstFree post with
    | none => simp
    | some n =>
      have := List.mem_of_mem_head? (Option.filter_eq_some_iff.1 hn).1
      simp [this]
  rw [Merges, hlo, hend, hB.blockSize_eq hmem, hW'.freeSpan_iff]
  refine (hf.rowSpan_iff hB hW'.blocks (hB.alone halone)).trans ?_
  rw [hbefore]
  have hfoot : ∀ p ∈ lastFree pre,
      w.heap.read (w.heap.footer p.addr) = w.heap.blockSize p.addr ↔ p.tagged = true := by
    intro p hp
    have := List.mem_of_getLast? (Option.filter_eq_some_iff.1 hp).1
    exact hB.footer_iff (by simp [this])
  constructor
  · intro h a ha
    obtain ⟨p, hp, rfl⟩ := Option.map_eq_some_iff.1 ha
    exact (hfoot p hp).2 (h p hp)
  · exact fun h p hp => (hfoot p hp).1 (h p.addr (Option.map_eq_some_iff.2 ⟨p, hp, rfl⟩))

/-- Three blocks, of which the second is given back and then the third. -/
theorem free_merges_iff_third :
    (((mmSystem .low).restrict Call.basic).run (.first .low fun _ => 7)
      [.malloc 1, .malloc 1, .malloc 1, .free 168]).isSome ∧
    ∀ w, ((mmSystem .low).restrict Call.basic).run (.first .low fun _ => 7)
        [.malloc 1, .malloc 1, .malloc 1, .free 168] = some w →
      ∃ pre post, Walk .low w.heap (pre ++ 176 :: post) ∧
        ((∀ c, freeBefore w.heap pre = some c ∨ freeBehind w.heap post = some c →
            ¬FreeBeside .low w.heap c) →
          (Merges .low w.heap (mmFree .low w.heap 188) pre 176 post ↔
            ∀ p, freeBefore w.heap pre = some p →
              w.heap.read (w.heap.footer p) = w.heap.blockSize p)) := by
  refine ⟨by decide +kernel, fun w hw => ?_⟩
  have hlive : (((mmSystem .low).restrict Call.basic).run (.first .low fun _ => 7)
      [.malloc 1, .malloc 1, .malloc 1, .free 168]).all (fun w => decide (w.Holds 188)) := by
    decide +kernel
  rw [hw, Option.all_some, decide_eq_true_eq] at hlive
  exact free_merges_iff ((reach_first .low fun _ => 7).run hw) hlive

/-- **A free block before is missed**: the first two blocks given back are merged
and have no footer then, so the third one is merged with the block behind it only. -/
theorem free_misses_neighbour : ∃ w,
    ((mmSystem .low).restrict Call.basic).run (.first .low fun _ => 7)
      [.malloc 1, .malloc 1, .malloc 1, .free 148, .free 168] = some w ∧ w.Holds 188 ∧
    Walk .low w.heap ([136] ++ 176 :: [196]) ∧
    (∀ c, freeBefore w.heap [136] = some c ∨ freeBehind w.heap [196] = some c →
      ¬FreeBeside .low w.heap c) ∧
    ¬Merges .low w.heap (mmFree .low w.heap 188) [136] 176 [196] := by
  have hrun : (((mmSystem .low).restrict Call.basic).run (.first .low fun _ => 7)
      [.malloc 1, .malloc 1, .malloc 1, .free 148, .free 168]).isSome := by decide +kernel
  obtain ⟨w, hw⟩ := Option.isSome_iff_exists.1 hrun
  have hfacts : (((mmSystem .low).restrict Call.basic).run (.first .low fun _ => 7)
      [.malloc 1, .malloc 1, .malloc 1, .free 148, .free 168]).all (fun w => decide
        (w.heap.brk = 4232 ∧ w.heap.blockSize 136 = 40 ∧ w.heap.blockSize 176 = 20 ∧
          w.heap.blockSize 196 = 4032 ∧ freeBefore w.heap [136] = some 136 ∧
          freeBehind w.heap [196] = some 196 ∧ w.heap.isAllocated 176 = true ∧ w.Holds 188 ∧
          (mmFree .low w.heap 188).blockSize 136 = 40)) := by decide +kernel
  rw [hw, Option.all_some, decide_eq_true_eq] at hfacts
  obtain ⟨hbrk, h136, h176, h196, hbefore, hbehind, halloc, hlive, hmerged⟩ := hfacts
  have hwalk : Walk .low w.heap [136, 176, 196] := by
    refine ⟨⟨rfl, ?_, ?_, ?_⟩, ?_⟩
    · show 176 = 136 + w.heap.blockSize 136
      omega
    · show 196 = 136 + w.heap.blockSize 136 + w.heap.blockSize 176
      omega
    · show 136 + w.heap.blockSize 136 + w.heap.blockSize 176 + w.heap.blockSize 196 =
        w.heap.brk - 4
      omega
    · simp [h136, h176, h196]
  refine ⟨w, hw, hlive, hwalk, ?_, ?_⟩
  · -- the block in between is in use
    have hmid : ∀ x y pre post, [136, 176, 196] = pre ++ x :: y :: post → x = 176 ∨ y = 176 := by
      intro x y pre post he
      rcases pre with _ | ⟨u, _ | ⟨v, pre⟩⟩
      · exact .inr (by simpa using he : 136 = x ∧ 176 = y ∧ [196] = post).2.1.symm
      · exact .inl (by simpa using he : 136 = u ∧ 176 = x ∧ 196 = y ∧ post = []).2.1.symm
      · have := congrArg List.length he
        simp only [List.length_cons, List.length_nil, List.length_append] at this
        omega
    have hne : ∀ c, freeBefore w.heap [136] = some c ∨ freeBehind w.heap [196] = some c →
        c ≠ 176 := by
      rintro c (hc | hc)
      · rw [hbefore] at hc
        simp [← Option.some.inj hc]
      · rw [hbehind] at hc
        simp [← Option.some.inj hc]
    rintro c hc ⟨d, hd, ⟨pre, post, hw'⟩ | ⟨pre, post, hw'⟩⟩
    · rcases hmid _ _ _ _ (hwalk.unique hw') with rfl | rfl
      · exact absurd hd (by simp [halloc])
      · exact hne _ hc rfl
    · rcases hmid _ _ _ _ (hwalk.unique hw') with rfl | rfl
      · exact hne _ hc rfl
      · exact absurd hd (by simp [halloc])
  · rintro ⟨as, fs, -, -, -, hstop, -⟩
    rw [hbefore, hbehind, Option.getD_some, Option.getD_some, hmerged, h196] at hstop
    exact absurd hstop (by decide)

end MallocLab
end CsappLabs
