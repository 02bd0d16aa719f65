/-
# Footers

A merge in `coalesce` writes the footer of the new block and then clears the
absorbed blocks, the last of which ends in the same word.  So the merged block has
footer `0`, and as long as it is not split, the block behind it cannot find it.

Every other operation leaves blocks with footers (`Malloced`, `Freed`).  Along a
run of `mm_malloc` and `mm_free` all footers are right exactly if nothing is ever
merged: no block is freed next to a free one, and `expand_heap` never starts its
loop with two free blocks next to each other (`footers_iff`).
-/

import CsappLabs.MallocLab.Exact

namespace CsappLabs
namespace MallocLab

open Lib Lib.CInt Lib.Memory Lib.Tiling Lib.Links

/-! ### Footers in the memory -/

/-- Every block has its size in its footer. -/
def FootersRight (L : Layout) (h : Heap) : Prop :=
  ∃ as, Walk L h as ∧ ∀ a ∈ as, h.read (h.footer a) = h.blockSize a

/-- A block next to the block at `a` is free. -/
def FreeBeside (L : Layout) (h : Heap) (a : ℕ) : Prop :=
  ∃ c, h.isAllocated c = false ∧
    ((∃ pre post, Walk L h (pre ++ c :: a :: post)) ∨ ∃ pre post, Walk L h (pre ++ a :: c :: post))

/-- Two free blocks are next to each other. -/
def AdjacentFree (L : Layout) (h : Heap) : Prop :=
  ∃ pre a c post, Walk L h (pre ++ a :: c :: post) ∧ h.isAllocated a = false ∧
    h.isAllocated c = false

/-- A free block has at least this size. -/
def HasFit (L : Layout) (h : Heap) (size : ℕ) : Prop :=
  ∃ as, Walk L h as ∧ ∃ a ∈ as, h.isAllocated a = false ∧ size ≤ h.blockSize a

/-- The call merges nothing. -/
def NoMerge (L : Layout) (w : World) : Call → Prop
  | .free ptr => ptr ≠ 0 → ¬FreeBeside L w.heap (ptr - 12)
  | .malloc size => HasFit L w.heap (getBlockSize size) ∨ ¬AdjacentFree L w.heap
  | _ => True

/-! ### Footers in the row -/

/-- Every block has its footer. -/
def AllTagged (bs : List Blk) : Prop := ∀ b ∈ bs, b.tagged = true

/-- The block before or the block behind is free. -/
def Near (pre post : List Blk) : Prop :=
  (∃ p ∈ pre.getLast?, p.alloc = false) ∨ ∃ n ∈ post.head?, n.alloc = false

/-- A free block of the row has a free one behind it. -/
def Adjacent (bs : List Blk) : Prop :=
  ∃ pre b n post, bs = pre ++ b :: n :: post ∧ b.alloc = false ∧ n.alloc = false

variable {L : Layout} {w w' : World} {h : Heap} {bs bs' pre post : List Blk} {fs fs' ns : List ℕ}
  {b c : Blk} {n a r size : ℕ}

theorem allTagged_iff : AllTagged bs ↔ ¬∃ b ∈ bs, b.tagged = false := by
  simp [AllTagged]

/-- **A merge** leaves a block without its footer. -/
theorem Coalesced.merge (hc : Coalesced pre b post fs bs' fs' r) :
    (bs' = pre ++ b :: post ∧ fs' = fs ∧ r = b.addr ∧ NoPrev pre ∧ NoNext post) ∨
      Near pre post ∧ ∃ d ∈ bs', d.tagged = false := by
  cases hc with
  | @both pre p _ n post _ hp ht hn =>
    exact .inr ⟨.inr ⟨n, rfl, hn⟩, (p.absorb b).absorb n, by simp, rfl⟩
  | @prev pre p _ post _ hp ht hn =>
    exact .inr ⟨.inl ⟨p, by simp, hp⟩, p.absorb b, by simp, rfl⟩
  | @next pre _ n post _ hp hn => exact .inr ⟨.inr ⟨n, rfl, hn⟩, b.absorb n, by simp, rfl⟩
  | none hp hn => exact .inl ⟨rfl, rfl, rfl, hp, hn⟩

/-- With all footers there, `coalesce` sees every free neighbour. -/
theorem Near.not_none (hnear : Near pre post) (ht : AllTagged pre) :
    ¬(NoPrev pre ∧ NoNext post) := by
  rintro ⟨hp, hn⟩
  rcases hnear with ⟨p, hmem, hf⟩ | ⟨n, hmem, hf⟩
  · rcases hp p hmem with ha | hu
    · exact absurd ha (by simp [hf])
    · exact absurd (ht p (List.mem_of_getLast? hmem)) (by simp [hu])
  · exact absurd (hn n hmem) (by simp [hf])

/-- A merge does not bring a footer back. -/
theorem Coalesced.untagged (hc : Coalesced pre b post fs bs' fs' r)
    (hu : ∃ d ∈ pre ++ b :: post, d.tagged = false) : ∃ d ∈ bs', d.tagged = false := by
  rcases hc.merge with ⟨rfl, -⟩ | ⟨-, hd⟩
  · exact hu
  · exact hd

namespace Pass

theorem untagged (hp : Pass bs fs ns bs' fs') (hu : ∃ d ∈ bs, d.tagged = false) :
    ∃ d ∈ bs', d.tagged = false := by
  induction hp with
  | done => exact hu
  | step hb hc _ ih => exact ih (hc.untagged hu)

/-- Without free blocks next to each other the loop of `expand_heap` does nothing. -/
theorem keep (hp : Pass bs fs ns bs' fs') (hno : ¬Adjacent bs) : bs' = bs ∧ fs' = fs := by
  induction hp with
  | done => exact ⟨rfl, rfl⟩
  | @step pre b post fs w bs' fs' r bs'' fs'' hb hc _ ih =>
    rcases hc.merge with ⟨rfl, rfl, -⟩ | ⟨hnear, -⟩
    · exact ih hno
    · refine absurd ?_ hno
      rcases hnear with ⟨p, hmem, hf⟩ | ⟨n, hmem, hf⟩
      · obtain ⟨pre, rfl⟩ := List.getLast?_eq_some_iff.1 hmem
        exact ⟨pre, p, b, post, by simp, hf, hb⟩
      · obtain ⟨post, rfl⟩ := List.head?_eq_some_iff.1 hmem
        exact ⟨pre, b, n, post, rfl, hb, hf⟩

/-- With two of them in the list, it leaves a block without its footer. -/
theorem merge (hp : Pass bs fs ns bs' fs') (hnd : (bs.map Blk.addr).Nodup) (hns : fs.Nodup)
    (hsuff : ns <:+ fs) {x y : Blk} (hxy : ∃ pre post, bs = pre ++ x :: y :: post)
    (hy : y.alloc = false)
    (hmem : x.addr ∈ ns) : ∃ d ∈ bs', d.tagged = false := by
  induction hp with
  | done => exact absurd hmem List.not_mem_nil
  | @step pre b post fs w bs' fs' r bs'' fs'' hb hc hrest ih =>
    rcases hc.merge with ⟨rfl, rfl, rfl, hp, hn⟩ | ⟨-, hd⟩
    · obtain ⟨u, rfl⟩ := hsuff
      have hbu : b.addr ∉ u := fun hm =>
        (List.nodup_append.1 hns).2.2 _ hm b.addr (by simp) rfl
      rw [behind_append hbu] at hrest ih
      refine ih hnd hns ⟨u ++ [b.addr], by simp⟩ hxy ?_
      refine (List.mem_cons.1 hmem).resolve_left fun he => ?_
      -- the block is followed by the free block `y`
      obtain ⟨pre', post', hbs⟩ := hxy
      have hxb : x = b := List.inj_on_of_nodup_map hnd (by rw [hbs]; simp) (by simp) he
      subst hxb
      have hnb : x ∉ pre ∧ x ∉ post := by
        have := (List.nodup_cons.1 (List.perm_middle.nodup_iff.1 (List.Nodup.of_map _ hnd))).1
        simpa using this
      obtain ⟨-, -, rfl⟩ := (List.append_cons_inj_of_notMem hnb.1 hnb.2).1 hbs
      exact absurd (hn y rfl) (by simp [hy])
    · exact hrest.untagged hd

end Pass

namespace Found

/-- If the first listed block is large enough, it is the one found. -/
theorem first (hf : Found size bs (a :: fs) pre c post fs') (hb : b ∈ bs) (hba : b.addr = a)
    (hle : size ≤ b.size) : c.addr = a := by
  have hu : ∀ {d : Blk} {u w : List ℕ}, u ++ d.addr :: w = a :: fs →
      (∀ b ∈ bs, b.addr ∈ u → b.size < size) → d.addr = a := by
    intro d u w he hsmall
    cases u with
    | nil => exact (List.cons.inj he).1
    | cons x u =>
      obtain rfl : x = a := (List.cons.inj he).1
      exact absurd (hsmall b hb (by simp [hba])) (not_lt.2 hle)
  generalize hgs : a :: fs = gs at hf
  cases hf with
  | whole hsmall hcf hle hle' => exact hu hgs.symm hsmall
  | split hsmall hcf hlt => exact hu hgs.symm hsmall

/-- The other blocks stay. -/
theorem mem_of_ne (hf : Found size bs fs pre c post fs') (hb : b ∈ bs) (hne : b.addr ≠ c.addr) :
    b ∈ pre ++ post := by
  cases hf with
  | @whole pre c post u w =>
    exact mem_of_mem_middle hb fun he => hne (congrArg _ he)
  | @split pre c post u w =>
    have hbc : b ≠ c := by
      rintro rfl
      exact hne rfl
    exact mem_middle _ (mem_of_mem_middle hb hbc)

/-- A split writes both footers. -/
theorem allTagged (hf : Found size bs fs pre c post fs') (ht : AllTagged bs) :
    AllTagged (pre ++ { c with alloc := true } :: post) := by
  cases hf with
  | @whole pre c post u w =>
    intro d hd
    rcases List.mem_append.1 hd with hd | hd
    · exact ht d (by simp [hd])
    · rcases List.mem_cons.1 hd with rfl | hd
      · exact ht c (by simp)
      · exact ht d (by simp [hd])
  | @split pre c post u w =>
    intro d hd
    simp only [List.mem_append, List.mem_cons] at hd
    rcases hd with hd | rfl | rfl | hd
    · exact ht d (by simp [hd])
    · rfl
    · rfl
    · exact ht d (by simp [hd])

end Found

/-- **The footers after `mm_malloc`** are all there exactly if nothing was merged. -/
theorem Malloced.allTagged_iff {brk brk' : ℕ}
    (hm : Malloced L n brk bs fs pre c post fs' brk') (hW : WellFormed L h bs fs)
    (hbrk : h.brk = brk) (ht : AllTagged bs) :
    AllTagged (pre ++ { c with alloc := true } :: post) ↔
      ¬NoFit (getBlockSize n) bs ∨ ¬Adjacent bs := by
  cases hm with
  | fit hf =>
    obtain ⟨d, hd, hdf, hle⟩ := hf.exists_fit
    exact iff_of_true (hf.allTagged ht) (.inl fun hno => absurd hle (not_le.2 (hno d hd hdf)))
  | @grow bs₁ fs₁ _ _ _ _ hno hr hpass hf =>
    subst hbrk
    have hnew : newBlock h.brk (growth n) ∈ bs₁ ++ [newBlock h.brk (growth n)] := by simp
    have hc := hf.first hnew rfl (getBlockSize_le_growth n)
    by_cases hadj : Adjacent bs
    · refine iff_of_false (fun hall => ?_) (not_or.2 ⟨not_not.2 hno, not_not.2 hadj⟩)
      obtain ⟨x, y, hxy, hx, hy⟩ : ∃ x y, (∃ pre post, bs = pre ++ x :: y :: post) ∧
          x.alloc = false ∧ y.alloc = false := by
        obtain ⟨pre, x, y, post, rfl, hx, hy⟩ := hadj
        exact ⟨x, y, ⟨pre, post, rfl⟩, hx, hy⟩
      have hxbs : x ∈ bs := by
        obtain ⟨pre, post, rfl⟩ := hxy
        simp
      obtain ⟨d, hd, hu⟩ := hpass.merge hW.blocks.nodup hW.nodup_list List.suffix_rfl hxy hy
        (hW.complete x hxbs hx)
      have hne : d.addr ≠ c.addr := by
        have hlt := hpass.addr_lt hW.blocks hd
        have hca : c.addr = h.brk - 4 := hc
        omega
      have hmem := hf.mem_of_ne (List.mem_append_left _ hd) hne
      refine absurd (hall d ?_) (by simp [hu])
      simp only [List.mem_append, List.mem_cons] at hmem ⊢
      tauto
    · refine iff_of_true (hf.allTagged ?_) (.inr hadj)
      rw [(hpass.keep hadj).1]
      intro d hd
      rcases List.mem_append.1 hd with hd | hd
      · exact ht d hd
      · obtain rfl := List.mem_singleton.1 hd
        rfl

/-- **The footers after `mm_free`** are all there exactly if nothing was merged. -/
theorem Freed.allTagged_iff (hf : Freed pre b post fs bs' fs') (ht : AllTagged (pre ++ b :: post)) :
    AllTagged bs' ↔ ¬Near pre post := by
  obtain ⟨fs₁, r, hc, -⟩ := hf
  have htpre : AllTagged pre := fun d hd => ht d (by simp [hd])
  rcases hc.merge with ⟨rfl, -, -, hp, hn⟩ | ⟨hnear, hd⟩
  · refine iff_of_true (fun d hd => ?_) fun hnear => hnear.not_none htpre ⟨hp, hn⟩
    rcases List.mem_append.1 hd with hd | hd
    · exact ht d (by simp [hd])
    · rcases List.mem_cons.1 hd with rfl | hd
      · exact ht b (by simp)
      · exact ht d (by simp [hd])
  · exact iff_of_false (fun h => CsappLabs.MallocLab.allTagged_iff.1 h hd) (not_not.2 hnear)

/-! ### From the row to the memory -/

namespace Blocks

/-- The footer of a block is right exactly if the block is tagged. -/
theorem footer_iff (hB : Blocks L h bs) (hb : b ∈ bs) :
    h.read (h.footer b.addr) = h.blockSize b.addr ↔ b.tagged = true := by
  have h16 := (hB.sized b hb).2
  rw [hB.footer_eq hb, hB.blockSize_eq hb, (hB.tagged b hb).2, Blk.tag]
  cases b.tagged
  · simp only [Bool.false_eq_true, if_false, iff_false]
    omega
  · simp

theorem footersRight_iff (hB : Blocks L h bs) : FootersRight L h ↔ AllTagged bs := by
  constructor
  · rintro ⟨as, hw, hall⟩ b hb
    obtain rfl := hw.unique hB.walk
    exact (hB.footer_iff hb).1 (hall b.addr (List.mem_map_of_mem hb))
  · refine fun ht => ⟨_, hB.walk, fun a ha => ?_⟩
    obtain ⟨b, hb, rfl⟩ := List.mem_map.1 ha
    exact (hB.footer_iff hb).2 (ht b hb)

theorem hasFit_iff (hB : Blocks L h bs) : HasFit L h size ↔ ¬NoFit size bs := by
  rw [NoFit]
  push Not
  constructor
  · rintro ⟨as, hw, a, ha, hf, hle⟩
    obtain rfl := hw.unique hB.walk
    obtain ⟨b, hb, rfl⟩ := List.mem_map.1 ha
    rw [hB.isAllocated_eq hb] at hf
    rw [hB.blockSize_eq hb] at hle
    exact ⟨b, hb, hf, hle⟩
  · rintro ⟨b, hb, hf, hle⟩
    refine ⟨_, hB.walk, b.addr, List.mem_map_of_mem hb, ?_, ?_⟩
    · rwa [hB.isAllocated_eq hb]
    · rwa [hB.blockSize_eq hb]

theorem adjacentFree_iff (hB : Blocks L h bs) : AdjacentFree L h ↔ Adjacent bs := by
  constructor
  · rintro ⟨pre, a, c, post, hw, ha, hc⟩
    obtain ⟨pre', rest, rfl, rfl, hrest⟩ := List.map_eq_append_iff.1 (hB.walk.unique hw)
    obtain ⟨b, rest, rfl, rfl, hrest'⟩ := List.map_eq_cons_iff.1 hrest
    obtain ⟨n, post', rfl, rfl, -⟩ := List.map_eq_cons_iff.1 hrest'
    rw [hB.isAllocated_eq (by simp)] at ha hc
    exact ⟨pre', b, n, post', rfl, ha, hc⟩
  · rintro ⟨pre, b, n, post, rfl, hb, hn⟩
    refine ⟨pre.map Blk.addr, b.addr, n.addr, post.map Blk.addr, by simpa using hB.walk, ?_, ?_⟩
    · rwa [hB.isAllocated_eq (by simp)]
    · rwa [hB.isAllocated_eq (by simp)]

theorem freeBeside_iff (hB : Blocks L h (pre ++ b :: post)) :
    FreeBeside L h b.addr ↔ Near pre post := by
  have hwalk := hB.walk
  rw [List.map_append, List.map_cons] at hwalk
  have hnot : b.addr ∉ pre.map Blk.addr ∧ b.addr ∉ post.map Blk.addr := by
    have hnd := hB.nodup
    rw [List.map_append, List.map_cons] at hnd
    simpa using (List.nodup_cons.1 (List.perm_middle.nodup_iff.1 hnd)).1
  constructor
  · rintro ⟨c, hc, ⟨pre', post', hw⟩ | ⟨pre', post', hw⟩⟩
    · have hlist : pre' ++ c :: b.addr :: post' = (pre' ++ [c]) ++ b.addr :: post' := by simp
      have heq := (List.append_cons_inj_of_notMem hnot.1 hnot.2).1
        ((hwalk.unique hw).trans hlist)
      obtain ⟨pre₁, ps, rfl, -, hps⟩ := List.map_eq_append_iff.1 heq.1
      obtain ⟨p, rfl, rfl⟩ := List.map_eq_singleton_iff.1 hps
      rw [hB.isAllocated_eq (by simp)] at hc
      exact .inl ⟨p, by simp, hc⟩
    · have heq := (List.append_cons_inj_of_notMem hnot.1 hnot.2).1 (hwalk.unique hw)
      obtain ⟨n, post₁, rfl, rfl, -⟩ := List.map_eq_cons_iff.1 heq.2.2
      rw [hB.isAllocated_eq (by simp)] at hc
      exact .inr ⟨n, rfl, hc⟩
  · rintro (⟨p, hmem, hf⟩ | ⟨n, hmem, hf⟩)
    · obtain ⟨pre, rfl⟩ := List.getLast?_eq_some_iff.1 hmem
      refine ⟨p.addr, ?_, .inl ⟨pre.map Blk.addr, post.map Blk.addr, by simpa using hwalk⟩⟩
      rwa [hB.isAllocated_eq (by simp)]
    · obtain ⟨post, rfl⟩ := List.head?_eq_some_iff.1 hmem
      refine ⟨n.addr, ?_, .inr ⟨pre.map Blk.addr, post.map Blk.addr, by simpa using hwalk⟩⟩
      rwa [hB.isAllocated_eq (by simp)]

end Blocks

/-! ### Runs -/

/-- A call keeps the footers exactly if it merges nothing. -/
theorem Valid.footersRight_iff (hV : Valid L w bs fs) (ht : FootersRight L w.heap) {c : Call}
    (hc : c.basic = true) (hp : w.Permits c) (he : w.call L c = .ok w') :
    FootersRight L w'.heap ↔ NoMerge L w c := by
  have htag := hV.blocks.footersRight_iff.1 ht
  cases c with
  | reset =>
    obtain ⟨w₁, he₁, -, -, hV'⟩ := hV.reset
    obtain rfl := Except.ok.inj (he₁.symm.trans he)
    refine iff_of_true (hV'.blocks.footersRight_iff.2 fun b hb => ?_) trivial
    obtain rfl := List.mem_singleton.1 hb
    rfl
  | malloc n =>
    rcases hV.malloc hp with ⟨-, -, h₁, bs', fs', he₁, -⟩ | ⟨w₁, pre, c, post, fs', he₁, hm, -, hV', -⟩
    · exact absurd (he₁.symm.trans he) (by simp)
    · obtain rfl := Except.ok.inj (he₁.symm.trans he)
      rw [hV'.blocks.footersRight_iff, hm.allTagged_iff hV.toWellFormed rfl htag, NoMerge,
        hV.blocks.hasFit_iff, hV.blocks.adjacentFree_iff]
  | free p =>
    by_cases h0 : p = 0
    · subst h0
      obtain rfl := Except.ok.inj (hV.free_null.symm.trans he)
      exact iff_of_true ht fun h => absurd rfl h
    · obtain ⟨pre, b, post, rfl, hb, rfl⟩ := hV.exists_block (hp.resolve_left h0)
      obtain ⟨w₁, bs', fs', he₁, hf, -, -, hV', -⟩ := hV.free_block hb
      obtain rfl := Except.ok.inj (he₁.symm.trans he)
      rw [hV'.blocks.footersRight_iff, hf.allTagged_iff htag, NoMerge, Nat.add_sub_cancel,
        hV.blocks.freeBeside_iff]
      exact ⟨fun h _ => h, fun h => h h0⟩
  | realloc p n => exact absurd hc (by simp [Call.basic])
  | store a v =>
    obtain ⟨w₁, he₁, -, -, hV'⟩ := hV.store hp
    obtain rfl := Except.ok.inj (he₁.symm.trans he)
    exact iff_of_true (hV'.blocks.footersRight_iff.2 htag) trivial

/-- A step without `mm_realloc` is a call that returns. -/
theorem next_basic {c : Call} (hn : ((mmSystem L).restrict Call.basic).next w c = some w') :
    c.basic = true ∧ w.Permits c ∧ w.call L c = .ok w' := by
  obtain ⟨hc, hn⟩ := Option.ite_none_right_eq_some.1 hn
  exact ⟨hc, next_eq_some.1 hn⟩

/-- **When the footers are right.**  A run has all footers in every state exactly
if no call of it merges blocks. -/
theorem footers_iff {w₀ : World} {cs : List Call} (h₀ : (mmSystem L).init w₀)
    (hr : ((mmSystem L).restrict Call.basic).run w₀ cs = some w) :
    (∀ p q, cs = p ++ q → ∀ t, ((mmSystem L).restrict Call.basic).run w₀ p = some t →
        FootersRight L t.heap) ↔
      ∀ p c q, cs = p ++ c :: q → ∀ t, ((mmSystem L).restrict Call.basic).run w₀ p = some t →
        NoMerge L t c := by
  refine System.forall_prefix_iff (S := (mmSystem L).restrict Call.basic)
    (P := fun w => FootersRight L w.heap) (fun t ht => ?_) ?_ h₀ hr
  · refine ht.induct (P := fun w => FootersRight L w.heap) (fun w hi => ?_) ?_
    · obtain ⟨hV, -⟩ := valid_of_init (L := L) hi
      refine hV.blocks.footersRight_iff.2 fun b hb => ?_
      obtain rfl := List.mem_singleton.1 hb
      rfl
    · intro w c w' hw ht hok hn
      obtain ⟨bs, fs, hV⟩ := valid_of_reach hw
      obtain ⟨hc, hp, he⟩ := next_basic hn
      exact (hV.footersRight_iff ht hc hp he).2 hok
  · intro w c w' hw ht hn ht'
    obtain ⟨bs, fs, hV⟩ := valid_of_reach hw
    obtain ⟨hc, hp, he⟩ := next_basic hn
    exact (hV.footersRight_iff ht hc hp he).1 ht'

/-- A run that takes a block and gives it back. -/
theorem footers_iff_free : (((mmSystem .low).restrict Call.basic).run (.first .low fun _ => 7)
      [.malloc 1, .free 148]).isSome ∧
    ∀ w, ((mmSystem .low).restrict Call.basic).run (.first .low fun _ => 7)
        [.malloc 1, .free 148] = some w →
      ((∀ p q, [Call.malloc 1, .free 148] = p ++ q → ∀ t,
          ((mmSystem .low).restrict Call.basic).run (.first .low fun _ => 7) p = some t →
          FootersRight .low t.heap) ↔
        ∀ p c q, [Call.malloc 1, .free 148] = p ++ c :: q → ∀ t,
          ((mmSystem .low).restrict Call.basic).run (.first .low fun _ => 7) p = some t →
          NoMerge .low t c) :=
  ⟨by decide +kernel, fun _ hr => footers_iff (init_first _ _) hr⟩

/-- The block given back is merged with the one behind, and has no footer then. -/
theorem free_loses_footer : ∃ w,
    ((mmSystem .low).restrict Call.basic).run (.first .low fun _ => 7) [.malloc 1, .free 148] =
      some w ∧ ¬FootersRight .low w.heap := by
  have hrun : (((mmSystem .low).restrict Call.basic).run (.first .low fun _ => 7)
      [.malloc 1, .free 148]).isSome := by decide +kernel
  obtain ⟨w, hw⟩ := Option.isSome_iff_exists.1 hrun
  have hfoot : (((mmSystem .low).restrict Call.basic).run (.first .low fun _ => 7)
      [.malloc 1, .free 148]).all (fun w => decide (w.heap.brk = 4232 ∧
        w.heap.read (w.heap.footer 136) ≠ w.heap.blockSize 136)) := by decide +kernel
  rw [hw, Option.all_some, decide_eq_true_eq] at hfoot
  refine ⟨w, hw, ?_⟩
  rintro ⟨as, hwalk, hall⟩
  have htiles := hwalk.tiles
  rw [hfoot.1] at htiles
  cases as with
  | nil =>
    have he : 136 = 4228 := htiles
    exact absurd he (by decide)
  | cons a as =>
    obtain rfl : a = 136 := htiles.1
    exact hfoot.2 (hall 136 List.mem_cons_self)

end MallocLab
end CsappLabs
