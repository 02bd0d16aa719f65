/-
# Growing the heap

`WellFormed L h bs fs` is the invariant of the allocator: the memory holds the
row `bs`, and the list `fs` has exactly the free blocks of the row.

`expand_heap` first tries to coalesce every listed block.  A merge shortens the
list and continues behind the merged block, which may be anywhere in the list;
otherwise the loop moves on.  So the square of the length of the list plus what is
left of it decreases, and the loop ends with what its visits preserve
(`coalesceLoop_rule`).  `Pass` is the loop on rows and lists.  Then the old epilogue
and the memory behind it become a free block (`addBlock_ok`), and so does the first
memory of `mm_init`.
-/

import CsappLabs.MallocLab.Coalesce
import Mathlib.Logic.Relation

namespace CsappLabs
namespace MallocLab

open Lib Lib.CInt Lib.Memory Lib.Tiling Lib.Links

variable {L : Layout} {h h' h'' : Heap} {bs bs' pre post : List Blk} {fs fs' u w : List ℕ}
  {b c : Blk} {a r size : ℕ}

/-- **The invariant**: a row of blocks, and the list of its free blocks. -/
structure WellFormed (L : Layout) (h : Heap) (bs : List Blk) (fs : List ℕ) : Prop
    extends Rep L h bs fs where
  complete : ∀ b ∈ bs, b.alloc = false → b.addr ∈ fs

/-- The allocated blocks. -/
def allocated (bs : List Blk) : List Blk := bs.filter Blk.alloc

/-- The payload areas of the allocated blocks stay as they are. -/
def Preserves (bs : List Blk) (h h' : Heap) : Prop :=
  ∀ b ∈ allocated bs, ∀ i, b.addr + 12 ≤ i → i < b.addr + b.size - 4 → h'.mem i = h.mem i

namespace Preserves

theorem refl (bs : List Blk) (h : Heap) : Preserves bs h h := fun _ _ _ _ _ => rfl

theorem trans (h1 : Preserves bs h h') (h2 : Preserves bs h' h'') : Preserves bs h h'' :=
  fun b hb i hi hi' => (h2 b hb i hi hi').trans (h1 b hb i hi hi')

theorem mono (hp : Preserves bs h h') (hs : ∀ b ∈ allocated bs', b ∈ allocated bs) :
    Preserves bs' h h' := fun b hb => hp b (hs b hb)

end Preserves

theorem outside_congr (he : allocated bs' = allocated bs) : Outside bs' = Outside bs := by
  have hiff : ∀ b, b ∈ bs' ∧ b.alloc = true ↔ b ∈ bs ∧ b.alloc = true := fun b => by
    rw [← List.mem_filter, ← List.mem_filter]
    exact iff_of_eq (congrArg (b ∈ ·) he)
  ext q
  exact forall_congr' fun b => by rw [← and_imp, ← and_imp, hiff]

/-- Writes outside the payload areas preserve them. -/
theorem Blocks.preserves (hB : Blocks L h bs) (hk : Keeps bs h h') : Preserves bs h h' := by
  intro b hb i hi hi'
  obtain ⟨hb, ha⟩ := List.mem_filter.1 hb
  have hbm := hB.mem hb
  refine hk.2 (i - i % 4) (by omega) (fun hout => ?_) i (by omega) (by omega)
  rcases hout b hb ha with hlt | hle <;> omega

/-! ### The pass over the list -/

namespace Coalesced

/-- Merges do not touch the allocated blocks. -/
theorem allocated_eq (hc : Coalesced pre b post fs bs' fs' r) (hb : b.alloc = false) :
    allocated bs' = allocated (pre ++ b :: post) := by
  cases hc with
  | both hp ht hn => simp [allocated, Blk.absorb, hp, hn, hb]
  | prev hp ht hn => simp [allocated, Blk.absorb, hp, hb]
  | next hp hn => simp [allocated, Blk.absorb, hn, hb]
  | none hp hn => rfl

/-- The block returned is `b`, or a listed one that absorbed `b`. -/
theorem result (hc : Coalesced pre b post fs bs' fs' r) (hnd : ((pre ++ b :: post).map Blk.addr).Nodup)
    (hfree : ∀ c ∈ pre ++ post, c.alloc = false → c.addr ∈ fs) :
    r = b.addr ∧ (b.addr ∈ fs' ↔ b.addr ∈ fs) ∨ r ≠ b.addr ∧ r ∈ fs' := by
  rw [List.map_append] at hnd
  cases hc with
  | @both pre p _ n post _ hp ht hn =>
    have hpb : p.addr ≠ b.addr := (List.nodup_append.1 hnd).2.2 _ (by simp) _ (by simp)
    have hpn : p.addr ≠ n.addr := (List.nodup_append.1 hnd).2.2 _ (by simp) _ (by simp)
    have hpf : p.addr ∈ fs := hfree p (by simp) hp
    exact .inr ⟨hpb, (List.mem_erase_of_ne hpb).2 ((List.mem_erase_of_ne hpn).2 hpf)⟩
  | @prev pre p _ post _ hp ht hn =>
    have hpb : p.addr ≠ b.addr := (List.nodup_append.1 hnd).2.2 _ (by simp) _ (by simp)
    exact .inr ⟨hpb, (List.mem_erase_of_ne hpb).2 (hfree p (by simp) hp)⟩
  | @next pre _ n post _ hp hn =>
    have hbn : b.addr ≠ n.addr := fun he =>
      (List.nodup_cons.1 (List.nodup_append.1 hnd).2.1).1 (by simp [he])
    exact .inl ⟨rfl, List.mem_erase_of_ne hbn⟩
  | none hp hn => exact .inl ⟨rfl, Iff.rfl⟩

/-- The other free blocks stay listed. -/
theorem complete (hc : Coalesced pre b post fs bs' fs' r)
    (hnd : ((pre ++ b :: post).map Blk.addr).Nodup)
    (hfree : ∀ c ∈ pre ++ post, c.alloc = false → c.addr ∈ fs) :
    ∀ c ∈ bs', c.alloc = false → c.addr = r ∨ c.addr ∈ fs' := by
  intro c hcm hcf
  rw [List.map_append] at hnd
  obtain ⟨-, hpost, hapart⟩ := List.nodup_append.1 hnd
  have hpre : ∀ d ∈ pre, ∀ e ∈ b :: post, d.addr ≠ e.addr := fun d hd e he =>
    hapart _ (List.mem_map_of_mem hd) _ (List.mem_map_of_mem he)
  obtain ⟨hb, htail⟩ := List.nodup_cons.1 hpost
  have hbne : ∀ d ∈ post, d.addr ≠ b.addr := fun d hd he => hb (he ▸ List.mem_map_of_mem hd)
  cases hc with
  | @both pre p _ n post _ hp ht hn =>
    have hnne : ∀ d ∈ post, d.addr ≠ n.addr := fun d hd he =>
      (List.nodup_cons.1 htail).1 (he ▸ List.mem_map_of_mem hd)
    simp only [List.mem_append, List.mem_cons] at hcm
    rcases hcm with hcm | rfl | hcm
    · have hcf' : c.addr ∈ fs := hfree c (by simp [hcm]) hcf
      have hcn := (List.mem_erase_of_ne (hpre c (by simp [hcm]) n (by simp))).2 hcf'
      exact .inr ((List.mem_erase_of_ne (hpre c (by simp [hcm]) b (by simp))).2 hcn)
    · exact .inl rfl
    · have hcf' : c.addr ∈ fs := hfree c (by simp [hcm]) hcf
      have hcn := (List.mem_erase_of_ne (hnne c hcm)).2 hcf'
      exact .inr ((List.mem_erase_of_ne (hbne c (by simp [hcm]))).2 hcn)
  | @prev pre p _ post _ hp ht hn =>
    simp only [List.mem_append, List.mem_cons] at hcm
    rcases hcm with hcm | rfl | hcm
    · exact .inr ((List.mem_erase_of_ne (hpre c (by simp [hcm]) b (by simp))).2
        (hfree c (by simp [hcm]) hcf))
    · exact .inl rfl
    · exact .inr ((List.mem_erase_of_ne (hbne c hcm)).2 (hfree c (by simp [hcm]) hcf))
  | @next pre _ n post _ hp hn =>
    have hnne : ∀ d ∈ post, d.addr ≠ n.addr := fun d hd he =>
      (List.nodup_cons.1 htail).1 (he ▸ List.mem_map_of_mem hd)
    simp only [List.mem_append, List.mem_cons] at hcm
    rcases hcm with hcm | rfl | hcm
    · exact .inr ((List.mem_erase_of_ne (hpre c hcm n (by simp))).2
        (hfree c (by simp [hcm]) hcf))
    · exact .inl rfl
    · exact .inr ((List.mem_erase_of_ne (hnne c hcm)).2 (hfree c (by simp [hcm]) hcf))
  | none hp hn =>
    simp only [List.mem_append, List.mem_cons] at hcm
    rcases hcm with hcm | rfl | hcm
    · exact .inr (hfree c (by simp [hcm]) hcf)
    · exact .inl rfl
    · exact .inr (hfree c (by simp [hcm]) hcf)

/-- The list gets shorter unless nothing happens. -/
theorem length_lt (hc : Coalesced pre b post fs bs' fs' r)
    (hfree : ∀ c ∈ pre ++ post, c.alloc = false → c.addr ∈ fs) (hbf : b.addr ∈ fs) :
    fs'.length < fs.length ∨ bs' = pre ++ b :: post ∧ fs' = fs ∧ r = b.addr := by
  cases hc with
  | @both pre p _ n post _ hp ht hn =>
    have hnf : n.addr ∈ fs := hfree n (by simp) hn
    have h1 := List.length_erase_of_mem hnf
    have h2 := (List.erase_sublist (a := b.addr) (l := fs.erase n.addr)).length_le
    have h3 := List.length_pos_of_mem hbf
    exact .inl (by omega)
  | @prev pre p _ post _ hp ht hn =>
    have h1 := List.length_erase_of_mem hbf
    have h2 := List.length_pos_of_mem hbf
    exact .inl (by omega)
  | @next pre _ n post _ hp hn =>
    have h1 := List.length_erase_of_mem (hfree n (by simp) hn)
    have h2 := List.length_pos_of_mem hbf
    exact .inl (by omega)
  | none hp hn => exact .inr ⟨rfl, rfl, rfl⟩

end Coalesced

/-- The part of the list behind a node. -/
def behind (r : ℕ) (fs : List ℕ) : List ℕ := (fs.dropWhile (· != r)).tail

theorem behind_append (hr : r ∉ u) : behind r (u ++ r :: w) = w := by
  induction u with
  | nil => simp [behind]
  | cons x u ih =>
    obtain ⟨hx, hu⟩ := not_or.1 (mt List.mem_cons.2 hr)
    have hne : (x != r) = true := bne_iff_ne.2 (Ne.symm hx)
    rw [behind, List.cons_append, List.dropWhile_cons, if_pos hne]
    exact ih hu

theorem exists_behind (hr : r ∈ fs) : ∃ u, fs = u ++ r :: behind r fs := by
  obtain ⟨u, w, rfl, hu⟩ := List.eq_append_cons_of_mem hr
  exact ⟨u, by rw [behind_append hu]⟩

/-- The loop of `expand_heap` on rows and lists: `w` is the part of the list
that is left. -/
inductive Pass : List Blk → List ℕ → List ℕ → List Blk → List ℕ → Prop
  | done {bs : List Blk} {fs : List ℕ} : Pass bs fs [] bs fs
  | step {pre : List Blk} {b : Blk} {post : List Blk} {fs w : List ℕ} {bs' : List Blk}
    {fs' : List ℕ} {r : ℕ} {bs'' : List Blk} {fs'' : List ℕ} :
    b.alloc = false → Coalesced pre b post fs bs' fs' r → Pass bs' fs' (behind r fs') bs'' fs'' →
      Pass (pre ++ b :: post) fs (b.addr :: w) bs'' fs''

theorem Pass.allocated_eq (hp : Pass bs fs w bs' fs') : allocated bs' = allocated bs := by
  induction hp with
  | done => rfl
  | step hb hc _ ih => exact ih.trans (hc.allocated_eq hb)

/-- `coalesce` makes no new addresses. -/
theorem Coalesced.addr_sublist (hc : Coalesced pre b post fs bs' fs' r) :
    (bs'.map Blk.addr).Sublist ((pre ++ b :: post).map Blk.addr) := by
  cases hc with
  | @both pre p _ n post _ hp ht hn =>
    simp only [List.map_append, List.map_cons, List.append_assoc, List.singleton_append]
    exact (List.Sublist.refl _).append (((List.sublist_cons_self ..).trans
      (List.sublist_cons_self ..)).cons_cons p.addr)
  | @prev pre p _ post _ hp ht hn =>
    simp only [List.map_append, List.map_cons, List.append_assoc, List.singleton_append]
    exact (List.Sublist.refl _).append ((List.sublist_cons_self ..).cons_cons p.addr)
  | @next pre _ n post _ hp hn =>
    simp only [List.map_append, List.map_cons]
    exact (List.Sublist.refl _).append ((List.sublist_cons_self ..).cons_cons b.addr)
  | none hp hn => exact List.Sublist.refl _

theorem Pass.addr_sublist (hp : Pass bs fs w bs' fs') :
    (bs'.map Blk.addr).Sublist (bs.map Blk.addr) := by
  induction hp with
  | done => exact List.Sublist.refl _
  | step hb hc _ ih => exact ih.trans hc.addr_sublist

namespace WellFormed

theorem nodup_list (hW : WellFormed L h bs fs) : fs.Nodup :=
  (List.nodup_cons.1 hW.listed.nodup).2

theorem head_not_mem (hW : WellFormed L h bs fs) : L.head ∉ fs :=
  (List.nodup_cons.1 hW.listed.nodup).1

/-- A listed address is that of a free block. -/
theorem exists_split (hW : WellFormed L h bs fs) (ha : a ∈ fs) :
    ∃ pre b post, bs = pre ++ b :: post ∧ b.addr = a ∧ b.alloc = false := by
  obtain ⟨b, hb, rfl, hfree⟩ := hW.free a ha
  obtain ⟨pre, post, rfl⟩ := List.append_of_mem hb
  exact ⟨pre, b, post, rfl, rfl, hfree⟩

theorem complete_rest (hW : WellFormed L h (pre ++ b :: post) fs) :
    ∀ c ∈ pre ++ post, c.alloc = false → c.addr ∈ fs := by
  intro c hc
  refine hW.complete c ?_
  rcases List.mem_append.1 hc with hc | hc
  · simp [hc]
  · simp [hc]

/-- `coalesce` of a listed block keeps the invariant. -/
theorem coalesce_listed (hW : WellFormed L h (pre ++ b :: post) fs) (hb : b.alloc = false) :
    ∃ bs' fs', Coalesced pre b post fs bs' fs' (coalesce L h b.addr false).2 ∧
      WellFormed L (coalesce L h b.addr false).1 bs' fs' ∧
      (coalesce L h b.addr false).2 ∈ fs' ∧
      Keeps (pre ++ b :: post) h (coalesce L h b.addr false).1 := by
  have hfree := hW.complete_rest
  have hbf : b.addr ∈ fs := hW.complete b (by simp) hb
  have hflag : false = true ↔ b.addr ∉ fs := by simp [hbf]
  obtain ⟨bs', fs', hc, hR, hk⟩ := coalesce_rep hW.toRep hb hfree hflag
  have hnd := hW.blocks.nodup
  have hr : (coalesce L h b.addr false).2 ∈ fs' := by
    rcases hc.result hnd hfree with ⟨hr, hiff⟩ | ⟨-, hr⟩
    · rw [hr]
      exact hiff.2 hbf
    · exact hr
  refine ⟨bs', fs', hc, ⟨hR, fun c hcm hcf => ?_⟩, hr, hk⟩
  rcases hc.complete hnd hfree c hcm hcf with he | hm
  · exact he ▸ hr
  · exact hm

/-- The link to the rest of the list. -/
theorem next_eq (hW : WellFormed L h bs (u ++ a :: w)) :
    h.next a = (w ++ [L.head]).head (by simp) :=
  (seg_append.1 hW.listed.ring).2.nxt_eq

end WellFormed

/-- **The loop of `expand_heap` ends.**  What every visit of the list preserves holds
then; `w` is the part of the list that is left. -/
theorem coalesceLoop_rule {Q : List Blk → List ℕ → List ℕ → Prop} {fuel : ℕ}
    (hstep : ∀ {h h' pre b post u w bs' fs' r},
      WellFormed L h (pre ++ b :: post) (u ++ b.addr :: w) → b.alloc = false →
      Coalesced pre b post (u ++ b.addr :: w) bs' fs' r → WellFormed L h' bs' fs' →
      Q (pre ++ b :: post) (u ++ b.addr :: w) (b.addr :: w) → Q bs' fs' (behind r fs'))
    (hW : WellFormed L h bs (u ++ w)) (hQ : Q bs (u ++ w) w)
    (hfuel : (u ++ w).length * (u ++ w).length + w.length < fuel) :
    ∃ h' bs' fs', coalesceLoop L fuel h ((w ++ [L.head]).head (by simp)) = .ok h' ∧
      Q bs' fs' [] ∧ WellFormed L h' bs' fs' ∧ Keeps bs h h' := by
  induction fuel generalizing h bs u w with
  | zero => omega
  | succ fuel ih =>
    cases w with
    | nil => exact ⟨h, bs, u ++ [], if_pos rfl, hQ, hW, .refl _ _⟩
    | cons a w =>
      have ha : a ∈ u ++ a :: w := by simp
      have hhead : a ≠ L.head := fun he => hW.head_not_mem (he ▸ ha)
      obtain ⟨pre, b, post, rfl, rfl, hb⟩ := hW.exists_split ha
      have hbm := hW.blocks.mem (b := b) (by simp)
      have hbu : b.addr ∉ u := fun hm =>
        (List.nodup_append.1 hW.nodup_list).2.2 _ hm b.addr (by simp) rfl
      obtain ⟨bs', fs', hc, hW', hr, hk⟩ := hW.coalesce_listed hb
      have hQ' := hstep hW hb hc hW' hQ
      obtain ⟨u', hu'⟩ := exists_behind hr
      rw [hu'] at hW'
      -- the measure decreases
      have hbound : fs'.length * fs'.length +
          (behind (coalesce L h b.addr false).2 fs').length < fuel := by
        simp only [List.length_cons] at hfuel
        rcases hc.length_lt hW.complete_rest ha with hlt | ⟨-, rfl, hr'⟩
        · have hle : (behind (coalesce L h b.addr false).2 fs').length ≤ fs'.length := by
            have := congrArg List.length hu'
            simp only [List.length_append, List.length_cons] at this
            omega
          have hsq := Nat.mul_le_mul (Nat.succ_le_of_lt hlt) hlt.le
          rw [Nat.succ_mul] at hsq
          have := Nat.mul_le_mul_left (u ++ b.addr :: w).length hlt.le
          omega
        · rw [hr', behind_append hbu]
          omega
      obtain ⟨h'', bs'', fs'', hloop, hQ'', hW'', hk'⟩ :=
        ih (u := u' ++ [(coalesce L h b.addr false).2])
          (w := behind (coalesce L h b.addr false).2 fs') (by simpa using hW')
          (by simpa [← hu'] using hQ') (by simpa [← hu'] using hbound)
      refine ⟨h'', bs'', fs'', ?_, hQ'', hW'', ?_⟩
      · rw [← hloop, ← hW'.next_eq]
        show coalesceLoop L (fuel + 1) h b.addr = _
        rw [coalesceLoop, if_neg hhead, if_neg (by omega)]
      · exact hk.trans (hk'.mono (outside_congr (hc.allocated_eq hb)).subset)

/-! ### The new block -/

/-- The end of `expand_heap`: the new block and the epilogue behind it. -/
def placeBlock (L : Layout) (h : Heap) (block size : ℕ) : Heap :=
  let h := h.setSize block size
  let h := h.write (h.footer block) (h.blockSize block)
  let h := insertToList h block L.head
  let epilogue := add32 block (h.blockSize block)
  let h := h.setSize epilogue 0
  h.setAllocated epilogue

/-- The block of the memory from the old epilogue to the new one. -/
def newBlock (brk size : ℕ) : Blk := ⟨brk - 4, size, false, true⟩

/-- The blocks that the loop leaves are below the new block. -/
theorem Pass.addr_lt (hp : Pass bs fs w bs' fs') (hB : Blocks L h bs) (hb : b ∈ bs') :
    b.addr < h.brk - 4 := by
  obtain ⟨c, hc, he⟩ := List.mem_map.1 (hp.addr_sublist.subset (List.mem_map_of_mem hb))
  have hcm := hB.mem hc
  omega

theorem Pass.nodup_newBlock (hp : Pass bs fs w bs' fs') (hB : Blocks L h bs) (size : ℕ) :
    ((bs' ++ [newBlock h.brk size]).map Blk.addr).Nodup := by
  rw [List.map_append]
  refine List.nodup_append.2 ⟨hB.nodup.sublist hp.addr_sublist, by simp, fun x hx y hy => ?_⟩
  obtain ⟨b, hb, rfl⟩ := List.mem_map.1 hx
  obtain rfl : y = h.brk - 4 := by simpa [newBlock] using hy
  exact (hp.addr_lt hB hb).ne

/-- Writes behind the break change nothing. -/
theorem WellFormed.frame (hW : WellFormed L h bs fs) {W : Set ℕ} (hw : Within W h h')
    (hout : ∀ q ∈ W, 4 ∣ q → h.brk ≤ q ∧ q < L.memStart + MAX_HEAP) : WellFormed L h' bs fs := by
  have hbrk := hW.blocks.brk
  have hap := L.head_apart
  refine ⟨⟨hW.blocks.frame hw fun q hq hq4 ht => ?_, hW.listed.frame hw ?_, hW.free⟩, hW.complete⟩
  · have := hout q hq hq4
    rcases ht with ht | ht | ht | ⟨b, hb, ht⟩
    · omega
    · omega
    · omega
    · have := hW.blocks.mem hb
      omega
  · rintro q hq hq4 ⟨a, ha, hqa⟩
    have := hout q hq hq4
    have hhead := L.head_dvd
    have hstart := L.start_dvd
    rcases List.mem_cons.1 ha with rfl | ha
    · omega
    · obtain ⟨b, hb, rfl, -⟩ := hW.free a ha
      have := hW.blocks.mem hb
      omega

/-- `placeBlock` writes the tags of the new block, inserts it, and writes the epilogue. -/
theorem placeBlock_eq {g : Heap} (h4 : 4 ∣ a) (hs : 4 ∣ size) (h16 : 16 ≤ size)
    (hlt : a + size < 2 ^ 32)
    (hhead : (insertToList ((g.write a size).write (a + size - 4) size) a L.head).read a = size) :
    placeBlock L g a size =
      (insertToList ((g.write a size).write (a + size - 4) size) a L.head).write (a + size) 1 := by
  have hread₁ : (g.setSize a size).read a = size := Heap.read_write_self (by omega)
  have hsz₁ : (g.setSize a size).blockSize a = size := Heap.blockSize_of_read hread₁ hs
  have hft₁ : (g.setSize a size).footer a = a + size - 4 :=
    Heap.footer_of_read hread₁ hs (by omega) (by omega)
  have hsz₃ := Heap.blockSize_of_read hhead hs
  have hepi : ∀ k : Heap, (k.setSize (a + size) 0).setAllocated (a + size) =
      k.write (a + size) 1 := fun k => by
    have hz : (k.setSize (a + size) 0).size (a + size) = 0 := Heap.read_write_self (by norm_num)
    rw [Heap.setAllocated, hz]
    exact Heap.write_write ..
  rw [placeBlock]
  simp only [hsz₁, hft₁]
  generalize hk : insertToList ((g.write a size).write (a + size - 4) size) a L.head = k at hsz₃
  have hk' : insertToList ((g.setSize a size).write (a + size - 4) size) a L.head = k := hk
  rw [hk', hsz₃, add32_of_lt hlt, hepi]

/-- What `placeBlock` leaves behind in the memory, `a` being the old epilogue. -/
theorem WellFormed.placeBlock_spec (hW : WellFormed L h bs fs) (hs : 4 ∣ size) (h16 : 16 ≤ size)
    (hmax : h.brk + size ≤ L.memStart + MAX_HEAP) (ha : h.brk = a + 4) :
    let k := placeBlock L { h with brk := h.brk + size } a size
    k.brk = h.brk + size ∧ Listed L k (a :: fs) ∧
      (k.read a = size ∧ k.read (a + size - 4) = size ∧ k.read (a + size) = 1) ∧
      ∀ q, 4 ∣ q → q + 4 ≤ a → q ∉ LinkWord (L.head :: fs) → ∀ i, q ≤ i → i < q + 4 →
        k.mem i = h.mem i := by
  intro k
  have hB := hW.blocks
  have hbrk := hB.brk
  have hbd := hB.brk_dvd
  have hlt := L.heap_lt
  have hap := L.head_apart
  have hstart := L.start_dvd
  have hhead := L.head_dvd
  have hnode : Node a := ⟨by omega, by omega⟩
  have hfar : ∀ x ∈ L.head :: fs, 4 ∣ x ∧ (x + 12 ≤ a ∨ a + size + 4 ≤ x) := by
    intro x hx
    rcases List.mem_cons.1 hx with rfl | hx
    · exact ⟨hhead, by omega⟩
    · obtain ⟨b, hb, rfl, -⟩ := hW.free x hx
      have := hB.mem hb
      exact ⟨this.1, by omega⟩
  have hanew : a ∉ L.head :: fs := fun hm => by
    have := hfar a hm
    omega
  have haapart : ∀ x ∈ L.head :: fs, Apart a x := fun x hx => by
    rcases (hfar x hx).2 with h | h
    · exact .inr (.inr h)
    · exact .inr (.inl (by omega))
  -- the tags of the new block
  let g : Heap := { h with brk := h.brk + size }
  let h₂ : Heap := (g.write a size).write (a + size - 4) size
  have hw₂ : Within {q | q = a ∨ q = a + size - 4} g h₂ := by
    exact .write_mem (.write_mem (.refl _ g) hnode.1 (.inl rfl)) (by omega) (.inr rfl)
  have hl₂ : Listed L h₂ fs := by
    have hl : Listed L g fs :=
      ⟨hW.listed.ring, hW.listed.nodup, hW.listed.node, hW.listed.apart⟩
    refine hl.frame hw₂ ?_
    rintro q hq hq4 ⟨x, hx, hqx⟩
    have := hfar x hx
    rcases hq with rfl | rfl <;> omega
  -- the list with the new block
  let h₃ : Heap := insertToList h₂ a L.head
  have hl₃ : Listed L h₃ (a :: fs) := hl₂.insert_front hnode hanew haapart
  have hw₃ : Within (LinkWord (a :: L.head :: fs)) h₂ h₃ :=
    hl₂.within_insert List.mem_cons_self hnode hanew haapart
  have hread₃ : ∀ q, 4 ∣ q → (q = a ∨ q = a + size - 4) → h₃.read q = h₂.read q := by
    rintro q hq4 hq
    refine hw₃.read hq4 ?_
    rintro ⟨x, hx, hqx⟩
    rcases List.mem_cons.1 hx with rfl | hx
    · omega
    · have := hfar x hx
      omega
  have hhead₃ : h₃.read a = size := by
    rw [hread₃ a hnode.1 (.inl rfl), Heap.read_write_of_ne (by omega) hnode.1 (by omega),
      Heap.read_write_self (by omega)]
  have hfoot₃ : h₃.read (a + size - 4) = size := by
    rw [hread₃ _ (by omega) (.inr rfl), Heap.read_write_self (by omega)]
  -- the epilogue
  have hw₄ : Within {a + size} h₃ (h₃.write (a + size) 1) := Within.write (by omega)
  have hk : k = h₃.write (a + size) 1 := placeBlock_eq hnode.1 hs h16 (by omega) hhead₃
  rw [hk]
  clear_value h₂ h₃
  have hkbrk : h₃.brk = h.brk + size := hw₃.1.trans hw₂.1
  have hkepi : (h₃.write (a + size) 1).read (a + size) = 1 := Heap.read_write_self (by norm_num)
  refine ⟨hkbrk, hl₃.frame hw₄ ?_, ⟨?_, ?_, hkepi⟩, ?_⟩
  · rintro q rfl - ⟨x, hx, hqx⟩
    rcases List.mem_cons.1 hx with rfl | hx
    · have := hfar L.head (by simp)
      omega
    · rcases List.mem_cons.1 hx with rfl | hx
      · omega
      · have := hfar x (List.mem_cons_of_mem _ hx)
        omega
  · exact (Heap.read_write_of_ne (by omega) hnode.1 (by omega)).trans hhead₃
  · exact (Heap.read_write_of_ne (by omega) (by omega) (by omega)).trans hfoot₃
  · intro q hq4 hqa hlink i hi hi'
    have hn₄ : q ∉ ({a + size} : Set ℕ) := fun hm => by
      have : q = a + size := hm
      omega
    have hn₃ : q ∉ LinkWord (a :: L.head :: fs) := by
      rintro ⟨x, hx, hqx⟩
      rcases List.mem_cons.1 hx with rfl | hx
      · omega
      · exact hlink ⟨x, hx, hqx⟩
    have hn₂ : q ∉ {q | q = a ∨ q = a + size - 4} := by
      rintro (hm | hm) <;> omega
    exact (hw₄.2 q hq4 hn₄ i hi hi').trans ((hw₃.2 q hq4 hn₃ i hi hi').trans
      (hw₂.2 q hq4 hn₂ i hi hi'))

/-- **A new block at the end of the heap.** -/
theorem WellFormed.extend (hW : WellFormed L h bs fs) (hs : 4 ∣ size) (h16 : 16 ≤ size)
    (hmax : h.brk + size ≤ L.memStart + MAX_HEAP) :
    WellFormed L (placeBlock L { h with brk := h.brk + size } (h.brk - 4) size)
        (bs ++ [newBlock h.brk size]) ((h.brk - 4) :: fs) ∧
      Preserves bs h (placeBlock L { h with brk := h.brk + size } (h.brk - 4) size) ∧
      (placeBlock L { h with brk := h.brk + size } (h.brk - 4) size).brk = h.brk + size := by
  have hB := hW.blocks
  have hbrk := hB.brk
  have hstart := L.start_dvd
  obtain ⟨a, hbrka⟩ : ∃ a, h.brk = a + 4 := ⟨h.brk - 4, by omega⟩
  have ha : h.brk - 4 = a := by omega
  rw [newBlock, ha]
  obtain ⟨hkbrk, hl, ⟨hhead, hfoot, hepi⟩, hbytes⟩ := hW.placeBlock_spec hs h16 hmax hbrka
  -- the old tags are not written
  have hold : ∀ q, 4 ∣ q → Blocks.Tag L h bs q → q + 4 ≤ a →
      (placeBlock L { h with brk := h.brk + size } a size).read q = h.read q := by
    intro q hq4 ht hqa
    refine load_congr (hbytes q hq4 hqa fun hlink => hB.link_not_tag (fun y hy => ?_) hlink ht)
    rcases List.mem_cons.1 hy with rfl | hy
    · exact .inl rfl
    · exact hW.inner hy
  refine ⟨⟨⟨⟨?_, ?_, ?_, ?_, ?_, ?_⟩, hl, ?_⟩, ?_⟩, ?_, hkbrk⟩
  · omega
  · rw [hkbrk]
    refine tiles_append.2 ⟨a, ha ▸ hB.row, rfl, ?_⟩
    show a + size = h.brk + size - 4
    omega
  · intro b hb
    rcases List.mem_append.1 hb with hb | hb
    · exact hB.sized b hb
    · obtain rfl := List.mem_singleton.1 hb
      exact ⟨hs, h16⟩
  · intro b hb
    rcases List.mem_append.1 hb with hb | hb
    · have hbm := hB.mem hb
      obtain ⟨hh, hf⟩ := hB.tagged b hb
      exact ⟨(hold _ hbm.1 (.inr (.inr (.inr ⟨b, hb, .inl rfl⟩))) (by omega)).trans hh,
        (hold _ (by omega) (.inr (.inr (.inr ⟨b, hb, .inr rfl⟩))) (by omega)).trans hf⟩
    · obtain rfl := List.mem_singleton.1 hb
      exact ⟨hhead, hfoot⟩
  · exact ⟨(hold _ hstart (.inl rfl) (by omega)).trans hB.prologue.1,
      (hold _ (by omega) (.inr (.inl rfl)) (by omega)).trans hB.prologue.2⟩
  · rw [hkbrk, show h.brk + size - 4 = a + size by omega]
    exact hepi
  · intro x hx
    rcases List.mem_cons.1 hx with rfl | hx
    · exact ⟨⟨x, size, false, true⟩, by simp, rfl, rfl⟩
    · obtain ⟨b, hb, hbx⟩ := hW.free x hx
      exact ⟨b, by simp [hb], hbx⟩
  · intro b hb hf
    rcases List.mem_append.1 hb with hb | hb
    · exact List.mem_cons_of_mem _ (hW.complete b hb hf)
    · obtain rfl := List.mem_singleton.1 hb
      exact List.mem_cons_self
  · intro b hb i hi hi'
    obtain ⟨hb, halloc⟩ := List.mem_filter.1 hb
    have hbm := hB.mem hb
    refine hbytes (i - i % 4) (by omega) (by omega) (fun hlink => ?_) i (by omega) (by omega)
    have hout := hW.link_outside hlink b hb halloc
    omega

/-! ### `expand_heap` -/

/-- There is memory for `size` more bytes behind the break `brk`. -/
def Room (L : Layout) (brk size : ℕ) : Prop :=
  size < 2 ^ 31 ∧ brk + size ≤ L.memStart + MAX_HEAP

instance (L : Layout) (brk size : ℕ) : Decidable (Room L brk size) :=
  inferInstanceAs (Decidable (size < 2 ^ 31 ∧ brk + size ≤ L.memStart + MAX_HEAP))

/-- The sum of the break and `size` wraps, so that `mem_sbrk` does not see that there is no
memory. -/
def Wraps (brk size : ℕ) : Prop := size < 2 ^ 31 ∧ 2 ^ 32 ≤ brk + size

instance (brk size : ℕ) : Decidable (Wraps brk size) :=
  inferInstanceAs (Decidable (size < 2 ^ 31 ∧ 2 ^ 32 ≤ brk + size))

/-- How `expand_heap` ends without memory for `size` bytes. -/
def Heap.shortage (h : Heap) (size : ℕ) : Fault :=
  if Wraps h.brk size then .overrun h else .exit h

/-- The ways to end without memory. -/
inductive Fault.NoMemory : Fault → Prop
  | exit (h : Heap) : NoMemory (.exit h)
  | overrun (h : Heap) : NoMemory (.overrun h)

theorem noMemory_shortage (h : Heap) (size : ℕ) : (h.shortage size).NoMemory := by
  unfold Heap.shortage
  split_ifs
  · exact .overrun h
  · exact .exit h

theorem Room.not_wraps {brk : ℕ} (hr : Room L brk size) : ¬Wraps brk size := fun hw => by
  have := L.heap_lt
  have := hr.2
  have := hw.2
  omega

/-- `mem_sbrk` moves the break, if there is memory. -/
theorem memSbrk_eq_some (hr : Room L h.brk size) :
    memSbrk L h size = some ({ h with brk := h.brk + size }, h.brk) := by
  have hsum : add32 h.brk size = h.brk + size :=
    add32_of_lt (by have := L.heap_lt; have := hr.2; omega)
  rw [memSbrk, hsum]
  exact if_neg (not_or.2 ⟨not_le.2 hr.1, not_lt.2 hr.2⟩)

/-- **When `mem_sbrk` fails**: there is no memory, and the sum does not wrap. -/
theorem memSbrk_eq_none_iff (hbrk : h.brk ≤ L.memStart + MAX_HEAP) :
    memSbrk L h size = none ↔ ¬Room L h.brk size ∧ ¬Wraps h.brk size := by
  have hheap := L.heap_lt
  have hsum : add32 h.brk size = (h.brk + size) % 2 ^ 32 := rfl
  simp only [memSbrk, ite_eq_left_iff, reduceCtorEq, imp_false, not_not, Room, Wraps]
  omega

/-- `expand_heap` after its loop, as `placeBlock`. -/
theorem addBlock_eq {g : Heap} {p : ℕ} (hs : memSbrk L h size = some (g, p))
    (hin : p + size ≤ L.memStart + MAX_HEAP) :
    let h₁ : Heap := { g with mem := g.mem.fill p 0 size }
    let atEpilogue := h₁.isAllocated (sub32 h.brk 4) ∧ h₁.blockSize (sub32 h.brk 4) = 0
    addBlock L h size = .ok (placeBlock L h₁ (if atEpilogue then sub32 h.brk 4 else p)
      (sub32 (if atEpilogue then add32 size 4 else size) 4)) := by
  intro h₁ atEpilogue
  simp only [addBlock, hs, placeBlock, h₁, atEpilogue, if_neg (not_lt.2 hin)]

/-- `expand_heap` after its loop, when there is no memory. -/
theorem addBlock_shortage (hbrk : h.brk ≤ L.memStart + MAX_HEAP) (hr : ¬Room L h.brk size) :
    addBlock L h size = .error (h.shortage size) := by
  by_cases hw : Wraps h.brk size
  · obtain ⟨x, hx⟩ := Option.ne_none_iff_exists'.1 fun hnone =>
      ((memSbrk_eq_none_iff hbrk).1 hnone).2 hw
    obtain ⟨-, he⟩ := Option.ite_none_left_eq_some.1 hx
    obtain rfl := Option.some.inj he
    have hout : L.memStart + MAX_HEAP < h.brk + size := L.heap_lt.trans_le hw.2
    simp only [addBlock, hx, if_pos hout, Heap.shortage, if_pos hw]
  · simp only [addBlock, (memSbrk_eq_none_iff hbrk).2 ⟨hr, hw⟩, Heap.shortage, if_neg hw]

/-- **`expand_heap` after its loop** adds a block, or there is no memory left. -/
theorem addBlock_ok (hW : WellFormed L h bs fs) (hs : 4 ∣ size) (h16 : 16 ≤ size) :
    ¬Room L h.brk size ∧ addBlock L h size = .error (h.shortage size) ∨
      Room L h.brk size ∧ ∃ h', addBlock L h size = .ok h' ∧ h'.brk = h.brk + size ∧
        WellFormed L h' (bs ++ [newBlock h.brk size]) ((h.brk - 4) :: fs) ∧
        Preserves bs h h' := by
  by_cases hr : Room L h.brk size
  · have hsb := memSbrk_eq_some hr
    obtain ⟨h31, hmax⟩ := id hr
    have hbrk := hW.blocks.brk
    have hheap := L.heap_lt
    -- the memory is cleared
    let g : Heap := { h with mem := h.mem.fill h.brk 0 size }
    have hw : Within {q | h.brk ≤ q ∧ q < h.brk + size} h g := by
      have hbd := hW.blocks.brk_dvd
      refine ⟨rfl, fun q hq hn i hi hi' => fill_of_not_mem ?_⟩
      simp only [Set.mem_ofPred_eq, not_and_or, not_le, not_lt] at hn
      omega
    have hWg : WellFormed L g bs fs := 
      hW.frame hw fun q hq _ => ⟨hq.1, lt_of_lt_of_le hq.2 hmax⟩
    have hlast : sub32 h.brk 4 = h.brk - 4 := sub32_of_le (by omega) (by omega)
    have hepi : g.read (h.brk - 4) = 1 := hWg.blocks.epilogue
    have hat : ({ g with brk := h.brk + size } : Heap).isAllocated (h.brk - 4) ∧
        ({ g with brk := h.brk + size } : Heap).blockSize (h.brk - 4) = 0 := by
      constructor
      · show decide (g.read (h.brk - 4) % 2 = 1) = true
        rw [hepi]
        rfl
      · show alignDown 2 (g.read (h.brk - 4)) = 0
        rw [hepi]
        rfl
    obtain ⟨hWF, hpres, hkbrk⟩ := hWg.extend hs h16 hmax
    have hfour : add32 size 4 = size + 4 := add32_of_lt (by omega)
    have hadd := addBlock_eq hsb hmax
    simp only at hadd
    rw [hlast, if_pos hat, if_pos hat, hfour, sub32_of_le (by omega) (by omega),
      Nat.add_sub_cancel] at hadd
    have hout : {q | h.brk ≤ q ∧ q < h.brk + size} ⊆ Outside bs := fun q hq =>
      hW.blocks.outside_heap (.inr (Nat.le_add_right_of_le hq.1))
    exact .inr ⟨hr, _, hadd, hkbrk, hWF, (hW.blocks.preserves (hw.mono hout)).trans hpres⟩
  · exact .inl ⟨hr, addBlock_shortage hW.blocks.brk.2 hr⟩

/-- The free list is short. -/
theorem WellFormed.length_le (hW : WellFormed L h bs fs) : 16 * fs.length ≤ MAX_HEAP := by
  have hbs := hW.blocks.row.length_le fun x hx => (hW.blocks.sized x hx).2
  have hbrk := hW.blocks.brk
  have hsub : fs.length ≤ (bs.map Blk.addr).length := by
    refine (List.subperm_of_subset hW.nodup_list fun a ha => ?_).length_le
    obtain ⟨b, hb, rfl, -⟩ := hW.free a ha
    exact List.mem_map_of_mem hb
  rw [List.length_map] at hsub
  omega

/-- The loop over the whole list. -/
theorem WellFormed.pass_rule {Q : List Blk → List ℕ → List ℕ → Prop}
    (hW : WellFormed L h bs fs)
    (hstep : ∀ {h h' pre b post u w bs' fs' r},
      WellFormed L h (pre ++ b :: post) (u ++ b.addr :: w) → b.alloc = false →
      Coalesced pre b post (u ++ b.addr :: w) bs' fs' r → WellFormed L h' bs' fs' →
      Q (pre ++ b :: post) (u ++ b.addr :: w) (b.addr :: w) → Q bs' fs' (behind r fs'))
    (hQ : Q bs fs fs) :
    ∃ h' bs' fs', coalesceLoop L (MAX_HEAP * MAX_HEAP) h (h.next L.head) = .ok h' ∧
      Q bs' fs' [] ∧ WellFormed L h' bs' fs' ∧ Keeps bs h h' := by
  have hlen := hW.length_le
  have hfuel : ([] ++ fs).length * ([] ++ fs).length + fs.length < MAX_HEAP * MAX_HEAP := by
    have hmax : MAX_HEAP = 20971520 := by norm_num
    have hlt : fs.length + 1 < MAX_HEAP := by omega
    calc ([] ++ fs).length * ([] ++ fs).length + fs.length = fs.length * (fs.length + 1) := by
          rw [List.nil_append, Nat.mul_succ]
      _ ≤ fs.length * MAX_HEAP := Nat.mul_le_mul_left _ hlt.le
      _ < MAX_HEAP * MAX_HEAP := Nat.mul_lt_mul_of_pos_right (by omega) (by omega)
  rw [hW.listed.ring.nxt_eq]
  exact coalesceLoop_rule (u := []) hstep hW hQ hfuel

/-- The loop as a pass over rows and lists. -/
theorem WellFormed.coalesceLoop_ok (hW : WellFormed L h bs fs) :
    ∃ h' bs' fs', coalesceLoop L (MAX_HEAP * MAX_HEAP) h (h.next L.head) = .ok h' ∧
      Pass bs fs fs bs' fs' ∧ WellFormed L h' bs' fs' ∧ Keeps bs h h' := by
  obtain ⟨h', bs', fs', hloop, hpass, hW', hk⟩ := hW.pass_rule
    (Q := fun bs₁ fs₁ w₁ => ∀ bs₂ fs₂, Pass bs₁ fs₁ w₁ bs₂ fs₂ → Pass bs fs fs bs₂ fs₂)
    (fun _ hb hc _ hQ bs₂ fs₂ hp => hQ bs₂ fs₂ (.step hb hc hp)) fun _ _ hp => hp
  exact ⟨h', bs', fs', hloop, hpass _ _ .done, hW', hk⟩

theorem expandHeap_eq (h16 : 16 < size)
    (hloop : coalesceLoop L (MAX_HEAP * MAX_HEAP) h (h.next L.head) = .ok h') :
    expandHeap L h size = addBlock L h' size := by
  have hnot : ¬size ≤ SIZE_OF_BLOCK := not_le.2 h16
  rw [expandHeap, if_neg hnot]
  show (coalesceLoop L (MAX_HEAP * MAX_HEAP) h _ >>= fun h => addBlock L h size) = _
  rw [hloop]
  rfl

/-- **`expand_heap`** merges free blocks.  Then it adds one of the size asked for,
or it ends because there is no memory left. -/
theorem expandHeap_ok (hW : WellFormed L h bs fs) (hs : 4 ∣ size) (h16 : 16 < size) :
    ∃ h₁ bs' fs', Pass bs fs fs bs' fs' ∧ WellFormed L h₁ bs' fs' ∧ Keeps bs h h₁ ∧
      (¬Room L h.brk size ∧ expandHeap L h size = .error (h₁.shortage size) ∨
        Room L h.brk size ∧ ∃ h', expandHeap L h size = .ok h' ∧ h'.brk = h.brk + size ∧
          Preserves bs h h' ∧
          WellFormed L h' (bs' ++ [newBlock h.brk size]) ((h.brk - 4) :: fs')) := by
  obtain ⟨h₁, bs', fs', hloop, hpass, hW₁, hk⟩ := hW.coalesceLoop_ok
  have hexp : expandHeap L h size = addBlock L h₁ size := expandHeap_eq h16 hloop
  refine ⟨h₁, bs', fs', hpass, hW₁, hk, ?_⟩
  have hadd := addBlock_ok hW₁ hs h16.le
  rw [hk.1, ← hexp] at hadd
  rcases hadd with hexit | ⟨hr, h₂, he, hbrk, hW₂, hp₂⟩
  · exact .inl hexit
  · refine .inr ⟨hr, h₂, he, hbrk, ?_, hW₂⟩
    exact (hW.blocks.preserves hk).trans (hp₂.mono fun b hb => hpass.allocated_eq ▸ hb)

end MallocLab
end CsappLabs
