/-
# Starting over

`mm_init` clears the blocks that are still linked to `head`, empties the list,
and puts the prologue and the first block into the heap.  The blocks are those of
an earlier heap, whose break has been reset: `Linked` says what the loop needs of
them, and a program that has just started has none.
-/

import CsappLabs.MallocLab.Expand

namespace CsappLabs
namespace MallocLab

open Lib Lib.CInt Lib.Memory Lib.Tiling Lib.Links

variable {L : Layout} {h h' : Heap} {bs : List Blk} {fs w : List ℕ} {a : ℕ}

/-- From `head` on, `next` leads over the blocks `w`, which are apart. -/
structure Linked (L : Layout) (h : Heap) (w : List ℕ) : Prop where
  next : ∀ u a v, w = u ++ a :: v → h.next a = (v ++ [L.head]).head (by simp)
  block : ∀ a ∈ w, a ≠ L.head ∧ Node a ∧ 4 ∣ h.read a ∧ 16 ≤ h.read a ∧ a + h.read a < 2 ^ 32
  apart : w.Pairwise fun a c => a + h.read a ≤ c ∨ c + h.read c ≤ a

/-- `clear_block` of the first block leaves the others. -/
theorem Linked.clear (hl : Linked L h (a :: w)) : Linked L (clearBlock h a) w := by
  obtain ⟨-, hnode, h4, h16, hlt⟩ := hl.block a List.mem_cons_self
  obtain ⟨hw, -⟩ := within_clearBlock hnode h4 h16 hlt rfl
  obtain ⟨hap, hpair⟩ := List.pairwise_cons.1 hl.apart
  have hread : ∀ c ∈ w, (clearBlock h a).read c = h.read c ∧
      (clearBlock h a).next c = h.next c := by
    intro c hc
    obtain ⟨-, hcn, -, hc16, -⟩ := hl.block c (List.mem_cons_of_mem _ hc)
    obtain ⟨hc4, -⟩ := id hcn
    have := hap c hc
    rw [hcn.next_eq, hcn.next_eq]
    refine ⟨hw.read hc4 ?_, hw.read (by omega) ?_⟩
    · rintro (hq | hq | hq | hq) <;> omega
    · rintro (hq | hq | hq | hq) <;> omega
  refine ⟨fun u c v hw' => ?_, fun c hc => ?_, hpair.imp_of_mem fun hc hd hcd => ?_⟩
  · rw [(hread c (by simp [hw'])).2]
    exact hl.next (a :: u) c v (by rw [hw', List.cons_append])
  · rw [(hread c hc).1]
    exact hl.block c (List.mem_cons_of_mem _ hc)
  · rw [(hread _ hc).1, (hread _ hd).1]
    exact hcd

/-- **The loop of `mm_init` ends.** -/
theorem clearLoop_ok {fuel : ℕ} (hl : Linked L h w) (hfuel : w.length < fuel) :
    ∃ h', clearLoop L fuel h ((w ++ [L.head]).head (by simp)) = .ok h' ∧ h'.brk = h.brk := by
  induction fuel generalizing h w with
  | zero => omega
  | succ fuel ih =>
    cases w with
    | nil => exact ⟨h, if_pos rfl, rfl⟩
    | cons a w =>
      obtain ⟨hhead, hnode, h4, h16, hlt⟩ := hl.block a List.mem_cons_self
      obtain ⟨h', hloop, hbrk⟩ := ih hl.clear (Nat.lt_of_succ_lt_succ hfuel)
      have hcbrk := (within_clearBlock hnode h4 h16 hlt rfl).1.1
      refine ⟨h', ?_, hbrk.trans hcbrk⟩
      rw [← hloop, ← hl.next [] a w rfl]
      exact if_neg hhead

/-- A heap that `mm_init` can start from, after `mem_reset_brk`. -/
structure Startable (L : Layout) (h : Heap) (w : List ℕ) : Prop extends Linked L h w where
  first : h.next L.head = (w ++ [L.head]).head (by simp)
  short : w.length ≤ MAX_HEAP
  brk : h.brk = L.memStart

/-- The heap of an earlier run can be started over. -/
theorem WellFormed.startable (hW : WellFormed L h bs fs) :
    Startable L { h with brk := L.memStart } fs := by
  have hlen := hW.length_le
  have hsize : ∀ a ∈ fs, ∃ b ∈ bs, b.addr = a ∧ h.read a = b.size := by
    intro a ha
    obtain ⟨b, hb, rfl, hf⟩ := hW.free a ha
    refine ⟨b, hb, rfl, ?_⟩
    rw [(hW.blocks.tagged b hb).1, Blk.header, hf]
    rfl
  refine ⟨⟨fun u a v hfs => ?_, fun a ha => ?_, ?_⟩, hW.listed.ring.nxt_eq, by omega, rfl⟩
  · subst hfs
    exact hW.next_eq
  · obtain ⟨b, hb, rfl, hread⟩ := hsize a ha
    have hbm := hW.blocks.mem hb
    refine ⟨fun he => hW.head_not_mem (he ▸ ha), hW.blocks.node hb, ?_⟩
    show 4 ∣ h.read b.addr ∧ 16 ≤ h.read b.addr ∧ b.addr + h.read b.addr < 2 ^ 32
    rw [hread]
    exact ⟨hbm.2.1, hbm.2.2.1, hbm.2.2.2.2.2⟩
  · refine hW.nodup_list.imp_of_mem fun {a c} ha hc hne => ?_
    obtain ⟨b, hb, rfl, hread⟩ := hsize a ha
    obtain ⟨d, hd, rfl, hread'⟩ := hsize c hc
    show b.addr + h.read b.addr ≤ d.addr ∨ d.addr + h.read d.addr ≤ b.addr
    rw [hread, hread']
    exact hW.blocks.apart_of_ne hb hd hne

/-- The first block of the heap. -/
def firstBlock (L : Layout) : Blk := ⟨L.memStart + 8, EXPAND_HEAP_SIZE - 4, false, true⟩

theorem placeBlock_write (L : Layout) (h : Heap) (block v size : ℕ) :
    placeBlock L (h.write block v) block size = placeBlock L h block size := by
  unfold placeBlock Heap.setSize
  rw [Heap.write_write]

/-- `expand_heap` behind the prologue. -/
theorem expandHeap_prologue (hbrk : h.brk = L.memStart + 8)
    (hpro : h.read L.memStart = 9 ∧ h.read (L.memStart + 4) = 8)
    (hnext : h.next L.head = L.head) (hprev : h.prev L.head = L.head) :
    ∃ h', expandHeap L h EXPAND_HEAP_SIZE = .ok h' ∧
      WellFormed L h' [firstBlock L] [(firstBlock L).addr] ∧ h'.brk = L.memStart + 4104 := by
  have hstart := L.start_dvd
  have hlt := L.heap_lt
  have hap := L.head_apart
  have hhead := L.head_dvd
  have hmax : MAX_HEAP = 20971520 := rfl
  have hsize : EXPAND_HEAP_SIZE = 4096 := rfl
  have hexp : expandHeap L h EXPAND_HEAP_SIZE = addBlock L h EXPAND_HEAP_SIZE := by
    obtain ⟨n, hn⟩ : ∃ n, MAX_HEAP * MAX_HEAP = n + 1 := ⟨20971520 * 20971520 - 1, rfl⟩
    refine expandHeap_eq (by omega) ?_
    rw [hnext, hn]
    exact if_pos rfl
  have hsb : memSbrk L h EXPAND_HEAP_SIZE =
      some ({ h with brk := h.brk + EXPAND_HEAP_SIZE }, h.brk) :=
    memSbrk_eq_some ⟨by omega, by omega⟩
  -- the memory is cleared
  let f : Heap := { h with mem := h.mem.fill h.brk 0 EXPAND_HEAP_SIZE }
  have hread : ∀ q, q + 4 ≤ L.memStart + 8 ∨ L.memStart + MAX_HEAP ≤ q → f.read q = h.read q := by
    intro q hq
    refine load_congr fun i hi hi' => fill_of_not_mem ?_
    omega
  have hlinks : f.next L.head = L.head ∧ f.prev L.head = L.head := by
    rw [L.node_head.next_eq] at hnext ⊢
    rw [L.node_head.prev_eq] at hprev ⊢
    exact ⟨(hread _ (by omega)).trans hnext, (hread _ (by omega)).trans hprev⟩
  -- it is as if there were an epilogue behind the prologue
  let g : Heap := { mem := (f.write (L.memStart + 8) 1).mem, brk := L.memStart + 12 }
  have hg : ∀ q, 4 ∣ q → q ≠ L.memStart + 8 → g.read q = f.read q := fun q hq hne =>
    Heap.read_write_of_ne (by omega) hq hne
  have hW : WellFormed L g [] [] := by
    have hepi : g.read (L.memStart + 8) = 1 := Heap.read_write_self (by omega)
    have hprologue : g.read L.memStart = 9 ∧ g.read (L.memStart + 4) = 8 := by
      rw [hg _ hstart (by omega), hg _ (by omega) (by omega), hread _ (by omega),
        hread _ (by omega)]
      exact hpro
    have hring : g.next L.head = L.head ∧ g.prev L.head = L.head := by
      rw [L.node_head.next_eq, L.node_head.prev_eq, hg _ (by omega) (by omega),
        hg _ (by omega) (by omega), ← L.node_head.next_eq, ← L.node_head.prev_eq]
      exact hlinks
    have hB : Blocks L g [] := by
      have hgbrk : g.brk = L.memStart + 12 := rfl
      refine ⟨⟨le_rfl, by omega⟩, ?_, by simp [Sized], by simp, hprologue, hepi⟩
      show L.memStart + 8 = L.memStart + 12 - 4
      omega
    have hl : Listed L g [] := by
      refine ⟨hring, by simp, ?_, ?_⟩
      · simp only [List.mem_singleton, forall_eq]
        exact L.node_head
      · simp only [List.mem_singleton, forall_eq]
        exact .inl rfl
    exact ⟨⟨hB, hl, by simp⟩, by simp⟩
  have hmaxg : g.brk + 4092 ≤ L.memStart + MAX_HEAP := by
    show L.memStart + 12 + 4092 ≤ _
    omega
  obtain ⟨hWF, -, hkbrk⟩ := hW.extend (by decide) (by decide) hmaxg
  have hblock : placeBlock L { g with brk := g.brk + 4092 } (g.brk - 4) 4092 =
      placeBlock L { f with brk := h.brk + EXPAND_HEAP_SIZE } (L.memStart + 8) 4092 := by
    have hbrk' : g.brk + 4092 = h.brk + EXPAND_HEAP_SIZE := by
      show L.memStart + 12 + 4092 = _
      omega
    rw [hbrk', ← placeBlock_write L { f with brk := h.brk + EXPAND_HEAP_SIZE } _ 1]
    rfl
  -- the word before the break is no epilogue
  have hlast : sub32 h.brk 4 = L.memStart + 4 := by
    rw [sub32_of_le (by omega) (by omega)]
    omega
  have hnot : ¬(({ f with brk := h.brk + EXPAND_HEAP_SIZE } : Heap).isAllocated (sub32 h.brk 4) ∧
      ({ f with brk := h.brk + EXPAND_HEAP_SIZE } : Heap).blockSize (sub32 h.brk 4) = 0) := by
    rintro ⟨ha, -⟩
    have ha' : decide (f.read (sub32 h.brk 4) % 2 = 1) = true := ha
    rw [hlast, hread _ (by omega), hpro.2] at ha'
    exact absurd ha' (by decide)
  have hadd := addBlock_eq hsb (by omega)
  simp only at hadd
  rw [if_neg hnot, if_neg hnot] at hadd
  refine ⟨_, hexp.trans hadd, ?_⟩
  rw [hblock, ← hbrk] at hWF hkbrk
  have haddr : (firstBlock L).addr = g.brk - 4 := rfl
  rw [haddr]
  exact ⟨hWF, hkbrk⟩

theorem setPrologue_eq {p : ℕ} (hp : p + 8 < 2 ^ 32) (h : Heap) :
    setPrologue h p = (h.write p 9).write (p + 4) 8 := by
  have h8 : (h.write p 8).read p = 8 := Heap.read_write_self (by omega)
  have h9 : (h.write p 9).read p = 9 := Heap.read_write_self (by omega)
  have halloc : (h.setSize p 8).setAllocated p = h.write p 9 := by
    show (h.write p 8).write p (alignDown 2 ((h.write p 8).read p) + 1) = _
    rw [h8]
    exact Heap.write_write ..
  have hsize : (h.write p 9).blockSize p = 8 := by
    show alignDown 2 ((h.write p 9).read p) = 8
    rw [h9]
    rfl
  rw [setPrologue]
  simp only [halloc, Heap.footer, hsize]
  rw [add32_of_lt hp, sub32_of_le (by omega) hp]
  rfl

/-- The list is empty. -/
theorem resetHead_links (L : Layout) (h : Heap) :
    (resetHead L h).next L.head = L.head ∧ (resetHead L h).prev L.head = L.head := by
  have hlt : L.head < 2 ^ 32 := L.node_head.2.trans' (by omega)
  rw [resetHead, L.node_head.next_setNext L.node_head hlt, if_pos rfl,
    L.node_head.prev_setNext L.node_head (.inl rfl), L.node_head.prev_setPrev L.node_head hlt,
    if_pos rfl]
  exact ⟨rfl, rfl⟩

/-- **`mm_init`** builds a heap of one free block. -/
theorem mmInit_ok (hs : Startable L h w) :
    ∃ h', mmInit L h = .ok h' ∧ WellFormed L h' [firstBlock L] [(firstBlock L).addr] ∧
      h'.brk = L.memStart + 4104 := by
  obtain ⟨h₁, hloop, hbrk⟩ := clearLoop_ok hs.toLinked (Nat.lt_succ_of_le hs.short)
  rw [← hs.first] at hloop
  have hstart := L.start_dvd
  have hlt := L.heap_lt
  have hap := L.head_apart
  have hhead := L.head_dvd
  have hmax : MAX_HEAP = 20971520 := rfl
  have hbrk₂ : (resetHead L h₁).brk = L.memStart := hbrk.trans hs.brk
  have hlinks := resetHead_links L h₁
  have hsb : memSbrk L (resetHead L h₁) 8 =
      some ({ resetHead L h₁ with brk := (resetHead L h₁).brk + 8 }, (resetHead L h₁).brk) :=
    memSbrk_eq_some ⟨by omega, by omega⟩
  have hinit : mmInit L h = expandHeap L
      (setPrologue { resetHead L h₁ with brk := (resetHead L h₁).brk + 8 } (resetHead L h₁).brk)
      EXPAND_HEAP_SIZE := by
    have hbind : ∀ f : Heap → Except Fault Heap, (Except.ok h₁ >>= f) = f h₁ := fun _ => rfl
    rw [mmInit, hloop, hbind]
    simp only [hsb, Option.getD_some]
  rw [hinit, hbrk₂, setPrologue_eq (by omega)]
  refine expandHeap_prologue rfl ⟨?_, Heap.read_write_self (by omega)⟩ ?_ ?_
  · rw [Heap.read_write_of_ne (by omega) hstart (by omega), Heap.read_write_self (by omega)]
  · rw [L.node_head.next_eq, Heap.read_write_of_ne (by omega) (by omega) (by omega),
      Heap.read_write_of_ne hstart (by omega) (by omega), ← L.node_head.next_eq]
    exact hlinks.1
  · rw [L.node_head.prev_eq, Heap.read_write_of_ne (by omega) (by omega) (by omega),
      Heap.read_write_of_ne hstart (by omega) (by omega), ← L.node_head.prev_eq]
    exact hlinks.2

end MallocLab
end CsappLabs
