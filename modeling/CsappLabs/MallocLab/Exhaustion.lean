/-
# Enough memory, and not enough

`mm_malloc` asks for memory only when no listed block is large enough, and with
the memory it has a block: the new block is the first of the list.  It fails where the
sum in `mem_sbrk` wraps, and only there (`malloc_succeeds_iff`).

Where `mem_sbrk` fails `expand_heap` calls `exit(1)`, so `mm_malloc` and `mm_realloc` never
return `NULL` for lack of memory.  The heap is then in order: the blocks in use are where
they were, with their payloads, and the other bytes are free (`exhaustion_exits`).  What may
have changed before is that free blocks next to each other were merged, and that `mm_realloc`
has taken the free block behind into its own.
-/

import CsappLabs.MallocLab.Rounds
import CsappLabs.MallocLab.Sizes

namespace CsappLabs
namespace MallocLab

open Lib Lib.CInt Lib.Memory Lib.Tiling Lib.Links

variable {L : Layout} {w : World} {h h' h₁ : Heap} {bs bs' pre post : List Blk} {fs fs' : List ℕ}
  {b c : Blk} {a n p q : ℕ}

/-! ### When `mm_malloc` asks for memory -/

/-- `mm_malloc`, with `expand` for its call of `expand_heap`. -/
def mmMallocWith (expand : Heap → ℕ → Except Fault Heap) (L : Layout) (h : Heap) (size : ℕ) :
    Except Fault (Heap × Option ℕ) := do
  let size := getBlockSize size
  let (h, block) ← findFit L h size
  match block with
  | some block => return (h.setAllocated block, some (add32 block SIZEOF_BLOCK))
  | none =>
    let h ← expand h (if size > EXPAND_HEAP_SIZE then size else EXPAND_HEAP_SIZE)
    let (h, block) ← findFit L h size
    match block with
    | some block => return (h.setAllocated block, some (add32 block SIZEOF_BLOCK))
    | none => return (h, none)

theorem mmMalloc_eq_with (L : Layout) (h : Heap) (n : ℕ) :
    mmMalloc L h n = mmMallocWith (expandHeap L) L h n := rfl

/-- A fit is taken, whatever `expand_heap` would do. -/
theorem mmMallocWith_fit (expand : Heap → ℕ → Except Fault Heap)
    (hf : findFit L h (getBlockSize n) = .ok (h', some p)) :
    mmMallocWith expand L h n = .ok (h'.setAllocated p, some (add32 p SIZEOF_BLOCK)) := by
  rw [mmMallocWith]
  simp only [hf, ok_bind]
  rfl

theorem WellFormed.mmMallocWith_eq (hW : WellFormed L h bs fs) (h16 : 16 ≤ getBlockSize n)
    (hfit : ¬NoFit (getBlockSize n) bs) (expand : Heap → ℕ → Except Fault Heap) :
    mmMallocWith expand L h n = mmMalloc L h n := by
  rcases findFit_ok hW (dvd_getBlockSize n) h16 with ⟨-, hno⟩ | ⟨h', pre, c, post, fs', hf, -⟩
  · exact absurd hno hfit
  · rw [mmMallocWith_fit expand hf, mmMalloc_fit hf]

/-- A listed block is large enough exactly if a free one of the row is. -/
theorem WellFormed.listed_fit_iff (hW : WellFormed L h bs fs) {size : ℕ} :
    (∃ a ∈ fs, size ≤ h.blockSize a) ↔ ¬NoFit size bs := by
  rw [NoFit]
  push Not
  constructor
  · rintro ⟨a, ha, hle⟩
    obtain ⟨b, hb, rfl, hf⟩ := hW.free a ha
    rw [hW.blocks.blockSize_eq hb] at hle
    exact ⟨b, hb, hf, hle⟩
  · rintro ⟨b, hb, hf, hle⟩
    exact ⟨b.addr, hW.complete b hb hf, hle.trans (hW.blocks.blockSize_eq hb).ge⟩

/-- A request for `n` bytes does without `expand_heap` if a listed block is large enough; with
such a block, or with memory from `mem_sbrk`, it returns a block; and what it returns has the
size asked for, up to 16 bytes. -/
structure Succeeds (L : Layout) (h : Heap) (fs : List ℕ) (n : ℕ) : Prop where
  fit : (∃ a ∈ fs, getBlockSize n ≤ h.blockSize a) →
    ∀ expand, mmMallocWith expand L h n = mmMalloc L h n
  returns : (∃ a ∈ fs, getBlockSize n ≤ h.blockSize a) ∨ (memSbrk L h (growth n)).isSome →
    ∃ h' ptr, mmMalloc L h n = .ok (h', some ptr) ∧ ptr ≠ 0
  size : ∀ h' ptr, mmMalloc L h n = .ok (h', some ptr) →
    getBlockSize n ≤ h'.blockSize (ptr - 12) ∧ h'.blockSize (ptr - 12) ≤ getBlockSize n + 16

/-- Where the sum wraps, `mem_sbrk` succeeds. -/
theorem memSbrk_isSome_of_wraps (hbrk : h.brk ≤ L.memStart + MAX_HEAP) {size : ℕ}
    (hw : Wraps h.brk size) : (memSbrk L h size).isSome := by
  rw [Option.isSome_iff_ne_none]
  exact fun hnone => ((memSbrk_eq_none_iff hbrk).1 hnone).2 hw

/-- **When `mm_malloc` succeeds**, in every state of a run of `mm_malloc` and `mm_free`: if a
listed block is large enough, or the sum in `mem_sbrk` does not wrap, and only then.  Where
it wraps, `mem_sbrk` finds memory that is not there. -/
theorem malloc_succeeds_iff (hw : ((mmSystem L).restrict Call.basic).Reach w)
    (hn : n + 19 < 2 ^ 32) :
    ∃ as fs, Exact L w.heap as fs ∧ (Succeeds L w.heap fs n ↔
      (∃ a ∈ fs, getBlockSize n ≤ w.heap.blockSize a) ∨ ¬Wraps w.heap.brk (growth n)) := by
  obtain ⟨bs, fs, hV⟩ := valid_of_reach hw
  have h16 : 16 ≤ getBlockSize n := by have := (getBlockSize_bounds hn).1; omega
  have hbrk := hV.blocks.brk.2
  have hfit : (∃ a ∈ fs, getBlockSize n ≤ w.heap.blockSize a) ↔ ¬NoFit (getBlockSize n) bs :=
    hV.toWellFormed.listed_fit_iff
  refine ⟨_, fs, hV.toWellFormed.exact, fun hs => ?_, fun hcond => ?_⟩
  · by_contra hnot
    obtain ⟨hno, hwraps⟩ := not_or.1 hnot
    rw [not_not] at hwraps
    obtain ⟨h', ptr, hok, -⟩ := hs.returns (.inr (memSbrk_isSome_of_wraps hbrk hwraps))
    rcases mmMalloc_ok hV.toWellFormed h16 with
      ⟨-, -, h₁, _, _, he, -⟩ | ⟨_, pre, c, post, fs', -, hm, -⟩
    · exact absurd (he.symm.trans hok) (by simp)
    · exact hm.fit_or_room.elim (fun hf => hno (hfit.2 hf)) fun hr => hr.not_wraps hwraps
  · refine ⟨fun hf => hV.toWellFormed.mmMallocWith_eq h16 (hfit.1 hf), fun hmem => ?_,
      fun h' ptr hok => ?_⟩
    · rcases mmMalloc_ok hV.toWellFormed h16 with
        ⟨hno, hr, -⟩ | ⟨h', pre, c, post, fs', he, -⟩
      · -- no block fits and there is no memory, as `mem_sbrk` sees
        have hnofit := mt hfit.1 (not_not.2 hno)
        have hnone := (memSbrk_eq_none_iff hbrk).2 ⟨hr, hcond.resolve_left hnofit⟩
        rcases hmem with hf | hsome
        · exact absurd hf hnofit
        · exact absurd hsome (by simp [hnone])
      · exact ⟨h', c.addr + 12, he, Nat.succ_ne_zero _⟩
    · rcases mmMalloc_ok hV.toWellFormed h16 with
        ⟨-, -, h₁, _, _, he, -⟩ | ⟨h₂, pre, c, post, fs', he, hm, -, hW⟩
      · exact absurd (he.symm.trans hok) (by simp)
      · obtain ⟨rfl, hptr⟩ := Prod.mk.inj (Except.ok.inj (he.symm.trans hok))
        obtain rfl := Option.some.inj hptr
        have hc := hm.size_bounds
        have hsize := hW.blocks.blockSize_eq (b := { c with alloc := true }) (by simp)
        rw [Nat.add_sub_cancel]
        exact ⟨hc.2.1.trans hsize.ge, hsize.le.trans hc.2.2⟩

/-- The first block is used up, and the heap grows for the next one. -/
theorem malloc_succeeds_iff_grow :
    let w := (((mmSystem .low).restrict Call.basic).run (.first .low fun _ => 7)
      [.malloc 4000, .store 150 9]).getD (.first .low fun _ => 7)
    ∃ as fs, Exact .low w.heap as fs ∧ Succeeds .low w.heap fs 200 := by
  intro w
  have h₀ := reach_first .low fun _ => 7
  have hw : ((mmSystem .low).restrict Call.basic).Reach w := h₀.getD_run _
  have hno : ¬Wraps w.heap.brk (growth 200) := by decide +kernel
  clear_value w
  obtain ⟨as, fs, hE, hiff⟩ := malloc_succeeds_iff (n := 200) hw (by decide)
  exact ⟨as, fs, hE, hiff.2 (.inr hno)⟩

/-- `memset` runs off the heap in the call. -/
def runsOff {α : Type*} : Except Fault α → Bool
  | .error (.overrun _) => true
  | _ => false

theorem exists_of_runsOff {α : Type*} {r : Except Fault α} (hr : runsOff r = true) :
    ∃ h, r = .error (.overrun h) := by
  cases r with
  | ok a => simp [runsOff] at hr
  | error e =>
    cases e with
    | overrun h => exact ⟨h, rfl⟩
    | assert | exit | fuel => simp [runsOff] at hr

/-- A heap at a high address. -/
def Layout.high : Layout where
  head := 0x804c0a0
  memStart := 0xf6b86008
  head_dvd := by decide
  start_dvd := by decide
  start_pos := by decide
  head_lt := by decide
  heap_lt := by decide
  apart := by decide

/-- `mem_sbrk` does not fail, and the request for 256 MB runs off the heap. -/
theorem malloc_runs_off : ∃ w : World, ((mmSystem .high).restrict Call.basic).Reach w ∧
    (memSbrk .high w.heap (growth 0x10000000)).isSome ∧
    (∃ h, mmMalloc .high w.heap 0x10000000 = .error (.overrun h)) ∧
    ∀ fs, ¬Succeeds .high w.heap fs 0x10000000 := by
  have h₀ := reach_first .high fun _ => 0
  have hsome : (memSbrk .high (World.first .high fun _ => 0).heap (growth 0x10000000)).isSome := by
    decide +kernel
  have hover : runsOff (mmMalloc .high (World.first .high fun _ => 0).heap 0x10000000) = true := by
    decide +kernel
  generalize World.first .high (fun _ => 0) = w at h₀ hsome hover
  obtain ⟨h, he⟩ := exists_of_runsOff hover
  refine ⟨w, h₀, hsome, ⟨h, he⟩, fun fs hs => ?_⟩
  obtain ⟨h', ptr, hok, -⟩ := hs.returns (.inr hsome)
  exact absurd (he.symm.trans hok) (by simp)

/-! ### Without memory -/

/-- The size with which `mm_realloc` calls `expand_heap`, by itself or in `mm_malloc`. -/
def reallocGrowth (h : Heap) (ptr size : ℕ) : ℕ := (directGrowth h ptr size).getD (growth size)

/-- At the end of the program every block in use is a block of a heap in order, with its
payload, and the other bytes are free as before; only the block at `p` may have become larger,
by free bytes. -/
structure Intact (L : Layout) (w : World) (h : Heap) (p : ℕ) : Prop where
  exact : ∃ as fs as' fs', Exact L w.heap as fs ∧ Exact L h as' fs' ∧
    (∀ x ∈ w.live, x.1 - 12 ∈ as') ∧ ∀ i, i ∈ freeBytes h fs' ↔
      i ∈ freeBytes w.heap fs ∧ ∀ x ∈ w.live, x.1 = p →
        ¬(x.1 - 12 ≤ i ∧ i < x.1 - 12 + h.blockSize (x.1 - 12))
  alloc : ∀ x ∈ w.live, h.isAllocated (x.1 - 12) = true
  extent : ∀ x ∈ w.live, w.heap.blockSize (x.1 - 12) ≤ h.blockSize (x.1 - 12) ∧
    (x.1 ≠ p → h.blockSize (x.1 - 12) = w.heap.blockSize (x.1 - 12))
  payload : ∀ x ∈ w.live, ∀ i, x.1 ≤ i → i + 16 < x.1 + w.heap.blockSize (x.1 - 12) →
    h.mem i = w.heap.mem i

/-- The allocated blocks stay, but for the one with its payload at `p`, which may have
grown. -/
structure Grown (p : ℕ) (bs bs' : List Blk) : Prop where
  others : ∀ d ∈ allocated bs, d.addr + 12 ≠ p → d ∈ allocated bs'
  block : ∀ d ∈ allocated bs, ∃ e ∈ allocated bs', e.addr = d.addr ∧ d.size ≤ e.size
  back : ∀ e ∈ allocated bs', ∃ d ∈ allocated bs, d.addr = e.addr

theorem Grown.of_eq (he : allocated bs' = allocated bs) (p : ℕ) : Grown p bs bs' :=
  ⟨fun _ hd _ => he ▸ hd, fun d hd => ⟨d, he ▸ hd, rfl, le_rfl⟩, fun e hm => ⟨e, he ▸ hm, rfl⟩⟩

/-- A refusal leaves the allocated blocks, and the block may have taken in the one behind. -/
theorem Refused.grown {brk e : ℕ} (hr : Refused L brk n pre b post fs e bs' fs')
    (hb : b.alloc = true) : Grown (b.addr + 12) (pre ++ b :: post) bs' := by
  cases hr with
  | wrap _ _ hp => exact .of_eq hp.allocated_eq _
  | last _ _ hp => exact .of_eq hp.allocated_eq _
  | move _ _ _ _ _ hp => exact .of_eq hp.allocated_eq _
  | @absorb y post _ _ _ hy _ _ _ hp =>
    have hmem : ∀ d ∈ allocated (pre ++ b :: y :: post), d ≠ b →
        d ∈ allocated (pre ++ b.absorb y :: post) := by
      intro d hd hne
      obtain ⟨hd, hda⟩ := List.mem_filter.1 hd
      refine List.mem_filter.2 ⟨?_, hda⟩
      simp only [List.mem_append, List.mem_cons] at hd ⊢
      rcases hd with hd | rfl | rfl | hd
      · exact .inl hd
      · exact absurd rfl hne
      · exact absurd hda (by simp [hy])
      · exact .inr (.inr hd)
    constructor
    · intro d hd hne
      rw [hp.allocated_eq]
      exact hmem d hd fun he => hne (by rw [he])
    · intro d hd
      rw [hp.allocated_eq]
      by_cases hdb : d = b
      · subst hdb
        exact ⟨d.absorb y, List.mem_filter.2 ⟨by simp, hb⟩, rfl, Nat.le_add_right _ _⟩
      · exact ⟨d, hmem d hd hdb, rfl, le_rfl⟩
    · intro e he
      rw [hp.allocated_eq] at he
      obtain ⟨he, hea⟩ := List.mem_filter.1 he
      simp only [List.mem_append, List.mem_cons] at he
      rcases he with he | rfl | he
      · exact ⟨e, List.mem_filter.2 ⟨by simp [he], hea⟩, rfl⟩
      · exact ⟨b, List.mem_filter.2 ⟨by simp, hb⟩, rfl⟩
      · exact ⟨e, List.mem_filter.2 ⟨by simp [he], hea⟩, rfl⟩

/-- There is no memory for what `mm_realloc` asks. -/
theorem Refused.not_room {brk e : ℕ} (hr : Refused L brk n pre b post fs e bs' fs') :
    ¬Room L brk e := by
  cases hr with
  | wrap hlt hle _ =>
    intro hroom
    have := hroom.1
    omega
  | last _ hno _ => exact hno
  | move _ _ _ _ hno _ => exact hno
  | absorb _ _ _ hno _ => exact hno

/-- It asks for the size of `reallocGrowth`. -/
theorem Refused.growth_eq {e : ℕ} (hr : Refused L h.brk n pre b post fs e bs' fs')
    (hB : Blocks L h (pre ++ b :: post)) (hb : b.alloc = true) (hn0 : n ≠ 0)
    (hn : n + 35 < 2 ^ 32) : reallocGrowth h (b.addr + 12) n = e := by
  have hbm := hB.mem (b := b) (by simp)
  have hbrk := hB.brk
  have hheap := L.heap_lt
  have hlast := hB.last_iff
  have hgb := (getBlockSize_bounds (n := n) (by omega)).2
  have halloc : h.isAllocated b.addr = true := (hB.isAllocated_eq (by simp)).trans hb
  have hnot : ¬(b.addr + 12 = 0 ∨ n = 0 ∨ h.isAllocated b.addr = false) := by simp [hn0, halloc]
  have hepi : sub32 h.brk 4 = h.brk - 4 := sub32_of_le (by omega) (by omega)
  have hnext : add32 b.addr b.size = b.addr + b.size := add32_of_lt hbm.2.2.2.2.2
  rw [reallocGrowth, directGrowth]
  simp only [hB.sub32_payload (b := b) (by simp), if_neg hnot, add32_getBlockSize hn,
    hB.blockSize_eq (b := b) (by simp), hepi, hnext]
  cases hr with
  | wrap hlt hle _ =>
    have hsub := sub32_of_lt hlt (by omega)
    have h16 : SIZE_OF_BLOCK < getBlockSize n + 2 ^ 32 - b.size := by show 16 < _; omega
    rw [hsub, if_neg (by omega), if_pos ⟨hlast.1 rfl, h16⟩, Option.getD_some]
  | last hlt _ _ =>
    have hsub : sub32 (getBlockSize n) b.size = _ := sub32_of_le (by omega) (by omega)
    have h16 : SIZE_OF_BLOCK < getBlockSize n - b.size := by show 16 < _; omega
    rw [hsub, if_neg (by omega), if_pos ⟨hlast.1 rfl, h16⟩, Option.getD_some]
  | move hle _ hend _ _ _ =>
    rw [if_neg (by omega), if_neg, Option.getD_none]
    rintro ⟨hbehind, h16⟩
    obtain ⟨hle, hlt⟩ := hend (hlast.2 hbehind)
    rw [sub32_of_le hle (by omega)] at h16
    have : 16 < getBlockSize n - b.size := h16
    omega
  | absorb _ hle _ _ _ =>
    rw [if_neg (by omega), if_neg fun hbehind => ?_, Option.getD_none]
    exact absurd (hlast.2 hbehind.1) (by simp)

/-- The free bytes of a row are those outside its allocated blocks. -/
theorem WellFormed.mem_freeBytes (hW : WellFormed L h bs fs) {i : ℕ} :
    i ∈ freeBytes h fs ↔ L.memStart + 8 ≤ i ∧ i < h.brk - 4 ∧
      ∀ d ∈ allocated bs, ¬(d.addr ≤ i ∧ i < d.addr + d.size) := by
  rw [hW.exact.mem_freeBytes, inUse_map hW.blocks, List.forall_mem_map]
  refine and_congr_right fun _ => and_congr_right fun _ => forall₂_congr fun d hd => ?_
  rw [hW.blocks.blockSize_eq (List.mem_filter.1 hd).1]

/-- Free bytes become used only by the block that has grown. -/
theorem Grown.freeBytes_iff (hg : Grown p bs bs') (hW : WellFormed L h bs fs)
    (hW' : WellFormed L h' bs' fs') (hbrk : h'.brk = h.brk) {i : ℕ} :
    i ∈ freeBytes h' fs' ↔ i ∈ freeBytes h fs ∧
      ∀ e ∈ allocated bs', e.addr + 12 = p → ¬(e.addr ≤ i ∧ i < e.addr + e.size) := by
  rw [hW.mem_freeBytes, hW'.mem_freeBytes, hbrk, and_assoc, and_assoc]
  refine and_congr_right fun _ => and_congr_right fun _ => ⟨fun hout => ⟨fun d hd hdi => ?_, ?_⟩,
    fun ⟨hout, hblock⟩ e he hei => ?_⟩
  · obtain ⟨e, he, hea, hle⟩ := hg.block d hd
    exact hout e he (by omega)
  · exact fun e he _ => hout e he
  · by_cases hep : e.addr + 12 = p
    · exact hblock e he hep hei
    · obtain ⟨d, hd, hda⟩ := hg.back e he
      have hd' := hg.others d hd (by omega)
      obtain rfl := hW'.blocks.inj (List.mem_filter.1 hd').1 (List.mem_filter.1 he).1 hda
      exact hout d hd hei

/-- From the row to the blocks in use. -/
theorem Valid.intact (hV : Valid L w bs fs) (hW : WellFormed L h bs' fs')
    (hbrk : h.brk = w.heap.brk)
    (hp : Preserves bs w.heap h) (hg : Grown p bs bs') (hholds : p = 0 ∨ w.Holds p) :
    Intact L w h p := by
  have hlive : ∀ x ∈ w.live, ∃ d ∈ allocated bs, ∃ e ∈ allocated bs', x.1 - 12 = d.addr ∧
      x.1 = d.addr + 12 ∧ e.addr = d.addr ∧ d.size ≤ e.size ∧
      w.heap.blockSize (x.1 - 12) = d.size ∧ h.blockSize (x.1 - 12) = e.size := by
    intro x hx
    obtain ⟨d, hd, hxd, -⟩ := hV.owned.block x hx
    obtain ⟨e, he, hea, hle⟩ := hg.block d hd
    have hx12 : x.1 - 12 = d.addr := by omega
    refine ⟨d, hd, e, he, hx12, hxd, hea, hle, ?_, ?_⟩
    · rw [hx12]
      exact hV.blocks.blockSize_eq (List.mem_filter.1 hd).1
    · rw [hx12, ← hea]
      exact hW.blocks.blockSize_eq (List.mem_filter.1 he).1
  refine ⟨⟨_, fs, _, fs', hV.toWellFormed.exact, hW.exact, fun x hx => ?_, fun i => ?_⟩,
    fun x hx => ?_, fun x hx => ?_, fun x hx i hi hi' => ?_⟩
  · obtain ⟨d, -, e, he, hx12, -, hea, -⟩ := hlive x hx
    rw [hx12, ← hea]
    exact List.mem_map_of_mem (List.mem_filter.1 he).1
  · rw [hg.freeBytes_iff hV.toWellFormed hW hbrk]
    refine and_congr_right fun _ => ⟨fun hout x hx hxp => ?_, fun hout e he hep => ?_⟩
    · obtain ⟨d, -, e, he, hx12, hxd, hea, -, -, hsize⟩ := hlive x hx
      rw [hsize, hx12, ← hea]
      exact hout e he (by omega)
    · -- the block is that of a pointer
      obtain ⟨x, hx, hxp⟩ := hholds.resolve_left (by omega)
      obtain ⟨d, -, e', he', hx12, hxd, hea, -, -, hsize⟩ := hlive x hx
      have hee : e'.addr = e.addr := by omega
      obtain rfl := hW.blocks.inj (List.mem_filter.1 he').1 (List.mem_filter.1 he).1 hee
      have hnot := hout x hx hxp
      rwa [hsize, hx12, ← hea] at hnot
  · obtain ⟨d, -, e, he, hx12, -, hea, -⟩ := hlive x hx
    rw [hx12, ← hea]
    exact (hW.blocks.isAllocated_eq (List.mem_filter.1 he).1).trans (List.mem_filter.1 he).2
  · obtain ⟨d, hd, e, he, hx12, hxd, hea, hle, hsize, hsize'⟩ := hlive x hx
    refine ⟨by omega, fun hne => ?_⟩
    have hd' := hg.others d hd (hxd ▸ hne)
    rw [hsize, hx12]
    exact hW.blocks.blockSize_eq (List.mem_filter.1 hd').1
  · obtain ⟨_, hd, -, -, -, hxd, -, -, hsize, -⟩ := hlive x hx
    exact hp _ hd i (by omega) (by omega)

/-- `expand_heap` exits where `mem_sbrk` fails. -/
theorem shortage_eq_exit_iff {e : ℕ} : h.shortage e = .exit h' ↔ h' = h ∧ ¬Wraps h.brk e := by
  unfold Heap.shortage
  split_ifs with hw
  · simp [hw]
  · rw [Fault.exit.injEq, eq_comm]
    exact (and_iff_left hw).symm

/-- **`mm_malloc` exits** exactly if no free block fits and `mem_sbrk` fails. -/
theorem Valid.malloc_exits_iff (hV : Valid L w bs fs) (hn : n + 19 < 2 ^ 32) :
    ((∃ h, mmMalloc L w.heap n = .error (.exit h)) ↔
        ¬HasFit L w.heap (getBlockSize n) ∧ memSbrk L w.heap (growth n) = none) ∧
      ∀ h, mmMalloc L w.heap n = .error (.exit h) → Intact L w h 0 := by
  have h16 : 16 ≤ getBlockSize n := by have := (getBlockSize_bounds hn).1; omega
  rw [hV.blocks.hasFit_iff, not_not, memSbrk_eq_none_iff hV.blocks.brk.2]
  rcases mmMalloc_ok hV.toWellFormed h16 with
    ⟨hno, hr, h₁, bs', fs', he, hpass, hW, hk⟩ | ⟨h', pre, c, post, fs', he, hm, -, -⟩
  · rw [he]
    simp only [Except.error.injEq, shortage_eq_exit_iff, hk.1]
    refine ⟨⟨fun ⟨_, _, hw⟩ => ⟨hno, hr, hw⟩, fun ⟨_, _, hw⟩ => ⟨h₁, rfl, hw⟩⟩, ?_⟩
    rintro _ ⟨rfl, -⟩
    exact hV.intact hW hk.1 (hV.blocks.preserves hk) (.of_eq hpass.allocated_eq 0) (.inl rfl)
  · refine ⟨iff_of_false ?_ ?_, fun h he' => ?_⟩
    · rintro ⟨h, he'⟩
      exact absurd (he.symm.trans he') (by simp)
    · rintro ⟨hno, hr, -⟩
      exact hm.fit_or_room.elim (absurd hno) hr
    · exact absurd (he.symm.trans he') (by simp)

/-- `mm_malloc` ends in a heap without a fit and without room. -/
theorem WellFormed.mmMalloc_refused (hW : WellFormed L h bs fs) (h16 : 16 ≤ getBlockSize n)
    (hno : NoFit (getBlockSize n) bs) (hr : ¬Room L h.brk (growth n)) :
    ∃ e, mmMalloc L h n = .error e := by
  rcases mmMalloc_ok hW h16 with ⟨-, -, h₁, _, _, he, -⟩ | ⟨h', pre, c, post, fs', -, hm, -⟩
  · exact ⟨_, he⟩
  · exact absurd (hm.fit_or_room.resolve_left (not_not.2 hno)) hr

/-- From case 3 of `mm_realloc` on, with too little behind and no fit elsewhere. -/
theorem WellFormed.reallocMerge_refused (hW : WellFormed L h (pre ++ b :: post) fs)
    (hb : b.alloc = true) (hn : n + 35 < 2 ^ 32) (hr : ¬Room L h.brk (growth n))
    (hnext : ∀ y ∈ post.head?, y.alloc = false → b.size + y.size ≤ getBlockSize n + 16)
    (hno : ∀ d ∈ pre ++ b :: post, d.alloc = false → d ∉ post.head? → d.size < getBlockSize n) :
    ∃ e, reallocMerge L h p n b.addr (add32 b.addr (h.blockSize b.addr)) = .error e := by
  have h16 : 16 ≤ getBlockSize n := by
    have := (getBlockSize_bounds (n := n) (by omega)).1
    omega
  rw [reallocMerge_eq, add32_getBlockSize hn]
  by_cases hfree : ∃ y post', post = y :: post' ∧ y.alloc = false
  · rw [if_pos ((nextFree_iff hW.blocks).2 hfree)]
    obtain ⟨y, post, rfl, hy⟩ := hfree
    rw [nextBlock_eq hW.blocks]
    have hne : ∀ d ∈ pre ++ post, d ≠ y := by
      rintro d hd rfl
      have hB := hW.blocks
      rw [List.append_cons] at hB
      refine hB.addr_ne (b := d) ?_ rfl
      simp only [List.mem_append] at hd ⊢
      tauto
    obtain ⟨hW', hk⟩ := hW.absorbNext_ok hy
    have hbrk := hk.1
    generalize absorbNext h b.addr y.addr = h₀ at hW' hbrk
    have hbig : h₀.blockSize b.addr = b.size + y.size :=
      hW'.blocks.blockSize_eq (b := b.absorb y) (by simp)
    rw [hbig, if_neg (not_lt.2 (hnext y rfl hy))]
    have hnofit : NoFit (getBlockSize n) (pre ++ b.absorb y :: post) := by
      intro d hd hf
      simp only [List.mem_append, List.mem_cons] at hd
      rcases hd with hd | rfl | hd
      · exact hno d (by simp [hd]) hf (by simpa using (hne d (by simp [hd])).symm)
      · exact absurd hb (by simpa [Blk.absorb] using hf)
      · exact hno d (by simp [hd]) hf (by simpa using (hne d (by simp [hd])).symm)
    obtain ⟨e, he⟩ := hW'.mmMalloc_refused h16 hnofit (hbrk ▸ hr)
    exact ⟨e, reallocMove_error he⟩
  · rw [if_neg fun hf => hfree ((nextFree_iff hW.blocks).1 hf)]
    have hnofit : NoFit (getBlockSize n) (pre ++ b :: post) := by
      refine fun d hd hf => hno d hd hf fun hh => ?_
      obtain ⟨post', rfl⟩ := List.head?_eq_some_iff.1 hh
      exact hfree ⟨d, post', rfl, hf⟩
    obtain ⟨e, he⟩ := hW.mmMalloc_refused h16 hnofit hr
    exact ⟨e, reallocMove_error he⟩

/-- **`mm_realloc` ends** where it does not find the memory. -/
theorem WellFormed.mmRealloc_refused (hW : WellFormed L h (pre ++ b :: post) fs)
    (hb : b.alloc = true) (hn0 : n ≠ 0) (hn : n + 35 < 2 ^ 32) (hs : ¬Served L h b.addr n) :
    ∃ e, mmRealloc L h (b.addr + 12) n = .error e := by
  have hB := hW.blocks
  have hbm := hB.mem (b := b) (by simp)
  have hsize := hB.blockSize_eq (b := b) (by simp)
  have hlast := hB.last_iff
  have hbrk := hB.brk
  have hheap := L.heap_lt
  have hmax : MAX_HEAP = 20971520 := rfl
  have h4 := dvd_getBlockSize n
  obtain ⟨hg, hg'⟩ := getBlockSize_bounds (n := n) (by omega)
  have hle : b.size ≤ getBlockSize n + 16 := by
    refine not_lt.1 fun hlt => hs (.shrink ?_)
    rwa [hsize]
  have halloc : h.isAllocated b.addr = true := (hB.isAllocated_eq (by simp)).trans hb
  obtain ⟨hW₀, hk₀⟩ := hW.clearLinks_ok (b := b) (by simp) hb
  have hbrk₀ := hk₀.1
  have hsize₀ := hW₀.blocks.blockSize_eq (b := b) (by simp)
  have hepi : sub32 h.brk 4 = h.brk - 4 := sub32_of_le (by omega) (by omega)
  have hnext : add32 b.addr b.size = b.addr + b.size := add32_of_lt hbm.2.2.2.2.2
  have hnot : ¬(b.addr + 12 = 0 ∨ n = 0 ∨ h.isAllocated b.addr = false) := by simp [hn0, halloc]
  rw [mmRealloc_directGrowth (Nat.succ_ne_zero _) hn0 (hB.sub32_payload (by simp)) halloc,
    directGrowth]
  simp only [hB.sub32_payload (b := b) (by simp), if_neg hnot, add32_getBlockSize hn, hsize,
    if_neg (not_lt.2 hle), hepi, hnext]
  generalize clearLinks h b.addr = h₀ at hW₀ hbrk₀ hsize₀
  by_cases hin : b.addr + b.size = h.brk - 4 ∧ SIZE_OF_BLOCK < sub32 (getBlockSize n) b.size
  · -- case 2, with a difference that wraps or without room
    rw [if_pos hin]
    obtain ⟨hend, hextra⟩ := hin
    have hroom : 4 ∣ sub32 (getBlockSize n) b.size ∧
        ¬Room L h₀.brk (sub32 (getBlockSize n) b.size) := by
      rcases Nat.lt_or_ge (getBlockSize n) b.size with hwrap | hge
      · rw [sub32_of_lt hwrap (by omega)]
        refine ⟨by omega, fun hr => ?_⟩
        have := hr.1
        omega
      · rw [sub32_of_le hge (by omega)] at hextra ⊢
        have hextra' : 16 < getBlockSize n - b.size := hextra
        refine ⟨by omega, fun hr => hs (.grow ?_ ?_ ?_)⟩
        · rwa [hsize]
        · omega
        · rwa [hsize, ← hbrk₀]
    obtain ⟨h₁, bs', fs', -, -, -, hexp⟩ := expandHeap_ok hW₀ hroom.1 hextra
    rcases hexp with ⟨-, he⟩ | ⟨hr, -⟩
    · simp only [he, error_bind]
      exact ⟨_, rfl⟩
    · exact absurd hr hroom.2
  · rw [if_neg hin]
    have hmove : ¬(Room L h.brk (growth n) ∨
        FitsElsewhere L h (getBlockSize n) (b.addr + h.blockSize b.addr)) := by
      refine fun hmem => hs (.move (fun hend => ?_) hmem)
      rw [hsize] at hend ⊢
      have hextra : ¬16 < sub32 (getBlockSize n) b.size := fun hx => hin ⟨hend, hx⟩
      rcases Nat.lt_or_ge (getBlockSize n) b.size with hwrap | hge
      · rw [sub32_of_lt hwrap (by omega)] at hextra
        omega
      · rw [sub32_of_le hge (by omega)] at hextra
        omega
    obtain ⟨hroom, helse⟩ := not_or.1 hmove
    rw [← hnext, ← hsize₀]
    refine hW₀.reallocMerge_refused hb hn (hbrk₀ ▸ hroom) (fun y hy hyf => ?_) fun d hd hf hh => ?_
    · obtain ⟨post, rfl⟩ := List.head?_eq_some_iff.1 hy
      have hya : y.addr = b.addr + b.size := (tiles_split.1 hB.row).2.1
      refine not_lt.1 fun hlt => hs (.merge ?_ ?_)
      · rw [hsize, ← hya]
        exact (hB.isAllocated_eq (by simp)).trans hyf
      · rwa [hsize, ← hya, hB.blockSize_eq (b := y) (by simp)]
    · refine not_le.1 fun hfit => helse ⟨d.addr, hB.isBlock_iff.2 ⟨d, hd, rfl⟩, ?_,
        (hB.isAllocated_eq hd).trans hf, hfit.trans (hB.blockSize_eq hd).ge⟩
      rw [hsize]
      -- only the block behind starts there
      intro hda
      cases post with
      | nil =>
        have hdm := hB.mem hd
        have hend : b.addr + b.size = h.brk - 4 := hlast.1 rfl
        omega
      | cons y post =>
        have hya : y.addr = b.addr + b.size := (tiles_split.1 hB.row).2.1
        exact hh (by rw [hB.inj hd (c := y) (by simp) (hda.trans hya.symm)]; rfl)

theorem Valid.realloc_exits_iff (hV : Valid L w bs fs) (hp : w.Holds p) (hn0 : n ≠ 0)
    (hn : n + 35 < 2 ^ 32) :
    ((∃ h, mmRealloc L w.heap p n = .error (.exit h)) ↔
        ¬Served L w.heap (p - 12) n ∧ memSbrk L w.heap (reallocGrowth w.heap p n) = none) ∧
      ∀ h, mmRealloc L w.heap p n = .error (.exit h) → Intact L w h p := by
  obtain ⟨pre, b, post, rfl, hb, rfl⟩ := hV.exists_block hp
  rw [Nat.add_sub_cancel, memSbrk_eq_none_iff hV.blocks.brk.2]
  rcases hV.toWellFormed.mmRealloc_ok hb hn0 hn with
    ⟨h₁, e, bs', fs', he, hr, hW, hbrk, hpres⟩ | ⟨h', _, _, _, he, -⟩
  · rw [hr.growth_eq hV.blocks hb hn0 hn, he]
    simp only [Except.error.injEq, shortage_eq_exit_iff, hbrk]
    refine ⟨⟨fun ⟨_, _, hw⟩ => ⟨fun hs => hs.not_refused hV.blocks hb hr, hr.not_room, hw⟩,
      fun ⟨_, _, hw⟩ => ⟨h₁, rfl, hw⟩⟩, ?_⟩
    rintro _ ⟨rfl, -⟩
    exact hV.intact hW hbrk hpres (hr.grown hb) (.inr hp)
  · refine ⟨iff_of_false ?_ ?_, fun h he' => absurd (he.symm.trans he') (by simp)⟩
    · rintro ⟨h, he'⟩
      exact absurd (he.symm.trans he') (by simp)
    · rintro ⟨hs, -⟩
      obtain ⟨e, he'⟩ := hV.toWellFormed.mmRealloc_refused hb hn0 hn hs
      exact absurd (he.symm.trans he') (by simp)

/-- The call ends the program. -/
def ends {α : Type*} : Except Fault α → Bool
  | .error (.exit _) => true
  | _ => false

end MallocLab
end CsappLabs
