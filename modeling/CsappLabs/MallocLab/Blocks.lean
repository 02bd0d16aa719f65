/-
# The blocks of the heap

The heap behind the prologue is a row of blocks up to the epilogue.  `Blk` is a
block as the proofs see it: besides its address, size and allocated bit it says
whether the footer holds the size or `0`, the two values that the allocator
leaves there.

`Blocks L h bs` says that the tags in the memory are those of `bs`.  A step of
the allocator writes a few words (`Within`), and inside a part of the row that it
rearranges; the rest of the row stays as it is (`Blocks.splice`).  What users may
write are the words between the header and the footer of an allocated block, and
the allocator keeps to the others (`Outside`).
-/

import CsappLabs.Lib.Tiling
import CsappLabs.MallocLab.Mm
import Mathlib.Data.Set.Basic

namespace CsappLabs
namespace MallocLab

open Lib Lib.CInt Lib.Memory Lib.Tiling

/-! ### Reading and writing words -/

variable {L : Layout} {h h' h'' : Heap} {p q v a : ℕ} {W W' : Set ℕ}

theorem Heap.read_lt (h : Heap) (p : ℕ) : h.read p < 2 ^ 32 := load_lt ..

theorem Heap.read_write (hp : 4 ∣ p) (hq : 4 ∣ q) :
    (h.write p v).read q = if q = p then v % 2 ^ 32 else h.read q := load_store hp hq

theorem Heap.read_write_self (hv : v < 2 ^ 32) : (h.write p v).read p = v :=
  (load_store_self ..).trans (Nat.mod_eq_of_lt hv)

theorem Heap.read_write_of_ne (hp : 4 ∣ p) (hq : 4 ∣ q) (hne : q ≠ p) :
    (h.write p v).read q = h.read q := by rw [Heap.read_write hp hq, if_neg hne]

theorem Heap.write_write (h : Heap) (p v v' : ℕ) : (h.write p v).write p v' = h.write p v' := by
  unfold Heap.write
  rw [store_store]

/-- `BLOCK_SIZE` of a free block. -/
theorem Heap.blockSize_of_read (hread : h.read p = v) (hv : 4 ∣ v) : h.blockSize p = v := by
  show alignDown 2 (h.read p) = v
  rw [hread, alignDown]
  omega

/-- `FOOTER` of a free block. -/
theorem Heap.footer_of_read (hread : h.read p = v) (hv : 4 ∣ v) (h4 : 4 ≤ v)
    (hlt : p + v < 2 ^ 32) : h.footer p = p + v - 4 := by
  rw [Heap.footer, Heap.blockSize_of_read hread hv, add32_of_lt hlt,
    sub32_of_le (by omega) (by omega)]

/-- Only bytes of words of `W` change, and the break stays. -/
def Within (W : Set ℕ) (h h' : Heap) : Prop :=
  h'.brk = h.brk ∧ ∀ q, 4 ∣ q → q ∉ W → ∀ i, q ≤ i → i < q + 4 → h'.mem i = h.mem i

namespace Within

theorem refl (W : Set ℕ) (h : Heap) : Within W h h := ⟨rfl, fun _ _ _ _ _ _ => rfl⟩

theorem trans (h1 : Within W h h') (h2 : Within W h' h'') : Within W h h'' :=
  ⟨h2.1.trans h1.1, fun q hq hW i hi hi' => (h2.2 q hq hW i hi hi').trans (h1.2 q hq hW i hi hi')⟩

theorem mono (hw : Within W h h') (hW : W ⊆ W') : Within W' h h' :=
  ⟨hw.1, fun q hq hn => hw.2 q hq fun hm => hn (hW hm)⟩

theorem read (hw : Within W h h') (hq : 4 ∣ q) (hn : q ∉ W) : h'.read q = h.read q :=
  load_congr fun i hi hi' => hw.2 q hq hn i hi hi'

theorem write (hp : 4 ∣ p) : Within {p} h (h.write p v) := by
  refine ⟨rfl, fun q hq hne i hi hi' => store_of_not_mem ?_⟩
  have : q ≠ p := hne
  omega

/-- One more word of the set is written. -/
theorem write_mem (hw : Within W h h') (hp : 4 ∣ p) (hm : p ∈ W) : Within W h (h'.write p v) :=
  hw.trans ((write hp).mono (Set.singleton_subset_iff.2 hm))

end Within

/-! ### A block and its tags -/

/-- A block: `tagged` if its footer holds its size, else the footer holds `0`. -/
structure Blk where
  addr : ℕ
  size : ℕ
  alloc : Bool
  tagged : Bool
  deriving DecidableEq

namespace Blk

/-- The word `size` of the block. -/
def header (b : Blk) : ℕ := b.size + b.alloc.toNat

/-- The word that the footer holds. -/
def tag (b : Blk) : ℕ := if b.tagged then b.size else 0

/-- The end of the block. -/
def stop (b : Blk) : ℕ := b.addr + b.size

end Blk

/-- The row of blocks from `a` to `e`. -/
abbrev Row (a : ℕ) (bs : List Blk) (e : ℕ) : Prop := Tiles Blk.addr Blk.size a bs e

/-- Sizes are multiples of `4` and leave room for the header and the footer. -/
def Sized (bs : List Blk) : Prop := ∀ b ∈ bs, 4 ∣ b.size ∧ 16 ≤ b.size

/-- The memory holds the tags of the block. -/
def Tagged (h : Heap) (b : Blk) : Prop :=
  h.read b.addr = b.header ∧ h.read (b.addr + b.size - 4) = b.tag

/-- The memory between the prologue and the break is the row `bs`. -/
structure Blocks (L : Layout) (h : Heap) (bs : List Blk) : Prop where
  brk : L.memStart + 12 ≤ h.brk ∧ h.brk ≤ L.memStart + MAX_HEAP
  row : Row (L.memStart + 8) bs (h.brk - 4)
  sized : Sized bs
  tagged : ∀ b ∈ bs, Tagged h b
  prologue : h.read L.memStart = 9 ∧ h.read (L.memStart + 4) = 8
  epilogue : h.read (h.brk - 4) = 1

namespace Blocks

variable {bs pre mid mid' post : List Blk} {b c : Blk}

/-- Where a block is, and that its words are aligned. -/
theorem mem (hB : Blocks L h bs) (hb : b ∈ bs) :
    4 ∣ b.addr ∧ 4 ∣ b.size ∧ 16 ≤ b.size ∧ L.memStart + 8 ≤ b.addr ∧
      b.addr + b.size + 4 ≤ h.brk ∧ b.addr + b.size < 2 ^ 32 := by
  have hstart := L.start_dvd
  have hlt := L.heap_lt
  have hbrk := hB.brk
  obtain ⟨hlo, hhi⟩ := hB.row.mem hb
  obtain ⟨hdvd, h16⟩ := hB.sized b hb
  have ha := (hB.row.dvd (k := 4) (by omega) fun x hx => (hB.sized x hx).1).2 b hb
  refine ⟨ha, hdvd, h16, hlo, ?_, ?_⟩ <;> omega

theorem brk_dvd (hB : Blocks L h bs) : 4 ∣ h.brk := by
  have hstart := L.start_dvd
  have hbrk := hB.brk
  have := (hB.row.dvd (k := 4) (by omega) fun x hx => (hB.sized x hx).1).1
  omega

/-- Blocks are determined by their addresses. -/
theorem inj (hB : Blocks L h bs) (hb : b ∈ bs) (hc : c ∈ bs) (he : b.addr = c.addr) : b = c :=
  hB.row.inj (fun x hx => lt_of_lt_of_le (by norm_num) (hB.sized x hx).2) hb hc he

/-- Two blocks at different addresses do not overlap. -/
theorem apart_of_ne (hB : Blocks L h bs) (hb : b ∈ bs) (hc : c ∈ bs) (hne : b.addr ≠ c.addr) :
    b.addr + b.size ≤ c.addr ∨ c.addr + c.size ≤ b.addr := by
  have hbc : b ≠ c := fun he => hne (congrArg Blk.addr he)
  exact hB.row.apart_of_ne hb hc hbc

theorem nodup (hB : Blocks L h bs) : (bs.map Blk.addr).Nodup :=
  hB.row.nodup fun x hx => lt_of_lt_of_le (by norm_num) (hB.sized x hx).2

/-- The other blocks have other addresses. -/
theorem addr_ne (hB : Blocks L h (pre ++ c :: post)) (hb : b ∈ pre ++ post) :
    b.addr ≠ c.addr := by
  have hnd := hB.nodup
  rw [List.map_append, List.map_cons] at hnd
  have hnot := (List.nodup_cons.1 (List.perm_middle.nodup_iff.1 hnd)).1
  rw [← List.map_append] at hnot
  exact fun he => hnot (he ▸ List.mem_map_of_mem hb)

theorem blockSize_eq (hB : Blocks L h bs) (hb : b ∈ bs) : h.blockSize b.addr = b.size := by
  have h4 := (hB.sized b hb).1
  show alignDown 2 (h.read b.addr) = b.size
  rw [(hB.tagged b hb).1, Blk.header, alignDown]
  cases b.alloc <;> simp only [Bool.toNat_false, Bool.toNat_true] <;> omega

theorem isAllocated_eq (hB : Blocks L h bs) (hb : b ∈ bs) : h.isAllocated b.addr = b.alloc := by
  have h4 := (hB.sized b hb).1
  show decide (h.read b.addr % 2 = 1) = b.alloc
  rw [(hB.tagged b hb).1, Blk.header]
  cases b.alloc <;> simp only [Bool.toNat_false, Bool.toNat_true, decide_eq_true_eq,
    decide_eq_false_iff_not] <;> omega

/-- The footer of a block is its last word. -/
theorem footer_eq (hB : Blocks L h bs) (hb : b ∈ bs) :
    h.footer b.addr = b.addr + b.size - 4 := by
  obtain ⟨-, -, h16, -, -, hlt⟩ := hB.mem hb
  rw [Heap.footer, hB.blockSize_eq hb, add32_of_lt hlt, sub32_of_le (by omega) (by omega)]

/-- **Rearranging a part of the row.**  Writes inside the range of `mid` that
leave the tags of `mid'` there turn the row into one with `mid'`. -/
theorem splice (hB : Blocks L h (pre ++ mid ++ post)) {lo hi : ℕ} (hlo : Row lo mid hi)
    (hmid : mid ≠ []) (hlo' : Row lo mid' hi) (hw : Within W h h')
    (hW : ∀ q ∈ W, 4 ∣ q → lo ≤ q ∧ q < hi) (hs : Sized mid') (ht : ∀ b ∈ mid', Tagged h' b) :
    Blocks L h' (pre ++ mid' ++ post) := by
  have hbrk := hB.brk
  have hstart := L.start_dvd
  have hbd := hB.brk_dvd
  -- the range of `mid` in the row
  obtain ⟨hi', hpm, hpost⟩ := tiles_append.1 hB.row
  obtain ⟨lo', hpre, hmid'⟩ := tiles_append.1 hpm
  obtain ⟨x, xs, rfl⟩ := List.exists_cons_of_ne_nil hmid
  obtain rfl : lo' = lo := hmid'.1.symm.trans hlo.1
  obtain rfl := hmid'.end_unique hlo
  have hprele := hpre.le
  have hpostle := hpost.le
  have hread : ∀ q, 4 ∣ q → q < lo' ∨ hi' ≤ q → h'.read q = h.read q := fun q hq hout =>
    hw.read hq fun hm => by have := hW q hm hq; omega
  refine ⟨by rw [hw.1]; exact hbrk, ?_, ?_, ?_, ?_, ?_⟩
  · rw [hw.1]
    exact tiles_append.2 ⟨_, tiles_append.2 ⟨_, hpre, hlo'⟩, hpost⟩
  · intro b hb
    simp only [List.mem_append] at hb
    rcases hb with (hb | hb) | hb
    · exact hB.sized b (by simp [hb])
    · exact hs b hb
    · exact hB.sized b (by simp [hb])
  · intro b hb
    simp only [List.mem_append] at hb
    rcases hb with (hb | hb) | hb
    · have hmem : b ∈ pre ++ (x :: xs) ++ post := by simp [hb]
      obtain ⟨h4, h4s, h16, -⟩ := hB.mem hmem
      have := hpre.mem hb
      obtain ⟨hh, hf⟩ := hB.tagged b hmem
      exact ⟨(hread _ h4 (by omega)).trans hh, (hread _ (by omega) (by omega)).trans hf⟩
    · exact ht b hb
    · have hmem : b ∈ pre ++ (x :: xs) ++ post := by simp [hb]
      obtain ⟨h4, h4s, h16, -⟩ := hB.mem hmem
      have := hpost.mem hb
      obtain ⟨hh, hf⟩ := hB.tagged b hmem
      exact ⟨(hread _ h4 (by omega)).trans hh, (hread _ (by omega) (by omega)).trans hf⟩
  · exact ⟨(hread _ hstart (by omega)).trans hB.prologue.1,
      (hread _ (by omega) (by omega)).trans hB.prologue.2⟩
  · rw [hw.1]
    exact (hread _ (by omega) (by omega)).trans hB.epilogue

/-- Words that are tags of blocks, of the prologue or of the epilogue. -/
def Tag (L : Layout) (h : Heap) (bs : List Blk) (q : ℕ) : Prop :=
  q = L.memStart ∨ q = L.memStart + 4 ∨ q = h.brk - 4 ∨
    ∃ b ∈ bs, q = b.addr ∨ q = b.addr + b.size - 4

/-- Writing no tag changes no block. -/
theorem frame (hB : Blocks L h bs) (hw : Within W h h') (hW : ∀ q ∈ W, 4 ∣ q → ¬Tag L h bs q) :
    Blocks L h' bs := by
  have hstart := L.start_dvd
  have hbd := hB.brk_dvd
  have hread : ∀ q, 4 ∣ q → Tag L h bs q → h'.read q = h.read q := fun q hq ht =>
    hw.read hq fun hm => hW q hm hq ht
  refine ⟨by rw [hw.1]; exact hB.brk, by rw [hw.1]; exact hB.row, hB.sized, fun b hb => ?_, ?_, ?_⟩
  · obtain ⟨h4, h4s, h16, -⟩ := hB.mem hb
    obtain ⟨hh, hf⟩ := hB.tagged b hb
    exact ⟨(hread _ h4 (.inr (.inr (.inr ⟨b, hb, .inl rfl⟩)))).trans hh,
      (hread _ (by omega) (.inr (.inr (.inr ⟨b, hb, .inr rfl⟩)))).trans hf⟩
  · exact ⟨(hread _ hstart (.inl rfl)).trans hB.prologue.1,
      (hread _ (by omega) (.inr (.inl rfl))).trans hB.prologue.2⟩
  · rw [hw.1]
    exact (hread _ (by have := hB.brk; omega) (.inr (.inr (.inl rfl)))).trans hB.epilogue

end Blocks

/-! ### What users may write -/

/-- The words outside the payload areas of the allocated blocks. -/
def Outside (bs : List Blk) : Set ℕ :=
  {q | ∀ b ∈ bs, b.alloc = true → q < b.addr + 12 ∨ b.addr + b.size - 4 ≤ q}

/-- The allocator leaves the payload areas alone. -/
abbrev Keeps (bs : List Blk) (h h' : Heap) : Prop := Within (Outside bs) h h'

namespace Blocks

variable {bs : List Blk} {b : Blk}

/-- The first three words of a block are outside. -/
theorem outside_header (hB : Blocks L h bs) (hb : b ∈ bs) (hlo : b.addr ≤ q)
    (hhi : q < b.addr + 12) : q ∈ Outside bs := by
  intro c hc _
  have := hB.mem hb
  rcases hB.row.apart hb hc with rfl | h | h
  · exact .inl hhi
  · exact .inl (by omega)
  · exact .inr (by omega)

/-- The footer of a block is outside. -/
theorem outside_footer (hB : Blocks L h bs) (hb : b ∈ bs) :
    b.addr + b.size - 4 ∈ Outside bs := by
  intro c hc _
  have := hB.mem hb
  have := hB.mem hc
  rcases hB.row.apart hb hc with rfl | h | h
  · exact .inr le_rfl
  · exact .inl (by omega)
  · exact .inr (by omega)

/-- A free block is outside. -/
theorem outside_free (hB : Blocks L h bs) (hb : b ∈ bs) (hf : b.alloc = false) (hlo : b.addr ≤ q)
    (hhi : q < b.addr + b.size) : q ∈ Outside bs := by
  intro c hc ha
  have := hB.mem hc
  rcases hB.row.apart hb hc with rfl | h | h
  · exact absurd ha (by simp [hf])
  · exact .inl (by omega)
  · exact .inr (by omega)

/-- What is not between the prologue and the epilogue is outside. -/
theorem outside_heap (hB : Blocks L h bs) (hq : q < L.memStart + 8 ∨ h.brk ≤ q + 4) :
    q ∈ Outside bs := by
  intro c hc _
  have := hB.mem hc
  rcases hq with hq | hq
  · exact .inl (by omega)
  · exact .inr (by omega)

end Blocks

end MallocLab
end CsappLabs
