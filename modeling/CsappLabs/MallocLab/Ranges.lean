/-
# The range list of the driver

`mdriver.c` keeps the extents of the payloads that the allocator has handed out in
a list, the newest one first, and checks each new payload: it has to be aligned,
inside the heap, and must not overlap another one.  The test for an overlap asks
whether an end of the new payload lies in an old one.  So it passes every payload
that is apart from the old ones, and besides only payloads that have an old one
strictly inside (`addRange_eq_ok`).  Whatever the allocator answers, of two
payloads in the list the older one is apart from the newer one or strictly inside
it (`ranges_nested`).  They are inside the heap until the driver moves the break back and
keeps the list, as it does to measure the utilization and the speed.
-/

import CsappLabs.MallocLab.Client

namespace CsappLabs
namespace MallocLab

open Lib Lib.CInt

/-- `range_t`: the first and the last byte of a payload. -/
structure Range where
  lo : ℕ
  hi : ℕ
  deriving DecidableEq, Repr

/-- The messages of `malloc_error`. -/
inductive Message where
  /-- `Payload address (%p) not aligned to %d bytes` -/
  | notAligned (lo : ℕ)
  /-- `Payload (%p:%p) lies outside heap (%p:%p)` -/
  | outsideHeap (lo hi heapLo heapHi : ℕ)
  /-- `Payload (%p:%p) overlaps another payload (%p:%p)` -/
  | overlaps (lo hi : ℕ) (p : Range)
  /-- `mm_malloc failed.` -/
  | mallocFailed
  /-- `mm_realloc failed.` -/
  | reallocFailed
  /-- `mm_realloc did not preserve the data from old block` -/
  | notPreserved
  deriving DecidableEq, Repr

/-- The alignment in `config.h`. -/
abbrev ALIGNMENT : ℕ := 4

/-- An end of the new payload lies in `p`. -/
def Range.Touched (p : Range) (lo hi : ℕ) : Prop :=
  (p.lo ≤ lo ∧ lo ≤ p.hi) ∨ (p.lo ≤ hi ∧ hi ≤ p.hi)

instance (p : Range) (lo hi : ℕ) : Decidable (p.Touched lo hi) :=
  inferInstanceAs (Decidable (_ ∨ _))

/-- `add_range`, with `mem_heap_lo() = L.memStart` and `mem_heap_hi() = brk - 1`.  The
assertion `size > 0` fails with `none`, an error is a message. -/
def addRange (L : Layout) (brk : ℕ) (ranges : List Range) (lo : ℕ) (size : ℤ) :
    Except (Option Message) (List Range) :=
  let hi := sub32 (add32 lo (toSizeT size)) 1
  if ¬0 < size then .error none
  else if lo % ALIGNMENT ≠ 0 then .error (some (.notAligned lo))
  else if lo < L.memStart ∨ lo > brk - 1 ∨ hi < L.memStart ∨ hi > brk - 1 then
    .error (some (.outsideHeap lo hi L.memStart (brk - 1)))
  else
    match ranges.find? fun p => p.Touched lo hi with
    | some p => .error (some (.overlaps lo hi p))
    | none => .ok (⟨lo, hi⟩ :: ranges)

/-- `remove_range`: the first record that starts at `lo` is taken out. -/
def removeRange (ranges : List Range) (lo : ℕ) : List Range := ranges.eraseP fun p => p.lo = lo

/-- `clear_ranges` -/
def clearRanges (_ranges : List Range) : List Range := []

namespace Range

/-- The two ranges share no byte. -/
def Apart (r p : Range) : Prop := r.hi < p.lo ∨ p.hi < r.lo

/-- `p` lies strictly inside `r`. -/
def Encloses (r p : Range) : Prop := r.lo < p.lo ∧ p.hi < r.hi

instance (r p : Range) : Decidable (r.Apart p) := inferInstanceAs (Decidable (_ ∨ _))

instance (r p : Range) : Decidable (r.Encloses p) := inferInstanceAs (Decidable (_ ∧ _))

/-- A range of the list: aligned, not empty, inside the heap. -/
structure Proper (L : Layout) (brk : ℕ) (r : Range) : Prop where
  aligned : 4 ∣ r.lo
  le : r.lo ≤ r.hi
  start : L.memStart ≤ r.lo
  lt : r.hi < brk

theorem Proper.mono {L : Layout} {brk brk' : ℕ} {r : Range} (h : r.Proper L brk) (hb : brk ≤ brk') :
    r.Proper L brk' :=
  ⟨h.aligned, h.le, h.start, h.lt.trans_le hb⟩

/-- No end of a range lies in `p` exactly if the two are apart or `p` is inside. -/
theorem not_touched_iff {r p : Range} (hr : r.lo ≤ r.hi) :
    ¬p.Touched r.lo r.hi ↔ r.Apart p ∨ r.Encloses p := by
  unfold Touched Apart Encloses
  omega

end Range

variable {L : Layout} {brk lo n : ℕ} {ranges : List Range}

/-- The last byte of a payload. -/
theorem hi_eq (hlo : lo < 2 ^ 32) (h0 : 0 < n) (hn : n < 2 ^ 31) :
    sub32 (add32 lo (toSizeT n)) 1 =
      if lo + n ≤ 2 ^ 32 then lo + n - 1 else lo + n - 1 - 2 ^ 32 := by
  rw [toSizeT_natCast (by omega)]
  unfold sub32 add32 u32
  split_ifs <;> omega

/-- **What `add_range` lets pass**: aligned payloads inside the heap that are apart
from each payload of the list or have it strictly inside. -/
theorem addRange_eq_ok {ranges' : List Range} (hbrk : brk ≤ L.memStart + MAX_HEAP)
    (hlo : lo < 2 ^ 32) (hn : n < 2 ^ 31) :
    addRange L brk ranges lo n = .ok ranges' ↔
      ranges' = ⟨lo, lo + n - 1⟩ :: ranges ∧ 0 < n ∧ 4 ∣ lo ∧ L.memStart ≤ lo ∧ lo + n ≤ brk ∧
        ∀ p ∈ ranges, Range.Apart ⟨lo, lo + n - 1⟩ p ∨ Range.Encloses ⟨lo, lo + n - 1⟩ p := by
  have hheap := L.heap_lt
  have hstart := L.start_pos
  have hmax : MAX_HEAP = 20971520 := rfl
  by_cases h0 : 0 < n
  swap
  · simp [addRange, h0]
  by_cases h4 : lo % ALIGNMENT = 0
  swap
  · have h4' : ¬4 ∣ lo := fun h => h4 (Nat.mod_eq_zero_of_dvd h)
    simp [addRange, h0, h4, h4']
  have h4' : 4 ∣ lo := Nat.dvd_of_mod_eq_zero h4
  have hhi := hi_eq hlo h0 hn
  by_cases hin : L.memStart ≤ lo ∧ lo + n ≤ brk
  swap
  · have hout : lo < L.memStart ∨ lo > brk - 1 ∨ sub32 (add32 lo (toSizeT n)) 1 < L.memStart ∨
        sub32 (add32 lo (toSizeT n)) 1 > brk - 1 := by
      rw [hhi]
      split_ifs <;> omega
    rw [addRange, if_neg (by simp; omega), if_neg (by simpa using h4), if_pos hout]
    refine iff_of_false (by simp) ?_
    rintro ⟨-, -, -, hlo', hhi', -⟩
    exact hin ⟨hlo', hhi'⟩
  -- the payload is inside the heap, so its last byte does not wrap
  rw [if_pos (by omega)] at hhi
  rw [addRange, if_neg (by simp; omega), if_neg (by simpa using h4), hhi,
    if_neg (by omega)]
  have htouch : ∀ p ∈ ranges, ¬p.Touched lo (lo + n - 1) ↔
      Range.Apart ⟨lo, lo + n - 1⟩ p ∨ Range.Encloses ⟨lo, lo + n - 1⟩ p :=
    fun p _ => Range.not_touched_iff (r := ⟨lo, lo + n - 1⟩) (by simp only; omega)
  cases hfind : ranges.find? fun p => p.Touched lo (lo + n - 1) with
  | some p =>
    have hmem := List.mem_of_find?_eq_some hfind
    have hp' := List.find?_some hfind
    refine iff_of_false (by simp) ?_
    rintro ⟨-, -, -, -, -, hall⟩
    exact (htouch p hmem).2 (hall p hmem) (by simpa using hp')
  | none =>
    have hnone : ∀ p ∈ ranges, ¬p.Touched lo (lo + n - 1) := by
      simpa using List.find?_eq_none.1 hfind
    constructor
    · intro he
      exact ⟨(Except.ok.inj he).symm, h0, h4', hin.1, hin.2,
        fun p hmem => (htouch p hmem).1 (hnone p hmem)⟩
    · rintro ⟨rfl, -⟩
      rfl

/-! ### Runs -/

/-- What happens to the list and the heap between two checks, whatever the allocator does. -/
inductive RangeOp where
  /-- `mem_reset_brk(); clear_ranges(ranges);` -/
  | reset
  /-- `mem_reset_brk();` -/
  | restart
  /-- `mem_sbrk`, where its sum does not wrap -/
  | grow (incr : ℕ)
  /-- `add_range` for an answer of the allocator -/
  | add (lo size : ℕ)
  /-- `remove_range` -/
  | remove (lo : ℕ)
  deriving DecidableEq

/-- The break and the list, and whether the break was moved back since the list was cleared. -/
structure RangeState where
  brk : ℕ
  ranges : List Range
  back : Bool

/-- The driver's list beside any allocator. -/
def rangeSystem (L : Layout) : System RangeState RangeOp where
  init s := s.brk = L.memStart ∧ s.ranges = []
  next
    | s, .reset => some ⟨L.memStart, clearRanges s.ranges, false⟩
    | s, .restart => some ⟨L.memStart, s.ranges, true⟩
    | s, .grow incr => if s.brk + incr ≤ L.memStart + MAX_HEAP then
        some { s with brk := s.brk + incr } else none
    | s, .add lo size => if lo < 2 ^ 32 ∧ size < 2 ^ 31 then
        (addRange L s.brk s.ranges lo size).toOption.map fun rs => { s with ranges := rs } else none
    | s, .remove lo => some { s with ranges := removeRange s.ranges lo }

/-- What the list satisfies: proper ranges, in the heap if the break was not moved back, and an
older one apart from each newer one or strictly inside it. -/
structure RangesOk (L : Layout) (s : RangeState) : Prop where
  brk : s.brk ≤ L.memStart + MAX_HEAP
  proper : ∀ r ∈ s.ranges, r.Proper L (L.memStart + MAX_HEAP)
  inside : s.back = false → ∀ r ∈ s.ranges, r.Proper L s.brk
  nested : s.ranges.Pairwise fun r p => r.Apart p ∨ r.Encloses p

theorem RangesOk.step {s s' : RangeState} {i : RangeOp} (h : RangesOk L s)
    (hn : (rangeSystem L).next s i = some s') : RangesOk L s' := by
  cases i with
  | reset =>
    obtain rfl := Option.some.inj hn
    exact ⟨Nat.le_add_right .., by simp [clearRanges], by simp [clearRanges], List.Pairwise.nil⟩
  | restart =>
    obtain rfl := Option.some.inj hn
    exact ⟨Nat.le_add_right .., h.proper, fun hback => absurd hback (by simp), h.nested⟩
  | grow incr =>
    obtain ⟨hle, hs⟩ := Option.ite_none_right_eq_some.1 hn
    obtain rfl := Option.some.inj hs
    exact ⟨hle, h.proper, fun hback r hr => (h.inside hback r hr).mono (Nat.le_add_right ..),
      h.nested⟩
  | remove lo =>
    obtain rfl := Option.some.inj hn
    exact ⟨h.brk, fun r hr => h.proper r (List.mem_of_mem_eraseP hr),
      fun hback r hr => h.inside hback r (List.mem_of_mem_eraseP hr),
      h.nested.sublist List.eraseP_sublist⟩
  | add lo size =>
    obtain ⟨⟨hlo, hsize⟩, hs⟩ := Option.ite_none_right_eq_some.1 hn
    obtain ⟨rs, hrs, rfl⟩ := Option.map_eq_some_iff.1 hs
    have hok : addRange L s.brk s.ranges lo size = .ok rs := by
      cases he : addRange L s.brk s.ranges lo size with
      | error e => rw [he] at hrs; exact absurd hrs (by simp [Except.toOption])
      | ok r => rw [he] at hrs; exact congrArg _ (Option.some.inj hrs)
    obtain ⟨rfl, h0, h4, hstart, hend, hall⟩ :=
      (addRange_eq_ok h.brk hlo hsize).1 hok
    have hnew : Range.Proper L s.brk ⟨lo, lo + size - 1⟩ :=
      ⟨h4, by simp only; omega, hstart, by simp only; omega⟩
    refine ⟨h.brk, ?_, fun hback => ?_, List.pairwise_cons.2 ⟨hall, h.nested⟩⟩
    · exact List.forall_mem_cons.2 ⟨hnew.mono h.brk, h.proper⟩
    · exact List.forall_mem_cons.2 ⟨hnew, h.inside hback⟩

theorem rangesOk_of_reach {s : RangeState} (hs : (rangeSystem L).Reach s) : RangesOk L s := by
  refine hs.induct (P := RangesOk L) (fun s h0 => ?_) fun s i s' _ ih _ hn => ih.step hn
  exact ⟨h0.1.trans_le (Nat.le_add_right ..), by simp [h0.2], by simp [h0.2], by simp [h0.2]⟩

/-- **What the range list guarantees**, whatever the allocator answers: at any time its
payloads are aligned and in the memory of the heap, below the break if it was not moved back
since the list was cleared; and of any two the older one is apart from the newer one or strictly
inside it.  The next payload is accepted exactly if it is in the heap and so too. -/
theorem ranges_nested {s : RangeState} (hs : (rangeSystem L).Reach s) :
    RangesOk L s ∧ ∀ (lo n : ℕ) ranges', lo < 2 ^ 32 → n < 2 ^ 31 →
      (addRange L s.brk s.ranges lo n = .ok ranges' ↔
        ranges' = ⟨lo, lo + n - 1⟩ :: s.ranges ∧ 0 < n ∧ 4 ∣ lo ∧ L.memStart ≤ lo ∧
          lo + n ≤ s.brk ∧ ∀ p ∈ s.ranges,
            Range.Apart ⟨lo, lo + n - 1⟩ p ∨ Range.Encloses ⟨lo, lo + n - 1⟩ p) := by
  have hok := rangesOk_of_reach hs
  exact ⟨hok, fun lo n ranges' hlo hn => addRange_eq_ok hok.brk hlo hn⟩

/-- Two payloads in the list that overlap, as the newer one begins before the older one and ends
behind it; then the break is moved back. -/
theorem ranges_nested_enclosed :
    let s := ((rangeSystem .low).run ⟨128, [], false⟩
      [.grow 4096, .add 256 8, .add 192 256, .restart]).getD ⟨128, [], false⟩
    s.ranges = [⟨192, 447⟩, ⟨256, 263⟩] ∧ RangesOk .low s ∧ ∀ (lo n : ℕ) ranges', lo < 2 ^ 32 →
      n < 2 ^ 31 → (addRange .low s.brk s.ranges lo n = .ok ranges' ↔
        ranges' = ⟨lo, lo + n - 1⟩ :: s.ranges ∧ 0 < n ∧ 4 ∣ lo ∧ Layout.low.memStart ≤ lo ∧
          lo + n ≤ s.brk ∧ ∀ p ∈ s.ranges,
            Range.Apart ⟨lo, lo + n - 1⟩ p ∨ Range.Encloses ⟨lo, lo + n - 1⟩ p) := by
  intro s
  have h₀ : (rangeSystem .low).Reach ⟨128, [], false⟩ := .init ⟨rfl, rfl⟩
  exact ⟨by decide, ranges_nested (h₀.getD_run _)⟩

end MallocLab
end CsappLabs
