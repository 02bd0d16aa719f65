/-
# The driver and the allocator

The driver keeps to the contract of the allocator as long as a trace gives back and
resizes only ids that are in use (`Proper`).  Then what it keeps for each id in use is
a block in use (`Serves`), the range list holds these payloads, and each payload is
filled with the low byte of its id (`Follows`).  So `eval_mm_valid` finds no fault with
a request, but one: it compares a `char` with a number up to 255, and takes every
resized block for damaged whose id has a low byte from 128 on (`evalMmValid_iff`).
-/

import CsappLabs.MallocLab.Driver
import CsappLabs.MallocLab.Breaks
import CsappLabs.MallocLab.Payloads

namespace CsappLabs
namespace MallocLab

open Lib Lib.CInt Lib.Memory Lib.Tiling

variable {L : Layout} {w : World} {h h' : Heap} {bs : List Blk} {fs : List ℕ}
  {l : List (ℕ × ℕ)} {blocks sizes : ℕ → ℕ} {ranges : List Range} {n p q i : ℕ} {op : TraceOp}
  {ops : List TraceOp}

/-! ### Traces -/

/-- The ids in use with their sizes, the newest first, after a request. -/
def TraceOp.book (op : TraceOp) (l : List (ℕ × ℕ)) : List (ℕ × ℕ) :=
  match op.type with
  | .ALLOC => (op.index, op.size.toNat) :: l
  | .REALLOC => (op.index, op.size.toNat) :: l.filter fun x => x.1 != op.index
  | .FREE => l.filter fun x => x.1 != op.index

/-- The request fits the ids in use. -/
def TraceOp.Fits (op : TraceOp) (l : List (ℕ × ℕ)) : Prop :=
  match op.type with
  | .ALLOC => op.index ∉ l.map Prod.fst ∧ 0 < op.size ∧ op.size < 2 ^ 31
  | .REALLOC => op.index ∈ l.map Prod.fst ∧ 0 < op.size ∧ op.size < 2 ^ 31
  | .FREE => op.index ∈ l.map Prod.fst

/-- Each request of the trace fits the ids in use when it is made. -/
def Proper : List TraceOp → List (ℕ × ℕ) → Prop
  | [], _ => True
  | op :: ops, l => op.Fits l ∧ Proper ops (op.book l)

/-- The blocks in use are those of the ids in use. -/
def held (blocks : ℕ → ℕ) (l : List (ℕ × ℕ)) : List (ℕ × ℕ) := l.map fun x => (blocks x.1, x.2)

/-- The driver knows the blocks in use. -/
structure Serves (L : Layout) (h : Heap) (blocks : ℕ → ℕ) (l : List (ℕ × ℕ)) : Prop where
  ids : (l.map Prod.fst).Nodup
  valid : ∃ bs fs, Valid L ⟨h, held blocks l⟩ bs fs

theorem ne_of_not_mem {x : ℕ × ℕ} (hi : i ∉ l.map Prod.fst) (hx : x ∈ l) : x.1 ≠ i :=
  fun he => hi (he ▸ List.mem_map_of_mem (f := Prod.fst) hx)

theorem held_update (hi : i ∉ l.map Prod.fst) :
    held (Function.update blocks i p) l = held blocks l := by
  refine List.map_congr_left fun x hx => ?_
  rw [Function.update_of_ne (ne_of_not_mem hi hx)]

theorem not_mem_filter (l : List (ℕ × ℕ)) (i : ℕ) :
    i ∉ (l.filter fun x => x.1 != i).map Prod.fst := by
  intro hm
  obtain ⟨x, hx, rfl⟩ := List.mem_map.1 hm
  simpa using (List.mem_filter.1 hx).2

/-- The bytes by which a request may grow the heap, resizing apart. -/
def TraceOp.cost (op : TraceOp) : ℕ :=
  match op.type with
  | .ALLOC => growth op.size.toNat
  | _ => 0

/-! ### The calls, as the driver sees them -/

theorem mmMalloc_of_call {w' : World} (he : w.call L (.malloc n) = .ok w')
    (hl : w'.live = (p, n) :: w.live) : mmMalloc L w.heap n = .ok (w'.heap, some p) := by
  have he' : (mmMalloc L w.heap n >>= fun r => pure (f := Except Fault)
    (World.mk r.1 ((r.2.map fun ptr => (ptr, n)).toList ++ w.live))) = .ok w' := he
  cases hm : mmMalloc L w.heap n with
  | error e => rw [hm] at he'; exact absurd he' (by simp)
  | ok r =>
    obtain ⟨h', o⟩ := r
    rw [hm, ok_bind] at he'
    obtain rfl := Except.ok.inj he'
    cases o with
    | none => exact absurd (congrArg List.length hl) (by simp)
    | some q =>
      have hq : q = p := by simpa using hl
      rw [hq]

theorem mmMalloc_of_call_error {e : Fault} (he : w.call L (.malloc n) = .error e) :
    mmMalloc L w.heap n = .error e := by
  have he' : (mmMalloc L w.heap n >>= fun r => pure (f := Except Fault)
    (World.mk r.1 ((r.2.map fun ptr => (ptr, n)).toList ++ w.live))) = .error e := he
  cases hm : mmMalloc L w.heap n with
  | error e' => rw [hm, error_bind] at he'; exact congrArg _ (Except.error.inj he')
  | ok r => rw [hm, ok_bind] at he'; exact absurd he' (by simp [pure, Except.pure])

theorem Malloced.brk_le {brk brk' : ℕ} {fs' : List ℕ} {pre post : List Blk} {c : Blk}
    (hm : Malloced L n brk bs fs pre c post fs' brk') :
    brk ≤ brk' ∧ brk' ≤ brk + growth n := by
  cases hm with
  | fit => exact ⟨le_rfl, Nat.le_add_right ..⟩
  | grow => exact ⟨Nat.le_add_right .., le_rfl⟩

theorem mem_held {x : ℕ × ℕ} (hx : x ∈ l) : (blocks x.1, x.2) ∈ held blocks l :=
  List.mem_map_of_mem hx

namespace Serves

/-- Two ids in use have different blocks. -/
theorem inj (hs : Serves L h blocks l) {x y : ℕ × ℕ} (hx : x ∈ l) (hy : y ∈ l)
    (he : blocks x.1 = blocks y.1) : x = y := by
  obtain ⟨bs, fs, hV⟩ := hs.valid
  have hnd := hV.owned.nodup
  have hmap : (held blocks l).map Prod.fst = l.map fun x => blocks x.1 := by simp [held]
  rw [show (World.mk h (held blocks l)).live = held blocks l from rfl, hmap] at hnd
  exact List.inj_on_of_nodup_map hnd hx hy he

/-- What the driver holds without one block. -/
theorem without_eq (hs : Serves L h blocks l) (hi : i ∈ l.map Prod.fst) :
    (World.mk h (held blocks l)).without (blocks i) =
      held blocks (l.filter fun x => x.1 != i) := by
  obtain ⟨x, hx, rfl⟩ := List.mem_map.1 hi
  show (l.map fun x => (blocks x.1, x.2)).filter _ = (l.filter _).map _
  rw [List.filter_map]
  refine congrArg _ (List.filter_congr fun y hy => ?_)
  have hxy : (blocks y.1 = blocks x.1) ↔ y.1 = x.1 :=
    ⟨fun he => congrArg _ (hs.inj hy hx he), fun he => he ▸ rfl⟩
  simp [bne, hxy]

/-- An answer of `mm_malloc`. -/
theorem malloc (hs : Serves L h blocks l) (hi : i ∉ l.map Prod.fst) (hn : n + 19 < 2 ^ 32) :
    (L.memStart + MAX_HEAP < h.brk + growth n ∧ ∃ e, mmMalloc L h n = .error e ∧ e.NoMemory) ∨
      ∃ h' p, mmMalloc L h n = .ok (h', some p) ∧ h.brk ≤ h'.brk ∧ h'.brk ≤ h.brk + growth n ∧
        Serves L h' (Function.update blocks i p) ((i, n) :: l) ∧
        ∀ x ∈ l, ∀ k < x.2, h'.mem (blocks x.1 + k) = h.mem (blocks x.1 + k) := by
  obtain ⟨bs, fs, hV⟩ := hs.valid
  rcases hV.malloc hn with
    ⟨-, hr, h₁, -, -, he, -⟩ | ⟨w', pre, c, post, fs', he, hm, hl, hV', hu⟩
  · have hlt := L.heap_lt
    have hmax : MAX_HEAP = 20971520 := rfl
    have hbrk : L.memStart + 12 ≤ h.brk := hV.blocks.brk.1
    refine .inl ⟨not_le.1 fun hle => hr ⟨by omega, hle⟩, _, mmMalloc_of_call_error he, ?_⟩
    exact noMemory_shortage ..
  · refine .inr ⟨w'.heap, c.addr + 12, mmMalloc_of_call he hl, ?_, ?_, ⟨?_, ?_⟩, ?_⟩
    · exact hm.brk_le.1
    · exact hm.brk_le.2
    · exact List.nodup_cons.2 ⟨hi, hs.ids⟩
    · have hheld : held (Function.update blocks i (c.addr + 12)) ((i, n) :: l) = w'.live := by
        rw [hl, ← held_update (p := c.addr + 12) hi]
        simp [held]
      rw [hheld]
      exact ⟨_, _, hV'⟩
    · intro x hx k hk
      refine hu _ (mem_held hx) ?_ _ (Nat.le_add_right ..) (Nat.add_lt_add_left hk _)
      rw [hl]
      exact List.mem_cons_of_mem _ (mem_held hx)

/-- `mm_free` of the block of an id in use. -/
theorem free (hs : Serves L h blocks l) (hi : i ∈ l.map Prod.fst) :
    (mmFree L h (blocks i)).brk = h.brk ∧
      Serves L (mmFree L h (blocks i)) blocks (l.filter fun x => x.1 != i) ∧
      ∀ x ∈ l, x.1 ≠ i → ∀ k < x.2,
        (mmFree L h (blocks i)).mem (blocks x.1 + k) = h.mem (blocks x.1 + k) := by
  have hwithout := hs.without_eq hi
  obtain ⟨bs, fs, hV⟩ := hs.valid
  obtain ⟨y, hy, rfl⟩ := List.mem_map.1 hi
  obtain ⟨pre, b, post, rfl, hb, hp⟩ := hV.exists_block (p := blocks y.1) ⟨_, mem_held hy, rfl⟩
  obtain ⟨w', bs', fs', he, -, -, hbrk, hV', hu⟩ := hV.free_block hb
  rw [← hp] at he
  obtain rfl := Except.ok.inj ((Valid.call_free L _ _).symm.trans he)
  rw [hwithout] at hV'
  refine ⟨hbrk, ⟨?_, ?_⟩, ?_⟩
  · exact hs.ids.sublist (List.filter_sublist.map _)
  · exact ⟨_, _, hV'⟩
  · intro x hx hxi k hk
    refine hu _ (mem_held hx) ?_ _ (Nat.le_add_right ..) (Nat.add_lt_add_left hk _)
    show _ ∈ (World.mk h (held blocks l)).without (blocks y.1)
    rw [hwithout]
    exact mem_held (List.mem_filter.2 ⟨hx, by simpa using hxi⟩)

/-- An answer of `mm_realloc`, if it does not grow the last block in place. -/
theorem realloc (hs : Serves L h blocks l) {m : ℕ} (hi : (i, m) ∈ l) (h0 : n ≠ 0)
    (hn : n + 35 < 2 ^ 32) (hg : ¬GrowsInPlace h (blocks i) n) :
    (∃ e, mmRealloc L h (blocks i) n = .error e ∧ e.NoMemory) ∨
      ∃ h' q, mmRealloc L h (blocks i) n = .ok (h', some q) ∧
        Serves L h' (Function.update blocks i q) ((i, n) :: l.filter fun x => x.1 != i) ∧
        (∀ k, k < m → k < n → h'.mem (q + k) = h.mem (blocks i + k)) ∧
        ∀ x ∈ l, x.1 ≠ i → ∀ k < x.2, h'.mem (blocks x.1 + k) = h.mem (blocks x.1 + k) := by
  have hmem : i ∈ l.map Prod.fst := List.mem_map_of_mem (f := Prod.fst) hi
  have hwithout := hs.without_eq hmem
  have hinj := fun {x y} => hs.inj (x := x) (y := y)
  obtain ⟨bs, fs, hV⟩ := hs.valid
  obtain ⟨pre, b, post, rfl, hb, hp⟩ := hV.exists_block (p := blocks i) ⟨_, mem_held hi, rfl⟩
  rw [hp] at hg hwithout ⊢
  have hcare : Careful ⟨h, held blocks l⟩ (.realloc (b.addr + 12) n) := fun _ _ => ⟨hn, hg⟩
  rcases hV.toWellFormed.mmRealloc_ok hb h0 hn with ⟨h₁, _, -, -, he, -⟩ | ⟨h', -, -, c, he, -⟩
  · exact .inl ⟨_, he, noMemory_shortage ..⟩
  have hcall : (World.mk h (held blocks l)).call L (.realloc (b.addr + 12) n) =
      .ok ⟨h', (c.addr + 12, n) :: held blocks (l.filter fun x => x.1 != i)⟩ := by
    rw [← hwithout]
    show (mmRealloc L h (b.addr + 12) n >>= fun r => _) = _
    rw [he, ok_bind]
    rfl
  rcases hV.realloc_block hb h0 hcare with ⟨e, hno, -⟩ | ⟨w', bs', fs', q, hcall', hl, hV', hR⟩
  · exact absurd (hcall.symm.trans hno) (by simp)
  obtain rfl := Except.ok.inj (hcall.symm.trans hcall')
  rw [hwithout] at hl
  obtain rfl : c.addr + 12 = q := congrArg Prod.fst (List.cons.inj hl).1
  have hRm := hR m (hp ▸ mem_held hi)
  refine .inr ⟨h', c.addr + 12, he, ⟨?_, ?_⟩, hRm.bytes, fun x hx hxi k hk => ?_⟩
  · exact List.nodup_cons.2 ⟨not_mem_filter l i, hs.ids.sublist (List.filter_sublist.map _)⟩
  · have hheld : held (Function.update blocks i (c.addr + 12))
        ((i, n) :: l.filter fun x => x.1 != i) =
        (c.addr + 12, n) :: held blocks (l.filter fun x => x.1 != i) := by
      rw [← held_update (p := c.addr + 12) (not_mem_filter l i)]
      simp [held]
    rw [hheld]
    exact ⟨_, _, hV'⟩
  · refine hRm.others _ (mem_held hx) (fun he => hxi ?_) _ (Nat.le_add_right ..)
      (Nat.add_lt_add_left hk _)
    exact congrArg Prod.fst (hinj hx hi (he.trans hp.symm))

/-- The payload of an id in use: aligned and inside the heap. -/
theorem payload (hs : Serves L h blocks l) (hi : (i, n) ∈ l) :
    4 ∣ blocks i ∧ L.memStart ≤ blocks i ∧ blocks i + n ≤ h.brk ∧
      h.brk ≤ L.memStart + MAX_HEAP := by
  obtain ⟨bs, fs, hV⟩ := hs.valid
  have hlaid := hV.laid
  have hmem : (blocks i, n) ∈ held blocks l := mem_held hi
  exact ⟨hlaid.aligned _ hmem, (hlaid.inside _ hmem).1, (hlaid.inside _ hmem).2, hV.blocks.brk.2⟩

/-- The payloads of two ids in use are apart. -/
theorem apart (hs : Serves L h blocks l) {x y : ℕ × ℕ} (hx : x ∈ l) (hy : y ∈ l)
    (hne : x.1 ≠ y.1) : blocks x.1 + x.2 ≤ blocks y.1 ∨ blocks y.1 + y.2 ≤ blocks x.1 := by
  have hinj := hs.inj hx hy
  obtain ⟨bs, fs, hV⟩ := hs.valid
  exact hV.laid.apart _ (mem_held hx) _ (mem_held hy) fun he => hne (congrArg _ (hinj he))

/-- `memset` of a payload. -/
theorem fill (hs : Serves L h blocks l) (hi : (i, n) ∈ l) (c : UInt8) :
    Serves L { h with mem := fill h.mem (blocks i) c n } blocks l := by
  have h4 := (hs.payload hi).1
  refine ⟨hs.ids, ?_⟩
  obtain ⟨bs, fs, hV⟩ := hs.valid
  obtain ⟨b, hb, hbp, hroom⟩ := hV.owned.block _ (mem_held hi)
  obtain ⟨hb, ha⟩ := List.mem_filter.1 hb
  have hbm := hV.blocks.mem hb
  simp only at hbp hroom
  have hw : Within {q | blocks i ≤ q ∧ q < blocks i + n} h
      { h with mem := Memory.fill h.mem (blocks i) c n } := by
    refine ⟨rfl, fun q hq hne k hk hk' => fill_of_not_mem ?_⟩
    have hne' : ¬(blocks i ≤ q ∧ q < blocks i + n) := hne
    omega
  refine ⟨bs, fs, hV.toWellFormed.payload hw ?_, hV.owned⟩
  rintro q ⟨hlo, hhi⟩ hq hout
  have := hout b hb ha
  omega

end Serves

/-! ### `eval_mm_valid` -/

/-- The record of a payload in the range list. -/
def rangeOf (blocks : ℕ → ℕ) (x : ℕ × ℕ) : Range := ⟨blocks x.1, blocks x.1 + x.2 - 1⟩

/-- The driver knows the blocks in use, their sizes and their payloads. -/
structure Follows (L : Layout) (d : Bench) (l : List (ℕ × ℕ)) : Prop where
  serves : Serves L d.heap d.blocks l
  sizes : ∀ x ∈ l, d.blockSizes x.1 = x.2 ∧ 0 < x.2 ∧ x.2 < 2 ^ 31
  ranges : d.ranges = l.map (rangeOf d.blocks)
  filled : ∀ x ∈ l, ∀ k < x.2, d.heap.mem (d.blocks x.1 + k) = lowByte x.1

/-- The record taken out is the one of the id. -/
theorem removeRange_map (hs : Serves L h blocks l) (hi : i ∈ l.map Prod.fst) :
    removeRange (l.map (rangeOf blocks)) (blocks i) =
      (l.filter fun x => x.1 != i).map (rangeOf blocks) := by
  obtain ⟨y, hy, rfl⟩ := List.mem_map.1 hi
  have hkey : ∀ x ∈ l, (blocks x.1 = blocks y.1 ↔ x.1 = y.1) := fun x hx =>
    ⟨fun he => congrArg _ (hs.inj hx hy he), fun he => he ▸ rfl⟩
  have hnd := hs.ids
  rw [removeRange, List.eraseP_map]
  congr 1
  clear hs hi hy
  -- the first record of the id is the only one
  induction l with
  | nil => rfl
  | cons x l ih =>
    rw [List.map_cons, List.nodup_cons] at hnd
    have ih' := ih (fun z hz => hkey z (List.mem_cons_of_mem _ hz)) hnd.2
    by_cases hx : x.1 = y.1
    · have hrest : l.filter (fun z => z.1 != y.1) = l := by
        refine List.filter_eq_self.2 fun z hz => ?_
        have hne : z.1 ≠ y.1 := fun he => hnd.1 (hx ▸ he ▸ List.mem_map_of_mem hz)
        simpa using hne
      have hhead : blocks x.1 = blocks y.1 := congrArg _ hx
      simp [rangeOf, hx, hrest]
    · have hhead : blocks x.1 ≠ blocks y.1 := fun he => hx ((hkey x (by simp)).1 he)
      rw [List.eraseP_cons_of_neg (by simp [rangeOf, hhead]), ih',
        List.filter_cons_of_pos (by simpa using hx)]

/-- The check of an answer of the allocator. -/
theorem checkRange_ok (hs : Serves L h (Function.update blocks i p) ((i, n) :: l)) (hn0 : 0 < n)
    (hn : n < 2 ^ 31) (hpos : ∀ x ∈ l, 0 < x.2) (t o : ℕ) :
    checkRange L h (l.map (rangeOf blocks)) p n t o =
      .ok (⟨p, p + n - 1⟩ :: l.map (rangeOf blocks)) := by
  have hi := (List.nodup_cons.1 hs.ids).1
  obtain ⟨h4, hstart, hend, hbrk⟩ := hs.payload (List.mem_cons_self ..)
  rw [Function.update_self] at h4 hstart hend
  have hlt := L.heap_lt
  have hok : addRange L h.brk (l.map (rangeOf blocks)) p n =
      .ok (⟨p, p + n - 1⟩ :: l.map (rangeOf blocks)) := by
    refine (addRange_eq_ok hbrk (by omega) hn).2 ⟨rfl, hn0, h4, hstart, hend, fun r hr => .inl ?_⟩
    obtain ⟨x, hx, rfl⟩ := List.mem_map.1 hr
    have hxi := ne_of_not_mem hi hx
    have hap := hs.apart (List.mem_cons_self ..) (List.mem_cons_of_mem _ hx) (Ne.symm hxi)
    simp only [Function.update_self, Function.update_of_ne hxi] at hap
    have hx0 := hpos x hx
    unfold Range.Apart rangeOf
    simp only
    omega
  rw [checkRange, hok]

/-- What the driver knows after it has filled and recorded a payload. -/
theorem Follows.remember {d : Bench}
    (hs : Serves L h (Function.update d.blocks i p) ((i, n) :: l)) (hn0 : 0 < n) (hn : n < 2 ^ 31)
    (hsizes : ∀ x ∈ l, d.blockSizes x.1 = x.2 ∧ 0 < x.2 ∧ x.2 < 2 ^ 31)
    (hfilled : ∀ x ∈ l, ∀ k < x.2, h.mem (d.blocks x.1 + k) = lowByte x.1) :
    Follows L (d.remember h (⟨p, p + n - 1⟩ :: l.map (rangeOf d.blocks)) i p n) ((i, n) :: l) := by
  have hi := (List.nodup_cons.1 hs.ids).1
  have hne : ∀ x ∈ l, x.1 ≠ i := fun x hx => ne_of_not_mem hi hx
  have hsize : toSizeT n = n := toSizeT_natCast (by omega)
  have hfill := hs.fill (List.mem_cons_self ..) (lowByte i)
  rw [Function.update_self] at hfill
  refine ⟨?_, fun x hx => ?_, ?_, fun x hx k hk => ?_⟩
  · show Serves L { h with mem := Memory.fill h.mem p (lowByte i) (toSizeT n) } _ _
    rw [hsize]
    exact hfill
  · show Function.update d.blockSizes i (toSizeT n) x.1 = x.2 ∧ _
    rcases List.mem_cons.1 hx with rfl | hx
    · rw [Function.update_self]
      exact ⟨hsize, hn0, hn⟩
    · rw [Function.update_of_ne (hne x hx)]
      exact hsizes x hx
  · show _ = ((i, n) :: l).map (rangeOf (Function.update d.blocks i p))
    rw [List.map_cons]
    refine congrArg₂ _ ?_ (List.map_congr_left fun x hx => ?_)
    · simp [rangeOf]
    · simp [rangeOf, Function.update_of_ne (hne x hx)]
  · show Memory.fill h.mem p (lowByte i) (toSizeT n) (Function.update d.blocks i p x.1 + k) = _
    rw [hsize]
    rcases List.mem_cons.1 hx with rfl | hx
    · rw [Function.update_self]
      exact if_pos ⟨Nat.le_add_right .., Nat.add_lt_add_left hk _⟩
    · have hap := hs.apart (List.mem_cons_self ..) (List.mem_cons_of_mem _ hx) (hne x hx).symm
      simp only [Function.update_self, Function.update_of_ne (hne x hx)] at hap
      rw [Function.update_of_ne (hne x hx), fill_of_not_mem (by omega)]
      exact hfilled x hx k hk

/-- The calls of the driver that keep the tags. -/
def CarefulOp (d : Bench) (op : TraceOp) : Prop :=
  op.type = .REALLOC → ¬GrowsInPlace d.heap (d.blocks op.index) op.size.toNat

instance (d : Bench) (op : TraceOp) : Decidable (CarefulOp d op) :=
  inferInstanceAs (Decidable (_ → _))

/-- The id of a resized block has a low byte that is negative as a `char`. -/
def TraceOp.Misread (op : TraceOp) : Prop := op.type = .REALLOC ∧ 128 ≤ op.index % 256

instance (op : TraceOp) : Decidable op.Misread := inferInstanceAs (Decidable (_ ∧ _))

/-- The size of a request that fits, as a natural. -/
theorem exists_size {x : ℤ} (h0 : 0 < x) (h : x < 2 ^ 31) :
    ∃ n : ℕ, x = n ∧ toSizeT x = n ∧ 0 < n ∧ n < 2 ^ 31 := by
  obtain ⟨n, rfl⟩ := Int.eq_ofNat_of_zero_le h0.le
  exact ⟨n, rfl, toSizeT_natCast (by omega), by omega, by omega⟩

theorem bind_ok_eq {ε α β : Type} {x : Except ε α} {a : α} (f : α → Except ε β) (h : x = .ok a) :
    (x >>= f) = f a := by
  rw [h]
  rfl

/-- Bytes that are all the low byte of the id are taken for it if it is small. -/
theorem preserved_iff {m : Memory} {k : ℕ} (hk : 0 < k) (hm : ∀ j < k, m (q + j) = lowByte i) :
    preserved m q i k = true ↔ i % 256 < 128 := by
  have hbyte : ∀ j < k, (schar (m (q + j)) = (i % 256 : ℕ) ↔ i % 256 < 128) := fun j hj => by
    rw [hm j hj]
    exact schar_ofNat (Nat.mod_lt _ (by norm_num))
  rw [preserved, decide_eq_true_iff, Int.toNat_natCast]
  exact ⟨fun h => (hbyte 0 hk).1 (h 0 hk), fun h j hj => (hbyte j hj).2 h⟩

/-- A resized block is taken for damaged although its bytes are right: the request is
served, with a list of ranges that is right too, and the bytes at the new place are the
old ones, each the low byte of the id. -/
structure Misreads (L : Layout) (d : Bench) (op : TraceOp) (l : List (ℕ × ℕ)) (h : Heap)
    (rs : List Range) : Prop where
  misread : op.Misread
  right : ∃ m n q, (op.index, m) ∈ l ∧ op.size = (n : ℕ) ∧
    mmRealloc L d.heap (d.blocks op.index) n = .ok (h, some q) ∧
    Serves L h (Function.update d.blocks op.index q) (op.book l) ∧
    rs = (op.book l).map (rangeOf (Function.update d.blocks op.index q)) ∧
    ∀ j < min m n, h.mem (q + j) = d.heap.mem (d.blocks op.index + j) ∧
      h.mem (q + j) = lowByte op.index

/-- What the driver does with a resized block: it is served, or its bytes are misread. -/
theorem Follows.validRealloc {d : Bench} (hf : Follows L d l) {m : ℕ} (hm : (i, m) ∈ l)
    (hn0 : 0 < n) (hn : n < 2 ^ 31)
    (he : mmRealloc L d.heap (d.blocks i) n = .ok (h', some q))
    (hs : Serves L h' (Function.update d.blocks i q) ((i, n) :: l.filter fun x => x.1 != i))
    (hkept : ∀ j < min m n, h'.mem (q + j) = d.heap.mem (d.blocks i + j))
    (hb : ∀ x ∈ l, x.1 ≠ i → ∀ k < x.2,
      h'.mem (d.blocks x.1 + k) = d.heap.mem (d.blocks x.1 + k)) (t o : ℕ) :
    (i % 256 < 128 ∧ ∃ d', validOp L t o ⟨.REALLOC, i, n⟩ d = .ok d' ∧
        Follows L d' ((i, n) :: l.filter fun x => x.1 != i)) ∨
      ∃ h rs, validOp L t o ⟨.REALLOC, i, n⟩ d = .error (.mallocError t o .notPreserved h rs) ∧
        Misreads L d ⟨.REALLOC, i, n⟩ l h rs := by
  have hi : i ∈ l.map Prod.fst := List.mem_map_of_mem (f := Prod.fst) hm
  have hsize : toSizeT n = n := toSizeT_natCast (by omega)
  obtain ⟨hold, hm0, hm31⟩ := hf.sizes _ hm
  simp only at hold hm0 hm31
  have hsub : ∀ x ∈ l.filter (fun x => x.1 != i), x ∈ l ∧ x.1 ≠ i := fun x hx => by
    simpa using List.mem_filter.1 hx
  have hcheck := checkRange_ok hs hn0 hn (fun x hx => (hf.sizes x (hsub x hx).1).2.1) t o
  have hrem := Follows.remember hs hn0 hn (fun x hx => hf.sizes x (hsub x hx).1)
    fun x hx k hk => (hb x (hsub x hx).1 (hsub x hx).2 k hk).trans
      (hf.filled x (hsub x hx).1 k hk)
  rw [← removeRange_map hf.serves hi, ← hf.ranges] at hcheck hrem
  have hlow : ∀ j < min m n, h'.mem (q + j) = lowByte i :=
    fun j hj => (hkept j hj).trans (hf.filled _ hm j (by simp only; omega))
  have hkeep := preserved_iff (k := min m n) (by omega) hlow
  have hint : (if (n : ℤ) < int32 (d.blockSizes i) then (n : ℤ) else int32 (d.blockSizes i)) =
      (min m n : ℕ) := by
    rw [hold, int32_of_bounds (by omega) (by omega)]
    split_ifs <;> omega
  have hstep : MallocLab.validOp L t o ⟨.REALLOC, i, n⟩ d =
      if preserved h'.mem q i (min m n : ℕ) then
        .ok (d.remember h' (⟨q, q + n - 1⟩ :: removeRange d.ranges (d.blocks i)) i q n)
      else .error (.mallocError t o .notPreserved h'
        (⟨q, q + n - 1⟩ :: removeRange d.ranges (d.blocks i))) := by
    simp only [MallocLab.validOp, hsize, he]
    rw [bind_ok_eq _ hcheck, hint]
    rfl
  rw [hstep]
  by_cases hid : i % 256 < 128
  · rw [if_pos (hkeep.2 hid)]
    exact .inl ⟨hid, _, rfl, hrem⟩
  · rw [if_neg fun h => hid (hkeep.1 h)]
    refine .inr ⟨_, _, rfl, ⟨rfl, not_lt.1 hid⟩, m, n, q, hm, rfl, he, hs, ?_, ?_⟩
    · exact hrem.ranges
    · exact fun j hj => ⟨hkept j hj, hlow j hj⟩

/-- **A request of `eval_mm_valid`** ends the program for lack of memory, or it is
served, or the driver misreads the bytes of a resized block. -/
theorem Follows.validOp {d : Bench} (hf : Follows L d l) (hfit : op.Fits l)
    (hc : CarefulOp d op) (t o : ℕ) :
    ((op.type ≠ .REALLOC → L.memStart + MAX_HEAP < d.heap.brk + op.cost) ∧
        ∃ e, validOp L t o op d = .error (.fault e) ∧ e.NoMemory) ∨
      (¬op.Misread ∧ ∃ d', validOp L t o op d = .ok d' ∧ Follows L d' (op.book l) ∧
        (op.type ≠ .REALLOC → d'.heap.brk ≤ d.heap.brk + op.cost)) ∨
      ∃ h rs, validOp L t o op d = .error (.mallocError t o .notPreserved h rs) ∧
        Misreads L d op l h rs := by
  obtain ⟨type, i, size⟩ := op
  cases type with
  | ALLOC =>
    obtain ⟨hi, h0, h31⟩ := hfit
    obtain ⟨n, hsz, hsize, hn0, hn⟩ := exists_size h0 h31
    simp only at hsz hi
    subst hsz
    rcases hf.serves.malloc hi (n := n) (by omega) with
      ⟨hroom, e, he, hno⟩ | ⟨h', p, he, -, hbrk, hs, hb⟩
    · refine .inl ⟨fun _ => hroom, e, ?_, hno⟩
      simp only [MallocLab.validOp, hsize, he]
    · refine .inr (.inl ⟨fun hm => absurd hm.1 (by simp), ?_⟩)
      have hcheck := checkRange_ok hs hn0 hn (fun x hx => (hf.sizes x hx).2.1) t o
      have hrem := Follows.remember hs hn0 hn hf.sizes fun x hx k hk =>
        (hb x hx k hk).trans (hf.filled x hx k hk)
      rw [← hf.ranges] at hcheck hrem
      refine ⟨_, ?_, hrem, fun _ => hbrk⟩
      simp only [MallocLab.validOp, hsize, he]
      exact bind_ok_eq _ hcheck
  | FREE =>
    obtain ⟨hbrk, hs, hb⟩ := hf.serves.free hfit
    refine .inr (.inl ⟨fun hm => absurd hm.1 (by simp), _, rfl, ⟨hs, ?_, ?_, ?_⟩, fun _ => hbrk.le⟩)
    · exact fun x hx => hf.sizes x (List.mem_filter.1 hx).1
    · show removeRange d.ranges (d.blocks i) = _
      rw [hf.ranges]
      exact removeRange_map hf.serves hfit
    · intro x hx k hk
      obtain ⟨hx, hne⟩ := List.mem_filter.1 hx
      exact (hb x hx (by simpa using hne) k hk).trans (hf.filled x hx k hk)
  | REALLOC =>
    obtain ⟨hi, h0, h31⟩ := hfit
    obtain ⟨n, hsz, hsize, hn0, hn⟩ := exists_size h0 h31
    have hg := hc rfl
    simp only at hsz hi hg
    subst hsz
    obtain ⟨⟨i, m⟩, hm, rfl⟩ := List.mem_map.1 hi
    simp only [Int.toNat_natCast] at hg
    rcases hf.serves.realloc hm (by omega) (by omega) hg with
      ⟨e, he, hno⟩ | ⟨h', q, he, hs, hbytes, hb⟩
    · refine .inl ⟨fun hne => absurd rfl hne, e, ?_, hno⟩
      simp only [MallocLab.validOp, hsize, he]
    · have hkept : ∀ j < min m n, h'.mem (q + j) = d.heap.mem (d.blocks i + j) :=
        fun j hj => hbytes j (by omega) (by omega)
      rcases hf.validRealloc hm hn0 hn he hs hkept hb t o with ⟨hid, d', he', hf'⟩ | hmis
      · exact .inr (.inl ⟨fun hmis => absurd hmis.2 (not_le.2 hid), d', he', hf',
          fun hne => absurd rfl hne⟩)
      · exact .inr (.inr hmis)

/-- The requests that are made keep the tags. -/
def carefulOps (L : Layout) (t : ℕ) : ℕ → List TraceOp → Bench → Bool
  | _, [], _ => true
  | o, op :: ops, d => decide (CarefulOp d op) &&
    match validOp L t o op d with
    | .ok d' => carefulOps L t (o + 1) ops d'
    | .error _ => true

/-- Without `REALLOC`, the requests ask for more memory than there is. -/
def Exhausts (L : Layout) (brk : ℕ) (ops : List TraceOp) : Prop :=
  (∀ op ∈ ops, op.type ≠ .REALLOC) → L.memStart + MAX_HEAP < brk + (ops.map TraceOp.cost).sum

theorem Exhausts.of_head {brk : ℕ}
    (h : op.type ≠ .REALLOC → L.memStart + MAX_HEAP < brk + op.cost) :
    Exhausts L brk (op :: ops) := by
  intro hno
  have := h (hno op (by simp))
  rw [List.map_cons, List.sum_cons]
  omega

theorem Exhausts.cons {brk brk' : ℕ} (hb : op.type ≠ .REALLOC → brk' ≤ brk + op.cost)
    (h : Exhausts L brk' ops) : Exhausts L brk (op :: ops) := by
  intro hno
  have := hb (hno op (by simp))
  have := h fun op hop => hno op (by simp [hop])
  rw [List.map_cons, List.sum_cons]
  omega

/-- The ids in use after a trace. -/
def book (ops : List TraceOp) (l : List (ℕ × ℕ)) : List (ℕ × ℕ) :=
  ops.foldl (fun l op => op.book l) l

/-- How `eval_mm_valid` ends for the requests from number `o` on: for lack of memory; with
every request served; or at the first resized block that it misreads. -/
inductive Verdict (L : Layout) (k o : ℕ) (d₀ : Bench) (ops : List TraceOp) (l : List (ℕ × ℕ)) :
    Except Stop Bench → Prop
  | exhausted {e : Fault} : Exhausts L d₀.heap.brk ops → e.NoMemory →
      Verdict L k o d₀ ops l (.error (.fault e))
  | accepted {d : Bench} : (∀ op ∈ ops, ¬op.Misread) → Follows L d (book ops l) →
      Verdict L k o d₀ ops l (.ok d)
  | misread {us : List TraceOp} {op : TraceOp} {vs : List TraceOp} {d : Bench} {h : Heap}
      {rs : List Range} : ops = us ++ op :: vs → (∀ op ∈ us, ¬op.Misread) →
      validOps L k o us d₀ = .ok d → Follows L d (book us l) →
      Misreads L d op (book us l) h rs →
      Verdict L k o d₀ ops l (.error (.mallocError k (o + us.length) .notPreserved h rs))

/-- A request that is served. -/
theorem Verdict.cons {k o : ℕ} {d₀ d₁ : Bench} {r : Except Stop Bench}
    (he : MallocLab.validOp L k o op d₀ = .ok d₁) (hmis : ¬op.Misread)
    (hb : op.type ≠ .REALLOC → d₁.heap.brk ≤ d₀.heap.brk + op.cost)
    (h : Verdict L k (o + 1) d₁ ops (op.book l) r) : Verdict L k o d₀ (op :: ops) l r := by
  cases h with
  | exhausted hex hno => exact .exhausted (hex.cons hb) hno
  | accepted hall hf => exact .accepted (List.forall_mem_cons.2 ⟨hmis, hall⟩) hf
  | @misread us op' vs d h rs hops hus hrun hf hmis' =>
    have hlen : o + 1 + us.length = o + (op :: us).length := by rw [List.length_cons]; omega
    rw [hlen]
    refine .misread (congrArg _ hops) (List.forall_mem_cons.2 ⟨hmis, hus⟩) ?_ hf hmis'
    exact (bind_ok_eq _ he).trans hrun

/-- The loop of `eval_mm_valid`. -/
theorem Follows.validOps {d : Bench} (hf : Follows L d l) (hp : Proper ops l) {k o : ℕ}
    (hc : carefulOps L k o ops d = true) :
    Verdict L k o d ops l (validOps L k o ops d) := by
  induction ops generalizing l d o with
  | nil => exact .accepted (by simp) hf
  | cons op ops ih =>
    obtain ⟨hfit, hp⟩ := hp
    obtain ⟨hop, hc⟩ := Bool.and_eq_true_iff.1 hc
    rw [MallocLab.validOps]
    rcases hf.validOp hfit (of_decide_eq_true hop) k o with
      ⟨hroom, e, he, hno⟩ | ⟨hmis, d', he, hf', hbrk⟩ | ⟨h, rs, he, hmis⟩
    · rw [he]
      exact .exhausted (.of_head hroom) hno
    · have hrest := Verdict.cons he hmis hbrk (ih hf' hp (by rwa [he] at hc))
      rw [he]
      exact hrest
    · rw [he]
      exact .misread (List.nil_append _).symm (by simp) rfl hf hmis

end MallocLab
end CsappLabs
