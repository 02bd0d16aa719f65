/-
# Traces do not see each other

`mdriver.c` runs one trace after the other in the same memory.  `mem_reset_brk`
and `mm_init` start a trace, and what it gets does not depend on what the memory
held before, nor on where the heap is.

The argument has two parts.  What a call does to the row and to the list is the
same at another place (`Coalesced.move`, `Found.move`), and it is determined by
them (`Coalesced.unique`, `Found.unique`).  So two heaps with the same row, one of
them moved, stay so (`Alike`), and the programs get the same pointers.
-/

import CsappLabs.MallocLab.Runs

namespace CsappLabs
namespace MallocLab

open Lib Lib.CInt Lib.Memory Lib.Tiling Lib.Links

variable {L L₁ L₂ : Layout} {h : Heap} {w w₁ w₂ w' : World} {bs bs' bs₁ bs₂ pre pre' post post' : List Blk}
  {fs fs' fs₁ fs₂ ns : List ℕ} {b c c' : Blk} {a d n r r' size brk brk' : ℕ}

/-! ### Moving a row -/

/-- The block at another address. -/
def Blk.move (d : ℕ) (b : Blk) : Blk := { b with addr := b.addr + d }

theorem erase_move (fs : List ℕ) (a d : ℕ) :
    (fs.erase a).map (· + d) = (fs.map (· + d)).erase (a + d) :=
  List.map_erase (f := (· + d)) (add_left_injective d) fs

theorem NoPrev.move (hp : NoPrev pre) : NoPrev (pre.map (Blk.move d)) := by
  intro p hm
  rw [List.getLast?_map] at hm
  obtain ⟨q, hq, rfl⟩ := Option.mem_map.1 hm
  exact hp q hq

theorem NoNext.move (hn : NoNext post) : NoNext (post.map (Blk.move d)) := by
  intro p hm
  rw [List.head?_map] at hm
  obtain ⟨q, hq, rfl⟩ := Option.mem_map.1 hm
  exact hn q hq

theorem Coalesced.move (hc : Coalesced pre b post fs bs' fs' r) (d : ℕ) :
    Coalesced (pre.map (Blk.move d)) (b.move d) (post.map (Blk.move d)) (fs.map (· + d))
      (bs'.map (Blk.move d)) (fs'.map (· + d)) (r + d) := by
  cases hc with
  | @both pre p _ n post _ hp ht hn =>
    simp only [List.map_append, List.map_cons, List.map_nil, erase_move]
    exact .both hp ht hn
  | @prev pre p _ post _ hp ht hn =>
    simp only [List.map_append, List.map_cons, List.map_nil, erase_move]
    exact .prev hp ht hn.move
  | @next pre _ n post _ hp hn =>
    simp only [List.map_append, List.map_cons, erase_move]
    exact .next hp.move hn
  | none hp hn =>
    simp only [List.map_append, List.map_cons]
    exact .none hp.move hn.move

theorem behind_move (r d : ℕ) (fs : List ℕ) :
    behind (r + d) (fs.map (· + d)) = (behind r fs).map (· + d) := by
  induction fs with
  | nil => rfl
  | cons x fs ih =>
    simp only [behind, List.map_cons, List.dropWhile_cons, bne_iff_ne, ne_eq,
      Nat.add_right_cancel_iff] at ih ⊢
    split_ifs
    · rfl
    · exact ih

theorem Pass.move (hp : Pass bs fs ns bs' fs') (d : ℕ) :
    Pass (bs.map (Blk.move d)) (fs.map (· + d)) (ns.map (· + d)) (bs'.map (Blk.move d))
      (fs'.map (· + d)) := by
  induction hp with
  | done => exact .done
  | @step pre b post fs w bs' fs' r bs'' fs'' hb hc _ ih =>
    rw [List.map_append, List.map_cons]
    refine .step (b := b.move d) hb (hc.move d) ?_
    rwa [behind_move]

theorem Found.move (hf : Found size bs fs pre c post fs') (d : ℕ) :
    Found size (bs.map (Blk.move d)) (fs.map (· + d)) (pre.map (Blk.move d)) (c.move d)
      (post.map (Blk.move d)) (fs'.map (· + d)) := by
  have hsmall : ∀ {u : List ℕ}, (∀ b ∈ bs, b.addr ∈ u → b.size < size) →
      ∀ b ∈ bs.map (Blk.move d), b.addr ∈ u.map (· + d) → b.size < size := by
    intro u hu b hb hm
    obtain ⟨e, hmem, rfl⟩ := List.mem_map.1 hb
    obtain ⟨x, hx, hxe⟩ := List.mem_map.1 hm
    exact hu e hmem ((Nat.add_right_cancel hxe : x = e.addr) ▸ hx)
  cases hf with
  | @whole pre c post u w hu hcf hle hle' =>
    have hu' := hsmall hu
    rw [List.map_append, List.map_cons] at hu'
    simp only [List.map_append, List.map_cons]
    exact .whole hu' hcf hle hle'
  | @split pre c post u w hu hcf hlt =>
    have hu' := hsmall hu
    rw [List.map_append, List.map_cons] at hu'
    have hrest : (c.rest size).move d = (c.move d).rest size :=
      congrArg (fun x => Blk.mk x _ _ _) (Nat.add_right_comm ..)
    simp only [List.map_append, List.map_cons, hrest, Nat.add_right_comm _ size d]
    exact .split (c := c.move d) hu' hcf hlt

theorem Malloced.move (hm : Malloced L₁ n brk bs fs pre c post fs' brk')
    (hd : L₂.memStart = L₁.memStart + d) (hbrk : 4 ≤ brk) :
    Malloced L₂ n (brk + d) (bs.map (Blk.move d)) (fs.map (· + d)) (pre.map (Blk.move d))
      (c.move d) (post.map (Blk.move d)) (fs'.map (· + d)) (brk' + d) := by
  cases hm with
  | fit hf => exact .fit (hf.move d)
  | @grow bs₁ fs₁ _ _ _ _ hno hr hpass hf =>
    have hr' : Room L₂ (brk + d) (growth n) := by
      obtain ⟨h31, hmax⟩ := hr
      exact ⟨h31, by omega⟩
    have hno' : NoFit (getBlockSize n) (bs.map (Blk.move d)) := by
      intro b hb hbf
      obtain ⟨e, hmem, rfl⟩ := List.mem_map.1 hb
      exact hno e hmem hbf
    have hfound := hf.move d
    have hnew : (newBlock brk (growth n)).move d = newBlock (brk + d) (growth n) :=
      congrArg (fun x => Blk.mk x _ _ _) (show brk - 4 + d = brk + d - 4 by omega)
    rw [List.map_append, List.map_cons, List.map_nil, hnew, List.map_cons,
      show brk - 4 + d = brk + d - 4 by omega] at hfound
    rw [show brk + growth n + d = brk + d + growth n by omega]
    exact .grow hno' hr' (hpass.move d) hfound

theorem Freed.move (hf : Freed pre b post fs bs' fs') (d : ℕ) :
    Freed (pre.map (Blk.move d)) (b.move d) (post.map (Blk.move d)) (fs.map (· + d))
      (bs'.map (Blk.move d)) (fs'.map (· + d)) := by
  obtain ⟨fs₁, r, hc, rfl⟩ := hf
  refine ⟨fs₁.map (· + d), r + d, hc.move d, ?_⟩
  have hiff : r + d = (b.move d).addr ↔ r = b.addr := Nat.add_right_cancel_iff
  rw [if_congr hiff rfl rfl]
  split_ifs
  · rfl
  · rfl

/-! ### One result -/

/-- `coalesce` on rows, computed. -/
def coalesceRow (pre : List Blk) (b : Blk) (post : List Blk) (fs : List ℕ) :
    List Blk × List ℕ × ℕ :=
  match pre.getLast?.filter fun p => !p.alloc && p.tagged, post.head?.filter fun n => !n.alloc with
  | some p, some n =>
    (pre.dropLast ++ (p.absorb b).absorb n :: post.tail, (fs.erase n.addr).erase b.addr, p.addr)
  | some p, none => (pre.dropLast ++ p.absorb b :: post, fs.erase b.addr, p.addr)
  | none, some n => (pre ++ b.absorb n :: post.tail, fs.erase n.addr, b.addr)
  | none, none => (pre ++ b :: post, fs, b.addr)

theorem NoPrev.filter (hp : NoPrev pre) :
    (pre.getLast?.filter fun p => !p.alloc && p.tagged) = none := by
  refine Option.filter_eq_none_iff.2 fun p hm => ?_
  rcases hp p hm with ha | hu
  · simp [ha]
  · simp [hu]

theorem NoNext.filter (hn : NoNext post) : (post.head?.filter fun n => !n.alloc) = none := by
  refine Option.filter_eq_none_iff.2 fun n hm => ?_
  simp [hn n hm]

theorem Coalesced.eq (hc : Coalesced pre b post fs bs' fs' r) :
    coalesceRow pre b post fs = (bs', fs', r) := by
  cases hc with
  | both hp ht hn => simp [coalesceRow, Option.filter, hp, ht, hn]
  | prev hp ht hn =>
    rw [coalesceRow, hn.filter]
    simp [Option.filter, hp, ht]
  | next hp hn =>
    rw [coalesceRow, hp.filter]
    simp [Option.filter, hn]
  | none hp hn => rw [coalesceRow, hp.filter, hn.filter]

/-- A block of the row splits it in one way. -/
theorem split_unique (hnd : ((pre ++ b :: post).map Blk.addr).Nodup)
    (he : pre ++ b :: post = pre' ++ c :: post') (hbc : b.addr = c.addr) :
    pre = pre' ∧ b = c ∧ post = post' := by
  have hcb : c = b := List.inj_on_of_nodup_map hnd (by rw [he]; simp) (by simp) hbc.symm
  subst hcb
  have hnot : c ∉ pre ∧ c ∉ post := by
    simpa using (List.nodup_cons.1 (List.perm_middle.nodup_iff.1 (List.Nodup.of_map _ hnd))).1
  exact (List.append_cons_inj_of_notMem hnot.1 hnot.2).1 he

theorem Pass.unique (hp : Pass bs fs ns bs₁ fs₁) (hp' : Pass bs fs ns bs₂ fs₂)
    (hnd : (bs.map Blk.addr).Nodup) : bs₁ = bs₂ ∧ fs₁ = fs₂ := by
  induction hp generalizing bs₂ fs₂ with
  | done =>
    cases hp' with
    | done => exact ⟨rfl, rfl⟩
  | @step pre b post fs w bs' fs' r bs'' fs'' hb hc hrest ih =>
    generalize hrow : pre ++ b :: post = row at hp'
    generalize hns : b.addr :: w = ns at hp'
    cases hp' with
    | done => exact absurd hns (by simp)
    | @step pre' b' post' _ w' _ _ r' _ _ hb' hc' hrest' =>
      obtain ⟨hbb, -⟩ := List.cons.inj hns
      obtain ⟨rfl, rfl, rfl⟩ := split_unique hnd hrow hbb
      have he := hc.eq.symm.trans hc'.eq
      obtain ⟨rfl, he'⟩ := Prod.mk.inj he
      obtain ⟨rfl, rfl⟩ := Prod.mk.inj he'
      exact ih hrest' (hnd.sublist hc.addr_sublist)

/-- The first member with a property cuts a list in one way. -/
theorem cut_unique {P : ℕ → Prop} {u u' v v' : List ℕ} {x x' : ℕ} (hu : ∀ a ∈ u, ¬P a)
    (hu' : ∀ a ∈ u', ¬P a) (hx : P x) (hx' : P x') (he : u ++ x :: v = u' ++ x' :: v') :
    u = u' ∧ x = x' ∧ v = v' := by
  induction u generalizing u' with
  | nil =>
    cases u' with
    | nil => exact ⟨rfl, List.cons.inj he⟩
    | cons y u' =>
      obtain rfl : x = y := (List.cons.inj he).1
      exact absurd hx (hu' x List.mem_cons_self)
  | cons y u ih =>
    cases u' with
    | nil =>
      obtain rfl : y = x' := (List.cons.inj he).1
      exact absurd hx' (hu y List.mem_cons_self)
    | cons z u' =>
      obtain ⟨rfl, he'⟩ := List.cons.inj he
      obtain ⟨rfl, hrest⟩ := ih (fun a ha => hu a (List.mem_cons_of_mem _ ha))
        (fun a ha => hu' a (List.mem_cons_of_mem _ ha)) he'
      exact ⟨rfl, hrest⟩

theorem Found.cut (hf : Found size bs fs pre c post fs') :
    ∃ u x w post₀, bs = pre ++ x :: post₀ ∧ fs = u ++ x.addr :: w ∧
      (∀ b ∈ bs, b.addr ∈ u → b.size < size) ∧ size ≤ x.size ∧
      (c, post, fs') = if size + 16 < x.size then
        (x.front size, x.rest size :: post₀, u ++ (x.addr + size) :: w) else (x, post₀, u ++ w) := by
  cases hf with
  | @whole pre c post u w hu hcf hle hle' =>
    exact ⟨u, c, w, post, rfl, rfl, hu, hle, by rw [if_neg (not_lt.2 hle')]⟩
  | @split pre c post u w hu hcf hlt =>
    exact ⟨u, c, w, post, rfl, rfl, hu, by omega, by rw [if_pos hlt]⟩

theorem Found.unique (hf : Found size bs fs pre c post fs')
    (hf' : Found size bs fs pre' c' post' fs₂) (hnd : (bs.map Blk.addr).Nodup) :
    pre = pre' ∧ c = c' ∧ post = post' ∧ fs' = fs₂ := by
  obtain ⟨u, x, v, q, rfl, rfl, hu, hx, he⟩ := hf.cut
  obtain ⟨u', x', v', q', hrow, hlist, hu', hx', he'⟩ := hf'.cut
  -- the listed blocks that are large enough
  obtain ⟨rfl, hxx, rfl⟩ := cut_unique
    (P := fun a => ∃ b ∈ pre ++ x :: q, b.addr = a ∧ size ≤ b.size)
    (fun a ha ⟨b, hb, hba, hle⟩ => not_lt.2 hle (hu b hb (hba ▸ ha)))
    (fun a ha ⟨b, hb, hba, hle⟩ => not_lt.2 hle (hu' b hb (hba ▸ ha)))
    ⟨x, by simp, rfl, hx⟩ ⟨x', by rw [hrow]; simp, rfl, hx'⟩ hlist
  obtain ⟨rfl, rfl, rfl⟩ := split_unique hnd hrow hxx
  have heq := he.trans he'.symm
  exact ⟨rfl, (Prod.mk.inj heq).1, Prod.mk.inj (Prod.mk.inj heq).2⟩

theorem Malloced.unique (hm : Malloced L n brk bs fs pre c post fs' r)
    (hm' : Malloced L n brk bs fs pre' c' post' fs₂ r') (hB : Blocks L h bs) (hbrk : h.brk = brk) :
    pre = pre' ∧ c = c' ∧ post = post' ∧ fs' = fs₂ ∧ r = r' := by
  have hnd := hB.nodup
  cases hm with
  | fit hf =>
    cases hm' with
    | fit hf' =>
      obtain ⟨rfl, rfl, rfl, rfl⟩ := hf.unique hf' hnd
      exact ⟨rfl, rfl, rfl, rfl, rfl⟩
    | grow hno hr hpass hf' =>
      obtain ⟨d, hd, hdf, hle⟩ := hf.exists_fit
      exact absurd hle (not_le.2 (hno d hd hdf))
  | grow hno hr hpass hf =>
    cases hm' with
    | fit hf' =>
      obtain ⟨d, hd, hdf, hle⟩ := hf'.exists_fit
      exact absurd hle (not_le.2 (hno d hd hdf))
    | grow hno' hr' hpass' hf' =>
      obtain ⟨rfl, rfl⟩ := hpass.unique hpass' hnd
      have hnd' := hpass.nodup_newBlock hB (growth n)
      rw [hbrk] at hnd'
      obtain ⟨rfl, rfl, rfl, rfl⟩ := hf.unique hf' hnd'
      exact ⟨rfl, rfl, rfl, rfl, rfl⟩

theorem Freed.unique (hf : Freed pre b post fs bs₁ fs₁) (hf' : Freed pre b post fs bs₂ fs₂) :
    bs₁ = bs₂ ∧ fs₁ = fs₂ := by
  obtain ⟨l, r, hc, rfl⟩ := hf
  obtain ⟨l', r', hc', rfl⟩ := hf'
  have he := hc.eq.symm.trans hc'.eq
  obtain ⟨rfl, he'⟩ := Prod.mk.inj he
  obtain ⟨rfl, rfl⟩ := Prod.mk.inj he'
  exact ⟨rfl, rfl⟩

/-! ### Traces -/

/-- A call of a trace, whose addresses count from the heap start, in a heap. -/
def Call.place (L : Layout) : Call → Call
  | .free ptr => .free (if ptr = 0 then 0 else L.memStart + ptr)
  | .realloc ptr size => .realloc (if ptr = 0 then 0 else L.memStart + ptr) size
  | .store addr byte => .store (L.memStart + addr) byte
  | c => c

/-- The calls to the allocator. -/
def Call.asks : Call → Bool
  | .store _ _ => false
  | _ => true

/-- What the call returns, counted from the heap start. -/
def reply (L : Layout) (w : World) : Call → List (Option ℕ)
  | .malloc size =>
    ((mmMalloc L w.heap size).toOption.map fun r => r.2.map (· - L.memStart)).toList
  | _ => []

/-- What the calls of a trace return, and the heap size at its end. -/
def replies (L : Layout) : World → List Call → Option (List (Option ℕ) × ℕ)
  | w, [] => some ([], w.heap.brk - L.memStart)
  | w, c :: T => (((mmSystem L).restrict Call.basic).next w (c.place L)).bind fun w' =>
      (replies L w' T).map fun r => (reply L w c ++ r.1, r.2)

/-- Two worlds with the same row and the same list, in the second one moved by `d`. -/
structure Alike (d : ℕ) (L₁ L₂ : Layout) (w₁ w₂ : World) (bs : List Blk) (fs : List ℕ) : Prop where
  start : L₂.memStart = L₁.memStart + d
  left : Valid L₁ w₁ bs fs
  right : Valid L₂ w₂ (bs.map (Blk.move d)) (fs.map (· + d))
  brk : w₂.heap.brk = w₁.heap.brk + d
  live : w₂.live = w₁.live.map fun x => (x.1 + d, x.2)

theorem Call.basic_place (L : Layout) (c : Call) : (c.place L).basic = c.basic := by
  cases c <;> rfl

theorem next_of_ok {c : Call} (hc : c.basic = true) (hp : w.Permits (c.place L))
    (he : w.call L (c.place L) = .ok w') :
    ((mmSystem L).restrict Call.basic).next w (c.place L) = some w' :=
  Option.ite_none_right_eq_some.2 ⟨(c.basic_place L).trans hc, next_eq_some.2 ⟨hp, he⟩⟩

theorem next_of_not_permits {c : Call} (hp : ¬w.Permits (c.place L)) :
    ((mmSystem L).restrict Call.basic).next w (c.place L) = none := by
  show (if _ then (if w.Permits (c.place L) then _ else none) else none) = none
  rw [if_neg hp, ite_self]

theorem next_of_error {c : Call} {e : Fault} (he : w.call L (c.place L) = .error e) :
    ((mmSystem L).restrict Call.basic).next w (c.place L) = none := by
  show (if _ then (if _ then (w.call L (c.place L)).toOption else none) else none) = none
  rw [he]
  show (if _ then (if _ then none else none) else none) = none
  rw [ite_self, ite_self]

/-- What `mm_malloc` returned is the block that is new. -/
theorem reply_malloc (he : w.call L (.malloc n) = .ok w') (hl : w'.live = (a, n) :: w.live) :
    reply L w (.malloc n) = [some (a - L.memStart)] := by
  have hcall : (mmMalloc L w.heap n >>= fun r =>
      (pure ⟨r.1, (r.2.map fun ptr => (ptr, n)).toList ++ w.live⟩ : Except Fault World)) = .ok w' :=
    he
  rw [reply]
  cases hm : mmMalloc L w.heap n with
  | error e =>
    rw [hm, error_bind] at hcall
    exact absurd hcall (by simp)
  | ok r =>
    rw [hm, ok_bind] at hcall
    obtain rfl := Except.ok.inj hcall
    cases hr : r.2 with
    | none =>
      rw [hr] at hl
      exact absurd (congrArg List.length hl) (by simp)
    | some ptr =>
      rw [hr] at hl
      obtain rfl : ptr = a := (Prod.mk.inj (List.cons.inj hl).1).1
      simp [Except.toOption, hr]

namespace Alike

theorem holds_iff (hA : Alike d L₁ L₂ w₁ w₂ bs fs) (p : ℕ) :
    w₂.Holds (p + d) ↔ w₁.Holds p := by
  unfold World.Holds
  rw [hA.live]
  simp

theorem without_eq (hA : Alike d L₁ L₂ w₁ w₂ bs fs) (p : ℕ) :
    w₂.without (p + d) = (w₁.without p).map fun x => (x.1 + d, x.2) := by
  unfold World.without
  rw [hA.live, List.filter_map]
  congr 1
  refine List.filter_congr fun x _ => ?_
  simp [bne]

/-- Two worlds at the start of a trace. -/
theorem of_started (hd : L₂.memStart = L₁.memStart + d)
    (h₁ : Valid L₁ w₁ [firstBlock L₁] [(firstBlock L₁).addr] ∧ w₁.live = [] ∧
      w₁.heap.brk = L₁.memStart + 4104)
    (h₂ : Valid L₂ w₂ [firstBlock L₂] [(firstBlock L₂).addr] ∧ w₂.live = [] ∧
      w₂.heap.brk = L₂.memStart + 4104) :
    Alike d L₁ L₂ w₁ w₂ [firstBlock L₁] [(firstBlock L₁).addr] := by
  have hfirst : (firstBlock L₁).move d = firstBlock L₂ :=
    congrArg (fun x => Blk.mk x _ _ _) (show L₁.memStart + 8 + d = L₂.memStart + 8 by omega)
  refine ⟨hd, h₁.1, ?_, by omega, by rw [h₁.2.1, h₂.2.1]; rfl⟩
  have haddr : (firstBlock L₁).addr + d = (firstBlock L₂).addr := congrArg Blk.addr hfirst
  rw [List.map_singleton, List.map_singleton, hfirst, haddr]
  exact h₂.1

theorem permits_iff (hA : Alike d L₁ L₂ w₁ w₂ bs fs) (c : Call) :
    w₂.Permits (c.place L₂) ↔ w₁.Permits (c.place L₁) := by
  have hstart := hA.start
  have hpos := L₁.start_pos
  have hptr : ∀ p, ((if p = 0 then 0 else L₂.memStart + p) = 0 ∨
      w₂.Holds (if p = 0 then 0 else L₂.memStart + p)) ↔
      ((if p = 0 then 0 else L₁.memStart + p) = 0 ∨
        w₁.Holds (if p = 0 then 0 else L₁.memStart + p)) := by
    intro p
    split_ifs with h0
    · simp
    · have hp := hA.holds_iff (L₁.memStart + p)
      rw [show L₁.memStart + p + d = L₂.memStart + p by omega] at hp
      rw [hp]
      refine or_congr_left (iff_of_false ?_ ?_) <;> omega
  cases c with
  | reset => exact Iff.rfl
  | malloc n => exact Iff.rfl
  | free p => exact hptr p
  | realloc p n => exact and_congr_left fun _ => hptr p
  | store a v =>
    show (∃ x ∈ w₂.live, x.1 ≤ L₂.memStart + a ∧ L₂.memStart + a < x.1 + x.2) ↔
      ∃ x ∈ w₁.live, x.1 ≤ L₁.memStart + a ∧ L₁.memStart + a < x.1 + x.2
    rw [hA.live]
    simp only [List.mem_map, exists_exists_and_eq_and]
    refine exists_congr fun x => and_congr_right fun _ => ?_
    omega

/-- What a call does to the two worlds. -/
def Steps (d : ℕ) (L₁ L₂ : Layout) (w₁ w₂ : World) (c : Call) : Prop :=
  (∃ e₁ e₂, w₁.call L₁ (c.place L₁) = .error e₁ ∧ w₂.call L₂ (c.place L₂) = .error e₂) ∨
    ∃ w₁' w₂' bs fs, w₁.call L₁ (c.place L₁) = .ok w₁' ∧ w₂.call L₂ (c.place L₂) = .ok w₂' ∧
      Alike d L₁ L₂ w₁' w₂' bs fs ∧ reply L₁ w₁ c = reply L₂ w₂ c

theorem reset (hV₁ : Valid L₁ w₁ bs₁ fs₁) (hV₂ : Valid L₂ w₂ bs₂ fs₂)
    (hd : L₂.memStart = L₁.memStart + d) : Steps d L₁ L₂ w₁ w₂ .reset := by
  obtain ⟨w₁', he₁, hl₁, hbrk₁, hV₁'⟩ := hV₁.reset
  obtain ⟨w₂', he₂, hl₂, hbrk₂, hV₂'⟩ := hV₂.reset
  exact .inr ⟨w₁', w₂', _, _, he₁, he₂, .of_started hd ⟨hV₁', hl₁, hbrk₁⟩ ⟨hV₂', hl₂, hbrk₂⟩, rfl⟩

theorem malloc (hA : Alike d L₁ L₂ w₁ w₂ bs fs) (hn : n + 19 < 2 ^ 32) :
    Steps d L₁ L₂ w₁ w₂ (.malloc n) := by
  have hbrk := hA.left.blocks.brk
  have hstart := hA.start
  have hno : NoFit (getBlockSize n) (bs.map (Blk.move d)) ↔ NoFit (getBlockSize n) bs := by
    simp [NoFit, Blk.move]
  have hroom : Room L₂ w₂.heap.brk (growth n) ↔ Room L₁ w₁.heap.brk (growth n) := by
    unfold Room
    rw [hA.brk, hstart]
    omega
  rcases hA.left.malloc hn with
    ⟨hno₁, hr₁, h₁, bs', fs', he₁, -⟩ | ⟨w₁', pre, c, post, fs', he₁, hm₁, hl₁, hV₁, -⟩
  · rcases hA.right.malloc hn with ⟨-, -, h₂, _, _, he₂, -⟩ | ⟨w₂', _, _, _, _, he₂, hm₂, -⟩
    · exact .inl ⟨_, _, he₁, he₂⟩
    · rcases hm₂.fit_or_room with hfit | hr
      · exact absurd (hno.2 hno₁) hfit
      · exact absurd (hroom.1 hr) hr₁
  · have hm₁' := hm₁.move hstart (by omega)
    rcases hA.right.malloc hn with
      ⟨hno₂, hr₂, h₂, _, _, he₂, -⟩ | ⟨w₂', pre₂, c₂, post₂, fs₂, he₂, hm₂, hl₂, hV₂, -⟩
    · rcases hm₁.fit_or_room with hfit | hr
      · exact absurd (hno.1 hno₂) hfit
      · exact absurd (hroom.2 hr) hr₂
    · rw [hA.brk] at hm₂
      obtain ⟨rfl, rfl, rfl, rfl, hb⟩ := hm₁'.unique hm₂ hA.right.blocks hA.brk
      have haddr : (c.move d).addr + 12 = c.addr + 12 + d := Nat.add_right_comm ..
      rw [haddr] at hl₂
      refine .inr ⟨w₁', w₂', _, _, he₁, he₂, ⟨hstart, hV₁, ?_, hb.symm, ?_⟩, ?_⟩
      · rw [List.map_append, List.map_cons]
        exact hV₂
      · rw [hl₂, hl₁, hA.live]
        rfl
      · rw [reply_malloc he₁ hl₁, reply_malloc he₂ hl₂, hstart, Nat.add_sub_add_right]

theorem free (hA : Alike d L₁ L₂ w₁ w₂ bs fs) {p : ℕ} (hp : w₁.Permits (Call.place L₁ (.free p))) :
    Steps d L₁ L₂ w₁ w₂ (.free p) := by
  by_cases h0 : p = 0
  · subst h0
    exact .inr ⟨w₁, w₂, bs, fs, hA.left.free_null, hA.right.free_null, hA, rfl⟩
  · have hstart := hA.start
    have hplace : ∀ L : Layout, Call.place L (.free p) = .free (L.memStart + p) := fun L => by
      rw [Call.place, if_neg h0]
    rw [hplace] at hp
    have hpos := L₁.start_pos
    obtain ⟨pre, b, post, rfl, hb, hpb⟩ := hA.left.exists_block (hp.resolve_left (by omega))
    have hright := hA.right
    rw [List.map_append, List.map_cons] at hright
    obtain ⟨w₁', bs₁, fs₁, he₁, hf₁, hl₁, hbrk₁, hV₁, -⟩ := hA.left.free_block hb
    obtain ⟨w₂', bs₂, fs₂, he₂, hf₂, hl₂, hbrk₂, hV₂, -⟩ := hright.free_block (b := b.move d) hb
    obtain ⟨rfl, rfl⟩ := (hf₁.move d).unique hf₂
    have haddr : (b.move d).addr + 12 = b.addr + 12 + d := Nat.add_right_comm ..
    rw [haddr] at he₂ hl₂
    refine .inr ⟨w₁', w₂', bs₁, fs₁, ?_, ?_, ⟨hstart, hV₁, hV₂, ?_, ?_⟩, rfl⟩
    · rw [hplace, hpb]
      exact he₁
    · rw [hplace, show L₂.memStart + p = b.addr + 12 + d by omega]
      exact he₂
    · rw [hbrk₂, hbrk₁, hA.brk]
    · rw [hl₂, hl₁, hA.without_eq]

theorem store (hA : Alike d L₁ L₂ w₁ w₂ bs fs) {v : UInt8}
    (hp : w₁.Permits (Call.place L₁ (.store a v))) : Steps d L₁ L₂ w₁ w₂ (.store a v) := by
  have hp₂ := (hA.permits_iff (.store a v)).2 hp
  obtain ⟨w₁', he₁, hl₁, hbrk₁, hV₁⟩ := hA.left.store hp
  obtain ⟨w₂', he₂, hl₂, hbrk₂, hV₂⟩ := hA.right.store hp₂
  exact .inr ⟨w₁', w₂', bs, fs, he₁, he₂, ⟨hA.start, hV₁, hV₂, by rw [hbrk₁, hbrk₂, hA.brk],
    by rw [hl₁, hl₂, hA.live]⟩, rfl⟩

/-- A call does the same to the two worlds. -/
theorem steps (hA : Alike d L₁ L₂ w₁ w₂ bs fs) {c : Call} (hc : c.basic = true)
    (hp : w₁.Permits (c.place L₁)) : Steps d L₁ L₂ w₁ w₂ c := by
  cases c with
  | reset => exact reset hA.left hA.right hA.start
  | malloc n => exact hA.malloc hp
  | free p => exact hA.free hp
  | realloc p n => exact absurd hc (by simp [Call.basic])
  | store a v => exact hA.store hp

/-- **Traces get the same replies** in the two worlds. -/
theorem replies_eq (hA : Alike d L₁ L₂ w₁ w₂ bs fs) (T : List Call) :
    replies L₁ w₁ T = replies L₂ w₂ T := by
  induction T generalizing w₁ w₂ bs fs with
  | nil =>
    have hbrk := hA.brk
    have hstart := hA.start
    rw [replies, replies, hbrk, hstart, Nat.add_sub_add_right]
  | cons c T ih =>
    rw [replies, replies]
    cases hc : c.basic with
    | false =>
      have hnone : ∀ (L : Layout) (w : World),
          ((mmSystem L).restrict Call.basic).next w (c.place L) = none := fun L w =>
        if_neg (by rw [Call.basic_place, hc]; exact Bool.false_ne_true)
      rw [hnone, hnone, Option.bind_none, Option.bind_none]
    | true =>
      by_cases hp : w₁.Permits (c.place L₁)
      · have hp₂ := (hA.permits_iff c).2 hp
        rcases hA.steps hc hp with ⟨e₁, e₂, he₁, he₂⟩ | ⟨w₁', w₂', bs', fs', he₁, he₂, hA', hr⟩
        · rw [next_of_error he₁, next_of_error he₂, Option.bind_none, Option.bind_none]
        · rw [next_of_ok hc hp he₁, next_of_ok hc hp₂ he₂, Option.bind_some, Option.bind_some,
            ih hA', hr]
      · rw [next_of_not_permits hp, next_of_not_permits fun hp₂ => hp ((hA.permits_iff c).1 hp₂),
          Option.bind_none, Option.bind_none]

/-- What the program writes changes no reply. -/
theorem replies_filter (hA : Alike 0 L L w₁ w₂ bs fs) {T : List Call} {r : List (Option ℕ) × ℕ}
    (hr : replies L w₁ T = some r) : replies L w₂ (T.filter Call.asks) = some r := by
  induction T generalizing w₁ w₂ bs fs r with
  | nil => exact (hA.replies_eq []).symm.trans hr
  | cons c T ih =>
    rw [replies] at hr
    obtain ⟨w₁', hn, hr⟩ := Option.bind_eq_some_iff.1 hr
    obtain ⟨r', hr', rfl⟩ := Option.map_eq_some_iff.1 hr
    obtain ⟨hc, hn⟩ := Option.ite_none_right_eq_some.1 hn
    rw [Call.basic_place] at hc
    obtain ⟨hp, he⟩ := next_eq_some.1 hn
    by_cases hstore : c.asks = true
    · rw [List.filter_cons_of_pos hstore, replies]
      rcases hA.steps hc hp with ⟨e₁, e₂, he₁, he₂⟩ | ⟨w₁'', w₂', bs', fs', he₁, he₂, hA', hreply⟩
      · exact absurd (he₁.symm.trans he) (by simp)
      · obtain rfl := Except.ok.inj (he₁.symm.trans he)
        rw [next_of_ok hc ((hA.permits_iff c).2 hp) he₂, Option.bind_some, ih hA' hr', hreply]
        rfl
    · rw [List.filter_cons_of_neg hstore]
      cases c with
      | store a v =>
        obtain ⟨w₁'', he₁, hl₁, hbrk₁, hV₁⟩ := hA.left.store hp
        obtain rfl := Except.ok.inj (he₁.symm.trans he)
        exact ih ⟨hA.start, hV₁, hA.right, by rw [hbrk₁, hA.brk], by rw [hl₁, hA.live]⟩ hr'
      | reset => exact absurd rfl hstore
      | malloc n => exact absurd rfl hstore
      | free p => exact absurd rfl hstore
      | realloc p n => exact absurd rfl hstore

end Alike

/-- A world at the start of a trace. -/
def Started (L : Layout) (w : World) : Prop :=
  Valid L w [firstBlock L] [(firstBlock L).addr] ∧ w.live = [] ∧ w.heap.brk = L.memStart + 4104

/-- Two starts get the same replies. -/
theorem Started.replies_eq (h₁ : Started L₁ w₁) (h₂ : Started L₂ w₂) (T : List Call) :
    replies L₁ w₁ T = replies L₂ w₂ T := by
  rcases le_total L₁.memStart L₂.memStart with hle | hle
  · obtain ⟨d, hd⟩ := Nat.exists_eq_add_of_le hle
    exact (Alike.of_started hd h₁ h₂).replies_eq T
  · obtain ⟨d, hd⟩ := Nat.exists_eq_add_of_le hle
    exact ((Alike.of_started hd h₂ h₁).replies_eq T).symm

theorem Started.replies_filter (h : Started L w) {T : List Call} {r : List (Option ℕ) × ℕ}
    (hr : replies L w T = some r) : replies L w (T.filter Call.asks) = some r :=
  (Alike.of_started (Nat.add_zero _).symm h h).replies_filter hr

/-- After any history, `mem_reset_brk` and `mm_init` start a trace. -/
theorem replies_reset (h : ((mmSystem L).restrict Call.basic).Reach w) (T : List Call) :
    ∃ w', Started L w' ∧ replies L w (.reset :: T) = replies L w' T := by
  obtain ⟨bs, fs, hV⟩ := valid_of_reach h
  obtain ⟨w', he, hl, hbrk, hV'⟩ := hV.reset
  refine ⟨w', ⟨hV', hl, hbrk⟩, ?_⟩
  rw [replies, next_of_ok (c := .reset) rfl trivial he, Option.bind_some]
  cases replies L w' T with
  | none => rfl
  | some r => rfl

/-- **Traces are isolated.**  After any two histories, and on fresh memory, a
trace gets the same pointers from the heap start on, call by call, and leaves the
same heap size; and so do two traces that differ only in what they write. -/
theorem traces_isolated (h₁ : ((mmSystem L₁).restrict Call.basic).Reach w₁)
    (h₂ : ((mmSystem L₂).restrict Call.basic).Reach w₂) (hw : (mmSystem L).init w)
    (T : List Call) :
    replies L₁ w₁ (.reset :: T) = replies L₂ w₂ (.reset :: T) ∧
      replies L₁ w₁ (.reset :: T) = replies L w T ∧
      ∀ T' r r', T'.filter Call.asks = T.filter Call.asks →
        replies L₁ w₁ (.reset :: T) = some r → replies L₂ w₂ (.reset :: T') = some r' → r = r' := by
  obtain ⟨v₁, hs₁, he₁⟩ := replies_reset h₁ T
  obtain ⟨v₂, hs₂, he₂⟩ := replies_reset h₂ T
  refine ⟨?_, ?_, fun T' r r' hT hr hr' => ?_⟩
  · rw [he₁, he₂, hs₁.replies_eq hs₂]
  · rw [he₁, hs₁.replies_eq (valid_of_init hw)]
  · obtain ⟨v₂', hs₂', he₂'⟩ := replies_reset h₂ T'
    have hf := hs₁.replies_filter (he₁.symm.trans hr)
    have hf' := hs₂'.replies_filter (he₂'.symm.trans hr')
    rw [hs₁.replies_eq hs₂', ← hT] at hf
    exact Option.some.inj (hf.symm.trans hf')

/-- A trace after two blocks are in use, and on other memory. -/
theorem traces_isolated_two :
    let w₁ := (((mmSystem .low).restrict Call.basic).run (.first .low fun _ => 7)
      [.malloc 4000, .malloc 10, .store 150 1]).getD (.first .low fun _ => 7)
    let w₂ := World.first .low fun _ => 9
    let T : List Call := [.malloc 100, .malloc 5000, .store 25 3, .free 20, .malloc 8]
    replies .low w₁ (.reset :: T) = some ([some 20, some 4112, some 20], 9120) ∧
      replies .low w₁ (.reset :: T) = replies .low w₂ (.reset :: T) ∧
      replies .low w₁ (.reset :: T) = replies .low (.first .low fun _ => 5) T := by
  intro w₁ w₂ T
  have h₀ := reach_first .low fun _ => 7
  have h₁ : ((mmSystem .low).restrict Call.basic).Reach w₁ := h₀.getD_run _
  have h₂ : ((mmSystem .low).restrict Call.basic).Reach w₂ := .init (init_first _ _)
  have hall := traces_isolated h₁ h₂ (init_first .low fun _ => 5) T
  exact ⟨by decide +kernel, hall.1, hall.2.1⟩

end MallocLab
end CsappLabs
