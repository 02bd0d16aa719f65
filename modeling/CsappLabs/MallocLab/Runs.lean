/-
# The invariant along a run

`Valid L w bs fs` is the invariant of the allocator together with what the
program holds: each block in use is an allocated block of the row, with room for
the bytes asked for.  One lemma a call says what the call does to it, and
`Valid.basic` collects them: a call without `mm_realloc` keeps the invariant or
ends the run for lack of memory, and it leaves the bytes of the blocks in use alone.
-/

import CsappLabs.MallocLab.Calls
import CsappLabs.MallocLab.Client
import CsappLabs.MallocLab.Init

namespace CsappLabs
namespace MallocLab

open Lib Lib.CInt Lib.Memory Lib.Tiling Lib.Links

variable {L : Layout} {w w' : World} {h h' : Heap} {bs bs' pre post : List Blk} {fs fs' : List ℕ}
  {b c : Blk} {n p a q : ℕ} {live : List (ℕ × ℕ)}

/-- The blocks in use are different allocated blocks, with room for what was asked for. -/
structure Owned (bs : List Blk) (live : List (ℕ × ℕ)) : Prop where
  nodup : (live.map Prod.fst).Nodup
  block : ∀ x ∈ live, ∃ b ∈ allocated bs, x.1 = b.addr + 12 ∧ x.2 + 16 ≤ b.size

/-- **The invariant of a run.** -/
structure Valid (L : Layout) (w : World) (bs : List Blk) (fs : List ℕ) : Prop
    extends WellFormed L w.heap bs fs where
  owned : Owned bs w.live

/-- The bytes of the blocks that stay in use are as they were. -/
def Undisturbed (w w' : World) : Prop :=
  ∀ x ∈ w.live, x ∈ w'.live → ∀ i, x.1 ≤ i → i < x.1 + x.2 → w'.heap.mem i = w.heap.mem i

namespace Owned

theorem mono (ho : Owned bs live) (hs : ∀ b ∈ allocated bs, b ∈ allocated bs') :
    Owned bs' live := by
  refine ⟨ho.nodup, fun x hx => ?_⟩
  obtain ⟨b, hb, hxb⟩ := ho.block x hx
  exact ⟨b, hs b hb, hxb⟩

/-- One more block in use. -/
theorem cons (ho : Owned bs live) (hB : Blocks L h (pre ++ c :: post))
    (hs : ∀ b ∈ allocated bs, b ∈ allocated (pre ++ post)) (hca : c.alloc = true)
    (hn : n + 16 ≤ c.size) : Owned (pre ++ c :: post) ((c.addr + 12, n) :: live) := by
  have hmono := ho.mono fun b hb => allocated_cons c (hs b hb)
  refine ⟨List.nodup_cons.2 ⟨fun hm => ?_, ho.nodup⟩, fun x hx => ?_⟩
  · obtain ⟨x, hx, hxc⟩ := List.mem_map.1 hm
    obtain ⟨b, hb, hxb, -⟩ := ho.block x hx
    have hne := hB.addr_ne (List.mem_filter.1 (hs b hb)).1
    omega
  · rcases List.mem_cons.1 hx with rfl | hx
    · exact ⟨c, List.mem_filter.2 ⟨by simp, hca⟩, rfl, hn⟩
    · exact hmono.block x hx

/-- One block less. -/
theorem without {w : World} (ho : Owned (pre ++ b :: post) w.live)
    (hB : Blocks L h (pre ++ b :: post)) : Owned (pre ++ post) (w.without (b.addr + 12)) := by
  refine ⟨ho.nodup.sublist (List.filter_sublist.map _), fun x hx => ?_⟩
  obtain ⟨hx, hne⟩ := List.mem_filter.1 hx
  obtain ⟨d, hd, hxd, hroom⟩ := ho.block x hx
  obtain ⟨hd, hda⟩ := List.mem_filter.1 hd
  refine ⟨d, List.mem_filter.2 ⟨?_, hda⟩, hxd, hroom⟩
  refine mem_of_mem_middle hd ?_
  rintro rfl
  simp [hxd] at hne

end Owned

/-- The bytes of the blocks in use are payload bytes. -/
theorem Preserves.undisturbed (hp : Preserves bs h h') (ho : Owned bs live) :
    ∀ x ∈ live, ∀ i, x.1 ≤ i → i < x.1 + x.2 → h'.mem i = h.mem i := by
  intro x hx i hi hi'
  obtain ⟨b, hb, hxb, hroom⟩ := ho.block x hx
  exact hp b hb i (by omega) (by omega)

/-- Writes into payload areas keep the invariant. -/
theorem WellFormed.payload {W : Set ℕ} (hW : WellFormed L h bs fs) (hw : Within W h h')
    (hin : ∀ q ∈ W, 4 ∣ q → q ∉ Outside bs) : WellFormed L h' bs fs := by
  refine ⟨⟨hW.blocks.frame hw fun q hq hq4 ht => hin q hq hq4 ?_,
    hW.listed.frame hw fun q hq hq4 hl => hin q hq hq4 (hW.link_outside hl), hW.free⟩, hW.complete⟩
  have hbrk := hW.blocks.brk
  rcases ht with rfl | rfl | rfl | ⟨b, hb, rfl | rfl⟩
  · exact hW.blocks.outside_heap (by omega)
  · exact hW.blocks.outside_heap (by omega)
  · exact hW.blocks.outside_heap (by omega)
  · exact hW.blocks.outside_header hb le_rfl (by omega)
  · exact hW.blocks.outside_footer hb

namespace Valid

/-- A block in use is a block of the row. -/
theorem exists_block (hV : Valid L w bs fs) (hp : w.Holds p) :
    ∃ pre b post, bs = pre ++ b :: post ∧ b.alloc = true ∧ p = b.addr + 12 := by
  obtain ⟨x, hx, rfl⟩ := hp
  obtain ⟨b, hb, hxb, -⟩ := hV.owned.block x hx
  obtain ⟨hb, ha⟩ := List.mem_filter.1 hb
  obtain ⟨pre, post, rfl⟩ := List.append_of_mem hb
  exact ⟨pre, b, post, rfl, ha, hxb⟩

/-- `mm_malloc` -/
theorem malloc (hV : Valid L w bs fs) (hn : n + 19 < 2 ^ 32) :
    (NoFit (getBlockSize n) bs ∧ ¬Room L w.heap.brk (growth n) ∧ ∃ h₁ bs' fs',
        w.call L (.malloc n) = .error (h₁.shortage (growth n)) ∧ Pass bs fs fs bs' fs' ∧
        WellFormed L h₁ bs' fs' ∧ Keeps bs w.heap h₁) ∨
      ∃ w' pre c post fs', w.call L (.malloc n) = .ok w' ∧
        Malloced L n w.heap.brk bs fs pre c post fs' w'.heap.brk ∧
        w'.live = (c.addr + 12, n) :: w.live ∧
        Valid L w' (pre ++ { c with alloc := true } :: post) fs' ∧ Undisturbed w w' := by
  obtain ⟨hsize, -⟩ := getBlockSize_bounds hn
  have h16 : 16 ≤ getBlockSize n := by omega
  rcases mmMalloc_ok hV.toWellFormed h16 with
    ⟨hnone, hr, h₁, bs', fs', he, hpass, hW₁, hk⟩ | ⟨h', pre, c, post, fs', he, hm, hp, hW⟩
  · refine .inl ⟨hnone, hr, h₁, bs', fs', ?_, hpass, hW₁, hk⟩
    show (mmMalloc L w.heap n >>= fun r => _) = _
    rw [he, error_bind]
  · have hc := hm.size_bounds
    refine .inr ⟨⟨h', (c.addr + 12, n) :: w.live⟩, pre, c, post, fs', ?_, hm, rfl, ⟨hW, ?_⟩, ?_⟩
    · show (mmMalloc L w.heap n >>= fun r => _) = _
      rw [he, ok_bind]
      rfl
    · refine hV.owned.cons hW.blocks (fun b hb => ?_) rfl (by simp only; omega)
      rw [← hm.allocated_eq] at hb
      simpa [allocated, hc.1] using hb
    · exact fun x hx _ => hp.undisturbed hV.owned x hx

/-- No block in use is at `NULL`. -/
theorem without_zero (hV : Valid L w bs fs) : w.without 0 = w.live := by
  refine List.filter_eq_self.2 fun x hx => ?_
  obtain ⟨b, -, hxb, -⟩ := hV.owned.block x hx
  rw [bne_iff_ne]
  omega

theorem call_free (L : Layout) (w : World) (p : ℕ) :
    w.call L (.free p) = .ok ⟨mmFree L w.heap p, w.without p⟩ := rfl

/-- `mm_free` of `NULL` -/
theorem free_null (hV : Valid L w bs fs) : w.call L (.free 0) = .ok w := by
  rw [call_free, hV.without_zero]
  rfl

/-- `mm_free` of a block in use. -/
theorem free_block (hV : Valid L w (pre ++ b :: post) fs) (hb : b.alloc = true) :
    ∃ w' bs' fs', w.call L (.free (b.addr + 12)) = .ok w' ∧ Freed pre b post fs bs' fs' ∧
      w'.live = w.without (b.addr + 12) ∧ w'.heap.brk = w.heap.brk ∧ Valid L w' bs' fs' ∧
      Undisturbed w w' := by
  obtain ⟨bs', fs', hf, hW, hp, hbrk⟩ := mmFree_ok hV.toWellFormed hb
  have ho := hV.owned.without hV.blocks
  have hsub : ∀ d ∈ allocated (pre ++ post), d ∈ allocated bs' := by
    obtain ⟨fs₁, r, hc, -⟩ := hf
    rw [hc.allocated_eq rfl]
    exact fun d hd => allocated_cons _ hd
  generalize b.addr + 12 = q at *
  have hV' : Valid L ⟨mmFree L w.heap q, w.without q⟩ bs' fs' := ⟨hW, ho.mono hsub⟩
  exact ⟨_, bs', fs', call_free L w q, hf, rfl, hbrk, hV',
    fun x _ hx => hp.undisturbed ho x hx⟩

/-- A write of the program. -/
theorem store (hV : Valid L w bs fs) {v : UInt8} (hp : w.Permits (.store a v)) :
    ∃ w', w.call L (.store a v) = .ok w' ∧ w'.live = w.live ∧ w'.heap.brk = w.heap.brk ∧
      Valid L w' bs fs := by
  obtain ⟨x, hx, hlo, hhi⟩ := hp
  obtain ⟨b, hb, hxb, hroom⟩ := hV.owned.block x hx
  obtain ⟨hb, ha⟩ := List.mem_filter.1 hb
  have hbm := hV.blocks.mem hb
  refine ⟨_, rfl, rfl, rfl, ?_, hV.owned⟩
  have hw : Within {a - a % 4} w.heap
      { w.heap with mem := Function.update w.heap.mem a v } := by
    refine ⟨rfl, fun q hq hne i hi hi' => Function.update_of_ne ?_ _ _⟩
    have hne' : q ≠ a - a % 4 := hne
    omega
  refine hV.toWellFormed.payload hw ?_
  rintro q rfl - hout
  have := hout b hb ha
  omega

/-- Starting over. -/
theorem reset (hV : Valid L w bs fs) :
    ∃ w', w.call L .reset = .ok w' ∧ w'.live = [] ∧ w'.heap.brk = L.memStart + 4104 ∧
      Valid L w' [firstBlock L] [(firstBlock L).addr] := by
  obtain ⟨h', he, hW, hbrk⟩ := mmInit_ok hV.startable
  refine ⟨⟨h', []⟩, ?_, rfl, hbrk, hW, List.nodup_nil, by simp⟩
  show (mmInit L { w.heap with brk := L.memStart } >>= fun h => _) = _
  rw [he]
  rfl

end Valid

/-- `mm_init` on fresh memory. -/
theorem Heap.Fresh.startable (hf : h.Fresh L) : Startable L h [] := by
  refine ⟨⟨fun u a v he => by simp at he, by simp, List.Pairwise.nil⟩, hf.next, ?_, hf.brk⟩
  exact Nat.zero_le _

/-- Memory as it is loaded is fresh. -/
theorem fresh_resetHead (L : Layout) (mem : Memory) :
    (resetHead L ⟨mem, L.memStart⟩).Fresh L :=
  ⟨(resetHead_links L _).1, rfl⟩

/-- Every layout and every contents of the memory have a first state. -/
theorem init_first (L : Layout) (mem : Memory) : (mmSystem L).init (World.first L mem) := by
  obtain ⟨h', he, -⟩ := mmInit_ok (fresh_resetHead L mem).startable
  refine ⟨_, fresh_resetHead L mem, ?_, rfl⟩
  show mmInit L _ = .ok ((mmInit L _).toOption.getD _)
  rw [he]
  rfl

theorem reach_first (L : Layout) (mem : Memory) :
    ((mmSystem L).restrict Call.basic).Reach (.first L mem) := .init (init_first L mem)

/-- The first state of a run. -/
theorem valid_of_init (hi : (mmSystem L).init w) :
    Valid L w [firstBlock L] [(firstBlock L).addr] ∧ w.live = [] ∧
      w.heap.brk = L.memStart + 4104 := by
  obtain ⟨h, hf, he, hl⟩ := hi
  obtain ⟨h', he', hW, hbrk⟩ := mmInit_ok hf.startable
  obtain rfl : h' = w.heap := Except.ok.inj (he'.symm.trans he)
  refine ⟨⟨hW, ?_⟩, hl, hbrk⟩
  rw [hl]
  exact ⟨List.nodup_nil, by simp⟩

/-- How a call can end: with the invariant, or because there is no memory left. -/
structure Returns (L : Layout) (w : World) (c : Call) : Prop where
  fault : ∀ e, w.call L c = .error e → e.NoMemory
  valid : ∀ w', w.call L c = .ok w' → ∃ bs fs, Valid L w' bs fs
  undisturbed : ∀ w', w.call L c = .ok w' → (∀ a v, c ≠ .store a v) → Undisturbed w w'

theorem Returns.of_ok {c : Call} (he : w.call L c = .ok w') (hV : Valid L w' bs fs)
    (hu : (∀ a v, c ≠ .store a v) → Undisturbed w w') : Returns L w c := by
  refine ⟨fun e h => ?_, fun w'' h => ?_, fun w'' h hc => ?_⟩
  · exact absurd (he.symm.trans h) (by simp)
  · obtain rfl := Except.ok.inj (he.symm.trans h)
    exact ⟨bs, fs, hV⟩
  · obtain rfl := Except.ok.inj (he.symm.trans h)
    exact hu hc

/-- **A call other than `mm_realloc`** keeps the invariant. -/
theorem Valid.basic (hV : Valid L w bs fs) {c : Call} (hc : c.basic = true) (hp : w.Permits c) :
    Returns L w c := by
  cases c with
  | reset =>
    obtain ⟨w', he, hl, -, hV'⟩ := hV.reset
    exact .of_ok he hV' fun _ x _ hx => absurd hx (by simp [hl])
  | malloc n =>
    rcases hV.malloc hp with ⟨-, -, h₁, bs', fs', he, -⟩ | ⟨w', pre, c, post, fs', he, -, -, hV', hu⟩
    · refine ⟨fun e h => ?_, fun w' h => ?_, fun w' h => ?_⟩
      · exact Except.error.inj (he.symm.trans h) ▸ noMemory_shortage ..
      · exact absurd (he.symm.trans h) (by simp)
      · exact absurd (he.symm.trans h) (by simp)
    · exact .of_ok he hV' fun _ => hu
  | free p =>
    by_cases h0 : p = 0
    · subst h0
      exact .of_ok hV.free_null hV fun _ _ _ _ _ _ _ => rfl
    · obtain ⟨pre, b, post, rfl, hb, rfl⟩ := hV.exists_block (hp.resolve_left h0)
      obtain ⟨w', bs', fs', he, -, -, -, hV', hu⟩ := hV.free_block hb
      exact .of_ok he hV' fun _ => hu
  | realloc p n => exact absurd hc (by simp [Call.basic])
  | store a v =>
    obtain ⟨w', he, -, -, hV'⟩ := hV.store hp
    exact .of_ok he hV' fun h => absurd rfl (h a v)

theorem toOption_eq_some {ε α : Type} {x : Except ε α} {a : α} :
    x.toOption = some a ↔ x = .ok a := by
  cases x <;> simp [Except.toOption]

/-- A step of the system is a call that returns. -/
theorem next_eq_some {c : Call} :
    (mmSystem L).next w c = some w' ↔ w.Permits c ∧ w.call L c = .ok w' := by
  show (if w.Permits c then (w.call L c).toOption else none) = some w' ↔ _
  rw [Option.ite_none_right_eq_some, toOption_eq_some]

/-- **Every run without `mm_realloc` keeps the invariant.** -/
theorem valid_of_reach {ok : World → Call → Prop}
    (h : ((mmSystem L).restrict Call.basic).ReachBy ok w) : ∃ bs fs, Valid L w bs fs := by
  refine h.of_restrict.induct (P := fun w => ∃ bs fs, Valid L w bs fs)
    (fun w hi => ⟨_, _, (valid_of_init hi).1⟩) ?_
  rintro w c w' - ⟨bs, fs, hV⟩ ⟨-, hc⟩ hn
  obtain ⟨hp, he⟩ := next_eq_some.1 hn
  exact (hV.basic hc hp).valid w' he

end MallocLab
end CsappLabs
