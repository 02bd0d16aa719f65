/-
# Payloads over whole runs

With `mm_realloc` there are two ways to lose the tags: case 2, which leaves the
last block without a footer, and a size that wraps in the test of case 1.  A run
that takes neither (`Careful`) keeps the invariant, so at any time the payloads of
the blocks in use are apart and inside the heap, and no call changes a payload that
it is not given (`payloads_intact`).

After case 2 the word before the next block is a size that no block has, and
`coalesce` follows it into the payload (`grown_payload_changes`).
-/

import CsappLabs.MallocLab.Realloc

namespace CsappLabs
namespace MallocLab

open Lib Lib.CInt Lib.Memory Lib.Tiling Lib.Links

variable {L : Layout} {w w' : World} {h h' : Heap} {bs pre post : List Blk} {fs : List ℕ}
  {b c : Blk} {m n p q : ℕ}

/-- The block at `ptr` is the last one, and more than 16 bytes too small. -/
def GrowsInPlace (h : Heap) (ptr size : ℕ) : Prop :=
  ptr - 12 + h.blockSize (ptr - 12) = h.brk - 4 ∧ h.blockSize (ptr - 12) + 16 < getBlockSize size

instance (h : Heap) (ptr size : ℕ) : Decidable (GrowsInPlace h ptr size) :=
  inferInstanceAs (Decidable (_ ∧ _))

/-- The calls that keep the tags. -/
def Careful (w : World) : Call → Prop
  | .realloc ptr size => ptr ≠ 0 → size ≠ 0 → size + 35 < 2 ^ 32 ∧ ¬GrowsInPlace w.heap ptr size
  | _ => True

instance (w : World) : (c : Call) → Decidable (Careful w c)
  | .realloc ptr size =>
    inferInstanceAs (Decidable (ptr ≠ 0 → size ≠ 0 → size + 35 < 2 ^ 32 ∧ ¬GrowsInPlace w.heap ptr size))
  | .reset => inferInstanceAs (Decidable True)
  | .malloc _ => inferInstanceAs (Decidable True)
  | .free _ => inferInstanceAs (Decidable True)
  | .store _ _ => inferInstanceAs (Decidable True)

/-- The payloads of the blocks in use are aligned, inside the heap and apart. -/
structure Laid (L : Layout) (w : World) : Prop where
  aligned : ∀ x ∈ w.live, 4 ∣ x.1
  inside : ∀ x ∈ w.live, L.memStart ≤ x.1 ∧ x.1 + x.2 ≤ w.heap.brk
  nodup : (w.live.map Prod.fst).Nodup
  apart : ∀ x ∈ w.live, ∀ y ∈ w.live, x.1 ≠ y.1 → x.1 + x.2 ≤ y.1 ∨ y.1 + y.2 ≤ x.1

/-- The bytes that `mm_realloc` keeps. -/
def Survives (w w' : World) (c : Call) : Prop :=
  ∀ p n m, c = .realloc p n → n ≠ 0 → (p, m) ∈ w.live →
    ∃ q, (q, n) ∈ w'.live ∧ ∀ i, i < m → i < n → w'.heap.mem (q + i) = w.heap.mem (p + i)

theorem Valid.laid (hV : Valid L w bs fs) : Laid L w := by
  refine ⟨fun x hx => ?_, fun x hx => ?_, hV.owned.nodup, fun x hx y hy hne => ?_⟩
  · obtain ⟨b, hb, hxb, -⟩ := hV.owned.block x hx
    have hbm := hV.blocks.mem (List.mem_filter.1 hb).1
    omega
  · obtain ⟨b, hb, hxb, hroom⟩ := hV.owned.block x hx
    have hbm := hV.blocks.mem (List.mem_filter.1 hb).1
    omega
  · obtain ⟨b, hb, hxb, hroom⟩ := hV.owned.block x hx
    obtain ⟨d, hd, hyd, hroom'⟩ := hV.owned.block y hy
    rcases hV.blocks.row.apart (List.mem_filter.1 hb).1 (List.mem_filter.1 hd).1 with rfl | h | h
    · omega
    · omega
    · omega

/-- A call that does the same ends in the same way. -/
theorem Returns.of_call {c c' : Call} (h : Returns L w c') (he : w.call L c = w.call L c')
    (hs : ∀ a v, c' ≠ .store a v) : Returns L w c :=
  ⟨fun e hc => h.fault e (he ▸ hc), fun w' hc => h.valid w' (he ▸ hc),
    fun w' hc _ => h.undisturbed w' (he ▸ hc) hs⟩

/-- The block for `n` bytes is one more block in use, beside the others. -/
theorem Resized.owned {bs' : List Blk} {fs' : List ℕ} (hV : Valid L w (pre ++ b :: post) fs)
    (hR : Resized L w.heap h' (pre ++ post) b n bs' fs' c) :
    Owned bs' ((c.addr + 12, n) :: w.without (b.addr + 12)) := by
  have hrest := hV.owned.without hV.blocks
  refine ⟨List.nodup_cons.2 ⟨fun hm => ?_, hrest.nodup⟩, fun x hx => ?_⟩
  · obtain ⟨x, hx, hxc⟩ := List.mem_map.1 hm
    obtain ⟨d, hd, hxd, -⟩ := hrest.block x hx
    have hne := (hR.keep d hd).2
    omega
  · rcases List.mem_cons.1 hx with rfl | hx
    · exact ⟨c, hR.mem, rfl, hR.room⟩
    · obtain ⟨d, hd, hxd, hroom⟩ := hrest.block x hx
      exact ⟨d, (hR.keep d hd).1, hxd, hroom⟩

namespace Valid

/-- `mm_realloc` of `NULL` is `mm_malloc`. -/
theorem call_realloc_null (hV : Valid L w bs fs) (n : ℕ) :
    w.call L (.realloc 0 n) = w.call L (.malloc n) := by
  show (mmMalloc L w.heap n >>= fun r => _) = mmMalloc L w.heap n >>= fun r => _
  congr 1
  funext r
  rw [hV.without_zero]
  cases r.2 with
  | none => rfl
  | some q => rfl

/-- `mm_realloc` to no bytes is `mm_free`. -/
theorem call_realloc_zero (L : Layout) (w : World) (hp : p ≠ 0) :
    w.call L (.realloc p 0) = w.call L (.free p) := by
  have hrealloc : mmRealloc L w.heap p 0 = .ok (mmFree L w.heap p, none) := by
    rw [mmRealloc, if_neg hp, if_pos rfl]
  show (mmRealloc L w.heap p 0 >>= fun r => _) = _
  rw [hrealloc, ok_bind]
  show Except.ok (World.mk _ (if p ≠ 0 ∧ 0 = 0 then w.without p else w.live)) = _
  rw [if_pos ⟨hp, rfl⟩]
  rfl

/-- `mm_realloc` of a block in use, of careful calls. -/
theorem realloc_block (hV : Valid L w (pre ++ b :: post) fs) (hb : b.alloc = true) (hn0 : n ≠ 0)
    (hc : Careful w (.realloc (b.addr + 12) n)) :
    (∃ e, w.call L (.realloc (b.addr + 12) n) = .error e ∧ e.NoMemory) ∨
      ∃ w' bs' fs' q, w.call L (.realloc (b.addr + 12) n) = .ok w' ∧
        w'.live = (q, n) :: w.without (b.addr + 12) ∧ Valid L w' bs' fs' ∧
        ∀ m, (b.addr + 12, m) ∈ w.live → Reallocated L w (b.addr + 12) m n w'.heap q := by
  obtain ⟨hfit, hnot⟩ := hc (Nat.succ_ne_zero _) hn0
  rcases hV.toWellFormed.mmRealloc_ok hb hn0 hfit with
    ⟨h₁, e, bs', fs', he, -⟩ | ⟨h', bs', fs', c, he, hR, hW'⟩
  · refine .inl ⟨_, ?_, noMemory_shortage h₁ e⟩
    show (mmRealloc L w.heap (b.addr + 12) n >>= fun r => _) = _
    rw [he, error_bind]
  · have hgrow : ¬(post = [] ∧ b.size + 16 < getBlockSize n) := by
      rintro ⟨rfl, hlt⟩
      have hrow : b.addr + b.size = w.heap.brk - 4 := (tiles_split.1 hV.blocks.row).2
      have hsize := hV.blocks.blockSize_eq (b := b) (by simp)
      refine hnot ⟨?_, ?_⟩
      · rwa [Nat.add_sub_cancel, hsize]
      · rwa [Nat.add_sub_cancel, hsize]
    refine .inr ⟨⟨h', (c.addr + 12, n) :: w.without (b.addr + 12)⟩, bs', fs', c.addr + 12, ?_, rfl,
      ⟨hW' hgrow, hR.owned hV⟩, fun m hm => ?_⟩
    · show (mmRealloc L w.heap (b.addr + 12) n >>= fun r => _) = _
      rw [he, ok_bind]
      rfl
    · obtain ⟨d, hd, hda, hroom⟩ := hV.owned.block _ hm
      obtain rfl : d = b := hV.blocks.inj (List.mem_filter.1 hd).1 (by simp) (by simp at hda; omega)
      exact hR.reallocated hV hroom

/-- The blocks that stay in use are the others, and the block itself where it
keeps its place and its size. -/
theorem undisturbed_of_reallocated (hl : w'.live = (q, n) :: w.without p)
    (hR : ∀ m, (p, m) ∈ w.live → Reallocated L w p m n w'.heap q) (hp : w.Holds p) :
    Undisturbed w w' := by
  obtain ⟨⟨p, m⟩, hm, rfl⟩ := hp
  intro x hx hx' i hi hi'
  by_cases hxp : x.1 = p
  · rw [hl] at hx'
    rcases List.mem_cons.1 hx' with rfl | hx'
    · obtain rfl : q = p := hxp
      have hbyte := (hR n hx).bytes (i - q) (by omega) (by omega)
      rwa [Nat.add_sub_cancel' hi] at hbyte
    · have hne := (List.mem_filter.1 hx').2
      simp [hxp] at hne
  · exact (hR m hm).others x hx hxp i hi hi'

/-- **A careful call** keeps the invariant, and `mm_realloc` keeps the bytes. -/
theorem careful (hV : Valid L w bs fs) {c : Call} (hc : Careful w c) (hp : w.Permits c) :
    Returns L w c ∧ ∀ w', w.call L c = .ok w' → Survives w w' c := by
  cases hbasic : c.basic with
  | true =>
    refine ⟨hV.basic hbasic hp, fun w' _ p n m he => ?_⟩
    subst he
    exact absurd hbasic (by simp [Call.basic])
  | false =>
    cases c with
    | realloc p n =>
      by_cases h0 : p = 0
      · subst h0
        have hb := hV.basic (c := .malloc n) rfl hp.2
        refine ⟨hb.of_call (hV.call_realloc_null n) (by simp), fun w' _ p' n' m he _ hm => ?_⟩
        obtain ⟨rfl, -⟩ := Call.realloc.inj he
        obtain ⟨d, -, hd, -⟩ := hV.owned.block _ hm
        have hd' : 0 = d.addr + 12 := hd
        omega
      · by_cases hn0 : n = 0
        · subst hn0
          have hb := hV.basic (c := .free p) rfl hp.1
          refine ⟨hb.of_call (call_realloc_zero L w h0) (by simp), fun w' _ p' n' m he hn => ?_⟩
          exact absurd (Call.realloc.inj he).2.symm hn
        · obtain ⟨pre, b, post, rfl, hb, rfl⟩ := hV.exists_block (hp.1.resolve_left h0)
          rcases hV.realloc_block hb hn0 hc with
            ⟨e, he, hno⟩ | ⟨w', bs', fs', q, he, hl, hV', hR⟩
          · refine ⟨⟨fun e' h => ?_, fun w' h => ?_, fun w' h => ?_⟩, fun w' h => ?_⟩
            · exact Except.error.inj (he.symm.trans h) ▸ hno
            · exact absurd (he.symm.trans h) (by simp)
            · exact absurd (he.symm.trans h) (by simp)
            · exact absurd (he.symm.trans h) (by simp)
          · refine ⟨.of_ok he hV' fun _ => undisturbed_of_reallocated hl hR (hp.1.resolve_left h0),
              fun w'' h => ?_⟩
            · obtain rfl := Except.ok.inj (he.symm.trans h)
              intro p' n' m hc' _ hm
              obtain ⟨rfl, rfl⟩ := Call.realloc.inj hc'
              exact ⟨q, by simp [hl], (hR m hm).bytes⟩
    | reset => exact absurd hbasic (by simp [Call.basic])
    | malloc n => exact absurd hbasic (by simp [Call.basic])
    | free p => exact absurd hbasic (by simp [Call.basic])
    | store a v => exact absurd hbasic (by simp [Call.basic])

end Valid

/-- **Every careful run keeps the invariant.** -/
theorem valid_of_careful (hw : (mmSystem L).ReachBy Careful w) : ∃ bs fs, Valid L w bs fs := by
  refine hw.induct (P := fun w => ∃ bs fs, Valid L w bs fs)
    (fun w hi => ⟨_, _, (valid_of_init hi).1⟩) ?_
  rintro w c w' - ⟨bs, fs, hV⟩ hc hn
  obtain ⟨hp, he⟩ := next_eq_some.1 hn
  exact (hV.careful hc hp).1.valid w' he

/-- **Payloads are intact** after every careful run: they are apart and inside the
heap, and the next careful call ends the run for lack of memory, or it changes no
payload but the one that it resizes or writes to. -/
theorem payloads_intact (hw : (mmSystem L).ReachBy Careful w) :
    Laid L w ∧ ∀ c, Careful w c → w.Permits c →
      (∀ e, w.call L c = .error e → e.NoMemory) ∧
      ∀ w', w.call L c = .ok w' →
        ((∀ a v, c ≠ .store a v) → Undisturbed w w') ∧ Survives w w' c := by
  obtain ⟨bs, fs, hV⟩ := valid_of_careful hw
  refine ⟨hV.laid, fun c hc hp => ?_⟩
  obtain ⟨hret, hsurv⟩ := hV.careful hc hp
  exact ⟨hret.fault, fun w' he => ⟨hret.undisturbed w' he, hsurv w' he⟩⟩

/-- A run in which a block is moved and another one is shrunk. -/
theorem payloads_intact_moved :
    let w := ((mmSystem .low).runBy Careful (.first .low fun _ => 7)
      [.malloc 100, .malloc 50, .store 150 9, .realloc 148 200, .realloc 264 8]).getD
        (.first .low fun _ => 7)
    w.live = [(264, 8), (332, 200)] ∧ Laid .low w ∧ ∀ c, Careful w c → w.Permits c →
      (∀ e, w.call .low c = .error e → e.NoMemory) ∧
      ∀ w', w.call .low c = .ok w' →
        ((∀ a v, c ≠ .store a v) → Undisturbed w w') ∧ Survives w w' c := by
  intro w
  have hw : (mmSystem .low).ReachBy Careful w :=
    System.ReachBy.getD_runBy (.init (init_first _ _)) _
  exact ⟨by decide +kernel, payloads_intact hw⟩

/-- After case 2, `mm_free` of the block behind writes into the payload. -/
theorem grown_payload_changes : ∃ w w' : World, (mmSystem .low).Reach w ∧
    w.live = [(4260, 1), (148, 4096)] ∧ w.call .low (.free 4260) = .ok w' ∧
    w'.live = [(148, 4096)] ∧ w'.heap.mem (148 + 4081) ≠ w.heap.mem (148 + 4081) ∧
    ¬Undisturbed w w' := by
  have h₀ : (mmSystem .low).Reach (.first .low fun _ => 7) := .init (init_first _ _)
  have hw := h₀.getD_run [.malloc 4076, .realloc 148 4096, .malloc 1]
  generalize hrun : ((mmSystem .low).run (.first .low fun _ => 7)
    [.malloc 4076, .realloc 148 4096, .malloc 1]).getD (.first .low fun _ => 7) = w at hw
  have hfacts : w.live = [(4260, 1), (148, 4096)] ∧ w.without 4260 = [(148, 4096)] ∧
      (mmFree .low w.heap 4260).mem (148 + 4081) ≠ w.heap.mem (148 + 4081) := by
    rw [← hrun]
    decide +kernel
  obtain ⟨hlive, hleft, hbyte⟩ := hfacts
  refine ⟨w, _, hw, hlive, rfl, hleft, hbyte, fun hu => hbyte ?_⟩
  exact hu (148, 4096) (by simp [hlive]) (by simp [hleft]) _ (by decide) (by decide)

end MallocLab
end CsappLabs
