/-
# The pass over the free list

`expand_heap` visits the free list and merges each block with its free neighbours.
After a merge with the block before, the loop goes on behind that block in the list,
wherever it stands, and the merged block has no footer by which the one behind could
find it.

So the order of the list decides.  Where no block that still has to be merged is left
out (`NoneSkipped`), the pass leaves no two free blocks side by side exactly if of
three free blocks in a row the second stands before the first (`pass_complete_iff`).
-/

import CsappLabs.Lib.Visits
import CsappLabs.MallocLab.FirstFit
import CsappLabs.MallocLab.Footers
import CsappLabs.MallocLab.Payloads

namespace CsappLabs
namespace MallocLab

open Lib Lib.CInt Lib.Memory Lib.Tiling Lib.Visits

variable {L : Layout} {w : World} {h h' : Heap} {bs bs' pre mid post : List Blk}
  {fs fs' u v : List ℕ} {b c d e m : Blk} {a r : ℕ}

/-! ### Free blocks side by side -/

/-- A free block at `a` has a free block at `c` behind it. -/
def Beside (bs : List Blk) (a c : ℕ) : Prop :=
  ∃ d ∈ bs, ∃ e ∈ bs, d.alloc = false ∧ e.alloc = false ∧ d.addr = a ∧ e.addr = c ∧ d.stop = c

/-- The free block at `a` has its footer. -/
def HasTag (bs : List Blk) (a : ℕ) : Prop :=
  ∃ d ∈ bs, d.alloc = false ∧ d.addr = a ∧ d.tagged = true

theorem Sized.lt_stop (hs : Sized bs) (hd : d ∈ bs) : d.addr < d.stop := by
  have := (hs d hd).2
  rw [Blk.stop]
  omega

theorem WellFormed.chain (hW : WellFormed L h bs fs) : Chain (Beside bs) fs := by
  have hB := hW.blocks
  have hstop : ∀ d ∈ bs, d.addr < d.stop := fun d hd => hB.sized.lt_stop hd
  constructor
  · rintro _ _ ⟨d, hd, e, he, hdf, hef, rfl, rfl, -⟩
    exact ⟨hW.complete d hd hdf, hW.complete e he hef⟩
  · rintro _ _ _ ⟨d, hd, -, -, -, -, rfl, -, hs⟩ ⟨d', hd', -, -, -, -, rfl, -, hs'⟩
    have h₁ := hstop d hd
    have h₂ := hstop d' hd'
    rcases hB.row.apart hd hd' with he | he | he
    · rw [he]
    · rw [Blk.stop] at *
      omega
    · rw [Blk.stop] at *
      omega
  · rintro _ _ _ ⟨d, hd, -, -, -, -, rfl, -, hs⟩ ⟨d', hd', -, -, -, -, hda, -, hs'⟩
    rw [← hs, ← hs', hB.inj hd' hd hda]
  · rintro _ _ ⟨d, hd, -, -, -, -, rfl, -, hs⟩
    exact (hs ▸ hstop d hd).ne
  · rintro _ _ _ ⟨d, hd, -, -, -, -, rfl, -, hs⟩ ⟨d', hd', -, -, -, -, rfl, -, hs'⟩
    have h₁ := hstop d hd
    have h₂ := hstop d' hd'
    omega

/-- The block before ends where the block starts. -/
theorem Blocks.before_eq (hB : Blocks L h (pre ++ b :: post)) (hd : d ∈ pre ++ b :: post)
    (hs : d.stop = b.addr) : d ∈ pre.getLast? := by
  have hbm := hB.mem (b := b) (by simp)
  have hdm := hB.mem hd
  obtain ⟨hpre, -⟩ := tiles_split.1 hB.row
  rw [Blk.stop] at hs
  rcases List.eq_nil_or_concat pre with rfl | ⟨pre, q, rfl⟩
  · have : L.memStart + 8 = b.addr := hpre
    omega
  · rw [List.concat_eq_append] at hpre hd hB ⊢
    have hq : q.addr + q.size = b.addr := (tiles_split.1 hpre).2
    have hqm := hB.mem (b := q) (by simp)
    rcases hB.row.apart hd (c := q) (by simp) with rfl | he | he
    · simp
    · omega
    · omega

/-- The block behind starts where the block ends. -/
theorem Blocks.behind_eq (hB : Blocks L h (pre ++ b :: post)) (he : e ∈ pre ++ b :: post)
    (hs : b.stop = e.addr) : e ∈ post.head? := by
  have hem := hB.mem he
  obtain ⟨-, hpost⟩ := tiles_split.1 hB.row
  rw [Blk.stop] at hs
  cases post with
  | nil =>
    have : b.addr + b.size = h.brk - 4 := hpost
    omega
  | cons y post =>
    have hy : y.addr = b.addr + b.size := hpost.1
    rw [hB.inj he (c := y) (by simp) (by omega)]
    rfl

/-! ### A merge -/

section Merge

variable {s e : ℕ} {f l : Blk} (hpre : Row s pre m.addr) (hmid : Row m.addr mid m.stop)
  (hpost : Row m.stop post e) (hsized : Sized (pre ++ mid ++ post))

include hpre hpost hsized in
/-- The blocks that are not merged are beside those that are. -/
theorem side_apart (hd : d ∈ pre ∨ d ∈ post) :
    d.addr < d.stop ∧ (d.stop ≤ m.addr ∨ m.stop ≤ d.addr) := by
  refine ⟨hsized.lt_stop (by rcases hd with hd | hd <;> simp [hd]), ?_⟩
  rcases hd with hd | hd
  · exact .inl (hpre.mem hd).2
  · exact .inr (hpost.mem hd).1

include hmid hsized in
theorem merged_within (hd : d ∈ mid) : m.addr ≤ d.addr ∧ d.addr < d.stop ∧ d.stop ≤ m.stop :=
  ⟨(hmid.mem hd).1, hsized.lt_stop (by simp [hd]), (hmid.mem hd).2⟩

include hpre hmid hpost hsized in
/-- Side by side after the blocks of `mid`, from `f` to `l`, have become the block `m`. -/
theorem Beside.of_merge (hfree : ∀ d ∈ mid, d.alloc = false) (hf : f ∈ mid) (hfm : f.addr = m.addr)
    (hl : l ∈ mid) (hlm : l.stop = m.stop) {a c : ℕ} (h : Beside (pre ++ m :: post) a c) :
    a = m.addr ∧ Beside (pre ++ mid ++ post) l.addr c ∨
      a ∉ mid.map Blk.addr ∧ Beside (pre ++ mid ++ post) a c := by
  have hlin := merged_within hmid hsized hl
  have hold : ∀ {d}, d ∈ pre ∨ d ∈ post → d ∈ pre ++ mid ++ post := by
    rintro d (hd | hd) <;> simp [hd]
  have hnew : ∀ {d}, d ∈ pre ++ m :: post → d = m ∨ d ∈ pre ∨ d ∈ post := fun hd =>
    or_left_comm.1 ((List.mem_append.1 hd).imp_right List.mem_cons.1)
  obtain ⟨d, hd, e, he, hdf, hef, rfl, rfl, hs⟩ := h
  rcases hnew hd with rfl | hd'
  · refine .inl ⟨rfl, l, by simp [hl], e, ?_, hfree l hl, hef, rfl, rfl, hlm.trans hs⟩
    rcases hnew he with rfl | he'
    · omega
    · exact hold he'
  · have hds := side_apart hpre hpost hsized hd'
    refine .inr ⟨fun hmem => ?_, d, hold hd', ?_⟩
    · obtain ⟨g, hg, hgd⟩ := List.mem_map.1 hmem
      have := merged_within hmid hsized hg
      omega
    · rcases hnew he with rfl | he'
      · exact ⟨f, by simp [hf], hdf, hfree f hf, rfl, hfm, hs⟩
      · exact ⟨e, hold he', hdf, hef, rfl, rfl, hs⟩

include hpre hmid hpost hsized in
/-- What is behind the last one merged is behind the new block. -/
theorem Beside.merge_last (hm : m.alloc = false) (hl : l ∈ mid) (hlm : l.stop = m.stop) {c : ℕ}
    (h : Beside (pre ++ mid ++ post) l.addr c) : Beside (pre ++ m :: post) m.addr c := by
  have hlin := merged_within hmid hsized hl
  obtain ⟨d, hd, e, he, -, hef, hda, rfl, hs⟩ := h
  simp only [List.mem_append] at hd he
  rw [or_right_comm] at hd he
  have hdl : d.stop = m.stop := by
    rcases hd with hd | hd
    · have := side_apart hpre hpost hsized hd
      omega
    · have hpos : ∀ x ∈ mid, 0 < x.size := fun x hx =>
        (hsized x (by simp [hx])).2.trans_lt' (by norm_num)
      rw [hmid.inj hpos hd hl hda, hlm]
  refine ⟨m, by simp, e, ?_, hm, hef, rfl, rfl, hdl ▸ hs⟩
  rcases he with he | he
  · rcases he with he | he <;> simp [he]
  · have := merged_within hmid hsized he
    omega

include hpre hmid hpost hsized in
/-- What is beside those merged stays so. -/
theorem Beside.merge_side (hm : m.alloc = false) {a c : ℕ} (ha : a ∉ mid.map Blk.addr)
    (h : Beside (pre ++ mid ++ post) a c) : Beside (pre ++ m :: post) a c := by
  obtain ⟨d, hd, e, he, hdf, hef, rfl, rfl, hs⟩ := h
  simp only [List.mem_append] at hd he
  rw [or_right_comm] at hd he
  have hd' := hd.resolve_right fun hd => ha (List.mem_map_of_mem hd)
  have hds := side_apart hpre hpost hsized hd'
  refine ⟨d, by rcases hd' with hd | hd <;> simp [hd], ?_⟩
  rcases he with he | he
  · exact ⟨e, by rcases he with he | he <;> simp [he], hdf, hef, rfl, rfl, hs⟩
  · have hei := merged_within hmid hsized he
    exact ⟨m, by simp, hdf, hm, rfl, by omega, hs⟩

end Merge

/-- No merged block has its footer. -/
theorem hasTag_merge (hB : Blocks L h (pre ++ mid ++ post)) (hpre : ∀ d ∈ pre, d.stop ≤ m.addr)
    (hpost : ∀ d ∈ post, m.stop ≤ d.addr) (ht : m.tagged = false) (hm : m.addr < m.stop)
    (ha : HasTag (pre ++ m :: post) a) : HasTag (pre ++ mid ++ post) a ∧ a ≠ m.addr := by
  obtain ⟨d, hd, hdf, rfl, hdt⟩ := ha
  simp only [List.mem_append, List.mem_cons] at hd
  rcases hd with hd | rfl | hd
  · have h₁ := hpre d hd
    have h₂ := (hB.sized d (by simp [hd])).2
    rw [Blk.stop] at h₁
    exact ⟨⟨d, by simp [hd], hdf, rfl, hdt⟩, by omega⟩
  · exact absurd hdt (by simp [ht])
  · have h₁ := hpost d hd
    exact ⟨⟨d, by simp [hd], hdf, rfl, hdt⟩, by omega⟩

/-- The items after the blocks `f :: mid` have become the block `m`. -/
theorem after_merge {f l : Blk} (hB : Blocks L h (pre ++ (f :: mid) ++ post))
    (hmid : Row f.addr (f :: mid) m.stop) (hfree : ∀ d ∈ f :: mid, d.alloc = false)
    (hm : m.alloc = false) (ht : m.tagged = false) (hfm : f.addr = m.addr) (hl : l ∈ f :: mid)
    (hlm : l.stop = m.stop) :
    After (Beside (pre ++ (f :: mid) ++ post)) (HasTag (pre ++ (f :: mid) ++ post)) f.addr l.addr
      ((f :: mid).map Blk.addr) (Beside (pre ++ m :: post)) (HasTag (pre ++ m :: post)) := by
  obtain ⟨x, hrow, hpost⟩ := tiles_append.1 hB.row
  obtain ⟨y, hpre, hmid'⟩ := tiles_append.1 hrow
  obtain rfl : f.addr = y := hmid'.1
  obtain rfl := hmid.end_unique hmid'
  have hlm' := hmid.mem hl
  have hl16 := (hB.sized l (by simp only [List.mem_append]; exact .inl (.inr hl))).2
  have hpos : m.addr < m.stop := by omega
  rw [hfm] at hpre hmid ⊢
  refine ⟨fun a c => ⟨fun h => ?_, ?_⟩, fun a ha => ?_⟩
  · exact h.of_merge hpre hmid hpost hB.sized hfree List.mem_cons_self hfm hl hlm
  · rintro (⟨rfl, h⟩ | ⟨ha, h⟩)
    · exact h.merge_last hpre hmid hpost hB.sized hm hl hlm
    · exact h.merge_side hpre hmid hpost hB.sized hm ha
  · obtain ⟨ha, hne⟩ := hasTag_merge hB (fun d hd => (hpre.mem hd).2) (fun d hd => (hpost.mem hd).1)
      ht hpos ha
    exact ⟨ha, fun he => absurd he hne⟩

/-- Where `coalesce` sees no free block before, none with a footer is there. -/
theorem Blocks.not_hasTag (hB : Blocks L h (pre ++ b :: post)) (hno : NoPrev pre) {p : ℕ}
    (hp : Beside (pre ++ b :: post) p b.addr) : ¬HasTag (pre ++ b :: post) p := by
  obtain ⟨d, hd, -, -, hdf, -, rfl, -, hs⟩ := hp
  rintro ⟨d', hd', -, hda, ht⟩
  obtain rfl := hB.inj hd' hd hda
  rcases hno _ (hB.before_eq hd hs) with hal | hun
  · exact absurd hal (by simp [hdf])
  · exact absurd ht (by simp [hun])

theorem Blocks.not_beside (hB : Blocks L h (pre ++ b :: post)) (hno : NoNext post) (n : ℕ) :
    ¬Beside (pre ++ b :: post) b.addr n := by
  rintro ⟨d, hd, e, he, -, hef, hda, rfl, hs⟩
  obtain rfl := hB.inj hd (c := b) (by simp) hda
  exact absurd (hno e (hB.behind_eq he hs)) (by simp [hef])

/-- What is absorbed is taken out of the list. -/
theorem erase_eq_filter_or (hnd : fs.Nodup) {p n : ℕ} (hne : n ≠ p) :
    fs.erase n = fs.filter fun a => a ∉ [p, n] ∨ a = p := by
  rw [hnd.erase_eq_filter]
  refine List.filter_congr fun a _ => ?_
  by_cases han : a = n
  · simp [han, hne]
  · by_cases hap : a = p
    · simp [hap, hne.symm]
    · simp [han, hap]

/-- **`coalesce` of a listed block is a visit.** -/
theorem Coalesced.visit (hW : WellFormed L h (pre ++ b :: post) fs) (hb : b.alloc = false)
    (hc : Coalesced pre b post fs bs' fs' r) :
    ∃ l M, Visit (Beside (pre ++ b :: post)) (HasTag (pre ++ b :: post)) b.addr r l M ∧
      After (Beside (pre ++ b :: post)) (HasTag (pre ++ b :: post)) r l M
        (Beside bs') (HasTag bs') ∧
      fs' = fs.filter fun a => a ∉ M ∨ a = r := by
  have hB := hW.blocks
  have hnd := hW.nodup_list
  cases hc with
  | none hp hn =>
    refine ⟨b.addr, [b.addr], .none (fun _ => hB.not_hasTag hp) (hB.not_beside hn),
      ⟨fun a c => ?_, fun a ha => ⟨ha, fun _ => rfl⟩⟩, ?_⟩
    · by_cases hab : a = b.addr
      · subst hab
        simp
      · simp [hab]
    · refine (List.filter_eq_self.2 fun a _ => ?_).symm
      by_cases hab : a = b.addr <;> simp [hab]
  | @next _ _ n post _ hp hn =>
    obtain ⟨hpre, hbn⟩ := tiles_split.1 hB.row
    have hbn' : n.addr = b.addr + b.size := hbn.1
    have hne : n.addr ≠ b.addr := by
      have := (hB.sized b (by simp)).2
      omega
    have hB' : Blocks L h (pre ++ [b, n] ++ post) := by simpa using hB
    have hA := after_merge (m := b.absorb n) (l := n) hB'
      ⟨rfl, hbn.1, ?_⟩ ?_ hb rfl rfl (by simp) ?_
    · refine ⟨n.addr, [b.addr, n.addr], .next (fun _ => hB.not_hasTag hp) ?_, by simpa using hA,
        erase_eq_filter_or hnd hne⟩
      exact ⟨b, by simp, n, by simp, hb, hn, rfl, rfl, hbn'.symm⟩
    · show b.addr + b.size + n.size = b.addr + (b.size + n.size)
      omega
    · simp [hb, hn]
    · show n.addr + n.size = b.addr + (b.size + n.size)
      omega
  | @prev pre p _ post _ hp ht hn =>
    obtain ⟨hpre, -⟩ := tiles_split.1 hB.row
    have hpb : p.addr + p.size = b.addr := (tiles_split.1 hpre).2
    have hne : b.addr ≠ p.addr := by
      have := (hB.sized p (by simp)).2
      omega
    have hB' : Blocks L h (pre ++ [p, b] ++ post) := by simpa using hB
    have hA := after_merge (m := p.absorb b) (l := b) hB'
      ⟨rfl, hpb.symm, ?_⟩ ?_ hp rfl rfl (by simp) ?_
    · refine ⟨b.addr, [p.addr, b.addr], .prev ?_ ⟨p, by simp, hp, rfl, ht⟩ (hB.not_beside hn),
        by simpa using hA, erase_eq_filter_or hnd hne⟩
      exact ⟨p, by simp, b, by simp, hp, hb, rfl, rfl, hpb⟩
    · show p.addr + p.size + b.size = p.addr + (p.size + b.size)
      omega
    · simp [hp, hb]
    · show b.addr + b.size = p.addr + (p.size + b.size)
      omega
  | @both pre p _ n post _ hp ht hn =>
    obtain ⟨hpre, hbn⟩ := tiles_split.1 hB.row
    have hpb : p.addr + p.size = b.addr := (tiles_split.1 hpre).2
    have hbn' : n.addr = b.addr + b.size := hbn.1
    have hp16 := (hB.sized p (by simp)).2
    have hb16 := (hB.sized b (by simp)).2
    have hB' : Blocks L h (pre ++ [p, b, n] ++ post) := by simpa using hB
    have hA := after_merge (m := (p.absorb b).absorb n) (l := n) hB'
      ⟨rfl, hpb.symm, hbn'.trans (hpb ▸ rfl), ?_⟩ ?_ hp rfl rfl (by simp) ?_
    · refine ⟨n.addr, [p.addr, b.addr, n.addr], .both ?_ ⟨p, by simp, hp, rfl, ht⟩ ?_,
        by simpa using hA, ?_⟩
      · exact ⟨p, by simp, b, by simp, hp, hb, rfl, rfl, hpb⟩
      · exact ⟨b, by simp, n, by simp, hb, hn, rfl, rfl, hbn'.symm⟩
      · rw [(hnd.erase _).erase_eq_filter, erase_eq_filter_or hnd (show n.addr ≠ p.addr by omega),
          List.filter_filter]
        refine List.filter_congr fun a _ => ?_
        by_cases hab : a = b.addr
        · simp [hab, show b.addr ≠ p.addr by omega]
        · by_cases hap : a = p.addr
          · simp [hap, show p.addr ≠ b.addr by omega]
          · simp [hab, hap]
    · show p.addr + p.size + b.size + n.size = p.addr + (p.size + b.size + n.size)
      omega
    · simp [hp, hb, hn]
    · show n.addr + n.size = p.addr + (p.size + b.size + n.size)
      omega

/-! ### The loop -/

/-- What is left of the list behind the merged block. -/
theorem behind_filter {x y : List ℕ} (hnd : (u ++ (x ++ r :: y)).Nodup) (M : List ℕ) :
    behind r ((u ++ (x ++ r :: y)).filter fun a => a ∉ M ∨ a = r) = y.filter (· ∉ M) := by
  rw [← List.append_assoc] at hnd ⊢
  obtain ⟨hr', hnd⟩ := List.nodup_middle.1 hnd |> List.nodup_cons.1
  rw [List.filter_append, List.filter_cons_of_pos (by simp), behind_append]
  · refine List.filter_congr fun a ha => ?_
    have har : a ≠ r := fun he => hr' (he ▸ List.mem_append_right _ ha)
    simp [har]
  · exact fun hm => hr' (List.mem_append_left _ (List.mem_filter.1 hm).1)

/-- A visit of the loop, and where it goes on. -/
theorem Coalesced.visit_rest (hW : WellFormed L h (pre ++ b :: post) (u ++ b.addr :: v))
    (hb : b.alloc = false) (hc : Coalesced pre b post (u ++ b.addr :: v) bs' fs' r)
    (hin : ∀ a c, HasTag (pre ++ b :: post) a → Beside (pre ++ b :: post) a c → a ∈ b.addr :: v) :
    ∃ l M x y, Visit (Beside (pre ++ b :: post)) (HasTag (pre ++ b :: post)) b.addr r l M ∧
      After (Beside (pre ++ b :: post)) (HasTag (pre ++ b :: post)) r l M
        (Beside bs') (HasTag bs') ∧
      b.addr :: v = x ++ r :: y ∧ behind r fs' = y.filter (· ∉ M) := by
  obtain ⟨l, M, hv, ha, hfs⟩ := hc.visit hW hb
  have hr : r ∈ b.addr :: v := by
    rcases hv.first_eq with rfl | ⟨ht, hbe⟩
    · exact List.mem_cons_self
    · exact hin r b.addr ht hbe
  obtain ⟨x, y, hxy⟩ := List.append_of_mem hr
  have hnd := hW.nodup_list
  rw [hxy] at hnd
  exact ⟨l, M, x, y, hv, ha, hxy, by rw [hfs, hxy, behind_filter hnd]⟩

/-- The address that is visited is in the list once. -/
theorem WellFormed.nodup_rest (hW : WellFormed L h bs (u ++ v)) : v.Nodup :=
  (List.nodup_append.1 hW.nodup_list).2.1

/-- **The pass over a list in order** leaves no two free blocks side by side, and over
another one it leaves some. -/
theorem WellFormed.pass (hW : WellFormed L h bs fs) (hcl : Clear (Beside bs) (HasTag bs) fs) :
    ∃ h' bs' fs', coalesceLoop L (MAX_HEAP * MAX_HEAP) h (h.next L.head) = .ok h' ∧
      WellFormed L h' bs' fs' ∧ ((¬∃ a c, Beside bs' a c) ↔ Sorted (Beside bs) fs) := by
  have hchain := hW.chain
  by_cases hs : Sorted (Beside bs) fs
  · obtain ⟨h', bs', fs', hloop, hI, hW', -⟩ := hW.pass_rule
      (Q := fun bs _ w => Ready (Beside bs) (HasTag bs) w)
      (fun hW₁ hb hc _ hI => by
        obtain ⟨l, M, x, y, hv, ha, hxy, hrest⟩ := hc.visit_rest hW₁ hb fun a c _ => hI.first a c
        rw [hrest]
        exact hI.step hW₁.chain hW₁.nodup_rest hv ha hxy)
      (.init hchain hs hcl)
    refine ⟨h', bs', fs', hloop, hW', iff_of_true ?_ hs⟩
    rintro ⟨a, c, hac⟩
    exact hI.done a c hac
  · obtain ⟨h', bs', fs', hloop, hI, hW', -⟩ := hW.pass_rule
      (Q := fun bs _ w => Stuck (Beside bs) (HasTag bs) w)
      (fun hW₁ hb hc _ hI => by
        obtain ⟨l, M, x, y, hv, ha, hxy, hrest⟩ := hc.visit_rest hW₁ hb hI.tagged
        rw [hrest]
        exact hI.step hW₁.chain hW₁.nodup_rest hv ha hxy)
      (.init hchain hs hcl)
    exact ⟨h', bs', fs', hloop, hW', iff_of_false (not_not.2 hI.done) hs⟩

/-! ### In the memory -/

/-- `next_block` of `coalesce`. -/
def Heap.nextBlock (h : Heap) (a : ℕ) : ℕ := a + h.blockSize a

/-- No block with a free one behind it stands, in the list, between a free block and
the one before that, which its footer shows to be free. -/
def NoneSkipped (h : Heap) (fs : List ℕ) : Prop :=
  ∀ p ∈ fs, h.nextBlock p ∈ fs → h.read (h.footer p) = h.blockSize p →
    ∀ x ∈ fs, h.nextBlock x ∈ fs → ¬[h.nextBlock p, x, p].Sublist fs

/-- Of three free blocks in a row the second stands before the first in the list. -/
def SecondFirst (h : Heap) (fs : List ℕ) : Prop :=
  ∀ a ∈ fs, h.nextBlock a ∈ fs → h.nextBlock (h.nextBlock a) ∈ fs →
    [h.nextBlock a, a].Sublist fs

instance (h : Heap) (fs : List ℕ) : Decidable (NoneSkipped h fs) :=
  inferInstanceAs (Decidable (∀ p ∈ fs, _ → _ → ∀ x ∈ fs, _ → _))

instance (h : Heap) (fs : List ℕ) : Decidable (SecondFirst h fs) :=
  inferInstanceAs (Decidable (∀ a ∈ fs, _ → _ → _))

/-- The listed blocks are the free ones of the row. -/
theorem WellFormed.mem_list_iff (hW : WellFormed L h bs fs) :
    a ∈ fs ↔ ∃ d ∈ bs, d.alloc = false ∧ d.addr = a := by
  constructor
  · intro ha
    obtain ⟨d, hd, rfl, hdf⟩ := hW.free a ha
    exact ⟨d, hd, hdf, rfl⟩
  · rintro ⟨d, hd, hdf, rfl⟩
    exact hW.complete d hd hdf

theorem WellFormed.beside_iff (hW : WellFormed L h bs fs) {c : ℕ} :
    Beside bs a c ↔ a ∈ fs ∧ c ∈ fs ∧ h.nextBlock a = c := by
  rw [hW.mem_list_iff, hW.mem_list_iff, Heap.nextBlock]
  constructor
  · rintro ⟨d, hd, e, he, hdf, hef, rfl, rfl, hs⟩
    exact ⟨⟨d, hd, hdf, rfl⟩, ⟨e, he, hef, rfl⟩, by rw [hW.blocks.blockSize_eq hd]; exact hs⟩
  · rintro ⟨⟨d, hd, hdf, rfl⟩, ⟨e, he, hef, rfl⟩, hs⟩
    rw [hW.blocks.blockSize_eq hd] at hs
    exact ⟨d, hd, e, he, hdf, hef, rfl, rfl, hs⟩

theorem WellFormed.hasTag_iff (hW : WellFormed L h bs fs) :
    HasTag bs a ↔ a ∈ fs ∧ h.read (h.footer a) = h.blockSize a := by
  rw [hW.mem_list_iff]
  constructor
  · rintro ⟨d, hd, hdf, rfl, ht⟩
    exact ⟨⟨d, hd, hdf, rfl⟩, (hW.blocks.footer_iff hd).2 ht⟩
  · rintro ⟨⟨d, hd, hdf, rfl⟩, ht⟩
    exact ⟨d, hd, hdf, rfl, (hW.blocks.footer_iff hd).1 ht⟩

theorem WellFormed.sorted_iff (hW : WellFormed L h bs fs) :
    Sorted (Beside bs) fs ↔ SecondFirst h fs := by
  simp only [Sorted, SecondFirst, hW.beside_iff]
  constructor
  · intro hs a ha hb hc
    exact hs a _ _ ⟨ha, hb, rfl⟩ ⟨hb, hc, rfl⟩
  · rintro hs a _ _ ⟨ha, hb, rfl⟩ ⟨-, hc, rfl⟩
    exact hs a ha hb hc

theorem WellFormed.clear_iff (hW : WellFormed L h bs fs) :
    Clear (Beside bs) (HasTag bs) fs ↔ NoneSkipped h fs := by
  simp only [Clear, NoneSkipped, hW.beside_iff, hW.hasTag_iff]
  constructor
  · intro hcl p hp hb ht x hx hy
    exact hcl p _ x _ ⟨hp, ht⟩ ⟨hp, hb, rfl⟩ ⟨hx, hy, rfl⟩
  · rintro hcl p _ x _ ⟨hp, ht⟩ ⟨-, hb, rfl⟩ ⟨hx, hy, rfl⟩
    exact hcl p hp hb ht x hx hy

/-- Free blocks side by side, in the row and in the memory. -/
theorem WellFormed.adjacentFree_iff (hW : WellFormed L h bs fs) :
    AdjacentFree L h ↔ ∃ a c, Beside bs a c := by
  rw [hW.blocks.adjacentFree_iff]
  constructor
  · rintro ⟨pre, d, e, post, rfl, hd, he⟩
    have hs : e.addr = d.addr + d.size := (tiles_split.1 hW.blocks.row).2.1
    exact ⟨d.addr, e.addr, d, by simp, e, by simp, hd, he, rfl, rfl, hs.symm⟩
  · rintro ⟨_, _, d, hd, e, he, hdf, hef, rfl, rfl, hs⟩
    obtain ⟨pre, post, rfl⟩ := List.append_of_mem hd
    obtain ⟨post, rfl⟩ := List.head?_eq_some_iff.1 (hW.blocks.behind_eq he hs)
    exact ⟨pre, d, e, post, rfl, hdf, hef⟩

/-- The pass in the words of the memory. -/
theorem Valid.pass_complete (hV : Valid L w bs fs) (hs : NoneSkipped w.heap fs) :
    ∃ h', coalesceLoop L (MAX_HEAP * MAX_HEAP) w.heap (w.heap.next L.head) = .ok h' ∧
      (¬AdjacentFree L h' ↔ SecondFirst w.heap fs) := by
  have hW := hV.toWellFormed
  obtain ⟨h', bs', fs', hloop, hW', hiff⟩ := hW.pass (hW.clear_iff.2 hs)
  exact ⟨h', hloop, by rw [hW'.adjacentFree_iff, hiff, hW.sorted_iff]⟩

/-- **When the pass is complete**, after any careful run: where no block that still has to
be merged is left out, exactly if of three free blocks in a row the second stands before
the first in the list. -/
theorem pass_complete_iff (hw : (mmSystem L).ReachBy Careful w) {as : List ℕ}
    (hE : Exact L w.heap as fs) (hs : NoneSkipped w.heap fs) :
    ∃ h', coalesceLoop L (MAX_HEAP * MAX_HEAP) w.heap (w.heap.next L.head) = .ok h' ∧
      (¬AdjacentFree L h' ↔ SecondFirst w.heap fs) := by
  obtain ⟨bs, fs', hV⟩ := valid_of_careful hw
  obtain rfl := hE.unique hV.blocks.brk.2 hV.toWellFormed.exact
  exact hV.pass_complete hs

/-- The rest of a block that was made smaller stands before the free block behind it. -/
theorem pass_complete_iff_shrunk :
    let w := ((mmSystem .low).runBy Careful (.first .low fun _ => 7)
      [.malloc 1000, .realloc 148 500]).getD (.first .low fun _ => 7)
    ∃ h', coalesceLoop .low (MAX_HEAP * MAX_HEAP) w.heap (w.heap.next Layout.low.head) = .ok h' ∧
      ¬AdjacentFree .low h' := by
  intro w
  have hw : (mmSystem .low).ReachBy Careful w :=
    System.ReachBy.getD_runBy (.init (init_first _ _)) _
  have hfacts : (w.heap.next Layout.low.head = 652 ∧ w.heap.prev 652 = Layout.low.head ∧
      w.heap.next 652 = 1152 ∧ w.heap.prev 1152 = 652 ∧
      w.heap.next 1152 = Layout.low.head ∧ w.heap.prev Layout.low.head = 1152) ∧
      NoneSkipped w.heap [652, 1152] ∧ SecondFirst w.heap [652, 1152] := by decide +kernel
  clear_value w
  obtain ⟨hring, hskip, hfirst⟩ := hfacts
  obtain ⟨bs, fs, hV⟩ := valid_of_careful hw
  obtain rfl : fs = [652, 1152] :=
    hV.listed.ring.unique hring (fun _ => rfl) hV.toWellFormed.head_not_mem (by decide)
  obtain ⟨h', hloop, hiff⟩ := pass_complete_iff hw hV.toWellFormed.exact hskip
  exact ⟨h', hloop, hiff.2 hfirst⟩

/-- A block is made smaller twice: the two rests are merged first, and the one after
that is not found. -/
theorem pass_leaves_neighbours : ∃ w : World, (mmSystem .low).ReachBy Careful w ∧
    w.live = [(148, 100)] ∧
    ∃ h', coalesceLoop .low (MAX_HEAP * MAX_HEAP) w.heap (w.heap.next Layout.low.head) = .ok h' ∧
      AdjacentFree .low h' := by
  have h₀ : (mmSystem .low).ReachBy Careful (.first .low fun _ => 7) := .init (init_first _ _)
  have hw := h₀.getD_runBy [.malloc 1000, .realloc 148 500, .realloc 148 100]
  generalize hrun : ((mmSystem .low).runBy Careful (.first .low fun _ => 7)
    [.malloc 1000, .realloc 148 500, .realloc 148 100]).getD (.first .low fun _ => 7) = w at hw
  have hfacts : w.live = [(148, 100)] ∧
      (w.heap.next Layout.low.head = 252 ∧ w.heap.prev 252 = Layout.low.head ∧
      w.heap.next 252 = 652 ∧ w.heap.prev 652 = 252 ∧ w.heap.next 652 = 1152 ∧
      w.heap.prev 1152 = 652 ∧ w.heap.next 1152 = Layout.low.head ∧
      w.heap.prev Layout.low.head = 1152) ∧
      NoneSkipped w.heap [252, 652, 1152] ∧ ¬SecondFirst w.heap [252, 652, 1152] := by
    rw [← hrun]
    decide +kernel
  obtain ⟨hlive, hring, hskip, hfirst⟩ := hfacts
  obtain ⟨bs, fs, hV⟩ := valid_of_careful hw
  obtain rfl : fs = [252, 652, 1152] :=
    hV.listed.ring.unique hring (fun _ => rfl) hV.toWellFormed.head_not_mem (by decide)
  obtain ⟨h', hloop, hiff⟩ := hV.pass_complete hskip
  exact ⟨w, hw, hlive, h', hloop, not_not.1 fun hno => hfirst (hiff.1 hno)⟩

end MallocLab
end CsappLabs
