/-
# The explicit free list

`head` and the listed blocks form a circular doubly linked list through their
words `prev` and `next`.  `Listed L h fs` says so for the list `fs` of addresses;
the link words of different nodes do not overlap, so `remove_from_list` and
`insert_to_list` are the two local changes of such a list.

Both write link words of nodes only (`LinkWord`), and no tag of a block is one.
-/

import CsappLabs.Lib.Links
import CsappLabs.MallocLab.Blocks
import Mathlib.Data.List.Perm.Basic

namespace CsappLabs
namespace MallocLab

open Lib Lib.CInt Lib.Memory Lib.Links

variable {L : Layout} {h h' : Heap} {x y b p v : ℕ} {fs u w : List ℕ} {W : Set ℕ}

/-- An address that a node of the list can have. -/
def Node (x : ℕ) : Prop := 4 ∣ x ∧ x + 12 < 2 ^ 32

/-- Nodes are the same or do not overlap. -/
def Apart (x y : ℕ) : Prop := x = y ∨ x + 12 ≤ y ∨ y + 12 ≤ x

theorem Apart.symm (h : Apart x y) : Apart y x := by
  rcases h with rfl | h | h
  · exact .inl rfl
  · exact .inr (.inr h)
  · exact .inr (.inl h)

theorem Layout.head_apart (L : Layout) :
    L.head + 12 ≤ L.memStart ∨ L.memStart + MAX_HEAP ≤ L.head := L.apart

theorem Layout.node_head (L : Layout) : Node L.head := ⟨L.head_dvd, L.head_lt⟩

/-! ### Links in memory -/

theorem Heap.next_lt (h : Heap) (x : ℕ) : h.next x < 2 ^ 32 := Heap.read_lt ..

theorem Heap.prev_lt (h : Heap) (x : ℕ) : h.prev x < 2 ^ 32 := Heap.read_lt ..

namespace Node

theorem prev_eq (hx : Node x) (h : Heap) : h.prev x = h.read (x + 4) := by
  have := hx.2
  rw [Heap.prev, add32_of_lt (by omega)]

theorem next_eq (hx : Node x) (h : Heap) : h.next x = h.read (x + 8) := by
  have := hx.2
  rw [Heap.next, add32_of_lt (by omega)]

theorem setPrev_eq (hx : Node x) (h : Heap) (v : ℕ) : h.setPrev x v = h.write (x + 4) v := by
  have := hx.2
  rw [Heap.setPrev, add32_of_lt (by omega)]

theorem setNext_eq (hx : Node x) (h : Heap) (v : ℕ) : h.setNext x v = h.write (x + 8) v := by
  have := hx.2
  rw [Heap.setNext, add32_of_lt (by omega)]

theorem next_setNext (hx : Node x) (hy : Node y) (hv : v < 2 ^ 32) :
    (h.setNext x v).next y = if y = x then v else h.next y := by
  obtain ⟨hx4, -⟩ := id hx
  obtain ⟨hy4, -⟩ := id hy
  rw [hx.setNext_eq, hy.next_eq, hy.next_eq, Heap.read_write (by omega) (by omega),
    Nat.mod_eq_of_lt hv]
  simp only [Nat.add_right_cancel_iff]

theorem prev_setPrev (hx : Node x) (hy : Node y) (hv : v < 2 ^ 32) :
    (h.setPrev x v).prev y = if y = x then v else h.prev y := by
  obtain ⟨hx4, -⟩ := id hx
  obtain ⟨hy4, -⟩ := id hy
  rw [hx.setPrev_eq, hy.prev_eq, hy.prev_eq, Heap.read_write (by omega) (by omega),
    Nat.mod_eq_of_lt hv]
  simp only [Nat.add_right_cancel_iff]

theorem next_setPrev (hx : Node x) (hy : Node y) (ha : Apart x y) :
    (h.setPrev x v).next y = h.next y := by
  obtain ⟨hx4, -⟩ := id hx
  obtain ⟨hy4, -⟩ := id hy
  unfold Apart at ha
  rw [hx.setPrev_eq, hy.next_eq, hy.next_eq,
    Heap.read_write_of_ne (by omega) (by omega) (by omega)]

theorem prev_setNext (hx : Node x) (hy : Node y) (ha : Apart x y) :
    (h.setNext x v).prev y = h.prev y := by
  obtain ⟨hx4, -⟩ := id hx
  obtain ⟨hy4, -⟩ := id hy
  unfold Apart at ha
  rw [hx.setNext_eq, hy.prev_eq, hy.prev_eq,
    Heap.read_write_of_ne (by omega) (by omega) (by omega)]

end Node

/-- The link words of the nodes. -/
def LinkWord (ns : List ℕ) : Set ℕ := {q | ∃ x ∈ ns, q = x + 4 ∨ q = x + 8}

theorem Node.within_setPrev {ns : List ℕ} (hx : Node x) (hm : x ∈ ns) (h : Heap) (v : ℕ) :
    Within (LinkWord ns) h (h.setPrev x v) := by
  obtain ⟨h4, -⟩ := id hx
  rw [hx.setPrev_eq]
  exact (Within.refl _ h).write_mem (by omega) ⟨x, hm, .inl rfl⟩

theorem Node.within_setNext {ns : List ℕ} (hx : Node x) (hm : x ∈ ns) (h : Heap) (v : ℕ) :
    Within (LinkWord ns) h (h.setNext x v) := by
  obtain ⟨h4, -⟩ := id hx
  rw [hx.setNext_eq]
  exact (Within.refl _ h).write_mem (by omega) ⟨x, hm, .inr rfl⟩

/-! ### The list -/

/-- The list through `head` has the nodes `fs`, in the order of `next`. -/
structure Listed (L : Layout) (h : Heap) (fs : List ℕ) : Prop where
  ring : Seg h.next h.prev L.head fs L.head
  nodup : (L.head :: fs).Nodup
  node : ∀ x ∈ L.head :: fs, Node x
  apart : ∀ x ∈ L.head :: fs, ∀ y ∈ L.head :: fs, Apart x y

namespace Listed

theorem next_head_mem (hl : Listed L h fs) : h.next L.head ∈ L.head :: fs :=
  mem_ring.1 hl.ring.nxt_mem

/-- The links of a node lead to nodes. -/
theorem links_mem (hl : Listed L h fs) (hb : b ∈ fs) :
    h.next b ∈ L.head :: fs ∧ h.prev b ∈ L.head :: fs := by
  obtain ⟨u, w, rfl⟩ := List.append_of_mem hb
  obtain ⟨hu, hw⟩ := seg_append.1 hl.ring
  have h1 := hw.nxt_mem
  have h2 := hu.prv_mem
  simp only [List.mem_append, List.mem_cons, List.not_mem_nil, or_false] at h1 h2 ⊢
  tauto

/-- Memory that agrees on the link words has the same list. -/
theorem frame (hl : Listed L h fs) (hw : Within W h h')
    (hW : ∀ q ∈ W, 4 ∣ q → q ∉ LinkWord (L.head :: fs)) : Listed L h' fs := by
  have hread : ∀ x ∈ L.head :: fs, h'.next x = h.next x ∧ h'.prev x = h.prev x := by
    intro x hx
    have hn := hl.node x hx
    obtain ⟨h4, -⟩ := id hn
    rw [hn.next_eq, hn.next_eq, hn.prev_eq, hn.prev_eq]
    exact ⟨hw.read (by omega) fun hm => hW _ hm (by omega) ⟨x, hx, .inr rfl⟩,
      hw.read (by omega) fun hm => hW _ hm (by omega) ⟨x, hx, .inl rfl⟩⟩
  exact ⟨hl.ring.congr (fun a ha => (hread a ha).1) fun a ha => (hread a (mem_ring.1 ha)).2, hl.nodup,
    hl.node, hl.apart⟩

/-- The link of a node or of `head` leads to a node. -/
theorem next_mem (hl : Listed L h fs) (hp : p ∈ L.head :: fs) : h.next p ∈ L.head :: fs := by
  rcases List.mem_cons.1 hp with rfl | hp
  · exact hl.next_head_mem
  · exact (hl.links_mem hp).1

/-- The links after `remove_from_list`. -/
theorem remove_links (hl : Listed L h fs) (hb : b ∈ fs) (hy : y ∈ L.head :: fs) :
    (removeFromList h b).next y = (if y = h.prev b then h.next b else h.next y) ∧
      (removeFromList h b).prev y = if y = h.next b then h.prev b else h.prev y := by
  obtain ⟨hnm, hpm⟩ := hl.links_mem hb
  have hbm : b ∈ L.head :: fs := List.mem_cons_of_mem _ hb
  have hnb := hl.node b hbm
  have hnn := hl.node _ hnm
  have hnp := hl.node _ hpm
  have hny := hl.node y hy
  have hn1 : (h.setNext (h.prev b) (h.next b)).next b = h.next b := by
    rw [hnp.next_setNext hnb (h.next_lt b)]
    split_ifs <;> rfl
  have hp1 : (h.setNext (h.prev b) (h.next b)).prev b = h.prev b :=
    hnp.prev_setNext hnb (hl.apart _ hpm _ hbm)
  rw [removeFromList]
  simp only [hn1, hp1]
  rw [hnn.next_setPrev hny (hl.apart _ hnm _ hy), hnp.next_setNext hny (h.next_lt b),
    hnn.prev_setPrev hny (h.prev_lt b), hnp.prev_setNext hny (hl.apart _ hpm _ hy)]
  exact ⟨rfl, rfl⟩

/-- **`remove_from_list`** takes the node out of the list. -/
theorem remove (hl : Listed L h fs) (hb : b ∈ fs) : Listed L (removeFromList h b) (fs.erase b) := by
  have hlinks := fun y hy => hl.remove_links (y := y) hb hy
  have hnd := hl.nodup
  obtain ⟨u, w, rfl⟩ := List.append_of_mem hb
  have hsub : ∀ a ∈ L.head :: (u ++ w), a ∈ L.head :: (u ++ b :: w) := fun a ha =>
    mem_middle (u := L.head :: u) b ha
  obtain ⟨hnm, hpm⟩ := hl.links_mem hb
  rw [erase_middle (List.nodup_cons.1 hnd).2]
  refine ⟨hl.ring.unlink hnd (List.nodup_cons.1 hnd).1 ?_ ?_ ?_ ?_,
    hnd.sublist (((List.Sublist.refl u).append (List.sublist_cons_self b w)).cons_cons L.head),
    fun x hx => hl.node x (hsub x hx), fun x hx y hy => hl.apart x (hsub x hx) y (hsub y hy)⟩
  · rw [(hlinks _ hpm).1, if_pos rfl]
  · rw [(hlinks _ hnm).2, if_pos rfl]
  · intro a ha hna
    rw [(hlinks a (hsub a ha)).1, if_neg hna]
  · intro a ha hna
    have ham : a ∈ L.head :: (u ++ w) := mem_ring.1 ha
    rw [(hlinks a (hsub a ham)).2, if_neg hna]

theorem remove_middle (hl : Listed L h (u ++ b :: w)) : Listed L (removeFromList h b) (u ++ w) := by
  rw [← erase_middle (List.nodup_cons.1 hl.nodup).2]
  exact hl.remove (by simp)

/-- The words that `remove_from_list` writes. -/
theorem remove_words (hl : Listed L h fs) (hb : b ∈ fs) :
    Within {q | q = h.prev b + 8 ∨ q = h.next b + 4} h (removeFromList h b) := by
  obtain ⟨hnm, hpm⟩ := hl.links_mem hb
  have hbm : b ∈ L.head :: fs := List.mem_cons_of_mem _ hb
  have hnn := hl.node _ hnm
  have hnp := hl.node _ hpm
  have hn4 := hnn.1
  have hp4 := hnp.1
  have hn1 : (h.setNext (h.prev b) (h.next b)).next b = h.next b := by
    rw [hnp.next_setNext (hl.node b hbm) (h.next_lt b)]
    split_ifs <;> rfl
  rw [removeFromList]
  simp only [hn1]
  rw [hnp.setNext_eq, hnn.setPrev_eq]
  exact .write_mem (.write_mem (.refl _ h) (by omega) (.inl rfl)) (by omega) (.inr rfl)

theorem within_remove (hl : Listed L h fs) (hb : b ∈ fs) :
    Within (LinkWord (L.head :: fs)) h (removeFromList h b) := by
  obtain ⟨hnm, hpm⟩ := hl.links_mem hb
  refine (hl.remove_words hb).mono ?_
  rintro q (rfl | rfl)
  · exact ⟨_, hpm, .inr rfl⟩
  · exact ⟨_, hnm, .inl rfl⟩

/-- The links after `insert_to_list` behind the node `p`. -/
theorem insert_links (hl : Listed L h fs) (hp : p ∈ L.head :: fs) (hb : Node b)
    (hbn : b ∉ L.head :: fs) (hba : ∀ x ∈ L.head :: fs, Apart b x) (hy : y ∈ b :: L.head :: fs) :
    (insertToList h b p).next y = (if y = p then b else if y = b then h.next p else h.next y) ∧
      (insertToList h b p).prev y =
        if y = h.next p then b else if y = b then p else h.prev y := by
  have hnp := hl.node p hp
  have hnm := hl.next_mem hp
  have hnn := hl.node _ hnm
  have hpb : p ≠ b := fun he => hbn (he ▸ hp)
  have hnb : h.next p ≠ b := fun he => hbn (he ▸ hnm)
  have hny : Node y := by
    rcases List.mem_cons.1 hy with rfl | hy
    · exact hb
    · exact hl.node y hy
  have hapart : ∀ x ∈ L.head :: fs, Apart x y := by
    intro x hx
    rcases List.mem_cons.1 hy with rfl | hy
    · exact (hba x hx).symm
    · exact hl.apart x hx y hy
  have hapb : Apart b y := by
    rcases List.mem_cons.1 hy with rfl | hy
    · exact .inl rfl
    · exact hba y hy
  have hplt : p < 2 ^ 32 := by have := hnp.2; omega
  have hblt : b < 2 ^ 32 := by have := hb.2; omega
  -- the reads of `prev_block->next` on the way
  have h1 : (h.setPrev b p).next p = h.next p := hb.next_setPrev hnp (hba p hp)
  have h2 : ((h.setPrev b p).setNext b (h.next p)).next p = h.next p := by
    rw [hb.next_setNext hnp (h.next_lt p), if_neg hpb, h1]
  rw [insertToList]
  simp only [h1, h2]
  rw [hnp.next_setNext hny hblt, hnn.next_setPrev hny (hapart _ hnm),
    hb.next_setNext hny (h.next_lt p), hb.next_setPrev hny hapb,
    hnp.prev_setNext hny (hapart p hp), hnn.prev_setPrev hny hblt, hb.prev_setNext hny hapb,
    hb.prev_setPrev hny hplt]
  exact ⟨rfl, rfl⟩

/-- The words that `insert_to_list` writes. -/
theorem insert_words (hl : Listed L h fs) (hp : p ∈ L.head :: fs) (hb : Node b)
    (hbn : b ∉ L.head :: fs) (hba : ∀ x ∈ L.head :: fs, Apart b x) :
    Within {q | (q = b + 4 ∨ q = b + 8) ∨ q = p + 8 ∨ q = h.next p + 4} h (insertToList h b p) := by
  have hnp := hl.node p hp
  have hnn := hl.node _ (hl.next_mem hp)
  have hb4 := hb.1
  have hp4 := hnp.1
  have hn4 := hnn.1
  have hpb : p ≠ b := fun he => hbn (he ▸ hp)
  have h1 : (h.setPrev b p).next p = h.next p := hb.next_setPrev hnp (hba p hp)
  have h2 : ((h.setPrev b p).setNext b (h.next p)).next p = h.next p := by
    rw [hb.next_setNext hnp (h.next_lt p), if_neg hpb, h1]
  rw [insertToList]
  simp only [h1, h2]
  rw [hb.setPrev_eq, hb.setNext_eq, hnn.setPrev_eq, hnp.setNext_eq]
  refine .write_mem (.write_mem (.write_mem (.write_mem (.refl _ h) ?_ (.inl (.inl rfl)))
    ?_ (.inl (.inr rfl))) ?_ (.inr (.inr rfl))) ?_ (.inr (.inl rfl))
  all_goals omega

theorem within_insert (hl : Listed L h fs) (hp : p ∈ L.head :: fs) (hb : Node b)
    (hbn : b ∉ L.head :: fs) (hba : ∀ x ∈ L.head :: fs, Apart b x) :
    Within (LinkWord (b :: L.head :: fs)) h (insertToList h b p) := by
  refine (hl.insert_words hp hb hbn hba).mono ?_
  rintro q (hq | rfl | rfl)
  · exact ⟨b, List.mem_cons_self, hq⟩
  · exact ⟨p, List.mem_cons_of_mem _ hp, .inr rfl⟩
  · exact ⟨_, List.mem_cons_of_mem _ (hl.next_mem hp), .inl rfl⟩

/-- A new node keeps the nodes apart. -/
theorem apart_cons (hl : Listed L h fs) (hba : ∀ x ∈ L.head :: fs, Apart b x) :
    ∀ x ∈ b :: L.head :: fs, ∀ y ∈ b :: L.head :: fs, Apart x y := by
  intro x hx y hy
  rcases List.mem_cons.1 hx with rfl | hx' <;> rcases List.mem_cons.1 hy with rfl | hy'
  · exact .inl rfl
  · exact hba y hy'
  · exact (hba x hx').symm
  · exact hl.apart x hx' y hy'

/-- **`insert_to_list`** at the front of the list. -/
theorem insert_front (hl : Listed L h fs) (hb : Node b) (hbn : b ∉ L.head :: fs)
    (hba : ∀ x ∈ L.head :: fs, Apart b x) : Listed L (insertToList h b L.head) (b :: fs) := by
  have hlinks := fun y hy => hl.insert_links (y := y) List.mem_cons_self hb hbn hba hy
  have hne : ∀ a ∈ L.head :: fs, a ≠ b := fun a ha he => hbn (he ▸ ha)
  have hperm : ∀ x, x ∈ L.head :: b :: fs → x ∈ b :: L.head :: fs := by
    intro x hx
    simp only [List.mem_cons] at hx ⊢
    tauto
  have hnm := hl.next_head_mem
  have hhead : L.head ∉ fs := (List.nodup_cons.1 hl.nodup).1
  refine ⟨hl.ring.link (List.nodup_cons.1 hl.nodup).2 hhead hhead ?_ ?_ ?_ ?_ ?_ ?_, ?_,
    fun x hx => ?_, fun x hx y hy => hl.apart_cons hba x (hperm x hx) y (hperm y hy)⟩
  · rw [(hlinks _ (by simp)).1, if_pos rfl]
  · rw [(hlinks _ (by simp)).2, if_neg (hne _ hnm).symm, if_pos rfl]
  · rw [(hlinks _ (by simp)).1, if_neg (hne _ List.mem_cons_self).symm, if_pos rfl]
  · rw [(hlinks _ (List.mem_cons_of_mem _ hnm)).2, if_pos rfl]
  · intro a ha hna
    rw [(hlinks a (by simp [ha])).1, if_neg hna,
      if_neg (hne _ (List.mem_cons_of_mem _ ha))]
  · intro a ha hna
    have ham : a ∈ L.head :: fs := mem_ring.1 ha
    rw [(hlinks a (List.mem_cons_of_mem _ ham)).2, if_neg hna, if_neg (hne _ ham)]
  · refine (List.Perm.swap ..).nodup_iff.1 (List.nodup_cons.2 ⟨hbn, hl.nodup⟩)
  · rcases List.mem_cons.1 (hperm x hx) with rfl | hx
    · exact hb
    · exact hl.node x hx

/-- **`insert_to_list`** behind a listed block. -/
theorem insert_after (hl : Listed L h (u ++ p :: w)) (hb : Node b)
    (hbn : b ∉ L.head :: (u ++ p :: w)) (hba : ∀ x ∈ L.head :: (u ++ p :: w), Apart b x) :
    Listed L (insertToList h b p) (u ++ p :: b :: w) := by
  have hpm : p ∈ L.head :: (u ++ p :: w) := by simp
  have hlinks := fun y hy => hl.insert_links (y := y) hpm hb hbn hba hy
  have hne : ∀ a ∈ L.head :: (u ++ p :: w), a ≠ b := fun a ha he => hbn (he ▸ ha)
  have hperm : (L.head :: (u ++ p :: b :: w)).Perm (b :: L.head :: (u ++ p :: w)) := by
    refine List.Perm.trans (List.Perm.cons _ ?_) (List.Perm.swap ..)
    refine (List.Perm.append_left u (List.Perm.swap ..)).trans ?_
    exact List.perm_middle
  have hnm : h.next p ∈ L.head :: (u ++ p :: w) := (hl.links_mem (by simp)).1
  obtain ⟨hu, hw⟩ := seg_append.1 hl.ring
  have hnxt := hw.nxt_mem
  have hnd := hl.nodup
  have hhead : L.head ∉ u ++ p :: w := (List.nodup_cons.1 hnd).1
  have hnd' := List.nodup_append.1 (List.nodup_cons.1 hnd).2
  obtain ⟨hpw, hwnd⟩ := List.nodup_cons.1 hnd'.2.1
  refine ⟨seg_append.2 ⟨hu.congr (fun a ha => ?_) fun a ha => ?_,
    hw.link hwnd hpw (fun hm => hhead (by simp [hm])) ?_ ?_ ?_ ?_ ?_ ?_⟩,
    hperm.nodup_iff.2 (List.nodup_cons.2 ⟨hbn, hnd⟩), fun x hx => ?_,
    fun x hx y hy => hl.apart_cons hba x (hperm.mem_iff.1 hx) y (hperm.mem_iff.1 hy)⟩
  · -- before the new node nothing changes
    have ham : a ∈ L.head :: (u ++ p :: w) := by
      simp only [List.mem_cons, List.mem_append] at ha ⊢
      tauto
    rw [(hlinks a (List.mem_cons_of_mem _ ham)).1, if_neg ?_, if_neg (hne _ ham)]
    rintro rfl
    rcases List.mem_cons.1 ha with rfl | ha
    · exact hhead (by simp)
    · exact hnd'.2.2 a ha a (by simp) rfl
  · have ham : a ∈ L.head :: (u ++ p :: w) := by
      simp only [List.mem_cons, List.mem_append, List.not_mem_nil, or_false] at ha ⊢
      tauto
    rw [(hlinks a (List.mem_cons_of_mem _ ham)).2, if_neg ?_, if_neg (hne _ ham)]
    rintro rfl
    simp only [List.mem_append, List.mem_cons, List.not_mem_nil, or_false] at ha hnxt
    rcases hnxt with hn | hn
    · rcases ha with ha | ha
      · exact hnd'.2.2 _ ha _ (by simp [hn]) rfl
      · exact hpw (ha ▸ hn)
    · rcases ha with ha | ha
      · exact hhead (by simp [← hn, ha])
      · exact hhead (by simp [← hn, ha])
  · rw [(hlinks p (List.mem_cons_of_mem _ hpm)).1, if_pos rfl]
  · rw [(hlinks b (by simp)).2, if_neg (hne _ hnm).symm, if_pos rfl]
  · rw [(hlinks b (by simp)).1, if_neg (hne _ hpm).symm, if_pos rfl]
  · rw [(hlinks _ (List.mem_cons_of_mem _ hnm)).2, if_pos rfl]
  · intro a ha hna
    have ham : a ∈ L.head :: (u ++ p :: w) := by simp [ha]
    rw [(hlinks a (List.mem_cons_of_mem _ ham)).1, if_neg hna, if_neg (hne _ ham)]
  · intro a ha hna
    have ham : a ∈ L.head :: (u ++ p :: w) := by
      simp only [List.mem_cons, List.mem_append, List.not_mem_nil, or_false] at ha ⊢
      tauto
    rw [(hlinks a (List.mem_cons_of_mem _ ham)).2, if_neg hna, if_neg (hne _ ham)]
  · rcases List.mem_cons.1 (hperm.mem_iff.1 hx) with rfl | hx
    · exact hb
    · exact hl.node x hx

end Listed

end MallocLab
end CsappLabs
