/-
# Cache fills in some order

`write_cache` of `proxylab/proxy.c` chooses its line before it takes the writer
semaphore, so two fills can choose the same line.  Executed one after the other,
fills take the lines in turn: the first ten find an invalid line, and each later
one replaces the oldest object (`Filled`).  So the cache ends with the objects of
the last ten fills, in whatever order they come.

For fills at the same time this leaves one thing that can go wrong.  A fill that
replaces an object while there is an invalid line loses an object that no order
of the fills loses; any other fill does not (`fills_serialisable`).
-/

import CsappLabs.Proxy.Worker
import Mathlib.Data.Fin.Tuple.Basic
import Mathlib.Algebra.Order.BigOperators.Group.Multiset
import Mathlib.Tactic.Abel

namespace CsappLabs
namespace Proxy

open Lib Lib.CInt

/-- The bytes from `i` on in front of the first NUL, `n` at most. -/
def cstring (buf : ℕ → UInt8) : ℕ → ℕ → List UInt8
  | 0, _ => []
  | n + 1, i => if buf i = 0 then [] else buf i :: cstring buf n (i + 1)

/-- What a line shows: its url, its body and its size. -/
abbrev Shown := List UInt8 × List UInt8 × ℤ

def CacheLine.shown (l : CacheLine) : Shown := (l.url, cstring l.buf l.size.toNat 0, l.size)

/-- The object of a line, if it is valid. -/
def CacheLine.objects (l : CacheLine) : Multiset Shown := if l.valid then {l.shown} else 0

/-- The valid lines, with their urls and bodies. -/
def Cache.objects (c : Cache) : Multiset Shown := ∑ i, (c.line i).objects

/-- The object that a call stores. -/
def WriteCall.shown (w : WriteCall) : Shown :=
  (w.url, cstring (strcpy (fun _ => 0) w.buf) w.size.toNat 0, w.size)

/-- `write_cache`, without another thread in between. -/
def writeCache (c : Cache) (w : WriteCall) : Cache :=
  if w.size > MAX_OBJECT_SIZE then c else writeLine c (chooseLine c) w

/-- The calls one after the other. -/
def serial (ws : List WriteCall) : Cache := ws.foldl writeCache cacheInit

variable {c : Cache} {w : WriteCall} {ws : List WriteCall} {i j : Fin CACHE_LINE} {n : ℕ}

/-! ### Objects -/

/-- A string does not depend on what stands behind its NUL. -/
theorem cstring_congr {buf buf' : ℕ → UInt8} {e i : ℕ} (he : buf e = 0)
    (h : ∀ k ≤ e, buf' k = buf k) (hi : i ≤ e) : cstring buf' n i = cstring buf n i := by
  induction n generalizing i with
  | zero => rfl
  | succ n ih =>
    rw [cstring, cstring, h i hi]
    by_cases hz : buf i = 0
    · rw [if_pos hz, if_pos hz]
    · have hne : i ≠ e := fun h => hz (h ▸ he)
      rw [if_neg hz, if_neg hz, ih (by omega)]

/-- The line written shows the object of the call. -/
theorem objects_written (c : Cache) (i : Fin CACHE_LINE) (w : WriteCall) :
    ((writeLine c (some i) w).line i).objects = {w.shown} := by
  simp only [writeLine, Function.update_self, CacheLine.objects, CacheLine.shown,
    WriteCall.shown, if_true]
  have hnul : strcpy (fun _ => 0) w.buf w.buf.length = 0 := by simp [strcpy]
  rw [cstring_congr hnul ?_ (Nat.zero_le _)]
  intro k hk
  rcases hk.lt_or_eq with hk | rfl <;> simp [strcpy, *]

/-- **A write** adds its object and takes the one of the line away. -/
theorem objects_writeLine (c : Cache) (i : Fin CACHE_LINE) (w : WriteCall) :
    (writeLine c (some i) w).objects + (c.line i).objects = c.objects + {w.shown} := by
  have hi : i ∈ (Finset.univ : Finset (Fin CACHE_LINE)) := Finset.mem_univ i
  have hrest : ∑ j ∈ Finset.univ \ {i}, ((writeLine c (some i) w).line j).objects =
      ∑ j ∈ Finset.univ \ {i}, (c.line j).objects := by
    refine Finset.sum_congr rfl fun j hj => ?_
    have hne : j ≠ i := by simpa using hj
    rw [writeLine_line_of_ne fun h => hne (Option.some.inj h).symm]
  rw [Cache.objects, Cache.objects, Finset.sum_eq_add_sum_sdiff_singleton_of_mem hi, hrest,
    objects_written, Finset.sum_eq_add_sum_sdiff_singleton_of_mem hi]
  abel

theorem objects_invalid (h : (c.line i).valid = false) : (c.line i).objects = 0 := by
  rw [CacheLine.objects, h]
  rfl

theorem objects_valid (h : (c.line i).valid = true) : (c.line i).objects = {(c.line i).shown} := by
  rw [CacheLine.objects, if_pos h]

/-! ### Calls one after the other -/

/-- The call whose object line `j` has after `n` calls, counted from `0`. -/
def latest (n j : ℕ) : ℕ := n - 1 - (n - 1 - j) % 10

/-- What the calls `ws` leave in the cache. -/
structure Filled (ws : List WriteCall) (c : Cache) : Prop where
  time : c.currentTime = int32 ws.length
  full : ∀ j : Fin CACHE_LINE, (j : ℕ) < ws.length → (c.line j).valid = true ∧
    (c.line j).timestamp = int32 (latest ws.length j + 1) ∧
    ∀ w, ws[latest ws.length j]? = some w → (c.line j).shown = w.shown
  free : ∀ j : Fin CACHE_LINE, ws.length ≤ j → (c.line j).valid = false
  objects : c.objects = ((ws.drop (ws.length - 10)).map WriteCall.shown : Multiset Shown)

/-- A maximum already found stays. -/
theorem foldl_max_of_le {α : Type*} (p : α → Prop) [DecidablePred p] (d : α → ℤ) (l : List α)
    {acc : ℤ × Option α} (h : ∀ x ∈ l, d x ≤ acc.1) :
    l.foldl (fun acc x => if p x ∧ d x > acc.1 then (d x, some x) else acc) acc = acc := by
  induction l with
  | nil => rfl
  | cons x l ih =>
    obtain ⟨hx, hl⟩ := List.forall_mem_cons.1 h
    rw [List.foldl_cons, if_neg fun hp => absurd hp.2 (not_lt.2 hx), ih hl]

/-- A loop for a maximum finds the only one. -/
theorem foldl_max {α : Type*} (p : α → Prop) [DecidablePred p] (d : α → ℤ) (l : List α)
    {acc : ℤ × Option α} {x : α} (hx : x ∈ l) (hp : p x) (hacc : acc.1 < d x)
    (h : ∀ y ∈ l, y ≠ x → d y < d x) :
    (l.foldl (fun acc x => if p x ∧ d x > acc.1 then (d x, some x) else acc) acc).2 = some x := by
  induction l generalizing acc with
  | nil => exact absurd hx List.not_mem_nil
  | cons y l ih =>
    obtain ⟨hy, hl⟩ := List.forall_mem_cons.1 h
    rw [List.foldl_cons]
    by_cases hyx : y = x
    · subst hyx
      rw [if_pos ⟨hp, hacc⟩, foldl_max_of_le p d l fun z hz => ?_]
      by_cases hzy : z = y
      · rw [hzy]
      · exact (hl z hz hzy).le
    · have hxl : x ∈ l := (List.mem_cons.1 hx).resolve_left (Ne.symm hyx)
      split_ifs
      · exact ih hxl (hy hyx) hl
      · exact ih hxl hacc hl

/-- The line that the next call takes. -/
theorem Filled.chooseLine (h : Filled ws c) (hi : (i : ℕ) = ws.length % 10) :
    Proxy.chooseLine c = some i := by
  have hten : CACHE_LINE = 10 := rfl
  by_cases hn : ws.length < CACHE_LINE
  · have hfree : findFree c = some i := by
      rw [findFree, ← Fin.find?_eq_find?_finRange, Fin.find?_eq_some_iff]
      refine ⟨by simp [h.free i (by omega)], fun j hj => ?_⟩
      simp [(h.full j (by omega)).1]
    rw [Proxy.chooseLine, hfree]
  · have hvalid : ∀ j, (c.line j).valid = true := fun j => (h.full j (by omega)).1
    have hnone : findFree c = none := by
      rw [findFree, ← Fin.find?_eq_find?_finRange, Fin.find?_eq_none_iff]
      intro j
      simp [hvalid j]
    -- the age of a line, between `0` and `9`
    have hage : ∀ j, int32 (c.currentTime - (c.line j).timestamp) =
        ((ws.length - 1 - j) % 10 : ℕ) := by
      intro j
      rw [h.time, (h.full j (by omega)).2.1, latest]
      unfold int32
      omega
    rw [Proxy.chooseLine, hnone]
    refine foldl_max _ _ _ (List.mem_finRange i) (hvalid i) ?_ fun j _ hj => ?_
    · rw [hage]
      omega
    · have hne : (j : ℕ) ≠ i := fun h => hj (Fin.ext h)
      rw [hage, hage]
      omega

/-- **One more call.** -/
theorem Filled.writeCache (h : Filled ws c) (hw : w.size ≤ MAX_OBJECT_SIZE) :
    Filled (ws ++ [w]) (Proxy.writeCache c w) := by
  have hten : CACHE_LINE = 10 := rfl
  obtain ⟨i, hi⟩ : ∃ i : Fin CACHE_LINE, (i : ℕ) = ws.length % 10 :=
    ⟨⟨_, Nat.mod_lt _ (by decide)⟩, rfl⟩
  have hc : Proxy.writeCache c w = writeLine c (some i) w := by
    rw [Proxy.writeCache, if_neg (not_lt.2 hw), h.chooseLine hi]
  have hlen : (ws ++ [w]).length = ws.length + 1 := by simp
  have htime : (writeLine c (some i) w).currentTime = int32 (ws.length + 1) := by
    show int32 (c.currentTime + 1) = _
    rw [h.time]
    unfold int32
    omega
  rw [hc]
  refine ⟨by rw [htime, hlen]; rfl, fun j hj => ?_, fun j hj => ?_, ?_⟩
  · rw [hlen] at hj ⊢
    by_cases hji : j = i
    · subst hji
      have hlatest : latest (ws.length + 1) j = ws.length := by
        rw [latest]
        omega
      rw [hlatest]
      refine ⟨(stores_writeLine c j w).valid, ?_, fun v hv => ?_⟩
      · simp only [writeLine, Function.update_self]
        exact htime
      · obtain rfl : w = v := by simpa using hv
        have hobj := objects_written c j w
        rw [objects_valid (stores_writeLine c j w).valid] at hobj
        exact Multiset.singleton_inj.1 hobj
    · have hne : (j : ℕ) ≠ i := fun h => hji (Fin.ext h)
      have hlatest : latest (ws.length + 1) j = latest ws.length j ∧
          latest ws.length j < ws.length := by
        rw [latest, latest]
        omega
      rw [writeLine_line_of_ne fun h => hji (Option.some.inj h).symm, hlatest.1,
        List.getElem?_append_left hlatest.2]
      exact h.full j (by omega)
  · rw [hlen] at hj
    rw [writeLine_line_of_ne fun h => ?_]
    · exact h.free j (by omega)
    · have := Option.some.inj h
      omega
  · have hobj := objects_writeLine c i w
    rw [h.objects] at hobj
    rw [hlen]
    by_cases hn : ws.length < 10
    · rw [objects_invalid (h.free i (by omega)), add_zero, Nat.sub_eq_zero_of_le hn.le,
        List.drop_zero] at hobj
      rw [hobj, Nat.sub_eq_zero_of_le (by omega), List.drop_zero, List.map_append]
      rfl
    · -- the object of the oldest of the last ten calls goes
      have hlatest : latest ws.length i = ws.length - 10 := by
        rw [latest]
        omega
      have hold : ws.length - 10 < ws.length := by omega
      obtain ⟨hvalid, -, hshown⟩ := h.full i (by omega)
      rw [objects_valid hvalid, hshown _ (by rw [hlatest]; exact List.getElem?_eq_getElem hold),
        List.drop_eq_getElem_cons hold, List.map_cons, ← Multiset.cons_coe,
        ← Multiset.singleton_add, add_comm _ ({_} : Multiset Shown), add_assoc] at hobj
      rw [add_left_cancel hobj,
        show ws.length + 1 - 10 = ws.length - 10 + 1 by omega,
        List.drop_append_of_le_length (by omega), List.map_append]
      rfl

/-- **The calls in turn** leave the objects of the last ten. -/
theorem filled_serial (h : ∀ w ∈ ws, w.size ≤ MAX_OBJECT_SIZE) : Filled ws (serial ws) := by
  induction ws using List.reverseRecOn with
  | nil =>
    refine ⟨rfl, fun j hj => absurd hj (Nat.not_lt_zero _), fun j _ => rfl, ?_⟩
    exact Finset.sum_eq_zero fun j _ => rfl
  | append_singleton ws w ih =>
    rw [serial, List.foldl_append]
    exact (ih fun v hv => h v (by simp [hv])).writeCache (h w (by simp))

/-! ### Calls at the same time -/

variable {τ : Type*}

/-- The call that a worker has chosen a line for. -/
def WorkerPc.filling : WorkerPc → Option WriteCall
  | pWriter _ w | store _ w => some w
  | _ => none

/-- What a step does to the lines. -/
inductive Change (s : CacheState τ) : CacheStep τ → CacheState τ → Prop
  | store {t : τ} {idx : Option (Fin CACHE_LINE)} {w : WriteCall} (ht : s.worker t = .store idx w)
      (hline : s'.line = (writeLine s.toCache idx w).line) (hwrites : s'.writes = s.writes ++ [w]) :
      Change s (.run t) s'
  | other {k : CacheStep τ} (hno : ∀ t idx w, k = .run t → s.worker t ≠ .store idx w)
      (hline : s'.line = s.line) (hwrites : s'.writes = s.writes) : Change s k s'

/-- What a step does to the lines and to the calls under way. -/
structure Moves (s : CacheState τ) (k : CacheStep τ) (s' : CacheState τ) : Prop where
  change : Change s k s'
  filling : ∀ u w, (s'.worker u).filling = some w →
    (s.worker u).filling = some w ∨ w.size ≤ MAX_OBJECT_SIZE

variable [DecidableEq τ] {s s' : CacheState τ} {k : CacheStep τ}

/-- A worker goes on without touching the lines. -/
theorem Moves.of_goto {t : τ} {x : WorkerPc} (hw : s'.worker = Function.update s.worker t x)
    (hx : ∀ w, x.filling = some w → (s.worker t).filling = some w ∨ w.size ≤ MAX_OBJECT_SIZE)
    (hno : ∀ t idx w, k = .run t → s.worker t ≠ .store idx w) (hline : s'.line = s.line)
    (hwrites : s'.writes = s.writes) : Moves s k s' := by
  refine ⟨.other hno hline hwrites, fun u w hu => ?_⟩
  rw [hw] at hu
  by_cases hut : u = t
  · subst hut
    rw [Function.update_self] at hu
    exact hx w hu
  · rw [Function.update_of_ne hut] at hu
    exact .inl hu

/-- **Every step** stores one call or leaves the lines alone. -/
theorem moves_of_next (hn : (cacheSystem τ).next s k = some s') : Moves s k s' := by
  cases k with
  | request t url =>
    simp only [cacheSystem, Option.ite_none_right_eq_some] at hn
    obtain rfl := Option.some.inj hn.2
    exact .of_goto rfl (fun w hw => by simp [WorkerPc.filling] at hw) (fun _ _ _ h => by simp at h) rfl rfl
  | reply t chunks =>
    simp only [cacheSystem] at hn
    split at hn
    · obtain rfl := Option.some.inj hn
      exact .of_goto rfl (fun w hw => by simp [WorkerPc.filling] at hw) (fun _ _ _ h => by simp at h)
        rfl rfl
    · exact absurd hn (by simp)
  | run t =>
    have hr := runs_of_workerNext (t := t) hn
    generalize ht : s.worker t = x at hr
    have hno : (∀ idx w, x ≠ .store idx w) →
        ∀ u idx w, CacheStep.run t = .run u → s.worker u ≠ .store idx w := by
      rintro hx u idx w h
      obtain rfl := CacheStep.run.inj h
      rw [ht]
      exact hx idx w
    cases hr with
    | @store idx w =>
      refine ⟨.store ht rfl rfl, fun u w hu => ?_⟩
      simp only [CacheState.goto] at hu
      by_cases hut : u = t
      · rw [hut, Function.update_self] at hu
        simp [WorkerPc.filling] at hu
      · rw [Function.update_of_ne hut] at hu
        exact .inl hu
    | @scan w hsize =>
      refine .of_goto rfl (fun v hv => .inr ?_) (hno (by simp)) rfl rfl
      obtain rfl : w = v := by simpa [WorkerPc.filling] using hv
      exact hsize
    | pWriter => exact .of_goto rfl (fun v hv => .inl (by rw [ht]; exact hv)) (hno (by simp)) rfl rfl
    | hit | miss | enter | countIn | first | entered | send | leave | countOut | last | left | drop
    | vWriter =>
      exact .of_goto rfl (fun w hw => by simp [WorkerPc.filling] at hw) (hno (by simp)) rfl rfl

/-- The fills that have been made could have been made one after the other. -/
def Serialisable (s : CacheState τ) : Prop :=
  ∃ order : List WriteCall, order.Perm s.writes ∧ (serial order).objects = s.toCache.objects

/-- A fill does not replace an object while there is an invalid line. -/
def FillsFree (s : CacheState τ) : CacheStep τ → Prop
  | .run t =>
      match s.worker t with
      | .store idx _ => (∃ j, (s.line j).valid = false) → ∃ i ∈ idx, (s.line i).valid = false
      | _ => True
  | _ => True

/-- The objects in the cache come from different fills. -/
structure Kept (s : CacheState τ) : Prop where
  sizes : ∀ w ∈ s.writes, w.size ≤ MAX_OBJECT_SIZE
  filling : ∀ t w, (s.worker t).filling = some w → w.size ≤ MAX_OBJECT_SIZE
  objects : ∃ m : Multiset WriteCall, m ≤ s.writes ∧ s.toCache.objects = m.map WriteCall.shown

/-- The number of objects is the number of valid lines. -/
theorem card_objects (c : Cache) :
    c.objects.card = ∑ i, if (c.line i).valid then 1 else 0 := by
  refine (map_sum Multiset.cardHom _ _).trans (Finset.sum_congr rfl fun i _ => ?_)
  show (c.line i).objects.card = _
  rw [CacheLine.objects]
  split_ifs <;> rfl

/-- There are ten objects exactly if no line is invalid. -/
theorem card_objects_lt (c : Cache) : c.objects.card < CACHE_LINE ↔ ∃ j, (c.line j).valid = false := by
  have hsum : ∑ _i : Fin CACHE_LINE, 1 = CACHE_LINE := by simp
  rw [card_objects]
  constructor
  · intro hlt
    by_contra hall
    push Not at hall
    have : ∑ i, (if (c.line i).valid then 1 else 0) = ∑ _i : Fin CACHE_LINE, 1 :=
      Finset.sum_congr rfl fun i _ => by simpa using hall i
    omega
  · rintro ⟨j, hj⟩
    refine lt_of_lt_of_eq (Finset.sum_lt_sum (fun i _ => ?_) ⟨j, Finset.mem_univ j, ?_⟩) hsum
    · split_ifs <;> omega
    · simp [hj]

theorem card_objects_le (c : Cache) : c.objects.card ≤ CACHE_LINE := by
  rw [card_objects]
  calc ∑ i, (if (c.line i).valid then 1 else 0) ≤ ∑ _i : Fin CACHE_LINE, 1 :=
        Finset.sum_le_sum fun i _ => by split_ifs <;> omega
    _ = CACHE_LINE := by simp

/-- How a write changes the number of objects. -/
theorem card_writeLine (c : Cache) (idx : Option (Fin CACHE_LINE)) (w : WriteCall) :
    (writeLine c idx w).objects.card =
      c.objects.card + if ∃ i ∈ idx, (c.line i).valid = false then 1 else 0 := by
  cases idx with
  | none => simp [Cache.objects, writeLine]
  | some i =>
    have hcard := congrArg Multiset.card (objects_writeLine c i w)
    rw [Multiset.card_add, Multiset.card_add, Multiset.card_singleton] at hcard
    cases hi : (c.line i).valid with
    | true =>
      rw [objects_valid hi, Multiset.card_singleton] at hcard
      simp only [Option.mem_def, Option.some.injEq, exists_eq_left', hi]
      simpa using hcard
    | false =>
      rw [objects_invalid hi, Multiset.card_zero] at hcard
      simpa [hi] using hcard

/-- The objects after a write come from different fills, too. -/
theorem objects_of_fills {idx : Option (Fin CACHE_LINE)} {m : Multiset WriteCall}
    (h : c.objects = m.map WriteCall.shown) :
    ∃ m' ≤ w ::ₘ m, (writeLine c idx w).objects = m'.map WriteCall.shown := by
  cases idx with
  | none => exact ⟨m, Multiset.le_cons_self m w, h⟩
  | some i =>
    have hobj := objects_writeLine c i w
    cases hi : (c.line i).valid with
    | false =>
      rw [objects_invalid hi, add_zero, h] at hobj
      exact ⟨w ::ₘ m, le_rfl, by rw [hobj, Multiset.map_cons, add_comm, Multiset.singleton_add]⟩
    | true =>
      -- the fill whose object is replaced
      have hmem : (c.line i).shown ∈ c.objects := by
        rw [Cache.objects, Multiset.mem_sum]
        exact ⟨i, Finset.mem_univ i, by rw [objects_valid hi]; exact Multiset.mem_singleton_self _⟩
      rw [h] at hmem
      obtain ⟨v, hv, hshown⟩ := Multiset.mem_map.1 hmem
      obtain ⟨m₀, rfl⟩ := Multiset.exists_cons_of_mem hv
      refine ⟨w ::ₘ m₀, Multiset.cons_le_cons w (Multiset.le_cons_self m₀ v), ?_⟩
      rw [objects_valid hi, h, Multiset.map_cons, hshown, ← Multiset.singleton_add,
        add_comm, add_assoc] at hobj
      rw [add_left_cancel hobj, Multiset.map_cons, add_comm, Multiset.singleton_add]

theorem objects_congr {c c' : Cache} (h : c'.line = c.line) : c'.objects = c.objects := by
  rw [Cache.objects, Cache.objects, h]

/-- **Every run** has objects of different fills. -/
theorem kept_of_reach (h : (cacheSystem τ).Reach s) : Kept s := by
  refine System.ReachBy.induct (P := Kept) ?_ ?_ h
  · rintro s rfl
    exact ⟨by simp [cacheStart], by simp [cacheStart, WorkerPc.filling], 0, by simp [cacheStart],
      Finset.sum_eq_zero fun j _ => rfl⟩
  · intro s k s' _ hK _ hn
    obtain ⟨hch, hfill⟩ := moves_of_next hn
    have hfilling : ∀ t w, (s'.worker t).filling = some w → w.size ≤ MAX_OBJECT_SIZE :=
      fun t w ht => (hfill t w ht).elim (hK.filling t w) id
    obtain ⟨m, hm, hobj⟩ := hK.objects
    cases hch with
    | @store _ t idx w ht hline hwrites =>
      have hw : w.size ≤ MAX_OBJECT_SIZE := hK.filling t w (by rw [ht]; rfl)
      refine ⟨fun v hv => ?_, hfilling, ?_⟩
      · rw [hwrites, List.mem_append, List.mem_singleton] at hv
        rcases hv with hv | rfl
        · exact hK.sizes v hv
        · exact hw
      · obtain ⟨m', hm', hobj'⟩ : ∃ m' ≤ w ::ₘ m,
            (writeLine s.toCache idx w).objects = m'.map WriteCall.shown := objects_of_fills hobj
        refine ⟨m', hm'.trans ?_, (objects_congr hline).trans hobj'⟩
        rw [hwrites, ← Multiset.coe_add, add_comm, Multiset.coe_singleton, Multiset.singleton_add]
        exact Multiset.cons_le_cons w hm
    | other hno hline hwrites =>
      rw [← objects_congr hline] at hobj
      rw [← hwrites] at hm
      exact ⟨by rw [hwrites]; exact hK.sizes, hfilling, m, hm, hobj⟩

omit [DecidableEq τ] in
/-- **Only the number counts.** -/
theorem Kept.serialisable_iff (h : Kept s) :
    Serialisable s ↔ s.toCache.objects.card = min s.writes.length CACHE_LINE := by
  have hten : CACHE_LINE = 10 := rfl
  constructor
  · rintro ⟨order, hperm, hobj⟩
    have hsizes : ∀ w ∈ order, w.size ≤ MAX_OBJECT_SIZE := fun w hw => h.sizes w (hperm.mem_iff.1 hw)
    rw [← hobj, (filled_serial hsizes).objects, Multiset.coe_card, List.length_map,
      List.length_drop, hperm.length_eq]
    omega
  · intro hcard
    obtain ⟨m, hm, hobj⟩ := h.objects
    -- the fills whose objects are there come last
    have hsum : (s.writes - m : Multiset WriteCall) + m = s.writes := tsub_add_cancel_of_le hm
    have hlen := congrArg Multiset.card hsum
    rw [Multiset.card_add, Multiset.coe_card] at hlen
    rw [hobj, Multiset.card_map] at hcard
    have hperm : ((s.writes - m : Multiset WriteCall).toList ++ m.toList).Perm s.writes := by
      rw [← Multiset.coe_eq_coe, ← Multiset.coe_add, Multiset.coe_toList, Multiset.coe_toList, hsum]
    refine ⟨_, hperm, ?_⟩
    have hsizes : ∀ w ∈ (s.writes - m : Multiset WriteCall).toList ++ m.toList,
        w.size ≤ MAX_OBJECT_SIZE := fun w hw => h.sizes w (hperm.mem_iff.1 hw)
    rw [(filled_serial hsizes).objects, hobj, List.drop_left' ?_, ← Multiset.map_coe,
      Multiset.coe_toList]
    rw [Multiset.length_toList, hperm.length_eq]
    omega

omit [DecidableEq τ] in
/-- The number of objects after a fill. -/
theorem card_store {t : τ} {idx : Option (Fin CACHE_LINE)} {w : WriteCall}
    (ht : s.worker t = .store idx w) (hline : s'.line = (writeLine s.toCache idx w).line)
    (hwrites : s'.writes = s.writes ++ [w])
    (hcard : s.toCache.objects.card = min s.writes.length CACHE_LINE) :
    s'.toCache.objects.card = min s'.writes.length CACHE_LINE ↔ FillsFree s (.run t) := by
  have hle := card_objects_le s.toCache
  have hlt := card_objects_lt s.toCache
  have hlen : s'.writes.length = s.writes.length + 1 := by rw [hwrites]; simp
  have hif : FillsFree s (.run t) ↔
      ((∃ j, (s.line j).valid = false) → ∃ i ∈ idx, (s.line i).valid = false) := by
    simp only [FillsFree, ht]
  have hobj : s'.toCache.objects = (writeLine s.toCache idx w).objects := objects_congr hline
  rw [hobj, card_writeLine, hlen, hif, ← hlt]
  split_ifs with hi
  · have : s.toCache.objects.card < CACHE_LINE := by
      obtain ⟨i, -, hi⟩ := hi
      exact hlt.2 ⟨i, hi⟩
    refine iff_of_true ?_ fun _ => hi
    omega
  · by_cases hfull : s.toCache.objects.card < CACHE_LINE
    · refine iff_of_false ?_ fun h => hi (h hfull)
      omega
    · refine iff_of_true ?_ fun h => absurd h hfull
      omega

/-- **When concurrent fills are serialisable.**  Along a run the cache is at every
point as some order of the fills leaves it, exactly if no fill of the run replaces
an object while there is an invalid line. -/
theorem fills_serialisable {ks : List (CacheStep τ)}
    (hr : (cacheSystem τ).run (cacheStart τ) ks = some s) :
    (∀ p q, ks = p ++ q → ∀ u, (cacheSystem τ).run (cacheStart τ) p = some u → Serialisable u) ↔
      ∀ p k q, ks = p ++ k :: q → ∀ u, (cacheSystem τ).run (cacheStart τ) p = some u →
        FillsFree u k := by
  refine System.forall_prefix_iff (fun u hu => ?_) (fun u k u' hu hP hn hP' => ?_) rfl hr
  · rw [(kept_of_reach hu.reach).serialisable_iff]
    refine hu.induct (P := fun u => u.toCache.objects.card = min u.writes.length CACHE_LINE) ?_ ?_
    · rintro u rfl
      have hzero : (cacheStart τ).toCache.objects = 0 := Finset.sum_eq_zero fun j _ => rfl
      rw [hzero]
      rfl
    · intro u k u' _ hcard hok hn
      cases (moves_of_next hn).change with
      | store ht hline hwrites => exact (card_store ht hline hwrites hcard).2 hok
      | other hno hline hwrites => rw [objects_congr hline, hwrites, hcard]
  · rw [(kept_of_reach hu).serialisable_iff] at hP
    rw [(kept_of_reach (hu.step hn)).serialisable_iff] at hP'
    cases (moves_of_next hn).change with
    | store ht hline hwrites => exact (card_store ht hline hwrites hP).1 hP'
    | other hno hline hwrites =>
      unfold FillsFree
      split
      · split
        · exact absurd ‹_› (hno _ _ _ rfl)
        · trivial
      · trivial

/-- Two workers, one after the other. -/
def turns : List (CacheStep (Fin 2)) :=
  [.request w₀ [117], .run w₀, .reply w₀ [[1]], .run w₀, .run w₀, .run w₀, .run w₀,
    .request w₁ [118], .run w₁, .reply w₁ [[2]], .run w₁, .run w₁, .run w₁, .run w₁]

theorem fills_serialisable_turns :
    (∀ p q, turns = p ++ q → ∀ u, (cacheSystem (Fin 2)).run (cacheStart (Fin 2)) p = some u →
      Serialisable u) ↔
      ∀ p k q, turns = p ++ k :: q → ∀ u, (cacheSystem (Fin 2)).run (cacheStart (Fin 2)) p = some u →
        FillsFree u k :=
  have hr : ((cacheSystem (Fin 2)).run (cacheStart (Fin 2)) turns).isSome := by decide
  fills_serialisable (Option.some_get hr).symm

/-- Both workers choose line `0` before one of them stores its object. -/
def racedFills : CacheState (Fin 2) :=
  ((cacheSystem (Fin 2)).run (cacheStart (Fin 2))
    [.request w₀ [117], .run w₀, .reply w₀ [[1]], .run w₀,
      .request w₁ [118], .run w₁, .reply w₁ [[2]], .run w₁,
      .run w₀, .run w₀, .run w₀, .run w₁, .run w₁, .run w₁]).getD (cacheStart (Fin 2))

/-- **An object is lost**, with nine invalid lines left. -/
theorem raced_fill_lost :
    (cacheSystem (Fin 2)).Reach racedFills ∧ (∀ t, racedFills.worker t = .idle) ∧
      racedFills.writes.length = 2 ∧ (∀ i, (racedFills.line i).url ≠ [117]) ∧
      ¬Serialisable racedFills := by
  have hreach : (cacheSystem (Fin 2)).Reach racedFills := System.Reach.getD_run (.init rfl) _
  refine ⟨hreach, by decide, by decide, by decide, fun h => ?_⟩
  have hcard := (kept_of_reach hreach).serialisable_iff.1 h
  rw [card_objects] at hcard
  exact absurd hcard (by decide)

end Proxy
end CsappLabs
