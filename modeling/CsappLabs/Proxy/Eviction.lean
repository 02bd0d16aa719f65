/-
# Which object goes

Requests served one after the other.  `doit` of `proxylab/proxy.c` looks the url up;
a hit sends the line and leaves no trace in it, a miss asks the server and calls
`write_cache`, which looks at the timestamps to replace the object used longest ago.
They are the times of the writes, so what it replaces is the object that came in
first.

The lines hold a queue of urls (`Queued`), and the object that goes is the one used
longest ago exactly where the first url of the queue is the one requested longest ago
(`evicts_oldest_iff`).  Without that the cache is not the one an order of last use
keeps; with it, it is (`cached_recent`).
-/

import CsappLabs.Lib.Fifo
import CsappLabs.Proxy.Newest

namespace CsappLabs
namespace Proxy

open Lib Lib.Fifo Lib.Recency

/-- A request: its url, and the chunks of the reply if the server is asked. -/
structure Request where
  url : List UInt8
  chunks : List (List UInt8)

/-- The call of `write_cache` after a miss. -/
def Request.fill (r : Request) : WriteCall := bufferReply r.url r.chunks

/-- What `doit` does to the cache, without another thread in between.  A hit counts
itself in and out of `readcnt`. -/
def serve (c : Cache) (r : Request) : Cache :=
  match findCacheHit c r.url with
  | some _ => { c with readcnt := c.readcnt + 1 - 1 }
  | none => writeCache c r.fill

/-- The line that `doit` writes. -/
def writtenLine (c : Cache) (r : Request) : Option (Fin CACHE_LINE) :=
  match findCacheHit c r.url with
  | some _ => none
  | none => if r.fill.size > MAX_OBJECT_SIZE then none else chooseLine c

/-- The line that a request uses: the one it hits or the one it writes. -/
def usedLine (c : Cache) (r : Request) : Option (Fin CACHE_LINE) :=
  (findCacheHit c r.url).or (writtenLine c r)

/-- The cache, the number of requests, and the number of the last request that used
each line. -/
structure Watched extends Cache where
  clock : ℕ
  lastUse : Fin CACHE_LINE → ℕ

/-- A request is served. -/
def Watched.serve (s : Watched) (r : Request) : Watched where
  toCache := Proxy.serve s.toCache r
  clock := s.clock + 1
  lastUse i := if usedLine s.toCache r = some i then s.clock + 1 else s.lastUse i

/-- The requests served from `cache_init` on. -/
def watch (rs : List Request) : Watched :=
  rs.foldl Watched.serve { cacheInit with clock := 0, lastUse := fun _ => 0 }

/-- If the request replaces a valid line, then the one used longest ago. -/
def EvictsOldest (s : Watched) (r : Request) : Prop :=
  ∀ i, writtenLine s.toCache r = some i → (s.line i).valid = true →
    ∀ j, j ≠ i → s.lastUse i < s.lastUse j

/-- The urls requested, the last one first. -/
def requested (rs : List Request) : List (List UInt8) := (rs.map Request.url).reverse

variable {c : Cache} {s : Watched} {r : Request} {rs : List Request} {w : WriteCall}
  {ws : List WriteCall} {i j : Fin CACHE_LINE} {hist : List (List UInt8)} {u : List UInt8}

/-! ### The queue in the lines -/

/-- The urls of the last ten calls. -/
def lastUrls (ws : List WriteCall) : List (List UInt8) :=
  (ws.drop (ws.length - 10)).map WriteCall.url

theorem length_lastUrls (ws : List WriteCall) : (lastUrls ws).length = min ws.length 10 := by
  rw [lastUrls, List.length_map, List.length_drop]
  omega

/-- The call that a miss makes pushes its url. -/
theorem lastUrls_concat (ws : List WriteCall) (w : WriteCall) :
    lastUrls (ws ++ [w]) =
      (lastUrls ws ++ [w.url]).drop ((lastUrls ws).length + 1 - CACHE_LINE) := by
  have hten : CACHE_LINE = 10 := rfl
  rw [length_lastUrls, lastUrls, lastUrls, hten, List.length_append, List.length_singleton]
  by_cases hn : ws.length < 10
  · rw [Nat.sub_eq_zero_of_le (by omega), Nat.sub_eq_zero_of_le (by omega),
      Nat.sub_eq_zero_of_le (by omega)]
    simp
  · rw [show ws.length + 1 - 10 = ws.length - 10 + 1 by omega,
      show min ws.length 10 + 1 - 10 = 1 by omega, ← List.drop_drop,
      List.drop_append_of_le_length (by omega), List.map_drop, List.map_append, List.map_singleton]

/-- The url of a line is the one at its place. -/
theorem Filled.url_eq (h : Filled ws c) (hj : (j : ℕ) < ws.length) :
    (lastUrls ws)[place ws.length j]? = some (c.line j).url := by
  have hget := List.getElem?_eq_getElem (latest_lt hj)
  have hshown := (h.full j hj).2.2 _ hget
  rw [lastUrls, List.getElem?_map, List.getElem?_drop, place_add hj, hget]
  exact congrArg some (congrArg Prod.fst hshown).symm

/-- **The valid lines hold the queue.** -/
theorem Filled.mem_lastUrls (h : Filled ws c) :
    u ∈ lastUrls ws ↔ ∃ j, (c.line j).valid = true ∧ (c.line j).url = u := by
  constructor
  · intro hu
    obtain ⟨k, hk, rfl⟩ := List.mem_iff_getElem.1 hu
    rw [length_lastUrls] at hk
    obtain ⟨⟨j, hj⟩, hjk⟩ := (placeEquiv ws.length).surjective ⟨k, hk⟩
    have hplace : place ws.length j = k := congrArg Fin.val hjk
    have hurl := h.url_eq hj
    rw [hplace, List.getElem?_eq_getElem (by rwa [length_lastUrls])] at hurl
    exact ⟨j, h.valid_iff.2 hj, (Option.some.inj hurl).symm⟩
  · rintro ⟨j, hv, rfl⟩
    exact List.mem_of_getElem? (h.url_eq (h.valid_iff.1 hv))

/-- Different lines hold different urls. -/
theorem Filled.url_injective (h : Filled ws c) (hnd : (lastUrls ws).Nodup)
    (hi : (c.line i).valid = true) (hj : (c.line j).valid = true)
    (he : (c.line i).url = (c.line j).url) : i = j := by
  have hi' := h.valid_iff.1 hi
  have hj' := h.valid_iff.1 hj
  have hlt : place ws.length i < (lastUrls ws).length := by
    rw [length_lastUrls]
    exact place_lt hi'
  have hplace := (List.getElem?_inj hlt hnd).1 ((h.url_eq hi').trans (he ▸ (h.url_eq hj').symm))
  have hsub : (⟨i, hi'⟩ : {j : Fin CACHE_LINE // (j : ℕ) < ws.length}) = ⟨j, hj'⟩ :=
    (placeEquiv ws.length).injective (Fin.ext hplace)
  exact congrArg Subtype.val hsub

/-- A loop that keeps the last element satisfying a test returns one if there is one. -/
theorem isSome_foldl_last {α : Type*} (p : α → Prop) [DecidablePred p] (l : List α)
    (r : Option α) :
    (l.foldl (fun ret i => if p i then some i else ret) r).isSome ↔ r.isSome ∨ ∃ i ∈ l, p i := by
  induction l generalizing r with
  | nil => simp
  | cons a l ih =>
    rw [List.foldl_cons, ih]
    by_cases ha : p a <;> simp [ha]

/-- **There is a hit** exactly if the url is in some valid line. -/
theorem isSome_findCacheHit : (findCacheHit c u).isSome ↔
    ∃ j, (c.line j).valid = true ∧ (c.line j).url = u := by
  have h := isSome_foldl_last (fun i => (c.line i).valid = true ∧ (c.line i).url = u)
    (List.finRange CACHE_LINE) none
  simpa [findCacheHit] using h

/-! ### Requests one after the other -/

theorem serve_hit (h : findCacheHit c r.url = some i) :
    serve c r = c ∧ usedLine c r = some i ∧ writtenLine c r = none := by
  simp [serve, usedLine, writtenLine, h]

@[simp] theorem serve_readcnt (c : Cache) (r : Request) : (serve c r).readcnt = c.readcnt := by
  unfold serve writeCache
  split
  · exact add_sub_cancel_right _ _
  · split_ifs <;> rfl

theorem serve_miss (h : findCacheHit c r.url = none) (hr : r.fill.size ≤ MAX_OBJECT_SIZE)
    (hi : chooseLine c = some i) :
    serve c r = writeLine c (some i) r.fill ∧ usedLine c r = some i ∧
      writtenLine c r = some i := by
  simp [serve, usedLine, writtenLine, h, writeCache, hi, not_lt.2 hr]

/-- The cache after the requests `hist`, the last one first: the calls made by the
misses, and when the lines were used. -/
structure Queued (hist : List (List UInt8)) (ws : List WriteCall) (s : Watched) : Prop where
  filled : Filled ws s.toCache
  urls : lastUrls ws = queue CACHE_LINE hist
  clock : s.clock = hist.length
  lastUse : ∀ j, (s.line j).valid = true →
    s.lastUse j + age hist (s.line j).url = hist.length

namespace Queued

/-- There is a hit exactly if the url is in the queue. -/
theorem findCacheHit_eq_none (h : Queued hist ws s) :
    findCacheHit s.toCache u = none ↔ u ∉ queue CACHE_LINE hist := by
  rw [← h.urls, h.filled.mem_lastUrls, ← isSome_findCacheHit]
  cases findCacheHit s.toCache u <;> simp

theorem nodup (h : Queued hist ws s) : (lastUrls ws).Nodup := h.urls ▸ nodup_queue _ _

/-- The time of last use in a line that is not used. -/
theorem lastUse_cons (h : Queued hist ws s) (hv : (s.line j).valid = true)
    (hne : (s.line j).url ≠ u) :
    s.lastUse j + age (u :: hist) (s.line j).url = hist.length + 1 := by
  rw [age_cons_ne hne, ← h.lastUse j hv]
  omega

/-- **A hit.** -/
theorem hit (h : Queued hist ws s) (hi : findCacheHit s.toCache r.url = some i) :
    Queued (r.url :: hist) ws (s.serve r) := by
  obtain ⟨hserve, hused, -⟩ := serve_hit hi
  obtain ⟨hvalid, hurl⟩ := findCacheHit_spec hi
  have hmem : r.url ∈ queue CACHE_LINE hist := by
    by_contra hno
    rw [h.findCacheHit_eq_none.2 hno] at hi
    exact absurd hi (by simp)
  constructor
  · simp only [Watched.serve, hserve]
    exact h.filled
  · rw [queue_cons, push_of_mem hmem, h.urls]
  · simp [Watched.serve, h.clock]
  · intro j hj
    simp only [Watched.serve, hserve, hused, List.length_cons] at hj ⊢
    by_cases hji : j = i
    · subst hji
      rw [if_pos rfl, hurl, age_cons_self, h.clock]
    · rw [if_neg fun he => hji (Option.some.inj he).symm]
      exact h.lastUse_cons hj fun he =>
        hji (h.filled.url_injective h.nodup hj hvalid (he.trans hurl.symm))

/-- **A miss.** -/
theorem miss (h : Queued hist ws s) (hr : r.fill.size ≤ MAX_OBJECT_SIZE)
    (hno : findCacheHit s.toCache r.url = none) :
    Queued (r.url :: hist) (ws ++ [r.fill]) (s.serve r) := by
  obtain ⟨i, hi⟩ : ∃ i : Fin CACHE_LINE, (i : ℕ) = ws.length % 10 :=
    ⟨⟨_, Nat.mod_lt _ (by decide)⟩, rfl⟩
  obtain ⟨hserve, hused, -⟩ := serve_miss hno hr (h.filled.chooseLine hi)
  have hmem := h.findCacheHit_eq_none.1 hno
  constructor
  · have hfill := h.filled.writeCache hr
    rwa [writeCache, if_neg (not_lt.2 hr), h.filled.chooseLine hi, ← hserve] at hfill
  · rw [queue_cons, push, if_neg hmem, lastUrls_concat, h.urls]
    rfl
  · simp [Watched.serve, h.clock]
  · intro j hj
    simp only [Watched.serve, hserve, hused, List.length_cons] at hj ⊢
    by_cases hji : j = i
    · subst hji
      have hurl : ((writeLine s.toCache (some j) r.fill).line j).url = r.url :=
        (stores_writeLine s.toCache j r.fill).url
      rw [if_pos rfl, hurl, age_cons_self, h.clock]
    · have hne : some i ≠ some j := fun he => hji (Option.some.inj he).symm
      rw [writeLine_line_of_ne hne] at hj ⊢
      rw [if_neg hne]
      refine h.lastUse_cons hj fun he => hmem ?_
      rw [← h.urls]
      exact h.filled.mem_lastUrls.2 ⟨j, hj, he⟩

/-- The line that is written next has the first url of a full queue. -/
theorem urls_eq_cons (h : Queued hist ws s) (hi : (i : ℕ) = ws.length % 10)
    (hv : (s.line i).valid = true) : ∃ l, lastUrls ws = (s.line i).url :: l := by
  have hlt := h.filled.valid_iff.1 hv
  have hurl := h.filled.url_eq hlt
  rw [place_next hi (by omega)] at hurl
  cases hq : lastUrls ws with
  | nil => simp [hq] at hurl
  | cons x l =>
    rw [hq, List.getElem?_cons_zero] at hurl
    exact ⟨l, by rw [Option.some.inj hurl]⟩

/-- **What a miss replaces** is the object used longest ago exactly if the first url of
the queue is the one requested longest ago. -/
theorem lastUse_lt_iff (h : Queued hist ws s) (hi : (i : ℕ) = ws.length % 10)
    (hv : (s.line i).valid = true) :
    (∀ j, j ≠ i → s.lastUse i < s.lastUse j) ↔ OldestFirst hist (queue CACHE_LINE hist) := by
  have hn := h.filled.valid_iff.1 hv
  have hvalid : ∀ j, (s.line j).valid = true := fun j =>
    h.filled.valid_iff.2 (by have := line_lt j; omega)
  obtain ⟨l, hl⟩ := h.urls_eq_cons hi hv
  have hnd := h.nodup
  rw [hl, List.nodup_cons] at hnd
  -- earlier uses are further back in the requests
  have hlt : ∀ j, s.lastUse i < s.lastUse j ↔
      age hist (s.line j).url < age hist (s.line i).url := fun j => by
    have hsum := h.lastUse i hv
    have hsum' := h.lastUse j (hvalid j)
    omega
  rw [← h.urls, hl, OldestFirst]
  constructor
  · intro hall a ha b hb
    obtain rfl := Option.some.inj ha
    have hmem : b ∈ lastUrls ws := hl ▸ List.mem_cons_of_mem _ hb
    obtain ⟨j, -, rfl⟩ := h.filled.mem_lastUrls.1 hmem
    exact (hlt j).1 (hall j fun he => hnd.1 (he ▸ hb))
  · intro hold j hj
    have hmem : (s.line j).url ∈ lastUrls ws := h.filled.mem_lastUrls.2 ⟨j, hvalid j, rfl⟩
    rw [hl] at hmem
    refine (hlt j).2 (hold _ rfl _ ((List.mem_cons.1 hmem).resolve_left fun he => hj ?_))
    exact h.filled.url_injective h.nodup (hvalid j) hv he

/-- A full queue: all lines are valid. -/
theorem valid_iff_length (h : Queued hist ws s) (hi : (i : ℕ) = ws.length % 10) :
    (s.line i).valid = true ↔ (queue CACHE_LINE hist).length = CACHE_LINE := by
  have hten : CACHE_LINE = 10 := rfl
  rw [h.filled.valid_iff, ← h.urls, length_lastUrls]
  omega

theorem evictsOldest_iff (h : Queued hist ws s) (hr : r.fill.size ≤ MAX_OBJECT_SIZE) :
    EvictsOldest s r ↔
      (r.url ∉ queue CACHE_LINE hist → (queue CACHE_LINE hist).length = CACHE_LINE →
        OldestFirst hist (queue CACHE_LINE hist)) := by
  rw [← h.findCacheHit_eq_none]
  cases hfind : findCacheHit s.toCache r.url with
  | some k =>
    obtain ⟨-, -, hwrite⟩ := serve_hit hfind
    exact iff_of_true (fun i hi => by simp [hwrite] at hi) (by simp)
  | none =>
    obtain ⟨i, hi⟩ : ∃ i : Fin CACHE_LINE, (i : ℕ) = ws.length % 10 :=
      ⟨⟨_, Nat.mod_lt _ (by decide)⟩, rfl⟩
    obtain ⟨-, -, hwrite⟩ := serve_miss hfind hr (h.filled.chooseLine hi)
    rw [← h.valid_iff_length hi]
    constructor
    · exact fun hev _ hv => (h.lastUse_lt_iff hi hv).1 (hev i hwrite hv)
    · intro hold k hk hv
      obtain rfl : i = k := Option.some.inj (hwrite.symm.trans hk)
      exact (h.lastUse_lt_iff hi hv).2 (hold rfl hv)

end Queued

/-- **Every run** of requests for objects that can be cached. -/
theorem queued_watch (h : ∀ r ∈ rs, r.fill.size ≤ MAX_OBJECT_SIZE) :
    ∃ ws, Queued (requested rs) ws (watch rs) := by
  induction rs using List.reverseRecOn with
  | nil =>
    exact ⟨[], filled_serial (fun w hw => absurd hw List.not_mem_nil), rfl, rfl, fun j hj =>
      absurd hj Bool.false_ne_true⟩
  | append_singleton rs r ih =>
    obtain ⟨ws, hws⟩ := ih fun r hr => h r (by simp [hr])
    have hr := h r (by simp)
    have hrun : watch (rs ++ [r]) = (watch rs).serve r := by rw [watch, List.foldl_append]; rfl
    have hreq : requested (rs ++ [r]) = r.url :: requested rs := by simp [requested]
    rw [hrun, hreq]
    cases hfind : findCacheHit (watch rs).toCache r.url with
    | some i => exact ⟨ws, hws.hit hfind⟩
    | none => exact ⟨_, hws.miss hr hfind⟩

/-- **The object that goes** is at every request the one used longest ago, exactly if at
every miss with ten urls in the queue the first of them is the one requested longest
ago. -/
theorem evicts_oldest_iff (h : ∀ r ∈ rs, r.fill.size ≤ MAX_OBJECT_SIZE) :
    (∀ p r q, rs = p ++ r :: q → EvictsOldest (watch p) r) ↔
      ∀ p r q, rs = p ++ r :: q → r.url ∉ queue CACHE_LINE (requested p) →
        (queue CACHE_LINE (requested p)).length = CACHE_LINE →
        OldestFirst (requested p) (queue CACHE_LINE (requested p)) := by
  have hstep : ∀ p r q, rs = p ++ r :: q → (EvictsOldest (watch p) r ↔
      (r.url ∉ queue CACHE_LINE (requested p) →
        (queue CACHE_LINE (requested p)).length = CACHE_LINE →
        OldestFirst (requested p) (queue CACHE_LINE (requested p)))) := by
    rintro p r q rfl
    have hp : ∀ r ∈ p, r.fill.size ≤ MAX_OBJECT_SIZE := fun r hr => h r (by simp [hr])
    obtain ⟨ws, hws⟩ := queued_watch hp
    exact hws.evictsOldest_iff (h r (by simp))
  constructor
  · exact fun hall p r q hp => (hstep p r q hp).1 (hall p r q hp)
  · exact fun hall p r q hp => (hstep p r q hp).2 (hall p r q hp)

/-- A request for a short object. -/
def ask (k : ℕ) : Request := { url := [UInt8.ofNat (97 + k)], chunks := [[65, 10]] }

/-- Eleven urls, one after the other. -/
theorem evicts_oldest_iff_eleven :
    (∀ p r q, (List.range 11).map ask = p ++ r :: q → EvictsOldest (watch p) r) ↔
      ∀ p r q, (List.range 11).map ask = p ++ r :: q →
        r.url ∉ queue CACHE_LINE (requested p) →
        (queue CACHE_LINE (requested p)).length = CACHE_LINE →
        OldestFirst (requested p) (queue CACHE_LINE (requested p)) :=
  evicts_oldest_iff (by decide)

/-- **The first url is requested again** after the ten, and the next one replaces its
object. -/
theorem evicts_hit_again :
    (∀ r ∈ (List.range 10).map ask ++ [ask 0, ask 10], r.fill.size ≤ MAX_OBJECT_SIZE) ∧
      ¬∀ p r q, (List.range 10).map ask ++ [ask 0, ask 10] = p ++ r :: q →
        EvictsOldest (watch p) r := by
  refine ⟨by decide, fun hall => ?_⟩
  have hev := hall ((List.range 10).map ask ++ [ask 0]) (ask 10) [] rfl 0 (by decide) (by decide) 1
    (by decide)
  exact absurd hev (by decide)

/-- The requests up to one in the list of their urls. -/
theorem exists_of_requested {p q : List (List UInt8)} (h : requested rs = p ++ u :: q) :
    ∃ p' r q', rs = p' ++ r :: q' ∧ r.url = u ∧ requested p' = q := by
  rw [requested, List.reverse_eq_iff, List.reverse_append, List.reverse_cons, List.append_assoc,
    List.map_eq_append_iff] at h
  obtain ⟨p', rest, rfl, hp', hrest⟩ := h
  obtain ⟨r, q', rfl, hr, -⟩ := List.map_eq_cons_iff.1 hrest
  exact ⟨p', r, q', rfl, hr, by rw [requested, hp', List.reverse_reverse]⟩

/-- **The urls of an order of last use.**  If every object that goes is the one used
longest ago, the cache has the objects that the order of last use keeps. -/
theorem cached_recent (h : ∀ r ∈ rs, r.fill.size ≤ MAX_OBJECT_SIZE)
    (hev : ∀ p r q, rs = p ++ r :: q → EvictsOldest (watch p) r) :
    (∃ j, ((watch rs).line j).valid = true ∧ ((watch rs).line j).url = u) ↔
      u ∈ recent CACHE_LINE (requested rs) := by
  obtain ⟨ws, hws⟩ := queued_watch h
  rw [← hws.filled.mem_lastUrls, hws.urls]
  refine (queue_perm_recent (by decide) fun p a q hp hno hfull => ?_).mem_iff
  obtain ⟨p', r, q', hrs, rfl, rfl⟩ := exists_of_requested hp
  have hp' : ∀ r ∈ p', r.fill.size ≤ MAX_OBJECT_SIZE := fun r hr => h r (by simp [hrs, hr])
  obtain ⟨ws', hws'⟩ := queued_watch hp'
  exact (hws'.evictsOldest_iff (h r (by simp [hrs]))).1 (hev p' r q' hrs) hno hfull

/-! ### The workers in turn -/

variable {τ : Type*} [DecidableEq τ] {k : CacheState τ}

/-- No worker is on the cache. -/
structure AllIdle (k : CacheState τ) : Prop where
  worker : ∀ t, k.worker t = .idle
  mutex : k.mutex = 1
  writer : k.writer = 1
  readcnt : k.readcnt = 0

/-- Worker `t` is at `x`, and the others are idle. -/
def busy (c : Cache) (mutex writer : ℕ) (writes : List WriteCall) (t : τ) (x : WorkerPc) :
    CacheState τ :=
  { c with mutex, writer, worker := Function.update (fun _ => .idle) t x, writes }

theorem AllIdle.eq_busy (h : AllIdle k) (t : τ) : k = busy k.toCache 1 1 k.writes t .idle := by
  obtain ⟨⟨line, readcnt, currentTime⟩, mutex, writer, worker, writes⟩ := k
  obtain ⟨hworker, rfl, rfl, -⟩ := h
  obtain rfl : worker = fun _ => .idle := funext hworker
  simp [busy]

theorem allIdle_busy (c : Cache) (hc : c.readcnt = 0) (ws : List WriteCall) (t : τ) :
    AllIdle (busy c 1 1 ws t .idle) :=
  ⟨fun u => by simp [busy], rfl, rfl, hc⟩

/-- A hit sends the line, and everything is as before. -/
theorem run_hit (c : Cache) (hc : c.readcnt = 0) (ws : List WriteCall) (t : τ)
    (hfind : findCacheHit c u = some i) :
    (cacheSystem τ).run (busy c 1 1 ws t .idle) (.request t u :: List.replicate 10 (.run t)) =
      some (busy c 1 1 ws t .idle) := by
  have h₀ : (cacheSystem τ).next (busy c 1 1 ws t .idle) (.request t u) =
      some (busy c 1 1 ws t (.lookup u)) := by
    simp [cacheSystem, busy]
  have h₁ : (cacheSystem τ).next (busy c 1 1 ws t (.lookup u)) (.run t) =
      some (busy c 1 1 ws t (.enter i u)) := by
    simp [cacheSystem, workerNext, busy, hfind]
  have h₂ : (cacheSystem τ).next (busy c 1 1 ws t (.enter i u)) (.run t) =
      some (busy c 0 1 ws t (.countIn i u)) := by
    simp [cacheSystem, workerNext, busy]
  have h₃ : (cacheSystem τ).next (busy c 0 1 ws t (.countIn i u)) (.run t) =
      some (busy { c with readcnt := 1 } 0 1 ws t (.first i u)) := by
    simp [cacheSystem, workerNext, busy, hc]
  have h₄ : (cacheSystem τ).next (busy { c with readcnt := 1 } 0 1 ws t (.first i u)) (.run t) =
      some (busy { c with readcnt := 1 } 0 0 ws t (.entered i u)) := by
    simp [cacheSystem, workerNext, busy]
  have h₅ : (cacheSystem τ).next (busy { c with readcnt := 1 } 0 0 ws t (.entered i u)) (.run t) =
      some (busy { c with readcnt := 1 } 1 0 ws t (.send i u)) := by
    simp [cacheSystem, workerNext, busy]
  have h₆ : (cacheSystem τ).next (busy { c with readcnt := 1 } 1 0 ws t (.send i u)) (.run t) =
      some (busy { c with readcnt := 1 } 1 0 ws t .leave) := by
    simp [cacheSystem, workerNext, busy]
  have h₇ : (cacheSystem τ).next (busy { c with readcnt := 1 } 1 0 ws t .leave) (.run t) =
      some (busy { c with readcnt := 1 } 0 0 ws t .countOut) := by
    simp [cacheSystem, workerNext, busy]
  have h₈ : (cacheSystem τ).next (busy { c with readcnt := 1 } 0 0 ws t .countOut) (.run t) =
      some (busy c 0 0 ws t .last) := by
    simp [cacheSystem, workerNext, busy, ← hc]
  have h₉ : (cacheSystem τ).next (busy c 0 0 ws t .last) (.run t) =
      some (busy c 0 1 ws t .left) := by
    simp [cacheSystem, workerNext, busy, hc]
  have h₁₀ : (cacheSystem τ).next (busy c 0 1 ws t .left) (.run t) =
      some (busy c 1 1 ws t .idle) := by
    simp [cacheSystem, workerNext, busy]
  simp only [List.replicate, System.run, Option.bind_some, h₀, h₁, h₂, h₃, h₄, h₅, h₆, h₇, h₈, h₉,
    h₁₀]

/-- A miss calls `write_cache`. -/
theorem run_miss (c : Cache) (ws : List WriteCall) (t : τ) (r : Request)
    (hfind : findCacheHit c r.url = none) :
    ∃ ks ws', (cacheSystem τ).run (busy c 1 1 ws t .idle) ks =
      some (busy (writeCache c r.fill) 1 1 ws' t .idle) := by
  have h₀ : (cacheSystem τ).next (busy c 1 1 ws t .idle) (.request t r.url) =
      some (busy c 1 1 ws t (.lookup r.url)) := by
    simp [cacheSystem, busy]
  have h₁ : (cacheSystem τ).next (busy c 1 1 ws t (.lookup r.url)) (.run t) =
      some (busy c 1 1 ws t (.fetch r.url)) := by
    simp [cacheSystem, workerNext, busy, hfind]
  have h₂ : (cacheSystem τ).next (busy c 1 1 ws t (.fetch r.url)) (.reply t r.chunks) =
      some (busy c 1 1 ws t (.scan r.fill)) := by
    simp [cacheSystem, busy, Request.fill]
  by_cases hsize : r.fill.size > MAX_OBJECT_SIZE
  · have h₃ : (cacheSystem τ).next (busy c 1 1 ws t (.scan r.fill)) (.run t) =
        some (busy c 1 1 ws t .idle) := by
      simp [cacheSystem, workerNext, busy, hsize]
    refine ⟨[.request t r.url, .run t, .reply t r.chunks, .run t], ws, ?_⟩
    simp only [System.run, Option.bind_some, h₀, h₁, h₂, h₃, writeCache_of_lt hsize]
  · have h₃ : (cacheSystem τ).next (busy c 1 1 ws t (.scan r.fill)) (.run t) =
        some (busy c 1 1 ws t (.pWriter (chooseLine c) r.fill)) := by
      simp [cacheSystem, workerNext, busy, hsize]
    have h₄ : (cacheSystem τ).next (busy c 1 1 ws t (.pWriter (chooseLine c) r.fill)) (.run t) =
        some (busy c 1 0 ws t (.store (chooseLine c) r.fill)) := by
      simp [cacheSystem, workerNext, busy]
    have h₅ : (cacheSystem τ).next (busy c 1 0 ws t (.store (chooseLine c) r.fill)) (.run t) =
        some (busy (writeLine c (chooseLine c) r.fill) 1 0 (ws ++ [r.fill]) t .vWriter) := by
      simp [cacheSystem, workerNext, busy]
    have h₆ : (cacheSystem τ).next
        (busy (writeLine c (chooseLine c) r.fill) 1 0 (ws ++ [r.fill]) t .vWriter) (.run t) =
        some (busy (writeLine c (chooseLine c) r.fill) 1 1 (ws ++ [r.fill]) t .idle) := by
      simp [cacheSystem, workerNext, busy]
    refine ⟨[.request t r.url, .run t, .reply t r.chunks, .run t, .run t, .run t, .run t],
      ws ++ [r.fill], ?_⟩
    simp only [System.run, Option.bind_some, h₀, h₁, h₂, h₃, h₄, h₅, h₆, writeCache, if_neg hsize]

/-- **A request alone.**  A worker that no other one disturbs serves it as `serve` does. -/
theorem AllIdle.run_serve (h : AllIdle k) (t : τ) (r : Request) :
    ∃ ks k', (cacheSystem τ).run k ks = some k' ∧ k'.toCache = serve k.toCache r ∧
      AllIdle k' := by
  have hc : (serve k.toCache r).readcnt = 0 := by
    rw [serve_readcnt, h.readcnt]
  rw [h.eq_busy t]
  cases hfind : findCacheHit k.toCache r.url with
  | some i =>
    refine ⟨_, _, run_hit _ h.readcnt _ t hfind, (serve_hit hfind).1.symm, ?_⟩
    exact allIdle_busy _ h.readcnt _ t
  | none =>
    obtain ⟨ks, ws', hrun⟩ := run_miss k.toCache k.writes t r hfind
    have hserve : serve k.toCache r = writeCache k.toCache r.fill := by rw [serve, hfind]
    rw [← hserve] at hrun
    exact ⟨ks, _, hrun, rfl, allIdle_busy _ hc _ t⟩

/-- **Runs of the workers.**  Serving requests one after the other is one of them. -/
theorem exists_reach_watch (t : τ) (rs : List Request) :
    ∃ k, (cacheSystem τ).Reach k ∧ AllIdle k ∧ k.toCache = (watch rs).toCache := by
  induction rs using List.reverseRecOn with
  | nil => exact ⟨cacheStart τ, .init rfl, ⟨fun _ => rfl, rfl, rfl, rfl⟩, rfl⟩
  | append_singleton rs r ih =>
    obtain ⟨k, hreach, hidle, hcache⟩ := ih
    obtain ⟨ks, k', hrun, hserve, hidle'⟩ := hidle.run_serve t r
    refine ⟨k', hreach.run hrun, hidle', ?_⟩
    rw [watch, List.foldl_append, hserve, hcache]
    rfl

end Proxy
end CsappLabs
