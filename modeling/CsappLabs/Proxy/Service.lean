/-
# The threads of the proxy

`main` and `proxy_thread` of `proxylab/proxy.c`: the main thread accepts connections and puts
them into the ring, each worker takes a connection out, runs `doit` for it and closes it, again
and again.  The ring is that of `bufferSystem` and `doit` works on the cache of `cacheSystem`;
any two lines of different threads can come between each other.

At any time each connection is at one place (`connections_kept`).  Without new connections every
run ends, whatever the schedule, and where it cannot go on every connection that was accepted has
been closed, once (`connections_served`).  A worker that waits for its client or for the server
can go on; `Accept`, `Close` and `raise_error` are one step, and none fails (`unix_error` would
end the program).
-/

import Mathlib.Tactic.FinCases
import CsappLabs.Lib.Progress
import CsappLabs.Proxy.Buffer
import CsappLabs.Proxy.Worker

namespace CsappLabs
namespace Proxy

open Lib Lib.Threads

/-- Where a worker is in the loop of `proxy_thread`. -/
inductive ThreadPc where
  /-- `connfd = consume(&connection_buffer)` -/
  | consume
  /-- `doit(connfd)`, up to the request line -/
  | doit (connfd : ℤ)
  /-- `doit(connfd)`, from `find_cache_hit` on -/
  | serve (connfd : ℤ)
  /-- `Close(connfd)` -/
  | close (connfd : ℤ)

/-- The ring, the cache and the workers, with the connections accepted and closed so far. -/
structure ProxyState (τ : Type*) where
  buffer : BufferState τ
  cache : CacheState τ
  thread : τ → ThreadPc
  accepted : List ℤ
  closed : List ℤ

/-- A step. -/
inductive ProxyStep (τ : Type*) where
  /-- `Accept` returns a connection -/
  | accept (connfd : ℤ)
  /-- a line of `produce` -/
  | main
  /-- a line of `consume` -/
  | consume (t : τ)
  /-- the worker reads a `GET` of the url -/
  | request (t : τ) (url : List UInt8)
  /-- the worker reads another method, and calls `raise_error` -/
  | reject (t : τ)
  /-- the server's reply -/
  | reply (t : τ) (chunks : List (List UInt8))
  /-- a line of `doit` -/
  | run (t : τ)
  /-- `Close(connfd)` -/
  | close (t : τ)

/-- The connection that `consume` is about to return. -/
def ConsumePc.returned : ConsumePc → Option ℤ
  | .vSlots item => some item
  | _ => none

variable {τ : Type*} [DecidableEq τ]

/-- The worker goes on in `proxy_thread`. -/
def ProxyState.goto (s : ProxyState τ) (t : τ) (x : ThreadPc) : ProxyState τ :=
  { s with thread := Function.update s.thread t x }

/-- The worker `t` is in `doit`, and its part of the cache makes a step. -/
def ProxyState.serving (s : ProxyState τ) (t : τ) (connfd : ℤ) (cache : CacheState τ) :
    ProxyState τ :=
  { s with cache := cache }.goto t
    (if cache.worker t = WorkerPc.idle then .close connfd else .serve connfd)

/-- A step of the worker `t`. -/
def threadNext (s : ProxyState τ) (t : τ) (i : ProxyStep τ) : Option (ProxyState τ) :=
  match s.thread t, i with
  | .consume, .consume _ =>
      (consumeNext s.buffer t).map fun buffer =>
        { s with buffer := buffer }.goto t
          ((s.buffer.worker t).returned.elim .consume .doit)
  | .doit connfd, .request _ url =>
      ((cacheSystem τ).next s.cache (.request t url)).map (s.serving t connfd)
  | .doit connfd, .reject _ => some (s.goto t (.close connfd))
  | .serve connfd, .reply _ chunks =>
      ((cacheSystem τ).next s.cache (.reply t chunks)).map (s.serving t connfd)
  | .serve connfd, .run _ => ((cacheSystem τ).next s.cache (.run t)).map (s.serving t connfd)
  | .close connfd, .close _ => some ({ s with closed := s.closed ++ [connfd] }.goto t .consume)
  | _, _ => none

/-- The state after `init_buffer` and `cache_init`, all threads started. -/
def proxyStart (τ : Type*) : ProxyState τ where
  buffer := bufferStart τ
  cache := cacheStart τ
  thread _ := .consume
  accepted := []
  closed := []

/-- The proxy. -/
def proxySystem (τ : Type*) [DecidableEq τ] : System (ProxyState τ) (ProxyStep τ) where
  init s := s = proxyStart τ
  next s i :=
    match i with
    | .accept connfd =>
        ((bufferSystem τ).next s.buffer (.accept connfd)).map fun buffer =>
          { s with buffer := buffer, accepted := s.accepted ++ [connfd] }
    | .main => (produceNext s.buffer).map fun buffer => { s with buffer := buffer }
    | .consume t | .request t _ | .reject t | .reply t _ | .run t | .close t => threadNext s t i

/-! ### What a step does -/

variable {s s' : ProxyState τ} {i : ProxyStep τ} {t : τ}

/-- What a step makes of the state. -/
inductive Proceeds (s : ProxyState τ) : ProxyStep τ → ProxyState τ → Prop
  | accept {connfd : ℤ} (hm : s.buffer.main = .idle) : Proceeds s (.accept connfd) { s with
      buffer := { s.buffer with main := .pSlots connfd }
      accepted := s.accepted ++ [connfd] }
  | main {buffer : BufferState τ} (hn : produceNext s.buffer = some buffer) :
      Proceeds s .main { s with buffer := buffer }
  | consume {t : τ} {buffer : BufferState τ} (ht : s.thread t = .consume)
      (hn : consumeNext s.buffer t = some buffer) : Proceeds s (.consume t)
        ({ s with buffer := buffer }.goto t ((s.buffer.worker t).returned.elim .consume .doit))
  | request {t : τ} {connfd : ℤ} {url : List UInt8} {cache : CacheState τ}
      (ht : s.thread t = .doit connfd)
      (hn : (cacheSystem τ).next s.cache (.request t url) = some cache) :
      Proceeds s (.request t url) (s.serving t connfd cache)
  | reject {t : τ} {connfd : ℤ} (ht : s.thread t = .doit connfd) :
      Proceeds s (.reject t) (s.goto t (.close connfd))
  | reply {t : τ} {connfd : ℤ} {chunks : List (List UInt8)} {cache : CacheState τ}
      (ht : s.thread t = .serve connfd)
      (hn : (cacheSystem τ).next s.cache (.reply t chunks) = some cache) :
      Proceeds s (.reply t chunks) (s.serving t connfd cache)
  | run {t : τ} {connfd : ℤ} {cache : CacheState τ} (ht : s.thread t = .serve connfd)
      (hn : (cacheSystem τ).next s.cache (.run t) = some cache) :
      Proceeds s (.run t) (s.serving t connfd cache)
  | close {t : τ} {connfd : ℤ} (ht : s.thread t = .close connfd) :
      Proceeds s (.close t) ({ s with closed := s.closed ++ [connfd] }.goto t .consume)

/-- **Every step** is one of these. -/
theorem proceeds_of_next (hn : (proxySystem τ).next s i = some s') : Proceeds s i s' := by
  cases i with
  | accept connfd =>
    obtain ⟨buffer, hb, rfl⟩ := Option.map_eq_some_iff.1 hn
    obtain ⟨hm, rfl⟩ := accept_of_next hb
    exact .accept hm
  | main =>
    obtain ⟨buffer, hb, rfl⟩ := Option.map_eq_some_iff.1 hn
    exact .main hb
  | consume t | request t url | reject t | reply t chunks | run t | close t =>
    simp only [proxySystem, threadNext] at hn
    cases ht : s.thread t <;> simp only [ht, reduceCtorEq] at hn
    first
      | obtain ⟨c, hc, rfl⟩ := Option.map_eq_some_iff.1 hn
        constructor <;> assumption
      | obtain rfl := Option.some.inj hn
        constructor
        assumption

/-! ### What is left to do -/

/-- The steps that are left of `produce`, and those of a worker for the item it has not put. -/
def ProducePc.rank : ProducePc → ℕ
  | .idle => 0
  | .vItems => 1
  | .vMutex => 2
  | .put _ => 29
  | .pMutex _ => 30
  | .pSlots _ => 31

/-- The steps that are left of `consume`, and those for the item it has taken. -/
def ConsumePc.rank : ConsumePc → ℕ
  | .idle => 3
  | .pItems => 2
  | .pMutex => 1
  | .take => 0
  | .vMutex _ => 25
  | .vSlots _ => 24

/-- The steps that are left in the cache. -/
def WorkerPc.rank : WorkerPc → ℕ
  | .idle => 0
  | .left | .vWriter => 1
  | .last | .store .. => 2
  | .countOut | .pWriter .. => 3
  | .leave | .scan _ => 4
  | .send .. | .fetch _ => 5
  | .entered .. => 6
  | .first .. => 7
  | .countIn .. => 8
  | .enter .. => 9
  | .lookup _ => 10

/-- The steps that are left for the connection that the worker has. -/
def ThreadPc.rank : ThreadPc → ℕ
  | .consume => 0
  | .close _ => 1
  | .serve _ => 2
  | .doit _ => 20

/-- The connections in the ring. -/
def BufferState.waiting (s : BufferState τ) : ℕ := (puts s.log).length - (takes s.log).length

variable [Fintype τ]

/-- The steps that are left for the connections accepted so far. -/
def ProxyState.rank (s : ProxyState τ) : ℕ :=
  s.buffer.main.rank + 26 * s.buffer.waiting + total ThreadPc.rank s.thread +
    total ConsumePc.rank s.buffer.worker + total WorkerPc.rank s.cache.worker

omit [DecidableEq τ] [Fintype τ] in
/-- A line of `produce`. -/
theorem produceNext_rank {b b' : BufferState τ} (hn : produceNext b = some b')
    (hle : (takes b.log).length ≤ (puts b.log).length) :
    b'.worker = b.worker ∧ takes b'.log = takes b.log ∧
      b'.main.rank + 26 * b'.waiting < b.main.rank + 26 * b.waiting := by
  have hp := produces_of_next hn
  generalize hm : b.main = x at hp
  cases hp with
  | put =>
    refine ⟨rfl, takes_concat_put .., ?_⟩
    simp only [BufferState.waiting, puts_concat_put, takes_concat_put, List.length_append,
      List.length_singleton, ProducePc.rank]
    omega
  | pSlots | pMutex | vMutex | vItems =>
    refine ⟨rfl, rfl, ?_⟩
    simp only [BufferState.waiting, ProducePc.rank]
    omega

omit [Fintype τ] in
/-- A line of `consume`. -/
theorem consumeNext_rank {b b' : BufferState τ} (hn : consumeNext b t = some b')
    (hlt : b.worker t = .take → (takes b.log).length < (puts b.log).length) :
    b'.main = b.main ∧ puts b'.log = puts b.log ∧ ∃ x, b'.worker = Function.update b.worker t x ∧
      x.rank + 26 * b'.waiting + ((b.worker t).returned.elim ThreadPc.consume .doit).rank <
        (b.worker t).rank + 26 * b.waiting := by
  have hc := consumes_of_next hn
  generalize hw : b.worker t = x at hc hlt
  cases hc with
  | take =>
    have := hlt rfl
    refine ⟨rfl, puts_concat_take .., _, rfl, ?_⟩
    simp only [BufferState.waiting, puts_concat_take, takes_concat_take, List.length_append,
      List.length_singleton, ConsumePc.rank, ConsumePc.returned, Option.elim_none, ThreadPc.rank]
    omega
  | idle | pItems | pMutex | vMutex | vSlots =>
    refine ⟨rfl, rfl, _, rfl, ?_⟩
    simp only [BufferState.waiting, ConsumePc.rank, ConsumePc.returned, Option.elim_none,
      Option.elim_some, ThreadPc.rank]
    omega

omit [Fintype τ] in
/-- A line of `doit` in the cache. -/
theorem workerNext_rank {c c' : CacheState τ} (hn : workerNext c t = some c') :
    ∃ x, c'.worker = Function.update c.worker t x ∧ x.rank < (c.worker t).rank := by
  have hr := runs_of_workerNext hn
  generalize c.worker t = x at hr
  cases hr <;> exact ⟨_, rfl, by simp [WorkerPc.rank]⟩

/-! ### Who has a connection -/

/-- The connection that `produce` has been given and has not put. -/
def ProducePc.pending : ProducePc → List ℤ
  | .pSlots item | .pMutex item | .put item => [item]
  | _ => []

/-- The connection that `consume` has taken and has not returned. -/
def ConsumePc.holding : ConsumePc → List ℤ
  | .vMutex item | .vSlots item => [item]
  | _ => []

/-- The connection that the worker serves. -/
def ThreadPc.holding : ThreadPc → List ℤ
  | .consume => []
  | .doit connfd | .serve connfd | .close connfd => [connfd]

/-- The parts of the proxy fit together, and each connection is at one place. -/
structure Going (s : ProxyState τ) : Prop where
  buffer : (bufferSystem τ).Reach s.buffer
  cache : (cacheSystem τ).Reach s.cache
  consume : ∀ t, s.thread t ≠ .consume → s.buffer.worker t = .idle
  serve : ∀ t, s.cache.worker t = .idle ↔ ∀ connfd, s.thread t ≠ .serve connfd
  accepted : s.accepted = puts s.buffer.log ++ s.buffer.main.pending
  held : ∀ v, (takes s.buffer.log).count v =
    s.closed.count v + total (fun x => x.holding.count v) s.thread +
      total (fun x => x.holding.count v) s.buffer.worker

omit [DecidableEq τ] [Fintype τ] in
theorem produceNext_puts {b b' : BufferState τ} (hn : produceNext b = some b') :
    puts b'.log ++ b'.main.pending = puts b.log ++ b.main.pending := by
  have hp := produces_of_next hn
  generalize hm : b.main = x at hp
  cases hp <;> simp [ProducePc.pending]

omit [Fintype τ] in
/-- `consume` takes a connection and returns it. -/
theorem consumeNext_holding {b b' : BufferState τ} (hn : consumeNext b t = some b') :
    ∃ x, b'.worker = Function.update b.worker t x ∧
      ((b.worker t).returned ≠ none → x = .idle) ∧
      ∀ v, (takes b'.log).count v + (b.worker t).holding.count v =
        (takes b.log).count v + x.holding.count v +
          ((b.worker t).returned.elim ThreadPc.consume .doit).holding.count v := by
  have hc := consumes_of_next hn
  generalize hw : b.worker t = x at hc
  cases hc with
  | take =>
    refine ⟨_, rfl, fun h => absurd rfl h, fun v => ?_⟩
    simp only [takes_concat_take, List.count_append, ConsumePc.holding, ConsumePc.returned,
      Option.elim_none, ThreadPc.holding, List.count_nil]
  | idle | pItems | pMutex | vMutex => exact ⟨_, rfl, fun h => absurd rfl h, fun v => rfl⟩
  | vSlots => exact ⟨_, rfl, fun _ => rfl, fun v => rfl⟩

/-- A worker in `doit`. -/
theorem Going.serving (h : Going s) {connfd : ℤ} {i : CacheStep τ} {cache : CacheState τ}
    {x : WorkerPc} (hthread : s.thread t = .doit connfd ∨ s.thread t = .serve connfd)
    (hn : (cacheSystem τ).next s.cache i = some cache)
    (hx : cache.worker = Function.update s.cache.worker t x) :
    Going (s.serving t connfd cache) := by
  have hhold : (s.thread t).holding = [connfd] ∧ s.thread t ≠ .consume := by
    rcases hthread with ht | ht <;> rw [ht] <;> exact ⟨rfl, by simp⟩
  refine ⟨h.buffer, h.cache.step hn, fun u hu => ?_, fun u => ?_, h.accepted, fun v => ?_⟩
  · by_cases hut : u = t
    · exact hut ▸ h.consume t hhold.2
    · exact h.consume u (by simpa [ProxyState.serving, ProxyState.goto, hut] using hu)
  · by_cases hut : u = t
    · subst hut
      by_cases hi : cache.worker u = .idle <;> simp [ProxyState.serving, ProxyState.goto, hi]
    · have hsame : cache.worker u = s.cache.worker u := by rw [hx, Function.update_of_ne hut]
      simpa [ProxyState.serving, ProxyState.goto, hut, hsame] using h.serve u
  · have hsum := total_update (fun x : ThreadPc => x.holding.count v) s.thread t
      (if cache.worker t = .idle then .close connfd else .serve connfd)
    have hnew : (if cache.worker t = .idle then ThreadPc.close connfd
        else .serve connfd).holding = [connfd] := by split_ifs <;> rfl
    have hheld := h.held v
    simp only [hhold.1, hnew] at hsum
    simp only [ProxyState.serving, ProxyState.goto]
    omega

omit [Fintype τ] in
/-- The steps of a worker in the cache. -/
theorem cache_next {c c' : CacheState τ} {i : CacheStep τ}
    (hi : (∃ url, i = .request t url) ∨ (∃ chunks, i = .reply t chunks) ∨ i = .run t)
    (hn : (cacheSystem τ).next c i = some c') :
    ∃ x, c'.worker = Function.update c.worker t x ∧
      (x.rank < (c.worker t).rank ∨ x.rank = 10 ∧ c.worker t = .idle) := by
  rcases hi with ⟨url, rfl⟩ | ⟨chunks, rfl⟩ | rfl
  · simp only [cacheSystem, Option.ite_none_right_eq_some, Option.some.injEq] at hn
    obtain ⟨hidle, rfl⟩ := hn
    exact ⟨_, rfl, .inr ⟨rfl, hidle⟩⟩
  · simp only [cacheSystem] at hn
    split at hn
    · next url ht =>
      obtain rfl := Option.some.inj hn
      exact ⟨_, rfl, .inl (by rw [ht]; simp [WorkerPc.rank])⟩
    · exact absurd hn (by simp)
  · obtain ⟨x, hx, hlt⟩ := workerNext_rank hn
    exact ⟨x, hx, .inl hlt⟩

/-- The worker goes on in `proxy_thread` with another connection, or none. -/
theorem total_goto (w : ThreadPc → ℕ) (s : ProxyState τ) (t : τ) (x : ThreadPc) :
    total w (s.goto t x).thread + w (s.thread t) = total w s.thread + w x :=
  total_update ..

/-- A worker goes on outside the cache. -/
theorem Going.leave (h : Going s) {x : ThreadPc} (closed : List ℤ) (hc : s.thread t ≠ .consume)
    (hs : ∀ c, s.thread t ≠ .serve c) (hx : ∀ c, x ≠ .serve c)
    (hcount : ∀ v, closed.count v + x.holding.count v =
      s.closed.count v + (s.thread t).holding.count v) :
    Going ({ s with closed := closed }.goto t x) := by
  refine ⟨h.buffer, h.cache, fun u hu => ?_, fun u => ?_, h.accepted, fun v => ?_⟩
  · by_cases hut : u = t
    · exact hut ▸ h.consume t hc
    · exact h.consume u (by simpa [ProxyState.goto, hut] using hu)
  · by_cases hut : u = t
    · subst hut
      simpa [ProxyState.goto, hs, hx] using h.serve u
    · simpa [ProxyState.goto, hut] using h.serve u
  · have hthread := total_goto (fun x => x.holding.count v) { s with closed := closed } t x
    have hheld := h.held v
    have hnow := hcount v
    show (takes s.buffer.log).count v =
      closed.count v + total _ ({ s with closed := closed }.goto t x).thread +
      total _ s.buffer.worker
    simp only at hthread
    omega

/-- A line of `produce` in the main thread. -/
theorem Going.produced (h : Going s) {buffer : BufferState τ}
    (hn : produceNext s.buffer = some buffer) : Going { s with buffer := buffer } := by
  have hbuffer : (bufferSystem τ).Reach buffer := h.buffer.step (i := .main) hn
  have hsame : buffer.worker = s.buffer.worker ∧ takes buffer.log = takes s.buffer.log := by
    have hp := produces_of_next hn
    generalize s.buffer.main = x at hp
    cases hp <;> first | exact ⟨rfl, rfl⟩ | exact ⟨rfl, takes_concat_put ..⟩
  refine ⟨hbuffer, h.cache, fun t ht => ?_, h.serve, ?_, fun v => ?_⟩
  · exact (congrFun hsame.1 t).trans (h.consume t ht)
  · exact h.accepted.trans (produceNext_puts hn).symm
  · show (takes buffer.log).count v = _ + total _ buffer.worker
    rw [hsame.1, hsame.2]
    exact h.held v

/-- A line of `consume` in a worker. -/
theorem Going.consumed (h : Going s) {buffer : BufferState τ} (ht : s.thread t = .consume)
    (hn : consumeNext s.buffer t = some buffer) :
    Going ({ s with buffer := buffer }.goto t
      ((s.buffer.worker t).returned.elim .consume .doit)) := by
  obtain ⟨x, hx, hidle, hcount⟩ := consumeNext_holding hn
  have hbuffer : (bufferSystem τ).Reach buffer := h.buffer.step (i := .worker t) hn
  have hmain : puts buffer.log = puts s.buffer.log ∧ buffer.main = s.buffer.main := by
    have hc := consumes_of_next hn
    generalize s.buffer.worker t = y at hc
    cases hc <;> first | exact ⟨rfl, rfl⟩ | exact ⟨puts_concat_take .., rfl⟩
  refine ⟨hbuffer, h.cache, fun u hu => ?_, fun u => ?_, ?_, fun v => ?_⟩
  · show buffer.worker u = .idle
    by_cases hut : u = t
    · subst hut
      rw [hx, Function.update_self]
      refine hidle fun hnone => hu ?_
      simp [ProxyState.goto, hnone]
    · rw [hx, Function.update_of_ne hut]
      exact h.consume u (by simpa [ProxyState.goto, hut] using hu)
  · by_cases hut : u = t
    · subst hut
      have hserve := h.serve u
      rw [ht] at hserve
      cases (s.buffer.worker u).returned <;> simpa [ProxyState.goto] using hserve
    · simpa [ProxyState.goto, hut] using h.serve u
  · show s.accepted = puts buffer.log ++ buffer.main.pending
    rw [hmain.1, hmain.2, h.accepted]
  · have hheld := h.held v
    have hnow := hcount v
    have hthread := total_goto (fun x => x.holding.count v) { s with buffer := buffer } t
      ((s.buffer.worker t).returned.elim .consume .doit)
    have hworker := total_update (fun x : ConsumePc => x.holding.count v) s.buffer.worker t x
    have hnone : (s.thread t).holding.count v = 0 := by rw [ht]; rfl
    rw [← hx] at hworker
    show (takes buffer.log).count v = s.closed.count v +
      total (fun x => x.holding.count v) ({ s with buffer := buffer }.goto t _).thread +
        total (fun x => x.holding.count v) buffer.worker
    simp only at hthread hworker
    omega

/-- **Every step** keeps each connection at one place. -/
theorem Going.step (h : Going s) (hn : (proxySystem τ).next s i = some s') : Going s' := by
  cases proceeds_of_next hn with
  | @accept connfd hm =>
    have hb : (bufferSystem τ).next s.buffer (.accept connfd) =
        some { s.buffer with main := .pSlots connfd } := by simp only [bufferSystem, hm]
    refine ⟨h.buffer.step hb, h.cache, h.consume, h.serve, ?_, h.held⟩
    show s.accepted ++ [connfd] = puts s.buffer.log ++ [connfd]
    rw [h.accepted, hm]
    simp [ProducePc.pending]
  | @main buffer hb => exact h.produced hb
  | @consume t buffer ht hb => exact h.consumed ht hb
  | @request t connfd url cache ht hc =>
    obtain ⟨x, hx, -⟩ := cache_next (.inl ⟨url, rfl⟩) hc
    exact h.serving (.inl ht) hc hx
  | @reply t connfd chunks cache ht hc =>
    obtain ⟨x, hx, -⟩ := cache_next (.inr (.inl ⟨chunks, rfl⟩)) hc
    exact h.serving (.inr ht) hc hx
  | @run t connfd cache ht hc =>
    obtain ⟨x, hx, -⟩ := cache_next (.inr (.inr rfl)) hc
    exact h.serving (.inr ht) hc hx
  | @reject t connfd ht =>
    exact h.leave s.closed (by simp [ht]) (by simp [ht]) (by simp)
      fun v => by rw [ht]; rfl
  | @close t connfd ht =>
    refine h.leave _ (by simp [ht]) (by simp [ht]) (by simp) fun v => ?_
    rw [ht, List.count_append]
    rfl

theorem going_of_reach (h : (proxySystem τ).Reach s) : Going s := by
  refine h.induct (P := Going) ?_ fun s i s' _ ih _ hn => ih.step hn
  rintro s rfl
  refine ⟨.init rfl, .init rfl, fun t ht => absurd rfl ht, fun t => ?_, rfl, fun v => ?_⟩
  · simp [proxyStart, cacheStart]
  · simp [proxyStart, bufferStart, total, takes, ThreadPc.holding, ConsumePc.holding]

/-- The ring, as long as its counters have not wrapped around. -/
theorem Going.waiting (h : Going s) (hb : s.accepted.length < 2 ^ 31) :
    ∃ q, Waiting s.buffer q := by
  refine exists_waiting h.buffer (lt_of_le_of_lt ?_ hb)
  rw [h.accepted, List.length_append]
  exact Nat.le_add_right _ _

/-! ### Where the connections are -/

/-- The connections that the worker has, from `consume` on. -/
def ProxyState.hands (s : ProxyState τ) (t : τ) : List ℤ :=
  (s.thread t).holding ++ (s.buffer.worker t).holding

theorem ConsumePc.length_holding (x : ConsumePc) : x.holding.length ≤ 1 := by
  cases x <;> simp [ConsumePc.holding]

/-- A worker has at most one connection. -/
theorem Going.length_hands (h : Going s) (t : τ) : (s.hands t).length ≤ 1 := by
  rw [ProxyState.hands]
  cases ht : s.thread t with
  | consume => exact (s.buffer.worker t).length_holding
  | doit connfd | serve connfd | close connfd =>
    have hidle : s.buffer.worker t = .idle := h.consume t (by simp [ht])
    rw [hidle]
    rfl

/-- **No connection is lost or served twice.**  As long as fewer than `2 ^ 31` were accepted, the
connections accepted are, in order, those that were taken out of the ring, at most `BUFFER_SIZE`
in the ring and the one that is to be put; and those taken out are the ones closed and the ones
that the workers have, at most one each. -/
theorem connections_kept (h : (proxySystem τ).Reach s) (hb : s.accepted.length < 2 ^ 31) :
    ∃ taken q, s.accepted = taken ++ q ++ s.buffer.main.pending ∧ q.length ≤ BUFFER_SIZE ∧
      (taken : Multiset ℤ) = s.closed + ∑ t, (s.hands t : Multiset ℤ) ∧
        ∀ t, (s.hands t).length ≤ 1 := by
  have hgoing := going_of_reach h
  obtain ⟨q, hq⟩ := hgoing.waiting hb
  have hslots := hq.slots
  refine ⟨takes s.buffer.log, q, ?_, by omega, ?_, hgoing.length_hands⟩
  · rw [hgoing.accepted, hq.puts]
  · refine Multiset.ext.2 fun v => ?_
    have hheld := hgoing.held v
    simp only [total] at hheld
    simp only [Multiset.count_add, Multiset.count_sum', Multiset.coe_count, ProxyState.hands,
      List.count_append, Finset.sum_add_distrib]
    omega

/-! ### Every run ends -/

/-- The worker goes on in `proxy_thread`. -/
theorem rank_goto (s : ProxyState τ) (t : τ) (x : ThreadPc) :
    (s.goto t x).rank + (s.thread t).rank = s.rank + x.rank := by
  have hthread := total_goto ThreadPc.rank s t x
  simp only [ProxyState.rank, ProxyState.goto] at hthread ⊢
  omega

/-- A worker in `doit` has less to do. -/
theorem Going.serving_rank (h : Going s) {connfd : ℤ} {cache : CacheState τ} {x : WorkerPc}
    (hthread : s.thread t = .doit connfd ∨ s.thread t = .serve connfd)
    (hx : cache.worker = Function.update s.cache.worker t x)
    (hrank : x.rank < (s.cache.worker t).rank ∨ x.rank = 10 ∧ s.cache.worker t = .idle) :
    (s.serving t connfd cache).rank < s.rank := by
  have hcache := total_update WorkerPc.rank s.cache.worker t x
  have hgoto := rank_goto { s with cache := cache } t
    (if cache.worker t = WorkerPc.idle then .close connfd else .serve connfd)
  have hnew : (if cache.worker t = WorkerPc.idle then ThreadPc.close connfd
      else .serve connfd).rank ≤ 2 := by split_ifs <;> simp [ThreadPc.rank]
  have hless : 2 + x.rank < (s.thread t).rank + (s.cache.worker t).rank := by
    rcases hthread with ht | ht
    · have hidle : s.cache.worker t = .idle := (h.serve t).2 (by simp [ht])
      rw [hidle] at hrank ⊢
      rw [ht]
      simp only [WorkerPc.rank, ThreadPc.rank] at hrank ⊢
      omega
    · have hbusy : s.cache.worker t ≠ .idle := fun hidle => (h.serve t).1 hidle connfd ht
      have := hrank.resolve_right fun hr => hbusy hr.2
      rw [ht, ThreadPc.rank]
      omega
  have hstay : { s with cache := cache }.rank + total WorkerPc.rank s.cache.worker =
      s.rank + total WorkerPc.rank cache.worker := by
    simp only [ProxyState.rank]
    omega
  rw [← hx] at hcache
  simp only [ProxyState.serving] at hgoto ⊢
  omega

/-- A worker in `consume` has less to do; a connection waits where it takes one. -/
theorem Waiting.consumed_rank {q : List ℤ} (hq : Waiting s.buffer q) {buffer : BufferState τ}
    (ht : s.thread t = .consume) (hn : Proxy.consumeNext s.buffer t = some buffer) :
    ({ s with buffer := buffer }.goto t
      ((s.buffer.worker t).returned.elim .consume .doit)).rank < s.rank := by
  obtain ⟨hmain, -, x, hx, hlt⟩ := consumeNext_rank hn fun hw => by
    have hle := le_total ConsumePc.entitled s.buffer.worker t
    have hitems := hq.items
    have hputs : (Proxy.puts s.buffer.log).length = (takes s.buffer.log).length + q.length := by
      rw [hq.puts, List.length_append]
    rw [hw, ConsumePc.entitled] at hle
    omega
  have hworker := total_update ConsumePc.rank s.buffer.worker t x
  have hgoto := rank_goto { s with buffer := buffer } t
    ((s.buffer.worker t).returned.elim .consume .doit)
  have hzero : (s.thread t).rank = 0 := by rw [ht]; rfl
  have hbuffer : { s with buffer := buffer }.rank + 26 * s.buffer.waiting +
      total ConsumePc.rank s.buffer.worker =
        s.rank + 26 * buffer.waiting + total ConsumePc.rank buffer.worker := by
    simp only [ProxyState.rank, hmain]
    omega
  rw [← hx] at hworker
  simp only at hgoto
  omega

/-- **Every step** but a new connection leaves less to do. -/
theorem Going.rank_lt (h : Going s) (hb : s.accepted.length < 2 ^ 31)
    (hi : ∀ connfd, i ≠ .accept connfd) (hn : (proxySystem τ).next s i = some s') :
    s'.accepted = s.accepted ∧ s'.rank < s.rank := by
  obtain ⟨q, hq⟩ := h.waiting hb
  cases proceeds_of_next hn with
  | @accept connfd hm => exact absurd rfl (hi connfd)
  | @main buffer hb =>
    obtain ⟨hworker, -, hlt⟩ := produceNext_rank hb (by rw [hq.puts, List.length_append]; omega)
    refine ⟨rfl, ?_⟩
    simp only [ProxyState.rank, hworker]
    omega
  | @consume t buffer ht hb => exact ⟨rfl, hq.consumed_rank ht hb⟩
  | @request t connfd url cache ht hc =>
    obtain ⟨x, hx, hrank⟩ := cache_next (.inl ⟨url, rfl⟩) hc
    exact ⟨rfl, h.serving_rank (.inl ht) hx hrank⟩
  | @reply t connfd chunks cache ht hc =>
    obtain ⟨x, hx, hrank⟩ := cache_next (.inr (.inl ⟨chunks, rfl⟩)) hc
    exact ⟨rfl, h.serving_rank (.inr ht) hx hrank⟩
  | @run t connfd cache ht hc =>
    obtain ⟨x, hx, hrank⟩ := cache_next (.inr (.inr rfl)) hc
    exact ⟨rfl, h.serving_rank (.inr ht) hx hrank⟩
  | @reject t connfd ht =>
    have hgoto := rank_goto s t (.close connfd)
    rw [ht, ThreadPc.rank, ThreadPc.rank] at hgoto
    exact ⟨rfl, by omega⟩
  | @close t connfd ht =>
    have hgoto : ({ s with closed := s.closed ++ [connfd] }.goto t .consume).rank +
        (s.thread t).rank = s.rank + 0 :=
      rank_goto { s with closed := s.closed ++ [connfd] } t .consume
    rw [ht, ThreadPc.rank] at hgoto
    exact ⟨rfl, by omega⟩

/-! ### Where a run ends -/

/-- The ring stands still: nothing waits in it, and no thread is in it. -/
theorem Waiting.still [Nonempty τ] {b : BufferState τ} {q : List ℤ} (hq : Waiting b q)
    (hmain : Proxy.produceNext b = none) (hworker : ∀ t, Proxy.consumeNext b t = none) :
    b.main = .idle ∧ q = [] ∧ ∀ t, b.worker t = .pItems := by
  have hat : ∀ t, b.worker t = .pItems ∧ b.items = 0 ∨ b.worker t = .pMutex ∧ b.mutex = 0 := by
    intro t
    have hn := hworker t
    cases hw : b.worker t <;> simp [Proxy.consumeNext, hw] at hn ⊢ <;> exact hn
  have hin : total ConsumePc.inside b.worker = 0 :=
    total_eq_zero.2 fun t => by rcases hat t with ⟨hw, -⟩ | ⟨hw, -⟩ <;> rw [hw] <;> rfl
  have howing : total ConsumePc.owing b.worker = 0 :=
    total_eq_zero.2 fun t => by rcases hat t with ⟨hw, -⟩ | ⟨hw, -⟩ <;> rw [hw] <;> rfl
  have hout : b.main.inside = 0 ∧ b.main.unannounced = 0 := by
    cases hm : b.main <;> simp [Proxy.produceNext, hm] at hmain <;> exact ⟨rfl, rfl⟩
  have hmutex := hq.mutex
  have hall : ∀ t, b.worker t = .pItems ∧ b.items = 0 := fun t =>
    (hat t).resolve_right fun hw => by omega
  have hent : total ConsumePc.entitled b.worker = 0 :=
    total_eq_zero.2 fun t => by rw [(hall t).1]; rfl
  have hitems := hq.items
  obtain ⟨t⟩ := ‹Nonempty τ›
  have hnil : q.length = 0 := by have := (hall t).2; omega
  refine ⟨?_, List.length_eq_zero_iff.1 hnil, fun t => (hall t).1⟩
  have hslots := hq.slots
  rw [BUFFER_SIZE] at hslots
  cases hm : b.main with
  | idle => rfl
  | pSlots item | pMutex item =>
    simp only [Proxy.produceNext, hm, ite_eq_right_iff, reduceCtorEq, imp_false] at hmain
    simp only [hm, ProducePc.reserved] at hslots
    omega
  | put item | vMutex | vItems => simp [Proxy.produceNext, hm] at hmain

/-- No worker is in `doit` where the proxy stands still. -/
theorem Going.consuming (h : Going s)
    (hnone : ∀ i, (∀ connfd, i ≠ .accept connfd) → (proxySystem τ).next s i = none) (t : τ) :
    s.thread t = .consume := by
  -- a worker in the cache: one of them can go on
  have hserve : ∀ u, s.cache.worker u = .idle := by
    by_contra hbusy
    push Not at hbusy
    obtain ⟨u, hu⟩ := hbusy
    obtain ⟨v, hv, hfree⟩ := (locked_of_reach h.cache).exists_not_blocked hu
    obtain ⟨connfd, ht⟩ : ∃ connfd, s.thread v = .serve connfd := by
      by_contra hno
      push Not at hno
      exact hv ((h.serve v).2 hno)
    by_cases hf : ∃ url, s.cache.worker v = .fetch url
    · obtain ⟨url, hf⟩ := hf
      have hn := hnone (.reply v []) (by simp)
      simp [proxySystem, threadNext, ht, cacheSystem, hf] at hn
    · push Not at hf
      have hrun := workerNext_isSome hfree hv hf
      have hn := hnone (.run v) (by simp)
      simp only [proxySystem, threadNext, ht, cacheSystem, Option.map_eq_none_iff] at hn
      rw [hn] at hrun
      exact absurd hrun (by simp)
  cases ht : s.thread t with
  | consume => rfl
  | serve connfd => exact absurd ht ((h.serve t).1 (hserve t) connfd)
  | doit connfd =>
    have hn := hnone (.reject t) (by simp)
    simp [proxySystem, threadNext, ht] at hn
  | close connfd =>
    have hn := hnone (.close t) (by simp)
    simp [proxySystem, threadNext, ht] at hn

/-- **Where the proxy stands still**, each connection has been closed once. -/
theorem Going.settled [Nonempty τ] (h : Going s) (hb : s.accepted.length < 2 ^ 31)
    (hnone : ∀ i, (∀ connfd, i ≠ .accept connfd) → (proxySystem τ).next s i = none) :
    s.closed.Perm s.accepted := by
  have hthread := h.consuming hnone
  obtain ⟨q, hq⟩ := h.waiting hb
  have hmain : produceNext s.buffer = none := by
    simpa [proxySystem] using hnone .main (by simp)
  have hworker : ∀ t, consumeNext s.buffer t = none := fun t => by
    simpa [proxySystem, threadNext, hthread t] using hnone (.consume t) (by simp)
  obtain ⟨hidle, rfl, hitems⟩ := hq.still hmain hworker
  rw [List.perm_iff_count]
  intro v
  have hheld := h.held v
  have hnothread : total (fun x => x.holding.count v) s.thread = 0 :=
    total_eq_zero.2 fun t => by rw [hthread t]; rfl
  have hnoworker : total (fun x => x.holding.count v) s.buffer.worker = 0 :=
    total_eq_zero.2 fun t => by rw [hitems t]; rfl
  have hpending : ProducePc.idle.pending = [] := rfl
  rw [h.accepted, hidle, hq.puts, hpending, List.append_nil, List.append_nil]
  omega

/-- What is left to do depends on the number of workers only. -/
theorem Going.rank_le (h : Going s) (hb : s.accepted.length < 2 ^ 31) :
    s.rank ≤ 863 + 55 * Fintype.card τ := by
  obtain ⟨q, hq⟩ := h.waiting hb
  have hmain : s.buffer.main.rank ≤ 31 := by cases s.buffer.main <;> simp [ProducePc.rank]
  have hwaiting : s.buffer.waiting ≤ 32 := by
    have hslots := hq.slots
    rw [BufferState.waiting, hq.puts, List.length_append]
    rw [BUFFER_SIZE] at hslots
    omega
  have hthread : total ThreadPc.rank s.thread ≤ Fintype.card τ * 20 :=
    total_le (fun x => by cases x <;> simp [ThreadPc.rank]) _
  have hring : total ConsumePc.rank s.buffer.worker ≤ Fintype.card τ * 25 :=
    total_le (fun x => by cases x <;> simp [ConsumePc.rank]) _
  have hcache : total WorkerPc.rank s.cache.worker ≤ Fintype.card τ * 10 :=
    total_le (fun x => by cases x <;> simp [WorkerPc.rank]) _
  rw [ProxyState.rank]
  omega

/-- Two connections are accepted, and a worker has read the request of the first. -/
def twoConnections : ProxyState (Fin 2) :=
  ((proxySystem (Fin 2)).run (proxyStart (Fin 2)) ([.accept 4] ++ List.replicate 5 .main ++
    List.replicate 6 (.consume w₀) ++ [.request w₀ [117], .accept 5] ++
      List.replicate 5 .main)).getD (proxyStart (Fin 2))

theorem connections_kept_two : ∃ taken q,
    twoConnections.accepted = taken ++ q ++ twoConnections.buffer.main.pending ∧
      q.length ≤ BUFFER_SIZE ∧
        (taken : Multiset ℤ) =
          twoConnections.closed + ∑ t, (twoConnections.hands t : Multiset ℤ) ∧
            ∀ t, (twoConnections.hands t).length ≤ 1 :=
  connections_kept (.getD_run (.init rfl) _) (by decide)

/-- The other worker rejects the second connection, while the first waits for the server. -/
def rest : List (ProxyStep (Fin 2)) :=
  [.run w₀] ++ List.replicate 6 (.consume w₁) ++ [.reject w₁, .close w₁, .reply w₀ [[1]]] ++
    List.replicate 4 (.run w₀) ++ [.close w₀, .consume w₀, .consume w₁]

/-- The state after it. -/
def served : ProxyState (Fin 2) := ((proxySystem (Fin 2)).run twoConnections rest).get (by decide)

end Proxy
end CsappLabs
