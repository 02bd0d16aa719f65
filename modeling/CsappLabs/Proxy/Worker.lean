/-
# The workers on the cache

Any number of `proxy_thread`s run `doit` of `proxylab/proxy.c` on one cache.
Every `P` and `V`, the unlocked lookup, each statement on `readcnt`, the send,
the unlocked choice of a line and the locked section of `write_cache` are steps
of their own, so any two of them of different workers can come between each
other.

`writes` lists the executed sections of `write_cache`.  It plays no part in the
steps.

The second half is about the locks alone: the semaphores and `readcnt` are
accounted for by the places of the workers (`Locked`), so a writer excludes
readers and writers, and the workers never all wait.
-/

import CsappLabs.Lib.System
import CsappLabs.Lib.Threads
import CsappLabs.Proxy.Cache

namespace CsappLabs
namespace Proxy

open Lib Lib.Threads

/-- Where a worker is: outside the cache code, or before one of its lines. -/
inductive WorkerPc where
  | idle
  /-- `find_cache_hit(url)` -/
  | lookup (url : List UInt8)
  /-- `P(&cache.mutex)` of the reader entry -/
  | enter (idx : Fin CACHE_LINE) (url : List UInt8)
  /-- `cache.readcnt++` -/
  | countIn (idx : Fin CACHE_LINE) (url : List UInt8)
  /-- `if (cache.readcnt == 1) P(&cache.writer)` -/
  | first (idx : Fin CACHE_LINE) (url : List UInt8)
  /-- `V(&cache.mutex)` of the reader entry -/
  | entered (idx : Fin CACHE_LINE) (url : List UInt8)
  /-- `Rio_writen(clientfd, cache.line[idx].buf, cache.line[idx].size)` -/
  | send (idx : Fin CACHE_LINE) (url : List UInt8)
  /-- `P(&cache.mutex)` of the reader exit -/
  | leave
  /-- `cache.readcnt--` -/
  | countOut
  /-- `if (cache.readcnt == 0) V(&cache.writer)` -/
  | last
  /-- `V(&cache.mutex)` of the reader exit -/
  | left
  /-- the request to the server and its reply -/
  | fetch (url : List UInt8)
  /-- the size test and the two loops of `write_cache` -/
  | scan (w : WriteCall)
  /-- `P(&cache.writer)` -/
  | pWriter (idx : Option (Fin CACHE_LINE)) (w : WriteCall)
  /-- the stores of `write_cache` -/
  | store (idx : Option (Fin CACHE_LINE)) (w : WriteCall)
  /-- `V(&cache.writer)` -/
  | vWriter
  deriving DecidableEq

/-- The cache, its semaphores, the places of the workers, and the executed
sections of `write_cache`. -/
structure CacheState (τ : Type*) extends Cache where
  mutex : ℕ
  writer : ℕ
  worker : τ → WorkerPc
  writes : List WriteCall

/-- A step: a worker gets a request, a worker receives the chunks of a reply, or
a worker runs its next line. -/
inductive CacheStep (τ : Type*) where
  | request (t : τ) (url : List UInt8)
  | reply (t : τ) (chunks : List (List UInt8))
  | run (t : τ)

variable {τ : Type*} [DecidableEq τ]

/-- The worker goes on to `x`. -/
@[simp] def CacheState.goto (s : CacheState τ) (t : τ) (x : WorkerPc) : CacheState τ :=
  { s with worker := Function.update s.worker t x }

/-- One line of worker `t`. -/
def workerNext (s : CacheState τ) (t : τ) : Option (CacheState τ) :=
  match s.worker t with
  | .idle | .fetch _ => none
  | .lookup url =>
      match findCacheHit s.toCache url with
      | some idx => some (s.goto t (.enter idx url))
      | none => some (s.goto t (.fetch url))
  | .enter idx url =>
      if 0 < s.mutex then some ({ s with mutex := s.mutex - 1 }.goto t (.countIn idx url)) else none
  | .countIn idx url => some ({ s with readcnt := s.readcnt + 1 }.goto t (.first idx url))
  | .first idx url =>
      if s.readcnt = 1 then
        if 0 < s.writer then some ({ s with writer := s.writer - 1 }.goto t (.entered idx url))
        else none
      else some (s.goto t (.entered idx url))
  | .entered idx url => some ({ s with mutex := s.mutex + 1 }.goto t (.send idx url))
  | .send _ _ => some (s.goto t .leave)
  | .leave => if 0 < s.mutex then some ({ s with mutex := s.mutex - 1 }.goto t .countOut) else none
  | .countOut => some ({ s with readcnt := s.readcnt - 1 }.goto t .last)
  | .last =>
      if s.readcnt = 0 then some ({ s with writer := s.writer + 1 }.goto t .left)
      else some (s.goto t .left)
  | .left => some ({ s with mutex := s.mutex + 1 }.goto t .idle)
  | .scan w =>
      if w.size > MAX_OBJECT_SIZE then some (s.goto t .idle)
      else some (s.goto t (.pWriter (chooseLine s.toCache) w))
  | .pWriter idx w =>
      if 0 < s.writer then some ({ s with writer := s.writer - 1 }.goto t (.store idx w)) else none
  | .store idx w =>
      some ({ s with
        toCache := writeLine s.toCache idx w
        writes := s.writes ++ [w] }.goto t .vWriter)
  | .vWriter => some ({ s with writer := s.writer + 1 }.goto t .idle)

/-- The state after `cache_init`, all workers waiting for a connection. -/
def cacheStart (τ : Type*) : CacheState τ :=
  { cacheInit with mutex := 1, writer := 1, worker := fun _ => .idle, writes := [] }

/-- The proxy's workers on the cache. -/
def cacheSystem (τ : Type*) [DecidableEq τ] : System (CacheState τ) (CacheStep τ) where
  init s := s = cacheStart τ
  next s
    | .request t url => if s.worker t = .idle then some (s.goto t (.lookup url)) else none
    | .reply t chunks =>
        match s.worker t with
        | .fetch url => some (s.goto t (.scan (bufferReply url chunks)))
        | _ => none
    | .run t => workerNext s t

/-- What a line of worker `t` makes of the state, by the place of the worker. -/
inductive Runs (s : CacheState τ) (t : τ) : WorkerPc → CacheState τ → Prop
  | hit {idx : Fin CACHE_LINE} {url : List UInt8} (hfind : findCacheHit s.toCache url = some idx) :
      Runs s t (.lookup url) (s.goto t (.enter idx url))
  | miss {url : List UInt8} (hfind : findCacheHit s.toCache url = none) :
      Runs s t (.lookup url) (s.goto t (.fetch url))
  | enter {idx : Fin CACHE_LINE} {url : List UInt8} (hpos : 0 < s.mutex) :
      Runs s t (.enter idx url) ({ s with mutex := s.mutex - 1 }.goto t (.countIn idx url))
  | countIn {idx : Fin CACHE_LINE} {url : List UInt8} :
      Runs s t (.countIn idx url) ({ s with readcnt := s.readcnt + 1 }.goto t (.first idx url))
  | first {idx : Fin CACHE_LINE} {url : List UInt8} {writer : ℕ}
      (hw : s.readcnt = 1 ∧ writer + 1 = s.writer ∨ s.readcnt ≠ 1 ∧ writer = s.writer) :
      Runs s t (.first idx url) ({ s with writer := writer }.goto t (.entered idx url))
  | entered {idx : Fin CACHE_LINE} {url : List UInt8} :
      Runs s t (.entered idx url) ({ s with mutex := s.mutex + 1 }.goto t (.send idx url))
  | send {idx : Fin CACHE_LINE} {url : List UInt8} : Runs s t (.send idx url) (s.goto t .leave)
  | leave (hpos : 0 < s.mutex) :
      Runs s t .leave ({ s with mutex := s.mutex - 1 }.goto t .countOut)
  | countOut : Runs s t .countOut ({ s with readcnt := s.readcnt - 1 }.goto t .last)
  | last {writer : ℕ}
      (hw : s.readcnt = 0 ∧ writer = s.writer + 1 ∨ s.readcnt ≠ 0 ∧ writer = s.writer) :
      Runs s t .last ({ s with writer := writer }.goto t .left)
  | left : Runs s t .left ({ s with mutex := s.mutex + 1 }.goto t .idle)
  | drop {w : WriteCall} (hsize : w.size > MAX_OBJECT_SIZE) : Runs s t (.scan w) (s.goto t .idle)
  | scan {w : WriteCall} (hsize : w.size ≤ MAX_OBJECT_SIZE) :
      Runs s t (.scan w) (s.goto t (.pWriter (chooseLine s.toCache) w))
  | pWriter {idx : Option (Fin CACHE_LINE)} {w : WriteCall} (hpos : 0 < s.writer) :
      Runs s t (.pWriter idx w) ({ s with writer := s.writer - 1 }.goto t (.store idx w))
  | store {idx : Option (Fin CACHE_LINE)} {w : WriteCall} :
      Runs s t (.store idx w) ({ s with
        toCache := writeLine s.toCache idx w
        writes := s.writes ++ [w] }.goto t .vWriter)
  | vWriter : Runs s t .vWriter ({ s with writer := s.writer + 1 }.goto t .idle)

/-- **Every line** of a worker is one of these. -/
theorem runs_of_workerNext {s s' : CacheState τ} {t : τ} (hn : workerNext s t = some s') :
    Runs s t (s.worker t) s' := by
  cases ht : s.worker t with
  | idle | fetch url => simp [workerNext, ht] at hn
  | lookup url =>
    simp only [workerNext, ht] at hn
    split at hn <;> obtain rfl := Option.some.inj hn
    · exact .hit ‹_›
    · exact .miss ‹_›
  | first idx url =>
    simp only [workerNext, ht] at hn
    split at hn
    · obtain ⟨hpos, hn⟩ := Option.ite_none_right_eq_some.1 hn
      obtain rfl := Option.some.inj hn
      exact .first (.inl ⟨‹_›, Nat.sub_add_cancel hpos⟩)
    · obtain rfl := Option.some.inj hn
      exact .first (.inr ⟨‹_›, rfl⟩)
  | last =>
    simp only [workerNext, ht] at hn
    split at hn <;> obtain rfl := Option.some.inj hn
    · exact .last (.inl ⟨‹_›, rfl⟩)
    · exact .last (.inr ⟨‹_›, rfl⟩)
  | scan w =>
    simp only [workerNext, ht] at hn
    split at hn <;> obtain rfl := Option.some.inj hn
    · exact .drop ‹_›
    · exact .scan (not_lt.1 ‹_›)
  | enter idx url | leave | pWriter idx w =>
    simp only [workerNext, ht, Option.ite_none_right_eq_some, Option.some.injEq] at hn
    obtain ⟨hpos, rfl⟩ := hn
    constructor
    exact hpos
  | countIn idx url | entered idx url | send idx url | countOut | left | store idx w | vWriter =>
    simp only [workerNext, ht, Option.some.injEq] at hn
    subst hn
    constructor

/-! ### The locks -/

namespace WorkerPc

/-- The worker is between a `P` and a `V` of `cache.mutex`. -/
@[simp] def mutexed : WorkerPc → ℕ
  | countIn .. | first .. | entered .. | countOut | last | left => 1
  | _ => 0

/-- The worker has counted itself in and not out. -/
@[simp] def counted : WorkerPc → ℕ
  | first .. | entered .. | send .. | leave | countOut => 1
  | _ => 0

/-- The worker shares the readers' hold on `cache.writer`: it has passed the
line that takes it and not the line that gives it back. -/
@[simp] def sharing : WorkerPc → ℕ
  | entered .. | send .. | leave | countOut | last => 1
  | _ => 0

/-- The worker is between `P` and `V` of `cache.writer` in `write_cache`. -/
@[simp] def writing : WorkerPc → ℕ
  | store .. | vWriter => 1
  | _ => 0

/-- A counted worker shares the hold or is the one about to take it. -/
theorem counted_le (x : WorkerPc) : x.counted ≤ x.sharing + x.mutexed := by
  cases x <;> simp [counted, sharing, mutexed]

/-- A sharing worker is counted or is the one about to give the hold back. -/
theorem sharing_le (x : WorkerPc) : x.sharing ≤ x.counted + x.mutexed := by
  cases x <;> simp [counted, sharing, mutexed]

end WorkerPc

variable [Fintype τ] {s s' : CacheState τ} {t u : τ}

/-- The semaphores and the reader count, as the places of the workers say. -/
structure Locked (s : CacheState τ) : Prop where
  mutex : s.mutex + total WorkerPc.mutexed s.worker = 1
  readcnt : s.readcnt = total WorkerPc.counted s.worker
  writer : s.writer + total WorkerPc.writing s.worker
    + min 1 (total WorkerPc.sharing s.worker) = 1

omit [DecidableEq τ] in
/-- While one worker holds `mutex`, the others do not. -/
theorem Locked.not_mutexed [DecidableEq τ] (h : Locked s) (ht : (s.worker t).mutexed = 1)
    (hut : u ≠ t) : (s.worker u).mutexed = 0 := by
  have := add_le_total WorkerPc.mutexed s.worker hut
  have := h.mutex
  omega

/-- A move that keeps the share in the readers' hold: every semaphore and the
count change with the place. -/
theorem Locked.move (h : Locked s) (x : WorkerPc) (hw : s'.worker = Function.update s.worker t x)
    (hm : s'.mutex + x.mutexed = s.mutex + (s.worker t).mutexed)
    (hr : s'.readcnt + (s.worker t).counted = s.readcnt + x.counted)
    (hwr : s'.writer + x.writing = s.writer + (s.worker t).writing)
    (hs : x.sharing = (s.worker t).sharing) : Locked s' := by
  have h1 := total_update WorkerPc.mutexed s.worker t x
  have h2 := total_update WorkerPc.counted s.worker t x
  have h3 := total_update WorkerPc.writing s.worker t x
  have h4 := total_update WorkerPc.sharing s.worker t x
  obtain ⟨hmutex, hread, hwriter⟩ := h
  rw [← hw] at h1 h2 h3 h4
  have hshare : total WorkerPc.sharing s'.worker = total WorkerPc.sharing s.worker := by omega
  refine ⟨by omega, by omega, ?_⟩
  rw [hshare]
  omega

/-- **The reader entry.**  The first reader counted takes `writer` for all; a
later one finds it taken. -/
theorem Locked.first (h : Locked s) {idx : Fin CACHE_LINE} {url : List UInt8}
    (ht : s.worker t = .first idx url) {writer : ℕ}
    (hw : s.readcnt = 1 ∧ writer + 1 = s.writer ∨ s.readcnt ≠ 1 ∧ writer = s.writer) :
    Locked ({ s with writer := writer }.goto t (.entered idx url)) := by
  have hmt : (s.worker t).mutexed = 1 := by rw [ht]; rfl
  have hct : (s.worker t).counted = 1 := by rw [ht]; rfl
  have h1 := total_update WorkerPc.mutexed s.worker t (.entered idx url)
  have h2 := total_update WorkerPc.counted s.worker t (.entered idx url)
  have h3 := total_update WorkerPc.writing s.worker t (.entered idx url)
  have h4 := total_update WorkerPc.sharing s.worker t (.entered idx url)
  simp only [ht, WorkerPc.mutexed, WorkerPc.counted, WorkerPc.writing, WorkerPc.sharing]
    at h1 h2 h3 h4
  have hmut := h.mutex
  have hread := h.readcnt
  have hwriter := h.writer
  refine ⟨by simp only [CacheState.goto]; omega, by simp only [CacheState.goto]; omega, ?_⟩
  simp only [CacheState.goto]
  rcases hw with ⟨hone, hwr⟩ | ⟨hmany, hwr⟩
  · -- nobody else is counted, so nobody shares the hold
    have hnone : total WorkerPc.sharing s.worker = 0 := by
      rw [total_eq_zero]
      intro u
      by_cases hut : u = t
      · rw [hut, ht]; rfl
      · have := add_le_total WorkerPc.counted s.worker hut
        have := h.not_mutexed hmt hut
        have := (s.worker u).sharing_le
        omega
    omega
  · -- another counted worker already shares the hold
    have hle := le_total WorkerPc.counted s.worker t
    obtain ⟨u, hut, hu⟩ : ∃ u, u ≠ t ∧ 0 < (s.worker u).counted :=
      exists_ne_of_lt_total (by omega)
    have := (s.worker u).counted_le
    have := h.not_mutexed hmt hut
    have := le_total WorkerPc.sharing s.worker u
    omega

/-- **The reader exit.**  The last reader gives `writer` back; before that the
hold goes on. -/
theorem Locked.last (h : Locked s) (ht : s.worker t = .last) {writer : ℕ}
    (hw : s.readcnt = 0 ∧ writer = s.writer + 1 ∨ s.readcnt ≠ 0 ∧ writer = s.writer) :
    Locked ({ s with writer := writer }.goto t .left) := by
  have hmt : (s.worker t).mutexed = 1 := by rw [ht]; rfl
  have hst : (s.worker t).sharing = 1 := by rw [ht]; rfl
  have h1 := total_update WorkerPc.mutexed s.worker t .left
  have h2 := total_update WorkerPc.counted s.worker t .left
  have h3 := total_update WorkerPc.writing s.worker t .left
  have h4 := total_update WorkerPc.sharing s.worker t .left
  simp only [ht, WorkerPc.mutexed, WorkerPc.counted, WorkerPc.writing, WorkerPc.sharing]
    at h1 h2 h3 h4
  have hmut := h.mutex
  have hread := h.readcnt
  have hwriter := h.writer
  have hle := le_total WorkerPc.sharing s.worker t
  refine ⟨by simp only [CacheState.goto]; omega, by simp only [CacheState.goto]; omega, ?_⟩
  simp only [CacheState.goto]
  rcases hw with ⟨hzero, hwr⟩ | ⟨hmore, hwr⟩
  · -- no worker is counted, so no other worker shares the hold
    have hone : total WorkerPc.sharing s.worker = 1 := by
      by_contra hne
      obtain ⟨u, hut, hu⟩ : ∃ u, u ≠ t ∧ 0 < (s.worker u).sharing :=
        exists_ne_of_lt_total (by omega)
      have := (s.worker u).sharing_le
      have := h.not_mutexed hmt hut
      have := le_total WorkerPc.counted s.worker u
      omega
    omega
  · -- a counted worker keeps sharing the hold
    have hct : (s.worker t).counted = 0 := by rw [ht]; rfl
    obtain ⟨u, hut, hu⟩ : ∃ u, u ≠ t ∧ 0 < (s.worker u).counted :=
      exists_ne_of_lt_total (by omega)
    have := (s.worker u).counted_le
    have := h.not_mutexed hmt hut
    have := add_le_total WorkerPc.sharing s.worker hut
    omega

/-- **A line of a worker keeps the locks in order.** -/
theorem Locked.workerNext (h : Locked s) (hn : workerNext s t = some s') : Locked s' := by
  have hr := runs_of_workerNext hn
  generalize ht : s.worker t = x at hr
  cases hr with
  | first hw => exact h.first ht hw
  | last hw => exact h.last ht hw
  | enter hpos | leave hpos | pWriter hpos =>
    refine h.move _ rfl ?_ ?_ ?_ ?_ <;> simp [ht, Nat.sub_add_cancel hpos]
  | hit | miss | countIn | entered | send | countOut | left | drop | scan | store | vWriter =>
    refine h.move _ rfl ?_ ?_ ?_ ?_ <;> simp [ht]

/-- **The locks are in order in every reachable state.** -/
theorem locked_of_reach (h : (cacheSystem τ).Reach s) : Locked s := by
  refine h.induct (P := Locked) ?_ ?_
  · rintro s rfl
    refine ⟨?_, ?_, ?_⟩ <;> simp [cacheStart, cacheInit, total]
  · intro s i s' _ hL _ hn
    cases i with
    | request t url =>
      simp only [cacheSystem, Option.ite_none_right_eq_some, Option.some.injEq] at hn
      obtain ⟨ht, rfl⟩ := hn
      refine hL.move _ rfl ?_ ?_ ?_ ?_ <;> simp [ht]
    | reply t chunks =>
      simp only [cacheSystem] at hn
      split at hn
      · rename_i ht
        obtain rfl := Option.some.inj hn
        refine hL.move _ rfl ?_ ?_ ?_ ?_ <;> simp [ht]
      · exact absurd hn (by simp)
    | run t => exact hL.workerNext hn

/-- The worker waits at a `P` whose semaphore is zero. -/
def Blocked (s : CacheState τ) (t : τ) : Prop :=
  match s.worker t with
  | .enter .. | .leave => s.mutex = 0
  | .first .. => s.readcnt = 1 ∧ s.writer = 0
  | .pWriter .. => s.writer = 0
  | _ => False

omit [Fintype τ] in
/-- A worker that is not blocked can run its next line, unless it waits for a
request or a reply. -/
theorem workerNext_isSome (hb : ¬Blocked s t) (hi : s.worker t ≠ .idle)
    (hf : ∀ url, s.worker t ≠ .fetch url) : (workerNext s t).isSome := by
  cases ht : s.worker t with
  | idle => exact absurd ht hi
  | fetch url => exact absurd ht (hf url)
  | lookup url => simp only [workerNext, ht]; split <;> rfl
  | scan w => simp only [workerNext, ht]; split <;> rfl
  | last => simp only [workerNext, ht]; split <;> rfl
  | enter idx url | leave | pWriter idx w =>
    simp only [Blocked, ht] at hb
    simp [workerNext, ht, Nat.pos_of_ne_zero hb]
  | first idx url =>
    simp only [Blocked, ht, not_and] at hb
    by_cases h1 : s.readcnt = 1
    · simp [workerNext, ht, h1, Nat.pos_of_ne_zero (hb h1)]
    · simp [workerNext, ht, h1]
  | countIn | entered | send | countOut | left | store | vWriter => simp [workerNext, ht]

omit [DecidableEq τ] in
/-- While a writer is in its section no worker shares the readers' hold. -/
theorem Locked.sharing_eq_zero (h : Locked s) (ht : (s.worker t).writing = 1) (u : τ) :
    (s.worker u).sharing = 0 := by
  have := le_total WorkerPc.writing s.worker t
  have := le_total WorkerPc.sharing s.worker u
  have := h.writer
  omega

/-- **The workers never all wait.**  Whoever holds `mutex` is not blocked or is
the first reader, waiting for a writer that is not blocked. -/
theorem Locked.exists_not_blocked (h : Locked s) (ht : s.worker t ≠ .idle) :
    ∃ u, s.worker u ≠ .idle ∧ ¬Blocked s u := by
  have hmut := h.mutex
  have hwr := h.writer
  -- a writer in its section runs on
  have hwriting : 0 < total WorkerPc.writing s.worker →
      ∃ u, s.worker u ≠ .idle ∧ ¬Blocked s u := by
    intro hpos
    obtain ⟨u, hu⟩ := exists_of_total_pos hpos
    refine ⟨u, ?_⟩
    cases hp : s.worker u <;> simp [hp, Blocked] at hu ⊢
  by_contra hall
  push Not at hall
  by_cases hzero : s.mutex = 0
  · obtain ⟨u, hu⟩ := exists_of_total_pos
      (show 0 < total WorkerPc.mutexed s.worker by omega)
    have hb := hall u
    cases hp : s.worker u <;> simp [hp, Blocked] at hu hb
    -- the first reader waits for `writer`: nobody shares the hold, so a writer has it
    have hcu : (s.worker u).counted = 1 := by rw [hp]; rfl
    have hnone : total WorkerPc.sharing s.worker = 0 := by
      rw [total_eq_zero]
      intro v
      by_cases hvu : v = u
      · rw [hvu, hp]; rfl
      · have hread := h.readcnt
        have := add_le_total WorkerPc.counted s.worker hvu
        have := h.not_mutexed (by rw [hp]; rfl) hvu
        have := (s.worker v).sharing_le
        omega
    obtain ⟨v, hv, hvb⟩ := hwriting (by omega)
    exact hvb (hall v hv)
  · -- `mutex` is free, so every worker that has begun waits for `writer`
    have hblocked : ∀ u, s.worker u ≠ .idle → s.writer = 0 ∧ (s.worker u).sharing = 0 := by
      intro u hu
      have hb := hall u hu
      have hle := le_total WorkerPc.mutexed s.worker u
      cases hp : s.worker u <;> simp [hp, Blocked, hzero] at hb hu hle ⊢
      · omega
      · exact hb
    have hnone : total WorkerPc.sharing s.worker = 0 := by
      rw [total_eq_zero]
      intro u
      by_cases hu : s.worker u = .idle
      · rw [hu]; rfl
      · exact (hblocked u hu).2
    obtain ⟨v, hv, hvb⟩ := hwriting (by have := (hblocked t ht).1; omega)
    exact hvb (hall v hv)

/-- The worker is between its reader entry and its reader exit: it has passed
the line that waits for `writer`, and has not counted itself out. -/
def WorkerPc.reading : WorkerPc → Bool
  | entered .. | send .. | leave | countOut => true
  | _ => false

/-- **Readers and writers exclude each other.**  In every reachable state no
worker is between `P(&cache.writer)` and `V(&cache.writer)` of `write_cache`
while a worker is between its reader entry and exit, at most one worker is in
the write section, `readcnt` is the number of workers counted in, and if some
worker has begun, some worker that has begun is not blocked. -/
theorem cache_locks (h : (cacheSystem τ).Reach s) :
    (∀ t u, (s.worker t).writing = 1 → (s.worker u).reading = false) ∧
      (∀ t u, (s.worker t).writing = 1 → (s.worker u).writing = 1 → t = u) ∧
      s.readcnt = (Finset.univ.filter fun t => (s.worker t).counted = 1).card ∧
      ((∃ t, s.worker t ≠ .idle) → ∃ t, s.worker t ≠ .idle ∧ ¬Blocked s t) := by
  have hL := locked_of_reach h
  refine ⟨fun t u ht => ?_, fun t u ht hu => ?_, ?_, fun ⟨t, ht⟩ => hL.exists_not_blocked ht⟩
  · have hs := hL.sharing_eq_zero ht u
    cases hp : s.worker u <;> simp [hp, WorkerPc.reading] at hs ⊢
  · by_contra htu
    have := add_le_total WorkerPc.writing s.worker htu
    have := hL.writer
    omega
  · have hind : WorkerPc.counted = fun x => if x.counted = 1 then 1 else 0 := by
      funext x; cases x <;> rfl
    rw [hL.readcnt, ← total_indicator fun x : WorkerPc => x.counted = 1, ← hind]

/-- The first of two workers. -/
def w₀ : Fin 2 := ⟨0, Nat.two_pos⟩

/-- The second one. -/
def w₁ : Fin 2 := ⟨1, Nat.one_lt_two⟩

/-- One worker sends a cached object while another waits to write. -/
def readerAndWriter : CacheState (Fin 2) :=
  ((cacheSystem (Fin 2)).run (cacheStart (Fin 2))
    [.request w₀ [117], .run w₀, .reply w₀ [[1]], .run w₀, .run w₀, .run w₀, .run w₀,
      .request w₁ [117], .run w₁, .run w₁, .run w₁, .run w₁, .run w₁,
      .request w₀ [118], .run w₀, .reply w₀ [[2]], .run w₀]).getD (cacheStart (Fin 2))

theorem cache_locks_readerAndWriter :
    (readerAndWriter.worker 1 = .send 0 [117] ∧ Blocked readerAndWriter 0) ∧
      (∀ t u, (readerAndWriter.worker t).writing = 1 →
        (readerAndWriter.worker u).reading = false) ∧
      (∀ t u, (readerAndWriter.worker t).writing = 1 → (readerAndWriter.worker u).writing = 1 →
        t = u) ∧
      readerAndWriter.readcnt =
        (Finset.univ.filter fun t => (readerAndWriter.worker t).counted = 1).card ∧
      ((∃ t, readerAndWriter.worker t ≠ .idle) →
        ∃ t, readerAndWriter.worker t ≠ .idle ∧ ¬Blocked readerAndWriter t) :=
  ⟨⟨by decide, by rw [Blocked]; rfl⟩, cache_locks (System.Reach.getD_run (.init rfl) _)⟩

end Proxy
end CsappLabs
