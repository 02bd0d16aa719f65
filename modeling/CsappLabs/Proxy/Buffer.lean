/-
# Handing connections to the workers

`produce` and `consume` of `proxylab/proxy.c`: the main thread puts accepted
descriptors into a ring of `BUFFER_SIZE` cells, any number of worker threads
take them out, and three semaphores keep them apart.

Every `P`, every `V` and every critical section is one step of its thread.  The
free-running `int` counters `front` and `tail` wrap around, and a cell index is
the C remainder of a counter, so an index can be negative once `tail` has
wrapped; `data` is therefore indexed by `ℤ`, offsets outside `[0, BUFFER_SIZE)`
being memory beyond the array.

`log` records the critical sections in order, with the cell and the item of
each.  It plays no part in the steps.
-/

import CsappLabs.Lib.CInt
import CsappLabs.Lib.CircularBuffer
import CsappLabs.Lib.System
import CsappLabs.Lib.Threads

namespace CsappLabs
namespace Proxy

open Lib Lib.CInt Lib.CircularBuffer Lib.Threads

def BUFFER_SIZE : ℕ := 32

/-- The ring: its array, the two counters and the three semaphores. -/
structure ConnectionBuffer where
  data : ℤ → ℤ
  front : ℤ
  tail : ℤ
  mutex : ℕ
  slots : ℕ
  items : ℕ

/-- `init_buffer`; the array comes from `Calloc`. -/
def initBuffer : ConnectionBuffer where
  data _ := 0
  front := 0
  tail := 0
  mutex := 1
  slots := BUFFER_SIZE
  items := 0

/-- `n % BUFFER_SIZE` in C. -/
def cell (n : ℤ) : ℤ := n.tmod BUFFER_SIZE

/-- Where the main thread is: outside `produce`, or before one of its lines. -/
inductive ProducePc where
  | idle
  | pSlots (item : ℤ)
  | pMutex (item : ℤ)
  | put (item : ℤ)
  | vMutex
  | vItems

/-- Where a worker is: outside `consume`, or before one of its lines. -/
inductive ConsumePc where
  | idle
  | pItems
  | pMutex
  | take
  | vMutex (item : ℤ)
  | vSlots (item : ℤ)

/-- A critical section: the cell it used and the item it moved. -/
inductive Event where
  | put (cell item : ℤ)
  | take (cell item : ℤ)

/-- The buffer, the places of its threads, and the critical sections so far. -/
structure BufferState (τ : Type*) extends ConnectionBuffer where
  main : ProducePc
  worker : τ → ConsumePc
  log : List Event

/-- A step: the main thread calls `produce`, the main thread runs one line of
it, or a worker runs one line of `consume` (calling it first). -/
inductive BufferStep (τ : Type*) where
  | accept (item : ℤ)
  | main
  | worker (t : τ)

variable {τ : Type*}

/-- One line of `produce`. -/
def produceNext (s : BufferState τ) : Option (BufferState τ) :=
  match s.main with
  | .idle => none
  | .pSlots item =>
      if 0 < s.slots then some { s with slots := s.slots - 1, main := .pMutex item } else none
  | .pMutex item =>
      if 0 < s.mutex then some { s with mutex := s.mutex - 1, main := .put item } else none
  | .put item =>
      let tail := int32 (s.tail + 1)
      some { s with
        tail := tail
        data := Function.update s.data (cell tail) item
        main := .vMutex
        log := s.log ++ [.put (cell tail) item] }
  | .vMutex => some { s with mutex := s.mutex + 1, main := .vItems }
  | .vItems => some { s with items := s.items + 1, main := .idle }

/-- One line of `consume` in worker `t`. -/
def consumeNext [DecidableEq τ] (s : BufferState τ) (t : τ) : Option (BufferState τ) :=
  match s.worker t with
  | .idle => some { s with worker := Function.update s.worker t .pItems }
  | .pItems =>
      if 0 < s.items then
        some { s with items := s.items - 1, worker := Function.update s.worker t .pMutex }
      else none
  | .pMutex =>
      if 0 < s.mutex then
        some { s with mutex := s.mutex - 1, worker := Function.update s.worker t .take }
      else none
  | .take =>
      let front := int32 (s.front + 1)
      let item := s.data (cell front)
      some { s with
        front := front
        worker := Function.update s.worker t (.vMutex item)
        log := s.log ++ [.take (cell front) item] }
  | .vMutex item =>
      some { s with mutex := s.mutex + 1, worker := Function.update s.worker t (.vSlots item) }
  | .vSlots _ =>
      some { s with slots := s.slots + 1, worker := Function.update s.worker t .idle }

/-- The state after `init_buffer`, all threads started. -/
def bufferStart (τ : Type*) : BufferState τ :=
  { initBuffer with main := .idle, worker := fun _ => .idle, log := [] }

/-- The proxy's threads on the connection buffer. -/
def bufferSystem (τ : Type*) [DecidableEq τ] : System (BufferState τ) (BufferStep τ) where
  init s := s = bufferStart τ
  next s
    | .accept item =>
        match s.main with
        | .idle => some { s with main := .pSlots item }
        | _ => none
    | .main => produceNext s
    | .worker t => consumeNext s t

/-- What a line of `produce` makes of the state, by the place of the main thread. -/
inductive Produces (s : BufferState τ) : ProducePc → BufferState τ → Prop
  | pSlots {item : ℤ} (hpos : 0 < s.slots) :
      Produces s (.pSlots item) { s with slots := s.slots - 1, main := .pMutex item }
  | pMutex {item : ℤ} (hpos : 0 < s.mutex) :
      Produces s (.pMutex item) { s with mutex := s.mutex - 1, main := .put item }
  | put {item : ℤ} :
      Produces s (.put item) { s with
        tail := int32 (s.tail + 1)
        data := Function.update s.data (cell (int32 (s.tail + 1))) item
        main := .vMutex
        log := s.log ++ [.put (cell (int32 (s.tail + 1))) item] }
  | vMutex : Produces s .vMutex { s with mutex := s.mutex + 1, main := .vItems }
  | vItems : Produces s .vItems { s with items := s.items + 1, main := .idle }

theorem produces_of_next {s s' : BufferState τ} (hn : produceNext s = some s') :
    Produces s s.main s' := by
  cases hm : s.main with
  | idle => simp [produceNext, hm] at hn
  | pSlots item | pMutex item =>
    simp only [produceNext, hm, Option.ite_none_right_eq_some, Option.some.injEq] at hn
    obtain ⟨hpos, rfl⟩ := hn
    constructor
    exact hpos
  | put item | vMutex | vItems =>
    simp only [produceNext, hm, Option.some.injEq] at hn
    subst hn
    constructor

/-- What a line of `consume` makes of the state, by the place of the worker. -/
inductive Consumes [DecidableEq τ] (s : BufferState τ) (t : τ) :
    ConsumePc → BufferState τ → Prop
  | idle : Consumes s t .idle { s with worker := Function.update s.worker t .pItems }
  | pItems (hpos : 0 < s.items) :
      Consumes s t .pItems
        { s with items := s.items - 1, worker := Function.update s.worker t .pMutex }
  | pMutex (hpos : 0 < s.mutex) :
      Consumes s t .pMutex
        { s with mutex := s.mutex - 1, worker := Function.update s.worker t .take }
  | take :
      Consumes s t .take { s with
        front := int32 (s.front + 1)
        worker := Function.update s.worker t (.vMutex (s.data (cell (int32 (s.front + 1)))))
        log := s.log ++ [.take (cell (int32 (s.front + 1))) (s.data (cell (int32 (s.front + 1))))] }
  | vMutex {item : ℤ} :
      Consumes s t (.vMutex item)
        { s with mutex := s.mutex + 1, worker := Function.update s.worker t (.vSlots item) }
  | vSlots {item : ℤ} :
      Consumes s t (.vSlots item)
        { s with slots := s.slots + 1, worker := Function.update s.worker t .idle }

theorem consumes_of_next [DecidableEq τ] {s s' : BufferState τ} {t : τ}
    (hn : consumeNext s t = some s') : Consumes s t (s.worker t) s' := by
  cases hw : s.worker t with
  | pItems | pMutex =>
    simp only [consumeNext, hw, Option.ite_none_right_eq_some, Option.some.injEq] at hn
    obtain ⟨hpos, rfl⟩ := hn
    constructor
    exact hpos
  | idle | take | vMutex item | vSlots item =>
    simp only [consumeNext, hw, Option.some.injEq] at hn
    subst hn
    constructor

/-- Connections are accepted by an idle main thread. -/
theorem accept_of_next [DecidableEq τ] {s s' : BufferState τ} {item : ℤ}
    (hn : (bufferSystem τ).next s (.accept item) = some s') :
    s.main = .idle ∧ s' = { s with main := .pSlots item } := by
  cases hm : s.main with
  | idle =>
    simp only [bufferSystem, hm, Option.some.injEq] at hn
    exact ⟨rfl, hn.symm⟩
  | pSlots | pMutex | put | vMutex | vItems => simp [bufferSystem, hm] at hn

/-! ### What the log says -/

/-- The items put, in order. -/
def puts (log : List Event) : List ℤ :=
  log.filterMap fun | .put _ x => some x | .take _ _ => none

/-- The items taken, in order. -/
def takes (log : List Event) : List ℤ :=
  log.filterMap fun | .put _ _ => none | .take _ x => some x

/-- One critical section on cells of which each is empty or holds an unread
item: a put needs the cell empty, a take needs the item there. -/
def Event.apply (occ : ℤ → Option ℤ) : Event → Option (ℤ → Option ℤ)
  | .put k x => if occ k = none then some (Function.update occ k (some x)) else none
  | .take k x => if occ k = some x then some (Function.update occ k none) else none

/-- The unread items after a log, if no section of it overwrote an unread item,
read an item twice or read a cell before it was written. -/
def replay (log : List Event) : Option (ℤ → Option ℤ) :=
  log.foldlM Event.apply fun _ => none

@[simp] theorem puts_concat_put (log : List Event) (k x : ℤ) :
    puts (log ++ [.put k x]) = puts log ++ [x] := by simp [puts]

@[simp] theorem puts_concat_take (log : List Event) (k x : ℤ) :
    puts (log ++ [.take k x]) = puts log := by simp [puts]

@[simp] theorem takes_concat_put (log : List Event) (k x : ℤ) :
    takes (log ++ [.put k x]) = takes log := by simp [takes]

@[simp] theorem takes_concat_take (log : List Event) (k x : ℤ) :
    takes (log ++ [.take k x]) = takes log ++ [x] := by simp [takes]

theorem replay_concat (log : List Event) (e : Event) :
    replay (log ++ [e]) = (replay log).bind fun occ => e.apply occ := by
  rw [replay, List.foldlM_append]
  simp [replay]

/-! ### The invariant -/

/-- Cell of the `i`-th item ever put, counting from one. -/
def slot (i : ℕ) : ℤ := ((i % BUFFER_SIZE : ℕ) : ℤ)

theorem slot_windowInjective : WindowInjective slot BUFFER_SIZE := by
  intro i j hij hj h
  simp only [slot, BUFFER_SIZE] at h hj
  omega

theorem cell_eq_slot (n : ℕ) : cell n = slot n := by
  rw [cell, slot, Int.tmod_eq_emod_of_nonneg (Int.natCast_nonneg n)]
  norm_cast

/-- The main thread holds `mutex`. -/
def ProducePc.inside : ProducePc → ℕ
  | .put _ | .vMutex => 1
  | _ => 0

/-- The main thread has taken from `slots` and put nothing yet. -/
def ProducePc.reserved : ProducePc → ℕ
  | .pMutex _ | .put _ => 1
  | _ => 0

/-- The main thread has put an item it has not announced in `items`. -/
def ProducePc.unannounced : ProducePc → ℕ
  | .vMutex | .vItems => 1
  | _ => 0

/-- The worker holds `mutex`. -/
def ConsumePc.inside : ConsumePc → ℕ
  | .take | .vMutex _ => 1
  | _ => 0

/-- The worker has taken from `items` and no item yet. -/
def ConsumePc.entitled : ConsumePc → ℕ
  | .pMutex | .take => 1
  | _ => 0

/-- The worker has an item whose cell it has not given back to `slots`. -/
def ConsumePc.owing : ConsumePc → ℕ
  | .vMutex _ | .vSlots _ => 1
  | _ => 0

/-- The items that wait in the buffer, with what the counters, the array, the
log and the semaphores say about them. -/
structure Waiting [Fintype τ] (s : BufferState τ) (q : List ℤ) : Prop where
  front : s.front = (takes s.log).length
  tail : s.tail = (takes s.log).length + q.length
  puts : puts s.log = takes s.log ++ q
  holds : ∃ occ, replay s.log = some occ ∧
    Holds slot BUFFER_SIZE s.data occ (takes s.log).length q
  mutex : s.mutex + s.main.inside + total ConsumePc.inside s.worker = 1
  slots : s.slots + s.main.reserved + q.length + total ConsumePc.owing s.worker = BUFFER_SIZE
  items : s.items + s.main.unannounced + total ConsumePc.entitled s.worker = q.length

variable [Fintype τ] {s s' : BufferState τ} {q : List ℤ}

/-- The main thread passes a semaphore: its place and one semaphore change, and
what the place says about the semaphores changes with them. -/
theorem Waiting.moveMain (h : Waiting s q) (x : ProducePc) (mutex slots items : ℕ)
    (hm : mutex + x.inside = s.mutex + s.main.inside)
    (hs : slots + x.reserved = s.slots + s.main.reserved)
    (hi : items + x.unannounced = s.items + s.main.unannounced) :
    Waiting { s with mutex := mutex, slots := slots, items := items, main := x } q := by
  obtain ⟨hfront, htail, hputs, hholds, hmutex, hslots, hitems⟩ := h
  exact ⟨hfront, htail, hputs, hholds, by simp only; omega, by simp only; omega,
    by simp only; omega⟩

/-- A worker passes a semaphore. -/
theorem Waiting.moveWorker [DecidableEq τ] (h : Waiting s q) (t : τ) (x : ConsumePc)
    (mutex slots items : ℕ) (hm : mutex + x.inside = s.mutex + (s.worker t).inside)
    (hs : slots + x.owing = s.slots + (s.worker t).owing)
    (hi : items + x.entitled = s.items + (s.worker t).entitled) :
    Waiting { s with
      mutex := mutex, slots := slots, items := items
      worker := Function.update s.worker t x } q := by
  obtain ⟨hfront, htail, hputs, hholds, hmutex, hslots, hitems⟩ := h
  have hin := total_update ConsumePc.inside s.worker t x
  have how := total_update ConsumePc.owing s.worker t x
  have hent := total_update ConsumePc.entitled s.worker t x
  exact ⟨hfront, htail, hputs, hholds, by simp only; omega, by simp only; omega,
    by simp only; omega⟩

/-- **The put keeps the invariant.**  The main thread holds a reserved slot, so
the ring is not full and the cell behind the last item is free. -/
theorem Waiting.put (h : Waiting s q) {item : ℤ} (hm : s.main = .put item)
    (hb : (Proxy.puts s.log).length + 1 < 2 ^ 31) :
    Waiting { s with
      tail := int32 (s.tail + 1)
      data := Function.update s.data (cell (int32 (s.tail + 1))) item
      main := .vMutex
      log := s.log ++ [.put (cell (int32 (s.tail + 1))) item] } (q ++ [item]) := by
  obtain ⟨hfront, htail, hputs, ⟨occ, hocc, hholds⟩, hmutex, hslots, hitems⟩ := h
  simp only [hm, ProducePc.inside, ProducePc.reserved, ProducePc.unannounced] at hmutex hslots hitems
  rw [hputs, List.length_append] at hb
  have hroom : q.length < BUFFER_SIZE := by omega
  have hcell : int32 (s.tail + 1) = ((takes s.log).length + 1 + q.length : ℕ) := by
    rw [htail, int32_of_bounds (by omega) (by omega)]
    push_cast; ring
  have hfree := hholds.occ_next slot_windowInjective hroom
  have hpush := hholds.push slot_windowInjective hroom item
  simp only [hcell, cell_eq_slot]
  constructor
  · simpa using hfront
  · simp only [takes_concat_put, List.length_append, List.length_singleton]
    push_cast; ring
  · simp [hputs]
  · simp only [takes_concat_put]
    exact ⟨_, by rw [replay_concat, hocc, Option.bind_some, Event.apply, if_pos hfree], hpush⟩
  · exact hmutex
  · simp only [ProducePc.reserved, List.length_append, List.length_singleton]
    omega
  · simp only [ProducePc.unannounced, List.length_append, List.length_singleton]
    omega

/-- **The take keeps the invariant.**  The worker's own claim on an item shows
that one waits; the cell it reads holds the first. -/
theorem Waiting.take [DecidableEq τ] (h : Waiting s q) {t : τ} (hw : s.worker t = .take)
    (hb : (Proxy.puts s.log).length < 2 ^ 31) :
    ∃ q', Waiting { s with
      front := int32 (s.front + 1)
      worker := Function.update s.worker t (.vMutex (s.data (cell (int32 (s.front + 1)))))
      log := s.log ++ [.take (cell (int32 (s.front + 1))) (s.data (cell (int32 (s.front + 1))))]
    } q' := by
  obtain ⟨hfront, htail, hputs, ⟨occ, hocc, hholds⟩, hmutex, hslots, hitems⟩ := h
  rw [hputs, List.length_append] at hb
  have hle := le_total ConsumePc.entitled s.worker t
  rw [hw, ConsumePc.entitled] at hle
  obtain ⟨item, q, rfl⟩ : ∃ item r, q = item :: r := List.exists_cons_of_length_pos (by omega)
  rw [List.length_cons] at *
  have hcell : int32 (s.front + 1) = ((takes s.log).length + 1 : ℕ) := by
    rw [hfront, int32_of_bounds (by omega) (by omega)]
    push_cast; ring
  obtain ⟨hdata, hthere⟩ := hholds.head
  have hpop := hholds.pop slot_windowInjective
  simp only [hcell, cell_eq_slot, hdata]
  have hin := total_update ConsumePc.inside s.worker t (.vMutex item)
  have hent := total_update ConsumePc.entitled s.worker t (.vMutex item)
  have how := total_update ConsumePc.owing s.worker t (.vMutex item)
  simp only [hw, ConsumePc.inside, ConsumePc.entitled, ConsumePc.owing] at hin hent how
  refine ⟨q, ?_⟩
  constructor
  · simp
  · simp only [htail, takes_concat_take, List.length_append, List.length_singleton]
    push_cast; ring
  · simp [hputs]
  · simp only [takes_concat_take, List.length_append, List.length_singleton]
    exact ⟨_, by rw [replay_concat, hocc, Option.bind_some, Event.apply, if_pos hthere], hpop⟩
  · simp only; omega
  · simp only; omega
  · simp only; omega

/-- **A line of `produce` keeps the invariant**, as long as fewer than `2^31`
items have been put. -/
theorem Waiting.produceNext (h : Waiting s q) (hn : produceNext s = some s')
    (hb : (Proxy.puts s'.log).length < 2 ^ 31) : ∃ q', Waiting s' q' := by
  have hp := produces_of_next hn
  generalize hm : s.main = x at hp
  cases hp with
  | put =>
    simp only [puts_concat_put, List.length_append, List.length_singleton] at hb
    exact ⟨_, h.put hm hb⟩
  | pSlots hpos =>
    refine ⟨q, h.moveMain _ s.mutex _ s.items ?_ ?_ ?_⟩
    all_goals simp only [hm, ProducePc.inside, ProducePc.reserved, ProducePc.unannounced]
    omega
  | pMutex hpos =>
    refine ⟨q, h.moveMain _ _ s.slots s.items ?_ ?_ ?_⟩
    all_goals simp only [hm, ProducePc.inside, ProducePc.reserved, ProducePc.unannounced]
    omega
  | vMutex =>
    refine ⟨q, h.moveMain _ _ s.slots s.items ?_ ?_ ?_⟩
    all_goals simp only [hm, ProducePc.inside, ProducePc.reserved, ProducePc.unannounced]
  | vItems =>
    refine ⟨q, h.moveMain _ s.mutex s.slots _ ?_ ?_ ?_⟩
    all_goals simp only [hm, ProducePc.inside, ProducePc.reserved, ProducePc.unannounced]

/-- **A line of `consume` keeps the invariant.** -/
theorem Waiting.consumeNext [DecidableEq τ] {t : τ} (h : Waiting s q)
    (hn : consumeNext s t = some s') (hb : (Proxy.puts s'.log).length < 2 ^ 31) :
    ∃ q', Waiting s' q' := by
  have hc := consumes_of_next hn
  generalize hw : s.worker t = x at hc
  cases hc with
  | take =>
    rw [puts_concat_take] at hb
    exact h.take hw hb
  | idle =>
    refine ⟨q, h.moveWorker t _ s.mutex s.slots s.items ?_ ?_ ?_⟩
    all_goals simp only [hw, ConsumePc.inside, ConsumePc.owing, ConsumePc.entitled]
  | pItems hpos =>
    refine ⟨q, h.moveWorker t _ s.mutex s.slots _ ?_ ?_ ?_⟩
    all_goals simp only [hw, ConsumePc.inside, ConsumePc.owing, ConsumePc.entitled]
    omega
  | pMutex hpos =>
    refine ⟨q, h.moveWorker t _ _ s.slots s.items ?_ ?_ ?_⟩
    all_goals simp only [hw, ConsumePc.inside, ConsumePc.owing, ConsumePc.entitled]
    omega
  | vMutex =>
    refine ⟨q, h.moveWorker t _ _ s.slots s.items ?_ ?_ ?_⟩
    all_goals simp only [hw, ConsumePc.inside, ConsumePc.owing, ConsumePc.entitled]
  | vSlots =>
    refine ⟨q, h.moveWorker t _ s.mutex _ s.items ?_ ?_ ?_⟩
    all_goals simp only [hw, ConsumePc.inside, ConsumePc.owing, ConsumePc.entitled]

/-! ### Runs -/

variable [DecidableEq τ]

omit [Fintype τ] in
/-- No step removes an item from the log. -/
theorem puts_length_le {i : BufferStep τ} (hn : (bufferSystem τ).next s i = some s') :
    (puts s.log).length ≤ (puts s'.log).length := by
  cases i with
  | accept item =>
    obtain ⟨-, rfl⟩ := accept_of_next hn
    exact le_rfl
  | main =>
    have hp := produces_of_next hn
    generalize s.main = pc at hp
    cases hp with
    | put => simp
    | pSlots | pMutex | vMutex | vItems => exact le_rfl
  | worker t =>
    have hc := consumes_of_next hn
    generalize s.worker t = pc at hc
    cases hc with
    | take => simp
    | idle | pItems | pMutex | vMutex | vSlots => exact le_rfl

/-- **Every reachable state satisfies the invariant** while fewer than `2^31`
items have been put. -/
theorem exists_waiting (h : (bufferSystem τ).Reach s) (hb : (puts s.log).length < 2 ^ 31) :
    ∃ q, Waiting s q := by
  revert hb
  refine h.induct (P := fun s => (puts s.log).length < 2 ^ 31 → ∃ q, Waiting s q) ?_ ?_
  · rintro s rfl -
    refine ⟨[], rfl, rfl, rfl, ⟨_, rfl, Holds.empty ..⟩, ?_, ?_, ?_⟩ <;>
      simp [bufferStart, initBuffer, total, ProducePc.inside, ProducePc.reserved,
        ProducePc.unannounced, ConsumePc.inside, ConsumePc.owing, ConsumePc.entitled]
  · intro s i s' _ ih _ hn hb
    obtain ⟨q, hq⟩ := ih (lt_of_le_of_lt (puts_length_le hn) hb)
    cases i with
    | accept item =>
      obtain ⟨hm, rfl⟩ := accept_of_next hn
      refine ⟨q, hq.moveMain _ s.mutex s.slots s.items ?_ ?_ ?_⟩
      all_goals simp only [hm, ProducePc.inside, ProducePc.reserved, ProducePc.unannounced]
    | main => exact hq.produceNext hn hb
    | worker t => exact hq.consumeNext hn hb

/-- At most one thread is between `P(&mutex)` and `V(&mutex)`, so a critical
section runs as one step. -/
theorem critical_sections_exclusive (h : (bufferSystem τ).Reach s)
    (hb : (puts s.log).length < 2 ^ 31) :
    s.main.inside + total ConsumePc.inside s.worker ≤ 1 := by
  obtain ⟨q, hq⟩ := exists_waiting h hb
  have := hq.mutex
  omega

/-- **Connections are handed over once and in order.**  In every reachable state
with fewer than `2^31` connections so far, the items taken are a prefix of the
items put, no cell was overwritten before its item was read, read twice or read
before it was written (`replay` accepts the log), and at most `BUFFER_SIZE`
items wait. -/
theorem connections_in_order (h : (bufferSystem τ).Reach s)
    (hb : (puts s.log).length < 2 ^ 31) :
    takes s.log <+: puts s.log ∧ (replay s.log).isSome ∧
      (puts s.log).length ≤ (takes s.log).length + BUFFER_SIZE := by
  obtain ⟨q, hq⟩ := exists_waiting h hb
  obtain ⟨occ, hocc, hholds⟩ := hq.holds
  refine ⟨⟨q, hq.puts.symm⟩, by rw [hocc]; rfl, ?_⟩
  rw [hq.puts, List.length_append]
  exact Nat.add_le_add_left hholds.length_le _

/-- Two connections are accepted and one of two workers takes the first. -/
def handover : BufferState (Fin 2) :=
  ((bufferSystem (Fin 2)).run (bufferStart (Fin 2))
    [.accept 4, .main, .worker 1, .main, .main, .main, .main, .accept 5, .worker 1, .worker 1,
      .worker 1, .worker 0, .main, .worker 1, .main, .main]).getD (bufferStart (Fin 2))

theorem connections_in_order_handover :
    puts handover.log = [4, 5] ∧ takes handover.log = [4] ∧
      takes handover.log <+: puts handover.log ∧ (replay handover.log).isSome ∧
        (puts handover.log).length ≤ (takes handover.log).length + BUFFER_SIZE :=
  ⟨by decide, by decide, connections_in_order (System.Reach.getD_run (.init rfl) _) (by decide)⟩

end Proxy
end CsappLabs
