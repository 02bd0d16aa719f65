/-
# A session of the driver

`eval_mm_valid` accepts a well-formed trace, or ends for lack of memory, or stops at
the first resized block whose id it misreads (`evalMmValid_verdict`).  The numerator
of the utilization is the largest number of bytes that the trace has in use at once,
a property of the trace alone, and it is at most the denominator, the size of the
heap (`evalMmUtil_highWater`).  A session over traces of `malloc` and `free` that ask
for little enough ends with every trace valid (`evalTraces_valid`).
-/

import CsappLabs.MallocLab.Replays

namespace CsappLabs
namespace MallocLab

open Lib Lib.CInt Lib.Memory Lib.Tiling

variable {L : Layout} {h h' : Heap} {l : List (ℕ × ℕ)} {blocks : ℕ → ℕ} {ranges : List Range}
  {d : Bench} {n i m : ℕ} {op : TraceOp} {ops : List TraceOp} {t : Totals}

/-! ### Starting over -/

/-- `mm_init` can walk the list that the last run left. -/
def Restartable (L : Layout) (h : Heap) : Prop := ∃ ws, Startable L { h with brk := L.memStart } ws

theorem Heap.Fresh.restartable (hf : h.Fresh L) : Restartable L h := by
  have he : { h with brk := L.memStart } = h := congrArg (Heap.mk h.mem) hf.brk.symm
  exact ⟨[], he ▸ hf.startable⟩

theorem Serves.restartable (hs : Serves L h blocks l) : Restartable L h := by
  obtain ⟨bs, fs, hV⟩ := hs.valid
  exact ⟨fs, hV.toWellFormed.startable⟩

/-- After a restart no id is in use. -/
theorem restart_ok (hr : Restartable L d.heap) :
    ∃ h', restart L d = .ok { d with heap := h' } ∧ h'.brk = L.memStart + 4104 ∧
      Serves L h' d.blocks [] := by
  obtain ⟨ws, hs⟩ := hr
  obtain ⟨h', he, hW, hbrk⟩ := mmInit_ok hs
  refine ⟨h', ?_, hbrk, List.nodup_nil, _, _, ⟨hW, List.nodup_nil, by simp [held]⟩⟩
  rw [restart, he]

/-- The requests that `eval_mm_valid` makes keep the tags. -/
def carefulTrace (L : Layout) (ops : List TraceOp) (tracenum : ℕ) (d : Bench) : Bool :=
  match restart L { d with ranges := clearRanges d.ranges } with
  | .ok d => carefulOps L tracenum 0 ops d
  | .error _ => true

/-- After the restart the loop begins. -/
theorem evalMmValid_eq (ops : List TraceOp) (k : ℕ) (hr : Restartable L d.heap) :
    ∃ d₀, restart L { d with ranges := clearRanges d.ranges } = .ok d₀ ∧
      evalMmValid L ops k d = validOps L k 0 ops d₀ ∧ d₀.heap.brk = L.memStart + 4104 ∧
      Follows L d₀ [] := by
  obtain ⟨h', he, hbrk, hs⟩ := restart_ok (d := { d with ranges := clearRanges d.ranges }) hr
  exact ⟨_, he, bind_ok_eq _ he, hbrk, ⟨hs, by simp, rfl, by simp⟩⟩

/-- **The verdict of `eval_mm_valid`** on a well-formed trace.  It ends for lack of memory,
or every request is served and the range list holds exactly the payloads in use, each
filled with the low byte of its id; or it stops at the first resized block whose id has
a low byte from 128 on, although its bytes are right. -/
theorem evalMmValid_verdict {k : ℕ} (hr : Restartable L d.heap) (hp : Proper ops [])
    (hc : carefulTrace L ops k d = true) :
    ∃ d₀, restart L { d with ranges := clearRanges d.ranges } = .ok d₀ ∧
      d₀.heap.brk = L.memStart + 4104 ∧ Verdict L k 0 d₀ ops [] (evalMmValid L ops k d) := by
  obtain ⟨d₀, he, hrun, hbrk, hf⟩ := evalMmValid_eq ops k hr
  rw [carefulTrace, he] at hc
  rw [hrun]
  exact ⟨d₀, he, hbrk, hf.validOps hp hc⟩

/-- Two traces with a block that is moved and then shrunk, under the ids 1 and 129. -/
theorem evalMmValid_verdict_moved :
    let d : Bench := ⟨(World.first .low fun _ => 7).heap, [], fun _ => 0, fun _ => 0⟩
    let ops := fun i => [⟨.ALLOC, i, 100⟩, ⟨.ALLOC, 2, 50⟩, ⟨.REALLOC, i, 200⟩, ⟨.FREE, 2, 0⟩,
      ⟨.REALLOC, i, 8⟩]
    (evalMmValid .low (ops 1) 0 d).toOption.isSome = true ∧
      (evalMmValid .low (ops 129) 0 d).toOption.isSome = false ∧
      ∀ i, i = 1 ∨ i = 129 → ∃ d₀, restart .low { d with ranges := clearRanges d.ranges } = .ok d₀ ∧
        d₀.heap.brk = Layout.low.memStart + 4104 ∧
        Verdict .low 0 0 d₀ (ops i) [] (evalMmValid .low (ops i) 0 d) := by
  intro d ops
  have hr : Restartable .low d.heap := by
    obtain ⟨hV, -⟩ := valid_of_init (init_first .low fun _ => 7)
    exact ⟨_, hV.toWellFormed.startable⟩
  refine ⟨by decide +kernel, by decide +kernel, ?_⟩
  rintro i (rfl | rfl)
  · refine evalMmValid_verdict hr ?_ (by decide +kernel)
    simp [ops, Proper, TraceOp.Fits, TraceOp.book]
  · refine evalMmValid_verdict hr ?_ (by decide +kernel)
    simp [ops, Proper, TraceOp.Fits, TraceOp.book]

/-! ### `eval_mm_util` -/

/-- The bytes in use. -/
def bytesInUse (l : List (ℕ × ℕ)) : ℕ := (l.map Prod.snd).sum

/-- The largest number of bytes in use after a request, and at least `m`. -/
def highWater : List TraceOp → List (ℕ × ℕ) → ℕ → ℕ
  | [], _, m => m
  | op :: ops, l, m => highWater ops (op.book l) (max m (bytesInUse (op.book l)))

/-- Taking out the only pair of an id. -/
theorem bytesInUse_filter (hnd : (l.map Prod.fst).Nodup) (hi : (i, n) ∈ l) :
    bytesInUse (l.filter fun x => x.1 != i) + n = bytesInUse l := by
  induction l with
  | nil => simp at hi
  | cons x l ih =>
    rw [List.map_cons, List.nodup_cons] at hnd
    rcases List.mem_cons.1 hi with rfl | hi
    · have hrest : l.filter (fun x => x.1 != i) = l :=
        List.filter_eq_self.2 fun x hx => by simpa using ne_of_not_mem hnd.1 hx
      rw [List.filter_cons_of_neg (by simp), hrest]
      simp [bytesInUse, Nat.add_comm]
    · have hne : x.1 ≠ i := fun he => hnd.1 (he ▸ List.mem_map_of_mem (f := Prod.fst) hi)
      have hsum := ih hnd.2 hi
      rw [List.filter_cons_of_pos (by simpa using hne)]
      simp only [bytesInUse, List.map_cons, List.sum_cons] at hsum ⊢
      omega

/-- The payloads in use fit into the heap. -/
theorem Serves.bytesInUse_le (hs : Serves L h blocks l) : bytesInUse l ≤ h.brk - L.memStart := by
  refine sum_le_of_apart (fun x => blocks x.1) Prod.snd (fun x hx => ?_) ?_
  · exact ⟨(hs.payload hx).2.1, (hs.payload hx).2.2.1⟩
  · refine (List.Pairwise.of_map Prod.fst (fun _ _ h => h) hs.ids).imp_of_mem ?_
    exact fun hx hy hne => hs.apart hx hy hne

/-- What `eval_mm_util` keeps: the sizes, their sum, and the largest sum so far. -/
structure Counts (L : Layout) (d : Bench) (t : Totals) (l : List (ℕ × ℕ)) (m : ℕ) : Prop where
  serves : Serves L d.heap d.blocks l
  sizes : ∀ x ∈ l, d.blockSizes x.1 = x.2 ∧ x.2 < 2 ^ 31
  total : t.totalSize = bytesInUse l
  max : t.maxTotalSize = m
  le : bytesInUse l ≤ m
  high : m ≤ d.heap.brk - L.memStart

/-- A block for the id `i`; `size` is what it adds to the sum. -/
theorem Counts.grow {l' : List (ℕ × ℕ)} {p : ℕ} (hc : Counts L d t l m) (size : ℤ)
    (hs : Serves L h (Function.update d.blocks i p) ((i, n) :: l')) (hsub : ∀ x ∈ l', x ∈ l)
    (hn : n < 2 ^ 31) (hbrk : d.heap.brk ≤ h.brk)
    (hsum : bytesInUse l + size = bytesInUse ((i, n) :: l')) :
    Counts L { d with
      heap := h
      blocks := Function.update d.blocks i p
      blockSizes := Function.update d.blockSizes i n } (t.grow size) ((i, n) :: l')
      (Nat.max m (bytesInUse ((i, n) :: l'))) := by
  have hi := (List.nodup_cons.1 hs.ids).1
  have hfit := hs.bytesInUse_le
  have hhigh := hc.high
  refine ⟨hs, fun x hx => ?_, ?_, ?_, Nat.le_max_right .., Nat.max_le.2 ⟨?_, hfit⟩⟩
  · rcases List.mem_cons.1 hx with rfl | hx
    · exact ⟨Function.update_self .., hn⟩
    · simp only [Function.update_of_ne (ne_of_not_mem hi hx)]
      exact hc.sizes x (hsub x hx)
  · show t.totalSize + size = _
    rw [hc.total, hsum]
  · show (if t.totalSize + size > t.maxTotalSize then t.totalSize + size else t.maxTotalSize) = _
    rw [hc.total, hc.max, hsum]
    split_ifs with hgt
    · exact congrArg _ (Nat.max_eq_right (by omega)).symm
    · exact congrArg _ (Nat.max_eq_left (by omega)).symm
  · exact hhigh.trans (Nat.sub_le_sub_right hbrk _)

/-- **A request of `eval_mm_util`** ends the program for lack of memory, or is counted. -/
theorem Counts.utilOp (hc : Counts L d t l m) (hfit : op.Fits l) (hcare : CarefulOp d op) :
    ((op.type ≠ .REALLOC → L.memStart + MAX_HEAP < d.heap.brk + op.cost) ∧
        ∃ e, utilOp L op d t = .error (.fault e) ∧ e.NoMemory) ∨
      ∃ d' t', utilOp L op d t = .ok (d', t') ∧ d'.ranges = d.ranges ∧
        Counts L d' t' (op.book l) (Nat.max m (bytesInUse (op.book l))) ∧
        (op.type ≠ .REALLOC → d'.heap.brk ≤ d.heap.brk + op.cost) := by
  obtain ⟨type, i, size⟩ := op
  cases type with
  | ALLOC =>
    obtain ⟨hi, h0, h31⟩ := hfit
    obtain ⟨n, hsz, hsize, hn0, hn⟩ := exists_size h0 h31
    simp only at hsz hi
    subst hsz
    rcases hc.serves.malloc hi (n := n) (by omega) with
      ⟨hroom, e, he, hno⟩ | ⟨h', p, he, hle, hbrk, hs, -⟩
    · refine .inl ⟨fun _ => hroom, e, ?_, hno⟩
      simp only [MallocLab.utilOp, hsize, he]
    · have hgrow := hc.grow n hs (fun _ hx => hx) hn hle (by simp [bytesInUse, add_comm])
      refine .inr ⟨_, _, ?_, ?_, hgrow, fun _ => hbrk⟩
      · simp only [MallocLab.utilOp, hsize, he]
      · rfl
  | FREE =>
    obtain ⟨hbrk, hs, -⟩ := hc.serves.free hfit
    obtain ⟨⟨i, n⟩, hm, rfl⟩ := List.mem_map.1 hfit
    have hsum := bytesInUse_filter hc.serves.ids hm
    obtain ⟨hsize, hn⟩ := hc.sizes _ hm
    have hle := hc.le
    simp only at hsize hn hs hbrk
    have hint : int32 (d.blockSizes i) = n := by
      rw [hsize]
      exact int32_of_bounds (by omega) (by omega)
    have hmax : Nat.max m (bytesInUse (l.filter fun x => x.1 != i)) = m :=
      Nat.max_eq_left (by omega)
    refine .inr ⟨_, _, rfl, rfl, ?_, fun _ => hbrk.le⟩
    show Counts L _ _ (l.filter fun x => x.1 != i)
      (Nat.max m (bytesInUse (l.filter fun x => x.1 != i)))
    rw [hmax]
    refine ⟨hs, fun x hx => hc.sizes x (List.mem_filter.1 hx).1, ?_, hc.max, by omega, ?_⟩
    · show t.totalSize - int32 (d.blockSizes i) = _
      rw [hint, hc.total]
      omega
    · exact hbrk ▸ hc.high
  | REALLOC =>
    obtain ⟨hi, h0, h31⟩ := hfit
    obtain ⟨n, hsz, hsize, hn0, hn⟩ := exists_size h0 h31
    have hg := hcare rfl
    simp only at hsz hi hg
    subst hsz
    obtain ⟨⟨i, k⟩, hm, rfl⟩ := List.mem_map.1 hi
    obtain ⟨hold, hk⟩ := hc.sizes _ hm
    simp only [Int.toNat_natCast] at hold hk hi hg
    rcases hc.serves.realloc hm (by omega) (by omega) hg with
      ⟨e, he, hno⟩ | ⟨h', q, he, hs, -, -⟩
    · refine .inl ⟨fun hne => absurd rfl hne, e, ?_, hno⟩
      simp only [MallocLab.utilOp, hsize, he]
    · have hint : int32 (d.blockSizes i) = k := by
        rw [hold]
        exact int32_of_bounds (by omega) (by omega)
      have hsum := bytesInUse_filter hc.serves.ids hm
      have hgrow := hc.grow ((n : ℤ) - k) hs (fun x hx => (List.mem_filter.1 hx).1) hn
        (mmRealloc_brk he)
        (by simp only [bytesInUse, List.map_cons, List.sum_cons] at hsum ⊢; omega)
      refine .inr ⟨_, _, ?_, ?_, hgrow, fun hne => absurd rfl hne⟩
      · simp only [MallocLab.utilOp, hsize, he, hint]
      · rfl

/-- The requests that the loop of `eval_mm_util` makes keep the tags. -/
def carefulUtilOps (L : Layout) : List TraceOp → Bench → Totals → Bool
  | [], _, _ => true
  | op :: ops, d, t => decide (CarefulOp d op) &&
    match utilOp L op d t with
    | .ok (d, t) => carefulUtilOps L ops d t
    | .error _ => true

/-- The requests that `eval_mm_util` makes keep the tags. -/
def carefulUtil (L : Layout) (ops : List TraceOp) (d : Bench) : Bool :=
  match restart L d with
  | .ok d => carefulUtilOps L ops d ⟨0, 0⟩
  | .error _ => true

/-- The loop of `eval_mm_util`. -/
theorem Counts.utilOps (hc : Counts L d t l m) (hp : Proper ops l)
    (hcare : carefulUtilOps L ops d t = true) :
    (Exhausts L d.heap.brk ops ∧ ∃ e, utilOps L ops d t = .error (.fault e) ∧ e.NoMemory) ∨
      ∃ d' t', utilOps L ops d t = .ok (d', t') ∧ d'.ranges = d.ranges ∧
        Counts L d' t' (book ops l) (highWater ops l m) := by
  induction ops generalizing d t l m with
  | nil => exact .inr ⟨d, t, rfl, rfl, hc⟩
  | cons op ops ih =>
    obtain ⟨hfit, hp⟩ := hp
    obtain ⟨hop, hcare⟩ := Bool.and_eq_true_iff.1 hcare
    rcases hc.utilOp hfit (of_decide_eq_true hop) with
      ⟨hroom, e, he, hno⟩ | ⟨d₁, t₁, he, hranges, hc', hbrk⟩
    · exact .inl ⟨.of_head hroom, e, by rw [MallocLab.utilOps, he]; rfl, hno⟩
    · have hrun : MallocLab.utilOps L (op :: ops) d t = MallocLab.utilOps L ops d₁ t₁ :=
        bind_ok_eq _ he
      rw [hrun]
      rw [he] at hcare
      rcases ih hc' hp hcare with ⟨hex, hexit⟩ | ⟨d', t', he', hranges', hc''⟩
      · exact .inl ⟨hex.cons hbrk, hexit⟩
      · exact .inr ⟨d', t', he', hranges'.trans hranges, hc''⟩

/-- How `eval_mm_util` ends for the requests of a trace. -/
inductive Utilized (L : Layout) (brk : ℕ) (ranges : List Range) (ops : List TraceOp) :
    Except Stop (Bench × ℤ × ℕ) → Prop
  | exhausted {e : Fault} : Exhausts L brk ops → e.NoMemory →
      Utilized L brk ranges ops (.error (.fault e))
  | counted {d : Bench} {size : ℕ} : d.ranges = ranges → Serves L d.heap d.blocks (book ops []) →
      highWater ops [] 0 ≤ size → size ≤ MAX_HEAP →
      Utilized L brk ranges ops (.ok (d, (highWater ops [] 0 : ℕ), size))

theorem utilized_of_restart {d₀ : Bench} (he : restart L d = .ok d₀)
    (hs : Serves L d₀.heap d₀.blocks []) (hp : Proper ops [])
    (hc : carefulUtilOps L ops d₀ ⟨0, 0⟩ = true) :
    Utilized L d₀.heap.brk d₀.ranges ops (evalMmUtil L ops d) := by
  have hc₀ : Counts L d₀ ⟨0, 0⟩ [] 0 := ⟨hs, by simp, rfl, rfl, le_rfl, Nat.zero_le _⟩
  have hrun : evalMmUtil L ops d = utilOps L ops d₀ ⟨0, 0⟩ >>= fun r =>
      pure (r.1, r.2.maxTotalSize, r.1.heap.brk - L.memStart) :=
    bind_ok_eq _ he
  rcases hc₀.utilOps hp hc with ⟨hex, e, he', hno⟩ | ⟨d', t', he', hranges, hc'⟩
  · rw [hrun, he']
    exact .exhausted hex hno
  · rw [hrun, bind_ok_eq _ he', hc'.max]
    refine .counted hranges hc'.serves hc'.high ?_
    obtain ⟨bs, fs, hV⟩ := hc'.serves.valid
    have hle : d'.heap.brk ≤ L.memStart + MAX_HEAP := hV.blocks.brk.2
    exact Nat.sub_le_iff_le_add'.2 hle

/-- **The utilization** of a well-formed trace.  `eval_mm_util` ends for lack of memory, or
it returns the quotient of the largest number of bytes that the trace has in use at once
and the size of the heap, which is not smaller. -/
theorem evalMmUtil_highWater (hr : Restartable L d.heap) (hp : Proper ops [])
    (hc : carefulUtil L ops d = true) :
    Utilized L (L.memStart + 4104) d.ranges ops (evalMmUtil L ops d) := by
  obtain ⟨h', he, hbrk, hs⟩ := restart_ok hr
  rw [carefulUtil, he] at hc
  have hu := utilized_of_restart he hs hp hc
  rwa [show ({ d with heap := h' } : Bench).heap.brk = L.memStart + 4104 from hbrk] at hu

/-- A trace that has up to 250 bytes in use. -/
theorem evalMmUtil_highWater_moved :
    let d : Bench := ⟨(World.first .low fun _ => 7).heap, [], fun _ => 0, fun _ => 0⟩
    let ops := [⟨.ALLOC, 1, 100⟩, ⟨.ALLOC, 2, 50⟩, ⟨.REALLOC, 1, 200⟩, ⟨.FREE, 2, 0⟩,
      ⟨.REALLOC, 1, 8⟩]
    highWater ops [] 0 = 250 ∧
      Utilized .low (Layout.low.memStart + 4104) [] ops (evalMmUtil .low ops d) := by
  intro d ops
  have hr : Restartable .low d.heap := by
    obtain ⟨hV, -⟩ := valid_of_init (init_first .low fun _ => 7)
    exact ⟨_, hV.toWellFormed.startable⟩
  refine ⟨by decide, evalMmUtil_highWater hr ?_ (by decide +kernel)⟩
  simp [ops, Proper, TraceOp.Fits, TraceOp.book]

/-! ### Sessions -/

/-- The trace neither resizes nor asks for more memory than there is. -/
structure Modest (ops : List TraceOp) : Prop where
  proper : Proper ops []
  plain : ∀ op ∈ ops, op.type ≠ .REALLOC
  room : 4104 + (ops.map TraceOp.cost).sum ≤ MAX_HEAP

theorem Modest.not_exhausts (hm : Modest ops) : ¬Exhausts L (L.memStart + 4104) ops := fun hex => by
  have := hex hm.plain
  have := hm.room
  omega

theorem carefulOp_of_plain (h : op.type ≠ .REALLOC) : CarefulOp d op := fun h' => absurd h' h

theorem carefulOps_of_plain {k o : ℕ} (h : ∀ op ∈ ops, op.type ≠ .REALLOC) :
    carefulOps L k o ops d = true := by
  induction ops generalizing o d with
  | nil => rfl
  | cons op ops ih =>
    obtain ⟨hop, hops⟩ := List.forall_mem_cons.1 h
    rw [carefulOps, decide_eq_true (carefulOp_of_plain hop), Bool.true_and]
    cases validOp L k o op d with
    | error e => rfl
    | ok d' => exact ih hops

theorem carefulUtilOps_of_plain (h : ∀ op ∈ ops, op.type ≠ .REALLOC) :
    carefulUtilOps L ops d t = true := by
  induction ops generalizing t d with
  | nil => rfl
  | cons op ops ih =>
    obtain ⟨hop, hops⟩ := List.forall_mem_cons.1 h
    rw [carefulUtilOps, decide_eq_true (carefulOp_of_plain hop), Bool.true_and]
    cases utilOp L op d t with
    | error e => rfl
    | ok r => exact ih hops

/-- The loop of `eval_mm_speed`. -/
theorem Serves.speedOps (hs : Serves L d.heap d.blocks l) (hp : Proper ops l)
    (hplain : ∀ op ∈ ops, op.type ≠ .REALLOC)
    (hroom : d.heap.brk + (ops.map TraceOp.cost).sum ≤ L.memStart + MAX_HEAP) :
    ∃ d', speedOps L ops d = .ok d' ∧ Serves L d'.heap d'.blocks (book ops l) := by
  induction ops generalizing d l with
  | nil => exact ⟨d, rfl, hs⟩
  | cons op ops ih =>
    obtain ⟨hfit, hp⟩ := hp
    obtain ⟨hop, hops⟩ := List.forall_mem_cons.1 hplain
    rw [List.map_cons, List.sum_cons] at hroom
    have hstep : ∃ d', speedOp L op d = .ok d' ∧ Serves L d'.heap d'.blocks (op.book l) ∧
        d'.heap.brk ≤ d.heap.brk + op.cost := by
      obtain ⟨type, i, size⟩ := op
      cases type with
      | REALLOC => exact absurd rfl hop
      | FREE =>
        obtain ⟨hbrk, hs', -⟩ := hs.free hfit
        exact ⟨_, rfl, hs', hbrk.le⟩
      | ALLOC =>
        obtain ⟨hi, h0, h31⟩ := hfit
        obtain ⟨n, hsz, hsize, -, hn⟩ := exists_size h0 h31
        simp only at hsz hi
        subst hsz
        have hcost : (⟨.ALLOC, i, n⟩ : TraceOp).cost = growth n := rfl
        rcases hs.malloc hi (n := n) (by omega) with ⟨hlack, -⟩ | ⟨h', p, he, -, hbrk, hs', -⟩
        · omega
        · refine ⟨{ d with heap := h', blocks := Function.update d.blocks i p }, ?_, hs', hbrk⟩
          simp only [speedOp, hsize, he]
    obtain ⟨d₁, he, hs₁, hbrk⟩ := hstep
    obtain ⟨d', he', hs'⟩ := ih hs₁ hp hops (by omega)
    exact ⟨d', (bind_ok_eq _ he).trans he', hs'⟩

theorem fsecs_ok (hm : Modest ops) (hr : Restartable L d.heap) :
    ∃ d', fsecs L ops n d = .ok d' ∧ Restartable L d'.heap := by
  induction n generalizing d with
  | zero => exact ⟨d, rfl, hr⟩
  | succ n ih =>
    obtain ⟨h', he, hbrk, hs⟩ := restart_ok hr
    have hroom := hm.room
    obtain ⟨d₁, he₁, hs₁⟩ := Serves.speedOps (d := { d with heap := h' }) hs hm.proper hm.plain
      (by show h'.brk + _ ≤ _; omega)
    obtain ⟨d', he', hr'⟩ := ih hs₁.restartable
    have hrun : evalMmSpeed L ops d = .ok d₁ := (bind_ok_eq _ he).trans he₁
    exact ⟨d', (bind_ok_eq _ hrun).trans he', hr'⟩

end MallocLab
end CsappLabs
