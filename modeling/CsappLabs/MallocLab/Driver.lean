/-
# The test driver

`mdriver.c` replays a trace of requests three times: `eval_mm_valid` checks each
answer and the bytes that `mm_realloc` has to keep, `eval_mm_util` records how many
bytes were in use at once, `eval_mm_speed` only makes the calls.  Each of them starts
over with `mem_reset_brk` and `mm_init`.  `main` does the three for each trace, the
last two only if the first returned 1.

The ids of a trace file are not negative, so they are naturals here; a size is an
`int`.  A record ends in `Stop` where the driver reports an error and returns 0, fails
an assertion, or does not come back from the allocator.
-/

import CsappLabs.MallocLab.Ranges

namespace CsappLabs
namespace MallocLab

open Lib Lib.CInt Lib.Memory

/-- The types of request. -/
inductive OpType where
  | ALLOC
  | FREE
  | REALLOC
  deriving DecidableEq, Repr

/-- `traceop_t` -/
structure TraceOp where
  type : OpType
  index : ℕ
  size : ℤ
  deriving DecidableEq, Repr

/-- How a trace can end before its last request. -/
inductive Stop where
  /-- `malloc_error(tracenum, opnum, msg)`, and 0 is returned; `main` goes on with
  the heap and the range list as they are then. -/
  | mallocError (tracenum opnum : ℕ) (msg : Message) (h : Heap) (ranges : List Range)
  /-- `assert(size > 0)` fails. -/
  | assertion
  /-- `app_error` -/
  | appError
  /-- The call does not return. -/
  | fault (e : Fault)

/-- What the driver keeps while it replays a trace: the heap, the range list, and
`trace->blocks` and `trace->block_sizes`. -/
structure Bench where
  heap : Heap
  ranges : List Range
  blocks : ℕ → ℕ
  blockSizes : ℕ → ℕ

/-- The low byte of an id, with which the driver fills the payload. -/
def lowByte (index : ℕ) : UInt8 := UInt8.ofNat (index % 256)

namespace Bench

/-- `memset(p, index & 0xFF, size)`, and `p` is remembered. -/
def remember (d : Bench) (h : Heap) (ranges : List Range) (index p : ℕ) (size : ℤ) : Bench where
  heap := { h with mem := fill h.mem p (lowByte index) (toSizeT size) }
  ranges := ranges
  blocks := Function.update d.blocks index p
  blockSizes := Function.update d.blockSizes index (toSizeT size)

end Bench

/-- `add_range` in a request. -/
def checkRange (L : Layout) (h : Heap) (ranges : List Range) (p : ℕ) (size : ℤ)
    (tracenum opnum : ℕ) : Except Stop (List Range) :=
  match addRange L h.brk ranges p size with
  | .ok ranges' => .ok ranges'
  | .error none => .error .assertion
  | .error (some msg) => .error (.mallocError tracenum opnum msg h ranges)

/-- The first `oldsize` bytes at `newp`, read as `char`, are all `index & 0xFF`. -/
def preserved (m : Memory) (newp index : ℕ) (oldsize : ℤ) : Bool :=
  decide (∀ j < oldsize.toNat, schar (m (newp + j)) = (index % 256 : ℕ))

/-- A request of `eval_mm_valid`. -/
def validOp (L : Layout) (tracenum i : ℕ) (op : TraceOp) (d : Bench) : Except Stop Bench :=
  match op.type with
  | .ALLOC =>
    match mmMalloc L d.heap (toSizeT op.size) with
    | .error e => .error (.fault e)
    | .ok (h, none) => .error (.mallocError tracenum i .mallocFailed h d.ranges)
    | .ok (h, some p) => do
      let ranges ← checkRange L h d.ranges p op.size tracenum i
      return d.remember h ranges op.index p op.size
  | .REALLOC =>
    let oldp := d.blocks op.index
    match mmRealloc L d.heap oldp (toSizeT op.size) with
    | .error e => .error (.fault e)
    | .ok (h, none) => .error (.mallocError tracenum i .reallocFailed h d.ranges)
    | .ok (h, some newp) => do
      let ranges ← checkRange L h (removeRange d.ranges oldp) newp op.size tracenum i
      let oldsize := int32 (d.blockSizes op.index)
      let oldsize := if op.size < oldsize then op.size else oldsize
      if preserved h.mem newp op.index oldsize then
        return d.remember h ranges op.index newp op.size
      else
        .error (.mallocError tracenum i .notPreserved h ranges)
  | .FREE =>
    let p := d.blocks op.index
    return { d with heap := mmFree L d.heap p, ranges := removeRange d.ranges p }

/-- The loop of `eval_mm_valid` from request `i` on. -/
def validOps (L : Layout) (tracenum : ℕ) : ℕ → List TraceOp → Bench → Except Stop Bench
  | _, [], d => .ok d
  | i, op :: ops, d => do
    let d ← validOp L tracenum i op d
    validOps L tracenum (i + 1) ops d

/-- `mem_reset_brk(); mm_init();` -/
def restart (L : Layout) (d : Bench) : Except Stop Bench :=
  match mmInit L { d.heap with brk := L.memStart } with
  | .error e => .error (.fault e)
  | .ok h => .ok { d with heap := h }

/-- `eval_mm_valid`, which returns 1 where this is `ok`. -/
def evalMmValid (L : Layout) (ops : List TraceOp) (tracenum : ℕ) (d : Bench) :
    Except Stop Bench := do
  let d ← restart L { d with ranges := clearRanges d.ranges }
  validOps L tracenum 0 ops d

/-- The counters of `eval_mm_util`. -/
structure Totals where
  maxTotalSize : ℤ
  totalSize : ℤ
  deriving DecidableEq, Repr

/-- A change of the size in use; the maximum is updated. -/
def Totals.grow (t : Totals) (size : ℤ) : Totals :=
  let total := t.totalSize + size
  ⟨if total > t.maxTotalSize then total else t.maxTotalSize, total⟩

/-- A request of `eval_mm_util`. -/
def utilOp (L : Layout) (op : TraceOp) (d : Bench) (t : Totals) : Except Stop (Bench × Totals) :=
  match op.type with
  | .ALLOC =>
    match mmMalloc L d.heap (toSizeT op.size) with
    | .error e => .error (.fault e)
    | .ok (_, none) => .error .appError
    | .ok (h, some p) =>
      .ok ({ d with
        heap := h
        blocks := Function.update d.blocks op.index p
        blockSizes := Function.update d.blockSizes op.index (toSizeT op.size) }, t.grow op.size)
  | .REALLOC =>
    let oldsize := int32 (d.blockSizes op.index)
    match mmRealloc L d.heap (d.blocks op.index) (toSizeT op.size) with
    | .error e => .error (.fault e)
    | .ok (_, none) => .error .appError
    | .ok (h, some newp) =>
      .ok ({ d with
        heap := h
        blocks := Function.update d.blocks op.index newp
        blockSizes := Function.update d.blockSizes op.index (toSizeT op.size) },
        t.grow (op.size - oldsize))
  | .FREE =>
    let size := int32 (d.blockSizes op.index)
    .ok ({ d with heap := mmFree L d.heap (d.blocks op.index) },
      { t with totalSize := t.totalSize - size })

/-- The loop of `eval_mm_util`. -/
def utilOps (L : Layout) : List TraceOp → Bench → Totals → Except Stop (Bench × Totals)
  | [], d, t => .ok (d, t)
  | op :: ops, d, t => do
    let (d, t) ← utilOp L op d t
    utilOps L ops d t

/-- `eval_mm_util`: the quotient that it returns, as its numerator `max_total_size` and
its denominator `mem_heapsize()`. -/
def evalMmUtil (L : Layout) (ops : List TraceOp) (d : Bench) : Except Stop (Bench × ℤ × ℕ) := do
  let d ← restart L d
  let (d, t) ← utilOps L ops d ⟨0, 0⟩
  return (d, t.maxTotalSize, d.heap.brk - L.memStart)

/-- A request of `eval_mm_speed`. -/
def speedOp (L : Layout) (op : TraceOp) (d : Bench) : Except Stop Bench :=
  match op.type with
  | .ALLOC =>
    match mmMalloc L d.heap (toSizeT op.size) with
    | .error e => .error (.fault e)
    | .ok (_, none) => .error .appError
    | .ok (h, some p) => .ok { d with heap := h, blocks := Function.update d.blocks op.index p }
  | .REALLOC =>
    match mmRealloc L d.heap (d.blocks op.index) (toSizeT op.size) with
    | .error e => .error (.fault e)
    | .ok (_, none) => .error .appError
    | .ok (h, some newp) =>
      .ok { d with heap := h, blocks := Function.update d.blocks op.index newp }
  | .FREE => .ok { d with heap := mmFree L d.heap (d.blocks op.index) }

/-- The loop of `eval_mm_speed`. -/
def speedOps (L : Layout) : List TraceOp → Bench → Except Stop Bench
  | [], d => .ok d
  | op :: ops, d => do
    let d ← speedOp L op d
    speedOps L ops d

/-- `eval_mm_speed` -/
def evalMmSpeed (L : Layout) (ops : List TraceOp) (d : Bench) : Except Stop Bench := do
  let d ← restart L d
  speedOps L ops d

/-- `fsecs(eval_mm_speed, ..)`, which makes `n` runs. -/
def fsecs (L : Layout) (ops : List TraceOp) : ℕ → Bench → Except Stop Bench
  | 0, d => .ok d
  | n + 1, d => do
    let d ← evalMmSpeed L ops d
    fsecs L ops n d

/-- A trace in memory: the requests, and two arrays that `read_trace` does not initialise. -/
structure TraceData where
  ops : List TraceOp
  blocks : ℕ → ℕ
  blockSizes : ℕ → ℕ

/-- The loop of `main` over the traces from number `i` on.  A trace that is not valid has
no statistics, one that is has its utilization. -/
def evalTraces (L : Layout) :
    ℕ → List TraceData → Heap → List Range → Except Stop (List (Option (ℤ × ℕ)))
  | _, [], _, _ => .ok []
  | i, t :: ts, h, ranges =>
    match evalMmValid L t.ops i ⟨h, ranges, t.blocks, t.blockSizes⟩ with
    | .error (.mallocError _ _ _ h ranges) => do
      let stats ← evalTraces L (i + 1) ts h ranges
      return none :: stats
    | .error e => .error e
    | .ok d => do
      let (d, util) ← evalMmUtil L t.ops d
      let d ← fsecs L t.ops 10 d
      let stats ← evalTraces L (i + 1) ts d.heap d.ranges
      return some util :: stats

end MallocLab
end CsappLabs
