/-
# A program that uses the allocator

A `World` is the heap together with the blocks that the program holds, each with
the size it asked for.  The program keeps to the contract (`World.Permits`): the
sizes that it asks for do not wrap, it gives back and resizes only blocks that it
holds or `NULL`, and it writes only into the bytes that it asked for.  At any time
it can start over with `mem_reset_brk` and `mm_init`, as `mdriver.c` does for
every trace.
-/

import CsappLabs.Lib.System
import CsappLabs.MallocLab.Mm

namespace CsappLabs
namespace MallocLab

open Lib Lib.Memory

/-- A step of the program. -/
inductive Call where
  | reset
  | malloc (size : ℕ)
  | free (ptr : ℕ)
  | realloc (ptr size : ℕ)
  | store (addr : ℕ) (byte : UInt8)
  deriving DecidableEq

/-- The heap and the blocks in use, with the sizes asked for. -/
structure World where
  heap : Heap
  live : List (ℕ × ℕ)

namespace World

/-- The program holds the block at `ptr`. -/
def Holds (w : World) (ptr : ℕ) : Prop := ∃ x ∈ w.live, x.1 = ptr

instance (w : World) (ptr : ℕ) : Decidable (w.Holds ptr) :=
  inferInstanceAs (Decidable (∃ x ∈ w.live, x.1 = ptr))

/-- The blocks in use without the one at `ptr`. -/
def without (w : World) (ptr : ℕ) : List (ℕ × ℕ) := w.live.filter fun x => x.1 != ptr

/-- The contract. -/
def Permits (w : World) : Call → Prop
  | .reset => True
  | .malloc size => size + 19 < 2 ^ 32
  | .free ptr => ptr = 0 ∨ w.Holds ptr
  | .realloc ptr size => (ptr = 0 ∨ w.Holds ptr) ∧ size + 19 < 2 ^ 32
  | .store addr _ => ∃ x ∈ w.live, x.1 ≤ addr ∧ addr < x.1 + x.2

instance (w : World) : (c : Call) → Decidable (w.Permits c)
  | .reset => inferInstanceAs (Decidable True)
  | .malloc size => inferInstanceAs (Decidable (size + 19 < 2 ^ 32))
  | .free ptr => inferInstanceAs (Decidable (ptr = 0 ∨ w.Holds ptr))
  | .realloc ptr size =>
    inferInstanceAs (Decidable ((ptr = 0 ∨ w.Holds ptr) ∧ size + 19 < 2 ^ 32))
  | .store addr _ => inferInstanceAs (Decidable (∃ x ∈ w.live, x.1 ≤ addr ∧ addr < x.1 + x.2))

/-- The outcome of a call. -/
def call (L : Layout) (w : World) : Call → Except Fault World
  | .reset => do
    let h ← mmInit L { w.heap with brk := L.memStart }
    return ⟨h, []⟩
  | .malloc size => do
    let r ← mmMalloc L w.heap size
    return ⟨r.1, (r.2.map fun ptr => (ptr, size)).toList ++ w.live⟩
  | .free ptr => return ⟨mmFree L w.heap ptr, w.without ptr⟩
  | .realloc ptr size => do
    let r ← mmRealloc L w.heap ptr size
    return ⟨r.1, match r.2 with
      | some newPtr => (newPtr, size) :: w.without ptr
      | none => if ptr ≠ 0 ∧ size = 0 then w.without ptr else w.live⟩
  | .store addr byte =>
    return { w with heap := { w.heap with mem := Function.update w.heap.mem addr byte } }

end World

/-- The memory before the first `mm_init`: `head` is initialised, and the
heap has any contents. -/
structure Heap.Fresh (L : Layout) (h : Heap) : Prop where
  next : h.next L.head = L.head
  brk : h.brk = L.memStart

/-- The program and the allocator.  A run ends where a call does not return. -/
def mmSystem (L : Layout) : System World Call where
  init w := ∃ h, h.Fresh L ∧ mmInit L h = .ok w.heap ∧ w.live = []
  next w c := if w.Permits c then (w.call L c).toOption else none

/-- The first state over any contents of the memory. -/
def World.first (L : Layout) (mem : Memory) : World :=
  ⟨(mmInit L (resetHead L ⟨mem, L.memStart⟩)).toOption.getD ⟨mem, L.memStart⟩, []⟩

/-- A layout with small addresses. -/
def Layout.low : Layout where
  head := 64
  memStart := 128
  head_dvd := by decide
  start_dvd := by decide
  start_pos := by decide
  head_lt := by decide
  heap_lt := by decide
  apart := by decide

/-- The calls other than `mm_realloc`. -/
def Call.basic : Call → Bool
  | .realloc _ _ => false
  | _ => true

end MallocLab
end CsappLabs
