/-
# The allocator

`malloclab/mm.c` over the heap of `malloclab/memlib.c`, compiled for a 32-bit
target with assertions.  A pointer and a `size_t` are numbers below `2^32`, and
their arithmetic is that of `unsigned`.  A block starts with the words `size`,
`prev` and `next`; `head` is a block outside the heap.

A call that does not return ends with a `Fault`: a failed assertion, or one of the
two ways in which `expand_heap` finds no memory left, with the heap as it called
`mem_sbrk`.  It exits if `mem_sbrk` fails.  But `mem_brk + incr` wraps, and then
`mem_sbrk` may see room where there is none; `memset` runs off the heap.  A loop gets
more steps than it can need and would end with `fuel`.
-/

import CsappLabs.Lib.Memory

namespace CsappLabs
namespace MallocLab

open Lib Lib.CInt Lib.Memory

abbrev MAX_HEAP : ℕ := 20 * 2 ^ 20

abbrev EXPAND_HEAP_SIZE : ℕ := 1024 * 4

/-- `sizeof(Block)` -/
abbrev SIZEOF_BLOCK : ℕ := 12

/-- `sizeof(Block) + sizeof(size_t)` -/
abbrev SIZE_OF_BLOCK : ℕ := 16

/-- Where the linker and `mem_init` put `head` and the heap. -/
structure Layout where
  head : ℕ
  memStart : ℕ
  head_dvd : 4 ∣ head
  start_dvd : 4 ∣ memStart
  start_pos : 0 < memStart
  head_lt : head + SIZEOF_BLOCK < 2 ^ 32
  heap_lt : memStart + MAX_HEAP < 2 ^ 32
  apart : head + SIZEOF_BLOCK ≤ memStart ∨ memStart + MAX_HEAP ≤ head

/-- The memory and `mem_brk`. -/
structure Heap where
  mem : Memory
  brk : ℕ

/-- How a call can end without returning. -/
inductive Fault where
  | assert
  | exit (h : Heap)
  /-- `memset` in `expand_heap` writes past the memory that `mem_init` got -/
  | overrun (h : Heap)
  | fuel

/-! ### Blocks -/

namespace Heap

/-- `*p` of a `size_t *` or a field of a block. -/
def read (h : Heap) (p : ℕ) : ℕ := h.mem.load p

/-- `*p = v` -/
def write (h : Heap) (p v : ℕ) : Heap := { h with mem := h.mem.store p v }

/-- `b->size` -/
def size (h : Heap) (b : ℕ) : ℕ := h.read b

/-- `b->prev` -/
def prev (h : Heap) (b : ℕ) : ℕ := h.read (add32 b 4)

/-- `b->next` -/
def next (h : Heap) (b : ℕ) : ℕ := h.read (add32 b 8)

/-- `b->size = v` -/
def setSize (h : Heap) (b v : ℕ) : Heap := h.write b v

/-- `b->prev = v` -/
def setPrev (h : Heap) (b v : ℕ) : Heap := h.write (add32 b 4) v

/-- `b->next = v` -/
def setNext (h : Heap) (b v : ℕ) : Heap := h.write (add32 b 8) v

/-- `SET_ALLOCATED(b)` -/
def setAllocated (h : Heap) (b : ℕ) : Heap := h.setSize b (alignDown 2 (h.size b) + 1)

/-- `SET_FREE(b)` -/
def setFree (h : Heap) (b : ℕ) : Heap := h.setSize b (alignDown 2 (h.size b))

/-- `IS_ALLOCATED(b)` -/
def isAllocated (h : Heap) (b : ℕ) : Bool := h.size b % 2 = 1

/-- `BLOCK_SIZE(b)` -/
def blockSize (h : Heap) (b : ℕ) : ℕ := alignDown 2 (h.size b)

/-- `FOOTER(b)` -/
def footer (h : Heap) (b : ℕ) : ℕ := sub32 (add32 b (h.blockSize b)) 4

end Heap

/-- `get_block_size` -/
def getBlockSize (size : ℕ) : ℕ := alignDown 4 (add32 (add32 size SIZE_OF_BLOCK) 3)

/-- `clear_block` -/
def clearBlock (h : Heap) (block : ℕ) : Heap :=
  let h := h.write (h.footer block) 0
  let h := h.setSize block 0
  let h := h.setPrev block 0
  h.setNext block 0

/-- `remove_from_list` -/
def removeFromList (h : Heap) (block : ℕ) : Heap :=
  let h := h.setNext (h.prev block) (h.next block)
  h.setPrev (h.next block) (h.prev block)

/-- `insert_to_list` -/
def insertToList (h : Heap) (block prevBlock : ℕ) : Heap :=
  let h := h.setPrev block prevBlock
  let h := h.setNext block (h.next prevBlock)
  let h := h.setPrev (h.next prevBlock) block
  h.setNext prevBlock block

/-- `split_block` -/
def splitBlock (L : Layout) (h : Heap) (block size : ℕ) (fromAllocated : Bool) : Heap :=
  let newBlock := add32 block size
  let h := h.setSize newBlock (sub32 (h.blockSize block) size)
  let h := h.write (h.footer newBlock) (h.blockSize newBlock)
  let h := h.setFree newBlock
  let h := h.setSize block size
  let h := h.write (h.footer block) size
  if fromAllocated then insertToList h newBlock L.head else insertToList h newBlock block

/-! ### Searching and coalescing -/

/-- The loop of `find_fit`, at `block`. -/
def findFitLoop (L : Layout) (h : Heap) (size : ℕ) : ℕ → ℕ → Except Fault (Heap × Option ℕ)
  | 0, _ => .error .fuel
  | fuel + 1, block =>
    if block = L.head then .ok (h, none)
    else if h.isAllocated block then .error .assert
    else if size ≤ h.blockSize block then
      if h.size block % 4 ≠ 0 ∨ size % 4 ≠ 0 then .error .assert
      else
        let h :=
          if add32 size SIZE_OF_BLOCK < h.blockSize block then splitBlock L h block size false
          else h
        .ok (removeFromList h block, some block)
    else findFitLoop L h size fuel (h.next block)

/-- `find_fit` -/
def findFit (L : Layout) (h : Heap) (size : ℕ) : Except Fault (Heap × Option ℕ) :=
  findFitLoop L h size (MAX_HEAP + 1) (h.next L.head)

/-- `coalesce` -/
def coalesce (L : Layout) (h : Heap) (block : ℕ) (fromAllocated : Bool) : Heap × ℕ :=
  let nextBlock := add32 block (h.blockSize block)
  let prevBlockSize := h.read (sub32 block 4)
  let prevBlock := sub32 block prevBlockSize
  let prevFree := 0 < prevBlockSize ∧ prevBlock ≠ L.head ∧ h.isAllocated prevBlock = false ∧
    h.size prevBlock ≠ 0
  let nextFree := nextBlock ≠ L.head ∧ h.isAllocated nextBlock = false ∧ h.size nextBlock ≠ 0
  if prevFree ∧ nextFree then
    let h := h.write (h.footer prevBlock) 0
    let h := h.setSize prevBlock
      (add32 (h.size prevBlock) (add32 (h.blockSize block) (h.blockSize nextBlock)))
    let h := h.write (h.footer prevBlock) (h.blockSize prevBlock)
    let h := removeFromList h nextBlock
    let h := if fromAllocated then h else removeFromList h block
    let h := clearBlock h nextBlock
    (clearBlock h block, prevBlock)
  else if prevFree then
    let h := h.write (h.footer prevBlock) 0
    let h := h.setSize prevBlock (add32 (h.size prevBlock) (h.blockSize block))
    let h := h.write (h.footer prevBlock) (h.blockSize prevBlock)
    let h := if fromAllocated then h else removeFromList h block
    (clearBlock h block, prevBlock)
  else if nextFree then
    let h := h.write (h.footer block) 0
    let h := h.setSize block (add32 (h.size block) (h.blockSize nextBlock))
    let h := h.write (h.footer block) (h.blockSize block)
    let h := removeFromList h nextBlock
    (clearBlock h nextBlock, block)
  else (h, block)

/-! ### Growing the heap -/

/-- `mem_sbrk`; a `size_t` from `2^31` on is a negative `int`. -/
def memSbrk (L : Layout) (h : Heap) (incr : ℕ) : Option (Heap × ℕ) :=
  if 2 ^ 31 ≤ incr ∨ L.memStart + MAX_HEAP < add32 h.brk incr then none
  else some ({ h with brk := add32 h.brk incr }, h.brk)

/-- The first loop of `expand_heap`, at `coalesceBlock`. -/
def coalesceLoop (L : Layout) : ℕ → Heap → ℕ → Except Fault Heap
  | 0, _, _ => .error .fuel
  | fuel + 1, h, coalesceBlock =>
    if coalesceBlock = L.head then .ok h
    else if coalesceBlock = 0 then .error .assert
    else
      let r := coalesce L h coalesceBlock false
      coalesceLoop L fuel r.1 (r.1.next r.2)

/-- `expand_heap` after its loop. -/
def addBlock (L : Layout) (h : Heap) (size : ℕ) : Except Fault Heap :=
  let lastBlock := sub32 h.brk 4
  match memSbrk L h size with
  | none => .error (.exit h)
  | some (h', block) =>
    if L.memStart + MAX_HEAP < block + size then .error (.overrun h)
    else
      let h := { h' with mem := h'.mem.fill block 0 size }
      let atEpilogue := h.isAllocated lastBlock ∧ h.blockSize lastBlock = 0
      let block := if atEpilogue then lastBlock else block
      let size := if atEpilogue then add32 size 4 else size
      let h := h.setSize block (sub32 size 4)
      let h := h.write (h.footer block) (h.blockSize block)
      let h := insertToList h block L.head
      let epilogue := add32 block (h.blockSize block)
      let h := h.setSize epilogue 0
      .ok (h.setAllocated epilogue)

/-- `expand_heap` -/
def expandHeap (L : Layout) (h : Heap) (size : ℕ) : Except Fault Heap := do
  if size ≤ SIZE_OF_BLOCK then throw .assert
  let h ← coalesceLoop L (MAX_HEAP * MAX_HEAP) h (h.next L.head)
  addBlock L h size

/-- The loop of `mm_init`, at `block`. -/
def clearLoop (L : Layout) : ℕ → Heap → ℕ → Except Fault Heap
  | 0, _, _ => .error .fuel
  | fuel + 1, h, block =>
    if block = L.head then .ok h
    else clearLoop L fuel (clearBlock h block) (h.next block)

/-- `mm_init` between its loop and its `mem_sbrk`. -/
def resetHead (L : Layout) (h : Heap) : Heap :=
  let h := h.setSize L.head 0
  let h := h.setPrev L.head L.head
  h.setNext L.head L.head

/-- What `mm_init` writes at `prologue`; `ALIGN(sizeof(Block))` is `8`. -/
def setPrologue (h : Heap) (prologue : ℕ) : Heap :=
  let h := h.setSize prologue 8
  let h := h.setAllocated prologue
  h.write (h.footer prologue) (h.blockSize prologue)

/-- `mm_init`, which does not look for a `mem_sbrk` that fails. -/
def mmInit (L : Layout) (h : Heap) : Except Fault Heap := do
  let h ← clearLoop L (MAX_HEAP + 1) h (h.next L.head)
  let r := (memSbrk L (resetHead L h) 8).getD (resetHead L h, 2 ^ 32 - 1)
  expandHeap L (setPrologue r.1 r.2) EXPAND_HEAP_SIZE

/-! ### The interface -/

/-- `mm_malloc` -/
def mmMalloc (L : Layout) (h : Heap) (size : ℕ) : Except Fault (Heap × Option ℕ) := do
  let size := getBlockSize size
  let (h, block) ← findFit L h size
  match block with
  | some block => return (h.setAllocated block, some (add32 block SIZEOF_BLOCK))
  | none =>
    let h ← expandHeap L h (if size > EXPAND_HEAP_SIZE then size else EXPAND_HEAP_SIZE)
    let (h, block) ← findFit L h size
    match block with
    | some block => return (h.setAllocated block, some (add32 block SIZEOF_BLOCK))
    | none => return (h, none)

/-- `mm_free` -/
def mmFree (L : Layout) (h : Heap) (ptr : ℕ) : Heap :=
  if ptr = 0 then h
  else
    let block := sub32 ptr SIZEOF_BLOCK
    let h := h.setFree block
    let r := coalesce L h block true
    let coalescedBlock := r.2
    if coalescedBlock = block then insertToList r.1 coalescedBlock L.head else r.1

/-- Case 4 of `mm_realloc`. -/
def reallocMove (L : Layout) (h : Heap) (ptr size : ℕ) : Except Fault (Heap × Option ℕ) := do
  let (h, newPtr) ← mmMalloc L h size
  match newPtr with
  | none => return (h, none)
  | some newPtr =>
    let h := { h with mem := h.mem.copy newPtr ptr size }
    return (mmFree L h ptr, some newPtr)

/-- Case 3 of `mm_realloc`, and on to case 4. -/
def reallocMerge (L : Layout) (h : Heap) (ptr size block nextBlock : ℕ) :
    Except Fault (Heap × Option ℕ) :=
  let reallocBlockSize := getBlockSize size
  if nextBlock ≠ L.head ∧ h.isAllocated nextBlock = false ∧ h.size nextBlock ≠ 0 then
    let h := h.write (h.footer block) 0
    let h := h.setSize block (add32 (h.size block) (h.blockSize nextBlock))
    let h := h.write (h.footer block) (h.blockSize block)
    let h := removeFromList h nextBlock
    let h := clearBlock h nextBlock
    if add32 reallocBlockSize SIZE_OF_BLOCK < h.blockSize block then
      let h := splitBlock L h block reallocBlockSize true
      .ok (h.setAllocated block, some ptr)
    else reallocMove L h ptr size
  else reallocMove L h ptr size

/-- `mm_realloc` of a block, from its case 1 on. -/
def reallocBlock (L : Layout) (h : Heap) (ptr size block : ℕ) :
    Except Fault (Heap × Option ℕ) := do
  let reallocBlockSize := getBlockSize size
  if h.isAllocated block = false then throw .assert
  let h := h.setNext block 0
  let h := h.setPrev block 0
  if add32 reallocBlockSize SIZE_OF_BLOCK < h.blockSize block then
    let h := splitBlock L h block reallocBlockSize true
    return (h.setAllocated block, some ptr)
  let nextBlock := add32 block (h.blockSize block)
  let epilogue := sub32 h.brk 4
  let extraSize := sub32 reallocBlockSize (h.blockSize block)
  if nextBlock = epilogue ∧ extraSize > SIZE_OF_BLOCK then
    let h ← expandHeap L h (sub32 reallocBlockSize (h.blockSize block))
    let h := removeFromList h (h.next L.head)
    let h := h.setSize block reallocBlockSize
    return (h.setAllocated block, some ptr)
  reallocMerge L h ptr size block nextBlock

/-- `mm_realloc` -/
def mmRealloc (L : Layout) (h : Heap) (ptr size : ℕ) : Except Fault (Heap × Option ℕ) :=
  if ptr = 0 then mmMalloc L h size
  else if size = 0 then .ok (mmFree L h ptr, none)
  else reallocBlock L h ptr size (sub32 ptr SIZEOF_BLOCK)

end MallocLab
end CsappLabs
