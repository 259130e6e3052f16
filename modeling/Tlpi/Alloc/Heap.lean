import Tlpi.Lib.ByteMem
import Tlpi.Lib.Fault
import Tlpi.Lib.NullChain

/-!
# `po_malloc` and `po_free`

The allocator of `07-memory-allocation/po_malloc_free.c` over a byte memory. A block is a
24-byte header followed by `block_length` bytes; the header holds `block_length` at offset
0, `prev_free_chunk` at 8 and `next_free_chunk` at 16. Pointers and sizes are 64-bit, so
all address arithmetic is modulo `2 ^ 64`; `NULL` is 0. The `while` loop of `po_malloc`
need not end, so `scan` takes the number of iterations it may make.

`sbrk(n)` returns the old break and grows the heap by `n`, or fails with `(void *)-1` past
the limit of the data segment. Memory is mapped by pages, up to the end of the page of the
break; a process that stores a header beyond that is killed.
-/

namespace Tlpi.Alloc

open Tlpi.Lib

/-- The process memory, the break and the one static variable of the allocator. -/
structure Heap where
  mem : Mem
  brk : Nat
  limit : Nat
  freeLlHead : Nat
  brk_le : brk ≤ limit
  limit_lt : limit < addrSpace

/-- `sizeof(block_header_t)` -/
def headerSize : Nat := 24

/-- `FREE_BLOCK_HEADER(ptr)` -/
def freeBlockHeader (ptr : Nat) : Nat := (ptr + addrSpace - headerSize) % addrSpace

/-- `FREE_BLOCK_MEMORY(ptr)` -/
def freeBlockMemory (ptr : Nat) : Nat := (ptr + headerSize) % addrSpace

namespace Heap

variable (h : Heap)

/-- The 64-bit word at `a`. -/
def word (a : Nat) : Nat := loadLE h.mem a 8

/-- Store a 64-bit word. -/
def store (a v : Nat) : Heap := { h with mem := storeLE h.mem a 8 v }

def blockLength (p : Nat) : Nat := h.word p
def prevFreeChunk (p : Nat) : Nat := h.word (p + 8)
def nextFreeChunk (p : Nat) : Nat := h.word (p + 16)

def setBlockLength (p v : Nat) : Heap := h.store p v
def setPrevFreeChunk (p v : Nat) : Heap := h.store (p + 8) v
def setNextFreeChunk (p v : Nat) : Heap := h.store (p + 16) v
def setFreeLlHead (p : Nat) : Heap := { h with freeLlHead := p }

/-- `ll_remove`: take `listItem` out of the free list. -/
def llRemove (listItem : Nat) : Heap :=
  let h :=
    if h.prevFreeChunk listItem = 0 then
      if h.nextFreeChunk listItem ≠ 0 then h.setFreeLlHead (h.nextFreeChunk listItem)
      else h.setFreeLlHead 0
    else h.setNextFreeChunk (h.prevFreeChunk listItem) (h.nextFreeChunk listItem)
  if h.nextFreeChunk listItem ≠ 0 then
    h.setPrevFreeChunk (h.nextFreeChunk listItem) (h.prevFreeChunk listItem)
  else h

/-- `ll_replace`: put `newItem` where `oldItem` is in the free list. -/
def llReplace (oldItem newItem : Nat) : Heap :=
  let h :=
    if h.prevFreeChunk oldItem ≠ 0 then h.setNextFreeChunk (h.prevFreeChunk oldItem) newItem
    else h.setFreeLlHead newItem
  let h :=
    if h.nextFreeChunk oldItem ≠ 0 then h.setPrevFreeChunk (h.nextFreeChunk oldItem) newItem
    else h
  let h := h.setPrevFreeChunk newItem (h.prevFreeChunk oldItem)
  h.setNextFreeChunk newItem (h.nextFreeChunk oldItem)

def pageSize : Nat := 4096

/-- Where the memory that `sbrk` has given ends. -/
def pageEnd : Nat := (h.brk + pageSize - 1) / pageSize * pageSize

/-- A store into the memory that `sbrk` has given. -/
def storeTop (a v : Nat) : Except Fault Heap :=
  if a + 8 ≤ h.pageEnd then .ok (h.store a v) else .error .outOfBounds

/-- `sbrk(n)` -/
def sbrk (n : Nat) : Nat × Heap :=
  if hn : h.brk + n ≤ h.limit then (h.brk, { h with brk := h.brk + n, brk_le := hn })
  else (addrSpace - 1, h)

/-- The `while` loop of `po_malloc` from `currentHeader`: the header it stops at, 0 when it
has run off the list, nothing when it has not stopped after `fuel` iterations. -/
def scan (size : Nat) : (fuel : Nat) → (currentHeader : Nat) → Option Nat
  | 0, _ => none
  | fuel + 1, currentHeader =>
    if currentHeader = 0 then some 0
    else if h.blockLength currentHeader ≥ size then some currentHeader
    else scan size fuel (h.nextFreeChunk currentHeader)

/-- The body of the loop at a block that is large enough. -/
def takeFree (size currentHeader : Nat) : Nat × Heap :=
  let sizePlusHeader := (size + headerSize) % addrSpace
  let memoryToUse := freeBlockMemory currentHeader
  if h.blockLength currentHeader > sizePlusHeader then
    let newFreeHeader := (memoryToUse + size) % addrSpace
    let h := h.setBlockLength newFreeHeader (h.blockLength currentHeader - size)
    (memoryToUse, h.llReplace currentHeader newFreeHeader)
  else (memoryToUse, h.llRemove currentHeader)

/-- `po_malloc` after the loop. `current_header` is `NULL` there, so `expand_size` is
`size_plus_header`; a failed `sbrk` does not return the `NULL` that the test looks for. -/
def expand (size : Nat) : Except Fault (Nat × Heap) :=
  let sizePlusHeader := (size + headerSize) % addrSpace
  let (blockHeader, h) := h.sbrk sizePlusHeader
  let memoryToUse := freeBlockMemory blockHeader
  if blockHeader = 0 then .ok (0, h)
  else do
    let h ← h.storeTop (blockHeader + 16) 0
    let h ← h.storeTop (blockHeader + 8) 0
    let h ← h.storeTop blockHeader size
    return (memoryToUse, h)

/-- `po_malloc(size)`: the pointer it returns and the heap it leaves. -/
def poMalloc (fuel size : Nat) : Except Fault (Nat × Heap) :=
  match h.scan size fuel h.freeLlHead with
  | none => .error .outOfFuel
  | some 0 => h.expand size
  | some currentHeader => .ok (h.takeFree size currentHeader)

/-- `po_free(ptr)`. The old head's `prev_free_chunk` gets `ptr` itself, the payload address
of the block just freed. -/
def poFree (ptr : Nat) : Heap :=
  let newFreedHeader := freeBlockHeader ptr
  let h := h.setPrevFreeChunk newFreedHeader 0
  if h.freeLlHead ≠ 0 then
    let h := h.setNextFreeChunk newFreedHeader h.freeLlHead
    let h := h.setPrevFreeChunk h.freeLlHead ptr
    h.setFreeLlHead newFreedHeader
  else
    let h := h.setNextFreeChunk newFreedHeader 0
    h.setFreeLlHead newFreedHeader

end Heap

end Tlpi.Alloc
