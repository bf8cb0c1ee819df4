import MallocBench.Allocator.Memlib

/-! # The allocator (`mm.c`)

An implicit-list allocator with boundary tags: every block carries its size and allocated bit in a
header word just below its payload pointer `bp` and in a footer word at its end; a prologue block
and an epilogue header close the list at both ends. Pointers and `size_t` values are natural
numbers, with the wrap-around of 64-bit sums and of the 32-bit `int` argument of `mem_sbrk` written
out. A null pointer is `none`.

`findFit` walks the list with no bound of its own. `findFitLoop` gives it one: a pass moves `bp` up
by at least 8, so a search that has not ended after `MAX_HEAP` passes has left the simulated memory,
which in C is undefined behaviour. The functions that search return `none` in that case. -/

namespace MallocBench

open ByteMemory

/-! ## Constants and macros -/

/-- `WSIZE`: word and header/footer size in bytes. -/
def wsize : Nat := 4

/-- `DSIZE`: double word size in bytes. -/
def dsize : Nat := 8

/-- `CHUNKSIZE`: extend the heap by this amount in bytes. -/
def chunksize : Nat := 1 <<< 12

/-- `SIZE_T_SIZE`: `ALIGN(sizeof(size_t))` on a 64-bit target. -/
def sizeTSize : Nat := (8 + (8 - 1)) / 8 * 8

/-- `PACK(size, alloc)`: a size and an allocated bit in one word. -/
def pack (size alloc : Nat) : Nat := size ||| alloc

/-- `GET(p)`: the word at `p`. -/
def get (m : Mem) (p : Nat) : Nat := loadLE m p wsize

/-- `PUT(p, val)`: store a word at `p`, truncated to `unsigned int`. -/
def put (m : Mem) (p val : Nat) : Mem := storeLE m p val wsize

/-- `GET_SIZE(p)`: the size field of the word at `p`. -/
def getSize (m : Mem) (p : Nat) : Nat := get m p &&& 0xFFFFFFF8

/-- `GET_ALLOC(p)`: the allocated bit of the word at `p`. -/
def getAlloc (m : Mem) (p : Nat) : Nat := get m p &&& 0x01

/-- `HDRP(bp)`: the header address of a block. -/
def hdrp (bp : Nat) : Nat := bp - wsize

/-- `FTRP(bp)`: the footer address of a block. -/
def ftrp (m : Mem) (bp : Nat) : Nat := bp + getSize m (hdrp bp) - dsize

/-- `NEXT_BLKP(bp)`: the next block. -/
def nextBlkp (m : Mem) (bp : Nat) : Nat := bp + getSize m (hdrp bp)

/-- `PREV_BLKP(bp)`: the previous block. -/
def prevBlkp (m : Mem) (bp : Nat) : Nat := bp - getSize m (bp - dsize)

/-- The memory system together with the allocator's variable `heap_listp`. -/
structure Heap extends Memlib where
  /-- `heap_listp`: the prologue block. -/
  heapListp : Nat

/-- The heap with its bytes replaced. -/
def Heap.setMem (h : Heap) (m : Mem) : Heap := { h with mem := m }

/-- The memory that has been set. -/
@[simp] theorem Heap.setMem_mem (h : Heap) (m : Mem) : (h.setMem m).mem = m := rfl

/-- Writing to the memory leaves the start of the heap. -/
@[simp] theorem Heap.setMem_memStartBrk (h : Heap) (m : Mem) :
    (h.setMem m).memStartBrk = h.memStartBrk := rfl

/-- It leaves the break. -/
@[simp] theorem Heap.setMem_memBrk (h : Heap) (m : Mem) : (h.setMem m).memBrk = h.memBrk := rfl

/-- It leaves the end of the memory. -/
@[simp] theorem Heap.setMem_memMaxAddr (h : Heap) (m : Mem) :
    (h.setMem m).memMaxAddr = h.memMaxAddr := rfl

/-- It leaves `heap_listp`. -/
@[simp] theorem Heap.setMem_heapListp (h : Heap) (m : Mem) :
    (h.setMem m).heapListp = h.heapListp := rfl

/-- Of two memories, the last counts. -/
@[simp] theorem Heap.setMem_setMem (h : Heap) (m m' : Mem) :
    (h.setMem m).setMem m' = h.setMem m' := rfl

/-- A value converted to a C `int`. -/
def toInt32 (n : Nat) : Int :=
  if n % 2 ^ 32 < 2 ^ 31 then (n % 2 ^ 32 : Nat) else (n % 2 ^ 32 : Nat) - 2 ^ 32

/-! ## Static functions -/

/-- `coalesce`: join a free block with its free neighbours; returns the joined block. -/
def coalesce (m : Mem) (bp : Nat) : Nat × Mem :=
  let isPrevAllocated := getAlloc m (hdrp (prevBlkp m bp))
  let isNextAllocated := getAlloc m (hdrp (nextBlkp m bp))
  let size := getSize m (hdrp bp)
  if isPrevAllocated ≠ 0 ∧ isNextAllocated ≠ 0 then (bp, m)
  else if isPrevAllocated ≠ 0 ∧ isNextAllocated = 0 then
    let size := size + getSize m (hdrp (nextBlkp m bp))
    let m := put m (hdrp bp) (pack size 0)
    let m := put m (ftrp m bp) (pack size 0)
    (bp, m)
  else if isPrevAllocated = 0 ∧ isNextAllocated ≠ 0 then
    let size := size + getSize m (hdrp (prevBlkp m bp))
    let m := put m (hdrp (prevBlkp m bp)) (pack size 0)
    let m := put m (ftrp m bp) (pack size 0)
    (prevBlkp m bp, m)
  else
    -- the two neighbours' sizes are added as `unsigned int` before they widen
    let size := size +
      (getSize m (hdrp (prevBlkp m bp)) + getSize m (hdrp (nextBlkp m bp))) % 2 ^ 32
    let m := put m (hdrp (prevBlkp m bp)) (pack size 0)
    let m := put m (ftrp m (nextBlkp m bp)) (pack size 0)
    (prevBlkp m bp, m)

/-- `extend_heap`: grow the heap by `words` words rounded up to an even number; returns the free
block at the end of the grown heap, or null. -/
def extendHeap (h : Heap) (words : Nat) : Option Nat × Heap :=
  let size := (if words % 2 = 0 then words * wsize else (words + 1) * wsize) % 2 ^ 64
  match h.memSbrk (toInt32 size) with
  | none => (none, h)
  | some (bp, s) =>
    -- the old epilogue header becomes the header of the new block
    let m := put s.mem (hdrp bp) (pack size 0)
    let m := put m (ftrp m bp) (pack size 0)
    let m := put m (hdrp (nextBlkp m bp)) (pack 0 1)
    let (bp, m) := coalesce m bp
    (some bp, { toMemlib := { s with mem := m }, heapListp := h.heapListp })

/-- The loop of `find_fit`, at most `fuel` passes of it. -/
def findFitLoop (m : Mem) (asize : Nat) : Nat → Nat → Option (Option Nat)
  | 0, _ => none
  | fuel + 1, bp =>
    let size := getSize m (hdrp bp)
    if size = 0 then some none
    else if getAlloc m (hdrp bp) = 0 ∧ asize ≤ size then some (some bp)
    else findFitLoop m asize fuel (nextBlkp m bp)

/-- `find_fit`: the first free block of at least `asize` bytes after the prologue, or null. -/
def findFit (m : Mem) (heapListp asize : Nat) : Option (Option Nat) :=
  findFitLoop m asize maxHeap (nextBlkp m heapListp)

/-- `place`: mark `asize` bytes of the free block `bp` allocated, splitting off the rest when it
is at least 16 bytes. The difference of the sizes is a `size_t`. -/
def place (m : Mem) (bp asize : Nat) : Mem :=
  let originalSize := getSize m (hdrp bp)
  let rest := (originalSize + 2 ^ 64 - asize) % 2 ^ 64
  let m := put m (hdrp bp) (pack asize 1)
  let m := put m (ftrp m bp) (pack asize 1)
  if rest < dsize * 2 then m
  else
    let m := put m (hdrp (nextBlkp m bp)) (pack rest 0)
    put m (ftrp m (nextBlkp m bp)) (pack rest 0)

/-! ## The interface -/

/-- `mm_init`: returns 0, or -1 when the heap cannot grow. -/
def mmInit (s : Memlib) : Int × Heap :=
  match s.memSbrk ((4 * wsize : Nat) : Int) with
  | none => (-1, { toMemlib := s, heapListp := 2 ^ 64 - 1 })
  | some (listp, s) =>
    let m := put s.mem listp 0
    let m := put m (listp + 1 * wsize) (pack dsize 1)
    let m := put m (listp + 2 * wsize) (pack dsize 1)
    let m := put m (listp + 3 * wsize) (pack 0 1)
    let h : Heap := { toMemlib := { s with mem := m }, heapListp := listp + 2 * wsize }
    match extendHeap h (chunksize / wsize) with
    | (none, h) => (-1, h)
    | (some _, h) => (0, h)

/-- The block size `mm_malloc` needs for a request: header and footer included, rounded up to a
multiple of 8, the sum being a `size_t`. -/
def adjustedSize (size : Nat) : Nat :=
  if size ≤ dsize then dsize * 2
  else dsize * ((size + dsize + (dsize - 1)) % 2 ^ 64 / dsize)

/-- `mm_malloc`: a block for `size` bytes, or null. -/
def mmMalloc (h : Heap) (size : Nat) : Option (Option Nat × Heap) :=
  if size = 0 then some (none, h)
  else
    let asize := adjustedSize size
    match findFit h.mem h.heapListp asize with
    | none => none
    | some (some bp) => some (some bp, h.setMem (place h.mem bp asize))
    | some none =>
      match extendHeap h (max asize chunksize / wsize) with
      | (none, h) => some (none, h)
      | (some bp, h) => some (some bp, h.setMem (place h.mem bp asize))

/-- `mm_free`: mark the block free and coalesce. -/
def mmFree (h : Heap) (ptr : Nat) : Heap :=
  let size := getSize h.mem (hdrp ptr)
  let m := put h.mem (hdrp ptr) (pack size 0)
  let m := put m (ftrp m ptr) (pack size 0)
  h.setMem (coalesce m ptr).2

/-- The copy length `mm_realloc` uses: the `size_t` in the 8 bytes below the old block, clamped by
the request. -/
def copySize (m : Mem) (oldptr size : Nat) : Nat :=
  let copySize := loadLE m (oldptr - sizeTSize) 8
  if size < copySize then size else copySize

/-- `mm_realloc`: a new block with the old contents copied over, the old one freed; or null. The
`memcpy` copies from the contents before the call. -/
def mmRealloc (h : Heap) (ptr size : Nat) : Option (Option Nat × Heap) :=
  match mmMalloc h size with
  | none => none
  | some (none, h) => some (none, h)
  | some (some newptr, h) =>
    let h := h.setMem (memcpy h.mem newptr ptr (copySize h.mem ptr size))
    some (some newptr, mmFree h ptr)

end MallocBench
