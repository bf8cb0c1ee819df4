import MallocBench.Allocator.Place

/-! # `mm_malloc` on block lists

On a well-formed heap `mm_malloc` is `allocate` on the block list: it returns null exactly when the
abstract allocator has no room (`mmMalloc_none`), and otherwise the address of the block it singles
out, with every used block kept byte for byte (`mmMalloc_some`).

It does so for the requests the heap `Serves`: those that are refused for want of room, and those
whose block size neither wraps nor exceeds the range of `int` and which do not leave exactly 8 bytes
of the block they are placed in. A request up to `INT_MAX` can only fail the last condition
(`Heap.serves_of_le`). -/

namespace MallocBench

open ByteMemory Segments

/-! ## Requests -/

/-- `INT_MAX`, the largest request size of the driver. -/
def intMax : Nat := 2 ^ 31 - 1

/-- The block a request needs. -/
def requestBlock (size : Nat) : Block where
  size := if size ≤ 8 then 16 else 8 * ((size + 15) / 8)
  alloc := true
  least_le := by split <;> omega
  unit_dvd := by split <;> omega

/-- The size of a block for a request: with header and footer, in multiples of 8. -/
theorem requestBlock_size (size : Nat) :
    (requestBlock size).size = if size ≤ 8 then 16 else 8 * ((size + 15) / 8) := rfl

/-- The free block `mm_malloc` extends the heap by when a request fits nowhere. -/
def expendBlock (a : Block) : Block where
  size := max a.size chunksize
  alloc := false
  least_le := le_trans a.least_le (le_max_left _ _)
  unit_dvd := by
    rcases max_choice a.size chunksize with h | h <;> rw [h]
    · exact a.unit_dvd
    · decide

/-- The block that extends the heap is free. -/
@[simp] theorem expendBlock_alloc (a : Block) : (expendBlock a).alloc = false := rfl

/-- It is a chunk, or the block asked for when that is longer. -/
theorem expendBlock_size (a : Block) : (expendBlock a).size = max a.size 4096 := rfl

/-- The bytes the blocks of a heap can take: all but the padding, the prologue and the epilogue. -/
def heapRoom : Nat := maxHeap - 16

/-- The bytes for blocks, in numbers. -/
theorem heapRoom_eq : heapRoom = 20971504 := rfl

/-- The abstract allocator the heap refines. -/
def allocateBlock (bs : List Block) (size : Nat) : Option (Focus 8 16) :=
  allocate heapRoom (expendBlock (requestBlock size)) bs (requestBlock size)

/-- A block fits into the one that extends the heap for it. -/
theorem requestBlock_le (size : Nat) :
    (requestBlock size).size ≤ (expendBlock (requestBlock size)).size := le_max_left _ _

/-- A request's block has room for the payload and the two tags. -/
theorem size_add_le_requestBlock (size : Nat) : size + 8 ≤ (requestBlock size).size := by
  rw [requestBlock_size]
  split <;> omega

/-- When the sum does not wrap, `asize` is the size of the request's block. -/
theorem adjustedSize_eq {size : Nat} (h : size + 15 < 2 ^ 64) :
    adjustedSize size = (requestBlock size).size := by
  rw [adjustedSize, requestBlock, show dsize = 8 from rfl]
  simp only
  split
  · rfl
  · rw [Nat.mod_eq_of_lt (by omega), show size + 8 + (8 - 1) = size + 15 by omega]

/-- What `mm_malloc` asks `mem_sbrk` for when a request fits nowhere. -/
def expendIncr (size : Nat) : Int :=
  toInt32 (extendSize (max (adjustedSize size) chunksize / wsize))

/-- The bytes `mm_malloc` extends the heap by, rounded to words and back. -/
theorem extendSize_expend {n : Nat} (hn : 8 ∣ n) (hlt : n < 2 ^ 64) :
    extendSize (max n chunksize / wsize) = max n 4096 := by
  rw [extendSize, show chunksize = 4096 from rfl, show wsize = 4 from rfl, if_pos (by omega)]
  omega

/-- The block size is a multiple of 8 within the range of `size_t`. -/
theorem adjustedSize_bounds (size : Nat) : 8 ∣ adjustedSize size ∧ adjustedSize size < 2 ^ 64 := by
  rw [adjustedSize, show dsize = 8 from rfl]
  split <;> omega

/-- Below `2 ^ 31` the increment is the number of bytes wanted. -/
theorem expendIncr_of_lt {size : Nat} (h : adjustedSize size < 2 ^ 31) :
    expendIncr size = (max (adjustedSize size) 4096 : Nat) := by
  obtain ⟨hdvd, hlt⟩ := adjustedSize_bounds size
  rw [expendIncr, extendSize_expend hdvd hlt, toInt32_of_lt (by omega)]

namespace Heap

/-- The request fits in no free block, and `mem_sbrk` refuses to extend the heap. -/
def Refuses (h : Heap) (size : Nat) : Prop :=
  findFit h.mem h.heapListp (adjustedSize size) = some none ∧ h.memSbrk (expendIncr size) = none

/-- The free block for the request is exactly 8 bytes longer than it needs: the block that `find_fit`
finds, or the chunk that `extend_heap` appends behind a used block. -/
def LeavesSliver (h : Heap) (size : Nat) : Prop :=
  match findFit h.mem h.heapListp (adjustedSize size) with
  | some (some bp) => getSize h.mem (hdrp bp) = adjustedSize size + 8
  | some none =>
    adjustedSize size + 8 = chunksize ∧ getAlloc h.mem (h.memBrk - dsize) ≠ 0
  | none => False

/-- The requests `mm_malloc` serves as it should. -/
def Serves (h : Heap) (size : Nat) : Prop :=
  size = 0 ∨ h.Refuses size ∨
    (size + 15 < 2 ^ 64 ∧ adjustedSize size < 2 ^ 31 ∧ ¬ h.LeavesSliver size)

instance (h : Heap) (size : Nat) : Decidable (h.Refuses size) :=
  inferInstanceAs (Decidable (_ ∧ _))

instance (h : Heap) (size : Nat) : Decidable (h.LeavesSliver size) :=
  match hf : findFit h.mem h.heapListp (adjustedSize size) with
  | some (some bp) =>
    decidable_of_iff (getSize h.mem (hdrp bp) = adjustedSize size + 8)
      (by rw [LeavesSliver, hf])
  | some none =>
    decidable_of_iff (adjustedSize size + 8 = chunksize ∧ getAlloc h.mem (h.memBrk - dsize) ≠ 0)
      (by rw [LeavesSliver, hf])
  | none => isFalse (by rw [LeavesSliver, hf]; exact id)

instance (h : Heap) (size : Nat) : Decidable (h.Serves size) :=
  inferInstanceAs (Decidable (_ ∨ _ ∨ _))

end Heap

/-! ## Used blocks -/

/-- No byte of a used block of `bs`, the first one at `a`, differs between the two memories. -/
def SameUsed (m m' : Mem) (a : Nat) (bs : List Block) : Prop :=
  ∀ p c, (p, c) ∈ located a bs → c.alloc = true →
    ∀ x, p - 4 ≤ x → x < p + c.size - 4 → m' x = m x

/-- The tag below the break belongs to the last block, or to the prologue. -/
theorem Tiled.lastAllocated {m : Mem} {listp brk : Nat} {bs : List Block} (h : Tiled m listp brk bs)
    (b : Block) : getAlloc m (brk - dsize) ≠ 0 ↔ Focus.LeftUsed ⟨bs, b, []⟩ := by
  have hbrk := h.brk_eq
  rw [getAlloc_eq, show dsize = 8 from rfl]
  rcases List.eq_nil_or_concat bs with rfl | ⟨cs, c, rfl⟩
  · rw [total_nil] at hbrk
    rw [show brk - 8 = listp by omega, h.ftr]
    exact iff_of_true (by decide) fun d hd => by simp at hd
  · rw [List.concat_eq_append] at *
    have hc : BlockAt m (listp + 8 + total cs) c :=
      h.walk.blockAt (by rw [located_append]; simp)
    rw [total_concat] at hbrk
    rw [show brk - 8 = listp + 8 + total cs + c.size - 8 by omega, hc.footer_eq, ← hdrp_eq,
      ← getAlloc_eq, hc.alloc]
    have hlast : Focus.LeftUsed ⟨cs ++ [c], b, []⟩ ↔ c.alloc = true := by
      simp [Focus.LeftUsed]
    rw [hlast]
    cases c.alloc <;> decide

/-! ## The guard on the block list -/

/-- `Heap.Refuses` on the block list. -/
def Refuses (bs : List Block) (size : Nat) : Prop :=
  firstFit (adjustedSize size) bs = none ∧
    (expendIncr size < 0 ∨ heapRoom < total bs + (expendIncr size).toNat)

/-- `Heap.LeavesSliver` on the block list: the block the request is carved from, found or appended,
is exactly 8 bytes longer than it needs. -/
def LeavesSliver (bs : List Block) (a : Block) : Prop :=
  match firstFit a.size bs with
  | some f => f.mid.size = a.size + 8
  | none => (grown bs (expendBlock a)).mid.size = a.size + 8

/-- `Heap.Serves` on the block list. -/
def ServesBlocks (bs : List Block) (size : Nat) : Prop :=
  size = 0 ∨ Refuses bs size ∨
    (size + 15 < 2 ^ 64 ∧ adjustedSize size < 2 ^ 31 ∧ ¬ LeavesSliver bs (requestBlock size))

/-- An appended block is exactly 8 bytes too long only when it is a chunk behind a used block. -/
theorem grown_size_eq_iff (bs : List Block) (a : Block) :
    (grown bs (expendBlock a)).mid.size = a.size + 8 ↔
      a.size + 8 = chunksize ∧ Focus.LeftUsed ⟨bs, expendBlock a, []⟩ := by
  have hexp := expendBlock_size a
  rw [show chunksize = 4096 from rfl]
  rcases grown_size bs (expendBlock a) with ⟨hu, hg⟩ | ⟨hu, hg⟩
  · simp only [hu, and_true]
    omega
  · simp only [hu, and_false, iff_false]
    omega

/-- `mem_sbrk` grants what is left of the room for blocks. -/
theorem memSbrk_none_iff {h : Heap} {bs : List Block} (hl : h.Layout bs) {incr : Int} :
    h.memSbrk incr = none ↔ incr < 0 ∨ heapRoom < total bs + incr.toNat := by
  have hlistp : h.heapListp = h.memStartBrk + 8 := hl.listp
  have hbrk := hl.tiled.brk_eq
  have hmax : h.memMaxAddr = h.memStartBrk + 20971520 := h.max_eq
  rw [Memlib.memSbrk_eq_none, heapRoom_eq]
  omega

/-- A heap refuses a request exactly when its block list does. -/
theorem refuses_iff {h : Heap} {bs : List Block} (hl : h.Layout bs) (size : Nat) :
    h.Refuses size ↔ Refuses bs size := by
  rw [Heap.Refuses, Refuses, findFit_eq hl, memSbrk_none_iff hl, Option.some_inj,
    Option.map_eq_none_iff]

/-- A request leaves a sliver exactly when it does so in the block list. -/
theorem leavesSliver_iff {h : Heap} {bs : List Block} (hl : h.Layout bs) {size : Nat}
    (hwrap : size + 15 < 2 ^ 64) :
    h.LeavesSliver size ↔ LeavesSliver bs (requestBlock size) := by
  rw [Heap.LeavesSliver, LeavesSliver, findFit_eq hl, adjustedSize_eq hwrap]
  cases hf : firstFit (requestBlock size).size bs with
  | some f =>
      obtain ⟨rfl, -⟩ := firstFit_some hf
      simp only [Option.map_some, hl.tiled.mid_blockAt.size]
  | none =>
      simp only [Option.map_none, grown_size_eq_iff,
        hl.tiled.lastAllocated (expendBlock (requestBlock size))]

/-- **Whether a heap serves a request depends on the block list only.** -/
theorem serves_iff {h : Heap} {bs : List Block} (hl : h.Layout bs) (size : Nat) :
    h.Serves size ↔ ServesBlocks bs size := by
  rw [Heap.Serves, ServesBlocks, refuses_iff hl]
  refine or_congr_right (or_congr_right (and_congr_right fun hwrap => and_congr_right fun _ => ?_))
  rw [leavesSliver_iff hl hwrap]

/-- The few block sizes above `INT_MAX` that requests up to `INT_MAX` have turn negative at
`mem_sbrk`. -/
theorem expendIncr_neg {size : Nat} (hs : size ≤ intMax) (hbig : 2 ^ 31 ≤ adjustedSize size) :
    expendIncr size < 0 := by
  have hmax : intMax = 2147483647 := rfl
  have hup : adjustedSize size < 2 ^ 32 := by
    rw [adjustedSize_eq (by omega), requestBlock_size]
    split <;> omega
  obtain ⟨hdvd, hlt⟩ := adjustedSize_bounds size
  rw [expendIncr, extendSize_expend hdvd hlt, toInt32, Nat.mod_eq_of_lt (by omega),
    if_neg (by omega)]
  omega

/-- No free block is as long as `INT_MAX`, so a request of such a block size is refused. -/
theorem refuses_of_large {bs : List Block} (hbs : total bs + 16 ≤ maxHeap) {size : Nat}
    (hs : size ≤ intMax) (hbig : 2 ^ 31 ≤ adjustedSize size) : Refuses bs size := by
  rw [maxHeap_eq] at hbs
  refine ⟨firstFit_none.mpr fun b hb _ => ?_, Or.inl (expendIncr_neg hs hbig)⟩
  have := size_le_total hb
  omega

/-- A request up to `INT_MAX` is served unless it leaves a sliver: the few block sizes above
`INT_MAX` are refused. -/
theorem Heap.serves_of_le {h : Heap} {bs : List Block} (hl : h.Layout bs) {size : Nat}
    (hs : size ≤ intMax) (hn : ¬ h.LeavesSliver size) : h.Serves size := by
  have hmax : intMax = 2147483647 := rfl
  by_cases hbig : adjustedSize size < 2 ^ 31
  · -- the block size is an `int`, so the sliver is the only obstacle
    exact Or.inr (Or.inr ⟨by omega, hbig, hn⟩)
  · exact Or.inr (Or.inl ((refuses_iff hl size).mpr
      (refuses_of_large hl.total_lt hs (by omega))))

/-- A refused request is one the abstract allocator has no room for. -/
theorem allocateBlock_of_refuses {bs : List Block} {size : Nat} (hbs : total bs + 16 ≤ maxHeap)
    (h : Refuses bs size) : allocateBlock bs size = none := by
  obtain ⟨hfit, hincr⟩ := h
  rw [maxHeap_eq] at hbs
  have hexp := expendBlock_size (requestBlock size)
  rw [heapRoom_eq] at hincr
  -- it is enough that the block of the request, not wrapped, fits nowhere
  suffices hnone : firstFit (requestBlock size).size bs = none ∧
      ¬ total bs + (expendBlock (requestBlock size)).size ≤ heapRoom by
    rw [allocateBlock, allocate, hnone.1]
    exact if_neg hnone.2
  rw [heapRoom_eq]
  by_cases hwrap : size + 15 < 2 ^ 64
  · rw [adjustedSize_eq hwrap] at hfit
    refine ⟨hfit, ?_⟩
    by_cases hbig : adjustedSize size < 2 ^ 31
    · rw [expendIncr_of_lt hbig, adjustedSize_eq hwrap] at hincr
      omega
    · rw [adjustedSize_eq hwrap] at hbig
      omega
  · -- a sum that wraps belongs to a block longer than the heap
    have hreq := size_add_le_requestBlock size
    refine ⟨firstFit_none.mpr fun b hb _ => ?_, by omega⟩
    have := size_le_total hb
    omega

/-! ## `mm_malloc` -/

/-- `mm_malloc` when the search finds a block. -/
theorem mmMalloc_found {h : Heap} {size bp : Nat} (hsize : size ≠ 0)
    (hf : findFit h.mem h.heapListp (adjustedSize size) = some (some bp)) :
    mmMalloc h size = some (some bp, h.setMem (place h.mem bp (adjustedSize size))) := by
  rw [mmMalloc, if_neg hsize]
  simp only [hf]

/-- `mm_malloc` when the heap cannot grow. -/
theorem mmMalloc_refused {h : Heap} {size : Nat} (hsize : size ≠ 0)
    (hf : findFit h.mem h.heapListp (adjustedSize size) = some none)
    (he : extendHeap h (max (adjustedSize size) chunksize / wsize) = (none, h)) :
    mmMalloc h size = some (none, h) := by
  rw [mmMalloc, if_neg hsize]
  simp only [hf, he]

/-- `mm_malloc` when the heap grows. -/
theorem mmMalloc_grown {h h' : Heap} {size bp : Nat} (hsize : size ≠ 0)
    (hf : findFit h.mem h.heapListp (adjustedSize size) = some none)
    (he : extendHeap h (max (adjustedSize size) chunksize / wsize) = (some bp, h')) :
    mmMalloc h size = some (some bp, h'.setMem (place h'.mem bp (adjustedSize size))) := by
  rw [mmMalloc, if_neg hsize]
  simp only [hf, he]

/-- The heap `h₁` on which `mm_malloc` calls `place`, and the free block it passes: the old heap and
the block that was found, or the grown heap and the block at its end. -/
structure Prepared (h : Heap) (bs : List Block) (a : Block) (h₁ : Heap) (f : Focus 8 16) : Prop where
  layout : h₁.Layout f.list
  free : f.mid.alloc = false
  fits : a.size ≤ f.mid.size
  listp : h₁.heapListp = h.heapListp
  start : h₁.memStartBrk = h.memStartBrk
  origin : (firstFit a.size bs = some f ∧ h₁ = h) ∨
    (firstFit a.size bs = none ∧ f = grown bs (expendBlock a) ∧
      h₁.memBrk = h.memBrk + (expendBlock a).size ∧
      ∀ x, x < h.heapListp + 8 + f.offset - 4 → h₁.mem x = h.mem x)

/-- **What `mm_malloc` does** with a request whose block size neither wraps nor exceeds the range of
`int`: it refuses it with nothing changed, or places it in a free block that is long enough. -/
theorem mmMalloc_cases {h : Heap} {bs : List Block} (hl : h.Layout bs) {size : Nat}
    (hsize : size ≠ 0) (hwrap : size + 15 < 2 ^ 64) (hlt : adjustedSize size < 2 ^ 31) :
    (Refuses bs size ∧ allocateBlock bs size = none ∧ mmMalloc h size = some (none, h)) ∨
      ∃ h₁ f, Prepared h bs (requestBlock size) h₁ f ∧
        allocateBlock bs size = some (f.carve (requestBlock size)) ∧
        mmMalloc h size = some (some (h.heapListp + 8 + f.offset),
          h₁.setMem (place h₁.mem (h.heapListp + 8 + f.offset) (requestBlock size).size)) := by
  have hadj := adjustedSize_eq hwrap
  have hfind := findFit_eq hl (adjustedSize size)
  rw [hadj] at hfind
  cases hf : firstFit (requestBlock size).size bs with
  | some f =>
      obtain ⟨hlist, hfree, hfit⟩ := firstFit_some hf
      rw [hf, ← hadj] at hfind
      refine Or.inr ⟨h, f, ⟨hlist ▸ hl, hfree, hfit, rfl, rfl, Or.inl ⟨hf, rfl⟩⟩, ?_, ?_⟩
      · rw [allocateBlock, allocate, hf]
      · rw [← hadj]
        exact mmMalloc_found hsize hfind
  | none =>
      have hlistp : h.heapListp = h.memStartBrk + 8 := hl.listp
      have hbrk := hl.tiled.brk_eq
      have hmax : h.memMaxAddr = h.memStartBrk + 20971520 := h.max_eq
      have hexp := expendBlock_size (requestBlock size)
      rw [hf, ← hadj] at hfind
      by_cases hroom : total bs + (expendBlock (requestBlock size)).size ≤ heapRoom
      · have hwords : extendSize (max (adjustedSize size) chunksize / wsize)
            = (expendBlock (requestBlock size)).size := by
          rw [extendSize_expend (adjustedSize_bounds size).1 (adjustedSize_bounds size).2, hadj]
          rfl
        rw [heapRoom_eq] at hroom
        obtain ⟨h₁, hext, hl₁, hlp, hst, hbrk₁, hlow, -⟩ := extendHeap_absorb hl
          (expendBlock_alloc (requestBlock size)) hwords (by omega)
        refine Or.inr ⟨h₁, grown bs (expendBlock (requestBlock size)),
          ⟨hl₁, grown_alloc bs (expendBlock_alloc _), ?_, hlp, hst,
            Or.inr ⟨hf, rfl, hbrk₁, hlow⟩⟩, ?_, ?_⟩
        · exact le_trans (requestBlock_le size) (le_grown_size bs _)
        · rw [allocateBlock, allocate, hf]
          exact if_pos hroom
        · rw [← hadj]
          exact mmMalloc_grown hsize hfind hext
      · -- the increment is the number of bytes wanted, and they do not fit
        have href : Refuses bs size := by
          rw [Refuses, expendIncr_of_lt hlt, hadj]
          exact ⟨hf, Or.inr (by omega)⟩
        refine Or.inl ⟨href, ?_, ?_⟩
        · rw [allocateBlock, allocate, hf]
          exact if_neg hroom
        · exact mmMalloc_refused hsize hfind (extendHeap_none ((refuses_iff hl size).mpr href).2)

/-- What `mm_malloc` does with a request up to `INT_MAX`. -/
theorem mmMalloc_cases_le {h : Heap} {bs : List Block} (hl : h.Layout bs) {size : Nat}
    (hsize : size ≠ 0) (hs : size ≤ intMax) :
    (Refuses bs size ∧ mmMalloc h size = some (none, h)) ∨
      ∃ h₁ f, Prepared h bs (requestBlock size) h₁ f ∧
        mmMalloc h size = some (some (h.heapListp + 8 + f.offset),
          h₁.setMem (place h₁.mem (h.heapListp + 8 + f.offset) (requestBlock size).size)) := by
  have hmax : intMax = 2147483647 := rfl
  by_cases hbig : adjustedSize size < 2 ^ 31
  · obtain ⟨href, -, hm⟩ | ⟨h₁, f, hp, -, hm⟩ := mmMalloc_cases hl hsize (by omega) hbig
    · exact Or.inl ⟨href, hm⟩
    · exact Or.inr ⟨h₁, f, hp, hm⟩
  · have href := refuses_of_large hl.total_lt hs (by omega)
    obtain ⟨hfind, hsbrk⟩ := (refuses_iff hl size).mpr href
    exact Or.inl ⟨href, mmMalloc_refused hsize hfind (extendHeap_none hsbrk)⟩

/-- A request that is answered has been placed in a prepared block. -/
theorem mmMalloc_placed {h h' : Heap} {bs : List Block} (hl : h.Layout bs) {size p : Nat}
    (hsize : size ≠ 0) (hs : size ≤ intMax) (hm : mmMalloc h size = some (some p, h')) :
    ∃ h₁ f, Prepared h bs (requestBlock size) h₁ f ∧ p = h.heapListp + 8 + f.offset ∧
      h' = h₁.setMem (place h₁.mem (h.heapListp + 8 + f.offset) (requestBlock size).size) := by
  obtain ⟨-, hnone⟩ | ⟨h₁, f, hp, hplaced⟩ := mmMalloc_cases_le hl hsize hs
  · simp [hnone] at hm
  · rw [hplaced, Option.some_inj, Prod.mk.injEq, Option.some_inj] at hm
    exact ⟨h₁, f, hp, hm.1.symm, hm.2.symm⟩

namespace Prepared

variable {h h₁ : Heap} {bs : List Block} {a : Block} {f : Focus 8 16}

/-- The block to place in is shorter than the heap. -/
theorem mid_lt (hp : Prepared h bs a h₁ f) : f.mid.size < 2 ^ 32 := by
  have htot := hp.layout.total_lt
  rw [maxHeap_eq, Focus.total_list] at htot
  omega

/-- A used block of the old list is in the list that is placed in, at its address, and outside the
block to place in. -/
theorem keeps (hp : Prepared h bs a h₁ f) {base p : Nat} {c : Block} (hused : c.alloc = true)
    (hc : (p, c) ∈ located base bs) : (p, c) ∈ located base f.list ∧ p ≠ base + f.offset ∧
      (p + c.size ≤ base + f.offset ∨ base + f.offset + f.mid.size ≤ p) := by
  have hin : (p, c) ∈ located base f.list := by
    rcases hp.origin with ⟨hf, -⟩ | ⟨-, rfl, -⟩
    · rwa [(firstFit_some hf).1]
    · rw [Focus.located_list]
      exact List.mem_append_left _ (mem_located_grown (by decide) _ hused hc)
  have hne : p ≠ base + f.offset := by
    rintro rfl
    have heq := located_inj (by decide) hin (f.mid_mem_located _)
    rw [heq, hp.free] at hused
    simp at hused
  exact ⟨hin, hne, located_disjoint hin (f.mid_mem_located _) hne⟩

/-- Growing the heap changes no byte of a used block. -/
theorem sameUsed (hp : Prepared h bs a h₁ f) (hge : 8 ≤ h.heapListp) :
    SameUsed h.mem h₁.mem (h.heapListp + 8) bs := by
  intro p c hc hused x hx hx'
  rcases hp.origin with ⟨-, rfl⟩ | ⟨-, rfl, -, hlow⟩
  · rfl
  · -- the used block lies below the block at the end of the grown heap
    have hend := (bounds_of_mem_located (mem_located_grown (by decide) (expendBlock a) hused hc)).2
    have hoff : total (grown bs (expendBlock a)).pre = (grown bs (expendBlock a)).offset := rfl
    have hle := c.least_le
    exact hlow x (by omega)

/-- Placing leaves the tags of the new block and changes only bytes of the block it is placed in. -/
theorem place (hp : Prepared h bs a h₁ f) :
    BlockAt (MallocBench.place h₁.mem (h.heapListp + 8 + f.offset) a.size)
        (h.heapListp + 8 + f.offset) a.used ∧
      ∀ x, x < h.heapListp + 8 + f.offset - 4 ∨
          h.heapListp + 8 + f.offset + f.mid.size - 4 ≤ x →
        MallocBench.place h₁.mem (h.heapListp + 8 + f.offset) a.size x = h₁.mem x := by
  have hmid := hp.layout.tiled.mid_blockAt
  rw [hp.listp] at hmid
  exact place_block hmid (by omega) hp.fits hp.mid_lt

/-- Neither growing the heap nor placing changes a byte of a used block. -/
theorem place_sameUsed (hp : Prepared h bs a h₁ f) (hge : 8 ≤ h.heapListp) :
    SameUsed h.mem (MallocBench.place h₁.mem (h.heapListp + 8 + f.offset) a.size)
      (h.heapListp + 8) bs := by
  intro p c hc hused x hx hx'
  have hdis := (hp.keeps hused hc).2.2
  have hpos := (bounds_of_mem_located hc).1
  have hle := c.least_le
  rw [hp.place.2 x (by omega)]
  exact hp.sameUsed hge p c hc hused x hx hx'

/-- Placing without a sliver carves the block. -/
theorem place_layout (hp : Prepared h bs a h₁ f) (hne : f.mid.size ≠ a.size + 8) :
    (h₁.setMem (MallocBench.place h₁.mem (h.heapListp + 8 + f.offset) a.size)).Layout
      (f.carve a).list := by
  rw [← hp.listp]
  exact Heap.Layout.setMem hp.layout (place_carve hp.layout.tiled hp.mid_lt hp.fits hne)
    (Focus.coalesced_carve a hp.layout.coalesced hp.free)

/-- A request that leaves no sliver is placed in a block `carve` and `place` agree on. -/
theorem size_ne (hp : Prepared h bs a h₁ f) (hs : ¬ LeavesSliver bs a) :
    f.mid.size ≠ a.size + 8 := by
  intro heq
  rw [LeavesSliver] at hs
  rcases hp.origin with ⟨hf, -⟩ | ⟨hf, rfl, -⟩ <;> rw [hf] at hs <;> exact hs heq

end Prepared

/-- **`mm_malloc` fails** exactly when the abstract allocator has no room, and then changes
nothing. -/
theorem mmMalloc_none {h : Heap} {bs : List Block} (hl : h.Layout bs) {size : Nat}
    (hsize : size ≠ 0) (hs : h.Serves size) (ha : allocateBlock bs size = none) :
    mmMalloc h size = some (none, h) := by
  obtain h0 | href | hfits := hs
  · exact absurd h0 hsize
  · exact mmMalloc_refused hsize href.1 (extendHeap_none href.2)
  · obtain ⟨-, -, hm⟩ | ⟨h₁, f, -, hsome, -⟩ := mmMalloc_cases hl hsize hfits.1 hfits.2.1
    · exact hm
    · rw [ha] at hsome
      exact absurd hsome (by simp)

/-- A served request for which the abstract allocator has room is placed without a sliver. -/
theorem mmMalloc_served {h : Heap} {bs : List Block} (hl : h.Layout bs) {size : Nat}
    (hsize : size ≠ 0) (hs : h.Serves size) {g : Focus 8 16} (ha : allocateBlock bs size = some g) :
    ∃ h₁ f, Prepared h bs (requestBlock size) h₁ f ∧ f.carve (requestBlock size) = g ∧
      mmMalloc h size = some (some (h.heapListp + 8 + f.offset),
        h₁.setMem (place h₁.mem (h.heapListp + 8 + f.offset) (requestBlock size).size)) ∧
      f.mid.size ≠ (requestBlock size).size + 8 := by
  obtain ⟨hwrap, hlt, hsliver⟩ : size + 15 < 2 ^ 64 ∧ adjustedSize size < 2 ^ 31 ∧
      ¬ LeavesSliver bs (requestBlock size) := by
    obtain h0 | href | hsrv := (serves_iff hl size).mp hs
    · exact absurd h0 hsize
    · rw [allocateBlock_of_refuses hl.total_lt href] at ha
      simp at ha
    · exact hsrv
  obtain ⟨-, hnone, -⟩ | ⟨h₁, f, hp, hsome, hm⟩ := mmMalloc_cases hl hsize hwrap hlt
  · exact absurd (ha.symm.trans hnone) (by simp)
  · exact ⟨h₁, f, hp, Option.some.inj (hsome.symm.trans ha), hm, hp.size_ne hsliver⟩

/-- **`mm_malloc` succeeds** as the abstract allocator does: it returns the address of the new block,
leaves a well-formed heap with the new block list, and changes no byte of a used block. -/
theorem mmMalloc_some {h : Heap} {bs : List Block} (hl : h.Layout bs) {size : Nat}
    (hsize : size ≠ 0) (hs : h.Serves size) {g : Focus 8 16} (ha : allocateBlock bs size = some g) :
    ∃ h', mmMalloc h size = some (some (h.heapListp + 8 + g.offset), h') ∧ h'.Layout g.list ∧
      h'.heapListp = h.heapListp ∧ h'.memStartBrk = h.memStartBrk ∧
      SameUsed h.mem h'.mem (h.heapListp + 8) bs := by
  obtain ⟨h₁, f, hp, rfl, hm, hne⟩ := mmMalloc_served hl hsize hs ha
  rw [Focus.carve_offset]
  refine ⟨_, hm, hp.place_layout hne, ?_, ?_, ?_⟩
  · rw [Heap.setMem_heapListp, hp.listp]
  · rw [Heap.setMem_memStartBrk, hp.start]
  · rw [Heap.setMem_mem]
    exact hp.place_sameUsed hl.tiled.listp_ge

end MallocBench
