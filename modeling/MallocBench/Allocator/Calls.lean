import MallocBench.Allocator.Realloc

/-! # Single calls on a well-formed heap

What one call of `mm_malloc` or `mm_realloc` does to any well-formed heap, whatever run led to it and
whether or not the call leaves a sliver:

* `failure_exact`: when the two return null, and that they then change nothing;
* `mmMalloc_footprint`: which bytes `mm_malloc` writes, and where the new payload lies;
* `mallocSound_iff`: the request sizes, up to the largest `size_t`, for which `mm_malloc` returns null
  or a block that is long enough;
* `mmRealloc_copies_iff`: when the copy of `mm_realloc` stays inside the old payload;
* `mmRealloc_preserves`: what `mm_realloc` keeps. -/

namespace MallocBench

open ByteMemory Segments

/-! ## Failure -/

/-- A request up to `INT_MAX` is refused exactly when no free block is long enough for it and the
heap has no room for the block, or for a chunk if that is longer. -/
theorem refuses_iff_no_room {bs : List Block} {size : Nat} (hs : size ≤ intMax) :
    Refuses bs size ↔
      (∀ b ∈ bs, b.alloc = false → b.size < (requestBlock size).size) ∧
        maxHeap < total bs + 16 + max (requestBlock size).size chunksize := by
  have hmax : intMax = 2147483647 := rfl
  have hadj : adjustedSize size = _ := adjustedSize_eq (by omega)
  have hchunk : chunksize = 4096 := rfl
  rw [Refuses, hadj, firstFit_none]
  refine and_congr_right fun _ => ?_
  rw [maxHeap_eq, heapRoom_eq]
  by_cases hbig : adjustedSize size < 2 ^ 31
  · rw [expendIncr_of_lt hbig, hadj]
    omega
  · have hneg := expendIncr_neg hs (by omega)
    omega

/-- **Failure is exact and changes nothing.** For a request up to `INT_MAX`, `mm_malloc` returns null
exactly when no free block has the block size of the request and the heap would grow over `MAX_HEAP`;
`mm_realloc` of an allocated block returns null exactly for size 0 and when `mm_malloc` does. Whenever
they return null, the heap is as it was before the call. -/
theorem failure_exact (h : Heap) (bs : List Block) (hl : h.Layout bs) (size : Nat)
    (hs : size ≤ intMax) :
    (1 ≤ size → ∃ r h', mmMalloc h size = some (r, h') ∧
      (r = none ↔ (∀ b ∈ bs, b.alloc = false → b.size < (requestBlock size).size) ∧
        maxHeap < h.memHeapsize + max (requestBlock size).size chunksize) ∧
      (r = none → h' = h)) ∧
    ∀ old c, (old, c) ∈ located (h.heapListp + 8) bs → c.alloc = true →
      ∃ r h', mmRealloc h old size = some (r, h') ∧
        (r = none ↔ size = 0 ∨ ∃ h'', mmMalloc h size = some (none, h'')) ∧
        (r = none → h' = h) := by
  rw [hl.memHeapsize_eq]
  constructor
  · intro hpos
    rw [← refuses_iff_no_room hs]
    obtain ⟨href, hm⟩ | ⟨h₁, f, hp, hm⟩ := mmMalloc_cases_le hl (by omega) hs
    · exact ⟨none, h, hm, iff_of_true rfl href, fun _ => rfl⟩
    · -- a request that is placed was not refused
      refine ⟨_, _, hm, iff_of_false (by simp) fun href => ?_, fun hr => by simp at hr⟩
      obtain ⟨hfind, hsbrk⟩ := (refuses_iff hl size).mpr href
      rw [mmMalloc_refused (by omega) hfind (extendHeap_none hsbrk)] at hm
      simp at hm
  · intro old c hc hused
    by_cases h0 : size = 0
    · have hm : mmMalloc h size = some (none, h) := by rw [mmMalloc, if_pos h0]
      exact ⟨none, h, mmRealloc_none hm, iff_of_true rfl (Or.inl h0), fun _ => rfl⟩
    obtain ⟨-, hm⟩ | ⟨h₁, f, hp, hm⟩ := mmMalloc_cases_le hl h0 hs
    · exact ⟨none, h, mmRealloc_none hm, iff_of_true rfl (Or.inr ⟨h, hm⟩), fun _ => rfl⟩
    · have hr := mmRealloc_placed hl hc hused hp hm
      refine ⟨_, _, hr, iff_of_false (by simp) ?_, fun hr => by simp at hr⟩
      rw [hm]
      simp [h0]

/-- Reallocating the allocated block of `splitHeap`, and requests of 1 GiB, which are refused. -/
theorem failure_exact_split :
    (∃ r h', mmRealloc splitHeap (splitHeap.heapListp + 8 + splitFocus.offset) 24 = some (r, h') ∧
      (r = none ↔ 24 = 0 ∨ ∃ h'', mmMalloc splitHeap 24 = some (none, h'')) ∧
      (r = none → h' = splitHeap)) ∧
    mmMalloc splitHeap (2 ^ 30) = some (none, splitHeap) ∧
    mmRealloc splitHeap (splitHeap.heapListp + 8 + splitFocus.offset) (2 ^ 30) =
      some (none, splitHeap) := by
  have hl : splitHeap.Layout splitFocus.list := by decide +kernel
  have hmid := splitFocus.mid_mem_located (splitHeap.heapListp + 8)
  have hused : splitFocus.mid.alloc = true := rfl
  refine ⟨(failure_exact splitHeap splitFocus.list hl 24 (by decide)).2 _ _ hmid hused, ?_⟩
  obtain ⟨hmalloc, hrealloc⟩ := failure_exact splitHeap splitFocus.list hl (2 ^ 30) (by decide)
  obtain ⟨r, h', hm, hiff, hsame⟩ := hmalloc (by decide)
  obtain rfl : r = none := hiff.mpr ⟨by decide, by decide +kernel⟩
  obtain rfl := hsame rfl
  obtain ⟨r, h'', hr, hiff', hsame'⟩ := hrealloc _ _ hmid hused
  obtain rfl : r = none := hiff'.mpr (.inr ⟨_, hm⟩)
  obtain rfl := hsame' rfl
  exact ⟨hm, hr⟩

/-! ## What `mm_malloc` writes -/

/-- Every byte in which the heap prepared for `place` and placing differ from the old memory belongs
to a free block or lies at or above the old epilogue word. -/
theorem Prepared.changed {h h₁ : Heap} {bs : List Block} {a : Block} {f : Focus 8 16}
    (hp : Prepared h bs a h₁ f) (hl : h.Layout bs) {x : Nat}
    (hx : MallocBench.place h₁.mem (h.heapListp + 8 + f.offset) a.size x ≠ h.mem x) :
    (∃ q c, (q, c) ∈ located (h.heapListp + 8) bs ∧ c.alloc = false ∧
      q - 4 ≤ x ∧ x < q + c.size - 4) ∨ h.memBrk - 4 ≤ x := by
  have hge := hl.tiled.listp_ge
  have hbrk := hl.tiled.brk_eq
  have hframe := hp.place.2 x
  rcases hp.origin with ⟨hf, rfl⟩ | ⟨-, rfl, -, hlow⟩
  · -- `place` stays inside the block that was found
    obtain ⟨rfl, hfree, -⟩ := firstFit_some hf
    refine Or.inl ⟨_, f.mid, f.mid_mem_located _, hfree, ?_, ?_⟩
    · by_contra hlt
      exact hx (hframe (by omega))
    · by_contra hlt
      exact hx (hframe (by omega))
  · -- nothing is written below the block at the end of the grown heap
    have hlo : h.heapListp + 8 + (grown bs (expendBlock a)).offset - 4 ≤ x := by
      by_contra hlt
      exact hx ((hframe (by omega)).trans (hlow x (by omega)))
    rcases grown_cases bs (expendBlock a) with ⟨-, heq⟩ | ⟨cs, c, rfl, hc, heq⟩
    · have hoff : (grown bs (expendBlock a)).offset = total bs := by rw [heq, Focus.offset]
      exact Or.inr (by omega)
    · have hoff : (grown (cs ++ [c]) (expendBlock a)).offset = total cs := by rw [heq, Focus.offset]
      rw [hoff] at hlo
      by_cases hup : x < h.heapListp + 8 + total cs + c.size - 4
      · exact Or.inl ⟨_, c, by rw [located_append]; simp, hc, hlo, hup⟩
      · rw [total_concat] at hbrk
        exact Or.inr (by omega)

/-- Where the free block that `place` is given lies in the old heap: it is a free block of it, or the
last free block of it extended over the old break, or it begins at the old break. -/
theorem Prepared.region {h h₁ : Heap} {bs : List Block} {a : Block} {f : Focus 8 16}
    (hp : Prepared h bs a h₁ f) (hl : h.Layout bs) :
    (∃ c, (h.heapListp + 8 + f.offset, c) ∈ located (h.heapListp + 8) bs ∧ c.alloc = false ∧
      (c = f.mid ∨ h.heapListp + 8 + f.offset + c.size = h.memBrk)) ∨
    h.heapListp + 8 + f.offset = h.memBrk := by
  have hbrk := hl.tiled.brk_eq
  rcases hp.origin with ⟨hf, -⟩ | ⟨-, rfl, -⟩
  · obtain ⟨rfl, hfree, -⟩ := firstFit_some hf
    exact Or.inl ⟨f.mid, f.mid_mem_located _, hfree, Or.inl rfl⟩
  · rcases grown_cases bs (expendBlock a) with ⟨-, heq⟩ | ⟨cs, c, rfl, hc, heq⟩
    · have hoff : (grown bs (expendBlock a)).offset = total bs := by rw [heq, Focus.offset]
      exact Or.inr (by omega)
    · have hoff : (grown (cs ++ [c]) (expendBlock a)).offset = total cs := by rw [heq, Focus.offset]
      rw [hoff]
      rw [total_concat] at hbrk
      exact Or.inl ⟨c, by rw [located_append]; simp, hc, Or.inr (by omega)⟩

/-- **The write footprint of `mm_malloc`.** When `mm_malloc` returns `p` for a request up to `INT_MAX`:

* every byte it changes lies in a block that was free, in the old epilogue word, or at or beyond the
  old break;
* no byte of an allocated block changes, tags included;
* `p` is the payload pointer of a block that was free, and `[p, p + size)` lies in the payload of that
  block or the block was the last one and is extended over the old break; or `p` is the old break;
* the range ends below the new epilogue header. -/
theorem mmMalloc_footprint (h : Heap) (bs : List Block) (hl : h.Layout bs) (size : Nat)
    (hpos : 1 ≤ size) (hs : size ≤ intMax) (p : Nat) (h' : Heap)
    (hm : mmMalloc h size = some (some p, h')) :
    (∀ x, h'.mem x ≠ h.mem x →
      (∃ q c, (q, c) ∈ located (h.heapListp + 8) bs ∧ c.alloc = false ∧
        hdrp q ≤ x ∧ x < hdrp (q + c.size)) ∨
      (hdrp h.memBrk ≤ x ∧ x < h.memBrk) ∨ h.memBrk ≤ x) ∧
    (∀ q c, (q, c) ∈ located (h.heapListp + 8) bs → c.alloc = true →
      ∀ x, hdrp q ≤ x → x < hdrp (q + c.size) → h'.mem x = h.mem x) ∧
    ((∃ c, (p, c) ∈ located (h.heapListp + 8) bs ∧ c.alloc = false ∧
      (p + size ≤ p + c.size - dsize ∨ p + c.size = h.memBrk)) ∨ p = h.memBrk) ∧
    p + size ≤ hdrp h'.memBrk ∧ get h'.mem (hdrp h'.memBrk) = pack 0 1 := by
  have hge := hl.tiled.listp_ge
  have hreq := size_add_le_requestBlock size
  obtain ⟨h₁, f, hp, rfl, rfl⟩ := mmMalloc_placed hl (by omega) hs hm
  have hfits := hp.fits
  have hbrk := hp.layout.tiled.brk_eq
  have hend := f.total_list
  rw [hp.listp] at hbrk
  have hchanged := fun x => hp.changed hl (x := x)
  have hsame := hp.place_sameUsed hge
  have hframe := hp.place.2
  -- from here on only what is known of the memory after `place` is used
  generalize place h₁.mem (h.heapListp + 8 + f.offset) (requestBlock size).size = m at *
  rw [Heap.setMem_mem, Heap.setMem_memBrk]
  simp only [hdrp_eq, show dsize = 8 from rfl]
  refine ⟨fun x hx => ?_, hsame, ?_, by omega, ?_⟩
  · exact (hchanged x hx).imp_right fun hup => by omega
  · refine (hp.region hl).imp_left fun ⟨c, hc, hfree, hor⟩ => ⟨c, hc, hfree, ?_⟩
    rcases hor with rfl | heq
    · exact Or.inl (by omega)
    · exact Or.inr heq
  · -- `place` writes below the epilogue
    rw [get_congr fun x hx _ => hframe x (by omega)]
    exact hp.layout.tiled.epilogue

/-- A request for which `splitHeap` splits its last block. -/
theorem mmMalloc_footprint_split : ∃ p h', mmMalloc splitHeap 40 = some (some p, h') ∧
    p + 40 ≤ hdrp h'.memBrk := by
  have hl : splitHeap.Layout splitFocus.list := by decide +kernel
  have hsome : (mmMalloc splitHeap 40).any (fun r => r.1.isSome) = true := by decide +kernel
  obtain ⟨⟨r, h'⟩, hm, hr⟩ := (Option.any_eq_true _ _).mp hsome
  obtain ⟨p, rfl⟩ := Option.isSome_iff_exists.mp hr
  exact ⟨p, h', hm,
    (mmMalloc_footprint splitHeap splitFocus.list hl 40 (by decide) (by decide) p h' hm).2.2.2.1⟩

/-! ## Request sizes up to the largest `size_t` -/

/-- What every call of `mm_malloc` should end in: null with nothing changed, or a block inside the heap
with room for the request; and null for a request larger than the heap can be. -/
def Heap.MallocSound (h : Heap) (size : Nat) : Prop :=
  (mmMalloc h size = some (none, h) ∨
    ∃ p h' b, mmMalloc h size = some (some p, h') ∧ BlockAt h'.mem p b ∧ b.alloc = true ∧
      h'.memStartBrk ≤ hdrp p ∧ hdrp (p + b.size) ≤ h'.memBrk ∧ size ≤ b.size - dsize) ∧
  (maxHeap < size → mmMalloc h size = some (none, h))

/-- The sizes whose arithmetic does no harm. A block size below `2 ^ 31` is computed exactly. A larger
one is seen by `mem_sbrk` and in the tags only modulo `2 ^ 32`, which does no harm when that is
negative as an `int` or more than the heap has room for. A sum that wraps gives a block size of at most
8, which does no harm when no block is free and there is no room for a chunk. -/
def SizeSafe (h : Heap) (bs : List Block) (size : Nat) : Prop :=
  size + 15 < 2 ^ 31 ∨
  (size + 15 < 2 ^ 64 ∧ (2 ^ 31 ≤ (size + 15) / 8 * 8 % 2 ^ 32 ∨
    maxHeap < h.memHeapsize + (size + 15) / 8 * 8 % 2 ^ 32)) ∨
  (2 ^ 64 ≤ size + 15 ∧ (∀ b ∈ bs, b.alloc = true) ∧ maxHeap < h.memHeapsize + chunksize)

/-- The `int` that `mem_sbrk` receives for a block size of at least `2 ^ 31` that does not wrap. -/
theorem expendIncr_of_large {size : Nat} (hwrap : size + 15 < 2 ^ 64) (hbig : 2 ^ 31 ≤ size + 15) :
    expendIncr size = toInt32 ((size + 15) / 8 * 8) := by
  obtain ⟨hdvd, hlt⟩ := adjustedSize_bounds size
  have hadj := adjustedSize_eq hwrap
  rw [requestBlock_size, if_neg (by omega)] at hadj
  rw [expendIncr, extendSize_expend hdvd hlt]
  congr 1
  omega

/-- A sum that wraps gives a block size of at most 8. -/
theorem adjustedSize_wrapped {size : Nat} (hs : size < 2 ^ 64) (hwrap : 2 ^ 64 ≤ size + 15) :
    adjustedSize size ≤ 8 := by
  rw [adjustedSize, show dsize = 8 from rfl, if_neg (by omega)]
  omega

/-- From a block size of `2 ^ 31` on, a size is safe exactly when it is refused. -/
theorem sizeSafe_iff {h : Heap} {bs : List Block} (hl : h.Layout bs) {size : Nat}
    (hs : size < 2 ^ 64) : SizeSafe h bs size ↔ size + 15 < 2 ^ 31 ∨ Refuses bs size := by
  have htot := hl.total_lt
  have hchunk : chunksize = 4096 := rfl
  rw [SizeSafe, hl.memHeapsize_eq]
  refine or_congr_right' fun hbig => ?_
  rw [maxHeap_eq] at *
  by_cases hwrap : size + 15 < 2 ^ 64
  · -- no free block is that long, so the increment decides
    have hfit : firstFit (adjustedSize size) bs = none := by
      refine firstFit_none.mpr fun b hb _ => ?_
      have hb' := size_le_total hb
      have hadj := size_add_le_requestBlock size
      rw [adjustedSize_eq hwrap]
      omega
    rw [Refuses, expendIncr_of_large hwrap (by omega), heapRoom_eq, toInt32]
    simp only [hfit, true_and]
    split <;> omega
  · -- the smallest block is longer than the block size, so any free block fits
    have hadj := adjustedSize_wrapped hs (by omega)
    have hfit : firstFit (adjustedSize size) bs = none ↔ ∀ b ∈ bs, b.alloc = true := by
      rw [firstFit_none]
      refine forall₂_congr fun b _ => ?_
      have hle := b.least_le
      cases b.alloc
      · simp only [forall_const, Bool.false_eq_true, iff_false]
        omega
      · simp
    rw [Refuses, hfit, expendIncr_of_lt (by omega), heapRoom_eq,
      or_iff_right fun hc => hwrap hc.1, and_iff_right (by omega)]
    exact and_congr_right fun _ => by omega

/-- `mm_malloc` of a positive size returns null only when it refuses the request. -/
theorem refuses_of_null {h h' : Heap} {bs : List Block} (hl : h.Layout bs) {size : Nat}
    (hsize : size ≠ 0) (hm : mmMalloc h size = some (none, h')) : Refuses bs size := by
  rw [← refuses_iff hl]
  rw [mmMalloc, if_neg hsize] at hm
  simp only at hm
  split at hm
  · simp at hm
  · simp at hm
  · next hfind =>
    refine ⟨hfind, ?_⟩
    rw [extendHeap, ← extendSize] at hm
    cases hs : h.memSbrk (expendIncr size) with
    | none => rfl
    | some r =>
        rw [expendIncr] at hs
        rw [hs] at hm
        simp at hm

/-- **Which request sizes are safe.** For every `size_t` value above 0, `mm_malloc` ends as it should
exactly for the safe sizes. -/
theorem mallocSound_iff (h : Heap) (bs : List Block) (hl : h.Layout bs) (size : Nat)
    (hpos : 1 ≤ size) (hs : size < 2 ^ 64) : h.MallocSound size ↔ SizeSafe h bs size := by
  rw [sizeSafe_iff hl hs]
  constructor
  · rintro ⟨hm | ⟨p, h', b, hm, -, -, hlo, hhi, hroom⟩, -⟩
    · exact Or.inr (refuses_of_null hl (by omega) hm)
    · -- a block inside the heap is shorter than the heap
      have hbrk := h'.brk_le_max
      have hmax := h'.max_eq
      rw [maxHeap_eq] at hmax
      rw [hdrp_eq] at hlo hhi
      rw [show dsize = 8 from rfl] at hroom
      exact Or.inl (by omega)
  · intro hsafe
    have hcases : mmMalloc h size = some (none, h) ∨ size + 15 < 2 ^ 31 ∧
        ∃ h₁ f, Prepared h bs (requestBlock size) h₁ f ∧
          mmMalloc h size = some (some (h.heapListp + 8 + f.offset),
            h₁.setMem (place h₁.mem (h.heapListp + 8 + f.offset) (requestBlock size).size)) := by
      rcases hsafe with hsmall | href
      · rcases mmMalloc_cases_le hl (by omega) (show size ≤ intMax by rw [intMax]; omega) with
          ⟨-, hm⟩ | hplaced
        · exact Or.inl hm
        · exact Or.inr ⟨hsmall, hplaced⟩
      · obtain ⟨hfind, hsbrk⟩ := (refuses_iff hl size).mpr href
        exact Or.inl (mmMalloc_refused (by omega) hfind (extendHeap_none hsbrk))
    rcases hcases with hm | ⟨hsmall, h₁, f, hp, hm⟩
    · exact ⟨Or.inl hm, fun _ => hm⟩
    · have hreq := size_add_le_requestBlock size
      have hfits := hp.fits
      have hlistp : h₁.heapListp = h₁.memStartBrk + 8 := hp.layout.listp
      have hlp := hp.listp
      have hbrk := hp.layout.tiled.brk_eq
      have hmax := hp.layout.total_lt
      rw [f.total_list] at hbrk hmax
      rw [maxHeap_eq] at hmax
      rw [Heap.MallocSound, maxHeap_eq]
      refine ⟨Or.inr ⟨_, _, (requestBlock size).used, hm, hp.place.1, rfl, ?_, ?_, ?_⟩,
        fun hlarge => by omega⟩
      · rw [Heap.setMem_memStartBrk, hdrp_eq]
        omega
      · rw [Heap.setMem_memBrk, hdrp_eq, Segment.used_size]
        omega
      · rw [Segment.used_size, show dsize = 8 from rfl]
        omega

/-- A request that the fresh heap has room for. -/
theorem mallocSound_iff_fresh : freshHeap.MallocSound 100 ↔ SizeSafe freshHeap [chunk] 100 :=
  mallocSound_iff freshHeap [chunk] freshHeap_layout 100 (by decide) (by decide)

/-- The rounding of the largest `size_t` wraps to 8, and a fresh heap serves the request. -/
theorem mallocSound_fails : freshHeap.Layout [chunk] ∧ ¬ freshHeap.MallocSound (2 ^ 64 - 1) := by
  refine ⟨freshHeap_layout, fun h => ?_⟩
  have hnull := h.2 (by decide)
  have hsome : (mmMalloc freshHeap (2 ^ 64 - 1)).any (fun r => r.1.isSome) = true := by
    decide +kernel
  rw [hnull] at hsome
  simp at hsome

/-! ## The copy of `mm_realloc` -/

/-- What the copy of `mm_realloc` should be: as long as the smaller of the old payload, of `c` bytes,
and the request, so that it reads inside the old payload and inside the heap, and does not overlap what
it writes. The call of `mm_malloc` has left the memory `m` and the break `brk`. -/
def CopiesPayload (m : Mem) (brk old new c size : Nat) : Prop :=
  copySize m old size = min c size ∧ old + copySize m old size ≤ old + c ∧
    old + copySize m old size ≤ brk ∧
    (old + copySize m old size ≤ new ∨ new + copySize m old size ≤ old)

instance (m : Mem) (brk old new c size : Nat) : Decidable (CopiesPayload m brk old new c size) :=
  inferInstanceAs (Decidable (_ ∧ _ ∧ _ ∧ _))

/-- **When `mm_realloc` copies only the old payload.** The length it passes to `memcpy` is `copySize` on
the memory that `mm_malloc` leaves; that is as it should be exactly when the request is not longer than
the old payload. -/
theorem mmRealloc_copies_iff (h : Heap) (bs : List Block) (hl : h.Layout bs) (old : Nat) (c : Block)
    (hc : (old, c) ∈ located (h.heapListp + 8) bs) (hused : c.alloc = true) (size : Nat)
    (hpos : 1 ≤ size) (hs : size ≤ intMax) (new : Nat) (h' : Heap)
    (hm : mmMalloc h size = some (some new, h')) :
    mmRealloc h old size = some (some new,
      mmFree (h'.setMem (memcpy h'.mem new old (copySize h'.mem old size))) old) ∧
    (CopiesPayload h'.mem h'.memBrk old new (c.size - dsize) size ↔ size ≤ c.size - dsize) := by
  have hge := hl.tiled.listp_ge
  have hposn := (bounds_of_mem_located hc).1
  have hle := c.least_le
  have hmax : intMax = 2147483647 := rfl
  refine ⟨by rw [mmRealloc, hm], ?_⟩
  obtain ⟨h₁, f, hp, rfl, rfl⟩ := mmMalloc_placed hl (by omega) hs hm
  have hold := hp.place_blockAt hl hc hused
  have hreq := size_add_le_requestBlock size
  have hfits := hp.fits
  have hbrk := hp.layout.tiled.brk_eq
  rw [hp.listp] at hbrk
  obtain ⟨hin, -, hdis⟩ := hp.keeps hused hc
  have hend := (bounds_of_mem_located hin).2
  -- from here on only what is known of the memory after `place` is used
  generalize place h₁.mem (h.heapListp + 8 + f.offset) (requestBlock size).size = m at *
  rw [Heap.setMem_mem, Heap.setMem_memBrk, CopiesPayload,
    copySize_eq hold (by omega) (show size < 2 ^ 36 by omega), show dsize = 8 from rfl]
  omega

/-- A fresh heap with one block of the least size. -/
def smallHeap : Heap := ((mmMalloc freshHeap 8).getD (none, freshHeap)).2

/-- The block list of `smallHeap`, with the allocated block singled out. -/
def smallFocus : Focus 8 16 :=
  ⟨[], ⟨16, true, by decide, by decide⟩, [⟨4080, false, by decide, by decide⟩]⟩

/-- The layout of the sample heap. -/
theorem smallHeap_layout : smallHeap.Layout smallFocus.list := by decide +kernel

/-- Reallocating the small block to 4 bytes copies 4. -/
theorem mmRealloc_copies_four : ∃ new h', mmMalloc smallHeap 4 = some (some new, h') ∧
    CopiesPayload h'.mem h'.memBrk (smallHeap.heapListp + 8 + smallFocus.offset) new
      (smallFocus.mid.size - dsize) 4 := by
  have hsome : (mmMalloc smallHeap 4).any (fun r => r.1.isSome) = true := by decide +kernel
  obtain ⟨⟨r, h'⟩, hm, hr⟩ := (Option.any_eq_true _ _).mp hsome
  obtain ⟨new, rfl⟩ := Option.isSome_iff_exists.mp hr
  exact ⟨new, h', hm, (mmRealloc_copies_iff smallHeap smallFocus.list smallHeap_layout _ smallFocus.mid
    (smallFocus.mid_mem_located _) rfl 4 (by decide) (by decide) new h' hm).2.mpr (by decide)⟩

/-- Reallocating the small block, of 8 bytes, to 16 copies 16. -/
theorem mmRealloc_copies_beyond : smallHeap.Layout smallFocus.list ∧
    ∃ new h', mmMalloc smallHeap 16 = some (some new, h') ∧
      copySize h'.mem (smallHeap.heapListp + 8 + smallFocus.offset) 16 = 16 ∧
      ¬ CopiesPayload h'.mem h'.memBrk (smallHeap.heapListp + 8 + smallFocus.offset) new
        (smallFocus.mid.size - dsize) 16 := by
  refine ⟨smallHeap_layout, ?_⟩
  have hsome : (mmMalloc smallHeap 16).any (fun r => r.1.any fun new =>
      decide (copySize r.2.mem (smallHeap.heapListp + 8 + smallFocus.offset) 16 = 16 ∧
        ¬ CopiesPayload r.2.mem r.2.memBrk (smallHeap.heapListp + 8 + smallFocus.offset) new
          (smallFocus.mid.size - dsize) 16)) = true := by decide +kernel
  obtain ⟨⟨r, h'⟩, hm, hr⟩ := (Option.any_eq_true _ _).mp hsome
  obtain ⟨new, rfl, hcopy⟩ := (Option.any_eq_true _ _).mp hr
  exact ⟨new, h', hm, of_decide_eq_true hcopy⟩

/-! ## What `mm_realloc` keeps -/

/-- **`mm_realloc` preserves data.** For an allocated block and a request up to `INT_MAX` the call
returns. If it returns a block, that block starts with the bytes of the old payload, up to the smaller
of the old capacity and the request, its capacity is at least the request, and no payload byte of
another allocated block has changed. -/
theorem mmRealloc_preserves (h : Heap) (bs : List Block) (hl : h.Layout bs) (old : Nat) (c : Block)
    (hc : (old, c) ∈ located (h.heapListp + 8) bs) (hused : c.alloc = true) (size : Nat)
    (hpos : 1 ≤ size) (hs : size ≤ intMax) :
    ∃ r h', mmRealloc h old size = some (r, h') ∧ ∀ new, r = some new →
      (∀ i, i < min (c.size - dsize) size → h'.mem (new + i) = h.mem (old + i)) ∧
      (∃ b, BlockAt h'.mem new b ∧ b.alloc = true ∧ size ≤ b.size - dsize) ∧
      ∀ q d, (q, d) ∈ located (h.heapListp + 8) bs → d.alloc = true → q ≠ old →
        ∀ x, q ≤ x → x < q + (d.size - dsize) → h'.mem x = h.mem x := by
  obtain ⟨-, hm⟩ | ⟨h₁, f, hp, hm⟩ := mmMalloc_cases_le hl (by omega) hs
  · exact ⟨none, h, mmRealloc_none hm, fun new hnew => by simp at hnew⟩
  have hr := mmRealloc_placed hl hc hused hp hm
  obtain ⟨hblock, hbytes, hothers⟩ := mmRealloc_moves hl hc hused hp rfl
  have hreq := size_add_le_requestBlock size
  refine ⟨_, _, hr, fun new hnew => ?_⟩
  obtain rfl := Option.some.inj hnew
  rw [show dsize = 8 from rfl]
  refine ⟨fun i hi => hbytes i (by omega) (by omega), ⟨_, hblock, rfl, by omega⟩,
    fun q d hq hd hqp x hx hx' => hothers q d hq hd hqp x (by omega) ?_⟩
  have hle := d.least_le
  omega

/-- The small block moves with its 8 bytes. -/
theorem mmRealloc_preserves_small : ∃ new h',
    mmRealloc smallHeap (smallHeap.heapListp + 8 + smallFocus.offset) 16 = some (some new, h') ∧
      ∀ i, i < 8 → h'.mem (new + i)
        = smallHeap.mem (smallHeap.heapListp + 8 + smallFocus.offset + i) := by
  have hsome : (mmRealloc smallHeap (smallHeap.heapListp + 8 + smallFocus.offset) 16).any
      (fun r => r.1.isSome) = true := by decide +kernel
  obtain ⟨r, h', hr, hkeep⟩ := mmRealloc_preserves smallHeap smallFocus.list smallHeap_layout _
    smallFocus.mid (smallFocus.mid_mem_located _) rfl 16 (by decide) (by decide)
  rw [hr] at hsome
  obtain ⟨new, rfl⟩ := Option.isSome_iff_exists.mp hsome
  exact ⟨new, h', hr, (hkeep new rfl).1⟩

end MallocBench
