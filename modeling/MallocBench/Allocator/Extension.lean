import MallocBench.Allocator.Free
import MallocBench.Allocator.Malloc

/-! # Extending the heap exactly

What `extend_heap` does to a well-formed heap, the bare heap of a prologue and an epilogue included,
in terms of the bytes asked for: the break goes up by the number of words rounded up to an even
one, the new block stands at the end of the block list, alone or joined with a free last block, and
of the bytes below the old epilogue only the header of such a last block is written
(`extendHeap_exact`). -/

namespace MallocBench

open ByteMemory Segments

/-- The bytes `extend_heap` asks for, when they are in the range of `int`: `words` words rounded up
to a multiple of 8. -/
theorem extendSize_eq {words : Nat} (h : words * 4 + 4 ≤ intMax) :
    extendSize words = (words * 4 + 7) / 8 * 8 := by
  have hmax : intMax = 2147483647 := rfl
  rw [extendSize, show wsize = 4 from rfl]
  split <;> omega

/-- The free block that `extend_heap` appends for a request of at least four words. -/
def extendBlock (words : Nat) (hw : 4 ≤ words) : Block where
  size := (words * 4 + 7) / 8 * 8
  alloc := false
  least_le := by omega
  unit_dvd := Nat.dvd_mul_left _ _

/-- Whether `mem_sbrk` grants what `extend_heap` asks for is a matter of the heap size. -/
theorem Memlib.memSbrk_eq_none_iff {s : Memlib} {n : Nat} :
    s.memSbrk n = none ↔ maxHeap < s.memHeapsize + n := by
  have hmax := s.max_eq
  have hstart := s.start_le_brk
  rw [Memlib.memSbrk_eq_none, Memlib.memHeapsize, Int.toNat_natCast]
  omega

/-- **`extend_heap` is exact.** Let `n` be the bytes asked for. When the heap may grow by `n`, the
break moves up by `n`, and the heap is well formed with a free block of `n` bytes appended to its
block list, joined with the last block if that was free; the block at the end is returned. All
other blocks stay byte for byte, and so does the payload of the one that was joined. When the heap
may not grow by `n`, null is returned and nothing changes. -/
theorem extendHeap_exact (h : Heap) (bs : List Block) (hl : h.Layout bs) (words : Nat)
    (hw : 4 ≤ words) (hmax : words * 4 + 4 ≤ intMax) :
    let n := (words * 4 + 7) / 8 * 8
    (h.memHeapsize + n ≤ maxHeap →
      ∃ h' pre last,
        extendHeap h words = (some (h.heapListp + 8 + total pre), h') ∧
        h'.memBrk = h.memBrk + n ∧ h'.memStartBrk = h.memStartBrk ∧ h'.heapListp = h.heapListp ∧
        (h'.Layout (pre ++ [last]) ∧ last.alloc = false ∧ n ≤ last.size) ∧
        -- the last block is the appended one, or is joined from it and the last old one
        ((pre = bs ∧ last.size = n ∧ ∀ c ∈ bs.getLast?, c.alloc = true) ∨
          ∃ c, bs = pre ++ [c] ∧ c.alloc = false ∧ last.size = c.size + n) ∧
        -- the blocks below it are where they were, and no byte of them changes
        (∀ p c, (p, c) ∈ located (h.heapListp + 8) pre →
          (p, c) ∈ located (h.heapListp + 8) bs ∧
            ∀ x, p - 4 ≤ x → x < p + c.size - 4 → h'.mem x = h.mem x) ∧
        -- nor does a payload byte of any old block
        ∀ p c, (p, c) ∈ located (h.heapListp + 8) bs →
          ∀ x, p ≤ x → x < p + c.size - 8 → h'.mem x = h.mem x) ∧
    (maxHeap < h.memHeapsize + n → extendHeap h words = (none, h)) := by
  intro n
  have hsize : extendSize words = n := extendSize_eq hmax
  have hint : intMax = 2147483647 := rfl
  constructor
  · intro hroom
    let b := extendBlock words hw
    have hbsize : b.size = n := rfl
    have hend : h.memMaxAddr = h.memStartBrk + maxHeap := h.max_eq
    have hstart := h.start_le_brk
    rw [Memlib.memHeapsize] at hroom
    obtain ⟨h', hext, hlay, hlistp, hst, hbrk', hlow, -, hjoin⟩ :=
      extendHeap_absorb (b := b) hl rfl hsize (by omega)
    have hbrk := hl.tiled.brk_eq
    refine ⟨h', (grown bs b).pre, (grown bs b).mid, hext, hbrk', hst, hlistp, ⟨?_, ?_, ?_⟩, ?_, ?_, ?_⟩
    · have hlist : (grown bs b).list = (grown bs b).pre ++ [(grown bs b).mid] := by
        rw [Focus.list, grown_post]
      rwa [← hlist]
    · exact grown_alloc bs rfl
    · exact le_grown_size bs b
    · rcases grown_cases bs b with ⟨hused, heq⟩ | ⟨cs, c, rfl, hfree, heq⟩
      · rw [heq]
        exact Or.inl ⟨rfl, rfl, hused⟩
      · rw [heq]
        exact Or.inr ⟨c, rfl, hfree, rfl⟩
    · intro p c hc
      refine ⟨mem_located_of_grown_pre hc, ?_⟩
      intro x hx hx'
      -- the block ends where the one at the end of the heap starts, or below
      have := (bounds_of_mem_located hc).2
      apply hlow x
      rw [Focus.offset]
      omega
    · intro p c hc x hx hx'
      have hle := c.least_le
      rcases mem_located_grown_or b hc with hpre | rfl
      · have := (bounds_of_mem_located hpre).2
        apply hlow x
        rw [Focus.offset]
        omega
      · -- the last old block, taken over by the one at the end of the heap
        have := (bounds_of_mem_located hc).2
        exact hjoin x hx (by omega)
  · intro hfull
    apply extendHeap_none
    rw [hsize, toInt32_of_lt (by omega)]
    exact Memlib.memSbrk_eq_none_iff.mpr hfull

/-- A heap whose last block is free, extended by 64 words: the last block grows. For 2^28 words there is
no room. -/
theorem extendHeap_exact_split :
    (∃ h' last, extendHeap splitHeap 64 = (some (splitHeap.heapListp + 8 + 56), h') ∧
      h'.memBrk = splitHeap.memBrk + 256 ∧ last.size = 4296 ∧
      h'.Layout [⟨24, false, by decide, by decide⟩, ⟨32, true, by decide, by decide⟩, last]) ∧
    extendHeap splitHeap (2 ^ 28) = (none, splitHeap) := by
  have hl : splitHeap.Layout splitFocus.list := by decide +kernel
  constructor
  · obtain ⟨h', pre, last, hext, hbrk, -, -, ⟨hlay, -, -⟩, hcases, -⟩ :=
      (extendHeap_exact _ _ hl 64 (by decide) (by decide)).1 (by decide +kernel)
    rcases hcases with ⟨rfl, -, hused⟩ | ⟨c, hlist, -, hsize⟩
    · exact absurd (hused ⟨4040, false, by decide, by decide⟩ rfl) (by decide)
    · -- the last old block is the free one of 4040 bytes
      obtain ⟨rfl, hc⟩ := List.append_inj' (show [(⟨24, false, by decide, by decide⟩ : Block),
        ⟨32, true, by decide, by decide⟩] ++ [⟨4040, false, by decide, by decide⟩] = pre ++ [c] from hlist)
        rfl
      obtain rfl := List.singleton_inj.mp hc
      have hpre : total [(⟨24, false, by decide, by decide⟩ : Block), ⟨32, true, by decide, by decide⟩]
        = 56 := by decide
      have hwords : (64 * 4 + 7) / 8 * 8 = 256 := by decide
      rw [hpre] at hext
      rw [hwords] at hbrk hsize
      exact ⟨h', last, hext, hbrk, hsize, hlay⟩
  · exact (extendHeap_exact _ _ hl (2 ^ 28) (by decide) (by decide)).2 (by decide +kernel)

end MallocBench
