import MallocBench.Allocator.Grow
import MallocBench.Memory.SegmentMerging

/-! # Freeing several blocks

Each `mm_free` joins the block with its free neighbours at once. Freed one after the other in any
order, allocated blocks leave the block list in which all of them are marked free and every maximal run
of free blocks is one block (`mmFree_any_order`): the pointers still to be freed stay payload pointers
of allocated blocks, since joining moves no allocated block. -/

namespace MallocBench

open ByteMemory Segments

/-- `mm_free` leaves `heap_listp`. -/
@[simp] theorem mmFree_heapListp (h : Heap) (ptr : Nat) :
    (mmFree h ptr).heapListp = h.heapListp := rfl

/-- `heap_listp` stays put. -/
theorem foldl_mmFree_heapListp (h : Heap) (ps : List Nat) :
    (ps.foldl mmFree h).heapListp = h.heapListp := by
  induction ps generalizing h with
  | nil => rfl
  | cons p ps ih => rw [List.foldl_cons, ih, mmFree_heapListp]

/-- **Freeing several blocks** of a well-formed heap marks them free and joins the free blocks. -/
theorem foldl_mmFree_layout {h : Heap} {bs : List Block} (hl : h.Layout bs) {ps : List Nat}
    (hn : ps.Nodup)
    (hp : ∀ p ∈ ps, ∃ c, (p, c) ∈ located (h.heapListp + 8) bs ∧ c.alloc = true) :
    (ps.foldl mmFree h).Layout (joinFree (freeAt ps (h.heapListp + 8) bs)) := by
  induction ps using List.reverseRecOn with
  | nil =>
      rw [freeAt_nil, joinFree_of_coalesced hl.coalesced]
      exact hl
  | append_singleton ps p ih =>
      obtain ⟨hn', -, hdis⟩ := List.nodup_append.mp hn
      have hlay := ih hn' fun q hq => hp q (List.mem_append_left _ hq)
      obtain ⟨c, hc, hused⟩ := hp p (by simp)
      have hfresh : p ∉ ps := fun hmem => hdis p hmem p (by simp) rfl
      -- the block to free is where it was when all the blocks were allocated
      obtain ⟨f, rfl, rfl, rfl⟩ := Focus.exists_of_mem_located hc
      obtain ⟨g, hg, hoff, hrel⟩ := Focus.release_freeAt (by decide) hused hfresh
      rw [← hg] at hlay
      have hstep := mmFree_release hlay
      rw [foldl_mmFree_heapListp, hoff, hrel] at hstep
      rw [List.foldl_append, List.foldl_cons, List.foldl_nil]
      have hcongr : freeAt (ps ++ [h.heapListp + 8 + f.offset]) (h.heapListp + 8) f.list
          = freeAt ((h.heapListp + 8 + f.offset) :: ps) (h.heapListp + 8) f.list :=
        freeAt_congr fun q b _ => by simp [or_comm]
      rwa [hcongr]

/-- **Freeing is order-independent.** Allocated blocks of a well-formed heap, freed in any order, leave
the same block list: the old one with these blocks marked free and every maximal run of free blocks
joined. When they are all the allocated blocks of a heap that has a block, that is one free block of
all of the heap but its 16 bytes of padding, prologue and epilogue. -/
theorem mmFree_any_order (h : Heap) (bs : List Block) (hl : h.Layout bs) (ps : List Nat)
    (hn : ps.Nodup)
    (hp : ∀ p ∈ ps, ∃ c, (p, c) ∈ located (h.heapListp + 8) bs ∧ c.alloc = true) :
    (∀ qs : List Nat, qs.Perm ps → (qs.foldl mmFree h).heapListp = h.heapListp ∧
      (qs.foldl mmFree h).Layout (joinFree (freeAt ps (h.heapListp + 8) bs))) ∧
    ((∀ p c, (p, c) ∈ located (h.heapListp + 8) bs → c.alloc = true → p ∈ ps) → bs ≠ [] →
      ∃ b, joinFree (freeAt ps (h.heapListp + 8) bs) = [b] ∧ b.alloc = false ∧
        b.size = (ps.foldl mmFree h).memHeapsize - 16) := by
  have hall : ∀ qs : List Nat, qs.Perm ps →
      (qs.foldl mmFree h).Layout (joinFree (freeAt ps (h.heapListp + 8) bs)) := by
    intro qs hperm
    rw [← freeAt_congr fun q _ _ => hperm.mem_iff]
    exact foldl_mmFree_layout hl (hperm.nodup_iff.mpr hn) fun q hq => hp q (hperm.mem_iff.mp hq)
  refine ⟨fun qs hperm => ⟨foldl_mmFree_heapListp h qs, hall qs hperm⟩, fun hused hne => ?_⟩
  have hne' : freeAt ps (h.heapListp + 8) bs ≠ [] := by
    cases bs with
    | nil => exact absurd rfl hne
    | cons b bs => simp [freeAt]
  obtain ⟨b, hb, hfree⟩ := joinFree_of_free hne' (freeAt_free hused)
  refine ⟨b, hb, hfree, ?_⟩
  rw [(hall ps (List.Perm.refl ps)).memHeapsize_eq, hb, total_cons, total_nil]
  omega

/-- The bare heap has no block: freeing all of its allocated blocks leaves no free block either. -/
theorem mmFree_any_order_bare :
    ¬ ∀ (h : Heap) (bs : List Block), h.Layout bs → ∀ ps : List Nat, ps.Nodup →
      (∀ p ∈ ps, ∃ c, (p, c) ∈ located (h.heapListp + 8) bs ∧ c.alloc = true) →
      (∀ p c, (p, c) ∈ located (h.heapListp + 8) bs → c.alloc = true → p ∈ ps) →
      ∃ b : Block, (ps.foldl mmFree h).Layout [b] ∧ b.alloc = false ∧
        b.size = (ps.foldl mmFree h).memHeapsize - 16 := by
  intro hall
  have hbare := bareHeap_layout (Memlib.memInit (fun _ => 0) 1024)
  obtain ⟨b, hl, -, -⟩ := hall _ [] hbare [] List.nodup_nil
    (fun p hp => absurd hp List.not_mem_nil) (fun p c hc => absurd hc List.not_mem_nil)
  -- one block would make the heap longer than it is
  have hsize := hl.memHeapsize_eq
  have hsize' := hbare.memHeapsize_eq
  have hleast := b.least_le
  rw [List.foldl_nil] at hsize
  rw [total_cons, total_nil] at hsize
  rw [total_nil] at hsize'
  omega

/-- A heap of two allocated blocks and the free rest of the first chunk. -/
def pairHeap : Heap := ((mmMalloc ((mmMalloc freshHeap 32).getD (none, freshHeap)).2 48).getD
  (none, freshHeap)).2

/-- The block list of `pairHeap`. -/
def pairBlocks : List Block :=
  [⟨40, true, by decide, by decide⟩, ⟨56, true, by decide, by decide⟩,
    ⟨4000, false, by decide, by decide⟩]

/-- Freed in either order, the two blocks leave one free block of 4096 bytes. -/
theorem mmFree_any_order_pair :
    (mmFree (mmFree pairHeap (pairHeap.heapListp + 8)) (pairHeap.heapListp + 48)).Layout [chunk] ∧
    (mmFree (mmFree pairHeap (pairHeap.heapListp + 48)) (pairHeap.heapListp + 8)).Layout [chunk] := by
  have hl : pairHeap.Layout pairBlocks := by decide +kernel
  obtain ⟨hall, -⟩ := mmFree_any_order pairHeap pairBlocks hl
    [pairHeap.heapListp + 8, pairHeap.heapListp + 48] (by simp) (by simp [pairBlocks])
  have hjoin : joinFree (freeAt [pairHeap.heapListp + 8, pairHeap.heapListp + 48]
      (pairHeap.heapListp + 8) pairBlocks) = [chunk] := by decide +kernel
  rw [hjoin] at hall
  exact ⟨(hall _ (List.Perm.refl _)).2, (hall _ (List.Perm.swap _ _ _)).2⟩

end MallocBench
