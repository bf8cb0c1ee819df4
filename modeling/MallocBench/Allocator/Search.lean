import MallocBench.Allocator.Place
import MallocBench.Memory.ReadLog
import Mathlib.Order.Interval.Set.Defs

/-! # What `find_fit` reads

`findFitM` is `findFit` with every access to memory logged and with the block pointers of the passes
of its loop as a second result; `findFitM_eq` drops the two again. The loop has no bound of its own
and takes its steps from the sizes it reads, so that it ends, stays inside the heap and finds what
there is to find all rest on the walk from the prologue to the epilogue: a pass is made at each
block of the walk in turn, and at the epilogue when none of them fits (`findFitLoopM_chain`). -/

namespace MallocBench

open ByteMemory Segments

/-! ## The search with its reads -/

/-- `GET(p)`. -/
def getM (p : Nat) : ReadM Nat := load p wsize

/-- `GET_SIZE(p)`. -/
def getSizeM (p : Nat) : ReadM Nat := do
  return (← getM p) &&& 0xFFFFFFF8

/-- `GET_ALLOC(p)`. -/
def getAllocM (p : Nat) : ReadM Nat := do
  return (← getM p) &&& 0x01

/-- `NEXT_BLKP(bp)`. -/
def nextBlkpM (bp : Nat) : ReadM Nat := do
  return bp + (← getSizeM (hdrp bp))

/-- The loop of `find_fit`, at most `fuel` passes of it; with the result come the values of `bp` in
the passes made. -/
def findFitLoopM (asize : Nat) : Nat → Nat → ReadM (Option (Option Nat) × List Nat)
  | 0, _ => return (none, [])
  | fuel + 1, bp => do
    let size ← getSizeM (hdrp bp)
    if size = 0 then return (some none, [bp])
    else
      let alloc ← getAllocM (hdrp bp)
      if alloc = 0 ∧ asize ≤ size then return (some (some bp), [bp])
      else
        let next ← nextBlkpM bp
        let (found, visited) ← findFitLoopM asize fuel next
        return (found, bp :: visited)

/-- `find_fit` with its reads and the passes of its loop. -/
def findFitM (heapListp asize : Nat) : ReadM (Option (Option Nat) × List Nat) := do
  findFitLoopM asize maxHeap (← nextBlkpM heapListp)

section Reads

variable {m : Mem} {s : Set Nat}

/-- Reading a word reads its four bytes. -/
theorem getM_returns {p : Nat} (h : ∀ x, p ≤ x → x < p + 4 → x ∈ s) :
    Returns m (getM p) (get m p) s := Returns.load h

/-- So does reading its size. -/
theorem getSizeM_returns {p : Nat} (h : ∀ x, p ≤ x → x < p + 4 → x ∈ s) :
    Returns m (getSizeM p) (getSize m p) s := (getM_returns h).bind (Returns.pure m _ s)

/-- So does reading its allocation bit. -/
theorem getAllocM_returns {p : Nat} (h : ∀ x, p ≤ x → x < p + 4 → x ∈ s) :
    Returns m (getAllocM p) (getAlloc m p) s := (getM_returns h).bind (Returns.pure m _ s)

/-- Finding the next block reads the header. -/
theorem nextBlkpM_returns {bp : Nat} (h : ∀ x, hdrp bp ≤ x → x < hdrp bp + 4 → x ∈ s) :
    Returns m (nextBlkpM bp) (nextBlkp m bp) s := (getSizeM_returns h).bind (Returns.pure m _ s)

/-- One pass of the loop that ends the search at the epilogue. -/
theorem findFitLoopM_epilogue {asize fuel bp : Nat}
    (h : ∀ x, hdrp bp ≤ x → x < hdrp bp + 4 → x ∈ s) (hsize : getSize m (hdrp bp) = 0) :
    Returns m (findFitLoopM asize (fuel + 1) bp) (some none, [bp]) s := by
  refine (getSizeM_returns h).bind ?_
  rw [if_pos hsize]
  exact Returns.pure m _ s

/-- One pass of the loop that ends the search at a block that fits. -/
theorem findFitLoopM_fit {asize fuel bp : Nat}
    (h : ∀ x, hdrp bp ≤ x → x < hdrp bp + 4 → x ∈ s) (hsize : getSize m (hdrp bp) ≠ 0)
    (hfit : getAlloc m (hdrp bp) = 0 ∧ asize ≤ getSize m (hdrp bp)) :
    Returns m (findFitLoopM asize (fuel + 1) bp) (some (some bp), [bp]) s := by
  refine (getSizeM_returns h).bind ?_
  rw [if_neg hsize]
  refine (getAllocM_returns h).bind ?_
  rw [if_pos hfit]
  exact Returns.pure m _ s

/-- One pass of the loop that goes on to the next block. -/
theorem findFitLoopM_next {asize fuel bp : Nat} {found : Option (Option Nat)} {visited : List Nat}
    (h : ∀ x, hdrp bp ≤ x → x < hdrp bp + 4 → x ∈ s) (hsize : getSize m (hdrp bp) ≠ 0)
    (hfit : ¬ (getAlloc m (hdrp bp) = 0 ∧ asize ≤ getSize m (hdrp bp)))
    (hrest : Returns m (findFitLoopM asize fuel (nextBlkp m bp)) (found, visited) s) :
    Returns m (findFitLoopM asize (fuel + 1) bp) (found, bp :: visited) s := by
  refine (getSizeM_returns h).bind ?_
  rw [if_neg hsize]
  refine (getAllocM_returns h).bind ?_
  rw [if_neg hfit]
  exact (nextBlkpM_returns h).bind (hrest.bind (Returns.pure m _ s))

/-- **The search with its reads is the search**, on any memory. -/
theorem findFitLoopM_eq (m : Mem) (asize fuel bp : Nat) :
    ∃ visited, Returns m (findFitLoopM asize fuel bp) (findFitLoop m asize fuel bp, visited)
      Set.univ := by
  induction fuel generalizing bp with
  | zero => exact ⟨[], Returns.pure m _ _⟩
  | succ fuel ih =>
      rw [findFitLoop]
      by_cases hsize : getSize m (hdrp bp) = 0
      · rw [if_pos hsize]
        exact ⟨[bp], findFitLoopM_epilogue (by simp) hsize⟩
      · rw [if_neg hsize]
        by_cases hfit : getAlloc m (hdrp bp) = 0 ∧ asize ≤ getSize m (hdrp bp)
        · rw [if_pos hfit]
          exact ⟨[bp], findFitLoopM_fit (by simp) hsize hfit⟩
        · rw [if_neg hfit]
          obtain ⟨visited, hrest⟩ := ih (nextBlkp m bp)
          exact ⟨bp :: visited, findFitLoopM_next (by simp) hsize hfit hrest⟩

/-- `find_fit` with its reads answers as `find_fit` does. -/
theorem findFitM_eq {listp asize : Nat} {found : Option (Option Nat)} {visited : List Nat}
    (h : Returns m (findFitM listp asize) (found, visited) s) : found = findFit m listp asize := by
  obtain ⟨visited', h'⟩ := findFitLoopM_eq m asize maxHeap (nextBlkp m listp)
  exact congrArg Prod.fst (h.unique ((nextBlkpM_returns (by simp)).bind h'))

end Reads

/-- **The passes of the loop on a walk**: they are made at the blocks from `bp` on, in order and each
one once, perhaps with the epilogue at the end; they read header words only. -/
theorem findFitLoopM_chain {m : Mem} (asize : Nat) {fuel bp e : Nat} {bs : List Block}
    (hc : Chain m bp bs e) (he : get m (e - 4) = 1) (hbp : 4 ≤ bp) (hfuel : bs.length < fuel) :
    ∃ found visited,
      Returns m (findFitLoopM asize fuel bp) (found, visited) (Set.Ico (bp - 4) e) ∧
      visited <+: (located bp bs).map Prod.fst ++ [e] := by
  induction bs generalizing fuel bp with
  | nil =>
      obtain ⟨n, rfl⟩ : ∃ n, fuel = n + 1 := ⟨fuel - 1, by simp at hfuel; omega⟩
      obtain rfl : bp = e := hc
      have hsize : getSize m (hdrp bp) = 0 := by rw [getSize_eq, hdrp_eq, he]
      have hhdr : ∀ x, hdrp bp ≤ x → x < hdrp bp + 4 → x ∈ Set.Ico (bp - 4) bp := by
        intro x hx hx'
        rw [hdrp_eq] at hx hx'
        exact ⟨hx, by omega⟩
      exact ⟨some none, [bp], findFitLoopM_epilogue hhdr hsize, by simp⟩
  | cons b bs ih =>
      obtain ⟨n, rfl⟩ : ∃ n, fuel = n + 1 := ⟨fuel - 1, by simp at hfuel; omega⟩
      obtain ⟨hb, hrest⟩ := chain_cons.mp hc
      have hpos := b.least_le
      have hend := hrest.end_eq
      have hsize : getSize m (hdrp bp) ≠ 0 := by
        rw [hb.size]
        omega
      -- the header of the block lies between its payload pointer and the word below
      have hhdr : ∀ x, hdrp bp ≤ x → x < hdrp bp + 4 → x ∈ Set.Ico (bp - 4) e := by
        intro x hx hx'
        rw [hdrp_eq] at hx hx'
        exact ⟨hx, by omega⟩
      by_cases hfit : getAlloc m (hdrp bp) = 0 ∧ asize ≤ getSize m (hdrp bp)
      · exact ⟨some (some bp), [bp], findFitLoopM_fit hhdr hsize hfit, by simp⟩
      · obtain ⟨found, visited, hret, hpre⟩ := ih hrest (by omega) (by simpa using hfuel)
        rw [← hb.next] at hret
        refine ⟨found, bp :: visited, findFitLoopM_next hhdr hsize hfit ?_, by simpa using hpre⟩
        apply hret.mono
        rintro x ⟨hx, hx'⟩
        rw [hb.next] at hx
        exact ⟨by omega, hx'⟩

/-! ## The search on a well-formed heap -/

/-- **`find_fit` is a first-fit search that ends.** On a well-formed heap it answers after a pass at
each block at most once, reads no byte outside `[mem_heap_lo, mem_heap_hi]` and changes none; the
answer is the lowest free block of at least `asize` bytes, or null when there is none. -/
theorem findFit_lowest (h : Heap) (bs : List Block) (hl : h.Layout bs) (asize : Nat) :
    ∃ bp visited,
      Returns h.mem (findFitM h.heapListp asize) (some bp, visited)
        (Set.Icc h.memHeapLo h.memHeapHi) ∧
      findFit h.mem h.heapListp asize = some bp ∧
      -- no pass is made twice at a block, and none anywhere but at a block or the epilogue
      (visited.Nodup ∧
        ∀ p ∈ visited, p = h.memBrk ∨ ∃ b, (p, b) ∈ located (h.heapListp + 8) bs) ∧
      -- the block found
      (∀ p, bp = some p ↔
        ∃ b, (p, b) ∈ located (h.heapListp + 8) bs ∧ b.alloc = false ∧ asize ≤ b.size ∧
          ∀ q c, (q, c) ∈ located (h.heapListp + 8) bs → c.alloc = false → asize ≤ c.size →
            p ≤ q) ∧
      (bp = none ↔
        ∀ p b, (p, b) ∈ located (h.heapListp + 8) bs → b.alloc = false → b.size < asize) := by
  have hge := hl.tiled.listp_ge
  have hbrk := hl.tiled.brk_eq
  have hlistp : h.heapListp = h.memStartBrk + 8 := hl.listp
  have hlen := length_le_total bs
  have htot := hl.total_lt
  -- the prologue's header is read first, then the walk from the first block on
  obtain ⟨found, visited, hloop, hpre⟩ := findFitLoopM_chain asize hl.tiled.walk hl.tiled.epi
    (by omega) (show bs.length < maxHeap by omega)
  have hret : Returns h.mem (findFitM h.heapListp asize) (found, visited)
      (Set.Icc h.memHeapLo h.memHeapHi) := by
    have hprologue : ∀ x, hdrp h.heapListp ≤ x → x < hdrp h.heapListp + 4 →
        x ∈ Set.Icc h.memHeapLo h.memHeapHi := by
      intro x hx hx'
      rw [hdrp_eq] at hx hx'
      exact ⟨show h.memStartBrk ≤ x by omega, show x ≤ h.memBrk - 1 by omega⟩
    refine (nextBlkpM_returns hprologue).bind (?_ : Returns _ _ _ _)
    rw [hl.tiled.first]
    apply hloop.mono
    rintro x ⟨hx, hx'⟩
    exact ⟨show h.memStartBrk ≤ x by omega, show x ≤ h.memBrk - 1 by omega⟩
  have hfound := findFitM_eq hret
  rw [findFit_eq hl] at hfound
  subst hfound
  have hnodup := located_addresses_nodup (by decide) (h.heapListp + 8) bs
  rw [← hbrk] at hnodup
  have hvisited : ∀ p ∈ visited, p = h.memBrk ∨ ∃ b, (p, b) ∈ located (h.heapListp + 8) bs := by
    intro p hp
    rcases List.mem_append.mp (hpre.subset hp) with hp | hp
    · obtain ⟨⟨q, b⟩, hb, rfl⟩ := List.mem_map.mp hp
      exact Or.inr ⟨b, hb⟩
    · exact Or.inl (List.mem_singleton.mp hp)
  exact ⟨_, visited, hret, findFit_eq hl asize, ⟨hpre.sublist.nodup hnodup, hvisited⟩,
    fun p => firstFit_eq_some_iff, firstFit_eq_none_iff⟩

/-- In the heap of three blocks a search for 32 bytes passes the free block of 24 and the allocated
one. -/
theorem findFit_lowest_split : splitHeap.Layout splitFocus.list ∧
    ∃ visited, Returns splitHeap.mem (findFitM splitHeap.heapListp 32)
      (some (some (splitHeap.heapListp + 8 + 56)), visited)
      (Set.Icc splitHeap.memHeapLo splitHeap.memHeapHi) := by
  have h : splitHeap.Layout splitFocus.list := by decide +kernel
  have hfit : ∀ n, ((firstFit 32 splitFocus.list).map fun f => n + f.offset) = some (n + 56) :=
    fun _ => rfl
  obtain ⟨bp, visited, hret, hfind, -⟩ := findFit_lowest splitHeap splitFocus.list h 32
  rw [findFit_eq h, hfit] at hfind
  obtain rfl := Option.some.inj hfind
  exact ⟨h, visited, hret⟩

end MallocBench
