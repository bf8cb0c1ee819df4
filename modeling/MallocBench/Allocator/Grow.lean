import MallocBench.Allocator.Free
import MallocBench.Memory.SegmentAllocator

/-! # Growing the heap: `extend_heap` and `mm_init`

`extend_heap` asks `mem_sbrk` for a stretch of new bytes. The old epilogue word becomes the header
of a free block over that stretch, a new epilogue is written behind it, and the block is coalesced
with the last old one (`extendHeap_absorb`). `mm_init` lays out the prologue and the epilogue of an
empty heap and extends it once. -/

namespace MallocBench

open ByteMemory Segments

/-- The bytes `extend_heap` asks for: `words` words, rounded up to an even number of them. -/
def extendSize (words : Nat) : Nat :=
  (if words % 2 = 0 then words * wsize else (words + 1) * wsize) % 2 ^ 64

/-! ## `extend_heap` -/

/-- The memory `extend_heap` leaves for `coalesce`: the appended block's tags over the old epilogue,
and a new epilogue. -/
theorem tiled_append {m : Mem} {listp brk : Nat} {bs : List Block} {b : Block}
    (h : Tiled m listp brk bs) (hlt : b.size < 2 ^ 32) :
    Tiled (put (stamp m brk b) (brk + b.size - 4) (pack 0 1)) listp (brk + b.size)
      (bs ++ [b]) := by
  have hl := h.listp_ge
  have hbrk := h.brk_eq
  have hle := b.least_le
  have hframe : ∀ x, x < brk - 4 → put (stamp m brk b) (brk + b.size - 4) (pack 0 1) x = m x := by
    intro x hx
    rw [put_apply_of_notMem _ _ (by omega), stamp_apply_of_notMem _ (by omega) (by omega)]
  -- below the old epilogue nothing is written; above it stand the new block and the new epilogue
  refine Tiled.mk' hl ?_ ?_ (chain_append.mpr ⟨?_, chain_cons.mpr ⟨?_, ?_⟩⟩) ?_
  · rw [← h.hdr]
    exact get_congr fun x _ hx => hframe x (by omega)
  · rw [← h.ftr]
    exact get_congr fun x _ hx => hframe x (by omega)
  · rw [← hbrk]
    exact h.walk.congr (by omega) fun x _ hx => hframe x hx
  · rw [← hbrk]
    refine (blockAt_stamp m (by omega) hlt).congr (by omega) ?_ ?_
    · exact fun x _ hx => put_apply_of_notMem _ _ (by omega)
    · exact fun x _ hx => put_apply_of_notMem _ _ (by omega)
  · rw [hbrk]
    rfl
  · rw [get_put_same]
    rfl

/-- The three words `extend_heap` writes, each found through the header written first. -/
theorem extend_writes (m : Mem) {brk : Nat} {b : Block} (hb : b.alloc = false)
    (hlt : b.size < 2 ^ 32) (hbrk : 4 ≤ brk) :
    let m₁ := put m (hdrp brk) (pack b.size 0)
    let m₂ := put m₁ (ftrp m₁ brk) (pack b.size 0)
    put m₂ (hdrp (nextBlkp m₂ brk)) (pack 0 1)
      = put (stamp m brk b) (brk + b.size - 4) (pack 0 1) := by
  intro m₁ m₂
  have hle := b.least_le
  have h₁ : getSize m₁ (brk - 4) = b.size :=
    getSize_put_pack m (hdrp brk) b.unit_dvd hlt (by decide)
  -- the header just written gives the footer its place
  have h₂ : m₂ = stamp m brk b := by
    show put m₁ (ftrp m₁ brk) (pack b.size 0) = _
    rw [ftrp_eq, h₁, stamp, hb]
    rfl
  rw [nextBlkp_eq, hdrp_eq, h₂, ← hdrp_eq brk, (blockAt_stamp m hbrk hlt).size]

/-- The `int` that `mem_sbrk` receives is the `size_t` passed, when that is below `2 ^ 31`. -/
theorem toInt32_of_lt {n : Nat} (h : n < 2 ^ 31) : toInt32 n = n := by
  have hmod : n % 2 ^ 32 = n := Nat.mod_eq_of_lt (by omega)
  rw [toInt32, hmod, if_pos h]

/-- **`extend_heap` grows the heap exactly.** When the bytes asked for fit, a free block of that
size is appended to the block list and joined with the last old block if that is free; the joined
block is returned and the break moves up by the size. No byte below the joined block changes, and
none of what it takes over from an old one but the header. -/
theorem extendHeap_absorb {h : Heap} {bs : List Block} (hl : h.Layout bs) {words : Nat} {b : Block}
    (hb : b.alloc = false) (hsize : extendSize words = b.size)
    (hroom : h.memBrk + b.size ≤ h.memMaxAddr) :
    ∃ h', extendHeap h words = (some (h.heapListp + 8 + (grown bs b).offset), h') ∧
      h'.Layout (grown bs b).list ∧ h'.heapListp = h.heapListp ∧
      h'.memStartBrk = h.memStartBrk ∧ h'.memBrk = h.memBrk + b.size ∧
      (∀ x, x < h.heapListp + 8 + (grown bs b).offset - 4 → h'.mem x = h.mem x) ∧
      (∀ x, h.memBrk + b.size ≤ x → h'.mem x = h.mem x) ∧
      ∀ x, h.heapListp + 8 + (grown bs b).offset ≤ x → x < h.memBrk - 4 → h'.mem x = h.mem x := by
  have hge := hl.tiled.listp_ge
  have hbrk := hl.tiled.brk_eq
  have hlistp : h.heapListp = h.memStartBrk + 8 := hl.listp
  have hle := b.least_le
  have hmax : h.memMaxAddr = h.memStartBrk + 20971520 := h.max_eq
  have hstart := h.start_le_brk
  obtain ⟨s, hs, hsmem, hsstart, hsbrk⟩ := Memlib.memSbrk_natCast hroom
  have hint : toInt32 b.size = b.size := toInt32_of_lt (by omega)
  have htiled := tiled_append (b := b) hl.tiled (by omega)
  -- the appended block is coalesced with what is below it; above it is the epilogue
  obtain ⟨m', hco, htiled', hframe, hpayload⟩ :=
    coalesce_absorb (f := ⟨bs, b, []⟩) htiled hb (by
      rw [Focus.total_list, Focus.offset]
      simp only [total_nil]
      omega)
  have hwrites := extend_writes h.mem hb (show b.size < 2 ^ 32 by omega)
    (show 4 ≤ h.memBrk by omega)
  have hoff : h.heapListp + 8 + Focus.offset (⟨bs, b, []⟩ : Focus 8 16) = h.memBrk := hbrk.symm
  have hend := grown_end bs b
  rw [hoff] at hco
  refine ⟨{ toMemlib := { s with mem := m' }, heapListp := h.heapListp }, ?_, ⟨?_, ?_, ?_⟩, rfl,
    hsstart, hsbrk, fun x hx => ?_, fun x hx => ?_, fun x hx hx' => ?_⟩
  · rw [extendHeap, ← extendSize, hsize, hint, hs]
    simp only [hsmem]
    rw [hwrites, hco]
    rfl
  · show h.heapListp = s.memStartBrk + dsize
    rw [hsstart, hl.listp]
  · show Tiled m' h.heapListp s.memBrk (grown bs b).list
    rw [hsbrk]
    exact htiled'
  · exact coalesced_grown b hl.coalesced
  · have hlow := le_grown_size bs b
    show m' x = h.mem x
    rw [hframe x (Or.inl hx), put_apply_of_notMem _ _ (by omega),
      stamp_apply_of_notMem _ (by omega) (by omega)]
  · show m' x = h.mem x
    have hx' : h.heapListp + 8 + (grown bs b).offset + (grown bs b).mid.size - 4 ≤ x := by omega
    rw [hframe x (Or.inr hx'), put_apply_of_notMem _ _ (by omega),
      stamp_apply_of_notMem _ (by omega) (by omega)]
  · show m' x = h.mem x
    have hlast : x < h.heapListp + 8 + (grown bs b).offset + (grown bs b).mid.size - 8 := by omega
    rw [hpayload x hx hlast, put_apply_of_notMem _ _ (by omega),
      stamp_apply_of_notMem _ (by omega) (by omega)]

/-- When `mem_sbrk` refuses the bytes asked for, `extend_heap` changes nothing. -/
theorem extendHeap_none {h : Heap} {words : Nat}
    (hs : h.memSbrk (toInt32 (extendSize words)) = none) : extendHeap h words = (none, h) := by
  rw [extendHeap, ← extendSize, hs]

/-! ## `mm_init` -/

/-- The free block of `CHUNKSIZE` bytes that a fresh heap consists of. -/
def chunk : Block := ⟨chunksize, false, by decide, by decide⟩

/-- The memory after the four words `mm_init` writes from `lo` on. -/
def initWords (m : Mem) (lo : Nat) : Mem :=
  put (put (put (put m lo 0) (lo + 1 * wsize) (pack dsize 1)) (lo + 2 * wsize) (pack dsize 1))
    (lo + 3 * wsize) (pack 0 1)

/-- A chunk is extended by its own size. -/
theorem extendSize_chunk : extendSize (chunksize / wsize) = chunk.size := by decide

/-- The four words `mm_init` writes are the prologue and the epilogue of an empty heap. -/
theorem tiled_init (m : Mem) (lo : Nat) : Tiled (initWords m lo) (lo + 8) (lo + 16) [] := by
  have hw : wsize = 4 := rfl
  rw [initWords]
  refine Tiled.mk' (by omega) ?_ ?_ rfl ?_
  · rw [get_put_of_disjoint _ _ (by omega), get_put_of_disjoint _ _ (by omega),
      show lo + 8 - 4 = lo + 1 * wsize by omega, get_put_same]
    rfl
  · rw [get_put_of_disjoint _ _ (by omega), show lo + 8 = lo + 2 * wsize by omega, get_put_same]
    rfl
  · rw [show lo + 16 - 4 = lo + 3 * wsize by omega, get_put_same]
    rfl

/-- The heap `mm_init` extends: a prologue and an epilogue at the start of the array. -/
def bareHeap (s : Memlib) : Heap where
  mem := initWords s.mem s.memStartBrk
  memStartBrk := s.memStartBrk
  memBrk := s.memStartBrk + 16
  memMaxAddr := s.memMaxAddr
  start_le_brk := Nat.le_add_right _ _
  brk_le_max := by
    rw [s.max_eq, maxHeap_eq]
    omega
  max_eq := s.max_eq
  heapListp := s.memStartBrk + 8

/-- The bare heap has no block. -/
theorem bareHeap_layout (s : Memlib) : (bareHeap s).Layout [] :=
  ⟨rfl, tiled_init s.mem s.memStartBrk, coalesced_nil⟩

/-- On a reset heap `mm_init` lays out the bare heap and extends it by a chunk. -/
theorem mmInit_eq {s : Memlib} (hs : s.memBrk = s.memStartBrk) :
    mmInit s = match extendHeap (bareHeap s) (chunksize / wsize) with
      | (none, h) => (-1, h)
      | (some _, h) => (0, h) := by
  have hmax : s.memMaxAddr = s.memStartBrk + 20971520 := s.max_eq
  have hroom : ¬ (((4 * wsize : Nat) : Int) < 0 ∨
      s.memMaxAddr < s.memBrk + ((4 * wsize : Nat) : Int).toNat) := by
    rw [Int.toNat_natCast, show wsize = 4 from rfl]
    omega
  rw [mmInit, Memlib.memSbrk, dif_neg hroom]
  simp only [hs]
  rfl

/-- **`mm_init` on a reset heap** succeeds whatever bytes the memory holds, and leaves a well-formed
heap of one free chunk. -/
theorem mmInit_layout {s : Memlib} (hs : s.memBrk = s.memStartBrk) :
    (mmInit s).1 = 0 ∧ (mmInit s).2.Layout [chunk] ∧
      (mmInit s).2.memStartBrk = s.memStartBrk := by
  have hroom : (bareHeap s).memBrk + chunk.size ≤ (bareHeap s).memMaxAddr := by
    have hmax : s.memMaxAddr = s.memStartBrk + 20971520 := s.max_eq
    show s.memStartBrk + 16 + 4096 ≤ s.memMaxAddr
    omega
  obtain ⟨h', hext, hlay, -, hstart, -⟩ := extendHeap_absorb (b := chunk) (bareHeap_layout s) rfl
    extendSize_chunk hroom
  have hinit : mmInit s = (0, h') := by rw [mmInit_eq hs, hext]
  rw [hinit]
  exact ⟨rfl, hlay, hstart⟩

/-- A heap of one free chunk. -/
def freshHeap : Heap := (mmInit (Memlib.memInit (fun _ => 0) 1024)).2

/-- The fresh heap is one free chunk. -/
theorem freshHeap_layout : freshHeap.Layout [chunk] := (mmInit_layout rfl).2.1

end MallocBench
