import MallocBench.Allocator.Malloc

/-! # `mm_realloc` on block lists

`mm_realloc` allocates, copies and frees. The copy length is read from the 8 bytes below the old
block, the upper half of which is the block's header: the value is at least `16 * 2 ^ 32`, so the
clamp by the request always decides (`copySize_eq`), and bytes behind the old block are copied when
the new block is longer. The copy stays inside the new payload.

What the client sees does not depend on whether the new block leaves a sliver: the old payload moves
and no other payload changes (`mmRealloc_moves`). Without a sliver the heap stays well formed too
(`mmRealloc_some`). -/

namespace MallocBench

open ByteMemory Segments

/-- **The copy length is the request.** The 8 bytes below a block hold its header in their upper
half, so as a `size_t` they exceed every request that was served. -/
theorem copySize_eq {m : Mem} {bp : Nat} {b : Block} (hb : BlockAt m bp b) (hbp : 8 ≤ bp)
    {size : Nat} (hsize : size < 2 ^ 36) : copySize m bp size = size := by
  have hle := b.least_le
  have hhdr : get m (bp - 4) = loadLE m (bp - 8 + 4) 4 := by
    rw [show bp - 8 + 4 = bp - 4 by omega]
    rfl
  have hword : loadLE m (bp - 8) 8 = loadLE m (bp - 8) 4 + 256 ^ 4 * get m (bp - 4) := by
    rw [hhdr]
    exact loadLE_add m (bp - 8) 4 4
  have hbound := hb.header_bounds.1
  rw [copySize, show sizeTSize = 8 from rfl]
  simp only [hword]
  rw [if_pos (by omega)]

/-- Copying into a payload leaves the heap well formed. -/
theorem memcpy_layout {h : Heap} {g : Focus 8 16} (hl : h.Layout g.list) (src : Nat) {n : Nat}
    (hn : n + 8 ≤ g.mid.size) :
    (h.setMem (memcpy h.mem (h.heapListp + 8 + g.offset) src n)).Layout g.list := by
  refine hl.setMem ?_ hl.coalesced
  refine hl.tiled.congr_payload (g.mid_mem_located _) fun x hx => ?_
  exact blit_apply_of_notMem _ _ _ _ (by omega)

/-- Copying into a payload and freeing another block is `release` on the block list. -/
theorem copy_free_layout {h : Heap} {m : Mem} {listp n p : Nat} {f g : Focus 8 16}
    (hl : (h.setMem m).Layout g.list) (hlp : h.heapListp = listp) (hn : n + 8 ≤ g.mid.size)
    (hf : f.list = g.list) (hp : listp + 8 + f.offset = p) :
    (mmFree (h.setMem (memcpy m (listp + 8 + g.offset) p n)) p).Layout f.release.list := by
  subst hlp hp
  have hcopy := memcpy_layout hl (h.heapListp + 8 + f.offset) hn
  rw [Heap.setMem_setMem, Heap.setMem_mem, Heap.setMem_heapListp, ← hf] at hcopy
  exact mmFree_release hcopy

/-- Copying into a used payload leaves a memory tagged. -/
theorem Tagged.memcpy {m : Mem} {listp brk : Nat} {g : Focus 8 16} (h : Tagged m listp brk g.list)
    (hused : g.mid.alloc = true) (src : Nat) {n : Nat} (hn : n + 8 ≤ g.mid.size) :
    Tagged (ByteMemory.memcpy m (listp + 8 + g.offset) src n) listp brk g.list := by
  have hframe : ∀ x, x < listp + 8 + g.offset ∨ listp + 8 + g.offset + g.mid.size - 8 ≤ x →
      ByteMemory.memcpy m (listp + 8 + g.offset) src n x = m x :=
    fun x hx => blit_apply_of_notMem _ _ _ _ (by omega)
  have hin := g.mid_mem_located (listp + 8)
  have hle := g.mid.least_le
  -- the tags of the block lie outside its payload
  refine h.replace rfl (fun x hx => hframe x (by omega)) (fun hfree => ?_) ?_ ?_
  · simp [hused] at hfree
  · rw [getAlloc, hdrp_eq, get_congr fun x _ _ => hframe x (by omega)]
    exact h.alloc _ _ hin
  · rw [getSize, get_congr fun x _ _ => hframe x (by omega)]
    exact h.lastSize _ _ hin

/-- `mm_free` on a tagged memory changes no byte of another used block. -/
theorem mmFree_keeps {h : Heap} {m : Mem} {listp : Nat} {bs : List Block} {p q : Nat} {c d : Block}
    (hlp : h.heapListp = listp) (ht : Tagged m listp h.memBrk bs) (hlt : total bs < 2 ^ 32)
    (hc : (p, c) ∈ located (listp + 8) bs) (hblock : BlockAt m p c)
    (hd : (q, d) ∈ located (listp + 8) bs) (hused : d.alloc = true) (hqp : q ≠ p) {x : Nat}
    (hx : q - 4 ≤ x) (hx' : x < q + d.size - 4) : (mmFree (h.setMem m) p).mem x = m x := by
  subst hlp
  obtain ⟨f, rfl, rfl, rfl⟩ := Focus.exists_of_mem_located hc
  exact mmFree_frame (h := h.setMem m) ht hblock hlt hd hqp hused hx hx'

/-- `mm_realloc` returns null, with nothing changed, when `mm_malloc` does. -/
theorem mmRealloc_none {h : Heap} {size ptr : Nat} (hm : mmMalloc h size = some (none, h)) :
    mmRealloc h ptr size = some (none, h) := by
  rw [mmRealloc, hm]

/-- Placing a block leaves a used one a block. -/
theorem Prepared.place_blockAt {h h₁ : Heap} {bs : List Block} {a c : Block} {f : Focus 8 16}
    (hp : Prepared h bs a h₁ f) (hl : h.Layout bs) {p : Nat}
    (hc : (p, c) ∈ located (h.heapListp + 8) bs) (hused : c.alloc = true) :
    BlockAt (MallocBench.place h₁.mem (h.heapListp + 8 + f.offset) a.size) p c := by
  have hge := hl.tiled.listp_ge
  have hpos := (bounds_of_mem_located hc).1
  have hle := c.least_le
  have hsame := hp.place_sameUsed hge p c hc hused
  refine (hl.tiled.walk.blockAt hc).congr (by omega) ?_ ?_
  · intro x hx hx'
    exact hsame x hx (by omega)
  · intro x hx hx'
    exact hsame x (by omega) hx'

/-- `mm_realloc` when `mm_malloc` places a block: the whole request is copied, then the old block is
freed. -/
theorem mmRealloc_placed {h h₁ : Heap} {bs : List Block} (hl : h.Layout bs) {size p : Nat} {c : Block}
    (hc : (p, c) ∈ located (h.heapListp + 8) bs) (hused : c.alloc = true) {f : Focus 8 16}
    (hp : Prepared h bs (requestBlock size) h₁ f)
    (hm : mmMalloc h size = some (some (h.heapListp + 8 + f.offset),
      h₁.setMem (place h₁.mem (h.heapListp + 8 + f.offset) (requestBlock size).size))) :
    mmRealloc h p size = some (some (h.heapListp + 8 + f.offset),
      mmFree (h₁.setMem (memcpy (place h₁.mem (h.heapListp + 8 + f.offset) (requestBlock size).size)
        (h.heapListp + 8 + f.offset) p size)) p) := by
  have hge := hl.tiled.listp_ge
  have hpos := (bounds_of_mem_located hc).1
  have hreq := size_add_le_requestBlock size
  have hfits := hp.fits
  have hmid := hp.mid_lt
  have hold := hp.place_blockAt hl hc hused
  have hcopy := copySize_eq hold (by omega) (show size < 2 ^ 36 by omega)
  rw [mmRealloc, hm]
  dsimp only
  rw [Heap.setMem_mem, hcopy, Heap.setMem_setMem]

/-- What copying into a new block and freeing the old one does to a tagged memory: the new block keeps
its tags and starts with the bytes of the old payload, and no byte of another used block changes. -/
theorem copy_free_moves {h : Heap} {m : Mem} {listp n p : Nat} {a c : Block} {g : Focus 8 16}
    (hlp : h.heapListp = listp) (ht : Tagged m listp h.memBrk g.list) (hlt : total g.list < 2 ^ 32)
    (hgused : g.mid.alloc = true) (hfit : a.size ≤ g.mid.size)
    (hblock : BlockAt m (listp + 8 + g.offset) a) (hn : n + 8 ≤ a.size)
    (hc : (p, c) ∈ located (listp + 8) g.list) (hcblock : BlockAt m p c)
    (hp : p ≠ listp + 8 + g.offset) {h' : Heap}
    (hh' : h' = mmFree (h.setMem (memcpy m (listp + 8 + g.offset) p n)) p) :
    BlockAt h'.mem (listp + 8 + g.offset) a ∧
      (∀ i, i < n → h'.mem (listp + 8 + g.offset + i) = m (p + i)) ∧
      ∀ q d, (q, d) ∈ located (listp + 8) g.list → d.alloc = true → q ≠ p →
        q ≠ listp + 8 + g.offset → ∀ x, q - 4 ≤ x → x < q + d.size - 4 → h'.mem x = m x := by
  have hge := ht.listp_ge
  have hin := g.mid_mem_located (listp + 8)
  have hcpos := (bounds_of_mem_located hc).1
  have hcle := c.least_le
  have hcdis := located_disjoint hc hin hp
  have ht₂ := ht.memcpy hgused p (n := n) (by omega)
  -- the copy writes inside the payload of the new block
  have hframe : ∀ x, x < listp + 8 + g.offset ∨ listp + 8 + g.offset + n ≤ x →
      memcpy m (listp + 8 + g.offset) p n x = m x :=
    fun x hx => blit_apply_of_notMem _ _ _ _ hx
  have hcblock₂ : BlockAt (memcpy m (listp + 8 + g.offset) p n) p c :=
    hcblock.congr (by omega) (fun x _ _ => hframe x (by omega)) fun x _ _ => hframe x (by omega)
  have hfree : ∀ q d, (q, d) ∈ located (listp + 8) g.list → d.alloc = true → q ≠ p →
      ∀ x, q - 4 ≤ x → x < q + d.size - 4 →
        h'.mem x = memcpy m (listp + 8 + g.offset) p n x := by
    intro q d hq hd hqp x hx hx'
    rw [hh']
    exact mmFree_keeps hlp ht₂ hlt hc hcblock₂ hq hd hqp hx hx'
  have hnew := hfree _ _ hin hgused (Ne.symm hp)
  refine ⟨hblock.congr (by omega) (fun x _ _ => ?_) fun x _ _ => ?_, fun i hi => ?_,
    fun q d hq hd hqp hqn x hx hx' => ?_⟩
  · rw [hnew x (by omega) (by omega), hframe x (by omega)]
  · rw [hnew x (by omega) (by omega), hframe x (by omega)]
  · rw [hnew _ (by omega) (by omega), memcpy, blit_apply_add _ _ _ _ hi]
  · have hqpos := (bounds_of_mem_located hq).1
    have hqdis := located_disjoint hq hin hqn
    rw [hfree q d hq hd hqp x hx hx', hframe x (by omega)]

/-- **What the client sees of `mm_realloc`**: the new block is long enough and starts with the bytes
of the old payload, and no byte of another used block changes. -/
theorem mmRealloc_moves {h h₁ : Heap} {bs : List Block} (hl : h.Layout bs) {size p : Nat} {c : Block}
    (hc : (p, c) ∈ located (h.heapListp + 8) bs) (hused : c.alloc = true) {f : Focus 8 16}
    (hp : Prepared h bs (requestBlock size) h₁ f) {h' : Heap}
    (hh' : h' = mmFree (h₁.setMem (memcpy
      (place h₁.mem (h.heapListp + 8 + f.offset) (requestBlock size).size)
        (h.heapListp + 8 + f.offset) p size)) p) :
    BlockAt h'.mem (h.heapListp + 8 + f.offset) (requestBlock size) ∧
      (∀ i, i < size → i + 8 ≤ c.size → h'.mem (h.heapListp + 8 + f.offset + i) = h.mem (p + i)) ∧
      ∀ q d, (q, d) ∈ located (h.heapListp + 8) bs → d.alloc = true → q ≠ p →
        ∀ x, q - 4 ≤ x → x < q + d.size - 4 → h'.mem x = h.mem x := by
  have hge := hl.tiled.listp_ge
  have hkeep : ∀ {q : Nat} {d : Block}, d.alloc = true → (q, d) ∈ located (h.heapListp + 8) bs →
      (q, d) ∈ located (h.heapListp + 8) (f.carve (requestBlock size)).list :=
    fun hd hq => Focus.mem_located_carve _ hp.free hd (hp.keeps hd hq).1
  have hne : ∀ {q : Nat} {d : Block}, d.alloc = true → (q, d) ∈ located (h.heapListp + 8) bs →
      q ≠ h.heapListp + 8 + f.offset := fun hd hq => (hp.keeps hd hq).2.1
  have hsame := hp.place_sameUsed hge
  have hblock := hp.place.1
  have hold := hp.place_blockAt hl hc hused
  have htag := place_tagged hp.layout.tiled hp.mid_lt hp.fits
  rw [hp.listp] at htag
  have hlt : total (f.carve (requestBlock size)).list < 2 ^ 32 := by
    have hbrk := htag.brk_eq
    have hmax := h₁.brk_le_max
    have hmax' : h₁.memMaxAddr = h₁.memStartBrk + 20971520 := h₁.max_eq
    have hlistp : h₁.heapListp = h₁.memStartBrk + 8 := hp.layout.listp
    have hlp := hp.listp
    omega
  have hpos := (bounds_of_mem_located hc).1
  have hcle := c.least_le
  -- from here on only what is known of the memory after `place` is used
  generalize place h₁.mem (h.heapListp + 8 + f.offset) (requestBlock size).size = m at *
  rw [← Focus.carve_offset f (requestBlock size)] at hblock hne hh' ⊢
  obtain ⟨hnew, hbytes, hothers⟩ := copy_free_moves (a := requestBlock size) hp.listp htag hlt
    (f.carve_alloc _) (f.le_carve_size hp.fits) hblock (size_add_le_requestBlock size)
    (hkeep hused hc) hold (hne hused hc) hh'
  refine ⟨hnew, fun i hi hic => ?_, fun q d hq hd hqp x hx hx' => ?_⟩
  · rw [hbytes i hi]
    exact hsame p c hc hused _ (by omega) (by omega)
  · rw [hothers q d (hkeep hd hq) hd hqp (hne hd hq) x hx hx']
    exact hsame q d hq hd x hx hx'

/-- **`mm_realloc` moves a block.** When the abstract allocator has room, the old block is released
from the list with the new block in it; the new payload starts with the bytes of the old one, and no
byte of another used block changes. -/
theorem mmRealloc_some {h : Heap} {bs : List Block} (hl : h.Layout bs) {size p : Nat} {c : Block}
    (hc : (p, c) ∈ located (h.heapListp + 8) bs) (hused : c.alloc = true) (hsize : size ≠ 0)
    (hs : h.Serves size) {g : Focus 8 16} (ha : allocateBlock bs size = some g) :
    ∃ f h', focusAt (p - (h.heapListp + 8)) g.list = some f ∧
      f.list = g.list ∧ h.heapListp + 8 + f.offset = p ∧
      mmRealloc h p size = some (some (h.heapListp + 8 + g.offset), h') ∧
      h'.Layout f.release.list ∧ h'.heapListp = h.heapListp ∧ h'.memStartBrk = h.memStartBrk ∧
      (∀ i, i < size → i + 8 ≤ c.size → h'.mem (h.heapListp + 8 + g.offset + i) = h.mem (p + i)) ∧
      ∀ q d, (q, d) ∈ located (h.heapListp + 8) bs → d.alloc = true → q ≠ p →
        ∀ x, q - 4 ≤ x → x < q + d.size - 4 → h'.mem x = h.mem x := by
  obtain ⟨h₁, k, hp, rfl, hm, hne⟩ := mmMalloc_served hl hsize hs ha
  obtain ⟨-, hbytes, hothers⟩ := mmRealloc_moves hl hc hused hp rfl
  have hreq := size_add_le_requestBlock size
  have hcarve := k.le_carve_size hp.fits
  have hpin := Focus.mem_located_carve (requestBlock size) hp.free hused (hp.keeps hused hc).1
  obtain ⟨f, hfocus, hflist, hfoff, -⟩ := focusAt_of_mem (by decide) hpin
  have hplaced := mmRealloc_placed hl hc hused hp hm
  have hlay := hp.place_layout hne
  -- from here on only what is known of the memory after `place` is used
  generalize place h₁.mem (h.heapListp + 8 + k.offset) (requestBlock size).size = m at *
  have hrel := copy_free_layout (n := size) hlay hp.listp (by omega) hflist hfoff
  rw [Focus.carve_offset] at hrel ⊢
  exact ⟨f, _, hfocus, hflist, hfoff, hplaced, hrel, hp.listp, hp.start, hbytes, hothers⟩

end MallocBench
