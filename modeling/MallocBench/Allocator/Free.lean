import MallocBench.Allocator.Layout

/-! # Coalescing and `mm_free`

`coalesce` decides by the tags around a free block which neighbours it joins, and writes the tags
of the joined block. On a tiled memory that is `Focus.absorb` on the block list
(`coalesce_absorb`): the words it reads are the neighbours' tags, or the prologue's and the
epilogue's at the two ends of the heap, and the two words it writes are the tags of the absorbing
block. `mm_free` first stamps the block free and then coalesces.

Of a used block `coalesce` reads less than its tags: the allocated bit above and the size in the last
word. A memory that spells its free blocks and this much of the used ones is `Tagged`; there
`coalesce` still writes only inside the absorbing block (`Tagged.coalesce`). -/

namespace MallocBench

open ByteMemory Segments

/-! ## The tags around a block -/

/-- What `coalesce` relies on: the free blocks are in memory, and every block has its allocated bit in
its first word and its size in its last. -/
structure Tagged (m : Mem) (listp brk : Nat) (bs : List Block) : Prop where
  listp_ge : 8 ≤ listp
  prologueAlloc : getAlloc m (hdrp listp) = 1
  prologueSize : getSize m listp = 8
  free : ∀ p b, (p, b) ∈ located (listp + 8) bs → b.alloc = false → BlockAt m p b
  alloc : ∀ p b, (p, b) ∈ located (listp + 8) bs → getAlloc m (hdrp p) = b.alloc.toNat
  lastSize : ∀ p b, (p, b) ∈ located (listp + 8) bs → getSize m (p + b.size - 8) = b.size
  brk_eq : brk = listp + 8 + total bs
  epilogue : getAlloc m (hdrp brk) = 1

/-- The size in the footer of a block. -/
theorem BlockAt.lastSize {m : Mem} {bp : Nat} {b : Block} (h : BlockAt m bp b) :
    getSize m (bp + b.size - 8) = b.size := by
  rw [getSize, h.footer_eq, ← getSize]
  exact h.size

/-- A tiled memory is tagged. -/
theorem Tiled.tagged {m : Mem} {listp brk : Nat} {bs : List Block} (h : Tiled m listp brk bs) :
    Tagged m listp brk bs where
  listp_ge := h.listp_ge
  prologueAlloc := by rw [getAlloc_eq, hdrp_eq, h.hdr]
  prologueSize := by
    rw [getSize, h.ftr]
    rfl
  free p b hb _ := h.walk.blockAt hb
  alloc p b hb := (h.walk.blockAt hb).alloc
  lastSize p b hb := (h.walk.blockAt hb).lastSize
  brk_eq := h.brk_eq
  epilogue := by rw [getAlloc_eq, hdrp_eq, h.epi]

/-- The singled-out block is in memory. -/
theorem Tiled.mid_blockAt {m : Mem} {listp brk : Nat} {f : Focus 8 16}
    (h : Tiled m listp brk f.list) : BlockAt m (listp + 8 + f.offset) f.mid :=
  h.walk.blockAt (f.mid_mem_located _)

namespace Tagged

variable {m : Mem} {listp brk : Nat} {f : Focus 8 16}

/-- With no free right neighbour, the allocated bit read above the block is set: it is the
neighbour's, or the epilogue's. -/
theorem nextAllocated (h : Tagged m listp brk f.list)
    (hmid : BlockAt m (listp + 8 + f.offset) f.mid) (hu : f.RightUsed) :
    getAlloc m (hdrp (nextBlkp m (listp + 8 + f.offset))) = 1 := by
  rw [hmid.next]
  -- at the end of the list the word above is the epilogue
  obtain ⟨pre, b, post⟩ := f
  cases post with
  | nil =>
      have hbrk : brk = listp + 8 + total pre + b.size := by
        rw [h.brk_eq, Focus.total_list]
        simp [Focus.offset, Nat.add_assoc]
      rw [Focus.offset, ← hbrk, h.epilogue]
  | cons c cs =>
      have hc : c.alloc = true := hu c rfl
      have hin : (listp + 8 + total pre + b.size, c) ∈
          located (listp + 8) (Focus.list ⟨pre, b, c :: cs⟩) := by
        rw [Focus.located_list, Focus.offset]
        simp
      rw [Focus.offset, h.alloc _ _ hin, hc]
      rfl

/-- With no free left neighbour, the allocated bit read below the block is set: it is the
neighbour's, or the prologue's. -/
theorem prevAllocated (h : Tagged m listp brk f.list) (hu : f.LeftUsed) :
    getAlloc m (hdrp (prevBlkp m (listp + 8 + f.offset))) = 1 := by
  obtain ⟨pre, b, post⟩ := f
  -- at the start of the list the word below is the prologue's footer
  rcases List.eq_nil_or_concat pre with rfl | ⟨bs, c, rfl⟩
  · have hsize : getSize m (listp + 8 - 8) = 8 := by
      rw [Nat.add_sub_cancel, h.prologueSize]
    rw [prevBlkp_eq, Focus.offset, total_nil, Nat.add_zero, hsize, Nat.add_sub_cancel,
      h.prologueAlloc]
  · rw [List.concat_eq_append] at *
    have hc : c.alloc = true := hu c (by simp)
    have hin : (listp + 8 + total bs, c) ∈
        located (listp + 8) (Focus.list ⟨bs ++ [c], b, post⟩) := by
      rw [Focus.list, located_append, located_append]
      simp
    rw [Focus.offset, total_concat, ← Nat.add_assoc, prevBlkp_eq, h.lastSize _ _ hin,
      Nat.add_sub_cancel, h.alloc _ _ hin, hc]
    rfl

/-- A memory stays tagged when the bytes of one block change and spell another block of its size, or
of a used one as much as `coalesce` relies on. -/
theorem replace {m' : Mem} (h : Tagged m listp brk f.list) {b : Block}
    (hsize : b.size = f.mid.size)
    (hframe : ∀ x, x < listp + 8 + f.offset - 4 ∨ listp + 8 + f.offset + f.mid.size - 4 ≤ x →
      m' x = m x)
    (hfree : b.alloc = false → BlockAt m' (listp + 8 + f.offset) b)
    (halloc : getAlloc m' (hdrp (listp + 8 + f.offset)) = b.alloc.toNat)
    (hlast : getSize m' (listp + 8 + f.offset + b.size - 8) = b.size) :
    Tagged m' listp brk (Focus.list ⟨f.pre, b, f.post⟩) := by
  have hl := h.listp_ge
  have hmid := f.mid.least_le
  have hbrk := h.brk_eq
  rw [f.total_list] at hbrk
  have hword : ∀ p, p + 4 ≤ listp + 8 + f.offset - 4 ∨
      listp + 8 + f.offset + f.mid.size - 4 ≤ p → get m' p = get m p :=
    fun p hp => get_congr fun x hx hx' => hframe x (by omega)
  -- another block of the list lies beside the one that changes
  have hother : ∀ p c, (p, c) ∈ located (listp + 8) (Focus.list ⟨f.pre, b, f.post⟩) →
      (p = listp + 8 + f.offset ∧ c = b) ∨ ((p, c) ∈ located (listp + 8) f.list ∧ 12 ≤ p ∧
        (p + c.size ≤ listp + 8 + f.offset ∨ listp + 8 + f.offset + f.mid.size ≤ p)) := by
    intro p c hc
    rw [Focus.mem_located_list, hsize] at hc
    rcases hc with hc | ⟨rfl, rfl⟩ | hc
    · have hb := Focus.mem_located_beside (f := f) (Or.inl hc)
      have hpos := (bounds_of_mem_located hc).1
      exact Or.inr ⟨hb.1, by omega, hb.2⟩
    · exact Or.inl ⟨rfl, rfl⟩
    · have hb := Focus.mem_located_beside (f := f) (Or.inr hc)
      have hpos := (bounds_of_mem_located hb.1).1
      exact Or.inr ⟨hb.1, by omega, hb.2⟩
  refine ⟨hl, ?_, ?_, fun p c hc hcfree => ?_, fun p c hc => ?_, fun p c hc => ?_, ?_, ?_⟩
  · rw [getAlloc, hdrp_eq, hword _ (by omega)]
    exact h.prologueAlloc
  · rw [getSize, hword _ (by omega)]
    exact h.prologueSize
  · rcases hother p c hc with ⟨rfl, rfl⟩ | ⟨hold, hp, hdis⟩
    · exact hfree hcfree
    · have hcs := c.least_le
      exact (h.free p c hold hcfree).congr (by omega) (fun x _ _ => hframe x (by omega))
        fun x _ _ => hframe x (by omega)
  · rcases hother p c hc with ⟨rfl, rfl⟩ | ⟨hold, hp, hdis⟩
    · exact halloc
    · have hcs := c.least_le
      rw [getAlloc, hdrp_eq, hword _ (by omega)]
      exact h.alloc p c hold
  · rcases hother p c hc with ⟨rfl, rfl⟩ | ⟨hold, hp, hdis⟩
    · exact hlast
    · have hcs := c.least_le
      rw [getSize, hword _ (by omega)]
      exact h.lastSize p c hold
  · have htotal : total (Focus.list ⟨f.pre, b, f.post⟩) = total f.list := by
      simp [Focus.list, hsize]
    rw [htotal]
    exact h.brk_eq
  · rw [getAlloc, hdrp_eq, hword _ (by omega)]
    exact h.epilogue

end Tagged

/-! ## Coalescing -/

/-- The size read back from a freshly written header. -/
theorem getSize_put_pack (m : Mem) (p : Nat) {size alloc : Nat} (hs : 8 ∣ size)
    (hlt : size < 2 ^ 32) (ha : alloc < 8) : getSize (put m p (pack size alloc)) p = size := by
  rw [getSize_eq, get_put_same, pack_eq_add hs ha]
  omega

/-- The size read next to a write is the old one. -/
theorem getSize_put_of_disjoint (m : Mem) (v : Nat) {p q : Nat} (h : p + 4 ≤ q ∨ q + 4 ≤ p) :
    getSize (put m p v) q = getSize m q := by
  rw [getSize, get_put_of_disjoint m v h, getSize]

section Cases

variable {m : Mem} {bp p : Nat} {b c d : Block}

/-- Case 1 of `coalesce`: both neighbours in use, nothing is written. -/
theorem coalesce_used (hprev : getAlloc m (hdrp (prevBlkp m bp)) = 1)
    (hnext : getAlloc m (hdrp (nextBlkp m bp)) = 1) : coalesce m bp = (bp, m) := by
  simp [coalesce, hprev, hnext]

/-- Case 2 of `coalesce`: only the right neighbour is free. The footer is found through the header
just written. -/
theorem coalesce_right (hprev : getAlloc m (hdrp (prevBlkp m bp)) = 1) (hc : BlockAt m bp c)
    (hd : BlockAt m (bp + c.size) d) (hfree : d.alloc = false) (hlt : c.size + d.size < 2 ^ 32) :
    coalesce m bp = (bp, stamp m bp (c.merge d)) := by
  have hnext := hc.next
  -- the footer address is read through the header just written
  have hftr : ∀ v, ftrp (put m (bp - 4) (pack (c.size + d.size) v)) bp
      = bp + getSize (put m (bp - 4) (pack (c.size + d.size) v)) (bp - 4) - 8 := fun _ => rfl
  have hsize := getSize_put_pack m (bp - 4) (Nat.dvd_add c.unit_dvd d.unit_dvd) hlt
    (show 0 < 8 by decide)
  simp only [coalesce, hprev, hnext, hd.alloc, hfree, hc.size, hd.size]
  simp [stamp, hdrp_eq, hftr, hsize]

/-- Case 3 of `coalesce`: only the left neighbour is free. The footer is found through the block's
own header, which is still the old one. -/
theorem coalesce_left (hp : 4 ≤ p) (hb : BlockAt m p b) (hfree : b.alloc = false)
    (hc : BlockAt m (p + b.size) c) (hnext : getAlloc m (hdrp (nextBlkp m (p + b.size))) = 1) :
    coalesce m (p + b.size) = (p, stamp m p (b.merge c)) := by
  have hbs := b.least_le
  have hcs := c.least_le
  have hprev : prevBlkp m (p + b.size) = p := by
    rw [prevBlkp_eq, hb.lastSize, Nat.add_sub_cancel]
  -- what is read through the words just written
  have hftr : ftrp (put m (hdrp p) (pack (c.size + b.size) 0)) (p + b.size)
      = p + b.size + c.size - 8 := by
    rw [ftrp_eq, hdrp_eq, getSize_put_of_disjoint _ _ (by omega), ← hdrp_eq, hc.size]
  have hprev' : prevBlkp (put (put m (hdrp p) (pack (c.size + b.size) 0))
      (p + b.size + c.size - 8) (pack (c.size + b.size) 0)) (p + b.size) = p := by
    rw [prevBlkp_eq, hdrp_eq, getSize_put_of_disjoint _ _ (by omega),
      getSize_put_of_disjoint _ _ (by omega), hb.lastSize, Nat.add_sub_cancel]
  simp only [coalesce, hprev, hnext, hb.alloc, hfree, hc.size, hb.size, hftr, hprev']
  simp [stamp, hdrp_eq, Nat.add_comm c.size, Nat.add_assoc]

/-- Case 4 of `coalesce`: both neighbours are free. The footer is the right neighbour's, found
through the two old headers. -/
theorem coalesce_both (hp : 4 ≤ p) (hb : BlockAt m p b) (hbfree : b.alloc = false)
    (hc : BlockAt m (p + b.size) c) (hd : BlockAt m (p + b.size + c.size) d)
    (hdfree : d.alloc = false) (hlt : b.size + (c.size + d.size) < 2 ^ 32) :
    coalesce m (p + b.size) = (p, stamp m p (b.merge (c.merge d))) := by
  have hbs := b.least_le
  have hcs := c.least_le
  have hds := d.least_le
  have hprev : prevBlkp m (p + b.size) = p := by
    rw [prevBlkp_eq, hb.lastSize, Nat.add_sub_cancel]
  have hnext := hc.next
  have hmod : (b.size + d.size) % 2 ^ 32 = b.size + d.size := Nat.mod_eq_of_lt (by omega)
  -- the first word written leaves the two headers read next alone
  have hnext' : nextBlkp (put m (hdrp p) (pack (c.size + (b.size + d.size)) 0)) (p + b.size)
      = p + b.size + c.size := by
    rw [nextBlkp_eq, hdrp_eq, getSize_put_of_disjoint _ _ (by omega), ← hdrp_eq, hc.size]
  have hftr : ftrp (put m (hdrp p) (pack (c.size + (b.size + d.size)) 0)) (p + b.size + c.size)
      = p + b.size + c.size + d.size - 8 := by
    rw [ftrp_eq, hdrp_eq, getSize_put_of_disjoint _ _ (by omega), ← hdrp_eq, hd.size]
  have hprev' : prevBlkp (put (put m (hdrp p) (pack (c.size + (b.size + d.size)) 0))
      (p + b.size + c.size + d.size - 8) (pack (c.size + (b.size + d.size)) 0)) (p + b.size)
      = p := by
    rw [prevBlkp_eq, hdrp_eq, getSize_put_of_disjoint _ _ (by omega),
      getSize_put_of_disjoint _ _ (by omega), hb.lastSize, Nat.add_sub_cancel]
  simp only [coalesce, hprev, hnext, hb.alloc, hd.alloc, hbfree, hdfree, hc.size, hb.size,
    hd.size, hmod, hnext', hftr, hprev']
  simp [stamp, hdrp_eq, Nat.add_assoc, Nat.add_left_comm c.size]

end Cases

/-- A free block below the singled-out one is in memory. -/
theorem Tagged.left_blockAt {m : Mem} {listp brk : Nat} {bs post : List Block} {b c : Block}
    (h : Tagged m listp brk (Focus.list ⟨bs ++ [b], c, post⟩)) (hb : b.alloc = false) :
    BlockAt m (listp + 8 + total bs) b := by
  refine h.free _ _ ?_ hb
  rw [Focus.list, located_append, located_append]
  simp

/-- A free block above the singled-out one is in memory. -/
theorem Tagged.right_blockAt {m : Mem} {listp brk : Nat} {pre ds : List Block} {c d : Block}
    (h : Tagged m listp brk (Focus.list ⟨pre, c, d :: ds⟩)) (hd : d.alloc = false) :
    BlockAt m (listp + 8 + total pre + c.size) d := by
  refine h.free _ _ ?_ hd
  rw [Focus.located_list, Focus.offset]
  simp

/-- **`coalesce` on a tagged memory** returns the address of the absorbing block and writes its two
tags, or nothing when the block has no free neighbour. -/
theorem Tagged.coalesce {m : Mem} {listp brk : Nat} {f : Focus 8 16}
    (h : Tagged m listp brk f.list) (hfree : f.mid.alloc = false) (hlt : total f.list < 2 ^ 32) :
    ∃ m', MallocBench.coalesce m (listp + 8 + f.offset) = (listp + 8 + f.absorb.offset, m') ∧
      (f.absorb = f ∧ m' = m ∨ m' = stamp m (listp + 8 + f.absorb.offset) f.absorb.mid) := by
  have hl := h.listp_ge
  have hmid := h.free _ _ (f.mid_mem_located _) hfree
  rw [Focus.total_list, Focus.offset] at hlt
  obtain ⟨pre, c, post⟩ := f
  simp only at hlt hmid
  have hoff : ∀ (bs : List Block) (b : Block),
      listp + 8 + Focus.offset ⟨bs ++ [b], c, post⟩ = listp + 8 + total bs + b.size := by
    intro bs b
    rw [Focus.offset, total_concat, ← Nat.add_assoc]
  -- the four cases of the code: which of the two neighbours is free
  obtain ⟨hleft, hright, habs⟩ | ⟨hleft, d, ds, rfl, hd, habs⟩ | ⟨hright, bs, b, rfl, hb, habs⟩ |
    ⟨bs, b, d, ds, rfl, hb, rfl, hd, habs⟩ := Focus.absorb_cases ⟨pre, c, post⟩
  · rw [habs]
    exact ⟨m, coalesce_used (h.prevAllocated hleft) (h.nextAllocated hmid hright), Or.inl ⟨rfl, rfl⟩⟩
  · rw [total_cons] at hlt
    rw [habs]
    exact ⟨_, coalesce_right (c := c) (h.prevAllocated hleft) hmid (h.right_blockAt hd) hd (by omega),
      Or.inr rfl⟩
  · have hnext := h.nextAllocated hmid hright
    rw [hoff] at hmid hnext
    rw [habs, hoff]
    exact ⟨_, coalesce_left (by omega) (h.left_blockAt hb) hb hmid hnext, Or.inr rfl⟩
  · have hright := h.right_blockAt hd
    rw [total_concat, ← Nat.add_assoc] at hright
    rw [total_concat, total_cons] at hlt
    rw [hoff] at hmid
    rw [habs, hoff]
    exact ⟨_, coalesce_both (by omega) (h.left_blockAt hb) hb hmid hright hd (by omega), Or.inr rfl⟩

/-- **`coalesce` computes `absorb`.** On a tiled memory whose singled-out block is free, it returns
the address of the absorbing block, leaves the memory tiled with the free neighbours joined, and
writes only the tags of the absorbing block. -/
theorem coalesce_absorb {m : Mem} {listp brk : Nat} {f : Focus 8 16}
    (h : Tiled m listp brk f.list) (hfree : f.mid.alloc = false) (hlt : total f.list < 2 ^ 32) :
    ∃ m', coalesce m (listp + 8 + f.offset) = (listp + 8 + f.absorb.offset, m') ∧
      Tiled m' listp brk f.absorb.list ∧
      (∀ x, x < listp + 8 + f.absorb.offset - 4 ∨
        listp + 8 + f.absorb.offset + f.absorb.mid.size - 4 ≤ x → m' x = m x) ∧
      ∀ x, listp + 8 + f.absorb.offset ≤ x →
        x < listp + 8 + f.absorb.offset + f.absorb.mid.size - 8 → m' x = m x := by
  have hl := h.listp_ge
  obtain ⟨m', hco, ⟨habs, rfl⟩ | rfl⟩ := h.tagged.coalesce hfree hlt
  · rw [habs] at hco ⊢
    exact ⟨m', hco, h, fun _ _ => rfl, fun _ _ _ => rfl⟩
  · obtain ⟨xs, hlist, hxs⟩ := f.absorb_replaces
    rw [hlist] at h
    have hle : f.absorb.mid.size ≤ total f.list := by
      rw [hlist, total_append, total_append]
      omega
    exact ⟨_, hco, h.stamp hxs.symm (by omega), fun x hx => stamp_apply_of_notMem m (by omega) hx,
      fun x hx hx' => stamp_apply_payload m (by omega) hx hx'⟩

/-! ## `mm_free` -/

/-- The tag writes of `mm_free` stamp the block free. -/
theorem mmFree_mem {h : Heap} {bp : Nat} {b : Block} (hb : BlockAt h.mem bp b)
    (hlt : b.size < 2 ^ 32) :
    (mmFree h bp).mem = (coalesce (stamp h.mem bp b.freed) bp).2 := by
  have hread := getSize_put_pack h.mem (hdrp bp) b.unit_dvd hlt (show 0 < 8 by decide)
  simp only [mmFree, hb.size, ftrp, hread]
  rfl

/-- **`mm_free` on a tagged memory** writes only inside the block that results. -/
theorem Tagged.mmFree_apply_of_notMem {h : Heap} {f : Focus 8 16}
    (ht : Tagged h.mem h.heapListp h.memBrk f.list)
    (hmid : BlockAt h.mem (h.heapListp + 8 + f.offset) f.mid) (hlt : total f.list < 2 ^ 32) {x : Nat}
    (hx : x < h.heapListp + 8 + f.release.offset - 4 ∨
      h.heapListp + 8 + f.release.offset + f.release.mid.size - 4 ≤ x) :
    (mmFree h (h.heapListp + 8 + f.offset)).mem x = h.mem x := by
  have hge := ht.listp_ge
  have hsize := f.mid.least_le
  have hcov := f.release_covers
  rw [Focus.total_list] at hlt
  have hpre : total f.pre = f.offset := rfl
  have hstamp : ∀ y, y < h.heapListp + 8 + f.offset - 4 ∨
      h.heapListp + 8 + f.offset + f.mid.size - 4 ≤ y →
        stamp h.mem (h.heapListp + 8 + f.offset) f.mid.freed y = h.mem y :=
    fun y hy => stamp_apply_of_notMem _ (by omega) hy
  have hblock : BlockAt (stamp h.mem (h.heapListp + 8 + f.offset) f.mid.freed)
      (h.heapListp + 8 + f.offset) f.mid.freed :=
    blockAt_stamp _ (by omega) (by rw [Segment.freed_size]; omega)
  have htag := ht.replace (b := f.mid.freed) rfl hstamp (fun _ => hblock) hblock.alloc hblock.lastSize
  obtain ⟨m', hco, hm'⟩ := htag.coalesce rfl (by
    rw [Focus.total_list, Focus.offset] at *
    simp only [Segment.freed_size]
    omega)
  have heq : (mmFree h (h.heapListp + 8 + f.offset)).mem = m' := by
    rw [mmFree_mem hmid (by omega)]
    exact congrArg Prod.snd hco
  rw [heq]
  rcases hm' with ⟨-, rfl⟩ | rfl
  · exact hstamp x (by omega)
  · change x < h.heapListp + 8 + f.release.offset - 4 ∨
      h.heapListp + 8 + f.release.offset + f.release.mid.size - 4 ≤ x at hx
    have hrel := stamp_apply_of_notMem (stamp h.mem (h.heapListp + 8 + f.offset) f.mid.freed)
      (b := f.release.mid) (show 4 ≤ h.heapListp + 8 + f.release.offset by omega) hx
    exact hrel.trans (hstamp x (by omega))

/-- The block sizes of a heap add up to less than `MAX_HEAP`, far below the range of a word. -/
theorem Heap.Layout.total_lt {h : Heap} {bs : List Block} (hl : h.Layout bs) :
    total bs + 16 ≤ maxHeap := by
  have hbrk := hl.tiled.brk_eq
  have hlistp := hl.listp
  have hmax := h.brk_le_max
  rw [h.max_eq] at hmax
  rw [show dsize = 8 from rfl] at hlistp
  omega

/-- The size of a heap: its blocks, the padding, the prologue and the epilogue. -/
theorem Heap.Layout.memHeapsize_eq {h : Heap} {bs : List Block} (hl : h.Layout bs) :
    h.memHeapsize = total bs + 16 := by
  have hlistp : h.heapListp = h.memStartBrk + 8 := hl.listp
  have hbrk := hl.tiled.brk_eq
  rw [Memlib.memHeapsize]
  omega

/-- **`mm_free` computes `release`** on the block list. -/
theorem mmFree_release {h : Heap} {f : Focus 8 16} (hl : h.Layout f.list) :
    (mmFree h (h.heapListp + 8 + f.offset)).Layout f.release.list := by
  have htot := hl.total_lt
  rw [maxHeap_eq, Focus.total_list] at htot
  have hold : Tiled h.mem h.heapListp h.memBrk (f.pre ++ ([f.mid] ++ f.post)) := hl.tiled
  -- `mm_free` stamps the block free first, then coalesces it
  have hstamp := hold.stamp (b := f.mid.freed) (by simp) (by rw [Segment.freed_size]; omega)
  obtain ⟨m', hco, htiled, -⟩ :=
    coalesce_absorb (f := ⟨f.pre, f.mid.freed, f.post⟩) hstamp rfl (by
      rw [Focus.total_list, Focus.offset] at *
      simp only [Segment.freed_size]
      omega)
  have heq : (mmFree h (h.heapListp + 8 + f.offset)).mem = m' := by
    rw [mmFree_mem hl.tiled.mid_blockAt (by omega)]
    exact congrArg Prod.snd hco
  refine ⟨hl.listp, ?_, Focus.coalesced_release hl.coalesced⟩
  rw [heq]
  exact htiled

/-- `mm_free` changes no byte of another used block. -/
theorem mmFree_frame {h : Heap} {f : Focus 8 16} (ht : Tagged h.mem h.heapListp h.memBrk f.list)
    (hmid : BlockAt h.mem (h.heapListp + 8 + f.offset) f.mid) (hlt : total f.list < 2 ^ 32) {p : Nat}
    {c : Block} (hc : (p, c) ∈ located (h.heapListp + 8) f.list)
    (hp : p ≠ h.heapListp + 8 + f.offset) (halloc : c.alloc = true) {x : Nat} (hx : p - 4 ≤ x)
    (hx' : x < p + c.size - 4) : (mmFree h (h.heapListp + 8 + f.offset)).mem x = h.mem x := by
  refine ht.mmFree_apply_of_notMem hmid hlt ?_
  have hge := ht.listp_ge
  have hle := c.least_le
  have hpos := (bounds_of_mem_located hc).1
  rcases Focus.mem_located_release hc hp with hm | ⟨hfree, -⟩
  · have := (Focus.mem_located_beside hm).2
    omega
  · simp [halloc] at hfree

/-- **`mm_free` is exact.** Freeing a block of a well-formed heap leaves a well-formed heap of the
same size whose block list is the old one with the block freed and joined with its free neighbours.
Every other block keeps its address, size and allocated bit, the free neighbours excepted, and no
byte of another allocated block changes. The block may be any block of the heap, in particular any
allocated one. -/
theorem mmFree_exact (h : Heap) (f : Focus 8 16) (hl : h.Layout f.list) :
    let bp := h.heapListp + 8 + f.offset
    let h' := mmFree h bp
    h'.Layout f.release.list ∧ h'.memStartBrk = h.memStartBrk ∧ h'.memBrk = h.memBrk ∧
      total f.release.list = total f.list ∧
      -- the block list, by which of the two neighbours are free
      ((f.LeftUsed → f.RightUsed → f.release.list = f.pre ++ f.mid.freed :: f.post) ∧
        (f.LeftUsed → ∀ d ds, f.post = d :: ds → d.alloc = false →
          f.release.list = f.pre ++ f.mid.merge d :: ds) ∧
        (f.RightUsed → ∀ bs b, f.pre = bs ++ [b] → b.alloc = false →
          f.release.list = bs ++ b.merge f.mid :: f.post) ∧
        (∀ bs b d ds, f.pre = bs ++ [b] → b.alloc = false → f.post = d :: ds → d.alloc = false →
          f.release.list = bs ++ b.merge (f.mid.merge d) :: ds)) ∧
      -- every other block stays
      (∀ p c, (p, c) ∈ located (h.heapListp + 8) f.list → p ≠ bp →
        (p, c) ∈ located (h.heapListp + 8) f.release.list ∨
          (c.alloc = false ∧ (p + c.size = bp ∨ p = bp + f.mid.size))) ∧
      -- and no byte of another allocated block changes
      (∀ p c, (p, c) ∈ located (h.heapListp + 8) f.list → p ≠ bp → c.alloc = true →
        ∀ x, p - 4 ≤ x → x < p + c.size - 4 → h'.mem x = h.mem x) := by
  intro bp h'
  have htot := hl.total_lt
  rw [maxHeap_eq] at htot
  refine ⟨mmFree_release hl, rfl, rfl, f.total_release, f.release_list, fun p c hc hp => ?_,
    fun p c hc hp halloc x hx hx' =>
      mmFree_frame hl.tiled.tagged hl.tiled.mid_blockAt (by omega) hc hp halloc hx hx'⟩
  exact (Focus.mem_located_release hc hp).imp_left fun h => (Focus.mem_located_beside h).1

/-- A heap of a free block, an allocated one and the free rest of the first chunk. -/
def splitHeap : Heap :=
  let h := (mmInit (Memlib.memInit (fun _ => 0) 1024)).2
  let h := ((mmMalloc h 16).getD (none, h)).2
  let h := ((mmMalloc h 24).getD (none, h)).2
  mmFree h (h.heapListp + 8)

/-- The block list of `splitHeap`, with the allocated block singled out. -/
def splitFocus : Focus 8 16 :=
  ⟨[⟨24, false, by decide, by decide⟩], ⟨32, true, by decide, by decide⟩,
    [⟨4040, false, by decide, by decide⟩]⟩

/-- Freeing the allocated block of `splitHeap` joins all three blocks. -/
theorem mmFree_exact_split : splitHeap.Layout splitFocus.list ∧
    splitFocus.release.list = [⟨4096, false, by decide, by decide⟩] ∧
    (mmFree splitHeap (splitHeap.heapListp + 8 + splitFocus.offset)).Layout
      splitFocus.release.list := by
  have h : splitHeap.Layout splitFocus.list := by decide +kernel
  exact ⟨h, by decide, (mmFree_exact splitHeap splitFocus h).1⟩

end MallocBench
