import MallocBench.Allocator.Mm
import MallocBench.Memory.SegmentEdits

/-! # Well-formed heaps

A heap is well formed when walking it with `NEXT_BLKP` from the prologue visits a list of blocks
that ends exactly at the break (`Chain`), the prologue and the epilogue have their fixed words
(`Tiled`), and no two adjacent blocks are both free (`Heap.Layout`). The block list is the abstract
state of the allocator: `Heap.Layout h bs` says that the words in memory spell `bs`.

Writing the two tags of a block is `stamp`. `Tiled.stampAll` is the one fact the allocator's writes
rest on: tags stamped over a stretch of blocks replace that stretch by the stamped ones and touch
no byte outside it. -/

namespace MallocBench

open ByteMemory Segments

/-- A block: header, payload and footer together take a multiple of 8 bytes, at least 16. -/
abbrev Block := Segment 8 16

/-! ## Words -/

/-- Masking the low three bits off a word rounds it down to a multiple of 8. -/
theorem land_sizeMask {w : Nat} (h : w < 2 ^ 32) : w &&& 0xFFFFFFF8 = w / 8 * 8 := by
  have hmask : (0xFFFFFFF8 : Nat) = (2 ^ 29 - 1) <<< 3 := by decide
  have hround : w / 8 * 8 = (w >>> 3) <<< 3 := by
    rw [Nat.shiftRight_eq_div_pow, Nat.shiftLeft_eq]
  have hlt : w >>> 3 < 2 ^ 29 := by
    rw [Nat.shiftRight_eq_div_pow]
    omega
  have hland : w &&& (2 ^ 29 - 1) <<< 3 = ((w >>> 3) &&& (2 ^ 29 - 1)) <<< 3 := by
    apply Nat.eq_of_testBit_eq
    intro i
    simp only [Nat.testBit_and, Nat.testBit_shiftLeft, Nat.testBit_shiftRight]
    by_cases hi : 3 ≤ i
    · simp [hi, Nat.add_sub_cancel' hi]
    · simp [hi]
  rw [hround, hmask, hland, Nat.and_two_pow_sub_one_eq_mod, Nat.mod_eq_of_lt hlt]

/-- `PACK` of a size and an allocated bit is their sum: the bit lies below the size. -/
theorem pack_eq_add {size alloc : Nat} (hs : 8 ∣ size) (ha : alloc < 8) :
    pack size alloc = size + alloc := by
  obtain ⟨k, rfl⟩ := hs
  rw [pack, show 8 * k = 2 ^ 3 * k by rfl, Nat.two_pow_add_eq_or_of_lt (by simpa using ha)]

/-- The header is in the word before the payload. -/
theorem hdrp_eq (bp : Nat) : hdrp bp = bp - 4 := rfl

/-- The footer is in the last word of the block. -/
theorem ftrp_eq (m : Mem) (bp : Nat) : ftrp m bp = bp + getSize m (bp - 4) - 8 := rfl

/-- The next payload is as far away as the block is long. -/
theorem nextBlkp_eq (m : Mem) (bp : Nat) : nextBlkp m bp = bp + getSize m (bp - 4) := rfl

/-- So is the previous one, by the footer before the header. -/
theorem prevBlkp_eq (m : Mem) (bp : Nat) : prevBlkp m bp = bp - getSize m (bp - 8) := rfl

/-- A word has 32 bits. -/
theorem get_lt (m : Mem) (p : Nat) : get m p < 2 ^ 32 := loadLE_lt m p 4

/-- The size is the word without its last three bits. -/
theorem getSize_eq (m : Mem) (p : Nat) : getSize m p = get m p / 8 * 8 := land_sizeMask (get_lt m p)

/-- The allocation bit is the last one. -/
theorem getAlloc_eq (m : Mem) (p : Nat) : getAlloc m p = get m p % 2 := Nat.and_one_is_mod _

/-- A word depends only on its four bytes. -/
theorem get_congr {m m' : Mem} {p : Nat} (h : ∀ x, p ≤ x → x < p + 4 → m' x = m x) :
    get m' p = get m p := loadLE_congr h

/-- A word that has been written is read back. -/
theorem get_put_same (m : Mem) (p v : Nat) : get (put m p v) p = v % 2 ^ 32 :=
  loadLE_storeLE_same m p v 4

/-- Other words are left. -/
theorem get_put_of_disjoint (m : Mem) (v : Nat) {p q : Nat} (h : p + 4 ≤ q ∨ q + 4 ≤ p) :
    get (put m p v) q = get m q := loadLE_storeLE_of_disjoint m p v 4 q 4 h

/-- **Frame of `PUT`**: it writes the four bytes at its address and no others. -/
theorem put_apply_of_notMem (m : Mem) (v : Nat) {p x : Nat} (h : x < p ∨ p + 4 ≤ x) :
    put m p v x = m x := storeLE_apply_of_notMem m p v 4 x h

/-! ## Blocks and walks -/

/-- The memory holds block `b` at payload pointer `bp`: the header spells its size and allocated
bit, and the footer repeats the header. -/
structure BlockAt (m : Mem) (bp : Nat) (b : Block) : Prop where
  size : getSize m (hdrp bp) = b.size
  alloc : getAlloc m (hdrp bp) = b.alloc.toNat
  footer : get m (ftrp m bp) = get m (hdrp bp)

/-- Walking the list with `NEXT_BLKP` from `bp` visits the blocks `bs` and arrives at `e`. -/
def Chain (m : Mem) : Nat → List Block → Nat → Prop
  | bp, [], e => bp = e
  | bp, b :: bs, e => BlockAt m bp b ∧ Chain m (nextBlkp m bp) bs e

instance (m : Mem) (bp : Nat) (b : Block) : Decidable (BlockAt m bp b) :=
  decidable_of_iff (getSize m (hdrp bp) = b.size ∧ getAlloc m (hdrp bp) = b.alloc.toNat ∧
      get m (ftrp m bp) = get m (hdrp bp))
    ⟨fun ⟨hs, ha, hf⟩ => ⟨hs, ha, hf⟩, fun ⟨hs, ha, hf⟩ => ⟨hs, ha, hf⟩⟩

instance decidableChain (m : Mem) : (bp : Nat) → (bs : List Block) → (e : Nat) →
    Decidable (Chain m bp bs e)
  | bp, [], e => inferInstanceAs (Decidable (bp = e))
  | bp, b :: bs, e =>
    have := decidableChain m (nextBlkp m bp) bs e
    inferInstanceAs (Decidable (BlockAt m bp b ∧ Chain m (nextBlkp m bp) bs e))

/-- The next block starts behind the block. -/
theorem BlockAt.next {m : Mem} {bp : Nat} {b : Block} (h : BlockAt m bp b) :
    nextBlkp m bp = bp + b.size := by
  rw [nextBlkp, h.size]

/-- The footer word, at its address. -/
theorem BlockAt.footer_eq {m : Mem} {bp : Nat} {b : Block} (h : BlockAt m bp b) :
    get m (bp + b.size - 8) = get m (bp - 4) := by
  have := h.footer
  rwa [ftrp, h.size] at this

/-- The header word of an allocated or free block is its size plus at most 7. -/
theorem BlockAt.header_bounds {m : Mem} {bp : Nat} {b : Block} (h : BlockAt m bp b) :
    b.size ≤ get m (bp - 4) ∧ get m (bp - 4) < b.size + 8 := by
  have := h.size
  rw [hdrp_eq, getSize_eq] at this
  omega

/-- A block depends only on its own bytes. -/
theorem BlockAt.congr {m m' : Mem} {bp : Nat} {b : Block} (h : BlockAt m bp b) (hbp : 4 ≤ bp)
    (hm : ∀ x, bp - 4 ≤ x → x < bp → m' x = m x)
    (hm' : ∀ x, bp + b.size - 8 ≤ x → x < bp + b.size - 4 → m' x = m x) : BlockAt m' bp b := by
  have hb := b.least_le
  have hhdr : get m' (bp - 4) = get m (bp - 4) :=
    get_congr fun x hx hx' => hm x hx (by omega)
  have hftr : get m' (bp + b.size - 8) = get m (bp + b.size - 8) :=
    get_congr fun x hx hx' => hm' x hx (by omega)
  have hsize : getSize m' (hdrp bp) = b.size := by
    rw [← h.size, getSize, getSize, hdrp_eq, hhdr]
  refine ⟨hsize, ?_, ?_⟩
  · rw [← h.alloc, getAlloc, getAlloc, hdrp_eq, hhdr]
  · rw [ftrp, hsize, hdrp_eq, hhdr, ← h.footer_eq]
    exact hftr

/-- The walk of one more block, with the next block's address written out. -/
theorem chain_cons {m : Mem} {bp e : Nat} {b : Block} {bs : List Block} :
    Chain m bp (b :: bs) e ↔ BlockAt m bp b ∧ Chain m (bp + b.size) bs e := by
  constructor
  · rintro ⟨hb, hc⟩
    exact ⟨hb, hb.next ▸ hc⟩
  · rintro ⟨hb, hc⟩
    exact ⟨hb, hb.next.symm ▸ hc⟩

/-- A walk covers the addresses up to its end. -/
theorem Chain.end_eq {m : Mem} {bp e : Nat} {bs : List Block} (h : Chain m bp bs e) :
    e = bp + total bs := by
  induction bs generalizing bp with
  | nil => exact h.symm
  | cons b bs ih =>
      rw [ih (chain_cons.mp h).2, total_cons, Nat.add_assoc]

/-- A walk of a concatenation is two walks. -/
theorem chain_append {m : Mem} {bp e : Nat} {bs cs : List Block} :
    Chain m bp (bs ++ cs) e ↔ Chain m bp bs (bp + total bs) ∧ Chain m (bp + total bs) cs e := by
  induction bs generalizing bp with
  | nil => simp [Chain]
  | cons b bs ih =>
      rw [List.cons_append, chain_cons, ih, chain_cons, total_cons, Nat.add_assoc]
      tauto

/-- A walk depends only on the bytes between its ends, each block's four header bytes lying below
its payload pointer. -/
theorem Chain.congr {m m' : Mem} {bp e : Nat} {bs : List Block} (h : Chain m bp bs e)
    (hbp : 4 ≤ bp) (hm : ∀ x, bp - 4 ≤ x → x < e - 4 → m' x = m x) : Chain m' bp bs e := by
  induction bs generalizing bp with
  | nil => exact h
  | cons b bs ih =>
      obtain ⟨hb, hc⟩ := chain_cons.mp h
      have he := hc.end_eq
      have hsize := b.least_le
      refine chain_cons.mpr ⟨hb.congr hbp ?_ ?_, ih hc (by omega) ?_⟩
      · exact fun x hx hx' => hm x hx (by omega)
      · exact fun x hx hx' => hm x (by omega) (by omega)
      · exact fun x hx hx' => hm x (by omega) hx'

/-- Every located block of a walk is in memory at its address. -/
theorem Chain.blockAt {m : Mem} {bp e p : Nat} {b : Block} {bs : List Block}
    (h : Chain m bp bs e) (hmem : (p, b) ∈ located bp bs) : BlockAt m p b := by
  induction bs generalizing bp with
  | nil => simp at hmem
  | cons c cs ih =>
      obtain ⟨hc, hcs⟩ := chain_cons.mp h
      rcases mem_located_cons.mp hmem with ⟨rfl, rfl⟩ | hmem
      · exact hc
      · exact ih hcs hmem

/-! ## Whole heaps -/

/-- The memory spells the blocks `bs` between the prologue at `listp` and the break at `brk`. -/
structure Tiled (m : Mem) (listp brk : Nat) (bs : List Block) : Prop where
  listp_ge : 8 ≤ listp
  prologueHdr : get m (hdrp listp) = pack dsize 1
  prologueFtr : get m (ftrp m listp) = pack dsize 1
  chain : Chain m (nextBlkp m listp) bs brk
  epilogue : get m (hdrp brk) = pack 0 1

/-- The heap `h` is well formed with block list `bs`: the list starts at the prologue 8 bytes above
the start of the heap, the words spell `bs` up to the break, and no two adjacent blocks of it are
both free. -/
structure Heap.Layout (h : Heap) (bs : List Block) : Prop where
  listp : h.heapListp = h.memStartBrk + dsize
  tiled : Tiled h.mem h.heapListp h.memBrk bs
  coalesced : Coalesced bs

/-- **The heap invariant**: the words of the heap spell some coalesced block list. -/
def Heap.WellFormed (h : Heap) : Prop := ∃ bs, h.Layout bs

instance (m : Mem) (listp brk : Nat) (bs : List Block) : Decidable (Tiled m listp brk bs) :=
  decidable_of_iff (8 ≤ listp ∧ get m (hdrp listp) = pack dsize 1 ∧
      get m (ftrp m listp) = pack dsize 1 ∧ Chain m (nextBlkp m listp) bs brk ∧
      get m (hdrp brk) = pack 0 1)
    ⟨fun ⟨hl, hh, hf, hc, he⟩ => ⟨hl, hh, hf, hc, he⟩, fun ⟨hl, hh, hf, hc, he⟩ => ⟨hl, hh, hf, hc, he⟩⟩

instance (h : Heap) (bs : List Block) : Decidable (h.Layout bs) :=
  decidable_of_iff (h.heapListp = h.memStartBrk + dsize ∧ Tiled h.mem h.heapListp h.memBrk bs ∧
      Coalesced bs)
    ⟨fun ⟨hl, ht, hc⟩ => ⟨hl, ht, hc⟩, fun ⟨hl, ht, hc⟩ => ⟨hl, ht, hc⟩⟩

/-- Bytes that spell another coalesced list leave a heap well formed. -/
theorem Heap.Layout.setMem {h : Heap} {m : Mem} {bs cs : List Block} (hl : h.Layout bs)
    (ht : Tiled m h.heapListp h.memBrk cs) (hc : Coalesced cs) : (h.setMem m).Layout cs :=
  ⟨hl.listp, ht, hc⟩

namespace Tiled

variable {m m' : Mem} {listp brk : Nat} {bs : List Block}

/-- The header of the prologue. -/
theorem hdr (h : Tiled m listp brk bs) : get m (listp - 4) = 9 := h.prologueHdr

/-- The prologue is 8 bytes long. -/
theorem getSize_prologue (h : Tiled m listp brk bs) : getSize m (listp - 4) = 8 := by
  rw [getSize, h.hdr]
  rfl

/-- The footer of the prologue. -/
theorem ftr (h : Tiled m listp brk bs) : get m listp = 9 := by
  have := h.prologueFtr
  rwa [ftrp_eq, h.getSize_prologue, Nat.add_sub_cancel] at this

/-- The header of the epilogue. -/
theorem epi (h : Tiled m listp brk bs) : get m (brk - 4) = 1 := h.epilogue

/-- The first block starts behind the prologue. -/
theorem first (h : Tiled m listp brk bs) : nextBlkp m listp = listp + 8 := by
  rw [nextBlkp_eq, h.getSize_prologue]

/-- The walk, with its start written out. -/
theorem walk (h : Tiled m listp brk bs) : Chain m (listp + 8) bs brk := h.first ▸ h.chain

/-- **The blocks tile the heap**: between the prologue and the epilogue there is nothing else. -/
theorem brk_eq (h : Tiled m listp brk bs) : brk = listp + 8 + total bs := h.walk.end_eq

/-- The four words of a tiled memory that belong to no block, and the walk, are enough. -/
theorem mk' (hl : 8 ≤ listp) (hh : get m (listp - 4) = 9) (hf : get m listp = 9)
    (hc : Chain m (listp + 8) bs brk) (he : get m (brk - 4) = 1) : Tiled m listp brk bs := by
  have hsize : getSize m (listp - 4) = 8 := by
    rw [getSize, hh]
    rfl
  refine ⟨hl, hh, ?_, ?_, he⟩
  · rw [ftrp_eq, hsize, Nat.add_sub_cancel]
    exact hf
  · rwa [nextBlkp_eq, hsize]

/-- A tiled memory may change in the payloads: only tag bytes are looked at. The condition is given
for the whole block `b` at `p`; its payload bytes are exempt. -/
theorem congr_payload (h : Tiled m listp brk bs) {p : Nat} {b : Block}
    (hb : (p, b) ∈ located (listp + 8) bs)
    (hm : ∀ x, x < p ∨ p + b.size - 8 ≤ x → m' x = m x) : Tiled m' listp brk bs := by
  obtain ⟨f, rfl, rfl, rfl⟩ := Focus.exists_of_mem_located hb
  have hl := h.listp_ge
  have hsize := f.mid.least_le
  have hbrk := h.brk_eq
  rw [f.total_list] at hbrk
  -- the walk below, the block itself and the walk above read no payload byte
  obtain ⟨hpre, hrest⟩ := chain_append.mp h.walk
  obtain ⟨hmid, hpost⟩ := chain_cons.mp hrest
  change Chain m (listp + 8) f.pre (listp + 8 + f.offset) at hpre
  change BlockAt m (listp + 8 + f.offset) f.mid at hmid
  change Chain m (listp + 8 + f.offset + f.mid.size) f.post brk at hpost
  refine mk' hl ?_ ?_ ?_ ?_
  · rw [← h.hdr]
    exact get_congr fun x _ hx => hm x (by omega)
  · rw [← h.ftr]
    exact get_congr fun x _ hx => hm x (by omega)
  · refine chain_append.mpr ⟨?_, chain_cons.mpr ⟨?_, ?_⟩⟩
    · exact hpre.congr (by omega) fun x _ hx => hm x (by simp only [Focus.offset] at *; omega)
    · exact hmid.congr (by omega) (fun x _ hx => hm x (by omega)) fun x hx _ => hm x (by omega)
    · exact hpost.congr (by omega) fun x hx _ => hm x (by omega)
  · rw [← h.epi]
    exact get_congr fun x hx _ => hm x (by omega)

end Tiled

/-! ## Stamping tags -/

/-- Write the header and the footer of block `b` at `bp`. -/
def stamp (m : Mem) (bp : Nat) (b : Block) : Mem :=
  put (put m (bp - 4) (pack b.size b.alloc.toNat)) (bp + b.size - 8) (pack b.size b.alloc.toNat)

/-- Write the tags of adjacent blocks, the first one at `bp`. -/
def stampAll (m : Mem) : Nat → List Block → Mem
  | _, [] => m
  | bp, b :: bs => stampAll (stamp m bp b) (bp + b.size) bs

/-- The word a block's tags hold. -/
theorem pack_block (b : Block) : pack b.size b.alloc.toNat = b.size + b.alloc.toNat :=
  pack_eq_add b.unit_dvd (by cases b.alloc <;> decide)

/-- A stamped block is in memory. -/
theorem blockAt_stamp (m : Mem) {bp : Nat} {b : Block} (hbp : 4 ≤ bp) (hb : b.size < 2 ^ 32) :
    BlockAt (stamp m bp b) bp b := by
  have hle := b.least_le
  obtain ⟨k, hk⟩ := b.unit_dvd
  have hbit : b.alloc.toNat ≤ 1 := Bool.toNat_le b.alloc
  have hw : (b.size + b.alloc.toNat) % 2 ^ 32 = b.size + b.alloc.toNat :=
    Nat.mod_eq_of_lt (by omega)
  have hhdr : get (stamp m bp b) (bp - 4) = b.size + b.alloc.toNat := by
    rw [stamp, get_put_of_disjoint _ _ (by omega), get_put_same, pack_block, hw]
  have hsize : getSize (stamp m bp b) (bp - 4) = b.size := by
    rw [getSize_eq, hhdr]
    omega
  refine ⟨hsize, ?_, ?_⟩
  · rw [getAlloc_eq, hdrp_eq, hhdr]
    omega
  · rw [ftrp_eq, hsize, hdrp_eq, hhdr, stamp, get_put_same, pack_block, hw]

/-- Stamping a block writes inside the block. -/
theorem stamp_apply_of_notMem (m : Mem) {bp x : Nat} {b : Block} (hbp : 4 ≤ bp)
    (h : x < bp - 4 ∨ bp + b.size - 4 ≤ x) : stamp m bp b x = m x := by
  have hle := b.least_le
  rw [stamp, put_apply_of_notMem _ _ (by omega), put_apply_of_notMem _ _ (by omega)]

/-- Stamping a block changes no byte of its payload. -/
theorem stamp_apply_payload (m : Mem) {bp x : Nat} {b : Block} (hbp : 4 ≤ bp) (hx : bp ≤ x)
    (hx' : x < bp + b.size - 8) : stamp m bp b x = m x := by
  rw [stamp, put_apply_of_notMem _ _ (by omega), put_apply_of_notMem _ _ (by omega)]

/-- Stamping adjacent blocks writes inside them. -/
theorem stampAll_apply_of_notMem (m : Mem) (bp : Nat) (bs : List Block) {x : Nat} (hbp : 4 ≤ bp)
    (h : x < bp - 4 ∨ bp + total bs - 4 ≤ x) : stampAll m bp bs x = m x := by
  induction bs generalizing m bp with
  | nil => rfl
  | cons b bs ih =>
      rw [total_cons] at h
      rw [stampAll, ih _ _ (by omega) (by omega), stamp_apply_of_notMem _ hbp (by omega)]

/-- Stamped adjacent blocks are walked over. -/
theorem chain_stampAll (m : Mem) (bp : Nat) (bs : List Block) (hbp : 4 ≤ bp)
    (hbs : total bs < 2 ^ 32) : Chain (stampAll m bp bs) bp bs (bp + total bs) := by
  induction bs generalizing m bp with
  | nil => rfl
  | cons b bs ih =>
      rw [total_cons] at hbs
      have hle := b.least_le
      -- the later stamps are above the first block
      have hrest := ih (stamp m bp b) (bp + b.size) (by omega) (by omega)
      have hframe : ∀ x, x < bp + b.size - 4 →
          stampAll (stamp m bp b) (bp + b.size) bs x = stamp m bp b x :=
        fun x hx => stampAll_apply_of_notMem _ _ _ (by omega) (Or.inl hx)
      refine chain_cons.mpr ⟨?_, by rwa [total_cons, ← Nat.add_assoc]⟩
      refine (blockAt_stamp m hbp (by omega)).congr hbp ?_ ?_
      · exact fun x _ hx => hframe x (by omega)
      · exact fun x _ hx => hframe x hx

/-- **Stamping replaces a stretch of blocks**: over a tiled memory, the tags of `cs` written over a
stretch `xs` of the same total size turn `pre ++ xs ++ post` into `pre ++ cs ++ post`. -/
theorem Tiled.stampAll {m : Mem} {listp brk : Nat} {pre xs cs post : List Block}
    (h : Tiled m listp brk (pre ++ (xs ++ post))) (hcs : total cs = total xs)
    (hlt : total cs < 2 ^ 32) :
    Tiled (stampAll m (listp + 8 + total pre) cs) listp brk (pre ++ (cs ++ post)) := by
  have hl := h.listp_ge
  have hbrk := h.brk_eq
  rw [total_append, total_append] at hbrk
  obtain ⟨hpre, hrest⟩ := chain_append.mp h.walk
  obtain ⟨-, hpost⟩ := chain_append.mp hrest
  have hframe : ∀ x, x < listp + 8 + total pre - 4 ∨ listp + 8 + total pre + total cs - 4 ≤ x →
      MallocBench.stampAll m (listp + 8 + total pre) cs x = m x :=
    fun x hx => stampAll_apply_of_notMem m _ cs (by omega) hx
  refine Tiled.mk' hl ?_ ?_ (chain_append.mpr ⟨?_, chain_append.mpr ⟨?_, ?_⟩⟩) ?_
  · rw [← h.hdr]
    exact get_congr fun x _ hx => hframe x (by omega)
  · rw [← h.ftr]
    exact get_congr fun x _ hx => hframe x (by omega)
  · exact hpre.congr (by omega) fun x _ hx => hframe x (by omega)
  · exact chain_stampAll m _ cs (by omega) hlt
  · rw [hcs]
    exact hpost.congr (by omega) fun x hx _ => hframe x (by omega)
  · rw [← h.epi]
    exact get_congr fun x hx _ => hframe x (by omega)

/-- Stamping one block over a stretch of the same total size. -/
theorem Tiled.stamp {m : Mem} {listp brk : Nat} {pre xs post : List Block} {b : Block}
    (h : Tiled m listp brk (pre ++ (xs ++ post))) (hb : b.size = total xs)
    (hlt : b.size < 2 ^ 32) :
    Tiled (stamp m (listp + 8 + total pre) b) listp brk (pre ++ b :: post) := by
  have hall : Tiled (MallocBench.stampAll m (listp + 8 + total pre) [b]) listp brk
      (pre ++ ([b] ++ post)) := h.stampAll (by simpa using hb) (by simpa using hlt)
  exact hall

end MallocBench
