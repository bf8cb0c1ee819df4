import MallocBench.Allocator.Grow

/-! # Searching and placing: `find_fit` and `place`

On a tiled memory `find_fit` is `firstFit` on the block list (`findFit_eq`), and it ends: the walk
reaches the epilogue after as many passes as there are blocks.

`place` is `carve` on the block list (`place_carve`) in all cases but one. Block sizes are multiples
of 8, so what is left over of a block is nothing, at least 16 bytes, or exactly 8. In the last case
`place` writes the tags of a block of `asize` bytes and no tags for the other 8, which then belong
to no block: `place_carve` excludes it. -/

namespace MallocBench

open ByteMemory Segments

/-! ## `find_fit` -/

/-- The loop of `find_fit` on a walk that ends below an epilogue word. -/
theorem findFitLoop_chain {m : Mem} {asize fuel bp e : Nat} {bs : List Block}
    (hc : Chain m bp bs e) (he : get m (e - 4) = 1) (hfuel : bs.length < fuel) :
    findFitLoop m asize fuel bp = some ((firstFit asize bs).map fun f => bp + f.offset) := by
  induction bs generalizing fuel bp with
  | nil =>
      -- the walk is at the epilogue, whose size is zero
      obtain ⟨n, rfl⟩ : ∃ n, fuel = n + 1 := ⟨fuel - 1, by simp at hfuel; omega⟩
      obtain rfl : bp = e := hc
      have hsize : getSize m (hdrp bp) = 0 := by rw [getSize_eq, hdrp_eq, he]
      rw [findFitLoop, if_pos hsize]
      rfl
  | cons b bs ih =>
      obtain ⟨n, rfl⟩ : ∃ n, fuel = n + 1 := ⟨fuel - 1, by simp at hfuel; omega⟩
      obtain ⟨hb, hrest⟩ := chain_cons.mp hc
      have hpos := b.least_le
      rw [findFitLoop, if_neg (by rw [hb.size]; omega), hb.alloc, hb.size, hb.next, firstFit]
      by_cases hfit : b.alloc = false ∧ asize ≤ b.size
      · rw [if_pos hfit, if_pos ⟨by rw [hfit.1]; rfl, hfit.2⟩]
        rfl
      · have hbit : ¬ (b.alloc.toNat = 0 ∧ asize ≤ b.size) := by
          rintro ⟨h0, hle⟩
          exact hfit ⟨Bool.toNat_eq_zero.mp h0, hle⟩
        rw [if_neg hfit, if_neg hbit, ih hrest (by simpa using hfuel), Option.map_map]
        congr 2
        funext f
        simp [Nat.add_assoc]

/-- A block list has at most one block for every 16 bytes it spans. -/
theorem length_le_total (bs : List Block) : 16 * bs.length ≤ total bs := by
  induction bs with
  | nil => simp
  | cons b bs ih =>
      have := b.least_le
      rw [List.length_cons, total_cons]
      omega

/-- **`find_fit` computes `firstFit`**, and its loop ends. -/
theorem findFit_eq {h : Heap} {bs : List Block} (hl : h.Layout bs) (asize : Nat) :
    findFit h.mem h.heapListp asize
      = some ((firstFit asize bs).map fun f => h.heapListp + 8 + f.offset) := by
  have hlen := length_le_total bs
  have htot := hl.total_lt
  rw [findFit, hl.tiled.first]
  exact findFitLoop_chain hl.tiled.walk hl.tiled.epi (by omega)

/-! ## `place` -/

/-- The tag writes of `place` on the block it is given, and the address of what is left over. -/
theorem place_eq {m : Mem} {bp : Nat} {b a : Block} (hb : BlockAt m bp b) (hbp : 4 ≤ bp)
    (hle : a.size ≤ b.size) (hlt : b.size < 2 ^ 32) :
    place m bp a.size =
      if b.size - a.size < 16 then stamp m bp a.used
      else
        let m := stamp m bp a.used
        let m := put m (bp + a.size - 4) (pack (b.size - a.size) 0)
        put m (bp + a.size + getSize m (bp + a.size - 4) - 8) (pack (b.size - a.size) 0) := by
  -- the difference of the sizes does not wrap
  have hrest : (b.size + 2 ^ 64 - a.size) % 2 ^ 64 = b.size - a.size := by
    rw [show b.size + 2 ^ 64 - a.size = b.size - a.size + 2 ^ 64 by omega, Nat.add_mod_right,
      Nat.mod_eq_of_lt (by omega)]
  have hread := getSize_put_pack m (bp - 4) a.unit_dvd (show a.size < 2 ^ 32 by omega)
    (show 1 < 8 by decide)
  have hsize : getSize m (bp - 4) = b.size := hb.size
  have hstamp : put (put m (bp - 4) (pack a.size 1)) (bp + a.size - 8) (pack a.size 1)
      = stamp m bp a.used := rfl
  have hnext : nextBlkp (stamp m bp a.used) bp = bp + a.size :=
    (blockAt_stamp m (b := a.used) hbp (by rw [Segment.used_size]; omega)).next
  have hpos := a.least_le
  have hkeep : ∀ v, getSize (put (stamp m bp a.used) (bp + a.size - 4) v) (bp - 4) = a.size := by
    intro v
    rw [getSize_put_of_disjoint _ _ (by omega)]
    exact (blockAt_stamp m (b := a.used) hbp (by rw [Segment.used_size]; omega)).size
  simp only [place, ftrp_eq, hdrp_eq, hsize, hrest, hread, hstamp, hnext]
  simp only [nextBlkp_eq, hkeep]
  rfl

/-- **`place` on any free block** leaves the tags of the new block and writes only inside the block
it is given. -/
theorem place_block {m : Mem} {bp : Nat} {a b : Block} (hb : BlockAt m bp b) (hbp : 4 ≤ bp)
    (hle : a.size ≤ b.size) (hlt : b.size < 2 ^ 32) :
    BlockAt (place m bp a.size) bp a.used ∧
      ∀ x, x < bp - 4 ∨ bp + b.size - 4 ≤ x → place m bp a.size x = m x := by
  have ha := a.least_le
  have hstamp : BlockAt (stamp m bp a.used) bp a.used :=
    blockAt_stamp m hbp (by rw [Segment.used_size]; omega)
  have hframe : ∀ x, x < bp - 4 ∨ bp + b.size - 4 ≤ x → stamp m bp a.used x = m x :=
    fun x hx => stamp_apply_of_notMem m hbp (by rw [Segment.used_size]; omega)
  rw [place_eq hb hbp hle hlt]
  by_cases hcut : b.size - a.size < 16
  · rw [if_pos hcut]
    exact ⟨hstamp, hframe⟩
  · rw [if_neg hcut]
    -- the tags of the rest are written above the new block
    have hdvd : 8 ∣ b.size - a.size := Nat.dvd_sub b.unit_dvd a.unit_dvd
    have hread := getSize_put_pack (stamp m bp a.used) (bp + a.size - 4) hdvd
      (show b.size - a.size < 2 ^ 32 by omega) (show 0 < 8 by decide)
    simp only [hread]
    have hrest : ∀ x, x < bp + a.size - 4 ∨ bp + b.size - 4 ≤ x →
        put (put (stamp m bp a.used) (bp + a.size - 4) (pack (b.size - a.size) 0))
          (bp + a.size + (b.size - a.size) - 8) (pack (b.size - a.size) 0) x
          = stamp m bp a.used x := by
      intro x hx
      rw [put_apply_of_notMem _ _ (by omega), put_apply_of_notMem _ _ (by omega)]
    refine ⟨hstamp.congr hbp (fun x _ hx => hrest x (by omega)) fun x _ hx => hrest x ?_,
      fun x hx => (hrest x (by omega)).trans (hframe x hx)⟩
    rw [Segment.used_size] at hx
    omega

/-- **`place` computes `carve`**, the leftover of exactly 8 bytes excepted. -/
theorem place_carve {m : Mem} {listp brk : Nat} {f : Focus 8 16} {a : Block}
    (h : Tiled m listp brk f.list) (hlt : f.mid.size < 2 ^ 32) (hle : a.size ≤ f.mid.size)
    (hne : f.mid.size ≠ a.size + 8) :
    Tiled (place m (listp + 8 + f.offset) a.size) listp brk (f.carve a).list := by
  have hl := h.listp_ge
  have hold : Tiled m listp brk (f.pre ++ ([f.mid] ++ f.post)) := h
  have ha := a.least_le
  rw [place_eq h.mid_blockAt (by omega) hle hlt, Focus.carve]
  by_cases hcut : a.size + 16 ≤ f.mid.size
  · rw [if_neg (by omega), dif_pos hcut]
    let r : Block := ⟨f.mid.size - a.size, false, by omega, Nat.dvd_sub f.mid.unit_dvd a.unit_dvd⟩
    have hread := getSize_put_pack (stamp m (listp + 8 + f.offset) a.used)
      (listp + 8 + f.offset + a.size - 4) r.unit_dvd (show f.mid.size - a.size < 2 ^ 32 by omega)
      (show 0 < 8 by decide)
    -- the two stamped blocks fill the block that was found
    have htot : total [a.used, r] = total [f.mid] := by
      show a.size + (f.mid.size - a.size + 0) = f.mid.size + 0
      omega
    have htags := hold.stampAll htot (by rw [htot]; simpa using hlt)
    have hmem : stampAll m (listp + 8 + total f.pre) [a.used, r]
        = put (put (stamp m (listp + 8 + f.offset) a.used) (listp + 8 + f.offset + a.size - 4)
            (pack r.size 0)) (listp + 8 + f.offset + a.size + r.size - 8) (pack r.size 0) := rfl
    rw [hmem] at htags
    show Tiled (put _ (listp + 8 + f.offset + a.size + getSize _ _ - 8) _) _ _ _
    rw [hread]
    exact htags
  · -- less than 16 bytes are left and not 8, so nothing is left
    have heq : a.size = f.mid.size := by
      have := a.unit_dvd
      have := f.mid.unit_dvd
      omega
    have hused : a.used = f.mid.used := Segment.ext heq rfl
    rw [if_pos (by omega), dif_neg hcut, hused]
    exact hold.stamp (by simp) hlt

/-- **`place` leaves a tagged memory** in all cases. When 8 bytes are left over, the last word of the
block is still the old footer, which holds the size of the whole. -/
theorem place_tagged {m : Mem} {listp brk : Nat} {f : Focus 8 16} {a : Block}
    (h : Tiled m listp brk f.list) (hlt : f.mid.size < 2 ^ 32) (hle : a.size ≤ f.mid.size) :
    Tagged (place m (listp + 8 + f.offset) a.size) listp brk (f.carve a).list := by
  by_cases hne : f.mid.size = a.size + 8
  · have hl := h.listp_ge
    have ha := a.least_le
    obtain ⟨hblock, hframe⟩ := place_block h.mid_blockAt (by omega) hle hlt
    have hcarve : f.carve a = ⟨f.pre, f.mid.used, f.post⟩ := by
      rw [Focus.carve, dif_neg (by omega)]
    rw [hcarve]
    refine h.tagged.replace rfl hframe (fun hfree => ?_) hblock.alloc ?_
    · simp at hfree
    · -- the tags of the new block end below the old footer
      have hlast := h.mid_blockAt.lastSize
      rw [place_eq h.mid_blockAt (by omega) hle hlt, if_pos (by omega), Segment.used_size]
      rw [getSize, get_congr fun x hx _ => stamp_apply_of_notMem m (by omega) (by
        rw [Segment.used_size]
        omega), ← getSize]
      exact hlast
  · exact (place_carve h hlt hle hne).tagged

end MallocBench
