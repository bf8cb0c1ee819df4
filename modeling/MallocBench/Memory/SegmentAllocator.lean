import MallocBench.Memory.SegmentEdits

/-! # First-fit allocation over a segment list

The abstract allocator: a region of at most `room` addresses is a list of segments, and a request
is served by carving it off the first free segment that is long enough, or else off a segment
appended at the end of the region (`allocate`). The answer is the new list with the new segment
singled out. `focusAt` finds a segment by its distance from the start of the region.

The results are what a client relies on: the new segment is long enough, lies where nothing was in
use (`allocate_fresh`), and every segment in use stays where it is (`allocate_keeps`). -/

namespace MallocBench.Segments

variable {unit least : Nat}

/-! ## Finding a segment by its offset -/

/-- The segment that starts `off` above the start of the region. -/
def focusAt : Nat → List (Segment unit least) → Option (Focus unit least)
  | _, [] => none
  | off, b :: bs =>
      if off = 0 then some ⟨[], b, bs⟩
      else if off < b.size then none else (focusAt (off - b.size) bs).map (Focus.push b)

/-- A segment is found at its own offset, when no segment is empty. -/
theorem focusAt_offset (hl : 0 < least) (f : Focus unit least) :
    focusAt f.offset f.list = some f := by
  obtain ⟨pre, mid, post⟩ := f
  induction pre with
  | nil => simp [Focus.list, Focus.offset, focusAt]
  | cons b pre ih =>
      have hb := b.least_le
      have hoff : (Focus.mk (b :: pre) mid post).offset
          = b.size + (Focus.mk pre mid post).offset := rfl
      have hlist : (Focus.mk (b :: pre) mid post).list = b :: (Focus.mk pre mid post).list := rfl
      rw [hoff, hlist, focusAt, if_neg (by omega), if_neg (by omega), Nat.add_sub_cancel_left, ih]
      rfl

/-- What is found is in the list, at the offset. -/
theorem focusAt_some {off : Nat} {bs : List (Segment unit least)} {f : Focus unit least}
    (h : focusAt off bs = some f) : f.list = bs ∧ f.offset = off := by
  induction bs generalizing off f with
  | nil => simp [focusAt] at h
  | cons b bs ih =>
      rw [focusAt] at h
      split at h
      · next hoff =>
        obtain rfl := Option.some.inj h
        exact ⟨rfl, hoff.symm⟩
      · split at h
        · simp at h
        · obtain ⟨g, hg, rfl⟩ := Option.map_eq_some_iff.mp h
          obtain ⟨hlist, hoff⟩ := ih hg
          exact ⟨by rw [Focus.push_list, hlist], by rw [Focus.push_offset, hoff]; omega⟩

/-- A located segment is found at its offset. -/
theorem focusAt_of_mem (hl : 0 < least) {a p : Nat} {c : Segment unit least}
    {bs : List (Segment unit least)} (h : (p, c) ∈ located a bs) :
    ∃ f, focusAt (p - a) bs = some f ∧ f.list = bs ∧ a + f.offset = p ∧ f.mid = c := by
  obtain ⟨f, rfl, rfl, rfl⟩ := Focus.exists_of_mem_located h
  exact ⟨f, by rw [Nat.add_sub_cancel_left, focusAt_offset hl], rfl, rfl, rfl⟩

/-! ## Growing the region -/

/-- The list of a region after a segment `b` is appended at its end, with `b` singled out and joined
with the last old segment when that is free. -/
def grown (bs : List (Segment unit least)) (b : Segment unit least) : Focus unit least :=
  Focus.absorb ⟨bs, b, []⟩

/-- The region is longer by the segment that is appended. -/
theorem total_grown (bs : List (Segment unit least)) (b : Segment unit least) :
    total (grown bs b).list = total bs + b.size := by
  rw [grown, Focus.total_absorb]
  simp [Focus.list]

/-- Nothing is behind the segment that is appended. -/
theorem grown_post (bs : List (Segment unit least)) (b : Segment unit least) :
    (grown bs b).post = [] := by
  rw [grown, Focus.absorb, Focus.mergeLeft_post, Focus.mergeRight_of_used]
  exact fun c hc => by simp at hc

/-- The segment at the end of a grown region reaches to its end. -/
theorem grown_end (bs : List (Segment unit least)) (b : Segment unit least) :
    (grown bs b).offset + (grown bs b).mid.size = total bs + b.size := by
  have := total_grown bs b
  rwa [Focus.total_list, grown_post, total_nil, Nat.add_zero] at this

/-- The segment at the end of a grown region is at least as long as the one appended. -/
theorem le_grown_size (bs : List (Segment unit least)) (b : Segment unit least) :
    b.size ≤ (grown bs b).mid.size := by
  have h : total bs + b.size ≤ (grown bs b).offset + (grown bs b).mid.size :=
    (Focus.absorb_covers ⟨bs, b, []⟩).2
  have h' : (grown bs b).offset ≤ total bs := (Focus.absorb_covers ⟨bs, b, []⟩).1
  omega

/-- Free segments stay apart. -/
theorem coalesced_grown {bs : List (Segment unit least)} (b : Segment unit least)
    (h : Coalesced bs) : Coalesced (grown bs b).list := Focus.coalesced_absorb h coalesced_nil

/-- A free segment stays free when it is joined. -/
theorem grown_alloc (bs : List (Segment unit least)) {b : Segment unit least}
    (h : b.alloc = false) : (grown bs b).mid.alloc = false := Focus.absorb_alloc h

/-- A used segment lies below the segment at the end of a grown region, at its old address. -/
theorem mem_located_grown {a p : Nat} {c : Segment unit least} {bs : List (Segment unit least)}
    (hl : 0 < least) (b : Segment unit least) (hc : c.alloc = true) (h : (p, c) ∈ located a bs) :
    (p, c) ∈ located a (grown bs b).pre := by
  have hin : (p, c) ∈ located a (Focus.list ⟨bs, b, []⟩) := by
    rw [Focus.located_list]
    exact List.mem_append_left _ h
  have hend := (bounds_of_mem_located h).2
  have hpos := c.least_le
  -- the appended segment starts at the end of the region, above every old one
  have hne : p ≠ a + Focus.offset (⟨bs, b, []⟩ : Focus unit least) := by
    show p ≠ a + total bs
    omega
  rcases Focus.mem_located_absorb hin hne with (hm | hm) | ⟨hfree, -⟩
  · exact hm
  · change (p, c) ∈ located _ (grown bs b).post at hm
    simp [grown_post] at hm
  · simp [hc] at hfree

/-- An appended segment stands alone, or is joined with the last old one. -/
theorem grown_cases (bs : List (Segment unit least)) (b : Segment unit least) :
    (Focus.LeftUsed ⟨bs, b, []⟩ ∧ grown bs b = ⟨bs, b, []⟩) ∨
      ∃ cs c, bs = cs ++ [c] ∧ c.alloc = false ∧ grown bs b = ⟨cs, c.merge b, []⟩ := by
  have hr : Focus.RightUsed (⟨bs, b, []⟩ : Focus unit least) := fun c hc => by simp at hc
  rw [grown, Focus.absorb, Focus.mergeRight_of_used hr]
  rcases Focus.leftUsed_or ⟨bs, b, []⟩ with hu | ⟨cs, c, hp, hc⟩
  · exact Or.inl ⟨hu, Focus.mergeLeft_of_used hu⟩
  · obtain rfl : bs = cs ++ [c] := hp
    exact Or.inr ⟨cs, c, rfl, hc, Focus.mergeLeft_of_free cs c b [] hc⟩

/-- The segments below the one at the end of a grown region are old ones at their old addresses. -/
theorem mem_located_of_grown_pre {a p : Nat} {c : Segment unit least}
    {bs : List (Segment unit least)} {b : Segment unit least}
    (h : (p, c) ∈ located a (grown bs b).pre) : (p, c) ∈ located a bs := by
  rcases grown_cases bs b with ⟨-, heq⟩ | ⟨cs, d, rfl, -, heq⟩
  · rwa [heq] at h
  · rw [heq] at h
    exact mem_located_concat.mpr (Or.inl h)

/-- Every old segment lies below the segment at the end of a grown region or starts where it does. -/
theorem mem_located_grown_or {a p : Nat} {c : Segment unit least}
    {bs : List (Segment unit least)} (b : Segment unit least) (h : (p, c) ∈ located a bs) :
    (p, c) ∈ located a (grown bs b).pre ∨ p = a + (grown bs b).offset := by
  rcases grown_cases bs b with ⟨-, heq⟩ | ⟨cs, d, rfl, -, heq⟩
  · rw [heq]
    exact Or.inl h
  · rw [heq]
    exact (mem_located_concat.mp h).imp_right And.left

/-- Whether the last old segment is joined to an appended one. -/
theorem grown_size (bs : List (Segment unit least)) (b : Segment unit least) :
    (Focus.LeftUsed ⟨bs, b, []⟩ ∧ (grown bs b).mid.size = b.size) ∨
      (¬ Focus.LeftUsed ⟨bs, b, []⟩ ∧ b.size + least ≤ (grown bs b).mid.size) := by
  rcases grown_cases bs b with ⟨hu, heq⟩ | ⟨cs, c, rfl, hc, heq⟩
  · exact Or.inl ⟨hu, by rw [heq]⟩
  · have hle := c.least_le
    refine Or.inr ⟨fun hu => ?_, ?_⟩
    · have := hu c (by simp)
      simp [hc] at this
    · rw [heq]
      show b.size + least ≤ c.size + b.size
      omega

/-! ## Allocation -/

/-- First-fit allocation of a segment like `a` in a region that may grow by `b` up to `room`
addresses: the new list with the new segment singled out. -/
def allocate (room : Nat) (b : Segment unit least) (bs : List (Segment unit least))
    (a : Segment unit least) : Option (Focus unit least) :=
  match firstFit a.size bs with
  | some f => some (f.carve a)
  | none => if total bs + b.size ≤ room then some ((grown bs b).carve a) else none

/-- Both ways to allocate carve a free segment that is long enough out of a list in which every used
segment is where it was. -/
theorem allocate_cases {room : Nat} {a b : Segment unit least} {bs : List (Segment unit least)}
    {g : Focus unit least} (h : allocate room b bs a = some g) :
    ∃ f, g = Focus.carve f a ∧
      ((firstFit a.size bs = some f ∧ f.list = bs) ∨
        (firstFit a.size bs = none ∧ total bs + b.size ≤ room ∧ f = grown bs b)) := by
  rw [allocate] at h
  cases hf : firstFit a.size bs with
  | some f =>
      rw [hf] at h
      obtain rfl := Option.some.inj h
      exact ⟨f, rfl, Or.inl ⟨rfl, (firstFit_some hf).1⟩⟩
  | none =>
      rw [hf] at h
      simp only at h
      split at h
      · next hroom =>
        obtain rfl := Option.some.inj h
        exact ⟨_, rfl, Or.inr ⟨rfl, hroom, rfl⟩⟩
      · simp at h

section Contract

variable {room : Nat} {a b : Segment unit least} {bs : List (Segment unit least)}
  {g : Focus unit least}

/-- The new segment is in use. -/
theorem allocate_used (h : allocate room b bs a = some g) : g.mid.alloc = true := by
  obtain ⟨f, rfl, -⟩ := allocate_cases h
  exact f.carve_alloc a

/-- The new segment is as long as the request. -/
theorem le_allocate_size (hab : a.size ≤ b.size)
    (h : allocate room b bs a = some g) : a.size ≤ g.mid.size := by
  obtain ⟨f, rfl, ⟨hf, -⟩ | ⟨-, -, rfl⟩⟩ := allocate_cases h
  · exact f.le_carve_size (firstFit_some hf).2.2
  · exact Focus.le_carve_size _ (le_trans hab (le_grown_size bs b))

/-- **Allocation moves nothing**: every used segment keeps its address. -/
theorem allocate_keeps (hl : 0 < least) (hb : b.alloc = false)
    (h : allocate room b bs a = some g) {base p : Nat} {c : Segment unit least}
    (hc : c.alloc = true) (hin : (p, c) ∈ located base bs) : (p, c) ∈ located base g.list := by
  obtain ⟨f, rfl, ⟨hf, rfl⟩ | ⟨-, -, rfl⟩⟩ := allocate_cases h
  · exact Focus.mem_located_carve a (firstFit_some hf).2.1 hc hin
  · refine Focus.mem_located_carve a (grown_alloc bs hb) hc ?_
    rw [Focus.located_list]
    exact List.mem_append_left _ (mem_located_grown hl b hc hin)

/-- **Allocation is fresh**: the new segment does not start where a used one did. -/
theorem allocate_fresh (hl : 0 < least) (h : allocate room b bs a = some g) {base p : Nat}
    {c : Segment unit least} (hc : c.alloc = true) (hin : (p, c) ∈ located base bs) :
    p ≠ base + g.offset := by
  obtain ⟨f, rfl, ⟨hf, rfl⟩ | ⟨-, -, rfl⟩⟩ := allocate_cases h
  · rintro rfl
    rw [Focus.carve_offset] at hin
    -- one address belongs to one segment, and the one found was free
    have heq := located_inj hl hin (f.mid_mem_located base)
    rw [heq, (firstFit_some hf).2.1] at hc
    simp at hc
  · -- the used segment ends below the one at the end of the region
    have hend := (bounds_of_mem_located (mem_located_grown hl b hc hin)).2
    have hpos := c.least_le
    rw [Focus.carve_offset, Focus.offset]
    omega

end Contract

end MallocBench.Segments
