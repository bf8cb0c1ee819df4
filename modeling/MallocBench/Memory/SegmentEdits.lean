import MallocBench.Memory.Segments

/-! # Edits of a segment list at one place

An allocator changes a list of adjacent segments at one segment at a time. `Focus` is a list with
that segment singled out. The edits are:

* `mergeRight`, `mergeLeft`, `absorb`: join the segment with a free neighbour on the right, on the
  left, on both sides;
* `release`: mark the segment free and absorb;
* `carve`: mark the segment in use, cutting off the rest as a free segment when it is long enough
  to stand alone.

Every edit keeps the total size and the address of every segment it does not touch. Absorbing
restores `Coalesced`, carving keeps it. `firstFit` is the search for the segment to carve. -/

namespace MallocBench.Segments

variable {unit least : Nat}

/-- A list of segments with one of them singled out. -/
structure Focus (unit least : Nat) where
  /-- The segments below. -/
  pre : List (Segment unit least)
  /-- The segment singled out. -/
  mid : Segment unit least
  /-- The segments above. -/
  post : List (Segment unit least)

namespace Focus

/-- The whole list. -/
def list (f : Focus unit least) : List (Segment unit least) := f.pre ++ f.mid :: f.post

/-- The distance of the singled-out segment from the start of the region. -/
def offset (f : Focus unit least) : Nat := total f.pre

/-- The focus of the first segment moved below one more segment. -/
def push (b : Segment unit least) (f : Focus unit least) : Focus unit least :=
  ⟨b :: f.pre, f.mid, f.post⟩

/-- The list with one more segment in front. -/
@[simp] theorem push_list (b : Segment unit least) (f : Focus unit least) :
    (push b f).list = b :: f.list := rfl

/-- That moves the singled-out segment up by its size. -/
@[simp] theorem push_offset (b : Segment unit least) (f : Focus unit least) :
    (push b f).offset = b.size + f.offset := rfl

/-- The addresses below the segment, its own and those above. -/
theorem total_list (f : Focus unit least) :
    total f.list = f.offset + f.mid.size + total f.post := by
  rw [list, total_append, total_cons, offset, Nat.add_assoc]

/-- The singled-out segment is located at its distance from the start. -/
theorem mid_mem_located (f : Focus unit least) (a : Nat) :
    (a + f.offset, f.mid) ∈ located a f.list := by
  rw [list, located_append]
  simp [offset]

/-- The located segments of the list: those below, the singled-out one, those above. -/
theorem located_list (f : Focus unit least) (a : Nat) :
    located a f.list = located a f.pre ++
      (a + f.offset, f.mid) :: located (a + f.offset + f.mid.size) f.post := by
  rw [list, located_append, located_cons, offset]

/-- A located segment of the list lies below, is the singled-out one or lies above. -/
theorem mem_located_list {f : Focus unit least} {a p : Nat} {c : Segment unit least} :
    (p, c) ∈ located a f.list ↔ (p, c) ∈ located a f.pre ∨ (p = a + f.offset ∧ c = f.mid) ∨
      (p, c) ∈ located (a + f.offset + f.mid.size) f.post := by
  rw [located_list, List.mem_append, List.mem_cons, Prod.mk.injEq]

/-- Every located segment is the singled-out one of some focus of the list. -/
theorem exists_of_mem_located {a p : Nat} {b : Segment unit least}
    {bs : List (Segment unit least)} (h : (p, b) ∈ located a bs) :
    ∃ f : Focus unit least, f.list = bs ∧ a + f.offset = p ∧ f.mid = b := by
  induction bs generalizing a with
  | nil => simp at h
  | cons c cs ih =>
      rcases mem_located_cons.mp h with ⟨rfl, rfl⟩ | h
      · exact ⟨⟨[], b, cs⟩, rfl, by simp [offset], rfl⟩
      · obtain ⟨f, hl, ho, hm⟩ := ih h
        exact ⟨push c f, by rw [push_list, hl], by rw [push_offset, ← ho, Nat.add_assoc], hm⟩

/-! ## Merging with the neighbours -/

/-- Join the segment with its right neighbour when that is free. -/
def mergeRight (f : Focus unit least) : Focus unit least :=
  match f.post with
  | [] => f
  | c :: cs => if c.alloc then f else ⟨f.pre, f.mid.merge c, cs⟩

/-- Join the segment with its left neighbour when that is free. -/
def mergeLeft (f : Focus unit least) : Focus unit least :=
  match f.pre.getLast? with
  | none => f
  | some b => if b.alloc then f else ⟨f.pre.dropLast, b.merge f.mid, f.post⟩

/-- Join the segment with every free neighbour. -/
def absorb (f : Focus unit least) : Focus unit least := f.mergeRight.mergeLeft

/-- The right neighbour is not free: it is in use, or there is none. -/
def RightUsed (f : Focus unit least) : Prop := ∀ c ∈ f.post.head?, c.alloc = true

/-- The left neighbour is not free: it is in use, or there is none. -/
def LeftUsed (f : Focus unit least) : Prop := ∀ b ∈ f.pre.getLast?, b.alloc = true

/-- Nothing is joined on the right when the right neighbour is not free. -/
theorem mergeRight_of_used {f : Focus unit least} (h : f.RightUsed) : f.mergeRight = f := by
  obtain ⟨pre, mid, post⟩ := f
  cases post with
  | nil => rfl
  | cons c cs =>
      have hc : c.alloc = true := h c rfl
      simp [mergeRight, hc]

/-- A free right neighbour is joined. -/
theorem mergeRight_of_free (pre : List (Segment unit least)) (b c : Segment unit least)
    (cs : List (Segment unit least)) (h : c.alloc = false) :
    mergeRight ⟨pre, b, c :: cs⟩ = ⟨pre, b.merge c, cs⟩ := by
  simp [mergeRight, h]

/-- Nothing is joined on the left when the left neighbour is not free. -/
theorem mergeLeft_of_used {f : Focus unit least} (h : f.LeftUsed) : f.mergeLeft = f := by
  rw [mergeLeft]
  split
  · rfl
  · next b hb => rw [if_pos (h b hb)]

/-- A free left neighbour is joined. -/
theorem mergeLeft_of_free (bs : List (Segment unit least)) (b c : Segment unit least)
    (post : List (Segment unit least)) (h : b.alloc = false) :
    mergeLeft ⟨bs ++ [b], c, post⟩ = ⟨bs, b.merge c, post⟩ := by
  simp [mergeLeft, h]

/-- Either there is no free right neighbour, or the list continues with a free segment. -/
theorem rightUsed_or (f : Focus unit least) :
    f.RightUsed ∨ ∃ c cs, f.post = c :: cs ∧ c.alloc = false := by
  rcases hp : f.post with _ | ⟨c, cs⟩
  · exact Or.inl fun c hc => by simp [hp] at hc
  · cases hc : c.alloc with
    | true => exact Or.inl fun d hd => by simp_all
    | false => exact Or.inr ⟨c, cs, rfl, hc⟩

/-- Either there is no free left neighbour, or the list below ends in a free segment. -/
theorem leftUsed_or (f : Focus unit least) :
    f.LeftUsed ∨ ∃ bs b, f.pre = bs ++ [b] ∧ b.alloc = false := by
  rcases List.eq_nil_or_concat f.pre with hp | ⟨bs, b, hp⟩
  · exact Or.inl fun c hc => by simp [hp] at hc
  · rw [List.concat_eq_append] at hp
    cases hb : b.alloc with
    | true => exact Or.inl fun d hd => by simp_all
    | false => exact Or.inr ⟨bs, b, hp, hb⟩

/-- **What merging to the right does**: nothing, or the free right neighbour is joined. -/
theorem mergeRight_cases (f : Focus unit least) :
    (f.RightUsed ∧ f.mergeRight = f) ∨
      ∃ pre b c cs, f = ⟨pre, b, c :: cs⟩ ∧ c.alloc = false ∧
        f.mergeRight = ⟨pre, b.merge c, cs⟩ := by
  obtain ⟨pre, mid, post⟩ := f
  rcases rightUsed_or ⟨pre, mid, post⟩ with hu | ⟨c, cs, hp, hc⟩
  · exact Or.inl ⟨hu, mergeRight_of_used hu⟩
  · obtain rfl : post = c :: cs := hp
    exact Or.inr ⟨pre, mid, c, cs, rfl, hc, mergeRight_of_free pre mid c cs hc⟩

/-- **What merging to the left does**: nothing, or the free left neighbour is joined. -/
theorem mergeLeft_cases (f : Focus unit least) :
    (f.LeftUsed ∧ f.mergeLeft = f) ∨
      ∃ bs b c post, f = ⟨bs ++ [b], c, post⟩ ∧ b.alloc = false ∧
        f.mergeLeft = ⟨bs, b.merge c, post⟩ := by
  obtain ⟨pre, mid, post⟩ := f
  rcases leftUsed_or ⟨pre, mid, post⟩ with hu | ⟨bs, b, hp, hb⟩
  · exact Or.inl ⟨hu, mergeLeft_of_used hu⟩
  · obtain rfl : pre = bs ++ [b] := hp
    exact Or.inr ⟨bs, b, mid, post, rfl, hb, mergeLeft_of_free bs b mid post hb⟩

/-- **The four cases of absorbing**: which of the two neighbours is free. -/
theorem absorb_cases (f : Focus unit least) :
    (f.LeftUsed ∧ f.RightUsed ∧ f.absorb = f) ∨
      (f.LeftUsed ∧ ∃ d ds, f.post = d :: ds ∧ d.alloc = false ∧
        f.absorb = ⟨f.pre, f.mid.merge d, ds⟩) ∨
      (f.RightUsed ∧ ∃ bs b, f.pre = bs ++ [b] ∧ b.alloc = false ∧
        f.absorb = ⟨bs, b.merge f.mid, f.post⟩) ∨
      ∃ bs b d ds, f.pre = bs ++ [b] ∧ b.alloc = false ∧ f.post = d :: ds ∧ d.alloc = false ∧
        f.absorb = ⟨bs, b.merge (f.mid.merge d), ds⟩ := by
  obtain ⟨pre, c, post⟩ := f
  rcases leftUsed_or ⟨pre, c, post⟩ with hl | ⟨bs, b, hpre, hb⟩ <;>
    rcases rightUsed_or ⟨pre, c, post⟩ with hr | ⟨d, ds, hpost, hd⟩
  · refine Or.inl ⟨hl, hr, ?_⟩
    rw [absorb, mergeRight_of_used hr, mergeLeft_of_used hl]
  · obtain rfl : post = d :: ds := hpost
    refine Or.inr (Or.inl ⟨hl, d, ds, rfl, hd, ?_⟩)
    rw [absorb, mergeRight_of_free _ _ _ _ hd]
    exact mergeLeft_of_used (f := ⟨pre, c.merge d, ds⟩) hl
  · obtain rfl : pre = bs ++ [b] := hpre
    refine Or.inr (Or.inr (Or.inl ⟨hr, bs, b, rfl, hb, ?_⟩))
    rw [absorb, mergeRight_of_used hr, mergeLeft_of_free _ _ _ _ hb]
  · obtain rfl : pre = bs ++ [b] := hpre
    obtain rfl : post = d :: ds := hpost
    refine Or.inr (Or.inr (Or.inr ⟨bs, b, d, ds, rfl, hb, rfl, hd, ?_⟩))
    rw [absorb, mergeRight_of_free _ _ _ _ hd, mergeLeft_of_free _ _ _ _ hb]

/-- Joining on the right leaves the segments below. -/
@[simp] theorem mergeRight_pre (f : Focus unit least) : f.mergeRight.pre = f.pre := by
  rw [mergeRight]
  split
  · rfl
  · split <;> rfl

/-- Joining on the left leaves the segments above. -/
@[simp] theorem mergeLeft_post (f : Focus unit least) : f.mergeLeft.post = f.post := by
  rw [mergeLeft]
  split
  · rfl
  · split <;> rfl

/-- A free segment stays free when it is joined on the right. -/
theorem mergeRight_alloc {f : Focus unit least} (h : f.mid.alloc = false) :
    f.mergeRight.mid.alloc = false := by
  rw [mergeRight]
  split
  · exact h
  · split
    · exact h
    · rfl

/-- A free segment stays free when it is joined on the left. -/
theorem mergeLeft_alloc {f : Focus unit least} (h : f.mid.alloc = false) :
    f.mergeLeft.mid.alloc = false := by
  rw [mergeLeft]
  split
  · exact h
  · split
    · exact h
    · rfl

/-- The absorbing segment stays free. -/
theorem absorb_alloc {f : Focus unit least} (h : f.mid.alloc = false) :
    f.absorb.mid.alloc = false := mergeLeft_alloc (mergeRight_alloc h)

/-- Joining on the right changes no length. -/
theorem total_mergeRight (f : Focus unit least) : total f.mergeRight.list = total f.list := by
  obtain ⟨-, heq⟩ | ⟨pre, mid, c, cs, rfl, -, heq⟩ := f.mergeRight_cases
  · rw [heq]
  · rw [heq]
    simp [list, Nat.add_assoc]

/-- Neither does joining on the left. -/
theorem total_mergeLeft (f : Focus unit least) : total f.mergeLeft.list = total f.list := by
  obtain ⟨-, heq⟩ | ⟨bs, b, mid, post, rfl, -, heq⟩ := f.mergeLeft_cases
  · rw [heq]
  · rw [heq]
    simp [list, Nat.add_assoc]

/-- Joining segments keeps the size of the region. -/
theorem total_absorb (f : Focus unit least) : total f.absorb.list = total f.list := by
  rw [absorb, total_mergeLeft, total_mergeRight]

/-- Once merged to the right, the right neighbour is not free. -/
theorem mergeRight_rightUsed {f : Focus unit least} (h : Coalesced f.post) :
    f.mergeRight.RightUsed := by
  obtain ⟨hu, heq⟩ | ⟨pre, mid, c, cs, rfl, hc, heq⟩ := f.mergeRight_cases
  · rwa [heq]
  · rw [heq]
    exact h.head_used hc

/-- The segments above stay apart. -/
theorem mergeRight_post_coalesced {f : Focus unit least} (h : Coalesced f.post) :
    Coalesced f.mergeRight.post := by
  obtain ⟨-, heq⟩ | ⟨pre, mid, c, cs, rfl, -, heq⟩ := f.mergeRight_cases
  · rwa [heq]
  · rw [heq]
    exact h.tail

/-- Merging to the left restores `Coalesced` when the right neighbour is not free. -/
theorem coalesced_mergeLeft {f : Focus unit least} (hpre : Coalesced f.pre)
    (hpost : Coalesced f.post) (hr : f.RightUsed) : Coalesced f.mergeLeft.list := by
  obtain ⟨hu, heq⟩ | ⟨bs, b, mid, post, rfl, hb, heq⟩ := f.mergeLeft_cases
  · rw [heq]
    refine coalesced_append.mpr ⟨hpre, hpost.cons_free hr, fun c hc d _ => ?_⟩
    exact Or.inl (hu c hc)
  · rw [heq]
    obtain ⟨hbs, -, hseam⟩ := coalesced_append.mp hpre
    -- the merged segment is free, and what is now below it cannot be
    refine coalesced_append.mpr ⟨hbs, Coalesced.cons_free hpost hr, fun c hc d _ => ?_⟩
    have := hseam c hc b rfl
    simp [hb] at this
    exact Or.inl this

/-- **Absorbing restores `Coalesced`**: a free segment between two coalesced lists, joined with
its free neighbours, leaves no two free segments side by side. -/
theorem coalesced_absorb {f : Focus unit least} (hpre : Coalesced f.pre)
    (hpost : Coalesced f.post) : Coalesced f.absorb.list :=
  coalesced_mergeLeft (by simpa using hpre) (mergeRight_post_coalesced hpost)
    (mergeRight_rightUsed hpost)

/-- The absorbing segment stands in the list for a stretch of the same size. -/
theorem absorb_replaces (f : Focus unit least) :
    ∃ xs, f.list = f.absorb.pre ++ (xs ++ f.absorb.post) ∧ total xs = f.absorb.mid.size := by
  obtain ⟨pre, mid, post⟩ := f
  obtain ⟨-, -, habs⟩ | ⟨-, d, ds, rfl, -, habs⟩ | ⟨-, bs, b, rfl, -, habs⟩ |
    ⟨bs, b, d, ds, rfl, -, rfl, -, habs⟩ := absorb_cases ⟨pre, mid, post⟩
  · rw [habs]
    exact ⟨[mid], rfl, by simp⟩
  · rw [habs]
    exact ⟨[mid, d], rfl, by simp⟩
  · rw [habs]
    exact ⟨[b, mid], by simp [list], by simp⟩
  · rw [habs]
    exact ⟨[b, mid, d], by simp [list], by simp⟩

/-! ## Addresses under merging -/

/-- A segment above keeps its address when the singled-out one is merged to the right, unless it is
the free neighbour that goes. -/
theorem mem_located_mergeRight {f : Focus unit least} {a p : Nat} {c : Segment unit least}
    (h : (p, c) ∈ located (a + f.offset + f.mid.size) f.post) :
    (p, c) ∈ located (a + f.mergeRight.offset + f.mergeRight.mid.size) f.mergeRight.post ∨
      (c.alloc = false ∧ p = a + f.offset + f.mid.size) := by
  obtain ⟨-, heq⟩ | ⟨pre, mid, d, cs, rfl, hd, heq⟩ := f.mergeRight_cases
  · rw [heq]
    exact Or.inl h
  · rw [heq]
    rcases mem_located_cons.mp h with ⟨rfl, rfl⟩ | h
    · exact Or.inr ⟨hd, rfl⟩
    · exact Or.inl (by simpa [offset, Nat.add_assoc] using h)

/-- A segment below keeps its address when the singled-out one is merged to the left, unless it is
the free neighbour that goes. -/
theorem mem_located_mergeLeft {f : Focus unit least} {a p : Nat} {c : Segment unit least}
    (h : (p, c) ∈ located a f.pre) :
    (p, c) ∈ located a f.mergeLeft.pre ∨ (c.alloc = false ∧ p + c.size = a + f.offset) := by
  obtain ⟨-, heq⟩ | ⟨bs, b, mid, post, rfl, hb, heq⟩ := f.mergeLeft_cases
  · rw [heq]
    exact Or.inl h
  · rw [heq]
    rcases mem_located_concat.mp h with h | ⟨rfl, rfl⟩
    · exact Or.inl h
    · exact Or.inr ⟨hb, by simp [offset, Nat.add_assoc]⟩

/-- Merging to the left does not move the end of the segment. -/
theorem mergeLeft_end (f : Focus unit least) :
    f.mergeLeft.offset + f.mergeLeft.mid.size = f.offset + f.mid.size := by
  obtain ⟨-, heq⟩ | ⟨bs, b, mid, post, rfl, -, heq⟩ := f.mergeLeft_cases
  · rw [heq]
  · rw [heq]
    simp [offset, Nat.add_assoc]

/-- Joining on the left moves the start down. -/
theorem mergeLeft_offset_le (f : Focus unit least) : f.mergeLeft.offset ≤ f.offset := by
  obtain ⟨-, heq⟩ | ⟨bs, b, mid, post, rfl, -, heq⟩ := f.mergeLeft_cases
  · rw [heq]
  · rw [heq]
    simp [offset]

/-- Joining on the right makes a segment no shorter. -/
theorem le_mergeRight_size (f : Focus unit least) : f.mid.size ≤ f.mergeRight.mid.size := by
  obtain ⟨-, heq⟩ | ⟨pre, mid, d, cs, rfl, -, heq⟩ := f.mergeRight_cases
  · rw [heq]
  · rw [heq]
    exact Nat.le_add_right _ _

/-- The absorbing segment covers the old one. -/
theorem absorb_covers (f : Focus unit least) :
    f.absorb.offset ≤ f.offset ∧
      f.offset + f.mid.size ≤ f.absorb.offset + f.absorb.mid.size := by
  have hoff : f.mergeRight.offset = f.offset := by rw [offset, mergeRight_pre, offset]
  constructor
  · rw [← hoff]
    exact f.mergeRight.mergeLeft_offset_le
  · rw [absorb, mergeLeft_end, hoff]
    exact Nat.add_le_add_left f.le_mergeRight_size _

/-- **Absorbing moves no segment it does not join**: every other segment of the list is still
located at its address, below or above the absorbing one, unless it was a free neighbour. -/
theorem mem_located_absorb {f : Focus unit least} {a p : Nat} {c : Segment unit least}
    (h : (p, c) ∈ located a f.list) (hp : p ≠ a + f.offset) :
    ((p, c) ∈ located a f.absorb.pre ∨
      (p, c) ∈ located (a + f.absorb.offset + f.absorb.mid.size) f.absorb.post) ∨
      (c.alloc = false ∧ (p + c.size = a + f.offset ∨ p = a + f.offset + f.mid.size)) := by
  rcases mem_located_list.mp h with h | ⟨hmid, -⟩ | h
  · -- below: the merge to the right leaves it, the merge to the left may take it
    have hpre : (p, c) ∈ located a f.mergeRight.pre := by rwa [mergeRight_pre]
    rcases mem_located_mergeLeft hpre with h' | ⟨hc, h'⟩
    · exact Or.inl (Or.inl h')
    · rw [offset, mergeRight_pre] at h'
      exact Or.inr ⟨hc, Or.inl h'⟩
  · exact absurd hmid hp
  · rcases mem_located_mergeRight h with h' | ⟨hc, h'⟩
    · refine Or.inl (Or.inr ?_)
      -- above: the merge to the left keeps the end of the segment
      rwa [absorb, mergeLeft_post, Nat.add_assoc, mergeLeft_end, ← Nat.add_assoc]
    · exact Or.inr ⟨hc, Or.inr h'⟩

/-! ## Releasing a used segment -/

/-- Mark the segment free and join it with its free neighbours. -/
def release (f : Focus unit least) : Focus unit least :=
  absorb ⟨f.pre, f.mid.freed, f.post⟩

/-- The released segment covers the used one. -/
theorem release_covers (f : Focus unit least) :
    f.release.offset ≤ f.offset ∧
      f.offset + f.mid.size ≤ f.release.offset + f.release.mid.size :=
  absorb_covers ⟨f.pre, f.mid.freed, f.post⟩

/-- Releasing a segment changes no length. -/
theorem total_release (f : Focus unit least) : total f.release.list = total f.list := by
  rw [release, total_absorb]
  simp [list]

/-- **Releasing keeps `Coalesced`.** -/
theorem coalesced_release {f : Focus unit least} (h : Coalesced f.list) :
    Coalesced f.release.list := by
  obtain ⟨hpre, hrest, -⟩ := coalesced_append.mp h
  exact coalesced_absorb hpre hrest.tail

/-- **Releasing moves no other segment**, the free neighbours it joins excepted. -/
theorem mem_located_release {f : Focus unit least} {a p : Nat} {c : Segment unit least}
    (h : (p, c) ∈ located a f.list) (hp : p ≠ a + f.offset) :
    ((p, c) ∈ located a f.release.pre ∨
      (p, c) ∈ located (a + f.release.offset + f.release.mid.size) f.release.post) ∨
      (c.alloc = false ∧ (p + c.size = a + f.offset ∨ p = a + f.offset + f.mid.size)) := by
  have h' : (p, c) ∈ located a (list ⟨f.pre, f.mid.freed, f.post⟩) := by
    refine mem_located_list.mpr ?_
    rcases mem_located_list.mp h with h | ⟨hmid, -⟩ | h
    · exact Or.inl h
    · exact absurd hmid hp
    · exact Or.inr (Or.inr h)
  exact mem_located_absorb h' hp

/-- A segment below or above the singled-out one is in the list and does not overlap it. -/
theorem mem_located_beside {f : Focus unit least} {a p : Nat} {c : Segment unit least}
    (h : (p, c) ∈ located a f.pre ∨ (p, c) ∈ located (a + f.offset + f.mid.size) f.post) :
    (p, c) ∈ located a f.list ∧
      (p + c.size ≤ a + f.offset ∨ a + f.offset + f.mid.size ≤ p) := by
  rw [mem_located_list]
  rcases h with h | h
  · exact ⟨Or.inl h, Or.inl (bounds_of_mem_located h).2⟩
  · exact ⟨Or.inr (Or.inr h), Or.inr (bounds_of_mem_located h).1⟩

/-- A used segment other than the released one keeps its address. -/
theorem mem_located_release_used {f : Focus unit least} {a p : Nat} {c : Segment unit least}
    (hc : c.alloc = true) (h : (p, c) ∈ located a f.list) (hp : p ≠ a + f.offset) :
    (p, c) ∈ located a f.release.list := by
  rcases mem_located_release h hp with hm | ⟨hfree, -⟩
  · exact (mem_located_beside hm).1
  · simp [hc] at hfree

/-- Releasing, neighbour by neighbour: which segments the released one is joined with. -/
theorem release_list (f : Focus unit least) :
    (f.LeftUsed → f.RightUsed → f.release.list = f.pre ++ f.mid.freed :: f.post) ∧
    (f.LeftUsed → ∀ d ds, f.post = d :: ds → d.alloc = false →
      f.release.list = f.pre ++ f.mid.merge d :: ds) ∧
    (f.RightUsed → ∀ bs b, f.pre = bs ++ [b] → b.alloc = false →
      f.release.list = bs ++ b.merge f.mid :: f.post) ∧
    (∀ bs b d ds, f.pre = bs ++ [b] → b.alloc = false → f.post = d :: ds → d.alloc = false →
      f.release.list = bs ++ b.merge (f.mid.merge d) :: ds) := by
  obtain ⟨pre, mid, post⟩ := f
  refine ⟨fun hl hr => ?_, ?_, ?_, ?_⟩
  · rw [release, absorb, mergeRight_of_used (f := ⟨pre, mid.freed, post⟩) hr,
      mergeLeft_of_used (f := ⟨pre, mid.freed, post⟩) hl]
    rfl
  · rintro hl d ds rfl hd
    rw [release, absorb, mergeRight_of_free _ _ _ _ hd,
      mergeLeft_of_used (f := ⟨pre, mid.freed.merge d, ds⟩) hl]
    rfl
  · rintro hr bs b rfl hb
    rw [release, absorb, mergeRight_of_used (f := ⟨bs ++ [b], mid.freed, post⟩) hr,
      mergeLeft_of_free _ _ _ _ hb]
    rfl
  · rintro bs b d ds rfl hb rfl hd
    rw [release, absorb, mergeRight_of_free _ _ _ _ hd, mergeLeft_of_free _ _ _ _ hb]
    rfl

/-! ## Carving a used segment off a free one -/

/-- Mark the segment in use for a request of `a.size` addresses: what is left over becomes a free
segment of its own when it is at least `least` long, and stays inside the used one otherwise. -/
def carve (f : Focus unit least) (a : Segment unit least) : Focus unit least :=
  if h : a.size + least ≤ f.mid.size then
    ⟨f.pre, a.used, ⟨f.mid.size - a.size, false, by omega, Nat.dvd_sub f.mid.unit_dvd a.unit_dvd⟩
      :: f.post⟩
  else ⟨f.pre, f.mid.used, f.post⟩

/-- A cut leaves the segments below. -/
@[simp] theorem carve_pre (f : Focus unit least) (a : Segment unit least) :
    (f.carve a).pre = f.pre := by
  rw [carve]
  split <;> rfl

/-- It leaves the segment where it is. -/
@[simp] theorem carve_offset (f : Focus unit least) (a : Segment unit least) :
    (f.carve a).offset = f.offset := by
  rw [offset, carve_pre, offset]

/-- It marks the segment in use. -/
@[simp] theorem carve_alloc (f : Focus unit least) (a : Segment unit least) :
    (f.carve a).mid.alloc = true := by
  rw [carve]
  split <;> rfl

/-- The carved segment is at least as long as the request. -/
theorem le_carve_size (f : Focus unit least) {a : Segment unit least}
    (h : a.size ≤ f.mid.size) : a.size ≤ (f.carve a).mid.size := by
  rw [carve]
  split
  · exact le_rfl
  · exact h

/-- **Carving keeps `Coalesced`**: what is cut off a free segment lies between two used ones. -/
theorem coalesced_carve {f : Focus unit least} (a : Segment unit least)
    (h : Coalesced f.list) (hf : f.mid.alloc = false) : Coalesced (f.carve a).list := by
  obtain ⟨hpre, hrest, -⟩ := coalesced_append.mp h
  have hpost : Coalesced f.post := hrest.tail
  rw [carve]
  split
  · refine coalesced_append.mpr ⟨hpre, Coalesced.cons_used ?_ rfl, fun _ _ c hc => Or.inr ?_⟩
    · exact hpost.cons_free (hrest.head_used hf)
    · obtain rfl : a.used = c := by simpa using hc
      rfl
  · refine coalesced_append.mpr ⟨hpre, Coalesced.cons_used hpost rfl, fun _ _ c hc => Or.inr ?_⟩
    obtain rfl : f.mid.used = c := by simpa using hc
    rfl

/-- **Carving moves no other segment**: a used segment of the list keeps its address. -/
theorem mem_located_carve {f : Focus unit least} {a p : Nat} {c : Segment unit least}
    (r : Segment unit least) (hf : f.mid.alloc = false) (hc : c.alloc = true)
    (h : (p, c) ∈ located a f.list) : (p, c) ∈ located a (f.carve r).list := by
  rcases mem_located_list.mp h with h | ⟨-, rfl⟩ | h
  · rw [located_list, carve_pre]
    exact List.mem_append_left _ h
  · -- a used segment is not the free one that is carved
    simp [hc] at hf
  · rw [carve]
    split
    · rw [located_list]
      refine List.mem_append_right _ (List.mem_cons_of_mem _ (List.mem_cons_of_mem _ ?_))
      -- the two pieces end where the segment did
      have hend : a + f.offset + r.size + (f.mid.size - r.size) = a + f.offset + f.mid.size := by
        omega
      show (p, c) ∈ located (a + f.offset + r.size + (f.mid.size - r.size)) f.post
      rwa [hend]
    · rw [located_list]
      exact List.mem_append_right _ (List.mem_cons_of_mem _ h)

end Focus

/-! ## First fit -/

/-- The lowest free segment of at least `n` addresses. -/
def firstFit (n : Nat) : List (Segment unit least) → Option (Focus unit least)
  | [] => none
  | b :: bs =>
      if b.alloc = false ∧ n ≤ b.size then some ⟨[], b, bs⟩ else (firstFit n bs).map (Focus.push b)

/-- What a successful search finds is in the list, free and long enough. -/
theorem firstFit_some {n : Nat} {bs : List (Segment unit least)} {f : Focus unit least}
    (h : firstFit n bs = some f) : f.list = bs ∧ f.mid.alloc = false ∧ n ≤ f.mid.size := by
  induction bs generalizing f with
  | nil => simp [firstFit] at h
  | cons b bs ih =>
      rw [firstFit] at h
      split at h
      · next hb =>
        obtain rfl := Option.some.inj h
        exact ⟨rfl, hb⟩
      · obtain ⟨g, hg, rfl⟩ := Option.map_eq_some_iff.mp h
        obtain ⟨hl, hm⟩ := ih hg
        exact ⟨by rw [Focus.push_list, hl], hm⟩

/-- The search fails iff no free segment is long enough. -/
theorem firstFit_none {n : Nat} {bs : List (Segment unit least)} :
    firstFit n bs = none ↔ ∀ b ∈ bs, b.alloc = false → b.size < n := by
  induction bs with
  | nil => simp [firstFit]
  | cons b bs ih =>
      rw [firstFit]
      split
      · next hb =>
        refine ⟨fun h => by simp at h, fun h => ?_⟩
        -- the head fits, against the hypothesis
        have := h b List.mem_cons_self hb.1
        omega
      · next hb =>
        rw [Option.map_eq_none_iff, ih, List.forall_mem_cons]
        refine ⟨fun h => ⟨fun hf => ?_, h⟩, And.right⟩
        by_contra hn
        exact hb ⟨hf, by omega⟩

/-- **First fit is lowest fit**: no free segment that is long enough lies below the one found. -/
theorem firstFit_lowest {n : Nat} {bs : List (Segment unit least)} {f : Focus unit least}
    (h : firstFit n bs = some f) {a q : Nat} {c : Segment unit least}
    (hc : (q, c) ∈ located a bs) (hfree : c.alloc = false) (hle : n ≤ c.size) :
    a + f.offset ≤ q := by
  induction bs generalizing a f with
  | nil => simp at hc
  | cons b bs ih =>
      have hpos := (bounds_of_mem_located hc).1
      rw [firstFit] at h
      split at h
      · -- the head is found, and nothing lies below it
        obtain rfl := Option.some.inj h
        exact hpos
      · next hb =>
        obtain ⟨g, hg, rfl⟩ := Option.map_eq_some_iff.mp h
        rcases mem_located_cons.mp hc with ⟨-, rfl⟩ | hc
        · exact absurd ⟨hfree, hle⟩ hb
        · have := ih hg hc
          rwa [Focus.push_offset, ← Nat.add_assoc]

/-- **What the search answers**: the address of the lowest free segment that is long enough. -/
theorem firstFit_eq_some_iff {n a p : Nat} {bs : List (Segment unit least)} :
    ((firstFit n bs).map fun f => a + f.offset) = some p ↔
      ∃ b, (p, b) ∈ located a bs ∧ b.alloc = false ∧ n ≤ b.size ∧
        ∀ q c, (q, c) ∈ located a bs → c.alloc = false → n ≤ c.size → p ≤ q := by
  constructor
  · intro h
    obtain ⟨f, hf, rfl⟩ := Option.map_eq_some_iff.mp h
    obtain ⟨rfl, hfree, hle⟩ := firstFit_some hf
    exact ⟨f.mid, f.mid_mem_located a, hfree, hle, fun q c => firstFit_lowest hf⟩
  · rintro ⟨b, hb, hfree, hle, hlow⟩
    cases hf : firstFit n bs with
    | none =>
        have := firstFit_none.mp hf b (mem_of_mem_located hb) hfree
        omega
    | some f =>
        -- neither of the two addresses is above the other
        have hge := firstFit_lowest hf hb hfree hle
        obtain ⟨rfl, hfree', hle'⟩ := firstFit_some hf
        have := hlow _ _ (f.mid_mem_located a) hfree' hle'
        have hp : a + f.offset = p := by omega
        exact congrArg some hp

/-- The search fails iff no located segment is free and long enough. -/
theorem firstFit_eq_none_iff {n a : Nat} {bs : List (Segment unit least)} :
    ((firstFit n bs).map fun f => a + f.offset) = none ↔
      ∀ p b, (p, b) ∈ located a bs → b.alloc = false → b.size < n := by
  rw [Option.map_eq_none_iff, firstFit_none]
  refine ⟨fun h p b hb => h b (mem_of_mem_located hb), fun h b hb => ?_⟩
  obtain ⟨p, hp⟩ := exists_mem_located a hb
  exact h p b hp

end MallocBench.Segments
