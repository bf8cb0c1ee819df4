import MallocBench.Memory.SegmentAllocator

/-! # Occupied segments and fragmentation

`usedAt` lists the segments in use with their addresses. Joining free segments does not change it,
carving adds one entry and releasing takes one away (`usedAt_absorb`, `mem_usedAt_allocate`,
`mem_usedAt_release`).

In a coalesced list the free segments lie between segments in use, so there is at most one more of
them. Hence a region in which no free segment is longer than `n` is bounded by its segments in use
(`total_le_of_coalesced`): this is how far such a region can be fragmented.

The last part follows the sizes that are multiples of a number, a property that all edits keep. -/

namespace MallocBench.Segments

variable {unit least : Nat}

/-! ## The segments in use -/

/-- The segments in use with their addresses, the first segment at `a`. -/
def usedAt (a : Nat) (bs : List (Segment unit least)) : List (Nat × Segment unit least) :=
  (located a bs).filter fun x => x.2.alloc

/-- No segment is in use in an empty region. -/
@[simp] theorem usedAt_nil (a : Nat) : usedAt a ([] : List (Segment unit least)) = [] := rfl

/-- A first segment in use is listed with its address. -/
theorem usedAt_cons_used (a : Nat) {b : Segment unit least} (hb : b.alloc = true)
    (bs : List (Segment unit least)) : usedAt a (b :: bs) = (a, b) :: usedAt (a + b.size) bs := by
  rw [usedAt, located_cons, List.filter_cons, if_pos hb, usedAt]

/-- A first free segment is passed over. -/
theorem usedAt_cons_free (a : Nat) {b : Segment unit least} (hb : b.alloc = false)
    (bs : List (Segment unit least)) : usedAt a (b :: bs) = usedAt (a + b.size) bs := by
  rw [usedAt, located_cons, List.filter_cons, if_neg (by simp [hb]), usedAt]

/-- The segments in use of two regions, one behind the other. -/
theorem usedAt_append (a : Nat) (bs cs : List (Segment unit least)) :
    usedAt a (bs ++ cs) = usedAt a bs ++ usedAt (a + total bs) cs := by
  rw [usedAt, located_append, List.filter_append, usedAt, usedAt]

/-- The segments in use are those located segments that are marked so. -/
theorem mem_usedAt {a p : Nat} {c : Segment unit least} {bs : List (Segment unit least)} :
    (p, c) ∈ usedAt a bs ↔ (p, c) ∈ located a bs ∧ c.alloc = true := List.mem_filter

/-- No two segments in use start at one address, when no segment is empty. -/
theorem usedAt_nodup (hl : 0 < least) (a : Nat) (bs : List (Segment unit least)) :
    ((usedAt a bs).map Prod.fst).Nodup := by
  have hall := (List.nodup_append.mp (located_addresses_nodup hl a bs)).1
  exact hall.sublist (List.filter_sublist.map Prod.fst)

/-- A list without a segment in use is all free. -/
theorem free_of_usedAt_nil {a : Nat} {bs : List (Segment unit least)} (h : usedAt a bs = []) :
    ∀ b ∈ bs, b.alloc = false := by
  intro b hb
  obtain ⟨p, hp⟩ := exists_mem_located a hb
  rw [← Bool.not_eq_true]
  intro hused
  have hmem := mem_usedAt.mpr ⟨hp, hused⟩
  rw [h] at hmem
  exact List.not_mem_nil hmem

namespace Focus

/-- The segments in use below and above a free one. -/
theorem usedAt_list_free {f : Focus unit least} (hf : f.mid.alloc = false) (a : Nat) :
    usedAt a f.list = usedAt a f.pre ++ usedAt (a + f.offset + f.mid.size) f.post := by
  rw [list, usedAt_append, usedAt_cons_free _ hf, offset]

/-- The segments in use around one in use. -/
theorem usedAt_list_used {f : Focus unit least} (hf : f.mid.alloc = true) (a : Nat) :
    usedAt a f.list = usedAt a f.pre ++
      (a + f.offset, f.mid) :: usedAt (a + f.offset + f.mid.size) f.post := by
  rw [list, usedAt_append, usedAt_cons_used _ hf, offset]

/-- **Joining free segments** does not touch the segments in use. -/
theorem usedAt_absorb {f : Focus unit least} (hf : f.mid.alloc = false) (a : Nat) :
    usedAt a f.absorb.list = usedAt a f.list := by
  obtain ⟨pre, c, post⟩ := f
  obtain ⟨-, -, habs⟩ | ⟨-, d, ds, rfl, hd, habs⟩ | ⟨-, bs, b, rfl, hb, habs⟩ |
    ⟨bs, b, d, ds, rfl, hb, rfl, hd, habs⟩ := absorb_cases ⟨pre, c, post⟩
  · rw [habs]
  · rw [habs, usedAt_list_free rfl, usedAt_list_free hf, usedAt_cons_free _ hd]
    simp only [offset, Segment.merge_size, Nat.add_assoc]
  · rw [habs, usedAt_list_free rfl, usedAt_list_free hf, usedAt_append, usedAt_cons_free _ hb]
    simp only [offset, Segment.merge_size, total_concat, usedAt_nil, List.append_nil, Nat.add_assoc]
  · rw [habs, usedAt_list_free rfl, usedAt_list_free hf, usedAt_append, usedAt_cons_free _ hb,
      usedAt_cons_free _ hd]
    simp only [offset, Segment.merge_size, total_concat, usedAt_nil, List.append_nil, Nat.add_assoc]

/-- **Releasing** takes the entry of the released segment away. -/
theorem mem_usedAt_release (hl : 0 < least) {f : Focus unit least} {a p : Nat}
    {c : Segment unit least} (h : (p, c) ∈ usedAt a f.release.list) :
    (p, c) ∈ usedAt a f.list ∧ p ≠ a + f.offset := by
  have hrel : usedAt a f.release.list
      = usedAt a f.pre ++ usedAt (a + f.offset + f.mid.size) f.post :=
    (usedAt_absorb (f := ⟨f.pre, f.mid.freed, f.post⟩) rfl a).trans (usedAt_list_free rfl a)
  rw [hrel, List.mem_append, mem_usedAt, mem_usedAt] at h
  rw [mem_usedAt, mem_located_list]
  have hmid := f.mid.least_le
  -- a segment below ends at the released one, a segment above starts behind it
  rcases h with ⟨h, hc⟩ | ⟨h, hc⟩
  · have hend := (bounds_of_mem_located h).2
    have hpos := c.least_le
    exact ⟨⟨Or.inl h, hc⟩, by rw [offset]; omega⟩
  · have hstart := (bounds_of_mem_located h).1
    exact ⟨⟨Or.inr (Or.inr h), hc⟩, by omega⟩

/-- **Carving** adds one entry. -/
theorem usedAt_carve_perm {f : Focus unit least} (hf : f.mid.alloc = false)
    (r : Segment unit least) (a : Nat) :
    (usedAt a (f.carve r).list).Perm ((a + f.offset, (f.carve r).mid) :: usedAt a f.list) := by
  rw [usedAt_list_used (f.carve_alloc r), carve_pre, carve_offset, usedAt_list_free hf]
  -- what is cut off is free, and the segments above stay where they were
  suffices habove : usedAt (a + f.offset + (f.carve r).mid.size) (f.carve r).post
      = usedAt (a + f.offset + f.mid.size) f.post by
    rw [habove]
    exact List.perm_middle
  rw [carve]
  split
  · next hroom =>
    rw [usedAt_cons_free _ rfl]
    simp only [Segment.used_size]
    rw [show a + f.offset + r.size + (f.mid.size - r.size) = a + f.offset + f.mid.size by omega]
  · rfl

/-- What is carved off is as long as the request, or all of a segment too short to be cut. -/
theorem carve_size (f : Focus unit least) (r : Segment unit least) :
    (f.carve r).mid.size = r.size ∨
      f.mid.size < r.size + least ∧ (f.carve r).mid.size = f.mid.size := by
  rw [carve]
  split
  · exact Or.inl rfl
  · next hroom => exact Or.inr ⟨by omega, rfl⟩

/-- A cut changes no length. -/
theorem total_carve (f : Focus unit least) (r : Segment unit least) :
    total (f.carve r).list = total f.list := by
  rw [total_list, carve_offset, total_list, carve]
  split
  · simp only [Segment.used_size, total_cons]
    omega
  · rfl

end Focus

/-- Growing a region by a free segment does not touch the segments in use. -/
theorem usedAt_grown (bs : List (Segment unit least)) {b : Segment unit least}
    (hb : b.alloc = false) (a : Nat) : usedAt a (grown bs b).list = usedAt a bs := by
  rw [grown, Focus.usedAt_absorb hb, Focus.usedAt_list_free hb]
  simp

/-- **Allocation** adds the entry of the new segment. -/
theorem mem_usedAt_allocate {room : Nat} {r b : Segment unit least}
    {bs : List (Segment unit least)} {g : Focus unit least} (hb : b.alloc = false)
    (h : allocate room b bs r = some g) {a p : Nat} {c : Segment unit least} :
    (p, c) ∈ usedAt a g.list ↔ (p = a + g.offset ∧ c = g.mid) ∨ (p, c) ∈ usedAt a bs := by
  obtain ⟨f, rfl, ⟨hf, rfl⟩ | ⟨-, -, rfl⟩⟩ := allocate_cases h
  · rw [(Focus.usedAt_carve_perm (firstFit_some hf).2.1 r a).mem_iff, List.mem_cons, Prod.mk.injEq,
      Focus.carve_offset]
  · rw [(Focus.usedAt_carve_perm (grown_alloc bs hb) r a).mem_iff, List.mem_cons, Prod.mk.injEq,
      Focus.carve_offset, usedAt_grown bs hb]

/-- A region grows by nothing, or by the appended segment when no free one is long enough. -/
theorem total_allocate {room : Nat} {r b : Segment unit least} {bs : List (Segment unit least)}
    {g : Focus unit least} (h : allocate room b bs r = some g) :
    total g.list = total bs ∨
      firstFit r.size bs = none ∧ total g.list = total bs + b.size := by
  obtain ⟨f, rfl, ⟨-, rfl⟩ | ⟨hf, -, rfl⟩⟩ := allocate_cases h
  · exact Or.inl (Focus.total_carve f r)
  · exact Or.inr ⟨hf, (Focus.total_carve _ r).trans (total_grown bs b)⟩

/-! ## Fragmentation -/

/-- **Fragmentation bound.** In a coalesced region in which no segment in use is longer than `m` and no
free one longer than `n`, the free segments are at most one more than those in use; behind a used
segment they are at most as many. -/
theorem total_le_of_coalesced {m n a : Nat} {bs : List (Segment unit least)} (h : Coalesced bs)
    (hm : ∀ b ∈ bs, b.alloc = true → b.size ≤ m) (hn : ∀ b ∈ bs, b.alloc = false → b.size ≤ n) :
    total bs ≤ (usedAt a bs).length * m + ((usedAt a bs).length + 1) * n ∧
      ((∀ c ∈ bs.head?, c.alloc = true) →
        total bs ≤ (usedAt a bs).length * m + (usedAt a bs).length * n) := by
  induction bs generalizing a with
  | nil => simp
  | cons b bs ih =>
      obtain ⟨hbm, hm⟩ := List.forall_mem_cons.mp hm
      obtain ⟨hbn, hn⟩ := List.forall_mem_cons.mp hn
      obtain ⟨hany, hused⟩ := ih (a := a + b.size) h.tail hm hn
      cases hb : b.alloc with
      | true =>
          have hle := hbm hb
          rw [usedAt_cons_used a hb, List.length_cons, total_cons]
          have hboth : b.size + total bs ≤ ((usedAt (a + b.size) bs).length + 1) * m +
              ((usedAt (a + b.size) bs).length + 1) * n := by
            rw [Nat.succ_mul _ m]
            omega
          refine ⟨hboth.trans ?_, fun _ => hboth⟩
          exact Nat.add_le_add_left (Nat.mul_le_mul_right n (Nat.le_succ _)) _
      | false =>
          -- the segment that follows is in use
          have hle := hbn hb
          have hnext := hused (h.head_used hb)
          rw [usedAt_cons_free a hb, total_cons, Nat.succ_mul]
          refine ⟨by omega, fun hhead => ?_⟩
          have := hhead b rfl
          simp [hb] at this

/-! ## Sizes that are multiples of a number -/

/-- All sizes are multiples of `d`. -/
def DvdSizes (d : Nat) (bs : List (Segment unit least)) : Prop := ∀ b ∈ bs, d ∣ b.size

instance (d : Nat) (bs : List (Segment unit least)) : Decidable (DvdSizes d bs) :=
  inferInstanceAs (Decidable (∀ b ∈ bs, d ∣ b.size))

section Multiples

variable {d : Nat}

/-- Divisibility of all sizes, of two lists. -/
theorem dvdSizes_append {bs cs : List (Segment unit least)} :
    DvdSizes d (bs ++ cs) ↔ DvdSizes d bs ∧ DvdSizes d cs := List.forall_mem_append

/-- The same for a first segment. -/
theorem dvdSizes_cons {b : Segment unit least} {bs : List (Segment unit least)} :
    DvdSizes d (b :: bs) ↔ d ∣ b.size ∧ DvdSizes d bs := List.forall_mem_cons

namespace Focus

/-- The same for a list with a segment singled out. -/
theorem dvdSizes_list {f : Focus unit least} :
    DvdSizes d f.list ↔ DvdSizes d f.pre ∧ d ∣ f.mid.size ∧ DvdSizes d f.post := by
  rw [list, dvdSizes_append, dvdSizes_cons]

/-- A joined segment is a sum. -/
theorem dvdSizes_absorb {f : Focus unit least} (h : DvdSizes d f.list) :
    DvdSizes d f.absorb.list := by
  obtain ⟨pre, c, post⟩ := f
  obtain ⟨hpre, hc, hpost⟩ := dvdSizes_list.mp h
  rw [dvdSizes_list]
  obtain ⟨-, -, habs⟩ | ⟨-, e, es, rfl, -, habs⟩ | ⟨-, bs, b, rfl, -, habs⟩ |
    ⟨bs, b, e, es, rfl, -, rfl, -, habs⟩ := absorb_cases ⟨pre, c, post⟩
  · rw [habs]
    exact ⟨hpre, hc, hpost⟩
  · obtain ⟨he, hes⟩ := dvdSizes_cons.mp hpost
    rw [habs]
    exact ⟨hpre, Nat.dvd_add hc he, hes⟩
  · obtain ⟨hbs, hb⟩ := dvdSizes_append.mp hpre
    rw [habs]
    exact ⟨hbs, Nat.dvd_add (hb b (by simp)) hc, hpost⟩
  · obtain ⟨hbs, hb⟩ := dvdSizes_append.mp hpre
    obtain ⟨he, hes⟩ := dvdSizes_cons.mp hpost
    rw [habs]
    exact ⟨hbs, Nat.dvd_add (hb b (by simp)) (Nat.dvd_add hc he), hes⟩

/-- Releasing a segment keeps the sizes divisible: merged sizes are sums. -/
theorem dvdSizes_release {f : Focus unit least} (h : DvdSizes d f.list) :
    DvdSizes d f.release.list := by
  obtain ⟨hpre, hmid, hpost⟩ := dvdSizes_list.mp h
  exact dvdSizes_absorb (f := ⟨f.pre, f.mid.freed, f.post⟩) (dvdSizes_list.mpr ⟨hpre, hmid, hpost⟩)

/-- What is cut off is a difference. -/
theorem dvdSizes_carve {f : Focus unit least} {r : Segment unit least} (h : DvdSizes d f.list)
    (hr : d ∣ r.size) : DvdSizes d (f.carve r).list := by
  obtain ⟨hpre, hmid, hpost⟩ := dvdSizes_list.mp h
  rw [dvdSizes_list, carve]
  split
  · exact ⟨hpre, hr, dvdSizes_cons.mpr ⟨Nat.dvd_sub hmid hr, hpost⟩⟩
  · exact ⟨hpre, hmid, hpost⟩

end Focus

/-- So does appending a segment of a divisible size. -/
theorem dvdSizes_grown {bs : List (Segment unit least)} {b : Segment unit least}
    (h : DvdSizes d bs) (hb : d ∣ b.size) : DvdSizes d (grown bs b).list :=
  Focus.dvdSizes_absorb (f := ⟨bs, b, []⟩)
    (Focus.dvdSizes_list.mpr ⟨h, hb, fun _ hc => absurd hc List.not_mem_nil⟩)

/-- So does allocating for a request of a divisible size. -/
theorem dvdSizes_allocate {room : Nat} {r b : Segment unit least} {bs : List (Segment unit least)}
    {g : Focus unit least} (h : allocate room b bs r = some g) (hbs : DvdSizes d bs)
    (hr : d ∣ r.size) (hb : d ∣ b.size) : DvdSizes d g.list := by
  obtain ⟨f, rfl, ⟨-, rfl⟩ | ⟨-, -, rfl⟩⟩ := allocate_cases h
  · exact Focus.dvdSizes_carve hbs hr
  · exact Focus.dvdSizes_carve (dvdSizes_grown hbs hb) hr

end Multiples

end MallocBench.Segments
