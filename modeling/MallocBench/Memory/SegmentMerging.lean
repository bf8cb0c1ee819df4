import MallocBench.Memory.SegmentEdits

/-! # Joining the free segments of a list

`joinFree` joins every maximal run of free segments into one. It is a normal form: it is coalesced
(`coalesced_joinFree`), it is the list itself when that is coalesced (`joinFree_of_coalesced`), and it
does not see whether parts of the list are joined already (`joinFree_append_left`,
`joinFree_append_right`). Releasing a segment of a coalesced list is marking it free and joining
(`Focus.release_list_eq`), so releasing several, one after the other, is marking them all and joining
once, whatever the order (`Focus.release_freeAt`). -/

namespace MallocBench.Segments

variable {unit least : Nat}

/-! ## The normal form -/

/-- A segment in front of a list, joined with the first one when both are free. -/
def consJoin (b : Segment unit least) : List (Segment unit least) → List (Segment unit least)
  | [] => [b]
  | c :: cs => if b.alloc = false ∧ c.alloc = false then b.merge c :: cs else b :: c :: cs

/-- Join every maximal run of free segments into one. -/
def joinFree : List (Segment unit least) → List (Segment unit least)
  | [] => []
  | b :: bs => consJoin b (joinFree bs)

/-- An empty list is joined. -/
@[simp] theorem joinFree_nil : joinFree ([] : List (Segment unit least)) = [] := rfl

/-- The first segment is joined to the rest last. -/
theorem joinFree_cons (b : Segment unit least) (bs : List (Segment unit least)) :
    joinFree (b :: bs) = consJoin b (joinFree bs) := rfl

/-- A segment in use is put in front as it is. -/
theorem consJoin_of_used {b : Segment unit least} (hb : b.alloc = true)
    (bs : List (Segment unit least)) : consJoin b bs = b :: bs := by
  cases bs with
  | nil => rfl
  | cons c cs => rw [consJoin, if_neg (by simp [hb])]

/-- Two free segments become one. -/
theorem consJoin_cons_of_free {b c : Segment unit least} (hb : b.alloc = false)
    (hc : c.alloc = false) (cs : List (Segment unit least)) :
    consJoin b (c :: cs) = b.merge c :: cs := if_pos ⟨hb, hc⟩

/-- Nothing is joined to a segment in use. -/
theorem consJoin_cons_of_used {c : Segment unit least} (b : Segment unit least)
    (hc : c.alloc = true) (cs : List (Segment unit least)) :
    consJoin b (c :: cs) = b :: c :: cs := if_neg (by simp [hc])

/-- Joining in front changes no length. -/
@[simp] theorem total_consJoin (b : Segment unit least) (bs : List (Segment unit least)) :
    total (consJoin b bs) = b.size + total bs := by
  cases bs with
  | nil => rfl
  | cons c cs =>
      rw [consJoin]
      split
      · simp [Nat.add_assoc]
      · rfl

/-- Joining keeps the size of the region. -/
@[simp] theorem total_joinFree (bs : List (Segment unit least)) :
    total (joinFree bs) = total bs := by
  induction bs with
  | nil => rfl
  | cons b bs ih => rw [joinFree_cons, total_consJoin, ih, total_cons]

/-- It keeps free segments apart. -/
theorem coalesced_consJoin (b : Segment unit least) {bs : List (Segment unit least)}
    (h : Coalesced bs) : Coalesced (consJoin b bs) := by
  cases bs with
  | nil => exact coalesced_nil.cons_free fun c hc => by simp at hc
  | cons c cs =>
      rw [consJoin]
      split
      · next hfree => exact h.tail.cons_free (h.head_used hfree.2)
      · next hused =>
        cases hb : b.alloc with
        | true => exact h.cons_used hb
        | false =>
            refine h.cons_free fun d hd => ?_
            obtain rfl : c = d := by simpa using hd
            simpa [hb] using hused

/-- **The normal form is coalesced.** -/
theorem coalesced_joinFree (bs : List (Segment unit least)) : Coalesced (joinFree bs) := by
  induction bs with
  | nil => exact coalesced_nil
  | cons b bs ih => exact coalesced_consJoin b ih

/-- A coalesced list is its own normal form. -/
theorem joinFree_of_coalesced {bs : List (Segment unit least)} (h : Coalesced bs) :
    joinFree bs = bs := by
  induction bs with
  | nil => rfl
  | cons b bs ih =>
      rw [joinFree_cons, ih h.tail]
      cases hb : b.alloc with
      | true => exact consJoin_of_used hb bs
      | false =>
          cases bs with
          | nil => rfl
          | cons c cs => exact consJoin_cons_of_used b (h.head_used hb c rfl) cs

/-- Joining with a free run step by step is joining with all of it. -/
theorem consJoin_consJoin {b c : Segment unit least} (hb : b.alloc = false) (hc : c.alloc = false)
    (bs : List (Segment unit least)) :
    consJoin b (consJoin c bs) = consJoin (b.merge c) bs := by
  cases bs with
  | nil => exact consJoin_cons_of_free hb hc []
  | cons d ds =>
      cases hd : d.alloc with
      | true =>
          rw [consJoin_cons_of_used c hd, consJoin_cons_of_free hb hc,
            consJoin_cons_of_used _ hd]
      | false =>
          have hassoc : b.merge (c.merge d) = (b.merge c).merge d :=
            Segment.ext (Nat.add_assoc _ _ _).symm rfl
          rw [consJoin_cons_of_free hc hd, consJoin_cons_of_free hb rfl,
            consJoin_cons_of_free rfl hd, hassoc]

/-- Joining a first segment early makes no difference. -/
theorem joinFree_consJoin_append (b : Segment unit least) (xs ys : List (Segment unit least)) :
    joinFree (consJoin b xs ++ ys) = consJoin b (joinFree (xs ++ ys)) := by
  cases xs with
  | nil => rfl
  | cons c cs =>
      rw [consJoin]
      split
      · next hfree =>
        rw [List.cons_append, joinFree_cons, List.cons_append, joinFree_cons,
          consJoin_consJoin hfree.1 hfree.2]
      · rfl

/-- What is joined on the left before does not matter. -/
theorem joinFree_append_left (xs ys : List (Segment unit least)) :
    joinFree (joinFree xs ++ ys) = joinFree (xs ++ ys) := by
  induction xs with
  | nil => rfl
  | cons b xs ih => rw [joinFree_cons, joinFree_consJoin_append, ih, List.cons_append, joinFree_cons]

/-- What is joined on the right before does not matter. -/
theorem joinFree_append_right (xs ys : List (Segment unit least)) :
    joinFree (xs ++ joinFree ys) = joinFree (xs ++ ys) := by
  induction xs with
  | nil => exact joinFree_of_coalesced (coalesced_joinFree ys)
  | cons b xs ih => rw [List.cons_append, joinFree_cons, ih, List.cons_append, joinFree_cons]

/-- Two adjacent free segments may be joined first. -/
theorem joinFree_merge {b c : Segment unit least} (hb : b.alloc = false) (hc : c.alloc = false)
    (xs ys : List (Segment unit least)) :
    joinFree (xs ++ b.merge c :: ys) = joinFree (xs ++ b :: c :: ys) := by
  induction xs with
  | nil =>
      rw [List.nil_append, List.nil_append, joinFree_cons, joinFree_cons, joinFree_cons,
        consJoin_consJoin hb hc]
  | cons d xs ih => rw [List.cons_append, joinFree_cons, ih, List.cons_append, joinFree_cons]

/-- A used segment separates what is joined. -/
theorem joinFree_append_used {c : Segment unit least} (hc : c.alloc = true)
    (xs ys : List (Segment unit least)) :
    joinFree (xs ++ c :: ys) = joinFree xs ++ c :: joinFree ys := by
  induction xs with
  | nil => exact consJoin_of_used hc _
  | cons b xs ih =>
      rw [List.cons_append, joinFree_cons, ih, joinFree_cons]
      cases hx : joinFree xs with
      | nil => exact consJoin_cons_of_used b hc _
      | cons d ds =>
          rw [List.cons_append, consJoin, consJoin]
          split <;> rfl

/-- A list of free segments becomes one segment. -/
theorem joinFree_of_free {bs : List (Segment unit least)} (hne : bs ≠ [])
    (h : ∀ b ∈ bs, b.alloc = false) : ∃ b, joinFree bs = [b] ∧ b.alloc = false := by
  induction bs with
  | nil => exact absurd rfl hne
  | cons b bs ih =>
      have hb := h b List.mem_cons_self
      cases bs with
      | nil => exact ⟨b, rfl, hb⟩
      | cons c cs =>
          obtain ⟨d, hd, hdfree⟩ := ih (by simp) fun x hx => h x (List.mem_cons_of_mem _ hx)
          exact ⟨b.merge d, by rw [joinFree_cons, hd, consJoin_cons_of_free hb hdfree], rfl⟩

/-! ## Releasing -/

namespace Focus

/-- Absorbing free neighbours does not change the normal form. -/
theorem joinFree_absorb {f : Focus unit least} (hf : f.mid.alloc = false) :
    joinFree f.absorb.list = joinFree f.list := by
  obtain ⟨pre, b, post⟩ := f
  obtain ⟨-, -, habs⟩ | ⟨-, d, ds, rfl, hd, habs⟩ | ⟨-, bs, c, rfl, hc, habs⟩ |
    ⟨bs, c, d, ds, rfl, hc, rfl, hd, habs⟩ := absorb_cases ⟨pre, b, post⟩
  · rw [habs]
  · rw [habs]
    exact joinFree_merge hf hd pre ds
  · rw [habs, list, list, List.append_assoc]
    exact joinFree_merge hc hf bs post
  · rw [habs, list, list, List.append_assoc]
    -- the right neighbour is joined first, then the left one
    have hright := joinFree_merge hf hd (bs ++ [c]) ds
    rw [List.append_assoc, List.append_assoc] at hright
    exact (joinFree_merge hc rfl bs ds).trans hright

/-- **Releasing is marking and joining.** -/
theorem release_list_eq {f : Focus unit least} (h : Coalesced f.list) :
    f.release.list = joinFree (f.pre ++ f.mid.freed :: f.post) := by
  rw [← joinFree_of_coalesced (coalesced_release h)]
  exact joinFree_absorb (f := ⟨f.pre, f.mid.freed, f.post⟩) rfl

end Focus

/-! ## Marking several segments free -/

/-- Mark the segments at the addresses `ps` free, the first segment being at `a`. -/
def freeAt (ps : List Nat) : Nat → List (Segment unit least) → List (Segment unit least)
  | _, [] => []
  | a, b :: bs => (if a ∈ ps then b.freed else b) :: freeAt ps (a + b.size) bs

/-- Without addresses nothing is freed. -/
@[simp] theorem freeAt_nil (a : Nat) (bs : List (Segment unit least)) : freeAt [] a bs = bs := by
  induction bs generalizing a with
  | nil => rfl
  | cons b bs ih => simp [freeAt, ih]

/-- Freeing changes no length. -/
@[simp] theorem total_freeAt (ps : List Nat) (a : Nat) (bs : List (Segment unit least)) :
    total (freeAt ps a bs) = total bs := by
  induction bs generalizing a with
  | nil => rfl
  | cons b bs ih =>
      rw [freeAt, total_cons, ih, total_cons]
      split <;> rfl

/-- Segments are freed in two regions, one behind the other. -/
theorem freeAt_append (ps : List Nat) (a : Nat) (bs cs : List (Segment unit least)) :
    freeAt ps a (bs ++ cs) = freeAt ps a bs ++ freeAt ps (a + total bs) cs := by
  induction bs generalizing a with
  | nil => rfl
  | cons b bs ih => rw [List.cons_append, freeAt, ih, total_cons, Nat.add_assoc, freeAt,
      List.cons_append]

/-- Only which segments lie at the addresses matters. -/
theorem freeAt_congr {ps qs : List Nat} {a : Nat} {bs : List (Segment unit least)}
    (h : ∀ p b, (p, b) ∈ located a bs → (p ∈ ps ↔ p ∈ qs)) : freeAt ps a bs = freeAt qs a bs := by
  induction bs generalizing a with
  | nil => rfl
  | cons b bs ih =>
      have hb := h a b (by simp)
      rw [freeAt, freeAt, ih fun p c hc => h p c (List.mem_cons_of_mem _ hc)]
      simp only [hb]

/-- Marked at every used segment, a list is free. -/
theorem freeAt_free {ps : List Nat} {a : Nat} {bs : List (Segment unit least)}
    (h : ∀ p c, (p, c) ∈ located a bs → c.alloc = true → p ∈ ps) :
    ∀ b ∈ freeAt ps a bs, b.alloc = false := by
  induction bs generalizing a with
  | nil => simp [freeAt]
  | cons c cs ih =>
      rw [freeAt]
      refine List.forall_mem_cons.mpr ⟨?_, ih fun p d hd => h p d (List.mem_cons_of_mem _ hd)⟩
      split
      · rfl
      · next hmem =>
        rw [← Bool.not_eq_true]
        exact fun hused => hmem (h a c (by simp) hused)

/-- **One more release.** In the normal form of a list in which the segments at `ps` are marked free,
another used segment is where it was; releasing it leaves the normal form of the list in which it is
marked as well. -/
theorem Focus.release_freeAt (hl : 0 < least) {f : Focus unit least} {ps : List Nat} {a : Nat}
    (hused : f.mid.alloc = true) (hp : a + f.offset ∉ ps) :
    ∃ g : Focus unit least, g.list = joinFree (freeAt ps a f.list) ∧ g.offset = f.offset ∧
      g.release.list = joinFree (freeAt ((a + f.offset) :: ps) a f.list) := by
  let post := freeAt ps (a + f.offset + f.mid.size) f.post
  let g : Focus unit least := ⟨joinFree (freeAt ps a f.pre), f.mid, joinFree post⟩
  have hpos := f.mid.least_le
  have hlist : freeAt ps a f.list = freeAt ps a f.pre ++ f.mid :: post := by
    rw [Focus.list, freeAt_append, freeAt]
    congr 2
    exact if_neg hp
  -- no other segment starts where the new one does
  have hpre : freeAt ((a + f.offset) :: ps) a f.pre = freeAt ps a f.pre := by
    refine freeAt_congr fun p b hb => ?_
    have hend := (bounds_of_mem_located hb).2
    have hble := b.least_le
    have hne : p ≠ a + f.offset := by
      rw [Focus.offset]
      omega
    simp [hne]
  have hpost : freeAt ((a + f.offset) :: ps) (a + f.offset + f.mid.size) f.post = post := by
    refine freeAt_congr fun p b hb => ?_
    have hstart := (bounds_of_mem_located hb).1
    have hne : p ≠ a + f.offset := by omega
    simp [hne]
  have hlist' : freeAt ((a + f.offset) :: ps) a f.list
      = freeAt ps a f.pre ++ f.mid.freed :: post := by
    rw [Focus.list, freeAt_append, freeAt, hpre]
    congr 2
    exact if_pos List.mem_cons_self
  have hg : g.list = joinFree (freeAt ps a f.list) := by
    rw [hlist, joinFree_append_used hused]
    rfl
  refine ⟨g, hg, by simp [g, Focus.offset], ?_⟩
  have hcoal : Coalesced g.list := hg ▸ coalesced_joinFree _
  rw [Focus.release_list_eq hcoal, hlist', joinFree_append_left, List.append_cons,
    joinFree_append_right, ← List.append_cons]

end MallocBench.Segments
