import Mathlib.Data.List.Chain
import Mathlib.Data.List.Basic
import Mathlib.Tactic.Common

/-! # Lists of adjacent segments

A region of an address space cut into adjacent segments, each in use or free. Sizes are multiples
of a `unit` and at least `least`; both facts are fields of `Segment`, so a list of segments cannot
hold an ill-sized one. The file develops what a coalescing allocator needs of such a list:

* `total` and `located`, the sizes summed up and the segments with their addresses;
* `located_disjoint`, segments at different addresses do not overlap;
* `Coalesced`, no two adjacent free segments.

The edits of such a list (merging, cutting, searching) are in `SegmentEdits`. -/

namespace MallocBench.Segments

/-- A segment of an address region: a size that is a multiple of `unit` and at least `least`, and
whether the segment is in use. -/
@[ext] structure Segment (unit least : Nat) where
  /-- The number of addresses the segment spans. -/
  size : Nat
  /-- Whether the segment is in use. -/
  alloc : Bool
  least_le : least ≤ size
  unit_dvd : unit ∣ size
  deriving DecidableEq

variable {unit least : Nat}

namespace Segment

/-- The segment marked free. -/
def freed (b : Segment unit least) : Segment unit least := { b with alloc := false }

/-- The segment marked in use. -/
def used (b : Segment unit least) : Segment unit least := { b with alloc := true }

/-- Two adjacent segments as one free segment. -/
def merge (b c : Segment unit least) : Segment unit least :=
  ⟨b.size + c.size, false, Nat.le_add_right_of_le b.least_le, Nat.dvd_add b.unit_dvd c.unit_dvd⟩

/-- A freed segment is as long. -/
@[simp] theorem freed_size (b : Segment unit least) : b.freed.size = b.size := rfl

/-- It is free. -/
@[simp] theorem freed_alloc (b : Segment unit least) : b.freed.alloc = false := rfl

/-- A segment taken into use is as long. -/
@[simp] theorem used_size (b : Segment unit least) : b.used.size = b.size := rfl

/-- It is in use. -/
@[simp] theorem used_alloc (b : Segment unit least) : b.used.alloc = true := rfl

/-- Two segments as one are as long as both. -/
@[simp] theorem merge_size (b c : Segment unit least) : (b.merge c).size = b.size + c.size := rfl

/-- They are free. -/
@[simp] theorem merge_alloc (b c : Segment unit least) : (b.merge c).alloc = false := rfl

end Segment

/-! ## Sizes and addresses -/

/-- The number of addresses a list of segments spans. -/
def total : List (Segment unit least) → Nat
  | [] => 0
  | b :: bs => b.size + total bs

/-- An empty list spans nothing. -/
@[simp] theorem total_nil : total ([] : List (Segment unit least)) = 0 := rfl

/-- A list spans its first segment and the rest. -/
@[simp] theorem total_cons (b : Segment unit least) (bs : List (Segment unit least)) :
    total (b :: bs) = b.size + total bs := rfl

/-- Two lists span what both span. -/
@[simp] theorem total_append (bs cs : List (Segment unit least)) :
    total (bs ++ cs) = total bs + total cs := by
  induction bs with
  | nil => simp
  | cons b bs ih => simp [ih, Nat.add_assoc]

/-- A last segment adds its size. -/
theorem total_concat (bs : List (Segment unit least)) (b : Segment unit least) :
    total (bs ++ [b]) = total bs + b.size := by simp

/-- No segment is longer than the region. -/
theorem size_le_total {b : Segment unit least} {bs : List (Segment unit least)} (h : b ∈ bs) :
    b.size ≤ total bs := by
  obtain ⟨pre, post, rfl⟩ := List.append_of_mem h
  rw [total_append, total_cons]
  omega

/-- The segments with their addresses, the first one at `a`. -/
def located : Nat → List (Segment unit least) → List (Nat × Segment unit least)
  | _, [] => []
  | a, b :: bs => (a, b) :: located (a + b.size) bs

/-- An empty list locates nothing. -/
@[simp] theorem located_nil (a : Nat) :
    located a ([] : List (Segment unit least)) = [] := rfl

/-- The first segment is at the start, the rest behind it. -/
@[simp] theorem located_cons (a : Nat) (b : Segment unit least) (bs : List (Segment unit least)) :
    located a (b :: bs) = (a, b) :: located (a + b.size) bs := rfl

/-- A located segment is the first one or one of the others. -/
theorem mem_located_cons {a p : Nat} {b c : Segment unit least}
    {bs : List (Segment unit least)} :
    (p, c) ∈ located a (b :: bs) ↔ (p = a ∧ c = b) ∨ (p, c) ∈ located (a + b.size) bs := by
  rw [located_cons, List.mem_cons, Prod.mk.injEq]

/-- Addresses run on across a concatenation. -/
theorem located_append (a : Nat) (bs cs : List (Segment unit least)) :
    located a (bs ++ cs) = located a bs ++ located (a + total bs) cs := by
  induction bs generalizing a with
  | nil => simp
  | cons b bs ih => simp [ih, Nat.add_assoc]

/-- A located segment of a list with one more at the end. -/
theorem mem_located_concat {a p : Nat} {b c : Segment unit least}
    {bs : List (Segment unit least)} :
    (p, c) ∈ located a (bs ++ [b]) ↔ (p, c) ∈ located a bs ∨ (p = a + total bs ∧ c = b) := by
  rw [located_append, List.mem_append, mem_located_cons, located_nil]
  simp

/-- A located segment lies inside the region. -/
theorem bounds_of_mem_located {a p : Nat} {b : Segment unit least}
    {bs : List (Segment unit least)} (h : (p, b) ∈ located a bs) :
    a ≤ p ∧ p + b.size ≤ a + total bs := by
  induction bs generalizing a with
  | nil => simp at h
  | cons c cs ih =>
      rcases mem_located_cons.mp h with ⟨rfl, rfl⟩ | h
      · simp
      · have := ih h
        rw [total_cons]
        omega

/-- A located segment starts a multiple of `unit` above the region's start. -/
theorem dvd_of_mem_located {a p : Nat} {b : Segment unit least}
    {bs : List (Segment unit least)} (h : (p, b) ∈ located a bs) : unit ∣ p - a := by
  induction bs generalizing a with
  | nil => simp at h
  | cons c cs ih =>
      rcases mem_located_cons.mp h with ⟨rfl, rfl⟩ | h
      · simp
      · have hb := bounds_of_mem_located h
        rw [show p - a = (p - (a + c.size)) + c.size by omega]
        exact Nat.dvd_add (ih h) c.unit_dvd

/-- **Located segments are disjoint**: of two at different addresses one ends before the other
starts. -/
theorem located_disjoint {a p q : Nat} {b c : Segment unit least}
    {bs : List (Segment unit least)} (hb : (p, b) ∈ located a bs) (hc : (q, c) ∈ located a bs)
    (hpq : p ≠ q) : p + b.size ≤ q ∨ q + c.size ≤ p := by
  induction bs generalizing a with
  | nil => simp at hb
  | cons d ds ih =>
      rcases mem_located_cons.mp hb with ⟨rfl, rfl⟩ | hb <;>
        rcases mem_located_cons.mp hc with ⟨rfl, rfl⟩ | hc
      · exact absurd rfl hpq
      · exact Or.inl (bounds_of_mem_located hc).1
      · exact Or.inr (bounds_of_mem_located hb).1
      · exact ih hb hc

/-- At one address at most one segment is located, when no segment is empty. -/
theorem located_inj (hl : 0 < least) {a p : Nat} {b c : Segment unit least}
    {bs : List (Segment unit least)} (hb : (p, b) ∈ located a bs) (hc : (p, c) ∈ located a bs) :
    b = c := by
  induction bs generalizing a with
  | nil => simp at hb
  | cons d ds ih =>
      have hd := d.least_le
      rcases mem_located_cons.mp hb with ⟨rfl, rfl⟩ | hb <;>
        rcases mem_located_cons.mp hc with ⟨hpos, rfl⟩ | hc
      · rfl
      · have := bounds_of_mem_located hc
        omega
      · have := bounds_of_mem_located hb
        omega
      · exact ih hb hc

/-- Locating the segments leaves them as they are. -/
theorem map_snd_located (a : Nat) (bs : List (Segment unit least)) :
    (located a bs).map Prod.snd = bs := by
  induction bs generalizing a with
  | nil => rfl
  | cons b bs ih => rw [located_cons, List.map_cons, ih]

/-- What is located is in the list. -/
theorem mem_of_mem_located {a p : Nat} {b : Segment unit least}
    {bs : List (Segment unit least)} (h : (p, b) ∈ located a bs) : b ∈ bs := by
  rw [← map_snd_located a bs]
  exact List.mem_map_of_mem h

/-- Every segment of the list is located somewhere. -/
theorem exists_mem_located (a : Nat) {b : Segment unit least} {bs : List (Segment unit least)}
    (h : b ∈ bs) : ∃ p, (p, b) ∈ located a bs := by
  rw [← map_snd_located a bs] at h
  obtain ⟨⟨p, c⟩, hc, rfl⟩ := List.mem_map.mp h
  exact ⟨p, hc⟩

/-- No address comes twice, the end of the region included, when no segment is empty. -/
theorem located_addresses_nodup (hl : 0 < least) (a : Nat) (bs : List (Segment unit least)) :
    ((located a bs).map Prod.fst ++ [a + total bs]).Nodup := by
  induction bs generalizing a with
  | nil => simp
  | cons b bs ih =>
      have hb := b.least_le
      rw [located_cons, List.map_cons, total_cons, ← Nat.add_assoc]
      refine List.nodup_cons.mpr ⟨fun h => ?_, ih (a + b.size)⟩
      -- every later address is at least the end of the first segment
      rcases List.mem_append.mp h with h | h
      · obtain ⟨⟨p, c⟩, hc, rfl⟩ := List.mem_map.mp h
        have := (bounds_of_mem_located hc).1
        simp only at this
        omega
      · have := List.mem_singleton.mp h
        simp only at this
        omega

/-! ## Coalesced lists -/

/-- No two adjacent segments are both free. -/
def Coalesced (bs : List (Segment unit least)) : Prop :=
  bs.IsChain fun b c => b.alloc = true ∨ c.alloc = true

instance (bs : List (Segment unit least)) : Decidable (Coalesced bs) :=
  inferInstanceAs (Decidable (bs.IsChain fun b c => b.alloc = true ∨ c.alloc = true))

/-- In an empty list free segments are apart. -/
theorem coalesced_nil : Coalesced ([] : List (Segment unit least)) := List.IsChain.nil

/-- A concatenation is coalesced iff both parts are and the seam is not free on both sides. -/
theorem coalesced_append {bs cs : List (Segment unit least)} :
    Coalesced (bs ++ cs) ↔ Coalesced bs ∧ Coalesced cs ∧
      ∀ b ∈ bs.getLast?, ∀ c ∈ cs.head?, b.alloc = true ∨ c.alloc = true :=
  List.isChain_append

/-- A used segment in front keeps a list coalesced. -/
theorem Coalesced.cons_used {b : Segment unit least} {bs : List (Segment unit least)}
    (h : Coalesced bs) (hb : b.alloc = true) : Coalesced (b :: bs) :=
  List.IsChain.cons h fun _ _ => Or.inl hb

/-- A free segment in front of a coalesced list keeps it coalesced when no free one follows. -/
theorem Coalesced.cons_free {b : Segment unit least} {bs : List (Segment unit least)}
    (h : Coalesced bs) (hb : ∀ c ∈ bs.head?, c.alloc = true) : Coalesced (b :: bs) :=
  List.IsChain.cons h fun c hc => Or.inr (hb c hc)

/-- In a coalesced list whatever follows a free segment is in use. -/
theorem Coalesced.head_used {b : Segment unit least} {bs : List (Segment unit least)}
    (h : Coalesced (b :: bs)) (hb : b.alloc = false) : ∀ c ∈ bs.head?, c.alloc = true := by
  intro c hc
  have := (List.isChain_cons.mp h).1 c hc
  simpa [hb] using this

/-- They are apart in the rest of a list. -/
theorem Coalesced.tail {b : Segment unit least} {bs : List (Segment unit least)}
    (h : Coalesced (b :: bs)) : Coalesced bs := (List.isChain_cons.mp h).2

end MallocBench.Segments
