import Mathlib.Data.Finset.Card
import Mathlib.Data.List.Sort
import Mathlib.Order.Bounds.Basic
import Mathlib.Tactic.Common

/-! # The smallest items of a list

A sampler that looks at one item after the other need not keep more than the `k` smallest: those of a
longer list are found among the `k` smallest and the new item.

* **`smallest_concat`**: insert the new item, and drop what comes after the first `k`.
* **`isLeast_smallest`**: the first of them is the least item.
* **`getD_smallest_le_iff`**: the last of them is below a bound iff `k` items are. -/

namespace MallocBench.Smallest

variable {α : Type} [LinearOrder α]

/-! ## Sorted lists -/

/-- There is one way to sort. -/
theorem sorted_unique {l l' : List α} (h : l.Pairwise (· ≤ ·)) (h' : l'.Pairwise (· ≤ ·))
    (hperm : l.Perm l') : l = l' :=
  hperm.eq_of_pairwise' h h'

/-- An item above all others goes to the end. -/
theorem orderedInsert_last {l : List α} {x : α} (h : l.Pairwise (· ≤ ·)) (hx : ∀ y ∈ l, y ≤ x) :
    l.orderedInsert (· ≤ ·) x = l ++ [x] := by
  apply sorted_unique (h.orderedInsert x l)
  · exact List.pairwise_append.mpr ⟨h, List.pairwise_singleton _ x, by simpa using hx⟩
  · exact (List.perm_orderedInsert _ x l).trans (List.perm_append_singleton x l).symm

/-- An item that is not above the last one goes before it. -/
theorem orderedInsert_concat {l : List α} {x y : α} (h : (l ++ [y]).Pairwise (· ≤ ·)) (hxy : x ≤ y) :
    (l ++ [y]).orderedInsert (· ≤ ·) x = l.orderedInsert (· ≤ ·) x ++ [y] := by
  obtain ⟨hl, -, hy⟩ := List.pairwise_append.mp h
  apply sorted_unique (h.orderedInsert x _)
  · refine List.pairwise_append.mpr ⟨hl.orderedInsert x l, List.pairwise_singleton _ y, fun z hz w hw => ?_⟩
    obtain rfl := List.mem_singleton.mp hw
    rcases (List.mem_orderedInsert (· ≤ ·)).mp hz with rfl | hz
    · exact hxy
    · exact hy z hz w List.mem_cons_self
  · have hleft := List.perm_orderedInsert (· ≤ ·) x (l ++ [y])
    have hright := (List.perm_orderedInsert (· ≤ ·) x l).append_right [y]
    exact hleft.trans hright.symm

/-- The first `k` items after an insertion depend on the first `k` before it. -/
theorem take_orderedInsert (x : α) (l : List α) (k : Nat) :
    ((l.take k).orderedInsert (· ≤ ·) x).take k = (l.orderedInsert (· ≤ ·) x).take k := by
  induction l generalizing k with
  | nil => rw [List.take_nil]
  | cons y l ih =>
      cases k with
      | zero => rfl
      | succ k =>
          rw [List.take_succ_cons, List.orderedInsert_cons, List.orderedInsert_cons]
          split
          · rw [List.take_succ_cons, List.take_succ_cons]
            cases k with
            | zero => rfl
            | succ k => rw [List.take_succ_cons, List.take_succ_cons, List.take_take, min_eq_left (by omega)]
          · rw [List.take_succ_cons, List.take_succ_cons, ih]

/-! ## The smallest items -/

/-- The `k` smallest items, in ascending order. -/
def smallest (k : Nat) (xs : List α) : List α := (xs.insertionSort (· ≤ ·)).take k

variable {k : Nat} {xs : List α}

/-- The smallest elements are in order. -/
theorem pairwise_smallest : (smallest k xs).Pairwise (· ≤ ·) :=
  (List.pairwise_insertionSort (· ≤ ·) xs).sublist (List.take_sublist k _)

/-- **One more item** is inserted, and the largest may be dropped. -/
theorem smallest_concat (x : α) :
    smallest k (xs ++ [x]) = ((smallest k xs).orderedInsert (· ≤ ·) x).take k := by
  have hsort : (xs ++ [x]).insertionSort (· ≤ ·) = (xs.insertionSort (· ≤ ·)).orderedInsert (· ≤ ·) x := by
    apply sorted_unique (List.pairwise_insertionSort _ _)
    · exact (List.pairwise_insertionSort _ xs).orderedInsert x _
    · have hleft := (List.perm_insertionSort (· ≤ ·) (xs ++ [x])).trans (List.perm_append_singleton x xs)
      have hright := (List.perm_insertionSort (· ≤ ·) xs).symm.cons x
      exact hleft.trans (hright.trans (List.perm_orderedInsert _ x _).symm)
  rw [smallest, hsort, smallest, take_orderedInsert]

/-- **The first one** is the least. -/
theorem isLeast_smallest (hk : 0 < k) (hne : xs ≠ []) (d : α) :
    IsLeast {x | x ∈ xs} ((smallest k xs).getD 0 d) := by
  obtain ⟨k, rfl⟩ := Nat.exists_eq_succ_of_ne_zero hk.ne'
  have hmem : ∀ x, x ∈ xs.insertionSort (· ≤ ·) ↔ x ∈ xs := fun x => List.mem_insertionSort _
  have hsorted := List.pairwise_insertionSort (· ≤ ·) xs
  rw [smallest]
  cases hsort : xs.insertionSort (· ≤ ·) with
  | nil =>
      have hlength := List.length_insertionSort (· ≤ ·) xs
      rw [hsort] at hlength
      exact absurd (List.eq_nil_of_length_eq_zero hlength.symm) hne
  | cons x rest =>
      rw [hsort] at hmem hsorted
      refine ⟨(hmem x).mp List.mem_cons_self, fun y hy => ?_⟩
      rcases List.mem_cons.mp ((hmem y).mpr hy) with rfl | hy
      · exact le_rfl
      · exact List.rel_of_pairwise_cons hsorted hy

/-- In a sorted list an item is below a bound iff all items up to it are. -/
theorem getElem_le_iff {l : List α} (h : l.Pairwise (· ≤ ·)) {i : Nat} (hi : i < l.length) (b : α) :
    l[i] ≤ b ↔ i < l.countP (· ≤ b) := by
  have hsplit : l = l.take i ++ l[i] :: l.drop (i + 1) := by
    rw [List.getElem_cons_drop, List.take_append_drop]
  obtain ⟨-, hrest, hbefore⟩ := List.pairwise_append.mp (hsplit ▸ h)
  have hafter : ∀ y ∈ l.drop (i + 1), l[i] ≤ y := fun y hy => List.rel_of_pairwise_cons hrest hy
  have htake : (l.take i).length = i := List.length_take_of_le hi.le
  constructor
  · intro hle
    have hall : (l.take i).countP (· ≤ b) = (l.take i).length := by
      refine List.countP_eq_length.mpr fun y hy => ?_
      exact decide_eq_true ((hbefore y hy _ List.mem_cons_self).trans hle)
    rw [hsplit, List.countP_append, hall, List.countP_cons_of_pos (by simpa using hle), htake]
    omega
  · intro hlt
    by_contra hgt
    have hnone : (l[i] :: l.drop (i + 1)).countP (· ≤ b) = 0 := by
      refine List.countP_eq_zero.mpr fun y hy => ?_
      rcases List.mem_cons.mp hy with rfl | hy
      · simpa using hgt
      · simpa using (not_le.mp hgt).trans_le (hafter y hy)
    have hle : (l.take i).countP (· ≤ b) ≤ (l.take i).length := List.countP_le_length
    rw [hsplit, List.countP_append, hnone] at hlt
    omega

/-- **The last one** is below a bound iff as many items are. -/
theorem getD_smallest_le_iff (hk : 0 < k) (hlength : k ≤ xs.length) (b d : α) :
    (smallest k xs).getD (k - 1) d ≤ b ↔ k ≤ xs.countP (· ≤ b) := by
  have hlt : k - 1 < (xs.insertionSort (· ≤ ·)).length := by
    rw [List.length_insertionSort]
    omega
  have hget : (smallest k xs).getD (k - 1) d = (xs.insertionSort (· ≤ ·))[k - 1] := by
    rw [smallest, List.getD_eq_getElem?_getD, List.getElem?_take_of_lt (by omega),
      List.getElem?_eq_getElem hlt, Option.getD_some]
  rw [hget, getElem_le_iff (List.pairwise_insertionSort (· ≤ ·) xs) hlt,
    (List.perm_insertionSort (· ≤ ·) xs).countP_eq]
  omega

end MallocBench.Smallest
