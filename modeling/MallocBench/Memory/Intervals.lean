import Mathlib.Algebra.BigOperators.Group.Finset.Basic
import Mathlib.Algebra.Order.BigOperators.Group.Finset
import Mathlib.Order.CompletePartialOrder
import Mathlib.Order.Interval.Finset.Nat
import Mathlib.Order.Interval.Set.Basic
import Mathlib.Order.Interval.Set.Disjoint

/-! # Meeting intervals

Two nonempty closed intervals of a linear order are disjoint when one ends before the other starts.
If they meet, then in one of three ways: an endpoint of the first lies in the second (two ways), or
the first strictly surrounds the second (`not_disjoint_Icc_iff`). Disjoint intervals inside another one
are together no longer than that (`sum_length_le`). -/

namespace MallocBench.Intervals

open Set

variable {α : Type*} [LinearOrder α] {a b c d : α}

/-- **Disjoint intervals**: one ends before the other starts. -/
theorem disjoint_Icc_iff (hab : a ≤ b) (hcd : c ≤ d) :
    Disjoint (Icc a b) (Icc c d) ↔ b < c ∨ d < a := by
  constructor
  · intro h
    by_contra hn
    rw [not_or, not_lt, not_lt] at hn
    -- the larger of the two lower ends lies in both
    have hleft : max a c ∈ Icc a b := ⟨le_max_left a c, max_le hab hn.1⟩
    have hright : max a c ∈ Icc c d := ⟨le_max_right a c, max_le hn.2 hcd⟩
    exact disjoint_left.mp h hleft hright
  · rintro (h | h)
    · exact disjoint_left.mpr fun x hx hx' => absurd (lt_of_le_of_lt hx.2 h) (not_lt.mpr hx'.1)
    · exact disjoint_left.mpr fun x hx hx' => absurd (lt_of_le_of_lt hx'.2 h) (not_lt.mpr hx.1)

/-- **Meeting intervals**: an endpoint of the first lies in the second, or the first strictly
surrounds the second. -/
theorem not_disjoint_Icc_iff (hab : a ≤ b) (hcd : c ≤ d) :
    ¬ Disjoint (Icc a b) (Icc c d) ↔ a ∈ Icc c d ∨ b ∈ Icc c d ∨ (a < c ∧ d < b) := by
  rw [disjoint_Icc_iff hab hcd, not_or, not_lt, not_lt]
  constructor
  · rintro ⟨hcb, had⟩
    by_cases hca : c ≤ a
    · exact Or.inl ⟨hca, had⟩
    · by_cases hbd : b ≤ d
      · exact Or.inr (Or.inl ⟨hcb, hbd⟩)
      · exact Or.inr (Or.inr ⟨not_le.mp hca, not_le.mp hbd⟩)
  · rintro (h | h | h)
    · exact ⟨le_trans h.1 hab, h.2⟩
    · exact ⟨h.1, le_trans hab h.2⟩
    · exact ⟨le_trans hcd h.2.le, le_trans h.1.le hcd⟩

/-- **Packing intervals.** Pairwise disjoint intervals of naturals that lie between `lo` and `hi` have
lengths that add up to `hi - lo` at most. -/
theorem sum_length_le {ι : Type*} (s : Finset ι) (start length : ι → ℕ) {lo hi : ℕ}
    (hin : ∀ i ∈ s, lo ≤ start i ∧ start i + length i ≤ hi)
    (hapart : ∀ i ∈ s, ∀ j ∈ s, i ≠ j →
      start i + length i ≤ start j ∨ start j + length j ≤ start i) :
    ∑ i ∈ s, length i ≤ hi - lo := by
  classical
  have hdisjoint : (s : Set ι).PairwiseDisjoint fun i => Finset.Ico (start i) (start i + length i) := by
    intro i hi j hj hij
    refine Finset.disjoint_left.mpr fun x hxi hxj => ?_
    rw [Finset.mem_Ico] at hxi hxj
    have := hapart i hi j hj hij
    omega
  have hsub : (s.biUnion fun i => Finset.Ico (start i) (start i + length i)) ⊆ Finset.Ico lo hi := by
    intro x hx
    obtain ⟨i, hi, hx⟩ := Finset.mem_biUnion.mp hx
    have := hin i hi
    rw [Finset.mem_Ico] at hx ⊢
    omega
  calc ∑ i ∈ s, length i
      = ∑ i ∈ s, (Finset.Ico (start i) (start i + length i)).card := by
        simp only [Nat.card_Ico, Nat.add_sub_cancel_left]
    _ = (s.biUnion fun i => Finset.Ico (start i) (start i + length i)).card :=
        (Finset.card_biUnion hdisjoint).symm
    _ ≤ (Finset.Ico lo hi).card := Finset.card_le_card hsub
    _ = hi - lo := Nat.card_Ico lo hi

end MallocBench.Intervals
