import Mathlib.Data.List.Basic
import Mathlib.Order.Lattice
import Mathlib.Tactic.Common

/-! # Ranking a list

Sort a list by a key, then number the items that qualify with a running counter. The numbers are
`1, 2, …` without a gap, and stand at the front, when the key puts the items that qualify before the
others.

* **`pairwise_mergeSort_key`**: a stable sort whose comparison is that of a key, on the items of the list,
  sorts by the key.
* **`mergeSort_key_perm`**: when the keys are distinct, only the items matter, not their order.
* **`filter_append_filter_of_pairwise`**: a list in which nothing that qualifies follows something that
  does not is what qualifies, then the rest.
* **`number_append`**: what the counter does on such a list. -/

namespace MallocBench.Ranking

variable {α κ : Type}

/-! ## Sorting by a key -/

/-- Sorting depends on the comparisons of the items of the list only. -/
theorem mergeSort_congr {le le' : α → α → Bool} {l : List α}
    (h : ∀ a ∈ l, ∀ b ∈ l, le a b = le' a b) : l.mergeSort le = l.mergeSort le' := by
  have hmap := List.map_mergeSort (f := id) (r := le) (s := le') h
  rwa [List.map_id, List.map_id] at hmap

/-- **A sort by a key**: no item has a smaller key than one before it. -/
theorem pairwise_mergeSort_key [LinearOrder κ] {le : α → α → Bool} {key : α → κ} {l : List α}
    (h : ∀ a ∈ l, ∀ b ∈ l, le a b = decide (key a ≤ key b)) :
    (l.mergeSort le).Pairwise fun a b => key a ≤ key b := by
  have hkey : l.mergeSort le = l.mergeSort fun a b => decide (key a ≤ key b) := mergeSort_congr h
  have htrans : ∀ a b c : α, decide (key a ≤ key b) = true → decide (key b ≤ key c) = true →
      decide (key a ≤ key c) = true :=
    fun a b c hab hbc => decide_eq_true (le_trans (of_decide_eq_true hab) (of_decide_eq_true hbc))
  have htotal : ∀ a b : α, (decide (key a ≤ key b) || decide (key b ≤ key a)) = true :=
    fun a b => by simpa using le_total (key a) (key b)
  rw [hkey]
  exact (List.pairwise_mergeSort htrans htotal l).imp of_decide_eq_true

/-- **A sort by a key that tells the items apart** does not depend on the order they come in. -/
theorem mergeSort_key_perm [LinearOrder κ] {le : α → α → Bool} {key : α → κ} {l l' : List α}
    (h : ∀ a ∈ l, ∀ b ∈ l, le a b = decide (key a ≤ key b))
    (hinj : ∀ a ∈ l, ∀ b ∈ l, key a = key b → a = b) (hperm : l'.Perm l) :
    l'.mergeSort le = l.mergeSort le := by
  have h' : ∀ a ∈ l', ∀ b ∈ l', le a b = decide (key a ≤ key b) :=
    fun a ha b hb => h a (hperm.mem_iff.mp ha) b (hperm.mem_iff.mp hb)
  have hsorted : (l'.mergeSort le).Perm (l.mergeSort le) :=
    ((List.mergeSort_perm l' le).trans hperm).trans (List.mergeSort_perm l le).symm
  refine hsorted.eq_of_pairwise (fun a b ha hb hab hba => ?_) (pairwise_mergeSort_key h')
    (pairwise_mergeSort_key h)
  exact hinj a (hperm.mem_iff.mp (List.mem_mergeSort.mp ha)) b (List.mem_mergeSort.mp hb)
    (le_antisymm hab hba)

/-! ## Items that qualify -/

/-- A list in which whatever precedes an item that qualifies qualifies. -/
theorem filter_append_filter_of_pairwise {p : α → Bool} {l : List α}
    (h : l.Pairwise fun a b => p b = true → p a = true) :
    l.filter p ++ l.filter (fun a => !p a) = l := by
  induction l with
  | nil => rfl
  | cons a l ih =>
      obtain ⟨hhead, htail⟩ := List.pairwise_cons.mp h
      cases ha : p a with
      | true => simp [ha, ih htail]
      | false =>
          -- nothing in the tail qualifies either
          have hnone : ∀ b ∈ l, p b = false := by
            intro b hb
            by_contra hpb
            have := hhead b hb (by simpa using hpb)
            simp [ha] at this
          have hp : l.filter p = [] := List.filter_eq_nil_iff.mpr fun b hb => by simp [hnone b hb]
          have hq : l.filter (fun a => !p a) = l :=
            List.filter_eq_self.mpr fun b hb => by simp [hnone b hb]
          simp [ha, hp, hq]

/-- Number the items that qualify from `n` on; the others get no number. -/
def number (p : α → Bool) : Nat → List α → List (Option Nat × α)
  | _, [] => []
  | n, a :: l => if p a then (some n, a) :: number p (n + 1) l else (none, a) :: number p n l

/-- What does not qualify gets no number. -/
theorem number_of_none {p : α → Bool} {l : List α} (h : ∀ a ∈ l, p a = false) (n : Nat) :
    number p n l = l.map fun a => (none, a) := by
  induction l with
  | nil => rfl
  | cons a l ih =>
      have ha := h a List.mem_cons_self
      rw [number, if_neg (by simp [ha]), ih fun b hb => h b (List.mem_cons_of_mem _ hb)]
      rfl

/-- **Ranks without a gap**: what qualifies is numbered `n, n + 1, …` when it comes first. -/
theorem number_append {p : α → Bool} {xs ys : List α} (hx : ∀ a ∈ xs, p a = true)
    (hy : ∀ a ∈ ys, p a = false) (n : Nat) :
    number p n (xs ++ ys) = (xs.zipIdx n).map (fun e => (some e.2, e.1)) ++
      ys.map fun a => (none, a) := by
  induction xs generalizing n with
  | nil => exact number_of_none hy n
  | cons a xs ih =>
      have ha := hx a List.mem_cons_self
      rw [List.cons_append, number, if_pos ha, ih fun b hb => hx b (List.mem_cons_of_mem _ hb)]
      rfl

end MallocBench.Ranking
