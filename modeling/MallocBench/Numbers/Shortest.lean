import MallocBench.Numbers.Binary64

/-! # The shortest decimal of a double

A double is printed with as few digits as tell it apart from the other doubles. With 17 digits the nearest
decimal is always closer to it than to any other double, so that a search over the numbers of digits ends.

* **`nearest_of_close`**: what differs from a double by at most a part in `2 * 10 ^ 16` is rounded to it.
* **`nearest_shortest`**: the shortest decimal is rounded to the double it is made from. -/

namespace MallocBench.Numbers

/-! ## Rounding to the same double -/

/-- The integer less than half a unit away. -/
theorem roundHalfEven_eq {x : ℚ} {n : ℤ} (h : |x - n| < 1 / 2) : roundHalfEven x = n := by
  have hround := abs_le.mp (abs_roundHalfEven_sub_le x)
  have hclose := abs_lt.mp h
  have hlow : (n : ℚ) - 1 < roundHalfEven x := by linarith
  have hhigh : (roundHalfEven x : ℚ) < n + 1 := by linarith
  have hlow' : n - 1 < roundHalfEven x := by exact_mod_cast hlow
  have hhigh' : roundHalfEven x < n + 1 := by exact_mod_cast hhigh
  omega

/-- A number that is less than half a unit of its own last bit from a multiple of it. -/
theorem nearest_eq {x y : ℚ} {n : ℤ} (hx : x = n * 2 ^ scale y) (h : |y - x| < 2 ^ scale y / 2) :
    nearest y = x := by
  have hpos : (0 : ℚ) < 2 ^ scale y := zpow_pos two_pos _
  have hround : roundHalfEven (y / 2 ^ scale y) = n := by
    apply roundHalfEven_eq
    have hdiv : y / 2 ^ scale y - n = (y - x) / 2 ^ scale y := by
      rw [hx, sub_div, mul_div_cancel_right₀ _ hpos.ne']
    rw [hdiv, abs_div, abs_of_pos hpos, div_lt_iff₀ hpos]
    linarith
  rw [nearest, hround, hx]

/-- **What is close to a double** is rounded to it. -/
theorem nearest_of_close {x y : ℚ} (hx : nearest x = x) (h0 : 0 < x)
    (h : 2 * 10 ^ 16 * |y - x| ≤ x) : nearest y = x := by
  obtain ⟨n, -, hgrid⟩ := nearest_grid h0.le
  rw [hx] at hgrid
  have hw : (0 : ℚ) < 2 ^ scale x := zpow_pos two_pos _
  have hn : n + 1 ≤ 2 ^ 53 := by
    have hlt := hgrid.symm.trans_lt (lt_scale x)
    rw [mul_lt_mul_iff_left₀ hw] at hlt
    exact_mod_cast hlt
  obtain ⟨hlow, hhigh⟩ := abs_le.mp (le_refl |y - x|)
  have hy : 0 < y := by linarith
  -- the last bit of `y` is no heavier
  have hscale : scale y ≤ scale x := by
    have hlt : y < 2 ^ 53 * 2 ^ scale x := by
      have hn' : (n : ℚ) + 1 ≤ 2 ^ 53 := by exact_mod_cast hn
      have hx' := mul_le_mul_of_nonneg_right hn' hw.le
      rw [add_mul, one_mul, ← hgrid] at hx'
      linarith
    have hlog : Int.log 2 y < 53 + scale x := by
      rw [← Int.lt_zpow_iff_log_lt (by decide) hy]
      push_cast
      rw [zpow_add₀ two_ne_zero]
      exact_mod_cast hlt
    have hlow := le_max_right (Int.log 2 x - 52) (-1074)
    unfold scale at hlog hlow ⊢
    omega
  obtain ⟨d, hd⟩ := Int.eq_ofNat_of_zero_le (sub_nonneg.mpr hscale)
  apply nearest_eq (n := n * 2 ^ d)
  · calc x = n * 2 ^ scale x := hgrid
      _ = n * 2 ^ ((d : ℤ) + scale y) := by
          congr 2
          have : scale x - scale y = (d : ℤ) := hd
          omega
      _ = ((n * 2 ^ d : ℤ) : ℚ) * 2 ^ scale y := by
          rw [zpow_add₀ two_ne_zero, zpow_natCast]
          push_cast
          ring
  · -- half a unit of the last bit of `y` is more than `y / 2 ^ 54`
    have := lt_scale y
    linarith

/-! ## The shortest decimal -/

/-- The integer number of `10 ^ k` that is closest to a number, or if it is not rounded to it, the one on
the other side. -/
def decimalAt (x : ℚ) (k : ℤ) : Option ℕ :=
  [(roundHalfEven (x / 10 ^ k)).toNat, ⌊x / 10 ^ k⌋.toNat, ⌈x / 10 ^ k⌉.toNat].find? fun d =>
    nearest (d * 10 ^ k) = x

/-- The first decimal that is rounded to a number, from a weight of the last digit down. -/
def shortestFrom (x : ℚ) : ℕ → ℤ → ℕ × ℤ
  | 0, k => ((roundHalfEven (x / 10 ^ k)).toNat, k)
  | n + 1, k =>
    match decimalAt x k with
    | some d => (d, k)
    | none => shortestFrom x n (k - 1)

/-- The shortest decimal: its digits and the weight of the last one. -/
def shortest (x : ℚ) : ℕ × ℤ := shortestFrom x 16 (Int.log 10 x)

/-- The decimal that is found is rounded to the number. -/
theorem nearest_decimalAt {x : ℚ} {k : ℤ} {d : ℕ} (h : decimalAt x k = some d) :
    nearest (d * 10 ^ k) = x := by
  rw [decimalAt] at h
  exact of_decide_eq_true (List.find?_some (p := fun d : ℕ => decide (nearest (d * 10 ^ k) = x)) h)

/-- 17 digits are enough. -/
theorem nearest_last {x : ℚ} (hx : nearest x = x) (h0 : 0 < x) {k : ℤ} (h : 10 ^ (k + 16) ≤ x) :
    nearest ((roundHalfEven (x / 10 ^ k)).toNat * 10 ^ k) = x := by
  have hpos : (0 : ℚ) < 10 ^ k := zpow_pos (by norm_num) k
  have hnonneg : 0 ≤ roundHalfEven (x / 10 ^ k) :=
    le_roundHalfEven (by rw [Int.cast_zero]; exact (div_pos h0 hpos).le)
  apply nearest_of_close hx h0
  have hround := abs_roundHalfEven_sub_le (x / 10 ^ k)
  have hdiff : (roundHalfEven (x / 10 ^ k)).toNat * 10 ^ k - x =
      (roundHalfEven (x / 10 ^ k) - x / 10 ^ k) * 10 ^ k := by
    rw [sub_mul, div_mul_cancel₀ _ hpos.ne', ← Int.cast_natCast, Int.toNat_of_nonneg hnonneg]
  calc 2 * 10 ^ 16 * |(roundHalfEven (x / 10 ^ k)).toNat * 10 ^ k - x|
      = 2 * 10 ^ 16 * (|roundHalfEven (x / 10 ^ k) - x / 10 ^ k| * 10 ^ k) := by
        rw [hdiff, abs_mul, abs_of_pos hpos]
    _ ≤ 2 * 10 ^ 16 * (1 / 2 * 10 ^ k) := by gcongr
    _ = 10 ^ (k + 16) := by
        rw [zpow_add₀ (by norm_num)]
        norm_num
        ring
    _ ≤ x := h

/-- So is the one with which the search ends, at the latest with 17 digits. -/
theorem nearest_shortestFrom {x : ℚ} (hx : nearest x = x) (h0 : 0 < x) (n : ℕ) {k : ℤ}
    (h : 10 ^ (k - n + 16) ≤ x) :
    nearest ((shortestFrom x n k).1 * 10 ^ (shortestFrom x n k).2) = x := by
  induction n generalizing k with
  | zero => exact nearest_last hx h0 (by simpa using h)
  | succ n ih =>
      rw [shortestFrom]
      split
      · next d hd => exact nearest_decimalAt hd
      · apply ih
        have heq : k - 1 - (n : ℤ) + 16 = k - (n + 1 : ℕ) + 16 := by
          push_cast
          ring
        rwa [heq]

/-- **The shortest decimal** is rounded to the number it is made from. -/
theorem nearest_shortest {x : ℚ} (hx : nearest x = x) (h0 : 0 < x) :
    nearest ((shortest x).1 * 10 ^ (shortest x).2) = x := by
  apply nearest_shortestFrom hx h0
  have hlog := Int.zpow_log_le_self (b := 10) (by decide) h0
  rw [Nat.cast_ofNat, sub_add_cancel]
  exact_mod_cast hlog

end MallocBench.Numbers
