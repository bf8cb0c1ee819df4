import MallocBench.Numbers.SignedFloats

/-! # Exact arithmetic

The rational numbers as numbers of a formula. Only `round` is not exact: it goes to the nearest multiple
of a power of ten. `SignedArithmetic` adds differences to the operations of a formula.

* **`abs_round_sub_le`**: rounding to `d` places is off by at most half of the last one.
* **`pyMin_eq_min`**: Python's `min` is the minimum. -/

namespace MallocBench.Numbers

/-- The operations of a formula with differences. -/
class SignedArithmetic (α : Type) extends Arithmetic α where
  sub : α → α → α

instance : SignedArithmetic PyFloat where
  sub x y := x.add y.neg

instance : SignedArithmetic ℚ where
  constant := id
  add x y := x + y
  mul x y := x * y
  divide x y := x / y
  lt x y := x < y
  le x y := x ≤ y
  round digits x := roundHalfEven (x * 10 ^ digits) / 10 ^ digits
  sub x y := x - y

namespace Exact

variable (x y : ℚ)

/-- A constant of the formulas is itself. -/
@[simp] theorem constant_eq : Arithmetic.constant x = x := rfl

/-- The sum of the formulas is that of the numbers. -/
@[simp] theorem add_eq : Arithmetic.add x y = x + y := rfl

/-- So is the product. -/
@[simp] theorem mul_eq : Arithmetic.mul x y = x * y := rfl

/-- So is the quotient. -/
@[simp] theorem divide_eq : Arithmetic.divide x y = x / y := rfl

/-- So is the difference. -/
@[simp] theorem sub_eq : SignedArithmetic.sub x y = x - y := rfl

/-- The comparison of the formulas is that of the numbers. -/
theorem lt_eq : Arithmetic.lt x y = decide (x < y) := rfl

/-- The same for the weak comparison. -/
theorem le_eq : Arithmetic.le x y = decide (x ≤ y) := rfl

/-- **The error of rounding to a number of places.** -/
theorem abs_round_sub_le (digits : Nat) :
    |Arithmetic.round digits x - x| ≤ 1 / (2 * 10 ^ digits) := by
  have hpos : (0 : ℚ) < 10 ^ digits := by positivity
  have herror := abs_roundHalfEven_sub_le (x * 10 ^ digits)
  have hsplit : (Arithmetic.round digits x - x) * 10 ^ digits =
      roundHalfEven (x * 10 ^ digits) - x * 10 ^ digits := by
    show (roundHalfEven (x * 10 ^ digits) / 10 ^ digits - x) * 10 ^ digits = _
    field_simp
  rw [← hsplit, abs_mul, abs_of_pos hpos] at herror
  rw [← div_div]
  exact (le_div_iff₀ hpos).mpr herror

/-- `min` of two exact numbers. -/
theorem pyMin_eq_min : pyMin x y = min x y := by
  rw [pyMin, lt_eq]
  by_cases h : y < x
  · rw [if_pos (decide_eq_true h), min_eq_right h.le]
  · rw [if_neg (by simpa using h), min_eq_left (not_lt.mp h)]

end Exact

end MallocBench.Numbers
