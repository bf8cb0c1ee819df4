import MallocBench.Numbers.Conversions
import Mathlib.Algebra.Order.Ring.WithTop
import Mathlib.Order.WithBot

/-! # Floats with a sign

Python's `float`: a sign and a magnitude, or not a number. Arithmetic is that of the magnitudes, which
round to nearest; comparisons are those of the values on the extended number line, and false for what is
not a number. `Arithmetic` is what a formula needs of its numbers, so that it can be read over the floats
and over exact ones.

* **`PyFloat.lt_iff`**, **`PyFloat.eq_iff`**: comparisons are comparisons of values.
* **`PyFloat.NonNeg`**: the floats that are not below zero are closed under sums and roundings, and so are
  the finite ones under products and quotients. -/

namespace MallocBench.Numbers

/-- The operations of a formula. -/
class Arithmetic (α : Type) where
  /-- The number nearest to a constant. -/
  constant : ℚ → α
  add : α → α → α
  mul : α → α → α
  /-- The quotient by a number that is not zero. -/
  divide : α → α → α
  /-- `<`. -/
  lt : α → α → Bool
  /-- `<=`. -/
  le : α → α → Bool
  /-- `round` to a number of places. -/
  round : Nat → α → α

/-- Python's `min` of two numbers: the first unless the second is smaller. -/
def pyMin {α : Type} [Arithmetic α] (x y : α) : α := if Arithmetic.lt y x then y else x

/-- Zero. -/
def Binary64.zero : Binary64 := ⟨0, by exact_mod_cast isBinary64_natCast (Nat.zero_le _)⟩

/-- Zero is a double. -/
theorem Double.ofRat_zero : Double.ofRat 0 = .finite .zero := Double.ofRat_value Binary64.zero

/-- A `float`. -/
inductive PyFloat where
  | signed (negative : Bool) (magnitude : Double)
  | nan
  deriving DecidableEq

namespace PyFloat

/-- The number with a sign. -/
def signedValue (negative : Bool) (x : Binary64) : ℚ := if negative then -x.value else x.value

/-- The place on the extended number line. What is not a number has none; it gets the lowest. -/
def value : PyFloat → WithBot (WithTop ℚ)
  | signed negative (.finite x) => ((signedValue negative x : WithTop ℚ) : WithBot (WithTop ℚ))
  | signed false .inf => ⊤
  | signed true .inf => ⊥
  | nan => ⊥

/-! ## Comparisons -/

/-- `==`. -/
def eq (x y : PyFloat) : Bool := x ≠ nan && y ≠ nan && x.value = y.value

/-- `<`. -/
def lt (x y : PyFloat) : Bool := x ≠ nan && y ≠ nan && x.value < y.value

/-- `<=`. -/
def le (x y : PyFloat) : Bool := x ≠ nan && y ≠ nan && x.value ≤ y.value

/-- Floats are equal when their values are, unless one is not a number. -/
theorem eq_iff {x y : PyFloat} (hx : x ≠ nan) (hy : y ≠ nan) : x.eq y = true ↔ x.value = y.value := by
  simp [eq, hx, hy]

/-- Floats are compared by their values, unless one is not a number. -/
theorem lt_iff {x y : PyFloat} (hx : x ≠ nan) (hy : y ≠ nan) : x.lt y = true ↔ x.value < y.value := by
  simp [lt, hx, hy]

/-- The same for the weak comparison. -/
theorem le_iff {x y : PyFloat} (hx : x ≠ nan) (hy : y ≠ nan) : x.le y = true ↔ x.value ≤ y.value := by
  simp [le, hx, hy]

/-! ## Arithmetic -/

/-- The float nearest to a number. -/
def ofRat (x : ℚ) : PyFloat := signed (decide (x < 0)) (.ofRat |x|)

/-- The number with its sign changed. -/
def neg : PyFloat → PyFloat
  | signed negative magnitude => signed (!negative) magnitude
  | nan => nan

/-- The sum. A sum of zero is positive unless both numbers are negative zeros. -/
def add : PyFloat → PyFloat → PyFloat
  | signed a (.finite x), signed b (.finite y) =>
    if signedValue a x + signedValue b y = 0 then signed (a && b) (.finite .zero)
    else ofRat (signedValue a x + signedValue b y)
  | signed a .inf, signed b .inf => if a = b then signed a .inf else nan
  | signed a .inf, signed _ (.finite _) => signed a .inf
  | signed _ (.finite _), signed b .inf => signed b .inf
  | nan, _ => nan
  | _, nan => nan

/-- The product. -/
def mul : PyFloat → PyFloat → PyFloat
  | signed a (.finite x), signed b (.finite y) => signed (a ^^ b) (.ofRat (x.value * y.value))
  | signed a .inf, signed b .inf => signed (a ^^ b) .inf
  | signed a .inf, signed b (.finite y) => if y.value = 0 then nan else signed (a ^^ b) .inf
  | signed a (.finite x), signed b .inf => if x.value = 0 then nan else signed (a ^^ b) .inf
  | nan, _ => nan
  | _, nan => nan

/-- The quotient by a number that is not zero. -/
def divide : PyFloat → PyFloat → PyFloat
  | signed a (.finite x), signed b (.finite y) => signed (a ^^ b) (.ofRat (x.value / y.value))
  | signed _ .inf, signed _ .inf => nan
  | signed a .inf, signed b (.finite _) => signed (a ^^ b) .inf
  | signed a (.finite _), signed b .inf => signed (a ^^ b) (.finite .zero)
  | nan, _ => nan
  | _, nan => nan

/-- `round` to a number of places. -/
def round (digits : Nat) : PyFloat → PyFloat
  | signed negative (.finite x) =>
    signed negative (.ofRat (roundHalfEven (x.value * 10 ^ digits) / 10 ^ digits))
  | signed negative .inf => signed negative .inf
  | nan => nan

instance : Arithmetic PyFloat where
  constant := ofRat
  add := add
  mul := mul
  divide := divide
  lt := lt
  le := le
  round := round

/-- `format` with a number of places after the point. -/
def format (digits : Nat) : PyFloat → List Char
  | signed negative (.finite x) =>
    (if negative then ['-'] else []) ++
      Text.fixedPoint digits (roundHalfEven (x.value * 10 ^ digits)).toNat
  | signed negative .inf => (if negative then ['-'] else []) ++ "inf".toList
  | nan => "nan".toList

/-! ## Changing signs -/

/-- The negative of a number is a number. -/
theorem neg_ne_nan {x : PyFloat} (h : x ≠ nan) : x.neg ≠ nan := by
  cases x with
  | signed negative magnitude => simp [neg]
  | nan => exact absurd rfl h

/-- The other sign makes the value negative. -/
theorem signedValue_not (negative : Bool) (x : Binary64) :
    signedValue (!negative) x = -signedValue negative x := by
  cases negative <;> simp [signedValue]

/-- **Changing the signs reverses the order.** -/
theorem neg_value_lt_iff {x y : PyFloat} (hx : x ≠ nan) (hy : y ≠ nan) :
    x.neg.value < y.neg.value ↔ y.value < x.value := by
  match x, y with
  | signed a (.finite x), signed b (.finite y) =>
      simp only [neg, value, signedValue_not]
      norm_cast
      exact neg_lt_neg_iff
  | signed true .inf, signed true .inf => simp [neg, value]
  | signed true .inf, signed false .inf => simp [neg, value]
  | signed false .inf, signed true .inf => simp [neg, value]
  | signed false .inf, signed false .inf => simp [neg, value]
  | signed true .inf, signed _ (.finite _) =>
      simp only [neg, value, Bool.not_true, not_lt_bot, iff_false, not_lt, le_top]
  | signed false .inf, signed _ (.finite y) =>
      refine iff_of_true (WithBot.bot_lt_coe _) ?_
      exact WithBot.coe_lt_coe.mpr (WithTop.coe_lt_top _)
  | signed _ (.finite _), signed true .inf =>
      refine iff_of_true ?_ (WithBot.bot_lt_coe _)
      exact WithBot.coe_lt_coe.mpr (WithTop.coe_lt_top _)
  | signed _ (.finite _), signed false .inf =>
      simp only [neg, value, Bool.not_false, not_lt_bot, false_iff, not_lt, le_top]

/-- Negation is injective on the values of numbers. -/
theorem neg_value_eq_iff {x y : PyFloat} (hx : x ≠ nan) (hy : y ≠ nan) :
    x.neg.value = y.neg.value ↔ x.value = y.value := by
  have hxy := neg_value_lt_iff hx hy
  have hyx := neg_value_lt_iff hy hx
  constructor
  · intro h
    rw [h] at hxy hyx
    exact le_antisymm (not_lt.mp fun hlt => lt_irrefl _ (hxy.mpr hlt))
      (not_lt.mp fun hlt => lt_irrefl _ (hyx.mpr hlt))
  · intro h
    rw [h] at hxy hyx
    exact le_antisymm (not_lt.mp fun hlt => lt_irrefl _ (hyx.mp hlt))
      (not_lt.mp fun hlt => lt_irrefl _ (hxy.mp hlt))

/-! ## Numbers that are not negative -/

/-- The float is a number and not below zero. -/
def NonNeg : PyFloat → Prop
  | signed false _ => True
  | signed true (.finite x) => x.value = 0
  | signed true .inf => False
  | nan => False

/-- The float is a finite number. -/
def IsFinite (x : PyFloat) : Prop := ∃ negative y, x = signed negative (.finite y)

/-- What is not negative is a number. -/
theorem NonNeg.ne_nan {x : PyFloat} (h : x.NonNeg) : x ≠ nan := by
  rintro rfl
  exact h

/-- A finite float is not negative when its value is not. -/
theorem signed_finite_nonNeg_iff {negative : Bool} {x : Binary64} :
    NonNeg (signed negative (.finite x)) ↔ 0 ≤ signedValue negative x := by
  have hx := x.isBinary64.1
  cases negative with
  | false => exact iff_of_true trivial hx
  | true =>
      show x.value = 0 ↔ 0 ≤ -x.value
      constructor
      · intro h
        rw [h, neg_zero]
      · intro h
        linarith

/-- Such a float has its place from zero on. -/
theorem NonNeg.value_nonneg {x : PyFloat} (h : x.NonNeg) : 0 ≤ x.value := by
  match x with
  | signed negative (.finite y) =>
      rw [signed_finite_nonNeg_iff] at h
      simpa [value] using h
  | signed false .inf => exact le_top

/-- A finite number that is not negative, times its sign: only zero has one. -/
theorem signed_zero_nonNeg (negative : Bool) {x : ℚ} (hx : x = 0) :
    NonNeg (signed negative (.ofRat x)) := by
  subst hx
  rw [Double.ofRat_zero]
  cases negative with
  | false => trivial
  | true => rfl

/-- A sum of floats that are not negative is not negative. -/
theorem NonNeg.add {x y : PyFloat} (hx : x.NonNeg) (hy : y.NonNeg) : (x.add y).NonNeg := by
  match x, y with
  | signed a (.finite x), signed b (.finite y) =>
      rw [signed_finite_nonNeg_iff] at hx hy
      rw [PyFloat.add]
      split
      · rw [← Double.ofRat_zero]
        exact signed_zero_nonNeg _ rfl
      · have hneg : decide (signedValue a x + signedValue b y < 0) = false := by
          rw [decide_eq_false_iff_not]
          linarith
        rw [ofRat, hneg]
        trivial
  | signed false .inf, signed false .inf => trivial
  | signed false .inf, signed _ (.finite _) => trivial
  | signed _ (.finite _), signed false .inf => trivial

/-- Neither is a product of finite ones. -/
theorem NonNeg.mul {x y : PyFloat} (hx : x.NonNeg) (hy : y.NonNeg) (hxf : x.IsFinite)
    (hyf : y.IsFinite) : (x.mul y).NonNeg := by
  obtain ⟨a, x, rfl⟩ := hxf
  obtain ⟨b, y, rfl⟩ := hyf
  cases a with
  | false =>
      cases b with
      | false => trivial
      | true => exact signed_zero_nonNeg _ (by rw [show y.value = 0 from hy, mul_zero])
  | true => exact signed_zero_nonNeg _ (by rw [show x.value = 0 from hx, zero_mul])

/-- A product with a positive finite number. -/
theorem NonNeg.mul_pos {x : PyFloat} (hx : x.NonNeg) {y : Binary64} (hy : y.value ≠ 0) :
    (x.mul (signed false (.finite y))).NonNeg := by
  match x with
  | signed a (.finite x) => exact hx.mul trivial ⟨a, x, rfl⟩ ⟨false, y, rfl⟩
  | signed false .inf =>
      rw [PyFloat.mul, if_neg hy]
      trivial

/-- Neither is the quotient of a finite one by one without a sign. -/
theorem NonNeg.divide {x : PyFloat} (hx : x.NonNeg) (hxf : x.IsFinite) (y : Binary64) :
    (x.divide (signed false (.finite y))).NonNeg := by
  obtain ⟨a, x, rfl⟩ := hxf
  cases a with
  | false => trivial
  | true => exact signed_zero_nonNeg _ (by rw [show x.value = 0 from hx, zero_div])

/-- Rounding to a number of digits keeps the sign. -/
theorem NonNeg.round {x : PyFloat} (hx : x.NonNeg) (digits : Nat) : (x.round digits).NonNeg := by
  match x with
  | signed false (.finite x) => trivial
  | signed true (.finite x) =>
      refine signed_zero_nonNeg _ ?_
      rw [show x.value = 0 from hx, zero_mul]
      have hround := roundHalfEven_intCast 0
      rw [Int.cast_zero] at hround
      rw [hround, Int.cast_zero, zero_div]
  | signed false .inf => trivial

/-- A finite number divided by one that is at least 1 stays finite. -/
theorem IsFinite.divide {x : PyFloat} (hx : x.IsFinite) {y : Binary64} (hy : 1 ≤ y.value) :
    (x.divide (signed false (.finite y))).IsFinite := by
  obtain ⟨a, x, rfl⟩ := hx
  have hnonneg := x.isBinary64.1
  have hle : x.value / y.value ≤ x.value := div_le_self hnonneg hy
  have hlt : x.value < overflowThreshold := by
    rw [← nearest_lt_iff, x.isBinary64.2.2]
    exact x.isBinary64.2.1
  cases hq : Double.ofRat (x.value / y.value) with
  | finite q => exact ⟨a ^^ false, q, by rw [PyFloat.divide, hq]⟩
  | inf =>
      rw [Double.ofRat_eq_inf_iff (by positivity)] at hq
      linarith

end PyFloat

end MallocBench.Numbers
