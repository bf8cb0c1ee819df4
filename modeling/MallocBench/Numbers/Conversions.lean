import MallocBench.Numbers.Binary64
import MallocBench.Text.Numerals

/-! # Python's conversions and float arithmetic

The built-in `int` and `float`, on the texts and numbers a program meets that handles no negative number,
with the exceptions they raise: a text that is no numeral or has too many digits (`ValueError`), an
integer too large for a double and an infinite double asked for an integer (`OverflowError`). Then the
arithmetic of `statistics.median` and `round`.

* **`pyInt_eq_ok_iff`**, **`pyFloat_eq_error_iff`**, **`pyFloatOfNat_eq_ok_iff`**: when a conversion raises.
* **`median_ne_inf_iff`**: the median of finite values is finite unless the two middle values overflow. -/

namespace MallocBench.Numbers

open Text

/-- The exceptions: a text or a number that a conversion does not take, and a missing key. -/
inductive PyError where
  | valueError
  | overflowError
  | keyError
  deriving DecidableEq

/-- A sequence of computations returns iff each of them does. -/
theorem bind_eq_ok {ε α β : Type} {x : Except ε α} {f : α → Except ε β} {b : β} :
    x >>= f = .ok b ↔ ∃ a, x = .ok a ∧ f a = .ok b := by
  cases x with
  | error e => exact iff_of_false (by simp [bind, Except.bind]) (by simp)
  | ok a =>
      constructor
      · intro h
        exact ⟨a, rfl, h⟩
      · rintro ⟨a', ha, h⟩
        obtain rfl := Except.ok.inj ha
        exact h

/-- The same for some result. -/
theorem exists_bind_eq_ok {ε α β : Type} {x : Except ε α} {f : α → Except ε β} :
    (∃ b, x >>= f = .ok b) ↔ ∃ a, x = .ok a ∧ ∃ b, f a = .ok b := by
  constructor
  · rintro ⟨b, h⟩
    obtain ⟨a, ha, hb⟩ := bind_eq_ok.mp h
    exact ⟨a, ha, b, hb⟩
  · rintro ⟨a, ha, b, hb⟩
    exact ⟨b, bind_eq_ok.mpr ⟨a, ha, hb⟩⟩

/-! ## Texts to numbers -/

/-- `sys.int_info.default_max_str_digits`. -/
def maxStrDigits : Nat := 4300

/-- `int` of a text without sign, underscore or margins. -/
def pyInt (s : List Char) : Except PyError Nat :=
  if s = [] ∨ s.all isDecimal = false then .error .valueError
  else if maxStrDigits < s.length then .error .valueError
  else .ok (digitsValue s)

/-- `float` of a text without sign, exponent, underscore or margins. -/
def pyFloat (s : List Char) : Except PyError Double :=
  match readDecimal s with
  | some x => .ok (.ofRat x)
  | none => .error .valueError

/-- A run of digits is read unless it is too long. -/
theorem pyInt_eq_ok_iff {s : List Char} (hne : s ≠ []) (h : ∀ c ∈ s, isDecimal c = true) :
    (∃ n, pyInt s = .ok n) ↔ s.length ≤ maxStrDigits := by
  have hdigits : ¬ (s = [] ∨ s.all isDecimal = false) := by
    rintro (hnil | hfalse)
    · exact hne hnil
    · rw [List.all_eq_true.mpr h] at hfalse
      exact Bool.noConfusion hfalse
  unfold pyInt
  rw [if_neg hdigits]
  by_cases hlen : maxStrDigits < s.length
  · rw [if_pos hlen]
    exact iff_of_false (by simp) (by omega)
  · rw [if_neg hlen]
    exact iff_of_true ⟨_, rfl⟩ (by omega)

/-- What is read is the value of the digits. -/
theorem pyInt_value {s : List Char} {n : Nat} (h : pyInt s = .ok n) : n = digitsValue s := by
  unfold pyInt at h
  split at h
  · exact absurd h (by simp)
  · split at h
    · exact absurd h (by simp)
    · exact (Except.ok.inj h).symm

/-- A printed number is read by `int` unless it is too long. -/
theorem pyInt_toDigits (n : Nat) :
    pyInt (Nat.toDigits 10 n) =
      if n < 10 ^ maxStrDigits then .ok n else .error .valueError := by
  have hdigits : ¬ (Nat.toDigits 10 n = [] ∨ (Nat.toDigits 10 n).all isDecimal = false) := by
    rintro (hnil | hfalse)
    · exact Nat.toDigits_ne_nil hnil
    · rw [List.all_eq_true.mpr fun c hc => isDecimal_ascii (isAsciiDigit_toDigits hc)] at hfalse
      exact Bool.noConfusion hfalse
  have hlen := Nat.length_toDigits_le_iff (b := 10) (n := n) (k := maxStrDigits) (by decide) (by decide)
  unfold pyInt
  rw [if_neg hdigits]
  by_cases h : n < 10 ^ maxStrDigits
  · rw [if_neg (not_lt.mpr (hlen.mpr h)), if_pos h, digitsValue_toDigits]
  · rw [if_pos (not_le.mp fun hle => h (hlen.mp hle)), if_neg h]

/-- Digits and points are read unless they are no numeral. -/
theorem pyFloat_eq_ok_iff {s : List Char} (h : ∀ c ∈ s, isAsciiDigit c = true ∨ c = '.') :
    (∃ x, pyFloat s = .ok x) ↔ (∃ c ∈ s, c ≠ '.') ∧ s.count '.' ≤ 1 := by
  have hnone := readDecimal_eq_none_iff h
  unfold pyFloat
  cases hr : readDecimal s with
  | none =>
      refine iff_of_false (by simp) ?_
      rintro ⟨⟨c, hc, hne⟩, hcount⟩
      rcases hnone.mp hr with hall | htwo
      · exact hne (hall c hc)
      · omega
  | some x =>
      refine iff_of_true ⟨_, rfl⟩ ?_
      rw [hr] at hnone
      have hneither := not_or.mp (mt hnone.mpr (by simp))
      push Not at hneither
      exact ⟨hneither.1, by omega⟩

/-! ## Integers and doubles -/

/-- `float` of an integer. -/
def pyFloatOfNat (n : Nat) : Except PyError Binary64 :=
  match Double.ofRat n with
  | .finite x => .ok x
  | .inf => .error .overflowError

/-- `int` of a double. -/
def pyIntOfDouble : Double → Except PyError Nat
  | .finite x => .ok ⌊x.value⌋₊
  | .inf => .error .overflowError

/-- The integer is not too large for a double. -/
def FloatFits (n : Nat) : Prop := (n : ℚ) < overflowThreshold

instance (n : Nat) : Decidable (FloatFits n) := inferInstanceAs (Decidable (_ < _))

/-- An integer below the threshold is converted. -/
theorem pyFloatOfNat_eq_ok_iff {n : Nat} : (∃ x, pyFloatOfNat n = .ok x) ↔ FloatFits n := by
  have hinf := Double.ofRat_eq_inf_iff (x := (n : ℚ)) n.cast_nonneg
  unfold pyFloatOfNat FloatFits
  cases hx : Double.ofRat n with
  | finite x =>
      rw [hx] at hinf
      exact iff_of_true ⟨x, rfl⟩ (not_le.mp (mt hinf.mpr (by simp)))
  | inf => exact iff_of_false (by simp) (not_lt.mpr (hinf.mp hx))

/-- A double that is not infinite has an integer part. -/
theorem pyIntOfDouble_eq_ok_iff {x : Double} : (∃ n, pyIntOfDouble x = .ok n) ↔ x ≠ .inf := by
  cases x with
  | finite x => exact iff_of_true ⟨_, rfl⟩ (by simp)
  | inf => exact iff_of_false (by simp [pyIntOfDouble]) (by simp)

/-! ## Arithmetic -/

namespace Double

/-- The sum. -/
def add : Double → Double → Double
  | .finite x, .finite y => ofRat (x.value + y.value)
  | _, _ => .inf

/-- The quotient of a finite number, by a number that is not zero. -/
def divide (x : Binary64) : Double → Double
  | .finite y => ofRat (x.value / y.value)
  | .inf => ofRat 0

/-- The quotient by a constant. -/
def divideBy (c : ℚ) : Double → Double
  | .finite x => ofRat (x.value / c)
  | .inf => .inf

/-- `round` to three places. -/
def round3 : Double → Double
  | .finite x => ofRat (roundHalfEven (x.value * 1000) / 1000)
  | .inf => .inf

/-- The order. -/
def le : Double → Double → Bool
  | _, .inf => true
  | .inf, .finite _ => false
  | .finite x, .finite y => decide (x.value ≤ y.value)

/-- Half a finite number is finite. -/
theorem divideBy_two_eq_inf_iff (x : Double) : divideBy 2 x = .inf ↔ x = .inf := by
  cases x with
  | inf => exact iff_of_true rfl rfl
  | finite x =>
      have hnonneg := x.isBinary64.1
      have hhalf : x.value / 2 ≤ x.value := by linarith
      refine iff_of_false ?_ (by simp)
      unfold divideBy
      rw [ofRat_eq_inf_iff (by linarith), not_le]
      have hx : x.value < overflowThreshold := by
        rw [← nearest_lt_iff, x.isBinary64.2.2]
        exact x.isBinary64.2.1
      exact hhalf.trans_lt hx

end Double

/-! ## The median -/

/-- The values in ascending order. -/
def sorted (values : List Double) : List Double := values.mergeSort Double.le

/-- The two middle values, one and the same if the number of values is odd. -/
def lowerMiddle (values : List Double) : Double :=
  (sorted values).getD ((values.length - 1) / 2) .inf

/-- The upper of the two. -/
def upperMiddle (values : List Double) : Double :=
  (sorted values).getD (values.length / 2) .inf

/-- `statistics.median` of at least one value. -/
def median (values : List Double) : Double :=
  if values.length % 2 = 1 then upperMiddle values
  else Double.divideBy 2 (Double.add (lowerMiddle values) (upperMiddle values))

/-- The two middle values of an even number of values have a finite sum. -/
def MedianFits (values : List Double) : Prop :=
  values ≠ [] ∧ values.length % 2 = 0 →
    Double.add (lowerMiddle values) (upperMiddle values) ≠ .inf

instance (values : List Double) : Decidable (MedianFits values) :=
  inferInstanceAs (Decidable (_ → _))

/-- A position of the sorted values holds one of the values. -/
theorem getD_sorted_mem {values : List Double} {k : Nat} (h : k < values.length) :
    (sorted values).getD k .inf ∈ values := by
  have hlt : k < (sorted values).length := by
    unfold sorted
    rwa [List.length_mergeSort]
  rw [List.getD_eq_getElem?_getD, List.getElem?_eq_getElem hlt, Option.getD_some]
  exact List.mem_mergeSort.mp (List.getElem_mem hlt)

/-- The upper middle value is one of the values. -/
theorem upperMiddle_mem {values : List Double} (h : values ≠ []) : upperMiddle values ∈ values := by
  have hpos : 0 < values.length := List.length_pos_iff.mpr h
  exact getD_sorted_mem (by omega)

/-- So is the lower one. -/
theorem lowerMiddle_mem {values : List Double} (h : values ≠ []) : lowerMiddle values ∈ values := by
  have hpos : 0 < values.length := List.length_pos_iff.mpr h
  exact getD_sorted_mem (by omega)

/-- **The median of finite values** is finite unless the sum of the two middle ones overflows. -/
theorem median_ne_inf_iff {values : List Double} (hne : values ≠ []) (h : ∀ v ∈ values, v ≠ .inf) :
    median values ≠ .inf ↔ MedianFits values := by
  unfold median MedianFits
  by_cases hodd : values.length % 2 = 1
  · rw [if_pos hodd]
    refine iff_of_true (h _ (upperMiddle_mem hne)) ?_
    rintro ⟨-, heven⟩
    omega
  · rw [if_neg hodd, Ne, Double.divideBy_two_eq_inf_iff]
    constructor
    · intro hsum _
      exact hsum
    · intro hsum
      exact hsum ⟨hne, by omega⟩

end MallocBench.Numbers
