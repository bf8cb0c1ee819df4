import MallocBench.Text.Characters
import Mathlib.Data.List.TakeWhile
import Mathlib.Data.Rat.Defs
import Mathlib.Tactic.FieldSimp
import Mathlib.Tactic.Linarith

/-! # Decimal numerals

What `printf` writes for a number and what `int` and `float` read back. A natural number is printed by
`Nat.toDigits 10`; `fixedPoint` prints a number of units of `10 ^ -d` with `d` digits after the point;
`List.leftpad` gives both a minimum width. Reading is by `digitsValue` (a run of digits of any script)
and `readDecimal` (ASCII digits with at most one point).

* **`digitsValue_toDigits`**, **`readDecimal_toDigits`**, **`readDecimal_fixedPoint`**: what is printed is
  read back.
* **`readDecimal_eq_none_iff`**: of the texts of digits and points, those that are no numeral. -/

namespace MallocBench.Text

/-! ## Runs of digits -/

/-- The value of a run of digits. -/
def digitsValue (s : List Char) : Nat :=
  s.foldl (fun n c => 10 * n + (decimalValue c).getD 0) 0

/-- On ASCII digits this is the core library's reading. -/
theorem digitsValue_ascii {s : List Char} (h : ∀ c ∈ s, isAsciiDigit c = true) :
    digitsValue s = Nat.ofDigitChars 10 s 0 := by
  have hfold : ∀ n, s.foldl (fun n c => 10 * n + (decimalValue c).getD 0) n =
      Nat.ofDigitChars 10 s n := by
    induction s with
    | nil => simp
    | cons c s ih =>
        intro n
        rw [List.foldl_cons, Nat.ofDigitChars_cons, ih fun d hd => h d (List.mem_cons_of_mem _ hd),
          decimalValue_ascii (h c List.mem_cons_self)]
        rfl
  exact hfold 0

/-- The digits `printf` writes are ASCII digits. -/
theorem isAsciiDigit_toDigits {n : Nat} {c : Char} (h : c ∈ Nat.toDigits 10 n) :
    isAsciiDigit c = true := by
  have hdigit := Nat.isDigit_of_mem_toDigits (by decide) (by decide) h
  rw [isAsciiDigit_iff]
  simp only [Char.isDigit, Bool.and_eq_true, decide_eq_true_eq, ge_iff_le, UInt32.le_iff_toNat_le]
    at hdigit
  change 48 ≤ c.toNat ∧ c.toNat ≤ 57 at hdigit
  omega

/-- **A printed natural number is read back.** -/
theorem digitsValue_toDigits (n : Nat) : digitsValue (Nat.toDigits 10 n) = n := by
  rw [digitsValue_ascii fun _ => isAsciiDigit_toDigits, Nat.ofDigitChars_ten_toDigits]

/-- Different numbers have different digits. -/
theorem toDigits_inj {m n : Nat} (h : Nat.toDigits 10 m = Nat.toDigits 10 n) : m = n := by
  rw [← digitsValue_toDigits m, h, digitsValue_toDigits]

/-! ## Numerals with a point -/

/-- `m` units of `10 ^ -d`, printed with `d` digits after the point. -/
def fixedPoint (d m : Nat) : List Char :=
  Nat.toDigits 10 (m / 10 ^ d) ++ '.' :: List.leftpad d '0' (Nat.toDigits 10 (m % 10 ^ d))

/-- The number with these digits before and after the point. -/
def decimalOf (whole fraction : List Char) : Option ℚ :=
  if whole ++ fraction ≠ [] ∧ (whole ++ fraction).all isAsciiDigit = true then
    some (digitsValue (whole ++ fraction) / 10 ^ fraction.length)
  else none

/-- The number a text of ASCII digits and at most one point stands for. -/
def readDecimal (s : List Char) : Option ℚ :=
  decimalOf (s.takeWhile (· ≠ '.')) (s.dropWhile (· ≠ '.')).tail

/-- A digit is no point. -/
theorem ne_point {c : Char} (h : isAsciiDigit c = true) : c ≠ '.' := by
  rintro rfl
  exact absurd h (by decide)

/-- Reading digits without a point. -/
theorem readDecimal_digits {s : List Char} (hne : s ≠ []) (h : ∀ c ∈ s, isAsciiDigit c = true) :
    readDecimal s = some (digitsValue s : ℚ) := by
  have htake : s.takeWhile (· ≠ '.') = s := by
    rw [List.takeWhile_eq_self_iff]
    intro c hc
    simpa using ne_point (h c hc)
  have hdrop : s.dropWhile (· ≠ '.') = [] := by
    rw [List.dropWhile_eq_nil_iff]
    intro c hc
    simpa using ne_point (h c hc)
  unfold readDecimal decimalOf
  rw [htake, hdrop, List.tail_nil, List.append_nil, if_pos ⟨hne, List.all_eq_true.mpr h⟩,
    List.length_nil, pow_zero, div_one]

/-- Reading around the first point. -/
theorem readDecimal_point {whole : List Char} (h : '.' ∉ whole) (fraction : List Char) :
    readDecimal (whole ++ '.' :: fraction) = decimalOf whole fraction := by
  have hwhole : ∀ c ∈ whole, decide (c ≠ '.') = true := by
    intro c hc
    have hne : c ≠ '.' := fun heq => h (heq ▸ hc)
    simpa using hne
  have htake : (whole ++ '.' :: fraction).takeWhile (· ≠ '.') = whole := by
    rw [List.takeWhile_append_of_pos hwhole, List.takeWhile_cons_of_neg (by simp), List.append_nil]
  have hdrop : (whole ++ '.' :: fraction).dropWhile (· ≠ '.') = '.' :: fraction := by
    rw [List.dropWhile_append_of_pos hwhole, List.dropWhile_cons_of_neg (by simp)]
  unfold readDecimal
  rw [htake, hdrop, List.tail_cons]

/-- Digits are read unless there are none. -/
theorem decimalOf_eq_none_iff {whole fraction : List Char}
    (h : ∀ c ∈ whole ++ fraction, isAsciiDigit c = true) :
    decimalOf whole fraction = none ↔ whole ++ fraction = [] := by
  unfold decimalOf
  by_cases hne : whole ++ fraction = []
  · rw [if_neg fun hall => hall.1 hne]
    exact iff_of_true rfl hne
  · rw [if_pos ⟨hne, List.all_eq_true.mpr h⟩]
    exact iff_of_false (by simp) hne

/-- A natural number is read back by `float` too. -/
theorem readDecimal_toDigits (n : Nat) : readDecimal (Nat.toDigits 10 n) = some (n : ℚ) := by
  rw [readDecimal_digits Nat.toDigits_ne_nil fun _ => isAsciiDigit_toDigits, digitsValue_toDigits]

/-- The digits after the point fill their width. -/
theorem length_fraction {d : Nat} (hd : 0 < d) (m : Nat) :
    (List.leftpad d '0' (Nat.toDigits 10 (m % 10 ^ d))).length = d := by
  have hlt : m % 10 ^ d < 10 ^ d := Nat.mod_lt m (by positivity)
  have hle := (Nat.length_toDigits_le_iff (b := 10) (by decide) hd).mpr hlt
  rw [List.length_leftpad]
  omega

/-- All characters of the two parts are digits. -/
theorem isAsciiDigit_fixedPoint {d m : Nat} {c : Char} (h : c ∈ Nat.toDigits 10 (m / 10 ^ d) ++
    List.leftpad d '0' (Nat.toDigits 10 (m % 10 ^ d))) : isAsciiDigit c = true := by
  rw [List.mem_append, List.leftpad, List.mem_append, List.mem_replicate] at h
  rcases h with h | ⟨-, rfl⟩ | h
  · exact isAsciiDigit_toDigits h
  · decide
  · exact isAsciiDigit_toDigits h

/-- The two parts together are the units. -/
theorem digitsValue_fixedPoint {d : Nat} (hd : 0 < d) (m : Nat) :
    digitsValue (Nat.toDigits 10 (m / 10 ^ d) ++
      List.leftpad d '0' (Nat.toDigits 10 (m % 10 ^ d))) = m := by
  have hfraction :
      Nat.ofDigitChars 10 (List.leftpad d '0' (Nat.toDigits 10 (m % 10 ^ d))) 0 = m % 10 ^ d := by
    rw [List.leftpad, Nat.ofDigitChars_append, Nat.ofDigitChars_replicate_zero, Nat.mul_zero,
      Nat.ofDigitChars_ten_toDigits]
  rw [digitsValue_ascii fun _ => isAsciiDigit_fixedPoint, Nat.ofDigitChars_append,
    Nat.ofDigitChars_eq_ofDigitChars_zero, hfraction, length_fraction hd,
    Nat.ofDigitChars_ten_toDigits]
  exact Nat.div_add_mod m (10 ^ d)

/-- **A printed fixed-point number is read back.** -/
theorem readDecimal_fixedPoint {d : Nat} (hd : 0 < d) (m : Nat) :
    readDecimal (fixedPoint d m) = some (m / 10 ^ d : ℚ) := by
  have hpoint : '.' ∉ Nat.toDigits 10 (m / 10 ^ d) := fun h =>
    ne_point (isAsciiDigit_toDigits h) rfl
  have hne : Nat.toDigits 10 (m / 10 ^ d) ++
      List.leftpad d '0' (Nat.toDigits 10 (m % 10 ^ d)) ≠ [] :=
    List.append_ne_nil_of_left_ne_nil Nat.toDigits_ne_nil _
  have hall : (Nat.toDigits 10 (m / 10 ^ d) ++
      List.leftpad d '0' (Nat.toDigits 10 (m % 10 ^ d))).all isAsciiDigit = true :=
    List.all_eq_true.mpr fun _ => isAsciiDigit_fixedPoint
  unfold fixedPoint
  rw [readDecimal_point hpoint, decimalOf, if_pos ⟨hne, hall⟩,
    digitsValue_fixedPoint hd, length_fraction hd]

/-- Between the points there are digits only. -/
theorem isAsciiDigit_of_notMem_point {s t : List Char}
    (h : ∀ c ∈ s, isAsciiDigit c = true ∨ c = '.') (ht : ∀ c ∈ t, c ∈ s) (hpoint : '.' ∉ t) :
    ∀ c ∈ t, isAsciiDigit c = true := by
  intro c hc
  refine (h c (ht c hc)).resolve_right ?_
  rintro rfl
  exact hpoint hc

/-- **The texts of digits and points that are no numeral**: those without a digit and those with two
points. -/
theorem readDecimal_eq_none_iff {s : List Char}
    (h : ∀ c ∈ s, isAsciiDigit c = true ∨ c = '.') :
    readDecimal s = none ↔ (∀ c ∈ s, c = '.') ∨ 2 ≤ s.count '.' := by
  by_cases hpoint : '.' ∈ s
  · obtain ⟨whole, fraction, rfl, hwhole⟩ := List.eq_append_cons_of_mem hpoint
    rw [readDecimal_point hwhole, List.count_append, List.count_eq_zero.mpr hwhole,
      List.count_cons_self]
    by_cases hsecond : '.' ∈ fraction
    · -- a second point is no digit
      have hbad : ¬ (whole ++ fraction ≠ [] ∧ (whole ++ fraction).all isAsciiDigit = true) := by
        rintro ⟨-, hall⟩
        exact ne_point (List.all_eq_true.mp hall _ (List.mem_append_right _ hsecond)) rfl
      have hcount : 0 < fraction.count '.' := List.count_pos_iff.mpr hsecond
      unfold decimalOf
      rw [if_neg hbad]
      exact iff_of_true rfl (Or.inr (by omega))
    · have hall : ∀ c ∈ whole ++ fraction, isAsciiDigit c = true := by
        refine isAsciiDigit_of_notMem_point h (fun c hc => ?_) ?_
        · rcases List.mem_append.mp hc with hc | hc
          · exact List.mem_append_left _ hc
          · exact List.mem_append_right _ (List.mem_cons_of_mem _ hc)
        · rw [List.mem_append]
          exact not_or.mpr ⟨hwhole, hsecond⟩
      rw [List.count_eq_zero.mpr hsecond, decimalOf_eq_none_iff hall]
      constructor
      · intro hnil
        rw [List.append_eq_nil_iff] at hnil
        left
        rw [hnil.1, hnil.2]
        simp
      · rintro (honly | htwo)
        · rw [List.eq_nil_iff_forall_not_mem]
          intro c hc
          have hmem : c ∈ whole ++ '.' :: fraction := by
            rcases List.mem_append.mp hc with hc | hc
            · exact List.mem_append_left _ hc
            · exact List.mem_append_right _ (List.mem_cons_of_mem _ hc)
          exact ne_point (hall c hc) (honly c hmem)
        · omega
  · have hall := isAsciiDigit_of_notMem_point h (fun _ hc => hc) hpoint
    rw [List.count_eq_zero.mpr hpoint]
    by_cases hs : s = []
    · subst hs
      exact iff_of_true rfl (Or.inl (by simp))
    · rw [readDecimal_digits hs hall]
      refine iff_of_false (by simp) ?_
      rintro (honly | htwo)
      · obtain ⟨c, hc⟩ := List.exists_mem_of_ne_nil s hs
        exact hpoint (honly c hc ▸ hc)
      · omega

end MallocBench.Text
