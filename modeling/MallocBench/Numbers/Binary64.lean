import Mathlib.Algebra.Order.Field.Power
import Mathlib.Data.Int.Log
import Mathlib.Data.Rat.Floor
import Mathlib.Tactic.FieldSimp
import Mathlib.Tactic.Linarith
import Mathlib.Tactic.Positivity
import Mathlib.Tactic.Ring

/-! # Double precision numbers that are not negative

A finite double is a rational number that rounding to 53 significant bits (and to a multiple of
`2 ^ -1074`) does not change; `Double` adds infinity. Arithmetic is exact arithmetic followed by
rounding to nearest, ties to even.

* **`isBinary64_of_grid`**: `n * 2 ^ e` with `n ≤ 2 ^ 53` and `-1074 ≤ e` is a double if it is below
  `2 ^ 1024`; so a rounded number is a double (`isBinary64_nearest`) and so is every natural number up to
  `2 ^ 53` (`isBinary64_natCast`).
* **`nearest_lt_iff`**, **`Double.ofRat_eq_inf_iff`**: rounding overflows from `2 ^ 1024 - 2 ^ 970` on. -/

namespace MallocBench.Numbers

/-! ## Rounding to an integer -/

/-- The nearest integer, the even one of two. -/
def roundHalfEven (x : ℚ) : ℤ :=
  if x - ⌊x⌋ < 1 / 2 then ⌊x⌋
  else if 1 / 2 < x - ⌊x⌋ then ⌊x⌋ + 1
  else if Even ⌊x⌋ then ⌊x⌋ else ⌊x⌋ + 1

/-- The result is the integer below or the one above. -/
theorem roundHalfEven_eq_or (x : ℚ) :
    roundHalfEven x = ⌊x⌋ ∨ roundHalfEven x = ⌊x⌋ + 1 ∧ (⌊x⌋ : ℚ) < x := by
  unfold roundHalfEven
  split
  · exact Or.inl rfl
  · next h =>
    have hlt : (⌊x⌋ : ℚ) < x := by
      have := not_lt.mp h
      linarith
    split
    · exact Or.inr ⟨rfl, hlt⟩
    · split
      · exact Or.inl rfl
      · exact Or.inr ⟨rfl, hlt⟩

/-- **The error of rounding** is at most a half. -/
theorem abs_roundHalfEven_sub_le (x : ℚ) : |(roundHalfEven x : ℚ) - x| ≤ 1 / 2 := by
  have hlo := Int.floor_le x
  have hhi := Int.lt_floor_add_one x
  unfold roundHalfEven
  rw [abs_le]
  split
  · next h => constructor <;> linarith
  · next h =>
    have hge := not_lt.mp h
    split
    · next h' =>
      push_cast
      constructor <;> linarith
    · next h' =>
      -- halfway between the two integers
      have hle := not_lt.mp h'
      split
      · constructor <;> linarith
      · push_cast
        constructor <;> linarith

/-- An integer is not rounded. -/
theorem roundHalfEven_intCast (n : ℤ) : roundHalfEven n = n := by
  unfold roundHalfEven
  rw [Int.floor_intCast, sub_self, if_pos (by norm_num)]

/-- Rounding does not pass an integer above. -/
theorem roundHalfEven_le {x : ℚ} {n : ℤ} (h : x ≤ n) : roundHalfEven x ≤ n := by
  rcases roundHalfEven_eq_or x with heq | ⟨heq, hlt⟩
  · rw [heq]
    exact Int.cast_le.mp ((Int.floor_le x).trans h)
  · rw [heq]
    exact Int.cast_lt.mp (hlt.trans_le h)

/-- Rounding does not pass an integer below. -/
theorem le_roundHalfEven {x : ℚ} {n : ℤ} (h : (n : ℚ) ≤ x) : n ≤ roundHalfEven x := by
  have hfloor : n ≤ ⌊x⌋ := Int.le_floor.mpr h
  rcases roundHalfEven_eq_or x with heq | ⟨heq, -⟩
  · omega
  · omega

/-- Below the middle, the integer below. -/
theorem roundHalfEven_le_of_lt {x : ℚ} {n : ℤ} (h : x < n + 1 / 2) : roundHalfEven x ≤ n := by
  have hfloor : ⌊x⌋ ≤ n := by
    rw [← Int.lt_add_one_iff, Int.floor_lt]
    push_cast
    linarith
  rcases hfloor.lt_or_eq with hlt | heq
  · rcases roundHalfEven_eq_or x with hr | ⟨hr, -⟩
    · omega
    · omega
  · unfold roundHalfEven
    rw [if_pos (by rw [heq]; linarith)]
    exact hfloor

/-- From the middle above an odd integer on, the integer above. -/
theorem lt_roundHalfEven {x : ℚ} {n : ℤ} (hodd : Odd n) (h : (n : ℚ) + 1 / 2 ≤ x) :
    n < roundHalfEven x := by
  have hfloor : n ≤ ⌊x⌋ := Int.le_floor.mpr (by linarith)
  rcases hfloor.lt_or_eq with hlt | heq
  · rcases roundHalfEven_eq_or x with hr | ⟨hr, -⟩
    · omega
    · omega
  · unfold roundHalfEven
    rw [← heq, if_neg (by linarith), if_neg (Int.not_even_iff_odd.mpr hodd)]
    split
    · omega
    · omega

/-! ## Rounding to 53 bits -/

/-- The weight of the last bit of a double near `x` is `2 ^ scale x`. -/
def scale (x : ℚ) : ℤ := max (Int.log 2 x - 52) (-1074)

/-- The nearest multiple of that weight. -/
def nearest (x : ℚ) : ℚ := roundHalfEven (x / 2 ^ scale x) * 2 ^ scale x

/-- The finite doubles that are not negative. -/
def IsBinary64 (x : ℚ) : Prop := 0 ≤ x ∧ x < 2 ^ (1024 : ℤ) ∧ nearest x = x

instance (x : ℚ) : Decidable (IsBinary64 x) := inferInstanceAs (Decidable (_ ∧ _ ∧ _))

/-- Every number has at most 53 bits on its scale. -/
theorem lt_scale (x : ℚ) : x < 2 ^ 53 * 2 ^ scale x := by
  have hlog : x < 2 ^ (Int.log 2 x + 1) := by
    exact_mod_cast Int.lt_zpow_succ_log_self (b := 2) (by decide) x
  have hle : Int.log 2 x + 1 ≤ 53 + scale x := by
    have := le_max_left (Int.log 2 x - 52) (-1074)
    unfold scale
    omega
  calc x < 2 ^ (Int.log 2 x + 1) := hlog
    _ ≤ 2 ^ (53 + scale x) := zpow_le_zpow_right₀ (by norm_num) hle
    _ = 2 ^ 53 * 2 ^ scale x := by
        rw [zpow_add₀ (by norm_num)]
        norm_cast

/-- Rounding keeps a number that is not negative so. -/
theorem nearest_nonneg {x : ℚ} (hx : 0 ≤ x) : 0 ≤ nearest x := by
  have hdiv : ((0 : ℤ) : ℚ) ≤ x / 2 ^ scale x := by
    rw [Int.cast_zero]
    positivity
  have hround : (0 : ℚ) ≤ roundHalfEven (x / 2 ^ scale x) := by
    exact_mod_cast le_roundHalfEven hdiv
  unfold nearest
  positivity

/-- A multiple of the weight of its last bit is not rounded. -/
theorem nearest_of_multiple {x : ℚ} {n : ℤ} (h : x = n * 2 ^ scale x) : nearest x = x := by
  have hpos : (2 : ℚ) ^ scale x ≠ 0 := by positivity
  have hdiv : x / 2 ^ scale x = n := (div_eq_iff hpos).mpr h
  unfold nearest
  rw [hdiv, roundHalfEven_intCast, ← h]

/-- **What fits into 53 bits is not rounded.** -/
theorem nearest_of_grid {n : ℕ} (hn : n ≤ 2 ^ 53) {e : ℤ} (he : -1074 ≤ e) :
    nearest (n * 2 ^ e) = n * 2 ^ e := by
  by_cases h0 : n = 0
  · subst h0
    apply nearest_of_multiple (n := 0)
    simp
  have hpos : (0 : ℚ) < n := by exact_mod_cast Nat.pos_of_ne_zero h0
  have hx : (0 : ℚ) < n * 2 ^ e := by positivity
  -- a number on a grid as coarse as its last bit
  have hfine : ∀ k : ℤ, scale (n * 2 ^ e) ≤ k →
      (∃ m : ℤ, (n * 2 ^ e : ℚ) = m * 2 ^ k) → nearest (n * 2 ^ e) = n * 2 ^ e := by
    rintro k hk ⟨m, hm⟩
    obtain ⟨d, hd⟩ := Int.eq_ofNat_of_zero_le (sub_nonneg.mpr hk)
    apply nearest_of_multiple (n := m * 2 ^ d)
    calc (n * 2 ^ e : ℚ) = m * 2 ^ k := hm
      _ = m * 2 ^ ((d : ℤ) + scale (n * 2 ^ e)) := by
          congr 2
          have : k - scale (n * 2 ^ e) = (d : ℤ) := hd
          omega
      _ = ((m * 2 ^ d : ℤ) : ℚ) * 2 ^ scale (n * 2 ^ e) := by
          rw [zpow_add₀ (by norm_num), zpow_natCast]
          push_cast
          ring
  rcases hn.lt_or_eq with hlt | heq
  · apply hfine e
    · have hlog : Int.log 2 (n * 2 ^ e : ℚ) < 53 + e := by
        rw [← Int.lt_zpow_iff_log_lt (by decide) hx]
        push_cast
        rw [zpow_add₀ (by norm_num)]
        have hcast : (n : ℚ) < 2 ^ (53 : ℤ) := by exact_mod_cast hlt
        gcongr
      unfold scale
      omega
    · exact ⟨n, by push_cast; rfl⟩
  · apply hfine (e + 1)
    · have hlog : Int.log 2 (n * 2 ^ e : ℚ) < 54 + e := by
        rw [← Int.lt_zpow_iff_log_lt (by decide) hx]
        push_cast
        rw [zpow_add₀ (by norm_num), heq]
        have hcast : ((2 ^ 53 : ℕ) : ℚ) < 2 ^ (54 : ℤ) := by norm_num
        gcongr
      unfold scale
      omega
    · refine ⟨2 ^ 52, ?_⟩
      rw [heq, zpow_add₀ (by norm_num)]
      push_cast
      ring

/-- A rounded number is on its grid. -/
theorem nearest_grid {x : ℚ} (hx : 0 ≤ x) :
    ∃ n : ℕ, n ≤ 2 ^ 53 ∧ nearest x = n * 2 ^ scale x := by
  have hpos : (0 : ℚ) < 2 ^ scale x := by positivity
  have hlow : ((0 : ℤ) : ℚ) ≤ x / 2 ^ scale x := by
    rw [Int.cast_zero]
    positivity
  have hhigh : x / 2 ^ scale x ≤ ((2 ^ 53 : ℤ) : ℚ) := by
    rw [div_le_iff₀ hpos]
    exact_mod_cast (lt_scale x).le
  obtain ⟨n, hn⟩ := Int.eq_ofNat_of_zero_le (le_roundHalfEven hlow)
  have hle := roundHalfEven_le hhigh
  refine ⟨n, ?_, ?_⟩
  · rw [hn] at hle
    exact_mod_cast hle
  · unfold nearest
    rw [hn]
    rfl

/-- Rounding twice is rounding once. -/
theorem nearest_nearest {x : ℚ} (hx : 0 ≤ x) : nearest (nearest x) = nearest x := by
  obtain ⟨n, hn, heq⟩ := nearest_grid hx
  rw [heq]
  exact nearest_of_grid hn (le_max_right _ _)

/-- **A rounded number is a double** if it is in range. -/
theorem isBinary64_nearest {x : ℚ} (hx : 0 ≤ x) :
    IsBinary64 (nearest x) ↔ nearest x < 2 ^ (1024 : ℤ) := by
  constructor
  · intro h
    exact h.2.1
  · intro h
    exact ⟨nearest_nonneg hx, h, nearest_nearest hx⟩

/-- A number of at most 53 bits is a double if it is in range. -/
theorem isBinary64_of_grid {n : ℕ} (hn : n ≤ 2 ^ 53) {e : ℤ} (he : -1074 ≤ e)
    (h : (n * 2 ^ e : ℚ) < 2 ^ (1024 : ℤ)) : IsBinary64 (n * 2 ^ e) := by
  refine ⟨?_, h, nearest_of_grid hn he⟩
  exact mul_nonneg n.cast_nonneg (zpow_nonneg zero_le_two e)

/-- The natural numbers up to `2 ^ 53` are doubles. -/
theorem isBinary64_natCast {n : ℕ} (hn : n ≤ 2 ^ 53) : IsBinary64 n := by
  have hlt : (n * 2 ^ (0 : ℤ) : ℚ) < 2 ^ (1024 : ℤ) := by
    rw [zpow_zero, mul_one]
    calc (n : ℚ) ≤ ((2 ^ 53 : ℕ) : ℚ) := Nat.cast_le.mpr hn
      _ = 2 ^ (53 : ℤ) := by norm_num
      _ < 2 ^ (1024 : ℤ) := zpow_lt_zpow_right₀ one_lt_two (by norm_num)
  have := isBinary64_of_grid hn (by norm_num) hlt
  rwa [zpow_zero, mul_one] at this

/-! ## Overflow -/

/-- From here on a number is rounded to infinity. -/
def overflowThreshold : ℚ := 2 ^ (1024 : ℤ) - 2 ^ (970 : ℤ)

/-- The threshold is in the middle between the last double and `2 ^ 1024`. -/
theorem overflowThreshold_eq :
    overflowThreshold = (((2 ^ 53 - 1 : ℤ) : ℚ) + 1 / 2) * 2 ^ (971 : ℤ) := by
  have h971 : (2 : ℚ) ^ (971 : ℤ) = 2 ^ (970 : ℤ) * 2 := zpow_add_one₀ two_ne_zero 970
  have h1024 : (2 : ℚ) ^ (1024 : ℤ) = 2 ^ (970 : ℤ) * 2 ^ (54 : ℤ) := zpow_add₀ two_ne_zero 970 54
  unfold overflowThreshold
  rw [h971, h1024]
  generalize (2 : ℚ) ^ (970 : ℤ) = w
  norm_num
  ring

/-- What is below a multiple of the weight of its last bit is not rounded past it. -/
theorem nearest_le {x : ℚ} {n : ℤ} (h : x ≤ n * 2 ^ scale x) : nearest x ≤ n * 2 ^ scale x := by
  have hpos : (0 : ℚ) < 2 ^ scale x := zpow_pos two_pos _
  have hround : (roundHalfEven (x / 2 ^ scale x) : ℚ) ≤ n := by
    exact_mod_cast roundHalfEven_le ((div_le_iff₀ hpos).mpr h)
  exact mul_le_mul_of_nonneg_right hround hpos.le

/-- What is above a multiple of the weight of its last bit is not rounded below it. -/
theorem le_nearest {x : ℚ} {n : ℤ} (h : n * 2 ^ scale x ≤ x) : n * 2 ^ scale x ≤ nearest x := by
  have hpos : (0 : ℚ) < 2 ^ scale x := zpow_pos two_pos _
  have hround : (n : ℚ) ≤ roundHalfEven (x / 2 ^ scale x) := by
    exact_mod_cast le_roundHalfEven ((le_div_iff₀ hpos).mpr h)
  exact mul_le_mul_of_nonneg_right hround hpos.le

/-- **Rounding overflows from the threshold on.** -/
theorem nearest_lt_iff {x : ℚ} :
    nearest x < 2 ^ (1024 : ℤ) ↔ x < overflowThreshold := by
  have hpos : (0 : ℚ) < 2 ^ scale x := zpow_pos two_pos _
  have hlast : (2 : ℚ) ^ (1024 : ℤ) = 2 ^ (53 : ℤ) * 2 ^ (971 : ℤ) := zpow_add₀ two_ne_zero 53 971
  have h53 : ((2 ^ 53 : ℤ) : ℚ) = 2 ^ (53 : ℤ) := by norm_num
  rw [overflowThreshold_eq, hlast]
  rcases lt_trichotomy (scale x) 971 with hs | hs | hs
  · -- both sides hold: the number and the rounded number are at most `2 ^ 1023`
    have hgrid : (2 : ℚ) ^ scale x ≤ 2 ^ (970 : ℤ) :=
      zpow_le_zpow_right₀ one_le_two (by omega)
    have hhalf : (2 : ℚ) ^ (971 : ℤ) = 2 ^ (970 : ℤ) * 2 := zpow_add_one₀ two_ne_zero 970
    have hx53 : x ≤ ((2 ^ 53 : ℤ) : ℚ) * 2 ^ scale x := by exact_mod_cast (lt_scale x).le
    have hround := nearest_le hx53
    have h970 : (0 : ℚ) < 2 ^ (970 : ℤ) := zpow_pos two_pos _
    rw [hhalf]
    generalize (2 : ℚ) ^ (970 : ℤ) = w at *
    norm_num at hx53 hround ⊢
    refine iff_of_true ?_ ?_
    · linarith only [hround, hgrid, h970]
    · linarith only [hx53, hgrid, h970]
  · -- the last binade: the number is rounded up iff it is in the upper half of its last cell
    have h971 : (0 : ℚ) < 2 ^ (971 : ℤ) := zpow_pos two_pos _
    unfold nearest
    rw [hs, ← h53, mul_lt_mul_iff_left₀ h971, Int.cast_lt, ← div_lt_iff₀ h971]
    constructor
    · intro h
      by_contra hge
      have := lt_roundHalfEven (by decide) (not_lt.mp hge)
      omega
    · intro h
      have := roundHalfEven_le_of_lt h
      omega
  · -- neither side holds: both numbers are at least `2 ^ 1024`
    have hlog : (2 : ℚ) ^ Int.log 2 x ≤ x := by
      have hxpos : 0 < x := by
        by_contra hneg
        have hzero := Int.log_of_right_le_zero 2 (not_lt.mp hneg)
        unfold scale at hs
        omega
      exact_mod_cast Int.zpow_log_le_self (b := 2) (by decide) hxpos
    have hscale : Int.log 2 x = 52 + scale x := by
      unfold scale at hs ⊢
      omega
    have hx52 : ((2 ^ 52 : ℤ) : ℚ) * 2 ^ scale x ≤ x := by
      rw [hscale, zpow_add₀ two_ne_zero] at hlog
      exact_mod_cast hlog
    have hround := le_nearest hx52
    have hgrid : (2 : ℚ) ^ (972 : ℤ) ≤ 2 ^ scale x := zpow_le_zpow_right₀ one_le_two (by omega)
    have hdouble : (2 : ℚ) ^ (972 : ℤ) = 2 ^ (971 : ℤ) * 2 := zpow_add_one₀ two_ne_zero 971
    have h971 : (0 : ℚ) < 2 ^ (971 : ℤ) := zpow_pos two_pos _
    rw [hdouble] at hgrid
    generalize (2 : ℚ) ^ (971 : ℤ) = w at *
    norm_num at hx52 hround ⊢
    refine iff_of_false ?_ ?_
    · linarith only [hround, hgrid, h971]
    · linarith only [hx52, hgrid, h971]

/-! ## Doubles -/

/-- A finite double that is not negative. -/
structure Binary64 where
  value : ℚ
  isBinary64 : IsBinary64 value
  deriving DecidableEq

/-- A double that is not negative. -/
inductive Double where
  | finite (x : Binary64)
  | inf
  deriving DecidableEq

namespace Double

/-- The double nearest to a number. -/
def ofRat (x : ℚ) : Double :=
  if h : IsBinary64 (nearest x) then .finite ⟨nearest x, h⟩ else .inf

/-- **What is rounded to infinity.** -/
theorem ofRat_eq_inf_iff {x : ℚ} (hx : 0 ≤ x) : ofRat x = .inf ↔ overflowThreshold ≤ x := by
  unfold ofRat
  rw [← not_lt, ← nearest_lt_iff, ← isBinary64_nearest hx]
  by_cases h : IsBinary64 (nearest x)
  · rw [dif_pos h]
    exact iff_of_false (by simp) (not_not.mpr h)
  · rw [dif_neg h]
    exact iff_of_true rfl h

/-- A double is nearest to itself. -/
theorem ofRat_value (x : Binary64) : ofRat x.value = .finite x := by
  have hfixed := x.isBinary64.2.2
  unfold ofRat
  rw [dif_pos (by rw [hfixed]; exact x.isBinary64)]
  congr

/-- The nearest double is the number itself iff the number is a double. -/
theorem ofRat_exact_iff {x : ℚ} :
    (∃ y : Binary64, ofRat x = .finite y ∧ y.value = x) ↔ IsBinary64 x := by
  constructor
  · rintro ⟨y, -, rfl⟩
    exact y.isBinary64
  · intro h
    exact ⟨⟨x, h⟩, ofRat_value ⟨x, h⟩, rfl⟩

end Double

end MallocBench.Numbers
