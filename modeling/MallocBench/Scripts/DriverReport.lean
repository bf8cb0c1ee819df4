import MallocBench.Scripts.MdriverOutput

/-! # What the driver prints and the scripts read

`printresults` prints the totals with minimum field widths and nothing between the fields, and `main`
prints the performance index and, for the autograder, the two lines `correct:` and `perfidx:`. The
patterns of `parse_mdriver_output` want white space between the fields of the totals, so reading succeeds
as long as every field but the first is narrower than its width.

* **`matchLine_totalLine`**: the line of totals is matched iff the fields are narrower than their widths.
* **`parseMdriverOutput_driverOutput`**: what is read from an output, whatever other lines it has that
  match no pattern.
* **`recovers_iff`**: the record holds what was printed iff the report `Fits`. -/

namespace MallocBench

open Text Numbers

/-! ## Printing -/

/-- The numbers of an error-free run: the rounded average utilisation, the operations, the microseconds,
the rounded throughput, the number of valid traces, and the two parts of the performance index and the
index, rounded. -/
structure DriverReport where
  util : Nat
  ops : Nat
  micros : Nat
  kops : Nat
  correct : Nat
  utilPart : Nat
  thruPart : Nat
  perfidx : Nat
  deriving DecidableEq

/-- A format with a minimum width. -/
def padded (width : Nat) (s : List Char) : List Char := List.leftpad width ' ' s

namespace DriverReport

/-- `"%12s%5.0f%%%8.0f%10.6f%6.0f"`. -/
def totalLine (r : DriverReport) : List Char :=
  padded 12 "Total       ".toList ++ (padded 5 (Nat.toDigits 10 r.util) ++ ("%".toList ++
    (padded 8 (Nat.toDigits 10 r.ops) ++ (padded 10 (fixedPoint 6 r.micros) ++
      padded 6 (Nat.toDigits 10 r.kops)))))

/-- `"Perf index = %.0f (util) + %.0f (thru) = %.0f/100"`. -/
def perfIndexLine (r : DriverReport) : List Char :=
  "Perf index = ".toList ++ (Nat.toDigits 10 r.utilPart ++ (" (util) + ".toList ++
    (Nat.toDigits 10 r.thruPart ++ (" (thru) = ".toList ++ (Nat.toDigits 10 r.perfidx ++
      "/100".toList)))))

/-- `"correct:%d"`. -/
def correctLine (r : DriverReport) : List Char := "correct:".toList ++ Nat.toDigits 10 r.correct

/-- `"perfidx:%.0f"`. -/
def perfidxLine (r : DriverReport) : List Char := "perfidx:".toList ++ Nat.toDigits 10 r.perfidx

end DriverReport

/-- The other lines of an output, before, between and after the four. -/
structure OtherLines where
  beforeTotal : List Char
  beforePerfIndex : List Char
  beforeCorrect : List Char
  beforePerfidx : List Char
  afterwards : List Char

/-- The output: the four lines in the order in which they are printed, among other lines. -/
def driverOutput (r : DriverReport) (other : OtherLines) : List Char :=
  other.beforeTotal ++ (r.totalLine ++ '\n' :: (other.beforePerfIndex ++ (r.perfIndexLine ++ '\n' ::
    (other.beforeCorrect ++ (r.correctLine ++ '\n' :: (other.beforePerfidx ++ (r.perfidxLine ++ '\n' ::
      other.afterwards)))))))

/-- None of the lines matches a pattern. -/
def Quiet (chunk : List Char) : Prop := ∀ rawLine ∈ splitlines chunk, matchLine rawLine = none

/-- The text is made of whole lines. -/
def WholeLines (chunk : List Char) : Prop := chunk = [] ∨ ∃ front, chunk = front ++ ['\n']

/-- The other lines are whole lines that match no pattern. -/
structure OtherLines.Unread (other : OtherLines) : Prop where
  beforeTotal : Quiet other.beforeTotal ∧ WholeLines other.beforeTotal
  beforePerfIndex : Quiet other.beforePerfIndex ∧ WholeLines other.beforePerfIndex
  beforeCorrect : Quiet other.beforeCorrect ∧ WholeLines other.beforeCorrect
  beforePerfidx : Quiet other.beforePerfidx ∧ WholeLines other.beforePerfidx
  afterwards : Quiet other.afterwards

/-! ## Matching the fields -/

/-- A printed number is a group of digits. -/
theorem accepts_digits (n : Nat) : digitGroup.Accepts (Nat.toDigits 10 n) :=
  ⟨fun _ hc => isDecimal_ascii (isAsciiDigit_toDigits hc), Nat.toDigits_ne_nil⟩

/-- A digit is in the class of numbers. -/
theorem numberGroup_mem_digit {c : Char} (h : isAsciiDigit c = true) :
    numberGroup.cls.mem c = true :=
  of_isAsciiDigit (p := fun c => numberGroup.cls.mem c = true) (by decide) h

/-- A printed number is a group of digits and points. -/
theorem accepts_number (n : Nat) : numberGroup.Accepts (Nat.toDigits 10 n) :=
  ⟨fun _ hc => numberGroup_mem_digit (isAsciiDigit_toDigits hc), Nat.toDigits_ne_nil⟩

/-- A printed fixed-point number is a group of digits and points. -/
theorem accepts_fixedPoint (d m : Nat) : numberGroup.Accepts (fixedPoint d m) := by
  constructor
  · intro c hc
    unfold fixedPoint at hc
    rw [List.mem_append, List.mem_cons] at hc
    rcases hc with hc | rfl | hc
    · exact numberGroup_mem_digit (isAsciiDigit_toDigits hc)
    · decide
    · exact numberGroup_mem_digit (isAsciiDigit_fixedPoint (List.mem_append_right _ hc))
  · exact List.append_ne_nil_of_left_ne_nil Nat.toDigits_ne_nil _

/-- The text starts with a digit. -/
def DigitFirst (s : List Char) : Prop := ∃ c ∈ s.head?, isAsciiDigit c = true

/-- A number starts with a digit, whatever comes after it. -/
theorem digitFirst_append {n : Nat} (rest : List Char) :
    DigitFirst (Nat.toDigits 10 n ++ rest) := by
  obtain ⟨c, cs, hcs⟩ := List.exists_cons_of_ne_nil (Nat.toDigits_ne_nil (n := n) (b := 10))
  refine ⟨c, ?_, isAsciiDigit_toDigits (hcs ▸ List.mem_cons_self)⟩
  rw [hcs]
  rfl

/-- So does one with a point. -/
theorem digitFirst_fixedPoint (d m : Nat) (rest : List Char) :
    DigitFirst (fixedPoint d m ++ rest) := by
  unfold fixedPoint
  rw [List.append_assoc]
  exact digitFirst_append _

/-- A digit is no white space. -/
theorem DigitFirst.not_space {s : List Char} (h : DigitFirst s) :
    ∀ c ∈ s.head?, someSpace.cls.mem c = false := by
  obtain ⟨d, hd, hdigit⟩ := h
  intro c hc
  obtain rfl : c = d := Option.some.inj (hc.symm.trans hd)
  exact isSpace_of_isDecimal (isDecimal_ascii hdigit)

/-- A format that has reached its width adds nothing. -/
theorem padded_of_le {width : Nat} {s : List Char} (h : width ≤ s.length) : padded width s = s := by
  unfold padded List.leftpad
  rw [Nat.sub_eq_zero_of_le h]
  rfl

/-- A format that has not starts with a blank. -/
theorem padded_head {width : Nat} {s : List Char} (h : s.length < width) (rest : List Char) :
    (padded width s ++ rest).head? = some ' ' := by
  have hsucc : width - s.length = width - s.length - 1 + 1 := by omega
  unfold padded List.leftpad
  rw [hsucc, List.replicate_succ]
  rfl

/-- **A field after its margin.** White space, then the run `x` of the group's class, which may reach
into the text after the field. -/
theorem matchGroups_field {item : Item} {rest : Pattern} {width : Nat} {s t x y : List Char}
    (hd : Pattern.Deterministic (someSpace :: item :: rest) = true)
    (hitem : item.quantifier = .plus ∧ item.capture = true) (hwidth : s.length < width)
    (hst : s ++ t = x ++ y) (hfirst : DigitFirst (x ++ y)) (hx : item.Accepts x)
    (hy : ∀ c ∈ y.head?, item.cls.mem c = false) :
    Pattern.matchGroups (someSpace :: item :: rest) (padded width s ++ t) =
      (Pattern.matchGroups rest y).map (List.cons x) := by
  have hmargin : someSpace.Accepts (List.replicate (width - s.length) ' ') := by
    constructor
    · intro c hc
      rw [List.eq_of_mem_replicate hc]
      decide
    · intro hnil
      have := congrArg List.length hnil
      rw [List.length_replicate, List.length_nil] at this
      omega
  have hdrest : Pattern.Deterministic (item :: rest) = true := by
    rw [Pattern.Deterministic, Bool.and_eq_true] at hd
    exact hd.2
  unfold padded List.leftpad
  rw [List.append_assoc, hst, Pattern.matchGroups_run hd (by decide) hmargin hfirst.not_space,
    Pattern.matchGroups_run hdrest (by simp [hitem.1]) hx hy, Item.keep_skip (by decide),
    Item.keep_capture hitem.2, Option.map_id, id_eq]

/-- A field without a margin is not matched. -/
theorem matchGroups_field_none {rest : Pattern} {s : List Char} (h : DigitFirst s) :
    Pattern.matchGroups (someSpace :: rest) s = none := by
  cases s with
  | nil =>
      obtain ⟨c, hc, -⟩ := h
      exact absurd hc (by simp)
  | cons c s =>
      apply Pattern.matchGroups_eq_none
      intro k hk
      rw [Pattern.firsts, if_neg (by decide), List.mem_singleton] at hk
      rw [hk]
      exact h.not_space c rfl

/-- The last field of a line. -/
theorem matchGroups_last {item : Item} {x : List Char}
    (hd : Pattern.Deterministic [item, anySpace] = true)
    (hitem : item.quantifier = .plus ∧ item.capture = true) (hx : item.Accepts x) :
    Pattern.matchGroups [item, anySpace] x = some [x] := by
  have hend : Pattern.matchGroups [anySpace] [] = some [] := by decide
  have hrun := Pattern.matchGroups_run (y := []) hd (by simp [hitem.1]) hx (by simp)
  rw [List.append_nil] at hrun
  rw [hrun, hend, Item.keep_capture hitem.2]
  rfl

/-! ## The line of totals -/

/-- The width of a printed fixed-point number. -/
theorem length_fixedPoint {d : Nat} (hd : 0 < d) (m : Nat) :
    (fixedPoint d m).length = (Nat.toDigits 10 (m / 10 ^ d)).length + d + 1 := by
  unfold fixedPoint
  rw [List.length_append, List.length_cons, length_fraction hd]
  omega

/-- The number has at most so many digits. -/
theorem length_digits_le_iff {n k : Nat} (hk : 0 < k) :
    (Nat.toDigits 10 n).length ≤ k ↔ n < 10 ^ k :=
  Nat.length_toDigits_le_iff (by decide) hk

/-- The seconds are narrower than their field below a hundred. -/
theorem length_seconds_lt_iff {m : Nat} : (fixedPoint 6 m).length < 10 ↔ m < 10 ^ 8 := by
  have hwhole := length_digits_le_iff (n := m / 10 ^ 6) (k := 2) (by decide)
  -- two digits, the point and six digits are one less than the width
  have hdiv : m / 10 ^ 6 < 10 ^ 2 ↔ m < 10 ^ 8 := by
    rw [Nat.div_lt_iff_lt_mul (by decide)]
    exact Iff.rfl
  rw [length_fixedPoint (by decide), ← hdiv, ← hwhole]
  omega

/-- The throughput, in a field wide enough. -/
theorem matchGroups_kops {kops : Nat} (h : kops < 10 ^ 5) :
    Pattern.matchGroups [someSpace, digitGroup, anySpace] (padded 6 (Nat.toDigits 10 kops)) =
      some [Nat.toDigits 10 kops] := by
  have hlen := (length_digits_le_iff (k := 5) (by decide)).mpr h
  have hend : Pattern.matchGroups [anySpace] [] = some [] := by decide
  have hdet : Pattern.Deterministic [someSpace, digitGroup, anySpace] = true := by decide
  have hwidth : (Nat.toDigits 10 kops).length < 6 := by omega
  have hfield := matchGroups_field (t := []) hdet (by decide) hwidth rfl (digitFirst_append [])
    (accepts_digits kops) (by simp)
  rwa [List.append_nil, hend] at hfield

/-- **The seconds and the throughput**: a throughput that fills its field runs into the seconds. -/
theorem matchGroups_secs {micros : Nat} (h : micros < 10 ^ 8) (kops : Nat) :
    Pattern.matchGroups [someSpace, numberGroup, someSpace, digitGroup, anySpace]
        (padded 10 (fixedPoint 6 micros) ++ padded 6 (Nat.toDigits 10 kops)) =
      if kops < 10 ^ 5 then some [fixedPoint 6 micros, Nat.toDigits 10 kops] else none := by
  have hwidth := length_seconds_lt_iff.mpr h
  have hdet : Pattern.Deterministic [someSpace, numberGroup, someSpace, digitGroup, anySpace] = true :=
    by decide
  have hlen := length_digits_le_iff (n := kops) (k := 5) (by decide)
  by_cases hk : kops < 10 ^ 5
  · have hnext : ∀ c ∈ (padded 6 (Nat.toDigits 10 kops)).head?, numberGroup.cls.mem c = false := by
      have hhead := padded_head (Nat.lt_succ_of_le (hlen.mpr hk)) []
      rw [List.append_nil] at hhead
      rw [hhead]
      rintro c ⟨⟩
      decide
    rw [if_pos hk, matchGroups_field hdet (by decide) hwidth rfl (digitFirst_fixedPoint _ _ _)
      (accepts_fixedPoint 6 micros) hnext, matchGroups_kops hk]
    rfl
  · have hfull : padded 6 (Nat.toDigits 10 kops) = Nat.toDigits 10 kops :=
      padded_of_le (not_le.mp (mt hlen.mp hk))
    -- the seconds and the throughput are one run of digits and points
    have hglued : numberGroup.Accepts (fixedPoint 6 micros ++ Nat.toDigits 10 kops) := by
      constructor
      · intro c hc
        rcases List.mem_append.mp hc with hc | hc
        · exact (accepts_fixedPoint 6 micros).1 c hc
        · exact (accepts_number kops).1 c hc
      · exact List.append_ne_nil_of_left_ne_nil (accepts_fixedPoint 6 micros).2 _
    have hst : fixedPoint 6 micros ++ Nat.toDigits 10 kops =
        (fixedPoint 6 micros ++ Nat.toDigits 10 kops) ++ [] := (List.append_nil _).symm
    have hfirst : DigitFirst ((fixedPoint 6 micros ++ Nat.toDigits 10 kops) ++ []) := by
      rw [List.append_nil]
      exact digitFirst_fixedPoint _ _ _
    rw [if_neg hk, hfull, matchGroups_field hdet (by decide) hwidth hst hfirst hglued (by simp),
      Pattern.matchGroups_plus_nil rfl]
    rfl

/-- **From the operations on**: seconds that fill their field run into the operations. -/
theorem matchGroups_ops {ops : Nat} (h : ops < 10 ^ 7) (micros kops : Nat) :
    Pattern.matchGroups
        [someSpace, digitGroup, someSpace, numberGroup, someSpace, digitGroup, anySpace]
        (padded 8 (Nat.toDigits 10 ops) ++ (padded 10 (fixedPoint 6 micros) ++
          padded 6 (Nat.toDigits 10 kops))) =
      if micros < 10 ^ 8 ∧ kops < 10 ^ 5 then
        some [Nat.toDigits 10 ops, fixedPoint 6 micros, Nat.toDigits 10 kops]
      else none := by
  have hwidth : (Nat.toDigits 10 ops).length < 8 :=
    Nat.lt_succ_of_le ((length_digits_le_iff (by decide)).mpr h)
  have hdet : Pattern.Deterministic
      [someSpace, digitGroup, someSpace, numberGroup, someSpace, digitGroup, anySpace] = true := by
    decide
  by_cases hm : micros < 10 ^ 8
  · have hnext : ∀ c ∈ (padded 10 (fixedPoint 6 micros) ++
        padded 6 (Nat.toDigits 10 kops)).head?, digitGroup.cls.mem c = false := by
      rw [padded_head (length_seconds_lt_iff.mpr hm)]
      rintro c ⟨⟩
      decide
    rw [matchGroups_field hdet (by decide) hwidth rfl (digitFirst_append _) (accepts_digits ops) hnext,
      matchGroups_secs hm]
    by_cases hk : kops < 10 ^ 5
    · rw [if_pos hk, if_pos ⟨hm, hk⟩]
      rfl
    · rw [if_neg hk, if_neg fun hboth => hk hboth.2]
      rfl
  · have hfull : padded 10 (fixedPoint 6 micros) = fixedPoint 6 micros :=
      padded_of_le (not_lt.mp (mt length_seconds_lt_iff.mp hm))
    -- the operations and the whole seconds are one run of digits, which a point follows
    have hst : Nat.toDigits 10 ops ++ (fixedPoint 6 micros ++ padded 6 (Nat.toDigits 10 kops)) =
        (Nat.toDigits 10 ops ++ Nat.toDigits 10 (micros / 10 ^ 6)) ++
          ('.' :: (List.leftpad 6 '0' (Nat.toDigits 10 (micros % 10 ^ 6)) ++
            padded 6 (Nat.toDigits 10 kops))) := by
      unfold fixedPoint
      simp only [List.append_assoc, List.cons_append]
    have hglued : digitGroup.Accepts (Nat.toDigits 10 ops ++ Nat.toDigits 10 (micros / 10 ^ 6)) := by
      constructor
      · intro c hc
        rcases List.mem_append.mp hc with hc | hc
        · exact (accepts_digits ops).1 c hc
        · exact (accepts_digits _).1 c hc
      · exact List.append_ne_nil_of_left_ne_nil Nat.toDigits_ne_nil _
    have hfirst : DigitFirst ((Nat.toDigits 10 ops ++ Nat.toDigits 10 (micros / 10 ^ 6)) ++
          ('.' :: (List.leftpad 6 '0' (Nat.toDigits 10 (micros % 10 ^ 6)) ++
            padded 6 (Nat.toDigits 10 kops)))) := by
      rw [List.append_assoc]
      exact digitFirst_append _
    have hpoint : ∀ c ∈ ('.' :: (List.leftpad 6 '0' (Nat.toDigits 10 (micros % 10 ^ 6)) ++
        padded 6 (Nat.toDigits 10 kops))).head?, digitGroup.cls.mem c = false := by
      rintro c ⟨⟩
      decide
    rw [if_neg fun hboth => hm hboth.1, hfull,
      matchGroups_field hdet (by decide) hwidth hst hfirst hglued hpoint,
      Pattern.matchGroups_eq_none (by decide)]
    rfl

/-- The fields are narrower than their widths; the first has a margin of its own. -/
def DriverReport.Narrow (r : DriverReport) : Prop :=
  r.ops < 10 ^ 7 ∧ r.micros < 10 ^ 8 ∧ r.kops < 10 ^ 5

instance (r : DriverReport) : Decidable r.Narrow := inferInstanceAs (Decidable (_ ∧ _ ∧ _))

/-- Blanks before a padded field widen it. -/
theorem replicate_append_padded (k width : Nat) (s : List Char) :
    List.replicate k ' ' ++ padded width s = padded (k + max width s.length) s := by
  have hwidth : k + (width - s.length) = k + max width s.length - s.length := by omega
  unfold padded List.leftpad
  rw [← List.append_assoc, List.replicate_append_replicate, hwidth]

/-- **The line of totals matches** iff its fields are narrower than their widths. -/
theorem matchGroups_totalLine (r : DriverReport) :
    totalRe.matchGroups r.totalLine =
      if r.Narrow then
        some [Nat.toDigits 10 r.util, Nat.toDigits 10 r.ops, fixedPoint 6 r.micros,
          Nat.toDigits 10 r.kops]
      else none := by
  have hpattern : totalRe = anySpace :: (Pattern.lit "Total" ++ (someSpace :: digitGroup ::
      (Pattern.lit "%" ++
        [someSpace, digitGroup, someSpace, numberGroup, someSpace, digitGroup, anySpace]))) := rfl
  have hhead : padded 12 "Total       ".toList = "Total".toList ++ List.replicate 7 ' ' := by decide
  have hdet : Pattern.Deterministic totalRe = true := by decide
  have hdetUtil : Pattern.Deterministic (someSpace :: digitGroup :: (Pattern.lit "%" ++
      [someSpace, digitGroup, someSpace, numberGroup, someSpace, digitGroup, anySpace])) = true := by
    decide
  -- the line has no margin, so the first item takes nothing
  have hmargin : ∀ y : List Char, Pattern.matchGroups totalRe ("Total".toList ++ y) =
      Pattern.matchGroups (Pattern.lit "Total" ++ (someSpace :: digitGroup :: (Pattern.lit "%" ++
        [someSpace, digitGroup, someSpace, numberGroup, someSpace, digitGroup, anySpace])))
        ("Total".toList ++ y) := by
    intro y
    rw [hpattern] at hdet ⊢
    have hrun := Pattern.matchGroups_run (x := []) (y := "Total".toList ++ y) hdet (by decide)
      ⟨by simp, trivial⟩ (by rintro c ⟨⟩; decide)
    rw [List.nil_append, Item.keep_skip (by decide), Option.map_id, id_eq] at hrun
    exact hrun
  have hpercent : ∀ y : List Char, ∀ c ∈ ("%".toList ++ y).head?, digitGroup.cls.mem c = false := by
    rintro y c ⟨⟩
    decide
  unfold DriverReport.totalLine
  rw [hhead, List.append_assoc, hmargin, Pattern.matchGroups_lit, ← List.append_assoc,
    replicate_append_padded, matchGroups_field hdetUtil (by decide) (by omega) rfl
      (digitFirst_append _) (accepts_digits r.util) (hpercent _), Pattern.matchGroups_lit]
  by_cases hops : r.ops < 10 ^ 7
  · rw [matchGroups_ops hops]
    by_cases hrest : r.micros < 10 ^ 8 ∧ r.kops < 10 ^ 5
    · rw [if_pos hrest, if_pos ⟨hops, hrest⟩]
      rfl
    · rw [if_neg hrest, if_neg fun hall => hrest hall.2]
      rfl
  · have hlen := length_digits_le_iff (n := r.ops) (k := 7) (by decide)
    have hfull : padded 8 (Nat.toDigits 10 r.ops) = Nat.toDigits 10 r.ops :=
      padded_of_le (not_le.mp (mt hlen.mp hops))
    -- the operations fill their field, and the white space before them is missing
    rw [hfull, matchGroups_field_none (digitFirst_append _), if_neg fun hall => hops hall.1]
    rfl

/-! ## The four lines -/

/-- A text that ends in a number does not end in white space. -/
theorem last_digits (front : List Char) (n : Nat) :
    ∀ c ∈ (front ++ Nat.toDigits 10 n).getLast?, isSpace c = false := by
  intro c hc
  rw [List.getLast?_append_of_ne_nil _ Nat.toDigits_ne_nil] at hc
  exact isSpace_of_isDecimal (isDecimal_ascii (isAsciiDigit_toDigits (List.mem_of_getLast? hc)))

/-- The line of the count of valid traces. -/
theorem matchLine_correctLine (r : DriverReport) :
    matchLine r.correctLine = some (.correct (Nat.toDigits 10 r.correct)) := by
  have hstrip : strip r.correctLine = r.correctLine :=
    strip_eq_self (by rintro c ⟨⟩; decide) (last_digits _ _)
  have hmatch : correctRe.matchGroups r.correctLine = some [Nat.toDigits 10 r.correct] := by
    unfold correctRe DriverReport.correctLine
    rw [Pattern.matchGroups_lit, matchGroups_last (by decide) (by decide) (accepts_digits _)]
  unfold matchLine matchStripped
  rw [hstrip, hmatch]
  rfl

/-- The line of the performance index for the autograder. -/
theorem matchLine_perfidxLine (r : DriverReport) :
    matchLine r.perfidxLine = some (.perfidx (Nat.toDigits 10 r.perfidx)) := by
  have hstrip : strip r.perfidxLine = r.perfidxLine :=
    strip_eq_self (by rintro c ⟨⟩; decide) (last_digits _ _)
  have hcorrect : correctRe.matchGroups r.perfidxLine = none :=
    Pattern.matchGroups_eq_none (c := 'p') (by decide) _
  have hmatch : perfidxRe.matchGroups r.perfidxLine = some [Nat.toDigits 10 r.perfidx] := by
    unfold perfidxRe DriverReport.perfidxLine
    rw [Pattern.matchGroups_lit, matchGroups_last (by decide) (by decide) (accepts_number _)]
  unfold matchLine matchStripped
  rw [hstrip, hcorrect, hmatch]
  rfl

/-- A line that starts with another letter is not one of the autograder's. -/
theorem matchStripped_of_head {c : Char} (hc : c ≠ 'c') (hp : c ≠ 'p') (line : List Char) :
    matchStripped (c :: line) =
      (perfLineRe.matchGroups (c :: line)).map fun groups => .perfLine (group groups 3) := by
  have hcorrect : correctRe.matchGroups (c :: line) = none := by
    apply Pattern.matchGroups_eq_none
    intro k hk
    obtain rfl : k = .set ['c'] := List.mem_singleton.mp hk
    simpa [CharClass.mem] using hc
  have hperfidx : perfidxRe.matchGroups (c :: line) = none := by
    apply Pattern.matchGroups_eq_none
    intro k hk
    obtain rfl : k = .set ['p'] := List.mem_singleton.mp hk
    simpa [CharClass.mem] using hp
  unfold matchStripped
  rw [hcorrect, hperfidx]
  cases perfLineRe.matchGroups (c :: line) with
  | none => rfl
  | some groups => rfl

/-- The line of totals. -/
theorem matchLine_totalLine (r : DriverReport) :
    matchLine r.totalLine =
      if r.Narrow then
        some (.total (Nat.toDigits 10 r.util) (Nat.toDigits 10 r.ops) (fixedPoint 6 r.micros)
          (Nat.toDigits 10 r.kops))
      else none := by
  obtain ⟨line, hline⟩ : ∃ line, r.totalLine = 'T' :: line := ⟨_, rfl⟩
  have hlast : ∀ c ∈ r.totalLine.getLast?, isSpace c = false := by
    obtain ⟨front, hfront⟩ : ∃ front, r.totalLine = front ++ Nat.toDigits 10 r.kops := by
      unfold DriverReport.totalLine
      rw [show padded 6 (Nat.toDigits 10 r.kops) =
        List.replicate (6 - (Nat.toDigits 10 r.kops).length) ' ' ++ Nat.toDigits 10 r.kops from rfl]
      simp only [← List.append_assoc]
      exact ⟨_, rfl⟩
    rw [hfront]
    exact last_digits _ _
  have hstrip : strip r.totalLine = r.totalLine := by
    apply strip_eq_self _ hlast
    rw [hline]
    rintro c ⟨⟩
    decide
  have hperfLine : perfLineRe.matchGroups ('T' :: line) = none :=
    Pattern.matchGroups_eq_none (by decide) _
  have hstripped : matchStripped r.totalLine = none := by
    rw [hline, matchStripped_of_head (by decide) (by decide), hperfLine, Option.map_none]
  unfold matchLine
  rw [hstrip, hstripped, matchGroups_totalLine]
  by_cases h : r.Narrow
  · rw [if_pos h, if_pos h]
    rfl
  · rw [if_neg h, if_neg h]

/-- A group of digits and points before plain text. -/
theorem matchGroups_number {w : String} {rest : Pattern} (n : Nat) (y : List Char)
    (hd : Pattern.Deterministic (numberGroup :: (Pattern.lit w ++ rest)) = true)
    (hw : ∀ c ∈ (w.toList ++ y).head?, numberGroup.cls.mem c = false) :
    Pattern.matchGroups (numberGroup :: (Pattern.lit w ++ rest))
        (Nat.toDigits 10 n ++ (w.toList ++ y)) =
      (Pattern.matchGroups rest y).map (List.cons (Nat.toDigits 10 n)) := by
  rw [Pattern.matchGroups_run hd (by decide) (accepts_number n) hw, Pattern.matchGroups_lit,
    Item.keep_capture (by decide)]

/-- The line of the performance index. -/
theorem matchLine_perfIndexLine (r : DriverReport) :
    matchLine r.perfIndexLine = some (.perfLine (Nat.toDigits 10 r.perfidx)) := by
  obtain ⟨line, hline⟩ : ∃ line, r.perfIndexLine = 'P' :: line := ⟨_, rfl⟩
  have hlast : ∀ c ∈ r.perfIndexLine.getLast?, isSpace c = false := by
    unfold DriverReport.perfIndexLine
    simp only [← List.append_assoc]
    rw [List.getLast?_append_of_ne_nil _ (by decide)]
    rintro c ⟨⟩
    decide
  have hstrip : strip r.perfIndexLine = r.perfIndexLine := by
    apply strip_eq_self _ hlast
    rw [hline]
    rintro c ⟨⟩
    decide
  have hpattern : perfLineRe = Pattern.lit "Perf index = " ++ (numberGroup ::
      (Pattern.lit " (util) + " ++ (numberGroup :: (Pattern.lit " (thru) = " ++
        (numberGroup :: (Pattern.lit "/100" ++ [anySpace])))))) := rfl
  have hend : Pattern.matchGroups [anySpace] [] = some [] := by decide
  have hmatch : perfLineRe.matchGroups r.perfIndexLine =
      some [Nat.toDigits 10 r.utilPart, Nat.toDigits 10 r.thruPart, Nat.toDigits 10 r.perfidx] := by
    unfold DriverReport.perfIndexLine
    rw [hpattern, Pattern.matchGroups_lit,
      matchGroups_number r.utilPart _ (by decide) (by rintro c ⟨⟩; decide),
      matchGroups_number r.thruPart _ (by decide) (by rintro c ⟨⟩; decide),
      ← List.append_nil "/100".toList,
      matchGroups_number r.perfidx _ (by decide) (by rintro c ⟨⟩; decide), hend]
    rfl
  unfold matchLine
  rw [hstrip, hline, matchStripped_of_head (by decide) (by decide), ← hline, hmatch]
  rfl

/-! ## Lines of the output -/

/-- The text has no line boundary. -/
def OneLine (s : List Char) : Prop := ∀ c ∈ s, isBreak c = false

instance (s : List Char) : Decidable (OneLine s) := List.decidableBAll _ s

/-- Two texts on one line. -/
theorem oneLine_append {s t : List Char} : OneLine (s ++ t) ↔ OneLine s ∧ OneLine t := by
  unfold OneLine
  exact List.forall_mem_append

/-- A number is on one line. -/
theorem oneLine_toDigits (n : Nat) : OneLine (Nat.toDigits 10 n) := by
  intro c hc
  have hspace := isSpace_of_isDecimal (isDecimal_ascii (isAsciiDigit_toDigits hc))
  by_contra hbreak
  rw [isSpace_of_isBreak (by simpa using hbreak)] at hspace
  exact Bool.noConfusion hspace

/-- A number of one character does not end the line. -/
theorem oneLine_leftpad {c : Char} (hc : isBreak c = false) {s : List Char} (h : OneLine s)
    (width : Nat) : OneLine (List.leftpad width c s) := by
  unfold List.leftpad
  rw [oneLine_append]
  refine ⟨?_, h⟩
  intro d hd
  rw [List.eq_of_mem_replicate hd]
  exact hc

/-- So is one with a point. -/
theorem oneLine_fixedPoint (d m : Nat) : OneLine (fixedPoint d m) := by
  have hfraction := oneLine_leftpad (c := '0') (by decide) (oneLine_toDigits (m % 10 ^ d)) d
  unfold fixedPoint
  rw [oneLine_append]
  refine ⟨oneLine_toDigits _, ?_⟩
  unfold OneLine
  rw [List.forall_mem_cons]
  exact ⟨by decide, hfraction⟩

/-- So is a text that is padded. -/
theorem oneLine_padded {width : Nat} {s : List Char} (h : OneLine s) : OneLine (padded width s) :=
  oneLine_leftpad (by decide) h width

/-- The four lines are lines. -/
theorem DriverReport.oneLine (r : DriverReport) :
    OneLine r.totalLine ∧ OneLine r.perfIndexLine ∧ OneLine r.correctLine ∧ OneLine r.perfidxLine := by
  unfold DriverReport.totalLine DriverReport.perfIndexLine DriverReport.correctLine
    DriverReport.perfidxLine
  simp only [oneLine_append, oneLine_padded (oneLine_toDigits _), oneLine_toDigits,
    oneLine_padded (oneLine_fixedPoint _ _), and_true, true_and]
  decide

/-- Whole lines are split off. -/
theorem splitlines_wholeLines {chunk : List Char} (h : WholeLines chunk) (rest : List Char) :
    splitlines (chunk ++ rest) = splitlines chunk ++ splitlines rest := by
  rcases h with rfl | ⟨front, rfl⟩
  · rw [splitlines_nil, List.nil_append, List.nil_append]
  · rw [List.append_assoc, List.singleton_append, splitlines_append]

/-- Lines that match nothing are read over. -/
theorem readLines_quiet {lines : List (List Char)} (h : ∀ rawLine ∈ lines, matchLine rawLine = none)
    (state : ParseState) (rest : List (List Char)) :
    readLines state (lines ++ rest) = readLines state rest := by
  induction lines with
  | nil => rfl
  | cons rawLine lines ih =>
      rw [List.forall_mem_cons] at h
      rw [List.cons_append, readLines, h.1]
      exact ih h.2

/-- The loop depends on the lines through what it reads from them. -/
theorem readLines_cons_congr {lines lines' : List (List Char)}
    (h : ∀ state, readLines state lines = readLines state lines') (rawLine : List Char)
    (state : ParseState) :
    readLines state (rawLine :: lines) = readLines state (rawLine :: lines') := by
  rw [readLines, readLines]
  cases matchLine rawLine with
  | none => exact h state
  | some m =>
      have hrest : (fun state => readLines state lines) = fun state => readLines state lines' :=
        funext h
      exact congrArg (m.read state >>= ·) hrest

/-- **The loop over an output** reads the four lines. -/
theorem readLines_driverOutput (r : DriverReport) {other : OtherLines} (h : other.Unread)
    (state : ParseState) :
    readLines state (splitlines (driverOutput r other)) =
      readLines state [r.totalLine, r.perfIndexLine, r.correctLine, r.perfidxLine] := by
  -- the lines before a printed one match nothing, and are read over
  have hchunk : ∀ {chunk line rest : List Char}, Quiet chunk ∧ WholeLines chunk → OneLine line →
      ∀ state, readLines state (splitlines (chunk ++ (line ++ '\n' :: rest))) =
        readLines state (line :: splitlines rest) := by
    intro chunk line rest hchunk hline state
    rw [splitlines_wholeLines hchunk.2, readLines_quiet hchunk.1, splitlines_cons hline]
  obtain ⟨htotal, hperfIndex, hcorrect, hperfidx⟩ := r.oneLine
  unfold driverOutput
  rw [hchunk h.beforeTotal htotal]
  apply readLines_cons_congr
  intro state
  rw [hchunk h.beforePerfIndex hperfIndex]
  apply readLines_cons_congr
  intro state
  rw [hchunk h.beforeCorrect hcorrect]
  apply readLines_cons_congr
  intro state
  rw [hchunk h.beforePerfidx hperfidx]
  apply readLines_cons_congr
  intro state
  rw [← List.append_nil (splitlines other.afterwards), readLines_quiet h.afterwards]

/-! ## What is read -/

/-- A printed number reaches `float`. -/
theorem pyFloat_toDigits (n : Nat) : pyFloat (Nat.toDigits 10 n) = .ok (.ofRat n) := by
  unfold pyFloat
  rw [readDecimal_toDigits]

/-- The seconds reach `float`. -/
theorem pyFloat_fixedPoint (m : Nat) : pyFloat (fixedPoint 6 m) = .ok (.ofRat (m / 10 ^ 6)) := by
  unfold pyFloat
  rw [readDecimal_fixedPoint (by decide)]

/-- A number narrower than a field is read by `int`. -/
theorem pyInt_of_lt {n k : Nat} (hk : k ≤ maxStrDigits) (h : n < 10 ^ k) :
    pyInt (Nat.toDigits 10 n) = .ok n := by
  rw [pyInt_toDigits, if_pos (h.trans_le (Nat.pow_le_pow_right (by decide) hk))]

/-- What is read of the lines after the totals. -/
theorem readLines_last (r : DriverReport) (state : ParseState) :
    readLines state [r.perfIndexLine, r.correctLine, r.perfidxLine] =
      if r.correct < 10 ^ maxStrDigits then
        .ok ⟨{ state.measures with correct := some r.correct, perfidx := some (.ofRat r.perfidx) },
          some (.ofRat r.perfidx)⟩
      else .error .valueError := by
  simp only [readLines, matchLine_perfIndexLine, matchLine_correctLine, matchLine_perfidxLine,
    LineMatch.read, pyFloat_toDigits, pyInt_toDigits]
  by_cases h : r.correct < 10 ^ maxStrDigits
  · rw [if_pos h, if_pos h]
    rfl
  · rw [if_neg h, if_neg h]
    rfl

/-- **What is read of an output** whose totals are matched. -/
theorem parseMdriverOutput_narrow {r : DriverReport} (h : r.Narrow) {other : OtherLines}
    (hother : other.Unread) :
    parseMdriverOutput (driverOutput r other) =
      if r.util < 10 ^ maxStrDigits ∧ r.correct < 10 ^ maxStrDigits then
        .ok ⟨some r.correct, some (.ofRat r.perfidx), some r.util, some r.ops,
          some (.ofRat (r.micros / 10 ^ 6)), some r.kops⟩
      else .error .valueError := by
  have hops : pyInt (Nat.toDigits 10 r.ops) = .ok r.ops := pyInt_of_lt (by decide) h.1
  have hkops : pyInt (Nat.toDigits 10 r.kops) = .ok r.kops := pyInt_of_lt (by decide) h.2.2
  unfold parseMdriverOutput
  rw [readLines_driverOutput r hother, readLines, matchLine_totalLine, if_pos h]
  simp only [LineMatch.read, hops, hkops, pyFloat_fixedPoint, pyInt_toDigits]
  by_cases hutil : r.util < 10 ^ maxStrDigits
  · rw [if_pos hutil]
    change (readLines _ [r.perfIndexLine, r.correctLine, r.perfidxLine] >>= _) = _
    rw [readLines_last]
    by_cases hcorrect : r.correct < 10 ^ maxStrDigits
    · rw [if_pos hcorrect, if_pos ⟨hutil, hcorrect⟩]
      rfl
    · rw [if_neg hcorrect, if_neg fun hboth => hcorrect hboth.2]
      rfl
  · rw [if_neg hutil, if_neg fun hboth => hutil hboth.1]
    rfl

/-- **What is read of an output** whose totals are not matched: they stay blank. -/
theorem parseMdriverOutput_wide {r : DriverReport} (h : ¬ r.Narrow) {other : OtherLines}
    (hother : other.Unread) :
    parseMdriverOutput (driverOutput r other) =
      if r.correct < 10 ^ maxStrDigits then
        .ok ⟨some r.correct, some (.ofRat r.perfidx), none, none, none, none⟩
      else .error .valueError := by
  unfold parseMdriverOutput
  rw [readLines_driverOutput r hother, readLines, matchLine_totalLine, if_neg h]
  simp only [readLines_last]
  by_cases hcorrect : r.correct < 10 ^ maxStrDigits
  · rw [if_pos hcorrect, if_pos hcorrect]
    rfl
  · rw [if_neg hcorrect, if_neg hcorrect]
    rfl

/-- The record holds exactly what was printed: the integers as they are, the performance index as a
double of the same value, and the seconds as the double nearest to the microseconds over a million. -/
structure Recovers (r : DriverReport) (measures : Measures) : Prop where
  correct : measures.correct = some r.correct
  perfidx : ∃ x : Binary64, measures.perfidx = some (.finite x) ∧ x.value = r.perfidx
  utilPercent : measures.utilPercent = some r.util
  totalOps : measures.totalOps = some r.ops
  totalSecs : measures.totalSecs = some (.ofRat (r.micros / 10 ^ 6))
  totalKops : measures.totalKops = some r.kops

/-- The numbers can be read back: the totals are narrower than their fields, no integer is too long for
`int`, and the performance index is a double, as every number is that `%.0f` prints. -/
structure DriverReport.Fits (r : DriverReport) : Prop where
  narrow : r.Narrow
  util : r.util < 10 ^ maxStrDigits
  correct : r.correct < 10 ^ maxStrDigits
  perfidx : IsBinary64 r.perfidx

/-- **The scripts recover what the driver prints** exactly when it fits. -/
theorem recovers_iff (r : DriverReport) {other : OtherLines} (h : other.Unread) :
    (∃ measures, parseMdriverOutput (driverOutput r other) = .ok measures ∧ Recovers r measures) ↔
      r.Fits := by
  by_cases hnarrow : r.Narrow
  · rw [parseMdriverOutput_narrow hnarrow h]
    by_cases hints : r.util < 10 ^ maxStrDigits ∧ r.correct < 10 ^ maxStrDigits
    · rw [if_pos hints]
      constructor
      · rintro ⟨measures, hok, hrec⟩
        obtain rfl := Except.ok.inj hok
        obtain ⟨x, hx, hvalue⟩ := hrec.perfidx
        exact ⟨hnarrow, hints.1, hints.2,
          Double.ofRat_exact_iff.mp ⟨x, Option.some.inj hx, hvalue⟩⟩
      · intro hfits
        obtain ⟨x, hx, hvalue⟩ := Double.ofRat_exact_iff.mpr hfits.perfidx
        exact ⟨_, rfl, rfl, ⟨x, congrArg some hx, hvalue⟩, rfl, rfl, rfl, rfl⟩
    · rw [if_neg hints]
      refine iff_of_false ?_ fun hfits => hints ⟨hfits.util, hfits.correct⟩
      rintro ⟨measures, hok, -⟩
      exact absurd hok (by simp)
  · rw [parseMdriverOutput_wide hnarrow h]
    refine iff_of_false ?_ fun hfits => hnarrow hfits.narrow
    rintro ⟨measures, hok, hrec⟩
    split at hok
    · obtain rfl := Except.ok.inj hok
      exact absurd hrec.utilPercent (by simp)
    · exact absurd hok (by simp)

/-- No other lines. -/
def noOtherLines : OtherLines := ⟨[], [], [], [], []⟩

/-- An empty text is quiet. -/
theorem noOtherLines_unread : noOtherLines.Unread := by
  have hquiet : Quiet [] := by
    unfold Quiet
    rw [splitlines_nil]
    simp
  exact ⟨⟨hquiet, Or.inl rfl⟩, ⟨hquiet, Or.inl rfl⟩, ⟨hquiet, Or.inl rfl⟩, ⟨hquiet, Or.inl rfl⟩,
    hquiet⟩

/-- A run of eleven traces. -/
def sampleReport : DriverReport := ⟨74, 80211, 12345, 6497, 11, 44, 40, 84⟩

/-- A run of ten million operations. -/
def sampleWideReport : DriverReport := ⟨74, 10000000, 1539000, 6497, 11, 44, 40, 84⟩

/-- `recovers_iff` for the run of eleven traces: it is recovered. -/
theorem recovers_sample :
    ∃ measures, parseMdriverOutput (driverOutput sampleReport noOtherLines) = .ok measures ∧
      Recovers sampleReport measures := by
  have hlimit : ∀ n, n < 10 ^ 2 → n < 10 ^ maxStrDigits := fun n hn =>
    hn.trans_le (Nat.pow_le_pow_right (by decide) (by decide))
  apply (recovers_iff sampleReport noOtherLines_unread).mpr
  exact ⟨by decide, hlimit _ (by decide), hlimit _ (by decide), isBinary64_natCast (by decide)⟩

/-- **Ten million operations are not recovered**: the field of the operations is full, and the line of
totals does not match. -/
theorem wide_report_not_recovered :
    ¬ ∃ measures, parseMdriverOutput (driverOutput sampleWideReport noOtherLines) = .ok measures ∧
      Recovers sampleWideReport measures := by
  have hwide : ¬ sampleWideReport.Narrow := by decide
  rw [parseMdriverOutput_wide hwide noOtherLines_unread]
  rintro ⟨measures, hok, hrec⟩
  split at hok
  · obtain rfl := Except.ok.inj hok
    exact absurd hrec.utilPercent (by simp)
  · exact absurd hok (by simp)

end MallocBench
