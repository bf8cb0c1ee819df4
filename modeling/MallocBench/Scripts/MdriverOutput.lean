import MallocBench.Numbers.Conversions
import MallocBench.Text.Lines
import MallocBench.Text.Patterns

/-! # Reading the driver's output

`parse_mdriver_output` goes through the lines of an output, tries four patterns on each and converts the
captured texts to numbers. A pattern decides which texts reach `int` and `float`; the texts these do not
take are what makes the function raise.

* **`matchLine_wellFormed`**: what a pattern captures is a run of digits, or of digits and points.
* **`parseMdriverOutput_returns_iff`**: the function returns iff every captured text `Converts`: a run of
  digits is not too long, and a run of digits and points has a digit and at most one point. -/

namespace MallocBench

open Text Numbers

/-! ## The patterns -/

/-- `\s*`. -/
def anySpace : Item := ⟨.space, .star, false⟩

/-- `\s+`. -/
def someSpace : Item := ⟨.space, .plus, false⟩

/-- `(\d+)`. -/
def digitGroup : Item := ⟨.digit, .plus, true⟩

/-- `([0-9.]+)`. -/
def numberGroup : Item := ⟨.set "0123456789.".toList, .plus, true⟩

/-- `TOTAL_RE`. -/
def totalRe : Pattern :=
  anySpace :: Pattern.lit "Total" ++ someSpace :: digitGroup :: Pattern.lit "%" ++
    [someSpace, digitGroup, someSpace, numberGroup, someSpace, digitGroup, anySpace]

/-- `CORRECT_RE`. -/
def correctRe : Pattern := Pattern.lit "correct:" ++ [digitGroup, anySpace]

/-- `PERFIDX_RE`. -/
def perfidxRe : Pattern := Pattern.lit "perfidx:" ++ [numberGroup, anySpace]

/-- `PERF_LINE_RE`. -/
def perfLineRe : Pattern :=
  Pattern.lit "Perf index = " ++ numberGroup :: Pattern.lit " (util) + " ++
    numberGroup :: Pattern.lit " (thru) = " ++ numberGroup :: Pattern.lit "/100" ++ [anySpace]

/-- `match.group`. -/
def group (groups : List (List Char)) (i : Nat) : List Char := groups.getD (i - 1) []

/-! ## One line -/

/-- The pattern a line matches, with the captured texts the program uses. -/
inductive LineMatch where
  | correct (count : List Char)
  | perfidx (value : List Char)
  | perfLine (value : List Char)
  | total (utilPercent totalOps totalSecs totalKops : List Char)
  deriving DecidableEq

/-- The patterns tried on the line without its margins, in this order. -/
def matchStripped (line : List Char) : Option LineMatch :=
  match correctRe.matchGroups line with
  | some groups => some (.correct (group groups 1))
  | none =>
    match perfidxRe.matchGroups line with
    | some groups => some (.perfidx (group groups 1))
    | none =>
      match perfLineRe.matchGroups line with
      | some groups => some (.perfLine (group groups 3))
      | none => none

/-- All patterns: `TOTAL_RE` comes last and is tried on the line with its margins. -/
def matchLine (rawLine : List Char) : Option LineMatch :=
  match matchStripped (strip rawLine) with
  | some m => some m
  | none =>
    -- only here the margins count
    match totalRe.matchGroups rawLine with
    | some groups =>
      some (.total (group groups 1) (group groups 2) (group groups 3) (group groups 4))
    | none => none

/-- The record `parse_mdriver_output` returns. -/
structure Measures where
  correct : Option Nat
  perfidx : Option Double
  utilPercent : Option Nat
  totalOps : Option Nat
  totalSecs : Option Double
  totalKops : Option Nat
  deriving DecidableEq

/-- The variables of the loop: the record, and the index of the performance line. -/
structure ParseState where
  measures : Measures
  perfidxFromLine : Option Double

/-- The variables before the loop. -/
def ParseState.initial : ParseState := ⟨⟨none, none, none, none, none, none⟩, none⟩

/-- The conversions after a match. -/
def LineMatch.read (state : ParseState) : LineMatch → Except PyError ParseState
  | .correct count => do
    let n ← pyInt count
    return { state with measures := { state.measures with correct := some n } }
  | .perfidx value => do
    let x ← pyFloat value
    return { state with measures := { state.measures with perfidx := some x } }
  | .perfLine value => do
    let x ← pyFloat value
    return { state with perfidxFromLine := some x }
  | .total utilPercent totalOps totalSecs totalKops => do
    let util ← pyInt utilPercent
    let ops ← pyInt totalOps
    let secs ← pyFloat totalSecs
    let kops ← pyInt totalKops
    return { state with
      measures :=
        { state.measures with
          utilPercent := some util
          totalOps := some ops
          totalSecs := some secs
          totalKops := some kops } }

/-! ## The whole output -/

/-- The loop over the lines. -/
def readLines (state : ParseState) : List (List Char) → Except PyError ParseState
  | [] => .ok state
  | rawLine :: rest =>
    match matchLine rawLine with
    | some m => do
      let state ← m.read state
      readLines state rest
    | none => readLines state rest

/-- `parse_mdriver_output`. -/
def parseMdriverOutput (output : List Char) : Except PyError Measures := do
  let state ← readLines .initial (splitlines output)
  return { state.measures with perfidx := state.measures.perfidx <|> state.perfidxFromLine }

/-! ## When it raises -/

/-- `int` takes this run of digits. -/
def IntText (s : List Char) : Prop := s.length ≤ maxStrDigits

/-- `float` takes this run of digits and points. -/
def FloatText (s : List Char) : Prop := (∃ c ∈ s, c ≠ '.') ∧ s.count '.' ≤ 1

/-- Every captured text is one its conversion takes. -/
def LineMatch.Converts : LineMatch → Prop
  | .correct count => IntText count
  | .perfidx value => FloatText value
  | .perfLine value => FloatText value
  | .total utilPercent totalOps totalSecs totalKops =>
    IntText utilPercent ∧ IntText totalOps ∧ FloatText totalSecs ∧ IntText totalKops

instance (s : List Char) : Decidable (IntText s) := inferInstanceAs (Decidable (_ ≤ _))

instance (s : List Char) : Decidable (FloatText s) :=
  have _ : Decidable (∃ c ∈ s, c ≠ '.') := List.decidableBEx _ s
  inferInstanceAs (Decidable (_ ∧ _))

instance : DecidablePred LineMatch.Converts
  | .correct count => inferInstanceAs (Decidable (IntText count))
  | .perfidx value => inferInstanceAs (Decidable (FloatText value))
  | .perfLine value => inferInstanceAs (Decidable (FloatText value))
  | .total _ _ _ _ => inferInstanceAs (Decidable (_ ∧ _ ∧ _ ∧ _))

/-- What the patterns capture: digits, or digits and points, at least one. -/
def LineMatch.WellFormed : LineMatch → Prop
  | .correct count => digitGroup.Accepts count
  | .perfidx value => numberGroup.Accepts value
  | .perfLine value => numberGroup.Accepts value
  | .total utilPercent totalOps totalSecs totalKops =>
    digitGroup.Accepts utilPercent ∧ digitGroup.Accepts totalOps ∧
      numberGroup.Accepts totalSecs ∧ digitGroup.Accepts totalKops

/-- What the patterns for stripped lines capture. -/
theorem matchStripped_wellFormed {line : List Char} {m : LineMatch}
    (h : matchStripped line = some m) : m.WellFormed := by
  unfold matchStripped at h
  split at h
  · next groups hm =>
    obtain rfl := Option.some.inj h
    have hgroups := Pattern.matchGroups_accepted hm
    rw [show correctRe.filter Item.capture = [digitGroup] from rfl] at hgroups
    cases hgroups with
    | cons hcount _ => exact hcount
  · split at h
    · next groups hm =>
      obtain rfl := Option.some.inj h
      have hgroups := Pattern.matchGroups_accepted hm
      rw [show perfidxRe.filter Item.capture = [numberGroup] from rfl] at hgroups
      cases hgroups with
      | cons hvalue _ => exact hvalue
    · split at h
      · next groups hm =>
        obtain rfl := Option.some.inj h
        have hgroups := Pattern.matchGroups_accepted hm
        rw [show perfLineRe.filter Item.capture = [numberGroup, numberGroup, numberGroup]
          from rfl] at hgroups
        obtain _ | ⟨-, _ | ⟨-, _ | ⟨hvalue, -⟩⟩⟩ := hgroups
        exact hvalue
      · exact absurd h (by simp)

/-- **A captured text is what its group accepts.** -/
theorem matchLine_wellFormed {rawLine : List Char} {m : LineMatch} (h : matchLine rawLine = some m) :
    m.WellFormed := by
  unfold matchLine at h
  split at h
  · next m' hm =>
    obtain rfl := Option.some.inj h
    exact matchStripped_wellFormed hm
  · split at h
    · next groups hm =>
      obtain rfl := Option.some.inj h
      have hgroups := Pattern.matchGroups_accepted hm
      rw [show totalRe.filter Item.capture = [digitGroup, digitGroup, numberGroup, digitGroup]
        from rfl] at hgroups
      obtain _ | ⟨hutil, _ | ⟨hops, _ | ⟨hsecs, _ | ⟨hkops, -⟩⟩⟩⟩ := hgroups
      exact ⟨hutil, hops, hsecs, hkops⟩
    · exact absurd h (by simp)

/-- `int` takes a group of digits unless it is too long. -/
theorem pyInt_digitGroup {s : List Char} (h : digitGroup.Accepts s) :
    (∃ n, pyInt s = .ok n) ↔ IntText s :=
  pyInt_eq_ok_iff h.2 h.1

/-- `float` takes a group of digits and points iff it is a numeral. -/
theorem pyFloat_numberGroup {s : List Char} (h : numberGroup.Accepts s) :
    (∃ x, pyFloat s = .ok x) ↔ FloatText s := by
  apply pyFloat_eq_ok_iff
  intro c hc
  -- the class of the group is the ten digits and the point
  have hset : ("0123456789.".toList.all fun d => isAsciiDigit d || d == '.') = true := by decide
  simpa using List.all_eq_true.mp hset c (List.contains_iff_mem.mp (h.1 c hc))

/-- **The conversions of one line** return iff every text converts. -/
theorem LineMatch.read_returns_iff {m : LineMatch} (h : m.WellFormed) (state : ParseState) :
    (∃ state', m.read state = .ok state') ↔ m.Converts := by
  cases m with
  | correct count =>
      refine Iff.trans ?_ (pyInt_digitGroup h)
      unfold LineMatch.read
      rw [exists_bind_eq_ok]
      simp [pure, Except.pure]
  | perfidx value =>
      refine Iff.trans ?_ (pyFloat_numberGroup h)
      unfold LineMatch.read
      rw [exists_bind_eq_ok]
      simp [pure, Except.pure]
  | perfLine value =>
      refine Iff.trans ?_ (pyFloat_numberGroup h)
      unfold LineMatch.read
      rw [exists_bind_eq_ok]
      simp [pure, Except.pure]
  | total utilPercent totalOps totalSecs totalKops =>
      obtain ⟨hutil, hops, hsecs, hkops⟩ := h
      have hconverts : LineMatch.Converts (.total utilPercent totalOps totalSecs totalKops) ↔
          (∃ n, pyInt utilPercent = .ok n) ∧ (∃ n, pyInt totalOps = .ok n) ∧
            (∃ x, pyFloat totalSecs = .ok x) ∧ ∃ n, pyInt totalKops = .ok n := by
        rw [pyInt_digitGroup hutil, pyInt_digitGroup hops, pyFloat_numberGroup hsecs,
          pyInt_digitGroup hkops]
        exact Iff.rfl
      rw [hconverts]
      unfold LineMatch.read
      simp only [exists_bind_eq_ok]
      simp [pure, Except.pure]

/-- The loop returns iff every line it matches converts. -/
theorem readLines_returns_iff (state : ParseState) (lines : List (List Char)) :
    (∃ state', readLines state lines = .ok state') ↔
      ∀ rawLine ∈ lines, ∀ m, matchLine rawLine = some m → m.Converts := by
  induction lines generalizing state with
  | nil => exact iff_of_true ⟨state, rfl⟩ (by simp)
  | cons rawLine rest ih =>
      rw [List.forall_mem_cons]
      cases hm : matchLine rawLine with
      | none =>
          simp only [readLines, hm]
          rw [ih]
          simp
      | some m =>
          simp only [readLines, hm]
          rw [exists_bind_eq_ok]
          have hread := LineMatch.read_returns_iff (matchLine_wellFormed hm) state
          constructor
          · rintro ⟨state', hs, hrest⟩
            refine ⟨?_, (ih state').mp hrest⟩
            intro m' hm'
            obtain rfl := Option.some.inj hm'
            exact hread.mp ⟨state', hs⟩
          · rintro ⟨hline, hrest⟩
            obtain ⟨state', hs⟩ := hread.mpr (hline m rfl)
            exact ⟨state', hs, (ih state').mpr hrest⟩

/-- Every text that is captured in the output converts. -/
def Convertible (output : List Char) : Prop :=
  ∀ rawLine ∈ splitlines output, ∀ m, matchLine rawLine = some m → m.Converts

/-- **`parse_mdriver_output` returns** iff every captured text converts. -/
theorem parseMdriverOutput_returns_iff (output : List Char) :
    (∃ measures, parseMdriverOutput output = .ok measures) ↔ Convertible output := by
  unfold parseMdriverOutput Convertible
  rw [exists_bind_eq_ok, ← readLines_returns_iff .initial]
  simp [pure, Except.pure]

/-! ## What it reads -/

/-- The utilisation and the operations of a line of totals. -/
def LineMatch.totals : LineMatch → Option (Nat × Nat)
  | .total utilPercent totalOps _ _ => some (digitsValue utilPercent, digitsValue totalOps)
  | _ => none

/-- The line gives the count of valid traces. -/
def LineMatch.isCorrect : LineMatch → Bool
  | .correct _ => true
  | _ => false

/-- The line gives a performance index. -/
def LineMatch.isPerf : LineMatch → Bool
  | .perfidx _ => true
  | .perfLine _ => true
  | _ => false

/-- A performance index was read, from either line. -/
def ParseState.HasPerf (state : ParseState) : Prop :=
  (state.measures.perfidx <|> state.perfidxFromLine) ≠ none

/-- **One line** sets the totals, the count or the index, and leaves the rest. -/
theorem LineMatch.read_step {m : LineMatch} {state state' : ParseState}
    (h : m.read state = .ok state') :
    state'.measures.utilPercent = (m.totals.map Prod.fst <|> state.measures.utilPercent) ∧
      state'.measures.totalOps = (m.totals.map Prod.snd <|> state.measures.totalOps) ∧
      (state'.measures.correct ≠ none ↔ m.isCorrect = true ∨ state.measures.correct ≠ none) ∧
      (state'.HasPerf ↔ m.isPerf = true ∨ state.HasPerf) := by
  unfold ParseState.HasPerf
  cases m with
  | correct count =>
      obtain ⟨n, -, h⟩ := bind_eq_ok.mp h
      obtain rfl := Except.ok.inj h
      simp [LineMatch.totals, LineMatch.isCorrect, LineMatch.isPerf]
  | perfidx value =>
      obtain ⟨x, -, h⟩ := bind_eq_ok.mp h
      obtain rfl := Except.ok.inj h
      simp [LineMatch.totals, LineMatch.isCorrect, LineMatch.isPerf]
  | perfLine value =>
      obtain ⟨x, -, h⟩ := bind_eq_ok.mp h
      obtain rfl := Except.ok.inj h
      simp [LineMatch.totals, LineMatch.isCorrect, LineMatch.isPerf]
  | total utilPercent totalOps totalSecs totalKops =>
      obtain ⟨util, hutil, h⟩ := bind_eq_ok.mp h
      obtain ⟨ops, hops, h⟩ := bind_eq_ok.mp h
      obtain ⟨secs, -, h⟩ := bind_eq_ok.mp h
      obtain ⟨kops, -, h⟩ := bind_eq_ok.mp h
      obtain rfl := Except.ok.inj h
      simp [LineMatch.totals, LineMatch.isCorrect, LineMatch.isPerf, pyInt_value hutil,
        pyInt_value hops]

/-- The matches of some lines. -/
def matchesOf (lines : List (List Char)) : List LineMatch := lines.filterMap matchLine

/-- The last totals of a list with one more match in front. -/
theorem getLast?_totals {α : Type} (f : Nat × Nat → α) (m : LineMatch) (ms : List LineMatch)
    (before : Option α) :
    ((ms.filterMap LineMatch.totals).getLast?.map f <|> (m.totals.map f <|> before)) =
      (((m :: ms).filterMap LineMatch.totals).getLast?.map f <|> before) := by
  rw [List.filterMap_cons]
  cases m.totals with
  | none => simp
  | some t =>
      simp only [List.getLast?_cons]
      cases (ms.filterMap LineMatch.totals).getLast? with
      | none => simp
      | some u => simp

/-- **All lines**: the totals are those of the last line of totals, and the count and the index are
there iff a line gives them. -/
theorem readLines_run {lines : List (List Char)} {state state' : ParseState}
    (h : readLines state lines = .ok state') :
    state'.measures.utilPercent =
        (((matchesOf lines).filterMap LineMatch.totals).getLast?.map Prod.fst <|>
          state.measures.utilPercent) ∧
      state'.measures.totalOps =
        (((matchesOf lines).filterMap LineMatch.totals).getLast?.map Prod.snd <|>
          state.measures.totalOps) ∧
      (state'.measures.correct ≠ none ↔
        (∃ m ∈ matchesOf lines, m.isCorrect = true) ∨ state.measures.correct ≠ none) ∧
      (state'.HasPerf ↔ (∃ m ∈ matchesOf lines, m.isPerf = true) ∨ state.HasPerf) := by
  unfold matchesOf
  induction lines generalizing state with
  | nil =>
      obtain rfl := Except.ok.inj h
      simp
  | cons rawLine rest ih =>
      cases hm : matchLine rawLine with
      | none =>
          rw [readLines, hm] at h
          rw [List.filterMap_cons_none hm]
          exact ih h
      | some m =>
          rw [readLines, hm] at h
          obtain ⟨state₁, hread, h⟩ := bind_eq_ok.mp h
          obtain ⟨hutil, hops, hcorrect, hperf⟩ := LineMatch.read_step hread
          obtain ⟨ihutil, ihops, ihcorrect, ihperf⟩ := ih h
          rw [List.filterMap_cons_some hm]
          refine ⟨?_, ?_, ?_, ?_⟩
          · -- a later line of totals wins over this one, and this one over what was there
            rw [ihutil, hutil]
            exact getLast?_totals Prod.fst m _ _
          · rw [ihops, hops]
            exact getLast?_totals Prod.snd m _ _
          · rw [ihcorrect, hcorrect, List.exists_mem_cons_iff, or_assoc]
            exact or_left_comm
          · rw [ihperf, hperf, List.exists_mem_cons_iff, or_assoc]
            exact or_left_comm

/-- The output has the count of valid traces and a performance index. -/
def Complete (output : List Char) : Prop :=
  (∃ m ∈ matchesOf (splitlines output), m.isCorrect = true) ∧
    ∃ m ∈ matchesOf (splitlines output), m.isPerf = true

instance (output : List Char) : Decidable (Complete output) := inferInstanceAs (Decidable (_ ∧ _))

/-- The utilisation and the operations of the last line of totals. -/
def lastTotals (output : List Char) : Option (Nat × Nat) :=
  ((matchesOf (splitlines output)).filterMap LineMatch.totals).getLast?

/-- **What `parse_mdriver_output` returns**, as far as the attempts depend on it. -/
theorem parseMdriverOutput_measures {output : List Char} {measures : Measures}
    (h : parseMdriverOutput output = .ok measures) :
    measures.utilPercent = (lastTotals output).map Prod.fst ∧
      measures.totalOps = (lastTotals output).map Prod.snd ∧
      (measures.correct ≠ none ∧ measures.perfidx ≠ none ↔ Complete output) := by
  obtain ⟨state, hread, h⟩ := bind_eq_ok.mp h
  obtain rfl := Except.ok.inj h
  obtain ⟨hutil, hops, hcorrect, hperf⟩ := readLines_run hread
  unfold ParseState.HasPerf at hperf
  unfold Complete lastTotals
  refine ⟨?_, ?_, ?_⟩
  · simpa [ParseState.initial] using hutil
  · simpa [ParseState.initial] using hops
  · have hnone : ParseState.initial.measures.correct = none := rfl
    have hnoperf : (ParseState.initial.measures.perfidx <|> ParseState.initial.perfidxFromLine) =
        none := rfl
    rw [hnone] at hcorrect
    rw [hnoperf] at hperf
    simp only [hcorrect, hperf, ne_eq, not_true_eq_false, or_false]

end MallocBench
