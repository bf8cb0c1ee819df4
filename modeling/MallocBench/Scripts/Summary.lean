import MallocBench.Lists.Ranking
import MallocBench.Numbers.SignedFloats
import Mathlib.Data.Char
import Mathlib.Data.List.Lex
import Mathlib.Data.Prod.Lex

/-! # The summary of a run

`write_summary_files` gives every result a score, sorts the results by status, score, throughput and alias,
and ranks those whose status is OK. The sort sees the score of the result alone; the rows show the score
under the score configuration. That the two agree is due to `normalize_results`, which stores the score
it computes.

* **`computeScore_returns`**: a score is not negative, and computing it raises only for a cap that is not
  positive.
* **`sortKey_lt_iff`**: Python's comparison of the key tuples is a lexicographic order.
* **`toCsvRows_ranks`**: the rows are the results in rank order. -/

namespace MallocBench

open Numbers Ranking

/-! ## Scores -/

/-- The record of `parse_score_config`. -/
structure ScoreConfig (α : Type) where
  utilWeight : α
  throughputWeight : α
  avgLibcThroughputOps : α
  avgLibcThroughputKops : α

/-- `compute_score`. The error is the message of a `BenchmarkError`. -/
def computeScore {α : Type} [Arithmetic α] (utilPercent throughputKops : Option α)
    (scoreConfig : Option (ScoreConfig α)) : Except String (Option α) :=
  match utilPercent, throughputKops, scoreConfig with
  | some utilPercent, some throughputKops, some c =>
    if Arithmetic.le c.avgLibcThroughputKops (Arithmetic.constant 0) then
      .error "avg_libc_throughput_kops must be positive"
    else
      let utilization := Arithmetic.divide utilPercent (Arithmetic.constant 100)
      let throughputRatio :=
        pyMin (Arithmetic.divide throughputKops c.avgLibcThroughputKops) (Arithmetic.constant 1)
      let weighted := Arithmetic.add (Arithmetic.mul c.utilWeight utilization)
        (Arithmetic.mul c.throughputWeight throughputRatio)
      .ok (some (Arithmetic.round 1 (Arithmetic.mul weighted (Arithmetic.constant 100))))
  | _, _, _ => .ok none

/-- A number of a result: an integer that `float` takes, as every integer of a result is one that was
made from a float, or a float. -/
inductive Number where
  | int (n : ℤ) (fits : |(n : ℚ)| < overflowThreshold)
  | float (x : PyFloat)
  deriving DecidableEq

/-- `float`. -/
def Number.toFloat : Number → PyFloat
  | int n _ => .ofRat n
  | float x => x

/-- The entries of a result that the summary uses. An absent entry and one that is `None` are the same
here, as they are for `dict.get`. -/
structure ResultDict where
  aliasName : List Char
  status : List Char
  harnessDiffCount : Nat
  correct : Option Nat
  score : Option Number
  perfidx : Option Number
  utilPercent : Option Number
  throughputKops : Option Number
  branch : List Char
  commit : Option (List Char)
  repoUrl : List Char
  mode : List Char
  deriving DecidableEq

/-- `score_from_result`. -/
def scoreFromResult (result : ResultDict) (scoreConfig : Option (ScoreConfig PyFloat)) :
    Except String (Option PyFloat) :=
  match result.score with
  | some explicitScore => .ok (some explicitScore.toFloat)
  | none =>
    match result.perfidx with
    | some perfidx => .ok (some perfidx.toFloat)
    | none =>
      computeScore (result.utilPercent.map Number.toFloat) (result.throughputKops.map Number.toFloat)
        scoreConfig

/-- One pass of the loop of `normalize_results`. -/
def normalizeResult (scoreConfig : Option (ScoreConfig PyFloat)) (result : ResultDict) :
    Except String ResultDict := do
  let score ← scoreFromResult result scoreConfig
  match score with
  | some score => return { result with score := some (.float score) }
  | none => return result

/-- `normalize_results`. -/
def normalizeResults (scoreConfig : Option (ScoreConfig PyFloat)) :
    List ResultDict → Except String (List ResultDict)
  | [] => .ok []
  | result :: rest => do
    let item ← normalizeResult scoreConfig result
    let items ← normalizeResults scoreConfig rest
    return item :: items

/-! ## Sorting -/

/-- `status_rank`. -/
def statusRanks : List (String × Nat) :=
  [("OK", 0), ("INCORRECT", 1), ("UNSTABLE", 2), ("HARNESS_DIFF", 3), ("BUILD_FAIL", 4),
    ("RUN_FAIL", 5), ("PARTICIPANT_ERROR", 6), ("DIRTY_REPO", 7), ("SYNC_FAIL", 8)]

/-- `status_rank.get(status, 99)`. -/
def statusRank (status : List Char) : Nat :=
  ((statusRanks.find? fun entry => entry.1.toList = status).map Prod.snd).getD 99

/-- The tuple `sort_key` returns. -/
structure SortKey where
  statusRank : Nat
  score : PyFloat
  throughput : PyFloat
  aliasName : List Char

/-- `score_from_result(result, None)`: without a configuration no score is computed. -/
def ownScore (result : ResultDict) : Option PyFloat :=
  (result.score <|> result.perfidx).map Number.toFloat

/-- A value negated for the key, -1 standing for one that is absent. -/
def negated (x : Option PyFloat) : PyFloat := (x.getD (.ofRat (-1))).neg

/-- `sort_key`. -/
def sortKey (result : ResultDict) : SortKey where
  statusRank := statusRank result.status
  score := negated (ownScore result)
  throughput := negated (result.throughputKops.map Number.toFloat)
  aliasName := result.aliasName

/-- `<` of two key tuples: the first components that are not equal decide. -/
def SortKey.lt (a b : SortKey) : Bool :=
  if a.statusRank ≠ b.statusRank then a.statusRank < b.statusRank
  else if a.score.eq b.score = false then a.score.lt b.score
  else if a.throughput.eq b.throughput = false then a.throughput.lt b.throughput
  else a.aliasName < b.aliasName

/-- `sort_results`. The sort is stable and compares with `<` only. Where a score or a throughput is not a
number, these comparisons are no order: what they are sorted to then depends on the algorithm, which is
not that of `sorted`. -/
def sortResults (results : List ResultDict) : List ResultDict :=
  results.mergeSort fun a b => !(sortKey b).lt (sortKey a)

/-! ## Rows -/

/-- A row of the summary. An entry that is `""` instead of a number is `none`. -/
structure Row where
  rank : Option Nat
  aliasName : List Char
  status : List Char
  harness : List Char
  correct : List Char
  utilPercent : Option Number
  throughputKops : List Char
  score : List Char
  perfidx : List Char
  branch : List Char
  commit : Option (List Char)
  repoUrl : List Char
  mode : List Char
  deriving DecidableEq

/-- `format_optional_float`. -/
def formatOptionalFloat (value : Option PyFloat) (digits : Nat) : List Char :=
  match value with
  | none => []
  | some x => x.format digits

/-- `render_harness_label`. -/
def renderHarnessLabel (diffCount : Nat) : List Char :=
  if diffCount = 0 then "MATCH".toList
  else "DIFF(".toList ++ Nat.toDigits 10 diffCount ++ ")".toList

/-- `correct_label`, of numbers with at most 4300 digits: `str` raises an error on longer ones. -/
def correctLabel (correct : Option Nat) (expectedTraces : Nat) : List Char :=
  match correct with
  | none => []
  | some n => Nat.toDigits 10 n ++ '/' :: Nat.toDigits 10 expectedTraces

/-- The row of a result. -/
def csvRow (expectedTraces : Nat) (rank : Option Nat) (result : ResultDict) (score : Option PyFloat) :
    Row where
  rank := rank
  aliasName := result.aliasName
  status := result.status
  harness := renderHarnessLabel result.harnessDiffCount
  correct := correctLabel result.correct expectedTraces
  utilPercent := result.utilPercent
  throughputKops := formatOptionalFloat (result.throughputKops.map Number.toFloat) 3
  score := formatOptionalFloat score 1
  perfidx := formatOptionalFloat (result.perfidx.map Number.toFloat) 1
  branch := result.branch
  commit := result.commit
  repoUrl := result.repoUrl
  mode := result.mode

/-- The result is ranked. -/
def ranked (result : ResultDict) : Bool := result.status = "OK".toList

/-- The loop of `to_csv_rows`. -/
def csvRowsFrom (expectedTraces : Nat) (scoreConfig : Option (ScoreConfig PyFloat)) :
    Nat → List ResultDict → Except String (List Row)
  | _, [] => .ok []
  | rank, result :: rest => do
    let score ← scoreFromResult result scoreConfig
    let rows ← csvRowsFrom expectedTraces scoreConfig (if ranked result then rank + 1 else rank) rest
    return csvRow expectedTraces (if ranked result then some rank else none) result score :: rows

/-- `to_csv_rows`. -/
def toCsvRows (results : List ResultDict) (expectedTraces : Nat)
    (scoreConfig : Option (ScoreConfig PyFloat)) : Except String (List Row) :=
  csvRowsFrom expectedTraces scoreConfig 1 (sortResults results)

/-! ## Scores that are not negative -/

/-- A finite number that is not negative. -/
def Number.NonNeg : Number → Prop
  | int n _ => 0 ≤ n
  | float x => x.IsFinite ∧ x.NonNeg

/-- Each number of the result is finite and not negative. -/
structure ResultDict.NonNeg (result : ResultDict) : Prop where
  score : ∀ n ∈ result.score, n.NonNeg
  perfidx : ∀ n ∈ result.perfidx, n.NonNeg
  utilPercent : ∀ n ∈ result.utilPercent, n.NonNeg
  throughputKops : ∀ n ∈ result.throughputKops, n.NonNeg

/-- A weight between 0 and 1. -/
def IsWeight (x : PyFloat) : Prop := x.IsFinite ∧ x.NonNeg ∧ x.le (.ofRat 1) = true

/-- The weights are between 0 and 1, and the throughput cap is a positive number. -/
structure ScoreConfig.Valid (c : ScoreConfig PyFloat) : Prop where
  utilWeight : IsWeight c.utilWeight
  throughputWeight : IsWeight c.throughputWeight
  capFinite : c.avgLibcThroughputKops.IsFinite
  capPos : (PyFloat.ofRat 0).lt c.avgLibcThroughputKops = true

/-- A number that is not negative becomes a finite float that is not negative. -/
theorem Number.NonNeg.toFloat {n : Number} (h : n.NonNeg) :
    n.toFloat.IsFinite ∧ n.toFloat.NonNeg := by
  cases n with
  | float x => exact h
  | int n fits =>
      have hn : (0 : ℚ) ≤ n := by exact_mod_cast (show 0 ≤ n from h)
      have hneg : decide ((n : ℚ) < 0) = false := decide_eq_false (not_lt.mpr hn)
      rw [Number.toFloat, PyFloat.ofRat, hneg]
      refine ⟨?_, trivial⟩
      cases hq : Double.ofRat |(n : ℚ)| with
      | finite q => exact ⟨false, q, rfl⟩
      | inf =>
          rw [Double.ofRat_eq_inf_iff (abs_nonneg _)] at hq
          exact absurd fits (not_lt.mpr hq)

/-- A small natural number as a float. -/
theorem ofRat_natCast {n : ℕ} (hn : n ≤ 2 ^ 53) :
    ∃ y : Binary64, PyFloat.ofRat n = .signed false (.finite y) ∧ y.value = n := by
  have hneg : decide ((n : ℚ) < 0) = false := decide_eq_false (not_lt.mpr n.cast_nonneg)
  refine ⟨⟨n, isBinary64_natCast hn⟩, ?_, rfl⟩
  rw [PyFloat.ofRat, hneg, abs_of_nonneg n.cast_nonneg]
  exact congrArg _ (Double.ofRat_value ⟨n, isBinary64_natCast hn⟩)

/-- Zero is a float without a sign. -/
theorem exists_ofRat_zero : ∃ y : Binary64, PyFloat.ofRat 0 = .signed false (.finite y) ∧ y.value = 0 := by
  exact_mod_cast ofRat_natCast (n := 0) (by norm_num)

/-- So is one. -/
theorem exists_ofRat_one : ∃ y : Binary64, PyFloat.ofRat 1 = .signed false (.finite y) ∧ y.value = 1 := by
  exact_mod_cast ofRat_natCast (n := 1) (by norm_num)

/-- A positive finite float. -/
theorem exists_of_pos {x : PyFloat} (hfin : x.IsFinite) (hpos : (PyFloat.ofRat 0).lt x = true) :
    ∃ y : Binary64, x = .signed false (.finite y) ∧ 0 < y.value := by
  obtain ⟨a, y, rfl⟩ := hfin
  obtain ⟨zero, hzero, hvalue⟩ := exists_ofRat_zero
  rw [hzero, PyFloat.lt_iff (by simp) (by simp)] at hpos
  have hval : (0 : ℚ) < PyFloat.signedValue a y := by
    simpa [PyFloat.value, PyFloat.signedValue, hvalue] using hpos
  have hy := y.isBinary64.1
  cases a with
  | false => exact ⟨y, rfl, hval⟩
  | true =>
      change 0 < -y.value at hval
      linarith

/-- The ratio of a throughput to the cap, at most 1. -/
theorem ratio_nonNeg {x : PyFloat} (hx : x.IsFinite) (hnn : x.NonNeg) (y : Binary64) :
    (pyMin (x.divide (.signed false (.finite y))) (PyFloat.ofRat 1)).IsFinite ∧
      (pyMin (x.divide (.signed false (.finite y))) (PyFloat.ofRat 1)).NonNeg := by
  obtain ⟨one, hone, -⟩ := exists_ofRat_one
  have hq := hnn.divide hx y
  rw [pyMin]
  split
  · rw [hone]
    exact ⟨⟨false, _, rfl⟩, trivial⟩
  · next hlt =>
    refine ⟨?_, hq⟩
    generalize x.divide (.signed false (.finite y)) = q at *
    -- an infinite quotient is above 1
    match q with
    | .signed a (.finite z) => exact ⟨a, z, rfl⟩
    | .signed false .inf =>
        refine absurd ?_ hlt
        show (PyFloat.ofRat 1).lt _ = true
        rw [hone, PyFloat.lt_iff (by simp) (by simp)]
        exact WithBot.coe_lt_coe.mpr (WithTop.coe_lt_top _)

/-- **A score is not negative**, and computing it does not raise, when the numbers are not negative and
the configuration is valid. -/
theorem computeScore_returns {util kops : Option PyFloat} {config : Option (ScoreConfig PyFloat)}
    (hutil : ∀ x ∈ util, x.IsFinite ∧ x.NonNeg) (hkops : ∀ x ∈ kops, x.IsFinite ∧ x.NonNeg)
    (hconfig : ∀ c ∈ config, c.Valid) :
    ∃ score, computeScore util kops config = .ok score ∧ ∀ s ∈ score, s.NonNeg := by
  unfold computeScore
  split
  · next u k c =>
    obtain ⟨hufin, hunn⟩ := hutil u rfl
    obtain ⟨hkfin, hknn⟩ := hkops k rfl
    have hvalid := hconfig c rfl
    obtain ⟨cap, hcap, hpos⟩ := exists_of_pos hvalid.capFinite hvalid.capPos
    obtain ⟨zero, hzero, hvalue⟩ := exists_ofRat_zero
    obtain ⟨hundred, hhundred, hhvalue⟩ : ∃ y : Binary64,
        PyFloat.ofRat 100 = .signed false (.finite y) ∧ y.value = 100 := by
      exact_mod_cast ofRat_natCast (n := 100) (by norm_num)
    have hle : ¬ Arithmetic.le c.avgLibcThroughputKops (Arithmetic.constant 0) = true := by
      rw [hcap]
      show ¬ PyFloat.le _ (PyFloat.ofRat 0) = true
      rw [hzero, PyFloat.le_iff (by simp) (by simp)]
      simpa [PyFloat.value, PyFloat.signedValue, hvalue] using hpos
    rw [if_neg hle]
    refine ⟨_, rfl, ?_⟩
    intro s hs
    obtain rfl := Option.some.inj hs
    -- the utilisation, the ratio and the weights are finite, so their products are numbers
    have hutilization : (u.divide (PyFloat.ofRat 100)).IsFinite ∧
        (u.divide (PyFloat.ofRat 100)).NonNeg := by
      rw [hhundred]
      exact ⟨hufin.divide (by rw [hhvalue]; norm_num), hunn.divide hufin _⟩
    have hratio := ratio_nonNeg hkfin hknn cap
    rw [← hcap] at hratio
    have hweighted := (hvalid.utilWeight.2.1.mul hutilization.2 hvalid.utilWeight.1
      hutilization.1).add (hvalid.throughputWeight.2.1.mul hratio.2 hvalid.throughputWeight.1 hratio.1)
    refine PyFloat.NonNeg.round ?_ 1
    show PyFloat.NonNeg (PyFloat.mul _ (PyFloat.ofRat 100))
    rw [hhundred]
    exact hweighted.mul_pos (by rw [hhvalue]; norm_num)
  · exact ⟨none, rfl, fun s hs => by simp at hs⟩

/-- The score of a result does not raise and is not negative. -/
theorem scoreFromResult_returns {result : ResultDict} {config : Option (ScoreConfig PyFloat)}
    (hresult : result.NonNeg) (hconfig : ∀ c ∈ config, c.Valid) :
    ∃ score, scoreFromResult result config = .ok score ∧ ∀ s ∈ score, s.NonNeg := by
  unfold scoreFromResult
  split
  · next n hn => exact ⟨_, rfl, fun s hs => Option.some.inj hs ▸ (hresult.score n hn).toFloat.2⟩
  · split
    · next n hn => exact ⟨_, rfl, fun s hs => Option.some.inj hs ▸ (hresult.perfidx n hn).toFloat.2⟩
    · refine computeScore_returns ?_ ?_ hconfig
      · intro x hx
        obtain ⟨n, hn, rfl⟩ := Option.map_eq_some_iff.mp hx
        exact (hresult.utilPercent n hn).toFloat
      · intro x hx
        obtain ⟨n, hn, rfl⟩ := Option.map_eq_some_iff.mp hx
        exact (hresult.throughputKops n hn).toFloat

/-! ## Normalized results -/

/-- The score of a result under the configuration. -/
def resultScore (scoreConfig : Option (ScoreConfig PyFloat)) (result : ResultDict) : Option PyFloat :=
  match scoreFromResult result scoreConfig with
  | .ok score => score
  | .error _ => none

/-- The result with its score stored. -/
def withScore (scoreConfig : Option (ScoreConfig PyFloat)) (result : ResultDict) : ResultDict :=
  match resultScore scoreConfig result with
  | some score => { result with score := some (.float score) }
  | none => result

section Normalized

variable {config : Option (ScoreConfig PyFloat)} {result : ResultDict} {score : Option PyFloat}

/-- The score of a result, when computing it raises nothing. -/
theorem resultScore_of_ok (h : scoreFromResult result config = .ok score) :
    resultScore config result = score := by
  rw [resultScore, h]

/-- Such a result is normalized to the one with its score. -/
theorem normalizeResult_of_ok (h : scoreFromResult result config = .ok score) :
    normalizeResult config result = .ok (withScore config result) := by
  rw [normalizeResult, h, withScore, resultScore_of_ok h]
  cases score with
  | none => rfl
  | some score => rfl

/-- The score stored is the one computed again for the row. -/
theorem scoreFromResult_withScore (h : scoreFromResult result config = .ok score) :
    scoreFromResult (withScore config result) config = .ok score := by
  rw [withScore, resultScore_of_ok h]
  cases score with
  | none => exact h
  | some score => rfl

/-- **The sort sees the score of the row**, though it asks for the score without the configuration. -/
theorem ownScore_withScore (h : scoreFromResult result config = .ok score) :
    ownScore (withScore config result) = score := by
  rw [withScore, resultScore_of_ok h]
  cases score with
  | some score => rfl
  | none =>
      -- a result that has a score of its own has one under every configuration
      unfold scoreFromResult at h
      split at h
      · cases h
      · next hscore =>
        split at h
        · cases h
        · next hperfidx => simp [ownScore, hscore, hperfidx]

/-- The score leaves the alias. -/
@[simp] theorem withScore_aliasName : (withScore config result).aliasName = result.aliasName := by
  unfold withScore
  split <;> rfl

/-- It leaves the status. -/
@[simp] theorem withScore_status : (withScore config result).status = result.status := by
  unfold withScore
  split <;> rfl

/-- It leaves the throughput. -/
@[simp] theorem withScore_throughputKops :
    (withScore config result).throughputKops = result.throughputKops := by
  unfold withScore
  split <;> rfl

/-- It leaves whether a result is ranked. -/
@[simp] theorem ranked_withScore : ranked (withScore config result) = ranked result := by
  rw [ranked, withScore_status, ranked]

/-- The row does not read the score stored. -/
theorem csvRow_withScore (expectedTraces : Nat) (rank : Option Nat) :
    csvRow expectedTraces rank (withScore config result) score =
      csvRow expectedTraces rank result score := by
  unfold withScore
  split <;> rfl

end Normalized

/-- **All results are normalized**, when computing their scores raises nothing. -/
theorem normalizeResults_of_ok {config : Option (ScoreConfig PyFloat)} {results : List ResultDict}
    (h : ∀ r ∈ results, ∃ score, scoreFromResult r config = .ok score) :
    normalizeResults config results = .ok (results.map (withScore config)) := by
  induction results with
  | nil => rfl
  | cons r rest ih =>
      obtain ⟨score, hscore⟩ := h r List.mem_cons_self
      rw [normalizeResults, normalizeResult_of_ok hscore, ih fun s hs => h s (List.mem_cons_of_mem _ hs)]
      rfl

/-- The row of a result with its score under the configuration. -/
def resultRow (expectedTraces : Nat) (scoreConfig : Option (ScoreConfig PyFloat)) (rank : Option Nat)
    (result : ResultDict) : Row :=
  csvRow expectedTraces rank result (resultScore scoreConfig result)

/-- The rows of normalized results: the counter numbers the ranked ones. -/
theorem csvRowsFrom_withScore {config : Option (ScoreConfig PyFloat)} {results : List ResultDict}
    (h : ∀ r ∈ results, ∃ score, scoreFromResult r config = .ok score) (expectedTraces n : Nat) :
    csvRowsFrom expectedTraces config n (results.map (withScore config)) =
      .ok ((number ranked n results).map fun e => resultRow expectedTraces config e.1 e.2) := by
  induction results generalizing n with
  | nil => rfl
  | cons r rest ih =>
      obtain ⟨score, hscore⟩ := h r List.mem_cons_self
      have hrow (rank : Option Nat) : csvRow expectedTraces rank (withScore config r) score =
          resultRow expectedTraces config rank r := by
        rw [csvRow_withScore, resultRow, resultScore_of_ok hscore]
      rw [List.map_cons, csvRowsFrom, scoreFromResult_withScore hscore, ranked_withScore,
        ih fun s hs => h s (List.mem_cons_of_mem _ hs), number]
      cases ranked r with
      | true => exact congrArg (fun row => Except.ok (row :: _)) (hrow _)
      | false => exact congrArg (fun row => Except.ok (row :: _)) (hrow _)

/-- The rows of results with ranks. -/
def rankedRows (expectedTraces : Nat) (scoreConfig : Option (ScoreConfig PyFloat))
    (oks others : List ResultDict) : List Row :=
  (oks.zipIdx 1).map (fun e => resultRow expectedTraces scoreConfig (some e.2) e.1) ++
    others.map (resultRow expectedTraces scoreConfig none)

/-- The ranks of the rows have no gap. -/
theorem rank_rankedRows (expectedTraces : Nat) (config : Option (ScoreConfig PyFloat))
    (oks others : List ResultDict) : (rankedRows expectedTraces config oks others).map Row.rank =
      (List.range' 1 oks.length).map some ++ List.replicate others.length none := by
  have hoks : (oks.zipIdx 1).map (fun e => some e.2) = (List.range' 1 oks.length).map some := by
    rw [← List.zipIdx_map_snd 1 oks, List.map_map]
    rfl
  have hothers : others.map (fun _ => (none : Option Nat)) = List.replicate others.length none :=
    List.map_const' ..
  rw [rankedRows, List.map_append, List.map_map, List.map_map, ← hoks, ← hothers]
  rfl

/-- An entry that does not depend on the rank is that of the results. -/
theorem map_rankedRows {α : Type} (field : Row → α) {expectedTraces : Nat}
    {config : Option (ScoreConfig PyFloat)} (entry : ResultDict → α)
    (h : ∀ rank r, field (resultRow expectedTraces config rank r) = entry r)
    (oks others : List ResultDict) :
    (rankedRows expectedTraces config oks others).map field = (oks ++ others).map entry := by
  have hoks : (oks.zipIdx 1).map (fun e => entry e.1) = oks.map entry := by
    conv_rhs => rw [← List.zipIdx_map_fst 1 oks, List.map_map]
    rfl
  rw [rankedRows, List.map_append, List.map_map, List.map_map, List.map_append, ← hoks]
  simp only [Function.comp_def, h]

/-! ## The order of the keys -/

/-- The first value is higher than the second. An absent value is lower than every other. -/
def Higher : Option PyFloat → Option PyFloat → Prop
  | some x, some y => y.lt x = true
  | some _, none => True
  | none, _ => False

/-- The values are equal. -/
def Level : Option PyFloat → Option PyFloat → Prop
  | some x, some y => x.eq y = true
  | none, none => True
  | _, _ => False

/-- The stand-in for an absent value is below every number that is not negative. -/
theorem absent_value_lt_zero : (PyFloat.ofRat (-1)).value < 0 := by
  obtain ⟨one, hone, hvalue⟩ := exists_ofRat_one
  have habsent : PyFloat.ofRat (-1) = .signed true (.finite one) := by
    rw [PyFloat.ofRat] at hone ⊢
    rw [abs_neg, (PyFloat.signed.inj hone).2]
    simp
  rw [habsent]
  simp only [PyFloat.value, PyFloat.signedValue, if_true, hvalue]
  exact_mod_cast (by norm_num : (-1 : ℚ) < 0)

/-- The sentinel of an absent value is a number. -/
theorem getD_ne_nan {x : Option PyFloat} (hx : ∀ a ∈ x, a ≠ .nan) : x.getD (.ofRat (-1)) ≠ .nan := by
  cases x with
  | none => exact fun h => by cases h
  | some a => exact hx a rfl

/-- So is a key of the sort. -/
theorem negated_ne_nan {x : Option PyFloat} (hx : ∀ a ∈ x, a ≠ .nan) : negated x ≠ .nan :=
  PyFloat.neg_ne_nan (getD_ne_nan hx)

section Negated

variable {x y : Option PyFloat} (hx : ∀ a ∈ x, a.NonNeg) (hy : ∀ a ∈ y, a.NonNeg)

include hx hy

/-- **The sign and the stand-in turn the order of the optional values around.** -/
theorem negated_lt_iff : (negated x).value < (negated y).value ↔ Higher x y := by
  rw [negated, negated, PyFloat.neg_value_lt_iff (getD_ne_nan fun a ha => (hx a ha).ne_nan)
    (getD_ne_nan fun a ha => (hy a ha).ne_nan)]
  have habsent := absent_value_lt_zero
  cases x with
  | none =>
      cases y with
      | none => simp [Higher]
      | some b => exact iff_of_false (habsent.trans_le (hy b rfl).value_nonneg).not_gt id
  | some a =>
      cases y with
      | none => exact iff_of_true (habsent.trans_le (hx a rfl).value_nonneg) trivial
      | some b => exact (PyFloat.lt_iff (hy b rfl).ne_nan (hx a rfl).ne_nan).symm

/-- The keys are equal exactly when the values are level. -/
theorem negated_eq_iff : (negated x).value = (negated y).value ↔ Level x y := by
  rw [negated, negated, PyFloat.neg_value_eq_iff (getD_ne_nan fun a ha => (hx a ha).ne_nan)
    (getD_ne_nan fun a ha => (hy a ha).ne_nan)]
  have habsent := absent_value_lt_zero
  cases x with
  | none =>
      cases y with
      | none => exact iff_of_true rfl trivial
      | some b => exact iff_of_false (habsent.trans_le (hy b rfl).value_nonneg).ne id
  | some a =>
      cases y with
      | none => exact iff_of_false (habsent.trans_le (hx a rfl).value_nonneg).ne' id
      | some b => exact (PyFloat.eq_iff (hx a rfl).ne_nan (hy b rfl).ne_nan).symm

end Negated

/-- The places of the components of a key, compared from the first on. -/
def SortKey.order (key : SortKey) : ℕ ×ₗ WithBot (WithTop ℚ) ×ₗ WithBot (WithTop ℚ) ×ₗ List Char :=
  toLex (key.statusRank, toLex (key.score.value, toLex (key.throughput.value, key.aliasName)))

/-- **The tuples compare lexicographically** when no component is not a number. -/
theorem sortKey_lt_iff {a b : SortKey} (ha : a.score ≠ .nan) (ha' : a.throughput ≠ .nan)
    (hb : b.score ≠ .nan) (hb' : b.throughput ≠ .nan) : a.lt b = true ↔ a.order < b.order := by
  have hscore : a.score.eq b.score = false ↔ a.score.value ≠ b.score.value := by
    rw [← Bool.not_eq_true, PyFloat.eq_iff ha hb]
  have hthroughput : a.throughput.eq b.throughput = false ↔
      a.throughput.value ≠ b.throughput.value := by
    rw [← Bool.not_eq_true, PyFloat.eq_iff ha' hb']
  simp only [SortKey.order, Prod.Lex.toLex_lt_toLex, SortKey.lt]
  split
  · next h => simp [h]
  · next h =>
    have hrank := not_not.mp h
    split
    · next h => simp [hrank, PyFloat.lt_iff ha hb, hscore.mp h]
    · next h =>
      have hvalue := not_not.mp (mt hscore.mpr h)
      split
      · next h => simp [hrank, hvalue, PyFloat.lt_iff ha' hb', hthroughput.mp h]
      · next h => simp [hrank, hvalue, not_not.mp (mt hthroughput.mpr h)]

/-- The score and the throughput that the sort looks at are numbers, or absent. -/
structure ResultDict.Ordered (result : ResultDict) : Prop where
  score : ∀ x ∈ ownScore result, x ≠ .nan
  throughput : ∀ x ∈ result.throughputKops.map Number.toFloat, x ≠ .nan

/-- **The comparison of the sort is that of the places** of the keys. -/
theorem not_sortKey_lt {a b : ResultDict} (ha : a.Ordered) (hb : b.Ordered) :
    (!(sortKey b).lt (sortKey a)) = decide ((sortKey a).order ≤ (sortKey b).order) := by
  have hlt := sortKey_lt_iff (a := sortKey b) (b := sortKey a) (negated_ne_nan hb.score)
    (negated_ne_nan hb.throughput) (negated_ne_nan ha.score) (negated_ne_nan ha.throughput)
  rw [Bool.eq_iff_iff, Bool.not_eq_true', ← Bool.not_eq_true, hlt, decide_eq_true_iff, not_lt]

/-- A normalized result is sorted by numbers when its score and its throughput are. -/
theorem ordered_withScore_of_ok {config : Option (ScoreConfig PyFloat)} {result : ResultDict}
    {score : Option PyFloat} (h : scoreFromResult result config = .ok score)
    (hscore : ∀ x ∈ score, x ≠ .nan)
    (hthroughput : ∀ x ∈ result.throughputKops.map Number.toFloat, x ≠ .nan) :
    (withScore config result).Ordered := by
  constructor
  · rwa [ownScore_withScore h]
  · rwa [withScore_throughputKops]

/-- Only the status `OK` has the first rank. -/
theorem statusRank_eq_zero_iff {status : List Char} : statusRank status = 0 ↔ status = "OK".toList := by
  constructor
  · intro h
    have hzero : ∀ entry ∈ statusRanks, entry.2 = 0 → entry.1 = "OK" := by decide
    rw [statusRank] at h
    cases hfind : statusRanks.find? fun entry => entry.1.toList = status with
    | none => simp [hfind] at h
    | some entry =>
        rw [hfind] at h
        have hname : entry.1.toList = status := by simpa using List.find?_some hfind
        rw [← hname, hzero entry (List.mem_of_find?_eq_some hfind) h]
  · rintro rfl
    decide

/-! ## Ranks -/

/-- The first result has the better place: the higher score under the configuration, then the higher
throughput, then the smaller alias. -/
def Above (scoreConfig : Option (ScoreConfig PyFloat)) (a b : ResultDict) : Prop :=
  Higher (resultScore scoreConfig a) (resultScore scoreConfig b) ∨
    Level (resultScore scoreConfig a) (resultScore scoreConfig b) ∧
      (Higher (a.throughputKops.map Number.toFloat) (b.throughputKops.map Number.toFloat) ∨
        Level (a.throughputKops.map Number.toFloat) (b.throughputKops.map Number.toFloat) ∧
          a.aliasName < b.aliasName)

section Ranks

variable {config : Option (ScoreConfig PyFloat)} (hconfig : ∀ c ∈ config, c.Valid)

include hconfig

/-- The score of a result with numbers that are not negative is not negative. -/
theorem resultScore_nonNeg {r : ResultDict} (hr : r.NonNeg) : ∀ s ∈ resultScore config r, s.NonNeg := by
  obtain ⟨score, hscore, hnonneg⟩ := scoreFromResult_returns hr hconfig
  rwa [resultScore_of_ok hscore]

omit hconfig in
/-- Neither is its throughput. -/
theorem throughput_nonNeg {r : ResultDict} (hr : r.NonNeg) :
    ∀ x ∈ r.throughputKops.map Number.toFloat, x.NonNeg := by
  intro x hx
  obtain ⟨n, hn, rfl⟩ := Option.map_eq_some_iff.mp hx
  exact (hr.throughputKops n hn).toFloat.2

/-- The key of a normalized result. -/
theorem sortKey_withScore {r : ResultDict} (hr : r.NonNeg) : sortKey (withScore config r) =
    { statusRank := statusRank r.status
      score := negated (resultScore config r)
      throughput := negated (r.throughputKops.map Number.toFloat)
      aliasName := r.aliasName } := by
  obtain ⟨score, hscore, -⟩ := scoreFromResult_returns hr hconfig
  simp [sortKey, ownScore_withScore hscore, resultScore_of_ok hscore]

/-- With its score, such a result has keys that are numbers. -/
theorem ordered_withScore {r : ResultDict} (hr : r.NonNeg) : (withScore config r).Ordered := by
  obtain ⟨score, hscore, hnonneg⟩ := scoreFromResult_returns hr hconfig
  apply ordered_withScore_of_ok hscore
  · intro x hx
    exact (hnonneg x hx).ne_nan
  · intro x hx
    exact (throughput_nonNeg hr x hx).ne_nan

/-- A ranked result that does not come after another one with a different alias is above it. -/
theorem above_of_order_le {a b : ResultDict} (ha : a.NonNeg) (hb : b.NonNeg)
    (hstatus : a.status = b.status) (halias : a.aliasName ≠ b.aliasName)
    (hle : (sortKey (withScore config a)).order ≤ (sortKey (withScore config b)).order) :
    Above config a b := by
  have hscore := negated_lt_iff (resultScore_nonNeg hconfig ha) (resultScore_nonNeg hconfig hb)
  have hscore' := negated_eq_iff (resultScore_nonNeg hconfig ha) (resultScore_nonNeg hconfig hb)
  have hkops := negated_lt_iff (throughput_nonNeg ha) (throughput_nonNeg hb)
  have hkops' := negated_eq_iff (throughput_nonNeg ha) (throughput_nonNeg hb)
  rw [sortKey_withScore hconfig ha, sortKey_withScore hconfig hb] at hle
  simp only [SortKey.order, Prod.Lex.toLex_le_toLex, hstatus, lt_irrefl, true_and, false_or, hscore,
    hscore', hkops, hkops'] at hle
  refine hle.imp_right fun ⟨hlevel, hrest⟩ => ⟨hlevel, hrest.imp_right fun ⟨hlevel', hname⟩ => ?_⟩
  exact ⟨hlevel', lt_of_le_of_ne hname halias⟩

/-- What precedes a ranked result is ranked. -/
theorem ranked_of_order_le {a b : ResultDict} (ha : a.NonNeg) (hb : b.NonNeg)
    (hle : (sortKey (withScore config a)).order ≤ (sortKey (withScore config b)).order)
    (hranked : ranked b = true) : ranked a = true := by
  rw [sortKey_withScore hconfig ha, sortKey_withScore hconfig hb] at hle
  have hrank : statusRank a.status ≤ statusRank b.status := by
    simp only [SortKey.order, Prod.Lex.toLex_le_toLex] at hle
    exact hle.elim le_of_lt fun h => h.1.le
  rw [statusRank_eq_zero_iff.mpr (of_decide_eq_true hranked), Nat.le_zero,
    statusRank_eq_zero_iff] at hrank
  exact decide_eq_true hrank

/-- Normalized results are sorted by their places, and sorting them is sorting the results. -/
theorem exists_sortResults {results : List ResultDict} (hresults : ∀ r ∈ results, r.NonNeg) :
    ∃ sorted : List ResultDict, sorted.Perm results ∧
      sortResults (results.map (withScore config)) = sorted.map (withScore config) ∧
      sorted.Pairwise fun a b =>
        (sortKey (withScore config a)).order ≤ (sortKey (withScore config b)).order := by
  have hmap := List.map_mergeSort (l := results) (f := withScore config)
    (s := fun a b => !(sortKey b).lt (sortKey a)) fun a _ b _ => rfl
  refine ⟨_, List.mergeSort_perm _ _, hmap.symm, ?_⟩
  exact pairwise_mergeSort_key fun a ha b hb => not_sortKey_lt
    (ordered_withScore hconfig (hresults a ha)) (ordered_withScore hconfig (hresults b hb))

/-- **Ranking is correct.** The rows are the results, each once with its alias, status, score and
measurements: first the ones whose status is OK, with the ranks `1, 2, …` and each above those after it,
then the others without a rank. -/
theorem toCsvRows_ranks {results : List ResultDict}
    (halias : (results.map ResultDict.aliasName).Nodup) (hresults : ∀ r ∈ results, r.NonNeg)
    (expectedTraces : Nat) :
    ∃ (normalized : List ResultDict) (rows : List Row) (oks others : List ResultDict),
      normalizeResults config results = .ok normalized ∧
      toCsvRows normalized expectedTraces config = .ok rows ∧
      rows = (oks.zipIdx 1).map (fun e => resultRow expectedTraces config (some e.2) e.1) ++
        others.map (resultRow expectedTraces config none) ∧
      -- what the rows show of the results
      rows.map Row.rank = (List.range' 1 oks.length).map some ++ List.replicate others.length none ∧
      rows.map Row.aliasName = (oks ++ others).map ResultDict.aliasName ∧
      rows.map Row.status = (oks ++ others).map ResultDict.status ∧
      rows.map Row.score =
        (oks ++ others).map (fun r => formatOptionalFloat (resultScore config r) 1) ∧
      rows.map Row.throughputKops =
        (oks ++ others).map (fun r => formatOptionalFloat (r.throughputKops.map Number.toFloat) 3) ∧
      rows.map Row.utilPercent = (oks ++ others).map ResultDict.utilPercent ∧
      (oks ++ others).Perm results ∧
      (∀ r ∈ oks, r.status = "OK".toList) ∧ (∀ r ∈ others, r.status ≠ "OK".toList) ∧
      oks.Pairwise (Above config) := by
  have hreturns : ∀ r ∈ results, ∃ score, scoreFromResult r config = .ok score := by
    intro r hr
    obtain ⟨score, hscore, -⟩ := scoreFromResult_returns (hresults r hr) hconfig
    exact ⟨score, hscore⟩
  obtain ⟨sorted, hperm, hsorted, horder⟩ := exists_sortResults hconfig hresults
  have hsplit : sorted.filter ranked ++ sorted.filter (fun r => !ranked r) = sorted := by
    refine filter_append_filter_of_pairwise (horder.imp_of_mem fun ha hb hle => ?_)
    exact ranked_of_order_le hconfig (hresults _ (hperm.mem_iff.mp ha))
      (hresults _ (hperm.mem_iff.mp hb)) hle
  have hoks : ∀ r ∈ sorted.filter ranked, ranked r = true := fun r hr => (List.mem_filter.mp hr).2
  have hothers : ∀ r ∈ sorted.filter (fun r => !ranked r), ranked r = false :=
    fun r hr => by simpa using (List.mem_filter.mp hr).2
  refine ⟨_, rankedRows expectedTraces config _ _, sorted.filter ranked,
    sorted.filter fun r => !ranked r, normalizeResults_of_ok hreturns, ?_, rfl, rank_rankedRows _ _ _ _,
    map_rankedRows _ _ (fun _ _ => rfl) _ _, map_rankedRows _ _ (fun _ _ => rfl) _ _,
    map_rankedRows _ _ (fun _ _ => rfl) _ _, map_rankedRows _ _ (fun _ _ => rfl) _ _,
    map_rankedRows _ _ (fun _ _ => rfl) _ _, hsplit.symm ▸ hperm,
    fun r hr => of_decide_eq_true (hoks r hr), fun r hr => of_decide_eq_false (hothers r hr), ?_⟩
  · rw [toCsvRows, hsorted, csvRowsFrom_withScore fun r hr => hreturns r (hperm.mem_iff.mp hr)]
    conv_lhs => rw [← hsplit]
    rw [number_append hoks hothers, List.map_append, List.map_map, List.map_map]
    rfl
  · have hnodup : sorted.Pairwise fun a b => a.aliasName ≠ b.aliasName :=
      List.pairwise_map.mp ((hperm.map _).nodup_iff.mpr halias)
    refine ((horder.and hnodup).filter ranked).imp_of_mem fun ha hb hab => ?_
    have hstatus := (of_decide_eq_true (hoks _ ha)).trans (of_decide_eq_true (hoks _ hb)).symm
    exact above_of_order_le hconfig (hresults _ (hperm.mem_iff.mp (List.mem_of_mem_filter ha)))
      (hresults _ (hperm.mem_iff.mp (List.mem_of_mem_filter hb))) hstatus hab.2 hab.1

end Ranks

/-- A result with an alias, a status and a score. -/
def plainResult (aliasName status : String) (score : Option PyFloat) : ResultDict where
  aliasName := aliasName.toList
  status := status.toList
  harnessDiffCount := 0
  correct := none
  score := score.map .float
  perfidx := none
  utilPercent := none
  throughputKops := none
  branch := []
  commit := none
  repoUrl := []
  mode := []

/-- The samples have numbers that are not negative. -/
theorem plainResult_nonNeg (aliasName status : String) :
    (plainResult aliasName status none).NonNeg ∧
      (plainResult aliasName status (some (.ofRat 1))).NonNeg := by
  obtain ⟨one, hone, -⟩ := exists_ofRat_one
  have habsent : ∀ n ∈ (none : Option Number), n.NonNeg := fun n hn => by cases hn
  have hscore : ∀ n ∈ some (Number.float (.ofRat 1)), n.NonNeg := by
    intro n hn
    obtain rfl := Option.some.inj hn
    exact ⟨⟨false, one, hone⟩, hone ▸ trivial⟩
  exact ⟨⟨habsent, habsent, habsent, habsent⟩, ⟨hscore, habsent, habsent, habsent⟩⟩

/-- Three results under weights of 1 and a cap of 1: two are ranked. -/
theorem toCsvRows_ranks_three :
    let config : Option (ScoreConfig PyFloat) := some ⟨.ofRat 1, .ofRat 1, .ofRat 1000, .ofRat 1⟩
    let results := [plainResult "a" "RUN_FAIL" none, plainResult "b" "OK" none,
      plainResult "c" "OK" (some (.ofRat 1))]
    ∃ (normalized : List ResultDict) (rows : List Row) (oks others : List ResultDict),
      normalizeResults config results = .ok normalized ∧
      toCsvRows normalized 11 config = .ok rows ∧
      rows = (oks.zipIdx 1).map (fun e => resultRow 11 config (some e.2) e.1) ++
        others.map (resultRow 11 config none) ∧
      rows.map Row.rank = (List.range' 1 oks.length).map some ++ List.replicate others.length none ∧
      rows.map Row.aliasName = (oks ++ others).map ResultDict.aliasName ∧
      rows.map Row.status = (oks ++ others).map ResultDict.status ∧
      rows.map Row.score =
        (oks ++ others).map (fun r => formatOptionalFloat (resultScore config r) 1) ∧
      rows.map Row.throughputKops =
        (oks ++ others).map (fun r => formatOptionalFloat (r.throughputKops.map Number.toFloat) 3) ∧
      rows.map Row.utilPercent = (oks ++ others).map ResultDict.utilPercent ∧
      (oks ++ others).Perm results ∧
      (∀ r ∈ oks, r.status = "OK".toList) ∧ (∀ r ∈ others, r.status ≠ "OK".toList) ∧
      oks.Pairwise (Above config) := by
  obtain ⟨one, hone, hvalue⟩ := exists_ofRat_one
  obtain ⟨zero, hzero, hvalue'⟩ := exists_ofRat_zero
  have hweight : IsWeight (.ofRat 1) := by
    refine ⟨⟨false, one, hone⟩, hone ▸ trivial, ?_⟩
    rw [hone, PyFloat.le_iff (by simp) (by simp)]
  have hpos : (PyFloat.ofRat 0).lt (.ofRat 1) = true := by
    rw [hzero, hone, PyFloat.lt_iff (by simp) (by simp)]
    simp [PyFloat.value, PyFloat.signedValue, hvalue, hvalue']
  refine toCsvRows_ranks ?_ (by decide) ?_ 11
  · intro c hc
    obtain rfl := Option.some.inj hc
    exact ⟨hweight, hweight, ⟨false, one, hone⟩, hpos⟩
  · intro r hr
    simp only [List.mem_cons, List.not_mem_nil, or_false] at hr
    rcases hr with rfl | rfl | rfl
    · exact (plainResult_nonNeg _ _).1
    · exact (plainResult_nonNeg _ _).1
    · exact (plainResult_nonNeg _ _).2

end MallocBench
