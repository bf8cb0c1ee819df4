import MallocBench.Files.Paths
import MallocBench.Scripts.ScoreConfig

/-! # Regenerating a summary

`summarize_results` reads the results and the configuration that a run has stored and writes the summary
again. The stored results are normalized ones, whose scores are preferred to computing them again, so
that the second summary is the first. Whether the order of the results matters is a question of the sort:
its key ends with the alias, and ties are the only thing a stable sort settles by the order, but the
comparison of floats is no order when a score or a throughput is not a number.

* **`withScore_withScore`**: normalizing results a second time changes nothing.
* **`sortResults_perm`**: with distinct aliases and without NaN the order does not matter.
* **`summary_regenerated`**: both together. -/

namespace MallocBench

open Text Numbers Ranking

/-! ## Writing a summary -/

/-- What `write_summary_files` writes: the rows of `summary.csv`, some columns of which `summary.md`
shows, and the results of `results.json`. -/
structure SummaryFiles where
  rows : List Row
  results : List ResultDict
  deriving DecidableEq

/-- `write_summary_files`. -/
def writeSummaryFiles (results : List ResultDict) (expectedTraces : Nat)
    (scoreConfig : Option (ScoreConfig PyFloat)) : Except String SummaryFiles := do
  let normalizedResults ← normalizeResults scoreConfig results
  let rows ← toCsvRows normalizedResults expectedTraces scoreConfig
  return ⟨rows, normalizedResults⟩

/-- The entries of `run_config.json` that the summary uses. -/
structure RunConfig where
  expectedTraces : Nat
  scoreUtilWeight : Option Number
  scoreThroughputWeight : Option Number
  scoreAvgLibcThroughputOps : Option Number
  scoreAvgLibcThroughputKops : Option Number
  benchmarkBase : Option (List Char)

/-- The score configuration of a run: the stored one, or that of the benchmark's `config.h`, whose text
`readConfig` gives if there is such a file. -/
def RunConfig.scoreConfig (run : RunConfig) (readConfig : List Char → Option (List Char)) :
    Except String (Option (ScoreConfig PyFloat)) :=
  match run.scoreUtilWeight, run.scoreThroughputWeight, run.scoreAvgLibcThroughputOps,
    run.scoreAvgLibcThroughputKops with
  | some utilWeight, some throughputWeight, some ops, some kops =>
    .ok (some ⟨utilWeight.toFloat, throughputWeight.toFloat, ops.toFloat, kops.toFloat⟩)
  | _, _, _, _ =>
    match run.benchmarkBase with
    | none => .ok none
    | some base =>
      if base = [] then .ok none
      else
        let configPath := Files.childText base "config.h".toList
        match readConfig configPath with
        | none => .ok none
        | some text => (parseScoreConfig (String.ofList configPath) text).map some

/-- `summarize_results`, on the results and the configuration that a run has stored. -/
def summarizeResults (run : RunConfig) (readConfig : List Char → Option (List Char))
    (results : List ResultDict) : Except String SummaryFiles := do
  let scoreConfig ← run.scoreConfig readConfig
  writeSummaryFiles results run.expectedTraces scoreConfig

/-- What `run_benchmarks` stores of a run with a score configuration. -/
def storedRunConfig (expectedTraces : Nat) (benchmarkBase : List Char) (c : ScoreConfig PyFloat) :
    RunConfig where
  expectedTraces := expectedTraces
  scoreUtilWeight := some (.float c.utilWeight)
  scoreThroughputWeight := some (.float c.throughputWeight)
  scoreAvgLibcThroughputOps := some (.float c.avgLibcThroughputOps)
  scoreAvgLibcThroughputKops := some (.float c.avgLibcThroughputKops)
  benchmarkBase := some benchmarkBase

/-- The configuration of a run is found again. -/
theorem storedRunConfig_scoreConfig (expectedTraces : Nat) (benchmarkBase : List Char)
    (c : ScoreConfig PyFloat) (readConfig : List Char → Option (List Char)) :
    (storedRunConfig expectedTraces benchmarkBase c).scoreConfig readConfig = .ok (some c) := rfl

/-! ## Writing it again -/

/-- There is no score configuration, or its throughput cap is positive. -/
def CapPositive (scoreConfig : Option (ScoreConfig PyFloat)) : Prop :=
  ∀ c ∈ scoreConfig, (PyFloat.ofRat 0).lt c.avgLibcThroughputKops = true

section Again

variable {config : Option (ScoreConfig PyFloat)} (hcap : CapPositive config)

include hcap

/-- With a positive cap, computing a score raises nothing. -/
theorem computeScore_ok (utilPercent throughputKops : Option PyFloat) :
    ∃ score, computeScore utilPercent throughputKops config = .ok score := by
  unfold computeScore
  split
  · next c =>
    have hpos : (PyFloat.ofRat 0).lt c.avgLibcThroughputKops = true := hcap c rfl
    have hle : ¬ Arithmetic.le c.avgLibcThroughputKops (Arithmetic.constant 0) = true := by
      show ¬ PyFloat.le _ (PyFloat.ofRat 0) = true
      simp only [PyFloat.lt, PyFloat.le, Bool.and_eq_true, decide_eq_true_eq] at hpos ⊢
      exact fun h => absurd h.2 (not_le.mpr hpos.2)
    rw [if_neg hle]
    exact ⟨_, rfl⟩
  · exact ⟨none, rfl⟩

/-- So does computing the score of a result. -/
theorem scoreFromResult_ok (result : ResultDict) :
    ∃ score, scoreFromResult result config = .ok score := by
  unfold scoreFromResult
  split
  · exact ⟨_, rfl⟩
  · split
    · exact ⟨_, rfl⟩
    · exact computeScore_ok hcap _ _

/-- **The first use of a score writes the value that the second one prefers.** -/
theorem withScore_withScore (result : ResultDict) :
    withScore config (withScore config result) = withScore config result := by
  obtain ⟨score, hscore⟩ := scoreFromResult_ok hcap result
  conv_lhs => rw [withScore, resultScore_of_ok (scoreFromResult_withScore hscore)]
  rw [withScore, resultScore_of_ok hscore]
  cases score with
  | none => rfl
  | some score => rfl

/-- So do the rows. -/
theorem csvRowsFrom_ok (expectedTraces rank : Nat) (results : List ResultDict) :
    ∃ rows, csvRowsFrom expectedTraces config rank results = .ok rows := by
  induction results generalizing rank with
  | nil => exact ⟨[], rfl⟩
  | cons result rest ih =>
      obtain ⟨score, hscore⟩ := scoreFromResult_ok hcap result
      obtain ⟨rows, hrows⟩ := ih (if ranked result then rank + 1 else rank)
      exact ⟨_, by rw [csvRowsFrom, hscore, hrows]; rfl⟩

/-- What is written for some results: the rows of the normalized ones, and these. -/
theorem writeSummaryFiles_eq (results : List ResultDict) (expectedTraces : Nat) :
    ∃ rows, toCsvRows (results.map (withScore config)) expectedTraces config = .ok rows ∧
      writeSummaryFiles results expectedTraces config =
        .ok ⟨rows, results.map (withScore config)⟩ := by
  obtain ⟨rows, hrows⟩ := csvRowsFrom_ok hcap expectedTraces 1
    (sortResults (results.map (withScore config)))
  refine ⟨rows, hrows, ?_⟩
  rw [writeSummaryFiles, normalizeResults_of_ok fun r _ => scoreFromResult_ok hcap r]
  show (toCsvRows (results.map (withScore config)) expectedTraces config).bind _ = _
  rw [toCsvRows, hrows]
  rfl

/-- **Writing the stored results again** writes the same files. -/
theorem writeSummaryFiles_again {results : List ResultDict} {expectedTraces : Nat}
    {files : SummaryFiles} (h : writeSummaryFiles results expectedTraces config = .ok files) :
    writeSummaryFiles files.results expectedTraces config = .ok files := by
  obtain ⟨rows, hrows, hfiles⟩ := writeSummaryFiles_eq hcap results expectedTraces
  obtain rfl := Except.ok.inj (h.symm.trans hfiles)
  obtain ⟨rows', hrows', hfiles'⟩ :=
    writeSummaryFiles_eq hcap (results.map (withScore config)) expectedTraces
  have hagain : (results.map (withScore config)).map (withScore config) =
      results.map (withScore config) := by
    rw [List.map_map]
    exact List.map_congr_left fun r _ => withScore_withScore hcap r
  rw [hagain] at hrows' hfiles'
  obtain rfl := Except.ok.inj (hrows.symm.trans hrows')
  exact hfiles'

end Again

/-! ## The order of the results -/

/-- Neither the score under the configuration nor the throughput is NaN. -/
structure ResultDict.NoNan (scoreConfig : Option (ScoreConfig PyFloat)) (result : ResultDict) :
    Prop where
  score : ∀ x ∈ resultScore scoreConfig result, x ≠ .nan
  throughput : ∀ x ∈ result.throughputKops.map Number.toFloat, x ≠ .nan

/-- The place of a key tells its alias. -/
theorem aliasName_of_order_eq {a b : SortKey} (h : a.order = b.order) : a.aliasName = b.aliasName :=
  congrArg (fun place => (ofLex (ofLex (ofLex place).2).2).2) h

/-- **The order of the results does not matter** when their aliases are distinct and the comparisons are
those of numbers. -/
theorem sortResults_perm {results results' : List ResultDict}
    (halias : (results.map ResultDict.aliasName).Nodup) (hordered : ∀ r ∈ results, r.Ordered)
    (hperm : results'.Perm results) : sortResults results' = sortResults results := by
  have hcompare : ∀ a ∈ results, ∀ b ∈ results,
      (!(sortKey b).lt (sortKey a)) = decide ((sortKey a).order ≤ (sortKey b).order) := by
    intro a ha b hb
    exact not_sortKey_lt (hordered a ha) (hordered b hb)
  have hdistinct : ∀ a ∈ results, ∀ b ∈ results,
      (sortKey a).order = (sortKey b).order → a = b := by
    intro a ha b hb h
    exact List.inj_on_of_nodup_map halias ha hb (aliasName_of_order_eq h)
  exact mergeSort_key_perm hcompare hdistinct hperm

/-- The normalized result is sorted by numbers. -/
theorem ResultDict.NoNan.ordered {config : Option (ScoreConfig PyFloat)} (hcap : CapPositive config)
    {result : ResultDict} (h : result.NoNan config) : (withScore config result).Ordered := by
  obtain ⟨score, hscore⟩ := scoreFromResult_ok hcap result
  have hnan := h.score
  rw [resultScore_of_ok hscore] at hnan
  exact ordered_withScore_of_ok hscore hnan h.throughput

/-- The rows are the same for every order of the results. -/
theorem writeSummaryFiles_perm {config : Option (ScoreConfig PyFloat)} (hcap : CapPositive config)
    {results results' : List ResultDict} (halias : (results.map ResultDict.aliasName).Nodup)
    (hnan : ∀ r ∈ results, r.NoNan config) (hperm : results'.Perm results) {expectedTraces : Nat}
    {files : SummaryFiles} (h : writeSummaryFiles results expectedTraces config = .ok files) :
    writeSummaryFiles results' expectedTraces config =
      .ok ⟨files.rows, results'.map (withScore config)⟩ := by
  obtain ⟨rows, hrows, hfiles⟩ := writeSummaryFiles_eq hcap results expectedTraces
  obtain ⟨rows', hrows', hfiles'⟩ := writeSummaryFiles_eq hcap results' expectedTraces
  obtain rfl := Except.ok.inj (h.symm.trans hfiles)
  have halias' : ((results.map (withScore config)).map ResultDict.aliasName).Nodup := by
    rw [List.map_map]
    simpa only [Function.comp_def, withScore_aliasName] using halias
  have hordered : ∀ r ∈ results.map (withScore config), r.Ordered := by
    intro r hr
    obtain ⟨result, hresult, rfl⟩ := List.mem_map.mp hr
    exact (hnan result hresult).ordered hcap
  have hsort := sortResults_perm halias' hordered (hperm.map (withScore config))
  rw [toCsvRows, hsort, ← toCsvRows, hrows] at hrows'
  obtain rfl := Except.ok.inj hrows'
  exact hfiles'

/-- The record of a throughput of 600 Kops. -/
def recordOfWeight (utilWeight : Numeral) : ScoreConfig PyFloat :=
  scoreRecord (floatOf utilWeight) (floatOf (.finite false 600000))

/-- The sample record has a positive cap. -/
theorem capPositive_recordOfWeight (utilWeight : Numeral) :
    CapPositive (some (recordOfWeight utilWeight)) := by
  have hops : floatOf (.finite false 600000) =
      .signed false (.finite ⟨(600000 : ℕ), isBinary64_natCast (by norm_num)⟩) :=
    congrArg _ (Double.ofRat_value ⟨(600000 : ℕ), isBinary64_natCast (by norm_num)⟩)
  obtain ⟨thousand, hthousand, hvalue⟩ := ofRat_natCast (n := 1000) (by norm_num)
  obtain ⟨zero, hzero, hvalue'⟩ := exists_ofRat_zero
  have hkops : (recordOfWeight utilWeight).avgLibcThroughputKops =
      .signed false (.finite ⟨(600 : ℕ), isBinary64_natCast (by norm_num)⟩) := by
    show (floatOf (.finite false 600000)).divide (PyFloat.ofRat ((1000 : ℕ) : ℚ)) = _
    rw [hops, hthousand]
    show PyFloat.signed false (Double.ofRat (((600000 : ℕ) : ℚ) / thousand.value)) = _
    rw [hvalue, show ((600000 : ℕ) : ℚ) / (1000 : ℕ) = (600 : ℕ) by norm_num]
    exact congrArg _ (Double.ofRat_value ⟨(600 : ℕ), isBinary64_natCast (by norm_num)⟩)
  intro c hc
  obtain rfl := Option.some.inj hc
  rw [hkops, hzero, PyFloat.lt_iff (by simp) (by simp)]
  simp [PyFloat.value, PyFloat.signedValue, hvalue']

/-- **Regenerating a summary changes nothing.** For results with distinct aliases and a configuration
that is absent or has a positive cap, writing the stored results again writes the same rows and the same
results, also when `summarize_results` finds the configuration in what the run has stored; and unless a
score or a throughput is NaN, the rows are the same for every order of the results. -/
theorem summary_regenerated (config : Option (ScoreConfig PyFloat)) (hcap : CapPositive config)
    (results : List ResultDict) (halias : (results.map ResultDict.aliasName).Nodup)
    (expectedTraces : Nat) :
    ∃ files, writeSummaryFiles results expectedTraces config = .ok files ∧
      writeSummaryFiles files.results expectedTraces config = .ok files ∧
      (∀ (run : RunConfig) (readConfig : List Char → Option (List Char)),
        run.expectedTraces = expectedTraces → run.scoreConfig readConfig = .ok config →
          summarizeResults run readConfig files.results = .ok files) ∧
      ((∀ r ∈ results, r.NoNan config) →
        ∀ results', results'.Perm results →
          ∃ files', writeSummaryFiles results' expectedTraces config = .ok files' ∧
            files'.rows = files.rows) := by
  obtain ⟨rows, -, hfiles⟩ := writeSummaryFiles_eq hcap results expectedTraces
  have hagain := writeSummaryFiles_again hcap hfiles
  refine ⟨_, hfiles, hagain, ?_, ?_⟩
  · intro run readConfig hexpected hconfig
    rw [summarizeResults, hconfig, hexpected]
    exact hagain
  · intro hnan results' hperm
    exact ⟨_, writeSummaryFiles_perm hcap halias hnan hperm hfiles, rfl⟩

/-- Three results in both orders, under a weight of 0.6. -/
theorem summary_regenerated_three :
    let record := recordOfWeight (.finite false (3 / 5))
    let results := [plainResult "a" "RUN_FAIL" none, plainResult "b" "OK" none,
      plainResult "c" "OK" (some (.ofRat 1))]
    ∃ files, writeSummaryFiles results 11 (some record) = .ok files ∧
      writeSummaryFiles files.results 11 (some record) = .ok files ∧
      summarizeResults (storedRunConfig 11 [] record) (fun _ => none) files.results = .ok files ∧
      ∃ files', writeSummaryFiles results.reverse 11 (some record) = .ok files' ∧
        files'.rows = files.rows := by
  intro record results
  have habsent : ∀ x ∈ (none : Option PyFloat), x ≠ .nan := fun x hx => by cases hx
  have hscore : ∀ x ∈ some (PyFloat.ofRat 1), x ≠ .nan := by
    intro x hx
    obtain rfl := Option.some.inj hx
    exact fun h => by cases h
  have hnan : ∀ r ∈ results, r.NoNan (some record) := by
    intro r hr
    simp only [results, List.mem_cons, List.not_mem_nil, or_false] at hr
    rcases hr with rfl | rfl | rfl
    · exact ⟨habsent, habsent⟩
    · exact ⟨habsent, habsent⟩
    · exact ⟨hscore, habsent⟩
  obtain ⟨files, hfiles, hagain, hsummarize, horder⟩ :=
    summary_regenerated (some record) (capPositive_recordOfWeight _) results (by decide) 11
  exact ⟨files, hfiles, hagain, hsummarize _ _ rfl (storedRunConfig_scoreConfig 11 [] record _),
    horder hnan _ (List.reverse_perm results)⟩

/-! ## Scores that are NaN -/

/-- A result of a run that printed no performance index: its score is computed. -/
structure ResultDict.Measured (result : ResultDict) : Prop where
  ok : result.status = "OK".toList
  score : result.score = none
  perfidx : result.perfidx = none
  utilPercent : result.utilPercent.isSome
  throughputKops : result.throughputKops.isSome

/-- A product with what is not a number is not a number. -/
theorem nan_mul (x : PyFloat) : PyFloat.nan.mul x = .nan := by
  cases x <;> rfl

/-- Neither is a sum. -/
theorem nan_add (x : PyFloat) : PyFloat.nan.add x = .nan := by
  cases x <;> rfl

section Nan

variable {c : ScoreConfig PyFloat} (hweight : c.utilWeight = .nan) (hcap : CapPositive (some c))

include hweight hcap

/-- A weight that is NaN makes every computed score NaN. -/
theorem computeScore_nan (utilPercent throughputKops : PyFloat) :
    computeScore (some utilPercent) (some throughputKops) (some c) = .ok (some .nan) := by
  obtain ⟨score, hscore⟩ := computeScore_ok hcap (some utilPercent) (some throughputKops)
  rw [computeScore] at hscore ⊢
  split
  · next hle =>
    rw [if_pos hle] at hscore
    cases hscore
  · show Except.ok (some (PyFloat.round 1 (PyFloat.mul (PyFloat.add (PyFloat.mul c.utilWeight _) _) _))) = _
    rw [hweight, nan_mul, nan_add, nan_mul]
    rfl

/-- Under a weight that is not a number, the score of a measured result is not a number. -/
theorem scoreFromResult_nan {result : ResultDict} (h : result.Measured) :
    scoreFromResult result (some c) = .ok (some .nan) := by
  obtain ⟨util, hutil⟩ := Option.isSome_iff_exists.mp h.utilPercent
  obtain ⟨kops, hkops⟩ := Option.isSome_iff_exists.mp h.throughputKops
  rw [scoreFromResult, h.score, h.perfidx, hutil, hkops]
  exact computeScore_nan hweight hcap _ _

end Nan

/-- Results of one status whose scores are NaN stay in the order in which they come. -/
theorem sortResults_nan {results : List ResultDict} (hstatus : ∀ r ∈ results, r.status = "OK".toList)
    (hscore : ∀ r ∈ results, ownScore r = some .nan) : sortResults results = results := by
  have hlt : ∀ a ∈ results, ∀ b ∈ results, (!(sortKey b).lt (sortKey a)) = true := by
    intro a ha b hb
    have hnan : ∀ r ∈ results, (sortKey r).score = .nan := by
      intro r hr
      show negated (ownScore r) = .nan
      rw [hscore r hr]
      rfl
    have hrank : (sortKey b).statusRank = (sortKey a).statusRank := by
      show statusRank b.status = statusRank a.status
      rw [hstatus a ha, hstatus b hb]
    rw [SortKey.lt, if_neg (not_not.mpr hrank), hnan a ha, hnan b hb]
    rfl
  exact List.mergeSort_of_pairwise (List.pairwise_of_forall_mem_list hlt)

/-- The rows have the aliases of the results. -/
theorem csvRowsFrom_aliases {config : Option (ScoreConfig PyFloat)} {expectedTraces rank : Nat}
    {results : List ResultDict} {rows : List Row}
    (h : csvRowsFrom expectedTraces config rank results = .ok rows) :
    rows.map Row.aliasName = results.map ResultDict.aliasName := by
  induction results generalizing rank rows with
  | nil =>
      obtain rfl := Except.ok.inj h
      rfl
  | cons result rest ih =>
      rw [csvRowsFrom] at h
      obtain ⟨score, -, h⟩ := bind_eq_ok.mp h
      obtain ⟨later, hlater, h⟩ := bind_eq_ok.mp h
      obtain rfl := Except.ok.inj h
      rw [List.map_cons, List.map_cons, ih hlater]
      rfl

/-- **Under a weight that is NaN the rows come in the order of the results.** -/
theorem writeSummaryFiles_nan {c : ScoreConfig PyFloat} (hweight : c.utilWeight = .nan)
    (hcap : CapPositive (some c)) {results : List ResultDict} (h : ∀ r ∈ results, r.Measured)
    (expectedTraces : Nat) :
    ∃ files, writeSummaryFiles results expectedTraces (some c) = .ok files ∧
      files.rows.map Row.aliasName = results.map ResultDict.aliasName := by
  obtain ⟨rows, hrows, hfiles⟩ := writeSummaryFiles_eq hcap results expectedTraces
  have hsort : sortResults (results.map (withScore (some c))) = results.map (withScore (some c)) := by
    apply sortResults_nan
    · intro r hr
      obtain ⟨result, hresult, rfl⟩ := List.mem_map.mp hr
      rw [withScore_status]
      exact (h result hresult).ok
    · intro r hr
      obtain ⟨result, hresult, rfl⟩ := List.mem_map.mp hr
      exact ownScore_withScore (scoreFromResult_nan hweight hcap (h result hresult))
  rw [toCsvRows, hsort] at hrows
  refine ⟨_, hfiles, (csvRowsFrom_aliases hrows).trans ?_⟩
  rw [List.map_map]
  exact List.map_congr_left fun r _ => withScore_aliasName

/-- The text of a `config.h` whose weight is NaN. -/
def nanConfigText : List Char :=
  "#define AVG_LIBC_THRUPUT 600E3\n#define UTIL_WEIGHT nan\n".toList

/-- A result of a run with an utilisation and a throughput. -/
def measuredResult (aliasName : String) : ResultDict :=
  { plainResult aliasName "OK" none with
    utilPercent := some (.float (.ofRat 50))
    throughputKops := some (.float (.ofRat 1000)) }

/-- The samples are measured. -/
theorem measured_measuredResult (aliasName : String) : (measuredResult aliasName).Measured :=
  ⟨rfl, rfl, rfl, rfl, rfl⟩

/-- Two results in both orders, under a configuration that is read from a file. -/
theorem summary_order_nan :
    let config := some (recordOfWeight .nan)
    let results := [measuredResult "a", measuredResult "b"]
    parseScoreConfig "config.h" nanConfigText = .ok (recordOfWeight .nan) ∧ CapPositive config ∧
      (results.map ResultDict.aliasName).Nodup ∧
      ∃ files files', writeSummaryFiles results 11 config = .ok files ∧
        writeSummaryFiles results.reverse 11 config = .ok files' ∧ files'.rows ≠ files.rows := by
  have hcap := capPositive_recordOfWeight .nan
  have hdefines : scoreDefines (splitlines nanConfigText) =
      [("AVG_LIBC_THRUPUT".toList, "600E3".toList), ("UTIL_WEIGHT".toList, "nan".toList)] := by
    decide +kernel
  have hread : parseScoreConfig "config.h" nanConfigText = .ok (recordOfWeight .nan) := by
    rw [parseScoreConfig_eq_ok_iff, hdefines]
    exact ⟨by decide +kernel, .nan, .finite false 600000, by decide +kernel, by decide +kernel, rfl⟩
  have hmeasured : ∀ r ∈ [measuredResult "a", measuredResult "b"], r.Measured := by
    intro r hr
    simp only [List.mem_cons, List.not_mem_nil, or_false] at hr
    rcases hr with rfl | rfl <;> exact measured_measuredResult _
  obtain ⟨files, hfiles, haliases⟩ := writeSummaryFiles_nan rfl hcap hmeasured 11
  obtain ⟨files', hfiles', haliases'⟩ :=
    writeSummaryFiles_nan rfl hcap (fun r hr => hmeasured r (List.mem_reverse.mp hr)) 11
  refine ⟨hread, hcap, by decide, files, files', hfiles, hfiles', ?_⟩
  intro heq
  rw [heq, haliases] at haliases'
  exact absurd haliases' (by decide)

end MallocBench
