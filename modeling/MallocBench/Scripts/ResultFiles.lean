import MallocBench.Scripts.Regenerate
import MallocBench.Text.Json

/-! # The files of a run

A run stores the dictionaries of its results in `results.json` and its settings in `run_config.json`.
`summarize_results` reads both again. The entries of a result that no summary uses (the attempts, the
errors) are dictionaries, lists and texts of any kind; they have to come back as they were.

* **`StoredResult.withScore_withScore`**: a stored score stays.
* **`writeResultFiles_eq`**: on the entries a summary uses this is `write_summary_files`.
* **`resultFiles_regenerated`**: reading the files and writing them again changes no character. -/

namespace MallocBench

open Text Numbers

/-! ## Results as dictionaries -/

/-- An entry that is a text. -/
def textEntry (key : String) (d : List (List Char × Json)) : Option (List Char) :=
  match Json.getEntry key.toList d with
  | some (.str s) => some s
  | _ => none

/-- An entry that may be absent or `None`. -/
def optionalEntry {α : Type} (read : Json → Option α) (key : String) (d : List (List Char × Json)) :
    Option (Option α) :=
  match Json.getEntry key.toList d with
  | none => some none
  | some .null => some none
  | some v => (read v).map some

/-- A text. -/
def readText : Json → Option (List Char)
  | .str s => some s
  | _ => none

/-- A number of things. -/
def readCount : Json → Option Nat
  | .int n => if 0 ≤ n then some n.toNat else none
  | _ => none

/-- A number. -/
def readNumber : Json → Option Number
  | .int n => if h : |(n : ℚ)| < overflowThreshold then some (.int n h) else none
  | .float x => some (.float x)
  | _ => none

/-- A number of things, 0 if it is absent. -/
def countEntry (key : String) (d : List (List Char × Json)) : Option Nat :=
  match Json.getEntry key.toList d with
  | none => some 0
  | some v => readCount v

/-- The entries of a result that the summary uses, or none if one of them is not of its type. -/
def ResultDict.ofEntries (d : List (List Char × Json)) : Option ResultDict := do
  let aliasName ← textEntry "alias" d
  let status ← textEntry "status" d
  let harnessDiffCount ← countEntry "harness_diff_count" d
  let correct ← optionalEntry readCount "correct" d
  -- before the first summary a result has no score
  let score ← optionalEntry readNumber "score" d
  let perfidx ← optionalEntry readNumber "perfidx" d
  let utilPercent ← optionalEntry readNumber "util_percent" d
  let throughputKops ← optionalEntry readNumber "throughput_kops" d
  let branch ← textEntry "branch" d
  let commit ← optionalEntry readText "commit" d
  let repoUrl ← textEntry "repo_url" d
  let mode ← textEntry "mode" d
  return {
    aliasName, status, harnessDiffCount, correct, score, perfidx, utilPercent, throughputKops, branch,
    commit, repoUrl, mode }

/-- The dictionary of a result. -/
structure StoredResult where
  entries : List (List Char × Json)
  readable : (ResultDict.ofEntries entries).isSome

namespace StoredResult

/-- What the summary sees of it. -/
def result (s : StoredResult) : ResultDict := (ResultDict.ofEntries s.entries).get s.readable

/-- A stored result is its entries. -/
theorem ext_entries {s t : StoredResult} (h : s.entries = t.entries) : s = t := by
  cases s
  cases t
  cases h
  rfl

/-- Its entries are read as its result. -/
theorem ofEntries_eq (s : StoredResult) : ResultDict.ofEntries s.entries = some s.result :=
  (Option.some_get s.readable).symm

end StoredResult

section SetScore

variable {d : List (List Char × Json)} (x : PyFloat)

/-- The texts under other keys are the same after the score has been set. -/
theorem textEntry_setScore {key : String} (h : key.toList ≠ "score".toList) :
    textEntry key (Json.setEntry "score".toList (.float x) d) = textEntry key d := by
  rw [textEntry, Json.getEntry_setEntry_of_ne h, textEntry]

/-- So are the counts. -/
theorem countEntry_setScore {key : String} (h : key.toList ≠ "score".toList) :
    countEntry key (Json.setEntry "score".toList (.float x) d) = countEntry key d := by
  rw [countEntry, Json.getEntry_setEntry_of_ne h, countEntry]

/-- So are the optional entries. -/
theorem optionalEntry_setScore {α : Type} (read : Json → Option α) {key : String}
    (h : key.toList ≠ "score".toList) :
    optionalEntry read key (Json.setEntry "score".toList (.float x) d) = optionalEntry read key d := by
  rw [optionalEntry, Json.getEntry_setEntry_of_ne h, optionalEntry]

/-- **The score set is the score read**, and the other entries stay. -/
theorem ofEntries_setScore {result : ResultDict} (h : ResultDict.ofEntries d = some result) :
    ResultDict.ofEntries (Json.setEntry "score".toList (.float x) d) =
      some { result with score := some (.float x) } := by
  have hscore : optionalEntry readNumber "score" (Json.setEntry "score".toList (.float x) d) =
      some (some (.float x)) := by
    rw [optionalEntry, Json.getEntry_setEntry_self]
    rfl
  simp only [ResultDict.ofEntries, Option.bind_eq_bind, Option.bind_eq_some_iff, Option.pure_def,
    Option.some.injEq] at h
  obtain ⟨aliasName, halias, status, hstatus, diffs, hdiffs, correct, hcorrect, score, -, perfidx,
    hperfidx, util, hutil, kops, hkops, branch, hbranch, commit, hcommit, url, hurl, mode, hmode, rfl⟩ := h
  -- eleven of the twelve entries have another key
  rw [ResultDict.ofEntries, textEntry_setScore x (by decide +kernel),
    textEntry_setScore x (by decide +kernel), countEntry_setScore x (by decide +kernel),
    optionalEntry_setScore x _ (by decide +kernel), hscore,
    optionalEntry_setScore x _ (by decide +kernel), optionalEntry_setScore x _ (by decide +kernel),
    optionalEntry_setScore x _ (by decide +kernel), textEntry_setScore x (by decide +kernel),
    optionalEntry_setScore x _ (by decide +kernel), textEntry_setScore x (by decide +kernel),
    textEntry_setScore x (by decide +kernel), halias, hstatus, hdiffs, hcorrect, hperfidx, hutil, hkops,
    hbranch, hcommit, hurl, hmode]
  rfl

end SetScore

namespace StoredResult

variable {config : Option (ScoreConfig PyFloat)}

/-- `item["score"] = score`. -/
def setScore (s : StoredResult) (x : PyFloat) : StoredResult where
  entries := Json.setEntry "score".toList (.float x) s.entries
  readable := by
    rw [ofEntries_setScore x s.ofEntries_eq]
    rfl

/-- Setting the score changes the score of the result, and nothing else. -/
theorem result_setScore (s : StoredResult) (x : PyFloat) :
    (s.setScore x).result = { s.result with score := some (.float x) } :=
  Option.some.inj ((ofEntries_eq _).symm.trans (ofEntries_setScore x s.ofEntries_eq))

/-- Setting the score twice is setting it once. -/
theorem setScore_setScore (s : StoredResult) (x : PyFloat) : (s.setScore x).setScore x = s.setScore x :=
  ext_entries (Json.setEntry_setEntry _ _ _ _)

/-- One pass of the loop of `normalize_results`. -/
def normalize (config : Option (ScoreConfig PyFloat)) (s : StoredResult) :
    Except String StoredResult := do
  let score ← scoreFromResult s.result config
  match score with
  | some x => return s.setScore x
  | none => return s

/-- The dictionary with its score stored. -/
def withScore (config : Option (ScoreConfig PyFloat)) (s : StoredResult) : StoredResult :=
  match resultScore config s.result with
  | some x => s.setScore x
  | none => s

/-- What the summary sees is the normalized result. -/
theorem result_withScore (s : StoredResult) :
    (s.withScore config).result = MallocBench.withScore config s.result := by
  unfold withScore MallocBench.withScore
  cases resultScore config s.result with
  | none => rfl
  | some x => exact result_setScore s x

variable (hcap : CapPositive config)

include hcap

/-- With a positive cap, a result is normalized to the one with its score. -/
theorem normalize_eq (s : StoredResult) : s.normalize config = .ok (s.withScore config) := by
  obtain ⟨score, hscore⟩ := scoreFromResult_ok hcap s.result
  rw [normalize, hscore, withScore, resultScore_of_ok hscore]
  cases score with
  | none => rfl
  | some x => rfl

/-- **A stored score stays.** -/
theorem withScore_withScore (s : StoredResult) :
    (s.withScore config).withScore config = s.withScore config := by
  obtain ⟨score, hscore⟩ := scoreFromResult_ok hcap s.result
  -- the score is preferred to computing it again
  have hagain : resultScore config (s.withScore config).result = score := by
    rw [result_withScore]
    exact resultScore_of_ok (scoreFromResult_withScore hscore)
  conv_lhs => rw [withScore, hagain]
  rw [withScore, resultScore_of_ok hscore]
  cases score with
  | none => rfl
  | some x => exact setScore_setScore s x

end StoredResult

/-! ## The files -/

/-- `normalize_results`, on the dictionaries. -/
def normalizeStored (config : Option (ScoreConfig PyFloat)) :
    List StoredResult → Except String (List StoredResult)
  | [] => .ok []
  | s :: rest => do
    let item ← s.normalize config
    let items ← normalizeStored config rest
    return item :: items

/-- `write_json`: the text of the file. -/
def writeJson (data : Json) : List Char := data.dumps ++ ['\n']

/-- What `json.loads` reads from a file, or none where it raises an error. -/
def readJson (text : List Char) : Option Json := Json.loads (Json.universalNewlines text)

/-- The rows of `summary.csv` and the text of `results.json`. -/
structure ResultFiles where
  rows : List Row
  resultsJson : List Char
  deriving DecidableEq

/-- `write_summary_files`, on the dictionaries. -/
def writeResultFiles (results : List StoredResult) (expectedTraces : Nat)
    (config : Option (ScoreConfig PyFloat)) : Except String ResultFiles := do
  let normalized ← normalizeStored config results
  let rows ← toCsvRows (normalized.map StoredResult.result) expectedTraces config
  return ⟨rows, writeJson (.list (normalized.map fun s => .dict s.entries))⟩

/-- A result of the file. -/
def StoredResult.ofJson : Json → Option StoredResult
  | .dict d => if h : (ResultDict.ofEntries d).isSome then some ⟨d, h⟩ else none
  | _ => none

/-- The results of `results.json`, or none where reading them raises an error. -/
def readResults (text : List Char) : Option (List StoredResult) :=
  match readJson text with
  | some (.list items) => items.mapM StoredResult.ofJson
  | _ => none

/-- The settings of a run. -/
structure RunSettings where
  mode : List Char
  repeats : Nat
  buildTimeout : Option PyFloat
  runTimeout : Option PyFloat
  participantsCsv : List Char
  reposDir : List Char
  benchmarkBase : List Char
  expectedTraces : Nat
  skipSync : Bool
  failOnHarnessDiff : Bool

/-- A timeout, or `None`. -/
def timeoutJson : Option PyFloat → Json
  | none => .null
  | some x => .float x

/-- The dictionary that a run stores in `run_config.json`. -/
def RunSettings.entries (s : RunSettings) (c : ScoreConfig PyFloat) : List (List Char × Json) :=
  [("mode".toList, .str s.mode),
    ("repeat".toList, .int s.repeats),
    ("build_timeout".toList, timeoutJson s.buildTimeout),
    ("run_timeout".toList, timeoutJson s.runTimeout),
    ("participants_csv".toList, .str s.participantsCsv),
    ("repos_dir".toList, .str s.reposDir),
    ("benchmark_base".toList, .str s.benchmarkBase),
    ("expected_traces".toList, .int s.expectedTraces),
    -- the score configuration, so that the summary does not depend on a later `config.h`
    ("score_util_weight".toList, .float c.utilWeight),
    ("score_throughput_weight".toList, .float c.throughputWeight),
    ("score_avg_libc_throughput_ops".toList, .float c.avgLibcThroughputOps),
    ("score_avg_libc_throughput_kops".toList, .float c.avgLibcThroughputKops),
    ("skip_sync".toList, .bool s.skipSync),
    ("fail_on_harness_diff".toList, .bool s.failOnHarnessDiff)]

/-- A number that may be absent. -/
def presentNumber (key : String) (d : List (List Char × Json)) : Option (Option Number) :=
  match Json.getEntry key.toList d with
  | none => some none
  | some v => (readNumber v).map some

/-- The entries of `run_config.json` that the summary uses, or none if one of them is not of its type. -/
def RunConfig.ofEntries (d : List (List Char × Json)) : Option RunConfig := do
  let expectedTraces ← (Json.getEntry "expected_traces".toList d).bind readCount
  let scoreUtilWeight ← presentNumber "score_util_weight" d
  let scoreThroughputWeight ← presentNumber "score_throughput_weight" d
  let scoreAvgLibcThroughputOps ← presentNumber "score_avg_libc_throughput_ops" d
  let scoreAvgLibcThroughputKops ← presentNumber "score_avg_libc_throughput_kops" d
  let benchmarkBase ← optionalEntry readText "benchmark_base" d
  return {
    expectedTraces, scoreUtilWeight, scoreThroughputWeight, scoreAvgLibcThroughputOps,
    scoreAvgLibcThroughputKops, benchmarkBase }

/-- `run_config.json`, or none where reading it raises an error. -/
def readRunConfig (text : List Char) : Option RunConfig :=
  match readJson text with
  | some (.dict d) => RunConfig.ofEntries d
  | _ => none

/-- `summarize_results`, on the texts of the two files. It is none where reading them raises an error. -/
def summarizeFiles (readConfig : List Char → Option (List Char)) (resultsJson runConfigJson : List Char) :
    Option (Except String ResultFiles) := do
  let results ← readResults resultsJson
  let run ← readRunConfig runConfigJson
  return do
    let config ← run.scoreConfig readConfig
    writeResultFiles results run.expectedTraces config

/-! ## Reading what is written -/

/-- **What is written is read back.** -/
theorem readJson_writeJson {v : Json} (hv : Json.Proper v) : readJson (writeJson v) = some v := by
  have hreturn : '\r' ∉ writeJson v := by
    rw [writeJson, List.mem_append]
    rintro (h | h)
    · exact Json.return_notMem_dumpsAt hv 0 h
    · exact absurd (List.mem_singleton.mp h) (by decide)
  rw [readJson, Json.universalNewlines_of_notMem hreturn]
  exact Json.loads_dumps hv

/-- The dictionary of a stored result is read as that result. -/
theorem ofJson_dict (s : StoredResult) : StoredResult.ofJson (.dict s.entries) = some s := by
  rw [StoredResult.ofJson, dif_pos s.readable]

/-- So are the dictionaries of a list of results. -/
theorem mapM_ofJson (results : List StoredResult) :
    (results.map fun s => Json.dict s.entries).mapM StoredResult.ofJson = some results := by
  induction results with
  | nil => rfl
  | cons s rest ih =>
      rw [List.map_cons, List.mapM_cons, ofJson_dict, ih]
      rfl

/-- **Stored results are read back**, whatever their other entries are. -/
theorem readResults_writeJson {results : List StoredResult}
    (hproper : ∀ s ∈ results, Json.Proper (.dict s.entries)) :
    readResults (writeJson (.list (results.map fun s => .dict s.entries))) = some results := by
  have hlist : Json.Proper (.list (results.map fun s => .dict s.entries)) := by
    refine .list fun item hitem => ?_
    obtain ⟨s, hs, rfl⟩ := List.mem_map.mp hitem
    exact hproper s hs
  rw [readResults, readJson_writeJson hlist]
  exact mapM_ofJson results

/-- The settings of a run have distinct keys. -/
theorem proper_runSettings (s : RunSettings) (c : ScoreConfig PyFloat) :
    Json.Proper (.dict (s.entries c)) := by
  have htimeout (x : Option PyFloat) : Json.Proper (timeoutJson x) := by
    cases x with
    | none => exact .null
    | some x => exact .float x
  refine .dict ?_ ?_
  · show (["mode", "repeat", "build_timeout", "run_timeout", "participants_csv", "repos_dir",
      "benchmark_base", "expected_traces", "score_util_weight", "score_throughput_weight",
      "score_avg_libc_throughput_ops", "score_avg_libc_throughput_kops", "skip_sync",
      "fail_on_harness_diff"].map String.toList).Nodup
    decide +kernel
  · simp only [RunSettings.entries, List.forall_mem_cons]
    exact ⟨.str _, .int _, htimeout _, htimeout _, .str _, .str _, .str _, .int _, .float _, .float _,
      .float _, .float _, .bool _, .bool _, fun _ h => absurd h List.not_mem_nil⟩

/-- The settings of a run are found again. -/
theorem readRunConfig_writeJson (s : RunSettings) (c : ScoreConfig PyFloat) :
    readRunConfig (writeJson (.dict (s.entries c))) =
      some (storedRunConfig s.expectedTraces s.benchmarkBase c) := by
  rw [readRunConfig, readJson_writeJson (proper_runSettings s c)]
  rfl

/-! ## Writing it again -/

section Again

variable {config : Option (ScoreConfig PyFloat)} (hcap : CapPositive config)

include hcap

/-- All results are normalized. -/
theorem normalizeStored_eq (results : List StoredResult) :
    normalizeStored config results = .ok (results.map (StoredResult.withScore config)) := by
  induction results with
  | nil => rfl
  | cons s rest ih =>
      rw [normalizeStored, StoredResult.normalize_eq hcap, ih]
      rfl

/-- **On the entries that the summary uses** this is what is written for the results. -/
theorem writeResultFiles_eq (results : List StoredResult) (expectedTraces : Nat) :
    ∃ files, writeSummaryFiles (results.map StoredResult.result) expectedTraces config = .ok files ∧
      (results.map (StoredResult.withScore config)).map StoredResult.result = files.results ∧
      writeResultFiles results expectedTraces config =
        .ok ⟨files.rows, writeJson (.list
          ((results.map (StoredResult.withScore config)).map fun s => .dict s.entries))⟩ := by
  obtain ⟨rows, hrows, hfiles⟩ :=
    writeSummaryFiles_eq hcap (results.map StoredResult.result) expectedTraces
  have hresults : (results.map (StoredResult.withScore config)).map StoredResult.result =
      (results.map StoredResult.result).map (withScore config) := by
    rw [List.map_map, List.map_map]
    exact List.map_congr_left fun s _ => StoredResult.result_withScore s
  refine ⟨_, hfiles, hresults, ?_⟩
  rw [writeResultFiles, normalizeStored_eq hcap]
  show (toCsvRows ((results.map (StoredResult.withScore config)).map StoredResult.result) expectedTraces
    config).bind _ = _
  rw [hresults, hrows]
  rfl

/-- **Normalized results are written as they are**: the files are the same. -/
theorem writeResultFiles_again {results : List StoredResult} {expectedTraces : Nat} {files : ResultFiles}
    (h : writeResultFiles results expectedTraces config = .ok files) :
    writeResultFiles (results.map (StoredResult.withScore config)) expectedTraces config = .ok files := by
  obtain ⟨summary, hsummary, hresults, hfiles⟩ := writeResultFiles_eq hcap results expectedTraces
  obtain rfl := Except.ok.inj (h.symm.trans hfiles)
  obtain ⟨summary', hsummary', -, hfiles'⟩ :=
    writeResultFiles_eq hcap (results.map (StoredResult.withScore config)) expectedTraces
  rw [hresults, writeSummaryFiles_again hcap hsummary] at hsummary'
  obtain rfl := Except.ok.inj hsummary'
  have hagain : (results.map (StoredResult.withScore config)).map (StoredResult.withScore config) =
      results.map (StoredResult.withScore config) := by
    rw [List.map_map]
    exact List.map_congr_left fun s _ => StoredResult.withScore_withScore hcap s
  rw [hfiles', hagain]

end Again

/-- A score is set, and the other entries stay. -/
theorem getEntry_withScore (config : Option (ScoreConfig PyFloat)) (s : StoredResult) {key : List Char}
    (h : key ≠ "score".toList) :
    Json.getEntry key (s.withScore config).entries = Json.getEntry key s.entries := by
  unfold StoredResult.withScore
  cases resultScore config s.result with
  | none => rfl
  | some x => exact Json.getEntry_setEntry_of_ne h _ _

/-- A dictionary with distinct keys has distinct keys after it is normalized. -/
theorem proper_withScore (config : Option (ScoreConfig PyFloat)) {s : StoredResult}
    (h : Json.Proper (.dict s.entries)) : Json.Proper (.dict (s.withScore config).entries) := by
  unfold StoredResult.withScore
  cases resultScore config s.result with
  | none => exact h
  | some x => exact Json.proper_setEntry h _ (.float x)

/-- **The files of a run** are read back: the results with their scores and with all their other entries
as they were, and the configuration. Writing the summary again writes the same rows and the same
`results.json`, character by character. -/
theorem resultFiles_regenerated (settings : RunSettings) (c : ScoreConfig PyFloat)
    (hcap : CapPositive (some c)) (results : List StoredResult)
    (hproper : ∀ s ∈ results, Json.Proper (.dict s.entries))
    (readConfig : List Char → Option (List Char)) :
    ∃ files, writeResultFiles results settings.expectedTraces (some c) = .ok files ∧
      (∃ summary, writeSummaryFiles (results.map StoredResult.result) settings.expectedTraces (some c) =
        .ok summary ∧ files.rows = summary.rows ∧
        ∃ stored, readResults files.resultsJson = some stored ∧
          stored.map StoredResult.result = summary.results ∧
          List.Forall₂ (fun s t => ∀ key ≠ "score".toList,
            Json.getEntry key t.entries = Json.getEntry key s.entries) results stored) ∧
      summarizeFiles readConfig files.resultsJson (writeJson (.dict (settings.entries c))) =
        some (.ok files) := by
  obtain ⟨summary, hsummary, hresults, hfiles⟩ :=
    writeResultFiles_eq hcap results settings.expectedTraces
  have hstored : ∀ s ∈ results.map (StoredResult.withScore (some c)),
      Json.Proper (.dict s.entries) := by
    intro s hs
    obtain ⟨t, ht, rfl⟩ := List.mem_map.mp hs
    exact proper_withScore (some c) (hproper t ht)
  have hread := readResults_writeJson hstored
  have hagain := writeResultFiles_again hcap hfiles
  refine ⟨_, hfiles, ⟨summary, hsummary, rfl, _, hread, hresults, ?_⟩, ?_⟩
  · rw [List.forall₂_map_right_iff, List.forall₂_same]
    exact fun s _ key hkey => getEntry_withScore (some c) s hkey
  · rw [summarizeFiles, hread, readRunConfig_writeJson]
    show some (writeResultFiles (results.map (StoredResult.withScore (some c))) settings.expectedTraces
      (some c)) = _
    rw [hagain]

/-- A result with an attempt whose error has quotes and line ends in it. -/
def sampleStored : StoredResult where
  entries :=
    [("alias".toList, .str "a".toList), ("repo_url".toList, .str "u".toList),
      ("branch".toList, .str "main".toList), ("commit".toList, .null),
      ("mode".toList, .str "repo".toList), ("status".toList, .str "OK".toList),
      ("harness_diff_count".toList, .int 0),
      ("attempts".toList, .list [.dict [("error".toList, .str "\"a\"\r\n\tb\\".toList)]]),
      ("correct".toList, .int 11), ("perfidx".toList, .float (.ofRat 98))]
  readable := rfl

/-- The settings of a run. -/
def sampleSettings : RunSettings where
  mode := "repo".toList
  repeats := 3
  buildTimeout := none
  runTimeout := some (.ofRat 60)
  participantsCsv := "participants.csv".toList
  reposDir := "repos".toList
  benchmarkBase := "base".toList
  expectedTraces := 11
  skipSync := false
  failOnHarnessDiff := true

/-- One result, under a weight of 0.6. -/
theorem resultFiles_regenerated_sample :
    let record := recordOfWeight (.finite false (3 / 5))
    ∃ files, writeResultFiles [sampleStored] 11 (some record) = .ok files ∧
      summarizeFiles (fun _ => none) files.resultsJson (writeJson (.dict (sampleSettings.entries record))) =
        some (.ok files) := by
  intro record
  have hproper : ∀ s ∈ [sampleStored], Json.Proper (.dict s.entries) := by
    simp only [List.forall_mem_singleton]
    refine .dict (by decide +kernel) ?_
    simp only [sampleStored, List.forall_mem_cons]
    refine ⟨.str _, .str _, .str _, .null, .str _, .str _, .int _, .list ?_, .int _, .float _,
      fun _ h => absurd h List.not_mem_nil⟩
    simp only [List.forall_mem_singleton]
    refine .dict (List.nodup_singleton _) ?_
    simp only [List.forall_mem_singleton]
    exact .str _
  obtain ⟨files, hfiles, -, hsummarize⟩ := resultFiles_regenerated sampleSettings record
    (capPositive_recordOfWeight _) [sampleStored] hproper fun _ => none
  exact ⟨files, hfiles, hsummarize⟩

end MallocBench
