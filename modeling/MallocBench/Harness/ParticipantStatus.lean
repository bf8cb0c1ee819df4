import MallocBench.Harness.DriverOutput
import MallocBench.Harness.MmRuns
import MallocBench.Scripts.BenchmarkRun

/-! # The status of a participant, from the runs of its driver

An attempt builds the participant's package, runs the driver and reads what it prints. When the commands
succeed, the attempt is successful, however wrong the package is: the errors are in the number of correct
traces.

* **`participant_status`**: the status is `OK` when the driver has found no error in any attempt,
  `INCORRECT` when it has found as many in each, and otherwise `UNSTABLE`. What it prints has to be made of
  numbers: the heaps it measures are not empty, and a run without an error takes some time.
* **`mm_participant`**: the repository's own `mm.c` is `OK`, on all traces that plain replays serve. -/

namespace MallocBench

open Numbers Text

variable {utilWeight avgLibcThruput : ℚ}

/-! ## The attempts of a participant -/

section Attempts

variable {σ : Type} {pkg : Package σ} {d : Nat → DriverRun pkg} {runs : Nat → AttemptRun}
  {buildTimeout runTimeout : Option String} {expectedTraces : Nat}

/-- The commands of an attempt succeed, and the driver makes the run `d` over as many traces as are
expected. When that is without an error, the utilization it prints is not above 100 percent. -/
structure Makes (utilWeight avgLibcThruput : ℚ) (expectedTraces : Nat) (run : AttemptRun)
    (d : DriverRun pkg) : Prop where
  reads : run.Reads
  stdout : run.stdout = d.stdout utilWeight avgLibcThruput
  team : d.team.OneLine
  length : d.traces.length = expectedTraces
  util : d.errors = 0 → (d.report utilWeight avgLibcThruput).util ≤ 100

/-- The count and the index that are read. -/
theorem DriverRun.measures_read (d : DriverRun pkg) (utilWeight avgLibcThruput : ℚ) :
    (d.measures utilWeight avgLibcThruput).correct = some (d.traces.length - d.errors) ∧
      (d.measures utilWeight avgLibcThruput).perfidx =
        some (.ofRat (d.report utilWeight avgLibcThruput).perfidx) := by
  rw [DriverRun.measures]
  split_ifs
  · exact ⟨rfl, rfl⟩
  · exact ⟨rfl, rfl⟩

/-- A percentage is read. -/
theorem limit_lt_maxStrDigits {n : Nat} (h : n ≤ 100) : n < 10 ^ maxStrDigits :=
  calc n < 10 ^ 3 := by omega
    _ ≤ 10 ^ maxStrDigits := Nat.pow_le_pow_right (by decide) (by decide)

/-- **An attempt** whose commands succeed is successful, whatever the package does. -/
theorem Makes.attempt {run : AttemptRun} {d : DriverRun pkg}
    (h : Makes utilWeight avgLibcThruput expectedTraces run d)
    (hexpected : expectedTraces < 10 ^ maxStrDigits) :
    runSingleAttempt run buildTimeout runTimeout =
      .ok ⟨.ok, none, d.measures utilWeight avgLibcThruput, 0⟩ := by
  obtain ⟨hclean, hbuild, hmdriver⟩ := h.reads
  have hparse := d.parse_stdout h.team (h.length ▸ hexpected) fun herr =>
    limit_lt_maxStrDigits (h.util herr)
  obtain ⟨hcorrect, hperfidx⟩ := d.measures_read utilWeight avgLibcThruput
  have hcomplete : (d.measures utilWeight avgLibcThruput).correct ≠ none ∧
      (d.measures utilWeight avgLibcThruput).perfidx ≠ none := by
    rw [hcorrect, hperfidx]
    exact ⟨Option.some_ne_none _, Option.some_ne_none _⟩
  rw [runSingleAttempt, if_neg (not_not.mpr hclean), if_neg (not_not.mpr hbuild),
    if_neg (not_not.mpr hmdriver), h.stdout, hparse]
  exact if_neg (not_or.mpr hcomplete)

/-- The utilisation and the operations that are read are small. -/
theorem Makes.measures_le {run : AttemptRun} {d : DriverRun pkg}
    (h : Makes utilWeight avgLibcThruput expectedTraces run d) :
    (∀ n ∈ (d.measures utilWeight avgLibcThruput).utilPercent, n ≤ 2 ^ 53) ∧
      ∀ n ∈ (d.measures utilWeight avgLibcThruput).totalOps, n ≤ 2 ^ 53 := by
  rw [DriverRun.measures]
  split_ifs with htotals
  · obtain ⟨herr, hops, -, -⟩ := htotals
    constructor
    · rintro n hn
      obtain rfl := Option.some.inj hn
      exact (h.util herr).trans (by decide)
    · rintro n hn
      obtain rfl := Option.some.inj hn
      exact hops.le.trans (by decide)
  · exact ⟨fun n hn => absurd hn (by simp), fun n hn => absurd hn (by simp)⟩

/-- The result of successful attempts. -/
theorem resultFromAttempts_ok {base result : Result} {attempts : List Attempt} (hne : attempts ≠ [])
    (hok : ∀ a ∈ attempts, a.status = .ok)
    (h : resultFromAttempts base attempts expectedTraces = .ok result) :
    result.correct = (attempts.filterMap (·.measures.correct)).head? ∧
      result.perfidx = medianOrNone (attempts.filterMap (·.measures.perfidx)) ∧
      result.status = some (statusOf attempts expectedTraces) := by
  have hsuccessful : successful attempts = attempts :=
    List.filter_eq_self.mpr fun a ha => by simpa using hok a ha
  obtain ⟨first, later, rfl⟩ := List.exists_cons_of_ne_nil hne
  rw [resultFromAttempts, List.head?_cons] at h
  simp only [if_neg (show ¬ successful (first :: later) = [] by simp [hsuccessful]), bind_eq_ok] at h
  obtain ⟨_, -, _, -, _, -, _, -, _, -, h⟩ := h
  obtain rfl := Except.ok.inj h
  refine ⟨?_, ?_, rfl⟩
  · simp only [stableValueOrNone, correctValues, hsuccessful]
  · simp only [hsuccessful]

/-- A measure of numbered attempts. -/
theorem filterMap_outcomes {α : Type} {outcome : Nat → Attempt} {f : Measures → Option α}
    {value : Nat → α} (h : ∀ k, f (outcome k).measures = some (value k)) (n first : Nat) :
    (outcomes outcome n first).filterMap (fun a => f a.measures) =
      (List.range' first n).map value := by
  rw [outcomes, List.filterMap_map]
  have hsome : ((fun a : Attempt => f a.measures) ∘ fun k => { outcome k with attempt := k }) =
      fun k => some (value k) := funext h
  rw [hsome]
  exact congrFun (List.filterMap_eq_map (f := value)) _

/-- **Attempts that are all successful** have a result when their utilisations and operations are small:
its status compares the counts, and the first of them with the number of traces. -/
theorem runAttempts_counts {outcome : Nat → Attempt} {count : Nat → Nat} {perfidx : Nat → Double}
    {repeats : Nat} (hrepeats : 0 < repeats) (hok : ∀ k, (outcome k).status = .ok)
    (hcount : ∀ k, (outcome k).measures.correct = some (count k))
    (hperfidx : ∀ k, (outcome k).measures.perfidx = some (perfidx k))
    (hutil : ∀ k, ∀ n ∈ (outcome k).measures.utilPercent, n ≤ 2 ^ 53)
    (hops : ∀ k, ∀ n ∈ (outcome k).measures.totalOps, n ≤ 2 ^ 53) (base : Result) :
    ∃ result, runAttempts base (fun k => .ok (outcome k)) repeats expectedTraces = .ok result ∧
      result.correct = some (count 1) ∧
      result.perfidx = medianOrNone ((List.range' 1 repeats).map perfidx) ∧
      result.status = some
        (if ∀ k ∈ List.range' 1 repeats, count k = count 1 then
          if count 1 < expectedTraces then .incorrect else .ok
        else .unstable) := by
  obtain ⟨attempts, hattempts⟩ : ∃ attempts, attempts = outcomes outcome repeats 1 := ⟨_, rfl⟩
  have hmem : ∀ a ∈ attempts, ∃ k ∈ List.range' 1 repeats,
      a.status = .ok ∧ a.measures = (outcome k).measures := by
    intro a ha
    obtain ⟨k, hk, rfl⟩ := List.mem_map.mp (hattempts ▸ ha)
    exact ⟨k, hk, hok k, rfl⟩
  have hstatus : ∀ a ∈ attempts, a.status = .ok := by
    intro a ha
    obtain ⟨-, -, hstatus, -⟩ := hmem a ha
    exact hstatus
  obtain ⟨n, rfl⟩ := Nat.exists_eq_succ_of_ne_zero hrepeats.ne'
  have hne : attempts ≠ [] := hattempts ▸ List.cons_ne_nil _ _
  -- the values are in range, since those of each attempt are
  have hrange : ∀ {f : Measures → Option Nat}, (∀ k, ∀ n ∈ f (outcome k).measures, n ≤ 2 ^ 53) →
      InRange ((successful attempts).filterMap fun a => f a.measures) := by
    intro f hf
    refine inRange_of_le fun n hn => ?_
    obtain ⟨a, ha, hvalue⟩ := List.mem_filterMap.mp hn
    obtain ⟨k, -, -, hmeasures⟩ := hmem a (List.mem_of_mem_filter ha)
    exact hf k n (hmeasures ▸ hvalue)
  obtain ⟨result, hresult⟩ :=
    (resultFromAttempts_returns_iff base attempts expectedTraces).mpr ⟨hrange hops, hrange hutil⟩
  obtain ⟨hcorrect, hindex, hresultStatus⟩ := resultFromAttempts_ok hne hstatus hresult
  rw [hattempts, filterMap_outcomes hcount] at hcorrect
  rw [hattempts, filterMap_outcomes hperfidx] at hindex
  refine ⟨result, ?_, hcorrect, hindex, hresultStatus.trans (congrArg some ?_)⟩
  · rw [runAttempts, attemptLoop_eq, ← hattempts,
      upToFailure_eq_self fun a ha hfailed => hfailed.ne_ok (hstatus a ha)]
    exact hresult
  by_cases hsame : ∀ k ∈ List.range' 1 (n + 1), count k = count 1
  · -- all attempts count alike
    rw [if_pos hsame, statusOf_common hne]
    intro a ha
    obtain ⟨k, hk, hstatus, hmeasures⟩ := hmem a ha
    exact ⟨hstatus, by rw [hmeasures, hcount, hsame k hk]⟩
  · -- an attempt counts otherwise than the first
    push Not at hsame
    obtain ⟨k, hk, hdiffer⟩ := hsame
    have hunstable : Unstable attempts := by
      refine (unstable_iff_of_ok hstatus fun a ha => ?_).mpr ⟨{ outcome k with attempt := k }, ?_,
        { outcome 1 with attempt := 1 }, hattempts ▸ List.mem_cons_self, ?_⟩
      · obtain ⟨k, -, -, hmeasures⟩ := hmem a ha
        exact ⟨_, by rw [hmeasures, hcount]⟩
      · exact hattempts ▸ List.mem_map.mpr ⟨k, hk, rfl⟩
      · simpa [hcount] using hdiffer
    rw [if_neg fun h => hdiffer (h k hk), statusOf, if_pos hunstable]

/-- The result of a participant, from the runs of the driver that its attempts make. -/
theorem runAttempts_makes {repeats : Nat} (hrepeats : 0 < repeats)
    (hmakes : ∀ k, Makes utilWeight avgLibcThruput expectedTraces (runs k) (d k))
    (hexpected : expectedTraces < 10 ^ maxStrDigits) (base : Result) :
    ∃ result,
      runAttempts base (fun k => runSingleAttempt (runs k) buildTimeout runTimeout) repeats
        expectedTraces = .ok result ∧
      result.correct = some (expectedTraces - (d 1).errors) ∧
      result.perfidx = medianOrNone ((List.range' 1 repeats).map fun k =>
        .ofRat ((d k).report utilWeight avgLibcThruput).perfidx) ∧
      result.status = some
        (if ∀ k ∈ List.range' 1 repeats, expectedTraces - (d k).errors = expectedTraces - (d 1).errors
        then if expectedTraces - (d 1).errors < expectedTraces then .incorrect else .ok
        else .unstable) := by
  obtain ⟨outcome, houtcome⟩ : ∃ outcome : Nat → Attempt,
      outcome = fun k => ⟨.ok, none, (d k).measures utilWeight avgLibcThruput, 0⟩ := ⟨_, rfl⟩
  have hrun : (fun k => runSingleAttempt (runs k) buildTimeout runTimeout) =
      fun k => .ok (outcome k) := funext fun k => houtcome ▸ (hmakes k).attempt hexpected
  have hread : ∀ k, (outcome k).measures.correct = some (expectedTraces - (d k).errors) ∧
      (outcome k).measures.perfidx = some (.ofRat ((d k).report utilWeight avgLibcThruput).perfidx) := by
    intro k
    rw [houtcome, ← (hmakes k).length]
    exact (d k).measures_read utilWeight avgLibcThruput
  obtain ⟨result, hresult, h⟩ := runAttempts_counts hrepeats (fun _ => houtcome ▸ rfl)
    (fun k => (hread k).1) (fun k => (hread k).2) (fun k => houtcome ▸ (hmakes k).measures_le.1)
    (fun k => houtcome ▸ (hmakes k).measures_le.2) base
  exact ⟨result, hrun ▸ hresult, h⟩

/-- **The status of a participant says what the driver has found.** Whatever errors the package makes, when
the commands of all attempts succeed and the driver prints numbers, the benchmark makes a result. It is
`OK` when no attempt had errors, `INCORRECT` when all had the same number of them, and otherwise
`UNSTABLE`; the correct traces are those of the first attempt, and the index is the median of those
computed. -/
theorem participant_status {repeats : Nat} (hrepeats : 0 < repeats)
    (hmakes : ∀ k, Makes utilWeight avgLibcThruput expectedTraces (runs k) (d k))
    (hexpected : expectedTraces < 10 ^ maxStrDigits) (base : Result) :
    ∃ result,
      runAttempts base (fun k => runSingleAttempt (runs k) buildTimeout runTimeout) repeats
        expectedTraces = .ok result ∧
      result.correct = some (expectedTraces - (d 1).errors) ∧
      result.perfidx = medianOrNone ((List.range' 1 repeats).map fun k =>
        .ofRat ((d k).report utilWeight avgLibcThruput).perfidx) ∧
      result.status = some
        (if ∀ k ∈ List.range' 1 repeats, (d k).errors = (d 1).errors then
          if (d 1).errors = 0 then .ok else .incorrect
        else .unstable) := by
  obtain ⟨result, hresult, hcorrect, hperfidx, hstatus⟩ :=
    runAttempts_makes hrepeats hmakes hexpected base
  refine ⟨result, hresult, hcorrect, hperfidx, ?_⟩
  -- as many correct traces are as many errors
  have hle : ∀ k, (d k).errors ≤ expectedTraces := fun k => (hmakes k).length ▸ (d k).errors_le
  have hiff : ∀ k, expectedTraces - (d k).errors = expectedTraces - (d 1).errors ↔
      (d k).errors = (d 1).errors := by
    intro k
    have hk := hle k
    have hone := hle 1
    omega
  rw [hstatus]
  simp only [hiff]
  split_ifs with hsame hfewer hzero hzero
  · omega
  · rfl
  · rfl
  · have := hle 1
    omega
  · rfl

end Attempts

/-- A team that is filled in. -/
def sampleTeam : Team := ⟨"team".toList, "name".toList, "mail".toList, [], []⟩

/-- What the driver prints for it. -/
def sampleLines : List (List Char) :=
  ["getopt returned: 118".toList, "getopt returned: 103".toList, "Team Name:team".toList,
    "Member 1 :name:mail".toList, "Using default tracefiles in ./traces/".toList,
    "Measuring performance with gettimeofday().".toList]

/-- Its fields are single lines. -/
theorem sampleTeam_oneLine : sampleTeam.OneLine := by
  constructor <;> decide

/-- A run of the package that never frees, over a valid trace and one that is reported. -/
theorem exists_mixedRun : ∃ d : DriverRun bumpPackage,
    d.team = sampleTeam ∧ d.traces = mixedTraces ∧ d.errors = 1 := by
  let start : Evaluation Unit :=
    { bumpEvaluation with harness := Harness.start 0 (String.ofList (printLines sampleLines)) }
  have hsome : (evalTraces bumpPackage 0 start mixedTraces).map (fun r => r.2.harness.errors) =
      some 1 := by
    decide +kernel
  obtain ⟨⟨stats, finish⟩, hloop, herr⟩ := Option.map_eq_some_iff.mp hsome
  have hheaps : HeapsMeasured bumpPackage 0 start mixedTraces := by decide +kernel
  have htimes : ∀ t ∈ mixedTraces, 0 ≤ t.secs := by simp [mixedTraces]
  exact ⟨⟨sampleTeam, sampleLines, by decide +kernel, start, rfl, mixedTraces, stats, finish, hloop, hheaps,
    htimes, fun hzero => absurd (hzero.symm.trans herr) Nat.zero_ne_one⟩, rfl, rfl, herr⟩

/-- Three attempts with one trace of two reported. -/
theorem participant_status_mixed : ∃ d : DriverRun bumpPackage, ∃ result,
    runAttempts sampleBaseResult
      (fun _ => runSingleAttempt ⟨0, 0, 0, d.stdout (3 / 5) 600000⟩ none none) 3 2 = .ok result ∧
    result.status = some .incorrect := by
  obtain ⟨d, hteam, htraces, herr⟩ := exists_mixedRun
  obtain ⟨result, hresult, -, -, hstatus⟩ := @participant_status (3 / 5) 600000 Unit bumpPackage
    (fun _ => d) (fun _ => ⟨0, 0, 0, d.stdout (3 / 5) 600000⟩) none none 2 3 (by decide)
    (fun _ => ⟨⟨rfl, rfl, rfl⟩, rfl, hteam ▸ sampleTeam_oneLine, htraces ▸ rfl, fun hzero =>
      absurd (hzero.symm.trans herr) Nat.zero_ne_one⟩)
    (limit_lt_maxStrDigits (by decide)) sampleBaseResult
  exact ⟨d, result, hresult, by rw [hstatus, if_pos fun _ _ => rfl, herr]; rfl⟩

/-! ## `mm.c` as a participant -/

/-- A whole percentage. -/
theorem rounded_percent_le {x : ℚ} (h : x ≤ 1) : rounded (x * 100) ≤ 100 := by
  have hround : roundHalfEven (x * 100) ≤ (100 : ℤ) := roundHalfEven_le (by push_cast; linarith)
  exact Int.toNat_le.mpr hround

/-- **The driver runs to its end on `mm.c`**, without an error. -/
theorem exists_mmRun {team : Team} {lines : List (List Char)} (hteam : startLines team = .ok lines)
    {start : Evaluation Nat} (halign : 8 ∣ start.process.memlib.memStartBrk)
    (hharness : start.harness = Harness.start 0 (String.ofList (printLines lines)))
    {traces : List (LoadedTrace ℚ)} (hne : traces ≠ []) (hpass : ∀ t ∈ traces, Passing t.ops)
    (hsecs : ∀ t ∈ traces, 0 < t.secs) :
    ∃ d : DriverRun mmPackage, d.team = team ∧ d.start = start ∧ d.traces = traces ∧ d.errors = 0 ∧
      ∀ utilWeight avgLibcThruput : ℚ, (d.report utilWeight avgLibcThruput).util ≤ 100 := by
  obtain ⟨stats, finish, hloop, herr, hheaps, hall⟩ := Passing.evalTraces halign hpass 0
  have hstats := forall_of_forall₂ (P := fun x => 0 < x.secs ∧ x.util ∈ Set.Icc 0 1) hall
    fun t ht x ⟨_, _, htime, hutil, _⟩ => ⟨htime ▸ hsecs t ht, hutil⟩
  have hlength : stats ≠ [] := by
    rintro rfl
    cases hall
    exact hne rfl
  have htime : 0 < (stats.map TraceStats.secs).sum := by
    apply List.sum_pos
    · simpa using fun x hx => (hstats x hx).1
    · simpa using hlength
  have hzero : finish.harness.errors = 0 := by
    rw [herr, hharness]
    rfl
  refine ⟨⟨team, lines, hteam, start, hharness, traces, stats, finish, hloop, hheaps,
    fun t ht => (hsecs t ht).le, fun _ => ?_⟩, rfl, rfl, rfl, hzero, fun utilWeight avgLibcThruput => ?_⟩
  · rw [aggregate, foldl_add_exact]
    simpa using htime
  · have hutil : (aggregate stats).util = (stats.map TraceStats.util).sum := by
      rw [aggregate, foldl_add_exact]
      simp
    have haverage := (average_mem fun x hx => (hstats x hx).2).2
    rw [← hutil] at haverage
    exact rounded_percent_le haverage

/-- **The repository's own `mm.c` is `OK`.** Take any traces that plain replays serve and answer, with
reallocated ids of a low byte below 128, in as many attempts as one likes, each from a heap of its own
and with times of its own. The driver comes to its end in each attempt, and when the commands succeed the
participant's status is `OK`, with all traces correct. -/
theorem mm_participant {team : Team} (honeLine : team.OneLine) {lines : List (List Char)}
    (hteam : startLines team = .ok lines) {start : Nat → Evaluation Nat}
    (halign : ∀ k, 8 ∣ (start k).process.memlib.memStartBrk)
    (hharness : ∀ k, (start k).harness = Harness.start 0 (String.ofList (printLines lines)))
    {traces : Nat → List (LoadedTrace ℚ)} {expectedTraces : Nat}
    (hlength : ∀ k, (traces k).length = expectedTraces) (hpos : 0 < expectedTraces)
    (hexpected : expectedTraces < 10 ^ maxStrDigits)
    (hpass : ∀ k, ∀ t ∈ traces k, Passing t.ops ∧ 0 < t.secs) (utilWeight avgLibcThruput : ℚ)
    {repeats : Nat} (hrepeats : 0 < repeats) (buildTimeout runTimeout : Option String) (base : Result) :
    ∃ d : Nat → DriverRun mmPackage, (∀ k, (d k).start = start k ∧ (d k).traces = traces k) ∧
      ∀ runs : Nat → AttemptRun,
        (∀ k, (runs k).Reads ∧ (runs k).stdout = (d k).stdout utilWeight avgLibcThruput) →
        ∃ result,
          runAttempts base (fun k => runSingleAttempt (runs k) buildTimeout runTimeout) repeats
            expectedTraces = .ok result ∧
          result.status = some .ok ∧ result.correct = some expectedTraces := by
  have hrun : ∀ k, ∃ d : DriverRun mmPackage, d.team = team ∧ d.start = start k ∧
      d.traces = traces k ∧ d.errors = 0 ∧
        ∀ utilWeight avgLibcThruput : ℚ, (d.report utilWeight avgLibcThruput).util ≤ 100 := by
    intro k
    have hne : traces k ≠ [] := List.ne_nil_of_length_pos (by rw [hlength k]; exact hpos)
    exact exists_mmRun hteam (halign k) (hharness k) hne (fun t ht => (hpass k t ht).1)
      fun t ht => (hpass k t ht).2
  choose d hdteam hdstart hdtraces hderr hdutil using hrun
  refine ⟨d, fun k => ⟨hdstart k, hdtraces k⟩, fun runs hruns => ?_⟩
  have hmakes : ∀ k, Makes utilWeight avgLibcThruput expectedTraces (runs k) (d k) := fun k =>
    ⟨(hruns k).1, (hruns k).2, hdteam k ▸ honeLine, hdtraces k ▸ hlength k, fun _ => hdutil k _ _⟩
  obtain ⟨result, hresult, hcorrect, -, hstatus⟩ := @runAttempts_makes _ _ _ _ _ _ buildTimeout
    runTimeout _ _ hrepeats hmakes hexpected base
  refine ⟨result, hresult, ?_, ?_⟩
  · simpa [hderr] using hstatus
  · simpa [hderr] using hcorrect

/-- Three attempts, with times of their own. -/
theorem mm_participant_sample : ∃ d : Nat → DriverRun mmPackage, ∃ result,
    runAttempts sampleBaseResult
      (fun k => runSingleAttempt ⟨0, 0, 0, (d k).stdout (3 / 5) 600000⟩ none none) 3 1 = .ok result ∧
    result.status = some .ok := by
  let start : Evaluation Nat :=
    { mmEvaluation with harness := Harness.start 0 (String.ofList (printLines sampleLines)) }
  obtain ⟨d, -, h⟩ := @mm_participant sampleTeam sampleTeam_oneLine sampleLines (by decide +kernel)
    (fun _ => start) (fun _ => by decide) (fun _ => rfl)
    (fun k => [⟨evenRequests, fun _ => 0, fun _ => 0, 3, 1 / (1000 + k)⟩]) 1 (fun _ => rfl) (by decide)
    (limit_lt_maxStrDigits (by decide))
    (fun k t ht => by
      obtain rfl := List.mem_singleton.mp ht
      exact ⟨evenRequests_passing, by positivity⟩)
    (3 / 5) 600000 3 (by decide) none none sampleBaseResult
  obtain ⟨result, hresult, hstatus, -⟩ := h (fun k => ⟨0, 0, 0, (d k).stdout (3 / 5) 600000⟩)
    fun k => ⟨⟨rfl, rfl, rfl⟩, rfl⟩
  exact ⟨d, result, hresult, hstatus⟩

end MallocBench
