import MallocBench.Scripts.Attempts
import MallocBench.Scripts.Participants

/-! # A run of the benchmark

`main` synchronises the clones and then runs one participant after the other: it compares the harness,
builds a worktree for each attempt, runs `make` and the driver there, reads what the driver prints and
makes a result of the attempts. Only a `BenchmarkError` is caught, so an exception from one participant's
output ends the run for all.

What git, the file system and the commands do is given, and the file operations succeed: a `Lab` is a
directory together with its comparison and its worktree.

* **`attemptLoop_returns_iff`**: the attempts of a participant are made unless an output does not convert.
* **`runBenchmark_completes_iff`**: the run has one result per participant, in order, exactly when what
  each participant's driver printed is `Digestible`. -/

namespace MallocBench

open Files Text Numbers

/-! ## One attempt -/

/-- What the commands of an attempt do: the return codes of `make clean`, `make` and the driver, and
what the driver prints. -/
structure AttemptRun where
  clean : Int
  build : Int
  mdriver : Int
  stdout : List Char

/-- `command_error`. A timeout is given as `format` prints it. -/
def commandError (commandName : String) (returncode : Int) (timeoutSeconds : Option String) : String :=
  match timeoutSeconds with
  | some seconds =>
    if returncode = 124 then commandName ++ " timed out after " ++ seconds ++ " seconds"
    else commandName ++ " failed"
  | none => commandName ++ " failed"

/-- The record of a failed attempt, before it has its number. -/
def failedAttempt (status : Status) (error : String) : Attempt := ⟨status, some error, noMeasures, 0⟩

/-- `run_single_attempt`. -/
def runSingleAttempt (run : AttemptRun) (buildTimeout runTimeout : Option String) :
    Except PyError Attempt :=
  if run.clean ≠ 0 then
    .ok (failedAttempt .buildFail (commandError "make clean" run.clean buildTimeout))
  else if run.build ≠ 0 then
    .ok (failedAttempt .buildFail (commandError "make" run.build buildTimeout))
  else if run.mdriver ≠ 0 then
    .ok (failedAttempt .runFail (commandError "./mdriver -v -g" run.mdriver runTimeout))
  else do
    let parsed ← parseMdriverOutput run.stdout
    -- an output that was read but lacks an entry fails the attempt
    if parsed.correct = none ∨ parsed.perfidx = none then
      return failedAttempt .runFail "failed to parse mdriver output"
    else return ⟨.ok, none, parsed, 0⟩

/-! ## Synchronisation -/

/-- The branch and the commit of a clone. -/
structure Head where
  branch : List Char
  commit : List Char

/-- The entries of a record of `sync_participants` that a run uses. -/
structure SyncRecord where
  participant : List Char
  branch : List Char
  commit : Option (List Char)
  status : Status
  error : Option String

/-- Where the records come from: from `sync_repo`, which may raise a `BenchmarkError` with a message, or
with `--skip-sync` from the clones that are there. -/
inductive Sync where
  | pull (syncRepo : Participant → Except String Head)
  | skip (clone : Participant → Option Head)

/-- The status of a `BenchmarkError`. -/
def syncFailure (message : String) : Status :=
  if "dirty".toList <:+: lower message.toList then .dirtyRepo else .syncFail

/-- The record of one participant. -/
def Sync.record (p : Participant) : Sync → SyncRecord
  | .pull syncRepo =>
    match syncRepo p with
    | .ok head => ⟨p.aliasName, head.branch, some head.commit, .synced, none⟩
    | .error message => ⟨p.aliasName, p.branch, none, syncFailure message, some message⟩
  | .skip clone =>
    match clone p with
    | some head => ⟨p.aliasName, head.branch, some head.commit, .synced, none⟩
    | none =>
      ⟨p.aliasName, p.branch, none, .syncFail, some "repo clone not found and --skip-sync used"⟩

/-- `sync_records`. -/
def Sync.records (sync : Sync) (ps : List Participant) : List SyncRecord :=
  ps.map fun p => sync.record p

/-- `sync_by_alias[alias]`: of two records with one alias the dictionary keeps the later. -/
def syncByAlias (records : List SyncRecord) (aliasName : List Char) : Except PyError SyncRecord :=
  match records.reverse.find? fun record => record.participant = aliasName with
  | some record => .ok record
  | none => .error .keyError

/-! ## The run -/

/-- The arguments of a run. -/
structure Options where
  repeats : Nat
  mode : Mode
  expectedTraces : Nat
  failOnHarnessDiff : Bool
  buildTimeout : Option String
  runTimeout : Option String

section Run

variable {δ : Type} [DecidableEq δ]

/-- A lab directory that can be compared with the reference and copied to a worktree. -/
structure Lab (sha256 : Bytes → δ) (mode : Mode) (base : FileTree Bytes) where
  files : FileTree Bytes
  mmName : String
  harnessDiffs : List (Diff δ)
  worktree : FileTree Bytes
  compared : detectHarnessDiffs sha256 files base = .ok harnessDiffs
  built : buildWorktree mode base files mmName = .ok worktree

/-- What `run_participant` finds in a clone: a path that is missing, or the lab directory. -/
inductive Checkout (sha256 : Bytes → δ) (mode : Mode) (base : FileTree Bytes) where
  | noMmPath (sourceMmPath : String)
  | noLab (sourceLabDir : String)
  | lab (l : Lab sha256 mode base)

/-- What a run meets: the synchronisation, the clones, and the commands of each attempt in a worktree. -/
structure World (sha256 : Bytes → δ) (mode : Mode) (base : FileTree Bytes) where
  sync : Sync
  checkout : Participant → Checkout sha256 mode base
  commands : Participant → FileTree Bytes → Nat → AttemptRun

/-- `init_base_result`. -/
def initBaseResult (p : Participant) (record : SyncRecord) (mode : Mode) : Result where
  participant := p.aliasName
  repoUrl := p.repoUrl
  branch := if record.branch = [] then p.branch else record.branch
  commit := record.commit
  mode := mode
  status := some record.status
  harnessDiffCount := 0
  error := none
  attempts := []
  correct := none
  utilPercent := none
  totalOps := none
  totalSecs := none
  throughputKops := none
  perfidx := none

variable {sha256 : Bytes → δ} {base : FileTree Bytes} (options : Options)
  (world : World sha256 options.mode base)

/-- `run_participant`. -/
def runParticipant (p : Participant) (record : SyncRecord) : Except PyError Result :=
  let baseResult := initBaseResult p record options.mode
  if record.status ≠ .synced then
    .ok { baseResult with status := some record.status, error := record.error }
  else
    match world.checkout p with
    | .noMmPath sourceMmPath =>
      .ok { baseResult with
        status := some .participantError
        error := some ("mm_path not found: " ++ sourceMmPath) }
    | .noLab sourceLabDir =>
      .ok { baseResult with
        status := some .participantError
        error := some ("lab directory not found: " ++ sourceLabDir) }
    | .lab l =>
      let baseResult := { baseResult with harnessDiffCount := l.harnessDiffs.length }
      if l.harnessDiffs.length ≠ 0 ∧ options.failOnHarnessDiff = true then
        .ok { baseResult with
          status := some .harnessDiff
          error := some "reference harness mismatch detected" }
      else
        runAttempts baseResult
          (fun k => runSingleAttempt (world.commands p l.worktree k) options.buildTimeout
            options.runTimeout)
          options.repeats options.expectedTraces

/-- The loop of `main` over the participants. -/
def participantLoop (records : List SyncRecord) : List Participant → Except PyError (List Result)
  | [] => .ok []
  | p :: rest => do
    let record ← syncByAlias records p.aliasName
    let result ← runParticipant options world p record
    let results ← participantLoop records rest
    return result :: results

/-- The results `main` has for the participants, from the synchronisation on. -/
def runBenchmark (ps : List Participant) : Except PyError (List Result) :=
  participantLoop options world (world.sync.records ps) ps

end Run

/-! ## What the driver prints -/

/-- All commands succeed, so the output is read. -/
def AttemptRun.Reads (run : AttemptRun) : Prop := run.clean = 0 ∧ run.build = 0 ∧ run.mdriver = 0

/-- A command fails, or the output lacks the count of valid traces or a performance index. -/
def AttemptRun.Fails (run : AttemptRun) : Prop := ¬ run.Reads ∨ ¬ Complete run.stdout

instance : DecidablePred AttemptRun.Reads := fun _ => inferInstanceAs (Decidable (_ ∧ _ ∧ _))

instance : DecidablePred AttemptRun.Fails := fun _ => inferInstanceAs (Decidable (_ ∨ _))

/-- The attempts up to the first that fails. -/
def madeRuns (runs : Nat → AttemptRun) : Nat → Nat → List AttemptRun
  | 0, _ => []
  | n + 1, attemptNumber =>
    if (runs attemptNumber).Fails then [runs attemptNumber]
    else runs attemptNumber :: madeRuns runs n (attemptNumber + 1)

/-- The totals the attempts that do not fail print. -/
def printedTotals (made : List AttemptRun) : List (Nat × Nat) :=
  (made.filter fun run => ¬ run.Fails).filterMap fun run => lastTotals run.stdout

/-- **What the scripts can digest**: in every output that is read each captured text converts, and the
utilisations and operations are in the range of a double. -/
structure Digestible (made : List AttemptRun) : Prop where
  converts : ∀ run ∈ made, run.Reads → Convertible run.stdout
  utils : InRange ((printedTotals made).map Prod.fst)
  ops : InRange ((printedTotals made).map Prod.snd)

/-! ## Attempts -/

/-- An attempt returns iff the output it reads converts. -/
theorem runSingleAttempt_returns_iff (run : AttemptRun) (buildTimeout runTimeout : Option String) :
    (∃ attempt, runSingleAttempt run buildTimeout runTimeout = .ok attempt) ↔
      (run.Reads → Convertible run.stdout) := by
  rw [← parseMdriverOutput_returns_iff]
  unfold runSingleAttempt
  by_cases hreads : run.Reads
  · have hall := hreads
    obtain ⟨hclean, hbuild, hmdriver⟩ := hall
    rw [if_neg (not_not.mpr hclean), if_neg (not_not.mpr hbuild), if_neg (not_not.mpr hmdriver),
      exists_bind_eq_ok]
    constructor
    · rintro ⟨parsed, hparsed, -⟩ -
      exact ⟨parsed, hparsed⟩
    · intro h
      obtain ⟨parsed, hparsed⟩ := h hreads
      refine ⟨parsed, hparsed, ?_⟩
      split
      · exact ⟨_, rfl⟩
      · exact ⟨_, rfl⟩
  · -- a command fails, and the output is not parsed
    refine iff_of_true ?_ fun h => absurd h hreads
    split
    · exact ⟨_, rfl⟩
    · next hclean =>
      split
      · exact ⟨_, rfl⟩
      · next hbuild =>
        split
        · exact ⟨_, rfl⟩
        · next hmdriver =>
          exact absurd ⟨not_not.mp hclean, not_not.mp hbuild, not_not.mp hmdriver⟩ hreads

/-- **What an attempt returns**: a failed attempt, or what was parsed. -/
theorem runSingleAttempt_outcome {run : AttemptRun} {buildTimeout runTimeout : Option String}
    {attempt : Attempt} (h : runSingleAttempt run buildTimeout runTimeout = .ok attempt) :
    run.Fails ∧ attempt.Failed ∨
      ¬ run.Fails ∧ attempt.status = .ok ∧ parseMdriverOutput run.stdout = .ok attempt.measures := by
  unfold runSingleAttempt at h
  split at h
  · next hclean =>
    obtain rfl := Except.ok.inj h
    exact Or.inl ⟨Or.inl fun hreads => hclean hreads.1, Or.inl rfl⟩
  split at h
  · next hbuild =>
    obtain rfl := Except.ok.inj h
    exact Or.inl ⟨Or.inl fun hreads => hbuild hreads.2.1, Or.inl rfl⟩
  split at h
  · next hmdriver =>
    obtain rfl := Except.ok.inj h
    exact Or.inl ⟨Or.inl fun hreads => hmdriver hreads.2.2, Or.inr rfl⟩
  next hclean hbuild hmdriver =>
  obtain ⟨parsed, hparsed, h⟩ := bind_eq_ok.mp h
  have hcomplete := (parseMdriverOutput_measures hparsed).2.2
  split at h
  · next hmissing =>
    obtain rfl := Except.ok.inj h
    -- the output is read and lacks one of the two lines
    refine Or.inl ⟨Or.inr fun hc => ?_, Or.inr rfl⟩
    obtain ⟨hcorrect, hperfidx⟩ := hcomplete.mpr hc
    exact hmissing.elim hcorrect hperfidx
  · next hmissing =>
    obtain rfl := Except.ok.inj h
    refine Or.inr ⟨?_, rfl, hparsed⟩
    rintro (hreads | hincomplete)
    · exact hreads ⟨not_not.mp hclean, not_not.mp hbuild, not_not.mp hmdriver⟩
    · exact hincomplete (hcomplete.mp (not_or.mp hmissing))

section Loop

variable {runs : Nat → AttemptRun} {buildTimeout runTimeout : Option String}

/-- **The loop makes its attempts** unless an output it reads does not convert. -/
theorem attemptLoop_returns_iff (n attemptNumber : Nat) :
    (∃ attempts, attemptLoop (fun k => runSingleAttempt (runs k) buildTimeout runTimeout) n
        attemptNumber = .ok attempts) ↔
      ∀ run ∈ madeRuns runs n attemptNumber, run.Reads → Convertible run.stdout := by
  induction n generalizing attemptNumber with
  | zero => exact iff_of_true ⟨[], rfl⟩ (by simp [madeRuns])
  | succ n ih =>
      have hone := runSingleAttempt_returns_iff (runs attemptNumber) buildTimeout runTimeout
      unfold attemptLoop madeRuns
      rw [exists_bind_eq_ok]
      by_cases hfails : (runs attemptNumber).Fails
      · -- the attempt fails, and is the last one made
        rw [if_pos hfails, List.forall_mem_singleton, ← hone]
        constructor
        · rintro ⟨attempt, hattempt, -⟩
          exact ⟨attempt, hattempt⟩
        · rintro ⟨attempt, hattempt⟩
          obtain ⟨-, hfailed⟩ :=
            (runSingleAttempt_outcome hattempt).resolve_right fun hright => hright.1 hfails
          refine ⟨attempt, hattempt, ?_⟩
          rw [if_pos hfailed]
          exact ⟨_, rfl⟩
      · rw [if_neg hfails, List.forall_mem_cons, ← hone, ← ih (attemptNumber + 1)]
        -- whatever it returns did not fail, so the loop goes on
        have hgo : ∀ attempt, runSingleAttempt (runs attemptNumber) buildTimeout runTimeout =
            .ok attempt → ¬ attempt.Failed := by
          intro attempt hattempt hfailed
          obtain ⟨-, hok, -⟩ :=
            (runSingleAttempt_outcome hattempt).resolve_left fun hleft => hfails hleft.1
          exact hfailed.ne_ok hok
        constructor
        · rintro ⟨attempt, hattempt, hrest⟩
          rw [if_neg (hgo attempt hattempt), exists_bind_eq_ok] at hrest
          obtain ⟨rest, hrest, -⟩ := hrest
          exact ⟨⟨attempt, hattempt⟩, rest, hrest⟩
        · rintro ⟨⟨attempt, hattempt⟩, rest, hrest⟩
          refine ⟨attempt, hattempt, ?_⟩
          rw [if_neg (hgo attempt hattempt), exists_bind_eq_ok]
          exact ⟨rest, hrest, _, rfl⟩

/-- A measure of the successful attempts is what the last totals of their outputs give. -/
theorem attemptLoop_values {f : Measures → Option Nat} {g : Nat × Nat → Nat}
    (hfg : ∀ output measures, parseMdriverOutput output = .ok measures →
      f measures = (lastTotals output).map g)
    {n attemptNumber : Nat} {attempts : List Attempt}
    (h : attemptLoop (fun k => runSingleAttempt (runs k) buildTimeout runTimeout) n attemptNumber =
      .ok attempts) :
    (successful attempts).filterMap (fun attempt => f attempt.measures) =
      (printedTotals (madeRuns runs n attemptNumber)).map g := by
  induction n generalizing attemptNumber attempts with
  | zero =>
      obtain rfl := Except.ok.inj h
      rfl
  | succ n ih =>
      unfold madeRuns
      obtain ⟨attempt, hattempt, h⟩ := bind_eq_ok.mp h
      rcases runSingleAttempt_outcome hattempt with ⟨hfails, hfailed⟩ | ⟨hfails, hok, hparsed⟩
      · rw [if_pos hfailed] at h
        obtain rfl := Except.ok.inj h
        -- a failed attempt gives no measure and no totals
        have hnone : successful [{ attempt with attempt := attemptNumber }] = [] :=
          List.filter_cons_of_neg (by simpa using hfailed.ne_ok)
        have hprinted : printedTotals [runs attemptNumber] = [] := by
          unfold printedTotals
          rw [List.filter_cons_of_neg (by simpa using hfails), List.filter_nil, List.filterMap_nil]
        rw [if_pos hfails, hnone, hprinted]
        rfl
      · rw [if_neg fun hfailed => hfailed.ne_ok hok] at h
        obtain ⟨rest, hrest, h⟩ := bind_eq_ok.mp h
        obtain rfl := Except.ok.inj h
        -- the measure of this attempt is that of its output
        have hvalue := hfg _ _ hparsed
        have hrest := ih hrest
        unfold successful printedTotals at hrest ⊢
        rw [if_neg hfails, List.filter_cons_of_pos (by simpa using hok),
          List.filter_cons_of_pos (by simpa using hfails)]
        cases hlast : lastTotals (runs attemptNumber).stdout with
        | none =>
            simp only [List.filterMap_cons, hvalue, hlast, Option.map_none]
            exact hrest
        | some totals =>
            simp only [List.filterMap_cons, hvalue, hlast, Option.map_some, List.map_cons, hrest]

/-- **The result of the attempts** is made iff what was printed is digestible. -/
theorem runAttempts_returns_iff (baseResult : Result) (repeats expectedTraces : Nat) :
    (∃ result, runAttempts baseResult
        (fun k => runSingleAttempt (runs k) buildTimeout runTimeout) repeats expectedTraces =
          .ok result) ↔ Digestible (madeRuns runs repeats 1) := by
  have hvalues : ∀ attempts,
      attemptLoop (fun k => runSingleAttempt (runs k) buildTimeout runTimeout) repeats 1 =
          .ok attempts →
        utilValues attempts = (printedTotals (madeRuns runs repeats 1)).map Prod.fst ∧
          opsValues attempts = (printedTotals (madeRuns runs repeats 1)).map Prod.snd := by
    intro attempts hattempts
    constructor
    · exact attemptLoop_values (f := Measures.utilPercent)
        (fun _ _ hparsed => (parseMdriverOutput_measures hparsed).1) hattempts
    · exact attemptLoop_values (f := Measures.totalOps)
        (fun _ _ hparsed => (parseMdriverOutput_measures hparsed).2.1) hattempts
  unfold runAttempts
  rw [exists_bind_eq_ok]
  constructor
  · rintro ⟨attempts, hattempts, hresult⟩
    obtain ⟨hutils, hops⟩ := hvalues attempts hattempts
    rw [resultFromAttempts_returns_iff, hutils, hops] at hresult
    exact ⟨(attemptLoop_returns_iff repeats 1).mp ⟨attempts, hattempts⟩, hresult.2, hresult.1⟩
  · rintro ⟨hconverts, hutilsIn, hopsIn⟩
    obtain ⟨attempts, hattempts⟩ := (attemptLoop_returns_iff repeats 1).mpr hconverts
    obtain ⟨hutils, hops⟩ := hvalues attempts hattempts
    refine ⟨attempts, hattempts, ?_⟩
    rw [resultFromAttempts_returns_iff, hutils, hops]
    exact ⟨hopsIn, hutilsIn⟩

end Loop

/-! ## Participants -/

/-- The result of attempts is that of the participant it starts from. -/
theorem runAttempts_participant {baseResult result : Result}
    {runAttempt : Nat → Except PyError Attempt} {repeats expectedTraces : Nat}
    (h : runAttempts baseResult runAttempt repeats expectedTraces = .ok result) :
    result.participant = baseResult.participant := by
  obtain ⟨attempts, -, h⟩ := bind_eq_ok.mp h
  unfold resultFromAttempts at h
  split at h
  · obtain rfl := Except.ok.inj h
    rfl
  split at h
  · obtain rfl := Except.ok.inj h
    rfl
  · simp only [bind_eq_ok] at h
    obtain ⟨_, -, _, -, _, -, _, -, _, -, h⟩ := h
    obtain rfl := Except.ok.inj h
    rfl

/-- A record is that of its participant. -/
theorem Sync.record_participant (sync : Sync) (p : Participant) :
    (sync.record p).participant = p.aliasName := by
  cases sync with
  | pull syncRepo =>
      simp only [Sync.record]
      split
      · rfl
      · rfl
  | skip clone =>
      simp only [Sync.record]
      split
      · rfl
      · rfl

/-- The record of a participant is found. -/
theorem syncByAlias_records (sync : Sync) {ps : List Participant} {p : Participant} (hp : p ∈ ps) :
    ∃ record, syncByAlias (sync.records ps) p.aliasName = .ok record := by
  unfold syncByAlias
  cases hfind : (sync.records ps).reverse.find? fun record => record.participant = p.aliasName with
  | some record => exact ⟨record, rfl⟩
  | none =>
      rw [List.find?_eq_none] at hfind
      refine absurd ?_ (hfind (sync.record p) ?_)
      · simpa using sync.record_participant p
      · exact List.mem_reverse.mpr (List.mem_map_of_mem hp)

/-- Of records under different aliases, the one with the alias is found. -/
theorem syncByAlias_of_nodup {records : List SyncRecord} {record : SyncRecord}
    (hnodup : (records.map SyncRecord.participant).Nodup) (hmem : record ∈ records) :
    syncByAlias records record.participant = .ok record := by
  unfold syncByAlias
  cases hfind : records.reverse.find? fun r => r.participant = record.participant with
  | none =>
      rw [List.find?_eq_none] at hfind
      exact absurd (decide_eq_true rfl) (hfind record (List.mem_reverse.mpr hmem))
  | some found =>
      have hfound := List.mem_reverse.mp (List.mem_of_find?_eq_some hfind)
      have halias : found.participant = record.participant := by simpa using List.find?_some hfind
      exact congrArg Except.ok (List.inj_on_of_nodup_map hnodup hfound hmem halias)

section Participants

variable {δ : Type} [DecidableEq δ] {sha256 : Bytes → δ} {base : FileTree Bytes} (options : Options)
  (world : World sha256 options.mode base)

/-- The attempts made for a participant with this record: none if the clone is not synchronised, has no
lab directory or a harness whose differences count as a failure. -/
def attemptsMade (p : Participant) (record : SyncRecord) : List AttemptRun :=
  if record.status ≠ .synced then []
  else
    match world.checkout p with
    | .noMmPath _ => []
    | .noLab _ => []
    | .lab l =>
      if l.harnessDiffs.length ≠ 0 ∧ options.failOnHarnessDiff = true then []
      else madeRuns (world.commands p l.worktree) options.repeats 1

/-- Nothing printed is digestible. -/
theorem digestible_nil : Digestible [] :=
  ⟨by simp, inRange_nil, inRange_nil⟩

/-- A participant has a result iff what its attempts print is digestible. -/
theorem runParticipant_returns_iff (p : Participant) (record : SyncRecord) :
    (∃ result, runParticipant options world p record = .ok result) ↔
      Digestible (attemptsMade options world p record) := by
  unfold runParticipant attemptsMade
  by_cases hsynced : record.status ≠ .synced
  · rw [if_pos hsynced, if_pos hsynced]
    exact iff_of_true ⟨_, rfl⟩ digestible_nil
  rw [if_neg hsynced, if_neg hsynced]
  cases world.checkout p with
  | noMmPath sourceMmPath => exact iff_of_true ⟨_, rfl⟩ digestible_nil
  | noLab sourceLabDir => exact iff_of_true ⟨_, rfl⟩ digestible_nil
  | lab l =>
      by_cases hdiff : l.harnessDiffs.length ≠ 0 ∧ options.failOnHarnessDiff = true
      · simp only [if_pos hdiff]
        exact iff_of_true ⟨_, rfl⟩ digestible_nil
      · simp only [if_neg hdiff]
        exact runAttempts_returns_iff _ _ _

/-- The result of a participant is its own. -/
theorem runParticipant_participant {p : Participant} {record : SyncRecord} {result : Result}
    (h : runParticipant options world p record = .ok result) :
    result.participant = p.aliasName := by
  unfold runParticipant at h
  split at h
  · obtain rfl := Except.ok.inj h
    rfl
  split at h
  · obtain rfl := Except.ok.inj h
    rfl
  · obtain rfl := Except.ok.inj h
    rfl
  · simp only at h
    split at h
    · obtain rfl := Except.ok.inj h
      rfl
    · exact runAttempts_participant h

/-- **The loop over the participants** returns iff each participant's record is found and what its
attempts print is digestible. -/
theorem participantLoop_returns_iff (records : List SyncRecord) (ps : List Participant) :
    (∃ results, participantLoop options world records ps = .ok results) ↔
      ∀ p ∈ ps, ∃ record, syncByAlias records p.aliasName = .ok record ∧
        Digestible (attemptsMade options world p record) := by
  induction ps with
  | nil => exact iff_of_true ⟨[], rfl⟩ (by simp)
  | cons p rest ih =>
      rw [participantLoop, List.forall_mem_cons, ← ih]
      simp only [exists_bind_eq_ok, ← runParticipant_returns_iff]
      constructor
      · rintro ⟨record, hrecord, result, hresult, results, hresults, -⟩
        exact ⟨⟨record, hrecord, result, hresult⟩, results, hresults⟩
      · rintro ⟨⟨record, hrecord, result, hresult⟩, results, hresults⟩
        exact ⟨record, hrecord, result, hresult, results, hresults, _, rfl⟩

/-- The loop has one result per participant, in order. -/
theorem participantLoop_participants {records : List SyncRecord} {ps : List Participant}
    {results : List Result} (h : participantLoop options world records ps = .ok results) :
    results.map (·.participant) = ps.map (·.aliasName) := by
  induction ps generalizing results with
  | nil =>
      obtain rfl := Except.ok.inj h
      rfl
  | cons p rest ih =>
      obtain ⟨record, -, h⟩ := bind_eq_ok.mp h
      obtain ⟨result, hresult, h⟩ := bind_eq_ok.mp h
      obtain ⟨others, hothers, h⟩ := bind_eq_ok.mp h
      obtain rfl := Except.ok.inj h
      rw [List.map_cons, List.map_cons, runParticipant_participant options world hresult, ih hothers]

/-- **A run has one result per participant, in order**, iff what each participant's attempts print is
digestible; and an output is parsed iff it converts. -/
theorem runBenchmark_completes_iff :
    (∀ ps : List Participant,
      (∃ results, runBenchmark options world ps = .ok results ∧
        results.map (·.participant) = ps.map (·.aliasName)) ↔
      ∀ p ∈ ps, ∀ record, syncByAlias (world.sync.records ps) p.aliasName = .ok record →
        Digestible (attemptsMade options world p record)) ∧
    ∀ output, (∃ measures, parseMdriverOutput output = .ok measures) ↔ Convertible output := by
  refine ⟨?_, parseMdriverOutput_returns_iff⟩
  intro ps
  have hreturns := participantLoop_returns_iff options world (world.sync.records ps) ps
  constructor
  · rintro ⟨results, hresults, -⟩ p hp record hrecord
    obtain ⟨found, hfound, hdigestible⟩ := hreturns.mp ⟨results, hresults⟩ p hp
    obtain rfl := Except.ok.inj (hfound.symm.trans hrecord)
    exact hdigestible
  · intro hall
    have hdigestible : ∀ p ∈ ps, ∃ record,
        syncByAlias (world.sync.records ps) p.aliasName = .ok record ∧
          Digestible (attemptsMade options world p record) := by
      intro p hp
      obtain ⟨record, hrecord⟩ := syncByAlias_records world.sync hp
      exact ⟨record, hrecord, hall p hp record hrecord⟩
    obtain ⟨results, hresults⟩ := hreturns.mpr hdigestible
    exact ⟨results, hresults, participantLoop_participants options world hresults⟩

end Participants

/-- One attempt in `repo` mode, without limits. -/
def sampleOptions : Options := ⟨1, .repo, 11, false, none, none⟩

/-- A clean lab directory. -/
def sampleCheckout : Lab (id : Bytes → Bytes) .repo sampleBase where
  files := sampleCleanLab
  mmName := "mm.c"
  harnessDiffs := []
  worktree := copyTreeFiltered sampleCleanLab
  compared := detectHarnessDiffs_sampleBase id (by decide)
  built := rfl

/-- An output with an index that is no number. -/
def oddOutput : List Char := "correct:11\nperfidx:1.2.3\n".toList

/-- Everything succeeds, and only the driver of `bob` prints an odd line. -/
def sampleWorld : World (id : Bytes → Bytes) sampleOptions.mode sampleBase where
  sync := .pull fun _ => .ok ⟨"main".toList, "c0ffee".toList⟩
  checkout := fun _ => .lab sampleCheckout
  commands := fun p _ _ =>
    ⟨0, 0, 0,
      if p.aliasName = "bob".toList then oddOutput else "correct:11\nperfidx:84\n".toList⟩

/-- **One odd line ends the run for all**: the index of one participant has two points, which the pattern
matches and `float` does not take. Without that participant the run has its result. -/
theorem odd_line_ends_run :
    parseMdriverOutput oddOutput = .error .valueError ∧
    (∃ result,
      runBenchmark sampleOptions sampleWorld [sampleParticipant "alice" "u"] = .ok [result]) ∧
    runBenchmark sampleOptions sampleWorld
      [sampleParticipant "alice" "u", sampleParticipant "bob" "v"] = .error .valueError := by
  refine ⟨rfl, ⟨_, rfl⟩, rfl⟩

end MallocBench
