import MallocBench.Files.Paths
import MallocBench.Text.Csv
import MallocBench.Text.Lines
import Mathlib.Data.List.Nodup
import Mathlib.Data.List.Pairwise

/-! # The list of participants

`read_participants` reads `participants.csv`, checks its header and rows and keeps the enabled
participants, whose aliases must be different texts. The alias is then used as a path: `sync_repo` clones
into `repos_dir / alias` and `run_participant` works in `run_dir / alias`.

* **`readParticipants_aliases`**: the aliases of an accepted list are those of the enabled rows.
* **`participants_isolated_iff`**: the directories of the participants are isolated exactly when the
  aliases, read as paths, only descend and name unrelated directories. Different texts are not enough. -/

namespace MallocBench

open Text Files

/-- A participant. The name of the field `alias` is longer here. -/
structure Participant where
  aliasName : List Char
  repoUrl : List Char
  branch : List Char
  mmPath : List Char
  enabled : Bool
  deriving DecidableEq

/-- What `read_participants` raises: a `BenchmarkError` with its message, or an error of the reader. -/
inductive ParticipantsError where
  | benchmark (message : String)
  | csv (e : Csv.Error)
  deriving DecidableEq

/-! ## Rows -/

/-- The names of the columns. -/
def required : List String := ["alias", "repo_url", "branch", "mm_path", "enabled"]

/-- The header has the required names and no other. -/
def headerOk (header : List (List Char)) : Bool :=
  header.all (fun name => (required.map String.toList).contains name) &&
    (required.map String.toList).all fun name => header.contains name

/-- `row.get(name) or ""`, for the row `csv.DictReader` makes: the last column of the name counts, and a
row may be too short for it. -/
def cell (header row : List (List Char)) (name : String) : List Char :=
  ((header.zipIdx.reverse.find? fun column => column.1 = name.toList).bind fun column =>
    row[column.2]?).getD []

/-- `str.lower`, on ASCII letters: no other character has a lower case among the words compared. -/
def lower (s : List Char) : List Char := s.map Char.toLower

/-- The words that enable a participant. -/
def enablingWords : List (List Char) := ["", "true", "1", "yes", "y"].map String.toList

/-- The words that disable one. -/
def disablingWords : List (List Char) := ["false", "0", "no", "n"].map String.toList

/-- `parse_enabled`. -/
def parseEnabled (value : List Char) : Except ParticipantsError Bool :=
  if lower (strip value) ∈ enablingWords then .ok true
  else if lower (strip value) ∈ disablingWords then .ok false
  else .error (.benchmark ("invalid enabled value: " ++ String.ofList value))

/-- The participant of a row. -/
def participantOf (header row : List (List Char)) (enabled : Bool) : Participant where
  aliasName := strip (cell header row "alias")
  repoUrl := strip (cell header row "repo_url")
  branch := strip (cell header row "branch")
  mmPath := strip (cell header row "mm_path")
  enabled := enabled

/-- The row has nothing in it. -/
def blankRow (header row : List (List Char)) : Prop :=
  strip (cell header row "alias") = [] ∧ strip (cell header row "repo_url") = [] ∧
    strip (cell header row "branch") = [] ∧ strip (cell header row "mm_path") = [] ∧
      cell header row "enabled" = []

instance (header row : List (List Char)) : Decidable (blankRow header row) :=
  inferInstanceAs (Decidable (_ ∧ _))

/-- The error of a missing entry. -/
def missing (index : Nat) (what : String) : ParticipantsError :=
  .benchmark ("line " ++ toString index ++ ": " ++ what ++ " is required")

/-- The loop over the rows, numbered from two. -/
def readRows (header : List (List Char)) :
    Nat → List (List (List Char)) → Except ParticipantsError (List Participant)
  | _, [] => .ok []
  | index, row :: rest => do
    let enabled ← parseEnabled (cell header row "enabled")
    let p := participantOf header row enabled
    if blankRow header row then readRows header (index + 1) rest
    else if p.aliasName = [] then .error (missing index "alias")
    else if p.repoUrl = [] then .error (missing index "repo_url")
    else if p.mmPath = [] then .error (missing index "mm_path")
    else do
      let others ← readRows header (index + 1) rest
      return p :: others

/-- What is checked of all participants together. -/
def keepEnabled (csvPath : String) (participants : List Participant) :
    Except ParticipantsError (List Participant) :=
  if participants.filter (·.enabled) = [] then
    .error (.benchmark ("no enabled participants found in " ++ csvPath))
  else if ¬ ((participants.filter (·.enabled)).map (·.aliasName)).Nodup then
    .error (.benchmark "participant aliases must be unique")
  else .ok (participants.filter (·.enabled))

/-- The error of a wrong header. -/
def headerError : ParticipantsError :=
  .benchmark "participants.csv header must be exactly: alias,branch,enabled,mm_path,repo_url"

/-- What `read_participants` makes of the header, the rows after it, and the error of the reader that
comes after the rows. `csv.DictReader` skips empty records. -/
def participantsOf (csvPath : String) (header : List (List Char)) (rows : List (List (List Char)))
    (e : Option Csv.Error) : Except ParticipantsError (List Participant) :=
  if headerOk header then do
    let participants ← readRows header 2 (rows.filter (· ≠ []))
    match e with
    | some e => .error (.csv e)
    | none => keepEnabled csvPath participants
  else .error headerError

/-- `read_participants`, of a file that may be missing. -/
def readParticipants (csvPath : String) (file : Option (List Char)) :
    Except ParticipantsError (List Participant) :=
  match file with
  | none => .error (.benchmark ("participants file not found: " ++ csvPath))
  | some text =>
    match Csv.records .start (fileLines text) with
    | ([], some e) => .error (.csv e)
    | ([], none) => .error headerError
    | (header :: rows, e) => participantsOf csvPath header rows e

/-! ## The aliases of an accepted list -/

/-- The aliases in the rows that are not blank and that an enabling word enables. -/
def enabledAliases (header : List (List Char)) (rows : List (List (List Char))) : List (List Char) :=
  rows.filterMap fun row =>
    if blankRow header row then none
    else if lower (strip (cell header row "enabled")) ∈ enablingWords then
      some (strip (cell header row "alias"))
    else none

/-- The aliases of the enabled rows of a file. -/
def aliasesOf (text : List Char) : List (List Char) :=
  match (Csv.records .start (fileLines text)).1 with
  | [] => []
  | header :: rows => enabledAliases header (rows.filter (· ≠ []))

/-- What a row is enabled by. -/
theorem parseEnabled_eq_ok {value : List Char} {enabled : Bool}
    (h : parseEnabled value = .ok enabled) :
    enabled = true ↔ lower (strip value) ∈ enablingWords := by
  unfold parseEnabled at h
  split at h
  · next hword =>
    obtain rfl := Except.ok.inj h
    exact iff_of_true rfl hword
  · next hword =>
    split at h
    · obtain rfl := Except.ok.inj h
      exact iff_of_false (by simp) hword
    · exact absurd h (by simp)

/-- The loop keeps the aliases of its rows. -/
theorem readRows_aliases {header : List (List Char)} {rows : List (List (List Char))} {index : Nat}
    {ps : List Participant} (h : readRows header index rows = .ok ps) :
    (ps.filter (·.enabled)).map (·.aliasName) = enabledAliases header rows := by
  unfold enabledAliases
  induction rows generalizing index ps with
  | nil =>
      obtain rfl := Except.ok.inj h
      rfl
  | cons row rest ih =>
      rw [List.filterMap_cons]
      unfold readRows at h
      cases henabled : parseEnabled (cell header row "enabled") with
      | error e =>
          rw [henabled] at h
          exact absurd h (by simp [bind, Except.bind])
      | ok enabled =>
          rw [henabled] at h
          change (if blankRow header row then _ else _) = _ at h
          have hword := parseEnabled_eq_ok henabled
          by_cases hblank : blankRow header row
          · -- a blank row is skipped whatever enables it
            rw [if_pos hblank] at h ⊢
            exact ih h
          · rw [if_neg hblank] at h
            simp only [if_neg hblank]
            split at h
            · exact absurd h (by simp)
            split at h
            · exact absurd h (by simp)
            split at h
            · exact absurd h (by simp)
            cases hrest : readRows header (index + 1) rest with
            | error e =>
                rw [hrest] at h
                exact absurd h (by simp [bind, Except.bind])
            | ok others =>
                rw [hrest] at h
                obtain rfl := Except.ok.inj h
                have htail := ih hrest
                by_cases htrue : lower (strip (cell header row "enabled")) ∈ enablingWords
                · rw [List.filter_cons_of_pos (hword.mpr htrue), List.map_cons, htail, if_pos htrue]
                  rfl
                · rw [List.filter_cons_of_neg (mt hword.mp htrue), htail, if_neg htrue]

/-- The aliases of a list made from a header and rows. -/
theorem participantsOf_aliases {csvPath : String} {header : List (List Char)}
    {rows : List (List (List Char))} {e : Option Csv.Error} {ps : List Participant}
    (h : participantsOf csvPath header rows e = .ok ps) :
    ps.map (·.aliasName) = enabledAliases header (rows.filter (· ≠ [])) ∧
      (enabledAliases header (rows.filter (· ≠ []))).Nodup := by
  unfold participantsOf at h
  split at h
  · cases hrows : readRows header 2 (rows.filter (· ≠ [])) with
    | error e =>
        rw [hrows] at h
        exact absurd h (by simp [bind, Except.bind])
    | ok participants =>
        rw [hrows] at h
        change (match e with | some e => _ | none => keepEnabled csvPath participants) = _ at h
        cases e with
        | some e => exact absurd h (by simp)
        | none =>
            change keepEnabled csvPath participants = _ at h
            have haliases := readRows_aliases hrows
            unfold keepEnabled at h
            split at h
            · exact absurd h (by simp)
            · split at h
              · exact absurd h (by simp)
              · next hnodup =>
                obtain rfl := Except.ok.inj h
                rw [not_not, haliases] at hnodup
                exact ⟨haliases, hnodup⟩
  · exact absurd h (by simp)

/-- **The aliases of an accepted list** are those of the enabled rows, and they are different texts. -/
theorem readParticipants_aliases {csvPath : String} {text : List Char} {ps : List Participant}
    (h : readParticipants csvPath (some text) = .ok ps) :
    ps.map (·.aliasName) = aliasesOf text ∧ (aliasesOf text).Nodup := by
  unfold readParticipants at h
  unfold aliasesOf
  simp only at h
  generalize Csv.records .start (fileLines text) = result at h ⊢
  obtain ⟨recs, e⟩ := result
  cases recs with
  | nil =>
      cases e with
      | none => exact absurd h (by simp)
      | some e => exact absurd h (by simp)
  | cons header rows => exact participantsOf_aliases h

/-! ## The directories -/

/-- `repos_dir / participant.alias`, where `sync_repo` clones. -/
def cloneDirectory (reposDir : Directory) (p : Participant) : List Name := reposDir.join p.aliasName

/-- `run_dir / participant.alias`, where `run_participant` works. -/
def runDirectory (runDir : Directory) (p : Participant) : List Name := runDir.join p.aliasName

/-- In these directories the clones of two participants are isolated, and so are their runs. -/
def IsolatedIn (reposDir runDir : Directory) (p q : Participant) : Prop :=
  Isolated reposDir.names (cloneDirectory reposDir p) (cloneDirectory reposDir q) ∧
    Isolated runDir.names (runDirectory runDir p) (runDirectory runDir q)

/-- Two participants are isolated in all directories iff their aliases are apart. -/
theorem isolatedIn_iff {p q : Participant} :
    (∀ reposDir runDir, IsolatedIn reposDir runDir p q) ↔ Apart p.aliasName q.aliasName := by
  rw [← isolated_iff]
  constructor
  · intro h base
    exact (h base base).1
  · intro h reposDir runDir
    exact ⟨h reposDir, h runDir⟩

/-- **The participants of an accepted list are isolated** in the file system, wherever the clones and
the runs are kept, iff the aliases of the enabled rows are pairwise apart as paths. -/
theorem participants_isolated_iff {csvPath : String} {text : List Char} {ps : List Participant}
    (h : readParticipants csvPath (some text) = .ok ps) :
    (∀ reposDir runDir, ∀ p ∈ ps, ∀ q ∈ ps, p ≠ q → IsolatedIn reposDir runDir p q) ↔
      (aliasesOf text).Pairwise Apart := by
  obtain ⟨haliases, hnodup⟩ := readParticipants_aliases h
  rw [← haliases] at hnodup ⊢
  rw [List.pairwise_map]
  -- for each pair the directories drop out
  have hpairs : (∀ reposDir runDir, ∀ p ∈ ps, ∀ q ∈ ps, p ≠ q → IsolatedIn reposDir runDir p q) ↔
      ∀ p ∈ ps, ∀ q ∈ ps, p ≠ q → Apart p.aliasName q.aliasName := by
    constructor
    · intro hall p hp q hq hne
      exact isolatedIn_iff.mp fun reposDir runDir => hall reposDir runDir p hp q hq hne
    · intro hall reposDir runDir p hp q hq hne
      exact isolatedIn_iff.mpr (hall p hp q hq hne) reposDir runDir
  rw [hpairs]
  constructor
  · intro hall
    refine (List.Nodup.of_map _ hnodup).imp_of_mem ?_
    intro p q hp hq hne
    exact hall p hp q hq hne
  · intro hpairwise p hp q hq hne
    -- the pairs come in both orders
    have hsymm : Std.Symm fun p q : Participant => Apart p.aliasName q.aliasName :=
      ⟨fun _ _ hpq => hpq.symm⟩
    exact hpairwise.forall hp hq hne

/-- Two participants whose aliases are two names. -/
def sampleText : List Char :=
  "alias,repo_url,branch,mm_path,enabled\nalice,u,,mm.c,true\nbob,v,,mm.c,\n".toList

/-- Two participants, one in a directory of the other. -/
def sampleNestedText : List Char :=
  "alias,repo_url,branch,mm_path,enabled\na,u,,mm.c,true\na/b,v,,mm.c,\n".toList

/-- A participant with the alias and the repository of the samples. -/
def sampleParticipant (aliasName repoUrl : String) : Participant :=
  ⟨aliasName.toList, repoUrl.toList, [], "mm.c".toList, true⟩

/-- A directory for clones. -/
def sampleReposDir : Directory := ⟨["repos".toList], by decide⟩

/-- A directory for runs. -/
def sampleRunDir : Directory := ⟨["runs".toList, "20260412-120000".toList], by decide⟩

/-- `participants_isolated_iff` for two names: the participants are isolated. -/
theorem participants_isolated_sample :
    IsolatedIn sampleReposDir sampleRunDir (sampleParticipant "alice" "u")
      (sampleParticipant "bob" "v") := by
  have hread : readParticipants "participants.csv" (some sampleText) =
      .ok [sampleParticipant "alice" "u", sampleParticipant "bob" "v"] := by rfl
  have haliases : aliasesOf sampleText = ["alice".toList, "bob".toList] := by rfl
  have hapart : Apart "alice".toList "bob".toList :=
    ⟨["alice".toList], ["bob".toList], by decide, by decide, by decide, by decide⟩
  have hpairwise : (aliasesOf sampleText).Pairwise Apart := by
    rw [haliases, List.pairwise_pair]
    exact hapart
  exact (participants_isolated_iff hread).mpr hpairwise sampleReposDir sampleRunDir _
    List.mem_cons_self _ (List.mem_cons_of_mem _ List.mem_cons_self) (by decide)

/-- **An alias below another is accepted**: the clone of one participant lies in the clone of the
other. -/
theorem nested_alias_accepted :
    ∃ ps, readParticipants "participants.csv" (some sampleNestedText) = .ok ps ∧
      ∃ p ∈ ps, ∃ q ∈ ps, p ≠ q ∧ ∀ reposDir runDir, ¬ IsolatedIn reposDir runDir p q := by
  have hread : readParticipants "participants.csv" (some sampleNestedText) =
      .ok [sampleParticipant "a" "u", sampleParticipant "a/b" "v"] := by rfl
  refine ⟨_, hread, _, List.mem_cons_self, _, List.mem_cons_of_mem _ List.mem_cons_self, by decide, ?_⟩
  intro reposDir runDir h
  have ha : DescendsTo "a".toList ["a".toList] := by decide
  have hb : DescendsTo "a/b".toList ["a".toList, "b".toList] := by decide
  have hprefix := h.1.unrelated.1
  unfold cloneDirectory sampleParticipant at hprefix
  rw [join_of_descendsTo ha, join_of_descendsTo hb] at hprefix
  exact hprefix ⟨["b".toList], by simp⟩

end MallocBench
