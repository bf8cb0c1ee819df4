import MallocBench.Scripts.Participants
import MallocBench.Scripts.Regenerate
import MallocBench.Text.CsvWriter
import MallocBench.Text.Json

/-! # The table of a summary

`write_summary_files` writes the rows of a summary to `summary.csv`. An alias, a branch or a URL may have
commas, quotes and the ends of lines in it; whoever reads the file as comma-separated values gets the
cells of the rows and nothing else.

* **`Row.eq_of_cells`**: the cells tell the row.
* **`summaryCsv_read`**: the file is read as the header and the cells of the rows, and tells the rows. -/

namespace MallocBench

open Text Numbers

/-! ## The text of the file -/

/-- A number in a cell. -/
def Number.text : Number → List Char
  | .int n _ => intText n
  | .float x => x.repr

/-- A cell that may be `None`, which is written as the empty text. -/
def optionalCell {α : Type} (text : α → List Char) : Option α → List Char
  | none => []
  | some value => text value

/-- `fieldnames`. -/
def fieldnames : List (List Char) :=
  ["rank", "alias", "status", "harness", "correct", "util_percent", "throughput_kops", "score", "perfidx",
    "branch", "commit", "repo_url", "mode"].map String.toList

/-- What `csv.DictWriter` writes of a row, in the order of `fieldnames`. -/
def Row.cells (row : Row) : List (List Char) :=
  [optionalCell (Nat.toDigits 10) row.rank, row.aliasName, row.status, row.harness, row.correct,
    optionalCell Number.text row.utilPercent, row.throughputKops, row.score, row.perfidx, row.branch,
    optionalCell id row.commit, row.repoUrl, row.mode]

/-- The text of `summary.csv`. -/
def summaryCsv (rows : List Row) : List Char := Csv.fileText (fieldnames :: rows.map Row.cells)

/-! ## The cells tell the row -/

/-- An optional entry can be told from its cell, when no value has an empty text. -/
theorem optionalCell_inj {α : Type} {text : α → List Char} {a b : Option α}
    (htext : ∀ v w, text v = text w → v = w) (ha : ∀ v ∈ a, text v ≠ []) (hb : ∀ v ∈ b, text v ≠ [])
    (h : optionalCell text a = optionalCell text b) : a = b := by
  cases a with
  | none =>
      cases b with
      | none => rfl
      | some w => exact absurd h.symm (hb w rfl)
  | some v =>
      cases b with
      | none => exact absurd h (ha v rfl)
      | some w => exact congrArg some (htext v w h)

/-- Only a finite number is one for `json`, which has other words for the others. -/
theorem scanAtom_repr (x : PyFloat) : Json.scanAtom x.repr = some (.float x, []) ∨
    Json.scanAtom x.repr = none ∧ x ∈ [.nan, .signed false .inf, .signed true .inf] := by
  match x with
  | .nan => exact .inr ⟨rfl, by simp⟩
  | .signed false .inf => exact .inr ⟨rfl, by simp⟩
  | .signed true .inf => exact .inr ⟨rfl, by simp⟩
  | .signed negative (.finite y) =>
    have hend : Json.Follows [] := fun c hc => nomatch hc
    have hfinite := Json.scanAtom_float (.signed negative (.finite y)) hend
    rw [List.append_nil, Json.floatText_finite] at hfinite
    exact .inl hfinite

/-- **Different floats are written differently.** -/
theorem repr_inj {x y : PyFloat} (h : x.repr = y.repr) : x = y := by
  rcases scanAtom_repr x with hx | ⟨hx, hxmem⟩
  · rcases scanAtom_repr y with hy | ⟨hy, -⟩
    · rw [h, hy] at hx
      cases hx
      rfl
    · rw [h, hy] at hx
      cases hx
  · rcases scanAtom_repr y with hy | ⟨-, hymem⟩
    · rw [h, hy] at hx
      cases hx
    · -- the words for what is not finite
      have hwords : ∀ x ∈ [PyFloat.nan, .signed false .inf, .signed true .inf],
          ∀ y ∈ [PyFloat.nan, .signed false .inf, .signed true .inf], x.repr = y.repr → x = y := by
        decide
      exact hwords x hxmem y hymem h

/-- The text of an integer is read as a whole. -/
theorem scanAtom_intText (n : ℤ) : Json.scanAtom (intText n) = some (.int n, []) := by
  have hend : Json.Follows [] := fun c hc => nomatch hc
  have h := Json.scanAtom_int n hend
  rwa [List.append_nil] at h

/-- No integer is written as a float. -/
theorem repr_ne_intText (x : PyFloat) (n : ℤ) : x.repr ≠ intText n := by
  intro h
  rcases scanAtom_repr x with hx | ⟨hx, -⟩ <;>
    rw [h, scanAtom_intText] at hx <;>
    cases hx

/-- A number can be told from its text. -/
theorem Number.text_inj {n m : Number} (h : n.text = m.text) : n = m := by
  cases n with
  | int a _ =>
      cases m with
      | int b _ =>
          have hscan : Json.scanAtom (intText a) = Json.scanAtom (intText b) := congrArg _ h
          rw [scanAtom_intText, scanAtom_intText] at hscan
          cases hscan
          rfl
      | float y => exact absurd h.symm (repr_ne_intText y a)
  | float x =>
      cases m with
      | int b _ => exact absurd h (repr_ne_intText x b)
      | float y => exact congrArg Number.float (repr_inj h)

/-- The text of a number is not empty. -/
theorem Number.text_ne_nil (n : Number) : n.text ≠ [] := by
  cases n with
  | int a _ => exact (intText_word a).1
  | float x =>
      intro h
      have hnil : x.repr = [] := h
      rcases scanAtom_repr x with hx | ⟨-, hx⟩
      · rw [hnil] at hx
        cases hx
      · have hwords : ∀ x ∈ [PyFloat.nan, .signed false .inf, .signed true .inf], x.repr ≠ [] := by decide
        exact hwords x hx hnil

/-- The reader takes the cells of the row, and a commit has a name. -/
structure Row.Readable (row : Row) : Prop where
  short : ∀ c ∈ row.cells, c.length ≤ Csv.fieldLimit
  commitNamed : ∀ commit ∈ row.commit, commit ≠ []

/-- **The cells tell the row.** -/
theorem Row.eq_of_cells {a b : Row} (ha : a.Readable) (hb : b.Readable) (h : a.cells = b.cells) :
    a = b := by
  obtain ⟨rank, aliasName, status, harness, correct, util, kops, score, perfidx, branch, commit, url,
    mode⟩ := a
  simp only [Row.cells, List.cons.injEq, and_true] at h
  obtain ⟨hrank, rfl, rfl, rfl, rfl, hutil, rfl, rfl, rfl, rfl, hcommit, rfl, rfl⟩ := h
  obtain rfl := optionalCell_inj (fun _ _ => toDigits_inj) (fun _ _ => Nat.toDigits_ne_nil)
    (fun _ _ => Nat.toDigits_ne_nil) hrank
  obtain rfl := optionalCell_inj (fun _ _ => Number.text_inj) (fun n _ => n.text_ne_nil)
    (fun n _ => n.text_ne_nil) hutil
  obtain rfl := optionalCell_inj (fun _ _ h => h) ha.commitNamed hb.commitNamed hcommit
  rfl

/-- Rows can be told from their cells. -/
theorem eq_of_map_cells {rows rows' : List Row} (h : ∀ row ∈ rows, row.Readable)
    (h' : ∀ row ∈ rows', row.Readable) (hcells : rows.map Row.cells = rows'.map Row.cells) :
    rows = rows' := by
  induction rows generalizing rows' with
  | nil => exact (List.map_eq_nil_iff.mp hcells.symm).symm
  | cons row rows ih =>
      obtain ⟨row', rest, rfl, hrow, hrest⟩ := List.map_eq_cons_iff.mp hcells.symm
      rw [List.forall_mem_cons] at h h'
      rw [Row.eq_of_cells h.1 h'.1 hrow.symm, ih h.2 h'.2 hrest.symm]

/-! ## Reading the file -/

/-- **The file is read back** as the header and the cells of each row. -/
theorem records_summaryCsv {rows : List Row} (h : ∀ row ∈ rows, row.Readable) :
    Csv.records .start (fileLines (summaryCsv rows)) = (fieldnames :: rows.map Row.cells, none) := by
  refine Csv.records_fileText ?_ ?_
  · rw [List.forall_mem_cons, List.forall_mem_map]
    exact ⟨by decide, fun row _ => List.cons_ne_nil _ _⟩
  · rw [List.forall_mem_cons, List.forall_mem_map]
    exact ⟨by decide +kernel, fun row hrow => (h row hrow).short⟩

/-- Different rows make different files. -/
theorem eq_of_summaryCsv {rows rows' : List Row} (h : ∀ row ∈ rows, row.Readable)
    (h' : ∀ row ∈ rows', row.Readable) (heq : summaryCsv rows = summaryCsv rows') : rows = rows' := by
  have hrecords := records_summaryCsv h
  rw [heq, records_summaryCsv h'] at hrecords
  exact eq_of_map_cells h h' (List.cons.inj (Prod.mk.inj hrecords).1).2.symm

/-- The rows are those of the results stored. -/
theorem toCsvRows_of_writeSummaryFiles {config : Option (ScoreConfig PyFloat)}
    {results : List ResultDict} {expectedTraces : Nat} {files : SummaryFiles}
    (h : writeSummaryFiles results expectedTraces config = .ok files) :
    toCsvRows files.results expectedTraces config = .ok files.rows := by
  rw [writeSummaryFiles] at h
  obtain ⟨normalized, -, h⟩ := bind_eq_ok.mp h
  obtain ⟨rows, hrows, h⟩ := bind_eq_ok.mp h
  obtain rfl := Except.ok.inj h
  exact hrows

/-- **`summary.csv` is read as it is meant.** It has the header and one record for each row, with the cells
of the row; under `alias` the results are listed in the order of the ranking; and no other summary has the
same text. -/
theorem summaryCsv_read {config : Option (ScoreConfig PyFloat)} {results : List ResultDict}
    {expectedTraces : Nat} {files : SummaryFiles}
    (h : writeSummaryFiles results expectedTraces config = .ok files)
    (hrows : ∀ row ∈ files.rows, row.Readable) :
    ∃ records, Csv.records .start (fileLines (summaryCsv files.rows)) = (fieldnames :: records, none) ∧
      records = files.rows.map Row.cells ∧
      records.map (fun record => cell fieldnames record "alias") =
        (sortResults files.results).map ResultDict.aliasName ∧
      ∀ rows, (∀ row ∈ rows, row.Readable) → summaryCsv rows = summaryCsv files.rows →
        rows = files.rows := by
  refine ⟨_, records_summaryCsv hrows, rfl, ?_, fun rows hother heq => eq_of_summaryCsv hother hrows heq⟩
  rw [List.map_map, ← csvRowsFrom_aliases (toCsvRows_of_writeSummaryFiles h)]
  exact List.map_congr_left fun row _ => rfl

/-- A result whose alias has a comma, quotes and the end of a line in it. -/
def sampleQuoted : ResultDict where
  aliasName := "a,\"b\"\n".toList
  status := "UNSTABLE".toList
  harnessDiffCount := 2
  correct := none
  score := none
  perfidx := none
  utilPercent := some (.int 98 (by decide +kernel))
  throughputKops := none
  branch := "main".toList
  commit := none
  repoUrl := "u".toList
  mode := "repo".toList

/-- Its row. -/
def sampleQuotedRow : Row := csvRow 11 none sampleQuoted none

/-- A row with a comma, quotes and a line end in its fields. -/
theorem summaryCsv_read_sample :
    writeSummaryFiles [sampleQuoted] 11 none = .ok ⟨[sampleQuotedRow], [sampleQuoted]⟩ ∧
      Csv.records .start (fileLines (summaryCsv [sampleQuotedRow])) =
        ([fieldnames, sampleQuotedRow.cells], none) := by
  have hfiles : writeSummaryFiles [sampleQuoted] 11 none =
      .ok ⟨[sampleQuotedRow], [sampleQuoted]⟩ := by
    show (toCsvRows [sampleQuoted] 11 none).bind _ = _
    rw [toCsvRows, sortResults, List.mergeSort_singleton]
    rfl
  have hrows : ∀ row ∈ [sampleQuotedRow], row.Readable := by
    rw [List.forall_mem_singleton]
    exact ⟨by decide +kernel, fun commit hcommit => absurd hcommit (Option.not_mem_none commit)⟩
  obtain ⟨records, hread, rfl, -⟩ := summaryCsv_read hfiles hrows
  exact ⟨hfiles, hread⟩

end MallocBench
