import MallocBench.Text.Csv

/-! # Writing comma-separated values

`csv.writer` in its default dialect: a field with a comma, a quote or the end of a line in it is written in
quotes, with its quotes doubled, and so is the one field of a record that would be empty otherwise. A record
ends with a carriage return and a line feed.

* **`reads_quoted`**: a field in quotes is read over the ends of lines in it.
* **`records_fileText`**: the reader gets back the records. -/

namespace MallocBench.Text.Csv

/-! ## The writer -/

/-- The field is written in quotes. -/
def needsQuotes (field : List Char) : Bool := field.any fun c => [',', '"', '\r', '\n'].contains c

/-- A character in quotes. -/
def quoteChar (c : Char) : List Char := if c = '"' then ['"', '"'] else [c]

/-- `join_append`. -/
def fieldText (field : List Char) : List Char :=
  if needsQuotes field then '"' :: (field.flatMap quoteChar ++ ['"']) else field

/-- The fields behind the first. -/
def moreFields (fields : List (List Char)) : List Char := fields.flatMap fun field => ',' :: fieldText field

/-- `writerow`. -/
def rowText : List (List Char) → List Char
  | [] => "\r\n".toList
  -- an empty line would be no record
  | [[]] => "\"\"\r\n".toList
  | field :: fields => fieldText field ++ (moreFields fields ++ "\r\n".toList)

/-- `writerows`. -/
def fileText (rows : List (List (List Char))) : List Char := rows.flatMap rowText

example : fileText [["1".toList, "a,b".toList, "\"".toList], [[]]] =
    "1,\"a,b\",\"\"\"\"\r\n\"\"\r\n".toList := by decide +kernel

/-! ## Reading character by character -/

/-- The characters of a line so far. -/
def processChars (r : Reader) : List Char → Except Error Reader
  | [] => .ok r
  | c :: rest => do
    let r ← processChar r (some c)
    processChars r rest

/-- The first character is read first. -/
theorem exists_of_processChars_cons {r r' : Reader} {c : Char} {a : List Char}
    (h : processChars r (c :: a) = .ok r') :
    ∃ r'', processChar r (some c) = .ok r'' ∧ processChars r'' a = .ok r' := by
  rw [processChars] at h
  cases hc : processChar r (some c) with
  | error e =>
      rw [hc] at h
      cases h
  | ok r'' =>
      rw [hc] at h
      exact ⟨r'', rfl, h⟩

/-- A text is read in two parts. -/
theorem processChars_append {r r' : Reader} {a : List Char} (h : processChars r a = .ok r')
    (b : List Char) : processChars r (a ++ b) = processChars r' b := by
  induction a generalizing r with
  | nil =>
      obtain rfl := Except.ok.inj h
      rfl
  | cons c a ih =>
      obtain ⟨r'', hc, ha⟩ := exists_of_processChars_cons h
      rw [List.cons_append, processChars, hc]
      exact ih ha

/-- At the end of a line the reader gets its last event. -/
theorem processLine_eq {r r' : Reader} {line : List Char} (h : processChars r line = .ok r') :
    processLine r line = processChar r' none := by
  induction line generalizing r with
  | nil =>
      obtain rfl := Except.ok.inj h
      rfl
  | cons c line ih =>
      obtain ⟨r'', hc, hline⟩ := exists_of_processChars_cons h
      rw [processLine, hc]
      exact ih hline

/-- What the records are from a state inside a line on, whatever was read of the line. -/
def Reads (r : Reader) (text : List Char) (out : List (List (List Char)) × Option Error) : Prop :=
  ∀ start line, processChars start line = .ok r → records start (fileLinesFrom line text) = out

section Reads

variable {r r' r'' : Reader} {rest : List Char} {out : List (List (List Char)) × Option Error}

/-- A character that ends no line is read within the line. -/
theorem Reads.char {c : Char} (hc : c ≠ '\n' ∧ c ≠ '\r') (hr : processChar r (some c) = .ok r')
    (h : Reads r' rest out) : Reads r (c :: rest) out := by
  intro start line hline
  rw [fileLinesFrom, if_neg (by simp [hc])]
  · apply h
    rw [processChars_append hline, processChars, hr]
    rfl
  · intro _ heq
    exact absurd heq hc.2

/-- The end of a line inside a record. -/
theorem Reads.line {ends : List Char}
    (hends : ∀ line, fileLinesFrom line (ends ++ rest) = (line ++ ends) :: fileLinesFrom [] rest)
    (hr : processChars r ends = .ok r') (hnone : processChar r' none = .ok r'')
    (hstate : r''.state ≠ .startRecord) (h : Reads r'' rest out) : Reads r (ends ++ rest) out := by
  intro start line hline
  have hprocess := processLine_eq ((processChars_append hline ends).trans hr)
  rw [hends, records, hprocess, hnone]
  simp only
  rw [if_neg hstate]
  exact h r'' [] rfl

/-- The end of a record. -/
theorem Reads.record {ends : List Char}
    (hends : ∀ line, fileLinesFrom line (ends ++ rest) = (line ++ ends) :: fileLinesFrom [] rest)
    (hr : processChars r ends = .ok r') (hnone : processChar r' none = .ok r'')
    (hstate : r''.state = .startRecord) (h : records .start (fileLinesFrom [] rest) = out) :
    Reads r (ends ++ rest) (r''.fields :: out.1, out.2) := by
  intro start line hline
  have hprocess := processLine_eq ((processChars_append hline ends).trans hr)
  rw [hends, records, hprocess, hnone]
  simp only
  rw [if_pos hstate, h]

/-- A carriage return and a line feed end one line. -/
theorem fileLinesFrom_crlf (line rest : List Char) :
    fileLinesFrom line ("\r\n".toList ++ rest) = (line ++ "\r\n".toList) :: fileLinesFrom [] rest := rfl

/-- A line feed ends a line. -/
theorem fileLinesFrom_lf (line rest : List Char) :
    fileLinesFrom line (['\n'] ++ rest) = (line ++ ['\n']) :: fileLinesFrom [] rest := by
  rw [List.singleton_append, fileLinesFrom, if_pos (.inl rfl)]
  intro _ heq
  exact absurd heq (by decide)

/-- So does a carriage return alone. -/
theorem fileLinesFrom_cr (line : List Char) (h : rest.head? ≠ some '\n') :
    fileLinesFrom line (['\r'] ++ rest) = (line ++ ['\r']) :: fileLinesFrom [] rest := by
  rw [List.singleton_append, fileLinesFrom, if_pos (.inr rfl)]
  rintro rest' - rfl
  exact h rfl

/-! ## A field in quotes -/

/-- A field that is shorter than the limit takes a character more. -/
theorem addChar_of_lt (h : r.field.length < fieldLimit) (c : Char) (state : State) :
    addChar r c state = .ok ⟨state, r.fields, r.field ++ [c]⟩ := if_neg (Nat.not_le.mpr h)

/-- There is room for a character when there is room for all that follow. -/
theorem lt_fieldLimit {w s : List Char} {c : Char} (h : (w ++ [c] ++ s).length ≤ fieldLimit) :
    w.length < fieldLimit := by
  simp only [List.length_append, List.length_cons, List.length_nil] at h
  omega

/-- Between quotes every character but a quote is taken. -/
theorem processChar_quoted {fs : List (List Char)} {w : List Char} {c : Char} (hc : c ≠ '"')
    (hw : w.length < fieldLimit) :
    processChar ⟨.inQuotedField, fs, w⟩ (some c) = .ok ⟨.inQuotedField, fs, w ++ [c]⟩ := by
  have hquote : ¬ some c = some '"' := fun h => hc (Option.some.inj h)
  simp only [processChar]
  rw [if_neg (Option.some_ne_none c), if_neg hquote]
  exact addChar_of_lt hw c .inQuotedField

/-- Behind a carriage return in quotes comes a line feed only if the field has one there. -/
theorem head_quoted {s : List Char} (h : s.head? ≠ some '\n') :
    (s.flatMap quoteChar ++ '"' :: rest).head? ≠ some '\n' := by
  cases s with
  | nil => exact fun heq => absurd (Option.some.inj heq) (by decide)
  | cons c s =>
      rw [List.flatMap_cons, quoteChar]
      split
      · exact fun heq => absurd (Option.some.inj heq) (by decide)
      · exact h

/-- **A field in quotes** is read to its end, whatever lines it goes over. -/
theorem reads_quoted {fs : List (List Char)} (s w : List Char) (hlen : (w ++ s).length ≤ fieldLimit)
    (h : Reads ⟨.quoteInQuotedField, fs, w ++ s⟩ rest out) :
    Reads ⟨.inQuotedField, fs, w⟩ (s.flatMap quoteChar ++ '"' :: rest) out := by
  have hinside : State.inQuotedField ≠ .startRecord := by decide
  -- two characters of the field may be one end of a line
  induction hn : s.length using Nat.strongRecOn generalizing s w with
  | ind n ih =>
    cases s with
    | nil =>
        rw [List.append_nil] at h
        exact Reads.char (by decide) rfl h
    | cons c s =>
        rw [List.append_cons] at h hlen
        have hw := lt_fieldLimit hlen
        have hrest := ih s.length (by simp [← hn]) s (w ++ [c]) hlen h rfl
        by_cases hquote : c = '"'
        · -- a quote is written twice
          subst hquote
          have hfirst : processChar ⟨.inQuotedField, fs, w⟩ (some '"') =
            .ok ⟨.quoteInQuotedField, fs, w⟩ := rfl
          exact Reads.char (by decide) hfirst (Reads.char (by decide) (addChar_of_lt hw _ _) hrest)
        rw [List.flatMap_cons, quoteChar, if_neg hquote, List.append_assoc]
        have hc : processChar ⟨.inQuotedField, fs, w⟩ (some c) = .ok ⟨.inQuotedField, fs, w ++ [c]⟩ :=
          processChar_quoted hquote hw
        have hone : processChars ⟨.inQuotedField, fs, w⟩ [c] = .ok ⟨.inQuotedField, fs, w ++ [c]⟩ := by
          rw [processChars, hc]
          rfl
        by_cases hlf : c = '\n'
        · subst hlf
          exact Reads.line (fun line => fileLinesFrom_lf line _) hone rfl hinside hrest
        by_cases hcr : c = '\r'
        · subst hcr
          by_cases hnext : s.head? = some '\n'
          · -- the line ends behind the line feed
            obtain ⟨s, rfl⟩ := List.head?_eq_some_iff.mp hnext
            rw [List.append_cons] at h hlen
            have hw' := lt_fieldLimit hlen
            have hboth : processChars ⟨.inQuotedField, fs, w⟩ "\r\n".toList =
                .ok ⟨.inQuotedField, fs, w ++ ['\r'] ++ ['\n']⟩ := by
              refine (processChars_append hone ['\n']).trans ?_
              rw [processChars, processChar_quoted (by decide) hw']
              rfl
            show Reads _ ("\r\n".toList ++ (s.flatMap quoteChar ++ '"' :: rest)) out
            refine Reads.line (fun line => fileLinesFrom_crlf line _) hboth rfl hinside ?_
            have hless : s.length < n := by
              rw [List.length_cons, List.length_cons] at hn
              omega
            exact ih s.length hless s _ hlen h rfl
          · exact Reads.line (fun line => fileLinesFrom_cr line (head_quoted hnext)) hone rfl hinside hrest
        · exact Reads.char ⟨hlf, hcr⟩ hc hrest

/-! ## Any field -/

/-- A field ends here: the next character saves it. -/
def Done (fs : List (List Char)) (field : List Char) (r : Reader) : Prop :=
  processChar r (some ',') = .ok ⟨.startField, fs ++ [field], []⟩ ∧
    processChar r (some '\r') = .ok ⟨.eatCrnl, fs ++ [field], []⟩

/-- A field needs no quotes when none of its characters does. -/
theorem needsQuotes_cons {c : Char} {s : List Char} : needsQuotes (c :: s) = false ↔
    (c ≠ ',' ∧ c ≠ '"' ∧ c ≠ '\r' ∧ c ≠ '\n') ∧ needsQuotes s = false := by
  rw [needsQuotes, List.any_cons, Bool.or_eq_false_iff, ← needsQuotes]
  simp

/-- A field without quotes is read as it is. -/
theorem reads_plain {fs : List (List Char)} {s : List Char} (w : List Char)
    (hplain : needsQuotes s = false) (hlen : (w ++ s).length ≤ fieldLimit)
    (h : Reads ⟨.inField, fs, w ++ s⟩ rest out) : Reads ⟨.inField, fs, w⟩ (s ++ rest) out := by
  induction s generalizing w with
  | nil =>
      rw [List.append_nil] at h
      exact h
  | cons c s ih =>
      rw [List.append_cons] at h hlen
      obtain ⟨hc, hs⟩ := needsQuotes_cons.mp hplain
      refine Reads.char ⟨hc.2.2.2, hc.2.2.1⟩ ?_ (ih (w ++ [c]) hs hlen h)
      simp only [processChar]
      rw [if_neg (by simp [isLineEnd, hc]), if_neg (by simp [hc])]
      exact addChar_of_lt (lt_fieldLimit hlen) c .inField

/-- **A field is read to its end.** -/
theorem reads_field {field : List Char}
    (hstart : ∀ c : Char, c ≠ '\n' → c ≠ '\r' → processChar r (some c) = startField r (some c))
    (hempty : field = [] → Done r.fields [] r) (hr : r.field = []) (hlen : field.length ≤ fieldLimit)
    (h : ∀ r', Done r.fields field r' → Reads r' rest out) : Reads r (fieldText field ++ rest) out := by
  rw [fieldText]
  split
  · have hopen : processChar r (some '"') = .ok ⟨.inQuotedField, r.fields, []⟩ := by
      rw [hstart _ (by decide) (by decide), ← hr]
      rfl
    refine Reads.char (by decide) hopen ?_
    show Reads _ ((field.flatMap quoteChar ++ ['"']) ++ rest) out
    rw [List.append_assoc]
    exact reads_quoted field [] hlen (h _ ⟨rfl, rfl⟩)
  · next hplain =>
    cases field with
    | nil => exact h r (hempty rfl)
    | cons c s =>
        obtain ⟨hc, hs⟩ := needsQuotes_cons.mp (Bool.not_eq_true _ ▸ hplain)
        have hfirst : processChar r (some c) = .ok ⟨.inField, r.fields, [c]⟩ := by
          rw [hstart c hc.2.2.2 hc.2.2.1, startField, if_neg (by simp [isLineEnd, hc]),
            if_neg (by simp [hc]), if_neg (by simp [hc]), addChar, hr]
          rfl
        exact Reads.char ⟨hc.2.2.2, hc.2.2.1⟩ hfirst (reads_plain [c] hs hlen (h _ ⟨rfl, rfl⟩))

/-! ## Records -/

/-- What is read when the record `row` comes first. -/
def consRecord (row : List (List Char)) (out : List (List (List Char)) × Option Error) :
    List (List (List Char)) × Option Error := (row :: out.1, out.2)

/-- **The fields after the first** are read one after the other, up to the end of the row. -/
theorem reads_moreFields {fs : List (List Char)} {field : List Char} {fields : List (List Char)}
    (hcomma : processChar r (some ',') = .ok ⟨.startField, fs ++ [field], []⟩)
    -- an empty field that no comma follows is not written without quotes
    (hend : fields = [] → processChar r (some '\r') = .ok ⟨.eatCrnl, fs ++ [field], []⟩)
    (hlen : ∀ f ∈ fields, f.length ≤ fieldLimit) :
    Reads r (moreFields fields ++ ("\r\n".toList ++ rest))
      (consRecord (fs ++ field :: fields) (records .start (fileLines rest))) := by
  induction fields generalizing r fs field with
  | nil =>
      have hends : processChars r "\r\n".toList = .ok ⟨.eatCrnl, fs ++ [field], []⟩ := by
        show (processChar r (some '\r')).bind _ = _
        rw [hend rfl]
        rfl
      exact Reads.record (fun line => fileLinesFrom_crlf line rest) hends rfl rfl rfl
  | cons g fields ih =>
      rw [List.forall_mem_cons] at hlen
      rw [moreFields, List.flatMap_cons, List.append_assoc, List.append_cons]
      refine Reads.char (by decide) hcomma ?_
      refine reads_field (fun _ _ _ => rfl) (fun _ => ⟨rfl, rfl⟩) rfl hlen.1 fun r' hr' => ?_
      exact ih hr'.1 (fun _ => hr'.2) hlen.2

/-- **A row is read back** when its fields are short enough. -/
theorem reads_rowText {row : List (List Char)} (hrow : row ≠ [])
    (hlen : ∀ f ∈ row, f.length ≤ fieldLimit) :
    Reads .start (rowText row ++ rest) (consRecord row (records .start (fileLines rest))) := by
  fun_cases rowText row with
  | case1 => exact absurd rfl hrow
  | case2 =>
      -- the quotes only open and close
      have hopen : processChar .start (some '"') = .ok ⟨.inQuotedField, [], []⟩ := rfl
      have hclose : processChar ⟨.inQuotedField, [], []⟩ (some '"') =
        .ok ⟨.quoteInQuotedField, [], []⟩ := rfl
      refine Reads.char (by decide) hopen (Reads.char (by decide) hclose ?_)
      have hcomma : processChar ⟨.quoteInQuotedField, [], []⟩ (some ',') =
        .ok ⟨.startField, [] ++ [[]], []⟩ := rfl
      exact reads_moreFields hcomma (fun _ => rfl) fun f hf => absurd hf List.not_mem_nil
  | case3 field fields hne =>
      rw [List.forall_mem_cons] at hlen
      rw [List.append_assoc, List.append_assoc]
      cases field with
      | nil =>
          have hcomma : processChar .start (some ',') = .ok ⟨.startField, [] ++ [[]], []⟩ := rfl
          exact reads_moreFields hcomma (fun hfields => absurd hfields (hne rfl)) hlen.2
      | cons c field =>
          refine reads_field (fun d hlf hcr => ?_) (fun h => nomatch h) rfl hlen.1 fun r' hr' => ?_
          · simp [processChar, Reader.start, isLineEnd, hlf, hcr]
          · exact reads_moreFields hr'.1 (fun _ => hr'.2) hlen.2

/-- **The reader gets back the records written.** -/
theorem records_fileText {rows : List (List (List Char))} (hrows : ∀ row ∈ rows, row ≠ [])
    (hlen : ∀ row ∈ rows, ∀ field ∈ row, field.length ≤ fieldLimit) :
    records .start (fileLines (fileText rows)) = (rows, none) := by
  induction rows with
  | nil => rfl
  | cons row rows ih =>
      rw [List.forall_mem_cons] at hrows hlen
      rw [fileText, List.flatMap_cons]
      refine (reads_rowText hrows.1 hlen.1 .start [] rfl).trans ?_
      rw [← fileText, ih hrows.2 hlen.2]
      rfl

end Reads

end MallocBench.Text.Csv
