import MallocBench.Text.Preprocessor
import Mathlib.Algebra.BigOperators.Ring.List
import Mathlib.Algebra.Order.BigOperators.Group.List
import Mathlib.Algebra.Order.Ring.Nat
import Mathlib.Data.Multiset.UnionInter

/-! # The expected number of traces

`parse_default_trace_count` counts the names of the default traces in `config.h`. It reads from the line
that starts with the directive to the first line that is neither blank nor ends with a backslash, and
counts the quoted texts with a regular expression. The driver is compiled from the same file: the number
of its traces is that of the initializers of an array.

* **`two_mul_findallQuoted_eq_iff`**: the expression finds as many texts as there are pairs of quotes in
  lines where every quote belongs to a text that is not empty.
* **`parseDefaultTraceCount_iff`**: when both numbers are the same. -/

namespace MallocBench

open Text

/-! ## The scanner -/

/-- The group of a match of `"([^"]+)"` at the start of a text. -/
def matchQuoted : List Char → Option (List Char)
  | '"' :: rest =>
    let group := rest.takeWhile (· ≠ '"')
    -- the group ends at a quote or at the end of the line
    if group ≠ [] ∧ group.length < rest.length then some group else none
  | _ => none

/-- The texts found, when the first characters belong to a match that was found before. -/
def findallQuotedFrom : Nat → List Char → List (List Char)
  | _, [] => []
  | skip + 1, _ :: rest => findallQuotedFrom skip rest
  | 0, c :: rest =>
    match matchQuoted (c :: rest) with
    -- the opening quote is `c`
    | some group => group :: findallQuotedFrom (group.length + 1) rest
    | none => findallQuotedFrom 0 rest

/-- `re.findall(r'"([^"]+)"', line)`. -/
def findallQuoted (line : List Char) : List (List Char) := findallQuotedFrom 0 line

/-- The text the directive starts with. -/
def traceDefine : List Char := "#define DEFAULT_TRACEFILES".toList

/-- The loop stops after the line. -/
def stopsAfter (line : List Char) : Prop := line ≠ [] ∧ line.getLast? ≠ some '\\'

instance (line : List Char) : Decidable (stopsAfter line) := inferInstanceAs (Decidable (_ ∧ _))

/-- The loop over the lines, with `reading` as it is before them. -/
def traceCountFrom : Bool → List (List Char) → Nat
  | _, [] => 0
  | reading, rawLine :: rest =>
    let line := rstrip rawLine
    let reading := reading || traceDefine.isPrefixOf line
    if reading then
      (findallQuoted line).length + if stopsAfter line then 0 else traceCountFrom reading rest
    else traceCountFrom reading rest

/-- `parse_default_trace_count`. The error is the message of a `BenchmarkError`. -/
def parseDefaultTraceCount (configPath : String) (text : List Char) : Except String Nat :=
  if traceCountFrom false (splitlines text) = 0 then
    .error ("failed to read DEFAULT_TRACEFILES from " ++ configPath)
  else .ok (traceCountFrom false (splitlines text))

/-! ## The driver -/

/-- The commas of a list of initializers that are not inside a literal. -/
def initializerCommas : Bool → List Char → Nat
  | _, [] => 0
  | inLiteral, c :: rest =>
    if c = '"' then initializerCommas (!inLiteral) rest
    else if c = ',' ∧ inLiteral = false then 1 + initializerCommas inLiteral rest
    else initializerCommas inLiteral rest

/-- `sizeof(default_tracefiles) / sizeof(char *) - 1`, where the array has the initializers
`DEFAULT_TRACEFILES, NULL`. -/
def numTracefiles (replacement : List Char) : Nat :=
  initializerCommas false (replacement ++ ", NULL".toList) + 1 - 1

/-- White space between the tokens of a directive. -/
def DirectiveBlank (s : List Char) : Prop := ∀ c ∈ s, c = ' ' ∨ c = '\t'

instance (s : List Char) : Decidable (DirectiveBlank s) := List.decidableBAll _ s

/-- A plain literal has no escapes. -/
def PlainLiteral (s : List Char) : Prop := '"' ∉ s ∧ '\\' ∉ s

instance (s : List Char) : Decidable (PlainLiteral s) := inferInstanceAs (Decidable (_ ∧ _))

/-- A list of string literals with commas between them, and what is between their quotes. -/
inductive LiteralList : List Char → List (List Char) → Prop
  | one {a s b : List Char} (ha : DirectiveBlank a) (hs : PlainLiteral s) (hb : DirectiveBlank b) :
      LiteralList (a ++ '"' :: (s ++ '"' :: b)) [s]
  | cons {a s b rest : List Char} {literals : List (List Char)} (ha : DirectiveBlank a)
      (hs : PlainLiteral s) (hb : DirectiveBlank b) (h : LiteralList rest literals) :
      LiteralList (a ++ '"' :: (s ++ '"' :: (b ++ ',' :: rest))) (s :: literals)

/-- A logical line is a directive that defines the macro, whatever its spacing. -/
def definesTraces (text : List Char) : Bool :=
  match text.dropWhile isBlank with
  | '#' :: rest =>
    let directive := rest.dropWhile isBlank
    let name := (directive.drop 6).dropWhile isBlank
    "define".toList.isPrefixOf directive && (directive.drop 6).head?.any isBlank &&
      "DEFAULT_TRACEFILES".toList.isPrefixOf name &&
        !(name.drop 18).head?.any fun c => c.isAlphanum || c = '_'
  | _ => false

/-- The file has one directive that defines the macro. It stands at the start of a line, and its
replacement is a list of plain literals. -/
structure DefinesTraces (text : List Char) (before : List LogicalLine) (directive : LogicalLine)
    (after : List LogicalLine) (replacement : List Char) (literals : List (List Char)) : Prop where
  lines : logicalLines text = before ++ directive :: after
  single : ∀ line ∈ before ++ after, definesTraces line.text = false
  atStart : ∃ line ∈ directive.source.head?, traceDefine <+: line
  text_eq : directive.text = traceDefine ++ replacement
  literals : LiteralList replacement literals

/-! ## Quoted texts in a line -/

/-- A line in which every quote opens or closes a quoted text that is not empty. -/
inductive QuotedLine : List Char → Prop
  | plain {s : List Char} (hs : '"' ∉ s) : QuotedLine s
  | quoted {a s rest : List Char} (ha : '"' ∉ a) (hs : '"' ∉ s) (hne : s ≠ []) (h : QuotedLine rest) :
      QuotedLine (a ++ '"' :: (s ++ '"' :: rest))

/-- A text without quotes ends at the quote after it. -/
theorem takeWhile_not_quote {s : List Char} (hs : '"' ∉ s) (rest : List Char) :
    (s ++ '"' :: rest).takeWhile (· ≠ '"') = s := by
  rw [List.takeWhile_append_of_pos]
  · simp
  · intro c hc
    have hne : c ≠ '"' := fun h => hs (h ▸ hc)
    simpa using hne

/-- The characters of a match are passed over. -/
theorem findallQuotedFrom_append (a rest : List Char) :
    findallQuotedFrom a.length (a ++ rest) = findallQuotedFrom 0 rest := by
  induction a with
  | nil => rfl
  | cons c a ih => exact ih

/-- Nothing is found before the first quote. -/
theorem findallQuoted_append {a : List Char} (ha : '"' ∉ a) (rest : List Char) :
    findallQuoted (a ++ rest) = findallQuoted rest := by
  induction a with
  | nil => rfl
  | cons c a ih =>
      have hc : c ≠ '"' := fun h => ha (h ▸ List.mem_cons_self)
      have hmatch : matchQuoted (c :: (a ++ rest)) = none := by
        unfold matchQuoted
        split
        · next h => exact absurd (List.cons.inj h).1 hc
        · rfl
      rw [List.cons_append, findallQuoted, findallQuotedFrom, hmatch]
      exact ih fun h => ha (List.mem_cons_of_mem _ h)

/-- Without a quote nothing is found. -/
theorem findallQuoted_of_not_mem {s : List Char} (hs : '"' ∉ s) : findallQuoted s = [] := by
  have h := findallQuoted_append hs []
  rwa [List.append_nil] at h

/-- A quoted text is found. -/
theorem findallQuoted_quoted {s : List Char} (hs : '"' ∉ s) (hne : s ≠ []) (rest : List Char) :
    findallQuoted ('"' :: (s ++ '"' :: rest)) = s :: findallQuoted rest := by
  have hmatch : matchQuoted ('"' :: (s ++ '"' :: rest)) = some s := by
    rw [matchQuoted, takeWhile_not_quote hs]
    exact if_pos ⟨hne, by simp⟩
  rw [findallQuoted, findallQuotedFrom, hmatch]
  have hskip := findallQuotedFrom_append (s ++ ['"']) rest
  rw [List.length_append, List.append_assoc] at hskip
  exact congrArg (s :: ·) hskip

/-- Two quotes with nothing between them are not found: the second may open a text. -/
theorem findallQuoted_empty (rest : List Char) :
    findallQuoted ('"' :: '"' :: rest) = findallQuoted ('"' :: rest) := by
  have hmatch : matchQuoted ('"' :: '"' :: rest) = none := by
    rw [matchQuoted]
    exact if_neg fun h => h.1 (by simp)
  rw [findallQuoted, findallQuotedFrom, hmatch]
  rfl

/-- A quote that is not closed is not found. -/
theorem findallQuoted_open {s : List Char} (hs : '"' ∉ s) : findallQuoted ('"' :: s) = [] := by
  have htake : s.takeWhile (· ≠ '"') = s := by
    rw [List.takeWhile_eq_self_iff]
    intro c hc
    have hne : c ≠ '"' := fun h => hs (h ▸ hc)
    simpa using hne
  have hmatch : matchQuoted ('"' :: s) = none := by
    rw [matchQuoted, htake]
    exact if_neg fun h => lt_irrefl _ h.2
  rw [findallQuoted, findallQuotedFrom, hmatch]
  exact findallQuoted_of_not_mem hs

/-- A line up to its first two quotes. -/
theorem quotes_cases (line : List Char) :
    '"' ∉ line ∨ (∃ a s, line = a ++ '"' :: s ∧ '"' ∉ a ∧ '"' ∉ s) ∨
      ∃ a s rest, line = a ++ '"' :: (s ++ '"' :: rest) ∧ '"' ∉ a ∧ '"' ∉ s := by
  by_cases hline : '"' ∈ line
  · obtain ⟨a, rest, rfl, ha⟩ := List.eq_append_cons_of_mem hline
    by_cases hrest : '"' ∈ rest
    · obtain ⟨s, rest, rfl, hs⟩ := List.eq_append_cons_of_mem hrest
      exact .inr (.inr ⟨a, s, rest, rfl, ha, hs⟩)
    · exact .inr (.inl ⟨a, rest, rfl, ha, hrest⟩)
  · exact .inl hline

/-- A quoted text has two quotes. -/
theorem count_quoted {a s : List Char} (ha : '"' ∉ a) (hs : '"' ∉ s) (rest : List Char) :
    (a ++ '"' :: (s ++ '"' :: rest)).count '"' = 2 + rest.count '"' := by
  simp only [List.count_append, List.count_cons_self, List.count_eq_zero_of_not_mem ha,
    List.count_eq_zero_of_not_mem hs]
  omega

/-- A text that is found takes two quotes. -/
theorem two_mul_findallQuoted_le (line : List Char) :
    2 * (findallQuoted line).length ≤ line.count '"' := by
  induction hn : line.length using Nat.strongRecOn generalizing line with
  | ind n ih =>
      obtain hnone | ⟨a, s, rfl, ha, hs⟩ | ⟨a, s, rest, rfl, ha, hs⟩ := quotes_cases line
      · rw [findallQuoted_of_not_mem hnone]
        exact Nat.zero_le _
      · rw [findallQuoted_append ha, findallQuoted_open hs]
        exact Nat.zero_le _
      · rw [findallQuoted_append ha, count_quoted ha hs]
        by_cases hne : s = []
        · subst hne
          have hrest := ih _ (by simp at hn; simp; omega) ('"' :: rest) rfl
          rw [List.count_cons_self] at hrest
          rw [List.nil_append, findallQuoted_empty]
          omega
        · have hrest := ih _ (by simp at hn; omega) rest rfl
          rw [findallQuoted_quoted hs hne, List.length_cons]
          omega

/-- **Every pair of quotes is found** exactly in lines where each quote belongs to a text that is not
empty. -/
theorem two_mul_findallQuoted_eq_iff (line : List Char) :
    2 * (findallQuoted line).length = line.count '"' ↔ QuotedLine line := by
  constructor
  · intro h
    induction hn : line.length using Nat.strongRecOn generalizing line with
    | ind n ih =>
        obtain hnone | ⟨a, s, rfl, ha, hs⟩ | ⟨a, s, rest, rfl, ha, hs⟩ := quotes_cases line
        · exact .plain hnone
        · rw [findallQuoted_append ha, findallQuoted_open hs] at h
          simp [List.count_eq_zero_of_not_mem ha] at h
        · rw [findallQuoted_append ha, count_quoted ha hs] at h
          by_cases hne : s = []
          · -- the quotes from the second one on cannot make up for the first
            subst hne
            have hle := two_mul_findallQuoted_le ('"' :: rest)
            rw [List.count_cons_self] at hle
            rw [List.nil_append, findallQuoted_empty] at h
            omega
          · rw [findallQuoted_quoted hs hne, List.length_cons] at h
            exact .quoted ha hs hne (ih _ (by simp at hn; omega) rest (by omega) rfl)
  · intro h
    induction h with
    | plain hs =>
        rw [findallQuoted_of_not_mem hs, List.count_eq_zero_of_not_mem hs]
        rfl
    | quoted ha hs hne _ ih =>
        rw [findallQuoted_append ha, findallQuoted_quoted hs hne, count_quoted ha hs, List.length_cons]
        omega

/-! ## The literals of the directive -/

/-- Outside literals only commas count. -/
theorem initializerCommas_blank {a : List Char} (ha : DirectiveBlank a) (rest : List Char) :
    initializerCommas false (a ++ rest) = initializerCommas false rest := by
  induction a with
  | nil => rfl
  | cons c a ih =>
      have htail : DirectiveBlank a := fun d hd => ha d (List.mem_cons_of_mem _ hd)
      rw [List.cons_append, initializerCommas]
      rcases ha c List.mem_cons_self with rfl | rfl
      · exact ih htail
      · exact ih htail

/-- Inside a literal nothing counts. -/
theorem initializerCommas_literal {s : List Char} (hs : '"' ∉ s) (rest : List Char) :
    initializerCommas true (s ++ '"' :: rest) = initializerCommas false rest := by
  induction s with
  | nil => rfl
  | cons c s ih =>
      have hc : c ≠ '"' := fun h => hs (h ▸ List.mem_cons_self)
      rw [List.cons_append, initializerCommas, if_neg hc, if_neg (by simp)]
      exact ih fun h => hs (List.mem_cons_of_mem _ h)

/-- Blanks of a directive are no quotes. -/
theorem not_mem_of_directiveBlank {a : List Char} (ha : DirectiveBlank a) : '"' ∉ a := by
  intro h
  rcases ha _ h with h | h
  · exact absurd h (by decide)
  · exact absurd h (by decide)

/-- A list of literals: how many quotes and how many initializers it has. -/
theorem literalList_spec {r : List Char} {literals : List (List Char)} (h : LiteralList r literals) :
    0 < literals.length ∧ r.count '"' = 2 * literals.length ∧
      ∀ rest, initializerCommas false (r ++ rest) + 1 =
        literals.length + initializerCommas false rest := by
  induction h with
  | @one a s b ha hs hb =>
      refine ⟨Nat.one_pos, ?_, fun rest => ?_⟩
      · rw [count_quoted (not_mem_of_directiveBlank ha) hs.1,
          List.count_eq_zero_of_not_mem (not_mem_of_directiveBlank hb)]
        rfl
      · simp only [List.append_assoc, List.cons_append]
        rw [initializerCommas_blank ha]
        change initializerCommas true (s ++ '"' :: (b ++ rest)) + 1 = _
        rw [initializerCommas_literal hs.1, initializerCommas_blank hb, Nat.add_comm]
        rfl
  | @cons a s b r literals ha hs hb _ ih =>
      obtain ⟨hpos, hcount, hcommas⟩ := ih
      rw [List.length_cons]
      refine ⟨Nat.succ_pos _, ?_, fun rest => ?_⟩
      · rw [count_quoted (not_mem_of_directiveBlank ha) hs.1, List.count_append,
          List.count_eq_zero_of_not_mem (not_mem_of_directiveBlank hb),
          List.count_cons_of_ne (by decide), hcount]
        omega
      · simp only [List.append_assoc, List.cons_append]
        rw [initializerCommas_blank ha]
        change initializerCommas true (s ++ '"' :: (b ++ ',' :: (r ++ rest))) + 1 = _
        rw [initializerCommas_literal hs.1, initializerCommas_blank hb]
        change 1 + initializerCommas false (r ++ rest) + 1 = _
        have hrest := hcommas rest
        omega

/-- **The driver has as many traces as the macro has literals.** -/
theorem numTracefiles_eq {r : List Char} {literals : List (List Char)} (h : LiteralList r literals) :
    numTracefiles r = literals.length := by
  have hcommas := (literalList_spec h).2.2 ", NULL".toList
  have hnull : initializerCommas false ", NULL".toList = 1 := by decide
  rw [numTracefiles]
  omega

/-! ## The lines read -/

/-- The lines the scanner reads, without the white space at their ends, from the line where it starts. -/
def scannedUntil : List (List Char) → List (List Char)
  | [] => []
  | rawLine :: rest =>
    rstrip rawLine :: if stopsAfter (rstrip rawLine) then [] else scannedUntil rest

/-- The lines read of all lines: the scanner starts at the first one that starts with the text of the
directive. -/
def linesScanned (lines : List (List Char)) : List (List Char) :=
  scannedUntil (lines.dropWhile fun rawLine => !traceDefine.isPrefixOf (rstrip rawLine))

/-- The quoted texts found on the lines read. -/
def textsFound (text : List Char) : List (List Char) :=
  (linesScanned (splitlines text)).flatMap findallQuoted

/-- The lines of `splitlines` that belong to logical lines. -/
def scannedLines (lines : List LogicalLine) : List (List Char) :=
  (lines.flatMap LogicalLine.source).flatMap splitlines

/-- The lines read are the first ones. -/
theorem scannedUntil_prefix (lines : List (List Char)) : scannedUntil lines <+: lines.map rstrip := by
  induction lines with
  | nil => exact List.prefix_rfl
  | cons rawLine rest ih =>
      rw [scannedUntil, List.map_cons, List.prefix_cons_inj]
      split
      · exact List.nil_prefix
      · exact ih

/-- The loop counts the quoted texts of the lines read. -/
theorem traceCountFrom_true (lines : List (List Char)) :
    traceCountFrom true lines = ((scannedUntil lines).flatMap findallQuoted).length := by
  induction lines with
  | nil => rfl
  | cons rawLine rest ih =>
      simp only [traceCountFrom, Bool.true_or, if_true, scannedUntil, List.flatMap_cons,
        List.length_append]
      split
      · rfl
      · rw [ih]

/-- **The count is that of the texts found**, wherever the scanner starts. -/
theorem traceCountFrom_eq_length (lines : List (List Char)) :
    traceCountFrom false lines = ((linesScanned lines).flatMap findallQuoted).length := by
  induction lines with
  | nil => rfl
  | cons line rest ih =>
      cases hdefine : traceDefine.isPrefixOf (rstrip line) with
      | true =>
          rw [linesScanned, List.dropWhile_cons_of_neg (by simp [hdefine]), ← traceCountFrom_true]
          simp only [traceCountFrom, hdefine, Bool.or_true]
      | false =>
          rw [linesScanned, List.dropWhile_cons_of_pos (by simp [hdefine]), ← linesScanned, ← ih]
          simp only [traceCountFrom, hdefine, Bool.or_false, Bool.false_eq_true, if_false]

/-- The scanner passes over the lines before the one where it starts. -/
theorem linesScanned_append {before : List (List Char)}
    (hbefore : ∀ line ∈ before, ¬ traceDefine <+: line) {first : List Char}
    (hfirst : traceDefine <+: rstrip first) (rest : List (List Char)) :
    linesScanned (before ++ first :: rest) = scannedUntil (first :: rest) := by
  have hstart : traceDefine.isPrefixOf (rstrip first) = true := List.isPrefixOf_iff_prefix.mpr hfirst
  have hpass : ∀ line ∈ before, (!traceDefine.isPrefixOf (rstrip line)) = true := by
    intro line hline
    rw [Bool.not_eq_true', ← Bool.not_eq_true, List.isPrefixOf_iff_prefix]
    exact fun h => hbefore line hline (h.trans (List.rdropWhile_prefix _ _))
  rw [linesScanned, List.dropWhile_append_of_pos hpass, List.dropWhile_cons_of_neg (by simp [hstart])]

/-- The scanned lines have the quotes of the lines of the file. -/
theorem sum_count_scanned (lines : List (List Char)) :
    (((lines.flatMap splitlines).map rstrip).map (List.count '"')).sum = lines.flatten.count '"' := by
  have hrstrip : List.count '"' ∘ rstrip = List.count '"' := funext (count_rstrip (by decide))
  rw [List.map_map, hrstrip, ← List.count_flatten]
  induction lines with
  | nil => rfl
  | cons line lines ih =>
      have hline : (splitlines line).flatten.count '"' = line.count '"' := by
        rw [splitlines, count_flatten_splitlinesFrom (by decide), List.count_nil, Nat.zero_add]
      rw [List.flatMap_cons, List.flatten_append, List.count_append, ih, hline, List.flatten_cons,
        List.count_append]

/-- Sums of numbers below others are equal exactly when the numbers are. -/
theorem sum_map_eq_iff_of_le {α : Type} {f g : α → Nat} {l : List α} (h : ∀ a ∈ l, f a ≤ g a) :
    (l.map f).sum = (l.map g).sum ↔ ∀ a ∈ l, f a = g a := by
  induction l with
  | nil => simp
  | cons a l ih =>
      have hhead := h a List.mem_cons_self
      have htail : ∀ b ∈ l, f b ≤ g b := fun b hb => h b (List.mem_cons_of_mem _ hb)
      have hsum := List.sum_le_sum htail
      rw [List.forall_mem_cons, ← ih htail, List.map_cons, List.map_cons, List.sum_cons, List.sum_cons]
      omega

/-- Among lines, those read find all the quoted texts when the quotes are all in texts that are found. -/
theorem sum_findallQuoted_iff (read unread : List (List Char)) :
    2 * (read.flatMap findallQuoted).length = ((read ++ unread).map (List.count '"')).sum ↔
      (∀ line ∈ read, QuotedLine line) ∧ ∀ line ∈ unread, '"' ∉ line := by
  have hle : ∀ line ∈ read, 2 * (findallQuoted line).length ≤ line.count '"' :=
    fun line _ => two_mul_findallQuoted_le line
  have hread := sum_map_eq_iff_of_le hle
  have hsum := List.sum_le_sum hle
  have hdouble : (read.map fun line => 2 * (findallQuoted line).length).sum =
      2 * (read.flatMap findallQuoted).length := by
    rw [List.length_flatMap]
    exact List.sum_map_mul_left read (fun line => (findallQuoted line).length) 2
  have hunread : (unread.map (List.count '"')).sum = 0 ↔ ∀ line ∈ unread, '"' ∉ line := by
    simp [List.sum_eq_zero_iff, List.count_eq_zero]
  simp only [two_mul_findallQuoted_eq_iff] at hread
  rw [← hread, ← hunread, List.map_append, List.sum_append]
  omega

/-! ## Both numbers -/

section Both

variable (before : List LogicalLine) (directive : LogicalLine) (after : List LogicalLine)

/-- The lines of the directive as the scanner sees them. -/
def directiveLines : List (List Char) := (scannedLines [directive]).map rstrip

/-- The lines read from the start of the directive. -/
def linesRead : List (List Char) := scannedUntil (scannedLines (directive :: after))

/-- The texts found that are no literals of the directive. A literal accounts for one text. -/
def strayTexts (text : List Char) (literals : List (List Char)) : Multiset (List Char) :=
  (textsFound text : Multiset (List Char)) - literals

/-- The literals of the directive that are not found. -/
def lostLiterals (text : List Char) (literals : List (List Char)) : Multiset (List Char) :=
  (literals : Multiset (List Char)) - textsFound text

/-- As many texts are found as there are literals exactly when the strays make up for the literals lost. -/
theorem length_textsFound_eq_iff (text : List Char) (literals : List (List Char)) :
    (textsFound text).length = literals.length ↔
      (strayTexts text literals).card = (lostLiterals text literals).card := by
  have hfound := congrArg Multiset.card
    (Multiset.sub_add_inter (textsFound text : Multiset (List Char)) literals)
  have hliterals := congrArg Multiset.card
    (Multiset.sub_add_inter (literals : Multiset (List Char)) (textsFound text))
  rw [Multiset.card_add, ← strayTexts, Multiset.coe_card] at hfound
  rw [Multiset.card_add, Multiset.inter_comm, ← lostLiterals, Multiset.coe_card] at hliterals
  omega

/-- Nothing but the literals of the directive looks like a quoted text: the scanner starts at the
directive, no comment of the directive has a double quote, and no line read after the directive has one. -/
structure NoStrays : Prop where
  first : ∀ line ∈ scannedLines before, ¬ traceDefine <+: line
  comments : directive.source.flatten.count '"' = directive.text.count '"'
  beyond : ∀ line ∈ (linesRead directive after).drop (directiveLines directive).length, '"' ∉ line

/-- The literals are whole on the lines read: none is empty, cut in two by the end of a line, or on a line
of the directive that is not read. -/
structure WholeLiterals : Prop where
  read : ∀ line ∈ (directiveLines directive).take (linesRead directive after).length, QuotedLine line
  unread : ∀ line ∈ (directiveLines directive).drop (linesRead directive after).length, '"' ∉ line

end Both

section Agreement

variable {text : List Char} {before : List LogicalLine} {directive : LogicalLine}
  {after : List LogicalLine} {replacement : List Char} {literals : List (List Char)}

/-- The lines of two parts of the file. -/
theorem scannedLines_append (a b : List LogicalLine) :
    scannedLines (a ++ b) = scannedLines a ++ scannedLines b := by
  rw [scannedLines, List.flatMap_append, List.flatMap_append]
  rfl

/-- The scanner starts in the first line of the directive. -/
theorem linesScanned_eq (h : DefinesTraces text before directive after replacement literals)
    (hfirst : ∀ line ∈ scannedLines before, ¬ traceDefine <+: line) :
    linesScanned (splitlines text) = linesRead directive after := by
  obtain ⟨first, hmem, t, rfl⟩ := h.atStart
  -- the line starts with the text, whatever else ends a line in it
  obtain ⟨source, hsource⟩ : ∃ source, directive.source = (traceDefine ++ t) :: source :=
    List.head?_eq_some_iff.mp hmem
  have hbreak : ∀ c ∈ traceDefine, isBreak c = false := by
    simpa using show traceDefine.all (fun c => !isBreak c) = true by decide
  have hend : ∀ c ∈ traceDefine.getLast?, isSpace c = false := by
    intro c hc
    have hlast : traceDefine.getLast? = some 'S' := by decide
    obtain rfl : 'S' = c := Option.some.inj (hlast.symm.trans hc)
    rfl
  obtain ⟨u, lines, hu⟩ := splitlinesFrom_eq_cons (show traceDefine ≠ [] by decide) t
  have hsplit : splitlines (traceDefine ++ t) = (traceDefine ++ u) :: lines := by
    rw [splitlines, splitlinesFrom_append_of_noBreak hbreak, List.nil_append, hu]
  obtain ⟨rest, hrest⟩ : ∃ rest, scannedLines (directive :: after) = (traceDefine ++ u) :: rest := by
    rw [scannedLines, List.flatMap_cons, hsource, List.cons_append, List.flatMap_cons, hsplit]
    exact ⟨_, rfl⟩
  have hlines : splitlines text = scannedLines before ++ scannedLines (directive :: after) := by
    rw [splitlines_eq_flatMap, ← flatMap_source_logicalLines, h.lines]
    exact scannedLines_append before (directive :: after)
  rw [hlines, linesRead, hrest, linesScanned_append hfirst (prefix_rstrip hend u)]

/-- The part of the lines read that belongs to the directive. -/
theorem take_linesRead : (linesRead directive after).take (directiveLines directive).length =
    (directiveLines directive).take (linesRead directive after).length := by
  have hsplit : (scannedLines (directive :: after)).map rstrip =
      directiveLines directive ++ (scannedLines after).map rstrip := by
    rw [directiveLines, ← List.map_append, ← scannedLines_append, List.singleton_append]
  have hprefix : linesRead directive after <+: _ := scannedUntil_prefix (scannedLines (directive :: after))
  rw [hsplit] at hprefix
  conv_lhs => rw [List.prefix_iff_eq_take.mp hprefix]
  rw [List.take_take, List.take_append_of_le_length (Nat.min_le_left _ _), Nat.min_comm,
    ← List.take_eq_take_min]

/-- What the scanner finds, when nothing beyond the directive looks like a quoted text. -/
theorem flatMap_linesRead
    (hbeyond : ∀ line ∈ (linesRead directive after).drop (directiveLines directive).length, '"' ∉ line) :
    (linesRead directive after).flatMap findallQuoted =
      ((directiveLines directive).take (linesRead directive after).length).flatMap findallQuoted := by
  have hnone : ((linesRead directive after).drop (directiveLines directive).length).flatMap
      findallQuoted = [] :=
    List.flatMap_eq_nil_iff.mpr fun line hline => findallQuoted_of_not_mem (hbeyond line hline)
  conv_lhs => rw [← List.take_append_drop (directiveLines directive).length (linesRead directive after)]
  rw [List.flatMap_append, hnone, List.append_nil, take_linesRead]

/-- The lines of the directive have two quotes for each literal. -/
theorem sum_count_directiveLines (h : DefinesTraces text before directive after replacement literals)
    (hcomments : directive.source.flatten.count '"' = directive.text.count '"') :
    ((directiveLines directive).map (List.count '"')).sum = 2 * literals.length := by
  have hdefine : traceDefine.count '"' = 0 := by decide
  rw [directiveLines, scannedLines, List.flatMap_singleton, sum_count_scanned, hcomments, h.text_eq,
    List.count_append, hdefine, (literalList_spec h.literals).2.1, Nat.zero_add]

/-- The count is the number of texts found. -/
theorem parseDefaultTraceCount_eq_ok (configPath : String) (text : List Char) {n : Nat} (hn : 0 < n) :
    parseDefaultTraceCount configPath text = .ok n ↔ (textsFound text).length = n := by
  rw [parseDefaultTraceCount, traceCountFrom_eq_length, ← textsFound]
  split
  · next hzero => exact iff_of_false (by simp) (by omega)
  · exact ⟨Except.ok.inj, congrArg Except.ok⟩

/-- Without strays the texts found are as many as the literals exactly when these are whole. -/
theorem length_textsFound_iff (h : DefinesTraces text before directive after replacement literals)
    (hs : NoStrays before directive after) :
    (textsFound text).length = literals.length ↔ WholeLiterals directive after := by
  have hwhole := sum_findallQuoted_iff
    ((directiveLines directive).take (linesRead directive after).length)
    ((directiveLines directive).drop (linesRead directive after).length)
  rw [List.take_append_drop, sum_count_directiveLines h hs.comments] at hwhole
  rw [textsFound, linesScanned_eq h hs.first, flatMap_linesRead hs.beyond]
  constructor
  · intro hlength
    obtain ⟨hread, hunread⟩ := hwhole.mp (by rw [hlength])
    exact ⟨hread, hunread⟩
  · intro hliterals
    have hlength := hwhole.mpr ⟨hliterals.read, hliterals.unread⟩
    omega

end Agreement

/-- A list of two literals, from its parts. -/
theorem literalList_two {a b r s t u : List Char} (hparts : PlainLiteral a ∧ PlainLiteral b)
    (hblank : DirectiveBlank r ∧ DirectiveBlank s ∧ DirectiveBlank t ∧ DirectiveBlank u) :
    LiteralList (r ++ '"' :: (a ++ '"' :: (s ++ ',' :: (t ++ '"' :: (b ++ '"' :: u))))) [a, b] :=
  .cons hblank.1 hparts.1 hblank.2.1 (.one hblank.2.2.1 hparts.2 hblank.2.2.2)

/-- Two traces on two lines. -/
def twoTraces : LogicalLine where
  source := ["#define DEFAULT_TRACEFILES \"a\", \\\n".toList, "\t\"b\" // last\n".toList]
  text := "#define DEFAULT_TRACEFILES \"a\", \t\"b\"  ".toList

/-- Two traces, a backslash too many and a blank line. -/
def blankLineConfig : List Char :=
  "#define DEFAULT_TRACEFILES \"a\",\\\n  \"b\" \\\n\n#include \"extra.h\"\n".toList

/-- A name in a comment is counted. -/
example : strayTexts "#define DEFAULT_TRACEFILES \"a\" /* \"b\" */".toList [['a']] = {['b']} := by
  decide +kernel

/-- A single quote in a comment is not. -/
example : strayTexts "#define DEFAULT_TRACEFILES \"a\" /* 3.5\" */".toList [['a']] = 0 := by
  decide +kernel

/-- A comment may carry the directive over the end of a line, but not the count. -/
example : lostLiterals "#define DEFAULT_TRACEFILES \"a\", /*\n*/ \"b\"".toList [['a'], ['b']] = {['b']} := by
  decide +kernel

end MallocBench
