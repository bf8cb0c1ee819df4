import MallocBench.Text.Lines

/-! # Logical lines of a C source

The C preprocessor splices a line that ends with a backslash to the next one, and then reads a comment as
one blank, so that a block comment carries its line on over the end of it. What is left between line ends
is a logical line, and a directive is one logical line. Blanks between the backslash and the end of the
line do not matter, as in `gcc`.

A logical line remembers the lines of the file it was made of.

* **`flatMap_source_logicalLines`**: every line of the file belongs to one logical line, in order.
* **`splitlines_eq_flatMap`**: the lines of `splitlines` are found inside the lines of the file. -/

namespace MallocBench.Text

/-! ## Lines of the file -/

/-- The lines of a file, with their line feeds. -/
def physicalLines : List Char → List (List Char)
  | [] => []
  | c :: rest =>
    if c = '\n' then [c] :: physicalLines rest
    else
      match physicalLines rest with
      | [] => [[c]]
      | line :: lines => (c :: line) :: lines

/-- The lines make up the text. -/
theorem flatten_physicalLines (text : List Char) : (physicalLines text).flatten = text := by
  induction text with
  | nil => rfl
  | cons c rest ih =>
      rw [physicalLines]
      split
      · rw [List.flatten_cons, ih, List.singleton_append]
      · cases hlines : physicalLines rest with
        | nil =>
            rw [hlines] at ih
            rw [← ih]
            rfl
        | cons line lines =>
            rw [hlines] at ih
            rw [← ih]
            rfl

/-- Every line but the last ends with a line feed. -/
theorem ends_of_mem_dropLast_physicalLines {text line : List Char}
    (h : line ∈ (physicalLines text).dropLast) : ∃ a, line = a ++ ['\n'] := by
  induction text generalizing line with
  | nil => exact absurd h List.not_mem_nil
  | cons c rest ih =>
      rw [physicalLines] at h
      split at h
      · next hc =>
        subst hc
        cases hlines : physicalLines rest with
        | nil =>
            rw [hlines] at h
            exact absurd h List.not_mem_nil
        | cons first lines =>
            rw [hlines, List.dropLast_cons_of_ne_nil (by simp)] at h
            rw [hlines] at ih
            rcases List.mem_cons.mp h with rfl | h
            · exact ⟨[], rfl⟩
            · exact ih h
      · cases hlines : physicalLines rest with
        | nil =>
            rw [hlines] at h
            exact absurd h List.not_mem_nil
        | cons first lines =>
            rw [hlines] at h ih
            cases lines with
            | nil => exact absurd h List.not_mem_nil
            | cons next lines =>
                rw [List.dropLast_cons_of_ne_nil (by simp)] at h ih
                rcases List.mem_cons.mp h with rfl | h
                · obtain ⟨a, rfl⟩ := ih List.mem_cons_self
                  exact ⟨c :: a, rfl⟩
                · exact ih (List.mem_cons_of_mem _ h)

/-- Lines that end with line feeds are split apart from each other. -/
theorem splitlines_flatten {lines : List (List Char)}
    (h : ∀ line ∈ lines.dropLast, ∃ a, line = a ++ ['\n']) :
    splitlines lines.flatten = lines.flatMap splitlines := by
  induction lines with
  | nil => exact splitlines_nil
  | cons line lines ih =>
      cases lines with
      | nil => simp
      | cons next lines =>
          rw [List.dropLast_cons_of_ne_nil (by simp)] at h
          obtain ⟨a, rfl⟩ := h line List.mem_cons_self
          rw [List.flatten_cons, List.append_assoc, List.singleton_append, splitlines_append,
            ih fun b hb => h b (List.mem_cons_of_mem _ hb)]
          rfl

/-- **The lines of `splitlines` are those of each line of the file.** -/
theorem splitlines_eq_flatMap (text : List Char) :
    splitlines text = (physicalLines text).flatMap splitlines := by
  have h := splitlines_flatten fun line (hline : line ∈ (physicalLines text).dropLast) =>
    ends_of_mem_dropLast_physicalLines hline
  rwa [flatten_physicalLines] at h

/-! ## Splicing and comments -/

/-- A blank inside a line. -/
def isBlank (c : Char) : Bool := c = ' ' || c = '\t' || c = '\x0b' || c = '\x0c'

/-- The line without its end. -/
def withoutEnd (line : List Char) : List Char := line.rdropWhile fun c => c = '\n' || c = '\r'

/-- The line before its backslash, if it is spliced to the next one. -/
def beforeSplice (line : List Char) : Option (List Char) :=
  match ((withoutEnd line).rdropWhile isBlank).reverse with
  | '\\' :: before => some before.reverse
  | _ => none

/-- Where the preprocessor is in a line: in code, inside quotes of one kind, or in a block comment. -/
inductive LexMode where
  | code
  | quoted (quote : Char)
  | comment
  deriving DecidableEq

/-- The line with a blank for each comment that starts in it, and whether a block comment is left open.
A quote that is not closed reaches to the end of the line. -/
def removeComments : LexMode → List Char → List Char × Bool
  | .comment, '*' :: '/' :: rest => removeComments .code rest
  | .comment, _ :: rest => removeComments .comment rest
  | .comment, [] => ([], true)
  | .code, '/' :: '/' :: _ => ([' '], false)
  | .code, '/' :: '*' :: rest =>
    let next := removeComments .comment rest
    (' ' :: next.1, next.2)
  | .code, c :: rest =>
    let next := removeComments (if c = '"' ∨ c = '\'' then .quoted c else .code) rest
    (c :: next.1, next.2)
  | .quoted quote, '\\' :: c :: rest =>
    let next := removeComments (.quoted quote) rest
    ('\\' :: c :: next.1, next.2)
  | .quoted quote, c :: rest =>
    let next := removeComments (if c = quote then .code else .quoted quote) rest
    (c :: next.1, next.2)
  | _, [] => ([], false)

/-! ## Logical lines -/

/-- A logical line: the lines of the file it is made of, and its text without splices and comments. -/
structure LogicalLine where
  source : List (List Char)
  text : List Char
  deriving DecidableEq

/-- A logical line that is not complete: its lines so far, what is spliced for the next reading, the text
read, and whether a block comment is open. -/
structure PartialLine where
  source : List (List Char)
  spliced : List Char
  text : List Char
  inComment : Bool

/-- The start of a logical line. -/
def PartialLine.start : PartialLine := ⟨[], [], [], false⟩

/-- Read what was spliced, with the end of its last line. -/
def PartialLine.read (p : PartialLine) (last : List Char) : List Char × Bool :=
  removeComments (if p.inComment then .comment else .code) (p.spliced ++ last)

/-- The logical lines after one that is not complete. -/
def logicalLinesFrom (p : PartialLine) : List (List Char) → List LogicalLine
  | [] => if p.source = [] then [] else [⟨p.source, p.text ++ (p.read []).1⟩]
  | line :: rest =>
    match beforeSplice line with
    | some before =>
      logicalLinesFrom
        { p with
          source := p.source ++ [line]
          spliced := p.spliced ++ before } rest
    | none =>
      let next := p.read (withoutEnd line)
      -- an open comment carries the line on
      if next.2 then logicalLinesFrom ⟨p.source ++ [line], [], p.text ++ next.1, true⟩ rest
      else ⟨p.source ++ [line], p.text ++ next.1⟩ :: logicalLinesFrom .start rest

/-- The logical lines of a file. -/
def logicalLines (text : List Char) : List LogicalLine := logicalLinesFrom .start (physicalLines text)

/-- The sources of the logical lines make up the lines. -/
theorem flatMap_source_logicalLinesFrom (p : PartialLine) (lines : List (List Char)) :
    (logicalLinesFrom p lines).flatMap LogicalLine.source = p.source ++ lines := by
  induction lines generalizing p with
  | nil =>
      rw [logicalLinesFrom]
      split
      · next h => simp [h]
      · simp
  | cons line rest ih =>
      rw [logicalLinesFrom]
      split
      · rw [ih, List.append_assoc, List.singleton_append]
      · dsimp only
        split
        · rw [ih, List.append_assoc, List.singleton_append]
        · rw [List.flatMap_cons, ih]
          simp [PartialLine.start]

/-- **Every line of the file is in one logical line.** -/
theorem flatMap_source_logicalLines (text : List Char) :
    (logicalLines text).flatMap LogicalLine.source = physicalLines text :=
  flatMap_source_logicalLinesFrom .start _

end MallocBench.Text
