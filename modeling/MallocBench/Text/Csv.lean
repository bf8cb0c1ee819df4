import Mathlib.Tactic.Common

/-! # Comma-separated values

`csv.reader` in its default dialect: fields separated by commas, a field that starts with a quote ends
with one, two quotes inside it stand for one, and a quoted field may go on over several lines. The reader
is a state machine that gets the characters of a line and then the end of the line.

The lines are those of a file opened with `newline=""`: they end with a line feed, a carriage return or
both, and keep their ends. -/

namespace MallocBench.Text

/-! ## Lines of a file -/

/-- The lines of a file whose first characters `line` are read already. -/
def fileLinesFrom (line : List Char) : List Char → List (List Char)
  | [] => if line = [] then [] else [line]
  | '\r' :: '\n' :: rest => (line ++ ['\r', '\n']) :: fileLinesFrom [] rest
  | c :: rest =>
    if c = '\n' ∨ c = '\r' then (line ++ [c]) :: fileLinesFrom [] rest
    else fileLinesFrom (line ++ [c]) rest

/-- The lines of a file, with their ends. -/
def fileLines (text : List Char) : List (List Char) := fileLinesFrom [] text

/-! ## The reader -/

namespace Csv

/-- The states of the reader. -/
inductive State where
  | startRecord
  | startField
  | inField
  | inQuotedField
  | quoteInQuotedField
  | eatCrnl
  deriving DecidableEq

/-- What the reader raises: a field is too long, or a line goes on after its end. -/
inductive Error where
  | fieldLimit
  | newlineInField
  deriving DecidableEq

/-- The reader inside a record: its state, the fields so far and the current field. -/
structure Reader where
  state : State
  fields : List (List Char)
  field : List Char
  deriving DecidableEq

/-- The reader before a record. -/
def Reader.start : Reader := ⟨.startRecord, [], []⟩

/-- `csv.field_size_limit()`. -/
def fieldLimit : Nat := 131072

/-- `parse_save_field`. -/
def saveField (r : Reader) (state : State) : Reader := ⟨state, r.fields ++ [r.field], []⟩

/-- `parse_add_char`. -/
def addChar (r : Reader) (c : Char) (state : State) : Except Error Reader :=
  if fieldLimit ≤ r.field.length then .error .fieldLimit
  else .ok ⟨state, r.fields, r.field ++ [c]⟩

/-- The state after the end of a record: at a line end character the rest of the line end follows. -/
def endState : Option Char → State
  | none => .startRecord
  | some _ => .eatCrnl

/-- A line end character, or the end of the line. -/
def isLineEnd (c : Option Char) : Bool := c = none || c = some '\n' || c = some '\r'

/-- `START_FIELD`. -/
def startField (r : Reader) (c : Option Char) : Except Error Reader :=
  if isLineEnd c then .ok (saveField r (endState c))
  else if c = some '"' then .ok { r with state := .inQuotedField }
  else if c = some ',' then .ok (saveField r .startField)
  else addChar r (c.getD ' ') .inField

/-- `parse_process_char`, of a character or (`none`) of the end of the line. -/
def processChar (r : Reader) (c : Option Char) : Except Error Reader :=
  match r.state with
  | .startRecord =>
    if c = none then .ok r
    else if isLineEnd c then .ok { r with state := .eatCrnl }
    else startField r c
  | .startField => startField r c
  | .inField =>
    if isLineEnd c then .ok (saveField r (endState c))
    else if c = some ',' then .ok (saveField r .startField)
    else addChar r (c.getD ' ') .inField
  | .inQuotedField =>
    if c = none then .ok r
    else if c = some '"' then .ok { r with state := .quoteInQuotedField }
    else addChar r (c.getD ' ') .inQuotedField
  | .quoteInQuotedField =>
    if c = some '"' then addChar r '"' .inQuotedField
    else if c = some ',' then .ok (saveField r .startField)
    else if isLineEnd c then .ok (saveField r (endState c))
    else addChar r (c.getD ' ') .inField
  | .eatCrnl =>
    if c = none then .ok { r with state := .startRecord }
    else if isLineEnd c then .ok r
    else .error .newlineInField

/-- The characters of a line, and its end. -/
def processLine (r : Reader) : List Char → Except Error Reader
  | [] => processChar r none
  | c :: rest => do
    let r ← processChar r (some c)
    processLine r rest

/-- **The records of a file**, up to the first error. A quoted field that the file does not close ends
with the file. -/
def records (r : Reader) : List (List Char) → List (List (List Char)) × Option Error
  | [] =>
    -- the file ends inside a record
    if r.field ≠ [] ∨ r.state = .inQuotedField then ([(saveField r .startRecord).fields], none)
    else ([], none)
  | line :: rest =>
    match processLine r line with
    | .error e => ([], some e)
    | .ok r' =>
      if r'.state = .startRecord then
        (r'.fields :: (records .start rest).1, (records .start rest).2)
      -- a quoted field goes on in the next line
      else records r' rest

end Csv

end MallocBench.Text
