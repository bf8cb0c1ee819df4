import MallocBench.Text.Lines
import MallocBench.Text.Numerals

/-! # The texts `float` reads

Python's `float` of a text: white space around it does not count, digits of every script do, an underscore
may stand between two digits, and the words for infinity and for what is not a number are read in any
case. The result is a `Numeral`: a number as written, with its sign, before it is rounded to a float. -/

namespace MallocBench.Text

/-- What a text stands for. -/
inductive Numeral where
  | finite (negative : Bool) (magnitude : ℚ)
  | infinity (negative : Bool)
  | nan
  deriving DecidableEq

/-- A digit of any script as an ASCII digit. -/
def asciiDigit (c : Char) : Char :=
  match decimalValue c with
  | some n => Char.ofNat (0x30 + n)
  | none => c

/-- The text without its underscores, each of which has to stand between two digits. The last character
read is `last`. -/
def dropUnderscores (last : Char) : List Char → Option (List Char)
  | [] => if last = '_' then none else some []
  | c :: rest =>
    if c = '_' then
      if isAsciiDigit last then dropUnderscores c rest else none
    else if last = '_' ∧ isAsciiDigit c = false then none
    else (dropUnderscores c rest).map (List.cons c)

/-- A sign at the front, if there is one: whether it is a minus, and the rest. -/
def readSign : List Char → Bool × List Char
  | '-' :: rest => (true, rest)
  | '+' :: rest => (false, rest)
  | s => (false, s)

/-- The exponent at the end of a number. -/
def readExponent : List Char → Option ℤ
  | [] => some 0
  | c :: rest =>
    let exponent := readSign rest
    if (c = 'e' ∨ c = 'E') ∧ exponent.2 ≠ [] ∧ exponent.2.all isAsciiDigit = true then
      some (if exponent.1 then -digitsValue exponent.2 else digitsValue exponent.2)
    else none

/-- A number without a sign: digits with a point somewhere, and an exponent. -/
def readMagnitude (s : List Char) : Option ℚ :=
  let whole := s.takeWhile isAsciiDigit
  let afterWhole := s.dropWhile isAsciiDigit
  let fraction := if afterWhole.head? = some '.' then afterWhole.tail.takeWhile isAsciiDigit else []
  let rest :=
    if afterWhole.head? = some '.' then afterWhole.tail.dropWhile isAsciiDigit else afterWhole
  if whole ++ fraction = [] then none
  else
    (readExponent rest).map fun exponent : ℤ =>
      digitsValue (whole ++ fraction) * (10 : ℚ) ^ (exponent - (fraction.length : ℤ))

/-- A word or a number after its sign. -/
def readUnsigned (negative : Bool) (body : List Char) : Option Numeral :=
  let word := body.map Char.toLower
  if word = "inf".toList ∨ word = "infinity".toList then some (.infinity negative)
  else if word = "nan".toList then some .nan
  else (readMagnitude body).map (.finite negative)

/-- `float` of a text, or none where it raises `ValueError`. -/
def readFloat (s : List Char) : Option Numeral :=
  (dropUnderscores ' ' ((strip s).map asciiDigit)).bind fun s =>
    readUnsigned (readSign s).1 (readSign s).2

/-- An exponent. -/
example : readFloat "600E3".toList = some (.finite false 600000) := by decide +kernel

end MallocBench.Text
