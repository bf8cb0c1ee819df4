import Mathlib.Data.List.Basic
import Mathlib.Tactic.Common

/-! # Python's character classes

A Python string is a sequence of code points, here a `List Char`. Three classes of characters matter
to the text methods and to regular expressions: white space (`str.isspace`, and `\s` in a pattern),
line boundaries (`str.splitlines`) and decimal digits (`str.isdecimal`, and `\d` in a pattern). A
decimal digit of any script has a value, which is what `int` reads. The tables are those of
Unicode 15.0. -/

namespace MallocBench.Text

/-! ## White space and line boundaries -/

/-- The white space characters. -/
def spaceCodes : List Nat :=
  [0x9, 0xa, 0xb, 0xc, 0xd, 0x1c, 0x1d, 0x1e, 0x1f, 0x20, 0x85, 0xa0, 0x1680, 0x2000, 0x2001, 0x2002,
    0x2003, 0x2004, 0x2005, 0x2006, 0x2007, 0x2008, 0x2009, 0x200a, 0x2028, 0x2029, 0x202f, 0x205f,
    0x3000]

/-- `str.isspace` of one character. -/
def isSpace (c : Char) : Bool := spaceCodes.contains c.toNat

/-- The characters that end a line for `str.splitlines`. -/
def breakCodes : List Nat := [0xa, 0xb, 0xc, 0xd, 0x1c, 0x1d, 0x1e, 0x85, 0x2028, 0x2029]

/-- The character ends a line. -/
def isBreak (c : Char) : Bool := breakCodes.contains c.toNat

/-- A line boundary is white space. -/
theorem isSpace_of_isBreak {c : Char} (h : isBreak c = true) : isSpace c = true := by
  have hsub : ∀ n ∈ breakCodes, spaceCodes.contains n = true := by decide
  exact hsub _ (List.contains_iff_mem.mp h)

/-! ## Decimal digits -/

/-- The digit zero of every script: the nine characters after it are the other digits. -/
def zeroCodes : List Nat :=
  [0x30, 0x660, 0x6f0, 0x7c0, 0x966, 0x9e6, 0xa66, 0xae6, 0xb66, 0xbe6, 0xc66, 0xce6, 0xd66, 0xde6,
    0xe50, 0xed0, 0xf20, 0x1040, 0x1090, 0x17e0, 0x1810, 0x1946, 0x19d0, 0x1a80, 0x1a90, 0x1b50,
    0x1bb0, 0x1c40, 0x1c50, 0xa620, 0xa8d0, 0xa900, 0xa9d0, 0xa9f0, 0xaa50, 0xabf0, 0xff10, 0x104a0,
    0x10d30, 0x11066, 0x110f0, 0x11136, 0x111d0, 0x112f0, 0x11450, 0x114d0, 0x11650, 0x116c0, 0x11730,
    0x118e0, 0x11950, 0x11c50, 0x11d50, 0x11da0, 0x11f50, 0x16a60, 0x16ac0, 0x16b50, 0x1d7ce, 0x1d7d8,
    0x1d7e2, 0x1d7ec, 0x1d7f6, 0x1e140, 0x1e2f0, 0x1e4f0, 0x1e950, 0x1fbf0]

/-- The value of the digit with a given code. -/
def decimalCode (n : Nat) : Option Nat :=
  (zeroCodes.find? fun z => z ≤ n && n < z + 10).map fun z => n - z

/-- `unicodedata.decimal`. -/
def decimalValue (c : Char) : Option Nat := decimalCode c.toNat

/-- `str.isdecimal` of one character. -/
def isDecimal (c : Char) : Bool := (decimalValue c).isSome

/-- An ASCII digit. -/
def isAsciiDigit (c : Char) : Bool := 0x30 ≤ c.toNat && c.toNat < 0x3a

/-- The digits, by their codes. -/
theorem isAsciiDigit_iff {c : Char} :
    isAsciiDigit c = true ↔ 0x30 ≤ c.toNat ∧ c.toNat < 0x3a := by
  unfold isAsciiDigit
  rw [Bool.and_eq_true, decide_eq_true_eq, decide_eq_true_eq]

/-- A property of the ASCII digits, checked for the ten of them. -/
theorem of_isAsciiDigit {p : Char → Prop} (hall : ∀ n < 0x3a, 0x30 ≤ n → p (Char.ofNat n)) {c : Char}
    (hc : isAsciiDigit c = true) : p c := by
  rw [isAsciiDigit_iff] at hc
  have hp := hall c.toNat hc.2 hc.1
  rwa [Char.ofNat_toNat] at hp

/-- The value of an ASCII digit is its distance from `0`. -/
theorem decimalValue_ascii {c : Char} (h : isAsciiDigit c = true) :
    decimalValue c = some (c.toNat - 0x30) := by
  rw [isAsciiDigit_iff] at h
  have hfirst : (decide (0x30 ≤ c.toNat) && decide (c.toNat < 0x30 + 10)) = true := by
    simpa using h
  unfold decimalValue decimalCode zeroCodes
  rw [List.find?_cons, hfirst]
  rfl

/-- An ASCII digit is a decimal digit. -/
theorem isDecimal_ascii {c : Char} (h : isAsciiDigit c = true) : isDecimal c = true := by
  unfold isDecimal
  rw [decimalValue_ascii h]
  rfl

/-- White space is no digit. -/
theorem isDecimal_of_isSpace {c : Char} (h : isSpace c = true) : isDecimal c = false := by
  have hnone : ∀ n ∈ spaceCodes, decimalCode n = none := by decide
  unfold isDecimal decimalValue
  rw [hnone _ (List.contains_iff_mem.mp h)]
  rfl

/-- A digit is no white space. -/
theorem isSpace_of_isDecimal {c : Char} (h : isDecimal c = true) : isSpace c = false := by
  by_contra hs
  rw [isDecimal_of_isSpace (by simpa using hs)] at h
  exact Bool.noConfusion h

end MallocBench.Text
