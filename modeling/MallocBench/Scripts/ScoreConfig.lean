import MallocBench.Numbers.Exact
import MallocBench.Scripts.Summary
import MallocBench.Text.FloatTexts

/-! # The score configuration

`parse_score_config` reads the weight of the utilisation and the throughput of `libc` from the macros of
`config.h` and makes the record of the score formula out of them: the second weight is what the first one
leaves, and the throughput is kept in operations and in thousands of operations.

* **`readMacros_eq_ok_iff`**: the last definition of a macro counts.
* **`parseScoreConfig_eq_ok_iff`**: when there is a record, and which one. -/

namespace MallocBench

open Text Numbers

/-! ## The record -/

/-- The record `parse_score_config` makes of the two numbers it reads. -/
def scoreRecord {α : Type} [SignedArithmetic α] (utilWeight avgLibcThruput : α) : ScoreConfig α where
  utilWeight := utilWeight
  throughputWeight := SignedArithmetic.sub (Arithmetic.constant 1) utilWeight
  avgLibcThroughputOps := avgLibcThruput
  avgLibcThroughputKops := Arithmetic.divide avgLibcThruput (Arithmetic.constant 1000)

/-- The float nearest to a numeral. -/
def floatOf : Numeral → PyFloat
  | .finite negative magnitude => .signed negative (.ofRat magnitude)
  | .infinity negative => .signed negative .inf
  | .nan => .nan

/-! ## Reading macros -/

/-- `raw_line.split("/*", 1)[0]`. -/
def beforeComment : List Char → List Char
  | '/' :: '*' :: _ => []
  | c :: rest => c :: beforeComment rest
  | [] => []

/-- `[A-Z0-9_]`. -/
def isMacroChar (c : Char) : Bool := c.isUpper || isAsciiDigit c || c = '_'

/-- `[^\s/]`. -/
def isValueChar (c : Char) : Bool := !isSpace c && c ≠ '/'

/-- `DEFINE_RE`: the name and the value of a macro. Classes that follow each other in the pattern have no
common character, so that each takes all it can. -/
def matchDefine (line : List Char) : Option (List Char × List Char) :=
  let directive := line.dropWhile isSpace
  if "#define".toList.isPrefixOf directive then
    let rest := directive.drop 7
    let fromName := rest.dropWhile isSpace
    let name := fromName.takeWhile isMacroChar
    let afterName := fromName.dropWhile isMacroChar
    let value := (afterName.dropWhile isSpace).takeWhile isValueChar
    if rest.head?.any isSpace && name ≠ [] && afterName.head?.any isSpace && value ≠ [] then
      some (name, value)
    else none
  else none

/-- The names the function looks for. -/
def scoreMacroNames : List (List Char) := ["AVG_LIBC_THRUPUT".toList, "UTIL_WEIGHT".toList]

/-- The macro a line defines, when it is one of the two, and its value. -/
def scoreDefine (rawLine : List Char) : Option (List Char × List Char) :=
  (matchDefine (strip (beforeComment rawLine))).filter fun define =>
    scoreMacroNames.contains define.1

/-- The dictionary `macros`. -/
abbrev ScoreMacros := List Char → Option Numeral

/-- The loop over the lines. -/
def readMacros (configPath : String) (macros : ScoreMacros) :
    List (List Char) → Except String ScoreMacros
  | [] => .ok macros
  | rawLine :: rest =>
    match scoreDefine rawLine with
    | none => readMacros configPath macros rest
    | some (name, value) =>
      match readFloat value with
      | some x => readMacros configPath (Function.update macros name (some x)) rest
      | none => .error ("failed to parse " ++ String.ofList name ++ " from " ++ configPath)

/-- `parse_score_config`. The error is the message of a `BenchmarkError`. -/
def parseScoreConfig (configPath : String) (text : List Char) :
    Except String (ScoreConfig PyFloat) := do
  let macros ← readMacros configPath (fun _ => none) (splitlines text)
  match macros "AVG_LIBC_THRUPUT".toList, macros "UTIL_WEIGHT".toList with
  | some avgLibcThruput, some utilWeight =>
    return scoreRecord (floatOf utilWeight) (floatOf avgLibcThruput)
  | _, _ => .error ("failed to read score configuration from " ++ configPath)

/-! ## What is read -/

/-- The definitions of the two macros. -/
def scoreDefines (lines : List (List Char)) : List (List Char × List Char) :=
  lines.filterMap scoreDefine

/-- The number of a macro after some definitions: that of the last one for its name, if there is one. -/
def lastNumeral (name : List Char) (before : Option Numeral) :
    List (List Char × List Char) → Option Numeral
  | [] => before
  | define :: rest =>
    lastNumeral name (if define.1 = name then readFloat define.2 else before) rest

/-- **What the loop does**: every value has to be a numeral, and the last one of each macro counts. -/
theorem readMacros_eq_ok_iff {configPath : String} {macros macros' : ScoreMacros}
    {lines : List (List Char)} :
    readMacros configPath macros lines = .ok macros' ↔
      (∀ define ∈ scoreDefines lines, (readFloat define.2).isSome) ∧
        ∀ name, macros' name = lastNumeral name (macros name) (scoreDefines lines) := by
  induction lines generalizing macros with
  | nil =>
      have hok : readMacros configPath macros [] = .ok macros' ↔ macros = macros' :=
        ⟨fun h => Except.ok.inj h, congrArg Except.ok⟩
      rw [hok]
      constructor
      · rintro rfl
        exact ⟨fun define hdefine => absurd hdefine List.not_mem_nil, fun _ => rfl⟩
      · rintro ⟨-, h⟩
        exact funext fun name => (h name).symm
  | cons rawLine rest ih =>
      rw [readMacros, scoreDefines, List.filterMap_cons]
      cases scoreDefine rawLine with
      | none => exact ih
      | some define =>
          obtain ⟨name, value⟩ := define
          dsimp only
          rw [List.forall_mem_cons]
          cases hvalue : readFloat value with
          | none =>
              refine iff_of_false (fun h => by cases h) ?_
              rintro ⟨⟨hsome, -⟩, -⟩
              cases hsome
          | some x =>
              -- the definition is the last one so far for its name, and for no other
              have hupdate (other : List Char) : Function.update macros name (some x) other =
                  if name = other then readFloat value else macros other := by
                by_cases h : name = other
                · subst h
                  rw [Function.update_self, if_pos rfl, hvalue]
                · rw [Function.update_of_ne (Ne.symm h), if_neg h]
              refine ih.trans ?_
              simp only [hupdate, Option.isSome_some, true_and]
              rfl

/-- **The record of a configuration file**: the values of the two macros are numerals, both macros have
one, and the last ones make the record. -/
theorem parseScoreConfig_eq_ok_iff {configPath : String} {text : List Char}
    {record : ScoreConfig PyFloat} :
    parseScoreConfig configPath text = .ok record ↔
      (∀ define ∈ scoreDefines (splitlines text), (readFloat define.2).isSome) ∧
      ∃ utilWeight avgLibcThruput,
        lastNumeral "UTIL_WEIGHT".toList none (scoreDefines (splitlines text)) = some utilWeight ∧
        lastNumeral "AVG_LIBC_THRUPUT".toList none (scoreDefines (splitlines text)) =
          some avgLibcThruput ∧
        record = scoreRecord (floatOf utilWeight) (floatOf avgLibcThruput) := by
  rw [parseScoreConfig, bind_eq_ok]
  constructor
  · rintro ⟨macros, hmacros, hrecord⟩
    obtain ⟨hall, hlast⟩ := readMacros_eq_ok_iff.mp hmacros
    refine ⟨hall, ?_⟩
    rw [← hlast, ← hlast]
    split at hrecord
    · next avgLibcThruput utilWeight havg hutil =>
      exact ⟨utilWeight, avgLibcThruput, hutil, havg, (Except.ok.inj hrecord).symm⟩
    · cases hrecord
  · rintro ⟨hall, utilWeight, avgLibcThruput, hutil, havg, rfl⟩
    refine ⟨_, readMacros_eq_ok_iff.mpr ⟨hall, fun _ => rfl⟩, ?_⟩
    rw [hutil, havg]
    rfl

example : scoreDefines (splitlines
    ("#define AVG_LIBC_THRUPUT      600E3  /* 600 Kops/sec */\n".toList ++
      "#define UTIL_WEIGHT .60\n".toList)) =
    [("AVG_LIBC_THRUPUT".toList, "600E3".toList), ("UTIL_WEIGHT".toList, ".60".toList)] := by
  decide +kernel

end MallocBench
