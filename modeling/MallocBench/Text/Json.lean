import MallocBench.Numbers.Repr
import MallocBench.Text.Scanning

/-! # JSON texts

What Python's `json.dumps(…, ensure_ascii=False, indent=2)` writes for nested lists and dictionaries, and
what `json.loads` makes of a text. A dictionary is the list of its entries, in the order in which their
keys came in.

* **`scanNumber_text`**: a printed number is taken as a whole, and is an integer or a float as it was.
* **`loads_dumps`**: what is written is read back, floats that are not finite included. -/

namespace MallocBench.Text

open Numbers

/-- A value. -/
inductive Json where
  | null
  | bool (b : Bool)
  | int (n : ℤ)
  | float (x : PyFloat)
  | str (s : List Char)
  | list (items : List Json)
  | dict (entries : List (List Char × Json))

namespace Json

/-! ## Dictionaries -/

/-- `d[key] = value`: an entry keeps its place. -/
def setEntry {α : Type} (key : List Char) (value : α) : List (List Char × α) → List (List Char × α)
  | [] => [(key, value)]
  | entry :: rest => if entry.1 = key then (key, value) :: rest else entry :: setEntry key value rest

/-- `dict` of pairs. -/
def dictOf {α : Type} (pairs : List (List Char × α)) : List (List Char × α) :=
  pairs.foldl (fun d entry => setEntry entry.1 entry.2 d) []

/-- `d.get(key)`. -/
def getEntry {α : Type} (key : List Char) (d : List (List Char × α)) : Option α :=
  (d.find? fun entry => entry.1 = key).map Prod.snd

/-! ## Writing -/

/-- `ESCAPE_DCT`, for the characters that are escaped. -/
def escapeChar (c : Char) : List Char :=
  if c = '\\' then "\\\\".toList
  else if c = '"' then "\\\"".toList
  else if c = '\x08' then "\\b".toList
  else if c = '\x0c' then "\\f".toList
  else if c = '\n' then "\\n".toList
  else if c = '\r' then "\\r".toList
  else if c = '\t' then "\\t".toList
  -- `ensure_ascii` is off: no other character is escaped
  else if c.toNat < 0x20 then "\\u".toList ++ List.leftpad 4 '0' (Nat.toDigits 16 c.toNat)
  else [c]

/-- `encode_basestring`. -/
def stringText (s : List Char) : List Char := '"' :: (s.flatMap escapeChar ++ ['"'])

/-- The text of a float. -/
def floatText : PyFloat → List Char
  | .nan => "NaN".toList
  | .signed false .inf => "Infinity".toList
  | .signed true .inf => "-Infinity".toList
  | x => x.repr

/-- A line break and the indentation of a level. -/
def newline (level : ℕ) : List Char := '\n' :: List.replicate (2 * level) ' '

mutual

/-- `json.dumps` at a level. -/
def dumpsAt (level : ℕ) : Json → List Char
  | null => "null".toList
  | bool true => "true".toList
  | bool false => "false".toList
  | int n => intText n
  | float x => floatText x
  | str s => stringText s
  | list [] => "[]".toList
  | list (item :: items) =>
    '[' :: (newline (level + 1) ++
      (dumpsAt (level + 1) item ++ (dumpsItems (level + 1) items ++ (newline level ++ [']']))))
  | dict [] => "\x7b\x7d".toList
  | dict ((key, value) :: entries) =>
    '\x7b' :: (newline (level + 1) ++
      (stringText key ++ (": ".toList ++ (dumpsAt (level + 1) value ++
        (dumpsEntries (level + 1) entries ++ (newline level ++ ['\x7d']))))))

/-- The items behind the first. -/
def dumpsItems (level : ℕ) : List Json → List Char
  | [] => []
  | item :: items => ',' :: (newline level ++ (dumpsAt level item ++ dumpsItems level items))

/-- The entries behind the first. -/
def dumpsEntries (level : ℕ) : List (List Char × Json) → List Char
  | [] => []
  | (key, value) :: entries =>
    ',' :: (newline level ++
      (stringText key ++ (": ".toList ++ (dumpsAt level value ++ dumpsEntries level entries))))

end

/-- `json.dumps`. -/
def dumps (v : Json) : List Char := dumpsAt 0 v

/-! ## Reading -/

/-- The text without white space at the front. -/
def skipSpace (s : List Char) : List Char := s.dropWhile fun c => [' ', '\t', '\n', '\r'].contains c

/-- A hexadecimal digit. -/
def hexValue (c : Char) : Option ℕ :=
  if isAsciiDigit c then some (c.toNat - 0x30)
  else if 0x61 ≤ c.toNat ∧ c.toNat ≤ 0x66 then some (c.toNat - 0x57)
  else if 0x41 ≤ c.toNat ∧ c.toNat ≤ 0x46 then some (c.toNat - 0x37)
  else none

/-- Four hexadecimal digits. -/
def scanHex : List Char → Option (ℕ × List Char)
  | a :: b :: c :: d :: rest => do
    let a ← hexValue a
    let b ← hexValue b
    let c ← hexValue c
    let d ← hexValue d
    return (((a * 16 + b) * 16 + c) * 16 + d, rest)
  | _ => none

/-- What follows `\u`: a character, or the two halves of one. -/
def scanUnicode (s : List Char) : Option (Char × List Char) :=
  match scanHex s with
  | none => none
  | some (u, rest) =>
    if 0xd800 ≤ u ∧ u ≤ 0xdbff then
      -- the first half of a character beyond 16 bits: the second has to follow
      match rest with
      | '\\' :: 'u' :: rest =>
        match scanHex rest with
        | none => none
        | some (low, rest) =>
          if 0xdc00 ≤ low ∧ low ≤ 0xdfff then
            some (Char.ofNat (0x10000 + (u - 0xd800) * 0x400 + (low - 0xdc00)), rest)
          else none
      | _ => none
    else if 0xdc00 ≤ u ∧ u ≤ 0xdfff then none
    else some (Char.ofNat u, rest)

/-- What follows a backslash. -/
def scanEscape : List Char → Option (Char × List Char)
  | [] => none
  | c :: rest =>
    if c = 'u' then scanUnicode rest
    else
      ([('"', '"'), ('\\', '\\'), ('/', '/'), ('b', '\x08'), ('f', '\x0c'), ('n', '\n'), ('r', '\r'),
        ('t', '\t')].find? fun entry => entry.1 = c).map fun entry => (entry.2, rest)

/-- `scanstring`, behind the quote. -/
def scanString : ℕ → List Char → Option (List Char × List Char)
  | 0, _ => none
  | _ + 1, [] => none
  | fuel + 1, c :: rest =>
    if c = '"' then some ([], rest)
    else if c = '\\' then
      match scanEscape rest with
      | none => none
      | some (c, rest) => (scanString fuel rest).map fun s => (c :: s.1, s.2)
    else if c.toNat < 0x20 then none
    else (scanString fuel rest).map fun s => (c :: s.1, s.2)

/-- The digits before the point: a zero, or digits that do not begin with one. -/
def scanInteger (s : List Char) : List Char × List Char :=
  match s with
  -- a zero is a number of its own: what follows it is not taken
  | '0' :: rest => (['0'], rest)
  | s => (s.takeWhile isAsciiDigit, s.dropWhile isAsciiDigit)

/-- A point and digits, if they are there. -/
def scanFraction (s : List Char) : List Char × List Char :=
  match s with
  | '.' :: rest =>
    if rest.takeWhile isAsciiDigit = [] then ([], s)
    else ('.' :: rest.takeWhile isAsciiDigit, rest.dropWhile isAsciiDigit)
  | s => ([], s)

/-- An exponent, if it is there. -/
def scanExponent (s : List Char) : List Char × List Char :=
  match s with
  | c :: rest =>
    -- one sign at most, and a digit behind it; otherwise nothing is taken
    let sign := rest.takeWhile fun c => c = '+' || c = '-'
    let digits := rest.drop sign.length
    if (c = 'e' ∨ c = 'E') ∧ sign.length ≤ 1 ∧ digits.takeWhile isAsciiDigit ≠ [] then
      (c :: (sign ++ digits.takeWhile isAsciiDigit), digits.dropWhile isAsciiDigit)
    else ([], s)
  | [] => ([], [])

/-- `NUMBER_RE` and the number it stands for: an integer, or what `float` reads. -/
def scanNumber (s : List Char) : Option (Json × List Char) :=
  let negative := s.head? = some '-'
  let integer := scanInteger (if negative then s.tail else s)
  let fraction := scanFraction integer.2
  let exponent := scanExponent fraction.2
  if integer.1 = [] then none
  else if fraction.1 = [] ∧ exponent.1 = [] then
    let n : ℤ := digitsValue integer.1
    some (int (if negative then -n else n), exponent.2)
  else
    match readFloat ((if negative then ['-'] else []) ++ (integer.1 ++ (fraction.1 ++ exponent.1))) with
    | some (.finite negative magnitude) => some (float (.signed negative (.ofRat magnitude)), exponent.2)
    | _ => none

/-- A word at the front. -/
def scanWord (words : List (String × Json)) (s : List Char) : Option (Json × List Char) :=
  (words.find? fun word => word.1.toList.isPrefixOf s).map fun word => (word.2, s.drop word.1.length)

/-- A value that is no string and has no parts. -/
def scanAtom (s : List Char) : Option (Json × List Char) :=
  scanWord [("null", null), ("true", bool true), ("false", bool false)] s <|> scanNumber s <|>
    scanWord [("NaN", float .nan), ("Infinity", float (.signed false .inf)),
      ("-Infinity", float (.signed true .inf))] s

mutual

/-- `scan_once`. -/
def scanValue : ℕ → List Char → Option (Json × List Char)
  | 0, _ => none
  | _ + 1, [] => none
  | fuel + 1, c :: rest =>
    if c = '"' then (scanString fuel rest).map fun s => (str s.1, s.2)
    else if c = '\x7b' then
      match skipSpace rest with
      | '\x7d' :: rest => some (dict [], rest)
      -- the last of several entries with one key counts
      | s => (scanEntries fuel s).map fun pairs => (dict (dictOf pairs.1), pairs.2)
    else if c = '[' then
      match skipSpace rest with
      | ']' :: rest => some (list [], rest)
      | s => (scanItems fuel s).map fun items => (list items.1, items.2)
    else scanAtom (c :: rest)

/-- `JSONArray`, at an item. -/
def scanItems : ℕ → List Char → Option (List Json × List Char)
  | 0, _ => none
  | fuel + 1, s =>
    match scanValue fuel s with
    | none => none
    | some (item, rest) =>
      match skipSpace rest with
      | ']' :: rest => some ([item], rest)
      | ',' :: rest => (scanItems fuel (skipSpace rest)).map fun items => (item :: items.1, items.2)
      | _ => none

/-- `JSONObject`, at a key. -/
def scanEntries : ℕ → List Char → Option (List (List Char × Json) × List Char)
  | 0, _ => none
  | _ + 1, [] => none
  | fuel + 1, c :: rest =>
    if c = '"' then
      match scanString fuel rest with
      | none => none
      | some (key, rest) =>
        match skipSpace rest with
        | ':' :: rest =>
          match scanValue fuel (skipSpace rest) with
          | none => none
          | some (value, rest) =>
            match skipSpace rest with
            | '\x7d' :: rest => some ([(key, value)], rest)
            | ',' :: rest =>
              (scanEntries fuel (skipSpace rest)).map fun pairs => ((key, value) :: pairs.1, pairs.2)
            | _ => none
        | _ => none
    else none

end

/-- `json.loads`, or none where it raises an error. -/
def loads (s : List Char) : Option Json :=
  match scanValue (s.length + 1) (skipSpace s) with
  | none => none
  | some (v, rest) => if skipSpace rest = [] then some v else none

/-- There is fuel for one more step. -/
theorem exists_fuel {n fuel : ℕ} (h : n < fuel) : ∃ rest, fuel = rest + 1 :=
  Nat.exists_eq_succ_of_ne_zero (Nat.ne_zero_of_lt h)

/-! ## Strings -/

/-- Four digits are read whatever comes after them. -/
theorem scanHex_append {w : List Char} {u : ℕ} (h : scanHex w = some (u, [])) (hw : w.length = 4)
    (rest : List Char) : scanHex (w ++ rest) = some (u, rest) := by
  obtain ⟨a, b, c, d, rfl⟩ := List.length_eq_four.mp hw
  simp only [scanHex, List.cons_append, List.nil_append, Option.bind_eq_bind, Option.bind_eq_some_iff,
    Option.pure_def, Option.some.injEq, Prod.mk.injEq] at h ⊢
  obtain ⟨a', ha, b', hb, c', hc, d', hd, hu, -⟩ := h
  exact ⟨a', ha, b', hb, c', hc, d', hd, hu, trivial⟩

/-- A control character is read back from its four digits. -/
theorem scanUnicode_control {c : Char} (hc : c.toNat < 0x20) (rest : List Char) :
    scanUnicode (List.leftpad 4 '0' (Nat.toDigits 16 c.toNat) ++ rest) = some (c, rest) := by
  have hall : ∀ n < 0x20, scanHex (List.leftpad 4 '0' (Nat.toDigits 16 n)) = some (n, []) ∧
      (List.leftpad 4 '0' (Nat.toDigits 16 n)).length = 4 := by decide
  obtain ⟨hhex, hlength⟩ := hall _ hc
  rw [scanUnicode, scanHex_append hhex hlength]
  simp only
  rw [if_neg (by omega), if_neg (by omega), Char.ofNat_toNat]

/-- **A character is read back**, escaped or not. -/
theorem scanString_escapeChar (fuel : ℕ) (c : Char) (rest : List Char) :
    scanString (fuel + 1) (escapeChar c ++ rest) =
      (scanString fuel rest).map fun s => (c :: s.1, s.2) := by
  unfold escapeChar
  split
  · next h => subst h; rfl
  split
  · next h => subst h; rfl
  split
  · next h => subst h; rfl
  split
  · next h => subst h; rfl
  split
  · next h => subst h; rfl
  split
  · next h => subst h; rfl
  split
  · next h => subst h; rfl
  split
  · next h =>
    show scanString (fuel + 1) ('\\' :: 'u' :: (List.leftpad 4 '0' (Nat.toDigits 16 c.toNat) ++ rest)) = _
    rw [scanString, if_neg (by decide), if_pos rfl, scanEscape, if_pos rfl, scanUnicode_control h]
  · next hback hquote _ _ _ _ _ hlow =>
    rw [List.singleton_append, scanString, if_neg hquote, if_neg hback, if_neg hlow]

/-- Every character is written. -/
theorem escapeChar_ne_nil (c : Char) : 0 < (escapeChar c).length := by
  unfold escapeChar
  split_ifs <;> simp

/-- **A string is read back** up to the quote after it. -/
theorem scanString_text (s rest : List Char) {fuel : ℕ} (h : (s.flatMap escapeChar).length < fuel) :
    scanString fuel (s.flatMap escapeChar ++ '"' :: rest) = some (s, rest) := by
  induction s generalizing fuel with
  | nil =>
      obtain ⟨fuel, rfl⟩ := exists_fuel h
      rfl
  | cons c s ih =>
      rw [List.flatMap_cons, List.length_append] at h
      have hpos := escapeChar_ne_nil c
      obtain ⟨fuel, rfl⟩ := exists_fuel h
      rw [List.flatMap_cons, List.append_assoc, scanString_escapeChar, ih (by omega)]
      rfl

/-! ## Numbers -/

/-- What may follow a value: nothing, a comma or the end of a line. -/
def Follows (rest : List Char) : Prop := ∀ c ∈ rest.head?, c = ',' ∨ c = '\n'

/-- What may follow a value starts with no digit. -/
theorem Follows.not_digit {rest : List Char} (h : Follows rest) :
    ∀ c ∈ rest.head?, isAsciiDigit c = false := by
  intro c hc
  rcases h c hc with rfl | rfl <;> rfl

/-- The digits before the point are taken as a whole. -/
theorem scanInteger_whole {p : Printed} (h : p.Proper) {b : List Char}
    (hb : ∀ c ∈ b.head?, isAsciiDigit c = false) : scanInteger (p.whole ++ b) = (p.whole, b) := by
  by_cases hzero : p.whole.head? = some '0'
  · rw [h.leading hzero]
    rfl
  · obtain ⟨htake, hdrop⟩ := Printed.takeWhile_digits_append h.whole hb
    unfold scanInteger
    split
    · next rest heq =>
      have hhead := congrArg List.head? heq
      rw [List.head?_append_of_ne_nil _ h.nonempty] at hhead
      exact absurd hhead hzero
    · rw [htake, hdrop]

/-- The fraction is taken as it is printed. -/
theorem scanFraction_text {fraction : List Char} (h : ∀ c ∈ fraction, isAsciiDigit c = true)
    {b : List Char} (hb : ∀ c ∈ b.head?, isAsciiDigit c = false ∧ c ≠ '.') :
    scanFraction (Printed.fractionText fraction ++ b) = (Printed.fractionText fraction, b) := by
  unfold Printed.fractionText
  split
  · unfold scanFraction
    split
    · next rest heq =>
      rw [List.nil_append] at heq
      exact absurd rfl (hb '.' (by rw [heq]; rfl)).2
    · rfl
  · next hne =>
    obtain ⟨htake, hdrop⟩ := Printed.takeWhile_digits_append h fun c hc => (hb c hc).1
    rw [List.cons_append, scanFraction, htake, hdrop, if_neg hne]

/-- The exponent is taken as it is printed. -/
theorem scanExponent_text (e : Option ℤ) {b : List Char} (hb : Follows b) :
    scanExponent (Printed.exponentText e ++ b) = (Printed.exponentText e, b) := by
  cases e with
  | none =>
      cases b with
      | nil => rfl
      | cons c b =>
          have hc : ¬ (c = 'e' ∨ c = 'E') := by
            rcases hb c rfl with rfl | rfl <;> decide
          show scanExponent (c :: b) = ([], c :: b)
          rw [scanExponent]
          exact if_neg fun h => hc h.1
  | some e =>
      set digits := List.leftpad 2 '0' (Nat.toDigits 10 e.natAbs) with hdigits
      have hall : ∀ c ∈ digits, isAsciiDigit c = true := fun _ => Printed.isAsciiDigit_leftpad
      have hne : digits ≠ [] := by
        rw [hdigits, List.leftpad]
        exact List.append_ne_nil_of_right_ne_nil _ Nat.toDigits_ne_nil
      obtain ⟨htake, hdrop⟩ := Printed.takeWhile_digits_append hall hb.not_digit
      obtain ⟨d, rest, hd⟩ := List.exists_cons_of_ne_nil hne
      have hsign : ¬ (d = '+' || d = '-') = true := by
        have hdigit : isAsciiDigit d = true := hall d (hd ▸ List.mem_cons_self)
        exact of_isAsciiDigit (p := fun d => ¬ (d = '+' || d = '-') = true) (by decide) hdigit
      have hsigns (sign : Char) (h : (sign = '+' || sign = '-') = true) :
          (sign :: (digits ++ b)).takeWhile (fun c => c = '+' || c = '-') = [sign] := by
        rw [List.takeWhile_cons_of_pos (p := fun c => c = '+' || c = '-') h, hd, List.cons_append,
          List.takeWhile_cons_of_neg (p := fun c => c = '+' || c = '-') hsign]
      have hboth (sign : Char) (h : (sign = '+' || sign = '-') = true) :
          scanExponent ('e' :: sign :: (digits ++ b)) = ('e' :: sign :: digits, b) := by
        rw [scanExponent]
        simp only [hsigns sign h, List.length_singleton, List.drop_succ_cons, List.drop_zero, htake, hdrop]
        rw [if_pos ⟨.inl trivial, le_rfl, hne⟩]
        rfl
      have htext : Printed.exponentText (some e) = 'e' :: (if e < 0 then '-' else '+') :: digits := rfl
      rw [htext, List.cons_append, List.cons_append]
      split
      · exact hboth '-' rfl
      · exact hboth '+' rfl

/-- The first character of a printed number. -/
theorem head_text {p : Printed} (h : p.Proper) :
    ∃ c t, p.text = c :: t ∧ isAsciiDigit c = true := by
  obtain ⟨c, t, hct⟩ := List.exists_cons_of_ne_nil h.nonempty
  refine ⟨c, t ++ (Printed.fractionText p.fraction ++ Printed.exponentText p.exponent), ?_,
    h.whole c (hct ▸ List.mem_cons_self)⟩
  rw [Printed.text, hct, List.cons_append]

/-- **A printed number is taken as a whole**: as an integer when it has neither a point nor an exponent. -/
theorem scanNumber_text {p : Printed} (h : p.Proper) (negative : Bool) {rest : List Char}
    (hrest : Follows rest) :
    scanNumber ((if negative then ['-'] else []) ++ p.text ++ rest) =
      if p.fraction = [] ∧ p.exponent = none then
        some (int (if negative then -(digitsValue p.whole : ℤ) else digitsValue p.whole), rest)
      else some (float (.signed negative (.ofRat p.value)), rest) := by
  obtain ⟨c, t, hct, hc⟩ := head_text h
  have hminus : c ≠ '-' := of_isAsciiDigit (p := fun c => c ≠ '-') (by decide) hc
  set s := (if negative then ['-'] else []) ++ p.text ++ rest with hs
  have hnegative : (s.head? = some '-') ↔ negative = true := by
    rw [hs, hct]
    cases negative with
    | true => exact iff_of_true rfl rfl
    | false => exact iff_of_false (fun heq => hminus (Option.some.inj heq)) Bool.false_ne_true
  have htail : (if negative = true then s.tail else s) = p.text ++ rest := by
    cases negative with
    | true => rfl
    | false => rfl
  have hexp : ∀ c ∈ (Printed.exponentText p.exponent ++ rest).head?,
      isAsciiDigit c = false ∧ c ≠ '.' := by
    intro c hc
    rw [List.head?_append] at hc
    cases he : p.exponent with
    | none =>
        rw [he] at hc
        rcases hrest c hc with rfl | rfl <;> decide
    | some e =>
        rw [he] at hc
        obtain rfl := Option.some.inj hc
        decide
  have hfraction : ∀ c ∈ (Printed.fractionText p.fraction ++
      (Printed.exponentText p.exponent ++ rest)).head?, isAsciiDigit c = false := by
    intro c hc
    rw [Printed.fractionText] at hc
    split at hc
    · exact (hexp c hc).1
    · obtain rfl := Option.some.inj hc
      decide
  have hinteger : scanInteger (p.text ++ rest) =
      (p.whole, Printed.fractionText p.fraction ++ (Printed.exponentText p.exponent ++ rest)) := by
    rw [Printed.text, List.append_assoc, List.append_assoc]
    exact scanInteger_whole h hfraction
  have hplain : (Printed.fractionText p.fraction = [] ∧ Printed.exponentText p.exponent = []) ↔
      p.fraction = [] ∧ p.exponent = none := by
    have hfractionText : Printed.fractionText p.fraction = [] ↔ p.fraction = [] := by
      rw [Printed.fractionText]
      split
      · next heq => exact iff_of_true rfl heq
      · next hne => exact iff_of_false (List.cons_ne_nil _ _) hne
    have hexponentText : Printed.exponentText p.exponent = [] ↔ p.exponent = none := by
      cases p.exponent with
      | none => exact iff_of_true rfl rfl
      | some e => exact iff_of_false (List.cons_ne_nil _ _) (Option.some_ne_none e)
    rw [hfractionText, hexponentText]
  -- each scanner takes its part and stops where the next begins
  have hread := readFloat_text h negative
  rw [Printed.text] at hread
  simp only [scanNumber, hnegative, htail, hinteger, scanFraction_text h.fraction hexp,
    scanExponent_text _ hrest, if_neg h.nonempty, hplain, hread]

/-- A text that starts otherwise is no word. -/
theorem findWord_none {words : List (String × Json)} {s : List Char}
    (h : ∀ word ∈ words, word.1.toList.head? ≠ s.head? ∧ word.1.toList ≠ []) :
    scanWord words s = none := by
  rw [scanWord, Option.map_eq_none_iff, List.find?_eq_none]
  intro word hword hprefix
  obtain ⟨hhead, hne⟩ := h word hword
  obtain ⟨t, ht⟩ := List.isPrefixOf_iff_prefix.mp hprefix
  rw [← ht, List.head?_append_of_ne_nil _ hne] at hhead
  exact hhead rfl

/-- What begins like a number is none of the words tried before. -/
theorem scanAtom_number {s : List Char} {c : Char} {t : List Char} (hs : s = c :: t)
    (hc : isAsciiDigit c = true ∨ c = '-') {v : Json} {rest : List Char}
    (h : scanNumber s = some (v, rest)) : scanAtom s = some (v, rest) := by
  have hletter : c ≠ 'n' ∧ c ≠ 't' ∧ c ≠ 'f' := by
    rcases hc with hc | rfl
    · exact of_isAsciiDigit (p := fun c => c ≠ 'n' ∧ c ≠ 't' ∧ c ≠ 'f') (by decide) hc
    · decide
  have hword : scanWord [("null", null), ("true", bool true), ("false", bool false)] s = none := by
    apply findWord_none
    rw [hs]
    simp only [List.forall_mem_cons, List.head?_cons]
    refine ⟨⟨fun heq => hletter.1 (Option.some.inj heq).symm, by decide⟩,
      ⟨fun heq => hletter.2.1 (Option.some.inj heq).symm, by decide⟩,
      ⟨fun heq => hletter.2.2 (Option.some.inj heq).symm, by decide⟩, fun w hw => ?_⟩
    exact absurd hw List.not_mem_nil
  rw [scanAtom, hword, h]
  rfl

/-- An integer is digits without a point. -/
theorem proper_toDigits (n : ℕ) : (⟨Nat.toDigits 10 n, [], none⟩ : Printed).Proper := by
  refine ⟨Nat.toDigits_ne_nil, fun _ => isAsciiDigit_toDigits, fun hhead => ?_, fun c hc => ?_⟩
  · rcases Nat.eq_zero_or_pos n with rfl | hpos
    · rfl
    · exact absurd hhead (head?_toDigits hpos)
  · exact absurd hc List.not_mem_nil

/-- An integer is printed like a number without a fraction and an exponent. -/
theorem intText_eq (n : ℤ) : intText n = (if decide (n < 0) then ['-'] else []) ++
    (⟨Nat.toDigits 10 n.natAbs, [], none⟩ : Printed).text := by
  rw [intText, numeralText, Printed.text]
  simp [Printed.fractionText, Printed.exponentText]

/-- **An integer is read back.** -/
theorem scanAtom_int (n : ℤ) {rest : List Char} (hrest : Follows rest) :
    scanAtom (intText n ++ rest) = some (int n, rest) := by
  have hproper := proper_toDigits n.natAbs
  have hnumber := scanNumber_text hproper (decide (n < 0)) hrest
  have hvalue : (if decide (n < 0) = true then -(n.natAbs : ℤ) else n.natAbs) = n := by
    split
    · next h => have := of_decide_eq_true h; omega
    · next h => have := of_decide_eq_false (Bool.not_eq_true _ ▸ h); omega
  rw [← intText_eq, if_pos ⟨rfl, rfl⟩, digitsValue_toDigits, hvalue] at hnumber
  obtain ⟨c, t, hct, hc⟩ := head_text hproper
  by_cases hneg : n < 0
  · exact scanAtom_number (c := '-') (by rw [intText_eq, decide_eq_true hneg]; rfl) (.inr rfl) hnumber
  · exact scanAtom_number (by rw [intText_eq, decide_eq_false hneg, hct]; rfl) (.inl hc) hnumber

/-- A finite float is a sign and the text of its shortest decimal. -/
theorem floatText_finite (negative : Bool) (x : Binary64) : floatText (.signed negative (.finite x)) =
    (if negative then ['-'] else []) ++ (printed x.value).text := by
  cases negative <;> rfl

/-- **A float is read back.** -/
theorem scanAtom_float (x : PyFloat) {rest : List Char} (hrest : Follows rest) :
    scanAtom (floatText x ++ rest) = some (float x, rest) := by
  match x with
  | .nan => rfl
  | .signed false .inf => rfl
  | .signed true .inf => rfl
  | .signed negative (.finite x) =>
    obtain ⟨hproper, hpoint, hvalue⟩ := ofRat_printed x
    have hnumber := scanNumber_text hproper negative hrest
    rw [if_neg hpoint, hvalue] at hnumber
    obtain ⟨c, t, hct, hc⟩ := head_text hproper
    rw [floatText_finite]
    cases negative with
    | true => exact scanAtom_number (c := '-') rfl (.inr rfl) hnumber
    | false => exact scanAtom_number (by rw [hct]; rfl) (.inl hc) hnumber

/-! ## Values -/

/-- The keys of every dictionary are distinct. The integers have at most 4300 digits: on longer ones the
printer and the reader raise errors. -/
inductive Proper : Json → Prop where
  | null : Proper null
  | bool (b : Bool) : Proper (bool b)
  | int (n : ℤ) : Proper (int n)
  | float (x : PyFloat) : Proper (float x)
  | str (s : List Char) : Proper (str s)
  | list {items : List Json} (h : ∀ item ∈ items, Proper item) : Proper (list items)
  | dict {entries : List (List Char × Json)} (hkeys : (entries.map Prod.fst).Nodup)
      (h : ∀ entry ∈ entries, Proper entry.2) : Proper (dict entries)

/-- An indented line end is white space. -/
theorem skipSpace_newline (level : ℕ) (s : List Char) : skipSpace (newline level ++ s) = skipSpace s := by
  rw [skipSpace, newline, List.cons_append, List.dropWhile_cons_of_pos (by decide),
    List.dropWhile_append_of_pos fun c hc => by obtain rfl := List.eq_of_mem_replicate hc; rfl]
  rfl

/-- What a value may begin with. -/
def Starts (s : List Char) : Prop :=
  ∃ c t, s = c :: t ∧ [' ', '\t', '\n', '\r'].contains c = false ∧ c ≠ ']' ∧ c ≠ '\x7d'

/-- How a text starts does not depend on what comes after it. -/
theorem Starts.append {s : List Char} (h : Starts s) (t : List Char) : Starts (s ++ t) := by
  obtain ⟨c, s', rfl, hc⟩ := h
  exact ⟨c, s' ++ t, rfl, hc⟩

/-- A value does not start with white space. -/
theorem Starts.skipSpace {s : List Char} (h : Starts s) : skipSpace s = s := by
  obtain ⟨c, t, rfl, hc, -⟩ := h
  have hneg : ¬ [' ', '\t', '\n', '\r'].contains c = true := by
    rw [hc]
    exact Bool.false_ne_true
  exact List.dropWhile_cons_of_neg (p := fun c => [' ', '\t', '\n', '\r'].contains c) hneg

/-- A string starts with its quote. -/
theorem starts_stringText (s : List Char) : Starts (stringText s) :=
  ⟨'"', s.flatMap escapeChar ++ ['"'], rfl, by decide, by decide, by decide⟩

/-- What a value without parts may begin with, if it is no string. -/
def StartsAtom (s : List Char) : Prop :=
  ∃ c t, s = c :: t ∧
    [' ', '\t', '\n', '\r', ']', '\x7d', '"', '\x7b', '['].contains c = false

/-- What starts an atom starts a value. -/
theorem StartsAtom.starts {s : List Char} (h : StartsAtom s) : Starts s := by
  obtain ⟨c, t, rfl, hc⟩ := h
  simp only [List.contains_cons, List.contains_nil, Bool.or_false, Bool.or_eq_false_iff,
    beq_eq_false_iff_ne] at hc
  obtain ⟨hblank, htab, hline, hreturn, hlist, hdict, -⟩ := hc
  refine ⟨c, t, rfl, ?_, hlist, hdict⟩
  simp [hblank, htab, hline, hreturn]

/-- A printed number starts with a digit or a sign. -/
theorem startsAtom_printed {p : Printed} (h : p.Proper) (negative : Bool) :
    StartsAtom ((if negative then ['-'] else []) ++ p.text) := by
  obtain ⟨c, t, hct, hc⟩ := head_text h
  cases negative with
  | true => exact ⟨'-', p.text, rfl, by decide⟩
  | false =>
      refine ⟨c, t, hct, ?_⟩
      exact of_isAsciiDigit
        (p := fun c => [' ', '\t', '\n', '\r', ']', '\x7d', '"', '\x7b', '['].contains c = false)
        (by decide) hc

/-- So does an integer. -/
theorem startsAtom_intText (n : ℤ) : StartsAtom (intText n) := by
  rw [intText_eq]
  exact startsAtom_printed (proper_toDigits _) _

/-- A float starts with a digit, a sign or a letter. -/
theorem startsAtom_floatText (x : PyFloat) : StartsAtom (floatText x) := by
  match x with
  | .nan => exact ⟨'N', _, rfl, by decide⟩
  | .signed false .inf => exact ⟨'I', _, rfl, by decide⟩
  | .signed true .inf => exact ⟨'-', _, rfl, by decide⟩
  | .signed negative (.finite x) =>
    rw [floatText_finite]
    exact startsAtom_printed (ofRat_printed x).1 negative

/-- **Every value starts** with a character that neither is white space nor closes a list or a
dictionary. -/
theorem starts_dumpsAt (level : ℕ) (v : Json) : Starts (dumpsAt level v) := by
  unfold dumpsAt
  split
  · exact ⟨'n', _, rfl, by decide, by decide, by decide⟩
  · exact ⟨'t', _, rfl, by decide, by decide, by decide⟩
  · exact ⟨'f', _, rfl, by decide, by decide, by decide⟩
  · exact (startsAtom_intText _).starts
  · exact (startsAtom_floatText _).starts
  · exact starts_stringText _
  · exact ⟨'[', _, rfl, by decide, by decide, by decide⟩
  · exact ⟨'[', _, rfl, by decide, by decide, by decide⟩
  · exact ⟨'\x7b', _, rfl, by decide, by decide, by decide⟩
  · exact ⟨'\x7b', _, rfl, by decide, by decide, by decide⟩

/-- A value of a level is read back. -/
def ReadBack (level : ℕ) (v : Json) : Prop :=
  ∀ (fuel : ℕ) (rest : List Char), (dumpsAt level v).length ≤ fuel → Follows rest →
    scanValue fuel (dumpsAt level v ++ rest) = some (v, rest)

/-- An indented line end may follow a value. -/
theorem follows_newline (level : ℕ) (s : List Char) : Follows (newline level ++ s) := by
  intro c hc
  exact .inr (Option.some.inj hc).symm

/-- A comma may follow a value. -/
theorem follows_comma (s : List Char) : Follows (',' :: s) := by
  intro c hc
  exact .inl (Option.some.inj hc).symm

/-- A comma is no white space. -/
theorem skipSpace_comma (s : List Char) : skipSpace (',' :: s) = ',' :: s := rfl

/-- **The items of a list are read back** when each of them is. -/
theorem scanItems_dumpsItems (level outer : ℕ) (rest : List Char) {item : Json} {items : List Json}
    (h : ∀ v ∈ item :: items, ReadBack level v) {fuel : ℕ}
    (hfuel : (dumpsAt level item ++ dumpsItems level items).length < fuel) :
    scanItems fuel (dumpsAt level item ++ (dumpsItems level items ++ (newline outer ++ ']' :: rest))) =
      some (item :: items, rest) := by
  induction items generalizing item fuel with
  | nil =>
      obtain ⟨fuel, rfl⟩ := exists_fuel hfuel
      rw [List.length_append] at hfuel
      have hitem := h item List.mem_cons_self fuel (newline outer ++ ']' :: rest) (by omega)
        (follows_newline _ _)
      rw [dumpsItems, List.nil_append, scanItems, hitem]
      simp only
      rw [skipSpace_newline]
      rfl
  | cons next items ih =>
      obtain ⟨fuel, rfl⟩ := exists_fuel hfuel
      simp only [dumpsItems, List.length_append, List.length_cons] at hfuel
      have hitem := h item List.mem_cons_self fuel
        (',' :: (newline level ++ (dumpsAt level next ++ (dumpsItems level items ++
          (newline outer ++ ']' :: rest))))) (by omega) (follows_comma _)
      have hrest := @ih next (fun v hv => h v (List.mem_cons_of_mem _ hv)) fuel
        (by rw [List.length_append]; omega)
      simp only [dumpsItems, List.cons_append, List.append_assoc]
      rw [scanItems, hitem]
      simp only [skipSpace_comma]
      rw [skipSpace_newline, ((starts_dumpsAt level next).append _).skipSpace, hrest]
      rfl

/-- A string and what comes after it, from its first quote. -/
theorem stringText_append (s t : List Char) :
    stringText s ++ t = '"' :: (s.flatMap escapeChar ++ '"' :: t) := by
  rw [stringText, List.cons_append, List.append_assoc]
  rfl

/-- A string has two quotes around it. -/
theorem length_stringText (s : List Char) : (stringText s).length = (s.flatMap escapeChar).length + 2 := by
  rw [stringText, List.length_cons, List.length_append]
  rfl

section Entry

variable {level : ℕ} {entry : List Char × Json} (h : ReadBack level entry.2) {fuel : ℕ}
  (hfuel : (stringText entry.1).length + (dumpsAt level entry.2).length ≤ fuel) {rest rest' : List Char}
  (hrest : Follows rest)

include h hfuel hrest

/-- An entry is read, and the others if a comma follows it. -/
theorem scanEntries_entry {after : Option (List (List Char × Json) × List Char)}
    (hafter : (skipSpace rest = '\x7d' :: rest' ∧ after = some ([entry], rest')) ∨
      (skipSpace rest = ',' :: rest' ∧
        after = (scanEntries fuel (skipSpace rest')).map fun pairs => (entry :: pairs.1, pairs.2))) :
    scanEntries (fuel + 1) (stringText entry.1 ++ (": ".toList ++ (dumpsAt level entry.2 ++ rest))) =
      after := by
  rw [length_stringText] at hfuel
  have hkey := @scanString_text entry.1 (": ".toList ++ (dumpsAt level entry.2 ++ rest)) fuel (by omega)
  have hvalue := h fuel rest (by omega) hrest
  have hcolon : skipSpace (": ".toList ++ (dumpsAt level entry.2 ++ rest)) =
      ':' :: ' ' :: (dumpsAt level entry.2 ++ rest) := rfl
  have hblank : skipSpace (' ' :: (dumpsAt level entry.2 ++ rest)) = dumpsAt level entry.2 ++ rest :=
    ((starts_dumpsAt level entry.2).append rest).skipSpace
  rw [stringText_append, scanEntries, if_pos rfl]
  rcases hafter with ⟨hskip, rfl⟩ | ⟨hskip, rfl⟩
  · simp only [hkey, hcolon, hblank, hvalue, hskip]
  · simp only [hkey, hcolon, hblank, hvalue, hskip]

end Entry

/-- **The entries of a dictionary are read back** when each of their values is. -/
theorem scanEntries_dumpsEntries (level outer : ℕ) (rest : List Char) {entry : List Char × Json}
    {entries : List (List Char × Json)} (h : ∀ e ∈ entry :: entries, ReadBack level e.2) {fuel : ℕ}
    (hfuel : (stringText entry.1).length + (dumpsAt level entry.2).length +
      (dumpsEntries level entries).length < fuel) :
    scanEntries fuel (stringText entry.1 ++ (": ".toList ++ (dumpsAt level entry.2 ++
        (dumpsEntries level entries ++ (newline outer ++ '\x7d' :: rest))))) =
      some (entry :: entries, rest) := by
  induction entries generalizing entry fuel with
  | nil =>
      obtain ⟨fuel, rfl⟩ := exists_fuel hfuel
      rw [dumpsEntries, List.nil_append]
      exact scanEntries_entry (h entry List.mem_cons_self) (by omega) (follows_newline _ _)
        (.inl ⟨skipSpace_newline outer _, rfl⟩)
  | cons next entries ih =>
      obtain ⟨fuel, rfl⟩ := exists_fuel hfuel
      simp only [dumpsEntries, List.length_append, List.length_cons] at hfuel
      have hrest := @ih next (fun v hv => h v (List.mem_cons_of_mem _ hv)) fuel (by omega)
      simp only [dumpsEntries, List.cons_append, List.append_assoc]
      rw [scanEntries_entry (h entry List.mem_cons_self) (by omega) (follows_comma _)
        (.inr ⟨skipSpace_comma _, rfl⟩), skipSpace_newline,
        ((starts_stringText next.1).append _).skipSpace, hrest]
      rfl

/-! ## Entries -/

/-- A new key is put at the end. -/
theorem setEntry_of_notMem {α : Type} {key : List Char} (value : α) {d : List (List Char × α)}
    (h : key ∉ d.map Prod.fst) : setEntry key value d = d ++ [(key, value)] := by
  induction d with
  | nil => rfl
  | cons entry d ih =>
      rw [List.map_cons, List.mem_cons, not_or] at h
      rw [setEntry, if_neg (Ne.symm h.1), ih h.2]
      rfl

/-- Pairs with distinct keys make the dictionary with these entries. -/
theorem dictOf_of_nodup {α : Type} {entries : List (List Char × α)} (h : (entries.map Prod.fst).Nodup) :
    dictOf entries = entries := by
  -- the entries so far have none of the keys to come
  have hfold : ∀ (d rest : List (List Char × α)), ((d ++ rest).map Prod.fst).Nodup →
      rest.foldl (fun d entry => setEntry entry.1 entry.2 d) d = d ++ rest := by
    intro d rest
    induction rest generalizing d with
    | nil => exact fun _ => (List.append_nil d).symm
    | cons entry rest ih =>
        intro hnodup
        have hnew : entry.1 ∉ d.map Prod.fst := by
          rw [List.map_append, List.map_cons] at hnodup
          intro hmem
          exact (List.nodup_append.mp hnodup).2.2 _ hmem _ List.mem_cons_self rfl
        rw [List.foldl_cons, setEntry_of_notMem _ hnew, ih, List.append_assoc]
        · rfl
        · rwa [List.append_assoc]
  exact hfold [] entries h

/-- Setting an entry leaves the keys as they are, or adds its key at the end. -/
theorem keys_setEntry {α : Type} (key : List Char) (value : α) (d : List (List Char × α)) :
    (setEntry key value d).map Prod.fst = d.map Prod.fst ∨
      (setEntry key value d).map Prod.fst = d.map Prod.fst ++ [key] ∧ key ∉ d.map Prod.fst := by
  induction d with
  | nil => exact .inr ⟨rfl, List.not_mem_nil⟩
  | cons entry d ih =>
      rw [setEntry]
      split
      · next heq => exact .inl (by rw [List.map_cons, List.map_cons, ← heq])
      · next hne =>
        rw [List.map_cons, List.map_cons]
        rcases ih with ih | ⟨ih, hnew⟩
        · exact .inl (by rw [ih])
        · refine .inr ⟨by rw [ih]; rfl, fun hmem => ?_⟩
          exact (List.mem_cons.mp hmem).elim (fun h => hne h.symm) hnew

/-- The keys stay distinct. -/
theorem nodup_setEntry {α : Type} (key : List Char) (value : α) {d : List (List Char × α)}
    (h : (d.map Prod.fst).Nodup) : ((setEntry key value d).map Prod.fst).Nodup := by
  rcases keys_setEntry key value d with hkeys | ⟨hkeys, hnew⟩
  · rwa [hkeys]
  · rw [hkeys]
    exact h.append (List.nodup_singleton key) (List.disjoint_singleton.mpr hnew)

/-- The entry that has been set is found. -/
theorem getEntry_setEntry_self {α : Type} (key : List Char) (value : α) (d : List (List Char × α)) :
    getEntry key (setEntry key value d) = some value := by
  unfold getEntry
  induction d with
  | nil => simp [setEntry]
  | cons entry d ih =>
      rw [setEntry]
      split
      · simp
      · next hne => rwa [List.find?_cons_of_neg (by simpa using hne)]

/-- The entries under other keys are found as before. -/
theorem getEntry_setEntry_of_ne {α : Type} {key other : List Char} (hne : other ≠ key) (value : α)
    (d : List (List Char × α)) : getEntry other (setEntry key value d) = getEntry other d := by
  unfold getEntry
  induction d with
  | nil =>
      rw [setEntry, List.find?_cons_of_neg (by simpa using hne.symm)]
  | cons entry d ih =>
      rw [setEntry]
      split
      · next heq =>
        rw [List.find?_cons_of_neg (by simpa using hne.symm),
          List.find?_cons_of_neg (by simpa using heq ▸ hne.symm)]
      · by_cases hother : entry.1 = other
        · rw [List.find?_cons_of_pos (by simpa using hother),
            List.find?_cons_of_pos (by simpa using hother)]
        · rw [List.find?_cons_of_neg (by simpa using hother),
            List.find?_cons_of_neg (by simpa using hother), ih]

/-- Of two settings of one key, the last counts. -/
theorem setEntry_setEntry {α : Type} (key : List Char) (value value' : α) (d : List (List Char × α)) :
    setEntry key value (setEntry key value' d) = setEntry key value d := by
  induction d with
  | nil => simp [setEntry]
  | cons entry d ih =>
      by_cases heq : entry.1 = key
      · simp [setEntry, heq]
      · simp [setEntry, heq, ih]

/-- The entries are those from before and the one that has been set. -/
theorem mem_setEntry {α : Type} {key : List Char} {value : α} {d : List (List Char × α)}
    {entry : List Char × α} (h : entry ∈ setEntry key value d) :
    entry ∈ d ∨ entry = (key, value) := by
  induction d with
  | nil => exact .inr (List.mem_singleton.mp h)
  | cons first d ih =>
      rw [setEntry] at h
      split at h
      · exact (List.mem_cons.mp h).symm.imp_left (List.mem_cons_of_mem _)
      · rcases List.mem_cons.mp h with rfl | h
        · exact .inl List.mem_cons_self
        · exact (ih h).imp_left (List.mem_cons_of_mem _)

/-- A dictionary stays proper when an entry is set to a proper value. -/
theorem proper_setEntry {d : List (List Char × Json)} (h : Proper (dict d)) (key : List Char)
    {value : Json} (hvalue : Proper value) : Proper (dict (setEntry key value d)) := by
  cases h with
  | dict hkeys hentries =>
      refine .dict (nodup_setEntry key value hkeys) fun entry hentry => ?_
      rcases mem_setEntry hentry with hmem | rfl
      · exact hentries entry hmem
      · exact hvalue

/-! ## Ends of lines -/

/-- What reading a file in text mode makes of the ends of its lines. -/
def universalNewlines : List Char → List Char
  | [] => []
  | '\r' :: '\n' :: rest => '\n' :: universalNewlines rest
  | '\r' :: rest => '\n' :: universalNewlines rest
  | c :: rest => c :: universalNewlines rest

/-- A text without carriage returns is read as it is. -/
theorem universalNewlines_of_notMem {s : List Char} (h : '\r' ∉ s) : universalNewlines s = s := by
  induction s with
  | nil => rfl
  | cons c s ih =>
      have hc : c ≠ '\r' := fun heq => h (heq ▸ List.mem_cons_self)
      have hrest := ih fun hmem => h (List.mem_cons_of_mem _ hmem)
      rw [universalNewlines, hrest]
      · rintro rest rfl
        exact absurd rfl hc
      · rintro rfl
        exact hc rfl

/-- A string has no carriage return in it: it is escaped. -/
theorem return_notMem_stringText (s : List Char) : '\r' ∉ stringText s := by
  have hescape (c : Char) : '\r' ∉ escapeChar c := by
    unfold escapeChar
    split_ifs with _ _ _ _ _ hreturn _ hlow
    · decide
    · decide
    · decide
    · decide
    · decide
    · decide
    · decide
    · have hall : ∀ n < 0x20, '\r' ∉ "\\u".toList ++ List.leftpad 4 '0' (Nat.toDigits 16 n) := by
        decide
      exact hall _ hlow
    · exact fun h => hreturn (List.mem_singleton.mp h).symm
  rw [stringText, List.mem_cons, List.mem_append, List.mem_flatMap]
  rintro (h | ⟨c, -, hc⟩ | h)
  · exact absurd h (by decide)
  · exact hescape c hc
  · exact absurd h (by decide)

/-- Neither has a number. -/
theorem return_notMem_printed {p : Printed} (h : p.Proper) (negative : Bool) :
    '\r' ∉ (if negative then ['-'] else []) ++ p.text := by
  intro hmem
  rcases List.mem_append.mp hmem with hmem | hmem
  · cases negative with
    | true => exact absurd (List.mem_singleton.mp hmem) (by decide)
    | false => exact absurd hmem List.not_mem_nil
  · exact absurd (isNumeralChar_text h hmem) (by decide)

/-- Nor has an indented line end. -/
theorem return_notMem_newline (level : ℕ) : '\r' ∉ newline level := by
  intro h
  rcases List.mem_cons.mp h with h | h
  · exact absurd h (by decide)
  · exact absurd (List.eq_of_mem_replicate h) (by decide)

/-- **No carriage return is written**, so that reading in text mode changes nothing. -/
theorem return_notMem_dumpsAt {v : Json} (hv : Proper v) : ∀ level, '\r' ∉ dumpsAt level v := by
  induction hv with
  | null => exact fun level => by rw [dumpsAt]; decide
  | bool b =>
      cases b with
      | true => exact fun level => by rw [dumpsAt]; decide
      | false => exact fun level => by rw [dumpsAt]; decide
  | int n =>
      intro level
      rw [dumpsAt, intText_eq]
      exact return_notMem_printed (proper_toDigits _) _
  | float x =>
      intro level
      rw [dumpsAt]
      match x with
      | .nan => decide
      | .signed false .inf => decide
      | .signed true .inf => decide
      | .signed negative (.finite x) =>
        rw [floatText_finite]
        exact return_notMem_printed (ofRat_printed x).1 negative
  | str s =>
      intro level
      rw [dumpsAt]
      exact return_notMem_stringText s
  | @list items h ih =>
      have hitems (level : ℕ) : ∀ items' ⊆ items, '\r' ∉ dumpsItems level items' := by
        intro items' hsub
        induction items' with
        | nil => exact List.not_mem_nil
        | cons item items' ih' =>
            obtain ⟨hitem, hrest⟩ := List.cons_subset.mp hsub
            simp only [dumpsItems, List.mem_cons, List.mem_append, not_or]
            exact ⟨by decide, return_notMem_newline level, ih item hitem level, ih' hrest⟩
      intro level
      cases items with
      | nil => rw [dumpsAt]; decide
      | cons item items =>
          obtain ⟨-, hrest⟩ := List.cons_subset.mp (List.Subset.refl (item :: items))
          simp only [dumpsAt, List.mem_cons, List.mem_append, not_or]
          exact ⟨by decide, return_notMem_newline _, ih item List.mem_cons_self _, hitems _ _ hrest,
            return_notMem_newline _, by decide, List.not_mem_nil⟩
  | @dict entries hkeys h ih =>
      have hentries (level : ℕ) : ∀ entries' ⊆ entries, '\r' ∉ dumpsEntries level entries' := by
        intro entries' hsub
        induction entries' with
        | nil => exact List.not_mem_nil
        | cons entry entries' ih' =>
            obtain ⟨hentry, hrest⟩ := List.cons_subset.mp hsub
            simp only [dumpsEntries, List.mem_cons, List.mem_append, not_or]
            exact ⟨by decide, return_notMem_newline level, return_notMem_stringText _, by decide,
              ih entry hentry level, ih' hrest⟩
      intro level
      cases entries with
      | nil => rw [dumpsAt]; decide
      | cons entry entries =>
          obtain ⟨-, hrest⟩ := List.cons_subset.mp (List.Subset.refl (entry :: entries))
          simp only [dumpsAt, List.mem_cons, List.mem_append, not_or]
          exact ⟨by decide, return_notMem_newline _, return_notMem_stringText _, by decide,
            ih entry List.mem_cons_self _, hentries _ _ hrest, return_notMem_newline _, by decide,
            List.not_mem_nil⟩

/-! ## Round trip -/

/-- A value that is read as an atom is read back. -/
theorem readBack_atom {level : ℕ} {v : Json} (hstarts : StartsAtom (dumpsAt level v))
    (h : ∀ rest, Follows rest → scanAtom (dumpsAt level v ++ rest) = some (v, rest)) :
    ReadBack level v := by
  intro fuel rest hfuel hrest
  obtain ⟨c, t, hct, hc⟩ := hstarts
  simp only [List.contains_cons, List.contains_nil, Bool.or_false, Bool.or_eq_false_iff,
    beq_eq_false_iff_ne] at hc
  obtain ⟨-, -, -, -, -, -, hquote, hdict, hlist⟩ := hc
  have hscan := h rest hrest
  rw [hct] at hfuel
  rw [hct, List.cons_append] at hscan ⊢
  obtain ⟨fuel, rfl⟩ := exists_fuel (Nat.lt_of_succ_le hfuel)
  rw [scanValue, if_neg hquote, if_neg hdict, if_neg hlist, hscan]

/-- **Every proper value is read back**, at every level. -/
theorem readBack {v : Json} (hv : Proper v) : ∀ level, ReadBack level v := by
  induction hv with
  | null => exact fun level => readBack_atom ⟨'n', _, rfl, by decide⟩ fun rest _ => rfl
  | bool b =>
      cases b with
      | true => exact fun level => readBack_atom ⟨'t', _, rfl, by decide⟩ fun rest _ => rfl
      | false => exact fun level => readBack_atom ⟨'f', _, rfl, by decide⟩ fun rest _ => rfl
  | int n => exact fun level => readBack_atom (startsAtom_intText n) fun rest hrest => scanAtom_int n hrest
  | float x =>
      exact fun level => readBack_atom (startsAtom_floatText x) fun rest hrest => scanAtom_float x hrest
  | str s =>
      intro level fuel rest hfuel hrest
      rw [dumpsAt, length_stringText] at hfuel
      obtain ⟨fuel, rfl⟩ := exists_fuel (Nat.lt_of_succ_le hfuel)
      have hs := @scanString_text s rest fuel (by omega)
      rw [dumpsAt, stringText_append, scanValue, if_pos rfl, hs]
      rfl
  | @list items h ih =>
      intro level fuel rest hfuel hrest
      cases items with
      | nil =>
          obtain ⟨fuel, rfl⟩ := exists_fuel (Nat.lt_of_succ_le hfuel)
          rfl
      | cons item items =>
          rw [dumpsAt] at hfuel ⊢
          simp only [List.length_cons, List.length_append] at hfuel
          obtain ⟨fuel, rfl⟩ := exists_fuel (Nat.lt_of_succ_le hfuel)
          have hitems := @scanItems_dumpsItems (level + 1) level rest item items
            (fun v hv => ih v hv _) fuel (by rw [List.length_append]; omega)
          obtain ⟨c, t, hct, -, hc, -⟩ := (starts_dumpsAt (level + 1) item).append
            (dumpsItems (level + 1) items ++ (newline level ++ ']' :: rest))
          have hskip := ((starts_dumpsAt (level + 1) item).append
            (dumpsItems (level + 1) items ++ (newline level ++ ']' :: rest))).skipSpace
          simp only [List.cons_append, List.append_assoc, List.nil_append]
          rw [scanValue, if_neg (by decide), if_neg (by decide), if_pos rfl, skipSpace_newline, hskip]
          -- the first item is no closing bracket
          split
          · next heq => exact absurd (List.cons.inj (hct.symm.trans heq)).1 hc
          · rw [hitems]
            rfl
  | @dict entries hkeys h ih =>
      intro level fuel rest hfuel hrest
      cases entries with
      | nil =>
          obtain ⟨fuel, rfl⟩ := exists_fuel (Nat.lt_of_succ_le hfuel)
          rfl
      | cons entry entries =>
          rw [dumpsAt] at hfuel ⊢
          simp only [List.length_cons, List.length_append] at hfuel
          obtain ⟨fuel, rfl⟩ := exists_fuel (Nat.lt_of_succ_le hfuel)
          have hentries := @scanEntries_dumpsEntries (level + 1) level rest entry entries
            (fun e he => ih e he _) fuel (by omega)
          have hskip := ((starts_stringText entry.1).append (": ".toList ++ (dumpsAt (level + 1) entry.2 ++
            (dumpsEntries (level + 1) entries ++ (newline level ++ '\x7d' :: rest))))).skipSpace
          simp only [List.cons_append, List.append_assoc, List.nil_append]
          rw [scanValue, if_neg (by decide), if_pos rfl, skipSpace_newline, hskip]
          -- the first key is no closing brace
          split
          · next heq =>
            rw [stringText_append] at heq
            exact absurd (List.cons.inj heq).1 (by decide)
          · rw [hentries, Option.map_some, dictOf_of_nodup hkeys]

/-- **What is written is read back**, with a line break behind it. -/
theorem loads_dumps {v : Json} (hv : Proper v) : loads (dumps v ++ ['\n']) = some v := by
  have hread := readBack hv 0 ((dumps v ++ ['\n']).length + 1) ['\n']
    (by rw [List.length_append, dumps]; omega) (follows_newline 0 [])
  have hskip := ((starts_dumpsAt 0 v).append ['\n']).skipSpace
  rw [← dumps] at hread hskip
  simp only [loads, hskip, hread]
  exact if_pos rfl

end Json

end MallocBench.Text
