import MallocBench.Text.FloatTexts
import Mathlib.Tactic.Common

/-! # Words, and C's formatted input

The words of a text are its longest runs of characters that do not separate (`words`). `fscanf` takes a
text from the left: `%s` takes a word (`scanWord`), `%d` and `%u` a decimal numeral (`scanInt`,
`scanUnsigned`), each after white space. A conversion that finds no numeral stores nothing; what does
not fit the variable, C leaves undefined.

* **`words_eq_cons`**: a text with words is space, its first word, and a rest with the other words.
* **`scanWord_words`**, **`scanInt_words`**, **`scanUnsigned_words`**: the conversions take the first word
  of a text, however the words are spaced. -/

namespace MallocBench.Text

/-! ## Words -/

/-- The longest runs of characters that are no separators. -/
def words (p : Char → Bool) (s : List Char) : List (List Char) := (s.splitOnP p).filter (· ≠ [])

variable {p : Char → Bool} {s w rest : List Char} {ws : List (List Char)} {c : Char}

/-- An empty text has no words. -/
@[simp] theorem words_nil (p : Char → Bool) : words p [] = [] := by
  rw [words, List.splitOnP_nil]
  rfl

/-- A separator ends a word. -/
theorem words_append_cons (hc : p c = true) (s t : List Char) :
    words p (s ++ c :: t) = words p s ++ words p t := by
  rw [words, List.splitOnP_append_cons s t hc, List.filter_append]
  rfl

/-- White space in front does not count. -/
theorem words_cons (hc : p c = true) (s : List Char) : words p (c :: s) = words p s := by
  have h := words_append_cons hc [] s
  rwa [words_nil, List.nil_append, List.nil_append] at h

/-- A word is not empty and has no separators. -/
structure IsWord (p : Char → Bool) (w : List Char) : Prop where
  ne_nil : w ≠ []
  run : ∀ c ∈ w, p c = false

/-- A word is its only word. -/
theorem IsWord.words (hw : IsWord p w) : Text.words p w = [w] := by
  rw [Text.words, List.splitOnP_eq_singleton hw.run, List.filter_cons_of_pos (by simpa using hw.ne_nil)]
  rfl

/-- Separators before a word do not count. -/
theorem words_dropWhile (p : Char → Bool) (s : List Char) : words p (s.dropWhile p) = words p s := by
  induction s with
  | nil => rfl
  | cons c s ih =>
      by_cases hc : p c = true
      · rw [List.dropWhile_cons_of_pos hc, ih, words_cons hc]
      · rw [List.dropWhile_cons_of_neg hc]

/-- A run that reaches to a separator, or to the end, is the first word. -/
theorem IsWord.words_append (hw : IsWord p w) (hrest : ∀ c ∈ rest.head?, p c = true) :
    Text.words p (w ++ rest) = w :: Text.words p rest := by
  cases rest with
  | nil => rw [List.append_nil, hw.words, words_nil]
  | cons c rest =>
      have hc : p c = true := hrest c rfl
      rw [words_append_cons hc, hw.words, words_cons hc]
      rfl

/-- What is left of a text without the separators before it does not start with one. -/
theorem head?_dropWhile_sep (p : Char → Bool) (s : List Char) :
    ∀ c ∈ (s.dropWhile p).head?, p c = false := fun c hc => by
  have hnot := List.head?_dropWhile_not p s
  rw [hc] at hnot
  simpa using hnot

/-- **The first word**: the separators before it are dropped, it is taken whole, and the rest has the
other words. -/
theorem words_eq_cons (h : words p s = w :: ws) :
    ∃ rest, s.dropWhile p = w ++ rest ∧ IsWord p w ∧ (∀ c ∈ rest.head?, p c = true) ∧
      words p rest = ws := by
  have hfirst := head?_dropWhile_sep p s
  rw [← words_dropWhile] at h
  generalize s.dropWhile p = t at h hfirst ⊢
  have hrun : ∀ c ∈ t.takeWhile (fun c => !p c), p c = false := fun c hc => by
    simpa using List.mem_takeWhile_imp hc
  have hhead : ∀ c ∈ (t.dropWhile fun c => !p c).head?, p c = true := fun c hc => by
    simpa using head?_dropWhile_sep (fun c => !p c) t c hc
  have hne : t.takeWhile (fun c => !p c) ≠ [] := by
    cases t with
    | nil => simp at h
    | cons c t => simp [hfirst c rfl]
  have heq : words p t = t.takeWhile (fun c => !p c) :: words p (t.dropWhile fun c => !p c) := by
    rw [← IsWord.words_append ⟨hne, hrun⟩ hhead, List.takeWhile_append_dropWhile]
  obtain ⟨rfl, hws⟩ := List.cons.inj (heq.symm.trans h)
  exact ⟨_, (List.takeWhile_append_dropWhile ..).symm, ⟨hne, hrun⟩, hhead, hws⟩

/-- A text without words is all separators. -/
theorem words_eq_nil (h : words p s = []) : s.dropWhile p = [] := by
  have hfirst := head?_dropWhile_sep p s
  rw [← words_dropWhile] at h
  cases ht : s.dropWhile p with
  | nil => rfl
  | cons c t =>
      rw [ht] at hfirst h
      rw [words, List.splitOnP_cons_eq_if_modifyHead, if_neg (by simp [hfirst c rfl])] at h
      cases ht' : t.splitOnP p with
      | nil => exact absurd ht' (List.splitOnP_ne_nil p t)
      | cons w ws => simp [ht'] at h

/-- Words put together with a separator between them. -/
theorem words_intercalate (hc : p c = true) {ws : List (List Char)}
    (h : ∀ w ∈ ws, IsWord p w) : words p ([c].intercalate ws) = ws := by
  induction ws with
  | nil => exact words_nil p
  | cons w ws ih =>
      have hw := h w List.mem_cons_self
      cases ws with
      | nil => rw [List.intercalate_singleton, hw.words]
      | cons v ws =>
          rw [List.intercalate_cons_cons, List.append_assoc, List.singleton_append,
            words_append_cons hc, hw.words, ih fun u hu => h u (List.mem_cons_of_mem _ hu)]
          rfl

/-- Text put together has the characters of its parts and the one between them. -/
theorem notMem_intercalate {d : Char} (hd : d ≠ c) {ws : List (List Char)} (h : ∀ w ∈ ws, d ∉ w) :
    d ∉ [c].intercalate ws := by
  induction ws with
  | nil => exact List.not_mem_nil
  | cons w ws ih =>
      have hw := h w List.mem_cons_self
      have ih := ih fun u hu => h u (List.mem_cons_of_mem _ hu)
      cases ws with
      | nil => rwa [List.intercalate_singleton]
      | cons v ws =>
          rw [List.intercalate_cons_cons, List.mem_append, List.mem_append, List.mem_singleton]
          exact not_or.mpr ⟨not_or.mpr ⟨hw, hd⟩, ih⟩

/-- The words of lines with a separator at their ends. -/
theorem words_flatMap (hc : p c = true) (lines : List (List Char)) :
    words p (lines.flatMap (· ++ [c])) = lines.flatMap (words p) := by
  induction lines with
  | nil => exact words_nil p
  | cons l lines ih =>
      rw [List.flatMap_cons, List.append_assoc, List.singleton_append, words_append_cons hc, ih,
        List.flatMap_cons]

/-! ## Lines -/

/-- Lines, each with its end. -/
def printLines (lines : List (List Char)) : List Char := lines.flatMap (· ++ ['\n'])

/-- The lines of a text that are ended by line feeds, without them. -/
def feedLines (text : List Char) : List (List Char) :=
  let pieces := text.splitOnP fun c => c = '\n'
  -- nothing follows the last feed
  if pieces.getLast? = some [] then pieces.dropLast else pieces

/-- A piece between separators has none. -/
theorem not_sep_of_mem_splitOnP {piece : List Char} (h : piece ∈ s.splitOnP p) :
    ∀ c ∈ piece, p c = false := by
  induction s generalizing piece with
  | nil => simp_all
  | cons d s ih =>
      rw [List.splitOnP_cons_eq_if_modifyHead] at h
      split at h
      · rcases List.mem_cons.mp h with rfl | h
        · simp
        · exact ih h
      · next hd =>
        cases hs : s.splitOnP p with
        | nil => exact absurd hs (List.splitOnP_ne_nil p s)
        | cons head tail =>
            rw [hs, List.modifyHead_cons] at h
            rcases List.mem_cons.mp h with rfl | h
            · intro c hc
              rcases List.mem_cons.mp hc with rfl | hc
              · simpa using hd
              · exact ih (hs ▸ List.mem_cons_self) c hc
            · exact ih (hs ▸ List.mem_cons_of_mem _ h)

/-- What is found are words. -/
theorem isWord_of_mem_words (h : w ∈ words p s) : IsWord p w := by
  obtain ⟨hmem, hne⟩ := List.mem_filter.mp h
  exact ⟨by simpa using hne, not_sep_of_mem_splitOnP hmem⟩

/-- A line has no line feed in it. -/
theorem not_feed_of_mem_feedLines {text line : List Char} (h : line ∈ feedLines text) :
    '\n' ∉ line := by
  have hmem : line ∈ text.splitOnP fun c => c = '\n' := by
    rw [feedLines] at h
    split at h
    · exact (List.dropLast_sublist _).subset h
    · exact h
  exact fun hfeed => by simpa using not_sep_of_mem_splitOnP hmem _ hfeed

/-- Lines that are ended, and a last one that is not. -/
theorem splitOnP_feed {lines : List (List Char)} {last : List Char} (h : ∀ line ∈ lines, '\n' ∉ line)
    (hlast : '\n' ∉ last) :
    (lines.flatMap (· ++ ['\n']) ++ last).splitOnP (fun c => c = '\n') = lines ++ [last] := by
  have hpiece : ∀ {piece : List Char}, '\n' ∉ piece → ∀ c ∈ piece, decide (c = '\n') = false :=
    fun hp c hc => by
      have hne : c ≠ '\n' := fun heq => hp (heq ▸ hc)
      simpa using hne
  induction lines with
  | nil => exact List.splitOnP_eq_singleton (hpiece hlast)
  | cons line lines ih =>
      rw [List.flatMap_cons, List.append_assoc, List.append_assoc, List.singleton_append,
        List.splitOnP_append_cons_of_forall_mem (hpiece (h line List.mem_cons_self)) '\n' (by decide),
        ih fun l hl => h l (List.mem_cons_of_mem _ hl), List.cons_append]

/-- **Lines that are printed are read back.** -/
theorem feedLines_flatMap {lines : List (List Char)} (h : ∀ line ∈ lines, '\n' ∉ line) :
    feedLines (lines.flatMap (· ++ ['\n'])) = lines := by
  have hpieces := splitOnP_feed h (@List.not_mem_nil _ '\n')
  rw [List.append_nil] at hpieces
  rw [feedLines]
  simp only [hpieces]
  rw [if_pos (by simp), List.dropLast_concat]

/-- The last feed may be missing. -/
theorem feedLines_concat {lines : List (List Char)} {last : List Char}
    (h : ∀ line ∈ lines, '\n' ∉ line) (hlast : '\n' ∉ last) (hne : last ≠ []) :
    feedLines (lines.flatMap (· ++ ['\n']) ++ last) = lines ++ [last] := by
  rw [feedLines]
  simp only [splitOnP_feed h hlast]
  rw [if_neg (by simpa using hne)]

/-! ## Conversions -/

/-- `isspace`, in the locale a C program starts in. -/
def isCSpace (c : Char) : Bool := c = ' ' || (0x9 ≤ c.toNat && c.toNat ≤ 0xd)

/-- What a conversion does. -/
inductive Scan (α : Type) where
  /-- A value is stored, and `rest` follows. -/
  | stored (a : α) (rest : List Char)
  /-- There is no numeral: nothing is stored, and `rest` follows. -/
  | mismatch (rest : List Char)
  /-- The number does not fit, and C does not say what happens. -/
  | undefined

/-- `%s`, or none at the end of the text. -/
def scanWord (s : List Char) : Option (List Char × List Char) :=
  let t := s.dropWhile isCSpace
  if t = [] then none
  else some (t.takeWhile fun c => !isCSpace c, t.dropWhile fun c => !isCSpace c)

/-- A conversion of a decimal numeral with an optional sign, stored as `store` says. -/
def scanNumeral {α : Type} (store : Bool → Nat → Option α) (s : List Char) : Scan α :=
  let signed := readSign (s.dropWhile isCSpace)
  match signed.2.takeWhile isAsciiDigit with
  -- a sign alone is taken all the same
  | [] => .mismatch signed.2
  | d :: ds =>
    match store signed.1 (digitsValue (d :: ds)) with
    | some a => .stored a (signed.2.dropWhile isAsciiDigit)
    | none => .undefined

/-- What fits an `int`. -/
def storeInt (negative : Bool) (n : Nat) : Option Int :=
  if negative then if n ≤ 2 ^ 31 then some (-n) else none
  else if n < 2 ^ 31 then some n else none

/-- What fits an `unsigned`; a minus sign negates modulo `2 ^ 32`. -/
def storeUnsigned (negative : Bool) (n : Nat) : Option Nat :=
  if n < 2 ^ 32 then some (if negative then (2 ^ 32 - n) % 2 ^ 32 else n) else none

/-- `%d`. -/
def scanInt (s : List Char) : Scan Int := scanNumeral storeInt s

/-- `%u`. -/
def scanUnsigned (s : List Char) : Scan Nat := scanNumeral storeUnsigned s

/-- A numeral as it is printed. -/
def numeralText (negative : Bool) (n : Nat) : List Char :=
  (if negative then ['-'] else []) ++ Nat.toDigits 10 n

/-- What `printf` writes for an `int`. -/
def intText (i : Int) : List Char := numeralText (decide (i < 0)) i.natAbs

/-! ## Conversions of words -/

/-- A digit is no white space. -/
theorem isCSpace_of_isAsciiDigit (h : isAsciiDigit c = true) : isCSpace c = false := by
  have hne : c ≠ ' ' := by
    rintro rfl
    exact absurd h (by decide)
  rw [isAsciiDigit_iff] at h
  have hhigh : ¬ c.toNat ≤ 0xd := by omega
  simp [isCSpace, hne, hhigh]

/-- A word is taken whole. -/
theorem scanWord_words (h : words isCSpace s = w :: ws) :
    ∃ rest, scanWord s = some (w, rest) ∧ words isCSpace rest = ws ∧ rest.length < s.length := by
  obtain ⟨rest, hdrop, ⟨hne, hrun⟩, hhead, hws⟩ := words_eq_cons h
  have htake : (w ++ rest).takeWhile (fun c => !isCSpace c) = w := by
    rw [List.takeWhile_append_of_pos fun d hd => by simpa using hrun d hd]
    cases rest with
    | nil => simp
    | cons d rest => rw [List.takeWhile_cons_of_neg (by simp [hhead d rfl]), List.append_nil]
  have hafter : (w ++ rest).dropWhile (fun c => !isCSpace c) = rest := by
    rw [List.dropWhile_append_of_pos fun d hd => by simpa using hrun d hd]
    cases rest with
    | nil => rfl
    | cons d rest => rw [List.dropWhile_cons_of_neg (by simp [hhead d rfl])]
  refine ⟨rest, ?_, hws, ?_⟩
  · rw [scanWord, hdrop, if_neg (List.append_ne_nil_of_left_ne_nil hne rest), htake, hafter]
  · have hle : (s.dropWhile isCSpace).length ≤ s.length := (List.dropWhile_sublist _).length_le
    have hpos := List.length_pos_of_ne_nil hne
    rw [hdrop, List.length_append] at hle
    omega

/-- At the end there is no word. -/
theorem scanWord_eq_none (h : words isCSpace s = []) : scanWord s = none := by
  rw [scanWord, words_eq_nil h, if_pos rfl]

/-- The digits of a numeral, read up to white space. -/
theorem takeWhile_numeral (n : Nat) (hrest : ∀ c ∈ rest.head?, isCSpace c = true) :
    (Nat.toDigits 10 n ++ rest).takeWhile isAsciiDigit = Nat.toDigits 10 n ∧
      (Nat.toDigits 10 n ++ rest).dropWhile isAsciiDigit = rest := by
  rw [List.takeWhile_append_of_pos fun _ => isAsciiDigit_toDigits,
    List.dropWhile_append_of_pos fun _ => isAsciiDigit_toDigits]
  cases rest with
  | nil => simp
  | cons d rest =>
      have hd : ¬ isAsciiDigit d = true := fun h => by
        have := isCSpace_of_isAsciiDigit h
        rw [hrest d rfl] at this
        exact Bool.noConfusion this
      rw [List.takeWhile_cons_of_neg hd, List.dropWhile_cons_of_neg hd]
      simp

/-- The sign of a number is read. -/
theorem readSign_numeralText (negative : Bool) (n : Nat) (rest : List Char) :
    readSign (numeralText negative n ++ rest) = (negative, Nat.toDigits 10 n ++ rest) := by
  cases negative with
  | true => rfl
  | false =>
      obtain ⟨d, ds, hds⟩ := List.exists_cons_of_ne_nil (Nat.toDigits_ne_nil (b := 10) (n := n))
      have hdigit : isAsciiDigit d = true := isAsciiDigit_toDigits (n := n) (hds ▸ List.mem_cons_self)
      show readSign (Nat.toDigits 10 n ++ rest) = _
      rw [hds, List.cons_append, readSign]
      · rintro rest' heq
        obtain ⟨rfl, -⟩ := List.cons.inj heq
        exact absurd hdigit (by decide)
      · rintro rest' heq
        obtain ⟨rfl, -⟩ := List.cons.inj heq
        exact absurd hdigit (by decide)

/-- A printed number is a word. -/
theorem numeralText_word (negative : Bool) (n : Nat) : IsWord isCSpace (numeralText negative n) := by
  refine ⟨List.append_ne_nil_of_right_ne_nil _ Nat.toDigits_ne_nil, fun c hc => ?_⟩
  rcases List.mem_append.mp hc with hminus | hdigit
  · cases negative with
    | true =>
        rw [List.mem_singleton.mp hminus]
        decide
    | false => cases hminus
  · exact isCSpace_of_isAsciiDigit (isAsciiDigit_toDigits hdigit)

/-- The digits of a number are a word. -/
theorem toDigits_word (n : Nat) : IsWord isCSpace (Nat.toDigits 10 n) := numeralText_word false n

/-- So is the text of an integer. -/
theorem intText_word (i : Int) : IsWord isCSpace (intText i) := numeralText_word _ _

/-- **A printed number is stored**, when it fits. -/
theorem scanNumeral_words {negative : Bool} {n : Nat}
    (h : words isCSpace s = numeralText negative n :: ws) :
    ∃ rest, words isCSpace rest = ws ∧ (∀ c ∈ rest.head?, isCSpace c = true) ∧
      rest.length < s.length ∧ ∀ {α : Type} {store : Bool → Nat → Option α} {a : α},
        store negative n = some a → scanNumeral store s = .stored a rest := by
  obtain ⟨rest, hdrop, ⟨hne, -⟩, hhead, hws⟩ := words_eq_cons h
  obtain ⟨htake, hafter⟩ := takeWhile_numeral n hhead
  refine ⟨rest, hws, hhead, ?_, fun {α store a} hstore => ?_⟩
  · have hle : (s.dropWhile isCSpace).length ≤ s.length := (List.dropWhile_sublist _).length_le
    have hpos := List.length_pos_of_ne_nil hne
    rw [hdrop, List.length_append] at hle
    omega
  · rw [scanNumeral, hdrop, readSign_numeralText]
    simp only [htake, hafter]
    cases hds : Nat.toDigits 10 n with
    | nil => exact absurd hds Nat.toDigits_ne_nil
    | cons d ds => simp only [← hds, digitsValue_toDigits, hstore]

/-- **`%d` stores a printed `int`.** -/
theorem scanInt_words {i : Int} (h : words isCSpace s = intText i :: ws) (hlow : -2 ^ 31 ≤ i)
    (hhigh : i < 2 ^ 31) :
    ∃ rest, scanInt s = .stored i rest ∧ words isCSpace rest = ws ∧ rest.length < s.length := by
  obtain ⟨rest, hws, -, hlen, hstored⟩ := scanNumeral_words h
  refine ⟨rest, hstored ?_, hws, hlen⟩
  by_cases hi : i < 0
  · rw [storeInt, if_pos (by simpa using hi), if_pos (by omega)]
    exact congrArg some (by omega)
  · rw [storeInt, if_neg (by simpa using hi), if_pos (by omega)]
    exact congrArg some (by omega)

/-- **`%u` stores a printed natural number** below `2 ^ 32`, and stops at white space. -/
theorem scanUnsigned_words {n : Nat} (h : words isCSpace s = Nat.toDigits 10 n :: ws)
    (hn : n < 2 ^ 32) :
    ∃ rest, scanUnsigned s = .stored n rest ∧ words isCSpace rest = ws ∧
      (∀ c ∈ rest.head?, isCSpace c = true) ∧ rest.length < s.length := by
  have hword : words isCSpace s = numeralText false n :: ws := h
  obtain ⟨rest, hws, hhead, hlen, hstored⟩ := scanNumeral_words hword
  exact ⟨rest, hstored (by rw [storeUnsigned, if_pos hn]; rfl), hws, hhead, hlen⟩

end MallocBench.Text
