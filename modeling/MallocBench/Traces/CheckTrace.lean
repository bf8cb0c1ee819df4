import MallocBench.Allocator.Accounting
import MallocBench.Traces.TraceFile
import Mathlib.Data.List.AList

/-! # The trace checker (`traces/checktrace.pl`)

The script reads a trace, keeps the outstanding allocations in a hash under their ids, dies at the first
request that does not fit, and prints the trace with a release for every id that is left, so that it is
balanced. Blank lines are dropped; nothing else is changed but the number of requests.

* **`checkTrace_fixed`**: what the script prints it prints again, when the number of requests is in range.
* **`checkTrace_documented`**: on a documented trace it dies exactly when the trace is not consistent, and
  prints the balanced trace otherwise. -/

namespace MallocBench

open Text

/-! ## The script -/

/-- `%HASH`: the command that was last seen under an id. -/
abbrev TraceHash := AList fun _ : List Char => List Char

/-- `$HASH{$id}`. -/
def TraceHash.entry (hash : TraceHash) (id : List Char) : Option (List Char) := hash.lookup id

/-- The calls of `die`. -/
inductive CheckError where
  | realloc (linenum : Nat)
  | allocate (linenum : Nat)
  | reused (linenum : Nat) (id : List Char)
  | unallocated (linenum : Nat)
  | freed (linenum : Nat)
  | residue
  deriving DecidableEq

/-- What `die` prints, for the script's name `$0`. -/
def CheckError.message (script : List Char) : CheckError → List Char
  | .realloc n => script ++ ": ERROR[".toList ++ Nat.toDigits 10 n ++
      "]: realloc without previous alloc\n".toList
  | .allocate n => script ++ ": ERROR[".toList ++ Nat.toDigits 10 n ++
      "]: allocate with no intervening free.\n".toList
  | .reused n id => script ++ ": ERROR[".toList ++ Nat.toDigits 10 n ++ "]: reused ID ".toList ++ id ++
      ".\n".toList
  | .unallocated n => script ++ ": ERROR[".toList ++ Nat.toDigits 10 n ++
      "]: freeing unallocated block.\n".toList
  | .freed n => script ++ ": ERROR[".toList ++ Nat.toDigits 10 n ++
      "]: freeing already freed block.\n".toList
  | .residue => script ++ ": ERROR: Invalid free request in residue.\n".toList

/-- The texts that are false. -/
def isFalsy (s : List Char) : Bool := s = [] || s = ['0']

/-- `!`, as a text. -/
def perlNot (s : List Char) : List Char := if isFalsy s then ['1'] else []

/-- One pass of the loop over the requests, with the hash after it, or none for a line that is skipped.
What is undefined is compared as the empty text. -/
def checkLine (linenum : Nat) (hash : TraceHash) (line : List Char) :
    Except CheckError (Option TraceHash) :=
  let fields := Text.words isCSpace line
  let cmd := fields.headD []
  let id := fields.tail.headD []
  let entry := (hash.entry id).getD []
  if isFalsy cmd then .ok none
  else if cmd = ['r'] then if isFalsy entry then .error (.realloc linenum) else .ok (some hash)
  else if cmd = ['a'] ∧ entry = ['a'] then .error (.allocate linenum)
  else if cmd = ['a'] ∧ entry = ['f'] then .error (.reused linenum id)
  else if cmd = ['f'] ∧ hash.entry id = none then .error (.unallocated linenum)
  -- `!` binds more tightly than `eq`
  else if cmd = ['f'] ∧ perlNot entry = ['f'] then .error (.freed linenum)
  else if cmd = ['f'] then .ok (some (hash.erase id))
  else .ok (some (hash.insert id cmd))

/-- The loop: the lines that are kept for the output, and the hash at the end. -/
def checkLines (linenum : Nat) (hash : TraceHash) :
    List (List Char) → Except CheckError (List (List Char) × TraceHash)
  | [] => .ok ([], hash)
  | line :: rest =>
    match checkLine (linenum + 1) hash line with
    | .error e => .error e
    | .ok none => checkLines (linenum + 1) hash rest
    | .ok (some hash) =>
      match checkLines (linenum + 1) hash rest with
      | .error e => .error e
      | .ok (kept, hash) => .ok (line :: kept, hash)

/-- A text plus a count, as `print` prints the sum. A numeral with no more than white space after it is
added in 64 bits. Any other text stands for the numeral at its front, or 0, as a double, which is printed
with 15 digits. `none` where the sum is not printed as an integer: it is out of these ranges, or the text
has a fraction, an exponent or a word for infinity. -/
def perlSum (s : List Char) (n : Nat) : Option (List Char) :=
  let signed := readSign (s.dropWhile isCSpace)
  let digits := signed.2.takeWhile isAsciiDigit
  let rest := signed.2.dropWhile isAsciiDigit
  let i : Int := if signed.1 then -digitsValue digits else digitsValue digits
  let numeral := digits ≠ [] ∧ rest.all isCSpace = true
  if rest.head?.any fun c => ".eEiInN".toList.contains c then none
  else if (numeral ∧ -2 ^ 63 ≤ i ∧ i + n < 2 ^ 64) ∨ (-10 ^ 15 < i ∧ i + n < 10 ^ 15) then
    some (intText (i + n))
  else none

/-- `a cmp b` is not positive. -/
def textLE : List Char → List Char → Bool
  | [], _ => true
  | _ :: _, [] => false
  | a :: s, b :: t => a.toNat < b.toNat || a.toNat = b.toNat && textLE s t

/-- `sort`. -/
def sortKeys (keys : List (List Char)) : List (List Char) := keys.mergeSort textLE

/-- The request that releases an id. -/
def freeLine (id : List Char) : List Char := 'f' :: ' ' :: id

/-- The last loop: the lines printed, and whether it dies. -/
def balancingLines (hash : TraceHash) : List (List Char) → List (List Char) × Option CheckError
  | [] => ([], none)
  | key :: keys =>
    if hash.entry key ≠ some ['a'] ∧ hash.entry key ≠ some ['r'] then ([], some .residue)
    else
      let rest := balancingLines hash keys
      (freeLine key :: rest.1, rest.2)

/-- What the script does: what it writes to its standard output, and how it dies if it does. -/
structure CheckOutcome where
  stdout : List Char
  died : Option CheckError
  deriving DecidableEq

/-- `checktrace.pl` without `-s`, on the text of its standard input. `none` when the new number of requests
is not printed as an integer. A header line that is missing is printed as an empty one. -/
def checkTrace (text : List Char) : Option CheckOutcome :=
  let lines := feedLines text
  let header := fun n => (lines[n]?).getD []
  match checkLines 4 ∅ (lines.drop 4) with
  | .error e => some ⟨[], some e⟩
  | .ok (kept, hash) =>
    (perlSum (header 2) hash.keys.length).map fun newNumOps =>
      let frees := balancingLines hash (sortKeys hash.keys)
      ⟨printLines ([header 0, header 1, newNumOps, header 3] ++ kept ++ frees.1), frees.2⟩

/-- `checktrace.pl -s`. -/
def checkBalance (text : List Char) : CheckOutcome :=
  match checkLines 4 ∅ ((feedLines text).drop 4) with
  | .error e => ⟨[], some e⟩
  | .ok (_, hash) =>
    ⟨if hash.keys = [] then "Balanced trace.\n".toList else "Unbalanced tree.\n".toList, none⟩

/-! ## What is printed is checked again -/

/-- **A sum in range is exact**, for a number as it is printed. -/
theorem perlSum_intText {i : Int} {n : Nat} (hlow : -2 ^ 63 ≤ i) (hhigh : i + n < 2 ^ 64) :
    perlSum (intText i) n = some (intText (i + n)) := by
  have hdrop : (intText i).dropWhile isCSpace = intText i := by
    obtain ⟨hne, hrun⟩ := intText_word i
    obtain ⟨c, t, hct⟩ := List.exists_cons_of_ne_nil hne
    rw [hct, List.dropWhile_cons_of_neg (by simp [hrun c (hct ▸ List.mem_cons_self)])]
  have hsign : readSign (intText i) = (decide (i < 0), Nat.toDigits 10 i.natAbs) := by
    have h := readSign_numeralText (decide (i < 0)) i.natAbs []
    rwa [List.append_nil, List.append_nil] at h
  obtain ⟨htake, hafter⟩ := @takeWhile_numeral [] i.natAbs (by simp)
  rw [List.append_nil] at htake hafter
  have hvalue : (if decide (i < 0) = true then -(i.natAbs : Int) else i.natAbs) = i := by
    simp only [decide_eq_true_eq]
    split <;> omega
  rw [perlSum, hdrop, hsign]
  simp only [htake, hafter, List.head?_nil, Option.any_none, Bool.false_eq_true, if_false,
    digitsValue_toDigits, hvalue]
  exact if_pos (.inl ⟨⟨Nat.toDigits_ne_nil, by simp⟩, hlow, hhigh⟩)

/-- A sum that is printed is in the range of 64 bits. -/
theorem exists_of_perlSum {s out : List Char} {n : Nat} (h : perlSum s n = some out) :
    ∃ i : Int, out = intText i ∧ -2 ^ 63 ≤ i ∧ i < 2 ^ 64 := by
  unfold perlSum at h
  dsimp only at h
  generalize (if (readSign (s.dropWhile isCSpace)).1 then _ else _ : Int) = i at h
  split_ifs at h with hrest hrange
  refine ⟨i + n, (Option.some.inj h).symm, ?_, ?_⟩
  · omega
  · omega

/-- A text that is no numeral stands for the one at its front. -/
example : perlSum " 12 ops".toList 3 = some "15".toList := by decide +kernel

/-- The largest number of 64 bits is added as a double. -/
example : perlSum "18446744073709551615".toList 1 = none := by decide +kernel

/-- A line that passes passes at any line number. -/
theorem checkLine_linenum {n : Nat} {hash : TraceHash} {line : List Char} {next : Option TraceHash}
    (h : checkLine n hash line = .ok next) (m : Nat) : checkLine m hash line = .ok next := by
  revert h
  unfold checkLine
  dsimp only
  split_ifs <;> simp

/-- A loop that ends skips its first line, or keeps it. -/
theorem checkLines_cons {n : Nat} {hash hash' : TraceHash} {line : List Char}
    {lines kept : List (List Char)} (h : checkLines n hash (line :: lines) = .ok (kept, hash')) :
    (checkLine (n + 1) hash line = .ok none ∧ checkLines (n + 1) hash lines = .ok (kept, hash')) ∨
      ∃ hash₁ rest, checkLine (n + 1) hash line = .ok (some hash₁) ∧
        checkLines (n + 1) hash₁ lines = .ok (rest, hash') ∧ kept = line :: rest := by
  rw [checkLines] at h
  split at h
  · cases h
  · next hline => exact .inl ⟨hline, h⟩
  · next hash₁ hline =>
    split at h
    · cases h
    · next rest hash₂ hrest =>
      obtain ⟨rfl, rfl⟩ := Prod.mk.inj (Except.ok.inj h)
      exact .inr ⟨hash₁, rest, hline, hrest, rfl⟩

/-- A line that is skipped, and one that is kept. -/
theorem checkLines_skip {n : Nat} {hash : TraceHash} {line : List Char}
    (h : checkLine (n + 1) hash line = .ok none) (lines : List (List Char)) :
    checkLines n hash (line :: lines) = checkLines (n + 1) hash lines := by
  simp only [checkLines, h]

/-- The rest of the trace comes after a line that is kept. -/
theorem checkLines_keep {n : Nat} {hash hash₁ hash' : TraceHash} {line : List Char}
    {lines rest : List (List Char)} (h : checkLine (n + 1) hash line = .ok (some hash₁))
    (hrest : checkLines (n + 1) hash₁ lines = .ok (rest, hash')) :
    checkLines n hash (line :: lines) = .ok (line :: rest, hash') := by
  simp only [checkLines, h, hrest]

/-- The loop on two parts of a trace. -/
theorem checkLines_append {n : Nat} {hash hash₁ hash₂ : TraceHash} {a b kept kept' : List (List Char)}
    (ha : checkLines n hash a = .ok (kept, hash₁))
    (hb : ∀ m, checkLines m hash₁ b = .ok (kept', hash₂)) :
    checkLines n hash (a ++ b) = .ok (kept ++ kept', hash₂) := by
  induction a generalizing n hash kept with
  | nil =>
      obtain ⟨rfl, rfl⟩ := Prod.mk.inj (Except.ok.inj ha)
      exact hb n
  | cons line a ih =>
      obtain ⟨hline, hrest⟩ | ⟨hash', rest, hline, hrest, rfl⟩ := checkLines_cons ha
      · rw [List.cons_append, checkLines_skip hline, ih hrest]
      · exact checkLines_keep hline (ih hrest)

/-- The lines that are kept lead to the same hash, and all of them are kept again. -/
theorem checkLines_kept {n : Nat} {hash hash' : TraceHash} {lines kept : List (List Char)}
    (h : checkLines n hash lines = .ok (kept, hash')) (m : Nat) :
    checkLines m hash kept = .ok (kept, hash') := by
  induction lines generalizing n m hash kept with
  | nil =>
      obtain ⟨rfl, rfl⟩ := Prod.mk.inj (Except.ok.inj h)
      rfl
  | cons line lines ih =>
      obtain ⟨-, hrest⟩ | ⟨hash₁, rest, hline, hrest, rfl⟩ := checkLines_cons h
      · exact ih hrest m
      · exact checkLines_keep (checkLine_linenum hline (m + 1)) (ih hrest (m + 1))

/-- The lines that are kept are lines of the trace. -/
theorem mem_of_mem_kept {n : Nat} {hash hash' : TraceHash} {lines kept : List (List Char)}
    (h : checkLines n hash lines = .ok (kept, hash')) : ∀ line ∈ kept, line ∈ lines := by
  induction lines generalizing n hash kept with
  | nil =>
      obtain ⟨rfl, -⟩ := Prod.mk.inj (Except.ok.inj h)
      exact fun line hline => hline
  | cons line lines ih =>
      intro l hl
      obtain ⟨-, hrest⟩ | ⟨hash₁, rest, -, hrest, rfl⟩ := checkLines_cons h
      · exact List.mem_cons_of_mem _ (ih hrest l hl)
      · exact (List.mem_cons.mp hl).elim (fun heq => heq ▸ List.mem_cons_self)
          fun hmem => List.mem_cons_of_mem _ (ih hrest l hmem)

/-! ## Releases -/

/-- The ids in a hash are words, or the empty text for an id that is missing. -/
def TraceHash.Shaped (hash : TraceHash) : Prop := ∀ key ∈ hash, key = [] ∨ IsWord isCSpace key

/-- A line leaves words as keys. -/
theorem checkLine_shaped {n : Nat} {hash hash' : TraceHash} {line : List Char}
    (h : checkLine n hash line = .ok (some hash')) (hs : hash.Shaped) : hash'.Shaped := by
  have hid : (Text.words isCSpace line).tail.headD [] = [] ∨
      IsWord isCSpace ((Text.words isCSpace line).tail.headD []) := by
    cases htail : (Text.words isCSpace line).tail with
    | nil => exact .inl rfl
    | cons w ws => exact .inr (isWord_of_mem_words (List.mem_of_mem_tail (htail ▸ List.mem_cons_self)))
  revert h
  unfold checkLine
  dsimp only
  split_ifs
  · simp
  · simp
  · rintro h
    obtain rfl := Option.some.inj (Except.ok.inj h)
    exact hs
  · simp
  · simp
  · simp
  · simp
  · rintro h
    obtain rfl := Option.some.inj (Except.ok.inj h)
    exact fun key hkey => hs key (AList.mem_erase.mp hkey).2
  · rintro h
    obtain rfl := Option.some.inj (Except.ok.inj h)
    intro key hkey
    rcases AList.mem_insert _ |>.mp hkey with rfl | hkey
    · exact hid
    · exact hs key hkey

/-- So does the whole loop. -/
theorem checkLines_shaped {n : Nat} {hash hash' : TraceHash} {lines kept : List (List Char)}
    (h : checkLines n hash lines = .ok (kept, hash')) (hs : hash.Shaped) : hash'.Shaped := by
  induction lines generalizing n hash kept with
  | nil =>
      obtain ⟨-, rfl⟩ := Prod.mk.inj (Except.ok.inj h)
      exact hs
  | cons line lines ih =>
      obtain ⟨-, hrest⟩ | ⟨hash₁, rest, hline, hrest, -⟩ := checkLines_cons h
      · exact ih hrest hs
      · exact ih hrest (checkLine_shaped hline hs)

/-- A negation is never the command of a release. -/
theorem perlNot_ne (s : List Char) : perlNot s ≠ ['f'] := by
  unfold perlNot
  split <;> simp

/-- The id of a release is read back. -/
theorem id_freeLine {key : List Char} (h : key = [] ∨ IsWord isCSpace key) :
    (Text.words isCSpace (freeLine key)).headD [] = ['f'] ∧
      (Text.words isCSpace (freeLine key)).tail.headD [] = key := by
  have hf : IsWord isCSpace ['f'] := ⟨by simp, List.forall_mem_singleton.mpr rfl⟩
  have hblank : ∀ c ∈ (' ' :: key).head?, isCSpace c = true := by
    rintro c ⟨⟩
    decide
  have hwords : Text.words isCSpace (freeLine key) = ['f'] :: Text.words isCSpace key :=
    (hf.words_append hblank).trans (by rw [words_cons (by decide)])
  rw [hwords]
  refine ⟨rfl, ?_⟩
  rcases h with rfl | hkey
  · rw [words_nil]
    rfl
  · rw [hkey.words]
    rfl

/-- A release of an id in the hash takes it out. -/
theorem checkLine_free {hash : TraceHash} {key : List Char} (hkey : key ∈ hash)
    (hshape : key = [] ∨ IsWord isCSpace key) (n : Nat) :
    checkLine n hash (freeLine key) = .ok (some (hash.erase key)) := by
  obtain ⟨hcmd, hid⟩ := id_freeLine hshape
  have hentry : hash.entry key ≠ none := fun hnone => AList.lookup_eq_none.mp hnone hkey
  have hpass : isFalsy ['f'] = false := by decide
  simp only [checkLine, hcmd, hid, hpass, Bool.false_eq_true, if_false, if_true, perlNot_ne, hentry,
    and_false, List.cons.injEq, Char.reduceEq, false_and, and_true]

/-- Releases of all ids in the hash leave it empty. -/
theorem checkLines_frees {hash : TraceHash} {keys : List (List Char)} (hkeys : hash.keys.Perm keys)
    (hs : hash.Shaped) (n : Nat) :
    checkLines n hash (keys.map freeLine) = .ok (keys.map freeLine, ∅) := by
  induction keys generalizing hash n with
  | nil =>
      have hempty : hash = ∅ := by
        have hnil : hash.keys = [] := hkeys.eq_nil
        exact AList.ext (List.map_eq_nil_iff.mp hnil)
      rw [hempty]
      rfl
  | cons key keys ih =>
      have hmem : key ∈ hash := AList.mem_keys.mpr (hkeys.mem_iff.mpr List.mem_cons_self)
      have herase : (hash.erase key).keys.Perm keys := by
        rw [AList.keys_erase]
        exact ((@List.perm_cons_erase _ instBEqOfDecidableEq _ _ _ hmem).symm.trans hkeys).cons_inv
      rw [List.map_cons]
      exact checkLines_keep (checkLine_free hmem (hs key hmem) (n + 1))
        (ih herase (fun k hk => hs k (AList.mem_erase.mp hk).2) (n + 1))

/-- When the last loop ends, there is a release for each key. -/
theorem balancingLines_of_done {hash : TraceHash} {keys : List (List Char)}
    (h : (balancingLines hash keys).2 = none) : (balancingLines hash keys).1 = keys.map freeLine := by
  induction keys with
  | nil => rfl
  | cons key keys ih =>
      rw [balancingLines] at h ⊢
      split at h
      · cases h
      · next hlive =>
        rw [if_neg hlive]
        exact congrArg (freeLine key :: ·) (ih h)

/-- A release has no line feed in it. -/
theorem feed_notMem_freeLine {key : List Char} (h : key = [] ∨ IsWord isCSpace key) :
    '\n' ∉ freeLine key := by
  have hword : ∀ {w : List Char}, IsWord isCSpace w → '\n' ∉ w := fun hw hfeed =>
    absurd (hw.run _ hfeed) (by decide)
  intro hfeed
  simp only [freeLine, List.mem_cons, Char.reduceEq, false_or] at hfeed
  rcases h with rfl | hkey
  · cases hfeed
  · exact hword hkey hfeed

/-- The trace that is made of four header lines and the lines of a loop that ends: it is printed with
the lines that are kept and a release for every id left. -/
theorem checkTrace_printLines {h₀ h₁ h₃ : List Char} {i : Int} {lines kept : List (List Char)}
    {hash : TraceHash} (hfeed : ∀ line ∈ [h₀, h₁, intText i, h₃] ++ lines, '\n' ∉ line)
    (hloop : checkLines 4 ∅ lines = .ok (kept, hash)) (hlow : -2 ^ 63 ≤ i)
    (hhigh : i + hash.keys.length < 2 ^ 64) :
    checkTrace (printLines ([h₀, h₁, intText i, h₃] ++ lines)) =
      some ⟨printLines ([h₀, h₁, intText (i + hash.keys.length), h₃] ++ kept ++
        (balancingLines hash (sortKeys hash.keys)).1), (balancingLines hash (sortKeys hash.keys)).2⟩ := by
  have hlines : feedLines (printLines ([h₀, h₁, intText i, h₃] ++ lines)) =
      [h₀, h₁, intText i, h₃] ++ lines := feedLines_flatMap hfeed
  have hdrop : ([h₀, h₁, intText i, h₃] ++ lines).drop 4 = lines := rfl
  rw [checkTrace]
  simp only [hlines, hdrop, hloop]
  simp [perlSum_intText hlow hhigh]

/-- **What is printed is printed again.** The output of a run that does not die, with a number of requests
that is printed as an integer, is a trace that the script prints as it is. -/
theorem checkTrace_fixed {text out : List Char} (h : checkTrace text = some ⟨out, none⟩) :
    checkTrace out = some ⟨out, none⟩ := by
  rw [checkTrace] at h
  dsimp only at h
  generalize hlines : feedLines text = lines at h
  have hfeed : ∀ line ∈ lines, '\n' ∉ line := fun line hl =>
    not_feed_of_mem_feedLines (hlines.symm ▸ hl)
  split at h
  · cases h
  · next kept hash hloop =>
    obtain ⟨sum, hsum, heq⟩ := Option.map_eq_some_iff.mp h
    obtain ⟨i, rfl, hlow, hhigh⟩ := exists_of_perlSum hsum
    obtain ⟨hout, hdone⟩ := CheckOutcome.mk.inj heq
    rw [balancingLines_of_done hdone, List.append_assoc] at hout
    -- the second run keeps all lines, and its releases leave nothing
    have hshaped := checkLines_shaped hloop fun key hkey => absurd hkey (AList.notMem_empty key)
    have hperm : hash.keys.Perm (sortKeys hash.keys) := (List.mergeSort_perm _ _).symm
    have hagain : checkLines 4 ∅ (kept ++ (sortKeys hash.keys).map freeLine) =
        .ok (kept ++ (sortKeys hash.keys).map freeLine, ∅) :=
      checkLines_append (checkLines_kept hloop 4) (checkLines_frees hperm hshaped)
    have hheader : ∀ n : Nat, '\n' ∉ (lines[n]?).getD [] := by
      intro n
      cases hn : lines[n]? with
      | none => simp
      | some line => exact hfeed line (List.mem_of_getElem? hn)
    have hno : ∀ line ∈ [(lines[0]?).getD [], (lines[1]?).getD [],
        intText i, (lines[3]?).getD []] ++
          (kept ++ (sortKeys hash.keys).map freeLine), '\n' ∉ line := by
      intro line hl
      simp only [List.mem_append, List.mem_cons, List.not_mem_nil, or_false, List.mem_map] at hl
      rcases hl with (rfl | rfl | rfl | rfl) | hkept | ⟨key, hkey, rfl⟩
      · exact hheader 0
      · exact hheader 1
      · exact fun hmem => absurd ((intText_word _).run _ hmem) (by decide)
      · exact hheader 3
      · exact hfeed line (List.mem_of_mem_drop (mem_of_mem_kept hloop line hkept))
      · exact feed_notMem_freeLine (hshaped key (AList.mem_keys.mpr (hperm.mem_iff.mpr hkey)))
    rw [← hout, checkTrace_printLines hno hagain hlow (by simpa using hhigh)]
    simp [sortKeys, balancingLines]

/-- The output for a trace with a blank line and without its last line feed. -/
theorem checkTrace_fixed_sample :
    checkTrace "9\n2\n4\n1\na 0 5\na 1 6\nf 1\nf 0\n".toList =
      some ⟨"9\n2\n4\n1\na 0 5\na 1 6\nf 1\nf 0\n".toList, none⟩ := by
  have hrun : checkTrace "9\n2\n3\n1\na 0 5\n\na 1 6\nf 1".toList =
      some ⟨"9\n2\n4\n1\na 0 5\na 1 6\nf 1\nf 0\n".toList, none⟩ := by decide +kernel
  exact checkTrace_fixed hrun

/-! ## Documented traces -/

/-- The request names a live id, or a fresh one to allocate. -/
def Request.Fits (live : Finset Nat) : Request → Prop
  | .malloc index _ => index ∉ live
  | .realloc index _ => index ∈ live
  | .free index => index ∈ live

/-- All requests fit, one after the other. -/
def Consistent (live : Finset Nat) : List Request → Prop
  | [] => True
  | r :: rest => r.Fits live ∧ Consistent (r.liveAfter live) rest

/-- The hash holds the live ids. -/
structure TraceHash.Tracks (hash : TraceHash) (live : Finset Nat) : Prop where
  entry : ∀ i ∈ live, hash.entry (Nat.toDigits 10 i) = some ['a']
  keys : ∀ key ∈ hash, ∃ i ∈ live, key = Nat.toDigits 10 i

namespace TraceHash.Tracks

variable {hash : TraceHash} {live : Finset Nat} {r : Request}

/-- At the start nothing is live. -/
theorem empty : TraceHash.Tracks ∅ ∅ :=
  ⟨fun i hi => absurd hi (Finset.notMem_empty i), fun key hkey => absurd hkey (AList.notMem_empty key)⟩

/-- An id that is not live has no entry. -/
theorem entry_eq_none (h : hash.Tracks live) {i : Nat} (hi : i ∉ live) :
    hash.entry (Nat.toDigits 10 i) = none := by
  refine AList.lookup_eq_none.mpr fun hmem => ?_
  obtain ⟨j, hj, hij⟩ := h.keys _ hmem
  exact hi (toDigits_inj hij ▸ hj)

/-- An allocation adds its id. -/
theorem insert (h : hash.Tracks live) (i : Nat) :
    TraceHash.Tracks (AList.insert (Nat.toDigits 10 i) ['a'] hash) (Insert.insert i live) := by
  refine ⟨fun j hj => ?_, fun key hkey => ?_⟩
  · by_cases hij : j = i
    · rw [hij]
      exact AList.lookup_insert hash
    · have hne : Nat.toDigits 10 j ≠ Nat.toDigits 10 i := fun heq => hij (toDigits_inj heq)
      exact (AList.lookup_insert_ne hne).trans (h.entry j (Finset.mem_of_mem_insert_of_ne hj hij))
  · rcases (AList.mem_insert hash).mp hkey with rfl | hkey
    · exact ⟨i, Finset.mem_insert_self i live, rfl⟩
    · obtain ⟨j, hj, rfl⟩ := h.keys key hkey
      exact ⟨j, Finset.mem_insert_of_mem hj, rfl⟩

/-- A release takes its id out. -/
theorem erase (h : hash.Tracks live) (i : Nat) :
    TraceHash.Tracks (AList.erase (Nat.toDigits 10 i) hash) (live.erase i) := by
  refine ⟨fun j hj => ?_, fun key hkey => ?_⟩
  · obtain ⟨hij, hj⟩ := Finset.mem_erase.mp hj
    have hne : Nat.toDigits 10 j ≠ Nat.toDigits 10 i := fun heq => hij (toDigits_inj heq)
    exact (AList.lookup_erase_ne hne).trans (h.entry j hj)
  · obtain ⟨hne, hkey⟩ := AList.mem_erase.mp hkey
    obtain ⟨j, hj, rfl⟩ := h.keys key hkey
    exact ⟨j, Finset.mem_erase.mpr ⟨fun heq => hne (heq ▸ rfl), hj⟩, rfl⟩

/-- A request that fits passes, and the hash follows. -/
theorem pass (h : hash.Tracks live) (hr : r.Fits live) (n : Nat) :
    ∃ hash', checkLine n hash r.line = .ok (some hash') ∧ hash'.Tracks (r.liveAfter live) := by
  rw [checkLine, r.words_line]
  cases r with
  | malloc i size =>
      have hentry := h.entry_eq_none hr
      exact ⟨_, by simp [Request.words, hentry, isFalsy], h.insert i⟩
  | realloc i size =>
      have hentry := h.entry i hr
      exact ⟨_, by simp [Request.words, hentry, isFalsy], h⟩
  | free i =>
      have hentry := h.entry i hr
      exact ⟨_, by simp [Request.words, hentry, isFalsy, perlNot], h.erase i⟩

/-- The script dies at a request that does not fit. -/
theorem die (h : hash.Tracks live) (hr : ¬ r.Fits live) (n : Nat) :
    ∃ e, checkLine n hash r.line = .error e := by
  rw [checkLine, r.words_line]
  cases r with
  | malloc i size =>
      have hentry := h.entry i (not_not.mp hr)
      exact ⟨_, by simp [Request.words, hentry, isFalsy]; rfl⟩
  | realloc i size =>
      have hentry := h.entry_eq_none hr
      exact ⟨_, by simp [Request.words, hentry, isFalsy]; rfl⟩
  | free i =>
      have hentry := h.entry_eq_none hr
      exact ⟨_, by simp [Request.words, hentry, isFalsy]; rfl⟩

/-- The keys are the texts of the live ids, whatever the order. -/
theorem exists_ids (h : hash.Tracks live) {keys : List (List Char)} (hkeys : hash.keys.Perm keys) :
    ∃ ids : List Nat, keys = ids.map (Nat.toDigits 10) ∧ ids.Nodup ∧ ∀ i, i ∈ ids ↔ i ∈ live := by
  have hread : keys = (keys.map digitsValue).map (Nat.toDigits 10) := by
    conv_lhs => rw [← List.map_id keys]
    rw [List.map_map]
    refine List.map_congr_left fun key hkey => ?_
    obtain ⟨i, -, rfl⟩ := h.keys key (AList.mem_keys.mpr (hkeys.mem_iff.mpr hkey))
    rw [Function.comp_apply, digitsValue_toDigits, id]
  refine ⟨keys.map digitsValue, hread, ?_, fun i => ?_⟩
  · have hnodup : keys.Nodup := hkeys.nodup_iff.mp hash.keys_nodup
    rw [hread] at hnodup
    exact hnodup.of_map _
  · have hmem : Nat.toDigits 10 i ∈ hash ↔ i ∈ live := by
      constructor
      · intro hkey
        obtain ⟨j, hj, hij⟩ := h.keys _ hkey
        exact toDigits_inj hij ▸ hj
      · intro hi
        have hentry := h.entry i hi
        exact AList.lookup_isSome.mp (by rw [← TraceHash.entry, hentry]; rfl)
    rw [← hmem, AList.mem_keys, hkeys.mem_iff]
    conv_rhs => rw [hread]
    exact (List.mem_map_of_injective fun _ _ => toDigits_inj).symm

end TraceHash.Tracks

section Requests

variable {hash : TraceHash} {live : Finset Nat} {requests : List Request}

/-- The lines of requests that fit are all kept. -/
theorem checkLines_requests (h : hash.Tracks live) (hc : Consistent live requests) (n : Nat) :
    ∃ hash', checkLines n hash (requests.map Request.line) = .ok (requests.map Request.line, hash') ∧
      hash'.Tracks (requests.foldl Request.liveAfter live) := by
  induction requests generalizing hash live n with
  | nil => exact ⟨hash, rfl, h⟩
  | cons r requests ih =>
      obtain ⟨hash₁, hline, h₁⟩ := h.pass hc.1 (n + 1)
      obtain ⟨hash₂, hrest, h₂⟩ := ih h₁ hc.2 (n + 1)
      exact ⟨hash₂, checkLines_keep hline hrest, h₂⟩

/-- The loop dies at the first request that does not fit. -/
theorem checkLines_inconsistent (h : hash.Tracks live) (hc : ¬ Consistent live requests) (n : Nat) :
    ∃ e, checkLines n hash (requests.map Request.line) = .error e := by
  induction requests generalizing hash live n with
  | nil => exact absurd trivial hc
  | cons r requests ih =>
      rw [List.map_cons, checkLines]
      by_cases hr : r.Fits live
      · obtain ⟨hash₁, hline, h₁⟩ := h.pass hr (n + 1)
        obtain ⟨e, hrest⟩ := ih h₁ (fun hrest => hc ⟨hr, hrest⟩) (n + 1)
        exact ⟨e, by simp only [hline, hrest]⟩
      · obtain ⟨e, hline⟩ := h.die hr (n + 1)
        exact ⟨e, by simp only [hline]⟩

/-- Consistent requests, one list after the other. -/
theorem consistent_append {a b : List Request} :
    Consistent live (a ++ b) ↔ Consistent live a ∧ Consistent (a.foldl Request.liveAfter live) b := by
  induction a generalizing live with
  | nil => exact ⟨fun h => ⟨trivial, h⟩, And.right⟩
  | cons r a ih =>
      rw [List.cons_append, Consistent, ih, Consistent, List.foldl_cons, and_assoc]

/-- Releases of different live ids fit, and nothing else is live afterwards. -/
theorem consistent_frees {ids : List Nat} (hnodup : ids.Nodup) (hids : ∀ i, i ∈ ids ↔ i ∈ live) :
    Consistent live (ids.map Request.free) ∧
      (ids.map Request.free).foldl Request.liveAfter live = ∅ := by
  induction ids generalizing live with
  | nil => exact ⟨trivial, Finset.eq_empty_of_forall_notMem fun i hi => by simpa using (hids i).mpr hi⟩
  | cons i ids ih =>
      obtain ⟨hi, hnodup⟩ := List.nodup_cons.mp hnodup
      have hrest : ∀ j, j ∈ ids ↔ j ∈ live.erase i := fun j => by
        rw [Finset.mem_erase, ← hids, List.mem_cons]
        constructor
        · exact fun hj => ⟨fun heq => hi (heq ▸ hj), .inr hj⟩
        · exact fun ⟨hne, hj⟩ => hj.resolve_left hne
      obtain ⟨hfits, hempty⟩ := ih hnodup hrest
      exact ⟨⟨(hids i).mp List.mem_cons_self, hfits⟩, hempty⟩

end Requests

/-- The trace with releases of some ids at its end. -/
def Trace.balanced (t : Trace) (ids : List Nat) : Trace :=
  { t with numOps := t.numOps + ids.length, requests := t.requests ++ ids.map .free }

/-- The lines of a documented trace have no line feeds in them. -/
theorem Trace.feed_notMem_lines (t : Trace) : ∀ line ∈ t.lines, '\n' ∉ line := by
  have hword : ∀ {w : List Char}, IsWord isCSpace w → '\n' ∉ w := fun hw hfeed =>
    absurd (hw.run _ hfeed) (by decide)
  intro line hline
  simp only [Trace.lines, List.mem_append, List.mem_cons, List.not_mem_nil, or_false,
    List.mem_map] at hline
  rcases hline with (rfl | rfl | rfl | rfl) | ⟨r, -, rfl⟩
  · exact hword (intText_word _)
  · exact hword (toDigits_word _)
  · exact hword (toDigits_word _)
  · exact hword (intText_word _)
  · exact notMem_intercalate (by decide) fun w hw => hword (r.words_word w hw)

/-- The script on a documented trace, when its loop ends. -/
theorem checkTrace_text {t : Trace} {hash : TraceHash}
    (hloop : checkLines 4 ∅ (t.requests.map Request.line) = .ok (t.requests.map Request.line, hash))
    (hroom : t.numOps + hash.keys.length < 2 ^ 64) :
    checkTrace t.text =
      some ⟨printLines ([intText t.suggHeapsize, Nat.toDigits 10 t.numIds,
        Nat.toDigits 10 (t.numOps + hash.keys.length), intText t.weight] ++
          t.requests.map Request.line ++ (balancingLines hash (sortKeys hash.keys)).1),
        (balancingLines hash (sortKeys hash.keys)).2⟩ :=
  checkTrace_printLines (i := t.numOps) t.feed_notMem_lines hloop (by omega) (by omega)

/-- The last loop prints a release for every live id. -/
theorem TraceHash.Tracks.balancingLines {hash : TraceHash} {live : Finset Nat} (h : hash.Tracks live)
    {keys : List (List Char)} (hkeys : ∀ key ∈ keys, key ∈ hash) :
    MallocBench.balancingLines hash keys = (keys.map freeLine, none) := by
  induction keys with
  | nil => rfl
  | cons key keys ih =>
      obtain ⟨i, hi, rfl⟩ := h.keys key (hkeys key List.mem_cons_self)
      rw [MallocBench.balancingLines, if_neg (by simp [h.entry i hi]),
        ih fun k hk => hkeys k (List.mem_cons_of_mem _ hk)]
      rfl

/-- Texts can be compared. -/
theorem textLE_total (a b : List Char) : (textLE a b || textLE b a) = true := by
  induction a generalizing b with
  | nil => rfl
  | cons c s ih =>
      cases b with
      | nil => rfl
      | cons d t =>
          have ih := ih t
          simp only [textLE, Bool.or_eq_true, Bool.and_eq_true, decide_eq_true_eq] at ih ⊢
          rcases lt_trichotomy c.toNat d.toNat with hlt | heq | hgt
          · exact .inl (.inl hlt)
          · exact ih.imp (fun h => .inr ⟨heq, h⟩) fun h => .inr ⟨heq.symm, h⟩
          · exact .inr (.inl hgt)

/-- Their order is transitive. -/
theorem textLE_trans (a b c : List Char) (hab : textLE a b = true) (hbc : textLE b c = true) :
    textLE a c = true := by
  induction a generalizing b c with
  | nil => rfl
  | cons d s ih =>
      cases b with
      | nil => cases hab
      | cons e t =>
          cases c with
          | nil => cases hbc
          | cons f u =>
              simp only [textLE, Bool.or_eq_true, Bool.and_eq_true, decide_eq_true_eq] at hab hbc ⊢
              rcases hab with hab | ⟨hde, hst⟩ <;> rcases hbc with hbc | ⟨hef, htu⟩
              · exact .inl (hab.trans hbc)
              · exact .inl (hef ▸ hab)
              · exact .inl (hde ▸ hbc)
              · exact .inr ⟨hde.trans hef, ih t u hst htu⟩

/-- Sorted keys are in order. -/
theorem pairwise_sortKeys (keys : List (List Char)) :
    (sortKeys keys).Pairwise fun a b => textLE a b = true :=
  List.pairwise_mergeSort textLE_trans textLE_total keys

/-- The lines of the requests. -/
theorem Trace.feedLines_text (t : Trace) : (feedLines t.text).drop 4 = t.requests.map Request.line :=
  congrArg (List.drop 4) (feedLines_flatMap t.feed_notMem_lines)

/-- The ids of a list without repetitions are as many as those of their set. -/
theorem length_eq_card {ids : List Nat} {live : Finset Nat} (hnodup : ids.Nodup)
    (hids : ∀ i, i ∈ ids ↔ i ∈ live) : ids.length = live.card := by
  have hset : ids.toFinset = live := Finset.ext fun i => List.mem_toFinset.trans (hids i)
  rw [← hset, List.toFinset_card_of_nodup hnodup]

/-- A consistent trace is printed with releases of the ids that are left. -/
theorem Trace.checkTrace_consistent {t : Trace} (hc : Consistent ∅ t.requests)
    (hroom : t.numOps + (liveIds t.requests).card < 2 ^ 64) :
    ∃ ids : List Nat, ids.Nodup ∧ (∀ i, i ∈ ids ↔ i ∈ liveIds t.requests) ∧
      (ids.map (Nat.toDigits 10)).Pairwise (fun a b => textLE a b = true) ∧
      checkTrace t.text = some ⟨(t.balanced ids).text, none⟩ := by
  obtain ⟨hash, hloop, htracks⟩ := checkLines_requests .empty hc 4
  have hlive : hash.Tracks (liveIds t.requests) := htracks
  have hperm : hash.keys.Perm (sortKeys hash.keys) := (List.mergeSort_perm _ _).symm
  obtain ⟨ids, hkeys, hnodup, hids⟩ := hlive.exists_ids hperm
  have hlen : hash.keys.length = ids.length := by rw [hperm.length_eq, hkeys, List.length_map]
  have hfrees := hlive.balancingLines fun key hkey => AList.mem_keys.mpr (hperm.mem_iff.mpr hkey)
  have hlines : (sortKeys hash.keys).map freeLine = (ids.map Request.free).map Request.line := by
    rw [hkeys, List.map_map, List.map_map]
    exact List.map_congr_left fun i _ => by
      simp [freeLine, Request.line, Request.words]
  refine ⟨ids, hnodup, hids, hkeys ▸ pairwise_sortKeys hash.keys, ?_⟩
  have hcard := length_eq_card hnodup hids
  rw [checkTrace_text hloop (by omega), hfrees, hlines, hlen]
  simp [Trace.text, Trace.lines, Trace.balanced, printLines]

/-- What is printed is consistent, and leaves nothing. -/
theorem Trace.balanced_drains {t : Trace} (hc : Consistent ∅ t.requests) {ids : List Nat}
    (hnodup : ids.Nodup) (hids : ∀ i, i ∈ ids ↔ i ∈ liveIds t.requests) :
    Consistent ∅ (t.balanced ids).requests ∧ liveIds (t.balanced ids).requests = ∅ := by
  obtain ⟨hfits, hempty⟩ := consistent_frees hnodup hids
  refine ⟨consistent_append.mpr ⟨hc, hfits⟩, ?_⟩
  rw [liveIds, Trace.balanced, List.foldl_append]
  exact hempty

/-- With `-s`, a consistent trace that leaves nothing is balanced. -/
theorem Trace.checkBalance_drained {t : Trace} (hc : Consistent ∅ t.requests)
    (hnone : liveIds t.requests = ∅) : checkBalance t.text = ⟨"Balanced trace.\n".toList, none⟩ := by
  obtain ⟨hash, hloop, htracks⟩ := checkLines_requests .empty hc 4
  have hnil : hash.keys = [] := List.eq_nil_iff_forall_not_mem.mpr fun key hkey => by
    obtain ⟨i, hi, -⟩ := htracks.keys key (AList.mem_keys.mpr hkey)
    rw [← liveIds, hnone] at hi
    exact Finset.notMem_empty i hi
  rw [checkBalance, t.feedLines_text]
  simp only [hloop, hnil, if_true]

/-- **The checker balances documented traces.** It dies on a trace that is not consistent. Otherwise, when
the new number of requests is in the range of 64 bits, it prints the trace with releases of the ids that
are left, in the order of their texts, and that number: a consistent trace that leaves nothing, of which
`-s` says that it is balanced. -/
theorem checkTrace_documented (t : Trace) :
    (¬ Consistent ∅ t.requests → ∃ e, checkTrace t.text = some ⟨[], some e⟩) ∧
      (Consistent ∅ t.requests → t.numOps + (liveIds t.requests).card < 2 ^ 64 →
        ∃ ids : List Nat, ids.Nodup ∧ (∀ i, i ∈ ids ↔ i ∈ liveIds t.requests) ∧
        (ids.map (Nat.toDigits 10)).Pairwise (fun a b => textLE a b = true) ∧
        checkTrace t.text = some ⟨(t.balanced ids).text, none⟩ ∧
        Consistent ∅ (t.balanced ids).requests ∧ liveIds (t.balanced ids).requests = ∅ ∧
        checkBalance (t.balanced ids).text = ⟨"Balanced trace.\n".toList, none⟩) := by
  constructor
  · intro hc
    obtain ⟨e, hloop⟩ := checkLines_inconsistent .empty hc 4
    refine ⟨e, ?_⟩
    rw [checkTrace]
    simp only [t.feedLines_text, hloop]
  · intro hc hroom
    obtain ⟨ids, hnodup, hids, hsorted, hrun⟩ := t.checkTrace_consistent hc hroom
    obtain ⟨hbalanced, hnone⟩ := t.balanced_drains hc hnodup hids
    exact ⟨ids, hnodup, hids, hsorted, hrun, hbalanced, hnone,
      (t.balanced ids).checkBalance_drained hbalanced hnone⟩

/-- A release of an id that was never allocated. -/
theorem checkTrace_documented_dies :
    (∃ e, checkTrace (Trace.text ⟨20000, 2, 2, 1, [.malloc 0 512, .free 1]⟩) = some ⟨[], some e⟩) ∧
      ∃ ids : List Nat, (∀ i, i ∈ ids ↔ i ∈ liveIds documentedTrace.requests) ∧
        checkTrace documentedTrace.text = some ⟨(documentedTrace.balanced ids).text, none⟩ := by
  refine ⟨(checkTrace_documented _).1 (by simp [Consistent, Request.Fits, Request.liveAfter]), ?_⟩
  obtain ⟨ids, -, hids, -, hrun, -⟩ := (checkTrace_documented documentedTrace).2
    (by simp [documentedTrace, Consistent, Request.Fits, Request.liveAfter]) (by decide)
  exact ⟨ids, hids, hrun⟩

end MallocBench
