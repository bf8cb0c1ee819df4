import MallocBench.Text.Characters
import Mathlib.Data.List.DropRight

/-! # Lines and margins of a text

`splitlines` cuts a text at its line boundaries, where a carriage return followed by a line feed is
one boundary; a last line without a boundary counts if it is not empty. `strip` takes the white space
off both ends.

The reader of a printed text needs one fact: a line feed closes the lines before it
(`splitlines_append`), so that texts put together line by line are split line by line. -/

namespace MallocBench.Text

/-! ## Lines -/

/-- The lines of a text whose first characters `line` are read already. -/
def splitlinesFrom (line : List Char) : List Char → List (List Char)
  | [] => if line = [] then [] else [line]
  -- the two characters are one boundary
  | '\r' :: '\n' :: rest => line :: splitlinesFrom [] rest
  | c :: rest =>
    if isBreak c then line :: splitlinesFrom [] rest else splitlinesFrom (line ++ [c]) rest

/-- `str.splitlines`. -/
def splitlines (text : List Char) : List (List Char) := splitlinesFrom [] text

/-- An empty text has no lines. -/
theorem splitlines_nil : splitlines [] = [] := by
  unfold splitlines splitlinesFrom
  exact if_pos rfl

/-- A character that ends no line is read into the line. -/
theorem splitlinesFrom_cons {c : Char} (h : isBreak c = false) (line rest : List Char) :
    splitlinesFrom line (c :: rest) = splitlinesFrom (line ++ [c]) rest := by
  have hc : c ≠ '\r' := by
    rintro rfl
    exact absurd h (by decide)
  rw [splitlinesFrom, if_neg (by simp [h])]
  rintro rest' rfl
  exact absurd rfl hc

/-- A line feed ends the line. -/
theorem splitlinesFrom_newline (line rest : List Char) :
    splitlinesFrom line ('\n' :: rest) = line :: splitlines rest := by
  rw [splitlinesFrom, if_pos (by decide), splitlines]
  intro rest' h
  exact absurd h (by decide)

/-- **A line feed closes the lines before it.** -/
theorem splitlinesFrom_append (line a b : List Char) :
    splitlinesFrom line (a ++ '\n' :: b) = splitlinesFrom line (a ++ ['\n']) ++ splitlines b := by
  induction line, a using splitlinesFrom.induct with
  -- nothing before the feed: it ends an empty line or the line read so far
  | case1 =>
      rw [List.nil_append, List.nil_append, splitlinesFrom_newline, splitlinesFrom_newline,
        splitlines_nil]
      rfl
  | case2 line _ =>
      rw [List.nil_append, List.nil_append, splitlinesFrom_newline, splitlinesFrom_newline,
        splitlines_nil]
      rfl
  | case3 line rest ih =>
      rw [List.cons_append, List.cons_append, List.cons_append, List.cons_append, splitlinesFrom,
        splitlinesFrom, ih, List.cons_append]
  | case4 line c rest hcrlf hbreak ih =>
      by_cases hcr : c = '\r' ∧ rest = []
      · -- the return and the feed after it are one boundary
        obtain ⟨rfl, rfl⟩ := hcr
        rw [List.cons_append, List.cons_append, List.nil_append, List.nil_append, splitlinesFrom,
          splitlinesFrom]
        change _ = line :: splitlines [] ++ splitlines b
        rw [splitlines_nil]
        rfl
      · -- the boundary does not reach the feed
        have hopen : ∀ t u, c = '\r' → rest ++ '\n' :: t = '\n' :: u → False := by
          intro t u hc hu
          cases rest with
          | nil => exact hcr ⟨hc, rfl⟩
          | cons d rest =>
              obtain ⟨rfl, -⟩ := List.cons.inj hu
              exact hcrlf rest hc rfl
        rw [List.cons_append, List.cons_append, splitlinesFrom, splitlinesFrom, if_pos hbreak,
          if_pos hbreak, ih, List.cons_append]
        · exact hopen []
        · exact hopen b
  | case5 line c rest hcrlf hbreak ih =>
      have hopen : isBreak c = false := by simpa using hbreak
      rw [List.cons_append, List.cons_append, splitlinesFrom_cons hopen, splitlinesFrom_cons hopen,
        ih]

/-- The same for a text from its start. -/
theorem splitlines_append (a b : List Char) :
    splitlines (a ++ '\n' :: b) = splitlines (a ++ ['\n']) ++ splitlines b :=
  splitlinesFrom_append [] a b

/-- Characters that end no line are read into the line. -/
theorem splitlinesFrom_append_of_noBreak {a : List Char} (h : ∀ c ∈ a, isBreak c = false)
    (line rest : List Char) : splitlinesFrom line (a ++ rest) = splitlinesFrom (line ++ a) rest := by
  induction a generalizing line with
  | nil => rw [List.nil_append, List.append_nil]
  | cons c a ih =>
      rw [List.cons_append, splitlinesFrom_cons (h c List.mem_cons_self),
        ih fun d hd => h d (List.mem_cons_of_mem _ hd), List.append_assoc, List.singleton_append]

/-- A line without boundaries, closed by a line feed. -/
theorem splitlines_cons {a : List Char} (h : ∀ c ∈ a, isBreak c = false) (b : List Char) :
    splitlines (a ++ '\n' :: b) = a :: splitlines b := by
  rw [splitlines, splitlinesFrom_append_of_noBreak h, splitlinesFrom_newline, List.nil_append]

/-- A line that has been started is the first of the lines. -/
theorem splitlinesFrom_eq_cons {line : List Char} (h : line ≠ []) (rest : List Char) :
    ∃ t lines, splitlinesFrom line rest = (line ++ t) :: lines := by
  induction line, rest using splitlinesFrom.induct with
  | case1 => exact absurd rfl h
  | case2 line _ => exact ⟨[], [], by rw [splitlinesFrom, if_neg h, List.append_nil]⟩
  | case3 line rest _ => exact ⟨[], _, by rw [splitlinesFrom, List.append_nil]⟩
  | case4 line c rest hcrlf hbreak _ =>
      refine ⟨[], splitlinesFrom [] rest, ?_⟩
      rw [splitlinesFrom, if_pos hbreak, List.append_nil]
      exact hcrlf
  | case5 line c rest hcrlf hbreak ih =>
      obtain ⟨t, lines, ht⟩ := ih (by simp)
      refine ⟨c :: t, lines, ?_⟩
      rw [splitlinesFrom, if_neg hbreak, ht, List.append_assoc, List.singleton_append]
      exact hcrlf

/-- The lines have the characters of the text that end no line. -/
theorem count_flatten_splitlinesFrom {c : Char} (hc : isBreak c = false) (line rest : List Char) :
    (splitlinesFrom line rest).flatten.count c = line.count c + rest.count c := by
  have hne {d : Char} (hd : isBreak d = true) : d ≠ c := by
    rintro rfl
    rw [hc] at hd
    exact Bool.noConfusion hd
  induction line, rest using splitlinesFrom.induct with
  | case1 => simp [splitlinesFrom]
  | case2 line h => simp [splitlinesFrom, h]
  | case3 line rest ih =>
      have hcr := hne (d := '\r') (by decide)
      have hlf := hne (d := '\n') (by decide)
      rw [splitlinesFrom, List.flatten_cons, List.count_append, ih, List.count_cons_of_ne hcr,
        List.count_cons_of_ne hlf, List.count_nil, Nat.zero_add]
  | case4 line d rest hcrlf hbreak ih =>
      rw [splitlinesFrom, if_pos hbreak, List.flatten_cons, List.count_append, ih,
        List.count_cons_of_ne (hne hbreak), List.count_nil, Nat.zero_add]
      exact hcrlf
  | case5 line d rest hcrlf hbreak ih =>
      rw [splitlinesFrom, if_neg hbreak, ih, List.count_append, List.count_singleton, List.count_cons]
      · omega
      · exact hcrlf

/-! ## Margins -/

/-- `str.strip`. -/
def strip (s : List Char) : List Char := (s.dropWhile isSpace).rdropWhile isSpace

/-- `str.rstrip`. -/
def rstrip (s : List Char) : List Char := s.rdropWhile isSpace

/-- Characters that are no white space are not stripped. -/
theorem count_rstrip {c : Char} (hc : isSpace c = false) (s : List Char) :
    (rstrip s).count c = s.count c := by
  induction s using List.reverseRecOn with
  | nil => rfl
  | append_singleton s d ih =>
      rw [rstrip, List.rdropWhile_concat]
      split
      · next hd =>
        have hne : d ≠ c := by
          rintro rfl
          rw [hc] at hd
          exact Bool.noConfusion hd
        rw [List.count_append, List.count_cons_of_ne hne, List.count_nil, Nat.add_zero]
        exact ih
      · rfl

/-- A text that does not end with white space stands at the start whatever follows it. -/
theorem prefix_rstrip {w : List Char} (hw : ∀ c ∈ w.getLast?, isSpace c = false) (t : List Char) :
    w <+: rstrip (w ++ t) := by
  induction t using List.reverseRecOn with
  | nil =>
      have hself : rstrip w = w := by
        refine List.rdropWhile_eq_self_iff.mpr fun hne hspace => ?_
        rw [hw _ (List.getLast?_eq_some_getLast hne ▸ rfl)] at hspace
        exact Bool.noConfusion hspace
      exact ⟨[], by rw [List.append_nil, hself]⟩
  | append_singleton t d ih =>
      rw [← List.append_assoc, rstrip, List.rdropWhile_concat]
      split
      · exact ih
      · rw [List.append_assoc]
        exact List.prefix_append _ _

/-- A text with no white space at its ends is not stripped. -/
theorem strip_eq_self {s : List Char} (hhead : ∀ c ∈ s.head?, isSpace c = false)
    (hlast : ∀ c ∈ s.getLast?, isSpace c = false) : strip s = s := by
  have hdrop : s.dropWhile isSpace = s := by
    cases s with
    | nil => rfl
    | cons c s =>
        have hc : ¬ isSpace c = true := by simpa using hhead c rfl
        exact List.dropWhile_cons_of_neg hc
  unfold strip
  rw [hdrop, List.rdropWhile_eq_self_iff]
  intro hne hspace
  rw [hlast _ (List.getLast?_eq_some_getLast hne ▸ rfl)] at hspace
  exact Bool.noConfusion hspace

end MallocBench.Text
