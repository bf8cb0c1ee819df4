import Mathlib.Data.List.Infix
import Mathlib.Tactic.Common

/-! # Messages put together from texts

`str.format` puts texts between the pieces of a template, and `shlex.join` quotes the words of a command
and puts blanks between them. Whoever searches the result for a word finds it in one of the texts: a
word does not reach over a character that does not occur in it.

* **`infix_format_iff`**: a word that the template fences off occurs in the message exactly when it occurs
  in a text put in.
* **`infix_shlexJoin_iff`**: the same for the words of a command. -/

namespace MallocBench.Text

section Words

variable {α : Type} {w a b : List α} {c : α}

/-- **A word does not reach over a character that is not in it.** -/
theorem infix_append_cons_iff (hc : c ∉ w) : w <:+: a ++ c :: b ↔ w <:+: a ∨ w <:+: b := by
  constructor
  · rintro ⟨s, t, h⟩
    rw [List.append_eq_append_iff] at h
    obtain ⟨as, rfl, -⟩ | ⟨bs, hsw, hb⟩ := h
    · exact .inl ⟨s, as, rfl⟩
    · cases bs with
      | nil => exact .inl ⟨s, [], by rw [hsw, List.append_nil, List.append_nil]⟩
      | cons d bs =>
          obtain ⟨rfl, rfl⟩ := List.cons.inj hb
          rw [List.append_eq_append_iff] at hsw
          obtain ⟨as, -, rfl⟩ | ⟨cs, -, hw⟩ := hsw
          · exact absurd (List.mem_append_right _ List.mem_cons_self) hc
          · cases cs with
            | nil =>
                obtain rfl : c :: bs = w := hw
                exact absurd List.mem_cons_self hc
            | cons d cs =>
                obtain ⟨-, rfl⟩ := List.cons.inj hw
                exact .inr ⟨cs, t, rfl⟩
  · rintro (h | h)
    · exact List.infix_append_of_infix_left h
    · exact List.infix_append_of_infix_right (h.trans (List.suffix_cons c b).isInfix)

/-- A word is not found at a character that it does not have. -/
theorem infix_cons_iff_of_not_mem (hc : c ∉ w) (hw : w ≠ []) : w <:+: c :: b ↔ w <:+: b := by
  have hnil := infix_append_cons_iff (a := []) (b := b) hc
  rwa [List.nil_append, List.infix_nil, or_iff_right hw] at hnil

/-- A text after which a boundary comes, or nothing. -/
theorem infix_append_iff_of_head (hw : w ≠ []) (hb : ∀ c ∈ b.head?, c ∉ w) :
    w <:+: a ++ b ↔ w <:+: a ∨ w <:+: b := by
  cases b with
  | nil => simp [hw]
  | cons c b =>
      have hc := hb c rfl
      rw [infix_append_cons_iff hc, infix_cons_iff_of_not_mem hc hw]

/-- A text that starts after a boundary. -/
theorem infix_append_iff_of_getLast (hw : w ≠ []) (ha : ∀ c ∈ a.getLast?, c ∉ w) :
    w <:+: a ++ b ↔ w <:+: a ∨ w <:+: b := by
  rcases List.eq_nil_or_concat a with rfl | ⟨a, c, rfl⟩
  · simp [hw]
  · have hc : c ∉ w := ha c (by simp)
    have hsplit := infix_append_cons_iff (a := a) (b := []) hc
    rw [List.infix_nil, or_iff_left hw] at hsplit
    rw [List.concat_eq_append, List.append_assoc, List.singleton_append, infix_append_cons_iff hc, hsplit]

end Words

/-! ## Templates -/

section Templates

variable {α β : Type}

/-- `str.format`: the pieces of the template, with the texts between them. -/
def format : List (List α) → List (List α) → List α
  | [], _ => []
  | piece :: _, [] => piece
  | piece :: pieces, text :: texts => piece ++ (text ++ format pieces texts)

/-- Changing the characters of a message changes those of its pieces and texts. -/
theorem map_format (f : α → β) (pieces texts : List (List α)) :
    (format pieces texts).map f = format (pieces.map (List.map f)) (texts.map (List.map f)) := by
  induction pieces, texts using format.induct with
  | case1 texts => rfl
  | case2 piece pieces => rfl
  | case3 piece pieces text texts ih => simp [format, ih]

/-- The piece does not contain the word, and the word has neither its first nor its last character. -/
def FencesOff (w piece : List α) : Prop :=
  ¬ w <:+: piece ∧ (∀ c ∈ piece.head?, c ∉ w) ∧ ∀ c ∈ piece.getLast?, c ∉ w

instance [DecidableEq α] (w piece : List α) : Decidable (FencesOff w piece) :=
  inferInstanceAs (Decidable (_ ∧ _ ∧ _))

/-- A formatted text starts with its first piece. -/
theorem head?_format {w : List α} {pieces texts : List (List α)}
    (hpieces : ∀ piece ∈ pieces, FencesOff w piece) (hfull : ∀ piece ∈ pieces.dropLast, piece ≠ [])
    (hlength : pieces.length = texts.length + 1) : ∀ c ∈ (format pieces texts).head?, c ∉ w := by
  match pieces, texts with
  | [piece], [] => exact (hpieces piece List.mem_cons_self).2.1
  | piece :: next :: pieces, text :: texts =>
      have hne := hfull piece List.mem_cons_self
      rw [format, List.head?_append_of_ne_nil _ hne]
      exact (hpieces piece List.mem_cons_self).2.1

/-- **A word occurs in the message when it occurs in a text put in**, when each piece fences it off and
only the last one may be empty. -/
theorem infix_format_iff {w : List α} (hw : w ≠ []) {pieces texts : List (List α)}
    (hpieces : ∀ piece ∈ pieces, FencesOff w piece) (hfull : ∀ piece ∈ pieces.dropLast, piece ≠ [])
    (hlength : pieces.length = texts.length + 1) :
    w <:+: format pieces texts ↔ ∃ text ∈ texts, w <:+: text := by
  induction pieces, texts using format.induct with
  | case1 texts => exact absurd hlength (by simp)
  | case2 piece pieces => simpa [format] using (hpieces piece List.mem_cons_self).1
  | case3 piece pieces text texts ih =>
      obtain ⟨hfree, -, hlast⟩ := hpieces piece List.mem_cons_self
      have hrest : ∀ piece ∈ pieces, FencesOff w piece :=
        fun p hp => hpieces p (List.mem_cons_of_mem _ hp)
      have hlength' : pieces.length = texts.length + 1 := Nat.succ.inj hlength
      have hne : pieces ≠ [] := List.length_pos_iff.mp (by omega)
      have hfull' : ∀ piece ∈ pieces.dropLast, piece ≠ [] := by
        rw [List.dropLast_cons_of_ne_nil hne] at hfull
        exact fun p hp => hfull p (List.mem_cons_of_mem _ hp)
      rw [format, infix_append_iff_of_getLast hw hlast,
        infix_append_iff_of_head hw (head?_format hrest hfull' hlength'), ih hrest hfull' hlength',
        List.exists_mem_cons_iff, or_iff_right hfree]

end Templates

/-! ## Commands -/

/-- The characters that need no quotes in a shell. -/
def isShellSafe (c : Char) : Bool := c.isAlphanum || "_@%+=:,./-".toList.contains c

/-- A text with each of its quotes closed, quoted and opened again. -/
def escapeQuotes (s : List Char) : List Char :=
  s.flatMap fun c => if c = '\'' then "'\"'\"'".toList else [c]

/-- `shlex.quote`. -/
def shlexQuote (s : List Char) : List Char :=
  if s = [] then "''".toList
  else if s.all isShellSafe then s
  else '\'' :: escapeQuotes s ++ ['\'']

/-- `shlex.join`. -/
def shlexJoin (args : List (List Char)) : List Char := [' '].intercalate (args.map shlexQuote)

section Commands

variable {f : Char → Char} {w : List Char} (hw : w ≠ []) (hquote : f '\'' ∉ w) (hdouble : f '"' ∉ w)

include hw hquote hdouble

/-- A word without quotes is found in a text with escaped quotes as in the text. -/
theorem infix_escapeQuotes_iff (a s : List Char) :
    w <:+: (a ++ escapeQuotes s).map f ↔ w <:+: (a ++ s).map f := by
  induction s generalizing a with
  | nil => rfl
  | cons c s ih =>
      rw [escapeQuotes, List.flatMap_cons, ← escapeQuotes]
      split
      · next hc =>
        subst hc
        have hs := ih []
        rw [List.nil_append, List.nil_append] at hs
        rw [List.map_append, List.map_append, List.map_append]
        change w <:+: a.map f ++ f '\'' :: f '"' :: f '\'' :: f '"' :: f '\'' :: (escapeQuotes s).map f ↔
          w <:+: a.map f ++ f '\'' :: s.map f
        rw [infix_append_cons_iff hquote, infix_append_cons_iff hquote,
          infix_cons_iff_of_not_mem hdouble hw, infix_cons_iff_of_not_mem hquote hw,
          infix_cons_iff_of_not_mem hdouble hw, infix_cons_iff_of_not_mem hquote hw, hs]
      · rw [List.singleton_append]
        simpa using ih (a ++ [c])

/-- Quoting a word of a command does not change what occurs in it. -/
theorem infix_shlexQuote_iff (s : List Char) : w <:+: (shlexQuote s).map f ↔ w <:+: s.map f := by
  unfold shlexQuote
  split
  · next hs =>
    subst hs
    change w <:+: f '\'' :: f '\'' :: [] ↔ w <:+: []
    rw [infix_cons_iff_of_not_mem hquote hw, infix_cons_iff_of_not_mem hquote hw]
  split
  · rfl
  · have hescape := infix_escapeQuotes_iff hw hquote hdouble [] s
    have hend := infix_append_cons_iff (a := (escapeQuotes s).map f) (b := []) hquote
    rw [List.infix_nil, or_iff_left hw] at hend
    rw [List.cons_append, List.map_cons, infix_cons_iff_of_not_mem hquote hw, List.map_append]
    exact hend.trans hescape

/-- **A word occurs in a command when it occurs in a word of the command.** -/
theorem infix_shlexJoin_iff (hblank : f ' ' ∉ w) (args : List (List Char)) :
    w <:+: (shlexJoin args).map f ↔ ∃ arg ∈ args, w <:+: arg.map f := by
  unfold shlexJoin
  induction args with
  | nil => simpa using hw
  | cons arg args ih =>
      have hquoted := infix_shlexQuote_iff hw hquote hdouble arg
      cases args with
      | nil => simpa using hquoted
      | cons next args =>
          rw [List.map_cons, List.intercalate_cons_of_ne_nil (by simp), List.map_append,
            List.map_append, List.append_assoc]
          change w <:+: _ ++ f ' ' :: ([' '].intercalate ((next :: args).map shlexQuote)).map f ↔ _
          rw [infix_append_cons_iff hblank, ih, hquoted, List.exists_mem_cons_iff (a := arg)]

end Commands

end MallocBench.Text
