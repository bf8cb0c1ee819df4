import MallocBench.Text.Characters
import Mathlib.Data.List.Forall2
import Mathlib.Data.List.TakeWhile

/-! # Anchored patterns

The regular expressions modelled here are sequences of items, each a character class taken once, any
number of times or at least once, some of them captured, anchored at both ends. `Pattern.matchGroups` is
the backtracking matcher: an item first takes as much as it can and gives characters back when the
rest fails. (`$` also matches before a final line feed; a line of `splitlines` has none.)

* **`matchGroups_accepted`**: every captured group consists of characters of its class.
* **`matchGroups_run`**: when a repeated item and what can come after it are `Deterministic`, nothing is
  ever given back, so an item takes exactly the run of its class. Patterns are data, so a concrete one
  is checked by `decide`.
* **`matchGroups_eq_none`**: a text that starts with none of the characters a pattern can start with does
  not match. -/

namespace MallocBench.Text

/-! ## Classes and items -/

/-- A character class: a set of characters, `\s` or `\d`. -/
inductive CharClass where
  | set (cs : List Char)
  | space
  | digit
  deriving DecidableEq

namespace CharClass

/-- The characters of a class. -/
def mem : CharClass → Char → Bool
  | set cs, c => cs.contains c
  | space, c => isSpace c
  | digit, c => isDecimal c

/-- A test for classes without a common character. -/
def apart : CharClass → CharClass → Bool
  | set cs, k => cs.all fun c => !k.mem c
  | k, set cs => cs.all fun c => !k.mem c
  | space, digit => true
  | digit, space => true
  | _, _ => false

/-- Classes that are apart have no common character. -/
theorem mem_of_apart {k l : CharClass} (h : apart k l = true) {c : Char} (hk : k.mem c = true) :
    l.mem c = false := by
  have hset : ∀ (cs : List Char) (m : CharClass), (cs.all fun d => !m.mem d) = true →
      c ∈ cs → m.mem c = false := by
    intro cs m hall hc
    simpa using List.all_eq_true.mp hall c hc
  cases k with
  | set cs => exact hset cs l h (List.contains_iff_mem.mp hk)
  | space =>
      cases l with
      | set cs =>
          cases hl : mem (.set cs) c with
          | false => rfl
          | true =>
              rw [hset cs space h (List.contains_iff_mem.mp hl)] at hk
              exact Bool.noConfusion hk
      | space => exact Bool.noConfusion h
      | digit => exact isDecimal_of_isSpace hk
  | digit =>
      cases l with
      | set cs =>
          cases hl : mem (.set cs) c with
          | false => rfl
          | true =>
              rw [hset cs digit h (List.contains_iff_mem.mp hl)] at hk
              exact Bool.noConfusion hk
      | space => exact isSpace_of_isDecimal hk
      | digit => exact Bool.noConfusion h

end CharClass

/-- How often an item takes a character of its class. -/
inductive Quantifier where
  | one
  | star
  | plus
  deriving DecidableEq

/-- An item of a pattern, captured as a group or not. -/
structure Item where
  cls : CharClass
  quantifier : Quantifier
  capture : Bool
  deriving DecidableEq

/-- A pattern, between `^` and `$`. -/
abbrev Pattern := List Item

namespace Item

/-- The item may take this text. -/
def Accepts (item : Item) (s : List Char) : Prop :=
  (∀ c ∈ s, item.cls.mem c = true) ∧
    match item.quantifier with
    | .one => s.length = 1
    | .star => True
    | .plus => s ≠ []

/-- How many characters the item may take from the front of a text, longest first. -/
def lengths (item : Item) (s : List Char) : List Nat :=
  let run := (s.takeWhile item.cls.mem).length
  match item.quantifier with
  | .one => if 0 < run then [1] else []
  -- greedy: the longest take comes first
  | .star => (List.range (run + 1)).reverse
  | .plus => (List.range' 1 run).reverse

/-- The groups, with the text the item took if it is captured. -/
def keep (item : Item) (s : List Char) (groups : List (List Char)) : List (List Char) :=
  if item.capture then s :: groups else groups

/-- An item that is not captured leaves the groups alone. -/
theorem keep_skip {item : Item} (h : item.capture = false) (s : List Char) : item.keep s = id := by
  funext groups
  unfold keep
  rw [h]
  rfl

/-- A captured item adds its group. -/
theorem keep_capture {item : Item} (h : item.capture = true) (s : List Char) :
    item.keep s = List.cons s := by
  funext groups
  unfold keep
  rw [h]
  rfl

end Item

namespace Pattern

/-- Plain text in a pattern. -/
def lit (s : String) : Pattern := s.toList.map fun c => ⟨.set [c], .one, false⟩

/-- **The groups of a match**, or none. -/
def matchGroups : Pattern → List Char → Option (List (List Char))
  | [], s => if s = [] then some [] else none
  | item :: rest, s =>
    (item.lengths s).findSome? fun n =>
      (matchGroups rest (s.drop n)).map (item.keep (s.take n))

/-! ## What a match takes -/

/-- An item takes only what it accepts. -/
theorem accepts_of_mem_lengths {item : Item} {s : List Char} {n : Nat} (h : n ∈ item.lengths s) :
    item.Accepts (s.take n) := by
  -- no length exceeds the run of the class at the front
  have hrun : ∀ m, m ≤ (s.takeWhile item.cls.mem).length →
      ∀ c ∈ s.take m, item.cls.mem c = true := by
    intro m hm c hc
    have hpre : s.take m <+: s.takeWhile item.cls.mem := by
      rw [List.prefix_iff_eq_take.mp (List.takeWhile_prefix item.cls.mem)]
      exact List.take_prefix_take_left hm
    exact List.mem_takeWhile_imp (hpre.subset hc)
  have hlen : (s.takeWhile item.cls.mem).length ≤ s.length :=
    (List.takeWhile_prefix item.cls.mem).length_le
  unfold Item.lengths at h
  unfold Item.Accepts
  cases hq : item.quantifier with
  | one =>
      simp only [hq] at h ⊢
      split at h
      · next hpos =>
        obtain rfl := List.mem_singleton.mp h
        refine ⟨hrun 1 hpos, ?_⟩
        rw [List.length_take]
        omega
      · exact absurd h List.not_mem_nil
  | star =>
      simp only [hq, List.mem_reverse, List.mem_range] at h ⊢
      exact ⟨hrun n (by omega), trivial⟩
  | plus =>
      simp only [hq, List.mem_reverse, List.mem_range'_1] at h ⊢
      refine ⟨hrun n (by omega), ?_⟩
      intro hnil
      have := congrArg List.length hnil
      rw [List.length_take, List.length_nil] at this
      omega

/-- **A captured group is accepted** by its item. -/
theorem matchGroups_accepted {p : Pattern} {s : List Char} {groups : List (List Char)}
    (h : matchGroups p s = some groups) :
    List.Forall₂ Item.Accepts (p.filter Item.capture) groups := by
  induction p generalizing s groups with
  | nil =>
      unfold matchGroups at h
      split at h
      · obtain rfl := Option.some.inj h
        exact .nil
      · exact absurd h (by simp)
  | cons item rest ih =>
      unfold matchGroups at h
      obtain ⟨n, hn, h⟩ := List.exists_of_findSome?_eq_some h
      obtain ⟨gs, hgs, rfl⟩ := Option.map_eq_some_iff.mp h
      unfold Item.keep
      by_cases hc : item.capture = true
      · rw [List.filter_cons_of_pos hc, if_pos hc]
        exact .cons (accepts_of_mem_lengths hn) (ih hgs)
      · rw [List.filter_cons_of_neg hc, if_neg hc]
        exact ih hgs

/-! ## Deterministic patterns -/

/-- The classes of the first character of a match. -/
def firsts : Pattern → List CharClass
  | [] => []
  | item :: rest => item.cls :: if item.quantifier = .star then firsts rest else []

/-- No repeated item takes a character that what follows it can start with. -/
def Deterministic : Pattern → Bool
  | [] => true
  | item :: rest =>
    (decide (item.quantifier = .one) || (firsts rest).all item.cls.apart) && Deterministic rest

/-- **A text that starts otherwise** does not match. -/
theorem matchGroups_eq_none {p : Pattern} {c : Char} (h : ∀ k ∈ firsts p, k.mem c = false)
    (s : List Char) : matchGroups p (c :: s) = none := by
  induction p with
  | nil =>
      unfold matchGroups
      exact if_neg (List.cons_ne_nil c s)
  | cons item rest ih =>
      have hc : ¬ item.cls.mem c = true := by simpa using h _ List.mem_cons_self
      unfold matchGroups Item.lengths
      rw [List.takeWhile_cons_of_neg hc]
      cases hq : item.quantifier with
      | one => rfl
      | plus => rfl
      | star =>
          -- the item takes nothing, so the rest has to match from the same character
          have hrest : matchGroups rest (c :: s) = none := by
            apply ih
            intro k hk
            apply h k
            rw [firsts, if_pos hq]
            exact List.mem_cons_of_mem _ hk
          simp [hrest]

/-- A repeated item that needs a character does not match the empty text. -/
theorem matchGroups_plus_nil {item : Item} (hq : item.quantifier = .plus) (rest : Pattern) :
    matchGroups (item :: rest) [] = none := by
  unfold matchGroups Item.lengths
  rw [hq]
  rfl

/-- The lengths a repeated item tries, at the end of a run of its class. -/
theorem lengths_run {item : Item} {x y : List Char} (hq : item.quantifier ≠ .one)
    (hx : item.Accepts x) (hy : ∀ c ∈ y.head?, item.cls.mem c = false) :
    ∃ shorter, item.lengths (x ++ y) = x.length :: shorter ∧ ∀ n ∈ shorter, n < x.length := by
  -- the run ends where `y` starts
  have hrun : (x ++ y).takeWhile item.cls.mem = x := by
    rw [List.takeWhile_append_of_pos hx.1]
    cases y with
    | nil => rw [List.takeWhile_nil, List.append_nil]
    | cons c y =>
        have hc : ¬ item.cls.mem c = true := by simpa using hy c rfl
        rw [List.takeWhile_cons_of_neg hc, List.append_nil]
  obtain ⟨hmem, hmany⟩ := hx
  unfold Item.lengths
  rw [hrun]
  cases hquant : item.quantifier with
  | one => exact absurd hquant hq
  | star =>
      refine ⟨(List.range x.length).reverse, ?_, ?_⟩
      · simp only [List.range_succ, List.reverse_append, List.reverse_singleton,
          List.singleton_append]
      · intro n hn
        exact List.mem_range.mp (List.mem_reverse.mp hn)
  | plus =>
      rw [hquant] at hmany
      have hpos : 0 < x.length := List.length_pos_iff.mpr hmany
      refine ⟨(List.range' 1 (x.length - 1)).reverse, ?_, ?_⟩
      · have hsucc : x.length = x.length - 1 + 1 := by omega
        simp only
        rw [hsucc, List.range'_1_concat, List.reverse_append, List.reverse_singleton,
          List.singleton_append]
        congr 1
        omega
      · intro n hn
        have := List.mem_range'_1.mp (List.mem_reverse.mp hn)
        omega

/-- **A repeated item takes the whole run** when nothing that follows can start with a character of
its class. -/
theorem matchGroups_run {item : Item} {rest : Pattern} {x y : List Char}
    (hd : Deterministic (item :: rest) = true) (hq : item.quantifier ≠ .one) (hx : item.Accepts x)
    (hy : ∀ c ∈ y.head?, item.cls.mem c = false) :
    matchGroups (item :: rest) (x ++ y) = (matchGroups rest y).map (item.keep x) := by
  have hapart : (firsts rest).all item.cls.apart = true := by
    rw [Deterministic, Bool.and_eq_true, Bool.or_eq_true, decide_eq_true_eq] at hd
    exact hd.1.resolve_left hq
  obtain ⟨shorter, hlengths, hlt⟩ := lengths_run hq hx hy
  -- a shorter take leaves a character of the class, with which the rest cannot start
  have hshort : ∀ n ∈ shorter, matchGroups rest ((x ++ y).drop n) = none := by
    intro n hn
    have hn := hlt n hn
    rw [List.drop_append_of_le_length (by omega), List.drop_eq_getElem_cons hn, List.cons_append]
    apply matchGroups_eq_none
    intro k hk
    have hmem : item.cls.mem x[n] = true := hx.1 _ (List.getElem_mem hn)
    exact CharClass.mem_of_apart (List.all_eq_true.mp hapart k hk) hmem
  have hrest : (shorter.findSome? fun n => (matchGroups rest ((x ++ y).drop n)).map
      (item.keep ((x ++ y).take n))) = none := by
    rw [List.findSome?_eq_none_iff]
    intro n hn
    rw [hshort n hn]
    rfl
  rw [matchGroups, hlengths, List.findSome?_cons, List.drop_left, List.take_left, hrest]
  cases matchGroups rest y with
  | none => rfl
  | some groups => rfl

/-- Plain text matches itself. -/
theorem matchGroups_lit (w : String) (rest : Pattern) (y : List Char) :
    matchGroups (lit w ++ rest) (w.toList ++ y) = matchGroups rest y := by
  unfold lit
  induction w.toList with
  | nil => rfl
  | cons c cs ih =>
      have hc : CharClass.mem (.set [c]) c = true := by simp [CharClass.mem]
      rw [List.map_cons, List.cons_append, List.cons_append, matchGroups, Item.lengths]
      simp [List.takeWhile_cons_of_pos hc, Item.keep_skip, ih]

end Pattern

end MallocBench.Text
