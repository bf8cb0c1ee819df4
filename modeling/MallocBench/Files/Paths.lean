import Mathlib.Data.List.Infix
import Mathlib.Tactic.Common

/-! # Path texts and the directories they denote

A path text is joined to a directory as `pathlib` does: its parts are the pieces between slashes, without
the empty ones and those that are a single dot, and an absolute text replaces the directory. The
operating system then follows the parts, `..` going to the parent (there are no symbolic links, and the
parent of the root is the root).

* **`join_of_descendsTo`**: a relative text that never climbs above its start adds names to the directory.
* **`strictlyInside_iff`**: those that add at least one name are the texts that stay strictly inside
  whatever directory they are joined to.
* **`isolated_iff`**: when two texts denote directories strictly inside, neither inside the other. -/

namespace MallocBench.Files

/-- A name in a directory, or `..`. -/
abbrev Name := List Char

/-- The parent. -/
def parentName : Name := ['.', '.']

/-- The text starts at the root. -/
def isAbsolute (s : List Char) : Bool := s.head? = some '/'

/-- The parts of a path text. -/
def parts (s : List Char) : List Name := (s.splitOn '/').filter fun n => n ≠ [] ∧ n ≠ ['.']

/-- The slashes that a path text keeps at its front: two stay two, and more are one. -/
def rootText : List Char → List Char
  | '/' :: '/' :: '/' :: _ => ['/']
  | '/' :: '/' :: _ => ['/', '/']
  | '/' :: _ => ['/']
  | _ => []

/-- The text of `Path(s) / name`, where the name is a single part. -/
def childText (s : List Char) (name : Name) : List Char :=
  rootText s ++ List.intercalate ['/'] (parts s ++ [name])

/-- Follow parts from a directory. -/
def follow (dir : List Name) : List Name → List Name
  | [] => dir
  | n :: rest => if n = parentName then follow dir.dropLast rest else follow (dir ++ [n]) rest

/-- A directory: the names on the way from the root, none of which needs following. -/
structure Directory where
  names : List Name
  proper : ∀ n ∈ names, n ≠ [] ∧ n ≠ ['.'] ∧ n ≠ parentName ∧ '/' ∉ n

/-- The directory that `base / s` denotes. -/
def Directory.join (base : Directory) (s : List Char) : List Name :=
  if isAbsolute s then follow [] (parts s) else follow base.names (parts s)

/-- Below the directory, and not the directory itself. -/
def StrictlyInside (base path : List Name) : Prop := base <+: path ∧ path ≠ base

/-- Neither is the other or an ancestor of it. -/
def Unrelated (path other : List Name) : Prop := ¬ path <+: other ∧ ¬ other <+: path

/-! ## Texts that only descend -/

/-- The names below the start after following parts, none if they climb above the start. -/
def descend (below : List Name) : List Name → Option (List Name)
  | [] => some below
  | n :: rest =>
    if n = parentName then
      -- the parent of the start is outside
      if below = [] then none else descend below.dropLast rest
    else descend (below ++ [n]) rest

/-- The text is relative, never climbs above its start, and adds these names. -/
def DescendsTo (s : List Char) (below : List Name) : Prop :=
  isAbsolute s = false ∧ descend [] (parts s) = some below

instance (s : List Char) (below : List Name) : Decidable (DescendsTo s below) :=
  inferInstanceAs (Decidable (_ ∧ _))

/-- Parts that do not climb are followed below the start. -/
theorem follow_of_descend {below below' ps : List Name} (h : descend below ps = some below')
    (dir : List Name) : follow (dir ++ below) ps = dir ++ below' := by
  induction ps generalizing below with
  | nil =>
      obtain rfl := Option.some.inj h
      rfl
  | cons n rest ih =>
      unfold descend at h
      unfold follow
      by_cases hn : n = parentName
      · rw [if_pos hn] at h ⊢
        by_cases hbelow : below = []
        · rw [if_pos hbelow] at h
          exact absurd h (by simp)
        · rw [if_neg hbelow] at h
          rw [List.dropLast_append_of_ne_nil hbelow]
          exact ih h
      · rw [if_neg hn] at h ⊢
        rw [List.append_assoc]
        exact ih h

/-- **A text that only descends adds its names.** -/
theorem join_of_descendsTo {s : List Char} {below : List Name} (h : DescendsTo s below)
    (base : Directory) : base.join s = base.names ++ below := by
  unfold Directory.join
  rw [if_neg (by simp [h.1])]
  have hfollow := follow_of_descend h.2 base.names
  rwa [List.append_nil] at hfollow

/-! ## Texts that climb -/

/-- A name that is neither there nor among the parts does not appear. -/
theorem not_mem_follow {f : Name} {dir ps : List Name} (hdir : f ∉ dir) (hps : f ∉ ps) :
    f ∉ follow dir ps := by
  induction ps generalizing dir with
  | nil => exact hdir
  | cons n rest ih =>
      rw [List.mem_cons, not_or] at hps
      unfold follow
      by_cases hn : n = parentName
      · rw [if_pos hn]
        exact ih (fun h => hdir (List.dropLast_subset dir h)) hps.2
      · rw [if_neg hn]
        apply ih _ hps.2
        rw [List.mem_append, List.mem_singleton]
        exact not_or.mpr ⟨hdir, hps.1⟩

/-- Parts that climb above their start leave the directory, and a name of it that is not among them is
not found again. -/
theorem not_mem_follow_of_climb {f : Name} {below ps : List Name} (h : descend below ps = none)
    (hbelow : f ∉ below) (hps : f ∉ ps) : f ∉ follow (f :: below) ps := by
  induction ps generalizing below with
  | nil => exact absurd h (by simp [descend])
  | cons n rest ih =>
      rw [List.mem_cons, not_or] at hps
      unfold descend at h
      unfold follow
      by_cases hn : n = parentName
      · rw [if_pos hn] at h ⊢
        by_cases hnil : below = []
        · subst hnil
          exact not_mem_follow List.not_mem_nil hps.2
        · rw [if_neg hnil] at h
          rw [List.dropLast_cons_of_ne_nil hnil]
          exact ih h (fun hmem => hbelow (List.dropLast_subset below hmem)) hps.2
      · rw [if_neg hn] at h ⊢
        rw [List.cons_append]
        apply ih h _ hps.2
        rw [List.mem_append, List.mem_singleton]
        exact not_or.mpr ⟨hbelow, hps.1⟩

/-- The name of so many letters. -/
def longName (k : Nat) : Name := List.replicate (k + 1) 'a'

/-- The sample names are names of files. -/
theorem longName_proper (k : Nat) :
    longName k ≠ [] ∧ longName k ≠ ['.'] ∧ longName k ≠ parentName ∧ '/' ∉ longName k := by
  have hhead : ∀ c ∈ longName k, c = 'a' := fun c hc => List.eq_of_mem_replicate hc
  refine ⟨List.cons_ne_nil _ _, ?_, ?_, ?_⟩
  · intro h
    have hdot := hhead '.' (h ▸ List.mem_cons_self)
    exact absurd hdot (by decide)
  · intro h
    have hdot := hhead '.' (h ▸ List.mem_cons_self)
    exact absurd hdot (by decide)
  · intro h
    exact absurd (hhead '/' h) (by decide)

/-- A name longer than all parts together is none of them. -/
theorem longName_not_mem (ps : List Name) : longName ps.flatten.length ∉ ps := by
  intro h
  have hle := (List.sublist_flatten_of_mem h).length_le
  unfold longName at hle
  rw [List.length_replicate] at hle
  omega

/-- **The texts that stay strictly inside** every directory they are joined to. -/
theorem strictlyInside_iff {s : List Char} :
    (∀ base : Directory, StrictlyInside base.names (base.join s)) ↔
      ∃ below, DescendsTo s below ∧ below ≠ [] := by
  constructor
  · intro h
    by_cases habs : isAbsolute s = true
    · -- a directory deeper than the one the text names
      have hproper : ∀ n ∈ List.replicate ((follow [] (parts s)).length + 1) (longName 0),
          n ≠ [] ∧ n ≠ ['.'] ∧ n ≠ parentName ∧ '/' ∉ n := by
        intro n hn
        rw [List.eq_of_mem_replicate hn]
        exact longName_proper 0
      have hle := (h ⟨_, hproper⟩).1.length_le
      unfold Directory.join at hle
      rw [if_pos habs, List.length_replicate] at hle
      omega
    · -- a directory whose name is not among the parts
      have hrel : isAbsolute s = false := by simpa using habs
      have hproper : ∀ n ∈ [longName (parts s).flatten.length],
          n ≠ [] ∧ n ≠ ['.'] ∧ n ≠ parentName ∧ '/' ∉ n := by
        intro n hn
        rw [List.mem_singleton.mp hn]
        exact longName_proper _
      have hinside := h ⟨_, hproper⟩
      cases hdesc : descend [] (parts s) with
      | none =>
          -- after climbing out, the name of the directory is not found again
          have hgone := not_mem_follow_of_climb hdesc List.not_mem_nil (longName_not_mem (parts s))
          have hjoin : Directory.join ⟨_, hproper⟩ s =
              follow [longName (parts s).flatten.length] (parts s) := if_neg habs
          rw [hjoin] at hinside
          exact absurd (hinside.1.subset List.mem_cons_self) hgone
      | some below =>
          refine ⟨below, ⟨hrel, hdesc⟩, ?_⟩
          rintro rfl
          rw [join_of_descendsTo ⟨hrel, hdesc⟩, List.append_nil] at hinside
          exact hinside.2 rfl
  · rintro ⟨below, hdesc, hne⟩ base
    rw [join_of_descendsTo hdesc]
    exact ⟨List.prefix_append _ _, fun h => hne (List.append_right_eq_self.mp h)⟩

/-! ## Two texts -/

/-- The paths are strictly inside the directory and unrelated. -/
structure Isolated (base path other : List Name) : Prop where
  left : StrictlyInside base path
  right : StrictlyInside base other
  unrelated : Unrelated path other

/-- Both texts only descend, and neither list of names is a prefix of the other. -/
def Apart (s t : List Char) : Prop :=
  ∃ below below', DescendsTo s below ∧ DescendsTo t below' ∧ Unrelated below below'

/-- Being apart does not depend on the order. -/
theorem Apart.symm {s t : List Char} (h : Apart s t) : Apart t s := by
  obtain ⟨below, below', hs, ht, hunrelated⟩ := h
  exact ⟨below', below, ht, hs, hunrelated.symm⟩

/-- **Two texts denote isolated directories** in every directory iff they are apart. -/
theorem isolated_iff {s t : List Char} :
    (∀ base : Directory, Isolated base.names (base.join s) (base.join t)) ↔ Apart s t := by
  have hprefix : ∀ (base : Directory) (l m : List Name),
      base.names ++ l <+: base.names ++ m ↔ l <+: m := fun base l m =>
    List.prefix_append_right_inj base.names
  constructor
  · intro h
    obtain ⟨below, hs, -⟩ := strictlyInside_iff.mp fun base => (h base).left
    obtain ⟨below', ht, -⟩ := strictlyInside_iff.mp fun base => (h base).right
    refine ⟨below, below', hs, ht, ?_⟩
    -- in the root the paths are the lists of names themselves
    have hroot := (h ⟨[], by simp⟩).unrelated
    unfold Unrelated at hroot ⊢
    rwa [join_of_descendsTo hs, join_of_descendsTo ht, hprefix, hprefix] at hroot
  · rintro ⟨below, below', hs, ht, hunrelated⟩ base
    -- the empty list of names is a prefix of every other
    have hne : below ≠ [] := by
      rintro rfl
      exact hunrelated.1 List.nil_prefix
    have hne' : below' ≠ [] := by
      rintro rfl
      exact hunrelated.2 List.nil_prefix
    refine ⟨strictlyInside_iff.mpr ⟨below, hs, hne⟩ base,
      strictlyInside_iff.mpr ⟨below', ht, hne'⟩ base, ?_⟩
    unfold Unrelated at hunrelated ⊢
    rwa [join_of_descendsTo hs, join_of_descendsTo ht, hprefix, hprefix]

end MallocBench.Files
