import Mathlib.Data.List.Infix
import Mathlib.Data.List.Nodup
import Mathlib.Tactic.Common

/-! # Finite file trees

A file tree lists its entries by relative path. A path is the list of its components, an entry is a
file with its content or a directory. Two facts hold of every tree and are fields: a path occurs
once, and the parents of an entry are directories of the tree.

The operations are lookup, restriction to the paths whose every component passes a test (what a
filtered recursive copy keeps) and writing one file; each has one lemma that says what lookup finds
afterwards. -/

namespace MallocBench.Files

/-- A relative path: its components from the top. -/
abbrev Path := List String

/-- What is at a path: a file with its content, or a directory. -/
inductive Entry (β : Type*) where
  | file (content : β)
  | dir
  deriving DecidableEq

/-- A file tree over contents `β`. -/
structure FileTree (β : Type*) where
  /-- The entries below the root. -/
  entries : List (Path × Entry β)
  nodup : (entries.map Prod.fst).Nodup
  parents : ∀ p e, (p, e) ∈ entries → ∀ q, q ≠ [] → q <+: p → q ≠ p → (q, Entry.dir) ∈ entries

namespace FileTree

variable {β : Type*}

/-- The entry at a path. -/
def lookup (t : FileTree β) (p : Path) : Option (Entry β) :=
  (t.entries.find? fun pe => pe.1 = p).map Prod.snd

/-- The content of the file at a path. -/
def file? (t : FileTree β) (p : Path) : Option β :=
  match t.lookup p with
  | some (.file b) => some b
  | _ => none

/-- **Lookup finds the entries.** -/
theorem lookup_eq_some {t : FileTree β} {p : Path} {e : Entry β} :
    t.lookup p = some e ↔ (p, e) ∈ t.entries := by
  constructor
  · intro h
    obtain ⟨⟨q, e'⟩, hq, rfl⟩ := Option.map_eq_some_iff.mp h
    obtain rfl : q = p := by simpa using List.find?_some hq
    exact List.mem_of_find?_eq_some hq
  · intro h
    have hsome : ((t.entries.find? fun pe => pe.1 = p)).isSome := by
      rw [List.find?_isSome]
      exact ⟨(p, e), h, by simp⟩
    obtain ⟨⟨q, e'⟩, hq⟩ := Option.isSome_iff_exists.mp hsome
    obtain rfl : q = p := by simpa using List.find?_some hq
    have hmem := List.mem_of_find?_eq_some hq
    -- a path occurs once
    have heq := List.inj_on_of_nodup_map t.nodup hmem h rfl
    obtain rfl : e' = e := congrArg Prod.snd heq
    rw [lookup, hq]
    rfl

/-- A file is found at a path iff it is the entry there. -/
theorem file?_eq_some {t : FileTree β} {p : Path} {b : β} :
    t.file? p = some b ↔ t.lookup p = some (.file b) := by
  unfold file?
  split
  · next c hc =>
    rw [hc]
    simp
  · next hn =>
    refine iff_of_false (by simp) fun h => ?_
    exact hn b h

/-! ## Restriction -/

/-- The entries all of whose components pass the test: what is left when a recursive copy skips
every name that does not. -/
def restrict (t : FileTree β) (keep : String → Bool) : FileTree β where
  entries := t.entries.filter fun pe => pe.1.all keep
  nodup := (List.filter_sublist.map Prod.fst).nodup t.nodup
  parents := by
    intro p e h q hq hpre hne
    rw [List.mem_filter] at h ⊢
    obtain ⟨hmem, hall⟩ := h
    refine ⟨t.parents p e hmem q hq hpre hne, ?_⟩
    rw [List.all_eq_true] at hall ⊢
    exact fun c hc => hall c (hpre.subset hc)

/-- A path is found in a restricted tree when all its names are kept. -/
theorem lookup_restrict (t : FileTree β) (keep : String → Bool) (p : Path) :
    (t.restrict keep).lookup p = if p.all keep then t.lookup p else none := by
  ext e
  rw [lookup_eq_some, restrict, List.mem_filter, ← lookup_eq_some]
  by_cases h : p.all keep
  · simp [h]
  · simp [h]

/-- **Restriction keeps the files** whose every component passes the test. -/
theorem file?_restrict (t : FileTree β) (keep : String → Bool) (p : Path) :
    (t.restrict keep).file? p = if p.all keep then t.file? p else none := by
  unfold file?
  rw [lookup_restrict]
  by_cases h : p.all keep
  · rw [if_pos h, if_pos h]
  · rw [if_neg h, if_neg h]

/-! ## Flat trees -/

/-- A single component has no parent but the root. -/
theorem eq_of_prefix_singleton {q : Path} {n : String} (hq : q ≠ []) (h : q <+: [n]) : q = [n] := by
  obtain ⟨r, hr⟩ := h
  cases q with
  | nil => exact absurd rfl hq
  | cons c cs =>
      rw [List.cons_append, List.cons.injEq, List.append_eq_nil_iff] at hr
      obtain ⟨rfl, rfl, -⟩ := hr
      rfl

/-- Two components have one parent besides the root. -/
theorem eq_of_prefix_pair {q : Path} {m n : String} (hq : q ≠ []) (h : q <+: [m, n])
    (hne : q ≠ [m, n]) : q = [m] := by
  rw [show [m, n] = [m] ++ [n] from rfl, List.prefix_concat_iff] at h
  rcases h with h | h
  · exact absurd h hne
  · exact eq_of_prefix_singleton hq h

/-- A tree of files side by side. -/
def ofFiles (files : List (String × β)) (h : (files.map Prod.fst).Nodup) : FileTree β where
  entries := files.map fun nb => ([nb.1], .file nb.2)
  nodup := by
    rw [List.map_map]
    have hinj : Function.Injective fun n : String => [n] := fun _ _ => List.singleton_inj.mp
    have := h.map hinj
    rwa [List.map_map] at this
  parents := by
    intro p e hmem q hq hpre hne
    obtain ⟨nb, -, hnb⟩ := List.mem_map.mp hmem
    obtain ⟨rfl, -⟩ := Prod.mk.injEq .. ▸ hnb
    exact absurd (eq_of_prefix_singleton hq hpre) hne

/-- The files of a flat tree are those listed, under one component each. -/
theorem file?_ofFiles {files : List (String × β)} {h : (files.map Prod.fst).Nodup} {p : Path}
    {b : β} : (ofFiles files h).file? p = some b ↔ ∃ n, p = [n] ∧ (n, b) ∈ files := by
  rw [file?_eq_some, lookup_eq_some, ofFiles, List.mem_map]
  constructor
  · rintro ⟨⟨n, c⟩, hmem, heq⟩
    rw [Prod.mk.injEq, Entry.file.injEq] at heq
    obtain ⟨rfl, rfl⟩ := heq
    exact ⟨n, rfl, hmem⟩
  · rintro ⟨n, rfl, hmem⟩
    exact ⟨(n, b), hmem, rfl⟩

/-! ## Writing one file -/

/-- The paths a file can be written to: not the root, not a directory, and below directories. -/
structure Writable (t : FileTree β) (p : Path) : Prop where
  ne_nil : p ≠ []
  not_dir : t.lookup p ≠ some .dir
  parents : ∀ q, q ≠ [] → q <+: p → q ≠ p → t.lookup q = some .dir

/-- The tree with the file at `p` written. -/
def write (t : FileTree β) (p : Path) (b : β) (h : t.Writable p) : FileTree β where
  entries := (p, .file b) :: t.entries.filter fun pe => pe.1 ≠ p
  nodup := by
    rw [List.map_cons, List.nodup_cons]
    refine ⟨?_, (List.filter_sublist.map Prod.fst).nodup t.nodup⟩
    simp
  parents := by
    intro q e hmem r hr hpre hne
    rw [List.mem_cons] at hmem
    rcases hmem with hmem | hmem
    · obtain ⟨rfl, rfl⟩ := Prod.mk.injEq .. ▸ hmem
      have hdir := lookup_eq_some.mp (h.parents r hr hpre hne)
      exact List.mem_cons_of_mem _ (List.mem_filter.mpr ⟨hdir, by simpa using hne⟩)
    · have hdir := t.parents q e (List.mem_filter.mp hmem).1 r hr hpre hne
      refine List.mem_cons_of_mem _ (List.mem_filter.mpr ⟨hdir, ?_⟩)
      -- nothing lies below the path written
      have hrp : r ≠ p := by
        rintro rfl
        exact h.not_dir (lookup_eq_some.mpr hdir)
      simpa using hrp

/-- **After a write** the file is there, and every other entry is what it was. -/
theorem lookup_write (t : FileTree β) (p : Path) (b : β) (h : t.Writable p) (q : Path) :
    (t.write p b h).lookup q = if q = p then some (.file b) else t.lookup q := by
  ext e
  rw [lookup_eq_some, write, List.mem_cons, List.mem_filter]
  by_cases hq : q = p
  · subst hq
    simp [eq_comm]
  · rw [if_neg hq, lookup_eq_some]
    simp [hq]

/-- A file that is written is there, and all others are as before. -/
theorem file?_write (t : FileTree β) (p : Path) (b : β) (h : t.Writable p) (q : Path) :
    (t.write p b h).file? q = if q = p then some b else t.file? q := by
  unfold file?
  rw [lookup_write]
  by_cases hq : q = p
  · rw [if_pos hq, if_pos hq]
  · rw [if_neg hq, if_neg hq]

end FileTree

end MallocBench.Files
