import MallocBench.Files.FileTree
import Mathlib.Data.List.Lex
import Mathlib.Data.String.Basic

/-! # The harness check and the two worktrees

`detect_harness_diffs` compares a participant's lab directory with the reference harness, file by
file of the reference. `build_worktree` makes the directory an attempt is built in: a filtered copy
of the participant's directory in `repo` mode, and in `strict` mode a filtered copy of the reference
into which the participant's allocator is written as `mm.c`.

Three filters meet here: which reference files are compared, which paths are copied, and the one file
strict mode replaces. Every copied reference file is compared unless it is named `mm.c`, `README.md`
or `.DS_Store` (`shouldComparePath_of_copied`), so a clean check pins down all of these
(`clean_harness_worktrees`). What the check does not look at is what the participant adds. -/

namespace MallocBench

open Files

/-- The content of a file. -/
abbrev Bytes := List UInt8

/-! ## Names -/

/-- `COMPARE_IGNORE_NAMES`. -/
def compareIgnoreNames : List String := ["mm.c", "README.md", ".DS_Store"]

/-- `COPY_IGNORE_NAMES`. -/
def copyIgnoreNames : List String := ["mdriver", "__pycache__", "docs"]

/-- `COPY_IGNORE_PATTERNS`. -/
def copyIgnorePatterns : List String := ["*.o", "*~", "*.pyc"]

/-- `fnmatch`, for patterns in which no character but `*` is special. -/
def fnmatch : List Char → List Char → Bool
  | [], name => name.isEmpty
  | c :: pat, name =>
    if c = '*' then name.tails.any fun rest => fnmatch pat rest
    else name.head? = some c && fnmatch pat name.tail

/-- A pattern without `*` matches itself only. -/
theorem fnmatch_literal {pat name : List Char} (h : '*' ∉ pat) :
    fnmatch pat name = true ↔ name = pat := by
  induction pat generalizing name with
  | nil => simp [fnmatch]
  | cons c pat ih =>
      rw [List.mem_cons, not_or] at h
      rw [fnmatch, if_neg (Ne.symm h.1)]
      rw [Bool.and_eq_true, decide_eq_true_eq, ih h.2]
      cases name with
      | nil => simp
      | cons d name => simp

/-- A pattern that starts with its only `*` matches what ends in the rest of it. -/
theorem fnmatch_star {pat name : List Char} (h : '*' ∉ pat) :
    fnmatch ('*' :: pat) name = true ↔ pat <:+ name := by
  rw [fnmatch, if_pos rfl, List.any_eq_true]
  constructor
  · rintro ⟨rest, hrest, hm⟩
    rw [fnmatch_literal h] at hm
    exact hm ▸ (List.mem_tails _ _).mp hrest
  · intro hsuf
    exact ⟨pat, (List.mem_tails _ _).mpr hsuf, (fnmatch_literal h).mpr rfl⟩

/-- The names `shutil.ignore_patterns` leaves out of a copy. -/
def ignored (name : String) : Bool :=
  (copyIgnorePatterns ++ copyIgnoreNames).any fun pat => fnmatch pat.toList name.toList

/-- `PurePath.name`: the last component. -/
def pathName (p : Path) : String := p.getLast?.getD ""

/-- `str.rfind` for one character. -/
def rfind (c : Char) (s : List Char) : Option Nat :=
  (s.reverse.findIdx? fun d => d = c).map fun i => s.length - 1 - i

/-- `PurePath.suffix`, of the last component: what follows its last dot, the dot included, unless
the dot is its first or its last character. -/
def pathSuffix (name : String) : String :=
  match rfind '.' name.toList with
  | none => ""
  | some i =>
    if 0 < i ∧ i < name.toList.length - 1 then String.ofList (name.toList.drop i) else ""

/-- A suffix ends the name. -/
theorem pathSuffix_suffix (name : String) : (pathSuffix name).toList <:+ name.toList := by
  unfold pathSuffix
  split
  · exact List.nil_suffix
  · next i _ =>
    split
    · rw [String.toList_ofList]
      exact List.drop_suffix i _
    · exact List.nil_suffix

/-! ## The harness check -/

/-- `should_compare_path`. -/
def shouldComparePath (relative : Path) : Bool :=
  if relative.any fun part => copyIgnoreNames.contains part then false
  else if compareIgnoreNames.contains (pathName relative) then false
  else if [".o", ".pyc"].contains (pathSuffix (pathName relative)) then false
  else true

/-- `load_reference_paths`: the files to compare, sorted by their components. -/
def loadReferencePaths (base : FileTree Bytes) : List Path :=
  ((base.entries.map Prod.fst).filter fun p =>
    (base.file? p).isSome && shouldComparePath p).mergeSort fun p q => decide (p ≤ q)

/-- What a file operation may raise. -/
inductive FsError where
  | fileNotFound (p : Path)
  | isADirectory (p : Path)
  deriving DecidableEq

/-- The kinds of difference. -/
inductive DiffType where
  | missing
  | modified
  deriving DecidableEq

/-- A difference, with the digests of the two files. -/
structure Diff (δ : Type) where
  path : Path
  type : DiffType
  referenceSha256 : δ
  candidateSha256 : Option δ
  deriving DecidableEq

section Detect

variable {δ : Type} [DecidableEq δ] (sha256 : Bytes → δ)

/-- `sha256_file`: opening a directory for reading raises. -/
def sha256File (t : FileTree Bytes) (p : Path) : Except FsError δ :=
  match t.lookup p with
  | some (.file b) => .ok (sha256 b)
  | some .dir => .error (.isADirectory p)
  | none => .error (.fileNotFound p)

/-- The loop of `detect_harness_diffs` over the reference paths. -/
def detectLoop (lab base : FileTree Bytes) : List Path → Except FsError (List (Diff δ))
  | [] => .ok []
  | relative :: rest =>
    match lab.lookup relative with
    | none => do
      let referenceHash ← sha256File sha256 base relative
      let diffs ← detectLoop lab base rest
      return ⟨relative, .missing, referenceHash, none⟩ :: diffs
    | some _ => do
      let referenceHash ← sha256File sha256 base relative
      let candidateHash ← sha256File sha256 lab relative
      let diffs ← detectLoop lab base rest
      if referenceHash ≠ candidateHash then
        return ⟨relative, .modified, referenceHash, some candidateHash⟩ :: diffs
      else return diffs

/-- `detect_harness_diffs`. -/
def detectHarnessDiffs (lab base : FileTree Bytes) : Except FsError (List (Diff δ)) :=
  detectLoop sha256 lab base (loadReferencePaths base)

end Detect

/-! ## The worktrees -/

/-- `copy_tree_filtered`: a recursive copy without the ignored names. -/
def copyTreeFiltered (source : FileTree Bytes) : FileTree Bytes :=
  source.restrict fun name => !ignored name

/-- `shutil.copy2` of a file called `name` to the top-level path `dst`. When that is a directory, the
file is copied into it. -/
def copy2 (t : FileTree Bytes) (name : String) (content : Bytes) (dst : String) :
    Except FsError (FileTree Bytes) :=
  match hdst : t.lookup [dst] with
  | some .dir =>
    if hin : t.lookup [dst, name] = some .dir then .error (.isADirectory [dst, name])
    else
      .ok (t.write [dst, name] content
        ⟨by simp, hin, fun q hq hpre hne => FileTree.eq_of_prefix_pair hq hpre hne ▸ hdst⟩)
  | none =>
    .ok (t.write [dst] content
      ⟨by simp, by simp [hdst], fun q hq hpre hne =>
        absurd (FileTree.eq_of_prefix_singleton hq hpre) hne⟩)
  | some (.file _) =>
    .ok (t.write [dst] content
      ⟨by simp, by simp [hdst], fun q hq hpre hne =>
        absurd (FileTree.eq_of_prefix_singleton hq hpre) hne⟩)

/-- `--mode`. -/
inductive Mode where
  | repo
  | strict

/-- `build_worktree`: the tree made in the worktree directory. The source of `mm.c` is the file
`mmName` of the participant's lab directory. -/
def buildWorktree (mode : Mode) (base lab : FileTree Bytes) (mmName : String) :
    Except FsError (FileTree Bytes) :=
  match mode with
  | .repo => .ok (copyTreeFiltered lab)
  | .strict =>
    match lab.file? [mmName] with
    | some mm => copy2 (copyTreeFiltered base) mmName mm "mm.c"
    | none => .error (.fileNotFound [mmName])

/-! ## What the copy keeps -/

/-- The path is copied: no component of it is ignored. -/
def Copied (p : Path) : Prop := p.all fun name => !ignored name

instance (p : Path) : Decidable (Copied p) := inferInstanceAs (Decidable (_ = true))

/-- The copy has the files that are copied. -/
theorem file?_copyTreeFiltered (t : FileTree Bytes) (p : Path) :
    (copyTreeFiltered t).file? p = if Copied p then t.file? p else none :=
  t.file?_restrict _ p

/-- A name that is not ignored matches none of the patterns. -/
theorem not_ignored_iff {name : String} : ignored name = false ↔
    (¬ ".o".toList <:+ name.toList ∧ ¬ "~".toList <:+ name.toList ∧
      ¬ ".pyc".toList <:+ name.toList) ∧ name ∉ copyIgnoreNames := by
  have hlit : ∀ pat : String, '*' ∉ pat.toList →
      (fnmatch pat.toList name.toList = true ↔ name = pat) := fun pat hpat => by
    rw [fnmatch_literal hpat, String.toList_inj]
  have hstar : ∀ pat : List Char, '*' ∉ pat →
      (fnmatch ('*' :: pat) name.toList = true ↔ pat <:+ name.toList) :=
    fun pat hpat => fnmatch_star hpat
  rw [← Bool.not_eq_true, ignored]
  simp only [copyIgnorePatterns, copyIgnoreNames, List.cons_append, List.nil_append, List.any_cons,
    List.any_nil, Bool.or_false, Bool.or_eq_true, List.mem_cons, List.not_mem_nil, or_false]
  rw [show "*.o".toList = '*' :: ".o".toList from rfl, show "*~".toList = '*' :: "~".toList from rfl,
    show "*.pyc".toList = '*' :: ".pyc".toList from rfl, hstar _ (by decide), hstar _ (by decide),
    hstar _ (by decide), hlit _ (by decide), hlit _ (by decide), hlit _ (by decide)]
  tauto

/-- **Every copied file is compared** unless its name is one of the three that never are. -/
theorem shouldComparePath_of_copied {p : Path} (hc : Copied p)
    (hn : pathName p ∉ compareIgnoreNames) : shouldComparePath p = true := by
  by_cases hp : p = []
  · subst hp
    decide
  have hall : ∀ name ∈ p, ignored name = false := by
    intro name hname
    have := List.all_eq_true.mp hc name hname
    simpa using this
  have hname : pathName p ∈ p := by
    unfold pathName
    rw [List.getLast?_eq_some_getLast hp]
    exact List.getLast_mem hp
  have hparts : ¬ (p.any fun part => copyIgnoreNames.contains part) = true := by
    rw [List.any_eq_true]
    rintro ⟨part, hpart, hin⟩
    exact (not_ignored_iff.mp (hall part hpart)).2 (List.contains_iff_mem.mp hin)
  have hsuffix : ¬ [".o", ".pyc"].contains (pathSuffix (pathName p)) = true := by
    intro hin
    obtain ⟨⟨ho, -, hpyc⟩, -⟩ := not_ignored_iff.mp (hall _ hname)
    have hend := pathSuffix_suffix (pathName p)
    have hmem := List.contains_iff_mem.mp hin
    rw [List.mem_cons, List.mem_singleton] at hmem
    rcases hmem with h | h
    · exact ho (h ▸ hend)
    · exact hpyc (h ▸ hend)
  unfold shouldComparePath
  rw [if_neg hparts, if_neg (by rwa [List.contains_iff_mem]), if_neg hsuffix]

/-! ## A clean check -/

/-- The files the check compares. -/
theorem mem_loadReferencePaths {base : FileTree Bytes} {p : Path} :
    p ∈ loadReferencePaths base ↔ (∃ b, base.file? p = some b) ∧ shouldComparePath p = true := by
  rw [loadReferencePaths, List.mem_mergeSort, List.mem_filter, Bool.and_eq_true,
    Option.isSome_iff_exists]
  constructor
  · rintro ⟨-, hb, hc⟩
    exact ⟨hb, hc⟩
  · rintro ⟨⟨b, hb⟩, hc⟩
    refine ⟨?_, ⟨b, hb⟩, hc⟩
    have hmem := FileTree.lookup_eq_some.mp (FileTree.file?_eq_some.mp hb)
    exact List.mem_map.mpr ⟨_, hmem, rfl⟩

section Detect

variable {δ : Type} {sha256 : Bytes → δ}

/-- A digest is that of the file at the path. -/
theorem sha256File_ok {t : FileTree Bytes} {p : Path} {d : δ}
    (h : sha256File sha256 t p = .ok d) : ∃ b, t.file? p = some b ∧ sha256 b = d := by
  unfold sha256File at h
  split at h
  · next b hb => exact ⟨b, FileTree.file?_eq_some.mpr hb, Except.ok.inj h⟩
  · simp at h
  · simp at h

variable [DecidableEq δ] {lab base : FileTree Bytes}

/-- A loop that reports nothing found every path in both trees, with equal digests. -/
theorem detectLoop_nil {paths : List Path} (h : detectLoop sha256 lab base paths = .ok []) :
    ∀ p ∈ paths, ∃ b c, base.file? p = some b ∧ lab.file? p = some c ∧ sha256 b = sha256 c := by
  induction paths with
  | nil => simp
  | cons relative rest ih =>
      rw [detectLoop] at h
      split at h
      · -- a missing file is reported
        cases hr : sha256File sha256 base relative with
        | error e => simp [hr, bind, Except.bind] at h
        | ok d =>
            cases hd : detectLoop sha256 lab base rest with
            | error e => simp [hr, hd, bind, Except.bind] at h
            | ok diffs => simp [hr, hd, bind, Except.bind, pure, Except.pure] at h
      · cases hr : sha256File sha256 base relative with
        | error e => simp [hr, bind, Except.bind] at h
        | ok d =>
            cases hc : sha256File sha256 lab relative with
            | error e => simp [hr, hc, bind, Except.bind] at h
            | ok d' =>
                cases hd : detectLoop sha256 lab base rest with
                | error e => simp [hr, hc, hd, bind, Except.bind] at h
                | ok diffs =>
                    simp only [hr, hc, hd, bind, Except.bind, pure, Except.pure] at h
                    split at h
                    · simp at h
                    · next heq =>
                      obtain rfl := Except.ok.inj h
                      obtain ⟨b, hb, rfl⟩ := sha256File_ok hr
                      obtain ⟨c, hcf, rfl⟩ := sha256File_ok hc
                      intro p hp
                      rcases List.mem_cons.mp hp with rfl | hp
                      · exact ⟨b, c, hb, hcf, not_not.mp heq⟩
                      · exact ih hd p hp

/-- **After a clean check** every compared reference file is in the participant's directory, with the
same digest. -/
theorem detectHarnessDiffs_nil (h : detectHarnessDiffs sha256 lab base = .ok []) {p : Path}
    {b : Bytes} (hb : base.file? p = some b) (hc : shouldComparePath p = true) :
    ∃ c, lab.file? p = some c ∧ sha256 b = sha256 c := by
  obtain ⟨b', c, hb', hc, heq⟩ :=
    detectLoop_nil h p (mem_loadReferencePaths.mpr ⟨⟨b, hb⟩, hc⟩)
  obtain rfl : b' = b := Option.some.inj (hb'.symm.trans hb)
  exact ⟨c, hc, heq⟩

end Detect

/-- What `shutil.copy2` does to the files: the destination, or a file in it, is written. -/
theorem file?_copy2 {t t' : FileTree Bytes} {name dst : String} {content : Bytes}
    (h : copy2 t name content dst = .ok t') (p : Path) :
    t'.file? p = if p = (if t.lookup [dst] = some .dir then [dst, name] else [dst]) then some content
      else t.file? p := by
  unfold copy2 at h
  split at h
  · next hdir =>
    rw [if_pos hdir]
    split at h
    · simp at h
    · obtain rfl := Except.ok.inj h
      exact t.file?_write _ _ _ p
  · next hnone =>
    have hdir : ¬ t.lookup [dst] = some .dir := by simp [hnone]
    rw [if_neg hdir]
    obtain rfl := Except.ok.inj h
    exact t.file?_write _ _ _ p
  · next b hfile =>
    have hdir : ¬ t.lookup [dst] = some .dir := by simp [hfile]
    rw [if_neg hdir]
    obtain rfl := Except.ok.inj h
    exact t.file?_write _ _ _ p

/-- The files of the two worktrees. -/
theorem file?_buildWorktree {base lab repo strict : FileTree Bytes} {mmName : String} {mm : Bytes}
    (hmm : lab.file? [mmName] = some mm) (hrepo : buildWorktree .repo base lab mmName = .ok repo)
    (hstrict : buildWorktree .strict base lab mmName = .ok strict) (p : Path) :
    (repo.file? p = if Copied p then lab.file? p else none) ∧
      strict.file? p =
        if p = (if base.lookup ["mm.c"] = some .dir then ["mm.c", mmName] else ["mm.c"]) then some mm
        else if Copied p then base.file? p else none := by
  obtain rfl := Except.ok.inj hrepo
  simp only [buildWorktree, hmm] at hstrict
  refine ⟨file?_copyTreeFiltered lab p, ?_⟩
  have hdir : (copyTreeFiltered base).lookup ["mm.c"] = base.lookup ["mm.c"] := by
    unfold copyTreeFiltered
    rw [FileTree.lookup_restrict]
    exact if_pos (by decide)
  rw [file?_copy2 hstrict p, hdir, file?_copyTreeFiltered]

/-- Strict mode makes its tree when the allocator is there and `mm.c` is no directory. -/
theorem buildWorktree_strict_ok {base lab : FileTree Bytes} {mmName : String} {mm : Bytes}
    (hmm : lab.file? [mmName] = some mm) (hdir : base.lookup ["mm.c"] ≠ some .dir) :
    ∃ strict, buildWorktree .strict base lab mmName = .ok strict := by
  have hcopy : (copyTreeFiltered base).lookup ["mm.c"] ≠ some .dir := by
    unfold copyTreeFiltered
    rwa [FileTree.lookup_restrict, if_pos (by decide)]
  simp only [buildWorktree, hmm]
  unfold copy2
  split
  · next h => exact absurd h hcopy
  · exact ⟨_, rfl⟩
  · exact ⟨_, rfl⟩

/-- A clean check: the participant has every copied and compared file of the reference, unchanged. -/
theorem file?_of_clean {δ : Type} [DecidableEq δ] {sha256 : Bytes → δ} {base lab : FileTree Bytes}
    (hsha : ∀ p b c, base.file? p = some b → lab.file? p = some c → sha256 b = sha256 c → b = c)
    (hclean : detectHarnessDiffs sha256 lab base = .ok []) {p : Path} {b : Bytes}
    (hb : base.file? p = some b) (hc : Copied p) (hn : pathName p ∉ compareIgnoreNames) :
    lab.file? p = some b := by
  obtain ⟨c, hlab, heq⟩ := detectHarnessDiffs_nil hclean hb (shouldComparePath_of_copied hc hn)
  rw [hlab, hsha p b c hb hlab heq]

/-- The directories agree on a copied file other than the top-level `mm.c` when the participant has
the compared files of the reference, adds none, and the nested files named `mm.c` agree. -/
theorem file?_agree {base lab : FileTree Bytes}
    (hsame : ∀ p b, base.file? p = some b → Copied p → pathName p ∉ compareIgnoreNames →
      lab.file? p = some b)
    (hextra : ∀ p, Copied p → pathName p ∉ compareIgnoreNames → lab.file? p ≠ none →
      base.file? p ≠ none)
    (hnested : ∀ p, Copied p → pathName p = "mm.c" → p ≠ ["mm.c"] → lab.file? p = base.file? p)
    {p : Path} (hc : Copied p) (hn : pathName p ∉ ["README.md", ".DS_Store"]) (hp : p ≠ ["mm.c"]) :
    lab.file? p = base.file? p := by
  by_cases hmmc : pathName p = "mm.c"
  · exact hnested p hc hmmc hp
  have hcmp : pathName p ∉ compareIgnoreNames := by
    intro hin
    rcases List.mem_cons.mp hin with h | h
    · exact hmmc h
    · exact hn h
  cases hb : base.file? p with
  | some b => exact hsame p b hb hc hcmp
  | none =>
      by_contra hlab
      exact hextra p hc hcmp hlab hb

/-- **What a clean check says about the worktrees.** When the check reports nothing (and no two
compared files with different contents share a digest), every copied reference file is in both
worktrees with the same content unless it is named `mm.c`, `README.md` or `.DS_Store`. The two
worktrees hold the same files, those named `README.md` or `.DS_Store` apart, and both hold the
participant's allocator as `mm.c`, iff the reference has no directory of that name, the allocator is
the participant's own top-level `mm.c` or has the same content, the participant adds no copied file
of another name, and the files named `mm.c` below the top agree. -/
theorem clean_harness_worktrees {δ : Type} [DecidableEq δ] {sha256 : Bytes → δ}
    {base lab repo strict : FileTree Bytes} {mmName : String} {mm : Bytes}
    (hmm : lab.file? [mmName] = some mm)
    (hsha : ∀ p b c, base.file? p = some b → lab.file? p = some c → sha256 b = sha256 c → b = c)
    (hclean : detectHarnessDiffs sha256 lab base = .ok [])
    (hrepo : buildWorktree .repo base lab mmName = .ok repo)
    (hstrict : buildWorktree .strict base lab mmName = .ok strict) :
    (∀ p b, base.file? p = some b → Copied p → pathName p ∉ compareIgnoreNames →
      repo.file? p = some b ∧ (base.lookup ["mm.c"] ≠ some .dir → strict.file? p = some b)) ∧
    (((∀ p, pathName p ∉ ["README.md", ".DS_Store"] → repo.file? p = strict.file? p) ∧
        repo.file? ["mm.c"] = some mm ∧ strict.file? ["mm.c"] = some mm) ↔
      base.lookup ["mm.c"] ≠ some .dir ∧ lab.file? ["mm.c"] = some mm ∧
        (∀ p, Copied p → pathName p ∉ compareIgnoreNames → lab.file? p ≠ none →
          base.file? p ≠ none) ∧
        ∀ p, Copied p → pathName p = "mm.c" → p ≠ ["mm.c"] → lab.file? p = base.file? p) := by
  have hfiles := file?_buildWorktree hmm hrepo hstrict
  have hcopied : Copied ["mm.c"] := by decide
  have hsame : ∀ p b, base.file? p = some b → Copied p → pathName p ∉ compareIgnoreNames →
      lab.file? p = some b := fun p b hb hc hn => file?_of_clean hsha hclean hb hc hn
  have hne : ∀ p, pathName p ∉ compareIgnoreNames → p ≠ ["mm.c"] := by
    rintro p hn rfl
    exact hn (by decide)
  refine ⟨fun p b hb hc hn => ⟨?_, fun hdir => ?_⟩, ?_, ?_⟩
  · rw [(hfiles p).1, if_pos hc, hsame p b hb hc hn]
  · rw [(hfiles p).2, if_neg hdir, if_neg (hne p hn), if_pos hc, hb]
  · -- what agreement of the worktrees forces, path by path
    rintro ⟨hall, hrepomm, hstrictmm⟩
    have hdir : base.lookup ["mm.c"] ≠ some .dir := by
      intro hdir
      rw [(hfiles _).2, if_pos hdir, if_neg (by simp), if_pos hcopied,
        FileTree.file?_eq_some, hdir] at hstrictmm
      simp at hstrictmm
    refine ⟨hdir, ?_, fun p hc hn hlab hbase => hlab ?_, fun p hc hn hp => ?_⟩
    · rwa [(hfiles _).1, if_pos hcopied] at hrepomm
    · have h := hall p fun hr => hn (List.mem_cons_of_mem _ hr)
      rwa [(hfiles p).1, (hfiles p).2, if_neg hdir, if_neg (hne p hn), if_pos hc, if_pos hc,
        hbase] at h
    · have h := hall p (by rw [hn]; decide)
      rwa [(hfiles p).1, (hfiles p).2, if_neg hdir, if_neg hp, if_pos hc, if_pos hc] at h
  · rintro ⟨hdir, hlabmm, hextra, hnested⟩
    refine ⟨fun p hn => ?_, ?_, ?_⟩
    · rw [(hfiles p).1, (hfiles p).2, if_neg hdir]
      -- the file that strict mode replaces, or one that it copies
      by_cases hp : p = ["mm.c"]
      · subst hp
        rw [if_pos hcopied, if_pos rfl, hlabmm]
      rw [if_neg hp]
      by_cases hc : Copied p
      · rw [if_pos hc, if_pos hc]
        exact file?_agree hsame hextra hnested hc hn hp
      · rw [if_neg hc, if_neg hc]
    · rw [(hfiles _).1, if_pos hcopied, hlabmm]
    · rw [(hfiles _).2, if_neg hdir, if_pos rfl]

/-! ## A file of the participant's own -/

/-- A reference with one compared file. -/
def sampleBase : FileTree Bytes :=
  .ofFiles [("Makefile", [97]), ("mm.c", [])] (by decide)

/-- The participant adds a makefile that `make` prefers to the reference's. -/
def sampleLab : FileTree Bytes :=
  .ofFiles [("Makefile", [97]), ("mm.c", [98]), ("GNUmakefile", [99])] (by decide)

/-- The participant changes the allocator only. -/
def sampleCleanLab : FileTree Bytes :=
  .ofFiles [("Makefile", [97]), ("mm.c", [98])] (by decide)

/-- The sample reference has one file to compare. -/
theorem loadReferencePaths_sampleBase : loadReferencePaths sampleBase = [["Makefile"]] := by
  have hfilter : ((sampleBase.entries.map Prod.fst).filter fun p =>
      (sampleBase.file? p).isSome && shouldComparePath p) = [["Makefile"]] := by decide +kernel
  rw [loadReferencePaths, hfilter, List.mergeSort_singleton]

/-- A directory that has the reference's `Makefile` passes the check, whatever the digest. -/
theorem detectHarnessDiffs_sampleBase {δ : Type} [DecidableEq δ] (sha256 : Bytes → δ)
    {lab : FileTree Bytes} (h : lab.lookup ["Makefile"] = some (.file [97])) :
    detectHarnessDiffs sha256 lab sampleBase = .ok [] := by
  have hbase : sampleBase.lookup ["Makefile"] = some (.file [97]) := by decide
  simp [detectHarnessDiffs, loadReferencePaths_sampleBase, detectLoop, sha256File, h, hbase, bind,
    Except.bind, pure, Except.pure]

/-- `clean_harness_worktrees` where the participant changes the allocator only: the two worktrees
agree. -/
theorem clean_harness_worktrees_sample :
    ∃ repo strict, buildWorktree .repo sampleBase sampleCleanLab "mm.c" = .ok repo ∧
      buildWorktree .strict sampleBase sampleCleanLab "mm.c" = .ok strict ∧
      ∀ p, pathName p ∉ ["README.md", ".DS_Store"] → repo.file? p = strict.file? p := by
  have hmm : sampleCleanLab.file? ["mm.c"] = some [98] := by decide
  have hdir : sampleBase.lookup ["mm.c"] ≠ some .dir := by decide
  obtain ⟨strict, hstrict⟩ := buildWorktree_strict_ok hmm hdir
  refine ⟨_, strict, rfl, hstrict, ?_⟩
  have hcheck : detectHarnessDiffs (id : Bytes → Bytes) sampleCleanLab sampleBase = .ok [] :=
    detectHarnessDiffs_sampleBase id (by decide)
  have hclean := clean_harness_worktrees hmm (fun _ _ _ _ _ h => h) hcheck rfl hstrict
  refine (hclean.2.mpr ⟨hdir, hmm, fun p _ hn hlab => ?_, fun p _ hn hp => ?_⟩).1
  · obtain ⟨b, hb⟩ := Option.ne_none_iff_exists'.mp hlab
    obtain ⟨n, rfl, hmem⟩ := FileTree.file?_ofFiles.mp hb
    simp only [List.mem_cons, Prod.mk.injEq, List.not_mem_nil, or_false] at hmem
    rcases hmem with ⟨rfl, -⟩ | ⟨rfl, -⟩
    · decide
    · exact absurd (by decide) hn
  · -- neither tree has a file below the top
    have hdeep : ∀ n, p ≠ [n] := by
      rintro n rfl
      exact hp (congrArg (fun m => [m]) hn)
    have hnone : ∀ files : List (String × Bytes), ∀ h, (FileTree.ofFiles files h).file? p = none := by
      intro files h
      rw [Option.eq_none_iff_forall_ne_some]
      intro b hb
      obtain ⟨n, hpn, -⟩ := FileTree.file?_ofFiles.mp hb
      exact hdeep n hpn
    rw [sampleCleanLab, sampleBase, hnone, hnone]

/-- **An added file goes unseen.** The check of a directory with a `GNUmakefile` of its own reports
nothing, and the file is in the `repo` worktree but not in the `strict` one. -/
theorem clean_harness_worktrees_differ :
    (∀ sha256 : Bytes → List UInt8, detectHarnessDiffs sha256 sampleLab sampleBase = .ok []) ∧
    ∃ repo strict, buildWorktree .repo sampleBase sampleLab "mm.c" = .ok repo ∧
      buildWorktree .strict sampleBase sampleLab "mm.c" = .ok strict ∧
      repo.file? ["GNUmakefile"] = some [99] ∧ strict.file? ["GNUmakefile"] = none := by
  refine ⟨fun sha256 => detectHarnessDiffs_sampleBase sha256 (by decide), ?_⟩
  have hmm : sampleLab.file? ["mm.c"] = some [98] := by decide
  have hdir : sampleBase.lookup ["mm.c"] ≠ some .dir := by decide
  obtain ⟨strict, hstrict⟩ := buildWorktree_strict_ok hmm hdir
  have hfiles := file?_buildWorktree hmm rfl hstrict ["GNUmakefile"]
  refine ⟨_, strict, rfl, hstrict, ?_, ?_⟩
  · rw [hfiles.1]
    decide +kernel
  · rw [hfiles.2]
    decide +kernel

end MallocBench
