import MallocBench.Scripts.BenchmarkRun
import MallocBench.Text.Messages

/-! # Synchronising the clones

`sync_repo` clones or fetches the repository of a participant, switches to its branch and pulls.
`sync_participants` does so for every participant and makes a record of each, also of one whose
synchronisation stops with a `BenchmarkError`. The error is a text only: whether the clone was dirty is
found out by searching the text for a word.

What git and the file system answer is arbitrary, and so is what each command does to them.

* **`mentions_message_iff`**: the search answers for the texts the message was put together from.
* **`ends_syncRepo`**: a check of the working tree stops nothing with `--allow-dirty-repos`.
* **`syncParticipants_classifies_iff`**: when the records have the status of the cause.
* **`syncParticipants_records`**: these are the records with which a run of the benchmark starts, each
  found under the alias of its participant. -/

namespace MallocBench

open Files Text

/-! ## The host -/

/-- A path of `pathlib`. -/
structure PurePath where
  root : List Char
  names : List Name
  deriving DecidableEq

/-- The path of a text. Two slashes at the start are a root of their own, more are one. -/
def PurePath.ofText (s : List Char) : PurePath where
  root :=
    if isAbsolute s = false then []
    else if "//".toList <+: s ∧ ¬ "///".toList <+: s then "//".toList
    else "/".toList
  names := parts s

/-- `path / s`. -/
def PurePath.join (path : PurePath) (s : List Char) : PurePath :=
  if isAbsolute s then .ofText s else ⟨path.root, path.names ++ parts s⟩

/-- `str(path)`. -/
def PurePath.text (path : PurePath) : List Char :=
  if path.root = [] ∧ path.names = [] then ['.'] else path.root ++ ['/'].intercalate path.names

/-- `subprocess.CompletedProcess`. -/
structure CompletedProcess where
  returncode : Int
  stdout : List Char
  stderr : List Char

/-- Git and the file system, in a state that every question may change. -/
structure Host (σ : Type) where
  run : List (List Char) → Option PurePath → σ → CompletedProcess × σ
  pathExists : PurePath → σ → Bool × σ

/-! ## Errors -/

/-- The places where a `BenchmarkError` is raised, with what its message mentions. -/
inductive SyncStop where
  | commandFailed (args : List (List Char)) (completed : CompletedProcess)
  | noDefaultBranch (repoDir : PurePath)
  | switchFailed (branch : List Char) (switch create : CompletedProcess)
  | notGitRepo (repoDir : PurePath)
  | urlMismatch (aliasName expected found : List Char)
  | dirty (repoDir : PurePath)
  | becameDirty (repoDir : PurePath)

/-- The pieces of the template of a message. -/
def SyncStop.template : SyncStop → List String
  | .commandFailed _ _ => ["command failed: ", "\nstdout:\n", "\nstderr:\n", ""]
  | .noDefaultBranch _ => ["could not determine default branch for ", ""]
  | .switchFailed _ _ _ =>
    ["failed to switch to branch ", "\nstdout:\n", "\nstderr:\n", "\nstdout:\n", "\nstderr:\n", ""]
  | .notGitRepo _ => ["existing path is not a git repo: ", ""]
  | .urlMismatch _ _ _ => ["origin URL mismatch for ", ": expected ", ", found ", ""]
  | .dirty _ => ["repo is dirty: ", ""]
  | .becameDirty _ => ["repo became dirty before pull: ", ""]

/-- What fills the template. -/
def SyncStop.fields : SyncStop → List (List Char)
  | .commandFailed args completed => [shlexJoin args, completed.stdout, completed.stderr]
  | .noDefaultBranch repoDir => [repoDir.text]
  | .switchFailed branch switch create =>
    [branch, switch.stdout, switch.stderr, create.stdout, create.stderr]
  | .notGitRepo repoDir => [repoDir.text]
  | .urlMismatch aliasName expected found => [aliasName, expected, found]
  | .dirty repoDir => [repoDir.text]
  | .becameDirty repoDir => [repoDir.text]

/-- `str(exc)`. -/
def SyncStop.message (stop : SyncStop) : String :=
  String.ofList (format (stop.template.map String.toList) stop.fields)

/-- The stop is at one of the two checks of the working tree. -/
def SyncStop.isDirtyCheck : SyncStop → Bool
  | .dirty _ => true
  | .becameDirty _ => true
  | _ => false

/-- The texts that the message is put together from: paths, aliases, addresses and branches, the words of
a command and what commands print. -/
def SyncStop.texts : SyncStop → List (List Char)
  | .commandFailed args completed => args ++ [completed.stdout, completed.stderr]
  | stop => stop.fields

/-! ## Git -/

/-- A step of a synchronisation: it stops or goes on, with the host in another state. -/
abbrev SyncM (σ : Type) := ExceptT SyncStop (StateM σ)

section Git

variable {σ : Type} (host : Host σ)

/-- `if condition: raise`. -/
def stopIf (condition : Bool) (stop : SyncStop) : SyncM σ Unit :=
  if condition then throw stop else pure ()

/-- `run_command` with `check=False`. -/
def runCommand (args : List (List Char)) (cwd : Option PurePath) : SyncM σ CompletedProcess :=
  ExceptT.lift (host.run args cwd)

/-- `run_command` with `check=True`. -/
def runChecked (args : List (List Char)) (cwd : Option PurePath) : SyncM σ CompletedProcess := do
  let completed ← runCommand host args cwd
  stopIf (completed.returncode ≠ 0) (.commandFailed args completed)
  return completed

/-- `path.exists()`. -/
def pathExists (path : PurePath) : SyncM σ Bool := ExceptT.lift (host.pathExists path)

/-- A git command, written with the words that are known. -/
def git (words : List String) (others : List (List Char)) : List (List Char) :=
  ("git" :: words).map String.toList ++ others

/-- `git_output`. -/
def gitOutput (repoDir : PurePath) (args : List (List Char)) : SyncM σ (List Char) := do
  let completed ← runChecked host args (some repoDir)
  return strip completed.stdout

/-- `git_status_dirty`. -/
def gitStatusDirty (repoDir : PurePath) : SyncM σ Bool := do
  let output ← gitOutput host repoDir (git ["status", "--porcelain"] [])
  return output ≠ []

/-- `head_ref` without `origin/`, if it has it. -/
def originHead (repoDir : PurePath) : SyncM σ (Option (List Char)) := do
  let headRef ← gitOutput host repoDir (git ["symbolic-ref", "refs/remotes/origin/HEAD", "--short"] [])
  return if "origin/".toList <+: headRef then some (headRef.drop 7) else none

/-- `detect_default_branch`. -/
def detectDefaultBranch (repoDir : PurePath) : SyncM σ (List Char) := do
  let head ← tryCatch (originHead host repoDir) fun _ => pure none
  match head with
  | some branch => return branch
  | none =>
    let current ← gitOutput host repoDir (git ["rev-parse", "--abbrev-ref", "HEAD"] [])
    stopIf (current = [] || current = "HEAD".toList) (.noDefaultBranch repoDir)
    return current

/-- `ensure_branch`. Its result is not used. -/
def ensureBranch (repoDir : PurePath) (branch : List Char) : SyncM σ Unit := do
  let current ← gitOutput host repoDir (git ["rev-parse", "--abbrev-ref", "HEAD"] [])
  if current = branch then return ()
  let switch ← runCommand host (git ["switch"] [branch]) (some repoDir)
  if switch.returncode = 0 then return ()
  let create ← runCommand host
    (git ["switch", "-c"] [branch, "--track".toList, "origin/".toList ++ branch]) (some repoDir)
  stopIf (create.returncode ≠ 0) (.switchFailed branch switch create)

/-! ## Synchronisation -/

/-- A record of `sync_participants`. -/
structure RepoRecord where
  aliasName : List Char
  repoDir : List Char
  repoUrl : List Char
  branch : List Char
  requestedBranch : List Char
  commit : Option (List Char)
  dirty : Option Bool
  status : Status
  error : Option String
  steps : List String

variable (reposDir : PurePath) (allowDirty : Bool)

/-- What is done with a directory that exists. -/
def fetchExisting (p : Participant) (repoDir : PurePath) : SyncM σ (List String) := do
  let isRepo ← pathExists host (repoDir.join ".git".toList)
  stopIf (!isRepo) (.notGitRepo repoDir)
  let remoteUrl ← gitOutput host repoDir (git ["remote", "get-url", "origin"] [])
  stopIf (remoteUrl ≠ p.repoUrl) (.urlMismatch p.aliasName p.repoUrl remoteUrl)
  let dirty ← gitStatusDirty host repoDir
  stopIf (dirty && !allowDirty) (.dirty repoDir)
  let _ ← runChecked host (git ["fetch", "--all", "--prune"] []) (some repoDir)
  return ["fetch"]

/-- What is done without a directory. -/
def cloneMissing (p : Participant) (repoDir : PurePath) : SyncM σ (List String) := do
  let _ ← runChecked host (git ["clone"] [p.repoUrl, repoDir.text]) none
  let _ ← runChecked host (git ["fetch", "--all", "--prune"] []) (some repoDir)
  return ["clone"]

/-- The part of `sync_repo` that brings the clone up to date, with its steps. -/
def updateClone (p : Participant) (repoDir : PurePath) : SyncM σ (List String) := do
  let there ← pathExists host repoDir
  if there then fetchExisting host allowDirty p repoDir else cloneMissing host p repoDir

/-- `participant.branch or detect_default_branch(repo_dir)`. -/
def requestedOrDefault (p : Participant) (repoDir : PurePath) : SyncM σ (List Char) :=
  if p.branch = [] then detectDefaultBranch host repoDir else pure p.branch

/-- `sync_repo`. -/
def syncRepo (p : Participant) : SyncM σ RepoRecord := do
  let repoDir := reposDir.join p.aliasName
  let steps ← updateClone host allowDirty p repoDir
  let branch ← requestedOrDefault host p repoDir
  ensureBranch host repoDir branch
  let becameDirty ← gitStatusDirty host repoDir
  stopIf (becameDirty && !allowDirty) (.becameDirty repoDir)
  let _ ← runChecked host (git ["pull", "--ff-only", "origin"] [branch]) (some repoDir)
  let commit ← gitOutput host repoDir (git ["rev-parse", "HEAD"] [])
  let currentBranch ← gitOutput host repoDir (git ["rev-parse", "--abbrev-ref", "HEAD"] [])
  let dirty ← gitStatusDirty host repoDir
  return {
    aliasName := p.aliasName
    repoDir := repoDir.text
    repoUrl := p.repoUrl
    branch := currentBranch
    requestedBranch := p.branch
    commit := some commit
    dirty := some dirty
    status := .synced
    error := none
    steps := steps }

/-- The record of a participant. -/
def outcomeRecord (p : Participant) : Except SyncStop RepoRecord → RepoRecord
  | .ok record => record
  | .error stop =>
    { aliasName := p.aliasName
      repoDir := (reposDir.join p.aliasName).text
      repoUrl := p.repoUrl
      branch := p.branch
      requestedBranch := p.branch
      commit := none
      dirty := none
      status := syncFailure stop.message
      error := some stop.message
      steps := [] }

/-- `sync_participants`. -/
def syncParticipants : List Participant → StateM σ (List RepoRecord)
  | [] => pure []
  | p :: rest => do
    let outcome ← (syncRepo host reposDir allowDirty p).run
    let records ← syncParticipants rest
    return outcomeRecord reposDir p outcome :: records

/-- How the synchronisation of each participant ends, each from the state the one before leaves. -/
def syncOutcomes : List Participant → StateM σ (List (Participant × Except SyncStop RepoRecord))
  | [] => pure []
  | p :: rest => do
    let outcome ← (syncRepo host reposDir allowDirty p).run
    let outcomes ← syncOutcomes rest
    return (p, outcome) :: outcomes

end Git

/-! ## Messages -/

/-- The text has the word that the search looks for, in any mixture of cases. (Of the other characters
only a capital I with a dot has one of its letters in the lower case, followed by a dot.) -/
def MentionsDirty (s : List Char) : Prop := "dirty".toList <:+: lower s

instance (s : List Char) : Decidable (MentionsDirty s) := inferInstanceAs (Decidable (_ <:+: _))

/-- The templates of the other errors fence the word off. -/
theorem template_fencesOff {stop : SyncStop} (h : stop.isDirtyCheck = false) :
    ∀ piece ∈ (stop.template.map String.toList).map lower, FencesOff "dirty".toList piece := by
  cases stop with
  | dirty => exact absurd h (by simp [SyncStop.isDirtyCheck])
  | becameDirty => exact absurd h (by simp [SyncStop.isDirtyCheck])
  | _ =>
      dsimp only [SyncStop.template]
      decide

/-- The other templates have a text in front of each field, and a field for each text. -/
theorem template_full (stop : SyncStop) : (∀ piece ∈ stop.template.dropLast, piece ≠ "") ∧
    stop.template.length = stop.fields.length + 1 := by
  cases stop with
  | _ => exact ⟨by dsimp only [SyncStop.template]; decide, rfl⟩

/-- A field mentions the word when a text of the error does. -/
theorem fields_mention_iff {stop : SyncStop} :
    (∃ field ∈ stop.fields, MentionsDirty field) ↔ ∃ text ∈ stop.texts, MentionsDirty text := by
  cases stop with
  | commandFailed args completed =>
      have hjoin : MentionsDirty (shlexJoin args) ↔ ∃ arg ∈ args, MentionsDirty arg :=
        infix_shlexJoin_iff (by decide) (by decide) (by decide) (by decide) args
      simp [SyncStop.fields, SyncStop.texts, hjoin, or_and_right, exists_or]
  | _ => rfl

/-- **The search answers for the texts**: a message has the word when it comes from a check of the
working tree or when one of the texts put in has it. -/
theorem mentions_message_iff (stop : SyncStop) :
    MentionsDirty stop.message.toList ↔
      stop.isDirtyCheck = true ∨ ∃ text ∈ stop.texts, MentionsDirty text := by
  rw [SyncStop.message, String.toList_ofList]
  cases hcheck : stop.isDirtyCheck with
  | true =>
      refine iff_of_true ?_ (.inl rfl)
      cases stop with
      | dirty repoDir =>
          exact (show "dirty".toList <:+: lower "repo is dirty: ".toList by decide).trans
            ⟨[], lower (repoDir.text ++ []), by simp [lower, format, SyncStop.template, SyncStop.fields]⟩
      | becameDirty repoDir =>
          exact (show "dirty".toList <:+: lower "repo became dirty before pull: ".toList by decide).trans
            ⟨[], lower (repoDir.text ++ []), by simp [lower, format, SyncStop.template, SyncStop.fields]⟩
      | _ => exact absurd hcheck (by simp [SyncStop.isDirtyCheck])
  | false =>
      obtain ⟨hfull, hlength⟩ := template_full stop
      rw [MentionsDirty, lower, map_format, or_iff_right Bool.false_ne_true]
      refine (infix_format_iff (by decide) (template_fencesOff hcheck)
        (by simpa [← List.map_dropLast, lower] using hfull) (by simpa using hlength)).trans ?_
      rw [← fields_mention_iff]
      simp [MentionsDirty, lower]

/-- The entries of the record that a run uses. -/
def RepoRecord.toSyncRecord (record : RepoRecord) : SyncRecord :=
  ⟨record.aliasName, record.branch, record.commit, record.status, record.error⟩

/-- What a run uses of an outcome. -/
def headOf : Except SyncStop RepoRecord → Except String Head
  | .ok record => .ok ⟨record.branch, record.commit.getD []⟩
  | .error stop => .error stop.message

/-! ## How a synchronisation ends -/

section Ends

variable {σ α β : Type}

/-- From every state the step returns a value of one kind or stops with an error of another. -/
def Ends (m : SyncM σ α) (returns : α → Prop) (stops : SyncStop → Prop) : Prop :=
  ∀ s, match (m.run s).1 with
    | .ok a => returns a
    | .error stop => stops stop

variable {m : SyncM σ α} {returns : α → Prop} {stops : SyncStop → Prop}

/-- A value that is returned. -/
theorem ends_pure {a : α} (h : returns a) : Ends (pure a : SyncM σ α) returns stops := fun _ => h

/-- A command of the host stops nothing. -/
theorem ends_lift (m : StateM σ α) : Ends (ExceptT.lift m) (fun _ => True) stops := fun _ => trivial

/-- **One step after the other.** -/
theorem Ends.bind {f : α → SyncM σ β} {returns' : β → Prop} (hm : Ends m returns stops)
    (hf : ∀ a, returns a → Ends (f a) returns' stops) : Ends (m >>= f) returns' stops := by
  intro s
  have hs := hm s
  have hbind : (m >>= f).run s = ExceptT.bindCont f (m.run s).1 (m.run s).2 := rfl
  rw [hbind]
  cases houtcome : (m.run s).1 with
  | ok a =>
      rw [houtcome] at hs
      exact hf a hs _
  | error stop =>
      rw [houtcome] at hs
      exact hs

/-- A condition that stops. -/
theorem ends_stopIf {condition : Bool} {stop : SyncStop} (h : condition = true → stops stop) :
    Ends (stopIf condition stop : SyncM σ Unit) (fun _ => True) stops := by
  intro s
  cases condition with
  | true => exact h rfl
  | false => trivial

/-- A handler ends as the step it is for. -/
theorem ends_tryCatch {handler : SyncStop → SyncM σ α} (hm : Ends m returns stops)
    (hhandler : ∀ stop, Ends (handler stop) returns stops) :
    Ends (tryCatch m handler) returns stops := by
  intro s
  have hs := hm s
  simp only [tryCatch, tryCatchThe, MonadExceptOf.tryCatch, ExceptT.tryCatch, ExceptT.run, ExceptT.mk,
    bind, StateT.bind] at hs ⊢
  generalize m s = r at hs ⊢
  rcases r with ⟨stop | a, s'⟩
  · exact hhandler stop s'
  · exact hs

variable {host : Host σ} (hother : ∀ stop, stop.isDirtyCheck = false → stops stop)

include hother

/-- A command that is checked stops with its own error. -/
theorem ends_runChecked (args : List (List Char)) (cwd : Option PurePath) :
    Ends (runChecked host args cwd) (fun _ => True) stops :=
  (ends_lift _).bind fun _ _ =>
    (ends_stopIf fun _ => hother _ rfl).bind fun _ _ => ends_pure trivial

/-- So does a question to git. -/
theorem ends_gitOutput (repoDir : PurePath) (args : List (List Char)) :
    Ends (gitOutput host repoDir args) (fun _ => True) stops :=
  (ends_runChecked hother _ _).bind fun _ _ => ends_pure trivial

/-- So does the check of the working tree. -/
theorem ends_gitStatusDirty (repoDir : PurePath) :
    Ends (gitStatusDirty host repoDir) (fun _ => True) stops :=
  (ends_gitOutput hother _ _).bind fun _ _ => ends_pure trivial

/-- The search for the default branch stops with errors that are no checks. -/
theorem ends_detectDefaultBranch (repoDir : PurePath) :
    Ends (detectDefaultBranch host repoDir) (fun _ => True) stops := by
  have hhead : Ends (originHead host repoDir) (fun _ => True) stops :=
    (ends_gitOutput hother _ _).bind fun _ _ => ends_pure trivial
  apply (ends_tryCatch hhead fun _ => ends_pure trivial).bind
  intro head _
  cases head with
  | some branch => exact ends_pure trivial
  | none =>
      exact (ends_gitOutput hother _ _).bind fun _ _ =>
        (ends_stopIf fun _ => hother _ rfl).bind fun _ _ => ends_pure trivial

/-- So does the change to a branch. -/
theorem ends_ensureBranch (repoDir : PurePath) (branch : List Char) :
    Ends (ensureBranch host repoDir branch) (fun _ => True) stops := by
  apply (ends_gitOutput hother _ _).bind
  intro current _
  split
  · exact ends_pure trivial
  apply (ends_lift _).bind
  intro switch _
  split
  · exact ends_pure trivial
  exact (ends_lift _).bind fun _ _ => ends_stopIf fun _ => hother _ rfl

end Ends

/-- An error of one of the two checks comes up without `--allow-dirty-repos` only. -/
def AllowedStop (allowDirty : Bool) (stop : SyncStop) : Prop :=
  stop.isDirtyCheck = true → allowDirty = false

section SyncRepo

variable {σ : Type} {host : Host σ} {allowDirty : Bool}

/-- An error that is no check of the working tree is allowed. -/
theorem allowedStop_of_other (allowDirty : Bool) (stop : SyncStop) (h : stop.isDirtyCheck = false) :
    AllowedStop allowDirty stop := fun hcheck => absurd (h.symm.trans hcheck) (by simp)

/-- A check of the working tree is allowed when it stops. -/
theorem allowedStop_of_check {dirty : Bool} {stop : SyncStop} (h : (dirty && !allowDirty) = true) :
    AllowedStop allowDirty stop := fun _ => by simpa using (Bool.and_eq_true_iff.mp h).2

/-- A clone that is there is checked and fetched. -/
theorem ends_fetchExisting (p : Participant) (repoDir : PurePath) :
    Ends (fetchExisting host allowDirty p repoDir) (fun _ => True) (AllowedStop allowDirty) := by
  have hother := allowedStop_of_other allowDirty
  apply (ends_lift _).bind
  intro isRepo _
  apply (ends_stopIf fun _ => hother _ rfl).bind
  intro _ _
  apply (ends_gitOutput hother _ _).bind
  intro remoteUrl _
  apply (ends_stopIf fun _ => hother _ rfl).bind
  intro _ _
  apply (ends_gitStatusDirty hother _).bind
  intro dirty _
  apply (ends_stopIf allowedStop_of_check).bind
  intro _ _
  exact (ends_runChecked hother _ _).bind fun _ _ => ends_pure trivial

/-- A clone is fetched when it is there, and made when it is not. -/
theorem ends_updateClone (p : Participant) (repoDir : PurePath) :
    Ends (updateClone host allowDirty p repoDir) (fun _ => True) (AllowedStop allowDirty) := by
  have hother := allowedStop_of_other allowDirty
  apply (ends_lift _).bind
  intro there _
  split
  · exact ends_fetchExisting p repoDir
  · exact (ends_runChecked hother _ _).bind fun _ _ =>
      (ends_runChecked hother _ _).bind fun _ _ => ends_pure trivial

/-- The branch is the one asked for, or the default. -/
theorem ends_requestedOrDefault (p : Participant) (repoDir : PurePath) :
    Ends (requestedOrDefault host p repoDir) (fun _ => True) (AllowedStop allowDirty) := by
  unfold requestedOrDefault
  split
  · exact ends_detectDefaultBranch (allowedStop_of_other allowDirty) _
  · exact ends_pure trivial

/-- What a record says of a participant whose synchronisation completed. -/
structure RepoRecord.Completed (p : Participant) (record : RepoRecord) : Prop where
  participant : record.aliasName = p.aliasName
  synced : record.status = .synced
  noError : record.error = none
  hasCommit : record.commit ≠ none

/-- **A synchronisation that completes has a record of its participant**, and one that stops at a check
of the working tree was not allowed to go on. -/
theorem ends_syncRepo (reposDir : PurePath) (p : Participant) :
    Ends (syncRepo host reposDir allowDirty p) (RepoRecord.Completed p) (AllowedStop allowDirty) := by
  have hother := allowedStop_of_other allowDirty
  apply (ends_updateClone p _).bind
  intro steps _
  apply (ends_requestedOrDefault p _).bind
  intro branch _
  apply (ends_ensureBranch hother _ _).bind
  intro _ _
  apply (ends_gitStatusDirty hother _).bind
  intro becameDirty _
  -- the second check of the working tree
  apply (ends_stopIf allowedStop_of_check).bind
  intro _ _
  apply (ends_runChecked hother _ _).bind
  intro _ _
  apply (ends_gitOutput hother _ _).bind
  intro commit _
  apply (ends_gitOutput hother _ _).bind
  intro currentBranch _
  exact (ends_gitStatusDirty hother _).bind fun _ _ => ends_pure ⟨rfl, rfl, rfl, by simp⟩

end SyncRepo

/-! ## Records -/

/-- The record is the participant's and its status is the cause: completed, a dirty working tree, or
another one. -/
structure Classified (outcome : Participant × Except SyncStop RepoRecord) (record : RepoRecord) :
    Prop where
  participant : record.aliasName = outcome.1.aliasName
  synced : record.status = .synced ↔ ∃ r, outcome.2 = .ok r
  dirtyRepo : record.status = .dirtyRepo ↔ ∃ stop, outcome.2 = .error stop ∧ stop.isDirtyCheck = true
  syncFail : record.status = .syncFail ↔ ∃ stop, outcome.2 = .error stop ∧ stop.isDirtyCheck = false

/-- The other errors come without the word in the texts of their messages. -/
def Unmistakable (outcome : Except SyncStop RepoRecord) : Prop :=
  ∀ stop, outcome = .error stop → stop.isDirtyCheck = false → ∀ text ∈ stop.texts, ¬ MentionsDirty text

/-- The status of an error. -/
theorem syncFailure_message (stop : SyncStop) : syncFailure stop.message =
    if stop.isDirtyCheck = true ∨ ∃ text ∈ stop.texts, MentionsDirty text then .dirtyRepo
    else .syncFail := by
  have hstatus : syncFailure stop.message =
      if MentionsDirty stop.message.toList then .dirtyRepo else .syncFail := rfl
  simp only [hstatus, mentions_message_iff]

/-- The record of an error has the status of its cause when the search is not mistaken. -/
theorem classified_error_iff (reposDir : PurePath) (p : Participant) (stop : SyncStop) :
    Classified (p, .error stop) (outcomeRecord reposDir p (.error stop)) ↔
      Unmistakable (.error stop) := by
  have hstatus : (outcomeRecord reposDir p (.error stop)).status = _ := syncFailure_message stop
  constructor
  · intro h stop' hstop' hcheck text htext hmentions
    obtain rfl := Except.error.inj hstop'
    rw [if_pos (.inr ⟨text, htext, hmentions⟩)] at hstatus
    exact absurd (hstatus.symm.trans (h.syncFail.mpr ⟨_, rfl, hcheck⟩)) (by simp)
  · intro h
    cases hcheck : stop.isDirtyCheck with
    | true =>
        rw [if_pos (.inl hcheck)] at hstatus
        exact ⟨rfl, by simp [hstatus], by simp [hstatus, hcheck], by simp [hstatus, hcheck]⟩
    | false =>
        have hnone : ¬ (stop.isDirtyCheck = true ∨ ∃ text ∈ stop.texts, MentionsDirty text) := by
          rintro (htrue | ⟨text, htext, hmentions⟩)
          · rw [hcheck] at htrue
            exact Bool.noConfusion htrue
          · exact h stop rfl hcheck text htext hmentions
        rw [if_neg hnone] at hstatus
        exact ⟨rfl, by simp [hstatus], by simp [hstatus, hcheck], by simp [hstatus, hcheck]⟩

/-- The same for any outcome. -/
theorem classified_iff {reposDir : PurePath} {p : Participant} {outcome : Except SyncStop RepoRecord}
    (hok : ∀ r, outcome = .ok r → r.Completed p) :
    Classified (p, outcome) (outcomeRecord reposDir p outcome) ↔ Unmistakable outcome := by
  cases outcome with
  | error stop => exact classified_error_iff reposDir p stop
  | ok r =>
      obtain ⟨halias, hstatus, -, -⟩ := hok r rfl
      refine iff_of_true ⟨halias, ?_, ?_, ?_⟩ fun stop hstop => absurd hstop (by simp)
      · exact iff_of_true hstatus ⟨r, rfl⟩
      · simp [outcomeRecord, hstatus]
      · simp [outcomeRecord, hstatus]

section Records

variable {σ : Type} (host : Host σ) (reposDir : PurePath) (allowDirty : Bool)

/-- The records are those of the outcomes. -/
theorem syncParticipants_eq (ps : List Participant) (s : σ) :
    (syncParticipants host reposDir allowDirty ps).run s =
      (((syncOutcomes host reposDir allowDirty ps).run s).1.map fun o => outcomeRecord reposDir o.1 o.2,
        ((syncOutcomes host reposDir allowDirty ps).run s).2) := by
  induction ps generalizing s with
  | nil => rfl
  | cons p rest ih =>
      simp only [syncParticipants, syncOutcomes, StateT.run_bind, ih]
      rfl

/-- The outcomes are those of the participants, in order. -/
theorem syncOutcomes_fst (ps : List Participant) (s : σ) :
    ((syncOutcomes host reposDir allowDirty ps).run s).1.map Prod.fst = ps := by
  induction ps generalizing s with
  | nil => rfl
  | cons p rest ih => exact congrArg (p :: ·) (ih _)

/-- A synchronisation that returns has made the record of its participant. -/
theorem completed_of_ok {p : Participant} {s : σ} {r : RepoRecord}
    (hr : ((syncRepo host reposDir allowDirty p).run s).1 = .ok r) : r.Completed p := by
  have hends : Ends (syncRepo host reposDir allowDirty p) _ _ := ends_syncRepo reposDir p
  have hs := hends s
  rwa [hr] at hs

/-- A synchronisation that completes made the record of its participant. -/
theorem syncOutcomes_ok {ps : List Participant} {s : σ} {o : Participant × Except SyncStop RepoRecord}
    (ho : o ∈ ((syncOutcomes host reposDir allowDirty ps).run s).1) {r : RepoRecord}
    (hr : o.2 = .ok r) : r.Completed o.1 := by
  induction ps generalizing s with
  | nil => exact absurd ho List.not_mem_nil
  | cons p rest ih =>
      rcases List.mem_cons.mp ho with rfl | ho
      · exact completed_of_ok host reposDir allowDirty hr
      · exact ih ho

/-- **Exactly when failures are classified by cause.** There is one record for each participant, in
order; its status is the cause unless another error mentions the word. -/
theorem syncParticipants_classifies_iff (ps : List Participant) (s : σ) :
    (((syncOutcomes host reposDir allowDirty ps).run s).1.map Prod.fst = ps ∧
      List.Forall₂ Classified ((syncOutcomes host reposDir allowDirty ps).run s).1
        ((syncParticipants host reposDir allowDirty ps).run s).1) ↔
    ∀ o ∈ ((syncOutcomes host reposDir allowDirty ps).run s).1, Unmistakable o.2 := by
  rw [syncParticipants_eq, and_iff_right (syncOutcomes_fst host reposDir allowDirty ps s),
    List.forall₂_map_right_iff, List.forall₂_same]
  exact forall₂_congr fun o ho => classified_iff fun r hr =>
    syncOutcomes_ok host reposDir allowDirty ho hr

/-- The record that a run makes of an outcome. -/
theorem record_headOf {pull : Participant → Except String Head} {p : Participant}
    {outcome : Except SyncStop RepoRecord} (hpull : pull p = headOf outcome)
    (hok : ∀ r, outcome = .ok r → r.Completed p) :
    (Sync.pull pull).record p = (outcomeRecord reposDir p outcome).toSyncRecord := by
  simp only [Sync.record, hpull]
  cases outcome with
  | error stop => rfl
  | ok r =>
      obtain ⟨halias, hstatus, herror, hcommit⟩ := hok r rfl
      obtain ⟨commit, hcommit⟩ := Option.ne_none_iff_exists'.mp hcommit
      simp [headOf, outcomeRecord, RepoRecord.toSyncRecord, halias, hstatus, herror, hcommit]

/-- A record is filed under the alias of its participant. -/
theorem outcomeRecord_participant {p : Participant} {outcome : Except SyncStop RepoRecord}
    (hok : ∀ r, outcome = .ok r → r.Completed p) :
    (outcomeRecord reposDir p outcome).toSyncRecord.participant = p.aliasName := by
  cases outcome with
  | error stop => rfl
  | ok r => exact (hok r rfl).1

/-- What each synchronisation has answered is a function of the participant. -/
theorem exists_pull {outcomes : List (Participant × Except SyncStop RepoRecord)}
    (h : (outcomes.map Prod.fst).Nodup) :
    ∃ pull : Participant → Except String Head, ∀ o ∈ outcomes, pull o.1 = headOf o.2 := by
  induction outcomes with
  | nil => exact ⟨fun _ => .error "", fun o ho => absurd ho List.not_mem_nil⟩
  | cons first rest ih =>
      obtain ⟨hfirst, hrest⟩ := List.nodup_cons.mp h
      obtain ⟨others, hothers⟩ := ih hrest
      refine ⟨Function.update others first.1 (headOf first.2), fun o ho => ?_⟩
      rcases List.mem_cons.mp ho with rfl | ho
      · exact Function.update_self ..
      · have hne : o.1 ≠ first.1 := fun heq => hfirst (heq ▸ List.mem_map_of_mem ho)
        rw [Function.update_of_ne hne]
        exact hothers o ho

/-- **A run of the benchmark starts with these records**, when the aliases are distinct, as they are in a
list of participants that is read: they are those of a run of `main` over what each synchronisation has
answered, and each participant is run with the record of its own synchronisation. -/
theorem syncParticipants_records {ps : List Participant} (hps : (ps.map (·.aliasName)).Nodup) (s : σ) :
    ∃ pull : Participant → Except String Head,
      (∀ o ∈ ((syncOutcomes host reposDir allowDirty ps).run s).1, pull o.1 = headOf o.2) ∧
      (Sync.pull pull).records ps =
        ((syncParticipants host reposDir allowDirty ps).run s).1.map RepoRecord.toSyncRecord ∧
      ∀ o ∈ ((syncOutcomes host reposDir allowDirty ps).run s).1,
        syncByAlias ((Sync.pull pull).records ps) o.1.aliasName =
          .ok (outcomeRecord reposDir o.1 o.2).toSyncRecord := by
  obtain ⟨outcomes, houtcomes⟩ : ∃ outcomes,
      outcomes = ((syncOutcomes host reposDir allowDirty ps).run s).1 := ⟨_, rfl⟩
  have hfst : outcomes.map Prod.fst = ps := houtcomes ▸ syncOutcomes_fst host reposDir allowDirty ps s
  have hcompleted : ∀ o ∈ outcomes, ∀ r, o.2 = .ok r → r.Completed o.1 := fun o ho r =>
    syncOutcomes_ok host reposDir allowDirty (houtcomes ▸ ho)
  rw [syncParticipants_eq, ← houtcomes, List.map_map]
  obtain ⟨pull, hpull⟩ := exists_pull (hfst.symm ▸ hps.of_map)
  have hrecords : (Sync.pull pull).records ps =
      outcomes.map (RepoRecord.toSyncRecord ∘ fun o => outcomeRecord reposDir o.1 o.2) := by
    rw [Sync.records, ← hfst, List.map_map]
    exact List.map_congr_left fun o ho => record_headOf reposDir (hpull o ho) (hcompleted o ho)
  refine ⟨pull, hpull, hrecords, fun o ho => ?_⟩
  have hown : ∀ o ∈ outcomes,
      (outcomeRecord reposDir o.1 o.2).toSyncRecord.participant = o.1.aliasName := fun o ho =>
    outcomeRecord_participant reposDir (hcompleted o ho)
  rw [hrecords, ← hown o ho]
  refine syncByAlias_of_nodup ?_ (List.mem_map_of_mem ho)
  -- the records are filed under the aliases, in order
  have haliases : (outcomes.map (RepoRecord.toSyncRecord ∘ fun o =>
      outcomeRecord reposDir o.1 o.2)).map SyncRecord.participant = ps.map (·.aliasName) := by
    rw [← hfst, List.map_map, List.map_map]
    exact List.map_congr_left hown
  rwa [haliases]

end Records

/-- A host without a network: no clone is there and no command succeeds. -/
def offlineHost : Host Unit where
  run _ _ s := (⟨128, [], "fatal: unable to access the remote".toList⟩, s)
  pathExists _ s := (false, s)

/-- A participant whose address has the word in it. -/
def quickParticipant : Participant where
  aliasName := "quick".toList
  repoUrl := "https://example.org/Dirty-Malloc.git".toList
  branch := []
  mmPath := "mm.c".toList
  enabled := true

/-- Another one under the same address. -/
def slowParticipant : Participant := { quickParticipant with aliasName := "slow".toList }

/-- Without a network no participant is run: the record of each has the error of its own clone. -/
theorem syncParticipants_records_offline :
    ∃ pull, (∀ p ∈ [quickParticipant, slowParticipant], ∃ message, pull p = .error message) ∧
      (Sync.pull pull).records [quickParticipant, slowParticipant] =
        ((syncParticipants offlineHost (.ofText "repos".toList) false
          [quickParticipant, slowParticipant]).run ()).1.map RepoRecord.toSyncRecord := by
  obtain ⟨pull, hpull, hrecords, -⟩ := @syncParticipants_records _ offlineHost
    (.ofText "repos".toList) false [quickParticipant, slowParticipant] (by decide) ()
  obtain ⟨hquick, hrest⟩ := List.forall_mem_cons.mp hpull
  have hslow := List.forall_mem_singleton.mp hrest
  exact ⟨pull, List.forall_mem_cons.mpr ⟨⟨_, hquick⟩, List.forall_mem_singleton.mpr ⟨_, hslow⟩⟩, hrecords⟩

/-- A clone that fails is taken for a dirty working tree. -/
theorem syncParticipants_misclassifies :
    ¬ List.Forall₂ Classified
      ((syncOutcomes offlineHost (.ofText "repos".toList) false [quickParticipant]).run ()).1
      ((syncParticipants offlineHost (.ofText "repos".toList) false [quickParticipant]).run ()).1 := by
  intro h
  obtain ⟨hhead, -⟩ := List.forall₂_cons.mp h
  have hclean := (classified_error_iff _ _ _).mp hhead
  exact hclean _ rfl rfl quickParticipant.repoUrl (by simp [SyncStop.texts, git]) (by decide)

end MallocBench
