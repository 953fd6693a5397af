import LocalGraphRag.Effects.Recording
import LocalGraphRag.Effects.Safety
import LocalGraphRag.Ingest.GitHistory
import LocalGraphRag.Ingest.Scan
import LocalGraphRag.Relational.Table

/-!
# The history documents of the projects

The indexer writes a document for every repository under the projects roots, and deletes the
documents of those that are gone. A document is kept under the bare name of its repository, so
one of two repositories of one name loses its document to the other.

## Implementation notes

The directories stay as they are during a run, and every call may raise. A write that raises
may leave any content, and a listing of the documents may miss some of them. `Path.exists`
follows links, and takes some of the errors it meets for absence: `ENOENT`, `ENOTDIR`, `EBADF`
and `ELOOP`. What a log prints is the environment's. Each run is recorded call by call.
-/

namespace LocalGraphRag.Ingest

open LocalGraphRag.Python LocalGraphRag.Effects LocalGraphRag.Relational

/-- An entry of `index_paths`, with its `projects` flag. -/
structure FlaggedIndexPath extends IndexPath where
  projects : Bool

/-- `OSError`, `SubprocessError`, `ValueError`, or any other exception. -/
inductive HistoryError where
  | os
  | subprocess
  | value
  | other
  deriving DecidableEq

/-- A call of the sync. Documents are named by their file names in `out_dir`. -/
inductive HistoryCall where
  | mkdir
  | iterdir (path : Path)
  | gitExists (path : Path) (name : Name)
  | gitLog (path : Path) (name : Name)
  | write (file content : Text)
  | glob
  | unlink (file : Text)

abbrev HistoryCall.Ret : HistoryCall → Type
  | mkdir => Unit
  | iterdir _ => Finset Name
  | gitExists _ _ => Bool
  | gitLog _ _ => Text
  | write _ _ => Unit
  | glob => List Text
  | unlink _ => Unit

/-- The environment's choice at a call. `ignored` is an `OSError` that `Path.exists` takes for
absence. -/
inductive HistoryChoice where
  | done
  | raises (e : HistoryError)
  | ignored
  | output (log : Text)
  | files (names : List Text)
  | partly (content : Text) (e : HistoryError)

/-- The `.git` entry of a directory: none, a link that leads nowhere or in a circle, or any
other. -/
inductive GitEntry where
  | absent
  | dangling
  | found
  deriving DecidableEq

/-- The children of the directories, and the `.git` entry of each. -/
structure ProjectTree where
  children : Path → Finset Name
  git : Path → Name → GitEntry

/-- The contents of the documents by their file names. -/
abbrev Documents := Text → Option Text

abbrev HistoryRecord := List (Executed HistoryCall.Ret HistoryError)

/-- A file that `glob("*.md")` lists. -/
def IsListed (docs : Documents) (file : Text) : Prop :=
  (docs file).isSome = true ∧ text ".md" <:+ file

instance (docs : Documents) : DecidablePred (IsListed docs) :=
  fun _ => inferInstanceAs (Decidable (_ ∧ _))

/-- What a listing may give: no file twice, and none that is not there. -/
def IsListing (docs : Documents) (files : List Text) : Prop :=
  files.Nodup ∧ ∀ file ∈ files, IsListed docs file

instance (docs : Documents) (files : List Text) : Decidable (IsListing docs files) :=
  inferInstanceAs (Decidable (_ ∧ _))

def respond (tree : ProjectTree) (docs : Documents) : (o : HistoryCall) → HistoryChoice →
    Except HistoryError o.Ret × Documents
  | .mkdir, .done => (.ok (), docs)
  | .iterdir path, .done => (.ok (tree.children path), docs)
  | .gitExists path name, .done => (.ok (tree.git path name = .found), docs)
  | .gitExists _ _, .ignored => (.ok false, docs)
  | .gitLog _ _, .output log => (.ok log, docs)
  | .write file content, .done => (.ok (), Function.update docs file (some content))
  | .write file _, .partly content e => (.error e, Function.update docs file (some content))
  | .glob, .files names => if IsListing docs names then (.ok names, docs)
      else (.error .os, docs)
  | .unlink file, .done => if (docs file).isSome = true then
      (.ok (), Function.update docs file none) else (.error .os, docs)
  | _, .raises e => (.error e, docs)
  | _, _ => (.error .os, docs)

/-- A program of the sync. -/
abbrev Sync := Prog HistoryCall HistoryCall.Ret HistoryError

/-- `f"{repo.name}.md"`. -/
def docName (name : Name) : Text := name.val ++ text ".md"

/-- `doc.stem` of a file that ends in `.md`. -/
def docStem (file : Text) : Text :=
  if file.length ≤ (text ".md").length then file
  else file.take (file.length - (text ".md").length)

theorem docStem_docName (name : Name) : docStem (docName name) = name.val := by
  have hlength : 0 < name.val.length := List.length_pos_iff.mpr name.2.1
  rw [docStem, docName, List.length_append, if_neg (by omega), Nat.add_sub_cancel,
    List.take_left]

theorem docName_injective : Function.Injective docName := by
  intro name name' h
  exact Subtype.ext (List.append_cancel_right h)

section Programs
variable (s : ScanSettings)

/-- `_list_dir`. -/
def listDir (path : Path) : Sync (List Name) :=
  (do
    let children ← Prog.perform (HistoryCall.iterdir path)
    return orderBy children : Sync (List Name)).orElse
  fun e => if e = .os then return [] else Prog.fail e

/-- `render_history` of what `parse_log` returns, which raises where there is nothing. -/
def rendered (name : Name) : Option (List Commit) → Sync (Option Text)
  | none => Prog.fail HistoryError.value
  | some commits => return some (renderHistory name.val commits)

/-- The `try` block of a repository: its history as text, or nothing if it cannot be read. -/
def readHistory (path : Path) (name : Name) : Sync (Option Text) :=
  (do
    let log ← Prog.perform (HistoryCall.gitLog path name)
    rendered name (parseLog log) : Sync (Option Text)).orElse
  fun e => if e = .other then Prog.fail e else return none

/-- The loop body over the children of a root, with `present`. -/
def syncRepo (ip : FlaggedIndexPath) (present : Finset Text) (name : Name) :
    Sync (Finset Text) :=
  if name ∈ ip.excludeDirs ∨ matchesIgnorePattern s name = true then return present
  else do
    let hasGit ← Prog.perform (HistoryCall.gitExists ip.path name)
    if hasGit = true then do
      let history ← readHistory ip.path name
      match history with
      | none => return insert name.val present
      | some content => do
          Prog.perform (HistoryCall.write (docName name) content)
          return insert name.val present
    else return present

/-- The loop body over the roots, with `present` and `all_roots_listed`. -/
def syncRoot (state : Finset Text × Bool) (ip : FlaggedIndexPath) :
    Sync (Finset Text × Bool) := do
  let children ← listDir ip.path
  if children = [] then return (state.1, false)
  else do
    let present ← children.foldlM (syncRepo s ip) state.1
    return (present, state.2)

/-- The loop body over the documents. -/
def removeDoc (present : Finset Text) (_ : Unit) (file : Text) : Sync Unit :=
  if docStem file ∈ present then return ()
  else Prog.perform (HistoryCall.unlink file)

/-- `project_roots`. -/
def projectRoots (indexPaths : List FlaggedIndexPath) : List FlaggedIndexPath :=
  indexPaths.filter FlaggedIndexPath.projects

/-- `_sync`. -/
def sync (indexPaths : List FlaggedIndexPath) : Sync Unit :=
  if projectRoots indexPaths = [] then return ()
  else do
    Prog.perform HistoryCall.mkdir
    let state ← (projectRoots indexPaths).foldlM (syncRoot s) (∅, true)
    if state.2 = true then do
      let files ← Prog.perform HistoryCall.glob
      files.foldlM (removeDoc state.1) ()
    else return ()

/-- `sync_git_histories`. -/
def syncGitHistories (indexPaths : List FlaggedIndexPath) : Sync Unit :=
  (sync s indexPaths).orElse fun _ => return ()

end Programs

section Calls
variable {tree : ProjectTree} {docs : Documents} {c : HistoryChoice}

/-- What a call can do to the documents. -/
theorem respond_cases (o : HistoryCall) : (respond tree docs o c).2 = docs ∨
    (∃ file content written, o = .write file content ∧
      (respond tree docs o c).2 = Function.update docs file (some written)) ∨
    ∃ file, o = .unlink file ∧ (respond tree docs o c).2 = Function.update docs file none := by
  cases o with
  | write file content =>
      cases c with
      | done => exact Or.inr (Or.inl ⟨file, content, content, rfl, rfl⟩)
      | partly written e => exact Or.inr (Or.inl ⟨file, content, written, rfl, rfl⟩)
      | raises e => exact Or.inl rfl
      | ignored => exact Or.inl rfl
      | output log => exact Or.inl rfl
      | files names => exact Or.inl rfl
  | unlink file =>
      cases c with
      | done =>
          by_cases h : (docs file).isSome = true
          · exact Or.inr (Or.inr ⟨file, rfl, by simp only [respond, if_pos h]⟩)
          · exact Or.inl (by simp only [respond, if_neg h])
      | partly written e => exact Or.inl rfl
      | raises e => exact Or.inl rfl
      | ignored => exact Or.inl rfl
      | output log => exact Or.inl rfl
      | files names => exact Or.inl rfl
  | glob =>
      left
      cases c with
      | files names =>
          simp only [respond]
          split <;> rfl
      | done => rfl
      | partly written e => rfl
      | raises e => rfl
      | ignored => rfl
      | output log => rfl
  | mkdir => left; cases c <;> rfl
  | iterdir path => left; cases c <;> rfl
  | gitExists path name => left; cases c <;> rfl
  | gitLog path name => left; cases c <;> rfl

/-- Only a write or the deletion of a document changes it. -/
theorem respond_apply {o : HistoryCall} {file : Text} (hwrite : ∀ content, o ≠ .write file content)
    (hunlink : o ≠ .unlink file) : (respond tree docs o c).2 file = docs file := by
  obtain h | ⟨file', content, _, ho, h⟩ | ⟨file', ho, h⟩ := respond_cases o
  · rw [h]
  · have hne : file ≠ file' := by
      intro heq
      exact hwrite content (heq ▸ ho)
    rw [h, Function.update_of_ne hne]
  · have hne : file ≠ file' := by
      intro heq
      exact hunlink (heq ▸ ho)
    rw [h, Function.update_of_ne hne]

/-- Only the deletion of a document takes it away. -/
theorem respond_apply_eq_none {o : HistoryCall} {file : Text} (hunlink : o ≠ .unlink file)
    (h : (respond tree docs o c).2 file = none) : docs file = none := by
  obtain ho | ⟨file', content, written, ho, hdocs⟩ | ⟨file', ho, hdocs⟩ :=
    respond_cases o
  · rwa [ho] at h
  · rw [hdocs] at h
    by_cases hfile : file = file'
    · rw [hfile, Function.update_self] at h
      cases h
    · rwa [Function.update_of_ne hfile] at h
  · have hne : file ≠ file' := by
      intro heq
      exact hunlink (heq ▸ ho)
    rwa [hdocs, Function.update_of_ne hne] at h

theorem respond_iterdir {path : Path} {names : Finset Name}
    (h : (respond tree docs (.iterdir path) c).1 = .ok names) : names = tree.children path := by
  cases c <;> cases h
  rfl

/-- What is found to exist does so. -/
theorem respond_gitExists {path : Path} {name : Name}
    (h : (respond tree docs (.gitExists path name) c).1 = .ok true) :
    tree.git path name = .found := by
  cases c with
  | done => exact of_decide_eq_true (Except.ok.inj h)
  | raises e => cases h
  | ignored => cases h
  | output log => cases h
  | files names => cases h
  | partly content e => cases h

theorem respond_glob {files : List Text} (h : (respond tree docs .glob c).1 = .ok files) :
    IsListing docs files := by
  cases c with
  | files names =>
      simp only [respond] at h
      split at h
      · cases h
        assumption
      · cases h
  | done => cases h
  | raises e => cases h
  | ignored => cases h
  | output log => cases h
  | partly content e => cases h

theorem respond_write {file content : Text} {u : Unit}
    (h : (respond tree docs (.write file content) c).1 = .ok u) :
    (respond tree docs (.write file content) c).2 =
      Function.update docs file (some content) := by
  cases c <;> cases h
  rfl

end Calls

section Meaning

/-- A child of a projects root that holds a `.git`, and is neither excluded nor ignored. -/
structure IsRepo (s : ScanSettings) (tree : ProjectTree) (ip : FlaggedIndexPath) (name : Name) :
    Prop where
  child : name ∈ tree.children ip.path
  kept : name ∉ ip.excludeDirs ∧ matchesIgnorePattern s name = false
  holdsGit : tree.git ip.path name ≠ .absent

/-- The `.git` of a child was found. -/
def GitFound (record : HistoryRecord) (path : Path) (name : Name) : Prop :=
  ⟨.gitExists path name, .ok true⟩ ∈ record

/-- The log of a repository was read and parsed. -/
def LogRead (record : HistoryRecord) (path : Path) (name : Name) (commits : List Commit) : Prop :=
  ∃ log, ⟨.gitLog path name, .ok log⟩ ∈ record ∧ parseLog log = some commits

/-- An outcome of `git log` of which nothing can be rendered. -/
def Unreadable (r : Except HistoryError Text) : Prop := ∀ log, r = .ok log → parseLog log = none

/-- The log of a repository could not be read or parsed. -/
def LogFailed (record : HistoryRecord) (path : Path) (name : Name) : Prop :=
  ∃ r, Unreadable r ∧ ⟨.gitLog path name, r⟩ ∈ record

/-- A document was written under the name of a repository, if only in part. -/
def Written (record : HistoryRecord) (name : Name) : Prop :=
  ∃ content r, ⟨.write (docName name) content, r⟩ ∈ record

variable {record : HistoryRecord} {path : Path} {name : Name} {commits : List Commit}

theorem LogRead.mono (h : LogRead record path name commits) {record' : HistoryRecord}
    (hsub : record ⊆ record') : LogRead record' path name commits := by
  obtain ⟨log, hmem, hlog⟩ := h
  exact ⟨log, hsub hmem, hlog⟩

theorem logRead_concat_iff {x : Executed HistoryCall.Ret HistoryError} :
    LogRead (record ++ [x]) path name commits ↔ LogRead record path name commits ∨
      ∃ log, x = ⟨.gitLog path name, .ok log⟩ ∧ parseLog log = some commits := by
  constructor
  · intro h
    obtain ⟨log, hmem, hlog⟩ := h
    obtain hmem | hmem := List.mem_append.mp hmem
    · exact Or.inl ⟨log, hmem, hlog⟩
    · exact Or.inr ⟨log, (List.mem_singleton.mp hmem).symm, hlog⟩
  · intro h
    obtain h | ⟨log, rfl, hlog⟩ := h
    · exact h.mono (List.subset_append_left record [x])
    · exact ⟨log, by simp, hlog⟩

/-- A call that is no log reads none. -/
theorem logRead_concat {o : HistoryCall} {r : Except HistoryError o.Ret}
    (ho : ∀ path name, o ≠ .gitLog path name) :
    LogRead (record ++ [⟨o, r⟩]) path name commits ↔ LogRead record path name commits := by
  rw [logRead_concat_iff, or_iff_left_iff_imp]
  intro h
  obtain ⟨log, hx, _⟩ := h
  exact absurd (congrArg Sigma.fst hx) (ho path name)

end Meaning

end LocalGraphRag.Ingest
