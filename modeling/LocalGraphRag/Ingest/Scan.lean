import LocalGraphRag.Python.Paths
import LocalGraphRag.Ingest.Indexer

/-!
# The scan of the index paths

`_collect_files` over a directory tree. Every filesystem call may raise: the
pattern of errors is a function of the index path, of the directory that the walk
is at and of the call, since a walk makes each call once.

## Implementation notes

An index path is stored resolved. `os.walk` follows a link to a directory only
where its `islink` fails, which it takes for "no link"; below, the walk names
the entries by the link, and `resolve` and `normalize_path` give their paths below
the target. The model keeps both: the name of the directory tells the errors
apart, the calls and the results carry the resolved path.

`raise` is meant as `pathlib` has it: a `stat` that says that there is no such entry
is the answer no. `errors` is a history variable that no part of the scan reads: the
calls that raised, whether or not anyone noticed.
-/

namespace LocalGraphRag.Ingest

open Python

/-- A file system entry. A link tells where it leads and what is seen through it, which is
`other` where it leads nowhere. -/
inductive Node where
  | file (size : Nat)
  | link (target : Path) (seen : Node)
  | other
  | dir (entries : List (Name × Node))

/-- A directory listing. -/
abbrev Entries := List (Name × Node)

namespace Node

def isSymlink : Node → Bool
  | link _ _ => true
  | _ => false

def isFile : Node → Bool
  | file _ => true
  | _ => false

/-- `DirEntry.is_dir()`, which follows a link. -/
def entryIsDir : Node → Bool
  | dir _ => true
  | link _ seen => seen.entryIsDir
  | _ => false

/-- The directory that `os.scandir` lists for an entry at this path. -/
def opened : Path → Node → Option (Path × Entries)
  | path, dir entries => some (path, entries)
  | _, link target seen => seen.opened target
  | _, _ => none

/-- `st_size` of what is a file. -/
def size : Node → Nat
  | file n => n
  | _ => 0

/-- The entry at a path below this one. -/
def lookup : Node → Path → Option Node
  | node, [] => some node
  | dir entries, name :: rest => (List.lookup name entries).bind fun child => child.lookup rest
  | _, _ :: _ => none

end Node

/-- A filesystem call of the scan. -/
inductive FsCall where
  | isDir (path : Path)
  | scandir (path : Path)
  | entryIsDir (path : Path)
  | islink (path : Path)
  | isSymlink (path : Path)
  | resolve (path : Path)
  | isFile (path : Path)
  | stat (path : Path)
  deriving DecidableEq

def FsCall.path : FsCall → Path
  | isDir p | scandir p | entryIsDir p | islink p | isSymlink p | resolve p | isFile p
  | stat p => p

/-- The calls that raise `OSError` while the walk is at one directory. -/
abbrev Faults := FsCall → Bool

/-- The errors of a walk, by the name of the directory that it is at. -/
abbrev WalkFaults := Path → Faults

/-- An entry of `index_paths`, as far as the scan reads it. -/
structure IndexPath where
  path : Path
  recursive : Bool
  excludeDirs : List Name

structure ScanSettings where
  indexPaths : List IndexPath
  ignorePatterns : List Text
  fnmatch : Text → Text → Bool
  hasAllowedExtension : Name → Bool
  maxIndexFileBytes : Nat

/-- A name matches one of the patterns: `matches_ignore_pattern` of a path that is
a single name. -/
def matchesIgnorePattern (s : ScanSettings) (name : Name) : Bool :=
  let slash := text "/"
  let normalizedName := replace (text "\\") slash name.val
  s.ignorePatterns.any fun pattern =>
    let normalizedPattern := replace (text "\\") slash pattern
    pattern = name.val || s.fnmatch name.val pattern ||
      (normalizedPattern.contains 0x2f &&
        (s.fnmatch normalizedName normalizedPattern ||
          s.fnmatch normalizedName (text "*/" ++ normalizedPattern) ||
          s.fnmatch normalizedName (text "*/" ++ normalizedPattern ++ text "/*")))

/-- What a walk gathers. -/
structure Walk where
  files : List Path
  unscanned : List Path
  errors : List FsCall

namespace Walk

def empty : Walk := ⟨[], [], []⟩

instance : Append Walk :=
  ⟨fun a b => ⟨a.files ++ b.files, a.unscanned ++ b.unscanned, a.errors ++ b.errors⟩⟩

end Walk

section Calls
variable (faults : Faults)

/-- One call: it raises, or returns what the tree says. -/
def attempt {α : Type} (c : FsCall) (a : α) : Except FsCall α :=
  if faults c then .error c else .ok a

/-- `_is_within_size_limit`, with the error that it swallows. -/
def isWithinSizeLimit (s : ScanSettings) (path : Path) (node : Node) :
    Bool × Option FsCall :=
  match attempt faults (.stat path) node.size with
  | .error c => (false, some c)
  | .ok size => (size ≤ s.maxIndexFileBytes, none)

/-- `_is_safe_indexable_file`, with the error that it swallows. -/
def isSafeIndexableFile (s : ScanSettings) (path : Path) (node : Node) :
    Except FsCall (Bool × Option FsCall) :=
  match attempt faults (.isSymlink path) node.isSymlink with
  | .error c => .error c
  | .ok true => .ok (false, none)
  | .ok false =>
      match attempt faults (.resolve path) path with
      | .error c => .ok (false, some c)
      | .ok resolved =>
          match attempt faults (.isFile resolved) node.isFile with
          | .error c => .error c
          | .ok false => .ok (false, none)
          | .ok true =>
              if s.indexPaths.any (fun ip => ip.path.isPrefixOf resolved) &&
                  resolved.getLast?.any s.hasAllowedExtension then
                .ok (isWithinSizeLimit faults s resolved node)
              else .ok (false, none)

/-- The comprehension over `_accept`: the first error that is not swallowed ends it.
With it, all errors that were raised. -/
def acceptAll (s : ScanSettings) (dirpath : Path) :
    Entries → Except FsCall (List Path) × List FsCall
  | [] => (.ok [], [])
  | (name, node) :: rest =>
      if matchesIgnorePattern s name then acceptAll s dirpath rest
      else
        match isSafeIndexableFile faults s (dirpath ++ [name]) node with
        | .error c => (.error c, [c])
        | .ok (accepted, swallowed) =>
            let (files, errors) := acceptAll s dirpath rest
            (files.map fun files =>
                if accepted then (dirpath ++ [name]) :: files else files,
              swallowed.toList ++ errors)

/-- Whether `os.walk` lists the entry as a directory: an error counts as no. -/
def listedAsDir (dirpath : Path) (entry : Name × Node) : Bool :=
  !faults (.entryIsDir (dirpath ++ [entry.1])) && entry.2.entryIsDir

/-- The errors of `DirEntry.is_dir`, which `os.walk` swallows. -/
def entryErrors (dirpath : Path) (entries : Entries) : List FsCall :=
  (entries.map fun entry => FsCall.entryIsDir (dirpath ++ [entry.1])).filter faults

/-- The entry stays in `dirnames`. -/
def keepsDir (s : ScanSettings) (ip : IndexPath) (dirpath : Path) (entry : Name × Node) : Bool :=
  listedAsDir faults dirpath entry && ip.recursive && !ip.excludeDirs.contains entry.1 &&
    !matchesIgnorePattern s entry.1

/-- `os.path.islink`: an error counts as no. -/
def islink (dirpath : Path) (entry : Name × Node) : Bool :=
  !faults (.islink (dirpath ++ [entry.1])) && entry.2.isSymlink

/-- The errors of `os.path.islink`, which it swallows. -/
def islinkErrors (s : ScanSettings) (ip : IndexPath) (dirpath : Path) (entries : Entries) :
    List FsCall :=
  ((entries.filter (keepsDir faults s ip dirpath)).map fun entry =>
    FsCall.islink (dirpath ++ [entry.1])).filter faults

/-- `os.walk` goes down to the entry. -/
def descends (s : ScanSettings) (ip : IndexPath) (dirpath : Path) (entry : Name × Node) :
    Bool :=
  keepsDir faults s ip dirpath entry && !islink faults dirpath entry

/-- One round of the loop of `_walk_index_path`: the directory itself. -/
def visit (s : ScanSettings) (ip : IndexPath) (dirpath : Path) (entries : Entries) : Walk :=
  match attempt faults (.scandir dirpath) entries with
  | .error c => ⟨[], [dirpath], [c]⟩
  | .ok entries =>
      let accepted := acceptAll faults s dirpath
        (entries.filter fun entry => !listedAsDir faults dirpath entry)
      let swallowed :=
        entryErrors faults dirpath entries ++ islinkErrors faults s ip dirpath entries
      match accepted.1 with
      | .error _ => ⟨[], [dirpath], swallowed ++ accepted.2⟩
      | .ok files => ⟨files, [], swallowed ++ accepted.2⟩

end Calls

section Walks
variable (faults : WalkFaults)

mutual

/-- The loop over `os.walk`, from one directory on. -/
def walkDir (s : ScanSettings) (ip : IndexPath) (named dirpath : Path) : Node → Walk
  | .dir entries =>
      if faults named (.scandir dirpath) then visit (faults named) s ip dirpath entries
      else visit (faults named) s ip dirpath entries ++ walkEntries s ip named dirpath entries
  | .link target seen => walkDir s ip named target seen
  | _ => .empty

def walkEntries (s : ScanSettings) (ip : IndexPath) (named dirpath : Path) : Entries → Walk
  | [] => .empty
  | (name, node) :: rest =>
      (if descends (faults named) s ip dirpath (name, node) then
        walkDir s ip (named ++ [name]) (dirpath ++ [name]) node
      else .empty) ++ walkEntries s ip named dirpath rest

end

/-- `_walk_index_path`. -/
def walkIndexPath (s : ScanSettings) (fs : Node) (ip : IndexPath) : Except FsCall Walk :=
  match attempt (faults ip.path) (.isDir ip.path) (fs.lookup ip.path) with
  | .error c => .error c
  | .ok (some (.dir entries)) => .ok (walkDir faults s ip ip.path ip.path (.dir entries))
  | .ok _ => .ok .empty

end Walks

section Collect
variable (faults : Nat → WalkFaults) (s : ScanSettings) (fs : Node)

/-- The loop of `_collect_files` from one index path on. -/
def collectFrom : Nat → List IndexPath → Except FsCall Walk
  | _, [] => .ok .empty
  | k, ip :: rest => do
      let found ← walkIndexPath (faults k) s fs ip
      let others ← collectFrom (k + 1) rest
      let unscanned := if found.files = [] then [ip.path] else []
      return found ++ ⟨[], unscanned, []⟩ ++ others

/-- `_collect_files`: the indexable files and the unscanned paths. -/
def collectFiles : Except FsCall Walk := collectFrom faults s fs 0 s.indexPaths

end Collect

end LocalGraphRag.Ingest
