import LocalGraphRag.Ingest.ScanErrors
import LocalGraphRag.Python.Split

/-!
# Ignore patterns

`matches_ignore_pattern` reads a whole path, the walk gives it one name at a time. What the
walk hides is told by the names, so a pattern that matches only across them hides nothing.

## Implementation notes

A walk without errors, of a path below its index path. `fnmatch` is a parameter of the scan;
the definition here is the one of the standard library on a system whose file names keep
their case.
-/

namespace LocalGraphRag.Ingest

open Python

section Glob

/-- An item of a shell pattern. -/
inductive GlobItem where
  | star
  | any
  | oneOf (negated : Bool) (set : Text)
  | literal (c : CodePoint)

/-- The code point is in the set of a bracket, which may have ranges. -/
def inSet (c : CodePoint) : Text → Bool
  | [] => false
  | [a] => c == a
  | [a, b] => c == a || c == b
  | a :: b :: d :: rest =>
      if b = 0x2d then (decide (a ≤ c) && decide (c ≤ d)) || inSet c rest
      else c == a || inSet c (b :: d :: rest)

/-- The items of a pattern, with its length for fuel. A bracket that is not closed stands
for itself, and one right after the opening belongs to the set. -/
def globItems : ℕ → Text → List GlobItem
  | 0, _ => []
  | _, [] => []
  | fuel + 1, c :: pattern =>
      if c = 0x2a then .star :: globItems fuel pattern
      else if c = 0x3f then .any :: globItems fuel pattern
      else if c = 0x5b then
        let negated := pattern.head? == some 0x21
        let body := if negated then pattern.tail else pattern
        let first := if body.head? = some 0x5d then 1 else 0
        let inner := (body.drop first).takeWhile fun d => d ≠ 0x5d
        match (body.drop first).dropWhile fun d => d ≠ 0x5d with
        | [] => .literal c :: globItems fuel pattern
        | _ :: rest => .oneOf negated (body.take first ++ inner) :: globItems fuel rest
      else .literal c :: globItems fuel pattern

def globMatches : List GlobItem → Text → Bool
  | [], s => s.isEmpty
  | .star :: items, s => (List.range (s.length + 1)).any fun n => globMatches items (s.drop n)
  | .any :: items, s => !s.isEmpty && globMatches items s.tail
  | .oneOf negated set :: items, s =>
      s.head?.any (fun c => inSet c set != negated) && globMatches items s.tail
  | .literal c :: items, s => s.head? == some c && globMatches items s.tail

/-- `fnmatch.fnmatch`. -/
def fnmatch (name pattern : Text) : Bool := globMatches (globItems pattern.length pattern) name

example : fnmatch (text "a/key.pem") (text "*.p[a-e]m") = true := by decide

end Glob

section Patterns
variable (s : ScanSettings)

/-- The slash rule of `_pattern_matches`, for a pattern that holds a slash once normalized. -/
def slashMatches (normalizedPathText pattern : Text) : Bool :=
  let normalizedPattern := replace (text "\\") (text "/") pattern
  normalizedPattern.contains 0x2f &&
    (s.fnmatch normalizedPathText normalizedPattern ||
      s.fnmatch normalizedPathText (text "*/" ++ normalizedPattern) ||
      s.fnmatch normalizedPathText (text "*/" ++ normalizedPattern ++ text "/*"))

/-- `_pattern_matches`. -/
def patternMatches (pattern : Text) (parts : List Text) (pathText normalizedPathText : Text) :
    Bool :=
  parts.contains pattern || parts.any (fun part => s.fnmatch part pattern) ||
    s.fnmatch pathText pattern || slashMatches s normalizedPathText pattern

/-- `matches_ignore_pattern` of a relative path. -/
def matchesIgnorePath (path : List Name) : Bool :=
  let parts := path.map Subtype.val
  let pathText := join (text "/") parts
  let normalizedPathText := replace (text "\\") (text "/") pathText
  s.ignorePatterns.any fun pattern => patternMatches s pattern parts pathText normalizedPathText

/-- A component of the path is a pattern, or matches one. -/
def ComponentMatches (path : List Name) : Prop :=
  ∃ name ∈ path, ∃ pattern ∈ s.ignorePatterns,
    pattern = name.val ∨ s.fnmatch name.val pattern = true

/-- The slash rule applies to the text of the path. -/
def SlashMatches (pathText : Text) : Prop :=
  ∃ pattern ∈ s.ignorePatterns,
    slashMatches s (replace (text "\\") (text "/") pathText) pattern = true

/-- The text of the path matches a pattern, whatever its components do. -/
def WholeMatches (path : List Name) : Prop :=
  (∃ pattern ∈ s.ignorePatterns,
      s.fnmatch (join (text "/") (path.map Subtype.val)) pattern = true) ∨
    SlashMatches s (join (text "/") (path.map Subtype.val))

variable {s}

theorem matchesIgnorePath_iff {path : List Name} : matchesIgnorePath s path = true ↔
    ComponentMatches s path ∨ WholeMatches s path := by
  simp only [matchesIgnorePath, patternMatches, List.any_eq_true, Bool.or_eq_true,
    List.contains_iff_mem, List.mem_map]
  constructor
  · intro h
    obtain ⟨pattern, hpattern, ((hpart | hpart) | hwhole) | hslash⟩ := h
    · obtain ⟨name, hname, heq⟩ := hpart
      exact Or.inl ⟨name, hname, pattern, hpattern, Or.inl heq.symm⟩
    · obtain ⟨_, ⟨name, hname, rfl⟩, hmatch⟩ := hpart
      exact Or.inl ⟨name, hname, pattern, hpattern, Or.inr hmatch⟩
    · exact Or.inr (Or.inl ⟨pattern, hpattern, hwhole⟩)
    · exact Or.inr (Or.inr ⟨pattern, hpattern, hslash⟩)
  · intro h
    obtain ⟨name, hname, pattern, hpattern, heq | hmatch⟩ |
      ⟨pattern, hpattern, hwhole⟩ | ⟨pattern, hpattern, hslash⟩ := h
    · exact ⟨pattern, hpattern, Or.inl (Or.inl (Or.inl ⟨name, hname, heq.symm⟩))⟩
    · exact ⟨pattern, hpattern, Or.inl (Or.inl (Or.inr ⟨_, ⟨name, hname, rfl⟩, hmatch⟩))⟩
    · exact ⟨pattern, hpattern, Or.inl (Or.inr hwhole)⟩
    · exact ⟨pattern, hpattern, Or.inr hslash⟩

/-- A walk asks the patterns about a path of one name. -/
theorem matchesIgnorePattern_eq (name : Name) :
    matchesIgnorePattern s name = matchesIgnorePath s [name] := by
  rw [matchesIgnorePattern, matchesIgnorePath]
  congr 1
  funext pattern
  have hcontains : [name.val].contains pattern = decide (pattern = name.val) := by
    simp
  simp only [patternMatches, slashMatches, List.map_cons, List.map_nil, join_singleton,
    List.any_cons, List.any_nil, Bool.or_false, hcontains, Bool.or_assoc, Bool.or_self_left]

/-- A name by itself is ignored if it is or matches a pattern, or the slash rule applies. -/
theorem matchesIgnorePattern_iff {name : Name} : matchesIgnorePattern s name = true ↔
    ComponentMatches s [name] ∨ SlashMatches s name.val := by
  rw [matchesIgnorePattern_eq, matchesIgnorePath_iff, WholeMatches]
  simp only [List.map_cons, List.map_nil, join_singleton]
  constructor
  · intro h
    obtain h | ⟨pattern, hpattern, hmatch⟩ | h := h
    · exact Or.inl h
    · exact Or.inl ⟨name, List.mem_singleton_self name, pattern, hpattern, Or.inr hmatch⟩
    · exact Or.inr h
  · intro h
    obtain h | h := h
    · exact Or.inl h
    · exact Or.inr (Or.inr h)

end Patterns

/-- No call raises. -/
def noFaults : Faults := fun _ => false

/-- The entry at a path below a directory. -/
inductive Holds : Entries → List Name → Node → Prop
  | here {entries : Entries} {name : Name} {node : Node} (hentry : (name, node) ∈ entries) :
      Holds entries [name] node
  | down {entries below : Entries} {name : Name} {path : List Name} {node : Node}
      (hentry : (name, Node.dir below) ∈ entries) (hbelow : Holds below path node) :
      Holds entries (name :: path) node

section Walk
variable {s : ScanSettings} {ip : IndexPath} {n d m e : Path} {entries entries' : Entries}

/-- The walk goes through a directory of this name. -/
def Passes (s : ScanSettings) (ip : IndexPath) (name : Name) : Prop :=
  matchesIgnorePattern s name = false ∧ name ∉ ip.excludeDirs

theorem descends_dir_iff (hrecursive : ip.recursive = true) {name : Name} {below : Entries} :
    descends noFaults s ip d (name, .dir below) = true ↔ Passes s ip name := by
  simp [descends, keepsDir, islink, listedAsDir, noFaults, Node.entryIsDir, Node.isSymlink,
    hrecursive, Passes, and_comm]

theorem admits_noFaults_iff {path : Path} {node : Node} :
    Admits noFaults s path node ↔ Indexable s path node := by
  constructor
  · intro h
    exact h.indexable
  · intro h
    exact ⟨⟨rfl, h.not_isSymlink, rfl⟩, rfl, rfl, h⟩

theorem accepted_iff_indexable {path : Path} {node : Node} :
    isSafeIndexableFile noFaults s path node = .ok (true, none) ↔ Indexable s path node := by
  rw [← admits_noFaults_iff, ← isSafeIndexableFile_accepted_iff]
  constructor
  · intro h
    exact ⟨none, h⟩
  · intro h
    obtain ⟨swallowed, h⟩ := h
    have hchecked := isSafeIndexableFile_checked noFaults s path node
    rw [h] at hchecked ⊢
    cases hchecked with
    | accepted _ => rfl

theorem not_failsLoudly : ¬ FailsLoudly noFaults s d entries := by
  intro h
  obtain hfault | ⟨entry, -, -, c, hraises⟩ := h
  · cases hfault
  · cases hraises with
    | isSymlink hfault | isFile _ hfault => cases hfault

/-- Without errors a visit collects what is accepted and not ignored. -/
theorem mem_visit_files_iff {f : Path} : f ∈ (visit noFaults s ip d entries).files ↔
    ∃ name node, (name, node) ∈ entries ∧ f = d ++ [name] ∧
      matchesIgnorePattern s name = false ∧ Indexable s (d ++ [name]) node := by
  rw [mem_visit_files, Shows, and_iff_right not_failsLoudly]
  constructor
  · intro h
    obtain ⟨entry, hentry, hinspected, hf, hadmits⟩ := h
    exact ⟨entry.1, entry.2, hentry, hf, hinspected.2, admits_noFaults_iff.mp hadmits⟩
  · intro h
    obtain ⟨name, node, hentry, hf, hname, hindexable⟩ := h
    have hfile : listedAsDir noFaults d (name, node) = false := by
      cases hnode : node with
      | file size => rfl
      | link | other | dir => simpa [hnode, Node.isFile] using hindexable.isFile
    exact ⟨(name, node), hentry, ⟨hfile, hname⟩, hf, admits_noFaults_iff.mpr hindexable⟩

/-- A walk reaches the directories below its own that it passes all the way. -/
theorem Reaches.holds (hrecursive : ip.recursive = true)
    (h : Reaches (fun _ => noFaults) s ip n d entries m e entries') : ∃ path, e = d ++ path ∧
      (∀ name ∈ path, Passes s ip name) ∧
      ∀ rest node, Holds entries' rest node → Holds entries (path ++ rest) node := by
  induction h with
  | here n d entries => exact ⟨[], (List.append_nil d).symm, by simp, fun _ _ => id⟩
  | @down n d entries entry d' below m e entries' _ hentry hdescends hopened _ ih =>
      obtain ⟨name, node⟩ := entry
      obtain ⟨rfl, rfl⟩ := opened_of_descends rfl hdescends hopened
      obtain ⟨path, rfl, hpasses, hholds⟩ := ih
      refine ⟨name :: path, by simp, ?_, fun rest node h => .down hentry (hholds rest node h)⟩
      rw [List.forall_mem_cons]
      exact ⟨(descends_dir_iff hrecursive).mp hdescends, hpasses⟩

/-- What is held below directories that the walk passes is held by one that it reaches. -/
theorem Holds.reaches (hrecursive : ip.recursive = true) {path : List Name} {node : Node}
    (h : Holds entries path node) (n d : Path)
    (hpasses : ∀ name ∈ path.dropLast, Passes s ip name) : ∃ init name m entries',
      path = init ++ [name] ∧
        Reaches (fun _ => noFaults) s ip n d entries m (d ++ init) entries' ∧
          (name, node) ∈ entries' := by
  induction h generalizing n d with
  | @here entries name node hentry =>
      refine ⟨[], name, n, entries, rfl, ?_, hentry⟩
      rw [List.append_nil]
      exact .here n d entries
  | @down entries below name path node hentry hbelow ih =>
      have hne : path ≠ [] := by cases hbelow <;> exact List.cons_ne_nil _ _
      rw [List.dropLast_cons_of_ne_nil hne, List.forall_mem_cons] at hpasses
      obtain ⟨init, last, m, entries', rfl, hreaches, hlast⟩ :=
        ih (n ++ [name]) (d ++ [name]) hpasses.2
      refine ⟨name :: init, last, m, entries', rfl, ?_, hlast⟩
      rw [List.append_assoc] at hreaches
      exact .down rfl hentry ((descends_dir_iff hrecursive).mpr hpasses.1) rfl hreaches

/-- A walk collects the accepted files with no hidden name on their path. -/
theorem mem_walkDir_files_iff (hrecursive : ip.recursive = true) {path : List Name} :
    d ++ path ∈ (walkDir (fun _ => noFaults) s ip n d (.dir entries)).files ↔
      ∃ node, Holds entries path node ∧ Indexable s (d ++ path) node ∧
        (∀ name ∈ path, matchesIgnorePattern s name = false) ∧
        ∀ name ∈ path.dropLast, name ∉ ip.excludeDirs := by
  rw [mem_walkDir gathers_files]
  constructor
  · intro h
    obtain ⟨m, e, entries', hreaches, hfile⟩ := h
    obtain ⟨init, rfl, hpasses, hholds⟩ := hreaches.holds hrecursive
    obtain ⟨name, node, hentry, hpath, hname, hindexable⟩ := mem_visit_files_iff.mp hfile
    have hsplit : path = init ++ [name] := by
      rw [List.append_assoc] at hpath
      exact List.append_cancel_left hpath
    rw [hsplit, ← List.append_assoc, List.dropLast_concat, List.forall_mem_append,
      List.forall_mem_singleton]
    exact ⟨node, hholds _ _ (.here hentry), hindexable,
      ⟨fun name hmem => (hpasses name hmem).1, hname⟩, fun name hmem => (hpasses name hmem).2⟩
  · intro h
    obtain ⟨node, hholds, hindexable, hnames, hdirs⟩ := h
    have hpasses : ∀ name ∈ path.dropLast, Passes s ip name :=
      fun name hmem => ⟨hnames name (List.mem_of_mem_dropLast hmem), hdirs name hmem⟩
    obtain ⟨init, name, m, entries', rfl, hreaches, hentry⟩ :=
      hholds.reaches hrecursive n d hpasses
    refine ⟨m, d ++ init, entries', hreaches,
      mem_visit_files_iff.mpr ⟨name, node, hentry, ?_, ?_, ?_⟩⟩
    · exact (List.append_assoc ..).symm
    · exact hnames name (List.mem_append_right _ (List.mem_singleton_self name))
    · rwa [List.append_assoc]

end Walk

section Agreement
variable {s : ScanSettings} {fs : Node} {ip : IndexPath}

/-- A file below the index path that `_is_safe_indexable_file` accepts. -/
def AcceptedBelow (s : ScanSettings) (fs : Node) (ip : IndexPath) (path : List Name) : Prop :=
  ∃ entries node, fs.lookup ip.path = some (.dir entries) ∧ Holds entries path node ∧
    isSafeIndexableFile noFaults s (ip.path ++ path) node = .ok (true, none)

/-- No directory on the way to the file is excluded. -/
def Included (ip : IndexPath) (path : List Name) : Prop :=
  ∀ name ∈ path.dropLast, name ∉ ip.excludeDirs

/-- The patterns hide what they match: the walk collects an accepted file exactly if they do
not match its path below the index path and no directory on the way is excluded. -/
def HidesMatches (s : ScanSettings) (fs : Node) (ip : IndexPath) : Prop :=
  ∃ found, walkIndexPath (fun _ => noFaults) s fs ip = .ok found ∧
    ∀ path, AcceptedBelow s fs ip path →
      (ip.path ++ path ∈ found.files ↔ matchesIgnorePath s path = false ∧ Included ip path)

/-- An accepted file is collected if no name on its path is hidden. -/
theorem exists_walkIndexPath_files (hrecursive : ip.recursive = true) :
    ∃ found, walkIndexPath (fun _ => noFaults) s fs ip = .ok found ∧
      ∀ path, AcceptedBelow s fs ip path → (ip.path ++ path ∈ found.files ↔
        (∀ name ∈ path, matchesIgnorePattern s name = false) ∧ Included ip path) := by
  by_cases hdir : ∃ entries, fs.lookup ip.path = some (.dir entries)
  · obtain ⟨entries, hentries⟩ := hdir
    have hwalk : walkIndexPath (fun _ => noFaults) s fs ip =
        .ok (walkDir (fun _ => noFaults) s ip ip.path ip.path (.dir entries)) := by
      rw [walkIndexPath, hentries]
      rfl
    refine ⟨_, hwalk, fun path haccepted => ?_⟩
    obtain ⟨entries', node, hentries', hholds, haccepts⟩ := haccepted
    cases hentries.symm.trans hentries'
    rw [mem_walkDir_files_iff hrecursive]
    constructor
    · intro h
      obtain ⟨-, -, -, hnames, hdirs⟩ := h
      exact ⟨hnames, hdirs⟩
    · intro h
      exact ⟨node, hholds, accepted_iff_indexable.mp haccepts, h.1, h.2⟩
  · have hempty : walkIndexPath (fun _ => noFaults) s fs ip = .ok .empty := by
      rw [walkIndexPath]
      cases hnode : fs.lookup ip.path with
      | none => rfl
      | some node =>
          cases node with
          | dir entries => exact absurd ⟨entries, hnode⟩ hdir
          | file | link | other => rfl
    refine ⟨_, hempty, fun path haccepted => ?_⟩
    obtain ⟨entries, -, hentries, -⟩ := haccepted
    exact absurd ⟨entries, hentries⟩ hdir

/-- Some name of the path is hidden if one is or matches a pattern, or the slash rule
applies to one. -/
theorem exists_hidden_iff {path : List Name} :
    (∃ name ∈ path, matchesIgnorePattern s name = true) ↔
      ComponentMatches s path ∨ ∃ name ∈ path, SlashMatches s name.val := by
  simp only [matchesIgnorePattern_iff, ComponentMatches, List.mem_singleton, exists_eq_left,
    and_or_left, exists_or]

/-- The patterns hide what they match exactly if no path matches only as a whole: where no
component is or matches a pattern, the path as a whole matches one as far as a single name
does by the slash rule. -/
theorem hidesMatches_iff (hrecursive : ip.recursive = true) : HidesMatches s fs ip ↔
    ∀ path, AcceptedBelow s fs ip path → Included ip path → ¬ ComponentMatches s path →
      (WholeMatches s path ↔ ∃ name ∈ path, SlashMatches s name.val) := by
  obtain ⟨found, hfound, hfiles⟩ := exists_walkIndexPath_files (s := s) hrecursive
  have hshown : ∀ path, (∀ name ∈ path, matchesIgnorePattern s name = false) ↔
      ¬ (ComponentMatches s path ∨ ∃ name ∈ path, SlashMatches s name.val) := by
    intro path
    rw [← exists_hidden_iff]
    simp
  have hunmatched : ∀ path, matchesIgnorePath s path = false ↔
      ¬ (ComponentMatches s path ∨ WholeMatches s path) := by
    intro path
    rw [← matchesIgnorePath_iff, Bool.not_eq_true]
  constructor
  · intro h path haccepted hincluded hcomponent
    obtain ⟨found', hfound', hhides⟩ := h
    cases hfound.symm.trans hfound'
    have hiff := (hfiles path haccepted).symm.trans (hhides path haccepted)
    rw [hshown, hunmatched, and_iff_left hincluded, and_iff_left hincluded, not_iff_not,
      or_iff_right hcomponent, or_iff_right hcomponent] at hiff
    exact hiff.symm
  · intro h
    refine ⟨found, hfound, fun path haccepted => ?_⟩
    rw [hfiles path haccepted, hshown, hunmatched]
    apply and_congr_left
    intro hincluded
    by_cases hcomponent : ComponentMatches s path
    · simp [hcomponent]
    · rw [h path haccepted hincluded hcomponent]

def secretsName : Name := ⟨text "secrets", by decide⟩

def secretsTree : Node := .dir [(docsName, .dir [(secretsName, .dir [(notesName, .file 7)])])]

def secretsScan : ScanSettings where
  indexPaths := [⟨[docsName], true, []⟩]
  ignorePatterns := [text "secrets/notes.md"]
  fnmatch := fnmatch
  hasAllowedExtension := fun _ => true
  maxIndexFileBytes := 1000

theorem secrets_accepted :
    AcceptedBelow secretsScan secretsTree ⟨[docsName], true, []⟩ [secretsName, notesName] := by
  refine ⟨_, .file 7, rfl, ?_, by decide +kernel⟩
  exact .down (List.mem_singleton_self _) (.here (List.mem_singleton_self _))

/-- The pattern matches the path as a whole and none of its names. -/
theorem hidesMatches_iff_secrets :
    ¬ HidesMatches secretsScan secretsTree ⟨[docsName], true, []⟩ := by
  intro h
  have hcomponent : ¬ ComponentMatches secretsScan [secretsName, notesName] := by
    simp only [ComponentMatches]
    decide +kernel
  have hwhole : WholeMatches secretsScan [secretsName, notesName] := by
    refine Or.inr ⟨_, List.mem_singleton_self _, by decide +kernel⟩
  have hslash : ¬ ∃ name ∈ [secretsName, notesName], SlashMatches secretsScan name.val := by
    simp only [SlashMatches]
    decide +kernel
  exact hslash (((hidesMatches_iff rfl).mp h _ secrets_accepted (by simp [Included])
    hcomponent).mp hwhole)

/-- A file that a pattern with a slash matches is collected. -/
theorem secrets_collected :
    AcceptedBelow secretsScan secretsTree ⟨[docsName], true, []⟩ [secretsName, notesName] ∧
    matchesIgnorePath secretsScan [secretsName, notesName] = true ∧
    ∃ found, walkIndexPath (fun _ => noFaults) secretsScan secretsTree
        ⟨[docsName], true, []⟩ = .ok found ∧
      [docsName, secretsName, notesName] ∈ found.files :=
  ⟨secrets_accepted, by decide +kernel, _, rfl, by decide +kernel⟩

end Agreement

end LocalGraphRag.Ingest
