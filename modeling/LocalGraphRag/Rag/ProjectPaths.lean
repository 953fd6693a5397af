import LocalGraphRag.Graph.RecordStore
import LocalGraphRag.Ingest.Chunkers
import LocalGraphRag.Ingest.HistorySync
import LocalGraphRag.Rag.ProjectScope
import LocalGraphRag.Sequences.Grouping

/-!
# The files of the projects that a question names

The indexed paths are grouped by the direct subdirectories of the project roots, and every
project has the history document of its name besides.

## Implementation notes

One loop fills both dictionaries in the source, here each has its own. The roots and the
history directory are resolved paths.
-/

namespace LocalGraphRag.Rag

open LocalGraphRag.Python LocalGraphRag.Sequences
open LocalGraphRag.Ingest (FlaggedIndexPath suffix)

section Groups
variable (historyDir : Path) (roots : List Path) (paths : List Text)

/-- The parts of `Path(p).parent`; the root is its own. -/
def parentParts (p : Text) : List Text :=
  if pathParts p = [[0x2f]] then pathParts p else (pathParts p).dropLast

/-- `path.stem`. -/
def stem (p : Text) : Text :=
  let name := (pathParts p).getLast?.getD []
  name.take (name.length - (suffix p).length)

/-- The key of a path among the history documents. -/
def documentStem (p : Text) : Option Text :=
  if parentParts p = pathParts historyDir.str then some (stem p) else none

/-- `path.relative_to(root).parts`. -/
def insideParts (root : Path) (p : Text) : List Text :=
  (pathParts p).drop (pathParts root.str).length

/-- The key of another path among the projects: its first part under a root, unless it is
the last one. -/
def projectOf (p : Text) : Option Text :=
  if parentParts p = pathParts historyDir.str then none
  else (roots.find? fun root => isRelativeTo p root.str && 1 < (insideParts root p).length).bind
    fun root => (insideParts root p).head?

/-- A round of the last loop of `_group_by_project`. -/
def addHistory (projects : List (Text × List Text)) (history : Text × Text) :
    List (Text × List Text) :=
  if history.1 ∈ projects.map Prod.fst then
    alter (fun found => found.getD [] ++ [history.2]) history.1 projects
  else projects

def groupByProject : List (Text × List Text) :=
  let projects := paths.foldl (appendItem (projectOf historyDir roots)) []
  let histories := paths.foldl (assignItem (documentStem historyDir)) []
  histories.foldl addHistory projects

end Groups

section Scope
variable {ε : Type} (lowering : Lowering) (question : Text) (historyDir : Path)
variable (config : Except ε (Option (List FlaggedIndexPath))) (paths : List Text)

/-- `_project_roots`, for what `load_index_config` gives. -/
def projectRoots : List Path :=
  match config with
  | .ok (some indexPaths) => (indexPaths.filter FlaggedIndexPath.projects).map fun ip => ip.path
  | _ => []

/-- The names that `project_paths` finds in the question. -/
def namedProjects : List Text :=
  matchProjects lowering question
    ((groupByProject historyDir (projectRoots config) paths).map Prod.fst).toFinset

/-- `project_paths`. -/
def projectPaths : Option (List Text) :=
  if projectRoots config = [] then none
  else
    let projects := groupByProject historyDir (projectRoots config) paths
    let found := (namedProjects lowering question historyDir config paths).flatMap fun name =>
      (projects.lookup name).getD []
    if found = [] then none else some found

end Scope

section Grouped
variable {historyDir : Path} {roots : List Path} {paths : List Text}

theorem lookup_addHistory (projects : List (Text × List Text)) (history : Text × Text)
    (name : Text) : (addHistory projects history).lookup name =
      (projects.lookup name).map fun found =>
        if name = history.1 then found ++ [history.2] else found := by
  rw [addHistory]
  by_cases hkey : history.1 ∈ projects.map Prod.fst
  · rw [if_pos hkey, lookup_alter]
    by_cases hname : name = history.1
    · obtain ⟨found, hfound⟩ := mem_keys_iff.mp hkey
      simp [hname, hfound]
    · simp [hname]
  · rw [if_neg hkey]
    by_cases hname : name = history.1
    · have hnone : projects.lookup name = none := by
        rw [hname, ← Option.not_isSome_iff_eq_none, Option.isSome_iff_exists]
        exact fun h => hkey (mem_keys_iff.mpr h)
      simp [hnone]
    · simp [hname]

/-- Every project gets the history document of its name. -/
theorem lookup_foldl_addHistory {histories : List (Text × Text)}
    (h : (histories.map Prod.fst).Nodup) (projects : List (Text × List Text)) (name : Text) :
    (histories.foldl addHistory projects).lookup name =
      (projects.lookup name).map (· ++ (histories.lookup name).toList) := by
  induction histories generalizing projects with
  | nil => simp
  | cons history histories ih =>
      obtain ⟨key, p⟩ := history
      rw [List.map_cons, List.nodup_cons] at h
      rw [List.foldl_cons, ih h.2, lookup_addHistory, Option.map_map, lookup_entry]
      congr 1
      funext found
      by_cases hname : name = key
      · have hnone : histories.lookup name = none := by
          rw [hname, ← Option.not_isSome_iff_eq_none, Option.isSome_iff_exists]
          exact fun hsome => h.1 (mem_keys_iff.mpr hsome)
        simp [hname, hname ▸ hnone]
      · simp [hname]

/-- The files of a project without its history document. -/
def sources (historyDir : Path) (roots : List Path) (paths : List Text) (name : Text) :
    List Text :=
  paths.filter fun p => projectOf historyDir roots p = some name

/-- The history document of a name. -/
def history (historyDir : Path) (paths : List Text) (name : Text) : Option Text :=
  (paths.filter fun p => documentStem historyDir p = some name).getLast?

theorem lookup_groupByProject (name : Text) :
    (groupByProject historyDir roots paths).lookup name =
      if sources historyDir roots paths name = [] then none
      else some
        (sources historyDir roots paths name ++ (history historyDir paths name).toList) := by
  have hkeys := nodup_keys_foldl_assignItem (documentStem historyDir) paths
  rw [groupByProject, lookup_foldl_addHistory hkeys, lookup_foldl_appendItem,
    lookup_foldl_assignItem]
  change Option.map _ (if sources historyDir roots paths name = [] then none
    else some (sources historyDir roots paths name)) = _
  split_ifs <;> rfl

/-- What belongs to a project: what is under its directory, and the document of its history. -/
def InProject (historyDir : Path) (roots : List Path) (paths : List Text) (name p : Text) : Prop :=
  p ∈ sources historyDir roots paths name ∨
    sources historyDir roots paths name ≠ [] ∧ history historyDir paths name = some p

theorem mem_lookup_groupByProject {name p : Text} :
    p ∈ ((groupByProject historyDir roots paths).lookup name).getD [] ↔
      InProject historyDir roots paths name p := by
  rw [lookup_groupByProject, InProject]
  by_cases hnil : sources historyDir roots paths name = []
  · simp [hnil]
  · simp [hnil]

theorem InProject.mem {name p : Text} (h : InProject historyDir roots paths name p) :
    p ∈ paths := by
  obtain h | ⟨-, h⟩ := h
  · exact List.mem_of_mem_filter h
  · exact List.mem_of_mem_filter (List.mem_of_getLast? h)

/-- A project has files of its own. -/
theorem mem_projects_iff {name : Text} :
    name ∈ ((groupByProject historyDir roots paths).map Prod.fst).toFinset ↔
      sources historyDir roots paths name ≠ [] := by
  rw [List.mem_toFinset, mem_keys_iff, lookup_groupByProject]
  by_cases hnil : sources historyDir roots paths name = []
  · simp [hnil]
  · simp [hnil]

end Grouped

section Found
variable {ε : Type} {lowering : Lowering} {question : Text} {historyDir : Path}
variable {config : Except ε (Option (List FlaggedIndexPath))} {paths : List Text}

theorem mem_projectPaths {found : List Text}
    (h : projectPaths lowering question historyDir config paths = some found) {p : Text} :
    p ∈ found ↔ ∃ name ∈ namedProjects lowering question historyDir config paths,
      InProject historyDir (projectRoots config) paths name p := by
  rw [projectPaths] at h
  split_ifs at h with hroots
  dsimp only at h
  split_ifs at h with hnil
  obtain rfl := Option.some.inj h
  simp only [List.mem_flatMap, mem_lookup_groupByProject]

theorem projectPaths_ne_nil {found : List Text}
    (h : projectPaths lowering question historyDir config paths = some found) : found ≠ [] := by
  rw [projectPaths] at h
  split_ifs at h with hroots
  dsimp only at h
  split_ifs at h with hnil
  obtain rfl := Option.some.inj h
  exact hnil

/-- A question has no scope exactly if it names no project. -/
theorem projectPaths_eq_none_iff :
    projectPaths lowering question historyDir config paths = none ↔
      projectRoots config = [] ∨ namedProjects lowering question historyDir config paths = [] := by
  rw [projectPaths]
  by_cases hroots : projectRoots config = []
  · simp [hroots]
  · rw [if_neg hroots]
    dsimp only
    have hflat : ((namedProjects lowering question historyDir config paths).flatMap fun name =>
        ((groupByProject historyDir (projectRoots config) paths).lookup name).getD []) = [] ↔
          namedProjects lowering question historyDir config paths = [] := by
      rw [List.flatMap_eq_nil_iff]
      constructor
      · intro h
        by_contra hne
        obtain ⟨name, hname⟩ := List.exists_mem_of_ne_nil _ hne
        have hsources := mem_projects_iff.mp ((mem_matchProjects ..).mp hname).1
        obtain ⟨p, hp⟩ := List.exists_mem_of_ne_nil _ hsources
        have hmem := mem_lookup_groupByProject.mpr (Or.inl hp)
        rw [h name hname] at hmem
        exact absurd hmem List.not_mem_nil
      · intro h
        rw [h]
        simp
    split_ifs with hnil
    · simp [hflat.mp hnil]
    · have hnamed := mt hflat.mpr hnil
      simp [hroots, hnamed]

end Found

end LocalGraphRag.Rag
