import LocalGraphRag.Ingest.Scan

/-!
# What a scan gathers

`Reaches` is the descent of `os.walk` as a relation. A walk gathers exactly what
its visits of the reached directories gather, and a visit depends only on the
listing and on the errors on its entries.
-/

namespace LocalGraphRag.Ingest

open Python

section Walks
variable (faults : WalkFaults) (s : ScanSettings) (ip : IndexPath)

/-- The walk from the first directory visits the second. Each has the name that the walk
knows it by, its path and its listing. -/
inductive Reaches : Path → Path → Entries → Path → Path → Entries → Prop where
  | here (n d : Path) (entries : Entries) : Reaches n d entries n d entries
  | down {n d : Path} {entries : Entries} {entry : Name × Node} {d' : Path} {below : Entries}
      {m e : Path} {entries' : Entries} (hlisted : faults n (.scandir d) = false)
      (hentry : entry ∈ entries) (hdescends : descends (faults n) s ip d entry = true)
      (hopened : entry.2.opened (d ++ [entry.1]) = some (d', below))
      (hbelow : Reaches (n ++ [entry.1]) d' below m e entries') : Reaches n d entries m e entries'

/-- A part of what a walk gathers. -/
structure Gathers {α : Type} (part : Walk → List α) : Prop where
  empty : part .empty = []
  append : ∀ a b, part (a ++ b) = part a ++ part b

theorem gathers_files : Gathers Walk.files := ⟨rfl, fun _ _ => rfl⟩

theorem gathers_unscanned : Gathers Walk.unscanned := ⟨rfl, fun _ _ => rfl⟩

theorem gathers_errors : Gathers Walk.errors := ⟨rfl, fun _ _ => rfl⟩

variable {faults s ip}

/-- What is gathered from the subdirectories is gathered from one of them. -/
theorem mem_walkEntries {α : Type} {part : Walk → List α} (hpart : Gathers part)
    (n d : Path) (entries : Entries) (x : α) :
    x ∈ part (walkEntries faults s ip n d entries) ↔ ∃ entry ∈ entries,
      descends (faults n) s ip d entry = true ∧
        x ∈ part (walkDir faults s ip (n ++ [entry.1]) (d ++ [entry.1]) entry.2) := by
  induction entries with
  | nil => simp [walkEntries, hpart.empty]
  | cons entry entries ih =>
      rw [walkEntries, hpart.append, List.mem_append, ih, List.exists_mem_cons_iff]
      split_ifs with h
      · exact or_congr_left (and_iff_right h).symm
      · rw [hpart.empty]
        have hfirst : ¬(descends (faults n) s ip d entry = true ∧
            x ∈ part (walkDir faults s ip (n ++ [entry.1]) (d ++ [entry.1]) entry.2)) :=
          fun hx => h hx.1
        exact or_congr_left (iff_of_false List.not_mem_nil hfirst)

/-- A walk from an entry is one from the directory that it opens. -/
theorem walkDir_eq (n d : Path) (node : Node) : walkDir faults s ip n d node =
    match node.opened d with
    | some (d', below) => walkDir faults s ip n d' (.dir below)
    | none => .empty := by
  fun_induction Node.opened d node with
  | case1 d entries => rfl
  | case2 d target seen ih => rw [walkDir, ih]
  | case3 node d hdir hlink =>
      cases node with
      | dir entries => exact absurd rfl (hdir entries)
      | link target seen => exact absurd rfl (hlink target seen)
      | file | other => simp only [walkDir]

theorem sizeOf_opened_lt {d d' : Path} {node : Node} {below : Entries}
    (h : node.opened d = some (d', below)) : sizeOf below < sizeOf node := by
  fun_induction Node.opened d node with
  | case1 d entries =>
      cases h
      simp
  | case2 d target seen ih =>
      have hlt := ih h
      simp only [Node.link.sizeOf_spec]
      omega
  | case3 => cases h

theorem sizeOf_entry_lt {entries : Entries} {entry : Name × Node} (h : entry ∈ entries) :
    sizeOf entry.2 < sizeOf entries := by
  have hlt := List.sizeOf_lt_of_mem h
  have hpair : sizeOf entry = 1 + sizeOf entry.1 + sizeOf entry.2 := by
    cases entry
    rfl
  omega

/-- A walk gathers what its visits gather. -/
theorem mem_walkDir {α : Type} {part : Walk → List α} (hpart : Gathers part)
    (n d : Path) (entries : Entries) (x : α) :
    x ∈ part (walkDir faults s ip n d (.dir entries)) ↔ ∃ m e entries',
      Reaches faults s ip n d entries m e entries' ∧
        x ∈ part (visit (faults m) s ip e entries') := by
  constructor
  · intro hx
    -- by the size of the tree below the directory
    induction hn : sizeOf entries using Nat.strong_induction_on generalizing n d entries with
    | _ k ih =>
    subst hn
    rw [walkDir] at hx
    split_ifs at hx with hfault
    · exact ⟨n, d, entries, .here n d entries, hx⟩
    · rw [hpart.append, List.mem_append, mem_walkEntries hpart] at hx
      obtain hx | ⟨entry, hentry, hdescends, hx⟩ := hx
      · exact ⟨n, d, entries, .here n d entries, hx⟩
      · rw [walkDir_eq] at hx
        cases hopened : entry.2.opened (d ++ [entry.1]) with
        | none => simp [hopened, hpart.empty] at hx
        | some opened =>
            rw [hopened] at hx
            have hlt := (sizeOf_opened_lt hopened).trans (sizeOf_entry_lt hentry)
            obtain ⟨m, e, entries', hreaches, hx⟩ :=
              ih _ hlt (n ++ [entry.1]) opened.1 opened.2 hx rfl
            exact ⟨m, e, entries',
              .down (by simpa using hfault) hentry hdescends hopened hreaches, hx⟩
  · rintro ⟨m, e, entries', hreaches, hx⟩
    induction hreaches with
    | here n d entries =>
        rw [walkDir]
        split_ifs
        · exact hx
        · rw [hpart.append, List.mem_append]
          exact Or.inl hx
    | down hlisted hentry hdescends hopened _ ih =>
        rw [walkDir, if_neg (by simpa using hlisted), hpart.append, List.mem_append,
          mem_walkEntries hpart]
        refine Or.inr ⟨_, hentry, hdescends, ?_⟩
        rw [walkDir_eq, hopened]
        exact ih hx

theorem Reaches.append {n d m e d' : Path} {entries entries' below : Entries}
    {entry : Name × Node} (h : Reaches faults s ip n d entries m e entries')
    (hlisted : faults m (.scandir e) = false) (hentry : entry ∈ entries')
    (hdescends : descends (faults m) s ip e entry = true)
    (hopened : entry.2.opened (e ++ [entry.1]) = some (d', below)) :
    Reaches faults s ip n d entries (m ++ [entry.1]) d' below := by
  induction h with
  | here n d entries => exact .down hlisted hentry hdescends hopened (.here _ _ _)
  | down hlisted' hentry' hdescends' hopened' _ ih =>
      exact .down hlisted' hentry' hdescends' hopened' (ih hlisted hentry hdescends hopened)

/-- Where `islink` does not fail, only real directories are descended into. -/
theorem opened_of_descends {φ : Faults} {d d' : Path} {entry : Name × Node} {below : Entries}
    (hislink : φ (.islink (d ++ [entry.1])) = false) (h : descends φ s ip d entry = true)
    (hopened : entry.2.opened (d ++ [entry.1]) = some (d', below)) :
    entry.2 = .dir below ∧ d' = d ++ [entry.1] := by
  simp only [descends, islink, hislink, Bool.not_false, Bool.true_and, Bool.and_eq_true,
    Bool.not_eq_true'] at h
  cases hnode : entry.2 with
  | dir entries =>
      rw [hnode, Node.opened] at hopened
      cases hopened
      exact ⟨rfl, rfl⟩
  | link target seen => simp [hnode, Node.isSymlink] at h
  | file | other => simp [hnode, Node.opened] at hopened

end Walks

section Visits
variable {faults : Faults} {s : ScanSettings} {path d : Path}

/-- A file that passes every rule of `_is_safe_indexable_file` but the one on its size. -/
structure Candidate (s : ScanSettings) (path : Path) (node : Node) : Prop where
  isFile : node.isFile = true
  underRoot : ∃ ip ∈ s.indexPaths, ip.path <+: path
  allowed : path.getLast?.any s.hasAllowedExtension = true

/-- A file that passes every rule of `_is_safe_indexable_file`. -/
structure Indexable (s : ScanSettings) (path : Path) (node : Node) : Prop
    extends Candidate s path node where
  size : node.size ≤ s.maxIndexFileBytes

/-- The check of a file comes to its `is_file`. -/
structure Resolves (faults : Faults) (path : Path) (node : Node) : Prop where
  inspected : faults (.isSymlink path) = false
  notLink : node.isSymlink = false
  resolved : faults (.resolve path) = false

/-- The errors that end the check of a file. -/
inductive Raises (faults : Faults) (path : Path) (node : Node) : FsCall → Prop where
  | isSymlink (hfault : faults (.isSymlink path) = true) : Raises faults path node (.isSymlink path)
  | isFile (hresolves : Resolves faults path node) (hfault : faults (.isFile path) = true) :
      Raises faults path node (.isFile path)

/-- The errors that count as a rejection of the file. -/
inductive Silences (faults : Faults) (s : ScanSettings) (path : Path) (node : Node) :
    FsCall → Prop where
  | resolve (hinspected : faults (.isSymlink path) = false) (hnotLink : node.isSymlink = false)
      (hfault : faults (.resolve path) = true) : Silences faults s path node (.resolve path)
  | stat (hresolves : Resolves faults path node) (hisFile : faults (.isFile path) = false)
      (hcandidate : Candidate s path node) (hfault : faults (.stat path) = true) :
      Silences faults s path node (.stat path)

/-- A file that passes every rule, and none of the calls of its check fails. -/
structure Admits (faults : Faults) (s : ScanSettings) (path : Path) (node : Node) : Prop where
  resolves : Resolves faults path node
  isFile : faults (.isFile path) = false
  stat : faults (.stat path) = false
  indexable : Indexable s path node

/-- The outcomes of a check. -/
inductive Checked (faults : Faults) (s : ScanSettings) (path : Path) (node : Node) :
    Except FsCall (Bool × Option FsCall) → Prop where
  | raised (c : FsCall) (h : Raises faults path node c) : Checked faults s path node (.error c)
  | swallowed (c : FsCall) (h : Silences faults s path node c) :
      Checked faults s path node (.ok (false, some c))
  | rejected (h : ¬ Indexable s path node) : Checked faults s path node (.ok (false, none))
  | accepted (h : Admits faults s path node) : Checked faults s path node (.ok (true, none))

theorem Candidate.not_isSymlink {node : Node} (h : Candidate s path node) :
    node.isSymlink = false := by
  have hfile := h.isFile
  cases node <;> simp [Node.isSymlink, Node.isFile] at hfile ⊢

theorem candidate_iff {node : Node} : Candidate s path node ↔ node.isFile = true ∧
    (s.indexPaths.any (fun ip => ip.path.isPrefixOf path) &&
      path.getLast?.any s.hasAllowedExtension) = true := by
  simp only [Bool.and_eq_true, List.any_eq_true, List.isPrefixOf_iff_prefix]
  exact ⟨fun h => ⟨h.isFile, h.underRoot, h.allowed⟩, fun h => ⟨h.1, h.2.1, h.2.2⟩⟩

/-- Errors of `is_symlink` and `is_file` leave the check, those of `resolve` and
`stat` count as a rejection. -/
theorem isSafeIndexableFile_checked (faults : Faults) (s : ScanSettings) (path : Path)
    (node : Node) :
    Checked faults s path node (isSafeIndexableFile faults s path node) := by
  simp only [isSafeIndexableFile, attempt]
  by_cases hsymlink : faults (.isSymlink path) = true
  · simpa [hsymlink] using Checked.raised _ (.isSymlink hsymlink)
  rw [Bool.not_eq_true] at hsymlink
  by_cases hlink : node.isSymlink = true
  · simp only [hsymlink, hlink]
    exact .rejected fun h => by simp [h.not_isSymlink] at hlink
  rw [Bool.not_eq_true] at hlink
  by_cases hresolve : faults (.resolve path) = true
  · simpa [hsymlink, hlink, hresolve] using
      Checked.swallowed _ (.resolve hsymlink hlink hresolve)
  have hresolves : Resolves faults path node := ⟨hsymlink, hlink, by simpa using hresolve⟩
  by_cases hisFile : faults (.isFile path) = true
  · simpa [hsymlink, hlink, hresolve, hisFile] using
      Checked.raised _ (.isFile hresolves hisFile)
  by_cases hcandidate : Candidate s path node
  swap
  · have hrules := mt candidate_iff.mpr hcandidate
    cases hfile : node.isFile with
    | false =>
        simpa [hsymlink, hlink, hresolve, hisFile, hfile] using
          Checked.rejected fun h => hcandidate h.toCandidate
    | true =>
        simp only [hsymlink, hlink, hresolve, hisFile, Bool.false_eq_true, if_false]
        rw [if_neg fun h => hrules ⟨hfile, h⟩]
        exact .rejected fun h => hcandidate h.toCandidate
  obtain ⟨hfile, hrules⟩ := candidate_iff.mp hcandidate
  simp only [hsymlink, hlink, hresolve, hisFile, hfile, Bool.false_eq_true, if_false]
  rw [if_pos hrules, isWithinSizeLimit, attempt]
  by_cases hstat : faults (.stat path) = true
  · simpa [hstat] using
      Checked.swallowed _ (.stat hresolves (by simpa using hisFile) hcandidate hstat)
  by_cases hsize : node.size ≤ s.maxIndexFileBytes
  · simpa [hstat, hsize] using Checked.accepted
      ⟨hresolves, by simpa using hisFile, by simpa using hstat, ⟨hcandidate, hsize⟩⟩
  · simpa [hstat, hsize] using Checked.rejected fun h => hsize h.size

theorem isSafeIndexableFile_error_iff {node : Node} {c : FsCall} :
    isSafeIndexableFile faults s path node = .error c ↔ Raises faults path node c := by
  constructor
  · intro h
    have hchecked := isSafeIndexableFile_checked faults s path node
    rw [h] at hchecked
    cases hchecked with
    | raised c hraises => exact hraises
  · intro h
    cases h with
    | isSymlink hfault => simp [isSafeIndexableFile, attempt, hfault]
    | isFile hresolves hfault =>
        simp [isSafeIndexableFile, attempt, hresolves.inspected, hresolves.notLink,
          hresolves.resolved, hfault]

theorem isSafeIndexableFile_swallowed_iff {node : Node} {c : FsCall} :
    (∃ accepted, isSafeIndexableFile faults s path node = .ok (accepted, some c)) ↔
      Silences faults s path node c := by
  constructor
  · intro h
    obtain ⟨accepted, h⟩ := h
    have hchecked := isSafeIndexableFile_checked faults s path node
    rw [h] at hchecked
    cases hchecked with
    | swallowed c hsilences => exact hsilences
  · intro h
    refine ⟨false, ?_⟩
    cases h with
    | resolve hinspected hnotLink hfault =>
        simp [isSafeIndexableFile, attempt, hinspected, hnotLink, hfault]
    | stat hresolves hisFile hcandidate hfault =>
        obtain ⟨hfile, hrules⟩ := candidate_iff.mp hcandidate
        simp only [isSafeIndexableFile, attempt, hresolves.inspected, hresolves.notLink,
          hresolves.resolved, hisFile, hfile, Bool.false_eq_true, if_false]
        rw [if_pos hrules, isWithinSizeLimit, attempt, if_pos hfault]

theorem isSafeIndexableFile_accepted_iff {node : Node} :
    (∃ swallowed, isSafeIndexableFile faults s path node = .ok (true, swallowed)) ↔
      Admits faults s path node := by
  constructor
  · intro h
    obtain ⟨swallowed, h⟩ := h
    have hchecked := isSafeIndexableFile_checked faults s path node
    rw [h] at hchecked
    cases hchecked with
    | accepted hadmits => exact hadmits
  · intro h
    obtain ⟨hfile, hrules⟩ := candidate_iff.mp h.indexable.toCandidate
    refine ⟨none, ?_⟩
    simp only [isSafeIndexableFile, attempt, h.resolves.inspected, h.resolves.notLink,
      h.resolves.resolved, h.isFile, hfile, Bool.false_eq_true, if_false]
    rw [if_pos hrules, isWithinSizeLimit, attempt, h.stat]
    simp [h.indexable.size]

/-- The errors of a check are on the path that is checked. -/
theorem Raises.path_eq {node : Node} {c : FsCall} (h : Raises faults path node c) :
    c.path = path := by
  cases h <;> rfl

theorem Silences.path_eq {node : Node} {c : FsCall} (h : Silences faults s path node c) :
    c.path = path := by
  cases h <;> rfl

/-- The check of one entry of a directory, if its name is not ignored. -/
def inspection (faults : Faults) (s : ScanSettings) (d : Path) (entry : Name × Node) :
    Option (Except FsCall (Bool × Option FsCall)) :=
  if matchesIgnorePattern s entry.1 then none
  else some (isSafeIndexableFile faults s (d ++ [entry.1]) entry.2)

theorem inspection_eq_some_iff {entry : Name × Node}
    {r : Except FsCall (Bool × Option FsCall)} : inspection faults s d entry = some r ↔
      matchesIgnorePattern s entry.1 = false ∧
        isSafeIndexableFile faults s (d ++ [entry.1]) entry.2 = r := by
  rw [inspection]
  split_ifs with hignored <;> simp [hignored]

theorem acceptAll_cons (entry : Name × Node) (entries : Entries) :
    acceptAll faults s d (entry :: entries) = match inspection faults s d entry with
      | none => acceptAll faults s d entries
      | some (.error c) => (.error c, [c])
      | some (.ok (accepted, swallowed)) =>
          ((acceptAll faults s d entries).1.map fun files =>
              if accepted then (d ++ [entry.1]) :: files else files,
            swallowed.toList ++ (acceptAll faults s d entries).2) := by
  rw [acceptAll, inspection]
  split_ifs
  · rfl
  · cases isSafeIndexableFile faults s (d ++ [entry.1]) entry.2 <;> rfl

/-- The comprehension over `_accept` raises when one of its checks does. -/
theorem acceptAll_error_iff (entries : Entries) :
    (∃ c, (acceptAll faults s d entries).1 = .error c) ↔
      ∃ entry ∈ entries, ∃ c, inspection faults s d entry = some (.error c) := by
  induction entries with
  | nil => simp [acceptAll]
  | cons entry entries ih =>
      rw [acceptAll_cons, List.exists_mem_cons_iff, ← ih]
      cases inspection faults s d entry with
      | none => simp
      | some r =>
          cases r with
          | error c => simp
          | ok r => cases (acceptAll faults s d entries).1 <;> simp [Except.map]

/-- Otherwise it returns the entries whose check does. -/
theorem mem_acceptAll {entries : Entries} {files : List Path}
    (h : (acceptAll faults s d entries).1 = .ok files) (f : Path) :
    f ∈ files ↔ ∃ entry ∈ entries, f = d ++ [entry.1] ∧
      ∃ swallowed, inspection faults s d entry = some (.ok (true, swallowed)) := by
  induction entries generalizing files with
  | nil =>
      cases h
      simp
  | cons entry entries ih =>
      rw [acceptAll_cons] at h
      rw [List.exists_mem_cons_iff]
      cases hr : inspection faults s d entry with
      | none =>
          rw [hr] at h
          rw [ih h]
          refine (or_iff_right ?_).symm
          intro hfirst
          cases hfirst.2.choose_spec
      | some r =>
          rw [hr] at h
          obtain c | ⟨accepted, swallowed⟩ := r
          · cases h
          · cases hfiles : (acceptAll faults s d entries).1 with
            | error c => simp [hfiles, Except.map] at h
            | ok rest =>
                simp only [hfiles, Except.map, Except.ok.injEq] at h
                subst h
                cases accepted with
                | true =>
                    rw [if_pos rfl, List.mem_cons, ih hfiles]
                    exact or_congr_left (and_iff_left ⟨swallowed, rfl⟩).symm
                | false =>
                    rw [if_neg (by decide), ih hfiles]
                    refine (or_iff_right ?_).symm
                    intro hfirst
                    cases hfirst.2.choose_spec

/-- Every error of the comprehension is one of a check. -/
theorem mem_acceptAll_errors {entries : Entries} {c : FsCall}
    (h : c ∈ (acceptAll faults s d entries).2) : ∃ entry ∈ entries,
      inspection faults s d entry = some (.error c) ∨
        ∃ accepted, inspection faults s d entry = some (.ok (accepted, some c)) := by
  induction entries with
  | nil => simp [acceptAll] at h
  | cons entry entries ih =>
      rw [acceptAll_cons] at h
      rw [List.exists_mem_cons_iff]
      cases hr : inspection faults s d entry with
      | none =>
          rw [hr] at h
          exact Or.inr (ih h)
      | some r =>
          rw [hr] at h
          obtain c' | ⟨accepted, swallowed⟩ := r
          · obtain rfl := List.mem_singleton.mp h
            exact Or.inl (Or.inl rfl)
          · obtain h | h := List.mem_append.mp h
            · obtain rfl := Option.mem_toList.mp h
              exact Or.inl (Or.inr ⟨accepted, rfl⟩)
            · exact Or.inr (ih h)

/-- When no check raises, every swallowed error is recorded. -/
theorem swallowed_mem_acceptAll_errors {entries : Entries} {files : List Path}
    (h : (acceptAll faults s d entries).1 = .ok files) {entry : Name × Node}
    (hentry : entry ∈ entries) {accepted : Bool} {c : FsCall}
    (hc : inspection faults s d entry = some (.ok (accepted, some c))) :
    c ∈ (acceptAll faults s d entries).2 := by
  induction entries generalizing files with
  | nil => cases hentry
  | cons first entries ih =>
      rw [acceptAll_cons] at h ⊢
      obtain rfl | hentry := List.mem_cons.mp hentry
      · rw [hc]
        simp
      · cases hr : inspection faults s d first with
        | none =>
            rw [hr] at h
            exact ih h hentry
        | some r =>
            rw [hr] at h
            obtain c' | ⟨accepted, swallowed⟩ := r
            · cases h
            · cases hfiles : (acceptAll faults s d entries).1 with
              | error c => simp [hfiles, Except.map] at h
              | ok rest => exact List.mem_append_right _ (ih hfiles hentry)

end Visits

end LocalGraphRag.Ingest
