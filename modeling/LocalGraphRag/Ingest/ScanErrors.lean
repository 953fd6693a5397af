import LocalGraphRag.Ingest.ScanReach

/-!
# Scan errors and purged files

The stale phase purges a tracked path that was neither collected nor kept under
an unscanned path. Most errors of a scan mark a directory as unscanned. The rest
are quiet: a path that such an error hides is purged like a deleted one.

## Implementation notes

What a scan shows, and where it fails, is told by the tree, the rules and the calls
that fail. The lists that the scan returns are compared with it afterwards.
-/

namespace LocalGraphRag.Ingest

open Python

section Visit
variable (faults : Faults) (s : ScanSettings) (ip : IndexPath) (d : Path) (entries : Entries)

/-- The entry is handed to the check of a file. -/
def Inspected (entry : Name × Node) : Prop :=
  listedAsDir faults d entry = false ∧ matchesIgnorePattern s entry.1 = false

/-- The listing of the directory raises, or an error leaves the check of one of its files. -/
def FailsLoudly : Prop :=
  faults (.scandir d) = true ∨ ∃ entry ∈ entries, Inspected faults s d entry ∧
    ∃ c, Raises faults (d ++ [entry.1]) entry.2 c

/-- A file of the directory passes its check, and the directory does not fail loudly. -/
def Shows (f : Path) : Prop :=
  ¬ FailsLoudly faults s d entries ∧ ∃ entry ∈ entries, Inspected faults s d entry ∧
    f = d ++ [entry.1] ∧ Admits faults s (d ++ [entry.1]) entry.2

/-- The errors at an entry that nothing tells: of `DirEntry.is_dir`, of `os.path.islink`, and
those that the check of a file takes for a rejection. -/
inductive QuietAt (entry : Name × Node) : FsCall → Prop where
  | isDir (hfault : faults (.entryIsDir (d ++ [entry.1])) = true) :
      QuietAt entry (.entryIsDir (d ++ [entry.1]))
  | islink (hkeeps : keepsDir faults s ip d entry = true)
      (hfault : faults (.islink (d ++ [entry.1])) = true) :
      QuietAt entry (.islink (d ++ [entry.1]))
  | check (c : FsCall) (hinspected : Inspected faults s d entry)
      (hsilences : Silences faults s (d ++ [entry.1]) entry.2 c) : QuietAt entry c

/-- The call fails quietly at an entry of the directory. -/
def FailsQuietly (c : FsCall) : Prop :=
  faults (.scandir d) = false ∧ ∃ entry ∈ entries, QuietAt faults s ip d entry c

variable {faults s ip d entries}

theorem failsLoudly_iff (hlisted : faults (.scandir d) = false) :
    FailsLoudly faults s d entries ↔ ∃ c, (acceptAll faults s d (entries.filter fun entry =>
      !listedAsDir faults d entry)).1 = .error c := by
  rw [acceptAll_error_iff, FailsLoudly, hlisted]
  simp only [Bool.false_eq_true, false_or, List.mem_filter, Bool.not_eq_true', and_assoc,
    Inspected, inspection_eq_some_iff, isSafeIndexableFile_error_iff, exists_and_left]

/-- A directory whose listing raises is left. -/
theorem visit_of_fault (hlisted : faults (.scandir d) = true) :
    visit faults s ip d entries = ⟨[], [d], [.scandir d]⟩ := by
  unfold visit attempt
  rw [if_pos hlisted]

/-- So is one whose files cannot all be checked. -/
theorem visit_of_error (hlisted : faults (.scandir d) = false) {c : FsCall}
    (h : (acceptAll faults s d (entries.filter fun entry =>
      !listedAsDir faults d entry)).1 = .error c) :
    visit faults s ip d entries = ⟨[], [d],
      entryErrors faults d entries ++ islinkErrors faults s ip d entries ++
        (acceptAll faults s d (entries.filter fun entry =>
          !listedAsDir faults d entry)).2⟩ := by
  unfold visit attempt
  simp only [hlisted, Bool.false_eq_true, if_false, h]

theorem visit_of_ok (hlisted : faults (.scandir d) = false) {files : List Path}
    (h : (acceptAll faults s d (entries.filter fun entry =>
      !listedAsDir faults d entry)).1 = .ok files) :
    visit faults s ip d entries = ⟨files, [],
      entryErrors faults d entries ++ islinkErrors faults s ip d entries ++
        (acceptAll faults s d (entries.filter fun entry =>
          !listedAsDir faults d entry)).2⟩ := by
  unfold visit attempt
  simp only [hlisted, Bool.false_eq_true, if_false, h]

theorem not_failsLoudly_of_ok (hlisted : faults (.scandir d) = false) {files : List Path}
    (h : (acceptAll faults s d (entries.filter fun entry =>
      !listedAsDir faults d entry)).1 = .ok files) : ¬FailsLoudly faults s d entries := by
  rw [failsLoudly_iff hlisted, h]
  intro herror
  cases herror.choose_spec

theorem mem_visit_files (f : Path) :
    f ∈ (visit faults s ip d entries).files ↔ Shows faults s d entries f := by
  cases hlisted : faults (.scandir d) with
  | true =>
      rw [visit_of_fault hlisted]
      exact iff_of_false List.not_mem_nil fun h => h.1 (Or.inl hlisted)
  | false =>
      cases haccepted : (acceptAll faults s d (entries.filter fun entry =>
          !listedAsDir faults d entry)).1 with
      | error c =>
          rw [visit_of_error hlisted haccepted]
          have hloud : FailsLoudly faults s d entries :=
            (failsLoudly_iff hlisted).mpr ⟨c, haccepted⟩
          exact iff_of_false List.not_mem_nil fun h => h.1 hloud
      | ok files =>
          rw [visit_of_ok hlisted haccepted, mem_acceptAll haccepted, Shows,
            and_iff_right (not_failsLoudly_of_ok hlisted haccepted)]
          simp only [List.mem_filter, Bool.not_eq_true', and_assoc, Inspected,
            inspection_eq_some_iff, exists_and_left, isSafeIndexableFile_accepted_iff,
            and_left_comm]

theorem mem_visit_unscanned (e : Path) :
    e ∈ (visit faults s ip d entries).unscanned ↔ e = d ∧ FailsLoudly faults s d entries := by
  cases hlisted : faults (.scandir d) with
  | true =>
      have hloud : FailsLoudly faults s d entries := Or.inl hlisted
      rw [visit_of_fault hlisted, List.mem_singleton, and_iff_left hloud]
  | false =>
      cases haccepted : (acceptAll faults s d (entries.filter fun entry =>
          !listedAsDir faults d entry)).1 with
      | error c =>
          rw [visit_of_error hlisted haccepted, List.mem_singleton,
            and_iff_left ((failsLoudly_iff hlisted).mpr ⟨c, haccepted⟩)]
      | ok files =>
          rw [visit_of_ok hlisted haccepted]
          exact iff_of_false List.not_mem_nil
            fun h => not_failsLoudly_of_ok hlisted haccepted h.2

theorem visit_errors (hlisted : faults (.scandir d) = false) :
    (visit faults s ip d entries).errors =
      entryErrors faults d entries ++ islinkErrors faults s ip d entries ++
        (acceptAll faults s d (entries.filter fun entry => !listedAsDir faults d entry)).2 := by
  cases haccepted : (acceptAll faults s d (entries.filter fun entry =>
      !listedAsDir faults d entry)).1 with
  | error c => rw [visit_of_error hlisted haccepted]
  | ok files => rw [visit_of_ok hlisted haccepted]

theorem mem_entryErrors {c : FsCall} : c ∈ entryErrors faults d entries ↔
    faults c = true ∧ ∃ entry ∈ entries, c = .entryIsDir (d ++ [entry.1]) := by
  rw [entryErrors, List.mem_filter, List.mem_map, and_comm]
  simp only [eq_comm (b := c)]

theorem mem_islinkErrors {c : FsCall} : c ∈ islinkErrors faults s ip d entries ↔
    faults c = true ∧ ∃ entry ∈ entries, keepsDir faults s ip d entry = true ∧
      c = .islink (d ++ [entry.1]) := by
  rw [islinkErrors, List.mem_filter, List.mem_map, and_comm]
  simp only [eq_comm (b := c), List.mem_filter, and_assoc]

/-- An error of a visit is loud or quiet. -/
theorem of_mem_visit_errors {c : FsCall} (h : c ∈ (visit faults s ip d entries).errors) :
    (FailsLoudly faults s d entries ∧ ∃ e, c.path = d ++ e) ∨
      FailsQuietly faults s ip d entries c := by
  cases hlisted : faults (.scandir d) with
  | true =>
      rw [visit_of_fault hlisted, List.mem_singleton] at h
      exact Or.inl ⟨Or.inl hlisted, [], by simp [h, FsCall.path]⟩
  | false =>
      rw [visit_errors hlisted, List.mem_append, List.mem_append] at h
      obtain (h | h) | h := h
      · obtain ⟨hfault, entry, hentry, rfl⟩ := mem_entryErrors.mp h
        exact Or.inr ⟨hlisted, entry, hentry, .isDir hfault⟩
      · obtain ⟨hfault, entry, hentry, hkeeps, rfl⟩ := mem_islinkErrors.mp h
        exact Or.inr ⟨hlisted, entry, hentry, .islink hkeeps hfault⟩
      · obtain ⟨entry, hentry, hc⟩ := mem_acceptAll_errors h
        obtain ⟨hentry, hfile⟩ := List.mem_filter.mp hentry
        simp only [inspection_eq_some_iff] at hc
        obtain ⟨hname, hc⟩ | ⟨accepted, hname, hc⟩ := hc
        · have hraises := isSafeIndexableFile_error_iff.mp hc
          exact Or.inl ⟨Or.inr ⟨entry, hentry, ⟨by simpa using hfile, hname⟩, c, hraises⟩,
            [entry.1], hraises.path_eq⟩
        · have hsilences := isSafeIndexableFile_swallowed_iff.mp ⟨accepted, hc⟩
          exact Or.inr ⟨hlisted, entry, hentry, .check c ⟨by simpa using hfile, hname⟩ hsilences⟩

/-- A quiet error in a directory that does not fail loudly is recorded. -/
theorem FailsQuietly.mem_visit_errors {c : FsCall} (h : FailsQuietly faults s ip d entries c)
    (hloud : ¬ FailsLoudly faults s d entries) : c ∈ (visit faults s ip d entries).errors := by
  obtain ⟨hlisted, entry, hentry, hc⟩ := h
  rw [visit_errors hlisted, List.mem_append, List.mem_append]
  cases hc with
  | isDir hfault => exact Or.inl (Or.inl (mem_entryErrors.mpr ⟨hfault, entry, hentry, rfl⟩))
  | islink hkeeps hfault =>
      exact Or.inl (Or.inr (mem_islinkErrors.mpr ⟨hfault, entry, hentry, hkeeps, rfl⟩))
  | check _ hinspected hsilences =>
      rw [failsLoudly_iff hlisted] at hloud
      cases haccepted : (acceptAll faults s d (entries.filter fun entry =>
          !listedAsDir faults d entry)).1 with
      | error c => exact absurd ⟨c, haccepted⟩ hloud
      | ok files =>
          obtain ⟨accepted, hc⟩ := isSafeIndexableFile_swallowed_iff.mpr hsilences
          exact Or.inr (swallowed_mem_acceptAll_errors haccepted
            (List.mem_filter.mpr ⟨hentry, by simp [hinspected.1]⟩)
            (inspection_eq_some_iff.mpr ⟨hinspected.2, hc⟩))

theorem FailsQuietly.path_eq {c : FsCall} (h : FailsQuietly faults s ip d entries c) :
    ∃ name, c.path = d ++ [name] := by
  obtain ⟨-, entry, -, hc⟩ := h
  refine ⟨entry.1, ?_⟩
  cases hc with
  | isDir | islink => rfl
  | check _ _ hsilences => exact hsilences.path_eq

end Visit

section Collection
variable (faults : Nat → WalkFaults) (s : ScanSettings) (fs : Node)

/-- The walk of this index path, by its number, visits the directory. -/
def Visited (k : Nat) (ip : IndexPath) (n d : Path) (entries : Entries) : Prop :=
  s.indexPaths[k]? = some ip ∧ ∃ below, fs.lookup ip.path = some (.dir below) ∧
    Reaches (faults k) s ip ip.path ip.path below n d entries

/-- The file passes through the index path with this number. -/
def Shown (k : Nat) (f : Path) : Prop :=
  ∃ ip n d entries, Visited faults s fs k ip n d entries ∧ Shows (faults k n) s d entries f

/-- The tracked path names a file that passes. -/
def ShownAs (t : Text) : Prop := ∃ k f, Shown faults s fs k f ∧ t = f.str

/-- A call on the tracked path, or on a directory that leads to it, fails quietly. -/
def QuietErrorOn (t : Text) : Prop :=
  ∃ k ip n d entries c, Visited faults s fs k ip n d entries ∧
    FailsQuietly (faults k n) s ip d entries c ∧ c.path.LeadsTo t

/-- A directory that leads to the tracked path fails loudly. -/
def LoudErrorAbove (t : Text) : Prop :=
  ∃ k ip n d entries, Visited faults s fs k ip n d entries ∧
    FailsLoudly (faults k n) s d entries ∧ d.LeadsTo t

/-- Through an index path that leads to the tracked path no file passes. -/
def BlankAbove (t : Text) : Prop :=
  ∃ k ip, s.indexPaths[k]? = some ip ∧ ip.path.LeadsTo t ∧ ∀ f, ¬ Shown faults s fs k f

/-- A scan without errors finds the path and every rule admits it. -/
def Eligible (t : Text) : Prop :=
  ∃ ip ∈ s.indexPaths, ∃ below n d entries, fs.lookup ip.path = some (.dir below) ∧
    Reaches (fun _ _ => false) s ip ip.path ip.path below n d entries ∧
      ∃ entry ∈ entries, matchesIgnorePattern s entry.1 = false ∧
        Indexable s (d ++ [entry.1]) entry.2 ∧ t = Path.str (d ++ [entry.1])

variable {faults s fs}

/-- What one index path contributes to the scan. -/
theorem mem_walkIndexPath {α : Type} {part : Walk → List α} (hpart : Gathers part) {k : Nat}
    {ip : IndexPath} (hip : s.indexPaths[k]? = some ip) {found : Walk}
    (h : walkIndexPath (faults k) s fs ip = .ok found) (x : α) :
    x ∈ part found ↔ ∃ n d entries, Visited faults s fs k ip n d entries ∧
      x ∈ part (visit (faults k n) s ip d entries) := by
  simp only [Visited, and_iff_right hip]
  unfold walkIndexPath at h
  cases hdir : attempt (faults k ip.path) (.isDir ip.path) (fs.lookup ip.path) with
  | error c => simp [hdir] at h
  | ok node =>
      have hnode : fs.lookup ip.path = node := by
        unfold attempt at hdir
        split_ifs at hdir
        exact Except.ok.inj hdir
      rw [hdir] at h
      rw [hnode]
      match node, h with
      | some (.dir below), h =>
          cases h
          rw [mem_walkDir hpart]
          constructor
          · rintro ⟨n, d, entries, hreaches, hx⟩
            exact ⟨n, d, entries, ⟨below, rfl, hreaches⟩, hx⟩
          · rintro ⟨n, d, entries, ⟨below', hbelow, hreaches⟩, hx⟩
            cases hbelow
            exact ⟨n, d, entries, hreaches, hx⟩
      | none, h | some (.file _), h | some (.link _ _), h | some .other, h =>
          cases h
          simp [hpart.empty]

/-- The scan walks the first index path, then the others. -/
theorem collectFrom_cons_eq_ok_iff {k : Nat} {ip : IndexPath} {ips : List IndexPath} {w : Walk} :
    collectFrom faults s fs k (ip :: ips) = .ok w ↔ ∃ found others,
      walkIndexPath (faults k) s fs ip = .ok found ∧
        collectFrom faults s fs (k + 1) ips = .ok others ∧
          found ++ ⟨[], if found.files = [] then [ip.path] else [], []⟩ ++ others = w := by
  rw [collectFrom]
  cases walkIndexPath (faults k) s fs ip with
  | error c => simp [bind, Except.bind]
  | ok found =>
      cases collectFrom faults s fs (k + 1) ips with
      | error c => simp [bind, Except.bind]
      | ok others => simp [bind, Except.bind, pure, Except.pure]

/-- The scan gathers what its walks gather, and the index paths without a file. -/
theorem mem_collectFrom {α : Type} {part : Walk → List α} (hpart : Gathers part) {k : Nat}
    {ips : List IndexPath} {w : Walk} (h : collectFrom faults s fs k ips = .ok w) (x : α) :
    x ∈ part w ↔ ∃ i ip found, ips[i]? = some ip ∧
      walkIndexPath (faults (k + i)) s fs ip = .ok found ∧
        (x ∈ part found ∨ x ∈ part ⟨[], if found.files = [] then [ip.path] else [], []⟩) := by
  induction ips generalizing k w with
  | nil =>
      cases h
      simp [hpart.empty]
  | cons ip ips ih =>
      obtain ⟨found, others, hfound, hothers, rfl⟩ := collectFrom_cons_eq_ok_iff.mp h
      rw [hpart.append, hpart.append, List.mem_append, List.mem_append, ih hothers]
      constructor
      · rintro (hx | ⟨i, ip', found', hi, hwalk, hx⟩)
        · exact ⟨0, ip, found, rfl, hfound, hx⟩
        · exact ⟨i + 1, ip', found', hi, by rwa [← Nat.add_assoc, Nat.add_right_comm], hx⟩
      · rintro ⟨i, ip', found', hi, hwalk, hx⟩
        cases i with
        | zero =>
            cases hi
            cases hfound.symm.trans hwalk
            exact Or.inl hx
        | succ i =>
            exact Or.inr ⟨i, ip', found', hi, by rwa [Nat.add_assoc, Nat.add_comm 1], hx⟩

theorem exists_walkIndexPath {k : Nat} {ips : List IndexPath} {w : Walk}
    (h : collectFrom faults s fs k ips = .ok w) {i : Nat} {ip : IndexPath}
    (hi : ips[i]? = some ip) : ∃ found, walkIndexPath (faults (k + i)) s fs ip = .ok found := by
  induction ips generalizing k w i with
  | nil => cases hi
  | cons first ips ih =>
      obtain ⟨found, others, hfound, hothers, -⟩ := collectFrom_cons_eq_ok_iff.mp h
      cases i with
      | zero =>
          cases hi
          exact ⟨found, hfound⟩
      | succ i =>
          obtain ⟨found', hfound'⟩ := ih hothers hi
          exact ⟨found', by rwa [Nat.add_assoc, Nat.add_comm 1] at hfound'⟩

/-- An index path yields no file exactly if none passes through it. -/
theorem files_eq_nil_iff {k : Nat} {ip : IndexPath} (hip : s.indexPaths[k]? = some ip)
    {found : Walk} (hfound : walkIndexPath (faults k) s fs ip = .ok found) :
    found.files = [] ↔ ∀ f, ¬ Shown faults s fs k f := by
  rw [List.eq_nil_iff_forall_not_mem]
  refine forall_congr' fun f => not_congr ?_
  rw [mem_walkIndexPath gathers_files hip hfound]
  simp only [mem_visit_files]
  constructor
  · intro h
    obtain ⟨n, d, entries, hvisited, hf⟩ := h
    exact ⟨ip, n, d, entries, hvisited, hf⟩
  · intro h
    obtain ⟨ip', n, d, entries, hvisited, hf⟩ := h
    obtain rfl := Option.some.inj (hip.symm.trans hvisited.1)
    exact ⟨n, d, entries, hvisited, hf⟩

section Scanned
variable {w : Walk} (h : collectFiles faults s fs = .ok w)
include h

theorem mem_collectFiles {α : Type} {part : Walk → List α} (hpart : Gathers part) (x : α) :
    x ∈ part w ↔ (∃ k ip n d entries, Visited faults s fs k ip n d entries ∧
        x ∈ part (visit (faults k n) s ip d entries)) ∨
      ∃ k ip found, s.indexPaths[k]? = some ip ∧
        walkIndexPath (faults k) s fs ip = .ok found ∧
          x ∈ part ⟨[], if found.files = [] then [ip.path] else [], []⟩ := by
  rw [mem_collectFrom hpart h]
  simp only [Nat.zero_add]
  constructor
  · rintro ⟨k, ip, found, hip, hfound, hx | hx⟩
    · exact Or.inl ⟨k, ip, (mem_walkIndexPath hpart hip hfound x).mp hx⟩
    · exact Or.inr ⟨k, ip, found, hip, hfound, hx⟩
  · rintro (⟨k, ip, n, d, entries, hvisited, hx⟩ | ⟨k, ip, found, hip, hfound, hx⟩)
    · have hip := hvisited.1
      obtain ⟨found, hfound⟩ := exists_walkIndexPath h hip
      rw [Nat.zero_add] at hfound
      exact ⟨k, ip, found, hip, hfound,
        Or.inl ((mem_walkIndexPath hpart hip hfound x).mpr ⟨n, d, entries, hvisited, hx⟩)⟩
    · exact ⟨k, ip, found, hip, hfound, Or.inr hx⟩

theorem mem_collectFiles_files (f : Path) :
    f ∈ w.files ↔ ∃ k, Shown faults s fs k f := by
  rw [mem_collectFiles h gathers_files]
  simp only [mem_visit_files, List.not_mem_nil, and_false, exists_false, or_false]
  rfl

theorem mem_collectFiles_unscanned (d : Path) : d ∈ w.unscanned ↔
    (∃ k ip n entries, Visited faults s fs k ip n d entries ∧
      FailsLoudly (faults k n) s d entries) ∨
    ∃ k ip, s.indexPaths[k]? = some ip ∧ d = ip.path ∧ ∀ f, ¬ Shown faults s fs k f := by
  rw [mem_collectFiles h gathers_unscanned]
  refine or_congr ?_ ?_
  · constructor
    · rintro ⟨k, ip, n, d', entries, hvisited, hd⟩
      obtain ⟨rfl, hloud⟩ := (mem_visit_unscanned d).mp hd
      exact ⟨k, ip, n, entries, hvisited, hloud⟩
    · rintro ⟨k, ip, n, entries, hvisited, hloud⟩
      exact ⟨k, ip, n, d, entries, hvisited, (mem_visit_unscanned d).mpr ⟨rfl, hloud⟩⟩
  · constructor
    · rintro ⟨k, ip, found, hip, hfound, hd⟩
      split_ifs at hd with hempty
      · exact ⟨k, ip, hip, List.mem_singleton.mp hd, (files_eq_nil_iff hip hfound).mp hempty⟩
      · cases hd
    · rintro ⟨k, ip, hip, rfl, hnone⟩
      obtain ⟨found, hfound⟩ := exists_walkIndexPath h hip
      rw [Nat.zero_add] at hfound
      exact ⟨k, ip, found, hip, hfound, by simp [(files_eq_nil_iff hip hfound).mpr hnone]⟩

theorem mem_collectFiles_errors (c : FsCall) :
    c ∈ w.errors ↔ ∃ k ip n d entries, Visited faults s fs k ip n d entries ∧
      c ∈ (visit (faults k n) s ip d entries).errors := by
  rw [mem_collectFiles h gathers_errors]
  simp

/-- An unscanned path leads to the path if a directory above it fails loudly, or an index
path above it shows nothing. -/
theorem isUnderAnyRoot_unscanned_iff (t : Text) :
    isUnderAnyRoot t (w.unscanned.map Path.str) = true ↔
      LoudErrorAbove faults s fs t ∨ BlankAbove faults s fs t := by
  simp only [isUnderAnyRoot, List.any_eq_true, List.mem_map, mem_collectFiles_unscanned h]
  constructor
  · rintro ⟨_, ⟨d, ⟨k, ip, n, entries, hvisited, hloud⟩ | ⟨k, ip, hip, rfl, hnone⟩, rfl⟩, hleads⟩
    · exact Or.inl ⟨k, ip, n, d, entries, hvisited, hloud, hleads⟩
    · exact Or.inr ⟨k, ip, hip, hleads, hnone⟩
  · rintro (⟨k, ip, n, d, entries, hvisited, hloud, hleads⟩ | ⟨k, ip, hip, hleads, hnone⟩)
    · exact ⟨_, ⟨d, Or.inl ⟨k, ip, n, entries, hvisited, hloud⟩, rfl⟩, hleads⟩
    · exact ⟨_, ⟨ip.path, Or.inr ⟨k, ip, hip, rfl, hnone⟩, rfl⟩, hleads⟩

/-- The tracked paths that the stale phase leaves alone. -/
theorem mem_stalePaths (tracked : Finset Text) (t : Text) :
    t ∈ stalePaths tracked (w.files.map Path.str) (w.unscanned.map Path.str) ↔
      t ∈ tracked ∧ ¬ (ShownAs faults s fs t ∨ LoudErrorAbove faults s fs t ∨
        BlankAbove faults s fs t) := by
  have hfiles : t ∈ w.files.map Path.str ↔ ShownAs faults s fs t := by
    simp only [List.mem_map, mem_collectFiles_files h]
    constructor
    · rintro ⟨f, ⟨k, hf⟩, rfl⟩
      exact ⟨k, f, hf, rfl⟩
    · rintro ⟨k, f, hf, rfl⟩
      exact ⟨f, ⟨k, hf⟩, rfl⟩
  rw [stalePaths, Finset.mem_filter, Finset.mem_sdiff, List.mem_toFinset, hfiles,
    ← Bool.not_eq_true, isUnderAnyRoot_unscanned_iff h, and_assoc, ← not_or]

end Scanned

/-- An error of `is_dir` on an index path ends the scan, no other does. -/
theorem collectFrom_ok_iff (k : Nat) (ips : List IndexPath) :
    (∃ w, collectFrom faults s fs k ips = .ok w) ↔
      ∀ i ip, ips[i]? = some ip → faults (k + i) ip.path (.isDir ip.path) = false := by
  induction ips generalizing k with
  | nil => simp [collectFrom]
  | cons ip ips ih =>
      have hwalk : (∃ found, walkIndexPath (faults k) s fs ip = .ok found) ↔
          faults k ip.path (.isDir ip.path) = false := by
        unfold walkIndexPath attempt
        cases hdir : faults k ip.path (.isDir ip.path) with
        | true => simp
        | false =>
            simp only [Bool.false_eq_true, if_false, iff_true]
            split <;> simp_all
      have hcons : (∃ w, collectFrom faults s fs k (ip :: ips) = .ok w) ↔
          (∃ found, walkIndexPath (faults k) s fs ip = .ok found) ∧
            ∃ others, collectFrom faults s fs (k + 1) ips = .ok others := by
        simp only [collectFrom_cons_eq_ok_iff]
        constructor
        · intro ⟨_, found, others, hfound, hothers, _⟩
          exact ⟨⟨found, hfound⟩, others, hothers⟩
        · intro ⟨⟨found, hfound⟩, others, hothers⟩
          exact ⟨_, found, others, hfound, hothers, rfl⟩
      rw [hcons, hwalk, ih]
      constructor
      · rintro ⟨hfirst, hrest⟩ i ip' hi
        cases i with
        | zero =>
            cases hi
            exact hfirst
        | succ i =>
            have hlater := hrest i ip' hi
            rwa [Nat.add_assoc, Nat.add_comm 1] at hlater
      · intro hall
        refine ⟨hall 0 ip rfl, fun i ip' hi => ?_⟩
        rw [Nat.add_assoc, Nat.add_comm 1]
        exact hall (i + 1) ip' hi

/-- Without errors no link is followed: what is descended into is a directory. -/
theorem dir_of_descends {d d' : Path} {ip : IndexPath} {entry : Name × Node} {below : Entries}
    (h : descends (fun _ => false) s ip d entry = true)
    (hopened : entry.2.opened (d ++ [entry.1]) = some (d', below)) :
    entry.2 = .dir below ∧ d' = d ++ [entry.1] :=
  opened_of_descends rfl h hopened

theorem Reaches.exists_append {ip : IndexPath} {n d m e : Path} {entries entries' : Entries}
    (h : Reaches (fun _ _ => false) s ip n d entries m e entries') : ∃ r, e = d ++ r := by
  induction h with
  | here n d entries => exact ⟨[], (List.append_nil d).symm⟩
  | down _ _ hdescends hopened _ ih =>
      obtain ⟨-, rfl⟩ := dir_of_descends hdescends hopened
      obtain ⟨r, rfl⟩ := ih
      exact ⟨_, List.append_assoc _ _ r⟩

/-- The descent to a path goes through where no error leads to the path. -/
theorem visited_of_reaches {k : Nat} {ip : IndexPath} {n d m e : Path}
    {entries entries' : Entries} {t : Text} (hleads : e.LeadsTo t)
    (hloud : ¬ LoudErrorAbove faults s fs t) (hquiet : ¬ QuietErrorOn faults s fs t)
    (hreaches : Reaches (fun _ _ => false) s ip n d entries m e entries')
    (hvisited : Visited faults s fs k ip n d entries) :
    Visited faults s fs k ip m e entries' := by
  induction hreaches with
  | here n d entries => exact hvisited
  | @down n d entries entry d' below m e entries' _ hentry hdescends hopened hrest ih =>
      obtain ⟨hnode, rfl⟩ := dir_of_descends hdescends hopened
      obtain ⟨r, rfl⟩ := hrest.exists_append
      have hlisted : faults k n (.scandir d) = false := by
        rw [List.append_assoc] at hleads
        by_contra hfault
        exact hloud ⟨k, ip, n, d, entries, hvisited, Or.inl (by simpa using hfault),
          hleads.parent⟩
      have hdir : faults k n (.entryIsDir (d ++ [entry.1])) = false := by
        by_contra hfault
        exact hquiet ⟨k, ip, n, d, entries, _, hvisited,
          ⟨hlisted, entry, hentry, .isDir (by simpa using hfault)⟩, hleads.parent⟩
      have hgoes : descends (faults k n) s ip d entry = true := by
        simpa [descends, keepsDir, islink, listedAsDir, hdir, hnode, Node.isSymlink] using hdescends
      obtain ⟨hip, below', hlookup, hreached⟩ := hvisited
      exact ih hleads ⟨hip, below', hlookup, hreached.append hlisted hentry hgoes hopened⟩

/-- An eligible path that no call on the way to it fails for is shown. -/
theorem shownAs_of_eligible {t : Text} (h : Eligible s fs t)
    (hloud : ¬ LoudErrorAbove faults s fs t) (hquiet : ¬ QuietErrorOn faults s fs t) :
    ShownAs faults s fs t := by
  obtain ⟨ip, hip, below, n, d, entries, hlookup, hreaches, entry, hentry, hname, hindexable,
    rfl⟩ := h
  obtain ⟨k, hk⟩ := List.mem_iff_getElem?.mp hip
  have hleads := Path.leadsTo_str_append d [entry.1]
  have hvisited := visited_of_reaches hleads hloud hquiet hreaches
    ⟨hk, below, hlookup, .here _ _ _⟩
  have hsilent : ¬ FailsLoudly (faults k n) s d entries :=
    fun hfails => hloud ⟨k, ip, n, d, entries, hvisited, hfails, hleads⟩
  have hlisted : faults k n (.scandir d) = false := by
    by_contra hfault
    exact hsilent (Or.inl (by simpa using hfault))
  have hnotDir : entry.2.entryIsDir = false := by
    have hisFile := hindexable.isFile
    cases hnode : entry.2 <;> simp [hnode, Node.isFile, Node.entryIsDir] at hisFile ⊢
  have hinspected : Inspected (faults k n) s d entry := ⟨by simp [listedAsDir, hnotDir], hname⟩
  have hchecked := isSafeIndexableFile_checked (faults k n) s (d ++ [entry.1]) entry.2
  generalize isSafeIndexableFile (faults k n) s (d ++ [entry.1]) entry.2 = r at hchecked
  cases hchecked with
  | raised c hraises =>
      exact absurd (Or.inr ⟨entry, hentry, hinspected, c, hraises⟩) hsilent
  | swallowed c hsilences =>
      refine absurd ⟨k, ip, n, d, entries, c, hvisited,
        ⟨hlisted, entry, hentry, .check c hinspected hsilences⟩, ?_⟩ hquiet
      rw [hsilences.path_eq]
      simpa using Path.leadsTo_str_append (d ++ [entry.1]) []
  | rejected hrejected => exact absurd hindexable hrejected
  | accepted hadmits =>
      exact ⟨k, _, ⟨ip, n, d, entries, hvisited, hsilent, entry, hentry, hinspected, rfl,
        hadmits⟩, rfl⟩

end Collection

section Purge

/-- The tracked paths that `main` purges after this scan: none if it raised. -/
def purged (tracked : Finset Text) : Except FsCall Walk → Finset Text
  | .ok w => stalePaths tracked (w.files.map Path.str) (w.unscanned.map Path.str)
  | .error _ => ∅

/-- The errors that were raised during a scan. -/
def raised : Except FsCall Walk → List FsCall
  | .ok w => w.errors
  | .error c => [c]

/-- A path is purged only after a scan without an error on it or on a directory leading
to it, and as absent or no longer eligible, if and only if an error on an index path ends
the scan, or every tracked path that a quiet error meets on its way is shown by a way on
which no call fails, or is below a loud error or an index path that shows nothing. -/
theorem purged_only_if_seen_iff (faults : Nat → WalkFaults) (s : ScanSettings) (fs : Node)
    (tracked : Finset Text) :
    (∀ t ∈ purged tracked (collectFiles faults s fs),
        (∀ c ∈ raised (collectFiles faults s fs), ¬ c.path.LeadsTo t) ∧ ¬ Eligible s fs t) ↔
      ((∀ k ip, s.indexPaths[k]? = some ip → faults k ip.path (.isDir ip.path) = false) →
        ∀ t ∈ tracked, QuietErrorOn faults s fs t →
          ShownAs faults s fs t ∨ LoudErrorAbove faults s fs t ∨ BlankAbove faults s fs t) := by
  have hok : (∃ w, collectFrom faults s fs 0 s.indexPaths = .ok w) ↔ _ :=
    collectFrom_ok_iff 0 s.indexPaths
  simp only [Nat.zero_add] at hok
  rw [← hok]
  cases hscan : collectFrom faults s fs 0 s.indexPaths with
  | error c => simp [collectFiles, hscan, purged]
  | ok w =>
  have hscan : collectFiles faults s fs = .ok w := hscan
  simp only [hscan, purged, raised, Except.ok.injEq, exists_eq', true_implies]
  constructor
  · intro hseen t ht hquiet
    by_contra hnot
    have hstale := hseen t ((mem_stalePaths hscan tracked t).mpr ⟨ht, hnot⟩)
    obtain ⟨k, ip, n, d, entries, c, hvisited, hfails, hleads⟩ := hquiet
    -- the directory does not fail loudly, so the error is recorded
    have hsilent : ¬ FailsLoudly (faults k n) s d entries := by
      intro hloud
      obtain ⟨name, hpath⟩ := hfails.path_eq
      rw [hpath] at hleads
      exact hnot (Or.inr (Or.inl ⟨k, ip, n, d, entries, hvisited, hloud, hleads.parent⟩))
    exact hstale.1 c ((mem_collectFiles_errors hscan c).mpr ⟨k, ip, n, d, entries, hvisited,
      hfails.mem_visit_errors hsilent⟩) hleads
  · intro hkept t ht
    obtain ⟨htracked, hnot⟩ := (mem_stalePaths hscan tracked t).mp ht
    have hquiet : ¬ QuietErrorOn faults s fs t := fun h => hnot (hkept t htracked h)
    have hloud : ¬ LoudErrorAbove faults s fs t := fun h => hnot (Or.inr (Or.inl h))
    refine ⟨fun c hc hleads => ?_,
      fun heligible => hnot (Or.inl (shownAs_of_eligible heligible hloud hquiet))⟩
    obtain ⟨k, ip, n, d, entries, hvisited, hc⟩ := (mem_collectFiles_errors hscan c).mp hc
    obtain ⟨hfails, e, he⟩ | hfails := of_mem_visit_errors hc
    · rw [he] at hleads
      exact hloud ⟨k, ip, n, d, entries, hvisited, hfails, hleads.parent⟩
    · exact hquiet ⟨k, ip, n, d, entries, c, hvisited, hfails, hleads⟩

def docsName : Name := ⟨text "docs", by decide⟩

def guideName : Name := ⟨text "guide.md", by decide⟩

def notesName : Name := ⟨text "notes.md", by decide⟩

/-- One index path with two files. -/
def sampleTree : Node := .dir [(docsName, .dir [(guideName, .file 5), (notesName, .file 7)])]

def sampleScan : ScanSettings where
  indexPaths := [⟨[docsName], true, []⟩]
  ignorePatterns := []
  fnmatch := fun _ _ => false
  hasAllowedExtension := fun _ => true
  maxIndexFileBytes := 1000

/-- Only the `stat` of the guide raises. -/
def statFault (_ : Nat) (_ : Path) (c : FsCall) : Bool := c = .stat [docsName, guideName]

/-- An existing, eligible file is purged because its own inspection raised. -/
theorem unreadable_file_purged :
    (text "/docs/guide.md" ∈ purged {text "/docs/guide.md"}
        (collectFiles statFault sampleScan sampleTree)) ∧
      FsCall.stat [docsName, guideName] ∈ raised (collectFiles statFault sampleScan sampleTree) ∧
      Path.LeadsTo [docsName, guideName] (text "/docs/guide.md") ∧
      Eligible sampleScan sampleTree (text "/docs/guide.md") := by
  refine ⟨by decide +kernel, by decide +kernel, by decide +kernel, ?_⟩
  refine ⟨⟨[docsName], true, []⟩, by simp [sampleScan], _, _, _, _, rfl, .here _ _ _,
    (guideName, .file 5), by simp, by decide +kernel, ⟨⟨rfl, ?_, rfl⟩, by decide⟩, by decide⟩
  exact ⟨_, List.mem_singleton_self _, by simp⟩

end Purge

end LocalGraphRag.Ingest
