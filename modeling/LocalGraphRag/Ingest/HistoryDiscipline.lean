import LocalGraphRag.Ingest.HistorySync

/-!
# The discipline of the sync

Every call of a run is due after the calls before it. Above all a deletion is: all roots are
then known to be listed, nothing but logs has failed, and no `.git` was found under the name of
the document. This is proof of absence only where each `.git` that is there was found.
-/

namespace LocalGraphRag.Ingest

open LocalGraphRag.Python LocalGraphRag.Effects LocalGraphRag.Relational

variable (s : ScanSettings) (tree : ProjectTree) (roots : List FlaggedIndexPath)

section Discipline

/-- Nothing has failed but logs. -/
def OnlyLogsFailed (record : HistoryRecord) : Prop :=
  ∀ x ∈ record, x.Succeeded ∨ ∃ path name, x.1 = .gitLog path name

/-- A root was listed, and it has children. -/
def Listed (record : HistoryRecord) (ip : FlaggedIndexPath) : Prop :=
  ⟨.iterdir ip.path, .ok (tree.children ip.path)⟩ ∈ record ∧ (tree.children ip.path).Nonempty

/-- After these calls it is certain that no repository has the document. -/
structure Justified (before : HistoryRecord) (file : Text) : Prop where
  listed : ∀ ip ∈ roots, Listed tree before ip
  smooth : OnlyLogsFailed before
  absent : ∀ ip ∈ roots, ∀ name, IsRepo s tree ip name → file ≠ docName name

/-- The deletion of a document that no repository was found for, when the list of documents
comes to it. -/
structure InTurn (before : HistoryRecord) (file : Text) : Prop where
  listed : ∀ ip ∈ roots, Listed tree before ip
  smooth : OnlyLogsFailed before
  unfound : ∀ path name, GitFound before path name → file ≠ docName name
  next : ∃ done rest, ⟨.glob, .ok (done ++ file :: rest)⟩ ∈ before ∧
    (done ++ file :: rest).Nodup ∧ ∀ file' r, ⟨.unlink file', r⟩ ∈ before → file' ∈ done

/-- No two roots are the same directory. -/
def Distinct : Prop := (roots.map (·.path)).Nodup

/-- The documents have not been listed yet. -/
def Unswept (before : HistoryRecord) : Prop := ∀ r, ⟨.glob, r⟩ ∉ before

/-- The calls that the sync makes after a record. -/
def Due (before : HistoryRecord) : HistoryCall → Prop
  | .gitExists _ _ => Unswept before
  | .gitLog path name => Unswept before ∧ GitFound before path name ∧
      (∃ ip ∈ roots, ip.path = path ∧ IsRepo s tree ip name) ∧
      (Distinct roots → ∀ r, ⟨.gitLog path name, r⟩ ∉ before)
  | .write file _ => ∃ path name commits, file = docName name ∧ LogRead before path name commits
  | .glob => Unswept before
  | .unlink file => InTurn tree roots before file
  | _ => True

/-- The documents differ from those before the run by what the record says. -/
structure Traced (docs : Documents) (w : Documents × HistoryRecord) : Prop where
  vanished : ∀ file, docs file ≠ none → w.1 file = none → ∃ r, ⟨.unlink file, r⟩ ∈ w.2
  unchanged : ∀ file, (∀ content r, ⟨.write file content, r⟩ ∉ w.2) →
    (∀ r, ⟨.unlink file, r⟩ ∉ w.2) → w.1 file = docs file

/-- The invariant of every run. -/
structure Kept (docs : Documents) (w : Documents × HistoryRecord) : Prop where
  warranted : Warranted (Due s tree roots) w.2
  traced : Traced docs w

variable {s tree roots} {docs : Documents} {w : Documents × HistoryRecord}

theorem Traced.step (hw : Traced docs w) (o : HistoryCall) (c : HistoryChoice) :
    Traced docs (recording (respond tree) w o c).2 := by
  simp only [recording_snd]
  constructor
  · intro file hfile hnone
    by_cases ho : o = .unlink file
    · subst ho
      exact ⟨_, List.mem_append_right w.2 (List.mem_singleton_self _)⟩
    · obtain ⟨r, hr⟩ := hw.vanished file hfile (respond_apply_eq_none ho hnone)
      exact ⟨r, List.mem_append_left _ hr⟩
  · intro file hwrite hunlink
    have hdocs : (respond tree w.1 o c).2 file = w.1 file := by
      apply respond_apply
      · intro content ho
        subst ho
        exact hwrite content _ (List.mem_append_right w.2 (List.mem_singleton_self _))
      · intro ho
        subst ho
        exact hunlink _ (List.mem_append_right w.2 (List.mem_singleton_self _))
    apply hdocs.trans
    apply hw.unchanged
    · intro content r h
      exact hwrite content r (List.mem_append_left _ h)
    · intro r h
      exact hunlink r (List.mem_append_left _ h)

/-- A call that is due keeps the invariant, whatever it does. -/
theorem Kept.step (hw : Kept s tree roots docs w) {o : HistoryCall}
    (ho : Due s tree roots w.2 o) (c : HistoryChoice) :
    Kept s tree roots docs (recording (respond tree) w o c).2 :=
  ⟨hw.warranted.concat ho, hw.traced.step o c⟩

/-- Only logs of repositories are asked for. -/
theorem Kept.isRepo (hw : Kept s tree roots docs w) {path : Path} {name : Name}
    {r : Except HistoryError Text} (h : ⟨.gitLog path name, r⟩ ∈ w.2) :
    ∃ ip ∈ roots, ip.path = path ∧ IsRepo s tree ip name := by
  obtain ⟨before, _, -, -, hrepo, -⟩ := hw.warranted.exists_of_mem h
  exact hrepo

theorem kept_init : Kept s tree roots docs (docs, []) := by
  refine ⟨warranted_nil, ?_, ?_⟩
  · intro file hfile hnone
    exact absurd hnone hfile
  · intro file _ _
    rfl

end Discipline

section Consequences
variable {s tree roots} {docs : Documents} {w : Documents × HistoryRecord}
  {indexPaths : List FlaggedIndexPath}

/-- What is found is found before any deletion. -/
theorem Kept.found_before (hw : Kept s tree roots docs w) {path : Path} {name : Name}
    (h : GitFound w.2 path name) {before : HistoryRecord} {file : Text}
    {r : Except HistoryError Unit} (hbefore : before ++ [⟨.unlink file, r⟩] <+: w.2) :
    GitFound before path name := by
  obtain ⟨start, hstart, hunswept⟩ := hw.warranted.exists_of_mem h
  obtain ⟨-, -, -, done, rest, hglob, -⟩ := hw.warranted before _ hbefore
  obtain hfirst | ⟨-, hsame⟩ | hlater := place_cases hstart hbefore
  · exact hfirst.subset (by simp)
  · exact absurd (congrArg Sigma.fst hsame) (by simp)
  · exact absurd (hlater.subset (List.mem_append_left _ hglob)) (hunswept _)

/-- The document of a repository that was found is not deleted. -/
theorem Kept.not_unlink (hw : Kept s tree roots docs w) {path : Path} {name : Name}
    (h : GitFound w.2 path name) (r : Except HistoryError Unit) :
    ⟨.unlink (docName name), r⟩ ∉ w.2 := by
  intro hr
  obtain ⟨before, hbefore, hturn⟩ := hw.warranted.exists_of_mem hr
  exact hturn.unfound path name (hw.found_before h hbefore) rfl

/-- A repository was found before its log is asked for. -/
theorem Kept.found_of_gitLog (hw : Kept s tree roots docs w) {path : Path} {name : Name}
    {r : Except HistoryError Text} (h : ⟨.gitLog path name, r⟩ ∈ w.2) : GitFound w.2 path name := by
  obtain ⟨before, hbefore, -, hfound, -⟩ := hw.warranted.exists_of_mem h
  exact hbefore.subset (List.mem_append_left _ hfound)

/-- What is written under a name comes from a log. -/
theorem Kept.logRead_of_written (hw : Kept s tree roots docs w) {name : Name}
    (h : Written w.2 name) : ∃ path commits, LogRead w.2 path name commits := by
  obtain ⟨content, r, hr⟩ := h
  obtain ⟨before, hbefore, path, name', commits, hname, hread⟩ := hw.warranted.exists_of_mem hr
  rw [← docName_injective hname] at hread
  exact ⟨path, commits, hread.mono fun x hx => hbefore.subset (List.mem_append_left _ hx)⟩

/-- Among distinct roots, the log of each repository is asked for once. -/
theorem Kept.eq_of_gitLog (hw : Kept s tree roots docs w) (hdistinct : Distinct roots)
    {path : Path} {name : Name} {r r' : Except HistoryError Text}
    (hr : ⟨.gitLog path name, r⟩ ∈ w.2) (hr' : ⟨.gitLog path name, r'⟩ ∈ w.2) : r = r' := by
  obtain heq | ⟨before, hbefore, hmem⟩ | ⟨before, hbefore, hmem⟩ := eq_or_before hr hr'
  · cases heq
    rfl
  · exact absurd hmem ((hw.warranted before _ hbefore).2.2.2 hdistinct r)
  · exact absurd hmem ((hw.warranted before _ hbefore).2.2.2 hdistinct r')

/-- What the run leaves, with its record. Documents are deleted only when this is justified,
and that of a repository whose log failed stays unless another one of its name is written. -/
structure DeletesOnProof (s : ScanSettings) (tree : ProjectTree)
    (indexPaths : List FlaggedIndexPath) (docs : Documents) (w : Documents × HistoryRecord) :
    Prop where
  deletions : ∀ before file r, before ++ [⟨.unlink file, r⟩] <+: w.2 →
    Justified s tree (projectRoots indexPaths) before file
  vanished : ∀ file, docs file ≠ none → w.1 file = none → ∃ r, ⟨.unlink file, r⟩ ∈ w.2
  failed : ∀ path name, LogFailed w.2 path name → ¬Written w.2 name →
    w.1 (docName name) = docs (docName name)
  another : Distinct (projectRoots indexPaths) → ∀ path name, LogFailed w.2 path name →
    Written w.2 name → ∃ path' commits, path' ≠ path ∧ LogRead w.2 path' name commits

/-- The sync comes to a document: it is listed, and the deletion of none that is listed before
it raises. -/
def ComesTo (record : HistoryRecord) (file : Text) : Prop :=
  ∃ done rest, ⟨.glob, .ok (done ++ file :: rest)⟩ ∈ record ∧
    ∀ file' ∈ done, ∀ e, ⟨.unlink file', .error e⟩ ∉ record

/-- If the sync comes to the document of a repository, a `.git` was found under its name. -/
def ReposFound (s : ScanSettings) (tree : ProjectTree) (roots : List FlaggedIndexPath)
    (record : HistoryRecord) : Prop :=
  ∀ ip ∈ roots, ∀ name, IsRepo s tree ip name → ComesTo record (docName name) →
    ∃ path, GitFound record path name

/-- All documents that the sync comes to are those of a name found or deleted. -/
def Swept (record : HistoryRecord) : Prop :=
  ∀ file, ComesTo record file →
    (∃ path name, name.val = docStem file ∧ GitFound record path name) ∨
      ∃ r, ⟨.unlink file, r⟩ ∈ record

/-- The documents are listed once. -/
theorem Kept.eq_of_glob (hw : Kept s tree roots docs w) {r r' : Except HistoryError (List Text)}
    (hr : ⟨.glob, r⟩ ∈ w.2) (hr' : ⟨.glob, r'⟩ ∈ w.2) : r = r' := by
  obtain heq | ⟨before, hbefore, hmem⟩ | ⟨before, hbefore, hmem⟩ := eq_or_before hr hr'
  · cases heq
    rfl
  · exact absurd hmem (hw.warranted before _ hbefore r)
  · exact absurd hmem (hw.warranted before _ hbefore r')

/-- When a document's turn has come, the sync has come to it. -/
theorem Kept.comesTo (hw : Kept s tree roots docs w) {before : HistoryRecord} {file : Text}
    {r : Except HistoryError Unit} (hbefore : before ++ [⟨.unlink file, r⟩] <+: w.2) :
    ComesTo w.2 file := by
  obtain ⟨-, hsmooth, -, done, rest, hglob, hnodup, hdone⟩ := hw.warranted before _ hbefore
  have hsub : before ⊆ w.2 := ((List.prefix_append before _).trans hbefore).subset
  refine ⟨done, rest, hsub hglob, fun file' hfile' e he => ?_⟩
  obtain ⟨start, hstart, hturn⟩ := hw.warranted.exists_of_mem he
  obtain ⟨-, -, -, done', rest', hglob', hnodup', hdone'⟩ := hturn
  have hstart' : start ⊆ w.2 := ((List.prefix_append start _).trans hstart).subset
  have hfiles := Except.ok.inj (hw.eq_of_glob (hsub hglob) (hstart' hglob'))
  have hfile : file ∉ done := fun hmem =>
    (List.nodup_append.mp hnodup).2.2 file hmem file List.mem_cons_self rfl
  have hne : file' ≠ file := fun heq => hfile (heq ▸ hfile')
  obtain hearlier | ⟨-, hsame⟩ | hlater := place_cases hstart hbefore
  · -- a deletion that raises is the last one
    have hmem := hearlier.subset (List.mem_append_right start (List.mem_singleton_self _))
    obtain ⟨a, ha⟩ | ⟨path, name, hlog⟩ := hsmooth _ hmem
    · cases ha
    · cases hlog
  · cases hsame
    exact hne rfl
  · -- the list is gone through in its order
    have hmem : file ∈ done' :=
      hdone' file r (hlater.subset (List.mem_append_right before (List.mem_singleton_self _)))
    obtain ⟨more, rfl, -⟩ | ⟨more, rfl, -⟩ := List.append_eq_append_iff.mp hfiles
    · have hfile'' : file' ∈ done ++ more := List.mem_append_left more hfile'
      exact (List.nodup_append.mp hnodup').2.2 file' hfile'' file' List.mem_cons_self rfl
    · exact hfile (List.mem_append_left more hmem)

theorem Kept.deletesOnProof_iff (hw : Kept s tree (projectRoots indexPaths) docs w)
    (hswept : Swept w.2) : DeletesOnProof s tree indexPaths docs w ↔
      ReposFound s tree (projectRoots indexPaths) w.2 := by
  constructor
  · intro h ip hip name his hcomes
    obtain ⟨path, name', hname, hfound⟩ | ⟨r, hr⟩ := hswept (docName name) hcomes
    · rw [docStem_docName] at hname
      exact ⟨path, Subtype.ext hname ▸ hfound⟩
    · obtain ⟨before, hbefore⟩ := exists_concat_prefix hr
      exact absurd rfl ((h.deletions before _ r hbefore).absent ip hip name his)
  · intro h
    refine ⟨?_, hw.traced.vanished, ?_, ?_⟩
    · intro before file r hbefore
      have hturn : InTurn tree (projectRoots indexPaths) before file :=
        hw.warranted before _ hbefore
      refine ⟨hturn.listed, hturn.smooth, ?_⟩
      rintro ip hip name his rfl
      obtain ⟨path, hfound⟩ := h ip hip name his (hw.comesTo hbefore)
      exact hturn.unfound path name (hw.found_before hfound hbefore) rfl
    · intro path name hfailed hwritten
      obtain ⟨r, _, hmem⟩ := hfailed
      apply hw.traced.unchanged
      · intro content r' hr'
        exact hwritten ⟨content, r', hr'⟩
      · exact hw.not_unlink (hw.found_of_gitLog hmem)
    · intro hdistinct path name hfailed hwritten
      obtain ⟨path', commits, hread⟩ := hw.logRead_of_written hwritten
      refine ⟨path', commits, ?_, hread⟩
      intro hpath
      subst hpath
      obtain ⟨r, hr, hmem⟩ := hfailed
      obtain ⟨log, hmem', hlog⟩ := hread
      have hnone := hr log (hw.eq_of_gitLog hdistinct hmem hmem')
      rw [hlog] at hnone
      cases hnone

end Consequences

section Programs
variable (docs : Documents)

/-- The program keeps the invariant, and `R` holds of what it returns. -/
abbrev Ensures {α : Type} (m : Sync α) (R : α → Documents × HistoryRecord → Prop)
    (w : Documents × HistoryRecord) : Prop :=
  Establishes (recording (respond tree)) (fun _ _ _ => True) (Kept s tree roots docs) m R w

variable {s tree roots docs} {w : Documents × HistoryRecord}

theorem ensures_perform {o : HistoryCall} {R : o.Ret → Documents × HistoryRecord → Prop}
    (hw : Kept s tree roots docs w) (ho : Due s tree roots w.2 o)
    (h : ∀ c a, (respond tree w.1 o c).1 = .ok a →
      R a ((respond tree w.1 o c).2, w.2 ++ [⟨o, .ok a⟩])) :
    Ensures s tree roots docs (Prog.perform o) R w := by
  apply establishes_perform
  intro c _
  refine ⟨hw.step ho c, ?_⟩
  intro a ha
  rw [recording_fst] at ha
  rw [recording_snd, ha]
  exact h c a ha

/-- A call that is neither a write nor a deletion only adds to the record. -/
theorem recording_eq {o : HistoryCall} {c : HistoryChoice}
    (hwrite : ∀ file content, o ≠ .write file content) (hunlink : ∀ file, o ≠ .unlink file) :
    (recording (respond tree) w o c).2 = (w.1, w.2 ++ [⟨o, (respond tree w.1 o c).1⟩]) := by
  have hdocs : (respond tree w.1 o c).2 = w.1 := by
    funext file
    exact respond_apply (hwrite file) (hunlink file)
  rw [recording_snd, hdocs]

/-- A listing is that of the directory, unless it is given up. -/
theorem ensures_listDir (hw : Kept s tree roots docs w) (path : Path) :
    Ensures s tree roots docs (listDir path) (fun names w' =>
      (names = orderBy (tree.children path) ∧
        w' = (w.1, w.2 ++ [⟨.iterdir path, .ok (tree.children path)⟩])) ∨
      (names = [] ∧ ∃ e, w' = (w.1, w.2 ++ [⟨.iterdir path, .error e⟩]))) w := by
  intro c _
  have hkept := hw.step (show Due s tree roots w.2 (.iterdir path) from trivial) c
  refine ⟨hkept, ?_⟩
  rw [recording_eq (by simp) (by simp)] at hkept ⊢
  rw [recording_fst]
  cases hr : (respond tree w.1 (.iterdir path) c).1 with
  | ok names =>
      rw [hr, respond_iterdir hr] at hkept
      rw [respond_iterdir hr]
      apply establishes_ret hkept
      exact Or.inl ⟨rfl, rfl⟩
  | error e =>
      rw [hr] at hkept
      by_cases he : e = .os
      · subst he
        apply establishes_ret hkept
        exact Or.inr ⟨rfl, _, rfl⟩
      · change Safe _ _ _ (if e = .os then _ else Prog.fail e) _ _
        rw [if_neg he]
        exact ⟨hkept, by simp⟩

theorem ensures_gitExists (hw : Kept s tree roots docs w) (hunswept : Unswept w.2) (path : Path)
    (name : Name) :
    Ensures s tree roots docs (Prog.perform (HistoryCall.gitExists path name)) (fun found w' =>
      (found = true → tree.git path name = .found) ∧
        w' = (w.1, w.2 ++ [⟨.gitExists path name, .ok found⟩])) w := by
  apply ensures_perform (o := .gitExists path name) hw hunswept
  intro c found hfound
  refine ⟨fun htrue => respond_gitExists (hfound.trans (htrue ▸ rfl)), ?_⟩
  have heq : (recording (respond tree) w (.gitExists path name) c).2 = _ :=
    recording_eq (by simp) (by simp)
  rwa [recording_snd, hfound] at heq

theorem ensures_write (hw : Kept s tree roots docs w) {file content : Text}
    (ho : Due s tree roots w.2 (.write file content)) :
    Ensures s tree roots docs (Prog.perform (HistoryCall.write file content)) (fun _ w' =>
      w' = (Function.update w.1 file (some content),
        w.2 ++ [⟨.write file content, .ok ()⟩])) w := by
  apply ensures_perform hw ho
  intro c u hu
  rw [respond_write hu]

/-- The history of a repository as the outcome of its log gives it. -/
def historyOf (name : Name) : Except HistoryError Text → Option Text
  | .ok log => (parseLog log).map (renderHistory name.val)
  | .error _ => none

theorem ensures_readHistory (hw : Kept s tree roots docs w) {path : Path} {name : Name}
    (ho : Due s tree roots w.2 (.gitLog path name)) :
    Ensures s tree roots docs (readHistory path name) (fun history w' =>
            ∃ r, history = historyOf name r ∧ w' = (w.1, w.2 ++ [⟨.gitLog path name, r⟩])) w := by
  intro c _
  have hkept := hw.step ho c
  refine ⟨hkept, ?_⟩
  rw [recording_eq (by simp) (by simp)] at hkept ⊢
  rw [recording_fst]
  cases hr : (respond tree w.1 (.gitLog path name) c).1 with
  | ok log =>
      rw [hr] at hkept
      change Safe _ _ _ (Prog.orElse (rendered name (parseLog log)) _) _ _
      cases hlog : parseLog log with
      | none =>
          apply establishes_ret hkept
          exact ⟨_, by simp [historyOf, hlog], rfl⟩
      | some commits =>
          apply establishes_ret hkept
          exact ⟨_, by simp [historyOf, hlog], rfl⟩
  | error e =>
      rw [hr] at hkept
      change Safe _ _ _ (if e = .other then _ else _) _ _
      by_cases he : e = .other
      · rw [if_pos he]
        exact ⟨hkept, by simp⟩
      · rw [if_neg he]
        apply establishes_ret hkept
        exact ⟨_, rfl, rfl⟩

theorem historyOf_eq_none_iff {name : Name} {r : Except HistoryError Text} :
    historyOf name r = none ↔ Unreadable r := by
  cases r with
  | ok log => simp [historyOf, Unreadable]
  | error e => simp [historyOf, Unreadable]

theorem historyOf_eq_some_iff {name : Name} {r : Except HistoryError Text} {content : Text} :
    historyOf name r = some content ↔ ∃ log commits, r = .ok log ∧
      parseLog log = some commits ∧ renderHistory name.val commits = content := by
  cases r with
  | ok log => simp [historyOf]
  | error e => simp [historyOf]

end Programs

end LocalGraphRag.Ingest
