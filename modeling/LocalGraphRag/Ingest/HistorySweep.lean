import LocalGraphRag.Effects.CallSupport
import LocalGraphRag.Ingest.HistoryDocuments

/-!
# The documents that the sync keeps and deletes

The deletion loop goes through the documents in their order: one of a name that is present
stays, any other is deleted, up to one whose deletion raises. So a document is deleted only on
proof of absence exactly if no `.git` was taken for absent, or it was found elsewhere under
the same name.

Of the repositories of one name, the document of the one written last stays. So each
repository has its own document exactly if those of one name have the same one.
-/

namespace LocalGraphRag.Ingest

open LocalGraphRag.Python LocalGraphRag.Effects LocalGraphRag.Relational

variable (s : ScanSettings) (tree : ProjectTree) (roots : List FlaggedIndexPath)

section Sweep

/-- What the deletion loop has established after the documents `done`. -/
structure Sweeping (files : List Text) (present : Finset Text) (done : List Text)
    (w : Documents × HistoryRecord) : Prop where
  current : ∀ path name commits, LogRead w.2 path name commits → Current w name
  names : Names present w.2
  listed : ∀ ip ∈ roots, Listed tree w.2 ip
  smooth : OnlyLogsFailed w.2
  files : ⟨.glob, .ok files⟩ ∈ w.2 ∧ files.Nodup
  removed : ∀ file r, ⟨.unlink file, r⟩ ∈ w.2 → file ∈ done
  swept : ∀ file ∈ done, docStem file ∈ present ∨ ∃ r, ⟨.unlink file, r⟩ ∈ w.2

variable {s tree roots} {docs : Documents} {w : Documents × HistoryRecord}
  {files done : List Text} {present : Finset Text}

/-- A document of a name that is present stays. -/
theorem Sweeping.skip (h : Sweeping tree roots files present done w) {file : Text}
    (hfile : docStem file ∈ present) : Sweeping tree roots files present (done ++ [file]) w := by
  refine ⟨h.current, h.names, h.listed, h.smooth, h.files, ?_, ?_⟩
  · intro file' r hr
    exact List.mem_append_left _ (h.removed file' r hr)
  · rw [List.forall_mem_append, List.forall_mem_singleton]
    exact ⟨h.swept, Or.inl hfile⟩

/-- A document of another name is deleted. -/
theorem Sweeping.remove (h : Sweeping tree roots files present done w)
    (hw : Kept s tree roots docs w) {file : Text} {docs' : Documents}
    (hfile : docStem file ∉ present) (hdocs : ∀ file', file' ≠ file → docs' file' = w.1 file') :
    Sweeping tree roots files present (done ++ [file])
      (docs', w.2 ++ [⟨.unlink file, .ok ()⟩]) := by
  constructor
  · intro path name commits hread
    rw [logRead_concat (by simp)] at hread
    obtain ⟨log, hmem, _⟩ := id hread
    apply (h.current path name commits hread).append
    apply hdocs
    rintro rfl
    rw [docStem_docName] at hfile
    exact hfile ((h.names name.val).mpr ⟨path, name, rfl, hw.found_of_gitLog hmem⟩)
  · exact h.names.append (by simp [GitFound])
  · intro ip hip
    exact (h.listed ip hip).append _
  · apply h.smooth.append
    intro x hx
    obtain rfl := List.mem_singleton.mp hx
    exact Or.inl ⟨(), rfl⟩
  · exact ⟨List.mem_append_left _ h.files.1, h.files.2⟩
  · intro file' r hr
    obtain hr | hr := List.mem_append.mp hr
    · exact List.mem_append_left _ (h.removed file' r hr)
    · cases List.mem_singleton.mp hr
      exact List.mem_append_right _ (List.mem_singleton_self _)
  · rw [List.forall_mem_append, List.forall_mem_singleton]
    refine ⟨fun file' hfile' => ?_, Or.inr ⟨.ok (), by simp⟩⟩
    obtain hpresent | ⟨r, hr⟩ := h.swept file' hfile'
    · exact Or.inl hpresent
    · exact Or.inr ⟨r, List.mem_append_left _ hr⟩

/-- At the end of the list, or where a deletion raised, all is done that could be. -/
theorem Sweeping.finish (h : Sweeping tree roots files present done w)
    {w' : Documents × HistoryRecord} (hw' : Kept s tree roots docs w')
    (hend : done = files ∧ w' = w ∨
      ∃ file rest e, done ++ file :: rest = files ∧ w'.2 = w.2 ++ [⟨.unlink file, .error e⟩]) :
    Swept w'.2 := by
  have hsub : w.2 ⊆ w'.2 := by
    obtain ⟨-, rfl⟩ | ⟨file, rest, e, -, hrecord⟩ := hend
    · exact List.Subset.refl _
    · rw [hrecord]
      exact List.subset_append_left _ _
  intro file hcomes
  obtain ⟨before, rest, hglob, hbefore⟩ := hcomes
  have hfiles := Except.ok.inj (hw'.eq_of_glob (hsub h.files.1) hglob)
  have hdone : file ∈ done → (∃ path name, name.val = docStem file ∧ GitFound w'.2 path name) ∨
      ∃ r, ⟨.unlink file, r⟩ ∈ w'.2 := by
    intro hmem
    obtain hpresent | ⟨r, hr⟩ := h.swept file hmem
    · obtain ⟨path, name, hname, hfound⟩ := (h.names _).mp hpresent
      exact Or.inl ⟨path, name, hname, hsub hfound⟩
    · exact Or.inr ⟨r, hsub hr⟩
  obtain ⟨rfl, -⟩ | ⟨last, more, e, hlast, hrecord⟩ := hend
  · exact hdone (by rw [hfiles]; simp)
  · have hfailed : ⟨.unlink last, .error e⟩ ∈ w'.2 := by
      rw [hrecord]
      exact List.mem_append_right _ (List.mem_singleton_self _)
    rw [hfiles] at hlast
    obtain ⟨skipped, rfl, hskipped⟩ | ⟨skipped, rfl, hskipped⟩ :=
      List.append_eq_append_iff.mp hlast
    · -- the deletion that raised stands before the document, or is that of the document
      cases skipped with
      | nil =>
          obtain ⟨rfl, -⟩ := List.cons.inj hskipped
          exact Or.inr ⟨_, hfailed⟩
      | cons x skipped =>
          obtain ⟨rfl, -⟩ := List.cons.inj hskipped
          exact absurd hfailed (hbefore last (by simp) e)
    · cases skipped with
      | nil =>
          obtain ⟨rfl, -⟩ := List.cons.inj hskipped
          exact Or.inr ⟨_, hfailed⟩
      | cons x skipped =>
          obtain ⟨rfl, -⟩ := List.cons.inj hskipped
          exact hdone (by simp)

end Sweep

section Ends
variable {s tree roots} {docs : Documents} {w : Documents × HistoryRecord}

variable (s tree roots docs) in
/-- However it ends, the program keeps the invariant and has swept the documents; when it
returns, the documents of the repositories read are those of one of them. -/
abbrev Ends (m : Sync Unit) (w : Documents × HistoryRecord) : Prop :=
  Safe (recording (respond tree)) (fun _ _ _ => True) (Kept s tree roots docs) m
    (fun r w' => Kept s tree roots docs w' ∧ Swept w'.2 ∧
      (r = .ok () → ∀ path name commits, LogRead w'.2 path name commits → Current w' name)) w

/-- Where the documents were not listed, the sync has come to none. -/
theorem swept_of_unlisted {record : HistoryRecord} (h : ∀ files, ⟨.glob, .ok files⟩ ∉ record) :
    Swept record := by
  intro file hcomes
  obtain ⟨done, rest, hglob, -⟩ := hcomes
  exact absurd hglob (h _)

/-- What comes before the list of the documents may raise. -/
theorem ends_bind {α : Type} {m : Sync α} {f : α → Sync Unit}
    {R : α → Documents × HistoryRecord → Prop} (hm : Ensures s tree roots docs m R w)
    (hcalls : CallsOnly (· ≠ .glob) m) (hunswept : Unswept w.2)
    (hf : ∀ a w', Kept s tree roots docs w' → R a w' → Ends s tree roots docs (f a) w') :
    Ends s tree roots docs (m.bind f) w := by
  have hkeeps : ∀ (w : Documents × HistoryRecord) (o : HistoryCall) c, o ≠ .glob → Unswept w.2 →
      Unswept (recording (respond tree) w o c).2.2 := by
    intro w o c ho h
    apply unswept_append h
    intro r hr
    exact ho (congrArg Sigma.fst (List.mem_singleton.mp hr)).symm
  have hboth := (Safe.and hm (hcalls.safe (I := fun w => Unswept w.2) hkeeps hunswept)).weaken
    fun _ h => h.1
  apply safe_bind
  apply safe_mono hboth
  intro r w' h
  obtain ⟨⟨hw', hR⟩, hunswept'⟩ := h
  cases r with
  | ok a => exact hf a w' hw' (hR a rfl)
  | error e => exact ⟨hw', swept_of_unlisted fun files => hunswept' _, by simp⟩

/-- The deletion loop. -/
theorem ends_removeDocs {files : List Text} {present : Finset Text}
    (hw : Kept s tree roots docs w) (h : Sweeping tree roots files present [] w) :
    Ends s tree roots docs (files.foldlM (removeDoc present) ()) w := by
  apply safe_foldlM
    (fun done _ w' => Kept s tree roots docs w' ∧ Sweeping tree roots files present done w')
    (fun e w' => Kept s tree roots docs w' ∧ ∃ done file rest w₀, done ++ file :: rest = files ∧
      Sweeping tree roots files present done w₀ ∧ w'.2 = w₀.2 ++ [⟨.unlink file, .error e⟩])
    ⟨hw, h⟩
  · intro r w' hr
    cases r with
    | ok u => exact ⟨hr.1, hr.2.finish hr.1 (Or.inl ⟨rfl, rfl⟩), fun _ => hr.2.current⟩
    | error e =>
        obtain ⟨hw', done, file, rest, w₀, hfiles, hsweeping, hrecord⟩ := hr
        exact ⟨hw', hsweeping.finish hw' (Or.inr ⟨file, rest, e, hfiles, hrecord⟩), by simp⟩
  · intro done file rest hdone u w' hJ
    obtain ⟨hw', h'⟩ := hJ
    rw [removeDoc]
    split
    · rename_i hfile
      exact ⟨hw', h'.skip hfile⟩
    · rename_i hfile
      apply safe_perform
      intro c _
      have hunfound : ∀ path name, GitFound w'.2 path name → file ≠ docName name := by
        rintro path name hfound rfl
        rw [docStem_docName] at hfile
        exact hfile ((h'.names name.val).mpr ⟨path, name, rfl, hfound⟩)
      have hturn : InTurn tree roots w'.2 file :=
        ⟨h'.listed, h'.smooth, hunfound, done, rest, hdone ▸ h'.files.1, hdone ▸ h'.files.2,
          h'.removed⟩
      have hkept := hw'.step (o := .unlink file) hturn c
      refine ⟨hkept, ?_⟩
      rw [recording_fst]
      cases hr : (respond tree w'.1 (.unlink file) c).1 with
      | ok a =>
          refine ⟨hkept, ?_⟩
          rw [recording_snd, hr]
          apply h'.remove hw' hfile
          intro file' hne
          exact respond_apply (by simp) (by simpa using hne.symm)
      | error e =>
          refine ⟨hkept, done, file, rest, w', hdone.symm, h', ?_⟩
          rw [recording_snd, hr]

theorem callsOnly_syncRoot (state : Finset Text × Bool) (ip : FlaggedIndexPath) :
    CallsOnly (· ≠ .glob) (syncRoot s state ip) := by
  have hlist : CallsOnly (· ≠ .glob) (listDir ip.path) := by
    apply CallsOnly.orElse
    · exact (callsOnly_perform (by simp)).bind fun _ => callsOnly_ret _
    · intro e
      split <;> trivial
  have hhistory : ∀ name, CallsOnly (· ≠ .glob) (readHistory ip.path name) := by
    intro name
    apply CallsOnly.orElse
    · apply (callsOnly_perform (by simp)).bind
      intro log
      cases parseLog log <;> trivial
    · intro e
      split <;> trivial
  rw [syncRoot]
  apply hlist.bind
  intro children
  split
  · trivial
  · refine CallsOnly.bind (callsOnly_foldlM _ _ fun present name => ?_) fun _ => trivial
    rw [syncRepo]
    split
    · trivial
    · apply (callsOnly_perform (by simp)).bind
      intro hasGit
      split
      · apply (hhistory name).bind
        intro history
        cases history with
        | none => trivial
        | some content => exact (callsOnly_perform (by simp)).bind fun _ => trivial
      · trivial

/-- Nothing was deleted before the documents are listed. -/
theorem Kept.notMem_unlink (hw : Kept s tree roots docs w) (hunswept : Unswept w.2) (file : Text)
    (r : Except HistoryError Unit) : ⟨.unlink file, r⟩ ∉ w.2 := by
  intro hr
  obtain ⟨before, hbefore, -, -, -, done, rest, hglob, -⟩ := hw.warranted.exists_of_mem hr
  exact hunswept _ (hbefore.subset (List.mem_append_left _ hglob))

/-- What the deletion loop finds when all roots were listed. -/
theorem Scanned.sweeping {state : Finset Text × Bool} {files : List Text}
    (h : Scanned tree roots (fun ip _ => ip ∈ roots) state w) (hw : Kept s tree roots docs w)
    (hall : state.2 = true) (hfiles : files.Nodup) :
    Sweeping tree roots files state.1 [] (w.1, w.2 ++ [⟨.glob, .ok files⟩]) where
  current := by
    intro path name commits hread
    rw [logRead_concat (by simp)] at hread
    exact (h.current path name commits hread).append _ rfl
  names := h.names.append (by simp [GitFound])
  listed := fun ip hip => (h.listed hall ip hip).append _
  smooth := by
    apply (h.smooth hall).append
    intro x hx
    obtain rfl := List.mem_singleton.mp hx
    exact Or.inl ⟨files, rfl⟩
  files := ⟨by simp, hfiles⟩
  removed := by
    intro file r hfile
    obtain hfile | hfile := List.mem_append.mp hfile
    · exact absurd hfile (hw.notMem_unlink h.unswept file r)
    · cases List.mem_singleton.mp hfile
  swept := by simp

/-- The documents are listed, and those of no name present deleted. -/
theorem ends_sweep {state : Finset Text × Bool}
    (h : Scanned tree roots (fun ip _ => ip ∈ roots) state w) (hw : Kept s tree roots docs w)
    (hall : state.2 = true) :
    Ends s tree roots docs (do
      let files ← Prog.perform HistoryCall.glob
      files.foldlM (removeDoc state.1) ()) w := by
  apply safe_perform_bind
  intro c _
  have hkept := hw.step (o := .glob) h.unswept c
  refine ⟨hkept, ?_⟩
  have heq : (recording (respond tree) w .glob c).2 = _ := recording_eq (by simp) (by simp)
  rw [heq] at hkept ⊢
  rw [recording_fst]
  cases hr : (respond tree w.1 .glob c).1 with
  | error e =>
      rw [hr] at hkept
      refine ⟨hkept, swept_of_unlisted fun files hglob => ?_, by simp⟩
      obtain hglob | hglob := List.mem_append.mp hglob
      · exact h.unswept _ hglob
      · cases List.mem_singleton.mp hglob
  | ok files =>
      rw [hr] at hkept
      exact ends_removeDocs hkept (h.sweeping hw hall (respond_glob hr).1)

theorem ensures_mkdir : Ensures s tree roots docs (Prog.perform HistoryCall.mkdir)
    (fun _ => Scanned tree [] (fun ip _ => ip ∈ ([] : List FlaggedIndexPath)) (∅, true))
    (docs, []) := by
  apply ensures_perform (o := .mkdir) kept_init trivial
  intro c a ha
  have heq : (recording (respond tree) (docs, []) .mkdir c).2 = _ :=
    recording_eq (by simp) (by simp)
  rw [recording_snd] at heq
  rw [← ha, heq]
  exact scanned_init.concat (by simp) (by simp) (by simp [GitFound]) fun _ => ⟨a, ha⟩

/-- The loops over the roots and over the documents. -/
theorem ends_sync (indexPaths : List FlaggedIndexPath) :
    Ends s tree (projectRoots indexPaths) docs (sync s indexPaths) (docs, []) := by
  rw [sync]
  split
  · refine ⟨kept_init, swept_of_unlisted fun _ => List.not_mem_nil, ?_⟩
    intro _ path name commits hread
    obtain ⟨log, hmem, _⟩ := hread
    exact absurd hmem List.not_mem_nil
  · apply ends_bind ensures_mkdir (callsOnly_perform (by simp)) fun _ => List.not_mem_nil
    intro _ w₁ hw₁ h₁
    have hroots : Ensures s tree (projectRoots indexPaths) docs
        ((projectRoots indexPaths).foldlM (syncRoot s) (∅, true))
        (Scanned tree (projectRoots indexPaths) fun ip _ => ip ∈ projectRoots indexPaths) w₁ := by
      apply establishes_foldlM (fun done => Scanned tree done fun ip _ => ip ∈ done) hw₁ h₁
      intro done ip rest hdone state w hw h
      exact ensures_syncRoot hdone hw h
    apply ends_bind hroots (callsOnly_foldlM _ _ callsOnly_syncRoot) h₁.unswept
    intro state w₂ hw₂ h₂
    split
    · rename_i hall
      exact ends_sweep h₂ hw₂ hall
    · exact ⟨hw₂, swept_of_unlisted fun _ => h₂.unswept _, fun _ => h₂.current⟩

end Ends

section Runs
variable {s tree roots} {docs : Documents} {w : Documents × HistoryRecord}
  {indexPaths : List FlaggedIndexPath}

/-- A sync does not raise; it keeps the invariant, and when it has ended it has swept the
documents. -/
theorem kept_syncGitHistories (s : ScanSettings) (tree : ProjectTree) (docs : Documents)
    (indexPaths : List FlaggedIndexPath) (cs : List HistoryChoice) :
    Kept s tree (projectRoots indexPaths) docs
      (run (recording (respond tree)) (syncGitHistories s indexPaths) cs (docs, [])).2 ∧
    ∀ r, (run (recording (respond tree)) (syncGitHistories s indexPaths) cs (docs, [])).1 =
      some r → Swept
        (run (recording (respond tree)) (syncGitHistories s indexPaths) cs (docs, [])).2.2 ∧
          r = .ok () := by
  have hsafe : Safe (recording (respond tree)) (fun _ _ _ => True)
      (Kept s tree (projectRoots indexPaths) docs) (syncGitHistories s indexPaths)
      (fun r w' => Swept w'.2 ∧ r = .ok ()) (docs, []) := by
    apply safe_orElse
    apply safe_mono (ends_sync indexPaths)
    intro r w' h
    cases r with
    | ok u => exact ⟨h.2.1, rfl⟩
    | error e => exact ⟨h.2.1, rfl⟩
  exact hsafe.run kept_init cs (guarded_true _)

/-- The sync does not raise, and deletes documents only on proof of absence, exactly if
a `.git` was found under the name of each repository to whose document it comes. -/
theorem syncGitHistories_deletesOnProof_iff {cs : List HistoryChoice}
    (h : (run (recording (respond tree)) (syncGitHistories s indexPaths) cs
      (docs, [])).1.isSome = true) :
    ((∀ e, (run (recording (respond tree)) (syncGitHistories s indexPaths) cs (docs, [])).1 ≠
        some (.error e)) ∧
      DeletesOnProof s tree indexPaths docs
        (run (recording (respond tree)) (syncGitHistories s indexPaths) cs (docs, [])).2) ↔
      ReposFound s tree (projectRoots indexPaths)
        (run (recording (respond tree)) (syncGitHistories s indexPaths) cs (docs, [])).2.2 := by
  obtain ⟨hkept, hends⟩ := kept_syncGitHistories s tree docs indexPaths cs
  obtain ⟨r, hr⟩ := Option.isSome_iff_exists.mp h
  obtain ⟨hswept, rfl⟩ := hends r hr
  have hreturns : ∀ e, (run (recording (respond tree)) (syncGitHistories s indexPaths) cs
      (docs, [])).1 ≠ some (.error e) := by
    intro e he
    rw [hr] at he
    cases he
  exact (and_iff_right hreturns).trans (hkept.deletesOnProof_iff hswept)

/-- Every repository whose log was read has its own history as its document. -/
def OwnDocuments (s : ScanSettings) (tree : ProjectTree) (indexPaths : List FlaggedIndexPath)
    (w : Documents × HistoryRecord) : Prop :=
  ∀ ip ∈ projectRoots indexPaths, ∀ name commits, IsRepo s tree ip name →
    LogRead w.2 ip.path name commits →
    w.1 (docName name) = some (renderHistory name.val commits)

/-- Repositories of one name whose logs were read have logs that render alike. -/
def NamesakesAgree (s : ScanSettings) (tree : ProjectTree) (indexPaths : List FlaggedIndexPath)
    (record : HistoryRecord) : Prop :=
  ∀ ip ∈ projectRoots indexPaths, ∀ ip' ∈ projectRoots indexPaths, ∀ name commits commits',
    IsRepo s tree ip name → IsRepo s tree ip' name → LogRead record ip.path name commits →
    LogRead record ip'.path name commits' →
    renderHistory name.val commits = renderHistory name.val commits'

/-- After a sync, every repository has its own document if and only if no two of one name
have different ones. -/
theorem ownDocuments_iff {cs : List HistoryChoice}
    (h : (run (recording (respond tree)) (sync s indexPaths) cs (docs, [])).1 = some (.ok ())) :
    OwnDocuments s tree indexPaths
        (run (recording (respond tree)) (sync s indexPaths) cs (docs, [])).2 ↔
      NamesakesAgree s tree indexPaths
        (run (recording (respond tree)) (sync s indexPaths) cs (docs, [])).2.2 := by
  obtain ⟨hkept, hends⟩ :=
    Safe.run (ends_sync indexPaths) kept_init cs (guarded_true _)
  have hcurrent := (hends _ h).2.2 rfl
  constructor
  · intro hown ip hip ip' hip' name commits commits' his his' hread hread'
    have hdoc := hown ip hip name commits his hread
    rw [hown ip' hip' name commits' his' hread'] at hdoc
    exact (Option.some_inj.mp hdoc).symm
  · intro hagree ip hip name commits his hread
    obtain ⟨path', commits', hread', hdoc⟩ := hcurrent ip.path name commits hread
    obtain ⟨log, hmem, _⟩ := id hread'
    obtain ⟨ip', hip', rfl, his'⟩ := hkept.isRepo hmem
    rw [hdoc, hagree ip hip ip' hip' name commits commits' his his' hread hread']

def apiName : Name := ⟨text "api", by decide⟩

def workRoot : FlaggedIndexPath := ⟨⟨[⟨text "work", by decide⟩], true, []⟩, true⟩

def homeRoot : FlaggedIndexPath := ⟨⟨[⟨text "home", by decide⟩], true, []⟩, true⟩

/-- Every directory has one child, the repository `api`. -/
def apiTree : ProjectTree := ⟨fun _ => {apiName}, fun _ _ => .found⟩

def openSettings : ScanSettings := ⟨[], [], fun _ _ => false, fun _ => true, 0⟩

def apiCommit : Commit := ⟨text "1a2b3c4", text "2024-05-01", text "Add the API", [], []⟩

def cliName : Name := ⟨text "cli", by decide⟩

/-- Two roots with a repository `api`, of which the first has another repository, `cli`. -/
def workTree : ProjectTree :=
  ⟨fun path => if path = workRoot.path then {apiName, cliName} else {apiName}, fun _ _ => .found⟩

/-- The documents of two repositories, of which one is gone. -/
def workDocs : Documents := fun file =>
  if file = text "api.md" ∨ file = text "old.md" then some [] else none

/-- Both logs of `api` print the same commit, that of `cli` none. -/
def workChoices : List HistoryChoice :=
  [.done, .done, .done, .output (printLog [apiCommit]), .done, .done, .output (printLog []), .done,
    .done, .done, .output (printLog [apiCommit]), .done,
    .files [text "api.md", text "cli.md", text "old.md"], .done]

theorem ownDocuments_iff_work : OwnDocuments openSettings workTree [workRoot, homeRoot]
      (run (recording (respond workTree)) (sync openSettings [workRoot, homeRoot]) workChoices
        (workDocs, [])).2 ↔
    NamesakesAgree openSettings workTree [workRoot, homeRoot]
      (run (recording (respond workTree)) (sync openSettings [workRoot, homeRoot]) workChoices
        (workDocs, [])).2.2 :=
  ownDocuments_iff (by decide +kernel)

/-- The second of two repositories of one name takes the document of the first. -/
theorem not_ownDocuments_api :
    (run (recording (respond apiTree)) (sync openSettings [workRoot, homeRoot])
      [.done, .done, .done, .output (printLog [apiCommit]), .done,
        .done, .done, .output (printLog []), .done, .files []] (fun _ => none, [])).1 =
      some (.ok ()) ∧
    ¬OwnDocuments openSettings apiTree [workRoot, homeRoot]
      (run (recording (respond apiTree)) (sync openSettings [workRoot, homeRoot])
        [.done, .done, .done, .output (printLog [apiCommit]), .done,
          .done, .done, .output (printLog []), .done, .files []] (fun _ => none, [])).2 := by
  refine ⟨rfl, ?_⟩
  intro h
  have hdoc := h workRoot List.mem_cons_self apiName [apiCommit]
    ⟨by decide +kernel, ⟨by decide +kernel, by decide +kernel⟩, by decide⟩
    ⟨printLog [apiCommit], List.mem_iff_getElem?.mpr ⟨3, rfl⟩, by decide +kernel⟩
  revert hdoc
  decide +kernel

/-- The repository `cli` is found under one root, and its `.git` under the other is a link that
leads nowhere. -/
def worktreeTree : ProjectTree :=
  ⟨fun _ => {apiName, cliName},
    fun path name => if path = workRoot.path ∧ name = cliName then .dangling else .found⟩

/-- The logs cannot be read, and the deletion of a document that is gone raises. -/
def worktreeChoices : List HistoryChoice :=
  [.done, .done, .done, .raises .subprocess, .done, .done, .done, .raises .subprocess, .done,
    .raises .os, .files [text "api.md", text "old.md"], .raises .os]

theorem syncGitHistories_deletesOnProof_iff_worktree :
    ((∀ e, (run (recording (respond worktreeTree))
        (syncGitHistories openSettings [workRoot, homeRoot]) worktreeChoices (workDocs, [])).1 ≠
          some (.error e)) ∧
      DeletesOnProof openSettings worktreeTree [workRoot, homeRoot] workDocs
        (run (recording (respond worktreeTree))
          (syncGitHistories openSettings [workRoot, homeRoot]) worktreeChoices
          (workDocs, [])).2) ↔
      ReposFound openSettings worktreeTree (projectRoots [workRoot, homeRoot])
        (run (recording (respond worktreeTree))
          (syncGitHistories openSettings [workRoot, homeRoot]) worktreeChoices
          (workDocs, [])).2.2 :=
  syncGitHistories_deletesOnProof_iff (by decide +kernel)

/-- A repository whose `.git` is a link that cannot be followed. -/
def danglingTree : ProjectTree := ⟨fun _ => {apiName}, fun _ _ => .dangling⟩

/-- Nothing fails, and the document of the repository is deleted. -/
theorem dangling_git_deleted :
    (run (recording (respond danglingTree)) (syncGitHistories openSettings [workRoot])
      [.done, .done, .done, .files [text "api.md"], .done] (workDocs, [])).1 =
      some (.ok ()) ∧
    ¬DeletesOnProof openSettings danglingTree [workRoot] workDocs
      (run (recording (respond danglingTree)) (syncGitHistories openSettings [workRoot])
        [.done, .done, .done, .files [text "api.md"], .done] (workDocs, [])).2 := by
  refine ⟨by decide +kernel, fun h => ?_⟩
  have hrecord := h.deletions
    [⟨.mkdir, .ok ()⟩, ⟨.iterdir workRoot.path, .ok {apiName}⟩,
      ⟨.gitExists workRoot.path apiName, .ok false⟩, ⟨.glob, .ok [text "api.md"]⟩]
    (text "api.md") (.ok ()) ?_
  · apply hrecord.absent workRoot (by simp [projectRoots, workRoot]) apiName _ (by decide)
    exact ⟨by decide, ⟨by decide, by decide⟩, by decide⟩
  · exact ⟨[], rfl⟩

end Runs

end LocalGraphRag.Ingest
