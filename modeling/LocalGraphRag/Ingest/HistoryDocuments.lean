import LocalGraphRag.Ingest.HistoryDiscipline
import Mathlib.Tactic.Tauto

/-!
# The loops over the projects roots

The loops keep track of the repositories found, whose names are the ones present. So they keep
to the discipline, whatever fails.
-/

namespace LocalGraphRag.Ingest

open LocalGraphRag.Python LocalGraphRag.Effects LocalGraphRag.Relational

variable (s : ScanSettings) (tree : ProjectTree) (roots : List FlaggedIndexPath)

section Scan

theorem unswept_append {record more : HistoryRecord} (h : Unswept record)
    (hmore : ∀ r, ⟨.glob, r⟩ ∉ more) : Unswept (record ++ more) := by
  intro r hr
  obtain hr | hr := List.mem_append.mp hr
  · exact h r hr
  · exact hmore r hr

/-- The document of a name is that of a repository of this name. -/
def Current (w : Documents × HistoryRecord) (name : Name) : Prop :=
  ∃ path commits, LogRead w.2 path name commits ∧
    w.1 (docName name) = some (renderHistory name.val commits)

/-- The names present are those found. -/
def Names (present : Finset Text) (record : HistoryRecord) : Prop :=
  ∀ t, t ∈ present ↔ ∃ path name, name.val = t ∧ GitFound record path name

/-- What the loops have established after the roots `done` and the children `seen`, with
`present` and `all_roots_listed`. -/
structure Scanned (done : List FlaggedIndexPath) (seen : FlaggedIndexPath → Name → Prop)
    (state : Finset Text × Bool) (w : Documents × HistoryRecord) : Prop where
  current : ∀ path name commits, LogRead w.2 path name commits → Current w name
  logged : ∀ path name r, ⟨.gitLog path name, r⟩ ∈ w.2 → ∃ ip, ip.path = path ∧ seen ip name
  names : Names state.1 w.2
  unswept : Unswept w.2
  listed : state.2 = true → ∀ ip ∈ done, Listed tree w.2 ip
  smooth : state.2 = true → OnlyLogsFailed w.2

variable {s tree roots} {docs : Documents} {w : Documents × HistoryRecord}
  {done : List FlaggedIndexPath} {seen seen' : FlaggedIndexPath → Name → Prop}
  {state : Finset Text × Bool}

/-- Calls that find nothing add no name. -/
theorem Names.append {present : Finset Text} {record more : HistoryRecord}
    (h : Names present record) (hmore : ∀ path name, ¬GitFound more path name) :
    Names present (record ++ more) := by
  intro t
  have hfound : ∀ path name, GitFound (record ++ more) path name ↔ GitFound record path name :=
    fun path name => List.mem_append.trans (or_iff_left (hmore path name))
  simp only [h t, hfound]

theorem Names.insert {present : Finset Text} {record : HistoryRecord} (h : Names present record)
    (path : Path) (name : Name) :
    Names (insert name.val present) (record ++ [⟨.gitExists path name, .ok true⟩]) := by
  intro t
  rw [Finset.mem_insert, h t]
  constructor
  · intro ht
    obtain rfl | ⟨path', name', hname, hfound⟩ := ht
    · exact ⟨path, name, rfl, List.mem_append_right _ (List.mem_singleton_self _)⟩
    · exact ⟨path', name', hname, List.mem_append_left _ hfound⟩
  · intro ht
    obtain ⟨path', name', hname, hfound⟩ := ht
    obtain hfound | hfound := List.mem_append.mp hfound
    · exact Or.inr ⟨path', name', hname, hfound⟩
    · cases List.mem_singleton.mp hfound
      exact Or.inl hname.symm

theorem OnlyLogsFailed.append {record record' : HistoryRecord} (h : OnlyLogsFailed record)
    (h' : OnlyLogsFailed record') : OnlyLogsFailed (record ++ record') := by
  intro x hx
  obtain hx | hx := List.mem_append.mp hx
  · exact h x hx
  · exact h' x hx

theorem Listed.append {record : HistoryRecord} {ip : FlaggedIndexPath}
    (h : Listed tree record ip) (more : HistoryRecord) : Listed tree (record ++ more) ip :=
  ⟨List.mem_append_left more h.1, h.2⟩

/-- A document stays current while it is left alone. -/
theorem Current.append {name : Name} (h : Current w name) (more : HistoryRecord)
    {docs' : Documents} (hdoc : docs' (docName name) = w.1 (docName name)) :
    Current (docs', w.2 ++ more) name := by
  obtain ⟨path, commits, hread, hcontent⟩ := h
  exact ⟨path, commits, hread.mono (List.subset_append_left _ _), hdoc.trans hcontent⟩

/-- More children may count as seen. -/
theorem Scanned.widen (h : Scanned tree done seen state w)
    (hle : ∀ ip name, seen ip name → seen' ip name) : Scanned tree done seen' state w := by
  refine ⟨h.current, ?_, h.names, h.unswept, h.listed, h.smooth⟩
  intro path name r hr
  obtain ⟨ip, hip, hname⟩ := h.logged path name r hr
  exact ⟨ip, hip, hle ip name hname⟩

/-- A call before the documents are listed that neither reads a log nor writes. -/
theorem Scanned.concat_names (h : Scanned tree done seen state w) {o : HistoryCall}
    {r : Except HistoryError o.Ret} {present : Finset Text}
    (hlog : ∀ path name, o ≠ .gitLog path name) (hglob : o ≠ .glob)
    (hnames : Names present (w.2 ++ [⟨o, r⟩])) (hr : state.2 = true → ∃ a, r = .ok a) :
    Scanned tree done seen (present, state.2) (w.1, w.2 ++ [⟨o, r⟩]) := by
  constructor
  · intro path name commits hread
    rw [logRead_concat hlog] at hread
    exact (h.current path name commits hread).append _ rfl
  · intro path name r' hr'
    obtain hr' | hr' := List.mem_append.mp hr'
    · exact h.logged path name r' hr'
    · exact absurd (congrArg Sigma.fst (List.mem_singleton.mp hr')).symm (hlog path name)
  · exact hnames
  · apply unswept_append h.unswept
    intro r' hr'
    exact hglob (congrArg Sigma.fst (List.mem_singleton.mp hr')).symm
  · intro hall ip hip
    exact (h.listed hall ip hip).append _
  · intro hall
    apply (h.smooth hall).append
    intro x hx
    obtain rfl := List.mem_singleton.mp hx
    exact Or.inl (hr hall)

/-- A call that finds nothing. -/
theorem Scanned.concat (h : Scanned tree done seen state w) {o : HistoryCall}
    {r : Except HistoryError o.Ret} (hlog : ∀ path name, o ≠ .gitLog path name)
    (hglob : o ≠ .glob) (hfound : ∀ path name, ¬GitFound [⟨o, r⟩] path name)
    (hr : state.2 = true → ∃ a, r = .ok a) :
    Scanned tree done seen state (w.1, w.2 ++ [⟨o, r⟩]) :=
  h.concat_names hlog hglob (h.names.append hfound) hr

/-- Once a root is not listed, nothing more is known of the roots. -/
theorem Scanned.giveUp (h : Scanned tree done seen state w) {done' : List FlaggedIndexPath} :
    Scanned tree done' seen (state.1, false) w :=
  ⟨h.current, h.logged, h.names, h.unswept, by simp, by simp⟩

theorem Scanned.listRoot (h : Scanned tree done seen state w) {ip : FlaggedIndexPath}
    (hip : Listed tree w.2 ip) : Scanned tree (done ++ [ip]) seen state w := by
  refine ⟨h.current, h.logged, h.names, h.unswept, ?_, h.smooth⟩
  intro hall ip' hip'
  obtain hip' | hip' := List.mem_append.mp hip'
  · exact h.listed hall ip' hip'
  · obtain rfl := List.mem_singleton.mp hip'
    exact hip

/-- The calls for one repository that was found, of which only its log may have failed. -/
theorem Scanned.visit (h : Scanned tree done seen state w) {ip : FlaggedIndexPath}
    {name : Name} {docs' : Documents} {more : HistoryRecord}
    (hseen : ∀ ip' name', seen' ip' name' ↔ seen ip' name' ∨ ip' = ip ∧ name' = name)
    (hlogs : ∀ path name' r, ⟨.gitLog path name', r⟩ ∈ more → ip.path = path ∧ name' = name)
    (hfound : ∀ path name', ¬GitFound more path name') (hglob : ∀ r, ⟨.glob, r⟩ ∉ more)
    (hmore : OnlyLogsFailed more)
    (hcurrent : ∀ path name' commits, LogRead (w.2 ++ more) path name' commits →
      Current (docs', w.2 ++ more) name') :
    Scanned tree done seen' state (docs', w.2 ++ more) := by
  refine ⟨hcurrent, ?_, h.names.append hfound, unswept_append h.unswept hglob, ?_, ?_⟩
  · intro path name' r hr
    obtain hr | hr := List.mem_append.mp hr
    · obtain ⟨ip', hip', hname'⟩ := h.logged path name' r hr
      exact ⟨ip', hip', (hseen ip' name').mpr (Or.inl hname')⟩
    · obtain ⟨hpath, hname⟩ := hlogs path name' r hr
      exact ⟨ip, hpath, (hseen ip name').mpr (Or.inr ⟨rfl, hname⟩)⟩
  · intro hall ip' hip'
    exact (h.listed hall ip' hip').append more
  · intro hall
    exact (h.smooth hall).append hmore

/-- A repository whose log cannot be read keeps its document. -/
theorem Scanned.fail (h : Scanned tree done seen state w) {ip : FlaggedIndexPath}
    {name : Name} {r : Except HistoryError Text}
    (hseen : ∀ ip' name', seen' ip' name' ↔ seen ip' name' ∨ ip' = ip ∧ name' = name)
    (hr : Unreadable r) :
    Scanned tree done seen' state (w.1, w.2 ++ [⟨.gitLog ip.path name, r⟩]) := by
  apply h.visit hseen
  · intro path name' r' hr'
    cases List.mem_singleton.mp hr'
    exact ⟨rfl, rfl⟩
  · simp [GitFound]
  · simp
  · intro x hx
    obtain rfl := List.mem_singleton.mp hx
    exact Or.inr ⟨ip.path, name, rfl⟩
  · intro path name' commits hread
    obtain hread | ⟨log, hx, hlog⟩ := logRead_concat_iff.mp hread
    · exact (h.current path name' commits hread).append _ rfl
    · cases hx
      rw [hr log rfl] at hlog
      cases hlog

/-- A repository whose log is read gets its document. -/
theorem Scanned.write (h : Scanned tree done seen state w) {ip : FlaggedIndexPath}
    {name : Name} {log : Text} {commits : List Commit}
    (hseen : ∀ ip' name', seen' ip' name' ↔ seen ip' name' ∨ ip' = ip ∧ name' = name)
    (hlog : parseLog log = some commits) :
    Scanned tree done seen' state
      (Function.update w.1 (docName name) (some (renderHistory name.val commits)),
        w.2 ++ [⟨.gitLog ip.path name, .ok log⟩,
          ⟨.write (docName name) (renderHistory name.val commits), .ok ()⟩]) := by
  apply h.visit hseen
  · intro path name' r' hr'
    simp only [List.mem_cons, List.not_mem_nil, or_false] at hr'
    obtain hr' | hr' := hr'
    · cases hr'
      exact ⟨rfl, rfl⟩
    · cases hr'
  · simp [GitFound]
  · simp
  · intro x hx
    simp only [List.mem_cons, List.not_mem_nil, or_false] at hx
    obtain rfl | rfl := hx
    · exact Or.inl ⟨log, rfl⟩
    · exact Or.inl ⟨(), rfl⟩
  · intro path name' commits' hread
    by_cases hname : name' = name
    · subst hname
      exact ⟨ip.path, commits, ⟨log, by simp, hlog⟩, Function.update_self _ _ _⟩
    · obtain ⟨log', hmem, hlog'⟩ := hread
      have hbefore : ⟨.gitLog path name', .ok log'⟩ ∈ w.2 := by
        obtain hmem | hmem := List.mem_append.mp hmem
        · exact hmem
        · simp only [List.mem_cons, List.not_mem_nil, or_false] at hmem
          obtain hmem | hmem := hmem
          · cases hmem
            exact absurd rfl hname
          · cases hmem
      apply (h.current path name' commits' ⟨log', hbefore, hlog'⟩).append
      exact Function.update_of_ne (docName_injective.ne hname) _ _

end Scan

section Loops
variable {s tree roots} {docs : Documents} {w : Documents × HistoryRecord}
  {done : List FlaggedIndexPath} {seen seen' : FlaggedIndexPath → Name → Prop}

/-- The history of a repository that was found is read and, where there is one, written. -/
theorem ensures_history {ip : FlaggedIndexPath} {name : Name} {present : Finset Text}
    {listed : Bool} (hw : Kept s tree roots docs w)
    (hdue : Due s tree roots w.2 (.gitLog ip.path name))
    (h : Scanned tree done seen (present, listed) w)
    (hseen : ∀ ip' name', seen' ip' name' ↔ seen ip' name' ∨ ip' = ip ∧ name' = name) :
    Ensures s tree roots docs
      (do
        let history ← readHistory ip.path name
        match history with
        | none => return present
        | some content => do
            Prog.perform (HistoryCall.write (docName name) content)
            return present)
      (fun present' => Scanned tree done seen' (present', listed)) w := by
  apply (ensures_readHistory hw hdue).bind
  intro history w' hw' hhistory
  obtain ⟨r, rfl, rfl⟩ := hhistory
  cases hr : historyOf name r with
  | none =>
      apply establishes_ret hw'
      exact h.fail hseen (historyOf_eq_none_iff.mp hr)
  | some content =>
      obtain ⟨log, commits, rfl, hlog, rfl⟩ := historyOf_eq_some_iff.mp hr
      have hread : LogRead (w.2 ++ [⟨.gitLog ip.path name, .ok log⟩]) ip.path name commits :=
        ⟨log, by simp, hlog⟩
      apply (ensures_write hw' ⟨ip.path, name, commits, rfl, hread⟩).bind
      intro u w'' hw'' hwritten
      subst hwritten
      apply establishes_ret hw''
      simpa using h.write hseen hlog

theorem ensures_syncRepo {ip : FlaggedIndexPath} {name : Name} {present : Finset Text}
    {listed : Bool} (hw : Kept s tree roots docs w) (hip : ip ∈ roots)
    (hchild : name ∈ tree.children ip.path)
    (hfresh : Distinct roots → ∀ r, ⟨.gitLog ip.path name, r⟩ ∉ w.2)
    (h : Scanned tree done seen (present, listed) w)
    (hseen : ∀ ip' name', seen' ip' name' ↔ seen ip' name' ∨ ip' = ip ∧ name' = name) :
    Ensures s tree roots docs (syncRepo s ip present name)
      (fun present' => Scanned tree done seen' (present', listed)) w := by
  have hmore : ∀ ip' name', seen ip' name' → seen' ip' name' :=
    fun ip' name' hname' => (hseen ip' name').mpr (Or.inl hname')
  rw [syncRepo]
  split
  · exact establishes_ret hw (h.widen hmore)
  · rename_i hkept
    obtain ⟨hexcluded, hignored⟩ := not_or.mp hkept
    apply (ensures_gitExists hw h.unswept ip.path name).bind
    intro found w' hw' hfound
    obtain ⟨hfound, rfl⟩ := hfound
    split
    · rename_i hgit
      subst hgit
      have hnames := h.names.insert ip.path name
      have h' := h.concat_names (by simp) (by simp) hnames fun _ => ⟨true, rfl⟩
      have his : IsRepo s tree ip name :=
        ⟨hchild, ⟨hexcluded, by simpa using hignored⟩, by simp [hfound rfl]⟩
      have hdue : Due s tree roots (w.2 ++ [⟨.gitExists ip.path name, .ok true⟩])
          (.gitLog ip.path name) := by
        refine ⟨h'.unswept, ?_, ⟨ip, hip, rfl, his⟩, ?_⟩
        · exact List.mem_append_right _ (List.mem_singleton_self _)
        · intro hdistinct r hr
          apply hfresh hdistinct r
          simpa using hr
      exact ensures_history hw' hdue h' hseen
    · rename_i hgit
      apply establishes_ret hw'
      have hnone : ∀ path name', ¬GitFound [⟨.gitExists ip.path name, .ok found⟩] path name' := by
        intro path name' hfound'
        cases List.mem_singleton.mp hfound'
        exact hgit rfl
      exact (h.concat (by simp) (by simp) hnone fun _ => ⟨found, rfl⟩).widen hmore

/-- Among distinct roots, no repository is seen twice. -/
theorem not_mem_of_distinct {ip : FlaggedIndexPath} {rest : List FlaggedIndexPath}
    {names later : List Name} {name : Name} (hroots : roots = done ++ ip :: rest)
    (hchildren : orderBy (tree.children ip.path) = names ++ name :: later)
    {state : Finset Text × Bool} {all : List FlaggedIndexPath}
    (h : Scanned tree all (fun ip' n => ip' ∈ done ∨ ip' = ip ∧ n ∈ names) state w)
    (hdistinct : Distinct roots) (r : Except HistoryError Text) :
    ⟨.gitLog ip.path name, r⟩ ∉ w.2 := by
  intro hr
  obtain ⟨ip', hpath, hip'⟩ := h.logged ip.path name r hr
  obtain hip' | ⟨_, hname⟩ := hip'
  · rw [Distinct, hroots, List.map_append, List.map_cons] at hdistinct
    have hdisjoint := (List.nodup_append.mp hdistinct).2.2
    exact hdisjoint ip'.path (List.mem_map_of_mem hip') ip.path List.mem_cons_self hpath
  · have hnodup := nodup_orderBy (tree.children ip.path)
    rw [hchildren] at hnodup
    exact (List.nodup_append.mp hnodup).2.2 name hname name List.mem_cons_self rfl

theorem ensures_children {ip : FlaggedIndexPath} {rest all : List FlaggedIndexPath}
    {present : Finset Text} {listed : Bool} (hroots : roots = done ++ ip :: rest)
    (hw : Kept s tree roots docs w)
    (h : Scanned tree all (fun ip' _ => ip' ∈ done) (present, listed) w) :
    Ensures s tree roots docs ((orderBy (tree.children ip.path)).foldlM (syncRepo s ip) present)
      (fun present' => Scanned tree all (fun ip' _ => ip' ∈ done ++ [ip]) (present', listed))
      w := by
  have hloop : Ensures s tree roots docs
      ((orderBy (tree.children ip.path)).foldlM (syncRepo s ip) present)
      (fun present' => Scanned tree all
        (fun ip' name => ip' ∈ done ∨ ip' = ip ∧ name ∈ orderBy (tree.children ip.path))
        (present', listed)) w := by
    apply establishes_foldlM (fun names present' => Scanned tree all
      (fun ip' name => ip' ∈ done ∨ ip' = ip ∧ name ∈ names) (present', listed)) hw
    · simpa using h
    · intro names name later hchildren present w' hw' hJ
      apply ensures_syncRepo hw' (by simp [hroots]) _
        (not_mem_of_distinct hroots hchildren hJ) hJ
      · intro ip' name'
        simp only [List.mem_append, List.mem_singleton]
        tauto
      · apply mem_orderBy.mp
        rw [hchildren]
        simp
  apply hloop.mono
  intro present' w' _ hJ
  apply hJ.widen
  intro ip' name hname
  obtain hip' | ⟨rfl, _⟩ := hname
  · exact List.mem_append_left [ip] hip'
  · simp

theorem ensures_syncRoot {ip : FlaggedIndexPath} {rest : List FlaggedIndexPath}
    {state : Finset Text × Bool} (hroots : roots = done ++ ip :: rest)
    (hw : Kept s tree roots docs w) (h : Scanned tree done (fun ip' _ => ip' ∈ done) state w) :
    Ensures s tree roots docs (syncRoot s state ip)
      (Scanned tree (done ++ [ip]) fun ip' _ => ip' ∈ done ++ [ip]) w := by
  have hle : ∀ ip', ∀ _ : Name, ip' ∈ done → ip' ∈ done ++ [ip] :=
    fun ip' _ => List.mem_append_left [ip]
  rw [syncRoot]
  apply (ensures_listDir hw ip.path).bind
  intro names w' hw' hnames
  obtain ⟨rfl, rfl⟩ | ⟨rfl, e, rfl⟩ := hnames
  · split
    · apply establishes_ret hw'
      exact (h.giveUp.widen hle).concat (by simp) (by simp) (by simp [GitFound]) (by simp)
    · rename_i hne
      have hlisted : Listed tree (w.2 ++ [⟨.iterdir ip.path, .ok (tree.children ip.path)⟩]) ip := by
        refine ⟨by simp, ?_⟩
        obtain ⟨name, hname⟩ := List.exists_mem_of_ne_nil _ hne
        exact ⟨name, mem_orderBy.mp hname⟩
      have h' := (h.concat (o := .iterdir ip.path) (by simp) (by simp) (by simp [GitFound])
        fun _ => ⟨tree.children ip.path, rfl⟩).listRoot hlisted
      apply (ensures_children hroots hw' h').bind
      intro present w'' hw'' hJ
      exact establishes_ret hw'' hJ
  · apply establishes_ret hw'
    exact (h.giveUp.widen hle).concat (by simp) (by simp) (by simp [GitFound]) (by simp)

theorem scanned_init :
    Scanned tree [] (fun ip _ => ip ∈ ([] : List FlaggedIndexPath)) (∅, true) (docs, []) := by
  constructor
  · intro path name commits hread
    obtain ⟨log, hmem, _⟩ := hread
    exact absurd hmem List.not_mem_nil
  · intro path name r hr
    exact absurd hr List.not_mem_nil
  · intro t
    simp [GitFound]
  · intro r hr
    exact absurd hr List.not_mem_nil
  · intro _ ip hip
    exact absurd hip List.not_mem_nil
  · intro _ x hx
    exact absurd hx List.not_mem_nil

end Loops

end LocalGraphRag.Ingest
