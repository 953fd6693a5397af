import LocalGraphRag.Ingest.GitHistory
import LocalGraphRag.Ingest.MarkdownFences
import LocalGraphRag.Python.Strip
import Mathlib.Data.List.Forall2
import Mathlib.Data.Nat.Digits.Lemmas

/-!
# The sections of a history document

A commit's body is indented, so that no line of it is a header or a fence. Its subject goes
into the heading as it is: as long as it is one line, the document has one section per
commit.
-/

namespace LocalGraphRag.Ingest

open LocalGraphRag.Python

/-- No line end that `str.splitlines` knows. -/
def OneLine (s : Text) : Prop := ∀ c ∈ s, isLineBreak c = false

instance (s : Text) : Decidable (OneLine s) :=
  List.decidableBAll (fun c => isLineBreak c = false) s

section Cut
variable {line h : Text} {σ : SectionState} {lines : List Text}

/-- The line is neither a fence nor a header. -/
def PlainLine (line : Text) : Prop := fence line = none ∧ isHeader line = false

/-- The loop body of `_split_markdown_sections`. -/
def nextLine (σ : SectionState) (line : Text) : SectionState := addLine (startSection σ line) line

theorem plainLine_nil : PlainLine [] := by
  rw [PlainLine]
  decide

/-- A fence has its character after the indent. -/
theorem fence_eq_none_of_indent (h : ∀ c run rest, ¬FenceRun line c run rest) :
    fence line = none := by
  cases hfence : fence line with
  | none => rfl
  | some found =>
      obtain ⟨c, run, hrun, -⟩ := fence_eq_some_iff.mp hfence
      exact absurd hrun (h c run found.2)

theorem isHeader_eq_false (h : line.head? ≠ some 0x23) : isHeader line = false := by
  rw [Bool.eq_false_iff]
  intro hheader
  obtain ⟨hashes, rest, hpos, -, rfl⟩ := isHeader_iff.mp hheader
  obtain ⟨n, rfl⟩ := Nat.exists_eq_add_of_le hpos
  rw [Nat.add_comm, List.replicate_succ] at h
  exact h rfl

/-- A line that begins with another character is plain. -/
theorem plainLine_cons {c : CodePoint} (hspace : c ≠ 0x20) (hbacktick : c ≠ 0x60)
    (htilde : c ≠ 0x7e) (hhash : c ≠ 0x23) (rest : Text) : PlainLine (c :: rest) := by
  refine ⟨fence_eq_none_of_indent ?_, isHeader_eq_false (by simpa using hhash)⟩
  intro d run after ⟨hlong, hchar, indent, _, hline⟩
  have hhead := congrArg List.head? hline
  cases indent with
  | zero =>
      obtain ⟨n, rfl⟩ := Nat.exists_eq_add_of_le hlong
      rw [Nat.add_comm, List.replicate_succ] at hhead
      have hcd : c = d := Option.some_inj.mp hhead
      obtain rfl | rfl := hchar
      · exact hbacktick hcd
      · exact htilde hcd
  | succ indent =>
      rw [List.replicate_succ] at hhead
      exact hspace (Option.some_inj.mp hhead)

/-- A line indented by four spaces is plain. -/
theorem plainLine_indented (line : Text) : PlainLine (text "    " ++ line) := by
  have hfour : text "    " = List.replicate 4 0x20 := by decide
  rw [hfour]
  refine ⟨fence_eq_none_of_indent ?_, isHeader_eq_false (by simp [List.replicate_succ])⟩
  intro d run after ⟨hlong, hchar, indent, hindent, hline⟩
  have hat := congrArg (fun l => l[indent]?) hline
  have hspace : (List.replicate 4 0x20 ++ line)[indent]? = some 0x20 := by
    rw [List.getElem?_append_left (by rw [List.length_replicate]; omega),
      List.getElem?_replicate_of_lt (by omega)]
  have hfence : (List.replicate indent 0x20 ++ (List.replicate run d ++ after))[indent]? =
      some d := by
    rw [List.getElem?_append_right (by rw [List.length_replicate]), List.length_replicate,
      Nat.sub_self, List.getElem?_append_left (by rw [List.length_replicate]; omega),
      List.getElem?_replicate_of_lt (by omega)]
  simp only [hspace, hfence, Option.some_inj] at hat
  obtain rfl | rfl := hchar <;> exact absurd hat (by decide)

theorem nextLine_plain (hplain : PlainLine line) :
    nextLine σ line = { σ with current := σ.current ++ [line] } := by
  rw [nextLine, startSection, hplain.1]
  simp [addLine, hplain.2]

theorem foldl_nextLine_plain (hplain : ∀ line ∈ lines, PlainLine line) :
    lines.foldl nextLine σ = { σ with current := σ.current ++ lines } := by
  induction lines generalizing σ with
  | nil => simp
  | cons line lines ih =>
      obtain ⟨hline, hlines⟩ := List.forall_mem_cons.mp hplain
      rw [List.foldl_cons, nextLine_plain hline, ih hlines]
      simp

/-- A header outside the fenced blocks closes the section before it. -/
theorem nextLine_header (hheader : HeaderLine line) (hopen : σ.openFence = none)
    (hcurrent : σ.current ≠ []) :
    nextLine σ line = ⟨σ.sections ++ [join (text "\n") σ.current], [line], none⟩ := by
  rw [nextLine, startSection, fence_header hheader]
  simp [addLine, hopen, isHeader_iff.mpr hheader, hcurrent]

/-- The sections when the lines in hand are the last. -/
def finished (σ : SectionState) : List Text :=
  (σ.sections ++ [join (text "\n") σ.current]).map strip

theorem splitMarkdownSections_eq_finished {s : Text}
    (hcurrent : ((splitlines s).foldl nextLine ⟨[], [], none⟩).current ≠ []) :
    splitMarkdownSections s =
      (finished ((splitlines s).foldl nextLine ⟨[], [], none⟩)).filter fun part => part ≠ [] := by
  have hstep : (fun σ line => addLine (startSection σ line) line) = nextLine := rfl
  rw [splitMarkdownSections, finished, List.filter_map]
  simp only [hstep]
  rw [if_pos hcurrent]
  rfl

/-- A blank line at the end of a section is stripped. -/
theorem strip_join_blank (lines : List Text) (hlines : lines ≠ []) :
    strip (join (text "\n") (lines ++ [[]])) = strip (join (text "\n") lines) := by
  rw [join_concat _ _ hlines, List.append_nil]
  exact strip_append_blank _ (by decide)

end Cut

section Document
variable {repo line : Text} {c : Commit} {commits : List Commit} {σ : SectionState}

theorem HeaderLine.append (hline : HeaderLine line) (rest : Text) : HeaderLine (line ++ rest) := by
  obtain ⟨hashes, after, hpos, hle, rfl⟩ := hline
  exact ⟨hashes, after ++ rest, hpos, hle, by simp⟩

theorem headerLine_two : HeaderLine (text "## ") := ⟨2, [], by decide, by decide, by decide⟩

theorem headerLine_commitHeading (repo : Text) (c : Commit) :
    HeaderLine (commitHeading repo c) := by
  simp only [commitHeading, List.append_assoc]
  exact headerLine_two.append _

theorem plainLine_filesLine (c : Commit) : PlainLine (filesLine c) := by
  have hfiles : text "Files: " = 0x46 :: text "iles: " := by decide
  simp only [filesLine, hfiles, List.cons_append]
  exact plainLine_cons (by decide) (by decide) (by decide) (by decide) _

theorem plainLine_bodyLines : ∀ line ∈ bodyLines c, PlainLine line := by
  intro line hline
  rw [bodyLines] at hline
  split_ifs at hline
  · obtain rfl | hline := List.mem_cons.mp hline
    · exact plainLine_nil
    · obtain ⟨l, -, rfl⟩ := List.mem_map.mp hline
      split_ifs
      · exact plainLine_indented l
      · exact plainLine_nil
  · exact absurd hline List.not_mem_nil

/-- After its heading, a commit has plain lines. -/
theorem plainLine_commitLines (repo : Text) (c : Commit) :
    ∀ line ∈ (commitLines repo c).tail, PlainLine line := by
  rw [commitLines, List.tail_cons]
  refine List.forall_mem_append.mpr ⟨plainLine_bodyLines, ?_⟩
  by_cases hfiles : c.files = []
  · simp [hfiles]
  · rw [if_pos hfiles]
    simp only [List.forall_mem_cons]
    exact ⟨plainLine_nil, plainLine_filesLine c, by simp⟩

/-- A blank line and the lines of a commit: a section is closed and the next begun. -/
theorem foldl_commit (repo : Text) (c : Commit) (hopen : σ.openFence = none) :
    ([] :: commitLines repo c).foldl nextLine σ =
      ⟨σ.sections ++ [join (text "\n") (σ.current ++ [[]])], commitLines repo c, none⟩ := by
  have hheader : nextLine ⟨σ.sections, σ.current ++ [[]], σ.openFence⟩ (commitHeading repo c) =
      ⟨σ.sections ++ [join (text "\n") (σ.current ++ [[]])], [commitHeading repo c], none⟩ :=
    nextLine_header (headerLine_commitHeading repo c) hopen (List.concat_ne_nil _ _)
  have htail : commitLines repo c = commitHeading repo c :: (commitLines repo c).tail := rfl
  rw [List.foldl_cons, nextLine_plain plainLine_nil, htail, List.foldl_cons, hheader,
    foldl_nextLine_plain (plainLine_commitLines repo c)]
  rfl

/-- The section of a commit. -/
def commitSection (repo : Text) (c : Commit) : Text :=
  strip (join (text "\n") (commitLines repo c))

/-- Each commit adds its section. -/
theorem finished_commits (repo : Text) (commits : List Commit) (hopen : σ.openFence = none)
    (hcurrent : σ.current ≠ []) :
    finished ((commits.flatMap fun c => [] :: commitLines repo c).foldl nextLine σ) =
        finished σ ++ commits.map (commitSection repo) ∧
      ((commits.flatMap fun c => [] :: commitLines repo c).foldl nextLine σ).current ≠ [] := by
  induction commits generalizing σ with
  | nil => exact ⟨(List.append_nil _).symm, hcurrent⟩
  | cons c commits ih =>
      rw [List.flatMap_cons, List.foldl_append, foldl_commit repo c hopen]
      obtain ⟨hfinished, hne⟩ := ih
        (σ := ⟨σ.sections ++ [join (text "\n") (σ.current ++ [[]])], commitLines repo c, none⟩)
        rfl (List.cons_ne_nil _ _)
      refine ⟨?_, hne⟩
      rw [hfinished]
      simp only [finished, List.map_append, List.map_cons, List.map_nil,
        strip_join_blank _ hcurrent, commitSection, List.append_assoc, List.cons_append,
        List.nil_append]

/-- The first header of a document closes no section. -/
theorem nextLine_first (hheader : HeaderLine line) :
    nextLine ⟨[], [], none⟩ line = ⟨[], [line], none⟩ := by
  rw [nextLine, startSection, fence_header hheader]
  simp [addLine]

theorem plainLine_recentLines (repo : Text) (commits : List Commit) :
    ∀ line ∈ (recentLines repo commits).tail, PlainLine line := by
  have hdash : text "- " = 0x2d :: [0x20] := by decide
  simp only [recentLines, List.cons_append, List.nil_append, List.tail_cons, List.forall_mem_cons]
  refine ⟨plainLine_nil, ?_⟩
  intro line hline
  obtain ⟨c, -, rfl⟩ := List.mem_map.mp hline
  simp only [hdash, List.cons_append]
  exact plainLine_cons (by decide) (by decide) (by decide) (by decide) _

theorem headerLine_titleLine (repo : Text) : HeaderLine (titleLine repo) := by
  have hone : HeaderLine (text "# Git history of ") :=
    ⟨1, text "Git history of ", by decide, by decide, by decide⟩
  exact hone.append repo

theorem headerLine_recent (repo : Text) :
    HeaderLine (text "## Recent changes to " ++ repo ++ text " (newest first)") := by
  have htwo : HeaderLine (text "## Recent changes to ") :=
    ⟨2, text "Recent changes to ", by decide, by decide, by decide⟩
  exact (htwo.append repo).append _

/-- The title and the list of recent changes. -/
theorem foldl_head (repo : Text) (commits : List Commit) :
    ([titleLine repo, []] ++ recentLines repo commits).foldl nextLine ⟨[], [], none⟩ =
      ⟨[join (text "\n") [titleLine repo, []]], recentLines repo commits, none⟩ := by
  have hheader : nextLine ⟨[], [titleLine repo, []], none⟩
      (text "## Recent changes to " ++ repo ++ text " (newest first)") =
      ⟨[join (text "\n") [titleLine repo, []]],
        [text "## Recent changes to " ++ repo ++ text " (newest first)"], none⟩ :=
    nextLine_header (headerLine_recent repo) rfl (List.cons_ne_nil _ _)
  have hhead : recentLines repo commits =
      (text "## Recent changes to " ++ repo ++ text " (newest first)") ::
        (recentLines repo commits).tail := rfl
  have htitle : [titleLine repo, []].foldl nextLine ⟨[], [], none⟩ =
      ⟨[], [titleLine repo, []], none⟩ := by
    rw [List.foldl_cons, nextLine_first (headerLine_titleLine repo), List.foldl_cons,
      nextLine_plain plainLine_nil, List.foldl_nil]
    rfl
  calc
    ([titleLine repo, []] ++ recentLines repo commits).foldl nextLine ⟨[], [], none⟩ =
        (recentLines repo commits).foldl nextLine ⟨[], [titleLine repo, []], none⟩ := by
      rw [List.foldl_append, htitle]
    _ = (recentLines repo commits).tail.foldl nextLine
        ⟨[join (text "\n") [titleLine repo, []]],
          [text "## Recent changes to " ++ repo ++ text " (newest first)"], none⟩ := by
      rw [hhead, List.foldl_cons, hheader, List.tail_cons]
    _ = ⟨[join (text "\n") [titleLine repo, []]], recentLines repo commits, none⟩ := by
      rw [foldl_nextLine_plain (plainLine_recentLines repo commits)]
      rfl

section Lines
variable {s t sep : Text} {parts : List Text}

theorem OneLine.append (hs : OneLine s) (ht : OneLine t) : OneLine (s ++ t) :=
  List.forall_mem_append.mpr ⟨hs, ht⟩

theorem oneLine_join (hsep : OneLine sep) (hparts : ∀ part ∈ parts, OneLine part) :
    OneLine (join sep parts) := by
  induction parts with
  | nil => exact fun c hc => absurd hc List.not_mem_nil
  | cons part parts ih =>
      obtain ⟨hpart, hrest⟩ := List.forall_mem_cons.mp hparts
      by_cases hne : parts = []
      · rw [hne, join_singleton]
        exact hpart
      · rw [join_cons _ _ hne]
        exact (hpart.append hsep).append (ih hrest)

theorem oneLine_decimal (n : Nat) : OneLine (decimal n) := by
  intro c hc
  obtain ⟨digit, hdigit, rfl⟩ := List.mem_map.mp hc
  have hlt : digit < 10 := Nat.digits_lt_base (by decide) (List.mem_reverse.mp hdigit)
  have hval : (Fin.ofNat 0x110000 (0x30 + digit)).val = 0x30 + digit :=
    Nat.mod_eq_of_lt (by omega)
  simp only [isLineBreak, hval, Bool.or_eq_false_iff, Bool.and_eq_false_iff,
    decide_eq_false_iff_not, beq_eq_false_iff_ne]
  omega

/-- The parts of a commit that the document takes over on one line each. -/
structure OneLineCommit (c : Commit) : Prop where
  shortHash : OneLine c.shortHash
  date : OneLine c.date
  subject : OneLine c.subject
  files : ∀ name ∈ c.files, OneLine name

theorem oneLine_filesLine (h : ∀ name ∈ c.files, OneLine name) : OneLine (filesLine c) := by
  have hshown : ∀ name ∈ c.files.take maxFilesPerCommit, OneLine name :=
    fun name hname => h name (List.mem_of_mem_take hname)
  have hfiles : OneLine (text "Files: ") := by decide
  simp only [filesLine]
  apply (hfiles.append (oneLine_join (by decide) hshown)).append
  split_ifs
  · exact (OneLine.append (by decide) (oneLine_decimal _)).append (by decide)
  · exact fun c hc => absurd hc List.not_mem_nil

theorem oneLine_nil : OneLine [] := fun _ hc => absurd hc List.not_mem_nil

theorem oneLine_bodyLines : ∀ line ∈ bodyLines c, OneLine line := by
  rw [bodyLines]
  split_ifs
  · refine List.forall_mem_cons.mpr ⟨oneLine_nil, ?_⟩
    intro line hline
    obtain ⟨l, hl, rfl⟩ := List.mem_map.mp hline
    split_ifs
    · exact OneLine.append (by decide) (not_isLineBreak_of_mem_splitlines hl)
    · exact oneLine_nil
  · exact fun line hline => absurd hline List.not_mem_nil

theorem oneLine_commitHeading (hrepo : OneLine repo) (h : OneLineCommit c) :
    OneLine (commitHeading repo c) := by
  have htwo : OneLine (text "## ") := by decide
  have hcommit : OneLine (text " commit ") := by decide
  have hopen : OneLine (text " (") := by decide
  have hclose : OneLine (text "): ") := by decide
  exact ((((((htwo.append hrepo).append hcommit).append h.shortHash).append hopen).append
    h.date).append hclose).append h.subject

theorem oneLine_commitLines (hrepo : OneLine repo) (h : OneLineCommit c) :
    ∀ line ∈ [] :: commitLines repo c, OneLine line := by
  rw [commitLines, List.forall_mem_cons, List.forall_mem_cons]
  refine ⟨oneLine_nil, oneLine_commitHeading hrepo h, ?_⟩
  refine List.forall_mem_append.mpr ⟨oneLine_bodyLines, ?_⟩
  split_ifs
  · simp only [List.forall_mem_cons]
    exact ⟨oneLine_nil, oneLine_filesLine h.files, by simp⟩
  · exact fun line hline => absurd hline List.not_mem_nil

theorem oneLine_recentLines (hrepo : OneLine repo) (h : ∀ c ∈ commits, OneLineCommit c) :
    ∀ line ∈ recentLines repo commits, OneLine line := by
  have hchanges : OneLine (text "## Recent changes to ") := by decide
  have hnewest : OneLine (text " (newest first)") := by decide
  simp only [recentLines, List.cons_append, List.nil_append, List.forall_mem_cons]
  refine ⟨(hchanges.append hrepo).append hnewest, oneLine_nil, ?_⟩
  intro line hline
  obtain ⟨c, hc, rfl⟩ := List.mem_map.mp hline
  have hcommit := h c (List.mem_of_mem_take hc)
  have hdash : OneLine (text "- ") := by decide
  have hspace : OneLine (text " ") := by decide
  exact ((((hdash.append hcommit.date).append hspace).append hcommit.shortHash).append
    hspace).append hcommit.subject

/-- Lines that are joined and ended by a newline are each ended by one. -/
theorem join_newline {lines : List Text} (hne : lines ≠ []) :
    join (text "\n") lines ++ text "\n" = lines.flatMap (· ++ [0x0a]) := by
  have hnewline : text "\n" = [0x0a] := by decide
  induction lines with
  | nil => exact absurd rfl hne
  | cons line lines ih =>
      by_cases hlines : lines = []
      · simp [hlines, hnewline]
      · rw [join_cons _ _ hlines, List.flatMap_cons, ← ih hlines, List.append_assoc, hnewline]

/-- The document has the lines it was written as. -/
theorem splitlines_renderHistory (hrepo : OneLine repo)
    (h : ∀ c ∈ commits, OneLineCommit c) :
    splitlines (renderHistory repo commits) = [titleLine repo, []] ++ recentLines repo commits ++
      commits.flatMap fun c => [] :: commitLines repo c := by
  have htitle : OneLine (text "# Git history of ") := by decide
  have hne : [titleLine repo, []] ++ recentLines repo commits ++
      (commits.flatMap fun c => [] :: commitLines repo c) ≠ [] := List.cons_ne_nil _ _
  simp only [renderHistory]
  rw [join_newline hne]
  apply splitlines_flatMap_newline
  refine List.forall_mem_append.mpr ⟨List.forall_mem_append.mpr ⟨?_, ?_⟩, ?_⟩
  · simp only [List.forall_mem_cons]
    exact ⟨htitle.append hrepo, oneLine_nil, by simp⟩
  · exact oneLine_recentLines hrepo h
  · intro line hline
    obtain ⟨c, hc, hmem⟩ := List.mem_flatMap.mp hline
    exact oneLine_commitLines hrepo (h c hc) line hmem

/-- A line is found in the joined lines. -/
theorem infix_join {line : Text} {lines : List Text} (h : line ∈ lines) (sep : Text) :
    line <:+: join sep lines := by
  induction lines with
  | nil => exact absurd h List.not_mem_nil
  | cons l lines ih =>
      by_cases hne : lines = []
      · rw [hne, List.mem_singleton] at h
        rw [hne, join_singleton, h]
      · rw [join_cons _ _ hne, List.append_assoc]
        obtain rfl | h := List.mem_cons.mp h
        · exact (List.prefix_append ..).isInfix
        · exact (ih h).trans ((List.suffix_append ..).trans (List.suffix_append ..)).isInfix

theorem prefix_join (sep line : Text) (lines : List Text) : line <+: join sep (line :: lines) := by
  by_cases hne : lines = []
  · rw [hne, join_singleton]
  · rw [join_cons _ _ hne, List.append_assoc]
    exact List.prefix_append ..

theorem HeaderLine.hash_mem (h : HeaderLine line) : 0x23 ∈ line := by
  obtain ⟨hashes, after, hpos, -, rfl⟩ := h
  exact List.mem_append_left _ (List.mem_replicate.mpr ⟨by omega, rfl⟩)

/-- A section with a header is not blank. -/
theorem strip_join_ne_nil {lines : List Text} (h : HeaderLine line) (hmem : line ∈ lines) :
    strip (join (text "\n") lines) ≠ [] := by
  intro hnil
  have hhash := (infix_join hmem (text "\n")).subset h.hash_mem
  exact absurd (strip_eq_nil_iff.mp hnil _ hhash) (by decide)

end Lines

/-- The section of the recent changes. -/
def recentSection (repo : Text) (commits : List Commit) : Text :=
  strip (join (text "\n") (recentLines repo commits))

/-- The sections of a history of one-line subjects: the title, the list of recent changes,
and one for each commit. -/
theorem splitMarkdownSections_renderHistory (hrepo : OneLine repo)
    (h : ∀ c ∈ commits, OneLineCommit c) :
    splitMarkdownSections (renderHistory repo commits) =
      strip (titleLine repo) :: recentSection repo commits ::
        commits.map (commitSection repo) := by
  have htitle : strip (join (text "\n") [titleLine repo, []]) = strip (titleLine repo) := by
    have hblank := strip_join_blank [titleLine repo] (List.cons_ne_nil _ _)
    rwa [join_singleton] at hblank
  have hhead : finished ⟨[join (text "\n") [titleLine repo, []]], recentLines repo commits, none⟩ =
      [strip (titleLine repo), recentSection repo commits] := by
    simp only [finished, List.singleton_append, List.map_cons, List.map_nil, htitle, recentSection]
  obtain ⟨hfinished, hcurrent⟩ := finished_commits
    (σ := ⟨[join (text "\n") [titleLine repo, []]], recentLines repo commits, none⟩)
    repo commits rfl (List.cons_ne_nil _ _)
  rw [hhead] at hfinished
  rw [← foldl_head, ← List.foldl_append, ← splitlines_renderHistory hrepo h] at hfinished hcurrent
  have hnonblank : ∀ part ∈ [strip (titleLine repo), recentSection repo commits] ++
      commits.map (commitSection repo), part ≠ [] := by
    simp only [List.cons_append, List.nil_append, List.forall_mem_cons]
    refine ⟨?_, ?_, ?_⟩
    · rw [← htitle]
      exact strip_join_ne_nil (headerLine_titleLine repo) List.mem_cons_self
    · exact strip_join_ne_nil (headerLine_recent repo) List.mem_cons_self
    · intro part hpart
      obtain ⟨c, -, rfl⟩ := List.mem_map.mp hpart
      exact strip_join_ne_nil (headerLine_commitHeading repo c) List.mem_cons_self
  rw [splitMarkdownSections_eq_finished hcurrent, hfinished,
    List.filter_eq_self.mpr fun part hpart => by simpa using hnonblank part hpart]
  rfl

end Document

section Claim
variable {repo part s : Text} {c : Commit} {commits : List Commit} {σ : SectionState}

/-- What is to become of a commit: its section begins with its heading and holds the text
of its body, every line of it, and the line of its files, up to the whitespace around
them. -/
structure SectionOf (repo : Text) (c : Commit) (part : Text) : Prop where
  heading : strip (commitHeading repo c) <+: part
  body : ∀ line ∈ splitlines c.body, strip line <:+: part
  bodyText : nonSpace c.body <:+: nonSpace part
  files : c.files ≠ [] → strip (filesLine c) <:+: part

/-- The sections of the document are the title, the list of recent changes, and then one
per commit, in order. -/
def OneSectionPerCommit (repo : Text) (commits : List Commit) : Prop :=
  ∃ parts, splitMarkdownSections (renderHistory repo commits) =
      strip (titleLine repo) :: recentSection repo commits :: parts ∧
    List.Forall₂ (SectionOf repo) commits parts

theorem nonSpace_bodyLines (c : Commit) :
    ((bodyLines c).map nonSpace).flatten = nonSpace c.body := by
  rw [bodyLines]
  split_ifs with hbody
  · have hline : ∀ line ∈ splitlines c.body,
        (nonSpace ∘ fun line => if strip line ≠ [] then text "    " ++ line else []) line =
          nonSpace line := by
      intro line _
      simp only [Function.comp_apply]
      split_ifs with hblank
      · rw [nonSpace_append]
        rfl
      · rw [nonSpace_eq_nil (strip_eq_nil_iff.mp (not_not.mp hblank))]
        rfl
    rw [List.map_cons, List.map_map, List.map_congr_left hline, List.flatten_cons,
      nonSpace_splitlines]
    rfl
  · rw [not_not.mp hbody]
    rfl

theorem mem_bodyLines {line : Text} (hline : line ∈ splitlines c.body) (hblank : ¬Blank line) :
    text "    " ++ line ∈ bodyLines c := by
  have hbody : c.body ≠ [] := by
    intro hnil
    rw [hnil] at hline
    exact absurd hline List.not_mem_nil
  rw [bodyLines, if_pos hbody]
  apply List.mem_cons_of_mem
  apply List.mem_map.mpr
  exact ⟨line, hline, if_pos (mt strip_eq_nil_iff.mp hblank)⟩

theorem commitLines_mem_body {line : Text} (h : line ∈ bodyLines c) :
    line ∈ commitLines repo c :=
  List.mem_cons_of_mem _ (List.mem_append_left _ h)

/-- The section of a commit is what is to become of it. -/
theorem sectionOf_commitSection (repo : Text) (c : Commit) :
    SectionOf repo c (commitSection repo c) := by
  constructor
  · have hstart : commitHeading repo c <+: join (text "\n") (commitLines repo c) :=
      prefix_join ..
    apply strip_prefix_strip hstart
    have hhash : text "## " = 0x23 :: text "# " := by decide
    simp only [commitHeading, hhash, List.cons_append, List.head?_cons, Option.mem_some_iff,
      forall_eq']
    decide
  · intro line hline
    by_cases hblank : Blank line
    · rw [strip_eq_nil_iff.mpr hblank]
      exact List.nil_infix
    · apply strip_infix_strip
      have hmem : text "    " ++ line ∈ commitLines repo c :=
        commitLines_mem_body (mem_bodyLines hline hblank)
      exact (List.suffix_append ..).isInfix.trans (infix_join hmem (text "\n"))
  · rw [commitSection, nonSpace_strip, nonSpace_join nonSpace_newline, commitLines,
      List.map_cons, List.map_append, List.flatten_cons, List.flatten_append, nonSpace_bodyLines,
      ← List.append_assoc]
    exact List.infix_append ..
  · intro hfiles
    apply strip_infix_strip
    apply infix_join
    rw [commitLines, if_pos hfiles]
    simp

/-- No line end but the newline. -/
def NewlinesOnly (s : Text) : Prop := ∀ c ∈ s, isLineBreak c = true → c = 0x0a

theorem newlinesOnly_join {lines : List Text} (h : ∀ line ∈ lines, OneLine line) :
    NewlinesOnly (join (text "\n") lines) := by
  have hone : ∀ {line : Text}, OneLine line → NewlinesOnly line := by
    intro line hline c hc hbreak
    rw [hline c hc] at hbreak
    exact absurd hbreak Bool.false_ne_true
  induction lines with
  | nil => exact hone oneLine_nil
  | cons line lines ih =>
      obtain ⟨hline, hrest⟩ := List.forall_mem_cons.mp h
      by_cases hne : lines = []
      · rw [hne, join_singleton]
        exact hone hline
      · have hnewline : NewlinesOnly (text "\n") := by
          intro c hc _
          exact List.mem_singleton.mp hc
        rw [join_cons _ _ hne]
        exact List.forall_mem_append.mpr
          ⟨List.forall_mem_append.mpr ⟨hone hline, hnewline⟩, ih hrest⟩

/-- Closed sections and lines in hand of one line each. -/
structure Unbroken (σ : SectionState) : Prop where
  sections : ∀ part ∈ σ.sections, NewlinesOnly part
  current : ∀ line ∈ σ.current, OneLine line

theorem Unbroken.nextLine (h : Unbroken σ) {line : Text} (hline : OneLine line) :
    Unbroken (nextLine σ line) := by
  have hone : ∀ l ∈ [line], OneLine l := List.forall_mem_singleton.mpr hline
  rw [Ingest.nextLine, startSection_eq]
  split_ifs
  · refine ⟨List.forall_mem_append.mpr ⟨h.sections, ?_⟩, hone⟩
    exact List.forall_mem_singleton.mpr (newlinesOnly_join h.current)
  · exact ⟨h.sections, List.forall_mem_append.mpr ⟨h.current, hone⟩⟩

theorem unbroken_foldl {lines : List Text} (hlines : ∀ line ∈ lines, OneLine line)
    (h : Unbroken σ) : Unbroken (lines.foldl nextLine σ) :=
  List.foldlRecOn lines nextLine h fun _ h line hline => h.nextLine (hlines line hline)

/-- The sections are made of lines and newlines. -/
theorem newlinesOnly_splitMarkdownSections (h : part ∈ splitMarkdownSections s) :
    NewlinesOnly part := by
  have hall : Unbroken ((splitlines s).foldl nextLine ⟨[], [], none⟩) :=
    unbroken_foldl (fun _ hline => not_isLineBreak_of_mem_splitlines hline) ⟨by simp, by simp⟩
  obtain ⟨whole, hwhole, rfl⟩ := List.mem_map.mp h
  have hmem := (List.mem_filter.mp hwhole).1
  have hpart : NewlinesOnly whole := by
    split_ifs at hmem
    · obtain hclosed | hlast := List.mem_append.mp hmem
      · exact hall.sections whole hclosed
      · rw [List.mem_singleton.mp hlast]
        exact newlinesOnly_join hall.current
    · exact hall.sections whole hmem
  intro c hc
  exact hpart c (stripWhile_subset isSpace whole hc)

/-- No whitespace. -/
def Spaceless (s : Text) : Prop := ∀ d ∈ s, isSpace d = false

instance (s : Text) : Decidable (Spaceless s) :=
  List.decidableBAll (fun d => isSpace d = false) s

/-- What `render_history` is called with: a repository name of one line, and commits as
`parse_log` reads them. -/
structure HistoryInput (repo : Text) (commits : List Commit) : Prop where
  repo : OneLine repo
  shortHash : ∀ c ∈ commits, Spaceless c.shortHash
  date : ∀ c ∈ commits, Spaceless c.date
  subject : ∀ c ∈ commits, 0x0a ∉ c.subject ∧ strip c.subject = c.subject
  files : ∀ c ∈ commits, ∀ name ∈ c.files, OneLine name

theorem HistoryInput.oneLineCommit (h : HistoryInput repo commits) (hc : c ∈ commits)
    (hsubject : OneLine c.subject) : OneLineCommit c := by
  have hspace : ∀ s : Text, Spaceless s → OneLine s := by
    intro s hs d hd
    rw [Bool.eq_false_iff]
    intro hbreak
    exact absurd (isSpace_of_isLineBreak hbreak) (by simp [hs d hd])
  exact ⟨hspace _ (h.shortHash c hc), hspace _ (h.date c hc), hsubject, h.files c hc⟩

/-- A heading ends with its subject, and so does the stripped heading. -/
theorem strip_commitHeading (hsubject : strip c.subject = c.subject) (hne : c.subject ≠ []) :
    strip (commitHeading repo c) = commitHeading repo c := by
  have htrimmed : Trimmed c.subject := hsubject ▸ trimmed_strip c.subject
  apply strip_eq_self
  constructor
  · have hhash : text "## " = 0x23 :: text "# " := by decide
    simp only [commitHeading, hhash, List.cons_append, List.head?_cons, Option.mem_some_iff,
      forall_eq']
    decide
  · rw [commitHeading, List.getLast?_append_of_ne_nil _ hne]
    exact htrimmed.last

theorem exists_of_forall₂ {α β : Type} {R : α → β → Prop} {l : List α} {l' : List β}
    (h : List.Forall₂ R l l') : ∀ x ∈ l, ∃ y ∈ l', R x y := by
  induction h with
  | nil => simp
  | cons hxy _ ih =>
      refine List.forall_mem_cons.mpr ⟨⟨_, List.mem_cons_self, hxy⟩, ?_⟩
      intro x hx
      obtain ⟨y, hy, hR⟩ := ih x hx
      exact ⟨y, List.mem_cons_of_mem _ hy, hR⟩

/-- The document has one section per commit exactly when every subject is one line. -/
theorem oneSectionPerCommit_iff (h : HistoryInput repo commits) :
    OneSectionPerCommit repo commits ↔ ∀ c ∈ commits, OneLine c.subject := by
  constructor
  · intro ⟨parts, hparts, hsections⟩ c hc d hd
    obtain ⟨hnewline, hsubject⟩ := h.subject c hc
    rw [Bool.eq_false_iff]
    intro hbreak
    obtain ⟨part, hpart, hof⟩ := exists_of_forall₂ hsections c hc
    have hmem : part ∈ splitMarkdownSections (renderHistory repo commits) := by
      rw [hparts]
      exact List.mem_cons_of_mem _ (List.mem_cons_of_mem _ hpart)
    have hheading := hof.heading
    rw [strip_commitHeading hsubject (List.ne_nil_of_mem hd)] at hheading
    have hin : d ∈ part := hheading.subset (List.mem_append_right _ hd)
    exact hnewline (newlinesOnly_splitMarkdownSections hmem d hin hbreak ▸ hd)
  · intro hsubject
    have hcommits : ∀ c ∈ commits, OneLineCommit c :=
      fun c hc => h.oneLineCommit hc (hsubject c hc)
    refine ⟨_, splitMarkdownSections_renderHistory h.repo hcommits, ?_⟩
    rw [List.forall₂_map_right_iff, List.forall₂_same]
    exact fun c _ => sectionOf_commitSection repo c

/-- Bodies with a heading, a fence and a vertical tab, and a commit without one. -/
def bodiedCommits : List Commit :=
  [⟨text "abc1234", text "2026-10-22", text "Work",
      text "# not a heading\n```\n" ++ [0x0b] ++ text "## nor this", [text "a.py", text "b.py"]⟩,
    ⟨text "def5678", text "2026-10-21", text "# Start", [], [text "a.py"]⟩]

theorem oneSectionPerCommit_bodied : OneSectionPerCommit (text "repo") bodiedCommits := by
  apply (oneSectionPerCommit_iff _).mpr
  · simp only [bodiedCommits, List.forall_mem_cons]
    exact ⟨by decide, by decide, by simp⟩
  · constructor
    · decide
    · simp only [bodiedCommits, List.forall_mem_cons]
      exact ⟨by decide, by decide, by simp⟩
    · simp only [bodiedCommits, List.forall_mem_cons]
      exact ⟨by decide, by decide, by simp⟩
    · simp only [bodiedCommits, List.forall_mem_cons]
      exact ⟨by decide, by decide, by simp⟩
    · simp only [bodiedCommits, List.forall_mem_cons]
      exact ⟨⟨by decide, by decide, by simp⟩, ⟨by decide, by simp⟩, by simp⟩

/-- A subject with a vertical tab is two lines for the chunker, and the second is a header:
the history of one commit has five sections. -/
theorem not_oneSectionPerCommit_tab : ¬∀ (repo : Text) (commits : List Commit),
    HistoryInput repo commits → OneSectionPerCommit repo commits := by
  intro hall
  let c : Commit :=
    ⟨text "abc1234", text "2026-10-22", text "Work" ++ [0x0b] ++ text "# Forged", [], []⟩
  have hinput : HistoryInput (text "repo") [c] := by
    constructor
    · decide
    · exact List.forall_mem_singleton.mpr (by decide)
    · exact List.forall_mem_singleton.mpr (by decide)
    · exact List.forall_mem_singleton.mpr (by decide)
    · exact List.forall_mem_singleton.mpr fun name hname => absurd hname List.not_mem_nil
  have hfive : (splitMarkdownSections (renderHistory (text "repo") [c])).length = 5 := by
    decide +kernel
  obtain ⟨parts, hparts, hsections⟩ := hall _ _ hinput
  have hlen := hsections.length_eq
  rw [hparts] at hfive
  simp only [List.length_cons, List.length_nil] at hfive hlen
  omega

end Claim

end LocalGraphRag.Ingest
