import LocalGraphRag.Python.Fields
import LocalGraphRag.Python.Split
import Mathlib.Data.Nat.Digits.Defs

/-!
# The history of a repository

`parseLog` reads the commits that `git log` prints, and `renderHistory` writes them as a
Markdown document. `git log` prints a record per commit: a record separator, four fields each
followed by a field separator, and the names of the changed files. The separators are not
escaped, so a commit message that holds them can break its record, or imitate several.

## Implementation notes

`parseLog` returns nothing where the source raises `ValueError`.
-/

namespace LocalGraphRag.Ingest

open LocalGraphRag.Python

structure Commit where
  shortHash : Text
  date : Text
  subject : Text
  body : Text
  files : List Text
  deriving DecidableEq

/-- `_RECORD_SEP`. -/
def recordSep : CodePoint := 0x1e

/-- `_FIELD_SEP`. -/
def fieldSep : CodePoint := 0x1f

section Parse

/-- The loop body of `parse_log`. -/
def parseRecord (record : Text) : Option Commit :=
  match splitOn fieldSep record with
  | [shortHash, date, subject, body, files] =>
      some ⟨shortHash, date, strip subject, strip body,
        (splitlines files).filter fun name => strip name ≠ []⟩
  | _ => none

/-- `parse_log`. -/
def parseLog (output : Text) : Option (List Commit) :=
  ((splitOn recordSep output).drop 1).mapM parseRecord

end Parse

section Render

/-- `_RECENT_COMMITS`. -/
def recentCommits : Nat := 15

/-- `_MAX_FILES_PER_COMMIT`. -/
def maxFilesPerCommit : Nat := 15

/-- `str(n)` of a positive number. -/
def decimal (n : Nat) : Text :=
  (Nat.digits 10 n).reverse.map fun digit => Fin.ofNat 0x110000 (0x30 + digit)

/-- The heading of a commit. -/
def commitHeading (repo : Text) (c : Commit) : Text :=
  text "## " ++ repo ++ text " commit " ++ c.shortHash ++ text " (" ++ c.date ++ text "): " ++
    c.subject

/-- The body, indented. -/
def bodyLines (c : Commit) : List Text :=
  if c.body ≠ [] then
    [] :: (splitlines c.body).map fun line => if strip line ≠ [] then text "    " ++ line else []
  else []

/-- The line of the changed files. -/
def filesLine (c : Commit) : Text :=
  let shown := c.files.take maxFilesPerCommit
  let more := c.files.length - shown.length
  text "Files: " ++ join (text ", ") shown ++
    if more ≠ 0 then text " (+" ++ decimal more ++ text " more)" else []

/-- The lines of a commit, from its heading on. -/
def commitLines (repo : Text) (c : Commit) : List Text :=
  commitHeading repo c :: (bodyLines c ++ if c.files ≠ [] then [[], filesLine c] else [])

def titleLine (repo : Text) : Text := text "# Git history of " ++ repo

/-- The list of recent changes. -/
def recentLines (repo : Text) (commits : List Commit) : List Text :=
  [text "## Recent changes to " ++ repo ++ text " (newest first)", []] ++
    (commits.take recentCommits).map fun c =>
      text "- " ++ c.date ++ text " " ++ c.shortHash ++ text " " ++ c.subject

/-- `render_history`. -/
def renderHistory (repo : Text) (commits : List Commit) : Text :=
  let lines := [titleLine repo, []] ++ recentLines repo commits ++
    commits.flatMap fun c => [] :: commitLines repo c
  join (text "\n") lines ++ text "\n"

end Render

section Print

/-- What `_LOG_FORMAT` prints, without the record separator it begins with. -/
def logFormat (c : Commit) : Text :=
  join [fieldSep] [c.shortHash, c.date, c.subject, c.body] ++ [fieldSep]

/-- The names of the changed files, each on a line, after a blank one. -/
def nameOnly (files : List Text) : Text :=
  if files = [] then [] else text "\n" ++ files.flatMap (· ++ text "\n")

/-- The record of a commit. -/
def logRecord (c : Commit) : Text := logFormat c ++ text "\n" ++ nameOnly c.files

/-- What `git log --name-only --format=_LOG_FORMAT` prints. -/
def printLog (commits : List Commit) : Text :=
  (commits.map logRecord).flatMap (recordSep :: ·)

end Print

section Names
variable {files : List Text}

/-- The file name is read back as it was printed: it is not blank and holds no line end. -/
def PlainName (name : Text) : Prop :=
  strip name ≠ [] ∧ ∀ c ∈ name, isLineBreak c = false

instance (name : Text) : Decidable (PlainName name) :=
  haveI : Decidable (∀ c ∈ name, isLineBreak c = false) :=
    List.decidableBAll (fun c => isLineBreak c = false) name
  inferInstanceAs (Decidable (_ ∧ _))

/-- The names read from the last field of a record. -/
def readNames (field : Text) : List Text :=
  (splitlines field).filter fun name => strip name ≠ []

theorem readNames_append_newline (s t : Text) :
    readNames (s ++ 0x0a :: t) = readNames (s ++ text "\n") ++ readNames t := by
  have hlines : splitlines (s ++ 0x0a :: t) = splitlines (s ++ text "\n") ++ splitlines t :=
    splitlines_append_newline s t
  rw [readNames, hlines, List.filter_append]
  rfl

/-- A blank line holds no name. -/
theorem readNames_newline (s : Text) : readNames (text "\n" ++ s) = readNames s := by
  have hblank : readNames (text "\n") = [] := by decide
  have hrest : readNames (text "\n" ++ s) = readNames (text "\n") ++ readNames s :=
    readNames_append_newline [] s
  rw [hrest, hblank, List.nil_append]

theorem readNames_nameOnly (files : List Text) : readNames (text "\n" ++ nameOnly files) =
    files.flatMap fun name => readNames (name ++ text "\n") := by
  rw [readNames_newline, nameOnly]
  split_ifs with hfiles
  · rw [hfiles]
    rfl
  · rw [readNames_newline]
    clear hfiles
    induction files with
    | nil => rfl
    | cons name files ih =>
        rw [List.flatMap_cons, List.flatMap_cons, ← ih, List.append_assoc]
        exact readNames_append_newline name _

/-- Every name that is read is plain. -/
theorem plainName_of_mem_readNames {field name : Text} (h : name ∈ readNames field) :
    PlainName name := by
  obtain ⟨hmem, hblank⟩ := List.mem_filter.mp h
  exact ⟨of_decide_eq_true hblank, not_isLineBreak_of_mem_splitlines hmem⟩

theorem readNames_line {name : Text} (h : PlainName name) :
    readNames (name ++ text "\n") = [name] := by
  have hline : splitlines (name ++ text "\n") = [name] := splitlines_line h.2
  rw [readNames, hline, List.filter_cons_of_pos (by simpa using h.1), List.filter_nil]

/-- The names are read back exactly when they are plain. -/
theorem readNames_eq_iff : readNames (text "\n" ++ nameOnly files) = files ↔
    ∀ name ∈ files, PlainName name := by
  constructor
  · intro h name hname
    rw [← h] at hname
    exact plainName_of_mem_readNames hname
  · intro h
    rw [readNames_nameOnly, List.flatMap_congr fun name hname => readNames_line (h name hname)]
    exact List.flatMap_singleton' files

end Names

section Records

/-- The numbers of field separators between the record separators. -/
def fieldCounts (s : Text) : List Nat := (splitOn recordSep s).map (List.count fieldSep)

/-- The message of a commit with the field separators its record has around it. -/
def message (c : Commit) : Text :=
  [fieldSep, fieldSep] ++ c.subject ++ [fieldSep] ++ c.body ++ [fieldSep]

/-- Cut at its record separators, the message has the field separators of whole records. -/
def LooksWhole (c : Commit) : Prop := ∀ n ∈ fieldCounts (message c), n = 4

instance (c : Commit) : Decidable (LooksWhole c) :=
  List.decidableBAll (fun n => n = 4) (fieldCounts (message c))

/-- Neither separator. -/
def Unseparated (s : Text) : Prop := recordSep ∉ s ∧ fieldSep ∉ s

variable {s t : Text} {c : Commit}

theorem fieldCounts_cons_record (s : Text) :
    fieldCounts (recordSep :: s) = 0 :: fieldCounts s := by
  simp [fieldCounts, splitOn]

theorem fieldCounts_cons_of_ne {d : CodePoint} (hd : d ≠ recordSep) (s : Text) :
    fieldCounts (d :: s) = (fieldCounts s).modifyHead (· + if d = fieldSep then 1 else 0) := by
  obtain ⟨part, parts, hparts⟩ := List.exists_cons_of_ne_nil (splitOn_ne_nil recordSep s)
  calc
    fieldCounts (d :: s) = ((d :: part) :: parts).map (List.count fieldSep) := by
      rw [fieldCounts, splitOn_cons_of_ne hd, hparts, List.modifyHead_cons]
    _ = ((part :: parts).map (List.count fieldSep)).modifyHead
        (· + if d = fieldSep then 1 else 0) := by
      rw [List.map_cons, List.map_cons, List.modifyHead_cons, List.count_cons]
      simp only [beq_iff_eq]
    _ = (fieldCounts s).modifyHead (· + if d = fieldSep then 1 else 0) := by
      rw [fieldCounts, hparts]

/-- What is no separator does not count. -/
theorem fieldCounts_filter (s : Text) :
    fieldCounts (s.filter fun d => d = recordSep ∨ d = fieldSep) = fieldCounts s := by
  induction s with
  | nil => rfl
  | cons d s ih =>
      by_cases hrecord : d = recordSep
      · rw [List.filter_cons_of_pos (by simp [hrecord]), hrecord, fieldCounts_cons_record,
          fieldCounts_cons_record, ih]
      · by_cases hfield : d = fieldSep
        · rw [List.filter_cons_of_pos (by simp [hfield]), fieldCounts_cons_of_ne hrecord,
            fieldCounts_cons_of_ne hrecord, ih]
        · rw [List.filter_cons_of_neg (by simp [hrecord, hfield]),
            fieldCounts_cons_of_ne hrecord, if_neg hfield, ih]
          cases fieldCounts s <;> rfl

theorem Unseparated.filter (h : Unseparated s) :
    s.filter (fun d => d = recordSep ∨ d = fieldSep) = [] := by
  apply List.filter_eq_nil_iff.mpr
  intro d hd
  have hrecord : d ≠ recordSep := fun heq => h.1 (heq ▸ hd)
  have hfield : d ≠ fieldSep := fun heq => h.2 (heq ▸ hd)
  simp [hrecord, hfield]

theorem Unseparated.append (hs : Unseparated s) (ht : Unseparated t) : Unseparated (s ++ t) :=
  ⟨fun h => (List.mem_append.mp h).elim hs.1 ht.1, fun h => (List.mem_append.mp h).elim hs.2 ht.2⟩

theorem unseparated_newline : Unseparated (text "\n") := by
  rw [Unseparated]
  decide

theorem unseparated_nameOnly {files : List Text} (h : ∀ name ∈ files, Unseparated name) :
    Unseparated (text "\n" ++ nameOnly files) := by
  have hnames : Unseparated (files.flatMap (· ++ text "\n")) := by
    induction files with
    | nil => exact ⟨List.not_mem_nil, List.not_mem_nil⟩
    | cons name files ih =>
        obtain ⟨hname, hrest⟩ := List.forall_mem_cons.mp h
        exact (hname.append unseparated_newline).append (ih hrest)
  apply unseparated_newline.append
  rw [nameOnly]
  split_ifs
  · exact ⟨List.not_mem_nil, List.not_mem_nil⟩
  · exact unseparated_newline.append hnames

/-- The record of a commit has the separators of its message. -/
theorem fieldCounts_logRecord (hhash : Unseparated c.shortHash) (hdate : Unseparated c.date)
    (hfiles : ∀ name ∈ c.files, Unseparated name) :
    fieldCounts (logRecord c) = fieldCounts (message c) := by
  rw [← fieldCounts_filter, ← fieldCounts_filter (message c), logRecord, List.append_assoc]
  simp only [logFormat, message, join, List.intercalate, List.intersperse, List.flatten_cons,
    List.flatten_nil, List.append_nil, List.filter_append, hhash.filter, hdate.filter,
    (unseparated_nameOnly hfiles).filter, List.nil_append, List.append_assoc]
  rfl

/-- A record is read unless it does not hold exactly four field separators. -/
theorem parseRecord_eq_none_iff {record : Text} :
    parseRecord record = none ↔ record.count fieldSep ≠ 4 := by
  have hlen := length_splitOn fieldSep record
  rw [parseRecord]
  split
  · rename_i hfields
    rw [hfields] at hlen
    simp only [List.length_cons, List.length_nil] at hlen
    simp
    omega
  · rename_i hfields
    simp only [ne_eq, true_iff]
    intro hcount
    rw [hcount] at hlen
    match heq : splitOn fieldSep record, hlen with
    | [h, d, s, b, f], _ => exact hfields h d s b f heq

end Records

section Decode

/-- The commit as `parse_log` is to return it: its subject and body stripped. -/
def stripped (c : Commit) : Commit := { c with subject := strip c.subject, body := strip c.body }

/-- The log of the commits is refused, or read as these commits. -/
def ReadBack (commits : List Commit) : Prop :=
  parseLog (printLog commits) = none ∨ parseLog (printLog commits) = some (commits.map stripped)

/-- A control character. -/
def isControl (c : CodePoint) : Bool := c.val < 0x20 || (0x7f ≤ c.val && c.val < 0xa0)

/-- No control character. -/
def Printable (s : Text) : Prop := ∀ d ∈ s, isControl d = false

instance (s : Text) : Decidable (Printable s) :=
  List.decidableBAll (fun d => isControl d = false) s

/-- What git prints of a commit besides its message holds no control character, and the
subject is one line. -/
structure PlainCommit (c : Commit) : Prop where
  shortHash : Printable c.shortHash
  date : Printable c.date
  files : ∀ name ∈ c.files, Printable name
  subject : 0x0a ∉ c.subject

section Reads
variable {α β : Type} {f : α → Option β} {l : List α} {l' : List β}

theorem mapM_cons_eq (x : α) : (x :: l).mapM f = (f x).bind fun y => (l.mapM f).map (y :: ·) := by
  rw [List.mapM_cons]
  cases f x with
  | none => rfl
  | some y => cases l.mapM f <;> rfl

theorem mapM_eq_some_iff : l.mapM f = some l' ↔ l.map f = l'.map some := by
  induction l generalizing l' with
  | nil => cases l' <;> simp
  | cons x l ih =>
      rw [mapM_cons_eq, List.map_cons]
      cases l' with
      | nil => cases f x <;> simp
      | cons y l' =>
          rw [List.map_cons, List.cons.injEq, ← ih]
          cases f x with
          | none => simp
          | some z => simp [and_comm, eq_comm]

theorem mapM_eq_none_iff : l.mapM f = none ↔ ∃ x ∈ l, f x = none := by
  induction l with
  | nil => simp
  | cons x l ih =>
      rw [mapM_cons_eq, List.exists_mem_cons_iff, ← ih]
      cases f x <;> simp

end Reads

variable {commits : List Commit} {c : Commit}

theorem PlainCommit.unseparated (h : PlainCommit c) : Unseparated c.shortHash ∧
    Unseparated c.date ∧ ∀ name ∈ c.files, Unseparated name := by
  have hplain : ∀ s : Text, Printable s → Unseparated s := by
    intro s hs
    exact ⟨fun hmem => absurd (hs _ hmem) (by decide), fun hmem => absurd (hs _ hmem) (by decide)⟩
  exact ⟨hplain _ h.shortHash, hplain _ h.date, fun name hname => hplain _ (h.files name hname)⟩

/-- The records of the log, and what they are cut into by the separators in messages. -/
theorem parseLog_printLog (commits : List Commit) : parseLog (printLog commits) =
    (commits.flatMap fun c => splitOn recordSep (logRecord c)).mapM parseRecord := by
  have hsplit := splitOn_append_flatMap recordSep [] (commits.map logRecord)
  rw [List.nil_append] at hsplit
  rw [parseLog, printLog, hsplit, List.flatMap_map]
  rfl

/-- The log is refused exactly when a message does not look like whole records. -/
theorem parseLog_eq_none_iff (h : ∀ c ∈ commits, PlainCommit c) :
    parseLog (printLog commits) = none ↔ ∃ c ∈ commits, ¬LooksWhole c := by
  rw [parseLog_printLog, mapM_eq_none_iff]
  constructor
  · intro ⟨record, hrecord, hnone⟩
    obtain ⟨c, hc, hpart⟩ := List.mem_flatMap.mp hrecord
    refine ⟨c, hc, ?_⟩
    intro hwhole
    obtain ⟨hhash, hdate, hfiles⟩ := (h c hc).unseparated
    rw [LooksWhole, ← fieldCounts_logRecord hhash hdate hfiles] at hwhole
    exact parseRecord_eq_none_iff.mp hnone (hwhole _ (List.mem_map_of_mem hpart))
  · intro ⟨c, hc, hwhole⟩
    obtain ⟨hhash, hdate, hfiles⟩ := (h c hc).unseparated
    rw [LooksWhole, ← fieldCounts_logRecord hhash hdate hfiles] at hwhole
    simp only [not_forall] at hwhole
    obtain ⟨n, hn, hne⟩ := hwhole
    obtain ⟨record, hrecord, rfl⟩ := List.mem_map.mp hn
    exact ⟨record, List.mem_flatMap.mpr ⟨c, hc, hrecord⟩, parseRecord_eq_none_iff.mpr hne⟩

theorem logRecord_eq_join (c : Commit) : logRecord c = join [fieldSep]
    [c.shortHash, c.date, c.subject, c.body, text "\n" ++ nameOnly c.files] := by
  simp [logRecord, logFormat, join, List.intercalate, List.intersperse]

theorem recordSep_mem_logRecord (h : PlainCommit c) :
    recordSep ∈ logRecord c ↔ recordSep ∈ c.subject ∨ recordSep ∈ c.body := by
  obtain ⟨hhash, hdate, hfiles⟩ := h.unseparated
  have hnames := (unseparated_nameOnly hfiles).1
  have hne : recordSep ≠ fieldSep := by decide
  rw [List.mem_append, not_or] at hnames
  simp [logRecord, logFormat, join, List.intercalate, List.intersperse, hhash.1, hdate.1,
    hnames.1, hnames.2, hne]

theorem count_logRecord (h : PlainCommit c) : (logRecord c).count fieldSep =
    c.subject.count fieldSep + c.body.count fieldSep + 4 := by
  obtain ⟨hhash, hdate, hfiles⟩ := h.unseparated
  have hnames := List.count_eq_zero.mpr (unseparated_nameOnly hfiles).2
  have hhashCount := List.count_eq_zero.mpr hhash.2
  have hdateCount := List.count_eq_zero.mpr hdate.2
  rw [logRecord, List.append_assoc, List.count_append, hnames]
  simp only [logFormat, join, List.intercalate, List.intersperse, List.flatten_cons,
    List.flatten_nil, List.count_append, List.count_cons_self, List.count_nil, hhashCount,
    hdateCount]
  omega

/-- The fields of a record are the commit's, if the message holds no field separator. -/
theorem parseRecord_logRecord (h : PlainCommit c) (hcount : (logRecord c).count fieldSep = 4) :
    parseRecord (logRecord c) =
      some { stripped c with files := readNames (text "\n" ++ nameOnly c.files) } := by
  obtain ⟨hhash, hdate, hfiles⟩ := h.unseparated
  rw [count_logRecord h] at hcount
  have hsubject : fieldSep ∉ c.subject := List.count_eq_zero.mp (by omega)
  have hbody : fieldSep ∉ c.body := List.count_eq_zero.mp (by omega)
  have hfields : splitOn fieldSep (logRecord c) =
      [c.shortHash, c.date, c.subject, c.body, text "\n" ++ nameOnly c.files] := by
    rw [logRecord_eq_join]
    apply splitOn_join (List.cons_ne_nil _ _)
    simp only [List.forall_mem_cons]
    exact ⟨hhash.2, hdate.2, hsubject, hbody, (unseparated_nameOnly hfiles).2, by simp⟩
  rw [parseRecord, hfields]
  rfl

/-- As many pieces as texts: none of the texts is cut. -/
theorem length_eq_one_of_flatMap {α β : Type} {g : α → List β} (hne : ∀ x, g x ≠ [])
    {l : List α} (hlen : (l.flatMap g).length = l.length) : ∀ x ∈ l, (g x).length = 1 := by
  have hge : ∀ l : List α, l.length ≤ (l.flatMap g).length := by
    intro l
    induction l with
    | nil => exact Nat.zero_le _
    | cons x l ih =>
        have hpos := List.length_pos_iff.mpr (hne x)
        rw [List.flatMap_cons, List.length_append, List.length_cons]
        omega
  induction l with
  | nil => simp
  | cons x l ih =>
      have hpos := List.length_pos_iff.mpr (hne x)
      have hrest := hge l
      rw [List.flatMap_cons, List.length_append, List.length_cons] at hlen
      exact List.forall_mem_cons.mpr ⟨by omega, ih (by omega)⟩

/-- Without record separators in messages, the records are read one by one. -/
theorem parseLog_of_not_mem (h : ∀ c ∈ commits, recordSep ∉ logRecord c) :
    parseLog (printLog commits) = (commits.map logRecord).mapM parseRecord := by
  rw [parseLog_printLog, List.flatMap_congr fun c hc => splitOn_of_notMem (h c hc),
    List.map_eq_flatMap]

/-- Without record separators, a commit is read back when it is read and its file names
are plain. -/
theorem parseRecord_eq_stripped_iff (h : PlainCommit c)
    (hcount : (logRecord c).count fieldSep = 4) :
    parseRecord (logRecord c) = some (stripped c) ↔ ∀ name ∈ c.files, PlainName name := by
  rw [parseRecord_logRecord h hcount, ← readNames_eq_iff, Option.some_inj]
  constructor
  · intro heq
    exact congrArg Commit.files heq
  · intro hfiles
    rw [hfiles]
    rfl

/-- The commits read back are as many as were printed, so no message was cut. -/
theorem not_mem_logRecord_of_readBack
    (h : parseLog (printLog commits) = some (commits.map stripped)) :
    ∀ c ∈ commits, recordSep ∉ logRecord c := by
  rw [parseLog_printLog, mapM_eq_some_iff] at h
  have hlen := congrArg List.length h
  rw [List.length_map, List.length_map, List.length_map] at hlen
  intro c hc
  have hone := length_eq_one_of_flatMap (fun c => splitOn_ne_nil recordSep (logRecord c)) hlen c hc
  rw [length_splitOn] at hone
  exact List.count_eq_zero.mp (by omega)

/-- The log is refused, or read as the commits it was printed from, exactly when some
message does not look like whole records or no message holds a record separator and every
file name is plain. -/
theorem readBack_iff (h : ∀ c ∈ commits, PlainCommit c) :
    ReadBack commits ↔ (∃ c ∈ commits, ¬LooksWhole c) ∨
      ∀ c ∈ commits, recordSep ∉ c.subject ∧ recordSep ∉ c.body ∧
        ∀ name ∈ c.files, PlainName name := by
  constructor
  · intro hback
    obtain hnone | hsome := hback
    · exact Or.inl ((parseLog_eq_none_iff h).mp hnone)
    · have hnot := not_mem_logRecord_of_readBack hsome
      rw [parseLog_of_not_mem hnot, mapM_eq_some_iff, List.map_map, List.map_map,
        List.map_inj_left] at hsome
      refine Or.inr ?_
      intro c hc
      have hread : parseRecord (logRecord c) = some (stripped c) := hsome c hc
      have hcount : (logRecord c).count fieldSep = 4 := by
        by_contra hne
        rw [parseRecord_eq_none_iff.mpr hne] at hread
        exact absurd hread.symm (Option.some_ne_none _)
      obtain ⟨hsubject, hbody⟩ := not_or.mp (mt (recordSep_mem_logRecord (h c hc)).mpr (hnot c hc))
      exact ⟨hsubject, hbody, (parseRecord_eq_stripped_iff (h c hc) hcount).mp hread⟩
  · intro hcond
    by_cases hwhole : ∃ c ∈ commits, ¬LooksWhole c
    · exact Or.inl ((parseLog_eq_none_iff h).mpr hwhole)
    · have hplain := hcond.resolve_left hwhole
      have hnot : ∀ c ∈ commits, recordSep ∉ logRecord c := by
        intro c hc hmem
        obtain ⟨hsubject, hbody, -⟩ := hplain c hc
        exact ((recordSep_mem_logRecord (h c hc)).mp hmem).elim hsubject hbody
      refine Or.inr ?_
      rw [parseLog_of_not_mem hnot, mapM_eq_some_iff, List.map_map, List.map_map,
        List.map_inj_left]
      intro c hc
      have hlooks : LooksWhole c := by
        by_contra hne
        exact hwhole ⟨c, hc, hne⟩
      obtain ⟨hhash, hdate, hfiles⟩ := (h c hc).unseparated
      rw [LooksWhole, ← fieldCounts_logRecord hhash hdate hfiles, fieldCounts,
        splitOn_of_notMem (hnot c hc), List.map_singleton, List.forall_mem_singleton] at hlooks
      exact (parseRecord_eq_stripped_iff (h c hc) hlooks).mpr (hplain c hc).2.2

/-- A message of several lines, with names that hold spaces, and a commit without files. -/
def plainCommits : List Commit :=
  [⟨text "abc1234", text "2026-10-22", text "Work", text "First line\n\n## not a heading",
      [text "src/a b.py", text "README.md"]⟩,
    ⟨text "def5678", text "2026-10-21", text "Start", [], []⟩]

/-- A message that does not look like whole records. -/
def separatedCommit : Commit :=
  ⟨text "abc1234", text "2026-10-22", text "Work", text "a" ++ [fieldSep] ++ text "b", []⟩

/-- The first history is read back, the second one is not read at all. -/
theorem readBack_plainCommits : ReadBack plainCommits ∧
    ReadBack (separatedCommit :: plainCommits) := by
  have hplain : ∀ c ∈ plainCommits, PlainCommit c := by
    simp only [plainCommits, List.forall_mem_cons]
    exact ⟨⟨by decide, by decide, by decide, by decide⟩,
      ⟨by decide, by decide, by simp, by decide⟩, by simp⟩
  have hseparated : PlainCommit separatedCommit := ⟨by decide, by decide, by simp [separatedCommit],
    by decide⟩
  constructor
  · apply (readBack_iff hplain).mpr
    right
    simp only [plainCommits, List.forall_mem_cons]
    exact ⟨⟨by decide, by decide, by decide, by decide, by simp⟩, ⟨by decide, by decide, by simp⟩,
      by simp⟩
  · apply (readBack_iff (List.forall_mem_cons.mpr ⟨hseparated, hplain⟩)).mpr
    exact Or.inl ⟨separatedCommit, List.mem_cons_self, by decide⟩

/-- A body that ends its own record and begins another: one commit is printed, and two are
read. -/
theorem not_readBack_forged : ¬∀ commits : List Commit, (∀ c ∈ commits, PlainCommit c) →
    ReadBack commits := by
  intro hall
  let body : Text := [fieldSep] ++ text "\n" ++ [recordSep] ++ text "def5678" ++ [fieldSep] ++
    text "2026-10-23" ++ [fieldSep] ++ text "Forged" ++ [fieldSep]
  let c : Commit := ⟨text "abc1234", text "2026-10-22", text "Work", body, []⟩
  have hplain : ∀ d ∈ [c], PlainCommit d := by
    rw [List.forall_mem_singleton]
    exact ⟨by decide, by decide, by decide, by decide⟩
  have hread : parseLog (printLog [c]) = some
      [⟨text "abc1234", text "2026-10-22", text "Work", [], []⟩,
        ⟨text "def5678", text "2026-10-23", text "Forged", [], []⟩] := by
    decide +kernel
  obtain hnone | hsome := hall [c] hplain
  · rw [hread] at hnone
    exact absurd hnone (Option.some_ne_none _)
  · rw [hread, Option.some_inj] at hsome
    exact absurd (congrArg List.length hsome) (by decide)

end Decode

end LocalGraphRag.Ingest
