import LocalGraphRag.Ingest.TextChunks

/-!
# Chunks of Markdown

A document is cut into sections at its headers, those inside a fenced block excepted. A
section that is too long is cut between its paragraphs, and a paragraph that is too long
is cut like plain text.

## Implementation notes

`final_chunks` is the list of what each `append` and each `extend` adds to it, so that the
cuts of the splitter are the boundaries in that list; the function returns its flattening.
-/

namespace LocalGraphRag.Ingest

open LocalGraphRag.Python LocalGraphRag.Sequences LocalGraphRag.Systems

section Sections

/-- `_FENCE_PATTERN` on one line: the marker and what is after it. -/
def fence (line : Text) : Option (Text × Text) :=
  let unindented := line.dropWhile fun c => c == 0x20
  let marker := unindented.takeWhile fun c => some c == unindented.head?
  if (line.takeWhile fun c => c == 0x20).length ≤ 3 ∧ 3 ≤ marker.length ∧
      (marker.head? = some 0x60 ∨ marker.head? = some 0x7e) then
    some (marker, unindented.drop marker.length)
  else none

/-- `HEADER_PATTERN`. -/
def isHeader (line : Text) : Bool :=
  let hashes := line.takeWhile fun c => c == 0x23
  1 ≤ hashes.length && hashes.length ≤ 6 && (line.drop hashes.length).head? == some 0x20

/-- The variables of the loop in `_split_markdown_sections`. -/
structure SectionState where
  sections : List Text
  current : List Text
  openFence : Option Text

/-- A backtick fence opens unless a backtick follows; a fence closes on its own character,
repeated at least as often, with nothing after it. -/
def nextFence (openFence : Option Text) (marker rest : Text) : Option Text :=
  match openFence with
  | none => if marker.head? = some 0x60 ∧ 0x60 ∈ rest then none else some marker
  | some opening =>
      if marker.head? = opening.head? ∧ opening.length ≤ marker.length ∧ strip rest = [] then none
      else some opening

/-- A header outside a fence starts a section. -/
def startSection (σ : SectionState) (line : Text) : SectionState :=
  match fence line with
  | some (marker, rest) => { σ with openFence := nextFence σ.openFence marker rest }
  | none =>
      if σ.openFence = none ∧ isHeader line = true ∧ σ.current ≠ [] then
        { σ with sections := σ.sections ++ [join (text "\n") σ.current], current := [] }
      else σ

def addLine (σ : SectionState) (line : Text) : SectionState :=
  { σ with current := σ.current ++ [line] }

/-- `_split_markdown_sections`. -/
def splitMarkdownSections (s : Text) : List Text :=
  let σ := (splitlines s).foldl (fun σ line => addLine (startSection σ line) line) ⟨[], [], none⟩
  let sections :=
    if σ.current ≠ [] then σ.sections ++ [join (text "\n") σ.current] else σ.sections
  (sections.filter fun s => strip s ≠ []).map strip

theorem nonSpace_newline : nonSpace (text "\n") = [] := by decide

/-- The text of the lines gone through. -/
def SectionState.seen (σ : SectionState) : Text :=
  (σ.sections.map nonSpace).flatten ++ (σ.current.map nonSpace).flatten

theorem seen_startSection (σ : SectionState) (line : Text) :
    (startSection σ line).seen = σ.seen := by
  unfold startSection
  split
  · rfl
  · split_ifs
    · simp only [SectionState.seen, nonSpace_concat, nonSpace_join nonSpace_newline,
        List.map_nil, List.flatten_nil, List.append_nil]
    · rfl

theorem seen_addLine (σ : SectionState) (line : Text) :
    (addLine σ line).seen = σ.seen ++ nonSpace line := by
  simp only [addLine, SectionState.seen, nonSpace_concat, List.append_assoc]

theorem seen_foldl (lines : List Text) :
    (lines.foldl (fun σ line => addLine (startSection σ line) line) ⟨[], [], none⟩).seen =
      (lines.map nonSpace).flatten := by
  apply foldl_invariant _ fun σ done => SectionState.seen σ = (done.map nonSpace).flatten
  · rfl
  · intro done line _ σ h
    rw [seen_addLine, seen_startSection, h, nonSpace_concat]

/-- Stripping the sections and leaving out the blank ones takes whitespace away. -/
theorem nonSpace_strip_sections (sections : List Text) :
    (((sections.filter fun s => strip s ≠ []).map strip).map nonSpace).flatten =
      (sections.map nonSpace).flatten := by
  have hstrip : ∀ parts : List Text, (parts.map strip).map nonSpace = parts.map nonSpace := by
    intro parts
    rw [List.map_map]
    exact List.map_congr_left fun part _ => nonSpace_strip part
  rw [hstrip]
  apply flatten_map_nonSpace_filter
  intro part hpart
  rw [← nonSpace_strip, not_not.mp (of_decide_eq_false hpart)]
  rfl

/-- The sections hold the document, in order. -/
theorem nonSpace_splitMarkdownSections (s : Text) :
    ((splitMarkdownSections s).map nonSpace).flatten = nonSpace s := by
  have hlines := seen_foldl (splitlines s)
  unfold splitMarkdownSections
  extract_lets σ sections
  have hsections : (sections.map nonSpace).flatten = σ.seen := by
    simp only [sections, SectionState.seen]
    split_ifs with hcurrent
    · rw [nonSpace_concat, nonSpace_join nonSpace_newline]
    · rw [not_not.mp hcurrent]
      exact (List.append_nil _).symm
  calc
    _ = (sections.map nonSpace).flatten := nonSpace_strip_sections sections
    _ = σ.seen := hsections
    _ = ((splitlines s).map nonSpace).flatten := hlines
    _ = nonSpace s := nonSpace_splitlines s

end Sections

section Paragraphs
variable (cfg : ChunkSettings)

/-- The variables of the loop in `_split_oversized_markdown_section`. -/
structure ParagraphState where
  finalChunks : List (List Text)
  buf : List Text
  bufLen : Nat

/-- The buffer is closed if the next paragraph does not fit. -/
def closeBuffer (σ : ParagraphState) (p : Text) : ParagraphState :=
  let additional := p.length + if σ.buf ≠ [] then 2 else 0
  if σ.buf ≠ [] ∧ σ.bufLen + additional > cfg.maxChunkChars then
    { finalChunks := σ.finalChunks ++ [[join (text "\n\n") σ.buf]], buf := [], bufLen := 0 }
  else σ

def addParagraph (σ : ParagraphState) (p : Text) : ParagraphState :=
  if p.length > cfg.maxChunkChars then
    { σ with finalChunks := σ.finalChunks ++ [chunkText cfg p] }
  else
    { σ with
      buf := σ.buf ++ [p]
      bufLen := σ.bufLen + (p.length + if σ.bufLen ≠ 0 then 2 else 0) }

/-- `_split_oversized_markdown_section`. -/
def splitOversizedMarkdownSection (s : Text) : List (List Text) :=
  if s.length ≤ cfg.maxChunkChars then [[s]]
  else
    let σ := (split (text "\n\n") s).foldl
      (fun σ p => addParagraph cfg (closeBuffer cfg σ p) p) ⟨[], [], 0⟩
    if σ.buf ≠ [] then σ.finalChunks ++ [[join (text "\n\n") σ.buf]] else σ.finalChunks

/-- The chunks of a document between the cuts at sections and paragraphs. -/
def markdownPieces (s : Text) : List (List Text) :=
  (splitMarkdownSections s).flatMap (splitOversizedMarkdownSection cfg)

def chunkMarkdown (s : Text) : List Text := (markdownPieces cfg s).flatten

theorem nonSpace_blankLine : nonSpace (text "\n\n") = [] := by decide

/-- The pieces cover the text. -/
def CoversDocument (pieces : List (List Text)) (content : Text) : Prop :=
  CoversPieces (fun c => !isSpace c) cfg.chunkOverlap pieces content

/-- The closed chunks and the buffer hold the paragraphs gone through. -/
def ParagraphsCovered (σ : ParagraphState) (done : List Text) : Prop :=
  ∃ closed, CoversDocument cfg σ.finalChunks closed ∧
    closed ++ (σ.buf.map nonSpace).flatten = (done.map nonSpace).flatten

variable {cfg} {σ : ParagraphState} {done : List Text}

/-- The buffer becomes a chunk. -/
theorem ParagraphsCovered.buffer (h : ParagraphsCovered cfg σ done) :
    CoversDocument cfg (σ.finalChunks ++ [[join (text "\n\n") σ.buf]])
      (done.map nonSpace).flatten := by
  obtain ⟨closed, hclosed, hdone⟩ := h
  have hbuf : CoversDocument cfg [[join (text "\n\n") σ.buf]] (σ.buf.map nonSpace).flatten := by
    rw [← nonSpace_join nonSpace_blankLine]
    exact (covers_singleton _).piece
  rw [← hdone]
  exact hclosed.append hbuf

theorem ParagraphsCovered.closeBuffer (h : ParagraphsCovered cfg σ done) (p : Text) :
    ParagraphsCovered cfg (closeBuffer cfg σ p) done := by
  by_cases hfull : σ.buf ≠ [] ∧
      σ.bufLen + (p.length + if σ.buf ≠ [] then 2 else 0) > cfg.maxChunkChars
  · rw [Ingest.closeBuffer, if_pos hfull]
    exact ⟨_, h.buffer, List.append_nil _⟩
  · rw [Ingest.closeBuffer, if_neg hfull]
    exact h

/-- Before a paragraph that is too long, the buffer is closed. -/
theorem closeBuffer_buf {p : Text} (hlong : p.length > cfg.maxChunkChars) :
    (closeBuffer cfg σ p).buf = [] := by
  by_cases hbuf : σ.buf = []
  · rw [closeBuffer, if_neg fun h => h.1 hbuf]
    exact hbuf
  · rw [closeBuffer, if_pos ⟨hbuf, by omega⟩]

theorem ParagraphsCovered.addParagraph (h : ParagraphsCovered cfg σ done) {p : Text}
    (hbuf : p.length > cfg.maxChunkChars → σ.buf = []) :
    ParagraphsCovered cfg (addParagraph cfg σ p) (done ++ [p]) := by
  obtain ⟨closed, hclosed, hdone⟩ := h
  by_cases hlong : p.length > cfg.maxChunkChars
  · rw [Ingest.addParagraph, if_pos hlong]
    refine ⟨_, hclosed.append (covers_chunkText cfg p).piece, ?_⟩
    rw [hbuf hlong, List.map_nil, List.flatten_nil, List.append_nil] at hdone
    rw [nonSpace_concat, ← hdone, hbuf hlong]
    exact List.append_nil _
  · rw [Ingest.addParagraph, if_neg hlong]
    refine ⟨closed, hclosed, ?_⟩
    rw [nonSpace_concat, nonSpace_concat, ← hdone, List.append_assoc]

theorem paragraphsCovered_foldl (paragraphs : List Text) :
    ParagraphsCovered cfg
      (paragraphs.foldl (fun σ p => addParagraph cfg (Ingest.closeBuffer cfg σ p) p) ⟨[], [], 0⟩)
      paragraphs := by
  apply foldl_invariant _ (ParagraphsCovered cfg)
  · exact ⟨[], coversPieces_nil, rfl⟩
  · exact fun _ p _ _ h => (h.closeBuffer p).addParagraph closeBuffer_buf

theorem covers_splitOversizedMarkdownSection (s : Text) :
    CoversDocument cfg (splitOversizedMarkdownSection cfg s) (nonSpace s) := by
  unfold splitOversizedMarkdownSection
  split_ifs with hshort
  · exact (covers_singleton s).piece
  · extract_lets σ
    have hend : ParagraphsCovered cfg σ (split (text "\n\n") s) := paragraphsCovered_foldl _
    have hall : ((split (text "\n\n") s).map nonSpace).flatten = nonSpace s := calc
      _ = nonSpace (join (text "\n\n") (split (text "\n\n") s)) :=
        (nonSpace_join nonSpace_blankLine _).symm
      _ = nonSpace s := by rw [join_split (by decide)]
    rw [← hall]
    split_ifs with hbuf
    · exact hend.buffer
    · obtain ⟨closed, hclosed, hdone⟩ := hend
      rw [not_not.mp hbuf, List.map_nil, List.flatten_nil, List.append_nil] at hdone
      exact hdone ▸ hclosed

/-- The pieces of a Markdown document cover it. -/
theorem covers_markdownPieces (s : Text) :
    CoversDocument cfg (markdownPieces cfg s) (nonSpace s) := by
  rw [← nonSpace_splitMarkdownSections, ← List.flatMap_def]
  apply coversPieces_flatMap
  intro part _
  exact covers_splitOversizedMarkdownSection part

end Paragraphs

end LocalGraphRag.Ingest
