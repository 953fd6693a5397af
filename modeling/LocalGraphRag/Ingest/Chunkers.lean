import LocalGraphRag.Graph.Records
import LocalGraphRag.Ingest.MarkdownChunks
import LocalGraphRag.Ingest.PythonChunks

/-!
# The chunks of a document

The suffix of a document's path says how it is cut. Plain text and Markdown lose nothing
but whitespace, and repeat nothing but the overlaps.
-/

namespace LocalGraphRag.Ingest

open LocalGraphRag.Python LocalGraphRag.Sequences

/-- `path.suffix`: the name from its last dot on, unless the dot is its first or last
character. Without a dot, the extension is the name. -/
def suffix (path : Text) : Text :=
  let name := (pathParts path).getLast?.getD []
  let extension := name.rtakeWhile fun c => c ≠ 0x2e
  if extension ≠ [] ∧ extension.length + 1 < name.length then 0x2e :: extension else []

/-- The documents that `chunk_document` takes for Markdown. -/
def IsMarkdown (path : Text) : Prop :=
  Graph.lower (suffix path) = text ".md" ∨ Graph.lower (suffix path) = text ".markdown"

instance (path : Text) : Decidable (IsMarkdown path) := inferInstanceAs (Decidable (_ ∨ _))

section Document
variable (cfg : ChunkSettings) (astParse : Text → Option (List AstNode)) (path s : Text)

/-- `chunk_document`. -/
def chunkDocument : List (Text × Option Text) :=
  if Graph.lower (suffix path) = text ".py" then chunkPython cfg astParse s
  else if IsMarkdown path then tagNone (chunkMarkdown cfg s)
  else tagNone (chunkText cfg s)

/-- The chunks of a document, between the cuts at the sections and paragraphs of
Markdown. -/
def documentPieces : List (List Text) :=
  if IsMarkdown path then markdownPieces cfg s else [chunkText cfg s]

theorem covers_documentPieces : CoversDocument cfg (documentPieces cfg path s) (nonSpace s) := by
  unfold documentPieces
  split_ifs
  · exact covers_markdownPieces s
  · exact (covers_chunkText cfg s).piece

theorem chunkDocument_eq (hsuffix : Graph.lower (suffix path) ≠ text ".py") :
    chunkDocument cfg astParse path s = tagNone (documentPieces cfg path s).flatten := by
  rw [chunkDocument, if_neg hsuffix, documentPieces]
  split_ifs
  · rfl
  · rw [List.flatten_singleton]

/-- The chunks are overlapping windows of the text, whose new parts are the text up to
whitespace; between two pieces there is no overlap. -/
theorem chunkDocument_covers (hsuffix : Graph.lower (suffix path) ≠ text ".py") :
    ∃ pieces : List (List (Window CodePoint)),
      chunkDocument cfg astParse path s = pieces.flatten.map (fun w => (w.content, none)) ∧
      Overlapping cfg.chunkOverlap [] pieces.flatten ∧
      (IsMarkdown path → pieces.map (List.map Window.content) = markdownPieces cfg s) ∧
      (∀ windows ∈ pieces, ∀ w ∈ windows.head?, w.overlap = []) ∧
      nonSpace (pieces.flatten.flatMap Window.fresh) = nonSpace s := by
  obtain ⟨pieces, hpieces, hoverlap, hcontent⟩ := covers_documentPieces cfg path s
  refine ⟨pieces, ?_, overlapping_flatten hoverlap, ?_, ?_, hcontent⟩
  · rw [chunkDocument_eq cfg astParse path s hsuffix, ← hpieces, ← List.map_flatten, tagNone,
      List.map_map]
    rfl
  · intro hmarkdown
    rw [hpieces, documentPieces, if_pos hmarkdown]
  · intro windows hwindows w hw
    have hstart := hoverlap windows hwindows
    cases windows with
    | nil => simp at hw
    | cons v windows =>
        obtain rfl : v = w := by simpa using hw
        exact List.suffix_nil.mp hstart.1

end Document

theorem chunkDocument_covers_sample :
    ∃ pieces : List (List (Window CodePoint)),
      chunkDocument ⟨4, 2, 6, by decide, by decide⟩ (fun _ => none) (text "/notes/a.MD")
        (text "# a\n\nbb cc dd\n# e") = pieces.flatten.map (fun w => (w.content, none)) ∧
      Overlapping 2 [] pieces.flatten ∧
      (IsMarkdown (text "/notes/a.MD") → pieces.map (List.map Window.content) =
        markdownPieces ⟨4, 2, 6, by decide, by decide⟩ (text "# a\n\nbb cc dd\n# e")) ∧
      (∀ windows ∈ pieces, ∀ w ∈ windows.head?, w.overlap = []) ∧
      nonSpace (pieces.flatten.flatMap Window.fresh) =
        nonSpace (text "# a\n\nbb cc dd\n# e") :=
  chunkDocument_covers ⟨4, 2, 6, by decide, by decide⟩ (fun _ => none) (text "/notes/a.MD")
    (text "# a\n\nbb cc dd\n# e") (by decide +kernel)

end LocalGraphRag.Ingest
