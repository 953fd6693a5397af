import LocalGraphRag.Python.Format
import LocalGraphRag.Rag.ProjectScope

/-!
# The query router

A small model says whether a question is about something named or about everything. Where its
reply is of no use, or there is none, the words of the question decide.

## Implementation notes

`[\w-]+` stops at the first character that is neither a word character nor a hyphen, which a
dot is not, so the name of a file is looked for as far as that.
-/

namespace LocalGraphRag.Rag

open LocalGraphRag.Python LocalGraphRag.Sequences

inductive Route where
  | local
  | global
  deriving DecidableEq

/-- `_GLOBAL_KEYWORDS`. -/
def globalKeywords : List Text :=
  [text "theme", text "themes", text "overview", text "summarize", text "summary",
    text "main", text "overall", text "across", text "everything", text "codebase"]

/-- The extensions of `_FILENAME_RE`. -/
def fileExtensions : List Text :=
  [text "md", text "py", text "ts", text "tsx", text "js", text "jsx", text "json", text "yaml",
    text "yml", text "toml", text "go", text "rs", text "txt"]

section FileNames
variable (isWord : CodePoint → Bool)

/-- `\b` between two characters. -/
def atBoundary (last next : Option CodePoint) : Bool := last.any isWord != next.any isWord

/-- `[\w-]`. -/
def isNameChar (c : CodePoint) : Bool := isWord c || c == cp '-'

/-- One of the extensions begins here, and a word ends with it. -/
def extensionAt (s : Text) : Bool :=
  fileExtensions.any fun ext => ext.isPrefixOf s &&
    atBoundary isWord ext.getLast? (s.drop ext.length).head?

/-- `_FILENAME_RE` matches here. -/
def fileNameAt (last : Option CodePoint) (s : Text) : Bool :=
  let name := s.takeWhile (isNameChar isWord)
  let rest := s.dropWhile (isNameChar isWord)
  atBoundary isWord last s.head? && !name.isEmpty && rest.head? == some (cp '.') &&
    extensionAt isWord rest.tail

def searchFileName : Option CodePoint → Text → Bool
  | last, [] => fileNameAt isWord last []
  | last, c :: s => fileNameAt isWord last (c :: s) || searchFileName (some c) s

end FileNames

section Route
variable {ε : Type} (lowering : Lowering) (isWord : CodePoint → Bool) (question : Text)

/-- `_heuristic`. -/
def heuristic : Route :=
  let lowered := lowering.lower question
  if searchFileName isWord none lowered then .local
  else
    let words := maximalRuns (fun c => 0x61 ≤ c.val && c.val ≤ 0x7a) lowered
    if words.any (· ∈ globalKeywords) then .global else .local

/-- `_ROUTER_PROMPT`. -/
def routerPrompt : Text :=
  text "Classify this question as either \"local\" or \"global\".\n\n" ++
    text "- \"local\": asks about a specific entity, function, class, file, or project by name " ++
    text "\u2014\n  including \"summarize <a named file or project>\"\n" ++
    text "- \"global\": asks for themes, summaries, or patterns across the WHOLE codebase, not\n" ++
    text "  about one named file or project\n\nExamples:\n" ++
    text "Question: Summarize vectorless-rag.md\nAnswer: local\n\n" ++
    text "Question: What does GraphStore do?\nAnswer: local\n\n" ++
    text "Question: Summarize the codebase\nAnswer: global\n\n" ++
    text "Question: What are the main themes across the codebase?\nAnswer: global\n\n" ++
    text "Reply with exactly one word: local or global.\n\n" ++
    text "Question: \x7bquestion\x7d\nAnswer:"

/-- The punctuation that is stripped from the first word of a reply. -/
def replyPunctuation : Text := text ".,:;!\"'" ++ [0x60]

/-- The route that a reply names. -/
def routeOfReply (response : Text) : Option Route :=
  let words := maximalRuns (fun c => !isSpace c) (lowering.lower (strip response))
  let answer := stripWhile replyPunctuation.contains (words.head?.getD [])
  if answer = text "local" then some .local
  else if answer = text "global" then some .global
  else none

/-- `route_query`, where `generate` is what the model replies to a prompt or raises. -/
def routeQuery (communitiesAvailable : Bool) (generate : Text → Except ε Text) : Route :=
  if communitiesAvailable then
    let reply := (format [(text "question", question)] routerPrompt).bind fun prompt =>
      (generate prompt).toOption
    (reply.bind (routeOfReply lowering)).getD (heuristic lowering isWord question)
  else .local

end Route

end LocalGraphRag.Rag
