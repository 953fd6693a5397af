import LocalGraphRag.Graph.Extractor
import LocalGraphRag.Python.Format
import LocalGraphRag.Python.Replace

/-!
# The prompt of an extraction request

The template fences the document between an opening and a closing tag, and the closing tags
in the document are escaped. The escaped tag and the closing tag are inert, and every line of
the template ends before the document begins, so the only closing tag is the template's.
-/

namespace LocalGraphRag.Graph

open Python

section Template

/-- `_ENTITY_TYPES`. -/
def entityTypes : List Text :=
  [text "FUNCTION", text "CLASS", text "MODULE", text "CONCEPT", text "PERSON", text "ORG",
    text "FILE", text "OTHER"]

/-- `_PROMPT_TEMPLATE` before the document, without the line of the opening tag. -/
def templateInstructions : Text :=
  join (text "\n")
    [text "You are an information extraction assistant. " ++
        text "Extract named entities and relationships from the text below. " ++
        text "Return ONLY valid JSON, no other text:",
      text "",
      text "\x7b\x7b",
      text "  \"entities\": [\x7b\x7b\"name\": \"string\", \"type\": \"string\", " ++
        text "\"description\": \"string\"\x7d\x7d],",
      text "  \"relationships\": [\x7b\x7b\"source\": \"string\", \"target\": \"string\", " ++
        text "\"label\": \"string\"\x7d\x7d]",
      text "\x7d\x7d",
      text "",
      text "Entity types: \x7btypes\x7d",
      text "Relationship labels: snake_case verbs " ++
        text "(uses, depends_on, calls, returns, extends, etc.)",
      text "Only extract entities clearly present in the text. " ++
        text "Return empty arrays if none found.",
      text "",
      text "Text:"]

/-- The line of the opening tag. -/
def openLine : Text := text "\n<document>\n"

def closeTag : Text := text "</document>"

def escapedTag : Text := text "<\\/document>"

/-- `_PROMPT_TEMPLATE` after the closing tag. -/
def templateEnd : Text :=
  text "\n\nNow extract the entities and relationships from the document above."

/-- `_PROMPT_TEMPLATE`. -/
def promptTemplate : Text :=
  templateInstructions ++ openLine ++ text "\x7btext\x7d" ++ text "\n" ++ closeTag ++ templateEnd

/-- `batch_text.replace("</document>", "<\\/document>")`. -/
def escapeDocument (batchText : Text) : Text := replace closeTag escapedTag batchText

/-- The argument `types`, which is the same for every batch. -/
def typesField : List (Text × Text) := [(text "types", join (text ", ") entityTypes)]

/-- The prompt that `_load_or_extract_batch` builds. -/
def buildPrompt (batchText : Text) : Option Text :=
  format (typesField ++ [(text "text", escapeDocument batchText)]) promptTemplate

theorem instructions_isSome : (format typesField templateInstructions).isSome = true := by
  simp only [templateInstructions, text_ofList]
  decide +kernel

/-- The instructions with the entity types in their place. -/
def instructions : Text := (format typesField templateInstructions).get instructions_isSome

/-- What stands before the document. -/
def promptBefore : Text := instructions ++ openLine

/-- What stands after it. -/
def promptAfter : Text := text "\n" ++ closeTag ++ templateEnd

theorem promptTemplate_eq : promptTemplate =
    templateInstructions ++ openLine ++ fieldOf (text "text") ++ promptAfter := by
  have hfield : text "\x7btext\x7d" = fieldOf (text "text") := by decide
  rw [promptTemplate, promptAfter, hfield]
  simp only [List.append_assoc]

theorem buildPrompt_eq (batchText : Text) :
    buildPrompt batchText = some (promptBefore ++ escapeDocument batchText ++ promptAfter) := by
  have hbefore : format typesField (templateInstructions ++ openLine) = some promptBefore := by
    have hinstructions : format typesField templateInstructions = some instructions :=
      (Option.some_get _).symm
    have hopen : format typesField openLine = some openLine := by decide +kernel
    have happend := formatFrom_append (includes_refl typesField) hinstructions openLine
    rw [format, happend]
    exact congrArg (Option.map (instructions ++ ·)) hopen
  have hafter : format typesField promptAfter = some promptAfter := by
    simp only [promptAfter, templateEnd, text_ofList]
    decide +kernel
  have hname : IsFieldName (text "text") := ⟨by decide, by decide, by decide⟩
  have hvalue : (typesField ++ [(text "text", escapeDocument batchText)]).lookup (text "text") =
      some (escapeDocument batchText) := by
    have htypes : typesField.lookup (text "text") = none := by decide
    rw [List.lookup_append, htypes, List.lookup_cons_self]
    rfl
  rw [buildPrompt, promptTemplate_eq]
  exact format_append_fieldOf (includes_append _ _) hbefore hname hvalue hafter

end Template

section Fence
variable {batchText before after : Text}

theorem inert_tags : Inert closeTag escapedTag := by
  constructor <;> decide +kernel

/-- No closing tag begins before the document, or in what follows the template's. -/
theorem not_infix_opening : ¬closeTag <:+: instructions ++ text "\n<document>" := by
  simp only [instructions, templateInstructions, text_ofList]
  decide +kernel

theorem not_infix_templateEnd : ¬closeTag <:+: templateEnd.tail := by
  simp only [templateEnd, text_ofList]
  decide +kernel

theorem newline_notMem_closeTag : cp '\n' ∉ closeTag := by decide

/-- The document stands between two newlines. -/
theorem promptBefore_lines (document rest : Text) :
    promptBefore ++ document ++ text "\n" ++ rest =
      (instructions ++ text "\n<document>") ++ cp '\n' :: (document ++ cp '\n' :: rest) := by
  have hopen : openLine = text "\n<document>" ++ [cp '\n'] := by decide
  have hline : text "\n" = [cp '\n'] := by decide
  rw [promptBefore, hopen, hline]
  simp only [List.append_assoc, List.cons_append, List.nil_append]

/-- A closing tag of the prompt comes after the document, and is the template's. -/
theorem closeTag_occurrence :
    promptBefore ++ escapeDocument batchText ++ promptAfter = before ++ closeTag ++ after ↔
      before = promptBefore ++ escapeDocument batchText ++ text "\n" ∧ after = templateEnd := by
  have hdocument : ¬closeTag <:+: escapeDocument batchText :=
    inert_tags.not_infix_replace batchText
  have hend : cp '\n' :: templateEnd.tail = templateEnd := rfl
  have hlast : ∀ rest, rest ++ closeTag ++ after = closeTag ++ templateEnd ↔
      rest = [] ∧ after = templateEnd := by
    intro rest
    rw [← hend]
    exact occurrence_at_start newline_notMem_closeTag not_infix_templateEnd
  have hprompt : promptBefore ++ escapeDocument batchText ++ promptAfter =
      (instructions ++ text "\n<document>") ++ cp '\n' :: (escapeDocument batchText ++
        cp '\n' :: (closeTag ++ templateEnd)) := by
    calc
      promptBefore ++ escapeDocument batchText ++ promptAfter =
          promptBefore ++ escapeDocument batchText ++ text "\n" ++ (closeTag ++ templateEnd) := by
        rw [promptAfter, List.append_assoc (text "\n"), ← List.append_assoc]
      _ = (instructions ++ text "\n<document>") ++ cp '\n' :: (escapeDocument batchText ++
          cp '\n' :: (closeTag ++ templateEnd)) := promptBefore_lines _ _
  have hbefore := promptBefore_lines (escapeDocument batchText) []
  rw [List.append_nil] at hbefore
  rw [hprompt, hbefore, eq_comm, occurrence_after newline_notMem_closeTag not_infix_opening]
  constructor
  · intro ⟨rest, hopening, hrest⟩
    obtain ⟨last, rfl, hclose⟩ :=
      (occurrence_after newline_notMem_closeTag hdocument).mp hrest
    obtain ⟨rfl, hafter⟩ := (hlast last).mp hclose
    exact ⟨hopening, hafter⟩
  · intro ⟨hopening, hafter⟩
    refine ⟨_, hopening, (occurrence_after newline_notMem_closeTag hdocument).mpr ?_⟩
    exact ⟨[], rfl, (hlast []).mpr ⟨rfl, hafter⟩⟩

/-- The prompt is the instructions, the line of the opening tag and, up to the only closing
tag, the text with an escaped tag for each closing tag. -/
structure Fenced (batchText prompt : Text) : Prop where
  fence : prompt = instructions ++ openLine ++ escapeDocument batchText ++ text "\n" ++ closeTag ++
    templateEnd
  once : ∀ before after, prompt = before ++ closeTag ++ after ↔
    before = instructions ++ openLine ++ escapeDocument batchText ++ text "\n" ∧
      after = templateEnd
  pieces : ∃ pieces, pieces ≠ [] ∧ (∀ piece ∈ pieces, ¬closeTag <:+: piece) ∧
    batchText = join closeTag pieces ∧ escapeDocument batchText = join escapedTag pieces

/-- No text can close its own fence. -/
theorem prompt_fenced (batchText : Text) :
    ∃ prompt, buildPrompt batchText = some prompt ∧ Fenced batchText prompt := by
  refine ⟨_, buildPrompt_eq batchText, ?_⟩
  constructor
  · rw [promptBefore, promptAfter]
    simp only [List.append_assoc]
  · exact fun before after => closeTag_occurrence
  · exact ⟨split closeTag batchText, splitFrom_ne_nil _ _ _,
      not_infix_of_mem_split inert_tags.old_ne_nil, (join_split inert_tags.old_ne_nil _).symm,
      replace_eq_join _ _ _⟩

/-- The two sides of a replaced tag do not become one. -/
example : escapeDocument (text "</docu</document>ment>") = text "</docu<\\/document>ment>" := by
  decide

end Fence

/-- The settings whose prompts are the template's. -/
def ExtractSettings.withTemplate (cfg : ExtractSettings) : ExtractSettings :=
  { cfg with promptHead := promptBefore, promptTail := promptAfter }

/-- A batch is requested, and its reply cached, under the prompt that is built for it. -/
theorem batchPayload_withTemplate (cfg : ExtractSettings) (batchText : Text) :
    (buildPrompt batchText).map (buildGeneratePayload cfg.withTemplate) =
      some (batchPayload cfg.withTemplate batchText) :=
  congrArg (Option.map (buildGeneratePayload cfg.withTemplate)) (buildPrompt_eq batchText)

end LocalGraphRag.Graph
