import LocalGraphRag.Graph.MemberHash
import LocalGraphRag.Graph.PromptLines
import LocalGraphRag.Python.Format
import LocalGraphRag.Python.Numerals
import LocalGraphRag.Sequences.Ranking

/-!
# The prompt of a summary

A large community would outgrow the time of a generation, so the prompt shows its
best-connected entities and its heaviest relationships. What it shows does not depend on the
order in which the rows come, of which the store promises none for the entities.

## Implementation notes

`degree` is a dictionary of the ids of some rows, and an id without a row has degree 0.
-/

namespace LocalGraphRag.Graph

open Python Relational Sequences

section Prompt
variable (entities : List EntityRow) (relationships : List CommunityEdge)

/-- `_MAX_SUMMARY_ENTITIES`. -/
def maxSummaryEntities : ℕ := 40

/-- `_MAX_SUMMARY_RELATIONSHIPS`. -/
def maxSummaryRelationships : ℕ := 60

/-- `_MAX_DESCRIPTION_CHARS`. -/
def maxDescriptionChars : ℕ := 300

/-- `degree[id]`, in which a relationship with itself counts twice. -/
def degree (id : Text) : ℕ :=
  relationships.countP (fun r => r.sourceId = id) + relationships.countP (fun r => r.targetId = id)

def entityKey (e : EntityRow) : ℕᵒᵈ ×ₗ Text :=
  toLex (OrderDual.toDual (degree relationships e.id), e.id)

def edgeKey (r : CommunityEdge) : ℚᵒᵈ ×ₗ Text ×ₗ Text ×ₗ Text :=
  toLex (OrderDual.toDual r.weight, toLex (r.sourceId, toLex (r.targetId, r.label)))

def shownEntities : List EntityRow :=
  (sortBy (entityKey relationships) entities).take maxSummaryEntities

def heaviestRelationships : List CommunityEdge :=
  (sortBy edgeKey relationships).take maxSummaryRelationships

def entityLine (e : EntityRow) : Text :=
  lineOfEntity e ((e.description.getD []).take maxDescriptionChars)

def relationshipLine (r : CommunityEdge) : Text := lineOfEdge entities r

/-- The line about the entities that are left out, if there are any. -/
def moreLine (shown : List EntityRow) : List Text :=
  if shown.length < entities.length then
    [text "- ... and " ++ natText (entities.length - shown.length) ++ text " more"]
  else []

def entityBlock (shown : List EntityRow) : Text :=
  text "Entities:\n" ++ join (text "\n") (shown.map entityLine ++ moreLine entities shown)

def relationshipBlock (heaviest : List CommunityEdge) : Text :=
  if heaviest = [] then []
  else text "Relationships:\n" ++ join (text "\n") (heaviest.map (relationshipLine entities)) ++
    text "\n"

/-- `_SUMMARIZE_PROMPT` before its first field. -/
def summarizeStart : Text :=
  text "You are summarizing a knowledge graph community for retrieval-augmented generation.\n\n"

/-- `_SUMMARIZE_PROMPT` after its last field. -/
def summarizeEnd : Text :=
  text "\nWrite a concise summary (3-5 sentences) of what this community is about, " ++
    text "the key entities and their roles, and how they relate to each other.\n\nSummary:"

/-- `_SUMMARIZE_PROMPT`. -/
def summarizePrompt : Text :=
  summarizeStart ++ text "\x7bentity_block\x7d\n\n\x7brelationship_block\x7d" ++ summarizeEnd

/-- `_build_summary_prompt`. -/
def buildSummaryPrompt : Option Text :=
  format [(text "entity_block", entityBlock entities (shownEntities entities relationships)),
    (text "relationship_block", relationshipBlock entities (heaviestRelationships relationships))]
    summarizePrompt

end Prompt

section Template
variable {entities : List EntityRow} {relationships : List CommunityEdge}

/-- The template never raises, and no block is read as a part of it. -/
theorem buildSummaryPrompt_eq : buildSummaryPrompt entities relationships =
    some (summarizeStart ++ entityBlock entities (shownEntities entities relationships) ++
      (text "\n\n" ++ relationshipBlock entities (heaviestRelationships relationships) ++
        summarizeEnd)) := by
  have hstart : format [] summarizeStart = some summarizeStart := by
    simp only [summarizeStart, text_ofList]
    decide +kernel
  have hend : format [] summarizeEnd = some summarizeEnd := by
    simp only [summarizeEnd, text_ofList]
    decide +kernel
  have htemplate : summarizePrompt = summarizeStart ++ fieldOf (text "entity_block") ++
      (text "\n\n" ++ fieldOf (text "relationship_block") ++ summarizeEnd) := by
    have hfields : text "\x7bentity_block\x7d\n\n\x7brelationship_block\x7d" =
        fieldOf (text "entity_block") ++ (text "\n\n" ++ fieldOf (text "relationship_block")) := by
      decide
    rw [summarizePrompt, hfields]
    simp only [List.append_assoc]
  rw [buildSummaryPrompt, htemplate]
  apply format_append_fieldOf (includes_refl _)
  · exact format_mono (includes_append [] _) hstart
  · exact ⟨by decide, by decide, by decide⟩
  · rfl
  · apply format_append_fieldOf (includes_append [] _)
    · decide +kernel
    · exact ⟨by decide, by decide, by decide⟩
    · rfl
    · exact hend

end Template

section Order
variable {entities entities' : List EntityRow} {relationships relationships' : List CommunityEdge}

theorem degree_perm (h : relationships.Perm relationships') (id : Text) :
    degree relationships id = degree relationships' id := by
  rw [degree, degree, h.countP_eq, h.countP_eq]

theorem shownEntities_perm (he : entities.Perm entities') (hr : relationships.Perm relationships')
    (hids : (entities.map EntityRow.id).Nodup) :
    shownEntities entities relationships = shownEntities entities' relationships' := by
  have hkey : entityKey relationships = entityKey relationships' := by
    funext e
    rw [entityKey, entityKey, degree_perm hr]
  rw [shownEntities, shownEntities, ← hkey, sortBy_congr_perm he]
  intro a ha b hb hab
  have hid : a.id = b.id := congrArg (fun k => (ofLex k).2) hab
  exact List.inj_on_of_nodup_map hids ha hb hid

theorem heaviestRelationships_perm (hr : relationships.Perm relationships')
    (hedges : (relationships.map fun r => (r.sourceId, r.targetId, r.label)).Nodup) :
    heaviestRelationships relationships = heaviestRelationships relationships' := by
  rw [heaviestRelationships, heaviestRelationships, sortBy_congr_perm hr]
  intro a ha b hb hab
  have hedge : (a.sourceId, a.targetId, a.label) = (b.sourceId, b.targetId, b.label) :=
    congrArg (fun k => ((ofLex (ofLex k).2).1, ofLex (ofLex (ofLex k).2).2)) hab
  exact List.inj_on_of_nodup_map hedges ha hb hedge

theorem buildSummaryPrompt_perm (he : entities.Perm entities')
    (hr : relationships.Perm relationships') (hids : (entities.map EntityRow.id).Nodup)
    (hedges : (relationships.map fun r => (r.sourceId, r.targetId, r.label)).Nodup) :
    buildSummaryPrompt entities relationships = buildSummaryPrompt entities' relationships' := by
  have hline : relationshipLine entities = relationshipLine entities' :=
    funext fun r => lineOfEdge_perm he hids r
  have hentities : ∀ shown, entityBlock entities shown = entityBlock entities' shown := by
    intro shown
    rw [entityBlock, entityBlock, moreLine, moreLine, he.length_eq]
  have hrelationships : ∀ heaviest,
      relationshipBlock entities heaviest = relationshipBlock entities' heaviest := by
    intro heaviest
    rw [relationshipBlock, relationshipBlock, hline]
  rw [buildSummaryPrompt_eq, buildSummaryPrompt_eq, shownEntities_perm he hr hids,
    heaviestRelationships_perm hr hedges, hentities, hrelationships]

end Order

section Store
variable {t : Tables} {communityId : ℕ} {entities : List EntityRow}
  {relationships : List CommunityEdge}

/-- The prompt of a community is the same for every order in which its rows come. It shows the
40 entities with the most relationships and says how many more there are, and it shows the 60
heaviest relationships; ties go to the smaller id and edge. -/
theorem summary_prompt (he : entities.Perm (t.entitiesForCommunity communityId))
    (hr : relationships.Perm (t.relationshipsForCommunity communityId)) :
    buildSummaryPrompt entities relationships = buildSummaryPrompt
      (t.entitiesForCommunity communityId) (t.relationshipsForCommunity communityId) ∧
    ∃ shown heaviest, Best (fun e e' => entityKey relationships e ≤ entityKey relationships e')
        maxSummaryEntities entities shown ∧
      Best (fun r r' => edgeKey r ≤ edgeKey r') maxSummaryRelationships relationships heaviest ∧
      buildSummaryPrompt entities relationships =
        some (summarizeStart ++ entityBlock entities shown ++
          (text "\n\n" ++ relationshipBlock entities heaviest ++ summarizeEnd)) := by
  refine ⟨buildSummaryPrompt_perm he hr ?_ ?_,
    _, _, best_sortBy _ _ _, best_sortBy _ _ _, buildSummaryPrompt_eq⟩
  · exact (he.map _).nodup_iff.mpr (nodup_entitiesForCommunity t communityId)
  · exact (hr.map _).nodup_iff.mpr (nodup_relationshipsForCommunity t communityId)

def aliceAndBob : List EntityRow :=
  [⟨text "alice", text "Alice", some (text "PERSON"), some (text "Writes."), some 0⟩,
    ⟨text "bob", text "Bob", none, none, some 0⟩]

/-- A community of two entities. -/
def couple : Tables :=
  { GraphStore.empty.toTables with
    entities := (∅ : Table EntityRow EntityRow.id).insertAllOrReplace aliceAndBob
    relationships := (∅ : Table RelationshipRow RelationshipRow.key).insertAllOrReplace
      [⟨text "alice", text "bob", text "knows", 2, text "a.md"⟩] }

theorem summary_prompt_couple :
    buildSummaryPrompt aliceAndBob.reverse (couple.relationshipsForCommunity 0) =
      buildSummaryPrompt aliceAndBob (couple.relationshipsForCommunity 0) := by
  have hrows : couple.entitiesForCommunity 0 = aliceAndBob := by decide +kernel
  have he : aliceAndBob.reverse.Perm (couple.entitiesForCommunity 0) := by
    rw [hrows]
    exact List.reverse_perm _
  rw [(summary_prompt he (List.Perm.refl _)).1, hrows]

example : buildSummaryPrompt aliceAndBob.reverse [⟨text "alice", text "bob", text "knows", 2⟩] =
    some (summarizeStart ++ text "Entities:\n- Alice (PERSON): Writes.\n- Bob (unknown): \n\n" ++
      text "Relationships:\n- Alice --[knows]--> Bob\n" ++ summarizeEnd) := by
  rw [buildSummaryPrompt_eq]
  decide +kernel

end Store

end LocalGraphRag.Graph
