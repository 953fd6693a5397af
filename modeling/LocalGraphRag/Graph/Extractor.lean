import LocalGraphRag.Graph.RecordStore
import LocalGraphRag.Python.Json
import Mathlib.Data.List.Sort

/-!
# Extraction: prompts, replies and their normalisation

The pure part of the extractor. A reply is any text: it is decoded as JSON,
whole or from its outermost braces, and every field that is missing or of the
wrong type counts as empty. Normalisation then keeps one entity per slug and
the relationships between kept entities.
-/

namespace LocalGraphRag.Graph

open Python

/-- A relationship as the extractor returns it. -/
structure Relationship where
  source : Text
  target : Text
  label : Text
  deriving DecidableEq

/-- A decoded JSON object. -/
abbrev Members := List (Text × Json)

/-- What one reply contributes, before normalisation. -/
structure RawResult where
  entities : List Members
  relationships : List Members

structure ExtractionResult where
  entities : List Entity
  relationships : List Relationship
  hadFailure : Bool
  relationshipsExtracted : Nat
  deriving DecidableEq

/-- `ExtractionResult()`. -/
def ExtractionResult.empty : ExtractionResult := ⟨[], [], false, 0⟩

section Parse

/-- The items that are objects, of a value that is an array. -/
def asDictList : Option Json → List Members
  | some (.arr items) => items.filterMap fun item => match item with
      | .obj members => some members
      | _ => none
  | _ => []

def dictToResult : Json → RawResult
  | .obj members =>
      ⟨asDictList (Json.get members (text "entities")),
        asDictList (Json.get members (text "relationships"))⟩
  | _ => ⟨[], []⟩

/-- What `\{.*\}` finds: from the first opening to the last closing brace. -/
def outermostBraces (s : Text) : Text :=
  (s.dropWhile fun c => c ≠ cp '\x7b').rdropWhile fun c => c ≠ cp '\x7d'

/-- Parse a reply: the whole text, then its outermost braces, else nothing. -/
def parseExtractionResponse (recursionLimit : Nat) (response : Text) : RawResult :=
  let s := strip response
  match Json.loads recursionLimit s with
  | some data => dictToResult data
  | none =>
      match Json.loads recursionLimit (outermostBraces s) with
      | some data => dictToResult data
      | none => ⟨[], []⟩

/-- A stripped string field, or nothing when the reply holds another type. -/
def fieldText : Option Json → Text
  | some (.str s) => strip s
  | _ => []

@[simp] theorem strip_fieldText (value : Option Json) :
    strip (fieldText value) = fieldText value := by
  unfold fieldText
  split
  · exact strip_strip _
  · rfl

/-- `_text(value) or None`. -/
def optionalText (value : Option Json) : Option Text :=
  if fieldText value = [] then none else some (fieldText value)

end Parse

section Normalize

/-- A later item with the slug of an earlier one: the longer description wins,
and a missing type is filled in. -/
def mergeEntity (existing : Entity) (type : Option Text) (description : Text) : Entity :=
  { existing with
    description := if existing.description.length < description.length then description
      else existing.description
    type := if existing.type = none then type else existing.type }

/-- One round of the loop of `_normalize_entities` over its slug-keyed dict. -/
def addEntity (bySlug : List (Text × Entity)) (item : Members) : List (Text × Entity) :=
  let name := fieldText (Json.get item (text "name"))
  let slug := slugify name
  if slug = [] then bySlug
  else
    let type := optionalText (Json.get item (text "type"))
    let description := fieldText (Json.get item (text "description"))
    if slug ∈ bySlug.map Prod.fst then
      bySlug.map fun p => if p.1 = slug then (p.1, mergeEntity p.2 type description) else p
    else bySlug ++ [(slug, ⟨name, type, description⟩)]

/-- The kept entities by slug, in the order their slugs first occur. -/
def entitiesBySlug (items : List Members) : List (Text × Entity) :=
  items.foldl addEntity []

def normalizeEntities (items : List Members) : List Entity × List Text :=
  ((entitiesBySlug items).map Prod.snd, (entitiesBySlug items).map Prod.fst)

def normalizeRelationship (validSlugs : List Text) (item : Members) : Option Relationship :=
  let source := fieldText (Json.get item (text "source"))
  let target := fieldText (Json.get item (text "target"))
  let label := fieldText (Json.get item (text "label"))
  if source = [] ∨ target = [] ∨ label = [] then none
  else if slugify source ∉ validSlugs ∨ slugify target ∉ validSlugs then none
  else some ⟨source, target, label⟩

def normalizeRelationships (items : List Members) (validSlugs : List Text) :
    List Relationship :=
  items.filterMap (normalizeRelationship validSlugs)

def normalizeExtractionResult (entities relationships : List Members)
    (hadFailure : Bool) : ExtractionResult :=
  let normalized := normalizeEntities entities
  ⟨normalized.1, normalizeRelationships relationships normalized.2, hadFailure,
    relationships.length⟩

/-- Every kept entity has a stripped name, and is listed under its slug, which is
not empty. -/
theorem entitiesBySlug_slug (items : List Members) : ∀ p ∈ entitiesBySlug items,
    strip p.2.name = p.2.name ∧ slugify p.2.name = p.1 ∧ p.1 ≠ [] := by
  have hstep : ∀ (l : List (Text × Entity)) (item : Members),
      (∀ p ∈ l, strip p.2.name = p.2.name ∧ slugify p.2.name = p.1 ∧ p.1 ≠ []) →
        ∀ p ∈ addEntity l item,
          strip p.2.name = p.2.name ∧ slugify p.2.name = p.1 ∧ p.1 ≠ [] := by
    intro l item hl p hp
    simp only [addEntity] at hp
    split_ifs at hp with hslug hmem
    · exact hl p hp
    · obtain ⟨q, hq, rfl⟩ := List.mem_map.mp hp
      split_ifs
      · exact hl q hq
      · exact hl q hq
    · obtain hp | hp := List.mem_append.mp hp
      · exact hl p hp
      · rw [List.mem_singleton] at hp
        subst hp
        dsimp only
        exact ⟨strip_fieldText _, rfl, hslug⟩
  have hfold : ∀ l : List (Text × Entity),
      (∀ p ∈ l, strip p.2.name = p.2.name ∧ slugify p.2.name = p.1 ∧ p.1 ≠ []) →
        ∀ p ∈ items.foldl addEntity l,
          strip p.2.name = p.2.name ∧ slugify p.2.name = p.1 ∧ p.1 ≠ [] := by
    induction items with
    | nil => exact fun l hl => hl
    | cons item items ih =>
        intro l hl
        rw [List.foldl_cons]
        exact ih (addEntity l item) (hstep l item hl)
  exact hfold [] (by simp)

/-- The slugs of the kept entities are distinct. -/
theorem entitiesBySlug_nodup (items : List Members) :
    ((entitiesBySlug items).map Prod.fst).Nodup := by
  have hstep : ∀ (l : List (Text × Entity)) (item : Members),
      (l.map Prod.fst).Nodup → ((addEntity l item).map Prod.fst).Nodup := by
    intro l item hl
    simp only [addEntity]
    split_ifs with hslug hmem
    · exact hl
    · have hfst : ∀ p ∈ l, (Prod.fst ∘ fun p : Text × Entity =>
          if p.1 = slugify (fieldText (Json.get item (text "name"))) then
            (p.1, mergeEntity p.2 (optionalText (Json.get item (text "type")))
              (fieldText (Json.get item (text "description"))))
          else p) p = p.1 := by
        intro p _
        simp only [Function.comp_apply]
        split_ifs <;> rfl
      rw [List.map_map, List.map_congr_left hfst]
      exact hl
    · rw [List.map_append, List.nodup_append]
      refine ⟨hl, by simp, ?_⟩
      rintro a ha b hb rfl
      simp only [List.map_cons, List.map_nil, List.mem_singleton] at hb
      exact hmem (hb ▸ ha)
  have hfold : ∀ l : List (Text × Entity), (l.map Prod.fst).Nodup →
      ((items.foldl addEntity l).map Prod.fst).Nodup := by
    induction items with
    | nil => exact fun l hl => hl
    | cons item items ih =>
        intro l hl
        rw [List.foldl_cons]
        exact ih (addEntity l item) (hstep l item hl)
  exact hfold [] List.nodup_nil

/-- The store files the normalised entities under the slugs the normaliser kept. -/
theorem normalizeEntities_slugs (items : List Members) :
    (normalizeEntities items).1.map GraphStore.entitySlug = (normalizeEntities items).2 := by
  simp only [normalizeEntities, List.map_map]
  apply List.map_congr_left
  intro p hp
  obtain ⟨hname, hslug, -⟩ := entitiesBySlug_slug items p hp
  simp only [Function.comp_apply, GraphStore.entitySlug, hname, hslug]

/-- Every kept entity has a slug, and its name is stripped already. -/
theorem normalizeEntities_stripped (items : List Members) :
    ∀ e ∈ (normalizeEntities items).1, strip e.name = e.name ∧ GraphStore.entitySlug e ≠ [] := by
  intro e he
  obtain ⟨p, hp, rfl⟩ := List.mem_map.mp he
  obtain ⟨hname, hslug, hne⟩ := entitiesBySlug_slug items p hp
  rw [GraphStore.entitySlug, hname, hslug]
  exact ⟨rfl, hne⟩

/-- The endpoints of a kept relationship have valid slugs. -/
theorem normalizeRelationships_endpoints {items : List Members} {validSlugs : List Text}
    {r : Relationship} (h : r ∈ normalizeRelationships items validSlugs) :
    slugify r.source ∈ validSlugs ∧ slugify r.target ∈ validSlugs := by
  obtain ⟨item, -, hitem⟩ := List.mem_filterMap.mp h
  simp only [normalizeRelationship] at hitem
  split_ifs at hitem with hempty hvalid
  cases hitem
  rw [not_or, not_not, not_not] at hvalid
  exact hvalid

end Normalize

section Requests

/-- `_estimate_tokens`. -/
def estimateTokens (s : Text) : Nat := s.length / 4

def batchSeparator : Text := text "\n\n---\n\n"

/-- The loop of `_build_batches`: closed batches, open parts and their tokens. -/
def addToBatch (batchTokens : Nat) (acc : List Text × List Text × Nat) (chunk : Text) :
    List Text × List Text × Nat :=
  let (batches, parts, tokens) := acc
  if parts ≠ [] ∧ batchTokens < tokens + estimateTokens chunk then
    (batches ++ [join batchSeparator parts], [chunk], estimateTokens chunk)
  else (batches, parts ++ [chunk], tokens + estimateTokens chunk)

def buildBatches (batchTokens : Nat) (chunks : List Text) : List Text :=
  let (batches, parts, _) := chunks.foldl (addToBatch batchTokens) ([], [], 0)
  if parts ≠ [] then batches ++ [join batchSeparator parts] else batches

/-- What an extraction request is made of, besides its text. These are module
constants and settings: they change between runs, not within one. -/
structure ExtractSettings where
  model : Text
  promptHead : Text
  promptTail : Text
  format : Json
  options : List (Text × Json)
  numCtx : Text
  keepAlive : Text
  batchTokens : Nat
  recursionLimit : Nat

/-- The prompt of a batch: the text is fenced, and cannot close its own fence. -/
def extractionPrompt (cfg : ExtractSettings) (batchText : Text) : Text :=
  cfg.promptHead ++ replace (text "</document>") (text "<\\/document>") batchText ++
    cfg.promptTail

/-- `{"num_ctx": OLLAMA_NUM_CTX, **options}` with sorted keys. -/
def mergeOptions (cfg : ExtractSettings) : List (Text × Json) :=
  let numCtx := (text "num_ctx", Json.num cfg.numCtx)
  let merged := if text "num_ctx" ∈ cfg.options.map Prod.fst then cfg.options
    else numCtx :: cfg.options
  merged.insertionSort fun a b => a.1 ≤ b.1

/-- The request body without `keep_alive`, keys sorted. -/
def buildGeneratePayload (cfg : ExtractSettings) (prompt : Text) : Json :=
  .obj [(text "format", cfg.format), (text "model", .str cfg.model),
    (text "options", .obj (mergeOptions cfg)), (text "prompt", .str prompt),
    (text "stream", .bool false)]

/-- The payload of one batch. -/
def batchPayload (cfg : ExtractSettings) (batchText : Text) : Json :=
  buildGeneratePayload cfg (extractionPrompt cfg batchText)

/-- The cache key of a request: SHA-256 of its JSON text. -/
def requestDigest (sha256 : Bytes → Text) (payload : Json) : Text :=
  sha256 (utf8 payload.dumps)

end Requests

end LocalGraphRag.Graph
