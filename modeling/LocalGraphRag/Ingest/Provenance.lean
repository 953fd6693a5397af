import LocalGraphRag.Ingest.FileWrites

/-!
# Provenance of the graph

The merged types and descriptions of entities are refreshed only for the
entities an operation touches. `Reflects` says what the tables are in terms of
the documents currently indexed; every operation keeps it, so no history shows.
-/

namespace LocalGraphRag.Ingest

open Python Relational LocalGraphRag.Graph

/-- What a document is indexed with, after normalisation: entities with distinct
slugs, relationships and links among them and the document's own chunks. -/
structure DocContent where
  chunkIds : List Text
  entities : List Entity
  relationships : List (Text × Text × Text)
  links : List (Text × Text)
  chunkIds_nodup : chunkIds.Nodup
  slugs_nodup : (entities.map GraphStore.entitySlug).Nodup
  endpoints : ∀ r ∈ relationships, r.1 ∈ entities.map GraphStore.entitySlug ∧
    r.2.1 ∈ entities.map GraphStore.entitySlug
  links_own : ∀ l ∈ links, l.1 ∈ chunkIds ∧ l.2 ∈ entities.map GraphStore.entitySlug

namespace DocContent

def slugs (c : DocContent) : Finset Text := (c.entities.map GraphStore.entitySlug).toFinset

theorem mem_slugs {c : DocContent} {id : Text} :
    id ∈ c.slugs ↔ ∃ e ∈ c.entities, GraphStore.entitySlug e = id := by
  rw [slugs, List.mem_toFinset, List.mem_map]

/-- The slugs of a content are the entities its mentions name. -/
theorem mem_slugs_iff_mentioned (doc : Text) {c : DocContent} {id : Text} :
    id ∈ c.slugs ↔ ∃ m ∈ c.entities.map (GraphStore.mentionRow doc), m.entityId = id := by
  rw [mem_slugs]
  constructor
  · rintro ⟨e, he, hid⟩
    refine ⟨GraphStore.mentionRow doc e, List.mem_map_of_mem he, ?_⟩
    rw [GraphStore.mentionRow_entityId, hid]
  · rintro ⟨m, hm, hid⟩
    obtain ⟨e, he, rfl⟩ := List.mem_map.mp hm
    rw [GraphStore.mentionRow_entityId] at hid
    exact ⟨e, he, hid⟩

/-- The rows given to `upsert_relationships`. -/
def relationshipKeys (doc : Text) (c : DocContent) : List (Text × Text × Text × Text) :=
  c.relationships.map fun r => (r.1, r.2.1, r.2.2, doc)

end DocContent

/-- One operation of the pipeline on one document. -/
inductive DocOp where
  | index (doc : Text) (content : DocContent)
  | deleteFileData (doc : Text)
  | purgeFile (doc : Text)

namespace DocOp

def doc : DocOp → Text
  | index d _ | deleteFileData d | purgeFile d => d

/-- The content the operation leaves its document with. -/
def content : DocOp → Option DocContent
  | index _ c => some c
  | deleteFileData _ | purgeFile _ => none

/-- The store methods of an operation, in order; an exception of one ends it. -/
def apply (s : GraphStore) : DocOp → Except StoreError GraphStore
  | index d c => do
      let s ← s.deleteFileData d
      let s ← s.registerChunks (chunkRows d c.chunkIds)
      let (_, s) ← s.upsertEntities c.entities d
      let s ← s.upsertRelationships (c.relationshipKeys d)
      s.linkChunks c.links
  | deleteFileData d => s.deleteFileData d
  | purgeFile d => s.purgeFile d

/-- The documents indexed after an operation, with their contents. -/
def track (docs : Text → Option DocContent) (op : DocOp) : Text → Option DocContent :=
  Function.update docs op.doc op.content

/-- The chunk ids of an indexed document are not in use by another. -/
def Fresh (docs : Text → Option DocContent) (op : DocOp) : Prop :=
  ∀ c ∈ op.content, ∀ d ≠ op.doc, ∀ c' ∈ docs d, ∀ id ∈ c.chunkIds, id ∉ c'.chunkIds

end DocOp

/-- The map from each indexed document to its last indexed content. -/
def lastIndexed (ops : List DocOp) : Text → Option DocContent :=
  ops.foldl DocOp.track fun _ => none

/-- Operations whose chunk ids are fresh whenever a document is indexed. -/
def FreshIds (ops : List DocOp) : Prop :=
  ∀ done op rest, ops = done ++ op :: rest → op.Fresh (lastIndexed done)

/-- The store after some operations on an empty one, if none raises. -/
def applyOps (ops : List DocOp) : Except StoreError GraphStore :=
  ops.foldlM DocOp.apply GraphStore.empty

/-- The tables are what the indexed documents make them. -/
structure Reflects (docs : Text → Option DocContent) (t : Tables) : Prop where
  chunks : ∀ c, c ∈ t.chunks ↔
    ∃ x ∈ docs c.filepath, c ∈ chunkRows c.filepath x.chunkIds
  mentions : ∀ m, m ∈ t.entityMentions ↔
    ∃ x ∈ docs m.sourceDoc, m ∈ x.entities.map (GraphStore.mentionRow m.sourceDoc)
  relationships : ∀ r, r ∈ t.relationships ↔
    ∃ x ∈ docs r.sourceDoc, r ∈ countedRelationships (x.relationshipKeys r.sourceDoc)
  links : ∀ l, l ∈ t.chunkEntities ↔ ∃ d, ∃ x ∈ docs d, (l.chunkId, l.entityId) ∈ x.links
  entities : ∀ id, (∃ e ∈ t.entities, e.id = id) ↔ ∃ m ∈ t.entityMentions, m.entityId = id
  merged : ∀ e ∈ t.entities, e.type = commonType (t.mentionsOf e.id) ∧
    e.description = longestDescription (t.mentionsOf e.id)

/-- The graph of two databases is the same: rows, and entities up to names. -/
structure SameGraph (t u : Tables) : Prop where
  chunks : t.chunks = u.chunks
  chunkEntities : t.chunkEntities = u.chunkEntities
  relationships : t.relationships = u.relationships
  entityMentions : t.entityMentions = u.entityMentions
  entities : ∀ id type description,
    (∃ e ∈ t.entities, e.id = id ∧ e.type = type ∧ e.description = description) ↔
      ∃ e ∈ u.entities, e.id = id ∧ e.type = type ∧ e.description = description

section Reflects
variable {docs : Text → Option DocContent} {t : Tables}

theorem mentionsOf_congr {t u : Tables} {id : Text}
    (h : ∀ m, m.entityId = id → (m ∈ t.entityMentions ↔ m ∈ u.entityMentions)) :
    t.mentionsOf id = u.mentionsOf id := by
  ext m
  simp only [Tables.mentionsOf, Table.mem_select]
  exact and_congr_left fun hid => h m hid

/-- The endpoints of a document's relationships are entities it mentions. -/
theorem Reflects.endpoint_mentioned (h : Reflects docs t) {r : RelationshipRow}
    (hr : r ∈ t.relationships) :
    (∃ m ∈ t.entityMentions, m.entityId = r.sourceId ∧ m.sourceDoc = r.sourceDoc) ∧
      ∃ m ∈ t.entityMentions, m.entityId = r.targetId ∧ m.sourceDoc = r.sourceDoc := by
  obtain ⟨x, hx, hkeys⟩ := (h.relationships r).mp hr
  obtain ⟨k, hk, hkr⟩ := List.mem_map.mp (mem_countedRelationships.mp hkeys).1
  have hmention : ∀ slug ∈ x.entities.map GraphStore.entitySlug,
      ∃ m ∈ t.entityMentions, m.entityId = slug ∧ m.sourceDoc = r.sourceDoc := by
    intro slug hslug
    obtain ⟨e, he, rfl⟩ := List.mem_map.mp hslug
    have hm : GraphStore.mentionRow r.sourceDoc e ∈ t.entityMentions :=
      (h.mentions _).mpr ⟨x, hx, List.mem_map_of_mem he⟩
    exact ⟨_, hm, GraphStore.mentionRow_entityId r.sourceDoc e, rfl⟩
  have hends := x.endpoints k hk
  have hsource : k.1 = r.sourceId := congrArg Prod.fst hkr
  have htarget : k.2.1 = r.targetId := congrArg (fun z => z.2.1) hkr
  rw [hsource, htarget] at hends
  exact ⟨hmention _ hends.1, hmention _ hends.2⟩

/-- A linked entity is mentioned by the document that owns the chunk. -/
theorem Reflects.link_mentioned (h : Reflects docs t) {l : LinkRow}
    (hl : l ∈ t.chunkEntities) : ∃ m ∈ t.entityMentions, m.entityId = l.entityId ∧
      ∃ c ∈ t.chunks, c.chunkId = l.chunkId ∧ c.filepath = m.sourceDoc := by
  obtain ⟨d, x, hx, hlink⟩ := (h.links l).mp hl
  obtain ⟨hid, hslug⟩ := x.links_own _ hlink
  obtain ⟨e, he, hel⟩ := List.mem_map.mp hslug
  obtain ⟨i, hi⟩ := List.getElem?_of_mem hid
  have hm : GraphStore.mentionRow d e ∈ t.entityMentions :=
    (h.mentions _).mpr ⟨x, hx, List.mem_map_of_mem he⟩
  have hc : ⟨l.chunkId, d, i⟩ ∈ t.chunks :=
    (h.chunks _).mpr ⟨x, hx, (mem_chunkRows d).mpr ⟨hi, rfl⟩⟩
  exact ⟨_, hm, (GraphStore.mentionRow_entityId d e).trans hel, _, hc, rfl, rfl⟩

/-- Tables that reflect the same documents hold the same graph. -/
theorem Reflects.sameGraph {u : Tables} (ht : Reflects docs t) (hu : Reflects docs u) :
    SameGraph t u := by
  have hmentions : t.entityMentions = u.entityMentions :=
    Table.ext_mem fun m => (ht.mentions m).trans (hu.mentions m).symm
  refine ⟨Table.ext_mem fun c => (ht.chunks c).trans (hu.chunks c).symm,
    Table.ext_mem fun l => (ht.links l).trans (hu.links l).symm,
    Table.ext_mem fun r => (ht.relationships r).trans (hu.relationships r).symm,
    hmentions, ?_⟩
  have hhalf : ∀ {t u : Tables}, Reflects docs t → Reflects docs u →
      t.entityMentions = u.entityMentions → ∀ e ∈ t.entities,
        ∃ e' ∈ u.entities, e'.id = e.id ∧ e'.type = e.type ∧
          e'.description = e.description := by
    intro t u ht hu heq e he
    obtain ⟨m, hm, hme⟩ := (ht.entities e.id).mp ⟨e, he, rfl⟩
    obtain ⟨e', he', hid⟩ := (hu.entities e.id).mpr ⟨m, heq ▸ hm, hme⟩
    have hof : u.mentionsOf e'.id = t.mentionsOf e.id := by
      rw [hid, Tables.mentionsOf, Tables.mentionsOf, heq]
    refine ⟨e', he', hid, ?_, ?_⟩
    · rw [(hu.merged e' he').1, (ht.merged e he).1, hof]
    · rw [(hu.merged e' he').2, (ht.merged e he).2, hof]
  intro id type description
  constructor
  · rintro ⟨e, he, rfl, rfl, rfl⟩
    exact hhalf ht hu hmentions e he
  · rintro ⟨e, he, rfl, rfl, rfl⟩
    exact hhalf hu ht hmentions.symm e he

theorem Reflects.empty : Reflects (fun _ => none) GraphStore.empty.toTables := by
  refine ⟨fun c => ?_, fun m => ?_, fun r => ?_, fun l => ?_, fun id => ?_, fun e he => ?_⟩
  · simp [GraphStore.empty]
  · simp [GraphStore.empty]
  · simp [GraphStore.empty]
  · simp [GraphStore.empty]
  · simp [GraphStore.empty]
  · simp [GraphStore.empty] at he

theorem exists_mem_update {content : Option DocContent} {d k : Text}
    {P : DocContent → Prop} : (∃ x ∈ Function.update docs d content k, P x) ↔
      (k = d ∧ ∃ x ∈ content, P x) ∨ (k ≠ d ∧ ∃ x ∈ docs k, P x) := by
  by_cases hk : k = d
  · subst hk
    simp
  · simp [hk]

end Reflects

section Deletion
variable {docs : Text → Option DocContent} {t : Tables}

/-- A link survives when its chunk belongs to another document. -/
theorem Reflects.link_survives (h : Reflects docs t) (d : Text) {l : LinkRow} :
    l ∈ (t.deleteFileRows d).chunkEntities ↔
      ∃ d' ≠ d, ∃ x ∈ docs d', (l.chunkId, l.entityId) ∈ x.links := by
  have howner : ∀ {d' x}, x ∈ docs d' → (l.chunkId, l.entityId) ∈ x.links →
      ∃ c ∈ t.chunks, c.chunkId = l.chunkId ∧ c.filepath = d' := by
    intro d' x hx hlink
    obtain ⟨i, hi⟩ := List.getElem?_of_mem (x.links_own _ hlink).1
    exact ⟨⟨l.chunkId, d', i⟩, (h.chunks _).mpr ⟨x, hx, (mem_chunkRows d').mpr ⟨hi, rfl⟩⟩,
      rfl, rfl⟩
  rw [Tables.deleteFileRows_chunkEntities, Table.mem_deleteWhere, h.links]
  constructor
  · rintro ⟨⟨d', x, hx, hlink⟩, hkept⟩
    refine ⟨d', ?_, x, hx, hlink⟩
    rintro rfl
    exact hkept (howner hx hlink)
  · rintro ⟨d', hd', x, hx, hlink⟩
    refine ⟨⟨d', x, hx, hlink⟩, ?_⟩
    rintro ⟨c, hc, hcl, hcd⟩
    obtain ⟨c', hc', hcl', hcd'⟩ := howner hx hlink
    have hsame := t.chunks.eq_of_key hc hc' (hcl.trans hcl'.symm)
    exact hd' (hcd'.symm.trans (hsame ▸ hcd))

/-- An entity without a mention by another document is unreferenced once the
rows of the document are gone: every row names entities its document mentions. -/
theorem Reflects.unreferenced (h : Reflects docs t) (d : Text) {id : Text}
    (hid : ∀ m ∈ t.entityMentions, m.entityId = id → m.sourceDoc = d) :
    (t.deleteFileRows d).Unreferenced id := by
  refine ⟨?_, ?_, ?_, ?_⟩
  · rintro ⟨m, hm, hmid⟩
    obtain ⟨hm, hmd⟩ := (Table.mem_deleteWhere ..).mp hm
    exact hmd (hid m hm hmid)
  · rintro ⟨r, hr, rfl⟩
    obtain ⟨hr, hrd⟩ := (Table.mem_deleteWhere ..).mp hr
    obtain ⟨m, hm, hmid, hmd⟩ := (h.endpoint_mentioned hr).1
    exact hrd (hmd ▸ hid m hm hmid)
  · rintro ⟨r, hr, rfl⟩
    obtain ⟨hr, hrd⟩ := (Table.mem_deleteWhere ..).mp hr
    obtain ⟨m, hm, hmid, hmd⟩ := (h.endpoint_mentioned hr).2
    exact hrd (hmd ▸ hid m hm hmid)
  · rintro ⟨l, hl, rfl⟩
    obtain ⟨hl, hld⟩ := (Table.mem_deleteWhere ..).mp hl
    obtain ⟨m, hm, hmid, c, hc, hcl, hcd⟩ := h.link_mentioned hl
    exact hld ⟨c, hc, hcl, hcd.trans (hid m hm hmid)⟩

theorem mem_deleteFileRows_mentions (t : Tables) (d : Text) (m : MentionRow) :
    m ∈ (t.deleteFileRows d).entityMentions ↔ m ∈ t.entityMentions ∧ m.sourceDoc ≠ d :=
  Table.mem_deleteWhere ..

/-- An entity that survives the deletion of a document is still mentioned. -/
theorem Reflects.mentioned_of_kept (h : Reflects docs t) {d : Text} {x : EntityRow}
    (hx : x ∈ t.entities)
    (hkept : ¬ (x.id ∈ t.fileEntityIds d ∧ ([Tables.deleteFileLinks d, Tables.deleteFileChunks d,
      Tables.deleteFileRelationships d, Tables.deleteFileMentions d].foldl
        (fun t f => f t) t).Unreferenced x.id)) :
    ∃ m ∈ (t.deleteFileRows d).entityMentions, m.entityId = x.id := by
  by_contra hnone
  obtain ⟨m, hm, hmx⟩ := (h.entities x.id).mp ⟨x, hx, rfl⟩
  have hall : ∀ m ∈ t.entityMentions, m.entityId = x.id → m.sourceDoc = d := by
    intro m hm hmx
    by_contra hmd
    exact hnone ⟨m, (mem_deleteFileRows_mentions t d m).mpr ⟨hm, hmd⟩, hmx⟩
  apply hkept
  refine ⟨?_, h.unreferenced d hall⟩
  simp only [Tables.fileEntityIds, Finset.mem_union, Finset.mem_image, Table.mem_select]
  exact Or.inl (Or.inl (Or.inl ⟨m, ⟨hm, hall m hm hmx⟩, hmx⟩))

/-- An entity touched by the document is collected or refreshed, any other is as before. -/
theorem Reflects.exists_of_mem_deleteFileRows (h : Reflects docs t) {d : Text} {e : EntityRow}
    (he : e ∈ (t.deleteFileRows d).entities) :
    ∃ x ∈ t.entities, e.id = x.id ∧
      (∃ m ∈ (t.deleteFileRows d).entityMentions, m.entityId = x.id) ∧
        (e.type = commonType ((t.deleteFileRows d).mentionsOf x.id) ∧
          e.description = longestDescription ((t.deleteFileRows d).mentionsOf x.id)) := by
  obtain ⟨x, hx, hex⟩ := (Tables.mem_refreshEntities _).mp he
  obtain ⟨hxt, hkept⟩ := (Table.mem_deleteWhere ..).mp hx
  have hmentioned := h.mentioned_of_kept hxt hkept
  refine ⟨x, hxt, ?_, hmentioned, ?_⟩
  · rw [hex]
    split_ifs <;> rfl
  · by_cases htouched : x.id ∈ t.fileEntityIds d
    · rw [if_pos ⟨htouched, hmentioned⟩] at hex
      exact hex ▸ ⟨rfl, rfl⟩
    · rw [if_neg fun hc => htouched hc.1] at hex
      have hof : (t.deleteFileRows d).mentionsOf x.id = t.mentionsOf x.id := by
        refine mentionsOf_congr fun m hmx =>
          (mem_deleteFileRows_mentions t d m).trans (and_iff_left_of_imp ?_)
        rintro hm rfl
        apply htouched
        simp only [Tables.fileEntityIds, Finset.mem_union, Finset.mem_image,
          Table.mem_select]
        exact Or.inl (Or.inl (Or.inl ⟨m, ⟨hm, rfl⟩, hmx⟩))
      rw [hof, hex]
      exact h.merged x hxt

/-- Deleting a document's rows leaves what the other documents make. -/
theorem Reflects.deleteFileRows (h : Reflects docs t) (d : Text) :
    Reflects (Function.update docs d none) (t.deleteFileRows d) := by
  refine ⟨fun c => ?_, fun m => ?_, fun r => ?_, fun l => ?_, fun id => ?_, fun e he => ?_⟩
  · rw [Tables.deleteFileRows_chunks, Table.mem_deleteWhere, h.chunks, exists_mem_update]
    simp [and_comm]
  · rw [mem_deleteFileRows_mentions, h.mentions, exists_mem_update]
    simp [and_comm]
  · rw [Tables.deleteFileRows_relationships, Table.mem_deleteWhere, h.relationships,
      exists_mem_update]
    simp [and_comm]
  · rw [h.link_survives d]
    refine exists_congr fun d' => ?_
    rw [exists_mem_update]
    simp
  · constructor
    · rintro ⟨e, he, rfl⟩
      obtain ⟨x, -, hid, hmentioned, -⟩ := h.exists_of_mem_deleteFileRows he
      exact hid ▸ hmentioned
    · rintro ⟨m, hm, rfl⟩
      have hmention := ((mem_deleteFileRows_mentions t d m).mp hm).1
      obtain ⟨x, hx, hxm⟩ := (h.entities _).mpr ⟨m, hmention, rfl⟩
      have hkept : x ∈ ((([Tables.deleteFileLinks d, Tables.deleteFileChunks d,
          Tables.deleteFileRelationships d, Tables.deleteFileMentions d,
          Tables.deleteUnreferenced (t.fileEntityIds d)].foldl (fun t f => f t) t)).entities) :=
        (Table.mem_deleteWhere ..).mpr ⟨hx, fun hc => hc.2.1 ⟨m, hm, hxm.symm⟩⟩
      refine ⟨_, (Tables.mem_refreshEntities _).mpr ⟨x, hkept, rfl⟩, ?_⟩
      split_ifs <;> exact hxm
  · obtain ⟨x, -, hid, -, hmerged⟩ := h.exists_of_mem_deleteFileRows he
    rw [hid]
    exact hmerged

end Deletion

end LocalGraphRag.Ingest
