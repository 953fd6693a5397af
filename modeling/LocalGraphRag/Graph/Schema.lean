import LocalGraphRag.Graph.RecordStore
import LocalGraphRag.Relational.RowTable

/-!
# The database file and its migrations

A database file has a version, the objects that its schema defines, and rows. The
rows are those that the columns admit, which is more than the store's methods ever
write: a key or a document may be `NULL`.

## Implementation notes

Each statement of the baseline script and of the migrations is a constructor of
`Statement`, and `exec` says what it does to a file. `PRAGMA foreign_keys=ON` has
the foreign keys checked after each statement that writes rows. The rows of
`communities` and `fingerprints` and the embeddings of entities take no part.
-/

namespace LocalGraphRag.Graph

open Python Relational

/-- A row of `entities`, as its columns admit it. -/
structure StoredEntity where
  id : Option Text
  name : Text
  type : Option Text
  description : Option Text
  community : Option Nat
  deriving DecidableEq

/-- A row of `relationships`. -/
structure StoredRelationship where
  sourceId : Option Text
  targetId : Option Text
  label : Text
  weight : Option ℚ
  sourceDoc : Option Text
  deriving DecidableEq

/-- `PRIMARY KEY (source_id, target_id, label, source_doc)`. -/
def StoredRelationship.key (r : StoredRelationship) : Option (Text × Text × Text × Text) := do
  return (← r.sourceId, ← r.targetId, r.label, ← r.sourceDoc)

/-- A row of `chunks`. -/
structure StoredChunk where
  chunkId : Option Text
  filepath : Text
  chunkIndex : Nat
  deriving DecidableEq

/-- A row of `chunk_entities`. -/
structure StoredLink where
  chunkId : Option Text
  entityId : Option Text
  deriving DecidableEq

/-- `PRIMARY KEY (chunk_id, entity_id)`. -/
def StoredLink.key (l : StoredLink) : Option (Text × Text) := do
  return (← l.chunkId, ← l.entityId)

/-- A row of `extraction_cache`; the digest is a column of the third version only. -/
structure StoredReply where
  filepath : Text
  batchIndex : Nat
  promptSha256 : Option Text
  result : Text
  deriving DecidableEq

/-- `PRIMARY KEY (filepath, batch_index)`. -/
def StoredReply.key (c : StoredReply) : Text × Nat := (c.filepath, c.batchIndex)

/-- The `CREATE` statements. `extractionCacheByPrompt` redefines `extractionCache`. -/
inductive Definition where
  | entities
  | relationships
  | chunks
  | chunkEntities
  | communities
  | extractionCache
  | fingerprints
  | idxChunksFilepath
  | idxRelationshipsSourceDoc
  | idxRelationshipsTargetId
  | idxChunkEntitiesEntityId
  | idxEntitiesCommunity
  | entityMentions
  | idxEntityMentionsSourceDoc
  | extractionCacheByPrompt
  deriving DecidableEq

namespace Definition

/-- The name of the object that is defined. -/
def name : Definition → String
  | entities => "entities"
  | relationships => "relationships"
  | chunks => "chunks"
  | chunkEntities => "chunk_entities"
  | communities => "communities"
  | extractionCache => "extraction_cache"
  | fingerprints => "fingerprints"
  | idxChunksFilepath => "idx_chunks_filepath"
  | idxRelationshipsSourceDoc => "idx_relationships_source_doc"
  | idxRelationshipsTargetId => "idx_relationships_target_id"
  | idxChunkEntitiesEntityId => "idx_chunk_entities_entity_id"
  | idxEntitiesCommunity => "idx_entities_community"
  | entityMentions => "entity_mentions"
  | idxEntityMentionsSourceDoc => "idx_entity_mentions_source_doc"
  | extractionCacheByPrompt => "extraction_cache"

/-- The table an index is on. -/
def on : Definition → Option String
  | idxChunksFilepath => some "chunks"
  | idxRelationshipsSourceDoc => some "relationships"
  | idxRelationshipsTargetId => some "relationships"
  | idxChunkEntitiesEntityId => some "chunk_entities"
  | idxEntitiesCommunity => some "entities"
  | idxEntityMentionsSourceDoc => some "entity_mentions"
  | _ => none

end Definition

/-- A database file. The rows of a table that does not exist have no meaning. -/
@[ext] structure Database where
  userVersion : Nat
  objects : Finset Definition
  entities : RowTable StoredEntity StoredEntity.id
  relationships : RowTable StoredRelationship StoredRelationship.key
  chunks : RowTable StoredChunk StoredChunk.chunkId
  chunkEntities : RowTable StoredLink StoredLink.key
  extractionCache : Table StoredReply StoredReply.key
  entityMentions : Table MentionRow MentionRow.key

/-- The exceptions of a statement. -/
inductive SqlError where
  | noSuchTable
  | tableExists
  | foreignKey
  deriving DecidableEq

namespace Database

/-- An empty file. -/
def emptyFile : Database := ⟨0, ∅, ∅, ∅, ∅, ∅, ∅, ∅⟩

/-- The schema has an object of this name. -/
def Has (db : Database) (name : String) : Prop := ∃ o ∈ db.objects, o.name = name

instance (db : Database) (name : String) : Decidable (db.Has name) :=
  inferInstanceAs (Decidable (∃ o ∈ db.objects, _))

/-- The foreign keys; a `NULL` refers to nothing. -/
structure ForeignKeys (db : Database) : Prop where
  source : ∀ r ∈ db.relationships, ∀ id ∈ r.sourceId, ∃ e ∈ db.entities, e.id = some id
  target : ∀ r ∈ db.relationships, ∀ id ∈ r.targetId, ∃ e ∈ db.entities, e.id = some id
  chunk : ∀ l ∈ db.chunkEntities, ∀ id ∈ l.chunkId, ∃ c ∈ db.chunks, c.chunkId = some id
  entity : ∀ l ∈ db.chunkEntities, ∀ id ∈ l.entityId, ∃ e ∈ db.entities, e.id = some id
  mention : ∀ m ∈ db.entityMentions, ∃ e ∈ db.entities, e.id = some m.entityId

theorem foreignKeys_iff (db : Database) : db.ForeignKeys ↔
    (∀ r ∈ db.relationships, ∀ id ∈ r.sourceId, ∃ e ∈ db.entities, e.id = some id) ∧
    (∀ r ∈ db.relationships, ∀ id ∈ r.targetId, ∃ e ∈ db.entities, e.id = some id) ∧
    (∀ l ∈ db.chunkEntities, ∀ id ∈ l.chunkId, ∃ c ∈ db.chunks, c.chunkId = some id) ∧
    (∀ l ∈ db.chunkEntities, ∀ id ∈ l.entityId, ∃ e ∈ db.entities, e.id = some id) ∧
    ∀ m ∈ db.entityMentions, ∃ e ∈ db.entities, e.id = some m.entityId :=
  ⟨fun h => ⟨h.source, h.target, h.chunk, h.entity, h.mention⟩,
    fun ⟨h₁, h₂, h₃, h₄, h₅⟩ => ⟨h₁, h₂, h₃, h₄, h₅⟩⟩

instance (db : Database) : Decidable db.ForeignKeys := decidable_of_iff' _ db.foreignKeys_iff

/-- A new table has no rows. -/
def clear (db : Database) : Definition → Database
  | .entities => { db with entities := ∅ }
  | .relationships => { db with relationships := ∅ }
  | .chunks => { db with chunks := ∅ }
  | .chunkEntities => { db with chunkEntities := ∅ }
  | .extractionCache => { db with extractionCache := ∅ }
  | .extractionCacheByPrompt => { db with extractionCache := ∅ }
  | .entityMentions => { db with entityMentions := ∅ }
  | _ => db

/-- Define a new object; an index needs its table. -/
def create (db : Database) (o : Definition) : Except SqlError Database :=
  if db.Has o.name then .error .tableExists
  else if ∀ t ∈ o.on, db.Has t then
    .ok { db.clear o with objects := insert o db.objects }
  else .error .noSuchTable

/-- Remove a table with its indexes. -/
def drop (db : Database) (name : String) : Except SqlError Database :=
  if db.Has name then
    .ok { db with objects := db.objects.filter fun o => o.name ≠ name ∧ o.on ≠ some name }
  else .error .noSuchTable

/-- A statement that wrote rows fails when a foreign key does not hold. -/
def check (db : Database) : Except SqlError Database :=
  if db.ForeignKeys then .ok db else .error .foreignKey

/-- The documents that refer to an entity by a relationship or by a chunk link. -/
def documentRefs (db : Database) : List (Option Text × Text) :=
  ((db.relationships.rows.filterMap fun r => r.sourceDoc.map fun doc => (r.sourceId, doc)) ++
    (db.relationships.rows.filterMap fun r => r.sourceDoc.map fun doc => (r.targetId, doc)) ++
    db.chunkEntities.rows.flatMap fun l =>
      (db.chunks.rows.filter fun c => SqlEq c.chunkId l.chunkId).map fun c =>
        (l.entityId, c.filepath)).dedup

/-- One mention per entity and referring document, with the entity's own columns. -/
def backfillRows (db : Database) : List MentionRow :=
  db.entities.rows.flatMap fun e => e.id.toList.flatMap fun id =>
    (db.documentRefs.filter fun ref => ref.1 = some id).map fun ref =>
      ⟨id, ref.2, e.type, e.description⟩

/-- `INSERT OR IGNORE INTO entity_mentions ... SELECT`. -/
def backfillMentions (db : Database) : Database :=
  { db with entityMentions := db.entityMentions.insertAllOrIgnore db.backfillRows }

/-- `UNREFERENCED_ENTITY_SQL`. -/
def Unreferenced (db : Database) (id : Option Text) : Prop :=
  (¬ ∃ m ∈ db.entityMentions, SqlEq (some m.entityId) id) ∧
    (¬ ∃ r ∈ db.relationships, SqlEq r.sourceId id) ∧
    (¬ ∃ r ∈ db.relationships, SqlEq r.targetId id) ∧
    ¬ ∃ l ∈ db.chunkEntities, SqlEq l.entityId id

instance (db : Database) (id : Option Text) : Decidable (db.Unreferenced id) :=
  inferInstanceAs (Decidable (_ ∧ _))

/-- `DELETE FROM entities WHERE UNREFERENCED_ENTITY_SQL`. -/
def deleteUnreferenced (db : Database) : Database :=
  { db with entities := db.entities.deleteWhere fun e => db.Unreferenced e.id }

/-- The mentions of one entity. -/
def mentionsOf (db : Database) (id : Option Text) : Finset MentionRow :=
  db.entityMentions.select fun m => SqlEq (some m.entityId) id

/-- `_REFRESH_ENTITIES_SQL`. -/
def refreshEntities (ids : Finset Text) (db : Database) : Database :=
  { db with
    entities := db.entities.updateWhere
      (fun e => (∃ id ∈ ids, e.id = some id) ∧
        ∃ m ∈ db.entityMentions, SqlEq (some m.entityId) e.id)
      (fun e => { e with
        type := commonType (db.mentionsOf e.id)
        description := longestDescription (db.mentionsOf e.id) })
      (fun _ => rfl) }

end Database

/-- The statements of the baseline script and of the migrations. -/
inductive Statement where
  | createIfNotExists (o : Definition)
  | create (o : Definition)
  | dropTable (name : String)
  | backfillMentions
  | deleteUnreferenced
  | setUserVersion (version : Nat)
  deriving DecidableEq

namespace Statement

/-- The tables that a statement names, besides the one that it defines. -/
def tables : Statement → List String
  | backfillMentions =>
      ["entity_mentions", "entities", "relationships", "chunk_entities", "chunks"]
  | deleteUnreferenced => ["entities", "entity_mentions", "relationships", "chunk_entities"]
  | _ => []

def exec (db : Database) : Statement → Except SqlError Database
  | createIfNotExists o => if db.Has o.name then .ok db else db.create o
  | create o => db.create o
  | dropTable name => db.drop name
  | backfillMentions =>
      if ∀ name ∈ backfillMentions.tables, db.Has name then db.backfillMentions.check
      else .error .noSuchTable
  | deleteUnreferenced =>
      if ∀ name ∈ deleteUnreferenced.tables, db.Has name then db.deleteUnreferenced.check
      else .error .noSuchTable
  | setUserVersion version => .ok { db with userVersion := version }

end Statement

/-- `_SCHEMA`. -/
def baseline : List Definition :=
  [.entities, .relationships, .chunks, .chunkEntities, .communities, .extractionCache,
    .fingerprints]

/-- `_MIGRATIONS`: entry `N` upgrades a database from version `N` to `N + 1`. -/
def migrations : List (List Statement) :=
  [[.createIfNotExists .idxChunksFilepath, .createIfNotExists .idxRelationshipsSourceDoc,
      .createIfNotExists .idxRelationshipsTargetId,
      .createIfNotExists .idxChunkEntitiesEntityId, .createIfNotExists .idxEntitiesCommunity],
    [.createIfNotExists .entityMentions, .createIfNotExists .idxEntityMentionsSourceDoc,
      .backfillMentions, .deleteUnreferenced],
    [.dropTable "extraction_cache", .create .extractionCacheByPrompt]]

/-- What `_migrate` executes under the write lock, from this version on. -/
def migrationStatements (version : Nat) : List Statement :=
  ((migrations.drop version).zipIdx (version + 1)).flatMap fun m =>
    m.1 ++ [.setUserVersion m.2]

/-- `_migrate` of one process. -/
def migrate (db : Database) : Except SqlError Database :=
  if migrations.length ≤ db.userVersion then .ok db
  else (migrationStatements db.userVersion).foldlM Statement.exec db

end LocalGraphRag.Graph
