import LocalGraphRag.Graph.Records
import Mathlib.Data.Finset.Option

/-!
# Record store methods

The write methods of the record store are transactions over the tables, in the
statement order of the source. An entity's type and description are not
written by a document: they are derived from all mentions of the entity each
time an operation touches it.
-/

namespace LocalGraphRag.Graph

open Python Relational

/-- An entity as the extractor returns it. -/
structure Entity where
  name : Text
  type : Option Text
  description : Text
  deriving DecidableEq

section Derived

/-- SQLite's `length` of a text: the code points before the first NUL. -/
def sqlLength (s : Text) : Nat := (s.takeWhile fun c => c ≠ 0).length

/-- The most common type among mentions, the least of these on a tie. -/
def commonType (mentions : Finset MentionRow) : Option Text :=
  (fetchOne ((mentions.biUnion fun m => m.type.toFinset).image fun t =>
    toLex (OrderDual.toDual (mentions.filter fun m => m.type = some t).card, t))).map
      fun x => (ofLex x).2

/-- The longest nonempty description among mentions, of the least document on a tie. -/
def longestDescription (mentions : Finset MentionRow) : Option Text :=
  (fetchOne (((mentions.filter fun m => m.description.getD [] ≠ []).image fun m =>
    toLex (OrderDual.toDual (sqlLength (m.description.getD [])),
      toLex (m.sourceDoc, m.description.getD []))))).map fun x => (ofLex (ofLex x).2).2

/-- The merged type is one of the mentioned types. -/
theorem exists_of_commonType {mentions : Finset MentionRow} {type : Text}
    (h : commonType mentions = some type) : ∃ m ∈ mentions, m.type = some type := by
  obtain ⟨x, hx, rfl⟩ := Option.map_eq_some_iff.mp h
  obtain ⟨t, ht, rfl⟩ := Finset.mem_image.mp (fetchOne_eq_some_iff.mp hx).1
  obtain ⟨m, hm, hmt⟩ := Finset.mem_biUnion.mp ht
  exact ⟨m, hm, by simpa using hmt⟩

/-- The merged description is one of the mentioned descriptions. -/
theorem exists_of_longestDescription {mentions : Finset MentionRow} {description : Text}
    (h : longestDescription mentions = some description) :
    ∃ m ∈ mentions, m.description = some description := by
  obtain ⟨x, hx, rfl⟩ := Option.map_eq_some_iff.mp h
  obtain ⟨m, hm, rfl⟩ := Finset.mem_image.mp (fetchOne_eq_some_iff.mp hx).1
  obtain ⟨hm, hne⟩ := Finset.mem_filter.mp hm
  refine ⟨m, hm, ?_⟩
  cases hd : m.description with
  | none => simp [hd] at hne
  | some d => rfl

/-- Mentions that agree on the type are merged to it. -/
theorem commonType_of_forall {mentions : Finset MentionRow} {type : Option Text}
    (hne : mentions.Nonempty) (h : ∀ m ∈ mentions, m.type = type) :
    commonType mentions = type := by
  cases hmerged : commonType mentions with
  | some t =>
      obtain ⟨m, hm, ht⟩ := exists_of_commonType hmerged
      rw [← h m hm, ht]
  | none =>
      obtain ⟨m, hm⟩ := hne
      have hempty := fetchOne_eq_none_iff.mp (Option.map_eq_none_iff.mp hmerged)
      have hnone := Finset.image_eq_empty.mp hempty
      rw [← h m hm]
      cases ht : m.type with
      | none => rfl
      | some t =>
          have hmem : t ∈ mentions.biUnion fun m => m.type.toFinset :=
            Finset.mem_biUnion.mpr ⟨m, hm, by simp [ht]⟩
          simp [hnone] at hmem

/-- Mentions that agree on the description are merged to it, or to none for the
empty one. -/
theorem longestDescription_of_forall {mentions : Finset MentionRow} {description : Option Text}
    (hne : mentions.Nonempty) (h : ∀ m ∈ mentions, m.description = description) :
    (longestDescription mentions).getD [] = description.getD [] := by
  cases hmerged : longestDescription mentions with
  | some d =>
      obtain ⟨m, hm, hd⟩ := exists_of_longestDescription hmerged
      rw [← h m hm, hd]
  | none =>
      obtain ⟨m, hm⟩ := hne
      have hempty := fetchOne_eq_none_iff.mp (Option.map_eq_none_iff.mp hmerged)
      have hnone := Finset.filter_eq_empty_iff.mp (Finset.image_eq_empty.mp hempty) hm
      rw [not_not] at hnone
      rw [← h m hm, hnone]
      rfl

end Derived

namespace Tables

/-- The mentions of one entity. -/
def mentionsOf (t : Tables) (entityId : Text) : Finset MentionRow :=
  t.entityMentions.select fun m => m.entityId = entityId

/-- `_REFRESH_ENTITIES_SQL`. -/
def refreshEntities (ids : Finset Text) (t : Tables) : Tables :=
  { t with
    entities := t.entities.updateWhere
      (fun e => e.id ∈ ids ∧ ∃ m ∈ t.entityMentions, m.entityId = e.id)
      (fun e => { e with
        type := commonType (t.mentionsOf e.id)
        description := longestDescription (t.mentionsOf e.id) })
      (fun _ => rfl) }

/-- `_FILE_ENTITY_IDS_SQL`: the entities a file touches. -/
def fileEntityIds (t : Tables) (filepath : Text) : Finset Text :=
  ((t.entityMentions.select fun m => m.sourceDoc = filepath).image MentionRow.entityId) ∪
    ((t.chunkEntities.select fun l =>
      ∃ c ∈ t.chunks, c.chunkId = l.chunkId ∧ c.filepath = filepath).image
        LinkRow.entityId) ∪
    ((t.relationships.select fun r => r.sourceDoc = filepath).image
      RelationshipRow.sourceId) ∪
    ((t.relationships.select fun r => r.sourceDoc = filepath).image
      RelationshipRow.targetId)

/-- `UNREFERENCED_ENTITY_SQL`. -/
def Unreferenced (t : Tables) (entityId : Text) : Prop :=
  (¬ ∃ m ∈ t.entityMentions, m.entityId = entityId) ∧
    (¬ ∃ r ∈ t.relationships, r.sourceId = entityId) ∧
    (¬ ∃ r ∈ t.relationships, r.targetId = entityId) ∧
    ¬ ∃ l ∈ t.chunkEntities, l.entityId = entityId

instance (t : Tables) (entityId : Text) : Decidable (t.Unreferenced entityId) := by
  unfold Unreferenced
  infer_instance

/-- `INSERT OR IGNORE INTO entities (id, name)`. -/
def insertEntities (rows : List (Text × Text)) (t : Tables) : Tables :=
  { t with
    entities := t.entities.insertAllOrIgnore
      (rows.map fun r => ⟨r.1, r.2, none, none, none⟩) }

/-- `_UPSERT_MENTION_SQL`. -/
def upsertMentions (rows : List MentionRow) (t : Tables) : Tables :=
  { t with entityMentions := t.entityMentions.insertAllOrReplace rows }

/-- `_UPSERT_RELATIONSHIP_SQL`. -/
def upsertRelationshipRows (rows : List (Text × Text × Text × Text)) (t : Tables) :
    Tables :=
  { t with
    relationships := rows.foldl (fun rel k =>
      rel.upsert ⟨k.1, k.2.1, k.2.2.1, 1, k.2.2.2⟩
        (fun r => { r with weight := r.weight + 1 }) (fun _ => rfl)) t.relationships }

/-- A key that is written `n` times adds `n` to the row's weight, or `n - 1` to a new row's. -/
theorem mem_upsertRelationshipRows_iff {rows : List (Text × Text × Text × Text)} {t : Tables}
    {r : RelationshipRow} :
    r ∈ (t.upsertRelationshipRows rows).relationships ↔
      (∃ x ∈ t.relationships, x.key = r.key ∧
        r = (fun y : RelationshipRow => { y with weight := y.weight + 1 })^[rows.count r.key] x) ∨
      ((∀ x ∈ t.relationships, x.key ≠ r.key) ∧ r.key ∈ rows ∧
        r = (fun y : RelationshipRow => { y with weight := y.weight + 1 })^[rows.count r.key - 1]
          ⟨r.sourceId, r.targetId, r.label, 1, r.sourceDoc⟩) :=
  Table.mem_foldl_upsert t.relationships (fun k => ⟨k.1, k.2.1, k.2.2.1, 1, k.2.2.2⟩)
    (fun _ => rfl) (fun r => { r with weight := r.weight + 1 }) (fun _ => rfl) rows r

def replaceChunks (rows : List ChunkRow) (t : Tables) : Tables :=
  { t with chunks := t.chunks.insertAllOrReplace rows }

def insertLinks (rows : List LinkRow) (t : Tables) : Tables :=
  { t with chunkEntities := t.chunkEntities.insertAllOrIgnore rows }

def cacheRow (row : CacheRow) (t : Tables) : Tables :=
  { t with extractionCache := t.extractionCache.insertOrReplace row }

def setFingerprint (row : FingerprintRow) (t : Tables) : Tables :=
  { t with fingerprints := t.fingerprints.insertOrReplace row }

def deleteFileLinks (filepath : Text) (t : Tables) : Tables :=
  { t with
    chunkEntities := t.chunkEntities.deleteWhere fun l =>
      ∃ c ∈ t.chunks, c.chunkId = l.chunkId ∧ c.filepath = filepath }

def deleteFileChunks (filepath : Text) (t : Tables) : Tables :=
  { t with chunks := t.chunks.deleteWhere fun c => c.filepath = filepath }

def deleteFileRelationships (filepath : Text) (t : Tables) : Tables :=
  { t with relationships := t.relationships.deleteWhere fun r => r.sourceDoc = filepath }

def deleteFileMentions (filepath : Text) (t : Tables) : Tables :=
  { t with
    entityMentions := t.entityMentions.deleteWhere fun m => m.sourceDoc = filepath }

/-- Only entities the file touched can have become unreferenced. -/
def deleteUnreferenced (touched : Finset Text) (t : Tables) : Tables :=
  { t with
    entities := t.entities.deleteWhere fun e => e.id ∈ touched ∧ t.Unreferenced e.id }

def deleteFingerprint (filepath : Text) (t : Tables) : Tables :=
  { t with
    fingerprints := t.fingerprints.deleteWhere fun f => f.filepath = filepath }

def deleteCached (filepath : Text) (t : Tables) : Tables :=
  { t with
    extractionCache := t.extractionCache.deleteWhere fun c => c.filepath = filepath }

/-- The statements of `_delete_file_rows`, `touched` being read before them. -/
def deleteFileStatements (touched : Finset Text) (filepath : Text) :
    List (Tables → Tables) :=
  [deleteFileLinks filepath, deleteFileChunks filepath,
    deleteFileRelationships filepath, deleteFileMentions filepath,
    deleteUnreferenced touched, refreshEntities touched, deleteFingerprint filepath]

/-- What `_delete_file_rows` leaves. -/
def deleteFileRows (filepath : Text) (t : Tables) : Tables :=
  (deleteFileStatements (t.fileEntityIds filepath) filepath).foldl (fun t f => f t) t

section Deleted
variable (filepath : Text) (t : Tables)

@[simp] theorem deleteFileRows_chunks : (t.deleteFileRows filepath).chunks =
    t.chunks.deleteWhere fun c => c.filepath = filepath := rfl

@[simp] theorem deleteFileRows_chunkEntities : (t.deleteFileRows filepath).chunkEntities =
    t.chunkEntities.deleteWhere fun l =>
      ∃ c ∈ t.chunks, c.chunkId = l.chunkId ∧ c.filepath = filepath := rfl

@[simp] theorem deleteFileRows_relationships : (t.deleteFileRows filepath).relationships =
    t.relationships.deleteWhere fun r => r.sourceDoc = filepath := rfl

@[simp] theorem deleteFileRows_entityMentions :
    (t.deleteFileRows filepath).entityMentions =
      t.entityMentions.deleteWhere fun m => m.sourceDoc = filepath := rfl

@[simp] theorem deleteFileRows_fingerprints : (t.deleteFileRows filepath).fingerprints =
    t.fingerprints.deleteWhere fun f => f.filepath = filepath := rfl

@[simp] theorem deleteFileRows_extractionCache :
    (t.deleteFileRows filepath).extractionCache = t.extractionCache := rfl

@[simp] theorem deleteFileRows_communities :
    (t.deleteFileRows filepath).communities = t.communities := rfl

theorem mem_refreshEntities {ids : Finset Text} {e : EntityRow} :
    e ∈ (t.refreshEntities ids).entities ↔ ∃ x ∈ t.entities,
      e = if x.id ∈ ids ∧ ∃ m ∈ t.entityMentions, m.entityId = x.id then
        { x with
          type := commonType (t.mentionsOf x.id)
          description := longestDescription (t.mentionsOf x.id) }
      else x := by
  simp only [refreshEntities, Table.mem_updateWhere]

/-- An entity the file does not touch survives its deletion unchanged. -/
theorem mem_deleteFileRows_entities_of_untouched {e : EntityRow}
    (he : e.id ∉ t.fileEntityIds filepath) :
    e ∈ (t.deleteFileRows filepath).entities ↔ e ∈ t.entities := by
  apply (mem_refreshEntities _).trans
  constructor
  · rintro ⟨x, hx, hex⟩
    have hxt := ((Table.mem_deleteWhere ..).mp hx).1
    split_ifs at hex with hcond
    · rw [hex] at he
      exact absurd hcond.1 he
    · exact hex ▸ hxt
  · intro het
    exact ⟨e, (Table.mem_deleteWhere ..).mpr ⟨het, fun h => he h.1⟩,
      (if_neg fun h => he h.1).symm⟩

/-- A surviving entity keeps its id, its name and its community. -/
theorem exists_of_mem_deleteFileRows_entities {e : EntityRow}
    (he : e ∈ (t.deleteFileRows filepath).entities) :
    ∃ x ∈ t.entities, e.id = x.id ∧ e.name = x.name ∧ e.community = x.community := by
  obtain ⟨x, hx, hex⟩ := (mem_refreshEntities _).mp he
  refine ⟨x, ((Table.mem_deleteWhere ..).mp hx).1, ?_⟩
  split_ifs at hex
  · exact hex ▸ ⟨rfl, rfl, rfl⟩
  · exact hex ▸ ⟨rfl, rfl, rfl⟩

end Deleted

end Tables

namespace GraphStore

/-- The rows `upsert_entities` binds, one per entity: slug, name, and mention. -/
def entityRow (e : Entity) : Except StoreError (Text × Text × Option Text × Text) :=
  let name := strip e.name
  let slug := slugify name
  if slug = [] then .error .emptySlug else .ok (slug, name, e.type, e.description)

def upsertEntities (entities : List Entity) (sourceDoc : Text) (s : GraphStore) :
    Except StoreError (List Text × GraphStore) := do
  let rows ← entities.mapM entityRow
  bindText (sourceDoc :: rows.flatMap fun r => r.1 :: r.2.1 :: r.2.2.2 :: r.2.2.1.toList)
  let slugs := rows.map fun r => r.1
  let s' ← transaction
    [Tables.insertEntities (rows.map fun r => (r.1, r.2.1)),
      Tables.upsertMentions (rows.map fun r => ⟨r.1, sourceDoc, r.2.2.1, some r.2.2.2⟩),
      Tables.refreshEntities slugs.toFinset] s
  return (slugs, s')

def upsertRelationships (relationships : List (Text × Text × Text × Text))
    (s : GraphStore) : Except StoreError GraphStore :=
  if relationships = [] then .ok s
  else do
    bindText (relationships.flatMap fun r => [r.1, r.2.1, r.2.2.1, r.2.2.2])
    transaction [Tables.upsertRelationshipRows relationships] s

def registerChunks (chunks : List ChunkRow) (s : GraphStore) :
    Except StoreError GraphStore := do
  bindText (chunks.flatMap fun c => [c.chunkId, c.filepath])
  transaction [Tables.replaceChunks chunks] s

def linkChunks (pairs : List (Text × Text)) (s : GraphStore) :
    Except StoreError GraphStore :=
  if pairs = [] then .ok s
  else do
    bindText (pairs.flatMap fun p => [p.1, p.2])
    transaction [Tables.insertLinks (pairs.map fun p => ⟨p.1, p.2⟩)] s

def deleteFileData (filepath : Text) (s : GraphStore) : Except StoreError GraphStore := do
  bindText [filepath]
  transaction (Tables.deleteFileStatements (s.fileEntityIds filepath) filepath) s

def purgeFile (filepath : Text) (s : GraphStore) : Except StoreError GraphStore := do
  bindText [filepath]
  transaction (Tables.deleteFileStatements (s.fileEntityIds filepath) filepath ++
    [Tables.deleteCached filepath]) s

def cacheExtraction (filepath : Text) (batchIndex : Nat) (promptSha256 result : Text)
    (s : GraphStore) : Except StoreError GraphStore := do
  bindText [filepath, promptSha256, result]
  transaction [Tables.cacheRow ⟨filepath, batchIndex, promptSha256, result⟩] s

def upsertHash (filepath sha256 : Text) (s : GraphStore) :
    Except StoreError GraphStore := do
  bindText [filepath, sha256]
  transaction [Tables.setFingerprint ⟨filepath, sha256⟩] s

section Committed
variable {s s' : GraphStore}

/-- The slug under which `upsert_entities` files an entity. -/
def entitySlug (e : Entity) : Text := slugify (strip e.name)

/-- The mention of an entity by a document. -/
def mentionRow (sourceDoc : Text) (e : Entity) : MentionRow :=
  ⟨entitySlug e, sourceDoc, e.type, some e.description⟩

@[simp] theorem mentionRow_entityId (sourceDoc : Text) (e : Entity) :
    (mentionRow sourceDoc e).entityId = entitySlug e := by rw [mentionRow]

@[simp] theorem mentionRow_type (sourceDoc : Text) (e : Entity) :
    (mentionRow sourceDoc e).type = e.type := by rw [mentionRow]

@[simp] theorem mentionRow_description (sourceDoc : Text) (e : Entity) :
    (mentionRow sourceDoc e).description = some e.description := by rw [mentionRow]

@[simp] theorem mentionRow_key (sourceDoc : Text) (e : Entity) :
    (mentionRow sourceDoc e).key = (entitySlug e, sourceDoc) := by rw [mentionRow, MentionRow.key]

theorem entityRow_eq_ok {e : Entity} {r : Text × Text × Option Text × Text} :
    entityRow e = .ok r ↔
      entitySlug e ≠ [] ∧ r = (entitySlug e, strip e.name, e.type, e.description) := by
  simp only [entityRow, entitySlug]
  split_ifs with h
  · simp [h]
  · simp [h, eq_comm]

theorem mapM_entityRow {entities : List Entity}
    {rows : List (Text × Text × Option Text × Text)} :
    entities.mapM entityRow = .ok rows ↔ (∀ e ∈ entities, entitySlug e ≠ []) ∧
      rows = entities.map fun e => (entitySlug e, strip e.name, e.type, e.description) := by
  induction entities generalizing rows with
  | nil =>
      constructor
      · rintro ⟨⟩
        exact ⟨by simp, rfl⟩
      · rintro ⟨-, rfl⟩
        rfl
  | cons e entities ih =>
      rw [List.mapM_cons]
      cases he : entityRow e with
      | error x =>
          have hslug : entitySlug e = [] := by
            by_contra h
            rw [entityRow_eq_ok.mpr ⟨h, rfl⟩] at he
            cases he
          simp [bind, Except.bind, hslug]
      | ok r =>
          obtain ⟨hslug, rfl⟩ := entityRow_eq_ok.mp he
          cases hes : entities.mapM entityRow with
          | error x =>
              have hsome : ¬ ∀ e ∈ entities, entitySlug e ≠ [] := fun h => by
                rw [ih.mpr ⟨h, rfl⟩] at hes
                cases hes
              simp [bind, Except.bind, hslug, hsome]
          | ok rs =>
              obtain ⟨hall, rfl⟩ := ih.mp hes
              constructor
              · rintro ⟨⟩
                exact ⟨by simpa [hslug] using hall, rfl⟩
              · rintro ⟨-, rfl⟩
                rfl

theorem registerChunks_tables {chunks : List ChunkRow}
    (h : s.registerChunks chunks = .ok s') :
    s'.toTables = s.toTables.replaceChunks chunks := by
  unfold registerChunks at h
  exact transaction_tables (bindText_bind_eq_ok.mp h).2

theorem upsertEntities_tables {entities : List Entity} {sourceDoc : Text}
    {slugs : List Text} (h : s.upsertEntities entities sourceDoc = .ok (slugs, s')) :
    slugs = entities.map entitySlug ∧
      s'.toTables = ((s.toTables.insertEntities
        (entities.map fun e => (entitySlug e, strip e.name))).upsertMentions
          (entities.map (mentionRow sourceDoc))).refreshEntities slugs.toFinset := by
  unfold upsertEntities at h
  cases hrows : entities.mapM entityRow with
  | error e =>
      rw [hrows] at h
      cases h
  | ok rows =>
      obtain ⟨-, rfl⟩ := mapM_entityRow.mp hrows
      rw [hrows] at h
      obtain ⟨-, h⟩ := bindText_bind_eq_ok.mp h
      simp only [List.map_map, Function.comp_def] at h
      cases ht : transaction _ s with
      | error e =>
          rw [ht] at h
          cases h
      | ok s₁ =>
          rw [ht] at h
          cases h
          exact ⟨rfl, transaction_tables ht⟩

theorem upsertRelationships_tables {relationships : List (Text × Text × Text × Text)}
    (h : s.upsertRelationships relationships = .ok s') :
    s'.toTables = s.toTables.upsertRelationshipRows relationships := by
  unfold upsertRelationships at h
  split_ifs at h with hnil
  · cases h
    subst hnil
    rfl
  · exact transaction_tables (bindText_bind_eq_ok.mp h).2

theorem linkChunks_tables {pairs : List (Text × Text)} (h : s.linkChunks pairs = .ok s') :
    s'.toTables = s.toTables.insertLinks (pairs.map fun p => ⟨p.1, p.2⟩) := by
  unfold linkChunks at h
  split_ifs at h with hnil
  · cases h
    subst hnil
    rfl
  · exact transaction_tables (bindText_bind_eq_ok.mp h).2

theorem deleteFileData_tables {filepath : Text} (h : s.deleteFileData filepath = .ok s') :
    s'.toTables = s.toTables.deleteFileRows filepath := by
  unfold deleteFileData at h
  exact transaction_tables (bindText_bind_eq_ok.mp h).2

theorem purgeFile_tables {filepath : Text} (h : s.purgeFile filepath = .ok s') :
    s'.toTables = (s.toTables.deleteFileRows filepath).deleteCached filepath := by
  unfold purgeFile at h
  rw [transaction_tables (bindText_bind_eq_ok.mp h).2, List.foldl_append]
  rfl

theorem cacheExtraction_tables {filepath promptSha256 result : Text} {batchIndex : Nat}
    (h : s.cacheExtraction filepath batchIndex promptSha256 result = .ok s') :
    s'.toTables = s.toTables.cacheRow ⟨filepath, batchIndex, promptSha256, result⟩ := by
  unfold cacheExtraction at h
  exact transaction_tables (bindText_bind_eq_ok.mp h).2

theorem upsertHash_tables {filepath sha256 : Text} (h : s.upsertHash filepath sha256 = .ok s') :
    s'.toTables = s.toTables.setFingerprint ⟨filepath, sha256⟩ := by
  unfold upsertHash at h
  exact transaction_tables (bindText_bind_eq_ok.mp h).2

end Committed

/-- The file's chunk ids, ordered by chunk index. -/
def getChunksForFile (filepath : Text) (s : GraphStore) : List Text :=
  (orderBy ((s.chunks.select fun c => c.filepath = filepath).image fun c =>
    toLex (c.chunkIndex, c.chunkId))).map fun x => (ofLex x).2

/-- The cached response only if it was produced for this exact request. -/
def getCachedExtraction (filepath : Text) (batchIndex : Nat) (promptSha256 : Text)
    (s : GraphStore) : Option Text :=
  fetchOne ((s.extractionCache.select fun c => c.filepath = filepath ∧
    c.batchIndex = batchIndex ∧ c.promptSha256 = promptSha256).image CacheRow.result)

def getHash (filepath : Text) (s : GraphStore) : Option Text :=
  fetchOne ((s.fingerprints.select fun f => f.filepath = filepath).image
    FingerprintRow.sha256)

/-- Every file with stored data, never-fingerprinted ones included. -/
def listAllPaths (s : GraphStore) : Finset Text :=
  s.fingerprints.rows.image FingerprintRow.filepath ∪
    s.chunks.rows.image ChunkRow.filepath ∪
    s.extractionCache.rows.image CacheRow.filepath

@[simp] theorem mem_getChunksForFile (s : GraphStore) (filepath chunkId : Text) :
    chunkId ∈ s.getChunksForFile filepath ↔
      ∃ c ∈ s.chunks, c.filepath = filepath ∧ c.chunkId = chunkId := by
  simp only [getChunksForFile, List.mem_map, mem_orderBy, Finset.mem_image,
    Table.mem_select]
  constructor
  · rintro ⟨_, ⟨c, hc, rfl⟩, rfl⟩
    exact ⟨c, hc.1, hc.2, rfl⟩
  · rintro ⟨c, hc, hp, rfl⟩
    exact ⟨_, ⟨c, ⟨hc, hp⟩, rfl⟩, rfl⟩

@[simp] theorem mem_listAllPaths (s : GraphStore) (filepath : Text) :
    filepath ∈ s.listAllPaths ↔
      (∃ f ∈ s.fingerprints, f.filepath = filepath) ∨
        (∃ c ∈ s.chunks, c.filepath = filepath) ∨
        ∃ c ∈ s.extractionCache, c.filepath = filepath := by
  simp [listAllPaths]

theorem getHash_eq_some_iff (s : GraphStore) (filepath sha256 : Text) :
    s.getHash filepath = some sha256 ↔ ⟨filepath, sha256⟩ ∈ s.fingerprints := by
  rw [getHash, fetchOne_eq_some_iff]
  simp only [Finset.mem_image, Table.mem_select]
  constructor
  · rintro ⟨⟨f, ⟨hf, rfl⟩, rfl⟩, -⟩
    exact hf
  · intro h
    refine ⟨⟨_, ⟨h, rfl⟩, rfl⟩, ?_⟩
    rintro b ⟨f, ⟨hf, hp⟩, rfl⟩
    rw [s.fingerprints.eq_of_key hf h hp]

theorem getHash_eq_none_iff (s : GraphStore) (filepath : Text) :
    s.getHash filepath = none ↔ ∀ f ∈ s.fingerprints, f.filepath ≠ filepath := by
  rw [getHash, fetchOne_eq_none_iff, Finset.image_eq_empty, Finset.eq_empty_iff_forall_notMem]
  simp only [Table.mem_select, not_and, ne_eq]

theorem getCachedExtraction_eq_some_iff (s : GraphStore) (filepath : Text)
    (batchIndex : Nat) (promptSha256 result : Text) :
    s.getCachedExtraction filepath batchIndex promptSha256 = some result ↔
      ⟨filepath, batchIndex, promptSha256, result⟩ ∈ s.extractionCache := by
  rw [getCachedExtraction, fetchOne_eq_some_iff]
  simp only [Finset.mem_image, Table.mem_select]
  constructor
  · rintro ⟨⟨c, ⟨hc, rfl, rfl, rfl⟩, rfl⟩, -⟩
    exact hc
  · intro h
    refine ⟨⟨_, ⟨h, rfl, rfl, rfl⟩, rfl⟩, ?_⟩
    rintro b ⟨c, ⟨hc, rfl, rfl, hp⟩, rfl⟩
    rw [s.extractionCache.eq_of_key hc h rfl]

end GraphStore

end LocalGraphRag.Graph
