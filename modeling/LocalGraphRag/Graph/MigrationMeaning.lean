import LocalGraphRag.Graph.Schema

/-!
# What the migration of a baseline database means

The backfilled mentions are exactly the references of documents to entities that
the rows of the baseline schema hold, with the entity's own type and description.
So the entities that the migration drops are those without a reference, and a
later refresh of any entity writes back what it has.
-/

namespace LocalGraphRag.Graph

open Python Relational

/-- The objects after all migrations. -/
def migratedSchema : Finset Definition :=
  {.entities, .relationships, .chunks, .chunkEntities, .communities, .fingerprints,
    .idxChunksFilepath, .idxRelationshipsSourceDoc, .idxRelationshipsTargetId,
    .idxChunkEntitiesEntityId, .idxEntitiesCommunity, .entityMentions,
    .idxEntityMentionsSourceDoc, .extractionCacheByPrompt}

namespace Database
variable {db : Database} {id doc : Text}

/-- A relationship endpoint or a chunk link references the entity. -/
def Refers (db : Database) (id : Text) : Prop :=
  (∃ r ∈ db.relationships, r.sourceId = some id ∨ r.targetId = some id) ∨
    ∃ l ∈ db.chunkEntities, l.entityId = some id

instance (db : Database) (id : Text) : Decidable (db.Refers id) :=
  inferInstanceAs (Decidable (_ ∨ _))

/-- A document refers to the entity: by a relationship that it states, or by a chunk. -/
def RefersFrom (db : Database) (id doc : Text) : Prop :=
  (∃ r ∈ db.relationships, r.sourceDoc = some doc ∧
      (r.sourceId = some id ∨ r.targetId = some id)) ∨
    ∃ l ∈ db.chunkEntities, ∃ c ∈ db.chunks, SqlEq c.chunkId l.chunkId ∧
      l.entityId = some id ∧ c.filepath = doc

theorem RefersFrom.refers (h : db.RefersFrom id doc) : db.Refers id := by
  obtain ⟨r, hr, -, hend⟩ | ⟨l, hl, -, -, -, hid, -⟩ := h
  · exact Or.inl ⟨r, hr, hend⟩
  · exact Or.inr ⟨l, hl, hid⟩

theorem mem_documentRefs : (some id, doc) ∈ db.documentRefs ↔ db.RefersFrom id doc := by
  simp only [documentRefs, RefersFrom, List.mem_dedup, List.mem_append, List.mem_filterMap,
    List.mem_flatMap, List.mem_map, List.mem_filter, RowTable.mem_rows, Option.map_eq_some_iff,
    Prod.mk.injEq, decide_eq_true_eq]
  constructor
  · rintro ((⟨r, hr, _, hdoc, hid, rfl⟩ | ⟨r, hr, _, hdoc, hid, rfl⟩) |
      ⟨l, hl, c, ⟨hc, heq⟩, hid, hdoc⟩)
    · exact Or.inl ⟨r, hr, hdoc, Or.inl hid⟩
    · exact Or.inl ⟨r, hr, hdoc, Or.inr hid⟩
    · exact Or.inr ⟨l, hl, c, hc, heq, hid, hdoc⟩
  · rintro (⟨r, hr, hdoc, hid | hid⟩ | ⟨l, hl, c, hc, heq, hid, hdoc⟩)
    · exact Or.inl (Or.inl ⟨r, hr, doc, hdoc, hid, rfl⟩)
    · exact Or.inl (Or.inr ⟨r, hr, doc, hdoc, hid, rfl⟩)
    · exact Or.inr ⟨l, hl, c, ⟨hc, heq⟩, hid, hdoc⟩

theorem mem_backfillRows {m : MentionRow} : m ∈ db.backfillRows ↔
    ∃ e ∈ db.entities, e.id = some m.entityId ∧ db.RefersFrom m.entityId m.sourceDoc ∧
      m.type = e.type ∧ m.description = e.description := by
  simp only [backfillRows, List.mem_flatMap, List.mem_map, List.mem_filter, RowTable.mem_rows,
    Option.mem_toList, decide_eq_true_eq]
  constructor
  · rintro ⟨e, he, id, hid, ⟨ref, doc⟩, ⟨hmem, rfl⟩, rfl⟩
    exact ⟨e, he, hid, mem_documentRefs.mp hmem, rfl, rfl⟩
  · rintro ⟨e, he, hid, href, htype, hdescription⟩
    refine ⟨e, he, m.entityId, hid, (some m.entityId, m.sourceDoc),
      ⟨mem_documentRefs.mpr href, rfl⟩, ?_⟩
    rw [← htype, ← hdescription]

/-- A new table of mentions holds all the rows that are backfilled. -/
theorem mem_backfillMentions (hnew : db.entityMentions = ∅) {m : MentionRow} :
    m ∈ db.backfillMentions.entityMentions ↔ m ∈ db.backfillRows := by
  simp only [backfillMentions, hnew]
  apply Table.mem_insertAllOrIgnore_empty
  intro x hx y hy hkey
  obtain ⟨e, he, hid, -, htype, hdescription⟩ := mem_backfillRows.mp hx
  obtain ⟨e', he', hid', -, htype', hdescription'⟩ := mem_backfillRows.mp hy
  have hentity : x.entityId = y.entityId := congrArg Prod.fst hkey
  have hdoc : x.sourceDoc = y.sourceDoc := congrArg Prod.snd hkey
  have heq : e = e' := db.entities.eq_of_key he he' hid (hid'.trans (by rw [hentity]))
  cases x
  cases y
  simp_all

/-- Before the backfill there are no mentions; nothing else has changed. -/
def withoutMentions (db : Database) : Database := { db with entityMentions := ∅ }

/-- The rows after the backfill. -/
def backfilled (db : Database) : Database := db.withoutMentions.backfillMentions

section Backfilled

theorem mem_backfilled {m : MentionRow} : m ∈ db.backfilled.entityMentions ↔
    ∃ e ∈ db.entities, e.id = some m.entityId ∧ db.RefersFrom m.entityId m.sourceDoc ∧
      m.type = e.type ∧ m.description = e.description :=
  (mem_backfillMentions rfl).trans mem_backfillRows

/-- What an endpoint or a link refers to is an entity. -/
theorem ForeignKeys.exists_of_refers (h : db.ForeignKeys) (hid : db.Refers id) :
    ∃ e ∈ db.entities, e.id = some id := by
  obtain ⟨r, hr, hid | hid⟩ | ⟨l, hl, hid⟩ := hid
  · exact h.source r hr id hid
  · exact h.target r hr id hid
  · exact h.entity l hl id hid

/-- The mentions are the references of documents. -/
theorem exists_backfilled_iff (h : db.ForeignKeys) :
    (∃ m ∈ db.backfilled.entityMentions, m.entityId = id ∧ m.sourceDoc = doc) ↔
      db.RefersFrom id doc := by
  constructor
  · rintro ⟨m, hm, rfl, rfl⟩
    obtain ⟨-, -, -, href, -⟩ := mem_backfilled.mp hm
    exact href
  · intro href
    obtain ⟨e, he, hid⟩ := h.exists_of_refers href.refers
    exact ⟨⟨id, doc, e.type, e.description⟩, mem_backfilled.mpr ⟨e, he, hid, href, rfl, rfl⟩,
      rfl, rfl⟩

/-- An entity is unreferenced when no endpoint and no link refers to it. -/
theorem not_unreferenced_backfilled_iff {entityId : Option Text} :
    ¬ db.backfilled.Unreferenced entityId ↔ ∃ id, entityId = some id ∧ db.Refers id := by
  simp only [Unreferenced, not_and_or, not_not]
  constructor
  · rintro (⟨m, hm, id, hmid, rfl⟩ | ⟨r, hr, id, hid, rfl⟩ | ⟨r, hr, id, hid, rfl⟩ |
      ⟨l, hl, id, hid, rfl⟩)
    · obtain ⟨-, -, -, href, -⟩ := mem_backfilled.mp hm
      exact ⟨id, rfl, Option.some_inj.mp hmid ▸ href.refers⟩
    · exact ⟨id, rfl, Or.inl ⟨r, hr, Or.inl hid⟩⟩
    · exact ⟨id, rfl, Or.inl ⟨r, hr, Or.inr hid⟩⟩
    · exact ⟨id, rfl, Or.inr ⟨l, hl, hid⟩⟩
  · rintro ⟨id, rfl, ⟨r, hr, hid | hid⟩ | ⟨l, hl, hid⟩⟩
    · exact Or.inr (Or.inl ⟨r, hr, id, hid, rfl⟩)
    · exact Or.inr (Or.inr (Or.inl ⟨r, hr, id, hid, rfl⟩))
    · exact Or.inr (Or.inr (Or.inr ⟨l, hl, id, hid, rfl⟩))

theorem ForeignKeys.backfilled (h : db.ForeignKeys) : db.backfilled.ForeignKeys := by
  refine ⟨h.source, h.target, h.chunk, h.entity, fun m hm => ?_⟩
  obtain ⟨e, he, hid, -⟩ := mem_backfilled.mp hm
  exact ⟨e, he, hid⟩

/-- Nothing refers to an entity that is deleted. -/
theorem ForeignKeys.deleteUnreferenced (h : db.backfilled.ForeignKeys) :
    db.backfilled.deleteUnreferenced.ForeignKeys := by
  have hkept : ∀ {id}, db.Refers id → (∃ e ∈ db.entities, e.id = some id) →
      ∃ e ∈ db.backfilled.deleteUnreferenced.entities, e.id = some id := by
    rintro id hid ⟨e, he, heid⟩
    refine ⟨e, (RowTable.mem_deleteWhere ..).mpr ⟨he, ?_⟩, heid⟩
    exact not_unreferenced_backfilled_iff.mpr ⟨id, heid, hid⟩
  refine ⟨fun r hr id hid => ?_, fun r hr id hid => ?_, h.chunk, fun l hl id hid => ?_,
    fun m hm => ?_⟩
  · exact hkept (Or.inl ⟨r, hr, Or.inl hid⟩) (h.source r hr id hid)
  · exact hkept (Or.inl ⟨r, hr, Or.inr hid⟩) (h.target r hr id hid)
  · exact hkept (Or.inr ⟨l, hl, hid⟩) (h.entity l hl id hid)
  · obtain ⟨e, he, hid, href, -⟩ := mem_backfilled.mp hm
    exact hkept href.refers ⟨e, he, hid⟩

/-- The foreign keys are about the rows of five tables. -/
theorem ForeignKeys.withSchema (h : db.ForeignKeys) (version : Nat)
    (objects : Finset Definition) (cache : Table StoredReply StoredReply.key) :
    ForeignKeys { db with userVersion := version, objects := objects, extractionCache := cache } :=
  ⟨h.source, h.target, h.chunk, h.entity, h.mention⟩

end Backfilled

/-- The rows and the schema that the migration of a baseline database leaves. -/
def migrated (db : Database) : Database :=
  { db.backfilled.deleteUnreferenced with
    userVersion := 3
    objects := migratedSchema
    extractionCache := ∅ }

/-- The schema when the backfill starts. -/
def linkedSchema : Finset Definition :=
  insert .idxEntityMentionsSourceDoc (insert .entityMentions (insert .idxEntitiesCommunity
    (insert .idxChunkEntitiesEntityId (insert .idxRelationshipsTargetId
      (insert .idxRelationshipsSourceDoc (insert .idxChunksFilepath baseline.toFinset))))))

theorem redefinedSchema : insert .extractionCacheByPrompt (linkedSchema.filter fun o =>
    o.name ≠ "extraction_cache" ∧ o.on ≠ some "extraction_cache") = migratedSchema := by
  decide

/-- The statements before and after the two that write rows all succeed. -/
theorem migrate_eq (hversion : db.userVersion = 0) (hobjects : db.objects = baseline.toFinset)
    (h : db.ForeignKeys) : migrate db = .ok db.migrated := by
  obtain ⟨version, objects, e, r, c, l, x, m⟩ := db
  subst hversion hobjects
  set linked : Database := ⟨1, linkedSchema, e, r, c, l, x, ∅⟩ with hlinked
  have hbackfill : linked.backfillMentions.check = .ok linked.backfillMentions :=
    if_pos (h.backfilled.withSchema 1 linkedSchema x)
  have hdelete : linked.backfillMentions.deleteUnreferenced.check =
      .ok linked.backfillMentions.deleteUnreferenced :=
    if_pos (h.backfilled.deleteUnreferenced.withSchema 1 linkedSchema x)
  calc migrate ⟨0, baseline.toFinset, e, r, c, l, x, m⟩
      = linked.backfillMentions.check.bind fun db =>
          ((migrationStatements 0).drop 9).foldlM Statement.exec db := rfl
    _ = linked.backfillMentions.deleteUnreferenced.check.bind fun db =>
          ((migrationStatements 0).drop 10).foldlM Statement.exec db := by
        rw [hbackfill]
        rfl
    _ = _ := by
        rw [hdelete, migrated, ← redefinedSchema]
        rfl

/-- The mentions of a migrated entity repeat its own columns. -/
theorem of_mem_mentionsOf_migrated {e : StoredEntity} (he : e ∈ db.entities) {m : MentionRow}
    (hm : m ∈ db.migrated.mentionsOf e.id) :
    m.type = e.type ∧ m.description = e.description := by
  obtain ⟨hm, id, hmid, hid⟩ := (Table.mem_select ..).mp hm
  obtain ⟨e', he', hid', -, htype, hdescription⟩ := mem_backfilled.mp hm
  rw [hmid] at hid'
  rw [db.entities.eq_of_key he he' hid hid']
  exact ⟨htype, hdescription⟩

/-- Refreshing a migrated entity writes back what it has. -/
theorem refreshEntities_migrated (ids : Finset Text) :
    List.Forall₂ (fun e e' : StoredEntity => e'.id = e.id ∧ e'.type = e.type ∧
      e'.description.getD [] = e.description.getD [])
      db.migrated.entities.rows (db.migrated.refreshEntities ids).entities.rows := by
  apply List.forall₂_map_right_iff.mpr
  apply List.forall₂_same.mpr
  intro e he
  have hold : e ∈ db.entities := ((RowTable.mem_deleteWhere ..).mp he).1
  split_ifs with hcond
  · obtain ⟨m, hm, hmid⟩ := hcond.2
    have hne : (db.migrated.mentionsOf e.id).Nonempty := ⟨m, (Table.mem_select ..).mpr ⟨hm, hmid⟩⟩
    refine ⟨rfl, commonType_of_forall hne fun m hm => ?_,
      longestDescription_of_forall hne fun m hm => ?_⟩
    · exact (of_mem_mentionsOf_migrated hold hm).1
    · exact (of_mem_mentionsOf_migrated hold hm).2
  · exact ⟨rfl, rfl, rfl⟩

/-- A baseline database migrates to one with the same relationships, chunks and links,
where the mentions are the references of documents and the entities are those with a
reference, and where a refresh of any entities changes no type and no description. -/
theorem migration_preserves_meaning (hversion : db.userVersion = 0)
    (hobjects : db.objects = baseline.toFinset) (h : db.ForeignKeys) :
    ∃ db', migrate db = .ok db' ∧ db'.userVersion = migrations.length ∧
      (∀ e, e ∈ db'.entities ↔ e ∈ db.entities ∧ ∃ id, e.id = some id ∧ db.Refers id) ∧
      (∀ id doc, (∃ m ∈ db'.entityMentions, m.entityId = id ∧ m.sourceDoc = doc) ↔
        db.RefersFrom id doc) ∧
      db'.relationships = db.relationships ∧ db'.chunks = db.chunks ∧
      db'.chunkEntities = db.chunkEntities ∧ db'.ForeignKeys ∧
      ∀ ids, List.Forall₂ (fun e e' : StoredEntity => e'.id = e.id ∧ e'.type = e.type ∧
        e'.description.getD [] = e.description.getD [])
        db'.entities.rows (db'.refreshEntities ids).entities.rows := by
  refine ⟨db.migrated, migrate_eq hversion hobjects h, rfl, fun e => ?_, fun id doc => ?_, rfl,
    rfl, rfl, h.backfilled.deleteUnreferenced.withSchema _ _ _, refreshEntities_migrated⟩
  · apply (RowTable.mem_deleteWhere ..).trans
    rw [not_unreferenced_backfilled_iff]
    rfl
  · exact exists_backfilled_iff h

/-- An old database: an entity with a relationship, one with a chunk, and one with
neither. -/
def legacyEntities : List StoredEntity :=
  [⟨some (text "linked"), text "Linked", some (text "CLASS"), some (text "merged"), none⟩,
    ⟨some (text "chunked"), text "Chunked", none, some (text "via chunk link"), none⟩,
    ⟨some (text "orphan"), text "Orphan", some (text "OTHER"), none, none⟩]

theorem legacyEntities_keyed : (legacyEntities.filterMap StoredEntity.id).Nodup := by decide

def legacyDatabase : Database where
  userVersion := 0
  objects := baseline.toFinset
  entities := ⟨legacyEntities, legacyEntities_keyed⟩
  relationships := RowTable.single
    ⟨some (text "linked"), some (text "chunked"), text "uses", some 1, some (text "a.py")⟩
  chunks := RowTable.single ⟨some (text "c1"), text "b.py", 0⟩
  chunkEntities := RowTable.single ⟨some (text "c1"), some (text "chunked")⟩
  extractionCache := ∅
  entityMentions := ∅

theorem migration_preserves_meaning_legacy : ∃ db', migrate legacyDatabase = .ok db' ∧
    db'.ForeignKeys ∧ (∀ e ∈ db'.entities, e.id ≠ some (text "orphan")) ∧
    ∃ m ∈ db'.entityMentions, m.entityId = text "chunked" ∧ m.sourceDoc = text "b.py" := by
  have hkeys : legacyDatabase.ForeignKeys := by decide
  have horphan : ¬ legacyDatabase.Refers (text "orphan") := by decide
  have hchunk : legacyDatabase.RefersFrom (text "chunked") (text "b.py") :=
    Or.inr ⟨_, List.mem_singleton_self _, _, List.mem_singleton_self _, ⟨_, rfl, rfl⟩, rfl, rfl⟩
  obtain ⟨db', hdb, -, hentities, hmentions, -, -, -, hkeys', -⟩ :=
    migration_preserves_meaning rfl rfl hkeys
  refine ⟨db', hdb, hkeys', fun e he hid => ?_, (hmentions _ _).mpr hchunk⟩
  obtain ⟨-, id, hid', href⟩ := (hentities e).mp he
  rw [hid, Option.some_inj] at hid'
  exact horphan (hid' ▸ href)

section Holds

/-- The entity row that the file holds for one of the store. -/
def storedEntity (e : EntityRow) : StoredEntity :=
  ⟨some e.id, e.name, e.type, e.description, e.community⟩

/-- The file holds the rows of the store's tables that an entity's references are in. -/
structure Holds (db : Database) (t : Tables) : Prop where
  entities : ∀ e, e ∈ db.entities ↔ ∃ x ∈ t.entities, e = storedEntity x
  relationships : ∀ r, r ∈ db.relationships ↔ ∃ x ∈ t.relationships, r =
    ⟨some x.sourceId, some x.targetId, x.label, some x.weight, some x.sourceDoc⟩
  chunkEntities : ∀ l, l ∈ db.chunkEntities ↔ ∃ x ∈ t.chunkEntities,
    l = ⟨some x.chunkId, some x.entityId⟩
  entityMentions : db.entityMentions = t.entityMentions

variable {t : Tables} (h : db.Holds t)

include h

/-- The clause `UNREFERENCED_ENTITY_SQL` means the same in the file and in the store. -/
theorem Holds.unreferenced_iff : db.Unreferenced (some id) ↔ t.Unreferenced id := by
  have hrel : ∀ p : StoredRelationship → Prop, (∃ r ∈ db.relationships, p r) ↔
      ∃ x ∈ t.relationships,
        p ⟨some x.sourceId, some x.targetId, x.label, some x.weight, some x.sourceDoc⟩ := by
    intro p
    simp only [h.relationships]
    constructor
    · rintro ⟨_, ⟨x, hx, rfl⟩, hp⟩
      exact ⟨x, hx, hp⟩
    · exact fun ⟨x, hx, hp⟩ => ⟨_, ⟨x, hx, rfl⟩, hp⟩
  have hlinks : (∃ l ∈ db.chunkEntities, l.entityId = some id) ↔
      ∃ x ∈ t.chunkEntities, x.entityId = id := by
    simp only [h.chunkEntities]
    constructor
    · rintro ⟨_, ⟨x, hx, rfl⟩, hp⟩
      exact ⟨x, hx, Option.some_inj.mp hp⟩
    · rintro ⟨x, hx, rfl⟩
      exact ⟨_, ⟨x, hx, rfl⟩, rfl⟩
  simp only [Unreferenced, Tables.Unreferenced, hrel, sqlEq_some, hlinks, h.entityMentions,
    Option.some_inj]

/-- A refresh of the file is a refresh of the store. -/
theorem Holds.refreshEntities (ids : Finset Text) :
    (db.refreshEntities ids).Holds (t.refreshEntities ids) := by
  refine ⟨fun e => ?_, h.relationships, h.chunkEntities, h.entityMentions⟩
  have hmentions : ∀ x : EntityRow, db.mentionsOf (storedEntity x).id = t.mentionsOf x.id := by
    intro x
    simp only [mentionsOf, Tables.mentionsOf, storedEntity, h.entityMentions, sqlEq_some,
      Option.some_inj]
  have hrow : ∀ x : EntityRow,
      (if (∃ id ∈ ids, (storedEntity x).id = some id) ∧
          ∃ m ∈ db.entityMentions, SqlEq (some m.entityId) (storedEntity x).id then
        { storedEntity x with
          type := commonType (db.mentionsOf (storedEntity x).id)
          description := longestDescription (db.mentionsOf (storedEntity x).id) }
      else storedEntity x) =
      storedEntity (if x.id ∈ ids ∧ ∃ m ∈ t.entityMentions, m.entityId = x.id then
        { x with
          type := commonType (t.mentionsOf x.id)
          description := longestDescription (t.mentionsOf x.id) }
      else x) := by
    intro x
    have hcond : ((∃ id ∈ ids, (storedEntity x).id = some id) ∧
        ∃ m ∈ db.entityMentions, SqlEq (some m.entityId) (storedEntity x).id) ↔
        x.id ∈ ids ∧ ∃ m ∈ t.entityMentions, m.entityId = x.id := by
      simp [storedEntity, sqlEq_some, h.entityMentions]
    simp only [hcond, hmentions]
    split_ifs <;> rfl
  apply (RowTable.mem_updateWhere _ _ _ (fun _ => by rfl) _).trans
  simp only [h.entities, Tables.mem_refreshEntities]
  constructor
  · rintro ⟨_, ⟨x, hx, rfl⟩, rfl⟩
    exact ⟨_, ⟨x, hx, rfl⟩, hrow x⟩
  · rintro ⟨_, ⟨x, hx, rfl⟩, rfl⟩
    exact ⟨_, ⟨x, hx, rfl⟩, (hrow x).symm⟩

end Holds

end Database

end LocalGraphRag.Graph
