import LocalGraphRag.Graph.RecordStore

/-!
# When a write commits

A store method raises for a text that SQLite cannot bind, for an entity name
without a slug, or for a foreign key. The writes of one file are ordered so that
the foreign keys hold after each statement, which leaves the first two.
-/

namespace LocalGraphRag.Graph

open Python Relational

namespace Tables

/-- The id is that of an entity. -/
def HasEntity (t : Tables) (id : Text) : Prop := ∃ e ∈ t.entities, e.id = id

section Keys
variable {t u : Tables}

/-- Adding entities and mentions of entities keeps the foreign keys. -/
theorem ForeignKeys.of_entities (h : t.ForeignKeys) (hrel : u.relationships = t.relationships)
    (hchunks : u.chunks = t.chunks) (hlinks : u.chunkEntities = t.chunkEntities)
    (hentities : ∀ id, t.HasEntity id → u.HasEntity id)
    (hmentions : ∀ m ∈ u.entityMentions, u.HasEntity m.entityId) : u.ForeignKeys := by
  refine ⟨fun r hr => ?_, fun r hr => ?_, fun l hl => ?_, fun l hl => ?_, hmentions⟩
  · exact hentities _ (h.source r (hrel ▸ hr))
  · exact hentities _ (h.target r (hrel ▸ hr))
  · rw [hchunks]
    exact h.chunk l (hlinks ▸ hl)
  · exact hentities _ (h.entity l (hlinks ▸ hl))

theorem hasEntity_insertEntities {rows : List (Text × Text)} {id : Text} :
    (t.insertEntities rows).HasEntity id ↔ t.HasEntity id ∨ id ∈ rows.map Prod.fst := by
  refine (Table.exists_key_insertAllOrIgnore t.entities _ id).trans (or_congr_right ?_)
  rw [List.map_map]
  rfl

theorem hasEntity_refreshEntities {ids : Finset Text} {id : Text} :
    (t.refreshEntities ids).HasEntity id ↔ t.HasEntity id :=
  Table.exists_key_updateWhere t.entities _ _ (fun _ => by rfl) id

theorem ForeignKeys.insertEntities (h : t.ForeignKeys) (rows : List (Text × Text)) :
    (t.insertEntities rows).ForeignKeys :=
  h.of_entities rfl rfl rfl (fun _ hid => hasEntity_insertEntities.mpr (Or.inl hid))
    fun m hm => hasEntity_insertEntities.mpr (Or.inl (h.mention m hm))

theorem ForeignKeys.upsertMentions (h : t.ForeignKeys) (rows : List MentionRow)
    (hrows : ∀ m ∈ rows, t.HasEntity m.entityId) : (t.upsertMentions rows).ForeignKeys := by
  refine h.of_entities rfl rfl rfl (fun _ hid => hid) fun m hm => ?_
  obtain hm | ⟨hm, -⟩ := Table.mem_or_mem_of_mem_insertAllOrReplace hm
  · exact hrows m hm
  · exact h.mention m hm

theorem ForeignKeys.refreshEntities (h : t.ForeignKeys) (ids : Finset Text) :
    (t.refreshEntities ids).ForeignKeys :=
  h.of_entities rfl rfl rfl (fun _ => hasEntity_refreshEntities.mpr)
    fun m hm => hasEntity_refreshEntities.mpr (h.mention m hm)

theorem ForeignKeys.upsertRelationshipRows (h : t.ForeignKeys)
    {rows : List (Text × Text × Text × Text)}
    (hrows : ∀ k ∈ rows, t.HasEntity k.1 ∧ t.HasEntity k.2.1) :
    (t.upsertRelationshipRows rows).ForeignKeys := by
  have hends : ∀ r ∈ (t.upsertRelationshipRows rows).relationships,
      t.HasEntity r.sourceId ∧ t.HasEntity r.targetId := by
    intro r hr
    obtain ⟨x, hx, hxr, -⟩ | ⟨-, hmem, -⟩ := mem_upsertRelationshipRows_iff.mp hr
    · rw [show r.sourceId = x.sourceId from congrArg Prod.fst hxr.symm,
        show r.targetId = x.targetId from congrArg (fun k => k.2.1) hxr.symm]
      exact ⟨h.source x hx, h.target x hx⟩
    · exact hrows r.key hmem
  exact ⟨fun r hr => (hends r hr).1, fun r hr => (hends r hr).2, h.chunk, h.entity, h.mention⟩

theorem ForeignKeys.insertLinks (h : t.ForeignKeys) {rows : List LinkRow}
    (hrows : ∀ l ∈ rows, (∃ c ∈ t.chunks, c.chunkId = l.chunkId) ∧ t.HasEntity l.entityId) :
    (t.insertLinks rows).ForeignKeys := by
  have hends : ∀ l ∈ (t.insertLinks rows).chunkEntities,
      (∃ c ∈ t.chunks, c.chunkId = l.chunkId) ∧ t.HasEntity l.entityId := by
    intro l hl
    obtain hl | hl := Table.mem_or_mem_of_mem_insertAllOrIgnore hl
    · exact ⟨h.chunk l hl, h.entity l hl⟩
    · exact hrows l hl
  exact ⟨h.source, h.target, fun l hl => (hends l hl).1, fun l hl => (hends l hl).2, h.mention⟩

end Keys

end Tables

namespace GraphStore

section Commits
variable {s : GraphStore}

theorem exists_bindText_bind {α : Type} {parameters : List Text} {m : Except StoreError α} :
    (∃ a, (do bindText parameters; m) = .ok a) ↔
      (∀ p ∈ parameters, Encodable p) ∧ ∃ a, m = .ok a := by
  simp only [bindText_bind_eq_ok, exists_and_left]

/-- A transaction of one statement commits when the foreign keys hold after it. -/
theorem transaction_commits {f : Tables → Tables} (hf : (f s.toTables).ForeignKeys) :
    ∃ s', transaction [f] s = .ok s' :=
  ⟨_, transaction_cons_ok hf rfl⟩

/-- The foreign keys hold after each statement of `upsert_entities`. -/
theorem upsertEntities_transaction (entities : List Entity) (sourceDoc : Text) :
    ∃ s', transaction
      [Tables.insertEntities (entities.map fun e => (entitySlug e, strip e.name)),
        Tables.upsertMentions (entities.map (mentionRow sourceDoc)),
        Tables.refreshEntities (entities.map entitySlug).toFinset] s = .ok s' := by
  have hinsert := s.foreignKeys.insertEntities
    (entities.map fun e => (entitySlug e, strip e.name))
  have hids : (entities.map fun e => (entitySlug e, strip e.name)).map Prod.fst =
      entities.map entitySlug := by
    rw [List.map_map, Function.comp_def]
  have hmentions := hinsert.upsertMentions (entities.map (mentionRow sourceDoc)) (by
    intro m hm
    obtain ⟨e, he, rfl⟩ := List.mem_map.mp hm
    rw [Tables.hasEntity_insertEntities, hids]
    exact Or.inr (List.mem_map.mpr ⟨e, he, (mentionRow_entityId sourceDoc e).symm⟩))
  have hrefresh := hmentions.refreshEntities (entities.map entitySlug).toFinset
  exact ⟨_, transaction_cons_ok hinsert (transaction_cons_ok hmentions
    (transaction_cons_ok hrefresh rfl))⟩

/-- `upsert_entities` commits when every name has a slug and every text can be
bound. Slugs are ASCII, so they always can. -/
theorem upsertEntities_commits_iff (entities : List Entity) (sourceDoc : Text) :
    (∃ r, s.upsertEntities entities sourceDoc = .ok r) ↔
      (∀ e ∈ entities, entitySlug e ≠ []) ∧ Encodable sourceDoc ∧
        ∀ e ∈ entities, Encodable (strip e.name) ∧ Encodable e.description ∧
          ∀ type ∈ e.type, Encodable type := by
  unfold upsertEntities
  cases hrows : entities.mapM entityRow with
  | error e =>
      have hslugs : ¬ ∀ e ∈ entities, entitySlug e ≠ [] := fun h => by
        rw [mapM_entityRow.mpr ⟨h, rfl⟩] at hrows
        cases hrows
      constructor
      · rintro ⟨r, ⟨⟩⟩
      · exact fun h => absurd h.1 hslugs
  | ok rows =>
      obtain ⟨hslugs, rfl⟩ := mapM_entityRow.mp hrows
      apply exists_bindText_bind.trans
      obtain ⟨s', hs'⟩ := s.upsertEntities_transaction entities sourceDoc
      have hcommits : ∃ r, (do
          let s' ← transaction
            [Tables.insertEntities (entities.map fun e => (entitySlug e, strip e.name)),
              Tables.upsertMentions (entities.map (mentionRow sourceDoc)),
              Tables.refreshEntities (entities.map entitySlug).toFinset] s
          return (entities.map entitySlug, s')) = Except.ok (ε := StoreError) r := by
        rw [hs']
        exact ⟨_, rfl⟩
      simp only [List.map_map, Function.comp_def]
      apply (and_iff_left hcommits).trans
      have hencodable : ∀ e : Entity, Encodable (entitySlug e) :=
        fun e => slugify_encodable (strip e.name)
      simp only [List.mem_cons, List.mem_flatMap, List.mem_map, Option.mem_toList]
      constructor
      · intro h
        refine ⟨hslugs, h _ (Or.inl rfl), fun e he => ⟨?_, ?_, fun type htype => ?_⟩⟩
        · exact h _ (Or.inr ⟨_, ⟨e, he, rfl⟩, Or.inr (Or.inl rfl)⟩)
        · exact h _ (Or.inr ⟨_, ⟨e, he, rfl⟩, Or.inr (Or.inr (Or.inl rfl))⟩)
        · exact h _ (Or.inr ⟨_, ⟨e, he, rfl⟩, Or.inr (Or.inr (Or.inr htype))⟩)
      · intro ⟨_, hdoc, h⟩ p hp
        obtain rfl | ⟨_, ⟨e, he, rfl⟩, hp⟩ := hp
        · exact hdoc
        · dsimp only at hp
          obtain hp | hp | hp | hp := hp
          · exact hp ▸ hencodable e
          · exact hp ▸ (h e he).1
          · exact hp ▸ (h e he).2.1
          · exact (h e he).2.2 p hp

/-- The slugs `upsert_entities` returns are those of stored entities. -/
theorem upsertEntities_hasEntity {s' : GraphStore} {entities : List Entity}
    {sourceDoc : Text} {slugs : List Text}
    (h : s.upsertEntities entities sourceDoc = .ok (slugs, s')) :
    ∀ slug ∈ slugs, s'.toTables.HasEntity slug := by
  obtain ⟨rfl, htables⟩ := upsertEntities_tables h
  intro slug hslug
  rw [htables, Tables.hasEntity_refreshEntities]
  refine Tables.hasEntity_insertEntities.mpr (Or.inr ?_)
  rw [List.map_map, Function.comp_def]
  dsimp only
  exact hslug

/-- Registering chunks binds the path and the ids. -/
theorem registerChunks_encodable {s' : GraphStore} {chunks : List ChunkRow}
    (h : s.registerChunks chunks = .ok s') :
    ∀ c ∈ chunks, Encodable c.chunkId ∧ Encodable c.filepath := by
  have hbind := (bindText_bind_eq_ok.mp h).1
  simp only [List.mem_flatMap, List.mem_cons, List.not_mem_nil, or_false] at hbind
  exact fun c hc => ⟨hbind _ ⟨c, hc, Or.inl rfl⟩, hbind _ ⟨c, hc, Or.inr rfl⟩⟩

/-- `upsert_relationships` commits for stored endpoints when every text can be bound. -/
theorem upsertRelationships_commits_iff {relationships : List (Text × Text × Text × Text)}
    (hends : ∀ k ∈ relationships, s.toTables.HasEntity k.1 ∧ s.toTables.HasEntity k.2.1) :
    (∃ s', s.upsertRelationships relationships = .ok s') ↔ ∀ k ∈ relationships,
      Encodable k.1 ∧ Encodable k.2.1 ∧ Encodable k.2.2.1 ∧ Encodable k.2.2.2 := by
  unfold upsertRelationships
  split_ifs with hnil
  · simp [hnil]
  · rw [exists_bindText_bind,
      and_iff_left (transaction_commits (s.foreignKeys.upsertRelationshipRows hends))]
    simp only [List.mem_flatMap, List.mem_cons, List.not_mem_nil, or_false]
    constructor
    · intro h k hk
      exact ⟨h _ ⟨k, hk, Or.inl rfl⟩, h _ ⟨k, hk, Or.inr (Or.inl rfl)⟩,
        h _ ⟨k, hk, Or.inr (Or.inr (Or.inl rfl))⟩, h _ ⟨k, hk, Or.inr (Or.inr (Or.inr rfl))⟩⟩
    · rintro h p ⟨k, hk, rfl | rfl | rfl | rfl⟩
      · exact (h k hk).1
      · exact (h k hk).2.1
      · exact (h k hk).2.2.1
      · exact (h k hk).2.2.2

/-- `link_chunks` commits for stored chunks and entities with encodable ids. -/
theorem linkChunks_commits {pairs : List (Text × Text)}
    (hrows : ∀ p ∈ pairs, (∃ c ∈ s.chunks, c.chunkId = p.1) ∧ s.toTables.HasEntity p.2)
    (hbind : ∀ p ∈ pairs, Encodable p.1 ∧ Encodable p.2) :
    ∃ s', s.linkChunks pairs = .ok s' := by
  unfold linkChunks
  split_ifs with hnil
  · exact ⟨s, rfl⟩
  · refine exists_bindText_bind.mpr ⟨?_, transaction_commits
      (s.foreignKeys.insertLinks fun l hl => ?_)⟩
    · simp only [List.mem_flatMap, List.mem_cons, List.not_mem_nil, or_false]
      rintro t ⟨p, hp, rfl | rfl⟩
      · exact (hbind p hp).1
      · exact (hbind p hp).2
    · obtain ⟨p, hp, rfl⟩ := List.mem_map.mp hl
      exact hrows p hp

theorem upsertHash_commits {filepath sha256 : Text} (hpath : Encodable filepath)
    (hhash : Encodable sha256) : ∃ s', s.upsertHash filepath sha256 = .ok s' := by
  refine exists_bindText_bind.mpr ⟨by simpa using ⟨hpath, hhash⟩, transaction_commits ?_⟩
  exact s.foreignKeys.of_entities rfl rfl rfl (fun _ hid => hid) s.foreignKeys.mention

end Commits

end GraphStore

end LocalGraphRag.Graph
