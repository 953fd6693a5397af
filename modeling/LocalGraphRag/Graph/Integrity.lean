import LocalGraphRag.Graph.Summarizer

/-!
# Referential integrity of the graph store

No entity is left without a reference: what writes an entity mentions it, and a
deletion looks at every entity that it may take the last reference from. It also
never trips over a foreign key, because links go before their chunks and only
entities without references are deleted.
-/

namespace LocalGraphRag.Graph

open Python Relational

/-- The public mutators of the graph; a partition is any list of groups. -/
inductive Mutation where
  | upsertEntities (entities : List Entity) (sourceDoc : Text)
  | upsertRelationships (relationships : List (Text × Text × Text × Text))
  | registerChunks (chunks : List ChunkRow)
  | linkChunks (pairs : List (Text × Text))
  | deleteFileData (filepath : Text)
  | purgeFile (filepath : Text)
  | detectCommunities (communities : List (List Text))

def Mutation.apply : Mutation → GraphStore → Except StoreError GraphStore
  | upsertEntities entities sourceDoc, s => (s.upsertEntities entities sourceDoc).map Prod.snd
  | upsertRelationships relationships, s => s.upsertRelationships relationships
  | registerChunks chunks, s => s.registerChunks chunks
  | linkChunks pairs, s => s.linkChunks pairs
  | deleteFileData filepath, s => s.deleteFileData filepath
  | purgeFile filepath, s => s.purgeFile filepath
  | detectCommunities communities, s => s.detectCommunities communities

/-- A call that raises rolls back and changes nothing. -/
def GraphStore.mutate (s : GraphStore) (m : Mutation) : GraphStore :=
  match m.apply s with
  | .ok s' => s'
  | .error _ => s

namespace Tables

/-- Every entity is mentioned, an endpoint, or linked to a chunk. -/
def Referenced (t : Tables) : Prop := ∀ e ∈ t.entities, ¬ t.Unreferenced e.id

section References
variable {t u : Tables}

theorem not_unreferenced_iff {id : Text} : ¬ t.Unreferenced id ↔
    (∃ m ∈ t.entityMentions, m.entityId = id) ∨ (∃ r ∈ t.relationships, r.sourceId = id) ∨
      (∃ r ∈ t.relationships, r.targetId = id) ∨ ∃ l ∈ t.chunkEntities, l.entityId = id := by
  simp only [Unreferenced, not_and_or, not_not]

/-- References survive a change that keeps each of them. -/
theorem not_unreferenced_of_imp {id : Text} (h : ¬ t.Unreferenced id)
    (hmentions : (∃ m ∈ t.entityMentions, m.entityId = id) →
      ∃ m ∈ u.entityMentions, m.entityId = id)
    (hsources : (∃ r ∈ t.relationships, r.sourceId = id) →
      ∃ r ∈ u.relationships, r.sourceId = id)
    (htargets : (∃ r ∈ t.relationships, r.targetId = id) →
      ∃ r ∈ u.relationships, r.targetId = id)
    (hlinks : (∃ l ∈ t.chunkEntities, l.entityId = id) →
      ∃ l ∈ u.chunkEntities, l.entityId = id) : ¬ u.Unreferenced id := by
  rw [not_unreferenced_iff] at h ⊢
  exact h.imp hmentions (Or.imp hsources (Or.imp htargets hlinks))

/-- The entities keep their ids and the references stay. -/
theorem Referenced.of_ids (h : t.Referenced)
    (hids : ∀ e ∈ u.entities, ∃ x ∈ t.entities, x.id = e.id)
    (hrefs : ∀ id, ¬ t.Unreferenced id → ¬ u.Unreferenced id) : u.Referenced := by
  intro e he
  obtain ⟨x, hx, hid⟩ := hids e he
  rw [← hid]
  exact hrefs x.id (h x hx)

theorem exists_of_mem_refreshEntities {ids : Finset Text} {e : EntityRow}
    (he : e ∈ (t.refreshEntities ids).entities) : ∃ x ∈ t.entities, x.id = e.id :=
  hasEntity_refreshEntities.mp ⟨e, he, rfl⟩

theorem exists_key_upsertRelationshipRows (rows : List (Text × Text × Text × Text))
    {k : Text × Text × Text × Text} (h : ∃ r ∈ t.relationships, r.key = k) :
    ∃ r ∈ (t.upsertRelationshipRows rows).relationships, r.key = k := by
  induction rows generalizing t with
  | nil => exact h
  | cons row rows ih =>
      apply ih (t := t.upsertRelationshipRows [row])
      exact (Table.exists_key_upsert _ _ _ (fun _ => by rfl) _).mpr (Or.inl h)

end References

section Deletion
variable (filepath : Text) {t : Tables}

/-- What touches no row of the file loses no reference. -/
theorem unreferenced_deleteFileRows {id : Text} (hid : id ∉ t.fileEntityIds filepath)
    (h : ¬ t.Unreferenced id) : ¬ (t.deleteFileRows filepath).Unreferenced id := by
  simp only [fileEntityIds, Finset.mem_union, Finset.mem_image, Table.mem_select, not_or] at hid
  obtain ⟨⟨⟨hmention, hlink⟩, hsource⟩, htarget⟩ := hid
  apply not_unreferenced_of_imp h
  · rintro ⟨m, hm, rfl⟩
    exact ⟨m, (Table.mem_deleteWhere ..).mpr ⟨hm, fun hdoc => hmention ⟨m, ⟨hm, hdoc⟩, rfl⟩⟩, rfl⟩
  · rintro ⟨r, hr, rfl⟩
    exact ⟨r, (Table.mem_deleteWhere ..).mpr ⟨hr, fun hdoc => hsource ⟨r, ⟨hr, hdoc⟩, rfl⟩⟩, rfl⟩
  · rintro ⟨r, hr, rfl⟩
    exact ⟨r, (Table.mem_deleteWhere ..).mpr ⟨hr, fun hdoc => htarget ⟨r, ⟨hr, hdoc⟩, rfl⟩⟩, rfl⟩
  · rintro ⟨l, hl, rfl⟩
    exact ⟨l, (Table.mem_deleteWhere ..).mpr ⟨hl, fun hfile => hlink ⟨l, ⟨hl, hfile⟩, rfl⟩⟩, rfl⟩

/-- The deletion leaves no entity without a reference. -/
theorem Referenced.deleteFileRows (h : t.Referenced) : (t.deleteFileRows filepath).Referenced := by
  intro e he
  obtain ⟨x, hx, hid⟩ := exists_of_mem_refreshEntities he
  obtain ⟨hx, hkept⟩ := (Table.mem_deleteWhere ..).mp hx
  rw [← hid]
  by_cases htouched : x.id ∈ t.fileEntityIds filepath
  · -- the statement that deletes entities looked at this one
    exact fun hun => hkept ⟨htouched, hun⟩
  · exact unreferenced_deleteFileRows filepath htouched (h x hx)

/-- Links go first, so no chunk of the file is linked when it goes. -/
theorem ForeignKeys.deleteFileLinks (h : t.ForeignKeys) :
    (t.deleteFileLinks filepath).ForeignKeys := by
  refine ⟨h.source, h.target, fun l hl => ?_, fun l hl => ?_, h.mention⟩
  · exact h.chunk l ((Table.mem_deleteWhere ..).mp hl).1
  · exact h.entity l ((Table.mem_deleteWhere ..).mp hl).1

theorem ForeignKeys.deleteFileChunks (h : (t.deleteFileLinks filepath).ForeignKeys) :
    ((t.deleteFileLinks filepath).deleteFileChunks filepath).ForeignKeys := by
  refine ⟨h.source, h.target, fun l hl => ?_, h.entity, h.mention⟩
  obtain ⟨c, hc, hid⟩ := h.chunk l hl
  have hother := ((Table.mem_deleteWhere ..).mp hl).2
  exact ⟨c, (Table.mem_deleteWhere ..).mpr ⟨hc, fun hfile => hother ⟨c, hc, hid, hfile⟩⟩, hid⟩

theorem ForeignKeys.deleteFileRelationships (h : t.ForeignKeys) :
    (t.deleteFileRelationships filepath).ForeignKeys := by
  refine ⟨fun r hr => ?_, fun r hr => ?_, h.chunk, h.entity, h.mention⟩
  · exact h.source r ((Table.mem_deleteWhere ..).mp hr).1
  · exact h.target r ((Table.mem_deleteWhere ..).mp hr).1

theorem ForeignKeys.deleteFileMentions (h : t.ForeignKeys) :
    (t.deleteFileMentions filepath).ForeignKeys :=
  ⟨h.source, h.target, h.chunk, h.entity,
    fun m hm => h.mention m ((Table.mem_deleteWhere ..).mp hm).1⟩

/-- Only entities that nothing references are deleted. -/
theorem ForeignKeys.deleteUnreferenced (h : t.ForeignKeys) (touched : Finset Text) :
    (t.deleteUnreferenced touched).ForeignKeys := by
  have hkept : ∀ {id}, (¬ t.Unreferenced id) → t.HasEntity id →
      (t.deleteUnreferenced touched).HasEntity id := by
    rintro id hid ⟨e, he, rfl⟩
    exact ⟨e, (Table.mem_deleteWhere ..).mpr ⟨he, fun hdel => hid hdel.2⟩, rfl⟩
  refine ⟨fun r hr => hkept ?_ (h.source r hr), fun r hr => hkept ?_ (h.target r hr), h.chunk,
    fun l hl => hkept ?_ (h.entity l hl), fun m hm => hkept ?_ (h.mention m hm)⟩
  · exact fun hun => hun.2.1 ⟨r, hr, rfl⟩
  · exact fun hun => hun.2.2.1 ⟨r, hr, rfl⟩
  · exact fun hun => hun.2.2.2 ⟨l, hl, rfl⟩
  · exact fun hun => hun.1 ⟨m, hm, rfl⟩

end Deletion

end Tables

namespace GraphStore
variable {s s' : GraphStore}

/-- The foreign keys hold after each statement of a deletion. -/
theorem deleteFile_transaction (filepath : Text) (s : GraphStore)
    {rest : List (Tables → Tables)}
    (hrest : ∀ s₁ : GraphStore, ∃ s', transaction rest s₁ = .ok s') :
    ∃ s', transaction
      (Tables.deleteFileStatements (s.fileEntityIds filepath) filepath ++ rest) s = .ok s' := by
  have hlinks := s.foreignKeys.deleteFileLinks filepath
  have hchunks := hlinks.deleteFileChunks
  have hrelationships := hchunks.deleteFileRelationships filepath
  have hmentions := hrelationships.deleteFileMentions filepath
  have hentities := hmentions.deleteUnreferenced (s.fileEntityIds filepath)
  have hrefresh := hentities.refreshEntities (s.fileEntityIds filepath)
  have hmark : ((s.toTables.deleteFileRows filepath)).ForeignKeys :=
    hrefresh.of_entities rfl rfl rfl (fun _ h => h) hrefresh.mention
  obtain ⟨s', hs'⟩ := hrest ⟨_, hmark⟩
  exact ⟨s', transaction_cons_ok hlinks (transaction_cons_ok hchunks
    (transaction_cons_ok hrelationships (transaction_cons_ok hmentions
      (transaction_cons_ok hentities (transaction_cons_ok hrefresh
        (transaction_cons_ok hmark hs'))))))⟩

/-- `delete_file_data` commits for every path that SQLite can bind. -/
theorem deleteFileData_commits {filepath : Text} (hpath : Encodable filepath) :
    ∃ s', s.deleteFileData filepath = .ok s' := by
  apply exists_bindText_bind.mpr
  refine ⟨by simpa using hpath, ?_⟩
  have hdelete : ∃ s', transaction
      (Tables.deleteFileStatements (s.fileEntityIds filepath) filepath ++ []) s = .ok s' :=
    deleteFile_transaction filepath s fun s₁ => ⟨s₁, rfl⟩
  rwa [List.append_nil] at hdelete

theorem purgeFile_commits {filepath : Text} (hpath : Encodable filepath) :
    ∃ s', s.purgeFile filepath = .ok s' := by
  apply exists_bindText_bind.mpr
  refine ⟨by simpa using hpath, deleteFile_transaction filepath s fun s₁ => ?_⟩
  exact transaction_commits
    (s₁.foreignKeys.of_entities rfl rfl rfl (fun _ h => h) s₁.foreignKeys.mention)

/-- The path is all that a deletion can fail on. -/
theorem deletions_never_foreignKey (s : GraphStore) (filepath : Text) :
    s.deleteFileData filepath ≠ .error .foreignKey ∧
      s.purgeFile filepath ≠ .error .foreignKey := by
  by_cases hpath : Encodable filepath
  · obtain ⟨s₁, h₁⟩ := deleteFileData_commits (s := s) hpath
    obtain ⟨s₂, h₂⟩ := purgeFile_commits (s := s) hpath
    rw [h₁, h₂]
    simp
  · have hbind : bindText [filepath] = .error .unencodable := by
      simp [bindText, hpath]
    simp only [deleteFileData, purgeFile, hbind]
    exact ⟨by rintro ⟨⟩, by rintro ⟨⟩⟩

section Mutators
variable (h : s.toTables.Referenced)

include h

/-- Every new entity is mentioned by the document that it comes from. -/
theorem referenced_upsertEntities {entities : List Entity} {sourceDoc : Text}
    {slugs : List Text} (hs : s.upsertEntities entities sourceDoc = .ok (slugs, s')) :
    s'.toTables.Referenced := by
  obtain ⟨-, htables⟩ := upsertEntities_tables hs
  rw [htables]
  intro e he
  obtain ⟨x, hx, hid⟩ := Tables.exists_of_mem_refreshEntities he
  rw [← hid]
  have hmentioned : ∀ id, (∃ m ∈ s.entityMentions, m.entityId = id) ∨
      id ∈ entities.map entitySlug →
      ∃ m ∈ s.entityMentions.insertAllOrReplace (entities.map (mentionRow sourceDoc)),
        m.entityId = id := by
    intro id hid
    have hkey : ∃ doc, (∃ m ∈ s.entityMentions, m.key = (id, doc)) ∨
        (id, doc) ∈ (entities.map (mentionRow sourceDoc)).map MentionRow.key := by
      obtain ⟨m, hm, rfl⟩ | hid := hid
      · exact ⟨m.sourceDoc, Or.inl ⟨m, hm, rfl⟩⟩
      · obtain ⟨e', he', rfl⟩ := List.mem_map.mp hid
        refine ⟨sourceDoc, Or.inr ?_⟩
        rw [← mentionRow_key]
        exact List.mem_map_of_mem (List.mem_map_of_mem he')
    obtain ⟨doc, hkey⟩ := hkey
    obtain ⟨m, hm, hmkey⟩ := (Table.exists_key_insertAllOrReplace _ _ _).mpr hkey
    exact ⟨m, hm, congrArg Prod.fst hmkey⟩
  obtain hx | hx := Table.mem_or_mem_of_mem_insertAllOrIgnore hx
  · apply Tables.not_unreferenced_of_imp (h x hx)
    · exact fun hm => hmentioned x.id (Or.inl hm)
    · exact id
    · exact id
    · exact id
  · obtain ⟨r, hr, rfl⟩ := List.mem_map.mp hx
    obtain ⟨e', he', rfl⟩ := List.mem_map.mp hr
    have hslug : entitySlug e' ∈ entities.map entitySlug := List.mem_map_of_mem he'
    have hfound := hmentioned (entitySlug e') (Or.inr hslug)
    dsimp only
    exact fun hun => hun.1 hfound

theorem referenced_upsertRelationships {relationships : List (Text × Text × Text × Text)}
    (hs : s.upsertRelationships relationships = .ok s') : s'.toTables.Referenced := by
  rw [upsertRelationships_tables hs]
  have hkept : ∀ x ∈ s.relationships, ∃ r ∈ (s.toTables.upsertRelationshipRows
      relationships).relationships, r.sourceId = x.sourceId ∧ r.targetId = x.targetId := by
    intro x hx
    obtain ⟨r, hr, hkey⟩ := Tables.exists_key_upsertRelationshipRows relationships ⟨x, hx, rfl⟩
    exact ⟨r, hr, congrArg Prod.fst hkey, congrArg (fun k => k.2.1) hkey⟩
  refine h.of_ids (fun e he => ⟨e, he, rfl⟩) fun id hid =>
    Tables.not_unreferenced_of_imp hid (fun hm => hm) ?_ ?_ (fun hl => hl)
  · rintro ⟨x, hx, rfl⟩
    obtain ⟨r, hr, hsource, -⟩ := hkept x hx
    exact ⟨r, hr, hsource⟩
  · rintro ⟨x, hx, rfl⟩
    obtain ⟨r, hr, -, htarget⟩ := hkept x hx
    exact ⟨r, hr, htarget⟩

theorem referenced_registerChunks {chunks : List ChunkRow}
    (hs : s.registerChunks chunks = .ok s') : s'.toTables.Referenced := by
  rw [registerChunks_tables hs]
  exact h.of_ids (fun e he => ⟨e, he, rfl⟩) fun _ hid => hid

theorem referenced_linkChunks {pairs : List (Text × Text)} (hs : s.linkChunks pairs = .ok s') :
    s'.toTables.Referenced := by
  rw [linkChunks_tables hs]
  refine h.of_ids (fun e he => ⟨e, he, rfl⟩) fun id hid =>
    Tables.not_unreferenced_of_imp hid (fun hm => hm) (fun hr => hr) (fun hr => hr) ?_
  rintro ⟨l, hl, rfl⟩
  exact ⟨l, Table.mem_insertAllOrIgnore_of_mem hl, rfl⟩

theorem referenced_deleteFileData {filepath : Text} (hs : s.deleteFileData filepath = .ok s') :
    s'.toTables.Referenced := by
  rw [deleteFileData_tables hs]
  exact h.deleteFileRows filepath

theorem referenced_purgeFile {filepath : Text} (hs : s.purgeFile filepath = .ok s') :
    s'.toTables.Referenced := by
  rw [purgeFile_tables hs]
  exact (h.deleteFileRows filepath).of_ids (fun e he => ⟨e, he, rfl⟩) fun _ hid => hid

theorem referenced_detectCommunities {communities : List (List Text)}
    (hs : s.detectCommunities communities = .ok s') : s'.toTables.Referenced := by
  rw [transaction_tables hs]
  exact h.of_ids (fun e he => hasEntity_detected.mp ⟨e, he, rfl⟩) fun _ hid => hid

/-- No mutator leaves an entity without a reference. -/
theorem Referenced.mutate (m : Mutation) : (s.mutate m).toTables.Referenced := by
  unfold GraphStore.mutate
  cases hm : m.apply s with
  | error e => exact h
  | ok s' =>
      cases m with
      | upsertEntities entities sourceDoc =>
          cases hs : s.upsertEntities entities sourceDoc with
          | error e =>
              rw [Mutation.apply, hs] at hm
              cases hm
          | ok r =>
              rw [Mutation.apply, hs] at hm
              cases hm
              exact referenced_upsertEntities h hs
      | upsertRelationships relationships => exact referenced_upsertRelationships h hm
      | registerChunks chunks => exact referenced_registerChunks h hm
      | linkChunks pairs => exact referenced_linkChunks h hm
      | deleteFileData filepath => exact referenced_deleteFileData h hm
      | purgeFile filepath => exact referenced_purgeFile h hm
      | detectCommunities communities => exact referenced_detectCommunities h hm

end Mutators

/-- What every sequence of mutators leaves. -/
theorem referenced_mutations (mutations : List Mutation) :
    (mutations.foldl mutate empty).toTables.Referenced := by
  suffices h : ∀ s : GraphStore, s.toTables.Referenced →
      (mutations.foldl mutate s).toTables.Referenced by
    apply h
    intro e he
    exact absurd he (Table.notMem_empty e)
  induction mutations with
  | nil => exact fun _ h => h
  | cons m mutations ih => exact fun s h => ih (s.mutate m) (Referenced.mutate h m)

/-- After any mutators from the empty database the foreign keys hold, every entity is
referenced, and no deletion fails on a foreign key. -/
theorem referential_integrity (mutations : List Mutation) :
    let s := mutations.foldl mutate empty
    s.toTables.ForeignKeys ∧
    (∀ e ∈ s.entities, (∃ m ∈ s.entityMentions, m.entityId = e.id) ∨
      (∃ r ∈ s.relationships, r.sourceId = e.id) ∨
      (∃ r ∈ s.relationships, r.targetId = e.id) ∨
      ∃ l ∈ s.chunkEntities, l.entityId = e.id) ∧
    ∀ filepath, s.deleteFileData filepath ≠ .error .foreignKey ∧
      s.purgeFile filepath ≠ .error .foreignKey := by
  refine ⟨GraphStore.foreignKeys _, fun e he => ?_, fun filepath => ?_⟩
  · exact Tables.not_unreferenced_iff.mp (referenced_mutations mutations e he)
  · exact deletions_never_foreignKey _ filepath

end GraphStore

end LocalGraphRag.Graph
