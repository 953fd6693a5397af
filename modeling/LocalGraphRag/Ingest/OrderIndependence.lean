import LocalGraphRag.Ingest.Provenance

/-!
# Order independence of the graph

Indexing a document, like deleting one, keeps `Reflects`. So the graph after
any history of operations is a function of the documents currently indexed.
-/

namespace LocalGraphRag.Ingest

open Python Relational LocalGraphRag.Graph

section Indexing
variable {docs : Text → Option DocContent} {t : Tables}

/-- What the writes of `index` make of the tables once the old rows are gone. -/
def indexRows (d : Text) (c : DocContent) (t : Tables) : Tables :=
  (((((t.replaceChunks (chunkRows d c.chunkIds)).insertEntities
    (c.entities.map fun e => (GraphStore.entitySlug e, strip e.name))).upsertMentions
      (c.entities.map (GraphStore.mentionRow d))).refreshEntities c.slugs).upsertRelationshipRows
        (c.relationshipKeys d)).insertLinks (c.links.map fun p => ⟨p.1, p.2⟩)

theorem DocOp.apply_index {s s' : GraphStore} {d : Text} {c : DocContent}
    (h : DocOp.apply s (.index d c) = .ok s') :
    s'.toTables = indexRows d c (s.toTables.deleteFileRows d) := by
  simp only [DocOp.apply] at h
  cases hdelete : s.deleteFileData d with
  | error e => simp [hdelete, bind, Except.bind] at h
  | ok s₁ =>
  cases hchunks : s₁.registerChunks (chunkRows d c.chunkIds) with
  | error e => simp [hdelete, hchunks, bind, Except.bind] at h
  | ok s₂ =>
  cases hentities : s₂.upsertEntities c.entities d with
  | error e => simp [hdelete, hchunks, hentities, bind, Except.bind] at h
  | ok r =>
  cases hrelationships : r.2.upsertRelationships (c.relationshipKeys d) with
  | error e => simp [hdelete, hchunks, hentities, hrelationships, bind, Except.bind] at h
  | ok s₄ =>
    simp only [hdelete, hchunks, hentities, hrelationships, bind, Except.bind] at h
    obtain ⟨hslugs, htables⟩ := GraphStore.upsertEntities_tables hentities
    rw [GraphStore.linkChunks_tables h, GraphStore.upsertRelationships_tables hrelationships,
      htables, hslugs, GraphStore.registerChunks_tables hchunks,
      GraphStore.deleteFileData_tables hdelete]
    rfl

section Rows
variable (d : Text) (c : DocContent)

/-- The rows offered to `INSERT OR IGNORE INTO entities`. -/
def newEntityRows (c : DocContent) : List EntityRow :=
  c.entities.map fun e => ⟨GraphStore.entitySlug e, strip e.name, none, none, none⟩

theorem mem_newEntityRows_ids {id : Text} :
    id ∈ (newEntityRows c).map EntityRow.id ↔ id ∈ c.slugs := by
  simp only [newEntityRows, List.map_map, List.mem_map, Function.comp_apply,
    DocContent.mem_slugs]

@[simp] theorem indexRows_chunks : (indexRows d c t).chunks =
    t.chunks.insertAllOrReplace (chunkRows d c.chunkIds) := rfl

@[simp] theorem indexRows_relationships : (indexRows d c t).relationships =
    (t.upsertRelationshipRows (c.relationshipKeys d)).relationships := rfl

@[simp] theorem indexRows_chunkEntities : (indexRows d c t).chunkEntities =
    t.chunkEntities.insertAllOrIgnore (c.links.map fun p => ⟨p.1, p.2⟩) := rfl

@[simp] theorem indexRows_entityMentions : (indexRows d c t).entityMentions =
    t.entityMentions.insertAllOrReplace (c.entities.map (GraphStore.mentionRow d)) := rfl

theorem mem_indexRows_refreshed {e : EntityRow} : e ∈ (indexRows d c t).entities ↔
    ∃ x ∈ t.entities.insertAllOrIgnore (newEntityRows c),
      e = if x.id ∈ c.slugs ∧ ∃ m ∈ (indexRows d c t).entityMentions, m.entityId = x.id then
        { x with
          type := commonType ((indexRows d c t).mentionsOf x.id)
          description := longestDescription ((indexRows d c t).mentionsOf x.id) }
      else x := by
  have hrows : newEntityRows c = (c.entities.map fun e =>
      (GraphStore.entitySlug e, strip e.name)).map fun r => ⟨r.1, r.2, none, none, none⟩ := by
    simp only [newEntityRows, List.map_map, Function.comp_def]
  rw [hrows]
  exact Tables.mem_refreshEntities _

theorem mem_indexRows_mentions (h : Reflects docs t) (hd : docs d = none) (m : MentionRow) :
    m ∈ (indexRows d c t).entityMentions ↔
      m ∈ c.entities.map (GraphStore.mentionRow d) ∨ m ∈ t.entityMentions := by
  have hnodup : ((c.entities.map (GraphStore.mentionRow d)).map MentionRow.key).Nodup := by
    have hkeys : (c.entities.map (GraphStore.mentionRow d)).map MentionRow.key =
        (c.entities.map GraphStore.entitySlug).map fun slug => (slug, d) := by
      simp only [List.map_map, Function.comp_def, GraphStore.mentionRow_key]
    rw [hkeys]
    exact c.slugs_nodup.map fun _ _ hs => (Prod.mk.inj hs).1
  rw [indexRows_entityMentions, Table.mem_insertAllOrReplace hnodup]
  refine or_congr_right ⟨And.left, fun hm => ⟨hm, fun hkey => ?_⟩⟩
  obtain ⟨m', hm', hmk⟩ := List.mem_map.mp hkey
  obtain ⟨e, -, rfl⟩ := List.mem_map.mp hm'
  obtain ⟨x, hx, -⟩ := (h.mentions m).mp hm
  have hdoc : d = m.sourceDoc := (Prod.mk.inj hmk).2
  rw [← hdoc, hd] at hx
  cases hx

/-- An indexed entity is new or was there, and the refresh reaches those of the document. -/
theorem mem_indexRows_entities {e : EntityRow} (he : e ∈ (indexRows d c t).entities) :
    (e.id ∈ c.slugs ∧ e.type = commonType ((indexRows d c t).mentionsOf e.id) ∧
        e.description = longestDescription ((indexRows d c t).mentionsOf e.id)) ∨
      (e.id ∉ c.slugs ∧ e ∈ t.entities) := by
  obtain ⟨x, hx, hex⟩ := (mem_indexRows_refreshed d c).mp he
  by_cases hid : x.id ∈ c.slugs
  · have hmention : ∃ m ∈ (indexRows d c t).entityMentions, m.entityId = x.id := by
      obtain ⟨m, hm, hmx⟩ := (DocContent.mem_slugs_iff_mentioned d).mp hid
      obtain ⟨m', hm', hmk⟩ := (Table.exists_key_insertAllOrReplace t.entityMentions
        (c.entities.map (GraphStore.mentionRow d)) m.key).mpr
          (Or.inr (List.mem_map_of_mem hm))
      rw [indexRows_entityMentions]
      exact ⟨m', hm', (Prod.mk.inj hmk).1.trans hmx⟩
    rw [if_pos ⟨hid, hmention⟩] at hex
    subst hex
    exact Or.inl ⟨hid, rfl, rfl⟩
  · rw [if_neg fun hc => hid hc.1] at hex
    subst hex
    refine Or.inr ⟨hid, (Table.mem_or_mem_of_mem_insertAllOrIgnore hx).resolve_right ?_⟩
    intro hnew
    exact hid ((mem_newEntityRows_ids c).mp (List.mem_map_of_mem hnew))

theorem exists_mem_indexRows_entities (id : Text) :
    (∃ e ∈ (indexRows d c t).entities, e.id = id) ↔
      (∃ e ∈ t.entities, e.id = id) ∨ id ∈ c.slugs := by
  have hinsert := Table.exists_key_insertAllOrIgnore t.entities
    (newEntityRows c) id
  rw [mem_newEntityRows_ids] at hinsert
  rw [← hinsert]
  constructor
  · rintro ⟨e, he, rfl⟩
    obtain ⟨x, hx, hex⟩ := (mem_indexRows_refreshed d c).mp he
    refine ⟨x, hx, ?_⟩
    rw [hex]
    split_ifs <;> rfl
  · rintro ⟨x, hx, rfl⟩
    refine ⟨_, (mem_indexRows_refreshed d c).mpr ⟨x, hx, rfl⟩, ?_⟩
    split_ifs <;> rfl

end Rows

section Indexed
variable {d : Text} {c : DocContent} (h : Reflects docs t) (hd : docs d = none)

include hd in
theorem ne_of_indexed {k : Text} (hk : ∃ x, docs k = some x) : k ≠ d := by
  rintro rfl
  obtain ⟨x, hx⟩ := hk
  rw [hd] at hx
  cases hx

include h hd

theorem mem_indexRows_chunks_iff (hfresh : (DocOp.index d c).Fresh docs) (r : ChunkRow) :
    r ∈ (Ingest.indexRows d c t).chunks ↔
      ∃ x ∈ Function.update docs d (some c) r.filepath,
        r ∈ chunkRows r.filepath x.chunkIds := by
  have hnodup : ((chunkRows d c.chunkIds).map ChunkRow.chunkId).Nodup := by
    rw [chunkRows_map_chunkId]
    exact c.chunkIds_nodup
  rw [indexRows_chunks, Table.mem_insertAllOrReplace hnodup, chunkRows_map_chunkId,
    exists_mem_update, h.chunks]
  constructor
  · rintro (hr | ⟨⟨x, hx, hr⟩, -⟩)
    · have hrd := ((mem_chunkRows d).mp hr).2
      exact Or.inl ⟨hrd, c, rfl, by rwa [hrd]⟩
    · exact Or.inr ⟨ne_of_indexed hd ⟨x, hx⟩, x, hx, hr⟩
  · rintro (⟨hrd, x, hx, hr⟩ | ⟨hrd, x, hx, hr⟩)
    · cases hx
      exact Or.inl (hrd ▸ hr)
    · refine Or.inr ⟨⟨x, hx, hr⟩, fun hid => ?_⟩
      exact hfresh c rfl _ hrd x hx _ hid
        (List.mem_of_getElem? ((mem_chunkRows _).mp hr).1)

theorem mem_indexRows_relationships_iff (r : RelationshipRow) :
    r ∈ (Ingest.indexRows d c t).relationships ↔
      ∃ x ∈ Function.update docs d (some c) r.sourceDoc,
        r ∈ countedRelationships (x.relationshipKeys r.sourceDoc) := by
  have hkey : r.key ∉ c.relationshipKeys d ∨ ∀ x ∈ t.relationships, x.key ≠ r.key := by
    by_cases hrd : r.sourceDoc = d
    · refine Or.inr fun x hx hxr => ?_
      obtain ⟨y, hy, -⟩ := (h.relationships x).mp hx
      exact ne_of_indexed hd ⟨y, hy⟩ ((congrArg (fun k => k.2.2.2) hxr).trans hrd)
    · refine Or.inl fun hr => hrd ?_
      obtain ⟨k, -, hk⟩ := List.mem_map.mp hr
      exact (congrArg (fun z => z.2.2.2) hk).symm
  rw [indexRows_relationships, mem_upsertRelationshipRows r hkey, exists_mem_update]
  constructor
  · rintro (hr | hr)
    · obtain ⟨x, hx, hrx⟩ := (h.relationships r).mp hr
      exact Or.inr ⟨ne_of_indexed hd ⟨x, hx⟩, x, hx, hrx⟩
    · obtain ⟨k, -, hk⟩ := List.mem_map.mp (mem_countedRelationships.mp hr).1
      have hrd : r.sourceDoc = d := (congrArg (fun z => z.2.2.2) hk).symm
      exact Or.inl ⟨hrd, c, rfl, by rwa [hrd]⟩
  · rintro (⟨hrd, x, hx, hr⟩ | ⟨-, hr⟩)
    · cases hx
      exact Or.inr (hrd ▸ hr)
    · exact Or.inl ((h.relationships r).mpr hr)

theorem mem_indexRows_links_iff (l : LinkRow) : l ∈ (Ingest.indexRows d c t).chunkEntities ↔
    ∃ d', ∃ x ∈ Function.update docs d (some c) d', (l.chunkId, l.entityId) ∈ x.links := by
  rw [indexRows_chunkEntities, Table.mem_insertAllOrIgnore Function.injective_id,
    List.mem_map]
  constructor
  · rintro (hl | ⟨k, hk, rfl⟩)
    · obtain ⟨d', x, hx, hlink⟩ := (h.links l).mp hl
      exact ⟨d', exists_mem_update.mpr (Or.inr ⟨ne_of_indexed hd ⟨x, hx⟩, x, hx, hlink⟩)⟩
    · exact ⟨d, exists_mem_update.mpr (Or.inl ⟨rfl, c, rfl, hk⟩)⟩
  · rintro ⟨d', hd'⟩
    obtain ⟨-, x, hx, hlink⟩ | ⟨-, x, hx, hlink⟩ := exists_mem_update.mp hd'
    · cases hx
      exact Or.inr ⟨_, hlink, rfl⟩
    · exact Or.inl ((h.links l).mpr ⟨d', x, hx, hlink⟩)

/-- Indexing a document that has no rows adds what its content makes. -/
theorem Reflects.indexRows (hfresh : (DocOp.index d c).Fresh docs) :
    Reflects (Function.update docs d (some c)) (indexRows d c t) := by
  refine ⟨mem_indexRows_chunks_iff h hd hfresh, fun m => ?_,
    mem_indexRows_relationships_iff h hd, mem_indexRows_links_iff h hd, fun id => ?_,
    fun e he => ?_⟩
  · rw [mem_indexRows_mentions d c h hd, exists_mem_update, h.mentions]
    constructor
    · rintro (hm | ⟨x, hx, hm⟩)
      · obtain ⟨e, he, rfl⟩ := List.mem_map.mp hm
        exact Or.inl ⟨rfl, c, rfl, hm⟩
      · exact Or.inr ⟨ne_of_indexed hd ⟨x, hx⟩, x, hx, hm⟩
    · rintro (⟨hmd, x, hx, hm⟩ | ⟨-, hm⟩)
      · cases hx
        exact Or.inl (hmd ▸ hm)
      · exact Or.inr hm
  · rw [exists_mem_indexRows_entities, h.entities]
    simp only [mem_indexRows_mentions d c h hd]
    constructor
    · rintro (⟨m, hm, hid⟩ | hid)
      · exact ⟨m, Or.inr hm, hid⟩
      · obtain ⟨m, hm, hmid⟩ := (DocContent.mem_slugs_iff_mentioned d).mp hid
        exact ⟨m, Or.inl hm, hmid⟩
    · rintro ⟨m, hm | hm, hid⟩
      · exact Or.inr ((DocContent.mem_slugs_iff_mentioned d).mpr ⟨m, hm, hid⟩)
      · exact Or.inl ⟨m, hm, hid⟩
  · obtain ⟨-, hmerged⟩ | ⟨hid, het⟩ := mem_indexRows_entities d c he
    · exact hmerged
    · have hof : (Ingest.indexRows d c t).mentionsOf e.id = t.mentionsOf e.id := by
        refine mentionsOf_congr fun m hme => ?_
        rw [mem_indexRows_mentions d c h hd]
        exact or_iff_right fun hm =>
          hid ((DocContent.mem_slugs_iff_mentioned d).mpr ⟨m, hm, hme⟩)
      rw [hof]
      exact h.merged e het

end Indexed

end Indexing

section Histories
variable {docs : Text → Option DocContent} {s s' : GraphStore}

theorem Reflects.deleteCached {t : Tables} (h : Reflects docs t) (d : Text) :
    Reflects docs (t.deleteCached d) := ⟨h.chunks, h.mentions, h.relationships, h.links,
  h.entities, h.merged⟩

/-- Every operation keeps the tables a reflection of the indexed documents. -/
theorem Reflects.apply (h : Reflects docs s.toTables) {op : DocOp} (hfresh : op.Fresh docs)
    (happly : op.apply s = .ok s') : Reflects (op.track docs) s'.toTables := by
  cases op with
  | index d c =>
      have hrest : (DocOp.index d c).Fresh (Function.update docs d none) := by
        intro x hx d' hd' y hy
        rw [Function.update_of_ne (show d' ≠ d from hd')] at hy
        exact hfresh x hx d' hd' y hy
      have hindexed := (h.deleteFileRows d).indexRows (Function.update_self d none docs) hrest
      rw [Function.update_idem] at hindexed
      rw [DocOp.apply_index happly]
      exact hindexed
  | deleteFileData d =>
      rw [GraphStore.deleteFileData_tables happly]
      exact h.deleteFileRows d
  | purgeFile d =>
      rw [GraphStore.purgeFile_tables happly]
      exact (h.deleteFileRows d).deleteCached d

theorem FreshIds.prefix {ops : List DocOp} {op : DocOp} (h : FreshIds (ops ++ [op])) :
    FreshIds ops ∧ op.Fresh (lastIndexed ops) := by
  constructor
  · intro done o rest hsplit
    exact h done o (rest ++ [op]) (by simp [hsplit])
  · exact h ops op [] rfl

theorem applyOps_concat {ops : List DocOp} {op : DocOp} : applyOps (ops ++ [op]) = .ok s ↔
    ∃ s₁, applyOps ops = .ok s₁ ∧ op.apply s₁ = .ok s := by
  rw [applyOps, applyOps, List.foldlM_append]
  cases hops : ops.foldlM DocOp.apply GraphStore.empty with
  | error e => simp [bind, Except.bind]
  | ok s₁ =>
      simp only [bind, Except.bind, List.foldlM_cons, List.foldlM_nil, Except.ok.injEq,
        exists_eq_left']
      cases op.apply s₁ with
      | error e => rfl
      | ok s₂ => rfl

@[simp] theorem lastIndexed_concat (ops : List DocOp) (op : DocOp) :
    lastIndexed (ops ++ [op]) = op.track (lastIndexed ops) := by
  rw [lastIndexed, List.foldl_append]
  rfl

/-- An operation leaves its document with its content. -/
theorem lastIndexed_concat_doc (ops : List DocOp) (op : DocOp) :
    lastIndexed (ops ++ [op]) op.doc = op.content := by
  rw [lastIndexed_concat]
  exact Function.update_self _ _ _

theorem Reflects.applyOps {ops : List DocOp} (hfresh : FreshIds ops)
    (h : applyOps ops = .ok s) : Reflects (lastIndexed ops) s.toTables := by
  induction ops using List.reverseRecOn generalizing s with
  | nil =>
      cases h
      exact Reflects.empty
  | append_singleton ops op ih =>
      obtain ⟨s₁, hops, happly⟩ := applyOps_concat.mp h
      obtain ⟨hbefore, hop⟩ := hfresh.prefix
      rw [lastIndexed_concat]
      exact (ih hbefore hops).apply hop happly

/-- A file touches only the entities its indexed content mentions. -/
theorem Reflects.mem_slugs_of_touched {t : Tables} (h : Reflects docs t) {d id : Text}
    (hid : id ∈ t.fileEntityIds d) : ∃ c ∈ docs d, id ∈ c.slugs := by
  have hmention : ∀ m ∈ t.entityMentions, m.sourceDoc = d →
      ∃ c ∈ docs d, m.entityId ∈ c.slugs := by
    rintro m hm rfl
    obtain ⟨c, hc, hmc⟩ := (h.mentions m).mp hm
    exact ⟨c, hc, (DocContent.mem_slugs_iff_mentioned _).mpr ⟨m, hmc, rfl⟩⟩
  simp only [Tables.fileEntityIds, Finset.mem_union, Finset.mem_image, Table.mem_select] at hid
  rcases hid with ((⟨m, ⟨hm, hmd⟩, rfl⟩ | ⟨l, ⟨hl, c, hc, hcl, hcd⟩, rfl⟩) |
    ⟨r, ⟨hr, hrd⟩, rfl⟩) | ⟨r, ⟨hr, hrd⟩, rfl⟩
  · exact hmention m hm hmd
  · obtain ⟨m, hm, hml, c', hc', hcl', hcm⟩ := h.link_mentioned hl
    have hsame := t.chunks.eq_of_key hc hc' (hcl.trans hcl'.symm)
    exact hml ▸ hmention m hm (hcm.symm.trans (hsame ▸ hcd))
  · obtain ⟨m, hm, hmr, hmd⟩ := (h.endpoint_mentioned hr).1
    exact hmr ▸ hmention m hm (hmd.trans hrd)
  · obtain ⟨m, hm, hmr, hmd⟩ := (h.endpoint_mentioned hr).2
    exact hmr ▸ hmention m hm (hmd.trans hrd)

/-- An operation leaves alone the entities that its document does not mention,
neither before nor after. -/
theorem Reflects.entity_unchanged (h : Reflects docs s.toTables) {op : DocOp}
    (happly : op.apply s = .ok s') {e : EntityRow} (hold : ∀ c ∈ docs op.doc, e.id ∉ c.slugs)
    (hnew : ∀ c ∈ op.content, e.id ∉ c.slugs) : e ∈ s'.entities ↔ e ∈ s.entities := by
  have huntouched : e.id ∉ s.toTables.fileEntityIds op.doc := by
    intro hid
    obtain ⟨c, hc, hce⟩ := h.mem_slugs_of_touched hid
    exact hold c hc hce
  have hdelete := Tables.mem_deleteFileRows_entities_of_untouched op.doc s.toTables huntouched
  cases op with
  | index d c =>
      rw [DocOp.apply_index happly, ← hdelete]
      have hid := hnew c rfl
      constructor
      · intro he
        obtain ⟨hin, -⟩ | ⟨-, he⟩ := mem_indexRows_entities d c he
        · exact absurd hin hid
        · exact he
      · intro he
        exact (mem_indexRows_refreshed d c).mpr
          ⟨e, Table.mem_insertAllOrIgnore_of_mem he, (if_neg fun hc => hid hc.1).symm⟩
  | deleteFileData d => rw [GraphStore.deleteFileData_tables happly, ← hdelete]; rfl
  | purgeFile d => rw [GraphStore.purgeFile_tables happly, ← hdelete]; rfl

/-- The entity, its type and its description each come from an indexed document. -/
def Supported (docs : Text → Option DocContent) (e : EntityRow) : Prop :=
  (∃ d, ∃ c ∈ docs d, e.id ∈ c.slugs) ∧
    (∀ type ∈ e.type, ∃ d, ∃ c ∈ docs d, ∃ x ∈ c.entities,
      GraphStore.entitySlug x = e.id ∧ x.type = some type) ∧
    ∀ description ∈ e.description, ∃ d, ∃ c ∈ docs d, ∃ x ∈ c.entities,
      GraphStore.entitySlug x = e.id ∧ x.description = description

theorem Reflects.supported {t : Tables} (h : Reflects docs t) {e : EntityRow}
    (he : e ∈ t.entities) : Supported docs e := by
  have hsource : ∀ m ∈ t.mentionsOf e.id, ∃ c ∈ docs m.sourceDoc, ∃ x ∈ c.entities,
      GraphStore.entitySlug x = e.id ∧ x.type = m.type ∧ some x.description = m.description := by
    intro m hm
    obtain ⟨hmt, hme⟩ := (Table.mem_select ..).mp hm
    obtain ⟨c, hc, hmc⟩ := (h.mentions m).mp hmt
    obtain ⟨x, hx, hxm⟩ := List.mem_map.mp hmc
    refine ⟨c, hc, x, hx, ?_, ?_, ?_⟩
    · rw [← GraphStore.mentionRow_entityId m.sourceDoc, hxm, hme]
    · rw [← GraphStore.mentionRow_type m.sourceDoc, hxm]
    · rw [← GraphStore.mentionRow_description m.sourceDoc, hxm]
  refine ⟨?_, ?_, ?_⟩
  · obtain ⟨m, hm, hme⟩ := (h.entities e.id).mp ⟨e, he, rfl⟩
    obtain ⟨c, hc, x, hx, hxe, -⟩ := hsource m ((Table.mem_select ..).mpr ⟨hm, hme⟩)
    exact ⟨_, c, hc, DocContent.mem_slugs.mpr ⟨x, hx, hxe⟩⟩
  · intro type htype
    rw [(h.merged e he).1] at htype
    obtain ⟨m, hm, hmt⟩ := exists_of_commonType htype
    obtain ⟨c, hc, x, hx, hxe, hxt, -⟩ := hsource m hm
    exact ⟨_, c, hc, x, hx, hxe, hxt.trans hmt⟩
  · intro description hdescription
    rw [(h.merged e he).2] at hdescription
    obtain ⟨m, hm, hmd⟩ := exists_of_longestDescription hdescription
    obtain ⟨c, hc, x, hx, hxe, -, hxd⟩ := hsource m hm
    exact ⟨_, c, hc, x, hx, hxe, Option.some.inj (hxd.trans hmd)⟩

/-- The graph is a function of what is indexed: two histories that end with the
same contents end with the same graph, nothing outlives the documents that
support it, and an operation changes no entity its document does not mention. -/
theorem graph_determined_by_contents {ops₁ ops₂ : List DocOp} {s₁ s₂ : GraphStore}
    (hfresh₁ : FreshIds ops₁) (hfresh₂ : FreshIds ops₂)
    (h₁ : Ingest.applyOps ops₁ = .ok s₁) (h₂ : Ingest.applyOps ops₂ = .ok s₂) :
    (lastIndexed ops₁ = lastIndexed ops₂ → SameGraph s₁.toTables s₂.toTables) ∧
      (∀ e ∈ s₁.entities, Supported (lastIndexed ops₁) e) ∧
      ∀ op s', DocOp.apply s₁ op = .ok s' → ∀ e : EntityRow,
        (∀ c ∈ lastIndexed ops₁ op.doc, e.id ∉ c.slugs) → (∀ c ∈ op.content, e.id ∉ c.slugs) →
          (e ∈ s'.entities ↔ e ∈ s₁.entities) := by
  have hreflects₁ := Reflects.applyOps hfresh₁ h₁
  have hreflects₂ := Reflects.applyOps hfresh₂ h₂
  refine ⟨?_, ?_, ?_⟩
  · intro hsame
    rw [← hsame] at hreflects₂
    exact hreflects₁.sameGraph hreflects₂
  · intro e he
    exact hreflects₁.supported he
  · intro op s' happly e hold hnew
    exact hreflects₁.entity_unchanged happly hold hnew

end Histories

section Sample

theorem exists_op_of_lastIndexed {ops : List DocOp} {d : Text} {c : DocContent}
    (h : c ∈ lastIndexed ops d) : ∃ op ∈ ops, op.doc = d ∧ c ∈ op.content := by
  induction ops using List.reverseRecOn with
  | nil => cases h
  | append_singleton ops op ih =>
      rw [lastIndexed, List.foldl_append] at h
      by_cases hd : d = op.doc
      · subst hd
        exact ⟨op, by simp, rfl, by simpa [DocOp.track] using h⟩
      · obtain ⟨o, ho, hod, hc⟩ := ih (by simpa [lastIndexed, DocOp.track, hd] using h)
        exact ⟨o, by simp [ho], hod, hc⟩

/-- Chunk ids that tell their document are fresh. -/
theorem freshIds_of_owner {ops : List DocOp} (owner : Text → Text)
    (h : ∀ op ∈ ops, ∀ c ∈ op.content, ∀ id ∈ c.chunkIds, owner id = op.doc) :
    FreshIds ops := by
  rintro done op rest rfl c hc d hd c' hc' id hid hid'
  obtain ⟨o, ho, rfl, hoc⟩ := exists_op_of_lastIndexed hc'
  have howner := h op (by simp) c hc id hid
  exact hd ((h o (by simp [ho]) c' hoc id hid').symm.trans howner)

/-- A content with one chunk, linked to all of its entities. -/
def sampleContent (chunk : Text) (entities : List Entity)
    (relationships : List (Text × Text × Text))
    (hslugs : (entities.map GraphStore.entitySlug).Nodup)
    (hends : ∀ r ∈ relationships, r.1 ∈ entities.map GraphStore.entitySlug ∧
      r.2.1 ∈ entities.map GraphStore.entitySlug) : DocContent where
  chunkIds := [chunk]
  entities := entities
  relationships := relationships
  links := entities.map fun e => (chunk, GraphStore.entitySlug e)
  chunkIds_nodup := by simp
  slugs_nodup := hslugs
  endpoints := hends
  links_own := by
    intro l hl
    obtain ⟨e, he, rfl⟩ := List.mem_map.mp hl
    exact ⟨by simp, List.mem_map.mpr ⟨e, he, rfl⟩⟩

def sampleGuide : DocContent :=
  sampleContent (text "g1") [⟨text "Store", some (text "CLASS"), text "keeps rows"⟩,
    ⟨text "Row", none, text ""⟩] [(text "store", text "row", text "keeps")]
    (by decide +kernel) (by decide +kernel)

def sampleGuideEdited : DocContent :=
  sampleContent (text "g2") [⟨text "Store", some (text "TOOL"), text "keeps"⟩] []
    (by decide +kernel) (by decide +kernel)

def sampleNotes : DocContent :=
  sampleContent (text "n1") [⟨text "STORE", some (text "CLASS"), text "a store of rows"⟩] []
    (by decide +kernel) (by decide +kernel)

/-- The guide is indexed, then the notes, and the guide again after an edit. -/
def editedGuide : List DocOp :=
  [.index (text "g") sampleGuide, .index (text "n") sampleNotes,
    .index (text "g") sampleGuideEdited]

/-- The notes are indexed twice with a deletion between, before the edited guide. -/
def restoredNotes : List DocOp :=
  [.index (text "n") sampleNotes, .purgeFile (text "n"),
    .index (text "g") sampleGuideEdited, .index (text "n") sampleNotes]

theorem graph_determined_by_contents_sample : ∃ s₁ s₂ : GraphStore,
    applyOps editedGuide = .ok s₁ ∧ applyOps restoredNotes = .ok s₂ ∧
      SameGraph s₁.toTables s₂.toTables ∧
      ∀ e ∈ s₁.entities, Supported (lastIndexed editedGuide) e := by
  have hok₁ : (applyOps editedGuide).toBool = true := by decide +kernel
  have hok₂ : (applyOps restoredNotes).toBool = true := by decide +kernel
  have hfresh₁ : FreshIds editedGuide :=
    freshIds_of_owner (List.take 1) (by simp [editedGuide, DocOp.content, DocOp.doc]; decide)
  have hfresh₂ : FreshIds restoredNotes :=
    freshIds_of_owner (List.take 1) (by simp [restoredNotes, DocOp.content, DocOp.doc]; decide)
  have hsame : lastIndexed editedGuide = lastIndexed restoredNotes := by
    have hne : text "n" ≠ text "g" := by decide
    funext d
    simp only [lastIndexed, editedGuide, restoredNotes, List.foldl_cons, List.foldl_nil,
      DocOp.track, DocOp.doc, DocOp.content, Function.update_apply]
    split_ifs <;> simp_all
  cases h₁ : applyOps editedGuide with
  | error e => rw [h₁] at hok₁; cases hok₁
  | ok s₁ =>
  cases h₂ : applyOps restoredNotes with
  | error e => rw [h₂] at hok₂; cases hok₂
  | ok s₂ =>
    have h := graph_determined_by_contents hfresh₁ hfresh₂ h₁ h₂
    exact ⟨s₁, s₂, rfl, rfl, h.1 hsame, h.2.1⟩

end Sample

end LocalGraphRag.Ingest
