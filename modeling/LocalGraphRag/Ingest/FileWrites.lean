import LocalGraphRag.Ingest.FileView

/-!
# What each write adds to a file

One view lemma for each write of `_write_index_data`, with the fact that no
other file sees it. `writtenView` is what a finished run of all of them leaves.
-/

namespace LocalGraphRag.Ingest

open Python Relational LocalGraphRag.Graph Effects

/-- Relationship rows with the number of times each was upserted. -/
def countedRelationships (rows : List (Text × Text × Text × Text)) :
    Finset RelationshipRow :=
  (rows.map fun k => ⟨k.1, k.2.1, k.2.2.1, rows.count k, k.2.2.2⟩).toFinset

/-- The link rows of a list of pairs. -/
def linkRows (pairs : List (Text × Text)) : Finset LinkRow :=
  (pairs.map fun p => ⟨p.1, p.2⟩).toFinset

/-- What a finished `_write_index_data` leaves of a file. -/
def writtenView (filepath : Text) (points : List Point) (result : ExtractionResult)
    (pairs : List (Text × Text)) (cached : Finset CacheRow) (fingerprint : Option Text) :
    FileView where
  chunks := (chunkRows filepath (points.map Point.id)).toFinset
  points := points.toFinset
  mentions := (result.entities.map (GraphStore.mentionRow filepath)).toFinset
  relationships := countedRelationships (relationshipRows filepath result.relationships)
  links := linkRows pairs
  cached := cached
  fingerprint := fingerprint

section Rows
variable (filepath : Text)

/-- The relationships of a file are written under its path. -/
theorem relationshipRows_sourceDoc (relationships : List Relationship) :
    ∀ k ∈ relationshipRows filepath relationships, k.2.2.2 = filepath := by
  intro k hk
  obtain ⟨r, -, rfl⟩ := List.mem_map.mp hk
  rfl

theorem mem_chunkRows {ids : List Text} {c : ChunkRow} :
    c ∈ chunkRows filepath ids ↔
      ids[c.chunkIndex]? = some c.chunkId ∧ c.filepath = filepath := by
  simp only [chunkRows, List.mem_map, Prod.exists, List.mem_zipIdx_iff_getElem?]
  constructor
  · rintro ⟨id, i, hi, rfl⟩
    exact ⟨hi, rfl⟩
  · rintro ⟨hi, rfl⟩
    exact ⟨_, _, hi, rfl⟩

@[simp] theorem chunkRows_map_chunkId (ids : List Text) :
    (chunkRows filepath ids).map ChunkRow.chunkId = ids := by
  simp only [chunkRows, List.map_map]
  exact List.zipIdx_map_fst 0 ids

@[simp] theorem chunkRows_image_chunkId (ids : List Text) :
    (chunkRows filepath ids).toFinset.image ChunkRow.chunkId = ids.toFinset := by
  ext id
  rw [List.mem_toFinset, Finset.mem_image]
  conv_rhs => rw [← chunkRows_map_chunkId filepath ids, List.mem_map]
  simp only [List.mem_toFinset]

theorem mem_countedRelationships {rows : List (Text × Text × Text × Text)}
    {r : RelationshipRow} :
    r ∈ countedRelationships rows ↔ r.key ∈ rows ∧ r.weight = rows.count r.key := by
  simp only [countedRelationships, List.mem_toFinset, List.mem_map]
  constructor
  · rintro ⟨k, hk, rfl⟩
    exact ⟨hk, rfl⟩
  · rintro ⟨hk, hw⟩
    exact ⟨r.key, hk, by rw [← hw]; rfl⟩

theorem mem_linkRows {pairs : List (Text × Text)} {l : LinkRow} :
    l ∈ linkRows pairs ↔ (l.chunkId, l.entityId) ∈ pairs := by
  simp only [linkRows, List.mem_toFinset, List.mem_map, Prod.exists]
  constructor
  · rintro ⟨c, e, h, rfl⟩
    exact h
  · exact fun h => ⟨_, _, h, rfl⟩

end Rows

section Writes
variable {w : World} {p : Text} {s' : GraphStore}

/-- Registering fresh chunk ids changes no links: none refers to them yet. -/
theorem registerChunks_links {ids : List Text}
    (hfresh : ∀ id ∈ ids, ∀ c ∈ w.store.chunks, c.chunkId ≠ id) (q : Text) :
    fileLinks (w.store.toTables.replaceChunks (chunkRows p ids)) q =
      fileLinks w.store.toTables q := by
  ext l
  simp only [mem_fileLinks]
  refine and_congr_right fun hl => ?_
  obtain ⟨d, hd, hdl⟩ := w.store.foreignKeys.chunk l hl
  have hkey : l.chunkId ∉ (chunkRows p ids).map ChunkRow.chunkId := by
    rw [chunkRows_map_chunkId]
    exact fun hmem => hfresh _ hmem d hd hdl
  refine exists_congr fun c => ?_
  have hiff : c.chunkId = l.chunkId →
      (c ∈ w.store.chunks.insertAllOrReplace (chunkRows p ids) ↔ c ∈ w.store.chunks) :=
    fun hc => Table.mem_insertAllOrReplace_of_key_notMem (hc ▸ hkey)
  constructor
  · exact fun h => ⟨(hiff h.2.1).mp h.1, h.2⟩
  · exact fun h => ⟨(hiff h.2.1).mpr h.1, h.2⟩

/-- Registering fresh chunk ids adds their rows. -/
theorem registerChunks_view {ids : List Text} (hids : ids.Nodup)
    (hfresh : ∀ id ∈ ids, ∀ c ∈ w.store.chunks, c.chunkId ≠ id)
    (h : w.store.registerChunks (chunkRows p ids) = .ok s') :
    ({ w with store := s' } : World).view p =
        { w.view p with chunks := (w.view p).chunks ∪ (chunkRows p ids).toFinset } ∧
      SameElsewhere p w { w with store := s' } := by
  have hview := view_of_tables (w := w) (GraphStore.registerChunks_tables h)
  have hc : ∀ c, c ∈ (w.store.toTables.replaceChunks (chunkRows p ids)).chunks ↔
      c ∈ chunkRows p ids ∨ c ∈ w.store.chunks := by
    intro c
    apply (Table.mem_insertAllOrReplace (by rwa [chunkRows_map_chunkId]) c).trans
    refine or_congr_right ⟨fun hc => hc.1, fun hc => ⟨hc, ?_⟩⟩
    rw [chunkRows_map_chunkId]
    exact fun hmem => hfresh _ hmem c hc rfl
  constructor
  · rw [hview p]
    refine FileView.ext ?_ rfl rfl rfl (registerChunks_links hfresh p) rfl rfl
    ext c
    simp only [Table.mem_select, hc, Finset.mem_union, List.mem_toFinset, mem_view_chunks]
    constructor
    · rintro ⟨hnew | hold, hcp⟩
      · exact Or.inr hnew
      · exact Or.inl ⟨hold, hcp⟩
    · rintro (⟨hold, hcp⟩ | hnew)
      · exact ⟨Or.inr hold, hcp⟩
      · exact ⟨Or.inl hnew, ((mem_chunkRows p).mp hnew).2⟩
  · intro q hq
    rw [hview q]
    refine FileView.ext ?_ rfl rfl rfl (registerChunks_links hfresh q) rfl rfl
    ext c
    simp only [Table.mem_select, hc, mem_view_chunks]
    constructor
    · rintro ⟨hnew | hold, hcq⟩
      · exact absurd (hcq.symm.trans ((mem_chunkRows p).mp hnew).2) hq
      · exact ⟨hold, hcq⟩
    · rintro ⟨hold, hcq⟩
      exact ⟨Or.inr hold, hcq⟩

/-- The first mentions of a file are those of the entities just upserted. -/
theorem upsertEntities_view {entities : List Entity} {slugs : List Text}
    (hslugs : (entities.map GraphStore.entitySlug).Nodup)
    (hnone : (w.view p).mentions = ∅)
    (h : w.store.upsertEntities entities p = .ok (slugs, s')) :
    ({ w with store := s' } : World).view p =
        { w.view p with
          mentions := (entities.map (GraphStore.mentionRow p)).toFinset } ∧
      SameElsewhere p w { w with store := s' } := by
  have hview := view_of_tables (w := w) (GraphStore.upsertEntities_tables h).2
  have hnodup : ((entities.map (GraphStore.mentionRow p)).map MentionRow.key).Nodup := by
    have hkeys : (entities.map (GraphStore.mentionRow p)).map MentionRow.key =
        (entities.map GraphStore.entitySlug).map fun slug => (slug, p) := by
      rw [List.map_map, List.map_map]
      rfl
    rw [hkeys]
    exact hslugs.map fun a b hab => (Prod.mk.inj hab).1
  have hm := Table.mem_insertAllOrReplace (t := w.store.entityMentions) hnodup
  have hdoc : ∀ m ∈ entities.map (GraphStore.mentionRow p), m.sourceDoc = p := by
    intro m hmem
    obtain ⟨e, -, rfl⟩ := List.mem_map.mp hmem
    rfl
  constructor
  · rw [hview p]
    refine FileView.ext rfl rfl ?_ rfl rfl rfl rfl
    ext m
    rw [Table.mem_select, List.mem_toFinset]
    constructor
    · rintro ⟨hmem, hmp⟩
      obtain hnew | ⟨hold, -⟩ := (hm m).mp hmem
      · exact hnew
      · have hmem := (mem_view_mentions w p m).mpr ⟨hold, hmp⟩
        rw [hnone] at hmem
        exact absurd hmem (Finset.notMem_empty m)
    · exact fun hnew => ⟨(hm m).mpr (Or.inl hnew), hdoc m hnew⟩
  · intro q hq
    rw [hview q]
    refine FileView.ext rfl rfl ?_ rfl rfl rfl rfl
    ext m
    rw [Table.mem_select, mem_view_mentions]
    constructor
    · rintro ⟨hmem, hmq⟩
      obtain hnew | ⟨hold, -⟩ := (hm m).mp hmem
      · exact absurd (hmq.symm.trans (hdoc m hnew)) hq
      · exact ⟨hold, hmq⟩
    · rintro ⟨hold, hmq⟩
      refine ⟨(hm m).mpr (Or.inr ⟨hold, fun hkey => hq ?_⟩), hmq⟩
      obtain ⟨m', hm', hmk⟩ := List.mem_map.mp hkey
      have hdocs : m'.sourceDoc = m.sourceDoc := (Prod.mk.inj hmk).2
      rw [← hmq, ← hdocs, hdoc m' hm']

/-- The rows of a file that had none carry the multiplicities as weights. -/
theorem mem_upsertRelationshipRows {rows : List (Text × Text × Text × Text)} {t : Tables}
    (r : RelationshipRow) (hr : r.key ∉ rows ∨ ∀ x ∈ t.relationships, x.key ≠ r.key) :
    r ∈ (t.upsertRelationshipRows rows).relationships ↔
      r ∈ t.relationships ∨ r ∈ countedRelationships rows := by
  have hiter : ∀ (n : Nat) (x : RelationshipRow),
      (fun r : RelationshipRow => { r with weight := r.weight + 1 })^[n] x =
        { x with weight := x.weight + n } := by
    intro n
    induction n with
    | zero => simp
    | succ n ih =>
        intro x
        rw [Function.iterate_succ_apply, ih]
        simp only [RelationshipRow.mk.injEq, true_and, and_true]
        push_cast
        rw [add_assoc, add_comm (1 : ℚ)]
  apply Tables.mem_upsertRelationshipRows_iff.trans
  rw [mem_countedRelationships]
  obtain hrows | hold := hr
  · have hcount : rows.count r.key = 0 := List.count_eq_zero_of_not_mem hrows
    constructor
    · rintro (⟨x, hx, -, heq⟩ | ⟨-, hmem, -⟩)
      · rw [hcount] at heq
        exact Or.inl (heq ▸ hx)
      · exact absurd hmem hrows
    · rintro (h | ⟨hmem, -⟩)
      · exact Or.inl ⟨r, h, rfl, by rw [hcount]; rfl⟩
      · exact absurd hmem hrows
  · have hsum : r.key ∈ rows → (1 : ℚ) + (rows.count r.key - 1 : ℕ) = rows.count r.key := by
      intro hmem
      obtain ⟨n, hn⟩ := Nat.exists_eq_add_of_lt (List.count_pos_iff.mpr hmem)
      rw [hn, Nat.zero_add, Nat.add_sub_cancel]
      push_cast
      exact add_comm _ _
    constructor
    · rintro (⟨x, hx, hxr, -⟩ | ⟨-, hmem, heq⟩)
      · exact absurd hxr (hold x hx)
      · rw [hiter] at heq
        have hweight := congrArg RelationshipRow.weight heq
        exact Or.inr ⟨hmem, hweight.trans (hsum hmem)⟩
    · rintro (h | ⟨hmem, hweight⟩)
      · exact absurd rfl (hold r h)
      · refine Or.inr ⟨hold, hmem, ?_⟩
        rw [hiter]
        have hw := hweight.trans (hsum hmem).symm
        obtain ⟨a, b, c, x, d⟩ := r
        simp only at hw
        rw [hw]
        rfl

/-- The first relationships of a file carry their multiplicities as weights. -/
theorem upsertRelationships_view {rows : List (Text × Text × Text × Text)}
    (hdoc : ∀ k ∈ rows, k.2.2.2 = p) (hnone : (w.view p).relationships = ∅)
    (h : w.store.upsertRelationships rows = .ok s') :
    ({ w with store := s' } : World).view p =
        { w.view p with relationships := countedRelationships rows } ∧
      SameElsewhere p w { w with store := s' } := by
  have hview := view_of_tables (w := w) (GraphStore.upsertRelationships_tables h)
  have hnew : ∀ r ∈ countedRelationships rows, r.sourceDoc = p :=
    fun r hr => hdoc _ (mem_countedRelationships.mp hr).1
  have hr : ∀ r, r ∈ (w.store.toTables.upsertRelationshipRows rows).relationships ↔
      r ∈ w.store.relationships ∨ r ∈ countedRelationships rows := by
    intro r
    apply mem_upsertRelationshipRows
    by_cases hrows : r.key ∈ rows
    · refine Or.inr fun x hx hxr => ?_
      have hxp : x.sourceDoc = p := (congrArg (fun k => k.2.2.2) hxr).trans (hdoc _ hrows)
      have hmem := (mem_view_relationships w p x).mpr ⟨hx, hxp⟩
      rw [hnone] at hmem
      exact Finset.notMem_empty x hmem
    · exact Or.inl hrows
  constructor
  · rw [hview p]
    refine FileView.ext rfl rfl rfl ?_ rfl rfl rfl
    ext r
    rw [Table.mem_select, hr]
    constructor
    · rintro ⟨hold | hcounted, hrp⟩
      · have hmem := (mem_view_relationships w p r).mpr ⟨hold, hrp⟩
        rw [hnone] at hmem
        exact absurd hmem (Finset.notMem_empty r)
      · exact hcounted
    · exact fun hcounted => ⟨Or.inr hcounted, hnew r hcounted⟩
  · intro q hq
    rw [hview q]
    refine FileView.ext rfl rfl rfl ?_ rfl rfl rfl
    ext r
    rw [Table.mem_select, hr, mem_view_relationships]
    constructor
    · rintro ⟨hold | hcounted, hrq⟩
      · exact ⟨hold, hrq⟩
      · exact absurd (hrq.symm.trans (hnew r hcounted)) hq
    · exact fun ⟨hold, hrq⟩ => ⟨Or.inl hold, hrq⟩

/-- Links of the file's own chunks are added to its links. -/
theorem linkChunks_view {pairs : List (Text × Text)}
    (hids : ∀ x ∈ pairs, x.1 ∈ (w.view p).chunkIds)
    (h : w.store.linkChunks pairs = .ok s') :
    ({ w with store := s' } : World).view p =
        { w.view p with links := (w.view p).links ∪ linkRows pairs } ∧
      SameElsewhere p w { w with store := s' } := by
  have hview := view_of_tables (w := w) (GraphStore.linkChunks_tables h)
  have hl : ∀ l, l ∈ (w.store.toTables.insertLinks (pairs.map fun x => ⟨x.1, x.2⟩)).chunkEntities ↔
      l ∈ w.store.chunkEntities ∨ l ∈ linkRows pairs := by
    intro l
    rw [linkRows, List.mem_toFinset]
    exact Table.mem_insertAllOrIgnore Function.injective_id _ _ l
  have hown : ∀ l ∈ linkRows pairs, l.chunkId ∈ (w.view p).chunkIds :=
    fun l hlm => hids _ (mem_linkRows.mp hlm)
  constructor
  · rw [hview p]
    refine FileView.ext rfl rfl rfl rfl ?_ rfl rfl
    ext l
    rw [mem_fileLinks, hl, Finset.mem_union, mem_view_links]
    constructor
    · rintro ⟨hold | hnew, hc⟩
      · exact Or.inl ⟨hold, hc⟩
      · exact Or.inr hnew
    · rintro (⟨hold, hc⟩ | hnew)
      · exact ⟨Or.inl hold, hc⟩
      · obtain ⟨c, hc, hcp, hcl⟩ := (mem_view_chunkIds w p _).mp (hown l hnew)
        exact ⟨Or.inr hnew, c, hc, hcl, hcp⟩
  · intro q hq
    rw [hview q]
    refine FileView.ext rfl rfl rfl rfl ?_ rfl rfl
    ext l
    rw [mem_fileLinks, hl, mem_view_links]
    constructor
    · rintro ⟨hold | hnew, c, hc, hcl, hcq⟩
      · exact ⟨hold, c, hc, hcl, hcq⟩
      · have hreg := (mem_view_chunkIds w q l.chunkId).mpr ⟨c, hc, hcq, hcl⟩
        exact absurd (chunkIds_unique w q hreg (hown l hnew)) hq
    · exact fun ⟨hold, hc⟩ => ⟨Or.inl hold, hc⟩

/-- Caching a reply replaces the file's row for that batch. -/
theorem cacheExtraction_view {i : Nat} {digest reply : Text}
    (h : w.store.cacheExtraction p i digest reply = .ok s') :
    ({ w with store := s' } : World).view p =
        { w.view p with
          cached := insert ⟨p, i, digest, reply⟩
            ((w.view p).cached.filter fun c => c.batchIndex ≠ i) } ∧
      SameElsewhere p w { w with store := s' } := by
  have hview := view_of_tables (w := w) (GraphStore.cacheExtraction_tables h)
  have hk := Table.mem_insertOrReplace w.store.extractionCache ⟨p, i, digest, reply⟩
  constructor
  · rw [hview p]
    refine FileView.ext rfl rfl rfl rfl rfl ?_ rfl
    ext c
    rw [Table.mem_select, Finset.mem_insert, Finset.mem_filter, mem_view_cached]
    apply (and_congr_left' (hk c)).trans
    constructor
    · rintro ⟨rfl | ⟨hold, hkey⟩, hcp⟩
      · exact Or.inl rfl
      · exact Or.inr ⟨⟨hold, hcp⟩, fun hi => hkey (Prod.ext hcp hi)⟩
    · rintro (rfl | ⟨⟨hold, hcp⟩, hi⟩)
      · exact ⟨Or.inl rfl, rfl⟩
      · exact ⟨Or.inr ⟨hold, fun hkey => hi (Prod.mk.inj hkey).2⟩, hcp⟩
  · intro q hq
    rw [hview q]
    refine FileView.ext rfl rfl rfl rfl rfl ?_ rfl
    ext c
    rw [Table.mem_select, mem_view_cached]
    apply (and_congr_left' (hk c)).trans
    constructor
    · rintro ⟨rfl | ⟨hold, -⟩, hcq⟩
      · exact absurd hcq.symm hq
      · exact ⟨hold, hcq⟩
    · rintro ⟨hold, hcq⟩
      exact ⟨Or.inr ⟨hold, fun hkey => hq (hcq.symm.trans (Prod.mk.inj hkey).1)⟩, hcq⟩

/-- Recording a fingerprint sets it. -/
theorem upsertHash_view {digest : Text} (h : w.store.upsertHash p digest = .ok s') :
    ({ w with store := s' } : World).view p =
        { w.view p with fingerprint := some digest } ∧
      SameElsewhere p w { w with store := s' } := by
  have ht := GraphStore.upsertHash_tables h
  have hf := Table.mem_insertOrReplace w.store.fingerprints ⟨p, digest⟩
  have hview := view_of_tables (w := w) ht
  constructor
  · have hhash : s'.getHash p = some digest := by
      rw [GraphStore.getHash_eq_some_iff, ht]
      exact (hf _).mpr (Or.inl rfl)
    refine FileView.ext ?_ rfl ?_ ?_ ?_ ?_ hhash <;> rw [hview p] <;> rfl
  · intro q hq
    have hhash : s'.getHash q = w.store.getHash q := by
      refine getHash_congr fun f hfq => ?_
      rw [ht]
      apply (hf f).trans
      constructor
      · rintro (rfl | ⟨hold, -⟩)
        · exact absurd hfq.symm hq
        · exact hold
      · exact fun hold => Or.inr ⟨hold, fun hkey => hq (hfq.symm.trans hkey)⟩
    refine FileView.ext ?_ rfl ?_ ?_ ?_ ?_ hhash <;> rw [hview q] <;> rfl

end Writes

end LocalGraphRag.Ingest
