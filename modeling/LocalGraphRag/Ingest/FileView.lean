import LocalGraphRag.Ingest.Indexer

/-!
# What a file owns

The view of a file is everything in either store that is attributed to it. Each
call of the pipeline changes the view of one file and no other, so invariants
of the whole state are stated and proved one view at a time.
-/

namespace LocalGraphRag.Ingest

open Python Relational LocalGraphRag.Graph Effects

/-- Everything attributed to one file. -/
@[ext] structure FileView where
  chunks : Finset ChunkRow
  points : Finset Point
  mentions : Finset MentionRow
  relationships : Finset RelationshipRow
  links : Finset LinkRow
  cached : Finset CacheRow
  fingerprint : Option Text

namespace FileView

/-- The ids registered for the file. -/
def chunkIds (v : FileView) : Finset Text := v.chunks.image ChunkRow.chunkId

/-- The ids of its Qdrant points. -/
def pointIds (v : FileView) : Finset Text := v.points.image Point.id

/-- The entities the file touches. -/
def entityIds (v : FileView) : Finset Text :=
  v.mentions.image MentionRow.entityId ∪ v.links.image LinkRow.entityId ∪
    v.relationships.image RelationshipRow.sourceId ∪
    v.relationships.image RelationshipRow.targetId

/-- Nothing is left but cached extractions. -/
def cleared (v : FileView) : FileView := ⟨∅, ∅, ∅, ∅, ∅, v.cached, none⟩

end FileView

/-- The links of a file: those of its registered chunks. -/
def fileLinks (t : Tables) (p : Text) : Finset LinkRow :=
  t.chunkEntities.select fun l => ∃ c ∈ t.chunks, c.chunkId = l.chunkId ∧ c.filepath = p

/-- The view of a file in a world. -/
def World.view (w : World) (p : Text) : FileView where
  chunks := w.store.chunks.select fun c => c.filepath = p
  points := w.points.select fun q => q.filepath = p
  mentions := w.store.entityMentions.select fun m => m.sourceDoc = p
  relationships := w.store.relationships.select fun r => r.sourceDoc = p
  links := fileLinks w.store.toTables p
  cached := w.store.extractionCache.select fun c => c.filepath = p
  fingerprint := w.store.getHash p

/-- Only the view of `p` may differ. -/
def SameElsewhere (p : Text) (w w' : World) : Prop := ∀ q ≠ p, w'.view q = w.view q

theorem SameElsewhere.refl (p : Text) (w : World) : SameElsewhere p w w := fun _ _ => rfl

theorem SameElsewhere.trans {p : Text} {w₁ w₂ w₃ : World} (h : SameElsewhere p w₁ w₂)
    (h' : SameElsewhere p w₂ w₃) : SameElsewhere p w₁ w₃ :=
  fun q hq => (h' q hq).trans (h q hq)

section Membership
variable (w : World) (p : Text)

@[simp] theorem mem_view_chunks (c : ChunkRow) :
    c ∈ (w.view p).chunks ↔ c ∈ w.store.chunks ∧ c.filepath = p := by
  simp [World.view]

@[simp] theorem mem_view_points (q : Point) :
    q ∈ (w.view p).points ↔ q ∈ w.points ∧ q.filepath = p := by
  simp [World.view]

@[simp] theorem mem_view_mentions (m : MentionRow) :
    m ∈ (w.view p).mentions ↔ m ∈ w.store.entityMentions ∧ m.sourceDoc = p := by
  simp [World.view]

@[simp] theorem mem_view_relationships (r : RelationshipRow) :
    r ∈ (w.view p).relationships ↔ r ∈ w.store.relationships ∧ r.sourceDoc = p := by
  simp [World.view]

theorem mem_fileLinks (t : Tables) (l : LinkRow) :
    l ∈ fileLinks t p ↔
      l ∈ t.chunkEntities ∧ ∃ c ∈ t.chunks, c.chunkId = l.chunkId ∧ c.filepath = p := by
  simp [fileLinks]

@[simp] theorem mem_view_links (l : LinkRow) :
    l ∈ (w.view p).links ↔ l ∈ w.store.chunkEntities ∧
      ∃ c ∈ w.store.chunks, c.chunkId = l.chunkId ∧ c.filepath = p :=
  mem_fileLinks p _ l

@[simp] theorem mem_view_cached (c : CacheRow) :
    c ∈ (w.view p).cached ↔ c ∈ w.store.extractionCache ∧ c.filepath = p := by
  simp [World.view]

@[simp] theorem view_fingerprint : (w.view p).fingerprint = w.store.getHash p := rfl

theorem fileEntityIds_eq : w.store.toTables.fileEntityIds p = (w.view p).entityIds := rfl

theorem mem_view_chunkIds (id : Text) :
    id ∈ (w.view p).chunkIds ↔ ∃ c ∈ w.store.chunks, c.filepath = p ∧ c.chunkId = id := by
  simp [FileView.chunkIds, and_assoc]

theorem mem_view_pointIds (id : Text) :
    id ∈ (w.view p).pointIds ↔ ∃ q ∈ w.points, q.filepath = p ∧ q.id = id := by
  simp [FileView.pointIds, and_assoc]

/-- A chunk id is registered for one file only. -/
theorem chunkIds_unique {q id : Text} (hp : id ∈ (w.view p).chunkIds)
    (hq : id ∈ (w.view q).chunkIds) : p = q := by
  obtain ⟨c, hc, hcp, hcid⟩ := (mem_view_chunkIds w p id).mp hp
  obtain ⟨d, hd, hdq, hdid⟩ := (mem_view_chunkIds w q id).mp hq
  have hcd := w.store.chunks.eq_of_key hc hd (hcid.trans hdid.symm)
  rw [← hcp, ← hdq, hcd]

end Membership

/-- Worlds with the same tables and points give the same views. -/
theorem view_congr {w w' : World} (hs : w'.store = w.store) (hp : w'.points = w.points)
    (p : Text) : w'.view p = w.view p := by
  simp only [World.view, hs, hp]

/-- The view of a file after a write, read off the tables it leaves. -/
theorem view_of_tables {w : World} {s' : GraphStore} {t : Tables} (ht : s'.toTables = t)
    (p : Text) : ({ w with store := s' } : World).view p =
      { chunks := t.chunks.select fun c => c.filepath = p
        points := (w.view p).points
        mentions := t.entityMentions.select fun m => m.sourceDoc = p
        relationships := t.relationships.select fun r => r.sourceDoc = p
        links := fileLinks t p
        cached := t.extractionCache.select fun c => c.filepath = p
        fingerprint := fetchOne ((t.fingerprints.select fun f => f.filepath = p).image
          FingerprintRow.sha256) } := by
  subst ht
  rfl

/-- The fingerprint of a file is read off the fingerprint rows. -/
theorem getHash_congr {s s' : GraphStore} {p : Text}
    (h : ∀ f : FingerprintRow, f.filepath = p →
      (f ∈ s'.fingerprints ↔ f ∈ s.fingerprints)) : s'.getHash p = s.getHash p := by
  cases hs : s.getHash p with
  | none =>
      rw [GraphStore.getHash_eq_none_iff] at hs ⊢
      exact fun f hf hfp => hs f ((h f hfp).mp hf) hfp
  | some a =>
      rw [GraphStore.getHash_eq_some_iff] at hs ⊢
      exact (h _ rfl).mpr hs

section Points
variable {w : World} {p : Text}

/-- The invariant behind every vector deletion: a point's id is registered. -/
def FileView.Tracked (v : FileView) : Prop := v.pointIds ⊆ v.chunkIds

/-- Deleting points by ids registered for one file touches no other file. -/
theorem deletePoints_elsewhere (htracked : ∀ q, (w.view q).Tracked) {ids : Finset Text}
    (hids : ids ⊆ (w.view p).chunkIds) : SameElsewhere p w (w.deletePoints ids) := by
  intro q hq
  have hpoints : ((w.deletePoints ids).view q).points = (w.view q).points := by
    ext x
    simp only [mem_view_points, World.deletePoints, Table.mem_deleteWhere]
    constructor
    · rintro ⟨⟨hx, -⟩, hxq⟩
      exact ⟨hx, hxq⟩
    · rintro ⟨hx, hxq⟩
      refine ⟨⟨hx, fun hid => hq ?_⟩, hxq⟩
      have hreg := htracked q ((mem_view_pointIds w q x.id).mpr ⟨x, hx, hxq, rfl⟩)
      exact chunkIds_unique w q hreg (hids hid)
  exact FileView.ext rfl hpoints rfl rfl rfl rfl rfl

theorem deletePoints_view (ids : Finset Text) :
    (w.deletePoints ids).view p =
      { w.view p with points := (w.view p).points.filter fun x => x.id ∉ ids } := by
  refine FileView.ext rfl ?_ rfl rfl rfl rfl rfl
  ext x
  simp only [mem_view_points, World.deletePoints, Table.mem_deleteWhere,
    Finset.mem_filter]
  constructor
  · rintro ⟨⟨hx, hid⟩, hxp⟩
    exact ⟨⟨hx, hxp⟩, hid⟩
  · rintro ⟨⟨hx, hxp⟩, hid⟩
    exact ⟨⟨hx, hid⟩, hxp⟩

/-- Upserting points of one file under ids registered for it touches no other. -/
theorem upsertPoints_elsewhere (htracked : ∀ q, (w.view q).Tracked) {points : List Point}
    (hfile : ∀ x ∈ points, x.filepath = p)
    (hids : ∀ x ∈ points, x.id ∈ (w.view p).chunkIds) :
    SameElsewhere p w (w.upsertPoints points) := by
  intro q hq
  have hpoints : ((w.upsertPoints points).view q).points = (w.view q).points := by
    ext x
    simp only [mem_view_points, World.upsertPoints]
    constructor
    · rintro ⟨hx, hxq⟩
      obtain hnew | ⟨hold, -⟩ := Table.mem_or_mem_of_mem_insertAllOrReplace hx
      · exact absurd (hxq.symm.trans (hfile x hnew)) hq
      · exact ⟨hold, hxq⟩
    · rintro ⟨hx, hxq⟩
      refine ⟨(Table.mem_insertAllOrReplace_of_key_notMem ?_).mpr hx, hxq⟩
      intro hmem
      obtain ⟨y, hy, hyx⟩ := List.mem_map.mp hmem
      have hreg := htracked q ((mem_view_pointIds w q x.id).mpr ⟨x, hx, hxq, rfl⟩)
      exact hq (chunkIds_unique w q hreg (hyx ▸ hids y hy))
  exact FileView.ext rfl hpoints rfl rfl rfl rfl rfl

/-- Upserting a file's points when it has none leaves exactly those. -/
theorem upsertPoints_view {points : List Point} (hnodup : (points.map Point.id).Nodup)
    (hfile : ∀ x ∈ points, x.filepath = p) (hnone : (w.view p).points = ∅) :
    (w.upsertPoints points).view p = { w.view p with points := points.toFinset } := by
  refine FileView.ext rfl ?_ rfl rfl rfl rfl rfl
  ext x
  simp only [mem_view_points, World.upsertPoints, List.mem_toFinset,
    Table.mem_insertAllOrReplace hnodup]
  constructor
  · rintro ⟨hx | ⟨hx, -⟩, hxp⟩
    · exact hx
    · have : x ∈ (w.view p).points := (mem_view_points w p x).mpr ⟨hx, hxp⟩
      rw [hnone] at this
      exact absurd this (Finset.notMem_empty x)
  · intro hx
    exact ⟨Or.inl hx, hfile x hx⟩

end Points

section Writes
variable {w : World} {p : Text} {s' : GraphStore}

/-- Deleting a file's rows changes nothing that another file owns. -/
theorem deleteFileRows_elsewhere {q : Text} (hq : q ≠ p)
    (ht : s'.toTables = w.store.toTables.deleteFileRows p ∨
      s'.toTables = Tables.deleteCached p (w.store.toTables.deleteFileRows p)) :
    ({ w with store := s' } : World).view q = w.view q := by
  have hc : ∀ c, c ∈ s'.chunks ↔ c ∈ w.store.chunks ∧ c.filepath ≠ p := by
    obtain ht | ht := ht <;> intro c <;> simp [ht, Tables.deleteCached]
  have hl : ∀ l, l ∈ s'.chunkEntities ↔ l ∈ w.store.chunkEntities ∧
      ¬ ∃ c ∈ w.store.chunks, c.chunkId = l.chunkId ∧ c.filepath = p := by
    obtain ht | ht := ht <;> intro l <;> simp [ht, Tables.deleteCached]
  have hm : ∀ m, m ∈ s'.entityMentions ↔ m ∈ w.store.entityMentions ∧ m.sourceDoc ≠ p := by
    obtain ht | ht := ht <;> intro m <;> simp [ht, Tables.deleteCached]
  have hr : ∀ r, r ∈ s'.relationships ↔ r ∈ w.store.relationships ∧ r.sourceDoc ≠ p := by
    obtain ht | ht := ht <;> intro r <;> simp [ht, Tables.deleteCached]
  have hf : ∀ f, f ∈ s'.fingerprints ↔ f ∈ w.store.fingerprints ∧ f.filepath ≠ p := by
    obtain ht | ht := ht <;> intro f <;> simp [ht, Tables.deleteCached]
  have hk : ∀ c : CacheRow, c.filepath = q →
      (c ∈ s'.extractionCache ↔ c ∈ w.store.extractionCache) := by
    intro c hcq
    have hcp : c.filepath ≠ p := fun h => hq (hcq.symm.trans h)
    obtain ht | ht := ht <;> simp [ht, Tables.deleteCached, hcp]
  have hother : ∀ {x : Text}, x = q → x ≠ p := fun hx h => hq (hx.symm.trans h)
  refine FileView.ext ?_ rfl ?_ ?_ ?_ ?_ ?_
  · ext c
    simp only [mem_view_chunks, hc]
    exact ⟨fun h => ⟨h.1.1, h.2⟩, fun h => ⟨⟨h.1, hother h.2⟩, h.2⟩⟩
  · ext m
    simp only [mem_view_mentions, hm]
    exact ⟨fun h => ⟨h.1.1, h.2⟩, fun h => ⟨⟨h.1, hother h.2⟩, h.2⟩⟩
  · ext r
    simp only [mem_view_relationships, hr]
    exact ⟨fun h => ⟨h.1.1, h.2⟩, fun h => ⟨⟨h.1, hother h.2⟩, h.2⟩⟩
  · ext l
    simp only [mem_view_links, hl, hc]
    constructor
    · rintro ⟨⟨hlm, -⟩, c, ⟨hcm, -⟩, hcl, hcq⟩
      exact ⟨hlm, c, hcm, hcl, hcq⟩
    · rintro ⟨hlm, c, hcm, hcl, hcq⟩
      refine ⟨⟨hlm, ?_⟩, c, ⟨hcm, hother hcq⟩, hcl, hcq⟩
      rintro ⟨d, hdm, hdl, hdp⟩
      have hcd := w.store.chunks.eq_of_key hcm hdm (hcl.trans hdl.symm)
      exact hother hcq (hcd ▸ hdp)
  · ext c
    simp only [mem_view_cached]
    exact ⟨fun h => ⟨(hk c h.2).mp h.1, h.2⟩, fun h => ⟨(hk c h.2).mpr h.1, h.2⟩⟩
  · exact getHash_congr fun f hfq =>
      (hf f).trans ⟨fun h => h.1, fun h => ⟨h, hother hfq⟩⟩

theorem deleteFileData_elsewhere (h : w.store.deleteFileData p = .ok s') :
    SameElsewhere p w { w with store := s' } :=
  fun _ hq => deleteFileRows_elsewhere hq (Or.inl (GraphStore.deleteFileData_tables h))

theorem purgeFile_elsewhere (h : w.store.purgeFile p = .ok s') :
    SameElsewhere p w { w with store := s' } :=
  fun _ hq => deleteFileRows_elsewhere hq (Or.inr (GraphStore.purgeFile_tables h))

/-- A deletion leaves the file its points and its cached extractions. -/
theorem deleteFileData_view (h : w.store.deleteFileData p = .ok s') :
    ({ w with store := s' } : World).view p =
      { (w.view p).cleared with points := (w.view p).points } := by
  have ht := GraphStore.deleteFileData_tables h
  refine FileView.ext ?_ rfl ?_ ?_ ?_ ?_ ?_
  · ext c
    simp [ht, FileView.cleared]
  · ext m
    simp [ht, FileView.cleared]
  · ext r
    simp [ht, FileView.cleared]
  · ext l
    simp only [mem_view_links, ht, FileView.cleared, Finset.notMem_empty, iff_false]
    rintro ⟨-, c, hc, -, hcp⟩
    exact ((Table.mem_deleteWhere ..).mp hc).2 hcp
  · ext c
    simp [ht, FileView.cleared]
  · change s'.getHash p = none
    rw [GraphStore.getHash_eq_none_iff]
    intro f hf hfp
    rw [ht] at hf
    exact ((Table.mem_deleteWhere ..).mp hf).2 hfp

/-- A purge leaves the file its points only. -/
theorem purgeFile_view (h : w.store.purgeFile p = .ok s') :
    ({ w with store := s' } : World).view p = ⟨∅, (w.view p).points, ∅, ∅, ∅, ∅, none⟩ := by
  have ht := GraphStore.purgeFile_tables h
  refine FileView.ext ?_ rfl ?_ ?_ ?_ ?_ ?_
  · ext c
    simp [ht, Tables.deleteCached]
  · ext m
    simp [ht, Tables.deleteCached]
  · ext r
    simp [ht, Tables.deleteCached]
  · ext l
    simp only [mem_view_links, ht, Finset.notMem_empty, iff_false]
    rintro ⟨-, c, hc, -, hcp⟩
    exact ((Table.mem_deleteWhere ..).mp hc).2 hcp
  · ext c
    simp [ht, Tables.deleteCached]
  · change s'.getHash p = none
    rw [GraphStore.getHash_eq_none_iff]
    intro f hf hfp
    rw [ht] at hf
    exact ((Table.mem_deleteWhere ..).mp hf).2 hfp

end Writes

end LocalGraphRag.Ingest
