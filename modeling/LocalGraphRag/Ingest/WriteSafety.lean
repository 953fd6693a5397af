import LocalGraphRag.Ingest.Discipline
import LocalGraphRag.Ingest.Replay

/-!
# Safety of the writes

Over a cleaned file, `_write_index_data` leaves exactly the written view when
it returns, and a tracked part of it wherever it stops.
-/

namespace LocalGraphRag.Ingest

open Python Relational LocalGraphRag.Graph Effects

section Programs
variable {lib : Builtins} {D : Discipline lib} {w : World} {p : Text}

section Extraction
variable {cfg : Settings}

/-- Only the cached replies of the file changed. -/
def CacheOnly (p : Text) (w w' : World) : Prop :=
  SameElsewhere p w w' ∧ ∃ cached, w'.view p = { w.view p with cached := cached }

theorem CacheOnly.of_views {w w' : World} (h : ∀ q, w'.view q = w.view q) :
    CacheOnly p w w' := ⟨fun q _ => h q, (w.view p).cached, h p⟩

theorem CacheOnly.trans {w₁ w₂ w₃ : World} (h : CacheOnly p w₁ w₂)
    (h' : CacheOnly p w₂ w₃) : CacheOnly p w₁ w₃ := by
  obtain ⟨helse, c, hc⟩ := h
  obtain ⟨helse', c', hc'⟩ := h'
  exact ⟨helse.trans helse', c', by rw [hc', hc]⟩

/-- Under a discipline the cached replies of every file may be replayed. -/
theorem Discipline.replayable : Replayable lib D.ollama D.guard p D.Inv (CacheOnly p) where
  generates := D.generates
  refl := fun _ => CacheOnly.of_views fun _ => rfl
  trans := CacheOnly.trans
  read := by
    intro w o c hw ho
    exact ⟨hw.of_views (step_view w ho c), CacheOnly.of_views (step_view w ho c)⟩
  cached := by
    intro w i digest reply hw hget
    have hmem := (GraphStore.getCachedExtraction_eq_some_iff ..).mp hget
    exact (hw p).cacheSound _ ((mem_view_cached w p _).mpr ⟨hmem, rfl⟩)
  cache := by
    intro w i digest reply s' hw hanswered hs'
    obtain ⟨hview, helse⟩ := cacheExtraction_view hs'
    refine ⟨hw.of_elsewhere helse ?_, helse, _, hview⟩
    rw [hview]
    refine ⟨(hw p).tracked, (hw p).rooted, ?_, D.recache _ (hw p).kept⟩
    intro row hrow
    obtain rfl | hold := Finset.mem_insert.mp hrow
    · exact hanswered
    · exact (hw p).cacheSound row (Finset.mem_filter.mp hold).1

theorem extractUnlessHistory_establishes (hw : D.Inv w) (chunks : List Text) :
    Leaves D (extractUnlessHistory lib cfg chunks p) (fun result w' =>
      CacheOnly p w w' ∧ Extracted lib D.ollama cfg p chunks result) w := by
  unfold extractUnlessHistory
  split_ifs with hgit
  · exact establishes_ret hw ⟨CacheOnly.of_views fun _ => rfl, Or.inl ⟨hgit, rfl⟩⟩
  · apply safe_mono (Discipline.replayable.extractEntitiesForFile hw chunks)
    rintro _ w' ⟨hw', hquiet, result, rfl, hres⟩
    refine ⟨hw', ?_⟩
    rintro _ ⟨⟩
    exact ⟨hquiet, Or.inr ⟨by simpa using hgit, hres⟩⟩

end Extraction

section Write
variable {cfg : Settings} {points : List Point}

/-- The invariant of a file between the registration of its chunks and its
fingerprint, whatever else is written by then. -/
theorem fileInv_registered (hne : points ≠ []) {reached : Finset Point}
    (hreached : reached ⊆ points.toFinset) {mentions : Finset MentionRow}
    {relationships : Finset RelationshipRow} {links : Finset LinkRow}
    {cached : Finset CacheRow}
    (hcache : (FileView.bare cached none).CacheSound lib D.ollama) :
    D.FileInv p ⟨(chunkRows p (points.map Point.id)).toFinset, reached, mentions,
      relationships, links, cached, none⟩ := by
  refine Discipline.fileInv_unmarked ?_ ?_ hcache rfl
  · change reached.image Point.id ⊆
      (chunkRows p (points.map Point.id)).toFinset.image ChunkRow.chunkId
    rw [chunkRows_image_chunkId]
    intro id hid
    obtain ⟨x, hx, rfl⟩ := Finset.mem_image.mp hid
    exact List.mem_toFinset.mpr
      (List.mem_map_of_mem (List.mem_toFinset.mp (hreached hx)))
  · intro hempty
    have himage := congrArg (Finset.image ChunkRow.chunkId) hempty
    change (chunkRows p (points.map Point.id)).toFinset.image ChunkRow.chunkId = _ at himage
    rw [chunkRows_image_chunkId, Finset.image_empty, List.toFinset_eq_empty_iff,
      List.map_eq_nil_iff] at himage
    exact absurd himage hne

/-- A transaction that gives the file a view with the invariant, and no other file any. -/
theorem write_establishes {op : StoreWrite} (v : FileView) (hw : D.Inv w) (hv : D.FileInv p v)
    (hop : ∀ s', op.apply w.store = .ok s' → ({ w with store := s' } : World).view p = v ∧
      SameElsewhere p w { w with store := s' }) :
    Leaves D (Prog.perform (Call.write op)) (fun _ w' => w'.view p = v) w := by
  refine safe_write (fun e => ⟨hw, hw, by simp⟩) fun s' hs' => ?_
  obtain ⟨hview, helse⟩ := hop s' hs'
  have hw' : D.Inv { w with store := s' } := hw.of_elsewhere helse (hview ▸ hv)
  exact ⟨hw', hw', fun _ _ => hview⟩

/-- All vectors of a file, or those that a failed call reached. -/
theorem upsertPoints_establishes (hw : D.Inv w) {cached : Finset CacheRow}
    (hview : w.view p = ⟨(chunkRows p (points.map Point.id)).toFinset, ∅, ∅, ∅, ∅, cached, none⟩)
    (hne : points ≠ []) (hnodup : (points.map Point.id).Nodup)
    (hfile : ∀ x ∈ points, x.filepath = p) :
    Leaves D (Prog.perform (Call.upsertPoints points)) (fun _ w' => w'.view p =
      ⟨(chunkRows p (points.map Point.id)).toFinset, points.toFinset, ∅, ∅, ∅, cached, none⟩)
      w := by
  have hreached : ∀ l : List Point, l.Sublist points →
      D.Inv (w.upsertPoints l) ∧ (w.upsertPoints l).view p =
        { w.view p with points := l.toFinset } := by
    intro l hl
    have hlview := upsertPoints_view (w := w) (hnodup.sublist (hl.map _))
      (fun x hx => hfile x (hl.subset hx)) (by rw [hview])
    refine ⟨hw.of_elsewhere (upsertPoints_elsewhere hw.tracked
      (fun x hx => hfile x (hl.subset hx)) fun x hx => ?_) ?_, hlview⟩
    · change x.id ∈ (w.view p).chunks.image ChunkRow.chunkId
      rw [hview, chunkRows_image_chunkId]
      exact List.mem_toFinset.mpr (List.mem_map_of_mem (hl.subset hx))
    · rw [hlview, hview]
      refine fileInv_registered hne ?_ (hw.cacheSound hview)
      intro x hx
      exact List.mem_toFinset.mpr (hl.subset (List.mem_toFinset.mp hx))
  refine safe_perform fun c _ => ?_
  obtain h | ⟨e, reached, h⟩ | ⟨e, h⟩ := step_upsertPoints w points c
  · obtain ⟨hw', hview'⟩ := hreached points (List.Sublist.refl _)
    rw [hview] at hview'
    rw [h]
    exact ⟨hw', hw', fun _ _ => hview'⟩
  · obtain ⟨hw', -⟩ := hreached _ List.filter_sublist
    rw [h]
    exact ⟨hw', hw', by simp⟩
  · rw [h]
    exact ⟨hw, hw, by simp⟩

/-- The mentions of a file, whose ids are the slugs of the entities. -/
theorem upsertEntities_establishes (hw : D.Inv w) {entities : List Entity}
    {cached : Finset CacheRow}
    (hview : w.view p = ⟨(chunkRows p (points.map Point.id)).toFinset, points.toFinset, ∅, ∅, ∅,
      cached, none⟩)
    (hne : points ≠ []) (hslugs : (entities.map GraphStore.entitySlug).Nodup) :
    Leaves D (Prog.perform (Call.upsertEntities entities p)) (fun slugs w' =>
      slugs = entities.map GraphStore.entitySlug ∧
        w'.view p = ⟨(chunkRows p (points.map Point.id)).toFinset, points.toFinset,
          (entities.map (GraphStore.mentionRow p)).toFinset, ∅, ∅, cached, none⟩) w := by
  refine safe_perform fun c _ => ?_
  obtain ⟨slugs, s', hs', h⟩ | ⟨e, h⟩ := step_upsertEntities w entities p c
  · obtain ⟨hview', helse⟩ := upsertEntities_view hslugs (by rw [hview]) hs'
    rw [hview] at hview'
    have hw' : D.Inv { w with store := s' } := by
      apply hw.of_elsewhere helse
      rw [hview']
      exact fileInv_registered hne subset_rfl (hw.cacheSound hview)
    rw [h]
    refine ⟨hw', hw', ?_⟩
    rintro _ ⟨⟩
    exact ⟨(GraphStore.upsertEntities_tables hs').1, hview'⟩
  · rw [h]
    exact ⟨hw, hw, by simp⟩

/-- `_write_index_data` over a cleaned file leaves exactly the written view. -/
theorem writeIndexData_establishes (hw : D.Inv w) {cached : Finset CacheRow}
    (hview : w.view p = FileView.bare cached none) {chunks : List Text} (hne : points ≠ [])
    (hnodup : (points.map Point.id).Nodup) (hfile : ∀ x ∈ points, x.filepath = p)
    (hfresh : ∀ id ∈ points.map Point.id, w.FreshId id)
    (hlength : (points.map Point.id).length = chunks.length) {digest : Text}
    (hkept : ∀ result pairs cached', Extracted lib D.ollama cfg p chunks result →
      matchEntityChunks lib chunks (points.map Point.id) result.entities
        (result.entities.map GraphStore.entitySlug) = .ok pairs →
      result.hadFailure = false →
        D.Kept p (writtenView p points result pairs cached' (some digest))) :
    Leaves D (writeIndexData lib cfg p chunks points digest) (fun result w' =>
      Extracted lib D.ollama cfg p chunks result ∧
        ∃ pairs cached', matchEntityChunks lib chunks (points.map Point.id) result.entities
            (result.entities.map GraphStore.entitySlug) = .ok pairs ∧
          w'.view p = writtenView p points result pairs cached'
            (if result.hadFailure then none else some digest)) w := by
  unfold writeIndexData
  set rows := (chunkRows p (points.map Point.id)).toFinset
  -- the chunk ids, then the vectors
  refine (write_establishes ⟨rows, ∅, ∅, ∅, ∅, cached, none⟩ hw
    (fileInv_registered hne (Finset.empty_subset _) (hw.cacheSound hview))
    fun s₁ hs₁ => ?_).bind fun _ w₁ hw₁ hview₁ => ?_
  · have hregistered := registerChunks_view hnodup (fun id hid => (hfresh id hid).1) hs₁
    rwa [hview, FileView.bare, Finset.empty_union] at hregistered
  refine (upsertPoints_establishes hw₁ hview₁ hne hnodup hfile).bind fun _ w₂ hw₂ hview₂ => ?_
  -- the extraction, which may be skipped
  refine (extractUnlessHistory_establishes hw₂ chunks).bind fun result w₃ hw₃ hresult => ?_
  obtain ⟨⟨-, cached₃, hview₃⟩, hextracted⟩ := hresult
  rw [hview₂] at hview₃
  -- the mentions, the relationships and the links
  refine (upsertEntities_establishes hw₃ hview₃ hne hextracted.slugs_nodup).bind
    fun slugs w₄ hw₄ hmentions => ?_
  obtain ⟨rfl, hview₄⟩ := hmentions
  set mentions := (result.entities.map (GraphStore.mentionRow p)).toFinset
  set related := countedRelationships (relationshipRows p result.relationships)
  refine (write_establishes ⟨rows, points.toFinset, mentions, related, ∅, cached₃, none⟩ hw₄
    (fileInv_registered hne subset_rfl (hw₄.cacheSound hview₄))
    fun s₅ hs₅ => ?_).bind fun _ w₅ hw₅ hview₅ => ?_
  · have hrelated := upsertRelationships_view (relationshipRows_sourceDoc p _)
      (by rw [hview₄]) hs₅
    rwa [hview₄] at hrelated
  refine establishes_ofExcept_bind hw₅ fun pairs hpairs => ?_
  have hregistered : ∀ x ∈ pairs, x.1 ∈ (w₅.view p).chunkIds := by
    intro x hx
    obtain ⟨e, -, he⟩ := (mem_matchEntityChunks lib hlength hpairs x).mp hx
    change x.1 ∈ (w₅.view p).chunks.image ChunkRow.chunkId
    rw [hview₅, chunkRows_image_chunkId]
    exact List.mem_toFinset.mpr (ends_of_mem_matchedPairs lib he).1
  refine (write_establishes ⟨rows, points.toFinset, mentions, related, linkRows pairs, cached₃,
    none⟩ hw₅ (fileInv_registered hne subset_rfl (hw₅.cacheSound hview₅))
    fun s₆ hs₆ => ?_).bind fun _ w₆ hw₆ hview₆ => ?_
  · have hlinked := linkChunks_view hregistered hs₆
    rwa [hview₅, Finset.empty_union] at hlinked
  -- the fingerprint
  split_ifs with hfailure
  · refine establishes_ret hw₆ ⟨hextracted, pairs, cached₃, hpairs, ?_⟩
    rw [hview₆, if_pos hfailure]
    rfl
  · have hold := hw₆ p
    rw [hview₆] at hold
    have hfinished : D.FileInv p (writtenView p points result pairs cached₃ (some digest)) :=
      ⟨hold.tracked, hold.rooted, hold.cacheSound,
        hkept result pairs cached₃ hextracted hpairs (by simpa using hfailure)⟩
    refine (write_establishes _ hw₆ hfinished fun s₇ hs₇ => ?_).bind fun _ w₇ hw₇ hview₇ => ?_
    · have hmarked := upsertHash_view hs₇
      rwa [hview₆] at hmarked
    · refine establishes_ret hw₇ ⟨hextracted, pairs, cached₃, hpairs, ?_⟩
      rw [hview₇, if_neg hfailure]

end Write

end Programs

end LocalGraphRag.Ingest
